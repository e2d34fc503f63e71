import FogOS.Bio.Commit

/-!
# The buffer cache is transparent

Along every run of clients that follow the protocol, `bread` returns the data of the last
`log_write` or `bwrite` of the block, the buffer of a block in the log header stays in the cache
until the block has been written home, and the reference counts are exact. The protocol is needed:
a client that writes a block with `bwrite` while a commit installs it loses the write, and the
pin of a block is gone before its entry leaves the header.
-/

namespace FogOS.Bio

open Function Library Log System

namespace Clients

variable {L : LogArea} {s s' : System} {p : Pid} {b : BufId} {dev n : Nat}

/-- The protocol of the clients: they use the device of the log, `log_write` blocks outside the log
area, and do not `bwrite` a block that a commit in progress is about to write. -/
def Follows (L : LogArea) (s : System) : Act → Prop
  | .bget _ dev _ _ => dev = rootdev
  | .logWrite _ b => L.Home (s.buf b).blockno
  | .bwrite p b => s.pc p = .user → s.committing = true →
      L.Home (s.buf b).blockno ∧ (s.buf b).blockno ∉ s.lh
  | _ => True

instance (L : LogArea) (s : System) : ∀ act, Decidable (Follows L s act)
  | .bget _ dev _ _ => inferInstanceAs (Decidable (dev = rootdev))
  | .logWrite _ b => inferInstanceAs (Decidable (L.Home (s.buf b).blockno))
  | .bwrite p b => inferInstanceAs (Decidable (s.pc p = .user → s.committing = true →
      L.Home (s.buf b).blockno ∧ (s.buf b).blockno ∉ s.lh))
  | .beginOp _ | .endOp _ | .acquire _ | .fill _ | .modify _ _ _ | .unlock _ _ | .brelse _
  | .commit _ => .isTrue trivial

theorem inv_step {act : Act} (h : s.Inv L) (hg : Follows L s act) (hs : step L s act = .ok s') :
    s'.Inv L := by
  cases act with
  | beginOp p => exact h.beginOp hs
  | endOp p => exact h.endOp hs
  | bget p dev n b => exact h.bget hg hs
  | acquire p => exact h.acquire hs
  | fill p => exact h.fill hs
  | modify p b data => exact h.modify hs
  | logWrite p b => exact h.logWrite hg hs
  | bwrite p b => exact h.bwrite hg hs
  | unlock p b => exact h.unlock hs
  | brelse p => exact h.brelse hs
  | commit p => exact h.commitStep hs

theorem inv_boot (L : LogArea) (data : BufId → Block) (disk : Disk) : (boot data disk).Inv L := by
  have hbuf : ∀ b, (boot data disk).buf b = (zeroed data).buf b := fun b =>
    congrFun (Bcache.foldl_pushFront_buf _ _) b
  have husers : ∀ b, (boot data disk).users b = 0 := by
    intro b
    have hwaiters : (boot data disk).waiters b = 0 :=
      Finset.card_eq_zero.mpr (Finset.filter_eq_empty_iff.mpr fun _ _ => id)
    rw [users, hwaiters, hbuf]
    rfl
  refine ⟨⟨_, Bcache.lru_binit data⟩, ⟨?_, fun _ _ => rfl, by rintro _ ⟨⟩⟩, ⟨?_, ?_⟩,
    ⟨by intros; contradiction, by intros; contradiction, ?_, ?_⟩,
    ⟨List.nodup_nil, by rintro _ ⟨⟩, zero_le, ?_, by rintro _ ⟨⟩, fun _ hp => absurd rfl hp,
      fun _ _ hp => absurd rfl hp, fun _ => rfl⟩, fun _ => trivial, fun _ _ hp => absurd rfl hp⟩
  · intro b
    rw [hbuf]
    exact ⟨by rintro ⟨⟩, by rintro ⟨⟩⟩
  · intro b
    have hpinned : ¬(boot data disk).Pinned b := fun hp => List.not_mem_nil hp.2
    rw [husers, if_neg hpinned, hbuf]
    rfl
  · exact fun b hne => absurd (husers b) hne
  · intro p b hp
    rw [System.Holds, hbuf] at hp
    cases hp
  · intro b x hx
    rw [hbuf] at hx
    cases hx
  · simp [boot]

theorem inv_run {data : BufId → Block} {disk : Disk} {acts : List Act}
    (hg : Guarded (step L) (Follows L) (boot data disk) acts)
    (h : run (step L) (boot data disk) acts = .ok s) : s.Inv L :=
  run_invariant (fun _ _ _ hi hf hs => inv_step hi hf hs) (inv_boot L data disk) hg h

/-- A process is in `bread` of block `n`, with buffer `b`. -/
def InBread (s : System) (p : Pid) (dev n : Nat) (b : BufId) : Prop :=
  s.point p = .waiting dev n b ∨ s.point p = .filling dev n b

/-- A process in `bread` is neither idle nor in `brelse`. -/
theorem InBread.busy (h : InBread s p dev n b) :
    s.point p ≠ .idle ∧ ∀ c, s.point p ≠ .leaving c := by
  rcases h with h | h
  · simp [h]
  · simp [h]

theorem commit_point (hs : s.commit p = .ok s') : s'.point = s.point := by
  obtain ⟨_, hs⟩ := of_guard_not hs
  split at hs <;> (try split at hs) <;> cases hs <;> rfl

/-- Only `acquiresleep` and the read of the disk move a process in `bread`. -/
theorem step_point {act : Act} (hin : InBread s p dev n b) (hs : step L s act = .ok s')
    (hacquire : act ≠ .acquire p) (hfill : act ≠ .fill p) : s'.point p = s.point p := by
  obtain ⟨hidle, hleaving⟩ := hin.busy
  cases act with
  | beginOp q =>
    simp only [step, beginOp] at hs
    split at hs <;> cases hs
    rfl
  | endOp q =>
    simp only [step, endOp] at hs
    split at hs
    · split at hs
      · cases hs
      · split at hs <;> cases hs <;> rfl
    · cases hs
  | bget q dev n c =>
    simp only [step, bget] at hs
    split at hs
    · rename_i hmay
      have hqp : p ≠ q := fun heq => hidle (heq ▸ hmay.1)
      split at hs
      · cases hs
        exact update_of_ne hqp _ _
      · cases hs
    · cases hs
  | acquire q =>
    have hqp : p ≠ q := fun heq => hacquire (by rw [heq])
    simp only [step, acquire] at hs
    split at hs
    · split at hs
      · split at hs <;> cases hs <;> exact update_of_ne hqp _ _
      · cases hs
    · cases hs
  | fill q =>
    have hqp : p ≠ q := fun heq => hfill (by rw [heq])
    simp only [step, fill] at hs
    split at hs
    · cases hs
      exact update_of_ne hqp _ _
    · cases hs
  | modify q c data =>
    simp only [step, System.modify] at hs
    split at hs <;> cases hs
    rfl
  | logWrite q c =>
    simp only [step, System.logWrite] at hs
    split at hs
    · split at hs
      · cases hs
      · split at hs
        · cases hs
        · cases hs
          simp only [record]
          split <;> rfl
    · cases hs
  | bwrite q c =>
    simp only [step, System.bwrite] at hs
    split at hs
    · cases hs
    · split at hs
      · cases hs
      · split at hs
        · cases hs
          rfl
        · split at hs
          · split at hs
            · cases hs
              simp only [written]
              split <;> rfl
            · cases hs
          · cases hs
  | unlock q c =>
    simp only [step, unlock] at hs
    split at hs
    · cases hs
    · rename_i hq
      have hqp : p ≠ q := fun heq => hidle (by rw [heq]; simpa using hq)
      split at hs
      · cases hs
      · split at hs
        · split at hs <;> cases hs
          exact update_of_ne hqp _ _
        · split at hs
          · split at hs <;> cases hs
            exact update_of_ne hqp _ _
          · cases hs
  | brelse q =>
    simp only [step, brelse] at hs
    split at hs
    · rename_i c hq
      have hqp : p ≠ q := fun heq => hleaving c (heq ▸ hq)
      cases hs
      exact update_of_ne hqp _ _
    · cases hs
  | commit q => rw [commit_point hs]

/-- When `bread` returns, the process has the lock of a buffer with the block it asked for and
without unwritten changes. -/
theorem bread_return {act : Act} (h : s.Inv L) (hin : InBread s p dev n b)
    (hs : step L s act = .ok s') (hidle : s'.point p = .idle) :
    s'.Holds p b ∧ (s'.buf b).dev = dev ∧ (s'.buf b).blockno = n ∧ (s'.buf b).valid = true ∧
      s'.dirty b = false := by
  have hmoved : s'.point p ≠ s.point p := fun heq => hin.busy.1 (heq ▸ hidle)
  by_cases hacquire : act = .acquire p
  · subst hacquire
    simp only [step, acquire] at hs
    split at hs
    · rename_i dev' n' b' hpoint
      obtain ⟨hlock, hs⟩ := of_guard hs
      obtain ⟨hdev, hn⟩ := h.points.waiting p dev' n' b' hpoint
      have hclean := h.content.clean_of_unlocked hlock
      rcases hin with hin | hin
      · rw [hpoint] at hin
        cases hin
        split at hs
        · rename_i hvalid
          cases hs
          simp only [returned, System.Holds, buf, setPc, setPoint,
            setBuf, Bcache.setBuf, update_self]
          exact ⟨trivial, hdev, hn, hvalid, hclean⟩
        · cases hs
          simp [setPoint] at hidle
      · rw [hpoint] at hin
        cases hin
    · cases hs
  · by_cases hfill : act = .fill p
    · subst hfill
      simp only [step, fill] at hs
      split at hs
      · rename_i dev' n' b' hpoint
        obtain ⟨hholds, hdev, hn, hinvalid⟩ := h.points.filling p dev' n' b' hpoint
        have hclean := h.content.clean_of_invalid hinvalid
        rcases hin with hin | hin
        · rw [hpoint] at hin
          cases hin
        · rw [hpoint] at hin
          cases hin
          cases hs
          simp only [returned, System.Holds, buf, setPc, setPoint,
            setBuf, Bcache.setBuf, update_self]
          exact ⟨hholds, hdev, hn, trivial, hclean⟩
      · cases hs
    · exact absurd (step_point hin hs hacquire hfill) hmoved

/-- Along every run of clients that follow the protocol: a `bread` that returns gives the latest
data of its block; a block in the header that is not yet unpinned is in a referenced buffer; a
buffer is referenced once by each call between `bget` and `brelse`, and once by the log if it is
pinned; and once a commit has cleared the header no pin is left. -/
theorem bread_returns_latest_write {data : BufId → Block} {disk : Disk} {acts : List Act}
    (hg : Guarded (step L) (Follows L) (boot data disk) acts)
    (h : run (step L) (boot data disk) acts = .ok s) :
    (∀ act s' p dev n b, Follows L s act → step L s act = .ok s' → InBread s p dev n b →
      s'.point p = .idle → s'.Holds p b ∧ (s'.buf b).dev = dev ∧ (s'.buf b).blockno = n ∧
        (s'.buf b).data = s'.latest n) ∧
    (∀ n ∈ s.lh.drop s.unpinned, ∃ b, (s.buf b).dev = rootdev ∧ (s.buf b).blockno = n ∧
      (s.buf b).valid = true ∧ (s.buf b).refcnt ≠ 0) ∧
    (∀ b, (s.buf b).refcnt.toNat = s.users b +
      if (s.buf b).dev = rootdev ∧ (s.buf b).blockno ∈ s.lh.drop s.unpinned then 1 else 0) ∧
    ∀ p, s.pc p = .finish → ∀ b, (s.buf b).refcnt.toNat = s.users b := by
  have hinv := inv_run hg h
  refine ⟨?_, ?_, hinv.refs.count, ?_⟩
  · intro act s' p dev n b hf hs hin hidle
    obtain ⟨hholds, hdev, hn, hvalid, hclean⟩ := bread_return hinv hin hs hidle
    have hinv' := inv_step hinv hf hs
    have hdata := (hinv'.content.clean b).1 (hinv'.refs.device_of_holds hholds) hvalid hclean
    exact ⟨hholds, hdev, hn, hn ▸ hdata⟩
  · intro n hn
    obtain ⟨b, hdev, hblockno, hvalid⟩ := hinv.content.cached n hn
    refine ⟨b, hdev, hblockno, hvalid, fun hzero => ?_⟩
    exact (hinv.refs.unused hzero).2.2 ⟨hdev, hblockno ▸ hn⟩
  · intro p hp b
    have hat := hinv.commit p
    rw [hp] at hat
    have hcount := hinv.refs.count b
    have hpinned : ¬s.Pinned b := by
      intro hpin
      have hmem := hpin.2
      rw [pending, hat.2] at hmem
      simp at hmem
    rwa [if_neg hpinned] at hcount

section Runs

/-- Process 0 changes block 50 in an operation of its own, and `commit` has copied it to the log. -/
def logged : List Act :=
  [.beginOp 0, .bget 0 rootdev 50 0, .acquire 0, .fill 0, .modify 0 0 fun _ => 1, .logWrite 0 0,
    .unlock 0 0, .brelse 0, .endOp 0, .commit 0, .bget 0 rootdev 3 1, .acquire 0, .fill 0,
    .bget 0 rootdev 50 0, .acquire 0, .commit 0, .bwrite 0 1, .unlock 0 0, .brelse 0, .unlock 0 1,
    .brelse 0, .commit 0, .bget 0 rootdev 2 2, .acquire 0, .fill 0, .commit 0, .bwrite 0 2,
    .unlock 0 2, .brelse 0]

/-- `install_trans` writes the block home and unpins it. -/
def installed : List Act :=
  [.bget 0 rootdev 3 1, .acquire 0, .bget 0 rootdev 50 0, .acquire 0, .commit 0, .bwrite 0 0,
    .commit 0]

/-- Process 1 writes block 50 past the log. -/
def intruding : List Act :=
  [.bget 1 rootdev 50 0, .acquire 1, .modify 1 0 fun _ => 2, .bwrite 1 0, .unlock 1 0, .brelse 1]

/-- Process 0 releases both buffers, and process 1 asks for the block. -/
def rereading : List Act :=
  [.unlock 0 1, .brelse 0, .unlock 0 0, .brelse 0, .bget 1 rootdev 50 0, .acquire 1]

/-- Process 0 reads block 50 of device 2, changes it through the root device, and reads it again. -/
def aliasing : List Act :=
  [.bget 0 2 50 0, .acquire 0, .fill 0, .unlock 0 0, .brelse 0, .bget 0 rootdev 50 1, .acquire 0,
    .fill 0, .modify 0 1 fun _ => 1, .bwrite 0 1, .unlock 0 1, .brelse 0, .bget 0 2 50 0, .acquire 0]

/-- A zeroed disk and cache. -/
def blank : System := boot (fun _ _ => 0) fun _ _ => 0

/-- The pin of a block is gone while its entry is still in the header; a `bwrite` during the
installation of a block is lost; and the same block read through another device is stale. -/
theorem pin_and_data_outside_protocol :
    (∃ s, run (step .mkfs) blank (logged ++ installed) = .ok s ∧
      (s.buf 0).blockno ∈ s.lh ∧ (s.buf 0).refcnt.toNat ≠ s.users 0 + 1) ∧
    (∃ s, run (step .mkfs) blank (logged ++ intruding ++ installed ++ rereading) = .ok s ∧
      s.Holds 1 0 ∧ s.point 1 = .idle ∧ (s.buf 0).blockno = 50 ∧
      (s.buf 0).data 0 ≠ s.latest 50 0) ∧
    ∃ s, run (step .mkfs) blank aliasing = .ok s ∧
      s.Holds 0 0 ∧ s.point 0 = .idle ∧ (s.buf 0).blockno = 50 ∧
      (s.buf 0).data 0 ≠ s.latest 50 0 := by
  refine ⟨?_, ?_, ?_⟩
  · have hend : Ends (fun s => (s.buf 0).blockno ∈ s.lh ∧ (s.buf 0).refcnt.toNat ≠ s.users 0 + 1)
        (run (step .mkfs) blank (logged ++ installed)) := by decide +kernel
    exact hend.exists
  · have hend : Ends (fun s => s.Holds 1 0 ∧ s.point 1 = .idle ∧ (s.buf 0).blockno = 50 ∧
        (s.buf 0).data 0 ≠ s.latest 50 0)
        (run (step .mkfs) blank (logged ++ intruding ++ installed ++ rereading)) := by
      decide +kernel
    exact hend.exists
  · have hend : Ends (fun s => s.Holds 0 0 ∧ s.point 0 = .idle ∧ (s.buf 0).blockno = 50 ∧
        (s.buf 0).data 0 ≠ s.latest 50 0) (run (step .mkfs) blank aliasing) := by
      decide +kernel
    exact hend.exists

/-- The run of one operation and its commit up to the unpinning. -/
theorem bread_returns_latest_write_installed : ∃ s,
    run (step .mkfs) blank (logged ++ installed) = .ok s ∧
      Guarded (step .mkfs) (Follows .mkfs) blank (logged ++ installed) ∧
      ∀ b, (s.buf b).refcnt.toNat = s.users b +
        if (s.buf b).dev = rootdev ∧ (s.buf b).blockno ∈ s.lh.drop s.unpinned then 1 else 0 := by
  have hend : Ends (fun s => s.lh = [50]) (run (step .mkfs) blank (logged ++ installed)) := by
    decide +kernel
  have hg : Guarded (step .mkfs) (Follows .mkfs) blank (logged ++ installed) := by decide +kernel
  obtain ⟨s, hrun, _⟩ := hend.exists
  exact ⟨s, hrun, hg, (bread_returns_latest_write hg hrun).2.2.1⟩

end Runs

end Clients

end FogOS.Bio
