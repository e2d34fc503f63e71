import FogOS.Bio.Coherence

/-!
# How the parts of the invariant change

What the other processes do leaves what a statement of `commit` relies on: they cannot change a
buffer that it has locked, and the header is fixed since no operation is in progress. The other
parts of the invariant have one lemma each for a change of one buffer and of one process.
-/

namespace FogOS.Bio

open Function Library Log UInt32 Finset

namespace System

variable {L : LogArea} {s s' : System} {p q : Pid} {b c : BufId} {dev n : Nat}

section Frame

/-- A step of another process, as far as the statement of `p` in `commit` can see. -/
structure Keeps (L : LogArea) (s s' : System) (p : Pid) : Prop where
  lh : s'.lh = s.lh
  unpinned : s'.unpinned = s.unpinned
  latest : ∀ n, n ∈ s.lh ∨ ¬L.Home n → s'.latest n = s.latest n
  disk : ∀ n ∈ s.lh, s'.disk n = s.disk n
  held : ∀ b, s.Holds p b → (s.buf b).valid = true → ∃ r, s'.buf b = { s.buf b with refcnt := r }
  dirty : ∀ b, s.Holds p b → (s.buf b).valid = true → s'.dirty b = s.dirty b

variable (hk : Keeps L s s' p)

include hk

theorem Keeps.has (h : s.Has p b n) : s'.Has p b n := by
  obtain ⟨r, hr⟩ := hk.held b h.holds h.valid
  have hlock : (s'.buf b).lock = some p.val := by
    rw [hr]
    exact h.holds
  exact ⟨hlock, by rw [hr]; exact h.dev, by rw [hr]; exact h.blockno, by rw [hr]; exact h.valid⟩

theorem Keeps.hasClean (h : s.HasClean p b n) : s'.HasClean p b n :=
  ⟨hk.has h.toHas, (hk.dirty b h.holds h.valid).trans h.clean⟩

theorem Keeps.data (h : s.Has p b n) : (s'.buf b).data = (s.buf b).data := by
  obtain ⟨r, hr⟩ := hk.held b h.holds h.valid
  rw [hr]

theorem Keeps.latest_entry {i : Nat} (hi : s.lh[i]? = some n) : s'.latest n = s.latest n :=
  hk.latest n (.inl (List.mem_of_getElem? hi))

omit hk in
/-- The block of an entry of the header lies in the log area. -/
theorem Control.logBlock {i : Nat} (hc : s.Control L) (hi : i < s.lh.length) :
    ¬L.Home (L.start + i + 1) := by
  have hfits := hc.fits
  have hpos := L.size_pos
  simp only [LogArea.Home]
  omega

theorem Keeps.logged (hc : s.Control L) {k : Nat} (h : s.Logged L k) : s'.Logged L k := by
  intro i n hi hn
  rw [hk.lh] at hn
  have hlt : i < s.lh.length := (List.getElem?_eq_some_iff.mp hn).1
  rw [hk.latest_entry hn, hk.latest _ (.inr (hc.logBlock hlt))]
  exact h i n hi hn

theorem Keeps.progress (hc : s.Control L) {pass : Pass} {tail : Nat}
    (h : s.Progress L pass tail) : s'.Progress L pass tail := by
  cases pass with
  | log => exact ⟨hk.unpinned.trans h.1, hk.logged hc h.2⟩
  | install => exact ⟨hk.unpinned.trans h.1, hk.lh ▸ hk.logged hc h.2⟩

theorem Keeps.headTime (hc : s.Control L) {erase : Bool} (h : s.HeadTime L erase) :
    s'.HeadTime L erase := by
  cases erase with
  | false => exact ⟨hk.unpinned.trans h.1, hk.lh ▸ hk.logged hc h.2⟩
  | true => exact ⟨hk.unpinned.trans h.1, hk.lh.trans h.2⟩

/-- What a statement of `commit` relies on is stable under the steps of the others. -/
theorem Keeps.atPc (hc : s.Control L) {x : Pc} (h : s.AtPc L p x) : s'.AtPc L p x := by
  cases x with
  | user => trivial
  | start => exact hk.unpinned.trans h
  | loop pass tail => exact ⟨hk.lh ▸ h.1, hk.progress hc h.2⟩
  | home pass tail l => exact ⟨hk.lh ▸ h.1, hk.progress hc h.2.1, hk.hasClean h.2.2⟩
  | copy pass tail l d =>
    obtain ⟨hprog, hl, n, hn, hd⟩ := h
    exact ⟨hk.progress hc hprog, hk.hasClean hl, n, hk.lh ▸ hn, hk.hasClean hd⟩
  | write pass tail l d =>
    cases pass with
    | log =>
      obtain ⟨hprog, hl, n, hn, hd, hdata⟩ := h
      refine ⟨hk.progress hc hprog, hk.has hl, n, hk.lh ▸ hn, hk.hasClean hd, ?_⟩
      rw [hk.data hl, hdata, hk.latest_entry hn]
    | install =>
      obtain ⟨hprog, hl, n, hn, hd, hdata⟩ := h
      refine ⟨hk.progress hc hprog, hk.hasClean hl, n, hk.lh ▸ hn, hk.has hd, ?_⟩
      rw [hk.data hd, hdata, hk.latest_entry hn]
  | unpin tail l d =>
    obtain ⟨hprog, hl, n, hn, hd, hdisk⟩ := h
    refine ⟨hk.progress hc hprog, hk.hasClean hl, n, hk.lh ▸ hn, hk.hasClean hd, ?_⟩
    rw [hk.disk n (List.mem_of_getElem? hn), hdisk, hk.latest_entry hn]
  | release pass tail l d =>
    obtain ⟨hprog, hl, n, hn, hd⟩ := h
    exact ⟨hk.progress hc hprog, hk.hasClean hl, n, hk.lh ▸ hn, hk.hasClean hd⟩
  | releaseLast pass tail b =>
    obtain ⟨hlt, hprog, n, hb⟩ := h
    exact ⟨hk.lh ▸ hlt, hk.progress hc hprog, n, hk.hasClean hb⟩
  | head erase => exact hk.headTime hc h
  | fillHead erase b => exact ⟨hk.headTime hc h.1, hk.hasClean h.2⟩
  | writeHead erase b => exact ⟨hk.headTime hc h.1, hk.has h.2⟩
  | releaseHead erase b => exact ⟨hk.headTime hc h.1, hk.hasClean h.2⟩
  | clear => rw [AtPc, hk.unpinned, hk.lh]; exact h
  | finish => exact ⟨hk.unpinned.trans h.1, hk.lh.trans h.2⟩

end Frame

/-- A step that leaves the statements of `commit` where they are. -/
theorem Inv.commit_of_keeps (h : s.Inv L) (hpc : s'.pc = s.pc)
    (hk : ∀ q, s.pc q ≠ .user → Keeps L s s' q) (q : Pid) : s'.AtPc L q (s'.pc q) := by
  rw [hpc]
  by_cases hq : s.pc q = .user
  · rw [hq]
    trivial
  · exact (hk q hq).atPc h.control (h.commit q)

/-- A step of the process in `commit`: no other process is there. -/
theorem Inv.commit_of_setPc (h : s.Inv L) {x : Pc} (hp : s.pc p ≠ .user)
    (hpc : s'.pc = update s.pc p x) (hx : s'.AtPc L p x) (q : Pid) : s'.AtPc L q (s'.pc q) := by
  rw [hpc]
  by_cases hq : q = p
  · subst hq
    rw [update_self]
    exact hx
  · rw [update_of_ne hq]
    by_cases huser : s.pc q = .user
    · rw [huser]
      trivial
    · exact absurd (h.control.single q p huser hp) hq

/-- Between two states one buffer has changed, and one process has moved in `bread` or `brelse`;
the log and the disk are as before. -/
structure Moved (s s' : System) (p : Pid) (x : Point) (b : BufId) (v : Buf) (dirty : Bool) :
    Prop where
  buf : s'.buf = update s.buf b v
  dirty : s'.dirty = update s.dirty b dirty
  point : s'.point = update s.point p x
  disk : s'.disk = s.disk
  latest : s'.latest = s.latest
  lh : s'.lh = s.lh
  unpinned : s'.unpinned = s.unpinned
  outstanding : s'.outstanding = s.outstanding
  committing : s'.committing = s.committing
  inOp : s'.inOp = s.inOp

namespace Moved

variable {x : Point} {v : Buf} {d : Bool} (hm : Moved s s' p x b v d)

include hm

theorem buf_self : s'.buf b = v := by rw [hm.buf, update_self]

theorem buf_ne (hc : c ≠ b) : s'.buf c = s.buf c := by rw [hm.buf, update_of_ne hc]

theorem point_self : s'.point p = x := by rw [hm.point, update_self]

theorem point_ne (hq : q ≠ p) : s'.point q = s.point q := by
  rw [hm.point, update_of_ne hq]

theorem pending_eq : s'.pending = s.pending := by rw [pending, pending, hm.lh, hm.unpinned]

theorem content (h : s.Content) (hv : CleanBuf s.latest v d)
    (hcached : s.Pinned b → (s.buf b).valid = true →
      v.dev = (s.buf b).dev ∧ v.blockno = (s.buf b).blockno ∧ v.valid = true) :
    s'.Content where
  clean c := by
    rw [hm.latest, hm.dirty]
    by_cases hc : c = b
    · subst hc
      rw [hm.buf_self, update_self]
      exact hv
    · rw [hm.buf_ne hc, update_of_ne hc]
      exact h.clean c
  stored n hn := by
    rw [hm.pending_eq] at hn
    rw [hm.disk, hm.latest]
    exact h.stored n hn
  cached n hn := by
    rw [hm.pending_eq] at hn
    obtain ⟨c, hdev, hblockno, hvalid⟩ := h.cached n hn
    refine ⟨c, ?_⟩
    by_cases hc : c = b
    · subst hc
      obtain ⟨hd, hn', hv'⟩ := hcached ⟨hdev, hblockno ▸ hn⟩ hvalid
      rw [hm.buf_self]
      exact ⟨hd.trans hdev, hn'.trans hblockno, hv'⟩
    · rw [hm.buf_ne hc]
      exact ⟨hdev, hblockno, hvalid⟩

theorem waiters (c : BufId) : s'.waiters c + (if (s.point p).Uses c then 1 else 0) =
    s.waiters c + if x.Uses c then 1 else 0 := by
  rw [System.waiters, hm.point]
  exact card_change (Point.Uses c) s.point p x

theorem pinned_ne (hc : c ≠ b) : s'.Pinned c ↔ s.Pinned c := by
  rw [Pinned, Pinned, hm.buf_ne hc, hm.pending_eq]

/-- The count of the buffer changes with its users. -/
theorem refs (h : s.Refs) (huse : ∀ c, c ≠ b → ((s.point p).Uses c ↔ x.Uses c))
    (hpinned : v.dev = rootdev ∧ v.blockno ∈ s.pending ↔ s.Pinned b)
    (hcount : v.refcnt.toNat + (if (s.point p).Uses b then 1 else 0) +
        (if (s.buf b).lock = none then 0 else 1) =
      (s.buf b).refcnt.toNat + (if x.Uses b then 1 else 0) + if v.lock = none then 0 else 1)
    (hdevice : v.dev = rootdev) : s'.Refs := by
  have husers : ∀ c, c ≠ b → s'.users c = s.users c := by
    intro c hc
    have hw := hm.waiters c
    simp only [huse c hc] at hw
    rw [users, users, hm.buf_ne hc]
    omega
  constructor
  · intro c
    by_cases hc : c = b
    · subst hc
      have hw := hm.waiters c
      have hold := h.count c
      have hpin : s'.Pinned c ↔ s.Pinned c := by
        rw [Pinned, hm.buf_self, hm.pending_eq]
        exact hpinned
      rw [users] at hold ⊢
      rw [hm.buf_self]
      simp only [hpin]
      omega
    · rw [hm.buf_ne hc, husers c hc]
      simp only [hm.pinned_ne hc]
      exact h.count c
  · intro c hne
    by_cases hc : c = b
    · subst hc
      rw [hm.buf_self]
      exact hdevice
    · rw [hm.buf_ne hc]
      rw [husers c hc] at hne
      exact h.device c hne

theorem points (h : s.Points)
    (hp : ∀ dev n c, s.point p = .filling dev n c → c = b)
    (hwait : ∀ q dev n, q ≠ p → s.point q = .waiting dev n b → v.dev = dev ∧ v.blockno = n)
    (hheld : ∀ q, q ≠ p → s.Holds q b → v.lock = some q.val ∧ v.dev = (s.buf b).dev ∧
      v.blockno = (s.buf b).blockno ∧ v.valid = (s.buf b).valid)
    (hlock : ∀ y, v.lock = some y → ∃ q : Pid, y = q.val ∧ (q = p ∨ s.Holds q b))
    (hfilled : v.lock = some p.val → v.valid = true ∨ ∃ dev n, x = .filling dev n b)
    (hxwait : ∀ dev n c, x = .waiting dev n c → c = b ∧ v.dev = dev ∧ v.blockno = n)
    (hxfill : ∀ dev n c, x = .filling dev n c →
      c = b ∧ v.lock = some p.val ∧ v.dev = dev ∧ v.blockno = n ∧ v.valid = false) :
    s'.Points := by
  constructor
  · intro q dev n c hq
    by_cases hqp : q = p
    · subst hqp
      obtain ⟨rfl, hv⟩ := hxwait dev n c (hm.point_self.symm.trans hq)
      rwa [hm.buf_self]
    · rw [hm.point_ne hqp] at hq
      by_cases hc : c = b
      · subst hc
        rw [hm.buf_self]
        exact hwait q dev n hqp hq
      · rw [hm.buf_ne hc]
        exact h.waiting q dev n c hq
  · intro q dev n c hq
    by_cases hqp : q = p
    · subst hqp
      obtain ⟨rfl, hl, hd, hn, hval⟩ := hxfill dev n c (hm.point_self.symm.trans hq)
      rw [Holds, hm.buf_self]
      exact ⟨hl, hd, hn, hval⟩
    · rw [hm.point_ne hqp] at hq
      obtain ⟨hl, hd, hn, hval⟩ := h.filling q dev n c hq
      by_cases hc : c = b
      · subst hc
        obtain ⟨hl', hd', hn', hval'⟩ := hheld q hqp hl
        rw [Holds, hm.buf_self, hd', hn', hval']
        exact ⟨hl', hd, hn, hval⟩
      · rw [Holds, hm.buf_ne hc]
        exact ⟨hl, hd, hn, hval⟩
  · intro q c hq
    by_cases hc : c = b
    · subst hc
      rw [Holds, hm.buf_self] at hq
      rw [hm.buf_self]
      by_cases hqp : q = p
      · subst hqp
        rw [hm.point_self]
        exact hfilled hq
      · obtain ⟨q', hq', howner⟩ := hlock q.val hq
        have hqq : q' = q := Fin.ext hq'.symm
        subst hqq
        rcases howner with rfl | howner
        · exact absurd rfl hqp
        · rw [hm.point_ne hqp, (hheld _ hqp howner).2.2.2]
          exact h.filled _ _ howner
    · rw [Holds, hm.buf_ne hc] at hq
      rw [hm.buf_ne hc]
      rcases h.filled q c hq with hv | ⟨dev, n, hf⟩
      · exact .inl hv
      · by_cases hqp : q = p
        · subst hqp
          exact absurd (hp dev n c hf) hc
        · rw [hm.point_ne hqp]
          exact .inr ⟨dev, n, hf⟩
  · intro c y hy
    by_cases hc : c = b
    · subst hc
      rw [hm.buf_self] at hy
      obtain ⟨q, rfl, _⟩ := hlock y hy
      exact ⟨q, by rw [Holds, hm.buf_self]; exact hy⟩
    · rw [hm.buf_ne hc] at hy
      obtain ⟨q, hq⟩ := h.owner c y hy
      exact ⟨q, by rw [Holds, hm.buf_ne hc]; exact hq⟩

theorem control (h : s.Control L) (hpc : ∀ q, s'.pc q = .user ↔ s.pc q = .user) : s'.Control L where
  nodup := hm.lh ▸ h.nodup
  home := hm.lh ▸ h.home
  fits := hm.lh ▸ h.fits
  ops := by
    rw [hm.outstanding, hm.inOp]
    exact h.ops
  opFree q hq := by
    rw [hm.inOp] at hq
    rw [hpc, hm.committing]
    exact h.opFree q hq
  committer q hq := by
    rw [hm.committing]
    exact h.committer q (mt (hpc q).mpr hq)
  single q r hq hr := h.single q r (mt (hpc q).mpr hq) (mt (hpc r).mpr hr)
  unpinned hc := by
    rw [hm.unpinned]
    exact h.unpinned (hm.committing ▸ hc)

/-- A process that has moved is not in `bread`, or reads the block that its statement names. -/
theorem reading (h : s.Inv L) (hpc : ∀ q, q ≠ p → s'.pc q = s.pc q)
    (hp : ∀ n, s'.pc p ≠ .user → x.Reads n → (s'.pc p).reads L s.lh = some n) :
    ∀ q n, s'.pc q ≠ .user → (s'.point q).Reads n → (s'.pc q).reads L s'.lh = some n := by
  intro q n hq hn
  rw [hm.lh]
  by_cases hqp : q = p
  · subst hqp
    rw [hm.point_self] at hn
    exact hp n hq hn
  · rw [hpc q hqp] at hq ⊢
    rw [hm.point_ne hqp] at hn
    exact h.reading q n hq hn

/-- The owner of another buffer sees nothing, the owner of this one at most its count. -/
theorem keeps (hv : s.Holds q b → (s.buf b).valid = true →
      (∃ r, v = { s.buf b with refcnt := r }) ∧ d = s.dirty b) :
    Keeps L s s' q where
  lh := hm.lh
  unpinned := hm.unpinned
  latest _ _ := by rw [hm.latest]
  disk _ _ := by rw [hm.disk]
  held c hc hvalid := by
    by_cases hcb : c = b
    · subst hcb
      rw [hm.buf_self]
      exact (hv hc hvalid).1
    · rw [hm.buf_ne hcb]
      exact ⟨_, rfl⟩
  dirty c hc hvalid := by
    rw [hm.dirty]
    by_cases hcb : c = b
    · subst hcb
      rw [update_self]
      exact (hv hc hvalid).2
    · rw [update_of_ne hcb]

end Moved

section Parts

theorem Content.clean_of_unlocked (h : s.Content) (hlock : (s.buf b).lock = none) :
    s.dirty b = false := by
  by_contra hd
  exact ((h.clean b).2 (by simpa using hd)).1 hlock

theorem Content.clean_of_invalid (h : s.Content) (hinvalid : (s.buf b).valid = false) :
    s.dirty b = false := by
  by_contra hd
  have hvalid := ((h.clean b).2 (by simpa using hd)).2
  rw [hinvalid] at hvalid
  cases hvalid

/-- The data of a locked buffer becomes the latest of its block. -/
theorem Content.publish (h : s.Content) {order : List BufId} (hlru : s.cache.Lru order)
    (hdev : (s.buf b).dev = rootdev) (hvalid : (s.buf b).valid = true)
    (hbuf : ∀ c, ∃ r, s'.buf c = { s.buf c with refcnt := r })
    (hdirty : s'.dirty = update s.dirty b false)
    (hlatest : s'.latest = update s.latest (s.buf b).blockno (s.buf b).data)
    (hstored : ∀ n, n ∉ s'.pending → s'.disk n = s'.latest n)
    (hpending : ∀ n ∈ s'.pending, n = (s.buf b).blockno ∨ n ∈ s.pending) : s'.Content where
  clean c := by
    obtain ⟨r, hr⟩ := hbuf c
    rw [hr, hdirty, hlatest]
    by_cases hc : c = b
    · subst hc
      simp [CleanBuf]
    · rw [update_of_ne hc]
      refine ⟨fun hcdev hcvalid hclean => ?_, (h.clean c).2⟩
      -- Another buffer of the device holds another block.
      have hcroot : (s.cache.buf c).dev = rootdev := hcdev
      have hne : (s.buf c).blockno ≠ (s.buf b).blockno := fun heq =>
        hc (hlru.unique c b (by rw [hcroot]; decide) (hcroot.trans hdev.symm) heq)
      rw [update_of_ne hne]
      exact (h.clean c).1 hcdev hcvalid hclean
  stored := hstored
  cached n hn := by
    have hkeep : ∀ c, (s'.buf c).dev = (s.buf c).dev ∧ (s'.buf c).blockno = (s.buf c).blockno ∧
        (s'.buf c).valid = (s.buf c).valid := by
      intro c
      obtain ⟨r, hr⟩ := hbuf c
      rw [hr]
      exact ⟨rfl, rfl, rfl⟩
    rcases hpending n hn with rfl | hn
    · refine ⟨b, ?_⟩
      rw [(hkeep b).1, (hkeep b).2.1, (hkeep b).2.2]
      exact ⟨hdev, rfl, hvalid⟩
    · obtain ⟨c, hc⟩ := h.cached n hn
      refine ⟨c, ?_⟩
      rw [(hkeep c).1, (hkeep c).2.1, (hkeep c).2.2]
      exact hc

theorem waiters_le (s : System) (b : BufId) : s.waiters b ≤ 64 := by
  have hle := card_filter_le (univ : Finset Pid) fun p => (s.point p).Uses b
  simpa [waiters] using hle

theorem Refs.refcnt_le (h : s.Refs) (b : BufId) : (s.buf b).refcnt.toNat ≤ 66 := by
  have hw := waiters_le s b
  rw [h.count b, users]
  split <;> split <;> omega

/-- An unreferenced buffer is not locked, not awaited and not pinned. -/
theorem Refs.unused (h : s.Refs) (hb : (s.buf b).refcnt = 0) :
    (s.buf b).lock = none ∧ s.waiters b = 0 ∧ ¬s.Pinned b := by
  have hcount := h.count b
  rw [hb, users] at hcount
  simp only [UInt32.toNat_zero] at hcount
  refine ⟨?_, by omega, fun hp => ?_⟩
  · by_contra hl
    rw [if_neg hl] at hcount
    omega
  · rw [if_pos hp] at hcount
    omega

theorem Refs.device_of_holds (h : s.Refs) (hp : s.Holds p b) : (s.buf b).dev = rootdev := by
  refine h.device b ?_
  have hl : (s.buf b).lock ≠ none := by
    rw [hp]
    simp
  rw [users, if_neg hl]
  omega

theorem waiters_pos (hp : (s.point p).Uses b) : 0 < s.waiters b :=
  card_pos.mpr ⟨p, by simpa using hp⟩

theorem Refs.device_of_uses (h : s.Refs) (hp : (s.point p).Uses b) : (s.buf b).dev = rootdev := by
  refine h.device b ?_
  have hw := waiters_pos hp
  rw [users]
  omega

theorem toNat_add_one {a : UInt32} (h : a.toNat ≤ 66) : (a + 1).toNat = a.toNat + 1 := by
  rw [UInt32.toNat_add]
  simp only [toNat_one]
  omega

theorem toNat_sub_one {a : UInt32} (h : a.toNat ≠ 0) : (a - 1).toNat = a.toNat - 1 := by
  have hle : (1 : UInt32) ≤ a := by
    rw [le_iff_toNat_le]
    simp only [toNat_one]
    omega
  rw [UInt32.toNat_sub_of_le _ _ hle]
  simp only [toNat_one]

end Parts

end System

end FogOS.Bio
