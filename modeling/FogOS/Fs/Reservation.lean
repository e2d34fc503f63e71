import FogOS.Fs.Holes

/-!
# A chunk of `filewrite` fits its reservation

`filewrite` writes a few blocks at a time, so that each transaction stays within `MAXOPBLOCKS`.
Every iteration of `writei` logs its data block and, if it has allocated it, a block of the free
map; the indirect block and its own block of the free map come once, the inode at the end. An
iteration that starts within a block finds the block in place, which the bound needs.
-/

namespace FogOS.Fs

open Function Library Bytes List

/-- `max` of `filewrite`. -/
def maxChunk : Nat := (maxOpBlocks - 1 - 1 - 2) / 2 * bsize

variable {sb : Superblock} {s : Store} {ip : Dinode}

/-- `balloc` logs the block that it answers and one block of the free map. -/
theorem balloc_logged (sb : Superblock) (s : Store) : ∃ b' b s', balloc sb s = (b, s') ∧
    s'.logged ⊆ b :: b' :: s.logged ∧ (b ≠ 0 → b < sb.size) := by
  cases hrefused : s.refusals.headD false with
  | true =>
    refine ⟨0, 0, { s with refusals := s.refusals.tail },
      by simp only [balloc, hrefused, if_true], ?_, fun h => absurd rfl h⟩
    exact fun b hb => mem_cons_of_mem _ (mem_cons_of_mem _ hb)
  | false =>
    cases hfree : firstFree sb s.disk with
    | none =>
      refine ⟨0, 0, { s with refusals := s.refusals.tail }, by simp [balloc, hfree], ?_,
        fun h => absurd rfl h⟩
      exact fun b hb => mem_cons_of_mem _ (mem_cons_of_mem _ hb)
    | some b =>
      exact ⟨bblock sb b, b, _, by simp only [balloc, hrefused, hfree]; rfl, List.Subset.refl _,
        fun _ => (firstFree_spec hfree).1⟩

theorem bmapEntry_logged (sb : Superblock) (s : Store) (ind bn : Nat) : ∃ b' addr s',
    bmapEntry sb s ind bn = (addr, s') ∧ s'.logged ⊆ addr :: b' :: ind :: s.logged := by
  unfold bmapEntry
  by_cases hzero : entry (s.disk ind) bn = 0
  · obtain ⟨b', b, s', hb, hlog, -⟩ := balloc_logged sb s
    simp only [if_pos hzero, hb]
    by_cases hne : b ≠ 0
    · rw [if_pos hne]
      refine ⟨b', b, _, rfl, ?_⟩
      simp only [Store.write]
      grind
    · rw [if_neg hne]
      refine ⟨b', 0, s', rfl, ?_⟩
      grind
  · rw [if_neg hzero]
    exact ⟨0, _, s, rfl, by grind⟩

/-- The indirect block of an inode, if it has one. -/
def indirect (ip : Dinode) : List Nat := if ip.addr ndirect = 0 then [] else [ip.addr ndirect]

/-- The blocks that are logged on account of the indirect block, between `ip` and `ip'`. -/
structure Extra (ip ip' : Dinode) (e : List Nat) : Prop where
  few : e.length ≤ 2
  covers : indirect ip' ⊆ e
  old : ip.addr ndirect ≠ 0 → e = indirect ip
  none : ip'.addr ndirect = 0 → e = []

theorem Extra.same {ip' : Dinode} (h : ip'.addr ndirect = ip.addr ndirect) :
    Extra ip ip' (indirect ip) := by
  refine ⟨?_, ?_, fun _ => rfl, fun hzero => if_pos (h.symm.trans hzero)⟩
  · unfold indirect
    split <;> simp
  · rw [indirect, h]
    exact List.Subset.refl _

/-- What `bmap` logs: the block that it answers, a block of the free map, and the indirect block,
with one more block of the free map if the indirect block is new. -/
theorem bmap_logged (hsize : sb.size ≤ 2 ^ 32) {bn : Nat} (hbn : bn < maxfile) :
    ∃ addr ip' s' b' e, bmap sb s ip bn = .ok (addr, ip', s') ∧
      s'.logged ⊆ addr :: b' :: (e ++ s.logged) ∧ Extra ip ip' e := by
  obtain ⟨b', b, s₁, hb, hlog, hlt⟩ := balloc_logged sb s
  unfold bmap
  by_cases hdir : bn < ndirect
  · rw [if_pos hdir]
    by_cases hzero : ip.addr bn = 0
    · simp only [if_pos hzero, hb]
      by_cases hb0 : b = 0
      · rw [if_pos hb0]
        exact ⟨0, ip, s₁, b', _, rfl, by grind, .same rfl⟩
      · rw [if_neg hb0]
        exact ⟨b, _, s₁, b', _, rfl, by grind,
          .same (Dinode.addr_setAddr_of_ne (Nat.ne_of_gt hdir))⟩
    · rw [if_neg hzero]
      exact ⟨_, ip, s, 0, _, rfl, by grind, .same rfl⟩
  · have hin : bn - ndirect < nindirect := by
      unfold maxfile at hbn
      omega
    rw [if_neg hdir, if_pos hin]
    by_cases hzero : ip.addr ndirect = 0
    · simp only [if_pos hzero, hb]
      by_cases hb0 : b = 0
      · rw [if_pos hb0]
        exact ⟨0, ip, s₁, b', _, rfl, by grind, .same rfl⟩
      · rw [if_neg hb0]
        obtain ⟨b₂, addr, s₂, haddr, hlog₂⟩ := bmapEntry_logged sb s₁ b (bn - ndirect)
        have hself : (ip.setAddr ndirect b).addr ndirect = b :=
          Dinode.addr_setAddr_self (le_refl _) (lt_of_lt_of_le (hlt hb0) hsize)
        simp only [haddr]
        refine ⟨addr, _, s₂, b₂, [b, b'], rfl, by grind, le_refl _, ?_,
          fun h => absurd hzero h, fun h => absurd (hself.symm.trans h) hb0⟩
        rw [indirect, hself, if_neg hb0]
        simp
    · rw [if_neg hzero]
      obtain ⟨b₂, addr, s₂, haddr, hlog₂⟩ :=
        bmapEntry_logged sb s (ip.addr ndirect) (bn - ndirect)
      simp only [haddr]
      refine ⟨addr, ip, s₂, b₂, _, rfl, ?_, .same rfl⟩
      rw [indirect, if_neg hzero]
      exact hlog₂

/-- Two blocks for each iteration, and the two of the indirect block. -/
theorem writeiLoop_logged (hsize : sb.size ≤ 2 ^ 32) {src : Source} {n tot off m : Nat}
    (hmax : tot < n → off + (n - tot) ≤ maxfile * bsize)
    (hm : tot < n → off % bsize + (n - tot) ≤ m * bsize) :
    ∃ tot' off' ip' s' l e, writeiLoop sb src n tot off s ip = .ok (tot', off', ip', s') ∧
      s'.logged ⊆ l ++ (e ++ s.logged) ∧ l.length ≤ 2 * m ∧ e.length ≤ 2 ∧
      (ip.addr ndirect ≠ 0 → e = indirect ip) := by
  induction m generalizing tot off s ip with
  | zero =>
    have hdone : ¬tot < n := fun hlt => by have := hm hlt; omega
    have hsame : Extra ip ip (indirect ip) := .same rfl
    rw [writeiLoop, dif_neg hdone]
    exact ⟨tot, off, ip, s, [], _, rfl, by simp, zero_le, hsame.few, hsame.old⟩
  | succ m ih =>
    rw [writeiLoop]
    by_cases hlt : tot < n
    · have hbn : off / bsize < maxfile := by
        refine Nat.div_lt_of_lt_mul ?_
        rw [mul_comm]
        omega
      obtain ⟨addr, ip₁, s₁, b', e₀, hbmap, hlog, hextra⟩ :=
        @bmap_logged sb s ip hsize _ hbn
      rw [dif_pos hlt, hbmap, ok_bind]
      dsimp only
      have hstop : ∀ s', s'.logged ⊆ addr :: b' :: (e₀ ++ s.logged) → ∃ tot' off' ip' t l e,
          (pure (tot, off, ip₁, s') : Except FsPanic (Nat × Nat × Dinode × Store)) =
            .ok (tot', off', ip', t) ∧ t.logged ⊆ l ++ (e ++ s.logged) ∧
          l.length ≤ 2 * (m + 1) ∧ e.length ≤ 2 ∧ (ip.addr ndirect ≠ 0 → e = indirect ip) :=
        fun s' h => ⟨_, _, _, s', [addr, b'], e₀, rfl, h, by simp, hextra.few, hextra.old⟩
      by_cases haddr : addr = 0
      · rw [if_pos haddr]
        exact hstop s₁ hlog
      · rw [if_neg haddr]
        cases hcopy : copyFault src.fault tot (chunk n tot off) with
        | some k => exact hstop _ hlog
        | none =>
          -- Unless this was the last iteration, the next one starts at a block.
          have hnext : tot + chunk n tot off < n →
              (off + chunk n tot off) % bsize + (n - (tot + chunk n tot off)) ≤ m * bsize := by
            unfold chunk bsize at *
            omega
          obtain ⟨tot', off', ip', s', l, e, hloop, hrest, hl, he, hind⟩ :=
            @ih (s₁.write addr (blit (s₁.disk addr) (off % bsize) (chunk n tot off)
              fun i => src.data (tot + i))) ip₁ _ _ (by omega) hnext
          have hrest' : s'.logged ⊆ l ++ (e ++ addr :: s₁.logged) := hrest
          by_cases hzero : ip₁.addr ndirect = 0
          · obtain rfl := hextra.none hzero
            refine ⟨tot', off', ip', s', addr :: b' :: l, e, hloop, by grind, by simp; omega, he,
              fun h => ?_⟩
            have hnil := hextra.old h
            rw [indirect, if_neg h] at hnil
            cases hnil
          · have hcovers := hextra.covers
            exact ⟨tot', off', ip', s', addr :: b' :: l, e₀, hloop, by grind, by simp; omega,
              hextra.few, hextra.old⟩
    · have hsame : Extra ip ip (indirect ip) := .same rfl
      rw [dif_neg hlt]
      exact ⟨tot, off, ip, s, [], _, rfl, by simp, zero_le, hsame.few, hsame.old⟩

/-- An iteration that starts within a block logs only that block, because the file has it. -/
theorem writeiLoop_unaligned (hsize : sb.size ≤ 2 ^ 32) {src : Source} {n off m : Nat}
    (hfree : HoleFree s.disk ip) (hoff : off ≤ ip.size.toNat) (hin : off % bsize ≠ 0)
    (hmax : off + n ≤ maxfile * bsize) (hn : n ≤ m * bsize) :
    ∃ tot' off' ip' s' l, writeiLoop sb src n 0 off s ip = .ok (tot', off', ip', s') ∧
      s'.logged ⊆ l ++ s.logged ∧ l.length ≤ 2 * m + 3 := by
  have hpos : off / bsize * bsize < off := by
    have := Nat.div_add_mod off bsize
    rw [mul_comm]
    omega
  have hbn : off / bsize < maxfile :=
    Nat.lt_of_mul_lt_mul_right (lt_of_lt_of_le hpos (le_trans (Nat.le_add_right _ n) hmax))
  have hblock := hfree (off / bsize) (lt_of_lt_of_le hpos hoff)
  rw [writeiLoop]
  by_cases hlt : 0 < n
  · rw [dif_pos hlt, bmap_hit hbn hblock, ok_bind]
    dsimp only
    rw [if_neg hblock]
    cases hcopy : copyFault src.fault 0 (chunk n 0 off) with
    | some k => exact ⟨_, _, _, _, [], rfl, List.Subset.refl _, zero_le⟩
    | none =>
      have hnext : 0 + chunk n 0 off < n →
          (off + chunk n 0 off) % bsize + (n - (0 + chunk n 0 off)) ≤ m * bsize := by
        unfold chunk bsize at *
        omega
      obtain ⟨tot', off', ip', s', l, e, hloop, hrest, hl, he, -⟩ :=
        @writeiLoop_logged sb (s.write (fileBlock s.disk ip (off / bsize))
          (blit (s.disk (fileBlock s.disk ip (off / bsize))) (off % bsize) (chunk n 0 off)
            fun i => src.data (0 + i))) ip hsize src n _ _ m (by omega) hnext
      refine ⟨tot', off', ip', s', fileBlock s.disk ip (off / bsize) :: (l ++ e), hloop, ?_, ?_⟩
      · have hrest' : s'.logged ⊆ l ++ (e ++ fileBlock s.disk ip (off / bsize) :: s.logged) := hrest
        grind
      · simp only [length_cons, length_append]
        omega
  · rw [dif_neg hlt]
    exact ⟨_, _, _, _, [], rfl, List.Subset.refl _, zero_le⟩

/-- On any layout, the `writei` of a chunk of `filewrite` passes at most `MAXOPBLOCKS` block numbers
to `log_write`. -/
theorem chunk_fits_reservation (sb : Superblock) (hsize : sb.size ≤ 2 ^ 32) (d : Disk)
    (refusals : List Bool) (inum : Nat) (ip : Dinode) (src : Source) (off n : UInt32)
    (hfree : HoleFree d ip) (hoff : off.toNat ≤ ip.size.toNat) (hn : n.toNat ≤ maxChunk) :
    ∃ r ip' s', writei sb ⟨d, [], refusals⟩ inum ip src off n = .ok (r, ip', s') ∧
      s'.logged.dedup.length ≤ maxOpBlocks := by
  unfold writei
  by_cases hargs : off > ip.size ∨ off + n < off
  · rw [if_pos hargs]
    exact ⟨_, _, _, rfl, zero_le⟩
  rw [if_neg hargs]
  by_cases hbig : (off + n).toNat > maxfile * bsize
  · rw [if_pos hbig]
    exact ⟨_, _, _, rfl, zero_le⟩
  rw [if_neg hbig]
  have hmax : off.toNat + n.toNat ≤ maxfile * bsize := by
    rw [toNat_add_of_not_wraps (not_or.mp hargs).2] at hbig
    omega
  have hloop : ∃ tot' off' ip' s' l,
      writeiLoop sb src n.toNat 0 off.toNat ⟨d, [], refusals⟩ ip = .ok (tot', off', ip', s') ∧
      s'.logged ⊆ l ++ [] ∧ l.length ≤ 2 * 3 + 3 := by
    by_cases hin : off.toNat % bsize = 0
    · obtain ⟨tot', off', ip', s', l, e, heq, hlog, hl, he, -⟩ :=
        @writeiLoop_logged sb ⟨d, [], refusals⟩ ip hsize src n.toNat 0 off.toNat 3 (fun _ => hmax)
          fun _ => by rw [hin, zero_add]; exact hn
      refine ⟨tot', off', ip', s', l ++ e, heq, by grind, ?_⟩
      rw [length_append]
      omega
    · exact writeiLoop_unaligned (s := ⟨d, [], refusals⟩) hsize hfree hoff hin hmax hn
  obtain ⟨tot', off', ip', s', l, heq, hlog, hl⟩ := hloop
  rw [heq, ok_bind]
  refine ⟨_, _, _, rfl, ?_⟩
  rw [append_nil] at hlog
  calc (iblock sb inum :: s'.logged).dedup.length
      ≤ (iblock sb inum :: l).length := (subperm_of_subset (nodup_dedup _) (by
          intro b hb
          rw [mem_dedup] at hb
          grind)).length_le
    _ ≤ maxOpBlocks := Nat.succ_le_succ hl

/-- A whole chunk at byte 5 of a file of one block. -/
theorem chunk_fits_reservation_unaligned : ∃ r ip' s',
    writei mkfsSuperblock ⟨formatted mkfsSuperblock 47, [], []⟩ 1 shortFile ⟨fun _ => 7, none⟩ 5
      3072 = .ok (r, ip', s') ∧ s'.logged.dedup.length ≤ maxOpBlocks := by
  refine chunk_fits_reservation mkfsSuperblock (by decide) _ _ 1 shortFile _ 5 3072
    (fun bn hbn => ?_) (by decide) (by decide)
  obtain rfl : bn = 0 := by
    have hlt : bn * 1024 < 1024 := hbn
    omega
  decide

end FogOS.Fs
