import FogOS.Fs.Mapping

/-!
# Reading and writing file contents

`readi` and `writei` move bytes between a buffer and the blocks of a file, one
block per iteration. A copy from or to user memory fails at the first byte that
is not accessible; the part before it has been copied by then.
-/

namespace FogOS.Fs

open Library Bytes Nat UInt32 List

/-- The bytes that a copy starting `tot` bytes into the buffer moves before it reaches the
inaccessible offset `fault`, if it fails within its `m` bytes. -/
def copyFault (fault : Option Nat) (tot m : Nat) : Option Nat :=
  match fault with
  | some f => if f < tot + m then some (f - tot) else none
  | none => none

/-- The bytes an iteration moves: `min(n - tot, BSIZE - off%BSIZE)`. -/
def chunk (n tot off : Nat) : Nat := min (n - tot) (bsize - off % bsize)

theorem chunk_pos {n tot off : Nat} (h : tot < n) : 0 < chunk n tot off := by
  have hoff : off % bsize < bsize := mod_lt _ (by decide)
  unfold chunk
  omega

theorem chunk_le (n tot off : Nat) : chunk n tot off ≤ n - tot := Nat.min_le_left _ _

theorem offset_add_chunk_le (n tot off : Nat) : off % bsize + chunk n tot off ≤ bsize := by
  have hoff : off % bsize < bsize := mod_lt _ (by decide)
  unfold chunk
  omega

/-- The loop of `readi`; `out` is what has been copied out so far. -/
def readiLoop (sb : Superblock) (fault : Option Nat) (n tot off : Nat) (s : Store) (ip : Dinode)
    (out : List UInt8) : Except FsPanic (Int × List UInt8 × Dinode × Store) :=
  if _h : tot < n then do
    let (addr, ip, s) ← bmap sb s ip (off / bsize)
    if addr = 0 then pure (tot, out, ip, s)
    else
      let m := chunk n tot off
      let bytes := (List.range m).map fun i => s.disk addr (off % bsize + i)
      match copyFault fault tot m with
      | some k => pure (-1, out ++ bytes.take k, ip, s)
      | none => readiLoop sb fault n (tot + m) (off + m) s ip (out ++ bytes)
  else pure (tot, out, ip, s)
termination_by n - tot
decreasing_by
  have hpos := @chunk_pos n tot off _h
  omega

/-- Read `n` bytes at `off` into a buffer that is accessible below `fault`. Returns the
result, the bytes that arrived in the buffer, the inode and the store. -/
def readi (sb : Superblock) (s : Store) (ip : Dinode) (fault : Option Nat) (off n : UInt32) :
    Except FsPanic (Int × List UInt8 × Dinode × Store) :=
  if off > ip.size ∨ off + n < off then pure (0, [], ip, s)
  else
    let n := if off + n > ip.size then ip.size - off else n
    readiLoop sb fault n.toNat 0 off.toNat s ip []

/-- The buffer a write takes its bytes from, accessible below `fault`. -/
structure Source where
  data : Bytes
  fault : Option Nat

/-- The loop of `writei`. Returns `tot`, `off`, the inode and the store. A failed copy leaves
the buffer of the block changed but not logged. -/
def writeiLoop (sb : Superblock) (src : Source) (n tot off : Nat) (s : Store) (ip : Dinode) :
    Except FsPanic (Nat × Nat × Dinode × Store) :=
  if _h : tot < n then do
    let (addr, ip, s) ← bmap sb s ip (off / bsize)
    if addr = 0 then pure (tot, off, ip, s)
    else
      let m := chunk n tot off
      let filled k := blit (s.disk addr) (off % bsize) k fun i => src.data (tot + i)
      match copyFault src.fault tot m with
      | some k =>
        pure (tot, off, ip, { s with disk := Function.update s.disk addr (filled k) })
      | none => writeiLoop sb src n (tot + m) (off + m) (s.write addr (filled m)) ip
  else pure (tot, off, ip, s)
termination_by n - tot
decreasing_by
  have hpos := @chunk_pos n tot off _h
  omega

/-- Write `n` bytes at `off`. Returns the bytes written, or `-1`. -/
def writei (sb : Superblock) (s : Store) (inum : Nat) (ip : Dinode) (src : Source)
    (off n : UInt32) : Except FsPanic (Int × Dinode × Store) :=
  if off > ip.size ∨ off + n < off then pure (-1, ip, s)
  else if (off + n).toNat > maxfile * bsize then pure (-1, ip, s)
  else do
    let (tot, off, ip, s) ← writeiLoop sb src n.toNat 0 off.toNat s ip
    let ip := if off > ip.size.toNat then { ip with size := UInt32.ofNat off } else ip
    pure (tot, ip, iupdate sb s inum ip)

section Content

/-- Byte `p` of the file. -/
def byteAt (d : Disk) (ip : Dinode) (p : Nat) : UInt8 :=
  d (fileBlock d ip (p / bsize)) (p % bsize)

/-- The bytes of the file. -/
def content (d : Disk) (ip : Dinode) : List UInt8 :=
  (List.range ip.size.toNat).map (byteAt d ip)

/-- The bytes of `old` with `new` written over them from `off` on. -/
def overlay (old : List UInt8) (off : Nat) (new : List UInt8) : List UInt8 :=
  old.take off ++ new ++ old.drop (off + new.length)

variable {sb : Superblock} {d d' : Disk} {view : Nat → Dinode} {inum : Nat} {s : Store}
  {ip : Dinode}

theorem content_length : (content d ip).length = ip.size.toNat := by
  simp [content]

/-- The bytes that an iteration at `off` covers all lie in the block of `off`. -/
theorem block_of_offset {off i : Nat} (h : off % bsize + i < bsize) :
    (off + i) / bsize = off / bsize ∧ (off + i) % bsize = off % bsize + i := by
  have hdiv := div_add_mod off bsize
  have hpos : 0 < bsize := by decide
  have heq : off + i = bsize * (off / bsize) + (off % bsize + i) := by omega
  constructor
  · rw [heq, mul_add_div hpos, div_eq_of_lt h, add_zero]
  · rw [heq, mul_add_mod, mod_eq_of_lt h]

theorem byteAt_chunk {n tot off i : Nat} (hi : i < chunk n tot off) :
    byteAt d ip (off + i) = d (fileBlock d ip (off / bsize)) (off % bsize + i) := by
  have hle := offset_add_chunk_le n tot off
  obtain ⟨hdiv, hmod⟩ := @block_of_offset off i (by omega)
  rw [byteAt, hdiv, hmod]

theorem chunk_bytes (n tot off : Nat) :
    ((range (chunk n tot off)).map fun i =>
        d (fileBlock d ip (off / bsize)) (off % bsize + i)) =
      (range (chunk n tot off)).map fun i => byteAt d ip (off + i) := by
  apply map_congr_left
  intro i hi
  rw [byteAt_chunk (mem_range.mp hi)]

end Content

section Read

variable {sb : Superblock} {view : Nat → Dinode} {inum : Nat} {s : Store}

/-- Where every position has a block, the loop changes nothing, and it reads all `n` bytes unless
a copy fails. -/
theorem readiLoop_mapped {ip : Dinode} {fault : Option Nat} {n tot off : Nat} (out : List UInt8)
    (htot : tot ≤ n) (hmax : off + (n - tot) ≤ maxfile * bsize)
    (hblocks : ∀ bn, bn * bsize < off + (n - tot) → fileBlock s.disk ip bn ≠ 0) :
    ∃ r out', readiLoop sb fault n tot off s ip out = .ok (r, out', ip, s) ∧
      (fault = none → r = n ∧ out' = out ++
        (range (n - tot)).map fun i => byteAt s.disk ip (off + i)) := by
  -- Induction on the bytes left; every iteration moves at least one.
  induction hk : n - tot using Nat.strong_induction_on generalizing tot off out with
  | _ k ih =>
    subst hk
    rw [readiLoop]
    by_cases hlt : tot < n
    · have hbn : off / bsize < maxfile := by
        apply Nat.div_lt_of_lt_mul
        rw [mul_comm]
        omega
      have hmul : off / bsize * bsize ≤ off := div_mul_le_self off bsize
      have hblock : fileBlock s.disk ip (off / bsize) ≠ 0 := hblocks _ (by omega)
      have hpos := @chunk_pos n tot off hlt
      have hle := chunk_le n tot off
      rw [dif_pos hlt, bmap_hit hbn hblock, ok_bind]
      simp only [if_neg hblock]
      cases hfault : copyFault fault tot (chunk n tot off) with
      | some k =>
        refine ⟨-1, _, rfl, ?_⟩
        intro hnone
        rw [hnone, copyFault] at hfault
        cases hfault
      | none =>
        obtain ⟨r, out', heq, hfull⟩ := @ih (n - (tot + chunk n tot off)) (by omega)
          (tot + chunk n tot off) (off + chunk n tot off)
          (out ++ (range (chunk n tot off)).map fun i =>
            s.disk (fileBlock s.disk ip (off / bsize)) (off % bsize + i))
          (by omega) (by omega) (fun bn hbn => hblocks bn (by omega)) rfl
        refine ⟨r, out', heq, ?_⟩
        intro hnone
        obtain ⟨hr, hout⟩ := hfull hnone
        refine ⟨hr, ?_⟩
        have hsplit : n - tot = chunk n tot off + (n - (tot + chunk n tot off)) := by omega
        rw [hout, chunk_bytes, append_assoc]
        conv_rhs => rw [hsplit, range_add, map_append, map_map]
        simp only [Function.comp_def, add_assoc]
    · have heq : n = tot := by omega
      rw [dif_neg hlt]
      refine ⟨tot, out, rfl, ?_⟩
      simp [heq]

/-- Below the size of a file every block is found. -/
theorem readiLoop_spec (hi : AllocInv sb s.disk view) (hlive : Live sb view inum)
    {fault : Option Nat} {n tot off : Nat} (out : List UInt8)
    (htot : tot ≤ n) (hsize : off + (n - tot) ≤ (view inum).size.toNat) :
    ∃ r out', readiLoop sb fault n tot off s (view inum) out = .ok (r, out', view inum, s) ∧
      (fault = none → r = n ∧ out' = out ++
        (range (n - tot)).map fun i => byteAt s.disk (view inum) (off + i)) := by
  have hmax := hi.size_le inum hlive
  exact readiLoop_mapped out htot (by omega) fun bn hbn => hi.dense inum hlive bn (by omega)

/-- The test `off + n < off` of `readi` and `writei` detects exactly a wrapped sum. -/
theorem toNat_add_of_not_wraps {a b : UInt32} (h : ¬ a + b < a) :
    (a + b).toNat = a.toNat + b.toNat := by
  have hb := b.toNat_lt
  rw [lt_iff_toNat_lt] at h
  have hadd := UInt32.toNat_add a b
  omega

theorem take_drop_content {d : Disk} {ip : Dinode} (off n : Nat) :
    ((content d ip).drop off).take n =
      (range (min n (ip.size.toNat - off))).map fun i => byteAt d ip (off + i) := by
  apply ext_getElem
  · simp [content]
  · simp [content]

/-- `readi` changes nothing. If every copy succeeds, it returns the bytes of the file from `off`
on, at most `n` of them, and none if `off` is beyond the end or `off + n` wraps. -/
theorem readi_spec_of_fault (hi : AllocInv sb s.disk view) (hlive : Live sb view inum)
    (fault : Option Nat) (off n : UInt32) :
    ∃ r bytes, readi sb s (view inum) fault off n = .ok (r, bytes, view inum, s) ∧
      (fault = none → r = bytes.length ∧ bytes = if off > (view inum).size ∨ off + n < off then []
          else ((content s.disk (view inum)).drop off.toNat).take n.toNat) := by
  unfold readi
  by_cases hskip : off > (view inum).size ∨ off + n < off
  · refine ⟨0, [], by simp only [if_pos hskip]; rfl, ?_⟩
    intro _
    rw [if_pos hskip]
    exact ⟨rfl, rfl⟩
  · have hoff : ¬ off > (view inum).size := fun h => hskip (Or.inl h)
    have hsum := toNat_add_of_not_wraps fun h => hskip (Or.inr h)
    have hle : off.toNat ≤ (view inum).size.toNat := by
      have hle := UInt32.not_lt.mp hoff
      exact le_iff_toNat_le.mp hle
    have hcount : (if off + n > (view inum).size then (view inum).size - off else n).toNat =
        min n.toNat ((view inum).size.toNat - off.toNat) := by
      split
      · rename_i hgt
        have hgt' := lt_iff_toNat_lt.mp hgt
        rw [UInt32.toNat_sub_of_le _ _ (UInt32.not_lt.mp hoff)]
        omega
      · rename_i hgt
        have hgt' := le_iff_toNat_le.mp (UInt32.not_lt.mp hgt)
        omega
    obtain ⟨r, out, heq, hfull⟩ := @readiLoop_spec sb view inum s hi hlive fault
      (min n.toNat ((view inum).size.toNat - off.toNat)) 0 off.toNat [] (zero_le _) (by omega)
    refine ⟨r, out, by simp only [if_neg hskip, hcount, heq], ?_⟩
    intro hnone
    obtain ⟨rfl, rfl⟩ := hfull hnone
    rw [if_neg hskip, take_drop_content]
    simp

theorem readi_spec (hi : AllocInv sb s.disk view) (hlive : Live sb view inum) (off n : UInt32) :
    readi sb s (view inum) none off n =
      let bytes := if off > (view inum).size ∨ off + n < off then []
        else ((content s.disk (view inum)).drop off.toNat).take n.toNat
      .ok (bytes.length, bytes, view inum, s) := by
  obtain ⟨r, bytes, heq, hfull⟩ := readi_spec_of_fault hi hlive none off n
  obtain ⟨rfl, hbytes⟩ := hfull rfl
  rw [heq, hbytes]

/-- A read of bytes below the size of a file whose blocks are all in place. -/
theorem readi_mapped {ip : Dinode} {off n : UInt32} (hsize : off.toNat + n.toNat ≤ ip.size.toNat)
    (hmax : off.toNat + n.toNat ≤ maxfile * bsize)
    (hblocks : ∀ bn, bn * bsize < off.toNat + n.toNat → fileBlock s.disk ip bn ≠ 0) :
    readi sb s ip none off n = .ok (n.toNat,
      (range n.toNat).map fun i => byteAt s.disk ip (off.toNat + i), ip, s) := by
  have hbound : maxfile * bsize < 2 ^ 32 := by decide
  have hsum : (off + n).toNat = off.toNat + n.toNat := by
    rw [UInt32.toNat_add, mod_eq_of_lt (by omega)]
  have hskip : ¬ (off > ip.size ∨ off + n < off) := by
    rw [gt_iff_lt, lt_iff_toNat_lt, lt_iff_toNat_lt, hsum]
    omega
  have hall : ¬ off + n > ip.size := by
    rw [gt_iff_lt, lt_iff_toNat_lt, hsum]
    omega
  obtain ⟨r, out, heq, hfull⟩ := @readiLoop_mapped sb s ip none n.toNat 0 off.toNat []
    (zero_le _) hmax hblocks
  obtain ⟨rfl, rfl⟩ := hfull rfl
  simp only [readi, if_neg hskip, if_neg hall]
  rw [heq]
  simp

end Read

end FogOS.Fs
