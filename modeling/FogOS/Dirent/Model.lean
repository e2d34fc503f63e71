import FogOS.Dir.Model
import FogOS.Fs.Content
import FogOS.Library.CString

/-!
# Directory entries as bytes

A directory is a file of `struct dirent` records: two bytes of inode number and
`DIRSIZ` bytes of name, which ends at a zero or fills the field. The functions
here read the record at an offset of the contents, and `dirlookup` is the loop of
`fs.c` over the contents that `readi` returns.
-/

namespace FogOS.Dirent

open Library Bytes List UInt32

/-- `sizeof(struct dirent)`. -/
def direntSize : Nat := 16

/-- `T_DIR`. -/
def tDir : UInt16 := 1

/-- `de.inum` of the record at `off`. -/
def inumAt (data : Bytes) (off : Nat) : Nat := getLE data off 2

/-- `de.name` of the record at `off`. -/
def nameAt (data : Bytes) (off : Nat) : Bytes := fun i => data (off + 2 + i)

def namecmp (s t : Bytes) : Int := strncmp s t Dir.dirsiz

/-- The part of a name that `namecmp` sees. -/
def key (name : Bytes) : List UInt8 := cut name Dir.dirsiz

/-- The record with the given inode number, a `ushort`, and the name copied by `strncpy`. -/
def record (inum : Nat) (name : Bytes) : List UInt8 :=
  UInt8.ofNat inum :: UInt8.ofNat (inum / 256) :: strncpy name Dir.dirsiz

/-- The offsets `0, 16, ...` below `size`, in the order of the loops over a directory. -/
def offsets (size : Nat) : List Nat :=
  (List.range ((size + direntSize - 1) / direntSize)).map (direntSize * ·)

/-- The record at `off` is in use and has the name. -/
def matchAt (data name : Bytes) (off : Nat) : Bool :=
  inumAt data off ≠ 0 ∧ namecmp name (nameAt data off) = 0

/-- The panics of a lookup. -/
inductive LookupPanic
  | fs (e : Fs.FsPanic)
  | notDir
  | read
  deriving DecidableEq

/-- The loop of `dirlookup` over the given offsets. `iget` of the inode that is found is left to
the caller; its number and the offset of the record are returned. -/
def dirlookupLoop (sb : Superblock) (name : Bytes) :
    List Nat → Fs.Store → Fs.Dinode → Except LookupPanic (Option (Nat × Nat) × Fs.Dinode × Fs.Store)
  | [], s, dp => .ok (none, dp, s)
  | off :: offs, s, dp =>
    match Fs.readi sb s dp none (UInt32.ofNat off) (UInt32.ofNat direntSize) with
    | .error e => .error (.fs e)
    | .ok (r, bytes, dp, s) =>
      if r ≠ direntSize then .error .read
      else if matchAt (ofList bytes) name 0 then .ok (some (inumAt (ofList bytes) 0, off), dp, s)
      else dirlookupLoop sb name offs s dp

/-- Look for a name in a directory; `readi` may allocate blocks, so the inode and the store are
returned as well. -/
def dirlookup (sb : Superblock) (s : Fs.Store) (dp : Fs.Dinode) (name : Bytes) :
    Except LookupPanic (Option (Nat × Nat) × Fs.Dinode × Fs.Store) :=
  if dp.type ≠ tDir then .error .notDir
  else dirlookupLoop sb name (offsets dp.size.toNat) s dp

section Records

variable {data data' name : Bytes} {off off' inum : Nat}

theorem namecmp_eq_zero_iff {s t : Bytes} : namecmp s t = 0 ↔ key s = key t :=
  strncmp_eq_zero_iff

theorem matchAt_iff : matchAt data name off = true ↔
    inumAt data off ≠ 0 ∧ key name = key (nameAt data off) := by
  unfold matchAt
  rw [decide_eq_true_eq, namecmp_eq_zero_iff]

@[simp] theorem length_record (inum : Nat) (name : Bytes) :
    (record inum name).length = direntSize := by
  simp [record, direntSize, Dir.dirsiz]

section

variable (h : ∀ i, i < direntSize → data (off + i) = data' (off' + i))

include h

/-- A record depends on its own bytes only. -/
theorem inumAt_congr : inumAt data off = inumAt data' off' := by
  have h₀ := h 0 (by decide)
  have h₁ := h 1 (by decide)
  simp only [add_zero] at h₀
  simp only [inumAt, getLE, h₀, h₁]

theorem key_nameAt_congr : key (nameAt data off) = key (nameAt data' off') := by
  apply cut_congr
  intro i hi
  have hbound : 2 + i < direntSize := by
    unfold Dir.dirsiz at hi
    unfold direntSize
    omega
  have heq := h (2 + i) hbound
  simpa only [nameAt, add_assoc] using heq

theorem matchAt_congr : matchAt data name off = matchAt data' name off' := by
  unfold matchAt
  rw [inumAt_congr h]
  congr 2
  rw [namecmp_eq_zero_iff, namecmp_eq_zero_iff, key_nameAt_congr h]

end

theorem inumAt_record (h : inum < 2 ^ 16) : inumAt (ofList (record inum name)) 0 = inum := by
  have h₀ : ofList (record inum name) 0 = UInt8.ofNat inum := rfl
  have h₁ : ofList (record inum name) 1 = UInt8.ofNat (inum / 256) := rfl
  simp only [inumAt, getLE, zero_add, h₀, h₁, UInt8.toNat_ofNat']
  omega

theorem key_nameAt_record : key (nameAt (ofList (record inum name)) 0) = key name := by
  have hname : nameAt (ofList (record inum name)) 0 = ofList (strncpy name Dir.dirsiz) := by
    funext i
    have hidx : 0 + 2 + i = i + 1 + 1 := by omega
    simp only [nameAt, record, ofList, hidx, getD_cons_succ]
  rw [hname]
  exact cut_strncpy name Dir.dirsiz

end Records

section Lookup

variable {sb : Superblock} {s : Fs.Store} {dp : Fs.Dinode} {name : Bytes} {limit : Nat}

/-- A record whose blocks are in place is read as it stands in the contents. -/
theorem readi_record {off : Nat} (hsize : off + direntSize ≤ dp.size.toNat)
    (hmax : off + direntSize ≤ Fs.maxfile * bsize)
    (hblocks : ∀ bn, bn * bsize < off + direntSize → Fs.fileBlock s.disk dp bn ≠ 0) :
    ∃ bytes, Fs.readi sb s dp none (ofNat off) (ofNat direntSize) =
        .ok (direntSize, bytes, dp, s) ∧
      ∀ i, i < direntSize → ofList bytes (0 + i) = Fs.byteAt s.disk dp (off + i) := by
  have hbound : Fs.maxfile * bsize < 2 ^ 32 := by decide
  have hoff : (ofNat off).toNat = off := by
    rw [toNat_ofNat', Nat.mod_eq_of_lt (by omega)]
  have hn : (ofNat direntSize).toNat = direntSize := rfl
  have hread := @Fs.readi_mapped sb s dp (ofNat off) (ofNat direntSize)
    (by rw [hoff, hn]; exact hsize) (by rw [hoff, hn]; exact hmax)
    (by rw [hoff, hn]; exact hblocks)
  rw [hoff, hn] at hread
  refine ⟨_, hread, ?_⟩
  intro i hi
  simp [ofList, hi]

/-- The loop stops at the first record in use that has the name, if all records up to it can be
read. -/
theorem dirlookupLoop_found {pre post : List Nat} {off : Nat}
    (hlimit : limit ≤ dp.size.toNat ∧ limit ≤ Fs.maxfile * bsize)
    (hblocks : ∀ bn, bn * bsize < limit → Fs.fileBlock s.disk dp bn ≠ 0)
    (hread : ∀ o ∈ pre ++ [off], o + direntSize ≤ limit)
    (hpre : ∀ o ∈ pre, matchAt (Fs.byteAt s.disk dp) name o = false)
    (hoff : matchAt (Fs.byteAt s.disk dp) name off = true) :
    dirlookupLoop sb name (pre ++ off :: post) s dp =
      .ok (some (inumAt (Fs.byteAt s.disk dp) off, off), dp, s) := by
  induction pre with
  | nil =>
    have hle : off + direntSize ≤ limit := hread off (by simp)
    obtain ⟨bytes, hbytes, hsame⟩ := @readi_record sb s dp off (by omega) (by omega)
      fun bn hbn => hblocks bn (by omega)
    have hm : matchAt (ofList bytes) name 0 = true := by rw [matchAt_congr hsame, hoff]
    simp only [nil_append, dirlookupLoop, hbytes, ne_eq, not_true, if_false, hm, if_true,
      inumAt_congr hsame]
  | cons o pre ih =>
    have hle : o + direntSize ≤ limit := hread o (by simp)
    obtain ⟨bytes, hbytes, hsame⟩ := @readi_record sb s dp o (by omega) (by omega)
      fun bn hbn => hblocks bn (by omega)
    have hm : matchAt (ofList bytes) name 0 = false := by
      rw [matchAt_congr hsame, hpre o (by simp)]
    simp only [cons_append, dirlookupLoop, hbytes, ne_eq, not_true, if_false, hm]
    exact ih (fun p hp => hread p (mem_cons_of_mem _ hp))
      (fun p hp => hpre p (mem_cons_of_mem _ hp))

/-- The offsets of a directory up to its record number `j`. -/
theorem offsets_split {size j : Nat} (h : direntSize * j < size) :
    ∃ post, offsets size = (range j).map (direntSize * ·) ++ direntSize * j :: post := by
  have hpos : direntSize = 16 := rfl
  have hlt : j < (size + direntSize - 1) / direntSize := by
    rw [hpos] at h ⊢
    omega
  obtain ⟨m, hm⟩ := Nat.exists_eq_add_of_lt hlt
  have hsplit : range (j + m + 1) = range j ++ j :: (range m).map (j + 1 + ·) := by
    rw [show j + m + 1 = j + 1 + m by omega, range_add, range_succ]
    simp
  rw [offsets, hm, hsplit]
  simp

end Lookup

end FogOS.Dirent
