import FogOS.Mkfs.Image

/-!
# The kernel reads what `mkfs` wrote

The last steps of `main` round the size of the root directory up and write the free
map. The kernel's lookup, its reads and its allocation invariant are then stated of
the finished image.
-/

namespace FogOS.Mkfs

open Function Library Bytes Fs Dirent List

section Finish

variable {st : State} {root : List UInt8} {files : List (UInt16 × List UInt8)}

/-- The root inode of the finished image. -/
def rootNode (st : State) : Dinode :=
  { node st Dir.rootino with
    size := UInt32.ofNat (((node st Dir.rootino).size.toNat / bsize + 1) * bsize) }

/-- The finished image. -/
def image (st : State) : Disk := shadow (fixRoot st)

theorem image_eq (st : State) :
    image st = (iupdate sb (store st []) Dir.rootino (rootNode st)).disk := by
  exact shadow_winode (by decide) []

theorem dinode_image (st : State) :
    dinode sb (image st) = update (node st) Dir.rootino (rootNode st) := by
  rw [image_eq, iupdate_dinode]
  rfl

theorem image_data {c : Nat} (hc : sb.bmapstart ≤ c) : image st c = shadow st c := by
  rw [image_eq]
  exact iupdate_apply_of_le wellFormed_sb (by decide) hc

theorem main_eq {fs : List HostFile} (hbuild : build fs = .ok st)
    (hcount : st.freeblock ≤ fssize) : main fs = .ok (image st) := by
  have hlt : (fixRoot st).freeblock < bsize * 8 := by
    have hfs : fssize < bsize * 8 := by decide
    change st.freeblock < bsize * 8
    omega
  unfold main
  rw [hbuild, ok_bind]
  simp only [balloc, if_pos hlt, ok_bind]
  rfl

theorem live_image (i : Nat) : Live sb (dinode sb (image st)) i ↔ Live sb (node st) i := by
  rw [dinode_image]
  exact @live_update_iff sb (node st) Dir.rootino (rootNode st) rfl i

variable (b : Built st root files)

include b

theorem Built.blockRef_image {i : Nat} (hl : Live sb (node st) i) (l : Nat) :
    blockRef (image st) (dinode sb (image st) i) l = blockRef (shadow st) (node st i) l := by
  have hds := @bmapstart_lt_dataStart sb
  have hdata : ∀ c, dataStart sb ≤ c → image st c = shadow st c := fun c hc =>
    image_data (by omega)
  rw [← b.inv.blockRef_eq hdata i hl l, dinode_image]
  by_cases hi : i = Dir.rootino
  · subst hi
    rfl
  · rw [update_of_ne hi]

theorem Built.slotRef_image (x : Nat × Nat) :
    slotRef sb (image st) (dinode sb (image st)) x = slotRef sb (shadow st) (node st) x := by
  unfold slotRef
  by_cases hl : Live sb (node st) x.1
  · rw [if_pos hl, if_pos ((live_image x.1).mpr hl), b.blockRef_image hl]
  · rw [if_neg hl, if_neg (fun h => hl ((live_image x.1).mp h))]

/-- A bit is set exactly for the metadata and for the blocks that one slot refers to. -/
theorem Built.bitmap_image {c : Nat} (hc : c < sb.size) :
    blockUsed sb (image st) c = true ↔
      c < nmeta ∨ ∃! x, slotRef sb (image st) (dinode sb (image st)) x = c := by
  have hsame : blockUsed sb (image st) c = blockUsed sb (shadow st) c :=
    blockUsed_congr (image_data (bmapstart_le_bblock c))
  have hmeta := dataStart_sb
  have hpos : 0 < nmeta := by decide
  simp only [hsame, b.slotRef_image]
  by_cases hlow : c < nmeta
  · simp only [hlow, true_or, iff_true]
    exact b.inv.metadata c (by omega) hc
  · rw [b.inv.accounts.used_iff c (by omega) hc]
    simp only [hlow, false_or]
    constructor
    · rintro ⟨x, hx⟩
      refine ⟨x, hx, ?_⟩
      intro y hy
      exact b.inv.accounts.inj y x (by omega) (hy.trans hx.symm)
    · rintro ⟨x, hx, -⟩
      exact ⟨x, hx⟩

/-- The kernel reads the files. -/
theorem Built.readi_file {k : Nat} {f : UInt16 × List UInt8} (hk : files[k]? = some f) {s : Store}
    (hs : s.disk = image st) (off n : UInt32) :
    readi sb s (dinode sb (image st) (2 + k)) none off n =
      let bytes := if off > (dinode sb (image st) (2 + k)).size ∨ off + n < off then []
        else (f.2.drop off.toNat).take n.toNat
      .ok (bytes.length, bytes, dinode sb (image st) (2 + k), s) := by
  have hne : 2 + k ≠ Dir.rootino := by
    unfold Dir.rootino
    omega
  obtain ⟨hlive, -, -, hfile⟩ := b.file_spec hk
  have hinv : AllocInv sb s.disk (node st) := by
    rw [hs, image_eq]
    exact b.inv.iupdate wellFormed_sb (by decide) _
  have hcontent : content s.disk (node st (2 + k)) = f.2 := by
    rw [hs, image_eq, ← hfile]
    exact content_iupdate (s := store st []) b.inv wellFormed_sb (by decide) hlive
  rw [dinode_image, update_of_ne hne, ← hcontent]
  exact readi_spec hinv hlive off n

theorem Built.dinode_file {k : Nat} {f : UInt16 × List UInt8} (hk : files[k]? = some f) :
    (dinode sb (image st) (2 + k)).type = f.1 ∧ (dinode sb (image st) (2 + k)).nlink = 1 ∧
      (dinode sb (image st) (2 + k)).size.toNat = f.2.length := by
  have hne : 2 + k ≠ Dir.rootino := by
    unfold Dir.rootino
    omega
  obtain ⟨-, htype, hnlink, hcontent⟩ := b.file_spec hk
  rw [dinode_image, update_of_ne hne]
  exact ⟨htype, hnlink, by rw [← hcontent, content_length]⟩

theorem Built.readsb_image : readsb (image st) = (fsmagic, mkfsSuperblock) := by
  have hblock : image st 1 = superblock := by
    have hne : 1 ≠ sb.bmapstart := by decide
    have hne' : 1 ≠ iblock sb Dir.rootino := by decide
    rw [← b.super, image_eq, iupdate, Store.write_disk, update_of_ne hne']
    exact shadow_apply hne
  have hword : ∀ k, k < 8 → getLE superblock (4 * k) 4 =
      [fsmagic, sb.size, sb.nblocks, sb.ninodes, sb.nlog, sb.logstart, sb.inodestart,
        sb.bmapstart].getD k 0 := by
    intro k hk
    have hget := @getLE_setWords (fun _ => 0) 0 k [fsmagic, sb.size, sb.nblocks, sb.ninodes,
      sb.nlog, sb.logstart, sb.inodestart, sb.bmapstart] hk
    rw [zero_add] at hget
    rw [superblock, hget]
    interval_cases k <;> rfl
  unfold readsb
  simp only [hblock]
  rw [hword 0 (by decide), hword 1 (by decide), hword 2 (by decide), hword 3 (by decide),
    hword 4 (by decide), hword 5 (by decide), hword 6 (by decide), hword 7 (by decide)]
  rfl

theorem Built.rootNode_size (hroot : root.length ≤ ndirect * bsize) :
    (rootNode st).size.toNat = (root.length / bsize + 1) * bsize := by
  have hbound : ndirect * bsize = 12288 := by decide
  have hbs : bsize = 1024 := rfl
  change (UInt32.ofNat (((node st Dir.rootino).size.toNat / bsize + 1) * bsize)).toNat = _
  rw [show (node st Dir.rootino).size.toNat = root.length from b.size (k := 0) rfl,
    UInt32.toNat_ofNat', Nat.mod_eq_of_lt (by rw [hbs]; omega)]

/-- The root directory of the image has its entries where `mkfs` put them. -/
theorem Built.rootBlocks (hroot : root.length ≤ ndirect * bsize) :
    root.length ≤ (rootNode st).size.toNat ∧
      (∀ bn, bn * bsize < root.length → fileBlock (image st) (rootNode st) bn ≠ 0) ∧
      ∀ p, p < root.length → byteAt (image st) (rootNode st) p = root.getD p 0 := by
  have hsize : (node st Dir.rootino).size.toNat = root.length := b.size (k := 0) rfl
  have hbs : bsize = 1024 := rfl
  have hself : dinode sb (image st) Dir.rootino = rootNode st := by
    rw [dinode_image, update_self]
  have hfile : ∀ bn, fileBlock (image st) (rootNode st) bn =
      fileBlock (shadow st) (node st Dir.rootino) bn := by
    intro bn
    rw [← hself]
    exact b.blockRef_image b.live_root _
  have hdense : ∀ bn, bn * bsize < root.length →
      fileBlock (shadow st) (node st Dir.rootino) bn ≠ 0 := by
    intro bn hbn
    exact b.inv.dense _ b.live_root bn (by rw [hsize]; exact hbn)
  refine ⟨?_, ?_, ?_⟩
  · rw [b.rootNode_size hroot, hbs]
    omega
  · intro bn hbn
    rw [hfile]
    exact hdense bn hbn
  · intro p hp
    have hmul : p / bsize * bsize ≤ p := Nat.div_mul_le_self p bsize
    have hne := hdense (p / bsize) (by omega)
    have harea := dataStart_le_fileBlock b.inv b.live_root rfl hne
    have hds := @bmapstart_lt_dataStart sb
    have hget := @getElem?_content (shadow st) (node st Dir.rootino) p
    rw [show content (shadow st) (node st Dir.rootino) = root from (b.file (k := 0) rfl).2.2, hsize,
      if_pos hp] at hget
    rw [byteAt, hfile, image_data (by omega), getD_eq_getElem?_getD, hget]
    rfl

end Finish

section Entries

/-- The entries of the root directory: inode numbers and names. -/
def entries (fs : List HostFile) : List (Nat × List UInt8) :=
  (Dir.rootino, dot) :: (Dir.rootino, dotdot) ::
    (fs.zipIdx 2).map fun (f, inum) => (inum, shortname f.arg)

/-- The bytes of a list of entries. -/
def encode (es : List (Nat × List UInt8)) : List UInt8 :=
  es.flatMap fun e => record e.1 (ofList e.2)

theorem fileRecords_eq (fs : List HostFile) (inum : Nat) :
    fileRecords inum fs = encode ((fs.zipIdx inum).map fun (f, k) => (k, shortname f.arg)) := by
  induction fs generalizing inum with
  | nil => rfl
  | cons f fs ih =>
    rw [fileRecords, ih]
    rfl

theorem rootBytes_eq (fs : List HostFile) : rootBytes fs = encode (entries fs) := by
  rw [rootBytes, fileRecords_eq, append_assoc]
  rfl

/-- Entry `j` is stored at offset `16 * j`. -/
theorem encode_getD {es : List (Nat × List UInt8)} {j i : Nat} (hj : j < es.length)
    (hi : i < direntSize) :
    (encode es).getD (direntSize * j + i) 0 = (record es[j].1 (ofList es[j].2)).getD i 0 := by
  induction es generalizing j with
  | nil => exact absurd hj (Nat.not_lt_zero j)
  | cons e es ih =>
    have hlen := length_record e.1 (ofList e.2)
    have hcons : encode (e :: es) = record e.1 (ofList e.2) ++ encode es := rfl
    rw [hcons]
    cases j with
    | zero =>
      simp only [Nat.mul_zero, zero_add, getD_eq_getElem?_getD, getElem_cons_zero]
      rw [getElem?_append_left (by omega)]
    | succ j =>
      have hsub : direntSize * (j + 1) + i - direntSize = direntSize * j + i := by
        rw [mul_add]
        omega
      rw [getD_eq_getElem?_getD, getElem?_append_right (by rw [hlen, mul_add]; omega),
        hlen, hsub, ← getD_eq_getElem?_getD]
      exact ih (by simpa using hj)

theorem length_entries (fs : List HostFile) : (entries fs).length = fs.length + 2 := by
  simp [entries]

theorem length_encode (es : List (Nat × List UInt8)) :
    (encode es).length = direntSize * es.length := by
  induction es with
  | nil => rfl
  | cons e es ih =>
    have hcons : encode (e :: es) = record e.1 (ofList e.2) ++ encode es := rfl
    rw [hcons, length_append, ih, length_record, length_cons, mul_add]
    omega

variable {st : State} {fs : List HostFile} {files : List (UInt16 × List UInt8)}

/-- The records of the root directory as the kernel reads them. -/
theorem Built.record_image (b : Built st (rootBytes fs) files) (hfit : fs.length + 1 ≤ ninodes - 1)
    {j : Nat} {e : Nat × List UInt8} (he : (entries fs)[j]? = some e) :
    ∀ i, i < direntSize → byteAt (image st) (rootNode st) (direntSize * j + i) =
      ofList (record e.1 (ofList e.2)) (0 + i) := by
  intro i hi
  obtain ⟨hj, rfl⟩ := List.getElem?_eq_some_iff.mp he
  have hsize : direntSize = 16 := rfl
  have hnin : ninodes = 200 := rfl
  have hdirect : ndirect * bsize = 12288 := by decide
  have hentries := length_entries fs
  have hlen : (rootBytes fs).length = direntSize * (fs.length + 2) := by
    rw [rootBytes_eq, length_encode, hentries]
  obtain ⟨-, -, hbytes⟩ := b.rootBlocks (by rw [hlen, hsize]; omega)
  rw [hbytes _ (by rw [hlen, hsize]; omega), rootBytes_eq, encode_getD hj hi, zero_add]
  rfl

/-- A lookup in the root directory stops at the first entry with the name. -/
theorem Built.dirlookup_image (b : Built st (rootBytes fs) files)
    (hfit : fs.length + 1 ≤ ninodes - 1) {s : Store} (hs : s.disk = image st) {name : List UInt8}
    {j : Nat} {e : Nat × List UInt8} (he : (entries fs)[j]? = some e)
    (hinum : e.1 ≠ 0 ∧ e.1 < 2 ^ 16) (hname : key (ofList name) = key (ofList e.2))
    (hbefore : ∀ i, i < j → ∀ e', (entries fs)[i]? = some e' →
      key (ofList name) ≠ key (ofList e'.2)) :
    dirlookup sb s (dinode sb (image st) Dir.rootino) (ofList name) =
      .ok (some (e.1, direntSize * j), dinode sb (image st) Dir.rootino, s) := by
  have hsize : direntSize = 16 := rfl
  have hnin : ninodes = 200 := rfl
  have hdirect : ndirect * bsize = 12288 := by decide
  have hmax : ndirect * bsize ≤ maxfile * bsize := by decide
  obtain ⟨hj, -⟩ := List.getElem?_eq_some_iff.mp he
  have hentries := length_entries fs
  have hlen : (rootBytes fs).length = direntSize * (fs.length + 2) := by
    rw [rootBytes_eq, length_encode, hentries]
  obtain ⟨hroot, hblocks, -⟩ := b.rootBlocks (by rw [hlen, hsize]; omega)
  have hself : dinode sb (image st) Dir.rootino = rootNode st := by
    rw [dinode_image, update_self]
  have htype : ¬ (rootNode st).type ≠ tDir := not_not.mpr (b.file (k := 0) rfl).1
  obtain ⟨post, hsplit⟩ := @offsets_split (rootNode st).size.toNat j (by rw [hsize] at hlen ⊢; omega)
  have hrec := b.record_image hfit he
  have hinumAt : inumAt (byteAt (image st) (rootNode st)) (direntSize * j) = e.1 := by
    rw [inumAt_congr hrec, inumAt_record hinum.2]
  rw [hself]
  unfold dirlookup
  rw [if_neg htype, hsplit]
  rw [← hs] at hblocks hrec hinumAt
  rw [dirlookupLoop_found ⟨hroot, by rw [hlen, hsize]; omega⟩ hblocks, hinumAt]
  · -- The records up to the one with the name are all below the last entry.
    intro o ho
    rw [hlen]
    rcases mem_append.mp ho with ho | ho
    · obtain ⟨i, hi, rfl⟩ := mem_map.mp ho
      have hij := mem_range.mp hi
      rw [hsize]
      omega
    · rw [mem_singleton.mp ho, hsize]
      omega
  · intro o ho
    obtain ⟨i, hi, rfl⟩ := mem_map.mp ho
    have hij := mem_range.mp hi
    have hei : (entries fs)[i]? = some (entries fs)[i] := getElem?_eq_getElem (by omega)
    have hreci := b.record_image hfit hei
    rw [← hs] at hreci
    rw [← Bool.not_eq_true, matchAt_iff, key_nameAt_congr hreci, key_nameAt_record]
    rintro ⟨-, hkey⟩
    exact hbefore i hij _ hei hkey
  · rw [matchAt_iff, hinumAt, key_nameAt_congr hrec, key_nameAt_record]
    exact ⟨hinum.1, hname⟩

end Entries

section Agreement

/-- The name of a file in the image, as far as the kernel sees it. -/
def HostFile.name (f : HostFile) : List UInt8 := (shortname f.arg).take Dir.dirsiz

theorem shortname_ne_zero (f : HostFile) : (0 : UInt8) ∉ shortname f.arg := by
  have hbase : (0 : UInt8) ∉ baseName f.arg := by
    intro h
    unfold baseName at h
    split at h
    · exact f.arg_ne_zero (mem_of_mem_drop h)
    · exact f.arg_ne_zero h
  intro h
  unfold shortname at h
  split at h
  · exact hbase (mem_of_mem_drop h)
  · exact hbase h

theorem key_shortname (f : HostFile) : key (ofList (shortname f.arg)) = f.name :=
  cut_ofList (shortname_ne_zero f)

/-- The arguments fit the image. -/
structure Fits (fs : List HostFile) : Prop where
  inodes : fs.length + 1 ≤ ninodes - 1
  sizes : ∀ f ∈ fs, f.bytes.length ≤ maxfile * bsize
  blocks : imageBlocks fs ≤ fssize

instance (fs : List HostFile) : Decidable (Fits fs) :=
  decidable_of_iff (fs.length + 1 ≤ ninodes - 1 ∧ (∀ f ∈ fs, f.bytes.length ≤ maxfile * bsize) ∧
    imageBlocks fs ≤ fssize) ⟨fun h => ⟨h.1, h.2.1, h.2.2⟩, fun h => ⟨h.inodes, h.sizes, h.blocks⟩⟩

/-- Arguments that fit and have no slash give an image; where there are inodes enough, others make
`mkfs` fail. -/
theorem main_spec {fs : List HostFile} (hinodes : fs.length + 1 ≤ ninodes - 1) :
    Decides ((∀ f ∈ fs, slash ∉ baseName f.arg) ∧ (∀ f ∈ fs, f.bytes.length ≤ maxfile * bsize) ∧
        imageBlocks fs ≤ fssize)
      (fun img => ∃ st, build fs = .ok st ∧ img = image st ∧
        Built st (rootBytes fs) (fs.map fun f => (tFile, f.bytes))) (main fs) := by
  have hbuild := build_spec hinodes
  cases hr : build fs with
  | ok st =>
    obtain ⟨hc, b⟩ := hbuild.of_ok hr
    rw [Mkfs.main_eq hr b.fits]
    exact .ok hc ⟨st, rfl, rfl, b⟩
  | error e =>
    rw [main, hr]
    rw [hr] at hbuild
    cases hbuild with
    | error hn => exact .error hn

theorem entries_file {fs : List HostFile} {k : Nat} (hk : k < fs.length) :
    (entries fs)[k + 2]? = some (2 + k, shortname fs[k].arg) := by
  simp [entries, hk]

/-- On every image that `mkfs` writes, the kernel finds the superblock, each file under its name
and with its bytes, and a free map in which exactly the metadata and the blocks that one slot
refers to are marked. -/
theorem mkfs_image_read_by_kernel (fs : List HostFile) (hfits : Fits fs)
    (hnames : (fs.map HostFile.name).Nodup) (hdots : ∀ f ∈ fs, f.name ≠ dot ∧ f.name ≠ dotdot) :
    ((∀ f ∈ fs, slash ∉ baseName f.arg) → ∃ img, main fs = .ok img) ∧
    ∀ img, main fs = .ok img → readsb img = (fsmagic, mkfsSuperblock) ∧
      (∀ k (hk : k < fs.length) (s : Store), s.disk = img →
        (∃ off, dirlookup mkfsSuperblock s (dinode mkfsSuperblock img Dir.rootino)
            (ofList (shortname fs[k].arg)) =
          .ok (some (2 + k, off), dinode mkfsSuperblock img Dir.rootino, s)) ∧
        (dinode mkfsSuperblock img (2 + k)).type = tFile ∧
        (dinode mkfsSuperblock img (2 + k)).size.toNat = fs[k].bytes.length ∧
        ∀ off n : UInt32, readi mkfsSuperblock s (dinode mkfsSuperblock img (2 + k)) none off n =
          let bytes :=
            if off > (dinode mkfsSuperblock img (2 + k)).size ∨ off + n < off then []
            else (fs[k].bytes.drop off.toNat).take n.toNat
          .ok (bytes.length, bytes, dinode mkfsSuperblock img (2 + k), s)) ∧
      ∀ c, c < fssize → (blockUsed mkfsSuperblock img c = true ↔
        c < nmeta ∨ ∃! x, slotRef mkfsSuperblock img (dinode mkfsSuperblock img) x = c) := by
  constructor
  · intro hslash
    obtain ⟨img, heq, -⟩ := (main_spec hfits.inodes).exists ⟨hslash, hfits.sizes, hfits.blocks⟩
    exact ⟨img, heq⟩
  intro img himg
  obtain ⟨-, st, -, rfl, b⟩ := (main_spec hfits.inodes).of_ok himg
  refine ⟨b.readsb_image, ?_, fun c hc => b.bitmap_image hc⟩
  intro k hk s hs
  have hfile : (fs.map fun f => (tFile, f.bytes))[k]? = some (tFile, fs[k].bytes) := by simp [hk]
  obtain ⟨htype, -, hsize⟩ := b.dinode_file hfile
  refine ⟨⟨direntSize * (k + 2), ?_⟩, htype, hsize, ?_⟩
  · have hfit := hfits.inodes
    have hnin : ninodes = 200 := rfl
    apply b.dirlookup_image hfits.inodes hs (entries_file hk) (by omega) rfl
    intro i hi e he
    rw [key_shortname]
    -- The entries before that of file `k`: the dots and the files with smaller numbers.
    match i, hi, he with
    | 0, _, he =>
      cases he
      exact (hdots _ (getElem_mem hk)).1
    | 1, _, he =>
      cases he
      exact (hdots _ (getElem_mem hk)).2
    | l + 2, hi, he =>
      have hl : l < fs.length := by omega
      rw [entries_file hl] at he
      cases he
      rw [key_shortname]
      intro hsame
      have hk' : k < (fs.map HostFile.name).length := by rwa [length_map]
      have hl' : l < (fs.map HostFile.name).length := by rwa [length_map]
      have hname : (fs.map HostFile.name)[k] = (fs.map HostFile.name)[l] := by
        simpa using hsame
      have hidx := (List.Nodup.getElem_inj_iff hnames).mp hname
      omega
  · exact b.readi_file hfile hs

/-- The program `user/_ls`, of two chunks. -/
def lsFile : HostFile where
  arg := [117, 115, 101, 114, 47, 95, 108, 115]
  chunks := [[127, 69], [76, 70, 2]]
  arg_ne_zero := by decide
  chunks_read := by decide

/-- The kernel finds `ls` in inode `2` and reads its five bytes. -/
theorem mkfs_image_read_by_kernel_ls :
    ∃ img, main [lsFile] = .ok img ∧
      (∃ off, dirlookup mkfsSuperblock ⟨img, [], []⟩ (dinode mkfsSuperblock img Dir.rootino)
          (ofList [108, 115]) =
        .ok (some (2, off), dinode mkfsSuperblock img Dir.rootino, ⟨img, [], []⟩)) ∧
      (dinode mkfsSuperblock img 2).size.toNat = 5 := by
  obtain ⟨hmain, hall⟩ := mkfs_image_read_by_kernel [lsFile] (by decide) (by decide) (by decide)
  obtain ⟨img, himg⟩ := hmain (by decide)
  obtain ⟨-, hfiles, -⟩ := hall img himg
  obtain ⟨hlookup, -, hsize, -⟩ := hfiles 0 (by decide) ⟨img, [], []⟩ rfl
  exact ⟨img, himg, hlookup, hsize⟩

/-- A file `_.`, whose name in the image is that of the first entry of every directory. -/
def dotFile : HostFile where
  arg := [95, 46]
  chunks := [[104, 105]]
  arg_ne_zero := by decide
  chunks_read := by decide

/-- The arguments fit and their names are distinct, but the lookup of the file's name finds the
root directory. -/
theorem dotFile_not_found :
    Fits [dotFile] ∧ ([dotFile].map HostFile.name).Nodup ∧
    ∃ img, main [dotFile] = .ok img ∧
      dirlookup mkfsSuperblock ⟨img, [], []⟩ (dinode mkfsSuperblock img Dir.rootino)
          (ofList (shortname dotFile.arg)) =
        .ok (some (1, 0), dinode mkfsSuperblock img Dir.rootino, ⟨img, [], []⟩) := by
  have hfits : Fits [dotFile] := by decide
  obtain ⟨_, heq, st, -, rfl, b⟩ := (main_spec hfits.inodes).exists
    ⟨by decide, hfits.sizes, hfits.blocks⟩
  refine ⟨hfits, by decide, image st, heq, ?_⟩
  exact @Built.dirlookup_image st [dotFile] _ b hfits.inodes ⟨image st, [], []⟩ rfl
    (shortname dotFile.arg) 0 (Dir.rootino, dot) rfl (by decide) (by decide)
    (fun i hi => absurd hi (Nat.not_lt_zero i))

end Agreement

end FogOS.Mkfs
