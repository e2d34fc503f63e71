import FogOS.Mkfs.Append

/-!
# Building an image

After each step of `main` the image holds a root directory and the files of the
arguments read so far, in the inodes `1, 2, ...`, and the kernel's allocation
invariant holds of its shadow.
-/

namespace FogOS.Mkfs

open Function Library Bytes Fs Dirent List Nat Dir Prod

/-- The blocks of files with the given contents. -/
def heldAll (files : List (List UInt8)) : Nat := (files.map fun f => held f.length).sum

/-- The image holds the given files, each with its type, in the inodes from the root on. -/
structure Stored (st : State) (files : List (UInt16 × List UInt8)) : Prop where
  inv : AllocInv sb (shadow st) (node st)
  room : Room st
  fits : st.freeblock ≤ sb.size
  freeinode : st.freeinode = 1 + files.length
  inodes : 1 + files.length ≤ sb.ninodes
  count : st.freeblock = nmeta + heldAll (files.map Prod.snd)
  typed : ∀ f ∈ files, f.1 ≠ 0
  file : ∀ {k f}, files[k]? = some f → (node st (1 + k)).type = f.1 ∧
    (node st (1 + k)).nlink = 1 ∧ content (shadow st) (node st (1 + k)) = f.2
  free : ∀ i, i < sb.ninodes → i = 0 ∨ 1 + files.length ≤ i → node st i = Dinode.zero
  super : st.disk 1 = superblock

/-- The slots of an inode without an indirect block are in the inode alone. -/
theorem Filled.of_direct {d d' : Disk} {din : Dinode} {h : Nat} (hf : Filled d din h)
    (hh : h ≤ ndirect) : Filled d' din h := by
  have hzero : din.addr ndirect = 0 := by
    by_contra hne
    have := (hf ndirect (by decide)).mp hne
    omega
  intro l hl
  rw [blockRef_congr (fun hne => absurd hzero hne)]
  exact hf l hl

variable {st : State} {root c xs : List UInt8} {files left right : List (UInt16 × List UInt8)}
  {type : UInt16} {k : Nat} {f : UInt16 × List UInt8}

theorem Stored.live (b : Stored st files) (h : files[k]? = some f) : Live sb (node st) (1 + k) := by
  have hle := b.inodes
  obtain ⟨hlt, -⟩ := List.getElem?_eq_some_iff.mp h
  refine ⟨by omega, ?_⟩
  rw [(b.file h).1]
  exact b.typed f (mem_of_getElem? h)

theorem Stored.size (b : Stored st files) (h : files[k]? = some f) :
    (node st (1 + k)).size.toNat = f.2.length := by
  rw [← (b.file h).2.2, content_length]

/-- The inode that `ialloc` writes. -/
def fresh (type : UInt16) : Dinode := { Dinode.zero with type := type, nlink := 1, size := 0 }

theorem blockRef_fresh (d : Disk) (type : UInt16) (k : Nat) : blockRef d (fresh type) k = 0 := by
  have haddr : ∀ k, (fresh type).addr k = 0 := by
    simp [Dinode.addr, fresh, Dinode.zero]
  simp [blockRef, haddr]

theorem filled_fresh (d : Disk) (type : UInt16) : Filled d (fresh type) 0 := by
  intro l _
  rw [blockRef_fresh]
  simp

/-- What `ialloc` does: it writes one inode. -/
structure Allocated (st : State) (type : UInt16) (st' : State) : Prop where
  inv : AllocInv sb (shadow st') (node st')
  room : Room st'
  nodes : node st' = update (node st) st.freeinode (fresh type)
  contents : ∀ j, Live sb (node st) j →
    content (shadow st') (node st j) = content (shadow st) (node st j)
  super : st'.disk 1 = st.disk 1

theorem ialloc_spec (hi : AllocInv sb (shadow st) (node st)) (r : Room st)
    (hlt : iblock sb st.freeinode < sb.bmapstart) (hdead : ¬ Live sb (node st) st.freeinode)
    (type : UInt16) : Allocated st type (ialloc type st).2 := by
  have hnode : node (ialloc type st).2 = update (node st) st.freeinode (fresh type) :=
    @node_winode { st with freeinode := st.freeinode + 1 } st.freeinode (fresh type) hlt
  have hsame : ∀ c, sb.bmapstart ≤ c → shadow (ialloc type st).2 c = shadow st c := by
    intro c hc
    rw [show shadow (ialloc type st).2 = _ from @shadow_winode
      { st with freeinode := st.freeinode + 1 } st.freeinode (fresh type) hlt []]
    exact update_of_ne (by omega) _ _
  constructor
  case inv =>
    rw [hnode]
    refine (hi.replace_empty (fun k => ?_) (blockRef_fresh _ type) rfl).congr_disk hsame
    simp only [slotRef, if_neg hdead]
  case room =>
    exact @Room.winode { st with freeinode := st.freeinode + 1 } st.freeinode (fresh type)
      ⟨r.low, r.zero⟩ hlt
  case nodes => exact hnode
  case contents => exact fun j hl => hi.content_eq hsame hl
  case super =>
    have hle : sb.inodestart ≤ iblock sb st.freeinode := le_add_left _ _
    have hstart : 1 < sb.inodestart := by decide
    have hne : 1 ≠ iblock sb st.freeinode := by omega
    simp only [ialloc, winode, wsect, update_of_ne hne]

theorem heldAll_append (files files' : List (List UInt8)) :
    heldAll (files ++ files') = heldAll files + heldAll files' := by
  simp [heldAll]

theorem heldAll_cons (x : List UInt8) (files : List (List UInt8)) :
    heldAll (x :: files) = held x.length + heldAll files := rfl

/-- The next file gets an empty inode. -/
theorem Stored.ialloc (b : Stored st files) (hlt : 1 + files.length < sb.ninodes)
    (htype : type ≠ 0) : Stored (ialloc type st).2 (files ++ [(type, [])]) ∧
      node (ialloc type st).2 = update (node st) (1 + files.length) (fresh type) := by
  have hzero := b.free _ hlt (.inr (le_refl _))
  have ha := ialloc_spec b.inv b.room (by rw [b.freeinode]; exact iblock_lt_bmapstart hlt)
    (by rw [b.freeinode]; exact fun hl => hl.2 (by rw [hzero]; rfl)) type
  have hnodes := ha.nodes
  rw [b.freeinode] at hnodes
  refine ⟨?_, hnodes⟩
  constructor
  case inv => exact ha.inv
  case room => exact ha.room
  case fits => exact b.fits
  case freeinode => simp [Mkfs.ialloc, winode, wsect, b.freeinode, add_assoc]
  case inodes =>
    rw [length_append, length_singleton]
    omega
  case count =>
    have hempty : heldAll [[]] = 0 := by decide
    rw [map_append, heldAll_append, ← add_assoc, ← b.count]
    show st.freeblock = st.freeblock + heldAll [[]]
    rw [hempty, add_zero]
  case typed =>
    intro f hf
    rcases mem_append.mp hf with hf | hf
    · exact b.typed f hf
    · rw [mem_singleton.mp hf]
      exact htype
  case file =>
    intro k f hf
    by_cases hlast : k < files.length
    · rw [getElem?_append_left hlast] at hf
      rw [hnodes, update_of_ne (by omega), ha.contents _ (b.live hf)]
      exact b.file hf
    · obtain ⟨hk, -⟩ := List.getElem?_eq_some_iff.mp hf
      rw [length_append, length_singleton] at hk
      obtain rfl : k = files.length := by omega
      rw [getElem?_concat_length, Option.some.injEq] at hf
      rw [hnodes, update_self, ← hf]
      exact ⟨rfl, rfl, rfl⟩
  case free =>
    intro i hi hle
    rw [length_append, length_singleton] at hle
    rw [hnodes, update_of_ne (by omega), b.free i hi (by omega)]
  case super => rw [ha.super, b.super]

theorem getElem?_insert {a a' : UInt16 × List UInt8} (hk : k ≠ left.length) :
    (left ++ a :: right)[k]? = (left ++ a' :: right)[k]? := by
  rw [getElem?_append, getElem?_append]
  split
  · rfl
  · obtain ⟨j, hj⟩ : ∃ j, k - left.length = j + 1 := ⟨k - left.length - 1, by omega⟩
    rw [hj]
    rfl

/-- An append to one of the files. -/
theorem Stored.append (b : Stored st (left ++ (type, c) :: right))
    (hf : Filled (shadow st) (node st (1 + left.length)) (held c.length)) :
    Decides (c.length + xs.length ≤ maxfile * bsize ∧
        nmeta + heldAll ((left ++ (type, c ++ xs) :: right).map snd) ≤ fssize)
      (fun st' => Stored st' (left ++ (type, c ++ xs) :: right) ∧
        Filled (shadow st') (node st' (1 + left.length)) (held (c ++ xs).length) ∧
        ∀ i, i < sb.ninodes → i ≠ 1 + left.length → node st' i = node st i)
      (iappend (1 + left.length) xs st) := by
  have hself : (left ++ (type, c) :: right)[left.length]? = some (type, c) := by simp
  have hsize : (node st (1 + left.length)).size.toNat = c.length := b.size hself
  have hcount := b.count
  have hfs : sb.size = fssize := rfl
  obtain ⟨htype, hnlink, hcontent⟩ := b.file hself
  have happend := @iappend_spec st (1 + left.length) xs b.inv (b.live hself) b.room
    (by rw [hsize]; exact hf) b.fits
  rw [hsize] at happend
  simp only [map_append, map_cons, heldAll_append, heldAll_cons, length_append]
    at hcount ⊢
  refine happend.imp (by omega) fun st' hroom ha => ?_
  have hc := ha.count
  rw [hsize] at hc
  refine ⟨?_, ?_, ha.nodes⟩
  · constructor
    case inv => exact ha.inv
    case room => exact ha.room
    case fits => omega
    case freeinode =>
      rw [ha.freeinode, b.freeinode]
      simp
    case inodes => simpa using b.inodes
    case count =>
      simp only [map_append, map_cons, heldAll_append, heldAll_cons, length_append]
      omega
    case typed =>
      have htyped := b.typed
      simp only [forall_mem_append, forall_mem_cons] at htyped ⊢
      exact htyped
    case file =>
      intro k f hk
      by_cases hne : k = left.length
      · subst hne
        obtain rfl : (type, c ++ xs) = f := by simpa using hk
        rw [ha.type, ha.nlink, ha.content, hcontent]
        exact ⟨htype, hnlink, rfl⟩
      · rw [getElem?_insert hne] at hk
        have hl := b.live hk
        rw [ha.nodes _ hl.1 (by omega), ha.contents _ (by omega) hl]
        exact b.file hk
    case free =>
      intro i hi hle
      have hlen : i = 0 ∨ 1 + (left ++ (type, c) :: right).length ≤ i := by simpa using hle
      rw [ha.nodes i hi (by simp only [length_append, length_cons] at hlen; omega),
        b.free i hi hlen]
    case super =>
      have hle : sb.inodestart ≤ iblock sb (1 + left.length) := le_add_left _ _
      have hstart : 1 < sb.inodestart := by decide
      rw [ha.low 1 (by decide) (by omega), b.super]
  · have hfilled := ha.filled
    rwa [hsize] at hfilled

section Main

/-- The loop over the chunks of a file, however they are cut. -/
theorem Stored.appendChunks {cs : List (List UInt8)} (b : Stored st (left ++ [(type, c)]))
    (hf : Filled (shadow st) (node st (1 + left.length)) (held c.length)) :
    Decides ((c ++ cs.flatten).length ≤ maxfile * bsize ∧
        nmeta + heldAll (left.map snd) + held (c ++ cs.flatten).length ≤ fssize)
      (fun st' => Stored st' (left ++ [(type, c ++ cs.flatten)]) ∧
        ∀ i, i < sb.ninodes → i ≠ 1 + left.length → node st' i = node st i)
      (appendChunks (1 + left.length) cs st) := by
  induction cs generalizing c st with
  | nil =>
    have hself : (left ++ [(type, c)])[left.length]? = some (type, c) := by simp
    have hmax := b.inv.size_le _ (b.live hself)
    have hsize : (node st (1 + left.length)).size.toNat = c.length := b.size hself
    have hfits : st.freeblock ≤ fssize := b.fits
    rw [b.count, map_append, heldAll_append] at hfits
    rw [flatten_nil, append_nil]
    exact .ok ⟨by omega, by simpa [heldAll, add_assoc] using hfits⟩ ⟨b, fun _ _ _ => rfl⟩
  | cons x cs ih =>
    have hassoc : c ++ (x :: cs).flatten = (c ++ x) ++ cs.flatten := by simp
    have hle : c.length + x.length ≤ ((c ++ x) ++ cs.flatten).length := by
      simp only [length_append]
      omega
    have hmono := held_mono hle
    rw [hassoc, Mkfs.appendChunks]
    refine (@Stored.append st c x left [] type b hf).seq ?_ ?_
    · rintro ⟨hmax, hspace⟩
      simp only [map_append, map_cons, heldAll_append, heldAll_cons, length_append,
        show heldAll ([].map snd) = 0 from rfl]
      omega
    · rintro st₁ - ⟨b₁, hf₁, hnodes₁⟩
      refine (ih b₁ hf₁).imp Iff.rfl fun st' _ hst' => ⟨hst'.1, fun i hi hne => ?_⟩
      rw [hst'.2 i hi hne, hnodes₁ i hi hne]

/-- The directory entries of the files, whose inodes are numbered from `inum` on. -/
def fileRecords (inum : Nat) : List HostFile → List UInt8
  | [] => []
  | f :: fs => record inum (ofList (shortname f.arg)) ++ fileRecords (inum + 1) fs

theorem held_direct {n : Nat} (h : n ≤ ndirect * bsize) : held n ≤ ndirect := by
  have hdiv : (n + bsize - 1) / bsize ≤ ndirect := by
    apply le_of_lt_succ
    apply Nat.div_lt_of_lt_mul
    have hpos : 0 < bsize := by decide
    rw [mul_succ, mul_comm]
    omega
  unfold held
  simp only [if_pos hdiv]
  exact hdiv

variable {fs : List HostFile} {f : HostFile}

/-- The files that a step of `main` leaves. -/
structure Built (st : State) (root : List UInt8) (files : List (UInt16 × List UInt8)) : Prop
    extends Stored st ((tDir, root) :: files) where
  rootFilled : Filled (shadow st) (node st Dir.rootino) (held root.length)

section

variable (b : Built st root files)

include b

theorem Built.live_root : Live sb (node st) rootino :=
  b.live (k := 0) rfl

theorem Built.file_spec {f : UInt16 × List UInt8}
    (h : files[k]? = some f) : Live sb (node st) (2 + k) ∧ (node st (2 + k)).type = f.1 ∧
      (node st (2 + k)).nlink = 1 ∧ content (shadow st) (node st (2 + k)) = f.2 := by
  rw [show 2 + k = 1 + (k + 1) by omega]
  exact ⟨b.live h, b.file h⟩

theorem Built.appendRoot :
    Decides (root.length + xs.length ≤ maxfile * bsize ∧
        nmeta + held (root.length + xs.length) + heldAll (files.map snd) ≤ fssize)
      (fun st' => Built st' (root ++ xs) files ∧
        ∀ i, i < sb.ninodes → i ≠ rootino → node st' i = node st i)
      (iappend Dir.rootino xs st) := by
  have happend := @Stored.append st root xs [] files tDir b.toStored b.rootFilled
  simp only [nil_append, map_cons, heldAll_cons, length_append] at happend
  exact happend.imp (by omega) fun st' _ ha => ⟨⟨ha.1, by rw [length_append]; exact ha.2.1⟩, ha.2.2⟩

theorem Built.addFile (hlt : 2 + files.length < sb.ninodes)
    (hroot : root.length + direntSize ≤ ndirect * bsize) :
    Decides (slash ∉ baseName f.arg ∧ f.bytes.length ≤ maxfile * bsize ∧
        nmeta + held (root.length + direntSize) + heldAll (files.map snd) +
          held f.bytes.length ≤ fssize)
      (fun st' => Built st' (root ++ record (2 + files.length) (ofList (shortname f.arg)))
        (files ++ [(tFile, f.bytes)]))
      (addFile f st) := by
  have hdirect : ndirect * bsize ≤ maxfile * bsize := by decide
  have hlen := length_record (2 + files.length) (ofList (shortname f.arg))
  have hroot₂ : (root ++ record (2 + files.length) (ofList (shortname f.arg))).length =
      root.length + direntSize := by
    rw [length_append, hlen]
  have hempty : heldAll [[]] = 0 := by decide
  have hinum : ∀ r, 1 + ((tDir, r) :: files).length = 2 + files.length := by
    intro r
    rw [length_cons]
    omega
  obtain ⟨b₁, hnodes₁⟩ := b.ialloc (by rw [hinum]; exact hlt) (show tFile ≠ 0 by decide)
  rw [hinum] at hnodes₁
  have hne : rootino ≠ 2 + files.length := by
    unfold rootino
    omega
  have hsmall := held_direct (le_of_add_right_le hroot)
  have b₁ : Built (ialloc tFile st).2 root (files ++ [(tFile, [])]) := by
    refine ⟨b₁, ?_⟩
    rw [hnodes₁, update_of_ne hne]
    exact b.rootFilled.of_direct hsmall
  unfold Mkfs.addFile
  by_cases hslash : slash ∈ baseName f.arg
  · rw [if_pos hslash]
    exact .error fun h => h.1 hslash
  · rw [if_neg hslash]
    have hfree : (Mkfs.ialloc tFile st).1 = 2 + files.length := b.freeinode.trans (hinum root)
    simp only [hfree]
    refine b₁.appendRoot.seq ?_ ?_
    · rw [map_append, heldAll_append, show heldAll ([(tFile, [])].map snd) = 0 from hempty,
        hlen]
      omega
    · rintro st₂ - ⟨b₂, hnodes₂⟩
      have hfresh : node st₂ (2 + files.length) = fresh tFile := by
        rw [hnodes₂ _ hlt hne.symm, hnodes₁, update_self]
      have hchunks := @Stored.appendChunks st₂ [] ((tDir, root ++ record (2 + files.length)
        (ofList (shortname f.arg))) :: files) tFile f.chunks b₂.toStored
      rw [hinum, hfresh] at hchunks
      simp only [map_cons, heldAll_cons, nil_append, hroot₂] at hchunks
      refine (hchunks (filled_fresh _ tFile)).imp ⟨fun h => ⟨hslash, h.1, ?_⟩, fun h => ⟨h.2.1, ?_⟩⟩
        fun st' _ hst' => ⟨hst'.1, ?_⟩
      · have hspace := h.2
        rw [← add_assoc] at hspace
        exact hspace
      · rw [← add_assoc]
        exact h.2.2
      · rw [hst'.2 _ (by decide) hne]
        exact b₂.rootFilled.of_direct (held_direct (by rw [hroot₂]; exact hroot))

theorem Built.addFiles (hinodes : 2 + files.length + fs.length ≤ sb.ninodes)
    (hroot : root.length + direntSize * fs.length ≤ ndirect * bsize) :
    Decides ((∀ f ∈ fs, slash ∉ baseName f.arg) ∧ (∀ f ∈ fs, f.bytes.length ≤ maxfile * bsize) ∧
        nmeta + held (root.length + direntSize * fs.length) + heldAll (files.map snd) +
          heldAll (fs.map HostFile.bytes) ≤ fssize)
      (fun st' => Built st' (root ++ fileRecords (2 + files.length) fs)
        (files ++ fs.map fun f => (tFile, f.bytes)))
      (addFiles fs st) := by
  induction fs generalizing st root files with
  | nil =>
    have hfits : st.freeblock ≤ fssize := b.fits
    rw [b.count, map_cons, heldAll_cons] at hfits
    exact .ok ⟨by simp, by simp, by simpa [heldAll, add_assoc] using hfits⟩
      (by simpa [fileRecords] using b)
  | cons f fs ih =>
    have hlen := length_record (2 + files.length) (ofList (shortname f.arg))
    rw [length_cons, mul_add, mul_one] at hroot
    rw [length_cons] at hinodes
    have hmono := @held_mono (root.length + direntSize)
      (root.length + (direntSize * fs.length + direntSize)) (by omega)
    have hsum : root.length + direntSize + direntSize * fs.length =
        root.length + (direntSize * fs.length + direntSize) := by omega
    refine (b.addFile (f := f) (by omega) (by omega)).seq ?_ ?_
    · simp only [forall_mem_cons, map_cons, heldAll_cons, length_cons, mul_add,
        mul_one]
      rintro ⟨hslash, hmax, hspace⟩
      exact ⟨hslash.1, hmax.1, by omega⟩
    · rintro st₁ ⟨hslash, hmax, -⟩ b₁
      have hlen₁ : (root ++ record (2 + files.length) (ofList (shortname f.arg))).length =
          root.length + direntSize := by
        rw [length_append, hlen]
      refine (ih b₁ (by rw [length_append, length_singleton]; omega) (by omega)).imp ?_ ?_
      · have hone : heldAll ([(tFile, f.bytes)].map snd) = held f.bytes.length := rfl
        rw [hlen₁, hsum, map_append, heldAll_append, hone, map_cons, heldAll_cons,
          length_cons, mul_add, mul_one, forall_mem_cons, forall_mem_cons]
        constructor
        · rintro ⟨hslash', hmax', hspace⟩
          exact ⟨⟨hslash, hslash'⟩, ⟨hmax, hmax'⟩, by omega⟩
        · rintro ⟨⟨-, hslash'⟩, ⟨-, hmax'⟩, hspace⟩
          exact ⟨hslash', hmax', by omega⟩
      · simpa [fileRecords, add_assoc] using b'

end

/-- The empty image. -/
theorem start_room : Room start where
  low := le_refl _
  zero b hb := by
    have hne : b ≠ 1 := by
      have hlow : nmeta ≤ b := hb
      have hmeta : 1 < nmeta := by decide
      omega
    simp only [start, wsect, update_of_ne hne]

theorem node_start {i : Nat} (hi : i < sb.ninodes) : node start i = Dinode.zero := by
  have hle : sb.inodestart ≤ iblock sb i := le_add_left _ _
  have hstart : 1 < sb.inodestart := by decide
  have hne : iblock sb i ≠ 1 := by omega
  have hzero : shadow start (iblock sb i) = fun _ => 0 := by
    rw [shadow_inode (iblock_lt_bmapstart hi)]
    simp only [start, wsect, update_of_ne hne]
  unfold node dinode
  rw [hzero]
  exact decodeDinode_zero _

theorem start_allocInv : AllocInv sb (shadow start) (node start) := by
  have hmeta : start.freeblock = dataStart sb := rfl
  have hformat := formatted_allocInv wellFormed_sb size_sb_lt_bpb
  have hdisk : AllocInv sb (shadow start) (dinode sb (formatted sb (dataStart sb))) := by
    apply hformat.congr_disk
    intro c hc
    have hne : c ≠ 1 := by
      have hlow : 1 < sb.bmapstart := by decide
      omega
    unfold shadow formatted
    by_cases hmap : c = sb.bmapstart
    · subst hmap
      rw [update_self, update_self, hmeta]
    · rw [update_of_ne hmap, update_of_ne hmap]
      simp only [start, wsect, update_of_ne hne]
  apply hdisk.congr_view
  intro i hi
  rw [node_start hi, dinode_formatted wellFormed_sb _ hi]

theorem start_stored : Stored start [] where
  inv := start_allocInv
  room := start_room
  fits := by decide
  freeinode := rfl
  inodes := by decide
  count := rfl
  typed := by simp
  file := by simp
  free i hi _ := node_start hi
  super := rfl

theorem root_built : Built (ialloc tDir start).2 [] [] := by
  obtain ⟨hstored, hnodes⟩ := start_stored.ialloc (by decide) (show tDir ≠ 0 by decide)
  refine ⟨hstored, ?_⟩
  rw [hnodes]
  exact (update_self rootino (fresh tDir) (node start)) ▸ filled_fresh _ tDir

/-- The bytes of the root directory before its size is rounded up. -/
def rootBytes (files : List HostFile) : List UInt8 :=
  record Dir.rootino (ofList dot) ++ record Dir.rootino (ofList dotdot) ++ fileRecords 2 files

/-- The blocks of the image: metadata, the root directory and the files. -/
def imageBlocks (files : List HostFile) : Nat :=
  nmeta + held (direntSize * (2 + files.length)) + heldAll (files.map HostFile.bytes)

/-- The loop over the arguments builds the image if the arguments fit it, and fails otherwise. -/
theorem build_spec (hinodes : fs.length + 1 ≤ ninodes - 1) :
    Decides ((∀ f ∈ fs, slash ∉ baseName f.arg) ∧ (∀ f ∈ fs, f.bytes.length ≤ maxfile * bsize) ∧
        imageBlocks fs ≤ fssize)
      (fun st => Built st (rootBytes fs) (fs.map fun f => (tFile, f.bytes))) (build fs) := by
  have hnin : ninodes = 200 := rfl
  have hsb : sb.ninodes = 200 := rfl
  have hsize : direntSize = 16 := rfl
  have hdirect : ndirect * bsize = 12288 := by decide
  have hlen := length_record rootino (ofList dot)
  have hlen' := length_record rootino (ofList dotdot)
  have hdots : ([] ++ record rootino (ofList dot) ++ record rootino (ofList dotdot)).length =
      32 := by
    rw [nil_append, length_append, hlen, hlen', hsize]
  refine (@Built.appendRoot _ [] (record rootino (ofList dot)) [] root_built).seq (fun _ => ?_)
    fun st₁ _ hst₁ => ?_
  · decide
  refine (@Built.appendRoot st₁ _ (record rootino (ofList dotdot)) [] hst₁.1).seq (fun _ => ?_)
    fun st₂ _ hst₂ => ?_
  · decide
  refine (@Built.addFiles st₂ _ [] fs hst₂.1 ?_ ?_).imp ?_ ?_
  · rw [hsb, length_nil]
    omega
  · rw [hdots, hdirect, hsize]
    omega
  · have hmulti : direntSize * (2 + fs.length) = 32 + direntSize * fs.length := by
      rw [hsize]
      omega
    rw [hdots, imageBlocks, hmulti, map_nil, show heldAll [] = 0 from rfl, add_zero]
  · simpa [rootBytes] using b

end Main

end FogOS.Mkfs
