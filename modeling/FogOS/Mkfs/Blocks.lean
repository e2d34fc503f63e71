import FogOS.Fs.Invariant
import FogOS.Mkfs.Model

/-!
# The image with its free map

While `mkfs` runs, the free map on the image is still empty. Written at any moment,
it would mark the blocks below `freeblock`; the shadow of a state is the image with
that map. On the shadow, `freeblock++` is the kernel's `balloc`, and the search for
a block in `iappend` is the kernel's `bmap`.
-/

namespace FogOS.Mkfs

open Function Library Bytes Fs Dirent Nat List

/-- The image as it would be if the free map were written now. -/
def shadow (st : State) : Disk := update st.disk sb.bmapstart (mkfsBitmap st.freeblock)

/-- The shadow as the kernel's buffer cache would show it, with no allocation refused. -/
def store (st : State) (log : List Nat) : Store := ⟨shadow st, log, []⟩

/-- Blocks that have not been handed out are data blocks and zero. -/
structure Room (st : State) : Prop where
  low : nmeta ≤ st.freeblock
  zero : ∀ b, st.freeblock ≤ b → st.disk b = fun _ => 0

/-- The slots of an inode are filled in order: the first `h` of them. -/
def Filled (d : Disk) (din : Dinode) (h : Nat) : Prop :=
  ∀ l, l < nslots → (blockRef d din l ≠ 0 ↔ l < h)

variable {st : State} {b : Nat}

theorem wellFormed_sb : WellFormed sb := mkfsSuperblock_wellFormed

theorem iblock_lt_bmapstart {i : Nat} (hi : i < sb.ninodes) : iblock sb i < sb.bmapstart :=
  wellFormed_sb.iblock_lt hi

theorem dataStart_sb : dataStart sb = nmeta := by decide

theorem bmapstart_lt_nmeta : sb.bmapstart < nmeta := by decide

theorem size_sb_lt_bpb : sb.size < bpb := by decide

theorem bblock_sb (hb : b < bpb) : bblock sb b = sb.bmapstart := by
  unfold bblock
  rw [div_eq_of_lt hb, zero_add]

theorem shadow_apply (h : b ≠ sb.bmapstart) : shadow st b = st.disk b :=
  update_of_ne h _ _

theorem shadow_data (h : nmeta ≤ b) : shadow st b = st.disk b := by
  have hlt := bmapstart_lt_nmeta
  exact shadow_apply (by omega)

theorem shadow_bmap : shadow st sb.bmapstart = mkfsBitmap st.freeblock := update_self _ _ _

theorem blockUsed_shadow (hb : b < bpb) :
    blockUsed sb (shadow st) b = decide (b < st.freeblock) := by
  unfold blockUsed
  rw [bblock_sb hb, shadow_bmap, mod_eq_of_lt hb, getBit_mkfsBitmap]

/-- The first block the kernel would find free is the next one `mkfs` hands out. -/
theorem firstFree_shadow (hlt : st.freeblock < sb.size) :
    firstFree sb (shadow st) = some st.freeblock := by
  have hsize := size_sb_lt_bpb
  have hrange : range ((sb.size + bpb - 1) / bpb) = [0] := by decide
  have hbit : ∀ bi, bi < bpb → getBit (shadow st (bblock sb 0)) bi = decide (bi < st.freeblock) := by
    intro bi _
    rw [bblock_sb (by decide), shadow_bmap, getBit_mkfsBitmap]
  have hfind : (range bpb).find? (fun bi =>
      decide (bi < sb.size) && !getBit (shadow st (bblock sb 0)) bi) = some st.freeblock := by
    rw [find?_range_eq_some]
    refine ⟨?_, mem_range.mpr (by omega), ?_⟩
    · rw [hbit _ (by omega)]
      simp [hlt]
    · intro j hj
      rw [hbit _ (by omega)]
      simp [hj]
  unfold firstFree
  rw [hrange]
  simp only [findSome?_cons, Nat.zero_mul, zero_add, hfind, Option.map_some]

/-- Handing out a block marks it in the map; its bytes are zero already. -/
theorem shadow_takeBlock (r : Room st) (hlt : st.freeblock < sb.size) :
    shadow (takeBlock st).2 = update (update (shadow st)
      (bblock sb st.freeblock) (setBit (shadow st (bblock sb st.freeblock)) (st.freeblock % bpb)))
      st.freeblock fun _ => 0 := by
  have hsize := size_sb_lt_bpb
  have hlow := r.low
  have hmeta := bmapstart_lt_nmeta
  rw [bblock_sb (by omega), shadow_bmap, mod_eq_of_lt (show st.freeblock < bpb by omega)]
  funext c
  by_cases hc : c = st.freeblock
  · subst hc
    rw [update_self, shadow_apply (by omega)]
    exact r.zero _ (le_refl _)
  · rw [update_of_ne hc]
    by_cases hm : c = sb.bmapstart
    · subst hm
      rw [update_self, shadow_bmap]
      simp only [takeBlock, mkfsBitmap, range_succ, foldl_append, foldl_cons,
        foldl_nil]
    · rw [update_of_ne hm, shadow_apply hm, shadow_apply hm]
      rfl

theorem Room.takeBlock (r : Room st) : Room (takeBlock st).2 where
  low := le_succ_of_le r.low
  zero b hb := r.zero b (le_of_succ_le hb)

theorem takeBlock_allocates (r : Room st) (hlt : st.freeblock < sb.size) :
    Allocates sb (shadow st) (shadow (takeBlock st).2) st.freeblock where
  lt_size := hlt
  free := by
    have hsize := size_sb_lt_bpb
    rw [blockUsed_shadow (by omega)]
    simp
  disk_eq := shadow_takeBlock r hlt

theorem balloc_store (r : Room st) (hlt : st.freeblock < sb.size) (log : List Nat) :
    ∃ log', Fs.balloc sb (store st log) = (st.freeblock, store (takeBlock st).2 log') := by
  refine ⟨st.freeblock :: bblock sb st.freeblock :: log, ?_⟩
  simp only [Fs.balloc, store, firstFree_shadow hlt, shadow_takeBlock r hlt]
  rfl

section Search

variable {view : Nat → Dinode} {inum bn h : Nat}

/-- An inode whose slots are filled up to `h` gets its next block. -/
theorem Filled.attach {d d' : Disk} {ip' : Dinode} (hf : Filled d (view inum) h)
    (ha : Fs.Attached sb d view inum h b d' ip') (hb : b ≠ 0) : Filled d' ip' (h + 1) := by
  intro l hl
  rw [ha.own]
  by_cases hlh : l = h
  · rw [if_pos hlh]
    constructor
    · omega
    · intro _
      exact hb
  · rw [if_neg hlh, hf l hl]
    omega

variable {din : Dinode}

/-- The next slot is empty. -/
theorem Filled.addr_eq_zero {d : Disk} (hf : Filled d din h) (hh : h ≤ ndirect) :
    din.addr h = 0 := by
  have hslot : h < nslots := by
    unfold nslots
    omega
  by_contra hne
  rw [← @blockRef_of_le d din h hh] at hne
  exact lt_irrefl h ((hf h hslot).mp hne)

theorem dataSlot_lt (hbn : bn < maxfile) : dataSlot bn < nslots := by
  unfold dataSlot nslots
  unfold maxfile at hbn
  split <;> omega

/-- A position that has a block is found by both searches, without a change. -/
theorem search_hit (hbn : bn < maxfile) (hind : din.addr ndirect ≠ 0 → nmeta ≤ din.addr ndirect)
    (hfile : fileBlock (shadow st) din bn ≠ 0) (log : List Nat) :
    iappendBlock bn din st = (fileBlock (shadow st) din bn, din, st) ∧
      bmap sb (store st log) din bn = .ok (fileBlock (shadow st) din bn, din, store st log) := by
  refine ⟨?_, bmap_hit hbn hfile⟩
  by_cases hdir : bn < ndirect
  · rw [fileBlock_direct hdir] at hfile ⊢
    simp only [iappendBlock, if_pos hdir, if_neg hfile]
  · have hgt : ¬ ndirect + 1 + (bn - ndirect) ≤ ndirect := by omega
    have hlt : ndirect + 1 + (bn - ndirect) < nslots := by
      unfold maxfile at hbn
      unfold nslots
      omega
    rw [fileBlock_indirect hdir] at hfile ⊢
    have hne : din.addr ndirect ≠ 0 := by
      intro hzero
      simp [blockRef, hgt, hzero] at hfile
    have href : blockRef (shadow st) din (ndirect + 1 + (bn - ndirect)) =
        entry (st.disk (din.addr ndirect)) (bn - ndirect) := by
      simp only [blockRef, if_neg hgt, if_pos (And.intro hne hlt), Nat.add_sub_cancel_left,
        shadow_data (hind hne)]
    rw [href] at hfile ⊢
    simp only [iappendBlock, if_neg hdir, if_neg hne, rsect, if_neg hfile]

theorem freeblock_lt (hle : st.freeblock ≤ sb.size) : st.freeblock < 2 ^ 32 :=
  lt_of_le_of_lt hle (by decide)

theorem Room.freeblock_ne (r : Room st) : st.freeblock ≠ 0 := by
  have hlow := r.low
  have hpos : 0 < nmeta := by decide
  omega

/-- A block for a direct position is stored in `addrs[bn]`. -/
theorem iappendBlock_direct (hlt : st.freeblock < 2 ^ 32) (hdir : bn < ndirect)
    (hzero : din.addr bn = 0) :
    iappendBlock bn din st = (st.freeblock, din.setAddr bn st.freeblock, (takeBlock st).2) := by
  have hself : (din.setAddr bn st.freeblock).addr bn = st.freeblock :=
    Dinode.addr_setAddr_self (le_of_lt hdir) hlt
  rw [iappendBlock, if_pos hdir, if_pos hzero]
  simp only [takeBlock, hself]

theorem bmap_direct (r : Room st) (hlt : st.freeblock < sb.size) (hdir : bn < ndirect) (hzero : din.addr bn = 0) (log : List Nat) :
    ∃ log', bmap sb (store st log) din bn =
      .ok (st.freeblock, din.setAddr bn st.freeblock, store (takeBlock st).2 log') := by
  obtain ⟨log', hbal⟩ := balloc_store r hlt log
  refine ⟨log', ?_⟩
  simp only [bmap, if_pos hdir, if_pos hzero, hbal, if_neg r.freeblock_ne]

/-- The image after a new block has been stored in an entry of the indirect block. -/
def putEntry (ind j : Nat) (st : State) : State :=
  wsect ind (setEntry (st.disk ind) j st.freeblock) (takeBlock st).2

theorem shadow_wsect {sec : Nat} (h : nmeta ≤ sec) (buf : Block) :
    shadow (wsect sec buf st) = update (shadow st) sec buf := by
  have hlt := bmapstart_lt_nmeta
  exact update_comm (by omega) _ _ _

theorem shadow_putEntry {ind j : Nat} (h : nmeta ≤ ind) :
    shadow (putEntry ind j st) = update (shadow (takeBlock st).2) ind
      (setEntry (shadow (takeBlock st).2 ind) j st.freeblock) := by
  rw [putEntry, shadow_wsect h, shadow_data h]
  rfl

theorem store_putEntry {ind j : Nat} (h : nmeta ≤ ind) (log : List Nat) :
    store (putEntry ind j st) (ind :: log) = (store (takeBlock st).2 log).write ind
      (setEntry ((store (takeBlock st).2 log).disk ind) j st.freeblock) := by
  rw [store, shadow_putEntry h]
  rfl

/-- A block for an indirect position is stored in the indirect block. -/
theorem iappendBlock_entry (hlt : st.freeblock < 2 ^ 32) (hdir : ¬ bn < ndirect)
    (hne : din.addr ndirect ≠ 0) (hzero : entry (st.disk (din.addr ndirect)) (bn - ndirect) = 0) :
    iappendBlock bn din st =
      (st.freeblock, din, putEntry (din.addr ndirect) (bn - ndirect) st) := by
  have hself : entry (setEntry (st.disk (din.addr ndirect)) (bn - ndirect) st.freeblock)
      (bn - ndirect) = st.freeblock := by
    rw [entry_setEntry hlt, if_pos rfl]
  rw [iappendBlock, if_neg hdir, if_neg hne]
  simp only [rsect, if_pos hzero, takeBlock, hself]
  rfl

theorem bmap_entry (r : Room st) (hlt : st.freeblock < sb.size) (hdir : ¬ bn < ndirect)
    (hbn : bn < maxfile) (hind : nmeta ≤ din.addr ndirect)
    (hzero : entry (st.disk (din.addr ndirect)) (bn - ndirect) = 0) (log : List Nat) :
    ∃ log', bmap sb (store st log) din bn =
      .ok (st.freeblock, din, store (putEntry (din.addr ndirect) (bn - ndirect) st) log') := by
  have hj : bn - ndirect < nindirect := by
    unfold maxfile at hbn
    omega
  have hne : din.addr ndirect ≠ 0 := by
    have hpos : 0 < nmeta := by decide
    omega
  obtain ⟨log', hbal⟩ := balloc_store r hlt log
  refine ⟨din.addr ndirect :: log', ?_⟩
  have hdisk : (store st log).disk (din.addr ndirect) = st.disk (din.addr ndirect) :=
    shadow_data hind
  simp only [bmap, if_neg hdir, if_pos hj, if_neg hne, bmapEntry, hdisk, if_pos hzero, hbal,
    if_pos r.freeblock_ne, store_putEntry hind]

theorem addr_setAddr_indirect (hle : st.freeblock ≤ sb.size) (din : Dinode) :
    (din.setAddr ndirect st.freeblock).addr ndirect = st.freeblock :=
  Dinode.addr_setAddr_self (le_refl _) (freeblock_lt hle)

/-- Without an indirect block, both searches first hand out one. -/
theorem iappendBlock_indirect (r : Room st) (hle : st.freeblock ≤ sb.size) (hdir : ¬ bn < ndirect) (hzero : din.addr ndirect = 0) :
    iappendBlock bn din st =
      iappendBlock bn (din.setAddr ndirect st.freeblock) (takeBlock st).2 := by
  have hne : (din.setAddr ndirect st.freeblock).addr ndirect ≠ 0 := by
    rw [addr_setAddr_indirect hle]
    exact r.freeblock_ne
  rw [iappendBlock, iappendBlock, if_neg hdir, if_neg hdir, if_pos hzero, if_neg hne]
  rfl

theorem bmap_indirect (r : Room st) (hlt : st.freeblock < sb.size) (hdir : ¬ bn < ndirect)
    (hbn : bn < maxfile) (hzero : din.addr ndirect = 0) (log : List Nat) :
    ∃ log', bmap sb (store st log) din bn =
      bmap sb (store (takeBlock st).2 log') (din.setAddr ndirect st.freeblock) bn := by
  have hj : bn - ndirect < nindirect := by
    unfold maxfile at hbn
    omega
  have hself := addr_setAddr_indirect (le_of_lt hlt) din
  obtain ⟨log', hbal⟩ := balloc_store r hlt log
  refine ⟨log', ?_⟩
  simp only [bmap, if_neg hdir, if_pos hj, if_pos hzero, hbal, if_neg r.freeblock_ne, hself]

/-- What a search has done to the image: it has filled the slots of the inode from `h` to `h'`,
one block for each. -/
structure Grown (st : State) (h : Nat) (din' : Dinode) (st' : State) (h' : Nat) : Prop where
  room : Room st'
  filled : Filled (shadow st') din' h'
  count : st'.freeblock + h = st.freeblock + h'
  freeinode : st'.freeinode = st.freeinode
  low : ∀ b, b < nmeta → st'.disk b = st.disk b

theorem Grown.trans {st' st'' : State} {din' din'' : Dinode} {h' h'' : Nat}
    (g : Grown st h din' st' h') (g' : Grown st' h' din'' st'' h'') :
    Grown st h din'' st'' h'' where
  room := g'.room
  filled := g'.filled
  count := by
    have h₁ := g.count
    have h₂ := g'.count
    omega
  freeinode := g'.freeinode.trans g.freeinode
  low b hb := (g'.low b hb).trans (g.low b hb)

/-- The blocks that inodes refer to have been handed out. -/
theorem slotRef_range (hi : AllocInv sb (shadow st) view) {x : Nat × Nat}
    (hx : slotRef sb (shadow st) view x ≠ 0) :
    nmeta ≤ slotRef sb (shadow st) view x ∧ slotRef sb (shadow st) view x < st.freeblock := by
  have harea := hi.accounts.area x hx
  have hused := hi.accounts.used_ref hx
  have hsize := size_sb_lt_bpb
  rw [blockUsed_shadow (by omega), decide_eq_true_eq] at hused
  exact ⟨harea.1, hused⟩

section

variable (hi : AllocInv sb (shadow st) view) (hlive : Live sb view inum)

include hi hlive

theorem addr_indirect_range (hne : (view inum).addr ndirect ≠ 0) :
    nmeta ≤ (view inum).addr ndirect ∧ (view inum).addr ndirect < st.freeblock := by
  have href : slotRef sb (shadow st) view (inum, ndirect) = (view inum).addr ndirect := by
    rw [slotRef_of_live hlive, blockRef_of_le (le_refl _)]
  rw [← href] at hne ⊢
  exact slotRef_range hi hne

theorem grown_addr (r : Room st)
    (hlt : st.freeblock < sb.size) (hf : Filled (shadow st) (view inum) h) (hh : h ≤ ndirect) :
    Grown st h ((view inum).setAddr h st.freeblock) (takeBlock st).2 (h + 1) := by
  have ha := Fs.Attached.setAddr hi wellFormed_sb (takeBlock_allocates r hlt) hlive hh
    (hf.addr_eq_zero hh)
  exact ⟨r.takeBlock, hf.attach ha r.freeblock_ne, by simp only [takeBlock]; omega, rfl,
    fun _ _ => rfl⟩

omit hi hlive in
/-- The next slot behind the indirect block is empty. -/
theorem Filled.entry_eq_zero {d : Disk} (hf : Filled d din (bn + 1))
    (hdir : ¬ bn < ndirect) (hbn : bn < maxfile) :
    din.addr ndirect ≠ 0 ∧ entry (d (din.addr ndirect)) (bn - ndirect) = 0 := by
  have hslot : bn + 1 < nslots := by
    unfold nslots
    unfold maxfile at hbn
    omega
  have hne : din.addr ndirect ≠ 0 := by
    rw [← @blockRef_of_le d din ndirect (le_refl _)]
    exact (hf ndirect (by omega)).mpr (by omega)
  refine ⟨hne, ?_⟩
  by_contra hentry
  have hgt : ¬ bn + 1 ≤ ndirect := by omega
  have hsub : bn + 1 - (ndirect + 1) = bn - ndirect := by omega
  have href : blockRef d din (bn + 1) ≠ 0 := by
    simp only [blockRef, if_neg hgt, if_pos (And.intro hne hslot), hsub]
    exact hentry
  have := (hf (bn + 1) hslot).mp href
  omega

/-- A missing block behind the indirect block is handed out and entered there. -/
theorem search_entry_step
    (r : Room st) (hlt : st.freeblock < sb.size) (hf : Filled (shadow st) (view inum) (bn + 1))
    (hdir : ¬ bn < ndirect) (hbn : bn < maxfile) (log : List Nat) :
    ∃ x st' log', iappendBlock bn (view inum) st = (x, view inum, st') ∧
      bmap sb (store st log) (view inum) bn = .ok (x, view inum, store st' log') ∧
      x ≠ 0 ∧ Grown st (bn + 1) (view inum) st' (bn + 2) := by
  have hj : bn - ndirect < nindirect := by
    unfold maxfile at hbn
    omega
  obtain ⟨hne, hzero⟩ := hf.entry_eq_zero hdir hbn
  obtain ⟨hlow, hhigh⟩ := addr_indirect_range hi hlive hne
  have hindex : ndirect + 1 + (bn - ndirect) = bn + 1 := by omega
  have hzero' := hzero
  rw [shadow_data hlow] at hzero'
  have happend := iappendBlock_entry (freeblock_lt (le_of_lt hlt)) hdir hne hzero'
  obtain ⟨log', hbmap⟩ := bmap_entry r hlt hdir hbn hlow hzero' log
  have ha := Fs.Attached.setEntry hi wellFormed_sb (takeBlock_allocates r hlt) hlive hj hne hzero
  rw [hindex, ← shadow_putEntry hlow] at ha
  refine ⟨_, _, log', happend, hbmap, r.freeblock_ne, ?_, hf.attach ha r.freeblock_ne, ?_, rfl, ?_⟩
  · constructor
    · exact le_succ_of_le r.low
    · intro b hb
      have hb' : st.freeblock + 1 ≤ b := hb
      have hne' : b ≠ (view inum).addr ndirect := by omega
      simp only [putEntry, wsect, takeBlock, update_of_ne hne']
      exact r.zero b (by omega)
  · simp only [putEntry, wsect, takeBlock]
    omega
  · intro b hb
    have hne' : b ≠ (view inum).addr ndirect := by omega
    simp only [putEntry, wsect, takeBlock, update_of_ne hne']

/-- The search of `iappend` is the kernel's `bmap` on the shadow. -/
theorem search_step (r : Room st) (hf : Filled (shadow st) (view inum) h) (hbn : bn < maxfile)
    (hreach : bn ≤ h ∧ (ndirect < bn → bn < h))
    (hspace : st.freeblock + max h (dataSlot bn + 1) ≤ sb.size + h) (log : List Nat) :
    ∃ x din' st' log', iappendBlock bn (view inum) st = (x, din', st') ∧
      bmap sb (store st log) (view inum) bn = .ok (x, din', store st' log') ∧
      x ≠ 0 ∧ Grown st h din' st' (max h (dataSlot bn + 1)) := by
  by_cases hslot : dataSlot bn < h
  · have hfile : fileBlock (shadow st) (view inum) bn ≠ 0 := (hf _ (dataSlot_lt hbn)).mpr hslot
    obtain ⟨happend, hbmap⟩ := search_hit hbn
      (fun hne => (addr_indirect_range hi hlive hne).1) hfile log
    rw [Nat.max_eq_left (by omega)]
    exact ⟨_, _, _, _, happend, hbmap, hfile, r, hf, rfl, rfl, fun _ _ => rfl⟩
  by_cases hdir : bn < ndirect
  · have hdata : dataSlot bn = bn := if_pos hdir
    obtain rfl : h = bn := by omega
    rw [hdata, Nat.max_eq_right (by omega)] at hspace ⊢
    have hlt : st.freeblock < sb.size := by omega
    have hgrown := grown_addr hi hlive r hlt hf (by omega)
    have hzero := hf.addr_eq_zero (le_of_lt hdir)
    have happend := iappendBlock_direct (freeblock_lt (le_of_lt hlt)) hdir hzero
    obtain ⟨log', hbmap⟩ := bmap_direct r hlt hdir hzero log
    exact ⟨_, _, _, log', happend, hbmap, r.freeblock_ne, hgrown⟩
  · have hdata : dataSlot bn = bn + 1 := if_neg hdir
    rw [hdata, Nat.max_eq_right (by omega)] at hspace ⊢
    by_cases hfull : h = bn + 1
    · subst hfull
      obtain ⟨x, st', log', happend, hbmap, hx, hg⟩ :=
        search_entry_step hi hlive r (by omega) hf hdir hbn log
      exact ⟨x, _, st', log', happend, hbmap, hx, hg⟩
    · -- The first position behind the direct ones: the indirect block is handed out before it.
      obtain rfl : bn = ndirect := by omega
      obtain rfl : h = ndirect := by omega
      have hlt : st.freeblock < sb.size := by omega
      have hg := grown_addr hi hlive r hlt hf (le_refl _)
      have hzero := hf.addr_eq_zero (le_refl _)
      have happend := iappendBlock_indirect r (le_of_lt hlt) hdir hzero
      obtain ⟨log₁, hbmap⟩ := bmap_indirect r hlt hdir hbn hzero log
      obtain ⟨hinv, -⟩ := alloc_addr hi wellFormed_sb (takeBlock_allocates r hlt) hlive
        (le_refl _) hzero
      have hlive₁ : Live sb (update view inum ((view inum).setAddr ndirect st.freeblock)) inum :=
        (live_update_iff (Dinode.setAddr_type _ _ _) inum).mpr hlive
      have hself := update_self inum ((view inum).setAddr ndirect st.freeblock) view
      obtain ⟨x, st', log', happend', hbmap', hx, hg'⟩ :=
        search_entry_step hinv hlive₁ r.takeBlock
          (show st.freeblock + 1 < sb.size by omega) (by rw [hself]; exact hg.filled) hdir hbn log₁
      rw [hself] at happend' hbmap' hg'
      exact ⟨x, _, st', log', happend.trans happend', hbmap.trans hbmap', hx, hg.trans hg'⟩

/-- Without room for the blocks it needs, the search returns one outside the image. -/
theorem search_full
    (r : Room st) (hle : st.freeblock ≤ sb.size) (hf : Filled (shadow st) (view inum) h)
    (hbn : bn < maxfile) (hreach : bn ≤ h ∧ (ndirect < bn → bn < h))
    (hspace : sb.size + h < st.freeblock + max h (dataSlot bn + 1)) :
    ∃ x din' st', iappendBlock bn (view inum) st = (x, din', st') ∧ fssize ≤ x := by
  have hlt := freeblock_lt hle
  have hfs : sb.size = fssize := rfl
  by_cases hdir : bn < ndirect
  · have hdata : dataSlot bn = bn := if_pos hdir
    obtain rfl : h = bn := by omega
    exact ⟨_, _, _, iappendBlock_direct hlt hdir (hf.addr_eq_zero (le_of_lt hdir)), by omega⟩
  · have hdata : dataSlot bn = bn + 1 := if_neg hdir
    by_cases hfull : h = bn + 1
    · subst hfull
      obtain ⟨hne, hzero⟩ := hf.entry_eq_zero hdir hbn
      rw [shadow_data (addr_indirect_range hi hlive hne).1] at hzero
      exact ⟨_, _, _, iappendBlock_entry hlt hdir hne hzero, by omega⟩
    · obtain rfl : bn = ndirect := by omega
      obtain rfl : h = ndirect := by omega
      have hself := addr_setAddr_indirect hle (view inum)
      have hnext : (takeBlock st).2.freeblock < 2 ^ 32 := lt_of_le_of_lt (succ_le_succ hle)
        (by decide)
      have hempty : entry (st.disk st.freeblock) (ndirect - ndirect) = 0 := by
        rw [r.zero _ (le_refl _), entry_zero]
      rw [iappendBlock_indirect r hle hdir (hf.addr_eq_zero (le_refl _))]
      refine ⟨_, _, _, iappendBlock_entry hnext hdir (by rw [hself]; exact r.freeblock_ne)
        (by rw [hself]; exact hempty), ?_⟩
      show fssize ≤ st.freeblock + 1
      omega

end

end Search

end FogOS.Mkfs
