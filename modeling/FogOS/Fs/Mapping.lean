import FogOS.Fs.Inode

/-!
# `bmap` keeps the allocation invariant

Every allocation in `bmap` ends with the new block attached to one empty slot, or
with nothing allocated. The cases differ in where the slot is stored.
-/

namespace FogOS.Fs

open Function Library Bytes

variable {sb : Superblock} {d d' d₁ : Disk} {view : Nat → Dinode} {inum b k : Nat}
  {ip' : Dinode}

theorem live_update_iff (htype : ip'.type = (view inum).type) (i : Nat) :
    Live sb (update view inum ip') i ↔ Live sb view i := by
  unfold Live
  by_cases h : i = inum
  · subst h
    rw [update_self, htype]
  · rw [update_of_ne h]

/-- The new block is in slot `k` of the inode and no other slot has changed. -/
structure Attached (sb : Superblock) (d : Disk) (view : Nat → Dinode) (inum k b : Nat)
    (d' : Disk) (ip' : Dinode) : Prop where
  type_eq : ip'.type = (view inum).type
  size_eq : ip'.size = (view inum).size
  empty : blockRef d (view inum) k = 0
  own : ∀ l, blockRef d' ip' l = if l = k then b else blockRef d (view inum) l
  others : ∀ i, i ≠ inum → Live sb view i → ∀ l, blockRef d' (view i) l = blockRef d (view i) l

theorem Attached.slotRef_eq (h : Attached sb d view inum k b d' ip') (hlive : Live sb view inum)
    (x : Nat × Nat) :
    slotRef sb d' (update view inum ip') x = update (slotRef sb d view) (inum, k) b x := by
  obtain ⟨i, l⟩ := x
  by_cases hi : i = inum
  · subst hi
    have hlive' := (live_update_iff h.type_eq i).mpr hlive
    rw [slotRef_of_live hlive', update_self, h.own]
    by_cases hl : l = k
    · subst hl
      rw [if_pos rfl, update_self]
    · rw [if_neg hl, update_of_ne (by simp [hl]), slotRef_of_live hlive]
  · rw [update_of_ne (by simp [hi])]
    simp only [slotRef, live_update_iff h.type_eq, update_of_ne hi]
    by_cases hl : Live sb view i
    · rw [if_pos hl, if_pos hl, h.others i hi hl]
    · rw [if_neg hl, if_neg hl]

theorem Attached.fileBlock_ne (h : Attached sb d view inum k b d' ip') (hb : b ≠ 0) {bn : Nat}
    (hbn : fileBlock d (view inum) bn ≠ 0) : fileBlock d' ip' bn ≠ 0 := by
  unfold fileBlock at hbn ⊢
  rw [h.own]
  split
  · exact hb
  · exact hbn

/-- Attaching an allocated block to an empty slot keeps the invariant. -/
theorem AllocInv.attach (hi : AllocInv sb d view) (ha : Allocates sb d d₁ b)
    (hlive : Live sb view inum) (h : Attached sb d view inum k b d' ip')
    (hbits : ∀ c, c < sb.size → blockUsed sb d' c = blockUsed sb d₁ c) :
    AllocInv sb d' (update view inum ip') := by
  have hb : dataStart sb ≤ b := ha.dataStart_le hi
  have hpos := @dataStart_pos sb
  have hfree : ¬ blockUsed sb d b = true := by
    rw [ha.free]
    decide
  have hused : ∀ c, c < sb.size → blockUsed sb d' c = (decide (c = b) || blockUsed sb d c) := by
    intro c hc
    rw [hbits c hc, ha.blockUsed_eq hi hc]
  constructor
  · have hempty : slotRef sb d view (inum, k) = 0 := by
      rw [slotRef_of_live hlive, h.empty]
    apply (hi.accounts.attach hpos hb ha.lt_size hfree hempty).congr (h.slotRef_eq hlive)
    intro c _ hc
    rw [hused c hc]
    simp
  · intro c hc hsize
    rw [hused c hsize, hi.metadata c hc hsize, Bool.or_true]
  · intro i hl
    rw [live_update_iff h.type_eq] at hl
    by_cases hin : i = inum
    · subst hin
      rw [update_self, h.size_eq]
      exact hi.size_le i hl
    · rw [update_of_ne hin]
      exact hi.size_le i hl
  · intro i hl bn hbn
    rw [live_update_iff h.type_eq] at hl
    by_cases hin : i = inum
    · subst hin
      rw [update_self] at hbn ⊢
      rw [h.size_eq] at hbn
      exact h.fileBlock_ne (by omega) (hi.dense i hl bn hbn)
    · rw [update_of_ne hin] at hbn ⊢
      unfold fileBlock
      rw [h.others i hin hl]
      exact hi.dense i hl bn hbn

theorem Attached.keeps (h : Attached sb d view inum k b d' ip') (hlive : Live sb view inum)
    (hdata : ∀ i bn, slotRef sb d view (i, dataSlot bn) ≠ 0 →
      d' (slotRef sb d view (i, dataSlot bn)) = d (slotRef sb d view (i, dataSlot bn)))
    (hdinodes : ∀ i, i < sb.ninodes → dinode sb d' i = dinode sb d i) :
    Keeps sb d view d' (update view inum ip') := by
  refine ⟨?_, hdata, hdinodes⟩
  intro x hx
  rw [h.slotRef_eq hlive, update_of_ne]
  rintro rfl
  rw [slotRef_of_live hlive, h.empty] at hx
  exact hx rfl

section Direct

variable (hi : AllocInv sb d view) (hsb : WellFormed sb) (ha : Allocates sb d d₁ b)
  (hlive : Live sb view inum) (hk : k ≤ ndirect) (hzero : (view inum).addr k = 0)

include hi hsb ha hlive hk hzero

/-- A new block is stored in `addrs[k]`. -/
theorem Attached.setAddr : Attached sb d view inum k b d₁ ((view inum).setAddr k b) := by
  have hb : b < 2 ^ 32 := lt_trans ha.lt_size hsb.size_lt
  refine ⟨rfl, rfl, ?_, ?_, fun i _ hl l => ha.blockRef_eq hi hl l⟩
  · rw [blockRef_of_le hk, hzero]
  · intro l
    rw [← ha.blockRef_eq hi hlive l]
    by_cases hkn : k = ndirect
    · subst hkn
      exact blockRef_setAddr_indirect hzero hb ha.apply_self l
    · exact blockRef_setAddr_direct (by omega) hb l

theorem alloc_addr :
    AllocInv sb d₁ (update view inum ((view inum).setAddr k b)) ∧
      Keeps sb d view d₁ (update view inum ((view inum).setAddr k b)) := by
  have h := Attached.setAddr hi hsb ha hlive hk hzero
  constructor
  · exact hi.attach ha hlive h fun _ _ => rfl
  · exact h.keeps hlive (fun i bn hx => ha.apply_slotRef hi hx)
      (fun i hlt => ha.dinode_eq hi hsb hlt)

end Direct

section Entries

variable (hi : AllocInv sb d view) (hsb : WellFormed sb) (ha : Allocates sb d d₁ b)
  (hlive : Live sb view inum)

include hi hsb ha hlive

/-- The disk after a new block has been stored in entry `j` of the indirect block. -/
theorem Attached.setEntry {j : Nat} (hj : j < nindirect) (hind : (view inum).addr ndirect ≠ 0)
    (hzero : entry (d ((view inum).addr ndirect)) j = 0) :
    Attached sb d view inum (ndirect + 1 + j) b (update d₁ ((view inum).addr ndirect)
        (setEntry (d₁ ((view inum).addr ndirect)) j b)) (view inum) := by
  have hb : b < 2 ^ 32 := lt_trans ha.lt_size hsb.size_lt
  have href : ∀ i, Live sb view i → slotRef sb d view (i, ndirect) = (view i).addr ndirect := by
    intro i hl
    rw [slotRef_of_live hl, blockRef_of_le (le_refl _)]
  refine ⟨rfl, rfl, ?_, ?_, ?_⟩
  · have hgt : ¬ ndirect + 1 + j ≤ ndirect := by omega
    simp only [blockRef, if_neg hgt, Nat.add_sub_cancel_left, hzero, ite_self]
  · intro l
    rw [blockRef_setEntry hind hj hb, ha.blockRef_eq hi hlive]
  · intro i hne hl l
    rw [← ha.blockRef_eq hi hl l]
    apply blockRef_congr
    intro hind'
    apply update_of_ne
    intro heq
    have hinj := hi.accounts.inj (i, ndirect) (inum, ndirect)
      (by rw [href i hl]; exact hind') (by rw [href i hl, href inum hlive, heq])
    exact hne (congrArg Prod.fst hinj)

theorem alloc_entry {j : Nat} (hj : j < nindirect)
    (hind : (view inum).addr ndirect ≠ 0)
    (hzero : entry (d ((view inum).addr ndirect)) j = 0)
    (hd' : d' = update d₁ ((view inum).addr ndirect)
        (setEntry (d₁ ((view inum).addr ndirect)) j b)) :
    AllocInv sb d' view ∧ Keeps sb d view d' view ∧
      blockRef d' (view inum) (ndirect + 1 + j) = b := by
  have h := Attached.setEntry hi hsb ha hlive hj hind hzero
  rw [← hd'] at h
  have href : slotRef sb d view (inum, ndirect) = (view inum).addr ndirect := by
    rw [slotRef_of_live hlive, blockRef_of_le (le_refl _)]
  have harea := (hi.accounts.area (inum, ndirect) (by rw [href]; exact hind)).1
  have hself : update view inum (view inum) = view := update_eq_self inum view
  have hbits : ∀ c, c < sb.size → blockUsed sb d' c = blockUsed sb d₁ c := by
    intro c hc
    have hlt := bblock_lt_dataStart hc
    apply blockUsed_congr
    rw [hd', update_of_ne (by omega)]
  have hinv := hi.attach ha hlive h hbits
  rw [hself] at hinv
  refine ⟨hinv, ?_, ?_⟩
  · rw [← hself]
    nth_rewrite 1 [hself]
    apply h.keeps hlive
    · intro i bn hx
      rw [hd', update_of_ne, ha.apply_slotRef hi hx]
      intro heq
      have hinj := hi.accounts.inj _ (inum, ndirect) hx (by rw [href, heq])
      exact dataSlot_ne_ndirect bn (congrArg Prod.snd hinj)
    · intro i hlt
      have hib := hsb.iblock_lt hlt
      have hds := @bmapstart_lt_dataStart sb
      rw [← ha.dinode_eq hi hsb hlt]
      apply dinode_congr
      rw [hd', update_of_ne (by omega)]
  · rw [h.own, if_pos rfl]

end Entries

section Bmap

variable {s : Store} {j bn : Nat}

/-- `bmapEntry` returns the entry of the indirect block, after filling it if it was zero and
a block could be allocated. -/
theorem bmapEntry_spec (hi : AllocInv sb s.disk view) (hsb : WellFormed sb)
    (hlive : Live sb view inum) (hj : j < nindirect) (hind : (view inum).addr ndirect ≠ 0) :
    ∃ addr s', bmapEntry sb s ((view inum).addr ndirect) j = (addr, s') ∧
      AllocInv sb s'.disk view ∧ Keeps sb s.disk view s'.disk view ∧
      (addr ≠ 0 → blockRef s'.disk (view inum) (ndirect + 1 + j) = addr) ∧
      (blockRef s.disk (view inum) (ndirect + 1 + j) ≠ 0 →
        addr = blockRef s.disk (view inum) (ndirect + 1 + j) ∧ s' = s) := by
  have href : blockRef s.disk (view inum) (ndirect + 1 + j) =
      entry (s.disk ((view inum).addr ndirect)) j := by
    have hgt : ¬ ndirect + 1 + j ≤ ndirect := by omega
    have hlt : ndirect + 1 + j < nslots := by
      unfold nslots
      omega
    simp only [blockRef, if_neg hgt, if_pos (And.intro hind hlt), Nat.add_sub_cancel_left]
  rw [href]
  by_cases hzero : entry (s.disk ((view inum).addr ndirect)) j = 0
  · obtain ⟨b, s₁, hbal, ⟨rfl, hdisk⟩ | ⟨hb, ha⟩⟩ := balloc_spec hi
    · refine ⟨0, s₁, by simp [bmapEntry, hzero, hbal], ?_, ?_, ?_, ?_⟩
      · rw [hdisk]
        exact hi
      · rw [hdisk]
        exact Keeps.refl _ _ _
      · intro h
        exact absurd rfl h
      · intro h
        exact absurd hzero h
    · obtain ⟨h₁, h₂, h₃⟩ := alloc_entry hi hsb ha hlive hj hind hzero rfl
      exact ⟨b, s₁.write ((view inum).addr ndirect)
          (setEntry (s₁.disk ((view inum).addr ndirect)) j b),
        by simp [bmapEntry, hzero, hbal, hb], h₁, h₂, fun _ => h₃,
        fun h => absurd hzero h⟩
  · refine ⟨_, s, by simp only [bmapEntry, if_neg hzero]; rfl, hi, Keeps.refl _ _ _, ?_, ?_⟩
    · intro _
      exact href
    · intro _
      exact ⟨rfl, rfl⟩

/-- What `bmap` did: the returned block is the one at `bn`, everything in use is kept, and a
position that had a block is answered without a change. -/
structure Mapped (sb : Superblock) (s : Store) (view : Nat → Dinode) (inum bn addr : Nat)
    (ip' : Dinode) (s' : Store) : Prop where
  inv : AllocInv sb s'.disk (update view inum ip')
  keeps : Keeps sb s.disk view s'.disk (update view inum ip')
  fields : ip' = { view inum with addrs := ip'.addrs }
  found : addr ≠ 0 → fileBlock s'.disk ip' bn = addr
  hit : fileBlock s.disk (view inum) bn ≠ 0 →
    addr = fileBlock s.disk (view inum) bn ∧ ip' = view inum ∧ s' = s

theorem Mapped.unchanged {s' : Store} {addr : Nat} (hi : AllocInv sb s.disk view)
    (hdisk : s'.disk = s.disk) (hfound : addr ≠ 0 → fileBlock s.disk (view inum) bn = addr)
    (hhit : fileBlock s.disk (view inum) bn ≠ 0 → addr = fileBlock s.disk (view inum) bn ∧ s' = s) :
    Mapped sb s view inum bn addr (view inum) s' := by
  have hself : update view inum (view inum) = view := update_eq_self inum view
  refine ⟨?_, ?_, rfl, ?_, fun h => ⟨(hhit h).1, rfl, (hhit h).2⟩⟩
  · rw [hself, hdisk]
    exact hi
  · rw [hself, hdisk]
    exact Keeps.refl _ _ _
  · rw [hdisk]
    exact hfound

theorem fileBlock_direct {ip : Dinode} (h : bn < ndirect) : fileBlock d ip bn = ip.addr bn := by
  unfold fileBlock dataSlot
  rw [if_pos h, blockRef_of_le (le_of_lt h)]

theorem fileBlock_indirect {ip : Dinode} (h : ¬ bn < ndirect) :
    fileBlock d ip bn = blockRef d ip (ndirect + 1 + (bn - ndirect)) := by
  unfold fileBlock dataSlot
  rw [if_neg h]
  congr 1
  omega

/-- A position that has a block is answered without a change. -/
theorem bmap_hit {ip : Dinode} (hbn : bn < maxfile) (h : fileBlock s.disk ip bn ≠ 0) :
    bmap sb s ip bn = .ok (fileBlock s.disk ip bn, ip, s) := by
  by_cases hdir : bn < ndirect
  · rw [fileBlock_direct hdir] at h ⊢
    simp only [bmap, if_pos hdir, if_neg h]
  · have hj : bn - ndirect < nindirect := by
      unfold maxfile at hbn
      omega
    have hgt : ¬ ndirect + 1 + (bn - ndirect) ≤ ndirect := by omega
    have hlt : ndirect + 1 + (bn - ndirect) < nslots := by
      unfold nslots
      omega
    rw [fileBlock_indirect hdir] at h ⊢
    have hne : ip.addr ndirect ≠ 0 := by
      intro hzero
      simp [blockRef, hgt, hzero] at h
    have href : blockRef s.disk ip (ndirect + 1 + (bn - ndirect)) =
        entry (s.disk (ip.addr ndirect)) (bn - ndirect) := by
      simp only [blockRef, if_neg hgt, if_pos (And.intro hne hlt), Nat.add_sub_cancel_left]
    rw [href] at h ⊢
    simp only [bmap, if_neg hdir, if_pos hj, if_neg hne, bmapEntry, if_neg h]

section

variable (hi : AllocInv sb s.disk view) (hsb : WellFormed sb) (hlive : Live sb view inum)

include hi hsb hlive

theorem bmap_direct (hbn : bn < ndirect) :
    ∃ addr ip' s', bmap sb s (view inum) bn = .ok (addr, ip', s') ∧
      Mapped sb s view inum bn addr ip' s' := by
  have hfile : fileBlock s.disk (view inum) bn = (view inum).addr bn := fileBlock_direct hbn
  by_cases hzero : (view inum).addr bn = 0
  · have hmiss : ¬ fileBlock s.disk (view inum) bn ≠ 0 := by
      rw [hfile]
      exact not_not.mpr hzero
    obtain ⟨b, s₁, hbal, ⟨rfl, hdisk⟩ | ⟨hb, ha⟩⟩ := balloc_spec hi
    · refine ⟨0, view inum, s₁, by simp [bmap, hbn, hzero, hbal], ?_⟩
      exact Mapped.unchanged hi hdisk (fun h => absurd rfl h) (fun h => absurd h hmiss)
    · obtain ⟨hinv, hkeeps⟩ := alloc_addr hi hsb ha hlive (le_of_lt hbn) hzero
      refine ⟨b, (view inum).setAddr bn b, s₁, by simp [bmap, hbn, hzero, hbal, hb], ?_⟩
      refine ⟨hinv, hkeeps, rfl, ?_, fun h => absurd h hmiss⟩
      intro _
      rw [fileBlock_direct hbn]
      exact Dinode.addr_setAddr_self (le_of_lt hbn) (lt_trans ha.lt_size hsb.size_lt)
  · refine ⟨(view inum).addr bn, view inum, s, by simp [bmap, hbn, hzero], ?_⟩
    exact Mapped.unchanged hi rfl (fun _ => hfile) (fun _ => ⟨hfile.symm, rfl⟩)

theorem bmap_indirect (hbn : ¬ bn < ndirect) (hmax : bn < maxfile) :
    ∃ addr ip' s', bmap sb s (view inum) bn = .ok (addr, ip', s') ∧
      Mapped sb s view inum bn addr ip' s' := by
  have hj : bn - ndirect < nindirect := by
    unfold maxfile at hmax
    omega
  have hfile : fileBlock s.disk (view inum) bn =
      blockRef s.disk (view inum) (ndirect + 1 + (bn - ndirect)) := fileBlock_indirect hbn
  by_cases hind : (view inum).addr ndirect = 0
  · -- The indirect block itself is missing, so no position above `NDIRECT` has a block.
    have hmiss : ¬ fileBlock s.disk (view inum) bn ≠ 0 := by
      rw [hfile]
      have hgt : ¬ ndirect + 1 + (bn - ndirect) ≤ ndirect := by omega
      simp [blockRef, hind, hgt]
    obtain ⟨b, s₁, hbal, ⟨rfl, hdisk⟩ | ⟨hb, ha⟩⟩ := balloc_spec hi
    · refine ⟨0, view inum, s₁, by simp [bmap, hbn, hj, hind, hbal], ?_⟩
      exact Mapped.unchanged hi hdisk (fun h => absurd rfl h) (fun h => absurd h hmiss)
    · obtain ⟨hinv, hkeeps⟩ := alloc_addr hi hsb ha hlive (le_refl _) hind
      have hlive₁ := (@live_update_iff sb view inum ((view inum).setAddr ndirect b) rfl inum).mpr
        hlive
      have hself : ((view inum).setAddr ndirect b).addr ndirect = b :=
        Dinode.addr_setAddr_self (le_refl _) (lt_trans ha.lt_size hsb.size_lt)
      obtain ⟨addr, s₂, hentry, hinv₂, hkeeps₂, hfound, -⟩ :=
        bmapEntry_spec hinv hsb hlive₁ hj (by rw [update_self, hself]; exact hb)
      rw [update_self, hself] at hentry
      rw [update_self] at hfound
      refine ⟨addr, (view inum).setAddr ndirect b, s₂,
        by simp [bmap, hbn, hj, hind, hbal, hb, hentry], ?_⟩
      refine ⟨hinv₂, hkeeps.trans hkeeps₂, rfl, ?_, fun h => absurd h hmiss⟩
      intro haddr
      rw [fileBlock_indirect hbn]
      exact hfound haddr
  · obtain ⟨addr, s', hentry, hinv, hkeeps, hfound, hhit⟩ := bmapEntry_spec hi hsb hlive hj hind
    have hself : update view inum (view inum) = view :=
      update_eq_self inum view
    refine ⟨addr, view inum, s', by simp [bmap, hbn, hj, hind, hentry], ?_⟩
    rw [← fileBlock_indirect hbn] at hfound
    rw [← hfile] at hhit
    refine ⟨by rwa [hself], by rwa [hself], rfl, hfound, ?_⟩
    intro h
    exact ⟨(hhit h).1, rfl, (hhit h).2⟩

/-- `bmap` never fails below `MAXFILE` and keeps the allocation invariant. -/
theorem bmap_spec (hmax : bn < maxfile) :
    ∃ addr ip' s', bmap sb s (view inum) bn = .ok (addr, ip', s') ∧
      Mapped sb s view inum bn addr ip' s' := by
  by_cases hbn : bn < ndirect
  · exact bmap_direct hi hsb hlive hbn
  · exact bmap_indirect hi hsb hlive hbn hmax

end

end Bmap

end FogOS.Fs
