import FogOS.Fs.Table

/-!
# The block allocation invariant over every run

An entry of the inode table that is in use and valid repeats the inode on disk,
and no two entries in use have the same number; so an operation on one entry
changes one inode of the image.
-/

namespace FogOS.Fs

open Function Library Bytes

section Views

variable {sb : Superblock} {d : Disk} {view view' : Nat → Dinode} {inum : Nat} {ip' : Dinode}

/-- Only the inodes of the image matter to the invariant. -/
theorem AllocInv.congr_view (hi : AllocInv sb d view)
    (h : ∀ i, i < sb.ninodes → view' i = view i) : AllocInv sb d view' := by
  have hlive : ∀ i, Live sb view' i ↔ Live sb view i := by
    intro i
    constructor
    · rintro ⟨hlt, ht⟩
      exact ⟨hlt, by rwa [← h i hlt]⟩
    · rintro ⟨hlt, ht⟩
      exact ⟨hlt, by rwa [h i hlt]⟩
  constructor
  · apply hi.accounts.congr _ fun _ _ _ => Iff.rfl
    intro x
    simp only [slotRef, hlive]
    split
    · rename_i hl
      rw [h x.1 hl.1]
    · rfl
  · exact hi.metadata
  · intro i hl
    rw [hlive] at hl
    rw [h i hl.1]
    exact hi.size_le i hl
  · intro i hl
    rw [hlive] at hl
    rw [h i hl.1]
    exact hi.dense i hl

/-- An inode may be replaced by one with the same blocks and size. -/
theorem AllocInv.set_fields (hi : AllocInv sb d view) (htype : ip'.type = (view inum).type)
    (hsize : ip'.size = (view inum).size) (haddrs : ip'.addrs = (view inum).addrs) :
    AllocInv sb d (update view inum ip') := by
  have hlive := fun i => @live_update_iff sb view inum ip' htype i
  have haddr : ∀ k, ip'.addr k = (view inum).addr k := by
    intro k
    unfold Dinode.addr
    rw [haddrs]
  have href : ∀ i k, blockRef d (update view inum ip' i) k = blockRef d (view i) k := by
    intro i k
    by_cases hin : i = inum
    · subst hin
      rw [update_self]
      simp only [blockRef, haddr]
    · rw [update_of_ne hin]
  have hsame : ∀ i, (update view inum ip' i).size = (view i).size := by
    intro i
    by_cases hin : i = inum
    · subst hin
      rw [update_self, hsize]
    · rw [update_of_ne hin]
  constructor
  · apply hi.accounts.congr _ fun _ _ _ => Iff.rfl
    intro x
    simp only [slotRef, hlive, href]
  · exact hi.metadata
  · intro i hl
    rw [hlive] at hl
    rw [hsame]
    exact hi.size_le i hl
  · intro i hl bn hbn
    rw [hlive] at hl
    rw [hsame] at hbn
    rw [fileBlock, href]
    exact hi.dense i hl bn hbn

/-- An inode without blocks may be freed, or a free inode be replaced by one without blocks. -/
theorem AllocInv.replace_empty (hi : AllocInv sb d view)
    (hbefore : ∀ k, slotRef sb d view (inum, k) = 0) (hafter : ∀ k, blockRef d ip' k = 0)
    (hsize : ip'.size = 0) : AllocInv sb d (update view inum ip') := by
  have hlive : ∀ i, i ≠ inum → (Live sb (update view inum ip') i ↔ Live sb view i) := by
    intro i hin
    unfold Live
    rw [update_of_ne hin]
  constructor
  · apply hi.accounts.congr _ fun _ _ _ => Iff.rfl
    rintro ⟨i, k⟩
    by_cases hin : i = inum
    · subst hin
      rw [hbefore k]
      simp [slotRef, hafter]
    · simp only [slotRef, hlive i hin, update_of_ne hin]
  · exact hi.metadata
  · intro i hl
    by_cases hin : i = inum
    · subst hin
      rw [update_self, hsize]
      exact zero_le
    · rw [hlive i hin] at hl
      rw [update_of_ne hin]
      exact hi.size_le i hl
  · intro i hl bn hbn
    by_cases hin : i = inum
    · subst hin
      rw [update_self, hsize] at hbn
      exact absurd hbn (Nat.not_lt_zero _)
    · rw [hlive i hin] at hl
      rw [update_of_ne hin] at hbn ⊢
      exact hi.dense i hl bn hbn

end Views

/-- The block allocation invariant of the image, and what the inode table repeats of it. -/
structure FsState.Inv (sb : Superblock) (st : FsState) : Prop where
  alloc : AllocInv sb st.store.disk (dinode sb st.store.disk)
  bound : ∀ k, 0 < (st.table k).ref → (st.table k).inum < sb.ninodes
  unique : ∀ k l, 0 < (st.table k).ref → 0 < (st.table l).ref →
    (st.table k).inum = (st.table l).inum → k = l
  loaded : ∀ k, 0 < (st.table k).ref → (st.table k).valid = true →
    (st.table k).ip = dinode sb st.store.disk (st.table k).inum ∧ (st.table k).ip.type ≠ 0

namespace FsState

variable {sb : Superblock} {st st' : FsState} {k : Fin ninode}

theorem setEntry_self (st : FsState) (k : Fin ninode) (e : Entry) :
    (st.setEntry k e).table k = e := update_self ..

theorem setEntry_of_ne (st : FsState) {k l : Fin ninode} (e : Entry) (h : l ≠ k) :
    (st.setEntry k e).table l = st.table l := update_of_ne h ..

theorem boot_inv {store : Store} (h : AllocInv sb store.disk (dinode sb store.disk)) :
    Inv sb (boot store) := by
  refine ⟨h, ?_, ?_, ?_⟩
  · intro k hk
    exact absurd hk (Int.lt_irrefl 0)
  · intro k l hk
    exact absurd hk (Int.lt_irrefl 0)
  · intro k hk
    exact absurd hk (Int.lt_irrefl 0)

/-- The reference count of an entry in use may change. -/
theorem Inv.setRef (h : Inv sb st) (hk : 0 < (st.table k).ref) (r : Int) :
    Inv sb (st.setEntry k { st.table k with ref := r }) := by
  have hold : ∀ l, 0 < ((st.setEntry k { st.table k with ref := r }).table l).ref →
      0 < (st.table l).ref ∧
      ((st.setEntry k { st.table k with ref := r }).table l).inum = (st.table l).inum ∧
      ((st.setEntry k { st.table k with ref := r }).table l).valid = (st.table l).valid ∧
      ((st.setEntry k { st.table k with ref := r }).table l).ip = (st.table l).ip := by
    intro l hl
    by_cases hlk : l = k
    · subst hlk
      rw [setEntry_self]
      exact ⟨hk, rfl, rfl, rfl⟩
    · rw [setEntry_of_ne st _ hlk] at hl ⊢
      exact ⟨hl, rfl, rfl, rfl⟩
  refine ⟨h.alloc, ?_, ?_, ?_⟩
  · intro l hl
    obtain ⟨href, hinum, -, -⟩ := hold l hl
    rw [hinum]
    exact h.bound l href
  · intro l m hl hm heq
    obtain ⟨href, hinum, -, -⟩ := hold l hl
    obtain ⟨href', hinum', -, -⟩ := hold m hm
    rw [hinum, hinum'] at heq
    exact h.unique l m href href' heq
  · intro l hl hv
    obtain ⟨href, hinum, hvalid, hip⟩ := hold l hl
    rw [hvalid] at hv
    rw [hip, hinum]
    exact h.loaded l href hv

theorem putBack_self (st : FsState) (k : Fin ninode) (s : Store) (ip : Dinode) (valid : Bool) :
    (st.putBack k s ip valid).table k = { st.table k with ip := ip, valid := valid } :=
  update_self ..

theorem putBack_of_ne (st : FsState) {k l : Fin ninode} (s : Store) (ip : Dinode)
    (valid : Bool) (h : l ≠ k) : (st.putBack k s ip valid).table l = st.table l :=
  update_of_ne h ..

/-- An operation has replaced the inode of entry `k` by `ip`, in the table and on disk. -/
theorem Inv.putBack (h : Inv sb st) (hk : 0 < (st.table k).ref) {s : Store} {ip : Dinode}
    {valid : Bool}
    (halloc : AllocInv sb s.disk (update (dinode sb st.store.disk) (st.table k).inum ip))
    (hdinode : ∀ i, i < sb.ninodes → dinode sb s.disk i =
      update (dinode sb st.store.disk) (st.table k).inum ip i)
    (htype : valid = true → ip.type ≠ 0) : Inv sb (st.putBack k s ip valid) := by
  have hbefore : ∀ l, ((st.putBack k s ip valid).table l).ref = (st.table l).ref ∧
      ((st.putBack k s ip valid).table l).inum = (st.table l).inum := by
    intro l
    by_cases hlk : l = k
    · subst hlk
      rw [putBack_self]
      exact ⟨rfl, rfl⟩
    · rw [putBack_of_ne st _ _ _ hlk]
      exact ⟨rfl, rfl⟩
  refine ⟨halloc.congr_view hdinode, ?_, ?_, ?_⟩
  · intro l hl
    rw [(hbefore l).1] at hl
    rw [(hbefore l).2]
    exact h.bound l hl
  · intro l m hl hm heq
    rw [(hbefore l).1] at hl
    rw [(hbefore m).1] at hm
    rw [(hbefore l).2, (hbefore m).2] at heq
    exact h.unique l m hl hm heq
  · intro l hl hv
    rw [(hbefore l).1] at hl
    rw [(hbefore l).2]
    have hdisk : (st.putBack k s ip valid).store = s := rfl
    rw [hdisk, hdinode _ (h.bound l hl)]
    by_cases hlk : l = k
    · subst hlk
      rw [putBack_self] at hv ⊢
      rw [update_self]
      exact ⟨rfl, htype hv⟩
    · have hne : (st.table l).inum ≠ (st.table k).inum := fun hsame =>
        hlk (h.unique l k hl hk hsame)
      rw [putBack_of_ne st _ _ _ hlk] at hv ⊢
      rw [update_of_ne hne]
      exact h.loaded l hl hv

/-- The result of an operation: the invariant holds, or the operation has panicked for a reason
other than the allocator or the block map. -/
def Safe (sb : Superblock) : Except FsPanic FsState → Prop
  | .ok st => Inv sb st
  | .error e => e ≠ .freeingFreeBlock ∧ e ≠ .bmapOutOfRange

theorem iget_cases (st : FsState) (inum : Nat) :
    (∃ k, 0 < (st.table k).ref ∧
      st.iget inum = .ok (k, st.setEntry k { st.table k with ref := (st.table k).ref + 1 })) ∨
    (∃ k, (∀ l, 0 < (st.table l).ref → (st.table l).inum ≠ inum) ∧
      st.iget inum = .ok (k, st.setEntry k
        { st.table k with inum := inum, ref := 1, valid := false })) ∨
    st.iget inum = .error .igetNoInodes := by
  unfold iget
  cases hfound : (List.finRange ninode).find? fun k =>
      decide ((st.table k).ref > 0) && decide ((st.table k).inum = inum) with
  | some k =>
    have hk := List.find?_some hfound
    simp only [Bool.and_eq_true, decide_eq_true_eq] at hk
    exact Or.inl ⟨k, hk.1, rfl⟩
  | none =>
    right
    have hnone : ∀ l, 0 < (st.table l).ref → (st.table l).inum ≠ inum := by
      intro l hl heq
      have hl' := List.find?_eq_none.mp hfound l (List.mem_finRange l)
      simp only [Bool.and_eq_true, decide_eq_true_eq] at hl'
      exact hl' ⟨hl, heq⟩
    cases hempty : (List.finRange ninode).find? fun k => decide ((st.table k).ref = 0) with
    | some k => exact Or.inl ⟨k, hnone, rfl⟩
    | none => exact Or.inr rfl

theorem Inv.iget_safe (h : Inv sb st) {inum : Nat} (hlt : inum < sb.ninodes) :
    (∃ k st', st.iget inum = .ok (k, st') ∧ Inv sb st') ∨ st.iget inum = .error .igetNoInodes := by
  obtain ⟨k, hk, heq⟩ | ⟨k, hnone, heq⟩ | heq := iget_cases st inum
  · exact Or.inl ⟨k, _, heq, h.setRef hk _⟩
  · refine Or.inl ⟨k, _, heq, h.alloc, ?_, ?_, ?_⟩
    · intro l hl
      by_cases hlk : l = k
      · subst hlk
        rw [setEntry_self]
        exact hlt
      · rw [setEntry_of_ne st _ hlk] at hl ⊢
        exact h.bound l hl
    · intro l m hl hm hsame
      by_cases hlk : l = k <;> by_cases hmk : m = k
      · rw [hlk, hmk]
      · subst hlk
        rw [setEntry_of_ne st _ hmk] at hm hsame
        rw [setEntry_self] at hsame
        exact absurd hsame.symm (hnone m hm)
      · subst hmk
        rw [setEntry_of_ne st _ hlk] at hl hsame
        rw [setEntry_self] at hsame
        exact absurd hsame (hnone l hl)
      · rw [setEntry_of_ne st _ hlk] at hl hsame
        rw [setEntry_of_ne st _ hmk] at hm hsame
        exact h.unique l m hl hm hsame
    · intro l hl hv
      by_cases hlk : l = k
      · subst hlk
        rw [setEntry_self] at hv
        cases hv
      · rw [setEntry_of_ne st _ hlk] at hl hv ⊢
        exact h.loaded l hl hv
  · exact Or.inr heq

/-- After `ilock` the entry is in use and repeats an allocated inode of the image. -/
structure Locked (sb : Superblock) (st : FsState) (k : Fin ninode) : Prop where
  inv : Inv sb st
  ref_pos : 0 < (st.table k).ref
  ip_eq : (st.table k).ip = dinode sb st.store.disk (st.table k).inum
  type_ne : (st.table k).ip.type ≠ 0

theorem Locked.live (h : Locked sb st k) : Live sb (dinode sb st.store.disk) (st.table k).inum := by
  refine ⟨h.inv.bound k h.ref_pos, ?_⟩
  rw [← h.ip_eq]
  exact h.type_ne

theorem Inv.ilock_safe (h : Inv sb st) (k : Fin ninode) :
    (∃ st', st.ilock sb k = .ok st' ∧ Locked sb st' k) ∨
      st.ilock sb k = .error .ilock ∨ st.ilock sb k = .error .ilockNoType := by
  unfold ilock
  by_cases href : (st.table k).ref < 1
  · exact Or.inr (Or.inl (by simp only [if_pos href]))
  have hpos : 0 < (st.table k).ref := by omega
  simp only [if_neg href]
  cases hvalid : (st.table k).valid with
  | true =>
    obtain ⟨hip, htype⟩ := h.loaded k hpos hvalid
    exact Or.inl ⟨st, by simp, h, hpos, hip, htype⟩
  | false =>
    by_cases htype : (dinode sb st.store.disk (st.table k).inum).type = 0
    · exact Or.inr (Or.inr (by simp [htype]))
    · refine Or.inl ⟨st.putBack k st.store (dinode sb st.store.disk (st.table k).inum) true,
        by simp [htype], ?_, ?_, ?_, ?_⟩
      · apply h.putBack hpos
        · rw [update_eq_self]
          exact h.alloc
        · intro i _
          rw [update_eq_self]
        · exact fun _ => htype
      · rw [putBack_self]
        exact hpos
      · rw [putBack_self]
        rfl
      · rw [putBack_self]
        exact htype

theorem Inv.safe_of_ilock (h : Inv sb st) {f : FsState → Except FsPanic FsState}
    (hf : ∀ st', Locked sb st' k → Safe sb (f st')) : Safe sb (st.ilock sb k >>= f) := by
  obtain ⟨st', heq, hlocked⟩ | heq | heq := h.ilock_safe k
  · rw [heq, ok_bind]
    exact hf st' hlocked
  · rw [heq, error_bind]
    exact ⟨by decide, by decide⟩
  · rw [heq, error_bind]
    exact ⟨by decide, by decide⟩

/-- Putting back the inode the entry already has. -/
theorem Locked.putBack_same (h : Locked sb st k) :
    Inv sb (st.putBack k st.store (st.table k).ip (st.table k).valid) := by
  apply h.inv.putBack h.ref_pos
  · rw [h.ip_eq, update_eq_self]
    exact h.inv.alloc
  · intro i _
    rw [h.ip_eq, update_eq_self]
  · exact fun _ => h.type_ne

/-- A read of a locked inode changes nothing. -/
theorem Locked.readi_eq (h : Locked sb st k) (fault : Option Nat) (off n : UInt32) : ∃ r bytes,
    readi sb st.store (st.table k).ip fault off n = .ok (r, bytes, (st.table k).ip, st.store) := by
  obtain ⟨r, bytes, heq, -⟩ := readi_spec_of_fault h.inv.alloc h.live fault off n
  rw [← h.ip_eq] at heq
  exact ⟨r, bytes, heq⟩

theorem Locked.read_safe (h : Locked sb st k) (fault : Option Nat)
    (off n : UInt32) : Safe sb (st.read sb k fault off n) := by
  obtain ⟨r, bytes, heq⟩ := h.readi_eq fault off n
  simp only [FsState.read, heq, ok_bind]
  exact h.putBack_same

/-- The image after `iupdate` has stored the new inode of the entry. -/
theorem dinode_iupdate {s : Store} {inum : Nat} (ip : Dinode)
    (hsame : ∀ i, i < sb.ninodes → i ≠ inum → dinode sb s.disk i = dinode sb st.store.disk i)
    (i : Nat) (hi : i < sb.ninodes) : dinode sb (iupdate sb s inum ip).disk i =
      update (dinode sb st.store.disk) inum ip i := by
  rw [iupdate_dinode]
  by_cases hin : i = inum
  · rw [hin, update_self, update_self]
  · rw [update_of_ne hin, update_of_ne hin, hsame i hi hin]

section

variable (h : Locked sb st k) (hsb : WellFormed sb)

include h hsb

theorem Locked.write_safe (src : Source) (off n : UInt32) : Safe sb (st.write sb k src off n) := by
  have hlt := h.inv.bound k h.ref_pos
  obtain ⟨-, heq⟩ | ⟨tot, ip, s, -, hmax, hle, heq, hprog, -, -⟩ :=
    writei_cases h.inv.alloc hsb h.live src off n
  · rw [← h.ip_eq] at heq
    simp only [FsState.write, heq, ok_bind]
    exact h.putBack_same
  · rw [← h.ip_eq] at heq
    simp only [FsState.write, heq, ok_bind]
    apply h.inv.putBack h.ref_pos ((hprog.grown (by omega)).iupdate hsb hlt _)
    · exact dinode_iupdate _ fun i hi _ => hprog.dinodes i hi
    · intro _
      rw [grown_type, hprog.fields]
      exact h.live.2

theorem Locked.trunc_safe : Safe sb (st.trunc sb k) := by
  obtain ⟨s, heq, hinv, hdinode⟩ := itrunc_spec h.inv.alloc hsb h.live
  rw [← h.ip_eq] at heq hinv hdinode
  simp only [trunc, heq, ok_bind]
  exact h.inv.putBack h.ref_pos hinv hdinode fun _ => h.type_ne

theorem Locked.setFields_safe
    (major minor nlink : UInt16) : Inv sb (st.setFields sb k major minor nlink) := by
  have hlt := h.inv.bound k h.ref_pos
  apply h.inv.putBack h.ref_pos
  · apply AllocInv.iupdate _ hsb hlt
    exact h.inv.alloc.set_fields (by rw [h.ip_eq]) (by rw [h.ip_eq]) (by rw [h.ip_eq])
  · exact dinode_iupdate _ fun _ _ _ => rfl
  · exact fun _ => h.type_ne

/-- Freeing empties the inode first, so no block is lost with it. -/
theorem Locked.ifree_spec :
    ∃ st', st.ifree sb k = .ok st' ∧ Inv sb st' ∧ 0 < (st'.table k).ref := by
  have hlt := h.inv.bound k h.ref_pos
  obtain ⟨s, heq, hinv, hdinode⟩ := itrunc_spec h.inv.alloc hsb h.live
  rw [← h.ip_eq] at heq hinv hdinode
  refine ⟨_, by simp only [ifree, heq, ok_bind]; rfl, ?_, ?_⟩
  · apply h.inv.putBack h.ref_pos
    · have hempty := @AllocInv.replace_empty _ _ _ (st.table k).inum
        { truncated (st.table k).ip with type := 0 } hinv
        (fun l => by simp [slotRef, blockRef_truncated])
        (fun l => blockRef_truncated { (st.table k).ip with type := 0 } l) rfl
      rw [update_idem] at hempty
      exact hempty.iupdate hsb hlt _
    · apply dinode_iupdate
      intro i hi hin
      rw [hdinode i hi, update_of_ne hin]
    · intro hv
      cases hv
  · rw [putBack_self]
    exact h.ref_pos

end

section

variable (h : Inv sb st) (hsb : WellFormed sb)

include h hsb

theorem Inv.iput_safe (hk : 0 < (st.table k).ref) : Safe sb (st.iput sb k) := by
  unfold iput
  by_cases hfree : (st.table k).ref = 1 ∧ (st.table k).valid = true ∧ (st.table k).ip.nlink = 0
  · obtain ⟨hip, htype⟩ := h.loaded k hk hfree.2.1
    have hlocked : Locked sb st k := ⟨h, hk, hip, htype⟩
    obtain ⟨st', heq, hinv, hpos⟩ := hlocked.ifree_spec hsb
    simp only [if_pos hfree, heq, ok_bind]
    exact hinv.setRef hpos _
  · simp only [if_neg hfree]
    exact h.setRef hk _

/-- A free inode has no blocks, and neither has the inode `ialloc` makes of it. -/
theorem Inv.ialloc_safe (type : UInt16) : Safe sb (st.ialloc sb type >>= fun r => pure r.2) := by
  unfold ialloc
  cases hfree : (List.range' 1 (sb.ninodes - 1)).find? fun inum =>
      decide ((dinode sb st.store.disk inum).type = 0) with
  | none => exact h
  | some inum =>
    have htype := List.find?_some hfree
    rw [decide_eq_true_eq] at htype
    have hmem := List.mem_of_find?_eq_some hfree
    have hlt : inum < sb.ninodes := by
      rw [List.mem_range'_1] at hmem
      omega
    have hdinode := @dinode_iupdate sb st st.store inum { Dinode.zero with type := type }
      fun _ _ _ => rfl
    have hslots : ∀ l, slotRef sb st.store.disk (dinode sb st.store.disk) (inum, l) = 0 := by
      simp [slotRef, Live, htype]
    have hempty := h.alloc.replace_empty hslots
      (fun l => blockRef_truncated { Dinode.zero with type := type } l) rfl
    have hstore : Inv sb { st with
        store := iupdate sb st.store inum { Dinode.zero with type := type } } := by
      refine ⟨(hempty.iupdate hsb hlt _).congr_view hdinode, h.bound, h.unique, ?_⟩
      intro k hk hv
      obtain ⟨hip, ht⟩ := h.loaded k hk hv
      refine ⟨?_, ht⟩
      have hne : (st.table k).inum ≠ inum := by
        intro heq
        rw [hip, heq] at ht
        exact ht htype
      rw [hdinode _ (h.bound k hk), update_of_ne hne]
      exact hip
    unfold iupdate at hstore
    obtain ⟨k, st', heq, hinv⟩ | heq := hstore.iget_safe hlt
    · simp only [heq, ok_bind]
      exact hinv
    · simp only [heq, error_bind]
      exact ⟨by decide, by decide⟩

/-- Every operation keeps the invariant. -/
theorem Inv.step_safe {op : FsOp sb} (hop : st.Holds op) : Safe sb (st.step op) := by
  cases op with
  | get inum =>
    obtain ⟨k, st', heq, hinv⟩ | heq := h.iget_safe inum.isLt
    · simp only [step, heq, ok_bind]
      exact hinv
    · simp only [step, heq, error_bind]
      exact ⟨by decide, by decide⟩
  | dup k => exact h.setRef hop _
  | lock k =>
    obtain ⟨st', heq, hlocked⟩ | heq | heq := h.ilock_safe k
    · simp only [step, heq]
      exact hlocked.inv
    · simp only [step, heq]
      exact ⟨by decide, by decide⟩
    · simp only [step, heq]
      exact ⟨by decide, by decide⟩
  | put k => exact h.iput_safe hsb hop
  | alloc type => exact h.ialloc_safe hsb type
  | read k fault off n => exact h.safe_of_ilock fun _ hl => hl.read_safe fault off n
  | write k src off n => exact h.safe_of_ilock fun _ hl => hl.write_safe hsb src off n
  | trunc k => exact h.safe_of_ilock fun _ hl => hl.trunc_safe hsb
  | setFields k major minor nlink =>
    exact h.safe_of_ilock fun _ hl => hl.setFields_safe hsb major minor nlink

theorem Inv.step_ok {op : FsOp sb} (hop : st.Holds op)
    {st' : FsState} (heq : st.step op = .ok st') : Inv sb st' := by
  have hsafe := h.step_safe hsb hop
  rwa [heq] at hsafe

end

end FsState

section Runs

variable {sb : Superblock} {store : Store}

/-- In every state that a run from a well-formed image reaches, the slots of the allocated
inodes account exactly for the marked data blocks, and `balloc` answers only blocks of the data
area that nothing refers to. No run reaches the panics of `bfree` and of `bmap`. -/
theorem block_allocation_invariant (hsb : WellFormed sb)
    (himage : AllocInv sb store.disk (dinode sb store.disk)) (ops : List (FsOp sb))
    (hops : Guarded FsState.step FsState.Holds (FsState.boot store) ops) :
    (∀ st, run FsState.step (FsState.boot store) ops = .ok st → Accounts (dataStart sb) sb.size
        (slotRef sb st.store.disk (dinode sb st.store.disk))
        (fun b => blockUsed sb st.store.disk b = true) ∧
      (∀ k, 0 < (st.table k).ref → (st.table k).valid = true →
        (st.table k).ip = dinode sb st.store.disk (st.table k).inum) ∧
      ∀ b s', balloc sb st.store = (b, s') → b ≠ 0 → dataStart sb ≤ b ∧ b < sb.size ∧
        ∀ x, slotRef sb st.store.disk (dinode sb st.store.disk) x ≠ b) ∧
    run FsState.step (FsState.boot store) ops ≠ .error .freeingFreeBlock ∧
    run FsState.step (FsState.boot store) ops ≠ .error .bmapOutOfRange := by
  have hstep : ∀ (st : FsState) (op : FsOp sb) (st' : FsState), st.Inv sb → st.Holds op →
      st.step op = .ok st' → st'.Inv sb := fun _ _ _ hi hop heq => hi.step_ok hsb hop heq
  have hboot := FsState.boot_inv himage
  refine ⟨?_, ?_, ?_⟩
  · intro st h
    have hinv := run_invariant hstep hboot hops h
    refine ⟨hinv.alloc.accounts, fun k hk hv => (hinv.loaded k hk hv).1, ?_⟩
    intro b s' hbal hb
    obtain ⟨b', s'', hbal', ⟨hzero, -⟩ | ⟨-, ha⟩⟩ := balloc_spec hinv.alloc
    · rw [hbal] at hbal'
      cases hbal'
      exact absurd hzero hb
    · rw [hbal] at hbal'
      cases hbal'
      have hfree : ¬ blockUsed sb st.store.disk b = true := by
        rw [ha.free]
        decide
      exact ⟨ha.dataStart_le hinv.alloc, ha.lt_size,
        hinv.alloc.accounts.ref_ne_of_free (ha.dataStart_le hinv.alloc) ha.lt_size hfree⟩
  · apply run_ne_error hstep _ hboot hops
    intro s op hi hop heq
    have hsafe := hi.step_safe hsb hop
    rw [heq] at hsafe
    exact hsafe.1 rfl
  · apply run_ne_error hstep _ hboot hops
    intro s op hi hop heq
    have hsafe := hi.step_safe hsb hop
    rw [heq] at hsafe
    exact hsafe.2 rfl

theorem dinode_formatted (hsb : WellFormed sb) (used : Nat) {i : Nat} (hi : i < sb.ninodes) :
    dinode sb (formatted sb used) i = Dinode.zero := by
  have hlt := hsb.iblock_lt hi
  unfold dinode formatted
  rw [update_of_ne (by omega)]
  exact decodeDinode_zero _

/-- The image without any inode, with exactly the metadata blocks marked. -/
theorem formatted_allocInv (hsb : WellFormed sb) (hsize : sb.size < bpb) :
    AllocInv sb (formatted sb (dataStart sb)) (dinode sb (formatted sb (dataStart sb))) := by
  have hdead : ∀ i, ¬ Live sb (dinode sb (formatted sb (dataStart sb))) i := by
    rintro i ⟨hi, htype⟩
    rw [dinode_formatted hsb _ hi] at htype
    exact htype rfl
  have hslots : ∀ x, slotRef sb (formatted sb (dataStart sb))
      (dinode sb (formatted sb (dataStart sb))) x = 0 := by
    intro x
    simp only [slotRef, if_neg (hdead x.1)]
  have hpos := @dataStart_pos sb
  refine ⟨⟨?_, ?_, ?_⟩, ?_, ?_, ?_⟩
  · intro x hx
    exact absurd (hslots x) hx
  · intro x y hx
    exact absurd (hslots x) hx
  · intro b hlo hhi
    rw [blockUsed_formatted (by omega), decide_eq_true_eq]
    constructor
    · omega
    · rintro ⟨x, hx⟩
      rw [hslots] at hx
      omega
  · intro b hb hlt
    rw [blockUsed_formatted (by omega), decide_eq_true_eq]
    exact hb
  · intro i hi
    exact absurd hi (hdead i)
  · intro i hi
    exact absurd hi (hdead i)

/-- A file is created and written on an image whose first allocation is refused. -/
theorem block_allocation_invariant_create :
    run FsState.step (FsState.boot ⟨formatted mkfsSuperblock (dataStart mkfsSuperblock), [],
        [true]⟩) [(.alloc 2 : FsOp mkfsSuperblock), .write ⟨0, by decide⟩ ⟨fun _ => 7, none⟩ 0 3,
          .write ⟨0, by decide⟩ ⟨fun _ => 7, none⟩ 0 3] ≠ .error .freeingFreeBlock := by
  have himage := formatted_allocInv mkfsSuperblock_wellFormed (by decide)
  refine (block_allocation_invariant mkfsSuperblock_wellFormed himage _ ?_).2.1
  exact ⟨trivial, fun _ _ => ⟨trivial, fun _ _ => ⟨trivial, fun _ _ => trivial⟩⟩⟩

end Runs

end FogOS.Fs
