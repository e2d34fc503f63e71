import FogOS.Fs.Mapping

/-!
# `itrunc` keeps the allocation invariant

Every call of `bfree` in `itrunc` empties one slot of the inode. Between the calls
the slots already freed are counted as empty, although the indirect block still
lists them.
-/

namespace FogOS.Fs

open Function Library Bytes List List Dinode

variable {sb : Superblock} {d d' d₁ : Disk} {view : Nat → Dinode} {inum : Nat}
  {ref : Nat × Nat → Nat} {s : Store}

/-- Only bits of data blocks in the free map have changed. -/
structure FreesOnly (sb : Superblock) (d d' : Disk) : Prop where
  outside : ∀ c, c < sb.bmapstart ∨ dataStart sb ≤ c → d' c = d c
  metadata : ∀ c, c < dataStart sb → blockUsed sb d' c = blockUsed sb d c

theorem FreesOnly.refl (sb : Superblock) (d : Disk) : FreesOnly sb d d :=
  ⟨fun _ _ => rfl, fun _ _ => rfl⟩

theorem FreesOnly.trans (h : FreesOnly sb d d₁) (h' : FreesOnly sb d₁ d') : FreesOnly sb d d' :=
  ⟨fun c hc => (h'.outside c hc).trans (h.outside c hc),
    fun c hc => (h'.metadata c hc).trans (h.metadata c hc)⟩

/-- The data blocks marked in the free map are the ones `ref` refers to. -/
abbrev Accounted (sb : Superblock) (d : Disk) (ref : Nat × Nat → Nat) : Prop :=
  Accounts (dataStart sb) sb.size ref fun b => blockUsed sb d b = true

/-- Freeing the block of a slot does not panic and empties the slot. -/
theorem bfree_spec (h : Accounted sb s.disk ref) {x : Nat × Nat} (hx : ref x ≠ 0) :
    ∃ s', bfree sb s (ref x) = .ok s' ∧
      Accounted sb s'.disk (update ref x 0) ∧ FreesOnly sb s.disk s'.disk := by
  obtain ⟨hlo, hhi⟩ := h.area x hx
  refine ⟨_, bfree_eq_ok (h.used_ref hx), ?_, ?_, ?_⟩
  · apply (h.release dataStart_pos hx).congr (fun _ => rfl)
    intro b _ _
    rw [Store.write_disk, blockUsed_clearBit]
    simp
  · intro c hc
    have h₁ := bblock_lt_dataStart hhi
    have h₂ := @bmapstart_le_bblock sb (ref x)
    rw [Store.write_disk, update_of_ne (by omega)]
  · intro c hc
    have hne : c ≠ ref x := by omega
    rw [Store.write_disk, blockUsed_clearBit]
    simp [hne]

/-- The slots `ks` of the inode count as empty. -/
def emptied (inum : Nat) (ks : List Nat) (ref : Nat × Nat → Nat) (x : Nat × Nat) : Nat :=
  if x.1 = inum ∧ x.2 ∈ ks then 0 else ref x

theorem emptied_nil : emptied inum [] ref = ref := by
  funext x
  simp [emptied]

theorem emptied_cons (k : Nat) (ks : List Nat) :
    emptied inum (k :: ks) ref = emptied inum ks (update ref (inum, k) 0) := by
  funext ⟨i, l⟩
  unfold emptied
  by_cases hmem : i = inum ∧ l ∈ ks
  · rw [if_pos hmem, if_pos ⟨hmem.1, mem_cons_of_mem _ hmem.2⟩]
  · rw [if_neg hmem]
    by_cases hk : (i, l) = (inum, k)
    · cases hk
      rw [if_pos ⟨rfl, mem_cons_self⟩, update_self]
    · rw [update_of_ne hk, if_neg]
      rintro ⟨rfl, hl⟩
      rcases mem_cons.mp hl with rfl | hl
      · exact hk rfl
      · exact hmem ⟨rfl, hl⟩

theorem emptied_cons_of_zero {k : Nat} (ks : List Nat) (h : ref (inum, k) = 0) :
    emptied inum (k :: ks) ref = emptied inum ks ref := by
  rw [emptied_cons, ← h, update_eq_self]

theorem itruncDirect_spec {ip : Dinode} (is : List Nat) (hnodup : is.Nodup)
    (hle : ∀ i, i ∈ is → i ≤ ndirect) (h : Accounted sb s.disk ref)
    (hrefs : ∀ i, i ∈ is → ref (inum, i) = ip.addr i) :
    ∃ ip' s', itruncDirect sb is s ip = .ok (ip', s') ∧
      Accounted sb s'.disk (emptied inum is ref) ∧ FreesOnly sb s.disk s'.disk ∧
      ip' = { ip with addrs := ip'.addrs } ∧
      ∀ k, ip'.addr k = if k ∈ is then 0 else ip.addr k := by
  induction is generalizing s ip ref with
  | nil =>
    refine ⟨ip, s, rfl, ?_, FreesOnly.refl _ _, rfl, ?_⟩
    · rw [emptied_nil]
      exact h
    · simp
  | cons i is ih =>
    obtain ⟨hi, hnodup⟩ := nodup_cons.mp hnodup
    have hle' : ∀ k, k ∈ is → k ≤ ndirect := fun k hk => hle k (mem_cons_of_mem _ hk)
    have hself := hrefs i mem_cons_self
    by_cases hzero : ip.addr i = 0
    · obtain ⟨ip', s', heq, hacc, hfrees, hfields, haddr⟩ :=
        ih hnodup hle' h fun k hk => hrefs k (mem_cons_of_mem _ hk)
      refine ⟨ip', s', by simpa [itruncDirect, hzero] using heq, ?_, hfrees, hfields, ?_⟩
      · rw [emptied_cons_of_zero is (hself.trans hzero)]
        exact hacc
      · intro k
        rw [haddr k]
        by_cases hk : k = i
        · subst hk
          simp [hi, hzero]
        · simp [hk]
    · obtain ⟨s₁, hfree, hacc₁, hfrees₁⟩ := bfree_spec h (x := (inum, i)) (by rwa [hself])
      have hne : ∀ k, k ∈ is → k ≠ i := by
        rintro k hk rfl
        exact hi hk
      have hrefs₁ : ∀ k, k ∈ is → update ref (inum, i) 0 (inum, k) = (ip.setAddr i 0).addr k := by
        intro k hk
        rw [update_of_ne (by simp [hne k hk]), hrefs k (mem_cons_of_mem _ hk),
          addr_setAddr_of_ne (hne k hk)]
      obtain ⟨ip', s', heq, hacc, hfrees, hfields, haddr⟩ := ih hnodup hle' hacc₁ hrefs₁
      rw [hself] at hfree
      refine ⟨ip', s', ?_, ?_, hfrees₁.trans hfrees, hfields, ?_⟩
      · simp only [itruncDirect, if_pos hzero, hfree]
        exact heq
      · rw [emptied_cons]
        exact hacc
      · intro k
        rw [haddr k]
        by_cases hk : k = i
        · subst hk
          rw [if_neg hi, if_pos mem_cons_self,
            addr_setAddr_self (hle k mem_cons_self) (by decide)]
        · simp [hk, addr_setAddr_of_ne hk]

theorem itruncIndirect_spec {ind : Nat} (hind : dataStart sb ≤ ind) (js : List Nat)
    (hnodup : js.Nodup) (h : Accounted sb s.disk ref)
    (hrefs : ∀ j, j ∈ js → ref (inum, ndirect + 1 + j) = entry (s.disk ind) j) :
    ∃ s', itruncIndirect sb ind js s = .ok s' ∧
      Accounted sb s'.disk (emptied inum (js.map (ndirect + 1 + ·)) ref) ∧
      FreesOnly sb s.disk s'.disk := by
  induction js generalizing s ref with
  | nil =>
    refine ⟨s, rfl, ?_, FreesOnly.refl _ _⟩
    rw [map_nil, emptied_nil]
    exact h
  | cons j js ih =>
    obtain ⟨hj, hnodup⟩ := nodup_cons.mp hnodup
    have hself := hrefs j mem_cons_self
    rw [map_cons]
    by_cases hzero : entry (s.disk ind) j = 0
    · obtain ⟨s', heq, hacc, hfrees⟩ :=
        ih hnodup h fun k hk => hrefs k (mem_cons_of_mem _ hk)
      refine ⟨s', by simpa [itruncIndirect, hzero] using heq, ?_, hfrees⟩
      rw [emptied_cons_of_zero _ (hself.trans hzero)]
      exact hacc
    · obtain ⟨s₁, hfree, hacc₁, hfrees₁⟩ :=
        bfree_spec h (x := (inum, ndirect + 1 + j)) (by rwa [hself])
      have hrefs₁ : ∀ k, k ∈ js → update ref (inum, ndirect + 1 + j) 0 (inum, ndirect + 1 + k) =
            entry (s₁.disk ind) k := by
        intro k hk
        have hne : k ≠ j := by
          rintro rfl
          exact hj hk
        rw [update_of_ne (by simp [hne]), hrefs k (mem_cons_of_mem _ hk),
          hfrees₁.outside ind (Or.inr hind)]
      obtain ⟨s', heq, hacc, hfrees⟩ := ih hnodup hacc₁ hrefs₁
      rw [hself] at hfree
      refine ⟨s', ?_, ?_, hfrees₁.trans hfrees⟩
      · simp only [itruncIndirect, if_pos hzero, hfree]
        exact heq
      · rw [emptied_cons]
        exact hacc

/-- The inode without its contents. -/
def truncated (ip : Dinode) : Dinode := { ip with size := 0, addrs := fun _ => 0 }

theorem truncated_addr (ip : Dinode) (k : Nat) : (truncated ip).addr k = 0 := by
  simp [addr, truncated]

theorem blockRef_truncated (ip : Dinode) (k : Nat) : blockRef d (truncated ip) k = 0 := by
  simp [blockRef, truncated_addr]

theorem addrs_eq_zero {ip : Dinode} (h : ∀ k, k ≤ ndirect → ip.addr k = 0) :
    ip.addrs = fun _ => 0 := by
  funext i
  have hi := h i.val (Nat.le_of_lt_succ i.isLt)
  simp only [addr, dif_pos i.isLt] at hi
  exact UInt32.toNat_inj.mp hi

/-- The slots of the inode count as empty and all others are as they were. -/
def withoutInode (inum : Nat) (ref : Nat × Nat → Nat) (x : Nat × Nat) : Nat :=
  if x.1 = inum then 0 else ref x

/-- The second half of `itrunc`, from an inode whose direct blocks are already freed. -/
theorem itruncTail_spec {ip : Dinode} (h : Accounted sb s.disk ref)
    (hrefs : ∀ k, ref (inum, k) = if k < ndirect then 0 else blockRef s.disk ip k) :
    ∃ ip' s', itruncTail sb s ip = .ok (ip', s') ∧
      Accounted sb s'.disk (withoutInode inum ref) ∧ FreesOnly sb s.disk s'.disk ∧
      ip' = { ip with addrs := ip'.addrs } ∧
      ∀ k, ip'.addr k = if k = ndirect then 0 else ip.addr k := by
  have hindirect : ref (inum, ndirect) = ip.addr ndirect := by
    rw [hrefs, if_neg (lt_irrefl _), blockRef_of_le (le_refl _)]
  by_cases hzero : ip.addr ndirect = 0
  · refine ⟨ip, s, by simp [itruncTail, hzero]; rfl, ?_, FreesOnly.refl _ _, rfl, ?_⟩
    · apply h.congr _ fun _ _ _ => Iff.rfl
      rintro ⟨i, k⟩
      unfold withoutInode
      split
      · rename_i hi
        cases hi
        rw [hrefs]
        by_cases hk : k ≤ ndirect
        · by_cases hkn : k = ndirect
          · rw [if_neg (by omega), blockRef_of_le hk, hkn, hzero]
          · rw [if_pos (by omega)]
        · simp [blockRef, hk, hzero]
      · rfl
    · intro k
      by_cases hk : k = ndirect
      · rw [if_pos hk, hk, hzero]
      · rw [if_neg hk]
  · have hind : dataStart sb ≤ ip.addr ndirect := by
      have harea := h.area (inum, ndirect) (by rwa [hindirect])
      rw [hindirect] at harea
      exact harea.1
    have hentries : ∀ j, j ∈ range nindirect →
        ref (inum, ndirect + 1 + j) = entry (s.disk (ip.addr ndirect)) j := by
      intro j hj
      rw [mem_range] at hj
      have hgt : ¬ ndirect + 1 + j ≤ ndirect := by omega
      have hlt : ndirect + 1 + j < nslots := by
        unfold nslots
        omega
      rw [hrefs, if_neg (by omega)]
      simp only [blockRef, if_neg hgt, if_pos (And.intro hzero hlt), Nat.add_sub_cancel_left]
    obtain ⟨s₁, heq₁, hacc₁, hfrees₁⟩ :=
      itruncIndirect_spec hind (range nindirect) nodup_range h hentries
    have hmem : ∀ k, k ∈ (range nindirect).map (ndirect + 1 + ·) ↔
        ndirect < k ∧ k < nslots := by
      intro k
      simp only [mem_map, mem_range]
      unfold nslots
      constructor
      · omega
      · rintro ⟨h₁, h₂⟩
        exact ⟨k - (ndirect + 1), by omega, by omega⟩
    have hlast : emptied inum ((range nindirect).map (ndirect + 1 + ·)) ref
        (inum, ndirect) = ip.addr ndirect := by
      have hnot : ¬ (inum = inum ∧ ndirect ∈ (range nindirect).map (ndirect + 1 + ·)) := by
        rw [hmem]
        omega
      rw [emptied, if_neg hnot, hindirect]
    obtain ⟨s₂, heq₂, hacc₂, hfrees₂⟩ := bfree_spec hacc₁ (x := (inum, ndirect)) (by rwa [hlast])
    rw [hlast] at heq₂
    refine ⟨ip.setAddr ndirect 0, s₂, ?_, ?_, hfrees₁.trans hfrees₂, rfl, ?_⟩
    · simp only [itruncTail, ne_eq, hzero, not_false_iff, if_true, heq₁, heq₂, ok_bind]
      rfl
    · apply hacc₂.congr _ fun _ _ _ => Iff.rfl
      rintro ⟨i, k⟩
      unfold withoutInode
      split
      · rename_i hi
        cases hi
        by_cases hkn : k = ndirect
        · rw [hkn, update_self]
        · rw [update_of_ne (by simp [hkn])]
          simp only [emptied, hmem, hrefs]
          by_cases hk : k < ndirect
          · simp [hk]
          · by_cases hks : k < nslots
            · rw [if_pos ⟨trivial, by omega, hks⟩]
            · have hgt : ¬ k ≤ ndirect := by omega
              simp [blockRef, hks, hgt]
      · rename_i hi
        have hi' : ¬ i = inum := hi
        simp [emptied, hi']
    · intro k
      by_cases hk : k = ndirect
      · rw [if_pos hk, hk, addr_setAddr_self (le_refl _) (by decide)]
      · rw [if_neg hk, addr_setAddr_of_ne hk]

/-- All blocks of the inode are freed without a panic, and the emptied inode is stored. -/
theorem itrunc_frees (hi : AllocInv sb s.disk view) (hlive : Live sb view inum) :
    ∃ s', itrunc sb s inum (view inum) =
        .ok (truncated (view inum), iupdate sb s' inum (truncated (view inum))) ∧
      Accounted sb s'.disk (withoutInode inum (slotRef sb s.disk view)) ∧
      FreesOnly sb s.disk s'.disk := by
  obtain ⟨ip₁, s₁, heq₁, hacc₁, hfrees₁, hfields₁, haddr₁⟩ :=
    itruncDirect_spec (range ndirect) nodup_range
      (fun i h => le_of_lt (mem_range.mp h)) hi.accounts
      (fun i h => by
        rw [slotRef_of_live hlive, blockRef_of_le (le_of_lt (mem_range.mp h))])
  have hind : ip₁.addr ndirect = (view inum).addr ndirect := by
    rw [haddr₁, if_neg (by simp)]
  have hrefs : ∀ k, emptied inum (range ndirect) (slotRef sb s.disk view) (inum, k) =
      if k < ndirect then 0 else blockRef s₁.disk ip₁ k := by
    intro k
    by_cases hk : k < ndirect
    · simp [emptied, hk]
    · have hnot : ¬ (inum = inum ∧ k ∈ range ndirect) := by
        rw [mem_range]
        omega
      have hsame := hi.blockRef_eq (fun c hc => hfrees₁.outside c (Or.inr hc)) inum hlive k
      rw [emptied, if_neg hnot, if_neg hk, slotRef_of_live hlive, ← hsame]
      by_cases hkn : k = ndirect
      · rw [hkn, blockRef_of_le (le_refl _), blockRef_of_le (le_refl _), hind]
      · have hgt : ¬ k ≤ ndirect := by omega
        simp only [blockRef, if_neg hgt, hind]
  obtain ⟨ip₂, s₂, heq₂, hacc₂, hfrees₂, hfields₂, haddr₂⟩ := itruncTail_spec hacc₁ hrefs
  have hfinal : ({ ip₂ with size := 0 } : Dinode) = truncated (view inum) := by
    have hz : ip₂.addrs = fun _ => 0 := by
      apply addrs_eq_zero
      intro k hk
      rw [haddr₂]
      split
      · rfl
      · rw [haddr₁, if_pos (mem_range.mpr (by omega))]
    rw [hfields₂, hfields₁, hz]
    rfl
  refine ⟨s₂, ?_, ?_, hfrees₁.trans hfrees₂⟩
  · simp only [itrunc, heq₁, heq₂, ok_bind, hfinal]
    rfl
  · apply hacc₂.congr _ fun _ _ _ => Iff.rfl
    rintro ⟨i, k⟩
    by_cases hin : i = inum <;> simp [withoutInode, emptied, hin]

/-- `itrunc` never panics; afterwards the inode is empty, in memory and on disk, and the
invariant holds. -/
theorem itrunc_spec (hi : AllocInv sb s.disk view) (hsb : WellFormed sb)
    (hlive : Live sb view inum) :
    ∃ s', itrunc sb s inum (view inum) = .ok (truncated (view inum), s') ∧
      AllocInv sb s'.disk (update view inum (truncated (view inum))) ∧
      ∀ i, i < sb.ninodes → dinode sb s'.disk i =
        update (dinode sb s.disk) inum (truncated (view inum)) i := by
  obtain ⟨s₁, heq, hacc, hfrees⟩ := itrunc_frees hi hlive
  have hothers := hi.blockRef_eq fun c hc => hfrees.outside c (Or.inr hc)
  have hlive_iff := @live_update_iff sb view inum (truncated (view inum)) rfl
  have hinv : AllocInv sb s₁.disk (update view inum (truncated (view inum))) := by
    constructor
    · apply hacc.congr _ fun _ _ _ => Iff.rfl
      rintro ⟨i, k⟩
      unfold slotRef withoutInode
      simp only [hlive_iff]
      by_cases hin : i = inum
      · subst hin
        simp [blockRef_truncated]
      · simp only [hin, if_false, update_of_ne hin]
        split
        · rename_i hl
          exact hothers i hl k
        · rfl
    · intro b hb hsize
      rw [hfrees.metadata b hb, hi.metadata b hb hsize]
    · intro i hl
      rw [hlive_iff] at hl
      by_cases hin : i = inum
      · subst hin
        rw [update_self]
        exact zero_le
      · rw [update_of_ne hin]
        exact hi.size_le i hl
    · intro i hl bn hbn
      rw [hlive_iff] at hl
      by_cases hin : i = inum
      · subst hin
        rw [update_self] at hbn
        exact absurd hbn (Nat.not_lt_zero _)
      · rw [update_of_ne hin] at hbn ⊢
        unfold fileBlock
        rw [hothers i hl]
        exact hi.dense i hl bn hbn
  refine ⟨_, heq, hinv.iupdate hsb hlive.1 _, ?_⟩
  intro i hlt
  rw [iupdate_dinode]
  by_cases hin : i = inum
  · rw [hin, update_self, update_self]
  · rw [update_of_ne hin, update_of_ne hin]
    exact dinode_congr (hfrees.outside _ (Or.inl (hsb.iblock_lt hlt)))

end FogOS.Fs
