import FogOS.Vm.Table

/-!
# Allocating pages and walking tables

What `kalloc`, `kfree` and `walk` do to the owners of pages. `walk` with allocation
turns free pages into tables and changes no translation.
-/

namespace FogOS.Vm

open Function Library Radix Bytes Nat

variable {τ : Type} {L : Link} {own : Owners τ} {r : Nat} {m : PMap} {s : Memory}

section Kalloc

/-- `kalloc` fails and changes nothing, or takes a free page, whose new owner may be chosen. -/
theorem kalloc_spec (h : Heap L own s) :
    Returns kalloc (fun p s' => (p = 0 ∧ Heap L own s' ∧ s'.mem = s.mem) ∨
      (own p = .free ∧ (∀ x, x ≠ .free → x ≠ .outside → Heap L (update own p x) s') ∧
        Bytes.Within p pgsize s.mem s'.mem)) s := by
  unfold kalloc
  rw [Returns, wp_bind, wp_get, wp_ite]
  refine ⟨fun _ => ?_, fun hsome => ?_⟩
  · exact Or.inl ⟨rfl, h.refuse _, rfl⟩
  · have hne : s.freelist ≠ 0 := fun hz => hsome (Or.inr hz)
    have hmem : Bytes.Within s.freelist pgsize s.mem (s.mem.fill s.freelist pgsize 5) :=
      within_fill _ _ _ _
    exact Or.inr ⟨h.head_free hne, fun x hx hout => h.take hne hx hout rfl rfl hmem, hmem⟩

theorem kfree_spec (h : Heap L own s) {pg : Nat} (hfree : own pg ≠ .free)
    (hout : own pg ≠ .outside) :
    Returns (kfree pg) (fun _ s' => Heap L (update own pg .free) s' ∧
      Bytes.Within pg pgsize s.mem s'.mem) s := by
  have hpg := h.inRange hout
  have hmem : Bytes.Within pg pgsize s.mem ((s.mem.fill pg pgsize 1).setLE pg 8 s.freelist) :=
    (within_fill _ _ _ _).trans
      (within_setLE _ _ (le_refl pg) (by unfold pgsize; omega))
  unfold kfree
  rw [Returns, wp_bind, wp_get, wp_ite]
  refine ⟨fun hbad => ?_, fun _ => ?_⟩
  · obtain ⟨hal, hlo, hhi⟩ := hpg
    rw [h.link] at hbad
    omega
  · refine ⟨h.give hpg hfree rfl rfl ?_ hmem, hmem⟩
    rw [getLE_setLE_same]
    exact mod_eq_of_lt h.freelist_lt

end Kalloc

/-- The free list and the table under `r`, which represents `m`. -/
structure Rep (L : Link) (own : Owners τ) (r : Nat) (m : PMap) (s : Memory) : Prop where
  heap : Heap L own s
  table : TableRep s.mem own r m

section Walk

variable {va : Nat}

theorem Rep.node_inRange (h : Rep L own r m s) {pg d k : Nat} (hpg : own pg = .node r d k) :
    L.InRange pg := h.heap.inRange (by rw [hpg]; exact nofun)

/-- A free page is zeroed and entered in a table. -/
theorem Rep.graft (h : Rep L own r m s) {pg d k i c : Nat} (hpg : own pg = .node r d k)
    (hd : d < 2) (hi : i < 512) (hnone : decode (entry s.mem pg i) = none) (hc : own c = .free)
    {s₁ s₂ : Memory} (hheap : ∀ x, x ≠ .free → x ≠ .outside → Heap L (update own c x) s₁)
    (hmem : Bytes.Within c pgsize s.mem s₁.mem)
    (hs₂ : s₂ = { s₁ with
      mem := (s₁.mem.fill c pgsize 0).setLE (pg + 8 * i) 8 (pa2pte c ||| pteV) }) :
    Rep L (update own c (.node r (d + 1) (k * 512 + i))) r m s₂ ∧
    Steady (Owner.Scratch r) (Owner.Scratch r) own
      (update own c (.node r (d + 1) (k * 512 + i))) s.mem s₂.mem := by
  have hcr : L.InRange c := h.heap.inRange (by rw [hc]; exact nofun)
  have hpr := h.node_inRange hpg
  have hlt : c < 2 ^ 64 := lt_trans hcr.lt (by decide)
  have hne : pg ≠ c := by
    rintro rfl
    rw [hpg] at hc
    cases hc
  have hzeroed : Bytes.Within c pgsize s.mem (s₁.mem.fill c pgsize 0) :=
    hmem.trans (within_fill _ _ _ _)
  have hlinked : Bytes.Within pg pgsize (s₁.mem.fill c pgsize 0) s₂.mem := by
    rw [hs₂]
    exact within_setEntry _ _ _ hi
  have hentry : ∀ {q j}, q % pgsize = 0 → j < 512 → entry s₂.mem q j =
      if q = pg ∧ j = i then pa2pte c ||| pteV else entry (s₁.mem.fill c pgsize 0) q j := by
    intro q j hq hj
    rw [hs₂, entry_setEntry _ _ hpr.aligned hq hi hj, mod_eq_of_lt (table_lt hlt)]
  refine ⟨⟨?_, ?_⟩, ?_⟩
  · have hnode := hheap (.node r (d + 1) (k * 512 + i)) nofun nofun
    have hkept : ∀ q, q = c ∨ q = pg → update own c (.node r (d + 1) (k * 512 + i)) q ≠ .free := by
      rintro q (rfl | rfl)
      · rw [update_self]
        exact nofun
      · rw [update_of_ne hne, hpg]
        exact nofun
    have hfill : Heap L (update own c (.node r (d + 1) (k * 512 + i)))
        { s₁ with mem := s₁.mem.fill c pgsize 0 } :=
      hnode.write hcr.aligned (hkept c (Or.inl rfl)) rfl rfl (within_fill _ _ _ _)
    rw [hs₂] at hlinked ⊢
    exact hfill.write hpr.aligned (hkept pg (Or.inr rfl)) rfl rfl hlinked
  · refine h.table.graft hpg hd hi hnone (fun d k hn => ?_) ?_ (fun j hj => ?_) fun q d k j hq hj hpos => ?_
    · rw [hc] at hn
      cases hn
    · rw [hentry hpr.aligned hi, if_pos ⟨rfl, rfl⟩, decode_table hlt, hcr.pgrounddown_eq]
    · rw [hentry hcr.aligned hj, if_neg fun he => hne he.1.symm, entry_zero _ _ hj, decode_zero]
    · have hqc : c ≠ q := by
        rintro rfl
        rw [hc] at hq
        cases hq
      have hqr := h.node_inRange hq
      rw [hentry hqr.aligned hj, if_neg hpos, entry_within hzeroed hcr.aligned hqr.aligned hqc hj]
  · have hstart : Steady (Owner.Scratch r) (Owner.Scratch r) own own s.mem s.mem :=
      Steady.refl fun _ h => h
    exact (hstart.touch hcr.aligned (by rw [hc]; trivial)
      (show Owner.Scratch r (.node r (d + 1) (k * 512 + i)) from ⟨rfl, trivial⟩) hzeroed).write
        hpr.aligned (by rw [hpg]; exact ⟨rfl, trivial⟩) hlinked

/-- The address of the leaf entry for `va` under `r`. -/
def LeafEntry (own : Owners τ) (r va pte : Nat) : Prop :=
  ∃ pg, own pg = .node r 2 (va / pgsize / 512) ∧ pte = pg + 8 * (va / pgsize % 512)

/-- A round of the loop of `walk` goes down one digit of the key. -/
theorem key_step (va level : Nat) :
    va / pgsize / 512 ^ (level + 1) * 512 + px level va = va / pgsize / 512 ^ level := by
  rw [px_eq, Nat.pow_succ, ← Nat.div_div_eq_div_mul, Nat.div_add_mod']

/-- `walk` with allocation returns 0, or the leaf entry, with its table in place. No translation
changes. -/
theorem walkLoop_alloc {level d pg : Nat} (hd : d + level = 2) (h : Rep L own r m s)
    (hpg : own pg = .node r d (va / pgsize / 512 ^ (level + 1))) :
    Returns (walkLoop va true level pg) (fun pte s' => ∃ own', Rep L own' r m s' ∧
      Steady (Owner.Scratch r) (Owner.Scratch r) own own' s.mem s'.mem ∧
      (pte = 0 ∨ LeafEntry own' r va pte)) s := by
  induction level generalizing d pg own s with
  | zero =>
    obtain rfl : d = 2 := by omega
    refine ⟨own, h, Steady.refl fun _ h => h, Or.inr ⟨pg, ?_, ?_⟩⟩
    · rwa [zero_add, pow_one] at hpg
    · rw [px_eq, Nat.pow_zero, Nat.div_one]
  | succ level ih =>
    have hi : px (level + 1) va < 512 := px_lt _ _
    have hkey := key_step va (level + 1)
    rw [walkLoop, Returns, wp_bind]
    change wp (if entry s.mem pg (px (level + 1) va) &&& pteV ≠ 0 then
      walkLoop va true level (pte2pa (entry s.mem pg (px (level + 1) va))) else _) _ _ s
    rw [wp_ite]
    refine ⟨fun hv => ?_, fun hv => ?_⟩
    · have hdec : decode (entry s.mem pg (px (level + 1) va)) =
          some (pte2pa (entry s.mem pg (px (level + 1) va)),
            pteFlags (entry s.mem pg (px (level + 1) va))) := if_neg hv
      have hchild := h.table.child_node hpg (by omega) hi hdec
      rw [hkey] at hchild
      exact ih (by omega) h hchild
    · have hdec : decode (entry s.mem pg (px (level + 1) va)) = none :=
        decode_eq_none.mpr (not_not.mp hv)
      refine wp_seq (kalloc_spec h.heap) fun c s₁ hc => ?_
      rw [wp_ite]
      rcases hc with ⟨rfl, hheap, hmem⟩ | ⟨hfree, hheap, hmem⟩
      · refine ⟨fun _ => ?_, fun hne => absurd rfl hne⟩
        exact ⟨own, ⟨hheap, by rw [hmem]; exact h.table⟩,
          by rw [hmem]; exact Steady.refl fun _ h => h, Or.inl rfl⟩
      · have hcr : L.InRange c := h.heap.inRange (by rw [hfree]; exact nofun)
        have hpos := hcr.pos
        refine ⟨fun hz => absurd hz (by omega), fun _ => ?_⟩
        obtain ⟨hrep, hsteady⟩ := h.graft hpg (by omega) hi hdec hfree hheap hmem rfl
        rw [hkey] at hrep hsteady
        have hnode : update own c (.node r (d + 1) (va / pgsize / 512 ^ (level + 1))) c =
            .node r (d + 1) (va / pgsize / 512 ^ (level + 1)) := update_self _ _ _
        refine wp_mono (ih (by omega) hrep hnode) ?_ fun _ he => he
        rintro pte s' ⟨own', hrep', hsteady', hpte⟩
        exact ⟨own', hrep', hsteady.comp hsteady', hpte⟩

theorem walk_alloc (hva : va < maxva) (h : Rep L own r m s) :
    Returns (walk r va true) (fun pte s' => ∃ own', Rep L own' r m s' ∧
      Steady (Owner.Scratch r) (Owner.Scratch r) own own' s.mem s'.mem ∧
      (pte = 0 ∨ LeafEntry own' r va pte)) s := by
  rw [walk, if_neg (by omega)]
  refine walkLoop_alloc (d := 0) rfl h ?_
  have hkey : va / pgsize / 512 ^ (2 + 1) = 0 := by
    unfold maxva at hva
    unfold pgsize
    omega
  rw [hkey]
  exact h.table.root

end Walk

end FogOS.Vm
