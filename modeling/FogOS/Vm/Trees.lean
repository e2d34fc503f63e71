import FogOS.Vm.Mappings

/-!
# Making and freeing page tables

`uvmcreate` makes a table without mappings, and `freewalk` gives the pages of a table
without mappings back to the free list.
-/

namespace FogOS.Vm

open Function Library Radix Nat

variable {τ : Type} {L : Link} {own own' : Owners τ} {r : Nat} {m : PMap} {s : Memory}

/-- A page that belongs to an address space has its root in place. -/
structure Rooted (own : Owners τ) : Prop where
  node : ∀ {q r d k}, own q = .node r d k → own r = .node r 0 0
  frame : ∀ {q r v}, own q = .frame r v → own r = .node r 0 0

section Uvmcreate

/-- A page of unused entries is a table without mappings. -/
theorem TableRep.empty {mem : Bytes} (hroot : own r = .node r 0 0)
    (honly : ∀ q d k, own q = .node r d k → q = r)
    (hempty : ∀ i, i < 512 → decode (entry mem r i) = none) : TableRep mem own r fun _ => none := by
  have hshape : ∀ {q d k}, own q = .node r d k → q = r ∧ d = 0 ∧ k = 0 := by
    intro q d k hq
    obtain rfl := honly q d k hq
    rw [hroot] at hq
    cases hq
    exact ⟨rfl, rfl, rfl⟩
  have hchild : ∀ i, i < 512 → child mem r i = none := by
    intro i hi
    rw [child, hempty i hi]
    rfl
  have hdepth : ∀ d k, tableAt mem r (d + 1) k = none := by
    intro d
    induction d with
    | zero =>
      intro k
      exact hchild (k % 512) (mod_lt _ (by decide))
    | succ d ih =>
      intro k
      have hup := ih (k / 512)
      unfold tableAt at hup ⊢
      rw [nodeAt_succ, hup, Option.bind_none]
  refine ⟨fun hq => ?_, fun {q d k} hd hk => ?_, fun {q d k i e} hq _ hi he => ?_,
    fun {q k i} hq _ => ?_, fun hv => absurd rfl hv⟩
  · obtain ⟨-, rfl, rfl⟩ := hshape hq
    decide
  · cases d with
    | zero =>
      obtain rfl : k = 0 := by omega
      refine ⟨fun hq => ?_, fun hq => ?_⟩
      · cases hq
        exact hroot
      · rw [honly q 0 0 hq]
        rfl
    | succ d =>
      rw [hdepth d k]
      refine iff_of_false (by simp) fun hq => ?_
      have := (hshape hq).2.1
      omega
  · obtain ⟨rfl, -⟩ := hshape hq
    rw [hempty i hi] at he
    cases he
  · have := (hshape hq).2.1
    omega

theorem uvmcreate_spec (h : Heap L own s) (hrooted : Rooted own) :
    Returns uvmcreate (fun p s' => (p = 0 ∧ Heap L own s' ∧ s'.mem = s.mem) ∨
      (own p = .free ∧ Rep L (update own p (.node p 0 0)) p (fun _ => none) s' ∧
        Bytes.Within p pgsize s.mem s'.mem)) s := by
  refine wp_seq (kalloc_spec h) fun p s₁ hp => ?_
  rw [wp_ite]
  rcases hp with ⟨rfl, hheap, hmem⟩ | ⟨hfree, hheap, hmem⟩
  · refine ⟨fun _ => ?_, fun hne => absurd rfl hne⟩
    exact Or.inl ⟨rfl, hheap, hmem⟩
  · have hpr : L.InRange p := h.inRange (by rw [hfree]; exact nofun)
    have hpos := hpr.pos
    refine ⟨fun hz => absurd hz (by omega), fun _ => ?_⟩
    have hfill := Bytes.within_fill s₁.mem p pgsize 0
    refine Or.inr ⟨hfree, ⟨?_, ?_⟩, hmem.trans hfill⟩
    · exact (hheap (.node p 0 0) nofun nofun).write hpr.aligned
        (by rw [update_self]; exact nofun) rfl rfl hfill
    · refine TableRep.empty (update_self _ _ _) (fun q d k hq => ?_) fun i hi => ?_
      · by_contra hqp
        rw [update_of_ne hqp] at hq
        have hroot := hrooted.node hq
        rw [hfree] at hroot
        cases hroot
      · rw [entry_zero _ _ hi, decode_zero]

end Uvmcreate

section Freewalk

theorem entry_of_samePage {mem mem' : Bytes} {q i : Nat} (h : SamePage mem mem' q) (hi : i < 512) :
    entry mem' q i = entry mem q i := by
  refine Bytes.getLE_congr fun a hlo hhi => ?_
  have hpage := h (a - q) (by unfold pgsize; omega)
  rwa [Nat.add_sub_cancel' (by omega)] at hpage

/-- The page is free or a table of `r` at depth `d` or below. -/
abbrev Owner.Below (r d : Nat) : Owner τ → Prop := Owner.Part r {e | d ≤ e} ∅

/-- What `freewalk` leaves: before the page itself was freed, the tree was in place with nothing
under the page. -/
structure Cut (L : Link) (own : Owners τ) (r d k pg : Nat) (mem : Bytes) (own₁ : Owners τ)
    (mem₁ : Bytes) (s' : Memory) : Prop where
  table : TableRep mem₁ own₁ r fun _ => none
  page : own₁ pg = .node r d k
  empty : ∀ j, j < 512 → decode (entry mem₁ pg j) = none
  heap : Heap L (update own₁ pg .free) s'
  within : Bytes.Within pg pgsize mem₁ s'.mem
  steady : Steady (Owner.Below r d) (Owner.Below r d) own own₁ mem mem₁

/-- The pages of the subtree are given back, and its entry in the table above is cleared. -/
theorem Cut.prune {d k i pg c : Nat} {own₁ : Owners τ} {mem mem₁ : Bytes} {s' : Memory}
    (h : Cut L own r (d + 1) (k * 512 + i) c mem own₁ mem₁ s') (hpg : own₁ pg = .node r d k)
    (hi : i < 512) :
    Rep L (update own₁ c .free) r (fun _ => none)
      { s' with mem := s'.mem.setLE (pg + 8 * i) 8 0 } := by
  have hne : pg ≠ c := by
    rintro rfl
    have hpage := h.page
    rw [hpg] at hpage
    cases hpage
  have hpg' : update own₁ c .free pg = .node r d k := by
    rw [update_of_ne hne, hpg]
  have hal : ∀ {q d k}, own₁ q = .node r d k → q ≠ c → q % pgsize = 0 := by
    intro q d k hq hqc
    refine (h.heap.inRange ?_).aligned
    rw [update_of_ne hqc, hq]
    exact nofun
  have hcr : L.InRange c := h.heap.inRange (by rw [update_self]; exact nofun)
  refine ⟨h.heap.write (hal hpg hne) (by rw [hpg']; exact nofun) rfl rfl (within_setEntry _ _ _ hi),
    h.table.prune hpg hi h.page h.empty nofun ?_ fun q d' k' j hq hqc hj hpos => ?_⟩
  · rw [entry_setEntry _ _ (hal hpg hne) (hal hpg hne) hi hi, if_pos ⟨rfl, rfl⟩]
    rfl
  · rw [entry_setEntry _ _ (hal hpg hne) (hal hq hqc) hi hj, if_neg hpos,
      entry_within h.within hcr.aligned (hal hq hqc) hqc.symm hj]

/-- What `freewalk` is to do at a table. -/
def FreesSubtree (L : Link) (r : Nat) (d : Nat) (op : Nat → Op Unit) : Prop :=
  ∀ {own : Owners τ} {s : Memory} {k pg : Nat}, Rep L own r (fun _ => none) s →
    own pg = .node r d k →
    Returns (op pg) (fun _ s' => ∃ own₁ mem₁, Cut L own r d k pg s.mem own₁ mem₁ s') s

/-- The loop of `freewalk` from entry `i` on, with the entries before it unused. -/
theorem freewalkLoop_spec {op : Nat → Op Unit} {d k pg n i : Nat}
    (hop : FreesSubtree (τ := τ) L r (d + 1) op) (h : Rep L own r (fun _ => none) s)
    (hpg : own pg = .node r d k) (hi : i + n = 512)
    (hdone : ∀ j, j < i → decode (entry s.mem pg j) = none) :
    Returns (freewalkLoop op pg n i) (fun _ s' => ∃ own', Rep L own' r (fun _ => none) s' ∧
      own' pg = .node r d k ∧ (∀ j, j < 512 → decode (entry s'.mem pg j) = none) ∧
      Steady (Owner.Below r d) (Owner.Below r d) own own' s.mem s'.mem) s := by
  induction n generalizing i own s with
  | zero =>
    obtain rfl : i = 512 := by omega
    exact ⟨own, h, hpg, hdone, Steady.refl fun _ h => h⟩
  | succ n ih =>
    have hlt : i < 512 := by omega
    have hpr := h.node_inRange hpg
    rw [freewalkLoop, Returns, wp_bind]
    change wp (if entry s.mem pg i &&& pteV ≠ 0 ∧ entry s.mem pg i &&& (pteR ||| pteW ||| pteX) = 0
      then _ else if entry s.mem pg i &&& pteV ≠ 0 then _ else _) _ _ s
    by_cases hv : entry s.mem pg i &&& pteV = 0
    · rw [if_neg fun hc => hc.1 hv, if_neg (not_not_intro hv)]
      refine ih h hpg (by omega) fun j hj => ?_
      by_cases hji : j = i
      · rw [hji]
        exact decode_eq_none.mpr hv
      · exact hdone j (by omega)
    · have hdec : decode (entry s.mem pg i) =
          some (pte2pa (entry s.mem pg i), pteFlags (entry s.mem pg i)) := if_neg hv
      have hd : d < 2 := by
        by_contra hge
        obtain rfl : d = 2 := by
          have := (h.table.shape hpg).1
          omega
        rw [h.table.leaf hpg hlt] at hdec
        cases hdec
      have hflags : pteFlags (entry s.mem pg i) = pteV := h.table.plain hpg hd hlt hdec
      have hplain : entry s.mem pg i &&& (pteR ||| pteW ||| pteX) = 0 := by
        rw [and_flag _ (by decide), hflags]
        decide
      have hchild := h.table.child_node hpg hd hlt hdec
      rw [if_pos ⟨hv, hplain⟩]
      refine wp_seq (hop h hchild) ?_
      rintro _ s₁ ⟨own₁, mem₁, hcut⟩
      have hnot : ¬ (own pg).Part r {e | d + 1 ≤ e} ∅ := by
        rw [hpg]
        rintro ⟨-, hle⟩
        exact absurd hle (by simp)
      have hpg₁ : own₁ pg = .node r d k := by rw [hcut.steady.own_eq pg hnot, hpg]
      have hne : pg ≠ pte2pa (entry s.mem pg i) := by
        intro he
        rw [← he, hpg] at hchild
        cases hchild
      have hcr := h.node_inRange hchild
      have hrep := hcut.prune hpg₁ hlt
      have hpg₂ : update own₁ (pte2pa (entry s.mem pg i)) .free pg = .node r d k := by
        rw [update_of_ne hne, hpg₁]
      refine wp_mono (ih hrep hpg₂ (by omega) fun j hj => ?_) ?_ fun _ he => he
      · rw [entry_setEntry _ _ hpr.aligned hpr.aligned hlt (by omega)]
        by_cases hji : j = i
        · rw [if_pos ⟨rfl, hji⟩]
          rfl
        · rw [if_neg fun hc => hji hc.2, entry_within hcut.within hcr.aligned hpr.aligned hne.symm
            (by omega), entry_of_samePage (hcut.steady.same pg hpr.aligned hnot) (by omega)]
          exact hdone j (by omega)
      · rintro _ s' ⟨own', hrep', hpage, hempty, hsteady⟩
        have hsub : ∀ o : Owner τ, o.Part r {e | d + 1 ≤ e} ∅ → o.Part r {e | d ≤ e} ∅ :=
          fun o ho => ho.mono (fun e he => le_of_succ_le he) (Set.Subset.refl _)
        have hcutd := (hcut.steady.mono hsub hsub fun o ho => ho).touch hcr.aligned
          (x := .free) (by rw [hchild]; exact ⟨rfl, le_succ d⟩) trivial hcut.within
        have hclear := hcutd.write hpr.aligned (by rw [hpg]; exact ⟨rfl, le_refl d⟩)
          (within_setEntry _ _ 0 hlt)
        exact ⟨own', hrep', hpage, hempty, hclear.comp hsteady⟩

/-- `freewalk` frees the subtree at a table, nested as deep as the tree. -/
theorem freewalk_frees {fuel d : Nat} (hfuel : d + fuel = 3) :
    FreesSubtree (τ := τ) L r d (freewalk fuel) := by
  induction fuel generalizing d with
  | zero =>
    intro own s k pg h hpg
    have := (h.table.shape hpg).1
    omega
  | succ fuel ih =>
    intro own s k pg h hpg
    refine wp_seq (freewalkLoop_spec (ih (by omega)) h hpg rfl fun j hj => absurd hj (by omega)) ?_
    rintro _ s₁ ⟨own₁, hrep, hpage, hempty, hsteady⟩
    refine wp_mono (kfree_spec hrep.heap (by rw [hpage]; exact nofun)
      (by rw [hpage]; exact nofun)) ?_ fun _ he => he
    rintro _ s' ⟨hheap, hwithin⟩
    exact ⟨own₁, s₁.mem, hrep.table, hpage, hempty, hheap, hwithin, hsteady⟩

/-- A root with no used entry is the only table. -/
theorem TableRep.only_root {mem : Bytes} (h : TableRep mem own r m)
    (hempty : ∀ j, j < 512 → decode (entry mem r j) = none) {q d k : Nat}
    (hq : own q = .node r d k) : q = r := by
  have hone : ∀ p k, own p ≠ .node r 1 k := by
    intro p k hp
    have hk : k < 512 := by simpa using (h.shape hp).2
    refine h.no_child h.root (by decide) hk (hempty k hk) p ?_
    have hkey : 0 * 512 + k = k := by omega
    rw [hkey]
    exact hp
  obtain ⟨hd, hk⟩ := h.shape hq
  match d, hd with
  | 0, _ =>
    obtain rfl : k = 0 := by omega
    exact h.unique hq h.root
  | 1, _ => exact absurd hq (hone q k)
  | 2, _ =>
    obtain ⟨p, hp, -⟩ := nodeAt_parent (h.tableAt_eq hq)
    exact absurd ((h.node (by decide) (key_div_lt hk)).mp hp) (hone p _)

theorem freewalk_spec (h : Rep L own r (fun _ => none) s) :
    Returns (freewalk freewalkDepth r) (fun _ s' => ∃ own', Heap L own' s' ∧
      Steady (Owner.Scratch r) (fun o => o = .free) own own' s.mem s'.mem) s := by
  refine wp_mono (freewalk_frees (d := 0) rfl h h.table.root) ?_ fun _ he => he
  rintro _ s' ⟨own₁, mem₁, hcut⟩
  have hal := (h.node_inRange h.table.root).aligned
  have huniv : ∀ o : Owner τ, o.Part r {e | 0 ≤ e} ∅ ↔ o.Part r Set.univ ∅ := by
    intro o
    have hset : {e : Nat | 0 ≤ e} = Set.univ := by
      simp
    rw [hset]
  have hsteady := (hcut.steady.mono (fun o => (huniv o).mp) (fun o => (huniv o).mp)
    fun o ho => ho).touch hal (x := .free) (by rw [h.table.root]; exact ⟨rfl, trivial⟩) trivial
    hcut.within
  refine ⟨_, hcut.heap, hsteady.own_eq, hsteady.same, fun q hq => ?_⟩
  by_cases hqr : q = r
  · rw [hqr, update_self]
  · have hpart := hsteady.into q hq
    rw [update_of_ne hqr] at hpart ⊢
    cases hown : own₁ q with
    | free => rfl
    | node r' d k =>
      rw [hown] at hpart
      obtain ⟨rfl, -⟩ := hpart
      exact absurd (hcut.table.only_root hcut.empty hown) hqr
    | frame r' v =>
      rw [hown] at hpart
      exact absurd hpart.2 (Set.notMem_empty v)
    | _ =>
      rw [hown] at hpart
      exact hpart.elim

end Freewalk

end FogOS.Vm
