import FogOS.Vm.AddressSpace

/-!
# The first address space

`kinit` puts every page of the allocator's range on the free list. From there a
trapframe page and a page table make an address space without user pages.
-/

namespace FogOS.Vm

open Function Library Nat

variable {τ : Type} {L : Link} {own : Owners τ} {s : Memory}

/-- The owners after the `n` pages from `p` on are freed. -/
def freed (own : Owners τ) (p n : Nat) : Owners τ := fun q =>
  if p ≤ q ∧ q < p + n * pgsize ∧ q % pgsize = 0 then .free else own q

theorem freed_succ {p n : Nat} (hp : p % pgsize = 0) :
    freed (update own p .free) (p + pgsize) n = freed own p (n + 1) := by
  funext q
  unfold freed
  by_cases hq : q = p
  · subst hq
    rw [if_neg (by unfold pgsize; omega), update_self,
      if_pos ⟨le_refl q, by unfold pgsize; omega, hp⟩]
  · rw [update_of_ne hq]
    by_cases hin : p ≤ q ∧ q < p + (n + 1) * pgsize ∧ q % pgsize = 0
    · rw [if_pos hin, if_pos (by unfold pgsize at *; omega)]
    · rw [if_neg hin, if_neg (by unfold pgsize at *; omega)]

theorem freerangeLoop_spec {n p : Nat} (h : Heap L own s) (hp : p % pgsize = 0)
    (hown : ∀ q, p ≤ q → q < p + n * pgsize → q % pgsize = 0 → own q ≠ .free ∧ own q ≠ .outside) :
    Returns (freerangeLoop n p) (fun _ s' => Heap L (freed own p n) s') s := by
  induction n generalizing p own s with
  | zero =>
    have hsame : freed own p 0 = own := by
      funext q
      exact if_neg (by omega)
    rw [freerangeLoop, Returns, wp_pure, hsame]
    exact h
  | succ n ih =>
    obtain ⟨hfree, hout⟩ := hown p (le_refl p) (by unfold pgsize; omega) hp
    refine wp_seq (kfree_spec h hfree hout) ?_
    rintro _ s₁ ⟨hheap, -⟩
    rw [← freed_succ hp]
    refine ih hheap (by rw [add_mod_right, hp]) fun q hlo hhi hal => ?_
    rw [update_of_ne (by unfold pgsize at hlo; omega)]
    exact hown q (by omega) (by unfold pgsize at *; omega) hal

/-- The owners when all pages are free. -/
def allFree (L : Link) : Owners τ := fun q => if L.InRange q then .free else .outside

/-- `kinit` with an empty free list frees every page. -/
theorem kinit_spec (t : τ) (hlink : s.link = L) (hempty : s.freelist = 0) :
    Returns kinit (fun _ s' => Heap L (allFree (τ := τ) L) s') s := by
  have hheap : Heap L (fun q => if L.InRange q then .held t else .outside) s := by
    refine ⟨hlink, fun q => ?_, [], hempty, List.nodup_nil, fun q => ?_⟩
    · by_cases hq : L.InRange q
      · simp [hq]
      · simp [hq]
    · by_cases hq : L.InRange q
      · simp [hq]
      · simp [hq]
  have hstop : phystop < 2 ^ 32 := by decide
  have hend := L.kend_le
  have hround : pgroundup L.kend = (L.kend + (pgsize - 1)) / pgsize * pgsize := by
    rw [pgroundup, word, mod_eq_of_lt (by unfold pgsize; omega)]
  have hrange : ∀ q, L.InRange q ↔ pgroundup L.kend ≤ q ∧
      q < pgroundup L.kend + (phystop - pgroundup L.kend) / pgsize * pgsize ∧ q % pgsize = 0 := by
    have hal : phystop % pgsize = 0 := by decide
    unfold Link.InRange pgsize at *
    omega
  have hfreed : freed (fun q => if L.InRange q then .held t else .outside) (pgroundup L.kend)
      ((phystop - pgroundup L.kend) / pgsize) = allFree L := by
    funext q
    unfold freed allFree
    by_cases hq : L.InRange q
    · rw [if_pos ((hrange q).mp hq), if_pos hq]
    · rw [if_neg fun hc => hq ((hrange q).mpr hc), if_neg hq]
      exact if_neg hq
  unfold kinit freerange
  rw [Returns, wp_bind, wp_get, hlink, ← hfreed]
  refine freerangeLoop_spec hheap (by rw [hround, mul_mod_left]) fun q hlo hhi hal => ?_
  simp [(hrange q).mpr ⟨hlo, hhi, hal⟩]

/-- Start the allocator, and make an address space as `allocproc` does. Returns the page table. -/
def firstSpace : Op Nat := do
  kinit
  let trapframe ← kalloc
  if trapframe = 0 then pure 0 else procPagetable trapframe

/-- If there are enough pages, `firstSpace` makes an address space without user pages. -/
theorem firstSpace_spec (hempty : s.freelist = 0) :
    Returns firstSpace (fun r s' => r = 0 ∨ ∃ p : AddressSpace Unit s', p.root = r ∧ p.sz = 0) s := by
  refine wp_seq (kinit_spec () rfl hempty) fun _ s₁ hheap => ?_
  refine wp_seq (kalloc_spec hheap) fun tf s₂ htf => ?_
  rw [wp_ite]
  refine ⟨fun _ => Or.inl rfl, fun hne => ?_⟩
  obtain ⟨rfl, -⟩ | ⟨hfree, hheap₂, -⟩ := htf
  · exact absurd rfl hne
  · have hheld := hheap₂ (.held ()) nofun nofun
    have hnode : ∀ q, update (allFree s.link) tf (.held ()) q = .held () ∨
        update (allFree s.link) tf (.held ()) q = .free ∨
        update (allFree s.link) tf (.held ()) q = .outside := by
      intro q
      by_cases hq : q = tf
      · rw [hq, update_self]
        exact Or.inl rfl
      · rw [update_of_ne hq, allFree]
        split
        · exact Or.inr (Or.inl rfl)
        · exact Or.inr (Or.inr rfl)
    have hrooted : Rooted (update (allFree s.link) tf (.held ())) := by
      constructor
      · intro q r d k hq
        rcases hnode q with h | h | h <;> rw [h] at hq <;> cases hq
      · intro q r v hq
        rcases hnode q with h | h | h <;> rw [h] at hq <;> cases hq
    have htf : update (allFree s.link) tf (.held ()) tf = .held () :=
      update_self _ _ _
    refine wp_mono (procPagetable_spec hheld hrooted (hheld.inRange (by rw [htf]; exact nofun))) ?_
      fun _ he => he
    rintro r s' (⟨rfl, -⟩ | ⟨-, own', hfresh⟩)
    · exact Or.inl rfl
    · have hzero : pages 0 = 0 := by decide
      have hlink := hfresh.rep.heap.link
      refine Or.inr ⟨⟨own', r, 0, tf, topMap s.link tf,
        hrooted.steady hfresh.steady (fun _ ho => ho.mono (Set.subset_univ _) (Set.subset_univ _))
          fun _ _ => hfresh.rep.table.root, by rw [hlink]; exact hfresh.rep, ?_,
        (), ?_⟩, rfl, rfl⟩
      · rw [hlink, hzero]
        exact hfresh.space
      · rw [hfresh.steady.own_eq tf (by rw [htf]; exact id), htf]

/-- An address space that can grow by one page, if the memory has the pages for it. -/
theorem exists_space_of_run (hempty : s.freelist = 0)
    (hroot : (firstSpace s).toOption.map Prod.fst ≠ some 0)
    (hrun : ((firstSpace >>= fun r => growproc r 0 4096) s).toOption.map Prod.fst =
      some (0, 4096)) :
    ∃ (s₁ : Memory) (p : AddressSpace Unit s₁), p.sz = 0 ∧
      ∃ s', growproc p.root p.sz 4096 s₁ = .ok ((0, 4096), s') := by
  obtain ⟨r, s₁, hfirst, hspace⟩ := exists_ok_of_wp (firstSpace_spec hempty)
  rw [hfirst] at hroot
  obtain rfl | ⟨p, rfl, hsz⟩ := hspace
  · exact absurd rfl hroot
  · refine ⟨s₁, p, hsz, ?_⟩
    change ((firstSpace s >>= fun x => growproc x.1 0 4096 x.2).toOption.map Prod.fst) = _ at hrun
    rw [hfirst, ok_bind] at hrun
    rw [hsz]
    cases hgrow : growproc p.root 0 4096 s₁ with
    | error e =>
      rw [hgrow] at hrun
      cases hrun
    | ok x =>
      rw [hgrow] at hrun
      exact ⟨x.2, congrArg Except.ok (Prod.ext (Option.some.inj hrun) rfl)⟩

section Example

/-- A kernel image that leaves eight pages to the allocator. -/
def tightLink : Link where
  kend := phystop - 8 * pgsize
  trampoline := kernbase
  trampoline_aligned := kernbase_aligned
  trampoline_pos := le_refl kernbase
  trampoline_lt := by decide
  kend_le := by decide

def bootMemory : Memory := ⟨tightLink, fun _ => 0, 0, []⟩

theorem exists_firstSpace :
    ∃ (s : Memory) (p : AddressSpace Unit s), p.sz = 0 ∧
      ∃ s', growproc p.root p.sz 4096 s = .ok ((0, 4096), s') :=
  exists_space_of_run (s := bootMemory) rfl (by decide +kernel) (by decide +kernel)

end Example

end FogOS.Vm
