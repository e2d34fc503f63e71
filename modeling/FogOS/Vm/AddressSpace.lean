import FogOS.Vm.UserSpace

/-!
# The address spaces of processes

`proc_pagetable` makes a page table with the trampoline and the trapframe page, and
`proc_freepagetable` frees it with all its user pages. A call that fails leaves every
page with the owner it had.
-/

namespace FogOS.Vm

open Function Library Radix Set Nat

def trampolineVpn : Nat := vpnMax - 1

def trapframeVpn : Nat := vpnMax - 2

/-- The pages above the user pages. -/
def topMap (L : Link) (trapframe : Nat) : PMap :=
  update (update (fun _ => none) trampolineVpn
    (some (L.trampoline, pteR ||| pteX ||| pteV))) trapframeVpn
      (some (trapframe, pteR ||| pteW ||| pteV))

theorem topMap_low (L : Link) (trapframe : Nat) {v : Nat} (h : v < maxPages) :
    topMap L trapframe v = none := by
  have hmax : maxPages < trapframeVpn := by decide
  have hmax' : trapframeVpn < trampolineVpn := by decide
  rw [topMap, update_of_ne (by omega), update_of_ne (by omega)]

variable {τ : Type} {L : Link} {own own' : Owners τ} {r : Nat} {top m : PMap} {s : Memory}

/-- The page is free. -/
abbrev Owner.IsFree (o : Owner τ) : Prop := o = .free

/-- No page belongs to `r`. -/
structure Unused (own : Owners τ) (r : Nat) : Prop where
  node : ∀ q d k, own q ≠ .node r d k
  frame : ∀ q v, own q ≠ .frame r v

theorem Rooted.unused (h : Rooted own) (hr : own r = .free) : Unused own r := by
  constructor
  · intro q d k hq
    have hroot := h.node hq
    rw [hr] at hroot
    cases hroot
  · intro q v hq
    have hroot := h.frame hq
    rw [hr] at hroot
    cases hroot

theorem Unused.isFree {D V : Set Nat} (h : Unused own r) {q : Nat} (hq : (own q).Part r D V) :
    (own q).IsFree := by
  cases hown : own q with
  | free => rfl
  | node r' d k =>
    rw [hown] at hq
    obtain ⟨rfl, -⟩ := hq
    exact absurd hown (h.node q d k)
  | frame r' v =>
    rw [hown] at hq
    obtain ⟨rfl, -⟩ := hq
    exact absurd hown (h.frame q v)
  | _ =>
    rw [hown] at hq
    exact hq.elim

/-- Pages that a new address space `r` takes were free. -/
theorem Steady.of_unused {mem mem' : Bytes} {D V : Set Nat} {T : Owner τ → Prop}
    (h : Steady (Owner.Part r D V) T own own' mem mem') (hr : Unused own r) :
    Steady Owner.IsFree T own own' mem mem' := by
  refine ⟨fun q hq => h.own_eq q fun hp => hq (hr.isFree hp),
    fun q hal hq => h.same q hal fun hp => hq (hr.isFree hp), fun q hq => h.into q ?_⟩
  rw [hq]
  trivial

/-- If every page that was taken is given back, the owners are as before. -/
theorem Steady.owners_eq {mem mem' : Bytes}
    (h : Steady Owner.IsFree Owner.IsFree own own' mem mem') : own' = own := by
  funext q
  by_cases hq : (own q).IsFree
  · rw [h.into q hq, hq]
  · exact h.own_eq q hq

section Free

/-- `uvmfree` of an address space without pages at the top. -/
theorem uvmfree_spec {sz : Nat} (h : Rep L own r m s)
    (hspace : Space own r (pages sz) (fun _ => none) m) (hsz : sz + (pgsize - 1) < 2 ^ 64) :
    Returns (uvmfree r sz) (fun _ s' => ∃ own', Heap L own' s' ∧
      Steady (Owner.Part r univ (Set.Ico 0 (pages sz))) Owner.IsFree own own' s.mem s'.mem)
      s := by
  have hmap : m.unmapRange 0 (pages sz) = fun _ => none := by
    funext w
    rw [PMap.unmapRange]
    by_cases hw : w < pages sz
    · rw [if_pos ⟨zero_le, hw⟩]
    · rw [if_neg (by omega), hspace.high (by omega)]
  refine wp_seq_when (S := fun _ s' =>
    Rep L (release own r 0 (pages sz)) r (m.unmapRange 0 (pages sz)) s' ∧
    Steady (Owner.Part r univ (Set.Ico 0 (pages sz))) (Owner.Scratch r) own
      (release own r 0 (pages sz)) s.mem s'.mem) ?_ ?_
  · rw [wp_ite]
    refine ⟨fun _ => ?_, fun hz => ?_⟩
    · have hcount : pgroundup sz / pgsize = pages sz - 0 := by
        rw [pgroundup_eq hsz, page_of_mul, Nat.sub_zero]
      rw [hcount]
      have htail := uvmunmap_tail h hspace zero_le
      rwa [zero_mul] at htail
    · have hnone : pages sz = 0 := by
        obtain rfl : sz = 0 := by omega
        decide
      rw [wp_pure, hnone, release_self, PMap.unmapRange_self, Ico_self]
      exact ⟨h, Steady.refl fun _ h => h⟩
  · rintro s₁ ⟨hrep, hsteady⟩
    rw [hmap] at hrep
    refine wp_mono (freewalk_spec hrep) ?_ fun _ he => he
    rintro _ s' ⟨own', hheap, hfree⟩
    exact ⟨own', hheap, hsteady.trans hfree
      (fun q hq => hq.mono (Set.Subset.refl _) (empty_subset _)) (fun o ho => ho)
      fun o ho hnot => absurd ho hnot⟩

/-- `uvmunmap` of one page without `do_free`. -/
theorem uvmunmap_page {v pg flags : Nat} (h : Rep L own r m s) (hv : v < vpnMax)
    (hm : m v = some (pg, flags)) (hflags : flags ≠ pteV) :
    Returns (uvmunmap r (v * pgsize) 1 false) (fun _ s' =>
      Rep L own r (update m v none) s' ∧
      Steady (Owner.Scratch r) (Owner.Scratch r) own own s.mem s'.mem) s := by
  have hmap : m.unmapRange v (v + 1) = update m v none := by
    rw [← PMap.unmapRange_succ (lt_succ_self v), PMap.unmapRange_self]
  have hloop := uvmunmapLoop_keep (n := vpnMax - v) h (le_succ v) (by omega) hv
    fun w hlo hhi => by
      obtain rfl : w = v := by omega
      exact ⟨pg, flags, hm, hflags⟩
  rw [uvmunmap_eq (by omega)]
  rwa [hmap] at hloop

theorem trampolineVa_eq : trampolineVa = trampolineVpn * pgsize := by decide

theorem trapframeVa_eq : trapframeVa = trapframeVpn * pgsize := by decide

end Free

section Make

/-- A new table under `p` in place of the free page `p`, without user pages. -/
structure Fresh (L : Link) (own : Owners τ) (s : Memory) (p : Nat) (m : PMap) (own' : Owners τ)
    (s' : Memory) : Prop where
  rep : Rep L own' p m s'
  frames : ∀ q v, own' q ≠ .frame p v
  steady : Steady (Owner.Scratch p) (Owner.Scratch p) own own' s.mem s'.mem

theorem Fresh.space {p : Nat} {s' : Memory} (h : Fresh L own s p m own' s') : Space own' p 0 m m :=
  ⟨fun hv => absurd hv (by omega), fun _ => rfl, fun hq => absurd hq (h.frames _ _)⟩

theorem Fresh.step {p : Nat} {m' : PMap} {own'' : Owners τ} {s' s'' : Memory}
    (h : Fresh L own s p m own' s') (hrep : Rep L own'' p m' s'')
    (hsteady : Steady (Owner.Scratch p) (Owner.Scratch p) own' own'' s'.mem s''.mem) :
    Fresh L own s p m' own'' s'' := by
  refine ⟨hrep, fun q v hq => h.frames q v ?_, h.steady.comp hsteady⟩
  have hforeign : ¬ (Owner.frame p v : Owner τ).Part p univ ∅ := fun hp =>
    notMem_empty v hp.2
  exact (hsteady.iff_of_foreign hforeign hforeign q).mp hq

/-- A table that is given up leaves every page with its old owner. -/
theorem Fresh.free {p : Nat} {s' : Memory} (h : Fresh L own s p (fun _ => none) own' s')
    (hp : Unused own p) :
    Returns (uvmfree p 0) (fun _ s'' => Heap L own s'' ∧
      Steady Owner.IsFree Owner.IsFree own own s.mem s''.mem) s' := by
  have hzero : pages 0 = 0 := by decide
  refine wp_mono (uvmfree_spec h.rep (by rw [hzero]; exact h.space) (by decide)) ?_ fun _ he => he
  rintro _ s'' ⟨own'', hheap, hsteady⟩
  rw [hzero, Ico_self] at hsteady
  have hall := (h.steady.trans hsteady (fun _ hq => hq) (fun _ ho => ho)
    fun _ ho hnot => absurd ho hnot).of_unused hp
  have heq := hall.owners_eq
  subst heq
  exact ⟨hheap, hall⟩

/-- `proc_pagetable` returns a table with the two pages at the top, or returns 0 and leaves every
page with its old owner. -/
theorem procPagetable_spec {tf : Nat} (h : Heap L own s) (hrooted : Rooted own)
    (htf : L.InRange tf) :
    Returns (procPagetable tf) (fun p s' =>
      (p = 0 ∧ Heap L own s' ∧ Steady Owner.IsFree Owner.IsFree own own s.mem s'.mem) ∨
      (own p = .free ∧ ∃ own', Fresh L own s p (topMap L tf) own' s')) s := by
  have hlt : trapframeVpn ≠ trampolineVpn := by decide
  have htramp : L.trampoline < 2 ^ 64 := by
    have hend := L.trampoline_lt
    have hstop := L.kend_le
    unfold phystop kernbase at hstop
    omega
  refine wp_seq (uvmcreate_spec h hrooted) fun p s₁ hp => ?_
  rw [wp_ite]
  rcases hp with ⟨rfl, hheap, hmem⟩ | ⟨hfree, hrep, hmem⟩
  · refine ⟨fun _ => ?_, fun hne => absurd rfl hne⟩
    exact Or.inl ⟨rfl, hheap, by rw [hmem]; exact Steady.refl fun _ h => h⟩
  · have hpr : L.InRange p := h.inRange (by rw [hfree]; exact nofun)
    have hpos := hpr.pos
    have hunused := hrooted.unused hfree
    refine ⟨fun hz => absurd hz (by omega), fun _ => ?_⟩
    have hstart : Steady (Owner.Scratch p) (Owner.Scratch p) own own s.mem s.mem :=
      Steady.refl fun _ h => h
    have hfresh : Fresh L own s p (fun _ => none) (update own p (.node p 0 0)) s₁ := by
      refine ⟨hrep, fun q v hq => ?_, hstart.touch hpr.aligned (by rw [hfree]; trivial)
        ⟨rfl, trivial⟩ hmem⟩
      by_cases hqp : q = p
      · rw [hqp, update_self] at hq
        cases hq
      · rw [update_of_ne hqp] at hq
        exact hunused.frame q v hq
    rw [wp_bind, wp_get, trampolineVa_eq, trapframeVa_eq, hrep.heap.link]
    refine wp_seq (mappages_page hrep (by decide) rfl (by decide) L.trampoline_aligned htramp) ?_
    rintro res s₂ ⟨own₂, hsteady₂, ⟨rfl, hrep₂⟩ | ⟨rfl, hrep₂⟩⟩
    · have hfresh₂ := hfresh.step hrep₂ hsteady₂
      have hnone : update (fun _ => none) trampolineVpn
          (some (L.trampoline, pteR ||| pteX ||| pteV)) trapframeVpn = (none : Option (Nat × Nat)) :=
        update_of_ne hlt _ _
      refine wp_seq (mappages_page hrep₂ (by decide) hnone (by decide) htf.aligned
        (lt_trans htf.lt (by decide))) ?_
      rintro res s₃ ⟨own₃, hsteady₃, ⟨rfl, hrep₃⟩ | ⟨rfl, hrep₃⟩⟩
      · exact Or.inr ⟨hfree, own₃, hfresh₂.step hrep₃ hsteady₃⟩
      · have hfresh₃ := hfresh₂.step hrep₃ hsteady₃
        refine wp_seq (uvmunmap_page hrep₃ (by decide) (update_self _ _ _) (by decide)) ?_
        rintro _ s₄ ⟨hrep₄, hsteady₄⟩
        rw [update_idem, update_eq_self_iff.mpr rfl] at hrep₄
        refine wp_seq ((hfresh₃.step hrep₄ hsteady₄).free hunused) fun _ s₅ hs₅ => ?_
        exact Or.inl ⟨rfl, hs₅⟩
    · refine wp_seq ((hfresh.step hrep₂ hsteady₂).free hunused) fun _ s₃ hs₃ => ?_
      exact Or.inl ⟨rfl, hs₃⟩

end Make

section Space

/-- The roots stay in place when only the pages of `r` change. -/
theorem Rooted.steady {mem mem' : Bytes} {D V : Set Nat} {T : Owner τ → Prop} (h : Rooted own)
    (hs : Steady (Owner.Part r D V) T own own' mem mem')
    (hT : ∀ o, T o → o.Part r univ univ)
    (hroot : ∀ q, (∃ d k, own' q = .node r d k) ∨ (∃ v, own' q = .frame r v) →
      own' r = .node r 0 0) : Rooted own' := by
  have hother : ∀ {q r' : Nat}, r' ≠ r → (∃ d k, own' q = .node r' d k) ∨ (∃ v, own' q = .frame r' v) →
      own' q = own q := by
    intro q r' hne hq
    refine hs.own_eq q fun hp => ?_
    have hinto := hT _ (hs.into q hp)
    rcases hq with ⟨d, k, hq⟩ | ⟨v, hq⟩
    · rw [hq] at hinto
      exact hne hinto.1
    · rw [hq] at hinto
      exact hne hinto.1
  have hkept : ∀ {r'}, r' ≠ r → own r' = .node r' 0 0 → own' r' = .node r' 0 0 := by
    intro r' hne hr'
    rw [hs.own_eq r' (by rw [hr']; exact fun hp => hne hp.1), hr']
  constructor
  · intro q r' d k hq
    by_cases hne : r' = r
    · subst hne
      exact hroot q (Or.inl ⟨d, k, hq⟩)
    · have hown := hother hne (Or.inl ⟨d, k, hq⟩)
      exact hkept hne (h.node (hown.symm.trans hq))
  · intro q r' v hq
    by_cases hne : r' = r
    · subst hne
      exact hroot q (Or.inr ⟨v, hq⟩)
    · have hown := hother hne (Or.inr ⟨v, hq⟩)
      exact hkept hne (h.frame (hown.symm.trans hq))

/-- The address space of a process in a memory, with the owners of all pages. -/
structure AddressSpace (τ : Type) (s : Memory) where
  own : Owners τ
  root : Nat
  sz : Nat
  trapframe : Nat
  map : PMap
  rooted : Rooted own
  rep : Rep s.link own root map s
  space : Space own root (pages sz) (topMap s.link trapframe) map
  held : ∃ t, own trapframe = .held t

/-- The address space after a change of its own pages only. -/
def AddressSpace.next {s s' : Memory} (p : AddressSpace τ s) {D D' V V' : Set Nat} {map : PMap}
    {sz : Nat} (hrep : Rep s.link own' p.root map s')
    (hspace : Space own' p.root (pages sz) (topMap s.link p.trapframe) map)
    (hs : Steady (Owner.Part p.root D V) (Owner.Part p.root D' V') p.own own' s.mem s'.mem) :
    AddressSpace τ s' where
  own := own'
  root := p.root
  sz := sz
  trapframe := p.trapframe
  map := map
  rooted := p.rooted.steady hs (fun _ ho => ho.mono (subset_univ _) (subset_univ _))
    fun _ _ => hrep.table.root
  rep := by rwa [hrep.heap.link]
  space := by rwa [hrep.heap.link]
  held := by
    obtain ⟨t, ht⟩ := p.held
    exact ⟨t, by rw [hs.own_eq _ (by rw [ht]; exact id), ht]⟩

end Space

end FogOS.Vm
