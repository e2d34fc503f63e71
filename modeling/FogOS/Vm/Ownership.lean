import FogOS.Vm.Pte

/-!
# The owners of physical pages

Every page of the allocator's range is given one owner. The free list holds exactly
the pages whose owner is `free`; what the other owners mean is said by the page
tables and the kernel structures that refer to the pages.
-/

namespace FogOS.Vm

open Function Library List

/-- The owner of a page: nobody, the free list, a use `t` outside the page tables, the table at a
depth and key under a root, or the user page `vpn` of an address space. -/
inductive Owner (τ : Type)
  | outside
  | free
  | held (t : τ)
  | node (root depth key : Nat)
  | frame (root vpn : Nat)

abbrev Owners (τ : Type) : Type := Nat → Owner τ

/-- The address is a page that `kfree` accepts. -/
def Link.InRange (L : Link) (pg : Nat) : Prop := pg % pgsize = 0 ∧ L.kend ≤ pg ∧ pg < phystop

instance (L : Link) (pg : Nat) : Decidable (L.InRange pg) := by
  unfold Link.InRange
  infer_instance

variable {pg : Nat}

theorem Link.InRange.pos {L : Link} (h : L.InRange pg) : 0 < pg := by
  have hlt := L.trampoline_lt
  have hend := h.2.1
  omega

theorem Link.InRange.lt {L : Link} (h : L.InRange pg) : pg < 2 ^ 32 := by
  have hstop := h.2.2
  unfold phystop kernbase at hstop
  omega

theorem Link.InRange.aligned {L : Link} (h : L.InRange pg) : pg % pgsize = 0 := h.1

theorem Link.InRange.pgrounddown_eq {L : Link} (h : L.InRange pg) : pgrounddown pg = pg := by
  have := h.1
  unfold pgrounddown pgsize at *
  omega

variable {τ : Type} {own own' own'' : Owners τ}

/-- The page is free, or a table under `r` at a depth in `D`, or a user page of `r` whose number is
in `V`. -/
def Owner.Part (r : Nat) (D V : Set Nat) : Owner τ → Prop
  | .free => True
  | .node r' d _ => r' = r ∧ d ∈ D
  | .frame r' v => r' = r ∧ v ∈ V
  | _ => False

theorem Owner.Part.mono {r : Nat} {D D' V V' : Set Nat} (hD : D ⊆ D') (hV : V ⊆ V') {o : Owner τ}
    (h : o.Part r D V) : o.Part r D' V' := by
  cases o with
  | free => trivial
  | node _ _ _ => exact ⟨h.1, hD h.2⟩
  | frame _ _ => exact ⟨h.1, hV h.2⟩
  | _ => exact h

/-- The page is free or a table under `r`: what building tables may change. -/
abbrev Owner.Scratch (r : Nat) : Owner τ → Prop := Owner.Part r Set.univ ∅

/-- The bytes of a page are the same in both memories. -/
def SamePage (mem mem' : Bytes) (pg : Nat) : Prop := ∀ i, i < pgsize → mem' (pg + i) = mem (pg + i)

theorem samePage_of_within {mem mem' : Bytes} {p q : Nat} (h : Bytes.Within p pgsize mem mem')
    (hp : p % pgsize = 0) (hq : q % pgsize = 0) (hne : p ≠ q) : SamePage mem mem' q := by
  intro i hi
  have := Bytes.pages_apart hp hq hne
  exact h _ (by omega)

section Steady

variable {mem mem' mem'' : Bytes} {S S' T T' : Owner τ → Prop}

/-- Pages outside `S` keep their owner and their bytes, and pages in `S` end in `T`. -/
structure Steady (S T : Owner τ → Prop) (own own' : Owners τ) (mem mem' : Bytes) : Prop where
  own_eq : ∀ q, ¬ S (own q) → own' q = own q
  same : ∀ q, q % pgsize = 0 → ¬ S (own q) → SamePage mem mem' q
  into : ∀ q, S (own q) → T (own' q)

theorem Steady.refl (hST : ∀ o, S o → T o) : Steady S T own own mem mem :=
  ⟨fun _ _ => rfl, fun _ _ _ _ _ => rfl, fun _ h => hST _ h⟩

section

variable (h : Steady S T own own' mem mem')

include h

/-- Two changes in a row. What the second one may touch was in `S` or did not exist before. -/
theorem Steady.trans {T'' : Owner τ → Prop}
    (h' : Steady S' T' own' own'' mem' mem'') (hS : ∀ q, S' (own q) → S (own q))
    (hT : ∀ o, T' o → T'' o) (hkeep : ∀ o, T o → ¬ S' o → T'' o) :
    Steady S T'' own own'' mem mem'' := by
  have hstill : ∀ q, ¬ S (own q) → ¬ S' (own' q) := by
    intro q hq
    rw [h.own_eq q hq]
    exact mt (hS q) hq
  refine ⟨fun q hq => ?_, fun q hal hq i hi => ?_, fun q hq => ?_⟩
  · rw [h'.own_eq q (hstill q hq), h.own_eq q hq]
  · rw [h'.same q hal (hstill q hq) i hi, h.same q hal hq i hi]
  · by_cases hq' : S' (own' q)
    · exact hT _ (h'.into q hq')
    · rw [h'.own_eq q hq']
      exact hkeep _ (h.into q hq) hq'

/-- Two changes of the same kind in a row. -/
theorem Steady.comp (h' : Steady S T own' own'' mem' mem'') : Steady S T own own'' mem mem'' :=
  h.trans h' (fun _ hq => hq) (fun _ ho => ho) fun _ ho _ => ho

theorem Steady.mono (hS : ∀ o, S o → S' o)
    (hT : ∀ o, T o → T' o) (hS' : ∀ o, S' o → T' o) : Steady S' T' own own' mem mem' := by
  refine ⟨fun q hq => h.own_eq q fun hs => hq (hS _ hs),
    fun q hal hq => h.same q hal fun hs => hq (hS _ hs), fun q hq => ?_⟩
  by_cases hs : S (own q)
  · exact hT _ (h.into q hs)
  · rw [h.own_eq q hs]
    exact hS' _ hq

/-- After the change, a page that was in `S` before gets another owner and other bytes. -/
theorem Steady.touch {x : Owner τ} (hpg : pg % pgsize = 0) (hS : S (own pg)) (hx : T x)
    (hmem : Bytes.Within pg pgsize mem' mem'') : Steady S T own (update own' pg x) mem mem'' := by
  have hne : ∀ q, ¬ S (own q) → q ≠ pg := fun q hq hqp => hq (by rwa [hqp])
  refine ⟨fun q hq => ?_, fun q hal hq i hi => ?_, fun q hq => ?_⟩
  · rw [update_of_ne (hne q hq), h.own_eq q hq]
  · rw [samePage_of_within hmem hpg hal (hne q hq).symm i hi, h.same q hal hq i hi]
  · by_cases hqp : q = pg
    · rw [hqp, update_self]
      exact hx
    · rw [update_of_ne hqp]
      exact h.into q hq

/-- After the change, a page that was in `S` before is written again. -/
theorem Steady.write (hpg : pg % pgsize = 0) (hS : S (own pg))
    (hmem : Bytes.Within pg pgsize mem' mem'') : Steady S T own own' mem mem'' := by
  have htouch := h.touch hpg hS (h.into pg hS) hmem
  rwa [update_eq_self] at htouch

/-- An owner that no page of `S` has or gets is the owner of the same pages. -/
theorem Steady.iff_of_foreign {o : Owner τ} (hS : ¬ S o) (hT : ¬ T o)
    (q : Nat) : own' q = o ↔ own q = o := by
  constructor
  · intro ho
    by_cases hs : S (own q)
    · exact absurd (by rw [← ho]; exact h.into q hs) hT
    · rw [← h.own_eq q hs, ho]
  · intro ho
    rw [h.own_eq q (by rwa [ho]), ho]

end

end Steady

/-- The free list is made of the free pages, and the owned pages are those of the range. -/
structure Heap (L : Link) (own : Owners τ) (s : Memory) : Prop where
  link : s.link = L
  range : ∀ pg, own pg = .outside ↔ ¬ L.InRange pg
  chain : ∃ l, s.mem.Chain s.freelist l ∧ l.Nodup ∧ ∀ pg, pg ∈ l ↔ own pg = .free

namespace Heap

variable {L : Link} {s s' : Memory}

section

variable (h : Heap L own s)

include h

theorem inRange (hown : own pg ≠ .outside) : L.InRange pg := by
  by_contra hno
  exact hown ((h.range pg).mpr hno)

theorem range_update {x : Owner τ} (hpg : L.InRange pg)
    (hout : x ≠ .outside) (q : Nat) : update own pg x q = .outside ↔ ¬ L.InRange q := by
  by_cases hq : q = pg
  · rw [hq, update_self]
    exact iff_of_false hout (not_not_intro hpg)
  · rw [update_of_ne hq]
    exact h.range q

/-- A list of free pages is still threaded after a change in another page. -/
theorem chain_within {mem : Bytes} {head : Nat} {l : List Nat}
    (hpg : L.InRange pg) (hmem : Bytes.Within pg pgsize s.mem mem) (hc : s.mem.Chain head l)
    (hl : ∀ q ∈ l, own q = .free) (hnot : pg ∉ l) : mem.Chain head l := by
  refine hc.congr fun q hq => ?_
  have hqr : L.InRange q := h.inRange (by rw [hl q hq]; exact nofun)
  have hne : pg ≠ q := fun he => hnot (he ▸ hq)
  exact hmem.getLE_page hpg.aligned hqr.aligned hne (le_refl q) (by unfold pgsize; omega)

/-- Only the links in the free pages matter. -/
theorem congr (hlink : s'.link = s.link) (hlist : s'.freelist = s.freelist)
    (hmem : ∀ q, own q = .free → s'.mem.getLE q 8 = s.mem.getLE q 8) : Heap L own s' := by
  obtain ⟨l, hc, hnd, hl⟩ := h.chain
  refine ⟨hlink.trans h.link, h.range, l, ?_, hnd, hl⟩
  rw [hlist]
  exact hc.congr fun q hq => hmem q ((hl q).mp hq)

/-- A page that is not on the free list may be written. -/
theorem write (hpg : pg % pgsize = 0) (hfree : own pg ≠ .free)
    (hlink : s'.link = s.link) (hlist : s'.freelist = s.freelist)
    (hmem : Bytes.Within pg pgsize s.mem s'.mem) : Heap L own s' := by
  refine h.congr hlink hlist fun q hq => ?_
  have hqr : L.InRange q := h.inRange (by rw [hq]; exact nofun)
  have hne : pg ≠ q := fun he => hfree (by rw [he, hq])
  exact hmem.getLE_page hpg hqr.aligned hne (le_refl q) (by unfold pgsize; omega)

theorem head_free (hne : s.freelist ≠ 0) : own s.freelist = .free := by
  obtain ⟨l, hc, -, hl⟩ := h.chain
  cases l with
  | nil => exact absurd hc hne
  | cons p l =>
    rw [hc.1]
    exact (hl p).mp mem_cons_self

theorem freelist_lt : s.freelist < 2 ^ 64 := by
  by_cases hz : s.freelist = 0
  · rw [hz]
    decide
  · have hrange := h.inRange (by rw [h.head_free hz]; exact nofun)
    exact lt_trans hrange.lt (by decide)

/-- Taking the first page off the free list. -/
theorem take (hne : s.freelist ≠ 0) {x : Owner τ} (hx : x ≠ .free) (hout : x ≠ .outside)
    (hlink : s'.link = s.link) (hlist : s'.freelist = s.mem.getLE s.freelist 8)
    (hmem : Bytes.Within s.freelist pgsize s.mem s'.mem) : Heap L (update own s.freelist x) s' := by
  have hpr : L.InRange s.freelist := h.inRange (by rw [h.head_free hne]; exact nofun)
  obtain ⟨l, hc, hnd, hl⟩ := h.chain
  cases l with
  | nil => exact absurd hc hne
  | cons p l =>
    obtain ⟨hp, _, hrest⟩ := hc
    rw [hp] at hlist hmem hpr ⊢
    obtain ⟨hpl, hnd'⟩ := nodup_cons.mp hnd
    refine ⟨hlink.trans h.link, h.range_update hpr hout, l, ?_, hnd', fun q => ?_⟩
    · rw [hlist]
      exact h.chain_within hpr hmem hrest (fun q hq => (hl q).mp (mem_cons_of_mem _ hq)) hpl
    · by_cases hq : q = p
      · rw [hq, update_self]
        exact iff_of_false hpl hx
      · rw [update_of_ne hq, ← hl q]
        simp [hq]

/-- Putting a page in front of the free list. -/
theorem give (hpg : L.InRange pg) (hfree : own pg ≠ .free) (hlink : s'.link = s.link)
    (hlist : s'.freelist = pg) (hnext : s'.mem.getLE pg 8 = s.freelist)
    (hmem : Bytes.Within pg pgsize s.mem s'.mem) : Heap L (update own pg .free) s' := by
  obtain ⟨l, hc, hnd, hl⟩ := h.chain
  have hpl : pg ∉ l := fun hm => hfree ((hl pg).mp hm)
  refine ⟨hlink.trans h.link, h.range_update hpg nofun, pg :: l, ⟨hlist, hpg.pos.ne', ?_⟩,
    nodup_cons.mpr ⟨hpl, hnd⟩, fun q => ?_⟩
  · rw [hnext]
    exact h.chain_within hpg hmem hc (fun q hq => (hl q).mp hq) hpl
  · by_cases hq : q = pg
    · rw [hq, update_self]
      exact iff_of_true mem_cons_self rfl
    · rw [update_of_ne hq, mem_cons, hl q]
      simp [hq]

/-- The refusals do not matter. -/
theorem refuse (bs : List Bool) : Heap L own { s with refusals := bs } :=
  ⟨h.link, h.range, h.chain⟩

end

end Heap

end FogOS.Vm
