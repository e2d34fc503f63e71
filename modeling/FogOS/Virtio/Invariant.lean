import FogOS.Virtio.Parts

/-!
# The invariant of the driver and the device

Every step of a thread and of the device keeps the parts of the invariant, and none of them fails
but for a status byte that reports an error.
-/

namespace FogOS.Virtio

open Function Library List

variable {T B : Type} [DecidableEq T]

/-- The thread is in the loop of `virtio_disk_intr`. -/
def Pc.serving : Pc B → Bool
  | .intrLoop | .intrEntry => true
  | _ => false

/-- The head of request `k`. -/
def headOf (sent : List Nat) (k : Nat) : Nat := sent.getD k 0

/-- What holds while a thread is at a place in the code. -/
def At (s : State T B) : Pc B → Prop
  | .sleepFree _ => (freeSet s.free).card < 3
  | .put c _ => s.disk c.b = true
  | .bump c idx => s.disk c.b = true ∧ s.availRing (s.sent.length % num) = idx.i0
  | .sleepBuf c _ _ => s.disk c.b = true
  | .finish c _ _ => s.disk c.b = false
  | .intrEntry => s.consumed < s.published
  | _ => True

/-- The rings hold the requests that are on their way, and the 16-bit counters are the numbers of
requests. -/
structure Rings (s : State T B) : Prop where
  avail : Ring.Holds num s.availRing s.sent s.taken
  used : Ring.Holds num s.usedRing (s.finished.map (headOf s.sent)) s.consumed
  availIdx : s.availIdx = s.sent.length % 2 ^ 16
  devAvail : s.devAvail = s.taken % 2 ^ 16
  devUsed : s.devUsed = s.finished.length % 2 ^ 16
  usedIdx : s.usedIdx = s.published % 2 ^ 16
  usedSeen : s.usedSeen = s.consumed % 2 ^ 16
  consumed_le : s.consumed ≤ s.published
  published_le : s.published ≤ s.finished.length

omit [DecidableEq T] in
theorem Rings.congr {s s' : State T B} (h : Rings s)
    (havail : (s'.availRing, s'.availIdx, s'.devAvail, s'.sent, s'.taken) =
      (s.availRing, s.availIdx, s.devAvail, s.sent, s.taken))
    (hused : (s'.usedRing, s'.usedIdx, s'.usedSeen, s'.devUsed, s'.finished, s'.published,
        s'.consumed) =
      (s.usedRing, s.usedIdx, s.usedSeen, s.devUsed, s.finished, s.published, s.consumed)) :
    Rings s' := by
  simp only [Prod.mk.injEq] at havail hused
  obtain ⟨h₁, h₂, h₃, h₄, h₅⟩ := havail
  obtain ⟨h₆, h₇, h₈, h₉, h₁₀, h₁₁, h₁₂⟩ := hused
  constructor
  · rw [h₁, h₄, h₅]
    exact h.avail
  · rw [h₆, h₁₀, h₄, h₁₂]
    exact h.used
  · rw [h₂, h₄, h.availIdx]
  · rw [h₃, h₅, h.devAvail]
  · rw [h₉, h₁₀, h.devUsed]
  · rw [h₇, h₁₁, h.usedIdx]
  · rw [h₈, h₁₂, h.usedSeen]
  · rw [h₁₁, h₁₂]
    exact h.consumed_le
  · rw [h₁₀, h₁₁]
    exact h.published_le

structure Inv (s : State T B) : Prop where
  locks : Locks s.lock fun t => (s.pc t).locked
  bufs : Bufs s.busy fun t => (s.pc t).call
  owned : ∃ holders, Owners (Finset.range num) (freeSet s.free) (fun t => (s.pc t).owned) holders
  nodup : ∀ t idx, (s.pc t).idx = some idx → idx.toList.Nodup
  chains : ∀ t c idx, (s.pc t).chain = some (c, idx) → Chain s.desc s.ops s.info c idx
  requests : Requests (fun t => (s.pc t).request) s.disk s.sent s.taken s.pending s.finished
    s.consumed s.returned
  rings : Rings s
  places : ∀ t, At s (s.pc t)
  irq : s.consumed < s.published → s.irq = true ∨ ∃ t, (s.pc t).serving = true

section Projections

variable {α : Type*} (f : Pc B → α) (pc : T → Pc B) {t : T} {p : Pc B}

theorem proj_update (t : T) (p : Pc B) :
    (fun u => f (update pc t p u)) = update (fun u => f (pc u)) t (f p) := by
  funext u
  by_cases hu : u = t
  · subst hu
    simp
  · simp [hu]

theorem update_proj_same (hp : f p = f (pc t)) :
    update (fun u => f (pc u)) t (f p) = fun u => f (pc u) := by
  rw [hp]
  exact update_eq_self t _

theorem proj_update_same (hp : f p = f (pc t)) :
    (fun u => f (update pc t p u)) = fun u => f (pc u) := by
  rw [proj_update, update_proj_same f pc hp]

theorem forall_update {P : Pc B → Prop} (ht : P p) (hother : ∀ u, u ≠ t → P (pc u)) (u : T) :
    P (update pc t p u) := by
  by_cases hu : u = t
  · subst hu
    simpa using ht
  · simpa [hu] using hother u hu

end Projections

namespace Pc

variable {p : Pc B} {c : Call B} {idx : Idx}

theorem idx_of_chain (h : p.chain = some (c, idx)) : p.idx = some idx := by
  cases p <;> cases h <;> rfl

theorem call_of_chain (h : p.chain = some (c, idx)) : p.call = some c := by
  cases p <;> cases h <;> rfl

theorem chain_of_request {k : Nat} (h : p.request = some (c, idx, k)) :
    p.chain = some (c, idx) := by
  cases p <;> cases h <;> rfl

theorem owned_of_idx (h : p.idx = some idx) : p.owned = idx.toList.toFinset := by
  rw [owned, h]
  rfl

end Pc

namespace Inv

variable {s : State T B}

omit [DecidableEq T] in
theorem owned_card (h : Inv s) {holders : Finset T}
    (hown : Owners (Finset.range num) (freeSet s.free) (fun t => (s.pc t).owned) holders) :
    ∀ t ∈ holders, (s.pc t).owned.card = 3 := by
  intro t ht
  have hne := (hown.mem_holders t).1 ht
  cases hidx : (s.pc t).idx with
  | none =>
    rw [Pc.owned, hidx] at hne
    exact absurd rfl hne
  | some idx =>
    rw [Pc.owned_of_idx hidx, toFinset_card_of_nodup (h.nodup t idx hidx)]
    rfl

omit [DecidableEq T] in
/-- Three descriptors for each thread that has some, and the others are free. -/
theorem exists_holders (h : Inv s) : ∃ holders : Finset T,
    (∀ t, t ∈ holders ↔ (s.pc t).idx ≠ none) ∧ (freeSet s.free).card + 3 * holders.card = num := by
  obtain ⟨holders, hown⟩ := h.owned
  refine ⟨holders, fun t => ?_, ?_⟩
  · rw [hown.mem_holders, Pc.owned]
    cases (s.pc t).idx with
    | none => simp
    | some idx => simp [Idx.toList]
  · rw [hown.card (h.owned_card hown), Finset.card_range]

/-- At most two requests are in flight. -/
theorem not_three (h : Inv s) (k₁ k₂ k₃ : Nat) (h₁₂ : k₁ ≠ k₂) (h₁₃ : k₁ ≠ k₃) (h₂₃ : k₂ ≠ k₃)
    (hk : ∀ k ∈ [k₁, k₂, k₃], ∃ t c idx, (s.pc t).request = some (c, idx, k)) : False := by
  obtain ⟨holders, hmem, hcard⟩ := h.exists_holders
  simp only [forall_mem_cons, not_mem_nil, false_imp_iff, implies_true, and_true] at hk
  obtain ⟨⟨t₁, c₁, i₁, ht₁⟩, ⟨t₂, c₂, i₂, ht₂⟩, t₃, c₃, i₃, ht₃⟩ := hk
  have hholder {t : T} {c : Call B} {idx : Idx} {k : Nat} (ht : (s.pc t).request = some (c, idx, k)) :
      t ∈ holders := by
    rw [hmem, Pc.idx_of_chain (Pc.chain_of_request ht)]
    nofun
  have hne {t u : T} {c d : Call B} {idx jdx : Idx} {k l : Nat}
      (ht : (s.pc t).request = some (c, idx, k)) (hu : (s.pc u).request = some (d, jdx, l))
      (hkl : k ≠ l) : t ≠ u := by
    rintro rfl
    rw [ht] at hu
    cases hu
    exact hkl rfl
  have hsub : ({t₁, t₂, t₃} : Finset T) ⊆ holders := by
    intro t ht
    simp only [Finset.mem_insert, Finset.mem_singleton] at ht
    rcases ht with rfl | rfl | rfl
    · exact hholder ht₁
    · exact hholder ht₂
    · exact hholder ht₃
  have hle := Finset.card_le_card hsub
  rw [Finset.card_eq_three.2
    ⟨t₁, t₂, t₃, hne ht₁ ht₂ h₁₂, hne ht₁ ht₃ h₁₃, hne ht₂ ht₃ h₂₃, rfl⟩] at hle
  simp only [num] at hcard
  omega

theorem sent_le (h : Inv s) : s.sent.length ≤ s.taken + 2 := by
  by_contra hlt
  have hcaller {k : Nat} (hge : s.taken ≤ k) (hk : k < s.sent.length) :
      ∃ t c idx, (s.pc t).request = some (c, idx, k) := by
    refine h.requests.caller k hk fun hmem => ?_
    exact absurd (h.requests.lt_taken (mem_of_mem_take hmem)) (Nat.not_lt_of_le hge)
  refine h.not_three s.taken (s.taken + 1) (s.taken + 2) (by omega) (by omega) (by omega)
    fun k hk => ?_
  simp only [mem_cons, not_mem_nil, or_false] at hk
  exact hcaller (by omega) (by omega)

theorem finished_le (h : Inv s) : s.finished.length ≤ s.consumed + 2 := by
  by_contra hlt
  have hnodup := h.requests.finished_nodup
  have hcaller {n : Nat} (hge : s.consumed ≤ n) (hn : n < s.finished.length) :
      ∃ t c idx, (s.pc t).request = some (c, idx, s.finished[n]) := by
    have htaken := h.requests.lt_taken (getElem_mem hn)
    refine h.requests.caller _ (lt_of_lt_of_le htaken h.requests.taken_le) fun hmem => ?_
    obtain ⟨m, hm, heq⟩ := mem_iff_getElem.1 hmem
    rw [getElem_take] at heq
    have hmn := (hnodup.getElem_inj_iff).1 heq
    rw [length_take] at hm
    omega
  have hne {m n : Nat} (hm : m < s.finished.length) (hn : n < s.finished.length) (hmn : m ≠ n) :
      s.finished[m] ≠ s.finished[n] := fun heq => hmn ((hnodup.getElem_inj_iff).1 heq)
  have h₀ : s.consumed < s.finished.length := by omega
  have h₁ : s.consumed + 1 < s.finished.length := by omega
  have h₂ : s.consumed + 2 < s.finished.length := by omega
  refine h.not_three s.finished[s.consumed] s.finished[s.consumed + 1] s.finished[s.consumed + 2]
    (hne h₀ h₁ (by omega)) (hne h₀ h₂ (by omega)) (hne h₁ h₂ (by omega)) fun k hk => ?_
  simp only [mem_cons, not_mem_nil, or_false] at hk
  rcases hk with rfl | rfl | rfl
  · exact hcaller (le_refl _) h₀
  · exact hcaller (Nat.le_add_right _ _) h₁
  · exact hcaller (Nat.le_add_right _ _) h₂

end Inv

end FogOS.Virtio
