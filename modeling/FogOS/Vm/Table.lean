import FogOS.Vm.Ownership
import FogOS.Vm.Space

/-!
# Page tables as maps

A page table is a radix tree of tables of 512 entries, three levels deep. A table
represents a partial map from page numbers to a page address and flags: the tree is
read off the memory, each of its pages has one owner, and its leaf entries decode to
the map. Operations on other pages leave the map alone.
-/

namespace FogOS.Vm

open Function Library Radix Nat Option

/-- A map from virtual page numbers to the address of a page and the flags. -/
abbrev PMap : Type := Nat → Option (Nat × Nat)

variable {τ : Type} {own own' : Owners τ} {mem mem' : Bytes} {r : Nat} {m : PMap}

/-- The tables under the root `r` represent the map `m`. -/
structure TableRep (mem : Bytes) (own : Owners τ) (r : Nat) (m : PMap) : Prop where
  shape : ∀ {pg d k}, own pg = .node r d k → d ≤ 2 ∧ k < 512 ^ d
  node : ∀ {pg d k}, d ≤ 2 → k < 512 ^ d → (tableAt mem r d k = some pg ↔ own pg = .node r d k)
  plain : ∀ {pg d k i e}, own pg = .node r d k → d < 2 → i < 512 →
    decode (entry mem pg i) = some e → e.2 = pteV
  leaf : ∀ {pg k i}, own pg = .node r 2 k → i < 512 → decode (entry mem pg i) = m (k * 512 + i)
  mapped : ∀ {v}, m v ≠ none → v < vpnMax ∧ ∃ pg, own pg = .node r 2 (v / 512)

variable {d k pg i : Nat}

/-- A child of a table is the table at the key below. -/
theorem tableAt_child (h : tableAt mem r d k = some pg) (hi : i < 512) :
    tableAt mem r (d + 1) (k * 512 + i) = child mem pg i := nodeAt_child h hi

namespace TableRep

section

variable (h : TableRep mem own r m)

include h

theorem root : own r = .node r 0 0 :=
  (h.node (zero_le 2) (by decide)).mp rfl

/-- A key has one table. -/
theorem unique {p q : Nat} (hp : own p = .node r d k) (hq : own q = .node r d k) : p = q := by
  obtain ⟨hd, hk⟩ := h.shape hp
  exact some.inj (((h.node hd hk).mpr hp).symm.trans ((h.node hd hk).mpr hq))

/-- The table below an entry that is in use. -/
theorem child_node {e : Nat × Nat} (hpg : own pg = .node r d k) (hd : d < 2) (hi : i < 512)
    (he : decode (entry mem pg i) = some e) : own e.1 = .node r (d + 1) (k * 512 + i) := by
  obtain ⟨hd2, hk⟩ := h.shape hpg
  refine (h.node hd (key_child_lt hk hi)).mp ?_
  rw [tableAt_child ((h.node hd2 hk).mpr hpg) hi, child, he]
  rfl

/-- An entry that is not in use has nothing below. -/
theorem no_child (hpg : own pg = .node r d k) (hd : d < 2) (hi : i < 512)
    (he : decode (entry mem pg i) = none) (q : Nat) : own q ≠ .node r (d + 1) (k * 512 + i) := by
  intro hq
  obtain ⟨hd2, hk⟩ := h.shape hpg
  have hnode := (h.node hd (key_child_lt hk hi)).mpr hq
  rw [tableAt_child ((h.node hd2 hk).mpr hpg) hi, child, he] at hnode
  cases hnode

/-- The map is determined by the tables of the address space. -/
theorem congr (hown : ∀ pg d k, own' pg = .node r d k ↔ own pg = .node r d k)
    (hmem : ∀ pg d k i, own pg = .node r d k → i < 512 → entry mem' pg i = entry mem pg i) :
    TableRep mem' own' r m := by
  refine ⟨fun hpg => h.shape ((hown _ _ _).mp hpg), fun {pg d k} hd hk => ?_, ?_, ?_, ?_⟩
  · have hsame : tableAt mem' r d k = tableAt mem r d k := by
      refine nodeAt_congr (D := 2) (by decide) (fun d k n hd hk hn i hi => ?_) hd hk
      rw [child, child, hmem n d k i ((h.node (by omega) hk).mp hn) hi]
    rw [hsame, hown]
    exact h.node hd hk
  · intro pg d k i e hpg hd hi he
    rw [hown] at hpg
    rw [hmem pg d k i hpg hi] at he
    exact h.plain hpg hd hi he
  · intro pg k i hpg hi
    rw [hown] at hpg
    rw [hmem pg 2 k i hpg hi]
    exact h.leaf hpg hi
  · intro v hv
    obtain ⟨hlt, pg, hpg⟩ := h.mapped hv
    exact ⟨hlt, pg, (hown _ _ _).mpr hpg⟩

/-- A page with no table of `r` may change hands and be written. -/
theorem touch {L : Link} {x : Owner τ} (hrange : ∀ q, own q = .outside ↔ ¬ L.InRange q)
    (hpg : L.InRange pg) (hold : ∀ d k, own pg ≠ .node r d k) (hx : ∀ d k, x ≠ .node r d k)
    (hmem : Bytes.Within pg pgsize mem mem') : TableRep mem' (update own pg x) r m := by
  refine h.congr (fun q d k => ?_) fun q d k i hq hi => ?_
  · by_cases hqp : q = pg
    · rw [hqp, update_self]
      exact iff_of_false (hx d k) (hold d k)
    · rw [update_of_ne hqp]
  · have hqr : L.InRange q := by
      by_contra hno
      rw [(hrange q).mpr hno] at hq
      cases hq
    have hne : pg ≠ q := fun he => hold d k (by rw [he, hq])
    exact entry_within hmem hpg.aligned hqr.aligned hne hi

omit h in
theorem node_aligned {L : Link} (hrange : ∀ q, own q = .outside ↔ ¬ L.InRange q) {q : Nat}
    (hq : own q = .node r d k) : q % pgsize = 0 := by
  by_contra hno
  have hout := (hrange q).mpr fun hr => hno hr.aligned
  rw [hout] at hq
  cases hq

/-- A leaf entry is overwritten. -/
theorem setLeaf {L : Link} (hrange : ∀ q, own q = .outside ↔ ¬ L.InRange q)
    {v : Nat} (hpg : own pg = .node r 2 k) (hi : i < 512) (hv : v < 2 ^ 64)
    (hbound : decode v ≠ none → k * 512 + i < vpnMax) :
    TableRep (mem.setLE (pg + 8 * i) 8 v) own r (update m (k * 512 + i) (decode v)) := by
  have hin : ∀ {q d k}, own q = .node r d k → q % pgsize = 0 := node_aligned hrange
  have hentry : ∀ {q d k j}, own q = .node r d k → j < 512 →
      entry (mem.setLE (pg + 8 * i) 8 v) q j = if q = pg ∧ j = i then v else entry mem q j := by
    intro q d k j hq hj
    rw [entry_setEntry mem v (hin hpg) (hin hq) hi hj, mod_eq_of_lt hv]
  -- The tables above the leaves are not written.
  have hupper : ∀ {q d k j}, own q = .node r d k → d < 2 → j < 512 →
      entry (mem.setLE (pg + 8 * i) 8 v) q j = entry mem q j := by
    intro q d k j hq hd hj
    have hne : q ≠ pg := by
      rintro rfl
      rw [hpg] at hq
      cases hq
      omega
    rw [hentry hq hj, if_neg fun hc => hne hc.1]
  refine ⟨h.shape, fun {q d k} hd hk => ?_, ?_, ?_, ?_⟩
  · have hsame : tableAt (mem.setLE (pg + 8 * i) 8 v) r d k = tableAt mem r d k := by
      refine nodeAt_congr (D := 2) (by decide) (fun d k n hd hk hn j hj => ?_) hd hk
      rw [child, child, hupper ((h.node (by omega) hk).mp hn) hd hj]
    rw [hsame]
    exact h.node hd hk
  · intro q d k j e hq hd hj he
    rw [hupper hq hd hj] at he
    exact h.plain hq hd hj he
  · intro q k' j hq hj
    rw [hentry hq hj]
    by_cases hc : q = pg ∧ j = i
    · obtain ⟨rfl, rfl⟩ := hc
      rw [hpg] at hq
      cases hq
      rw [if_pos ⟨rfl, rfl⟩, update_self]
    · have hkey : k' * 512 + j ≠ k * 512 + i := by
        intro heq
        have hkk : k' = k := by omega
        rw [hkk] at hq
        exact hc ⟨h.unique hq hpg, by omega⟩
      rw [if_neg hc, update_of_ne hkey]
      exact h.leaf hq hj
  · intro u hu
    by_cases huv : u = k * 512 + i
    · rw [huv, update_self] at hu
      rw [huv]
      exact ⟨hbound hu, pg, by rw [hpg, key_div hi]⟩
    · rw [update_of_ne huv] at hu
      exact h.mapped hu

theorem tableAt_eq (hpg : own pg = .node r d k) : tableAt mem r d k = some pg := by
  obtain ⟨hd, hk⟩ := h.shape hpg
  exact (h.node hd hk).mpr hpg

/-- The tree after a change of one entry above the leaves. -/
theorem tableAt_setChild (hpg : own pg = .node r d k)
    (hi : i < 512) (hold : ∀ c, child mem pg i = some c → ∀ j, j < 512 → child mem c j = none)
    (hnew : ∀ c, child mem' pg i = some c → ∀ j, j < 512 → child mem' c j = none)
    (hsame : ∀ q d' k' j, own q = .node r d' k' → j < 512 →
      ¬ (d' = d + 1 ∧ k' = k * 512 + i) → ¬ (q = pg ∧ j = i) → entry mem' q j = entry mem q j)
    {d' k' : Nat} (hd' : d' ≤ 2) (hk' : k' < 512 ^ d') :
    tableAt mem' r d' k' =
      if d' = d + 1 ∧ k' = k * 512 + i then child mem' pg i else tableAt mem r d' k' := by
  refine nodeAt_setChild (D := 2) (by decide) hi (h.tableAt_eq hpg) (fun d₁ k₁ hd₁ hk₁ hn => ?_)
    hold hnew (fun d₁ k₁ q j hd₁ hk₁ hn hj hkey hpos => ?_) hd' hk'
  · have hown := (h.node hd₁ hk₁).mp hn
    rw [hpg] at hown
    cases hown
    exact ⟨rfl, rfl⟩
  · have hown := (h.node (by omega) hk₁).mp hn
    rw [child, child, hsame q d₁ k₁ j hown hj hkey hpos]

/-- A page `c` of unused entries is entered as the table below an unused entry. -/
theorem graft {c : Nat} (hpg : own pg = .node r d k)
    (hd : d < 2) (hi : i < 512) (hnone : decode (entry mem pg i) = none)
    (hfresh : ∀ d k, own c ≠ .node r d k)
    (hlink : decode (entry mem' pg i) = some (c, pteV))
    (hempty : ∀ j, j < 512 → decode (entry mem' c j) = none)
    (hsame : ∀ q d k j, own q = .node r d k → j < 512 → ¬ (q = pg ∧ j = i) →
      entry mem' q j = entry mem q j) :
    TableRep mem' (update own c (.node r (d + 1) (k * 512 + i))) r m := by
  obtain ⟨hd2, hk⟩ := h.shape hpg
  have hne : ∀ {q d k}, own q = .node r d k → q ≠ c := by
    rintro q d k hq rfl
    exact hfresh d k hq
  have hchild : child mem' pg i = some c := by
    rw [child, hlink]
    rfl
  have htree : ∀ {d' k'}, d' ≤ 2 → k' < 512 ^ d' → tableAt mem' r d' k' =
      if d' = d + 1 ∧ k' = k * 512 + i then some c else tableAt mem r d' k' := by
    intro d' k' hd' hk'
    rw [h.tableAt_setChild hpg hi ?_ ?_ (fun q d k j hq hj _ hpos => hsame q d k j hq hj hpos)
      hd' hk', hchild]
    · intro c' hc'
      rw [child, hnone] at hc'
      cases hc'
    · intro c' hc' j hj
      rw [hchild] at hc'
      cases hc'
      rw [child, hempty j hj]
      rfl
  refine ⟨fun {q d' k'} hq => ?_, fun {q d' k'} hd' hk' => ?_, fun {q d' k' j e} hq hd' hj he => ?_,
    fun {q k' j} hq hj => ?_, fun {v} hv => ?_⟩
  · by_cases hqc : q = c
    · rw [hqc, update_self] at hq
      cases hq
      exact ⟨hd, key_child_lt hk hi⟩
    · rw [update_of_ne hqc] at hq
      exact h.shape hq
  · rw [htree hd' hk']
    by_cases hkey : d' = d + 1 ∧ k' = k * 512 + i
    · obtain ⟨rfl, rfl⟩ := hkey
      rw [if_pos ⟨rfl, rfl⟩]
      by_cases hqc : q = c
      · rw [hqc, update_self]
        exact iff_of_true rfl rfl
      · rw [update_of_ne hqc]
        exact iff_of_false (fun he => hqc (some.inj he).symm) (h.no_child hpg hd hi hnone q)
    · rw [if_neg hkey, h.node hd' hk']
      by_cases hqc : q = c
      · rw [hqc, update_self]
        refine iff_of_false (hfresh d' k') fun he => hkey ?_
        cases he
        exact ⟨rfl, rfl⟩
      · rw [update_of_ne hqc]
  · by_cases hqc : q = c
    · rw [hqc, hempty j hj] at he
      cases he
    · rw [update_of_ne hqc] at hq
      by_cases hpos : q = pg ∧ j = i
      · rw [hpos.1, hpos.2, hlink] at he
        cases he
        rfl
      · rw [hsame q d' k' j hq hj hpos] at he
        exact h.plain hq hd' hj he
  · by_cases hqc : q = c
    · rw [hqc, update_self] at hq
      rw [hqc, hempty j hj]
      cases hq
      -- The range of a new leaf table was not mapped: it had no leaf table.
      by_contra hm
      obtain ⟨-, p, hp⟩ := h.mapped (Ne.symm hm)
      rw [key_div hj] at hp
      exact h.no_child hpg hd hi hnone p hp
    · rw [update_of_ne hqc] at hq
      have hpos : ¬ (q = pg ∧ j = i) := by
        rintro ⟨rfl, -⟩
        rw [hpg] at hq
        cases hq
        omega
      rw [hsame q 2 k' j hq hj hpos]
      exact h.leaf hq hj
  · obtain ⟨hlt, p, hp⟩ := h.mapped hv
    exact ⟨hlt, p, by rw [update_of_ne (hne hp), hp]⟩

/-- A table of unused entries is taken out, and the entry that led to it is cleared. -/
theorem prune {c : Nat} {x : Owner τ}
    (hpg : own pg = .node r d k) (hi : i < 512) (hc : own c = .node r (d + 1) (k * 512 + i))
    (hempty : ∀ j, j < 512 → decode (entry mem c j) = none) (hx : ∀ d k, x ≠ .node r d k)
    (hcut : decode (entry mem' pg i) = none)
    (hsame : ∀ q d k j, own q = .node r d k → q ≠ c → j < 512 → ¬ (q = pg ∧ j = i) →
      entry mem' q j = entry mem q j) :
    TableRep mem' (update own c x) r m := by
  have hcut' : child mem' pg i = none := by
    rw [child, hcut]
    rfl
  have hchild : child mem pg i = some c := by
    rw [← tableAt_child (h.tableAt_eq hpg) hi, h.tableAt_eq hc]
  have htree : ∀ {d' k'}, d' ≤ 2 → k' < 512 ^ d' → tableAt mem' r d' k' =
      if d' = d + 1 ∧ k' = k * 512 + i then none else tableAt mem r d' k' := by
    intro d' k' hd' hk'
    rw [h.tableAt_setChild hpg hi ?_ ?_ (fun q d k j hq hj hkey hpos => ?_) hd' hk', hcut']
    · intro c' hc' j hj
      rw [hchild] at hc'
      cases hc'
      rw [child, hempty j hj]
      rfl
    · intro c' hc'
      rw [hcut'] at hc'
      cases hc'
    · refine hsame q d k j hq ?_ hj hpos
      rintro rfl
      rw [hc] at hq
      cases hq
      exact hkey ⟨rfl, rfl⟩
  have hold : ∀ {q d' k'}, update own c x q = .node r d' k' → q ≠ c ∧ own q = .node r d' k' := by
    intro q d' k' hq
    by_cases hqc : q = c
    · rw [hqc, update_self] at hq
      exact absurd hq (hx d' k')
    · rw [update_of_ne hqc] at hq
      exact ⟨hqc, hq⟩
  refine ⟨fun {q d' k'} hq => h.shape (hold hq).2, fun {q d' k'} hd' hk' => ?_,
    fun {q d' k' j e} hq hd' hj he => ?_, fun {q k' j} hq hj => ?_, fun {v} hv => ?_⟩
  · rw [htree hd' hk']
    by_cases hkey : d' = d + 1 ∧ k' = k * 512 + i
    · obtain ⟨rfl, rfl⟩ := hkey
      rw [if_pos ⟨rfl, rfl⟩]
      refine iff_of_false (by simp) fun hq => ?_
      exact (hold hq).1 (h.unique (hold hq).2 hc)
    · rw [if_neg hkey, h.node hd' hk']
      refine ⟨fun hq => ?_, fun hq => (hold hq).2⟩
      have hqc : q ≠ c := by
        rintro rfl
        rw [hc] at hq
        cases hq
        exact hkey ⟨rfl, rfl⟩
      rw [update_of_ne hqc, hq]
  · obtain ⟨hqc, hq⟩ := hold hq
    by_cases hpos : q = pg ∧ j = i
    · rw [hpos.1, hpos.2, hcut] at he
      cases he
    · rw [hsame q d' k' j hq hqc hj hpos] at he
      exact h.plain hq hd' hj he
  · obtain ⟨hqc, hq⟩ := hold hq
    have hpos : ¬ (q = pg ∧ j = i) := by
      rintro ⟨rfl, -⟩
      rw [hpg] at hq
      cases hq
      have := (h.shape hc).1
      omega
    rw [hsame q 2 k' j hq hqc hj hpos]
    exact h.leaf hq hj
  · obtain ⟨hlt, p, hp⟩ := h.mapped hv
    refine ⟨hlt, p, ?_⟩
    have hpne : p ≠ c := by
      rintro rfl
      have hleaf := h.leaf hp (mod_lt v (show 0 < 512 by decide))
      rw [hempty _ (mod_lt v (by decide)), div_add_mod'] at hleaf
      exact hv hleaf.symm
    rw [update_of_ne hpne, hp]

/-- The map is what `walk` finds in the memory. -/
theorem leafAt_eq {v : Nat} (hv : v < vpnMax) : leafAt mem r v = m v := by
  have hkey : v / 512 < 512 ^ 2 := by
    unfold vpnMax maxva pgsize at hv
    omega
  have hmod : v % 512 < 512 := mod_lt _ (by decide)
  unfold leafAt
  cases htable : tableAt mem r 2 (v / 512) with
  | none =>
    by_contra hm
    obtain ⟨-, p, hp⟩ := h.mapped (Ne.symm hm)
    rw [h.tableAt_eq hp] at htable
    cases htable
  | some pg =>
    rw [bind_some, h.leaf ((h.node (le_refl 2) hkey).mp htable) hmod, div_add_mod']

end

end TableRep

end FogOS.Vm
