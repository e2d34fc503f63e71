import FogOS.Library.Partial
import FogOS.Library.Radix
import FogOS.Library.Transition
import FogOS.Vm.Pte

/-!
# The memory a page table shows

A page table is a radix tree of tables of 512 entries, three levels deep, that is
read off physical memory. What a process can access through it is a partial memory:
the bytes of the pages whose leaf entries have `PTE_V` and `PTE_U`.
-/

namespace FogOS.Vm

open Library Radix Option Nat Bytes

/-- The number of pages below `MAXVA`. -/
def vpnMax : Nat := maxva / pgsize

section Tables

/-- Entry `i` of the table in the page `pg`. -/
def entry (mem : Bytes) (pg i : Nat) : Nat := mem.getLE (pg + 8 * i) 8

/-- The table that entry `i` of a table points to. -/
def child (mem : Bytes) (pg i : Nat) : Option Nat := (decode (entry mem pg i)).map Prod.fst

/-- The table at a depth under `root`, by the index bits above it. -/
def tableAt (mem : Bytes) (root : Nat) : Nat → Nat → Option Nat := nodeAt 512 (child mem) root

/-- The page and the flags in the leaf entry of page `v`. -/
def leafAt (mem : Bytes) (root v : Nat) : Option (Nat × Nat) :=
  (tableAt mem root 2 (v / 512)).bind fun pg => decode (entry mem pg (v % 512))

/-- Page `v` is below `MAXVA`, and its entry has `PTE_V` and `PTE_U`. -/
def Accessible (mem : Bytes) (root v : Nat) : Prop :=
  v < vpnMax ∧ ∃ pa flags, leafAt mem root v = some (pa, flags) ∧ flags &&& pteU ≠ 0

/-- The physical page that a process finds at page `v`. -/
def userPage (mem : Bytes) (root v : Nat) : Option Nat :=
  if v < vpnMax then
    (leafAt mem root v).bind fun e => if e.2 &&& pteU = 0 then none else some e.1
  else none

/-- The memory of the process. -/
def userMem (mem : Bytes) (root : Nat) : Partial := fun a =>
  (userPage mem root (a / pgsize)).map fun pa => mem (pa + a % pgsize)

end Tables

/-- A page table. Its pages and the pages it maps are not at physical address 0, where there is
no memory; `walk` and `walkaddr` return 0 for failure. -/
structure PageTable (mem : Bytes) where
  root : Nat
  aligned : root % pgsize = 0
  table_ne : ∀ {k pg}, k < 512 ^ 2 → tableAt mem root 2 k = some pg → pg ≠ 0
  page_ne : ∀ {v pa flags}, v < vpnMax → leafAt mem root v = some (pa, flags) → pa ≠ 0

/-- A page table in which distinct user pages map to distinct frames, none of them a table. -/
structure UserTable (mem : Bytes) extends PageTable mem where
  distinct : ∀ {v w pa}, userPage mem root v = some pa → userPage mem root w = some pa → v = w
  apart : ∀ {v pa d k}, userPage mem root v = some pa → d ≤ 2 → k < 512 ^ d →
    tableAt mem root d k ≠ some pa

section Access

variable {mem : Bytes} {root v a : Nat}

theorem accessible_iff : Accessible mem root v ↔ (userPage mem root v).isSome := by
  unfold Accessible userPage
  by_cases hv : v < vpnMax
  · rw [if_pos hv]
    cases hleaf : leafAt mem root v with
    | none => simp
    | some e =>
      by_cases hu : e.2 &&& pteU = 0
      · have hno : ¬ ∃ pa flags, some e = some (pa, flags) ∧ flags &&& pteU ≠ 0 := by
          rintro ⟨pa, flags, he, hflags⟩
          cases he
          exact hflags hu
        simp only [bind_some, if_pos hu, isSome_none, Bool.false_eq_true, iff_false]
        exact fun h => hno h.2
      · simp only [bind_some, if_neg hu, isSome_some, iff_true]
        exact ⟨hv, e.1, e.2, rfl, hu⟩
  · simp [hv]

theorem userMem_isSome : (userMem mem root a).isSome ↔ Accessible mem root (a / pgsize) := by
  rw [accessible_iff, userMem, isSome_map]

theorem leafAt_of_userPage {pa : Nat} (h : userPage mem root v = some pa) :
    v < vpnMax ∧ ∃ flags, leafAt mem root v = some (pa, flags) ∧ flags &&& pteU ≠ 0 := by
  unfold userPage at h
  split at h
  · rename_i hv
    obtain ⟨e, hleaf, he⟩ := bind_eq_some_iff.mp h
    split at he
    · cases he
    · rename_i hu
      cases he
      exact ⟨hv, e.2, hleaf, hu⟩
  · cases h

theorem PageTable.userPage_ne {pa : Nat} (pt : PageTable mem) (h : userPage mem pt.root v = some pa) :
    pa ≠ 0 := by
  obtain ⟨hv, flags, hleaf, -⟩ := leafAt_of_userPage h
  exact pt.page_ne hv hleaf

theorem pte2pa_aligned (pte : Nat) : pte2pa pte % pgsize = 0 := by
  have hpa := pte2pa_eq pte
  unfold pgsize at *
  omega

theorem decode_aligned {pte : Nat} {e : Nat × Nat} (h : decode pte = some e) :
    e.1 % pgsize = 0 := by
  unfold decode at h
  split at h
  · cases h
  · cases h
    exact pte2pa_aligned pte

theorem leafAt_aligned {e : Nat × Nat} (h : leafAt mem root v = some e) : e.1 % pgsize = 0 := by
  obtain ⟨pg, -, hdec⟩ := bind_eq_some_iff.mp h
  exact decode_aligned hdec

theorem userPage_aligned {pa : Nat} (h : userPage mem root v = some pa) : pa % pgsize = 0 := by
  obtain ⟨-, flags, hleaf, -⟩ := leafAt_of_userPage h
  exact leafAt_aligned hleaf

theorem tableAt_aligned (hroot : root % pgsize = 0) {d k pg : Nat}
    (h : tableAt mem root d k = some pg) : pg % pgsize = 0 := by
  cases d with
  | zero =>
    cases h
    exact hroot
  | succ d =>
    obtain ⟨p, -, hchild⟩ := nodeAt_parent h
    obtain ⟨e, hdec, rfl⟩ := map_eq_some_iff.mp hchild
    exact decode_aligned hdec

/-- A change inside one page is not seen in the table of another. -/
theorem entry_within {mem' : Bytes} {p q i : Nat} (h : Bytes.Within p pgsize mem mem')
    (hp : p % pgsize = 0) (hq : q % pgsize = 0) (hne : p ≠ q) (hi : i < 512) :
    entry mem' q i = entry mem q i :=
  h.getLE_page hp hq hne (le_add_right q _) (by unfold pgsize; omega)

theorem entry_zero (mem : Bytes) (pg : Nat) {i : Nat} (hi : i < 512) :
    entry (mem.fill pg pgsize 0) pg i = 0 :=
  getLE_fill_zero mem (le_add_right pg _) (by unfold pgsize; omega)

theorem within_setEntry (mem : Bytes) (pg v : Nat) {i : Nat} (hi : i < 512) :
    Bytes.Within pg pgsize mem (mem.setLE (pg + 8 * i) 8 v) :=
  within_setLE mem v (le_add_right pg _) (by unfold pgsize; omega)

/-- A store to an entry is seen at that entry only. -/
theorem entry_setEntry (mem : Bytes) {pg q i j : Nat} (v : Nat) (hpg : pg % pgsize = 0)
    (hq : q % pgsize = 0) (hi : i < 512) (hj : j < 512) :
    entry (mem.setLE (pg + 8 * i) 8 v) q j
      = if q = pg ∧ j = i then v % 2 ^ 64 else entry mem q j := by
  by_cases hqp : q = pg
  · by_cases hji : j = i
    · rw [if_pos ⟨hqp, hji⟩, hqp, hji]
      exact getLE_setLE_same mem _ 8 v
    · rw [if_neg fun h => hji h.2, hqp]
      exact getLE_setLE_disjoint (by omega)
  · rw [if_neg fun h => hqp h.1]
    exact entry_within (within_setEntry mem pg v hi) hpg hq (Ne.symm hqp) hj

end Access

/-- The tables under `root` are the same in both memories. -/
structure SameTables (root : Nat) (mem mem' : Bytes) : Prop where
  table : ∀ {d k}, d ≤ 2 → k < 512 ^ d → tableAt mem' root d k = tableAt mem root d k
  leaf : ∀ {v}, v < vpnMax → leafAt mem' root v = leafAt mem root v

namespace SameTables

variable {mem mem' mem'' : Bytes} {root v : Nat}

theorem refl : SameTables root mem mem := ⟨fun _ _ => rfl, fun _ => rfl⟩

theorem trans (h : SameTables root mem mem') (h' : SameTables root mem' mem'') :
    SameTables root mem mem'' :=
  ⟨fun hd hk => (h'.table hd hk).trans (h.table hd hk), fun hv => (h'.leaf hv).trans (h.leaf hv)⟩

theorem userPage_eq (h : SameTables root mem mem') (v : Nat) :
    userPage mem' root v = userPage mem root v := by
  unfold userPage
  by_cases hv : v < vpnMax
  · rw [if_pos hv, if_pos hv, h.leaf hv]
  · rw [if_neg hv, if_neg hv]

/-- A change inside a page that holds no table. -/
theorem of_within (hroot : root % pgsize = 0) {p : Nat} (hp : p % pgsize = 0)
    (hapart : ∀ {d k}, d ≤ 2 → k < 512 ^ d → tableAt mem root d k ≠ some p)
    (h : Bytes.Within p pgsize mem mem') : SameTables root mem mem' := by
  have hentry : ∀ {d k pg}, d ≤ 2 → k < 512 ^ d → tableAt mem root d k = some pg → ∀ i, i < 512 →
      entry mem' pg i = entry mem pg i := by
    intro d k pg hd hk hpg i hi
    refine entry_within h hp (tableAt_aligned hroot hpg) ?_ hi
    rintro rfl
    exact hapart hd hk hpg
  have htable : ∀ {d k}, d ≤ 2 → k < 512 ^ d → tableAt mem' root d k = tableAt mem root d k := by
    intro d k hd hk
    refine nodeAt_congr (D := 2) (by decide) (fun d k n hd hk hn i hi => ?_) hd hk
    rw [child, child, hentry (by omega) hk hn i hi]
  refine ⟨htable, fun {v} hv => ?_⟩
  have hkey : v / 512 < 512 ^ 2 := by
    unfold vpnMax maxva pgsize at hv
    omega
  unfold leafAt
  rw [htable (le_refl 2) hkey]
  cases hpg : tableAt mem root 2 (v / 512) with
  | none => rw [bind_none, bind_none]
  | some pg =>
    rw [bind_some, bind_some, hentry (le_refl 2) hkey hpg _ (by omega)]

end SameTables

/-- The page table in a memory with the same tables. -/
def UserTable.move {mem mem' : Bytes} (pt : UserTable mem) (h : SameTables pt.root mem mem') :
    UserTable mem' where
  root := pt.root
  aligned := pt.aligned
  table_ne hk hpg := pt.table_ne hk ((h.table (le_refl 2) hk).symm.trans hpg)
  page_ne hv hleaf := pt.page_ne hv ((h.leaf hv).symm.trans hleaf)
  distinct hv hw := pt.distinct ((h.userPage_eq _).symm.trans hv) ((h.userPage_eq _).symm.trans hw)
  apart hv hd hk hpg := pt.apart ((h.userPage_eq _).symm.trans hv) hd hk
    ((h.table hd hk).symm.trans hpg)

section Walk

variable {s : Memory} {pt : Nat} {va : Nat}

/-- A round of `walk` that does not allocate. -/
theorem walkLoop_succ (s : Memory) (va level pg : Nat) :
    walkLoop va false (level + 1) pg s =
      match child s.mem pg (px (level + 1) va) with
      | some c => walkLoop va false level c s
      | none => .ok (0, s) := by
  have hunfold : walkLoop va false (level + 1) pg s =
      (if entry s.mem pg (px (level + 1) va) &&& pteV ≠ 0 then
        walkLoop va false level (pte2pa (entry s.mem pg (px (level + 1) va)))
      else pure 0) s := by
    rfl
  rw [hunfold, child, decode]
  by_cases hv : entry s.mem pg (px (level + 1) va) &&& pteV = 0
  · rw [if_neg (not_not_intro hv), if_pos hv]
    rfl
  · rw [if_pos hv, if_neg hv]
    rfl

/-- Without allocation `walk` finds the leaf entry and changes nothing. -/
theorem walk_find (hva : va < maxva) :
    walk pt va false s = .ok (((tableAt s.mem pt 2 (va / pgsize / 512)).map fun pg =>
        pg + 8 * (va / pgsize % 512)).getD 0, s) := by
  have htop : px 2 va = va / pgsize / 512 / 512 := by
    rw [px_eq, Nat.div_div_eq_div_mul]
    unfold maxva at hva
    unfold pgsize
    omega
  have hmid : px 1 va = va / pgsize / 512 % 512 := by rw [px_eq, pow_one]
  have hlow : px 0 va = va / pgsize % 512 := by rw [px_eq, Nat.pow_zero, Nat.div_one]
  have hkey : va / pgsize / 512 / 512 % 512 = va / pgsize / 512 / 512 := by
    unfold maxva at hva
    unfold pgsize
    omega
  rw [walk, if_neg (by omega), walkLoop_succ, htop]
  rw [tableAt, nodeAt_succ, nodeAt_succ, nodeAt_zero, bind_some, hkey]
  cases child s.mem pt (va / pgsize / 512 / 512) with
  | none => rfl
  | some mid =>
    simp only [bind_some]
    rw [walkLoop_succ, hmid]
    cases child s.mem mid (va / pgsize / 512 % 512) with
    | none => rfl
    | some low =>
      simp only [map_some, getD_some, ← hlow]
      rfl

/-- `walkaddr` returns the physical page of an accessible address, and 0 otherwise. -/
theorem walkaddr_eq (pt : PageTable s.mem) (va : Nat) :
    walkaddr pt.root va s = .ok ((userPage s.mem pt.root (va / pgsize)).getD 0, s) := by
  have hvpn : va / pgsize < vpnMax ↔ va < maxva := by
    unfold vpnMax maxva pgsize
    omega
  unfold walkaddr userPage
  by_cases hva : maxva ≤ va
  · rw [if_pos hva, if_neg (by omega)]
    rfl
  · rw [if_neg hva, if_pos (by omega)]
    change (walk pt.root va false s >>= _) = _
    rw [walk_find (by omega), leafAt, ok_bind]
    cases htable : tableAt s.mem pt.root 2 (va / pgsize / 512) with
    | none => rfl
    | some pg =>
      have hkey : va / pgsize / 512 < 512 ^ 2 := by
        unfold maxva pgsize at *
        omega
      have hpos := pt.table_ne hkey htable
      have hne : pg + 8 * (va / pgsize % 512) ≠ 0 := by omega
      simp only [map_some, getD_some, if_neg hne, bind_some]
      change (if entry s.mem pg (va / pgsize % 512) &&& pteV = 0 then pure 0
        else if entry s.mem pg (va / pgsize % 512) &&& pteU = 0 then pure 0
        else pure (pte2pa (entry s.mem pg (va / pgsize % 512))) : Op Nat) s = _
      have hflag : entry s.mem pg (va / pgsize % 512) &&& pteU =
          pteFlags (entry s.mem pg (va / pgsize % 512)) &&& pteU :=
        and_flag _ (by decide)
      unfold decode
      by_cases hv : entry s.mem pg (va / pgsize % 512) &&& pteV = 0
      · rw [if_pos hv, if_pos hv]
        rfl
      · rw [if_neg hv, if_neg hv, bind_some]
        simp only [← hflag]
        split <;> rfl

end Walk

end FogOS.Vm
