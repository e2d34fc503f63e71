import FogOS.Vm.Copy

/-!
# Copies to read-only pages

`copyout` leaves the decision about a page to `walkaddr`, which looks at `PTE_V` and
`PTE_U` only. A page without `PTE_W`, such as the text of a program, is written like
any other.
-/

namespace FogOS.Vm

open Library Radix

section Writable

variable {s : Memory}

/-- Every accessible page of the `len` bytes at `va` has `PTE_W`, and the table does not map its
frame a second time without `PTE_W`. -/
structure Writable (mem : Bytes) (root va len : Nat) : Prop where
  flag : ∀ a pa flags, va ≤ a → a < va + len → a / pgsize < vpnMax →
    leafAt mem root (a / pgsize) = some (pa, flags) → flags &&& pteU ≠ 0 → flags &&& pteW ≠ 0
  shared : ∀ a pa w flags, va ≤ a → a < va + len → userPage mem root (a / pgsize) = some pa →
    w < vpnMax → leafAt mem root w = some (pa, flags) → flags &&& pteW ≠ 0

end Writable

section OnePage

/-- The root table of `onePage`, the two tables below it, and its frame. -/
def rootPage : Nat := kernbase

def midPage : Nat := kernbase + 1 * pgsize

def lowPage : Nat := kernbase + 2 * pgsize

def framePage : Nat := kernbase + 3 * pgsize

/-- A memory of zeros with the tables that map page 0 to `framePage`. -/
def onePageMem (flags : Nat) : Bytes :=
  ((Bytes.setLE (fun _ => 0) (rootPage + 8 * 0) 8 (pa2pte midPage ||| pteV)).setLE
    (midPage + 8 * 0) 8 (pa2pte lowPage ||| pteV)).setLE
    (lowPage + 8 * 0) 8 (pa2pte framePage ||| flags ||| pteV)

variable {flags i : Nat}

theorem entry_onePage {pg : Nat} (hpg : pg % pgsize = 0) (hi : i < 512) :
    entry (onePageMem flags) pg i =
      if pg = lowPage ∧ i = 0 then (pa2pte framePage ||| flags ||| pteV) % 2 ^ 64
      else if pg = midPage ∧ i = 0 then pa2pte lowPage ||| pteV
      else if pg = rootPage ∧ i = 0 then pa2pte midPage ||| pteV
      else 0 := by
  have hzero : entry (fun _ => 0) pg i = 0 := Bytes.getLE_zero fun _ _ _ => rfl
  rw [onePageMem, entry_setEntry _ _ (by decide) hpg (by decide) hi,
    entry_setEntry _ _ (by decide) hpg (by decide) hi,
    entry_setEntry _ _ (by decide) hpg (by decide) hi, hzero]
  rfl

theorem child_root (hi : i < 512) :
    child (onePageMem flags) rootPage i = if i = 0 then some midPage else none := by
  rw [child, entry_onePage (by decide) hi]
  by_cases h0 : i = 0
  · subst h0
    rw [if_neg (by decide), if_neg (by decide), if_pos (by decide), if_pos rfl]
    decide
  · simp [h0, decode_zero]

theorem child_mid (hi : i < 512) :
    child (onePageMem flags) midPage i = if i = 0 then some lowPage else none := by
  rw [child, entry_onePage (by decide) hi]
  by_cases h0 : i = 0
  · subst h0
    rw [if_neg (by decide), if_pos (by decide), if_pos rfl]
    decide
  · simp [h0, decode_zero]

theorem tableAt_one {k : Nat} :
    tableAt (onePageMem flags) rootPage 1 k = if k % 512 = 0 then some midPage else none := by
  have hnode : tableAt (onePageMem flags) rootPage 1 k =
      child (onePageMem flags) rootPage (k % 512) := rfl
  rw [hnode, child_root (Nat.mod_lt _ (by decide))]

theorem tableAt_two {k : Nat} :
    tableAt (onePageMem flags) rootPage 2 k =
      if k / 512 % 512 = 0 ∧ k % 512 = 0 then some lowPage else none := by
  have hnode : tableAt (onePageMem flags) rootPage 2 k =
      (tableAt (onePageMem flags) rootPage 1 (k / 512)).bind fun n =>
        child (onePageMem flags) n (k % 512) := rfl
  rw [hnode, tableAt_one]
  by_cases htop : k / 512 % 512 = 0
  · rw [if_pos htop, Option.bind_some, child_mid (Nat.mod_lt _ (by decide))]
    simp [htop]
  · simp [htop]

theorem leafAt_onePage {v : Nat} (hflags : flags < 1024) (hv : v < vpnMax) :
    leafAt (onePageMem flags) rootPage v =
      if v = 0 then some (framePage, flags ||| pteV) else none := by
  have hvpn : v < 2 ^ 26 := hv
  unfold leafAt
  rw [tableAt_two]
  by_cases hkey : v / 512 / 512 % 512 = 0 ∧ v / 512 % 512 = 0
  · have hsmall : v < 512 := by omega
    rw [if_pos hkey, Option.bind_some, entry_onePage (by decide) (by omega),
      Nat.mod_eq_of_lt hsmall]
    by_cases h0 : v = 0
    · have hlt := @pte_lt framePage flags (by decide) hflags
      rw [if_pos ⟨rfl, h0⟩, if_pos h0, Nat.mod_eq_of_lt hlt, decode_pte (by decide) hflags]
      rfl
    · simp [h0, decode_zero]
  · have h0 : v ≠ 0 := by
      rintro rfl
      exact hkey (by decide)
    rw [if_neg hkey, if_neg h0]
    rfl

theorem userPage_onePage {v pa : Nat} (hflags : flags < 1024)
    (h : userPage (onePageMem flags) rootPage v = some pa) : v = 0 ∧ pa = framePage := by
  obtain ⟨hv, f, hleaf, -⟩ := leafAt_of_userPage h
  rw [leafAt_onePage hflags hv] at hleaf
  split at hleaf
  · cases hleaf
    exact ⟨by assumption, rfl⟩
  · cases hleaf

/-- A page table that maps page 0 with the given flags and no other page. -/
def onePage (flags : Nat) (hflags : flags < 1024) : UserTable (onePageMem flags) where
  root := rootPage
  aligned := by decide
  table_ne _ h := by
    rw [tableAt_two] at h
    split at h
    · cases h
      decide
    · cases h
  page_ne hv h := by
    rw [leafAt_onePage hflags hv] at h
    split at h
    · cases h
      decide
    · cases h
  distinct hv hw := by
    rw [(userPage_onePage hflags hv).1, (userPage_onePage hflags hw).1]
  apart {v pa d k} hv hd _ htable := by
    rw [(userPage_onePage hflags hv).2] at htable
    match d, hd with
    | 0, _ =>
      cases htable
    | 1, _ =>
      rw [tableAt_one] at htable
      split at htable <;> cases htable
    | 2, _ =>
      rw [tableAt_two] at htable
      split at htable <;> cases htable

/-- The machine with the memory of `onePage` and no free pages. -/
def onePageMachine (L : Link) (flags : Nat) : Memory := ⟨L, onePageMem flags, 0, []⟩

/-- A kernel image of one page. -/
def smallLink : Link where
  kend := kernbase + pgsize
  trampoline := kernbase
  trampoline_aligned := by decide
  trampoline_pos := by decide
  trampoline_lt := by decide
  kend_le := by decide

/-- The flags of a writable data page. -/
def dataFlags : Nat := pteR ||| pteW ||| pteU

/-- The flags of a page of program text. -/
def textFlags : Nat := pteR ||| pteX ||| pteU

theorem onePage_writable : Writable (onePageMem dataFlags) rootPage 0 1 := by
  have hflags : dataFlags < 1024 := by decide
  have hset : (dataFlags ||| pteV) &&& pteW ≠ 0 := by decide
  refine ⟨fun a pa flags _ _ hmax hleaf _ => ?_, fun a pa w flags _ _ _ hmax hleaf => ?_⟩
  · rw [leafAt_onePage hflags hmax] at hleaf
    split at hleaf
    · cases hleaf
      exact hset
    · cases hleaf
  · rw [leafAt_onePage hflags hmax] at hleaf
    split at hleaf
    · cases hleaf
      exact hset
    · cases hleaf

end OnePage

end FogOS.Vm
