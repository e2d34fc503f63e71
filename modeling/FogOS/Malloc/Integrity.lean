import FogOS.Malloc.Alloc

/-!
# Integrity of the heap

A program calls `malloc` and `free` in any order and writes to its blocks. The heap stays intact as
long as no request is so large that its number of bytes does not fit the `int` that `sbrk` takes.
-/

namespace FogOS.Malloc

open Block List Option Nat

section Fuel

variable {h : Heap} {fuel fuel' : Nat}

theorem freeLoop_mono {bp p q : Nat} (hle : fuel ≤ fuel') (hrun : freeLoop h bp fuel p = some q) :
    freeLoop h bp fuel' p = some q := by
  induction fuel generalizing p fuel' with
  | zero => cases hrun
  | succ fuel ih =>
    obtain ⟨fuel', rfl⟩ := exists_eq_succ_of_ne_zero
      (Nat.ne_of_gt (lt_of_lt_of_le (succ_pos _) hle))
    simp only [freeLoop] at hrun ⊢
    split_ifs at hrun ⊢
    · exact hrun
    · exact hrun
    · exact ih (le_of_succ_le_succ hle) hrun

theorem free_mono {ap : Nat} {h' : Heap} (hle : fuel ≤ fuel') (hrun : free fuel h ap = some h') :
    free fuel' h ap = some h' := by
  simp only [free, bind, bind_eq_some_iff] at hrun ⊢
  obtain ⟨p, hloop, hp⟩ := hrun
  exact ⟨p, freeLoop_mono hle hloop, hp⟩

theorem morecore_mono {answer : Int → Option Nat} {nu : Nat} {r : Heap × Nat × Call}
    (hle : fuel ≤ fuel') (hrun : morecore fuel answer h nu = some r) :
    morecore fuel' answer h nu = some r := by
  simp only [morecore] at hrun ⊢
  split at hrun
  · exact hrun
  · simp only [bind, bind_eq_some_iff] at hrun ⊢
    obtain ⟨h', hfree, hr⟩ := hrun
    exact ⟨h', free_mono hle hfree, hr⟩

theorem mallocLoop_mono {sbrk : Sbrk} {n prevp p : Nat} {calls : List Call}
    {r : Heap × Nat × List Call} (hle : fuel ≤ fuel')
    (hrun : mallocLoop sbrk n fuel h prevp p calls = some r) :
    mallocLoop sbrk n fuel' h prevp p calls = some r := by
  induction fuel generalizing h prevp p calls fuel' with
  | zero => cases hrun
  | succ fuel ih =>
    obtain ⟨fuel', rfl⟩ := exists_eq_succ_of_ne_zero
      (Nat.ne_of_gt (lt_of_lt_of_le (succ_pos _) hle))
    have hle' := le_of_succ_le_succ hle
    simp only [mallocLoop] at hrun ⊢
    by_cases hlarge : (h.mem p).size ≥ n
    · simp only [if_pos hlarge] at hrun ⊢
      exact hrun
    · simp only [if_neg hlarge] at hrun ⊢
      by_cases hp : p = h.freep
      · simp only [if_pos hp] at hrun ⊢
        cases hmore : morecore fuel (sbrk calls) h n with
        | none =>
          rw [hmore] at hrun
          cases hrun
        | some m =>
          rw [hmore] at hrun
          rw [morecore_mono hle' hmore]
          simp only at hrun ⊢
          split_ifs at hrun ⊢
          · exact hrun
          · exact ih hle' hrun
      · simp only [if_neg hp] at hrun ⊢
        exact ih hle' hrun

end Fuel

/-- The heap, the blocks that the program has, and the regions that `sbrk` has returned. -/
structure World where
  heap : Heap
  live : List Block
  regions : List Region

/-- Before the first call of `malloc`. -/
def World.init (mem : Nat → Header) : World := ⟨⟨mem, 0⟩, [], []⟩

/-- The world after `malloc` has returned `p`. -/
def World.afterMalloc (w : World) (h : Heap) (p : Nat) (calls : List Call) : World where
  heap := h
  live := if p = 0 then w.live else ⟨p - 16, (h.mem (p - 16)).size⟩ :: w.live
  regions := grants calls ++ w.regions

/-- What a program may do: ask for memory, with requests in `P`; free a block that it has; and write
to a unit of such a block behind the header. -/
inductive Step (base : Nat) (P : UInt32 → Prop) (w : World) : World → Prop
  | malloc {nbytes : UInt32} {sbrk : Sbrk} {fuel : Nat} {h : Heap} {p : Nat} {calls : List Call}
      (hP : P nbytes) (hsound : SbrkSound base w.regions sbrk)
      (hrun : malloc base fuel sbrk w.heap nbytes = some (h, p, calls)) :
      Step base P w (w.afterMalloc h p calls)
  | free {b : Block} {fuel : Nat} {h : Heap} (hb : b ∈ w.live)
      (hrun : free fuel w.heap (b.addr + 16) = some h) :
      Step base P w { w with heap := h, live := w.live.erase b }
  | store {b : Block} {a : Nat} (v : Header) (hb : b ∈ w.live) (haligned : 16 ∣ a)
      (hlow : b.addr + 16 ≤ a) (hhigh : a < b.stop) :
      Step base P w { w with heap := w.heap.set a v }

/-- The worlds that a program reaches. -/
def Reaches (base : Nat) (P : UInt32 → Prop) (mem : Nat → Header) : World → Prop :=
  Relation.ReflTransGen (Step base P) (World.init mem)

/-- The bytes of the request fit the `int` that `sbrk` takes. -/
def Fits (nbytes : UInt32) : Prop := nunits nbytes * 16 < 2 ^ 31

instance : DecidablePred Fits := fun _ => inferInstanceAs (Decidable (_ < _))

/-- Nothing has been set up yet, or the heap is intact. -/
def World.Sane (base : Nat) (w : World) : Prop :=
  w.heap.freep = 0 ∧ w.live = [] ∧ w.regions = [] ∨ ∃ bs, Intact base w.heap bs w.live w.regions

section Steps

variable {base : Nat} {w w' : World}

theorem intact_initialise (hbase : 0 < base) (h : w.Sane base) :
    ∃ bs, Intact base (initialise base w.heap) bs w.live w.regions := by
  rcases h with ⟨hfreep, hlive, hregions⟩ | ⟨bs, hi⟩
  · rw [initialise, if_pos hfreep, hlive, hregions]
    refine ⟨[], ⟨⟨?_, trivial⟩, forall_mem_singleton.2 ?_⟩, mem_singleton.2 rfl,
      pairwise_singleton _ _, nofun, nofun, .nil, nofun, rfl, by decide⟩
    · exact congrArg Header.ptr (w.heap.set_mem_self _ _)
    · exact congrArg Header.size (w.heap.set_mem_self _ _)
  · rw [initialise, if_neg (hi.freep_ne_zero hbase)]
    exact ⟨bs, hi⟩

/-- `malloc` returns, for every answer of `sbrk`. -/
theorem malloc_served (hbase : 0 < base) (h : w.Sane base) {nbytes : UInt32} {sbrk : Sbrk}
    (hfits : Fits nbytes) (hsound : SbrkSound base w.regions sbrk) :
    ∃ fuel h' p calls, malloc base fuel sbrk w.heap nbytes = some (h', p, calls) ∧
      calls.length ≤ 1 ∧ Served base (nunits nbytes) w.live (grants calls ++ w.regions) h' p := by
  obtain ⟨bs, hi⟩ := intact_initialise hbase h
  exact ⟨_, hi.mallocLoop_served hbase hsound (succ_pos _) hfits (le_refl _)⟩

theorem sane_afterMalloc {n : Nat} {h : Heap} {p : Nat} {calls : List Call}
    (hserved : Served base n w.live (grants calls ++ w.regions) h p) :
    (w.afterMalloc h p calls).Sane base := by
  rcases hserved with ⟨rfl, bs, hi⟩ | ⟨b, rfl, -, bs, hi⟩
  · exact .inr ⟨bs, hi⟩
  · refine .inr ⟨bs, ?_⟩
    have hsize := hi.size b mem_cons_self
    have hlive : (w.afterMalloc h (b.addr + 16) calls).live = b :: w.live := by
      simp only [World.afterMalloc, Nat.add_sub_cancel, hsize]
      rfl
    rw [hlive]
    exact hi

/-- A write to a live block, behind its header. -/
theorem Intact.after_store {h : Heap} {bs live : List Block} {regions : List Region} {b : Block}
    {a : Nat} (hi : Intact base h bs live regions) (v : Header) (hb : b ∈ live)
    (hlow : b.addr + 16 ≤ a) (hhigh : a < b.stop) : Intact base (h.set a v) bs live regions := by
  obtain ⟨hplaced_free, hplaced_live⟩ := forall_mem_append.1 hi.placed
  have hlow' : b.addr ≤ a := le_trans (Nat.le_add_right _ _) hlow
  have hlive : ∀ z ∈ live, z.addr ≠ a := by
    intro z hz
    by_cases hzb : z = b
    · subst hzb
      omega
    · have hapart := hi.live_apart.forall hz hb hzb
      exact addr_ne_of_apart hapart (hplaced_live z hz).pos hlow' hhigh
  have hfree : ∀ z ∈ (⟨base, 0⟩ :: bs : List Block), z.addr ≠ a := by
    refine forall_mem_cons.2 ⟨?_, fun z hz => ?_⟩
    · have := (hplaced_live b hb).above
      simp only
      omega
    · exact addr_ne_of_apart (hi.free_apart b hb z hz).symm (hplaced_free z hz).pos hlow' hhigh
  refine { hi with circular := ⟨hi.circular.linked.congr fun d hd => ?_, fun z hz => ?_⟩,
                   size := fun z hz => ?_ }
  · obtain ⟨z, hz, rfl⟩ := mem_map.1 hd
    exact congrArg Header.ptr (h.set_mem_of_ne v (hfree z hz))
  · rw [h.set_mem_of_ne v (hfree z hz)]
    exact hi.circular.size z hz
  · rw [h.set_mem_of_ne v (hlive z hz)]
    exact hi.size z hz

theorem free_live (h : w.Sane base) {b : Block} (hb : b ∈ w.live) :
    ∃ fuel h' bs, free fuel w.heap (b.addr + 16) = some h' ∧
      Intact base h' bs (w.live.erase b) w.regions := by
  rcases h with ⟨-, hlive, -⟩ | ⟨bs, hi⟩
  · rw [hlive] at hb
    cases hb
  · obtain ⟨h', bs', hrun, hi', -⟩ := (hi.perm (perm_cons_erase hb)).after_free (le_refl _)
    exact ⟨_, h', bs', hrun, hi'⟩

/-- Every step keeps the heap intact. -/
theorem Step.sane (hbase : 0 < base) (h : w.Sane base) (hstep : Step base Fits w w') :
    w'.Sane base := by
  cases hstep with
  | @malloc nbytes sbrk fuel h' p calls hfits hsound hrun =>
    obtain ⟨fuel', h'', p', calls', hrun', -, hserved⟩ := malloc_served hbase h hfits hsound
    have heq := (mallocLoop_mono (Nat.le_max_left fuel fuel') hrun).symm.trans
      (mallocLoop_mono (Nat.le_max_right fuel fuel') hrun')
    cases heq
    exact sane_afterMalloc hserved
  | @free b fuel h' hb hrun =>
    obtain ⟨fuel', h'', bs, hrun', hi⟩ := free_live h hb
    have heq := (free_mono (Nat.le_max_left fuel fuel') hrun).symm.trans
      (free_mono (Nat.le_max_right fuel fuel') hrun')
    cases heq
    exact .inr ⟨bs, hi⟩
  | @store b a v hb haligned hlow hhigh =>
    rcases h with ⟨-, hlive, -⟩ | ⟨bs, hi⟩
    · rw [hlive] at hb
      cases hb
    · exact .inr ⟨bs, hi.after_store v hb hlow hhigh⟩

theorem Reaches.sane (hbase : 0 < base) {mem : Nat → Header} (h : Reaches base Fits mem w) :
    w.Sane base := by
  induction h with
  | refl => exact .inl ⟨rfl, rfl, rfl⟩
  | tail _ hstep ih => exact hstep.sane hbase ih

end Steps

/-- In every world that a program reaches with requests that fit, the heap is intact once it has
been set up; `malloc` returns, with one call of `sbrk` at most, nothing or an aligned block that is
large enough and shares no byte with any other; and `free` of a live block returns. -/
theorem heap_integrity (base : Nat) (hbase : 0 < base) (mem : Nat → Header) (w : World)
    (h : Reaches base Fits mem w) :
    (w.heap.freep ≠ 0 → ∃ bs, Intact base w.heap bs w.live w.regions) ∧
    (∀ nbytes sbrk, Fits nbytes → SbrkSound base w.regions sbrk →
      ∃ fuel h' p calls, malloc base fuel sbrk w.heap nbytes = some (h', p, calls) ∧
        calls.length ≤ 1 ∧ (p ≠ 0 → 16 ∣ p ∧ ∃ b bs, p = b.addr + 16 ∧
          nbytes.toNat ≤ 16 * (b.size - 1) ∧
          Intact base h' bs (b :: w.live) (grants calls ++ w.regions))) ∧
    ∀ b ∈ w.live, ∃ fuel h', free fuel w.heap (b.addr + 16) = some h' := by
  have hsane := Reaches.sane hbase h
  refine ⟨fun hfreep => ?_, fun nbytes sbrk hfits hsound => ?_, fun b hb => ?_⟩
  · rcases hsane with ⟨hzero, -⟩ | hi
    · exact absurd hzero hfreep
    · exact hi
  · obtain ⟨fuel, h', p, calls, hrun, hcalls, hserved⟩ := malloc_served hbase hsane hfits hsound
    refine ⟨fuel, h', p, calls, hrun, hcalls, fun hp => ?_⟩
    rcases hserved with ⟨hzero, -⟩ | ⟨b, rfl, hsize, bs, hi⟩
    · exact absurd hzero hp
    · have haligned := (hi.placed b (by simp)).aligned
      refine ⟨Nat.dvd_add haligned (Nat.dvd_refl _), b, bs, rfl, ?_, hi⟩
      rw [hsize, nunits]
      omega
  · obtain ⟨fuel, h', bs, hrun, -⟩ := free_live hsane hb
    exact ⟨fuel, h', hrun⟩

/-- Memory of zeros. -/
def zeros : Nat → Header := fun _ => ⟨0, 0⟩

/-- A kernel that answers the first call with `a` if it is for `bytes`. -/
def answerOnce (bytes : Int) (a : Nat) : Sbrk := fun calls n =>
  if calls = [] ∧ n = bytes then some a else none

theorem sbrkSound_answerOnce {base a : Nat} {regions : List Region} {bytes : Int}
    (h : Granted base regions bytes a) : SbrkSound base regions (answerOnce bytes a) := by
  intro calls n d hd
  simp only [answerOnce] at hd
  split_ifs at hd with heq
  obtain ⟨rfl, rfl⟩ := heq
  cases hd
  exact h

/-- The world after a call of `malloc`, if the fuel is enough. -/
def World.mallocStep (w : World) (base fuel : Nat) (sbrk : Sbrk) (nbytes : UInt32) : Option World :=
  (malloc base fuel sbrk w.heap nbytes).map fun r => w.afterMalloc r.1 r.2.1 r.2.2

theorem Reaches.mallocStep {base fuel : Nat} {P : UInt32 → Prop} {mem : Nat → Header} {w w' : World}
    {sbrk : Sbrk} {nbytes : UInt32} (h : Reaches base P mem w) (hP : P nbytes)
    (hsound : SbrkSound base w.regions sbrk) (hrun : w.mallocStep base fuel sbrk nbytes = some w') :
    Reaches base P mem w' := by
  obtain ⟨r, hmalloc, rfl⟩ := map_eq_some_iff.1 hrun
  exact h.tail (.malloc hP hsound hmalloc)

/-- A program that asks for one byte. -/
theorem heap_integrity_one :
    ∃ w, Reaches 4096 Fits zeros w ∧ w.live = [⟨8192 + 16 * 4094, 2⟩] ∧
      ∃ bs, Intact 4096 w.heap bs w.live w.regions := by
  have hrun : ((World.init zeros).mallocStep 4096 5 (answerOnce 65536 8192) 1).any
      fun w => w.live = [⟨8192 + 16 * 4094, 2⟩] ∧ w.heap.freep ≠ 0 := by decide +kernel
  obtain ⟨w, hw, hlive⟩ := (Option.any_eq_true _ _).1 hrun
  obtain ⟨hlive, hfreep⟩ := of_decide_eq_true hlive
  have hreaches : Reaches 4096 Fits zeros w :=
    Reaches.mallocStep .refl (by decide) (sbrkSound_answerOnce (by decide)) hw
  exact ⟨w, hreaches, hlive, (heap_integrity 4096 (by decide) zeros w hreaches).1 hfreep⟩

/-- A request of `0xFFFFFFFF` bytes takes `2 ^ 28 + 1` units, for which `morecore` calls `sbrk(16)`;
the next region is then inside the block that the program has got. -/
theorem huge_request_overlaps :
    ∃ w, Reaches 4096 (fun _ => True) zeros w ∧ w.regions = [⟨8208, 65536⟩, ⟨8192, 16⟩] ∧
      w.live = [⟨8208 + 16 * 4094, 2⟩, ⟨8192, 2 ^ 28 + 1⟩] ∧ ¬w.live.Pairwise Apart := by
  have hrun₁ : ((World.init zeros).mallocStep 4096 5 (answerOnce 16 8192) 0xFFFFFFFF).any
      fun w₁ => w₁.regions = [⟨8192, 16⟩] ∧ (w₁.mallocStep 4096 5 (answerOnce 65536 8208) 1).any
        fun w₂ => w₂.regions = [⟨8208, 65536⟩, ⟨8192, 16⟩] ∧
          w₂.live = [⟨8208 + 16 * 4094, 2⟩, ⟨8192, 2 ^ 28 + 1⟩] := by decide +kernel
  obtain ⟨w₁, hw₁, h₁⟩ := (Option.any_eq_true _ _).1 hrun₁
  obtain ⟨hregions₁, hrun₂⟩ := of_decide_eq_true h₁
  obtain ⟨w₂, hw₂, h₂⟩ := (Option.any_eq_true _ _).1 hrun₂
  obtain ⟨hregions₂, hlive₂⟩ := of_decide_eq_true h₂
  have hreaches₁ : Reaches 4096 (fun _ => True) zeros w₁ :=
    Reaches.mallocStep .refl trivial (sbrkSound_answerOnce (by decide)) hw₁
  have hsound : SbrkSound 4096 w₁.regions (answerOnce 65536 8208) := by
    rw [hregions₁]
    exact sbrkSound_answerOnce (by decide)
  refine ⟨w₂, hreaches₁.mallocStep trivial hsound hw₂, hregions₂, hlive₂, ?_⟩
  rw [hlive₂]
  decide

end FogOS.Malloc
