import FogOS.Library.Cycle
import FogOS.Malloc.Model

/-!
# The list of free blocks

The free blocks are a list of addresses and sizes, sorted by address, in which no two blocks touch.
Putting a block in joins it to its neighbours. Memory represents such a list as a circular list;
`free` represents the insertion.
-/

namespace FogOS.Malloc

open Library.Cycle List Nat Header Heap

/-- A block of `size` units. -/
structure Block where
  addr : Nat
  size : Nat
  deriving DecidableEq

namespace Block

/-- The address behind a block. -/
def stop (b : Block) : Nat := b.addr + 16 * b.size

/-- `a` is in front of `b` and does not touch it. -/
def Before (a b : Block) : Prop := a.stop < b.addr

/-- `a` and `b` share no byte. -/
def Apart (a b : Block) : Prop := a.stop ≤ b.addr ∨ b.stop ≤ a.addr

instance (a b : Block) : Decidable (Apart a b) := inferInstanceAs (Decidable (_ ∨ _))

theorem Apart.symm {a b : Block} (h : Apart a b) : Apart b a := Or.symm h

instance : Std.Symm Apart := ⟨fun _ _ => Apart.symm⟩

theorem Before.apart {a b : Block} (h : Before a b) : Apart a b := .inl h.le

theorem Before.trans {a b c : Block} (h : Before a b) (h' : Before b c) : Before a c := by
  simp only [Before, stop] at h h' ⊢
  omega

end Block

open Block

/-- The units of some blocks. -/
def units (bs : List Block) : Nat := (bs.map Block.size).sum

@[simp] theorem units_nil : units [] = 0 := rfl

@[simp] theorem units_cons (b : Block) (bs : List Block) : units (b :: bs) = b.size + units bs := by
  simp [units]

@[simp] theorem units_append (bs cs : List Block) : units (bs ++ cs) = units bs + units cs := by
  simp [units]

/-- A block is joined to the first of the blocks behind it if it touches that one. -/
def mergeNext (b : Block) : List Block → Block × List Block
  | [] => (b, [])
  | y :: post => if b.stop = y.addr then (⟨b.addr, b.size + y.size⟩, post) else (b, y :: post)

/-- `b` is put behind `x`, and joined to it if the two touch. -/
def mergePrev (x b : Block) : List Block :=
  if x.stop = b.addr then [⟨x.addr, x.size + b.size⟩] else [x, b]

/-- `b` is put between `x` and the blocks behind `x`. -/
def insertBlock (x b : Block) (post : List Block) : List Block :=
  mergePrev x (mergeNext b post).1 ++ (mergeNext b post).2

section Abstract

variable {x b z : Block} {pre post : List Block}

theorem units_mergeNext (b : Block) (post : List Block) :
    (mergeNext b post).1.size + units (mergeNext b post).2 = b.size + units post := by
  cases post with
  | nil => rfl
  | cons y post =>
    rw [mergeNext]
    split_ifs
    · rw [units_cons, add_assoc]
    · rfl

theorem units_insertBlock (x b : Block) (post : List Block) :
    units (insertBlock x b post) = x.size + b.size + units post := by
  have h := units_mergeNext b post
  rw [insertBlock, units_append, mergePrev]
  split_ifs
  · simp only [units_cons, units_nil]
    omega
  · simp only [units_cons, units_nil]
    omega

theorem mergeNext_addr (b : Block) (post : List Block) : (mergeNext b post).1.addr = b.addr := by
  cases post with
  | nil => rfl
  | cons y post =>
    rw [mergeNext]
    split_ifs <;> rfl

theorem mergeNext_suffix (b : Block) (post : List Block) : (mergeNext b post).2 <:+ post := by
  cases post with
  | nil => exact suffix_refl _
  | cons y post =>
    rw [mergeNext]
    split_ifs
    · exact suffix_cons _ _
    · exact suffix_refl _

/-- What holds of `b` and of the blocks behind it, and of two blocks that touch if it holds of both,
holds of the result. -/
theorem mergeNext_forall {P : Block → Prop}
    (hjoin : ∀ u v, u.stop = v.addr → P u → P v → P ⟨u.addr, u.size + v.size⟩) (hb : P b)
    (hpost : ∀ y ∈ post, P y) : P (mergeNext b post).1 ∧ ∀ y ∈ (mergeNext b post).2, P y := by
  cases post with
  | nil => exact ⟨hb, hpost⟩
  | cons y post =>
    obtain ⟨hy, hrest⟩ := forall_mem_cons.1 hpost
    rw [mergeNext]
    split_ifs with heq
    · exact ⟨hjoin b y heq hb hy, hrest⟩
    · exact ⟨hb, hpost⟩

theorem insertBlock_forall {P : Block → Prop}
    (hjoin : ∀ u v, u.stop = v.addr → P u → P v → P ⟨u.addr, u.size + v.size⟩) (hx : P x) (hb : P b)
    (hpost : ∀ y ∈ post, P y) : ∀ y ∈ insertBlock x b post, P y := by
  obtain ⟨hnext, hrest⟩ := mergeNext_forall hjoin hb hpost
  intro y hy
  rcases mem_append.1 hy with hy | hy
  · rw [mergePrev] at hy
    split_ifs at hy with heq
    · obtain rfl := mem_singleton.1 hy
      exact hjoin _ _ heq hx hnext
    · rcases mem_cons.1 hy with rfl | hy
      · exact hx
      · obtain rfl := mem_singleton.1 hy
        exact hnext
  · exact hrest y hy

/-- A block that shares no byte with two blocks that touch shares none with both together. -/
theorem apart_join (hz : 1 ≤ z.size) (u v : Block) (huv : u.stop = v.addr) (hu : Apart z u)
    (hv : Apart z v) : Apart z ⟨u.addr, u.size + v.size⟩ := by
  simp only [Apart, stop] at *
  omega

/-- The blocks behind `b` after the join are sorted with it. -/
theorem mergeNext_before (hpost : post.Pairwise Before) (hb : ∀ y ∈ post, b.stop ≤ y.addr)
    (hsize : ∀ y ∈ post, 1 ≤ y.size) :
    ∀ y ∈ (mergeNext b post).2, Before (mergeNext b post).1 y := by
  cases post with
  | nil => exact fun y hy => absurd hy not_mem_nil
  | cons z post =>
    obtain ⟨hz, -⟩ := pairwise_cons.1 hpost
    have hbz := hb z mem_cons_self
    rw [mergeNext]
    split_ifs with heq
    · intro y hy
      have h := hz y hy
      simp only [Before, stop] at h heq ⊢
      omega
    · intro y hy
      rcases mem_cons.1 hy with rfl | hy
      · exact lt_of_le_of_ne hbz heq
      · exact lt_of_le_of_lt hbz (lt_of_le_of_lt (Nat.le_add_right _ _) (hz y hy))

/-- The list stays sorted. -/
theorem insertBlock_sorted (hsorted : (pre ++ x :: post).Pairwise Before) (hxb : x.stop ≤ b.addr)
    (hb : ∀ y ∈ post, b.stop ≤ y.addr) (hsize : ∀ y ∈ post, 1 ≤ y.size) :
    (pre ++ insertBlock x b post).Pairwise Before := by
  obtain ⟨hpre, hrest, hcross⟩ := pairwise_append.1 hsorted
  obtain ⟨hx, hpost⟩ := pairwise_cons.1 hrest
  have hnext := mergeNext_before hpost hb hsize
  have haddr := mergeNext_addr b post
  have hsub : (mergeNext b post).2.Sublist post := (mergeNext_suffix b post).sublist
  have hfirst : (insertBlock x b post).Pairwise Before ∧
      ∀ a, Before a x → ∀ y ∈ insertBlock x b post, Before a y := by
    rw [insertBlock, mergePrev]
    split_ifs with heq
    · refine ⟨pairwise_cons.2 ⟨fun y hy => ?_, hpost.sublist hsub⟩, fun a ha y hy => ?_⟩
      · have h := hnext y hy
        simp only [Before, stop] at h heq ⊢
        omega
      · rcases mem_cons.1 hy with rfl | hy
        · exact ha
        · exact ha.trans (hx y (hsub.subset hy))
    · have hxn : Before x (mergeNext b post).1 := lt_of_le_of_ne (haddr ▸ hxb) heq
      refine ⟨pairwise_cons.2 ⟨fun y hy => ?_,
        pairwise_cons.2 ⟨hnext, hpost.sublist hsub⟩⟩, fun a ha y hy => ?_⟩
      · rcases mem_cons.1 hy with rfl | hy
        · exact hxn
        · exact hxn.trans (hnext y hy)
      · rcases mem_cons.1 hy with rfl | hy
        · exact ha
        · rcases mem_cons.1 hy with rfl | hy
          · exact ha.trans hxn
          · exact ha.trans (hxn.trans (hnext y hy))
  refine pairwise_append.2 ⟨hpre, hfirst.1, fun a ha y hy => ?_⟩
  exact hfirst.2 a (hcross a ha x mem_cons_self) y hy

end Abstract

/-- Memory has the blocks of `c` as a circular list, with their sizes. -/
structure Circular (mem : Nat → Header) (base : Nat) (c : List Block) : Prop where
  linked : Linked (fun a => (mem a).ptr) (c.map Block.addr) base
  size : ∀ b ∈ c, (mem b.addr).size = b.size

section Free

variable {h : Heap} {base : Nat} {c pre post : List Block} {x b a : Block}

/-- The address of the block behind `a`. -/
theorem Circular.ptr_eq (hc : Circular h.mem base (pre ++ a :: post)) :
    (h.mem a.addr).ptr = first (post.map Block.addr) base := by
  have hl := hc.linked
  rw [map_append, map_cons] at hl
  exact (linked_append.1 hl).2.1

theorem Circular.size_eq (hc : Circular h.mem base (pre ++ a :: post)) :
    (h.mem a.addr).size = a.size :=
  hc.size a (mem_append_right _ mem_cons_self)

/-- The blocks from `x` on are replaced by others, and the headers of the rest are as before. -/
theorem Circular.splice {h' : Heap} {y : Block} {mid mid' : List Block}
    (hc : Circular h.mem base (pre ++ x :: mid ++ post))
    (hother : ∀ z ∈ pre ++ post, h'.mem z.addr = h.mem z.addr) (hy : y.addr = x.addr)
    (hmid : Linked (fun a => (h'.mem a).ptr) ((y :: mid').map Block.addr)
      (first (post.map Block.addr) base))
    (hsize : ∀ z ∈ y :: mid', (h'.mem z.addr).size = z.size) :
    Circular h'.mem base (pre ++ y :: mid' ++ post) := by
  have hkeep {l : List Block} (hl : ∀ z ∈ l, z ∈ pre ++ post) :
      ∀ a ∈ l.map Block.addr, (h'.mem a).ptr = (h.mem a).ptr := by
    intro a ha
    obtain ⟨z, hz, rfl⟩ := mem_map.1 ha
    rw [hother z (hl z hz)]
  have hl := hc.linked
  rw [map_append, map_append, map_cons] at hl
  rw [map_cons, hy] at hmid
  refine ⟨?_, fun z hz => ?_⟩
  · rw [map_append, map_append, map_cons, hy]
    exact hl.splice hmid (hkeep fun _ => mem_append_left _) (hkeep fun _ => mem_append_right _)
  · by_cases hin : z ∈ pre ++ post
    · rw [hother z hin]
      refine hc.size z ?_
      rcases mem_append.1 hin with hin | hin <;> simp [hin]
    · refine hsize z ?_
      simp only [mem_append, not_or] at hz hin
      exact (hz.resolve_right hin.2).resolve_left hin.1

/-- The circular list from any of its blocks on. -/
theorem Circular.rotate {p : Nat} (hc : Circular h.mem base c)
    (hhead : first (c.map Block.addr) base = base) (hp : p ∈ c.map Block.addr) :
    ∃ w r, (w :: r).Perm c ∧ w.addr = p ∧
      Linked (fun a => (h.mem a).ptr) ((w :: r).map Block.addr) w.addr := by
  obtain ⟨w, hw, hwp⟩ := mem_map.1 hp
  obtain ⟨l₁, l₂, rfl⟩ := append_of_mem hw
  have hl := hc.linked
  rw [← hhead, map_append, map_cons] at hl
  refine ⟨w, l₂ ++ l₁, ?_, hwp, ?_⟩
  · rw [← cons_append]
    exact perm_append_comm
  · rw [map_cons, map_append]
    exact hl.rotate

/-- The condition on which the loop of `free` stops at `p`. -/
def Stops (h : Heap) (bp p : Nat) : Prop :=
  bp > p ∧ bp < (h.mem p).ptr ∨ p ≥ (h.mem p).ptr ∧ (bp > p ∨ bp < (h.mem p).ptr)

theorem freeLoop_finds (bp : Nat) {p e fuel : Nat} {l : List Nat}
    (hl : Linked (fun a => (h.mem a).ptr) (p :: l) e) (hx : ∃ y ∈ p :: l, Stops h bp y)
    (hfuel : l.length < fuel) : ∃ y ∈ p :: l, Stops h bp y ∧ freeLoop h bp fuel p = some y := by
  induction l generalizing p fuel with
  | nil =>
    obtain ⟨fuel, rfl⟩ := exists_eq_succ_of_ne_zero (Nat.ne_of_gt hfuel)
    obtain ⟨y, hy, hstop⟩ := hx
    obtain rfl := mem_singleton.1 hy
    refine ⟨y, hy, hstop, ?_⟩
    rcases hstop with hstop | hstop
    · simp only [freeLoop, if_pos hstop]
    · simp only [freeLoop, if_pos hstop, ite_self]
  | cons q l ih =>
    obtain ⟨fuel, rfl⟩ := exists_eq_succ_of_ne_zero (Nat.ne_of_gt (zero_lt_of_lt hfuel))
    obtain ⟨hlink, hrest⟩ := hl
    have hlink' : (h.mem p).ptr = q := hlink
    by_cases hp : Stops h bp p
    · refine ⟨p, mem_cons_self, hp, ?_⟩
      rcases hp with hstop | hstop
      · simp only [freeLoop, if_pos hstop]
      · simp only [freeLoop, if_pos hstop, ite_self]
    · obtain ⟨y, hy, hstop⟩ := hx
      have hy' : y ∈ q :: l := by
        rcases mem_cons.1 hy with rfl | hy
        · exact absurd hstop hp
        · exact hy
      obtain ⟨z, hz, hstop', hrun⟩ := ih hrest ⟨y, hy', hstop⟩ (lt_of_succ_lt_succ hfuel)
      refine ⟨z, mem_cons_of_mem _ hz, hstop', ?_⟩
      obtain ⟨h₁, h₂⟩ := not_or.1 hp
      simp only [freeLoop, if_neg h₁, if_neg h₂]
      rw [hlink', hrun]

section

variable (hc : Circular h.mem base (pre ++ x :: post))

include hc

/-- The loop stops at the block in front of `bp` and nowhere else. -/
theorem stops_iff {bp : Nat} (hsorted : (pre ++ x :: post).Pairwise Before)
    (hbase : ∀ y ∈ pre ++ x :: post, base ≤ y.addr) (hx : x.addr < bp)
    (hpost : ∀ y ∈ post, bp < y.addr) (ha : a ∈ pre ++ x :: post) : Stops h bp a.addr ↔ a = x := by
  have hbx := hbase x (mem_append_right _ mem_cons_self)
  obtain ⟨-, hrest, hcross⟩ := pairwise_append.1 hsorted
  constructor
  · intro hstop
    rcases mem_append.1 ha with ha | ha
    · -- the next block is `x` or one in front of it
      obtain ⟨l₁, l₂, rfl⟩ := append_of_mem ha
      rw [append_assoc, cons_append] at hc hsorted
      have hptr := hc.ptr_eq
      obtain ⟨ha', -⟩ := pairwise_cons.1 (pairwise_append.1 hsorted).2.1
      have hnext : ∃ y ∈ l₂ ++ x :: post, (h.mem a.addr).ptr = y.addr ∧ y.addr ≤ x.addr := by
        cases l₂ with
        | nil => exact ⟨x, mem_cons_self, hptr, le_refl _⟩
        | cons y l₂ =>
          refine ⟨y, mem_cons_self, hptr, ?_⟩
          have hyx := hcross y (by simp) x mem_cons_self
          simp only [Before, stop] at hyx
          omega
      obtain ⟨y, hy, hptr', hyx⟩ := hnext
      have hay := ha' y hy
      simp only [Before, stop] at hay
      simp only [Stops, hptr'] at hstop
      omega
    · rcases mem_cons.1 ha with rfl | ha
      · rfl
      · have hbp := hpost a ha
        obtain ⟨l₁, l₂, rfl⟩ := append_of_mem ha
        rw [← cons_append, ← append_assoc] at hc
        have hptr := hc.ptr_eq
        cases l₂ with
        | nil =>
          simp only [Stops, hptr, map_nil, first_nil] at hstop
          omega
        | cons y l₂ =>
          have hay : Before a y := by
            have h' := (pairwise_cons.1 hrest).2
            exact (pairwise_cons.1 (pairwise_append.1 h').2.1).1 y mem_cons_self
          simp only [Before, stop] at hay
          simp only [Stops, hptr, map_cons, first_cons] at hstop
          omega
  · rintro rfl
    have hptr := hc.ptr_eq
    cases post with
    | nil =>
      simp only [Stops, hptr, map_nil, first_nil]
      omega
    | cons y post =>
      have hy := hpost y mem_cons_self
      simp only [Stops, hptr, map_cons, first_cons]
      omega

/-- The effect of the first `if`. -/
theorem joinNext_eq (hb : (h.mem b.addr).size = b.size)
    (hbase : base < b.addr) (hsmall : b.size + units post < 2 ^ 32) :
    h.joinNext b.addr x.addr = h.set b.addr
      ⟨first ((mergeNext b post).2.map Block.addr) base, (mergeNext b post).1.size⟩ := by
  rw [joinNext, hc.ptr_eq, hb]
  cases post with
  | nil =>
    have hne : b.addr + 16 * b.size ≠ base := by omega
    simp only [map_nil, first_nil, if_neg hne, mergeNext]
  | cons y post =>
    rw [units_cons] at hsmall
    by_cases heq : b.addr + 16 * b.size = y.addr
    · have hc' : Circular h.mem base ((pre ++ [x]) ++ y :: post) := by
        rwa [append_assoc, singleton_append]
      have hmod : (b.size + y.size) % 2 ^ 32 = b.size + y.size := mod_eq_of_lt (by omega)
      have heq' : b.stop = y.addr := heq
      simp only [map_cons, first_cons, mergeNext, if_pos heq, if_pos heq']
      rw [hc'.ptr_eq, hc'.size_eq, hmod]
    · have heq' : b.stop ≠ y.addr := heq
      simp only [map_cons, first_cons, mergeNext, if_neg heq, if_neg heq']

omit hc in
/-- The effect of the second `if` on a list of which the part `mid` has been joined to `b`. -/
theorem joinPrev_circular (mid : List Block) (hc : Circular h.mem base (pre ++ x :: mid ++ post))
    (hb : h.mem b.addr = ⟨first (post.map Block.addr) base, b.size⟩)
    (hsmall : x.size + b.size < 2 ^ 32) (hnodup : ((pre ++ x :: mid ++ post).map Block.addr).Nodup)
    (hfresh : b.addr ∉ (pre ++ x :: mid ++ post).map Block.addr) :
    Circular (h.joinPrev b.addr x.addr).mem base (pre ++ mergePrev x b ++ post) := by
  have hx : (h.mem x.addr).size = x.size := hc.size x (by simp)
  have hxb : b.addr ≠ x.addr := fun heq => hfresh (by simp [heq])
  obtain ⟨hpre, hpost⟩ : (∀ y ∈ pre, y.addr ≠ x.addr) ∧ ∀ y ∈ post, y.addr ≠ x.addr := by
    rw [append_assoc, map_append, cons_append, map_cons] at hnodup
    obtain ⟨-, hrest, hcross⟩ := nodup_append.1 hnodup
    refine ⟨fun y hy => ?_, fun y hy heq => ?_⟩
    · exact hcross _ (mem_map_of_mem hy) _ mem_cons_self
    · refine (nodup_cons.1 hrest).1 ?_
      rw [← heq]
      exact mem_map_of_mem (mem_append_right _ hy)
  -- both branches change the header of `x` alone
  have hother (v : Header) (y : Block) (hy : y ∈ pre ++ post) :
      (h.set x.addr v).mem y.addr = h.mem y.addr := by
    refine h.set_mem_of_ne v ?_
    rcases mem_append.1 hy with hy | hy
    · exact hpre y hy
    · exact hpost y hy
  by_cases heq : x.stop = b.addr
  · have heq' : x.addr + 16 * (h.mem x.addr).size = b.addr := by rw [hx]; exact heq
    rw [joinPrev, if_pos heq', mergePrev, if_pos heq]
    refine hc.splice (hother _) rfl ⟨?_, trivial⟩ (forall_mem_singleton.2 ?_)
    · exact (congrArg ptr (h.set_mem_self _ _)).trans (by rw [hb]; rfl)
    · refine (congrArg Header.size (h.set_mem_self _ _)).trans ?_
      rw [hx, hb]
      exact mod_eq_of_lt hsmall
  · have heq' : x.addr + 16 * (h.mem x.addr).size ≠ b.addr := by rw [hx]; exact heq
    have hb' (v : Header) : (h.set x.addr v).mem b.addr = h.mem b.addr :=
      h.set_mem_of_ne v hxb
    rw [joinPrev, if_neg heq', mergePrev, if_neg heq]
    refine hc.splice (hother _) rfl ⟨?_, ?_, trivial⟩
      (forall_mem_cons.2 ⟨?_, forall_mem_singleton.2 ?_⟩)
    · exact congrArg ptr (h.set_mem_self _ _)
    · exact congrArg ptr ((hb' _).trans hb)
    · exact (congrArg Header.size (h.set_mem_self _ _)).trans hx
    · rw [hb', hb]

/-- The effect of both `if`s: memory represents the list with `b`. -/
theorem join_circular (hb : (h.mem b.addr).size = b.size) (hbase : base < b.addr)
    (hsmall : x.size + b.size + units post < 2 ^ 32)
    (hnodup : ((pre ++ x :: post).map Block.addr).Nodup)
    (hfresh : b.addr ∉ (pre ++ x :: post).map Block.addr) :
    Circular ((h.joinNext b.addr x.addr).joinPrev b.addr x.addr).mem base
      (pre ++ insertBlock x b post) := by
  obtain ⟨mid, hmid⟩ := mergeNext_suffix b post
  have hunits := units_mergeNext b post
  have hlist : pre ++ x :: mid ++ (mergeNext b post).2 = pre ++ x :: post := by
    rw [append_assoc, cons_append, hmid]
  rw [joinNext_eq hc hb hbase (by omega), insertBlock, ← append_assoc, ← mergeNext_addr b post]
  refine joinPrev_circular mid ?_ (h.set_mem_self _ _) (by omega) ?_ ?_
  · rw [hlist, mergeNext_addr]
    refine ⟨hc.linked.congr fun a ha => ?_, fun z hz => ?_⟩
    · have hne : a ≠ b.addr := fun heq => hfresh (heq ▸ ha)
      exact congrArg ptr (h.set_mem_of_ne _ hne)
    · have hne : z.addr ≠ b.addr := fun heq => hfresh (heq ▸ mem_map_of_mem hz)
      exact (congrArg Header.size (h.set_mem_of_ne _ hne)).trans (hc.size z hz)
  · rwa [hlist]
  · rwa [hlist, mergeNext_addr]

omit hc in
/-- Headers other than those of `b` and of the block in front of it are as before. -/
theorem join_frame (h : Heap) (bp p : Nat) {a : Nat} (hb : a ≠ bp) (hp : a ≠ p) :
    ((h.joinNext bp p).joinPrev bp p).mem a = h.mem a := by
  have hnext : (h.joinNext bp p).mem a = h.mem a := by
    simp only [joinNext]
    split_ifs
    · exact h.set_mem_of_ne _ hb
    · exact h.set_mem_of_ne _ hb
  rw [← hnext, joinPrev]
  split_ifs
  · exact set_mem_of_ne _ _ hp
  · exact set_mem_of_ne _ _ hp

/-- `free` puts its block into the list, behind the last block with a lower address. -/
theorem free_spec {fuel : Nat}
    (hhead : first ((pre ++ x :: post).map Block.addr) base = base)
    (hsorted : (pre ++ x :: post).Pairwise Before) (hbase : ∀ y ∈ pre ++ x :: post, base ≤ y.addr)
    (hfreep : h.freep ∈ (pre ++ x :: post).map Block.addr) (hb : (h.mem b.addr).size = b.size)
    (hx : x.addr < b.addr) (hpost : ∀ y ∈ post, b.addr < y.addr)
    (hsmall : x.size + b.size + units post < 2 ^ 32)
    (hfresh : b.addr ∉ (pre ++ x :: post).map Block.addr)
    (hnodup : ((pre ++ x :: post).map Block.addr).Nodup) (hfuel : (pre ++ x :: post).length ≤ fuel) :
    ∃ h', free fuel h (b.addr + 16) = some h' ∧ h'.freep = x.addr ∧
      Circular h'.mem base (pre ++ insertBlock x b post) ∧
      ∀ a, a ≠ b.addr → a ≠ x.addr → h'.mem a = h.mem a := by
  have hbx := hbase x (mem_append_right _ mem_cons_self)
  have hloop : freeLoop h b.addr fuel h.freep = some x.addr := by
    have hiff (a : Block) (ha : a ∈ pre ++ x :: post) :=
      stops_iff (a := a) hc hsorted hbase hx hpost ha
    obtain ⟨f, r, hperm, hfaddr, hrot⟩ := hc.rotate hhead hfreep
    have hlen : (r.map Block.addr).length < fuel := by
      have hlen := hperm.length_eq
      rw [length_cons] at hlen
      rw [length_map]
      omega
    obtain ⟨y, hy, hstop, hrun⟩ := freeLoop_finds b.addr hrot
      ⟨x.addr, mem_map_of_mem (f := Block.addr) (hperm.mem_iff.2 (by simp)),
        (hiff x (by simp)).2 rfl⟩ hlen
    rw [← map_cons] at hy
    obtain ⟨z, hz, rfl⟩ := mem_map.1 hy
    obtain rfl := (hiff z (hperm.mem_iff.1 hz)).1 hstop
    rw [← hfaddr, hrun]
  refine ⟨{ (h.joinNext b.addr x.addr).joinPrev b.addr x.addr with freep := x.addr }, ?_, rfl,
    join_circular hc hb (by omega) hsmall hnodup hfresh, ?_⟩
  · rw [free, Nat.add_sub_cancel, hloop]
    rfl
  · exact fun a ha ha' => join_frame h b.addr x.addr ha ha'

end

end Free

section Take

variable {h : Heap} {base n : Nat} {pre post : List Block} {w x : Block}

/-- What `malloc` leaves of a block: nothing, or its first units. -/
def remainder (x : Block) (n : Nat) : List Block :=
  if x.size = n then [] else [⟨x.addr, x.size - n⟩]

/-- The last units of a block. -/
def tailBlock (x : Block) (n : Nat) : Block := ⟨x.addr + 16 * (x.size - n), n⟩

/-- The cut in `malloc`. -/
theorem takeBlock_spec (hc : Circular h.mem base (pre ++ w :: x :: post)) (hle : n ≤ x.size)
    (hsorted : (pre ++ w :: x :: post).Pairwise Before) :
    ∃ h', takeBlock h w.addr x.addr n = (h', (tailBlock x n).addr + 16) ∧ h'.freep = w.addr ∧
      Circular h'.mem base (pre ++ w :: remainder x n ++ post) ∧
      (h'.mem (tailBlock x n).addr).size = n ∧
      ∀ a, a ≠ w.addr → a ≠ x.addr → a ≠ (tailBlock x n).addr → h'.mem a = h.mem a := by
  have hc' : Circular h.mem base ((pre ++ [w]) ++ x :: post) := by
    rwa [append_assoc, singleton_append]
  have hxptr := hc'.ptr_eq
  have hxsize := hc'.size_eq
  have hwsize := hc.size_eq
  obtain ⟨-, hrest, hcross⟩ := pairwise_append.1 hsorted
  obtain ⟨hw, hrest'⟩ := pairwise_cons.1 hrest
  obtain ⟨hx, -⟩ := pairwise_cons.1 hrest'
  -- the addresses of the other blocks are outside of `x` and are not that of `w`
  have hpre : ∀ y ∈ pre, y.addr < w.addr ∧ y.addr < x.addr := by
    intro y hy
    have hyw := hcross y hy w mem_cons_self
    have hyx := hcross y hy x (mem_cons_of_mem _ mem_cons_self)
    simp only [Before, stop] at hyw hyx
    omega
  have hpost : ∀ y ∈ post, w.addr < y.addr ∧ x.stop < y.addr := by
    intro y hy
    have hwy := hw y (mem_cons_of_mem _ hy)
    simp only [Before, stop] at hwy
    exact ⟨by omega, hx y hy⟩
  have hwx := hw x mem_cons_self
  simp only [Before, stop] at hwx
  have hw' : Circular h.mem base (pre ++ w :: [x] ++ post) := by
    rwa [append_assoc, cons_append, singleton_append]
  by_cases heq : x.size = n
  · have htail : tailBlock x n = x := by
      rw [tailBlock, ← heq, Nat.sub_self]
      rfl
    have hxw : x.addr ≠ w.addr := by omega
    refine ⟨{ h.set w.addr ⟨(h.mem x.addr).ptr, (h.mem w.addr).size⟩ with freep := w.addr }, ?_, rfl,
      hw'.splice (fun y hy => h.set_mem_of_ne _ ?_) rfl ?_ ?_, ?_, fun a hw _ _ => h.set_mem_of_ne _ hw⟩
    · rw [takeBlock, hxsize, if_pos heq, htail]
    · rcases mem_append.1 hy with hy | hy
      · exact (hpre y hy).1.ne
      · exact (hpost y hy).1.ne'
    · rw [remainder, if_pos heq]
      exact ⟨(congrArg ptr (h.set_mem_self _ _)).trans hxptr, trivial⟩
    · rw [remainder, if_pos heq]
      refine forall_mem_singleton.2 ?_
      exact (congrArg Header.size (h.set_mem_self _ _)).trans hwsize
    · rw [htail]
      exact (congrArg Header.size (h.set_mem_of_ne _ hxw)).trans (hxsize.trans heq)
  · have htail : (tailBlock x n).addr = x.addr + 16 * (x.size - n) := rfl
    have hxt : x.addr ≠ (tailBlock x n).addr := by omega
    have hwt : w.addr ≠ (tailBlock x n).addr := by omega
    have hwx' : w.addr ≠ x.addr := by omega
    have hother (v v' : Header) {a : Nat} (hax : a ≠ x.addr) (hat : a ≠ (tailBlock x n).addr) :
        ((h.set x.addr v).set (tailBlock x n).addr v').mem a = h.mem a := by
      rw [set_mem_of_ne _ _ hat, set_mem_of_ne _ _ hax]
    refine ⟨{ (h.set x.addr ⟨(h.mem x.addr).ptr, x.size - n⟩).set (tailBlock x n).addr
        ⟨((h.set x.addr ⟨(h.mem x.addr).ptr, x.size - n⟩).mem (tailBlock x n).addr).ptr, n⟩ with
        freep := w.addr }, ?_, rfl, hw'.splice (fun y hy => ?_) rfl ?_ ?_, ?_, ?_⟩
    · rw [takeBlock, hxsize, if_neg heq]
      rfl
    · refine hother _ _ ?_ ?_
      · rcases mem_append.1 hy with hy | hy
        · exact (hpre y hy).2.ne
        · have := (hpost y hy).2
          simp only [stop] at this
          omega
      · rcases mem_append.1 hy with hy | hy
        · have := (hpre y hy).2
          omega
        · have := (hpost y hy).2
          simp only [stop] at this
          omega
    · rw [remainder, if_neg heq]
      refine ⟨?_, ?_, trivial⟩
      · exact (congrArg ptr (hother _ _ hwx' hwt)).trans hc.ptr_eq
      · refine (congrArg ptr (set_mem_of_ne _ _ hxt)).trans ?_
        exact (congrArg ptr (h.set_mem_self _ _)).trans hxptr
    · rw [remainder, if_neg heq]
      refine forall_mem_cons.2 ⟨?_, forall_mem_singleton.2 ?_⟩
      · exact (congrArg Header.size (hother _ _ hwx' hwt)).trans hwsize
      · exact congrArg Header.size ((set_mem_of_ne _ _ hxt).trans (h.set_mem_self _ _))
    · exact congrArg Header.size (set_mem_self _ _ _)
    · exact fun a _ hax hat => hother _ _ hax hat

end Take

end FogOS.Malloc
