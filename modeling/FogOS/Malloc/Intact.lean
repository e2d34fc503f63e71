import FogOS.Malloc.FreeList

/-!
# Heaps that are intact

The invariant of the allocator over the free blocks, the blocks that the program has and the
regions that `sbrk` has returned, and how `free`, a new region and the cut in `malloc` keep it.
-/

namespace FogOS.Malloc

open Library.Cycle Block List Nat Block

/-- Memory that `sbrk` has returned. -/
structure Region where
  start : Nat
  bytes : Nat
  deriving DecidableEq

def Region.stop (r : Region) : Nat := r.start + r.bytes

def total (rs : List Region) : Nat := (rs.map Region.bytes).sum

/-- A block is not empty, is aligned, and is above `base` and below the end of some region. -/
structure Placed (base : Nat) (regions : List Region) (b : Block) : Prop where
  pos : 1 ≤ b.size
  aligned : 16 ∣ b.addr
  above : base + 16 ≤ b.addr
  below : ∃ r ∈ regions, b.stop ≤ r.stop

/-- The free list is circular and sorted, and its blocks do not touch; the free blocks and the live
ones share no byte and add up to the regions. -/
structure Intact (base : Nat) (h : Heap) (bs live : List Block) (regions : List Region) :
    Prop where
  circular : Circular h.mem base (⟨base, 0⟩ :: bs)
  freep : h.freep ∈ (⟨base, 0⟩ :: bs : List Block).map Block.addr
  sorted : (⟨base, 0⟩ :: bs : List Block).Pairwise Before
  size : ∀ b ∈ live, (h.mem b.addr).size = b.size
  free_apart : ∀ b ∈ live, ∀ a ∈ bs, Apart b a
  live_apart : live.Pairwise Apart
  placed : ∀ b ∈ bs ++ live, Placed base regions b
  conserved : 16 * (units bs + units live) = total regions
  total_lt : total regions < 2 ^ 31

section List

variable {c : List Block} {bp : Nat}

theorem addr_nodup (h : c.Pairwise Before) : (c.map addr).Nodup := by
  refine pairwise_map.2 (h.imp fun {a b} hab => ?_)
  simp only [Before, stop] at hab
  omega

/-- The last block in front of an address. -/
theorem exists_last_before {a : Block} (h : (a :: c).Pairwise Before) (ha : a.addr < bp)
    (hne : ∀ y ∈ c, y.addr ≠ bp) :
    ∃ pre x post, a :: c = pre ++ x :: post ∧ x.addr < bp ∧ ∀ y ∈ post, bp < y.addr := by
  induction c generalizing a with
  | nil => exact ⟨[], a, [], rfl, ha, fun y hy => absurd hy not_mem_nil⟩
  | cons b c ih =>
    obtain ⟨-, hrest⟩ := pairwise_cons.1 h
    obtain ⟨hb, -⟩ := pairwise_cons.1 hrest
    obtain ⟨hne', hne⟩ := forall_mem_cons.1 hne
    rcases lt_or_gt_of_ne hne' with hlt | hgt
    · obtain ⟨pre, x, post, heq, hx, hpost⟩ := ih hrest hlt hne
      exact ⟨a :: pre, x, post, by rw [heq, cons_append], hx, hpost⟩
    · refine ⟨[], a, b :: c, rfl, ha, forall_mem_cons.2 ⟨hgt, fun y hy => ?_⟩⟩
      have := hb y hy
      simp only [Before, stop] at this
      omega

/-- The block that holds `b` afterwards is as large as `b` at least. -/
theorem exists_large_insertBlock (x b : Block) (post : List Block) :
    ∃ y ∈ insertBlock x b post, b.size ≤ y.size := by
  have hnext : b.size ≤ (mergeNext b post).1.size := by
    cases post with
    | nil => exact le_refl _
    | cons y post =>
      rw [mergeNext]
      split_ifs
      · exact le_add_right _ _
      · exact le_refl _
  rw [insertBlock, mergePrev]
  split_ifs
  · exact ⟨_, mem_cons_self, le_trans hnext (le_add_left _ _)⟩
  · exact ⟨_, mem_cons_of_mem _ mem_cons_self, hnext⟩

theorem length_insertBlock_le (x b : Block) (post : List Block) :
    (insertBlock x b post).length ≤ post.length + 2 := by
  have hnext := (mergeNext_suffix b post).length_le
  rw [insertBlock, mergePrev]
  split_ifs
  · simp only [length_append, length_cons, length_nil]
    omega
  · simp only [length_append, length_cons, length_nil]
    omega

end List

theorem Placed.join {base : Nat} {regions : List Region} (u v : Block) (huv : u.stop = v.addr)
    (hu : Placed base regions u) (hv : Placed base regions v) :
    Placed base regions ⟨u.addr, u.size + v.size⟩ := by
  obtain ⟨r, hr, hstop⟩ := hv.below
  refine ⟨le_add_right_of_le hu.pos, hu.aligned, hu.above, r, hr, ?_⟩
  simp only [stop] at huv hstop ⊢
  omega

variable {pre post : List Block} {z w : Block}

section Free

variable {base : Nat} {h : Heap} {bs live : List Block} {regions : List Region} {b : Block}

/-- The free blocks after `b` is put in between `x` and the blocks behind `x`. -/
theorem exists_free_insertBlock {x : Block}
    (heq : (⟨base, 0⟩ : Block) :: bs = pre ++ x :: post) (hb : Placed base regions b)
    {P : Block → Prop} (hjoin : ∀ u v, u.stop = v.addr → P u → P v → P ⟨u.addr, u.size + v.size⟩)
    (hfree : ∀ y ∈ bs, P y) (hP : P b) :
    ∃ bs', pre ++ insertBlock x b post = ⟨base, 0⟩ :: bs' ∧ ∀ y ∈ bs', P y := by
  cases pre with
  | nil =>
    obtain ⟨rfl, rfl⟩ := List.cons.inj heq
    obtain ⟨hnext, hrest⟩ := mergeNext_forall hjoin hP hfree
    have habove := hb.above
    have hne : stop ⟨base, 0⟩ ≠ (mergeNext b bs).1.addr := by
      rw [mergeNext_addr]
      simp only [stop]
      omega
    refine ⟨(mergeNext b bs).1 :: (mergeNext b bs).2, ?_, forall_mem_cons.2 ⟨hnext, hrest⟩⟩
    rw [nil_append, insertBlock, mergePrev, if_neg hne]
    rfl
  | cons p pre =>
    obtain ⟨rfl, rfl⟩ := List.cons.inj heq
    obtain ⟨hpre, hrest⟩ := forall_mem_append.1 hfree
    obtain ⟨hx, hpost⟩ := forall_mem_cons.1 hrest
    exact ⟨pre ++ insertBlock x b post, rfl,
      forall_mem_append.2 ⟨hpre, insertBlock_forall hjoin hx hP hpost⟩⟩

/-- No live block begins where a block of the free list begins. -/
theorem Intact.addr_ne (hi : Intact base h bs live regions) (hz : z ∈ live)
    (hw : w ∈ (⟨base, 0⟩ :: bs : List Block)) : z.addr ≠ w.addr := by
  obtain ⟨hfree, hlive⟩ := forall_mem_append.1 hi.placed
  have hzpos := (hlive z hz).pos
  have habove := (hlive z hz).above
  rcases mem_cons.1 hw with rfl | hw
  · simp only
    omega
  · have hwpos := (hfree w hw).pos
    have hapart := hi.free_apart z hz w hw
    simp only [Apart, stop] at hapart
    omega

/-- `free` of a live block. -/
theorem Intact.after_free (hi : Intact base h bs (b :: live) regions) {fuel : Nat}
    (hfuel : bs.length + 1 ≤ fuel) :
    ∃ h' bs', Malloc.free fuel h (b.addr + 16) = some h' ∧ Intact base h' bs' live regions ∧
      bs'.length ≤ bs.length + 1 ∧ ∃ y ∈ bs', b.size ≤ y.size := by
  obtain ⟨hapart_b, hapart_live⟩ := forall_mem_cons.1 hi.free_apart
  obtain ⟨hlive_b, hlive⟩ := pairwise_cons.1 hi.live_apart
  obtain ⟨hplaced_free, hplaced⟩ := forall_mem_append.1 hi.placed
  obtain ⟨hplaced_b, hplaced_live⟩ := forall_mem_cons.1 hplaced
  obtain ⟨hsize_b, hsize_live⟩ := forall_mem_cons.1 hi.size
  have hpos := hplaced_b.pos
  have habove := hplaced_b.above
  have hne : ∀ y ∈ bs, y.addr ≠ b.addr := fun y hy =>
    (hi.addr_ne mem_cons_self (mem_cons_of_mem _ hy)).symm
  obtain ⟨pre, x, post, heq, hx, hpost⟩ :=
    exists_last_before hi.sorted (show (⟨base, 0⟩ : Block).addr < b.addr by simp only; omega) hne
  have hmem (y : Block) (hy : y ∈ pre ++ x :: post) : y = ⟨base, 0⟩ ∨ y ∈ bs :=
    mem_cons.1 (heq ▸ hy)
  have hsorted := hi.sorted
  have hcircular := hi.circular
  have hfreep := hi.freep
  rw [heq] at hsorted hcircular hfreep
  have hbase : ∀ y ∈ pre ++ x :: post, base ≤ y.addr := by
    intro y hy
    rcases hmem y hy with rfl | hy
    · exact le_refl _
    · have := (hplaced_free y hy).above
      omega
  have hpost_free : ∀ y ∈ post, y ∈ bs := by
    intro y hy
    rcases hmem y (mem_append_right _ (mem_cons_of_mem _ hy)) with rfl | hy'
    · have := hpost _ hy
      simp only at this
      omega
    · exact hy'
  have hunits : units (pre ++ x :: post) = units bs := by
    rw [← heq, units_cons, zero_add]
  have hlen : (pre ++ x :: post).length = bs.length + 1 := by rw [← heq, length_cons]
  have hfresh : b.addr ∉ (pre ++ x :: post).map addr := by
    intro hmem'
    obtain ⟨y, hy, hyb⟩ := mem_map.1 hmem'
    exact hi.addr_ne mem_cons_self (heq ▸ hy) hyb.symm
  have hconserved := hi.conserved
  have htotal := hi.total_lt
  rw [units_cons] at hconserved
  rw [units_append, units_cons] at hunits
  have hhead : first ((pre ++ x :: post).map addr) base = base := by rw [← heq]; rfl
  obtain ⟨h', hrun, hfreep', hcircular', hframe⟩ := free_spec hcircular hhead hsorted hbase hfreep
    hsize_b hx hpost (by omega) hfresh (addr_nodup hsorted) (le_trans hlen.le hfuel)
  have hxb : x.stop ≤ b.addr := by
    rcases hmem x (by simp) with rfl | hxf
    · simp only [stop]
      omega
    · have hapart := hapart_b x hxf
      simp only [Apart, stop] at hapart ⊢
      omega
  have hsorted' := insertBlock_sorted hsorted hxb (fun y hy => by
      have hapart := hapart_b y (hpost_free y hy)
      have hlt := hpost y hy
      simp only [Apart, stop] at hapart ⊢
      omega)
    fun y hy => (hplaced_free y (hpost_free y hy)).pos
  obtain ⟨bs', heq', hP⟩ := exists_free_insertBlock heq hplaced_b
    (P := fun y => Placed base regions y ∧ ∀ z ∈ live, Apart z y)
    (fun u v huv hu hv => ⟨Placed.join u v huv hu.1 hv.1, fun z hz =>
      apart_join (hplaced_live z hz).pos u v huv (hu.2 z hz) (hv.2 z hz)⟩)
    (fun y hy => ⟨hplaced_free y hy, fun z hz => hapart_live z hz y hy⟩)
    ⟨hplaced_b, fun z hz => (hlive_b z hz).symm⟩
  have hunits' : units bs' = units bs + b.size := by
    have h' := congrArg units heq'
    rw [units_append, units_insertBlock, units_cons, zero_add] at h'
    omega
  refine ⟨h', bs', hrun, ⟨heq' ▸ hcircular', ?_, heq' ▸ hsorted', fun z hz => ?_,
    fun z hz y hy => (hP y hy).2 z hz, hlive,
    forall_mem_append.2 ⟨fun y hy => (hP y hy).1, hplaced_live⟩, by omega, htotal⟩, ?_, ?_⟩
  · -- `x`, or the block that it has become, is still in the list
    rw [hfreep', ← heq', map_append, insertBlock, mergePrev]
    split_ifs
    · simp
    · simp
  · -- the headers of live blocks are as before
    have hzb := hlive_b z hz
    have hzpos := (hplaced_live z hz).pos
    rw [hframe z.addr, hsize_live z hz]
    · simp only [Apart, stop] at hzb
      omega
    · exact hi.addr_ne (mem_cons_of_mem _ hz) (by rw [heq]; simp)
  · have hlen' := congrArg List.length heq'
    have hle := length_insertBlock_le x b post
    simp only [length_append, length_cons] at hlen hlen' hle
    omega
  · obtain ⟨y, hy, hle⟩ := exists_large_insertBlock x b post
    rcases mem_cons.1 (heq' ▸ mem_append_right pre hy) with rfl | hy'
    · simp only at hle
      omega
    · exact ⟨y, hy', hle⟩

/-- The order of the live blocks does not matter. -/
theorem Intact.perm {live' : List Block} (hi : Intact base h bs live regions)
    (hperm : live.Perm live') : Intact base h bs live' regions where
  circular := hi.circular
  freep := hi.freep
  sorted := hi.sorted
  size b hb := hi.size b (hperm.mem_iff.2 hb)
  free_apart b hb := hi.free_apart b (hperm.mem_iff.2 hb)
  live_apart := (hperm.pairwise_iff fun {_ _} => Apart.symm).1 hi.live_apart
  placed b hb := by
    rw [mem_append, ← hperm.mem_iff, ← mem_append] at hb
    exact hi.placed b hb
  conserved := by
    have hunits : units live = units live' := (hperm.map Block.size).sum_eq
    rw [← hunits]
    exact hi.conserved
  total_lt := hi.total_lt

end Free

section Malloc

variable {base : Nat} {h : Heap} {bs live : List Block} {regions : List Region} {x : Block}

/-- A new region, as a live block whose header `morecore` has written. -/
theorem Intact.after_sbrk (hi : Intact base h bs live regions) {r : Region} {nu : Nat} (hnu : 1 ≤ nu)
    (hbytes : r.bytes = 16 * nu) (haligned : 16 ∣ r.start) (habove : base + 16 ≤ r.start)
    (hlast : ∀ r' ∈ regions, r'.stop ≤ r.start) (htotal : total regions + r.bytes < 2 ^ 31) :
    Intact base (h.set r.start ⟨(h.mem r.start).ptr, nu⟩) bs (⟨r.start, nu⟩ :: live)
      (r :: regions) := by
  have hbelow : ∀ b ∈ bs ++ live, b.stop ≤ r.start := by
    intro b hb
    obtain ⟨r', hr', hstop⟩ := (hi.placed b hb).below
    exact le_trans hstop (hlast r' hr')
  have hne : ∀ b ∈ bs ++ live, b.addr ≠ r.start := by
    intro b hb heq
    have hstop := hbelow b hb
    have hpos := (hi.placed b hb).pos
    simp only [stop] at hstop
    omega
  have hmem {a : Nat} (ha : a ≠ r.start) :
      (h.set r.start ⟨(h.mem r.start).ptr, nu⟩).mem a = h.mem a := h.set_mem_of_ne _ ha
  have hne' : ∀ a ∈ (⟨base, 0⟩ :: bs : List Block).map addr, a ≠ r.start := by
    intro a ha
    obtain ⟨b, hb, rfl⟩ := mem_map.1 ha
    rcases mem_cons.1 hb with rfl | hb
    · simp only
      omega
    · exact hne b (mem_append_left _ hb)
  have hconserved := hi.conserved
  refine ⟨⟨hi.circular.linked.congr fun a ha => ?_, fun b hb => ?_⟩, hi.freep, hi.sorted, ?_, ?_, ?_,
    fun b hb => ?_, ?_, ?_⟩
  · rw [hmem (hne' a ha)]
  · rw [hmem (hne' _ (mem_map_of_mem hb))]
    exact hi.circular.size b hb
  · refine forall_mem_cons.2 ⟨congrArg Header.size (h.set_mem_self _ _), fun b hb => ?_⟩
    rw [hmem (hne b (mem_append_right _ hb))]
    exact hi.size b hb
  · exact forall_mem_cons.2
      ⟨fun a ha => .inr (hbelow a (mem_append_left _ ha)), hi.free_apart⟩
  · exact pairwise_cons.2
      ⟨fun b hb => .inr (hbelow b (mem_append_right _ hb)), hi.live_apart⟩
  · have hold (hb : b ∈ bs ++ live) : Placed base (r :: regions) b := by
      obtain ⟨hpos, hal, hab, r', hr', hstop⟩ := hi.placed b hb
      exact ⟨hpos, hal, hab, r', mem_cons_of_mem _ hr', hstop⟩
    rcases mem_append.1 hb with hb | hb
    · exact hold (mem_append_left _ hb)
    · rcases mem_cons.1 hb with rfl | hb
      · refine ⟨hnu, haligned, habove, r, mem_cons_self, ?_⟩
        simp only [stop, Region.stop]
        omega
      · exact hold (mem_append_right _ hb)
  · simp only [units_cons, total, map_cons, sum_cons] at hconserved ⊢
    omega
  · simp only [total, map_cons, sum_cons] at htotal ⊢
    omega

/-- A block of which some part is taken shares no byte with a block that shares none with it. -/
theorem apart_of_part {u v : Block} (h : Apart z u) (hle : u.addr ≤ v.addr) (hstop : v.stop ≤ u.stop) :
    Apart z v := by
  rcases h with h | h
  · exact .inl (le_trans h hle)
  · exact .inr (le_trans hstop h)

theorem addr_ne_of_apart {u : Block} {a : Nat} (h : Apart z u) (hz : 1 ≤ z.size) (hle : u.addr ≤ a)
    (hlt : a < u.stop) : z.addr ≠ a := by
  simp only [Apart, stop] at h hlt
  omega

/-- The remainder of a block is a part of it that ends where the tail begins. -/
theorem mem_remainder {n : Nat} {y : Block} (hle : n ≤ x.size) (hy : y ∈ remainder x n) :
    y.addr = x.addr ∧ 1 ≤ y.size ∧ y.stop = (tailBlock x n).addr := by
  rw [remainder] at hy
  split_ifs at hy with heq
  · cases hy
  · obtain rfl := mem_singleton.1 hy
    refine ⟨rfl, ?_, rfl⟩
    simp only
    omega

theorem units_remainder {n : Nat} (hle : n ≤ x.size) : units (remainder x n) + n = x.size := by
  rw [remainder]
  split_ifs with heq
  · rw [units_nil, heq, zero_add]
  · simp only [units_cons, units_nil]
    omega

theorem tailBlock_stop {n : Nat} (hle : n ≤ x.size) : (tailBlock x n).stop = x.stop := by
  simp only [tailBlock, stop]
  omega

theorem apart_of_sorted
    (h : (pre ++ w :: x :: post).Pairwise Before) : ∀ y ∈ pre ++ w :: post, Apart x y := by
  obtain ⟨-, hrest, hcross⟩ := pairwise_append.1 h
  obtain ⟨hw, hrest'⟩ := pairwise_cons.1 hrest
  intro y hy
  rcases mem_append.1 hy with hy | hy
  · exact (hcross y hy x (by simp)).apart.symm
  · rcases mem_cons.1 hy with rfl | hy
    · exact (hw x mem_cons_self).apart.symm
    · exact ((pairwise_cons.1 hrest').1 y hy).apart

/-- The list stays sorted when a block is cut. -/
theorem remainder_sorted {n : Nat} (hle : n ≤ x.size)
    (h : (pre ++ w :: x :: post).Pairwise Before) :
    (pre ++ w :: remainder x n ++ post).Pairwise Before := by
  rw [remainder]
  split_ifs with heq
  · refine h.sublist ?_
    rw [append_assoc, singleton_append]
    exact (List.Sublist.refl _).append ((sublist_cons_self _ _).cons_cons _)
  · rw [append_assoc, cons_append, singleton_append]
    have hcut {y : Block} (hy : Before x y) : Before ⟨x.addr, x.size - n⟩ y := by
      simp only [Before, stop] at hy ⊢
      omega
    obtain ⟨hpre, hrest, hcross⟩ := pairwise_append.1 h
    obtain ⟨hw, hrest'⟩ := pairwise_cons.1 hrest
    obtain ⟨hx, hpost⟩ := pairwise_cons.1 hrest'
    have hkeep {y : Block} (hy : ∀ z ∈ x :: post, Before y z) :
        ∀ z ∈ (⟨x.addr, x.size - n⟩ : Block) :: post, Before y z := by
      obtain ⟨hyx, hypost⟩ := forall_mem_cons.1 hy
      exact forall_mem_cons.2 ⟨hyx, hypost⟩
    refine pairwise_append.2 ⟨hpre, pairwise_cons.2 ⟨hkeep hw,
      pairwise_cons.2 ⟨fun y hy => hcut (hx y hy), hpost⟩⟩, fun y hy => ?_⟩
    obtain ⟨hyw, hyrest⟩ := forall_mem_cons.1 (hcross y hy)
    exact forall_mem_cons.2 ⟨hyw, hkeep hyrest⟩

/-- The block in front of `x` in the free list. -/
theorem Intact.exists_prev (hi : Intact base h bs live regions) {prevp : Nat}
    (hprev : prevp ∈ (⟨base, 0⟩ :: bs : List Block).map addr)
    (hptr : (h.mem prevp).ptr = x.addr) (hx : x ∈ bs) :
    ∃ pre w post, ⟨base, 0⟩ :: bs = pre ++ w :: x :: post ∧ w.addr = prevp := by
  obtain ⟨w, hw, rfl⟩ := mem_map.1 hprev
  obtain ⟨pre, post, heq⟩ := append_of_mem hw
  have hc := hi.circular
  rw [heq] at hc
  rw [hc.ptr_eq] at hptr
  have habove := (hi.placed x (mem_append_left _ hx)).above
  cases post with
  | nil =>
    simp only [map_nil, first_nil] at hptr
    omega
  | cons y post =>
    have hy : y ∈ (⟨base, 0⟩ :: bs : List Block) := by rw [heq]; simp
    obtain rfl : y = x := inj_on_of_nodup_map (addr_nodup hi.sorted) hy (mem_cons_of_mem _ hx) hptr
    exact ⟨pre, w, post, heq, rfl⟩

/-- The cut in `malloc`: a free block that is large enough gives its last units. -/
theorem Intact.after_take (hi : Intact base h bs live regions) {prevp n : Nat}
    (hprev : prevp ∈ (⟨base, 0⟩ :: bs : List Block).map addr) (hptr : (h.mem prevp).ptr = x.addr)
    (hx : x ∈ bs) (hn : 1 ≤ n) (hle : n ≤ x.size) :
    ∃ h' bs', takeBlock h prevp x.addr n = (h', (tailBlock x n).addr + 16) ∧
      Intact base h' bs' (tailBlock x n :: live) regions := by
  obtain ⟨pre, w, post, heq, rfl⟩ := hi.exists_prev hprev hptr hx
  obtain ⟨hplaced_free, hplaced_live⟩ := forall_mem_append.1 hi.placed
  have hc := hi.circular
  have hsorted := hi.sorted
  rw [heq] at hc hsorted
  obtain ⟨h', hrun, hfreep, hc', hsize, hframe⟩ := takeBlock_spec hc hle hsorted
  have hother := apart_of_sorted hsorted
  -- the first block is still `base`
  obtain ⟨bs', heq', hbs'⟩ : ∃ bs', pre ++ w :: remainder x n ++ post = ⟨base, 0⟩ :: bs' ∧
      ∀ y ∈ bs', y ∈ bs ∧ Apart x y ∨ y ∈ remainder x n := by
    cases pre with
    | nil =>
      obtain ⟨rfl, rfl⟩ := List.cons.inj heq
      refine ⟨remainder x n ++ post, rfl, fun y hy => ?_⟩
      rcases mem_append.1 hy with hy | hy
      · exact .inr hy
      · exact .inl ⟨mem_cons_of_mem _ hy, hother y (by simp [hy])⟩
    | cons p pre =>
      obtain ⟨rfl, rfl⟩ := List.cons.inj heq
      refine ⟨pre ++ w :: remainder x n ++ post, rfl, fun y hy => ?_⟩
      rcases mem_append.1 hy with hy | hy
      · rcases mem_append.1 hy with hy | hy
        · exact .inl ⟨by simp [hy], hother y (by simp [hy])⟩
        · rcases mem_cons.1 hy with rfl | hy
          · exact .inl ⟨by simp, hother y (by simp)⟩
          · exact .inr hy
      · exact .inl ⟨by simp [hy], hother y (by simp [hy])⟩
  have hx_placed := hplaced_free x hx
  have hunits := congrArg units heq
  have hunits' := congrArg units heq'
  have hremainder := units_remainder hle
  have hconserved := hi.conserved
  simp only [units_append, units_cons] at hunits hunits'
  have htail_le : x.addr ≤ (tailBlock x n).addr := le_add_right _ _
  have htail_stop := tailBlock_stop hle
  have htail_lt : (tailBlock x n).addr < x.stop := by
    simp only [stop, tailBlock]
    omega
  have hlive_x : ∀ z ∈ live, Apart z x := fun z hz => hi.free_apart z hz x hx
  refine ⟨h', bs', hrun, heq' ▸ hc', ?_, heq' ▸ remainder_sorted hle hsorted, ?_, ?_, ?_, ?_, ?_,
    hi.total_lt⟩
  · rw [hfreep, ← heq']
    simp
  · refine forall_mem_cons.2 ⟨hsize, fun z hz => ?_⟩
    have hzpos := (hplaced_live z hz).pos
    rw [hframe z.addr, hi.size z hz]
    · exact hi.addr_ne hz (by rw [heq]; simp)
    · exact addr_ne_of_apart (hlive_x z hz) hzpos (le_refl _) (lt_of_le_of_lt htail_le htail_lt)
    · exact addr_ne_of_apart (hlive_x z hz) hzpos htail_le htail_lt
  · refine forall_mem_cons.2 ⟨fun y hy => ?_, fun z hz y hy => ?_⟩
    · rcases hbs' y hy with ⟨-, hxy⟩ | hy
      · exact (apart_of_part hxy.symm htail_le htail_stop.le).symm
      · exact .inr (mem_remainder hle hy).2.2.le
    · rcases hbs' y hy with ⟨hy, -⟩ | hy
      · exact hi.free_apart z hz y hy
      · obtain ⟨haddr, -, hstop⟩ := mem_remainder hle hy
        exact apart_of_part (hlive_x z hz) haddr.ge (hstop.trans_le htail_lt.le)
  · refine pairwise_cons.2 ⟨fun z hz => ?_, hi.live_apart⟩
    exact (apart_of_part (hlive_x z hz) htail_le htail_stop.le).symm
  · obtain ⟨hpos, haligned, habove, r, hr, hstop⟩ := hx_placed
    refine forall_mem_append.2 ⟨fun y hy => ?_, forall_mem_cons.2 ⟨?_, hplaced_live⟩⟩
    · rcases hbs' y hy with ⟨hy, -⟩ | hy
      · exact hplaced_free y hy
      · obtain ⟨haddr, hypos, hystop⟩ := mem_remainder hle hy
        exact ⟨hypos, haddr ▸ haligned, haddr ▸ habove, r, hr,
          le_trans (hystop.trans_le htail_lt.le) hstop⟩
    · refine ⟨hn, dvd_add haligned (dvd_mul_right _ _), le_trans habove htail_le, r, hr,
        htail_stop.trans_le hstop⟩
  · have htail : (tailBlock x n).size = n := rfl
    rw [units_cons, htail]
    omega

end Malloc

end FogOS.Malloc
