import FogOS.Malloc.Intact

/-!
# The loop of `malloc`

From a heap that is intact the loop visits every free block once, calls `morecore` at most once, and
then finds a block: the one that `free` has put into the list is large enough, and the loop reaches
it also if it has been joined to the block that `freep` refers to.
-/

namespace FogOS.Malloc

open Library.Cycle Block List Nat Nat

section Scan

variable {h : Heap}

/-- The loop takes the block `x`, which is behind `v`. -/
def Takes (sbrk : Sbrk) (n fuel : Nat) (h : Heap) (p : Nat) (calls : List Call) (v x : Block) :
    Prop :=
  mallocLoop sbrk n fuel h p (h.mem p).ptr calls =
    some ((takeBlock h v.addr x.addr n).1, (takeBlock h v.addr x.addr n).2, calls)

/-- The loop along blocks none of which is the one of `freep`: it takes one of them, or all are too
small and it goes on behind them. -/
theorem mallocLoop_scan (sbrk : Sbrk) (n : Nat) (calls : List Call) {w : Block} {r : List Block}
    {e : Nat} (hl : Linked (fun a => (h.mem a).ptr) ((w :: r).map Block.addr) e)
    (hsize : ∀ b ∈ r, (h.mem b.addr).size = b.size) (hne : ∀ b ∈ r, b.addr ≠ h.freep) :
    (∃ v ∈ w :: r, ∃ x ∈ r, n ≤ x.size ∧ (h.mem v.addr).ptr = x.addr ∧
      ∀ fuel, r.length ≤ fuel → Takes sbrk n fuel h w.addr calls v x) ∨
    (∀ x ∈ r, x.size < n) ∧ ∃ v ∈ w :: r, (h.mem v.addr).ptr = e ∧
      ∀ fuel, mallocLoop sbrk n (fuel + r.length) h w.addr (h.mem w.addr).ptr calls =
        mallocLoop sbrk n fuel h v.addr e calls := by
  induction r generalizing w with
  | nil =>
    have hlink : (h.mem w.addr).ptr = e := hl.1
    refine .inr ⟨fun x hx => absurd hx not_mem_nil, w, mem_cons_self, hlink, fun fuel => ?_⟩
    rw [hlink]
    rfl
  | cons y r ih =>
    obtain ⟨hlink, hrest⟩ := hl
    have hlink' : (h.mem w.addr).ptr = y.addr := hlink
    obtain ⟨hsize_y, hsize⟩ := forall_mem_cons.1 hsize
    obtain ⟨hne_y, hne⟩ := forall_mem_cons.1 hne
    by_cases hy : n ≤ y.size
    · refine .inl ⟨w, mem_cons_self, y, mem_cons_self, hy, hlink', fun fuel hfuel => ?_⟩
      obtain ⟨fuel, rfl⟩ := exists_eq_succ_of_ne_zero
        (ne_of_gt (lt_of_lt_of_le (succ_pos _) hfuel))
      have hy' : (h.mem y.addr).size ≥ n := by rwa [hsize_y]
      rw [Takes, hlink']
      simp only [mallocLoop, if_pos hy']
    · -- `y` is too small and is not where the loop started
      have hy' : ¬(h.mem y.addr).size ≥ n := by rwa [hsize_y]
      have hstep (fuel : Nat) : mallocLoop sbrk n (fuel + 1) h w.addr (h.mem w.addr).ptr calls =
          mallocLoop sbrk n fuel h y.addr (h.mem y.addr).ptr calls := by
        rw [hlink']
        simp only [mallocLoop, if_neg hy', if_neg hne_y]
      rcases ih hrest hsize hne with ⟨v, hv, x, hx, hle, hptr, htakes⟩ | ⟨hsmall, v, hv, hptr, hrun⟩
      · refine .inl ⟨v, mem_cons_of_mem _ hv, x, mem_cons_of_mem _ hx, hle, hptr,
          fun fuel hfuel => ?_⟩
        obtain ⟨fuel, rfl⟩ := exists_eq_succ_of_ne_zero
          (ne_of_gt (lt_of_lt_of_le (succ_pos _) hfuel))
        rw [Takes, hstep]
        exact htakes fuel (le_of_succ_le_succ hfuel)
      · refine .inr ⟨forall_mem_cons.2 ⟨Nat.lt_of_not_le hy, hsmall⟩, v,
          mem_cons_of_mem _ hv, hptr, fun fuel => ?_⟩
        rw [length_cons, ← add_assoc, hstep, hrun]

end Scan

section Loop

variable {n base : Nat} {h : Heap} {bs live : List Block} {regions : List Region}

/-- One turn of the loop around the list: it takes a block, or all are too small and it calls
`morecore`. -/
theorem Intact.mallocLoop_cycle (hi : Intact base h bs live regions) (sbrk : Sbrk)
    (calls : List Call) (hn : 1 ≤ n) :
    (∃ v ∈ (⟨base, 0⟩ :: bs : List Block), ∃ x ∈ bs, n ≤ x.size ∧ (h.mem v.addr).ptr = x.addr ∧
      ∀ fuel, bs.length + 1 ≤ fuel → Takes sbrk n fuel h h.freep calls v x) ∨
    (∀ x ∈ bs, x.size < n) ∧ ∃ v, ∀ fuel,
      mallocLoop sbrk n (fuel + 1 + bs.length) h h.freep (h.mem h.freep).ptr calls =
        mallocLoop sbrk n (fuel + 1) h v h.freep calls := by
  obtain ⟨w, r, hperm, hfreep, hl⟩ := hi.circular.rotate rfl hi.freep
  have hsize : ∀ b ∈ w :: r, (h.mem b.addr).size = b.size :=
    fun b hb => hi.circular.size b (hperm.mem_iff.1 hb)
  have hlen : r.length = bs.length := succ.inj hperm.length_eq
  have hnodup : ((w :: r).map Block.addr).Nodup :=
    (hperm.map Block.addr).nodup_iff.2 (addr_nodup hi.sorted)
  -- `base` is empty, so a block that is large enough is another one
  have hbs : ∀ x ∈ w :: r, n ≤ x.size → x ∈ bs := by
    intro x hx hle
    rcases mem_cons.1 (hperm.mem_iff.1 hx) with rfl | hx
    · simp only at hle
      omega
    · exact hx
  have hne : ∀ b ∈ r, b.addr ≠ h.freep := by
    intro b hb heq
    refine (nodup_cons.1 hnodup).1 ?_
    rw [hfreep, ← heq]
    exact mem_map_of_mem hb
  rcases mallocLoop_scan sbrk n calls hl (fun b hb => hsize b (mem_cons_of_mem _ hb)) hne with
    ⟨v, hv, x, hx, hle, hptr, htakes⟩ | ⟨hsmall, v, hv, hptr, hrun⟩
  · refine .inl ⟨v, hperm.mem_iff.1 hv, x, hbs x (mem_cons_of_mem _ hx) hle, hle, hptr,
      fun fuel hfuel => ?_⟩
    rw [← hfreep]
    exact htakes fuel (by omega)
  · rw [hfreep] at hrun
    by_cases hw : n ≤ w.size
    · refine .inl ⟨v, hperm.mem_iff.1 hv, w, hbs w mem_cons_self hw, hw, hptr,
        fun fuel hfuel => ?_⟩
      obtain ⟨fuel, rfl⟩ : ∃ k, fuel = k + 1 + r.length := ⟨fuel - 1 - r.length, by omega⟩
      have hw' : (h.mem w.addr).size ≥ n := by rwa [hsize w mem_cons_self]
      rw [Takes, hrun, ← hfreep]
      simp only [mallocLoop, if_pos hw']
    · refine .inr ⟨fun x hx => ?_, v.addr, fun fuel => ?_⟩
      · rcases mem_cons.1 (hperm.mem_iff.2 (mem_cons_of_mem _ hx)) with rfl | hx
        · exact Nat.lt_of_not_le hw
        · exact hsmall x hx
      · rw [← hlen, hrun]

end Loop

/-- The regions that some calls of `sbrk` have returned, the last one first. -/
def grants (calls : List Call) : List Region :=
  calls.reverse.filterMap fun c => c.answer.map fun a => ⟨a, c.bytes.toNat⟩

/-- The address that `sbrk` returns is aligned, above `base` and above all earlier regions, and the
heap stays small. -/
structure Granted (base : Nat) (regions : List Region) (bytes : Int) (a : Nat) : Prop where
  aligned : 16 ∣ a
  above : base + 16 ≤ a
  fresh : ∀ r ∈ regions, r.stop ≤ a
  small : total regions + bytes.toNat < 2 ^ 31

instance (base : Nat) (regions : List Region) (bytes : Int) (a : Nat) :
    Decidable (Granted base regions bytes a) :=
  decidable_of_iff
    (16 ∣ a ∧ base + 16 ≤ a ∧ (∀ r ∈ regions, r.stop ≤ a) ∧ total regions + bytes.toNat < 2 ^ 31)
    ⟨fun ⟨h₁, h₂, h₃, h₄⟩ => ⟨h₁, h₂, h₃, h₄⟩, fun ⟨h₁, h₂, h₃, h₄⟩ => ⟨h₁, h₂, h₃, h₄⟩⟩

/-- Each answer of `sbrk` is -1 or the start of the bytes that were requested. -/
def SbrkSound (base : Nat) (regions : List Region) (sbrk : Sbrk) : Prop :=
  ∀ calls bytes a, sbrk calls bytes = some a → Granted base (grants calls ++ regions) bytes a

section Malloc

variable {sbrk : Sbrk} {n base : Nat} {h : Heap} {bs live : List Block} {regions : List Region}

theorem toInt_eq {n : Nat} (hn : n < 2 ^ 31) : toInt n = n := by
  have hmod : n % 2 ^ 32 = n := mod_eq_of_lt (by omega)
  rw [toInt, BitVec.toInt_eq_toNat_of_lt]
  · rw [BitVec.toNat_ofNat, hmod]
  · rw [BitVec.toNat_ofNat, hmod]
    omega

section

variable (hi : Intact base h bs live regions)

include hi

theorem Intact.freep_ne_zero (hbase : 0 < base) : h.freep ≠ 0 := by
  obtain ⟨b, hb, hfreep⟩ := mem_map.1 hi.freep
  rcases mem_cons.1 hb with rfl | hb
  · rw [← hfreep]
    exact hbase.ne'
  · have := (hi.placed b (mem_append_left _ hb)).above
    omega

/-- `morecore` when `sbrk` returns memory. -/
theorem Intact.after_morecore {answer : Int → Option Nat}
    (hn : n * 16 < 2 ^ 31) {fuel a : Nat} (hfuel : bs.length + 1 ≤ fuel)
    (hanswer : answer (toInt ((if n < 4096 then 4096 else n) * 16)) = some a)
    (hgranted : Granted base regions (toInt ((if n < 4096 then 4096 else n) * 16)) a) :
    ∃ h' bs', morecore fuel answer h n =
        some (h', h'.freep, ⟨toInt ((if n < 4096 then 4096 else n) * 16), some a⟩) ∧
      Intact base h' bs' live
        (⟨a, (toInt ((if n < 4096 then 4096 else n) * 16)).toNat⟩ :: regions) ∧
      bs'.length ≤ bs.length + 1 ∧ ∃ y ∈ bs', n ≤ y.size := by
  obtain ⟨nu, hnu⟩ : ∃ nu, nu = if n < 4096 then 4096 else n := ⟨_, rfl⟩
  have hle : 1 ≤ nu ∧ n ≤ nu ∧ nu * 16 < 2 ^ 31 := by
    split_ifs at hnu <;> omega
  rw [← hnu] at hanswer hgranted ⊢
  have hint := toInt_eq hle.2.2
  rw [hint] at hanswer hgranted ⊢
  have hnew := hi.after_sbrk (r := ⟨a, nu * 16⟩) hle.1 (mul_comm _ _) hgranted.aligned
    hgranted.above hgranted.fresh hgranted.small
  obtain ⟨h', bs', hrun, hi', hlen, y, hy, hlarge⟩ := hnew.after_free hfuel
  refine ⟨h', bs', ?_, hi', hlen, y, hy, le_trans hle.2.1 hlarge⟩
  have hrun' : Malloc.free fuel (h.set a ⟨(h.mem a).ptr, nu⟩) (a + 16) = some h' := hrun
  simp only [morecore, ← hnu, hint, hanswer, hrun', bind, Option.bind_some, pure]

/-- The result of `malloc`: nothing, or a new live block of `n` units. -/
def Served (base n : Nat) (live : List Block) (regions : List Region) (h : Heap) (p : Nat) : Prop :=
  p = 0 ∧ (∃ bs, Intact base h bs live regions) ∨
    ∃ b : Block, p = b.addr + 16 ∧ b.size = n ∧ ∃ bs, Intact base h bs (b :: live) regions

theorem Intact.served_of_takes {v x : Block} (hv : v ∈ (⟨base, 0⟩ :: bs : List Block)) (hx : x ∈ bs)
    (hn : 1 ≤ n) (hle : n ≤ x.size) (hptr : (h.mem v.addr).ptr = x.addr) :
    Served base n live regions (takeBlock h v.addr x.addr n).1 (takeBlock h v.addr x.addr n).2 := by
  obtain ⟨h', bs', htake, hi'⟩ := hi.after_take (mem_map_of_mem hv) hptr hx hn hle
  rw [htake]
  exact .inr ⟨tailBlock x n, rfl, rfl, bs', hi'⟩

/-- The loop of `malloc` ends, with one call of `morecore` at most. -/
theorem Intact.mallocLoop_served (hbase : 0 < base) (hsound : SbrkSound base regions sbrk)
    (hn : 1 ≤ n) (hfits : n * 16 < 2 ^ 31) {fuel : Nat} (hfuel : 2 * bs.length + 3 ≤ fuel) :
    ∃ h' p calls, mallocLoop sbrk n fuel h h.freep (h.mem h.freep).ptr [] = some (h', p, calls) ∧
      calls.length ≤ 1 ∧ Served base n live (grants calls ++ regions) h' p := by
  rcases hi.mallocLoop_cycle sbrk [] hn with
    ⟨v, hv, x, hx, hle, hptr, htakes⟩ | ⟨hsmall, v, hrun⟩
  · exact ⟨_, _, _, htakes fuel (by omega), zero_le _, hi.served_of_takes hv hx hn hle hptr⟩
  · obtain ⟨k, rfl⟩ : ∃ k, fuel = k + 1 + bs.length := ⟨fuel - 1 - bs.length, by omega⟩
    -- the block of `freep` is too small as well
    have hfreep : ¬(h.mem h.freep).size ≥ n := by
      obtain ⟨b, hb, heq⟩ := mem_map.1 hi.freep
      rw [← heq, hi.circular.size b hb]
      rcases mem_cons.1 hb with rfl | hb
      · simp only
        omega
      · exact Nat.not_le_of_lt (hsmall b hb)
    rw [hrun]
    simp only [mallocLoop, if_neg hfreep, if_true]
    cases hanswer : sbrk [] (toInt ((if n < 4096 then 4096 else n) * 16)) with
    | none =>
      refine ⟨h, 0, [⟨toInt ((if n < 4096 then 4096 else n) * 16), none⟩], ?_, le_refl _,
        .inl ⟨rfl, bs, hi⟩⟩
      simp only [morecore, hanswer, if_true, nil_append]
    | some a =>
      have hk : bs.length + 1 ≤ k := by omega
      obtain ⟨h', bs', hmore, hi', hlen, y, hy, hlarge⟩ :=
        hi.after_morecore hfits hk hanswer (hsound _ _ _ hanswer)
      rw [hmore]
      simp only [if_neg (hi'.freep_ne_zero hbase), nil_append]
      rcases hi'.mallocLoop_cycle sbrk [⟨_, some a⟩] hn with
        ⟨v, hv, x, hx, hle, hptr, htakes⟩ | ⟨hsmall', -⟩
      · exact ⟨_, _, _, htakes k (by omega), le_refl _, hi'.served_of_takes hv hx hn hle hptr⟩
      · exact absurd (hsmall' y hy) (Nat.not_lt_of_le hlarge)

end

end Malloc

end FogOS.Malloc
