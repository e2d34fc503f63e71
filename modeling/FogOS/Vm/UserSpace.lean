import FogOS.Vm.Trees

/-!
# User address spaces

The user pages of an address space are the pages from 0 up to its size, each owned by
the address space. `uvmalloc` and `uvmdealloc` move the end of this range. No address
space can have more pages than there are physical pages, so it never reaches the
pages at the top, and `uvmalloc` that fails leaves the map as it was.
-/

namespace FogOS.Vm

open Function Library Radix Nat Set Nat

/-- `(PHYSTOP - KERNBASE) / PGSIZE`. -/
def maxPages : Nat := (phystop - kernbase) / pgsize

/-- The number of pages of an address space of the given size. -/
def pages (sz : Nat) : Nat := (sz + (pgsize - 1)) / pgsize

theorem pgroundup_eq {sz : Nat} (h : sz + (pgsize - 1) < 2 ^ 64) :
    pgroundup sz = pages sz * pgsize := by
  rw [pgroundup, word, mod_eq_of_lt h, pages]

theorem pages_mul (v : Nat) : pages (v * pgsize) = v := by
  unfold pages pgsize
  omega

variable {τ : Type} {L : Link} {own own' : Owners τ} {r : Nat} {top m m' : PMap} {s s' : Memory}

/-- The map `m` has the user pages below `n`, all readable, and the pages of `top`. -/
structure Space (own : Owners τ) (r n : Nat) (top m : PMap) : Prop where
  low : ∀ {v}, v < n → ∃ pg flags, m v = some (pg, flags) ∧ own pg = .frame r v ∧ flags &&& pteR ≠ 0
  high : ∀ {v}, n ≤ v → m v = top v
  owned : ∀ {pg v}, own pg = .frame r v → v < n ∧ ∃ flags, m v = some (pg, flags)

namespace Space

variable {n : Nat}

/-- Every user page is a different physical page. -/
theorem le_maxPages (h : Space own r n top m) (hheap : Heap L own s) : n ≤ maxPages := by
  have hpage : ∀ v, v < n → ∃ pg, own pg = .frame r v := by
    intro v hv
    obtain ⟨pg, -, -, hpg, -⟩ := h.low hv
    exact ⟨pg, hpg⟩
  choose! page hpage using hpage
  have hkern := le_trans L.trampoline_pos (le_of_lt L.trampoline_lt)
  have hrange : ∀ v, v < n → L.InRange (page v) := fun v hv =>
    hheap.inRange (by rw [hpage v hv]; exact nofun)
  have hinto : ∀ v ∈ Finset.range n, (page v - kernbase) / pgsize ∈ Finset.range maxPages := by
    intro v hv
    obtain ⟨-, hlo, hhi⟩ := hrange v (Finset.mem_range.mp hv)
    rw [Finset.mem_range]
    unfold maxPages phystop kernbase pgsize at *
    omega
  have hinj : ∀ v ∈ Finset.range n, ∀ w ∈ Finset.range n,
      (page v - kernbase) / pgsize = (page w - kernbase) / pgsize → v = w := by
    intro v hv w hw heq
    obtain ⟨halv, hlov, -⟩ := hrange v (Finset.mem_range.mp hv)
    obtain ⟨halw, hlow, -⟩ := hrange w (Finset.mem_range.mp hw)
    have hsame : page v = page w := by
      unfold kernbase pgsize at *
      omega
    have hv' := hpage v (Finset.mem_range.mp hv)
    rw [hsame, hpage w (Finset.mem_range.mp hw)] at hv'
    cases hv'
    rfl
  have hcard := Finset.card_le_card_of_injOn _ hinto hinj
  rwa [Finset.card_range, Finset.card_range] at hcard

/-- Changes of other pages do not matter. -/
theorem of_foreign (h : Space own r n top m) {mem mem' : Bytes} {S T : Owner τ → Prop}
    (hs : Steady S T own own' mem mem') (hS : ∀ v, ¬ S (.frame r v)) (hT : ∀ v, ¬ T (.frame r v)) :
    Space own' r n top m := by
  refine ⟨fun hv => ?_, h.high, fun hq => ?_⟩
  · obtain ⟨pg, flags, hm, hpg, hflags⟩ := h.low hv
    exact ⟨pg, flags, hm, (hs.iff_of_foreign (hS _) (hT _) pg).mpr hpg, hflags⟩
  · exact h.owned ((hs.iff_of_foreign (hS _) (hT _) _).mp hq)

/-- Changes of free pages and tables do not matter. -/
theorem steady (h : Space own r n top m) {mem mem' : Bytes}
    (hs : Steady (Owner.Scratch r) (Owner.Scratch r) own own' mem mem') : Space own' r n top m :=
  h.of_foreign hs (fun v hp => notMem_empty v hp.2) fun v hp => notMem_empty v hp.2

theorem flags_ne {flags : Nat} (h : flags &&& pteR ≠ 0) : flags ≠ pteV := by
  rintro rfl
  exact h (by decide)

/-- The address space without the pages from `k` on. -/
theorem shrink (h : Space own r n top m) {k : Nat} (hk : k ≤ n)
    (htop : ∀ v, v < n → top v = none) : Space (release own r k n) r k top (m.unmapRange k n) := by
  refine ⟨fun {v} hv => ?_, fun {v} hv => ?_, fun {q v} hq => ?_⟩
  · obtain ⟨pg, flags, hm, hpg, hflags⟩ := h.low (lt_of_lt_of_le hv hk)
    refine ⟨pg, flags, ?_, ?_, hflags⟩
    · rw [PMap.unmapRange, if_neg (by omega), hm]
    · rw [release_frame hpg, if_neg (by omega)]
  · rw [PMap.unmapRange]
    by_cases hvn : v < n
    · rw [if_pos ⟨hv, hvn⟩, htop v hvn]
    · rw [if_neg (by omega), h.high (by omega)]
  · by_cases hframe : ∃ w, own q = .frame r w
    · obtain ⟨w, hw⟩ := hframe
      rw [release_frame hw] at hq
      split at hq
      · cases hq
      · rename_i hout
        cases hq
        obtain ⟨hv, flags, hm⟩ := h.owned hw
        exact ⟨by omega, flags, by rw [PMap.unmapRange, if_neg hout, hm]⟩
    · rw [release_of_not_frame fun w hw => hframe ⟨w, hw⟩] at hq
      exact absurd ⟨v, hq⟩ hframe

end Space

section Dealloc

/-- `uvmunmap` with `do_free` of the last pages of an address space. -/
theorem uvmunmap_tail {n k : Nat} (h : Rep L own r m s) (hspace : Space own r n top m)
    (hk : k ≤ n) :
    Returns (uvmunmap r (k * pgsize) (n - k) true) (fun _ s' =>
      Rep L (release own r k n) r (m.unmapRange k n) s' ∧
      Steady (Owner.Part r univ (Ico k n)) (Owner.Scratch r) own (release own r k n)
        s.mem s'.mem) s := by
  have hmax : n ≤ vpnMax := le_trans (hspace.le_maxPages h.heap) (by decide)
  have hsum : k + (n - k) = n := Nat.add_sub_cancel' hk
  rw [uvmunmap_eq (by omega), hsum]
  refine uvmunmapLoop_free h hk (by omega) hmax (fun w _ hw => ?_) fun w q _ _ hq =>
    (hspace.owned hq).2
  obtain ⟨pg, flags, hm, hpg, hflags⟩ := hspace.low hw
  exact ⟨pg, flags, hm, hpg, Space.flags_ne hflags⟩

theorem pages_mono {a b : Nat} (h : a ≤ b) : pages a ≤ pages b := by
  exact Nat.div_le_div_right (by omega)

/-- `uvmdealloc` frees the pages above the new size. A new size that is not smaller is ignored. -/
theorem uvmdealloc_spec {oldsz newsz : Nat} (h : Rep L own r m s)
    (hspace : Space own r (pages oldsz) top m) (hold : oldsz + (pgsize - 1) < 2 ^ 64) :
    Returns (uvmdealloc r oldsz newsz) (fun res s' => res = min oldsz newsz ∧
      Rep L (release own r (pages res) (pages oldsz)) r
        (m.unmapRange (pages res) (pages oldsz)) s' ∧
      Steady (Owner.Part r univ (Ico (pages res) (pages oldsz))) (Owner.Scratch r) own
        (release own r (pages res) (pages oldsz)) s.mem s'.mem) s := by
  unfold uvmdealloc
  rw [Returns, wp_ite]
  refine ⟨fun hle => ?_, fun hlt => ?_⟩
  · rw [wp_pure, release_self, PMap.unmapRange_self, Ico_self]
    exact ⟨(min_eq_left hle).symm, h, Steady.refl fun _ h => h⟩
  · have hmono : pages newsz ≤ pages oldsz := pages_mono (by omega)
    have hmax := hspace.le_maxPages h.heap
    have hsub : (pages oldsz * pgsize - pages newsz * pgsize) / pgsize =
        pages oldsz - pages newsz := by rw [← Nat.sub_mul, page_of_mul]
    have hint : intToWord (pages oldsz - pages newsz) = pages oldsz - pages newsz := by
      have hsmall : pages oldsz - pages newsz < 2 ^ 31 := by
        have : maxPages < 2 ^ 31 := by decide
        omega
      unfold intToWord
      rw [mod_eq_of_lt (by omega), if_pos hsmall]
    rw [pgroundup_eq hold, pgroundup_eq (by omega), hsub, hint]
    refine wp_seq_when (S := fun _ s' =>
      Rep L (release own r (pages newsz) (pages oldsz)) r
        (m.unmapRange (pages newsz) (pages oldsz)) s' ∧
      Steady (Owner.Part r univ (Ico (pages newsz) (pages oldsz))) (Owner.Scratch r) own
        (release own r (pages newsz) (pages oldsz)) s.mem s'.mem) ?_ fun s' hs' => ?_
    · rw [wp_ite]
      refine ⟨fun _ => uvmunmap_tail h hspace hmono, fun hsame => ?_⟩
      have heq : pages newsz = pages oldsz := by
        unfold pgsize at hsame
        omega
      rw [wp_pure, heq, release_self, PMap.unmapRange_self, Ico_self]
      exact ⟨h, Steady.refl fun _ h => h⟩
    · exact ⟨(min_eq_right (by omega)).symm, hs'⟩

end Dealloc

section Alloc

/-- The flags of the pages that `uvmalloc` maps. -/
def userFlags (xperm : Nat) : Nat := (pteR ||| pteU ||| xperm) ||| pteV

theorem flag_set {x i : Nat} (h : x.testBit i = true) : x &&& 1 <<< i ≠ 0 := by
  intro hz
  have hbit := congrArg (fun y => testBit y i) hz
  rw [testBit_and, h] at hbit
  simp at hbit

theorem userFlags_readable (xperm : Nat) : userFlags xperm &&& pteR ≠ 0 := by
  refine flag_set ?_
  have hbit : (pteR ||| pteU).testBit 1 = true := by decide
  rw [userFlags, testBit_or, testBit_or, hbit]
  rfl

/-- A free page becomes the next user page. -/
theorem Space.add {n p : Nat} (h : Space own r n top m) (hp : own p = .free) (xperm : Nat) :
    Space (update own p (.frame r n)) r (n + 1) top (update m n (some (p, userFlags xperm))) := by
  have hne : ∀ {q w}, own q = .frame r w → q ≠ p := by
    rintro q w hq rfl
    rw [hp] at hq
    cases hq
  refine ⟨fun {w} hw => ?_, fun {w} hw => ?_, fun {q w} hq => ?_⟩
  · by_cases hwn : w = n
    · subst hwn
      exact ⟨p, userFlags xperm, update_self _ _ _, update_self _ _ _, userFlags_readable xperm⟩
    · obtain ⟨pg, flags, hm, hpg, hflags⟩ := h.low (show w < n by omega)
      exact ⟨pg, flags, by rw [update_of_ne hwn, hm], by rw [update_of_ne (hne hpg), hpg], hflags⟩
  · rw [update_of_ne (by omega), h.high (by omega)]
  · by_cases hqp : q = p
    · rw [hqp, update_self] at hq
      cases hq
      exact ⟨lt_succ_self n, userFlags xperm, by rw [hqp, update_self]⟩
    · rw [update_of_ne hqp] at hq
      obtain ⟨hlt, flags, hm⟩ := h.owned hq
      exact ⟨by omega, flags, by rw [update_of_ne (by omega), hm]⟩

/-- The address space has grown from `lo` to `hi` pages. The new pages hold zeros. -/
structure Grown (L : Link) (r lo hi xperm : Nat) (top : PMap) (own : Owners τ) (m : PMap)
    (s : Memory) (own' : Owners τ) (m' : PMap) (s' : Memory) : Prop where
  rep : Rep L own' r m' s'
  space : Space own' r hi top m'
  steady : Steady (Owner.Scratch r) (Owner.Part r Set.univ (Set.Ico lo hi)) own own' s.mem s'.mem
  old : ∀ {v}, v < lo → m' v = m v
  fresh : ∀ {v}, lo ≤ v → v < hi → ∃ pg, m' v = some (pg, userFlags xperm) ∧
    ∀ i, i < pgsize → s'.mem (pg + i) = 0

/-- The address space is as it was. -/
structure Kept (L : Link) (r : Nat) (own : Owners τ) (m : PMap) (s : Memory) (own' : Owners τ)
    (s' : Memory) : Prop where
  rep : Rep L own' r m s'
  steady : Steady (Owner.Scratch r) (Owner.Scratch r) own own' s.mem s'.mem

variable {lo v xperm : Nat}

theorem Grown.zero (h : Rep L own r m s) (hspace : Space own r lo top m) :
    Grown L r lo lo xperm top own m s own m s where
  rep := h
  space := hspace
  steady := by
    rw [Ico_self]
    exact Steady.refl fun _ h => h
  old _ := rfl
  fresh hlo hhi := by omega

variable {own₀ own₁ : Owners τ} {m₀ : PMap} {s₀ s₁ : Memory}

/-- The pages that were added are given back. -/
theorem Grown.undo
    (h : Grown L r lo v xperm top own₀ m₀ s₀ own m s) (hspace : Space own₀ r lo top m₀)
    (hle : lo ≤ v) (htop : ∀ w, w < maxPages → top w = none) (hkept : Kept L r own m s own₁ s₁) :
    Returns (uvmdealloc r (v * pgsize) (lo * pgsize)) (fun _ s' => ∃ own',
      Kept L r own₀ m₀ s₀ own' s') s₁ := by
  have hmax := h.space.le_maxPages h.rep.heap
  have hspace₁ := h.space.steady hkept.steady
  have hsz : v * pgsize + (pgsize - 1) < 2 ^ 64 := by
    unfold maxPages phystop kernbase pgsize at *
    omega
  refine wp_mono (uvmdealloc_spec hkept.rep (by rwa [pages_mul]) hsz) ?_ fun _ he => he
  rintro res s' ⟨hres, hrep, hsteady⟩
  have hmin : min (v * pgsize) (lo * pgsize) = lo * pgsize :=
    min_eq_right (mul_le_mul_right _ hle)
  rw [hres, hmin, pages_mul, pages_mul] at hrep hsteady
  have hmap : m.unmapRange lo v = m₀ := by
    funext w
    rw [PMap.unmapRange]
    by_cases hlow : w < lo
    · rw [if_neg (by omega), h.old hlow]
    · rw [hspace.high (by omega)]
      by_cases hmid : w < v
      · rw [if_pos ⟨by omega, hmid⟩, htop w (by omega)]
      · rw [if_neg (by omega), h.space.high (by omega)]
  rw [hmap] at hrep
  -- No user page of the old address space lies in the range that is freed.
  have hnone : ∀ q, (own₀ q).Part r univ (Ico lo v) → (own₀ q).Scratch r := by
    intro q hq
    cases hown : own₀ q with
    | frame r' w =>
      rw [hown] at hq
      obtain ⟨rfl, hw⟩ := hq
      have := (hspace.owned hown).1
      exact absurd hw.1 (by omega)
    | _ =>
      rw [hown] at hq
      exact hq
  have hgrow := h.steady.trans hkept.steady (fun q hq => hq)
    (fun o ho => ho.mono (Subset.refl _) (empty_subset (Ico lo v))) fun o ho _ => ho
  exact ⟨_, hrep, hgrow.trans hsteady hnone (fun o ho => ho) fun o ho hnot => absurd ho hnot⟩

/-- The step of `uvmalloc`: a zeroed page `p` is owned by the address space, and then mapped. -/
theorem Grown.add {s₂ : Memory}
    {p : Nat} (h : Grown L r lo v xperm top own₀ m₀ s₀ own m s) (hle : lo ≤ v)
    (hp : own p = .free) (hwithin : Bytes.Within p pgsize s.mem s₁.mem)
    (hzero : ∀ i, i < pgsize → s₁.mem (p + i) = 0)
    (hsteady : Steady (Owner.Scratch r) (Owner.Scratch r) (update own p (.frame r v)) own₁
      s₁.mem s₂.mem)
    (hrep : Rep L own₁ r (update m v (some (p, userFlags xperm))) s₂) :
    Grown L r lo (v + 1) xperm top own₀ m₀ s₀ own₁ (update m v (some (p, userFlags xperm))) s₂ := by
  have hforeign : ∀ w, ¬ (Owner.frame r w : Owner τ).Part r univ ∅ := fun w hw =>
    notMem_empty w hw.2
  have hne : ∀ {q w}, own q = .frame r w → q ≠ p := by
    rintro q w hq rfl
    rw [hp] at hq
    cases hq
  have hpal : p % pgsize = 0 := (h.rep.heap.inRange (by rw [hp]; exact nofun)).aligned
  refine ⟨hrep, (h.space.add hp xperm).steady hsteady, ?_, fun {w} hw => ?_, fun {w} hlo hhi => ?_⟩
  · have hsub : ∀ o : Owner τ, o.Part r univ (Ico lo v) →
        o.Part r univ (Ico lo (v + 1)) := fun o ho =>
      ho.mono (Subset.refl _) (Ico_subset_Ico (le_refl lo) (le_succ v))
    have hempty : ∀ o : Owner τ, o.Scratch r → o.Part r univ (Ico lo (v + 1)) := fun o ho =>
      ho.mono (Subset.refl _) (empty_subset _)
    have hwas : (own₀ p).Scratch r := by
      by_contra hnot
      have hsame := h.steady.own_eq p hnot
      rw [hp] at hsame
      exact hnot (by rw [← hsame]; trivial)
    have hgrow := (h.steady.mono (fun _ ho => ho) hsub hempty).touch hpal hwas
      (show (Owner.frame r v).Part r univ (Ico lo (v + 1)) from
        ⟨rfl, hle, lt_succ_self v⟩) hwithin
    exact hgrow.trans hsteady (fun _ hq => hq) hempty fun _ ho _ => ho
  · rw [update_of_ne (by omega), h.old hw]
  · have hkeep : ∀ q, q % pgsize = 0 → (∃ w, update own p (.frame r v) q = .frame r w) →
        SamePage s₁.mem s₂.mem q := by
      rintro q hal ⟨w', hq⟩
      exact hsteady.same q hal (by rw [hq]; exact hforeign w')
    by_cases hwv : w = v
    · subst hwv
      refine ⟨p, update_self _ _ _, fun i hi => ?_⟩
      rw [hkeep p hpal ⟨w, update_self _ _ _⟩ i hi, hzero i hi]
    · obtain ⟨pg, hm, hbytes⟩ := h.fresh hlo (show w < v by omega)
      obtain ⟨pg', flags, hm', hpg, -⟩ := h.space.low (show w < v by omega)
      rw [hm] at hm'
      cases hm'
      have hpgal : pg % pgsize = 0 := (h.rep.heap.inRange (by rw [hpg]; exact nofun)).aligned
      refine ⟨pg, by rw [update_of_ne hwv, hm], fun i hi => ?_⟩
      rw [hkeep pg hpgal ⟨w, by rw [update_of_ne (hne hpg), hpg]⟩ i hi,
        samePage_of_within hwithin hpal hpgal (hne hpg).symm i hi, hbytes i hi]

/-- A page was taken for the address space, but could not be mapped and is freed again. -/
theorem Kept.of_refused {s₂ s₃ : Memory} {p : Nat} (hp : own p = .free)
    (hpal : p % pgsize = 0) (hrange : ∀ q, own₁ q = .outside ↔ ¬ L.InRange q)
    (hwithin : Bytes.Within p pgsize s.mem s₁.mem)
    (hsteady : Steady (Owner.Scratch r) (Owner.Scratch r) (update own p (.frame r v)) own₁
      s₁.mem s₂.mem)
    (htable : TableRep s₂.mem own₁ r m) (hheap : Heap L (update own₁ p .free) s₃)
    (hfreed : Bytes.Within p pgsize s₂.mem s₃.mem) :
    Kept L r own m s (update own₁ p .free) s₃ := by
  have hpr : L.InRange p := hheap.inRange (by rw [update_self]; exact nofun)
  have hframe : own₁ p = .frame r v := by
    rw [hsteady.own_eq p (by rw [update_self]; exact fun hw => notMem_empty v hw.2),
      update_self]
  have hother : ∀ {q}, q ≠ p → update own p (.frame r v) q = own q := fun hq =>
    update_of_ne hq _ _
  have hne : ∀ {q}, ¬ (own q).Scratch r → q ≠ p := by
    rintro q hq rfl
    rw [hp] at hq
    exact hq trivial
  refine ⟨⟨hheap, htable.touch hrange hpr (by rw [hframe]; exact nofun) nofun hfreed⟩,
    fun q hq => ?_, fun q hal hq i hi => ?_, fun q hq => ?_⟩
  · rw [update_of_ne (hne hq), hsteady.own_eq q (by rwa [hother (hne hq)]),
      hother (hne hq)]
  · rw [samePage_of_within hfreed hpal hal (hne hq).symm i hi,
      hsteady.same q hal (by rwa [hother (hne hq)]) i hi,
      samePage_of_within hwithin hpal hal (hne hq).symm i hi]
  · by_cases hqp : q = p
    · rw [hqp, update_self]
      trivial
    · rw [update_of_ne hqp]
      exact hsteady.into q (by rwa [hother hqp])

/-- The loop of `uvmalloc` over `k` more pages, when `v` are mapped. -/
theorem uvmallocLoop_spec {k newsz : Nat}
    (h : Grown L r lo v xperm top own₀ m₀ s₀ own m s) (hspace : Space own₀ r lo top m₀)
    (hle : lo ≤ v) (htop : ∀ w, w < maxPages → top w = none) (hperm : xperm < 1024) :
    Returns (uvmallocLoop r (lo * pgsize) newsz xperm k (v * pgsize)) (fun res s' =>
      (res = newsz ∧ ∃ own' m', Grown L r lo (v + k) xperm top own₀ m₀ s₀ own' m' s') ∨
      (res = 0 ∧ ∃ own', Kept L r own₀ m₀ s₀ own' s')) s := by
  induction k generalizing v own m s with
  | zero =>
    exact Or.inl ⟨rfl, own, m, h⟩
  | succ k ih =>
    have hperm' : pteR ||| pteU ||| xperm < 1024 :=
      or_lt_two_pow (n := 10) (by decide) hperm
    refine wp_seq (kalloc_spec h.rep.heap) fun p s₁ hp => ?_
    rw [wp_ite]
    rcases hp with ⟨rfl, hheap, hmem⟩ | ⟨hfree, hheap, hmem⟩
    · refine ⟨fun _ => ?_, fun hne => absurd rfl hne⟩
      have hkept : Kept L r own m s own s₁ :=
        ⟨⟨hheap, by rw [hmem]; exact h.rep.table⟩, by rw [hmem]; exact Steady.refl fun _ h => h⟩
      refine wp_seq (h.undo hspace hle htop hkept) fun _ s₂ hs₂ => ?_
      exact Or.inr ⟨rfl, hs₂⟩
    · have hpr : L.InRange p := h.rep.heap.inRange (by rw [hfree]; exact nofun)
      have hpos := hpr.pos
      have hlt : p < 2 ^ 64 := lt_trans hpr.lt (by decide)
      refine ⟨fun hz => absurd hz (by omega), fun _ => ?_⟩
      have hfill := Bytes.within_fill s₁.mem p pgsize 0
      have hrep : Rep L (update own p (.frame r v)) r m { s₁ with mem := s₁.mem.fill p pgsize 0 } :=
        ⟨(hheap (.frame r v) nofun nofun).write hpr.aligned
          (by rw [update_self]; exact nofun) rfl rfl hfill,
          h.rep.table.touch h.rep.heap.range hpr (by rw [hfree]; exact nofun) nofun
            (hmem.trans hfill)⟩
      have hbound : v + 1 ≤ maxPages := (h.space.add hfree xperm).le_maxPages hrep.heap
      have hvpn : v < vpnMax := lt_of_lt_of_le hbound (by decide)
      have hnone : m v = none := by rw [h.space.high (le_refl v), htop v hbound]
      rw [wp_bind]
      refine wp_seq (mappages_page hrep hvpn hnone hperm' hpr.aligned hlt) ?_
      rintro res s₂ ⟨own₁, hsteady, ⟨rfl, hmapped⟩ | ⟨rfl, hunmapped⟩⟩
      · have hgrown := h.add hle hfree (hmem.trans hfill)
          (fun i hi => Bytes.fill_apply_inside
            ⟨Nat.le_add_right p i, Nat.add_lt_add_left hi p⟩ 0) hsteady hmapped
        have hnext : v * pgsize + pgsize = (v + 1) * pgsize := by rw [add_mul, one_mul]
        have hcount : v + (k + 1) = v + 1 + k := by omega
        rw [if_neg (by decide), hnext, hcount]
        exact ih hgrown (by omega)
      · have hframe : own₁ p = .frame r v := by
          rw [hsteady.own_eq p (by
            rw [update_self]
            exact fun hw => notMem_empty v hw.2), update_self]
        refine wp_seq (kfree_spec hunmapped.heap (by rw [hframe]; exact nofun)
          (by rw [hframe]; exact nofun)) ?_
        rintro _ s₃ ⟨hheap₃, hfreed⟩
        have hkept : Kept L r own m s (update own₁ p .free) s₃ :=
          Kept.of_refused hfree hpr.aligned hunmapped.heap.range (hmem.trans hfill) hsteady
            hunmapped.table hheap₃ hfreed
        refine wp_seq (h.undo hspace hle htop hkept) fun _ s₄ hs₄ => ?_
        exact Or.inr ⟨rfl, hs₄⟩

/-- `uvmalloc` grows the address space to `newsz`, or returns 0 and leaves it as it was. -/
theorem uvmalloc_spec {oldsz newsz : Nat} (h : Rep L own r m s)
    (hspace : Space own r (pages oldsz) top m) (hle : oldsz ≤ newsz)
    (hold : oldsz + (pgsize - 1) < 2 ^ 64) (htop : ∀ w, w < maxPages → top w = none)
    (hperm : xperm < 1024) :
    Returns (uvmalloc r oldsz newsz xperm) (fun res s' =>
      (res = newsz ∧ ∃ own' m',
        Grown L r (pages oldsz) (pages newsz) xperm top own m s own' m' s') ∨
      (res = 0 ∧ ∃ own', Kept L r own m s own' s')) s := by
  have hcount : pages oldsz + (newsz - pages oldsz * pgsize + (pgsize - 1)) / pgsize =
      pages newsz := by
    unfold pages pgsize
    omega
  have hloop : Returns (uvmallocLoop r (pages oldsz * pgsize) newsz xperm
      ((newsz - pages oldsz * pgsize + (pgsize - 1)) / pgsize) (pages oldsz * pgsize)) _ s :=
    uvmallocLoop_spec (Grown.zero h hspace) hspace (le_refl _) htop hperm
  rw [hcount] at hloop
  rw [uvmalloc, if_neg (by omega)]
  simp only [pgroundup_eq hold]
  exact hloop

end Alloc

end FogOS.Vm
