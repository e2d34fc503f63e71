import FogOS.Vm.Walk

/-!
# Mapping and unmapping ranges of pages

`mappages` enters a range of pages in the map that a table represents, or a prefix of
it when a table cannot be allocated. `uvmunmap` removes a range, and gives the pages
back to the free list if it is asked to.
-/

namespace FogOS.Vm

open Function Library Radix Set Nat Set

/-- The map with the `k` pages from `v` on mapped to the pages from `pa` on. -/
def PMap.mapRange (m : PMap) (v pa flags k : Nat) : PMap := fun w =>
  if v ≤ w ∧ w < v + k then some (pa + (w - v) * pgsize, flags) else m w

/-- The map without the pages from `lo` up to `hi`. -/
def PMap.unmapRange (m : PMap) (lo hi : Nat) : PMap := fun w =>
  if lo ≤ w ∧ w < hi then none else m w

section Ranges

variable {m : PMap} {v pa flags k w hi : Nat}

@[simp] theorem PMap.mapRange_zero : m.mapRange v pa flags 0 = m := by
  funext w
  exact if_neg (by omega)

theorem PMap.mapRange_succ :
    PMap.mapRange (update m v (some (pa, flags))) (v + 1) (pa + pgsize) flags k =
      m.mapRange v pa flags (k + 1) := by
  funext w
  unfold PMap.mapRange
  by_cases hw : w = v
  · subst hw
    rw [if_neg (by omega), if_pos (by omega), update_self, Nat.sub_self, Nat.zero_mul, add_zero]
  · rw [update_of_ne hw]
    by_cases hin : v ≤ w ∧ w < v + (k + 1)
    · have hsub : w - v = w - (v + 1) + 1 := by omega
      rw [if_pos (by omega), if_pos hin, hsub, add_mul, one_mul]
      congr 2
      omega
    · rw [if_neg (by omega), if_neg hin]

theorem PMap.mapRange_one : m.mapRange v pa flags 1 = update m v (some (pa, flags)) := by
  rw [← PMap.mapRange_succ, PMap.mapRange_zero]

@[simp] theorem PMap.unmapRange_self : m.unmapRange v v = m := by
  funext w
  exact if_neg (by omega)

theorem PMap.unmapRange_succ (h : v < hi) :
    PMap.unmapRange (update m v none) (v + 1) hi = m.unmapRange v hi := by
  funext w
  unfold PMap.unmapRange
  by_cases hw : w = v
  · subst hw
    rw [if_neg (by omega), if_pos (by omega), update_self]
  · rw [update_of_ne hw]
    by_cases hin : v ≤ w ∧ w < hi
    · rw [if_pos (by omega), if_pos hin]
    · rw [if_neg (by omega), if_neg hin]

end Ranges

variable {τ : Type} {L : Link} {own : Owners τ} {r : Nat} {m : PMap} {s : Memory} {va : Nat}

section Leaves

theorem page_of_mul (v : Nat) : v * pgsize / pgsize = v := Nat.mul_div_cancel v (by decide)

theorem pgrounddown_of_aligned {a : Nat} (h : a % pgsize = 0) : pgrounddown a = a := by
  unfold pgrounddown pgsize at *
  omega

theorem mul_lt_maxva {v : Nat} : v * pgsize < maxva ↔ v < vpnMax := by
  unfold vpnMax maxva pgsize
  omega

/-- `walk` finds the leaf entry of a page that is mapped. -/
theorem Rep.walk_mapped (h : Rep L own r m s) (hva : va < maxva) (hm : m (va / pgsize) ≠ none) :
    ∃ pte, LeafEntry own r va pte ∧ walk r va false s = .ok (pte, s) := by
  obtain ⟨-, pg, hpg⟩ := h.table.mapped hm
  refine ⟨pg + 8 * (va / pgsize % 512), ⟨pg, hpg, rfl⟩, ?_⟩
  rw [walk_find hva, h.table.tableAt_eq hpg]
  rfl

theorem LeafEntry.pos {pte : Nat} (hpte : LeafEntry own r va pte) (h : Heap L own s) : pte ≠ 0 := by
  obtain ⟨pg, hpg, rfl⟩ := hpte
  have hpr : L.InRange pg := h.inRange (by rw [hpg]; exact nofun)
  have hpos := hpr.pos
  omega

theorem Rep.decode_leaf (h : Rep L own r m s) {pte : Nat} (hpte : LeafEntry own r va pte) :
    decode (s.mem.getLE pte 8) = m (va / pgsize) := by
  obtain ⟨pg, hpg, rfl⟩ := hpte
  have hleaf := h.table.leaf hpg (mod_lt (va / pgsize) (show 0 < 512 by decide))
  rwa [div_add_mod'] at hleaf

/-- A leaf entry is overwritten. -/
theorem Rep.setLeaf (h : Rep L own r m s) {pte v : Nat} (hpte : LeafEntry own r va pte)
    (hva : va < maxva) (hv : v < 2 ^ 64) :
    Rep L own r (update m (va / pgsize) (decode v)) { s with mem := s.mem.setLE pte 8 v } ∧
    Steady (Owner.Scratch r) (Owner.Scratch r) own own s.mem (s.mem.setLE pte 8 v) := by
  obtain ⟨pg, hpg, rfl⟩ := hpte
  have hi : va / pgsize % 512 < 512 := mod_lt _ (by decide)
  have hpr := h.node_inRange hpg
  have hbound : va / pgsize < vpnMax := by
    unfold vpnMax maxva pgsize at *
    omega
  have hset := h.table.setLeaf h.heap.range hpg hi hv (by rw [div_add_mod']; exact fun _ => hbound)
  rw [div_add_mod'] at hset
  have hstart : Steady (Owner.Scratch r) (Owner.Scratch r) own own s.mem s.mem :=
    Steady.refl fun _ h => h
  exact ⟨⟨h.heap.write hpr.aligned (by rw [hpg]; exact nofun) rfl rfl
    (within_setEntry _ _ _ hi), hset⟩,
    hstart.write hpr.aligned (by rw [hpg]; exact ⟨rfl, trivial⟩) (within_setEntry _ _ _ hi)⟩

end Leaves

section Mappages

variable {perm : Nat}

/-- The loop of `mappages` over the pages from `v` to `v + j`, none of which is mapped. -/
theorem mappagesLoop_spec {n v j pa : Nat} (h : Rep L own r m s) (hj : v + j < vpnMax)
    (hn : j < n) (hunmapped : ∀ w, v ≤ w → w ≤ v + j → m w = none) (hperm : perm < 1024)
    (hal : pa % pgsize = 0) (hpa : pa + j * pgsize < 2 ^ 64) :
    Returns (mappagesLoop r ((v + j) * pgsize) perm n (v * pgsize) pa) (fun res s' =>
      ∃ own' k, Rep L own' r (m.mapRange v pa (perm ||| pteV) k) s' ∧
        Steady (Owner.Scratch r) (Owner.Scratch r) own own' s.mem s'.mem ∧
        (res = 0 ∧ k = j + 1 ∨ res = -1 ∧ k ≤ j)) s := by
  induction n generalizing v j pa m own s with
  | zero => omega
  | succ n ih =>
    have hva : v * pgsize < maxva := mul_lt_maxva.mpr (by omega)
    have hlt : pa < 2 ^ 64 := by omega
    refine wp_seq (walk_alloc hva h) ?_
    rintro pte s₁ ⟨own₁, hrep, hsteady, hpte⟩
    rw [wp_ite]
    refine ⟨fun _ => ?_, fun hne => ?_⟩
    · -- No table: nothing more is mapped.
      exact ⟨own₁, 0, by rwa [PMap.mapRange_zero], hsteady, Or.inr ⟨rfl, zero_le j⟩⟩
    · have hleaf := hpte.resolve_left hne
      have hnone : s₁.mem.getLE pte 8 &&& pteV = 0 := by
        rw [← decode_eq_none, hrep.decode_leaf hleaf, page_of_mul]
        exact hunmapped v (le_refl v) (by omega)
      obtain ⟨hset, hwrite⟩ := hrep.setLeaf hleaf hva (pte_lt hlt hperm)
      rw [page_of_mul, decode_pte hlt hperm, pgrounddown_of_aligned hal] at hset
      rw [wp_bind]
      change wp (if s₁.mem.getLE pte 8 &&& pteV ≠ 0 then _ else _) _ _ s₁
      rw [if_neg (not_not_intro hnone), wp_bind]
      change wp (if v * pgsize = (v + j) * pgsize then _ else _) _ _
        { s₁ with mem := s₁.mem.setLE pte 8 (pa2pte pa ||| perm ||| pteV) }
      by_cases hlast : j = 0
      · subst hlast
        rw [if_pos (by rw [add_zero]), wp_pure]
        exact ⟨own₁, 1, by rwa [PMap.mapRange_one], hsteady.comp hwrite, Or.inl ⟨rfl, rfl⟩⟩
      · have hmore : v * pgsize ≠ (v + j) * pgsize := by
          unfold pgsize
          omega
        have hnext : v * pgsize + pgsize = (v + 1) * pgsize := by rw [add_mul, one_mul]
        have hend : v + j = v + 1 + (j - 1) := by omega
        have hroom : pa + pgsize < 2 ^ 64 := by
          unfold pgsize at *
          omega
        rw [if_neg hmore, hnext, word, mod_eq_of_lt hroom, hend]
        refine wp_mono (ih hset (by omega) (by omega) (fun w hlo hhi => ?_) ?_ ?_) ?_ fun _ he => he
        · rw [update_of_ne (by omega)]
          exact hunmapped w (by omega) (by omega)
        · rw [add_mod_right, hal]
        · unfold pgsize at *
          omega
        · rintro res s' ⟨own', k, hrep', hsteady', hres⟩
          rw [PMap.mapRange_succ] at hrep'
          exact ⟨own', k + 1, hrep', (hsteady.comp hwrite).comp hsteady', by omega⟩

/-- `mappages` of one page. -/
theorem mappages_page {v pa : Nat} (h : Rep L own r m s) (hv : v < vpnMax) (hnone : m v = none)
    (hperm : perm < 1024) (hal : pa % pgsize = 0) (hpa : pa < 2 ^ 64) :
    Returns (mappages r (v * pgsize) pgsize pa perm) (fun res s' => ∃ own',
      Steady (Owner.Scratch r) (Owner.Scratch r) own own' s.mem s'.mem ∧
      (res = 0 ∧ Rep L own' r (update m v (some (pa, perm ||| pteV))) s' ∨
        res = -1 ∧ Rep L own' r m s')) s := by
  have hva := mul_lt_maxva.mpr hv
  have hfirst : pgrounddown (v * pgsize) = v * pgsize := by rw [pgrounddown, page_of_mul]
  have hlt : v * pgsize + pgsize - 1 < 2 ^ 64 := by
    unfold maxva pgsize at *
    omega
  have hlast : pgrounddown (word (v * pgsize + pgsize - 1)) = (v + 0) * pgsize := by
    rw [word, mod_eq_of_lt hlt, pgrounddown]
    unfold pgsize
    omega
  have hfuel : 0 < (maxva - v * pgsize) / pgsize := by
    unfold vpnMax maxva pgsize at *
    omega
  rw [mappages, if_neg (by decide)]
  simp only [hfirst, hlast]
  refine wp_mono (mappagesLoop_spec (j := 0) h (by omega) hfuel (fun w hlo hhi => ?_) hperm hal
    (by omega)) ?_ fun _ he => he
  · obtain rfl : w = v := by omega
    exact hnone
  · rintro res s' ⟨own', k, hrep, hsteady, ⟨hres, rfl⟩ | ⟨hres, hk⟩⟩
    · rw [PMap.mapRange_one] at hrep
      exact ⟨own', hsteady, Or.inl ⟨hres, hrep⟩⟩
    · obtain rfl : k = 0 := by omega
      rw [PMap.mapRange_zero] at hrep
      exact ⟨own', hsteady, Or.inr ⟨hres, hrep⟩⟩

end Mappages

section Uvmunmap

/-- A round of `uvmunmap` at a page that is mapped. -/
theorem uvmunmapLoop_succ {n v hi pg flags : Nat} (h : Rep L own r m s) (doFree : Bool)
    (hlt : v < hi) (hv : v < vpnMax) (hm : m v = some (pg, flags)) (hflags : flags ≠ pteV) :
    ∃ pte, LeafEntry own r (v * pgsize) pte ∧
      uvmunmapLoop r (hi * pgsize) doFree (n + 1) (v * pgsize) s = (do
        if doFree = true then kfree pg
        writePte pte 0
        uvmunmapLoop r (hi * pgsize) doFree n ((v + 1) * pgsize) : Op Unit) s := by
  have hva := mul_lt_maxva.mpr hv
  have hmv : m (v * pgsize / pgsize) = some (pg, flags) := by rw [page_of_mul, hm]
  obtain ⟨pte, hleaf, hwalk⟩ := h.walk_mapped hva (by rw [hmv]; exact nofun)
  have hdec := h.decode_leaf hleaf
  rw [hmv, decode] at hdec
  split at hdec
  · cases hdec
  · rename_i hvalid
    simp only [Option.some.injEq, Prod.mk.injEq] at hdec
    have hbelow : v * pgsize < hi * pgsize := Nat.mul_lt_mul_of_pos_right hlt (by decide)
    refine ⟨pte, hleaf, ?_⟩
    rw [uvmunmapLoop, if_pos hbelow]
    change (walk r (v * pgsize) false s >>= _) = _
    rw [hwalk, ok_bind]
    change (if pte = 0 then _ else _ : Op Unit) s = _
    rw [if_neg (hleaf.pos h.heap)]
    change (if s.mem.getLE pte 8 &&& pteV = 0 then _ else _ : Op Unit) s = _
    rw [if_neg hvalid, hdec.1, hdec.2, if_neg hflags, add_mul, one_mul]

theorem uvmunmapLoop_done {n v : Nat} (doFree : Bool) :
    uvmunmapLoop r (v * pgsize) doFree n (v * pgsize) s = .ok ((), s) := by
  cases n with
  | zero =>
    rw [uvmunmapLoop, if_neg (lt_irrefl _)]
    rfl
  | succ n =>
    rw [uvmunmapLoop, if_neg (lt_irrefl _)]
    rfl

/-- `uvmunmap` without `do_free`. -/
theorem uvmunmapLoop_keep {n v hi : Nat} (h : Rep L own r m s) (hle : v ≤ hi) (hn : hi - v ≤ n)
    (hhi : hi ≤ vpnMax)
    (hmapped : ∀ w, v ≤ w → w < hi → ∃ pg flags, m w = some (pg, flags) ∧ flags ≠ pteV) :
    Returns (uvmunmapLoop r (hi * pgsize) false n (v * pgsize)) (fun _ s' =>
      Rep L own r (m.unmapRange v hi) s' ∧
      Steady (Owner.Scratch r) (Owner.Scratch r) own own s.mem s'.mem) s := by
  induction n generalizing v m s with
  | zero =>
    obtain rfl : v = hi := by omega
    rw [Returns, wp, uvmunmapLoop_done, PMap.unmapRange_self]
    exact ⟨h, Steady.refl fun _ h => h⟩
  | succ n ih =>
    by_cases hlt : v < hi
    · obtain ⟨pg, flags, hm, hflags⟩ := hmapped v (le_refl v) hlt
      obtain ⟨pte, hleaf, hstep⟩ := uvmunmapLoop_succ (n := n) h false hlt (by omega) hm hflags
      obtain ⟨hset, hwrite⟩ := h.setLeaf hleaf (mul_lt_maxva.mpr (by omega))
        (show 0 < 2 ^ 64 by decide)
      rw [page_of_mul, decode_zero] at hset
      rw [Returns, wp, hstep]
      refine wp_mono (ih hset hlt (by omega) fun w hlo hhi => ?_) ?_ fun _ he => he
      · rw [update_of_ne (by omega)]
        exact hmapped w (by omega) hhi
      · rintro _ s' ⟨hrep, hsteady⟩
        rw [PMap.unmapRange_succ hlt] at hrep
        exact ⟨hrep, hwrite.comp hsteady⟩
    · obtain rfl : v = hi := by omega
      rw [Returns, wp, uvmunmapLoop_done, PMap.unmapRange_self]
      exact ⟨h, Steady.refl fun _ h => h⟩

/-- The owners after the user pages of `r` from `lo` up to `hi` are freed. -/
def release (own : Owners τ) (r lo hi : Nat) : Owners τ := fun q =>
  match own q with
  | .frame r' w => if r' = r ∧ lo ≤ w ∧ w < hi then .free else .frame r' w
  | o => o

theorem release_of_not_frame {lo hi q : Nat} (h : ∀ w, own q ≠ .frame r w) :
    release own r lo hi q = own q := by
  unfold release
  cases hq : own q with
  | frame r' w =>
    have hne : ¬ (r' = r ∧ lo ≤ w ∧ w < hi) := by
      rintro ⟨rfl, -⟩
      exact h w hq
    simp only [if_neg hne]
  | _ => rfl

theorem release_frame {lo hi q w : Nat} (h : own q = .frame r w) :
    release own r lo hi q = if lo ≤ w ∧ w < hi then .free else .frame r w := by
  unfold release
  rw [h]
  simp

/-- Freeing the page at `v` first. -/
theorem release_succ {v hi pg : Nat} (hlt : v < hi) (hpg : own pg = .frame r v)
    (honly : ∀ q, own q = .frame r v → q = pg) :
    release (update own pg .free) r (v + 1) hi = release own r v hi := by
  funext q
  by_cases hqp : q = pg
  · subst hqp
    rw [release_frame hpg, if_pos ⟨le_refl v, hlt⟩,
      release_of_not_frame (by rw [update_self]; exact nofun), update_self]
  · have hq : update own pg .free q = own q := update_of_ne hqp _ _
    by_cases hframe : ∃ w, own q = .frame r w
    · obtain ⟨w, hw⟩ := hframe
      have hwv : w ≠ v := by
        rintro rfl
        exact hqp (honly q hw)
      rw [release_frame (hq.trans hw), release_frame hw]
      by_cases hin : v ≤ w ∧ w < hi
      · rw [if_pos hin, if_pos (by omega)]
      · rw [if_neg hin, if_neg (by omega)]
    · have hnot : ∀ w, own q ≠ .frame r w := fun w hw => hframe ⟨w, hw⟩
      rw [release_of_not_frame (fun w => by rw [hq]; exact hnot w), release_of_not_frame hnot, hq]

theorem release_self (own : Owners τ) (r v : Nat) : release own r v v = own := by
  funext q
  by_cases hframe : ∃ w, own q = .frame r w
  · obtain ⟨w, hw⟩ := hframe
    rw [release_frame hw, if_neg (by omega), hw]
  · exact release_of_not_frame fun w hw => hframe ⟨w, hw⟩

/-- The user page at `v` is freed. -/
theorem Steady.free_frame {mem mem' : Bytes} {v hi pg : Nat} (hal : pg % pgsize = 0) (hlt : v < hi)
    (hpg : own pg = .frame r v) (honly : ∀ q, own q = .frame r v → q = pg)
    (hmem : Bytes.Within pg pgsize mem mem') :
    Steady (Owner.Part r univ (Set.Ico v hi)) (Owner.Part r univ (Set.Ico (v + 1) hi)) own
      (update own pg .free) mem mem' := by
  have hpart : (own pg).Part r univ (Set.Ico v hi) := by
    rw [hpg]
    exact ⟨rfl, le_refl v, hlt⟩
  have hne : ∀ {q}, ¬ (own q).Part r univ (Set.Ico v hi) → q ≠ pg := by
    rintro q hq rfl
    exact hq hpart
  refine ⟨fun q hq => update_of_ne (hne hq) _ _,
    fun q hqal hq => samePage_of_within hmem hal hqal (hne hq).symm, fun q hq => ?_⟩
  by_cases hqp : q = pg
  · rw [hqp, update_self]
    trivial
  · rw [update_of_ne hqp]
    cases hown : own q with
    | frame r' w =>
      rw [hown] at hq
      obtain ⟨rfl, hlo, hhi⟩ := hq
      have hwv : w ≠ v := by
        rintro rfl
        exact hqp (honly q hown)
      exact ⟨rfl, by omega, hhi⟩
    | _ =>
      rw [hown] at hq
      exact hq

/-- `uvmunmap` with `do_free`, of pages that belong to the address space. -/
theorem uvmunmapLoop_free {n v hi : Nat} (h : Rep L own r m s) (hle : v ≤ hi) (hn : hi - v ≤ n)
    (hhi : hi ≤ vpnMax)
    (hmapped : ∀ w, v ≤ w → w < hi →
      ∃ pg flags, m w = some (pg, flags) ∧ own pg = .frame r w ∧ flags ≠ pteV)
    (honly : ∀ w q, v ≤ w → w < hi → own q = .frame r w → ∃ flags, m w = some (q, flags)) :
    Returns (uvmunmapLoop r (hi * pgsize) true n (v * pgsize)) (fun _ s' =>
      Rep L (release own r v hi) r (m.unmapRange v hi) s' ∧
      Steady (Owner.Part r univ (Set.Ico v hi)) (Owner.Scratch r) own (release own r v hi)
        s.mem s'.mem) s := by
  have hdone : ∀ {n : Nat} {own : Owners τ} {m : PMap} {s : Memory}, Rep L own r m s →
      Returns (uvmunmapLoop r (hi * pgsize) true n (hi * pgsize)) (fun _ s' =>
        Rep L (release own r hi hi) r (m.unmapRange hi hi) s' ∧
        Steady (Owner.Part r univ (Set.Ico hi hi)) (Owner.Scratch r) own (release own r hi hi)
          s.mem s'.mem) s := by
    intro n own m s h
    rw [Returns, wp, uvmunmapLoop_done, PMap.unmapRange_self, release_self, Ico_self]
    exact ⟨h, Steady.refl fun _ h => h⟩
  induction n generalizing v m s own with
  | zero =>
    obtain rfl : v = hi := by omega
    exact hdone h
  | succ n ih =>
    by_cases hlt : v < hi
    · obtain ⟨pg, flags, hm, hpg, hflags⟩ := hmapped v (le_refl v) hlt
      have hunique : ∀ q, own q = .frame r v → q = pg := by
        intro q hq
        obtain ⟨flags', hm'⟩ := honly v q (le_refl v) hlt hq
        rw [hm] at hm'
        cases hm'
        rfl
      obtain ⟨pte, hleaf, hstep⟩ := uvmunmapLoop_succ (n := n) h true hlt (by omega) hm hflags
      have hal : pg % pgsize = 0 := (h.heap.inRange (by rw [hpg]; simp)).aligned
      rw [Returns, wp, hstep]
      refine wp_seq (kfree_spec h.heap (by rw [hpg]; simp) (by rw [hpg]; simp)) ?_
      rintro _ s₁ ⟨hheap, hwithin⟩
      have hrep : Rep L (update own pg .free) r m s₁ :=
        ⟨hheap, h.table.touch h.heap.range (h.heap.inRange (by rw [hpg]; simp))
          (by rw [hpg]; simp) (by simp) hwithin⟩
      have hleaf₁ : LeafEntry (update own pg .free) r (v * pgsize) pte := by
        obtain ⟨q, hq, hpte⟩ := hleaf
        have hqp : q ≠ pg := by
          rintro rfl
          rw [hpg] at hq
          cases hq
        exact ⟨q, by rw [update_of_ne hqp, hq], hpte⟩
      obtain ⟨hset, hwrite⟩ := hrep.setLeaf hleaf₁ (mul_lt_maxva.mpr (by omega))
        (show 0 < 2 ^ 64 by decide)
      rw [page_of_mul, decode_zero] at hset
      refine wp_mono (ih hset hlt (by omega) (fun w hlo hhi => ?_) fun w q hlo hhi hq => ?_) ?_
        fun _ he => he
      · obtain ⟨pg', flags', hm', hpg', hflags'⟩ := hmapped w (by omega) hhi
        have hne : pg' ≠ pg := by
          rintro rfl
          rw [hpg] at hpg'
          cases hpg'
          omega
        exact ⟨pg', flags', by rw [update_of_ne (by omega), hm'],
          by rw [update_of_ne hne, hpg'], hflags'⟩
      · have hqp : q ≠ pg := by
          rintro rfl
          rw [update_self] at hq
          cases hq
        rw [update_of_ne hqp] at hq
        rw [update_of_ne (by omega)]
        exact honly w q (by omega) hhi hq
      · rintro _ s' ⟨hrep', hsteady⟩
        rw [release_succ hlt hpg hunique, PMap.unmapRange_succ hlt] at hrep'
        rw [release_succ hlt hpg hunique] at hsteady
        have hfreed := Steady.free_frame hal hlt hpg hunique hwithin
        have hcleared := hfreed.trans hwrite (fun q hq => hq.mono (subset_univ _) (empty_subset _))
          (fun o ho => ho.mono (subset_univ _) (empty_subset _)) fun o ho _ => ho
        have hsub : Set.Ico (v + 1) hi ⊆ Set.Ico v hi := Ico_subset_Ico (by omega) (le_refl hi)
        refine ⟨hrep', hcleared.trans hsteady (fun q hq => hq.mono (subset_univ _) hsub)
          (fun o ho => ho) fun o ho hnot => absurd ho hnot⟩
    · obtain rfl : v = hi := by omega
      exact hdone h

theorem uvmunmap_eq {v k : Nat} (hk : v + k ≤ vpnMax) (doFree : Bool) :
    uvmunmap r (v * pgsize) k doFree =
      uvmunmapLoop r ((v + k) * pgsize) doFree (vpnMax - v) (v * pgsize) := by
  have hmax : vpnMax * pgsize = maxva := by decide
  have hbound : (v + k) * pgsize ≤ maxva := by
    exact Nat.mul_le_mul_right _ hk
  have hmax64 : maxva < 2 ^ 64 := by decide
  have hsum : (v + k) * pgsize = v * pgsize + k * pgsize := add_mul v k pgsize
  have hlimit : word (v * pgsize + word (k * pgsize)) = (v + k) * pgsize := by
    rw [word, word, mod_eq_of_lt (by omega), mod_eq_of_lt (by omega), hsum]
  have hfuel : (maxva - v * pgsize) / pgsize = vpnMax - v := by
    rw [← hmax, ← Nat.sub_mul, page_of_mul]
  rw [uvmunmap, if_neg (not_not_intro (mul_mod_left v pgsize)), hlimit, hfuel]

end Uvmunmap

section Uvmclear

end Uvmclear

end FogOS.Vm
