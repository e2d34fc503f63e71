import FogOS.Vm.Space

/-!
# Copies between the kernel and user memory

`copyin`, `copyout` and `copyinstr` go through user memory page by page. Seen through
the partial memory of the process they move the bytes before the first inaccessible
address, and `copyinstr` stops at a null byte besides.
-/

namespace FogOS.Vm

open Library Option

variable {root pa : Nat} {mem : Bytes}

section Round

variable {s : Memory} {va len : Nat}

/-- The bytes that a round at `va` copies. -/
def pageChunk (va len : Nat) : Nat := min (pgsize - va % pgsize) len

theorem sub_pgrounddown (va : Nat) : va - pgrounddown va = va % pgsize := by
  unfold pgrounddown pgsize
  omega

theorem pgrounddown_div (va : Nat) : pgrounddown va / pgsize = va / pgsize := by
  unfold pgrounddown pgsize
  omega

theorem pageChunk_pos (hlen : len ≠ 0) : 0 < pageChunk va len := by
  unfold pageChunk pgsize
  omega

theorem pageChunk_le (va len : Nat) : pageChunk va len ≤ len := Nat.min_le_right _ _

/-- The bytes of a round lie in one page. -/
theorem page_of_chunk {i : Nat} (hi : i < pageChunk va len) :
    (va + i) / pgsize = va / pgsize ∧ (va + i) % pgsize = va % pgsize + i := by
  unfold pageChunk pgsize at *
  omega

/-- A round that does not finish the copy goes on behind the bytes it has copied. -/
theorem next_page (hva : va / pgsize < vpnMax) (hrest : pageChunk va len ≠ len) :
    word (pgrounddown va + pgsize) = va + pageChunk va len := by
  unfold pageChunk pgrounddown word vpnMax maxva pgsize at *
  omega

theorem walkaddr_page (pt : PageTable s.mem) (va : Nat) :
    walkaddr pt.root (pgrounddown va) s = .ok ((userPage s.mem pt.root (va / pgsize)).getD 0, s) := by
  rw [walkaddr_eq, pgrounddown_div]

theorem userMem_of_none (h : userPage mem root (va / pgsize) = none) :
    userMem mem root va = none := by
  rw [userMem, h, map_none]

theorem userMem_chunk {i : Nat} (h : userPage mem root (va / pgsize) = some pa)
    (hi : i < pageChunk va len) :
    userMem mem root (va + i) = some (mem (pa + va % pgsize + i)) := by
  obtain ⟨hdiv, hmod⟩ := page_of_chunk hi
  rw [userMem, hdiv, h, map_some, hmod, add_assoc]

/-- Where the first page is accessible, the reach covers the round and goes on behind it. -/
theorem reach_chunk (h : userPage mem root (va / pgsize) = some pa) (len : Nat) :
    (userMem mem root).reach va len = pageChunk va len +
      (userMem mem root).reach (va + pageChunk va len) (len - pageChunk va len) := by
  have hsplit := Partial.reach_add (m := userMem mem root) (a := va) (k := pageChunk va len)
    (fun i hi => by rw [userMem_chunk h hi]; rfl) (len - pageChunk va len)
  rwa [Nat.add_sub_cancel' (pageChunk_le va len)] at hsplit

end Round

/-- The result of a copy that should move `len` bytes and moves `k`. -/
def copyResult (k len : Nat) : Int := if k = len then 0 else -1

theorem copyResult_self (len : Nat) : copyResult len len = 0 := if_pos rfl

theorem copyResult_add {n k len : Nat} (h : n ≤ len) :
    copyResult k (len - n) = copyResult (n + k) len := by
  unfold copyResult
  simp only [show k = len - n ↔ n + k = len by omega]

section Copyin

variable {s : Memory}

theorem copyinLoop_zero (pt rounds : Nat) (dst : Bytes) (va done : Nat) :
    copyinLoop pt rounds dst va done 0 s = .ok ((0, dst), s) := by
  cases rounds <;> rfl

theorem copyinLoop_eq (pt : PageTable s.mem) {rounds len : Nat} (hlen : len ≤ rounds) (dst : Bytes)
    (va done : Nat) :
    copyinLoop pt.root rounds dst va done len s =
      .ok ((copyResult ((userMem s.mem pt.root).reach va len) len,
        dst.blit done ((userMem s.mem pt.root).reach va len) ((userMem s.mem pt.root).bytes va)),
        s) := by
  -- Induction on the rounds; each one copies at least one byte or ends the loop.
  induction rounds generalizing len dst va done with
  | zero =>
    obtain rfl : len = 0 := by omega
    rw [copyinLoop_zero]
    simp only [Partial.reach, Bytes.blit_zero, copyResult_self]
  | succ rounds ih =>
    by_cases hzero : len = 0
    · subst hzero
      rw [copyinLoop_zero]
      simp only [Partial.reach, Bytes.blit_zero, copyResult_self]
    have hpos := @pageChunk_pos va len hzero
    have hle := pageChunk_le va len
    rw [copyinLoop, if_neg hzero]
    change (walkaddr pt.root (pgrounddown va) s >>= _) = _
    rw [walkaddr_page, ok_bind]
    cases hpage : userPage s.mem pt.root (va / pgsize) with
    | none =>
      rw [Partial.reach_zero_of_none (userMem_of_none hpage), Bytes.blit_zero, copyResult,
        if_neg (Ne.symm hzero)]
      rfl
    | some pa =>
      have hne := pt.userPage_ne hpage
      simp only [getD_some, if_neg hne, sub_pgrounddown]
      change copyinLoop pt.root rounds
        (dst.blit done (pageChunk va len) fun i => s.mem (pa + va % pgsize + i))
        (word (pgrounddown va + pgsize)) (done + pageChunk va len) (len - pageChunk va len) s = _
      have hbytes : (dst.blit done (pageChunk va len) fun i => s.mem (pa + va % pgsize + i)) =
          dst.blit done (pageChunk va len) ((userMem s.mem pt.root).bytes va) := by
        funext p
        unfold Bytes.blit
        by_cases hp : done ≤ p ∧ p < done + pageChunk va len
        · rw [if_pos hp, if_pos hp, Partial.bytes, userMem_chunk hpage (show p - done < pageChunk va len by omega)]
          rfl
        · rw [if_neg hp, if_neg hp]
      rw [hbytes, reach_chunk hpage len]
      by_cases hall : pageChunk va len = len
      · rw [hall, Nat.sub_self, copyinLoop_zero, Partial.reach, add_zero, copyResult_self]
      · have hva : va / pgsize < vpnMax := (leafAt_of_userPage hpage).1
        rw [next_page hva hall, ih (by omega), Partial.bytes_add, Bytes.blit_blit,
          copyResult_add hle]

/-- `copyin` copies the bytes before the first inaccessible address, and succeeds if these are
all. -/
theorem copyin_eq (pt : PageTable s.mem) (dst : Bytes) (va len : Nat) :
    copyin pt.root dst va len s = .ok ((copyResult ((userMem s.mem pt.root).reach va len) len,
        dst.blit 0 ((userMem s.mem pt.root).reach va len) ((userMem s.mem pt.root).bytes va)), s) :=
  copyinLoop_eq pt (le_refl len) dst va 0

end Copyin

/-- What a copy of `k` bytes to `va` changes: the `k` bytes as the process sees them, and no byte
of physical memory elsewhere. -/
structure Copied (root va k : Nat) (src : Bytes) (s s' : Memory) : Prop where
  rest : s' = { s with mem := s'.mem }
  tables : SameTables root s.mem s'.mem
  user : userMem s'.mem root = (userMem s.mem root).store va k src
  frame : ∀ p, (∀ i pa, i < k → userPage s.mem root ((va + i) / pgsize) = some pa →
    p ≠ pa + (va + i) % pgsize) → s'.mem p = s.mem p

section Copyout

variable {s : Memory}

theorem Copied.zero (root va : Nat) (src : Bytes) (s : Memory) : Copied root va 0 src s s :=
  ⟨rfl, SameTables.refl, (Partial.store_zero _ _ _).symm, fun _ _ => rfl⟩

theorem Copied.append {va k n : Nat} {src : Bytes} {s₁ s' : Memory}
    (h : Copied root va k src s s₁) (h' : Copied root (va + k) n (fun i => src (k + i)) s₁ s') :
    Copied root va (k + n) src s s' := by
  refine ⟨?_, h.tables.trans h'.tables, ?_, fun p hp => ?_⟩
  · rw [h'.rest, h.rest]
  · rw [h'.user, h.user, Partial.store_store]
  · rw [h'.frame p fun i pa hi hpage => ?_, h.frame p fun i pa hi hpage => hp i pa (by omega) hpage]
    rw [h.tables.userPage_eq] at hpage
    rw [add_assoc] at hpage ⊢
    exact hp (k + i) pa (by omega) hpage

/-- Only the bytes that are copied matter. -/
theorem Copied.congr {va k : Nat} {src src' : Bytes} {s' : Memory} (h : Copied root va k src s s')
    (hsrc : ∀ i, i < k → src i = src' i) : Copied root va k src' s s' := by
  refine ⟨h.rest, h.tables, ?_, h.frame⟩
  rw [h.user]
  funext a
  unfold Partial.store
  by_cases ha : va ≤ a ∧ a < va + k
  · rw [if_pos ha, if_pos ha, hsrc _ (by omega)]
  · rw [if_neg ha, if_neg ha]

/-- A store to a piece of an accessible page. -/
theorem Copied.chunk (pt : UserTable s.mem) {va : Nat}
    (hpage : userPage s.mem pt.root (va / pgsize) = some pa) (len : Nat) (src : Bytes) :
    Copied pt.root va (pageChunk va len) src s
      { s with mem := s.mem.blit (pa + va % pgsize) (pageChunk va len) src } := by
  have hal := userPage_aligned hpage
  have hin : va % pgsize + pageChunk va len ≤ pgsize := by
    unfold pageChunk pgsize
    omega
  have hwithin : Bytes.Within pa pgsize s.mem
      (s.mem.blit (pa + va % pgsize) (pageChunk va len) src) :=
    Bytes.within_blit s.mem src (by omega) (by omega)
  have hsame : SameTables pt.root s.mem (s.mem.blit (pa + va % pgsize) (pageChunk va len) src) :=
    SameTables.of_within pt.aligned hal (fun hd hk => pt.apart hpage hd hk) hwithin
  refine ⟨rfl, hsame, ?_, fun p hp => ?_⟩
  · funext a
    change userMem (s.mem.blit (pa + va % pgsize) (pageChunk va len) src) pt.root a = _
    unfold Partial.store
    by_cases ha : va ≤ a ∧ a < va + pageChunk va len
    · obtain ⟨hdiv, hmod⟩ := @page_of_chunk va len (a - va) (by omega)
      rw [show va + (a - va) = a by omega] at hdiv hmod
      rw [if_pos ha, userMem, hsame.userPage_eq, hdiv, hpage, map_some,
        Bytes.blit_apply_inside (by omega)]
      congr 2
      omega
    · rw [if_neg ha, userMem, userMem, hsame.userPage_eq]
      cases hother : userPage s.mem pt.root (a / pgsize) with
      | none => rfl
      | some pa' =>
        rw [map_some, map_some, Bytes.blit_apply_outside]
        -- Another page has another frame; in the same page the byte is outside the range.
        by_cases hsame' : a / pgsize = va / pgsize
        · rw [hsame', hpage] at hother
          cases hother
          unfold pgsize at *
          omega
        · have hne : pa ≠ pa' := by
            rintro rfl
            exact hsame' (pt.distinct hother hpage)
          have hapart := Bytes.pages_apart hal (userPage_aligned hother) hne
          have hlt : a % pgsize < pgsize := Nat.mod_lt _ (by decide)
          omega
  · refine Bytes.blit_apply_outside ?_
    by_contra hcon
    obtain ⟨hdiv, hmod⟩ := @page_of_chunk va len (p - (pa + va % pgsize)) (by omega)
    refine hp (p - (pa + va % pgsize)) pa (by omega) (by rw [hdiv]; exact hpage) ?_
    omega

theorem copyoutLoop_zero (pt : Nat) (src : Bytes) (rounds va done : Nat) :
    copyoutLoop pt src rounds va done 0 s = .ok (0, s) := by
  cases rounds <;> rfl

theorem copyoutLoop_spec (pt : UserTable s.mem) (src : Bytes) {rounds len : Nat}
    (hlen : len ≤ rounds) (va done : Nat) :
    ∃ s', copyoutLoop pt.root src rounds va done len s =
        .ok (copyResult ((userMem s.mem pt.root).reach va len) len, s') ∧
      Copied pt.root va ((userMem s.mem pt.root).reach va len) (fun i => src (done + i)) s s' := by
  induction rounds generalizing s len va done with
  | zero =>
    obtain rfl : len = 0 := by omega
    exact ⟨s, by rw [copyoutLoop_zero]; rfl, Copied.zero _ _ _ _⟩
  | succ rounds ih =>
    by_cases hzero : len = 0
    · subst hzero
      exact ⟨s, by rw [copyoutLoop_zero]; rfl, Copied.zero _ _ _ _⟩
    have hpos := @pageChunk_pos va len hzero
    have hle := pageChunk_le va len
    rw [copyoutLoop, if_neg hzero]
    change ∃ s', (walkaddr pt.root (pgrounddown va) s >>= _) = _ ∧ _
    rw [walkaddr_page, ok_bind]
    cases hpage : userPage s.mem pt.root (va / pgsize) with
    | none =>
      rw [Partial.reach_zero_of_none (userMem_of_none hpage), copyResult, if_neg (Ne.symm hzero)]
      exact ⟨s, rfl, Copied.zero _ _ _ _⟩
    | some pa =>
      have hne := pt.userPage_ne hpage
      simp only [getD_some, if_neg hne, sub_pgrounddown]
      have hcopied := Copied.chunk pt hpage len fun i => src (done + i)
      change ∃ s', copyoutLoop pt.root src rounds (word (pgrounddown va + pgsize))
        (done + pageChunk va len) (len - pageChunk va len)
        { s with mem := s.mem.blit (pa + va % pgsize) (pageChunk va len) fun i => src (done + i) }
        = _ ∧ _
      rw [reach_chunk hpage len]
      by_cases hall : pageChunk va len = len
      · rw [hall] at hcopied
        rw [hall, Nat.sub_self, copyoutLoop_zero, Partial.reach, add_zero, copyResult_self]
        exact ⟨_, rfl, hcopied⟩
      · have hva : va / pgsize < vpnMax := (leafAt_of_userPage hpage).1
        obtain ⟨s', heq, hrest⟩ := ih (pt.move hcopied.tables)
          (show len - pageChunk va len ≤ rounds by omega) (va + pageChunk va len)
          (done + pageChunk va len)
        have hreach : (userMem (s.mem.blit (pa + va % pgsize) (pageChunk va len)
            fun i => src (done + i)) pt.root).reach (va + pageChunk va len)
              (len - pageChunk va len) =
            (userMem s.mem pt.root).reach (va + pageChunk va len) (len - pageChunk va len) := by
          apply Partial.reach_congr
          intro i _
          rw [Bool.eq_iff_iff, userMem_isSome, userMem_isSome, accessible_iff, accessible_iff,
            hcopied.tables.userPage_eq]
        simp only [UserTable.move] at heq hrest
        rw [hreach] at heq hrest
        rw [next_page hva hall]
        refine ⟨s', by rw [heq, copyResult_add hle], ?_⟩
        refine hcopied.append ?_
        simpa only [add_assoc] using hrest

/-- `copyout` copies the bytes before the first inaccessible address, and succeeds if these are
all. -/
theorem copyout_spec (pt : UserTable s.mem) (va : Nat) (src : Bytes) (len : Nat) :
    ∃ s', copyout pt.root va src len s =
        .ok (copyResult ((userMem s.mem pt.root).reach va len) len, s') ∧
      Copied pt.root va ((userMem s.mem pt.root).reach va len) src s s' := by
  obtain ⟨s', heq, hcopied⟩ := copyoutLoop_spec pt src (le_refl len) va 0
  simp only [zero_add] at hcopied
  exact ⟨s', heq, hcopied⟩

/-- A byte that can be copied out. -/
theorem copyout_byte (pt : UserTable s.mem) {va : Nat} (ch : UInt8)
    (h : Accessible s.mem pt.root (va / pgsize)) :
    ∃ s', copyout pt.root va (fun _ => ch) 1 s = .ok (0, s') ∧
      Copied pt.root va 1 (fun _ => ch) s s' := by
  obtain ⟨s', heq, hcopied⟩ := copyout_spec pt va (fun _ => ch) 1
  have hreach : (userMem s.mem pt.root).reach va 1 = 1 := by
    refine Partial.reach_eq_iff.mpr fun i hi => ?_
    obtain rfl : i = 0 := by omega
    exact userMem_isSome.mpr h
  rw [hreach] at heq hcopied
  exact ⟨s', heq, hcopied⟩

end Copyout

section Range

variable {s : Memory}

/-- The first inaccessible page of the `len` bytes at `va` starts behind `k` of them. -/
structure StopsAt (mem : Bytes) (root va len k : Nat) : Prop where
  lt : k < len
  accessible : ∀ i, i < k → Accessible mem root ((va + i) / pgsize)
  inaccessible : ¬ Accessible mem root ((va + k) / pgsize)

theorem copyResult_eq_zero_iff {va len : Nat} :
    copyResult ((userMem mem root).reach va len) len = 0 ↔
      ∀ a, va ≤ a → a < va + len → Accessible mem root (a / pgsize) := by
  have hzero : copyResult ((userMem mem root).reach va len) len = 0 ↔
      (userMem mem root).reach va len = len := by
    unfold copyResult
    split <;> simp [*]
  rw [hzero, Partial.reach_eq_iff]
  constructor
  · intro h a hva hlt
    have hsome := h (a - va) (by omega)
    rw [show va + (a - va) = a by omega] at hsome
    exact userMem_isSome.mp hsome
  · intro h i hi
    exact userMem_isSome.mpr (h (va + i) (by omega) (by omega))

theorem reach_of_copyResult {va len : Nat}
    (h : copyResult ((userMem mem root).reach va len) len = 0) :
    (userMem mem root).reach va len = len := by
  unfold copyResult at h
  split at h
  · assumption
  · cases h

theorem stopsAt_reach {va len : Nat} (h : copyResult ((userMem mem root).reach va len) len ≠ 0) :
    copyResult ((userMem mem root).reach va len) len = -1 ∧
      StopsAt mem root va len ((userMem mem root).reach va len) := by
  have hne : (userMem mem root).reach va len ≠ len := by
    intro heq
    exact h (if_pos heq)
  have hlt : (userMem mem root).reach va len < len := by
    have := Partial.reach_le (userMem mem root) va len
    omega
  refine ⟨if_neg hne, hlt, fun i hi => ?_, fun hacc => ?_⟩
  · exact userMem_isSome.mp (Partial.isSome_of_lt_reach hi)
  · have hsome := userMem_isSome.mpr hacc
    rw [Partial.eq_none_of_reach_lt hlt] at hsome
    cases hsome

/-- `copyin` and `copyout` transfer exactly the bytes of the user range: they succeed when every
page of the range is accessible, and otherwise move what lies before the first page that is
not. What `copyout` has copied, `copyin` finds. -/
theorem copies_transfer_range (s : Memory) (pt : UserTable s.mem) (va len : Nat) (dst src : Bytes) :
    (∃ r dst', copyin pt.root dst va len s = .ok ((r, dst'), s) ∧
      (r = 0 ↔ ∀ a, va ≤ a → a < va + len → Accessible s.mem pt.root (a / pgsize)) ∧
      (r = 0 → (∀ i, i < len → userMem s.mem pt.root (va + i) = some (dst' i)) ∧
        ∀ i, len ≤ i → dst' i = dst i) ∧
      (r ≠ 0 → r = -1 ∧ ∃ k, StopsAt s.mem pt.root va len k ∧
        (∀ i, i < k → userMem s.mem pt.root (va + i) = some (dst' i)) ∧
        ∀ i, k ≤ i → dst' i = dst i)) ∧
    ∃ r s', copyout pt.root va src len s = .ok (r, s') ∧
      (r = 0 ↔ ∀ a, va ≤ a → a < va + len → Accessible s.mem pt.root (a / pgsize)) ∧
      (r = 0 → userMem s'.mem pt.root = (userMem s.mem pt.root).store va len src ∧
        copyin pt.root dst va len s' = .ok ((0, dst.blit 0 len src), s')) ∧
      (r ≠ 0 → r = -1 ∧ ∃ k, StopsAt s.mem pt.root va len k ∧
        userMem s'.mem pt.root = (userMem s.mem pt.root).store va k src) ∧
      ∀ a, a < va ∨ va + len ≤ a → userMem s'.mem pt.root a = userMem s.mem pt.root a := by
  have hread : ∀ i, i < (userMem s.mem pt.root).reach va len → userMem s.mem pt.root (va + i) =
        some (dst.blit 0 ((userMem s.mem pt.root).reach va len)
          ((userMem s.mem pt.root).bytes va) i) := by
    intro i hi
    rw [Bytes.blit_apply_inside (by omega), Nat.sub_zero]
    exact Partial.eq_some_bytes (Partial.isSome_of_lt_reach hi)
  have hkept : ∀ i, (userMem s.mem pt.root).reach va len ≤ i →
      dst.blit 0 ((userMem s.mem pt.root).reach va len)
        ((userMem s.mem pt.root).bytes va) i = dst i :=
    fun i hi => Bytes.blit_apply_outside (by omega)
  refine ⟨⟨_, _, copyin_eq pt.toPageTable dst va len, copyResult_eq_zero_iff, fun hr => ?_,
    fun hr => ?_⟩, ?_⟩
  · have hall := reach_of_copyResult hr
    exact ⟨fun i hi => hread i (by omega), fun i hi => hkept i (by omega)⟩
  · obtain ⟨hneg, hstop⟩ := stopsAt_reach hr
    exact ⟨hneg, _, hstop, hread, hkept⟩
  · obtain ⟨s', heq, hcopied⟩ := copyout_spec pt va src len
    have hle := Partial.reach_le (userMem s.mem pt.root) va len
    refine ⟨_, s', heq, copyResult_eq_zero_iff, fun hr => ?_, fun hr => ?_, fun a ha => ?_⟩
    · have hall := reach_of_copyResult hr
      have huser := hcopied.user
      rw [hall] at huser
      refine ⟨huser, ?_⟩
      have hback := copyin_eq (pt.move hcopied.tables).toPageTable dst va len
      simp only [UserTable.move] at hback
      have hsome : ∀ i, i < len → userMem s'.mem pt.root (va + i) = some (src i) := by
        intro i hi
        rw [huser, Partial.store, if_pos (by omega), Nat.add_sub_cancel_left]
      have hreach : (userMem s'.mem pt.root).reach va len = len :=
        Partial.reach_eq_iff.mpr fun i hi => by rw [hsome i hi]; rfl
      rw [hback, hreach, copyResult_self]
      congr 3
      funext i
      unfold Bytes.blit
      by_cases hi : 0 ≤ i ∧ i < 0 + len
      · rw [if_pos hi, if_pos hi, Partial.bytes, hsome _ (by omega)]
        rfl
      · rw [if_neg hi, if_neg hi]
    · obtain ⟨hneg, hstop⟩ := stopsAt_reach hr
      exact ⟨hneg, _, hstop, hcopied.user⟩
    · rw [hcopied.user]
      exact if_neg (by omega)

end Range

end FogOS.Vm
