import FogOS.Vm.Copy

/-!
# Strings from user memory

`copyinstr` copies a string page by page, with a loop over the bytes of a page inside
a loop over the pages. It agrees with reading one byte after the other through the
partial memory of the process.
-/

namespace FogOS.Vm

open Library

section Page

variable {mem : Bytes} {n p done : Nat} {dst : Bytes}

/-- A page without a null byte is copied whole. -/
theorem copyinstrPage_chars (h : ∀ i, i < n → mem (p + i) ≠ 0) :
    copyinstrPage mem n p done dst = (dst.blit done n fun i => mem (p + i), false) := by
  induction n generalizing p done dst with
  | zero => rw [copyinstrPage, Bytes.blit_zero]
  | succ n ih =>
    have hhead : mem p ≠ 0 := h 0 (by omega)
    have hrest : ∀ i, i < n → mem (p + 1 + i) ≠ 0 := fun i hi => by
      rw [add_assoc, add_comm 1 i]
      exact h (i + 1) (by omega)
    rw [copyinstrPage, if_neg hhead, ih hrest,
      Bytes.update_eq_blit dst done (mem p) (fun i => mem (p + i)) rfl]
    have hjoin := Bytes.blit_blit dst done 1 n fun i => mem (p + i)
    rw [add_comm 1 n] at hjoin
    simp only [← add_assoc] at hjoin
    rw [hjoin]

/-- The copy of a page ends behind its first null byte. -/
theorem copyinstrPage_nul {k : Nat} (hk : k < n) (h : ∀ i, i < k → mem (p + i) ≠ 0)
    (hnul : mem (p + k) = 0) :
    copyinstrPage mem n p done dst = (dst.blit done (k + 1) fun i => mem (p + i), true) := by
  induction n generalizing p done dst k with
  | zero => exact absurd hk (Nat.not_lt_zero k)
  | succ n ih =>
    cases k with
    | zero =>
      have hhead : mem p = 0 := hnul
      rw [copyinstrPage, if_pos hhead, Bytes.update_eq_blit dst done 0 (fun i => mem (p + i)) hhead]
    | succ k =>
      have hhead : mem p ≠ 0 := h 0 (by omega)
      have hrest : ∀ i, i < k → mem (p + 1 + i) ≠ 0 := fun i hi => by
        rw [add_assoc, add_comm 1 i]
        exact h (i + 1) (by omega)
      have hend : mem (p + 1 + k) = 0 := by
        rw [add_assoc, add_comm 1 k]
        exact hnul
      rw [copyinstrPage, if_neg hhead, ih (by omega) hrest hend,
        Bytes.update_eq_blit dst done (mem p) (fun i => mem (p + i)) rfl]
      have hjoin := Bytes.blit_blit dst done 1 (k + 1) fun i => mem (p + i)
      rw [add_comm 1 (k + 1)] at hjoin
      simp only [← add_assoc] at hjoin
      rw [hjoin]

end Page

/-- What `copyinstr` does to `dst` from `done` on: it copies a string with its null byte, or fails
because there is none among `max` accessible bytes. -/
inductive StringCopy (m : Partial) (va max done : Nat) (dst : Bytes) : Int → Bytes → Prop
  | string {k : Nat} (hk : k < max) (hs : m.IsString va k) :
      StringCopy m va max done dst 0 (dst.blit done (k + 1) (m.bytes va))
  | none {n : Nat} (hn : n ≤ max) (hno : ∀ k, k < max → ¬ m.IsString va k) :
      StringCopy m va max done dst (-1) (dst.blit done n (m.bytes va))

section Loop

variable {s : Memory}

/-- The loop stops without having copied anything. -/
theorem StringCopy.stop {m : Partial} {va max done : Nat} {dst : Bytes}
    (hno : ∀ k, k < max → ¬ m.IsString va k) : StringCopy m va max done dst (-1) dst := by
  have hend : StringCopy m va max done dst (-1) (dst.blit done 0 (m.bytes va)) :=
    .none zero_le hno
  rwa [Bytes.blit_zero] at hend

/-- Characters copied before the rest of the loop. -/
theorem StringCopy.cons {m : Partial} {va max done n : Nat} {dst dst' : Bytes} {r : Int}
    (hle : n ≤ max) (hchars : ∀ i, i < n → ∃ b, b ≠ 0 ∧ m (va + i) = some b)
    (h : StringCopy m (va + n) (max - n) (done + n) (dst.blit done n (m.bytes va)) r dst') :
    StringCopy m va max done dst r dst' := by
  cases h with
  | @string k hk hs =>
    rw [Partial.bytes_add, Bytes.blit_blit]
    have hlt : n + k < max := by omega
    exact .string hlt ((Partial.isString_add hchars).mpr hs)
  | @none j hj hno =>
    rw [Partial.bytes_add, Bytes.blit_blit]
    refine .none (by omega) fun k hk hs => ?_
    have hge := hs.le_of_chars hchars
    rw [show k = n + (k - n) by omega] at hs
    exact hno (k - n) (by omega) ((Partial.isString_add hchars).mp hs)

theorem copyinstrLoop_spec (pt : PageTable s.mem) {rounds max : Nat} (hmax : max ≤ rounds)
    (dst : Bytes) (va done : Nat) :
    ∃ r dst', copyinstrLoop pt.root rounds dst va done max s = .ok ((r, dst'), s) ∧
      StringCopy (userMem s.mem pt.root) va max done dst r dst' := by
  -- Induction on the rounds; a round that goes on has copied at least one character.
  induction rounds generalizing max dst va done with
  | zero => exact ⟨-1, dst, rfl, .stop fun k hk => by omega⟩
  | succ rounds ih =>
    rw [copyinstrLoop]
    by_cases hzero : max = 0
    · rw [if_pos hzero]
      exact ⟨-1, dst, rfl, .stop fun k hk => by omega⟩
    have hpos := @pageChunk_pos va max hzero
    have hle := pageChunk_le va max
    rw [if_neg hzero]
    change ∃ r dst', (walkaddr pt.root (pgrounddown va) s >>= _) = _ ∧ _
    rw [walkaddr_page, ok_bind]
    cases hpage : userPage s.mem pt.root (va / pgsize) with
    | none =>
      have hinacc := userMem_of_none hpage
      refine ⟨-1, dst, rfl, .stop fun k _ hs => ?_⟩
      cases k with
      | zero =>
        have hnul := hs.nul
        rw [add_zero, hinacc] at hnul
        cases hnul
      | succ k =>
        obtain ⟨b, -, hb⟩ := hs.chars 0 (by omega)
        rw [add_zero, hinacc] at hb
        cases hb
    | some pa =>
      have hne := pt.userPage_ne hpage
      simp only [Option.getD_some, if_neg hne, sub_pgrounddown]
      change ∃ r dst', (if (copyinstrPage s.mem (pageChunk va max) (pa + va % pgsize) done
          dst).2 = true then
          (pure (0, (copyinstrPage s.mem (pageChunk va max) (pa + va % pgsize) done dst).1) :
            Op (Int × Bytes))
        else copyinstrLoop pt.root rounds
          (copyinstrPage s.mem (pageChunk va max) (pa + va % pgsize) done dst).1
          (word (pgrounddown va + pgsize)) (done + pageChunk va max)
          (max - pageChunk va max)) s = _ ∧ _
      have hbyte : ∀ i, i < pageChunk va max →
          userMem s.mem pt.root (va + i) = some (s.mem (pa + va % pgsize + i)) :=
        fun i hi => userMem_chunk hpage hi
      have hblit : ∀ j, j ≤ pageChunk va max →
          (dst.blit done j fun i => s.mem (pa + va % pgsize + i)) =
            dst.blit done j ((userMem s.mem pt.root).bytes va) := by
        intro j hj
        refine Bytes.blit_congr fun i hi => ?_
        rw [Partial.bytes, hbyte i (by omega)]
        rfl
      by_cases hnul : ∃ k, k < pageChunk va max ∧ s.mem (pa + va % pgsize + k) = 0
      · obtain ⟨hk, hk0⟩ := Nat.find_spec hnul
        have hbefore : ∀ i, i < Nat.find hnul → s.mem (pa + va % pgsize + i) ≠ 0 :=
          fun i hi hi0 => Nat.find_min hnul hi ⟨by omega, hi0⟩
        rw [copyinstrPage_nul hk hbefore hk0, hblit _ (by omega)]
        refine ⟨0, _, rfl, .string (by omega) ⟨?_, fun i hi => ?_⟩⟩
        · rw [hbyte _ hk, hk0]
        · exact ⟨_, hbefore i hi, hbyte i (by omega)⟩
      · have hchars : ∀ i, i < pageChunk va max → s.mem (pa + va % pgsize + i) ≠ 0 :=
          fun i hi hi0 => hnul ⟨i, hi, hi0⟩
        have huser : ∀ i, i < pageChunk va max →
            ∃ b, b ≠ 0 ∧ userMem s.mem pt.root (va + i) = some b :=
          fun i hi => ⟨_, hchars i hi, hbyte i hi⟩
        rw [copyinstrPage_chars hchars, hblit _ (le_refl _)]
        by_cases hall : pageChunk va max = max
        · rw [hall, Nat.sub_self]
          refine ⟨-1, _, by cases rounds <;> rfl, .none (le_refl max) fun k hk hs => ?_⟩
          have hge := hs.le_of_chars (hall ▸ huser)
          omega
        · have hva : va / pgsize < vpnMax := (leafAt_of_userPage hpage).1
          rw [next_page hva hall]
          obtain ⟨r, dst', heq, hcopy⟩ := @ih (max - pageChunk va max) (by omega)
            (dst.blit done (pageChunk va max) ((userMem s.mem pt.root).bytes va))
            (va + pageChunk va max) (done + pageChunk va max)
          exact ⟨r, dst', heq, hcopy.cons hle huser⟩

theorem copyinstr_spec (pt : PageTable s.mem) (dst : Bytes) (va max : Nat) :
    ∃ r dst', copyinstr pt.root dst va max s = .ok ((r, dst'), s) ∧
      StringCopy (userMem s.mem pt.root) va max 0 dst r dst' :=
  copyinstrLoop_spec pt (le_refl max) dst va 0

/-- `strlen` finds the null byte of a string inside its buffer. -/
theorem strlenLoop_eq {b : Bytes} {k n room : Nat} (hchars : ∀ i, i < k → b (n + i) ≠ 0)
    (hnul : b (n + k) = 0) (hroom : k < room) : strlenLoop b room n = some (n + k) := by
  induction room generalizing n k with
  | zero => exact absurd hroom (Nat.not_lt_zero k)
  | succ room ih =>
    cases k with
    | zero =>
      have hhead : b n = 0 := hnul
      rw [strlenLoop, if_pos hhead, add_zero]
    | succ k =>
      have hhead : b n ≠ 0 := hchars 0 (by omega)
      have hrest : ∀ i, i < k → b (n + 1 + i) ≠ 0 := fun i hi => by
        rw [add_assoc, add_comm 1 i]
        exact hchars (i + 1) (by omega)
      have hend : b (n + 1 + k) = 0 := by
        rw [add_assoc, add_comm 1 k]
        exact hnul
      rw [strlenLoop, if_neg hhead, ih hrest hend (by omega)]
      congr 1
      omega

/-- The string that has arrived in `dst`. -/
theorem Partial.IsString.blit_apply {m : Partial} {va k i : Nat} {dst : Bytes}
    (hs : m.IsString va k) (hi : i ≤ k) :
    m (va + i) = some (dst.blit 0 (k + 1) (m.bytes va) i) := by
  have hsome : (m (va + i)).isSome := by
    by_cases hik : i = k
    · rw [hik, hs.nul]
      rfl
    · obtain ⟨b, -, hb⟩ := hs.chars i (by omega)
      rw [hb]
      rfl
  rw [Bytes.blit_apply_inside (by omega), Nat.sub_zero]
  exact Partial.eq_some_bytes hsome

theorem fetchstr_spec (pt : PageTable s.mem) (buf : Bytes) (va : Nat) (max : Fin (2 ^ 31)) :
    ∃ r buf', fetchstr pt.root va buf max s = .ok ((r, buf'), s) ∧
      (∀ k, k < max.val → (userMem s.mem pt.root).IsString va k → r = k) ∧
      ((∀ k, k < max.val → ¬ (userMem s.mem pt.root).IsString va k) → r = -1) := by
  obtain ⟨r, buf', heq, hcopy⟩ := copyinstr_spec pt buf va max
  have hfetch : fetchstr pt.root va buf max s = (if r < 0 then pure (-1, buf')
      else
        (strlenLoop buf' max 0).elim (throw .strlenOutside) fun n => pure ((n : Int), buf') :
          Op (Int × Bytes)) s := by
    change (copyinstr pt.root buf va max s >>= _) = _
    rw [heq, ok_bind]
    dsimp only
    cases strlenLoop buf' max 0 <;> rfl
  rw [hfetch]
  cases hcopy with
  | @string k hk hs =>
    have hbuf : ∀ i, i ≤ k → userMem s.mem pt.root (va + i) =
        some (buf.blit 0 (k + 1) ((userMem s.mem pt.root).bytes va) (0 + i)) := by
      intro i hi
      rw [zero_add]
      exact Partial.IsString.blit_apply hs hi
    have hlen : strlenLoop (buf.blit 0 (k + 1) ((userMem s.mem pt.root).bytes va)) max 0 =
        some (0 + k) := by
      refine strlenLoop_eq (fun i hi => ?_) ?_ hk
      · obtain ⟨b, hb, hmem⟩ := hs.chars i hi
        rw [hbuf i (by omega)] at hmem
        rw [Option.some.inj hmem]
        exact hb
      · have hnul := hs.nul
        rw [hbuf k (le_refl k)] at hnul
        exact Option.some.inj hnul
    refine ⟨k, buf.blit 0 (k + 1) ((userMem s.mem pt.root).bytes va), ?_,
      fun j _ hj => congrArg _ (hs.unique hj), fun hno => absurd hs (hno k hk)⟩
    rw [if_neg (by decide), hlen, zero_add]
    rfl
  | @none n hn hno =>
    refine ⟨-1, buf.blit 0 n ((userMem s.mem pt.root).bytes va), ?_,
      fun k hk hs => absurd hs (hno k hk), fun _ => rfl⟩
    rfl

end Loop

/-- `copyinstr` agrees with reading user memory byte by byte: it succeeds exactly when there is a
string of less than `max` characters, it copies that string with its null byte and writes
nothing behind it, and otherwise it writes no more than `max` bytes. `fetchstr` returns the
length of the string. -/
theorem copyinstr_agrees_bytewise (s : Memory) (pt : PageTable s.mem) (dst : Bytes) (va : Nat) :
    (∀ max, ∃ r dst', copyinstr pt.root dst va max s = .ok ((r, dst'), s) ∧
      (r = 0 ↔ ∃ k, k < max ∧ (userMem s.mem pt.root).IsString va k) ∧
      (∀ k, k < max → (userMem s.mem pt.root).IsString va k →
        (∀ i, i ≤ k → userMem s.mem pt.root (va + i) = some (dst' i)) ∧
        ∀ i, k < i → dst' i = dst i) ∧
      (r ≠ 0 → r = -1 ∧ ∀ i, max ≤ i → dst' i = dst i)) ∧
    ∀ max : Fin (2 ^ 31), ∃ r buf, fetchstr pt.root va dst max s = .ok ((r, buf), s) ∧
      (∀ k, k < max.val → (userMem s.mem pt.root).IsString va k → r = k) ∧
      ((∀ k, k < max.val → ¬ (userMem s.mem pt.root).IsString va k) → r = -1) := by
  refine ⟨fun max => ?_, fetchstr_spec pt dst va⟩
  obtain ⟨r, dst', heq, hcopy⟩ := copyinstr_spec pt dst va max
  refine ⟨r, dst', heq, ?_⟩
  cases hcopy with
  | @string k hk hs =>
    refine ⟨⟨fun _ => ⟨k, hk, hs⟩, fun _ => rfl⟩, fun j _ hj => ?_, fun h => absurd rfl h⟩
    obtain rfl := hs.unique hj
    exact ⟨fun i hi => Partial.IsString.blit_apply hs hi,
      fun i hi => Bytes.blit_apply_outside (by omega)⟩
  | @none n hn hno =>
    refine ⟨⟨fun h => absurd h (by decide), fun ⟨k, hk, hs⟩ => absurd hs (hno k hk)⟩,
      fun k hk hs => absurd hs (hno k hk), fun _ => ⟨rfl, fun i hi => ?_⟩⟩
    exact Bytes.blit_apply_outside (by omega)

end FogOS.Vm
