import FogOS.Exec.Model
import FogOS.Vm.Strings

/-!
# Files that start with `#!`

`exec` reads two bytes into `shebang` and up to `MAXPATH` bytes into `interpreter`, and looks at
both arrays as if they had been filled. What it does is a function of the file when the file has
the bytes that decide, and depends on what the stack held otherwise.
-/

namespace FogOS.Exec

open Function Library Vm List

/-- The byte ends the path of the interpreter. -/
def Ends (b : UInt8) : Prop := b = '\n'.toUInt8 ∨ b = ' '.toUInt8

instance : DecidablePred Ends := fun _ => inferInstanceAs (Decidable (_ ∨ _))

/-- The text after `#!`, up to a newline, a space or the end of the file. -/
def shebangLine : List UInt8 → Option (List UInt8)
  | b :: c :: rest =>
    if b = '#'.toUInt8 ∧ c = '!'.toUInt8 then some (rest.takeWhile fun d => ¬ Ends d) else none
  | _ => none

/-- The text as a C string. -/
def cString (line : List UInt8) : List UInt8 := line.takeWhile (· ≠ 0)

/-- The file decides alone whether it is a script, and the path of the interpreter ends within the
array. -/
def Clean : List UInt8 → Prop
  | [] => False
  | [b] => b ≠ '#'.toUInt8
  | b :: c :: rest => b = '#'.toUInt8 → c = '!'.toUInt8 → ∃ d ∈ rest.take maxpath, Ends d ∨ d = 0

instance : DecidablePred Clean
  | [] => inferInstanceAs (Decidable False)
  | [_] => inferInstanceAs (Decidable (_ ≠ _))
  | _ :: _ :: _ => inferInstanceAs (Decidable (_ → _ → _))

section Read

variable {ip : File} {frame : Frame}

theorem readi_zero (ip : File) : readi ip 0 2 = ip.bytes.take 2 := by
  rfl

theorem readi_two (h : 2 ≤ ip.bytes.length) :
    readi ip 2 (UInt32.ofNat maxpath) = (ip.bytes.drop 2).take maxpath := by
  have hnot : ¬ (ip.bytes.length < (2 : UInt32).toNat ∨
      (2 : UInt32) + UInt32.ofNat maxpath < 2) := by
    rintro (hlt | hlt)
    · exact not_lt.mpr h hlt
    · exact absurd hlt (by decide)
  rw [readi, if_neg hnot]
  rfl

theorem readInto_apply {buf : Bytes} {off n : UInt32} {i : Nat} (hi : i < (readi ip off n).length) :
    readInto buf ip off n i = (readi ip off n)[i] := by
  rw [readInto, Bytes.blit_apply_inside (by omega), Nat.sub_zero, Bytes.ofList,
    getD_eq_getElem _ _ hi]

/-- Whether the file is a script is a matter of its first two bytes. -/
theorem isScript_eq (h : Clean ip.bytes) : isScript frame ip = (shebangLine ip.bytes).isSome := by
  have hread := readi_zero ip
  have hbyte : ∀ i (hi : i < (readi ip 0 2).length),
      readInto frame.shebang ip 0 2 i = (readi ip 0 2)[i] := fun i hi => readInto_apply hi
  unfold isScript
  match hb : ip.bytes, h with
  | [b], h =>
    have hzero := hbyte 0 (by simp [hread, hb])
    simp only [hread, hb, take_succ_cons, getElem_cons_zero] at hzero
    have hne : b ≠ '#'.toUInt8 := h
    simp [hzero, hne, shebangLine]
  | b :: c :: rest, _ =>
    have hzero := hbyte 0 (by simp [hread, hb])
    have hone := hbyte 1 (by simp [hread, hb])
    simp only [hread, hb, take_succ_cons, getElem_cons_zero, getElem_cons_succ] at hzero hone
    simp only [hzero, hone, shebangLine]
    by_cases hshebang : b = '#'.toUInt8 ∧ c = '!'.toUInt8
    · simp [hshebang]
    · rw [if_neg hshebang]
      simpa using hshebang

end Read

section Line

variable {buf : Bytes} {n i : Nat}

/-- The loop puts a null byte in the place of the first newline or space. -/
theorem endPath_eq (buf : Bytes) (n i : Nat) :
    (endPath buf n i = buf ∧ ∀ j, i ≤ j → j < i + n → ¬ Ends (buf j)) ∨
      ∃ m, endPath buf n i = update buf m 0 ∧ i ≤ m ∧ m < i + n ∧ Ends (buf m) ∧
        ∀ j, i ≤ j → j < m → ¬ Ends (buf j) := by
  induction n generalizing i with
  | zero => exact .inl ⟨rfl, fun j _ _ => by omega⟩
  | succ n ih =>
    unfold endPath
    by_cases hi : Ends (buf i)
    · refine .inr ⟨i, if_pos hi, le_refl i, by omega, hi, fun j _ _ => by omega⟩
    · rw [if_neg (show ¬ (buf i = '\n'.toUInt8 ∨ buf i = ' '.toUInt8) from hi)]
      have hfirst : ∀ j, i ≤ j → (i + 1 ≤ j → ¬ Ends (buf j)) → ¬ Ends (buf j) := by
        intro j hij hj
        by_cases heq : i = j
        · exact heq ▸ hi
        · exact hj (by omega)
      rcases ih (i + 1) with ⟨heq, hno⟩ | ⟨m, heq, him, hm, hends, hno⟩
      · exact .inl ⟨heq, fun j hij hj => hfirst j hij fun hlt => hno j hlt (by omega)⟩
      · exact .inr ⟨m, heq, by omega, by omega, hends, fun j hij hj =>
          hfirst j hij fun hlt => hno j hlt hj⟩

/-- The array up to the first byte that ends a path. -/
theorem endPath_string {k : Nat} (hchars : ∀ j, j < k → ¬ Ends (buf j)) (hk : k < n)
    (hend : Ends (buf k) ∨ buf k = 0) :
    (∀ j, j < k → endPath buf n 0 j = buf j) ∧ endPath buf n 0 k = 0 := by
  rcases endPath_eq buf n 0 with ⟨heq, hno⟩ | ⟨m, heq, -, -, hends, hno⟩
  · rw [heq]
    exact ⟨fun _ _ => rfl, hend.resolve_left (hno k zero_le (by omega))⟩
  · have hkm : k ≤ m := by
      by_contra hlt
      exact hchars m (by omega) hends
    rw [heq]
    refine ⟨fun j hj => update_of_ne (by omega) _ _, ?_⟩
    by_cases hkeq : k = m
    · rw [hkeq, update_self]
    · rw [update_of_ne hkeq]
      exact hend.resolve_left (hno k zero_le (by omega))

theorem cString_takeWhile (rest : List UInt8) : cString (rest.takeWhile fun d => ¬ Ends d) =
    rest.takeWhile fun d => ¬ (Ends d ∨ d = 0) := by
  rw [cString, takeWhile_takeWhile]
  congr 1
  funext d
  by_cases hd : d = 0 <;> simp [hd]

/-- The byte at which the string ends. -/
theorem takeWhile_split {rest : List UInt8} {p : UInt8 → Bool} {m : Nat}
    (h : ∃ d ∈ rest.take m, p d = false) :
    ∃ b tail, rest = rest.takeWhile p ++ b :: tail ∧ p b = false ∧
      (rest.takeWhile p).length < m := by
  induction rest generalizing m with
  | nil =>
    obtain ⟨d, hd, -⟩ := h
    simp at hd
  | cons a rest ih =>
    obtain ⟨d, hd, hp⟩ := h
    cases m with
    | zero => cases hd
    | succ m =>
      by_cases ha : p a = true
      · have hrest : d ∈ rest.take m := by
          refine (mem_cons.mp hd).resolve_left ?_
          rintro rfl
          rw [hp] at ha
          cases ha
        obtain ⟨b, tail, heq, hb, hlt⟩ := ih ⟨d, hrest, hp⟩
        rw [takeWhile_cons_of_pos ha]
        exact ⟨b, tail, congrArg (a :: ·) heq, hb, Nat.succ_lt_succ hlt⟩
      · rw [takeWhile_cons_of_neg ha]
        exact ⟨a, rest, rfl, by simpa using ha, Nat.succ_pos m⟩

end Line

section Script

variable {ip : File} {line : List UInt8}

section

variable (frame : Frame) (hclean : Clean ip.bytes) (hline : shebangLine ip.bytes = some line)

include hclean hline

/-- The path of the interpreter stands in the array, with a null byte after it. -/
theorem interpreter_string :
    (cString line).length < maxpath ∧
      (∀ i (hi : i < (cString line).length), interpreter frame ip i = (cString line)[i]) ∧
      interpreter frame ip (cString line).length = 0 := by
  match hb : ip.bytes, hclean, hline with
  | b :: c :: rest, hclean, hline =>
    simp only [shebangLine] at hline
    split at hline
    case isFalse => cases hline
    rename_i hshebang
    cases hline
    obtain ⟨d, hd, hends⟩ := hclean hshebang.1 hshebang.2
    have hread : readi ip 2 (UInt32.ofNat maxpath) = rest.take maxpath := by
      rw [readi_two (by simp [hb]), hb]
      rfl
    rw [cString_takeWhile]
    obtain ⟨e, tail, hsplit, he, hlt⟩ := takeWhile_split (p := fun d => ¬ (Ends d ∨ d = 0))
      ⟨d, hd, decide_eq_false (not_not.mpr hends)⟩
    generalize hw : (rest.takeWhile fun d => ¬ (Ends d ∨ d = 0)) = w at hsplit hlt ⊢
    have hlen : w.length < (rest.take maxpath).length := by
      simp only [hsplit, length_take, length_append, length_cons]
      omega
    -- The array holds what was read, up to the end of the path.
    have hbuf : ∀ i, i ≤ w.length →
        readInto frame.interpreter ip 2 (UInt32.ofNat maxpath) i = (w ++ e :: tail).getD i 0 := by
      intro i hi
      have hlt' : i < (readi ip 2 (UInt32.ofNat maxpath)).length := by
        rw [hread]
        omega
      rw [readInto_apply hlt', ← hsplit, ← getD_eq_getElem _ 0 hlt', hread]
      simp only [getD_eq_getElem?_getD, getElem?_take, if_pos (by omega : i < maxpath)]
    have hchar : ∀ i (hi : i < w.length),
        readInto frame.interpreter ip 2 (UInt32.ofNat maxpath) i = w[i] := by
      intro i hi
      rw [hbuf i (le_of_lt hi), getD_append _ _ _ _ hi, getD_eq_getElem _ _ hi]
    have hmem : ∀ i (hi : i < w.length), ¬ (Ends w[i] ∨ w[i] = 0) := by
      intro i hi
      have hin : w[i] ∈ rest.takeWhile fun d => ¬ (Ends d ∨ d = 0) := by
        rw [hw]
        exact getElem_mem hi
      simpa only [decide_eq_true_eq] using mem_takeWhile_imp hin
    have hlast : readInto frame.interpreter ip 2 (UInt32.ofNat maxpath) w.length = e := by
      rw [hbuf _ (le_refl _), getD_append_right _ _ _ _ (le_refl _), Nat.sub_self]
      rfl
    have hstring := endPath_string (n := min maxpath (readi ip 2 (UInt32.ofNat maxpath)).length)
      (fun j hj hends => hmem j hj (.inl (hchar j hj ▸ hends))) (by rw [hread]; omega)
      (by rw [hlast]; exact not_not.mp (of_decide_eq_false he))
    exact ⟨hlt, fun i hi => (hstring.1 i hi).trans (hchar i hi), hstring.2⟩

theorem map_interpreter :
    (List.range (cString line).length).map (interpreter frame ip) = cString line := by
  refine ext_getElem (by simp) fun i h₁ h₂ => ?_
  rw [getElem_map, getElem_range]
  exact (interpreter_string frame hclean hline).2.1 i h₂

theorem strlen_interpreter :
    strlenLoop (interpreter frame ip) maxpath 0 = some (cString line).length := by
  obtain ⟨hlt, hchars, hend⟩ := interpreter_string frame hclean hline
  rw [← zero_add (cString line).length]
  refine strlenLoop_eq (fun i hi => ?_) (by rwa [zero_add]) hlt
  rw [zero_add, hchars i hi]
  simpa only [decide_eq_true_eq] using mem_takeWhile_imp (getElem_mem hi)

end

variable {files : Files} {path : List UInt8}

section

variable (p : Proc) (frame : Frame) (frames : List Frame) (argv : List (List UInt8))
  (hip : files path = some ip) (hclean : Clean ip.bytes)

include hip hclean

/-- A file that is not a script is loaded. -/
theorem exec_elf (hnone : shebangLine ip.bytes = none) :
    exec files p (frame :: frames) path argv = execElf p ip argv := by
  have hno : isScript frame ip = false := by rw [isScript_eq hclean, hnone]; rfl
  simp only [exec, hip, hno, Bool.false_eq_true, if_false]

/-- A script is a call of its interpreter. -/
theorem exec_script (hline : shebangLine ip.bytes = some line) :
    exec files p (frame :: frames) path argv =
      exec files p frames (cString line) (cString line :: argv.head?.toList) := by
  have hyes : isScript frame ip = true := by rw [isScript_eq hclean, hline]; rfl
  simp only [exec, hip, hyes, if_true, strlen_interpreter frame hclean hline,
    map_interpreter frame hclean hline]

end

section Examples

def text (chars : List Char) : List UInt8 := chars.map Char.toUInt8

/-- A file whose first line is `#!/sh`. -/
def shScript : File := ⟨text ['#', '!', '/', 's', 'h', '\n', 'l', 's', '\n'], by decide⟩

def emptyFile : File := ⟨[], by decide⟩

/-- `#!/a` without a newline. -/
def openLine : File := ⟨text ['#', '!', '/', 'a'], by decide⟩

/-- `#!` and a path that fills the array. -/
def longLine : File := ⟨text ['#', '!'] ++ List.replicate maxpath 'x'.toUInt8, by simp [text, maxpath]⟩

/-- The call before this one left the texts `#!` and `xxb` on the stack. -/
def dirtyFrame : Frame where
  shebang := Bytes.ofList (text ['#', '!'])
  interpreter := Bytes.ofList (text ['x', 'x', 'b'])

end Examples

end Script

end FogOS.Exec
