import FogOS.Pipe.Read
import FogOS.Vm.ReadOnly

/-!
# `consoleread` and the memory of the reader

The console buffer and `consoleread`, with the `copyout` that it calls. While
`consoleread` sleeps it has no lock, so the buffer it finds when it wakes up is any
buffer that interrupts and other readers may leave. Like `piperead`, it takes a byte
out of the buffer before it tries to copy it out.
-/

namespace FogOS.Console

open Library Vm List

/-- `INPUT_BUF_SIZE`. -/
def inputBufSize : Nat := 128

/-- `C('D')`: the end-of-file character. -/
def ctrlD : UInt8 := 4

def newline : UInt8 := 10

/-- The input part of `cons`. -/
structure Cons where
  buf : Nat → UInt8
  r : UInt32
  w : UInt32
  e : UInt32

/-- What a test of `killed` and a `sleep` of the loop find: the process has been killed, or the
buffer is as given when it holds the lock again. -/
inductive Wake
  | killed
  | awake (cons : Cons)

/-- The inner loop of `consoleread`: there is input, the process has been killed, or it sleeps
for longer than `wakes` tells. -/
inductive Waited
  | input (cons : Cons) (wakes : List Wake)
  | killed (cons : Cons)
  | asleep (cons : Cons)

def waitInput : List Wake → Cons → Waited
  | [], c => if c.r = c.w then .asleep c else .input c []
  | wake :: wakes, c =>
    if c.r = c.w then
      match wake with
      | .killed => .killed c
      | .awake c => waitInput wakes c
    else .input c (wake :: wakes)

/-- Where a `consoleread` has got to: its result, unless it still sleeps, the bytes it has taken
out of the buffer, the buffer and the memory. -/
structure Outcome where
  ret : Option Int
  taken : List UInt8
  cons : Cons
  mem : Memory

/-- The loop of `consoleread` with `n` bytes of `target` left to read. -/
def consolereadLoop (pagetable target : Nat) :
    Nat → Nat → List Wake → Cons → Memory → List UInt8 → Except Panic Outcome
  | 0, _, _, c, m, taken => .ok ⟨some target, taken, c, m⟩
  | n + 1, dst, wakes, c, m, taken =>
    match waitInput wakes c with
    | .asleep c => .ok ⟨none, taken, c, m⟩
    | .killed c => .ok ⟨some (-1), taken, c, m⟩
    | .input c wakes =>
      let ch := c.buf (c.r.toNat % inputBufSize)
      let next := { c with r := c.r + 1 }
      if ch = ctrlD then
        if n + 1 < target then
          .ok ⟨some (target - (n + 1 : Nat)), taken, { next with r := next.r - 1 }, m⟩
        else .ok ⟨some (target - (n + 1 : Nat)), taken ++ [ch], next, m⟩
      else
        match copyout pagetable dst (fun _ => ch) 1 m with
        | .error e => .error e
        | .ok (r, m) =>
          if r = -1 then .ok ⟨some (target - (n + 1 : Nat)), taken ++ [ch], next, m⟩
          else if ch = newline then .ok ⟨some (target - n), taken ++ [ch], next, m⟩
          else
            consolereadLoop pagetable target n (word (dst + 1)) wakes next m (taken ++ [ch])

/-- `consoleread(1, dst, n)`. -/
def consoleread (pagetable dst : Nat) (n : Int) (wakes : List Wake) (c : Cons) (m : Memory) :
    Except Panic Outcome :=
  consolereadLoop pagetable n.toNat n.toNat dst wakes c m []

/-- The bytes that are taken out of the buffer and not copied: an end-of-file character. -/
def Eof (bytes rest : List UInt8) : Prop := rest = [] ∨ (bytes = [] ∧ rest = [ctrlD])

/-- What a read has done when it returns the number of bytes it has delivered. -/
structure Delivered (root dst : Nat) (m : Memory) (o : Outcome) (bytes rest : List UInt8) :
    Prop where
  taken : o.taken = bytes ++ rest
  eof : Eof bytes rest
  ret : ∀ r, o.ret = some r → r ≠ -1 → r = bytes.length
  user : Copied root dst bytes.length (Bytes.ofList bytes) m o.mem

section Loop

variable {root dst : Nat} {m m₀ m₁ : Memory} {bytes : List UInt8} {ch : UInt8}

/-- One more byte is copied behind the others. -/
theorem copied_snoc (h : Copied root dst bytes.length (Bytes.ofList bytes) m₀ m)
    (h' : Copied root (dst + bytes.length) 1 (fun _ => ch) m m₁) :
    Copied root dst (bytes ++ [ch]).length (Bytes.ofList (bytes ++ [ch])) m₀ m₁ := by
  rw [length_append, length_singleton]
  refine Copied.append (h.congr fun i hi => ?_) (h'.congr fun i hi => ?_)
  · simp only [Bytes.ofList, getD_eq_getElem?_getD, getElem?_append_left hi]
  · obtain rfl : i = 0 := by omega
    simp [Bytes.ofList]

/-- The loop from a state in which it has delivered what it has taken. -/
theorem consolereadLoop_spec (pt : UserTable m₀.mem) (dst : Nat) {target n : Nat}
    (hn : n + bytes.length = target)
    (hacc : ∀ j, j < target → Accessible m₀.mem pt.root ((dst + j) / pgsize))
    (hcopied : Copied pt.root dst bytes.length (Bytes.ofList bytes) m₀ m)
    (wakes : List Wake) (c : Cons) :
    ∃ o, consolereadLoop pt.root target n (dst + bytes.length) wakes c m bytes = .ok o ∧
      ∃ bytes rest, Delivered pt.root dst m₀ o bytes rest := by
  induction n generalizing wakes c m bytes with
  | zero =>
    refine ⟨_, rfl, bytes, [], (append_nil _).symm, Or.inl rfl, ?_, hcopied⟩
    intro r hr _
    cases hr
    omega
  | succ n ih =>
    rw [consolereadLoop]
    have hstop : ∀ c ret, (∀ r, ret = some r → r ≠ -1 → r = (bytes.length : Int)) →
        Delivered pt.root dst m₀ ⟨ret, bytes, c, m⟩ bytes [] := fun c ret hret =>
      ⟨(append_nil _).symm, Or.inl rfl, hret, hcopied⟩
    cases hwait : waitInput wakes c with
    | asleep c' => exact ⟨_, rfl, bytes, [], hstop c' none fun r hr => by cases hr⟩
    | killed c' =>
      refine ⟨_, rfl, bytes, [], hstop c' (some (-1)) fun r hr hne => ?_⟩
      exact absurd (Option.some.inj hr).symm hne
    | input c' wakes' =>
      simp only
      by_cases heof : c'.buf (c'.r.toNat % inputBufSize) = ctrlD
      · rw [if_pos heof]
        by_cases hfirst : n + 1 < target
        · rw [if_pos hfirst]
          refine ⟨_, rfl, bytes, [], hstop _ _ fun r hr _ => ?_⟩
          rw [← Option.some.inj hr]
          omega
        · obtain rfl : bytes = [] := length_eq_zero_iff.mp (by omega)
          rw [if_neg hfirst]
          refine ⟨_, rfl, [], [ctrlD], by rw [heof], Or.inr ⟨rfl, rfl⟩, ?_, hcopied⟩
          intro r hr _
          rw [← Option.some.inj hr]
          omega
      · have hhere : Accessible m.mem (pt.move hcopied.tables).root
            ((dst + bytes.length) / pgsize) := by
          rw [accessible_iff]
          change (userPage m.mem pt.root _).isSome
          rw [hcopied.tables.userPage_eq, ← accessible_iff]
          exact hacc bytes.length (by omega)
        have hword : word (dst + bytes.length + 1) = dst + (bytes.length + 1) := by
          have hvpn := hhere.1
          unfold word vpnMax maxva pgsize at *
          omega
        obtain ⟨m₁, hout, hbyte⟩ := copyout_byte (pt.move hcopied.tables)
          (c'.buf (c'.r.toNat % inputBufSize)) hhere
        have hnext := copied_snoc hcopied hbyte
        change copyout pt.root _ _ _ _ = _ at hout
        rw [if_neg heof, hout]
        simp only
        by_cases hline : c'.buf (c'.r.toNat % inputBufSize) = newline
        · rw [if_pos hline]
          refine ⟨_, rfl, _, [], (append_nil _).symm, Or.inl rfl, ?_, hnext⟩
          intro r hr _
          rw [← Option.some.inj hr, length_append, length_singleton]
          omega
        · rw [if_neg hline, hword]
          have hrest := ih (by simp; omega) hnext wakes' { c' with r := c'.r + 1 }
          rwa [length_append, length_singleton] at hrest

end Loop

section Example

theorem onePage_accessible {a : Nat} (ha : a < pgsize) :
    Accessible (onePageMem dataFlags) rootPage (a / pgsize) := by
  rw [Nat.div_eq_of_lt ha]
  exact ⟨by decide, _, _, leafAt_onePage (by decide) (by decide), by decide⟩

/-- A pipe that holds one byte. -/
def onePipe : Pipe.PipeState Unit :=
  { Pipe.PipeState.alloc (fun _ => 120) with nwrite := 1, inserted := [120] }

/-- A console buffer that holds one byte, all of them to be read. -/
def oneCons : Cons := ⟨fun _ => 120, 0, 1, 1⟩

end Example

end FogOS.Console
