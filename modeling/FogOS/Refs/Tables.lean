import FogOS.Refs.Owned

/-!
# What an operation does to the tables

An operation changes the counts by the references that it adds and drops, and the contents of the
`struct file`s by those that it stores and takes back.
-/

namespace FogOS.Refs

open Function Library Dialogue Protocol Multiset Bool

namespace Op

/-- The operations on `ftable`. -/
def onFiles : Op → Bool
  | .filealloc | .filedup _ | .fileclose _ | .setInode _ _ _ _ _ | .setPipe _ _ _ => true
  | _ => false

/-- The operations on `itable`. -/
def onInodes : Op → Bool
  | .iget _ _ | .idup _ | .put _ => true
  | _ => false

/-- The operations on pipes. -/
def onPipes : Op → Bool
  | .kalloc | .pipeclose _ _ => true
  | _ => false

/-- The other process whose `struct proc` the operation changes. -/
def target (c : Choice) : (o : Op) → o.Reply → Option ProcSlot
  | .allocproc, r => r
  | .freeproc np, _ | .childFd np _ _, _ | .childCwd np _, _ | .setRunnable np, _ => some np
  | .reap, _ => some c.q
  | _, _ => none

/-- The change of that `struct proc`. -/
def aim : Op → Proc → Proc
  | .allocproc, x => { x with state := .used }
  | .freeproc _, x | .reap, x => { x with state := .unused }
  | .childFd _ fd f, x => { x with ofile := update x.ofile fd (some f) }
  | .childCwd _ k, x => { x with cwd := some k }
  | .setRunnable _, x => { x with state := .runnable }
  | _, x => x

/-- The operation starts a process. -/
def starts : Op → ProcSlot → Bool
  | .setRunnable np, q => decide (q = np)
  | _, _ => false

/-- The contents that the operation gives to a `struct file`. -/
def fills : Op → FileSlot → Option Contents
  | .setInode f _ k _ _, g => if g = f then some (.inode k) else none
  | .setPipe f0 f1 pi, g =>
    if g = f1 then some (.pipe pi true) else if g = f0 then some (.pipe pi false) else none
  | _, _ => none

end Op

namespace State

variable (s : State)

/-- The count of a reference; an end of a pipe counts as one while it is open. -/
def refs : Token → Nat
  | .file f => (s.files f).ref
  | .inode k => (s.inodes k).ref
  | .pipe pi false => (s.pipes pi).readopen.toNat
  | .pipe pi true => (s.pipes pi).writeopen.toNat

/-- The references of the `struct file`s. -/
def stored : Multiset Token := ∑ f, (s.files f).contents.tokens

section Setters

variable (f : FileSlot) (x : File) (k : InodeSlot) (y : Inode) (pi : Nat) (z : Pipe) (t : Token)

theorem refs_setFile : (s.setFile f x).refs t = if t = .file f then x.ref else s.refs t := by
  cases t with
  | file g =>
    by_cases hg : g = f
    · subst hg
      simp [refs, setFile]
    · simp [refs, setFile, hg]
  | inode k => simp [refs, setFile]
  | pipe pi w => cases w <;> simp [refs, setFile]

theorem refs_setInode : (s.setInode k y).refs t = if t = .inode k then y.ref else s.refs t := by
  cases t with
  | file f => simp [refs, setInode]
  | inode j =>
    by_cases hj : j = k
    · subst hj
      simp [refs, setInode]
    · simp [refs, setInode, hj]
  | pipe pi w => cases w <;> simp [refs, setInode]

theorem refs_setPipe : (s.setPipe pi z).refs t =
    if t = .pipe pi false then z.readopen.toNat
    else if t = .pipe pi true then z.writeopen.toNat else s.refs t := by
  cases t with
  | file f => simp [refs, setPipe]
  | inode k => simp [refs, setPipe]
  | pipe j w =>
    by_cases hj : j = pi
    · subst hj
      cases w <;> simp [refs, setPipe]
    · cases w <;> simp [refs, setPipe, hj]

theorem stored_setFile :
    (s.setFile f x).stored + (s.files f).contents.tokens = s.stored + x.contents.tokens := by
  have hsum := sum_change (s := Finset.univ) (x := f)
    (g := fun g => (update s.files f x g).contents.tokens) (Finset.mem_univ f)
    fun g hg => by rw [update_of_ne hg]
  simp only [update_self] at hsum
  exact hsum

theorem stored_setFile_same {f : FileSlot} {x : File} (h : x.contents = (s.files f).contents) :
    (s.setFile f x).stored = s.stored := by
  have hsum := s.stored_setFile f x
  rw [h] at hsum
  exact add_right_cancel hsum

theorem stored_setFile_new {f : FileSlot} (x : File) (h : (s.files f).contents = .none) :
    (s.setFile f x).stored = s.stored + x.contents.tokens := by
  have hsum := s.stored_setFile f x
  rw [h, Contents.tokens, add_zero] at hsum
  exact hsum

theorem refs_setFile_same {f : FileSlot} {x : File} (h : x.ref = (s.files f).ref) (t : Token) :
    (s.setFile f x).refs t = s.refs t := by
  rw [refs_setFile, h]
  by_cases ht : t = .file f
  · rw [if_pos ht, ht, refs]
  · rw [if_neg ht]

end Setters

variable {s} {s' : State} {t : Token}

theorem refs_congr (hfiles : s'.files = s.files) (hinodes : s'.inodes = s.inodes)
    (hpipes : s'.pipes = s.pipes) (u : Token) : s'.refs u = s.refs u := by
  cases u with
  | file f => simp only [refs, hfiles]
  | inode k => simp only [refs, hinodes]
  | pipe pi w => cases w <;> simp only [refs, hpipes]

/-- One count goes up. -/
theorem refs_raise (h : ∀ u, s'.refs u = if u = t then s.refs t + 1 else s.refs u) (u : Token) :
    s'.refs u = s.refs u + Multiset.count u {t} := by
  rw [h, count_singleton]
  by_cases hu : u = t
  · rw [if_pos hu, if_pos hu, hu]
  · rw [if_neg hu, if_neg hu, add_zero]

/-- One count goes down. -/
theorem refs_lower (h : ∀ u, s'.refs u = if u = t then s.refs t - 1 else s.refs u)
    (hpos : 0 < s.refs t) (u : Token) : s'.refs u + Multiset.count u {t} = s.refs u := by
  rw [h, count_singleton]
  by_cases hu : u = t
  · rw [if_pos hu, if_pos hu, hu, Nat.sub_add_cancel hpos]
  · rw [if_neg hu, if_neg hu, add_zero]

/-- A closed pipe is opened at both ends. -/
theorem refs_open {pi : Nat} (hread : (s.pipes pi).readopen = false)
    (hwrite : (s.pipes pi).writeopen = false) (u : Token) :
    (s.setPipe pi ⟨true, true, true⟩).refs u =
      s.refs u + Multiset.count u {.pipe pi true, .pipe pi false} := by
  show _ = _ + Multiset.count u (Token.pipe pi true ::ₘ {Token.pipe pi false})
  rw [refs_setPipe, count_cons, count_singleton]
  by_cases h0 : u = .pipe pi false
  · subst h0
    simp [refs, hread]
  · by_cases h1 : u = .pipe pi true
    · subst h1
      simp [refs, hwrite]
    · simp [h0, h1]

/-- `pipeclose` closes one end. -/
theorem refs_pipeclose {pi : Nat} {w : Bool} (u : Token) :
    (s.setPipe pi ⟨(w && (s.pipes pi).readopen || !w && (s.pipes pi).writeopen),
      w && (s.pipes pi).readopen, !w && (s.pipes pi).writeopen⟩).refs u =
      if u = .pipe pi w then 0 else s.refs u := by
  rw [refs_setPipe]
  cases w with
  | true =>
    by_cases h0 : u = .pipe pi false
    · subst h0
      simp [refs]
    · by_cases h1 : u = .pipe pi true
      · simp [h1]
      · simp [h0, h1]
  | false =>
    by_cases h0 : u = .pipe pi false
    · simp [h0]
    · by_cases h1 : u = .pipe pi true
      · subst h1
        simp [refs]
      · simp [h0, h1]

theorem refs_pipe_le (pi : Nat) (w : Bool) : s.refs (.pipe pi w) ≤ 1 := by
  cases w
  · exact toNat_le _
  · exact toNat_le _

end State

section Exec

variable {s s₁ : State} {p : ProcSlot} {c : Choice} {o : Op} {r : o.Reply}

open State

/-- What an operation leaves alone, and what it does to the process table. -/
structure Frame (s s₁ : State) (p : ProcSlot) (c : Choice) (o : Op) (r : o.Reply) : Prop where
  files : o.onFiles = false → s₁.files = s.files
  inodes : o.onInodes = false → s₁.inodes = s.inodes
  pipes : o.onPipes = false → s₁.pipes = s.pipes
  records : s₁.records = s.records
  procs : ∀ q, s₁.procs q = if o.target c r = some q then o.aim (s.procs q)
    else if q = p then (s.view p).self' o r else s.procs q
  thread : ∀ q, s₁.thread q = if o.starts q then .ret 0 else s.thread q

/-- An operation that leaves the process table alone. -/
theorem Frame.of_procs (hfiles : o.onFiles = false → s₁.files = s.files)
    (hinodes : o.onInodes = false → s₁.inodes = s.inodes)
    (hpipes : o.onPipes = false → s₁.pipes = s.pipes) (hrecords : s₁.records = s.records)
    (hprocs : s₁.procs = s.procs) (hthread : s₁.thread = s.thread)
    (htarget : o.target c r = none) (hself : (s.view p).self' o r = s.procs p)
    (hrun : o.starts = fun _ => false) : Frame s s₁ p c o r where
  files := hfiles
  inodes := hinodes
  pipes := hpipes
  records := hrecords
  procs q := by
    rw [hprocs, htarget, if_neg nofun, hself]
    split_ifs with hq
    · rw [hq]
    · rfl
  thread q := by simp only [hthread, hrun, false_eq_true, if_false]

theorem Frame.refl (htarget : o.target c r = none) (hself : (s.view p).self' o r = s.procs p)
    (hrun : o.starts = fun _ => false) : Frame s s p c o r :=
  .of_procs (fun _ => rfl) (fun _ => rfl) (fun _ => rfl) rfl rfl rfl htarget hself hrun

/-- An operation on the process's own `struct proc`. -/
theorem Frame.self (hs : s₁ = s.setProc p ((s.view p).self' o r)) (htarget : o.target c r = none)
    (hrun : o.starts = fun _ => false) : Frame s s₁ p c o r := by
  subst hs
  refine ⟨fun _ => rfl, fun _ => rfl, fun _ => rfl, rfl, fun q => ?_, fun q => ?_⟩
  · rw [htarget, if_neg nofun]
    exact update_apply _ _ _ _
  · simp only [hrun, false_eq_true, if_false]
    rfl

/-- An operation on the `struct proc` of another process. -/
theorem Frame.other {np : ProcSlot} {thread : ProcSlot → Call Int}
    (hs : s₁ = { s.setProc np (o.aim (s.procs np)) with thread }) (htarget : o.target c r = some np)
    (hself : (s.view p).self' o r = s.procs p)
    (hthread : ∀ q, thread q = if o.starts q then .ret 0 else s.thread q) : Frame s s₁ p c o r := by
  subst hs
  refine ⟨fun _ => rfl, fun _ => rfl, fun _ => rfl, rfl, fun q => ?_, hthread⟩
  rw [htarget, hself]
  show update s.procs np _ q = _
  rw [update_apply]
  simp only [Option.some.injEq, @eq_comm _ np q]
  split_ifs with hq hp
  · rw [hq]
  · rw [hp]
  · rfl

section

variable (h : s.exec p c o = .ok (s₁, r))

include h

theorem exec_frame : Frame s s₁ p c o r := by
  cases o <;> dsimp only [State.exec, State.fileclose, State.pipeclose, State.iget, State.dirent,
    State.useFile] at h
  case choose | ofile _ | takeFd _ | cwd | takeCwd =>
    cases h
    exact .refl rfl rfl rfl
  case clearFd _ | setCwd _ | zombie =>
    cases h
    exact .self rfl rfl rfl
  case freeproc _ | childFd _ _ _ | childCwd _ _ =>
    cases h
    exact .other rfl rfl rfl fun _ => rfl
  case fdalloc f =>
    split at h <;> cases h
    · exact .self rfl rfl rfl
    · exact .refl rfl rfl rfl
  case filealloc =>
    split at h <;> cases h
    · exact .of_procs nofun (fun _ => rfl) (fun _ => rfl) rfl rfl rfl rfl rfl rfl
    · exact .refl rfl rfl rfl
  case filedup f =>
    split_ifs at h
    cases h
    exact .of_procs nofun (fun _ => rfl) (fun _ => rfl) rfl rfl rfl rfl rfl rfl
  case fileclose f =>
    split_ifs at h <;> cases h
    · exact .of_procs nofun (fun _ => rfl) (fun _ => rfl) rfl rfl rfl rfl rfl rfl
    · exact .of_procs nofun (fun _ => rfl) (fun _ => rfl) rfl rfl rfl rfl rfl rfl
  case setInode _ _ _ _ _ | setPipe _ _ _ =>
    cases h
    exact .of_procs nofun (fun _ => rfl) (fun _ => rfl) rfl rfl rfl rfl rfl rfl
  case kalloc =>
    split_ifs at h <;> cases h
    · exact .of_procs (fun _ => rfl) (fun _ => rfl) nofun rfl rfl rfl rfl rfl rfl
    · exact .refl rfl rfl rfl
  case pipeclose pi w =>
    split_ifs at h
    cases h
    exact .of_procs (fun _ => rfl) (fun _ => rfl) nofun rfl rfl rfl rfl rfl rfl
  case iget dev inum =>
    split at h
    · cases h
      exact .of_procs (fun _ => rfl) nofun (fun _ => rfl) rfl rfl rfl rfl rfl rfl
    · split at h <;> cases h
      exact .of_procs (fun _ => rfl) nofun (fun _ => rfl) rfl rfl rfl rfl rfl rfl
  case idup k | put k =>
    split_ifs at h
    cases h
    exact .of_procs (fun _ => rfl) nofun (fun _ => rfl) rfl rfl rfl rfl rfl rfl
  case notInit | use _ =>
    split_ifs at h
    cases h
    exact .refl rfl rfl rfl
  case dirent dp =>
    split_ifs at h <;> cases h <;> exact .refl rfl rfl rfl
  case useFile f =>
    split at h
    · cases h
    all_goals
      split_ifs at h
      cases h
      exact .refl rfl rfl rfl
  case allocproc =>
    split_ifs at h <;> cases h
    · exact .other rfl rfl rfl fun _ => rfl
    · exact .refl rfl rfl rfl
  case reap =>
    split_ifs at h
    cases h
    exact .other rfl rfl rfl fun _ => rfl
  case setRunnable np =>
    cases h
    refine .other rfl rfl rfl fun q => ?_
    simp only [Op.starts, decide_eq_true_eq]
    exact update_apply _ _ _ _

/-- The counts after an operation. -/
theorem exec_refs (hdrops : ∀ t ∈ o.drops, 0 < s.refs t)
    (hlive : ∀ pi, (s.pipes pi).live = ((s.pipes pi).readopen || (s.pipes pi).writeopen))
    (t : Token) : s₁.refs t + o.drops.count t = s.refs t + (o.adds r).count t := by
  have hframe := exec_frame h
  cases o <;> dsimp only [State.exec, State.fileclose, State.pipeclose, State.iget] at h
  case filealloc =>
    split at h <;> cases h
    · rename_i f hf
      have hfree : (s.files f).ref = 0 := by simpa using List.find?_some hf
      refine refs_raise (t := .file f) (fun u => ?_) t
      rw [refs_setFile]
      simp only [refs, hfree]
    · rfl
  case filedup f =>
    split_ifs at h
    cases h
    exact refs_raise (s.refs_setFile f _) t
  case fileclose f =>
    have hpos : 0 < (s.files f).ref := hdrops (.file f) (mem_singleton_self _)
    split_ifs at h with hzero hmore
    · cases h
      exact refs_lower (t := .file f) (s.refs_setFile f _) hpos t
    · cases h
      have hlast : 0 = s.refs (.file f) - 1 := by
        simp only [refs]
        omega
      refine refs_lower (t := .file f) (fun u => ?_) hpos t
      rw [refs_setFile, ← hlast]
  case setInode f device k readable writable =>
    cases h
    refine s.refs_setFile_same ?_ t
    rfl
  case setPipe f0 f1 pi =>
    cases h
    show State.refs _ t = s.refs t
    rw [refs_setFile, refs_setFile]
    by_cases h1 : t = .file f1
    · rw [if_pos h1, h1]
      rfl
    · by_cases h0 : t = .file f0
      · rw [if_neg h1, if_pos h0, h0]
        rfl
      · rw [if_neg h1, if_neg h0]
  case kalloc =>
    split_ifs at h with hflag hl <;> cases h
    · have hclosed := hlive c.n
      rw [eq_false_of_ne_true hl] at hclosed
      obtain ⟨hread, hwrite⟩ := or_eq_false_iff.1 hclosed.symm
      exact refs_open hread hwrite t
    · rfl
  case pipeclose pi w =>
    have hpos := hdrops (.pipe pi w) (mem_singleton_self _)
    have hle := refs_pipe_le (s := s) pi w
    split_ifs at h
    cases h
    refine refs_lower (t := .pipe pi w) (fun u => ?_) hpos t
    rw [refs_pipeclose, show s.refs (.pipe pi w) - 1 = 0 by omega]
  case iget dev inum =>
    split at h
    · cases h
      exact refs_raise (s.refs_setInode _ _) t
    · split at h <;> cases h
      rename_i hf
      have hfree : (s.inodes r).ref = 0 := by simpa using List.find?_some hf
      refine refs_raise (t := .inode r) (fun u => ?_) t
      rw [show s.refs (.inode r) = 0 from hfree]
      exact s.refs_setInode r _ u
  case idup k =>
    split_ifs at h
    cases h
    exact refs_raise (s.refs_setInode k _) t
  case put k =>
    split_ifs at h with hzero
    cases h
    exact refs_lower (t := .inode k) (s.refs_setInode k _) (Nat.pos_of_ne_zero hzero) t
  all_goals exact refs_congr (hframe.files rfl) (hframe.inodes rfl) (hframe.pipes rfl) t

/-- The contents of the `struct file`s after an operation. -/
theorem exec_stored
    (hset : ∀ f device k x y, o = .setInode f device k x y → (s.files f).contents = .none)
    (hpipe : ∀ f0 f1 pi, o = .setPipe f0 f1 pi →
      f0 ≠ f1 ∧ (s.files f0).contents = .none ∧ (s.files f1).contents = .none) :
    s₁.stored + o.unstores r = s.stored + o.stores := by
  have hframe := exec_frame h
  cases o <;> dsimp only [State.exec, State.fileclose] at h
  case filealloc =>
    split at h <;> cases h
    · simp only [Op.unstores, Op.stores, add_zero]
      exact s.stored_setFile_same rfl
    · rfl
  case filedup f =>
    split_ifs at h
    cases h
    simp only [Op.unstores, Op.stores, add_zero]
    exact s.stored_setFile_same rfl
  case fileclose f =>
    split_ifs at h with hzero hmore
    · cases h
      simp only [Op.unstores, Op.stores, add_zero]
      exact s.stored_setFile_same rfl
    · cases h
      exact s.stored_setFile f _
  case setInode f device k readable writable =>
    cases h
    have hnone := hset f device k readable writable rfl
    simp only [Op.unstores, Op.stores, add_zero]
    cases device <;> exact s.stored_setFile_new _ hnone
  case setPipe f0 f1 pi =>
    cases h
    obtain ⟨hne, h0, h1⟩ := hpipe f0 f1 pi rfl
    have hpair : ({.pipe pi true, .pipe pi false} : Multiset Token) =
        {.pipe pi false} + {.pipe pi true} := cons_swap _ _ 0
    simp only [Op.unstores, Op.stores, add_zero, hpair]
    rw [stored_setFile_new, stored_setFile_new _ _ h0, add_assoc]
    · rfl
    · show (update s.files f0 _ f1).contents = .none
      rw [update_of_ne hne.symm, h1]
  all_goals exact congrArg (fun files => (∑ f, (files f).contents.tokens) + 0) (hframe.files rfl)

/-- The contents of one `struct file` after an operation. -/
theorem exec_contents (f : FileSlot) (hshared : o = .fileclose f → (s.files f).ref ≠ 1) :
    (s₁.files f).contents = (o.fills f).getD (s.files f).contents := by
  have hframe := exec_frame h
  have hsame {g : FileSlot} {x : File} (hx : x.contents = (s.files g).contents) :
      ((s.setFile g x).files f).contents = (s.files f).contents := by
    by_cases hf : f = g
    · subst hf
      simpa [setFile] using hx
    · simp [setFile, hf]
  cases o <;> dsimp only [State.exec, State.fileclose] at h
  case filealloc =>
    split at h <;> cases h
    · exact hsame rfl
    · rfl
  case filedup g =>
    split_ifs at h
    cases h
    exact hsame rfl
  case fileclose g =>
    split_ifs at h with hzero hmore
    · cases h
      exact hsame rfl
    · cases h
      have hne : f ≠ g := by
        rintro rfl
        exact hshared rfl (by omega)
      simp [setFile, hne, Op.fills]
  case setInode g device k readable writable =>
    cases h
    by_cases hf : f = g
    · subst hf
      cases device <;> simp [setFile, Op.fills, File.contents]
    · simp [setFile, Op.fills, hf]
  case setPipe f0 f1 pi =>
    cases h
    by_cases h1 : f = f1
    · subst h1
      simp [setFile, Op.fills, File.contents]
    · by_cases h0 : f = f0
      · subst h0
        simp [setFile, Op.fills, File.contents, h1]
      · simp [setFile, Op.fills, h0, h1]
  all_goals exact congrArg (fun files => (files f).contents) (hframe.files rfl)

/-- A `struct file` without references stays of type `FD_NONE`. -/
theorem exec_closed (hfills : ∀ f, o.fills f ≠ none → (s.files f).ref ≠ 0)
    (hclosed : ∀ f, (s.files f).ref = 0 → (s.files f).type = .none) (f : FileSlot)
    (hzero : (s₁.files f).ref = 0) : (s₁.files f).type = .none := by
  have hframe := exec_frame h
  have hset {g : FileSlot} {x : File} (hx : x.ref = 0 → x.type = .none)
      (h0 : ((s.setFile g x).files f).ref = 0) : ((s.setFile g x).files f).type = .none := by
    by_cases hf : f = g
    · subst hf
      simp only [setFile, update_self] at h0 ⊢
      exact hx h0
    · simp only [setFile, update_of_ne hf] at h0 ⊢
      exact hclosed f h0
  cases o <;> dsimp only [State.exec, State.fileclose] at h
  case filealloc =>
    split at h <;> cases h
    · exact hset nofun hzero
    · exact hclosed f hzero
  case filedup g =>
    split_ifs at h
    cases h
    exact hset nofun hzero
  case fileclose g =>
    split_ifs at h with hpos hmore
    · cases h
      exact hset (fun h0 => absurd h0 hmore.ne') hzero
    · cases h
      exact hset (fun _ => rfl) hzero
  case setInode g device k readable writable =>
    cases h
    exact hset (fun h0 => absurd h0 (hfills g (by simp [Op.fills]))) hzero
  case setPipe f0 f1 pi =>
    cases h
    have h1 := hfills f1 (by simp [Op.fills])
    by_cases hf1 : f = f1
    · subst hf1
      simp only [setFile, update_self] at hzero
      exact absurd hzero h1
    · by_cases hf0 : f = f0
      · subst hf0
        simp only [setFile, update_of_ne hf1, update_self] at hzero
        exact absurd hzero (hfills f (by simp [Op.fills, hf1]))
      · simp only [setFile, update_of_ne hf1, update_of_ne hf0] at hzero ⊢
        exact hclosed f hzero
  all_goals
    rw [hframe.files rfl] at hzero ⊢
    exact hclosed f hzero

/-- The page of a pipe is in use while an end is open. -/
theorem exec_live
    (hlive : ∀ pi, (s.pipes pi).live = ((s.pipes pi).readopen || (s.pipes pi).writeopen))
    (pi : Nat) : (s₁.pipes pi).live = ((s₁.pipes pi).readopen || (s₁.pipes pi).writeopen) := by
  have hframe := exec_frame h
  have hset {j : Nat} {x : Pipe} (hx : x.live = (x.readopen || x.writeopen)) :
      ((s.setPipe j x).pipes pi).live =
        (((s.setPipe j x).pipes pi).readopen || ((s.setPipe j x).pipes pi).writeopen) := by
    by_cases hj : pi = j
    · subst hj
      simpa only [setPipe, update_self] using hx
    · simpa only [setPipe, update_of_ne hj] using hlive pi
  cases o <;> dsimp only [State.exec, State.pipeclose] at h
  case kalloc =>
    split_ifs at h <;> cases h
    · exact hset rfl
    · exact hlive pi
  case pipeclose j w =>
    split_ifs at h
    cases h
    exact hset rfl
  all_goals
    rw [hframe.pipes rfl]
    exact hlive pi

/-- The replies that the tables give. -/
theorem exec_replies (hexact : ∀ t ∈ (s.view p).owned, 0 < s.refs t) (ho : o ≠ .zombie) :
    (s.view p).replies o r := by
  cases o with
  | ofile fd | takeFd fd | cwd | takeCwd =>
    cases h
    rfl
  | fdalloc f =>
    simp only [State.exec] at h
    split at h <;> cases h
    · rename_i fd hfd
      rintro fd' ⟨⟩
      have hfree : (s.procs p).ofile fd = none := by simpa using List.find?_some hfd
      exact hfree
    · exact nofun
  | filealloc =>
    simp only [State.exec] at h
    split at h <;> cases h
    · rename_i f hf
      rintro f' ⟨⟩ hmem
      have hfree : (s.files f).ref = 0 := by simpa using List.find?_some hf
      exact absurd hfree (hexact _ hmem).ne'
    · exact nofun
  | zombie => exact absurd rfl ho
  | _ => exact trivial

end

end Exec

end FogOS.Refs
