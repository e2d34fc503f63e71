import FogOS.Refs.Inodes

/-!
# The system calls keep to the rules

Each system call, on each of its paths, returns with one reference for each descriptor and one for
`cwd`, and with no reference of its own.
-/

namespace FogOS.Refs

open Function Library Dialogue Protocol View Multiset

namespace View

variable (v : View) (f : FileSlot) (fd : Fd)

/-- The call has forgotten what file `f` refers to. -/
def forget : View :=
  { v with record := { v.record with known := update v.record.known f none } }

/-- The call knows what file `f` refers to. -/
def know (c : Contents) : View :=
  { v with record := { v.record with known := update v.record.known f (some c) } }

/-- A descriptor has changed. -/
def setFd (r : Option FileSlot) : View :=
  { v with self := { v.self with ofile := update v.self.ofile fd r } }

variable {v f fd}

theorem Outside.forget (h : v.Outside) : (v.forget f).Outside :=
  ⟨h.held, h.bare, h.bareCwd, h.child, h.cwd⟩

theorem Outside.know {c : Contents} (h : v.Outside) : (v.know f c).Outside :=
  ⟨h.held, h.bare, h.bareCwd, h.child, h.cwd⟩

theorem Outside.setFd {r : Option FileSlot} (h : v.Outside) : (v.setFd fd r).Outside :=
  ⟨h.held, h.bare, h.bareCwd, h.child, h.cwd⟩

end View

variable {α : Type} {v : View} {R : α → View → Prop} {f : FileSlot} {ip : InodeSlot}

/-- The references of the last `struct file` go to the pipe or to the inode. -/
theorem safe_closed (ff : File) (v : View) : counting.Safe (closed ff) (fun _ w => w = v)
    { v with record := v.hold (ff.contents.tokens + v.record.held) } := by
  unfold closed
  cases ff.contents with
  | none => exact congrArg (fun H => ({ v with record := v.hold H } : View)) (zero_add _)
  | pipe pi writable =>
    exact ⟨mem_cons_self _ _, fun _ _ => v.hold_erase (.pipe pi writable)⟩
  | inode k =>
    exact safe_iput k v

variable {g : Unit → Call α}

theorem safe_fileclose (h : counting.Safe (g ()) R (v.forget f)) :
    counting.Safe (fileclose f >>= g) R (v.plus (.file f)) := by
  refine safe_bind.2 (safe_act (o := Op.fileclose f) (mem_cons_self _ _) fun r _ => ?_)
  cases r with
  | none =>
    have hrecord : (v.plus (.file f)).record' (.fileclose f) none = (v.forget f).record := by
      simp only [record', plus, hold, learn, forget, erase_cons_head]
    show counting.Safe (g ()) R ⟨_, (v.plus (.file f)).record' (.fileclose f) none, _⟩
    rw [hrecord]
    exact h
  | some ff =>
    have hrecord : (v.plus (.file f)).record' (.fileclose f) (some ff) =
        (v.forget f).hold (ff.contents.tokens + v.record.held) := by
      simp only [record', plus, hold, learn, forget, erase_cons_head]
    refine Safe.mono (Q := fun _ w => w = v.forget f) ?_ fun _ w hw => hw ▸ h
    show counting.Safe (closed ff) _ ⟨_, (v.plus (.file f)).record' (.fileclose f) (some ff), _⟩
    rw [hrecord]
    exact safe_closed ff (v.forget f)

theorem safe_argfd {g : Option (Fd × FileSlot) → Call α} {n : Int} (hnone : counting.Safe (g none) R v)
    (hsome : ∀ fd f, v.self.ofile fd = some f → counting.Safe (g (some (fd, f))) R v) :
    counting.Safe (argfd n >>= g) R v := by
  unfold argfd
  split_ifs with hn
  · refine safe_act (o := Op.ofile _) trivial fun r hr => ?_
    cases r with
    | none => exact hnone
    | some f => exact hsome _ f hr.symm
  · exact hnone

/-- A cleared descriptor leaves its reference to the call. -/
theorem safe_clearFd {fd : Fd} (hbare : v.record.bare = none) (hf : v.self.ofile fd = some f)
    (h : counting.Safe (g ()) R ((v.setFd fd none).plus (.file f))) :
    counting.Safe (clearFd fd >>= g) R v := by
  refine safe_act (o := Op.clearFd fd) trivial fun _ _ => ?_
  have hrecord : v.record' (.clearFd fd) () = v.hold (.file f ::ₘ v.record.held) := by
    simp only [record', hbare, hf]
    rfl
  show counting.Safe (g ()) R ⟨_, v.record' (.clearFd fd) (), _⟩
  rw [hrecord]
  exact h

/-- A descriptor takes over the reference of the call. -/
theorem safe_fdalloc {g : Option Fd → Call α} (hbare : v.record.bare = none)
    (hnone : counting.Safe (g none) R (v.plus (.file f)))
    (hsome : ∀ fd, v.self.ofile fd = none → counting.Safe (g (some fd)) R (v.setFd fd (some f))) :
    counting.Safe (fdalloc f >>= g) R (v.plus (.file f)) := by
  have hmem : Token.file f ∈ (v.plus (.file f)).record.held := mem_cons_self _ _
  refine safe_act (o := Op.fdalloc f) ⟨hbare, Or.inl hmem⟩ fun r hr => ?_
  cases r with
  | none => exact hnone
  | some fd =>
    have hrecord : (v.plus (.file f)).record' (.fdalloc f) (some fd) = v.record := by
      simp only [record', if_pos hmem]
      simp only [plus, hold, erase_cons_head]
    show counting.Safe (g (some fd)) R ⟨_, (v.plus (.file f)).record' (.fdalloc f) (some fd), _⟩
    rw [hrecord]
    exact hsome fd (hr fd rfl)

section

variable (h : v.Outside)

include h

theorem safe_sysDup (hkind : v.record.kind = .dup)
    (hknown : ∀ f, v.record.known f = none) (n : Int) :
    counting.Safe (sysDup n) (fun _ w => w.Outside) v := by
  refine safe_argfd h fun fd f hf => ?_
  refine safe_act (o := Op.fdalloc f) ⟨h.bare, Or.inr hkind⟩ fun r hr => ?_
  cases r with
  | none => exact h
  | some fd' =>
    have hfd' : v.self.ofile fd' = none := hr fd' rfl
    have hne : fd ≠ fd' := by
      rintro rfl
      rw [hf] at hfd'
      cases hfd'
    have hrecord : v.record' (.fdalloc f) (some fd') = { v.record with bare := some fd' } := by
      simp only [record', h.held, notMem_zero, if_false]
    show counting.Safe _ _ ⟨_, v.record' (.fdalloc f) (some fd'), _⟩
    rw [hrecord]
    refine safe_act (o := Op.filedup f) ⟨@mem_owned_of_fd _ fd _ ?_ ?_, ?_⟩ fun _ _ => ?_
    · exact (update_of_ne hne _ _).trans hf
    · exact fun hx => hne (Option.some.inj hx).symm
    · exact fun hx => absurd ((hknown f).symm.trans hx) nofun
    · have hany : (some fd').any (fun x =>
          decide (update v.self.ofile fd' (some f) x = some f)) = true := by
        simp
      refine ⟨?_, ?_, ?_, ?_, h.cwd⟩
      all_goals simp only [counting, record', self', hany, if_true]
      exacts [h.held, h.bareCwd, h.child]

theorem safe_sysUse (n : Int) : counting.Safe (sysUse n) (fun _ w => w.Outside) v := by
  refine safe_argfd h fun fd f hf => ?_
  refine safe_act (o := Op.useFile f) (mem_owned_of_fd hf (by rw [h.bare]; nofun)) fun _ _ => ?_
  exact safe_choose fun _ => h

theorem safe_sysClose (n : Int) : counting.Safe (sysClose n) (fun _ w => w.Outside) v :=
  safe_argfd h fun _ _ hf => safe_clearFd h.bare hf (safe_fileclose h.setFd.forget)

theorem safe_linkBad (ip : InodeSlot) :
    counting.Safe (linkBad ip) (fun _ w => w.Outside) (v.plus (.inode ip)) :=
  safe_use (mem_owned_plus _ _) (safe_iunlockput_seq h)

theorem safe_sysLink (old new : Path) :
    counting.Safe (sysLink old new) (fun _ w => w.Outside) v := by
  refine safe_namex h.bareCwd fun r => ?_
  cases r with
  | none => exact h
  | some ip =>
    have hip := v.mem_owned_plus (.inode ip)
    refine safe_use hip (safe_choose fun b => ?_)
    cases b with
    | true => exact safe_iunlockput_seq h
    | false =>
      refine safe_use hip (safe_namex h.bareCwd fun r => ?_)
      cases r with
      | none => exact safe_linkBad h ip
      | some dp =>
        have hdp := mem_owned_plus (v.plus (.inode ip)) (.inode dp)
        refine safe_use hdp (safe_choose fun b => ?_)
        cases b with
        | true => exact safe_iunlockput_seq (safe_linkBad h ip)
        | false =>
          refine safe_dirlink hdp fun b => ?_
          cases b with
          | true => exact safe_iunlockput_seq (safe_iput_seq h)
          | false => exact safe_iunlockput_seq (safe_linkBad h ip)

theorem safe_sysUnlink (path : Path) : counting.Safe (sysUnlink path) (fun _ w => w.Outside) v := by
  refine safe_namex h.bareCwd fun r => ?_
  cases r with
  | none => exact h
  | some dp =>
    have hdp := v.mem_owned_plus (.inode dp)
    refine safe_use hdp (safe_choose fun b => ?_)
    cases b with
    | true => exact safe_iunlockput_seq h
    | false =>
      refine safe_dirlookup hdp fun r => ?_
      cases r with
      | none => exact safe_iunlockput_seq h
      | some ip =>
        refine safe_use (mem_owned_plus _ _) (safe_choose fun b => ?_)
        cases b with
        | true => exact safe_iunlockput_seq (safe_iunlockput_seq h)
        | false =>
          refine safe_use (mem_owned_of_plus _ hdp) (safe_iunlockput_under ?_)
          exact safe_use (mem_owned_plus _ _) (safe_iunlockput_seq h)

omit h in
theorem safe_filealloc {g : Option FileSlot → Call α} (hnone : counting.Safe (g none) R v)
    (hsome : ∀ f, .file f ∉ v.owned →
      counting.Safe (g (some f)) R ((v.know f .none).plus (.file f))) :
    counting.Safe (filealloc >>= g) R v := by
  refine safe_act (o := Op.filealloc) trivial fun r hr => ?_
  cases r with
  | none => exact hnone
  | some f => exact hsome f (hr f rfl)

omit h in
/-- The reference of the call goes to the `struct file`. -/
theorem safe_setInode {device readable writable : Bool}
    (hknown : v.record.known f = some .none) (h : counting.Safe (g ()) R (v.know f (.inode ip))) :
    counting.Safe (perform (Op.setInode f device ip readable writable) >>= g) R
      (v.plus (.inode ip)) := by
  refine safe_act ⟨hknown, mem_cons_self _ _⟩ fun _ _ => ?_
  have hrecord : (v.plus (.inode ip)).record' (.setInode f device ip readable writable) () =
      (v.know f (.inode ip)).record := by
    simp only [record', plus, hold, learn, know, erase_cons_head]
  show counting.Safe (g ()) R
    ⟨_, (v.plus (.inode ip)).record' (.setInode f device ip readable writable) (), _⟩
  rw [hrecord]
  exact h

/-- `sys_open` with a locked inode. -/
theorem safe_openFile (omode : Nat) (ip : InodeSlot) :
    counting.Safe (openFile omode ip) (fun _ w => w.Outside) (v.plus (.inode ip)) := by
  refine safe_filealloc (safe_iunlockput_seq h) fun f _ => ?_
  refine safe_fdalloc (v := (v.know f .none).plus (.inode ip)) h.bare ?_ fun fd _ =>
    safe_choose fun device => ?_
  · exact safe_fileclose (safe_iunlockput_seq (v := (v.know f .none).forget f) h.know.forget)
  · refine safe_setInode (v := (v.know f .none).setFd fd (some f))
      (update_self f _ v.record.known) (safe_choose fun trunc => ?_)
    -- The inode is used through the reference of the file.
    have huse : ∀ {g : Unit → Call Int}, counting.Safe (g ()) (fun _ w => w.Outside)
          (((v.know f .none).setFd fd (some f)).know f (.inode ip)) →
        counting.Safe (use ip >>= g) (fun _ w => w.Outside)
          (((v.know f .none).setFd fd (some f)).know f (.inode ip)) := by
      intro g hg
      refine safe_act (o := Op.use ip) (Or.inr ⟨f, @mem_owned_of_fd _ fd _ ?_ ?_, ?_⟩) fun _ _ => hg
      · exact update_self fd (some f) v.self.ofile
      · exact fun hx => absurd (h.bare.symm.trans hx) nofun
      · exact update_self f _ _
    split_ifs
    · exact huse (huse h.know.setFd.know)
    · exact huse h.know.setFd.know

theorem safe_openInode (omode : Nat) (ip : InodeSlot) :
    counting.Safe (openInode omode ip) (fun _ w => w.Outside) (v.plus (.inode ip)) := by
  refine safe_choose fun b => ?_
  cases b with
  | true => exact safe_iunlockput_seq h
  | false => exact safe_openFile h omode ip

theorem safe_sysOpen (path : Path) (omode : Nat) :
    counting.Safe (sysOpen path omode) (fun _ w => w.Outside) v := by
  unfold sysOpen
  split_ifs
  · refine safe_create h.bareCwd fun r => ?_
    cases r with
    | none => exact h
    | some ip => exact safe_openInode h omode ip
  · refine safe_namex h.bareCwd fun r => ?_
    cases r with
    | none => exact h
    | some ip =>
      refine safe_use (mem_owned_plus _ _) (safe_choose fun b => ?_)
      split_ifs
      · exact safe_iunlockput_seq h
      · exact safe_openInode h omode ip

theorem safe_sysMake (path : Path) (dir : Bool) :
    counting.Safe (sysMake path dir) (fun _ w => w.Outside) v := by
  refine safe_create h.bareCwd fun r => ?_
  cases r with
  | none => exact h
  | some ip => exact safe_iunlockput_seq h

/-- Between `iput(p->cwd)` and the assignment, `cwd` has no reference. -/
theorem safe_sysChdir (hkind : v.record.kind = .chdir) (path : Path) :
    counting.Safe (sysChdir path) (fun _ w => w.Outside) v := by
  refine safe_namex h.bareCwd fun r => ?_
  cases r with
  | none => exact h
  | some ip =>
    have hip := v.mem_owned_plus (.inode ip)
    refine safe_use hip (safe_choose fun b => ?_)
    cases b with
    | true => exact safe_iunlockput_seq h
    | false =>
      refine safe_use hip (safe_act (o := Op.takeCwd) ⟨h.bareCwd, Or.inr hkind⟩ fun r hr => ?_)
      cases r with
      | none => exact absurd hr.symm h.cwd
      | some k =>
        refine safe_iput_seq (k := k) (v := { v.plus (.inode ip) with
            record := { (v.plus (.inode ip)).record with bareCwd := true } }) ?_
        refine safe_act (o := Op.setCwd (some ip)) ⟨rfl, fun k' hk' => ?_⟩ fun _ _ => ?_
        · cases hk'
          exact mem_cons_self _ _
        · refine ⟨?_, h.bare, rfl, h.child, nofun⟩
          show (Token.inode ip ::ₘ v.record.held).erase (.inode ip) = 0
          rw [erase_cons_head, h.held]

theorem safe_exec (path : Path) (interpreters : List Path) :
    counting.Safe (exec path interpreters) (fun _ w => w.Outside) v := by
  induction interpreters generalizing path with
  | nil =>
    unfold exec
    refine safe_namex h.bareCwd fun r => ?_
    cases r with
    | none => exact h
    | some ip =>
      refine safe_use (mem_owned_plus _ _) (safe_choose fun b => ?_)
      cases b with
      | true => exact safe_iunlockput_seq h
      | false => exact safe_iunlockput_seq (safe_choose fun _ => h)
  | cons interpreter rest ih =>
    unfold exec
    refine safe_namex h.bareCwd fun r => ?_
    cases r with
    | none => exact h
    | some ip => exact safe_use (mem_owned_plus _ _) (safe_iunlockput_seq (ih interpreter))

end

end FogOS.Refs
