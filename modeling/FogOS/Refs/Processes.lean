import FogOS.Refs.Files

/-!
# `pipe`, `fork` and `exit` keep to the rules
-/

namespace FogOS.Refs

open Function Library Dialogue Protocol View List Multiset

variable {α : Type} {v : View} {R : α → View → Prop} {g : Unit → Call α}

/-- Both ends of the pipe go to the two files. -/
theorem safe_setPipe {f0 f1 : FileSlot} {pi : Nat}
    (h0 : v.record.known f0 = some .none) (h1 : v.record.known f1 = some .none) (hne : f0 ≠ f1)
    (h : counting.Safe (g ()) R ((v.know f0 (.pipe pi false)).know f1 (.pipe pi true))) :
    counting.Safe (perform (Op.setPipe f0 f1 pi) >>= g) R
      ((v.plus (.pipe pi false)).plus (.pipe pi true)) := by
  refine safe_act ⟨h0, h1, hne, ?_, mem_cons_self _ _⟩ fun _ _ => ?_
  · exact mem_cons_of_mem (mem_cons_self _ _)
  · have hrecord : ((v.plus (.pipe pi false)).plus (.pipe pi true)).record' (.setPipe f0 f1 pi) () =
        ((v.know f0 (.pipe pi false)).know f1 (.pipe pi true)).record := by
      simp only [record', plus, hold, know, cons_swap (Token.pipe pi true),
        Multiset.erase_cons_head]
    show counting.Safe (g ()) R
      ⟨_, ((v.plus (.pipe pi false)).plus (.pipe pi true)).record' (.setPipe f0 f1 pi) (), _⟩
    rw [hrecord]
    exact h

/-- `pipealloc` returns with a reference to each of its files, or with none. -/
theorem safe_pipealloc {g : Option (FileSlot × FileSlot) → Call α} (h : v.Outside)
    (hnone : ∀ w : View, w.Outside → counting.Safe (g none) R w)
    (hsome : ∀ (f0 f1 : FileSlot) (w : View), w.Outside →
      counting.Safe (g (some (f0, f1))) R ((w.plus (.file f0)).plus (.file f1))) :
    counting.Safe (pipealloc >>= g) R v := by
  refine safe_bind.2 (safe_filealloc (hnone v h) fun f0 _ => ?_)
  refine safe_filealloc (safe_bind.1 ?_) fun f1 hf1 => ?_
  · exact safe_bind.2 (safe_fileclose (hnone _ h.know.forget))
  · have hne : f0 ≠ f1 := by
      rintro rfl
      exact hf1 (mem_owned_plus _ _)
    refine safe_act (o := Op.kalloc) trivial fun r _ => ?_
    cases r with
    | none =>
      show counting.Safe _ _ ((((v.know f0 .none).know f1 .none).plus (.file f0)).plus (.file f1))
      rw [plus_comm]
      refine safe_fileclose (v := ((v.know f0 .none).know f1 .none).plus (.file f1)) ?_
      exact safe_fileclose (v := ((v.know f0 .none).know f1 .none).forget f0)
        (hnone _ h.know.know.forget.forget)
    | some pi =>
      refine safe_setPipe
        (v := (((v.know f0 .none).know f1 .none).plus (.file f0)).plus (.file f1)) ?_ ?_ hne ?_
      · exact (update_of_ne hne _ _).trans (update_self f0 _ _)
      · exact update_self f1 _ _
      · exact hsome f0 f1 ((((v.know f0 .none).know f1 .none).know f0 (.pipe pi false)).know f1
          (.pipe pi true)) h.know.know.know.know

theorem safe_closeBoth (h : v.Outside) (rf wf : FileSlot) :
    counting.Safe (closeBoth rf wf) (fun _ w => w.Outside) ((v.plus (.file wf)).plus (.file rf)) :=
  safe_fileclose (v := v.plus (.file wf)) (safe_fileclose (v := v.forget rf) h.forget.forget)

theorem safe_sysPipe (h : v.Outside) : counting.Safe sysPipe (fun _ w => w.Outside) v := by
  refine safe_pipealloc h (fun w hw => hw) fun rf wf w hw => ?_
  rw [plus_comm]
  refine safe_fdalloc (v := w.plus (.file wf)) hw.bare (safe_closeBoth hw rf wf) fun fd0 _ => ?_
  refine safe_fdalloc (v := w.setFd fd0 (some rf)) hw.bare ?_ fun fd1 hfd1 => safe_choose fun b => ?_
  · refine safe_clearFd (f := rf) hw.bare (update_self fd0 _ _) ?_
    exact safe_closeBoth (v := (w.setFd fd0 (some rf)).setFd fd0 none) hw.setFd.setFd rf wf
  · have hne : fd0 ≠ fd1 := by
      rintro rfl
      have hself : (w.setFd fd0 (some rf)).self.ofile fd0 = some rf :=
        update_self fd0 _ w.self.ofile
      rw [hfd1] at hself
      cases hself
    cases b with
    | true => exact hw.setFd.setFd
    | false =>
      refine safe_clearFd (f := rf) hw.bare ((update_of_ne hne _ _).trans (update_self fd0 _ _)) ?_
      refine safe_clearFd (f := wf) hw.bare
        ((update_of_ne hne.symm _ _).trans (update_self fd1 _ _)) ?_
      rw [show ∀ x : View, (x.plus (.file rf)).setFd fd1 none = (x.setFd fd1 none).plus (.file rf)
        from fun _ => rfl, plus_comm]
      exact safe_closeBoth (hw.setFd.setFd.setFd.setFd) rf wf

/-- The child gets one reference for each descriptor that it gets. -/
theorem safe_forkFiles {np : ProcSlot} {fds : List Fd} (hnodup : fds.Nodup) (w : View)
    (hchild : w.record.child = some np) (hbare : w.record.bare = none)
    (hknown : ∀ f, w.record.known f = none) (hkid : ∀ fd ∈ fds, w.kid.ofile fd = none)
    (h : ∀ ofile, counting.Safe (g ()) R { w with kid := { w.kid with ofile := ofile } }) :
    counting.Safe (forkFiles np fds >>= g) R w := by
  induction fds generalizing w with
  | nil => exact h w.kid.ofile
  | cons fd fds ih =>
    refine safe_bind.2 (safe_act (o := Op.ofile fd) trivial fun r hr => safe_bind.1 ?_)
    have hrest : ∀ fd' ∈ fds, fd' ≠ fd := by
      rintro fd' hmem rfl
      exact (nodup_cons.1 hnodup).1 hmem
    cases r with
    | none =>
      exact ih (nodup_cons.1 hnodup).2 w hchild hbare hknown
        (fun fd' hmem => hkid fd' (mem_cons_of_mem _ hmem)) h
    | some f =>
      refine safe_bind.2 (safe_act (o := Op.filedup f) ⟨?_, ?_⟩ fun _ _ => ?_)
      · exact mem_owned_of_fd hr.symm fun hx => absurd (hbare.symm.trans hx) nofun
      · exact fun hx => absurd ((hknown f).symm.trans hx) nofun
      · have hdup : w.record' (.filedup f) () = w.hold (.file f ::ₘ w.record.held) := by
          simp only [record', hbare, Option.any_none, Bool.false_eq_true, if_false]
        show counting.Safe _ _ ⟨_, w.record' (.filedup f) (), _⟩
        rw [hdup]
        refine safe_act (o := Op.childFd np fd f)
          ⟨hchild, hkid fd mem_cons_self, mem_cons_self _ _, hknown f⟩
          fun _ _ => ?_
        refine safe_bind.1 ?_
        have hstore : (w.plus (.file f)).record' (.childFd np fd f) () = w.record := by
          simp only [record', plus, hold, Multiset.erase_cons_head]
        show counting.Safe _ _ ⟨_, (w.plus (.file f)).record' (.childFd np fd f) (), _⟩
        rw [hstore]
        refine ih (nodup_cons.1 hnodup).2 _ hchild hbare hknown (fun fd' hmem => ?_) h
        exact (update_of_ne (hrest fd' hmem) _ _).trans (hkid fd' (mem_cons_of_mem _ hmem))

theorem safe_fork (h : v.Outside) (hknown : ∀ f, v.record.known f = none) :
    counting.Safe fork (fun _ w => w.Outside) v := by
  refine safe_act (o := Op.allocproc) h.child fun r _ => ?_
  cases r with
  | none => exact h
  | some np =>
    refine safe_choose fun b => ?_
    cases b with
    | true =>
      exact safe_act (o := Op.freeproc np) ⟨rfl, fun _ => rfl, rfl⟩ fun _ _ =>
        ⟨h.held, h.bare, h.bareCwd, rfl, h.cwd⟩
    | false =>
      refine safe_forkFiles (nodup_finRange nofile)
        { v with record := { v.record with child := some np }
                 kid := ⟨.used, fun _ => none, none⟩ } rfl h.bare hknown (fun _ _ => rfl)
        fun ofile => ?_
      refine safe_act (o := Op.cwd) trivial fun r hr => ?_
      cases r with
      | none => exact absurd hr.symm h.cwd
      | some k =>
        refine safe_idup (mem_owned_of_cwd hr.symm h.bareCwd) ?_
        refine safe_act (o := Op.childCwd np k) ⟨rfl, rfl, mem_cons_self _ _⟩ fun _ _ => ?_
        refine safe_act (o := Op.setRunnable np) ⟨rfl, nofun⟩ fun _ _ => ?_
        refine ⟨?_, h.bare, h.bareCwd, rfl, h.cwd⟩
        show (Token.inode k ::ₘ v.record.held).erase (.inode k) = 0
        rw [Multiset.erase_cons_head, h.held]

/-- `exit` has closed a descriptor when it clears it. -/
theorem safe_exitFiles {fds : List Fd} (w : View) (h : w.Outside) (hkind : w.record.kind = .exit)
    (hg : ∀ u : View, u.Outside → u.record.kind = .exit →
      (∀ fd, u.self.ofile fd = if fd ∈ fds then none else w.self.ofile fd) →
      counting.Safe (g ()) R u) :
    counting.Safe (exitFiles fds >>= g) R w := by
  induction fds generalizing w with
  | nil => exact hg w h hkind fun fd => by simp
  | cons fd fds ih =>
    refine safe_bind.2 (safe_act (o := Op.takeFd fd) ⟨h.bare, hkind⟩ fun r hr =>
      safe_bind.1 ?_)
    cases r with
    | none =>
      refine ih w h hkind fun u hu hk hofile => hg u hu hk fun fd' => ?_
      rw [hofile]
      by_cases hfd : fd' = fd
      · subst hfd
        simp [← show none = w.self.ofile fd' from hr]
      · simp [hfd]
    | some f =>
      refine safe_bind.2 (safe_fileclose (f := f)
        (v := { w with record := { w.record with bare := some fd } }) (safe_bind.1 ?_))
      refine safe_bind.2 (safe_act (o := Op.clearFd fd) trivial fun _ _ => safe_bind.1 ?_)
      have hrecord : View.record' (({ w with record := { w.record with bare := some fd } } :
          View).forget f) (.clearFd fd) () = (w.forget f).record := by
        simp only [record', forget, if_true]
        rw [← h.bare]
      show counting.Safe _ _ ⟨_, View.record' (({ w with record :=
        { w.record with bare := some fd } } : View).forget f) (.clearFd fd) (), _⟩
      rw [hrecord]
      refine ih ((w.forget f).setFd fd none) h.forget.setFd hkind fun u hu hk hofile =>
        hg u hu hk fun fd' => ?_
      rw [hofile]
      by_cases hfd : fd' = fd
      · subst hfd
        simp [View.setFd]
      · simp [View.setFd, View.forget, hfd]

theorem safe_exit (h : v.Outside) (hkind : v.record.kind = .exit) :
    counting.Safe exit (fun _ w => w.Outside) v := by
  refine safe_act (o := Op.notInit) trivial fun _ _ => ?_
  refine safe_exitFiles v h hkind fun u hu hk hofile => ?_
  refine safe_act (o := Op.takeCwd) ⟨hu.bareCwd, Or.inl hk⟩ fun r hr => ?_
  cases r with
  | none => exact absurd hr.symm hu.cwd
  | some k =>
    refine safe_iput_seq (k := k) (v := { u with record := { u.record with bareCwd := true } }) ?_
    refine safe_act (o := Op.setCwd none) ⟨rfl, nofun⟩ fun _ _ => ?_
    refine safe_act (o := Op.zombie) ⟨fun fd => ?_, rfl, hu.held, hu.bare, rfl, hu.child⟩
      fun _ hr => hr.elim
    exact (hofile fd).trans (if_pos (mem_finRange fd))

theorem safe_wait (h : v.Outside) : counting.Safe wait (fun _ w => w.Outside) v := by
  refine safe_choose fun b => ?_
  cases b with
  | true => exact safe_act (o := Op.reap) trivial fun _ _ => h
  | false => exact h

/-- Every system call keeps to the rules. -/
theorem safe_body (c : Syscall) (h : v.Outside) (hkind : v.record.kind = c.kind)
    (hknown : ∀ f, v.record.known f = none) : counting.Safe c.body (fun _ w => w.Outside) v := by
  cases c with
  | dup n => exact safe_sysDup h hkind hknown n
  | read n => exact safe_sysUse h n
  | write n => exact safe_sysUse h n
  | fstat n => exact safe_sysUse h n
  | close n => exact safe_sysClose h n
  | link old new => exact safe_sysLink h old new
  | unlink path => exact safe_sysUnlink h path
  | «open» path omode => exact safe_sysOpen h path omode
  | mkdir path => exact safe_sysMake h path true
  | mknod path => exact safe_sysMake h path false
  | chdir path => exact safe_sysChdir h hkind path
  | exec path interpreters => exact safe_exec h path interpreters
  | pipe => exact safe_sysPipe h
  | fork => exact safe_fork h hknown
  | exit => exact safe_exit h hkind
  | wait => exact safe_wait h

end FogOS.Refs
