import FogOS.Refs.Tables

/-!
# What an operation does to the processes

The invariant of the reference counts, and the part of the state that belongs to each process after
an operation: it changes for the process itself as the rules say, and for at most one other process,
which runs no call.
-/

namespace FogOS.Refs

open Function Library Dialogue Protocol Multiset Option View Op

/-- A descriptor is without a reference only in `dup` and `exit`, `cwd` only in `exit` and
`chdir`. -/
structure Rec.Window (x : Rec) : Prop where
  bare : x.bare ≠ none → x.kind = .dup ∨ x.kind = .exit
  bareCwd : x.bareCwd = true → x.kind = .exit ∨ x.kind = .chdir

namespace State

/-- The references of all processes and of all open files. -/
def total (s : State) : Multiset Token := (∑ q, (s.view q).owned) + s.stored

structure Inv (s : State) : Prop where
  exact : ∀ t, s.refs t = s.total.count t
  closed : ∀ f, (s.files f).ref = 0 → (s.files f).type = .none
  live : ∀ pi, (s.pipes pi).live = ((s.pipes pi).readopen || (s.pipes pi).writeopen)
  gone : ∀ q, (s.procs q).state = .unused ∨ (s.procs q).state = .zombie →
    (∀ fd, (s.procs q).ofile fd = none) ∧ (s.procs q).cwd = none
  quiet : ∀ q, (s.procs q).state ≠ .runnable → s.records q = .empty
  child : ∀ q np, (s.records q).child = some np → (s.procs np).state = .used
  apart : ∀ q q' np, (s.records q).child = some np → (s.records q').child = some np → q = q'
  known : ∀ q f x, (s.records q).known f = some x → .file f ∈ (s.view q).owned ∧
    (s.files f).contents = x ∧ (x = .none → (s.files f).ref = 1)
  window : ∀ q, (s.records q).Window
  safe : ∀ q, (s.procs q).state = .runnable →
    counting.Safe (s.thread q) (fun _ w => w.Outside) (s.view q)

variable {s s₁ : State} {p q : ProcSlot} {c : Choice} {o : Op} {r : o.Reply}
  {k : o.Reply → Call Int} {t : Token} {f : FileSlot}

theorem owned_le_total (q : ProcSlot) : (s.view q).owned ≤ s.total :=
  (Finset.single_le_sum (fun _ _ => Multiset.zero_le _) (Finset.mem_univ q)).trans
    (Multiset.le_add_right _ _)

theorem Inv.pos_of_mem (hi : Inv s) (ht : t ∈ (s.view q).owned) : 0 < s.refs t := by
  rw [hi.exact]
  exact count_pos.2 (mem_of_le (owned_le_total q) ht)

/-- Two processes have two references. -/
theorem Inv.eq_of_refs_one (hi : Inv s) (hp : t ∈ (s.view p).owned) (hq : t ∈ (s.view q).owned)
    (hone : s.refs t = 1) : q = p := by
  by_contra hne
  have hpair : (s.view p).owned + (s.view q).owned ≤ s.total := by
    rw [← Finset.sum_pair (f := fun x => (s.view x).owned) (Ne.symm hne)]
    exact (Finset.sum_le_sum_of_subset (Finset.subset_univ _)).trans (Multiset.le_add_right _ _)
  have hcount := count_le_of_le t hpair
  rw [count_add, ← hi.exact, hone] at hcount
  have := count_pos.2 hp
  have := count_pos.2 hq
  omega

/-- The state after an operation of `p`. -/
def after (s s₁ : State) (p : ProcSlot) (o : Op) (r : o.Reply) (k : o.Reply → Call Int) : State :=
  (s₁.setRecord p ((s.view p).record' o r)).setThread p (k r)

/-- What an operation of `p` starts from. -/
structure Goes (s s₁ : State) (p : ProcSlot) (c : Choice) (o : Op) (r : o.Reply) : Prop where
  inv : Inv s
  runnable : (s.procs p).state = .runnable
  allowed : (s.view p).allowed o
  exec : s.exec p c o = .ok (s₁, r)

end State

namespace View

variable {v : View} {o : Op} {r : o.Reply} {f : FileSlot}

/-- What a call drops it has. -/
theorem mem_owned_of_drops {t : Token} (h : v.allowed o) (ht : t ∈ o.drops) : t ∈ v.owned := by
  cases o with
  | fileclose f =>
    obtain rfl := mem_singleton.1 ht
    exact mem_owned_of_held h
  | pipeclose pi w =>
    obtain rfl := mem_singleton.1 ht
    exact mem_owned_of_held h
  | put k =>
    obtain rfl := mem_singleton.1 ht
    exact mem_owned_of_held h
  | _ => exact absurd ht (notMem_zero t)

/-- A call fills only a `struct file` that it has allocated. -/
theorem known_of_fills (h : v.allowed o) (hf : o.fills f ≠ none) :
    v.record.known f = some .none := by
  cases o with
  | setInode g device k readable writable =>
    by_cases hg : f = g
    · rw [hg]
      exact h.1
    · exact absurd (if_neg hg) hf
  | setPipe f0 f1 pi =>
    by_cases h1 : f = f1
    · rw [h1]
      exact h.2.1
    · by_cases h0 : f = f0
      · rw [h0]
        exact h.1
      · exact absurd ((if_neg h1).trans (if_neg h0)) hf
  | _ => exact absurd rfl hf

/-- The child that the call makes, after an operation. -/
theorem child_next : (v.record' o r).child =
    match o, r with
    | .allocproc, some np => some np
    | .freeproc _, _ | .setRunnable _, _ | .zombie, _ => none
    | _, _ => v.record.child := by
  cases o with
  | takeFd fd | filealloc | fileclose f | kalloc | takeCwd | allocproc => cases r <;> rfl
  | setCwd x => cases x <;> rfl
  | clearFd fd =>
    simp only [record']
    split_ifs
    · rfl
    · split <;> rfl
  | fdalloc f =>
    simp only [record']
    cases r with
    | none => rfl
    | some fd =>
      split_ifs <;> rfl
  | filedup f =>
    simp only [record']
    split_ifs <;> rfl
  | _ => rfl

/-- What the call knows of a `struct file`, after an operation. -/
theorem known_next {x : Contents} (h : (v.record' o r).known f = some x) :
    o.fills f = some x ∨ (o.fills f = none ∧ x = .none ∧ .file f ∈ o.adds r ∧ o = .filealloc) ∨
      (o.fills f = none ∧ v.record.known f = some x ∧ o ≠ .fileclose f) := by
  have hsame (hfills : o.fills f = none) (hknown : (v.record' o r).known = v.record.known)
      (hclose : o ≠ .fileclose f) :
      o.fills f = some x ∨ (o.fills f = none ∧ x = .none ∧ .file f ∈ o.adds r ∧ o = .filealloc) ∨
        (o.fills f = none ∧ v.record.known f = some x ∧ o ≠ .fileclose f) := by
    rw [hknown] at h
    exact .inr (.inr ⟨hfills, h, hclose⟩)
  cases o with
  | setInode g device k readable writable =>
    by_cases hf : f = g
    · subst hf
      simp only [record', learn, update_self] at h
      exact .inl ((if_pos rfl).trans h)
    · simp only [record', learn, update_of_ne hf] at h
      exact .inr (.inr ⟨if_neg hf, h, by simp⟩)
  | setPipe f0 f1 pi =>
    by_cases h1 : f = f1
    · subst h1
      simp only [record', update_self] at h
      exact .inl ((if_pos rfl).trans h)
    · by_cases h0 : f = f0
      · subst h0
        simp only [record', update_of_ne h1, update_self] at h
        exact .inl ((if_neg h1).trans ((if_pos rfl).trans h))
      · simp only [record', update_of_ne h1, update_of_ne h0] at h
        exact .inr (.inr ⟨(if_neg h1).trans (if_neg h0), h, by simp⟩)
  | filealloc =>
    cases r with
    | none => exact hsame rfl rfl (by simp)
    | some g =>
      by_cases hf : f = g
      · subst hf
        simp only [record', learn, update_self, some.injEq] at h
        exact .inr (.inl ⟨rfl, h.symm, mem_singleton_self _, rfl⟩)
      · simp only [record', learn, update_of_ne hf] at h
        exact .inr (.inr ⟨rfl, h, by simp⟩)
  | fileclose g =>
    have hforget : (v.record' (.fileclose g) r).known = update v.record.known g none := by
      cases r <;> rfl
    rw [hforget] at h
    by_cases hf : f = g
    · rw [hf, update_self] at h
      cases h
    · rw [update_of_ne hf] at h
      exact .inr (.inr ⟨rfl, h, fun hx => hf (fileclose.inj hx).symm⟩)
  | zombie => cases h
  | takeFd fd | kalloc | takeCwd | allocproc =>
    refine hsame rfl ?_ (by simp)
    cases r <;> rfl
  | setCwd y =>
    refine hsame rfl ?_ (by simp)
    cases y <;> rfl
  | clearFd fd =>
    refine hsame rfl ?_ (by simp)
    simp only [record']
    split_ifs
    · rfl
    · split <;> rfl
  | fdalloc g =>
    refine hsame rfl ?_ (by simp)
    simp only [record']
    cases r with
    | none => rfl
    | some fd =>
      split_ifs <;> rfl
  | filedup g =>
    refine hsame rfl ?_ (by simp)
    simp only [record']
    split_ifs <;> rfl
  | _ => exact hsame rfl rfl (by simp)

/-- An operation takes the reference of a descriptor or of `cwd` only in its call. -/
theorem window_next (h : v.allowed o) (hw : v.record.Window) : (v.record' o r).Window := by
  have hsame (hbare : (v.record' o r).bare = v.record.bare)
      (hcwd : (v.record' o r).bareCwd = v.record.bareCwd)
      (hkind : (v.record' o r).kind = v.record.kind) : (v.record' o r).Window := by
    constructor
    · rw [hbare, hkind]
      exact hw.bare
    · rw [hcwd, hkind]
      exact hw.bareCwd
  cases o with
  | takeFd fd =>
    cases r with
    | none => exact hsame rfl rfl rfl
    | some f => exact ⟨fun _ => .inr h.2, hw.bareCwd⟩
  | clearFd fd =>
    simp only [record']
    split_ifs
    · exact ⟨fun hx => absurd rfl hx, hw.bareCwd⟩
    · split
      · exact ⟨hw.bare, hw.bareCwd⟩
      · exact hw
  | fdalloc f =>
    cases r with
    | none => exact hsame rfl rfl rfl
    | some fd =>
      simp only [record']
      split_ifs with hheld
      · exact ⟨hw.bare, hw.bareCwd⟩
      · exact ⟨fun _ => .inl (h.2.resolve_left hheld), hw.bareCwd⟩
  | filedup f =>
    simp only [record']
    split_ifs
    · exact ⟨fun hx => absurd rfl hx, hw.bareCwd⟩
    · exact ⟨hw.bare, hw.bareCwd⟩
  | takeCwd =>
    cases r with
    | none => exact hsame rfl rfl rfl
    | some k => exact ⟨hw.bare, fun _ => h.2⟩
  | setCwd x => cases x <;> exact ⟨hw.bare, by rintro ⟨⟩⟩
  | zombie => exact ⟨fun hx => absurd rfl hx, by rintro ⟨⟩⟩
  | filealloc | fileclose f | kalloc | allocproc => cases r <;> exact hsame rfl rfl rfl
  | _ => exact hsame rfl rfl rfl

end View

namespace State.Goes

variable {s s₁ : State} {p q : ProcSlot} {c : Choice} {o : Op} {r : o.Reply}
  {k : o.Reply → Call Int} {np : ProcSlot}

section

variable (hg : Goes s s₁ p c o r)

include hg

/-- The other process that an operation changes runs no call, and no other call makes it. -/
theorem target_idle (ht : o.target c r = some np) :
    (s.procs np).state ≠ .runnable ∧ ∀ q, q ≠ p → (s.records q).child ≠ some np := by
  have hfree (hstate : (s.procs np).state = .unused ∨ (s.procs np).state = .zombie) :
      (s.procs np).state ≠ .runnable ∧ ∀ q, q ≠ p → (s.records q).child ≠ some np := by
    refine ⟨fun h => ?_, fun q _ h => ?_⟩
    · rcases hstate with h' | h' <;> exact absurd (h'.symm.trans h) nofun
    · have hused := hg.inv.child q np h
      rcases hstate with h' | h' <;> exact absurd (h'.symm.trans hused) nofun
  have hchild (h : (s.records p).child = some np) :
      (s.procs np).state ≠ .runnable ∧ ∀ q, q ≠ p → (s.records q).child ≠ some np :=
    ⟨fun h' => absurd ((hg.inv.child p np h).symm.trans h') nofun,
      fun q hq h' => hq (hg.inv.apart q p np h' h)⟩
  have hexec := hg.exec
  have hallowed := hg.allowed
  cases o with
  | allocproc =>
    simp only [State.exec] at hexec
    split_ifs at hexec with hflag hunused
    · cases hexec
      obtain rfl : c.q = np := some.inj ht
      exact hfree (.inl hunused)
    · cases hexec
      cases ht
  | reap =>
    simp only [State.exec] at hexec
    split_ifs at hexec with hzombie
    obtain rfl : c.q = np := some.inj ht
    exact hfree (.inr hzombie)
  | freeproc _ | childFd _ _ _ | childCwd _ _ | setRunnable _ =>
    cases ht
    exact hchild hallowed.1
  | _ => cases ht

theorem target_ne (ht : o.target c r = some np) : np ≠ p := by
  rintro rfl
  exact (hg.target_idle ht).1 hg.runnable

/-- The `struct proc` of the process itself. -/
theorem procs_self : (after s s₁ p o r k).procs p = (s.view p).self' o r := by
  refine ((exec_frame hg.exec).procs p).trans ?_
  rw [if_neg fun ht => hg.target_ne ht rfl, if_pos rfl]

theorem procs_other (hq : q ≠ p) :
    (after s s₁ p o r k).procs q =
      if o.target c r = some q then o.aim (s.procs q) else s.procs q := by
  refine ((exec_frame hg.exec).procs q).trans ?_
  rw [if_neg hq]

omit hg in
theorem records_self : (after s s₁ p o r k).records p = (s.view p).record' o r :=
  update_self _ _ _

theorem records_other (hq : q ≠ p) : (after s s₁ p o r k).records q = s.records q :=
  (update_of_ne hq _ _).trans (congrFun (exec_frame hg.exec).records q)

/-- What another process has to itself is unchanged, unless the operation is on that process. -/
theorem view_other (hq : q ≠ p) (ht : o.target c r ≠ some q) :
    (after s s₁ p o r k).view q = s.view q := by
  have hself := hg.procs_other (k := k) hq
  rw [if_neg ht] at hself
  simp only [view, hself, hg.records_other hq]
  congr 1
  cases hchild : (s.records q).child with
  | none => rfl
  | some np =>
    have hne : np ≠ p := by
      rintro rfl
      exact absurd ((hg.inv.child q np hchild).symm.trans hg.runnable) nofun
    refine (hg.procs_other hne).trans (if_neg fun htarget => ?_)
    exact (hg.target_idle htarget).2 q hq hchild

/-- The process on which the operation is. -/
theorem view_target (ht : o.target c r = some np) :
    (after s s₁ p o r k).view np = ⟨o.aim (s.procs np), .empty, .zero⟩ ∧
      s.view np = ⟨s.procs np, .empty, .zero⟩ := by
  have hempty := hg.inv.quiet np (hg.target_idle ht).1
  have hself := hg.procs_other (k := k) (hg.target_ne ht)
  rw [if_pos ht] at hself
  simp only [view, hself, hg.records_other (hg.target_ne ht), hempty]
  exact ⟨rfl, rfl⟩

/-- The `struct proc` of the child that the call makes. -/
theorem kid_next (ho : o ≠ .zombie) : ((after s s₁ p o r k).view p).kid = (s.view p).kid' o r := by
  have hkid (child : Option ProcSlot) (h : ((s.view p).record' o r).child = child) :
      ((after s s₁ p o r k).view p).kid = (after s s₁ p o r k).kidOf child := by
    have hrecord : (after s s₁ p o r k).records p = (s.view p).record' o r := records_self
    rw [← h, ← hrecord]
    rfl
  have hused {np : ProcSlot} (h : (s.records p).child = some np) : np ≠ p := by
    rintro rfl
    exact absurd ((hg.inv.child np np h).symm.trans hg.runnable) (by simp)
  have hsame (h : ((s.view p).record' o r).child = (s.records p).child)
      (ht : ∀ np, (s.records p).child = some np → o.target c r ≠ some np) :
      ((after s s₁ p o r k).view p).kid = (s.view p).kid := by
    rw [hkid _ h, view]
    cases hchild : (s.records p).child with
    | none => rfl
    | some np => exact (hg.procs_other (hused hchild)).trans (if_neg (ht np hchild))
  have hchild := child_next (v := s.view p) (o := o) (r := r)
  have hallowed := hg.allowed
  cases o with
  | zombie => exact absurd rfl ho
  | allocproc =>
    cases r with
    | none => exact hsame hchild fun _ _ => by rintro ⟨⟩
    | some np =>
      have hexec := hg.exec
      simp only [State.exec] at hexec
      split_ifs at hexec with hflag hunused <;> cases hexec
      obtain ⟨hofile, hcwd⟩ := hg.inv.gone c.q (.inl hunused)
      rw [hkid _ hchild]
      refine (hg.procs_other (hg.target_ne rfl)).trans ((if_pos rfl).trans ?_)
      simp only [aim, kid', hcwd, funext hofile]
  | freeproc np | setRunnable np => exact hkid _ hchild
  | childFd np fd f =>
    rw [hkid _ (hchild.trans hallowed.1)]
    refine (hg.procs_other (hused hallowed.1)).trans ((if_pos rfl).trans ?_)
    have hv : (s.view p).kid = s.procs np := congrArg s.kidOf hallowed.1
    rw [kid', hv, aim]
  | childCwd np i =>
    rw [hkid _ (hchild.trans hallowed.1)]
    refine (hg.procs_other (hused hallowed.1)).trans ((if_pos rfl).trans ?_)
    have hv : (s.view p).kid = s.procs np := congrArg s.kidOf hallowed.1
    rw [kid', hv, aim]
  | reap =>
    refine hsame hchild fun np h ht => ?_
    have hexec := hg.exec
    simp only [State.exec] at hexec
    split_ifs at hexec with hzombie
    obtain rfl : c.q = np := some.inj ht
    exact absurd ((hg.inv.child p c.q h).symm.trans hzombie) (by simp)
  | _ => exact hsame hchild fun _ _ => by rintro ⟨⟩

theorem view_self (ho : o ≠ .zombie) :
    (after s s₁ p o r k).view p = counting.next (s.view p) o r := by
  have hkid := hg.kid_next (k := k) ho
  have hprocs := hg.procs_self (k := k)
  have hrecords : (after s s₁ p o r k).records p = _ := records_self
  simp only [counting, ← hkid, ← hprocs, ← hrecords]
  rfl

/-- The references of the process. -/
theorem owned_self :
    ((after s s₁ p o r k).view p).owned + (o.drops + o.stores + o.hands) =
      (s.view p).owned + (o.adds r + o.unstores r) := by
  by_cases ho : o = .zombie
  · subst ho
    obtain ⟨hofile, hcwd, hheld, hbare, hbareCwd, -⟩ := hg.allowed
    have hprocs := hg.procs_self (k := k)
    have hrecords : (after s s₁ p .zombie r k).records p = _ := records_self
    simp only [owned, drops, stores, hands, adds, unstores, add_zero, hheld,
      hbare, hbareCwd]
    simp only [view, hprocs, hrecords, self', record', Rec.empty]
  · rw [hg.view_self ho]
    exact owned_next hg.allowed (exec_replies hg.exec (fun t ht => hg.inv.pos_of_mem ht) ho)

/-- The references of the process on which the operation is. -/
theorem owned_target (ht : o.target c r = some np) :
    ((after s s₁ p o r k).view np).owned = (s.view np).owned + o.hands := by
  obtain ⟨hafter, hbefore⟩ := hg.view_target (k := k) ht
  rw [hafter, hbefore]
  have hallowed := hg.allowed
  cases o with
  | childFd n fd f =>
    cases ht
    have hkid : (s.view p).kid = s.procs np := congrArg s.kidOf hallowed.1
    have hempty : (s.procs np).ofile fd = none := hkid ▸ hallowed.2.1
    have hfd := fdTokens_update (s.procs np).ofile none fd (some f) nofun
    simp only [hempty, fileTokens, add_zero] at hfd
    simp only [owned, aim, Rec.empty, hands, hfd]
    abel
  | childCwd n i =>
    cases ht
    have hkid : (s.view p).kid = s.procs np := congrArg s.kidOf hallowed.1
    have hempty : (s.procs np).cwd = none := hkid ▸ hallowed.2.1
    simp only [owned, aim, Rec.empty, hands, hempty, cwdTokens, inodeTokens,
      Bool.false_eq_true, if_false, add_zero]
  | allocproc | freeproc _ | reap | setRunnable _ => exact (add_zero _).symm
  | _ => cases ht

end

end State.Goes

end FogOS.Refs
