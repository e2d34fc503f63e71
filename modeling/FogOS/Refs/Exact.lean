import FogOS.Refs.Views

/-!
# Reference counts are exact

Every count is the number of references that processes and open files have. The invariant is kept
by each operation of a system call that keeps to the rules, hence along every run.
-/

namespace FogOS.Refs

open Function Library Dialogue Protocol Multiset Option State Multiset View

namespace State.Goes

variable {s s₁ : State} {p q : ProcSlot} {c : Choice} {o : Op} {r : o.Reply}
  {k : o.Reply → Call Int} {np : ProcSlot}

section

variable (hg : Goes s s₁ p c o r)

include hg

/-- The references of all processes. -/
theorem sum_owned (t : Token) :
    (∑ q, ((after s s₁ p o r k).view q).owned).count t + (o.drops + o.stores).count t =
      (∑ q, (s.view q).owned).count t + (o.adds r + o.unstores r).count t := by
  have hself := congrArg (count t) (hg.owned_self (k := k))
  cases ht : o.target c r with
  | none =>
    have hsum := congrArg (count t) (sum_change (s := Finset.univ)
      (f := fun q => (s.view q).owned) (g := fun q => ((after s s₁ p o r k).view q).owned)
      (Finset.mem_univ p) fun q hq => by
        simp only [hg.view_other hq (ht ▸ nofun)])
    have hhands : o.hands = 0 := by
      cases o with
      | childFd _ _ _ | childCwd _ _ => cases ht
      | _ => rfl
    simp only [count_add, hhands, count_zero] at hself hsum ⊢
    omega
  | some np =>
    have hsum := congrArg (count t) (sum_change_pair (s := Finset.univ)
      (f := fun q => (s.view q).owned) (g := fun q => ((after s s₁ p o r k).view q).owned)
      (Finset.mem_univ p) (Finset.mem_univ np) (hg.target_ne ht).symm fun q hq hnp => by
        simp only [hg.view_other hq (ht ▸ fun h => hnp (some.inj h).symm)])
    have htarget := congrArg (count t) (hg.owned_target (k := k) ht)
    simp only [count_add] at hself hsum htarget ⊢
    omega

variable {f : FileSlot}

/-- A `struct file` that the operation fills is new. -/
theorem new_of_fills (hf : o.fills f ≠ none) :
    .file f ∈ (s.view p).owned ∧ (s.files f).contents = .none ∧ (s.files f).ref = 1 := by
  obtain ⟨hmem, hcontents, hone⟩ :=
    hg.inv.known p f .none (known_of_fills hg.allowed hf)
  exact ⟨hmem, hcontents, hone rfl⟩

theorem refs_after (t : Token) :
    (after s s₁ p o r k).refs t + o.drops.count t = s.refs t + (o.adds r).count t := by
  have hpos : ∀ u ∈ o.drops, 0 < s.refs u := fun u hu =>
    hg.inv.pos_of_mem (mem_owned_of_drops hg.allowed hu)
  exact exec_refs hg.exec hpos hg.inv.live t

theorem exact_after (t : Token) :
    (after s s₁ p o r k).refs t = (after s s₁ p o r k).total.count t := by
  have hstored := congrArg (count t) (exec_stored hg.exec
    (fun f device i x y ho => (hg.new_of_fills (f := f) (by simp [ho, Op.fills])).2.1)
    (fun f0 f1 pi ho => by
      subst ho
      have hne : f0 ≠ f1 := hg.allowed.2.2.1
      exact ⟨hne, (hg.new_of_fills (f := f0) (by simp [Op.fills, hne])).2.1,
        (hg.new_of_fills (f := f1) (by simp [Op.fills])).2.1⟩))
  have hrefs := hg.refs_after (k := k) t
  have hsum := hg.sum_owned (k := k) t
  have hexact := hg.inv.exact t
  have hfiles : (after s s₁ p o r k).stored = s₁.stored := rfl
  simp only [total, count_add, hfiles] at hstored hsum hexact ⊢
  omega

theorem closed_after (f : FileSlot) (hzero : ((after s s₁ p o r k).files f).ref = 0) :
    ((after s s₁ p o r k).files f).type = .none :=
  exec_closed hg.exec (fun g hf h0 => by
    have hone := (hg.new_of_fills hf).2.2
    omega) hg.inv.closed f hzero

theorem kid_eq (h : (s.view p).record.child = some np) :
    (s.view p).kid = s.procs np ∧ (s.procs np).state = .used :=
  ⟨congrArg s.kidOf h, hg.inv.child p np h⟩

/-- The process stays runnable until it is a zombie. -/
theorem state_self (ho : o ≠ .zombie) : ((after s s₁ p o r k).procs p).state = .runnable := by
  rw [hg.procs_self]
  refine Eq.trans ?_ hg.runnable
  cases o with
  | zombie => exact absurd rfl ho
  | fdalloc f => cases r <;> rfl
  | _ => rfl

/-- What the operation does to the other process. -/
theorem state_target (ht : o.target c r = some np) :
    (o.aim (s.procs np)).state = .used ∨ (o.aim (s.procs np)).state = .runnable ∧ o.starts np ∧
        ((s.view p).record' o r).child ≠ some np ∨
      (o.aim (s.procs np)).state = .unused ∧ ((s.view p).record' o r).child ≠ some np ∧
        (∀ fd, (o.aim (s.procs np)).ofile fd = none) ∧ (o.aim (s.procs np)).cwd = none := by
  have hallowed := hg.allowed
  cases o with
  | allocproc => exact .inl rfl
  | freeproc n =>
    cases ht
    obtain ⟨hchild, hofile, hcwd⟩ := hallowed
    rw [(hg.kid_eq hchild).1] at hofile hcwd
    exact .inr (.inr ⟨rfl, by rintro ⟨⟩, hofile, hcwd⟩)
  | childFd n fd f | childCwd n i =>
    cases ht
    exact .inl (hg.kid_eq hallowed.1).2
  | setRunnable n =>
    cases ht
    exact .inr (.inl ⟨rfl, decide_eq_true rfl, by rintro ⟨⟩⟩)
  | reap =>
    cases ht
    have hexec := hg.exec
    simp only [State.exec] at hexec
    split_ifs at hexec with hzombie
    refine .inr (.inr ⟨rfl, fun hchild => ?_, hg.inv.gone c.q (.inr hzombie)⟩)
    exact absurd ((hg.inv.child p c.q hchild).symm.trans hzombie) (by simp)
  | _ => cases ht

theorem gone_after (q : ProcSlot)
    (hstate : ((after s s₁ p o r k).procs q).state = .unused ∨
      ((after s s₁ p o r k).procs q).state = .zombie) :
    (∀ fd, ((after s s₁ p o r k).procs q).ofile fd = none) ∧
      ((after s s₁ p o r k).procs q).cwd = none := by
  by_cases hq : q = p
  · subst hq
    by_cases ho : o = .zombie
    · subst ho
      rw [hg.procs_self]
      exact ⟨hg.allowed.1, hg.allowed.2.1⟩
    · rw [hg.state_self ho] at hstate
      rcases hstate with h | h <;> cases h
  · rw [hg.procs_other hq] at hstate ⊢
    by_cases ht : o.target c r = some q
    · rw [if_pos ht] at hstate ⊢
      rcases hg.state_target ht with h | ⟨h, -⟩ | ⟨-, -, h⟩
      · rw [h] at hstate
        rcases hstate with h | h <;> cases h
      · rw [h] at hstate
        rcases hstate with h | h <;> cases h
      · exact h
    · rw [if_neg ht] at hstate ⊢
      exact hg.inv.gone q hstate

theorem quiet_after (q : ProcSlot) (hstate : ((after s s₁ p o r k).procs q).state ≠ .runnable) :
    (after s s₁ p o r k).records q = .empty := by
  by_cases hq : q = p
  · subst hq
    by_cases ho : o = .zombie
    · subst ho
      exact records_self
    · exact absurd (hg.state_self ho) hstate
  · rw [hg.records_other hq]
    by_cases ht : o.target c r = some q
    · exact hg.inv.quiet q (hg.target_idle ht).1
    · rw [hg.procs_other hq, if_neg ht] at hstate
      exact hg.inv.quiet q hstate

omit hg in
/-- The child that a call makes was made by it before, or is new. -/
theorem child_self (hchild : ((s.view p).record' o r).child = some np) :
    (s.records p).child = some np ∨ o.target c r = some np := by
  rw [child_next] at hchild
  cases o with
  | allocproc =>
    cases r with
    | none => exact .inl hchild
    | some n => exact .inr hchild
  | freeproc _ | setRunnable _ | zombie => cases hchild
  | _ => exact .inl hchild

theorem child_after (q np : ProcSlot) (hchild : ((after s s₁ p o r k).records q).child = some np) :
    ((after s s₁ p o r k).procs np).state = .used := by
  by_cases hq : q = p
  · subst hq
    rw [records_self] at hchild
    by_cases ht : o.target c r = some np
    · rw [hg.procs_other (hg.target_ne ht), if_pos ht]
      rcases hg.state_target ht with h | ⟨-, -, h⟩ | ⟨-, h, -⟩
      · exact h
      · exact absurd hchild h
      · exact absurd hchild h
    · rcases child_self (c := c) hchild with hold | h
      · have hused := hg.inv.child q np hold
        have hne : np ≠ q := by
          rintro rfl
          exact absurd (hused.symm.trans hg.runnable) nofun
        rw [hg.procs_other hne, if_neg ht]
        exact hused
      · exact absurd h ht
  · rw [hg.records_other hq] at hchild
    have hused := hg.inv.child q np hchild
    have hne : np ≠ p := by
      rintro rfl
      exact absurd (hused.symm.trans hg.runnable) nofun
    rw [hg.procs_other hne, if_neg fun ht => (hg.target_idle ht).2 q hq hchild]
    exact hused

theorem apart_after (q q' np : ProcSlot) (hq : ((after s s₁ p o r k).records q).child = some np)
    (hq' : ((after s s₁ p o r k).records q').child = some np) : q = q' := by
  have hother {x : ProcSlot} (hx : x ≠ p) (hxp : ((after s s₁ p o r k).records x).child = some np)
      (hp : ((after s s₁ p o r k).records p).child = some np) : False := by
    rw [hg.records_other hx] at hxp
    rw [records_self] at hp
    rcases child_self (c := c) hp with hold | ht
    · exact hx (hg.inv.apart x p np hxp hold)
    · exact (hg.target_idle ht).2 x hx hxp
  by_cases h : q = p
  · by_cases h' : q' = p
    · rw [h, h']
    · exact (hother h' hq' (h ▸ hq)).elim
  · by_cases h' : q' = p
    · exact (hother h hq (h' ▸ hq')).elim
    · rw [hg.records_other h] at hq
      rw [hg.records_other h'] at hq'
      exact hg.inv.apart q q' np hq hq'

/-- A count is raised by a process that has a reference, or is zero. -/
theorem mem_adds (hf : .file f ∈ o.adds r) :
    (.file f ∈ (s.view p).owned ∧ (s.records p).known f ≠ some .none ∧ o ≠ .filealloc) ∨
      (s.refs (.file f) = 0 ∧ (o.adds r).count (.file f) = 1) := by
  have hallowed := hg.allowed
  cases o with
  | filedup g =>
    obtain ⟨⟩ := mem_singleton.1 hf
    exact .inl ⟨hallowed.1, hallowed.2, nofun⟩
  | filealloc =>
    have hexec := hg.exec
    simp only [State.exec] at hexec
    split at hexec
    · rename_i g hscan
      cases hexec
      obtain ⟨⟩ := mem_singleton.1 hf
      have hfree : (s.files f).ref = 0 := by simpa using List.find?_some hscan
      exact .inr ⟨hfree, count_singleton_self _⟩
    · cases hexec
      exact absurd hf (notMem_zero _)
  | kalloc =>
    cases r with
    | none => exact absurd hf (notMem_zero _)
    | some pi => simp [Op.adds] at hf
  | iget _ _ | idup _ => simp [Op.adds] at hf
  | _ => exact absurd hf (notMem_zero _)

omit hg in
theorem mem_drops (hf : .file f ∈ o.drops) : o = .fileclose f := by
  cases o with
  | fileclose g =>
    obtain ⟨⟩ := mem_singleton.1 hf
    rfl
  | pipeclose pi w | put i => simp [Op.drops] at hf
  | _ => exact absurd hf (notMem_zero _)

/-- A process keeps the reference to a `struct file` that it knows. -/
theorem mem_owned_self
    (hf : .file f ∈ (s.view p).owned ∨ .file f ∈ o.adds r) (hclose : o ≠ .fileclose f)
    (hknown : ∀ np fd, o = .childFd np fd f → (s.records p).known f ≠ none) :
    .file f ∈ ((after s s₁ p o r k).view p).owned := by
  have hmem : .file f ∈ (s.view p).owned + (o.adds r + o.unstores r) := by
    rcases hf with hf | hf
    · exact mem_add.2 (.inl hf)
    · exact mem_add.2 (.inr (mem_add.2 (.inl hf)))
  rw [← hg.owned_self (k := k)] at hmem
  have hstores : .file f ∉ o.stores := by
    cases o with
    | setInode _ _ _ _ _ | setPipe _ _ _ => simp [Op.stores]
    | _ => exact notMem_zero _
  have hhands : .file f ∉ o.hands := by
    have hallowed := hg.allowed
    cases o with
    | childFd np fd g =>
      intro hx
      obtain ⟨⟩ := mem_singleton.1 hx
      exact hknown np fd rfl hallowed.2.2.2
    | childCwd _ _ => simp [Op.hands]
    | _ => exact notMem_zero _
  simp only [mem_add] at hmem
  rcases hmem with h | (h | h) | h
  · exact h
  · exact absurd (mem_drops h) hclose
  · exact absurd h hstores
  · exact absurd h hhands

/-- Nobody else changes a `struct file` while one process has the only reference to it. -/
theorem ref_one (hone : (s.files f).ref = 1) (hadds : .file f ∉ o.adds r)
    (hdrops : o ≠ .fileclose f) : ((after s s₁ p o r k).files f).ref = 1 := by
  have hrefs := hg.refs_after (k := k) (.file f)
  rw [count_eq_zero.2 hadds, count_eq_zero.2 fun h => hdrops (mem_drops h)]
    at hrefs
  exact hrefs.trans hone

theorem known_after (q : ProcSlot) (f : FileSlot) (x : Contents)
    (hknown : ((after s s₁ p o r k).records q).known f = some x) :
    .file f ∈ ((after s s₁ p o r k).view q).owned ∧ ((after s s₁ p o r k).files f).contents = x ∧
      (x = .none → ((after s s₁ p o r k).files f).ref = 1) := by
  by_cases hq : q = p
  · subst hq
    rw [records_self] at hknown
    rcases known_next hknown with hfills | ⟨hfills, hx, hadds, ho⟩ | ⟨hfills, hold, hclose⟩
    · have hne : o.fills f ≠ none := hfills ▸ (by simp)
      have hclose : o ≠ .fileclose f := by
        rintro rfl
        cases hfills
      refine ⟨hg.mem_owned_self (.inl (hg.new_of_fills hne).1) hclose ?_, ?_, ?_⟩
      · rintro np fd rfl
        cases hfills
      · refine (exec_contents hg.exec f fun h => absurd h hclose).trans ?_
        rw [hfills, getD_some]
      · rintro rfl
        cases o with
        | setInode g _ _ _ _ =>
          simp only [Op.fills] at hfills
          split_ifs at hfills <;> cases hfills
        | setPipe _ _ _ =>
          simp only [Op.fills] at hfills
          split_ifs at hfills <;> cases hfills
        | _ => cases hfills
    · subst ho hx
      obtain ⟨hzero, hcount⟩ := (hg.mem_adds hadds).resolve_left fun h => h.2.2 rfl
      refine ⟨hg.mem_owned_self (.inr hadds) (by simp) (by simp), ?_, fun _ => ?_⟩
      · refine (exec_contents hg.exec f (by simp)).trans ?_
        rw [hfills, getD_none, File.contents, hg.inv.closed f hzero]
      · have hrefs := hg.refs_after (k := k) (.file f)
        rw [hzero, hcount] at hrefs
        exact hrefs
    · obtain ⟨hmem, hcontents, hone⟩ := hg.inv.known q f x hold
      refine ⟨hg.mem_owned_self (.inl hmem) hclose fun _ _ _ => hold ▸ (by simp), ?_, fun hx => ?_⟩
      · refine (exec_contents hg.exec f fun h => absurd h hclose).trans ?_
        rw [hfills, getD_none, hcontents]
      · refine hg.ref_one (hone hx) (fun hadds => ?_) hclose
        rcases hg.mem_adds hadds with ⟨-, h, -⟩ | ⟨h, -⟩
        · exact h (hx ▸ hold)
        · exact absurd h (hg.inv.pos_of_mem hmem).ne'
  · rw [hg.records_other hq] at hknown
    obtain ⟨hmem, hcontents, hone⟩ := hg.inv.known q f x hknown
    have ht : o.target c r ≠ some q := fun ht => by
      rw [hg.inv.quiet q (hg.target_idle ht).1] at hknown
      cases hknown
    have hfills : o.fills f = none := by
      by_contra hne
      obtain ⟨hp, -, href⟩ := hg.new_of_fills hne
      exact hq (hg.inv.eq_of_refs_one hp hmem href)
    refine ⟨by rwa [hg.view_other hq ht], ?_, fun hx => ?_⟩
    · refine (exec_contents hg.exec f fun h href => ?_).trans ?_
      · subst h
        exact hq (hg.inv.eq_of_refs_one (mem_owned_of_held hg.allowed) hmem href)
      · rw [hfills, getD_none, hcontents]
    · refine hg.ref_one (hone hx) (fun hadds => ?_) fun h => ?_
      · rcases hg.mem_adds hadds with ⟨h, -⟩ | ⟨h, -⟩
        · exact hq (hg.inv.eq_of_refs_one h hmem (hone hx))
        · exact absurd h (hg.inv.pos_of_mem hmem).ne'
      · subst h
        exact hq (hg.inv.eq_of_refs_one (mem_owned_of_held hg.allowed) hmem (hone hx))

theorem window_after (q : ProcSlot) : ((after s s₁ p o r k).records q).Window := by
  by_cases hq : q = p
  · subst hq
    rw [records_self]
    exact window_next hg.allowed (hg.inv.window q)
  · rw [hg.records_other hq]
    exact hg.inv.window q

theorem safe_after (hthread : s.thread p = .act o k) (q : ProcSlot)
    (hstate : ((after s s₁ p o r k).procs q).state = .runnable) :
    counting.Safe ((after s s₁ p o r k).thread q) (fun _ w => w.Outside)
      ((after s s₁ p o r k).view q) := by
  by_cases hq : q = p
  · subst hq
    have ho : o ≠ .zombie := by
      rintro rfl
      rw [hg.procs_self] at hstate
      cases hstate
    have hsafe := hg.inv.safe q hg.runnable
    rw [hthread] at hsafe
    have hk : (after s s₁ q o r k).thread q = k r := update_self _ _ _
    rw [hg.view_self ho, hk]
    exact hsafe.2 r (exec_replies hg.exec (fun t ht => hg.inv.pos_of_mem ht) ho)
  · have hk : (after s s₁ p o r k).thread q = if o.starts q then .ret 0 else s.thread q :=
      (update_of_ne hq _ _).trans ((exec_frame hg.exec).thread q)
    by_cases ht : o.target c r = some q
    · rw [hg.procs_other hq, if_pos ht] at hstate
      obtain ⟨hrun, hstarts, -⟩ | h := (hg.state_target ht).resolve_left fun h => by
        rw [h] at hstate
        cases hstate
      · rw [hk, if_pos hstarts, (hg.view_target ht).1]
        refine ⟨rfl, rfl, rfl, rfl, ?_⟩
        have hallowed := hg.allowed
        cases o with
        | setRunnable np =>
          cases ht
          rw [View.allowed, (hg.kid_eq hallowed.1).1] at hallowed
          exact hallowed.2
        | _ => cases hstarts
      · rw [h.1] at hstate
        cases hstate
    · have hidle : o.starts q = false := by
        cases o with
        | setRunnable np => exact decide_eq_false fun h => ht (congrArg some h.symm)
        | _ => rfl
      rw [hg.procs_other hq, if_neg ht] at hstate
      rw [hk, hidle, hg.view_other hq ht]
      exact hg.inv.safe q hstate

theorem inv_after (hthread : s.thread p = .act o k) : Inv (after s s₁ p o r k) where
  exact := hg.exact_after
  closed := hg.closed_after
  live pi := exec_live hg.exec hg.inv.live pi
  gone := hg.gone_after
  quiet := hg.quiet_after
  child := hg.child_after
  apart := hg.apart_after
  known := hg.known_after
  window := hg.window_after
  safe := hg.safe_after hthread

end

end State.Goes

namespace State

variable {s s' : State} {p : ProcSlot} {c : Choice} {o : Op} {a : Act} {e : Stop}

/-- A system call begins. -/
theorem Inv.call (hi : Inv s) {b : Syscall} (h : step s (.call p b) = .ok s') : Inv s' := by
  simp only [Refs.step] at h
  split_ifs at h with hrun
  split at h
  · rename_i x hthread
    cases h
    have hout := hi.safe p hrun
    rw [hthread] at hout
    obtain ⟨hheld, hbare, hbareCwd, hchild, hcwd⟩ := hout
    set y : Rec := { s.records p with known := fun _ => none, kind := b.kind } with hy
    set s' := (s.setRecord p y).setThread p b.body with hs'
    have hself : s'.records p = y := update_self _ _ _
    have hother {q : ProcSlot} (hq : q ≠ p) : s'.records q = s.records q :=
      update_of_ne hq _ _
    have hchildren (q : ProcSlot) : (s'.records q).child = (s.records q).child := by
      by_cases hq : q = p
      · rw [hq, hself]
      · rw [hother hq]
    have howned (q : ProcSlot) : (s'.view q).owned = (s.view q).owned := by
      by_cases hq : q = p
      · subst hq
        simp only [owned, view, hself]
        rfl
      · simp only [owned, view, hother hq]
        rfl
    have htotal : s'.total = s.total :=
      congrArg (· + s.stored) (Finset.sum_congr rfl fun q _ => howned q)
    refine ⟨fun t => ?_, hi.closed, hi.live, hi.gone, fun q hq => ?_, fun q np h => ?_,
      fun q q' np h h' => ?_, fun q f x h => ?_, fun q => ?_, fun q hstate => ?_⟩
    · rw [htotal, ← hi.exact]
      exact refs_congr rfl rfl rfl t
    · have hne : q ≠ p := by
        rintro rfl
        exact hq hrun
      rw [hother hne]
      exact hi.quiet q hq
    · rw [hchildren] at h
      exact hi.child q np h
    · rw [hchildren] at h h'
      exact hi.apart q q' np h h'
    · by_cases hq : q = p
      · rw [hq, hself] at h
        cases h
      · rw [hother hq] at h
        rw [howned]
        exact hi.known q f x h
    · by_cases hq : q = p
      · rw [hq, hself]
        exact ⟨fun h => absurd hbare h, fun h => absurd (hbareCwd.symm.trans h) (by simp)⟩
      · rw [hother hq]
        exact hi.window q
    · by_cases hq : q = p
      · subst hq
        have hbody : s'.thread q = b.body := update_self _ _ _
        have hrecord : (s'.view q).record = y := hself
        rw [hbody]
        refine safe_body b ?_ (by rw [hrecord]) (fun f => by rw [hrecord])
        exact ⟨hrecord ▸ hheld, hrecord ▸ hbare, hrecord ▸ hbareCwd, hrecord ▸ hchild, hcwd⟩
      · have hold : s'.thread q = s.thread q := update_of_ne hq _ _
        have hview : s'.view q = s.view q := by
          simp only [view, hother hq]
          rfl
        rw [hold, hview]
        exact hi.safe q hstate
  · cases h

theorem Inv.step (hi : Inv s) (h : step s a = .ok s') : Inv s' := by
  cases a with
  | call p b => exact hi.call h
  | go p c =>
    simp only [Refs.step] at h
    split_ifs at h with hrun
    split at h
    · cases h
    · rename_i o k hthread
      split at h
      · rename_i s₁ r hexec
        cases h
        have hsafe := hi.safe p hrun
        rw [hthread] at hsafe
        exact Goes.inv_after ⟨hi, hrun, hsafe.1, hexec⟩ hthread
      · cases h

theorem boot_procs_other {q : ProcSlot} (hq : q ≠ initproc) : boot.procs q = .zero := if_neg hq

theorem owned_boot {q : ProcSlot} (hq : q ≠ initproc) : (boot.view q).owned = 0 := by
  have hself : (boot.view q).self = .zero := boot_procs_other hq
  rw [owned, hself]
  rfl

theorem total_boot : boot.total = {.inode ⟨0, by decide⟩} := by
  have hsum : ∑ q, (boot.view q).owned = (boot.view initproc).owned :=
    Finset.sum_eq_single initproc (fun q _ hq => owned_boot hq)
      fun h => absurd (Finset.mem_univ _) h
  have hstored : boot.stored = 0 := Finset.sum_eq_zero fun _ _ => rfl
  rw [total, hsum, hstored]
  rfl

theorem inv_boot : Inv boot where
  exact t := by
    rw [total_boot, count_singleton]
    cases t with
    | file f => rfl
    | inode i =>
      by_cases hi : i.val = 0
      · obtain rfl : i = ⟨0, by decide⟩ := Fin.ext hi
        rfl
      · rw [if_neg fun h => hi (congrArg Fin.val (Token.inode.inj h))]
        simp only [refs, boot, hi, if_false]
    | pipe pi w => cases w <;> rfl
  closed _ _ := rfl
  live _ := rfl
  gone q hstate := by
    by_cases hq : q = initproc
    · subst hq
      rcases hstate with h | h <;> cases h
    · rw [boot_procs_other hq]
      exact ⟨fun _ => rfl, rfl⟩
  quiet _ _ := rfl
  child _ _ h := by cases h
  apart _ _ _ h := by cases h
  known _ _ _ h := by cases h
  window _ := ⟨fun h => absurd rfl h, by rintro ⟨⟩⟩
  safe q hstate := by
    by_cases hq : q = initproc
    · subst hq
      exact ⟨rfl, rfl, rfl, rfl, by rintro ⟨⟩⟩
    · rw [boot_procs_other hq] at hstate
      cases hstate

theorem inv_of_run {as : List Act} (h : run Refs.step boot as = .ok s) : Inv s :=
  run_preserves (fun _ _ _ hi hs => Inv.step hi hs) inv_boot h

/-- The errors that an operation can end with. -/
theorem Inv.exec_error (hi : Inv s) (hallowed : (s.view p).allowed o)
    (h : s.exec p c o = .error e) : e ≠ .filedup ∧ e ≠ .fileclose ∧ e ≠ .released := by
  have hpos {t : Token} (ht : t ∈ (s.view p).owned) : s.refs t ≠ 0 := (hi.pos_of_mem ht).ne'
  have hstored {f : FileSlot} {t : Token} (ht : t ∈ (s.files f).contents.tokens) :
      s.refs t ≠ 0 := by
    rw [hi.exact]
    refine (count_pos.2 (mem_add.2 (.inr ?_))).ne'
    exact mem_sum.2 ⟨f, Finset.mem_univ f, ht⟩
  have hpipe {pi : Nat} {w : Bool} (ht : s.refs (.pipe pi w) ≠ 0) : (s.pipes pi).live ≠ false := by
    intro hdead
    rw [hi.live, Bool.or_eq_false_iff] at hdead
    cases w
    · exact ht (by rw [refs, hdead.1]; rfl)
    · exact ht (by rw [refs, hdead.2]; rfl)
  cases o with
  | notInit =>
    simp only [exec] at h
    split_ifs at h
    cases h
    exact ⟨by simp, by simp, by simp⟩
  | filedup f =>
    simp only [exec] at h
    split_ifs at h with hzero
    exact absurd (Nat.lt_one_iff.1 hzero) (hpos hallowed.1)
  | fileclose f =>
    simp only [exec, fileclose] at h
    split_ifs at h with hzero
    exact absurd (Nat.lt_one_iff.1 hzero) (hpos (mem_owned_of_held hallowed))
  | kalloc =>
    simp only [exec] at h
    split_ifs at h
    cases h
    exact ⟨by simp, by simp, by simp⟩
  | pipeclose pi w =>
    simp only [exec, pipeclose] at h
    split_ifs at h with hdead
    exact absurd hdead (hpipe (hpos (mem_owned_of_held hallowed)))
  | dirent dp =>
    simp only [exec, dirent] at h
    split_ifs at h with hzero
    all_goals exact absurd hzero (hpos hallowed)
  | iget dev inum =>
    simp only [exec, iget] at h
    split at h
    · cases h
    · split at h <;> cases h
      exact ⟨by simp, by simp, by simp⟩
  | idup k =>
    simp only [exec] at h
    split_ifs at h with hzero
    exact absurd hzero (hpos hallowed)
  | put k =>
    simp only [exec] at h
    split_ifs at h with hzero
    exact absurd hzero (hpos (mem_owned_of_held hallowed))
  | use k =>
    simp only [exec] at h
    split_ifs at h with hzero
    rcases hallowed with hown | ⟨f, -, hknown⟩
    · exact absurd hzero (hpos hown)
    · have hcontents := (hi.known p f _ hknown).2.1
      refine absurd hzero (hstored (f := f) (t := .inode k) ?_)
      rw [hcontents]
      exact mem_singleton_self _
  | useFile f =>
    simp only [exec, useFile] at h
    split at h
    · cases h
      exact ⟨by simp, by simp, by simp⟩
    · rename_i pi w hcontents
      split_ifs at h with hdead
      refine absurd hdead (hpipe (w := w) (hstored (f := f) ?_))
      rw [hcontents]
      exact mem_singleton_self _
    · rename_i k hcontents
      split_ifs at h with hzero
      refine absurd hzero (hstored (f := f) (t := .inode k) ?_)
      rw [hcontents]
      exact mem_singleton_self _
  | allocproc | reap =>
    simp only [exec] at h
    split_ifs at h
    cases h
    exact ⟨by simp, by simp, by simp⟩
  | fdalloc f | filealloc =>
    simp only [exec] at h
    split at h <;> cases h
  | _ => cases h

/-- The errors that a step can end with. -/
theorem Inv.step_error (hi : Inv s) (h : Refs.step s a = .error e) :
    e ≠ .filedup ∧ e ≠ .fileclose ∧ e ≠ .released := by
  have hwait : Stop.wait ≠ .filedup ∧ Stop.wait ≠ .fileclose ∧ Stop.wait ≠ .released :=
    ⟨nofun, nofun, nofun⟩
  cases a with
  | call p b =>
    simp only [Refs.step] at h
    split_ifs at h with hrun
    · split at h <;> cases h
      exact hwait
    · cases h
      exact hwait
  | go p c =>
    simp only [Refs.step] at h
    split_ifs at h with hrun
    · split at h
      · cases h
        exact hwait
      · rename_i o k hthread
        split at h
        · cases h
        · rename_i e' hexec
          cases h
          have hsafe := hi.safe p hrun
          rw [hthread] at hsafe
          exact hi.exec_error hsafe.1 hexec
    · cases h
      exact hwait

end State

end FogOS.Refs
