import FogOS.Itable.Coherence

/-!
# The calls keep the inode table coherent

Each call on the inode table is one of the changes of the invariant's module: a reference is
counted, an entry is recycled, or a process with the sleep-lock works on its entry. `ialloc` writes
free on-disk inodes only, which no valid entry is a copy of.
-/

namespace FogOS.Itable

open Function Library Fs List Itable

variable {P : Type} [DecidableEq P]

namespace State

variable {s s' : State P} {p : P} {k : Slot} {dev inum : Nat}

omit [DecidableEq P] in
theorem find_some (h : s.find dev inum = some k) : 0 < (s.table k).ref ∧ s.key k = (dev, inum) := by
  have hk := find?_some h
  simp only [Bool.and_eq_true, decide_eq_true_eq] at hk
  exact ⟨hk.1.1, Prod.ext hk.1.2 hk.2⟩

omit [DecidableEq P] in
theorem find_none (h : s.find dev inum = none) (j : Slot) (hj : 0 < (s.table j).ref) :
    s.key j ≠ (dev, inum) := by
  intro hkey
  have hall := find?_eq_none.1 h j (mem_finRange j)
  simp only [key, Prod.mk.injEq] at hkey
  simp [hj, hkey] at hall

omit [DecidableEq P] in
theorem empty_some (h : s.empty = some k) : (s.table k).ref = 0 := by
  simpa using find?_some h

omit [DecidableEq P] in
theorem disk_eq_ite (s : State P) (k : Slot) (d i : Nat) : s.disk d i =
    if d = (s.table k).dev ∧ i = (s.table k).inum then s.dinode k else s.disk d i := by
  split_ifs with hkey
  · rw [hkey.1, hkey.2]
    rfl
  · rfl

omit [DecidableEq P] in
theorem iupdate_disk (s : State P) (k : Slot) (d i : Nat) : (s.iupdate k).disk d i =
    if d = (s.table k).dev ∧ i = (s.table k).inum then (s.table k).ip else s.disk d i :=
  setDisk_apply s _ _ _ d i

/-- `iget` up to the next point of its caller. -/
theorem iget_cases (hslot : (s.phase p).slot = none) (hget : s.iget p dev inum = .ok s') :
    (∃ k, s.key k = (dev, inum) ∧
        Recount s (s'.setPhase p .idle) p k ((s.table k).ref + 1) (s.held p k + 1)) ∨
      ∃ k, Recycle s (s'.setPhase p .idle) p k dev inum := by
  unfold State.iget at hget
  split at hget
  · rename_i k hfind
    cases hget
    obtain ⟨hpos, hkey⟩ := find_some hfind
    exact .inl ⟨k, hkey, rfl, fun q j => setHeld_apply _ k p _ q j, rfl, rfl, rfl, rfl, .inr hslot,
      by omega, hpos⟩
  · rename_i hfind
    split at hget
    · rename_i k hempty
      cases hget
      exact .inr ⟨k, rfl, fun q j => setHeld_apply _ k p _ q j, rfl, rfl, rfl, rfl, hslot,
        empty_some hempty, find_none hfind⟩
    · cases hget

theorem iget_phase (hget : s.iget p dev inum = .ok s') : s'.phase = s.phase := by
  unfold State.iget at hget
  split at hget
  · cases hget
    rfl
  · split at hget <;> cases hget
    rfl

theorem unshare_setPhase (hidle : s.phase p = .idle) :
    (s.unshare p k).setPhase p .idle = s.unshare p k := by
  rw [setPhase, show (s.unshare p k).phase = s.phase from rfl, ← hidle, update_eq_self]
  rfl

/-- A process takes the free sleep-lock, in `ilock` or in `iput`. -/
theorem OwnerStep.acquire {x : Phase} (hidle : s.phase p = .idle) (hpos : 0 < s.held p k)
    (hfree : (s.table k).lock = none) (hslot : x.slot = some k) :
    OwnerStep s ((s.setEntry k { s.table k with lock := some p }).setPhase p x) p k
      { s.table k with lock := some p } x (s.dirty k) (s.dinode k) := by
  refine ⟨rfl, rfl, (update_eq_self k s.dirty).symm, rfl, disk_eq_ite s k, rfl, rfl, rfl,
    .inl hidle, .inr hslot, hpos, fun q hq => ?_, fun q hq => (Option.some.inj hq).symm⟩
  rw [hfree] at hq
  cases hq

variable [Fintype P]

theorem Inv.iget (h : s.Inv) (hslot : (s.phase p).slot = none)
    (hget : s.iget p dev inum = .ok s') : (s'.setPhase p .idle).Inv := by
  rcases iget_cases hslot hget with ⟨k, -, hs⟩ | ⟨k, hs⟩
  · exact h.recount hs fun _ => Nat.succ_pos _
  · exact h.recycle hs

theorem Inv.recount_idup (h : s.Inv) (hidle : s.phase p = .idle) (hpos : 0 < s.held p k) :
    Recount s (s.share p k) p k ((s.table k).ref + 1) (s.held p k + 1) :=
  ⟨rfl, fun q j => setHeld_apply _ k p _ q j, rfl, rfl, rfl,
    by rw [← hidle, update_eq_self]; rfl, .inr (by rw [hidle]; rfl), by omega,
    lt_of_lt_of_le hpos ((h.at_ k).held_le p)⟩

/-- `ref--` of `iput`, at once or after the inode is freed. -/
theorem Inv.recount_unshare (h : s.Inv) (hslot : s.phase p = .drop k ∨ s.phase p = .idle)
    (hpos : 0 < s.held p k) : Recount s ((s.unshare p k).setPhase p .idle) p k
      ((s.table k).ref - 1) (s.held p k - 1) := by
  have hle := (h.at_ k).held_le p
  exact ⟨rfl, fun q j => setHeld_apply _ k p _ q j, rfl, rfl, rfl, rfl,
    hslot.imp_right fun hx => by rw [hx]; rfl, by omega, by omega⟩

theorem Inv.acquire (h : s.Inv) {x : Phase} (hidle : s.phase p = .idle) (hpos : 0 < s.held p k)
    (hfree : (s.table k).lock = none) (hslot : x.slot = some k) (hdrop : x ≠ .drop k)
    (hvalid : (s.table k).valid = true ∨ x = .ilock k) :
    ((s.setEntry k { s.table k with lock := some p }).setPhase p x).Inv := by
  have hk := h.at_ k
  have hs := OwnerStep.acquire hidle hpos hfree hslot
  have href : 0 < (s.table k).ref := lt_of_lt_of_le hpos (hk.held_le p)
  have hstable := hk.stable hs.own (by rw [hidle]; nofun)
  refine h.of_owner hs (fun _ => hvalid) (fun _ => ⟨rfl, hk.clean hfree⟩)
    (fun _ => ⟨rfl, hk.clean hfree⟩) (fun hx => absurd hx hdrop) nofun fun hv _ => ?_
  exact ⟨hk.coherent href hv hstable, hk.typed href hv hstable⟩

section

variable (h : s.InvAt k)

include h

omit [DecidableEq P] in
/-- The holder of the sleep-lock is the only process at the entry. -/
theorem InvAt.owner (hlock : (s.table k).lock = some p) :
    0 < s.held p k ∧ ∀ q, (s.table k).lock = some q → q = p := by
  refine ⟨(h.locked p hlock).1, fun q hq => ?_⟩
  rw [hlock] at hq
  exact (Option.some.inj hq).symm

omit [DecidableEq P] in
theorem InvAt.owner_valid (hlock : (s.table k).lock = some p)
    (hread : s.phase p ≠ .ilock k) : (s.table k).valid = true :=
  (h.locked p hlock).2.resolve_right hread

omit [DecidableEq P] in
theorem InvAt.owner_typed (hlock : (s.table k).lock = some p)
    (hread : s.phase p ≠ .ilock k) (hphase : s.phase p ≠ .invalidate k) :
    (s.table k).ip.type ≠ 0 ∧ (s.dinode k).type = (s.table k).ip.type := by
  obtain ⟨hpos, hown⟩ := h.owner hlock
  exact h.typed (lt_of_lt_of_le hpos (h.held_le p)) (h.owner_valid hlock hread)
    (h.stable hown hphase)

/-- `ilock` returns with the on-disk inode in the entry. -/
theorem InvAt.ilockRead (hphase : s.phase p = .ilock k)
    (hread : s.ilockRead p k = .ok s') : ∃ e, OwnerStep s s' p k e .idle false (s.dinode k) ∧
      e.valid = true ∧ e.lock = some p ∧ e.ip = s.dinode k ∧ e.ip.type ≠ 0 := by
  obtain ⟨hlock, hclean⟩ := h.reading p hphase
  obtain ⟨hpos, hown⟩ := h.owner hlock
  have href : 0 < (s.table k).ref := lt_of_lt_of_le hpos (h.held_le p)
  have hstable := h.stable hown (by rw [hphase]; nofun)
  have hdirty : s.dirty = update s.dirty k false := by
    rw [← hclean, update_eq_self]
  unfold State.ilockRead at hread
  split_ifs at hread with hvalid htype
  · cases hread
    exact ⟨s.table k, ⟨(update_eq_self k s.table).symm, rfl, hdirty, rfl, disk_eq_ite s k,
      rfl, rfl, rfl, .inr (by rw [hphase]; rfl), .inl rfl, hpos, hown, hown⟩, hvalid, hlock,
      h.coherent href hvalid hstable hclean, (h.typed href hvalid hstable).1⟩
  · cases hread
    exact ⟨_, ⟨rfl, rfl, hdirty, rfl, disk_eq_ite s k, rfl, rfl, rfl, .inr (by rw [hphase]; rfl),
      .inl rfl, hpos, hown, hown⟩, rfl, hlock, rfl, htype⟩

omit h in
theorem Inv.ilockRead (h : s.Inv) (hphase : s.phase p = .ilock k)
    (hread : s.ilockRead p k = .ok s') : s'.Inv := by
  obtain ⟨e, hs, hvalid, -, hip, htype⟩ := (h.at_ k).ilockRead hphase hread
  exact h.of_owner hs (fun _ => .inl hvalid) nofun nofun nofun (fun _ => rfl)
    fun _ _ => ⟨fun _ => hip, htype, by rw [hip]⟩

theorem InvAt.modify (ip : Dinode) (hidle : s.phase p = .idle)
    (hlock : (s.table k).lock = some p) : OwnerStep s (s.modify k ip) p k
      { s.table k with ip := { ip with type := (s.table k).ip.type } } .idle true (s.dinode k) := by
  obtain ⟨hpos, hown⟩ := h.owner hlock
  exact ⟨rfl, rfl, rfl, by rw [← hidle, update_eq_self]; rfl, disk_eq_ite s k, rfl, rfl,
    rfl, .inl hidle, .inl rfl, hpos, hown, hown⟩

omit h in
theorem Inv.modify (h : s.Inv) (ip : Dinode) (hidle : s.phase p = .idle)
    (hlock : (s.table k).lock = some p) : (s.modify k ip).Inv := by
  have hk := h.at_ k
  have hvalid := hk.owner_valid hlock (by rw [hidle]; nofun)
  have htyped := hk.owner_typed hlock (by rw [hidle]; nofun) (by rw [hidle]; nofun)
  exact h.of_owner (hk.modify ip hidle hlock) (fun _ => .inl hvalid) nofun nofun nofun
    (fun hnone => absurd (hlock.symm.trans hnone) nofun) fun _ _ => ⟨nofun, htyped⟩

theorem InvAt.iupdate (hidle : s.phase p = .idle) (hlock : (s.table k).lock = some p) :
    OwnerStep s (s.iupdate k) p k (s.table k) .idle false (s.table k).ip := by
  obtain ⟨hpos, hown⟩ := h.owner hlock
  exact ⟨(update_eq_self k s.table).symm, rfl, rfl,
    by rw [← hidle, update_eq_self]; rfl, iupdate_disk s k, rfl, rfl, rfl, .inl hidle,
    .inl rfl, hpos, hown, hown⟩

omit h in
theorem Inv.iupdate (h : s.Inv) (hidle : s.phase p = .idle) (hlock : (s.table k).lock = some p) :
    (s.iupdate k).Inv := by
  have hk := h.at_ k
  have hvalid := hk.owner_valid hlock (by rw [hidle]; nofun)
  have htyped := hk.owner_typed hlock (by rw [hidle]; nofun) (by rw [hidle]; nofun)
  exact h.of_owner (hk.iupdate hidle hlock) (fun _ => .inl hvalid) nofun nofun nofun
    (fun _ => rfl) fun _ _ => ⟨fun _ => rfl, htyped.1, rfl⟩

theorem InvAt.iunlock (hidle : s.phase p = .idle)
    (hunlock : s.iunlock p k = .ok s') : (s.table k).lock = some p ∧
      OwnerStep s s' p k { s.table k with lock := none } .idle (s.dirty k) (s.dinode k) := by
  unfold State.iunlock at hunlock
  split_ifs at hunlock with hfail
  cases hunlock
  have hlock : (s.table k).lock = some p := by
    by_contra hne
    exact hfail (.inl hne)
  obtain ⟨hpos, hown⟩ := h.owner hlock
  exact ⟨hlock, rfl, rfl, (update_eq_self k s.dirty).symm,
    by rw [← hidle, update_eq_self]; rfl, disk_eq_ite s k, rfl, rfl, rfl, .inl hidle,
    .inl rfl, hpos, hown, nofun⟩

omit h in
theorem Inv.iunlock (h : s.Inv) (hidle : s.phase p = .idle) (hclean : s.dirty k = false)
    (hunlock : s.iunlock p k = .ok s') : s'.Inv := by
  have hk := h.at_ k
  obtain ⟨hlock, hs⟩ := hk.iunlock hidle hunlock
  have hvalid := hk.owner_valid hlock (by rw [hidle]; nofun)
  have href : 0 < (s.table k).ref := lt_of_lt_of_le hs.pos (hk.held_le p)
  have hstable := hk.stable hs.own (by rw [hidle]; nofun)
  exact h.of_owner hs nofun nofun nofun nofun (fun _ => hclean)
    fun _ _ => ⟨hk.coherent href hvalid hstable, hk.typed href hvalid hstable⟩

/-- The holder changes the entry and calls `iupdate` in the branch of `iput` that frees it. -/
theorem InvAt.rewrite {x : Phase} (ip : Dinode) (hlock : (s.table k).lock = some p)
    (hold : (s.phase p).slot = some k) (hnew : x.slot = some k) : OwnerStep s
      (((s.setEntry k { s.table k with ip := ip }).iupdate k).setPhase p x) p k
      { s.table k with ip := ip } x false ip := by
  obtain ⟨hpos, hown⟩ := h.owner hlock
  refine ⟨rfl, rfl, rfl, rfl, fun d i => (iupdate_disk _ k d i).trans ?_, rfl, rfl, rfl, .inr hold,
    .inr hnew, hpos, hown, hown⟩
  simp only [setEntry, update_self]

theorem InvAt.itrunc (hphase : s.phase p = .itrunc k) :
    OwnerStep s (s.itrunc p k) p k
      { s.table k with ip := { (s.table k).ip with size := 0, addrs := fun _ => 0 } } (.untype k)
      false { (s.table k).ip with size := 0, addrs := fun _ => 0 } :=
  h.rewrite _ (h.freeing p (by rw [hphase]; rfl)).1 (by rw [hphase]; rfl) rfl

omit h in
theorem Inv.itrunc (h : s.Inv) (hphase : s.phase p = .itrunc k) : (s.itrunc p k).Inv := by
  have hk := h.at_ k
  have hlock := (hk.freeing p (by rw [hphase]; rfl)).1
  have hvalid := hk.owner_valid hlock (by rw [hphase]; nofun)
  have htyped := hk.owner_typed hlock (by rw [hphase]; nofun) (by rw [hphase]; nofun)
  exact h.of_owner (hk.itrunc hphase) (fun _ => .inl hvalid) nofun (fun _ => ⟨hlock, rfl⟩) nofun
    (fun _ => rfl) fun _ _ => ⟨fun _ => rfl, htyped.1, rfl⟩

theorem InvAt.untype (hphase : s.phase p = .untype k) :
    OwnerStep s (s.untype p k) p k { s.table k with ip := { (s.table k).ip with type := 0 } }
      (.invalidate k) false { (s.table k).ip with type := 0 } :=
  h.rewrite _ (h.freeing p (by rw [hphase]; rfl)).1 (by rw [hphase]; rfl) rfl

omit h in
theorem Inv.untype (h : s.Inv) (hphase : s.phase p = .untype k) : (s.untype p k).Inv := by
  have hk := h.at_ k
  have hlock := (hk.freeing p (by rw [hphase]; rfl)).1
  have hvalid := hk.owner_valid hlock (by rw [hphase]; nofun)
  exact h.of_owner (hk.untype hphase) (fun _ => .inl hvalid) nofun (fun _ => ⟨hlock, rfl⟩) nofun
    (fun _ => rfl) fun _ hx => absurd rfl hx

theorem InvAt.invalidate (hphase : s.phase p = .invalidate k) :
    OwnerStep s (s.invalidate p k) p k { s.table k with valid := false, lock := none } (.drop k)
      (s.dirty k) (s.dinode k) := by
  obtain ⟨hpos, hown⟩ := h.owner (h.freeing p (by rw [hphase]; rfl)).1
  exact ⟨rfl, rfl, (update_eq_self k s.dirty).symm, rfl, disk_eq_ite s k, rfl, rfl, rfl,
    .inr (by rw [hphase]; rfl), .inr rfl, hpos, hown, nofun⟩

omit h in
theorem Inv.invalidate (h : s.Inv) (hphase : s.phase p = .invalidate k) :
    (s.invalidate p k).Inv := by
  have hk := h.at_ k
  have hclean := (hk.freeing p (by rw [hphase]; rfl)).2
  exact h.of_owner (hk.invalidate hphase) nofun nofun nofun (fun _ => nofun) (fun _ => hclean) nofun

omit h in
theorem Inv.iput (h : s.Inv) (hidle : s.phase p = .idle)
    (huse : (if (s.table k).lock = some p then 1 else 0) < s.held p k)
    (hput : s.iput p k = .ok s') : s'.Inv := by
  unfold State.iput at hput
  have hpos : 0 < s.held p k := lt_of_le_of_lt (zero_le) huse
  split_ifs at hput with hlast hlock
  · cases hput
    exact h.acquire hidle hpos (not_not.1 hlock) rfl nofun (.inl hlast.2.1)
  · cases hput
    rw [← unshare_setPhase hidle]
    refine h.recount (h.recount_unshare (.inr hidle) hpos) fun hl => ?_
    rw [if_pos hl] at huse
    exact Nat.sub_pos_of_lt huse

/-- The references are counted, so nobody else is at an entry whose last reference `p` has. -/
theorem InvAt.unlocked_of_last (hlast : (s.table k).ref = 1)
    (huse : (if (s.table k).lock = some p then 1 else 0) < s.held p k) :
    (s.table k).lock = none := by
  cases hl : (s.table k).lock with
  | none => rfl
  | some q =>
    have hq := (h.locked q hl).1
    have hle := h.held_le p
    by_cases hqp : q = p
    · subst hqp
      rw [if_pos hl] at huse
      omega
    · have htwo := h.held_two hqp hq (lt_of_le_of_lt (zero_le) huse)
      omega

theorem InvAt.iput_acquires (huse : (if (s.table k).lock = some p then 1 else 0) < s.held p k) :
    s.iput p k ≠ .error .iputBlocks := by
  unfold State.iput
  split_ifs with hlast hlock
  · exact absurd (h.unlocked_of_last hlast.1 huse) hlock
  all_goals nofun

end

/-- The sleep-lock of the entry that `iput` frees is free. -/
theorem Inv.step_acquires {ninodes : Nat} {op : Op} (h : s.Inv) (huse : Uses s (p, op)) :
    step ninodes s (p, op) ≠ .error .iputBlocks := by
  cases hphase : s.phase p with
  | idle =>
    simp only [step, hphase]
    cases op with
    | iput k => exact (h.at_ k).iput_acquires (huse hphase)
    | iget dev inum =>
      simp only [call, State.iget]
      split
      · nofun
      · split <;> nofun
    | ilock k =>
      simp only [call, State.ilock]
      split_ifs <;> nofun
    | iunlock k =>
      simp only [call, State.iunlock]
      split_ifs <;> nofun
    | _ => nofun
  | alloced dev inum =>
    simp only [step, hphase, next, State.iget]
    split
    · nofun
    · rename_i e he
      split at he
      · cases he
      · split at he <;> cases he
        nofun
  | ilock k =>
    simp only [step, hphase, next, State.ilockRead]
    split_ifs <;> nofun
  | _ =>
    simp only [step, hphase, next]
    nofun

theorem Inv.drop (h : s.Inv) (hphase : s.phase p = .drop k) :
    ((s.unshare p k).setPhase p .idle).Inv := by
  obtain ⟨hpos, hlock⟩ := (h.at_ k).dropping p hphase
  exact h.recount (h.recount_unshare (.inl hphase) hpos) fun hl => absurd hl hlock

theorem Inv.iallocLoop (h : s.Inv) {ninodes : Nat} {type : UInt16}
    (hphase : s.phase p = .ialloc dev type inum) : (s.iallocLoop ninodes p dev type inum).Inv := by
  have hslot : (s.phase p).slot = none := by rw [hphase]; rfl
  unfold State.iallocLoop
  split_ifs with hlt hfree
  · refine h.of_free (p := p) rfl rfl rfl (fun q hq => update_of_ne hq _ _) hslot
      (by simp [setPhase, Phase.slot]) fun d i htype => ?_
    refine (setDisk_apply s dev inum _ d i).trans (if_neg fun hkey => ?_)
    rw [hkey.1, hkey.2] at htype
    exact htype hfree
  · exact h.of_free (p := p) rfl rfl rfl (fun q hq => update_of_ne hq _ _) hslot
      (by simp [setPhase, Phase.slot]) fun _ _ _ => rfl
  · exact h.of_free (p := p) rfl rfl rfl (fun q hq => update_of_ne hq _ _) hslot
      (by simp [setPhase, Phase.slot]) fun _ _ _ => rfl

theorem Inv.step {ninodes : Nat} {s s' : State P} {a : P × Op} (h : s.Inv) (huse : Uses s a)
    (hs : step ninodes s a = .ok s') : s'.Inv := by
  obtain ⟨p, op⟩ := a
  cases hphase : s.phase p with
  | idle =>
    simp only [Itable.step, hphase] at hs
    replace huse := huse hphase
    cases op with
    | iget dev inum =>
      have hi := h.iget (p := p) (by rw [hphase]; rfl) hs
      rwa [setPhase, iget_phase hs, ← hphase, update_eq_self, ← iget_phase hs] at hi
    | idup k =>
      cases hs
      exact h.recount (h.recount_idup hphase huse) fun _ => Nat.succ_pos _
    | ilock k =>
      simp only [call, State.ilock] at hs
      split_ifs at hs with href hlock
      cases hs
      exact h.acquire hphase huse (not_not.1 hlock) rfl nofun (.inr rfl)
    | modify k ip =>
      cases hs
      exact h.modify ip hphase huse
    | iupdate k =>
      cases hs
      exact h.iupdate hphase huse
    | iunlock k => exact h.iunlock hphase huse hs
    | ialloc dev type =>
      cases hs
      exact h.of_free (p := p) rfl rfl rfl (fun q hq => update_of_ne hq _ _)
        (by rw [hphase]; rfl) (by simp [setPhase, Phase.slot]) fun _ _ _ => rfl
    | iput k => exact h.iput hphase huse hs
    | go => cases hs
  | ialloc dev type inum =>
    simp only [Itable.step, hphase, next] at hs
    cases hs
    exact h.iallocLoop hphase
  | alloced dev inum =>
    simp only [Itable.step, hphase, next] at hs
    split at hs <;> cases hs
    rename_i hget
    exact h.iget (by rw [hphase]; rfl) hget
  | ilock k =>
    simp only [Itable.step, hphase, next] at hs
    exact h.ilockRead hphase hs
  | itrunc k =>
    simp only [Itable.step, hphase, next] at hs
    cases hs
    exact h.itrunc hphase
  | untype k =>
    simp only [Itable.step, hphase, next] at hs
    cases hs
    exact h.untype hphase
  | invalidate k =>
    simp only [Itable.step, hphase, next] at hs
    cases hs
    exact h.invalidate hphase
  | drop k =>
    simp only [Itable.step, hphase, next] at hs
    cases hs
    exact h.drop hphase

omit [DecidableEq P] in
theorem Inv.boot (disk : Nat → Nat → Dinode) : (boot disk : State P).Inv where
  at_ k := by
    refine ⟨?_, nofun, nofun, nofun, nofun, fun _ => rfl, nofun, nofun⟩
    exact (Finset.sum_const_zero (s := Finset.univ)).symm
  unique _ _ hj := absurd hj (lt_irrefl 0)

end State

end FogOS.Itable
