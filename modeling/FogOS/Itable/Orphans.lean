import FogOS.Itable.Kept

/-!
# The last reference frees an inode without links

`iput` frees an inode when it finds its reference to be the last one, and then drops that reference
without another look at the entry. In between, the inode number can be allocated again and found at
the same entry. The new inode is lost when its own references go before the old one: their `iput`
sees two references and does not free it, and the old `ref--` does not look.
-/

namespace FogOS.Itable

open Function Library Fs

variable {P : Type} [DecidableEq P]

/-- A process that drops a reference has locked the inode since `ialloc` gave it the inode, and
when the inode has no links, no other process has still to drop the reference with which it freed
the entry. -/
def Settles (s : State P) (a : P × Op) : Prop :=
  s.phase a.1 = .idle →
    match a.2 with
    | .iput k => s.unread (s.table k).dev (s.table k).inum ≠ some a.1 ∧
        ((s.table k).valid = true → (s.table k).ip.nlink = 0 → ∀ q, s.phase q ≠ .drop k)
    | _ => True

instance [Fintype P] : ∀ (s : State P) (a : P × Op), Decidable (Settles s a)
  | s, (p, .iput k) => inferInstanceAs (Decidable (s.phase p = .idle →
      s.unread (s.table k).dev (s.table k).inum ≠ some p ∧
        ((s.table k).valid = true → (s.table k).ip.nlink = 0 → ∀ q, s.phase q ≠ .drop k)))
  | s, (p, .iget _ _) | s, (p, .idup _) | s, (p, .ilock _) | s, (p, .modify _ _)
  | s, (p, .iupdate _) | s, (p, .iunlock _) | s, (p, .ialloc _ _) | s, (p, .go) =>
    inferInstanceAs (Decidable (s.phase p = .idle → True))

namespace State

variable [Fintype P] {s s' : State P} {p : P} {k : Slot} {dev inum : Nat}

section

variable (h : s.Kept) (hi : s.Inv)

include h hi

theorem Kept.iget (hslot : (s.phase p).slot = none)
    (halloced : ∀ d i, s.phase p = .alloced d i → (dev, inum) = (d, i))
    (hget : s.iget p dev inum = .ok s') : (s'.setPhase p .idle).Kept := by
  rcases iget_cases hslot hget with ⟨k, hkey, hs⟩ | ⟨k, hs⟩
  · have hpos := hs.pos
    exact h.recount hs (fun hzero => by omega) (fun hzero => by omega)
      (fun d i hx => ⟨hkey.trans (halloced d i hx), by omega⟩) fun _ _ _ _ _ => by omega
  · exact h.recycle (hi.at_ k) hs halloced

theorem Kept.idup (hidle : s.phase p = .idle) (hpos : 0 < s.held p k) : (s.share p k).Kept := by
  have hs := hi.recount_idup hidle hpos
  have href := hs.pos
  refine h.recount hs (fun hzero => by omega) (fun hzero => by omega) (fun d i hx => ?_)
    fun _ _ _ _ _ => by omega
  rw [hidle] at hx
  cases hx

omit [DecidableEq P] in
/-- The entry in use for an on-disk inode without links is valid, until an `ilock` reads it. -/
theorem Kept.valid (hpos : 0 < (s.table k).ref)
    (htype : (s.dinode k).type ≠ 0) (hnlink : (s.dinode k).nlink = 0) :
    s.unread (s.table k).dev (s.table k).inum ≠ none ∨ (s.table k).valid = true ∧ s.Stable k := by
  refine (h.owned _ _ htype hnlink).imp_right fun ⟨j, href, hj, hvalid⟩ => ?_
  obtain rfl := hi.unique j k href hpos hj
  exact hvalid

theorem Kept.acquire {x : Phase} (hidle : s.phase p = .idle)
    (hpos : 0 < s.held p k) (hfree : (s.table k).lock = none) (hslot : x.slot = some k)
    (hdrop : x ≠ .drop k ∧ x ≠ .invalidate k)
    (hfrees : x.frees = some k → s.unread (s.table k).dev (s.table k).inum ≠ some p ∧
      ∀ q, (s.phase q).frees ≠ some k) :
    ((s.setEntry k { s.table k with lock := some p }).setPhase p x).Kept := by
  refine h.of_owner (hi.at_ k) (OwnerStep.acquire hidle hpos hfree hslot) (fun _ _ => .inl rfl)
    (fun htype hnlink => ?_) (fun hx => .inr (hfrees hx)) fun hx => absurd hx hdrop.1
  have href : 0 < (s.table k).ref := lt_of_lt_of_le hpos ((hi.at_ k).held_le p)
  exact (h.valid hi href htype hnlink).imp_right fun hv => ⟨hv.1, hdrop.2⟩

theorem Kept.ilockRead (hphase : s.phase p = .ilock k)
    (hread : s.ilockRead p k = .ok s') : s'.Kept := by
  obtain ⟨e, hs, hvalid, -⟩ := (hi.at_ k).ilockRead hphase hread
  refine h.of_owner (hi.at_ k) hs (fun d i => ?_) (fun _ _ => .inr ⟨hvalid, nofun⟩) nofun nofun
  unfold State.ilockRead at hread
  split_ifs at hread <;> cases hread
  · exact .inl rfl
  · by_cases hkey : d = (s.table k).dev ∧ i = (s.table k).inum
    · exact .inr ⟨(setUnread_apply _ _ _ _ d i).trans (if_pos hkey), Prod.ext hkey.1 hkey.2⟩
    · exact .inl ((setUnread_apply _ _ _ _ d i).trans (if_neg hkey))

theorem Kept.iput (hidle : s.phase p = .idle)
    (huse : (if (s.table k).lock = some p then 1 else 0) < s.held p k)
    (hread : s.unread (s.table k).dev (s.table k).inum ≠ some p)
    (hlate : (s.table k).valid = true → (s.table k).ip.nlink = 0 → ∀ q, s.phase q ≠ .drop k)
    (hput : s.iput p k = .ok s') : s'.Kept := by
  have hk := hi.at_ k
  have hpos : 0 < s.held p k := lt_of_le_of_lt (zero_le) huse
  unfold State.iput at hput
  split_ifs at hput with hlast hlock
  · cases hput
    refine h.acquire hi hidle hpos (not_not.1 hlock) rfl ⟨nofun, nofun⟩ fun _ => ⟨hread, ?_⟩
    -- Another process that frees the entry would have a second reference.
    intro q hq
    by_cases hqp : q = p
    · rw [hqp, hidle] at hq
      cases hq
    · have htwo := hk.held_two hqp (hk.held_of_frees hq) hpos
      omega
  · cases hput
    rw [← unshare_setPhase hidle]
    have hs := hi.recount_unshare (.inr hidle) hpos
    refine h.recount hs (fun hzero hvalid hstable hnlink => hlast ?_) (fun _ => hread)
      (fun d i hx => ?_) fun q _ hq hvalid hnlink => absurd hq (hlate hvalid hnlink q)
    · have href := hs.pos
      have hone : (s.table k).ref = 1 := by omega
      have hclean := hk.clean (hk.unlocked_of_last hone huse)
      refine ⟨hone, hvalid, ?_⟩
      rw [hk.coherent href hvalid hstable hclean, hnlink]
    · rw [hidle] at hx
      cases hx

theorem Kept.drop (hphase : s.phase p = .drop k) : ((s.unshare p k).setPhase p .idle).Kept := by
  have hk := hi.at_ k
  obtain ⟨hpos, hlock⟩ := hk.dropping p hphase
  have hs := hi.recount_unshare (.inl hphase) hpos
  have hfrees : (s.phase p).frees = some k := by rw [hphase]; rfl
  refine h.recount hs (fun hzero hvalid hstable hnlink => ?_) (fun _ => h.freed p k hfrees)
    (fun d i hx => ?_) fun q hqp hq _ _ => absurd (h.alone q p k (by rw [hq]; rfl) hfrees) hqp
  · have href := hs.pos
    have hone : (s.table k).ref = 1 := by omega
    have hclean := hk.clean (hk.unlocked_of_last hone (by rw [if_neg hlock]; exact hpos))
    have htwo := h.late p k hphase hvalid (by
      rw [hk.coherent href hvalid hstable hclean, hnlink])
    omega
  · rw [hphase] at hx
    cases hx

end

omit [Fintype P] in
theorem Kept.iallocLoop (h : s.Kept) {ninodes : Nat} {type : UInt16}
    (hphase : s.phase p = .ialloc dev type inum) : (s.iallocLoop ninodes p dev type inum).Kept := by
  have halloced : ∀ d i, s.phase p ≠ .alloced d i := fun d i => by rw [hphase]; nofun
  unfold State.iallocLoop
  split_ifs with hlt hfree
  · refine h.of_free (x := .alloced dev inum) rfl rfl rfl rfl halloced fun d i => ?_
    by_cases hkey : d = dev ∧ i = inum
    · obtain ⟨rfl, rfl⟩ := hkey
      exact .inr ⟨(setUnread_apply _ d i _ d i).trans (if_pos ⟨rfl, rfl⟩), rfl⟩
    · exact .inl ⟨(setDisk_apply s dev inum _ d i).trans (if_neg hkey),
        (setUnread_apply _ dev inum _ d i).trans (if_neg hkey)⟩
  · exact h.of_free rfl rfl rfl rfl halloced fun _ _ => .inl ⟨rfl, rfl⟩
  · exact h.of_free rfl rfl rfl rfl halloced fun _ _ => .inl ⟨rfl, rfl⟩

theorem Kept.step {ninodes : Nat} {a : P × Op} (h : s.Kept) (hi : s.Inv) (huse : Uses s a)
    (hset : Settles s a) (hs : Itable.step ninodes s a = .ok s') : s'.Kept := by
  obtain ⟨p, op⟩ := a
  cases hphase : s.phase p with
  | idle =>
    simp only [Itable.step, hphase] at hs
    replace huse := huse hphase
    cases op with
    | iget dev inum =>
      have hget := h.iget hi (p := p) (by rw [hphase]; rfl)
        (fun d i hx => by rw [hphase] at hx; cases hx) hs
      rwa [setPhase, iget_phase hs, ← hphase, update_eq_self, ← iget_phase hs] at hget
    | idup k =>
      cases hs
      exact h.idup hi hphase huse
    | ilock k =>
      simp only [call, State.ilock] at hs
      split_ifs at hs with href hlock
      cases hs
      exact h.acquire hi hphase huse (not_not.1 hlock) rfl ⟨by simp, by simp⟩ (by rintro ⟨⟩)
    | modify k ip =>
      cases hs
      have hvalid := (hi.at_ k).owner_valid huse (by rw [hphase]; simp)
      exact h.of_owner (hi.at_ k) ((hi.at_ k).modify ip hphase huse) (fun _ _ => .inl rfl)
        (fun _ _ => .inr ⟨hvalid, by simp⟩) (by rintro ⟨⟩) (by simp)
    | iupdate k =>
      cases hs
      have hvalid := (hi.at_ k).owner_valid huse (by rw [hphase]; simp)
      exact h.of_owner (hi.at_ k) ((hi.at_ k).iupdate hphase huse) (fun _ _ => .inl rfl)
        (fun _ _ => .inr ⟨hvalid, by simp⟩) (by rintro ⟨⟩) (by simp)
    | iunlock k =>
      obtain ⟨hlock, hown⟩ := (hi.at_ k).iunlock hphase hs
      have hvalid := (hi.at_ k).owner_valid hlock (by rw [hphase]; simp)
      refine h.of_owner (hi.at_ k) hown (fun _ _ => ?_) (fun _ _ => .inr ⟨hvalid, by simp⟩)
        (by rintro ⟨⟩) (by simp)
      simp only [call, State.iunlock] at hs
      split_ifs at hs
      cases hs
      exact .inl rfl
    | ialloc dev type =>
      cases hs
      exact h.of_free (p := p) rfl rfl rfl rfl (fun d i => by rw [hphase]; simp)
        fun _ _ => .inl ⟨rfl, rfl⟩
    | iput k => exact h.iput hi hphase huse (hset hphase).1 (hset hphase).2 hs
    | go => cases hs
  | ialloc dev type inum =>
    simp only [Itable.step, hphase, next] at hs
    cases hs
    exact h.iallocLoop hphase
  | alloced dev inum =>
    simp only [Itable.step, hphase, next] at hs
    split at hs <;> cases hs
    rename_i hget
    exact h.iget hi (by rw [hphase]; rfl) (fun d i hx => by rw [hphase] at hx; cases hx; rfl) hget
  | ilock k =>
    simp only [Itable.step, hphase, next] at hs
    exact h.ilockRead hi hphase hs
  | itrunc k =>
    simp only [Itable.step, hphase, next] at hs
    cases hs
    have hk := hi.at_ k
    have hvalid := hk.owner_valid (hk.freeing p (by rw [hphase]; rfl)).1 (by rw [hphase]; simp)
    exact h.of_owner hk (hk.itrunc hphase) (fun _ _ => .inl rfl)
      (fun _ _ => .inr ⟨hvalid, by simp⟩) (fun _ => .inl (by rw [hphase]; rfl)) (by simp)
  | untype k =>
    simp only [Itable.step, hphase, next] at hs
    cases hs
    have hk := hi.at_ k
    exact h.of_owner hk (hk.untype hphase) (fun _ _ => .inl rfl)
      (fun htype _ => absurd rfl htype) (fun _ => .inl (by rw [hphase]; rfl)) (by simp)
  | invalidate k =>
    simp only [Itable.step, hphase, next] at hs
    cases hs
    have hk := hi.at_ k
    have hown := hk.invalidate hphase
    refine h.of_owner hk hown (fun _ _ => .inl rfl) (fun htype hnlink => .inl ?_)
      (fun _ => .inl (by rw [hphase]; rfl)) fun _ => rfl
    -- The entry is about to lose `valid`, so the inode is one just allocated.
    have href : 0 < (s.table k).ref := lt_of_lt_of_le hown.pos (hk.held_le p)
    exact (h.valid hi href htype hnlink).resolve_right fun hv => hv.2 p hphase
  | drop k =>
    simp only [Itable.step, hphase, next] at hs
    cases hs
    exact h.drop hi hphase

omit [DecidableEq P] [Fintype P] in
theorem Kept.boot {disk : Nat → Nat → Dinode}
    (hdisk : ∀ d i, (disk d i).type ≠ 0 → (disk d i).nlink ≠ 0) :
    (Itable.boot disk : State P).Kept :=
  ⟨fun d i htype hnlink => absurd hnlink (hdisk d i htype), nofun, nofun, nofun, nofun⟩

end State

section Runs

variable [Fintype P] {ninodes : Nat} {disk : Nat → Nat → Dinode} {as : List (P × Op)} {s : State P}

theorem inv_run (hg : Guarded (step ninodes) Uses (boot disk) as)
    (h : run (step ninodes) (boot disk) as = .ok s) : s.Inv := by
  have hstep : ∀ (s : State P) (a : P × Op) (s' : State P), s.Inv → Uses s a →
      step ninodes s a = .ok s' → s'.Inv := fun s a s' hi huse hs => hi.step huse hs
  exact run_invariant hstep (State.Inv.boot disk) hg h

theorem kept_run (hdisk : ∀ d i, (disk d i).type ≠ 0 → (disk d i).nlink ≠ 0)
    (hg : Guarded (step ninodes) (fun s a => Uses s a ∧ Settles s a) (boot disk) as)
    (h : run (step ninodes) (boot disk) as = .ok s) : s.Inv ∧ s.Kept := by
  have hstep : ∀ (s : State P) (a : P × Op) (s' : State P), s.Inv ∧ s.Kept →
      Uses s a ∧ Settles s a → step ninodes s a = .ok s' → s'.Inv ∧ s'.Kept :=
    fun s a s' hi hu hs => ⟨hi.1.step hu.1 hs, hi.2.step hi.1 hu.1 hu.2 hs⟩
  exact run_invariant hstep ⟨State.Inv.boot disk, State.Kept.boot hdisk⟩ hg h

end Runs

instance : NeZero ninode := ⟨by decide⟩

/-- One file, with number 1. -/
def oneFile (dev inum : Nat) : Dinode :=
  if dev = 1 ∧ inum = 1 then { Dinode.zero with type := 2, nlink := 1 } else .zero

theorem oneFile_linked (d i : Nat) (htype : (oneFile d i).type ≠ 0) : (oneFile d i).nlink ≠ 0 := by
  unfold oneFile at htype ⊢
  split_ifs at htype ⊢
  · decide
  · exact absurd rfl htype

/-- The first process unlinks the file and is in `iput`, before its last `ref--`. -/
def unlinkRun : List (Fin 2 × Op) :=
  [.iget 1 1, .ilock 0, .go, .modify 0 .zero, .iupdate 0, .iunlock 0, .iput 0, .go, .go, .go].map
    (0, ·)

/-- The second process allocates the number again, gives the inode a link and takes it back. -/
def createRun : List (Fin 2 × Op) :=
  [.ialloc 1 2, .go, .go, .ilock 0, .go, .modify 0 { Dinode.zero with nlink := 1 }, .iupdate 0,
    .modify 0 .zero, .iupdate 0, .iunlock 0].map (1, ·)

end FogOS.Itable
