import FogOS.Refs.Counts

/-!
# The size of the inode table

`NOFILE`, `NFILE` and one `cwd` for each process allow more live inodes than `itable` has slots.
`iget` finds a slot as long as fewer than `NINODE` inodes are referred to.
-/

namespace FogOS.Refs

open Function Library Dialogue Protocol Fs Finset

namespace State

variable {s s₁ s' : State} {p : ProcSlot} {c : Choice} {o : Op} {r : o.Reply} {a : Act}

/-- An open file, a `cwd` or a call in progress refers to the inode. -/
def Referred (s : State) (k : InodeSlot) : Prop :=
  0 < (s.openFiles (.inode k)).card + (s.cwds k).card + s.inCalls (.inode k)

instance (s : State) (k : InodeSlot) : Decidable (s.Referred k) :=
  inferInstanceAs (Decidable (_ < _))

/-- The inodes, by device and number, that are referred to. -/
def liveInodes (s : State) : Finset (Nat × Nat) :=
  (Finset.univ.filter s.Referred).image fun k => ((s.inodes k).dev, (s.inodes k).inum)

/-- No inode has two live slots. -/
def Distinct (s : State) : Prop :=
  ∀ k k', 0 < (s.inodes k).ref → 0 < (s.inodes k').ref → (s.inodes k).dev = (s.inodes k').dev →
    (s.inodes k).inum = (s.inodes k').inum → k = k'

/-- A slot that is live already, with another count. -/
theorem Distinct.recount (h : Distinct s) {k : InodeSlot} (n : Nat) (hlive : 0 < (s.inodes k).ref) :
    Distinct (s.setInode k { s.inodes k with ref := n }) := by
  have hsame (j : InodeSlot) : 0 < ((s.setInode k { s.inodes k with ref := n }).inodes j).ref →
      0 < (s.inodes j).ref ∧
        ((s.setInode k { s.inodes k with ref := n }).inodes j).dev = (s.inodes j).dev ∧
        ((s.setInode k { s.inodes k with ref := n }).inodes j).inum = (s.inodes j).inum := by
    by_cases hj : j = k
    · subst hj
      intro _
      simp only [setInode, update_self, and_self, hlive]
    · simp only [setInode, update_of_ne hj, and_self, and_true, imp_self]
  intro i j hi hj hdev hinum
  obtain ⟨hi, hdevi, hinumi⟩ := hsame i hi
  obtain ⟨hj, hdevj, hinumj⟩ := hsame j hj
  exact h i j hi hj (hdevi.symm.trans (hdev.trans hdevj)) (hinumi.symm.trans (hinum.trans hinumj))

theorem Distinct.iget (h : Distinct s) {dev inum : Nat} {k : InodeSlot}
    (hget : s.iget dev inum = .ok (s₁, k)) : Distinct s₁ := by
  simp only [State.iget] at hget
  split at hget
  · rename_i j hfind
    cases hget
    have hlive := List.find?_some hfind
    simp only [Bool.and_eq_true, decide_eq_true_eq] at hlive
    exact h.recount _ hlive.1.1
  · rename_i hnone
    split at hget <;> cases hget
    have habsent (j : InodeSlot) (hj : 0 < (s.inodes j).ref) (hdev : (s.inodes j).dev = dev)
        (hinum : (s.inodes j).inum = inum) : False := by
      have := List.find?_eq_none.1 hnone j (List.mem_finRange j)
      simp [hj, hdev, hinum] at this
    intro i j hi hj hdev hinum
    by_cases hik : i = k
    · by_cases hjk : j = k
      · rw [hik, hjk]
      · simp only [hik, setInode, update_self, update_of_ne hjk] at hj hdev hinum
        exact (habsent j hj hdev.symm hinum.symm).elim
    · by_cases hjk : j = k
      · simp only [hjk, setInode, update_self, update_of_ne hik] at hi hdev hinum
        exact (habsent i hi hdev hinum).elim
      · simp only [setInode, update_of_ne hik, update_of_ne hjk] at hi hj hdev hinum
        exact h i j hi hj hdev hinum

theorem Distinct.exec (h : Distinct s) (hexec : s.exec p c o = .ok (s₁, r)) : Distinct s₁ := by
  have hframe := exec_frame hexec
  cases o with
  | iget dev inum => exact h.iget hexec
  | idup k | put k =>
    simp only [State.exec] at hexec
    split_ifs at hexec with hzero
    cases hexec
    exact h.recount _ (Nat.pos_of_ne_zero hzero)
  | _ =>
    rw [Distinct, hframe.inodes rfl]
    exact h

theorem Distinct.step (h : Distinct s) (hstep : step s a = .ok s') : Distinct s' := by
  cases a with
  | call p b =>
    simp only [Refs.step] at hstep
    split_ifs at hstep
    split at hstep <;> cases hstep
    exact h
  | go p c =>
    simp only [Refs.step] at hstep
    split_ifs at hstep
    split at hstep
    · cases hstep
    · split at hstep
      · rename_i hexec
        cases hstep
        have hnext := h.exec hexec
        exact hnext
      · cases hstep

theorem distinct_boot : Distinct boot := by
  have hzero (k : InodeSlot) (hk : 0 < (boot.inodes k).ref) : k.val = 0 := by
    by_contra hne
    have hfree : boot.inodes k = ⟨0, 0, 0⟩ := if_neg hne
    rw [hfree] at hk
    exact lt_irrefl 0 hk
  intro k k' hk hk' _ _
  exact Fin.ext ((hzero k hk).trans (hzero k' hk').symm)

/-- A full table: `NINODE` inodes are referred to. -/
theorem card_liveInodes (hi : Inv s) (hd : Distinct s) (hfull : s.freeInode = none) :
    s.liveInodes.card = ninode := by
  have hlive (k : InodeSlot) : 0 < (s.inodes k).ref := by
    have := List.find?_eq_none.1 hfull k (List.mem_finRange k)
    simpa [Nat.pos_iff_ne_zero] using this
  have hall : Finset.univ.filter s.Referred = Finset.univ := by
    refine filter_true_of_mem fun k _ => ?_
    rw [Referred, ← hi.counted.inode k]
    exact hlive k
  rw [liveInodes, hall, card_image_of_injective, card_univ, Fintype.card_fin]
  intro k k' hkk
  exact hd k k' (hlive k) (hlive k') (congrArg Prod.fst hkk) (congrArg Prod.snd hkk)

/-- An inode that is referred to has a slot. -/
theorem findInode_of_mem (hi : Inv s) {dev inum : Nat} (h : (dev, inum) ∈ s.liveInodes) :
    s.findInode dev inum ≠ none := by
  intro hnone
  obtain ⟨k, hk, heq⟩ := mem_image.1 h
  have hlive := (mem_filter.1 hk).2
  rw [Referred, ← hi.counted.inode k] at hlive
  have := List.find?_eq_none.1 hnone k (List.mem_finRange k)
  simp only [Prod.mk.injEq] at heq
  simp [hlive, heq.1, heq.2] at this

end State

/-- The inode that a call looks up next with `iget`. -/
def nextLookup : Call Int → Option (Nat × Nat)
  | .act (.iget dev inum) _ => some (dev, inum)
  | _ => none

def RoomFor (s : State) : Option (Nat × Nat) → Prop
  | some x => x ∈ s.liveInodes ∨ s.liveInodes.card < ninode
  | none => True

instance (s : State) : (x : Option (Nat × Nat)) → Decidable (RoomFor s x)
  | some _ => inferInstanceAs (Decidable (_ ∨ _))
  | none => .isTrue trivial

/-- A call that looks up an inode to which nothing refers finds fewer than `NINODE` inodes to which
something refers. -/
def Room (s : State) : Act → Prop
  | .call _ _ => True
  | .go p _ => RoomFor s (nextLookup (s.thread p))

instance (s : State) : (a : Act) → Decidable (Room s a)
  | .call _ _ => .isTrue trivial
  | .go p _ => inferInstanceAs (Decidable (RoomFor s (nextLookup (s.thread p))))

/-- `iget` finds a slot when there is room. -/
theorem iget_of_room {s : State} (hi : s.Inv) (hd : s.Distinct) {dev inum : Nat}
    (hroom : RoomFor s (some (dev, inum))) : s.iget dev inum ≠ .error .igetNoInodes := by
  intro h
  simp only [State.iget] at h
  split at h
  · cases h
  · rename_i hnone
    split at h
    · cases h
    · rename_i hfull
      rcases hroom with hmem | hcard
      · exact State.findInode_of_mem hi hmem hnone
      · rw [State.card_liveInodes hi hd hfull] at hcard
        exact absurd hcard (lt_irrefl _)

/-- Only `iget` panics with "iget: no inodes". -/
theorem lookup_of_exec_error {s : State} {p : ProcSlot} {c : Choice} {o : Op}
    (h : s.exec p c o = .error .igetNoInodes) :
    ∃ dev inum, o = .iget dev inum ∧ s.iget dev inum = .error .igetNoInodes := by
  cases o with
  | iget dev inum =>
    refine ⟨dev, inum, rfl, ?_⟩
    exact h
  | fileclose f =>
    simp only [State.exec, State.fileclose] at h
    split_ifs at h
    cases h
  | pipeclose pi w =>
    simp only [State.exec, State.pipeclose] at h
    split_ifs at h
    cases h
  | dirent dp =>
    simp only [State.exec, State.dirent] at h
    split_ifs at h
    cases h
  | useFile f =>
    simp only [State.exec, State.useFile] at h
    split at h
    · cases h
    all_goals
      split_ifs at h
      cases h
  | fdalloc f | filealloc =>
    simp only [State.exec] at h
    split at h <;> cases h
  | notInit | filedup _ | kalloc | idup _ | put _ | use _ | allocproc | reap =>
    simp only [State.exec] at h
    split_ifs at h
    cases h
  | _ => cases h

/-- The table is not full when `iget` needs a slot. -/
theorem step_ne_igetNoInodes {s : State} {a : Act} (hi : s.Inv) (hd : s.Distinct)
    (hroom : Room s a) : step s a ≠ .error .igetNoInodes := by
  intro h
  cases a with
  | call p b =>
    simp only [step] at h
    split_ifs at h
    · split at h <;> cases h
    · cases h
  | go p c =>
    simp only [step] at h
    split_ifs at h
    · split at h
      · cases h
      · rename_i o k hthread
        split at h
        · cases h
        · rename_i e hexec
          cases h
          obtain ⟨dev, inum, rfl, hget⟩ := lookup_of_exec_error hexec
          rw [Room, hthread] at hroom
          exact iget_of_room hi hd hroom hget
    · cases h

/-- `fork` by the first process, with child `q`. -/
def forks (q : ProcSlot) : List Act :=
  .call initproc .fork :: .go initproc ⟨true, 0, q⟩ :: List.replicate 21 (.go initproc no)

/-- `open` of the existing file with inode number `n` by process `p`. -/
def opensBy (p : ProcSlot) (n : Nat) : List Act :=
  .call p (.open ⟨true, 1⟩ 0) ::
    (List.replicate 3 no ++ yes n :: List.replicate 13 no).map (.go p)

/-- Four processes open fifty files, sixteen each at most. -/
def opensFifty : List Act :=
  forks 1 ++ forks 2 ++ forks 3 ++
    (List.range 50).flatMap fun i => opensBy (Fin.ofNat _ (i / 16)) (i + 2)

end FogOS.Refs
