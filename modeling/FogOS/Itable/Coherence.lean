import FogOS.Itable.Model
import FogOS.Library.Count

/-!
# The inode table agrees with the disk

The invariant counts the references, gives each sleep-lock to a process with a reference, and says
that a valid entry that is not being changed is the on-disk inode. A process that frees an inode
keeps the sleep-lock until the entry is not valid, so whoever locks the entry next reads the disk.
-/

namespace FogOS.Itable

open Function Library Fs Finset

variable {P : Type} [DecidableEq P]

namespace Phase

/-- The entry that a process frees with its sleep-lock held. -/
def freeing : Phase → Option Slot
  | itrunc k => some k
  | untype k => some k
  | invalidate k => some k
  | _ => none

/-- The entry that a process is at. -/
def slot : Phase → Option Slot
  | ilock k => some k
  | itrunc k => some k
  | untype k => some k
  | invalidate k => some k
  | drop k => some k
  | _ => none

end Phase

namespace State

variable (s : State P)

/-- Device and number of the inode of an entry. -/
def key (k : Slot) : Nat × Nat := ((s.table k).dev, (s.table k).inum)

/-- No process is about to clear `valid`. -/
def Stable (k : Slot) : Prop := ∀ p, s.phase p ≠ .invalidate k

/-- What holds of one entry. -/
structure InvAt [Fintype P] (s : State P) (k : Slot) : Prop where
  refs : (s.table k).ref = ∑ p, s.held p k
  locked : ∀ p, (s.table k).lock = some p → 0 < s.held p k ∧
    ((s.table k).valid = true ∨ s.phase p = .ilock k)
  reading : ∀ p, s.phase p = .ilock k → (s.table k).lock = some p ∧ s.dirty k = false
  freeing : ∀ p, (s.phase p).freeing = some k → (s.table k).lock = some p ∧ s.dirty k = false
  dropping : ∀ p, s.phase p = .drop k → 0 < s.held p k ∧ (s.table k).lock ≠ some p
  clean : (s.table k).lock = none → s.dirty k = false
  coherent : 0 < (s.table k).ref → (s.table k).valid = true → s.Stable k →
    s.dirty k = false → (s.table k).ip = s.dinode k
  typed : 0 < (s.table k).ref → (s.table k).valid = true → s.Stable k →
    (s.table k).ip.type ≠ 0 ∧ (s.dinode k).type = (s.table k).ip.type

structure Inv [Fintype P] (s : State P) : Prop where
  at_ : ∀ k, s.InvAt k
  unique : ∀ j k, 0 < (s.table j).ref → 0 < (s.table k).ref → s.key j = s.key k → j = k

section Frame

variable [Fintype P] {s s' : State P} {p : P} {j k : Slot}

/-- A step of `p` at other entries leaves what holds of this one. -/
theorem InvAt.of_frame (h : s.InvAt j) (htable : s'.table j = s.table j)
    (hheld : ∀ q, s'.held q j = s.held q j) (hdirty : s'.dirty j = s.dirty j)
    (hphase : ∀ q, q ≠ p → s'.phase q = s.phase q) (hold : (s.phase p).slot ≠ some j)
    (hnew : (s'.phase p).slot ≠ some j)
    (hdisk : 0 < (s.table j).ref → (s.table j).valid = true → s.Stable j →
      s'.dinode j = s.dinode j) : s'.InvAt j := by
  have hstable : s'.Stable j → s.Stable j := by
    intro hs q hq
    by_cases hqp : q = p
    · subst hqp
      rw [hq] at hold
      exact hold rfl
    · exact hs q ((hphase q hqp).trans hq)
  refine ⟨?_, ?_, ?_, ?_, ?_, ?_, ?_, ?_⟩
  · simp only [htable, hheld]
    exact h.refs
  · intro q hq
    rw [htable] at hq ⊢
    rw [hheld]
    refine ⟨(h.locked q hq).1, (h.locked q hq).2.imp id fun hread => ?_⟩
    by_cases hqp : q = p
    · subst hqp
      rw [hread] at hold
      exact absurd rfl hold
    · rw [hphase q hqp, hread]
  · intro q hq
    by_cases hqp : q = p
    · subst hqp
      rw [hq] at hnew
      exact absurd rfl hnew
    · rw [htable, hdirty]
      exact h.reading q ((hphase q hqp).symm.trans hq)
  · intro q hq
    by_cases hqp : q = p
    · cases hx : s'.phase q <;> simp_all [Phase.freeing, Phase.slot]
    · rw [htable, hdirty]
      exact h.freeing q (by rw [← hphase q hqp, hq])
  · intro q hq
    by_cases hqp : q = p
    · subst hqp
      rw [hq] at hnew
      exact absurd rfl hnew
    · rw [htable, hheld]
      exact h.dropping q ((hphase q hqp).symm.trans hq)
  · rw [htable, hdirty]
    exact h.clean
  · rw [htable, hdirty]
    intro href hvalid hs hclean
    rw [hdisk href hvalid (hstable hs)]
    exact h.coherent href hvalid (hstable hs) hclean
  · rw [htable]
    intro href hvalid hs
    rw [hdisk href hvalid (hstable hs)]
    exact h.typed href hvalid (hstable hs)

/-- A step of `p` at entry `k`. -/
theorem Inv.of_local (h : s.Inv) (htable : ∀ j, j ≠ k → s'.table j = s.table j)
    (hheld : ∀ q j, j ≠ k → s'.held q j = s.held q j) (hdirty : ∀ j, j ≠ k → s'.dirty j = s.dirty j)
    (hphase : ∀ q, q ≠ p → s'.phase q = s.phase q) (hold : ∀ j, j ≠ k → (s.phase p).slot ≠ some j)
    (hnew : ∀ j, j ≠ k → (s'.phase p).slot ≠ some j)
    (hdisk : ∀ j, j ≠ k → 0 < (s.table j).ref → s'.dinode j = s.dinode j)
    (hunique : 0 < (s'.table k).ref → ∀ j, j ≠ k → 0 < (s.table j).ref → s.key j ≠ s'.key k)
    (hk : s'.InvAt k) : s'.Inv := by
  have hkey : ∀ j, j ≠ k → s'.key j = s.key j := fun j hj => by simp only [key, htable j hj]
  refine ⟨fun j => ?_, fun i j hi hj hij => ?_⟩
  · by_cases hj : j = k
    · subst hj
      exact hk
    · exact (h.at_ j).of_frame (htable j hj) (fun q => hheld q j hj) (hdirty j hj) hphase
        (hold j hj) (hnew j hj) fun href _ _ => hdisk j hj href
  · by_cases hik : i = k <;> by_cases hjk : j = k
    · rw [hik, hjk]
    · subst hik
      rw [htable j hjk] at hj
      rw [hkey j hjk] at hij
      exact absurd hij.symm (hunique hi j hjk hj)
    · subst hjk
      rw [htable i hik] at hi
      rw [hkey i hik] at hij
      exact absurd hij (hunique hj i hik hi)
    · rw [htable i hik] at hi
      rw [htable j hjk] at hj
      rw [hkey i hik, hkey j hjk] at hij
      exact h.unique i j hi hj hij

end Frame

section References

variable [Fintype P] {s s' : State P} {p q : P} {j k : Slot}

omit [DecidableEq P] in
theorem InvAt.held_le (h : s.InvAt k) (q : P) : s.held q k ≤ (s.table k).ref := by
  rw [h.refs]
  exact single_le_sum (f := fun q => s.held q k) (fun _ _ => zero_le) (mem_univ q)

/-- Two processes with pointers to an entry have two references. -/
theorem InvAt.held_two (h : s.InvAt k) (hne : p ≠ q) (hp : 0 < s.held p k) (hq : 0 < s.held q k) :
    2 ≤ (s.table k).ref := by
  have hsum : ∑ x ∈ {p, q}, s.held x k ≤ ∑ x, s.held x k :=
    sum_le_sum_of_subset (subset_univ _)
  rw [sum_pair hne] at hsum
  rw [h.refs]
  omega

/-- Process `p` adds or drops a reference to entry `k` in use: `r` references are left, `n` of
them its own. -/
structure Recount (s s' : State P) (p : P) (k : Slot) (r n : Nat) : Prop where
  table : s'.table = update s.table k { s.table k with ref := r }
  held : ∀ q j, s'.held q j = if q = p ∧ j = k then n else s.held q j
  dirty : s'.dirty = s.dirty
  disk : s'.disk = s.disk
  unread : s'.unread = s.unread
  phase : s'.phase = update s.phase p .idle
  slot : s.phase p = .drop k ∨ (s.phase p).slot = none
  count : r + s.held p k = (s.table k).ref + n
  pos : 0 < (s.table k).ref

theorem Inv.recount (h : s.Inv) {r n : Nat} (hs : Recount s s' p k r n)
    (hlock : (s.table k).lock = some p → 0 < n) : s'.Inv := by
  obtain ⟨htable, hheld, hdirty, hdisk, -, hphase, hslot, hr, hpos⟩ := hs
  have hk := h.at_ k
  have hself : s'.table k = { s.table k with ref := r } := by rw [htable, update_self]
  obtain ⟨hidle, hother⟩ := eq_update_iff.mp hphase
  have hdinode : s'.dinode k = s.dinode k := by
    simp only [dinode, hself, hdisk]
  have hstable : s'.Stable k → s.Stable k := by
    intro hs q hq
    by_cases hqp : q = p
    · subst hqp
      rcases hslot with hx | hx <;> simp [hq, Phase.slot] at hx
    · exact hs q ((hother q hqp).trans hq)
  refine h.of_local (p := p) (k := k) (fun j hj => by rw [htable, update_of_ne hj])
    (fun q j hj => by simp [hheld, hj]) (fun j _ => by rw [hdirty]) hother ?_
    (fun j _ => by rw [hidle]; nofun) ?_ ?_ ⟨?_, ?_, ?_, ?_, ?_, ?_, ?_, ?_⟩
  · intro j hj hx
    rcases hslot with hdrop | hnone
    · rw [hdrop] at hx
      exact hj (Option.some.inj hx).symm
    · rw [hnone] at hx
      cases hx
  · intro j hj _
    simp only [dinode, htable, update_of_ne hj, hdisk]
  · intro _ j hj href hkey
    refine hj (h.unique j k href hpos (hkey.trans ?_))
    simp only [key, hself]
  · have hsum := sum_change (f := fun q => s.held q k) (g := fun q => s'.held q k)
      (mem_univ p) fun q hq => by simp [hheld, hq]
    simp only [hheld p k, and_self, if_true] at hsum
    have href := hk.refs
    rw [hself]
    show r = ∑ q, s'.held q k
    omega
  · intro q hq
    rw [hself] at hq
    obtain ⟨hpos', hvalid⟩ := hk.locked q hq
    by_cases hqp : q = p
    · subst hqp
      refine ⟨by simpa [hheld] using hlock hq, .inl ?_⟩
      rw [hself]
      refine hvalid.resolve_right fun hx => ?_
      rcases hslot with hx' | hx' <;> simp [hx, Phase.slot] at hx'
    · refine ⟨by simpa [hheld, hqp] using hpos', ?_⟩
      rw [hself, hother q hqp]
      exact hvalid
  · intro q hq
    by_cases hqp : q = p
    · subst hqp
      rw [hidle] at hq
      cases hq
    · rw [hself, hdirty]
      exact hk.reading q ((hother q hqp).symm.trans hq)
  · intro q hq
    by_cases hqp : q = p
    · subst hqp
      rw [hidle] at hq
      cases hq
    · rw [hself, hdirty]
      exact hk.freeing q (by rw [← hother q hqp, hq])
  · intro q hq
    by_cases hqp : q = p
    · subst hqp
      rw [hidle] at hq
      cases hq
    · rw [hself, hheld, if_neg (by simp [hqp])]
      exact hk.dropping q ((hother q hqp).symm.trans hq)
  · rw [hself, hdirty]
    exact hk.clean
  · rw [hself, hdirty, hdinode]
    exact fun _ hvalid hs => hk.coherent hpos hvalid (hstable hs)
  · rw [hself, hdinode]
    exact fun _ hvalid hs => hk.typed hpos hvalid (hstable hs)

/-- `iget` takes an entry that is not in use. -/
structure Recycle (s s' : State P) (p : P) (k : Slot) (dev inum : Nat) : Prop where
  table : s'.table = update s.table k
    { s.table k with dev := dev, inum := inum, ref := 1, valid := false }
  held : ∀ q j, s'.held q j = if q = p ∧ j = k then s.held p k + 1 else s.held q j
  dirty : s'.dirty = s.dirty
  disk : s'.disk = s.disk
  unread : s'.unread = s.unread
  phase : s'.phase = update s.phase p .idle
  slot : (s.phase p).slot = none
  free : (s.table k).ref = 0
  new : ∀ j, 0 < (s.table j).ref → s.key j ≠ (dev, inum)

theorem Inv.recycle (h : s.Inv) {dev inum : Nat} (hs : Recycle s s' p k dev inum) : s'.Inv := by
  obtain ⟨htable, hheld, hdirty, hdisk, -, hphase, hslot, hfree, hnew⟩ := hs
  have hk := h.at_ k
  have hself : s'.table k =
      { s.table k with dev := dev, inum := inum, ref := 1, valid := false } := by
    rw [htable, update_self]
  obtain ⟨hidle, hother⟩ := eq_update_iff.mp hphase
  -- Nobody has a pointer to the entry.
  have hzero : ∀ q, s.held q k = 0 := by
    intro q
    have hle := hk.held_le q
    omega
  have hunlocked : (s.table k).lock = none := by
    cases hl : (s.table k).lock with
    | none => rfl
    | some q =>
      have hpos := (hk.locked q hl).1
      rw [hzero] at hpos
      exact absurd hpos (lt_irrefl 0)
  refine h.of_local (p := p) (k := k) (fun j hj => by rw [htable, update_of_ne hj])
    (fun q j hj => by simp [hheld, hj]) (fun j _ => by rw [hdirty]) hother
    (fun j _ => by rw [hslot]; nofun) (fun j _ => by rw [hidle]; nofun) ?_ ?_
    ⟨?_, ?_, ?_, ?_, ?_, ?_, ?_, ?_⟩
  · intro j hj _
    simp only [dinode, htable, update_of_ne hj, hdisk]
  · intro _ j _ href
    simpa [key, hself] using hnew j href
  · have hsum := sum_change (f := fun q => s.held q k) (g := fun q => s'.held q k)
      (mem_univ p) fun q hq => by simp [hheld, hq]
    simp only [hheld p k, and_self, if_true] at hsum
    have href := hk.refs
    rw [hself]
    show 1 = ∑ q, s'.held q k
    omega
  · intro q hq
    rw [hself] at hq
    rw [hunlocked] at hq
    cases hq
  · intro q hq
    by_cases hqp : q = p
    · subst hqp
      rw [hidle] at hq
      cases hq
    · have hlock := (hk.reading q ((hother q hqp).symm.trans hq)).1
      rw [hunlocked] at hlock
      cases hlock
  · intro q hq
    by_cases hqp : q = p
    · subst hqp
      rw [hidle] at hq
      cases hq
    · have hlock := (hk.freeing q (by rw [← hother q hqp, hq])).1
      rw [hunlocked] at hlock
      cases hlock
  · intro q hq
    by_cases hqp : q = p
    · subst hqp
      rw [hidle] at hq
      cases hq
    · have hpos := (hk.dropping q ((hother q hqp).symm.trans hq)).1
      rw [hzero] at hpos
      exact absurd hpos (lt_irrefl 0)
  · rw [hself, hdirty]
    exact hk.clean
  · rw [hself]
    nofun
  · rw [hself]
    nofun

end References

section Locks

variable [Fintype P] {s s' : State P} {p : P} {k : Slot}

omit [DecidableEq P] in
/-- Only the holder of the sleep-lock is about to clear `valid`. -/
theorem InvAt.stable (h : s.InvAt k) (hown : ∀ q, (s.table k).lock = some q → q = p)
    (hphase : s.phase p ≠ .invalidate k) : s.Stable k := by
  intro q hq
  have hlock := (h.freeing q (by rw [hq]; rfl)).1
  exact hphase (hown q hlock ▸ hq)

/-- Process `p`, with a reference, takes the sleep-lock of entry `k`, works on the entry and its
on-disk inode, or releases the sleep-lock. The entry is then `e`, the on-disk inode `v`, and the
process goes on at `x`. -/
structure OwnerStep (s s' : State P) (p : P) (k : Slot) (e : Entry P) (x : Phase) (b : Bool)
    (v : Dinode) : Prop where
  table : s'.table = update s.table k e
  held : s'.held = s.held
  dirty : s'.dirty = update s.dirty k b
  phase : s'.phase = update s.phase p x
  disk : ∀ d i, s'.disk d i =
    if d = (s.table k).dev ∧ i = (s.table k).inum then v else s.disk d i
  dev : e.dev = (s.table k).dev
  inum : e.inum = (s.table k).inum
  ref : e.ref = (s.table k).ref
  old : s.phase p = .idle ∨ (s.phase p).slot = some k
  new : x = .idle ∨ x.slot = some k
  pos : 0 < s.held p k
  own : ∀ q, (s.table k).lock = some q → q = p
  own' : ∀ q, e.lock = some q → q = p

theorem Inv.of_owner (h : s.Inv) {e : Entry P} {x : Phase} {b : Bool} {v : Dinode}
    (hs : OwnerStep s s' p k e x b v)
    (hlocked : e.lock = some p → e.valid = true ∨ x = .ilock k)
    (hread : x = .ilock k → e.lock = some p ∧ b = false)
    (hfree : x.freeing = some k → e.lock = some p ∧ b = false)
    (hdrop : x = .drop k → e.lock ≠ some p) (hclean : e.lock = none → b = false)
    (hcoherent : e.valid = true → x ≠ .invalidate k →
      (b = false → e.ip = v) ∧ e.ip.type ≠ 0 ∧ v.type = e.ip.type) : s'.Inv := by
  obtain ⟨htable, hheld, hdirty, hphase, hdisk, hdev, hinum, href, hold, hnew, hpos, hown,
    hown'⟩ := hs
  have hk := h.at_ k
  obtain ⟨hself, htable'⟩ := eq_update_iff.mp htable
  obtain ⟨hx, hother⟩ := eq_update_iff.mp hphase
  have hb : s'.dirty k = b := by rw [hdirty, update_self]
  have hv : s'.dinode k = v := by simp [dinode, hself, hdev, hinum, hdisk]
  have hkey : s'.key k = s.key k := by simp only [key, hself, hdev, hinum]
  have hslot : ∀ y : Phase, (y = .idle ∨ y.slot = some k) → ∀ j, j ≠ k → y.slot ≠ some j := by
    rintro y (hy | hy) j hj <;> rw [hy]
    · nofun
    · exact fun hkj => hj (Option.some.inj hkj).symm
  have hdistinct : ∀ j, j ≠ k → 0 < (s.table j).ref → s.key j ≠ s.key k := fun j hj hr hkj =>
    hj (h.unique j k hr (lt_of_lt_of_le hpos (hk.held_le p)) hkj)
  refine h.of_local htable' (fun q j _ => by rw [hheld])
    (fun j hj => by rw [hdirty, update_of_ne hj]) hother (hslot _ hold)
    (by rw [hx]; exact hslot _ hnew) (fun j hj hr => ?_)
    (fun _ j hj hr => by rw [hkey]; exact hdistinct j hj hr) ⟨?_, ?_, ?_, ?_, ?_, ?_, ?_, ?_⟩
  · simp only [dinode, htable' j hj, hdisk]
    exact if_neg fun hkj => hdistinct j hj hr (Prod.ext hkj.1 hkj.2)
  · rw [hself, href, hheld]
    exact hk.refs
  · intro q hq
    rw [hself] at hq ⊢
    obtain rfl := hown' q hq
    rw [hheld, hx]
    exact ⟨hpos, hlocked hq⟩
  · intro q hq
    rw [hself, hb]
    by_cases hqp : q = p
    · subst hqp
      exact hread (hx.symm.trans hq)
    · exact absurd (hown q (hk.reading q ((hother q hqp).symm.trans hq)).1) hqp
  · intro q hq
    rw [hself, hb]
    by_cases hqp : q = p
    · subst hqp
      rw [hx] at hq
      exact hfree hq
    · exact absurd (hown q (hk.freeing q (by rw [← hother q hqp, hq])).1) hqp
  · intro q hq
    rw [hself, hheld]
    by_cases hqp : q = p
    · subst hqp
      exact ⟨hpos, hdrop (hx.symm.trans hq)⟩
    · exact ⟨(hk.dropping q ((hother q hqp).symm.trans hq)).1, fun hlock => hqp (hown' q hlock)⟩
  · rw [hself, hb]
    exact hclean
  · rw [hself, hb, hv]
    exact fun _ hvalid hs => (hcoherent hvalid (hx ▸ hs p)).1
  · rw [hself, hv]
    exact fun _ hvalid hs => (hcoherent hvalid (hx ▸ hs p)).2

/-- A step at no entry writes free on-disk inodes only. -/
theorem Inv.of_free (h : s.Inv) (htable : s'.table = s.table) (hheld : s'.held = s.held)
    (hdirty : s'.dirty = s.dirty) (hphase : ∀ q, q ≠ p → s'.phase q = s.phase q)
    (hold : (s.phase p).slot = none) (hnew : (s'.phase p).slot = none)
    (hdisk : ∀ d i, (s.disk d i).type ≠ 0 → s'.disk d i = s.disk d i) : s'.Inv := by
  refine ⟨fun j => (h.at_ j).of_frame (by rw [htable]) (fun q => by rw [hheld]) (by rw [hdirty])
    hphase (by rw [hold]; nofun) (by rw [hnew]; nofun) fun hr hvalid hs => ?_, ?_⟩
  · obtain ⟨htype, heq⟩ := (h.at_ j).typed hr hvalid hs
    simp only [dinode, htable]
    exact hdisk _ _ fun hzero => htype (heq.symm.trans hzero)
  · intro i j
    simp only [htable, key]
    exact h.unique i j

end Locks

end State

end FogOS.Itable
