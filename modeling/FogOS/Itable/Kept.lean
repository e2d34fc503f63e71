import FogOS.Itable.Calls

/-!
# On-disk inodes without links

The invariant that keeps an on-disk inode without links from being lost, and the four changes of
the inode table under which it holds again.
-/

namespace FogOS.Itable

open Function Library Fs

variable {P : Type} [DecidableEq P]

/-- The entry that a process frees or has freed, with its reference still counted. -/
def Phase.frees : Phase → Option Slot
  | itrunc k => some k
  | untype k => some k
  | invalidate k => some k
  | drop k => some k
  | _ => none

theorem Phase.slot_of_frees {x : Phase} {k : Slot} (h : x.frees = some k) : x.slot = some k := by
  cases x <;> first | exact h | cases h

namespace State

/-- An on-disk inode with a type and without links is one that `ialloc` has given to a process, or
has a valid entry in use. The process that frees an entry is alone in that, and with other
references left when it comes to its `ref--` and the entry has a new inode without links. -/
structure Kept (s : State P) : Prop where
  owned : ∀ d i, (s.disk d i).type ≠ 0 → (s.disk d i).nlink = 0 → s.unread d i ≠ none ∨
    ∃ k, 0 < (s.table k).ref ∧ s.key k = (d, i) ∧ (s.table k).valid = true ∧ s.Stable k
  unread : ∀ d i q, s.unread d i = some q →
    s.phase q = .alloced d i ∨ ∃ k, s.key k = (d, i) ∧ 0 < s.held q k
  freed : ∀ q k, (s.phase q).frees = some k → s.unread (s.table k).dev (s.table k).inum ≠ some q
  alone : ∀ p q k, (s.phase p).frees = some k → (s.phase q).frees = some k → p = q
  late : ∀ q k, s.phase q = .drop k → (s.table k).valid = true → (s.table k).ip.nlink = 0 →
    2 ≤ (s.table k).ref

section Shapes

variable {s s' : State P} {p : P} {k : Slot} {x : Phase}

theorem Stable.of_update {j : Slot} (h : s.Stable j)
    (hphase : s'.phase = update s.phase p x) (hx : x ≠ .invalidate j) : s'.Stable j := by
  intro q
  rw [hphase]
  by_cases hqp : q = p
  · rw [hqp, update_self]
    exact hx
  · rw [update_of_ne hqp]
    exact h q

theorem Kept.recount (h : s.Kept) {r n : Nat} (hs : Recount s s' p k r n)
    (hlast : r = 0 → (s.table k).valid = true → s.Stable k → (s.dinode k).nlink ≠ 0)
    (hunread : n = 0 → s.unread (s.table k).dev (s.table k).inum ≠ some p)
    (halloced : ∀ d i, s.phase p = .alloced d i → s.key k = (d, i) ∧ 0 < n)
    (hlate : ∀ q, q ≠ p → s.phase q = .drop k → (s.table k).valid = true →
      (s.table k).ip.nlink = 0 → 2 ≤ r) : s'.Kept := by
  obtain ⟨hself, htable⟩ := eq_update_iff.mp hs.table
  have hkey : ∀ j, s'.key j = s.key j := by
    intro j
    by_cases hj : j = k
    · subst hj
      simp only [key, hself]
    · simp only [key, htable j hj]
  obtain ⟨hidle, hother⟩ := eq_update_iff.mp hs.phase
  -- A process that frees an entry is another one, and its phase is as before.
  have hfrees : ∀ q j, (s'.phase q).frees = some j → q ≠ p ∧ (s.phase q).frees = some j := by
    intro q j hq
    by_cases hqp : q = p
    · subst hqp
      rw [hidle] at hq
      cases hq
    · exact ⟨hqp, by rw [← hother q hqp, hq]⟩
  refine ⟨?_, ?_, ?_, ?_, ?_⟩
  · intro d i htype hnlink
    rw [hs.disk] at htype hnlink
    rw [hs.unread]
    refine (h.owned d i htype hnlink).imp_right ?_
    rintro ⟨j, href, hj, hvalid, hstable⟩
    refine ⟨j, ?_, (hkey j).trans hj, ?_, hstable.of_update hs.phase (by simp)⟩
    · by_cases hjk : j = k
      · subst hjk
        rw [hself]
        refine Nat.pos_of_ne_zero fun hzero => hlast hzero hvalid hstable ?_
        simp only [key, Prod.mk.injEq] at hj
        simp only [dinode, hj, hnlink]
      · rw [htable j hjk]
        exact href
    · by_cases hjk : j = k
      · subst hjk
        rw [hself]
        exact hvalid
      · rw [htable j hjk]
        exact hvalid
  · intro d i q hq
    rw [hs.unread] at hq
    rcases h.unread d i q hq with hphase | ⟨j, hj, hheld⟩
    · by_cases hqp : q = p
      · subst hqp
        obtain ⟨hk, hn⟩ := halloced d i hphase
        exact .inr ⟨k, (hkey k).trans hk, by simpa [hs.held] using hn⟩
      · exact .inl ((hother q hqp).trans hphase)
    · refine .inr ⟨j, (hkey j).trans hj, ?_⟩
      rw [hs.held]
      split_ifs with hpk
      · obtain ⟨rfl, rfl⟩ := hpk
        refine Nat.pos_of_ne_zero fun hzero => hunread hzero ?_
        simp only [key, Prod.mk.injEq] at hj
        rw [hj.1, hj.2, hq]
      · exact hheld
  · intro q j hq
    have hj := hkey j
    simp only [key, Prod.mk.injEq] at hj
    rw [hs.unread, hj.1, hj.2]
    exact h.freed q j (hfrees q j hq).2
  · exact fun q r j hq hr => h.alone q r j (hfrees q j hq).2 (hfrees r j hr).2
  · intro q j hq hvalid hnlink
    have hqp := (hfrees q j (by rw [hq]; rfl)).1
    have hold := (hother q hqp).symm.trans hq
    by_cases hjk : j = k
    · subst hjk
      rw [hself] at hvalid hnlink ⊢
      exact hlate q hqp hold hvalid hnlink
    · rw [htable j hjk] at hvalid hnlink ⊢
      exact h.late q j hold hvalid hnlink

variable [Fintype P]

omit [DecidableEq P] in
theorem InvAt.held_of_frees (h : s.InvAt k) (hp : (s.phase p).frees = some k) : 0 < s.held p k := by
  cases hx : s.phase p with
  | drop j =>
    rw [hx] at hp
    cases hp
    exact (h.dropping p hx).1
  | itrunc j => exact (h.owner (h.freeing p (by rw [hx] at hp ⊢; exact hp)).1).1
  | untype j => exact (h.owner (h.freeing p (by rw [hx] at hp ⊢; exact hp)).1).1
  | invalidate j => exact (h.owner (h.freeing p (by rw [hx] at hp ⊢; exact hp)).1).1
  | _ =>
    rw [hx] at hp
    cases hp

theorem Kept.recycle (h : s.Kept) (hk : s.InvAt k) {dev inum : Nat} (hs : Recycle s s' p k dev inum)
    (halloced : ∀ d i, s.phase p = .alloced d i → (dev, inum) = (d, i)) : s'.Kept := by
  obtain ⟨hself, htable⟩ := eq_update_iff.mp hs.table
  have hkey : ∀ j, j ≠ k → s'.key j = s.key j := fun j hj => by simp only [key, htable j hj]
  obtain ⟨hidle, hother⟩ := eq_update_iff.mp hs.phase
  -- Nobody has a pointer to the entry, so nobody is freeing it.
  have hzero : ∀ q, s.held q k = 0 := by
    intro q
    have hle := hk.held_le q
    have hfree := hs.free
    omega
  have hfrees : ∀ q j, (s'.phase q).frees = some j → j ≠ k ∧ (s.phase q).frees = some j := by
    intro q j hq
    by_cases hqp : q = p
    · subst hqp
      rw [hidle] at hq
      cases hq
    · rw [hother q hqp] at hq
      refine ⟨?_, hq⟩
      rintro rfl
      have hpos := hk.held_of_frees hq
      rw [hzero] at hpos
      exact absurd hpos (lt_irrefl 0)
  refine ⟨?_, ?_, ?_, ?_, ?_⟩
  · intro d i htype hnlink
    rw [hs.disk] at htype hnlink
    rw [hs.unread]
    refine (h.owned d i htype hnlink).imp_right ?_
    rintro ⟨j, href, hj, hvalid, hstable⟩
    have hjk : j ≠ k := by
      rintro rfl
      rw [hs.free] at href
      exact absurd href (lt_irrefl 0)
    refine ⟨j, ?_, (hkey j hjk).trans hj, ?_, hstable.of_update hs.phase (by simp)⟩
    · rw [htable j hjk]
      exact href
    · rw [htable j hjk]
      exact hvalid
  · intro d i q hq
    rw [hs.unread] at hq
    rcases h.unread d i q hq with hphase | ⟨j, hj, hheld⟩
    · by_cases hqp : q = p
      · subst hqp
        refine .inr ⟨k, ?_, by simp [hs.held]⟩
        rw [← halloced d i hphase]
        simp only [key, hself]
      · exact .inl ((hother q hqp).trans hphase)
    · have hjk : j ≠ k := by
        rintro rfl
        rw [hzero] at hheld
        exact absurd hheld (lt_irrefl 0)
      exact .inr ⟨j, (hkey j hjk).trans hj, by simpa [hs.held, hjk] using hheld⟩
  · intro q j hq
    obtain ⟨hjk, hold⟩ := hfrees q j hq
    rw [hs.unread, htable j hjk]
    exact h.freed q j hold
  · exact fun q r j hq hr => h.alone q r j (hfrees q j hq).2 (hfrees r j hr).2
  · intro q j hq hvalid hnlink
    have hjk := (hfrees q j (by rw [hq]; rfl)).1
    have hqp : q ≠ p := by
      rintro rfl
      rw [hidle] at hq
      cases hq
    rw [htable j hjk] at hvalid hnlink ⊢
    exact h.late q j ((hother q hqp).symm.trans hq) hvalid hnlink

theorem Kept.of_owner (h : s.Kept) (hk : s.InvAt k) {e : Entry P} {b : Bool} {v : Dinode}
    (hs : OwnerStep s s' p k e x b v)
    (hunread : ∀ d i, s'.unread d i = s.unread d i ∨ s'.unread d i = none ∧ (d, i) = s.key k)
    (howned : v.type ≠ 0 → v.nlink = 0 → s'.unread (s.table k).dev (s.table k).inum ≠ none ∨
      e.valid = true ∧ x ≠ .invalidate k)
    (hfrees : x.frees = some k → (s.phase p).frees = some k ∨
      s.unread (s.table k).dev (s.table k).inum ≠ some p ∧ ∀ q, (s.phase q).frees ≠ some k)
    (hdrop : x = .drop k → e.valid = false) : s'.Kept := by
  obtain ⟨hself, htable⟩ := eq_update_iff.mp hs.table
  have hkey : ∀ j, s'.key j = s.key j := by
    intro j
    by_cases hj : j = k
    · subst hj
      simp only [key, hself, hs.dev, hs.inum]
    · simp only [key, htable j hj]
  obtain ⟨hx, hother⟩ := eq_update_iff.mp hs.phase
  have hslot : ∀ j, x.slot = some j → j = k := by
    intro j hj
    rcases hs.new with hidle | hk
    · rw [hidle] at hj
      cases hj
    · rw [hk] at hj
      exact (Option.some.inj hj).symm
  -- What the process frees after the step it frees already, or it is the first one.
  have hnew : ∀ j, (s'.phase p).frees = some j → (s.phase p).frees = some j ∨
      j = k ∧ s.unread (s.table k).dev (s.table k).inum ≠ some p ∧
        ∀ q, (s.phase q).frees ≠ some k := by
    intro j hj
    rw [hx] at hj
    obtain rfl := hslot j (Phase.slot_of_frees hj)
    exact (hfrees hj).imp_right fun hy => ⟨rfl, hy⟩
  refine ⟨?_, ?_, ?_, ?_, ?_⟩
  · intro d i htype hnlink
    rw [hs.disk] at htype hnlink
    split_ifs at htype hnlink with hd
    · obtain ⟨rfl, rfl⟩ := hd
      refine (howned htype hnlink).imp_right fun ho => ⟨k, ?_, hkey k, ?_, ?_⟩
      · rw [hself, hs.ref]
        exact lt_of_lt_of_le hs.pos (hk.held_le p)
      · rw [hself]
        exact ho.1
      · intro q hq
        by_cases hqp : q = p
        · exact ho.2 (hx.symm.trans (hqp ▸ hq))
        · exact hqp (hs.own q (hk.freeing q (by rw [← hother q hqp, hq]; rfl)).1)
    · have hsame : s'.unread d i = s.unread d i :=
        (hunread d i).resolve_right fun hu => hd (Prod.mk.inj hu.2)
      rw [hsame]
      refine (h.owned d i htype hnlink).imp_right ?_
      rintro ⟨j, href, hj, hvalid, hstable⟩
      have hjk : j ≠ k := by
        rintro rfl
        exact hd (Prod.mk.inj hj.symm)
      refine ⟨j, ?_, (hkey j).trans hj, ?_, hstable.of_update hs.phase fun hy => ?_⟩
      · rw [htable j hjk]
        exact href
      · rw [htable j hjk]
        exact hvalid
      · exact hjk (hslot j (by rw [hy]; rfl))
  · intro d i q hq
    have hold : s.unread d i = some q := by
      rcases hunread d i with hsame | ⟨hnone, -⟩
      · rw [← hsame, hq]
      · rw [hnone] at hq
        cases hq
    rcases h.unread d i q hold with hphase | ⟨j, hj, hheld⟩
    · by_cases hqp : q = p
      · subst hqp
        rcases hs.old with hy | hy <;> rw [hphase] at hy <;> cases hy
      · exact .inl ((hother q hqp).trans hphase)
    · exact .inr ⟨j, (hkey j).trans hj, by rw [hs.held]; exact hheld⟩
  · intro q j hq hu
    have hj := hkey j
    simp only [key, Prod.mk.injEq] at hj
    rw [hj.1, hj.2] at hu
    have hold : s.unread (s.table j).dev (s.table j).inum = some q := by
      rcases hunread (s.table j).dev (s.table j).inum with hsame | ⟨hnone, -⟩
      · rw [← hsame, hu]
      · rw [hnone] at hu
        cases hu
    by_cases hqp : q = p
    · subst hqp
      rcases hnew j hq with hy | ⟨rfl, hy, -⟩
      · exact h.freed q j hy hold
      · exact hy hold
    · exact h.freed q j (by rw [← hother q hqp, hq]) hold
  · -- The process against another one; two others are as before.
    have hpair : ∀ q j, q ≠ p → (s'.phase p).frees = some j → (s'.phase q).frees ≠ some j := by
      intro q j hqp hp hq
      rw [hother q hqp] at hq
      rcases hnew j hp with hy | ⟨rfl, -, hy⟩
      · exact hqp (h.alone q p j hq hy)
      · exact hy q hq
    intro q r j hq hr
    by_cases hqp : q = p <;> by_cases hrp : r = p
    · rw [hqp, hrp]
    · exact absurd hr (hpair r j hrp (hqp ▸ hq))
    · exact absurd hq (hpair q j hqp (hrp ▸ hr))
    · rw [hother q hqp] at hq
      rw [hother r hrp] at hr
      exact h.alone q r j hq hr
  · intro q j hq hvalid hnlink
    by_cases hqp : q = p
    · subst hqp
      rw [hx] at hq
      obtain rfl := hslot j (by rw [hq]; rfl)
      rw [hself, hdrop hq] at hvalid
      cases hvalid
    · have hold := (hother q hqp).symm.trans hq
      by_cases hjk : j = k
      · subst hjk
        rw [hself, hs.ref]
        exact hk.held_two hqp (hk.dropping q hold).1 hs.pos
      · rw [htable j hjk] at hvalid hnlink ⊢
        exact h.late q j hold hvalid hnlink

omit [Fintype P] in
/-- A step at no entry, which gives the on-disk inodes that it writes to the process. -/
theorem Kept.of_free (h : s.Kept) (htable : s'.table = s.table) (hheld : s'.held = s.held)
    (hphase : s'.phase = update s.phase p x) (hnew : x.slot = none)
    (halloced : ∀ d i, s.phase p ≠ .alloced d i)
    (hdisk : ∀ d i, s'.disk d i = s.disk d i ∧ s'.unread d i = s.unread d i ∨
      s'.unread d i = some p ∧ x = .alloced d i) : s'.Kept := by
  obtain ⟨hx, hother⟩ := eq_update_iff.mp hphase
  have hkey : ∀ j, s'.key j = s.key j := fun j => by simp only [key, htable]
  have hslot : ∀ y j, y.slot = some j → x ≠ y := by
    rintro y j hy rfl
    rw [hnew] at hy
    cases hy
  have hfrees : ∀ q j, (s'.phase q).frees = some j → q ≠ p ∧ (s.phase q).frees = some j := by
    intro q j hq
    by_cases hqp : q = p
    · subst hqp
      exact absurd hx.symm (hslot _ j (Phase.slot_of_frees hq))
    · exact ⟨hqp, by rw [← hother q hqp, hq]⟩
  refine ⟨?_, ?_, ?_, ?_, ?_⟩
  · intro d i htype hnlink
    rcases hdisk d i with ⟨hsame, hunread⟩ | ⟨hunread, -⟩
    · rw [hsame] at htype hnlink
      rw [hunread, htable]
      refine (h.owned d i htype hnlink).imp_right ?_
      rintro ⟨j, href, hj, hvalid, hstable⟩
      exact ⟨j, href, (hkey j).trans hj, hvalid, hstable.of_update hphase (hslot _ j rfl)⟩
    · rw [hunread]
      exact .inl (by simp)
  · intro d i q hq
    rcases hdisk d i with ⟨-, hunread⟩ | ⟨hunread, hnext⟩
    · rw [hunread] at hq
      rw [hheld]
      refine (h.unread d i q hq).imp (fun hphase' => ?_) (Exists.imp fun j hj =>
        ⟨(hkey j).trans hj.1, hj.2⟩)
      have hqp : q ≠ p := by
        rintro rfl
        exact halloced d i hphase'
      exact (hother q hqp).trans hphase'
    · rw [hunread] at hq
      cases hq
      exact .inl (hx.trans hnext)
  · intro q j hq
    obtain ⟨hqp, hold⟩ := hfrees q j hq
    rw [htable]
    rcases hdisk (s.table j).dev (s.table j).inum with ⟨-, hunread⟩ | ⟨hunread, -⟩
    · rw [hunread]
      exact h.freed q j hold
    · rw [hunread]
      exact fun hpq => hqp (Option.some.inj hpq).symm
  · exact fun q r j hq hr => h.alone q r j (hfrees q j hq).2 (hfrees r j hr).2
  · intro q j hq hvalid hnlink
    have hqp := (hfrees q j (by rw [hq]; rfl)).1
    rw [htable] at hvalid hnlink ⊢
    exact h.late q j ((hother q hqp).symm.trans hq) hvalid hnlink

end Shapes

end State

end FogOS.Itable
