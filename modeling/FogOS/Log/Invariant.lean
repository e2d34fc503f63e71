import FogOS.Log.Transaction

/-!
# A transaction contains whole operations

One invariant of the shared log is kept by every step: operations and a commit
never overlap, and every block that an operation has logged is still listed when
the commit that follows it starts.
-/

namespace FogOS.Log

open Function Library List

section Absorb

variable {bs : List Nat} {b c : Nat}

theorem absorb_nodup (h : bs.Nodup) : (absorb bs b).Nodup := by
  unfold absorb
  split
  · exact h
  · next hb =>
    exact nodup_append.mpr ⟨h, nodup_singleton b, by
      intro x hx y hy hxy
      exact hb (mem_singleton.mp hy ▸ hxy ▸ hx)⟩

theorem mem_absorb_self (bs : List Nat) (b : Nat) : b ∈ absorb bs b := by
  unfold absorb
  split
  · assumption
  · simp

theorem mem_absorb_of_mem (h : c ∈ bs) : c ∈ absorb bs b := by
  unfold absorb
  split
  · exact h
  · exact mem_append_left _ h

theorem mem_absorb (h : c ∈ absorb bs b) : c = b ∨ c ∈ bs := by
  unfold absorb at h
  split at h
  · exact Or.inr h
  · rcases mem_append.mp h with h | h
    · exact Or.inr h
    · exact Or.inl (mem_singleton.mp h)

end Absorb

namespace LogState

variable {ι : Type*} [DecidableEq ι] [Fintype ι]

/-- The number of operations between `begin_op` and `end_op`. -/
def opCount (s : LogState ι) : Nat :=
  (Finset.univ.filter fun p => (s.phase p).isOp = true).card

section Phases

variable (s : LogState ι) (p : ι)

omit [Fintype ι] in
@[simp] theorem setPhase_self (ph : Phase) : (s.setPhase p ph).phase p = ph := by
  simp [setPhase]

omit [Fintype ι] in
theorem setPhase_of_ne {q : ι} (ph : Phase) (h : q ≠ p) :
    (s.setPhase p ph).phase q = s.phase q := by
  simp [setPhase, update_of_ne h]

omit [Fintype ι] [DecidableEq ι] in
@[simp] theorem wakeup_isOp : (s.wakeup.phase p).isOp = (s.phase p).isOp := by
  simp only [wakeup]
  split
  · next h => simp [h]
  · rfl

omit [Fintype ι] [DecidableEq ι] in
@[simp] theorem wakeup_isCommit : (s.wakeup.phase p).isCommit = (s.phase p).isCommit := by
  simp only [wakeup]
  split
  · next h => simp [h]
  · rfl

omit [Fintype ι] [DecidableEq ι] in
theorem wakeup_eq_inOp {n : Nat} : s.wakeup.phase p = .inOp n ↔ s.phase p = .inOp n := by
  simp only [wakeup]
  split
  · next h => simp [h]
  · rfl

omit [Fintype ι] [DecidableEq ι] in
theorem wakeup_eq_commit {st : Stage} : s.wakeup.phase p = .commit st ↔ s.phase p = .commit st := by
  simp only [wakeup]
  split
  · next h => simp [h]
  · rfl

omit [Fintype ι] [DecidableEq ι] in
theorem wakeup_ne_sleeping : s.wakeup.phase p ≠ .sleeping := by
  simp only [wakeup]
  split
  · simp
  · assumption

omit [Fintype ι] in
theorem wakeup_setPhase_idle : (s.setPhase p .idle).wakeup = s.wakeup.setPhase p .idle := by
  simp only [wakeup, setPhase, LogState.mk.injEq, true_and, and_true]
  funext q
  by_cases hq : q = p
  · subst hq
    simp
  · simp [update_of_ne hq]

omit [DecidableEq ι] in
@[simp] theorem opCount_wakeup : s.wakeup.opCount = s.opCount := by
  simp [opCount]

/-- Entering an operation adds one to the count. -/
theorem opCount_setPhase_enter {ph : Phase} (h : (s.phase p).isOp = false)
    (hph : ph.isOp = true) : (s.setPhase p ph).opCount = s.opCount + 1 := by
  have hset : (Finset.univ.filter fun q => ((s.setPhase p ph).phase q).isOp = true) =
      insert p (Finset.univ.filter fun q => (s.phase q).isOp = true) := by
    ext q
    by_cases hq : q = p
    · subst hq
      simp [hph]
    · simp [setPhase_of_ne s p ph hq, hq]
  have hnot : p ∉ Finset.univ.filter fun q => (s.phase q).isOp = true := by
    simp [h]
  rw [opCount, hset, Finset.card_insert_of_notMem hnot]
  rfl

/-- Leaving an operation takes one from the count. -/
theorem opCount_setPhase_leave {ph : Phase} (h : (s.phase p).isOp = true)
    (hph : ph.isOp = false) : (s.setPhase p ph).opCount + 1 = s.opCount := by
  have hback := @opCount_setPhase_enter ι _ _ (s.setPhase p ph) p (s.phase p) (by simpa using hph) h
  have hsame : ((s.setPhase p ph).setPhase p (s.phase p)).opCount = s.opCount := by
    simp [opCount, setPhase]
  omega

/-- A change of place outside operations keeps the count. -/
theorem opCount_setPhase_other {ph : Phase} (h : (s.phase p).isOp = false)
    (hph : ph.isOp = false) : (s.setPhase p ph).opCount = s.opCount := by
  have hset : (Finset.univ.filter fun q => ((s.setPhase p ph).phase q).isOp = true) =
      Finset.univ.filter fun q => (s.phase q).isOp = true := by
    ext q
    by_cases hq : q = p
    · subst hq
      simp [h, hph]
    · simp [setPhase_of_ne s p ph hq]
  rw [opCount, hset]
  rfl

omit [DecidableEq ι] in
theorem opCount_pos {q : ι} (h : (s.phase q).isOp = true) : 0 < s.opCount :=
  Finset.card_pos.mpr ⟨q, by simpa using h⟩

omit [DecidableEq ι] in
theorem isOp_eq_false_of_opCount (h : s.opCount = 0) (q : ι) : (s.phase q).isOp = false := by
  have hempty := Finset.card_eq_zero.mp h
  by_contra hq
  have hmem : q ∈ Finset.univ.filter fun p => (s.phase p).isOp = true := by
    simpa using hq
  rw [hempty] at hmem
  exact absurd hmem (Finset.notMem_empty q)

end Phases

/-- What every reachable state of the log satisfies. -/
structure Inv (s : LogState ι) : Prop where
  outstanding : s.outstanding = s.opCount
  committing : s.committing = true ↔ ∃ p, (s.phase p).isCommit = true
  single : ∀ p q, (s.phase p).isCommit = true → (s.phase q).isCommit = true → p = q
  exclusive : s.committing = true → s.opCount = 0
  nodup : s.lh.Nodup
  rest : s.opCount = 0 → s.committing = false → s.lh = []
  cleared : ∀ p, s.phase p = .commit .installed ∨ s.phase p = .commit .finished → s.lh = []
  opLt : ∀ p n, s.phase p = .inOp n → n < s.nextOp
  opInj : ∀ p q n, s.phase p = .inOp n → s.phase q = .inOp n → p = q
  wroteLt : ∀ e ∈ s.wrote, e.op < s.nextOp ∧ e.epoch ≤ s.epoch
  current : ∀ p n, s.phase p = .inOp n → ∀ e ∈ s.wrote, e.op = n → e.epoch = s.epoch
  whole : ∀ e ∈ s.wrote, ∀ e' ∈ s.wrote, e.op = e'.op → e.epoch = e'.epoch
  listed : ∀ e ∈ s.wrote, e.epoch = s.epoch → e.block ∈ s.lh
  sourced : ∀ b ∈ s.lh, ∃ e ∈ s.wrote, e.epoch = s.epoch ∧ e.block = b
  asleep : ∀ p, s.phase p = .sleeping → s.committing = true ∨ 0 < s.opCount

namespace Inv

variable {s s' : LogState ι} {p : ι}

omit [DecidableEq ι] in
theorem init : Inv (init : LogState ι) := by
  constructor
  all_goals simp [LogState.init, opCount]

section

variable (h : Inv s)

include h

omit [DecidableEq ι] in
theorem wakeup : Inv s.wakeup := by
  constructor
  · simpa using h.outstanding
  · simpa using h.committing
  · simpa using h.single
  · simpa using h.exclusive
  · exact h.nodup
  · simpa using h.rest
  · intro q hq
    rw [wakeup_eq_commit, wakeup_eq_commit] at hq
    exact h.cleared q hq
  · intro q n hq
    exact h.opLt q n ((wakeup_eq_inOp s q).mp hq)
  · intro q r n hq hr
    exact h.opInj q r n ((wakeup_eq_inOp s q).mp hq) ((wakeup_eq_inOp s r).mp hr)
  · exact h.wroteLt
  · intro q n hq
    exact h.current q n ((wakeup_eq_inOp s q).mp hq)
  · exact h.whole
  · exact h.listed
  · exact h.sourced
  · exact fun q hq => absurd hq (wakeup_ne_sleeping s q)

/-- A process that is neither in an operation nor in a commit may change its place. -/
theorem setPhase_quiet {ph : Phase} (hop : (s.phase p).isOp = false)
    (hco : (s.phase p).isCommit = false) (hop' : ph.isOp = false) (hco' : ph.isCommit = false)
    (hsleep : ph = .sleeping → s.committing = true ∨ 0 < s.opCount) : Inv (s.setPhase p ph) := by
  have hphase : ∀ q, (((s.setPhase p ph).phase q).isCommit = true ↔
      (s.phase q).isCommit = true) := by
    intro q
    by_cases hq : q = p
    · subst hq
      simp [hco, hco']
    · rw [setPhase_of_ne s p ph hq]
  have hinOp : ∀ q n, (s.setPhase p ph).phase q = .inOp n → s.phase q = .inOp n := by
    intro q n hq
    by_cases hqp : q = p
    · subst hqp
      rw [setPhase_self] at hq
      simp [hq] at hop'
    · rwa [setPhase_of_ne s p ph hqp] at hq
  have hcount := opCount_setPhase_other s p hop hop'
  constructor
  · rw [hcount]
    exact h.outstanding
  · simpa only [hphase, setPhase_committing] using h.committing
  · simpa only [hphase] using h.single
  · rw [hcount]
    exact h.exclusive
  · exact h.nodup
  · rw [hcount]
    exact h.rest
  · intro q hq
    by_cases hqp : q = p
    · subst hqp
      rw [setPhase_self] at hq
      rcases hq with hq | hq <;> simp [hq] at hco'
    · rw [setPhase_of_ne s p ph hqp] at hq
      exact h.cleared q hq
  · exact fun q n hq => h.opLt q n (hinOp q n hq)
  · exact fun q r n hq hr => h.opInj q r n (hinOp q n hq) (hinOp r n hr)
  · exact h.wroteLt
  · exact fun q n hq => h.current q n (hinOp q n hq)
  · exact h.whole
  · exact h.listed
  · exact h.sourced
  · intro q hq
    rw [hcount]
    by_cases hqp : q = p
    · subst hqp
      exact hsleep ((setPhase_self s q ph).symm.trans hq)
    · exact h.asleep q ((setPhase_of_ne s p ph hqp).symm.trans hq)

/-- Admission starts a new operation in the current epoch. -/
theorem enter (hop : (s.phase p).isOp = false)
    (hco : (s.phase p).isCommit = false) (hcom : s.committing = false) :
    Inv { s.setPhase p (.inOp s.nextOp) with
      outstanding := s.outstanding + 1
      nextOp := s.nextOp + 1 } := by
  have hcount : (s.setPhase p (.inOp s.nextOp)).opCount = s.opCount + 1 :=
    opCount_setPhase_enter s p hop rfl
  have hnocommit : ∀ q, ¬ (s.phase q).isCommit = true := by
    intro q hq
    have := h.committing.mpr ⟨q, hq⟩
    simp [hcom] at this
  have hnocommit' : ∀ q, ¬ ((s.setPhase p (.inOp s.nextOp)).phase q).isCommit = true := by
    intro q
    by_cases hq : q = p
    · subst hq
      simp
    · rw [setPhase_of_ne s p _ hq]
      exact hnocommit q
  have hinOp : ∀ q n, (s.setPhase p (.inOp s.nextOp)).phase q = .inOp n →
      (q = p ∧ n = s.nextOp) ∨ (q ≠ p ∧ s.phase q = .inOp n) := by
    intro q n hq
    by_cases hqp : q = p
    · subst hqp
      rw [setPhase_self] at hq
      exact Or.inl ⟨rfl, (Phase.inOp.inj hq).symm⟩
    · rw [setPhase_of_ne s p _ hqp] at hq
      exact Or.inr ⟨hqp, hq⟩
  constructor
  · change s.outstanding + 1 = ((s.setPhase p (.inOp s.nextOp)).opCount : Int)
    rw [hcount, h.outstanding]
    rfl
  · constructor
    · intro hc
      exact absurd hc (by simp [setPhase, hcom])
    · rintro ⟨q, hq⟩
      exact absurd hq (hnocommit' q)
  · exact fun q r hq _ => absurd hq (hnocommit' q)
  · intro hc
    exact absurd hc (by simp [setPhase, hcom])
  · exact h.nodup
  · intro h0 _
    change (s.setPhase p (.inOp s.nextOp)).opCount = 0 at h0
    omega
  · rintro q (hq | hq) <;> exact absurd (congrArg Phase.isCommit hq) (hnocommit' q)
  · intro q n hq
    change n < s.nextOp + 1
    rcases hinOp q n hq with ⟨_, rfl⟩ | ⟨_, hq⟩
    · omega
    · have := h.opLt q n hq
      omega
  · intro q r n hq hr
    rcases hinOp q n hq with ⟨hqp, hn⟩ | ⟨_, hq'⟩ <;>
      rcases hinOp r n hr with ⟨hrp, hn'⟩ | ⟨_, hr'⟩
    · rw [hqp, hrp]
    · exact absurd (h.opLt r n hr') (by omega)
    · exact absurd (h.opLt q n hq') (by omega)
    · exact h.opInj q r n hq' hr'
  · intro e he
    obtain ⟨h₁, h₂⟩ := h.wroteLt e he
    exact ⟨Nat.lt_succ_of_lt h₁, h₂⟩
  · intro q n hq e he hop'
    rcases hinOp q n hq with ⟨_, rfl⟩ | ⟨_, hq⟩
    · exact absurd (h.wroteLt e he).1 (by omega)
    · exact h.current q n hq e he hop'
  · exact h.whole
  · exact h.listed
  · exact h.sourced
  · intro _ _
    change _ ∨ 0 < (s.setPhase p (.inOp s.nextOp)).opCount
    exact Or.inr (by omega)

theorem beginOp (hs : s.beginOp p = .ok s') : Inv s' := by
  obtain ⟨_, hs⟩ := of_guard hs
  next hwhere =>
  have hop : (s.phase p).isOp = false := by rcases hwhere with hw | hw <;> simp [hw]
  have hco : (s.phase p).isCommit = false := by rcases hwhere with hw | hw <;> simp [hw]
  split at hs
  · next hcom =>
    cases hs
    exact h.setPhase_quiet hop hco rfl rfl (fun _ => Or.inl hcom)
  · next hcom =>
    split at hs
    · next hfull =>
      cases hs
      apply h.setPhase_quiet hop hco rfl rfl
      intro _
      -- a log with nothing in it has room for one operation
      by_contra hnot
      have hnone : s.opCount = 0 := by
        by_contra hpos
        exact hnot (Or.inr (Nat.pos_of_ne_zero hpos))
      have hlh := h.rest hnone (Bool.eq_false_iff.mpr hcom)
      rw [h.outstanding, hnone, hlh] at hfull
      exact absurd hfull (by decide)
    · cases hs
      exact h.enter hop hco (Bool.eq_false_iff.mpr hcom)

omit [DecidableEq ι] in
/-- A block that is logged is listed, and everything listed stays so. -/
theorem logWrite {size b : Nat} (hs : s.logWrite size p b = .ok s') : Inv s' := by
  unfold LogState.logWrite at hs
  split at hs
  · next op hp =>
    split at hs
    · cases hs
    · split at hs
      · cases hs
      · cases hs
        have hcur : ∀ e ∈ s.wrote, e.op = op → e.epoch = s.epoch := h.current p op hp
        constructor
        · exact h.outstanding
        · exact h.committing
        · exact h.single
        · exact h.exclusive
        · exact absorb_nodup h.nodup
        · intro h0
          exact absurd (opCount_pos s (q := p) (by simp [hp])) (by
            have : s.opCount = 0 := h0
            omega)
        · intro q (hq : s.phase q = .commit .installed ∨ s.phase q = .commit .finished)
          have hco : (s.phase q).isCommit = true := by rcases hq with hq | hq <;> simp [hq]
          have h0 := h.exclusive (h.committing.mpr ⟨q, hco⟩)
          exact absurd (opCount_pos s (q := p) (by simp [hp])) (by omega)
        · exact h.opLt
        · exact h.opInj
        · intro e he
          rcases mem_cons.mp he with rfl | he
          · exact ⟨h.opLt p op hp, le_refl _⟩
          · exact h.wroteLt e he
        · intro q n hq e he hop
          rcases mem_cons.mp he with rfl | he
          · rfl
          · exact h.current q n hq e he hop
        · intro e he e' he' hop
          rcases mem_cons.mp he with rfl | he <;> rcases mem_cons.mp he' with rfl | he'
          · rfl
          · exact (hcur e' he' hop.symm).symm
          · exact hcur e he hop
          · exact h.whole e he e' he' hop
        · intro e he hep
          rcases mem_cons.mp he with rfl | he
          · exact mem_absorb_self _ _
          · exact mem_absorb_of_mem (h.listed e he hep)
        · intro c hc
          rcases mem_absorb hc with rfl | hc
          · exact ⟨⟨op, c, s.epoch⟩, mem_cons_self, rfl, rfl⟩
          · obtain ⟨e, he, hep, heb⟩ := h.sourced c hc
            exact ⟨e, mem_cons_of_mem _ he, hep, heb⟩
        · exact h.asleep
  · cases hs

/-- The operation of `p` ends while others go on. -/
theorem leave {op : Nat} (hp : s.phase p = .inOp op) (hcom : s.committing = false)
    (hmore : s.outstanding - 1 ≠ 0) :
    Inv ({ s with outstanding := s.outstanding - 1 }.setPhase p .idle) := by
  have hcount : (s.setPhase p .idle).opCount + 1 = s.opCount :=
    opCount_setPhase_leave s p (by simp [hp]) rfl
  have hnocommit : ∀ q, ¬ (s.phase q).isCommit = true := by
    intro q hq
    have := h.committing.mpr ⟨q, hq⟩
    simp [hcom] at this
  have hnocommit' : ∀ q, ¬ ((s.setPhase p .idle).phase q).isCommit = true := by
    intro q
    by_cases hq : q = p
    · subst hq
      simp
    · rw [setPhase_of_ne s p _ hq]
      exact hnocommit q
  have hinOp : ∀ q n, (s.setPhase p .idle).phase q = .inOp n → s.phase q = .inOp n := by
    intro q n hq
    by_cases hqp : q = p
    · subst hqp
      simp at hq
    · rwa [setPhase_of_ne s p _ hqp] at hq
  constructor
  · change s.outstanding - 1 = ((s.setPhase p .idle).opCount : Int)
    have := h.outstanding
    omega
  · constructor
    · intro hc
      exact absurd hc (by simp [setPhase, hcom])
    · rintro ⟨q, hq⟩
      exact absurd hq (hnocommit' q)
  · exact fun q r hq _ => absurd hq (hnocommit' q)
  · intro hc
    exact absurd hc (by simp [setPhase, hcom])
  · exact h.nodup
  · intro h0 _
    change (s.setPhase p .idle).opCount = 0 at h0
    have := h.outstanding
    omega
  · rintro q (hq | hq) <;> exact absurd (congrArg Phase.isCommit hq) (hnocommit' q)
  · exact fun q n hq => h.opLt q n (hinOp q n hq)
  · exact fun q r n hq hr => h.opInj q r n (hinOp q n hq) (hinOp r n hr)
  · exact h.wroteLt
  · exact fun q n hq => h.current q n (hinOp q n hq)
  · exact h.whole
  · exact h.listed
  · exact h.sourced
  · intro _ _
    change _ ∨ 0 < (s.setPhase p .idle).opCount
    have := h.outstanding
    exact Or.inr (by omega)

omit h in
omit [DecidableEq ι] in
/-- The invariant of a state in which `p` alone is inside `commit`. -/
theorem of_commit {t : LogState ι} {st : Stage} (hp : t.phase p = .commit st)
    (hout : t.outstanding = 0) (hcom : t.committing = true) (hnop : t.opCount = 0)
    (hsole : ∀ q, q ≠ p → (t.phase q).isCommit = false)
    (hcl : st = .installed ∨ st = .finished → t.lh = []) (hnodup : t.lh.Nodup)
    (hlt : ∀ e ∈ t.wrote, e.op < t.nextOp ∧ e.epoch ≤ t.epoch)
    (hwhole : ∀ e ∈ t.wrote, ∀ e' ∈ t.wrote, e.op = e'.op → e.epoch = e'.epoch)
    (hlisted : ∀ e ∈ t.wrote, e.epoch = t.epoch → e.block ∈ t.lh)
    (hsourced : ∀ b ∈ t.lh, ∃ e ∈ t.wrote, e.epoch = t.epoch ∧ e.block = b) : Inv t := by
  have hinOp : ∀ q n, ¬ t.phase q = .inOp n := by
    intro q n hq
    have := isOp_eq_false_of_opCount t hnop q
    simp [hq] at this
  have hco : ∀ q, (t.phase q).isCommit = true → q = p := by
    intro q hq
    by_contra hne
    rw [hsole q hne] at hq
    cases hq
  constructor
  · rw [hnop, hout]
    rfl
  · exact ⟨fun _ => ⟨p, by simp [hp]⟩, fun _ => hcom⟩
  · exact fun q r hq hr => (hco q hq).trans (hco r hr).symm
  · exact fun _ => hnop
  · exact hnodup
  · intro _ hc
    rw [hcom] at hc
    cases hc
  · intro q hq
    have hqp : q = p := hco q (by rcases hq with hq | hq <;> simp [hq])
    subst hqp
    rw [hp, Phase.commit.injEq, Phase.commit.injEq] at hq
    exact hcl hq
  · exact fun q n hq => absurd hq (hinOp q n)
  · exact fun q r n hq => absurd hq (hinOp q n)
  · exact hlt
  · exact fun q n hq => absurd hq (hinOp q n)
  · exact hwhole
  · exact hlisted
  · exact hsourced
  · exact fun _ _ => Or.inl hcom

theorem endOp (hs : s.endOp p = .ok s') : Inv s' := by
  unfold LogState.endOp at hs
  split at hs
  · next op hp =>
    simp only at hs
    split at hs
    · cases hs
    · next hcom =>
      have hfalse : s.committing = false := Bool.eq_false_iff.mpr hcom
      split at hs
      · next hzero =>
        cases hs
        have hcount : (s.setPhase p (.commit .entry)).opCount + 1 = s.opCount :=
          opCount_setPhase_leave s p (by simp [hp]) rfl
        have hout := h.outstanding
        apply of_commit (p := p)
        · exact setPhase_self _ p _
        · exact hzero
        · rfl
        · change (s.setPhase p (.commit .entry)).opCount = 0
          omega
        · intro q hq
          rw [setPhase_of_ne _ p _ hq]
          by_contra hc
          have := h.committing.mpr ⟨q, by simpa using hc⟩
          simp [hfalse] at this
        · simp
        · exact h.nodup
        · exact h.wroteLt
        · exact h.whole
        · exact h.listed
        · exact h.sourced
      · next hmore =>
        cases hs
        have hleft := (h.leave hp hfalse hmore).wakeup
        rwa [wakeup_setPhase_idle] at hleft
  · cases hs

/-- A step inside `commit` that changes only the place of the committing process. -/
theorem commit_move {st st' : Stage} (hp : s.phase p = .commit st)
    (hcl : st' = .installed ∨ st' = .finished → s.lh = []) : Inv (s.setPhase p (.commit st')) := by
  have hcom : s.committing = true := h.committing.mpr ⟨p, by simp [hp]⟩
  have hnop := h.exclusive hcom
  have hcount : (s.setPhase p (.commit st')).opCount = s.opCount :=
    opCount_setPhase_other s p (by simp [hp]) rfl
  apply of_commit (p := p)
  · exact setPhase_self s p _
  · simp [h.outstanding, hnop]
  · exact hcom
  · rw [hcount, hnop]
  · intro q hq
    rw [setPhase_of_ne _ p _ hq]
    by_contra hc
    exact hq (h.single q p (by simpa using hc) (by simp [hp]))
  · exact hcl
  · exact h.nodup
  · exact h.wroteLt
  · exact h.whole
  · exact h.listed
  · exact h.sourced

omit [DecidableEq ι] in
/-- Clearing the header after the installation starts a new epoch. -/
theorem clear (hcom : s.committing = true) : Inv { s with lh := [], epoch := s.epoch + 1 } := by
  have hinOp : ∀ q n, ¬ s.phase q = .inOp n := by
    intro q n hq
    have := isOp_eq_false_of_opCount s (h.exclusive hcom) q
    simp [hq] at this
  constructor
  · exact h.outstanding
  · exact h.committing
  · exact h.single
  · exact h.exclusive
  · exact nodup_nil
  · exact fun _ _ => rfl
  · exact fun _ _ => rfl
  · exact h.opLt
  · exact h.opInj
  · intro e he
    obtain ⟨h₁, h₂⟩ := h.wroteLt e he
    exact ⟨h₁, Nat.le_succ_of_le h₂⟩
  · exact fun q n hq => absurd hq (hinOp q n)
  · exact h.whole
  · intro e he hep
    have := (h.wroteLt e he).2
    change e.epoch = s.epoch + 1 at hep
    omega
  · simp
  · exact h.asleep

/-- The last critical section of `end_op` opens the log again. -/
theorem finish (hp : s.phase p = .commit .finished) :
    Inv ({ s with committing := false }.setPhase p .idle).wakeup := by
  have hcom : s.committing = true := h.committing.mpr ⟨p, by simp [hp]⟩
  have hnop : ({ s with committing := false }.setPhase p .idle).wakeup.opCount = 0 := by
    rw [opCount_wakeup]
    exact (opCount_setPhase_other s p (by simp [hp]) rfl).trans (h.exclusive hcom)
  have hlh : s.lh = [] := h.cleared p (Or.inr hp)
  have hinOp : ∀ q n,
      ¬ ({ s with committing := false }.setPhase p .idle).wakeup.phase q = .inOp n := by
    intro q n hq
    have := isOp_eq_false_of_opCount _ hnop q
    simp [hq] at this
  have hco : ∀ q,
      ¬ (({ s with committing := false }.setPhase p .idle).wakeup.phase q).isCommit = true := by
    intro q hq
    rw [wakeup_isCommit] at hq
    by_cases hqp : q = p
    · subst hqp
      simp at hq
    · rw [setPhase_of_ne _ p _ hqp] at hq
      exact hqp (h.single q p hq (by simp [hp]))
  constructor
  · rw [hnop]
    exact h.outstanding.trans (by rw [h.exclusive hcom])
  · constructor
    · intro hc
      cases hc
    · rintro ⟨q, hq⟩
      exact absurd hq (hco q)
  · exact fun q r hq _ => absurd hq (hco q)
  · intro hc
    cases hc
  · exact h.nodup
  · exact fun _ _ => hlh
  · exact fun _ _ => hlh
  · exact fun q n hq => absurd hq (hinOp q n)
  · exact fun q r n hq => absurd hq (hinOp q n)
  · exact h.wroteLt
  · exact fun q n hq => absurd hq (hinOp q n)
  · exact h.whole
  · exact h.listed
  · exact h.sourced
  · exact fun q hq => absurd hq (wakeup_ne_sleeping _ q)

theorem commitStep {st : Stage} (hs : s.commitStep p st = .ok s') : Inv s' := by
  obtain ⟨_, hs⟩ := of_guard hs
  next hp =>
  have hcom : s.committing = true := h.committing.mpr ⟨p, by simp [hp]⟩
  cases st with
  | entry =>
    cases hs
    apply h.commit_move hp
    split
    · simp
    · next hlen => exact fun _ => length_eq_zero_iff.mp (by omega)
  | logWritten =>
    cases hs
    exact h.commit_move hp (by simp)
  | headWritten =>
    cases hs
    exact (h.clear hcom).commit_move hp (fun _ => rfl)
  | installed =>
    cases hs
    exact h.commit_move hp (fun _ => h.cleared p (Or.inl hp))
  | finished =>
    cases hs
    rw [← wakeup_setPhase_idle]
    exact h.finish hp

theorem step {size : Nat} {ev : Event ι} (hs : s.step size ev = .ok s') : Inv s' := by
  cases ev with
  | beginOp p => exact h.beginOp hs
  | logWrite p b => exact h.logWrite hs
  | endOp p => exact h.endOp hs
  | commitStep p st => exact h.commitStep hs

end

theorem run {size : Nat} {evs : List (Event ι)}
    (hs : Library.run (LogState.step size) LogState.init evs = .ok s) : Inv s :=
  run_preserves (fun _ _ _ hi hstep => hi.step hstep) Inv.init hs

end Inv

/-- No step from a state that satisfies the invariant ends in the panic of `end_op`. -/
theorem step_ne_panic_committing {size : Nat} {s : LogState ι} (h : Inv s) (ev : Event ι) :
    s.step size ev ≠ .error (.panic .committing) := by
  intro hs
  cases ev with
  | beginOp p =>
    simp only [step, beginOp] at hs
    split at hs <;> [split at hs <;> [skip; split at hs]; skip] <;> cases hs
  | logWrite p b =>
    simp only [step, logWrite] at hs
    split at hs <;> [split at hs <;> [skip; split at hs]; skip] <;> cases hs
  | endOp p =>
    simp only [step, endOp] at hs
    split at hs
    · next op hp =>
      split at hs
      · next hcom =>
        have h0 := h.exclusive hcom
        have hpos := opCount_pos s (q := p) (by simp [hp])
        omega
      · split at hs <;> cases hs
    · cases hs
  | commitStep p st =>
    simp only [step, commitStep] at hs
    split at hs
    · cases st <;> cases hs
    · cases hs

/-- A process inside an operation is counted in `outstanding`. -/
theorem step_ne_panic_outsideTrans {size : Nat} {s : LogState ι} (h : Inv s) (ev : Event ι) :
    s.step size ev ≠ .error (.panic .outsideTrans) := by
  intro hs
  cases ev with
  | beginOp p =>
    simp only [step, beginOp] at hs
    split at hs <;> [split at hs <;> [skip; split at hs]; skip] <;> cases hs
  | logWrite p b =>
    simp only [step, logWrite] at hs
    split at hs
    · next op hp =>
      split at hs
      · cases hs
      · split at hs
        · have hpos := opCount_pos s (q := p) (by simp [hp])
          have heq := h.outstanding
          omega
        · cases hs
    · cases hs
  | endOp p =>
    simp only [step, endOp] at hs
    split at hs <;> [split at hs <;> [skip; split at hs]; skip] <;> cases hs
  | commitStep p st =>
    simp only [step, commitStep] at hs
    split at hs
    · cases st <;> cases hs
    · cases hs

/-- An open, empty log takes in any process that asks. -/
theorem beginOp_admitted {s : LogState ι} (h : Inv s) {p : ι}
    (hp : s.phase p = .idle ∨ s.phase p = .waiting) (hout : s.outstanding = 0)
    (hcom : s.committing = false) : ∃ s', s.beginOp p = .ok s' ∧ (s'.phase p).isOp = true := by
  have hnone : s.opCount = 0 := by
    have := h.outstanding
    omega
  have hlh := h.rest hnone hcom
  have hroom : ¬ ((s.lh.length : Int) + (s.outstanding + 1) * maxOpBlocks > logSize) := by
    rw [hlh, hout]
    decide
  have hstep : s.beginOp p = .ok { s.setPhase p (.inOp s.nextOp) with
      outstanding := s.outstanding + 1
      nextOp := s.nextOp + 1 } := by
    unfold beginOp
    rw [if_pos hp, if_neg (by simp [hcom]), if_neg hroom]
  exact ⟨_, hstep, congrArg Phase.isOp (setPhase_self s p _)⟩

/-- In every reachable state of the log: `outstanding` counts the operations, a commit and
an operation never overlap, the header has no duplicates, and an idle log is empty, has no
sleeper and admits. The blocks an operation logs go into one commit: their epochs agree,
and what is listed is what has been logged since the last commit. Neither panic of an
unbracketed use is reached. -/
theorem transaction_whole_operations (size : Nat) (evs : List (Event ι)) :
    (∀ s, run (step size) init evs = .ok s → s.outstanding = s.opCount ∧
      (s.committing = true → s.outstanding = 0) ∧
      (∀ q, (s.phase q).isCommit = true → ∀ p b s', s.logWrite size p b ≠ .ok s') ∧
      s.lh.Nodup ∧
      (s.outstanding = 0 → s.committing = false → s.lh = [] ∧ (∀ p, s.phase p ≠ .sleeping) ∧
        ∀ p, s.phase p = .idle ∨ s.phase p = .waiting →
          ∃ s', s.beginOp p = .ok s' ∧ (s'.phase p).isOp = true) ∧
      (∀ e ∈ s.wrote, ∀ e' ∈ s.wrote, e.op = e'.op → e.epoch = e'.epoch) ∧
      (∀ b, b ∈ s.lh ↔ ∃ e ∈ s.wrote, e.epoch = s.epoch ∧ e.block = b)) ∧
    run (step size) (init : LogState ι) evs ≠ .error (.panic .committing) ∧
    run (step size) (init : LogState ι) evs ≠ .error (.panic .outsideTrans) := by
  refine ⟨?_, ?_, ?_⟩
  · intro s hs
    have h : Inv s := Inv.run hs
    refine ⟨h.outstanding, ?_, ?_, h.nodup, ?_, h.whole, ?_⟩
    · intro hcom
      rw [h.outstanding, h.exclusive hcom]
      rfl
    · intro q hq p b s' hw
      have h0 := h.exclusive (h.committing.mpr ⟨q, hq⟩)
      have hp := isOp_eq_false_of_opCount s h0 p
      unfold logWrite at hw
      split at hw
      · next op hop => simp [hop] at hp
      · cases hw
    · intro hout hcom
      have hnone : s.opCount = 0 := by
        have := h.outstanding
        omega
      refine ⟨h.rest hnone hcom, ?_, fun p hp => beginOp_admitted h hp hout hcom⟩
      intro p hp
      rcases h.asleep p hp with hc | hc
      · rw [hcom] at hc
        cases hc
      · omega
    · intro b
      constructor
      · exact h.sourced b
      · rintro ⟨e, he, hep, rfl⟩
        exact h.listed e he hep
  · exact run_ne_error (G := fun _ _ => True) (fun _ _ _ hi _ hstep => hi.step hstep)
      (fun s ev hi _ => step_ne_panic_committing hi ev) Inv.init (guarded_true _ _)
  · exact run_ne_error (G := fun _ _ => True) (fun _ _ _ hi _ hstep => hi.step hstep)
      (fun s ev hi _ => step_ne_panic_outsideTrans hi ev) Inv.init (guarded_true _ _)

end LogState

end FogOS.Log
