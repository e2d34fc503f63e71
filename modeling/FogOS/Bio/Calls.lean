import FogOS.Bio.Steps

/-!
# The steps of the clients keep the invariant

One lemma for each call of a client. A process in `commit` also reads, writes and releases
buffers; these lemmas cover both.
-/

namespace FogOS.Bio

open Function Library Log List Option System Bcache

namespace System

variable {L : LogArea} {s s' : System} {p q : Pid} {b c : BufId} {dev n : Nat}

/-- A process that is in `commit` stays there. -/
theorem user_iff_of_update {x : Pc} (hp : s.pc p ≠ .user) (hx : x ≠ .user)
    (hpc : s'.pc = update s.pc p x) (q : Pid) : s'.pc q = .user ↔ s.pc q = .user := by
  rw [hpc]
  by_cases hq : q = p
  · subst hq
    simp [hp, hx]
  · rw [update_of_ne hq]

theorem Holds.eq (hp : s.Holds p b) (hq : s.Holds q b) : p = q := by
  rw [Holds, hp] at hq
  exact Fin.ext (some.inj hq)

/-- A locked buffer that is not being filled has data of its block. -/
theorem Inv.valid_of_holds (h : s.Inv L) (hidle : s.point p = .idle) (hp : s.Holds p b) :
    (s.buf b).valid = true := by
  rcases h.points.filled p b hp with hv | ⟨dev, n, hf⟩
  · exact hv
  · rw [hidle] at hf
    cases hf

section Operations

theorem Inv.beginOp (h : s.Inv L) (hs : s.beginOp p = .ok s') : s'.Inv L := by
  obtain ⟨⟨hfree, hout, hcommitting, _⟩, ⟨⟩⟩ := of_guard hs
  refine ⟨h.lru, ⟨h.content.clean, h.content.stored, h.content.cached⟩,
    ⟨h.refs.count, h.refs.device⟩,
    ⟨h.points.waiting, h.points.filling, h.points.filled, h.points.owner⟩, ?_, ?_, ?_⟩
  · refine ⟨h.control.nodup, h.control.home, h.control.fits, ?_, ?_, h.control.committer,
      h.control.single, h.control.unpinned⟩
    · have hcard := card_change (· = true) s.inOp p true
      simp only [hout] at hcard
      simp only [h.control.ops]
      simpa using hcard.symm
    · intro q hq
      by_cases hqp : q = p
      · subst hqp
        exact ⟨hfree.1, hcommitting⟩
      · simp only [update_of_ne hqp] at hq
        exact h.control.opFree q hq
  · exact h.commit_of_keeps rfl fun q _ => ⟨rfl, rfl, fun _ _ => rfl, fun _ _ => rfl,
      fun c _ _ => ⟨_, rfl⟩, fun _ _ _ => rfl⟩
  · exact h.reading

theorem Inv.endOp (h : s.Inv L) (hs : s.endOp p = .ok s') : s'.Inv L := by
  simp only [System.endOp] at hs
  obtain ⟨⟨hfree, hin⟩, hs⟩ := of_guard hs
  have hcommitting := (h.control.opFree p hin).2
  have hcard := card_change (· = true) s.inOp p false
  simp only [hin, ← h.control.ops] at hcard
  -- No process is in `commit`, since `p` is in an operation.
  have huser : ∀ q, s.pc q = .user := by
    intro q
    by_contra hq
    rw [h.control.committer q hq] at hcommitting
    cases hcommitting
  rw [if_neg (by simp [hcommitting])] at hs
  split at hs
  · rename_i hzero
    cases hs
    refine ⟨h.lru, ⟨h.content.clean, h.content.stored, h.content.cached⟩,
      ⟨h.refs.count, h.refs.device⟩,
      ⟨h.points.waiting, h.points.filling, h.points.filled, h.points.owner⟩, ?_, ?_, ?_⟩
    · have hnone : ∀ q, update s.inOp p false q = false := by
        intro q
        by_contra hq
        have hpos : 0 < (Finset.univ.filter fun q =>
            update s.inOp p false q = true).card :=
          Finset.card_pos.mpr ⟨q, by simpa using hq⟩
        simp at hcard
        omega
      refine ⟨h.control.nodup, h.control.home, h.control.fits, ?_, ?_, fun _ _ => rfl, ?_, ?_⟩
      · simp only [setPc, hnone]
        simpa using hzero
      · intro q hq
        simp only [setPc, hnone] at hq
        cases hq
      · intro q r hq hr
        have honly : ∀ t, update s.pc p .start t ≠ .user → t = p := by
          intro t ht
          by_contra hne
          exact ht (by rw [update_of_ne hne]; exact huser t)
        rw [honly q hq, honly r hr]
      · intro hc
        cases hc
    · intro q
      by_cases hq : q = p
      · subst hq
        simp only [setPc, update_self]
        exact h.control.unpinned hcommitting
      · simp only [setPc, update_of_ne hq, huser q]
        trivial
    · intro q n hq hn
      have hqp : q = p := by
        by_contra hne
        simp only [setPc, update_of_ne hne, huser q] at hq
        exact hq rfl
      subst hqp
      have hidle : Point.Reads n .idle := hfree.2 ▸ hn
      exact hidle.elim
  · cases hs
    refine ⟨h.lru, ⟨h.content.clean, h.content.stored, h.content.cached⟩,
      ⟨h.refs.count, h.refs.device⟩,
      ⟨h.points.waiting, h.points.filling, h.points.filled, h.points.owner⟩, ?_, ?_, ?_⟩
    · refine ⟨h.control.nodup, h.control.home, h.control.fits, ?_, ?_, h.control.committer,
        h.control.single, h.control.unpinned⟩
      · have hops : s.outstanding - 1 =
            (Finset.univ.filter fun q => update s.inOp p false q = true).card := by
          simp at hcard
          omega
        exact hops
      · intro q hq
        by_cases hqp : q = p
        · subst hqp
          simp at hq
        · simp only [update_of_ne hqp] at hq
          exact h.control.opFree q hq
    · exact h.commit_of_keeps rfl fun q _ => ⟨rfl, rfl, fun _ _ => rfl, fun _ _ => rfl,
        fun c _ _ => ⟨_, rfl⟩, fun _ _ _ => rfl⟩
    · exact h.reading

end Operations

section Bread

variable {x : Point}

/-- The owner of the lock of a buffer is still one of the processes. -/
theorem Inv.owner_or (h : s.Inv L) (p : Pid) (y : Nat) (hy : (s.buf b).lock = some y) :
    ∃ q : Pid, y = q.val ∧ (q = p ∨ s.Holds q b) := by
  obtain ⟨q, hq⟩ := h.points.owner b y hy
  exact ⟨q, some.inj (hy.symm.trans hq), .inr hq⟩

theorem Inv.bget_hit (h : s.Inv L) (hidle : s.point p = .idle)
    (hreads : s.pc p ≠ .user → (s.pc p).reads L s.lh = some n)
    (hdev : (s.buf b).dev = rootdev) (hblockno : (s.buf b).blockno = n) :
    ({ s with cache := s.cache.addRef b }.setPoint p (.waiting rootdev n b)).Inv L := by
  obtain ⟨order, hlru⟩ := h.lru
  have hm : Moved s ({ s with cache := s.cache.addRef b }.setPoint p (.waiting rootdev n b)) p
      (.waiting rootdev n b) b { s.buf b with refcnt := (s.buf b).refcnt + 1 } (s.dirty b) :=
    ⟨rfl, (update_eq_self b s.dirty).symm, rfl, rfl, rfl, rfl, rfl, rfl, rfl, rfl⟩
  refine ⟨⟨order, hlru.setBuf_of_block rfl rfl⟩, ?_, ?_, ?_, ?_, ?_, ?_⟩
  · exact hm.content h.content (h.content.clean b) fun _ hv => ⟨rfl, rfl, hv⟩
  · refine hm.refs h.refs ?_ Iff.rfl ?_ hdev
    · intro c hc
      simp [hidle, Point.Uses, Ne.symm hc]
    · simp [hidle, Point.Uses, toNat_add_one (h.refs.refcnt_le b)]
  · refine hm.points h.points ?_ ?_ ?_ ?_ ?_ ?_ ?_
    · simp [hidle]
    · exact fun q dev n _ hq => h.points.waiting q dev n b hq
    · exact fun q _ hq => ⟨hq, rfl, rfl, rfl⟩
    · exact fun y hy => h.owner_or p y hy
    · exact fun hp => .inl (h.valid_of_holds hidle hp)
    · rintro dev n c ⟨⟩
      exact ⟨rfl, hdev, hblockno⟩
    · rintro dev n c ⟨⟩
  · exact hm.control h.control fun _ => Iff.rfl
  · exact h.commit_of_keeps rfl fun q _ => hm.keeps fun _ _ => ⟨⟨_, rfl⟩, rfl⟩
  · refine hm.reading h (fun _ _ => rfl) ?_
    rintro m hp rfl
    exact hreads hp

/-- A recycled buffer had no users, and the log holds no reference to a block that is not
cached. -/
theorem Inv.bget_miss (h : s.Inv L) (hidle : s.point p = .idle)
    (hreads : s.pc p ≠ .user → (s.pc p).reads L s.lh = some n)
    (habsent : Absent s.cache rootdev n) (hunused : (s.buf b).refcnt = 0) :
    ({ s with cache := s.cache.setBuf b (recycle (s.buf b) rootdev n) }.setPoint p
      (.waiting rootdev n b)).Inv L := by
  obtain ⟨order, hlru⟩ := h.lru
  obtain ⟨hlock, hwaiters, hpinned⟩ := h.refs.unused hunused
  have hno : ∀ c, ¬((s.buf c).dev = rootdev ∧ (s.buf c).blockno = n) := by
    intro c hc
    have hfalse := habsent c
    have htrue : caches rootdev n (s.cache.buf c) = true := caches_iff.mpr hc
    rw [hfalse] at htrue
    cases htrue
  have hclean := h.content.clean_of_unlocked hlock
  have hholds : ∀ q, ¬s.Holds q b := by
    intro q hq
    rw [Holds, hlock] at hq
    cases hq
  have hm : Moved s ({ s with cache := s.cache.setBuf b (recycle (s.buf b) rootdev n) }.setPoint
      p (.waiting rootdev n b)) p (.waiting rootdev n b) b
      (recycle (s.buf b) rootdev n) (s.dirty b) :=
    ⟨rfl, (update_eq_self b s.dirty).symm, rfl, rfl, rfl, rfl, rfl, rfl, rfl, rfl⟩
  refine ⟨⟨order, hlru.setBuf_recycle hno⟩, ?_, ?_, ?_, ?_, ?_, ?_⟩
  · refine hm.content h.content ⟨fun _ hv => ?_, fun hd => ?_⟩ fun hp => absurd hp hpinned
    · cases hv
    · rw [hclean] at hd
      cases hd
  · refine hm.refs h.refs ?_ ⟨fun hp => ?_, fun hp => absurd hp hpinned⟩ ?_ rfl
    · intro c hc
      simp [hidle, Point.Uses, Ne.symm hc]
    · obtain ⟨c, hdev, hblockno, _⟩ := h.content.cached n hp.2
      exact absurd ⟨hdev, hblockno⟩ (hno c)
    · simp [hidle, Point.Uses, recycle, hunused, hlock]
  · refine hm.points h.points ?_ ?_ ?_ ?_ ?_ ?_ ?_
    · simp [hidle]
    · intro q dev m _ hq
      have huse : (s.point q).Uses b := by simp [hq, Point.Uses]
      have hpos := waiters_pos huse
      omega
    · exact fun q _ hq => absurd hq (hholds q)
    · exact fun y hy => h.owner_or p y hy
    · exact fun hp => absurd hp (hholds p)
    · rintro dev n c ⟨⟩
      exact ⟨rfl, rfl, rfl⟩
    · rintro dev n c ⟨⟩
  · exact hm.control h.control fun _ => Iff.rfl
  · exact h.commit_of_keeps rfl fun q _ => hm.keeps fun hq => absurd hq (hholds q)
  · refine hm.reading h (fun _ _ => rfl) ?_
    rintro m hp rfl
    exact hreads hp

theorem Inv.bget (h : s.Inv L) (hdev : dev = rootdev) (hs : s.bget L p dev n b = .ok s') :
    s'.Inv L := by
  subst hdev
  obtain ⟨hmay, hs⟩ := of_guard hs
  obtain ⟨hidle, hmay⟩ := hmay
  have hreads : s.pc p ≠ .user → (s.pc p).reads L s.lh = some n := fun hp =>
    (hmay.resolve_left hp).2
  simp only [take] at hs
  split at hs
  · rename_i c htake
    cases hs
    split at htake
    · rename_i hhit
      cases htake
      obtain ⟨hd, hn⟩ := caches_iff.mp hhit
      exact h.bget_hit hidle hreads hd hn
    · obtain ⟨hmiss, ⟨⟩⟩ := of_guard htake
      exact h.bget_miss hidle hreads hmiss.1 hmiss.2
  · cases hs

/-- `bread` in `commit` returns the block that the statement names. -/
theorem AtPc.resume {x : Pc} (h : s.AtPc L p x) (hreads : x.reads L s.lh = some n)
    (hb : s.HasClean p b n) : s.AtPc L p (x.resume b) := by
  cases x with
  | loop pass tail =>
    simp only [Pc.reads] at hreads
    split at hreads
    · rename_i hlt
      cases hreads
      exact ⟨hlt, h.2, hb⟩
    · cases hreads
  | home pass tail l => exact ⟨h.2.1, h.2.2, n, hreads, hb⟩
  | head erase =>
    cases hreads
    exact ⟨h, hb⟩
  | _ => cases hreads

theorem resume_eq_user_iff (x : Pc) : x.resume b = .user ↔ x = .user := by
  cases x <;> simp [Pc.resume]

/-- The control of a process after `bread` has returned `b` to it. -/
theorem Inv.commit_returned (h : s.Inv L) (hpc : s'.pc = update s.pc p ((s.pc p).resume b))
    (hlh : s'.lh = s.lh) (hreads : (s.point p).Reads n) (hk : ∀ q, Keeps L s s' q)
    (hb : s'.HasClean p b n) (q : Pid) : s'.AtPc L q (s'.pc q) := by
  by_cases hp : s.pc p = .user
  · have hsame : s'.pc = s.pc := by
      rw [hpc, hp]
      exact update_eq_iff.mpr ⟨hp.symm, fun _ _ => rfl⟩
    exact h.commit_of_keeps hsame (fun q _ => hk q) q
  · refine h.commit_of_setPc hp hpc ?_ q
    refine ((hk p).atPc h.control (h.commit p)).resume ?_ hb
    rw [hlh]
    exact h.reading p n hp hreads

theorem user_iff_resume (hpc : s'.pc = update s.pc p ((s.pc p).resume b)) (q : Pid) :
    s'.pc q = .user ↔ s.pc q = .user := by
  rw [hpc]
  by_cases hq : q = p
  · subst hq
    rw [update_self, resume_eq_user_iff]
  · rw [update_of_ne hq]

theorem Inv.acquire (h : s.Inv L) (hs : s.acquire p = .ok s') : s'.Inv L := by
  obtain ⟨order, hlru⟩ := h.lru
  simp only [System.acquire] at hs
  split at hs
  · rename_i dev n b hpoint
    obtain ⟨hlock, hs⟩ := of_guard hs
    have huse : (s.point p).Uses b := by simp [hpoint, Point.Uses]
    have hdev : (s.buf b).dev = rootdev := h.refs.device_of_uses huse
    obtain ⟨hdevp, hn⟩ := h.points.waiting p dev n b hpoint
    have hholds : ∀ q, ¬s.Holds q b := by
      intro q hq
      rw [Holds, hlock] at hq
      cases hq
    have hclean := h.content.clean_of_unlocked hlock
    have hreads : (s.point p).Reads n := by simp [hpoint, Point.Reads]
    have hcontent : CleanBuf s.latest { s.buf b with lock := some p.val } (s.dirty b) :=
      ⟨(h.content.clean b).1, fun hd => ⟨by simp, ((h.content.clean b).2 hd).2⟩⟩
    split at hs
    · rename_i hvalid
      cases hs
      have hm : Moved s ((s.setBuf b { s.buf b with lock := some p.val }).returned p b) p .idle b
          { s.buf b with lock := some p.val } (s.dirty b) :=
        ⟨rfl, (update_eq_self b s.dirty).symm, rfl, rfl, rfl, rfl, rfl, rfl, rfl, rfl⟩
      have hk : ∀ q, Keeps L s _ q := fun q => hm.keeps fun hq => absurd hq (hholds q)
      refine ⟨⟨order, hlru.setBuf_of_block rfl rfl⟩, ?_, ?_, ?_, ?_, ?_, ?_⟩
      · exact hm.content h.content hcontent fun _ hv => ⟨rfl, rfl, hv⟩
      · refine hm.refs h.refs ?_ Iff.rfl ?_ hdev
        · intro c hc
          simp [hpoint, Point.Uses, Ne.symm hc]
        · simp [hpoint, Point.Uses, hlock]
      · refine hm.points h.points (by simp [hpoint]) ?_ ?_ ?_ (fun _ => .inl hvalid) (by simp) (by simp)
        · exact fun q dev n _ hq => h.points.waiting q dev n b hq
        · exact fun q _ hq => absurd hq (hholds q)
        · exact fun y hy => ⟨p, (some.inj hy).symm, .inl rfl⟩
      · exact hm.control h.control (user_iff_resume rfl)
      · refine h.commit_returned rfl rfl hreads hk ⟨⟨?_, ?_, ?_, ?_⟩, hclean⟩
        · rw [Holds, hm.buf_self]
        · rw [hm.buf_self]
          exact hdev
        · rw [hm.buf_self]
          exact hn
        · rw [hm.buf_self]
          exact hvalid
      · exact hm.reading h (fun q hq => update_of_ne hq _ _) fun _ _ hx => hx.elim
    · rename_i hvalid
      have hinvalid : (s.buf b).valid = false := by simpa using hvalid
      cases hs
      have hm : Moved s ((s.setBuf b { s.buf b with lock := some p.val }).setPoint p
          (.filling dev n b)) p (.filling dev n b) b { s.buf b with lock := some p.val }
          (s.dirty b) :=
        ⟨rfl, (update_eq_self b s.dirty).symm, rfl, rfl, rfl, rfl, rfl, rfl, rfl, rfl⟩
      refine ⟨⟨order, hlru.setBuf_of_block rfl rfl⟩, ?_, ?_, ?_, ?_, ?_, ?_⟩
      · exact hm.content h.content hcontent fun _ hv => ⟨rfl, rfl, hv⟩
      · refine hm.refs h.refs ?_ Iff.rfl ?_ hdev
        · intro c hc
          simp [hpoint, Point.Uses, Ne.symm hc]
        · simp [hpoint, Point.Uses, hlock]
      · refine hm.points h.points (by simp [hpoint]) ?_ ?_ ?_ (fun _ => .inr ⟨dev, n, rfl⟩) (by simp)
          ?_
        · exact fun q dev n _ hq => h.points.waiting q dev n b hq
        · exact fun q _ hq => absurd hq (hholds q)
        · exact fun y hy => ⟨p, (some.inj hy).symm, .inl rfl⟩
        · rintro dev n c ⟨⟩
          exact ⟨rfl, rfl, hdevp, hn, hinvalid⟩
      · exact hm.control h.control fun _ => Iff.rfl
      · exact h.commit_of_keeps rfl fun q _ => hm.keeps fun hq => absurd hq (hholds q)
      · refine hm.reading h (fun _ _ => rfl) ?_
        rintro m hp rfl
        exact h.reading p n hp hreads
  · cases hs

/-- A buffer that is being read from the disk is the only one of its block, so the block is not in
the log. -/
theorem Inv.disk_of_filling (h : s.Inv L) (hpoint : s.point p = .filling dev n b) :
    s.disk n = s.latest n := by
  refine h.content.stored n fun hn => ?_
  obtain ⟨order, hlru⟩ := h.lru
  obtain ⟨hholds, _, hblockno, hinvalid⟩ := h.points.filling p dev n b hpoint
  obtain ⟨c, hc, hcn, hvalid⟩ := h.content.cached n hn
  have hroot : (s.cache.buf c).dev = rootdev := hc
  have hcb : c = b := hlru.unique c b (by rw [hroot]; decide)
    (hroot.trans (h.refs.device_of_holds hholds).symm) (hcn.trans hblockno.symm)
  rw [hcb, hinvalid] at hvalid
  cases hvalid

theorem Inv.fill (h : s.Inv L) (hs : s.fill p = .ok s') : s'.Inv L := by
  obtain ⟨order, hlru⟩ := h.lru
  simp only [System.fill] at hs
  split at hs
  · rename_i dev n b hpoint
    cases hs
    obtain ⟨hholds, hdevp, hn, hinvalid⟩ := h.points.filling p dev n b hpoint
    have hdev := h.refs.device_of_holds hholds
    have hclean := h.content.clean_of_invalid hinvalid
    have hreads : (s.point p).Reads n := by simp [hpoint, Point.Reads]
    have hm : Moved s ((s.setBuf b { s.buf b with
        data := s.disk (s.buf b).blockno, valid := true }).returned p b) p .idle b
        { s.buf b with data := s.disk (s.buf b).blockno, valid := true } (s.dirty b) :=
      ⟨rfl, (update_eq_self b s.dirty).symm, rfl, rfl, rfl, rfl, rfl, rfl, rfl, rfl⟩
    refine ⟨⟨order, hlru.setBuf_of_block rfl rfl⟩, ?_, ?_, ?_, ?_, ?_, ?_⟩
    · refine hm.content h.content ⟨fun _ _ _ => ?_, fun hd => ?_⟩ fun _ _ => ⟨rfl, rfl, rfl⟩
      · simp only [hn]
        exact h.disk_of_filling hpoint
      · rw [hclean] at hd
        cases hd
    · refine hm.refs h.refs ?_ Iff.rfl ?_ hdev
      · simp [hpoint, Point.Uses]
      · simp [hpoint, Point.Uses]
    · refine hm.points h.points ?_ ?_ ?_ ?_ (fun _ => .inl rfl) nofun nofun
      · intro dev' n' c hc
        rw [hpoint] at hc
        cases hc
        rfl
      · exact fun q dev n _ hq => h.points.waiting q dev n b hq
      · exact fun q hqp hq => absurd (hq.eq hholds) hqp
      · exact fun y hy => h.owner_or p y hy
    · exact hm.control h.control (user_iff_resume rfl)
    · -- Who holds this buffer does not rely on it, since it is not valid yet.
      have hk : ∀ q, Keeps L s _ q := fun q => hm.keeps fun _ hvalid => by
        rw [hinvalid] at hvalid
        cases hvalid
      refine h.commit_returned rfl rfl hreads hk ⟨⟨?_, ?_, ?_, ?_⟩, hclean⟩
      · rw [Holds, hm.buf_self]
        exact hholds
      · rw [hm.buf_self]
        exact hdev
      · rw [hm.buf_self]
        exact hn
      · rw [hm.buf_self]
    · exact hm.reading h (fun q hq => update_of_ne hq _ _) fun _ _ hx => hx.elim
  · cases hs

end Bread

section Release

/-- A process changes the data of a buffer that it has locked. -/
theorem Moved.parts_of_data (h : s.Inv L) {data : Block} (hidle : s.point p = .idle)
    (hp : s.Holds p b) (hm : Moved s s' p .idle b { s.buf b with data := data } true) :
    s'.Content ∧ s'.Refs ∧ s'.Points := by
  have hvalid := h.valid_of_holds hidle hp
  refine ⟨hm.content h.content ?_ fun _ hv => ⟨rfl, rfl, hv⟩, hm.refs h.refs ?_ Iff.rfl ?_
    (h.refs.device_of_holds hp), hm.points h.points ?_ ?_ ?_ ?_ (fun _ => .inl hvalid) nofun nofun⟩
  · refine ⟨fun _ _ hd => (by cases hd), fun _ => ⟨?_, hvalid⟩⟩
    rw [hp]
    simp
  · intro c _
    rw [hidle]
  · rw [hidle]
  · simp [hidle]
  · exact fun q dev n _ hq => h.points.waiting q dev n b hq
  · exact fun q _ hq => ⟨hq, rfl, rfl, rfl⟩
  · exact fun y hy => h.owner_or p y hy

theorem Inv.modify (h : s.Inv L) {data : Block} (hs : s.modify p b data = .ok s') : s'.Inv L := by
  obtain ⟨order, hlru⟩ := h.lru
  obtain ⟨⟨⟨huser, hidle⟩, hp⟩, ⟨⟩⟩ := of_guard hs
  have hm : Moved s ((s.setBuf b { s.buf b with data := data }).setDirty b true) p .idle b
      { s.buf b with data := data } true :=
    ⟨rfl, rfl, hidle ▸ (update_eq_self p s.point).symm, rfl, rfl, rfl, rfl, rfl, rfl, rfl⟩
  obtain ⟨hcontent, hrefs, hpoints⟩ := hm.parts_of_data h hidle hp
  refine ⟨⟨order, hlru.setBuf_of_block rfl rfl⟩, hcontent, hrefs, hpoints,
    hm.control h.control fun _ => Iff.rfl, ?_, h.reading⟩
  refine h.commit_of_keeps rfl fun q hq => hm.keeps fun hqb _ => ?_
  rw [hqb.eq hp] at hq
  exact absurd huser hq

theorem brelse_buf (c : Bcache) (b : BufId) : (c.brelse b).buf =
    update c.buf b { c.buf b with refcnt := (c.buf b).refcnt - 1 } := by
  rw [Bcache.brelse]
  split
  · rfl
  · rfl

theorem Inv.brelse (h : s.Inv L) (hs : s.brelse p = .ok s') : s'.Inv L := by
  obtain ⟨order, hlru⟩ := h.lru
  simp only [System.brelse] at hs
  split at hs
  · rename_i b hpoint
    cases hs
    have huse : (s.point p).Uses b := by simp [hpoint, Point.Uses]
    have hdev := h.refs.device_of_uses huse
    have hne : (s.buf b).refcnt.toNat ≠ 0 := by
      have hpos := waiters_pos huse
      rw [h.refs.count b, users]
      omega
    have hm : Moved s ({ s with cache := s.cache.brelse b }.setPoint p .idle) p .idle b
        { s.buf b with refcnt := (s.buf b).refcnt - 1 } (s.dirty b) :=
      ⟨brelse_buf s.cache b, (update_eq_self b s.dirty).symm, rfl, rfl, rfl, rfl, rfl, rfl,
        rfl, rfl⟩
    refine ⟨hlru.brelse b, ?_, ?_, ?_, ?_, ?_, ?_⟩
    · exact hm.content h.content (h.content.clean b) fun _ hv => ⟨rfl, rfl, hv⟩
    · refine hm.refs h.refs ?_ Iff.rfl ?_ hdev
      · intro c hc
        simp [hpoint, Point.Uses, Ne.symm hc]
      · have hidle : ¬Point.Uses b .idle := id
        simp only [toNat_sub_one hne, if_pos huse, if_neg hidle]
        omega
    · refine hm.points h.points (by simp [hpoint]) ?_ ?_ ?_ ?_ (by simp) (by simp)
      · exact fun q dev n _ hq => h.points.waiting q dev n b hq
      · exact fun q _ hq => ⟨hq, rfl, rfl, rfl⟩
      · exact fun y hy => h.owner_or p y hy
      · intro hp
        rcases h.points.filled p b hp with hv | ⟨dev, n, hf⟩
        · exact .inl hv
        · rw [hpoint] at hf
          cases hf
    · exact hm.control h.control fun _ => Iff.rfl
    · exact h.commit_of_keeps rfl fun q _ => hm.keeps fun _ _ => ⟨⟨_, rfl⟩, rfl⟩
    · exact hm.reading h (fun _ _ => rfl) fun _ _ hx => hx.elim
  · cases hs

/-- Everything but the contents of the control after the release of a sleep-lock. -/
theorem Moved.parts_of_unlock (h : s.Inv L) (hidle : s.point p = .idle) (hp : s.Holds p b)
    (hclean : s.dirty b = false)
    (hm : Moved s s' p (.leaving b) b { s.buf b with lock := none } (s.dirty b)) :
    s'.Content ∧ s'.Refs ∧ s'.Points := by
  refine ⟨hm.content h.content ⟨(h.content.clean b).1, fun hd => ?_⟩ fun _ hv => ⟨rfl, rfl, hv⟩,
    hm.refs h.refs ?_ Iff.rfl ?_ (h.refs.device_of_holds hp),
    hm.points h.points (by simp [hidle]) ?_ ?_ nofun nofun nofun nofun⟩
  · rw [hclean] at hd
    cases hd
  · intro c hc
    simp [hidle, Point.Uses, Ne.symm hc]
  · have hlock : (s.buf b).lock = some p.val := hp
    simp [hidle, Point.Uses, hlock]
  · exact fun q dev n _ hq => h.points.waiting q dev n b hq
  · exact fun q hqp hq => absurd (hq.eq hp) hqp

variable {v : Buf} {d : Bool}

theorem Moved.logged {x : Point} {k : Nat} (hm : Moved s s' p x b v d)
    (h : s.Logged L k) : s'.Logged L k := by
  intro i n hi hn
  rw [hm.lh] at hn
  rw [hm.latest]
  exact h i n hi hn

theorem Moved.progress {x : Point} (hm : Moved s s' p x b v d) {pass : Pass}
    {tail : Nat} (h : s.Progress L pass tail) : s'.Progress L pass tail := by
  cases pass with
  | log => exact ⟨hm.unpinned.trans h.1, hm.logged h.2⟩
  | install => exact ⟨hm.unpinned.trans h.1, hm.lh ▸ hm.logged h.2⟩

theorem Moved.headTime {x : Point} (hm : Moved s s' p x b v d) {erase : Bool}
    (h : s.HeadTime L erase) : s'.HeadTime L erase := by
  cases erase with
  | false => exact ⟨hm.unpinned.trans h.1, hm.lh ▸ hm.logged h.2⟩
  | true => exact ⟨hm.unpinned.trans h.1, hm.lh.trans h.2⟩

theorem Moved.hasClean_ne {x : Point} (hm : Moved s s' p x b v d)
    (hc : c ≠ b) (h : s.HasClean q c n) : s'.HasClean q c n := by
  refine ⟨⟨?_, ?_, ?_, ?_⟩, ?_⟩
  · rw [Holds, hm.buf_ne hc]
    exact h.holds
  · rw [hm.buf_ne hc]
    exact h.dev
  · rw [hm.buf_ne hc]
    exact h.blockno
  · rw [hm.buf_ne hc]
    exact h.valid
  · rw [hm.dirty, update_of_ne hc]
    exact h.clean

/-- The log block and the home block of an entry are in different buffers. -/
theorem Control.log_ne_home (h : s.Control L) {tail : Nat} {l d : BufId} (hn : s.lh[tail]? = some n)
    (hl : s.Has p l (L.start + tail + 1)) (hd : s.Has p d n) : l ≠ d := by
  rintro rfl
  have hlt : tail < s.lh.length := (List.getElem?_eq_some_iff.mp hn).1
  have hhome := h.home n (mem_of_getElem? hn)
  rw [← hd.blockno, hl.blockno] at hhome
  exact h.logBlock hlt hhome

/-- What `commit` releases has no unwritten changes, and the next statement does not need it. -/
theorem AtPc.releases {x next : Pc} (h : s.AtPc L p x) (hc : s.Control L)
    (hx : x.releases = some (b, next)) : s.dirty b = false ∧ next ≠ .user ∧
      (Moved s s' p (.leaving b) b { s.buf b with lock := none } (s.dirty b) →
        s'.AtPc L p next) := by
  cases x with
  | release pass tail l d =>
    obtain ⟨hprog, hl, n, hn, hd⟩ := h
    have hlt : tail < s.lh.length := (List.getElem?_eq_some_iff.mp hn).1
    have hne := hc.log_ne_home hn hl.toHas hd.toHas
    cases pass with
    | log =>
      cases hx
      exact ⟨hd.clean, nofun, fun hm => ⟨hm.lh ▸ hlt, hm.progress hprog, _, hm.hasClean_ne hne hl⟩⟩
    | install =>
      cases hx
      exact ⟨hl.clean, nofun, fun hm => ⟨hm.lh ▸ hlt, hm.progress hprog, _,
        hm.hasClean_ne hne.symm hd⟩⟩
  | releaseLast pass tail c =>
    obtain ⟨hlt, hprog, n, hb⟩ := h
    cases hx
    exact ⟨hb.clean, nofun, fun hm => ⟨hm.lh ▸ hlt, hm.progress hprog⟩⟩
  | releaseHead erase c =>
    obtain ⟨htime, hb⟩ := h
    cases erase with
    | false =>
      cases hx
      exact ⟨hb.clean, nofun, fun hm => ⟨zero_le, hm.headTime htime⟩⟩
    | true =>
      cases hx
      exact ⟨hb.clean, nofun, fun hm => hm.headTime htime⟩
  | write pass tail l d => cases pass <;> cases hx
  | _ => cases hx

theorem Inv.unlock (h : s.Inv L) (hs : s.unlock p b = .ok s') : s'.Inv L := by
  obtain ⟨order, hlru⟩ := h.lru
  simp only [System.unlock] at hs
  split at hs
  · cases hs
  · rename_i hpoint
    have hidle : s.point p = .idle := by simpa using hpoint
    split at hs
    · cases hs
    · rename_i hholds
      have hp : s.Holds p b := by simpa using hholds
      split at hs
      · rename_i huser
        split at hs
        · rename_i hclean
          cases hs
          have hm : Moved s ((s.setBuf b { s.buf b with lock := none }).setPoint p (.leaving b)) p
              (.leaving b) b { s.buf b with lock := none } (s.dirty b) :=
            ⟨rfl, (update_eq_self b s.dirty).symm, rfl, rfl, rfl, rfl, rfl, rfl, rfl, rfl⟩
          obtain ⟨hcontent, hrefs, hpoints⟩ := hm.parts_of_unlock h hidle hp hclean
          refine ⟨⟨order, hlru.setBuf_of_block rfl rfl⟩, hcontent, hrefs, hpoints,
            hm.control h.control fun _ => Iff.rfl, ?_,
            hm.reading h (fun _ _ => rfl) fun _ _ hx => hx.elim⟩
          refine h.commit_of_keeps rfl fun q hq => hm.keeps fun hqb _ => ?_
          rw [hqb.eq hp] at hq
          exact absurd huser hq
        · cases hs
      · rename_i huser
        split at hs
        · rename_i b' next hreleases
          split at hs
          · rename_i hb
            subst hb
            cases hs
            obtain ⟨hclean, hnext, hat⟩ := (h.commit p).releases h.control hreleases
            have hm : Moved s (((s.setBuf b { s.buf b with lock := none }).setPoint p
                (.leaving b)).setPc p next) p (.leaving b) b { s.buf b with lock := none }
                (s.dirty b) :=
              ⟨rfl, (update_eq_self b s.dirty).symm, rfl, rfl, rfl, rfl, rfl, rfl, rfl, rfl⟩
            obtain ⟨hcontent, hrefs, hpoints⟩ := hm.parts_of_unlock h hidle hp hclean
            exact ⟨⟨order, hlru.setBuf_of_block rfl rfl⟩, hcontent, hrefs, hpoints,
              hm.control h.control (user_iff_of_update huser hnext rfl),
              h.commit_of_setPc huser rfl (hat hm),
              hm.reading h (fun q hq => update_of_ne hq _ _) fun _ _ hx => hx.elim⟩
          · cases hs
        · cases hs

end Release

section Write

/-- The parts of the invariant that do not look at the data. -/
theorem Inv.parts_of_store (h : s.Inv L) (b : BufId) : (s.store b).Refs ∧ (s.store b).Points :=
  ⟨⟨h.refs.count, h.refs.device⟩,
    ⟨h.points.waiting, h.points.filling, h.points.filled, h.points.owner⟩⟩

theorem Inv.content_store (h : s.Inv L) (hidle : s.point p = .idle) (hp : s.Holds p b) :
    (s.store b).Content := by
  obtain ⟨order, hlru⟩ := h.lru
  refine h.content.publish hlru (h.refs.device_of_holds hp) (h.valid_of_holds hidle hp)
    (fun c => ⟨_, rfl⟩) rfl rfl ?_ fun n hn => .inr hn
  intro n hn
  by_cases hnb : n = (s.buf b).blockno
  · subst hnb
    simp [store, publish]
  · simp only [store, publish, update_of_ne hnb]
    exact h.content.stored n hn

/-- A block outside the header and its log blocks is written. -/
theorem logged_of_update {k : Nat} (h : s.Logged L k) (hlh : s'.lh = s.lh) {m : Nat} {v : Block}
    (hlatest : s'.latest = update s.latest m v) (hm : m ∉ s.lh)
    (hlog : ∀ i < k, i < s.lh.length → L.start + i + 1 ≠ m) : s'.Logged L k := by
  intro i n hi hn
  rw [hlh] at hn
  have hlt : i < s.lh.length := (List.getElem?_eq_some_iff.mp hn).1
  have hnm : n ≠ m := fun heq => hm (heq ▸ mem_of_getElem? hn)
  rw [hlatest, update_of_ne hnm, update_of_ne (hlog i hi hlt)]
  exact h i n hi hn

theorem store_hasClean (h : s.HasClean p c n) (b : BufId) : (s.store b).HasClean p c n := by
  refine ⟨⟨h.holds, h.dev, h.blockno, h.valid⟩, ?_⟩
  by_cases hc : c = b
  · subst hc
    exact update_self ..
  · exact (update_of_ne hc _ _).trans h.clean

theorem store_hasClean_self (h : s.Has p b n) : (s.store b).HasClean p b n :=
  ⟨⟨h.holds, h.dev, h.blockno, h.valid⟩, update_self ..⟩

/-- The header block is neither in the header nor one of its log blocks. -/
theorem Control.start_notMem (hc : s.Control L) : L.start ∉ s.lh := by
  intro hm
  have hpos := L.size_pos
  have hhome := hc.home _ hm
  simp only [LogArea.Home] at hhome
  omega

theorem HeadTime.store {erase : Bool} (h : s.HeadTime L erase) (hc : s.Control L)
    (hb : s.Has p b L.start) : (s.store b).HeadTime L erase := by
  cases erase with
  | false =>
    refine ⟨h.1, logged_of_update h.2 rfl rfl (hb.blockno ▸ hc.start_notMem) fun i _ _ => ?_⟩
    rw [hb.blockno]
    omega
  | true => exact h

/-- `write_log` has written the next entry. -/
theorem Logged.store {tail : Nat} (h : s.Logged L tail) (hc : s.Control L)
    (hn : s.lh[tail]? = some n) (hb : s.Has p b (L.start + tail + 1))
    (hdata : (s.buf b).data = s.latest n) : (s.store b).Logged L (tail + 1) := by
  have hlt : tail < s.lh.length := (List.getElem?_eq_some_iff.mp hn).1
  have hnotin : (s.buf b).blockno ∉ s.lh := by
    rw [hb.blockno]
    exact fun hm => hc.logBlock hlt (hc.home _ hm)
  have hbefore : (s.store b).Logged L tail := by
    refine logged_of_update h rfl rfl hnotin fun i hi _ => ?_
    rw [hb.blockno]
    omega
  intro i m hi hm
  rcases Nat.lt_succ_iff_lt_or_eq.mp hi with hi | rfl
  · exact hbefore i m hi hm
  · have hmn : m = n := some.inj (hm.symm.trans hn)
    subst hmn
    have hne : m ≠ (s.buf b).blockno := fun heq => hnotin (heq ▸ mem_of_getElem? hn)
    simp only [store, publish, update_of_ne hne]
    rw [← hb.blockno, update_self, hdata]

/-- Writing the latest data of a block again changes nothing for its readers. -/
theorem store_latest (hdata : (s.buf b).data = s.latest (s.buf b).blockno) :
    (s.store b).latest = s.latest := by
  simp only [store, publish, hdata]
  exact update_eq_self _ _

/-- The `bwrite` of `install_trans` writes data that readers already see. -/
theorem AtPc.written_eq {x next : Pc} (h : s.AtPc L p x) (hx : x.writes = some (b, next)) :
    s.written b x = s.store b := by
  cases x with
  | write pass tail l d =>
    cases pass with
    | log => rfl
    | install =>
      obtain ⟨_, _, n, _, hd, hdata⟩ := h
      cases hx
      have hlatest : s.latest = (s.store b).latest := (store_latest (hd.blockno ▸ hdata)).symm
      simp only [written, flush, store, publish, setDirty] at hlatest ⊢
      rw [← hlatest]
  | _ => rfl

/-- What a statement relies on does not depend on where the processes are. -/
theorem AtPc.setPc {x y : Pc} (h : s.AtPc L p x) (hc : s.Control L) (q : Pid) :
    (s.setPc q y).AtPc L p x := by
  have hk : Keeps L s (s.setPc q y) p :=
    ⟨rfl, rfl, fun _ _ => rfl, fun _ _ => rfl, fun _ _ _ => ⟨_, rfl⟩, fun _ _ _ => rfl⟩
  exact hk.atPc hc h

/-- The process in `commit` goes to its next statement. -/
theorem Inv.of_setPc {next : Pc} (hlru : ∃ order, s.cache.Lru order) (hcontent : s.Content)
    (hrefs : s.Refs) (hpoints : s.Points) (hcontrol : s.Control L) (hp : s.pc p ≠ .user)
    (hidle : s.point p = .idle) (hnext : next ≠ .user) (hat : s.AtPc L p next) :
    (s.setPc p next).Inv L := by
  have huser : ∀ q, (s.setPc p next).pc q = .user ↔ s.pc q = .user :=
    user_iff_of_update hp hnext rfl
  refine ⟨hlru, ⟨hcontent.clean, hcontent.stored, hcontent.cached⟩, ⟨hrefs.count, hrefs.device⟩,
    ⟨hpoints.waiting, hpoints.filling, hpoints.filled, hpoints.owner⟩, ?_, ?_, ?_⟩
  · exact ⟨hcontrol.nodup, hcontrol.home, hcontrol.fits, hcontrol.ops,
      fun q hq => ⟨(huser q).mpr (hcontrol.opFree q hq).1, (hcontrol.opFree q hq).2⟩,
      fun q hq => hcontrol.committer q (mt (huser q).mpr hq),
      fun q r hq hr => hcontrol.single q r (mt (huser q).mpr hq) (mt (huser r).mpr hr),
      hcontrol.unpinned⟩
  · intro q
    by_cases hq : q = p
    · subst hq
      simp only [setPc, update_self]
      exact hat.setPc hcontrol q
    · have huserq : (s.setPc p next).pc q = .user := by
        rw [huser]
        by_contra hne
        exact hq (hcontrol.single q p hne hp)
      rw [huserq]
      trivial
  · intro q n hq hn
    have hqp : q = p := hcontrol.single q p (mt (huser q).mpr hq) hp
    subst hqp
    have hreads : Point.Reads n .idle := hidle ▸ hn
    exact hreads.elim

theorem Control.store (h : s.Control L) (b : BufId) : (s.store b).Control L :=
  ⟨h.nodup, h.home, h.fits, h.ops, h.opFree, h.committer, h.single, h.unpinned⟩

/-- What the next statement relies on after `commit` has written a buffer. -/
theorem AtPc.writes {x next : Pc} (h : s.AtPc L p x) (hc : s.Control L)
    (hx : x.writes = some (b, next)) : next ≠ .user ∧ (s.store b).AtPc L p next := by
  cases x with
  | write pass tail l d =>
    cases pass with
    | log =>
      obtain ⟨hprog, hl, n, hn, hd, hdata⟩ := h
      cases hx
      exact ⟨nofun, ⟨hprog.1, hprog.2.store hc hn hl hdata⟩, store_hasClean_self hl, n, hn,
        store_hasClean hd _⟩
    | install =>
      obtain ⟨hprog, hl, n, hn, hd, hdata⟩ := h
      cases hx
      have hlatest : (s.store b).latest = s.latest := store_latest (hd.blockno ▸ hdata)
      refine ⟨nofun, ⟨hprog.1, ?_⟩, store_hasClean hl _, n, hn, store_hasClean_self hd, ?_⟩
      · intro i m hi hm
        rw [hlatest]
        exact hprog.2 i m hi hm
      · rw [hlatest, ← hdata, ← hd.blockno]
        exact update_self ..
  | writeHead erase c =>
    obtain ⟨htime, hb⟩ := h
    cases hx
    exact ⟨nofun, htime.store hc hb, store_hasClean_self hb⟩
  | _ => cases hx

/-- A client writes a block that the commit in progress, if any, does not use. -/
theorem Inv.keeps_store (h : s.Inv L) (huser : s.pc p = .user) (hp : s.Holds p b)
    (hblock : s.committing = true → L.Home (s.buf b).blockno ∧ (s.buf b).blockno ∉ s.lh)
    (hq : s.pc q ≠ .user) : Keeps L s (s.store b) q := by
  obtain ⟨hhome, hnotin⟩ := hblock (h.control.committer q hq)
  have hdirty : ∀ c, s.Holds q c → c ≠ b := by
    rintro c hc rfl
    rw [hc.eq hp] at hq
    exact hq huser
  refine ⟨rfl, rfl, ?_, ?_, fun c _ _ => ⟨_, rfl⟩, ?_⟩
  · intro n hn
    refine update_of_ne ?_ _ _
    rintro rfl
    exact hn.elim hnotin (absurd hhome)
  · intro n hn
    refine update_of_ne ?_ _ _
    rintro rfl
    exact hnotin hn
  · exact fun c hc _ => update_of_ne (hdirty c hc) _ _

theorem Inv.bwrite (h : s.Inv L)
    (hblock : s.pc p = .user → s.committing = true →
      L.Home (s.buf b).blockno ∧ (s.buf b).blockno ∉ s.lh)
    (hs : s.bwrite p b = .ok s') : s'.Inv L := by
  obtain ⟨hrefs, hpoints⟩ := h.parts_of_store b
  simp only [System.bwrite] at hs
  split at hs
  · cases hs
  · rename_i hpoint
    have hidle : s.point p = .idle := by simpa using hpoint
    split at hs
    · cases hs
    · rename_i hholds
      have hp : s.Holds p b := by simpa using hholds
      have hcontent := h.content_store hidle hp
      split at hs
      · rename_i huser
        cases hs
        exact ⟨h.lru, hcontent, hrefs, hpoints, h.control.store b,
          h.commit_of_keeps rfl fun q hq => h.keeps_store huser hp (hblock huser) hq, h.reading⟩
      · rename_i huser
        split at hs
        · rename_i b' next hwrites
          split at hs
          · rename_i hb
            subst hb
            cases hs
            obtain ⟨hnext, hat⟩ := (h.commit p).writes h.control hwrites
            rw [(h.commit p).written_eq hwrites]
            exact Inv.of_setPc h.lru hcontent hrefs hpoints (h.control.store b) huser hidle hnext hat
          · cases hs
        · cases hs

/-- No process is in `commit` while one is in an operation. -/
theorem Control.user_of_op (h : s.Control L) (hp : s.inOp p = true) (q : Pid) : s.pc q = .user := by
  by_contra hq
  have hcommitting := h.committer q hq
  rw [(h.opFree p hp).2] at hcommitting
  cases hcommitting

theorem Control.pending_of_op (h : s.Control L) (hp : s.inOp p = true) : s.pending = s.lh := by
  rw [pending, h.unpinned (h.opFree p hp).2]
  rfl

/-- `log_write` of a block that is already in the header. -/
theorem Inv.record_listed (h : s.Inv L) (hfree : s.Free p) (hp : s.Holds p b)
    (hop : s.inOp p = true) (hmem : (s.buf b).blockno ∈ s.lh) : (s.publish b).Inv L := by
  obtain ⟨order, hlru⟩ := h.lru
  have huser := h.control.user_of_op hop
  refine ⟨h.lru, ?_, ⟨h.refs.count, h.refs.device⟩,
    ⟨h.points.waiting, h.points.filling, h.points.filled, h.points.owner⟩,
    ⟨h.control.nodup, h.control.home, h.control.fits, h.control.ops, h.control.opFree,
      h.control.committer, h.control.single, h.control.unpinned⟩, ?_, h.reading⟩
  · refine h.content.publish hlru (h.refs.device_of_holds hp) (h.valid_of_holds hfree.2 hp)
      (fun c => ⟨_, rfl⟩) rfl rfl ?_ fun n hn => .inr hn
    intro n hn
    have hpending : n ∉ s.lh := h.control.pending_of_op hop ▸ hn
    have hne : n ≠ (s.buf b).blockno := fun heq => hpending (heq ▸ hmem)
    simp only [publish, update_of_ne hne]
    exact h.content.stored n hn
  · exact h.commit_of_keeps rfl fun q hq => absurd (huser q) hq

/-- The count of a buffer changes together with the entries of the log that pin it. -/
theorem Refs.repin (h : s.Refs) {order : List BufId} (hlru : s.cache.Lru order)
    (hdev : (s.buf b).dev = rootdev) {r : UInt32}
    (hbuf : s'.buf = update s.buf b { s.buf b with refcnt := r })
    (hpoint : s'.point = s.point)
    (hpending : ∀ n, n ≠ (s.buf b).blockno → (n ∈ s'.pending ↔ n ∈ s.pending))
    (hcount : r.toNat + (if (s.buf b).blockno ∈ s.pending then 1 else 0) =
      (s.buf b).refcnt.toNat + if (s.buf b).blockno ∈ s'.pending then 1 else 0) : s'.Refs := by
  obtain ⟨hself, hne⟩ := eq_update_iff.mp hbuf
  have husers : ∀ c, s'.users c = s.users c := by
    intro c
    rw [users, users, waiters, waiters, hpoint]
    by_cases hc : c = b
    · subst hc
      rw [hself]
    · rw [hne c hc]
  constructor
  · intro c
    rw [husers]
    by_cases hc : c = b
    · subst hc
      have hold := h.count c
      simp only [Pinned, hself, hdev, true_and] at hold ⊢
      omega
    · -- Another buffer of the device holds another block.
      have hpinned : s'.Pinned c ↔ s.Pinned c := by
        rw [Pinned, Pinned, hne c hc]
        refine and_congr_right fun hcdev => hpending _ fun heq => hc ?_
        have hroot : (s.cache.buf c).dev = rootdev := hcdev
        exact hlru.unique c b (by rw [hroot]; decide) (hroot.trans hdev.symm) heq
      rw [hne c hc]
      simp only [hpinned]
      exact h.count c
  · intro c hc
    rw [husers] at hc
    have hdevc := h.device c hc
    by_cases hcb : c = b
    · subst hcb
      rw [hself]
      exact hdev
    · rw [hne c hcb]
      exact hdevc

/-- The points of the processes do not look at the reference counts. -/
theorem Points.of_refcnt (h : s.Points) {r : UInt32}
    (hbuf : s'.buf = update s.buf b { s.buf b with refcnt := r })
    (hpoint : s'.point = s.point) : s'.Points := by
  have hc : ∀ c, ∃ r, s'.buf c = { s.buf c with refcnt := r } := by
    intro c
    rw [hbuf]
    by_cases hcb : c = b
    · subst hcb
      exact ⟨r, update_self ..⟩
    · exact ⟨_, update_of_ne hcb _ _⟩
  have hholds : ∀ q c, s'.Holds q c ↔ s.Holds q c := by
    intro q c
    obtain ⟨r, hr⟩ := hc c
    rw [Holds, Holds, hr]
  constructor
  · intro q dev n c hq
    obtain ⟨r, hr⟩ := hc c
    rw [hpoint] at hq
    rw [hr]
    exact h.waiting q dev n c hq
  · intro q dev n c hq
    obtain ⟨r, hr⟩ := hc c
    rw [hpoint] at hq
    rw [hholds, hr]
    exact h.filling q dev n c hq
  · intro q c hq
    obtain ⟨r, hr⟩ := hc c
    rw [hr, hpoint]
    exact h.filled q c ((hholds q c).mp hq)
  · intro c y hy
    obtain ⟨r, hr⟩ := hc c
    rw [hr] at hy
    obtain ⟨q, hq⟩ := h.owner c y hy
    exact ⟨q, (hholds q c).mpr hq⟩

/-- `log_write` of a new block pins its buffer. -/
theorem Inv.record_new (h : s.Inv L) (hfree : s.Free p) (hp : s.Holds p b) (hop : s.inOp p = true)
    (hmem : (s.buf b).blockno ∉ s.lh) (hhome : L.Home (s.buf b).blockno)
    (hfits : s.lh.length < L.size - 1)
    (hs' : s' = { s.publish b with
      cache := s.cache.bpin b
      lh := absorb s.lh (s.buf b).blockno }) : s'.Inv L := by
  obtain ⟨order, hlru⟩ := h.lru
  have huser := h.control.user_of_op hop
  have hpending := h.control.pending_of_op hop
  have hunpinned := h.control.unpinned (h.control.opFree p hop).2
  have hdev := h.refs.device_of_holds hp
  have hbuf : s'.buf = update s.buf b
      { s.buf b with refcnt := (s.buf b).refcnt + 1 } := by rw [hs']; rfl
  have hlh : s'.lh = s.lh ++ [(s.buf b).blockno] := by
    rw [hs']
    exact if_neg hmem
  have hpending' : s'.pending = s.lh ++ [(s.buf b).blockno] := by
    have hzero : s'.unpinned = 0 := by rw [hs']; exact hunpinned
    rw [pending, hzero, hlh]
    rfl
  have hpc : s'.pc = s.pc := by rw [hs']; rfl
  refine ⟨?_, ?_, ?_, ?_, ?_, ?_, ?_⟩
  · rw [hs']
    exact ⟨order, hlru.setBuf_of_block rfl rfl⟩
  · refine h.content.publish hlru hdev (h.valid_of_holds hfree.2 hp) ?_ (by rw [hs']; rfl)
      (by rw [hs']; rfl) ?_ ?_
    · intro c
      rw [hbuf]
      by_cases hc : c = b
      · subst hc
        exact ⟨_, update_self ..⟩
      · exact ⟨_, update_of_ne hc _ _⟩
    · intro n hn
      rw [hpending', mem_append, mem_singleton, not_or] at hn
      have hold := h.content.stored n (hpending ▸ hn.1)
      rw [hs']
      simp only [publish, setDirty, update_of_ne hn.2]
      exact hold
    · intro n hn
      rw [hpending', mem_append, mem_singleton] at hn
      rw [hpending]
      exact hn.symm
  · refine h.refs.repin hlru hdev hbuf (by rw [hs']; rfl) ?_ ?_
    · intro n hn
      simp [hpending', hpending, hn]
    · rw [hpending', hpending, if_neg hmem, if_pos (by simp), toNat_add_one (h.refs.refcnt_le b)]
  · exact h.points.of_refcnt hbuf (by rw [hs']; rfl)
  · rw [hs']
    refine ⟨absorb_nodup h.control.nodup, ?_, ?_, h.control.ops, h.control.opFree,
      h.control.committer, h.control.single, h.control.unpinned⟩
    · intro n hn
      rcases mem_absorb hn with rfl | hn
      · exact hhome
      · exact h.control.home n hn
    · rw [absorb, if_neg hmem, length_append, length_singleton]
      omega
  · intro q
    rw [hpc, huser q]
    trivial
  · intro q n hq
    rw [hpc] at hq
    exact absurd (huser q) hq

theorem Inv.logWrite (h : s.Inv L) (hhome : L.Home (s.buf b).blockno)
    (hs : s.logWrite L p b = .ok s') : s'.Inv L := by
  obtain ⟨⟨hfree, hp, hop⟩, hs⟩ := of_guard hs
  obtain ⟨hroom, hs⟩ := of_guard_not hs
  obtain ⟨_, ⟨⟩⟩ := of_guard_not hs
  simp only [record]
  split
  · rename_i hmem
    exact h.record_listed hfree hp hop hmem
  · rename_i hmem
    exact h.record_new hfree hp hop hmem hhome (by omega) rfl

end Write

end System

end FogOS.Bio
