import FogOS.Bio.Calls

/-!
# The statements of `commit` keep the invariant

What is left of `commit` and `end_op` besides `bread`, `bwrite` and `brelse`: the loop tests, the
copies, the unpinning and the changes of the header.
-/

namespace FogOS.Bio

open Function Library Log List

namespace System

variable {L : LogArea} {s s' : System} {p q : Pid} {b c : BufId} {n tail : Nat}

section

variable (h : s.Inv L)

include h

/-- A statement that leaves everything but the control. -/
theorem Inv.setPc {next : Pc} (hp : s.pc p ≠ .user) (hidle : s.point p = .idle)
    (hnext : next ≠ .user) (hat : s.AtPc L p next) : (s.setPc p next).Inv L :=
  Inv.of_setPc h.lru h.content h.refs h.points h.control hp hidle hnext hat

/-- A statement that changes the data of a buffer that `commit` has locked. -/
theorem Inv.changeData {data : Block} {next : Pc} (hp : s.pc p ≠ .user)
    (hidle : s.point p = .idle) (hb : s.Holds p b) (hnext : next ≠ .user)
    (hat : ∀ s' : System, Moved s s' p .idle b { s.buf b with data := data } true →
      s'.AtPc L p next) :
    (((s.setBuf b { s.buf b with data := data }).setDirty b true).setPc p next).Inv L := by
  obtain ⟨order, hlru⟩ := h.lru
  have hm : Moved s ((s.setBuf b { s.buf b with data := data }).setDirty b true) p .idle b
      { s.buf b with data := data } true :=
    ⟨rfl, rfl, hidle ▸ (update_eq_self p s.point).symm, rfl, rfl, rfl, rfl, rfl, rfl, rfl⟩
  obtain ⟨hcontent, hrefs, hpoints⟩ := hm.parts_of_data h hidle hb
  exact Inv.of_setPc ⟨order, hlru.setBuf_of_block rfl rfl⟩ hcontent hrefs hpoints
    (hm.control h.control fun _ => Iff.rfl) hp hidle hnext (hat _ hm)

omit h in
theorem Moved.has_self {x : Point} {data : Block} {d : Bool}
    (hm : Moved s s' p x b { s.buf b with data := data } d) (h : s.Has q b n) : s'.Has q b n := by
  refine ⟨?_, ?_, ?_, ?_⟩
  · rw [Holds, hm.buf_self]
    exact h.holds
  · rw [hm.buf_self]
    exact h.dev
  · rw [hm.buf_self]
    exact h.blockno
  · rw [hm.buf_self]
    exact h.valid

/-- The data of a buffer without unwritten changes. -/
theorem Inv.data_of_hasClean (hb : s.HasClean p b n) : (s.buf b).data = s.latest n :=
  hb.blockno ▸ (h.content.clean b).1 hb.dev hb.valid hb.clean

/-- `memmove(to->data, from->data, BSIZE)` in `write_log`. -/
theorem Inv.copyLog {l d : BufId} (hp : s.pc p = .copy .log tail l d)
    (hidle : s.point p = .idle) : ((s.memmove l d).setPc p (.write .log tail l d)).Inv L := by
  have hat := h.commit p
  rw [hp] at hat
  obtain ⟨hprog, hl, n, hn, hd⟩ := hat
  have hne := h.control.log_ne_home hn hl.toHas hd.toHas
  refine h.changeData (by rw [hp]; exact nofun) hidle hl.holds nofun fun s' hm => ?_
  refine ⟨hm.progress hprog, hm.has_self hl.toHas, n, hm.lh ▸ hn, hm.hasClean_ne hne.symm hd, ?_⟩
  rw [hm.buf_self, hm.latest]
  exact h.data_of_hasClean hd

/-- `memmove(dbuf->data, lbuf->data, BSIZE)` in `install_trans`: the log block holds what the home
block held when it was logged. -/
theorem Inv.copyInstall {l d : BufId} (hp : s.pc p = .copy .install tail l d)
    (hidle : s.point p = .idle) : ((s.memmove d l).setPc p (.write .install tail l d)).Inv L := by
  have hat := h.commit p
  rw [hp] at hat
  obtain ⟨hprog, hl, n, hn, hd⟩ := hat
  have hlt : tail < s.lh.length := (List.getElem?_eq_some_iff.mp hn).1
  have hne := h.control.log_ne_home hn hl.toHas hd.toHas
  refine h.changeData (by rw [hp]; exact nofun) hidle hd.holds nofun fun s' hm => ?_
  refine ⟨hm.progress hprog, hm.hasClean_ne hne hl, n, hm.lh ▸ hn, hm.has_self hd.toHas, ?_⟩
  rw [hm.buf_self, hm.latest]
  exact (h.data_of_hasClean hl).trans (hprog.2 tail n hlt hn)

theorem Inv.fillHead {erase : Bool} {data : Block} (hp : s.pc p = .fillHead erase b)
    (hidle : s.point p = .idle) :
    (((s.setBuf b { s.buf b with data := data }).setDirty b true).setPc p
      (.writeHead erase b)).Inv L := by
  have hat := h.commit p
  rw [hp] at hat
  obtain ⟨htime, hb⟩ := hat
  exact h.changeData (by rw [hp]; exact nofun) hidle hb.holds nofun fun s' hm =>
    ⟨hm.headTime htime, hm.has_self hb.toHas⟩

/-- `bunpin(dbuf)` after the entry has been written home. -/
theorem Inv.unpin {l d : BufId} (hp : s.pc p = .unpin tail l d) (hidle : s.point p = .idle)
    (hs' : s' = { s with cache := s.cache.bunpin d, unpinned := s.unpinned + 1 }) :
    (s'.setPc p (.release .install tail l d)).Inv L := by
  obtain ⟨order, hlru⟩ := h.lru
  have hat := h.commit p
  rw [hp] at hat
  obtain ⟨hprog, hl, n, hn, hd, hdisk⟩ := hat
  obtain ⟨hlt, hget⟩ := List.getElem?_eq_some_iff.mp hn
  have hpc : s'.pc = s.pc := by rw [hs']
  have hbuf : s'.buf = update s.buf d
      { s.buf d with refcnt := (s.buf d).refcnt - 1 } := by rw [hs']; rfl
  have hlh : s'.lh = s.lh := by rw [hs']
  have hlatest : s'.latest = s.latest := by rw [hs']
  -- The entry leaves the front of the pinned ones.
  have hpending : s.pending = n :: s'.pending := by
    rw [pending, pending, hs', hprog.1, drop_eq_getElem_cons hlt, hget]
  have hnodup : (n :: s'.pending).Nodup := hpending ▸ h.control.nodup.sublist (drop_sublist _ _)
  have hnotin : n ∉ s'.pending := (nodup_cons.mp hnodup).1
  have hpinned : s.Pinned d := ⟨hd.dev, by rw [hd.blockno, hpending]; exact mem_cons_self⟩
  have hne : (s.buf d).refcnt.toNat ≠ 0 := by
    rw [h.refs.count d, if_pos hpinned]
    omega
  have hkeeps : ∀ c, ∃ r, s'.buf c = { s.buf c with refcnt := r } := by
    intro c
    rw [hbuf]
    by_cases hc : c = d
    · subst hc
      exact ⟨_, update_self ..⟩
    · exact ⟨_, update_of_ne hc _ _⟩
  have hclean : ∀ c m, s.HasClean p c m → s'.HasClean p c m := by
    intro c m hc
    obtain ⟨r, hr⟩ := hkeeps c
    refine ⟨⟨?_, ?_, ?_, ?_⟩, ?_⟩
    · rw [Holds, hr]
      exact hc.holds
    · rw [hr]
      exact hc.dev
    · rw [hr]
      exact hc.blockno
    · rw [hr]
      exact hc.valid
    · rw [hs']
      exact hc.clean
  have hcommitter : s.pc p ≠ .user := by
    rw [hp]
    simp
  refine Inv.of_setPc ?_ ?_ ?_ ?_ ?_ (hpc ▸ hcommitter) (by rw [hs']; exact hidle) (by simp) ?_
  · rw [hs']
    exact ⟨order, hlru.setBuf_of_block rfl rfl⟩
  · constructor
    · intro c
      obtain ⟨r, hr⟩ := hkeeps c
      rw [hr, hs']
      exact h.content.clean c
    · intro m hm
      rw [hlatest, show s'.disk = s.disk by rw [hs']]
      by_cases hmn : m = n
      · rw [hmn]
        exact hdisk
      · exact h.content.stored m (by simp [hpending, hmn, hm])
    · intro m hm
      obtain ⟨c, hc⟩ := h.content.cached m (by simp [hpending, hm])
      obtain ⟨r, hr⟩ := hkeeps c
      refine ⟨c, ?_⟩
      rw [hr]
      exact hc
  · refine h.refs.repin hlru hd.dev hbuf (by rw [hs']) ?_ ?_
    · intro m hm
      rw [hd.blockno] at hm
      simp [hpending, hm]
    · rw [hd.blockno, hpending, if_pos mem_cons_self, if_neg hnotin, toNat_sub_one hne]
      omega
  · exact h.points.of_refcnt hbuf (by rw [hs'])
  · have hcommitting := h.control.committer p hcommitter
    rw [hs']
    refine ⟨h.control.nodup, h.control.home, h.control.fits, h.control.ops, h.control.opFree,
      h.control.committer, h.control.single, fun hc => ?_⟩
    rw [hcommitting] at hc
    cases hc
  · refine ⟨⟨?_, ?_⟩, hclean l _ hl, n, hlh ▸ hn, hclean d n hd⟩
    · rw [hs']
      exact congrArg (· + 1) hprog.1
    · intro i m hi hm
      rw [hlh] at hi hm
      rw [hlatest]
      exact hprog.2 i m hi hm

/-- `log.lh.n = 0`: every entry has been unpinned. -/
theorem Inv.clear (hp : s.pc p = .clear) (hidle : s.point p = .idle) :
    ({ s with lh := [], unpinned := 0 }.setPc p (.head true)).Inv L := by
  have hat : s.unpinned = s.lh.length := by
    have hcommit := h.commit p
    rw [hp] at hcommit
    exact hcommit
  have hpending : s.pending = [] := by
    rw [pending, hat]
    exact drop_length
  have hnone : ∀ n, n ∉ s.pending := by simp [hpending]
  have hcommitter : s.pc p ≠ .user := by
    rw [hp]
    simp
  refine Inv.of_setPc h.lru ⟨h.content.clean, fun n _ => h.content.stored n (hnone n), by rintro _ ⟨⟩⟩
    ⟨fun b => ?_, h.refs.device⟩
    ⟨h.points.waiting, h.points.filling, h.points.filled, h.points.owner⟩ ?_ hcommitter hidle (by simp)
    ⟨rfl, rfl⟩
  · have hcount := h.refs.count b
    rw [if_neg fun hpin => hnone _ hpin.2] at hcount
    rw [if_neg fun hpin => not_mem_nil hpin.2]
    exact hcount
  · exact ⟨nodup_nil, by simp, zero_le, h.control.ops, h.control.opFree,
      h.control.committer, h.control.single, fun _ => rfl⟩

/-- `log.committing = 0`. -/
theorem Inv.finish (hp : s.pc p = .finish) :
    ({ s with committing := false }.setPc p .user).Inv L := by
  have hat := h.commit p
  rw [hp] at hat
  have hcommitter : s.pc p ≠ .user := by
    rw [hp]
    exact nofun
  have huser : ∀ q, ({ s with committing := false }.setPc p .user).pc q = .user := by
    intro q
    by_cases hq : q = p
    · subst hq
      exact update_self ..
    · have hold : s.pc q = .user := by
        by_contra hne
        exact hq (h.control.single q p hne hcommitter)
      exact (update_of_ne hq _ _).trans hold
  refine ⟨h.lru, ⟨h.content.clean, h.content.stored, h.content.cached⟩,
    ⟨h.refs.count, h.refs.device⟩,
    ⟨h.points.waiting, h.points.filling, h.points.filled, h.points.owner⟩, ?_, ?_, ?_⟩
  · exact ⟨h.control.nodup, h.control.home, h.control.fits, h.control.ops,
      fun q _ => ⟨huser q, rfl⟩, fun q hq => absurd (huser q) hq,
      fun q r hq _ => absurd (huser q) hq, fun _ => hat.1⟩
  · intro q
    rw [huser q]
    trivial
  · exact fun q n hq => absurd (huser q) hq

/-- The end of a loop of `commit`. -/
theorem Inv.loopEnd {pass : Pass} (hp : s.pc p = .loop pass tail) (hidle : s.point p = .idle)
    (htail : ¬tail < s.lh.length) : (s.setPc p (.after pass)).Inv L := by
  have hat := h.commit p
  rw [hp] at hat
  obtain ⟨hle, hprog⟩ := hat
  have hend : tail = s.lh.length := by omega
  have hcommitter : s.pc p ≠ .user := by
    rw [hp]
    exact nofun
  cases pass with
  | log =>
    rw [hend] at hprog
    exact h.setPc hcommitter hidle nofun hprog
  | install => exact h.setPc hcommitter hidle nofun (hprog.1.trans hend)

theorem Inv.start (hp : s.pc p = .start) (hidle : s.point p = .idle) :
    (s.setPc p (if 0 < s.lh.length then .loop .log 0 else .finish)).Inv L := by
  have hat : s.unpinned = 0 := by
    have hcommit := h.commit p
    rw [hp] at hcommit
    exact hcommit
  have hcommitter : s.pc p ≠ .user := by
    rw [hp]
    exact nofun
  split
  · exact h.setPc hcommitter hidle nofun
      ⟨zero_le, hat, fun i n hi => absurd hi (Nat.not_lt_zero i)⟩
  · exact h.setPc hcommitter hidle nofun ⟨hat, length_eq_zero_iff.mp (by omega)⟩

theorem Inv.commitStep (hs : s.commit p = .ok s') : s'.Inv L := by
  obtain ⟨hpoint, hs⟩ := of_guard_not hs
  have hidle : s.point p = .idle := by simpa using hpoint
  split at hs
  · rename_i hp
    cases hs
    exact h.start hp hidle
  · rename_i pass tail hp
    obtain ⟨htail, ⟨⟩⟩ := of_guard_not hs
    exact h.loopEnd hp hidle htail
  · rename_i tail l d hp
    cases hs
    exact h.copyLog hp hidle
  · rename_i tail l d hp
    cases hs
    exact h.copyInstall hp hidle
  · rename_i tail l d hp
    cases hs
    exact h.unpin hp hidle rfl
  · rename_i erase b hp
    cases hs
    exact h.fillHead hp hidle
  · rename_i hp
    cases hs
    exact h.clear hp hidle
  · rename_i hp
    cases hs
    exact h.finish hp
  · cases hs

end

end System

end FogOS.Bio
