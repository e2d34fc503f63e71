import FogOS.Log.Commit

/-!
# Crash atomicity of the redo log

The disk below the log stands for the disk it recovers to: a home block that
the header lists has its contents in the log, every other home block has them in
place. Each atomic write of `commit` and of `recover_from_log` keeps this
logical disk, except the first `write_head` of a commit, which installs the
whole transaction at once.
-/

namespace FogOS.Log

open Function Library Bytes List

variable {L : LogArea} {bs : List Nat}

section Header

/-- The header that `write_head` stores is the one `read_head` reads. -/
theorem headBlocks_putHead (hb : Block) (hlen : bs.length ≤ logSize)
    (hbs : ∀ b ∈ bs, b < 2 ^ 32) : headBlocks (putHead hb bs) = bs := by
  have hsmall : bs.length < 2 ^ 31 := by
    simp only [logSize, maxOpBlocks] at hlen
    omega
  have hn : getLE (putHead hb bs) 0 4 = bs.length := by
    rw [putHead, getLE_setWords_disjoint bs (by omega), getLE_setLE_same]
    exact Nat.mod_eq_of_lt (by omega)
  apply ext_getElem
  · simp only [headBlocks, hn, if_pos hsmall, length_map, length_range]
  · intro i h₁ h₂
    simp only [headBlocks, getElem_map, getElem_range]
    rw [putHead, getLE_setWords h₂]
    exact Nat.mod_eq_of_lt (hbs _ (getElem_mem h₂))

end Header

/-- The list a header may hold: distinct home block numbers that fit the log. -/
structure Listable (L : LogArea) (bs : List Nat) : Prop where
  nodup : bs.Nodup
  home : ∀ b ∈ bs, L.Home b
  isUint : ∀ b ∈ bs, b < 2 ^ 32
  fits : bs.length ≤ L.size - 1

variable {e : Nat × Nat}

namespace Listable

theorem nil (L : LogArea) : Listable L [] where
  nodup := nodup_nil
  home := by simp
  isUint := by simp
  fits := by simp

theorem length_le (h : Listable L bs) : bs.length ≤ logSize := by
  have h₁ := h.fits
  have h₂ := L.size_le
  omega

theorem headBlocks_putHead (h : Listable L bs) (hb : Block) : headBlocks (putHead hb bs) = bs :=
  Log.headBlocks_putHead hb h.length_le h.isUint

/-- The log block of an entry lies inside the log area and is not the header. -/
theorem slot_lt (h : Listable L bs)
    (he : e ∈ bs.zipIdx) : L.start + e.2 + 1 < L.start + L.size := by
  have hlt : e.2 < bs.length := by
    have := snd_lt_of_mem_zipIdx he
    omega
  have h₁ := h.fits
  omega

theorem home_of_mem_zipIdx (h : Listable L bs) (he : e ∈ bs.zipIdx) : L.Home e.1 :=
  h.home _ (fst_mem_of_mem_zipIdx he)

end Listable

/-- The disk recovers to `H`: listed blocks have their contents in the log, the other
home blocks have them in place. -/
structure Recovers (L : LogArea) (d H : Disk) : Prop where
  listable : Listable L (headBlocks (d L.start))
  slots : ∀ e ∈ (headBlocks (d L.start)).zipIdx, d (L.start + e.2 + 1) = H e.1
  place : ∀ b, L.Home b → b ∉ headBlocks (d L.start) → d b = H b

/-- The commit counters of a machine. -/
def Counts (k r : Nat) (m : Machine) : Prop := m.committed = k ∧ m.returned = r

/-- Between transactions: the log is empty and the cache agrees with the disk. -/
structure AtRest (L : LogArea) (H : Disk) (m : Machine) : Prop where
  lh : m.lh = []
  head : headBlocks (m.disk L.start) = []
  place : ∀ b, L.Home b → m.disk b = H b
  cached : m.buf = m.disk

/-- During a transaction: the cache has the new contents, the disk the old ones. -/
structure Filled (L : LogArea) (H H' : Disk) (m : Machine) : Prop where
  listable : Listable L m.lh
  head : headBlocks (m.disk L.start) = []
  place : ∀ b, L.Home b → m.disk b = H b
  fresh : ∀ b, L.Home b → m.buf b = H' b
  cached : ∀ b, b ∉ m.lh → m.buf b = m.disk b

/-- The header lists the in-memory entries and the log has their contents. -/
structure Logged (L : LogArea) (H : Disk) (m : Machine) : Prop where
  listable : Listable L m.lh
  head : headBlocks (m.disk L.start) = m.lh
  slots : ∀ e ∈ m.lh.zipIdx, m.disk (L.start + e.2 + 1) = H e.1
  place : ∀ b, L.Home b → b ∉ m.lh → m.disk b = H b
  cached : ∀ b, b ∉ m.lh → m.buf b = m.disk b

theorem not_mem_of_not_home (h : Listable L bs) {b : Nat} (hb : ¬ L.Home b) : b ∉ bs :=
  fun hmem => hb (h.home b hmem)

theorem start_not_home (L : LogArea) : ¬ L.Home L.start := by
  have := L.size_pos
  simp only [LogArea.Home]
  omega

theorem slot_not_home {i : Nat} (h : L.start + i + 1 < L.start + L.size) :
    ¬ L.Home (L.start + i + 1) := by
  simp only [LogArea.Home]
  omega

theorem recovers_of_empty {d H : Disk} (hhead : headBlocks (d L.start) = [])
    (hplace : ∀ b, L.Home b → d b = H b) : Recovers L d H where
  listable := hhead ▸ Listable.nil L
  slots := by simp [hhead]
  place := fun b hb _ => hplace b hb

variable {m : Machine}

theorem AtRest.recovers {H : Disk} (h : AtRest L H m) : Recovers L m.disk H :=
  recovers_of_empty h.head h.place

theorem Filled.recovers {H H' : Disk} (h : Filled L H H' m) : Recovers L m.disk H :=
  recovers_of_empty h.head h.place

theorem Logged.recovers {H : Disk} (h : Logged L H m) : Recovers L m.disk H where
  listable := h.head ▸ h.listable
  slots := by
    rw [h.head]
    exact h.slots
  place := by
    rw [h.head]
    exact h.place

section Copying

variable {cut : Machine → Prop}

/-- One block copy: the cached and the stored destination get the cached source. -/
theorem copyBlock_triple {pre post : Machine → Prop} {dst src : Nat}
    (hcut : ∀ m, pre m → cut (m.setBuf dst (m.buf src)))
    (hpost : ∀ m, pre m → post ((m.setBuf dst (m.buf src)).store dst)) :
    Triple pre (copyBlock dst src) post cut := by
  apply Triple.seq (R := fun m => ∃ m₀, pre m₀ ∧ m = m₀.setBuf dst (m₀.buf src))
  · exact Triple.modify fun m hm => ⟨m, hm, rfl⟩
  · apply Triple.atomic
    · rintro m ⟨m₀, hm₀, rfl⟩
      exact hcut m₀ hm₀
    · rintro m ⟨m₀, hm₀, rfl⟩
      exact hpost m₀ hm₀

/-- Writing the header: the header block is filled in and stored. -/
theorem writeHead_triple {pre post : Machine → Prop}
    (hcut : ∀ m, pre m → cut (m.setBuf L.start (putHead (m.buf L.start) m.lh)))
    (hpost : ∀ m, pre m → post ((m.setBuf L.start (putHead (m.buf L.start) m.lh)).store L.start)) :
    Triple pre (writeHead L) post cut := by
  apply Triple.seq (R := fun m => ∃ m₀, pre m₀ ∧
    m = m₀.setBuf L.start (putHead (m₀.buf L.start) m₀.lh))
  · exact Triple.modify fun m hm => ⟨m, hm, rfl⟩
  · apply Triple.atomic
    · rintro m ⟨m₀, hm₀, rfl⟩
      exact hcut m₀ hm₀
    · rintro m ⟨m₀, hm₀, rfl⟩
      exact hpost m₀ hm₀

end Copying

section Phases

variable {H K : Disk} {k r : Nat}

/-- Two entries with one index are the same entry. -/
theorem entry_eq_of_index {e' : Nat × Nat} (he : e ∈ bs.zipIdx)
    (he' : e' ∈ bs.zipIdx) (h : e.2 = e'.2) : e.1 = e'.1 := by
  rw [mem_zipIdx_iff_getElem?] at he he'
  rw [h, he'] at he
  exact (Option.some.inj he).symm

/-- Copying one block into the log keeps the transaction open. -/
theorem Filled.logBlock (h : Filled L H K m) (he : e ∈ m.lh.zipIdx) :
    Filled L H K ((m.setBuf (L.start + e.2 + 1) (m.buf e.1)).store (L.start + e.2 + 1)) := by
  have hslot : ¬ L.Home (L.start + e.2 + 1) := slot_not_home (h.listable.slot_lt he)
  have hne : ∀ b, L.Home b → b ≠ L.start + e.2 + 1 := fun b hb heq => hslot (heq ▸ hb)
  have hstart : L.start ≠ L.start + e.2 + 1 := by omega
  constructor
  · exact h.listable
  · simpa [Machine.setBuf, Machine.store, update_of_ne hstart] using h.head
  · intro b hb
    simpa [Machine.setBuf, Machine.store, update_of_ne (hne b hb)] using h.place b hb
  · intro b hb
    simpa [Machine.setBuf, Machine.store, update_of_ne (hne b hb)] using h.fresh b hb
  · intro b hb
    by_cases heq : b = L.start + e.2 + 1
    · subst heq
      simp [Machine.setBuf, Machine.store]
    · simpa [Machine.setBuf, Machine.store, update_of_ne heq] using h.cached b hb

/-- `write_log` puts the new contents of every listed block into its log block. -/
theorem writeLog_triple :
    Triple (fun m => Filled L H K m ∧ Counts k r m) (writeLog L)
      (fun m => Filled L H K m ∧ Counts k r m ∧
        ∀ e ∈ m.lh.zipIdx, m.disk (L.start + e.2 + 1) = K e.1)
      (fun m => Recovers L m.disk H ∧ Counts k r m) := by
  apply Triple.read
  intro t
  -- the entries already copied are those in front of the remaining ones
  have hloop := Triple.forEach (C := fun m => Recovers L m.disk H ∧ Counts k r m)
    (I := fun rest m => Filled L H K m ∧ Counts k r m ∧ ∃ copied,
      m.lh.zipIdx = copied ++ rest ∧ ∀ e ∈ copied, m.disk (L.start + e.2 + 1) = K e.1)
    (by
      intro e rest
      apply copyBlock_triple
      · rintro m ⟨hf, hc, _⟩
        exact ⟨hf.recovers, hc⟩
      · rintro m ⟨hf, hc, copied, hsplit, hcopied⟩
        have he : e ∈ m.lh.zipIdx := by simp [hsplit]
        have hval : m.buf e.1 = K e.1 := hf.fresh _ (hf.listable.home_of_mem_zipIdx he)
        refine ⟨hf.logBlock he, hc, copied ++ [e], by simpa using hsplit, ?_⟩
        intro e' he'
        by_cases hidx : e'.2 = e.2
        · have hmem : e' ∈ m.lh.zipIdx := by
            rw [hsplit]
            rcases mem_append.mp he' with h | h
            · exact mem_append_left _ h
            · exact mem_append_right _ (by simp [mem_singleton.mp h])
          have heq : e'.1 = e.1 := entry_eq_of_index hmem he hidx
          simp [Machine.setBuf, Machine.store, hidx, heq, hval]
        · have hin : e' ∈ copied := by
            rcases mem_append.mp he' with h | h
            · exact h
            · exact absurd (congrArg Prod.snd (mem_singleton.mp h)) hidx
          have hslot : L.start + e'.2 + 1 ≠ L.start + e.2 + 1 := by omega
          simpa [Machine.setBuf, Machine.store, update_of_ne hslot] using hcopied e' hin)
    t.lh.zipIdx
  apply hloop.weaken
  · rintro m ⟨⟨hf, hc⟩, rfl⟩
    exact ⟨hf, hc, [], rfl, by simp⟩
  · rintro m ⟨hf, hc, copied, hsplit, hcopied⟩
    rw [append_nil] at hsplit
    exact ⟨hf, hc, fun e he => hcopied e (hsplit ▸ he)⟩
  · exact fun m hm => hm

/-- The first `write_head` of a commit makes the disk recover to the new contents. -/
theorem writeHead_commit_triple :
    Triple (fun m => Filled L H K m ∧ Counts k r m ∧
        ∀ e ∈ m.lh.zipIdx, m.disk (L.start + e.2 + 1) = K e.1)
      (writeHead L) (fun m => Logged L K m ∧ Counts k r m)
      (fun m => Recovers L m.disk H ∧ Counts k r m) := by
  apply writeHead_triple
  · rintro m ⟨hf, hc, _⟩
    exact ⟨hf.recovers, hc⟩
  · rintro m ⟨hf, hc, hslots⟩
    refine ⟨?_, hc⟩
    have hhome : ∀ b, L.Home b → b ≠ L.start := fun b hb heq => start_not_home L (heq ▸ hb)
    constructor
    · exact hf.listable
    · simpa [Machine.setBuf, Machine.store] using hf.listable.headBlocks_putHead _
    · intro e he
      have hne : L.start + e.2 + 1 ≠ L.start := by omega
      simpa [Machine.setBuf, Machine.store, update_of_ne hne] using hslots e he
    · intro b hb hmem
      have hval : m.disk b = K b := (hf.cached b hmem).symm.trans (hf.fresh b hb)
      simpa [Machine.setBuf, Machine.store, update_of_ne (hhome b hb)] using hval
    · intro b hmem
      by_cases heq : b = L.start
      · subst heq
        simp [Machine.setBuf, Machine.store]
      · simpa [Machine.setBuf, Machine.store, update_of_ne heq] using hf.cached b hmem

/-- Copying one block home keeps the contents the disk recovers to. -/
theorem Logged.installBlock (h : Logged L H m) (he : e ∈ m.lh.zipIdx) :
    Logged L H ((m.setBuf e.1 (m.buf (L.start + e.2 + 1))).store e.1) := by
  have hhome : L.Home e.1 := h.listable.home_of_mem_zipIdx he
  have hmem : e.1 ∈ m.lh := fst_mem_of_mem_zipIdx he
  have hstart : L.start ≠ e.1 := fun heq => start_not_home L (heq ▸ hhome)
  have hne : ∀ b, b ∉ m.lh → b ≠ e.1 := fun b hb heq => hb (heq ▸ hmem)
  constructor
  · exact h.listable
  · simpa [Machine.setBuf, Machine.store, update_of_ne hstart] using h.head
  · intro e' he'
    have hslot : L.start + e'.2 + 1 ≠ e.1 :=
      fun heq => slot_not_home (h.listable.slot_lt he') (heq ▸ hhome)
    simpa [Machine.setBuf, Machine.store, update_of_ne hslot] using h.slots e' he'
  · intro b hb hnot
    simpa [Machine.setBuf, Machine.store, update_of_ne (hne b hnot)] using h.place b hb hnot
  · intro b hnot
    simpa [Machine.setBuf, Machine.store, update_of_ne (hne b hnot)] using h.cached b hnot

/-- `install_trans` brings every home block to the contents the disk recovers to. -/
theorem installTrans_triple :
    Triple (fun m => Logged L H m ∧ Counts k r m) (installTrans L)
      (fun m => Recovers L m.disk H ∧ Counts k r m ∧ m.buf = m.disk ∧
        ∀ b, L.Home b → m.disk b = H b)
      (fun m => Recovers L m.disk H ∧ Counts k r m) := by
  apply Triple.read
  intro t
  have hloop := Triple.forEach (C := fun m => Recovers L m.disk H ∧ Counts k r m)
    (I := fun rest m => Logged L H m ∧ Counts k r m ∧ ∃ installed, m.lh.zipIdx = installed ++ rest ∧
        ∀ e ∈ installed, m.disk e.1 = H e.1 ∧ m.buf e.1 = H e.1)
    (by
      intro e rest
      apply copyBlock_triple
      · rintro m ⟨hl, hc, _⟩
        exact ⟨hl.recovers, hc⟩
      · rintro m ⟨hl, hc, installed, hsplit, hdone⟩
        have he : e ∈ m.lh.zipIdx := by simp [hsplit]
        have hslot : L.start + e.2 + 1 ∉ m.lh :=
          not_mem_of_not_home hl.listable (slot_not_home (hl.listable.slot_lt he))
        have hval : m.buf (L.start + e.2 + 1) = H e.1 :=
          (hl.cached _ hslot).trans (hl.slots e he)
        refine ⟨hl.installBlock he, hc, installed ++ [e], by simpa using hsplit, ?_⟩
        intro e' he'
        by_cases heq : e'.1 = e.1
        · simp [Machine.setBuf, Machine.store, heq, hval]
        · have hin : e' ∈ installed := by
            rcases mem_append.mp he' with h | h
            · exact h
            · exact absurd (congrArg Prod.fst (mem_singleton.mp h)) heq
          simpa [Machine.setBuf, Machine.store, update_of_ne heq] using hdone e' hin)
    t.lh.zipIdx
  apply hloop.weaken
  · rintro m ⟨⟨hl, hc⟩, rfl⟩
    exact ⟨hl, hc, [], rfl, by simp⟩
  · rintro m ⟨hl, hc, installed, hsplit, hdone⟩
    rw [append_nil] at hsplit
    have hlisted : ∀ b ∈ m.lh, m.disk b = H b ∧ m.buf b = H b := by
      intro b hb
      obtain ⟨i, hi⟩ := mem_iff_getElem?.mp hb
      exact hdone (b, i) (hsplit ▸ mem_zipIdx_iff_getElem?.mpr hi)
    refine ⟨hl.recovers, hc, ?_, ?_⟩
    · funext b
      by_cases hb : b ∈ m.lh
      · rw [(hlisted b hb).1, (hlisted b hb).2]
      · exact hl.cached b hb
    · intro b hb
      by_cases hmem : b ∈ m.lh
      · exact (hlisted b hmem).1
      · exact hl.place b hb hmem
  · exact fun m hm => hm

/-- The last `write_head` empties the log. -/
theorem writeHead_clear_triple :
    Triple (fun m => Recovers L m.disk H ∧ Counts k r m ∧ m.buf = m.disk ∧
        ∀ b, L.Home b → m.disk b = H b)
      (Program.seq clearHead (writeHead L)) (fun m => AtRest L H m ∧ Counts k r m)
      (fun m => Recovers L m.disk H ∧ Counts k r m) := by
  apply Triple.seq (R := fun m => m.lh = [] ∧ Recovers L m.disk H ∧ Counts k r m ∧
    m.buf = m.disk ∧ ∀ b, L.Home b → m.disk b = H b)
  · exact Triple.modify fun m hm => ⟨rfl, hm⟩
  · apply writeHead_triple
    · rintro m ⟨_, hr, hc, _⟩
      exact ⟨hr, hc⟩
    · rintro m ⟨hlh, _, hc, hbuf, hplace⟩
      refine ⟨?_, hc⟩
      constructor
      · exact hlh
      · simpa [Machine.setBuf, Machine.store, hlh] using
          (Listable.nil L).headBlocks_putHead (m.buf L.start)
      · intro b hb
        have hne : b ≠ L.start := fun heq => start_not_home L (heq ▸ hb)
        simpa [Machine.setBuf, Machine.store, update_of_ne hne] using hplace b hb
      · simp [Machine.setBuf, Machine.store, hbuf]

end Phases

section Atomicity

variable {H : Disk} {k : Nat}

/-- What a cut leaves behind: a disk that recovers to the contents of the committed
transactions, with at most one commit past the last that returned. -/
def Cut (L : LogArea) (hist : Nat → Disk) (m : Machine) : Prop :=
  Recovers L m.disk (hist m.committed) ∧ m.returned ≤ m.committed ∧ m.committed ≤ m.returned + 1

theorem Cut.of_counts {hist : Nat → Disk} {r : Nat} (h : Recovers L m.disk (hist k) ∧ Counts k r m)
    (h₁ : r ≤ k) (h₂ : k ≤ r + 1) : Cut L hist m := by
  obtain ⟨hr, hk, hr'⟩ := h
  subst hk hr'
  exact ⟨hr, h₁, h₂⟩

/-- A commit with something to write moves the disk from one transaction to the next. -/
theorem commit_triple (hist : Nat → Disk) :
    Triple (fun m => Filled L (hist k) (hist (k + 1)) m ∧ Counts k k m ∧ m.lh ≠ [])
      (commit L) (fun m => AtRest L (hist (k + 1)) m ∧ Counts (k + 1) (k + 1) m)
      (Cut L hist) := by
  apply Triple.read
  intro t
  by_cases ht : 0 < t.lh.length
  · rw [if_pos ht]
    have hbefore : ∀ m, Recovers L m.disk (hist k) ∧ Counts k k m → Cut L hist m :=
      fun m hm => Cut.of_counts hm (by omega) (by omega)
    have hafter : ∀ m, Recovers L m.disk (hist (k + 1)) ∧ Counts (k + 1) k m → Cut L hist m :=
      fun m hm => Cut.of_counts hm (by omega) (by omega)
    have hlog := (writeLog_triple (L := L) (H := hist k) (K := hist (k + 1)) (k := k)
      (r := k)).weaken (fun m hm => hm) (fun m hm => hm) hbefore
    have hhead := (writeHead_commit_triple (L := L) (H := hist k) (K := hist (k + 1))
      (k := k) (r := k)).weaken (fun m hm => hm) (fun m hm => hm) hbefore
    have hinstall := (installTrans_triple (L := L) (H := hist (k + 1)) (k := k + 1)
      (r := k)).weaken (fun m hm => hm) (fun m hm => hm) hafter
    have hclear := (writeHead_clear_triple (L := L) (H := hist (k + 1)) (k := k + 1)
      (r := k)).weaken (fun m hm => hm) (fun m hm => hm) hafter
    have hcount : Triple (fun m => Logged L (hist (k + 1)) m ∧ Counts k k m)
        (Program.modify fun m : Machine => { m with committed := m.committed + 1 })
        (fun m => Logged L (hist (k + 1)) m ∧ Counts (k + 1) k m) (Cut L hist) := by
      apply Triple.modify
      rintro m ⟨hl, hc⟩
      exact ⟨⟨hl.listable, hl.head, hl.slots, hl.place, hl.cached⟩, by simp [hc.1], hc.2⟩
    have hreturn : Triple (fun m => AtRest L (hist (k + 1)) m ∧ Counts (k + 1) k m)
        (Program.modify fun m : Machine => { m with returned := m.returned + 1 })
        (fun m => AtRest L (hist (k + 1)) m ∧ Counts (k + 1) (k + 1) m) (Cut L hist) := by
      apply Triple.modify
      rintro m ⟨ha, hc⟩
      exact ⟨⟨ha.lh, ha.head, ha.place, ha.cached⟩, hc.1, by simp [hc.2]⟩
    have hall := hlog.seq (hhead.seq (hcount.seq (hinstall.seq (hclear.seq hreturn))))
    apply hall.weaken
    · rintro m ⟨⟨hf, hc, _⟩, _⟩
      exact ⟨hf, hc⟩
    · exact fun m hm => hm
    · exact fun m hm => hm
  · rintro m n ⟨⟨_, _, hne⟩, rfl⟩
    exact absurd (length_pos_iff.mpr hne) ht

theorem commit_empty_triple (hist : Nat → Disk) :
    Triple (fun m => AtRest L (hist k) m ∧ Counts k k m) (commit L)
      (fun m => AtRest L (hist k) m ∧ Counts k k m) (Cut L hist) := by
  rintro m n ⟨ha, hc⟩
  have hlen : ¬ 0 < m.lh.length := by simp [ha.lh]
  simp only [commit, Program.read, if_neg hlen, Program.skip]
  exact ⟨ha, hc⟩

/-- Applying the writes of a prefix of a transaction to the cache. -/
theorem Filled.logWrite {H₀ : Disk} (h : Filled L H₀ H m) {w : Nat × Block}
    (hfresh : w.1 ∉ m.lh) (hlist : Listable L (m.lh ++ [w.1])) :
    Filled L H₀ (update H w.1 w.2) { m.setBuf w.1 w.2 with lh := absorb m.lh w.1 } := by
  have habs : absorb m.lh w.1 = m.lh ++ [w.1] := by simp [absorb, hfresh]
  constructor
  · simpa [habs] using hlist
  · exact h.head
  · exact h.place
  · intro b hb
    by_cases heq : b = w.1
    · subst heq
      simp [Machine.setBuf]
    · simpa [Machine.setBuf, update_of_ne heq] using h.fresh b hb
  · intro b hb
    simp only [habs, mem_append, mem_singleton, not_or] at hb
    simpa [Machine.setBuf, update_of_ne hb.2] using h.cached b hb.1

theorem Listable.of_prefix {cs : List Nat} (h : Listable L (bs ++ cs)) : Listable L bs where
  nodup := h.nodup.of_append_left
  home := fun b hb => h.home b (mem_append_left _ hb)
  isUint := fun b hb => h.isUint b (mem_append_left _ hb)
  fits := by
    have := h.fits
    simp only [length_append] at this
    omega

theorem Transaction.listable (tx : Transaction L) : Listable L tx.blocks where
  nodup := tx.nodup
  home := tx.home
  isUint := tx.isUint
  fits := by simpa [Transaction.blocks] using tx.fits

theorem AtRest.filled (h : AtRest L H m) : Filled L H H m where
  listable := h.lh ▸ Listable.nil L
  head := h.head
  place := h.place
  fresh := fun b hb => by rw [h.cached, h.place b hb]
  cached := fun b _ => by rw [h.cached]

/-- The `log_write`s of a transaction put its contents into the cache. -/
theorem logWrites_triple (tx : Transaction L) (cut : Machine → Prop) :
    Triple (fun m => AtRest L H m ∧ Counts k k m) (Program.forEach logWrite tx.writes)
      (fun m => Filled L H (tx.apply H) m ∧ Counts k k m ∧ m.lh = tx.blocks) cut := by
  have hloop := Triple.forEach (C := cut) (b := logWrite)
    (I := fun rest m => ∃ pre, tx.writes = pre ++ rest ∧ m.lh = pre.map Prod.fst ∧
      Filled L H (pre.foldl (fun d w => update d w.1 w.2) H) m ∧ Counts k k m)
    (by
      intro w rest
      apply Triple.modify
      rintro m ⟨pre, hsplit, hlh, hf, hc⟩
      have hblocks : tx.blocks = (m.lh ++ [w.1]) ++ rest.map Prod.fst := by
        simp [Transaction.blocks, hsplit, hlh]
      have hlist : Listable L (m.lh ++ [w.1]) :=
        Listable.of_prefix (hblocks ▸ tx.listable)
      have hfresh : w.1 ∉ m.lh := by
        intro hmem
        have hdisj := disjoint_of_nodup_append hlist.nodup
        exact hdisj hmem (by simp)
      refine ⟨pre ++ [w], by simp [hsplit], ?_, ?_, hc⟩
      · rw [absorb, if_neg hfresh, hlh, map_append]
        rfl
      · simpa using hf.logWrite hfresh hlist)
    tx.writes
  apply hloop.weaken
  · rintro m ⟨ha, hc⟩
    exact ⟨[], rfl, by simp [ha.lh], ha.filled, hc⟩
  · rintro m ⟨pre, hsplit, hlh, hf, hc⟩
    rw [append_nil] at hsplit
    subst hsplit
    exact ⟨hf, hc, hlh⟩
  · exact fun m hm => hm

/-- One transaction, from rest to rest. -/
theorem transact_triple (hist : Nat → Disk) (tx : Transaction L) (hne : tx.writes ≠ [])
    (hnext : hist (k + 1) = tx.apply (hist k)) :
    Triple (fun m => AtRest L (hist k) m ∧ Counts k k m) (transact L tx)
      (fun m => AtRest L (hist (k + 1)) m ∧ Counts (k + 1) (k + 1) m) (Cut L hist) := by
  refine Triple.seq (logWrites_triple tx (Cut L hist)) ?_
  apply (commit_triple (k := k) hist).weaken
  · rintro m ⟨hf, hc, hlh⟩
    refine ⟨hnext ▸ hf, hc, ?_⟩
    rw [hlh]
    simpa [Transaction.blocks] using hne
  · exact fun m hm => hm
  · exact fun m hm => hm

theorem transact_empty_triple (hist : Nat → Disk) (tx : Transaction L) (hnil : tx.writes = []) :
    Triple (fun m => AtRest L (hist k) m ∧ Counts k k m) (transact L tx)
      (fun m => AtRest L (hist k) m ∧ Counts k k m) (Cut L hist) := by
  unfold transact
  rw [hnil]
  exact Triple.seq (Triple.skip _ _) (commit_empty_triple hist)

namespace Transaction

theorem logged_append (txs rest : List (Transaction L)) :
    logged (txs ++ rest) = logged txs ++ logged rest := by
  simp [logged]

theorem logged_singleton_of_ne {tx : Transaction L} (h : tx.writes ≠ []) : logged [tx] = [tx] := by
  simp [logged, h]

theorem logged_singleton_of_nil {tx : Transaction L} (h : tx.writes = []) : logged [tx] = [] := by
  simp [logged, h]

end Transaction

/-- The contents after the first `k` transactions that write anything. -/
def history (txs : List (Transaction L)) (d : Disk) (k : Nat) : Disk :=
  Transaction.applyAll ((Transaction.logged txs).take k) d

theorem history_length (done rest : List (Transaction L)) (d : Disk) :
    history (done ++ rest) d (Transaction.logged done).length =
      Transaction.applyAll (Transaction.logged done) d := by
  simp [history, Transaction.logged_append]

/-- Every cut of a sequence of transactions leaves a disk that recovers to the contents
of the committed ones. -/
theorem transactAll_triple (txs : List (Transaction L)) (d : Disk) :
    Triple (fun m => AtRest L d m ∧ Counts 0 0 m) (transactAll L txs)
      (fun m => AtRest L (history txs d m.committed) m ∧ m.returned = m.committed)
      (Cut L (history txs d)) := by
  have hloop := Triple.forEach (C := Cut L (history txs d)) (b := transact L)
    (I := fun rest m => ∃ done, txs = done ++ rest ∧
      AtRest L (history txs d (Transaction.logged done).length) m ∧
      Counts (Transaction.logged done).length (Transaction.logged done).length m)
    (by
      intro tx rest
      apply Triple.of_forall
      intro done
      apply Triple.of_imp
      intro hsplit
      have hsplit' : txs = (done ++ [tx]) ++ rest := by simpa using hsplit
      by_cases hnil : tx.writes = []
      · have hlen : (Transaction.logged (done ++ [tx])).length =
            (Transaction.logged done).length := by
          simp [Transaction.logged_append, Transaction.logged_singleton_of_nil hnil]
        have hstep := transact_empty_triple (k := (Transaction.logged done).length)
          (history txs d) tx hnil
        refine hstep.weaken (fun m hm => hm) (fun m hm => ?_) (fun m hm => hm)
        exact ⟨done ++ [tx], hsplit', hlen.symm ▸ hm⟩
      · have hlogged : Transaction.logged (done ++ [tx]) = Transaction.logged done ++ [tx] := by
          simp [Transaction.logged_append, Transaction.logged_singleton_of_ne hnil]
        have hlen : (Transaction.logged (done ++ [tx])).length =
            (Transaction.logged done).length + 1 := by
          simp [hlogged]
        have hnext : history txs d ((Transaction.logged done).length + 1) =
            tx.apply (history txs d (Transaction.logged done).length) := by
          calc
            history txs d ((Transaction.logged done).length + 1) =
                Transaction.applyAll (Transaction.logged (done ++ [tx])) d := by
              rw [← hlen, hsplit', history_length]
            _ = tx.apply (Transaction.applyAll (Transaction.logged done) d) := by
              simp [hlogged, Transaction.applyAll]
            _ = tx.apply (history txs d (Transaction.logged done).length) := by
              rw [hsplit, history_length]
        have hstep := transact_triple (history txs d) tx hnil hnext
        refine hstep.weaken (fun m hm => hm) (fun m hm => ?_) (fun m hm => hm)
        exact ⟨done ++ [tx], hsplit', hlen.symm ▸ hm⟩)
    txs
  apply hloop.weaken
  · rintro m ⟨ha, hc⟩
    exact ⟨[], rfl, ha, hc⟩
  · rintro m ⟨done, hsplit, ha, hc⟩
    exact ⟨hc.1.symm ▸ ha, hc.2.trans hc.1.symm⟩
  · exact fun m hm => hm

/-- Recovery keeps what the disk recovers to at every cut, and puts it in place if it
is completed. -/
theorem recoverFromLog_triple (H : Disk) :
    Triple (fun m => Recovers L m.disk H ∧ m.buf = m.disk) (recoverFromLog L)
      (AtRest L H) (fun m => Recovers L m.disk H) := by
  -- the counters play no part in recovery: they stay at what they are
  have hread (c : Nat × Nat) : Triple (fun m => (Recovers L m.disk H ∧ m.buf = m.disk) ∧
      Counts c.1 c.2 m) (readHead L) (fun m => Logged L H m ∧ Counts c.1 c.2 m)
      (fun m => Recovers L m.disk H ∧ Counts c.1 c.2 m) := by
    apply Triple.modify
    rintro m ⟨⟨hr, hbuf⟩, hc⟩
    have hlogged : Logged L H { m with lh := headBlocks (m.buf L.start) } := by
      rw [hbuf]
      exact ⟨hr.listable, rfl, hr.slots, hr.place, fun _ _ => rfl⟩
    exact ⟨hlogged, hc⟩
  have hall (c : Nat × Nat) := ((hread c).seq
    (installTrans_triple.seq writeHead_clear_triple)).weaken (fun m hm => hm)
      (fun m hm => hm.1) (fun m hm => hm.1)
  apply (Triple.of_forall hall).weaken
  · exact fun m hm => ⟨(m.committed, m.returned), hm, rfl, rfl⟩
  · exact fun m hm => hm
  · exact fun m hm => hm

theorem reboot_recovers {d : Disk} (h : Recovers L d H) (n : Nat) : Recovers L (reboot L d n) H :=
  (recoverFromLog_triple H).state (fun _ hm => hm.recovers) n ⟨h, rfl⟩

theorem reboots_recovers (cuts : List Nat) {d : Disk} (h : Recovers L d H) :
    Recovers L (cuts.foldl (reboot L) d) H := by
  induction cuts generalizing d with
  | nil => exact h
  | cons n cuts ih => exact ih (reboot_recovers h n)

/-- A kernel that runs transactions from an empty log is cut after any number of block
writes, any number of recoveries are cut as well, and one recovery completes: the home
blocks are those of the committed transactions, which are all that returned and at most
one more. -/
theorem recovery_applies_committed (txs : List (Transaction L)) (d : Disk)
    (hempty : headBlocks (d L.start) = []) (n : Nat) (cuts : List Nat) (n' : Nat)
    (crash m : Machine) (left : Nat) (hcrash : (transactAll L txs (Machine.boot d) n).state = crash)
    (hdone : recoverFromLog L (Machine.boot (cuts.foldl (reboot L) crash.disk)) n' = .done m left) :
    (∀ b, L.Home b → m.disk b =
        Transaction.applyAll ((Transaction.logged txs).take crash.committed) d b) ∧
      crash.returned ≤ crash.committed ∧ crash.committed ≤ crash.returned + 1 := by
  have hboot : AtRest L d (Machine.boot d) := ⟨rfl, hempty, fun _ _ => rfl, rfl⟩
  have hcut : Cut L (history txs d) crash := by
    rw [← hcrash]
    apply (transactAll_triple txs d).state
    · rintro s ⟨ha, hc⟩
      exact ⟨ha.recovers, by omega, by omega⟩
    · exact ⟨hboot, rfl, rfl⟩
  obtain ⟨hrec, hle, hge⟩ := hcut
  have hrest := (recoverFromLog_triple (history txs d crash.committed)).done
    ⟨reboots_recovers cuts hrec, rfl⟩ hdone
  exact ⟨hrest.place, hle, hge⟩

/-- A loop of block copies completes when the budget covers its items. -/
theorem forEach_copyBlock_completes {ι : Type*} (dst src : ι → Nat) (xs : List ι) (m : Machine)
    (n : Nat) : ∃ m', Program.forEach (fun x => copyBlock (dst x) (src x)) xs m
      (xs.length + n) = .done m' n := by
  induction xs generalizing m with
  | nil => exact ⟨m, by simp [Program.forEach, Program.skip]⟩
  | cons x xs ih =>
    have hlen : (x :: xs).length + n = xs.length + n + 1 := by
      rw [length_cons]
      omega
    obtain ⟨m', hm'⟩ := ih ((m.setBuf (dst x) (m.buf (src x))).store (dst x))
    refine ⟨m', ?_⟩
    rw [hlen]
    exact hm'

/-- Recovery completes once it is given one write for each entry and one for the header. -/
theorem recoverFromLog_completes (L : LogArea) (m : Machine) {n : Nat}
    (hn : (headBlocks (m.buf L.start)).length < n) :
    ∃ m' left, recoverFromLog L m n = .done m' left := by
  obtain ⟨extra, rfl⟩ : ∃ extra, n = ((headBlocks (m.buf L.start)).zipIdx).length + (extra + 1) :=
    ⟨n - (headBlocks (m.buf L.start)).length - 1, by rw [length_zipIdx]; omega⟩
  obtain ⟨m', hm'⟩ := forEach_copyBlock_completes (fun e : Nat × Nat => e.1)
    (fun e => L.start + e.2 + 1) (headBlocks (m.buf L.start)).zipIdx
    { m with lh := headBlocks (m.buf L.start) } (extra + 1)
  refine ⟨(Machine.setBuf L.start (putHead (m'.buf L.start) []) { m' with lh := [] }).store
    L.start, extra, ?_⟩
  simp only [recoverFromLog, readHead, installTrans, Program.seq, Program.modify, Program.read,
    hm', clearHead, writeHead, bwrite, Program.atomic]

theorem length_headBlocks_lt (hb : Block) : (headBlocks hb).length < 2 ^ 31 := by
  simp only [headBlocks, length_map, length_range]
  split <;> omega

/-- A transaction of one home block of the `mkfs` layout. -/
def oneBlock : Transaction LogArea.mkfs where
  writes := [(100, fun _ => 7)]
  nodup := by decide
  home := by decide
  isUint := by decide
  fits := by decide

/-- The commit is cut between the header and the installation: recovery installs the
block. -/
theorem recovery_applies_oneBlock :
    ∃ crash m : Machine, ∃ left : Nat,
      (transactAll LogArea.mkfs [oneBlock] (Machine.boot fun _ _ => 0) 2).state = crash ∧
      recoverFromLog LogArea.mkfs (Machine.boot crash.disk) (2 ^ 31) = .done m left ∧
      crash.committed = 1 ∧
      ∀ b, LogArea.mkfs.Home b → m.disk b = Transaction.applyAll
          ((Transaction.logged [oneBlock]).take crash.committed) (fun _ _ => 0) b := by
  obtain ⟨m, left, hdone⟩ := recoverFromLog_completes LogArea.mkfs
    (Machine.boot (transactAll LogArea.mkfs [oneBlock] (Machine.boot fun _ _ => 0) 2).state.disk)
    (length_headBlocks_lt _)
  exact ⟨_, m, left, rfl, hdone, rfl, (recovery_applies_committed [oneBlock] (fun _ _ => 0)
    (by simp [headBlocks, getLE]) 2 [] (2 ^ 31) _ m left rfl hdone).1⟩

end Atomicity

end FogOS.Log
