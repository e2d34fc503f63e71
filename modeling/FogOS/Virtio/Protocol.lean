import FogOS.Virtio.Flight

/-!
# The request protocol of the virtio disk

For any interleaving of callers, interrupt handlers and the device, and any number of requests, each
request is completed once and its caller returns after that, no descriptor is used twice, and the
panics of `free_desc` cannot be reached.
-/

namespace FogOS.Virtio

open Function Library List

variable {T B : Type} [DecidableEq T] [DecidableEq B]

/-- The result of a step: the invariant holds, or the step was not possible, or the device has
reported an error. -/
def Good : Except Fault (State T B) → Prop
  | .ok s => Inv s
  | .error e => e = .disabled ∨ e = .status

omit [DecidableEq T] [DecidableEq B] in
theorem inv_init : Inv (State.init : State T B) where
  locks t := iff_of_false (by simp [State.init, Pc.locked]) nofun
  bufs :=
    { busy := fun _ c h => nomatch (show none = some c from h)
      unique := fun _ _ c _ h => nomatch (show none = some c from h) }
  owned := by
    have hown (t : T) : ((State.init : State T B).pc t).owned = ∅ := rfl
    refine ⟨∅, fun t => ?_, fun t u x hx => ?_, fun i => ?_, fun t x hx => ?_⟩
    · simp [hown]
    · exact absurd hx (Finset.notMem_empty x)
    · simp only [hown, Finset.notMem_empty]
      simp [State.init, freeSet]
    · exact absurd hx (Finset.notMem_empty x)
  nodup t idx h := nomatch (h : none = some idx)
  chains t c idx h := nomatch (h : none = some (c, idx))
  requests :=
    { head := fun t c idx k h => nomatch (h : none = some (c, idx, k))
      unique := fun t u c d idx jdx k h => nomatch (h : none = some (c, idx, k))
      taken_le := le_refl _
      taken_perm := .refl _
      pending_head := fun p hp => absurd hp not_mem_nil
      consumed_le := le_refl _
      caller := fun k hk => absurd hk (Nat.not_lt_zero k)
      disk_iff := fun t c idx k h => nomatch (h : none = some (c, idx, k))
      mem_returned := fun k => iff_of_false not_mem_nil fun h => not_mem_nil h.1
      returned_nodup := nodup_nil }
  rings := ⟨Ring.holds_empty _ _, Ring.holds_empty _ _, rfl, rfl, rfl, rfl, rfl, le_refl _,
    le_refl _⟩
  places _ := trivial
  irq h := absurd h (lt_irrefl _)

namespace Inv

variable {s : State T B} {t : T}

omit [DecidableEq B] in
theorem good_acquire (h : Inv s) {p : Pc B} (hsame : p.Same (s.pc t)) (hlocked : p.locked = true)
    (hserving : (s.pc t).serving = false) (hplace : At s p) : Good (s.acquire t p) := by
  cases hs : s.acquire t p with
  | ok s' => exact h.acquire hs hsame hlocked hserving hplace
  | error e =>
    rw [State.acquire] at hs
    split_ifs at hs
    cases hs
    exact .inl rfl

/-- Each part of the code of a thread keeps the invariant. -/
theorem good_runThread (h : Inv s) (t : T) : Good (s.runThread t) := by
  rw [State.runThread]
  cases hpc : s.pc t with
  | idle => exact .inl rfl
  | enter c =>
    exact h.good_acquire (by rw [hpc]; exact ⟨rfl, rfl, rfl, rfl⟩) rfl (by rw [hpc]; rfl) trivial
  | alloc c =>
    rcases s.alloc3Desc_cases with ⟨idx, halloc, hnodup, hfree⟩ | ⟨s', halloc, hback, hfew⟩
    · simp only [halloc]
      exact h.reserve hpc hnodup hfree
    · simp only [halloc]
      exact h.sleepFree hpc hback hfew
  | sleepFree c => exact .inl rfl
  | wokenFree c =>
    exact h.good_acquire (by rw [hpc]; exact ⟨rfl, rfl, rfl, rfl⟩) rfl (by rw [hpc]; rfl) trivial
  | fill c idx => exact h.format hpc
  | put c idx => exact h.put hpc
  | bump c idx => exact h.bump hpc
  | check c idx k =>
    simp only
    split_ifs with hdisk
    · exact h.release (by rw [hpc]; exact ⟨rfl, rfl, rfl, rfl⟩) (by rw [hpc]; rfl) rfl hdisk
        (h.irq_move (by rw [hpc]; rfl) _)
    · exact h.stay (by rw [hpc]; exact ⟨rfl, rfl, rfl, rfl⟩) (by rw [hpc]; rfl)
        (Bool.eq_false_iff.2 hdisk) (h.irq_move (by rw [hpc]; rfl) _)
  | sleepBuf c idx k => exact .inl rfl
  | wokenBuf c idx k =>
    exact h.good_acquire (by rw [hpc]; exact ⟨rfl, rfl, rfl, rfl⟩) rfl (by rw [hpc]; rfl) trivial
  | finish c idx k =>
    simp only [h.freeChain hpc]
    exact h.finish hpc _
  | intrEnter =>
    exact h.good_acquire (by rw [hpc]; exact ⟨rfl, rfl, rfl, rfl⟩) rfl (by rw [hpc]; rfl) trivial
  | intrAck =>
    -- the handler itself serves what it has acknowledged
    refine h.move (by rw [hpc]; exact ⟨rfl, rfl, rfl, rfl⟩) (h.locks_same (by rw [hpc]; rfl)) trivial
      fun _ => .inr ⟨t, ?_⟩
    rw [update_self]
    rfl
  | intrLoop =>
    split_ifs with hne
    · refine h.stay (by rw [hpc]; exact ⟨rfl, rfl, rfl, rfl⟩) (by rw [hpc]; rfl) ?_
        fun _ => .inr ⟨t, ?_⟩
      · refine lt_of_le_of_ne h.rings.consumed_le fun heq => hne ?_
        rw [h.rings.usedSeen, h.rings.usedIdx, heq]
      · rw [update_self]
        rfl
    · refine h.release (by rw [hpc]; exact ⟨rfl, rfl, rfl, rfl⟩) (by rw [hpc]; rfl) rfl trivial
        fun hlt => ?_
      -- the counters are equal, so nothing is left to be seen
      have hle := h.rings.published_le
      have hfin := h.finished_le
      rw [not_not, h.rings.usedSeen, h.rings.usedIdx, Ring.counter_empty_iff num_lt
        h.rings.consumed_le (by simp only [num]; omega)] at hne
      omega
  | intrEntry =>
    have hlt : s.consumed < s.published := by
      have hplace := h.places t
      rwa [hpc] at hplace
    obtain ⟨u, c, idx, k, hk, hu, hhead, hbuf⟩ := h.entry_caller hlt
    rw [hhead] at hbuf
    simp only [hbuf]
    split_ifs with hstatus
    · exact .inr rfl
    · exact h.entry hpc hk hu

/-- Every step keeps the invariant. -/
theorem good_step (h : Inv s) (a : Action T B) : Good (step s a) := by
  cases a with
  | call t c =>
    rw [step]
    split_ifs with hcall
    · exact h.call hcall.1 hcall.2
    · exact .inl rfl
  | interrupt t =>
    rw [step]
    split_ifs with hpc
    · exact h.stay (by rw [hpc]; exact ⟨rfl, rfl, rfl, rfl⟩) (by rw [hpc]; rfl) trivial
        (h.irq_move (by rw [hpc]; rfl) _)
    · exact .inl rfl
  | run t => exact h.good_runThread t
  | take =>
    cases hs : s.take with
    | ok s' =>
      rw [step, hs]
      exact h.take hs
    | error e =>
      rw [step, hs]
      rw [State.take] at hs
      split_ifs at hs
      cases hs
      exact .inl rfl
  | complete n status =>
    cases hs : s.complete n status with
    | ok s' =>
      rw [step, hs]
      exact h.complete hs
    | error e =>
      rw [step, hs]
      rw [State.complete] at hs
      cases hn : s.pending[n]? with
      | none =>
        rw [hn] at hs
        cases hs
        exact .inl rfl
      | some r =>
        simp only [hn, h.pending_chain hn] at hs
        cases hs
  | publish =>
    cases hs : s.publish with
    | ok s' =>
      rw [step, hs]
      exact h.publish hs
    | error e =>
      rw [step, hs]
      rw [State.publish] at hs
      split_ifs at hs
      cases hs
      exact .inl rfl

end Inv

theorem inv_run {as : List (Action T B)} {s : State T B} (hrun : run step State.init as = .ok s) :
    Inv s := by
  have hstep (s : State T B) (a : Action T B) (s' : State T B) (h : Inv s) (hs : step s a = .ok s') :
      Inv s' := by
    have hgood := h.good_step a
    rwa [hs] at hgood
  exact run_preserves hstep inv_init hrun

theorem good_run (as : List (Action T B)) : Good (run step State.init as) := by
  cases hrun : run step (State.init : State T B) as with
  | ok s => exact inv_run hrun
  | error e =>
    obtain ⟨pre, a, post, s, rfl, hpre, hs⟩ := run_error_split hrun
    have hgood := (inv_run hpre).good_step a
    rwa [hs] at hgood

/-- What the protocol guarantees in a state. -/
structure Protocol (s : State T B) : Prop where
  /-- No request is completed twice. -/
  once : s.finished.Nodup
  /-- The requests that the device has taken are those it works on and those it has completed. -/
  taken : s.taken ≤ s.sent.length ∧ (s.pending.map Prod.fst ++ s.finished).Perm (List.range s.taken)
  /-- The caller of each request is still there or has returned once. -/
  caller : s.returned.Nodup ∧ ∀ k < s.sent.length, k ∈ s.returned ∨
    ∃ t c idx, (s.pc t).request = some (c, idx, k)
  /-- A caller has returned only after its request was completed and the driver has seen it. -/
  returned : ∀ k ∈ s.returned, k ∈ s.finished.take s.consumed
  /-- The request of a caller is the one that the device finds under its head. -/
  chain : ∀ t c idx k, (s.pc t).request = some (c, idx, k) →
    s.sent[k]? = some idx.i0 ∧ Chain s.desc s.ops s.info c idx
  /-- A caller sleeps only while the driver has not seen its request again. -/
  asleep : ∀ t c idx k, s.pc t = .sleepBuf c idx k → k ∉ s.finished.take s.consumed
  /-- A completion that the driver has not seen is announced by the interrupt. -/
  announced : s.consumed < s.published → s.irq = true ∨ ∃ t, (s.pc t).serving = true
  /-- The entries of the avail ring that the device has not taken are intact. -/
  avail : ∀ k (h : k < s.sent.length), s.taken ≤ k → s.availRing (k % num) = s.sent[k]
  /-- The entries of the used ring that the driver has not seen are intact. -/
  used : ∀ n (h : n < s.finished.length), s.consumed ≤ n →
    s.usedRing (n % num) = headOf s.sent s.finished[n]
  /-- The three descriptors of a request are different, and none of them is free. -/
  owned : ∀ t idx, (s.pc t).idx = some idx →
    idx.toList.Nodup ∧ ∀ i ∈ idx.toList, i < num ∧ s.free i = false
  /-- The descriptors of two requests are different. -/
  disjoint : ∀ t u idx jdx, (s.pc t).idx = some idx → (s.pc u).idx = some jdx → t ≠ u →
    idx.toList.Disjoint jdx.toList
  /-- The other descriptors are free. -/
  free : ∃ holders : Finset T, (∀ t, t ∈ holders ↔ (s.pc t).idx ≠ none) ∧
    (freeSet s.free).card = num - 3 * holders.card

omit [DecidableEq T] [DecidableEq B] in
theorem Inv.protocol {s : State T B} (h : Inv s) : Protocol s where
  once := h.requests.finished_nodup
  taken := ⟨h.requests.taken_le, h.requests.taken_perm⟩
  caller := by
    refine ⟨h.requests.returned_nodup, fun k hk => ?_⟩
    by_contra hnone
    obtain ⟨hreturned, hcaller⟩ := not_or.1 hnone
    have hseen : k ∈ s.finished.take s.consumed := by
      by_contra hseen
      exact hcaller (h.requests.caller k hk hseen)
    refine hreturned ((h.requests.mem_returned k).2 ⟨hseen, fun t c idx ht => ?_⟩)
    exact hcaller ⟨t, c, idx, ht⟩
  returned k hk := ((h.requests.mem_returned k).1 hk).1
  chain t c idx k ht :=
    ⟨h.requests.head t c idx k ht, h.chains t c idx (Pc.chain_of_request ht)⟩
  asleep t c idx k ht := by
    have hplace := h.places t
    rw [ht] at hplace
    exact (h.requests.disk_iff t c idx k (by rw [ht]; rfl)).1 hplace
  announced := h.irq
  avail k hk hle := h.rings.avail.cell k hk hle
  used n hn hle := by
    have hcell := h.rings.used.cell n (by rwa [length_map]) hle
    rwa [getElem_map] at hcell
  owned t idx ht := ⟨h.nodup t idx ht, fun i hi => h.free_of_idx ht hi⟩
  disjoint t u idx jdx ht hu hne i hi hj := hne (h.eq_of_idx ht hu hi hj).symm
  free := by
    obtain ⟨holders, hmem, hcard⟩ := h.exists_holders
    exact ⟨holders, hmem, by omega⟩

/-- In every run the protocol holds, and a run fails only if the device reports an error or if a
step is not possible; so the panics of `free_desc` are not reached. -/
theorem virtio_protocol (as : List (Action T B)) :
    (∀ e, run step State.init as = .error e → e = .disabled ∨ e = .status) ∧
      ∀ s : State T B, run step State.init as = .ok s → Protocol s := by
  have hgood := good_run as
  refine ⟨fun e he => ?_, fun s hs => ?_⟩
  · rwa [he] at hgood
  · rw [hs] at hgood
    exact Inv.protocol hgood

/-- Thread 0 reads a block, and thread 1 is interrupted. -/
def readRun : List (Action Nat Nat) :=
  .call 0 ⟨7, 3, false⟩ :: List.replicate 6 (Action.run 0) ++
    (.take :: .complete 0 0 :: .publish :: .interrupt 1 :: List.replicate 5 (Action.run 1)) ++
    List.replicate 3 (Action.run 0)

theorem virtio_protocol_read :
    ∃ s, run step State.init readRun = .ok s ∧ s.returned = [0] ∧ Protocol s := by
  have hends : Ends (fun s => s.returned = [0]) (run step State.init readRun) := by decide +kernel
  obtain ⟨s, hs, hreturned⟩ := hends.exists
  exact ⟨s, hs, hreturned, (virtio_protocol readRun).2 s hs⟩

/-- No caller sleeps for ever: while all threads in the driver sleep, the device has a request to
take, to finish or to announce, or its interrupt is pending. -/
theorem sleepers_served {as : List (Action T B)} {s : State T B}
    (hrun : run step State.init as = .ok s) {t : T} (ht : s.pc t ≠ .idle)
    (hsleep : ∀ u, s.pc u = .idle ∨ (∃ c, s.pc u = .sleepFree c) ∨
      ∃ c idx k, s.pc u = .sleepBuf c idx k) :
    s.devAvail ≠ s.availIdx ∨ s.pending ≠ [] ∨ s.usedIdx ≠ s.devUsed ∨ s.irq = true := by
  have h := inv_run hrun
  by_contra hno
  push Not at hno
  obtain ⟨htake, hpending, hpublish, hirq⟩ := hno
  -- who waits for descriptors waits for a thread that has some
  obtain ⟨u, c, idx, k, hk⟩ : ∃ u c idx k, s.pc u = .sleepBuf c idx k := by
    obtain hp | ⟨c, hp⟩ | hp := hsleep t
    · exact absurd hp ht
    · obtain ⟨holders, hmem, hcard⟩ := h.exists_holders
      have hfew := h.places t
      rw [hp] at hfew
      obtain ⟨u, hu⟩ := Finset.card_pos.1 (show 0 < holders.card by simp only [At, num] at *; omega)
      rw [hmem] at hu
      obtain hp | ⟨_, hp⟩ | hp := hsleep u
      · exact absurd (by rw [hp]; rfl) hu
      · exact absurd (by rw [hp]; rfl) hu
      · exact ⟨u, hp⟩
    · exact ⟨t, hp⟩
  have hserved : s.published ≤ s.consumed := by
    by_contra hlt
    obtain ⟨v, hv⟩ := (h.irq (by omega)).resolve_left hirq
    obtain hp | ⟨_, hp⟩ | ⟨_, _, _, hp⟩ := hsleep v <;> simp [hp, Pc.serving] at hv
  -- every request is taken, finished and seen
  have htaken : s.taken = s.sent.length := by
    have hle := h.requests.taken_le
    have hfew := h.sent_le
    rw [h.rings.devAvail, h.rings.availIdx] at htake
    omega
  have hfinished : s.finished.length ≤ s.consumed := by
    have hle := h.rings.published_le
    have hfew := h.finished_le
    have hseen := h.rings.consumed_le
    rw [h.rings.usedIdx, h.rings.devUsed] at hpublish
    omega
  have hsent := h.requests.head u c idx k (by rw [hk]; rfl)
  have hperm := h.requests.taken_perm
  rw [hpending, htaken] at hperm
  have hunseen := h.protocol.asleep u c idx k hk
  rw [take_of_length_le hfinished] at hunseen
  exact hunseen (hperm.mem_iff.2 (mem_range.2 (List.getElem?_eq_some_iff.1 hsent).1))

/-- A thread reads a block and waits for it. -/
def sleepRun : List (Action Unit Nat) := .call () ⟨7, 3, false⟩ :: replicate 6 (.run ())

theorem sleepers_served_read : ∃ s, run step .init sleepRun = .ok s ∧
    (s.devAvail ≠ s.availIdx ∨ s.pending ≠ [] ∨ s.usedIdx ≠ s.devUsed ∨ s.irq = true) := by
  obtain ⟨s, hs, hpc⟩ := (by decide +kernel : Ends
    (fun s => s.pc () = .sleepBuf ⟨7, 3, false⟩ ⟨0, 1, 2⟩ 0) (run step .init sleepRun)).exists
  exact ⟨s, hs, sleepers_served hs (t := ()) (by simp [hpc]) fun _ => .inr (.inr ⟨_, _, _, hpc⟩)⟩

end FogOS.Virtio
