import FogOS.Virtio.Invariant

/-!
# Steps of the threads

Each part of the code of `virtio_disk_rw` and `virtio_disk_intr` keeps the invariant.
-/

namespace FogOS.Virtio

open Function Library Finset Pc

variable {T B : Type} [DecidableEq T] [DecidableEq B] {s : State T B} {t : T} {p : Pc B}

omit [DecidableEq T] [DecidableEq B] in
/-- What holds at a place depends on a few fields only. -/
theorem At.congr {s' : State T B} (h : At s p)
    (hfree : (freeSet s.free).card < 3 → (freeSet s'.free).card < 3) (hdisk : s'.disk = s.disk)
    (hring : s'.availRing = s.availRing) (hsent : s'.sent = s.sent)
    (hconsumed : s'.consumed = s.consumed) (hpublished : s'.published = s.published) : At s' p := by
  cases p with
  | sleepFree c => exact hfree h
  | put c idx => exact (congrFun hdisk _).trans h
  | bump c idx =>
    refine ⟨(congrFun hdisk _).trans h.1, ?_⟩
    rw [hring, hsent]
    exact h.2
  | sleepBuf c idx k => exact (congrFun hdisk _).trans h
  | finish c idx k => exact (congrFun hdisk _).trans h
  | intrEntry =>
    rw [At, hconsumed, hpublished]
    exact h
  | _ => trivial

omit [DecidableEq T] [DecidableEq B] in
/-- What holds at a place outside of the locked parts of the code. -/
theorem At.of_unlocked {s' : State T B} (h : At s p) (hp : p.locked = false)
    (hfree : (freeSet s.free).card < 3 → (freeSet s'.free).card < 3)
    (hdisk : ∀ c, p.call = some c → s'.disk c.b = s.disk c.b) : At s' p := by
  cases p with
  | sleepFree c => exact hfree h
  | sleepBuf c idx k => exact (hdisk c rfl).trans h
  | put _ _ | bump _ _ | finish _ _ _ | intrEntry => cases hp
  | _ => trivial

omit [DecidableEq T] in
/-- What holds at such a place once the threads that wait for a buffer are woken. -/
theorem At.wake_buf {s' : State T B} {b : B} (h : At s p) (hp : p.locked = false)
    (hfree : s'.free = s.free) (hdisk : ∀ d, d ≠ b → s'.disk d = s.disk d) :
    At s' (p.wake (.buf b)) := by
  cases p with
  | sleepFree c =>
    rw [wake, if_neg (by simp), At, hfree]
    exact h
  | sleepBuf c idx k =>
    rw [wake]
    split_ifs with heq
    · trivial
    · exact (hdisk _ fun hb => heq (by rw [hb])).trans h
  | put _ _ | bump _ _ | finish _ _ _ | intrEntry => cases hp
  | _ => trivial

omit [DecidableEq T] in
/-- What holds of a thread that waits for descriptors, once it is woken, depends on less. -/
theorem At.wake_free {s' : State T B} (h : At s p) (hdisk : s'.disk = s.disk)
    (hring : s'.availRing = s.availRing) (hsent : s'.sent = s.sent)
    (hconsumed : s'.consumed = s.consumed) (hpublished : s'.published = s.published) :
    At s' (p.wake .free) := by
  cases p with
  | sleepFree c =>
    rw [wake, if_pos rfl]
    trivial
  | put c idx => exact (congrFun hdisk _).trans h
  | bump c idx =>
    refine ⟨(congrFun hdisk _).trans h.1, ?_⟩
    rw [hring, hsent]
    exact h.2
  | sleepBuf c idx k =>
    rw [wake, if_neg (by simp)]
    exact (congrFun hdisk _).trans h
  | finish c idx k => exact (congrFun hdisk _).trans h
  | intrEntry =>
    change s'.consumed < s'.published
    rw [hconsumed, hpublished]
    exact h
  | _ => trivial

omit [DecidableEq T] in
@[simp] theorem Pc.serving_wake (chan : Chan B) (p : Pc B) : (p.wake chan).serving = p.serving := by
  cases p with
  | sleepFree c => by_cases h : chan = .free <;> simp [wake, h, serving]
  | sleepBuf c idx k => by_cases h : chan = .buf c.b <;> simp [wake, h, serving]
  | _ => rfl

namespace Inv

section

variable (h : Inv s)

include h

omit [DecidableEq B] in
/-- A thread goes on with the same call, descriptors and request. -/
theorem move {lock : Option T} {irq : Bool} (hsame : p.Same (s.pc t))
    (hlocks : Locks lock (update (fun u => (s.pc u).locked) t p.locked)) (hplace : At s p)
    (hirq : s.consumed < s.published →
      irq = true ∨ ∃ u, update (fun u => (s.pc u).serving) t p.serving u = true) :
    Inv ({ s with lock := lock, irq := irq }.setPc t p) := by
  have howned : p.owned = (s.pc t).owned := by rw [Pc.owned, hsame.idx, Pc.owned]
  refine ⟨?_, ?_, ?_, ?_, ?_, ?_, h.rings.congr rfl rfl, ?_, ?_⟩
  · change Locks lock fun u => (update s.pc t p u).locked
    rw [proj_update]
    exact hlocks
  · change Bufs s.busy fun u => (update s.pc t p u).call
    rw [proj_update_same _ _ hsame.call]
    exact h.bufs
  · change ∃ holders, Owners _ (freeSet s.free) (fun u => (update s.pc t p u).owned) holders
    rw [proj_update_same _ _ howned]
    exact h.owned
  · refine forall_update (P := fun q => ∀ idx, q.idx = some idx → idx.toList.Nodup) _ ?_ ?_
    · exact fun idx hp => h.nodup t idx (hsame.idx ▸ hp)
    · exact fun u _ => h.nodup u
  · refine forall_update (P := fun q => ∀ c idx, q.chain = some (c, idx) →
      Chain s.desc s.ops s.info c idx) _ ?_ ?_
    · exact fun c idx hp => h.chains t c idx (hsame.chain ▸ hp)
    · exact fun u _ => h.chains u
  · change Requests (fun u => (update s.pc t p u).request) _ _ _ _ _ _ _
    rw [proj_update_same _ _ hsame.request]
    exact h.requests
  · refine forall_update (P := fun q => At _ q) _ ?_ ?_
    · exact hplace.congr id rfl rfl rfl rfl rfl
    · exact fun u _ => (h.places u).congr id rfl rfl rfl rfl rfl
  · intro hlt
    rcases hirq hlt with hirq | ⟨u, hu⟩
    · exact .inl hirq
    · exact .inr ⟨u, (congrFun (proj_update serving s.pc t p) u).trans hu⟩

omit [DecidableEq B] in
/-- The interrupt is still served when a thread that does not serve it goes on. -/
theorem irq_move (ht : (s.pc t).serving = false) (p : Pc B) :
    s.consumed < s.published →
      s.irq = true ∨ ∃ u, update (fun u => (s.pc u).serving) t p.serving u = true := by
  intro hlt
  rcases h.irq hlt with hirq | ⟨u, hu⟩
  · exact .inl hirq
  · have hne : u ≠ t := by
      rintro rfl
      rw [ht] at hu
      cases hu
    exact .inr ⟨u, by rw [update_of_ne hne, hu]⟩

omit [DecidableEq B] in
theorem locks_same (hlocked : p.locked = (s.pc t).locked) :
    Locks s.lock (update (fun u => (s.pc u).locked) t p.locked) := by
  rw [update_proj_same locked s.pc hlocked]
  exact h.locks

omit [DecidableEq B] in
/-- A thread goes on and neither takes nor gives back the lock. -/
theorem stay (hsame : p.Same (s.pc t)) (hlocked : p.locked = (s.pc t).locked)
    (hplace : At s p) (hirq : s.consumed < s.published →
      s.irq = true ∨ ∃ u, update (fun u => (s.pc u).serving) t p.serving u = true) :
    Inv (s.setPc t p) :=
  h.move hsame (h.locks_same hlocked) hplace hirq

omit [DecidableEq B] in
/-- A thread goes on and gives back the lock. -/
theorem release (hsame : p.Same (s.pc t)) (hlocked : (s.pc t).locked = true)
    (hp : p.locked = false) (hplace : At s p) (hirq : s.consumed < s.published →
      s.irq = true ∨ ∃ u, update (fun u => (s.pc u).serving) t p.serving u = true) :
    Inv ({ s with lock := none }.setPc t p) := by
  refine h.move hsame ?_ hplace hirq
  rw [hp]
  exact h.locks.release hlocked

omit [DecidableEq B] in
/-- A thread acquires the lock. -/
theorem acquire {s' : State T B} (hs : s.acquire t p = .ok s') (hsame : p.Same (s.pc t))
    (hlocked : p.locked = true) (hserving : (s.pc t).serving = false) (hplace : At s p) : Inv s' := by
  rw [State.acquire] at hs
  split_ifs at hs with hlock
  cases hs
  refine h.move hsame ?_ hplace (h.irq_move hserving p)
  have hlocks := h.locks
  rw [hlock] at hlocks
  rw [hlocked]
  exact hlocks.acquire

omit [DecidableEq T] [DecidableEq B] in
/-- No other thread is in the locked part of the code. -/
theorem unlocked {u : T} (ht : (s.pc t).locked = true) (hu : u ≠ t) : (s.pc u).locked = false := by
  by_contra hlocked
  have hlock := (h.locks t).1 ht
  rw [(h.locks u).1 (by simpa using hlocked)] at hlock
  exact hu (Option.some.inj hlock)

omit [DecidableEq B] in
/-- A thread that holds the lock goes on with its call and keeps the lock. -/
theorem locked_step {s' : State T B} (hpc : s'.pc = update s.pc t p)
    (hlock : s'.lock = s.lock) (hbusy : s'.busy = s.busy) (hlocked : (s.pc t).locked = true)
    (hplocked : p.locked = true) (hcall : p.call = (s.pc t).call)
    (hserving : (s.pc t).serving = false) (hirq : s'.irq = s.irq)
    (hconsumed : s'.consumed = s.consumed) (hpublished : s'.published = s.published)
    (howned : ∃ holders, Owners (Finset.range num) (freeSet s'.free)
      (update (fun u => (s.pc u).owned) t p.owned) holders)
    (hnodup : ∀ idx, p.idx = some idx → idx.toList.Nodup)
    (hchain : ∀ c idx, p.chain = some (c, idx) → Chain s'.desc s'.ops s'.info c idx)
    (hchains : ∀ u c idx, u ≠ t → (s.pc u).chain = some (c, idx) →
      Chain s'.desc s'.ops s'.info c idx)
    (hrequests : Requests (update (fun u => (s.pc u).request) t p.request) s'.disk s'.sent
      s'.taken s'.pending s'.finished s'.consumed s'.returned)
    (hrings : Rings s') (hplace : At s' p)
    (hfree : (freeSet s.free).card < 3 → (freeSet s'.free).card < 3)
    (hdisk : ∀ u c, u ≠ t → (s.pc u).call = some c → s'.disk c.b = s.disk c.b) : Inv s' := by
  refine ⟨?_, ?_, ?_, ?_, ?_, ?_, hrings, ?_, ?_⟩
  · rw [hlock, hpc, proj_update_same _ _ (hplocked.trans hlocked.symm)]
    exact h.locks
  · rw [hbusy, hpc, proj_update_same _ _ hcall]
    exact h.bufs
  · rw [hpc, proj_update]
    exact howned
  · rw [hpc]
    exact forall_update (P := fun q => ∀ idx, q.idx = some idx → idx.toList.Nodup) _ hnodup
      fun u _ => h.nodup u
  · rw [hpc]
    exact forall_update (P := fun q => ∀ c idx, q.chain = some (c, idx) →
      Chain s'.desc s'.ops s'.info c idx) _ hchain fun u hu c idx hc => hchains u c idx hu hc
  · rw [hpc, proj_update]
    exact hrequests
  · rw [hpc]
    refine forall_update (P := fun q => At s' q) _ hplace fun u hu => ?_
    exact (h.places u).of_unlocked (h.unlocked hlocked hu) hfree fun c hc => hdisk u c hu hc
  · rw [hconsumed, hpublished, hirq]
    intro hlt
    rcases h.irq_move hserving p hlt with hirq | ⟨u, hu⟩
    · exact .inl hirq
    · exact .inr ⟨u, by rw [hpc]; exact (congrFun (proj_update serving s.pc t p) u).trans hu⟩

omit [DecidableEq T] [DecidableEq B] in
/-- A descriptor of a thread is not free. -/
theorem free_of_idx {idx : Idx} (ht : (s.pc t).idx = some idx) {i : Nat}
    (hi : i ∈ idx.toList) : i < num ∧ s.free i = false := by
  obtain ⟨holders, hown⟩ := h.owned
  have hmem : i ∈ (s.pc t).owned := by rwa [owned_of_idx ht, List.mem_toFinset]
  have hlt := mem_range.1 (hown.mem_units_of_own hmem)
  refine ⟨hlt, Bool.eq_false_iff.2 fun hfree => hown.not_free t i hmem ?_⟩
  exact mem_freeSet.2 ⟨hlt, hfree⟩

omit [DecidableEq T] [DecidableEq B] in
/-- The descriptors of two threads are different. -/
theorem eq_of_idx {u : T} {idx jdx : Idx} (ht : (s.pc t).idx = some idx)
    (hu : (s.pc u).idx = some jdx) {i : Nat} (hi : i ∈ idx.toList) (hj : i ∈ jdx.toList) : u = t := by
  obtain ⟨holders, hown⟩ := h.owned
  refine hown.unique u t i ?_ ?_
  · rwa [owned_of_idx hu, List.mem_toFinset]
  · rwa [owned_of_idx ht, List.mem_toFinset]

/-- `virtio_disk_rw` is called. -/
theorem call {c : Call B} (hpc : s.pc t = .idle) (hbusy : s.busy c.b = false) :
    Inv ({ s with busy := update s.busy c.b true }.setPc t (.enter c)) := by
  refine ⟨?_, ?_, ?_, ?_, ?_, ?_, h.rings.congr rfl rfl, ?_, ?_⟩
  · change Locks s.lock fun u => (update s.pc t (.enter c) u).locked
    rw [proj_update_same _ _ (by rw [hpc]; rfl)]
    exact h.locks
  · change Bufs _ fun u => (update s.pc t (.enter c) u).call
    rw [proj_update]
    exact h.bufs.enter hbusy
  · change ∃ holders, Owners _ _ (fun u => (update s.pc t (.enter c) u).owned) holders
    rw [proj_update_same _ _ (by rw [hpc]; rfl)]
    exact h.owned
  · exact forall_update (P := fun q => ∀ idx, q.idx = some idx → idx.toList.Nodup) _ nofun
      fun u _ => h.nodup u
  · exact forall_update (P := fun q => ∀ c idx, q.chain = some (c, idx) →
      Chain s.desc s.ops s.info c idx) _ nofun fun u _ => h.chains u
  · change Requests (fun u => (update s.pc t (.enter c) u).request) _ _ _ _ _ _ _
    rw [proj_update_same _ _ (by rw [hpc]; rfl)]
    exact h.requests
  · exact forall_update (P := fun q => At _ q) _ trivial
      fun u _ => (h.places u).congr id rfl rfl rfl rfl rfl
  · intro hlt
    rcases h.irq_move (t := t) (by rw [hpc]; rfl) (.enter c) hlt with hirq | ⟨u, hu⟩
    · exact .inl hirq
    · exact .inr ⟨u, (congrFun (proj_update serving s.pc t _) u).trans hu⟩

omit h in
omit [DecidableEq T] [DecidableEq B] in
theorem freeSet_reserved (s : State T B) (idx : Idx) :
    freeSet (s.reserved idx).free = freeSet s.free \ idx.toList.toFinset := by
  ext i
  simp only [mem_freeSet, State.reserved, mem_sdiff, List.mem_toFinset]
  by_cases hi : i ∈ idx.toList
  · simp [hi]
  · simp [hi]

omit [DecidableEq B] in
/-- `alloc3_desc` takes three descriptors. -/
theorem reserve {c : Call B} {idx : Idx} (hpc : s.pc t = .alloc c)
    (hnodup : idx.toList.Nodup) (hfree : ∀ i ∈ idx.toList, i ∈ freeSet s.free) :
    Inv ((s.reserved idx).setPc t (.fill c idx)) := by
  have hsub : idx.toList.toFinset ⊆ freeSet s.free := fun i hi => hfree i (List.mem_toFinset.1 hi)
  refine h.locked_step rfl rfl rfl (by rw [hpc]; rfl) rfl (by rw [hpc]; rfl) (by rw [hpc]; rfl) rfl
    rfl rfl ?_ ?_ nofun (fun u c idx _ hu => h.chains u c idx hu) ?_ (h.rings.congr rfl rfl) trivial
    ?_ fun _ _ _ _ => rfl
  · obtain ⟨holders, hown⟩ := h.owned
    change ∃ holders, Owners _ (freeSet (s.reserved idx).free) _ holders
    rw [freeSet_reserved]
    refine ⟨_, hown.attach (by rw [hpc]; rfl) hsub ?_⟩
    simp [Idx.toList]
  · intro jdx hj
    cases hj
    exact hnodup
  · rw [update_proj_same request s.pc (by rw [hpc]; rfl)]
    exact h.requests
  · intro hlt
    change (freeSet (s.reserved idx).free).card < 3
    rw [freeSet_reserved]
    exact lt_of_le_of_lt (card_le_card sdiff_subset) hlt

omit [DecidableEq T] [DecidableEq B] in
/-- Free descriptors may be cleared. -/
theorem clear {d : Nat → Desc B} (hd : ∀ i, s.free i = false → d i = s.desc i) :
    Inv { s with desc := d } := by
  refine ⟨h.locks, h.bufs, h.owned, h.nodup, fun u c idx hu => ?_, h.requests,
    h.rings.congr rfl rfl, fun u => (h.places u).congr id rfl rfl rfl rfl rfl, h.irq⟩
  exact (h.chains u c idx hu).congr
    (fun i hi => hd i (h.free_of_idx (idx_of_chain hu) hi).2) rfl rfl

omit [DecidableEq T] in
/-- Threads that wait for descriptors are woken. -/
theorem wake_free : Inv (s.wakeup .free) := by
  refine ⟨?_, ?_, ?_, fun u idx hu => h.nodup u idx (by simpa [State.wakeup] using hu),
    fun u c idx hu => h.chains u c idx (by simpa [State.wakeup] using hu), ?_,
    h.rings.congr rfl rfl,
    fun u => (h.places u).wake_free rfl rfl rfl rfl rfl, fun hlt => ?_⟩
  · simpa [State.wakeup] using h.locks
  · simpa [State.wakeup] using h.bufs
  · simpa [State.wakeup] using h.owned
  · simpa [State.wakeup] using h.requests
  · simpa [State.wakeup] using h.irq hlt

omit [DecidableEq T] in
theorem rolledBack {s' : State T B} (hs : State.RolledBack s s') : Inv s' := by
  obtain ⟨d, p, rfl, hd, rfl | rfl⟩ := hs
  · exact h.clear hd
  · exact (h.clear hd).wake_free

/-- A thread finds too few descriptors and waits for some. -/
theorem sleepFree {s' : State T B} {c : Call B} (hpc : s.pc t = .alloc c)
    (hs : State.RolledBack s s') (hfew : (freeSet s.free).card < 3) :
    Inv ({ s' with lock := none }.setPc t (.sleepFree c)) := by
  have h' := h.rolledBack hs
  have hpc' : s'.pc t = .alloc c := by
    obtain ⟨d, p, rfl, -, rfl | rfl⟩ := hs
    · exact hpc
    · simp only [hpc]
      rfl
  have hfree : s'.free = s.free := by
    obtain ⟨d, p, rfl, -⟩ := hs
    rfl
  refine h'.release ?_ ?_ rfl ?_ (h'.irq_move ?_ _)
  · rw [hpc']
    exact ⟨rfl, rfl, rfl, rfl⟩
  · rw [hpc']
    rfl
  · rw [At, hfree]
    exact hfew
  · rw [hpc']
    rfl

/-- The descriptors of a request are formatted. -/
theorem format {c : Call B} {idx : Idx} (hpc : s.pc t = .fill c idx) :
    Inv ((s.format c idx).setPc t (.put c idx)) := by
  have hidx : (s.pc t).idx = some idx := by rw [hpc]; rfl
  have hcall : (s.pc t).call = some c := by rw [hpc]; rfl
  have hlocked : (s.pc t).locked = true := by rw [hpc]; rfl
  have hnodup := h.nodup t idx hidx
  -- another call has another buffer, and another chain other descriptors
  have hbuf {u : T} (hu : u ≠ t) {d : Call B} (hd : (s.pc u).call = some d) : d.b ≠ c.b :=
    fun heq => hu (h.bufs.unique u t d c hd hcall heq)
  have hother {u : T} (hu : u ≠ t) {jdx : Idx} (hj : (s.pc u).idx = some jdx) :
      ∀ i ∈ jdx.toList, i ≠ idx.i0 ∧ i ≠ idx.i1 ∧ i ≠ idx.i2 := by
    intro i hi
    have hne : i ∉ idx.toList := fun hi' => hu (h.eq_of_idx hidx hj hi' hi)
    simpa [Idx.toList] using hne
  refine h.locked_step rfl rfl rfl hlocked rfl (by rw [hpc]; rfl) (by rw [hpc]; rfl) rfl rfl rfl ?_ ?_
    ?_ ?_ ?_ (h.rings.congr rfl rfl) (update_self _ _ _) id
    fun u d hu hd => update_of_ne (hbuf hu hd) _ _
  · rw [update_proj_same Pc.owned s.pc (by rw [hpc]; rfl)]
    exact h.owned
  · intro jdx hj
    cases hj
    exact hnodup
  · intro d jdx hd
    cases hd
    obtain ⟨h01, h02, h12⟩ : idx.i0 ≠ idx.i1 ∧ idx.i0 ≠ idx.i2 ∧ idx.i1 ≠ idx.i2 := by
      simpa [Idx.toList, and_assoc] using hnodup
    constructor
    · simp [State.format, State.setPc, h01, h02]
    · simp [State.format, State.setPc, h12]
    · simp [State.format, State.setPc]
    · simp [State.format, State.setPc]
    · simp [State.format, State.setPc]
  · intro u d jdx hu hd
    have hne := hother hu (idx_of_chain hd)
    have hi0 := (hne jdx.i0 (by simp [Idx.toList])).1
    refine (h.chains u d jdx hd).congr (fun i hi => ?_) ?_ ?_
    · obtain ⟨h0, h1, h2⟩ := hne i hi
      simp [State.format, State.setPc, h0, h1, h2]
    · simp [State.format, State.setPc, hi0]
    · simp [State.format, State.setPc, hi0]
  · rw [update_proj_same request s.pc (by rw [hpc]; rfl)]
    refine h.requests.congr_disk fun u d jdx k hu => ?_
    have hut : u ≠ t := by
      rintro rfl
      rw [hpc] at hu
      cases hu
    exact update_of_ne (hbuf hut (call_of_chain (chain_of_request hu))) _ _

end

end Inv

end FogOS.Virtio
