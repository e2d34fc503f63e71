import FogOS.Virtio.Threads

/-!
# Requests on their way

The steps that move a request: the driver puts it into the avail ring, the device takes and finishes
it and puts it into the used ring, the interrupt handler finds it there, and its caller returns.
-/

namespace FogOS.Virtio

open Function Library List Nat State Pc

variable {T B : Type} [DecidableEq T] [DecidableEq B] {s : State T B} {t : T}

theorem num_lt : num < 2 ^ 16 := by decide

theorem num_dvd : num ∣ 2 ^ 16 := by decide

namespace Inv

section

variable (h : Inv s)

include h

variable {c : Call B} {idx : Idx}

/-- The head of a request is written into the avail ring. -/
theorem put (hpc : s.pc t = .put c idx) :
    Inv ({ s with
      availRing := update s.availRing (s.availIdx % num) idx.i0 }.setPc t (.bump c idx)) := by
  have hlocked : (s.pc t).locked = true := by rw [hpc]; rfl
  have hplace : s.disk c.b = true := by
    have hplace := h.places t
    rwa [hpc] at hplace
  have hcell : s.availIdx % num = s.sent.length % num := by
    rw [h.rings.availIdx, Ring.counter_cell num_dvd]
  have hroom : s.sent.length < s.taken + num := by
    have hle := h.sent_le
    simp only [num]
    omega
  refine h.locked_step rfl rfl rfl hlocked rfl (by rw [hpc]; rfl) (by rw [hpc]; rfl) rfl rfl rfl ?_ ?_
    ?_ (fun u c idx _ hu => h.chains u c idx hu) ?_ { h.rings with avail := ?_ } ⟨hplace, ?_⟩ id
    fun _ _ _ _ => rfl
  · rw [update_proj_same Pc.owned s.pc (by rw [hpc]; rfl)]
    exact h.owned
  · exact fun jdx hj => h.nodup t jdx (by rw [hpc]; exact hj)
  · exact fun d jdx hj => h.chains t d jdx (by rw [hpc]; exact hj)
  · rw [update_proj_same request s.pc (by rw [hpc]; rfl)]
    exact h.requests
  · rw [hcell]
    exact h.rings.avail.write hroom _
  · change update s.availRing (s.availIdx % num) idx.i0 (s.sent.length % num) = idx.i0
    rw [hcell, update_self]

omit [DecidableEq T] [DecidableEq B] in
/-- The heads of the requests that are finished do not change when another request is sent. -/
theorem map_headOf (x : Nat) :
    s.finished.map (headOf (s.sent ++ [x])) = s.finished.map (headOf s.sent) := by
  refine map_congr_left fun k hk => ?_
  have hlt : k < s.sent.length := lt_of_lt_of_le (h.requests.lt_taken hk) h.requests.taken_le
  rw [headOf, headOf, getD_eq_getElem?_getD, getD_eq_getElem?_getD, getElem?_append_left hlt]

/-- A request is made visible to the device. -/
theorem bump (hpc : s.pc t = .bump c idx) :
    Inv ({ s with
      availIdx := (s.availIdx + 1) % 2 ^ 16
      sent := s.sent ++ [idx.i0] }.setPc t (.check c idx s.sent.length)) := by
  have hlocked : (s.pc t).locked = true := by rw [hpc]; rfl
  obtain ⟨hdisk, hcell⟩ : s.disk c.b = true ∧ s.availRing (s.sent.length % num) = idx.i0 := by
    have hplace := h.places t
    rwa [hpc] at hplace
  have hroom : s.sent.length < s.taken + num := by
    have hle := h.sent_le
    simp only [num]
    omega
  refine h.locked_step rfl rfl rfl hlocked rfl (by rw [hpc]; rfl) (by rw [hpc]; rfl) rfl rfl rfl ?_ ?_
    ?_ (fun u c idx _ hu => h.chains u c idx hu) ?_
    { h.rings with avail := ?_, used := ?_, availIdx := ?_ } trivial id fun _ _ _ _ => rfl
  · rw [update_proj_same Pc.owned s.pc (by rw [hpc]; rfl)]
    exact h.owned
  · exact fun jdx hj => h.nodup t jdx (by rw [hpc]; exact hj)
  · exact fun d jdx hj => h.chains t d jdx (by rw [hpc]; exact hj)
  · exact h.requests.send (by rw [hpc]; rfl) hdisk
  · have hextend := h.rings.avail.extend hroom
    rwa [hcell] at hextend
  · change Ring.Holds num s.usedRing (s.finished.map (headOf (s.sent ++ [idx.i0]))) s.consumed
    rw [h.map_headOf]
    exact h.rings.used
  · change (s.availIdx + 1) % 2 ^ 16 = (s.sent ++ [idx.i0]).length % 2 ^ 16
    rw [h.rings.availIdx, mod_add_mod, length_append, length_singleton]

omit [DecidableEq T] [DecidableEq B] in
/-- The device takes a request. -/
theorem take {s' : State T B} (hs : s.take = .ok s') : Inv s' := by
  rw [State.take] at hs
  split_ifs at hs with hne
  cases hs
  have hle := h.requests.taken_le
  have hlt : s.taken < s.sent.length := by
    refine lt_of_le_of_ne hle fun heq => hne ?_
    rw [h.rings.devAvail, h.rings.availIdx, heq]
  have hcell : s.devAvail % num = s.taken % num := by
    rw [h.rings.devAvail, Ring.counter_cell num_dvd]
  obtain ⟨hhead, htake⟩ := h.rings.avail.take hlt
  refine ⟨h.locks, h.bufs, h.owned, h.nodup, h.chains, ?_,
    { h.rings with avail := htake, devAvail := ?_ },
    fun u => (h.places u).congr id rfl rfl rfl rfl rfl, h.irq⟩
  · refine h.requests.take ?_
    rw [hcell, hhead]
    exact getElem?_eq_getElem hlt
  · change (s.devAvail + 1) % 2 ^ 16 = (s.taken + 1) % 2 ^ 16
    rw [h.rings.devAvail, mod_add_mod]

omit [DecidableEq T] [DecidableEq B] in
/-- The caller of a request that the driver has not seen again. -/
theorem exists_caller {k head : Nat} (hk : s.sent[k]? = some head)
    (hseen : k ∉ s.finished.take s.consumed) :
    ∃ t c idx, (s.pc t).request = some (c, idx, k) ∧ idx.i0 = head ∧
      Chain s.desc s.ops s.info c idx := by
  obtain ⟨t, c, idx, ht⟩ := h.requests.caller k (List.getElem?_eq_some_iff.1 hk).1 hseen
  have hhead := h.requests.head t c idx k ht
  rw [hk] at hhead
  exact ⟨t, c, idx, ht, (Option.some.inj hhead).symm, h.chains t c idx (chain_of_request ht)⟩

omit [DecidableEq T] [DecidableEq B] in
/-- A request that the device has not finished has a chain that ends in a status byte. -/
theorem pending_chain {n k head : Nat} (hn : s.pending[n]? = some (k, head)) :
    (s.desc (s.desc (s.desc head).next).next).addr = .status head := by
  have hmem := mem_of_getElem? hn
  have hseen : k ∉ s.finished.take s.consumed := by
    intro hk
    have hnodup := h.requests.taken_perm.nodup_iff.2 nodup_range
    exact (nodup_append.1 hnodup).2.2 k (mem_map_of_mem (f := Prod.fst) hmem) k
      (mem_of_mem_take hk) rfl
  obtain ⟨t, c, idx, -, rfl, hchain⟩ := h.exists_caller (h.requests.pending_head _ hmem) hseen
  rw [hchain.head, hchain.data, hchain.last]

/-- The device finishes a request. -/
theorem complete {s' : State T B} {n status : Nat} (hs : s.complete n status = .ok s') :
    Inv s' := by
  rw [State.complete] at hs
  cases hn : s.pending[n]? with
  | none =>
    rw [hn] at hs
    cases hs
  | some r =>
    obtain ⟨k, head⟩ := r
    simp only [hn, h.pending_chain hn] at hs
    cases hs
    have hcell : s.devUsed % num = (s.finished.map (headOf s.sent)).length % num := by
      rw [h.rings.devUsed, Ring.counter_cell num_dvd, length_map]
    have hroom : (s.finished.map (headOf s.sent)).length < s.consumed + num := by
      have hle := h.finished_le
      simp only [num, length_map]
      omega
    have hhead : headOf s.sent k = head := by
      rw [headOf, getD_eq_getElem?_getD, h.requests.pending_head _ (mem_of_getElem? hn)]
      rfl
    refine ⟨h.locks, h.bufs, h.owned, h.nodup, fun u c idx hu => ?_, h.requests.complete hn,
      { h.rings with used := ?_, devUsed := ?_, published_le := ?_ },
      fun u => (h.places u).congr id rfl rfl rfl rfl rfl, h.irq⟩
    · refine (h.chains u c idx hu).congr (fun _ _ => rfl) rfl ?_
      change (update s.info head ⟨(s.info head).b, status⟩ idx.i0).b = (s.info idx.i0).b
      by_cases heq : idx.i0 = head
      · rw [heq, update_self]
      · rw [update_of_ne heq]
    · rw [hcell, map_append, map_singleton, hhead]
      exact h.rings.used.put hroom head
    · rw [h.rings.devUsed, mod_add_mod, length_append, length_singleton]
    · rw [length_append]
      exact le_add_right_of_le h.rings.published_le

omit [DecidableEq T] [DecidableEq B] in
/-- The device makes a finished request visible. -/
theorem publish {s' : State T B} (hs : s.publish = .ok s') : Inv s' := by
  rw [State.publish] at hs
  split_ifs at hs with hne
  cases hs
  have hlt : s.published < s.finished.length := by
    refine lt_of_le_of_ne h.rings.published_le fun heq => hne ?_
    rw [h.rings.usedIdx, h.rings.devUsed, heq]
  refine ⟨h.locks, h.bufs, h.owned, h.nodup, h.chains, h.requests,
    { h.rings with usedIdx := ?_, consumed_le := ?_, published_le := hlt }, fun u => ?_,
    fun _ => .inl rfl⟩
  · change (s.usedIdx + 1) % 2 ^ 16 = (s.published + 1) % 2 ^ 16
    rw [h.rings.usedIdx, mod_add_mod]
  · exact le_succ_of_le h.rings.consumed_le
  · have hplace := h.places u
    cases hpc : s.pc u with
    | intrEntry =>
      rw [hpc] at hplace
      exact lt_succ_of_lt hplace
    | _ =>
      rw [hpc] at hplace
      exact hplace

omit [DecidableEq T] [DecidableEq B] in
/-- The next entry of the used ring is the head of a request whose caller waits. -/
theorem entry_caller (hlt : s.consumed < s.published) :
    ∃ u c idx k, s.finished[s.consumed]? = some k ∧ (s.pc u).request = some (c, idx, k) ∧
      idx.i0 = s.usedRing (s.usedSeen % num) ∧ (s.info idx.i0).b = some c.b := by
  have hlt' : s.consumed < s.finished.length := lt_of_lt_of_le hlt h.rings.published_le
  have hcell : s.usedSeen % num = s.consumed % num := by
    rw [h.rings.usedSeen, Ring.counter_cell num_dvd]
  have hmap : s.consumed < (s.finished.map (headOf s.sent)).length := by rwa [length_map]
  obtain ⟨hentry, -⟩ := h.rings.used.take hmap
  rw [getElem_map] at hentry
  have hsent : s.finished[s.consumed] < s.sent.length :=
    lt_of_lt_of_le (h.requests.lt_taken (getElem_mem hlt')) h.requests.taken_le
  have hseen : s.finished[s.consumed] ∉ s.finished.take s.consumed := by
    intro hmem
    obtain ⟨m, hm, heq⟩ := mem_iff_getElem.1 hmem
    rw [getElem_take] at heq
    have hmn := (h.requests.finished_nodup.getElem_inj_iff).1 heq
    rw [length_take] at hm
    omega
  obtain ⟨u, c, idx, hu, hhead, hchain⟩ :=
    h.exists_caller (getElem?_eq_getElem hsent) hseen
  refine ⟨u, c, idx, _, getElem?_eq_getElem hlt', hu, ?_, hchain.buf⟩
  rw [hcell, hentry, hhead, headOf, getD_eq_getElem?_getD, getElem?_eq_getElem hsent]
  rfl

/-- The interrupt handler sees that a request is finished. -/
theorem entry (hpc : s.pc t = .intrEntry) {u : T} {k : Nat}
    (hk : s.finished[s.consumed]? = some k) (hu : (s.pc u).request = some (c, idx, k)) :
    Inv (({ s with
      disk := update s.disk c.b false
      usedSeen := (s.usedSeen + 1) % 2 ^ 16
      consumed := s.consumed + 1 }.wakeup (.buf c.b)).setPc t .intrLoop) := by
  have hlocked : (s.pc t).locked = true := by rw [hpc]; rfl
  have hlt : s.consumed < s.published := by
    have hplace := h.places t
    rwa [hpc] at hplace
  have hmap : s.consumed < (s.finished.map (headOf s.sent)).length := by
    rw [length_map]
    exact lt_of_lt_of_le hlt h.rings.published_le
  have hproj {α : Type} (f : Pc B → α) (hwake : ∀ q : Pc B, f (q.wake (.buf c.b)) = f q)
      (hf : f .intrLoop = f .intrEntry) :
      (fun v => f (update (fun v => (s.pc v).wake (.buf c.b)) t .intrLoop v)) =
        fun v => f (s.pc v) := by
    rw [proj_update]
    simp only [hwake]
    exact update_proj_same f s.pc (by rw [hpc, hf])
  refine ⟨?_, ?_, ?_, fun v jdx hv => ?_, fun v d jdx hv => ?_, ?_,
    { h.rings with used := (h.rings.used.take hmap).2, usedSeen := ?_, consumed_le := hlt }, ?_,
    fun _ => .inr ⟨t, ?_⟩⟩
  · change Locks s.lock fun v =>
      (update (fun v => (s.pc v).wake (.buf c.b)) t .intrLoop v).locked
    rw [hproj locked (locked_wake _) rfl]
    exact h.locks
  · change Bufs s.busy fun v =>
      (update (fun v => (s.pc v).wake (.buf c.b)) t .intrLoop v).call
    rw [hproj Pc.call (Pc.call_wake _) rfl]
    exact h.bufs
  · change ∃ holders, Owners _ (freeSet s.free) (fun v =>
      (update (fun v => (s.pc v).wake (.buf c.b)) t .intrLoop v).owned) holders
    rw [hproj Pc.owned (Pc.owned_wake _) rfl]
    exact h.owned
  · exact h.nodup v jdx ((congrFun (hproj Pc.idx (Pc.idx_wake _) rfl) v).symm.trans hv)
  · exact h.chains v d jdx ((congrFun (hproj chain (chain_wake _) rfl) v).symm.trans hv)
  · change Requests (fun v =>
      (update (fun v => (s.pc v).wake (.buf c.b)) t .intrLoop v).request)
      (update s.disk c.b false) s.sent s.taken s.pending s.finished (s.consumed + 1)
      s.returned
    rw [hproj request (request_wake _) rfl]
    refine h.requests.consume hk hu fun v d jdx l hv hb => ?_
    exact h.bufs.unique v u d c (call_of_chain (chain_of_request hv))
      (call_of_chain (chain_of_request hu)) hb
  · change (s.usedSeen + 1) % 2 ^ 16 = (s.consumed + 1) % 2 ^ 16
    rw [h.rings.usedSeen, mod_add_mod]
  · refine forall_update (P := fun q => At _ q) _ trivial fun v hv => ?_
    exact (h.places v).wake_buf (h.unlocked hlocked hv) rfl fun d hd => update_of_ne hd _ _
  · have hself := update_self t (intrLoop : Pc B) fun v => (s.pc v).wake (.buf c.b)
    exact congrArg serving hself

omit [DecidableEq T] [DecidableEq B] in
theorem freeSet_released [DecidableEq B] (hidx : (s.pc t).idx = some idx) :
    freeSet (s.released idx).free = freeSet s.free ∪ (s.pc t).owned := by
  ext i
  simp only [mem_freeSet, released, Finset.mem_union, owned_of_idx hidx, mem_toFinset]
  by_cases hi : i ∈ idx.toList
  · simp [hi, (h.free_of_idx hidx hi).1]
  · simp [hi]

omit [DecidableEq T] in
/-- `free_chain` of a request that is done does not panic. -/
theorem freeChain {k : Nat} (hpc : s.pc t = .finish c idx k) (v : Info B) :
    { s with info := update s.info idx.i0 v }.freeChain (num + 1) idx.i0 =
      .ok ({ s with info := update s.info idx.i0 v }.released idx) := by
  have hidx : (s.pc t).idx = some idx := by rw [hpc]; rfl
  have hchain := h.chains t c idx (by rw [hpc]; rfl)
  refine freeChain_ok (h.nodup t idx hidx) (fun i hi => (h.free_of_idx hidx hi).1)
    (fun i hi => (h.free_of_idx hidx hi).2) ?_ ?_ ?_
  · change (s.desc idx.i0).flagNext = true ∧ (s.desc idx.i0).next = idx.i1
    rw [hchain.head]
    exact ⟨rfl, rfl⟩
  · change (s.desc idx.i1).flagNext = true ∧ (s.desc idx.i1).next = idx.i2
    rw [hchain.data]
    exact ⟨rfl, rfl⟩
  · change (s.desc idx.i2).flagNext = false
    rw [hchain.last]

/-- A caller frees its descriptors and returns. -/
theorem finish {k : Nat} (hpc : s.pc t = .finish c idx k) (v : Info B) :
    Inv ({ { s with info := update s.info idx.i0 v }.released idx with
      lock := none
      busy := update s.busy c.b false
      returned := s.returned ++ [k] }.setPc t .idle) := by
  have hidx : (s.pc t).idx = some idx := by rw [hpc]; rfl
  have hcall : (s.pc t).call = some c := by rw [hpc]; rfl
  have hdisk : s.disk c.b = false := by
    have hplace := h.places t
    rwa [hpc] at hplace
  have hproj {α : Type} (f : Pc B → α) (hwake : ∀ q : Pc B, f (q.wake .free) = f q) :
      (fun u => f (update (fun u => (s.pc u).wake .free) t .idle u)) =
        update (fun u => f (s.pc u)) t (f .idle) := by
    rw [proj_update]
    simp only [hwake]
  refine ⟨?_, ?_, ?_, ?_, ?_, ?_, h.rings.congr rfl rfl, ?_, fun hlt => ?_⟩
  · change Locks none fun u => (update (fun u => (s.pc u).wake .free) t .idle u).locked
    rw [hproj locked (locked_wake _)]
    exact h.locks.release (by rw [hpc]; rfl)
  · change Bufs (update s.busy c.b false)
      fun u => (update (fun u => (s.pc u).wake .free) t .idle u).call
    rw [hproj Pc.call (Pc.call_wake _)]
    exact h.bufs.leave hcall
  · obtain ⟨holders, hown⟩ := h.owned
    change ∃ holders, Owners _ (freeSet (s.released idx).free)
      (fun u => (update (fun u => (s.pc u).wake .free) t .idle u).owned) holders
    rw [hproj Pc.owned (Pc.owned_wake _), h.freeSet_released hidx]
    exact ⟨_, hown.detach t⟩
  · refine forall_update (P := fun q => ∀ idx, q.idx = some idx → idx.toList.Nodup) _ nofun
      fun u _ jdx hu => ?_
    exact h.nodup u jdx ((idx_wake .free (s.pc u)).symm.trans hu)
  · refine forall_update (P := fun q => ∀ d jdx, q.chain = some (d, jdx) → Chain _ _ _ d jdx) _ nofun
      fun u hu d jdx hd => ?_
    replace hd := (chain_wake .free (s.pc u)).symm.trans hd
    -- the chain of another caller has other descriptors
    have hother : ∀ i ∈ jdx.toList, i ∉ idx.toList :=
      fun i hi hi' => hu (h.eq_of_idx hidx (idx_of_chain hd) hi' hi)
    refine (h.chains u d jdx hd).congr (fun i hi => if_neg (hother i hi)) rfl ?_
    have hne : jdx.i0 ≠ idx.i0 := fun heq =>
      hother jdx.i0 (by simp [Idx.toList]) (by simp [Idx.toList, heq])
    exact congrArg Info.b (update_of_ne hne _ _)
  · change Requests (fun u => (update (fun u => (s.pc u).wake .free) t .idle u).request)
      s.disk s.sent s.taken s.pending s.finished s.consumed (s.returned ++ [k])
    rw [hproj request (request_wake _)]
    exact h.requests.finish (by rw [hpc]; rfl) hdisk
  · exact forall_update (P := fun q => At _ q) _ trivial
      fun u _ => (h.places u).wake_free rfl rfl rfl rfl rfl
  · rcases h.irq_move (t := t) (by rw [hpc]; rfl) .idle hlt with hirq | ⟨u, hu⟩
    · exact .inl hirq
    · exact .inr ⟨u, (congrFun (hproj serving (serving_wake _)) u).trans hu⟩

end

end Inv

end FogOS.Virtio
