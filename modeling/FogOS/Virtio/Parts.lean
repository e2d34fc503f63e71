import FogOS.Library.Ownership
import FogOS.Virtio.Descs

/-!
# The parts of the invariant

Each part is about a few fields of the state and about what a thread has at its place in the code:
its call, its descriptors, its chain, its request. For each part there is one lemma for each change
of these.
-/

namespace FogOS.Virtio

open Function Library List Nat

variable {T B : Type} [DecidableEq T] [DecidableEq B]

namespace Pc

/-- The call that a thread is in. -/
def call : Pc B → Option (Call B)
  | .enter c | .alloc c | .sleepFree c | .wokenFree c => some c
  | .fill c _ | .put c _ | .bump c _ => some c
  | .check c _ _ | .sleepBuf c _ _ | .wokenBuf c _ _ | .finish c _ _ => some c
  | _ => none

/-- The descriptors that a thread has. -/
def idx : Pc B → Option Idx
  | .fill _ idx | .put _ idx | .bump _ idx => some idx
  | .check _ idx _ | .sleepBuf _ idx _ | .wokenBuf _ idx _ | .finish _ idx _ => some idx
  | _ => none

/-- The call and the descriptors of a thread that has formatted them. -/
def chain : Pc B → Option (Call B × Idx)
  | .put c idx | .bump c idx => some (c, idx)
  | .check c idx _ | .sleepBuf c idx _ | .wokenBuf c idx _ | .finish c idx _ => some (c, idx)
  | _ => none

/-- The request of a thread that the device can see, with its number. -/
def request : Pc B → Option (Call B × Idx × Nat)
  | .check c idx k | .sleepBuf c idx k | .wokenBuf c idx k | .finish c idx k => some (c, idx, k)
  | _ => none

/-- The thread is in a part of the code in which it holds `vdisk_lock`. -/
def locked : Pc B → Bool
  | .alloc _ | .fill _ _ | .put _ _ | .bump _ _ | .check _ _ _ | .finish _ _ _ => true
  | .intrAck | .intrLoop | .intrEntry => true
  | _ => false

/-- The descriptors that a thread has, as a set. -/
def owned (p : Pc B) : Finset Nat := p.idx.elim ∅ fun idx => idx.toList.toFinset

/-- A thread has the same call, descriptors and request at two places. -/
structure Same (p q : Pc B) : Prop where
  call : p.call = q.call
  idx : p.idx = q.idx
  chain : p.chain = q.chain
  request : p.request = q.request

section Wake

variable (chan : Chan B) (p : Pc B)

@[simp] theorem call_wake : (p.wake chan).call = p.call := by
  cases p with
  | sleepFree c => by_cases h : chan = .free <;> simp [wake, h, call]
  | sleepBuf c idx k => by_cases h : chan = .buf c.b <;> simp [wake, h, call]
  | _ => rfl

@[simp] theorem idx_wake : (p.wake chan).idx = p.idx := by
  cases p with
  | sleepFree c => by_cases h : chan = .free <;> simp [wake, h, idx]
  | sleepBuf c idx k => by_cases h : chan = .buf c.b <;> simp [wake, h, Pc.idx]
  | _ => rfl

@[simp] theorem chain_wake : (p.wake chan).chain = p.chain := by
  cases p with
  | sleepFree c => by_cases h : chan = .free <;> simp [wake, h, chain]
  | sleepBuf c idx k => by_cases h : chan = .buf c.b <;> simp [wake, h, chain]
  | _ => rfl

@[simp] theorem request_wake : (p.wake chan).request = p.request := by
  cases p with
  | sleepFree c => by_cases h : chan = .free <;> simp [wake, h, request]
  | sleepBuf c idx k => by_cases h : chan = .buf c.b <;> simp [wake, h, request]
  | _ => rfl

@[simp] theorem locked_wake : (p.wake chan).locked = p.locked := by
  cases p with
  | sleepFree c => by_cases h : chan = .free <;> simp [wake, h, locked]
  | sleepBuf c idx k => by_cases h : chan = .buf c.b <;> simp [wake, h, locked]
  | _ => rfl

@[simp] theorem owned_wake : (p.wake chan).owned = p.owned := by simp [owned]

end Wake

end Pc

/-- The threads that hold the lock are those in the locked parts of the code. -/
def Locks (lock : Option T) (locked : T → Bool) : Prop := ∀ t, locked t = true ↔ lock = some t

variable {t : T}

omit [DecidableEq B] in
theorem Locks.acquire {locked : T → Bool} (h : Locks none locked) :
    Locks (some t) (update locked t true) := by
  intro u
  by_cases hu : u = t
  · subst hu
    simp
  · rw [update_of_ne hu, h u]
    simp [Ne.symm hu]

omit [DecidableEq B] in
theorem Locks.release {lock : Option T} {locked : T → Bool} (h : Locks lock locked)
    (ht : locked t = true) : Locks none (update locked t false) := by
  intro u
  by_cases hu : u = t
  · subst hu
    simp
  · have hlock := (h t).1 ht
    rw [update_of_ne hu, h u, hlock]
    simp [Ne.symm hu]

/-- The buffers of the calls are locked, each by one caller. -/
structure Bufs (busy : B → Bool) (call : T → Option (Call B)) : Prop where
  busy : ∀ t c, call t = some c → busy c.b = true
  unique : ∀ t u c d, call t = some c → call u = some d → c.b = d.b → t = u

variable {c : Call B}

theorem Bufs.enter {busy : B → Bool} {call : T → Option (Call B)} (h : Bufs busy call) (hc : busy c.b = false) :
    Bufs (update busy c.b true) (update call t (some c)) := by
  have hother {u : T} {d : Call B} (hd : call u = some d) : d.b ≠ c.b := by
    intro heq
    have hbusy := h.busy u d hd
    rw [heq, hc] at hbusy
    cases hbusy
  refine ⟨fun u d hd => ?_, fun u v d e hd he hde => ?_⟩
  · by_cases hu : u = t
    · subst hu
      rw [update_self] at hd
      cases hd
      exact update_self _ _ _
    · rw [update_of_ne hu] at hd
      rw [update_of_ne (hother hd)]
      exact h.busy u d hd
  · by_cases hu : u = t
    · by_cases hv : v = t
      · rw [hu, hv]
      · subst hu
        rw [update_self] at hd
        rw [update_of_ne hv] at he
        cases hd
        exact absurd hde.symm (hother he)
    · rw [update_of_ne hu] at hd
      by_cases hv : v = t
      · subst hv
        rw [update_self] at he
        cases he
        exact absurd hde (hother hd)
      · rw [update_of_ne hv] at he
        exact h.unique u v d e hd he hde

theorem Bufs.leave {busy : B → Bool} {call : T → Option (Call B)} (h : Bufs busy call) (hc : call t = some c) : Bufs (update busy c.b false) (update call t none) := by
  have hcases {u : T} {d : Call B} (hd : update call t none u = some d) :
      u ≠ t ∧ call u = some d := by
    by_cases hu : u = t
    · subst hu
      rw [update_self] at hd
      cases hd
    · rw [update_of_ne hu] at hd
      exact ⟨hu, hd⟩
  refine ⟨fun u d hd => ?_, fun u v d e hd he hde => ?_⟩
  · obtain ⟨hu, hd⟩ := hcases hd
    have hne : d.b ≠ c.b := fun heq => hu (h.unique u t d c hd hc heq)
    rw [update_of_ne hne]
    exact h.busy u d hd
  · exact h.unique u v d e (hcases hd).2 (hcases he).2 hde

/-- The descriptors, the command and the entry of `info` of a request. -/
structure Chain (desc : Nat → Desc B) (ops : Nat → Op) (info : Nat → Info B) (c : Call B)
    (idx : Idx) : Prop where
  head : desc idx.i0 = ⟨.op idx.i0, 16, true, false, idx.i1⟩
  data : desc idx.i1 = ⟨.data c.b, 1024, true, !c.write, idx.i2⟩
  last : desc idx.i2 = ⟨.status idx.i0, 1, false, true, 0⟩
  op : ops idx.i0 = ⟨c.write, c.blockno * 2 % 2 ^ 32⟩
  buf : (info idx.i0).b = some c.b

omit [DecidableEq B] in
/-- A chain depends on its own descriptors. -/
theorem Chain.congr {desc desc' : Nat → Desc B} {ops ops' : Nat → Op} {info info' : Nat → Info B} {idx : Idx} (h : Chain desc ops info c idx)
    (hdesc : ∀ i ∈ idx.toList, desc' i = desc i) (hops : ops' idx.i0 = ops idx.i0)
    (hinfo : (info' idx.i0).b = (info idx.i0).b) : Chain desc' ops' info' c idx where
  head := (hdesc _ (by simp [Idx.toList])).trans h.head
  data := (hdesc _ (by simp [Idx.toList])).trans h.data
  last := (hdesc _ (by simp [Idx.toList])).trans h.last
  op := hops.trans h.op
  buf := hinfo.trans h.buf

/-- Where the requests are: `k` has been sent, the first `taken` have been taken, and those are
pending or finished; the first `consumed` of the finished ones have been seen by the driver. -/
structure Requests (req : T → Option (Call B × Idx × Nat)) (disk : B → Bool) (sent : List Nat)
    (taken : Nat) (pending : List (Nat × Nat)) (finished : List Nat) (consumed : Nat)
    (returned : List Nat) : Prop where
  head : ∀ t c idx k, req t = some (c, idx, k) → sent[k]? = some idx.i0
  unique : ∀ t u c d idx jdx k, req t = some (c, idx, k) → req u = some (d, jdx, k) → t = u
  taken_le : taken ≤ sent.length
  taken_perm : (pending.map Prod.fst ++ finished).Perm (List.range taken)
  pending_head : ∀ p ∈ pending, sent[p.1]? = some p.2
  consumed_le : consumed ≤ finished.length
  caller : ∀ k < sent.length, k ∉ finished.take consumed → ∃ t c idx, req t = some (c, idx, k)
  disk_iff : ∀ t c idx k, req t = some (c, idx, k) → (disk c.b = true ↔ k ∉ finished.take consumed)
  mem_returned : ∀ k, k ∈ returned ↔
    k ∈ finished.take consumed ∧ ∀ t c idx, req t ≠ some (c, idx, k)
  returned_nodup : returned.Nodup

namespace Requests

variable {req : T → Option (Call B × Idx × Nat)} {disk : B → Bool} {sent : List Nat} {taken : Nat}
  {pending : List (Nat × Nat)} {finished : List Nat} {consumed : Nat} {returned : List Nat}

section

variable (h : Requests req disk sent taken pending finished consumed returned)

include h

omit [DecidableEq T] [DecidableEq B] in
theorem finished_nodup : finished.Nodup :=
  ((nodup_append.1 (h.taken_perm.nodup_iff.2 nodup_range)).2).1

omit [DecidableEq T] [DecidableEq B] in
theorem lt_taken {k : Nat} (hk : k ∈ finished) : k < taken :=
  mem_range.1 (h.taken_perm.mem_iff.1 (mem_append_right _ hk))

omit [DecidableEq T] [DecidableEq B] in
/-- The flags of other buffers do not matter. -/
theorem congr_disk
    {disk' : B → Bool} (heq : ∀ t c idx k, req t = some (c, idx, k) → disk' c.b = disk c.b) :
    Requests req disk' sent taken pending finished consumed returned :=
  { h with disk_iff := fun t c idx k ht => by rw [heq t c idx k ht]; exact h.disk_iff t c idx k ht }

omit [DecidableEq B] in
/-- The driver makes a request visible. -/
theorem send {idx : Idx} (ht : req t = none) (hdisk : disk c.b = true) :
    Requests (update req t (some (c, idx, sent.length))) disk (sent ++ [idx.i0]) taken
      pending finished consumed returned := by
  have hfinished : sent.length ∉ finished := fun hk => absurd (h.lt_taken hk) (Nat.not_lt_of_le h.taken_le)
  have hcases {u : T} {d : Call B} {jdx : Idx} {k : Nat}
      (hu : update req t (some (c, idx, sent.length)) u = some (d, jdx, k)) :
      (u = t ∧ d = c ∧ jdx = idx ∧ k = sent.length) ∨ (u ≠ t ∧ req u = some (d, jdx, k)) := by
    by_cases hut : u = t
    · subst hut
      rw [update_self] at hu
      cases hu
      exact .inl ⟨rfl, rfl, rfl, rfl⟩
    · rw [update_of_ne hut] at hu
      exact .inr ⟨hut, hu⟩
  have hlt {u : T} {d : Call B} {jdx : Idx} {k : Nat} (hu : req u = some (d, jdx, k)) :
      k < sent.length := (List.getElem?_eq_some_iff.1 (h.head u d jdx k hu)).1
  have hold {k i : Nat} (hk : sent[k]? = some i) : (sent ++ [idx.i0])[k]? = some i := by
    rw [getElem?_append_left (List.getElem?_eq_some_iff.1 hk).1, hk]
  refine ⟨fun u d jdx k hu => ?_, fun u v d e jdx jdx' k hu hv => ?_, ?_, h.taken_perm,
    fun p hp => hold (h.pending_head p hp), h.consumed_le, fun k hk hk' => ?_, fun u d jdx k hu => ?_,
    fun k => ?_, h.returned_nodup⟩
  · rcases hcases hu with ⟨-, -, rfl, rfl⟩ | ⟨-, hu⟩
    · rw [getElem?_append_right (le_refl _), Nat.sub_self]
      rfl
    · exact hold (h.head u d jdx k hu)
  · rcases hcases hu with ⟨hut, -, -, hk⟩ | ⟨-, hu'⟩
    · rcases hcases hv with ⟨hvt, -⟩ | ⟨-, hv'⟩
      · rw [hut, hvt]
      · exact absurd (hlt hv') (hk ▸ lt_irrefl _)
    · rcases hcases hv with ⟨-, -, -, hk⟩ | ⟨-, hv'⟩
      · exact absurd (hlt hu') (hk ▸ lt_irrefl _)
      · exact h.unique u v d e jdx jdx' k hu' hv'
  · rw [length_append]
    exact le_add_right_of_le h.taken_le
  · rw [length_append, length_singleton] at hk
    rcases Nat.lt_succ_iff_lt_or_eq.1 hk with hk | rfl
    · obtain ⟨u, d, jdx, hu⟩ := h.caller k hk hk'
      have hne : u ≠ t := by
        rintro rfl
        rw [ht] at hu
        cases hu
      exact ⟨u, d, jdx, by rw [update_of_ne hne, hu]⟩
    · exact ⟨t, c, idx, update_self _ _ _⟩
  · rcases hcases hu with ⟨-, rfl, -, rfl⟩ | ⟨-, hu⟩
    · exact iff_of_true hdisk fun hk => hfinished (mem_of_mem_take hk)
    · exact h.disk_iff u d jdx k hu
  · rw [h.mem_returned]
    refine and_congr_right fun hk => ?_
    have hne : k ≠ sent.length := fun heq => hfinished (heq ▸ mem_of_mem_take hk)
    refine ⟨fun hnone u d jdx hu => ?_, fun hnone u d jdx hu => ?_⟩
    · rcases hcases hu with ⟨-, -, -, rfl⟩ | ⟨-, hu⟩
      · exact hne rfl
      · exact hnone u d jdx hu
    · have hut : u ≠ t := by
        rintro rfl
        rw [ht] at hu
        cases hu
      exact hnone u d jdx (by rw [update_of_ne hut, hu])

omit [DecidableEq T] [DecidableEq B] in
/-- The device takes the next request. -/
theorem take {head : Nat} (hhead : sent[taken]? = some head) :
    Requests req disk sent (taken + 1) (pending ++ [(taken, head)]) finished consumed returned := by
  refine { h with taken_le := (List.getElem?_eq_some_iff.1 hhead).1, taken_perm := ?_,
                  pending_head := fun p hp => ?_ }
  · rw [range_succ, map_append, append_assoc]
    refine (perm_append_comm.append_left _).trans ?_
    rw [← append_assoc]
    exact h.taken_perm.append_right _
  · rcases mem_append.1 hp with hp | hp
    · exact h.pending_head p hp
    · rw [mem_singleton.1 hp]
      exact hhead

omit [DecidableEq T] [DecidableEq B] in
/-- The device finishes a request. -/
theorem complete {n k head : Nat} (hn : pending[n]? = some (k, head)) :
    Requests req disk sent taken (pending.eraseIdx n) (finished ++ [k]) consumed returned := by
  have htake : (finished ++ [k]).take consumed = finished.take consumed :=
    take_append_of_le_length h.consumed_le
  obtain ⟨hlt, hget⟩ := List.getElem?_eq_some_iff.1 hn
  refine ⟨h.head, h.unique, h.taken_le, ?_, fun p hp => ?_, ?_, ?_, ?_, ?_, h.returned_nodup⟩
  · refine List.Perm.trans ?_ h.taken_perm
    have hperm : ((k, head) :: pending.eraseIdx n).Perm pending := by
      rw [← hget]
      exact getElem_cons_eraseIdx_perm hlt
    have hmap := (hperm.map Prod.fst).append_right finished
    refine List.Perm.trans ?_ hmap
    rw [← append_assoc, map_cons, cons_append]
    exact perm_append_singleton _ _
  · exact h.pending_head p (mem_of_mem_eraseIdx hp)
  · rw [length_append]
    exact le_add_right_of_le h.consumed_le
  · rw [htake]
    exact h.caller
  · rw [htake]
    exact h.disk_iff
  · rw [htake]
    exact h.mem_returned

omit [DecidableEq T] in
/-- The driver sees that a request is finished. -/
theorem consume {k : Nat} (hk : finished[consumed]? = some k) {idx : Idx}
    (ht : req t = some (c, idx, k))
    (hbuf : ∀ u d jdx l, req u = some (d, jdx, l) → d.b = c.b → u = t) :
    Requests req (update disk c.b false) sent taken pending finished (consumed + 1)
      returned := by
  obtain ⟨hlt, hget⟩ := List.getElem?_eq_some_iff.1 hk
  have htake : finished.take (consumed + 1) = finished.take consumed ++ [k] := by
    rw [take_add_one, hk]
    rfl
  refine { h with consumed_le := hlt, caller := fun l hl hl' => ?_,
                  disk_iff := fun u d jdx l hu => ?_, mem_returned := fun l => ?_ }
  · rw [htake, mem_append, not_or] at hl'
    exact h.caller l hl hl'.1
  · rw [htake, mem_append, mem_singleton, not_or]
    by_cases hd : d.b = c.b
    · obtain rfl := hbuf u d jdx l hu hd
      rw [ht] at hu
      cases hu
      rw [update_self]
      exact iff_of_false (by decide) fun hl => hl.2 rfl
    · have hlk : l ≠ k := by
        rintro rfl
        obtain rfl := h.unique u t d c jdx idx l hu ht
        rw [ht] at hu
        cases hu
        exact hd rfl
      rw [update_of_ne hd, h.disk_iff u d jdx l hu]
      exact (and_iff_left hlk).symm
  · rw [h.mem_returned, htake, mem_append, mem_singleton]
    constructor
    · exact fun ⟨hl, hnone⟩ => ⟨.inl hl, hnone⟩
    · rintro ⟨hl | rfl, hnone⟩
      · exact ⟨hl, hnone⟩
      · exact absurd ht (hnone t c idx)

omit [DecidableEq B] in
/-- A caller returns. -/
theorem finish {idx : Idx} {k : Nat} (ht : req t = some (c, idx, k)) (hdisk : disk c.b = false) :
    Requests (update req t none) disk sent taken pending finished consumed (returned ++ [k]) := by
  have hk : k ∈ finished.take consumed := by
    by_contra hk
    rw [(h.disk_iff t c idx k ht).2 hk] at hdisk
    cases hdisk
  have hcases {u : T} {d : Call B} {jdx : Idx} {l : Nat} :
      update req t none u = some (d, jdx, l) ↔ u ≠ t ∧ req u = some (d, jdx, l) := by
    by_cases hu : u = t
    · subst hu
      simp
    · simp [hu]
  refine ⟨fun u d jdx l hu => h.head u d jdx l (hcases.1 hu).2,
    fun u v d e jdx jdx' l hu hv => h.unique u v d e jdx jdx' l (hcases.1 hu).2 (hcases.1 hv).2,
    h.taken_le, h.taken_perm, h.pending_head, h.consumed_le, fun l hl hl' => ?_,
    fun u d jdx l hu => h.disk_iff u d jdx l (hcases.1 hu).2, fun l => ?_, ?_⟩
  · obtain ⟨u, d, jdx, hu⟩ := h.caller l hl hl'
    have hne : u ≠ t := by
      rintro rfl
      rw [ht] at hu
      cases hu
      exact hl' hk
    exact ⟨u, d, jdx, hcases.2 ⟨hne, hu⟩⟩
  · rw [mem_append, mem_singleton, h.mem_returned]
    constructor
    · rintro (⟨hl, hnone⟩ | rfl)
      · exact ⟨hl, fun u d jdx hu => hnone u d jdx (hcases.1 hu).2⟩
      · refine ⟨hk, fun u d jdx hu => ?_⟩
        obtain ⟨hne, hu⟩ := hcases.1 hu
        exact hne (h.unique u t d c jdx idx l hu ht)
    · rintro ⟨hl, hnone⟩
      by_cases hlk : l = k
      · exact .inr hlk
      · refine .inl ⟨hl, fun u d jdx hu => hnone u d jdx (hcases.2 ⟨?_, hu⟩)⟩
        rintro rfl
        rw [ht] at hu
        cases hu
        exact hlk rfl
  · refine nodup_append.2 ⟨h.returned_nodup, nodup_singleton _, fun l hl m hm => ?_⟩
    rw [mem_singleton.1 hm]
    rintro rfl
    exact ((h.mem_returned l).1 hl).2 t c idx ht

end

end Requests

end FogOS.Virtio
