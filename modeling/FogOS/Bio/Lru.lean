import FogOS.Bio.Cache

/-!
# The order of the buffer list

In every state the list is one cycle through all buffers, ordered by the last `brelse` that left a
buffer unreferenced, and no block of a device is cached twice. The second loop of `bget` runs
from the tail, so it takes the buffer that has been unreferenced for longest.
-/

namespace FogOS.Bio

open Function Library Linked List

namespace Bcache

variable {s s' : Bcache} {order : List BufId} {a b c : BufId} {dev blockno : Nat}

/-- The last release of `a` is before that of `b`; a buffer that was never released comes
first, and two such buffers stand in the order of `binit`. -/
def Older (s : Bcache) (a b : BufId) : Prop :=
  match s.released a, s.released b with
  | none, none => a < b
  | none, some _ => True
  | some _, none => False
  | some t, some u => t < u

/-- The list visits the buffers of `order`, forward along `next` and back along `prev`. -/
def Links (s : Bcache) (order : List BufId) : Prop :=
  Seg s.next s.prev .head (order.map .buf) .head

section Pointers

@[simp] theorem pushFront_prev (s : Bcache) (b : BufId) : (s.pushFront b).prev =
    update (update s.prev (.buf b) .head) (s.next .head) (.buf b) := by
  simp [pushFront, setNext, setPrev]

theorem map_buf_nodup (h : order.Nodup) : (order.map Node.buf).Nodup :=
  h.map fun _ _ => Node.buf.inj

theorem head_notMem (order : List BufId) : Node.head ∉ order.map Node.buf := by simp

theorem buf_notMem (h : b ∉ order) : Node.buf b ∉ order.map Node.buf := by simpa using h

theorem Links.pushFront (h : s.Links order) (hnd : order.Nodup) (hb : b ∉ order) :
    (s.pushFront b).Links (b :: order) := by
  exact Seg.pushFront h (by simp) (buf_notMem hb) (head_notMem _) (map_buf_nodup hnd)

theorem links_append_cons {l r : List BufId} : s.Links (l ++ b :: r) ↔
    Seg s.next s.prev .head (l.map .buf) (.buf b) ∧
      Seg s.next s.prev (.buf b) (r.map .buf) .head := by
  rw [Links, map_append, map_cons]
  exact seg_append

/-- The successor of a buffer in the list is another node. -/
theorem Links.next_ne {l r : List BufId} (h : s.Links (l ++ b :: r))
    (hnd : (l ++ b :: r).Nodup) : s.next (.buf b) ≠ .buf b := by
  intro heq
  have hmem := (links_append_cons.mp h).2.next_mem
  have hr : b ∉ r := (nodup_cons.mp (nodup_append.mp hnd).2.1).1
  rw [heq] at hmem
  simp [hr] at hmem

theorem Links.unlink {l r : List BufId} (h : s.Links (l ++ b :: r))
    (hnd : (l ++ b :: r).Nodup) : (s.unlink b).Links (l ++ r) := by
  have hne := h.next_ne hnd
  obtain ⟨hl, hr⟩ := links_append_cons.mp h
  have hprev : (update s.prev (s.next (.buf b)) (s.prev (.buf b))) (.buf b) =
      s.prev (.buf b) := update_of_ne hne.symm _ _
  have hnd' := map_buf_nodup hnd
  rw [map_append, map_cons] at hnd'
  have hseg := hl.unlink hr hnd' (by simp) (by simp)
  rw [← map_append] at hseg
  simpa only [Links, Bcache.unlink, setPrev, setNext, hprev] using hseg

end Pointers

/-- The list after `binit` has linked in the buffers of `bs`. -/
theorem Links.foldl_pushFront {bs : List BufId} (h : s.Links order)
    (hnd : (bs.reverse ++ order).Nodup) :
    (bs.foldl Bcache.pushFront s).Links (bs.reverse ++ order) := by
  induction bs generalizing s order with
  | nil => exact h
  | cons b bs ih =>
    rw [reverse_cons, append_assoc] at hnd ⊢
    have hb := (nodup_append.mp hnd).2.1
    exact ih (h.pushFront (nodup_cons.mp hb).2 (nodup_cons.mp hb).1) hnd

/-- The invariant of the buffer cache. -/
structure Lru (s : Bcache) (order : List BufId) : Prop where
  links : s.Links order
  perm : order.Perm (List.finRange nbuf)
  sorted : order.Pairwise fun a b => s.Older b a
  unique : ∀ a b, (s.buf a).dev ≠ 0 → (s.buf a).dev = (s.buf b).dev →
    (s.buf a).blockno = (s.buf b).blockno → a = b
  numbered : ∀ b t, s.released b = some t → t < s.releases

namespace Lru

theorem nodup (h : s.Lru order) : order.Nodup := h.perm.nodup_iff.mpr (nodup_finRange _)

theorem mem (h : s.Lru order) (b : BufId) : b ∈ order := h.perm.mem_iff.mpr (mem_finRange b)

theorem length_lt (h : s.Lru order) : (order.map Node.buf).length < nbuf + 1 := by
  rw [length_map, h.perm.length_eq, length_finRange]
  exact Nat.lt_succ_self _

/-- A loop of `bget` is a search in the order of the list. -/
theorem findSome_probe (s : Bcache) (order : List BufId) (test : Buf → Bool) :
    (order.map Node.buf).findSome? (s.probe test) = order.find? fun b => test (s.buf b) := by
  induction order with
  | nil => rfl
  | cons b order ih =>
    cases ht : test (s.buf b) with
    | true => simp [probe, ht]
    | false => simpa [findSome?_cons, probe, ht] using ih

theorem lookup_eq (h : s.Lru order) (dev blockno : Nat) :
    s.lookup dev blockno = some (order.find? fun b => caches dev blockno (s.buf b)) := by
  rw [lookup, Seg.search_eq h.links (head_notMem _) _ h.length_lt, findSome_probe]

theorem victim_eq (h : s.Lru order) :
    s.victim = some (order.reverse.find? fun b => unused (s.buf b)) := by
  have hrev := seg_reverse.mp h.links
  rw [← map_reverse] at hrev
  have hlen : (order.reverse.map Node.buf).length < nbuf + 1 := by
    simpa using h.length_lt
  rw [victim, Seg.search_eq hrev (head_notMem _) _ hlen, findSome_probe]

end Lru

/-- What `bget` does: it finds the block, or recycles the unused buffer that was released
first, or finds every buffer in use. -/
inductive Got (s : Bcache) (dev blockno : Nat) : Except Stop (BufId × Bcache) → Prop
  | hit {b : BufId} (hdev : (s.buf b).dev = dev) (hblockno : (s.buf b).blockno = blockno) :
      Got s dev blockno (.ok (b, s.addRef b))
  | miss {b : BufId} (habsent : ∀ c, ¬((s.buf c).dev = dev ∧ (s.buf c).blockno = blockno))
      (hunused : (s.buf b).refcnt = 0)
      (holdest : ∀ c, (s.buf c).refcnt = 0 → c ≠ b → s.Older b c) :
      Got s dev blockno (.ok (b, s.setBuf b (recycle (s.buf b) dev blockno)))
  | full (habsent : ∀ c, ¬((s.buf c).dev = dev ∧ (s.buf c).blockno = blockno))
      (hused : ∀ c, (s.buf c).refcnt ≠ 0) : Got s dev blockno (.error .panicNoBuffers)

theorem caches_iff {v : Buf} : caches dev blockno v = true ↔ v.dev = dev ∧ v.blockno = blockno := by
  simp [caches]

theorem unused_iff {v : Buf} : unused v = true ↔ v.refcnt = 0 := by simp [unused]

/-- The first unused buffer from the tail of the list is the one released first. -/
theorem Lru.victim_oldest (h : s.Lru order)
    (hb : order.reverse.find? (fun b => unused (s.buf b)) = some b) (hc : (s.buf c).refcnt = 0)
    (hne : c ≠ b) : s.Older b c := by
  obtain ⟨_, before, after, hsplit, hbefore⟩ := find?_eq_some_iff_append.mp hb
  have hmem : c ∈ before ++ b :: after := by
    rw [← hsplit, mem_reverse]
    exact h.mem c
  have hsorted : (before ++ b :: after).Pairwise s.Older := by
    rw [← hsplit, pairwise_reverse]
    exact h.sorted
  rcases mem_append.mp hmem with hmem | hmem
  · have hused := hbefore c hmem
    simp [unused, hc] at hused
  · rcases mem_cons.mp hmem with rfl | hmem
    · exact absurd rfl hne
    · exact (pairwise_cons.mp (pairwise_append.mp hsorted).2.1).1 c hmem

theorem Lru.got (h : s.Lru order) (dev blockno : Nat) : Got s dev blockno (s.bget dev blockno) := by
  rw [bget, h.lookup_eq]
  cases hfind : order.find? fun b => caches dev blockno (s.buf b) with
  | some b =>
    have hb : caches dev blockno (s.buf b) = true := by simpa using find?_some hfind
    exact .hit (caches_iff.mp hb).1 (caches_iff.mp hb).2
  | none =>
    have habsent : ∀ c, ¬((s.buf c).dev = dev ∧ (s.buf c).blockno = blockno) := by
      intro c hc
      exact find?_eq_none.mp hfind c (h.mem c) (caches_iff.mpr hc)
    simp only [h.victim_eq]
    cases hvictim : order.reverse.find? fun b => unused (s.buf b) with
    | some b =>
      have hb : unused (s.buf b) = true := by simpa using find?_some hvictim
      exact .miss habsent (unused_iff.mp hb) fun c hc hne => h.victim_oldest hvictim hc hne
    | none =>
      refine .full habsent fun c hc => ?_
      exact find?_eq_none.mp hvictim c (mem_reverse.mpr (h.mem c)) (unused_iff.mpr hc)

section Steps

/-- A change of one buffer that keeps its block leaves the order. -/
theorem Lru.setBuf_of_block (h : s.Lru order) {v : Buf} (hdev : v.dev = (s.buf b).dev)
    (hblockno : v.blockno = (s.buf b).blockno) : (s.setBuf b v).Lru order where
  links := h.links
  perm := h.perm
  sorted := h.sorted
  unique := by
    have hd : ∀ c, ((s.setBuf b v).buf c).dev = (s.buf c).dev := by
      intro c
      by_cases hc : c = b
      · subst hc
        simp [setBuf, hdev]
      · simp [setBuf, hc]
    have hn : ∀ c, ((s.setBuf b v).buf c).blockno = (s.buf c).blockno := by
      intro c
      by_cases hc : c = b
      · subst hc
        simp [setBuf, hblockno]
      · simp [setBuf, hc]
    intro a c
    rw [hd, hd, hn, hn]
    exact h.unique a c
  numbered := h.numbered

/-- A buffer may be recycled for a block that no buffer holds. -/
theorem Lru.setBuf_recycle (h : s.Lru order)
    (habsent : ∀ c, ¬((s.buf c).dev = dev ∧ (s.buf c).blockno = blockno)) :
    (s.setBuf b (recycle (s.buf b) dev blockno)).Lru order where
  links := h.links
  perm := h.perm
  sorted := h.sorted
  unique := by
    intro a c hne hdev hblockno
    by_cases ha : a = b <;> by_cases hc : c = b
    · rw [ha, hc]
    · subst ha
      simp only [setBuf, recycle, update_self, update_of_ne hc] at hdev hblockno
      exact absurd ⟨hdev.symm, hblockno.symm⟩ (habsent c)
    · subst hc
      simp only [setBuf, recycle, update_self, update_of_ne ha] at hdev hblockno
      exact absurd ⟨hdev, hblockno⟩ (habsent a)
    · simp only [setBuf, update_of_ne ha, update_of_ne hc] at hne hdev hblockno
      exact h.unique a c hne hdev hblockno
  numbered := h.numbered

theorem Lru.bget (h : s.Lru order) (hget : s.bget dev blockno = .ok (b, s')) : s'.Lru order := by
  have hgot := h.got dev blockno
  rw [hget] at hgot
  cases hgot with
  | hit hdev hblockno => exact h.setBuf_of_block rfl rfl
  | miss habsent _ _ => exact h.setBuf_recycle habsent

/-- The order is not changed among the other buffers when `b` is released. -/
theorem older_moveToFront (ha : a ≠ b) (hc : c ≠ b) :
    (s.moveToFront b).Older a c ↔ s.Older a c := by
  simp [Older, moveToFront, update_of_ne ha, update_of_ne hc]

theorem Lru.moveToFront (h : s.Lru order) (b : BufId) : ∃ order', (s.moveToFront b).Lru order' := by
  obtain ⟨l, r, rfl⟩ := append_of_mem (h.mem b)
  have hnd := h.nodup
  have hmid : (b :: (l ++ r)).Nodup := nodup_middle.mp hnd
  obtain ⟨hb, hlr⟩ := nodup_cons.mp hmid
  have hne : ∀ c ∈ l ++ r, c ≠ b := fun c hc heq => hb (heq ▸ hc)
  refine ⟨b :: (l ++ r), ?_, ?_, ?_, h.unique, ?_⟩
  · exact (h.links.unlink hnd).pushFront hlr hb
  · exact perm_middle.symm.trans h.perm
  · refine pairwise_cons.mpr ⟨fun c hc => ?_, ?_⟩
    · have hrel : (s.moveToFront b).released c = s.released c :=
        update_of_ne (hne c hc) _ _
      have hself : (s.moveToFront b).released b = some s.releases := update_self ..
      rw [Older, hrel, hself]
      cases ht : s.released c with
      | none => trivial
      | some t => exact h.numbered c t ht
    · have hsub : (l ++ r).Pairwise fun a b => s.Older b a :=
        h.sorted.sublist ((sublist_cons_self b r).append_left l)
      exact hsub.imp_of_mem fun ha hc hold =>
        (older_moveToFront (hne _ hc) (hne _ ha)).mpr hold
  · intro c t ht
    by_cases hc : c = b
    · subst hc
      have hself : (s.moveToFront c).released c = some s.releases := update_self ..
      rw [hself] at ht
      cases ht
      exact Nat.lt_succ_self _
    · have hrel : (s.moveToFront b).released c = s.released c := update_of_ne hc _ _
      rw [hrel] at ht
      exact Nat.lt_succ_of_lt (h.numbered c t ht)

theorem Lru.brelse (h : s.Lru order) (b : BufId) : ∃ order', (s.brelse b).Lru order' := by
  have hdrop : (s.dropRef b).Lru order := h.setBuf_of_block rfl rfl
  rw [Bcache.brelse]
  split
  · exact hdrop.moveToFront b
  · exact ⟨order, hdrop⟩

theorem Lru.step {act : Act} (h : s.Lru order) (hstep : step s act = .ok s') :
    ∃ order', s'.Lru order' := by
  cases act with
  | bget dev blockno =>
    simp only [Bio.step] at hstep
    cases hget : s.bget dev blockno with
    | error e => simp [hget] at hstep
    | ok r =>
      simp only [hget, Except.ok.injEq] at hstep
      subst hstep
      exact ⟨order, h.bget hget⟩
  | acquiresleep p b =>
    obtain ⟨_, ⟨⟩⟩ := of_guard hstep
    exact ⟨order, h.setBuf_of_block rfl rfl⟩
  | unlock p b =>
    obtain ⟨_, ⟨⟩⟩ := of_guard hstep
    exact ⟨order, h.setBuf_of_block rfl rfl⟩
  | brelse b =>
    cases hstep
    exact h.brelse b
  | bpin b =>
    cases hstep
    exact ⟨order, h.setBuf_of_block rfl rfl⟩
  | bunpin b =>
    cases hstep
    exact ⟨order, h.setBuf_of_block rfl rfl⟩

end Steps

section Boot

theorem foldl_pushFront_buf (bs : List BufId) (s : Bcache) :
    (bs.foldl Bcache.pushFront s).buf = s.buf := by
  induction bs generalizing s with
  | nil => rfl
  | cons b bs ih => exact ih _

theorem foldl_pushFront_released (bs : List BufId) (s : Bcache) :
    (bs.foldl Bcache.pushFront s).released = s.released := by
  induction bs generalizing s with
  | nil => rfl
  | cons b bs ih => exact ih _

theorem lru_binit (data : BufId → Block) : (binit data).Lru (List.finRange nbuf).reverse where
  links := by
    have hempty : (zeroed data).Links [] := ⟨rfl, rfl⟩
    have hnd : ((List.finRange nbuf).reverse ++ []).Nodup := by
      simpa using nodup_finRange nbuf
    simpa [binit] using hempty.foldl_pushFront hnd
  perm := reverse_perm _
  sorted := by
    rw [pairwise_reverse]
    refine (pairwise_lt_finRange nbuf).imp fun hlt => ?_
    simpa [Older, binit, foldl_pushFront_released, zeroed] using hlt
  unique := by
    intro a b hne
    simp [binit, foldl_pushFront_buf, zeroed] at hne
  numbered := by
    intro b t ht
    simp [binit, foldl_pushFront_released, zeroed] at ht

theorem lru_run {data : BufId → Block} {acts : List Act}
    (h : run step (binit data) acts = .ok s) : ∃ order, s.Lru order := by
  have hstep : ∀ s act s', (∃ order, Lru s order) → Bio.step s act = .ok s' →
      ∃ order, Lru s' order := fun _ _ _ ⟨_, hi⟩ hs => hi.step hs
  exact run_preserves hstep ⟨_, lru_binit data⟩ h

end Boot

/-- In every state reached from `binit` the list is one cycle through all buffers, no block of a
device is cached twice, and `bget` ends: it returns the buffer of the block and leaves the list,
or recycles the unused buffer whose last release is oldest, or panics since all are in use. -/
theorem bget_recycles_least_recently_released {data : BufId → Block} {acts : List Act}
    (h : run step (binit data) acts = .ok s) :
    (∃ order : List BufId, order.Perm (List.finRange nbuf) ∧
      Seg s.next s.prev .head (order.map .buf) .head ∧
      Seg s.prev s.next .head (order.map .buf).reverse .head) ∧
    (∀ a b, (s.buf a).dev ≠ 0 → (s.buf a).dev = (s.buf b).dev →
      (s.buf a).blockno = (s.buf b).blockno → a = b) ∧
    ∀ dev blockno, Got s dev blockno (s.bget dev blockno) ∧
      ∀ b s', s.bget dev blockno = .ok (b, s') → s'.next = s.next ∧ s'.prev = s.prev := by
  obtain ⟨order, hlru⟩ := lru_run h
  refine ⟨⟨order, hlru.perm, hlru.links, seg_reverse.mp hlru.links⟩, hlru.unique, ?_⟩
  refine fun dev blockno => ⟨hlru.got dev blockno, fun b s' hget => ?_⟩
  have hgot := hlru.got dev blockno
  rw [hget] at hgot
  cases hgot with
  | hit _ _ => exact ⟨rfl, rfl⟩
  | miss _ _ _ => exact ⟨rfl, rfl⟩

/-- A buffer is used and released; the next block goes to a buffer that was never used, and the
released one is still found. -/
theorem bget_recycles_least_recently_released_second : ∃ s,
    run step (binit fun _ _ => 0)
        [.bget 1 7, .acquiresleep 3 0, .unlock 3 0, .brelse 0, .bget 1 8] = .ok s ∧
      Got s 1 7 (s.bget 1 7) ∧ (s.buf 1).blockno = 8 := by
  have hend : Ends (fun s => (s.buf 1).blockno = 8) (run step (binit fun _ _ => 0)
      [.bget 1 7, .acquiresleep 3 0, .unlock 3 0, .brelse 0, .bget 1 8]) := by decide +kernel
  obtain ⟨s, hrun, hs⟩ := hend.exists
  exact ⟨s, hrun, ((bget_recycles_least_recently_released hrun).2.2 1 7).1, hs⟩

end Bcache

end FogOS.Bio
