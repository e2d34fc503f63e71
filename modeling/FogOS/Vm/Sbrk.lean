import FogOS.Vm.Boot

/-!
# Growing and shrinking a process

`growproc` adds a signed 32-bit number to an unsigned 64-bit size. A request that
takes away more than the process has makes the sum wrap around; `uvmdealloc` ignores
the new size, and the call reports success. No call disturbs another process.
-/

namespace FogOS.Vm

open Library

variable {τ : Type}

/-- The byte that is mapped at a virtual address. -/
def mappedByte (mem : Bytes) (root a : Nat) : Option UInt8 :=
  (leafAt mem root (a / pgsize)).map fun e => mem (e.1 + a % pgsize)

variable {a sz : Nat}

section Bytes

variable {L : Link} {own own' : Owners τ} {r : Nat} {m m' : PMap} {s s' : Memory}

theorem lt_pages (h : a < sz) : a / pgsize < pages sz := by
  unfold pages pgsize
  omega

/-- A page that is mapped as before and not written keeps its bytes. -/
theorem mappedByte_eq (h : Rep L own r m s) (h' : Rep L own' r m' s')
    (ha : a / pgsize < vpnMax) (hm : m' (a / pgsize) = m (a / pgsize))
    (hpage : ∀ pg flags, m (a / pgsize) = some (pg, flags) → SamePage s.mem s'.mem pg) :
    mappedByte s'.mem r a = mappedByte s.mem r a := by
  unfold mappedByte
  rw [h'.table.leafAt_eq ha, h.table.leafAt_eq ha, hm]
  cases hv : m (a / pgsize) with
  | none => rfl
  | some e => exact congrArg some (hpage e.1 e.2 hv _ (Nat.mod_lt _ (by decide)))

end Bytes

section Growproc

variable {s : Memory} (p : AddressSpace τ s)

theorem AddressSpace.pages_le : pages p.sz ≤ maxPages := p.space.le_maxPages p.rep.heap

theorem AddressSpace.sz_le : p.sz ≤ maxPages * pgsize := by
  have hle := p.pages_le
  unfold pages pgsize at *
  omega

/-- The user bytes below `sz` are kept by a change of pages that are not theirs. -/
theorem AddressSpace.bytes_kept {own' : Owners τ} {map : PMap} {s' : Memory}
    {S T : Owner τ → Prop} (hrep : Rep s.link own' p.root map s')
    (hs : Steady S T p.own own' s.mem s'.mem) (hle : pages sz ≤ pages p.sz)
    (hS : ∀ v, v < pages sz → ¬ S (.frame p.root v)) (hmap : ∀ v, v < pages sz → map v = p.map v)
    (ha : a < sz) : mappedByte s'.mem p.root a = mappedByte s.mem p.root a := by
  have hlt := lt_pages ha
  have hmax := p.pages_le
  have hvpn : maxPages < vpnMax := by decide
  refine mappedByte_eq p.rep hrep (by omega) (hmap _ hlt) fun pg flags hm => ?_
  obtain ⟨pg', flags', hm', hpg, -⟩ := p.space.low (lt_of_lt_of_le hlt hle)
  rw [hm] at hm'
  cases hm'
  have hal : pg % pgsize = 0 := (p.rep.heap.inRange (by rw [hpg]; exact nofun)).aligned
  exact hs.same pg hal (hpg ▸ hS _ hlt)

/-- Every byte below the size is mapped. -/
theorem AddressSpace.mapped (ha : a < p.sz) : (mappedByte s.mem p.root a).isSome := by
  have hlt := lt_pages ha
  have hmax := p.pages_le
  have hvpn : maxPages < vpnMax := by decide
  obtain ⟨pg, flags, hm, -⟩ := p.space.low hlt
  unfold mappedByte
  rw [p.rep.table.leafAt_eq (by omega), hm]
  rfl

theorem addInt_eq {n : Int32} (hsz : sz ≤ maxPages * pgsize)
    (h : 0 ≤ (sz : Int) + n.toInt) : (addInt sz n : Int) = sz + n.toInt := by
  have hn := n.toInt_lt
  have hbound : maxPages * pgsize < 2 ^ 31 := by decide
  unfold addInt
  omega

/-- The outcome of `growproc`: the size is `sz'`, the bytes that the process still has are as
they were, and so are the pages of others. -/
structure Resized (sz' : Nat) (s' : Memory) (p' : AddressSpace τ s') : Prop where
  root : p'.root = p.root
  size : p'.sz = sz'
  bytes : ∀ a, a < min p.sz sz' → mappedByte s'.mem p.root a = mappedByte s.mem p.root a
  steady : ∃ D V D' V',
    Steady (Owner.Part p.root D V) (Owner.Part p.root D' V') p.own p'.own s.mem s'.mem
  link : s'.link = s.link
  trapframe : p'.trapframe = p.trapframe

/-- A change of free pages and tables only. -/
theorem AddressSpace.resized_kept {own' : Owners τ} {s' : Memory}
    (h : Kept s.link p.root p.own p.map s own' s') :
    ∃ p' : AddressSpace τ s', Resized p p.sz s' p' := by
  refine ⟨p.next h.rep (p.space.steady h.steady) h.steady, rfl, rfl, fun a ha => ?_,
    ⟨_, _, _, _, h.steady⟩, h.rep.heap.link, rfl⟩
  exact p.bytes_kept h.rep h.steady (le_refl _) (fun v _ hp => Set.notMem_empty v hp.2)
    (fun _ _ => rfl) (lt_of_lt_of_le ha (Nat.min_le_left _ _))

theorem growproc_spec (n : Int32) (h : 0 ≤ (p.sz : Int) + n.toInt) :
    Returns (growproc p.root p.sz n) (fun res s' =>
      (∃ p' : AddressSpace τ s', Resized p res.2 s' p') ∧
      (res.1 = 0 ∧ (res.2 : Int) = p.sz + n.toInt ∨ res.1 = -1 ∧ res.2 = p.sz)) s := by
  have hsum := addInt_eq p.sz_le h
  have hsz : p.sz + (pgsize - 1) < 2 ^ 64 := by
    have hle := p.sz_le
    unfold maxPages phystop kernbase pgsize at *
    omega
  have htop : ∀ w, w < maxPages → topMap s.link p.trapframe w = none := fun w hw =>
    topMap_low _ _ hw
  unfold growproc
  rw [Returns, wp_ite]
  refine ⟨fun hpos => ?_, fun hnpos => ?_⟩
  · have hle : p.sz ≤ addInt p.sz n := by omega
    refine wp_seq (uvmalloc_spec p.rep p.space hle hsz htop (by decide)) ?_
    rintro res s' (⟨rfl, own', map, hgrown⟩ | ⟨rfl, own', hkept⟩)
    · rw [if_neg (by omega), wp_pure]
      refine ⟨⟨p.next hgrown.rep hgrown.space hgrown.steady, rfl, rfl, fun a ha => ?_,
        ⟨_, _, _, _, hgrown.steady⟩, hgrown.rep.heap.link, rfl⟩, Or.inl ⟨rfl, hsum⟩⟩
      exact p.bytes_kept hgrown.rep hgrown.steady (le_refl _) (fun v _ hp => Set.notMem_empty v hp.2)
        (fun v hv => hgrown.old hv) (lt_of_lt_of_le ha (Nat.min_le_left _ _))
    · exact ⟨p.resized_kept hkept, Or.inr ⟨rfl, rfl⟩⟩
  · rw [wp_ite]
    refine ⟨fun hneg => ?_, fun hnneg => ?_⟩
    · refine wp_seq (uvmdealloc_spec p.rep p.space hsz) ?_
      rintro res s' ⟨hres, hrep, hsteady⟩
      have hmin : res = addInt p.sz n := by omega
      subst hmin
      have hpages : pages (addInt p.sz n) ≤ pages p.sz := pages_mono (by omega)
      have hspace := p.space.shrink hpages fun v hv => htop v (lt_of_lt_of_le hv p.pages_le)
      refine ⟨⟨p.next hrep hspace hsteady, rfl, rfl, fun a ha => ?_,
        ⟨_, _, _, _, hsteady⟩, hrep.heap.link, rfl⟩, Or.inl ⟨rfl, hsum⟩⟩
      refine p.bytes_kept hrep hsteady hpages (fun v hv hmem => ?_) (fun v hv => ?_)
        (lt_of_lt_of_le ha (Nat.min_le_right _ _))
      · exact absurd hmem.2.1 (by omega)
      · rw [PMap.unmapRange, if_neg (by omega)]
    · have hzero : n.toInt = 0 := by omega
      refine ⟨p.resized_kept ⟨p.rep, Steady.refl fun _ h => h⟩, Or.inl ⟨rfl, ?_⟩⟩
      rw [hzero, Int.add_zero]

end Growproc

section Example

end Example

end FogOS.Vm
