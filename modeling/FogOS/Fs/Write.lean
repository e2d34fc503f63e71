import FogOS.Fs.Content

/-!
# `writei` overlays the file with the bytes written

The loop is followed from the state in which `writei` was called: `Progress` says
what holds after any number of iterations, even when one of them fails, and
`Overlaid` says which bytes the completed iterations have changed.
-/

namespace FogOS.Fs

open Function Library Bytes List Nat UInt32

variable {sb : Superblock} {d d₁ d₂ : Disk} {view : Nat → Dinode} {inum : Nat}

theorem dataSlot_inj {m n : Nat} (h : dataSlot m = dataSlot n) : m = n := by
  unfold dataSlot at h
  split at h <;> split at h <;> omega

theorem slotRef_dataSlot (hlive : Live sb view inum) (bn : Nat) :
    slotRef sb d view (inum, dataSlot bn) = fileBlock d (view inum) bn := by
  rw [slotRef_of_live hlive, fileBlock]

section DataBlock

variable {bn addr i m : Nat} {v : Block}

section

variable (hi : AllocInv sb d view) (hlive : Live sb view inum)
  (haddr : fileBlock d (view inum) bn = addr) (hne : addr ≠ 0)

include hi hlive haddr hne

theorem dataStart_le_fileBlock : dataStart sb ≤ addr := by
  rw [← slotRef_dataSlot hlive] at haddr
  rw [← haddr] at hne ⊢
  exact (hi.accounts.area _ hne).1

/-- A data block is not the indirect block of any inode. -/
theorem indirect_ne_fileBlock (hl : Live sb view i) : (view i).addr ndirect ≠ addr := by
  intro heq
  rw [← slotRef_dataSlot hlive] at haddr
  have href : slotRef sb d view (i, ndirect) = addr := by
    rw [slotRef_of_live hl, blockRef_of_le (le_refl _), heq]
  have hinj := hi.accounts.inj _ _ (by rwa [haddr]) (haddr.trans href.symm)
  exact dataSlot_ne_ndirect bn (congrArg Prod.snd hinj)

/-- Two positions of files do not share a block. -/
theorem fileBlock_ne_of_ne (hl : Live sb view i)
    (hpos : (i, m) ≠ (inum, bn)) : fileBlock d (view i) m ≠ addr := by
  intro heq
  rw [← slotRef_dataSlot hlive] at haddr
  rw [← slotRef_dataSlot hl] at heq
  have hinj := hi.accounts.inj _ _ (by rwa [haddr]) (haddr.trans heq.symm)
  have h₁ : inum = i := congrArg Prod.fst hinj
  have h₂ : bn = m := dataSlot_inj (congrArg Prod.snd hinj)
  exact hpos (by rw [h₁, h₂])

theorem blockRef_write_data (hl : Live sb view i) (l : Nat) :
    blockRef (update d addr v) (view i) l = blockRef d (view i) l := by
  apply blockRef_congr
  intro _
  rw [update_of_ne (indirect_ne_fileBlock hi hlive haddr hne hl)]

theorem AllocInv.write_data : AllocInv sb (update d addr v) view := by
  apply hi.congr
  · intro i hl l
    exact blockRef_write_data hi hlive haddr hne hl l
  · intro c hc
    have h₁ := bblock_lt_dataStart hc
    have h₂ := dataStart_le_fileBlock hi hlive haddr hne
    apply blockUsed_congr
    rw [update_of_ne (by omega)]

end

theorem dinode_write_data (hi : AllocInv sb d view) (hsb : WellFormed sb)
    (hlive : Live sb view inum) (haddr : fileBlock d (view inum) bn = addr) (hne : addr ≠ 0)
    (hlt : i < sb.ninodes) : dinode sb (update d addr v) i = dinode sb d i := by
  have h₁ := hsb.iblock_lt hlt
  have h₂ := @bmapstart_lt_dataStart sb
  have h₃ := dataStart_le_fileBlock hi hlive haddr hne
  apply dinode_congr
  rw [update_of_ne (by omega)]

section

variable (hi : AllocInv sb d view) (hlive : Live sb view inum)
  (haddr : fileBlock d (view inum) bn = addr) (hne : addr ≠ 0)

include hi hlive haddr hne

theorem byteAt_write_self {p : Nat}
    (hp : p / bsize = bn) : byteAt (update d addr v) (view inum) p = v (p % bsize) := by
  rw [byteAt, hp, fileBlock, blockRef_write_data hi hlive haddr hne hlive, ← fileBlock, haddr,
    update_self]

theorem byteAt_write_of_ne {p : Nat} (hp : p / bsize ≠ bn) :
    byteAt (update d addr v) (view inum) p = byteAt d (view inum) p := by
  have hpos : (inum, p / bsize) ≠ (inum, bn) := by simp [hp]
  rw [byteAt, byteAt, fileBlock, blockRef_write_data hi hlive haddr hne hlive, ← fileBlock,
    update_of_ne (fileBlock_ne_of_ne hi hlive haddr hne hlive hpos)]

end

end DataBlock

/-- What holds in the loop of `writei` once it has reached `off`: blocks in use stay in place,
data blocks of other inodes keep their bytes, and the file has a block for every position
below `off`. -/
structure Progress (sb : Superblock) (d : Disk) (view : Nat → Dinode) (inum off : Nat)
    (d' : Disk) (ip' : Dinode) : Prop where
  inv : AllocInv sb d' (update view inum ip')
  fields : ip' = { view inum with addrs := ip'.addrs }
  refs : ∀ x, slotRef sb d view x ≠ 0 → slotRef sb d' (update view inum ip') x = slotRef sb d view x
  others : ∀ i bn, i ≠ inum → slotRef sb d view (i, dataSlot bn) ≠ 0 →
    d' (slotRef sb d view (i, dataSlot bn)) = d (slotRef sb d view (i, dataSlot bn))
  dinodes : ∀ i, i < sb.ninodes → dinode sb d' i = dinode sb d i
  mapped : ∀ bn, bn * bsize < off → fileBlock d' ip' bn ≠ 0

/-- The bytes from `start` to `off` come from `data`, all others are as they were. -/
structure Overlaid (d : Disk) (ip : Dinode) (data : Bytes) (start off : Nat) (d' : Disk)
    (ip' : Dinode) : Prop where
  kept : ∀ p, fileBlock d ip (p / bsize) ≠ 0 → ¬ (start ≤ p ∧ p < off) →
    byteAt d' ip' p = byteAt d ip p
  written : ∀ p, start ≤ p → p < off → byteAt d' ip' p = data (p - start)

section Steps

variable {ip₁ ip₂ : Dinode} {s : Store} {off start addr bn : Nat} {data : Bytes}

section

variable (h : Progress sb d view inum off d₁ ip₁)

include h

theorem Progress.live (hlive : Live sb view inum) : Live sb (update view inum ip₁) inum :=
  (live_update_iff (by rw [h.fields]) inum).mpr hlive

theorem Progress.fileBlock_eq (hlive : Live sb view inum) (hbn : fileBlock d (view inum) bn ≠ 0) :
    fileBlock d₁ ip₁ bn = fileBlock d (view inum) bn := by
  have href := h.refs (inum, dataSlot bn) (by rwa [slotRef_dataSlot hlive])
  rwa [slotRef_dataSlot (h.live hlive), update_self, slotRef_dataSlot hlive] at href

omit h in
/-- A call of `bmap` in the loop keeps what the loop has achieved. -/
theorem Progress.bmap (h : Progress sb d view inum off s.disk ip₁) (hlive : Live sb view inum)
    {s' : Store} (hm : Mapped sb s (update view inum ip₁) inum bn addr ip₂ s') :
    Progress sb d view inum off s'.disk ip₂ := by
  have hinv := hm.inv
  have hkeeps := hm.keeps
  have hfields := hm.fields
  rw [update_idem] at hinv hkeeps
  rw [update_self, h.fields] at hfields
  refine ⟨hinv, hfields, ?_, ?_, ?_, ?_⟩
  · intro x hx
    have h₁ := h.refs x hx
    rw [hkeeps.refs x (by rwa [h₁]), h₁]
  · intro i m hi hx
    have h₁ := h.refs _ hx
    have h₂ := hkeeps.data i m (by rwa [h₁])
    rw [h₁] at h₂
    rw [h₂, h.others i m hi hx]
  · intro i hlt
    rw [hkeeps.dinodes i hlt, h.dinodes i hlt]
  · intro m hlt
    have hne := h.mapped m hlt
    have href := hkeeps.refs (inum, dataSlot m)
      (by rwa [slotRef_dataSlot (h.live hlive), update_self])
    have hlive₂ : Live sb (update view inum ip₂) inum :=
      (live_update_iff (by rw [hfields]) inum).mpr hlive
    rw [slotRef_dataSlot hlive₂, slotRef_dataSlot (h.live hlive), update_self, update_self] at href
    rwa [href]

omit h in
/-- Positions that have a block read the same before and after `bmap`. -/
theorem Mapped.byteAt_eq {s' : Store} (hlive : Live sb view inum)
    (hm : Mapped sb s view inum bn addr ip₂ s') {p : Nat}
    (hp : fileBlock s.disk (view inum) (p / bsize) ≠ 0) :
    byteAt s'.disk ip₂ p = byteAt s.disk (view inum) p := by
  have hslot := @slotRef_dataSlot sb s.disk view inum hlive (p / bsize)
  have hlive₂ : Live sb (update view inum ip₂) inum :=
    (live_update_iff (by rw [hm.fields]) inum).mpr hlive
  have href := hm.keeps.refs (inum, dataSlot (p / bsize)) (by rwa [hslot])
  have hdata := hm.keeps.data inum (p / bsize) (by rwa [hslot])
  rw [slotRef_dataSlot hlive₂, update_self, hslot] at href
  rw [hslot] at hdata
  rw [byteAt, byteAt, href, hdata]

omit h in
theorem Overlaid.bmap (ho : Overlaid d (view inum) data start off s.disk ip₁)
    (h : Progress sb d view inum off s.disk ip₁) (hlive : Live sb view inum) {s' : Store}
    (hm : Mapped sb s (update view inum ip₁) inum bn addr ip₂ s') :
    Overlaid d (view inum) data start off s'.disk ip₂ := by
  have hsame : ∀ p, fileBlock s.disk ip₁ (p / bsize) ≠ 0 →
      byteAt s'.disk ip₂ p = byteAt s.disk ip₁ p := by
    intro p hp
    have heq := @Mapped.byteAt_eq _ _ _ _ _ _ _ _ (h.live hlive) hm p (by rwa [update_self])
    rwa [update_self] at heq
  constructor
  · intro p hp hout
    rw [hsame p (by rwa [h.fileBlock_eq hlive hp]), ho.kept p hp hout]
  · intro p hstart hoff
    have hmul : p / bsize * bsize ≤ p := div_mul_le_self p bsize
    rw [hsame p (h.mapped _ (by omega)), ho.written p hstart hoff]

/-- Filling a block of the file in the buffer cache, completely or in part. -/
theorem Progress.fill (hsb : WellFormed sb)
    (hlive : Live sb view inum) (haddr : fileBlock d₁ ip₁ bn = addr) (hne : addr ≠ 0)
    (v : Block) : Progress sb d view inum off (update d₁ addr v) ip₁ := by
  have hlive₁ := h.live hlive
  rw [← update_self inum ip₁ view] at haddr
  have hrefs : ∀ i, Live sb (update view inum ip₁) i → ∀ l,
      blockRef (update d₁ addr v) (update view inum ip₁ i) l =
        blockRef d₁ (update view inum ip₁ i) l :=
    fun i hl l => blockRef_write_data h.inv hlive₁ haddr hne hl l
  refine ⟨h.inv.write_data hlive₁ haddr hne, h.fields, ?_, ?_, ?_, ?_⟩
  · intro x hx
    rw [← h.refs x hx]
    unfold slotRef
    split
    · rename_i hl
      exact hrefs x.1 hl x.2
    · rfl
  · intro i m hi hx
    have href := h.refs _ hx
    rw [← h.others i m hi hx, ← href, update_of_ne]
    rw [← slotRef_dataSlot hlive₁] at haddr
    intro heq
    have hinj := h.inv.accounts.inj _ _ (by rwa [href]) (heq.trans haddr.symm)
    exact hi (congrArg Prod.fst hinj)
  · intro i hlt
    rw [dinode_write_data h.inv hsb hlive₁ haddr hne hlt, h.dinodes i hlt]
  · intro m hlt
    have hself := hrefs inum hlive₁ (dataSlot m)
    rw [update_self] at hself
    rw [fileBlock, hself]
    exact h.mapped m hlt

/-- The loop moves on within the block of `off`. -/
theorem Progress.advance (hbn : fileBlock d₁ ip₁ (off / bsize) ≠ 0) {m : Nat}
    (hm : off % bsize + m ≤ bsize) : Progress sb d view inum (off + m) d₁ ip₁ := by
  refine ⟨h.inv, h.fields, h.refs, h.others, h.dinodes, ?_⟩
  intro bn hlt
  by_cases hoff : bn * bsize < off
  · exact h.mapped bn hoff
  · have hpos : 0 < bsize := by decide
    obtain ⟨hdiv, -⟩ := @block_of_offset off (bn * bsize - off) (by omega)
    rw [show off + (bn * bsize - off) = bn * bsize by omega, Nat.mul_div_cancel _ hpos] at hdiv
    rwa [hdiv]

end

/-- A chunk copied to the block of `off` extends the overlay by the bytes of the chunk. -/
theorem Overlaid.fill (ho : Overlaid d (view inum) data start off d₁ ip₁)
    (h : Progress sb d view inum off d₁ ip₁) (hlive : Live sb view inum) {tot m : Nat}
    (hoff : off = start + tot) (hm : off % bsize + m ≤ bsize)
    (haddr : fileBlock d₁ ip₁ (off / bsize) = addr) (hne : addr ≠ 0) :
    Overlaid d (view inum) data start (off + m) (update d₁ addr
        (blit (d₁ addr) (off % bsize) m fun i => data (tot + i))) ip₁ := by
  have hlive₁ := h.live hlive
  have haddr₁ : fileBlock d₁ (update view inum ip₁ inum) (off / bsize) = addr := by
    rwa [update_self]
  have hin : ∀ i, i < m → byteAt (update d₁ addr
      (blit (d₁ addr) (off % bsize) m fun i => data (tot + i))) ip₁ (off + i) = data (tot + i) := by
    intro i hi
    obtain ⟨hdiv, hmod⟩ := @block_of_offset off i (by omega)
    have hbyte := @byteAt_write_self _ _ _ _ _ _
      (blit (d₁ addr) (off % bsize) m fun i => data (tot + i)) h.inv hlive₁ haddr₁ hne _ hdiv
    rw [update_self] at hbyte
    rw [hbyte, hmod, blit_apply_inside (by omega), Nat.add_sub_cancel_left]
  have hout : ∀ p, ¬ (off ≤ p ∧ p < off + m) → byteAt (update d₁ addr
      (blit (d₁ addr) (off % bsize) m fun i => data (tot + i))) ip₁ p = byteAt d₁ ip₁ p := by
    intro p hp
    by_cases hdiv : p / bsize = off / bsize
    · have hbyte := @byteAt_write_self _ _ _ _ _ _
        (blit (d₁ addr) (off % bsize) m fun i => data (tot + i)) h.inv hlive₁ haddr₁ hne _ hdiv
      rw [update_self] at hbyte
      have h₁ := div_add_mod p bsize
      have h₂ := div_add_mod off bsize
      rw [hdiv] at h₁
      rw [hbyte, blit_apply_outside (by omega), byteAt, hdiv, haddr]
    · have hbyte := @byteAt_write_of_ne _ _ _ _ _ _
        (blit (d₁ addr) (off % bsize) m fun i => data (tot + i)) h.inv hlive₁ haddr₁ hne _ hdiv
      rwa [update_self] at hbyte
  constructor
  · intro p hp hrange
    rw [hout p (by omega), ho.kept p hp (by omega)]
  · intro p hstart hlt
    by_cases hp : p < off
    · rw [hout p (by omega), ho.written p hstart hp]
    · have hbyte := hin (p - off) (by omega)
      rw [show off + (p - off) = p by omega] at hbyte
      rw [hbyte]
      congr 1
      omega

end Steps

section Loop

variable {src : Source} {n start : Nat}

theorem Progress.initial {off : Nat} (hi : AllocInv sb d view) (hlive : Live sb view inum)
    (hoff : off ≤ (view inum).size.toNat) : Progress sb d view inum off d (view inum) := by
  refine ⟨?_, rfl, ?_, fun _ _ _ _ => rfl, fun _ _ => rfl, ?_⟩
  · rwa [update_eq_self]
  · intro x _
    rw [update_eq_self]
  · intro bn hbn
    exact hi.dense inum hlive bn (by omega)

theorem Overlaid.initial (d : Disk) (ip : Dinode) (data : Bytes) (start : Nat) :
    Overlaid d ip data start start d ip :=
  ⟨fun _ _ _ => rfl, fun _ h₁ h₂ => absurd h₁ (by omega)⟩

/-- A copy of the `n` bytes to `off` that fails does so before it has copied a part of a block. -/
def Source.Clean (src : Source) (off n : Nat) : Prop :=
  ∀ f, src.fault = some f → f < n → f = 0 ∨ (off + f) % bsize = 0

/-- A clean source fails at the start of an iteration. -/
theorem Source.Clean.copyFault_eq (h : src.Clean start n) {tot k : Nat} (hlt : tot < n)
    (hfault : copyFault src.fault tot (chunk n tot (start + tot)) = some k) : k = 0 := by
  unfold copyFault at hfault
  split at hfault
  · rename_i f hf
    split at hfault
    · have hle := chunk_le n tot (start + tot)
      have hblock := offset_add_chunk_le n tot (start + tot)
      have hk := Option.some.inj hfault
      by_contra hne
      obtain ⟨-, hmod⟩ := @block_of_offset (start + tot) (f - tot) (by omega)
      rw [show start + tot + (f - tot) = start + f by omega] at hmod
      have hclean := h f hf (by omega)
      omega
    · cases hfault
  · cases hfault

/-- The loop of `writei` never panics. If it does all `n` bytes, or its source is clean, the bytes
it has done are overlaid, and it does all of them when they are accessible and the file already
has blocks for them. -/
theorem writeiLoop_spec (hsb : WellFormed sb) (hlive : Live sb view inum)
    (hmax : start + n ≤ maxfile * bsize) {s : Store} {ip : Dinode} {tot : Nat} (htot : tot ≤ n)
    (h : Progress sb d view inum (start + tot) s.disk ip)
    (ho : Overlaid d (view inum) src.data start (start + tot) s.disk ip) :
    ∃ tot' ip' s', writeiLoop sb src n tot (start + tot) s ip = .ok (tot', start + tot', ip', s') ∧
      tot' ≤ n ∧ Progress sb d view inum (start + tot') s'.disk ip' ∧
      (tot' = n ∨ src.Clean start n →
        Overlaid d (view inum) src.data start (start + tot') s'.disk ip') ∧
      (src.fault = none → start + n ≤ (view inum).size.toNat → tot' = n) := by
  induction hk : n - tot using Nat.strong_induction_on generalizing tot s ip with
  | _ k ih =>
    rw [writeiLoop]
    by_cases hlt : tot < n
    · have hbn : (start + tot) / bsize < maxfile := by
        apply Nat.div_lt_of_lt_mul
        rw [mul_comm]
        omega
      obtain ⟨addr, ip₁, s₁, hbmap, hm⟩ := bmap_spec h.inv hsb (h.live hlive) hbn
      have h₁ := h.bmap hlive hm
      have ho₁ := ho.bmap h hlive hm
      rw [update_self] at hbmap
      rw [dif_pos hlt, hbmap, ok_bind]
      by_cases hne : addr = 0
      · refine ⟨tot, ip₁, s₁, ?_, htot, h₁, fun _ => ho₁, ?_⟩
        · simp only [hne, if_true]
          rfl
        · intro _ hsize
          have hmul := div_mul_le_self (start + tot) bsize
          have hdense := h.inv.dense inum (h.live hlive) ((start + tot) / bsize)
          rw [update_self, h.fields] at hdense
          have hblock := hdense (by simp only; omega)
          rw [← h.fields, ← update_self inum ip view] at hblock
          exact absurd ((hm.hit hblock).1.symm.trans hne) hblock
      · have haddr := hm.found hne
        have hchunk := offset_add_chunk_le n tot (start + tot)
        simp only [hne, if_false]
        cases hfault : copyFault src.fault tot (chunk n tot (start + tot)) with
        | some k =>
          refine ⟨tot, ip₁, _, rfl, htot, h₁.fill hsb hlive haddr hne _, ?_, ?_⟩
          · rintro (heq | hclean)
            · omega
            · obtain rfl := hclean.copyFault_eq hlt hfault
              rw [blit_zero, update_eq_self]
              exact ho₁
          · intro hnone
            rw [hnone, copyFault] at hfault
            cases hfault
        | none =>
          have hpos := @chunk_pos n tot (start + tot) hlt
          have hle := chunk_le n tot (start + tot)
          have hadv : Progress sb d view inum (start + (tot + chunk n tot (start + tot)))
              s₁.disk ip₁ := by
            rw [← add_assoc]
            exact h₁.advance (by rwa [haddr]) hchunk
          have hover := ho₁.fill h₁ hlive rfl hchunk haddr hne
          rw [add_assoc] at hover
          simp only [add_assoc]
          exact ih (n - (tot + chunk n tot (start + tot))) (by omega)
            (by omega) (hadv.fill hsb hlive haddr hne _) hover rfl
    · rw [dif_neg hlt]
      exact ⟨tot, ip, s, rfl, htot, h, fun _ => ho, fun _ _ => by omega⟩

end Loop

section Writei

variable {src : Source} {s : Store} {off n : UInt32}

/-- The inode after the loop of `writei` has reached `off`. -/
def grown (ip : Dinode) (off : Nat) : Dinode :=
  if off > ip.size.toNat then { ip with size := UInt32.ofNat off } else ip

theorem grown_size {ip : Dinode} {off : Nat} (hoff : off ≤ maxfile * bsize) :
    (grown ip off).size.toNat = max ip.size.toNat off := by
  have hmax : maxfile * bsize < 2 ^ 32 := by decide
  unfold grown
  split
  · rw [toNat_ofNat', mod_eq_of_lt (by omega)]
    omega
  · omega

theorem grown_type (ip : Dinode) (off : Nat) : (grown ip off).type = ip.type := by
  unfold grown
  split <;> rfl

theorem grown_addr (ip : Dinode) (off k : Nat) : (grown ip off).addr k = ip.addr k := by
  unfold grown
  split <;> rfl

theorem blockRef_grown (d : Disk) (ip : Dinode) (off k : Nat) :
    blockRef d (grown ip off) k = blockRef d ip k := by
  simp only [blockRef, grown_addr]

theorem fileBlock_grown (d : Disk) (ip : Dinode) (off bn : Nat) :
    fileBlock d (grown ip off) bn = fileBlock d ip bn := blockRef_grown d ip off _

/-- The invariant holds for the inode with its new size, because the loop has left a block at
every position below it. -/
theorem Progress.grown {d' : Disk} {ip : Dinode} {off : Nat} (h : Progress sb d view inum off d' ip)
    (hoff : off ≤ maxfile * bsize) : AllocInv sb d' (update view inum (grown ip off)) := by
  have hidem : update view inum (Fs.grown ip off) =
      update (update view inum ip) inum (Fs.grown ip off) :=
    (update_idem ..).symm
  have htype : (Fs.grown ip off).type = (update view inum ip inum).type := by
    rw [update_self, grown_type]
  rw [hidem]
  have hlive := fun i => @live_update_iff sb _ inum _ htype i
  constructor
  · apply h.inv.accounts.congr _ fun _ _ _ => Iff.rfl
    rintro ⟨i, k⟩
    simp only [slotRef, hlive]
    by_cases hin : i = inum
    · subst hin
      rw [update_self, update_self, blockRef_grown]
    · rw [update_of_ne hin]
  · exact h.inv.metadata
  · intro i hl
    rw [hlive] at hl
    by_cases hin : i = inum
    · subst hin
      have hsize := h.inv.size_le i hl
      rw [update_self] at hsize ⊢
      rw [grown_size hoff]
      omega
    · rw [update_of_ne hin]
      exact h.inv.size_le i hl
  · intro i hl bn hbn
    rw [hlive] at hl
    by_cases hin : i = inum
    · subst hin
      have hdense := h.inv.dense i hl bn
      rw [update_self] at hbn hdense ⊢
      rw [grown_size hoff] at hbn
      rw [fileBlock_grown]
      by_cases hlt : bn * bsize < off
      · exact h.mapped bn hlt
      · exact hdense (by omega)
    · rw [update_of_ne hin] at hbn ⊢
      exact h.inv.dense i hl bn hbn

/-- The cases of `writei`: it refuses the arguments and changes nothing, or it stores the
inode its loop has left. -/
theorem writei_cases (hi : AllocInv sb s.disk view) (hsb : WellFormed sb)
    (hlive : Live sb view inum) (src : Source) (off n : UInt32) :
    (¬ (off.toNat ≤ (view inum).size.toNat ∧ off.toNat + n.toNat ≤ maxfile * bsize) ∧
      writei sb s inum (view inum) src off n = .ok (-1, view inum, s)) ∨
    ∃ tot ip s₁, off.toNat ≤ (view inum).size.toNat ∧
      off.toNat + n.toNat ≤ maxfile * bsize ∧ tot ≤ n.toNat ∧
      writei sb s inum (view inum) src off n = .ok (tot, grown ip (off.toNat + tot),
          iupdate sb s₁ inum (grown ip (off.toNat + tot))) ∧
      Progress sb s.disk view inum (off.toNat + tot) s₁.disk ip ∧
      (tot = n.toNat ∨ src.Clean off.toNat n.toNat →
        Overlaid s.disk (view inum) src.data off.toNat (off.toNat + tot) s₁.disk ip) ∧
      (src.fault = none → off.toNat + n.toNat ≤ (view inum).size.toNat → tot = n.toNat) := by
  unfold writei
  have hlt : maxfile * bsize < 2 ^ 32 := by decide
  by_cases hskip : off > (view inum).size ∨ off + n < off
  · left
    refine ⟨?_, by simp only [if_pos hskip]; rfl⟩
    rintro ⟨h₁, h₂⟩
    rw [gt_iff_lt, lt_iff_toNat_lt, lt_iff_toNat_lt, UInt32.toNat_add,
      mod_eq_of_lt (by omega)] at hskip
    omega
  by_cases hmax : (off + n).toNat > maxfile * bsize
  · left
    refine ⟨?_, by simp only [if_neg hskip, if_pos hmax]; rfl⟩
    rintro ⟨h₁, h₂⟩
    rw [UInt32.toNat_add, mod_eq_of_lt (by omega)] at hmax
    omega
  · right
    have hsum := toNat_add_of_not_wraps fun h => hskip (Or.inr h)
    have hoff : off.toNat ≤ (view inum).size.toNat :=
      le_iff_toNat_le.mp (UInt32.not_lt.mp fun h => hskip (Or.inl h))
    obtain ⟨tot, ip, s₁, heq, hle, hprog, hover, hfull⟩ :=
      @writeiLoop_spec sb s.disk view inum src n.toNat off.toNat hsb hlive (by omega) s
        (view inum) 0 (zero_le _) (Progress.initial hi hlive (by omega))
        (Overlaid.initial _ _ _ _)
    refine ⟨tot, ip, s₁, hoff, by omega, hle, ?_, hprog, hover, hfull⟩
    simp only [if_neg hskip, if_neg hmax]
    rw [add_zero] at heq
    rw [heq, ok_bind]
    rfl

/-- A write to bytes the file already has is never short. -/
theorem writei_in_place (hi : AllocInv sb s.disk view) (hsb : WellFormed sb)
    (hlive : Live sb view inum) (hfault : src.fault = none)
    (hsize : off.toNat + n.toNat ≤ (view inum).size.toNat) :
    ∃ ip' s', writei sb s inum (view inum) src off n = .ok (n.toNat, ip', s') := by
  have hmax := hi.size_le inum hlive
  obtain ⟨hrefused, -⟩ | ⟨tot, ip, s₁, -, -, -, heq, -, -, hfull⟩ :=
    writei_cases hi hsb hlive src off n
  · exact absurd ⟨by omega, by omega⟩ hrefused
  · rw [hfull hfault hsize] at heq
    exact ⟨_, _, heq⟩

/-- The first `n` bytes of the buffer. -/
def Source.bytes (src : Source) (n : Nat) : List UInt8 := (List.range n).map src.data

theorem getElem?_overlay {old new : List UInt8} {off : Nat} (hoff : off ≤ old.length) (p : Nat) :
    (overlay old off new)[p]? =
      if off ≤ p ∧ p < off + new.length then new[p - off]? else old[p]? := by
  have hlen : (old.take off).length = off := by simp [hoff]
  unfold overlay
  by_cases h₁ : p < off
  · rw [if_neg (by omega), append_assoc, getElem?_append_left (by omega),
      getElem?_take_of_lt h₁]
  · by_cases h₂ : p < off + new.length
    · rw [if_pos (by omega), getElem?_append_left (by simp; omega),
        getElem?_append_right (by omega), hlen]
    · rw [if_neg (by omega), getElem?_append_right (by simp; omega), getElem?_drop]
      congr 1
      simp
      omega

theorem getElem?_content {d : Disk} {ip : Dinode} (p : Nat) :
    (content d ip)[p]? = if p < ip.size.toNat then some (byteAt d ip p) else none := by
  unfold content
  split
  · rename_i h
    simp [h]
  · rename_i h
    simp [h]

theorem byteAt_grown (d : Disk) (ip : Dinode) (off p : Nat) :
    byteAt d (Fs.grown ip off) p = byteAt d ip p := by
  rw [byteAt, byteAt, fileBlock_grown]

/-- The file after a loop that has done all its bytes. -/
theorem content_overlaid {d' : Disk} {ip : Dinode} {off n : Nat} (hi : AllocInv sb d view)
    (hlive : Live sb view inum) (hoff : off ≤ (view inum).size.toNat)
    (hmax : off + n ≤ maxfile * bsize) (hfields : ip = { view inum with addrs := ip.addrs })
    (ho : Overlaid d (view inum) src.data off (off + n) d' ip) :
    content d' (grown ip (off + n)) = overlay (content d (view inum)) off (src.bytes n) := by
  have hsize : ip.size = (view inum).size := by rw [hfields]
  have hlen : (src.bytes n).length = n := by simp [Source.bytes]
  apply ext_getElem?
  intro p
  rw [getElem?_content, getElem?_overlay (by rwa [content_length]), getElem?_content,
    grown_size hmax, hsize, byteAt_grown, hlen]
  by_cases hp : off ≤ p ∧ p < off + n
  · have hb : (src.bytes n)[p - off]? = some (src.data (p - off)) := by
      have hlt : p - off < n := by omega
      simp [Source.bytes, hlt]
    rw [if_pos hp, hb, if_pos (by omega), ho.written p hp.1 hp.2]
  · rw [if_neg hp]
    by_cases hlt : p < (view inum).size.toNat
    · have hmul : p / bsize * bsize ≤ p := div_mul_le_self p bsize
      rw [if_pos hlt, if_pos (by omega), ho.kept p (hi.dense inum hlive _ (by omega)) hp]
    · rw [if_neg hlt, if_neg (by omega)]

theorem content_congr {d' : Disk} {i : Nat} (hi : AllocInv sb d view) (hl : Live sb view i)
    (hrefs : ∀ l, blockRef d (view i) l ≠ 0 → blockRef d' (view i) l = blockRef d (view i) l)
    (hdata : ∀ bn, fileBlock d (view i) bn ≠ 0 →
      d' (fileBlock d (view i) bn) = d (fileBlock d (view i) bn)) :
    content d' (view i) = content d (view i) := by
  apply map_congr_left
  intro p hp
  have hmul : p / bsize * bsize ≤ p := div_mul_le_self p bsize
  have hlt := mem_range.mp hp
  have hne : fileBlock d (view i) (p / bsize) ≠ 0 := hi.dense i hl _ (by omega)
  have href : fileBlock d' (view i) (p / bsize) = fileBlock d (view i) (p / bsize) :=
    hrefs _ hne
  rw [byteAt, byteAt, href, hdata _ hne]

/-- Nothing below the free map matters to the contents. -/
theorem AllocInv.content_eq {d' : Disk} {i : Nat} (hi : AllocInv sb d view)
    (h : ∀ c, sb.bmapstart ≤ c → d' c = d c) (hl : Live sb view i) :
    content d' (view i) = content d (view i) := by
  have hds := @bmapstart_lt_dataStart sb
  have hsame : ∀ c, dataStart sb ≤ c → d' c = d c := fun c hc => h c (by omega)
  apply content_congr hi hl
  · intro l _
    exact hi.blockRef_eq hsame i hl l
  · intro bn hbn
    exact hsame _ (dataStart_le_fileBlock hi hl rfl hbn)

theorem content_iupdate {i : Nat} {ip : Dinode} (hi : AllocInv sb s.disk view)
    (hsb : WellFormed sb) (hlt : inum < sb.ninodes) (hl : Live sb view i) :
    content (iupdate sb s inum ip).disk (view i) = content s.disk (view i) :=
  hi.content_eq (fun _ hc => iupdate_apply_of_le hsb hlt hc) hl

/-- The loop of `writei` does not change any other file. -/
theorem Progress.content_of_ne {d' : Disk} {ip : Dinode} {off j : Nat}
    (h : Progress sb d view inum off d' ip) (hi : AllocInv sb d view) (hj : j ≠ inum)
    (hl : Live sb view j) : content d' (view j) = content d (view j) := by
  have hl' : Live sb (update view inum ip) j :=
    (live_update_iff (by rw [h.fields]) j).mpr hl
  apply content_congr hi hl
  · intro l hne
    have href := h.refs (j, l) (by rwa [slotRef_of_live hl])
    rwa [slotRef_of_live hl', update_of_ne hj, slotRef_of_live hl] at href
  · intro bn hne
    have hdata := h.others j bn hj (by rwa [slotRef_dataSlot hl])
    rwa [slotRef_dataSlot hl] at hdata

/-- Files are byte arrays: a `writei` that returns `n` has overlaid the file with its `n` bytes
at `off`, `readi` reads the overlaid file from then on, and no other file has changed. -/
theorem writei_overlays (hsb : WellFormed sb) (hi : AllocInv sb s.disk view)
    (hlive : Live sb view inum) {ip' : Dinode} {s' : Store}
    (hret : writei sb s inum (view inum) src off n = .ok (n.toNat, ip', s')) :
    ip'.size.toNat = max (view inum).size.toNat (off.toNat + n.toNat) ∧
    (∀ off' n' : UInt32,
      let bytes := if off' > ip'.size ∨ off' + n' < off' then []
        else ((overlay (content s.disk (view inum)) off.toNat (src.bytes n.toNat)).drop
          off'.toNat).take n'.toNat
      readi sb s' ip' none off' n' = .ok (bytes.length, bytes, ip', s')) ∧
    ∀ j, j ≠ inum → Live sb view j → dinode sb s'.disk j = dinode sb s.disk j ∧
      content s'.disk (view j) = content s.disk (view j) := by
  obtain ⟨-, hrefused⟩ | ⟨tot, ip, s₁, hoff, hmax, -, heq, hprog, hover, -⟩ :=
    writei_cases hi hsb hlive src off n
  · rw [hrefused] at hret
    have hneg : (-1 : Int) = (n.toNat : Int) := by
      simp only [Except.ok.injEq, Prod.mk.injEq] at hret
      exact hret.1
    omega
  · rw [heq] at hret
    simp only [Except.ok.injEq, Prod.mk.injEq, Int.natCast_inj] at hret
    obtain ⟨rfl, rfl, rfl⟩ := hret
    have hinv := hprog.grown hmax
    have hcontent := content_overlaid hi hlive hoff hmax hprog.fields (hover (Or.inl rfl))
    have hsize : ip.size = (view inum).size := by rw [hprog.fields]
    have hlive₁ : Live sb (update view inum (grown ip (off.toNat + n.toNat))) inum :=
      (live_update_iff (by rw [grown_type, hprog.fields]) inum).mpr hlive
    have hafter := @content_iupdate sb _ inum s₁ inum (grown ip (off.toNat + n.toNat))
      hinv hsb hlive.1 hlive₁
    refine ⟨by rw [grown_size hmax, hsize], ?_, ?_⟩
    · intro off' n'
      have hread := readi_spec
        (hinv.iupdate hsb hlive.1 (grown ip (off.toNat + n.toNat))) hlive₁ off' n'
      rw [hafter, update_self, hcontent] at hread
      exact hread
    · intro j hj hl
      have hlive₂ : Live sb (update view inum (grown ip (off.toNat + n.toNat))) j :=
        (live_update_iff (by rw [grown_type, hprog.fields]) j).mpr hl
      have hupdate := @content_iupdate sb _ inum s₁ j (grown ip (off.toNat + n.toNat))
        hinv hsb hlive.1 hlive₂
      rw [update_of_ne hj] at hupdate
      constructor
      · rw [iupdate_dinode, update_of_ne hj, hprog.dinodes j hl.1]
      · rw [hupdate]
        exact hprog.content_of_ne hi hj hl

end Writei

section Example

/-- A file of three bytes in the first data block. -/
def oneFile : Dinode where
  type := 2
  major := 0
  minor := 0
  nlink := 1
  size := 3
  addrs k := if k.val = 0 then 46 else 0

def oneFileView (i : Nat) : Dinode := if i = 1 then oneFile else Dinode.zero

theorem blockRef_oneFile (d : Disk) (k : Nat) : blockRef d oneFile k = if k = 0 then 46 else 0 := by
  have haddr : ∀ l, oneFile.addr l = if l = 0 then 46 else 0 := by
    intro l
    by_cases hl : l = 0
    · subst hl
      rfl
    · simp [Dinode.addr, oneFile, hl]
  unfold blockRef
  by_cases hk : k ≤ ndirect
  · rw [if_pos hk, haddr]
  · have hne : k ≠ 0 := by omega
    simp [hne, haddr, ndirect]

theorem live_oneFile (i : Nat) : Live mkfsSuperblock oneFileView i ↔ i = 1 := by
  unfold Live oneFileView
  by_cases hi : i = 1
  · subst hi
    decide
  · simp [hi, Dinode.zero]

theorem slotRef_oneFile (d : Disk) (x : Nat × Nat) :
    slotRef mkfsSuperblock d oneFileView x = if x = (1, 0) then 46 else 0 := by
  obtain ⟨i, k⟩ := x
  unfold slotRef
  simp only [live_oneFile]
  by_cases hi : i = 1
  · subst hi
    simp [oneFileView, blockRef_oneFile]
  · simp [hi]

theorem oneFile_allocInv : AllocInv mkfsSuperblock (formatted mkfsSuperblock 47) oneFileView := by
  have hstart : dataStart mkfsSuperblock = 46 := by decide
  have hsize : mkfsSuperblock.size = 2000 := by decide
  have hbpb : bpb = 8192 := by decide
  have hused : ∀ b, b < 2000 →
      blockUsed mkfsSuperblock (formatted mkfsSuperblock 47) b = decide (b < 47) :=
    fun b hb => blockUsed_formatted (by omega)
  constructor
  · constructor
    · intro x hx
      rw [slotRef_oneFile] at hx ⊢
      split at hx
      · rename_i h
        rw [if_pos h, hstart, hsize]
        omega
      · exact absurd rfl hx
    · intro x y hx hxy
      rw [slotRef_oneFile] at hx
      rw [slotRef_oneFile, slotRef_oneFile] at hxy
      by_cases h₁ : x = (1, 0) <;> by_cases h₂ : y = (1, 0) <;> simp_all
    · intro b hlo hhi
      rw [hused b hhi]
      constructor
      · intro hb
        refine ⟨(1, 0), ?_⟩
        have hb' : b < 47 := of_decide_eq_true hb
        rw [slotRef_oneFile, if_pos rfl]
        omega
      · rintro ⟨x, hx⟩
        rw [slotRef_oneFile] at hx
        split at hx
        · exact decide_eq_true (by omega)
        · omega
  · intro b hb hlt
    rw [hused b (by omega)]
    exact decide_eq_true (by omega)
  · intro i hi
    rw [live_oneFile] at hi
    subst hi
    decide
  · intro i hi bn hbn
    rw [live_oneFile] at hi
    subst hi
    have hb : (oneFileView 1).size.toNat = 3 := by decide
    have hbs : bsize = 1024 := rfl
    have hzero : bn = 0 := by
      simp only [hbs] at hbn
      omega
    rw [hzero, fileBlock]
    exact (blockRef_oneFile _ _).trans_ne (by decide)

theorem writei_overlays_oneFile :
    ∃ ip' s', writei mkfsSuperblock ⟨formatted mkfsSuperblock 47, [], []⟩ 1 oneFile
        ⟨fun i => if i = 0 then 104 else 105, none⟩ 1 2 = .ok (2, ip', s') ∧
      ip'.size.toNat = 3 ∧
      readi mkfsSuperblock s' ip' none 0 3 = .ok (3, [0, 104, 105], ip', s') := by
  have hlive : Live mkfsSuperblock oneFileView 1 := (live_oneFile 1).mpr rfl
  obtain ⟨ip', s', hret⟩ := @writei_in_place mkfsSuperblock oneFileView 1
    ⟨fun i => if i = 0 then 104 else 105, none⟩ ⟨formatted mkfsSuperblock 47, [], []⟩ 1 2
    oneFile_allocInv mkfsSuperblock_wellFormed hlive rfl (by decide)
  obtain ⟨hsize, hread, -⟩ := writei_overlays mkfsSuperblock_wellFormed oneFile_allocInv hlive hret
  refine ⟨ip', s', hret, hsize, ?_⟩
  have hbytes : overlay (content (formatted mkfsSuperblock 47) (oneFileView 1))
      (1 : UInt32).toNat (Source.bytes ⟨fun i => if i = 0 then 104 else 105, none⟩
        (2 : UInt32).toNat) = [0, 104, 105] := by
    decide
  have hskip : ¬ ((0 : UInt32) > ip'.size ∨ (0 : UInt32) + 3 < 0) := by
    rw [gt_iff_lt, lt_iff_toNat_lt, hsize]
    decide
  have h := hread 0 3
  simp only [if_neg hskip, hbytes] at h
  exact h

end Example

end FogOS.Fs
