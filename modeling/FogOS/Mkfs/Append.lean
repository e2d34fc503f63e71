import FogOS.Mkfs.Blocks

/-!
# Appending is writing at the end

`iappend` does to the image what the kernel's `writei` at the end of the file does
to the shadow. What the kernel guarantees of `writei` therefore holds of the image:
the allocation invariant is kept, the bytes are appended, and no other file changes.
-/

namespace FogOS.Mkfs

open Function Library Bytes Fs Dirent Nat Nat Fs

/-- The blocks of a file of the given size, with its indirect block. -/
def held (size : Nat) : Nat :=
  let m := (size + bsize - 1) / bsize
  if m ≤ ndirect then m else m + 1

section Sizes

variable {n tot off size : Nat}

theorem held_mono {size' : Nat} (h : size ≤ size') : held size ≤ held size' := by
  have hdiv : (size + bsize - 1) / bsize ≤ (size' + bsize - 1) / bsize :=
    Nat.div_le_div_right (by omega)
  unfold held
  simp only []
  split <;> split <;> omega

/-- The blocks below `off` that an append finds in place. -/
theorem held_reach : off / bsize ≤ held off ∧ (ndirect < off / bsize → off / bsize < held off) := by
  have hle : off / bsize ≤ (off + bsize - 1) / bsize := Nat.div_le_div_right (by simp [bsize])
  unfold held
  simp only []
  split <;> constructor <;> omega

theorem piece_eq_chunk (n tot off : Nat) : piece (n - tot) off = chunk n tot off := by
  have hdiv := div_add_mod off bsize
  have hmul : (off / bsize + 1) * bsize = bsize * (off / bsize) + bsize := by
    rw [add_mul, mul_comm, one_mul]
  unfold piece chunk
  omega

/-- An iteration leaves the block of `off` as the last one. -/
theorem held_chunk (h : tot < n) :
    max (held off) (dataSlot (off / bsize) + 1) = held (off + chunk n tot off) := by
  have hpos := @chunk_pos n tot off h
  have hle := offset_add_chunk_le n tot off
  have hdiv := div_add_mod off bsize
  have hbsize : 0 < bsize := by decide
  have hnext : (off + chunk n tot off + bsize - 1) / bsize = off / bsize + 1 := by
    have heq : off + chunk n tot off + bsize - 1 =
        bsize * (off / bsize + 1) + (off % bsize + chunk n tot off - 1) := by
      rw [mul_add, mul_one]
      omega
    have hzero : (off % bsize + chunk n tot off - 1) / bsize = 0 := div_eq_of_lt (by omega)
    rw [heq, mul_add_div hbsize, hzero, add_zero]
  have hnow : (off + bsize - 1) / bsize ≤ off / bsize + 1 := by
    have heq : off + bsize - 1 = bsize * (off / bsize) + (off % bsize + bsize - 1) := by omega
    rw [heq, mul_add_div hbsize]
    have hlt : (off % bsize + bsize - 1) / bsize < 2 := by
      apply Nat.div_lt_of_lt_mul
      omega
    omega
  unfold held dataSlot
  simp only [hnext]
  split <;> split <;> split <;> omega

end Sizes

section Loop

variable {view : Nat → Dinode} {inum n tot start off : Nat} {d : Disk} {st st' : State}
  {din din' : Dinode} {src : Source}

/-- The search in an iteration keeps what the loop has achieved, and the block it finds belongs
to the position. -/
theorem search_progress (hlive : Live sb view inum) (hp : Progress sb d view inum off (shadow st) din)
    (r : Room st) (hf : Filled (shadow st) din (held off)) (hbn : off / bsize < maxfile)
    (hlt : tot < n)
    (hspace : st.freeblock + held (off + chunk n tot off) ≤ sb.size + held off) (log : List Nat) :
    ∃ x din' st' log', iappendBlock (off / bsize) din st = (x, din', st') ∧
      bmap sb (store st log) din (off / bsize) = .ok (x, din', store st' log') ∧
      x ≠ 0 ∧ Progress sb d view inum off (shadow st') din' ∧
      fileBlock (shadow st') din' (off / bsize) = x ∧
      Grown st (held off) din' st' (held (off + chunk n tot off)) := by
  have hlive' := hp.live hlive
  have hself := update_self inum din view
  rw [← @held_chunk n tot off hlt] at hspace ⊢
  obtain ⟨x, din', st', log', happend, hbmap, hx, hg⟩ :=
    search_step hp.inv hlive' r (by rw [hself]; exact hf) hbn held_reach hspace log
  rw [hself] at happend hbmap
  obtain ⟨addr, ip', s', heq, hm⟩ :=
    @bmap_spec sb (update view inum din) inum (store st log) _ hp.inv wellFormed_sb hlive' hbn
  rw [hself, hbmap] at heq
  obtain ⟨rfl, rfl, rfl⟩ : x = addr ∧ din' = ip' ∧ store st' log' = s' := by
    simpa using heq
  exact ⟨x, din', st', log', happend, hbmap, hx, hp.bmap hlive hm, hm.found hx, hg⟩

/-- Filling a block of the file leaves the slots and the room above. -/
theorem grown_fill (hlive : Live sb view inum) (hp : Progress sb d view inum off (shadow st') din')
    {x bn h h' : Nat} (hg : Grown st h din' st' h') (hx : x ≠ 0)
    (hfile : fileBlock (shadow st') din' bn = x) (buf : Block) :
    (nmeta ≤ x ∧ x < st'.freeblock) ∧ Grown st h din' (wsect x buf st') h' := by
  have hlive' := hp.live hlive
  have hself := update_self inum din' view
  have hslot : slotRef sb (shadow st') (update view inum din') (inum, dataSlot bn) = x := by
    rw [slotRef_dataSlot hlive', hself, hfile]
  have hrange := @slotRef_range st' _ hp.inv (inum, dataSlot bn) (by rw [hslot]; exact hx)
  rw [hslot] at hrange
  refine ⟨hrange, ⟨hg.room.low, ?_⟩, ?_, hg.count, hg.freeinode, ?_⟩
  · intro b hb
    have hb' : st'.freeblock ≤ b := hb
    have hne : b ≠ x := by omega
    simp only [wsect, update_of_ne hne]
    exact hg.room.zero b hb'
  · intro l hl
    have href := @blockRef_write_data sb _ _ inum _ x inum buf hp.inv hlive'
      (by rw [hself]; exact hfile) hx hlive' l
    rw [hself] at href
    rw [shadow_wsect hrange.1, href]
    exact hg.filled l hl
  · intro b hb
    have hne : b ≠ x := by omega
    simp only [wsect, update_of_ne hne]
    exact hg.low b hb

/-- The loop of `iappend` is the loop of `writei` on the shadow, where there is room for the bytes;
elsewhere it fails. -/
theorem iappendLoop_writei (hlive : Live sb view inum) (hfault : src.fault = none)
    (hstart : start + tot ≤ maxfile * bsize) (htot : tot ≤ n) (log : List Nat)
    (hp : Progress sb d view inum (start + tot) (shadow st) din) (r : Room st)
    (hf : Filled (shadow st) din (held (start + tot))) (hle : st.freeblock ≤ sb.size) :
    Decides (start + n ≤ maxfile * bsize ∧
        st.freeblock + held (start + n) ≤ sb.size + held (start + tot))
      (fun (off', din', st') => off' = start + n ∧ ∃ log',
        writeiLoop sb src n tot (start + tot) (store st log) din =
          .ok (n, start + n, din', store st' log') ∧
        Grown st (held (start + tot)) din' st' (held (start + n)))
      (iappendLoop (fun i => src.data (tot + i)) (n - tot) (start + tot) din st) := by
  -- Induction on the bytes left; every iteration moves at least one.
  induction hk : n - tot using Nat.strong_induction_on generalizing tot din st log with
  | _ k ih =>
    subst hk
    rw [iappendLoop, writeiLoop]
    by_cases hlt : tot < n
    · have hpos := @chunk_pos n tot (start + tot) hlt
      have hchunk := chunk_le n tot (start + tot)
      have hblock := offset_add_chunk_le n tot (start + tot)
      have hdiv := div_add_mod (start + tot) bsize
      have hmono := @held_mono (start + tot + chunk n tot (start + tot)) (start + n) (by omega)
      rw [dif_pos hlt, dif_pos (by omega)]
      by_cases hbn : (start + tot) / bsize < maxfile
      · rw [if_pos hbn]
        by_cases hspace : st.freeblock + held (start + tot + chunk n tot (start + tot)) ≤
            sb.size + held (start + tot)
        · obtain ⟨x, din₁, st₁, log₁, happend, hbmap, hx, hp₁, hfile, hg₁⟩ :=
            search_progress hlive hp r hf hbn hlt hspace log
          have hnext := (hp₁.advance (by rw [hfile]; exact hx) hblock).fill wellFormed_sb hlive
            hfile hx (blit (shadow st₁ x) ((start + tot) % bsize) (chunk n tot (start + tot))
              fun i => src.data (tot + i))
          obtain ⟨⟨hlow, hhigh⟩, hg₂⟩ := grown_fill hlive hp₁ hg₁ hx hfile
            (blit (shadow st₁ x) ((start + tot) % bsize) (chunk n tot (start + tot))
              fun i => src.data (tot + i))
          have hcount := hg₂.count
          have hle₁ : st₁.freeblock ≤ fssize := by
            have hcount := hg₁.count
            have hfs : sb.size = fssize := rfl
            omega
          have hinside : ¬ (fssize ≤ x ∨ ndirect ≤ (start + tot) / bsize ∧
              fssize ≤ din₁.addr ndirect) := by
            have hself := update_self inum din₁ view
            have hind := @addr_indirect_range st₁ _ inum hp₁.inv (hp₁.live hlive)
            rw [hself] at hind
            omega
          have hsub : start + tot - (start + tot) / bsize * bsize = (start + tot) % bsize := by
            rw [mul_comm]
            omega
          rw [← shadow_wsect hlow, add_assoc start tot] at hnext
          rw [add_assoc start tot] at hg₂ hcount
          have hend : start + (tot + chunk n tot (start + tot)) ≤ maxfile * bsize := by
            have hmul := mul_le_mul_right bsize hbn
            rw [succ_mul, mul_comm _ bsize] at hmul
            omega
          have hrest := ih _ (show n - (tot + chunk n tot (start + tot)) < n - tot by omega)
            hend (by omega) (x :: log₁) hnext hg₂.room hg₂.filled hle₁ rfl
          rw [happend]
          simp only [if_neg hinside, piece_eq_chunk, hsub, rsect, ← shadow_data hlow]
          rw [Nat.sub_sub, add_assoc start tot]
          simp only [add_assoc] at hrest ⊢
          refine hrest.imp (by omega) ?_
          rintro ⟨off', din', st'⟩ - ⟨hoff, log', hwrite, hg'⟩
          refine ⟨hoff, log', ?_, hg₂.trans hg'⟩
          rw [hbmap, ok_bind]
          simp only [if_neg hx, hfault, copyFault]
          rw [← hwrite]
          simp only [store, Store.write, shadow_wsect hlow]
        · have hself := update_self inum din view
          rw [← @held_chunk n tot (start + tot) hlt] at hspace hmono
          obtain ⟨x, din', st', happend, hout⟩ := search_full hp.inv (hp.live hlive) r hle
            (by rw [hself]; exact hf) hbn held_reach (by omega)
          rw [hself] at happend
          rw [happend]
          simp only [if_pos (Or.inl hout)]
          exact .error fun h => by omega
      · rw [if_neg hbn]
        refine .error fun h => hbn (Nat.div_lt_of_lt_mul ?_)
        rw [mul_comm]
        omega
    · obtain rfl : n = tot := by omega
      rw [dif_neg hlt, dif_neg (by omega)]
      exact .ok ⟨hstart, by omega⟩ ⟨rfl, log, rfl, r, hf, rfl, rfl, fun _ _ => rfl⟩

end Loop

section Iappend

/-- Inode `i` of the image. -/
def node (st : State) (i : Nat) : Dinode := dinode sb (shadow st) i

variable {st st' : State} {inum : Nat} {xs : List UInt8}

theorem shadow_inode {i : Nat} (hlt : iblock sb i < sb.bmapstart) :
    shadow st (iblock sb i) = st.disk (iblock sb i) :=
  shadow_apply (Nat.ne_of_lt hlt)

theorem rinode_eq {i : Nat} (hi : i < sb.ninodes) : rinode i st = node st i :=
  (dinode_congr (shadow_inode (iblock_lt_bmapstart hi))).symm

/-- `winode` is the kernel's `iupdate`. -/
theorem shadow_winode {ip : Dinode} (hlt : iblock sb inum < sb.bmapstart) (log : List Nat) :
    shadow (winode inum ip st) = (iupdate sb (store st log) inum ip).disk := by
  have hput : putDinode sb (shadow st) inum ip = putDinode sb st.disk inum ip := by
    unfold putDinode
    rw [shadow_inode hlt]
  simp only [winode, wsect, iupdate, store, Store.write_disk, hput]
  exact update_comm (by omega) _ _ _

theorem node_winode {ip : Dinode} (hlt : iblock sb inum < sb.bmapstart) :
    node (winode inum ip st) = update (node st) inum ip := by
  unfold node
  rw [shadow_winode hlt [], iupdate_dinode]
  rfl

theorem Room.winode {ip : Dinode} (r : Room st) (hlt : iblock sb inum < sb.bmapstart) :
    Room (winode inum ip st) := by
  have hmeta := bmapstart_lt_nmeta
  have hlow := r.low
  refine ⟨r.low, ?_⟩
  intro b hb
  have hb' : st.freeblock ≤ b := hb
  have hne : b ≠ iblock sb inum := by omega
  simp only [Mkfs.winode, wsect, update_of_ne hne]
  exact r.zero b hb'

/-- What an append does: the bytes stand at the end of the file of the inode, and the other
files are as before. -/
structure Appended (st : State) (inum : Nat) (xs : List UInt8) (st' : State) : Prop where
  inv : AllocInv sb (shadow st') (node st')
  room : Room st'
  count : st'.freeblock + held (node st inum).size.toNat =
    st.freeblock + held ((node st inum).size.toNat + xs.length)
  freeinode : st'.freeinode = st.freeinode
  type : (node st' inum).type = (node st inum).type
  nlink : (node st' inum).nlink = (node st inum).nlink
  content : content (shadow st') (node st' inum) = content (shadow st) (node st inum) ++ xs
  filled : Filled (shadow st') (node st' inum) (held ((node st inum).size.toNat + xs.length))
  nodes : ∀ j, j < sb.ninodes → j ≠ inum → node st' j = node st j
  contents : ∀ j, j ≠ inum → Live sb (node st) j →
    Fs.content (shadow st') (node st j) = Fs.content (shadow st) (node st j)
  low : ∀ b, b < nmeta → b ≠ iblock sb inum → st'.disk b = st.disk b

theorem overlay_end (old new : List UInt8) : overlay old old.length new = old ++ new := by
  simp [overlay]

theorem bytes_ofList (xs : List UInt8) : (⟨ofList xs, none⟩ : Source).bytes xs.length = xs := by
  apply List.ext_getElem
  · simp [Source.bytes]
  · intro i h₁ h₂
    simp [Source.bytes, ofList, h₂]

theorem setSize_eq_grown {din : Dinode} {off : Nat} (h : din.size.toNat ≤ off)
    (hoff : off < 2 ^ 32) : { din with size := UInt32.ofNat off } = grown din off := by
  unfold grown
  by_cases hlt : off > din.size.toNat
  · rw [if_pos hlt]
  · obtain rfl : off = din.size.toNat := by omega
    rw [if_neg hlt, UInt32.ofNat_toNat]

theorem grown_nlink (din : Dinode) (off : Nat) : (grown din off).nlink = din.nlink := by
  unfold grown
  split <;> rfl

theorem iappend_spec (hi : AllocInv sb (shadow st) (node st)) (hlive : Live sb (node st) inum)
    (r : Room st) (hf : Filled (shadow st) (node st inum) (held (node st inum).size.toNat))
    (hle : st.freeblock ≤ sb.size) :
    Decides ((node st inum).size.toNat + xs.length ≤ maxfile * bsize ∧
        st.freeblock + held ((node st inum).size.toNat + xs.length) ≤
          sb.size + held (node st inum).size.toNat)
      (Appended st inum xs) (iappend inum xs st) := by
  have hwf := wellFormed_sb
  have hbound : maxfile * bsize < 2 ^ 32 := by decide
  have hstart := hi.size_le inum hlive
  generalize hoff : (node st inum).size.toNat = off at hstart hf
  have hp := @Progress.initial sb (shadow st) (node st) inum off hi hlive (by omega)
  have hsrc : (⟨ofList xs, none⟩ : Source).fault = none := rfl
  have hloop := @iappendLoop_writei (node st) inum xs.length 0 off (shadow st) st (node st inum)
    ⟨ofList xs, none⟩ hlive hsrc hstart (zero_le _) [] hp r hf hle
  simp only [zero_add, add_zero, sub_zero] at hloop
  unfold iappend
  simp only [rinode_eq hlive.1, hoff]
  refine hloop.seq id ?_
  rintro ⟨_, din, st₁⟩ ⟨hmax, hspace⟩ ⟨rfl, log, hwrite, hg⟩
  obtain ⟨tot, ip, s₁, hwrite', -, hp', hover, -⟩ :=
    @writeiLoop_spec sb (shadow st) (node st) inum ⟨ofList xs, none⟩ xs.length off hwf hlive hmax
      (store st []) (node st inum) 0 (zero_le _) hp (Overlaid.initial _ _ _ _)
  rw [add_zero, hwrite] at hwrite'
  obtain ⟨rfl, rfl, rfl⟩ : xs.length = tot ∧ din = ip ∧ store st₁ log = s₁ := by
    simpa using hwrite'
  have hsize : din.size = (node st inum).size := by rw [hp'.fields]
  have hgrown := @setSize_eq_grown din (off + xs.length) (by rw [hsize]; omega) (by omega)
  have hcontent := content_overlaid hi hlive (by omega) hmax hp'.fields (hover (Or.inl rfl))
  have hinv := hp'.grown hmax
  have hiblock := iblock_lt_bmapstart hlive.1
  have hshadow := @shadow_winode st₁ inum (grown din (off + xs.length)) hiblock log
  have hnode := @node_winode st₁ inum (grown din (off + xs.length)) hiblock
  have hself : node (winode inum (grown din (off + xs.length)) st₁) inum =
      grown din (off + xs.length) := by
    rw [hnode, update_self]
  have hlive₁ : Live sb (update (node st) inum (grown din (off + xs.length))) inum :=
    (live_update_iff (by rw [grown_type, hp'.fields]) inum).mpr hlive
  have hnodes : ∀ j, j < sb.ninodes → j ≠ inum →
      node (winode inum (grown din (off + xs.length)) st₁) j = node st j := by
    intro j hj hne
    rw [hnode, update_of_ne hne]
    exact hp'.dinodes j hj
  have hlow : ∀ b, b < nmeta → b ≠ iblock sb inum →
      (winode inum (grown din (off + xs.length)) st₁).disk b = st.disk b := by
    intro b hb hne
    simp only [winode, wsect, update_of_ne hne]
    exact hg.low b hb
  rw [hgrown]
  refine .ok ⟨hmax, hspace⟩ ?_
  constructor
  case inv =>
    rw [hshadow]
    apply (hinv.iupdate wellFormed_sb hlive.1 _).congr_view
    intro j hj
    by_cases hne : j = inum
    · rw [hne, hself, update_self]
    · rw [hnodes j hj hne, update_of_ne hne]
  case room => exact hg.room.winode hiblock
  case count =>
    rw [hoff]
    exact hg.count
  case freeinode => exact hg.freeinode
  case type =>
    rw [hself, grown_type, hp'.fields]
  case nlink =>
    rw [hself, grown_nlink, hp'.fields]
  case content =>
    have hafter := @content_iupdate sb _ inum (store st₁ log) inum
      (grown din (off + xs.length)) hinv wellFormed_sb hlive.1 hlive₁
    have hlen : (content (shadow st) (node st inum)).length = off := by
      rw [content_length, hoff]
    rw [update_self, hcontent, bytes_ofList] at hafter
    rw [hself, hshadow, hafter, ← hlen, overlay_end]
  case filled =>
    have hdata : ∀ c, dataStart sb ≤ c → (iupdate sb (store st₁ log) inum
        (grown din (off + xs.length))).disk c = shadow st₁ c := by
      intro c hc
      have hlt := @bmapstart_lt_dataStart sb
      exact iupdate_apply_of_le wellFormed_sb hlive.1 (by omega)
    rw [hself, hoff, hshadow]
    intro l hl
    have href := hinv.blockRef_eq hdata inum hlive₁ l
    rw [update_self] at href
    rw [href, blockRef_grown]
    exact hg.filled l hl
  case nodes => exact hnodes
  case contents =>
    intro j hne hl
    have hlive₂ : Live sb (update (node st) inum (grown din (off + xs.length))) j :=
      (live_update_iff (by rw [grown_type, hp'.fields]) j).mpr hl
    have hupdate := @content_iupdate sb _ inum (store st₁ log) j
      (grown din (off + xs.length)) hinv wellFormed_sb hlive.1 hlive₂
    rw [update_of_ne hne] at hupdate
    rw [hshadow, hupdate]
    exact hp'.content_of_ne hi hne hl
  case low => exact hlow

end Iappend

end FogOS.Mkfs
