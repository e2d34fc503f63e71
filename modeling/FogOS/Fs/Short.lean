import FogOS.Fs.Write
import FogOS.Vm.ReadOnly

/-!
# Short writes

The bytes of a write come from user memory, and `copyin` puts them directly into the
buffer of a block. A copy that fails in the middle of a block leaves the buffer
changed, without `log_write`: the change is seen while the buffer stays in the cache,
and is gone when it is evicted.
-/

namespace FogOS.Fs

open Function Library Bytes

section Logged

variable {s s' s'' : Store} {sb : Superblock}

/-- Blocks that `log_write` has not been called for are as they were. -/
structure Store.Logs (s s' : Store) : Prop where
  kept : ∀ b, b ∈ s.logged → b ∈ s'.logged
  unlogged : ∀ b, b ∉ s'.logged → s'.disk b = s.disk b

theorem Store.Logs.refl (s : Store) : Logs s s := ⟨fun _ h => h, fun _ _ => rfl⟩

theorem Store.Logs.trans (h : Logs s s') (h' : Logs s' s'') : Logs s s'' := by
  refine ⟨fun b hb => h'.kept b (h.kept b hb), fun b hb => ?_⟩
  rw [h'.unlogged b hb, h.unlogged b fun hb' => hb (h'.kept b hb')]

theorem Store.logs_write (s : Store) (b : Nat) (v : Block) : Logs s (s.write b v) := by
  refine ⟨fun c hc => List.mem_cons_of_mem b hc, fun c hc => ?_⟩
  have hne : c ≠ b := by
    rintro rfl
    exact hc List.mem_cons_self
  rw [Store.write_disk, update_of_ne hne]

theorem balloc_logs (sb : Superblock) (s : Store) : s.Logs (balloc sb s).2 := by
  have hdrop : s.Logs { s with refusals := s.refusals.tail } := ⟨fun _ h => h, fun _ _ => rfl⟩
  unfold balloc
  simp only
  split
  · exact hdrop
  · split
    · exact (hdrop.trans (Store.logs_write _ _ _)).trans (Store.logs_write _ _ _)
    · exact hdrop

theorem bmapEntry_logs (sb : Superblock) (s : Store) (ind bn : Nat) :
    s.Logs (bmapEntry sb s ind bn).2 := by
  unfold bmapEntry
  simp only
  split
  · split
    · exact (balloc_logs sb s).trans (Store.logs_write _ _ _)
    · exact balloc_logs sb s
  · exact Store.Logs.refl s

theorem bmap_logs {ip ip' : Dinode} {bn addr : Nat}
    (h : bmap sb s ip bn = .ok (addr, ip', s')) : s.Logs s' := by
  unfold bmap at h
  simp only at h
  have hall := balloc_logs sb s
  split at h
  · split at h
    · split at h
      · cases h
        exact hall
      · cases h
        exact hall
    · cases h
      exact Store.Logs.refl s
  · split at h
    · split at h
      · split at h
        · cases h
          exact hall
        · cases h
          exact hall.trans (bmapEntry_logs _ _ _ _)
      · cases h
        exact bmapEntry_logs _ _ _ _
    · cases h

/-- The loop of `writei` logs every block it changes if its source is clean. -/
theorem writeiLoop_logs {src : Source} {start n : Nat} (hclean : src.Clean start n) {tot : Nat}
    {ip ip' : Dinode} {tot' off' : Nat}
    (h : writeiLoop sb src n tot (start + tot) s ip = .ok (tot', off', ip', s')) : s.Logs s' := by
  induction hk : n - tot using Nat.strong_induction_on generalizing tot s ip with
  | _ k ih =>
    rw [writeiLoop] at h
    by_cases hlt : tot < n
    · rw [dif_pos hlt] at h
      obtain ⟨⟨addr, ip₁, s₁⟩, hbmap, h⟩ := bind_eq_ok_iff.mp h
      have hlogs := bmap_logs hbmap
      simp only at h
      split at h
      · cases h
        exact hlogs
      · split at h
        · rename_i k hfault
          obtain rfl := hclean.copyFault_eq hlt hfault
          rw [blit_zero, update_eq_self] at h
          cases h
          exact hlogs
        · have hpos := @chunk_pos n tot (start + tot) hlt
          rw [add_assoc] at h
          exact (hlogs.trans (Store.logs_write _ _ _)).trans
            (ih (n - (tot + chunk n tot (start + tot))) (by omega) h rfl)
    · rw [dif_neg hlt] at h
      cases h
      exact Store.Logs.refl _

theorem writei_logs {src : Source} {off n : UInt32} (hclean : src.Clean off.toNat n.toNat)
    {inum : Nat} {ip ip' : Dinode} {r : Int}
    (h : writei sb s inum ip src off n = .ok (r, ip', s')) : s.Logs s' := by
  unfold writei at h
  split at h
  · cases h
    exact Store.Logs.refl s
  · split at h
    · cases h
      exact Store.Logs.refl s
    · obtain ⟨⟨tot, off', ip₁, s₁⟩, hloop, h⟩ := bind_eq_ok_iff.mp h
      have hlogs := writeiLoop_logs hclean (show writeiLoop sb src n.toNat 0 (off.toNat + 0) s ip =
        .ok (tot, off', ip₁, s₁) from hloop)
      cases h
      exact hlogs.trans (Store.logs_write _ _ _)

end Logged

section User

open Vm

/-- The `n` bytes at the user address `addr` as the source of a write. -/
def userSource (mem : Bytes) (root addr n : Nat) : Source where
  data := (userMem mem root).bytes addr
  fault :=
    if (userMem mem root).reach addr n < n then some ((userMem mem root).reach addr n) else none

/-- A disk that later reads may see after a write: each block is as the cache has it, or, if it
was not logged and its buffer has been evicted, as it was. -/
def Seen (s s' : Store) (d : Disk) : Prop :=
  ∀ b, d b = s'.disk b ∨ b ∉ s'.logged ∧ d b = s.disk b

/-- If everything that changed was logged, eviction makes no difference. -/
theorem Store.Logs.seen_eq {s s' : Store} {d : Disk} (h : s.Logs s') (hd : Seen s s' d) :
    d = s'.disk := by
  funext b
  rcases hd b with heq | ⟨hlog, heq⟩
  · exact heq
  · rw [heq, h.unlogged b hlog]

variable {sb : Superblock} {s s' : Store} {view : Nat → Dinode} {inum : Nat} {off n : UInt32}

end User

section Example

open Vm

/-- The memory of one data page, whose last byte is 1. -/
def markedMem : Bytes := update (onePageMem dataFlags) (framePage + 4095) 1

theorem markedMem_tables : SameTables rootPage (onePageMem dataFlags) markedMem := by
  have hpage : userPage (onePageMem dataFlags) rootPage 0 = some framePage := by decide +kernel
  refine SameTables.of_within (by decide) (show framePage % pgsize = 0 by decide)
    (fun hd hk => (onePage dataFlags (by decide)).apart hpage hd hk) fun b hb => ?_
  have hne : b ≠ framePage + 4095 := by
    unfold pgsize at hb
    omega
  rw [markedMem, update_of_ne hne]

/-- The table that maps page 0 to the marked page, and no other page. -/
def markedPage : UserTable markedMem := (onePage dataFlags (by decide)).move markedMem_tables

theorem markedMem_isSome (a : Nat) : (userMem markedMem rootPage a).isSome ↔ a < pgsize := by
  have hpage : userPage (onePageMem dataFlags) rootPage 0 = some framePage := by decide +kernel
  rw [userMem, Option.isSome_map, markedMem_tables.userPage_eq]
  constructor
  · intro h
    obtain ⟨pa, hpa⟩ := Option.isSome_iff_exists.mp h
    have hzero := (userPage_onePage (by decide) hpa).1
    unfold pgsize at *
    omega
  · intro h
    rw [Nat.div_eq_of_lt h, hpage]
    rfl

theorem reach_markedMem (a n : Nat) :
    (userMem markedMem rootPage).reach a n = min n (pgsize - a) := by
  induction n generalizing a with
  | zero => simp [Partial.reach]
  | succ n ih =>
    unfold Partial.reach
    by_cases h : a < pgsize
    · rw [if_pos ((markedMem_isSome a).mpr h), ih]
      omega
    · rw [if_neg (mt (markedMem_isSome a).mp h)]
      omega

theorem userSource_marked {a n : Nat} (ha : a ≤ pgsize) (h : pgsize < a + n) :
    userSource markedMem rootPage a n =
      ⟨(userMem markedMem rootPage).bytes a, some (pgsize - a)⟩ := by
  have hmin : min n (pgsize - a) = pgsize - a := by omega
  unfold userSource
  rw [reach_markedMem, hmin, if_pos (by omega)]

/-- Two iterations of `writei`: the first fills the block of the file, and the second finds no
free block. -/
theorem writeiLoop_refused (data : Bytes) (d : Disk) :
    ∃ s', writeiLoop mkfsSuperblock ⟨data, some 1024⟩ 1025 0 0 ⟨d, [], [true]⟩ oneFile =
      .ok (1024, 1024, oneFile, s') := by
  rw [writeiLoop, dif_pos (by decide)]
  change ∃ s', writeiLoop mkfsSuperblock ⟨data, some 1024⟩ 1025 1024 1024
    (Store.write ⟨d, [], [true]⟩ 46 (blit (d 46) 0 1024 fun i => data (0 + i))) oneFile =
      .ok (1024, 1024, oneFile, s')
  rw [writeiLoop, dif_pos (by decide)]
  exact ⟨_, rfl⟩

end Example

end FogOS.Fs
