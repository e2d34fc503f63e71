import FogOS.Refs.Protocol

/-!
# The inode functions keep to the rules

`namex`, `create` and the functions they use return with one reference to the inode that they
return, and with no other reference than before.
-/

namespace FogOS.Refs

open Library Dialogue Protocol View

variable {α : Type} {v : View} {R : α → View → Prop} {k dp ip : InodeSlot}

theorem safe_choose {f : Bool → Call α} (h : ∀ b, counting.Safe (f b) R v) :
    counting.Safe (choose >>= f) R v :=
  safe_act (o := Op.choose) trivial fun b _ => h b

variable {f : Unit → Call α}

theorem safe_use (hk : .inode k ∈ v.owned) (h : counting.Safe (f ()) R v) :
    counting.Safe (use k >>= f) R v :=
  safe_act (o := Op.use k) (Or.inl hk) fun _ _ => h

theorem safe_put (k : InodeSlot) (v : View) :
    counting.Safe (put k) (fun _ w => w = v) (v.plus (.inode k)) :=
  ⟨Multiset.mem_cons_self _ _, fun _ _ => v.hold_erase (.inode k)⟩

theorem safe_iput (k : InodeSlot) (v : View) :
    counting.Safe (iput k) (fun _ w => w = v) (v.plus (.inode k)) := by
  refine safe_choose fun b => ?_
  cases b with
  | true => exact safe_use (v.mem_owned_plus _) (safe_put k v)
  | false => exact safe_put k v

theorem safe_iunlockput (k : InodeSlot) (v : View) :
    counting.Safe (iunlockput k) (fun _ w => w = v) (v.plus (.inode k)) :=
  safe_use (v.mem_owned_plus _) (safe_iput k v)

/-- The call goes on after `iput`. -/
theorem safe_iput_seq (h : counting.Safe (f ()) R v) :
    counting.Safe (iput k >>= f) R (v.plus (.inode k)) :=
  (safe_iput k v).seq fun _ _ hw => hw ▸ h

theorem safe_iunlockput_seq (h : counting.Safe (f ()) R v) :
    counting.Safe (iunlockput k >>= f) R (v.plus (.inode k)) :=
  (safe_iunlockput k v).seq fun _ _ hw => hw ▸ h

/-- The same for the older one of two references. -/
theorem safe_iunlockput_under {t : Token} (h : counting.Safe (f ()) R (v.plus t)) :
    counting.Safe (iunlockput k >>= f) R ((v.plus (.inode k)).plus t) := by
  rw [plus_comm]
  exact safe_iunlockput_seq h

theorem safe_iget {f : InodeSlot → Call α} {dev inum : Nat}
    (h : ∀ k, counting.Safe (f k) R (v.plus (.inode k))) :
    counting.Safe (iget dev inum >>= f) R v :=
  safe_act (o := Op.iget dev inum) trivial fun k _ => h k

theorem safe_idup {f : InodeSlot → Call α} (hk : .inode k ∈ v.owned)
    (h : counting.Safe (f k) R (v.plus (.inode k))) : counting.Safe (idup k >>= f) R v :=
  safe_act (o := Op.idup k) hk fun _ _ => h

theorem safe_dirlookup {f : Option InodeSlot → Call α} (hdp : .inode dp ∈ v.owned)
    (h : ∀ r, counting.Safe (f r) R (v.got r)) : counting.Safe (dirlookup dp >>= f) R v := by
  refine safe_bind.2 (safe_act (o := Op.dirent dp) hdp fun r _ => ?_)
  cases r with
  | none => exact h none
  | some e => exact safe_iget fun k => h (some k)

theorem safe_dirlink {f : Bool → Call α} (hdp : .inode dp ∈ v.owned)
    (h : ∀ b, counting.Safe (f b) R v) : counting.Safe (dirlink dp >>= f) R v := by
  refine safe_bind.2 (safe_dirlookup hdp fun r => ?_)
  cases r with
  | none => exact safe_use hdp (safe_bind.1 (safe_choose h))
  | some ip => exact safe_iput_seq (h false)

theorem safe_namexLoop (parent : Bool) (n : Nat) (ip : InodeSlot) (v : View) :
    counting.Safe (namexLoop parent n ip) (fun r w => w = v.got r) (v.plus (.inode ip)) := by
  induction n generalizing ip with
  | zero =>
    unfold namexLoop
    split_ifs
    · exact safe_iput_seq rfl
    · exact rfl
  | succ n ih =>
    have hip := v.mem_owned_plus (.inode ip)
    refine safe_use hip (safe_choose fun b => ?_)
    cases b with
    | true => exact safe_iunlockput_seq rfl
    | false =>
      simp only [Bool.false_eq_true, if_false]
      split_ifs
      · exact safe_use hip rfl
      · refine safe_dirlookup hip fun r => ?_
        cases r with
        | none => exact safe_iunlockput_seq rfl
        | some next => exact safe_iunlockput_under (ih next)

/-- A path is looked up from the root or from `cwd`. -/
theorem safe_namex {f : Option InodeSlot → Call α} {path : Path} {parent : Bool}
    (hcwd : v.record.bareCwd = false) (h : ∀ r, counting.Safe (f r) R (v.got r)) :
    counting.Safe (namex path parent >>= f) R v := by
  have hloop : ∀ ip, counting.Safe (namexLoop parent path.elements ip)
      (fun r w => counting.Safe (f r) R w) (v.plus (.inode ip)) := fun ip =>
    (safe_namexLoop parent path.elements ip v).mono fun r w hw => hw ▸ h r
  refine safe_bind.2 ?_
  unfold namex
  split_ifs
  · exact safe_iget hloop
  · refine safe_act (o := Op.cwd) trivial fun r hr => ?_
    cases r with
    | none => exact h none
    | some c => exact safe_idup (mem_owned_of_cwd hr.symm hcwd) (hloop c)

theorem safe_createFail (ip dp : InodeSlot) (v : View) :
    counting.Safe (createFail ip dp) (fun r w => w = v.got r)
      ((v.plus (.inode dp)).plus (.inode ip)) :=
  safe_use (mem_owned_plus _ _) (safe_iunlockput_seq (safe_iunlockput_seq rfl))

theorem safe_createLink (dp ip : InodeSlot) (v : View) :
    counting.Safe (createLink dp ip) (fun r w => w = v.got r)
      ((v.plus (.inode dp)).plus (.inode ip)) := by
  have hdp := mem_owned_of_plus (.inode ip) (v.mem_owned_plus (.inode dp))
  refine safe_dirlink hdp fun b => ?_
  cases b with
  | true => exact safe_use hdp (safe_iunlockput_under rfl)
  | false => exact safe_createFail ip dp v

/-- `create` returns with a reference to the inode that it returns. -/
theorem safe_create {f : Option InodeSlot → Call α} {path : Path} {file dir : Bool}
    (hcwd : v.record.bareCwd = false) (h : ∀ r, counting.Safe (f r) R (v.got r)) :
    counting.Safe (create path file dir >>= f) R v := by
  suffices hcreate : counting.Safe (create path file dir) (fun r w => w = v.got r) v from
    hcreate.seq fun r w hw => hw ▸ h r
  refine safe_namex hcwd fun r => ?_
  cases r with
  | none => exact rfl
  | some dp =>
    have hdp := v.mem_owned_plus (.inode dp)
    refine safe_use hdp (safe_dirlookup hdp fun r => ?_)
    cases r with
    | some ip =>
      refine safe_iunlockput_under (safe_use (v.mem_owned_plus _) (safe_choose fun b => ?_))
      split_ifs
      · exact rfl
      · exact safe_iunlockput_seq rfl
    | none =>
      refine safe_dirlookup hdp fun r => ?_
      cases r with
      | none => exact safe_iunlockput_seq rfl
      | some ip =>
        have hip := mem_owned_plus (v.plus (.inode dp)) (.inode ip)
        refine safe_use hip ?_
        split_ifs
        · refine safe_dirlink hip fun b => ?_
          cases b with
          | false => exact safe_createFail ip dp v
          | true =>
            refine safe_dirlink hip fun b => ?_
            cases b with
            | false => exact safe_createFail ip dp v
            | true => exact safe_createLink dp ip v
        · exact safe_createLink dp ip v

end FogOS.Refs
