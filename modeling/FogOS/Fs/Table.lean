import FogOS.Fs.Truncate
import FogOS.Fs.Write

/-!
# The inode table and runs of file system operations

The kernel works on inodes through the entries of `itable`. An operation is what
a caller does with one entry while it holds the inode's lock; a run is any
sequence of operations by callers that use only references they hold.
-/

namespace FogOS.Fs

open Function Library Bytes

/-- `NINODE`: the entries of the inode table. -/
def ninode : Nat := 50

/-- An entry of `itable`: `struct inode` with its copy of the disk inode. -/
structure Entry where
  inum : Nat
  ref : Int
  valid : Bool
  ip : Dinode

/-- The disk below the buffer cache, and the inode table. -/
structure FsState where
  store : Store
  table : Fin ninode → Entry

namespace FsState

variable (sb : Superblock)

/-- Replace an entry of the table. -/
def setEntry (st : FsState) (k : Fin ninode) (e : Entry) : FsState :=
  { st with table := update st.table k e }

/-- Store an inode and the disk an operation has left in entry `k`. -/
def putBack (st : FsState) (k : Fin ninode) (s : Store) (ip : Dinode) (valid : Bool) :
    FsState where
  store := s
  table := update st.table k { st.table k with ip := ip, valid := valid }

def iget (st : FsState) (inum : Nat) : Except FsPanic (Fin ninode × FsState) :=
  let found := (List.finRange ninode).find? fun k =>
    decide ((st.table k).ref > 0) && decide ((st.table k).inum = inum)
  match found with
  | some k =>
    let e := st.table k
    .ok (k, st.setEntry k { e with ref := e.ref + 1 })
  | none =>
    match (List.finRange ninode).find? fun k => decide ((st.table k).ref = 0) with
    | some k =>
      let e := st.table k
      .ok (k, st.setEntry k { e with inum := inum, ref := 1, valid := false })
    | none => .error .igetNoInodes

def idup (st : FsState) (k : Fin ninode) : FsState :=
  let e := st.table k
  st.setEntry k { e with ref := e.ref + 1 }

/-- Lock the inode and read it from disk if the entry does not have it yet. -/
def ilock (st : FsState) (k : Fin ninode) : Except FsPanic FsState :=
  let e := st.table k
  if e.ref < 1 then .error .ilock
  else if e.valid then .ok st
  else
    let ip := dinode sb st.store.disk e.inum
    if ip.type = 0 then .error .ilockNoType
    else .ok (st.putBack k st.store ip true)

/-- Mark a free inode as allocated with the given type; `none` if there is no free inode. -/
def ialloc (st : FsState) (type : UInt16) :
    Except FsPanic (Option (Fin ninode) × FsState) :=
  let free := (List.range' 1 (sb.ninodes - 1)).find? fun inum =>
    decide ((dinode sb st.store.disk inum).type = 0)
  match free with
  | some inum => do
      let dip := { Dinode.zero with type := type }
      let store := st.store.write (iblock sb inum) (putDinode sb st.store.disk inum dip)
      let (k, st) ← iget { st with store := store } inum
      pure (some k, st)
  | none => .ok (none, st)

/-- Free an inode that has no links and no other references. -/
def ifree (st : FsState) (k : Fin ninode) : Except FsPanic FsState := do
  let e := st.table k
  let (ip, s) ← itrunc sb st.store e.inum e.ip
  let ip := { ip with type := 0 }
  pure (st.putBack k (iupdate sb s e.inum ip) ip false)

/-- Drop a reference; free the inode and its contents if it was the last one and the inode has
no links. -/
def iput (st : FsState) (k : Fin ninode) : Except FsPanic FsState := do
  let e := st.table k
  let st ← if e.ref = 1 ∧ e.valid = true ∧ e.ip.nlink = 0 then st.ifree sb k else pure st
  let e := st.table k
  pure (st.setEntry k { e with ref := e.ref - 1 })

/-- `readi` on a locked entry; the bytes read are not part of the state. -/
def read (st : FsState) (k : Fin ninode) (fault : Option Nat) (off n : UInt32) :
    Except FsPanic FsState := do
  let e := st.table k
  let (_, _, ip, s) ← readi sb st.store e.ip fault off n
  pure (st.putBack k s ip e.valid)

/-- `writei` on a locked entry. -/
def write (st : FsState) (k : Fin ninode) (src : Source) (off n : UInt32) :
    Except FsPanic FsState := do
  let e := st.table k
  let (_, ip, s) ← writei sb st.store e.inum e.ip src off n
  pure (st.putBack k s ip e.valid)

/-- `itrunc` on a locked entry. -/
def trunc (st : FsState) (k : Fin ninode) : Except FsPanic FsState := do
  let e := st.table k
  let (ip, s) ← itrunc sb st.store e.inum e.ip
  pure (st.putBack k s ip e.valid)

/-- Set the fields that `create`, `link` and `unlink` change and `iupdate` the inode. -/
def setFields (st : FsState) (k : Fin ninode) (major minor nlink : UInt16) : FsState :=
  let e := st.table k
  let ip := { e.ip with major := major, minor := minor, nlink := nlink }
  st.putBack k (iupdate sb st.store e.inum ip) ip e.valid

end FsState

/-- The operations of the layers above on inodes. Those that work on the contents or the fields
of an inode lock it first. -/
inductive FsOp (sb : Superblock)
  | get (inum : Fin sb.ninodes)
  | dup (k : Fin ninode)
  | lock (k : Fin ninode)
  | put (k : Fin ninode)
  | alloc (type : UInt16)
  | read (k : Fin ninode) (fault : Option Nat) (off n : UInt32)
  | write (k : Fin ninode) (src : Source) (off n : UInt32)
  | trunc (k : Fin ninode)
  | setFields (k : Fin ninode) (major minor nlink : UInt16)

/-- Perform one operation. -/
def FsState.step {sb : Superblock} (st : FsState) : FsOp sb → Except FsPanic FsState
  | .get inum => do
      let (_, st) ← st.iget inum
      pure st
  | .dup k => .ok (st.idup k)
  | .lock k => st.ilock sb k
  | .put k => st.iput sb k
  | .alloc type => do
      let (_, st) ← st.ialloc sb type
      pure st
  | .read k fault off n => do
      let st ← st.ilock sb k
      st.read sb k fault off n
  | .write k src off n => do
      let st ← st.ilock sb k
      st.write sb k src off n
  | .trunc k => do
      let st ← st.ilock sb k
      st.trunc sb k
  | .setFields k major minor nlink => do
      let st ← st.ilock sb k
      pure (st.setFields sb k major minor nlink)

/-- The caller of `idup` or `iput` holds a reference to the entry. -/
def FsState.Holds {sb : Superblock} (st : FsState) : FsOp sb → Prop
  | .dup k => 0 < (st.table k).ref
  | .put k => 0 < (st.table k).ref
  | _ => True

/-- The state after boot: no entry of the inode table is in use. -/
def FsState.boot (store : Store) : FsState where
  store := store
  table _ := ⟨0, 0, false, Dinode.zero⟩

end FogOS.Fs
