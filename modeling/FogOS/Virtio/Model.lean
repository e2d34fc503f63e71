import FogOS.Library.Ring
import FogOS.Library.Transition

/-!
# The driver of the virtio disk

`virtio_disk_rw` and `virtio_disk_intr` of `virtio_disk.c`, run by any number of threads, and a
device that takes chains of descriptors from the avail ring and puts their heads into the used ring.
A step of a thread is a part of the code between two points where another party can interfere: the
lock keeps the other threads out, but not the device. A caller of `virtio_disk_rw` holds the
sleep-lock of its buffer. The counts at the end of the state are for the statements only.
-/

namespace FogOS.Virtio

open Function

/-- `NUM`. -/
def num : Nat := 8

/-- What the address in a descriptor refers to: `disk.ops[i]`, `b->data` or
`disk.info[i].status`. -/
inductive Addr (B : Type)
  | null
  | op (i : Nat)
  | data (b : B)
  | status (i : Nat)
  deriving DecidableEq

/-- `struct virtq_desc`, with its flags `VRING_DESC_F_NEXT` and `VRING_DESC_F_WRITE`. -/
structure Desc (B : Type) where
  addr : Addr B
  len : Nat
  flagNext : Bool
  flagWrite : Bool
  next : Nat
  deriving DecidableEq

/-- `struct virtio_blk_req`: the type is `VIRTIO_BLK_T_OUT` or `VIRTIO_BLK_T_IN`. -/
structure Op where
  out : Bool
  sector : Nat
  deriving DecidableEq

/-- An entry of `disk.info`. -/
structure Info (B : Type) where
  b : Option B
  status : Nat
  deriving DecidableEq

/-- The arguments of `virtio_disk_rw`. -/
structure Call (B : Type) where
  b : B
  blockno : Nat
  write : Bool
  deriving DecidableEq

/-- The array `idx` of three descriptors. -/
structure Idx where
  i0 : Nat
  i1 : Nat
  i2 : Nat
  deriving DecidableEq

def Idx.toList (idx : Idx) : List Nat := [idx.i0, idx.i1, idx.i2]

/-- The channels of `sleep`: `&disk.free[0]` and the buffers. -/
inductive Chan (B : Type)
  | free
  | buf (b : B)
  deriving DecidableEq

/-- Where a thread is. A request has the number `k` once the device can see it. -/
inductive Pc (B : Type)
  | idle
  | enter (c : Call B)
  | alloc (c : Call B)
  | sleepFree (c : Call B)
  | wokenFree (c : Call B)
  | fill (c : Call B) (idx : Idx)
  | put (c : Call B) (idx : Idx)
  | bump (c : Call B) (idx : Idx)
  | check (c : Call B) (idx : Idx) (k : Nat)
  | sleepBuf (c : Call B) (idx : Idx) (k : Nat)
  | wokenBuf (c : Call B) (idx : Idx) (k : Nat)
  | finish (c : Call B) (idx : Idx) (k : Nat)
  | intrEnter
  | intrAck
  | intrLoop
  | intrEntry
  deriving DecidableEq

namespace Pc

variable {B : Type}

/-- The effect of `wakeup` on a thread. -/
def wake [DecidableEq B] (chan : Chan B) : Pc B → Pc B
  | .sleepFree c => if chan = .free then .wokenFree c else .sleepFree c
  | .sleepBuf c idx k => if chan = .buf c.b then .wokenBuf c idx k else .sleepBuf c idx k
  | p => p

end Pc

/-- What goes wrong: the panics of `free_desc` and `virtio_disk_intr`, a null `info[id].b`, a
device that finds no status byte at the end of a chain, a chain that does not end; or a step that is
not possible. -/
inductive Fault
  | freeDesc1
  | freeDesc2
  | status
  | nullBuf
  | device
  | chain
  | disabled
  deriving DecidableEq

structure State (T B : Type) where
  lock : Option T
  pc : T → Pc B
  busy : B → Bool
  disk : B → Bool
  free : Nat → Bool
  desc : Nat → Desc B
  ops : Nat → Op
  info : Nat → Info B
  availRing : Nat → Nat
  availIdx : Nat
  usedRing : Nat → Nat
  usedIdx : Nat
  usedSeen : Nat
  irq : Bool
  devAvail : Nat
  devUsed : Nat
  pending : List (Nat × Nat)
  sent : List Nat
  taken : Nat
  finished : List Nat
  published : Nat
  consumed : Nat
  returned : List Nat

namespace State

variable {T B : Type} [DecidableEq T] [DecidableEq B]

/-- After `virtio_disk_init`. -/
def init : State T B where
  lock := none
  pc _ := .idle
  busy _ := false
  disk _ := false
  free _ := true
  desc _ := ⟨.null, 0, false, false, 0⟩
  ops _ := ⟨false, 0⟩
  info _ := ⟨none, 0⟩
  availRing _ := 0
  availIdx := 0
  usedRing _ := 0
  usedIdx := 0
  usedSeen := 0
  irq := false
  devAvail := 0
  devUsed := 0
  pending := []
  sent := []
  taken := 0
  finished := []
  published := 0
  consumed := 0
  returned := []

def setPc (s : State T B) (t : T) (p : Pc B) : State T B :=
  { s with pc := update s.pc t p }

def acquire (s : State T B) (t : T) (p : Pc B) : Except Fault (State T B) :=
  if s.lock = none then .ok ({ s with lock := some t }.setPc t p) else .error .disabled

def wakeup (s : State T B) (chan : Chan B) : State T B :=
  { s with pc := fun u => (s.pc u).wake chan }

def allocDesc (s : State T B) : Option (Nat × State T B) :=
  ((List.range num).find? s.free).map fun i => (i, { s with free := update s.free i false })

def freeDesc (s : State T B) (i : Nat) : Except Fault (State T B) :=
  if i ≥ num then .error .freeDesc1
  else if s.free i then .error .freeDesc2
  else
    .ok ({ s with
      desc := update s.desc i ⟨.null, 0, false, false, 0⟩
      free := update s.free i true }.wakeup .free)

/-- The loop of `free_chain`, which cannot go on for longer than there are descriptors. -/
def freeChain (s : State T B) : Nat → Nat → Except Fault (State T B)
  | 0, _ => .error .chain
  | fuel + 1, i => do
      let d := s.desc i
      let s ← s.freeDesc i
      if d.flagNext then freeChain s fuel d.next else .ok s

/-- `free_desc` of the descriptors that `alloc3_desc` has got. -/
def rollBack (s : State T B) : List Nat → Except Fault (State T B)
  | [] => .ok s
  | j :: idx => do
      let s ← s.freeDesc j
      rollBack s idx

/-- `alloc3_desc`. -/
def alloc3Desc (s : State T B) : Except Fault (Option Idx × State T B) :=
  match s.allocDesc with
  | none => .ok (none, s)
  | some (i0, s) =>
    match s.allocDesc with
    | none => do
        let s ← s.rollBack [i0]
        .ok (none, s)
    | some (i1, s) =>
      match s.allocDesc with
      | none => do
          let s ← s.rollBack [i0, i1]
          .ok (none, s)
      | some (i2, s) => .ok (some ⟨i0, i1, i2⟩, s)

/-- The descriptors and the entries of `ops` and `info` of a request; `BSIZE / 512` is 2 and
`sizeof(struct virtio_blk_req)` is 16. -/
def format (s : State T B) (c : Call B) (idx : Idx) : State T B :=
  { s with
    ops := update s.ops idx.i0 ⟨c.write, c.blockno * 2 % 2 ^ 32⟩
    desc := update (update (update s.desc idx.i0 ⟨.op idx.i0, 16, true, false, idx.i1⟩)
      idx.i1 ⟨.data c.b, 1024, true, !c.write, idx.i2⟩)
      idx.i2 ⟨.status idx.i0, 1, false, true, 0⟩
    disk := update s.disk c.b true
    info := update s.info idx.i0 ⟨some c.b, 0xff⟩ }

/-- The next part of the code of thread `t`. -/
def runThread (s : State T B) (t : T) : Except Fault (State T B) :=
  match s.pc t with
  | .idle => .error .disabled
  | .enter c => s.acquire t (.alloc c)
  | .alloc c =>
    match s.alloc3Desc with
    | .error e => .error e
    | .ok (some idx, s) => .ok (s.setPc t (.fill c idx))
    | .ok (none, s) => .ok ({ s with lock := none }.setPc t (.sleepFree c))
  | .sleepFree _ => .error .disabled
  | .wokenFree c => s.acquire t (.alloc c)
  | .fill c idx => .ok ((s.format c idx).setPc t (.put c idx))
  | .put c idx =>
    .ok ({ s with
      availRing := update s.availRing (s.availIdx % num) idx.i0 }.setPc t (.bump c idx))
  | .bump c idx =>
    .ok ({ s with
      availIdx := (s.availIdx + 1) % 2 ^ 16
      sent := s.sent ++ [idx.i0] }.setPc t (.check c idx s.sent.length))
  | .check c idx k =>
    if s.disk c.b then .ok ({ s with lock := none }.setPc t (.sleepBuf c idx k))
    else .ok (s.setPc t (.finish c idx k))
  | .sleepBuf _ _ _ => .error .disabled
  | .wokenBuf c idx k => s.acquire t (.check c idx k)
  | .finish c idx k =>
    match { s with
        info := update s.info idx.i0 ⟨none, (s.info idx.i0).status⟩ }.freeChain
        (num + 1) idx.i0 with
    | .error e => .error e
    | .ok s =>
      .ok ({ s with
        lock := none
        busy := update s.busy c.b false
        returned := s.returned ++ [k] }.setPc t .idle)
  | .intrEnter => s.acquire t .intrAck
  | .intrAck => .ok ({ s with irq := false }.setPc t .intrLoop)
  | .intrLoop =>
    if s.usedSeen ≠ s.usedIdx then .ok (s.setPc t .intrEntry)
    else .ok ({ s with lock := none }.setPc t .idle)
  | .intrEntry =>
    let id := s.usedRing (s.usedSeen % num)
    if (s.info id).status ≠ 0 then .error .status
    else
      match (s.info id).b with
      | none => .error .nullBuf
      | some b =>
        .ok (({ s with
          disk := update s.disk b false
          usedSeen := (s.usedSeen + 1) % 2 ^ 16
          consumed := s.consumed + 1 }.wakeup (.buf b)).setPc t .intrLoop)

/-- The device takes the next entry of the avail ring. -/
def take (s : State T B) : Except Fault (State T B) :=
  if s.devAvail ≠ s.availIdx then
    .ok { s with
      devAvail := (s.devAvail + 1) % 2 ^ 16
      pending := s.pending ++ [(s.taken, s.availRing (s.devAvail % num))]
      taken := s.taken + 1 }
  else .error .disabled

/-- The device has done some request that it has taken: it writes the status byte and an entry of
the used ring. -/
def complete (s : State T B) (n : Nat) (status : Nat) : Except Fault (State T B) :=
  match s.pending[n]? with
  | none => .error .disabled
  | some (k, head) =>
    match (s.desc (s.desc (s.desc head).next).next).addr with
    | .status i =>
      .ok { s with
        info := update s.info i ⟨(s.info i).b, status⟩
        usedRing := update s.usedRing (s.devUsed % num) head
        devUsed := (s.devUsed + 1) % 2 ^ 16
        pending := s.pending.eraseIdx n
        finished := s.finished ++ [k] }
    | _ => .error .device

/-- The device makes an entry of the used ring visible and raises its interrupt. -/
def publish (s : State T B) : Except Fault (State T B) :=
  if s.usedIdx ≠ s.devUsed then
    .ok { s with
      usedIdx := (s.usedIdx + 1) % 2 ^ 16
      irq := true
      published := s.published + 1 }
  else .error .disabled

end State

/-- A thread calls `virtio_disk_rw` or is interrupted, a thread goes on, or the device does
something. -/
inductive Action (T B : Type)
  | call (t : T) (c : Call B)
  | interrupt (t : T)
  | run (t : T)
  | take
  | complete (n status : Nat)
  | publish

variable {T B : Type} [DecidableEq T] [DecidableEq B]

def step (s : State T B) : Action T B → Except Fault (State T B)
  | .call t c =>
    if s.pc t = .idle ∧ s.busy c.b = false then
      .ok ({ s with busy := update s.busy c.b true }.setPc t (.enter c))
    else .error .disabled
  | .interrupt t =>
    if s.pc t = .idle then .ok (s.setPc t .intrEnter) else .error .disabled
  | .run t => s.runThread t
  | .take => s.take
  | .complete n status => s.complete n status
  | .publish => s.publish

end FogOS.Virtio
