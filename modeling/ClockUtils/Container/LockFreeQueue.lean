import Mathlib.Algebra.GroupWithZero.Nat
import ClockUtils.Errors
import ClockUtils.Lib.AtomicProgram

namespace clockUtils.container

open Concurrent

/-- The members of `LockFreeQueue<T, SIZE>`. The indices count the elements read
and written; an element's slot is its index modulo `SIZE`. -/
structure LockFreeQueue (T : Type) (SIZE : Nat) where
  readIndex : UInt64
  writeIndex : UInt64
  enqueuing : Bool
  dequeuing : Bool
  data : Vector T SIZE

/-- What a call gives back: its error code, and what it has stored in the
`value` reference, if anything. -/
structure Reply (T : Type) where
  err : ClockError
  value : Option T
  deriving DecidableEq

namespace LockFreeQueue

variable {T : Type} {SIZE : Nat}

/-- The constructor. The slots are value-initialized. -/
def new (T : Type) (SIZE : Nat) [Inhabited T] : LockFreeQueue T SIZE where
  readIndex := 0
  writeIndex := 0
  enqueuing := false
  dequeuing := false
  data := Vector.replicate SIZE default

/-- The position of an index in `_data`. -/
def slot [NeZero SIZE] (index : UInt64) : Fin SIZE :=
  ⟨index.toNat % SIZE, Nat.mod_lt _ (Nat.pos_of_neZero SIZE)⟩

/-- `_data[index % SIZE] = value` -/
def writeSlot [NeZero SIZE] (index : UInt64) (value : T) (q : LockFreeQueue T SIZE) :
    LockFreeQueue T SIZE :=
  { q with data := q.data.set (slot index : Fin SIZE) value (slot index).isLt }

/-- `_data[index % SIZE]` -/
def readSlot [NeZero SIZE] (index : UInt64) (q : LockFreeQueue T SIZE) : T :=
  q.data.get (slot index)

/-- `_writeIndex.fetch_add(1)` -/
def addWriteIndex (q : LockFreeQueue T SIZE) : LockFreeQueue T SIZE :=
  { q with writeIndex := q.writeIndex + 1 }

/-- `_readIndex.fetch_add(1)` -/
def addReadIndex (q : LockFreeQueue T SIZE) : LockFreeQueue T SIZE :=
  { q with readIndex := q.readIndex + 1 }

/-- `_readIndex.store(index)` -/
def setReadIndex (index : UInt64) (q : LockFreeQueue T SIZE) : LockFreeQueue T SIZE :=
  { q with readIndex := index }

/-- `_enqueuing` set by the compare-exchange or reset by the exchange. -/
def setEnqueuing (flag : Bool) (q : LockFreeQueue T SIZE) : LockFreeQueue T SIZE :=
  { q with enqueuing := flag }

/-- `_dequeuing` set by the compare-exchange or reset by the exchange. -/
def setDequeuing (flag : Bool) (q : LockFreeQueue T SIZE) : LockFreeQueue T SIZE :=
  { q with dequeuing := flag }

/-- The compare-exchange loop that `push` begins with, and the assertion on the
flag after it. The other assertion is about the loop's own variable, which a
successful exchange leaves at false. -/
def acquireEnqueuing (k : Prog (LockFreeQueue T SIZE) (Reply T)) :
    Prog (LockFreeQueue T SIZE) (Reply T) :=
  .spin (fun q => !q.enqueuing) (setEnqueuing true) <|
  .assert (fun q => q.enqueuing) k

/-- The compare-exchange loop that `pop`, `front` and `poll` begin with, and the
assertion on the flag after it. -/
def acquireDequeuing (k : Prog (LockFreeQueue T SIZE) (Reply T)) :
    Prog (LockFreeQueue T SIZE) (Reply T) :=
  .spin (fun q => !q.dequeuing) (setDequeuing true) <|
  .assert (fun q => q.dequeuing) k

/-- `_enqueuing.exchange(false)` and the return. -/
def leaveEnqueuing (reply : Reply T) : Prog (LockFreeQueue T SIZE) (Reply T) :=
  .modify (setEnqueuing false) <|
  .ret reply

/-- `_dequeuing.exchange(false)` and the return. -/
def leaveDequeuing (reply : Reply T) : Prog (LockFreeQueue T SIZE) (Reply T) :=
  .modify (setDequeuing false) <|
  .ret reply

def push [NeZero SIZE] (value : T) : Prog (LockFreeQueue T SIZE) (Reply T) :=
  acquireEnqueuing <|
  .load (fun q => q.readIndex) fun readIndex =>
  .load (fun q => q.writeIndex) fun writeIndex =>
  if (writeIndex - readIndex).toNat < SIZE ∨ readIndex > writeIndex then
    .modify (writeSlot writeIndex value) <|
    .modify addWriteIndex <|
    leaveEnqueuing ⟨.SUCCESS, none⟩
  else
    leaveEnqueuing ⟨.NO_SPACE_AVAILABLE, none⟩

/-- The comparison reads `_readIndex` from the shared state. -/
def pop : Prog (LockFreeQueue T SIZE) (Reply T) :=
  acquireDequeuing <|
  .load (fun q => q.writeIndex) fun writeIndex =>
  .load (fun q => q.readIndex) fun readIndex =>
  if writeIndex ≤ readIndex then
    leaveDequeuing ⟨.NO_ELEMENT, none⟩
  else
    .modify addReadIndex <|
    leaveDequeuing ⟨.SUCCESS, none⟩

def front [NeZero SIZE] : Prog (LockFreeQueue T SIZE) (Reply T) :=
  acquireDequeuing <|
  .load (fun q => q.writeIndex) fun writeIndex =>
  .load (fun q => q.readIndex) fun readIndex =>
  if writeIndex > readIndex then
    .load (readSlot readIndex) fun value =>
    leaveDequeuing ⟨.SUCCESS, some value⟩
  else
    leaveDequeuing ⟨.NO_ELEMENT, none⟩

def poll [NeZero SIZE] : Prog (LockFreeQueue T SIZE) (Reply T) :=
  acquireDequeuing <|
  .load (fun q => q.writeIndex) fun writeIndex =>
  .load (fun q => q.readIndex) fun readIndex =>
  if writeIndex > readIndex then
    .load (readSlot readIndex) fun value =>
    .modify addReadIndex <|
    leaveDequeuing ⟨.SUCCESS, some value⟩
  else
    leaveDequeuing ⟨.NO_ELEMENT, none⟩

def empty : Prog (LockFreeQueue T SIZE) Bool :=
  .load (fun q => q.readIndex) fun readIdx =>
  .load (fun q => q.writeIndex) fun writeIdx =>
  .ret (readIdx == writeIdx)

def size : Prog (LockFreeQueue T SIZE) UInt64 :=
  .load (fun q => q.readIndex) fun readIdx =>
  .load (fun q => q.writeIndex) fun writeIdx =>
  .ret (writeIdx - readIdx)

/-- `clear` returns nothing, and neither waits for the flags nor sets them. -/
def clear : Prog (LockFreeQueue T SIZE) (Reply T) :=
  .load (fun q => q.writeIndex) fun writeIndex =>
  .modify (setReadIndex writeIndex) <|
  .ret ⟨.SUCCESS, none⟩

/-- The calls of a program that never clears the queue. -/
inductive Call (T : Type) where
  | push (value : T)
  | pop
  | front
  | poll
  deriving DecidableEq

def Call.body [NeZero SIZE] : Call T → Prog (LockFreeQueue T SIZE) (Reply T)
  | push value => LockFreeQueue.push value
  | pop => LockFreeQueue.pop
  | front => LockFreeQueue.front
  | poll => LockFreeQueue.poll

/-- The calls of any program. -/
inductive AnyCall (T : Type) where
  | of (op : Call T)
  | clear
  deriving DecidableEq

def AnyCall.body [NeZero SIZE] : AnyCall T → Prog (LockFreeQueue T SIZE) (Reply T)
  | of op => op.body
  | clear => LockFreeQueue.clear

end LockFreeQueue

end clockUtils.container
