import ClockUtils.Container.LockFreeQueue

namespace clockUtils.container

open Concurrent

/-- The two queues that the pointers can point to. -/
inductive Buffer where
  | A
  | B
  deriving DecidableEq

/-- The members of `DoubleBufferQueue<T, producer, consumer>`. A lock is true
while a thread holds it. No member function looks at `producer`. -/
structure DoubleBufferQueue (T : Type) where
  queueA : List T
  queueB : List T
  queueRead : Buffer
  queueWrite : Buffer
  readLock : Bool
  writeLock : Bool

namespace DoubleBufferQueue

variable {T : Type}

/-- The constructor. -/
def new (T : Type) : DoubleBufferQueue T where
  queueA := []
  queueB := []
  queueRead := .A
  queueWrite := .B
  readLock := false
  writeLock := false

/-- What a pointer points to. -/
def buffer (q : DoubleBufferQueue T) : Buffer → List T
  | .A => q.queueA
  | .B => q.queueB

def setBuffer (q : DoubleBufferQueue T) : Buffer → List T → DoubleBufferQueue T
  | .A, xs => { q with queueA := xs }
  | .B, xs => { q with queueB := xs }

/-- `*_queueRead` -/
def readBuffer (q : DoubleBufferQueue T) : List T :=
  q.buffer q.queueRead

/-- `*_queueWrite` -/
def writeBuffer (q : DoubleBufferQueue T) : List T :=
  q.buffer q.queueWrite

/-- `_queueWrite->push(value)` -/
def pushBack (value : T) (q : DoubleBufferQueue T) : DoubleBufferQueue T :=
  q.setBuffer q.queueWrite (q.writeBuffer ++ [value])

/-- `_queueRead->pop()` -/
def popFront (q : DoubleBufferQueue T) : DoubleBufferQueue T :=
  q.setBuffer q.queueRead q.readBuffer.tail

/-- The assignments in `swap`. -/
def swapPointers (q : DoubleBufferQueue T) : DoubleBufferQueue T :=
  if q.queueRead = .A then { q with queueWrite := .A, queueRead := .B }
  else { q with queueWrite := .B, queueRead := .A }

def setReadLock (held : Bool) (q : DoubleBufferQueue T) : DoubleBufferQueue T :=
  { q with readLock := held }

def setWriteLock (held : Bool) (q : DoubleBufferQueue T) : DoubleBufferQueue T :=
  { q with writeLock := held }

/-- A critical section under `_writeLock`. Its body `f` is one step. -/
def underWriteLock (f : DoubleBufferQueue T → DoubleBufferQueue T)
    (k : Prog (DoubleBufferQueue T) (Reply T)) : Prog (DoubleBufferQueue T) (Reply T) :=
  .spin (fun q => !q.writeLock) (setWriteLock true) <|
  .modify f <|
  .modify (setWriteLock false) k

/-- A critical section under `_readLock`, which ends with the return. -/
def underReadLock
    (body : (Reply T → Prog (DoubleBufferQueue T) (Reply T)) → Prog (DoubleBufferQueue T) (Reply T)) :
    Prog (DoubleBufferQueue T) (Reply T) :=
  .spin (fun q => !q.readLock) (setReadLock true) <|
  body fun reply => .modify (setReadLock false) <| .ret reply

/-- `push` returns nothing; its reply is that of a push that has stored the value. -/
def push (value : T) : Prog (DoubleBufferQueue T) (Reply T) :=
  underWriteLock (pushBack value) <|
  .ret ⟨.SUCCESS, none⟩

def swap (k : Prog (DoubleBufferQueue T) (Reply T)) : Prog (DoubleBufferQueue T) (Reply T) :=
  underWriteLock swapPointers k

/-- The body that `pop`, `front` and `poll` have in common: the test, the swap
and the second test. An element is there for `take`. -/
def readElement (take : Prog (DoubleBufferQueue T) (Reply T))
    (leave : Reply T → Prog (DoubleBufferQueue T) (Reply T)) : Prog (DoubleBufferQueue T) (Reply T) :=
  let again : Prog (DoubleBufferQueue T) (Reply T) :=
    .load (fun q => q.readBuffer.isEmpty) fun empty =>
    if empty then leave ⟨.NO_ELEMENT, none⟩ else take
  .load (fun q => q.readBuffer.isEmpty) fun empty =>
  if empty then swap again else again

/-- `_queueRead->front()`, which is undefined for an empty queue. -/
def loadFront (k : T → Prog (DoubleBufferQueue T) (Reply T)) : Prog (DoubleBufferQueue T) (Reply T) :=
  .load (fun q => q.readBuffer.head?) fun
    | none => .abort
    | some value => k value

/-- `_queueRead->pop()`, which is undefined for an empty queue. -/
def removeFront (k : Prog (DoubleBufferQueue T) (Reply T)) : Prog (DoubleBufferQueue T) (Reply T) :=
  .atomic popFront fun q => if q.readBuffer.isEmpty then .abort else k

/-- The overload for several consumers takes `_readLock`, the one for a single
consumer does not. -/
def overload (consumer : Bool)
    (body : (Reply T → Prog (DoubleBufferQueue T) (Reply T)) → Prog (DoubleBufferQueue T) (Reply T)) :
    Prog (DoubleBufferQueue T) (Reply T) :=
  if consumer then underReadLock body else body .ret

def pop (consumer : Bool) : Prog (DoubleBufferQueue T) (Reply T) :=
  overload consumer fun leave =>
  readElement (removeFront <| leave ⟨.SUCCESS, none⟩) leave

def front (consumer : Bool) : Prog (DoubleBufferQueue T) (Reply T) :=
  overload consumer fun leave =>
  readElement (loadFront fun value => leave ⟨.SUCCESS, some value⟩) leave

def poll (consumer : Bool) : Prog (DoubleBufferQueue T) (Reply T) :=
  overload consumer fun leave =>
  readElement (loadFront fun value => removeFront <| leave ⟨.SUCCESS, some value⟩) leave

/-- The second queue is looked at only when the first one is empty. -/
def empty : Prog (DoubleBufferQueue T) Bool :=
  .load (fun q => q.readBuffer.isEmpty) fun readEmpty =>
  if readEmpty then .load (fun q => q.writeBuffer.isEmpty) .ret else .ret false

def size : Prog (DoubleBufferQueue T) UInt64 :=
  .load (fun q => UInt64.ofNat q.readBuffer.length) fun readSize =>
  .load (fun q => UInt64.ofNat q.writeBuffer.length) fun writeSize =>
  .ret (readSize + writeSize)

/-- `_queueRead->pop()` until that queue is empty. -/
def emptyRead (q : DoubleBufferQueue T) : DoubleBufferQueue T :=
  q.setBuffer q.queueRead []

/-- `_queueWrite->pop()` until that queue is empty. -/
def emptyWrite (q : DoubleBufferQueue T) : DoubleBufferQueue T :=
  q.setBuffer q.queueWrite []

/-- `clear` returns nothing. It takes one lock after the other, for any number
of consumers. -/
def clear : Prog (DoubleBufferQueue T) (Reply T) :=
  .spin (fun q => !q.readLock) (setReadLock true) <|
  .modify emptyRead <|
  .modify (setReadLock false) <|
  underWriteLock emptyWrite <|
  .ret ⟨.SUCCESS, none⟩

def body (consumer : Bool) : LockFreeQueue.Call T → Prog (DoubleBufferQueue T) (Reply T)
  | .push value => push value
  | .pop => pop consumer
  | .front => front consumer
  | .poll => poll consumer

/-- The calls of any program. -/
def anyBody (consumer : Bool) : LockFreeQueue.AnyCall T → Prog (DoubleBufferQueue T) (Reply T)
  | .of op => body consumer op
  | .clear => clear

end DoubleBufferQueue

end clockUtils.container
