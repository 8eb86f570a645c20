import Mathlib.Data.Fintype.Basic
import Mathlib.Data.Fintype.Pi
import ClockUtils.Lib.StepRun
import ClockUtils.Sockets.TcpSocket

namespace clockUtils.sockets

/-- The classes with a thread for asynchronous writes. -/
inductive Transport where
  | tcp
  | udp
  deriving DecidableEq

/-- The queue of `writePacketAsync` and the one of `writeAsync`. -/
inductive Channel where
  | packets
  | bytes
  deriving DecidableEq

/-- An element of a queue: the vector, and what a `UdpSocket` stores beside it. -/
structure Message (Dest : Type) where
  vec : Bytes
  dest : Dest
  deriving DecidableEq

/-- What `std::move` leaves behind. -/
def Message.moved {Dest : Type} (m : Message Dest) : Message Dest :=
  { m with vec := [] }

/-- How far `work` has come. Its variable `finish` is false at the points that do
not carry it. -/
inductive WorkPoint (Dest : Type) where
  /-- before `_condMutex` is locked -/
  | lockCond
  | testTerminate
  | testPackets
  | testBytes
  | wait
  /-- blocked in `_condVar.wait` -/
  | waiting
  /-- woken up in `_condVar.wait`, before `_condMutex` is locked again -/
  | woken
  | unlockCond (finish : Bool)
  /-- before the lock of a queue and the test of its size -/
  | next (channel : Channel) (finish : Bool)
  /-- before the call of `writePacket` or `write` -/
  | call (channel : Channel) (finish : Bool) (tmp : Message Dest)
  /-- in that call -/
  | writing (channel : Channel) (finish : Bool) (tmp : Message Dest)
  /-- before the lock of a queue and the removal of its first element -/
  | pop (channel : Channel) (finish : Bool)
  | ended
  deriving DecidableEq

/-- How far a call of `writePacketAsync` or `writeAsync` has come. -/
inductive UserPoint (Dest : Type) where
  | idle
  /-- before the lock of the queue -/
  | push (channel : Channel) (m : Message Dest)
  | lockCond
  | notify
  | unlockCond

/-- How far the destructor has come. -/
inductive DestructorPoint where
  | alive
  | setTerminate
  | lockCond
  | notify
  | unlockCond
  | join
  | joined
  deriving DecidableEq

inductive Owner (Thread : Type) where
  | worker
  | user (t : Thread)
  | destructor

/-- The members that the worker uses and the points that the threads have
reached, with what was enqueued and what was passed on so far. -/
structure AsyncWriter (Thread Dest : Type) where
  queue : Channel → List (Message Dest)
  terminate : Bool
  condMutex : Option (Owner Thread)
  worker : WorkPoint Dest
  user : Thread → UserPoint Dest
  destructor : DestructorPoint
  enqueued : Channel → List (Message Dest)
  passed : Channel → List (Message Dest)

/-- One step of one thread. The first step of a call is `call`, the one of the
destructor is `destroy`; with `wake` the worker wakes up for no reason. -/
inductive Act (Thread Dest : Type) where
  | call (t : Thread) (channel : Channel) (m : Message Dest)
  | user (t : Thread)
  | worker
  | wake
  | destroy
  | destructor

/-- `notify_all` -/
def WorkPoint.notified {Dest : Type} : WorkPoint Dest → WorkPoint Dest
  | waiting => woken
  | point => point

def UserPoint.isIdle {Dest : Type} : UserPoint Dest → Bool
  | idle => true
  | _ => false

namespace DestructorPoint

/-- A `TcpSocket` sets `_terminate` under the lock, a `UdpSocket` before it. -/
def first : Transport → DestructorPoint
  | .tcp => lockCond
  | .udp => setTerminate

def afterLock : Transport → DestructorPoint
  | .tcp => setTerminate
  | .udp => notify

def afterSet : Transport → DestructorPoint
  | .tcp => notify
  | .udp => lockCond

end DestructorPoint

namespace AsyncWriter

variable {Thread Dest : Type}

/-- The constructor, which starts the worker. -/
def fresh : AsyncWriter Thread Dest where
  queue := fun _ => []
  terminate := false
  condMutex := none
  worker := .lockCond
  user := fun _ => .idle
  destructor := .alive
  enqueued := fun _ => []
  passed := fun _ => []

/-- Where the worker goes from a queue without elements. -/
def afterQueue : Channel → Bool → WorkPoint Dest
  | .packets, finish => .next .bytes finish
  | .bytes, true => .ended
  | .bytes, false => .lockCond

/-- The worker has the lock of the queue. A `TcpSocket` removes the element that
it moves from at once, a `UdpSocket` when it has been written. -/
def takeNext (transport : Transport) (channel : Channel) (finish : Bool)
    (s : AsyncWriter Thread Dest) : AsyncWriter Thread Dest :=
  match s.queue channel with
  | [] => { s with worker := afterQueue channel finish }
  | m :: rest =>
    { s with
      queue := Function.update s.queue channel
        (match transport with
        | .tcp => rest
        | .udp => m.moved :: rest)
      worker := .call channel finish m }

/-- `work`. For a vector without elements `&tmp[0]` is undefined, and so is the
removal from a queue without elements. -/
def workerStep (transport : Transport) (s : AsyncWriter Thread Dest) :
    Option (AsyncWriter Thread Dest) :=
  match s.worker with
  | .lockCond =>
    if s.condMutex.isNone then
      some { s with condMutex := some .worker, worker := .testTerminate }
    else none
  | .testTerminate =>
    some { s with worker := if s.terminate then .unlockCond true else .testPackets }
  | .testPackets =>
    some { s with
      worker := if (s.queue .packets).isEmpty then .testBytes else .unlockCond false }
  | .testBytes =>
    some { s with worker := if (s.queue .bytes).isEmpty then .wait else .unlockCond false }
  | .wait => some { s with condMutex := none, worker := .waiting }
  | .waiting => none
  | .woken =>
    if s.condMutex.isNone then
      some { s with condMutex := some .worker, worker := .unlockCond false }
    else none
  | .unlockCond finish => some { s with condMutex := none, worker := .next .packets finish }
  | .next channel finish => some (takeNext transport channel finish s)
  | .call channel finish tmp =>
    if tmp.vec.isEmpty then none
    else some { s with
      worker := .writing channel finish tmp
      passed := Function.update s.passed channel (s.passed channel ++ [tmp]) }
  | .writing channel finish _ =>
    some { s with
      worker := match transport with
        | .tcp => .next channel finish
        | .udp => .pop channel finish }
  | .pop channel finish =>
    match s.queue channel with
    | [] => none
    | _ :: rest =>
      some (takeNext transport channel finish { s with queue := Function.update s.queue channel rest })
  | .ended => none

/-- `~TcpSocket` and `~UdpSocket`, up to the end of the worker. -/
def destructorStep (transport : Transport) (s : AsyncWriter Thread Dest) :
    Option (AsyncWriter Thread Dest) :=
  match s.destructor with
  | .alive => none
  | .setTerminate =>
    some { s with terminate := true, destructor := DestructorPoint.afterSet transport }
  | .lockCond =>
    if s.condMutex.isNone then
      some { s with
        condMutex := some .destructor, destructor := DestructorPoint.afterLock transport }
    else none
  | .notify => some { s with worker := s.worker.notified, destructor := .unlockCond }
  | .unlockCond => some { s with condMutex := none, destructor := .join }
  | .join =>
    match s.worker with
    | .ended => some { s with destructor := .joined }
    | _ => none
  | .joined => none

section Users

variable [DecidableEq Thread]

/-- `writePacketAsync` and `writeAsync` on a socket that is connected or bound. -/
def userStep (t : Thread) (s : AsyncWriter Thread Dest) : Option (AsyncWriter Thread Dest) :=
  match s.user t with
  | .idle => none
  | .push channel m =>
    some { s with
      queue := Function.update s.queue channel (s.queue channel ++ [m])
      enqueued := Function.update s.enqueued channel (s.enqueued channel ++ [m])
      user := Function.update s.user t .lockCond }
  | .lockCond =>
    if s.condMutex.isNone then
      some { s with condMutex := some (.user t), user := Function.update s.user t .notify }
    else none
  | .notify =>
    some { s with worker := s.worker.notified, user := Function.update s.user t .unlockCond }
  | .unlockCond =>
    some { s with condMutex := none, user := Function.update s.user t .idle }

/-- One step. The vectors that are enqueued are not empty, and no call overlaps
the destructor. -/
def step [Fintype Thread] (transport : Transport) (s : AsyncWriter Thread Dest) :
    Act Thread Dest → Option (AsyncWriter Thread Dest)
  | .call t channel m =>
    if s.destructor = .alive ∧ (s.user t).isIdle = true ∧ m.vec ≠ [] then
      some { s with user := Function.update s.user t (.push channel m) }
    else none
  | .user t => s.userStep t
  | .worker => s.workerStep transport
  | .wake =>
    match s.worker with
    | .waiting => some { s with worker := .woken }
    | _ => none
  | .destroy =>
    if s.destructor = .alive ∧ ∀ t, (s.user t).isIdle = true then
      some { s with destructor := DestructorPoint.first transport }
    else none
  | .destructor => s.destructorStep transport

end Users

end AsyncWriter

end clockUtils.sockets
