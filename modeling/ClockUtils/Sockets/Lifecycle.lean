import ClockUtils.Lib.StepRun
import ClockUtils.Sockets.Reconnect

namespace clockUtils.sockets

/-- A file descriptor, as `socket` and `accept` return it. -/
abbrev Descriptor := Nat

/-- A call of the `acceptCallback`, for which `listenFunc` starts a thread of its
own and detaches it. -/
inductive AcceptCall where
  /-- with a new socket for this descriptor and `SUCCESS` -/
  | accepted (clientSock : Descriptor)
  /-- with `nullptr` and this error -/
  | failed (error : ClockError)
  deriving DecidableEq

/-- How far `listenFunc` has come; what `::accept` returned is the descriptor or
the `errno`. -/
inductive ListenPoint where
  | accept
  /-- before the test of `clientSock` and `_terminate` -/
  | testResult (clientSock : Except Errno Descriptor)
  /-- before the second look at `_terminate`, in the branch that returns -/
  | testSilent (clientSock : Except Errno Descriptor)
  | report (errno : Errno)
  | closeFailed
  /-- before the new socket is made and handed to the callback -/
  | hand (clientSock : Descriptor)
  /-- before the condition of the loop -/
  | testAgain
  /-- behind the loop, before the look at `_terminate` -/
  | testStop
  | closeStopped
  | ended
  deriving DecidableEq

/-- A thread that runs `listenFunc` on a descriptor, with what `::accept` returned
to it, the threads that it has started for the callback and the descriptors that
it has left to nobody. -/
structure Listening where
  sock : Descriptor
  acceptMultiple : Bool
  point : ListenPoint
  accepted : List Descriptor
  started : List AcceptCall
  dropped : List Descriptor

/-- How far a call of `close` has come. -/
inductive ClosePoint where
  /-- before it looks at `_status` -/
  | testStatus
  | shutdown
  | joinListen
  | joinCallback
  | setInactive
  deriving DecidableEq

/-- How far the thread of `receiveCallback` has come. -/
inductive CallbackPoint where
  /-- before the condition of the loop -/
  | testSock
  /-- in `receivePacket` -/
  | receive
  /-- before the call of the `packetCallback` -/
  | report (err : ClockError) (buffer : Bytes)
  /-- in the `packetCallback` -/
  | inCallback (err : ClockError)
  /-- in a `close` that the `packetCallback` has called -/
  | inClose (err : ClockError) (point : ClosePoint)
  | ended
  deriving DecidableEq

/-- A thread of `receiveCallback`, with the calls of its callback. -/
structure Receiving where
  point : CallbackPoint
  calls : List (ClockError × Bytes)

/-- How far the call of the owner has come: a call of `receiveCallback`, of
`close`, or of the destructor, which calls `close` in turn. -/
inductive CallPoint where
  | idle
  /-- `receiveCallback`, before the join of the last thread -/
  | joinPrevious
  /-- the destructor, before `_terminate` is set -/
  | setTerminate
  | joinWorker
  | closing (point : ClosePoint)
  | destroyed
  deriving DecidableEq

/-- A `TcpSocket` with the threads that `listen` and `receiveCallback` start, the
descriptors that it got from `socket` and the ones that it passed to `::close`. -/
structure Lifecycle where
  sock : Option Descriptor
  status : SocketStatus
  terminate : Bool
  /-- whether the thread of `work` has ended -/
  workerEnded : Bool
  listenThread : Option Listening
  callbackThread : Option Receiving
  call : CallPoint
  opened : List Descriptor
  closed : List Descriptor
  /-- the threads that were joined -/
  listened : List Listening
  received : List Receiving
  /-- the detached threads that have not called the `acceptCallback` yet -/
  waiting : List AcceptCall
  called : List AcceptCall
  /-- whether a `packetCallback` has called `close` -/
  closedInside : Bool

/-- What the operating system answers to the calls of `listen`. -/
structure ListenCalls where
  socket : Except Errno Descriptor
  setsockopt : Option Errno
  bind : Option Errno
  listen : Option Errno

/-- One step: the owner begins a call or goes on with it, the worker ends,
`::accept` returns to the listening thread or this thread goes on, a detached thread
calls the `acceptCallback`, `receivePacket` returns to the thread of
`receiveCallback`, the `packetCallback` calls `close`, or this thread goes on. -/
inductive LifecycleAct where
  | listen (os : ListenCalls) (listenPort : UInt16) (maxParallelConnections : Int)
      (acceptMultiple : Bool)
  | connect (os : TcpSocket.ConnectCalls) (fd : Descriptor) (remoteIP : IPv4)
      (remotePort : UInt16)
  | receiveCallback
  | close
  | destroy
  | owner
  | workerEnds
  | accept (clientSock : Except Errno Descriptor)
  | listener
  | acceptCallback (i : Nat)
  | receive (err : ClockError) (buffer : Bytes)
  | closeInside
  | callback

namespace Lifecycle

/-- `TcpSocket()` -/
def fresh : Lifecycle where
  sock := none
  status := .INACTIVE
  terminate := false
  workerEnded := false
  listenThread := none
  callbackThread := none
  call := .idle
  opened := []
  closed := []
  listened := []
  received := []
  waiting := []
  called := []
  closedInside := false

/-- `TcpSocket(fd)`, which takes over the descriptor of an accepted connection. -/
def accepted (fd : Descriptor) : Lifecycle :=
  { fresh with sock := some fd, status := .CONNECTED, opened := [fd] }

/-- `_sock = socket(...)` -/
def openSocket (s : Lifecycle) (fd : Descriptor) : Lifecycle :=
  { s with sock := some fd, opened := s.opened ++ [fd] }

def closeSocket (s : Lifecycle) : Lifecycle :=
  match s.sock with
  | none => s
  | some fd => { s with sock := none, closed := s.closed ++ [fd] }

/-- `listen`, behind the checks of its arguments and of the status. -/
def listenOpen (s : Lifecycle) (os : ListenCalls) (acceptMultiple : Bool) :
    ClockError × Lifecycle :=
  match os.socket with
  | .error errno => (getLastError errno, { s with sock := none })
  | .ok fd =>
    match os.setsockopt, os.bind, os.listen with
    | some errno, _, _ => (getLastError errno, (s.openSocket fd).closeSocket)
    | none, some errno, _ => (getLastError errno, (s.openSocket fd).closeSocket)
    | none, none, some errno => (getLastError errno, (s.openSocket fd).closeSocket)
    | none, none, none =>
      (.SUCCESS, { s.openSocket fd with
        status := .LISTENING
        listenThread := some ⟨fd, acceptMultiple, .accept, [], [], []⟩ })

def listen (s : Lifecycle) (os : ListenCalls) (listenPort : UInt16)
    (maxParallelConnections : Int) (acceptMultiple : Bool) : ClockError × Lifecycle :=
  if listenPort = 0 then (.INVALID_PORT, s)
  else if maxParallelConnections < 0 then (.INVALID_ARGUMENT, s)
  else if s.status ≠ .INACTIVE then (.INVALID_USAGE, s)
  else s.listenOpen os acceptMultiple

/-- `connect`, from `::connect` on. -/
def finishConnect (s : Lifecycle) (os : TcpSocket.ConnectCalls) : ClockError × Lifecycle :=
  match os.connect with
  | none => (.SUCCESS, { s with status := .CONNECTED })
  | some errno =>
    if getLastError errno = .IN_PROGRESS then
      if os.selected then
        if os.valopt then (.CONNECTION_FAILED, s.closeSocket)
        else (.SUCCESS, { s with status := .CONNECTED })
      else (.TIMEOUT, s.closeSocket)
    else (getLastError errno, s.closeSocket)

/-- `connect`, where `socket` returns this descriptor when it succeeds. -/
def connect (s : Lifecycle) (os : TcpSocket.ConnectCalls) (fd : Descriptor) (remoteIP : IPv4)
    (remotePort : UInt16) : ClockError × Lifecycle :=
  if remotePort = 0 then (.INVALID_PORT, s)
  else if remoteIP = NO_IP then (.INVALID_IP, s)
  else if remoteIP = INADDR_ANY then (.INVALID_IP, s)
  else if s.status ≠ .INACTIVE then (.INVALID_USAGE, s)
  else
    match os.socket, os.fcntlGet, os.fcntlSet with
    | some errno, _, _ => (getLastError errno, { s with sock := none })
    | none, some errno, _ => (getLastError errno, (s.openSocket fd).closeSocket)
    | none, none, some errno => (getLastError errno, (s.openSocket fd).closeSocket)
    | none, none, none => (s.openSocket fd).finishConnect os

/-- The `errno` that `getLastError` sees behind `::accept`; it was set to 0 before. -/
def errnoOf : Except Errno Descriptor → Errno
  | .error errno => errno
  | .ok _ => .other

/-- `std::thread(std::bind(acb, ...)).detach()` -/
def startCall (s : Lifecycle) (thread : Listening) (call : AcceptCall) (next : ListenPoint) :
    Lifecycle × Listening :=
  ({ s with waiting := s.waiting ++ [call] },
    { thread with point := next, started := thread.started ++ [call] })

/-- `listenFunc`, from one access of a shared member to the next. -/
def listenFunc (s : Lifecycle) (thread : Listening) : Option (Lifecycle × Listening) :=
  match thread.point with
  | .accept => none
  | .testResult (.error errno) => some (s, { thread with point := .testSilent (.error errno) })
  | .testResult (.ok clientSock) =>
    some (s, { thread with
      point := if s.terminate then .testSilent (.ok clientSock) else .hand clientSock })
  | .testSilent clientSock =>
    if s.terminate then
      some (s, { thread with
        point := .ended, dropped := thread.dropped ++ clientSock.toOption.toList })
    else some (s, { thread with point := .report (errnoOf clientSock) })
  | .report errno => some (s.startCall thread (.failed (getLastError errno)) .closeFailed)
  | .closeFailed => some (s.closeSocket, { thread with point := .ended })
  | .hand clientSock => some (s.startCall thread (.accepted clientSock) .testAgain)
  | .testAgain =>
    some (s, { thread with
      point := if thread.acceptMultiple && !s.terminate then .accept else .testStop })
  | .testStop =>
    some (s, { thread with point := if s.terminate then .ended else .closeStopped })
  | .closeStopped => some (s.closeSocket, { thread with point := .ended })
  | .ended => none

/-- `close`, and the point at which it goes on, if it does not return. The join of
`_callbackThread` waits for this thread. In a call by the `packetCallback` it is the
thread's own join, which throws; the exception is caught and the pointer stays. -/
def closeStep (s : Lifecycle) (inside : Bool) : ClosePoint → Option (Lifecycle × Option ClosePoint)
  | .testStatus => some (s, if s.status = .INACTIVE then none else some .shutdown)
  | .shutdown => some (s.closeSocket, some .joinListen)
  | .joinListen =>
    match s.listenThread with
    | none => some (s, some .joinCallback)
    | some thread =>
      if thread.point = .ended then
        some ({ s with listenThread := none, listened := s.listened ++ [thread] },
          some .joinCallback)
      else none
  | .joinCallback =>
    match s.callbackThread with
    | none => some (s, some .setInactive)
    | some thread =>
      if inside then some (s, some .setInactive)
      else if thread.point = .ended then
        some ({ s with callbackThread := none, received := s.received ++ [thread] },
          some .setInactive)
      else none
  | .setInactive => some ({ s with status := .INACTIVE }, none)

/-- Behind the `packetCallback`: the loop ends with an error. -/
def nextRound (err : ClockError) : CallbackPoint :=
  if err = .SUCCESS then .testSock else .ended

/-- The thread that `receiveCallback` starts. -/
def callbackFunc (s : Lifecycle) (thread : Receiving) : Option (Lifecycle × Receiving) :=
  match thread.point with
  | .testSock =>
    some (s, { thread with point := if s.sock = none then .ended else .receive })
  | .receive => none
  | .report err buffer => some (s, ⟨.inCallback err, thread.calls ++ [(err, buffer)]⟩)
  | .inCallback err => some (s, { thread with point := nextRound err })
  | .inClose err point =>
    (s.closeStep true point).map fun (s', next) =>
      (s', { thread with point := next.elim (nextRound err) (.inClose err) })
  | .ended => none

/-- Behind the end of `close`, which is the end of the destructor when that has
called it. -/
def returned (s : Lifecycle) : Lifecycle :=
  { s with call := if s.terminate then .destroyed else .idle }

/-- The calls of the owner: `receiveCallback` at its join, the destructor with its
join of the worker, and `close`. -/
def ownerStep (s : Lifecycle) : Option Lifecycle :=
  match s.call with
  | .idle => none
  | .joinPrevious =>
    match s.callbackThread with
    | none => none
    | some thread =>
      if thread.point = .ended then
        some { s with
          callbackThread := some ⟨.testSock, []⟩
          received := s.received ++ [thread]
          call := .idle }
      else none
  | .setTerminate => some { s with terminate := true, call := .joinWorker }
  | .joinWorker => if s.workerEnded then some { s with call := .closing .testStatus } else none
  | .closing point =>
    (s.closeStep false point).map fun (s', next) =>
      next.elim s'.returned fun point => { s' with call := .closing point }
  | .destroyed => none

/-- `receiveCallback`, which waits for the thread of an earlier call. -/
def receiveCallback (s : Lifecycle) : ClockError × Lifecycle :=
  if s.status ≠ .CONNECTED then (.NOT_READY, s)
  else if s.callbackThread.isSome then (.SUCCESS, { s with call := .joinPrevious })
  else (.SUCCESS, { s with callbackThread := some ⟨.testSock, []⟩ })

/-- No thread of an earlier connection is in the way of a new one. -/
def Settled (s : Lifecycle) : Prop :=
  s.status = .INACTIVE → ∀ thread ∈ s.callbackThread, thread.point = .ended

instance (s : Lifecycle) : Decidable s.Settled :=
  inferInstanceAs (Decidable (_ → _))

/-- One step. The owner makes one call at a time. Behind a `close` by the
`packetCallback` it listens or connects again only when the thread of that callback
has ended. Nothing goes on behind the destructor: what a thread that still runs then
does with the socket is not defined. A second `close` in the same callback would
return at its first test, so one is enough. -/
def step (s : Lifecycle) : LifecycleAct → Option Lifecycle
  | .listen os listenPort maxParallelConnections acceptMultiple =>
    if s.call = .idle ∧ s.Settled then
      some (s.listen os listenPort maxParallelConnections acceptMultiple).2
    else none
  | .connect os fd remoteIP remotePort =>
    if s.call = .idle ∧ s.Settled then some (s.connect os fd remoteIP remotePort).2 else none
  | .receiveCallback => if s.call = .idle then some s.receiveCallback.2 else none
  | .close => if s.call = .idle then some { s with call := .closing .testStatus } else none
  | .destroy => if s.call = .idle then some { s with call := .setTerminate } else none
  | .owner => s.ownerStep
  | .workerEnds => if s.terminate then some { s with workerEnded := true } else none
  | .accept clientSock =>
    match s.listenThread with
    | none => none
    | some thread =>
      if thread.point = .accept then
        some { s with listenThread := some { thread with
          point := .testResult clientSock
          accepted := thread.accepted ++ clientSock.toOption.toList } }
      else none
  | .listener =>
    s.listenThread.bind fun thread =>
      (s.listenFunc thread).map fun (s', thread') => { s' with listenThread := some thread' }
  | .acceptCallback i =>
    s.waiting[i]?.map fun call =>
      { s with waiting := s.waiting.eraseIdx i, called := s.called ++ [call] }
  | .receive err buffer =>
    match s.callbackThread with
    | none => none
    | some thread =>
      if thread.point = .receive ∧ s.call ≠ .destroyed then
        some { s with callbackThread := some { thread with point := .report err buffer } }
      else none
  | .closeInside =>
    match s.callbackThread with
    | some ⟨.inCallback err, calls⟩ =>
      if s.call ≠ .destroyed then
        some { s with
          callbackThread := some ⟨.inClose err .testStatus, calls⟩
          closedInside := true }
      else none
    | _ => none
  | .callback =>
    if s.call ≠ .destroyed then
      s.callbackThread.bind fun thread =>
        (s.callbackFunc thread).map fun (s', thread') => { s' with callbackThread := some thread' }
    else none

end Lifecycle

end clockUtils.sockets
