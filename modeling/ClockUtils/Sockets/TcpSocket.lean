import ClockUtils.Sockets.Packet

namespace clockUtils.sockets

/-- The `errno` values that `getLastError` tells apart on Linux. -/
inductive Errno where
  | EADDRINUSE
  | EINTR
  | EBADF
  | EACCES
  | EFAULT
  | EINVAL
  | EWOULDBLOCK
  | EINPROGRESS
  | EALREADY
  | ENOTSOCK
  | EDESTADDRREQ
  | EADDRNOTAVAIL
  | ENETDOWN
  | ENETUNREACH
  | ECONNRESET
  | EISCONN
  | ENOTCONN
  | ESHUTDOWN
  | ETIMEDOUT
  | ECONNREFUSED
  | EHOSTDOWN
  | EHOSTUNREACH
  | ECONNABORTED
  | EPIPE
  | other
  deriving DecidableEq

/-- The same chain of comparisons in both socket classes. Its second branch
for `ENETUNREACH` is never reached. -/
def getLastError : Errno → ClockError
  | .EADDRINUSE => .ADDRESS_INUSE
  | .EINTR => .NOT_READY
  | .EBADF => .INVALID_USAGE
  | .EACCES => .INVALID_USAGE
  | .EFAULT => .INVALID_USAGE
  | .EINVAL => .INVALID_USAGE
  | .EWOULDBLOCK => .IN_PROGRESS
  | .EINPROGRESS => .IN_PROGRESS
  | .EALREADY => .NOT_READY
  | .ENOTSOCK => .INVALID_USAGE
  | .EDESTADDRREQ => .INVALID_IP
  | .EADDRNOTAVAIL => .INVALID_PORT
  | .ENETDOWN => .CONNECTION_FAILED
  | .ENETUNREACH => .CONNECTION_FAILED
  | .ECONNRESET => .NOT_READY
  | .EISCONN => .INVALID_USAGE
  | .ENOTCONN => .INVALID_USAGE
  | .ESHUTDOWN => .INVALID_USAGE
  | .ETIMEDOUT => .TIMEOUT
  | .ECONNREFUSED => .CONNECTION_FAILED
  | .EHOSTDOWN => .CONNECTION_FAILED
  | .EHOSTUNREACH => .CONNECTION_FAILED
  | .ECONNABORTED => .NOT_CONNECTED
  | .EPIPE => .NOT_CONNECTED
  | .other => .UNKNOWN

/-- What one call of `recv` with room for 256 bytes hands over. -/
structure Chunk where
  bytes : Bytes
  nonempty : bytes ≠ []
  length_le : bytes.length ≤ 256

/-- The results of successive `recv` calls. -/
inductive RecvEvent where
  | data (chunk : Chunk)
  /-- `recv` returns 0 -/
  | closed
  /-- `recv` returns -1 with this `errno` -/
  | failed (errno : Errno)

inductive SocketStatus where
  | INACTIVE
  | LISTENING
  | CONNECTED
  deriving DecidableEq

/-- The members of `TcpSocket` that receiving uses. -/
structure TcpSocket where
  status : SocketStatus
  buffer : Bytes
  deriving DecidableEq

namespace TcpSocket

/-- One turn of the loop in `read`: `none` tries again, which happens for an
error that maps to `IN_PROGRESS`. -/
def recvOnce : RecvEvent → Option (ClockError × Bytes)
  | .data chunk => some (.SUCCESS, chunk.bytes)
  | .closed => some (.NOT_CONNECTED, [])
  | .failed errno =>
    if getLastError errno = .IN_PROGRESS then none else some (getLastError errno, [])

theorem getLastError_ne_success (errno : Errno) : getLastError errno ≠ .SUCCESS := by
  cases errno <;> decide

/-- `read` on a connected socket; `none` when it still waits for `recv`. The
bytes are meaningful on success only. -/
def read : List RecvEvent → Option ((ClockError × Bytes) × List RecvEvent)
  | [] => none
  | event :: events =>
    match recvOnce event with
    | none => read events
    | some outcome => some (outcome, events)

/-- How a call of `receivePacket` ends: its result, the packet it assigns on
success, the socket it leaves behind and what `recv` has yet to return. -/
structure Received where
  error : ClockError
  packet : Option Bytes
  socket : TcpSocket
  events : List RecvEvent

/-- What the loop does with the outcome of a round: return, or go on with the
rest of the loop. -/
def afterRound (socket : TcpSocket) (events : List RecvEvent)
    (loop : Bytes → UInt32 → Run (Option Received)) : Step → Run (Option Received)
  | .done error packet leftover =>
    .ok (some ⟨error, packet, { socket with buffer := leftover }, events⟩)
  | .more result length => loop result length

/-- The loop of `receivePacket`; `none` when it still waits for `recv`. It
calls `read` in every round (`receiveLoop_eq_read`), whose own loop is run
here event by event. -/
def receiveLoop (socket : TcpSocket) : Bytes → UInt32 → List RecvEvent → Run (Option Received)
  | _, _, [] => .ok none
  | result, length, event :: events =>
    match recvOnce event with
    | none => receiveLoop socket result length events
    | some (error, s) =>
      if error ≠ .SUCCESS then .ok (some ⟨error, none, socket, events⟩)
      else if s = [] then receiveLoop socket result length events
      else absorb socket.buffer result length s >>=
        afterRound socket events (fun result length => receiveLoop socket result length events)

/-- With bytes left over from the last call the first round skips its read. -/
def receivePacket (socket : TcpSocket) (events : List RecvEvent) : Run (Option Received) :=
  if socket.status ≠ .CONNECTED then .ok (some ⟨.NOT_READY, none, socket, events⟩)
  else if socket.buffer = [] then receiveLoop socket [] 0 events
  else absorb socket.buffer socket.buffer 0 [] >>=
    afterRound socket events (fun result length => receiveLoop socket result length events)

/-- Every round of the loop is a `read` followed by the handling of its result. -/
theorem receiveLoop_eq_read (socket : TcpSocket) (result : Bytes) (length : UInt32)
    (events : List RecvEvent) :
    receiveLoop socket result length events =
      (match read events with
      | none => .ok none
      | some ((error, s), rest) =>
        if error ≠ .SUCCESS then .ok (some ⟨error, none, socket, rest⟩)
        else if s = [] then receiveLoop socket result length rest
        else absorb socket.buffer result length s >>=
          afterRound socket rest (fun result length => receiveLoop socket result length rest)) := by
  induction events with
  | nil => rfl
  | cons event events ih =>
    rw [receiveLoop, read]
    cases recvOnce event with
    | none => exact ih
    | some outcome => rfl

end TcpSocket

end clockUtils.sockets
