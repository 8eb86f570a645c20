import ClockUtils.Sockets.TcpSocket
import Mathlib.Logic.Function.Basic

namespace clockUtils.sockets

/-- The sender of a datagram as `read` reports it: the text of its IP and its port. -/
abbrev Peer := Bytes × UInt16

/-- The results of successive `recvfrom` calls. -/
inductive RecvFromEvent where
  | datagram (peer : Peer) (bytes : Bytes)
  /-- `recvfrom` returns -1 with this `errno` -/
  | failed (errno : Errno)

/-- The members of `UdpSocket` that sending and receiving packets use.
`_buffer[key]` of an unknown sender is an empty vector. -/
structure UdpSocket where
  bound : Bool
  buffer : Peer → Bytes

namespace UdpSocket

def MAX_PACKET_SIZE : Nat := 32 * 1024

/-- The socket behind a successful `bind`, before anything was received. -/
def fresh : UdpSocket where
  bound := true
  buffer _ := []

/-- The bytes of the `i`-th `sendto` of `write`. -/
def sendChunk (str : Bytes) (i : Nat) : Bytes :=
  (str.drop (i * MAX_PACKET_SIZE)).take
    (if i < str.length / MAX_PACKET_SIZE then MAX_PACKET_SIZE else str.length - i * MAX_PACKET_SIZE)

/-- The loop of `write` from round `i` on, with `rounds` rounds left. `sendto`
tells which calls fail; the datagrams of the others are returned in order. -/
def writeLoop (sendto : Nat → Option Errno) (str : Bytes) : Nat → Nat → ClockError × List Bytes
  | 0, _ => (.SUCCESS, [])
  | rounds + 1, i =>
    match sendto i with
    | some errno => (getLastError errno, [])
    | none =>
      let (error, sent) := writeLoop sendto str rounds (i + 1)
      (error, sendChunk str i :: sent)

def write (socket : UdpSocket) (sendto : Nat → Option Errno) (str : Bytes) :
    ClockError × List Bytes :=
  if socket.bound then writeLoop sendto str (str.length / MAX_PACKET_SIZE + 1) 0
  else (.NOT_READY, [])

def writePacket (socket : UdpSocket) (sendto : Nat → Option Errno) (str : Bytes) :
    ClockError × List Bytes :=
  if socket.bound then write socket sendto (packetBuffer str) else (.NOT_READY, [])

/-- The text `0.0.0.0` and port 0, which `read` reports when `recvfrom` fails. -/
def noPeer : Peer := ([48, 46, 48, 46, 48, 46, 48], 0)

/-- One turn of the loop in `read`: `none` tries again. `recvfrom` drops what
exceeds its buffer, and an empty datagram is taken for a closed connection. -/
def recvfromOnce : RecvFromEvent → Option (ClockError × Bytes × Peer)
  | .datagram peer bytes =>
    if bytes = [] then some (.NOT_CONNECTED, [], peer)
    else some (.SUCCESS, bytes.take MAX_PACKET_SIZE, peer)
  | .failed errno =>
    if getLastError errno = .IN_PROGRESS then none else some (getLastError errno, [], noPeer)

/-- How a call of `receivePacket` ends. The sender is assigned by every call
that reaches `read`. -/
structure Received where
  error : ClockError
  packet : Option Bytes
  peer : Option Peer
  socket : UdpSocket
  events : List RecvFromEvent

/-- `_buffer[std::make_pair(ip, port)] = bytes` -/
def store (socket : UdpSocket) (peer : Peer) (bytes : Bytes) : UdpSocket :=
  { socket with buffer := Function.update socket.buffer peer bytes }

/-- What the loop does with the outcome of a round: return, or store the bytes
of this sender and go on. -/
def afterRound (socket : UdpSocket) (peer : Peer) (events : List RecvFromEvent)
    (loop : UdpSocket → Run (Option Received)) : Step → Run (Option Received)
  | .done error packet leftover =>
    .ok (some ⟨error, packet, some peer, socket.store peer leftover, events⟩)
  | .more result _ => loop (socket.store peer result)

/-- The loop of `receivePacket`; `none` when it still waits for `recvfrom`. -/
def receiveLoop (socket : UdpSocket) : List RecvFromEvent → Run (Option Received)
  | [] => .ok none
  | event :: events =>
    match recvfromOnce event with
    | none => receiveLoop socket events
    | some (error, s, peer) =>
      if error ≠ .SUCCESS then .ok (some ⟨error, none, some peer, socket, events⟩)
      else if s = [] then receiveLoop socket events
      else absorb (socket.buffer peer) (socket.buffer peer) 0 s >>=
        afterRound socket peer events (fun socket => receiveLoop socket events)

def receivePacket (socket : UdpSocket) (events : List RecvFromEvent) : Run (Option Received) :=
  if socket.bound then receiveLoop socket events
  else .ok (some ⟨.NOT_READY, none, none, socket, events⟩)

end UdpSocket

end clockUtils.sockets
