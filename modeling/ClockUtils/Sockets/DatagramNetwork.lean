import ClockUtils.Sockets.AsyncPassing
import ClockUtils.Sockets.UdpReassembly

namespace clockUtils.sockets

/-- How far the thread that `receiveCallback` of a `UdpSocket` starts has come. -/
inductive DatagramPoint where
  /-- in `receivePacket`, before its next `recvfrom` -/
  | running
  | ended
  | undefined (step : Undefined)

/-- A call of the callback. -/
structure DatagramCall where
  packet : Bytes
  peer : Option Peer
  error : ClockError
  deriving DecidableEq

/-- That thread with its socket and the calls of the callback. -/
structure DatagramReceiver where
  socket : UdpSocket
  point : DatagramPoint
  calls : List DatagramCall

/-- Any number of bound `UdpSocket`s, each named by the address that `read` reports
for it. On each of them any threads call `writePacketAsync` and `writeAsync`, and the
thread of `receiveCallback` receives; `wire p q` are the datagrams on their way from
`p` to `q`. -/
structure DatagramNetwork (Thread : Type) where
  writer : Peer → AsyncWriter Thread Peer
  wire : Peer → Peer → List Bytes
  receiver : Peer → DatagramReceiver

/-- One step: of the writing side of a socket, with what `sendto` does in it, of the
receiving side, or of the network. -/
inductive NetworkAct (Thread : Type) where
  | writer (p : Peer) (act : Act Thread Peer) (sendto : Nat → Option Errno)
  /-- `recvfrom` of `q` returns the first datagram on its way from `p` -/
  | arrive (p q : Peer)
  /-- `recvfrom` of `q` fails -/
  | fail (q : Peer) (errno : Errno)
  /-- `receiveCallback` is called again on `q`, where its thread has ended -/
  | receiveCallback (q : Peer)
  /-- of the datagrams on their way from `p` to `q`, those at these places stay, in the
  order of the places: others are lost, some are duplicated or overtake each other -/
  | disturb (p q : Peer) (places : List Nat)

namespace DatagramReceiver

/-- Behind a successful `bind`, with the thread of `receiveCallback` started. -/
def fresh : DatagramReceiver where
  socket := UdpSocket.fresh
  point := .running
  calls := []

/-- What follows a round of `receivePacket` on a datagram of `peer`: its next round,
or the call of the callback, behind which the thread goes on when there was no error. -/
def round (r : DatagramReceiver) (peer : Peer) : Run Step → DatagramReceiver
  | .error step => { r with point := .undefined step }
  | .ok (.more result _) => { r with socket := r.socket.store peer result }
  | .ok (.done error packet leftover) =>
    ⟨r.socket.store peer leftover, if error = .SUCCESS then .running else .ended,
      r.calls ++ [⟨packet.getD [], some peer, error⟩]⟩

/-- A round of `receivePacket` with a result of `recvfrom`. -/
def recvfrom (r : DatagramReceiver) (event : RecvFromEvent) : DatagramReceiver :=
  match UdpSocket.recvfromOnce event with
  | none => r
  | some (error, s, peer) =>
    if error ≠ .SUCCESS then
      { r with point := .ended, calls := r.calls ++ [⟨[], some peer, error⟩] }
    else if s = [] then r
    else r.round peer (absorb (r.socket.buffer peer) (r.socket.buffer peer) 0 s)

/-- The rounds with these results of `recvfrom`. -/
def recvfroms (r : DatagramReceiver) : List RecvFromEvent → DatagramReceiver
  | [] => r
  | event :: events =>
    match r.point with
    | .running => (r.recvfrom event).recvfroms events
    | _ => r

/-- The thread behind a call of `receivePacket` and of the callback. -/
def called (r : DatagramReceiver) (received : UdpSocket.Received) : DatagramReceiver :=
  ⟨received.socket, if received.error = .SUCCESS then .running else .ended,
    r.calls ++ [⟨received.packet.getD [], received.peer, received.error⟩]⟩

/-- The rounds of the thread are the ones of the loop of `receivePacket`. A round that is
not the last one leaves the calls alone. -/
theorem recvfroms_eq_called {r : DatagramReceiver} {events : List RecvFromEvent}
    {received : UdpSocket.Received} (hPoint : r.point = .running)
    (h : UdpSocket.receiveLoop r.socket events = .ok (some received)) :
    ∃ taken, events = taken ++ received.events ∧ r.recvfroms taken = r.called received := by
  induction events generalizing r with
  | nil => cases h
  | cons event events ih =>
    have hRecv (taken : List RecvFromEvent) :
        r.recvfroms (event :: taken) = (r.recvfrom event).recvfroms taken := by
      rw [recvfroms, hPoint]
    have hNext (r' : DatagramReceiver) (hEq : r.recvfrom event = r')
        (hPoint' : r'.point = .running) (hCalls : r'.calls = r.calls)
        (hLoop : UdpSocket.receiveLoop r'.socket events = .ok (some received)) :
        ∃ taken, event :: events = taken ++ received.events ∧
          r.recvfroms taken = r.called received := by
      obtain ⟨taken, rfl, hTaken⟩ := ih hPoint' hLoop
      refine ⟨event :: taken, rfl, ?_⟩
      rw [hRecv, hEq, hTaken, called, called, hCalls]
    rw [UdpSocket.receiveLoop] at h
    cases hOnce : UdpSocket.recvfromOnce event with
    | none =>
      rw [hOnce] at h
      exact hNext r (by rw [recvfrom, hOnce]) hPoint rfl h
    | some outcome =>
      obtain ⟨error, s, peer⟩ := outcome
      rw [hOnce] at h
      dsimp only at h
      by_cases hError : error = .SUCCESS
      · by_cases hEmpty : s = []
        · rw [if_neg (not_not.mpr hError), if_pos hEmpty] at h
          refine hNext r ?_ hPoint rfl h
          rw [recvfrom, hOnce]
          simp only [hError, hEmpty, ne_eq, not_true_eq_false, if_false, if_true]
        · rw [if_neg (not_not.mpr hError), if_neg hEmpty, Run.bind_eq_ok_iff] at h
          obtain ⟨step, hAbsorb, hAfter⟩ := h
          have hRound : r.recvfrom event = r.round peer (.ok step) := by
            rw [recvfrom, hOnce, ← hAbsorb]
            simp only [hError, hEmpty, ne_eq, not_true_eq_false, if_false]
          cases step with
          | done error packet leftover =>
            cases hAfter
            exact ⟨[event], rfl, by rw [hRecv, hRound]; rfl⟩
          | more result length => exact hNext _ hRound hPoint rfl hAfter
      · rw [if_pos hError] at h
        cases h
        refine ⟨[event], rfl, ?_⟩
        rw [hRecv, recvfrom, hOnce]
        simp only [recvfroms, called, ne_eq, hError, not_false_eq_true, if_true, if_false,
          Option.getD_none]

/-- A call of the thread is a call of `receivePacket`. -/
theorem receivePacket_eq_called {r : DatagramReceiver} {events : List RecvFromEvent}
    {received : UdpSocket.Received} (hPoint : r.point = .running)
    (hBound : r.socket.bound = true)
    (h : UdpSocket.receivePacket r.socket events = .ok (some received)) :
    ∃ taken, events = taken ++ received.events ∧ r.recvfroms taken = r.called received := by
  rw [UdpSocket.receivePacket, if_pos hBound] at h
  exact recvfroms_eq_called hPoint h

end DatagramReceiver

namespace DatagramNetwork

variable {Thread : Type}

def fresh : DatagramNetwork Thread where
  writer _ := AsyncWriter.fresh
  wire _ _ := []
  receiver _ := DatagramReceiver.fresh

/-- The datagrams to `q` that a step of the writing side sends. -/
def sentBy (writer : AsyncWriter Thread Peer) (act : Act Thread Peer)
    (sendto : Nat → Option Errno) (q : Peer) : List Bytes :=
  match act, writer.worker with
  | .worker, .call .packets _ tmp =>
    if tmp.dest = q then (UdpSocket.fresh.writePacket sendto tmp.vec).2 else []
  | .worker, .call .bytes _ tmp =>
    if tmp.dest = q then (UdpSocket.fresh.write sendto tmp.vec).2 else []
  | _, _ => []

/-- What is on its way from `p` to `q` changes. -/
def setWire (s : DatagramNetwork Thread) (p q : Peer) (due : List Bytes) :
    DatagramNetwork Thread :=
  { s with wire := Function.update s.wire p (Function.update (s.wire p) q due) }

/-- What is on its way from `p` to `q` behind a disturbance. -/
def disturbed (s : DatagramNetwork Thread) (p q : Peer) (places : List Nat) : List Bytes :=
  places.filterMap fun i => (s.wire p q)[i]?

def setReceiver (s : DatagramNetwork Thread) (q : Peer) (receiver : DatagramReceiver) :
    DatagramNetwork Thread :=
  { s with receiver := Function.update s.receiver q receiver }

def step [DecidableEq Thread] [Fintype Thread] (s : DatagramNetwork Thread) :
    NetworkAct Thread → Option (DatagramNetwork Thread)
  | .writer p act sendto =>
    ((s.writer p).step .udp act).map fun writer =>
      { s with
        writer := Function.update s.writer p writer
        wire := Function.update s.wire p fun q =>
          s.wire p q ++ sentBy (s.writer p) act sendto q }
  | .arrive p q =>
    match (s.receiver q).point, s.wire p q with
    | .running, d :: due =>
      some ((s.setWire p q due).setReceiver q ((s.receiver q).recvfrom (.datagram p d)))
    | _, _ => none
  | .fail q errno =>
    match (s.receiver q).point with
    | .running => some (s.setReceiver q ((s.receiver q).recvfrom (.failed errno)))
    | _ => none
  | .receiveCallback q =>
    match (s.receiver q).point with
    | .ended => some (s.setReceiver q { s.receiver q with point := .running })
    | _ => none
  | .disturb p q places => some (s.setWire p q (s.disturbed p q places))

end DatagramNetwork

end clockUtils.sockets
