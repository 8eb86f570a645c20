import ClockUtils.Sockets.AsyncProgress
import ClockUtils.Sockets.TcpReassembly
import ClockUtils.Sockets.TcpWrite

namespace clockUtils.sockets

/-- How far the thread that `receiveCallback` starts has come. -/
inductive ReceivePoint where
  /-- before the next call of `receivePacket` -/
  | call
  /-- in `receivePacket`, before its next `read` -/
  | loop (result : Bytes) (length : UInt32)
  | ended
  | undefined (step : Undefined)

/-- That thread with the buffer of its socket and the calls of the callback. -/
structure Receiver where
  buffer : Bytes
  point : ReceivePoint
  calls : List (ClockError × Bytes)

/-- A `TcpSocket` on which any threads call `writePacketAsync`, the bytes on their
way, and the thread of `receiveCallback` on the other end of the connection. -/
structure PacketChannel (Thread : Type) where
  writer : AsyncWriter Thread Unit
  wire : Bytes
  receiver : Receiver

/-- One step: of the writing side, with what `send` does in it, or of the receiving
side, which begins a call of `receivePacket` or gets a result of `recv`. -/
inductive ChannelAct (Thread : Type) where
  | writer (act : Act Thread Unit) (event : SendEvent)
  | receive
  | recv (event : RecvEvent)

namespace Receiver

/-- What follows a round of `receivePacket`: its next round, or the call of the
callback, behind which the thread goes on when there was no error. -/
def round (r : Receiver) : Run Step → Receiver
  | .error step => { r with point := .undefined step }
  | .ok (.more result length) => { r with point := .loop result length }
  | .ok (.done error packet leftover) =>
    ⟨leftover, if error = .SUCCESS then .call else .ended, r.calls ++ [(error, packet.getD [])]⟩

/-- `receivePacket` up to its first `read`. -/
def receive (r : Receiver) : Receiver :=
  if r.buffer = [] then { r with point := .loop [] 0 }
  else r.round (absorb r.buffer r.buffer 0 [])

/-- A round of `receivePacket` with a result of `recv`. -/
def recv (r : Receiver) (result : Bytes) (length : UInt32) (event : RecvEvent) : Receiver :=
  match TcpSocket.recvOnce event with
  | none => r
  | some (error, s) =>
    if error ≠ .SUCCESS then { r with point := .ended, calls := r.calls ++ [(error, [])] }
    else if s = [] then r
    else r.round (absorb r.buffer result length s)

/-- The rounds of a call with these results of `recv`. -/
def recvs (r : Receiver) : List RecvEvent → Receiver
  | [] => r
  | event :: events =>
    match r.point with
    | .loop result length => (r.recv result length event).recvs events
    | _ => r

/-- The thread behind a call of `receivePacket` and of the callback. -/
def called (r : Receiver) (received : TcpSocket.Received) : Receiver :=
  ⟨received.socket.buffer, if received.error = .SUCCESS then .call else .ended,
    r.calls ++ [(received.error, received.packet.getD [])]⟩

/-- The rounds of the thread are the ones of the loop of `receivePacket`. A round that is
not the last one leaves the buffer and the calls alone. -/
theorem recvs_eq_called {r : Receiver} {result : Bytes} {length : UInt32} {status : SocketStatus}
    {events : List RecvEvent} {received : TcpSocket.Received}
    (hPoint : r.point = .loop result length)
    (h : TcpSocket.receiveLoop ⟨status, r.buffer⟩ result length events = .ok (some received)) :
    ∃ taken, events = taken ++ received.events ∧ r.recvs taken = r.called received := by
  induction events generalizing r result length with
  | nil => cases h
  | cons event events ih =>
    have hRecv (taken : List RecvEvent) :
        r.recvs (event :: taken) = (r.recv result length event).recvs taken := by
      rw [recvs, hPoint]
    rw [TcpSocket.receiveLoop] at h
    have hNext (r' : Receiver) (result' : Bytes) (length' : UInt32)
        (hEq : r.recv result length event = r') (hPoint' : r'.point = .loop result' length')
        (hBuffer : r'.buffer = r.buffer) (hCalls : r'.calls = r.calls)
        (hLoop : TcpSocket.receiveLoop ⟨status, r.buffer⟩ result' length' events =
          .ok (some received)) :
        ∃ taken, event :: events = taken ++ received.events ∧ r.recvs taken = r.called received := by
      rw [← hBuffer] at hLoop
      obtain ⟨taken, rfl, hTaken⟩ := ih hPoint' hLoop
      refine ⟨event :: taken, rfl, ?_⟩
      rw [hRecv, hEq, hTaken, called, called, hCalls]
    cases hOnce : TcpSocket.recvOnce event with
    | none =>
      rw [hOnce] at h
      exact hNext r result length (by rw [recv, hOnce]) hPoint rfl rfl h
    | some outcome =>
      obtain ⟨error, s⟩ := outcome
      rw [hOnce] at h
      dsimp only at h
      by_cases hError : error = .SUCCESS
      · by_cases hEmpty : s = []
        · rw [if_neg (not_not.mpr hError), if_pos hEmpty] at h
          refine hNext r result length ?_ hPoint rfl rfl h
          rw [recv, hOnce]
          simp only [hError, hEmpty, ne_eq, not_true_eq_false, if_false, if_true]
        · rw [if_neg (not_not.mpr hError), if_neg hEmpty, Run.bind_eq_ok_iff] at h
          have hRound : r.recv result length event = r.round (absorb r.buffer result length s) := by
            rw [recv, hOnce]
            simp only [hError, hEmpty, ne_eq, not_true_eq_false, if_false]
          obtain ⟨step, hAbsorb, hAfter⟩ := h
          rw [hAbsorb] at hRound
          cases step with
          | done error packet leftover =>
            cases hAfter
            exact ⟨[event], rfl, by rw [hRecv, hRound]; rfl⟩
          | more result' length' => exact hNext _ result' length' hRound rfl rfl rfl hAfter
      · rw [if_pos hError] at h
        cases h
        refine ⟨[event], rfl, ?_⟩
        rw [hRecv, recv, hOnce]
        simp only [recvs, called, ne_eq, hError, not_false_eq_true, if_true, if_false,
          Option.getD_none]

/-- A call of the thread is a call of `receivePacket`. -/
theorem receive_eq_called {r : Receiver} {events : List RecvEvent} {received : TcpSocket.Received}
    (h : TcpSocket.receivePacket ⟨.CONNECTED, r.buffer⟩ events = .ok (some received)) :
    ∃ taken, events = taken ++ received.events ∧ r.receive.recvs taken = r.called received := by
  rw [TcpSocket.receivePacket, if_neg (by simp)] at h
  rw [receive]
  split at h
  · next hEmpty =>
    rw [if_pos hEmpty]
    exact recvs_eq_called rfl h
  · next hSome =>
    rw [if_neg hSome]
    rw [Run.bind_eq_ok_iff] at h
    obtain ⟨step, hAbsorb, hAfter⟩ := h
    rw [hAbsorb]
    cases step with
    | done error packet leftover =>
      cases hAfter
      exact ⟨[], rfl, rfl⟩
    | more result length =>
      have hPoint : (r.round (.ok (.more result length))).point = .loop result length := rfl
      exact recvs_eq_called hPoint hAfter

end Receiver

namespace PacketChannel

variable {Thread : Type}

def fresh : PacketChannel Thread where
  writer := AsyncWriter.fresh
  wire := []
  receiver := ⟨[], .call, []⟩

/-- The bytes that a step of the writing side hands to `send` and that are taken. -/
def sentBy (s : PacketChannel Thread) (act : Act Thread Unit) (event : SendEvent) : Bytes :=
  match act, s.writer.worker with
  | .worker, .call .packets _ tmp =>
    (TcpSocket.writePacket ⟨.CONNECTED, []⟩ tmp.vec event).2
  | .worker, .call .bytes _ tmp => (TcpSocket.write ⟨.CONNECTED, []⟩ tmp.vec event).2
  | _, _ => []

/-- `recv` hands over the bytes that are next on their way. -/
def recvStep (s : PacketChannel Thread) (result : Bytes) (length : UInt32) :
    RecvEvent → Option (PacketChannel Thread)
  | .data chunk =>
    if chunk.bytes <+: s.wire then
      some { s with
        wire := s.wire.drop chunk.bytes.length
        receiver := s.receiver.recv result length (.data chunk) }
    else none
  | event => some { s with receiver := s.receiver.recv result length event }

def step [DecidableEq Thread] [Fintype Thread] (s : PacketChannel Thread) :
    ChannelAct Thread → Option (PacketChannel Thread)
  | .writer act event =>
    (s.writer.step .tcp act).map fun writer =>
      { s with writer := writer, wire := s.wire ++ s.sentBy act event }
  | .receive =>
    match s.receiver.point with
    | .call => some { s with receiver := s.receiver.receive }
    | _ => none
  | .recv event =>
    match s.receiver.point with
    | .loop result length => s.recvStep result length event
    | _ => none

/-- `send` takes the frame of a packet as a whole. -/
def takesWhole : WorkPoint Unit → SendEvent → Bool
  | .call .packets _ tmp, event => event = .accepted (packetBuffer tmp.vec).length
  | _, _ => true

/-- The channel is used for packets whose frames have a length that fits into an
`int`, and no `send` is short. -/
def Sends (s : PacketChannel Thread) : ChannelAct Thread → Prop
  | .writer (.call _ channel m) _ => channel = .packets ∧ m.vec.length < 2 ^ 31 - 6
  | .writer .worker event => takesWhole s.writer.worker event = true
  | _ => True

instance (s : PacketChannel Thread) : (act : ChannelAct Thread) → Decidable (s.Sends act)
  | .writer (.call _ channel m) _ =>
    inferInstanceAs (Decidable (channel = .packets ∧ m.vec.length < 2 ^ 31 - 6))
  | .writer .worker event =>
    inferInstanceAs (Decidable (takesWhole s.writer.worker event = true))
  | .writer (.user _) _ | .writer .wake _ | .writer .destroy _ | .writer .destructor _
  | .receive | .recv _ => .isTrue trivial

end PacketChannel

end clockUtils.sockets
