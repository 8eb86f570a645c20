import ClockUtils.Sockets.Frames
import ClockUtils.Sockets.UdpSocket

namespace clockUtils.sockets

/-- As soon as a header of five bytes is held, its first length byte is below
128, so that the length is a nonnegative `int`. -/
def HeaderFits (held : Bytes) : Prop :=
  5 ≤ held.length → ∀ a, held[1]? = some a → a < 128

/-- The held bytes are a whole frame, whose length field is the number of bytes
of the packet, and the leftover bytes. -/
def Framed (held packet leftover : Bytes) : Prop :=
  ∃ header closing, held = header ++ packet ++ closing :: leftover ∧ header.length = 5 ∧
    fieldValue header = packet.length

theorem frame_undecodable_iff (held : Bytes) : frame held = .undecodable ↔ ¬ HeaderFits held := by
  rw [HeaderFits, frame]
  by_cases hfive : 5 ≤ held.length
  · rw [if_neg (show ¬ held.length < 5 by omega)]
    simp only [hfive, true_imp_iff, not_forall, UInt8.not_lt, exists_prop,
      ← fieldValue_overflow_iff hfive]
    by_cases hlarge : 2 ^ 31 ≤ fieldValue held
    · rw [if_pos hlarge]
      exact iff_of_true rfl hlarge
    · rw [if_neg hlarge]
      split
      · exact iff_of_false (by simp) hlarge
      · exact iff_of_false (by simp) hlarge
  · rw [if_pos (by omega)]
    simp [hfive]

namespace TcpSocket

/-- The call is defined, and where it returns a packet, the bytes it held were a
whole frame of this packet and the bytes that it leaves in the buffer. -/
def CallRight (socket : TcpSocket) (events : List RecvEvent) : Prop :=
  ∃ outcome, receivePacket socket events = .ok outcome ∧
    ∀ received, outcome = some received → received.error = .SUCCESS →
      ∃ packet consumed, received.packet = some packet ∧
        arriving events = consumed ++ arriving received.events ∧
        Framed (socket.buffer ++ consumed) packet received.socket.buffer

/-- The frame that a call works on, if its first byte is accepted, has a header
that fits. -/
def CallFits (socket : TcpSocket) (events : List RecvEvent) : Prop :=
  socket.status = .CONNECTED →
    socket.buffer ≠ [] ∨ (arriving events).head? = some bar →
      HeaderFits (socket.buffer ++ arriving events)

/-- Without a bar to start with, the loop does not decode anything. -/
theorem receiveLoop_rejects (socket : TcpSocket) {events : List RecvEvent}
    (hstart : (arriving events).head? ≠ some bar) :
    ∃ outcome, receiveLoop socket [] 0 events = .ok outcome ∧
      ∀ received, outcome = some received → received.error ≠ .SUCCESS := by
  induction events with
  | nil => exact ⟨none, rfl, fun received hreceived => by cases hreceived⟩
  | cons event events ih =>
    cases event with
    | closed =>
      refine ⟨_, rfl, fun received hreceived => ?_⟩
      rw [← Option.some.inj hreceived]
      simp
    | failed errno =>
      rw [arriving] at hstart
      by_cases hretry : getLastError errno = .IN_PROGRESS
      · rw [if_pos hretry] at hstart
        simp only [receiveLoop, recvOnce, if_pos hretry]
        exact ih hstart
      · simp only [receiveLoop, recvOnce, if_neg hretry, ne_eq, getLastError_ne_success errno,
          not_false_eq_true, if_true]
        refine ⟨_, rfl, fun received hreceived => ?_⟩
        rw [← Option.some.inj hreceived]
        exact getLastError_ne_success errno
    | data chunk =>
      rw [arriving, List.head?_append_of_ne_nil _ chunk.nonempty] at hstart
      simp only [receiveLoop, recvOnce, ne_eq, not_true_eq_false, if_false, chunk.nonempty]
      refine ⟨some ⟨.UNKNOWN, none, socket, events⟩, ?_, fun received hreceived => ?_⟩
      · rw [absorb_eq_unknown _ _ rfl chunk.nonempty hstart]
        rfl
      · rw [← Option.some.inj hreceived]
        simp

/-- A call, from any state of the socket and whatever `recv` returns, is right
exactly when the header of its frame fits. -/
theorem callRight_iff (socket : TcpSocket) (events : List RecvEvent) :
    CallRight socket events ↔ CallFits socket events := by
  rw [CallFits]
  by_cases hstatus : socket.status = .CONNECTED
  · by_cases hstart : socket.buffer ≠ [] ∨ (arriving events).head? = some bar
    · simp only [hstatus, hstart, true_imp_iff]
      have hcall := receivePacket_frame hstatus hstart
      rw [← not_iff_not, ← frame_undecodable_iff, CallRight]
      cases hframe : frame (socket.buffer ++ arriving events) with
      | undecodable =>
        rw [hframe] at hcall
        rw [show receivePacket socket events = .error .signedOverflow from hcall]
        simp
      | complete packet leftover =>
        rw [hframe] at hcall
        obtain ⟨kept, rest, hrun, -, ⟨consumed, hconsumed⟩, hleftover⟩ := hcall
        obtain ⟨header, closing, hheld, hheader, hvalue⟩ := frame_complete hframe
        rw [← hconsumed, ← hleftover, ← List.cons_append, ← List.append_assoc, ← List.append_assoc,
          List.append_cancel_right_eq] at hheld
        simp only [reduceCtorEq, iff_false, not_not]
        refine ⟨_, hrun, fun received hreceived _ => ?_⟩
        rw [← Option.some.inj hreceived]
        exact ⟨packet, consumed, rfl, hconsumed.symm, header, closing, hheld, hheader, hvalue⟩
      | incomplete =>
        rw [hframe] at hcall
        obtain ⟨outcome, hrun, herror, -⟩ := hcall
        simp only [reduceCtorEq, iff_false, not_not]
        exact ⟨outcome, hrun, fun received hreceived hsuccess =>
          absurd hsuccess (herror received hreceived)⟩
    · simp only [hstart, false_imp_iff, implies_true, iff_true]
      rw [not_or, not_not] at hstart
      obtain ⟨outcome, hrun, herror⟩ := receiveLoop_rejects socket hstart.2
      refine ⟨outcome, ?_, fun received hreceived hsuccess =>
        absurd hsuccess (herror received hreceived)⟩
      rw [receivePacket, if_neg (not_not.mpr hstatus), if_pos hstart.1, hrun]
  · simp only [hstatus, false_imp_iff, iff_true]
    refine ⟨some ⟨.NOT_READY, none, socket, events⟩, by rw [receivePacket, if_pos hstatus], ?_⟩
    intro received hreceived hsuccess
    rw [← Option.some.inj hreceived] at hsuccess
    cases hsuccess

/-- The states in which the calls of a run are made: each one begins with the
socket and the events that the call before it has left. -/
inductive After (socket : TcpSocket) (events : List RecvEvent) : TcpSocket → List RecvEvent → Prop where
  | start : After socket events socket events
  | call {socket' : TcpSocket} {events' : List RecvEvent} {received : Received}
      (h : After socket events socket' events')
      (hcall : receivePacket socket' events' = .ok (some received)) :
      After socket events received.socket received.events

end TcpSocket

namespace UdpSocket

/-- The bytes of one sender that `recvfrom` hands over before it fails. -/
def arrivingFrom (peer : Peer) : List RecvFromEvent → Bytes
  | [] => []
  | event :: events =>
    match recvfromOnce event with
    | none => arrivingFrom peer events
    | some (error, s, sender) =>
      if error = .SUCCESS then (if sender = peer then s else []) ++ arrivingFrom peer events else []

/-- As for TCP: `run` is defined, and where it returns a packet, the bytes held of
its sender were a whole frame of this packet and the bytes left in the buffer. -/
def Right (socket : UdpSocket) (events : List RecvFromEvent) (run : Run (Option Received)) : Prop :=
  ∃ outcome, run = .ok outcome ∧
    ∀ received, outcome = some received → received.error = .SUCCESS →
      ∃ packet peer consumed, received.packet = some packet ∧ received.peer = some peer ∧
        arrivingFrom peer events = consumed ++ arrivingFrom peer received.events ∧
        Framed (socket.buffer peer ++ consumed) packet (received.socket.buffer peer)

def CallRight (socket : UdpSocket) (events : List RecvFromEvent) : Prop :=
  Right socket events (receivePacket socket events)

/-- The headers that come together during a call fit: each datagram is added to
the bytes held of its sender, as long as this neither completes a frame nor
begins one without a bar. -/
def HeadersFit (buffer : Peer → Bytes) : List RecvFromEvent → Prop
  | [] => True
  | event :: events =>
    match recvfromOnce event with
    | none => HeadersFit buffer events
    | some (error, s, peer) =>
      error = .SUCCESS → buffer peer ≠ [] ∨ s.head? = some bar →
        HeaderFits (buffer peer ++ s) ∧
          (frame (buffer peer ++ s) = .incomplete →
            HeadersFit (Function.update buffer peer (buffer peer ++ s)) events)

def CallFits (socket : UdpSocket) (events : List RecvFromEvent) : Prop :=
  socket.bound = true → HeadersFit socket.buffer events

/-- Only a datagram that is not empty is handed over with `SUCCESS`. -/
theorem recvfromOnce_ne_nil {event : RecvFromEvent} {s : Bytes} {peer : Peer}
    (h : recvfromOnce event = some (.SUCCESS, s, peer)) : s ≠ [] := by
  cases event with
  | datagram sender bytes =>
    rw [recvfromOnce] at h
    split at h
    · cases h
    · next hne =>
      obtain ⟨rfl, rfl⟩ : bytes.take MAX_PACKET_SIZE = s ∧ sender = peer := by simpa using h
      simp [hne, MAX_PACKET_SIZE]
  | failed errno =>
    rw [recvfromOnce] at h
    split at h
    · cases h
    · have herror := congrArg (Option.map Prod.fst) h
      exact absurd (Option.some.inj herror) (TcpSocket.getLastError_ne_success errno)

theorem Right.of_error {socket socket' : UdpSocket} {events events' : List RecvFromEvent}
    {error : ClockError} (h : error ≠ .SUCCESS) (packet : Option Bytes) (peer : Option Peer) :
    Right socket events (.ok (some ⟨error, packet, peer, socket', events'⟩)) := by
  refine ⟨_, rfl, fun received hreceived hsuccess => ?_⟩
  rw [← Option.some.inj hreceived] at hsuccess
  exact absurd hsuccess h

/-- A datagram that leaves its frame incomplete moves on to the bytes held. -/
theorem Right.of_store {socket : UdpSocket} {event : RecvFromEvent} {events : List RecvFromEvent}
    {s : Bytes} {peer : Peer} {run : Run (Option Received)}
    (honce : recvfromOnce event = some (.SUCCESS, s, peer))
    (h : Right (socket.store peer (socket.buffer peer ++ s)) events run) :
    Right socket (event :: events) run := by
  obtain ⟨outcome, hrun, hright⟩ := h
  refine ⟨outcome, hrun, fun received hreceived hsuccess => ?_⟩
  obtain ⟨packet, sender, consumed, hpacket, hsender, harriving, hframed⟩ :=
    hright received hreceived hsuccess
  refine ⟨packet, sender, (if peer = sender then s else []) ++ consumed, hpacket, hsender, ?_, ?_⟩
  · rw [arrivingFrom, honce]
    simp only [if_true]
    rw [harriving, List.append_assoc]
  · by_cases hsame : peer = sender
    · subst hsame
      rw [if_pos rfl, ← List.append_assoc]
      simpa [store] using hframed
    · rw [if_neg hsame, List.nil_append]
      simpa [store, Function.update_of_ne (Ne.symm hsame)] using hframed

/-- A datagram that completes its frame is handed over. -/
theorem Right.of_complete {socket : UdpSocket} {event : RecvFromEvent} {events : List RecvFromEvent}
    {s : Bytes} {peer : Peer} {packet leftover : Bytes}
    (honce : recvfromOnce event = some (.SUCCESS, s, peer))
    (hframe : frame (socket.buffer peer ++ s) = .complete packet leftover) :
    Right socket (event :: events)
      (.ok (some ⟨.SUCCESS, some packet, some peer, socket.store peer leftover, events⟩)) := by
  refine ⟨_, rfl, fun received hreceived _ => ?_⟩
  rw [← Option.some.inj hreceived]
  refine ⟨packet, peer, s, rfl, rfl, ?_, ?_⟩
  · rw [arrivingFrom, honce]
    simp
  · simp only [store, Function.update_self]
    exact frame_complete hframe

/-- The loop of one call, from any buffers. -/
theorem receiveLoop_spec (socket : UdpSocket) (events : List RecvFromEvent) :
    (HeadersFit socket.buffer events → Right socket events (receiveLoop socket events)) ∧
      (¬ HeadersFit socket.buffer events →
        receiveLoop socket events = .error .signedOverflow) := by
  induction events generalizing socket with
  | nil =>
    refine ⟨fun _ => ⟨none, rfl, fun received hreceived => ?_⟩, fun h => absurd trivial h⟩
    cases hreceived
  | cons event events ih =>
    rw [receiveLoop, HeadersFit]
    cases honce : recvfromOnce event with
    | none =>
      obtain ⟨hright, herror⟩ := ih socket
      refine ⟨fun hfits => ?_, herror⟩
      obtain ⟨outcome, hrun, hreceived⟩ := hright hfits
      refine ⟨outcome, hrun, ?_⟩
      simpa only [arrivingFrom, honce] using hreceived
    | some handed =>
      obtain ⟨error, s, peer⟩ := handed
      by_cases herror : error = .SUCCESS
      · subst herror
        have hne := recvfromOnce_ne_nil honce
        simp only [ne_eq, not_true_eq_false, if_false, hne, true_imp_iff]
        by_cases hstart : socket.buffer peer ≠ [] ∨ s.head? = some bar
        · rw [absorb_eq_finishRound _ _ hstart]
          have hround := finishRound_eq (.inl rfl : Decoded (socket.buffer peer ++ s) 0)
          have hfits := frame_undecodable_iff (socket.buffer peer ++ s)
          simp only [ne_eq] at hstart
          simp only [hstart, true_imp_iff]
          cases hframe : frame (socket.buffer peer ++ s) with
          | undecodable =>
            rw [hframe] at hround hfits
            rw [hround]
            exact ⟨fun h => absurd h.1 (hfits.mp rfl), fun _ => rfl⟩
          | complete packet leftover =>
            rw [hframe] at hround hfits
            simp only [reduceCtorEq, false_iff, not_not] at hfits
            rw [hround, Run.ok_bind, afterRound]
            exact ⟨fun _ => .of_complete honce hframe, fun h => absurd ⟨hfits, by simp⟩ h⟩
          | incomplete =>
            rw [hframe] at hround hfits
            simp only [reduceCtorEq, false_iff, not_not] at hfits
            obtain ⟨length', hmore, -⟩ := hround
            obtain ⟨hright, hundefined⟩ := ih (socket.store peer (socket.buffer peer ++ s))
            rw [hmore, Run.ok_bind, afterRound]
            simp only [hfits, true_and, true_imp_iff]
            exact ⟨fun h => .of_store honce (hright h), hundefined⟩
        · have hempty : socket.buffer peer = [] := not_not.mp fun h => hstart (.inl h)
          rw [absorb_eq_unknown _ _ hempty hne fun h => hstart (.inr h), Run.ok_bind, afterRound]
          exact ⟨fun _ => .of_error (by simp) _ _, fun h => absurd (fun h' => absurd h' hstart) h⟩
      · simp only [ne_eq, herror, not_false_eq_true, if_true, false_imp_iff]
        exact ⟨fun _ => .of_error herror _ _, fun h => absurd trivial h⟩

/-- A call, from any state of the socket and whatever `recvfrom` returns, is
right exactly when the headers that come together fit. -/
theorem callRight_iff (socket : UdpSocket) (events : List RecvFromEvent) :
    CallRight socket events ↔ CallFits socket events := by
  rw [CallRight, CallFits, receivePacket]
  by_cases hbound : socket.bound = true
  · obtain ⟨hright, herror⟩ := receiveLoop_spec socket events
    simp only [hbound, if_true, true_imp_iff]
    refine ⟨fun h => ?_, hright⟩
    by_contra hnot
    obtain ⟨outcome, hrun, -⟩ := h
    rw [herror hnot] at hrun
    cases hrun
  · have hnotReady : ClockError.NOT_READY ≠ .SUCCESS := by simp
    rw [if_neg hbound]
    exact iff_of_true (.of_error hnotReady none none) (fun h => absurd h hbound)

/-- The states in which the calls of a run are made. -/
inductive After (socket : UdpSocket) (events : List RecvFromEvent) :
    UdpSocket → List RecvFromEvent → Prop where
  | start : After socket events socket events
  | call {socket' : UdpSocket} {events' : List RecvFromEvent} {received : Received}
      (h : After socket events socket' events')
      (hcall : receivePacket socket' events' = .ok (some received)) :
      After socket events received.socket received.events

end UdpSocket

/-- Runs of calls on both sockets, from any state and on whatever the peers
send: all calls are right exactly when in each of them the headers fit. -/
theorem calls_right_iff (tcp : TcpSocket) (received : List RecvEvent) (udp : UdpSocket)
    (datagrams : List RecvFromEvent) :
    ((∀ socket events, TcpSocket.After tcp received socket events →
        TcpSocket.CallRight socket events) ↔
      ∀ socket events, TcpSocket.After tcp received socket events →
        TcpSocket.CallFits socket events) ∧
    ((∀ socket events, UdpSocket.After udp datagrams socket events →
        UdpSocket.CallRight socket events) ↔
      ∀ socket events, UdpSocket.After udp datagrams socket events →
        UdpSocket.CallFits socket events) := by
  constructor
  · refine forall₂_congr fun socket events => imp_congr_right fun _ => ?_
    exact TcpSocket.callRight_iff socket events
  · refine forall₂_congr fun socket events => imp_congr_right fun _ => ?_
    exact UdpSocket.callRight_iff socket events

/-- A peer that sends `|` and the length bytes 128, 0, 0, 0. -/
theorem calls_wrong_length_128 :
    TcpSocket.receivePacket ⟨.CONNECTED, []⟩
        [.data ⟨[124, 128, 0, 0, 0], by decide, by decide⟩] = .error .signedOverflow ∧
      UdpSocket.receivePacket .fresh [.datagram UdpSocket.noPeer [124, 128, 0, 0, 0]] =
        .error .signedOverflow ∧
      ¬ TcpSocket.CallRight ⟨.CONNECTED, []⟩
        [.data ⟨[124, 128, 0, 0, 0], by decide, by decide⟩] ∧
      ¬ UdpSocket.CallRight .fresh [.datagram UdpSocket.noPeer [124, 128, 0, 0, 0]] := by
  have htcp : TcpSocket.receivePacket ⟨.CONNECTED, []⟩
      [.data ⟨[124, 128, 0, 0, 0], by decide, by decide⟩] = .error .signedOverflow := rfl
  have hudp : UdpSocket.receivePacket .fresh
      [.datagram UdpSocket.noPeer [124, 128, 0, 0, 0]] = .error .signedOverflow := rfl
  refine ⟨htcp, hudp, ?_, ?_⟩
  · rintro ⟨outcome, hrun, -⟩
    rw [htcp] at hrun
    cases hrun
  · rintro ⟨outcome, hrun, -⟩
    rw [hudp] at hrun
    cases hrun

end clockUtils.sockets
