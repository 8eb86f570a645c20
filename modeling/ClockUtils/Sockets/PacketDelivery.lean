import ClockUtils.Sockets.AsyncPassing
import ClockUtils.Sockets.PacketChannel

namespace clockUtils.sockets

namespace Receiver

variable {r : Receiver} {delivered rest : List Bytes} {wire : Bytes}

/-- The packets of which no byte is lost: some were delivered, the rest is in the
hands of the receiver or on its way. -/
def Holds (r : Receiver) (wire : Bytes) (delivered rest : List Bytes)
    (errors : List ClockError) : Prop :=
  r.calls = delivered.map (fun packet => (.SUCCESS, packet)) ++ errors.map (fun error => (error, [])) ∧
  match r.point with
  | .call => errors = [] ∧ r.buffer ++ wire = rest.flatMap packetBuffer
  | .loop result length =>
    errors = [] ∧ result ++ wire = rest.flatMap packetBuffer ∧ (rest = [] → length = 0) ∧
      ∀ str tail, rest = str :: tail →
        LengthFor str result length ∧ result.length < (packetBuffer str).length
  | .ended => errors.length = 1 ∧ ∀ error ∈ errors, error ≠ .SUCCESS
  | .undefined _ => False

/-- A round on the bytes of the next packet. -/
theorem holds_round {str result s : Bytes} {length : UInt32} {packets : List Bytes}
    (hLen : str.length < 2 ^ 31 - 6)
    (hCalls : r.calls = delivered.map (fun packet => (.SUCCESS, packet)))
    (hStream : result ++ s ++ wire = (str :: packets).flatMap packetBuffer)
    (hLength : LengthFor str result length) (hs : result = [] → s ≠ []) :
    ∃ delivered' rest', delivered' ++ rest' = delivered ++ str :: packets ∧
      (r.round (absorb r.buffer result length s)).Holds wire delivered' rest' [] := by
  rw [List.flatMap_cons] at hStream
  have hRound := absorb_spec r.buffer hLen hStream hLength hs
  split at hRound
  · obtain ⟨leftover, hDone, hLeftover⟩ := hRound
    refine ⟨delivered ++ [str], packets, by simp, ?_⟩
    rw [hDone]
    exact ⟨by simp [round, hCalls], rfl, hLeftover⟩
  · next hShort =>
    obtain ⟨length', hMore, hLength'⟩ := hRound
    refine ⟨delivered, str :: packets, rfl, ?_⟩
    rw [hMore]
    refine ⟨by simp [round, hCalls], rfl, hStream, fun hNil => (by cases hNil), ?_⟩
    intro str' tail hEq
    cases hEq
    exact ⟨hLength', by omega⟩

/-- The begin of a call. -/
theorem Holds.receive (h : r.Holds wire delivered rest []) (hPoint : r.point = .call)
    (hLen : ∀ str ∈ rest, str.length < 2 ^ 31 - 6) :
    ∃ delivered' rest', delivered' ++ rest' = delivered ++ rest ∧
      r.receive.Holds wire delivered' rest' [] := by
  obtain ⟨hCalls, hPart⟩ := h
  rw [hPoint] at hPart
  obtain ⟨-, hStream⟩ := hPart
  rw [Receiver.receive]
  split
  · next hEmpty =>
    rw [hEmpty] at hStream
    refine ⟨delivered, rest, rfl, hCalls, rfl, hStream, fun _ => rfl, fun str tail _ => ?_⟩
    exact ⟨.inl rfl, by rw [length_packetBuffer]; simp⟩
  · next hSome =>
    cases rest with
    | nil =>
      rw [List.flatMap_nil] at hStream
      exact absurd (List.append_eq_nil_iff.mp hStream).1 hSome
    | cons str packets =>
      have hBytes : r.buffer ++ [] ++ wire = (str :: packets).flatMap packetBuffer := by
        rw [List.append_nil]
        exact hStream
      exact holds_round (hLen str List.mem_cons_self) (by simpa using hCalls) hBytes (.inl rfl)
        fun hNil => absurd hNil hSome

/-- A result of `recv`: bytes that were on their way, or an error. -/
theorem Holds.recv {result : Bytes} {length : UInt32} (h : r.Holds wire delivered rest [])
    (hPoint : r.point = .loop result length) (hLen : ∀ str ∈ rest, str.length < 2 ^ 31 - 6)
    {chunk : Chunk} {unread : Bytes} (hWire : wire = chunk.bytes ++ unread) :
    ∃ delivered' rest', delivered' ++ rest' = delivered ++ rest ∧
      (r.recv result length (.data chunk)).Holds unread delivered' rest' [] := by
  obtain ⟨hCalls, hPart⟩ := h
  rw [hPoint] at hPart
  obtain ⟨-, hStream, -, hNext⟩ := hPart
  have hRecv : r.recv result length (.data chunk) =
      r.round (absorb r.buffer result length chunk.bytes) := by
    simp [Receiver.recv, TcpSocket.recvOnce, chunk.nonempty]
  rw [hWire] at hStream
  cases rest with
  | nil =>
    rw [List.flatMap_nil, List.append_eq_nil_iff, List.append_eq_nil_iff] at hStream
    exact absurd hStream.2.1 chunk.nonempty
  | cons str packets =>
    rw [hRecv]
    rw [← List.append_assoc] at hStream
    exact holds_round (hLen str List.mem_cons_self) (by simpa using hCalls) hStream
      (hNext str packets rfl).1 fun _ => chunk.nonempty

/-- A result of `recv` without bytes. -/
theorem Holds.recv_failed (h : r.Holds wire delivered rest []) (result : Bytes) (length : UInt32)
    {event : RecvEvent} (hEvent : ∀ chunk, event ≠ .data chunk) :
    ∃ errors, (r.recv result length event).Holds wire delivered rest errors := by
  cases hOnce : TcpSocket.recvOnce event with
  | none =>
    refine ⟨[], ?_⟩
    rw [Receiver.recv, hOnce]
    exact h
  | some outcome =>
    obtain ⟨error, s⟩ := outcome
    have hError : error ≠ .SUCCESS := by
      cases event with
      | data chunk => exact absurd rfl (hEvent chunk)
      | closed =>
        cases hOnce
        decide
      | failed errno =>
        rw [TcpSocket.recvOnce] at hOnce
        split at hOnce
        · cases hOnce
        · cases hOnce
          exact TcpSocket.getLastError_ne_success errno
    refine ⟨[error], ?_⟩
    rw [Receiver.recv, hOnce]
    simp only [ne_eq, hError, not_false_eq_true, if_true]
    exact ⟨by simpa using h.1, rfl, by simpa using hError⟩

/-- More packets are on their way. -/
theorem Holds.sent {errors : List ClockError} (h : r.Holds wire delivered rest errors)
    (str : Bytes) :
    r.Holds (wire ++ packetBuffer str) delivered (rest ++ [str]) errors := by
  refine ⟨h.1, ?_⟩
  have hPart := h.2
  cases hPoint : r.point with
  | call =>
    rw [hPoint] at hPart
    refine ⟨hPart.1, ?_⟩
    rw [← List.append_assoc, hPart.2]
    simp
  | loop result length =>
    rw [hPoint] at hPart
    obtain ⟨hErrors, hStream, hZero, hNext⟩ := hPart
    refine ⟨hErrors, ?_, fun hNil => by simp at hNil, fun str' tail hEq => ?_⟩
    · rw [← List.append_assoc, hStream]
      simp
    · cases rest with
      | nil =>
        rw [List.flatMap_nil, List.append_eq_nil_iff] at hStream
        rw [hStream.1, hZero rfl]
        exact ⟨.inl rfl, by rw [length_packetBuffer]; simp⟩
      | cons first packets =>
        cases hEq
        exact hNext _ _ rfl
  | ended =>
    rw [hPoint] at hPart
    exact hPart
  | undefined step =>
    rw [hPoint] at hPart
    exact hPart

end Receiver

namespace PacketChannel

variable {Thread : Type} {s s' : PacketChannel Thread}

/-- A message that the channel is used for. -/
def Fits (channel : Channel) (m : Message Unit) : Prop :=
  channel = .packets ∧ m.vec.length < 2 ^ 31 - 6

/-- What was passed to `writePacket`. -/
def packets (s : PacketChannel Thread) : List Bytes :=
  (s.writer.passed .packets).map Message.vec

/-- What holds in every state of a run. -/
structure Inv (s : PacketChannel Thread) : Prop where
  writer : AsyncWriter.Inv .tcp s.writer
  carries : AsyncWriter.Carries Fits s.writer
  holds : ∃ delivered rest errors, s.packets = delivered ++ rest ∧
    s.receiver.Holds s.wire delivered rest errors

theorem fresh_inv : Inv (fresh : PacketChannel Thread) where
  writer := AsyncWriter.fresh_inv
  carries := ⟨fun channel m hMem => (by cases hMem), fun t channel m hUser => (by cases hUser)⟩
  holds := ⟨[], [], [], rfl, rfl, rfl, rfl⟩

/-- The packets that are passed on have the length that the receiver can read. -/
theorem Inv.length_lt (h : Inv s) {str : Bytes} (hMem : str ∈ s.packets) :
    str.length < 2 ^ 31 - 6 := by
  obtain ⟨m, hPassed, rfl⟩ := List.mem_map.mp hMem
  refine (h.carries.enqueued .packets m ?_).2
  rw [h.writer.flow.split]
  exact List.mem_append_left _ hPassed

variable [DecidableEq Thread] [Fintype Thread]

theorem Inv.writerStep (h : Inv s) {act : Act Thread Unit} {event : SendEvent}
    {writer : AsyncWriter Thread Unit} (hSends : Sends s (.writer act event))
    (hStep : s.writer.step .tcp act = some writer) :
    Inv { s with writer := writer, wire := s.wire ++ s.sentBy act event } := by
  have hCarries : AsyncWriter.Carries Fits writer := by
    refine h.carries.step (fun t channel m hAct => ?_) hStep
    subst hAct
    exact hSends
  refine ⟨h.writer.step hStep, hCarries, ?_⟩
  obtain ⟨delivered, rest, errors, hPackets, hHolds⟩ := h.holds
  rcases AsyncWriter.step_passed hStep with
    ⟨channel, finish, tmp, rfl, hPoint, hPassed⟩ | ⟨hPassed, hOther⟩
  · obtain ⟨rfl, -⟩ := h.carries.enqueued channel tmp (h.writer.call_mem hPoint)
    have hEvent : event = .accepted (packetBuffer tmp.vec).length := by
      have hWhole : takesWhole s.writer.worker event = true := hSends
      rw [hPoint] at hWhole
      exact of_decide_eq_true hWhole
    have hSent : s.sentBy .worker event = packetBuffer tmp.vec := by
      simp only [sentBy, hPoint, TcpSocket.writePacket, ne_eq, not_true_eq_false, if_false]
      rw [TcpSocket.write_bytes rfl, hEvent, SendEvent.taken, List.take_length]
    refine ⟨delivered, rest ++ [tmp.vec], errors, ?_, ?_⟩
    · simp [packets, hPassed, ← List.append_assoc, ← hPackets]
    · rw [hSent]
      exact hHolds.sent tmp.vec
  · have hSent : s.sentBy act event = [] := by
      unfold sentBy
      split
      · next hPoint => exact absurd hPoint (hOther rfl _ _ _)
      · next hPoint => exact absurd hPoint (hOther rfl _ _ _)
      · rfl
    refine ⟨delivered, rest, errors, ?_, ?_⟩
    · simpa [packets, hPassed] using hPackets
    · rw [hSent, List.append_nil]
      exact hHolds

theorem Inv.step (h : Inv s) {act : ChannelAct Thread} (hSends : Sends s act)
    (hStep : s.step act = some s') : Inv s' := by
  obtain ⟨delivered, rest, errors, hPackets, hHolds⟩ := h.holds
  have hPart := hHolds.2
  have hLen : ∀ str ∈ rest, str.length < 2 ^ 31 - 6 := fun str hMem =>
    h.length_lt (by rw [hPackets]; exact List.mem_append_right _ hMem)
  cases act with
  | writer act event =>
    obtain ⟨writer, hWriter, rfl⟩ := Option.map_eq_some_iff.mp hStep
    exact h.writerStep hSends hWriter
  | receive =>
    rw [PacketChannel.step] at hStep
    split at hStep <;> cases hStep
    next hPoint =>
    rw [hPoint] at hPart
    obtain rfl := hPart.1
    obtain ⟨delivered', rest', hSplit, hNext⟩ := hHolds.receive hPoint hLen
    exact ⟨h.writer, h.carries, delivered', rest', [], hPackets.trans hSplit.symm, hNext⟩
  | recv event =>
    rw [PacketChannel.step] at hStep
    split at hStep <;> try cases hStep
    next result length hPoint =>
    rw [hPoint] at hPart
    obtain rfl := hPart.1
    cases event with
    | data chunk =>
      obtain ⟨⟨unread, hWire⟩, hStep⟩ := Option.ite_none_right_eq_some.mp hStep
      obtain rfl := Option.some.inj hStep
      obtain ⟨delivered', rest', hSplit, hNext⟩ := hHolds.recv hPoint hLen hWire.symm
      refine ⟨h.writer, h.carries, delivered', rest', [], hPackets.trans hSplit.symm, ?_⟩
      dsimp only
      rwa [← hWire, List.drop_left]
    | closed =>
      obtain rfl := Option.some.inj hStep
      have hEvent (chunk : Chunk) : RecvEvent.closed ≠ .data chunk := by simp
      obtain ⟨errors, hNext⟩ := hHolds.recv_failed result length hEvent
      exact ⟨h.writer, h.carries, delivered, rest, errors, hPackets, hNext⟩
    | failed errno =>
      obtain rfl := Option.some.inj hStep
      have hEvent (chunk : Chunk) : RecvEvent.failed errno ≠ .data chunk := by simp
      obtain ⟨errors, hNext⟩ := hHolds.recv_failed result length hEvent
      exact ⟨h.writer, h.carries, delivered, rest, errors, hPackets, hNext⟩

/-- Nothing goes on: neither the calls of the users nor the worker nor the receiver,
who waits for bytes of which none is on its way. -/
def Halted (s : PacketChannel Thread) : Prop :=
  ¬ AsyncWriter.CanMove .tcp s.writer ∧ s.step .receive = none ∧
    ∀ chunk, s.step (.recv (.data chunk)) = none

omit [DecidableEq Thread] [Fintype Thread] in
/-- A byte on its way can be received. -/
theorem wire_eq_nil {result : Bytes} {length : UInt32}
    (h : ∀ chunk, s.recvStep result length (.data chunk) = none) : s.wire = [] := by
  by_contra hWire
  obtain ⟨b, unread, hCons⟩ := List.exists_cons_of_ne_nil hWire
  have hStep := h ⟨[b], by simp, by simp⟩
  simp [recvStep, hCons] at hStep

/-- From `writePacketAsync` to the callback on the other end: in every run, with any threads
that enqueue packets, whatever the interleaving and however the bytes are cut on their way,
the callback gets the packets in the order in which they were enqueued, each once and
unchanged, then at most one error; no call of `receivePacket` is undefined; and when nothing
goes on any more, without an error, all packets have arrived. The packets are not empty and
shorter than `2 ^ 31 - 6` bytes, and `send` takes each frame whole. -/
theorem packets_arrive {acts : List (ChannelAct Thread)}
    (hRun : StepRun.run step fresh acts = some s) (hSends : StepRun.Along step Sends fresh acts) :
    ∃ (delivered : List Bytes) (errors : List ClockError),
      s.receiver.calls = delivered.map (fun packet => (.SUCCESS, packet)) ++
        errors.map (fun error => (error, [])) ∧
      (∀ error ∈ errors, error ≠ .SUCCESS) ∧ errors.length ≤ 1 ∧
      delivered <+: (s.writer.enqueued .packets).map Message.vec ∧
      (∀ undefined, s.receiver.point ≠ .undefined undefined) ∧
      (errors = [] → Halted s → delivered = (s.writer.enqueued .packets).map Message.vec) := by
  have hInv : Inv s := StepRun.run_invariant_along
    (fun _ _ _ hInv hCondition hStep => hInv.step hCondition hStep) hRun hSends fresh_inv
  obtain ⟨delivered, rest, errors, hPackets, hHolds⟩ := hInv.holds
  obtain ⟨hCalls, hPart⟩ := hHolds
  refine ⟨delivered, errors, hCalls, ?_, ?_, ?_, ?_, ?_⟩
  · cases hPoint : s.receiver.point <;> rw [hPoint] at hPart
    case ended => exact hPart.2
    case undefined => exact hPart.elim
    all_goals
      rw [hPart.1]
      simp
  · cases hPoint : s.receiver.point <;> rw [hPoint] at hPart
    case ended => exact hPart.1.le
    case undefined => exact hPart.elim
    all_goals
      rw [hPart.1]
      simp
  · have hPassed : s.writer.passed .packets <+: s.writer.enqueued .packets := by
      rw [hInv.writer.flow.split]
      exact List.prefix_append _ _
    exact List.IsPrefix.trans ⟨rest, hPackets.symm⟩ (hPassed.map _)
  · intro undefined hPoint
    rw [hPoint] at hPart
    exact hPart
  · intro hNone hHalt
    subst hNone
    obtain ⟨hWriter, hReceive, hRecv⟩ := hHalt
    have hRest : rest = [] := by
      cases hPoint : s.receiver.point with
      | call => simp [PacketChannel.step, hPoint] at hReceive
      | ended =>
        rw [hPoint] at hPart
        cases hPart.1
      | undefined undefined =>
        rw [hPoint] at hPart
        exact hPart.elim
      | loop result length =>
        rw [hPoint] at hPart
        simp only [PacketChannel.step, hPoint] at hRecv
        obtain ⟨-, hStream, -, hNext⟩ := hPart
        rw [wire_eq_nil hRecv, List.append_nil] at hStream
        cases rest with
        | nil => rfl
        | cons str packets =>
          have hShort := (hNext str packets rfl).2
          rw [hStream, List.flatMap_cons, List.length_append] at hShort
          omega
    rw [hRest, List.append_nil] at hPackets
    rw [← hPackets, packets, hInv.writer.passed_of_halt hWriter]

/-- A thread enqueues a packet of one byte, which is sent and received in two
pieces. -/
def onePacket : List (ChannelAct Bool) :=
  [.writer (.call true .packets ⟨[1], ()⟩) (.accepted 7), .writer (.user true) (.accepted 7)] ++
    List.replicate 6 (.writer .worker (.accepted 7)) ++
    [.receive, .recv (.data ⟨[124, 0, 0], by decide, by decide⟩),
      .recv (.data ⟨[0, 1, 1, 124], by decide, by decide⟩)]

theorem packets_arrive_one :
    ∃ s, StepRun.run step fresh onePacket = some s ∧ s.receiver.calls = [(.SUCCESS, [1])] ∧
      s.receiver.calls.length ≤ (s.writer.enqueued .packets).length + 1 := by
  obtain ⟨s, hRun, hCalls⟩ : ∃ s, StepRun.run step fresh onePacket = some s ∧
      s.receiver.calls = [(.SUCCESS, [1])] := ⟨_, rfl, rfl⟩
  have hSends : StepRun.Along step Sends fresh onePacket := by decide
  obtain ⟨delivered, errors, hSplit, -, hErrors, hPrefix, -⟩ := packets_arrive hRun hSends
  have hLength := hPrefix.length_le
  rw [List.length_map] at hLength
  refine ⟨s, hRun, hCalls, ?_⟩
  rw [hSplit, List.length_append, List.length_map, List.length_map]
  omega

end PacketChannel

end clockUtils.sockets
