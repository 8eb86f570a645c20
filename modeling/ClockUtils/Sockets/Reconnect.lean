import ClockUtils.Sockets.Chunking

namespace clockUtils.sockets

/-- An IPv4 address, and the value that stands for none: `INADDR_NONE`. -/
abbrev IPv4 := UInt32

def NO_IP : IPv4 := 0xFFFFFFFF

def INADDR_ANY : IPv4 := 0

namespace TcpSocket

/-- The socket that the constructor makes. -/
def fresh : TcpSocket where
  status := .INACTIVE
  buffer := []

/-- What the operating system answers to the calls of `connect`: the `errno` of
each call that fails, whether `select` reports the socket as writable before
the timeout, and whether `SO_ERROR` is set then. -/
structure ConnectCalls where
  socket : Option Errno
  fcntlGet : Option Errno
  fcntlSet : Option Errno
  connect : Option Errno
  selected : Bool
  valopt : Bool

/-- The part of `connect` behind `::connect`. -/
def finishConnect (os : ConnectCalls) (socket : TcpSocket) : ClockError × TcpSocket :=
  match os.connect with
  | none => (.SUCCESS, { socket with status := .CONNECTED })
  | some errno =>
    if getLastError errno = .IN_PROGRESS then
      if os.selected then
        if os.valopt then (.CONNECTION_FAILED, socket)
        else (.SUCCESS, { socket with status := .CONNECTED })
      else (.TIMEOUT, socket)
    else (getLastError errno, socket)

def connect (os : ConnectCalls) (socket : TcpSocket) (remoteIP : IPv4) (remotePort : UInt16) :
    ClockError × TcpSocket :=
  if remotePort = 0 then (.INVALID_PORT, socket)
  else if remoteIP = NO_IP then (.INVALID_IP, socket)
  else if remoteIP = INADDR_ANY then (.INVALID_IP, socket)
  else if socket.status ≠ .INACTIVE then (.INVALID_USAGE, socket)
  else
    match os.socket, os.fcntlGet, os.fcntlSet with
    | some errno, _, _ => (getLastError errno, socket)
    | none, some errno, _ => (getLastError errno, socket)
    | none, none, some errno => (getLastError errno, socket)
    | none, none, none => finishConnect os socket

/-- `close` ends the descriptor and the threads, and resets the status. -/
def close (socket : TcpSocket) : TcpSocket :=
  if socket.status = .INACTIVE then socket else { socket with status := .INACTIVE }

/-- The states of a socket on its first connection: behind a successful
`connect`, and behind calls of `receivePacket` that return, whatever `recv`
hands over. -/
inductive OnFirstConnection : TcpSocket → Prop where
  | connect {os : ConnectCalls} {socket : TcpSocket} {remoteIP : IPv4} {remotePort : UInt16}
      (hconnect : fresh.connect os remoteIP remotePort = (.SUCCESS, socket)) :
      OnFirstConnection socket
  | receivePacket {socket : TcpSocket} {events : List RecvEvent} {received : Received}
      (h : OnFirstConnection socket)
      (hcall : receivePacket socket events = .ok (some received)) :
      OnFirstConnection received.socket

/-- A successful `connect` only changes the status. -/
theorem connect_success {os : ConnectCalls} {socket socket' : TcpSocket} {remoteIP : IPv4}
    {remotePort : UInt16} (h : socket.connect os remoteIP remotePort = (.SUCCESS, socket')) :
    socket' = { socket with status := .CONNECTED } := by
  have herror : ∀ errno, (getLastError errno, socket) ≠ (.SUCCESS, socket') := by
    intro errno heq
    exact getLastError_ne_success errno (Prod.mk.inj heq).1
  have hfinish : finishConnect os socket = (.SUCCESS, socket') →
      socket' = { socket with status := .CONNECTED } := by
    intro h
    rw [finishConnect] at h
    split at h
    · exact (Prod.mk.inj h).2.symm
    · next errno _ =>
      split at h
      · split at h
        · split at h
          · cases h
          · exact (Prod.mk.inj h).2.symm
        · cases h
      · exact absurd h (herror errno)
  rw [connect] at h
  split at h
  · cases h
  · split at h
    · cases h
    · split at h
      · cases h
      · split at h
        · cases h
        · split at h
          · exact absurd h (herror _)
          · exact absurd h (herror _)
          · exact absurd h (herror _)
          · exact hfinish h

theorem buffer_close (socket : TcpSocket) : socket.close.buffer = socket.buffer := by
  rw [close]
  split <;> rfl

/-- A packet at the front of the stream is its first frame. -/
theorem frame_packetBuffer {str : Bytes} (hlen : str.length < 2 ^ 31) (tail : Bytes) :
    frame (packetBuffer str ++ tail) = .complete str tail := by
  obtain ⟨a, b, c, d, hbuffer, hvalue⟩ := packetBuffer_eq str
  have hfield : fieldValue (packetBuffer str ++ tail) = str.length := by
    rw [hbuffer]
    exact hvalue (by omega)
  have hlength := length_packetBuffer str
  have hdrop : (packetBuffer str ++ tail).drop 5 = str ++ [bar] ++ tail := by
    rw [hbuffer]
    rfl
  rw [frame, hfield, List.length_append, hlength, if_neg (by omega), if_neg (by omega),
    if_pos (by omega), hdrop, List.append_assoc, List.take_left, ← hlength, List.drop_left]

theorem delimited_packets {strs : List Bytes} (hlen : ∀ str ∈ strs, str.length < 2 ^ 31) :
    Delimited (strs.flatMap packetBuffer) strs .waiting := by
  induction strs with
  | nil => exact .incomplete (fun c hc => by cases hc) rfl
  | cons str strs ih =>
    rw [List.forall_mem_cons] at hlen
    rw [List.flatMap_cons]
    refine .complete (fun c hc => ?_) (frame_packetBuffer hlen.1 _) (ih hlen.2)
    exact (Option.some.inj hc).symm

/-- Whatever packets are sent and however their bytes are cut, the calls return
these packets and then wait. -/
def ReturnsPackets (socket : TcpSocket) : Prop :=
  ∀ strs : List Bytes, (∀ str ∈ strs, str.length < 2 ^ 31) → ∀ chunks,
    chunkBytes chunks = strs.flatMap packetBuffer →
      ∀ k, nthCall k socket (chunks.map .data) = endings strs .waiting k

theorem returnsPackets_empty : ReturnsPackets ⟨.CONNECTED, []⟩ := by
  intro strs hlen chunks hchunks k
  exact (delimited_packets hlen).nthOf_eq hchunks k

/-- The first call on one packet behind stale bytes does not return it unless the
length field, which the stale bytes are part of, says so. -/
theorem fieldValue_of_returns {buffer : Bytes} (hne : buffer ≠ [])
    (h : ReturnsPackets ⟨.CONNECTED, buffer⟩) {str : Bytes} (hlen : str.length < 2 ^ 31) :
    fieldValue (buffer ++ packetBuffer str) = str.length := by
  have hcall := @receivePacket_chunks buffer (singles (packetBuffer str)) (.inl hne)
  have hfirst := h [str] (by simpa using hlen) (singles (packetBuffer str))
    (by rw [chunkBytes_singles]; simp) 0
  rw [nthCall] at hfirst
  rw [chunkBytes_singles] at hcall
  cases hframe : frame (buffer ++ packetBuffer str) with
  | undecodable =>
    rw [hframe] at hcall
    rw [hcall] at hfirst
    cases hfirst
  | incomplete =>
    rw [hframe] at hcall
    rw [hcall] at hfirst
    cases hfirst
  | complete packet leftover =>
    rw [hframe] at hcall
    obtain ⟨kept, rest, -, hrun, -⟩ := hcall
    rw [hrun] at hfirst
    obtain rfl : packet = str := by simpa [seen, endings] using hfirst
    obtain ⟨header, closing, hheld, hheader, hvalue⟩ := frame_complete hframe
    rw [hheld, List.append_assoc, fieldValue_append (Nat.le_of_eq hheader.symm), hvalue]

/-- Stale bytes spoil an empty packet or the packet with the single byte 0. -/
theorem buffer_eq_nil_of_returns {buffer : Bytes} (h : ReturnsPackets ⟨.CONNECTED, buffer⟩) :
    buffer = [] := by
  by_contra hne
  have hempty := fieldValue_of_returns hne h (show ([] : Bytes).length < 2 ^ 31 by decide)
  have hone := fieldValue_of_returns hne h (show ([0] : Bytes).length < 2 ^ 31 by decide)
  by_cases hfive : 5 ≤ buffer.length
  · rw [fieldValue_append hfive, List.length_nil] at hempty
    rw [fieldValue_append hfive, hempty] at hone
    cases hone
  · have hpos : 0 < fieldValue (buffer ++ packetBuffer []) := by
      have hlength : buffer.length < 5 := by omega
      match buffer, hne, hlength with
      | [_], _, _ => simp [packetBuffer, bar, fieldValue]
      | [_, b], _, _ => simp [packetBuffer, bar, fieldValue]
      | [_, b, c], _, _ => simp [packetBuffer, bar, fieldValue]
      | [_, b, c, d], _, _ => simp [packetBuffer, bar, fieldValue]
    rw [hempty] at hpos
    cases hpos

/-- A socket that is closed and connected again returns exactly the packets of
the second connection, and answers to every second stream as a new socket
does, exactly when no byte of the first connection is in its buffer at the
time of `close`. -/
theorem reconnect_returnsPackets_iff :
    ∀ socket, OnFirstConnection socket → ∀ os remoteIP remotePort socket',
      socket.close.connect os remoteIP remotePort = (.SUCCESS, socket') →
        (ReturnsPackets socket' ↔ socket.buffer = []) ∧
        ((∀ events k, nthCall k socket' events = nthCall k ⟨.CONNECTED, []⟩ events) ↔
          socket.buffer = []) := by
  intro socket _ os remoteIP remotePort socket' hconnect
  have hsocket : socket' = ⟨.CONNECTED, socket.buffer⟩ := by
    rw [connect_success hconnect, buffer_close]
  rw [hsocket]
  constructor
  · constructor
    · exact buffer_eq_nil_of_returns
    · intro hempty
      rw [hempty]
      exact returnsPackets_empty
  · constructor
    · intro hsame
      apply buffer_eq_nil_of_returns
      intro strs hlen chunks hchunks k
      rw [hsame]
      exact returnsPackets_empty strs hlen chunks hchunks k
    · intro hempty events k
      rw [hempty]

/-- The answers of an operating system on which everything succeeds. -/
def allSucceed : ConnectCalls where
  socket := none
  fcntlGet := none
  fcntlSet := none
  connect := none
  selected := true
  valopt := false

/-- A first connection on which an empty packet arrives in a chunk of its own. -/
theorem reconnect_returnsPackets_clean :
    ∃ received socket', receivePacket ⟨.CONNECTED, []⟩
        [.data ⟨[124, 0, 0, 0, 0, 124], by decide, by decide⟩] = .ok (some received) ∧
      received.socket.close.connect allSucceed 16777343 80 = (.SUCCESS, socket') ∧
      ReturnsPackets socket' := by
  have hfirst : fresh.connect allSucceed 16777343 80 = (.SUCCESS, ⟨.CONNECTED, []⟩) := rfl
  have hcall : receivePacket ⟨.CONNECTED, []⟩
      [.data ⟨[124, 0, 0, 0, 0, 124], by decide, by decide⟩] = .ok (some _) := rfl
  refine ⟨_, _, hcall, rfl, ?_⟩
  exact (reconnect_returnsPackets_iff _ (.receivePacket (.connect hfirst) hcall) allSucceed 16777343
    80 _ rfl).1.mpr rfl

/-- The first connection sends an empty packet and the bar of a second one in one
chunk; behind `close` and `connect` the empty packet of the second connection
is not returned. -/
theorem reconnect_keeps_stale_byte :
    ∃ socket socket', OnFirstConnection socket ∧
      socket.close.connect allSucceed 16777343 80 = (.SUCCESS, socket') ∧
      nthCall 0 socket' [.data ⟨packetBuffer [], by decide, by decide⟩] = .waiting ∧
      ¬ ReturnsPackets socket' := by
  have hfirst : fresh.connect allSucceed 16777343 80 = (.SUCCESS, ⟨.CONNECTED, []⟩) := rfl
  have hcall : receivePacket ⟨.CONNECTED, []⟩
      [.data ⟨[124, 0, 0, 0, 0, 124, 124], by decide, by decide⟩] = .ok (some _) := rfl
  refine ⟨_, _, .receivePacket (.connect hfirst) hcall, rfl, rfl, fun h => ?_⟩
  have hwrong := h [[]] (by decide) [⟨packetBuffer [], by decide, by decide⟩] rfl 0
  cases hwrong

end TcpSocket

end clockUtils.sockets
