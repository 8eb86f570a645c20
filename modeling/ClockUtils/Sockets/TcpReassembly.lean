import ClockUtils.Sockets.TcpSocket

namespace clockUtils.sockets

/-- All bytes that a sequence of chunks carries. -/
def chunkBytes (chunks : List Chunk) : Bytes :=
  chunks.flatMap Chunk.bytes

/-- The bytes begin with a complete packet. -/
def HasPacket (bytes : Bytes) : Prop :=
  ∃ str, str.length < 2 ^ 31 - 6 ∧ packetBuffer str <+: bytes

/-- The length of a packet can be read off its front, so a packet at the front
of a byte string is the only one there. -/
theorem packet_unique {str str' bytes : Bytes} (hlen : str.length < 2 ^ 31 - 6)
    (hlen' : str'.length < 2 ^ 31 - 6) (h : packetBuffer str <+: bytes)
    (h' : packetBuffer str' <+: bytes) : str = str' := by
  obtain ⟨tail, htail⟩ := h
  obtain ⟨tail', htail'⟩ := h'
  have hfive : 5 ≤ bytes.length := by
    rw [← htail, List.length_append, length_packetBuffer]
    omega
  rw [← List.append_nil bytes] at htail htail'
  have hfirst := packetLength_eq hlen htail.symm hfive
  have hsecond := packetLength_eq hlen' htail'.symm hfive
  have hvalue : str.length = str'.length := by
    have hsame : UInt32.ofNat str.length = UInt32.ofNat str'.length := by
      simpa [hfirst] using hsecond
    have hnat := congrArg UInt32.toNat hsame
    rwa [UInt32.toNat_ofNat_of_lt' (by rw [UInt32.size]; omega),
      UInt32.toNat_ofNat_of_lt' (by rw [UInt32.size]; omega)] at hnat
  have hbuffers : packetBuffer str = packetBuffer str' := by
    apply (List.append_inj (htail.trans htail'.symm) _).1
    rw [length_packetBuffer, length_packetBuffer, hvalue]
  obtain ⟨_, _, _, _, hbuffer, -⟩ := packetBuffer_eq str
  obtain ⟨_, _, _, _, hbuffer', -⟩ := packetBuffer_eq str'
  rw [hbuffer, hbuffer'] at hbuffers
  simp only [List.cons.injEq, List.append_cancel_right_eq] at hbuffers
  exact hbuffers.2.2.2.2.2

/-- On a stream that goes on with the packet of `str`, too few bytes of it hold
no packet at all. -/
theorem not_hasPacket {str held unread tail : Bytes} (hlen : str.length < 2 ^ 31 - 6)
    (hstream : held ++ unread = packetBuffer str ++ tail)
    (hshort : held.length < (packetBuffer str).length) : ¬ HasPacket held := by
  rintro ⟨str', hlen', hpacket⟩
  have hwhole : packetBuffer str' <+: packetBuffer str ++ tail :=
    hpacket.trans ⟨unread, hstream⟩
  have hsame := packet_unique hlen hlen' (List.prefix_append _ tail) hwhole
  have hle := hpacket.length_le
  rw [← hsame] at hle
  omega

namespace TcpSocket

/-- A call that has taken the chunks up to `rest` only read from the socket
while the bytes it already held, the buffered ones and those it had read
itself, did not contain a complete packet. -/
def ReadsWhileIncomplete (held : Bytes) (chunks rest : List Chunk) : Prop :=
  ∃ taken, chunks = taken ++ rest ∧
    ∀ k < taken.length, ¬ HasPacket (held ++ chunkBytes (taken.take k))

/-- The receive loop on a stream that goes on with the packet of `str`. The stream cannot
end inside this packet. -/
theorem receiveLoop_spec {str tail : Bytes} (hlen : str.length < 2 ^ 31 - 6) {socket : TcpSocket}
    {result : Bytes} {length : UInt32} {chunks : List Chunk} (after : List RecvEvent)
    (hstream : result ++ chunkBytes chunks = packetBuffer str ++ tail)
    (hlength : LengthFor str result length) (hshort : result.length < (packetBuffer str).length) :
    ∃ leftover rest, receiveLoop socket result length (chunks.map .data ++ after) =
        .ok (some ⟨.SUCCESS, some str, { socket with buffer := leftover },
          rest.map .data ++ after⟩) ∧
      leftover ++ chunkBytes rest = tail ∧ ReadsWhileIncomplete result chunks rest := by
  induction chunks generalizing result length with
  | nil =>
    have htotal := congrArg List.length hstream
    simp only [chunkBytes, List.flatMap_nil, List.append_nil, List.length_append] at htotal
    omega
  | cons chunk chunks ih =>
    have hstream' : result ++ chunk.bytes ++ chunkBytes chunks = packetBuffer str ++ tail := by
      simpa [chunkBytes] using hstream
    have hround := absorb_spec socket.buffer hlen hstream' hlength
      (fun _ => chunk.nonempty)
    have hstep : receiveLoop socket result length ((chunk :: chunks).map .data ++ after) =
        absorb socket.buffer result length chunk.bytes >>=
          afterRound socket (chunks.map .data ++ after) (fun result length =>
            receiveLoop socket result length (chunks.map .data ++ after)) := by
      simp only [List.map_cons, List.cons_append, receiveLoop, recvOnce, ne_eq, not_true_eq_false, if_false,
        chunk.nonempty]
    rw [hstep]
    split at hround
    · obtain ⟨leftover, hdone, hleftover⟩ := hround
      refine ⟨leftover, chunks, by rw [hdone]; rfl, hleftover, [chunk], rfl, ?_⟩
      intro k hk
      obtain rfl : k = 0 := by simpa using hk
      simpa [chunkBytes] using not_hasPacket hlen hstream hshort
    · next hincomplete =>
      obtain ⟨length', hmore, hlength'⟩ := hround
      obtain ⟨leftover, rest, hrun, hleftover, taken, rfl, hreads⟩ :=
        ih hstream' hlength' (by omega)
      refine ⟨leftover, rest, by rw [hmore]; exact hrun, hleftover, chunk :: taken, rfl, ?_⟩
      intro k hk
      cases k with
      | zero => simpa [chunkBytes] using not_hasPacket hlen hstream hshort
      | succ k =>
        have h := hreads k (by simpa using hk)
        simpa [chunkBytes] using h

/-- One call of `receivePacket` on such a stream, with any part of it buffered. -/
theorem receivePacket_spec {str tail : Bytes} (hlen : str.length < 2 ^ 31 - 6) {socket : TcpSocket}
    (hstatus : socket.status = .CONNECTED) {chunks : List Chunk} (after : List RecvEvent)
    (hstream : socket.buffer ++ chunkBytes chunks = packetBuffer str ++ tail) :
    ∃ leftover rest, receivePacket socket (chunks.map .data ++ after) =
        .ok (some ⟨.SUCCESS, some str, { socket with buffer := leftover },
          rest.map .data ++ after⟩) ∧
      leftover ++ chunkBytes rest = tail ∧ ReadsWhileIncomplete socket.buffer chunks rest := by
  rw [receivePacket, if_neg (by simp [hstatus])]
  split
  · next hempty =>
    rw [hempty] at hstream ⊢
    exact receiveLoop_spec hlen after hstream (.inl rfl) (by rw [length_packetBuffer]; simp)
  · next hne =>
    have hstream' : socket.buffer ++ [] ++ chunkBytes chunks = packetBuffer str ++ tail := by
      rwa [List.append_nil]
    have hlength : LengthFor str socket.buffer 0 := .inl rfl
    have hround := absorb_spec socket.buffer hlen hstream' hlength (fun h => absurd h hne)
    rw [List.append_nil] at hround
    split at hround
    · obtain ⟨leftover, hdone, hleftover⟩ := hround
      exact ⟨leftover, chunks, by rw [hdone]; rfl, hleftover, [], rfl, by simp⟩
    · obtain ⟨length, hmore, hlength⟩ := hround
      rw [hmore]
      exact receiveLoop_spec hlen after hstream hlength (by omega)

/-- Successive calls of `receivePacket` that all succeed with the given
packets, each reading only while it holds no complete packet. What `recv`
returns behind the chunks does not matter to them. -/
inductive Receives (after : List RecvEvent) :
    TcpSocket → List Chunk → List Bytes → TcpSocket → List Chunk → Prop where
  | nil (socket : TcpSocket) (chunks : List Chunk) : Receives after socket chunks [] socket chunks
  | cons {socket socket' socket'' : TcpSocket} {chunks chunks' chunks'' : List Chunk} {str : Bytes}
      {strs : List Bytes}
      (hcall : receivePacket socket (chunks.map .data ++ after) =
        .ok (some ⟨.SUCCESS, some str, socket', chunks'.map .data ++ after⟩))
      (hreads : ReadsWhileIncomplete socket.buffer chunks chunks')
      (hrest : Receives after socket' chunks' strs socket'' chunks'') :
      Receives after socket chunks (str :: strs) socket'' chunks''

theorem receives_of_stream (after : List RecvEvent) {strs : List Bytes}
    (hlen : ∀ str ∈ strs, str.length < 2 ^ 31 - 6)
    {socket : TcpSocket} (hstatus : socket.status = .CONNECTED) {chunks : List Chunk}
    (hstream : socket.buffer ++ chunkBytes chunks = strs.flatMap packetBuffer) :
    Receives after socket chunks strs { socket with buffer := [] } [] := by
  induction strs generalizing socket chunks with
  | nil =>
    obtain ⟨hbuffer, hchunks⟩ := List.append_eq_nil_iff.mp hstream
    cases chunks with
    | nil =>
      rw [← hbuffer]
      exact .nil _ _
    | cons chunk chunks =>
      simp [chunkBytes, chunk.nonempty] at hchunks
  | cons str strs ih =>
    rw [List.forall_mem_cons] at hlen
    rw [List.flatMap_cons] at hstream
    obtain ⟨leftover, rest, hcall, hleftover, hreads⟩ := receivePacket_spec hlen.1 hstatus after hstream
    have hconnected : ({ socket with buffer := leftover } : TcpSocket).status = .CONNECTED := hstatus
    exact .cons hcall hreads (ih hlen.2 hconnected hleftover)

/-- Packets survive every cut of the stream: whatever chunks of 1 to 256 bytes
`recv` makes of the concatenated packets, as many calls of `receivePacket`
return them in order, leave no byte in the buffer, and only read while the
bytes they hold are no complete packet. -/
theorem receivePacket_reassembles (strs : List Bytes) (hlen : ∀ str ∈ strs, str.length < 2 ^ 31 - 6)
    (chunks : List Chunk) (hchunks : chunkBytes chunks = strs.flatMap packetBuffer)
    (after : List RecvEvent) :
    Receives after ⟨.CONNECTED, []⟩ chunks strs ⟨.CONNECTED, []⟩ [] :=
  receives_of_stream after hlen rfl hchunks

/-- An empty packet and the packet `x` in chunks that split the first header
and join the end of the first packet with the second. -/
theorem receivePacket_reassembles_two :
    Receives [.closed] ⟨.CONNECTED, []⟩
      [⟨[124, 0, 0], by decide, by decide⟩,
        ⟨[0, 0, 124, 124, 0, 0, 0, 1, 120, 124], by decide, by decide⟩]
      [[], [120]] ⟨.CONNECTED, []⟩ [] :=
  receivePacket_reassembles [[], [120]] (by decide) _ (by decide) _

end TcpSocket

end clockUtils.sockets
