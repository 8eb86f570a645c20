import ClockUtils.Sockets.UdpLoss

namespace clockUtils.sockets.UdpSocket

/-- `write` when no `sendto` fails. -/
theorem write_eq_sendChunks {socket : UdpSocket} (hbound : socket.bound = true)
    {sendto : Nat → Option Errno} (hsendto : ∀ i, sendto i = none) (str : Bytes) :
    write socket sendto str =
      (.SUCCESS, (List.range (str.length / MAX_PACKET_SIZE + 1)).map (sendChunk str)) := by
  obtain rfl : sendto = fun _ => none := funext hsendto
  rw [write, if_pos hbound, writeLoop_none, List.range_eq_range']

theorem sendChunk_ne_nil {str : Bytes} {i : Nat} (hi : i < str.length / MAX_PACKET_SIZE) :
    sendChunk str i ≠ [] := by
  have hlength := length_sendChunk hi.le
  rw [if_pos hi] at hlength
  intro hnil
  rw [hnil] at hlength
  exact absurd hlength (by decide)

/-- The last datagram is empty exactly when the others took everything. -/
theorem sendChunk_last_eq_nil_iff (str : Bytes) :
    sendChunk str (str.length / MAX_PACKET_SIZE) = [] ↔ str.length % MAX_PACKET_SIZE = 0 := by
  rw [← List.length_eq_zero_iff, length_sendChunk le_rfl, if_neg (lt_irrefl _)]

/-- Every datagram of a buffer carries something unless the buffer ends on a
full one. -/
theorem write_datagrams_nonempty_iff {socket : UdpSocket} (hbound : socket.bound = true)
    {sendto : Nat → Option Errno} (hsendto : ∀ i, sendto i = none) (str : Bytes) :
    ((∀ d ∈ (write socket sendto str).2, 1 ≤ d.length ∧ d.length ≤ MAX_PACKET_SIZE) ∧
        (write socket sendto str).2.flatten = str) ↔
      str.length % MAX_PACKET_SIZE ≠ 0 := by
  rw [write_eq_sendChunks hbound hsendto, flatten_sendChunks, ne_eq, ← sendChunk_last_eq_nil_iff]
  simp only [and_true, List.forall_mem_map, List.mem_range]
  constructor
  · intro h hnil
    have hlast := (h (str.length / MAX_PACKET_SIZE) (Nat.lt_succ_self _)).1
    rw [hnil] at hlast
    exact absurd hlast (by decide)
  · intro hlast i hi
    refine ⟨List.length_pos_iff.mpr ?_, length_sendChunk_le (by omega)⟩
    rcases Nat.lt_or_eq_of_le (Nat.le_of_lt_succ hi) with hlt | heq
    · exact sendChunk_ne_nil hlt
    · rwa [heq]

/-- The packet ends on a full datagram. -/
def EndsFull (str : Bytes) : Prop :=
  (str.length + 6) % MAX_PACKET_SIZE = 0

instance (str : Bytes) : Decidable (EndsFull str) :=
  inferInstanceAs (Decidable ((str.length + 6) % MAX_PACKET_SIZE = 0))

/-- The datagrams of a packet that carry something. -/
def carrying (str : Bytes) : List Bytes :=
  (datagrams str).filter (· ≠ [])

/-- Only an empty datagram at the end carries nothing. -/
theorem datagrams_eq_carrying (str : Bytes) :
    datagrams str = carrying str ++ if EndsFull str then [[]] else [] := by
  have hlast := sendChunk_last_eq_nil_iff (packetBuffer str)
  have hfull : ∀ d ∈ (List.range ((packetBuffer str).length / MAX_PACKET_SIZE)).map
      (sendChunk (packetBuffer str)), decide (d ≠ []) = true := by
    intro d hd
    obtain ⟨i, hi, rfl⟩ := List.mem_map.mp hd
    exact decide_eq_true (sendChunk_ne_nil (List.mem_range.mp hi))
  rw [carrying, datagrams_eq, ← length_packetBuffer, List.range_succ, List.map_append,
    List.map_singleton, List.filter_append, List.filter_eq_self.mpr hfull, List.append_assoc]
  congr 1
  rw [length_packetBuffer] at hlast ⊢
  by_cases hends : EndsFull str
  · rw [if_pos hends, hlast.mpr hends]
    rfl
  · rw [if_neg hends, List.append_nil, List.filter_cons_of_pos, List.filter_nil]
    exact decide_eq_true fun hnil => hends (hlast.mp hnil)

theorem flatten_carrying (str : Bytes) : (carrying str).flatten = packetBuffer str := by
  rw [carrying, flatten_filter_ne_nil, flatten_datagrams]

/-- Datagrams of one sender in their order. -/
def datagramsFrom (peer : Peer) (ds : List Bytes) : List (Peer × Bytes) :=
  ds.map fun d => (peer, d)

theorem datagramsFrom_append (peer : Peer) (ds es : List Bytes) :
    datagramsFrom peer (ds ++ es) = datagramsFrom peer ds ++ datagramsFrom peer es :=
  List.map_append

theorem store_store (socket : UdpSocket) (peer : Peer) (bytes bytes' : Bytes) :
    (socket.store peer bytes).store peer bytes' = socket.store peer bytes' := by
  simp only [UdpSocket.store, Function.update_idem]

/-- A call that finds the rest of a packet returns it and reads nothing more. -/
theorem receiveLoop_rest {socket : UdpSocket} {peer : Peer} {str : Bytes}
    (hlen : str.length < 2 ^ 31 - 6) {ds : List Bytes}
    (hds : ∀ d ∈ ds, d ≠ [] ∧ d.length ≤ MAX_PACKET_SIZE)
    (hopen : (socket.buffer peer).length < (packetBuffer str).length)
    (hflat : socket.buffer peer ++ ds.flatten = packetBuffer str) (net : List (Peer × Bytes)) :
    receiveLoop socket (arrivals (datagramsFrom peer ds ++ net)) =
      .ok (some ⟨.SUCCESS, some str, some peer, socket.store peer [], arrivals net⟩) := by
  induction ds generalizing socket with
  | nil =>
    rw [List.flatten_nil, List.append_nil] at hflat
    rw [hflat] at hopen
    exact absurd hopen (lt_irrefl _)
  | cons d ds ih =>
    rw [List.forall_mem_cons] at hds
    have hparts : socket.buffer peer ++ d ++ ds.flatten = packetBuffer str ++ [] := by
      rw [List.append_nil, ← hflat, List.flatten_cons, List.append_assoc]
    have hround := absorb_spec (socket.buffer peer) hlen hparts (.inl rfl) (fun _ => hds.1.1)
    have hstep : receiveLoop socket (arrivals (datagramsFrom peer (d :: ds) ++ net)) = _ :=
      receiveLoop_datagram hds.1.1 hds.1.2
    rw [hstep]
    have htotal := congrArg List.length hparts
    rw [List.append_nil, List.length_append] at htotal
    split at hround
    · next hcomplete =>
      obtain ⟨leftover, hdone, hleftover⟩ := hround
      obtain ⟨rfl, hnone⟩ := List.append_eq_nil_iff.mp hleftover
      have hds' : ds = [] := by
        cases ds with
        | nil => rfl
        | cons e ds => simp [(hds.2 e List.mem_cons_self).1] at hnone
      rw [hdone, hds']
      rfl
    · next hincomplete =>
      obtain ⟨length, hmore, -⟩ := hround
      have hbuffer : (socket.store peer (socket.buffer peer ++ d)).buffer peer =
          socket.buffer peer ++ d := by
        simp only [UdpSocket.store, Function.update_self]
      have hopen' : ((socket.store peer (socket.buffer peer ++ d)).buffer peer).length <
          (packetBuffer str).length := by
        rw [hbuffer]
        omega
      have hrest := ih hds.2 hopen' (by rw [hbuffer, hparts, List.append_nil])
      rw [store_store] at hrest
      rw [hmore]
      exact hrest

/-- A call on an idle sender returns its next packet and leaves the empty
datagram, if there is one, to the next call. -/
theorem receivePacket_next {socket : UdpSocket} (hbound : socket.bound = true) {peer : Peer}
    (hidle : socket.buffer peer = []) {str : Bytes} (hlen : str.length < 2 ^ 31 - 6)
    (due : List Bytes) :
    receivePacket socket (arrivals (datagramsFrom peer (datagrams str ++ due))) =
      .ok (some ⟨.SUCCESS, some str, some peer, socket,
        arrivals (datagramsFrom peer ((if EndsFull str then [[]] else []) ++ due))⟩) := by
  have hds : ∀ d ∈ carrying str, d ≠ [] ∧ d.length ≤ MAX_PACKET_SIZE := by
    intro d hd
    obtain ⟨hd, hne⟩ := List.mem_filter.mp hd
    exact ⟨of_decide_eq_true hne, length_le_of_mem_datagrams hd⟩
  have hopen : (socket.buffer peer).length < (packetBuffer str).length := by
    rw [hidle]
    exact packetBuffer_length_pos str
  have hflat : socket.buffer peer ++ (carrying str).flatten = packetBuffer str := by
    rw [hidle, List.nil_append, flatten_carrying]
  have hstore : socket.store peer [] = socket := by
    rw [← hidle, store_self]
  rw [receivePacket, if_pos hbound, datagrams_eq_carrying, List.append_assoc, datagramsFrom_append,
    receiveLoop_rest hlen hds hopen hflat, hstore]

theorem receives_cons_iff {socket socket' : UdpSocket} {events events' : List RecvFromEvent}
    {peer : Peer} {str : Bytes} {out : List (Peer × Bytes)}
    (hcall : receivePacket socket events =
      .ok (some ⟨.SUCCESS, some str, some peer, socket', events'⟩)) :
    Receives socket events ((peer, str) :: out) ↔ Receives socket' events' out := by
  refine ⟨fun h => ?_, fun h => .cons hcall h⟩
  cases h with
  | cons hcall' hrest =>
    rw [hcall'] at hcall
    cases hcall
    exact hrest

/-- The call that finds an empty datagram first does not succeed. -/
theorem not_receives_of_empty {socket : UdpSocket} (hbound : socket.bound = true) {peer : Peer}
    {net : List (Peer × Bytes)} {entry : Peer × Bytes} {out : List (Peer × Bytes)} :
    ¬ Receives socket (arrivals ((peer, []) :: net)) (entry :: out) := by
  intro h
  cases h with
  | cons hcall hrest =>
    rw [receivePacket, if_pos hbound, receiveLoop_empty] at hcall
    cases hcall

/-- All packets of a sender are received unless one before the last ends on a
full datagram. -/
theorem receives_sender_iff {socket : UdpSocket} (hbound : socket.bound = true) {peer : Peer}
    (hidle : socket.buffer peer = []) {strs : List Bytes}
    (hlen : ∀ str ∈ strs, str.length < 2 ^ 31 - 6) :
    Receives socket (arrivals (datagramsFrom peer (strs.flatMap datagrams)))
        (datagramsFrom peer strs) ↔ ∀ str ∈ strs.dropLast, ¬ EndsFull str := by
  induction strs with
  | nil => exact ⟨fun _ str hstr => absurd hstr List.not_mem_nil, fun _ => .nil _ _⟩
  | cons str strs ih =>
    rw [List.forall_mem_cons] at hlen
    have hcall := receivePacket_next hbound hidle hlen.1 (strs.flatMap datagrams)
    rw [List.flatMap_cons]
    refine (receives_cons_iff hcall).trans ?_
    cases strs with
    | nil => exact ⟨fun _ str hstr => absurd hstr List.not_mem_nil, fun _ => .nil _ _⟩
    | cons next strs =>
      rw [List.dropLast_cons_cons, List.forall_mem_cons]
      by_cases hends : EndsFull str
      · rw [if_pos hends]
        exact ⟨fun h => absurd h (not_receives_of_empty hbound), fun h => absurd hends h.1⟩
      · rw [if_neg hends, List.nil_append]
        exact (ih hlen.2).trans (and_iff_right hends).symm

/-- Empty datagrams: `write` sends one after a buffer, the empty one included,
exactly when the buffer is a number of full datagrams; and exactly when this
happens in a sequence of packets before the last one, some call of
`receivePacket` takes the empty datagram for a closed connection. -/
theorem udp_empty_datagram_iff {socket : UdpSocket} (hbound : socket.bound = true)
    {sendto : Nat → Option Errno} (hsendto : ∀ i, sendto i = none) (str : Bytes) (peer : Peer)
    (strs : List Bytes) (hlen : ∀ str ∈ strs, str.length < 2 ^ 31 - 6) :
    (((∀ d ∈ (write socket sendto str).2, 1 ≤ d.length ∧ d.length ≤ MAX_PACKET_SIZE) ∧
        (write socket sendto str).2.flatten = str) ↔ str.length % MAX_PACKET_SIZE ≠ 0) ∧
      (Receives fresh (arrivals (datagramsFrom peer (strs.flatMap datagrams)))
          (datagramsFrom peer strs) ↔
        ∀ str ∈ strs.dropLast, (str.length + 6) % MAX_PACKET_SIZE ≠ 0) :=
  ⟨write_datagrams_nonempty_iff hbound hsendto str, receives_sender_iff rfl rfl hlen⟩

/-- Two packets of a few bytes. -/
theorem udp_no_empty_datagram_two :
    ((∀ d ∈ (write fresh (fun _ => none) [97, 98]).2, 1 ≤ d.length ∧ d.length ≤ MAX_PACKET_SIZE) ∧
        (write fresh (fun _ => none) [97, 98]).2.flatten = [97, 98]) ∧
      Receives fresh (arrivals (datagramsFrom ([49], 1) ([[97, 98], []].flatMap datagrams)))
        (datagramsFrom ([49], 1) [[97, 98], []]) := by
  have hiff := @udp_empty_datagram_iff fresh rfl (fun _ => none) (fun _ => rfl) [97, 98] ([49], 1)
    [[97, 98], []] (by decide)
  exact ⟨hiff.1.mpr (by decide), hiff.2.mpr (by decide)⟩

/-- A payload whose packet fills one datagram. -/
def filling : Bytes :=
  List.replicate 32762 97

theorem endsFull_filling : EndsFull filling := by
  rw [EndsFull, filling, List.length_replicate]
  decide

theorem length_filling_lt : filling.length < 2 ^ 31 - 6 := by
  rw [filling, List.length_replicate]
  decide

theorem calls_filling : ∃ results,
    Calls fresh (arrivals (datagramsFrom ([49], 1) ([filling, [120]].flatMap datagrams))) results ∧
      results.map Received.error = [.SUCCESS, .NOT_CONNECTED] := by
  have hfirst := @receivePacket_next fresh rfl ([49], 1) rfl filling length_filling_lt
    ([[120]].flatMap datagrams)
  rw [if_pos endsFull_filling] at hfirst
  have hsecond : receivePacket fresh
      (arrivals (datagramsFrom ([49], 1) ([[]] ++ [[120]].flatMap datagrams))) = _ :=
    receiveLoop_empty
  exact ⟨_, .cons hfirst (.cons hsecond (.nil _ _)), rfl⟩

/-- A buffer of one full datagram is sent with an empty one behind it, and
after a packet of one full datagram the next call does not return the packet
that follows. -/
theorem udp_empty_datagram_sent :
    (1 ≤ (List.replicate 32768 97 : Bytes).length ∧
      ¬ ∀ d ∈ (write fresh (fun _ => none) (List.replicate 32768 97)).2,
        1 ≤ d.length ∧ d.length ≤ MAX_PACKET_SIZE) ∧
    (∀ str ∈ [filling, [120]], str.length < 2 ^ 31 - 6) ∧
      ¬ Receives fresh (arrivals (datagramsFrom ([49], 1) ([filling, [120]].flatMap datagrams)))
        (datagramsFrom ([49], 1) [filling, [120]]) ∧
      ∃ results, Calls fresh
          (arrivals (datagramsFrom ([49], 1) ([filling, [120]].flatMap datagrams))) results ∧
        results.map Received.error = [.SUCCESS, .NOT_CONNECTED] := by
  have hlen : ∀ str ∈ [filling, [120]], str.length < 2 ^ 31 - 6 := by
    rw [List.forall_mem_cons]
    exact ⟨length_filling_lt, by decide⟩
  refine ⟨⟨by rw [List.length_replicate]; decide, fun h => ?_⟩, hlen, fun h => ?_, calls_filling⟩
  · have hflat : (write fresh (fun _ => none) (List.replicate 32768 97)).2.flatten =
        List.replicate 32768 97 := by
      rw [write_eq_sendChunks rfl fun _ => rfl, flatten_sendChunks]
    refine (write_datagrams_nonempty_iff rfl (fun _ => rfl) _).mp ⟨h, hflat⟩ ?_
    rw [List.length_replicate]
    rfl
  · exact (receives_sender_iff rfl rfl hlen).mp h filling List.mem_cons_self endsFull_filling

end clockUtils.sockets.UdpSocket
