import ClockUtils.Sockets.UdpReassembly

namespace clockUtils.sockets.UdpSocket

/-- A packet that was sent, and those of its datagrams that arrive. -/
structure Passage where
  payload : Bytes
  arrived : List Bytes
  sublist : arrived.Sublist (datagrams payload)

namespace Passage

/-- All datagrams arrive that carry anything. -/
def Intact (p : Passage) : Prop :=
  p.arrived.filter (· ≠ []) = (datagrams p.payload).filter (· ≠ [])

/-- No datagram arrives that could be taken for the beginning of a packet. -/
def Headless (p : Passage) : Prop :=
  ∀ d ∈ p.arrived, d.head? ≠ some bar

end Passage

/-- Of the packets of one sender each arrives intact or headless, except that a
beginning of a packet may arrive with nothing behind it. -/
def Undisturbed : List Passage → Prop
  | [] => True
  | p :: later =>
    (p.Intact ∨ p.Headless) ∧ Undisturbed later ∨
      p.arrived <+: datagrams p.payload ∧ ∀ q ∈ later, ∀ d ∈ q.arrived, d = []

/-- Datagrams of one sender that its buffer is fit for: every one is empty, or
completes or continues a packet of the sender, or finds nothing begun and is
not taken for a beginning. -/
inductive Orderly (sent : List Bytes) : Bytes → List Bytes → Prop where
  | nil (buffer : Bytes) : Orderly sent buffer []
  | empty {buffer : Bytes} {due : List Bytes} (hrest : Orderly sent buffer due) :
      Orderly sent buffer ([] :: due)
  | stray {d : Bytes} {due : List Bytes} (hhead : d.head? ≠ some bar) (hrest : Orderly sent [] due) :
      Orderly sent [] (d :: due)
  | extend {str buffer d : Bytes} {due : List Bytes} (hstr : str ∈ sent) (hne : d ≠ [])
      (hbuffer : buffer ++ d <+: packetBuffer str)
      (hshort : (buffer ++ d).length < (packetBuffer str).length)
      (hrest : Orderly sent (buffer ++ d) due) : Orderly sent buffer (d :: due)
  | complete {str buffer d : Bytes} {due : List Bytes} (hstr : str ∈ sent) (hne : d ≠ [])
      (hpacket : buffer ++ d = packetBuffer str) (hrest : Orderly sent [] due) :
      Orderly sent buffer (d :: due)

theorem Orderly.of_empty {sent : List Bytes} {buffer : Bytes} {ds due : List Bytes}
    (hempty : ∀ d ∈ ds, d = []) (h : Orderly sent buffer due) : Orderly sent buffer (ds ++ due) := by
  induction ds with
  | nil => exact h
  | cons d ds ih =>
    rw [List.forall_mem_cons] at hempty
    rw [hempty.1]
    exact .empty (ih hempty.2)

theorem Orderly.of_headless {sent ds due : List Bytes} (hhead : ∀ d ∈ ds, d.head? ≠ some bar)
    (h : Orderly sent [] due) : Orderly sent [] (ds ++ due) := by
  induction ds with
  | nil => exact h
  | cons d ds ih =>
    rw [List.forall_mem_cons] at hhead
    exact .stray hhead.1 (ih hhead.2)

/-- Datagrams that take a packet further, up to its end or not. -/
theorem Orderly.of_beginning {sent : List Bytes} {str buffer : Bytes} {ds due : List Bytes}
    (hstr : str ∈ sent) (hshort : buffer.length < (packetBuffer str).length)
    (hbegin : buffer ++ ds.flatten <+: packetBuffer str)
    (hdone : buffer ++ ds.flatten = packetBuffer str → Orderly sent [] due)
    (hopen : buffer ++ ds.flatten ≠ packetBuffer str → Orderly sent (buffer ++ ds.flatten) due) :
    Orderly sent buffer (ds ++ due) := by
  induction ds generalizing buffer with
  | nil =>
    rw [List.flatten_nil, List.append_nil] at hopen
    refine hopen fun heq => ?_
    rw [heq] at hshort
    exact absurd hshort (lt_irrefl _)
  | cons d ds ih =>
    rw [List.flatten_cons, ← List.append_assoc] at hbegin hdone hopen
    by_cases hne : d = []
    · subst hne
      rw [List.append_nil] at hbegin hdone hopen
      exact .empty (ih hshort hbegin hdone hopen)
    · have hbuffer : buffer ++ d <+: packetBuffer str := (List.prefix_append _ _).trans hbegin
      by_cases hpacket : buffer ++ d = packetBuffer str
      · have hnone : ds.flatten = [] := by
          have hle := hbegin.length_le
          rw [List.length_append, hpacket] at hle
          exact List.length_eq_zero_iff.mp (by omega)
        refine .complete hstr hne hpacket (.of_empty (List.flatten_eq_nil_iff.mp hnone) (hdone ?_))
        rw [hnone, List.append_nil, hpacket]
      · have hlt : (buffer ++ d).length < (packetBuffer str).length := by
          have hle := hbuffer.length_le
          have hne' : (buffer ++ d).length ≠ (packetBuffer str).length :=
            fun heq => hpacket (hbuffer.eq_of_length heq)
          omega
        exact .extend hstr hne hbuffer hlt (ih hlt hbegin hdone hopen)

theorem flatten_filter_ne_nil (ds : List Bytes) : (ds.filter (· ≠ [])).flatten = ds.flatten := by
  induction ds with
  | nil => rfl
  | cons d ds ih =>
    by_cases h : d = []
    · rw [List.filter_cons_of_neg (by simpa using h), ih, List.flatten_cons, h, List.nil_append]
    · rw [List.filter_cons_of_pos (by simpa using h), List.flatten_cons, List.flatten_cons, ih]

theorem Passage.Intact.flatten_arrived {p : Passage} (h : p.Intact) :
    p.arrived.flatten = packetBuffer p.payload := by
  rw [← flatten_filter_ne_nil, h, flatten_filter_ne_nil, flatten_datagrams]

theorem packetBuffer_length_pos (str : Bytes) : 0 < (packetBuffer str).length := by
  rw [length_packetBuffer]
  omega

theorem Orderly.of_undisturbed {sent : List Bytes} {passages : List Passage}
    (hsent : ∀ p ∈ passages, p.payload ∈ sent) (h : Undisturbed passages) :
    Orderly sent [] (passages.flatMap Passage.arrived) := by
  induction passages with
  | nil => exact .nil _
  | cons p later ih =>
    rw [List.forall_mem_cons] at hsent
    rw [List.flatMap_cons]
    rcases h with ⟨hkind, hlater⟩ | ⟨hbegin, hnone⟩
    · have hrest := ih hsent.2 hlater
      rcases hkind with hintact | hheadless
      · have hflat := hintact.flatten_arrived
        refine .of_beginning hsent.1 (packetBuffer_length_pos _) ?_ (fun _ => hrest) fun hne => ?_
        · rw [List.nil_append, hflat]
        · exact absurd hflat hne
      · exact .of_headless hheadless hrest
    · have hempty : ∀ d ∈ later.flatMap Passage.arrived, d = [] := by
        intro d hd
        obtain ⟨q, hq, hd⟩ := List.mem_flatMap.mp hd
        exact hnone q hq d hd
      have hend : ∀ buffer, Orderly sent buffer (later.flatMap Passage.arrived) := by
        intro buffer
        have h := Orderly.of_empty hempty (.nil buffer : Orderly sent buffer [])
        rwa [List.append_nil] at h
      refine .of_beginning hsent.1 (packetBuffer_length_pos _) ?_ (fun _ => hend _) fun _ => hend _
      rw [List.nil_append, ← flatten_datagrams]
      obtain ⟨more, hmore⟩ := hbegin
      rw [← hmore, List.flatten_append]
      exact List.prefix_append _ _

/-- Every sender's buffer is fit for what still arrives from this sender. -/
structure Fit (sent : Peer → List Bytes) (socket : UdpSocket) (net : List (Peer × Bytes)) : Prop where
  bound : socket.bound = true
  orderly : ∀ peer, Orderly (sent peer) (socket.buffer peer) (inbox net peer)
  length_le : ∀ entry ∈ net, entry.2.length ≤ MAX_PACKET_SIZE

theorem Fit.store {sent : Peer → List Bytes} {socket : UdpSocket} {peer : Peer} {d buffer : Bytes}
    {net : List (Peer × Bytes)} (h : Fit sent socket ((peer, d) :: net))
    (hpeer : Orderly (sent peer) buffer (inbox net peer)) : Fit sent (socket.store peer buffer) net := by
  refine ⟨h.bound, fun other => ?_, fun entry hentry => h.length_le entry (List.mem_cons_of_mem _ hentry)⟩
  by_cases hsame : other = peer
  · subst hsame
    simpa [UdpSocket.store] using hpeer
  · have hother := h.orderly other
    rw [inbox_cons, if_neg (Ne.symm hsame)] at hother
    simpa [UdpSocket.store, hsame] using hother

/-- The call reports a packet of the sender that it names, if it reports one. -/
def Reports (sent : Peer → List Bytes) (received : Received) : Prop :=
  received.error = .SUCCESS →
    ∃ peer str, received.peer = some peer ∧ received.packet = some str ∧ str ∈ sent peer

theorem receiveLoop_datagram {socket : UdpSocket} {peer : Peer} {d : Bytes}
    {net : List (Peer × Bytes)} (hne : d ≠ []) (hle : d.length ≤ MAX_PACKET_SIZE) :
    receiveLoop socket (arrivals ((peer, d) :: net)) =
      absorb (socket.buffer peer) (socket.buffer peer) 0 d >>=
        afterRound socket peer (arrivals net) (fun socket => receiveLoop socket (arrivals net)) := by
  simp only [arrivals, List.map_cons, receiveLoop, recvfromOnce, hne, if_false,
    List.take_of_length_le hle, ne_eq, not_true_eq_false]

theorem receiveLoop_empty {socket : UdpSocket} {peer : Peer} {net : List (Peer × Bytes)} :
    receiveLoop socket (arrivals ((peer, []) :: net)) =
      .ok (some ⟨.NOT_CONNECTED, none, some peer, socket, arrivals net⟩) := rfl

theorem store_self (socket : UdpSocket) (peer : Peer) :
    socket.store peer (socket.buffer peer) = socket := by
  rw [UdpSocket.store, Function.update_eq_self]

/-- Nothing was begun and the datagram begins nothing. -/
theorem absorb_stray {d : Bytes} (hne : d ≠ []) (hhead : d.head? ≠ some bar) :
    absorb [] [] 0 d = .ok (.done .UNKNOWN none []) := by
  obtain ⟨c, rest, rfl⟩ := List.exists_cons_of_ne_nil hne
  have hbar : c ≠ bar := by simpa using hhead
  simp [absorb, hbar]

/-- A call that returns an error reports nothing. -/
theorem reports_of_error {sent : Peer → List Bytes} {received : Received}
    (h : received.error ≠ .SUCCESS) : Reports sent received :=
  fun hsuccess => absurd hsuccess h

/-- One call: it is defined, reports only what was sent, and leaves every
sender's buffer fit for the rest. -/
theorem receiveLoop_fit {sent : Peer → List Bytes}
    (hsent : ∀ peer, ∀ str ∈ sent peer, str.length < 2 ^ 31 - 6) {socket : UdpSocket}
    {net : List (Peer × Bytes)} (h : Fit sent socket net) :
    ∃ outcome, receiveLoop socket (arrivals net) = .ok outcome ∧
      ∀ received, outcome = some received → Reports sent received ∧
        ∃ net', received.events = arrivals net' ∧ Fit sent received.socket net' := by
  induction net generalizing socket with
  | nil => exact ⟨none, rfl, fun received hnone => by cases hnone⟩
  | cons entry net ih =>
    obtain ⟨peer, d⟩ := entry
    have hpeer := h.orderly peer
    rw [inbox_cons, if_pos rfl] at hpeer
    have hle : d.length ≤ MAX_PACKET_SIZE := h.length_le (peer, d) List.mem_cons_self
    have hskip : d = [] → Orderly (sent peer) (socket.buffer peer) (inbox net peer) →
        ∃ outcome, receiveLoop socket (arrivals ((peer, d) :: net)) = .ok outcome ∧
          ∀ received, outcome = some received → Reports sent received ∧
            ∃ net', received.events = arrivals net' ∧ Fit sent received.socket net' := by
      rintro rfl hrest
      refine ⟨_, receiveLoop_empty, fun received hreceived => ?_⟩
      obtain rfl := Option.some.inj hreceived
      have hfit := h.store hrest
      rw [store_self] at hfit
      exact ⟨reports_of_error (by simp), net, rfl, hfit⟩
    generalize hbuffer : socket.buffer peer = buffer at hpeer
    cases hpeer with
    | empty hrest => exact hskip rfl (hbuffer ▸ hrest)
    | stray hhead hrest =>
      by_cases hne : d = []
      · exact hskip hne (hbuffer ▸ hrest)
      · rw [receiveLoop_datagram hne hle, hbuffer, absorb_stray hne hhead]
        refine ⟨_, rfl, fun received hreceived => ?_⟩
        obtain rfl := Option.some.inj hreceived
        exact ⟨reports_of_error (by simp), net, rfl, h.store hrest⟩
    | @extend str _ _ _ hstr hne hbegin hshort hrest =>
      obtain ⟨unread, hunread⟩ := hbegin
      rw [← List.append_nil (packetBuffer str)] at hunread
      have hround := absorb_spec buffer (hsent peer str hstr) hunread (.inl rfl) (fun _ => hne)
      rw [if_neg (by omega)] at hround
      obtain ⟨length, hmore, -⟩ := hround
      rw [receiveLoop_datagram hne hle, hbuffer, hmore]
      exact ih (h.store hrest)
    | @complete str _ _ _ hstr hne hpacket hrest =>
      have hwhole : buffer ++ d ++ [] = packetBuffer str ++ [] := by rw [hpacket]
      have hround := absorb_spec buffer (hsent peer str hstr) hwhole (.inl rfl) (fun _ => hne)
      rw [if_pos (by rw [hpacket])] at hround
      obtain ⟨leftover, hdone, hleftover⟩ := hround
      rw [List.append_nil] at hleftover
      rw [receiveLoop_datagram hne hle, hbuffer, hdone, hleftover]
      refine ⟨_, rfl, fun received hreceived => ?_⟩
      obtain rfl := Option.some.inj hreceived
      exact ⟨fun _ => ⟨peer, str, rfl, rfl, hstr⟩, net, rfl, h.store hrest⟩

/-- Successive calls of `receivePacket` that return, with their results. -/
inductive Calls : UdpSocket → List RecvFromEvent → List Received → Prop where
  | nil (socket : UdpSocket) (events : List RecvFromEvent) : Calls socket events []
  | cons {socket : UdpSocket} {events : List RecvFromEvent} {received : Received}
      {results : List Received} (hcall : receivePacket socket events = .ok (some received))
      (hrest : Calls received.socket received.events results) :
      Calls socket events (received :: results)

theorem Calls.reports {sent : Peer → List Bytes}
    (hsent : ∀ peer, ∀ str ∈ sent peer, str.length < 2 ^ 31 - 6) {socket : UdpSocket}
    {net : List (Peer × Bytes)} (h : Fit sent socket net) {results : List Received}
    (hcalls : Calls socket (arrivals net) results) : ∀ received ∈ results, Reports sent received := by
  generalize hevents : arrivals net = events at hcalls
  induction hcalls generalizing net with
  | nil => simp
  | cons hcall hrest ih =>
    subst hevents
    rw [receivePacket, if_pos h.bound] at hcall
    obtain ⟨outcome, hloop, hspec⟩ := receiveLoop_fit hsent h
    rw [hcall, Except.ok.injEq] at hloop
    obtain ⟨hreports, net', hnet', hfit⟩ := hspec _ hloop.symm
    exact List.forall_mem_cons.mpr ⟨hreports, ih hfit hnet'.symm⟩

theorem length_le_of_mem_datagrams {str d : Bytes} (hd : d ∈ datagrams str) :
    d.length ≤ MAX_PACKET_SIZE := by
  rw [datagrams_eq, ← length_packetBuffer] at hd
  obtain ⟨i, hi, rfl⟩ := List.mem_map.mp hd
  rw [List.mem_range] at hi
  exact length_sendChunk_le (by omega)

/-- No packet is invented as long as no sender is disturbed: whatever datagrams
the network drops and however those of several senders are mixed, every call
reports a packet that the sender it names has sent. -/
theorem receivePacket_reports_sent (passages : Peer → List Passage)
    (hlen : ∀ peer, ∀ p ∈ passages peer, p.payload.length < 2 ^ 31 - 6)
    (hundisturbed : ∀ peer, Undisturbed (passages peer)) (net : List (Peer × Bytes))
    (hnet : ∀ peer, inbox net peer = (passages peer).flatMap Passage.arrived)
    (results : List Received) (hcalls : Calls fresh (arrivals net) results) :
    ∀ received ∈ results, received.error = .SUCCESS → ∃ peer str, received.peer = some peer ∧
      received.packet = some str ∧ str ∈ (passages peer).map Passage.payload := by
  have hsent : ∀ peer, ∀ str ∈ (passages peer).map Passage.payload, str.length < 2 ^ 31 - 6 := by
    intro peer str hstr
    obtain ⟨p, hp, rfl⟩ := List.mem_map.mp hstr
    exact hlen peer p hp
  have hfit : Fit (fun peer => (passages peer).map Passage.payload) fresh net := by
    refine ⟨rfl, fun peer => ?_, fun entry hentry => ?_⟩
    · rw [hnet]
      exact .of_undisturbed (fun p hp => List.mem_map_of_mem hp) (hundisturbed peer)
    · have hmem : entry.2 ∈ inbox net entry.1 :=
        List.mem_map.mpr ⟨entry, List.mem_filter.mpr ⟨hentry, by simp⟩, rfl⟩
      rw [hnet] at hmem
      obtain ⟨p, -, hp⟩ := List.mem_flatMap.mp hmem
      exact length_le_of_mem_datagrams (p.sublist.mem hp)
  exact hcalls.reports hsent hfit

/-- A sender's first packet is lost, and its second one arrives. -/
def firstLost (peer : Peer) : List Passage :=
  if peer = ([49], 1) then
    [⟨[120], [], List.nil_sublist _⟩, ⟨[121], datagrams [121], .refl _⟩]
  else []

theorem receivePacket_reports_sent_second :
    ∃ received,
      receivePacket fresh (arrivals [(([49], 1), packetBuffer [121])]) = .ok (some received) ∧
        received.error = .SUCCESS ∧ ∃ peer str, received.peer = some peer ∧
          received.packet = some str ∧ str ∈ (firstLost peer).map Passage.payload := by
  obtain ⟨received, hcall, herror⟩ : ∃ received,
      receivePacket fresh (arrivals [(([49], 1), packetBuffer [121])]) = .ok (some received) ∧
        received.error = .SUCCESS := ⟨_, rfl, rfl⟩
  refine ⟨received, hcall, herror, receivePacket_reports_sent firstLost ?_ ?_
    [(([49], 1), packetBuffer [121])] ?_ [received] (.cons hcall (.nil _ _)) _ List.mem_cons_self
    herror⟩
  · intro peer p hp
    unfold firstLost at hp
    split at hp
    · obtain rfl | rfl := List.mem_pair.mp hp
      · decide
      · decide
    · cases hp
  · intro peer
    unfold firstLost
    split
    · exact .inl ⟨.inr nofun, .inl ⟨.inl rfl, trivial⟩⟩
    · trivial
  · intro peer
    have hsecond : datagrams [121] = [packetBuffer [121]] := rfl
    by_cases hpeer : peer = ([49], 1)
    · simp [inbox, firstLost, hpeer, hsecond]
    · simp [inbox, firstLost, hpeer, Ne.symm hpeer]

/-- A payload whose packet takes two datagrams. -/
def zeros : Bytes :=
  List.replicate 32768 0

/-- The first datagram of its packet. -/
def firstPart : Bytes :=
  124 :: 0 :: 0 :: 128 :: 0 :: List.replicate 32763 0

theorem sendChunk_zeros : sendChunk (packetBuffer zeros) 0 = firstPart := by
  have hlength : (packetBuffer zeros).length = 32774 := by
    rw [length_packetBuffer, zeros, List.length_replicate]
  have hfull : 0 < (packetBuffer zeros).length / MAX_PACKET_SIZE := by
    rw [hlength]
    decide
  have hbuffer : packetBuffer zeros = [124, 0, 0, 128, 0] ++ zeros ++ [bar] := by
    rw [packetBuffer]
    simp only [zeros, List.length_replicate]
    rfl
  rw [sendChunk, if_pos hfull, Nat.zero_mul, List.drop_zero, hbuffer,
    show MAX_PACKET_SIZE = 32763 + 5 from rfl]
  simp only [List.cons_append, List.nil_append, List.take_succ_cons, firstPart, zeros]
  rw [List.take_append_of_le_length (by rw [List.length_replicate]; decide), List.take_replicate,
    Nat.min_eq_left (by decide)]

theorem firstPart_sublist : [firstPart].Sublist (datagrams zeros) := by
  have hcount : (zeros.length + 6) / MAX_PACKET_SIZE + 1 = 2 := by
    rw [zeros, List.length_replicate]
    rfl
  rw [datagrams_eq, hcount, List.range_succ_eq_map, List.map_cons, sendChunk_zeros]
  simp

/-- A header of `zeros` with any bytes behind it. -/
theorem finishRound_zeros (rest : Bytes) :
    finishRound (124 :: 0 :: 0 :: 128 :: 0 :: rest) 0 =
      if 32769 ≤ rest.length then
        .ok (.done .SUCCESS (some (rest.take 32768)) (if 32769 < rest.length then rest.drop 32769 else []))
      else .ok (.more (124 :: 0 :: 0 :: 128 :: 0 :: rest) 32768) := by
  have hlength : packetLength (124 :: 0 :: 0 :: 128 :: 0 :: rest) = .ok 32768 := by
    rw [packetLength, if_neg (by decide)]
    exact congrArg Except.ok (by decide)
  have hdecode : decodeLength (124 :: 0 :: 0 :: 128 :: 0 :: rest) 0 = .ok 32768 := by
    rw [decodeLength, if_pos ⟨rfl, by simp⟩, hlength]
  have hneed : ((32768 : UInt32) + 6).toNat = 32769 + 5 := by decide
  have hvalue : (32768 : UInt32).toNat = 32768 := by decide
  rw [finishRound, hdecode, Run.ok_bind, hneed, hvalue]
  simp only [List.length_cons, List.drop_succ_cons, List.drop_zero]
  by_cases hlong : 32769 ≤ rest.length
  · rw [if_pos (by omega), if_pos (by omega), if_pos hlong]
    by_cases hmore : 32769 < rest.length
    · rw [if_pos (by omega), if_pos hmore]
    · rw [if_neg (by omega), if_neg hmore]
  · rw [if_neg (by omega), if_neg hlong]

/-- The second datagram of `zeros` is lost, and a short packet follows. -/
def lostPart (peer : Peer) : List Passage :=
  if peer = ([49], 1) then
    [⟨zeros, [firstPart], firstPart_sublist⟩, ⟨[120], [packetBuffer [120]], .refl _⟩]
  else []

/-- What the receiver makes of it: the bytes of the second packet complete the
first one. -/
def invented : Bytes :=
  (List.replicate 32763 0 ++ packetBuffer [120]).take 32768

theorem receivePacket_lostPart : ∃ socket,
    receivePacket fresh (arrivals [(([49], 1), firstPart), (([49], 1), packetBuffer [120])]) =
      .ok (some ⟨.SUCCESS, some invented, some ([49], 1), socket, []⟩) := by
  have hne : firstPart ≠ [] := List.cons_ne_nil _ _
  have hsize : firstPart.length ≤ MAX_PACKET_SIZE := by
    simp only [firstPart, List.length_cons, List.length_replicate]
    decide
  have hbegin : absorb [] [] 0 firstPart = .ok (.more firstPart 32768) := by
    have hheader : absorb [] [] 0 firstPart = finishRound firstPart 0 := if_pos rfl
    rw [hheader, firstPart, finishRound_zeros, if_neg]
    rw [List.length_replicate]
    decide
  have hend : ∃ leftover, absorb firstPart firstPart 0 (packetBuffer [120]) =
      .ok (.done .SUCCESS (some invented) leftover) := by
    have hjoin : absorb firstPart firstPart 0 (packetBuffer [120]) =
        finishRound (firstPart ++ packetBuffer [120]) 0 := if_neg hne
    rw [hjoin]
    simp only [firstPart, List.cons_append]
    rw [finishRound_zeros, if_pos]
    · exact ⟨_, rfl⟩
    · rw [List.length_append, List.length_replicate]
      decide
  obtain ⟨leftover, hend⟩ := hend
  have hstored : (fresh.store ([49], 1) firstPart).buffer ([49], 1) = firstPart := by
    simp only [UdpSocket.store, Function.update_self]
  refine ⟨(fresh.store ([49], 1) firstPart).store ([49], 1) leftover, ?_⟩
  rw [receivePacket, if_pos (show fresh.bound = true from rfl),
    receiveLoop_datagram hne hsize,
    show fresh.buffer ([49], 1) = [] from rfl, hbegin, Run.ok_bind, afterRound,
    receiveLoop_datagram (by decide) (by decide), hstored, hend, Run.ok_bind, afterRound]
  rfl

/-- The packet that is reported was not sent. -/
theorem receivePacket_invents_packet :
    (∀ peer, ∀ p ∈ lostPart peer, p.payload.length < 2 ^ 31 - 6) ∧
      ∃ net results, (∀ peer, inbox net peer = (lostPart peer).flatMap Passage.arrived) ∧
        Calls fresh (arrivals net) results ∧ ∃ received ∈ results, received.error = .SUCCESS ∧
          received.peer = some ([49], 1) ∧ received.packet = some invented ∧
          invented ∉ (lostPart ([49], 1)).map Passage.payload := by
  obtain ⟨socket, hcall⟩ := receivePacket_lostPart
  refine ⟨fun peer p hp => ?_, _, _, fun peer => ?_, .cons hcall (.nil _ _), _, List.mem_cons_self,
    rfl, rfl, rfl, ?_⟩
  · unfold lostPart at hp
    split at hp
    · rcases List.mem_pair.mp hp with hp | hp
      · rw [hp]
        simp only [zeros, List.length_replicate]
        decide
      · rw [hp]
        decide
    · cases hp
  · by_cases hpeer : peer = ([49], 1)
    · simp [inbox, lostPart, hpeer]
    · simp [inbox, lostPart, hpeer, Ne.symm hpeer]
  · have hbar : (124 : UInt8) ∈ invented := by
      rw [invented, List.take_append, List.length_replicate]
      exact List.mem_append_right _ List.mem_cons_self
    have hlong : invented.length = 32768 := by
      rw [invented, List.length_take, List.length_append, List.length_replicate]
      rfl
    simp only [lostPart, if_true, List.map_cons, List.map_nil, List.mem_cons, List.not_mem_nil,
      or_false, not_or]
    constructor
    · intro heq
      rw [heq, zeros] at hbar
      exact absurd (List.eq_of_mem_replicate hbar) (by decide)
    · intro heq
      rw [heq] at hlong
      cases hlong

end clockUtils.sockets.UdpSocket
