import ClockUtils.Sockets.TcpReassembly

namespace clockUtils.sockets

/-- The bytes that `recv` has yet to hand over. -/
def dataBytes (events : List RecvEvent) : Bytes :=
  events.flatMap fun
    | .data chunk => chunk.bytes
    | .closed => []
    | .failed _ => []

/-- Of a stream of packets, the bytes from position `first` up to `last` contain
the end of a packet. -/
def EndsIn (strs : List Bytes) (first last : Nat) : Prop :=
  ∃ done, done <+: strs ∧ first < (done.flatMap packetBuffer).length ∧
    (done.flatMap packetBuffer).length ≤ last

/-- Whenever `recv` fails with an error that is returned, the last chunk before
contains the end of a packet. `position` counts the bytes of the stream handed
over so far, and `clear` tells whether an error may be returned here. -/
def FailsBetween (strs : List Bytes) (position : Nat) (clear : Prop) : List RecvEvent → Prop
  | [] => True
  | .data chunk :: events =>
    FailsBetween strs (position + chunk.bytes.length)
      (EndsIn strs position (position + chunk.bytes.length)) events
  | .closed :: events => clear ∧ FailsBetween strs position clear events
  | .failed errno :: events =>
    (getLastError errno ≠ .IN_PROGRESS → clear) ∧ FailsBetween strs position clear events

theorem endsIn_first {str : Bytes} {strs : List Bytes} {first last : Nat}
    (hfirst : first < (packetBuffer str).length) (hlast : (packetBuffer str).length ≤ last) :
    EndsIn (str :: strs) first last := by
  refine ⟨[str], by simp, ?_, ?_⟩
  · simpa using hfirst
  · simpa using hlast

/-- No packet ends before the first one does. -/
theorem not_endsIn_of_lt {str : Bytes} {strs : List Bytes} {first last : Nat}
    (hlast : last < (packetBuffer str).length) : ¬ EndsIn (str :: strs) first last := by
  rintro ⟨done, hdone, hfirst, hle⟩
  cases done with
  | nil => simp at hfirst
  | cons str' done =>
    obtain ⟨rfl, -⟩ := List.cons_prefix_cons.mp hdone
    rw [List.flatMap_cons, List.length_append] at hle
    omega

/-- Behind the first packet only the later ones count. -/
theorem endsIn_cons_iff {str : Bytes} {strs : List Bytes} {first last : Nat} :
    EndsIn (str :: strs) ((packetBuffer str).length + first) ((packetBuffer str).length + last) ↔
      EndsIn strs first last := by
  constructor
  · rintro ⟨done, hdone, hfirst, hlast⟩
    cases done with
    | nil => simp at hfirst
    | cons str' done =>
      obtain ⟨rfl, hdone'⟩ := List.cons_prefix_cons.mp hdone
      rw [List.flatMap_cons, List.length_append] at hfirst hlast
      exact ⟨done, hdone', by omega, by omega⟩
  · rintro ⟨done, hdone, hfirst, hlast⟩
    refine ⟨str :: done, List.cons_prefix_cons.mpr ⟨rfl, hdone⟩, ?_, ?_⟩
    · rw [List.flatMap_cons, List.length_append]
      omega
    · rw [List.flatMap_cons, List.length_append]
      omega

theorem failsBetween_cons_iff {str : Bytes} {strs : List Bytes} {position : Nat} {clear : Prop}
    {events : List RecvEvent} :
    FailsBetween (str :: strs) ((packetBuffer str).length + position) clear events ↔
      FailsBetween strs position clear events := by
  induction events generalizing position clear with
  | nil => exact Iff.rfl
  | cons event events ih =>
    cases event with
    | data chunk =>
      simp only [FailsBetween]
      rw [Nat.add_assoc, ih, endsIn_cons_iff]
    | closed => simp only [FailsBetween, ih]
    | failed errno => simp only [FailsBetween, ih]

/-- Where no data is left, an error may be returned at any time. -/
theorem failsBetween_of_no_data {strs : List Bytes} {position : Nat} {events : List RecvEvent}
    (h : dataBytes events = []) : FailsBetween strs position True events := by
  induction events with
  | nil => trivial
  | cons event events ih =>
    cases event with
    | data chunk => simp [dataBytes, chunk.nonempty] at h
    | closed => exact ⟨trivial, ih h⟩
    | failed errno => exact ⟨fun _ => trivial, ih h⟩

namespace TcpSocket

/-- What a call can come to on a stream of packets when it holds the bytes up to
`position`: the first packet; an error behind which nothing is missing; an error
that has cost bytes, where none may be returned; or it waits with nothing left
to come. -/
inductive CallFor (strs : List Bytes) (socket : TcpSocket) (position : Nat) (clear : Prop)
    (events : List RecvEvent) : Run (Option Received) → Prop where
  | packet {str : Bytes} {strs' : List Bytes} {leftover : Bytes} {rest : List RecvEvent}
      (hstrs : strs = str :: strs') (hlength : rest.length ≤ events.length)
      (hstream : leftover ++ dataBytes rest = strs'.flatMap packetBuffer)
      (hfails : FailsBetween strs position clear events ↔
        FailsBetween strs' leftover.length True rest) :
      CallFor strs socket position clear events
        (.ok (some ⟨.SUCCESS, some str, { socket with buffer := leftover }, rest⟩))
  | kept {error : ClockError} {rest : List RecvEvent} (herror : error ≠ .SUCCESS) (hclear : clear)
      (hlength : rest.length < events.length) (hdata : dataBytes rest = dataBytes events)
      (hfails : FailsBetween strs position clear events ↔
        FailsBetween strs socket.buffer.length True rest) :
      CallFor strs socket position clear events (.ok (some ⟨error, none, socket, rest⟩))
  | lost {error : ClockError} {rest : List RecvEvent} (herror : error ≠ .SUCCESS)
      (hdata : socket.buffer.length + (dataBytes rest).length < position + (dataBytes events).length)
      (hfails : ¬ FailsBetween strs position clear events) :
      CallFor strs socket position clear events (.ok (some ⟨error, none, socket, rest⟩))
  | waits (hstrs : strs = []) : CallFor strs socket position clear events (.ok none)

/-- An event at the front that hands over nothing and is not returned. -/
theorem CallFor.skip {strs : List Bytes} {socket : TcpSocket} {position : Nat} {clear : Prop}
    {event : RecvEvent} {events : List RecvEvent} {outcome : Run (Option Received)}
    (hdata : dataBytes (event :: events) = dataBytes events)
    (hfails : FailsBetween strs position clear (event :: events) ↔
      FailsBetween strs position clear events)
    (h : CallFor strs socket position clear events outcome) :
    CallFor strs socket position clear (event :: events) outcome := by
  cases h with
  | packet hstrs hlength hstream hfails' =>
    exact .packet hstrs (Nat.le_succ_of_le hlength) hstream (hfails.trans hfails')
  | kept herror hclear hlength hdata' hfails' =>
    exact .kept herror hclear (Nat.lt_succ_of_lt hlength) (hdata'.trans hdata.symm) (hfails.trans hfails')
  | lost herror hdata' hfails' =>
    exact .lost herror (by rwa [hdata]) (mt hfails.mp hfails')
  | waits hstrs => exact .waits hstrs

/-- A chunk at the front that does not contain the end of a packet. -/
theorem CallFor.advance {strs : List Bytes} {socket : TcpSocket} {position : Nat} {clear : Prop}
    {chunk : Chunk} {events : List RecvEvent} {outcome : Run (Option Received)}
    (hends : ¬ EndsIn strs position (position + chunk.bytes.length))
    (h : CallFor strs socket (position + chunk.bytes.length)
      (EndsIn strs position (position + chunk.bytes.length)) events outcome) :
    CallFor strs socket position clear (.data chunk :: events) outcome := by
  cases h with
  | packet hstrs hlength hstream hfails =>
    exact .packet hstrs (Nat.le_succ_of_le hlength) hstream hfails
  | kept _ hclear _ _ _ => exact absurd hclear hends
  | lost herror hdata hfails =>
    refine .lost herror ?_ hfails
    simp only [dataBytes, List.flatMap_cons, List.length_append] at hdata ⊢
    omega
  | waits hstrs => exact .waits hstrs

/-- An error that is returned. It has cost bytes unless `clear` holds, which is
so as long as the call has not read anything. -/
theorem CallFor.returned {strs : List Bytes} {socket : TcpSocket} {position : Nat} {clear : Prop}
    {event : RecvEvent} {events : List RecvEvent} {error : ClockError} (herror : error ≠ .SUCCESS)
    (hdata : dataBytes (event :: events) = dataBytes events)
    (hfails : FailsBetween strs position clear (event :: events) ↔
      clear ∧ FailsBetween strs position clear events)
    (hle : socket.buffer.length ≤ position) (hclear : clear ↔ socket.buffer.length = position) :
    CallFor strs socket position clear (event :: events)
      (.ok (some ⟨error, none, socket, events⟩)) := by
  by_cases hread : clear
  · refine .kept herror hread (Nat.lt_succ_self _) hdata.symm (hfails.trans ?_)
    rw [hclear.mp hread]
    simp [hread]
  · refine .lost herror ?_ fun h => hread (hfails.mp h).1
    rw [hdata]
    have hne : socket.buffer.length ≠ position := mt hclear.mpr hread
    omega

theorem receiveLoop_retry {socket : TcpSocket} {result : Bytes} {length : UInt32}
    {event : RecvEvent} {events : List RecvEvent} (h : recvOnce event = none) :
    receiveLoop socket result length (event :: events) = receiveLoop socket result length events := by
  rw [receiveLoop, h]

theorem receiveLoop_error {socket : TcpSocket} {result : Bytes} {length : UInt32}
    {event : RecvEvent} {events : List RecvEvent} {error : ClockError} (herror : error ≠ .SUCCESS)
    (h : recvOnce event = some (error, [])) :
    receiveLoop socket result length (event :: events) = .ok (some ⟨error, none, socket, events⟩) := by
  simp [receiveLoop, h, herror]

theorem receiveLoop_data {socket : TcpSocket} {result : Bytes} {length : UInt32} {chunk : Chunk}
    {events : List RecvEvent} :
    receiveLoop socket result length (.data chunk :: events) =
      absorb socket.buffer result length chunk.bytes >>=
        afterRound socket events (fun result length => receiveLoop socket result length events) := by
  simp only [receiveLoop, recvOnce, ne_eq, not_true_eq_false, if_false, chunk.nonempty]

theorem recvOnce_failed (errno : Errno) :
    recvOnce (.failed errno) = none ∧ getLastError errno = .IN_PROGRESS ∨
      recvOnce (.failed errno) = some (getLastError errno, []) ∧
        getLastError errno ≠ .IN_PROGRESS := by
  by_cases h : getLastError errno = .IN_PROGRESS
  · exact .inl ⟨if_pos h, h⟩
  · exact .inr ⟨if_neg h, h⟩

/-- Reading events that hand over nothing, whatever the loop does with data. -/
theorem receiveLoop_failure {strs : List Bytes} {socket : TcpSocket} {result : Bytes}
    {length : UInt32} {clear : Prop} {errno : Errno} {events : List RecvEvent}
    (hle : socket.buffer.length ≤ result.length)
    (hclear : clear ↔ socket.buffer.length = result.length)
    (h : CallFor strs socket result.length clear events (receiveLoop socket result length events)) :
    CallFor strs socket result.length clear (.failed errno :: events)
      (receiveLoop socket result length (.failed errno :: events)) := by
  rcases recvOnce_failed errno with ⟨hretry, hin⟩ | ⟨hreturn, hother⟩
  · rw [receiveLoop_retry hretry]
    exact h.skip rfl (by simp [FailsBetween, hin])
  · have herror := getLastError_ne_success errno
    rw [receiveLoop_error herror hreturn]
    exact .returned herror rfl (by simp [FailsBetween, hother]) hle hclear

theorem receiveLoop_closed {strs : List Bytes} {socket : TcpSocket} {result : Bytes}
    {length : UInt32} {clear : Prop} {events : List RecvEvent}
    (hle : socket.buffer.length ≤ result.length)
    (hclear : clear ↔ socket.buffer.length = result.length) :
    CallFor strs socket result.length clear (.closed :: events)
      (receiveLoop socket result length (.closed :: events)) := by
  rw [receiveLoop_error (by decide) rfl]
  exact .returned (by decide) rfl Iff.rfl hle hclear

/-- The loop on a stream that goes on with the packet of `str`. The stream cannot end inside
this packet. -/
theorem receiveLoop_callFor {str : Bytes} {strs : List Bytes} (hlen : str.length < 2 ^ 31 - 6)
    {socket : TcpSocket} {result : Bytes} {length : UInt32} {clear : Prop} {events : List RecvEvent}
    (hstream : result ++ dataBytes events = packetBuffer str ++ strs.flatMap packetBuffer)
    (hlength : LengthFor str result length) (hshort : result.length < (packetBuffer str).length)
    (hle : socket.buffer.length ≤ result.length)
    (hclear : clear ↔ socket.buffer.length = result.length) :
    CallFor (str :: strs) socket result.length clear events
      (receiveLoop socket result length events) := by
  induction events generalizing result length clear with
  | nil =>
    have htotal := congrArg List.length hstream
    simp only [dataBytes, List.flatMap_nil, List.append_nil, List.length_append] at htotal
    omega
  | cons event events ih =>
    cases event with
    | closed => exact receiveLoop_closed hle hclear
    | failed errno => exact receiveLoop_failure hle hclear (ih hstream hlength hshort hle hclear)
    | data chunk =>
      have hstream' : result ++ chunk.bytes ++ dataBytes events =
          packetBuffer str ++ strs.flatMap packetBuffer := by
        simpa [dataBytes] using hstream
      have hpositive : 0 < chunk.bytes.length := List.length_pos_iff.mpr chunk.nonempty
      have hround := absorb_spec socket.buffer hlen hstream' hlength (fun _ => chunk.nonempty)
      rw [receiveLoop_data]
      split at hround
      · next hcomplete =>
        obtain ⟨leftover, hdone, hleftover⟩ := hround
        rw [hdone]
        refine .packet rfl (Nat.le_succ _) hleftover ?_
        rw [List.length_append] at hcomplete
        have hposition : result.length + chunk.bytes.length =
            (packetBuffer str).length + leftover.length := by
          have htotal := congrArg List.length hstream'
          rw [← hleftover] at htotal
          simp only [List.length_append] at htotal
          omega
        have hends : EndsIn (str :: strs) _ _ := endsIn_first hshort hcomplete
        rw [FailsBetween, iff_true_intro hends, hposition, failsBetween_cons_iff]
      · next hincomplete =>
        obtain ⟨length', hmore, hlength'⟩ := hround
        rw [hmore]
        rw [List.length_append] at hincomplete
        have hnot : ¬ EndsIn (str :: strs) result.length (result.length + chunk.bytes.length) :=
          not_endsIn_of_lt (by omega)
        rw [← List.length_append] at hnot
        refine CallFor.advance (by rwa [← List.length_append]) ?_
        rw [← List.length_append]
        apply ih hstream' hlength'
        · rw [List.length_append]
          omega
        · rw [List.length_append]
          omega
        · rw [List.length_append] at hnot ⊢
          exact ⟨fun h => absurd h hnot, fun h => by omega⟩

/-- With all packets received, a call waits or returns an error. -/
theorem receiveLoop_callFor_nil {socket : TcpSocket} (hbuffer : socket.buffer = []) {length : UInt32}
    {events : List RecvEvent} (hdata : dataBytes events = []) :
    CallFor [] socket 0 True events (receiveLoop socket [] length events) := by
  induction events with
  | nil => exact .waits rfl
  | cons event events ih =>
    have hclear : True ↔ socket.buffer.length = ([] : Bytes).length := by simp [hbuffer]
    have hle : socket.buffer.length ≤ ([] : Bytes).length := by simp [hbuffer]
    cases event with
    | data chunk => simp [dataBytes, chunk.nonempty] at hdata
    | closed => exact receiveLoop_closed hle hclear
    | failed errno => exact receiveLoop_failure hle hclear (ih hdata)

/-- One call of `receivePacket` between two packets of a stream. -/
theorem receivePacket_callFor {strs : List Bytes} (hlen : ∀ str ∈ strs, str.length < 2 ^ 31 - 6)
    {socket : TcpSocket} (hstatus : socket.status = .CONNECTED) {events : List RecvEvent}
    (hstream : socket.buffer ++ dataBytes events = strs.flatMap packetBuffer) :
    CallFor strs socket socket.buffer.length True events (receivePacket socket events) := by
  rw [receivePacket, if_neg (by simp [hstatus])]
  cases strs with
  | nil =>
    obtain ⟨hbuffer, hdata⟩ := List.append_eq_nil_iff.mp hstream
    rw [if_pos hbuffer, hbuffer]
    exact receiveLoop_callFor_nil hbuffer hdata
  | cons str strs =>
    rw [List.forall_mem_cons] at hlen
    rw [List.flatMap_cons] at hstream
    have hlength : LengthFor str socket.buffer 0 := .inl rfl
    split
    · next hempty =>
      rw [hempty] at hstream hlength ⊢
      refine receiveLoop_callFor hlen.1 hstream hlength ?_ ?_ ?_
      · rw [length_packetBuffer]
        simp
      · simp [hempty]
      · simp [hempty]
    · next hne =>
      have hstream' : socket.buffer ++ [] ++ dataBytes events =
          packetBuffer str ++ strs.flatMap packetBuffer := by
        rwa [List.append_nil]
      have hround := absorb_spec socket.buffer hlen.1 hstream' hlength (fun h => absurd h hne)
      rw [List.append_nil] at hround
      split at hround
      · obtain ⟨leftover, hdone, hleftover⟩ := hround
        rw [hdone]
        refine .packet rfl le_rfl hleftover ?_
        have hposition : socket.buffer.length = (packetBuffer str).length + leftover.length := by
          have htotal := congrArg List.length hstream
          rw [← hleftover] at htotal
          simp only [List.length_append] at htotal
          omega
        rw [hposition, failsBetween_cons_iff]
      · obtain ⟨length, hmore, hlength⟩ := hround
        rw [hmore]
        exact receiveLoop_callFor hlen.1 hstream hlength (by omega) le_rfl (by simp)

/-- Successive calls of `receivePacket` that return, with their results. -/
inductive Calls : TcpSocket → List RecvEvent → List (ClockError × Option Bytes) → TcpSocket →
    List RecvEvent → Prop where
  | nil (socket : TcpSocket) (events : List RecvEvent) : Calls socket events [] socket events
  | cons {socket socket' : TcpSocket} {events events' : List RecvEvent} {received : Received}
      {results : List (ClockError × Option Bytes)}
      (hcall : receivePacket socket events = .ok (some received))
      (hrest : Calls received.socket received.events results socket' events') :
      Calls socket events ((received.error, received.packet) :: results) socket' events'

/-- However often it is called, a call that returns an error leaves the buffered
bytes followed by those still to come as they were. -/
def KeepsBytes (socket : TcpSocket) (events : List RecvEvent) : Prop :=
  ∀ results socket' events', Calls socket events results socket' events' →
    ∀ received, receivePacket socket' events' = .ok (some received) → received.error ≠ .SUCCESS →
      received.socket.buffer ++ dataBytes received.events = socket'.buffer ++ dataBytes events'

/-- Repeated calls yield exactly these packets in order and use up all bytes. -/
def Yields (strs : List Bytes) (socket : TcpSocket) (events : List RecvEvent) : Prop :=
  ∃ results socket' events', Calls socket events results socket' events' ∧
    socket'.buffer ++ dataBytes events' = [] ∧
    results.filterMap (fun result => if result.1 = .SUCCESS then result.2 else none) = strs

theorem keepsBytes_of_waits {socket : TcpSocket} {events : List RecvEvent}
    (h : receivePacket socket events = .ok none) : KeepsBytes socket events := by
  intro results socket' events' hcalls received hreceived
  cases hcalls with
  | nil =>
    rw [h] at hreceived
    cases hreceived
  | cons hcall =>
    rw [h] at hcall
    cases hcall

theorem keepsBytes_iff {socket : TcpSocket} {events : List RecvEvent} {received : Received}
    (h : receivePacket socket events = .ok (some received)) :
    KeepsBytes socket events ↔
      (received.error ≠ .SUCCESS →
        received.socket.buffer ++ dataBytes received.events = socket.buffer ++ dataBytes events) ∧
      KeepsBytes received.socket received.events := by
  constructor
  · intro hkeeps
    refine ⟨hkeeps [] socket events (.nil _ _) received h, ?_⟩
    intro results socket' events' hcalls
    exact hkeeps _ socket' events' (.cons h hcalls)
  · rintro ⟨hfirst, hrest⟩ results socket' events' hcalls received' hreceived'
    cases hcalls with
    | nil =>
      rw [h] at hreceived'
      cases hreceived'
      exact hfirst
    | cons hcall hcalls =>
      rw [h] at hcall
      cases hcall
      exact hrest _ _ _ hcalls received' hreceived'

theorem Yields.step {strs : List Bytes} {socket : TcpSocket} {events : List RecvEvent}
    {received : Received} (h : receivePacket socket events = .ok (some received))
    (hrest : Yields strs received.socket received.events) :
    Yields ((if received.error = .SUCCESS then received.packet else none).toList ++ strs)
      socket events := by
  obtain ⟨results, socket', events', hcalls, hempty, hresults⟩ := hrest
  refine ⟨_, socket', events', .cons h hcalls, hempty, ?_⟩
  rw [List.filterMap_cons, hresults]
  cases (if received.error = .SUCCESS then received.packet else none) <;> rfl

/-- Calls between two packets of a stream: by induction on the events and
packets that are left, of which each call takes one. -/
theorem calls_of_stream {strs : List Bytes} (hlen : ∀ str ∈ strs, str.length < 2 ^ 31 - 6)
    {socket : TcpSocket} (hstatus : socket.status = .CONNECTED) {events : List RecvEvent}
    (hstream : socket.buffer ++ dataBytes events = strs.flatMap packetBuffer) :
    (KeepsBytes socket events ↔ FailsBetween strs socket.buffer.length True events) ∧
      (FailsBetween strs socket.buffer.length True events → Yields strs socket events) := by
  induction hn : events.length + strs.length using Nat.strongRecOn
    generalizing strs socket events with
  | ind n ih =>
    have hcall := receivePacket_callFor hlen hstatus hstream
    generalize houtcome : receivePacket socket events = outcome at hcall
    cases hcall with
    | @packet str strs' leftover rest hstrs hlength hstream' hfails =>
      subst hstrs
      rw [List.length_cons] at hn
      have hstatus' : ({ socket with buffer := leftover } : TcpSocket).status = .CONNECTED := hstatus
      obtain ⟨hkeeps, hyields⟩ :=
        ih _ (by omega) (List.forall_mem_cons.mp hlen).2 hstatus' hstream' rfl
      rw [keepsBytes_iff houtcome, hfails]
      refine ⟨?_, fun h => (hyields h).step houtcome⟩
      rw [hkeeps]
      simp
    | @kept error rest herror _ hlength hdata hfails =>
      obtain ⟨hkeeps, hyields⟩ := ih _ (by omega) hlen hstatus (hdata ▸ hstream) rfl
      rw [keepsBytes_iff houtcome, hfails]
      refine ⟨?_, fun h => ?_⟩
      · rw [hkeeps, hdata]
        simp
      · have hstep := (hyields h).step houtcome
        rwa [if_neg herror] at hstep
    | lost herror hdata hfails =>
      refine ⟨⟨fun hkeeps => ?_, fun h => absurd h hfails⟩, fun h => absurd h hfails⟩
      have hsame := congrArg List.length (((keepsBytes_iff houtcome).mp hkeeps).1 herror)
      simp only [List.length_append] at hsame
      omega
    | waits hstrs =>
      subst hstrs
      obtain ⟨hbuffer, hdata⟩ := List.append_eq_nil_iff.mp hstream
      have hfails : FailsBetween [] socket.buffer.length True events := failsBetween_of_no_data hdata
      refine ⟨⟨fun _ => hfails, fun _ => keepsBytes_of_waits houtcome⟩, fun _ => ?_⟩
      exact ⟨[], socket, events, .nil _ _, hstream, rfl⟩

/-- For every packet stream, every chunking of it and every set of points at
which `recv` fails: each call that returns an error keeps all bytes, and
repeated calls yield all packets in order, exactly when the last chunk before
every error that is returned contains the end of a packet. -/
theorem receivePacket_keeps_bytes_iff (strs : List Bytes)
    (hlen : ∀ str ∈ strs, str.length < 2 ^ 31 - 6) (events : List RecvEvent)
    (hstream : dataBytes events = strs.flatMap packetBuffer) :
    KeepsBytes ⟨.CONNECTED, []⟩ events ∧ Yields strs ⟨.CONNECTED, []⟩ events ↔
      FailsBetween strs 0 True events := by
  have hstatus : (⟨.CONNECTED, []⟩ : TcpSocket).status = .CONNECTED := rfl
  obtain ⟨hkeeps, hyields⟩ := calls_of_stream hlen hstatus hstream
  constructor
  · intro h
    exact hkeeps.mp h.1
  · intro h
    exact ⟨hkeeps.mpr h, hyields h⟩

/-- The packet `x` whose last chunk also begins the packet `y`, an interrupted
`recv`, and the rest. -/
theorem receivePacket_keeps_bytes_between :
    KeepsBytes ⟨.CONNECTED, []⟩
        [.data ⟨[124, 0, 0, 0, 1, 120, 124, 124, 0], by decide, by decide⟩, .failed .EINTR,
          .data ⟨[0, 0, 1, 121, 124], by decide, by decide⟩] ∧
      Yields [[120], [121]] ⟨.CONNECTED, []⟩
        [.data ⟨[124, 0, 0, 0, 1, 120, 124, 124, 0], by decide, by decide⟩, .failed .EINTR,
          .data ⟨[0, 0, 1, 121, 124], by decide, by decide⟩] := by
  refine (receivePacket_keeps_bytes_iff [[120], [121]] (by decide) _ (by decide)).mpr ?_
  have hends : EndsIn [[120], [121]] 0 9 := ⟨[[120]], by decide, by decide, by decide⟩
  exact ⟨fun _ => hends, trivial⟩

/-- A chunk with half of a header, and then an interrupted `recv`: the call
returns `NOT_READY` and the chunk is gone. -/
theorem receivePacket_loses_chunk :
    ∃ events : List RecvEvent, dataBytes events = [[120]].flatMap packetBuffer ∧
      ∃ received, receivePacket ⟨.CONNECTED, []⟩ events = .ok (some received) ∧
        received.error = .NOT_READY ∧
        received.socket.buffer ++ dataBytes received.events ≠ dataBytes events :=
  ⟨[.data ⟨[124, 0, 0], by decide, by decide⟩, .failed .EINTR,
      .data ⟨[0, 1, 120, 124], by decide, by decide⟩], by decide, _, rfl, rfl, by decide⟩

end TcpSocket

end clockUtils.sockets
