import ClockUtils.Sockets.Frames
import ClockUtils.Sockets.TcpReassembly

namespace clockUtils.sockets

namespace TcpSocket

/-- How a call ends. -/
inductive Outcome where
  | returned (error : ClockError) (packet : Option Bytes)
  /-- it still waits for `recv` -/
  | waiting
  | undefined (step : Undefined)
  deriving DecidableEq

/-- What is seen of a call that either ends the run or returns. -/
def seen (run : Run (Option Received)) (next : Received → Outcome) : Outcome :=
  match run with
  | .error step => .undefined step
  | .ok none => .waiting
  | .ok (some received) => next received

/-- The end of the `k`-th of successive calls. No call follows one that waits or
is undefined, and its end stands for theirs. -/
def nthCall : Nat → TcpSocket → List RecvEvent → Outcome
  | 0, socket, events =>
    seen (receivePacket socket events) fun received => .returned received.error received.packet
  | k + 1, socket, events =>
    seen (receivePacket socket events) fun received => nthCall k received.socket received.events

/-- The `k`-th call on a new connection whose stream arrives in these chunks. -/
def nthOf (chunks : List Chunk) (k : Nat) : Outcome :=
  nthCall k ⟨.CONNECTED, []⟩ (chunks.map .data)

theorem arriving_map_data (chunks : List Chunk) : arriving (chunks.map .data) = chunkBytes chunks := by
  induction chunks with
  | nil => rfl
  | cons chunk chunks ih => simp [arriving, chunkBytes, ih]

theorem not_fails_map_data (chunks : List Chunk) : ¬ Fails (chunks.map .data) := by
  rintro ⟨event, hmem, hne⟩
  obtain ⟨chunk, -, rfl⟩ := List.mem_map.mp hmem
  exact hne chunk rfl

theorem chunkBytes_eq_nil {chunks : List Chunk} (h : chunkBytes chunks = []) : chunks = [] := by
  cases chunks with
  | nil => rfl
  | cons chunk chunks => simp [chunkBytes, chunk.nonempty] at h

/-- A call on a stream of chunks that begins with buffered bytes or a bar. -/
theorem receivePacket_chunks {buffer : Bytes} {chunks : List Chunk}
    (hstart : buffer ≠ [] ∨ (chunkBytes chunks).head? = some bar) :
    match frame (buffer ++ chunkBytes chunks) with
    | .undecodable =>
      receivePacket ⟨.CONNECTED, buffer⟩ (chunks.map .data) = .error .signedOverflow
    | .complete packet leftover => ∃ kept rest, rest <:+ chunks ∧
        receivePacket ⟨.CONNECTED, buffer⟩ (chunks.map .data) =
          .ok (some ⟨.SUCCESS, some packet, ⟨.CONNECTED, kept⟩, rest.map .data⟩) ∧
        kept ++ chunkBytes rest = leftover
    | .incomplete => receivePacket ⟨.CONNECTED, buffer⟩ (chunks.map .data) = .ok none := by
  have hcall := @receivePacket_frame ⟨.CONNECTED, buffer⟩ rfl (chunks.map .data)
    (by rwa [arriving_map_data])
  rw [arriving_map_data] at hcall
  cases hframe : frame (buffer ++ chunkBytes chunks) with
  | undecodable =>
    rw [hframe] at hcall
    exact hcall
  | complete packet leftover =>
    rw [hframe] at hcall
    obtain ⟨kept, events, hrun, hsuffix, -, hleftover⟩ := hcall
    obtain ⟨rest, hrest, rfl⟩ := List.suffix_map_iff.mp hsuffix
    rw [arriving_map_data] at hleftover
    exact ⟨kept, rest, hrest, hrun, hleftover⟩
  | incomplete =>
    rw [hframe] at hcall
    obtain ⟨outcome, hrun, -, hwait⟩ := hcall
    rw [hrun, hwait (not_fails_map_data chunks)]

/-- A first chunk without a bar is dropped as a whole. -/
theorem receivePacket_unknown {chunk : Chunk} (hbar : chunk.bytes.head? ≠ some bar)
    (events : List RecvEvent) :
    receivePacket ⟨.CONNECTED, []⟩ (.data chunk :: events) =
      .ok (some ⟨.UNKNOWN, none, ⟨.CONNECTED, []⟩, events⟩) := by
  simp only [receivePacket, receiveLoop, recvOnce, ne_eq, not_true_eq_false, if_false, if_true,
    chunk.nonempty]
  rw [absorb_eq_unknown _ _ rfl chunk.nonempty hbar]
  rfl

/-- No first byte, or a bar. -/
def Opens (stream : Bytes) : Prop :=
  ∀ c, stream.head? = some c → c = bar

/-- A stream in which each frame begins with a bar: the packets of its complete
frames, and how a call ends that meets the last, incomplete one. -/
inductive Delimited : Bytes → List Bytes → Outcome → Prop where
  | incomplete {stream : Bytes} (hopens : Opens stream) (hframe : frame stream = .incomplete) :
      Delimited stream [] .waiting
  | undecodable {stream : Bytes} (hopens : Opens stream) (hframe : frame stream = .undecodable) :
      Delimited stream [] (.undefined .signedOverflow)
  | complete {stream packet rest : Bytes} {packets : List Bytes} {last : Outcome}
      (hopens : Opens stream) (hframe : frame stream = .complete packet rest)
      (hrest : Delimited rest packets last) : Delimited stream (packet :: packets) last

theorem Delimited.opens {stream : Bytes} {packets : List Bytes} {last : Outcome}
    (h : Delimited stream packets last) : Opens stream := by
  cases h with
  | incomplete hopens _ => exact hopens
  | undecodable hopens _ => exact hopens
  | complete hopens _ _ => exact hopens

/-- The `k`-th call returns the `k`-th packet, and behind them all calls end as
the last one. -/
def endings (packets : List Bytes) (last : Outcome) (k : Nat) : Outcome :=
  match packets[k]? with
  | some packet => .returned .SUCCESS (some packet)
  | none => last

/-- On a stream that opens, either nothing is left to read or the call works on
its first frame. -/
theorem Opens.start {buffer : Bytes} {chunks : List Chunk} (h : Opens (buffer ++ chunkBytes chunks)) :
    (buffer = [] ∧ chunks = []) ∨ buffer ≠ [] ∨ (chunkBytes chunks).head? = some bar := by
  by_cases hbuffer : buffer = []
  · rw [hbuffer, List.nil_append] at h
    cases hhead : (chunkBytes chunks).head? with
    | none => exact .inl ⟨hbuffer, chunkBytes_eq_nil (List.head?_eq_none_iff.mp hhead)⟩
    | some c => exact .inr (.inr (by rw [h c hhead]))
  · exact .inr (.inl hbuffer)

/-- However such a stream is cut and whatever part of it is buffered, its calls
end the same way. -/
theorem Delimited.nthCall_eq {stream : Bytes} {packets : List Bytes} {last : Outcome}
    (h : Delimited stream packets last) {buffer : Bytes} {chunks : List Chunk}
    (hstream : buffer ++ chunkBytes chunks = stream) (k : Nat) :
    nthCall k ⟨.CONNECTED, buffer⟩ (chunks.map .data) = endings packets last k := by
  induction h generalizing buffer chunks k with
  | @incomplete stream hopens hframe =>
    have hwait : receivePacket ⟨.CONNECTED, buffer⟩ (chunks.map .data) = .ok none := by
      rcases (hstream ▸ hopens).start with ⟨rfl, rfl⟩ | hstart
      · rfl
      · have hcall := receivePacket_chunks hstart
        rwa [hstream, hframe] at hcall
    cases k with
    | zero => rw [nthCall, hwait]; rfl
    | succ k => rw [nthCall, hwait]; rfl
  | @undecodable stream hopens hframe =>
    have herror : receivePacket ⟨.CONNECTED, buffer⟩ (chunks.map .data) =
        .error .signedOverflow := by
      rcases (hstream ▸ hopens).start with ⟨rfl, rfl⟩ | hstart
      · rw [← hstream] at hframe
        cases hframe
      · have hcall := receivePacket_chunks hstart
        rwa [hstream, hframe] at hcall
    cases k with
    | zero => rw [nthCall, herror]; rfl
    | succ k => rw [nthCall, herror]; rfl
  | @complete stream packet rest packets last hopens hframe hrest ih =>
    rcases (hstream ▸ hopens).start with ⟨rfl, rfl⟩ | hstart
    · rw [← hstream] at hframe
      cases hframe
    · have hcall := receivePacket_chunks hstart
      rw [hstream, hframe] at hcall
      obtain ⟨kept, chunks', -, hrun, hkept⟩ := hcall
      cases k with
      | zero => rw [nthCall, hrun]; rfl
      | succ k =>
        rw [nthCall, hrun]
        exact ih hkept k

theorem Delimited.nthOf_eq {stream : Bytes} {packets : List Bytes} {last : Outcome}
    (h : Delimited stream packets last) {chunks : List Chunk} (hchunks : chunkBytes chunks = stream)
    (k : Nat) : nthOf chunks k = endings packets last k :=
  h.nthCall_eq hchunks k

theorem round_append {socket : TcpSocket} {events : List RecvEvent} {received : Received}
    {round : Run Step} {loop loop' : Bytes → UInt32 → Run (Option Received)}
    (h : round >>= afterRound socket events loop = .ok (some received)) (more : List RecvEvent)
    (hloop : ∀ held length, loop held length = .ok (some received) →
      loop' held length = .ok (some { received with events := received.events ++ more })) :
    round >>= afterRound socket (events ++ more) loop' =
      .ok (some { received with events := received.events ++ more }) := by
  obtain ⟨step, hstep, hafter⟩ := Run.bind_eq_ok_iff.mp h
  rw [hstep, Run.ok_bind]
  cases step with
  | done error packet leftover =>
    obtain rfl : _ = received := by simpa [afterRound] using hafter
    rfl
  | more held length => exact hloop held length hafter

/-- More events behind those that a call takes do not matter to it. -/
theorem receiveLoop_append {socket : TcpSocket} {held : Bytes} {length : UInt32}
    {events : List RecvEvent} {received : Received}
    (h : receiveLoop socket held length events = .ok (some received)) (more : List RecvEvent) :
    receiveLoop socket held length (events ++ more) =
      .ok (some { received with events := received.events ++ more }) := by
  induction events generalizing held length with
  | nil => cases h
  | cons event events ih =>
    rw [receiveLoop] at h
    rw [List.cons_append, receiveLoop]
    cases honce : recvOnce event with
    | none =>
      rw [honce] at h
      exact ih h
    | some handed =>
      obtain ⟨error, s⟩ := handed
      rw [honce] at h
      simp only at h ⊢
      split at h
      · next herror =>
        obtain rfl : _ = received := by simpa using h
        rw [if_pos herror]
      · next hsuccess =>
        rw [if_neg hsuccess]
        split at h
        · next hempty =>
          rw [if_pos hempty]
          exact ih h
        · next hne =>
          rw [if_neg hne]
          exact round_append h more fun held length hrest => ih hrest

theorem receivePacket_append {socket : TcpSocket} {events : List RecvEvent} {received : Received}
    (h : receivePacket socket events = .ok (some received)) (more : List RecvEvent) :
    receivePacket socket (events ++ more) =
      .ok (some { received with events := received.events ++ more }) := by
  rw [receivePacket] at h ⊢
  split at h
  · next hstatus =>
    obtain rfl : _ = received := by simpa using h
    rw [if_pos hstatus]
  · next hstatus =>
    rw [if_neg hstatus]
    split at h
    · next hempty =>
      rw [if_pos hempty]
      exact receiveLoop_append h more
    · next hne =>
      rw [if_neg hne]
      exact round_append h more fun held length hrest => receiveLoop_append hrest more

/-- The stream in chunks of one byte each. -/
def singles (stream : Bytes) : List Chunk :=
  stream.map fun b => ⟨[b], by simp, by simp⟩

theorem chunkBytes_singles (stream : Bytes) : chunkBytes (singles stream) = stream := by
  induction stream with
  | nil => rfl
  | cons b stream ih =>
    rw [chunkBytes, singles] at ih
    simp [chunkBytes, singles, ih]

theorem chunkBytes_append (chunks more : List Chunk) :
    chunkBytes (chunks ++ more) = chunkBytes chunks ++ chunkBytes more := by
  simp [chunkBytes]

/-- A frame whose last byte comes in a chunk of its own leaves nothing over. -/
theorem receivePacket_singles {front packet : Bytes} (hbar : front.head? = some bar)
    (hframe : frame front = .complete packet []) (more : List RecvEvent) :
    receivePacket ⟨.CONNECTED, []⟩ ((singles front).map .data ++ more) =
      .ok (some ⟨.SUCCESS, some packet, ⟨.CONNECTED, []⟩, more⟩) := by
  have hcall := receivePacket_chunks (.inr (by rwa [chunkBytes_singles]) :
    ([] : Bytes) ≠ [] ∨ (chunkBytes (singles front)).head? = some bar)
  rw [List.nil_append, chunkBytes_singles, hframe] at hcall
  obtain ⟨kept, rest, -, hrun, hkept⟩ := hcall
  obtain ⟨rfl, hrest⟩ := List.append_eq_nil_iff.mp hkept
  rw [receivePacket_append hrun, chunkBytes_eq_nil hrest]
  rfl

/-- A frame whose last byte comes together with the next one leaves that over. -/
theorem receivePacket_joined {front packet : Bytes} (hbar : front.head? = some bar)
    (hframe : frame front = .complete packet []) (c : UInt8) :
    ∃ chunks, chunkBytes chunks = front ++ [c] ∧ ∀ more,
      receivePacket ⟨.CONNECTED, []⟩ (chunks.map .data ++ more) =
        .ok (some ⟨.SUCCESS, some packet, ⟨.CONNECTED, [c]⟩, more⟩) := by
  have hne : front ≠ [] := by
    rintro rfl
    cases hbar
  obtain ⟨init, a, rfl⟩ := (List.eq_nil_or_concat front).resolve_left hne
  rw [List.concat_eq_append] at hbar hframe ⊢
  let two : Chunk := ⟨[a, c], by simp, by simp⟩
  have hbytes : chunkBytes (singles init ++ [two]) = init ++ [a] ++ [c] := by
    rw [chunkBytes_append, chunkBytes_singles]
    simp [chunkBytes, two]
  refine ⟨singles init ++ [two], hbytes, fun more => ?_⟩
  have hstart : (chunkBytes (singles init ++ [two])).head? = some bar := by
    rw [hbytes, List.head?_append, hbar]
    rfl
  have hcall := receivePacket_chunks (.inr hstart :
    ([] : Bytes) ≠ [] ∨ (chunkBytes (singles init ++ [two])).head? = some bar)
  rw [List.nil_append, hbytes, frame_append_complete hframe, List.nil_append] at hcall
  obtain ⟨kept, rest, hsuffix, hrun, hkept⟩ := hcall
  have hrest : rest = [] := by
    rcases List.suffix_concat_iff.mp hsuffix with hnil | ⟨front, hlast, -⟩
    · exact hnil
    · rw [hlast, chunkBytes_append] at hkept
      have hlength := congrArg List.length hkept
      simp [chunkBytes, two] at hlength
      omega
  obtain rfl : kept = [c] := by simpa [hrest, chunkBytes] using hkept
  rw [receivePacket_append hrun, hrest]
  rfl

/-- A call that works on a frame does not reject the stream. -/
theorem nthCall_zero_ne_unknown {buffer : Bytes} {chunks : List Chunk}
    (hstart : buffer ≠ [] ∨ (chunkBytes chunks).head? = some bar) :
    nthCall 0 ⟨.CONNECTED, buffer⟩ (chunks.map .data) ≠ .returned .UNKNOWN none := by
  have hcall := receivePacket_chunks hstart
  rw [nthCall]
  split at hcall
  · rw [hcall]
    simp [seen]
  · obtain ⟨kept, rest, -, hrun, -⟩ := hcall
    rw [hrun]
    simp [seen]
  · rw [hcall]
    simp [seen]

/-- The stream's calls end the same way however it is cut. -/
def ChunkingIrrelevant (stream : Bytes) : Prop :=
  ∀ chunks chunks', chunkBytes chunks = stream → chunkBytes chunks' = stream →
    ∀ k, nthOf chunks k = nthOf chunks' k

/-- Behind a complete frame the stream has to open again. -/
theorem ChunkingIrrelevant.opens_rest {stream packet rest : Bytes} (h : ChunkingIrrelevant stream)
    (hbar : stream.head? = some bar) (hframe : frame stream = .complete packet rest) :
    Opens rest := by
  intro c hc
  by_contra hne
  obtain ⟨front, rfl, hfront, hwhole⟩ := frame_front hframe
  rw [List.head?_append_of_ne_nil _ hfront] at hbar
  cases rest with
  | nil => cases hc
  | cons c' rest =>
    obtain rfl : c' = c := by simpa using hc
    obtain ⟨chunks, hchunks, hcall⟩ := receivePacket_joined hbar hwhole c'
    have hsplit : chunkBytes (singles front ++ singles (c' :: rest)) = front ++ c' :: rest := by
      rw [chunkBytes_append, chunkBytes_singles, chunkBytes_singles]
    have hjoined : chunkBytes (chunks ++ singles rest) = front ++ c' :: rest := by
      rw [chunkBytes_append, hchunks, chunkBytes_singles]
      simp
    have hsame := h _ _ hsplit hjoined 1
    rw [nthOf, nthOf, List.map_append, List.map_append, nthCall, nthCall,
      receivePacket_singles hbar hwhole, hcall] at hsame
    have hunknown : nthCall 0 ⟨.CONNECTED, []⟩ ((singles (c' :: rest)).map .data) =
        .returned .UNKNOWN none := by
      rw [nthCall, singles, List.map_cons, List.map_cons, receivePacket_unknown (by simpa using hne)]
      rfl
    simp only [seen] at hsame
    rw [hunknown] at hsame
    exact nthCall_zero_ne_unknown (.inl (by simp)) hsame.symm

theorem ChunkingIrrelevant.rest {stream packet rest : Bytes} (h : ChunkingIrrelevant stream)
    (hbar : stream.head? = some bar) (hframe : frame stream = .complete packet rest) :
    ChunkingIrrelevant rest := by
  intro chunks chunks' hchunks hchunks' k
  obtain ⟨front, rfl, hfront, hwhole⟩ := frame_front hframe
  rw [List.head?_append_of_ne_nil _ hfront] at hbar
  have hsame := h (singles front ++ chunks) (singles front ++ chunks')
    (by rw [chunkBytes_append, chunkBytes_singles, hchunks])
    (by rw [chunkBytes_append, chunkBytes_singles, hchunks']) (k + 1)
  rw [nthOf, nthOf, List.map_append, List.map_append, nthCall, nthCall,
    receivePacket_singles hbar hwhole, receivePacket_singles hbar hwhole] at hsame
  exact hsame

/-- A stream that does not open loses up to 256 bytes to the first call. -/
theorem nthOf_rejected {stream : Bytes} (hopens : ¬ Opens stream) {j : Nat} (hj : 1 ≤ j)
    (hle : j ≤ 256) (hlen : j ≤ stream.length) {chunks : List Chunk}
    (hchunks : chunkBytes chunks = stream.drop j) :
    ∃ chunk, chunkBytes (chunk :: chunks) = stream ∧
      nthOf (chunk :: chunks) 0 = .returned .UNKNOWN none ∧
      ∀ k, nthOf (chunk :: chunks) (k + 1) = nthOf chunks k := by
  have hne : stream.take j ≠ [] := by
    rw [← List.length_pos_iff, List.length_take]
    omega
  let chunk : Chunk := ⟨stream.take j, hne, by rw [List.length_take]; omega⟩
  have hbar : chunk.bytes.head? ≠ some bar := by
    intro hbar
    apply hopens
    intro c hc
    rw [List.head?_take, if_neg (by omega), hc] at hbar
    exact Option.some.inj hbar
  refine ⟨chunk, ?_, ?_, fun k => ?_⟩
  · simp only [chunkBytes] at hchunks
    simp only [chunkBytes, List.flatMap_cons, hchunks, chunk, List.take_append_drop]
  · rw [nthOf, nthCall, List.map_cons, receivePacket_unknown hbar]
    rfl
  · rw [nthOf, nthCall, List.map_cons, receivePacket_unknown hbar]
    rfl

theorem nthOf_zero_unknown_iff {stream : Bytes} {chunks : List Chunk}
    (hchunks : chunkBytes chunks = stream) :
    nthOf chunks 0 = .returned .UNKNOWN none ↔ ¬ Opens stream := by
  constructor
  · intro hunknown hopens
    have hsame : [] ++ chunkBytes chunks = stream := hchunks
    rcases (hsame ▸ hopens).start with ⟨-, rfl⟩ | hstart
    · cases hunknown
    · exact nthCall_zero_ne_unknown hstart hunknown
  · intro hopens
    cases chunks with
    | nil =>
      rw [← hchunks] at hopens
      exact absurd (fun c hc => by cases hc) hopens
    | cons chunk chunks =>
      have hbar : chunk.bytes.head? ≠ some bar := by
        intro hbar
        apply hopens
        intro c hc
        rw [← hchunks, chunkBytes, List.flatMap_cons, List.head?_append_of_ne_nil _ chunk.nonempty,
          hbar] at hc
        exact (Option.some.inj hc).symm
      rw [nthOf, nthCall, List.map_cons, receivePacket_unknown hbar]
      rfl

theorem Delimited.last_ne {stream : Bytes} {packets : List Bytes} {last : Outcome}
    (h : Delimited stream packets last) (error : ClockError) (packet : Option Bytes) :
    last ≠ .returned error packet := by
  induction h with
  | incomplete => simp
  | undecodable => simp
  | complete _ _ _ ih => exact ih

/-- The ends of all calls determine the packets and the last end. -/
theorem endings_inj {packets packets' : List Bytes} {last last' : Outcome}
    (hlast : ∀ error packet, last ≠ .returned error packet)
    (hlast' : ∀ error packet, last' ≠ .returned error packet)
    (h : ∀ k, endings packets last k = endings packets' last' k) : packets = packets' ∧ last = last' := by
  have hpackets : packets = packets' := by
    apply List.ext_getElem?
    intro k
    have hk := h k
    rw [endings, endings] at hk
    cases hget : packets[k]? with
    | none =>
      rw [hget] at hk
      cases hget' : packets'[k]? with
      | none => rfl
      | some packet =>
        rw [hget'] at hk
        exact absurd hk (hlast _ _)
    | some packet =>
      rw [hget] at hk
      cases hget' : packets'[k]? with
      | none =>
        rw [hget'] at hk
        exact absurd hk.symm (hlast' _ _)
      | some packet' =>
        rw [hget'] at hk
        simpa using hk
  refine ⟨hpackets, ?_⟩
  have hend := h packets.length
  rw [← hpackets] at hend
  simpa [endings] using hend

/-- A stream whose frames all begin with a bar; or one that does not begin with a
bar, such that whichever part of its first 256 bytes the rejecting call drops,
the rest is such a stream with the same packets and the same end. -/
def ChunkSafe (stream : Bytes) : Prop :=
  (∃ packets last, Delimited stream packets last) ∨
    ¬ Opens stream ∧ ∃ packets last, ∀ j, 1 ≤ j → j ≤ 256 → j ≤ stream.length →
      Delimited (stream.drop j) packets last

theorem ChunkSafe.irrelevant {stream : Bytes} (h : ChunkSafe stream) : ChunkingIrrelevant stream := by
  intro chunks chunks' hchunks hchunks' k
  rcases h with ⟨packets, last, hdelimited⟩ | ⟨hopens, packets, last, hdrop⟩
  · rw [hdelimited.nthOf_eq hchunks, hdelimited.nthOf_eq hchunks']
  · have hrun : ∀ chunks, chunkBytes chunks = stream → nthOf chunks k =
        match k with
        | 0 => .returned .UNKNOWN none
        | k + 1 => endings packets last k := by
      intro chunks hchunks
      cases k with
      | zero => exact (nthOf_zero_unknown_iff hchunks).mpr hopens
      | succ k =>
        cases chunks with
        | nil =>
          rw [← hchunks] at hopens
          exact absurd (fun c hc => by cases hc) hopens
        | cons chunk chunks =>
          have hstream : chunk.bytes ++ chunkBytes chunks = stream := by
            rw [← hchunks]
            rfl
          have hpos := List.length_pos_of_ne_nil chunk.nonempty
          have hrest : chunkBytes chunks = stream.drop chunk.bytes.length := by
            rw [← hstream, List.drop_left]
          have hbar : chunk.bytes.head? ≠ some bar := by
            intro hbar
            apply hopens
            intro c hc
            rw [← hstream, List.head?_append_of_ne_nil _ chunk.nonempty, hbar] at hc
            exact (Option.some.inj hc).symm
          rw [nthOf, nthCall, List.map_cons, receivePacket_unknown hbar]
          refine (hdrop _ hpos chunk.length_le ?_).nthOf_eq hrest k
          rw [← hstream, List.length_append]
          omega
    rw [hrun chunks hchunks, hrun chunks' hchunks']

/-- The calls behind a rejected chunk end the same way whatever its length. -/
theorem ChunkingIrrelevant.drops {stream : Bytes} (h : ChunkingIrrelevant stream)
    (hopens : ¬ Opens stream) {i j : Nat} (hi : 1 ≤ i ∧ i ≤ 256 ∧ i ≤ stream.length)
    (hj : 1 ≤ j ∧ j ≤ 256 ∧ j ≤ stream.length) {chunks chunks' : List Chunk}
    (hchunks : chunkBytes chunks = stream.drop i) (hchunks' : chunkBytes chunks' = stream.drop j)
    (k : Nat) : nthOf chunks k = nthOf chunks' k := by
  obtain ⟨chunk, hwhole, -, hnext⟩ := nthOf_rejected hopens hi.1 hi.2.1 hi.2.2 hchunks
  obtain ⟨chunk', hwhole', -, hnext'⟩ := nthOf_rejected hopens hj.1 hj.2.1 hj.2.2 hchunks'
  rw [← hnext, ← hnext', h _ _ hwhole hwhole']

theorem length_pos_of_not_opens {stream : Bytes} (h : ¬ Opens stream) : 0 < stream.length := by
  rw [List.length_pos_iff]
  rintro rfl
  exact h (fun c hc => by cases hc)

/-- What is left behind a rejected chunk opens, given that shorter streams are
safe. -/
theorem ChunkingIrrelevant.opens_drop {stream : Bytes} (h : ChunkingIrrelevant stream)
    (hopens : ¬ Opens stream)
    (ih : ∀ j, 1 ≤ j → j ≤ 256 → j ≤ stream.length → ChunkSafe (stream.drop j)) {j : Nat}
    (hj : 1 ≤ j ∧ j ≤ 256 ∧ j ≤ stream.length) : Opens (stream.drop j) := by
  have hpos := length_pos_of_not_opens hopens
  by_contra hclosed
  have hall : ∀ i, 1 ≤ i ∧ i ≤ 256 ∧ i ≤ stream.length → ¬ Opens (stream.drop i) := by
    intro i hi
    rw [← nthOf_zero_unknown_iff (chunkBytes_singles _),
      h.drops hopens hi hj (chunkBytes_singles _) (chunkBytes_singles _),
      nthOf_zero_unknown_iff (chunkBytes_singles _)]
    exact hclosed
  by_cases hshort : stream.length ≤ 256
  · apply hall stream.length ⟨hpos, hshort, Nat.le_refl _⟩
    rw [List.drop_length]
    exact fun c hc => by cases hc
  · rcases ih 1 (by omega) (by omega) (by omega) with ⟨_, _, hdelimited⟩ | ⟨-, _, _, hdrop⟩
    · exact hall 1 ⟨by omega, by omega, by omega⟩ hdelimited.opens
    · have hsecond := hdrop 1 (by omega) (by omega) (by rw [List.length_drop]; omega)
      rw [List.drop_drop] at hsecond
      exact hall 2 ⟨by omega, by omega, by omega⟩ hsecond.opens

theorem ChunkingIrrelevant.chunkSafe {stream : Bytes} (h : ChunkingIrrelevant stream) :
    ChunkSafe stream := by
  induction hlength : stream.length using Nat.strong_induction_on generalizing stream with
  | _ n ih =>
    subst hlength
    by_cases hopens : Opens stream
    · cases hframe : frame stream with
      | incomplete => exact .inl ⟨_, _, .incomplete hopens hframe⟩
      | undecodable => exact .inl ⟨_, _, .undecodable hopens hframe⟩
      | complete packet rest =>
        obtain ⟨front, hstream, hfront, -⟩ := frame_front hframe
        have hbar : stream.head? = some bar := by
          cases stream with
          | nil => cases hframe
          | cons c stream => rw [List.head?_cons, hopens c rfl]
        have hshorter : rest.length < stream.length := by
          have hpos := List.length_pos_of_ne_nil hfront
          rw [hstream, List.length_append]
          omega
        have hrest := ih rest.length hshorter (h.rest hbar hframe) rfl
        rcases hrest with ⟨packets, last, hdelimited⟩ | ⟨hclosed, -⟩
        · exact .inl ⟨_, _, .complete hopens hframe hdelimited⟩
        · exact absurd (h.opens_rest hbar hframe) hclosed
    · have hpos := length_pos_of_not_opens hopens
      have hsafe : ∀ j, 1 ≤ j → j ≤ 256 → j ≤ stream.length → ChunkSafe (stream.drop j) := by
        intro j hj hle hlen
        refine ih (stream.drop j).length (by rw [List.length_drop]; omega) ?_ rfl
        intro chunks chunks' hchunks hchunks'
        exact h.drops hopens ⟨hj, hle, hlen⟩ ⟨hj, hle, hlen⟩ hchunks hchunks'
      have hdelimited : ∀ j, 1 ≤ j ∧ j ≤ 256 ∧ j ≤ stream.length →
          ∃ packets last, Delimited (stream.drop j) packets last := by
        intro j hj
        rcases hsafe j hj.1 hj.2.1 hj.2.2 with hdelimited | ⟨hclosed, -⟩
        · exact hdelimited
        · exact absurd (h.opens_drop hopens hsafe hj) hclosed
      obtain ⟨packets, last, hfirst⟩ := hdelimited 1 ⟨by omega, by omega, by omega⟩
      refine .inr ⟨hopens, packets, last, fun j hj hle hlen => ?_⟩
      obtain ⟨packets', last', hother⟩ := hdelimited j ⟨hj, hle, hlen⟩
      have hsame : ∀ k, endings packets' last' k = endings packets last k := by
        intro k
        rw [← hother.nthOf_eq (chunkBytes_singles _) k, ← hfirst.nthOf_eq (chunkBytes_singles _) k]
        exact h.drops hopens ⟨hj, hle, hlen⟩ ⟨by omega, by omega, by omega⟩ (chunkBytes_singles _)
          (chunkBytes_singles _) k
      obtain ⟨rfl, rfl⟩ := endings_inj hother.last_ne hfirst.last_ne hsame
      exact hother

/-- Over all streams and all pairs of ways to cut them: the calls end the same way exactly
when the stream is safe, which is said of its bytes alone. Behind a complete frame,
`receivePacket` looks at the first byte only if a chunk begins with it. -/
theorem chunkingIrrelevant_iff (stream : Bytes) : ChunkingIrrelevant stream ↔ ChunkSafe stream :=
  ⟨ChunkingIrrelevant.chunkSafe, ChunkSafe.irrelevant⟩

/-- An empty packet followed by `x`: in a chunk of its own `x` is rejected, and
in the chunk of the packet it is kept as the beginning of a frame. -/
theorem chunking_matters :
    nthOf [⟨[124, 0, 0, 0, 0, 124], by decide, by decide⟩, ⟨[120], by decide, by decide⟩] 1 =
        .returned .UNKNOWN none ∧
      nthOf [⟨[124, 0, 0, 0, 0, 124, 120], by decide, by decide⟩] 1 = .waiting ∧
      ¬ ChunkingIrrelevant [124, 0, 0, 0, 0, 124, 120] := by
  have hown : nthOf [⟨[124, 0, 0, 0, 0, 124], by decide, by decide⟩,
      ⟨[120], by decide, by decide⟩] 1 = .returned .UNKNOWN none := rfl
  have hjoined : nthOf [⟨[124, 0, 0, 0, 0, 124, 120], by decide, by decide⟩] 1 = .waiting := rfl
  refine ⟨hown, hjoined, fun h => ?_⟩
  have hsame := h [⟨[124, 0, 0, 0, 0, 124], by decide, by decide⟩, ⟨[120], by decide, by decide⟩]
    [⟨[124, 0, 0, 0, 0, 124, 120], by decide, by decide⟩] rfl rfl 1
  rw [hown, hjoined] at hsame
  cases hsame

end TcpSocket

end clockUtils.sockets
