import ClockUtils.Sockets.TcpSocket
import Mathlib.Data.List.Infix

namespace clockUtils.sockets

/-- The number in the four length bytes, as a natural number. -/
def fieldValue : Bytes → Nat
  | _ :: a :: b :: c :: d :: _ =>
    a.toNat * 256 * 256 * 256 + b.toNat * 256 * 256 + c.toNat * 256 + d.toNat
  | _ => 0

/-- What the bytes held for a frame amount to. -/
inductive Frame where
  /-- the length does not fit an `int` -/
  | undecodable
  | incomplete
  | complete (packet leftover : Bytes)
  deriving DecidableEq

/-- The first byte and the closing one are not looked at. -/
def frame (held : Bytes) : Frame :=
  if held.length < 5 then .incomplete
  else if 2 ^ 31 ≤ fieldValue held then .undecodable
  else if fieldValue held + 6 ≤ held.length then
    .complete ((held.drop 5).take (fieldValue held)) (held.drop (fieldValue held + 6))
  else .incomplete

theorem fieldValue_append {held : Bytes} (hfive : 5 ≤ held.length) (more : Bytes) :
    fieldValue (held ++ more) = fieldValue held := by
  match held, hfive with
  | _ :: a :: b :: c :: d :: held', _ => rfl

/-- A length that does not fit an `int` is one with a large first byte. -/
theorem fieldValue_overflow_iff {held : Bytes} (hfive : 5 ≤ held.length) :
    2 ^ 31 ≤ fieldValue held ↔ ∃ a, held[1]? = some a ∧ 128 ≤ a := by
  match held, hfive with
  | x :: a :: b :: c :: d :: held', _ =>
    have hb := b.toNat_lt
    have hc := c.toNat_lt
    have hd := d.toNat_lt
    simp only [fieldValue, List.getElem?_cons_succ, List.getElem?_cons_zero, Option.some.injEq,
      exists_eq_left', UInt8.le_iff_toNat_le, show UInt8.toNat 128 = 128 from rfl]
    omega

theorem frame_nil : frame [] = .incomplete := rfl

/-- A frame that cannot be decoded stays so. -/
theorem frame_append_undecodable {held : Bytes} (h : frame held = .undecodable) (more : Bytes) :
    frame (held ++ more) = .undecodable := by
  rw [frame] at h
  split at h
  · cases h
  · next hfive =>
    split at h
    · next hlarge =>
      rw [frame, fieldValue_append (by omega), List.length_append, if_neg (by omega), if_pos hlarge]
    · split at h
      · cases h
      · cases h

/-- Bytes behind a complete frame only add to what is left over. -/
theorem frame_append_complete {held packet leftover : Bytes}
    (h : frame held = .complete packet leftover) (more : Bytes) :
    frame (held ++ more) = .complete packet (leftover ++ more) := by
  rw [frame] at h
  split at h
  · cases h
  · split at h
    · cases h
    · next hfive hsmall =>
      split at h
      · next hwhole =>
        rw [Frame.complete.injEq] at h
        rw [frame, fieldValue_append (by omega), List.length_append, if_neg (by omega),
          if_neg hsmall, if_pos (by omega), List.drop_append_of_le_length (by omega),
          List.drop_append_of_le_length (by omega), List.take_append_of_le_length
            (by rw [List.length_drop]; omega), h.1, h.2]
      · cases h

/-- The parts of a complete frame: header, packet, closing byte and leftover. -/
theorem frame_complete {held packet leftover : Bytes} (h : frame held = .complete packet leftover) :
    ∃ header closing, held = header ++ packet ++ closing :: leftover ∧ header.length = 5 ∧
      fieldValue header = packet.length := by
  rw [frame] at h
  split at h
  · cases h
  · split at h
    · cases h
    · split at h
      · next hfive hsmall hwhole =>
        rw [Frame.complete.injEq] at h
        obtain ⟨rfl, rfl⟩ := h
        have hlast : fieldValue held + 5 < held.length := by omega
        have hheader : (held.take 5).length = 5 := by
          rw [List.length_take]
          omega
        refine ⟨held.take 5, held[fieldValue held + 5], ?_, hheader, ?_⟩
        · rw [← List.drop_eq_getElem_cons hlast, List.append_assoc, Nat.add_comm (fieldValue held),
            ← List.drop_drop, List.take_append_drop, List.take_append_drop]
        · have hsame := fieldValue_append (Nat.le_of_eq hheader.symm) (held.drop 5)
          rw [List.take_append_drop] at hsame
          rw [← hsame, List.length_take, List.length_drop]
          omega
      · cases h

/-- A complete frame is complete already without what is left over. -/
theorem frame_front {held packet leftover : Bytes} (h : frame held = .complete packet leftover) :
    ∃ front, held = front ++ leftover ∧ front ≠ [] ∧ frame front = .complete packet [] := by
  obtain ⟨header, closing, hheld, hheader, hvalue⟩ := frame_complete h
  have hfive : 5 ≤ header.length := by omega
  have hfield : ∀ more, fieldValue (header ++ more) = packet.length := by
    intro more
    rw [fieldValue_append hfive, hvalue]
  have hsmall : ¬ 2 ^ 31 ≤ packet.length := by
    intro hlarge
    have hundecodable : frame held = .undecodable := by
      rw [hheld, List.append_assoc, frame, hfield, if_neg (by simp [hheader]), if_pos hlarge]
    rw [h] at hundecodable
    cases hundecodable
  refine ⟨header ++ packet ++ [closing], by rw [hheld]; simp, by simp, ?_⟩
  have hlength : (header ++ (packet ++ [closing])).length = packet.length + 6 := by
    simp [hheader]
    omega
  rw [List.append_assoc, frame, hfield, hlength, if_neg (by omega), if_neg hsmall,
    if_pos (Nat.le_refl _), List.drop_left' hheader, List.take_left,
    List.drop_eq_nil_of_le (Nat.le_of_eq hlength)]

/-- What the local variable `length` can be before a round ends: still zero, or
the number in the header. -/
def Decoded (held : Bytes) (length : UInt32) : Prop :=
  length = 0 ∨ 5 ≤ held.length ∧ length.toNat = fieldValue held ∧ fieldValue held < 2 ^ 31

theorem Decoded.append {held : Bytes} {length : UInt32} (h : Decoded held length) (more : Bytes) :
    Decoded (held ++ more) length := by
  rcases h with h | ⟨hfive, hvalue, hsmall⟩
  · exact .inl h
  · refine .inr ⟨?_, ?_, ?_⟩
    · rw [List.length_append]
      omega
    · rw [fieldValue_append hfive, hvalue]
    · rwa [fieldValue_append hfive]

theorem packetLength_eq_fieldValue {held : Bytes} (hfive : 5 ≤ held.length) :
    packetLength held =
      if 2 ^ 31 ≤ fieldValue held then .error .signedOverflow
      else .ok (UInt32.ofNat (fieldValue held)) := by
  match held, hfive with
  | _ :: a :: b :: c :: d :: held', _ => rfl

/-- Behind the decoding step `length` is the number in the header, or zero while
there is no header. -/
theorem decodeLength_eq {held : Bytes} {length : UInt32} (h : Decoded held length) :
    if 5 ≤ held.length ∧ 2 ^ 31 ≤ fieldValue held then
      decodeLength held length = .error .signedOverflow
    else ∃ length', decodeLength held length = .ok length' ∧ Decoded held length' ∧
      (5 ≤ held.length → length'.toNat = fieldValue held) := by
  rw [decodeLength]
  by_cases hfive : 5 ≤ held.length
  · by_cases hzero : length = 0
    · rw [if_pos (show length = 0 ∧ 5 ≤ held.length from ⟨hzero, hfive⟩),
        packetLength_eq_fieldValue hfive]
      split
      · next hlarge => rw [if_pos hlarge.2]
      · next hsmall =>
        have hlt : fieldValue held < 2 ^ 31 := by omega
        have hvalue : (UInt32.ofNat (fieldValue held)).toNat = fieldValue held :=
          UInt32.toNat_ofNat_of_lt' (by rw [UInt32.size]; omega)
        rw [if_neg (by omega)]
        exact ⟨_, rfl, .inr ⟨hfive, hvalue, hlt⟩, fun _ => hvalue⟩
    · obtain ⟨-, hvalue, hsmall⟩ := h.resolve_left hzero
      rw [if_neg (by omega), if_neg (fun hboth => hzero hboth.1)]
      exact ⟨length, rfl, h, fun _ => hvalue⟩
  · rw [if_neg (fun hboth => hfive hboth.1), if_neg (fun hboth => hfive hboth.2)]
    exact ⟨length, rfl, h, fun hlong => absurd hlong hfive⟩

/-- The end of a round does what the frame of the held bytes says. -/
theorem finishRound_eq {held : Bytes} {length : UInt32} (h : Decoded held length) :
    match frame held with
    | .undecodable => finishRound held length = .error .signedOverflow
    | .complete packet leftover =>
      finishRound held length = .ok (.done .SUCCESS (some packet) leftover)
    | .incomplete =>
      ∃ length', finishRound held length = .ok (.more held length') ∧ Decoded held length' := by
  have hdecode := decodeLength_eq h
  rw [frame, finishRound]
  by_cases hfive : 5 ≤ held.length
  · rw [if_neg (show ¬ held.length < 5 by omega)]
    by_cases hlarge : 2 ^ 31 ≤ fieldValue held
    · rw [if_pos ⟨hfive, hlarge⟩] at hdecode
      rw [if_pos hlarge, hdecode]
      rfl
    · rw [if_neg (fun hboth => hlarge hboth.2)] at hdecode
      obtain ⟨length', hdecode, hdecoded, hvalue⟩ := hdecode
      have hlength := hvalue hfive
      have hsum : (length' + 6).toNat = fieldValue held + 6 := by
        rw [UInt32.toNat_add, hlength, show UInt32.toNat 6 = 6 from rfl]
        omega
      rw [if_neg hlarge, hdecode, Run.ok_bind, hsum, hlength]
      by_cases hwhole : fieldValue held + 6 ≤ held.length
      · have hleftover : (if fieldValue held + 6 < held.length then
            held.drop (fieldValue held + 6) else []) = held.drop (fieldValue held + 6) := by
          split
          · rfl
          · exact (List.drop_eq_nil_of_le (by omega)).symm
        rw [if_pos hwhole, if_pos hwhole, if_pos (by omega), hleftover]
      · rw [if_neg hwhole, if_neg hwhole]
        exact ⟨length', rfl, hdecoded⟩
  · rw [if_neg (fun hboth => hfive hboth.1)] at hdecode
    obtain ⟨length', hdecode, hdecoded, -⟩ := hdecode
    have hzero : length' = 0 := hdecoded.resolve_right fun hboth => hfive hboth.1
    rw [if_pos (by omega), hdecode, Run.ok_bind, hzero, if_neg]
    · exact ⟨0, rfl, .inl rfl⟩
    · rw [show (0 + 6 : UInt32).toNat = 6 from rfl]
      omega

/-- A round appends what was read, unless it opens a frame without a bar. -/
theorem absorb_eq_finishRound (kept : Bytes) {held s : Bytes} (length : UInt32)
    (hstart : held ≠ [] ∨ s.head? = some bar) :
    absorb kept held length s = finishRound (held ++ s) length := by
  unfold absorb
  split
  · next hempty =>
    cases s with
    | nil => simp [hempty] at hstart
    | cons c s =>
      have hbar : c = bar := by simpa [hempty] using hstart
      rw [hempty, List.nil_append]
      exact if_pos hbar
  · rfl

theorem absorb_eq_unknown (kept : Bytes) {held s : Bytes} (length : UInt32) (hempty : held = [])
    (hne : s ≠ []) (hstart : s.head? ≠ some bar) :
    absorb kept held length s = .ok (.done .UNKNOWN none kept) := by
  obtain ⟨c, s', rfl⟩ := List.exists_cons_of_ne_nil hne
  have hbar : c ≠ bar := by
    rintro rfl
    exact hstart rfl
  simp only [absorb, hempty, if_true, if_neg hbar]

namespace TcpSocket

/-- The bytes that `recv` hands over before it fails. -/
def arriving : List RecvEvent → Bytes
  | [] => []
  | .data chunk :: events => chunk.bytes ++ arriving events
  | .closed :: _ => []
  | .failed errno :: events => if getLastError errno = .IN_PROGRESS then arriving events else []

/-- `recv` fails at some point. -/
def Fails (events : List RecvEvent) : Prop :=
  ∃ event ∈ events, ∀ chunk, event ≠ .data chunk

/-- What a call does that ends with the frame of all bytes it could receive. -/
def EndsWith (socket : TcpSocket) (events : List RecvEvent) (run : Run (Option Received)) :
    Frame → Prop
  | .undecodable => run = .error .signedOverflow
  | .complete packet leftover => ∃ kept rest,
      run = .ok (some ⟨.SUCCESS, some packet, { socket with buffer := kept }, rest⟩) ∧
        rest <:+ events ∧ arriving rest <:+ arriving events ∧ kept ++ arriving rest = leftover
  | .incomplete => ∃ outcome, run = .ok outcome ∧
      (∀ received, outcome = some received → received.error ≠ .SUCCESS) ∧
      (¬ Fails events → outcome = none)

theorem EndsWith.cons {socket : TcpSocket} {events : List RecvEvent} {run : Run (Option Received)}
    {result : Frame} (h : EndsWith socket events run result) {event : RecvEvent}
    (harriving : arriving events <:+ arriving (event :: events)) :
    EndsWith socket (event :: events) run result := by
  cases result with
  | undecodable => exact h
  | complete packet leftover =>
    obtain ⟨kept, rest, hrun, hsuffix, hrest, hleftover⟩ := h
    exact ⟨kept, rest, hrun, hsuffix.trans (List.suffix_cons event events), hrest.trans harriving,
      hleftover⟩
  | incomplete =>
    obtain ⟨outcome, hrun, herror, hwait⟩ := h
    refine ⟨outcome, hrun, herror, fun hfine => hwait ?_⟩
    rintro ⟨other, hother, hne⟩
    exact hfine ⟨other, List.mem_cons_of_mem _ hother, hne⟩

/-- One round: the bytes held decide, or the loop goes on with them. -/
theorem EndsWith.round {socket : TcpSocket} {events : List RecvEvent} {held : Bytes}
    {length : UInt32} (hdecoded : Decoded held length)
    (hloop : ∀ length', Decoded held length' → frame held = .incomplete →
      EndsWith socket events (receiveLoop socket held length' events)
        (frame (held ++ arriving events))) :
    EndsWith socket events
      (finishRound held length >>=
        afterRound socket events fun held length => receiveLoop socket held length events)
      (frame (held ++ arriving events)) := by
  have hround := finishRound_eq hdecoded
  cases hframe : frame held with
  | undecodable =>
    rw [hframe] at hround
    rw [frame_append_undecodable hframe, hround]
    rfl
  | complete packet leftover =>
    rw [hframe] at hround
    rw [frame_append_complete hframe, hround]
    exact ⟨leftover, events, rfl, List.suffix_rfl, List.suffix_rfl, rfl⟩
  | incomplete =>
    rw [hframe] at hround
    obtain ⟨length', hmore, hdecoded'⟩ := hround
    rw [hmore]
    exact hloop length' hdecoded' hframe

/-- The loop appends chunks until the frame is complete or cannot be decoded, or
`recv` fails. -/
theorem receiveLoop_frame (socket : TcpSocket) {held : Bytes} {length : UInt32}
    {events : List RecvEvent} (hstart : held ≠ [] ∨ (arriving events).head? = some bar)
    (hdecoded : Decoded held length) (hheld : frame held = .incomplete) :
    EndsWith socket events (receiveLoop socket held length events)
      (frame (held ++ arriving events)) := by
  induction events generalizing held length with
  | nil =>
    rw [arriving, List.append_nil, hheld]
    refine ⟨none, rfl, fun received hreceived => ?_, fun _ => rfl⟩
    cases hreceived
  | cons event events ih =>
    cases event with
    | closed =>
      rw [arriving, List.append_nil, hheld]
      refine ⟨_, rfl, fun received hreceived => ?_, fun hfine => ?_⟩
      · rw [← Option.some.inj hreceived]
        simp
      · exact absurd ⟨.closed, List.mem_cons_self, by simp⟩ hfine
    | failed errno =>
      rw [arriving] at hstart ⊢
      by_cases hretry : getLastError errno = .IN_PROGRESS
      · have hstep : receiveLoop socket held length (.failed errno :: events) =
            receiveLoop socket held length events := by
          simp only [receiveLoop, recvOnce, if_pos hretry]
        rw [if_pos hretry] at hstart ⊢
        rw [hstep]
        refine (ih hstart hdecoded hheld).cons ?_
        rw [arriving, if_pos hretry]
      · have hstep : receiveLoop socket held length (.failed errno :: events) =
            .ok (some ⟨getLastError errno, none, socket, events⟩) := by
          simp only [receiveLoop, recvOnce, if_neg hretry, ne_eq, getLastError_ne_success errno,
            not_false_eq_true, if_true]
        rw [if_neg hretry, List.append_nil, hheld, hstep]
        refine ⟨_, rfl, fun received hreceived => ?_, fun hfine => ?_⟩
        · rw [← Option.some.inj hreceived]
          exact getLastError_ne_success errno
        · exact absurd ⟨.failed errno, List.mem_cons_self, by simp⟩ hfine
    | data chunk =>
      rw [arriving] at hstart ⊢
      have hstart' : held ≠ [] ∨ chunk.bytes.head? = some bar := by
        rwa [List.head?_append_of_ne_nil _ chunk.nonempty] at hstart
      have hstep : receiveLoop socket held length (.data chunk :: events) =
          finishRound (held ++ chunk.bytes) length >>=
            afterRound socket events (fun held length => receiveLoop socket held length events) := by
        rw [← absorb_eq_finishRound socket.buffer length hstart']
        simp only [receiveLoop, recvOnce, ne_eq, not_true_eq_false, if_false, chunk.nonempty]
      have hne : held ++ chunk.bytes ≠ [] := by simp [chunk.nonempty]
      have hround := EndsWith.round (hdecoded.append chunk.bytes)
        fun length' hdecoded' hframe => ih (.inl hne) hdecoded' hframe
      rw [hstep, ← List.append_assoc]
      exact hround.cons (List.suffix_append _ _)

/-- A call on a connected socket, with bytes in its buffer or a bar at the front
of those that arrive. -/
theorem receivePacket_frame {socket : TcpSocket} (hstatus : socket.status = .CONNECTED)
    {events : List RecvEvent}
    (hstart : socket.buffer ≠ [] ∨ (arriving events).head? = some bar) :
    EndsWith socket events (receivePacket socket events)
      (frame (socket.buffer ++ arriving events)) := by
  rw [receivePacket, if_neg (not_not.mpr hstatus)]
  by_cases hempty : socket.buffer = []
  · rw [if_pos hempty]
    have hloop := receiveLoop_frame socket (hstart.imp_left fun h => absurd hempty h) (.inl rfl)
      frame_nil
    rwa [hempty]
  · rw [if_neg hempty, absorb_eq_finishRound _ _ (.inl hempty), List.append_nil]
    exact .round (.inl rfl) fun length' hdecoded hframe =>
      receiveLoop_frame socket (.inl hempty) hdecoded hframe

end TcpSocket

end clockUtils.sockets
