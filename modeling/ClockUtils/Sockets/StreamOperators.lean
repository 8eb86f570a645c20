import ClockUtils.Lib.DecimalStream
import ClockUtils.Lib.IntegerType
import ClockUtils.Sockets.TcpReassembly
import ClockUtils.Sockets.TcpWrite

namespace clockUtils.sockets

/-- The values that the stream operators of `TcpSocket` are used with: an `int`, a
`std::string`, or a value of an enumeration with the type behind it. -/
inductive StreamValue where
  | int (n : Int)
  | string (s : Bytes)
  | enum (type : IntegerType) (n : Int)
  deriving DecidableEq

namespace StreamValue

/-- The packet that `operator<<` sends, for an enumeration the text of `uint32_t(a)`. -/
def packet : StreamValue → Bytes
  | .int n => DecimalStream.signed n
  | .string s => s
  | .enum _ n => DecimalStream.decimal (IntegerType.uint32.cast n).toNat

/-- The value is one of its type, a string fits into a packet, and a value of an
enumeration with more than 32 bits is one of `uint32_t`. -/
def Fits : StreamValue → Prop
  | .int n => -2 ^ 31 ≤ n ∧ n ≤ 2 ^ 31 - 1
  | .string s => s.length < 2 ^ 31 - 6
  | .enum type n => type.Holds n ∧ (type.bits ≤ 32 ∨ IntegerType.uint32.Holds n)

/-- A variable of the same type. -/
def SameType : StreamValue → StreamValue → Prop
  | .int _, .int _ => True
  | .string _, .string _ => True
  | .enum type _, .enum type' _ => type = type'
  | _, _ => False

/-- What is in a variable behind `operator>>`, with the packet that was received or
`none` if there was an error, which is ignored. A number is then read from an empty
stream: an `int` stays as it was, and an enumeration gets the value of an
uninitialized `e`, which is `none` here. -/
def assigned (received : Option Bytes) : StreamValue → Option StreamValue
  | .int n =>
    some (.int ((DecimalStream.extractSigned (-2 ^ 31) (2 ^ 31 - 1)
      (received.getD [])).stored.getD n))
  | .string s => some (.string (received.getD s))
  | .enum type _ =>
    (DecimalStream.extractUnsigned (2 ^ 32) (received.getD [])).stored.map fun (e : Nat) =>
      .enum type (type.cast e)

end StreamValue

namespace TcpSocket

/-- `operator<<` on one value after the other, each with what `send` does in it: the
bytes that are taken. -/
def streamOut (socket : TcpSocket) : List (StreamValue × SendEvent) → Bytes
  | [] => []
  | (v, event) :: rest => (socket.writePacket v.packet event).2 ++ socket.streamOut rest

/-- `operator>>` on one variable after the other: what is in them then, with the socket
and what `recv` has yet to return; `none` when it still waits for `recv`. -/
def streamIn (socket : TcpSocket) (events : List RecvEvent) :
    List StreamValue → Run (Option (List (Option StreamValue) × TcpSocket × List RecvEvent))
  | [] => .ok (some ([], socket, events))
  | v :: targets => do
    match ← socket.receivePacket events with
    | none => .ok none
    | some received =>
      match ← received.socket.streamIn received.events targets with
      | none => .ok none
      | some (rest, socket, events) => .ok (some (v.assigned received.packet :: rest, socket, events))

end TcpSocket

namespace StreamValue

theorem length_packet_lt {v : StreamValue} (h : v.Fits) : v.packet.length < 2 ^ 31 - 6 := by
  cases v with
  | int n =>
    have hdigits : (DecimalStream.decimal n.natAbs).length ≤ 10 := by
      apply DecimalStream.length_decimal_le (by omega)
      have hlo := h.1
      have hhi := h.2
      omega
    rw [packet, DecimalStream.signed]
    split
    · rw [List.length_cons]
      omega
    · omega
  | string s => exact h
  | enum type n =>
    have hdigits : (DecimalStream.decimal (IntegerType.uint32.cast n).toNat).length ≤ 10 := by
      apply DecimalStream.length_decimal_le (by omega)
      have hhi := (IntegerType.uint32.holds_cast n).2
      omega
    rw [packet]
    omega

/-- What is received is what was sent. -/
theorem assigned_packet {v target : StreamValue} (h : v.Fits) (htype : target.SameType v) :
    target.assigned (some v.packet) = some v := by
  cases v with
  | int n =>
    cases target with
    | int m =>
      rw [assigned, packet, Option.getD_some, DecimalStream.extractSigned_signed h.1 h.2]
      rfl
    | string s => exact htype.elim
    | enum type m => exact htype.elim
  | string s =>
    cases target with
    | int m => exact htype.elim
    | string s' => rfl
    | enum type m => exact htype.elim
  | enum type n =>
    cases target with
    | int m => exact htype.elim
    | string s => exact htype.elim
    | enum type' m =>
      obtain rfl : type' = type := htype
      obtain ⟨hlo, hhi⟩ := IntegerType.uint32.holds_cast n
      have hlt : (IntegerType.uint32.cast n).toNat < 2 ^ 32 := by omega
      rw [assigned, packet, Option.getD_some, DecimalStream.extractUnsigned_decimal hlt,
        Option.map_some, Int.toNat_of_nonneg hlo,
        IntegerType.cast_cast .uint32 nofun h.1 h.2]

end StreamValue

namespace TcpSocket

/-- `send` takes each frame as a whole. -/
def Whole (values : List (StreamValue × SendEvent)) : Prop :=
  ∀ pair ∈ values, pair.2.taken (packetBuffer pair.1.packet) = packetBuffer pair.1.packet

theorem streamOut_eq {socket : TcpSocket} (hstatus : socket.status = .CONNECTED)
    {values : List (StreamValue × SendEvent)} (h : Whole values) :
    socket.streamOut values = (values.map fun pair => pair.1.packet).flatMap packetBuffer := by
  induction values with
  | nil => rfl
  | cons pair values ih =>
    obtain ⟨hfirst, hrest⟩ := List.forall_mem_cons.mp h
    rw [streamOut, ih hrest, List.map_cons, List.flatMap_cons, writePacket,
      if_neg (not_not.mpr hstatus), write_bytes hstatus, hfirst]

/-- Variables that receive the packets of values of their types. -/
theorem streamIn_of_receives {after : List RecvEvent} {socket socket' : TcpSocket}
    {chunks chunks' : List Chunk} {strs : List Bytes}
    (h : Receives after socket chunks strs socket' chunks') {values targets : List StreamValue}
    (hstrs : strs = values.map StreamValue.packet) (hfits : ∀ v ∈ values, v.Fits)
    (htypes : List.Forall₂ StreamValue.SameType targets values) :
    socket.streamIn (chunks.map .data ++ after) targets =
      .ok (some (values.map some, socket', chunks'.map .data ++ after)) := by
  induction h generalizing values targets with
  | nil socket chunks =>
    obtain rfl := List.map_eq_nil_iff.mp hstrs.symm
    obtain rfl := List.forall₂_nil_right_iff.mp htypes
    rfl
  | cons hcall _ _ ih =>
    cases values with
    | nil => cases hstrs
    | cons v values =>
      obtain ⟨target, targets, htype, htypes', rfl⟩ := List.forall₂_cons_right_iff.mp htypes
      rw [List.forall_mem_cons] at hfits
      rw [List.map_cons, List.cons.injEq] at hstrs
      obtain ⟨rfl, hstrs⟩ := hstrs
      rw [streamIn, hcall, Run.ok_bind]
      dsimp only
      rw [ih hstrs hfits.2 htypes', Run.ok_bind, StreamValue.assigned_packet hfits.1 htype]
      rfl

/-- What a chain of `operator<<` sends, a chain of `operator>>` with variables of the same
types on the other end receives: in the same order, each value as it was, however the bytes
are cut on their way, with no byte left over. A value of an enumeration with more than 32
bits has to be one of `uint32_t`, as which it is sent. -/
theorem stream_round_trip (values : List (StreamValue × SendEvent)) (targets : List StreamValue)
    (hfits : ∀ pair ∈ values, pair.1.Fits) (hwhole : Whole values)
    (htypes : List.Forall₂ StreamValue.SameType targets (values.map Prod.fst))
    (chunks : List Chunk) (after : List RecvEvent)
    (hchunks : chunkBytes chunks = streamOut ⟨.CONNECTED, []⟩ values) :
    streamIn ⟨.CONNECTED, []⟩ (chunks.map .data ++ after) targets =
      .ok (some (values.map (fun pair => some pair.1), ⟨.CONNECTED, []⟩, after)) := by
  have hpackets : values.map (fun pair => pair.1.packet) =
      (values.map Prod.fst).map StreamValue.packet := by
    rw [List.map_map]
    rfl
  have hfits' : ∀ v ∈ values.map Prod.fst, v.Fits := by
    intro v hv
    obtain ⟨pair, hpair, rfl⟩ := List.mem_map.mp hv
    exact hfits pair hpair
  rw [streamOut_eq rfl hwhole, hpackets] at hchunks
  have hlength : ∀ str ∈ (values.map Prod.fst).map StreamValue.packet,
      str.length < 2 ^ 31 - 6 := by
    intro str hstr
    obtain ⟨v, hv, rfl⟩ := List.mem_map.mp hstr
    exact StreamValue.length_packet_lt (hfits' v hv)
  have hreceives := receives_of_stream after hlength
    (show (⟨.CONNECTED, []⟩ : TcpSocket).status = .CONNECTED from rfl) hchunks
  rw [streamIn_of_receives hreceives rfl hfits' htypes, List.map_map]
  rfl

/-- The values `1` and `Hello` and the value `-1` of an enumeration over `int`, which is
`4294967295` on its way. -/
theorem stream_round_trip_three :
    streamIn ⟨.CONNECTED, []⟩
        [.data ⟨[124, 0, 0, 0, 1, 49, 124, 124, 0, 0], by decide, by decide⟩,
          .data ⟨[0, 5, 72, 101, 108, 108, 111, 124, 124, 0, 0, 0, 10, 52, 50, 57, 52, 57, 54,
            55, 50, 57, 53, 124], by decide, by decide⟩, .closed]
        [.int 0, .string [], .enum (.signed 31) 7] =
      .ok (some ([some (.int 1), some (.string [72, 101, 108, 108, 111]),
        some (.enum (.signed 31) (-1))], ⟨.CONNECTED, []⟩, [.closed])) := by
  refine stream_round_trip [(.int 1, .accepted 7), (.string [72, 101, 108, 108, 111], .accepted 11),
    (.enum (.signed 31) (-1), .accepted 16)] [.int 0, .string [], .enum (.signed 31) 7] ?_ ?_
    (.cons trivial (.cons trivial (.cons rfl .nil)))
    [⟨[124, 0, 0, 0, 1, 49, 124, 124, 0, 0], by decide, by decide⟩,
      ⟨[0, 5, 72, 101, 108, 108, 111, 124, 124, 0, 0, 0, 10, 52, 50, 57, 52, 57, 54, 55, 50, 57,
        53, 124], by decide, by decide⟩]
    [.closed] (by decide)
  · simp [StreamValue.Fits, IntegerType.Holds, IntegerType.bits]
  · unfold Whole
    decide

end TcpSocket

end clockUtils.sockets
