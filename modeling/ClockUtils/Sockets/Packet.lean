import ClockUtils.Errors
import Mathlib.Data.List.Infix

namespace clockUtils.sockets

/-- The character `|` that opens and closes a packet. -/
def bar : UInt8 := 124

/-- The buffer that `writePacket` of both socket classes builds around the
user's data: a bar, the length as four bytes, the data and a closing bar. -/
def packetBuffer (str : Bytes) : Bytes :=
  let length := str.length
  [bar, UInt8.ofNat (length / 256 / 256 / 256 % 256), UInt8.ofNat (length / 256 / 256 % 256),
    UInt8.ofNat (length / 256 % 256), UInt8.ofNat (length % 256)] ++ str ++ [bar]

/-- The length field of a partly received packet. The products and sums are
taken in `int` before the conversion to `uint32_t`. -/
def packetLength : Bytes → Run UInt32
  | _ :: a :: b :: c :: d :: _ =>
    if 2 ^ 31 ≤ a.toNat * 256 * 256 * 256 + b.toNat * 256 * 256 + c.toNat * 256 + d.toNat then
      .error .signedOverflow
    else .ok (UInt32.ofNat (a.toNat * 256 * 256 * 256 + b.toNat * 256 * 256 + c.toNat * 256 + d.toNat))
  | _ => .error .outOfRange

/-- What one round of a receive loop leads to. -/
inductive Step where
  /-- return to the caller with this code, the packet assigned on success, and
  the bytes to be kept for the next call -/
  | done (error : ClockError) (packet : Option Bytes) (leftover : Bytes)
  /-- read on with these local variables -/
  | more (result : Bytes) (length : UInt32)
  deriving DecidableEq

/-- The length is decoded once five bytes are there, and for an empty packet
again in every later round. -/
def decodeLength (result : Bytes) (length : UInt32) : Run UInt32 :=
  if length = 0 ∧ 5 ≤ result.length then packetLength result else .ok length

/-- The end of a round: cut the packet out once `length + 6` bytes, computed in
`uint32_t`, are there. -/
def finishRound (result : Bytes) (length : UInt32) : Run Step := do
  let length ← decodeLength result length
  if (length + 6).toNat ≤ result.length then
    if 5 + length.toNat ≤ result.length then
      .ok (.done .SUCCESS (some ((result.drop 5).take length.toNat))
        (if (length + 6).toNat < result.length then result.drop (length.toNat + 6) else []))
    else .error .outOfRange
  else .ok (.more result length)

/-- A round of the receive loop behind its read: `s` is appended to `result`,
or starts it when it begins with a bar. `kept` is the buffer that stays as it
is when the call fails. -/
def absorb (kept result : Bytes) (length : UInt32) (s : Bytes) : Run Step :=
  if result = [] then
    match s with
    | [] => .error .outOfRange
    | c :: _ => if c = bar then finishRound s length else .ok (.done .UNKNOWN none kept)
  else finishRound (result ++ s) length

theorem length_packetBuffer (str : Bytes) : (packetBuffer str).length = str.length + 6 := by
  simp [packetBuffer]

/-- The bytes of a packet, and the value that its length field decodes to. -/
theorem packetBuffer_eq (str : Bytes) : ∃ a b c d,
    packetBuffer str = bar :: a :: b :: c :: d :: (str ++ [bar]) ∧
      (str.length < 2 ^ 32 →
        a.toNat * 256 * 256 * 256 + b.toNat * 256 * 256 + c.toNat * 256 + d.toNat = str.length) := by
  refine ⟨_, _, _, _, by rw [packetBuffer]; rfl, fun hlen => ?_⟩
  simp only [UInt8.toNat_ofNat']
  omega

theorem packetLength_eq {str result unread tail : Bytes} (hlen : str.length < 2 ^ 31 - 6)
    (hstream : result ++ unread = packetBuffer str ++ tail) (hfive : 5 ≤ result.length) :
    packetLength result = .ok (UInt32.ofNat str.length) := by
  obtain ⟨a, b, c, d, hbuffer, hvalue⟩ := packetBuffer_eq str
  rw [hbuffer] at hstream
  match result, hfive with
  | _ :: a' :: b' :: c' :: d' :: result', _ =>
    simp only [List.cons_append, List.cons.injEq] at hstream
    obtain ⟨-, rfl, rfl, rfl, rfl, -⟩ := hstream
    have hsum := hvalue (by omega)
    rw [packetLength, if_neg (by omega), hsum]

/-- What the local variable `length` can be while `result` has been received of
a packet with data `str`. Zero means that the header is still to be decoded, or
that the packet is empty. -/
def LengthFor (str result : Bytes) (length : UInt32) : Prop :=
  length = 0 ∨ (5 ≤ result.length ∧ length.toNat = str.length)

theorem LengthFor.append {str result : Bytes} {length : UInt32} (h : LengthFor str result length)
    (s : Bytes) : LengthFor str (result ++ s) length := by
  rcases h with h | ⟨hfive, hvalue⟩
  · exact .inl h
  · refine .inr ⟨?_, hvalue⟩
    rw [List.length_append]
    omega

/-- The decoding step of a round leaves `length` for the same packet, and has
its value once the header is there. -/
theorem decodeLength_spec {str result unread tail : Bytes} {length : UInt32}
    (hlen : str.length < 2 ^ 31 - 6) (hstream : result ++ unread = packetBuffer str ++ tail)
    (hlength : LengthFor str result length) :
    ∃ length' : UInt32, decodeLength result length = .ok length' ∧ LengthFor str result length' ∧
      (length'.toNat = str.length ∨ result.length < 5) := by
  rw [decodeLength]
  by_cases hfive : 5 ≤ result.length
  · have hvalue : (UInt32.ofNat str.length).toNat = str.length :=
      UInt32.toNat_ofNat_of_lt' (by rw [UInt32.size]; omega)
    by_cases hzero : length = 0
    · refine ⟨UInt32.ofNat str.length, ?_, .inr ⟨hfive, hvalue⟩, .inl hvalue⟩
      rw [if_pos ⟨hzero, hfive⟩, packetLength_eq hlen hstream hfive]
    · refine ⟨length, if_neg (fun h => hzero h.1), hlength, .inl ?_⟩
      exact (hlength.resolve_left hzero).2
  · exact ⟨length, if_neg (fun h => hfive h.2), hlength, .inr (by omega)⟩

/-- On a stream that continues with the packet of `str`, the end of a round
returns `str` when the whole packet is there, and otherwise reads on. -/
theorem finishRound_spec {str result unread tail : Bytes} {length : UInt32}
    (hlen : str.length < 2 ^ 31 - 6) (hstream : result ++ unread = packetBuffer str ++ tail)
    (hlength : LengthFor str result length) :
    if (packetBuffer str).length ≤ result.length then
      ∃ leftover, finishRound result length = .ok (.done .SUCCESS (some str) leftover) ∧
        leftover ++ unread = tail
    else ∃ length', finishRound result length = .ok (.more result length') ∧
      LengthFor str result length' := by
  obtain ⟨length', hdecode, hlength', hshort⟩ := decodeLength_spec hlen hstream hlength
  have hsum : (length' + 6).toNat = length'.toNat + 6 := by
    have hsmall : length'.toNat < 2 ^ 31 := by
      rcases hlength' with rfl | ⟨-, h⟩
      · decide
      · omega
    rw [UInt32.toNat_add, show UInt32.toNat 6 = 6 from rfl]
    omega
  rw [finishRound, hdecode, Run.ok_bind, hsum]
  have hsize := length_packetBuffer str
  split
  · next hcomplete =>
    have hvalue : length'.toNat = str.length := by omega
    obtain ⟨leftover, rfl⟩ : packetBuffer str <+: result :=
      List.prefix_of_prefix_length_le ⟨tail, hstream.symm⟩ (List.prefix_append _ _) hcomplete
    obtain ⟨a, b, c, d, hbuffer, -⟩ := packetBuffer_eq str
    have hpacket : ((packetBuffer str ++ leftover).drop 5).take length'.toNat = str := by
      rw [hbuffer, hvalue]
      simp
    have hleftover : (if length'.toNat + 6 < (packetBuffer str ++ leftover).length then
        (packetBuffer str ++ leftover).drop (length'.toNat + 6) else []) = leftover := by
      rw [hvalue, ← hsize, List.drop_left, List.length_append]
      split
      · rfl
      · exact (List.eq_nil_of_length_eq_zero (by omega)).symm
    refine ⟨leftover, ?_, by simpa using hstream⟩
    rw [if_pos (by omega), if_pos (by omega), hpacket, hleftover]
  · next hincomplete =>
    exact ⟨length', if_neg (by omega), hlength'⟩

/-- A whole round on such a stream. The call can only fail on the first byte of
a packet, and that one is a bar. -/
theorem absorb_spec (kept : Bytes) {str result s unread tail : Bytes} {length : UInt32}
    (hlen : str.length < 2 ^ 31 - 6)
    (hstream : result ++ s ++ unread = packetBuffer str ++ tail)
    (hlength : LengthFor str result length) (hs : result = [] → s ≠ []) :
    if (packetBuffer str).length ≤ (result ++ s).length then
      ∃ leftover, absorb kept result length s = .ok (.done .SUCCESS (some str) leftover) ∧
        leftover ++ unread = tail
    else ∃ length', absorb kept result length s = .ok (.more (result ++ s) length') ∧
      LengthFor str (result ++ s) length' := by
  have hrun : absorb kept result length s = finishRound (result ++ s) length := by
    unfold absorb
    split
    · next hempty =>
      subst hempty
      obtain ⟨c, s, rfl⟩ := List.exists_cons_of_ne_nil (hs rfl)
      obtain ⟨a, b, c', d, hbuffer, -⟩ := packetBuffer_eq str
      rw [hbuffer] at hstream
      have hbar : c = bar := by simpa using (List.cons.inj hstream).1
      simp [hbar]
    · rfl
  rw [hrun]
  exact finishRound_spec hlen hstream (hlength.append s)

end clockUtils.sockets
