import ClockUtils.Compression.BuildTree

open BitPack

namespace clockUtils.compression

/-- The bytes the decoder can read: of an empty payload it reads the
terminator, so it sees one zero byte before it notices the end. -/
def readable (compressed : Bytes) : Bytes :=
  if compressed = [] then [0] else compressed

theorem readable_of_ne_nil {compressed : Bytes} (h : compressed ≠ []) :
    readable compressed = compressed :=
  if_neg h

theorem length_readable (compressed : Bytes) :
    (readable compressed).length = max 1 compressed.length := by
  by_cases h : compressed = []
  · rw [h]
    rfl
  · have hpos := List.length_pos_of_ne_nil h
    rw [readable_of_ne_nil h]
    omega

/-- The cursor stands before bit `p` of the readable bytes. -/
structure Cursor.At (compressed : Bytes) (p : Nat) (cursor : Cursor) : Prop where
  bitIndex_eq : cursor.bitIndex = p % 8
  byteIndex_eq : cursor.byteIndex.toNat = p / 8
  position_le : p ≤ 8 * (readable compressed).length
  endReached_iff : cursor.endReached = true ↔ p = 8 * (readable compressed).length
  currentChar_eq : p < 8 * (readable compressed).length →
    cursor.currentChar = (readable compressed).getD (p / 8) 0

theorem Cursor.start_at (compressed : Bytes) : Cursor.At compressed 0 (.start compressed) := by
  have hpos := length_readable compressed
  refine ⟨rfl, rfl, Nat.zero_le _, ?_, ?_⟩
  · simp only [Cursor.start, Bool.false_eq_true, false_iff]
    omega
  · intro _
    unfold readable
    split
    · next hempty => simp [Cursor.start, hempty]
    · rfl

/-- One bit further, as long as bits are left and the 32-bit byte index does
not wrap. -/
theorem Cursor.At.advance {compressed : Bytes} {p : Nat} (hwrap : p + 1 < 2 ^ 35) {cursor : Cursor}
    (h : cursor.At compressed p) (hp : p < 8 * (readable compressed).length) :
    (cursor.advance compressed).At compressed (p + 1) := by
  obtain ⟨hbit, hbyte, -, hend, hchar⟩ := h
  have hnotEnd : cursor.endReached = false := by
    rw [← Bool.not_eq_true, hend]
    omega
  have hreadable := length_readable compressed
  unfold Cursor.advance
  split
  · next hfull =>
    rw [hbit] at hfull
    have hnext : (cursor.byteIndex + 1).toNat = p / 8 + 1 := by
      rw [UInt32.toNat_add, hbyte, UInt32.toNat_one]
      omega
    split
    · next hlast =>
      rw [hnext] at hlast
      refine ⟨?_, ?_, ?_, ?_, ?_⟩
      · simp only
        omega
      · simp only [hnext]
        omega
      · omega
      · simp only [true_iff]
        omega
      · intro hlt
        omega
    · next hmore =>
      rw [hnext] at hmore
      have hsame : readable compressed = compressed := by
        refine readable_of_ne_nil ?_
        rintro rfl
        simp at hmore
      refine ⟨?_, ?_, ?_, ?_, ?_⟩
      · simp only
        omega
      · simp only [hnext]
        omega
      · omega
      · simp only [hnotEnd, Bool.false_eq_true, false_iff]
        rw [hsame]
        omega
      · intro hlt
        have hdiv : (p + 1) / 8 = p / 8 + 1 := by omega
        simp only [hnext, hsame, hdiv]
  · next hinner =>
    rw [hbit] at hinner
    have hdiv : (p + 1) / 8 = p / 8 := by omega
    refine ⟨?_, ?_, ?_, ?_, ?_⟩
    · simp only [hbit]
      omega
    · simp only [hdiv, hbyte]
    · omega
    · simp only [hnotEnd, Bool.false_eq_true, false_iff]
      omega
    · intro _
      simp only [hdiv, hchar hp]

/-- The bit the decoder tests is the bit at the cursor's position. -/
theorem Cursor.At.drop_bits {compressed : Bytes} {p : Nat} {cursor : Cursor}
    (h : cursor.At compressed p) (hp : p < 8 * (readable compressed).length) :
    (bits (readable compressed)).drop p =
      bitOf cursor.currentChar cursor.bitIndex :: (bits (readable compressed)).drop (p + 1) := by
  have hbit : (bits (readable compressed))[p]? =
      some (bitOf cursor.currentChar cursor.bitIndex) := by
    rw [getElem?_bits hp, bit, h.currentChar_eq hp, h.bitIndex_eq]
  obtain ⟨hlt, hget⟩ := List.getElem?_eq_some_iff.mp hbit
  rw [List.drop_eq_getElem_cons hlt, hget]

/-- The condition of the inner loop of `getChar`,
`node->left != nullptr || node->right != nullptr`. -/
def Node.isInner : Node → Bool
  | .nullptr => false
  | .mk _ _ .nullptr .nullptr => false
  | .mk _ _ _ _ => true

theorem Node.Represents.isInner_branch {left : Node} {l : CodeTree UInt8} (hleft : left.Represents l)
    (value : UInt32) (c : UInt8) (right : Node) : (Node.mk value c left right).isInner = true := by
  obtain ⟨_, _, _, _, rfl⟩ := hleft.exists_mk
  rfl

theorem walk_inner (compressed : Bytes) {value : UInt32} {c : UInt8} {left right : Node}
    (hinner : (Node.mk value c left right).isInner = true) (cursor : Cursor) :
    walk compressed (.mk value c left right) cursor =
      if cursor.endReached then .ok none
      else if bitOf cursor.currentChar cursor.bitIndex then
        walk compressed left (cursor.advance compressed)
      else walk compressed right (cursor.advance compressed) := by
  cases left with
  | nullptr =>
    cases right with
    | nullptr => cases hinner
    | mk => rfl
  | mk => rfl

/-- Walking down from a node reads one symbol off the bits at the cursor. -/
theorem walk_eq_decode {compressed : Bytes} (hlen : compressed.length < 2 ^ 32) {node : Node}
    {t : CodeTree UInt8} (hnode : node.Represents t) {p : Nat} {cursor : Cursor}
    (h : cursor.At compressed p) :
    match t.decode ((bits (readable compressed)).drop p) with
    | none => walk compressed node cursor = .ok none
    | some (c, rest) => ∃ p' cursor', walk compressed node cursor = .ok (some (c, cursor')) ∧
        cursor'.At compressed p' ∧ rest = (bits (readable compressed)).drop p' := by
  induction hnode generalizing p cursor with
  | leaf value c => exact ⟨p, cursor, rfl, h, rfl⟩
  | @branch left right l r value c hleft hright ihl ihr =>
    rw [walk_inner compressed (hleft.isInner_branch value c right)]
    by_cases hp : p < 8 * (readable compressed).length
    · have hnotEnd : ¬ cursor.endReached = true := by
        rw [h.endReached_iff]
        omega
      have hwrap : p + 1 < 2 ^ 35 := by
        have hreadable := length_readable compressed
        omega
      rw [if_neg hnotEnd, h.drop_bits hp, CodeTree.decode]
      cases bitOf cursor.currentChar cursor.bitIndex with
      | true => exact ihl (h.advance hwrap hp)
      | false => exact ihr (h.advance hwrap hp)
    · have hend : cursor.endReached = true := h.endReached_iff.mpr (by have := h.position_le; omega)
      rw [if_pos hend, List.drop_eq_nil_of_le (by rw [length_bits]; omega), CodeTree.decode]

/-- The outer loop reads as many symbols as rounds are left and stores them
from index `i` on. -/
theorem getCharLoop_eq_decodeMany {compressed : Bytes} (hlen : compressed.length < 2 ^ 32)
    {root : Node} {t : CodeTree UInt8} (hroot : root.Represents t) {rounds i p : Nat}
    {cursor : Cursor} (h : cursor.At compressed p) {result : Bytes}
    (hresult : result.length = i + rounds) :
    match t.decodeMany rounds ((bits (readable compressed)).drop p) with
    | none => ∃ out, getCharLoop compressed root rounds i cursor result = .ok (none, out)
    | some (s, rest) => ∃ p' cursor',
        getCharLoop compressed root rounds i cursor result = .ok (some cursor', result.take i ++ s) ∧
        cursor'.At compressed p' ∧ rest = (bits (readable compressed)).drop p' := by
  induction rounds generalizing i p cursor result with
  | zero =>
    refine ⟨p, cursor, ?_, h, rfl⟩
    rw [getCharLoop, List.append_nil, List.take_of_length_le (by omega)]
  | succ rounds ih =>
    have hwalk := walk_eq_decode hlen hroot h
    rw [CodeTree.decodeMany]
    cases hdecode : t.decode ((bits (readable compressed)).drop p) with
    | none =>
      rw [hdecode] at hwalk
      exact ⟨result, by rw [getCharLoop, hwalk]; rfl⟩
    | some step =>
      obtain ⟨c, bitsLeft⟩ := step
      rw [hdecode] at hwalk
      obtain ⟨q, cursor', hstep, hat, rfl⟩ := hwalk
      have hloop : getCharLoop compressed root (rounds + 1) i cursor result =
          getCharLoop compressed root rounds (i + 1) cursor' (result.set i c) := by
        rw [getCharLoop, hstep, Run.ok_bind]
        simp only [if_pos (show i < result.length by omega)]
      have htake : (result.set i c).take (i + 1) = result.take i ++ [c] := by
        rw [List.take_succ_eq_append_getElem (by rw [List.length_set]; omega),
          List.getElem_set_self, List.take_set_of_le (le_refl i)]
      have hset : (result.set i c).length = i + 1 + rounds := by
        rw [List.length_set]
        omega
      have hih := ih hat hset
      rw [hloop]
      simp only [Option.bind_eq_bind, Option.bind_some]
      cases hmany : t.decodeMany rounds ((bits (readable compressed)).drop q) with
      | none =>
        rw [hmany] at hih
        exact hih
      | some tail =>
        obtain ⟨s, rest⟩ := tail
        rw [hmany] at hih
        obtain ⟨p', cursor'', hrun, hat', hrest⟩ := hih
        refine ⟨p', cursor'', ?_, hat', hrest⟩
        rw [hrun, htake, List.append_assoc]
        rfl

/-- The payloads that decode to `s`: they begin with the code words of `s` and
have exactly the bytes that the encoder allocates for these bits. -/
def Accepts (t : CodeTree UInt8) (length : Nat) (payload s : Bytes) : Prop :=
  s.length = length ∧ ∃ ws, List.Forall₂ t.Word ws s ∧ ws.flatten <+: bits payload ∧
    payload.length = ws.flatten.length / 8 + 1

theorem Accepts.ne_nil {t : CodeTree UInt8} {length : Nat} {payload s : Bytes}
    (h : Accepts t length payload s) : payload ≠ [] := by
  obtain ⟨_, ws, _, _, hsize⟩ := h
  rintro rfl
  simp at hsize

/-- An accepted payload can be decoded. -/
theorem Accepts.decodeMany_eq {t : CodeTree UInt8} {length : Nat} {payload s : Bytes}
    (h : Accepts t length payload s) :
    ∃ rest, t.decodeMany length (bits (readable payload)) = some (s, rest) := by
  have hne := h.ne_nil
  obtain ⟨hs, ws, hws, ⟨rest, hbits⟩, _⟩ := h
  refine ⟨rest, CodeTree.decodeMany_eq_some_iff.mpr ⟨hs, ws, hws, ?_⟩⟩
  rw [readable_of_ne_nil hne, hbits]

/-- A decoded payload is accepted when its last byte is the one that the code
words end in. -/
theorem accepts_iff_of_words {t : CodeTree UInt8} {length : Nat} {payload s : Bytes}
    {ws : List (List Bool)} {rest : List Bool} (hlen : payload.length < 2 ^ 32)
    (hs : s.length = length) (hws : List.Forall₂ t.Word ws s)
    (hbits : bits (readable payload) = ws.flatten ++ rest) (s' : Bytes) :
    Accepts t length payload s' ↔ s' = s ∧ ws.flatten.length / 8 = lastIndex payload := by
  constructor
  · intro h
    have hne := h.ne_nil
    obtain ⟨hs', ws', hws', ⟨rest', hbits'⟩, hsize⟩ := h
    rw [readable_of_ne_nil hne, ← hbits'] at hbits
    obtain ⟨hsame, hwords⟩ := CodeTree.words_unique hws' hws (hs'.trans hs.symm) hbits
    refine ⟨hsame, ?_⟩
    rw [hwords] at hsize
    rw [lastIndex]
    omega
  · rintro ⟨rfl, hend⟩
    have hlength := congrArg List.length hbits
    rw [length_bits, List.length_append, length_readable] at hlength
    have hne : payload ≠ [] := by
      rintro rfl
      rw [lastIndex, List.length_nil] at hend
      rw [List.length_nil] at hlength
      omega
    have hpos := List.length_pos_of_ne_nil hne
    rw [readable_of_ne_nil hne] at hbits
    rw [lastIndex] at hend
    exact ⟨hs, ws, hws, ⟨rest, hbits.symm⟩, by omega⟩

/-- `getChar` returns `SUCCESS` exactly for the accepted payloads, and its cursor has then
consumed exactly the code words. -/
theorem getChar_spec {compressed : Bytes} (hlen : compressed.length < 2 ^ 32) {root : Node}
    {t : CodeTree UInt8} (hroot : root.Represents t) {length : UInt32} {result : Bytes}
    (hresult : result.length = length.toNat) :
    (∀ s, getChar compressed root length result = .ok (.SUCCESS, s) ↔
        Accepts t length.toNat compressed s) ∧
      ((∀ s, ¬ Accepts t length.toNat compressed s) →
        ∃ out, getChar compressed root length result = .ok (.INVALID_ARGUMENT, out)) := by
  have hroom : result.length = 0 + length.toNat := by omega
  have hloop := getCharLoop_eq_decodeMany hlen hroot (Cursor.start_at compressed) hroom
  rw [List.drop_zero] at hloop
  cases hmany : t.decodeMany length.toNat (bits (readable compressed)) with
  | none =>
    rw [hmany] at hloop
    obtain ⟨out, hout⟩ := hloop
    have hrun : getChar compressed root length result = .ok (.INVALID_ARGUMENT, out) := by
      rw [getChar, hout]
      rfl
    refine ⟨fun s => ⟨?_, ?_⟩, fun _ => ⟨out, hrun⟩⟩
    · simp [hrun]
    · intro haccept
      obtain ⟨rest, hrest⟩ := haccept.decodeMany_eq
      rw [hmany] at hrest
      cases hrest
  | some found =>
    obtain ⟨s, rest⟩ := found
    rw [hmany] at hloop
    obtain ⟨p, cursor, hout, hat, hrest⟩ := hloop
    rw [List.take_zero, List.nil_append] at hout
    obtain ⟨hs, ws, hws, hbits⟩ := CodeTree.decodeMany_eq_some_iff.mp hmany
    have hposition : p = ws.flatten.length := by
      have hle := hat.position_le
      have hlenBits := congrArg List.length hbits
      rw [hrest, List.length_append, List.length_drop, length_bits] at hlenBits
      omega
    have hrun : getChar compressed root length result =
        if ws.flatten.length / 8 = lastIndex compressed then .ok (.SUCCESS, s)
        else .ok (.INVALID_ARGUMENT, s) := by
      rw [← hposition, ← hat.byteIndex_eq, getChar, hout]
      rfl
    refine ⟨fun s' => ?_, fun hnone => ⟨s, ?_⟩⟩
    · rw [hrun, accepts_iff_of_words hlen hs hws hbits]
      split
      · next hend =>
        rw [and_iff_left hend]
        simp [eq_comm]
      · next hend =>
        rw [iff_false_right (fun h => hend h.2)]
        simp
    · rw [hrun, if_neg]
      intro hend
      exact hnone s ((accepts_iff_of_words hlen hs hws hbits s).mpr ⟨rfl, hend⟩)

end clockUtils.compression
