import ClockUtils.Compression.FixedRoundTrip
import ClockUtils.Compression.PrefixCode
import Mathlib.Data.List.Iterate

open BitPack

namespace clockUtils.compression

/-- The cursor after every turn of the inner loop of `getChar`, on the way from
a node down to a leaf. -/
def walkTrace (compressed : Bytes) : Node → Cursor → List Cursor
  | .nullptr, _ => []
  | .mk _ _ .nullptr .nullptr, _ => []
  | .mk _ _ left right, cursor =>
    if cursor.endReached then []
    else if bitOf cursor.currentChar cursor.bitIndex then
      cursor.advance compressed :: walkTrace compressed left (cursor.advance compressed)
    else cursor.advance compressed :: walkTrace compressed right (cursor.advance compressed)

/-- The cursor after every turn of the inner loop in all of `getChar`. -/
def getCharTrace (compressed : Bytes) (root : Node) : Nat → Cursor → List Cursor
  | 0, _ => []
  | rounds + 1, cursor =>
    walkTrace compressed root cursor ++
      match walk compressed root cursor with
      | .ok (some (_, cursor)) => getCharTrace compressed root rounds cursor
      | _ => []

theorem walkTrace_inner (compressed : Bytes) {value : UInt32} {c : UInt8} {left right : Node}
    (hinner : (Node.mk value c left right).isInner = true) (cursor : Cursor) :
    walkTrace compressed (.mk value c left right) cursor =
      if cursor.endReached then []
      else if bitOf cursor.currentChar cursor.bitIndex then
        cursor.advance compressed :: walkTrace compressed left (cursor.advance compressed)
      else cursor.advance compressed :: walkTrace compressed right (cursor.advance compressed) := by
  cases left with
  | nullptr =>
    cases right with
    | nullptr => cases hinner
    | mk => rfl
  | mk => rfl

theorem walkTrace_leaf (compressed : Bytes) {node : Node} (hinner : node.isInner = false)
    (cursor : Cursor) : walkTrace compressed node cursor = [] := by
  cases node with
  | nullptr => rfl
  | mk value c left right =>
    cases left with
    | nullptr =>
      cases right with
      | nullptr => rfl
      | mk => cases hinner
    | mk => cases hinner

/-- Every step advances the cursor by one bit. -/
theorem walkTrace_eq_iterate (compressed : Bytes) (node : Node) (cursor : Cursor) :
    walkTrace compressed node cursor =
      List.iterate (Cursor.advance compressed) (cursor.advance compressed)
        (walkTrace compressed node cursor).length := by
  induction node generalizing cursor with
  | nullptr => rfl
  | mk value c left right ihl ihr =>
    cases hinner : (Node.mk value c left right).isInner with
    | false => rw [walkTrace_leaf compressed hinner, List.length_nil, List.iterate]
    | true =>
      rw [walkTrace_inner compressed hinner]
      split
      · rfl
      · split
        · rw [List.length_cons, List.iterate, ← ihl]
        · rw [List.length_cons, List.iterate, ← ihr]

theorem walk_leaf {compressed : Bytes} {node : Node} (hinner : node.isInner = false)
    {cursor cursor' : Cursor} {c : UInt8} (h : walk compressed node cursor = .ok (some (c, cursor'))) :
    cursor' = cursor := by
  cases node with
  | nullptr => cases h
  | mk value c left right =>
    cases left with
    | nullptr =>
      cases right with
      | nullptr =>
        rw [walk, Except.ok.injEq, Option.some.injEq, Prod.mk.injEq] at h
        exact h.2.symm
      | mk => cases hinner
    | mk => cases hinner

/-- The walk leaves the cursor of its last step. -/
theorem walk_eq_iterate {compressed : Bytes} {node : Node} {cursor cursor' : Cursor} {c : UInt8}
    (h : walk compressed node cursor = .ok (some (c, cursor'))) :
    cursor' = (Cursor.advance compressed)^[(walkTrace compressed node cursor).length] cursor := by
  induction node generalizing cursor with
  | nullptr => cases h
  | mk value c left right ihl ihr =>
    cases hinner : (Node.mk value c left right).isInner with
    | false =>
      rw [walkTrace_leaf compressed hinner]
      exact walk_leaf hinner h
    | true =>
      rw [walk_inner compressed hinner] at h
      rw [walkTrace_inner compressed hinner]
      split at h
      · cases h
      · next hend =>
        rw [if_neg hend]
        split at h
        · next hbit =>
          rw [if_pos hbit, List.length_cons, Function.iterate_succ_apply]
          exact ihl h
        · next hbit =>
          rw [if_neg hbit, List.length_cons, Function.iterate_succ_apply]
          exact ihr h

theorem getCharTrace_eq_iterate (compressed : Bytes) (root : Node) (rounds : Nat) (cursor : Cursor) :
    getCharTrace compressed root rounds cursor =
      List.iterate (Cursor.advance compressed) (cursor.advance compressed)
        (getCharTrace compressed root rounds cursor).length := by
  induction rounds generalizing cursor with
  | zero => rfl
  | succ rounds ih =>
    rw [getCharTrace, List.length_append, List.iterate_add, ← walkTrace_eq_iterate]
    congr 1
    split
    · next c cursor' hwalk =>
      rw [walk_eq_iterate hwalk, ← Function.iterate_succ_apply, Function.iterate_succ_apply', ← ih]
    · rfl

/-- The trace is that of `getChar`: where its outer loop ends, the cursor is
that of the last step. -/
theorem getCharLoop_eq_iterate {compressed : Bytes} {root : Node} {rounds i : Nat}
    {cursor cursor' : Cursor} {result out : Bytes}
    (h : getCharLoop compressed root rounds i cursor result = .ok (some cursor', out)) :
    cursor' = (Cursor.advance compressed)^[(getCharTrace compressed root rounds cursor).length]
      cursor := by
  induction rounds generalizing i cursor result with
  | zero =>
    rw [getCharLoop, Except.ok.injEq, Prod.mk.injEq, Option.some.injEq] at h
    exact h.1.symm
  | succ rounds ih =>
    rw [getCharLoop] at h
    obtain ⟨found, hwalk, h⟩ := Run.bind_eq_ok_iff.mp h
    cases found with
    | none => simp at h
    | some step =>
      obtain ⟨c, next⟩ := step
      simp only at h
      split at h
      · rw [getCharTrace, hwalk, List.length_append, Nat.add_comm, Function.iterate_add_apply,
          ← walk_eq_iterate hwalk]
        exact ih h
      · cases h

/-- After `n` steps the byte index is the number of bytes consumed, modulo `2 ^ 32`. -/
theorem iterate_advance (compressed : Bytes) (n : Nat) :
    ((Cursor.advance compressed)^[n] (.start compressed)).bitIndex = n % 8 ∧
      ((Cursor.advance compressed)^[n] (.start compressed)).byteIndex = UInt32.ofNat (n / 8) := by
  induction n with
  | zero => exact ⟨rfl, rfl⟩
  | succ n ih =>
    rw [Function.iterate_succ_apply']
    generalize (Cursor.advance compressed)^[n] (.start compressed) = cursor at ih
    obtain ⟨hbit, hbyte⟩ := ih
    have hadvance : (cursor.advance compressed).bitIndex =
          (if cursor.bitIndex + 1 = 8 then 0 else cursor.bitIndex + 1) ∧
        (cursor.advance compressed).byteIndex =
          if cursor.bitIndex + 1 = 8 then cursor.byteIndex + 1 else cursor.byteIndex := by
      unfold Cursor.advance
      split
      · split
        · exact ⟨rfl, rfl⟩
        · exact ⟨rfl, rfl⟩
      · exact ⟨rfl, rfl⟩
    rw [hadvance.1, hadvance.2, hbit, hbyte]
    split
    · next hfull =>
      have hdiv : (n + 1) / 8 = n / 8 + 1 := by omega
      exact ⟨by omega, by rw [hdiv, UInt32.ofNat_add]; rfl⟩
    · next hinner =>
      have hdiv : (n + 1) / 8 = n / 8 := by omega
      exact ⟨by omega, by rw [hdiv]⟩

/-- At every step of the decoder the byte index is the number of payload bytes
consumed so far. -/
def ByteIndexExact (payload : Bytes) (root : Node) (length : Nat) : Prop :=
  ∀ k cursor, (getCharTrace payload root length (.start payload))[k]? = some cursor →
    cursor.byteIndex.toNat = (k + 1) / 8

/-- It wraps at the step that consumes the byte number `2 ^ 32`, if there is one. -/
theorem byteIndexExact_iff (payload : Bytes) (root : Node) (length : Nat) :
    ByteIndexExact payload root length ↔
      (getCharTrace payload root length (.start payload)).length < 2 ^ 35 := by
  have hstep : ∀ k < (getCharTrace payload root length (.start payload)).length,
      (getCharTrace payload root length (.start payload))[k]? =
        some ((Cursor.advance payload)^[k + 1] (.start payload)) := by
    intro k hk
    rw [getCharTrace_eq_iterate, List.getElem?_iterate _ _ _ _ hk, Function.iterate_succ_apply]
  constructor
  · intro hexact
    by_contra hlong
    have hwrap := hexact (2 ^ 35 - 1) _ (hstep (2 ^ 35 - 1) (by omega))
    rw [(iterate_advance payload _).2] at hwrap
    exact absurd hwrap (by decide)
  · intro hshort k cursor hcursor
    have hk := (List.getElem?_eq_some_iff.mp hcursor).1
    rw [hstep k hk, Option.some.injEq] at hcursor
    rw [← hcursor, (iterate_advance payload _).2, UInt32.toNat_ofNat_of_lt']
    rw [UInt32.size]
    omega

theorem walkTrace_eq_child (compressed : Bytes) {node : Node} (hinner : node.isInner = true)
    {cursor : Cursor} (hend : cursor.endReached = false) :
    walkTrace compressed node cursor =
      cursor.advance compressed ::
        walkTrace compressed (node.child (bitOf cursor.currentChar cursor.bitIndex))
          (cursor.advance compressed) := by
  cases node with
  | nullptr => cases hinner
  | mk value c left right =>
    rw [walkTrace_inner compressed hinner, hend, if_neg Bool.false_ne_true, Node.child]
    cases bitOf cursor.currentChar cursor.bitIndex with
    | true => rfl
    | false => rfl

/-- As far as the byte index does not wrap, `n` bits from position `p` on make
`n` steps, and steps up to the wrap are made in any case. -/
def Steps (p n steps : Nat) : Prop :=
  if p + n < 2 ^ 35 then steps = n else 2 ^ 35 ≤ p + steps

theorem Steps.zero {p : Nat} (hp : p < 2 ^ 35) : Steps p 0 0 := by
  rw [Steps, if_pos (by omega)]

theorem Steps.append {p m n i j : Nat} (hfirst : Steps p m i)
    (hrest : p + m < 2 ^ 35 → Steps (p + m) n j) : Steps p (m + n) (i + j) := by
  unfold Steps at hfirst hrest ⊢
  by_cases hwrap : p + m < 2 ^ 35
  · have hrest := hrest hwrap
    rw [if_pos hwrap] at hfirst
    split at hrest
    · rw [if_pos (by omega), hfirst, hrest]
    · rw [if_neg (by omega)]
      omega
  · rw [if_neg hwrap] at hfirst
    rw [if_neg (by omega)]
    omega

theorem Steps.succ {p n steps : Nat} (h : p + 1 < 2 ^ 35 → Steps (p + 1) n steps) :
    Steps p (n + 1) (steps + 1) := by
  have hone : Steps p 1 1 := by
    unfold Steps
    split
    · rfl
    · omega
  rw [Nat.add_comm n, Nat.add_comm steps]
  exact hone.append h

theorem walkTrace_word {compressed : Bytes} {node : Node} {t : CodeTree UInt8}
    (hnode : node.Represents t) {w rest : List Bool} {c : UInt8} (hw : t.Word w c) {p : Nat}
    (hp : p < 2 ^ 35) {cursor : Cursor} (h : cursor.At compressed p)
    (hbits : (bits (readable compressed)).drop p = w ++ rest) :
    Steps p w.length (walkTrace compressed node cursor).length := by
  induction hw generalizing node p cursor with
  | leaf c =>
    cases hnode with
    | leaf value c => exact .zero hp
  | @left l r w c hw ih =>
    cases hnode with
    | branch value c hleft hright =>
      rw [walkTrace_eq_child compressed (hleft.isInner_branch value c _) (h.not_endReached hbits),
        List.length_cons, List.length_cons, h.bit_eq hbits]
      refine Steps.succ fun hwrap => ?_
      obtain ⟨hat, hdrop⟩ := h.step hwrap hbits
      exact ih hleft hwrap hat hdrop
  | @right l r w c hw ih =>
    cases hnode with
    | branch value c hleft hright =>
      rw [walkTrace_eq_child compressed (hleft.isInner_branch value c _) (h.not_endReached hbits),
        List.length_cons, List.length_cons, h.bit_eq hbits]
      refine Steps.succ fun hwrap => ?_
      obtain ⟨hat, hdrop⟩ := h.step hwrap hbits
      exact ih hright hwrap hat hdrop

theorem getCharTrace_encode {compressed : Bytes} {root : Node} {t : CodeTree UInt8}
    (hroot : root.Represents t) {mapping : ByteTable (List Bool)} (htable : CodeTableOf t mapping)
    {s : Bytes} (hsymbols : ∀ c ∈ s, c ∈ t.symbols) {rest : List Bool} {p : Nat} (hp : p < 2 ^ 35)
    {cursor : Cursor} (h : cursor.At compressed p)
    (hbits : (bits (readable compressed)).drop p = encode mapping s ++ rest) :
    Steps p (encode mapping s).length (getCharTrace compressed root s.length cursor).length := by
  induction s generalizing p cursor with
  | nil => exact .zero hp
  | cons c s ih =>
    rw [List.forall_mem_cons] at hsymbols
    have hencode : encode mapping (c :: s) = mapping.get c ++ encode mapping s := by
      simp [encode]
    rw [hencode, List.append_assoc] at hbits
    have hword := htable.word hsymbols.1
    rw [hencode, List.length_append, List.length_cons, getCharTrace, List.length_append]
    refine (walkTrace_word hroot hword hp h hbits).append fun hwrap => ?_
    obtain ⟨cursor', hwalk, hat⟩ := walk_word hroot hword hwrap h hbits
    have hdrop : (bits (readable compressed)).drop (p + (mapping.get c).length) =
        encode mapping s ++ rest := by
      rw [← List.drop_drop, hbits, List.drop_left]
    rw [hwalk]
    exact ih hsymbols.2 hwrap hat hdrop

/-- The payload of an encoded text is decoded without a wrap exactly when its
code words have less than `2 ^ 35` bits. -/
theorem byteIndexExact_encode_iff {payload : Bytes} (hne : payload ≠ []) {root : Node}
    {t : CodeTree UInt8} (hroot : root.Represents t) {mapping : ByteTable (List Bool)}
    (htable : CodeTableOf t mapping) {s : Bytes} (hsymbols : ∀ c ∈ s, c ∈ t.symbols)
    (hbits : encode mapping s <+: bits payload) :
    ByteIndexExact payload root s.length ↔ (encode mapping s).length < 2 ^ 35 := by
  obtain ⟨rest, hrest⟩ := hbits
  have hdrop : (bits (readable payload)).drop 0 = encode mapping s ++ rest := by
    rw [List.drop_zero, readable_of_ne_nil hne, hrest]
  have hsteps := getCharTrace_encode hroot htable hsymbols (by decide) (Cursor.start_at payload) hdrop
  rw [byteIndexExact_iff]
  unfold Steps at hsteps
  rw [Nat.zero_add, Nat.zero_add] at hsteps
  split at hsteps
  · omega
  · omega

namespace HuffmanFixed

/-- The number of bits that the code words of a text have. -/
def codeBits (table : ByteTable (List Bool)) (s : Bytes) : Nat :=
  (s.map fun c => (table.get c).length).sum

theorem codeBits_eq (table : ByteTable (List Bool)) (s : Bytes) :
    codeBits table s = (encode table s).length := by
  rw [codeBits, encode, List.length_flatMap]

/-- What the decoder does with the output of `compress`. -/
theorem compress_byteIndex {rt : Runtime} {node : Node} {t : CodeTree UInt8}
    {table : ByteTable (List Bool)} (hrep : node.Represents t) (htable : CodeTableOf t table)
    (hall : ∀ c, c ∈ t.symbols) (halloc : rt.alloc 4 = true) {s : Bytes}
    (hlen : s.length ≤ 2 ^ 32 - 1) {mappings : ByteTable (List Bool)}
    (hfill : fillMappings rt mappings = .ok table) (out : Bytes) :
    ∃ c len, compress rt mappings s out = .ok (table, .SUCCESS, c) ∧ readLength c 0 = .ok len ∧
      (ByteIndexExact (c.drop 4) node len.toNat ↔ codeBits table s < 2 ^ 35) ∧
      ((c.drop 4).length ≤ 2 ^ 32 ↔ codeBits table s < 2 ^ 35) := by
  obtain ⟨payload, hcompress, hbits, hsize⟩ := compress_payload table halloc hlen
  have hlong : 0 + 4 ≤ (lengthBytes (UInt32.ofNat s.length) ++ payload).length := by
    rw [List.length_append, length_lengthBytes]
    omega
  obtain ⟨len, hread, hvalue⟩ := readLength_ok hlong
  rw [List.drop_zero, List.take_left' (length_lengthBytes _), bigEndian_lengthBytes,
    UInt32.toNat_ofNat_of_lt' (by rw [UInt32.size]; omega)] at hvalue
  refine ⟨_, len, hcompress mappings out hfill, hread, ?_⟩
  rw [List.drop_left' (length_lengthBytes _), hvalue, hsize, codeBits_eq]
  by_cases hempty : s = []
  · subst hempty
    have hnone : ByteIndexExact payload node 0 := fun k cursor hcursor => by cases hcursor
    rw [if_pos rfl]
    exact ⟨iff_of_true hnone (Nat.two_pow_pos 35), iff_of_true (by decide) (Nat.two_pow_pos 35)⟩
  · rw [if_neg hempty] at hsize ⊢
    have hne : payload ≠ [] := List.ne_nil_of_length_pos (by omega)
    exact ⟨byteIndexExact_encode_iff hne hrep htable (fun c _ => hall c) hbits, by omega⟩

/-- The fixed format over all texts that `compress` accepts: the byte index of
the decoder is right at every step, and the payload has at most `2 ^ 32` bytes,
exactly when the code words of the text have less than `2 ^ 35` bits. -/
theorem byteIndex_exact_iff (rt : Runtime) (halloc : rt.alloc 4 = true) :
    ∃ node table, root rt = .ok node ∧
      (∀ mappings, Reachable rt mappings → fillMappings rt mappings = .ok table) ∧
      ∀ (s : Bytes) (mappings : ByteTable (List Bool)) (out : Bytes), s.length ≤ 2 ^ 32 - 1 →
        Reachable rt mappings → ∃ c len, compress rt mappings s out = .ok (table, .SUCCESS, c) ∧
          readLength c 0 = .ok len ∧
          (ByteIndexExact (c.drop 4) node len.toNat ↔ codeBits table s < 2 ^ 35) ∧
          ((c.drop 4).length ≤ 2 ^ 32 ↔ codeBits table s < 2 ^ 35) := by
  obtain ⟨node, t, table, hnode, hrep, htable, -, hall, hfill⟩ := exists_table rt
  exact ⟨node, table, hnode, hfill, fun s mappings out hlen hmappings =>
    compress_byteIndex hrep htable hall halloc hlen (hfill _ hmappings) out⟩

/-- A text of two bytes. -/
theorem byteIndex_exact_hi : ∃ node table c len, root HuffmanGeneric.exactRuntime = .ok node ∧
    compress HuffmanGeneric.exactRuntime (Vector.replicate 256 []) [104, 105] [] =
      .ok (table, .SUCCESS, c) ∧ readLength c 0 = .ok len ∧
    ByteIndexExact (c.drop 4) node len.toNat := by
  obtain ⟨node, table, hnode, -, hall⟩ := byteIndex_exact_iff HuffmanGeneric.exactRuntime rfl
  obtain ⟨c, len, hcompress, hread, hexact, hsize⟩ :=
    hall [104, 105] (Vector.replicate 256 []) [] (by decide) .initial
  have hle := length_payload_le _ (by decide) rfl .initial hcompress
  exact ⟨node, table, c, len, hnode, hcompress, hread, hexact.mpr (hsize.mp (hle.trans (by decide)))⟩

end HuffmanFixed

end clockUtils.compression
