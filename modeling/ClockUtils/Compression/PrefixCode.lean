import ClockUtils.Compression.GetChar
import ClockUtils.Compression.Mapping
import ClockUtils.Lib.Kraft

open BitPack

namespace clockUtils.compression

namespace Node

/-- `bit ? node->left : node->right` -/
def child : Node → Bool → Node
  | .nullptr, _ => .nullptr
  | .mk _ _ left right, bit => if bit then left else right

/-- The node to which the bits lead. -/
def follow (node : Node) (bits : List Bool) : Node :=
  bits.foldl child node

end Node

/-- A turn of the inner loop of `getChar` follows one bit. -/
theorem walk_eq_child (compressed : Bytes) {node : Node} (hinner : node.isInner = true)
    {cursor : Cursor} (hend : cursor.endReached = false) :
    walk compressed node cursor =
      walk compressed (node.child (bitOf cursor.currentChar cursor.bitIndex))
        (cursor.advance compressed) := by
  cases node with
  | nullptr => cases hinner
  | mk value c left right =>
    rw [walk_inner compressed hinner, hend, if_neg Bool.false_ne_true, Node.child]
    cases bitOf cursor.currentChar cursor.bitIndex with
    | true => rfl
    | false => rfl

namespace Node

/-- A code word leads to the leaf of its byte. -/
theorem Represents.follow_word {node : Node} {t : CodeTree UInt8} (h : node.Represents t)
    {w : List Bool} {c : UInt8} (hw : t.Word w c) :
    ∃ value, node.follow w = .mk value c .nullptr .nullptr := by
  induction hw generalizing node with
  | leaf c =>
    cases h with
    | leaf value c => exact ⟨value, rfl⟩
  | left _ ih =>
    cases h with
    | branch value c hleft hright => exact ih hleft
  | right _ ih =>
    cases h with
    | branch value c hleft hright => exact ih hright

/-- No beginning of a code word leads to a leaf. -/
theorem Represents.isInner_follow {node : Node} {t : CodeTree UInt8} (h : node.Represents t)
    {front rest : List Bool} {c : UInt8} (hw : t.Word (front ++ rest) c) (hrest : rest ≠ []) :
    (node.follow front).isInner = true := by
  induction front generalizing node t with
  | nil =>
    rw [List.nil_append] at hw
    cases h with
    | leaf value c =>
      cases hw
      exact absurd rfl hrest
    | branch value c hleft hright => exact hleft.isInner_branch value c _
  | cons b front ih =>
    rw [List.cons_append] at hw
    cases hw with
    | left hw =>
      cases h with
      | branch value c hleft hright => exact ih hleft hw
    | right hw =>
      cases h with
      | branch value c hleft hright => exact ih hright hw

end Node

/-- Bits are left at a position where a code word begins. -/
theorem position_lt_of_drop {compressed : Bytes} {p : Nat} {b : Bool} {bs : List Bool}
    (hbits : (bits (readable compressed)).drop p = b :: bs) : p < 8 * (readable compressed).length := by
  have hlength := congrArg List.length hbits
  rw [List.length_drop, length_bits, List.length_cons] at hlength
  omega

namespace Cursor.At

variable {compressed : Bytes} {p : Nat} {cursor : Cursor} {b : Bool} {bs : List Bool}

theorem not_endReached (h : cursor.At compressed p)
    (hbits : (bits (readable compressed)).drop p = b :: bs) : cursor.endReached = false := by
  have hp := position_lt_of_drop hbits
  rw [← Bool.not_eq_true, h.endReached_iff]
  omega

theorem bit_eq (h : cursor.At compressed p)
    (hbits : (bits (readable compressed)).drop p = b :: bs) :
    bitOf cursor.currentChar cursor.bitIndex = b := by
  have hdrop := h.drop_bits (position_lt_of_drop hbits)
  rw [hbits, List.cons.injEq] at hdrop
  exact hdrop.1.symm

theorem step (hwrap : p + 1 < 2 ^ 35) (h : cursor.At compressed p)
    (hbits : (bits (readable compressed)).drop p = b :: bs) :
    (cursor.advance compressed).At compressed (p + 1) ∧
      (bits (readable compressed)).drop (p + 1) = bs := by
  refine ⟨h.advance hwrap (position_lt_of_drop hbits), ?_⟩
  rw [← List.drop_drop, hbits, List.drop_one, List.tail_cons]

end Cursor.At

/-- Walking down from a node where a code word begins ends at its leaf, behind
the word. -/
theorem walk_word {compressed : Bytes} {node : Node} {t : CodeTree UInt8} (hnode : node.Represents t)
    {w rest : List Bool} {c : UInt8} (hw : t.Word w c) {p : Nat} (hwrap : p + w.length < 2 ^ 35)
    {cursor : Cursor} (h : cursor.At compressed p)
    (hbits : (bits (readable compressed)).drop p = w ++ rest) :
    ∃ cursor', walk compressed node cursor = .ok (some (c, cursor')) ∧
      cursor'.At compressed (p + w.length) := by
  induction hw generalizing node p cursor with
  | leaf c =>
    cases hnode with
    | leaf value c => exact ⟨cursor, rfl, h⟩
  | @left l r w c hw ih =>
    cases hnode with
    | branch value c hleft hright =>
      rw [List.length_cons] at hwrap ⊢
      obtain ⟨hat, hdrop⟩ := h.step (by omega) hbits
      rw [walk_eq_child compressed (hleft.isInner_branch value c _) (h.not_endReached hbits),
        h.bit_eq hbits]
      have hrest := ih hleft (by omega) hat hdrop
      rwa [show p + 1 + w.length = p + (w.length + 1) by omega] at hrest
  | @right l r w c hw ih =>
    cases hnode with
    | branch value c hleft hright =>
      rw [List.length_cons] at hwrap ⊢
      obtain ⟨hat, hdrop⟩ := h.step (by omega) hbits
      rw [walk_eq_child compressed (hleft.isInner_branch value c _) (h.not_endReached hbits),
        h.bit_eq hbits]
      have hrest := ih hright (by omega) hat hdrop
      rwa [show p + 1 + w.length = p + (w.length + 1) by omega] at hrest

/-- The sum of `2 ^ (-length)` over the words of a table. -/
def kraftSum (mapping : ByteTable (List Bool)) : ℚ :=
  ((((List.range 256).map UInt8.ofNat).filter fun c => mapping.get c ≠ []).map fun c =>
    (1 / 2 : ℚ) ^ (mapping.get c).length).sum

/-- What both encoders get for a header with two bytes or more. -/
structure TableOf (header : ByteTable UInt8) (root : Node) (mapping : ByteTable (List Bool))
    (t : CodeTree UInt8) : Prop where
  represents : root.Represents t
  symbols : t.symbols.Perm (usedBytes header)
  word : CodeTableOf t mapping
  unused : ∀ c, c ∉ t.symbols → mapping.get c = []

theorem exists_tableOf (rt : Runtime) {header : ByteTable UInt8} (hused : usedBytes header ≠ []) :
    ∃ root mapping t, buildTree rt header = .ok root ∧
      generateMapping root [] (Vector.replicate 256 []) = .ok mapping ∧
      TableOf header root mapping t := by
  obtain ⟨root, t, hroot, hrep, hperm⟩ := buildTree_represents rt hused
  have hnodup := hperm.nodup_iff.mpr (nodup_usedBytes header)
  obtain ⟨mapping, hmapping, hword, hunused⟩ :=
    generateMapping_ok hrep hnodup [] (Vector.replicate 256 [])
  refine ⟨root, mapping, t, hroot, hmapping, hrep, hperm, fun w c hw => ?_, fun c hc => ?_⟩
  · rw [hword w c hw, List.nil_append]
  · rw [hunused c hc, ByteTable.get_replicate]

namespace TableOf

variable {header : ByteTable UInt8} {root : Node} {mapping : ByteTable (List Bool)}
  {t : CodeTree UInt8}

theorem mem_symbols_iff (h : TableOf header root mapping t) {c : UInt8} :
    c ∈ t.symbols ↔ header.get c ≠ 0 := by
  rw [h.symbols.mem_iff, mem_usedBytes]

theorem length_word_lt (h : TableOf header root mapping t) {c : UInt8} (hc : c ∈ t.symbols) :
    (mapping.get c).length < 256 := by
  have hlt := (h.word.word hc).length_lt
  have hcard := length_usedBytes_le header
  rw [h.symbols.length_eq] at hlt
  omega

/-- With a second byte no code word is empty. -/
theorem word_ne_nil_iff (h : TableOf header root mapping t)
    (htwo : ∃ c d, c ≠ d ∧ header.get c ≠ 0 ∧ header.get d ≠ 0) (c : UInt8) :
    mapping.get c ≠ [] ↔ header.get c ≠ 0 := by
  rw [← h.mem_symbols_iff]
  refine ⟨fun hne => not_not.mp fun hc => hne (h.unused c hc), fun hc => ?_⟩
  obtain ⟨a, b, hab, ha, hb⟩ := htwo
  rw [← h.mem_symbols_iff] at ha hb
  by_cases hsame : a = c
  · exact (h.word.word hc).ne_nil hb fun hbc => hab (hsame.trans hbc.symm)
  · exact (h.word.word hc).ne_nil ha hsame

theorem eq_of_isPrefix (h : TableOf header root mapping t) {c d : UInt8} (hc : mapping.get c ≠ [])
    (hcd : mapping.get c <+: mapping.get d) : c = d := by
  have hsymbols : ∀ b, mapping.get b ≠ [] → b ∈ t.symbols :=
    fun b hb => not_not.mp fun hunused => hb (h.unused b hunused)
  obtain ⟨rest, hrest⟩ := hcd
  have hd : mapping.get d ≠ [] := by
    rw [← hrest]
    exact List.append_ne_nil_of_left_ne_nil hc _
  have hword := h.word.word (hsymbols d hd)
  rw [← hrest] at hword
  exact ((h.word.word (hsymbols c hc)).eq_of_append hword).1

theorem kraftSum_eq_one (h : TableOf header root mapping t)
    (htwo : ∃ c d, c ≠ d ∧ header.get c ≠ 0 ∧ header.get d ≠ 0) : kraftSum mapping = 1 := by
  have hlen : ∀ w c, t.Word w c → (mapping.get c).length = 0 + w.length := by
    intro w c hw
    rw [h.word w c hw, Nat.zero_add]
  have hkraft := t.kraftOf_placed 0
  rw [CodeTree.placed_eq_map hlen, Multiset.coe_eq_coe.mpr h.symbols, CodeTree.kraftOf,
    Multiset.map_map, Multiset.map_coe, Multiset.sum_coe, pow_zero] at hkraft
  have hwords : ((List.range 256).map UInt8.ofNat).filter (fun c => mapping.get c ≠ []) =
      usedBytes header := by
    refine List.filter_congr fun c _ => ?_
    rw [decide_eq_decide]
    exact h.word_ne_nil_iff htwo c
  rw [kraftSum, hwords]
  exact hkraft

/-- The walk of `getChar` gives the byte of a code word that the payload begins
with. -/
theorem walk_start (h : TableOf header root mapping t) {c : UInt8} (hc : mapping.get c ≠ [])
    {payload : Bytes} (hpayload : mapping.get c <+: bits payload) :
    ∃ cursor, walk payload root (.start payload) = .ok (some (c, cursor)) ∧
      cursor.At payload (mapping.get c).length := by
  have hmem : c ∈ t.symbols := not_not.mp fun hunused => hc (h.unused c hunused)
  have hshort := h.length_word_lt hmem
  have hne : payload ≠ [] := by
    rintro rfl
    exact hc (List.prefix_nil.mp hpayload)
  obtain ⟨rest, hrest⟩ := hpayload
  have hbits : (bits (readable payload)).drop 0 = mapping.get c ++ rest := by
    rw [List.drop_zero, readable_of_ne_nil hne, hrest]
  have hwalk := walk_word h.represents (h.word.word hmem) (by omega) (Cursor.start_at payload) hbits
  rwa [Nat.zero_add] at hwalk

end TableOf

/-- The table of a header with two nonzero entries is a complete prefix code
that the walk of `getChar` inverts: following the bits of a word, from inner
node to inner node, ends at the leaf of its byte. -/
theorem generateMapping_prefixCode (rt : Runtime) (header : ByteTable UInt8)
    (htwo : ∃ c d, c ≠ d ∧ header.get c ≠ 0 ∧ header.get d ≠ 0) :
    ∃ root mapping, buildTree rt header = .ok root ∧
      generateMapping root [] (Vector.replicate 256 []) = .ok mapping ∧
      (∀ c, mapping.get c ≠ [] ↔ header.get c ≠ 0) ∧
      (∀ c d, mapping.get c ≠ [] → mapping.get c <+: mapping.get d → c = d) ∧
      kraftSum mapping = 1 ∧
      ∀ c, mapping.get c ≠ [] →
        (∃ value, root.follow (mapping.get c) = .mk value c .nullptr .nullptr) ∧
        (∀ front, front <+: mapping.get c → front ≠ mapping.get c →
          (root.follow front).isInner = true) ∧
        ∀ payload, mapping.get c <+: bits payload →
          ∃ cursor, walk payload root (.start payload) = .ok (some (c, cursor)) ∧
            cursor.At payload (mapping.get c).length := by
  have hused : usedBytes header ≠ [] := by
    obtain ⟨c, _, -, hc, -⟩ := htwo
    exact List.ne_nil_of_mem (mem_usedBytes.mpr hc)
  obtain ⟨root, mapping, t, hroot, hmapping, h⟩ := exists_tableOf rt hused
  refine ⟨root, mapping, hroot, hmapping, h.word_ne_nil_iff htwo, fun c d => h.eq_of_isPrefix,
    h.kraftSum_eq_one htwo, fun c hc => ?_⟩
  have hword := h.word.word (h.mem_symbols_iff.mpr ((h.word_ne_nil_iff htwo c).mp hc))
  refine ⟨h.represents.follow_word hword, fun front hfront hproper => ?_,
    fun payload => h.walk_start hc⟩
  obtain ⟨rest, hrest⟩ := hfront
  refine h.represents.isInner_follow (hrest ▸ hword) fun hnil => hproper ?_
  rw [← hrest, hnil, List.append_nil]

/-- The header of the text `aab`. -/
def aabHeader : ByteTable UInt8 :=
  ByteTable.set (ByteTable.set (Vector.replicate 256 0) 97 255) 98 127

theorem generateMapping_prefixCode_aab :
    ∃ root mapping, buildTree ⟨.scanning _, fun _ _ => 0, fun _ => true⟩ aabHeader = .ok root ∧
      generateMapping root [] (Vector.replicate 256 []) = .ok mapping ∧
      kraftSum mapping = 1 ∧ ∀ c, mapping.get c ≠ [] →
        ∃ value, root.follow (mapping.get c) = .mk value c .nullptr .nullptr := by
  have htwo : ∃ c d, c ≠ d ∧ aabHeader.get c ≠ 0 ∧ aabHeader.get d ≠ 0 :=
    ⟨97, 98, by decide, by simp [aabHeader, ByteTable.get_set], by simp [aabHeader, ByteTable.get_set]⟩
  obtain ⟨root, mapping, hroot, hmapping, -, -, hkraft, hwords⟩ :=
    generateMapping_prefixCode _ aabHeader htwo
  exact ⟨root, mapping, hroot, hmapping, hkraft, fun c hc => (hwords c hc).1⟩

end clockUtils.compression
