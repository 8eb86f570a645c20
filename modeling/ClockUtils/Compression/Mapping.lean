import ClockUtils.Compression.BuildTree

namespace clockUtils.compression

/-- `generateMapping` writes the code word of every leaf, behind the bits that
lead to the node, and touches no other entry. -/
theorem generateMapping_ok {node : Node} {t : CodeTree UInt8} (h : node.Represents t)
    (hnodup : t.symbols.Nodup) (bitSeq : List Bool) (mapping : ByteTable (List Bool)) :
    ∃ mapping', generateMapping node bitSeq mapping = .ok mapping' ∧
      (∀ w c, t.Word w c → mapping'.get c = bitSeq ++ w) ∧
      (∀ c, c ∉ t.symbols → mapping'.get c = mapping.get c) := by
  induction h generalizing bitSeq mapping with
  | leaf value c =>
    refine ⟨mapping.set c bitSeq, by rw [generateMapping], ?_, ?_⟩
    · rintro w d hw
      cases hw
      simp [ByteTable.get_set]
    · intro d hd
      have hne : c ≠ d := by
        rintro rfl
        simp [CodeTree.symbols] at hd
      simp [ByteTable.get_set, hne]
  | @branch left right l r value c hleft hright ihl ihr =>
    rw [CodeTree.symbols, List.nodup_append'] at hnodup
    obtain ⟨hnodupL, hnodupR, hdisjoint⟩ := hnodup
    obtain ⟨first, hfirst, hfirstWord, hfirstKeep⟩ := ihl hnodupL (bitSeq ++ [true]) mapping
    obtain ⟨second, hsecond, hsecondWord, hsecondKeep⟩ := ihr hnodupR (bitSeq ++ [false]) first
    refine ⟨second, ?_, ?_, ?_⟩
    · obtain ⟨_, _, _, _, rfl⟩ := hleft.exists_mk
      rw [generateMapping, hfirst]
      exact hsecond
    · rintro w d hw
      cases hw with
      | left hw =>
        rw [hsecondKeep d (hdisjoint hw.mem_symbols), hfirstWord _ d hw]
        simp
      | right hw =>
        rw [hsecondWord _ d hw]
        simp
    · intro d hd
      rw [CodeTree.symbols, List.mem_append, not_or] at hd
      rw [hsecondKeep d hd.2, hfirstKeep d hd.1]

/-- The table that both encoders fill: `generateMapping` from the root with no
bits read yet, on a table of empty words. -/
def codeTable (root : Node) : Run (ByteTable (List Bool)) :=
  generateMapping root [] (Vector.replicate 256 [])

/-- A table that holds the code word of every leaf of `t`. -/
def CodeTableOf (t : CodeTree UInt8) (mapping : ByteTable (List Bool)) : Prop :=
  ∀ w c, t.Word w c → mapping.get c = w

theorem codeTable_ok {root : Node} {t : CodeTree UInt8} (h : root.Represents t)
    (hnodup : t.symbols.Nodup) :
    ∃ mapping, codeTable root = .ok mapping ∧ CodeTableOf t mapping := by
  obtain ⟨mapping, hmapping, hword, -⟩ := generateMapping_ok h hnodup [] (Vector.replicate 256 [])
  exact ⟨mapping, hmapping, fun w c hw => by simpa using hword w c hw⟩

theorem CodeTableOf.word {t : CodeTree UInt8} {mapping : ByteTable (List Bool)}
    (h : CodeTableOf t mapping) {c : UInt8} (hc : c ∈ t.symbols) : t.Word (mapping.get c) c := by
  obtain ⟨w, hw⟩ := CodeTree.exists_word_of_mem_symbols hc
  rwa [h w c hw]

/-- The concatenated code words of a text. -/
def encode (mapping : ByteTable (List Bool)) (text : Bytes) : List Bool :=
  text.flatMap mapping.get

theorem length_encode_le_of_forall {mapping : ByteTable (List Bool)} {n : Nat} {text : Bytes}
    (h : ∀ c ∈ text, (mapping.get c).length ≤ n) :
    (encode mapping text).length ≤ n * text.length := by
  induction text with
  | nil => simp [encode]
  | cons c text ih =>
    rw [List.forall_mem_cons] at h
    have hword := h.1
    have htail := ih h.2
    simp only [encode, List.flatMap_cons, List.length_append, List.length_cons] at htail ⊢
    rw [Nat.mul_add]
    omega

/-- No byte takes more bits than there are other leaves. -/
theorem CodeTableOf.length_encode_le {t : CodeTree UInt8} {mapping : ByteTable (List Bool)}
    (h : CodeTableOf t mapping) {n : Nat} (hn : t.symbols.length ≤ n + 1) {text : Bytes}
    (htext : ∀ c ∈ text, c ∈ t.symbols) : (encode mapping text).length ≤ n * text.length := by
  apply length_encode_le_of_forall
  intro c hc
  have hword := (h.word (htext c hc)).length_lt
  omega

/-- Splitting a bit string into the code words of `text` is the same as
having only leaves in `text` and the concatenation of their table entries. -/
theorem CodeTableOf.forall₂_word_iff {t : CodeTree UInt8} {mapping : ByteTable (List Bool)}
    (h : CodeTableOf t mapping) {ws : List (List Bool)} {text : Bytes} :
    List.Forall₂ t.Word ws text ↔ (∀ c ∈ text, c ∈ t.symbols) ∧ ws = text.map mapping.get := by
  induction text generalizing ws with
  | nil => simp
  | cons c text ih =>
    constructor
    · intro hall
      cases hall with
      | cons hw hws =>
        obtain ⟨hsymbols, rfl⟩ := ih.mp hws
        rw [List.map_cons, h _ c hw]
        exact ⟨List.forall_mem_cons.mpr ⟨hw.mem_symbols, hsymbols⟩, rfl⟩
    · rintro ⟨hsymbols, rfl⟩
      rw [List.forall_mem_cons] at hsymbols
      exact .cons (h.word hsymbols.1) (ih.mpr ⟨hsymbols.2, rfl⟩)

end clockUtils.compression
