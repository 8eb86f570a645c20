import ClockUtils.Compression.Acceptance

namespace clockUtils.compression

/-- With no byte to push, `buildTree` takes the top of an empty queue. -/
theorem buildTree_unused (rt : Runtime) {header : ByteTable UInt8} (hunused : usedBytes header = []) :
    buildTree rt header = .error .topOfEmpty := by
  have hcontents : rt.queue.contents (pushLeaves rt header) = 0 := by
    rw [contents_pushLeaves, hunused]
    rfl
  have hsize : rt.queue.size (pushLeaves rt header) = 0 := by
    rw [PriorityQueue.size, hcontents, Multiset.card_zero]
  have htop : rt.queue.top (pushLeaves rt header) = none := by
    cases htop : rt.queue.top (pushLeaves rt header) with
    | none => rfl
    | some node =>
      have hpop := rt.queue.size_pop htop
      omega
  rw [buildTree, hsize, combineLoop, Run.ok_bind, htop]

/-- Walking down a tree whose inner nodes have both children meets no null
pointer, wherever the cursor stands. -/
theorem walk_defined (compressed : Bytes) {node : Node} {t : CodeTree UInt8}
    (hnode : node.Represents t) (cursor : Cursor) : ∃ found, walk compressed node cursor = .ok found := by
  induction hnode generalizing cursor with
  | leaf value c => exact ⟨some (c, cursor), rfl⟩
  | @branch left right l r value c hleft hright ihl ihr =>
    obtain ⟨_, _, _, _, rfl⟩ := hleft.exists_mk
    rw [walk_inner compressed rfl]
    split
    · exact ⟨none, rfl⟩
    · split
      · exact ihl _
      · exact ihr _

/-- The outer loop stores as many bytes as the result has room for. -/
theorem getCharLoop_defined (compressed : Bytes) {root : Node} {t : CodeTree UInt8}
    (hroot : root.Represents t) {rounds i : Nat} (cursor : Cursor) {result : Bytes}
    (hresult : result.length = i + rounds) :
    ∃ found, getCharLoop compressed root rounds i cursor result = .ok found := by
  induction rounds generalizing i cursor result with
  | zero => exact ⟨_, rfl⟩
  | succ rounds ih =>
    obtain ⟨found, hfound⟩ := walk_defined compressed hroot cursor
    rw [getCharLoop, hfound, Run.ok_bind]
    cases found with
    | none => exact ⟨_, rfl⟩
    | some step =>
      have hset : (result.set i step.1).length = i + 1 + rounds := by
        rw [List.length_set]
        omega
      simp only [if_pos (show i < result.length by omega)]
      exact ih step.2 hset

/-- The codes with which `decompress` may end. -/
def DecodeCode (error : ClockError) : Prop :=
  error = .SUCCESS ∨ error = .INVALID_ARGUMENT ∨ error = .OUT_OF_MEMORY

theorem getChar_defined (compressed : Bytes) {root : Node} {t : CodeTree UInt8}
    (hroot : root.Represents t) {length : UInt32} {result : Bytes}
    (hresult : result.length = length.toNat) :
    ∃ error out, getChar compressed root length result = .ok (error, out) ∧ DecodeCode error := by
  have hroom : result.length = 0 + length.toNat := by omega
  obtain ⟨⟨cursor, out⟩, hloop⟩ := getCharLoop_defined compressed hroot (.start compressed) hroom
  rw [getChar, hloop, Run.ok_bind]
  cases cursor with
  | none => exact ⟨_, out, rfl, .inr (.inl rfl)⟩
  | some cursor =>
    simp only
    split
    · exact ⟨_, out, rfl, .inl rfl⟩
    · exact ⟨_, out, rfl, .inr (.inl rfl)⟩

theorem decodeRest_defined (rt : Runtime) {root : Node} {t : CodeTree UInt8}
    (hroot : root.Represents t) {compressed : Bytes} {start : Nat}
    (hlen : start + 4 ≤ compressed.length) (decompressed : Bytes) :
    ∃ error out, decodeRest rt root compressed start decompressed = .ok (error, out) ∧
      DecodeCode error := by
  obtain ⟨len, hread, -⟩ := readLength_ok hlen
  rw [decodeRest, hread, Run.ok_bind]
  split
  · exact getChar_defined _ hroot List.length_replicate
  · exact ⟨_, decompressed, rfl, .inr (.inr rfl)⟩

namespace HuffmanGeneric

/-- `compress` divides by zero on the empty text and is defined on every other. -/
theorem compress_defined_iff (rt : Runtime) (s out : Bytes) :
    (∃ result, compress rt s out = .ok result) ↔ s ≠ [] := by
  constructor
  · rintro ⟨result, hresult⟩ rfl
    cases hresult
  · intro hne
    by_cases hlen : s.length ≤ 2 ^ 32 - 1
    · obtain ⟨header, root, t, mapping, payload, -, -, -, -, -, -, -, hcompress⟩ :=
        compress_ok rt hne hlen out
      exact ⟨_, hcompress⟩
    · exact ⟨_, by rw [compress, if_pos (by omega)]⟩

/-- `decompress` is defined on short inputs and on those whose header names a
byte: with no byte there is no tree. -/
theorem decompress_defined_iff (rt : Runtime) (c out : Bytes) :
    (∃ error s, decompress rt c out = .ok (error, s) ∧ DecodeCode error) ↔
      c.length < 256 + 4 ∨ ∃ b ∈ c.take 256, b ≠ 0 := by
  by_cases hshort : c.length < 256 + 4
  · rw [decompress, if_pos hshort]
    exact ⟨fun _ => .inl hshort, fun _ => ⟨_, out, rfl, .inr (.inl rfl)⟩⟩
  · have hread : readHeader c = .ok (Vector.ofFn fun i : Fin 256 => c.getD i 0) := by
      rw [readHeader, if_pos (by omega)]
    rw [decompress, if_neg hshort, hread, Run.ok_bind, or_iff_right hshort, ← usedBytes_readHeader hread]
    constructor
    · rintro ⟨error, s, hrun, -⟩ hunused
      rw [buildTree_unused rt hunused] at hrun
      cases hrun
    · intro hused
      obtain ⟨root, t, hroot, hrep, -⟩ := buildTree_represents rt hused
      rw [hroot, Run.ok_bind]
      exact decodeRest_defined rt hrep (by omega) out

/-- The generic format over all inputs: no call of `compress` reaches an
undefined step unless the text is empty, and no call of `decompress` does, so
that it ends with one of its three codes, unless the header names no byte. -/
theorem defined_iff (rt : Runtime) :
    (∀ s out : Bytes, (∃ result, compress rt s out = .ok result) ↔ s ≠ []) ∧
      ∀ c out : Bytes, (∃ error s, decompress rt c out = .ok (error, s) ∧ DecodeCode error) ↔
        c.length < 256 + 4 ∨ ∃ b ∈ c.take 256, b ≠ 0 :=
  ⟨compress_defined_iff rt, decompress_defined_iff rt⟩

/-- The empty text and an all-zero header with a zero length field. -/
theorem undefined_on_empty :
    compress exactRuntime [] [] = .error .divisionByZero ∧
      decompress exactRuntime (List.replicate 260 0) [] = .error .topOfEmpty := by
  refine ⟨rfl, ?_⟩
  have hlong : ¬ (List.replicate 260 (0 : UInt8)).length < 256 + 4 := by
    rw [List.length_replicate]
    decide
  have hread : readHeader (List.replicate 260 0) =
      .ok (Vector.ofFn fun i : Fin 256 => (List.replicate 260 (0 : UInt8)).getD i 0) := by
    rw [readHeader, if_pos (by omega)]
  have hunused := (usedBytes_readHeader hread).not.mpr (by
    rintro ⟨b, hb, hne⟩
    exact hne (List.eq_of_mem_replicate (List.mem_of_mem_take hb)))
  rw [decompress, if_neg hlong, hread, Run.ok_bind, buildTree_unused _ (not_not.mp hunused)]
  rfl

end HuffmanGeneric

end clockUtils.compression
