import ClockUtils.Compression.HuffmanFixed
import ClockUtils.Compression.RoundTrip

open BitPack

namespace clockUtils.compression

namespace HuffmanFixed

/-- The states of the static table `mappings` in a running program: 256 empty
words at first, then whatever a call of `compress` leaves. A call of
`decompress` does not touch the table. -/
inductive Reachable (rt : Runtime) : ByteTable (List Bool) → Prop where
  | initial : Reachable rt (Vector.replicate 256 [])
  | compress {mappings mappings' : ByteTable (List Bool)} {uncompressed out out' : Bytes}
      {error : ClockError} (h : Reachable rt mappings)
      (hrun : compress rt mappings uncompressed out = .ok (mappings', error, out')) :
      Reachable rt mappings'

theorem preVec_ne_zero (c : UInt8) : preVec.get c ≠ 0 := by
  have hall : ∀ f ∈ preVec.toList, f ≠ 0 := by decide +kernel
  exact hall _ (Vector.mem_toList_iff.mpr (Vector.getElem_mem c.toNat_lt))

/-- Every byte is a leaf of the fixed tree. -/
theorem root_ok (rt : Runtime) :
    ∃ node t, root rt = .ok node ∧ node.Represents t ∧ t.symbols.Nodup ∧
      t.symbols.length ≤ 256 ∧ ∀ c, c ∈ t.symbols := by
  have hused : ∀ c, c ∈ usedBytes preVec := fun c => mem_usedBytes.mpr (preVec_ne_zero c)
  obtain ⟨node, t, hnode, hrep, hperm⟩ := buildTree_represents rt (List.ne_nil_of_mem (hused 0))
  exact ⟨node, t, hnode, hrep, hperm.nodup_iff.mpr (nodup_usedBytes preVec),
    hperm.length_eq ▸ length_usedBytes_le preVec, fun c => hperm.mem_iff.mpr (hused c)⟩

/-- One table serves every call. The first call that converts a text fills the
entry for byte 0 with a nonempty word, so that no later call fills it again. -/
theorem exists_table (rt : Runtime) :
    ∃ node t table, root rt = .ok node ∧ node.Represents t ∧ CodeTableOf t table ∧
      t.symbols.length ≤ 256 ∧ (∀ c, c ∈ t.symbols) ∧
      ∀ mappings, Reachable rt mappings → fillMappings rt mappings = .ok table := by
  obtain ⟨node, t, hnode, hrep, hnodup, hcard, hall⟩ := root_ok rt
  obtain ⟨table, htable, hwords⟩ := codeTable_ok hrep hnodup
  have hzero : (table.get 0).length ≠ 0 := by
    have hne := (hwords.word (hall 0)).ne_nil (hall 1) (by decide)
    rwa [Ne, List.length_eq_zero_iff]
  have hinitial : fillMappings rt (Vector.replicate 256 []) = .ok table := by
    rw [fillMappings, ByteTable.get_replicate, List.length_nil, if_pos rfl, hnode]
    exact htable
  have hfilled : fillMappings rt table = .ok table := by
    rw [fillMappings, if_neg hzero]
  refine ⟨node, t, table, hnode, hrep, hwords, hcard, hall, fun mappings hmappings => ?_⟩
  induction hmappings with
  | initial => exact hinitial
  | @compress mappings mappings' uncompressed out out' error _ hrun ih =>
    rw [HuffmanFixed.compress] at hrun
    split at hrun
    · obtain ⟨rfl, -⟩ : mappings = mappings' ∧ _ := by simpa using hrun
      exact ih
    · split at hrun
      · simp only [convert, ih, Run.ok_bind] at hrun
        obtain ⟨⟨mappings'', result⟩, hconvert, hrun⟩ := Run.bind_eq_ok_iff.mp hrun
        obtain ⟨result', -, hconvert⟩ := Run.bind_eq_ok_iff.mp hconvert
        obtain ⟨rfl, rfl⟩ : table = mappings'' ∧ result' = result := by simpa using hconvert
        obtain ⟨rfl, -⟩ : table = mappings' ∧ _ := by simpa using hrun
        exact hfilled
      · obtain ⟨rfl, -⟩ : mappings = mappings' ∧ _ := by simpa using hrun
        exact ih

/-- In every state of the table, `compress` writes the length field and then
the same packed code words. -/
theorem compress_ok {rt : Runtime} {mappings table : ByteTable (List Bool)}
    (hfill : fillMappings rt mappings = .ok table) (halloc : rt.alloc 4 = true) {s : Bytes}
    (hlen : s.length ≤ 2 ^ 32 - 1) (out : Bytes) :
    compress rt mappings s out =
      (writeText table s (4 * 8) (lengthBytes (UInt32.ofNat s.length))).map
        fun c => (table, .SUCCESS, c) := by
  rw [compress, if_neg (by omega), if_pos halloc]
  simp only [convert, hfill, Run.ok_bind]
  cases writeText table s (4 * 8) (lengthBytes (UInt32.ofNat s.length)) with
  | error e => rfl
  | ok c => rfl

/-- What `compress` writes: the length field and a payload that begins with the
code words and has one byte more than they fill, or none for the empty text. -/
theorem compress_payload {rt : Runtime} (table : ByteTable (List Bool)) (halloc : rt.alloc 4 = true)
    {s : Bytes} (hlen : s.length ≤ 2 ^ 32 - 1) :
    ∃ payload, (∀ mappings out, fillMappings rt mappings = .ok table → compress rt mappings s out =
        .ok (table, .SUCCESS, lengthBytes (UInt32.ofNat s.length) ++ payload)) ∧
      encode table s <+: bits payload ∧
      payload.length = if s = [] then 0 else (encode table s).length / 8 + 1 := by
  by_cases hempty : s = []
  · subst hempty
    refine ⟨[], fun mappings out hfill => ?_, List.nil_prefix, rfl⟩
    rw [compress_ok hfill halloc hlen, writeText, List.append_nil]
    rfl
  · obtain ⟨payload, hwrite, hbits, hsize⟩ :=
      writeText_payload table hempty (lengthBytes (UInt32.ofNat s.length))
    rw [length_lengthBytes, Nat.mul_comm] at hwrite
    refine ⟨payload, fun mappings out hfill => ?_, hbits, by rw [if_neg hempty, hsize]⟩
    rw [compress_ok hfill halloc hlen, hwrite]
    rfl

/-- What a call pair does to a text: in every state of the table `compress`
succeeds with one and the same output, and `decompress` gives the text back. -/
def RoundTrips (rt : Runtime) (s : Bytes) : Prop :=
  ∃ c, ∀ mappings, Reachable rt mappings → ∀ out out' : Bytes,
    (∃ mappings', compress rt mappings s out = .ok (mappings', .SUCCESS, c)) ∧
      decompress rt c out' = .ok (.SUCCESS, s)

/-- The empty text is compressed to the bare length field, and an empty payload
has no last byte for the decoder to end in. -/
theorem not_roundTrips_nil (rt : Runtime) (halloc : rt.alloc 4 = true) : ¬ RoundTrips rt [] := by
  rintro ⟨c, hc⟩
  obtain ⟨node, t, table, hnode, hrep, -, -, -, hfill⟩ := exists_table rt
  obtain ⟨⟨mappings', hcompress⟩, hdecompress⟩ := hc _ .initial [] []
  rw [compress_ok (hfill _ .initial) halloc (by simp)] at hcompress
  obtain ⟨-, rfl⟩ : table = mappings' ∧ lengthBytes 0 = c := by
    simpa [writeText, Except.map] using hcompress
  rw [decompress, if_neg (by rw [length_lengthBytes]; omega), hnode, Run.ok_bind] at hdecompress
  have hlong : 0 + 4 ≤ (lengthBytes 0).length := by rw [length_lengthBytes]
  have hempty : (lengthBytes 0).drop (0 + 4) = [] :=
    List.drop_eq_nil_of_le (by rw [length_lengthBytes])
  by_cases hfits : rt.alloc (bigEndian (((lengthBytes 0).drop 0).take 4)) = true
  · have haccept := ((decodeRest_spec hrep hlong (by rw [hempty]; decide) hfits []).1 []).mp
      hdecompress
    exact haccept.ne_nil hempty
  · obtain ⟨len, hread, hvalue⟩ := readLength_ok hlong
    rw [decodeRest, hread, Run.ok_bind, hvalue, if_neg hfits] at hdecompress
    cases hdecompress

/-- The round trip of the fixed format, in whatever state earlier calls left the table: it
succeeds exactly for the texts that are not empty. The empty text is compressed to a length
without a payload, which `decompress` does not accept. -/
theorem roundTrips_iff (rt : Runtime) (s : Bytes) (hlen : s.length ≤ 2 ^ 32 - 1)
    (hpacked : ∀ mappings' c,
      compress rt (Vector.replicate 256 []) s [] = .ok (mappings', .SUCCESS, c) →
        (c.drop 4).length < 2 ^ 32)
    (hfront : rt.alloc 4 = true) (halloc : rt.alloc s.length = true) :
    RoundTrips rt s ↔ s ≠ [] := by
  constructor
  · rintro hround rfl
    exact not_roundTrips_nil rt hfront hround
  · intro hne
    obtain ⟨node, t, table, hnode, hrep, htable, -, hall, hfill⟩ := exists_table rt
    obtain ⟨payload, hcompress, hbits, hsize⟩ := compress_payload table hfront hlen
    rw [if_neg hne] at hsize
    have hpayload : payload.length < 2 ^ 32 := by
      have hbound := hpacked _ _ (hcompress _ [] (hfill _ .initial))
      rwa [List.drop_left' (length_lengthBytes _)] at hbound
    have hdecode := decodeRest_words hrep htable hlen (fun c _ => hall c) hbits hsize hpayload halloc []
    refine ⟨_, fun mappings hmappings out out' => ⟨⟨table, hcompress _ out (hfill _ hmappings)⟩, ?_⟩⟩
    have hlong : ¬ (lengthBytes (UInt32.ofNat s.length) ++ payload).length < 4 := by
      rw [List.length_append, length_lengthBytes]
      omega
    rw [decompress, if_neg hlong, hnode, Run.ok_bind]
    exact hdecode out'

/-- A byte of the text takes at most 32 bytes of the payload. -/
theorem length_payload_le (rt : Runtime) {s : Bytes} (hlen : s.length ≤ 2 ^ 32 - 1)
    (hfront : rt.alloc 4 = true) {mappings mappings' : ByteTable (List Bool)}
    (hmappings : Reachable rt mappings) {out c : Bytes}
    (hc : compress rt mappings s out = .ok (mappings', .SUCCESS, c)) :
    (c.drop 4).length ≤ 32 * s.length + 1 := by
  obtain ⟨node, t, table, -, -, htable, hcard, hall, hfill⟩ := exists_table rt
  have hencode := htable.length_encode_le (n := 255) (by omega) (fun c (_ : c ∈ s) => hall c)
  obtain ⟨payload, hcompress, -, hsize⟩ := compress_payload table hfront hlen
  rw [hcompress _ _ (hfill _ hmappings)] at hc
  obtain ⟨-, rfl⟩ : table = mappings' ∧ _ = c := by simpa using hc
  rw [List.drop_left' (length_lengthBytes _), hsize]
  split <;> omega

theorem roundTrips_hi : RoundTrips HuffmanGeneric.exactRuntime [104, 105] := by
  refine (roundTrips_iff _ [104, 105] (by decide) (fun mappings' c hc => ?_) rfl rfl).mpr (by simp)
  have hle := length_payload_le _ (by decide) rfl .initial hc
  exact lt_of_le_of_lt hle (by decide)

/-- The empty text is within the limits of the format, and is not restored. -/
theorem not_roundTrips_empty :
    ([] : Bytes).length ≤ 2 ^ 32 - 1 ∧
      (∀ mappings' c,
        compress HuffmanGeneric.exactRuntime (Vector.replicate 256 []) [] [] =
          .ok (mappings', .SUCCESS, c) → (c.drop 4).length < 2 ^ 32) ∧
      ¬ RoundTrips HuffmanGeneric.exactRuntime [] := by
  refine ⟨by decide, fun mappings' c hc => ?_, not_roundTrips_nil _ rfl⟩
  have hle := length_payload_le _ (by decide) rfl .initial hc
  exact lt_of_le_of_lt hle (by decide)

end HuffmanFixed

end clockUtils.compression
