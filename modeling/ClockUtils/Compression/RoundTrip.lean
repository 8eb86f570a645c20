import ClockUtils.Compression.Convert
import ClockUtils.Compression.GetChar

open BitPack

namespace clockUtils.compression

/-- A big-endian number. -/
def bigEndian (bytes : Bytes) : Nat :=
  bytes.foldl (fun n b => 256 * n + b.toNat) 0

theorem length_lengthBytes (len : UInt32) : (lengthBytes len).length = 4 := by
  simp [lengthBytes]

theorem bigEndian_lengthBytes (len : UInt32) : bigEndian (lengthBytes len) = len.toNat := by
  have hlen := len.toNat_lt
  simp only [bigEndian, lengthBytes, List.range_succ, List.range_zero, List.nil_append,
    List.map_append, List.map_cons, List.map_nil, List.foldl_append, List.foldl_cons,
    List.foldl_nil, UInt32.toNat_toUInt8, UInt32.toNat_and, UInt32.toNat_shiftRight]
  have hmask : ∀ n : Nat, n &&& UInt32.toNat 255 = n % 256 :=
    fun n => Nat.and_two_pow_sub_one_eq_mod n 8
  simp only [hmask, Nat.shiftRight_eq_div_pow, UInt32.toNat_ofNat', Nat.reduceSub, Nat.reduceMul,
    Nat.reducePow, Nat.reduceMod]
  omega

/-- Reading four bytes as the decoders do gives their big-endian value: the
32-bit arithmetic does not wrap on four bytes. -/
theorem readLength_ok {compressed : Bytes} {start : Nat} (hlen : start + 4 ≤ compressed.length) :
    ∃ len, readLength compressed start = .ok len ∧
      len.toNat = bigEndian ((compressed.drop start).take 4) := by
  refine ⟨_, by rw [readLength, if_pos hlen], ?_⟩
  have hfour : ((compressed.drop start).take 4).length = 4 := by
    simp only [List.length_take, List.length_drop]
    omega
  generalize (compressed.drop start).take 4 = field at hfour
  match field, hfour with
  | [a, b, c, d], _ =>
    have ha := a.toNat_lt
    have hb := b.toNat_lt
    have hc := c.toNat_lt
    have hd := d.toNat_lt
    simp only [bigEndian, List.foldl_cons, List.foldl_nil, UInt32.toNat_add, UInt32.toNat_mul,
      UInt8.toNat_toUInt32, UInt32.toNat_ofNat]
    omega

/-- Behind the tree, both decoders accept exactly the payloads of the length
the length field announces. -/
theorem decodeRest_spec {rt : Runtime} {root : Node} {t : CodeTree UInt8} (hroot : root.Represents t)
    {compressed : Bytes} {start : Nat} (hlen : start + 4 ≤ compressed.length)
    (hpayload : (compressed.drop (start + 4)).length < 2 ^ 32)
    (halloc : rt.alloc (bigEndian ((compressed.drop start).take 4)) = true) (out : Bytes) :
    (∀ s, decodeRest rt root compressed start out = .ok (.SUCCESS, s) ↔
        Accepts t (bigEndian ((compressed.drop start).take 4)) (compressed.drop (start + 4)) s) ∧
      ((∀ s, ¬ Accepts t (bigEndian ((compressed.drop start).take 4))
          (compressed.drop (start + 4)) s) →
        ∃ s, decodeRest rt root compressed start out = .ok (.INVALID_ARGUMENT, s)) := by
  obtain ⟨len, hread, hvalue⟩ := readLength_ok hlen
  have hrun : decodeRest rt root compressed start out =
      getChar (compressed.drop (start + 4)) root len (List.replicate len.toNat 0) := by
    rw [decodeRest, hread, Run.ok_bind, hvalue, if_pos halloc]
  rw [hrun, ← hvalue]
  exact getChar_spec hpayload hroot List.length_replicate

/-- Behind any front, the length field of `s` and a payload with its code words
decode to `s`. -/
theorem decodeRest_words {rt : Runtime} {root : Node} {t : CodeTree UInt8}
    (hroot : root.Represents t) {mapping : ByteTable (List Bool)} (htable : CodeTableOf t mapping)
    {s payload : Bytes} (hlen : s.length ≤ 2 ^ 32 - 1) (hsymbols : ∀ c ∈ s, c ∈ t.symbols)
    (hbits : encode mapping s <+: bits payload)
    (hsize : payload.length = (encode mapping s).length / 8 + 1) (hpayload : payload.length < 2 ^ 32)
    (halloc : rt.alloc s.length = true) (front out : Bytes) :
    decodeRest rt root (front ++ lengthBytes (UInt32.ofNat s.length) ++ payload) front.length out =
      .ok (.SUCCESS, s) := by
  generalize hcompressed :
    front ++ lengthBytes (UInt32.ofNat s.length) ++ payload = compressed
  have hfront : (front ++ lengthBytes (UInt32.ofNat s.length)).length = front.length + 4 := by
    rw [List.length_append, length_lengthBytes]
  have hdrop : compressed.drop (front.length + 4) = payload := by
    rw [← hcompressed, ← hfront, List.drop_left]
  have hfield : bigEndian ((compressed.drop front.length).take 4) = s.length := by
    rw [← hcompressed, List.append_assoc, List.drop_left,
      List.take_left' (length_lengthBytes _), bigEndian_lengthBytes,
      UInt32.toNat_ofNat_of_lt' (by rw [UInt32.size]; omega)]
  have hlong : front.length + 4 ≤ compressed.length := by
    rw [← hcompressed, List.length_append, hfront]
    omega
  have hfits : rt.alloc (bigEndian ((compressed.drop front.length).take 4)) = true := by
    rw [hfield, halloc]
  have hspec := (decodeRest_spec hroot hlong (by rwa [hdrop]) hfits out).1 s
  rw [hdrop, hfield] at hspec
  rw [hspec]
  exact ⟨rfl, s.map mapping.get, htable.forall₂_word_iff.mpr ⟨hsymbols, rfl⟩, hbits, hsize⟩

namespace HuffmanGeneric

/-- The counting loop counts: as long as no 32-bit count can wrap, every entry
is the number of occurrences and none exceeds the recorded maximum. -/
theorem foldl_countByte {text : Bytes} (hlen : text.length < 2 ^ 32) (c : UInt8) :
    ((text.foldl countByte (Vector.replicate 256 0, 0)).1.get c).toNat = text.count c ∧
      (text.foldl countByte (Vector.replicate 256 0, 0)).1.get c ≤
        (text.foldl countByte (Vector.replicate 256 0, 0)).2 := by
  induction text using List.reverseRecOn generalizing c with
  | nil => simp [ByteTable.get_replicate]
  | append_singleton text d ih =>
    rw [List.length_append, List.length_singleton] at hlen
    have hcount := ih (by omega)
    rw [List.foldl_append, List.foldl_cons, List.foldl_nil]
    generalize text.foldl countByte (Vector.replicate 256 0, 0) = state at hcount
    have hbound : text.count d ≤ text.length := List.count_le_length
    have hnext : (state.1.get d + 1).toNat = text.count d + 1 := by
      rw [UInt32.toNat_add, (hcount d).1, UInt32.toNat_one]
      omega
    simp only [countByte, ByteTable.get_set, if_true]
    refine ⟨?_, ?_⟩
    · rw [List.count_append, List.count_singleton]
      split
      · next hsame =>
        subst hsame
        simp [hnext]
      · next hne => simp [hne, (hcount c).1]
    · have hc := (hcount c).2
      rw [UInt32.le_iff_toNat_le] at hc ⊢
      simp only [gt_iff_lt, UInt32.lt_iff_toNat_lt]
      split <;> split <;> omega

/-- Whatever the scaling does, a nonempty text gets a header in which each of
its bytes has a nonzero entry. -/
theorem calcFrequencies_ok (rt : Runtime) {text : Bytes} (hne : text ≠ [])
    (hlen : text.length < 2 ^ 32) :
    ∃ header, calcFrequencies rt text = .ok header ∧ ∀ c ∈ text, header.get c ≠ 0 := by
  have hcount := foldl_countByte hlen
  rw [calcFrequencies]
  generalize text.foldl countByte (Vector.replicate 256 0, 0) = state at hcount
  obtain ⟨header, max⟩ := state
  have hpos : ∀ c ∈ text, 0 < header.get c := by
    intro c hc
    rw [UInt32.lt_iff_toNat_lt, (hcount c).1]
    exact List.count_pos_iff.mpr hc
  have hmax : max ≠ 0 := by
    obtain ⟨c, hc⟩ := List.exists_mem_of_ne_nil text hne
    rintro rfl
    have hle := (hcount c).2
    have hlt := hpos c hc
    rw [UInt32.le_iff_toNat_le] at hle
    rw [UInt32.lt_iff_toNat_lt] at hlt
    simp only [UInt32.toNat_zero] at hle hlt
    omega
  refine ⟨header.map (scaleCount rt max), if_neg hmax, fun c hc => ?_⟩
  have hmap : ByteTable.get (header.map (scaleCount rt max)) c =
      scaleCount rt max (header.get c) := by
    simp [ByteTable.get]
  rw [hmap, scaleCount]
  split
  · decide
  · next hnot => exact fun hzero => hnot ⟨hpos c hc, hzero⟩

theorem readHeader_append (header : ByteTable UInt8) (rest : Bytes) :
    readHeader (header.toList ++ rest) = .ok header := by
  have hsame : (Vector.ofFn fun i : Fin 256 => (header.toList ++ rest).getD i 0) = header := by
    apply Vector.ext
    intro i hi
    rw [Vector.getElem_ofFn, List.getD_append _ _ _ _ (by simpa using hi),
      List.getD_eq_getElem _ _ (by simpa using hi), Vector.getElem_toList]
  rw [readHeader, if_pos (by simp), hsame]

/-- The parts of a compressed text: header, length field and payload. -/
theorem compress_ok (rt : Runtime) {s : Bytes} (hne : s ≠ []) (hlen : s.length ≤ 2 ^ 32 - 1)
    (out : Bytes) :
    ∃ header root t mapping payload, buildTree rt header = .ok root ∧ root.Represents t ∧
      CodeTableOf t mapping ∧ t.symbols.length ≤ 256 ∧ (∀ c ∈ s, c ∈ t.symbols) ∧
      encode mapping s <+: bits payload ∧
      payload.length = (encode mapping s).length / 8 + 1 ∧
      compress rt s out =
        .ok (.SUCCESS, header.toList ++ lengthBytes (UInt32.ofNat s.length) ++ payload) := by
  obtain ⟨header, hheader, hused⟩ := calcFrequencies_ok rt hne (by omega)
  have hsome : usedBytes header ≠ [] := by
    obtain ⟨c, hc⟩ := List.exists_mem_of_ne_nil s hne
    exact List.ne_nil_of_mem (mem_usedBytes.mpr (hused c hc))
  obtain ⟨root, t, hroot, hrep, hperm⟩ := buildTree_represents rt hsome
  obtain ⟨mapping, hmapping, htable⟩ :=
    codeTable_ok hrep (hperm.nodup_iff.mpr (nodup_usedBytes header))
  obtain ⟨payload, hwrite, hbits, hsize⟩ := writeText_payload mapping hne
    (header.toList ++ lengthBytes (UInt32.ofNat s.length))
  have hfront : (256 + 4) * 8 =
      8 * (header.toList ++ lengthBytes (UInt32.ofNat s.length)).length := by
    simp [length_lengthBytes]
  refine ⟨header, root, t, mapping, payload, hroot, hrep, htable, ?_, ?_, hbits, hsize, ?_⟩
  · exact hperm.length_eq ▸ length_usedBytes_le header
  · intro c hc
    exact hperm.mem_iff.mpr (mem_usedBytes.mpr (hused c hc))
  · rw [codeTable] at hmapping
    rw [compress, if_neg (by omega), hheader, Run.ok_bind, hroot, Run.ok_bind, convert, hmapping,
      Run.ok_bind, hfront, hwrite]
    rfl

/-- Compressing a nonempty text and decompressing the result gives the text
back, for every scaling of the counts and every order in which the priority
queue returns nodes of equal weight, as long as the packed code stays below
the 32-bit positions of the decoder. -/
theorem decompress_compress (rt : Runtime) (s out out' : Bytes) (hne : s ≠ [])
    (hlen : s.length ≤ 2 ^ 32 - 1)
    (hpacked : ∀ c, compress rt s out = .ok (.SUCCESS, c) → (c.drop (256 + 4)).length < 2 ^ 32)
    (halloc : rt.alloc s.length = true) :
    ∃ c, compress rt s out = .ok (.SUCCESS, c) ∧ decompress rt c out' = .ok (.SUCCESS, s) := by
  obtain ⟨header, root, t, mapping, payload, hroot, hrep, htable, -, hsymbols, hbits, hsize,
    hcompress⟩ := compress_ok rt hne hlen out
  refine ⟨_, hcompress, ?_⟩
  have hheader : header.toList.length = 256 := by simp
  have hpayload : payload.length < 2 ^ 32 := by
    have hbound := hpacked _ hcompress
    rwa [List.drop_left' (by rw [List.length_append, hheader, length_lengthBytes])] at hbound
  have hread : readHeader (header.toList ++ lengthBytes (UInt32.ofNat s.length) ++ payload) =
      .ok header := by
    rw [List.append_assoc, readHeader_append]
  have hdecode := decodeRest_words hrep htable hlen hsymbols hbits hsize hpayload halloc
    header.toList out'
  rw [hheader] at hdecode
  have hlong : ¬ (header.toList ++ lengthBytes (UInt32.ofNat s.length) ++ payload).length <
      256 + 4 := by
    rw [List.length_append, List.length_append, hheader, length_lengthBytes]
    omega
  rw [decompress, if_neg hlong, hread, Run.ok_bind, hroot, Run.ok_bind, hdecode]

/-- A byte of the text takes at most 32 bytes of the payload. -/
theorem length_payload_le (rt : Runtime) {s out c : Bytes} (hne : s ≠ [])
    (hlen : s.length ≤ 2 ^ 32 - 1) (hc : compress rt s out = .ok (.SUCCESS, c)) :
    (c.drop (256 + 4)).length ≤ 32 * s.length + 1 := by
  obtain ⟨header, root, t, mapping, payload, -, -, htable, hcard, hsymbols, -, hsize, hcompress⟩ :=
    compress_ok rt hne hlen out
  have hencode := htable.length_encode_le (n := 255) (by omega) hsymbols
  rw [hcompress] at hc
  obtain rfl : header.toList ++ lengthBytes (UInt32.ofNat s.length) ++ payload = c := by
    simpa using hc
  simp only [List.length_drop, List.length_append, Vector.length_toList, length_lengthBytes]
  omega

/-- A runtime with exact integer scaling and unlimited memory. -/
def exactRuntime : Runtime where
  queue := .scanning _
  scale count max := UInt8.ofNat (count.toNat * 255 / max.toNat)
  alloc _ := true

/-- The text `abababab` of the unit tests, whose code fills a whole byte. -/
theorem decompress_compress_abababab :
    ∃ c, compress exactRuntime [97, 98, 97, 98, 97, 98, 97, 98] [] = .ok (.SUCCESS, c) ∧
      decompress exactRuntime c [] = .ok (.SUCCESS, [97, 98, 97, 98, 97, 98, 97, 98]) := by
  refine decompress_compress exactRuntime _ [] [] (by decide) (by decide) (fun c hc => ?_) rfl
  have hle := length_payload_le exactRuntime (by decide) (by decide) hc
  exact lt_of_le_of_lt hle (by decide)

end HuffmanGeneric

end clockUtils.compression
