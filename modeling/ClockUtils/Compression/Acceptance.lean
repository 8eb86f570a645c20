import ClockUtils.Compression.HuffmanFixed
import ClockUtils.Compression.RoundTrip

open BitPack

namespace clockUtils.compression

/-- A length field and a payload that stand for the text `s` under the code of
a tree: the bytes of `s` are leaves, the payload begins with their code words,
and it has exactly one byte more than these words fill. -/
structure WellCompressed (root : Node) (mapping : ByteTable (List Bool))
    (field payload s : Bytes) : Prop where
  length_eq : s.length = bigEndian field
  leaves : ∀ c ∈ s, c ∈ root.leaves
  words : encode mapping s <+: bits payload
  size_eq : payload.length = (encode mapping s).length / 8 + 1

theorem accepts_iff_wellCompressed {root : Node} {t : CodeTree UInt8}
    {mapping : ByteTable (List Bool)} (hroot : root.Represents t) (htable : CodeTableOf t mapping)
    {field payload s : Bytes} :
    Accepts t (bigEndian field) payload s ↔ WellCompressed root mapping field payload s := by
  have hflatten : (s.map mapping.get).flatten = encode mapping s := by
    rw [encode, List.flatMap_def]
  constructor
  · rintro ⟨hlen, ws, hws, hwords, hsize⟩
    obtain ⟨hleaves, rfl⟩ := htable.forall₂_word_iff.mp hws
    rw [hflatten] at hwords hsize
    exact ⟨hlen, by rwa [hroot.leaves_eq], hwords, hsize⟩
  · rintro ⟨hlen, hleaves, hwords, hsize⟩
    rw [hroot.leaves_eq] at hleaves
    refine ⟨hlen, s.map mapping.get, htable.forall₂_word_iff.mpr ⟨hleaves, rfl⟩, ?_⟩
    rw [hflatten]
    exact ⟨hwords, hsize⟩

/-- A decoder is exact for the code of a tree when it succeeds with a text
exactly where field and payload stand for it, and otherwise rejects. -/
structure ExactFor (root : Node) (mapping : ByteTable (List Bool)) (field payload : Bytes)
    (run : Run (ClockError × Bytes)) : Prop where
  success_iff : ∀ s, run = .ok (.SUCCESS, s) ↔ WellCompressed root mapping field payload s
  rejects : (∀ s, ¬ WellCompressed root mapping field payload s) →
    ∃ s, run = .ok (.INVALID_ARGUMENT, s)

theorem decodeRest_exact {rt : Runtime} (halloc : ∀ n, rt.alloc n = true)
    {header : ByteTable UInt8} (hused : usedBytes header ≠ []) {compressed : Bytes} {start : Nat}
    (hlen : start + 4 ≤ compressed.length)
    (hpayload : (compressed.drop (start + 4)).length < 2 ^ 32) (out : Bytes) :
    ∃ root mapping, buildTree rt header = .ok root ∧ codeTable root = .ok mapping ∧
      ExactFor root mapping ((compressed.drop start).take 4) (compressed.drop (start + 4))
        (decodeRest rt root compressed start out) := by
  obtain ⟨root, t, hroot, hrep, hperm⟩ := buildTree_represents rt hused
  obtain ⟨mapping, hmapping, htable⟩ :=
    codeTable_ok hrep (hperm.nodup_iff.mpr (nodup_usedBytes header))
  obtain ⟨hsuccess, hreject⟩ := decodeRest_spec hrep hlen hpayload (halloc _) out
  simp only [accepts_iff_wellCompressed hrep htable] at hsuccess hreject
  exact ⟨root, mapping, hroot, hmapping, hsuccess, hreject⟩

theorem usedBytes_readHeader {compressed : Bytes} {header : ByteTable UInt8}
    (hread : HuffmanGeneric.readHeader compressed = .ok header) :
    usedBytes header ≠ [] ↔ ∃ b ∈ compressed.take 256, b ≠ 0 := by
  rw [HuffmanGeneric.readHeader] at hread
  split at hread
  · next hlong =>
    obtain rfl : Vector.ofFn (fun i : Fin 256 => compressed.getD i 0) = header := by
      simpa using hread
    constructor
    · intro hne
      obtain ⟨c, hc⟩ := List.exists_mem_of_ne_nil _ hne
      have hindex := c.toNat_lt
      rw [mem_usedBytes, ByteTable.get_ofFn, List.getD_eq_getElem _ _ (by omega)] at hc
      refine ⟨_, List.mem_iff_getElem.mpr ⟨c.toNat, ?_, List.getElem_take⟩, hc⟩
      rw [List.length_take]
      omega
    · rintro ⟨b, hb, hne⟩
      obtain ⟨i, hi, rfl⟩ := List.mem_iff_getElem.mp hb
      rw [List.length_take] at hi
      have hnat : (UInt8.ofNat i).toNat = i := by
        rw [UInt8.toNat_ofNat']
        omega
      apply List.ne_nil_of_mem (a := UInt8.ofNat i)
      rw [mem_usedBytes, ByteTable.get_ofFn]
      simp only [hnat]
      rw [List.getD_eq_getElem _ _ (by omega)]
      rwa [List.getElem_take] at hne
  · cases hread

/-- Both compressed formats are accepted exactly. Inputs shorter than their
fixed front are rejected; all others succeed with a text exactly where the
length field and the payload stand for it under the code of the header's tree
(of `preVec`'s tree in the fixed format), and are rejected everywhere else. -/
theorem decompress_exact (rt : Runtime) (halloc : ∀ n, rt.alloc n = true) :
    (∀ c out : Bytes, (c.drop (256 + 4)).length < 2 ^ 32 →
      (256 + 4 ≤ c.length → ∃ b ∈ c.take 256, b ≠ 0) →
      (c.length < 256 + 4 ∧ HuffmanGeneric.decompress rt c out = .ok (.INVALID_ARGUMENT, out)) ∨
      ∃ header root mapping, HuffmanGeneric.readHeader c = .ok header ∧
        buildTree rt header = .ok root ∧ codeTable root = .ok mapping ∧
        ExactFor root mapping ((c.drop 256).take 4) (c.drop (256 + 4))
          (HuffmanGeneric.decompress rt c out)) ∧
    (∀ c out : Bytes, (c.drop 4).length < 2 ^ 32 →
      (c.length < 4 ∧ HuffmanFixed.decompress rt c out = .ok (.INVALID_ARGUMENT, out)) ∨
      ∃ root mapping, HuffmanFixed.root rt = .ok root ∧ codeTable root = .ok mapping ∧
        ExactFor root mapping (c.take 4) (c.drop 4) (HuffmanFixed.decompress rt c out)) := by
  refine ⟨fun c out hpayload hnonzero => ?_, fun c out hpayload => ?_⟩
  · by_cases hshort : c.length < 256 + 4
    · exact .inl ⟨hshort, by rw [HuffmanGeneric.decompress, if_pos hshort]⟩
    · have hread : HuffmanGeneric.readHeader c = .ok (Vector.ofFn fun i : Fin 256 => c.getD i 0) := by
        rw [HuffmanGeneric.readHeader, if_pos (by omega)]
      have hlong : 256 + 4 ≤ c.length := by omega
      obtain ⟨root, mapping, hroot, hmapping, hexact⟩ := decodeRest_exact halloc
        ((usedBytes_readHeader hread).mpr (hnonzero hlong)) hlong hpayload out
      refine .inr ⟨_, root, mapping, hread, hroot, hmapping, ?_⟩
      rwa [HuffmanGeneric.decompress, if_neg hshort, hread, Run.ok_bind, hroot]
  · by_cases hshort : c.length < 4
    · exact .inl ⟨hshort, by rw [HuffmanFixed.decompress, if_pos hshort]⟩
    · have hused : usedBytes HuffmanFixed.preVec ≠ [] :=
        List.ne_nil_of_mem (mem_usedBytes.mpr (show HuffmanFixed.preVec.get 0 ≠ 0 by decide))
      have hlong : 0 + 4 ≤ c.length := by omega
      obtain ⟨root, mapping, hroot, hmapping, hexact⟩ :=
        decodeRest_exact halloc hused hlong hpayload out
      refine .inr ⟨root, mapping, hroot, hmapping, ?_⟩
      rwa [HuffmanFixed.decompress, if_neg hshort, HuffmanFixed.root, hroot]

/-- A header with the entries 1 for `a` and 2 for `b`. -/
def twoEntries : Bytes :=
  List.replicate 97 0 ++ 1 :: 2 :: List.replicate 157 0

theorem codes_twoEntries :
    (HuffmanGeneric.readHeader (twoEntries ++ [0, 0, 0, 3, 64]) >>= fun header =>
      buildTree HuffmanGeneric.exactRuntime header >>= fun root =>
        codeTable root >>= fun mapping =>
          .ok (root.leaves, encode mapping [98, 97, 98])) =
      .ok ([97, 98], [false, true, false]) := by
  decide +kernel

/-- The text `bab` takes three bits of one payload byte. In the fixed format a text
without a payload byte is rejected. -/
theorem decompress_exact_three :
    HuffmanGeneric.decompress HuffmanGeneric.exactRuntime (twoEntries ++ [0, 0, 0, 3, 64]) [] =
        .ok (.SUCCESS, [98, 97, 98]) ∧
      (∃ s, HuffmanFixed.decompress HuffmanGeneric.exactRuntime [0, 0, 0, 0] [] =
        .ok (.INVALID_ARGUMENT, s)) := by
  obtain ⟨hgeneric, hfixed⟩ := decompress_exact HuffmanGeneric.exactRuntime (fun _ => rfl)
  constructor
  · have hfront : twoEntries.length = 256 := by
      rw [twoEntries, List.length_append, List.length_replicate, List.length_cons,
        List.length_cons, List.length_replicate]
    have hnonzero : ∃ b ∈ (twoEntries ++ [0, 0, 0, 3, 64]).take 256, b ≠ 0 := by
      refine ⟨1, ?_, by decide⟩
      rw [List.take_left' hfront, twoEntries]
      exact List.mem_append_right _ List.mem_cons_self
    have hsize : ((twoEntries ++ [0, 0, 0, 3, 64]).drop (256 + 4)).length < 2 ^ 32 := by
      rw [List.length_drop, List.length_append, hfront]
      decide
    rcases hgeneric _ [] hsize fun _ => hnonzero with
      ⟨hshort, -⟩ | ⟨header, root, mapping, hread, hroot, hmapping, h⟩
    · rw [List.length_append, hfront] at hshort
      exact absurd hshort (by decide)
    · have hcodes := codes_twoEntries
      rw [hread, Run.ok_bind, hroot, Run.ok_bind, hmapping, Run.ok_bind, Except.ok.injEq,
        Prod.mk.injEq] at hcodes
      rw [List.drop_left' hfront, ← List.drop_drop, List.drop_left' hfront] at h
      have hleaves : ∀ c ∈ ([98, 97, 98] : Bytes), c ∈ root.leaves := by
        rw [hcodes.1]
        simp
      have hwords : [false, true, false] <+: bits [64] := by decide
      have hlength : ([64] : Bytes).length = [false, true, false].length / 8 + 1 := by decide
      rw [← hcodes.2] at hwords hlength
      exact (h.success_iff _).mpr ⟨by decide, hleaves, hwords, hlength⟩
  · rcases hfixed [0, 0, 0, 0] [] (by decide) with ⟨hshort, -⟩ | ⟨root, mapping, -, -, h⟩
    · exact absurd hshort (by decide)
    · refine h.rejects fun s hs => ?_
      have hempty := hs.size_eq
      simp at hempty

end clockUtils.compression
