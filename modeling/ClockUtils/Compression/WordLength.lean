import Mathlib.Data.Multiset.Bind
import ClockUtils.Compression.OptimalTree
import ClockUtils.Compression.RoundTrip
import ClockUtils.Compression.Defined
import ClockUtils.Compression.FixedDepths
import ClockUtils.Lib.TreeHeight

open BitPack

namespace clockUtils.compression

open CodeTree

/-- A node whose value is the weight of the tree that it stands for. -/
def Node.Weighs (header : ByteTable UInt8) (node : Node) (t : CodeTree UInt8) : Prop :=
  node.Represents t ∧ node.value.toNat = t.weight (entry header)

/-- The nodes in the queue stand for a forest that joins its two lightest trees. -/
structure Joins (header : ByteTable UInt8) (nodes : Multiset Node) : Prop where
  bounded : (nodes.map fun node => node.value.toNat).sum < 2 ^ 32
  forest : ∃ trees, Multiset.Rel (Node.Weighs header) nodes trees ∧
    GradedForest (entry header) trees

theorem Joins.leaves (header : ByteTable UInt8) :
    Joins header ((usedBytes header).map (leafNode header) : List Node) := by
  refine ⟨(Greedy.leaves header).bounded, ((usedBytes header).map CodeTree.leaf : List _), ?_, ?_⟩
  · rw [← Multiset.map_coe, ← Multiset.map_coe, Multiset.rel_map]
    refine Multiset.rel_refl_of_refl_on fun c _ => ⟨.leaf _ c, ?_⟩
    simp [leafNode, Node.value, weight, symbols, entry]
  · refine .of_leaves fun t ht => ?_
    obtain ⟨c, -, rfl⟩ := List.mem_map.mp (Multiset.mem_coe.mp ht)
    exact ⟨c, rfl⟩

theorem Joins.combines {header : ByteTable UInt8} {before after : Multiset Node}
    (hround : Combines before after) (h : Joins header before) : Joins header after := by
  obtain ⟨left, right, rest, rfl, rfl, hleft, hright⟩ := hround
  obtain ⟨hbounded, trees, hrel, hforest⟩ := h
  simp only [Multiset.map_cons, Multiset.sum_cons] at hbounded
  have hsum : (left.value + right.value).toNat = left.value.toNat + right.value.toNat := by
    rw [UInt32.toNat_add]
    omega
  refine ⟨?_, ?_⟩
  · simp only [Multiset.map_cons, Multiset.sum_cons, Node.value_mk, hsum]
    omega
  · obtain ⟨l, others, hl, hothers, rfl⟩ := Multiset.rel_cons_left.mp hrel
    obtain ⟨r, trees, hr, hrest, rfl⟩ := Multiset.rel_cons_left.mp hothers
    have hnode : ∀ t ∈ trees, ∃ node ∈ rest, node.value.toNat = t.weight (entry header) := by
      intro t ht
      obtain ⟨node, hnode, -, hvalue⟩ :=
        Multiset.exists_mem_of_rel_of_mem (Multiset.rel_flip.mpr hrest) ht
      exact ⟨node, hnode, hvalue⟩
    refine ⟨branch l r ::ₘ trees, ?_, hforest.join (fun t ht => ?_) fun t ht => ?_⟩
    · refine hrest.cons ⟨.branch _ 0 hl.1 hr.1, ?_⟩
      rw [weight_branch, ← hl.2, ← hr.2]
      exact hsum
    · obtain ⟨node, hmem, hvalue⟩ := hnode t ht
      rw [← hl.2, ← hvalue]
      exact hleft node (Multiset.mem_cons_of_mem hmem)
    · obtain ⟨node, hmem, hvalue⟩ := hnode t ht
      rw [← hr.2, ← hvalue]
      exact hright node hmem

/-- A tree of height 23 would need more weight than all entries together have. -/
theorem buildTree_height (rt : Runtime) {header : ByteTable UInt8} (hused : usedBytes header ≠ []) :
    ∃ root t, buildTree rt header = .ok root ∧ root.Represents t ∧
      t.symbols.Perm (usedBytes header) ∧ t.height ≤ 22 := by
  obtain ⟨root, hroot, -, trees, hrel, hforest⟩ :=
    buildTree_ok rt (fun _ _ => Joins.combines) hused (.leaves header)
  obtain ⟨t, others, ⟨hrep, -⟩, -, rfl⟩ := Multiset.rel_cons_left.mp hrel
  obtain ⟨root', t', hroot', hrep', hperm⟩ := buildTree_represents rt hused
  obtain rfl : root = root' := Except.ok.inj (hroot.symm.trans hroot')
  rw [← hrep'.leaves_eq, hrep.leaves_eq] at hperm
  refine ⟨root, t, hroot, hrep, hperm, ?_⟩
  have hpos : ∀ c ∈ t.symbols, 0 < entry header c := by
    intro c hc
    have hentry := mem_usedBytes.mp (hperm.mem_iff.mp hc)
    rw [entry, Nat.pos_iff_ne_zero, ne_eq, ← UInt8.toNat_zero, UInt8.toNat_inj]
    exact hentry
  have hfib := ((hforest.graded t (Multiset.mem_cons_self _ _)).fib_le_weight hpos).1
  have hweight : t.weight (entry header) = ((usedBytes header).map (entry header)).sum :=
    (hperm.map (entry header)).sum_eq
  have hsum := sum_entry_le header
  by_contra hhigh
  have hmono : Nat.fib 25 ≤ Nat.fib (t.height + 2) := Nat.fib_mono (by omega)
  have hvalue : Nat.fib 25 = 75025 := by decide
  omega

/-- No code word is longer than 22 bits, whatever the header and the order in which the
priority queue returns nodes of equal weight. The two lightest nodes are joined each time,
so the weight of a tree grows with its height like the Fibonacci numbers, and 256 entries of
at most 255 weigh too little for a height of 23. -/
theorem code_words_short (rt : Runtime) (header : ByteTable UInt8) (hused : ∃ c, header.get c ≠ 0) :
    ∃ root mapping, buildTree rt header = .ok root ∧ codeTable root = .ok mapping ∧
      ∀ c, (mapping.get c).length ≤ 22 := by
  obtain ⟨c, hc⟩ := hused
  obtain ⟨root, t, hroot, hrep, hperm, hheight⟩ :=
    buildTree_height rt (List.ne_nil_of_mem (mem_usedBytes.mpr hc))
  obtain ⟨mapping, hmapping, hword, hkeep⟩ :=
    generateMapping_ok hrep (hperm.nodup_iff.mpr (nodup_usedBytes header)) []
      (Vector.replicate 256 [])
  refine ⟨root, mapping, hroot, hmapping, fun c => ?_⟩
  by_cases hsymbol : c ∈ t.symbols
  · obtain ⟨word, hw⟩ := exists_word_of_mem_symbols hsymbol
    rw [hword word c hw, List.nil_append]
    exact hw.length_le_height.trans hheight
  · rw [hkeep c hsymbol, ByteTable.get_replicate]
    exact Nat.zero_le 22

/-- Three bytes with the entries 5, 2 and 3. -/
theorem code_words_short_three :
    (∃ c, threeBytes.get c ≠ 0) ∧
      ∃ root mapping, buildTree HuffmanGeneric.exactRuntime threeBytes = .ok root ∧
        codeTable root = .ok mapping ∧ ∀ c, (mapping.get c).length ≤ 22 := by
  have hused : ∃ c, threeBytes.get c ≠ 0 := ⟨97, by simp [threeBytes, ByteTable.get_set]⟩
  exact ⟨hused, code_words_short HuffmanGeneric.exactRuntime threeBytes hused⟩

theorem height_le_of_buildTree {rt : Runtime} {header : ByteTable UInt8} {root : Node}
    {t : CodeTree UInt8} (hroot : buildTree rt header = .ok root) (hrep : root.Represents t) :
    t.height ≤ 22 := by
  have hused : usedBytes header ≠ [] := by
    intro hunused
    rw [buildTree_unused rt hunused] at hroot
    cases hroot
  obtain ⟨root', t', hroot', hrep', -, hheight⟩ := buildTree_height rt hused
  obtain rfl := Except.ok.inj (hroot.symm.trans hroot')
  rwa [hrep.unique hrep']

theorem CodeTableOf.length_encode_le_height {t : CodeTree UInt8} {mapping : ByteTable (List Bool)}
    (h : CodeTableOf t mapping) {text : Bytes} (htext : ∀ c ∈ text, c ∈ t.symbols) :
    (encode mapping text).length ≤ t.height * text.length :=
  length_encode_le_of_forall fun c hc => (h.word (htext c hc)).length_le_height

namespace HuffmanGeneric

/-- Every text that is not too long is compressed to at most 22 bits for each of its
bytes, behind the header, and decompressed to itself. The payload has then fewer than
`2 ^ 32` bytes, so the positions of the decoder do not wrap. -/
theorem compressed_size_le (rt : Runtime) (s out out' : Bytes) (hne : s ≠ [])
    (hlen : 22 * s.length < 8 * (2 ^ 32 - 1)) (halloc : rt.alloc s.length = true) :
    ∃ c, compress rt s out = .ok (.SUCCESS, c) ∧ c.length ≤ 256 + 4 + (22 * s.length / 8 + 1) ∧
      decompress rt c out' = .ok (.SUCCESS, s) := by
  obtain ⟨header, root, t, mapping, payload, hroot, hrep, htable, -, hsymbols, hbits, hsize,
    hcompress⟩ := compress_ok rt hne (by omega) out
  have hencode : (encode mapping s).length ≤ 22 * s.length :=
    (htable.length_encode_le_height hsymbols).trans
      (Nat.mul_le_mul_right s.length (height_le_of_buildTree hroot hrep))
  have hheader : header.toList.length = 256 := by simp
  have hlength : (header.toList ++ lengthBytes (UInt32.ofNat s.length) ++ payload).length =
      256 + 4 + payload.length := by
    rw [List.length_append, List.length_append, hheader, length_lengthBytes]
  refine ⟨_, hcompress, by omega, ?_⟩
  have hread : readHeader (header.toList ++ lengthBytes (UInt32.ofNat s.length) ++ payload) =
      .ok header := by
    rw [List.append_assoc, readHeader_append]
  have hdecode := decodeRest_words hrep htable (by omega) hsymbols hbits hsize (by omega) halloc
    header.toList out'
  rw [hheader] at hdecode
  rw [decompress, if_neg (by omega), hread, Run.ok_bind, hroot, Run.ok_bind, hdecode]

theorem compressed_size_le_abababab :
    ∃ c, compress exactRuntime [97, 98, 97, 98, 97, 98, 97, 98] [] = .ok (.SUCCESS, c) ∧
      c.length ≤ 283 ∧
      decompress exactRuntime c [] = .ok (.SUCCESS, [97, 98, 97, 98, 97, 98, 97, 98]) :=
  compressed_size_le exactRuntime _ [] [] (by decide) (by decide) rfl

end HuffmanGeneric

end clockUtils.compression
