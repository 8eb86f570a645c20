import ClockUtils.Compression.ByteIndex
import ClockUtils.Compression.OptimalTree

open CodeTree

namespace clockUtils.compression

theorem Node.Represents.unique {node : Node} {t t' : CodeTree UInt8} (h : node.Represents t)
    (h' : node.Represents t') : t = t' := by
  induction h generalizing t' with
  | leaf value c =>
    cases h' with
    | leaf => rfl
    | branch _ _ hleft _ => exact absurd rfl hleft.ne_nullptr
  | branch value c hleft hright ihl ihr =>
    cases h' with
    | leaf => exact absurd rfl hleft.ne_nullptr
    | branch _ _ hleft' hright' => rw [ihl hleft', ihr hright']

namespace HuffmanFixed

theorem usedBytes_preVec : usedBytes preVec = (List.range 256).map UInt8.ofNat :=
  List.filter_eq_self.mpr fun c _ => decide_eq_true (preVec_ne_zero c)

theorem length_usedBytes_preVec : (usedBytes preVec).length = 2 ^ 8 := by
  simp [usedBytes_preVec]

/-- The sum of all frequencies, and that of the blank. -/
theorem entries_preVec :
    ((usedBytes preVec).map (entry preVec)).sum = 1706 ∧ entry preVec 32 = 255 := by
  rw [usedBytes_preVec]
  decide +kernel

/-- A tree for all bytes with the blank right below the root. -/
theorem exists_uneven : ∃ t : CodeTree UInt8, t.symbols.Perm (usedBytes preVec) ∧
    pathLength (entry preVec) t ≤ 13314 := by
  have hmem : 32 ∈ usedBytes preVec := mem_usedBytes.mpr (preVec_ne_zero 32)
  have hperm := List.perm_cons_erase hmem
  have hlength := hperm.length_eq
  rw [length_usedBytes_preVec, List.length_cons] at hlength
  have hsum := (hperm.map (entry preVec)).sum_eq
  rw [entries_preVec.1, List.map_cons, List.sum_cons, entries_preVec.2] at hsum
  have hne : (usedBytes preVec).erase 32 ≠ [] := List.ne_nil_of_length_pos (by omega)
  have hfits : ((usedBytes preVec).erase 32).length ≤ 2 ^ 8 := by omega
  obtain ⟨rest, hrest, hdepth⟩ := exists_flat hne hfits
  have hcost := costOf_placed_le (entry preVec) (hdepth 0)
  refine ⟨.branch (.leaf 32) rest, ?_, ?_⟩
  · rw [symbols, symbols, hrest]
    exact hperm.symm
  · have hleaf : pathLength (entry preVec) (.leaf 32) = 0 := by
      rw [pathLength, placed, costOf, Multiset.map_singleton, Multiset.sum_singleton, Nat.mul_zero]
    have hblank : (((CodeTree.leaf 32).symbols.map (entry preVec)).sum) = 255 := by
      rw [symbols, List.map_singleton, List.sum_singleton, entries_preVec.2]
    rw [← pathLength, hrest] at hcost
    rw [pathLength_branch, hleaf, hblank, hrest]
    generalize (((usedBytes preVec).erase 32).map (entry preVec)).sum = others at hsum hcost ⊢
    omega

/-- Whatever order nodes of equal value are taken in, the words of the fixed
table have more than 8 bits on the average. -/
theorem codeBits_usedBytes_lt {rt : Runtime} {node : Node} {t : CodeTree UInt8}
    {table : ByteTable (List Bool)} (hnode : root rt = .ok node) (hrep : node.Represents t)
    (htable : CodeTableOf t table) : 8 * 2 ^ 8 < codeBits table (usedBytes preVec) := by
  have hused : usedBytes preVec ≠ [] := List.ne_nil_of_mem (mem_usedBytes.mpr (preVec_ne_zero 0))
  obtain ⟨node', t', hnode', hrep', hperm, -, hminimal⟩ := buildTree_minimal rt hused
  obtain rfl : node = node' := Except.ok.inj (hnode.symm.trans hnode')
  obtain rfl : t = t' := hrep.unique hrep'
  have hlen : ∀ w c, t.Word w c → (table.get c).length = 0 + w.length := by
    intro w c hw
    rw [htable w c hw, Nat.zero_add]
  have hdepths : ((t.placed 0).map Prod.snd).sum = codeBits table (usedBytes preVec) := by
    rw [placed_eq_map hlen, Multiset.coe_eq_coe.mpr hperm, Multiset.map_map, Multiset.map_coe,
      Multiset.sum_coe]
    rfl
  rcases depths_eq_or_sum_lt t (hperm.length_eq.trans length_usedBytes_preVec) with hflat | hlt
  · obtain ⟨uneven, huneven, hcost⟩ := exists_uneven
    have hle := hminimal uneven huneven
    have hpath : pathLength (entry preVec) t = 1706 * 8 := by
      have hsum := (hperm.map (entry preVec)).sum_eq
      rw [entries_preVec.1, ← Multiset.sum_coe, ← Multiset.map_coe, ← map_fst_placed t 0,
        Multiset.map_map] at hsum
      rw [pathLength, costOf, ← hsum, ← Multiset.sum_map_mul_right]
      congr 1
      refine Multiset.map_congr rfl fun leaf hleaf => ?_
      rw [hflat leaf hleaf]
      rfl
    omega
  · rwa [hdepths] at hlt

/-- All bytes, as often as `compress` accepts them. -/
def wideText : Bytes :=
  (List.replicate (2 ^ 24 - 1) (usedBytes preVec)).flatten

theorem length_wideText : wideText.length = (2 ^ 24 - 1) * 2 ^ 8 := by
  rw [wideText, List.length_flatten, List.map_replicate, List.sum_replicate_nat,
    length_usedBytes_preVec]

theorem codeBits_wideText (table : ByteTable (List Bool)) :
    codeBits table wideText = (2 ^ 24 - 1) * codeBits table (usedBytes preVec) := by
  rw [codeBits, wideText, List.map_flatten, List.sum_flatten, List.map_map, List.map_replicate,
    List.sum_replicate_nat, Function.comp_apply, codeBits]

/-- A text that `compress` accepts and whose payload has more than `2 ^ 32` bytes,
so that the byte index of the decoder wraps. -/
theorem byteIndex_wraps :
    wideText.length ≤ 2 ^ 32 - 1 ∧ ∃ node table c len,
      root HuffmanGeneric.exactRuntime = .ok node ∧
      compress HuffmanGeneric.exactRuntime (Vector.replicate 256 []) wideText [] =
        .ok (table, .SUCCESS, c) ∧
      readLength c 0 = .ok len ∧ ¬ ByteIndexExact (c.drop 4) node len.toNat ∧
      ¬ (c.drop 4).length ≤ 2 ^ 32 := by
  have hlen : wideText.length ≤ 2 ^ 32 - 1 := by
    rw [length_wideText]
    decide
  obtain ⟨node, t, table, hnode, hrep, htable, -, hall, hfill⟩ :=
    exists_table HuffmanGeneric.exactRuntime
  obtain ⟨c, len, hcompress, hread, hexact, hsize⟩ :=
    compress_byteIndex hrep htable hall rfl hlen (hfill _ .initial) []
  have hwide : ¬ codeBits table wideText < 2 ^ 35 := by
    have hlt := codeBits_usedBytes_lt hnode hrep htable
    rw [codeBits_wideText]
    omega
  exact ⟨hlen, node, table, c, len, hnode, hcompress, hread, fun h => hwide (hexact.mp h),
    fun h => hwide (hsize.mp h)⟩

end HuffmanFixed

end clockUtils.compression
