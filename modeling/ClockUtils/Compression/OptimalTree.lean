import Mathlib.Algebra.Order.BigOperators.Group.List
import Mathlib.Algebra.Order.Ring.Nat
import ClockUtils.Compression.BuildTree
import ClockUtils.Lib.PathLength

namespace clockUtils.compression

/-- The weight of a byte. -/
def entry (header : ByteTable UInt8) (c : UInt8) : Nat :=
  (header.get c).toNat

namespace Node

/-- The sum of `header[c] * depth(c)` over the leaves below a node of the given
depth. -/
def weightedDepth (header : ByteTable UInt8) : Node → Nat → Nat
  | .nullptr, _ => 0
  | .mk _ c .nullptr .nullptr, depth => entry header c * depth
  | .mk _ _ left right, depth =>
    left.weightedDepth header (depth + 1) + right.weightedDepth header (depth + 1)

def weightedPathLength (header : ByteTable UInt8) (node : Node) : Nat :=
  node.weightedDepth header 0

/-- The value of every inner node is the sum of its children's values, without
overflow. -/
def Exact : Node → Prop
  | .nullptr => True
  | .mk _ _ .nullptr .nullptr => True
  | .mk value _ left right =>
    value.toNat = left.value.toNat + right.value.toNat ∧ left.Exact ∧ right.Exact

theorem value_mk (value : UInt32) (c : UInt8) (left right : Node) :
    (Node.mk value c left right).value = value := rfl

theorem mk_cases (left right : Node) :
    (left = .nullptr ∧ right = .nullptr) ∨ left ≠ .nullptr ∨ right ≠ .nullptr := by
  by_cases hleft : left = .nullptr
  · by_cases hright : right = .nullptr
    · exact .inl ⟨hleft, hright⟩
    · exact .inr (.inr hright)
  · exact .inr (.inl hleft)

section Inner

variable {left right : Node} (h : left ≠ .nullptr ∨ right ≠ .nullptr)

include h

theorem leaves_inner (value : UInt32) (c : UInt8) :
    (Node.mk value c left right).leaves = left.leaves ++ right.leaves := by
  cases left <;> cases right <;> simp_all [leaves]

theorem weightedDepth_inner (header : ByteTable UInt8) (value : UInt32) (c : UInt8) (depth : Nat) :
    (Node.mk value c left right).weightedDepth header depth =
      left.weightedDepth header (depth + 1) + right.weightedDepth header (depth + 1) := by
  cases left <;> cases right <;> simp_all [weightedDepth]

theorem exact_inner (value : UInt32) (c : UInt8) :
    (Node.mk value c left right).Exact ↔
      value.toNat = left.value.toNat + right.value.toNat ∧ left.Exact ∧ right.Exact := by
  cases left <;> cases right <;> simp_all [Exact]

end Inner

theorem Represents.ne_nullptr {node : Node} {t : CodeTree UInt8} (h : node.Represents t) :
    node ≠ .nullptr := by
  obtain ⟨value, c, left, right, rfl⟩ := h.exists_mk
  exact Node.noConfusion

open CodeTree

theorem Represents.weightedDepth_eq {node : Node} {t : CodeTree UInt8} (h : node.Represents t)
    (header : ByteTable UInt8) (depth : Nat) :
    node.weightedDepth header depth = costOf (entry header) (t.placed depth) := by
  induction h generalizing depth with
  | leaf value c => simp [weightedDepth, placed, costOf]
  | branch value c hleft hright ihl ihr =>
    rw [weightedDepth_inner (.inl hleft.ne_nullptr), ihl, ihr, placed, costOf_add]

/-- A tree in which some nodes have one child only is not better than one without
these nodes. -/
theorem exists_codeTree {node : Node} (hleaves : node.leaves ≠ []) (header : ByteTable UInt8) :
    ∃ t : CodeTree UInt8, t.symbols = node.leaves ∧
      ∀ depth, costOf (entry header) (t.placed depth) ≤ node.weightedDepth header depth := by
  induction node with
  | nullptr => exact absurd rfl hleaves
  | mk value c left right ihl ihr =>
    rcases mk_cases left right with ⟨rfl, rfl⟩ | h
    · exact ⟨.leaf c, rfl, fun depth => by simp [weightedDepth, placed, costOf]⟩
    · rw [leaves_inner h] at hleaves ⊢
      simp only [weightedDepth_inner h]
      by_cases hleft : left.leaves = []
      · rw [hleft, List.nil_append] at hleaves ⊢
        obtain ⟨r, hr, hcost⟩ := ihr hleaves
        refine ⟨r, hr, fun depth => ?_⟩
        have hdeeper := hcost (depth + 1)
        rw [costOf_placed_succ] at hdeeper
        omega
      · obtain ⟨l, hl, hcostl⟩ := ihl hleft
        by_cases hright : right.leaves = []
        · refine ⟨l, by rw [hl, hright, List.append_nil], fun depth => ?_⟩
          have hdeeper := hcostl (depth + 1)
          rw [costOf_placed_succ] at hdeeper
          omega
        · obtain ⟨r, hr, hcostr⟩ := ihr hright
          refine ⟨.branch l r, by rw [symbols, hl, hr], fun depth => ?_⟩
          rw [placed, costOf_add]
          exact Nat.add_le_add (hcostl _) (hcostr _)

end Node

open CodeTree

/-- What holds of the nodes in the queue. The last part compares with a tree for
the same bytes: a tree over the nodes, put on top of them, is not worse. -/
structure Greedy (header : ByteTable UInt8) (nodes : Multiset Node) : Prop where
  represents : ∀ node ∈ nodes, ∃ t, node.Represents t ∧
    node.value.toNat = (t.symbols.map (entry header)).sum
  exact : ∀ node ∈ nodes, node.Exact
  bounded : (nodes.map fun node => node.value.toNat).sum < 2 ^ 32
  minimal : ∀ other : CodeTree UInt8, other.symbols.Perm (usedBytes header) →
    ∃ t : CodeTree Node, (t.symbols : Multiset Node) = nodes ∧
      pathLength (fun node => node.value.toNat) t +
        (nodes.map (Node.weightedPathLength header)).sum ≤ pathLength (entry header) other

/-- There are at most 256 entries, each of one byte. -/
theorem sum_entry_le (header : ByteTable UInt8) :
    ((usedBytes header).map (entry header)).sum ≤ 256 * 255 := by
  have hcard := List.sum_le_card_nsmul ((usedBytes header).map (entry header)) 255 (by
    intro n hn
    obtain ⟨c, -, rfl⟩ := List.mem_map.mp hn
    have hlt := (header.get c).toNat_lt
    rw [entry]
    omega)
  rw [List.length_map, nsmul_eq_mul, Nat.cast_id] at hcard
  exact hcard.trans (Nat.mul_le_mul_right 255 (length_usedBytes_le header))

theorem Greedy.leaves (header : ByteTable UInt8) :
    Greedy header ((usedBytes header).map (leafNode header) : List Node) := by
  have hleaf : ∀ node ∈ (((usedBytes header).map (leafNode header) : List Node) : Multiset Node),
      ∃ c, node = leafNode header c := by
    intro node hnode
    obtain ⟨c, -, rfl⟩ := List.mem_map.mp (Multiset.mem_coe.mp hnode)
    exact ⟨c, rfl⟩
  refine ⟨fun node hnode => ?_, fun node hnode => ?_, ?_, fun other hother => ?_⟩
  · obtain ⟨c, rfl⟩ := hleaf node hnode
    exact ⟨.leaf c, .leaf _ c, by simp [leafNode, Node.value, symbols, entry]⟩
  · obtain ⟨c, rfl⟩ := hleaf node hnode
    trivial
  · have hsum := sum_entry_le header
    rw [Multiset.map_coe, Multiset.sum_coe, List.map_map]
    exact hsum.trans_lt (by omega)
  · refine ⟨other.map (leafNode header), ?_, ?_⟩
    · rw [symbols_map]
      exact Multiset.coe_eq_coe.mpr (hother.map _)
    · have hzero : ((((usedBytes header).map (leafNode header) : List Node) : Multiset Node).map
          (Node.weightedPathLength header)).sum = 0 := by
        refine Multiset.sum_eq_zero fun n hn => ?_
        obtain ⟨node, hnode, rfl⟩ := Multiset.mem_map.mp hn
        obtain ⟨c, rfl⟩ := hleaf node hnode
        exact Nat.mul_zero _
      rw [pathLength_map, hzero, Nat.add_zero]
      exact Nat.le_of_eq rfl

/-- One round: the two lightest nodes get a common parent. -/
theorem Greedy.combines {header : ByteTable UInt8} {before after : Multiset Node}
    (hround : Combines before after) (h : Greedy header before) : Greedy header after := by
  obtain ⟨left, right, rest, rfl, rfl, hleft, hright⟩ := hround
  obtain ⟨l, hl, hlvalue⟩ := h.represents left (by simp)
  obtain ⟨r, hr, hrvalue⟩ := h.represents right (by simp)
  have hbounded := h.bounded
  simp only [Multiset.map_cons, Multiset.sum_cons] at hbounded
  have hsum : (left.value + right.value).toNat = left.value.toNat + right.value.toNat := by
    rw [UInt32.toNat_add]
    omega
  have hnode := Node.Represents.branch (left.value + right.value) 0 hl hr
  refine ⟨?_, ?_, ?_, fun other hother => ?_⟩
  · intro node hmem
    rcases Multiset.mem_cons.mp hmem with rfl | hmem
    · refine ⟨_, hnode, ?_⟩
      rw [symbols, List.map_append, List.sum_append, ← hlvalue, ← hrvalue]
      exact hsum
    · exact h.represents node (by simp [hmem])
  · intro node hmem
    rcases Multiset.mem_cons.mp hmem with rfl | hmem
    · rw [Node.exact_inner (.inl hl.ne_nullptr)]
      exact ⟨hsum, h.exact left (by simp), h.exact right (by simp)⟩
    · exact h.exact node (by simp [hmem])
  · simp only [Multiset.map_cons, Multiset.sum_cons, Node.value_mk, hsum]
    omega
  · obtain ⟨t, hsymbols, hcost⟩ := h.minimal other hother
    obtain ⟨t', hsymbols', hcost'⟩ := exists_merged (fun node => node.value.toNat)
      (c := .mk (left.value + right.value) 0 left right) hsymbols hleft hright hsum
    refine ⟨t', hsymbols', ?_⟩
    have hpath : Node.weightedPathLength header (.mk (left.value + right.value) 0 left right) =
        Node.weightedPathLength header left + Node.weightedPathLength header right +
          (left.value.toNat + right.value.toNat) := by
      rw [Node.weightedPathLength, hnode.weightedDepth_eq, ← pathLength, pathLength_branch,
        Node.weightedPathLength, hl.weightedDepth_eq, Node.weightedPathLength, hr.weightedDepth_eq,
        hlvalue, hrvalue]
      rfl
    simp only [Multiset.map_cons, Multiset.sum_cons] at hcost hcost' ⊢
    rw [hpath]
    simp only [Node.value_mk, hsum] at hcost'
    omega

/-- The tree of a header stands for a code tree of minimal weighted path length. -/
theorem buildTree_minimal (rt : Runtime) {header : ByteTable UInt8} (hused : usedBytes header ≠ []) :
    ∃ root t, buildTree rt header = .ok root ∧ root.Represents t ∧
      t.symbols.Perm (usedBytes header) ∧ root.Exact ∧
      ∀ other : CodeTree UInt8, other.symbols.Perm (usedBytes header) →
        pathLength (entry header) t ≤ pathLength (entry header) other := by
  obtain ⟨root, hroot, hgreedy⟩ := buildTree_ok rt (fun _ _ => Greedy.combines) hused (.leaves header)
  obtain ⟨root', t, hroot', hrep, hperm⟩ := buildTree_represents rt hused
  obtain rfl : root = root' := Except.ok.inj (hroot.symm.trans hroot')
  refine ⟨root, t, hroot, hrep, hperm, hgreedy.exact root (by simp), fun other hother => ?_⟩
  obtain ⟨top, -, hle⟩ := hgreedy.minimal other hother
  rw [Multiset.map_singleton, Multiset.sum_singleton, Node.weightedPathLength,
    hrep.weightedDepth_eq, ← pathLength] at hle
  omega

/-- The tree of a header has a leaf for every byte with a nonzero entry, no sum
of values overflows, and no binary tree with these leaves has a smaller weighted
path length. -/
theorem buildTree_optimal (rt : Runtime) (header : ByteTable UInt8)
    (hused : ∃ c, header.get c ≠ 0) :
    ∃ root, buildTree rt header = .ok root ∧ root.leaves.Nodup ∧
      (∀ c, c ∈ root.leaves ↔ header.get c ≠ 0) ∧ root.Exact ∧
      ∀ other : Node, other.leaves.Nodup → (∀ c, c ∈ other.leaves ↔ header.get c ≠ 0) →
        root.weightedPathLength header ≤ other.weightedPathLength header := by
  obtain ⟨c, hc⟩ := hused
  have hne : usedBytes header ≠ [] := List.ne_nil_of_mem (mem_usedBytes.mpr hc)
  obtain ⟨root, t, hroot, hrep, hperm, hexact, hminimal⟩ := buildTree_minimal rt hne
  rw [← hrep.leaves_eq] at hperm
  refine ⟨root, hroot, hperm.nodup_iff.mpr (nodup_usedBytes header), fun c => ?_, hexact,
    fun other hnodup hleaves => ?_⟩
  · rw [hperm.mem_iff, mem_usedBytes]
  · have hother : other.leaves ≠ [] := List.ne_nil_of_mem ((hleaves c).mpr hc)
    obtain ⟨t', ht', hcost⟩ := Node.exists_codeTree hother header
    have hperm' : t'.symbols.Perm (usedBytes header) := by
      rw [ht', List.perm_ext_iff_of_nodup hnodup (nodup_usedBytes header)]
      intro c
      rw [hleaves, mem_usedBytes]
    calc root.weightedPathLength header
        = pathLength (entry header) t := hrep.weightedDepth_eq header 0
      _ ≤ pathLength (entry header) t' := hminimal t' hperm'
      _ ≤ other.weightedPathLength header := hcost 0

/-- Three bytes with the entries 5, 2 and 3. -/
def threeBytes : ByteTable UInt8 :=
  ByteTable.set (ByteTable.set (ByteTable.set (Vector.replicate 256 0) 97 5) 98 2) 99 3

theorem buildTree_optimal_three :
    (∃ c, threeBytes.get c ≠ 0) ∧
      ∃ root, buildTree ⟨.scanning _, fun _ _ => 0, fun _ => true⟩ threeBytes = .ok root ∧
        ∀ other : Node, other.leaves.Nodup → (∀ c, c ∈ other.leaves ↔ threeBytes.get c ≠ 0) →
          root.weightedPathLength threeBytes ≤ other.weightedPathLength threeBytes := by
  have hused : ∃ c, threeBytes.get c ≠ 0 := ⟨97, by simp [threeBytes, ByteTable.get_set]⟩
  obtain ⟨root, hroot, -, -, -, hminimal⟩ := buildTree_optimal _ threeBytes hused
  exact ⟨hused, root, hroot, hminimal⟩

end clockUtils.compression
