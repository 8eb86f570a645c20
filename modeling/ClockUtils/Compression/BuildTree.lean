import ClockUtils.Compression.HuffmanBase
import ClockUtils.Lib.CodeTree
import Mathlib.Data.Multiset.Bind

namespace clockUtils.compression

namespace Node

/-- The bytes at the leaves below a node, from left to right. -/
def leaves : Node → List UInt8
  | .nullptr => []
  | .mk _ c .nullptr .nullptr => [c]
  | .mk _ _ left right => left.leaves ++ right.leaves

/-- A node that stands for a code tree: leaves have no child and all other
nodes have two. -/
inductive Represents : Node → CodeTree UInt8 → Prop where
  | leaf (value : UInt32) (c : UInt8) : Represents (.mk value c .nullptr .nullptr) (.leaf c)
  | branch {left right : Node} {l r : CodeTree UInt8} (value : UInt32) (c : UInt8)
      (hleft : Represents left l) (hright : Represents right r) :
      Represents (.mk value c left right) (.branch l r)

theorem Represents.exists_mk {node : Node} {t : CodeTree UInt8} (h : node.Represents t) :
    ∃ value c left right, node = .mk value c left right := by
  cases h with
  | leaf value c => exact ⟨value, c, _, _, rfl⟩
  | branch value c _ _ => exact ⟨value, c, _, _, rfl⟩

theorem Represents.leaves_eq {node : Node} {t : CodeTree UInt8} (h : node.Represents t) :
    node.leaves = t.symbols := by
  induction h with
  | leaf => rfl
  | branch value c hleft hright ihl ihr =>
    obtain ⟨_, _, _, _, rfl⟩ := hleft.exists_mk
    rw [CodeTree.symbols, ← ihl, ← ihr]
    rfl

end Node

/-- The node that `buildTree` pushes for a byte with a nonzero entry. -/
def leafNode (header : ByteTable UInt8) (c : UInt8) : Node :=
  .mk (header.get c).toUInt32 c .nullptr .nullptr

/-- The bytes that get a leaf: those with a nonzero header entry. -/
def usedBytes (header : ByteTable UInt8) : List UInt8 :=
  ((List.range 256).map UInt8.ofNat).filter fun c => header.get c ≠ 0

theorem mem_usedBytes {header : ByteTable UInt8} {c : UInt8} :
    c ∈ usedBytes header ↔ header.get c ≠ 0 := by
  have hall : c ∈ (List.range 256).map UInt8.ofNat :=
    List.mem_map.mpr ⟨c.toNat, List.mem_range.mpr c.toNat_lt, by simp⟩
  simp only [usedBytes, List.mem_filter, hall, true_and, decide_eq_true_eq]

theorem nodup_usedBytes (header : ByteTable UInt8) : (usedBytes header).Nodup := by
  apply List.Nodup.filter
  apply List.Nodup.map_on _ List.nodup_range
  intro i hi j hj hij
  have h := congrArg UInt8.toNat hij
  simp only [UInt8.toNat_ofNat'] at h
  rw [List.mem_range] at hi hj
  omega

theorem length_usedBytes_le (header : ByteTable UInt8) : (usedBytes header).length ≤ 256 := by
  have h := List.length_filter_le (fun c => decide (header.get c ≠ 0))
    ((List.range 256).map UInt8.ofNat)
  simpa [usedBytes] using h

theorem contents_pushLeaves (rt : Runtime) (header : ByteTable UInt8) :
    rt.queue.contents (pushLeaves rt header) = ((usedBytes header).map (leafNode header) : List Node) := by
  have hfold : ∀ (is : List Nat) (queue : rt.queue.Queue),
      rt.queue.contents (is.foldl (fun queue i =>
        if header.get (UInt8.ofNat i) = 0 then queue
        else rt.queue.push queue
          (.mk (header.get (UInt8.ofNat i)).toUInt32 (UInt8.ofNat i) .nullptr .nullptr)) queue) =
      rt.queue.contents queue +
        (((is.map UInt8.ofNat).filter fun c => header.get c ≠ 0).map
          (leafNode header) : List Node) := by
    intro is
    induction is with
    | nil => simp
    | cons i is ih =>
      intro queue
      rw [List.foldl_cons, ih]
      by_cases hzero : header.get (UInt8.ofNat i) = 0
      · simp [hzero]
      · rw [if_neg hzero, rt.queue.contents_push]
        simp [hzero, leafNode, ← Multiset.cons_coe]
  have h := hfold (List.range 256) rt.queue.empty
  rwa [rt.queue.contents_empty, zero_add] at h

/-- One round takes two nodes of smallest value out of the queue and puts
their common parent back. -/
theorem combine_spec (rt : Runtime) {queue : rt.queue.Queue} (hsize : 2 ≤ rt.queue.size queue) :
    ∃ left right rest queue', combine rt queue = .ok queue' ∧
      rt.queue.contents queue = left ::ₘ right ::ₘ rest ∧
      rt.queue.contents queue' = .mk (left.value + right.value) 0 left right ::ₘ rest ∧
      (∀ node ∈ right ::ₘ rest, left.value.toNat ≤ node.value.toNat) ∧
      (∀ node ∈ rest, right.value.toNat ≤ node.value.toNat) := by
  obtain ⟨left, hleft⟩ := rt.queue.exists_top (q := queue) (by omega)
  have hpop := rt.queue.size_pop hleft
  obtain ⟨right, hright⟩ := rt.queue.exists_top (q := rt.queue.pop queue) (by omega)
  have hcontents := rt.queue.contents_pop hleft
  have hcontents' := rt.queue.contents_pop hright
  refine ⟨left, right, rt.queue.contents (rt.queue.pop (rt.queue.pop queue)), _, ?_, ?_,
    rt.queue.contents_push _ _, ?_, ?_⟩
  · simp only [combine, hleft, hright]
  · rw [hcontents, hcontents']
  · intro node hnode
    apply rt.queue.top_le hleft
    rw [hcontents, hcontents']
    exact Multiset.mem_cons_of_mem hnode
  · intro node hnode
    apply rt.queue.top_le hright
    rw [hcontents']
    exact Multiset.mem_cons_of_mem hnode

/-- What a round may do to the nodes in the queue. -/
def Combines (before after : Multiset Node) : Prop :=
  ∃ left right rest, before = left ::ₘ right ::ₘ rest ∧
    after = .mk (left.value + right.value) 0 left right ::ₘ rest ∧
    (∀ node ∈ right ::ₘ rest, left.value.toNat ≤ node.value.toNat) ∧
    (∀ node ∈ rest, right.value.toNat ≤ node.value.toNat)

/-- A property of the queue's nodes that every round keeps holds of the single node that is
left after as many rounds as there were nodes. A queue with one node ends the loop whatever
fuel is left. -/
theorem combineLoop_ok (rt : Runtime) {P : Multiset Node → Prop}
    (hstep : ∀ before after, Combines before after → P before → P after) :
    ∀ (fuel : Nat) (queue : rt.queue.Queue), rt.queue.size queue ≤ fuel + 1 →
      0 < rt.queue.size queue → P (rt.queue.contents queue) →
      ∃ queue' root, combineLoop rt fuel queue = .ok queue' ∧
        rt.queue.contents queue' = {root} ∧ P {root} := by
  have hsingle : ∀ (queue : rt.queue.Queue), ¬ 2 ≤ rt.queue.size queue → 0 < rt.queue.size queue →
      P (rt.queue.contents queue) → ∃ root, rt.queue.contents queue = {root} ∧ P {root} := by
    intro queue hsmall hpos hP
    have hcard : (rt.queue.contents queue).card = 1 := by
      rw [PriorityQueue.size] at hsmall hpos
      omega
    obtain ⟨root, hroot⟩ := Multiset.card_eq_one.mp hcard
    exact ⟨root, hroot, hroot ▸ hP⟩
  intro fuel
  induction fuel with
  | zero =>
    intro queue hfuel hpos hP
    obtain ⟨root, hroot, hP⟩ := hsingle queue (by omega) hpos hP
    exact ⟨queue, root, rfl, hroot, hP⟩
  | succ fuel ih =>
    intro queue hfuel hpos hP
    by_cases hsize : 2 ≤ rt.queue.size queue
    · obtain ⟨left, right, rest, queue', hcombine, hbefore, hafter, hmin⟩ := combine_spec rt hsize
      have hP' := hstep _ _ ⟨left, right, rest, hbefore, hafter, hmin⟩ hP
      have hcard : rt.queue.size queue = rt.queue.size queue' + 1 := by
        simp [PriorityQueue.size, hbefore, hafter]
      obtain ⟨queue'', root, hloop, hroot⟩ := ih queue' (by omega) (by omega) hP'
      refine ⟨queue'', root, ?_, hroot⟩
      rw [combineLoop, if_pos hsize, hcombine]
      exact hloop
    · obtain ⟨root, hroot, hP⟩ := hsingle queue hsize hpos hP
      exact ⟨queue, root, by rw [combineLoop, if_neg hsize], hroot, hP⟩

/-- The induction rule for `buildTree`: with a nonzero header entry it returns
a node, and a property kept by every round passes from the leaves to it. -/
theorem buildTree_ok (rt : Runtime) {header : ByteTable UInt8} {P : Multiset Node → Prop}
    (hstep : ∀ before after, Combines before after → P before → P after)
    (hused : usedBytes header ≠ [])
    (hleaves : P ((usedBytes header).map (leafNode header) : List Node)) :
    ∃ root, buildTree rt header = .ok root ∧ P {root} := by
  have hcontents := contents_pushLeaves rt header
  have hpos : 0 < rt.queue.size (pushLeaves rt header) := by
    rw [PriorityQueue.size, hcontents, Multiset.coe_card, List.length_map]
    exact List.length_pos_of_ne_nil hused
  obtain ⟨queue, root, hloop, hroot, hP⟩ :=
    combineLoop_ok rt hstep (rt.queue.size (pushLeaves rt header)) _ (by omega) hpos (hcontents ▸ hleaves)
  obtain ⟨top, htop⟩ := rt.queue.exists_top (q := queue) (by simp [PriorityQueue.size, hroot])
  have hmem : top ∈ rt.queue.contents queue := by
    rw [rt.queue.contents_pop htop]
    exact Multiset.mem_cons_self _ _
  obtain rfl : top = root := by simpa [hroot] using hmem
  refine ⟨top, ?_, hP⟩
  rw [buildTree, hloop]
  simp [htop]

/-- The tree of a header stands for a code tree whose leaves are exactly the
bytes with a nonzero entry, each once. -/
theorem buildTree_represents (rt : Runtime) {header : ByteTable UInt8}
    (hused : usedBytes header ≠ []) :
    ∃ root t, buildTree rt header = .ok root ∧ root.Represents t ∧
      t.symbols.Perm (usedBytes header) := by
  let P (nodes : Multiset Node) : Prop :=
    (∀ node ∈ nodes, ∃ t, node.Represents t) ∧
      nodes.bind (fun node => (node.leaves : Multiset UInt8)) = usedBytes header
  have hstep : ∀ before after, Combines before after → P before → P after := by
    rintro _ _ ⟨left, right, rest, rfl, rfl, -⟩ ⟨hfull, hleaves⟩
    obtain ⟨l, hl⟩ := hfull left (by simp)
    obtain ⟨r, hr⟩ := hfull right (by simp)
    have hnode := Node.Represents.branch (left.value + right.value) 0 hl hr
    refine ⟨?_, ?_⟩
    · intro node hmem
      rcases Multiset.mem_cons.mp hmem with rfl | hmem
      · exact ⟨_, hnode⟩
      · exact hfull node (by simp [hmem])
    · rw [Multiset.cons_bind, hnode.leaves_eq, CodeTree.symbols, ← hl.leaves_eq, ← hr.leaves_eq]
      simpa [Multiset.cons_bind, ← Multiset.coe_add, add_assoc] using hleaves
  have hleaves : P ((usedBytes header).map (leafNode header) : List Node) := by
    refine ⟨?_, ?_⟩
    · intro node hmem
      obtain ⟨c, -, rfl⟩ := List.mem_map.mp (Multiset.mem_coe.mp hmem)
      exact ⟨_, .leaf _ c⟩
    · have hflat : ∀ cs : List UInt8,
          ((cs.map (leafNode header) : List Node) : Multiset Node).bind
            (fun node => (node.leaves : Multiset UInt8)) = cs := by
        intro cs
        induction cs with
        | nil => rfl
        | cons c cs ih =>
          rw [List.map_cons, ← Multiset.cons_coe, Multiset.cons_bind, ih]
          rfl
      exact hflat _
  obtain ⟨root, hroot, hfull, hsymbols⟩ := buildTree_ok rt hstep hused hleaves
  obtain ⟨t, ht⟩ := hfull root (by simp)
  rw [Multiset.singleton_bind, ht.leaves_eq] at hsymbols
  exact ⟨root, t, hroot, ht, Multiset.coe_eq_coe.mp hsymbols⟩

end clockUtils.compression
