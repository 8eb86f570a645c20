import Mathlib.Algebra.GroupWithZero.Nat
import Mathlib.Algebra.BigOperators.Group.Multiset.Basic
import Mathlib.Algebra.Order.BigOperators.Group.Multiset
import ClockUtils.Lib.CodeTree

namespace CodeTree

variable {α β : Type}

/-- The leaves of a tree whose root has the given depth, each with its depth. -/
def placed : CodeTree α → Nat → Multiset (α × Nat)
  | .leaf a, depth => {(a, depth)}
  | .branch l r, depth => l.placed (depth + 1) + r.placed (depth + 1)

/-- The sum of weight times depth over leaves at given depths. -/
def costOf (weight : α → Nat) (leaves : Multiset (α × Nat)) : Nat :=
  (leaves.map fun leaf => weight leaf.1 * leaf.2).sum

/-- The weighted path length of a tree. -/
def pathLength (weight : α → Nat) (t : CodeTree α) : Nat :=
  costOf weight (t.placed 0)

@[simp]
theorem costOf_zero (weight : α → Nat) : costOf weight 0 = 0 := rfl

@[simp]
theorem costOf_cons (weight : α → Nat) (leaf : α × Nat) (leaves : Multiset (α × Nat)) :
    costOf weight (leaf ::ₘ leaves) = weight leaf.1 * leaf.2 + costOf weight leaves := by
  simp only [costOf, Multiset.map_cons, Multiset.sum_cons]

@[simp]
theorem costOf_add (weight : α → Nat) (leaves more : Multiset (α × Nat)) :
    costOf weight (leaves + more) = costOf weight leaves + costOf weight more := by
  simp only [costOf, Multiset.map_add, Multiset.sum_add]

theorem map_fst_placed (t : CodeTree α) (depth : Nat) :
    (t.placed depth).map Prod.fst = (t.symbols : Multiset α) := by
  induction t generalizing depth with
  | leaf a => rfl
  | branch l r ihl ihr =>
    rw [placed, Multiset.map_add, ihl, ihr, symbols, Multiset.coe_add]

/-- One level further down every leaf costs its weight more. -/
theorem costOf_placed_succ (weight : α → Nat) (t : CodeTree α) (depth : Nat) :
    costOf weight (t.placed (depth + 1)) =
      costOf weight (t.placed depth) + (t.symbols.map weight).sum := by
  induction t generalizing depth with
  | leaf a =>
    simp only [placed, costOf, Multiset.map_singleton, Multiset.sum_singleton, symbols,
      List.map_cons, List.map_nil, List.sum_singleton, Nat.mul_add, Nat.mul_one]
  | branch l r ihl ihr =>
    simp only [placed, costOf_add, ihl (depth + 1), ihr (depth + 1), symbols, List.map_append,
      List.sum_append]
    omega

theorem pathLength_branch (weight : α → Nat) (l r : CodeTree α) :
    pathLength weight (.branch l r) = pathLength weight l + pathLength weight r +
      ((l.symbols.map weight).sum + (r.symbols.map weight).sum) := by
  rw [pathLength, placed, costOf_add, costOf_placed_succ, costOf_placed_succ, pathLength, pathLength]
  omega

theorem exists_of_map_eq_add {f : α → β} {s : Multiset α} {u v : Multiset β}
    (h : s.map f = u + v) : ∃ s₁ s₂, s = s₁ + s₂ ∧ s₁.map f = u ∧ s₂.map f = v := by
  classical
  induction u using Multiset.induction_on generalizing s with
  | empty => exact ⟨0, s, (zero_add s).symm, rfl, by rw [h, zero_add]⟩
  | cons b u ih =>
    rw [Multiset.cons_add, ← Multiset.map_eq_cons] at h
    obtain ⟨a, ha, rfl, hrest⟩ := h
    obtain ⟨s₁, s₂, hs, rfl, rfl⟩ := ih hrest
    refine ⟨a ::ₘ s₁, s₂, ?_, Multiset.map_cons _ _ _, rfl⟩
    rw [Multiset.cons_add, ← hs, Multiset.cons_erase ha]

/-- The leaves of a tree can be exchanged for any others at the same depths. -/
theorem exists_placed (t : CodeTree β) (depth : Nat) {leaves : Multiset (α × Nat)}
    (h : leaves.map Prod.snd = (t.placed depth).map Prod.snd) :
    ∃ t' : CodeTree α, t'.placed depth = leaves := by
  induction t generalizing depth leaves with
  | leaf b =>
    rw [placed, Multiset.map_singleton, Multiset.map_eq_singleton] at h
    obtain ⟨⟨a, depth'⟩, rfl, rfl⟩ := h
    exact ⟨.leaf a, rfl⟩
  | branch l r ihl ihr =>
    rw [placed, Multiset.map_add] at h
    obtain ⟨left, right, rfl, hleft, hright⟩ := exists_of_map_eq_add h
    obtain ⟨l', hl'⟩ := ihl (depth + 1) hleft
    obtain ⟨r', hr'⟩ := ihr (depth + 1) hright
    exact ⟨.branch l' r', by rw [placed, hl', hr']⟩

/-- Two leaves at depth `top + 1`, which is the greatest, are the children of one
vertex. This vertex can become a leaf in their place. -/
def Contracts (t : CodeTree α) (depth top : Nat) : Prop :=
  ∃ (depths : Multiset Nat) (t' : CodeTree α),
    (t.placed depth).map Prod.snd = (top + 1) ::ₘ (top + 1) ::ₘ depths ∧
      (∀ e ∈ depths, e ≤ top + 1) ∧ (t'.placed depth).map Prod.snd = top ::ₘ depths

theorem Contracts.le {t : CodeTree α} {depth top : Nat} (h : t.Contracts depth top) :
    ∀ e ∈ (t.placed depth).map Prod.snd, e ≤ top + 1 := by
  obtain ⟨depths, t', hplaced, hdepths, -⟩ := h
  intro e he
  rw [hplaced, Multiset.mem_cons, Multiset.mem_cons] at he
  rcases he with rfl | rfl | he
  · exact Nat.le_refl _
  · exact Nat.le_refl _
  · exact hdepths e he

theorem Contracts.left {l r : CodeTree α} {depth top : Nat} (h : l.Contracts (depth + 1) top)
    (hr : ∀ e ∈ (r.placed (depth + 1)).map Prod.snd, e ≤ top + 1) :
    (branch l r).Contracts depth top := by
  obtain ⟨depths, l', hplaced, hdepths, hl'⟩ := h
  refine ⟨depths + (r.placed (depth + 1)).map Prod.snd, .branch l' r, ?_, fun e he => ?_, ?_⟩
  · rw [placed, Multiset.map_add, hplaced, Multiset.cons_add, Multiset.cons_add]
  · exact (Multiset.mem_add.mp he).elim (hdepths e) (hr e)
  · rw [placed, Multiset.map_add, hl', Multiset.cons_add]

theorem Contracts.right {l r : CodeTree α} {depth top : Nat} (h : r.Contracts (depth + 1) top)
    (hl : ∀ e ∈ (l.placed (depth + 1)).map Prod.snd, e ≤ top + 1) :
    (branch l r).Contracts depth top := by
  obtain ⟨depths, t', hplaced, hdepths, ht'⟩ := h.left hl
  refine ⟨depths, t', ?_, hdepths, ht'⟩
  rw [← hplaced, placed, placed, add_comm]

/-- Every tree with two leaves or more has such a pair. -/
theorem eq_leaf_or_contracts (t : CodeTree α) (depth : Nat) :
    (∃ a, t = leaf a) ∨ ∃ top, depth ≤ top ∧ t.Contracts depth top := by
  induction t generalizing depth with
  | leaf a => exact .inl ⟨a, rfl⟩
  | branch l r ihl ihr =>
    right
    have hleaf : ∀ (a : α) {top : Nat}, depth ≤ top →
        ∀ e ∈ ((leaf a).placed (depth + 1)).map Prod.snd, e ≤ top + 1 := by
      intro a top htop e he
      rw [placed, Multiset.map_singleton, Multiset.mem_singleton] at he
      omega
    rcases ihl (depth + 1) with ⟨a, rfl⟩ | ⟨topl, htopl, hl⟩
    · rcases ihr (depth + 1) with ⟨b, rfl⟩ | ⟨topr, htopr, hr⟩
      · exact ⟨depth, Nat.le_refl _, 0, .leaf a, rfl, by simp, rfl⟩
      · exact ⟨topr, by omega, hr.right (hleaf a (by omega))⟩
    · rcases ihr (depth + 1) with ⟨b, rfl⟩ | ⟨topr, htopr, hr⟩
      · exact ⟨topl, by omega, hl.left (hleaf b (by omega))⟩
      · by_cases hdeeper : topr ≤ topl
        · exact ⟨topl, by omega, hl.left fun e he => (hr.le e he).trans (by omega)⟩
        · exact ⟨topr, by omega, hr.right fun e he => (hl.le e he).trans (by omega)⟩

/-- The lightest item can take the greatest depth: the item that has this depth
takes the place of the lightest one. -/
theorem exists_exchange (weight : α → Nat) {leaves : Multiset (α × Nat)} {a : α}
    {items : Multiset α} {top : Nat} {depths : Multiset Nat}
    (hitems : leaves.map Prod.fst = a ::ₘ items) (hdepths : leaves.map Prod.snd = top ::ₘ depths)
    (hlight : ∀ b ∈ items, weight a ≤ weight b) (hdeep : ∀ e ∈ depths, e ≤ top) :
    ∃ leaves' : Multiset (α × Nat), leaves'.map Prod.fst = items ∧ leaves'.map Prod.snd = depths ∧
      weight a * top + costOf weight leaves' ≤ costOf weight leaves := by
  classical
  obtain ⟨⟨a', e⟩, hmem, rfl, hrest⟩ := (Multiset.map_eq_cons _ _ _ _).mpr hitems
  obtain ⟨leaves₁, rfl⟩ := Multiset.exists_cons_of_mem hmem
  rw [Multiset.erase_cons_head] at hrest
  rw [Multiset.map_cons, Multiset.cons_eq_cons] at hdepths
  rcases hdepths with ⟨rfl, hdepths⟩ | ⟨-, rest, hdepths, rfl⟩
  · exact ⟨leaves₁, hrest, hdepths, by simp⟩
  · obtain ⟨⟨b, top'⟩, hmem', rfl, hrest'⟩ := (Multiset.map_eq_cons _ _ _ _).mpr hdepths
    obtain ⟨leaves₂, rfl⟩ := Multiset.exists_cons_of_mem hmem'
    rw [Multiset.erase_cons_head] at hrest'
    refine ⟨(b, e) ::ₘ leaves₂, ?_, ?_, ?_⟩
    · rw [← hrest, Multiset.map_cons, Multiset.map_cons]
    · rw [Multiset.map_cons, hrest']
    · have hweight : weight a' ≤ weight b := hlight b (by rw [← hrest]; simp)
      have hdepth : e ≤ top' := hdeep e (by simp)
      obtain ⟨more, rfl⟩ := Nat.exists_eq_add_of_le hdepth
      have hsaved : weight a' * more ≤ weight b * more := Nat.mul_le_mul_right more hweight
      simp only [costOf_cons, Nat.mul_add]
      omega

/-- Where `a` and `b` are lightest, an item of their common weight can stand for
both of them, and this saves their weight once at least. -/
theorem exists_merged (weight : α → Nat) {t : CodeTree α} {a b c : α} {items : Multiset α}
    (hitems : (t.symbols : Multiset α) = a ::ₘ b ::ₘ items)
    (ha : ∀ x ∈ b ::ₘ items, weight a ≤ weight x) (hb : ∀ x ∈ items, weight b ≤ weight x)
    (hc : weight c = weight a + weight b) :
    ∃ t' : CodeTree α, (t'.symbols : Multiset α) = c ::ₘ items ∧
      pathLength weight t' + weight c ≤ pathLength weight t := by
  rcases eq_leaf_or_contracts t 0 with ⟨x, rfl⟩ | ⟨top, -, depths, shape, hplaced, hdeep, hshape⟩
  · have hcard := congrArg Multiset.card hitems
    simp [symbols] at hcard
  · rw [← map_fst_placed t 0] at hitems
    obtain ⟨leaves₁, hitems₁, hdepths₁, hcost₁⟩ := exists_exchange weight hitems hplaced ha (by
      intro e he
      rcases Multiset.mem_cons.mp he with rfl | he
      · exact Nat.le_refl _
      · exact hdeep e he)
    obtain ⟨leaves₂, hitems₂, hdepths₂, hcost₂⟩ := exists_exchange weight hitems₁ hdepths₁ hb hdeep
    obtain ⟨t', ht'⟩ := exists_placed shape 0
      (show ((c, top) ::ₘ leaves₂).map Prod.snd = _ by rw [Multiset.map_cons, hdepths₂, hshape])
    refine ⟨t', ?_, ?_⟩
    · rw [← map_fst_placed t' 0, ht', Multiset.map_cons, hitems₂]
    · rw [pathLength, ht', costOf_cons, pathLength, hc]
      simp only [Nat.mul_add, Nat.mul_one, Nat.add_mul] at hcost₁ hcost₂ ⊢
      omega

/-- Renaming the leaves. -/
def map (f : α → β) : CodeTree α → CodeTree β
  | .leaf a => .leaf (f a)
  | .branch l r => .branch (l.map f) (r.map f)

theorem symbols_map (f : α → β) (t : CodeTree α) : (t.map f).symbols = t.symbols.map f := by
  induction t with
  | leaf a => rfl
  | branch l r ihl ihr => rw [map, symbols, ihl, ihr, symbols, List.map_append]

theorem pathLength_map (weight : β → Nat) (f : α → β) (t : CodeTree α) :
    pathLength weight (t.map f) = pathLength (fun a => weight (f a)) t := by
  induction t with
  | leaf a => rfl
  | branch l r ihl ihr =>
    rw [map, pathLength_branch, pathLength_branch, ihl, ihr, symbols_map, symbols_map, List.map_map,
      List.map_map]
    rfl

end CodeTree
