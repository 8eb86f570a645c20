import Mathlib.Data.Nat.Fib.Basic
import Mathlib.Data.Multiset.ZeroCons
import ClockUtils.Lib.CodeTree

namespace CodeTree

variable {α : Type} {w : α → Nat}

/-- The sum of the weights of the symbols. -/
def weight (w : α → Nat) (t : CodeTree α) : Nat :=
  (t.symbols.map w).sum

theorem weight_branch (l r : CodeTree α) : (branch l r).weight w = l.weight w + r.weight w := by
  simp [weight, symbols]

/-- The longest way from the root to a leaf. -/
def height : CodeTree α → Nat
  | .leaf _ => 0
  | .branch l r => max l.height r.height + 1

theorem Word.length_le_height {t : CodeTree α} {word : List Bool} {a : α} (h : t.Word word a) :
    word.length ≤ t.height := by
  induction h with
  | leaf symbol => exact Nat.zero_le _
  | left h ih =>
    rw [List.length_cons, height]
    omega
  | right h ih =>
    rw [List.length_cons, height]
    omega

/-- The weight of the heavier child. -/
def childWeight (w : α → Nat) : CodeTree α → Nat
  | .leaf _ => 0
  | .branch l r => max (l.weight w) (r.weight w)

/-- No child of a vertex is heavier than the vertex's sibling. -/
def Graded (w : α → Nat) : CodeTree α → Prop
  | .leaf _ => True
  | .branch l r => l.childWeight w ≤ r.weight w ∧ r.childWeight w ≤ l.weight w ∧
      l.Graded w ∧ r.Graded w

theorem weight_pos {t : CodeTree α} (hw : ∀ a ∈ t.symbols, 0 < w a) : 0 < t.weight w := by
  induction t with
  | leaf a => simpa [weight, symbols] using hw
  | branch l r ihl ihr =>
    have hl := ihl fun a ha => hw a (List.mem_append_left _ ha)
    rw [weight_branch]
    omega

/-- The sibling of a vertex is at least as heavy as the vertex's heavier child,
which carries all of the height but one. -/
theorem fib_le_sibling {l r : CodeTree α} (hPos : 0 < r.weight w)
    (hSibling : l.childWeight w ≤ r.weight w)
    (hChild : l.height = 0 ∨ Nat.fib (l.height + 1) ≤ l.childWeight w) :
    Nat.fib (l.height + 1) ≤ r.weight w := by
  rcases hChild with hLeaf | hChild
  · rw [hLeaf]
    exact hPos
  · exact hChild.trans hSibling

theorem fib_le_childWeight {l r : CodeTree α} (hl : Nat.fib (l.height + 2) ≤ l.weight w)
    (hr : Nat.fib (r.height + 2) ≤ r.weight w) :
    Nat.fib ((branch l r).height + 1) ≤ (branch l r).childWeight w := by
  rw [height, childWeight, le_max_iff]
  rcases max_choice l.height r.height with hMax | hMax
  · rw [hMax]
    exact .inl hl
  · rw [hMax]
    exact .inr hr

/-- The weight of a graded tree grows with its height as the Fibonacci numbers do. -/
theorem Graded.fib_le_weight {t : CodeTree α} (h : t.Graded w) (hw : ∀ a ∈ t.symbols, 0 < w a) :
    Nat.fib (t.height + 2) ≤ t.weight w ∧
      (t.height = 0 ∨ Nat.fib (t.height + 1) ≤ t.childWeight w) := by
  induction t with
  | leaf a =>
    have hPos := weight_pos hw
    exact ⟨hPos, .inl rfl⟩
  | branch l r ihl ihr =>
    obtain ⟨hLeft, hRight, hl, hr⟩ := h
    have hwl : ∀ a ∈ l.symbols, 0 < w a := fun a ha => hw a (List.mem_append_left _ ha)
    have hwr : ∀ a ∈ r.symbols, 0 < w a := fun a ha => hw a (List.mem_append_right _ ha)
    obtain ⟨hFibL, hChildL⟩ := ihl hl hwl
    obtain ⟨hFibR, hChildR⟩ := ihr hr hwr
    refine ⟨?_, .inr (fib_le_childWeight hFibL hFibR)⟩
    rw [weight_branch, height]
    rcases max_choice l.height r.height with hMax | hMax
    · have hOther := fib_le_sibling (weight_pos hwr) hLeft hChildL
      rw [hMax, Nat.fib_add_two, Nat.add_comm (l.weight w)]
      exact Nat.add_le_add hOther hFibL
    · have hOther := fib_le_sibling (weight_pos hwl) hRight hChildR
      rw [hMax, Nat.fib_add_two]
      exact Nat.add_le_add hOther hFibR

/-- What holds of the trees of a forest when the two lightest ones are joined, again
and again. -/
structure GradedForest (w : α → Nat) (trees : Multiset (CodeTree α)) : Prop where
  graded : ∀ t ∈ trees, t.Graded w
  children : ∀ t rest, trees = t ::ₘ rest → ∀ u ∈ rest, t.childWeight w ≤ u.weight w

theorem GradedForest.of_leaves {trees : Multiset (CodeTree α)} (h : ∀ t ∈ trees, ∃ a, t = .leaf a) :
    GradedForest w trees := by
  refine ⟨fun t ht => ?_, fun t rest hTrees u _ => ?_⟩
  · obtain ⟨a, rfl⟩ := h t ht
    trivial
  · obtain ⟨a, rfl⟩ := h t (hTrees ▸ Multiset.mem_cons_self t rest)
    exact Nat.zero_le _

theorem GradedForest.join {l r : CodeTree α} {rest : Multiset (CodeTree α)}
    (h : GradedForest w (l ::ₘ r ::ₘ rest)) (hLeft : ∀ t ∈ rest, l.weight w ≤ t.weight w)
    (hRight : ∀ t ∈ rest, r.weight w ≤ t.weight w) : GradedForest w (branch l r ::ₘ rest) := by
  refine ⟨fun t ht => ?_, fun t others hTrees u hu => ?_⟩
  · rcases Multiset.mem_cons.mp ht with rfl | ht
    · refine ⟨h.children l _ rfl r (by simp), ?_, h.graded l (by simp), h.graded r (by simp)⟩
      exact h.children r (l ::ₘ rest) (Multiset.cons_swap l r rest) l (by simp)
    · exact h.graded t (by simp [ht])
  · rcases Multiset.cons_eq_cons.mp hTrees with ⟨rfl, rfl⟩ | ⟨-, others', rfl, rfl⟩
    · exact max_le (hLeft u hu) (hRight u hu)
    · have hSwap : l ::ₘ r ::ₘ t ::ₘ others' = t ::ₘ l ::ₘ r ::ₘ others' := by
        rw [Multiset.cons_swap r t, Multiset.cons_swap l t]
      have hOld := h.children t _ hSwap
      rcases Multiset.mem_cons.mp hu with rfl | hu
      · have hl := hOld l (by simp)
        rw [weight_branch]
        omega
      · exact hOld u (by simp [hu])

end CodeTree
