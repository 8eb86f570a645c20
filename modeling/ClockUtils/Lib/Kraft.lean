import ClockUtils.Lib.PathLength
import Mathlib.Algebra.BigOperators.Ring.Finset
import Mathlib.Algebra.Field.Rat
import Mathlib.Algebra.Order.Field.Rat
import Mathlib.Tactic.Ring

namespace CodeTree

variable {α : Type}

/-- A code word that continues another one is this one. -/
theorem Word.eq_of_append {t : CodeTree α} {w rest : List Bool} {a b : α} (ha : t.Word w a)
    (hb : t.Word (w ++ rest) b) : a = b ∧ rest = [] := by
  have hdecode : t.decode (w ++ rest) = some (a, rest) := decode_eq_some_iff.mpr ⟨w, ha, rfl⟩
  have hdecode' : t.decode (w ++ rest) = some (b, []) :=
    decode_eq_some_iff.mpr ⟨w ++ rest, hb, (List.append_nil _).symm⟩
  rw [hdecode] at hdecode'
  simpa using hdecode'

/-- The leaves with their depths, when the depth of every leaf is known. -/
theorem placed_eq_map {t : CodeTree α} {depth : Nat} {len : α → Nat}
    (h : ∀ w a, t.Word w a → len a = depth + w.length) :
    t.placed depth = (t.symbols : Multiset α).map fun a => (a, len a) := by
  induction t generalizing depth with
  | leaf a =>
    have ha := h [] a (.leaf a)
    rw [List.length_nil, Nat.add_zero] at ha
    rw [placed, symbols, Multiset.coe_singleton, Multiset.map_singleton, ha]
  | branch l r ihl ihr =>
    have hl : ∀ w a, l.Word w a → len a = depth + 1 + w.length := by
      intro w a hw
      have ha := h (true :: w) a (.left hw)
      rw [List.length_cons] at ha
      omega
    have hr : ∀ w a, r.Word w a → len a = depth + 1 + w.length := by
      intro w a hw
      have ha := h (false :: w) a (.right hw)
      rw [List.length_cons] at ha
      omega
    rw [placed, ihl hl, ihr hr, symbols, ← Multiset.coe_add, Multiset.map_add]

/-- The sum of `2 ^ (-depth)` over leaves at given depths. -/
def kraftOf (leaves : Multiset (α × Nat)) : ℚ :=
  (leaves.map fun leaf => (1 / 2 : ℚ) ^ leaf.2).sum

/-- A vertex shares its part evenly among its two children. -/
theorem kraftOf_placed (t : CodeTree α) (depth : Nat) : kraftOf (t.placed depth) = (1 / 2) ^ depth := by
  induction t generalizing depth with
  | leaf a => rw [placed, kraftOf, Multiset.map_singleton, Multiset.sum_singleton]
  | branch l r ihl ihr =>
    have hadd : kraftOf (placed (.branch l r) depth) =
        kraftOf (l.placed (depth + 1)) + kraftOf (r.placed (depth + 1)) := by
      rw [placed, kraftOf, Multiset.map_add, Multiset.sum_add, kraftOf, kraftOf]
    rw [hadd, ihl, ihr, pow_succ]
    ring

theorem card_placed (t : CodeTree α) (depth : Nat) : (t.placed depth).card = t.symbols.length := by
  rw [← Multiset.card_map Prod.fst, map_fst_placed, Multiset.coe_card]

/-- Of `2 ^ k` a leaf at depth `d` gets `2 ^ (k - d)`. -/
theorem share_eq {d k : Nat} (h : d ≤ k) : (2 : ℚ) ^ k * (1 / 2) ^ d = ((2 ^ (k - d) : Nat) : ℚ) := by
  obtain ⟨e, rfl⟩ := Nat.exists_eq_add_of_le h
  rw [Nat.add_sub_cancel_left, pow_add, mul_right_comm, ← mul_pow, Nat.cast_pow, Nat.cast_ofNat,
    mul_one_div_cancel two_ne_zero, one_pow, one_mul]

theorem share_pos (d k : Nat) : 0 < (2 : ℚ) ^ k * (1 / 2) ^ d :=
  mul_pos (pow_pos two_pos k) (pow_pos (one_div_pos.mpr two_pos) d)

theorem succ_le_depth_add_share (d k : Nat) : ((k + 1 : Nat) : ℚ) ≤ d + 2 ^ k * (1 / 2) ^ d := by
  by_cases h : d ≤ k
  · have hpow : k - d < 2 ^ (k - d) := Nat.lt_two_pow_self
    rw [share_eq h, ← Nat.cast_add, Nat.cast_le]
    omega
  · have hdeep : ((k + 1 : Nat) : ℚ) ≤ d := Nat.cast_le.mpr (by omega)
    exact hdeep.trans (le_add_of_nonneg_right (share_pos d k).le)

/-- A tree with `2 ^ k` leaves that are not all at depth `k` has a greater sum of
depths than a tree with all of them there. -/
theorem depths_eq_or_sum_lt (t : CodeTree α) {k : Nat} (hcard : t.symbols.length = 2 ^ k) :
    (∀ leaf ∈ t.placed 0, leaf.2 = k) ∨ k * 2 ^ k < ((t.placed 0).map Prod.snd).sum := by
  have hleaves := (t.card_placed 0).trans hcard
  have hkraft : ((t.placed 0).map fun leaf => (2 : ℚ) ^ k * (1 / 2) ^ leaf.2).sum = 2 ^ k := by
    have h := t.kraftOf_placed 0
    rw [kraftOf, pow_zero] at h
    rw [Multiset.sum_map_mul_left, h, mul_one]
  by_cases hdeep : ∃ leaf ∈ t.placed 0, k < leaf.2
  · right
    obtain ⟨leaf, hleaf, hlt⟩ := hdeep
    have hstrict : ((k + 1 : Nat) : ℚ) < leaf.2 + 2 ^ k * (1 / 2) ^ leaf.2 := by
      have hle : ((k + 1 : Nat) : ℚ) ≤ leaf.2 := Nat.cast_le.mpr hlt
      exact hle.trans_lt (lt_add_of_pos_right _ (share_pos leaf.2 k))
    have hsum := Multiset.sum_lt_sum (s := t.placed 0) (f := fun _ => ((k + 1 : Nat) : ℚ))
      (fun leaf _ => succ_le_depth_add_share leaf.2 k) ⟨leaf, hleaf, hstrict⟩
    have hdepths : ((t.placed 0).map fun leaf => (leaf.2 : ℚ)).sum =
        (((t.placed 0).map Prod.snd).sum : Nat) := by
      rw [Nat.cast_multiset_sum, Multiset.map_map]
      rfl
    rw [Multiset.map_const', Multiset.sum_replicate, hleaves, nsmul_eq_mul, Multiset.sum_map_add,
      hkraft, hdepths] at hsum
    have hnat : 2 ^ k * (k + 1) < ((t.placed 0).map Prod.snd).sum + 2 ^ k := by
      exact_mod_cast hsum
    rw [Nat.mul_add, Nat.mul_one, Nat.mul_comm] at hnat
    omega
  · left
    intro leaf hleaf
    have hle : ∀ leaf ∈ t.placed 0, leaf.2 ≤ k :=
      fun leaf hleaf => not_lt.mp fun hlt => hdeep ⟨leaf, hleaf, hlt⟩
    by_contra hne
    have hone : ∀ leaf ∈ t.placed 0, (1 : ℚ) ≤ 2 ^ k * (1 / 2) ^ leaf.2 := by
      intro leaf hleaf
      rw [share_eq (hle leaf hleaf)]
      exact_mod_cast Nat.one_le_two_pow
    have hstrict : (1 : ℚ) < 2 ^ k * (1 / 2) ^ leaf.2 := by
      have hless := hle leaf hleaf
      rw [share_eq hless]
      exact_mod_cast Nat.one_lt_two_pow (by omega)
    have hsum := Multiset.sum_lt_sum (s := t.placed 0) (f := fun _ => (1 : ℚ)) hone
      ⟨leaf, hleaf, hstrict⟩
    rw [Multiset.map_const', Multiset.sum_replicate, hleaves, nsmul_eq_mul, mul_one, hkraft,
      Nat.cast_pow, Nat.cast_ofNat] at hsum
    exact lt_irrefl _ hsum

/-- Up to `2 ^ d` symbols have a tree of depth `d`. -/
theorem exists_flat {symbols : List α} (hne : symbols ≠ []) {d : Nat}
    (hlength : symbols.length ≤ 2 ^ d) :
    ∃ t : CodeTree α, t.symbols = symbols ∧
      ∀ depth, ∀ leaf ∈ t.placed depth, leaf.2 ≤ depth + d := by
  induction d generalizing symbols with
  | zero =>
    obtain ⟨a, rfl⟩ := List.length_eq_one_iff.mp
      (Nat.le_antisymm hlength (List.length_pos_of_ne_nil hne))
    refine ⟨.leaf a, rfl, fun depth leaf hleaf => ?_⟩
    rw [placed, Multiset.mem_singleton] at hleaf
    rw [hleaf]
    exact Nat.le_refl _
  | succ d ih =>
    by_cases hfits : symbols.length ≤ 2 ^ d
    · obtain ⟨t, ht, hdepth⟩ := ih hne hfits
      exact ⟨t, ht, fun depth leaf hleaf => (hdepth depth leaf hleaf).trans (by omega)⟩
    · have hpos := Nat.two_pow_pos d
      rw [Nat.pow_succ] at hlength
      have htake : (symbols.take (2 ^ d)).length = 2 ^ d := by
        rw [List.length_take]
        omega
      have hdrop : (symbols.drop (2 ^ d)).length = symbols.length - 2 ^ d := List.length_drop
      have htakeNe : symbols.take (2 ^ d) ≠ [] := List.ne_nil_of_length_pos (by omega)
      have hdropNe : symbols.drop (2 ^ d) ≠ [] := List.ne_nil_of_length_pos (by omega)
      obtain ⟨l, hl, hleft⟩ := ih htakeNe htake.le
      obtain ⟨r, hr, hright⟩ := ih hdropNe (by omega)
      refine ⟨.branch l r, ?_, fun depth leaf hleaf => ?_⟩
      · rw [CodeTree.symbols, hl, hr, List.take_append_drop]
      · rw [placed, Multiset.mem_add] at hleaf
        rcases hleaf with hleaf | hleaf
        · exact (hleft (depth + 1) leaf hleaf).trans (by omega)
        · exact (hright (depth + 1) leaf hleaf).trans (by omega)

theorem costOf_placed_le (weight : α → Nat) {t : CodeTree α} {depth top : Nat}
    (h : ∀ leaf ∈ t.placed depth, leaf.2 ≤ top) :
    costOf weight (t.placed depth) ≤ (t.symbols.map weight).sum * top := by
  have hsum : (t.symbols.map weight).sum = ((t.placed depth).map fun leaf => weight leaf.1).sum := by
    rw [← Multiset.sum_coe, ← Multiset.map_coe, ← map_fst_placed t depth, Multiset.map_map]
    rfl
  rw [hsum, ← Multiset.sum_map_mul_right, costOf]
  exact Multiset.sum_map_le_sum_map _ _ fun leaf hleaf => Nat.mul_le_mul_left _ (h leaf hleaf)

end CodeTree
