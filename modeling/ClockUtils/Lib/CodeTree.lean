import Mathlib.Data.List.Forall2

/-- A binary tree in which every inner vertex has two children and every leaf
carries a symbol. The path from the root to a leaf is the symbol's code word. -/
inductive CodeTree (α : Type) where
  | leaf (symbol : α)
  | branch (left right : CodeTree α)
  deriving DecidableEq

namespace CodeTree

/-- `t.Word w a` holds when following `w` from the root, `true` to the left
and `false` to the right, ends exactly at a leaf that carries `a`. -/
inductive Word {α : Type} : CodeTree α → List Bool → α → Prop where
  | leaf (symbol : α) : Word (.leaf symbol) [] symbol
  | left {l r : CodeTree α} {w : List Bool} {a : α} (h : Word l w a) :
      Word (.branch l r) (true :: w) a
  | right {l r : CodeTree α} {w : List Bool} {a : α} (h : Word r w a) :
      Word (.branch l r) (false :: w) a

/-- The symbols at the leaves, from left to right. -/
def symbols {α : Type} : CodeTree α → List α
  | .leaf a => [a]
  | .branch l r => l.symbols ++ r.symbols

theorem exists_word_of_mem_symbols {α : Type} {t : CodeTree α} {a : α} (h : a ∈ t.symbols) :
    ∃ w, t.Word w a := by
  induction t with
  | leaf b =>
    obtain rfl : a = b := by simpa [symbols] using h
    exact ⟨[], .leaf a⟩
  | branch l r ihl ihr =>
    rcases List.mem_append.mp h with hl | hr
    · obtain ⟨w, hw⟩ := ihl hl
      exact ⟨true :: w, .left hw⟩
    · obtain ⟨w, hw⟩ := ihr hr
      exact ⟨false :: w, .right hw⟩

theorem Word.mem_symbols {α : Type} {t : CodeTree α} {w : List Bool} {a : α} (h : t.Word w a) :
    a ∈ t.symbols := by
  induction h with
  | leaf => simp [symbols]
  | left _ ih => simp [symbols, ih]
  | right _ ih => simp [symbols, ih]

/-- A code word is shorter than the number of leaves. -/
theorem Word.length_lt {α : Type} {t : CodeTree α} {w : List Bool} {a : α} (h : t.Word w a) :
    w.length < t.symbols.length := by
  have hpos : ∀ t : CodeTree α, 0 < t.symbols.length := by
    intro t
    induction t with
    | leaf => simp [symbols]
    | branch l r ihl ihr =>
      rw [symbols, List.length_append]
      omega
  induction h with
  | leaf => simp [symbols]
  | @left l r w a _ ih =>
    have hr := hpos r
    rw [symbols, List.length_append, List.length_cons]
    omega
  | @right l r w a _ ih =>
    have hl := hpos l
    rw [symbols, List.length_append, List.length_cons]
    omega

/-- In a tree with a second symbol no code word is empty. -/
theorem Word.ne_nil {α : Type} {t : CodeTree α} {w : List Bool} {a b : α} (h : t.Word w a)
    (hb : b ∈ t.symbols) (hne : b ≠ a) : w ≠ [] := by
  cases h with
  | leaf =>
    rw [symbols, List.mem_singleton] at hb
    exact absurd hb hne
  | left _ => exact List.cons_ne_nil _ _
  | right _ => exact List.cons_ne_nil _ _

/-- Read one symbol off the front of a bit string: walk down from the root
until a leaf is reached and return the bits that are left. Fails when the bits
run out inside the tree. -/
def decode {α : Type} : CodeTree α → List Bool → Option (α × List Bool)
  | .leaf a, bits => some (a, bits)
  | .branch _ _, [] => none
  | .branch l r, b :: bits => if b then l.decode bits else r.decode bits

theorem decode_eq_some_iff {α : Type} {t : CodeTree α} {bits rest : List Bool} {a : α} :
    t.decode bits = some (a, rest) ↔ ∃ w, t.Word w a ∧ bits = w ++ rest := by
  induction t generalizing bits with
  | leaf b =>
    constructor
    · intro h
      obtain ⟨rfl, rfl⟩ : b = a ∧ bits = rest := by simpa [decode] using h
      exact ⟨[], .leaf b, rfl⟩
    · rintro ⟨w, hw, rfl⟩
      cases hw
      rfl
  | branch l r ihl ihr =>
    cases bits with
    | nil =>
      constructor
      · simp [decode]
      · rintro ⟨w, hw, hbits⟩
        cases hw <;> simp at hbits
    | cons b bits =>
      cases b with
      | true =>
        rw [decode, if_pos rfl, ihl]
        constructor
        · rintro ⟨w, hw, rfl⟩
          exact ⟨true :: w, .left hw, rfl⟩
        · rintro ⟨w, hw, hbits⟩
          cases hw with
          | left hw => exact ⟨_, hw, by simpa using hbits⟩
          | right hw => simp at hbits
      | false =>
        rw [decode, if_neg Bool.false_ne_true, ihr]
        constructor
        · rintro ⟨w, hw, rfl⟩
          exact ⟨false :: w, .right hw, rfl⟩
        · rintro ⟨w, hw, hbits⟩
          cases hw with
          | left hw => simp at hbits
          | right hw => exact ⟨_, hw, by simpa using hbits⟩

/-- Read `n` symbols off the front of a bit string. -/
def decodeMany {α : Type} (t : CodeTree α) : Nat → List Bool → Option (List α × List Bool)
  | 0, bits => some ([], bits)
  | n + 1, bits => do
    let (a, bits) ← t.decode bits
    let (as, bits) ← t.decodeMany n bits
    return (a :: as, bits)

/-- Decoding succeeds exactly on the strings that begin with a concatenation
of code words, and returns the symbols of these words. -/
theorem decodeMany_eq_some_iff {α : Type} {t : CodeTree α} {n : Nat} {bits rest : List Bool}
    {as : List α} :
    t.decodeMany n bits = some (as, rest) ↔
      as.length = n ∧ ∃ ws, List.Forall₂ t.Word ws as ∧ bits = ws.flatten ++ rest := by
  induction n generalizing bits as rest with
  | zero =>
    rw [decodeMany, Option.some.injEq, Prod.mk.injEq, List.length_eq_zero_iff]
    constructor
    · rintro ⟨rfl, rfl⟩
      exact ⟨rfl, [], .nil, rfl⟩
    · rintro ⟨rfl, ws, hws, hbits⟩
      cases hws
      exact ⟨rfl, hbits⟩
  | succ n ih =>
    simp only [decodeMany, Option.bind_eq_bind, Option.bind_eq_some_iff, Option.pure_def,
      Option.some.injEq, Prod.mk.injEq, Prod.exists, decode_eq_some_iff, ih]
    constructor
    · rintro ⟨a, bits', ⟨w, hw, rfl⟩, as', rest', ⟨rfl, ws, hws, rfl⟩, rfl, rfl⟩
      exact ⟨rfl, w :: ws, .cons hw hws, by simp⟩
    · rintro ⟨hlen, ws, hws, rfl⟩
      cases hws with
      | nil => simp at hlen
      | cons hw hws =>
        refine ⟨_, _, ⟨_, hw, ?_⟩, _, _, ⟨by simpa using hlen, _, hws, rfl⟩, rfl, rfl⟩
        simp

/-- Code words are cut off a bit string in one way only. -/
theorem words_unique {α : Type} {t : CodeTree α} {ws ws' : List (List Bool)} {as as' : List α}
    {rest rest' : List Bool} (hws : List.Forall₂ t.Word ws as) (hws' : List.Forall₂ t.Word ws' as')
    (hlength : as.length = as'.length) (hbits : ws.flatten ++ rest = ws'.flatten ++ rest') :
    as = as' ∧ ws.flatten = ws'.flatten := by
  have hdecode : t.decodeMany as'.length (ws.flatten ++ rest) = some (as, rest) :=
    decodeMany_eq_some_iff.mpr ⟨hlength, ws, hws, rfl⟩
  have hdecode' : t.decodeMany as'.length (ws.flatten ++ rest) = some (as', rest') :=
    decodeMany_eq_some_iff.mpr ⟨rfl, ws', hws', hbits⟩
  obtain ⟨rfl, rfl⟩ : as = as' ∧ rest = rest' := by simpa using hdecode.symm.trans hdecode'
  exact ⟨rfl, List.append_cancel_right hbits⟩

end CodeTree
