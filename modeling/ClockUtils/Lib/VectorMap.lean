import Mathlib.Data.List.Nodup
import Std.Data.ExtTreeMap

/-- A `std::map` whose values are vectors. Its keys are kept in the order of
`compare`, which is the order of iteration. -/
abbrev VectorMap (κ α : Type) [Ord κ] := Std.ExtTreeMap κ (List α)

namespace VectorMap

/-- `map[key]` as a value: a missing key stands for the empty vector. -/
def vector {κ α : Type} [Ord κ] [Std.TransOrd κ] (map : VectorMap κ α) (key : κ) : List α :=
  map.getD key []

/-- `map[key]` as an access, which inserts a missing key. -/
def touch {κ α : Type} [Ord κ] [Std.TransOrd κ] (map : VectorMap κ α) (key : κ) : VectorMap κ α :=
  map.insertIfNew key []

/-- `map[key].push_back(x)` -/
def push {κ α : Type} [Ord κ] [Std.TransOrd κ] (map : VectorMap κ α) (key : κ) (x : α) :
    VectorMap κ α :=
  map.insert key (map.vector key ++ [x])

theorem vector_eq_getElem? {κ α : Type} [Ord κ] [Std.TransOrd κ] (map : VectorMap κ α) (key : κ) :
    map.vector key = map[key]?.getD [] :=
  Std.ExtTreeMap.getD_eq_getD_getElem?

theorem vector_of_some {κ α : Type} [Ord κ] [Std.TransOrd κ] {map : VectorMap κ α} {key : κ}
    {xs : List α} (h : map[key]? = some xs) : map.vector key = xs := by
  rw [vector_eq_getElem?, h, Option.getD_some]

theorem vector_of_none {κ α : Type} [Ord κ] [Std.TransOrd κ] {map : VectorMap κ α} {key : κ}
    (h : map[key]? = none) : map.vector key = [] := by
  rw [vector_eq_getElem?, h, Option.getD_none]

theorem mem_push_iff {κ α : Type} [Ord κ] [Std.TransOrd κ] [Std.LawfulEqOrd κ]
    (map : VectorMap κ α) (key query : κ) (x : α) :
    query ∈ map.push key x ↔ query = key ∨ query ∈ map := by
  rw [push, Std.ExtTreeMap.mem_insert, Std.LawfulEqCmp.compare_eq_iff_eq, eq_comm]

section Lookup

variable {κ α : Type} [Ord κ] [Std.TransOrd κ] [Std.LawfulEqOrd κ] [DecidableEq κ]

theorem getElem?_insert (map : VectorMap κ α) (key query : κ) (xs : List α) :
    (map.insert key xs)[query]? = if key = query then some xs else map[query]? := by
  simp only [Std.ExtTreeMap.getElem?_insert, Std.LawfulEqCmp.compare_eq_iff_eq]

theorem getElem?_erase (map : VectorMap κ α) (key query : κ) :
    (map.erase key)[query]? = if key = query then none else map[query]? := by
  simp only [Std.ExtTreeMap.getElem?_erase, Std.LawfulEqCmp.compare_eq_iff_eq]

theorem getElem?_push (map : VectorMap κ α) (key query : κ) (x : α) :
    (map.push key x)[query]? = if key = query then some (map.vector key ++ [x]) else map[query]? :=
  map.getElem?_insert key query _

theorem getElem?_touch (map : VectorMap κ α) (key query : κ) :
    (map.touch key)[query]? = if key = query then some (map.vector key) else map[query]? := by
  rw [touch, Std.ExtTreeMap.getElem?_insertIfNew, vector_eq_getElem?]
  by_cases hkey : key = query
  · subst hkey
    cases hget : map[key]? with
    | none => simp [Std.ExtTreeMap.mem_iff_isSome_getElem?, hget]
    | some xs => simp [Std.ExtTreeMap.mem_iff_isSome_getElem?, hget]
  · simp [hkey]

theorem vector_insert (map : VectorMap κ α) (key query : κ) (xs : List α) :
    VectorMap.vector (map.insert key xs) query = if key = query then xs else map.vector query := by
  rw [vector_eq_getElem?, getElem?_insert, vector_eq_getElem?]
  split <;> rfl

theorem vector_erase (map : VectorMap κ α) (key query : κ) :
    VectorMap.vector (map.erase key) query = if key = query then [] else map.vector query := by
  rw [vector_eq_getElem?, getElem?_erase, vector_eq_getElem?]
  split <;> rfl

theorem vector_push (map : VectorMap κ α) (key query : κ) (x : α) :
    (map.push key x).vector query = if key = query then map.vector key ++ [x] else map.vector query :=
  map.vector_insert key query _

@[simp] theorem vector_touch (map : VectorMap κ α) (key query : κ) :
    (map.touch key).vector query = map.vector query := by
  rw [vector_eq_getElem?, getElem?_touch]
  split
  · next h => rw [h]; rfl
  · rw [vector_eq_getElem?]

/-- Erasing a key that is missing changes nothing. -/
theorem erase_of_not_mem {map : VectorMap κ α} {key : κ} (h : key ∉ map) : map.erase key = map := by
  rw [Std.ExtTreeMap.mem_iff_isSome_getElem?, Option.not_isSome_iff_eq_none] at h
  apply Std.ExtTreeMap.ext_getElem?
  intro query
  rw [getElem?_erase]
  split
  · next heq => rw [← heq, h]
  · rfl

end Lookup

/-- Iteration visits the pairs that lookups find, in the order of the keys. -/
theorem toList_perm {κ α : Type} [Ord κ] [Std.TransOrd κ] [Std.LawfulEqOrd κ]
    (map : VectorMap κ α) {pairs : List (κ × List α)}
    (hnodup : (pairs.map Prod.fst).Nodup) (h : ∀ key xs, map[key]? = some xs ↔ (key, xs) ∈ pairs) :
    map.toList.Perm pairs := by
  have hsorted := map.ordered_keys_toList
  have hlist : map.toList.Nodup := by
    refine hsorted.imp fun hlt heq => ?_
    rw [heq, Std.ReflOrd.compare_self] at hlt
    cases hlt
  rw [List.perm_ext_iff_of_nodup hlist hnodup.of_map]
  rintro ⟨key, xs⟩
  rw [Std.ExtTreeMap.mem_toList_iff_getElem?_eq_some, h]

/-- The vectors one behind the other. Empty ones do not show, so only the keys of
the others have to come in their order. -/
theorem flatMap_toList {κ α : Type} [Ord κ] [Std.TransOrd κ] [Std.LawfulEqOrd κ]
    (map : VectorMap κ α) {pairs : List (κ × List α)} (hnodup : (pairs.map Prod.fst).Nodup)
    (h : ∀ key xs, map[key]? = some xs ↔ (key, xs) ∈ pairs)
    (hsorted : (pairs.filter fun pair => !pair.2.isEmpty).Pairwise
      fun a b => compare a.1 b.1 = .lt) :
    map.toList.flatMap Prod.snd = pairs.flatMap Prod.snd := by
  have hfilter : ∀ pairs : List (κ × List α),
      (pairs.filter fun pair => !pair.2.isEmpty).flatMap Prod.snd = pairs.flatMap Prod.snd := by
    intro pairs
    induction pairs with
    | nil => rfl
    | cons pair pairs ih =>
      rw [List.filter_cons, List.flatMap_cons, ← ih]
      cases hempty : pair.2 with
      | nil => simp
      | cons x xs => simp [hempty]
  have hperm := (map.toList_perm hnodup h).filter fun pair => !pair.2.isEmpty
  have hequal := hperm.eq_of_pairwise (fun a b _ _ hlt hgt => by
    rw [Std.OrientedOrd.eq_swap, hlt] at hgt
    cases hgt) (map.ordered_keys_toList.filter _) hsorted
  rw [← hfilter, hequal, hfilter]

end VectorMap
