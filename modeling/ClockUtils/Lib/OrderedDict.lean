import Mathlib.Data.List.Induction
import Mathlib.Data.List.Nodup

/-- A dictionary that lists its keys in the order in which they came. -/
structure OrderedDict (κ ν : Type) where
  pairs : List (κ × ν)
  nodup : (pairs.map Prod.fst).Nodup

namespace OrderedDict

variable {κ ν : Type} [DecidableEq κ]

/-- Replaces the value of the key, or adds the key at the end. -/
def put (key : κ) (value : ν) : List (κ × ν) → List (κ × ν)
  | [] => [(key, value)]
  | pair :: pairs => if pair.1 = key then (key, value) :: pairs else pair :: put key value pairs

theorem map_fst_put (key : κ) (value : ν) (pairs : List (κ × ν)) :
    (put key value pairs).map Prod.fst =
      if key ∈ pairs.map Prod.fst then pairs.map Prod.fst else pairs.map Prod.fst ++ [key] := by
  induction pairs with
  | nil => rfl
  | cons pair pairs ih =>
    rw [put, List.map_cons]
    by_cases hkey : pair.1 = key
    · rw [if_pos hkey, if_pos (hkey ▸ List.mem_cons_self), List.map_cons, hkey]
    · rw [if_neg hkey, List.map_cons, ih]
      by_cases hmem : key ∈ pairs.map Prod.fst
      · rw [if_pos hmem, if_pos (List.mem_cons_of_mem _ hmem)]
      · have hnot : key ∉ pair.1 :: pairs.map Prod.fst := by
          rw [List.mem_cons]
          exact not_or.mpr ⟨Ne.symm hkey, hmem⟩
        rw [if_neg hmem, if_neg hnot, List.cons_append]

theorem put_of_not_mem {key : κ} (value : ν) {pairs : List (κ × ν)}
    (h : key ∉ pairs.map Prod.fst) : put key value pairs = pairs ++ [(key, value)] := by
  induction pairs with
  | nil => rfl
  | cons pair pairs ih =>
    rw [List.map_cons, List.mem_cons, not_or] at h
    rw [put, if_neg (Ne.symm h.1), ih h.2, List.cons_append]

def empty : OrderedDict κ ν where
  pairs := []
  nodup := List.nodup_nil

def keys (dict : OrderedDict κ ν) : List κ :=
  dict.pairs.map Prod.fst

def get? (dict : OrderedDict κ ν) (key : κ) : Option ν :=
  (dict.pairs.find? fun pair => pair.1 = key).map Prod.snd

def set (dict : OrderedDict κ ν) (key : κ) (value : ν) : OrderedDict κ ν where
  pairs := put key value dict.pairs
  nodup := by
    rw [map_fst_put]
    split
    · exact dict.nodup
    · next h => exact dict.nodup.append (List.nodup_singleton key) (by simpa using h)

def remove (dict : OrderedDict κ ν) (key : κ) : OrderedDict κ ν where
  pairs := dict.pairs.filter fun pair => pair.1 ≠ key
  nodup := dict.nodup.sublist (List.filter_sublist.map Prod.fst)

/-- Pairs that are set one after the other. -/
def ofPairs (pairs : List (κ × ν)) : OrderedDict κ ν :=
  pairs.foldl (fun dict pair => dict.set pair.1 pair.2) empty

theorem pairs_ofPairs {pairs : List (κ × ν)} (h : (pairs.map Prod.fst).Nodup) :
    (ofPairs pairs).pairs = pairs := by
  induction pairs using List.reverseRecOn with
  | nil => rfl
  | append_singleton pairs pair ih =>
    rw [List.map_append, List.nodup_append] at h
    have hnew : pair.1 ∉ pairs.map Prod.fst := fun hmem => h.2.2 pair.1 hmem pair.1 (by simp) rfl
    rw [ofPairs, List.foldl_append, ← ofPairs]
    change put pair.1 pair.2 (ofPairs pairs).pairs = _
    rw [ih h.1, put_of_not_mem pair.2 hnew]

/-- The first pair of a key is its only one. -/
theorem eraseIdx_findIdx {pairs : List (κ × ν)} (h : (pairs.map Prod.fst).Nodup) (key : κ) :
    pairs.eraseIdx (pairs.findIdx fun pair => pair.1 = key) =
      pairs.filter fun pair => pair.1 ≠ key := by
  induction pairs with
  | nil => rfl
  | cons pair pairs ih =>
    rw [List.map_cons, List.nodup_cons] at h
    rw [List.findIdx_cons, List.filter_cons]
    by_cases hkey : pair.1 = key
    · have hrest : (pairs.filter fun pair => pair.1 ≠ key) = pairs := by
        rw [List.filter_eq_self]
        intro other hother
        have hne : other.1 ≠ key := by
          rintro rfl
          exact h.1 (hkey ▸ List.mem_map_of_mem hother)
        simpa using hne
      rw [if_neg (by simpa using hkey), hrest]
      simp [hkey]
    · simp [hkey, ih h.2]

theorem get?_set (dict : OrderedDict κ ν) (key query : κ) (value : ν) :
    (dict.set key value).get? query = if query = key then some value else dict.get? query := by
  have hput : ∀ pairs : List (κ × ν), ((put key value pairs).find? fun pair => pair.1 = query).map
      Prod.snd = if query = key then some value
        else (pairs.find? fun pair => pair.1 = query).map Prod.snd := by
    intro pairs
    induction pairs with
    | nil =>
      by_cases hquery : query = key
      · simp [put, hquery]
      · simp [put, hquery, Ne.symm hquery]
    | cons pair pairs ih =>
      rw [put]
      by_cases hkey : pair.1 = key
      · by_cases hquery : query = key
        · simp [hkey, hquery]
        · simp [hkey, hquery, Ne.symm hquery]
      · rw [if_neg hkey, List.find?_cons, List.find?_cons]
        by_cases hpair : pair.1 = query
        · rw [if_neg fun hquery => hkey (hpair.trans hquery)]
          simp [hpair]
        · simpa [hpair] using ih
  exact hput dict.pairs

theorem keys_set_ne_nil (dict : OrderedDict κ ν) (key : κ) (value : ν) :
    (dict.set key value).keys ≠ [] := by
  have hkeys : (dict.set key value).keys = _ := map_fst_put key value dict.pairs
  rw [hkeys]
  split
  · next hmem => exact List.ne_nil_of_mem hmem
  · simp

/-- Removing a key leaves nothing exactly if there is no other. -/
theorem keys_remove_eq_nil_iff {dict : OrderedDict κ ν} {key : κ} (h : dict.keys ≠ []) :
    (dict.remove key).keys = [] ↔ dict.keys = [key] := by
  have hall : (dict.remove key).keys = [] ↔ ∀ k ∈ dict.keys, k = key := by
    simp [keys, remove]
  rw [hall]
  constructor
  · intro hkeys
    have hrepeat := List.eq_replicate_of_mem hkeys
    have hnodup : dict.keys.Nodup := dict.nodup
    rw [hrepeat, List.nodup_replicate] at hnodup
    have hlength := List.length_pos_iff.mpr h
    rw [hrepeat, show dict.keys.length = 1 by omega]
    rfl
  · intro hkeys
    rw [hkeys]
    simp

theorem get?_remove_of_ne (dict : OrderedDict κ ν) {key query : κ} (h : query ≠ key) :
    (dict.remove key).get? query = dict.get? query := by
  have hfind : (fun pair : κ × ν => decide (decide (pair.1 ≠ key) = true ∧
      decide (pair.1 = query) = true)) = fun pair => decide (pair.1 = query) := by
    funext pair
    by_cases hpair : pair.1 = query
    · simp [hpair, h]
    · simp [hpair]
  unfold get? remove
  dsimp only
  rw [List.find?_filter]
  exact congrArg (fun p => (dict.pairs.find? p).map Prod.snd) hfind

end OrderedDict
