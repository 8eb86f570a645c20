import Mathlib.Data.List.Basic

namespace Lines

/-- A line does not contain the separator it was split at. -/
theorem not_mem_of_mem_splitOn {α : Type} [DecidableEq α] {separator : α} {text line : List α}
    (h : line ∈ text.splitOn separator) : separator ∉ line := by
  induction text generalizing line with
  | nil =>
    rw [List.splitOn_nil, List.mem_singleton] at h
    simp [h]
  | cons x text ih =>
    rw [List.splitOn_cons_eq_if_modifyHead] at h
    obtain ⟨first, rest, hsplit⟩ := List.exists_cons_of_ne_nil (List.splitOn_ne_nil separator text)
    rw [hsplit] at h ih
    split at h
    · rcases List.mem_cons.mp h with rfl | h
      · simp
      · exact ih h
    · next hne =>
      rw [List.modifyHead_cons, List.mem_cons] at h
      rcases h with rfl | h
      · have hfirst := ih List.mem_cons_self
        have hx : separator ≠ x := by
          intro heq
          exact hne (by rw [heq, beq_self_eq_true])
        simp [hx, hfirst]
      · exact ih (List.mem_cons_of_mem _ h)

/-- Lines that each end with a separator, without the last separator. -/
theorem dropLast_flatMap_append {α : Type} (separator : α) (lines : List (List α)) :
    (lines.flatMap (· ++ [separator])).dropLast = [separator].intercalate lines := by
  induction lines with
  | nil => rfl
  | cons line lines ih =>
    cases lines with
    | nil => simp
    | cons next lines =>
      rw [List.flatMap_cons, List.dropLast_append_of_ne_nil (by simp), ih]
      simp [List.intercalate, List.intersperse]

end Lines
