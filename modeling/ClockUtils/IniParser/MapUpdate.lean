import ClockUtils.IniParser.LineIndex
import ClockUtils.IniParser.Save

namespace clockUtils.iniParser

/-- The states of a parser that is loaded, saved and changed with `setValue`,
in any order. -/
inductive Reachable : IniParser → Prop where
  | fresh : Reachable .fresh
  | load {p q : IniParser} {file : Option Bytes} (h : Reachable p)
      (hload : p.load file = (.SUCCESS, q)) : Reachable q
  | save {p : IniParser} (h : Reachable p) (opened : Bool) : Reachable (p.save opened).2.2
  | setValue {p q : IniParser} {sectionName field value : Bytes} (h : Reachable p)
      (hcall : p.setValue sectionName field value = .ok q) : Reachable q

/-- No section has entries without having lines. -/
def EntriesHaveLines (p : IniParser) : Prop :=
  ∀ name, p.data.vector name ≠ [] → p.allLines.vector name ≠ []

theorem EntriesHaveLines.appendEntry {p : IniParser} (h : EntriesHaveLines p) (name : Bytes)
    (t : Entry) : EntriesHaveLines (p.appendEntry name t) := by
  intro query hentries
  rw [IniParser.appendEntry, vector_pushLine]
  split
  · simp
  · next hne =>
    rw [IniParser.appendEntry,
      show ((p.pushEntry name t).pushLine name []).data = (p.pushEntry name t).data from rfl,
      vector_pushEntry, if_neg hne] at hentries
    exact h query hentries

theorem EntriesHaveLines.setValue {p q : IniParser} {sectionName field value : Bytes}
    (h : EntriesHaveLines p) (hcall : p.setValue sectionName field value = .ok q) :
    EntriesHaveLines q := by
  rcases setValue_cases hcall with ⟨-, rfl⟩ | ⟨entries, hsome, ⟨t, ht, -⟩, rfl⟩ |
    ⟨entries, index, -, -, -, rfl⟩
  · apply EntriesHaveLines.appendEntry
    intro query hentries
    rw [vector_pushLine]
    split
    · simp
    · exact h query hentries
  · intro query hentries
    rw [VectorMap.vector_insert] at hentries
    split at hentries
    · next heq =>
      apply h query
      rw [← heq, VectorMap.vector_of_some hsome]
      exact List.ne_nil_of_mem ht
    · exact h query hentries
  · exact h.appendEntry _ _

/-- It holds in every reachable state, since an entry of a loaded file points to one of the
lines. -/
theorem Reachable.entriesHaveLines {p : IniParser} (h : Reachable p) : EntriesHaveLines p := by
  induction h with
  | fresh => exact fun name hentries => absurd rfl hentries
  | @load before p file _ hload _ =>
    intro name hentries
    obtain ⟨t, ht⟩ := List.exists_mem_of_ne_nil _ hentries
    have hrange := (Consistent.loaded hload name).in_range t ht
    exact List.ne_nil_of_length_pos (by omega)
  | @save p _ opened ih =>
    intro name hentries
    rw [IniParser.save, vector_touchSections] at hentries
    exact ih name hentries
  | setValue _ hcall ih => exact ih.setValue hcall

/-- The value that the first entry of a field has, if there is one. -/
def firstValue (sectionName field : Bytes) (entries : List Entry) : Option Bytes :=
  (entries.find? fun t => t.Matches sectionName field).map Entry.value

theorem firstValue_cons (sectionName field : Bytes) (t : Entry) (entries : List Entry) :
    firstValue sectionName field (t :: entries) =
      if t.Matches sectionName field then some t.value
      else firstValue sectionName field entries := by
  rw [firstValue, List.find?_cons]
  by_cases hmatch : t.Matches sectionName field
  · simp [hmatch]
  · simp [hmatch, firstValue]

/-- Assigning to a field that is there gives it the value and keeps the others. -/
theorem firstValue_assign {sectionName field : Bytes} (value other : Bytes) {entries : List Entry}
    (h : ∃ t ∈ entries, t.Matches sectionName field) :
    firstValue sectionName other (IniParser.assign sectionName field value entries) =
      if other = field then some value else firstValue sectionName other entries := by
  induction entries with
  | nil =>
    obtain ⟨t, ht, -⟩ := h
    cases ht
  | cons t entries ih =>
    rw [IniParser.assign, firstValue_cons sectionName other t]
    split
    · next hmatch =>
      rw [firstValue_cons]
      by_cases hother : other = field
      · rw [if_pos hother, if_pos]
        exact ⟨hmatch.1, hmatch.2.trans hother.symm⟩
      · have hne : ∀ t' : Entry, t'.field = t.field → ¬ t'.Matches sectionName other :=
          fun t' hfield hmatch' => hother (hmatch'.2.symm.trans (hfield.trans hmatch.2))
        rw [if_neg hother, if_neg (hne { t with value := value } rfl), if_neg (hne t rfl)]
    · next hmatch =>
      have hrest : ∃ t ∈ entries, t.Matches sectionName field := by
        obtain ⟨t', ht', hmatch'⟩ := h
        rcases List.mem_cons.mp ht' with rfl | ht'
        · exact absurd hmatch' hmatch
        · exact ⟨t', ht', hmatch'⟩
      rw [firstValue_cons, ih hrest]
      by_cases hother : other = field
      · rw [if_pos hother, if_pos hother, hother, if_neg hmatch]
      · rw [if_neg hother, if_neg hother]

/-- Appending an entry for a field that is missing does the same. -/
theorem firstValue_append {sectionName field : Bytes} (value other : Bytes) (index : Nat)
    {entries : List Entry} (h : ∀ t ∈ entries, ¬ t.Matches sectionName field) :
    firstValue sectionName other (entries ++ [⟨sectionName, field, index, value⟩]) =
      if other = field then some value else firstValue sectionName other entries := by
  induction entries with
  | nil =>
    rw [List.nil_append, firstValue_cons]
    by_cases hother : other = field
    · rw [if_pos hother, if_pos ⟨rfl, hother.symm⟩]
    · rw [if_neg hother, if_neg fun hmatch => hother hmatch.2.symm]
  | cons t entries ih =>
    rw [List.forall_mem_cons] at h
    rw [List.cons_append, firstValue_cons, ih h.2, firstValue_cons]
    by_cases hother : other = field
    · rw [if_pos hother, if_pos hother, hother, if_neg h.1]
    · rw [if_neg hother, if_neg hother]

/-- `getValue` sees nothing else of the parser. -/
theorem getValue_eq_firstValue (p : IniParser) (sectionName field : Bytes) :
    p.getValue sectionName field =
      match firstValue sectionName field (p.data.vector sectionName) with
      | none => (.VALUE_NOTFOUND, [])
      | some value => (.SUCCESS, value) := by
  rw [getValue_eq, firstValue]
  cases (p.data.vector sectionName).find? fun t => t.Matches sectionName field <;> rfl

/-- One call is an update of a map: it is defined, the field then has the value,
and every other field of every section is as it was. -/
def UpdatesMap (p : IniParser) (sectionName field value : Bytes) : Prop :=
  ∃ q, p.setValue sectionName field value = .ok q ∧
    q.getValue sectionName field = (.SUCCESS, value) ∧
    ∀ otherSection otherField, (otherSection, otherField) ≠ (sectionName, field) →
      q.getValue otherSection otherField = p.getValue otherSection otherField

/-- A defined call gives the field its value and keeps every other one. -/
theorem firstValue_setValue {p q : IniParser} {sectionName field value : Bytes}
    (h : p.setValue sectionName field value = .ok q) (otherSection otherField : Bytes) :
    firstValue otherSection otherField (q.data.vector otherSection) =
      if (otherSection, otherField) = (sectionName, field) then some value
      else firstValue otherSection otherField (p.data.vector otherSection) := by
  have happend : ∀ (r : IniParser) (index : Nat), r.data = p.data →
      (∀ t ∈ p.data.vector sectionName, ¬ t.Matches sectionName field) →
      firstValue otherSection otherField ((r.appendEntry sectionName
          ⟨sectionName, field, index, value⟩).data.vector otherSection) =
        if (otherSection, otherField) = (sectionName, field) then some value
        else firstValue otherSection otherField (p.data.vector otherSection) := by
    intro r index hdata hnew
    rw [show (r.appendEntry sectionName ⟨sectionName, field, index, value⟩).data =
        (r.pushEntry sectionName ⟨sectionName, field, index, value⟩).data from rfl,
      vector_pushEntry, hdata]
    by_cases hsection : sectionName = otherSection
    · subst hsection
      rw [if_pos rfl, firstValue_append value otherField index hnew]
      simp only [Prod.mk.injEq, true_and]
    · simp only [if_neg hsection, Prod.mk.injEq, Ne.symm hsection, false_and, if_false]
  rcases setValue_cases h with ⟨hnone, rfl⟩ | ⟨entries, hsome, hold, rfl⟩ |
    ⟨entries, index, hsome, hnew, -, rfl⟩
  · apply happend _ _ rfl
    rw [VectorMap.vector_of_none hnone]
    simp
  · rw [VectorMap.vector_insert]
    by_cases hsection : sectionName = otherSection
    · subst hsection
      rw [if_pos rfl, firstValue_assign value otherField hold, VectorMap.vector_of_some hsome]
      simp only [Prod.mk.injEq, true_and]
    · simp only [if_neg hsection, Prod.mk.injEq, Ne.symm hsection, false_and, if_false]
  · apply happend _ _ rfl
    rw [VectorMap.vector_of_some hsome]
    exact hnew

/-- Where `setValue` can be called: the section is not in `_data`, or it has an
entry, or its last line exists and is not blank. -/
def CanSet (p : IniParser) (sectionName : Bytes) : Prop :=
  sectionName ∉ p.data ∨ p.data.vector sectionName ≠ [] ∨
    ∃ line, (p.allLines.vector sectionName).getLast? = some line ∧ line ≠ []

/-- The append branch takes the last line, and behind a blank one also the last
entry. -/
theorem insertIndex_defined_iff (entries : List Entry) (lines : List Bytes) :
    (∃ index, IniParser.insertIndex entries lines = .ok index) ↔
      ∃ line, lines.getLast? = some line ∧ (line = [] → entries ≠ []) := by
  constructor
  · rintro ⟨index, hindex⟩
    rw [IniParser.insertIndex, Run.bind_eq_ok_iff] at hindex
    obtain ⟨line, hline, hindex⟩ := hindex
    refine ⟨line, back_eq_ok_iff.mp hline, ?_⟩
    rintro rfl rfl
    cases hindex
  · rintro ⟨line, hline, hentries⟩
    rw [IniParser.insertIndex, back_eq_ok_iff.mpr hline, Run.ok_bind]
    split
    · next hblank =>
      obtain ⟨t, ht⟩ := Option.isSome_iff_exists.mp (List.getLast?_isSome.mpr (hentries hblank))
      rw [back_eq_ok_iff.mpr ht]
      exact ⟨_, rfl⟩
    · exact ⟨_, rfl⟩

theorem setValue_defined_iff {p : IniParser} (h : EntriesHaveLines p)
    (sectionName field value : Bytes) :
    (∃ q, p.setValue sectionName field value = .ok q) ↔ CanSet p sectionName := by
  rw [IniParser.setValue, CanSet, Std.ExtTreeMap.mem_iff_isSome_getElem?]
  cases hdata : p.data[sectionName]? with
  | none => simp
  | some entries =>
    have hvector := VectorMap.vector_of_some hdata
    rw [hvector]
    simp only [Option.isSome_some, not_true_eq_false, false_or]
    by_cases hold : ∃ t ∈ entries, t.Matches sectionName field
    · simp only [if_pos hold]
      obtain ⟨t, ht, -⟩ := hold
      exact ⟨fun _ => .inl (List.ne_nil_of_mem ht), fun _ => ⟨_, rfl⟩⟩
    · simp only [if_neg hold, Run.bind_eq_ok_iff]
      have hindex := insertIndex_defined_iff entries (p.allLines.vector sectionName)
      constructor
      · rintro ⟨q, index, hcall, -⟩
        obtain ⟨line, hline, hentries⟩ := hindex.mp ⟨index, hcall⟩
        by_cases hblank : line = []
        · exact .inl (hentries hblank)
        · exact .inr ⟨line, hline, hblank⟩
      · intro hcan
        obtain ⟨index, hcall⟩ : ∃ index,
            IniParser.insertIndex entries (p.allLines.vector sectionName) = .ok index := by
          rcases hcan with hentries | ⟨line, hline, hne⟩
          · obtain ⟨line, hline⟩ := Option.isSome_iff_exists.mp
              (List.getLast?_isSome.mpr (h sectionName (hvector ▸ hentries)))
            exact hindex.mpr ⟨line, hline, fun _ => hentries⟩
          · exact hindex.mpr ⟨line, hline, fun hblank => absurd hblank hne⟩
        exact ⟨_, index, hcall, rfl⟩

/-- In every reachable state `setValue` is an update of the map that `getValue` reads,
exactly where it can be called: there is one more field with the value, or the field has the
new one, and every other field of every section keeps its value. -/
theorem setValue_updates_iff (p : IniParser) (h : Reachable p) (sectionName field value : Bytes) :
    UpdatesMap p sectionName field value ↔ CanSet p sectionName := by
  rw [← setValue_defined_iff h.entriesHaveLines sectionName field value]
  constructor
  · rintro ⟨q, hcall, -⟩
    exact ⟨q, hcall⟩
  · rintro ⟨q, hcall⟩
    refine ⟨q, hcall, ?_, fun otherSection otherField hne => ?_⟩
    · rw [getValue_eq_firstValue, firstValue_setValue hcall, if_pos rfl]
    · rw [getValue_eq_firstValue, firstValue_setValue hcall, if_neg hne, getValue_eq_firstValue]

/-- `b = 2` behind the file `[A]`, `a=1`, which ends in a blank line: the entry is
appended. -/
theorem setValue_updates_loaded :
    ∃ p, IniParser.fresh.load (some [91, 65, 93, 10, 97, 61, 49, 10]) = (.SUCCESS, p) ∧
      p.getValue [65] [97] = (.SUCCESS, [49]) ∧
      p.getValue [65] [98] = (.VALUE_NOTFOUND, []) ∧
      CanSet p [65] ∧ UpdatesMap p [65] [98] [50] := by
  obtain ⟨p, hload, ha, hb⟩ : ∃ p,
      IniParser.fresh.load (some [91, 65, 93, 10, 97, 61, 49, 10]) = (.SUCCESS, p) ∧
        p.getValue [65] [97] = (.SUCCESS, [49]) ∧
        p.getValue [65] [98] = (.VALUE_NOTFOUND, []) := ⟨_, rfl, rfl, rfl⟩
  have hcan : CanSet p [65] := by
    refine .inr (.inl fun hempty => ?_)
    rw [getValue_eq_firstValue, hempty] at ha
    cases ha
  exact ⟨p, hload, ha, hb, hcan,
    (setValue_updates_iff p (.load .fresh hload) [65] [98] [50]).mpr hcan⟩

/-- After the empty file is loaded, `global` has one blank line and no entry;
after the file `[A]` is loaded, it has no line at all. -/
theorem setValue_undefined_on_global :
    ∃ p q, Reachable p ∧ IniParser.fresh.load (some []) = (.SUCCESS, p) ∧
      p.setValue globalName [97] [49] = .error .backOfEmpty ∧
      Reachable q ∧ IniParser.fresh.load (some [91, 65, 93]) = (.SUCCESS, q) ∧
      q.setValue globalName [97] [49] = .error .backOfEmpty := by
  have hempty : IniParser.fresh.load (some []) = (.SUCCESS, _) := rfl
  have hsection : IniParser.fresh.load (some [91, 65, 93]) = (.SUCCESS, _) := rfl
  exact ⟨_, _, .load .fresh hempty, hempty, rfl, .load .fresh hsection, hsection, rfl⟩

end clockUtils.iniParser
