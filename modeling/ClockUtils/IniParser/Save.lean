import ClockUtils.IniParser.Access
import ClockUtils.Lib.Lines

namespace clockUtils.iniParser

/-- Lines without line breaks are read back as they were written. -/
theorem splitOn_savedText (p : IniParser) (hlines : ∀ line ∈ p.savedLines, newline ∉ line)
    (hne : p.savedLines ≠ []) : p.savedText.splitOn newline = p.savedLines := by
  rw [IniParser.savedText, Lines.dropLast_flatMap_append]
  exact List.splitOn_intercalate newline hlines hne

theorem vector_touchSections (data : VectorMap Bytes Entry) (pairs : List (Bytes × List Bytes))
    (name : Bytes) : (IniParser.touchSections data pairs).vector name = data.vector name := by
  rw [IniParser.touchSections]
  induction pairs generalizing data with
  | nil => rfl
  | cons pair pairs ih =>
    rw [List.foldl_cons, ih]
    split
    · rfl
    · exact VectorMap.vector_touch data pair.1 name

/-- Saving changes nothing that the accessors see. -/
theorem save_getValue (p : IniParser) (opened : Bool) (sectionName field : Bytes) :
    (p.save opened).2.2.getValue sectionName field = p.getValue sectionName field := by
  rw [getValue_eq, getValue_eq, IniParser.save, vector_touchSections]

theorem save_getAllEntries (p : IniParser) (opened : Bool) (sectionName : Bytes) :
    (p.save opened).2.2.getAllEntries sectionName = p.getAllEntries sectionName := by
  rw [getAllEntries_eq, getAllEntries_eq, IniParser.save, vector_touchSections]

/-- Where the line of every entry is the entry's text already, `save` writes
the lines as they are, whatever its counter is. -/
theorem saveLines_eq {entries : List Entry} {lines : List Bytes} {i : Nat}
    (h : ∀ t ∈ entries, ∀ k line, lines[k]? = some line → i + k = t.index →
      line = IniParser.entryText t) (nextEntry : UInt32) :
    IniParser.saveLines entries i nextEntry lines = lines := by
  induction lines generalizing i nextEntry with
  | nil => rfl
  | cons line lines ih =>
    have hrest : ∀ t ∈ entries, ∀ k line, lines[k]? = some line → i + 1 + k = t.index →
        line = IniParser.entryText t := by
      intro t ht k line' hline hindex
      exact h t ht (k + 1) line' (by simpa using hline) (by omega)
    rw [IniParser.saveLines]
    split
    · rw [ih hrest]
    · next t hentry =>
      split
      · next hindex =>
        have hline := h t (List.mem_of_getElem? hentry) 0 line rfl (by omega)
        rw [ih hrest, hline]
      · rw [ih hrest]

/-- `save` writes lines of the section and texts of its entries. -/
theorem mem_saveLines {entries : List Entry} {i : Nat} {nextEntry : UInt32} {lines : List Bytes}
    {text : Bytes} (h : text ∈ IniParser.saveLines entries i nextEntry lines) :
    text ∈ lines ∨ ∃ t ∈ entries, text = IniParser.entryText t := by
  induction lines generalizing i nextEntry with
  | nil => cases h
  | cons line lines ih =>
    have hrest : ∀ {i nextEntry}, text ∈ IniParser.saveLines entries i nextEntry lines →
        text ∈ line :: lines ∨ ∃ t ∈ entries, text = IniParser.entryText t :=
      fun h => (ih h).imp_left (List.mem_cons_of_mem line)
    rw [IniParser.saveLines] at h
    split at h
    · rcases List.mem_cons.mp h with rfl | h
      · exact .inl List.mem_cons_self
      · exact hrest h
    · next t ht =>
      split at h
      · rcases List.mem_cons.mp h with rfl | h
        · exact .inr ⟨t, List.mem_of_getElem? ht, rfl⟩
        · exact hrest h
      · rcases List.mem_cons.mp h with rfl | h
        · exact .inl List.mem_cons_self
        · exact hrest h

theorem lineKey_append_lineValue {line : Bytes} (h : equalsSign ∈ line) :
    lineKey line ++ equalsSign :: lineValue line = line := by
  have hlt := List.idxOf_lt_length_of_mem h
  rw [lineKey, lineValue]
  conv_rhs => rw [← List.take_append_drop (line.idxOf equalsSign) line,
    List.drop_eq_getElem_cons hlt, List.getElem_idxOf hlt]

theorem Holds.savedLines_eq {p : IniParser} {secs : List FileSection} (h : Holds p secs) :
    p.savedLines = p.allLines.toList.flatMap Prod.snd := by
  rw [IniParser.savedLines, List.flatMap_def, List.flatMap_def]
  congr 1
  apply List.map_congr_left
  rintro ⟨name, lines⟩ hmem
  rw [Std.ExtTreeMap.mem_toList_iff_getElem?_eq_some, h.allLines_iff] at hmem
  apply saveLines_eq
  intro t ht k line hline hindex
  rw [h.data_vector hmem, mem_entriesOf_iff] at ht
  obtain ⟨-, line', hline', hentry, hkey, hvalue⟩ := ht
  obtain rfl : line = line' := by
    rw [← hindex, Nat.zero_add, hline] at hline'
    exact Option.some.inj hline'
  simp only [isEntryLine, decide_eq_true_eq] at hentry
  rw [IniParser.entryText, ← hkey, ← hvalue, lineKey_append_lineValue hentry.2.2]

end clockUtils.iniParser
