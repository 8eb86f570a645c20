import ClockUtils.IniParser.MapUpdate

namespace clockUtils.iniParser

/-- Two parsers that no caller can tell apart: the accessors return the same,
and `save` writes the same text. -/
structure SameView (p q : IniParser) : Prop where
  getAllSections_eq : q.getAllSections = p.getAllSections
  getAllEntries_eq : ∀ sectionName, q.getAllEntries sectionName = p.getAllEntries sectionName
  getValue_eq : ∀ sectionName field, q.getValue sectionName field = p.getValue sectionName field
  save_eq : ∀ opened, (q.save opened).2.1 = (p.save opened).2.1

/-- An empty vector in `_data` is not seen. -/
theorem SameView.of_vectors {p q : IniParser} (hlines : q.allLines = p.allLines)
    (hdata : ∀ name, q.data.vector name = p.data.vector name) : SameView p q where
  getAllSections_eq := by rw [IniParser.getAllSections, hlines, IniParser.getAllSections]
  getAllEntries_eq sectionName := by
    rw [iniParser.getAllEntries_eq, hdata, iniParser.getAllEntries_eq]
  getValue_eq sectionName field := by
    rw [iniParser.getValue_eq, hdata, iniParser.getValue_eq]
  save_eq opened := by
    have hsaved : q.savedLines = p.savedLines := by
      simp only [IniParser.savedLines, hlines, hdata]
    simp only [IniParser.save, IniParser.savedText, hsaved]

theorem mem_getAllSections_iff {p : IniParser} {sectionName : Bytes} :
    sectionName ∈ p.getAllSections ↔ sectionName ∈ p.allLines :=
  Std.ExtTreeMap.mem_keys

/-- Without an entry to erase, `removeEntry` only tests the section's vector. An
empty one makes it erase the section, although no entry was removed. -/
theorem removeEntry_missing {p : IniParser} {sectionName entry : Bytes}
    (hmissing : (p.getValue sectionName entry).1 = .VALUE_NOTFOUND) :
    p.removeEntry sectionName entry = .ok
      (if p.data.vector sectionName = [] then
        ⟨(p.data.touch sectionName).erase sectionName, p.allLines.erase sectionName⟩
      else ⟨p.data.touch sectionName, p.allLines⟩) := by
  have hfind : ((p.data.vector sectionName).find? fun t => t.Matches sectionName entry) = none := by
    rw [getValue_eq] at hmissing
    split at hmissing
    · assumption
    · cases hmissing
  have hposition : p.entryPosition sectionName entry = (p.data.vector sectionName).length := by
    rw [IniParser.entryPosition, List.findIdx_eq_length]
    intro t ht
    simpa using List.find?_eq_none.mp hfind t ht
  have herase : p.eraseEntry sectionName entry = .ok ⟨p.data.touch sectionName, p.allLines⟩ := by
    rw [IniParser.eraseEntry, hposition, List.getElem?_eq_none (Nat.le_refl _)]
  rw [removeEntry_eq, herase, Run.ok_bind, VectorMap.vector_touch]
  split
  · rfl
  · rfl

/-- Removing an entry that is missing changes nothing a caller sees, exactly if its section
is not listed or has an entry. A section that is listed without one goes, although nothing
was removed from it, and so do its lines in the file that is saved. -/
theorem removeEntry_missing_sameView_iff (p : IniParser) (sectionName entry : Bytes)
    (hmissing : (p.getValue sectionName entry).1 = .VALUE_NOTFOUND) :
    (∃ q, p.removeEntry sectionName entry = .ok q ∧ SameView p q) ↔
      sectionName ∉ p.getAllSections ∨ p.getAllEntries sectionName ≠ [] := by
  rw [removeEntry_missing hmissing, mem_getAllSections_iff, getAllEntries_eq, Ne, List.map_eq_nil_iff]
  constructor
  · rintro ⟨q, hcall, hsame⟩
    by_contra hnot
    rw [not_or, not_not, not_not] at hnot
    obtain ⟨hlisted, hempty⟩ := hnot
    rw [if_pos hempty] at hcall
    obtain rfl := Except.ok.inj hcall
    have hgone := mem_getAllSections_iff.mpr hlisted
    rw [← hsame.getAllSections_eq, mem_getAllSections_iff] at hgone
    simp at hgone
  · intro hkeeps
    refine ⟨_, rfl, ?_⟩
    by_cases hempty : p.data.vector sectionName = []
    · have hunlisted := hkeeps.resolve_right (not_not_intro hempty)
      rw [if_pos hempty]
      apply SameView.of_vectors
      · exact VectorMap.erase_of_not_mem hunlisted
      · intro name
        rw [VectorMap.vector_erase, VectorMap.vector_touch]
        split
        · next heq => rw [← heq, hempty]
        · rfl
    · rw [if_neg hempty]
      exact .of_vectors rfl fun name => VectorMap.vector_touch p.data sectionName name

/-- Nothing is removed from a fresh parser, and nothing from a section with
another entry. -/
theorem removeEntry_missing_sameView_fresh :
    (∃ q, IniParser.fresh.removeEntry [65] [98] = .ok q ∧ SameView .fresh q) ∧
      ∃ p, IniParser.fresh.setValue [65] [97] [49] = .ok p ∧
        ∃ q, p.removeEntry [65] [98] = .ok q ∧ SameView p q := by
  have hset : IniParser.fresh.setValue [65] [97] [49] = .ok _ := rfl
  refine ⟨?_, _, hset, ?_⟩
  · exact (removeEntry_missing_sameView_iff .fresh [65] [98] rfl).mpr (.inl (by decide))
  · exact (removeEntry_missing_sameView_iff _ [65] [98] rfl).mpr (.inr (by decide))

/-- The file `[A]`, `; n` is loaded and `A` has no entries. Removing one drops the
section, and with it the comment that `save` would write. -/
theorem removeEntry_missing_drops_comment :
    ∃ p q, Reachable p ∧
      IniParser.fresh.load (some [91, 65, 93, 10, 59, 32, 110]) = (.SUCCESS, p) ∧
      (p.getValue [65] [98]).1 = .VALUE_NOTFOUND ∧ p.removeEntry [65] [98] = .ok q ∧
      [65] ∈ p.getAllSections ∧ [65] ∉ q.getAllSections ∧
      (p.save true).2.1 = some [91, 65, 93, 10, 59, 32, 110] ∧ (q.save true).2.1 = some [] ∧
      ¬ SameView p q := by
  have hload : IniParser.fresh.load (some [91, 65, 93, 10, 59, 32, 110]) = (.SUCCESS, _) := rfl
  refine ⟨_, _, .load .fresh hload, hload, rfl, rfl, by decide, by decide, rfl, rfl, fun hsame => ?_⟩
  have hsections := hsame.getAllSections_eq
  revert hsections
  decide

end clockUtils.iniParser
