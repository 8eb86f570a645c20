import ClockUtils.IniParser.Grammar

namespace clockUtils.iniParser

namespace Holds

/-- The names of a parser's sections are exactly the keys of `_allLines`. -/
theorem mem_allLines_iff {p : IniParser} {secs : List FileSection} (h : Holds p secs)
    (name : Bytes) : name ∈ p.allLines ↔ name ∈ secs.map Prod.fst := by
  rw [Std.ExtTreeMap.mem_iff_isSome_getElem?, Option.isSome_iff_exists]
  simp only [h.allLines_iff, List.mem_map, Prod.exists, exists_and_right, exists_eq_right]

theorem allLines_vector {p : IniParser} {secs : List FileSection} (h : Holds p secs)
    {name : Bytes} {lines : List Bytes} (hmem : (name, lines) ∈ secs) :
    p.allLines.vector name = lines :=
  VectorMap.vector_of_some ((h.allLines_iff name lines).mpr hmem)

theorem data_vector {p : IniParser} {secs : List FileSection} (h : Holds p secs)
    {name : Bytes} {lines : List Bytes} (hmem : (name, lines) ∈ secs) :
    p.data.vector name = entriesOf name lines := by
  have hsame : ∀ lines', (name, lines') ∈ secs → lines' = lines := by
    intro lines' hmem'
    have hlines := (h.allLines_iff name lines).mpr hmem
    rw [(h.allLines_iff name lines').mpr hmem'] at hlines
    exact Option.some.inj hlines
  rw [VectorMap.vector_eq_getElem?]
  cases hget : p.data[name]? with
  | some entries =>
    obtain ⟨-, lines', hmem', rfl⟩ := (h.data_iff name entries).mp hget
    rw [hsame lines' hmem']
    rfl
  | none =>
    by_contra hne
    have hsome := (h.data_iff name (entriesOf name lines)).mpr ⟨.inl (Ne.symm hne), lines, hmem, rfl⟩
    rw [hget] at hsome
    cases hsome

theorem data_vector_of_not_mem {p : IniParser} {secs : List FileSection} (h : Holds p secs)
    {name : Bytes} (hmem : name ∉ secs.map Prod.fst) : p.data.vector name = [] := by
  rw [VectorMap.vector_eq_getElem?]
  cases hget : p.data[name]? with
  | none => rfl
  | some entries =>
    obtain ⟨-, lines, hsec, -⟩ := (h.data_iff name entries).mp hget
    exact absurd (List.mem_map.mpr ⟨_, hsec, rfl⟩) hmem

end Holds

theorem holds_reset : Holds IniParser.reset [(globalName, [])] := by
  constructor
  · intro name lines
    rw [IniParser.reset, VectorMap.getElem?_touch]
    by_cases hname : globalName = name
    · simp [IniParser.fresh, VectorMap.vector, hname, eq_comm]
    · simp [IniParser.fresh, hname, Ne.symm hname]
  · intro name entries
    rw [IniParser.reset, VectorMap.getElem?_touch]
    by_cases hname : globalName = name
    · simp [IniParser.fresh, VectorMap.vector, hname, eq_comm, entriesOf]
    · simp [IniParser.fresh, hname, Ne.symm hname]

section Step

variable {p : IniParser} {front : List FileSection} {name : Bytes} {body : List Bytes}

theorem mem_current_iff (hname : name ∉ front.map Prod.fst) (query : Bytes) (lines : List Bytes) :
    (query, lines) ∈ front ++ [(name, body)] ↔
      if name = query then lines = body else (query, lines) ∈ front := by
  rw [List.mem_append, List.mem_singleton, Prod.mk.injEq]
  split
  · next heq =>
    subst heq
    have hfront : (name, lines) ∉ front := fun h => hname (List.mem_map.mpr ⟨_, h, rfl⟩)
    simp [hfront]
  · next hne => simp [Ne.symm hne]

theorem allLines_pushLine (h : Holds p (front ++ [(name, body)])) (hname : name ∉ front.map Prod.fst)
    (line query : Bytes) (lines : List Bytes) :
    (p.pushLine name line).allLines[query]? = some lines ↔
      (query, lines) ∈ front ++ [(name, body ++ [line])] := by
  rw [IniParser.pushLine, VectorMap.getElem?_push, h.allLines_vector List.mem_concat_self, mem_current_iff hname]
  split
  · rw [Option.some.injEq, eq_comm]
  · next hne => rw [h.allLines_iff, mem_current_iff hname, if_neg hne]

/-- A blank line, a comment or a line of one character joins the current section. -/
theorem Holds.pushLine (h : Holds p (front ++ [(name, body)])) (hname : name ∉ front.map Prod.fst)
    {line : Bytes} (hline : isEntryLine line = false) :
    Holds (p.pushLine name line) (front ++ [(name, body ++ [line])]) := by
  refine ⟨allLines_pushLine h hname line, fun query entries => ?_⟩
  rw [show (p.pushLine name line).data = p.data from rfl, h.data_iff]
  simp only [mem_current_iff hname]
  split
  · next heq => simp [entriesOf_append, hline]
  · rfl

/-- An entry line joins the current section together with its entry. -/
theorem Holds.pushEntry (h : Holds p (front ++ [(name, body)])) (hname : name ∉ front.map Prod.fst)
    {line : Bytes} (hline : isEntryLine line = true) :
    Holds (({ p with data := p.data.touch name }.pushEntry name
        ⟨name, lineKey line, body.length, lineValue line⟩).pushLine name line)
      (front ++ [(name, body ++ [line])]) := by
  refine ⟨allLines_pushLine h hname line, fun query entries => ?_⟩
  simp only [IniParser.pushLine, IniParser.pushEntry, VectorMap.getElem?_push,
    VectorMap.vector_touch, h.data_vector List.mem_concat_self, mem_current_iff hname]
  split
  · next heq =>
    subst heq
    have hgrown := entriesOf_append name body line
    rw [if_pos hline] at hgrown
    rw [← hgrown, Option.some.injEq, exists_eq_left, eq_comm]
    constructor
    · rintro rfl
      exact ⟨.inl (by simp [hgrown]), rfl⟩
    · exact And.right
  · next hne =>
    rw [VectorMap.getElem?_touch, if_neg hne, h.data_iff]
    simp only [mem_current_iff hname, if_neg hne]

/-- A section line begins a section that has no entries yet. -/
theorem Holds.newSection {secs : List FileSection} (h : Holds p secs) {line : Bytes}
    (hline : isSectionLine line = true) (hname : lineName line ∉ secs.map Prod.fst)
    (hglobal : globalName ∈ secs.map Prod.fst) :
    Holds (p.pushLine (lineName line) line) (secs ++ [(lineName line, [line])]) := by
  have hnone : (p.allLines.vector (lineName line)) = [] := by
    rw [VectorMap.vector_eq_getElem?]
    cases hget : p.allLines[lineName line]? with
    | none => rfl
    | some lines =>
      exact absurd (List.mem_map.mpr ⟨_, (h.allLines_iff _ _).mp hget, rfl⟩) hname
  refine ⟨fun query lines => ?_, fun query entries => ?_⟩
  · rw [IniParser.pushLine, VectorMap.getElem?_push, hnone, mem_current_iff hname]
    split
    · rw [Option.some.injEq, eq_comm, List.nil_append]
    · exact h.allLines_iff query lines
  · rw [show (p.pushLine (lineName line) line).data = p.data from rfl, h.data_iff]
    simp only [mem_current_iff hname]
    split
    · next heq =>
      subst heq
      have hempty : entriesOf (lineName line) [line] = [] := by
        simp [entriesOf, not_isEntryLine_of_isSectionLine hline]
      have hne : lineName line ≠ globalName := fun heq => hname (heq ▸ hglobal)
      constructor
      · rintro ⟨-, lines, hmem, -⟩
        exact absurd (List.mem_map.mpr ⟨_, hmem, rfl⟩) hname
      · rintro ⟨hsome, lines, rfl, rfl⟩
        simp [hempty, hne] at hsome
    · rfl

end Step

section LoadLine

variable (p : IniParser) (name : Bytes) {line : Bytes}

theorem loadLine_skip (h : isRead line = false) :
    p.loadLine name line = .ok (name, p.pushLine name line) := by
  rw [IniParser.loadLine, if_pos]
  simp only [isRead, decide_eq_false_iff_not, not_and_or, ne_eq, not_not] at h
  exact h.imp_left (fun hshort => by omega)

theorem loadLine_read (h : isRead line = true) :
    p.loadLine name line =
      if line.head? = some openBracket then p.loadSectionLine line else p.loadEntryLine name line := by
  rw [IniParser.loadLine, if_neg]
  simp only [isRead, decide_eq_true_eq] at h
  rintro (hshort | hcomment)
  · omega
  · exact h.2 hcomment

theorem loadLine_section (h : isSectionLine line = true) :
    p.loadLine name line =
      if lineName line ∈ p.allLines then .error p
      else .ok (lineName line, p.pushLine (lineName line) line) := by
  simp only [isSectionLine, decide_eq_true_eq] at h
  rw [loadLine_read p name h.1, if_pos h.2.1, IniParser.loadSectionLine, if_neg (not_not.mpr h.2.2)]
  rfl

theorem loadLine_entry (h : isEntryLine line = true) :
    p.loadLine name line =
      if ∃ t ∈ p.data.vector name, t.field = lineKey line then
        .error { p with data := p.data.touch name }
      else .ok (name, ({ p with data := p.data.touch name }.pushEntry name ⟨name, lineKey line,
        (p.allLines.vector name).length, lineValue line⟩).pushLine name line) := by
  simp only [isEntryLine, decide_eq_true_eq] at h
  rw [loadLine_read p name h.1, if_neg h.2.1, IniParser.loadEntryLine, if_neg (not_not.mpr h.2.2)]
  rfl

theorem loadLine_unrecognised (hread : isRead line = true) (hsection : isSectionLine line = false)
    (hentry : isEntryLine line = false) : p.loadLine name line = .error p := by
  rw [loadLine_read p name hread]
  split
  · next hopen =>
    rw [IniParser.loadSectionLine, if_pos]
    simpa [isSectionLine, hread, hopen] using hsection
  · next hopen =>
    rw [IniParser.loadEntryLine, if_pos]
    simpa [isEntryLine, hread, hopen] using hentry

end LoadLine

/-- Sections with different names, each with different keys. -/
structure Proper (secs : List FileSection) : Prop where
  names_nodup : (secs.map Prod.fst).Nodup
  keys_nodup : ∀ fileSection ∈ secs, (entryKeys fileSection.2).Nodup

theorem Proper.name_not_mem {front : List FileSection} {name : Bytes} {body : List Bytes}
    (h : Proper (front ++ [(name, body)])) : name ∉ front.map Prod.fst := by
  have hnodup := h.names_nodup
  rw [List.map_append, List.nodup_append] at hnodup
  intro hmem
  exact hnodup.2.2 name hmem name (by simp) rfl

theorem Proper.push {front : List FileSection} {name : Bytes} {body : List Bytes}
    (h : Proper (front ++ [(name, body)])) {line : Bytes} (hkeys : (entryKeys (body ++ [line])).Nodup) :
    Proper (front ++ [(name, body ++ [line])]) := by
  constructor
  · simpa using h.names_nodup
  · intro fileSection hmem
    rcases List.mem_append.mp hmem with hfront | hlast
    · exact h.keys_nodup _ (List.mem_append_left _ hfront)
    · rw [List.mem_singleton.mp hlast]
      exact hkeys

theorem Proper.newSection {secs : List FileSection} (h : Proper secs) {line : Bytes}
    (hline : isSectionLine line = true) (hname : lineName line ∉ secs.map Prod.fst) :
    Proper (secs ++ [(lineName line, [line])]) := by
  constructor
  · rw [List.map_append, List.nodup_append]
    refine ⟨h.names_nodup, by simp, fun a ha b hb heq => hname ?_⟩
    obtain rfl : b = lineName line := by simpa using hb
    exact heq ▸ ha
  · intro fileSection hmem
    rcases List.mem_append.mp hmem with hold | hlast
    · exact h.keys_nodup _ hold
    · rw [List.mem_singleton.mp hlast, entryKeys]
      simp [not_isEntryLine_of_isSectionLine hline]

theorem entryKeys_append (body : List Bytes) (line : Bytes) :
    entryKeys (body ++ [line]) = entryKeys body ++ if isEntryLine line then [lineKey line] else [] := by
  rw [entryKeys, List.filter_append, List.map_append, entryKeys]
  by_cases h : isEntryLine line <;> simp [h]

theorem loadLines_cons {p p' : IniParser} {name name' line : Bytes} (lines : List Bytes)
    (h : p.loadLine name line = .ok (name', p')) :
    p.loadLines name (line :: lines) = p'.loadLines name' lines := by
  rw [IniParser.loadLines, h]

theorem loadLines_cons_error {p p' : IniParser} {name line : Bytes} (lines : List Bytes)
    (h : p.loadLine name line = .error p') : p.loadLines name (line :: lines) = .error p' := by
  rw [IniParser.loadLines, h]

/-- What `load` accepts behind the sections it has already read. -/
def Acceptable (front : List FileSection) (name : Bytes) (body lines : List Bytes) : Prop :=
  (∀ line ∈ lines, isRead line → isSectionLine line ∨ isEntryLine line) ∧
    Proper (front ++ sectionsFrom name body lines)

/-- A further line of the current section leaves the condition on the file. -/
theorem acceptable_cons_iff {front : List FileSection} {name : Bytes} {body lines : List Bytes}
    {line : Bytes} (hsection : isSectionLine line = false) (hline : isRead line → isEntryLine line) :
    Acceptable front name body (line :: lines) ↔ Acceptable front name (body ++ [line]) lines := by
  rw [Acceptable, Acceptable, sectionsFrom, if_neg (by simp [hsection]), List.forall_mem_cons]
  simp only [hsection, Bool.false_eq_true, false_or, and_iff_right hline]

theorem acceptable_section_iff {front : List FileSection} {name : Bytes} {body lines : List Bytes}
    {line : Bytes} (hsection : isSectionLine line = true) :
    Acceptable front name body (line :: lines) ↔
      Acceptable (front ++ [(name, body)]) (lineName line) [line] lines := by
  rw [Acceptable, Acceptable, sectionsFrom, if_pos hsection, List.forall_mem_cons, List.append_assoc]
  simp only [hsection, true_or, implies_true, true_and, List.singleton_append]

/-- A repeated name or key cannot be made good by the lines behind it. -/
theorem not_acceptable_of_mem {front : List FileSection} {name : Bytes} {body lines : List Bytes}
    (hname : name ∈ front.map Prod.fst) : ¬ Acceptable front name body lines := by
  rintro ⟨-, hproper⟩
  have hnodup := hproper.names_nodup
  rw [List.map_append, map_fst_sectionsFrom, List.nodup_append] at hnodup
  exact hnodup.2.2 name hname name List.mem_cons_self rfl

theorem not_acceptable_of_keys {front : List FileSection} {name : Bytes} {body lines : List Bytes}
    (hkeys : ¬ (entryKeys body).Nodup) : ¬ Acceptable front name body lines := by
  rintro ⟨-, hproper⟩
  obtain ⟨more, hmem⟩ := exists_mem_sectionsFrom name body lines
  have hnodup := hproper.keys_nodup _ (List.mem_append_right _ hmem)
  rw [entryKeys, List.filter_append, List.map_append] at hnodup
  exact hkeys (List.nodup_append.mp hnodup).1

/-- The loop of `load` behind sections it has read: it reads acceptable lines
into the sections they form and stops at the others. -/
theorem loadLines_spec {p : IniParser} {front : List FileSection} {name : Bytes} {body : List Bytes}
    (h : Holds p (front ++ [(name, body)])) (hproper : Proper (front ++ [(name, body)]))
    (hglobal : globalName ∈ (front ++ [(name, body)]).map Prod.fst) (lines : List Bytes) :
    (Acceptable front name body lines → ∃ q, p.loadLines name lines = .ok q ∧
        Holds q (front ++ sectionsFrom name body lines)) ∧
      (¬ Acceptable front name body lines → ∃ q, p.loadLines name lines = .error q) := by
  induction lines generalizing p front name body with
  | nil =>
    refine ⟨fun _ => ⟨p, rfl, h⟩, fun hnot => absurd ⟨by simp, hproper⟩ hnot⟩
  | cons line lines ih =>
    have hname := hproper.name_not_mem
    cases hsection : isSectionLine line with
    | true =>
      rw [acceptable_section_iff hsection, sectionsFrom, if_pos hsection]
      have hstep := loadLine_section p name hsection
      by_cases hold : lineName line ∈ (front ++ [(name, body)]).map Prod.fst
      · rw [if_pos ((h.mem_allLines_iff _).mpr hold)] at hstep
        exact ⟨fun hgood => absurd hgood (not_acceptable_of_mem hold),
          fun _ => ⟨p, loadLines_cons_error lines hstep⟩⟩
      · rw [if_neg (mt (h.mem_allLines_iff _).mp hold)] at hstep
        rw [loadLines_cons lines hstep,
          List.append_cons front (name, body) (sectionsFrom (lineName line) [line] lines)]
        refine ih (h.newSection hsection hold hglobal) (hproper.newSection hsection hold) ?_
        rw [List.map_append]
        exact List.mem_append_left _ hglobal
    | false =>
      rw [sectionsFrom, if_neg (by simp [hsection])]
      cases hentry : isEntryLine line with
      | true =>
        rw [acceptable_cons_iff hsection (fun _ => hentry)]
        have hstep := loadLine_entry p name hentry
        rw [h.data_vector List.mem_concat_self, h.allLines_vector List.mem_concat_self] at hstep
        have hkeys : (∃ t ∈ entriesOf name body, t.field = lineKey line) ↔
            ¬ (entryKeys (body ++ [line])).Nodup := by
          have hbody := hproper.keys_nodup _ List.mem_concat_self
          rw [← List.mem_map, map_field_entriesOf, entryKeys_append, if_pos hentry, List.nodup_append]
          simp [hbody]
        split at hstep
        · next hold =>
          exact ⟨fun hgood => absurd hgood (not_acceptable_of_keys (hkeys.mp hold)),
            fun _ => ⟨_, loadLines_cons_error lines hstep⟩⟩
        · next hnew =>
          rw [loadLines_cons lines hstep]
          exact ih (h.pushEntry hname hentry) (hproper.push (not_not.mp (mt hkeys.mpr hnew)))
            (by simpa using hglobal)
      | false =>
        cases hread : isRead line with
        | true =>
          refine ⟨fun hgood => ?_,
            fun _ => ⟨p, loadLines_cons_error lines (loadLine_unrecognised p name hread hsection hentry)⟩⟩
          have hline := hgood.1 line List.mem_cons_self hread
          simp [hsection, hentry] at hline
        | false =>
          rw [acceptable_cons_iff hsection (fun h => by simp [hread] at h),
            loadLines_cons lines (loadLine_skip p name hread)]
          refine ih (h.pushLine hname hentry) (hproper.push ?_) (by simpa using hglobal)
          rw [entryKeys_append, if_neg (by simp [hentry]), List.append_nil]
          exact hproper.keys_nodup _ List.mem_concat_self

end clockUtils.iniParser
