import ClockUtils.IniParser.Cells
import ClockUtils.IniParser.SetValues

namespace clockUtils.iniParser

theorem isSectionLine_sectionLine (name : Bytes) : isSectionLine (IniParser.sectionLine name) = true := by
  have hlast : (IniParser.sectionLine name).getLast? = some closeBracket := List.getLast?_concat
  have hhead : (IniParser.sectionLine name).head? = some openBracket := rfl
  have hlength : 2 ≤ (IniParser.sectionLine name).length := by simp [IniParser.sectionLine]
  simp only [isSectionLine, isRead, hlast, hhead, decide_eq_true_eq]
  exact ⟨⟨hlength, by decide⟩, trivial, trivial⟩

theorem lineName_sectionLine (name : Bytes) : lineName (IniParser.sectionLine name) = name := by
  simp [lineName, IniParser.sectionLine]

theorem newline_not_mem_sectionLine {name : Bytes} (h : newline ∉ name) :
    newline ∉ IniParser.sectionLine name := by
  simp only [IniParser.sectionLine, List.cons_append, List.mem_cons, List.mem_append,
    List.not_mem_nil, or_false, not_or]
  exact ⟨by decide, h, by decide⟩

section EntryText

variable {t : Entry} (h : Assignment.Fits ⟨t.sectionName, t.field, t.value⟩)

include h

theorem isEntryLine_entryText : isEntryLine (IniParser.entryText t) = true := by
  obtain ⟨c, field, hfield⟩ := List.exists_cons_of_ne_nil h.field_ne_nil
  have hopen := h.field_open
  have hcomment := h.field_comment
  simp only at hfield hopen hcomment
  rw [hfield] at hopen hcomment
  simp only [isEntryLine, isRead, IniParser.entryText, hfield, List.cons_append, List.head?_cons,
    decide_eq_true_eq, List.length_cons, List.length_append]
  exact ⟨⟨by omega, hcomment⟩, hopen, by simp⟩

theorem idxOf_entryText : (IniParser.entryText t).idxOf equalsSign = t.field.length := by
  rw [IniParser.entryText, List.idxOf_append_of_notMem h.field_equals, List.idxOf_cons_self,
    Nat.add_zero]

theorem lineKey_entryText : lineKey (IniParser.entryText t) = t.field := by
  rw [lineKey, idxOf_entryText h, IniParser.entryText, List.take_left]

theorem lineValue_entryText : lineValue (IniParser.entryText t) = t.value := by
  rw [lineValue, idxOf_entryText h, IniParser.entryText, ← List.drop_drop, List.drop_left,
    List.drop_one, List.tail_cons]

theorem newline_not_mem_entryText : newline ∉ IniParser.entryText t := by
  have hfield := h.field_lines
  have hvalue := h.value_lines
  simp only [IniParser.entryText, List.mem_append, List.mem_cons, not_or]
  exact ⟨hfield, by decide, hvalue⟩

end EntryText

/-- The lines that `save` writes for a section of `setValue`: the section line,
then the entries as far as its 32-bit counter reaches. -/
def writtenLines (name : Bytes) (entries : List Entry) : List Bytes :=
  IniParser.sectionLine name :: ((entries.take (2 ^ 32)).map IniParser.entryText ++
    List.replicate (entries.length - 2 ^ 32) [])

/-- The placeholder in whose place an entry is written. -/
def Cell.placeholder (t : Entry) : Cell :=
  .entry [] t.field t.value

theorem Cell.map_line_placeholder (entries : List Entry) :
    (entries.map placeholder).map line = List.replicate entries.length [] := by
  rw [List.map_map]
  exact List.map_const'

theorem Cell.entriesFrom_placeholder {name : Bytes} {i : Nat} {entries : List Entry}
    (hnames : ∀ t ∈ entries, t.sectionName = name)
    (hindices : entries.map Entry.index = List.range' i entries.length) :
    entriesFrom name i (entries.map placeholder) = entries := by
  induction entries generalizing i with
  | nil => rfl
  | cons t entries ih =>
    rw [List.forall_mem_cons] at hnames
    rw [List.map_cons, List.length_cons, List.range'_succ, List.cons.injEq] at hindices
    obtain ⟨rfl, hrest⟩ := hindices
    obtain ⟨rfl, hnames⟩ := hnames
    rw [List.map_cons, placeholder, entriesFrom, ih hnames hrest]

theorem Cell.saved_placeholder (n : Nat) (entries : List Entry) :
    saved n (entries.map placeholder) = (entries.take (2 ^ 32 - n)).map IniParser.entryText ++
      List.replicate (entries.length - (2 ^ 32 - n)) [] := by
  induction entries generalizing n with
  | nil => simp [saved]
  | cons t entries ih =>
    rw [List.map_cons, placeholder, saved, ih]
    by_cases hn : n < 2 ^ 32
    · have hroom : 2 ^ 32 - n = 2 ^ 32 - (n + 1) + 1 := by omega
      rw [if_pos hn, hroom, List.take_succ_cons, List.map_cons, List.length_cons,
        Nat.add_sub_add_right]
      rfl
    · have hfull : 2 ^ 32 - n = 0 := by omega
      have hfull' : 2 ^ 32 - (n + 1) = 0 := by omega
      rw [if_neg hn, hfull, hfull', List.length_cons, Nat.sub_zero, Nat.sub_zero,
        List.replicate_succ]
      rfl

theorem BuiltSection.saveLines_eq {name : Bytes} {entries : List Entry} {lines : List Bytes}
    (h : BuiltSection name entries lines) :
    IniParser.saveLines entries 0 0 lines = writtenLines name entries := by
  have hentries : Cell.entriesFrom name 1 (entries.map Cell.placeholder) = entries :=
    Cell.entriesFrom_placeholder h.entries_of.sectionName_eq h.indices
  have hsaved : IniParser.saveLines entries 1 0 (List.replicate entries.length []) =
      (entries.take (2 ^ 32)).map IniParser.entryText ++
        List.replicate (entries.length - 2 ^ 32) [] := by
    have hcells := @Cell.saveLines_eq_saved name [] 1 (entries.map Cell.placeholder) (by simp)
    rw [List.nil_append, hentries, Cell.map_line_placeholder] at hcells
    exact hcells.trans (Cell.saved_placeholder 0 entries)
  rw [h.lines_eq, IniParser.saveLines, writtenLines]
  split
  · rw [hsaved]
  · next t ht =>
    have hindex : 1 ≤ t.index := by
      have hmem := List.mem_of_getElem? ht
      rw [← hentries] at hmem
      exact Cell.le_index_of_mem hmem
    rw [if_neg (by omega), hsaved]

namespace BuiltSection

variable {name : Bytes} {entries : List Entry} {lines : List Bytes}

theorem mem_writtenLines {line : Bytes} (hline : line ∈ writtenLines name entries) :
    line = IniParser.sectionLine name ∨ line = [] ∨
      ∃ t ∈ entries, line = IniParser.entryText t := by
  rw [writtenLines, List.mem_cons, List.mem_append, List.mem_map] at hline
  rcases hline with rfl | ⟨t, ht, rfl⟩ | hline
  · exact .inl rfl
  · exact .inr (.inr ⟨t, List.mem_of_mem_take ht, rfl⟩)
  · exact .inr (.inl (List.eq_of_mem_replicate hline))

theorem filter_writtenLines (h : BuiltSection name entries lines) :
    (writtenLines name entries).filter isEntryLine =
      (entries.take (2 ^ 32)).map IniParser.entryText := by
  have hentries : ((entries.take (2 ^ 32)).map IniParser.entryText).filter isEntryLine =
      (entries.take (2 ^ 32)).map IniParser.entryText := by
    rw [List.filter_eq_self]
    intro line hline
    obtain ⟨t, ht, rfl⟩ := List.mem_map.mp hline
    exact isEntryLine_entryText (h.writable t (List.mem_of_mem_take ht)).toFits
  have hblank : (List.replicate (entries.length - 2 ^ 32) ([] : Bytes)).filter isEntryLine = [] := by
    rw [List.filter_eq_nil_iff]
    intro line hline
    rw [List.eq_of_mem_replicate hline]
    decide
  rw [writtenLines, List.filter_cons_of_neg, List.filter_append, hentries, hblank, List.append_nil]
  simp [not_isEntryLine_of_isSectionLine (isSectionLine_sectionLine name)]

theorem entryKeys_writtenLines (h : BuiltSection name entries lines) :
    entryKeys (writtenLines name entries) = (entries.map Entry.field).take (2 ^ 32) := by
  rw [entryKeys, h.filter_writtenLines, List.map_map, ← List.map_take]
  apply List.map_congr_left
  intro t ht
  exact lineKey_entryText (h.writable t (List.mem_of_mem_take ht)).toFits

theorem exists_writtenLines_iff (h : BuiltSection name entries lines) (field value : Bytes) :
    (∃ line ∈ writtenLines name entries, isEntryLine line ∧ lineKey line = field ∧
        lineValue line = value) ↔
      ∃ t ∈ entries.take (2 ^ 32), t.field = field ∧ t.value = value := by
  constructor
  · rintro ⟨line, hline, hentry, rfl, rfl⟩
    have hfilter := List.mem_filter.mpr ⟨hline, hentry⟩
    rw [h.filter_writtenLines] at hfilter
    obtain ⟨t, ht, rfl⟩ := List.mem_map.mp hfilter
    have hfits := (h.writable t (List.mem_of_mem_take ht)).toFits
    exact ⟨t, ht, (lineKey_entryText hfits).symm, (lineValue_entryText hfits).symm⟩
  · rintro ⟨t, ht, rfl, rfl⟩
    have hfits := (h.writable t (List.mem_of_mem_take ht)).toFits
    have hfilter : IniParser.entryText t ∈ (writtenLines name entries).filter isEntryLine := by
      rw [h.filter_writtenLines]
      exact List.mem_map.mpr ⟨t, ht, rfl⟩
    obtain ⟨hline, hentry⟩ := List.mem_filter.mp hfilter
    exact ⟨_, hline, hentry, lineKey_entryText hfits, lineValue_entryText hfits⟩

theorem name_writable (h : BuiltSection name entries lines) : newline ∉ name ∧ name ≠ globalName := by
  obtain ⟨t, ht⟩ := List.exists_mem_of_ne_nil entries h.nonempty
  have hname := h.entries_of.sectionName_eq t ht
  have hwritable := h.writable t ht
  rw [hname] at hwritable
  exact ⟨hwritable.sectionName_lines, hwritable.sectionName_ne⟩

theorem newline_not_mem (h : BuiltSection name entries lines) {line : Bytes}
    (hline : line ∈ writtenLines name entries) : newline ∉ line := by
  rcases mem_writtenLines hline with rfl | rfl | ⟨t, ht, rfl⟩
  · exact newline_not_mem_sectionLine h.name_writable.1
  · simp
  · exact newline_not_mem_entryText (h.writable t ht).toFits

/-- Every line of the block but the first is no section line. -/
theorem isBlock (h : BuiltSection name entries lines) : IsBlock (name, writtenLines name entries) := by
  refine ⟨_, _, rfl, isSectionLine_sectionLine name, lineName_sectionLine name, fun line hline => ?_⟩
  rw [List.mem_append, List.mem_map] at hline
  rcases hline with ⟨t, ht, rfl⟩ | hline
  · have hentry := isEntryLine_entryText (h.writable t (List.mem_of_mem_take ht)).toFits
    by_contra hsection
    rw [not_isEntryLine_of_isSectionLine (by simpa using hsection)] at hentry
    cases hentry
  · rw [List.eq_of_mem_replicate hline]
    decide

theorem recognised (h : BuiltSection name entries lines) {line : Bytes}
    (hline : line ∈ writtenLines name entries) (hread : isRead line = true) :
    isSectionLine line ∨ isEntryLine line := by
  rcases mem_writtenLines hline with rfl | rfl | ⟨t, ht, rfl⟩
  · exact .inl (isSectionLine_sectionLine name)
  · cases hread
  · exact .inr (isEntryLine_entryText (h.writable t ht).toFits)

end BuiltSection

end clockUtils.iniParser
