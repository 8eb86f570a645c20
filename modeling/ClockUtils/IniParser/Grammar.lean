import ClockUtils.IniParser.IniParser
import Mathlib.Data.List.Induction
import Mathlib.Data.List.Nodup

namespace clockUtils.iniParser

/-- A line that is no comment and has more than one character. -/
def isRead (line : Bytes) : Bool :=
  2 ≤ line.length ∧ line.head? ≠ some semicolon

def isSectionLine (line : Bytes) : Bool :=
  isRead line ∧ line.head? = some openBracket ∧ line.getLast? = some closeBracket

def isEntryLine (line : Bytes) : Bool :=
  isRead line ∧ line.head? ≠ some openBracket ∧ equalsSign ∈ line

/-- The text between the brackets of a section line. -/
def lineName (line : Bytes) : Bytes :=
  (line.drop 1).take (line.length - 2)

/-- The text before the first equals sign. -/
def lineKey (line : Bytes) : Bytes :=
  line.take (line.idxOf equalsSign)

/-- The text behind the first equals sign. -/
def lineValue (line : Bytes) : Bytes :=
  line.drop (line.idxOf equalsSign + 1)

/-- The names that the section lines carry. -/
def sectionNames (lines : List Bytes) : List Bytes :=
  (lines.filter isSectionLine).map lineName

/-- The texts of the entry lines before their first equals sign. -/
def entryKeys (lines : List Bytes) : List Bytes :=
  (lines.filter isEntryLine).map lineKey

/-- A section of a file: its name and its lines, the section line included. -/
abbrev FileSection := Bytes × List Bytes

/-- Cuts lines into sections, behind a section that has begun with `body`. -/
def sectionsFrom (name : Bytes) (body : List Bytes) : List Bytes → List FileSection
  | [] => [(name, body)]
  | line :: lines =>
    if isSectionLine line then (name, body) :: sectionsFrom (lineName line) [line] lines
    else sectionsFrom name (body ++ [line]) lines

/-- The sections of a file in their order. The lines before the first section
line are section `global`. -/
def sections (lines : List Bytes) : List FileSection :=
  sectionsFrom globalName [] lines

/-- The files that are well formed: every line that is read is a section or an
entry line, no section line repeats a name or takes `global`, and no section
has two entry lines for one key. -/
structure WellFormed (lines : List Bytes) : Prop where
  recognised : ∀ line ∈ lines, isRead line → isSectionLine line ∨ isEntryLine line
  names_nodup : (sectionNames lines).Nodup
  names_ne_global : globalName ∉ sectionNames lines
  keys_nodup : ∀ fileSection ∈ sections lines, (entryKeys fileSection.2).Nodup

theorem map_fst_sectionsFrom (name : Bytes) (body lines : List Bytes) :
    (sectionsFrom name body lines).map Prod.fst = name :: sectionNames lines := by
  induction lines generalizing name body with
  | nil => rfl
  | cons line lines ih =>
    rw [sectionsFrom, sectionNames, List.filter_cons]
    split
    · rw [List.map_cons, ih, List.map_cons, sectionNames]
    · rw [ih, sectionNames]

/-- The section that has begun only grows. -/
theorem exists_mem_sectionsFrom (name : Bytes) (body lines : List Bytes) :
    ∃ more, (name, body ++ more) ∈ sectionsFrom name body lines := by
  induction lines generalizing body with
  | nil => exact ⟨[], by simp [sectionsFrom]⟩
  | cons line lines ih =>
    rw [sectionsFrom]
    split
    · exact ⟨[], by simp⟩
    · obtain ⟨more, hmore⟩ := ih (body ++ [line])
      exact ⟨line :: more, by simpa using hmore⟩

theorem not_isEntryLine_of_isSectionLine {line : Bytes} (h : isSectionLine line = true) :
    isEntryLine line = false := by
  simp only [isSectionLine, isEntryLine, decide_eq_true_eq, decide_eq_false_iff_not] at h ⊢
  exact fun hentry => hentry.2.1 h.2.1

/-- The entries of a section's lines with their positions. -/
def entriesOf (name : Bytes) (lines : List Bytes) : List Entry :=
  (lines.zipIdx.filter fun (line, _) => isEntryLine line).map fun (line, i) =>
    ⟨name, lineKey line, i, lineValue line⟩

theorem entriesOf_append (name : Bytes) (lines : List Bytes) (line : Bytes) :
    entriesOf name (lines ++ [line]) = entriesOf name lines ++
      if isEntryLine line then [⟨name, lineKey line, lines.length, lineValue line⟩] else [] := by
  simp only [entriesOf, List.zipIdx_append, List.filter_append, List.map_append, List.zipIdx_singleton,
    List.append_cancel_left_eq, Nat.zero_add]
  by_cases h : isEntryLine line <;> simp [h]

theorem map_field_entriesOf (name : Bytes) (lines : List Bytes) :
    (entriesOf name lines).map Entry.field = entryKeys lines := by
  induction lines using List.reverseRecOn with
  | nil => rfl
  | append_singleton lines line ih =>
    rw [entriesOf_append, List.map_append, ih, entryKeys, entryKeys, List.filter_append]
    by_cases h : isEntryLine line <;> simp [h]

theorem mem_entriesOf_iff {name : Bytes} {lines : List Bytes} {t : Entry} :
    t ∈ entriesOf name lines ↔ t.sectionName = name ∧ ∃ line, lines[t.index]? = some line ∧
      isEntryLine line ∧ lineKey line = t.field ∧ lineValue line = t.value := by
  obtain ⟨sectionName, field, index, value⟩ := t
  simp only [entriesOf, List.mem_map, List.mem_filter, List.mem_zipIdx_iff_getElem?, Prod.exists,
    Entry.mk.injEq]
  constructor
  · rintro ⟨line, i, ⟨hline, hentry⟩, rfl, rfl, rfl, rfl⟩
    exact ⟨rfl, line, hline, hentry, rfl, rfl⟩
  · rintro ⟨rfl, line, hline, hentry, rfl, rfl⟩
    exact ⟨line, index, ⟨hline, hentry⟩, rfl, rfl, rfl, rfl⟩

/-- The parser's maps for the given sections. A section without entries is
missing in `_data`, unless it is `global`. -/
structure Holds (p : IniParser) (secs : List FileSection) : Prop where
  allLines_iff : ∀ name lines, p.allLines[name]? = some lines ↔ (name, lines) ∈ secs
  data_iff : ∀ name entries, p.data[name]? = some entries ↔
    (entries ≠ [] ∨ name = globalName) ∧ ∃ lines, (name, lines) ∈ secs ∧ entries = entriesOf name lines

end clockUtils.iniParser
