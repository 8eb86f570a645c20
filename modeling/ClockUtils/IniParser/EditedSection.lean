import ClockUtils.IniParser.SetSave

namespace clockUtils.iniParser

namespace Cell

/-- The cells of lines that were read from a file. -/
def ofLines : List Bytes → List Cell
  | [] => []
  | text :: lines =>
    if isEntryLine text then .entry text (lineKey text) (lineValue text) :: ofLines lines
    else .plain text :: ofLines lines

theorem map_line_ofLines (lines : List Bytes) : (ofLines lines).map Cell.line = lines := by
  induction lines with
  | nil => rfl
  | cons text lines ih =>
    rw [ofLines]
    split
    · rw [List.map_cons, ih, Cell.line]
    · rw [List.map_cons, ih, Cell.line]

theorem fields_ofLines (lines : List Bytes) : fields (ofLines lines) = entryKeys lines := by
  induction lines with
  | nil => rfl
  | cons text lines ih =>
    rw [ofLines, entryKeys_cons]
    split
    · rw [fields, ih]
    · rw [fields, ih]

theorem entriesFrom_ofLines (name : Bytes) (i : Nat) (lines : List Bytes) :
    entriesFrom name i (ofLines lines) =
      ((lines.zipIdx i).filter fun (text, _) => isEntryLine text).map fun (text, i) =>
        ⟨name, lineKey text, i, lineValue text⟩ := by
  induction lines generalizing i with
  | nil => rfl
  | cons text lines ih =>
    rw [ofLines, List.zipIdx_cons, List.filter_cons]
    split
    · rw [entriesFrom, ih, List.map_cons]
    · rw [entriesFrom, ih]

theorem entriesOf_eq_entriesFrom (name : Bytes) (lines : List Bytes) :
    entriesOf name lines = entriesFrom name 0 (ofLines lines) :=
  (entriesFrom_ofLines name 0 lines).symm

/-- Behind a section line the entries have the following line numbers. -/
theorem entriesOf_cons (name : Bytes) {header : Bytes} (hheader : isSectionLine header = true)
    (lines : List Bytes) : entriesOf name (header :: lines) = entriesFrom name 1 (ofLines lines) := by
  rw [entriesOf_eq_entriesFrom, ofLines,
    if_neg (by simp [not_isEntryLine_of_isSectionLine hheader]), entriesFrom]

theorem readsAs_of_isEntryLine {text : Bytes} (h : isEntryLine text = true) :
    ReadsAs (lineKey text ++ equalsSign :: lineValue text) (lineKey text) := by
  have hequals : equalsSign ∈ text := by
    simp only [isEntryLine, decide_eq_true_eq] at h
    exact h.2.2
  rw [lineKey_append_lineValue hequals]
  exact ⟨h, rfl⟩

/-- The lines of a section that `load` accepts can be saved. -/
theorem savable_ofLines {lines : List Bytes}
    (h : ∀ text ∈ lines, isRead text = true → isEntryLine text = true) (n : Nat) :
    Savable (n + (entryKeys lines).length) n (ofLines lines) := by
  induction lines generalizing n with
  | nil => trivial
  | cons text lines ih =>
    rw [List.forall_mem_cons] at h
    rw [ofLines, entryKeys_cons]
    split
    · next hentry =>
      have hrest := ih h.2 (n + 1)
      rw [List.length_cons, Nat.add_comm (entryKeys lines).length 1, ← Nat.add_assoc]
      refine ⟨readsAs_of_isEntryLine hentry, fun _ => ?_, hrest⟩
      rw [if_pos (by omega)]
      exact ⟨hentry, rfl⟩
    · next hentry =>
      refine ⟨?_, ih h.2 n⟩
      by_contra hread
      exact hentry (h.1 (by simpa using hread))

theorem fields_append (cells more : List Cell) :
    fields (cells ++ more) = fields cells ++ fields more := by
  induction cells with
  | nil => rfl
  | cons cell cells ih =>
    cases cell with
    | plain text => exact ih
    | entry text field value => rw [List.cons_append, fields, ih, fields, List.cons_append]

theorem entriesFrom_append (name : Bytes) (i : Nat) (cells more : List Cell) :
    entriesFrom name i (cells ++ more) =
      entriesFrom name i cells ++ entriesFrom name (i + cells.length) more := by
  induction cells generalizing i with
  | nil => rfl
  | cons cell cells ih =>
    have hindex : i + 1 + cells.length = i + (cells.length + 1) := by omega
    cases cell with
    | plain text => rw [List.cons_append, entriesFrom, ih, entriesFrom, hindex, List.length_cons]
    | entry text field value =>
      rw [List.cons_append, entriesFrom, ih, entriesFrom, hindex, List.length_cons, List.cons_append]

theorem savable_append {loaded n : Nat} {cells more : List Cell} :
    Savable loaded n (cells ++ more) ↔
      Savable loaded n cells ∧ Savable loaded (n + (fields cells).length) more := by
  induction cells generalizing n with
  | nil => simp [Savable, fields]
  | cons cell cells ih =>
    cases cell with
    | plain text => rw [List.cons_append, Savable, ih, Savable, fields, and_assoc]
    | entry text field value =>
      rw [List.cons_append, Savable, ih, Savable, fields, List.length_cons, and_assoc, and_assoc,
        show n + 1 + (fields cells).length = n + ((fields cells).length + 1) by omega]

/-- Gives the value to the first cell with this field. -/
def assign (field value : Bytes) : List Cell → List Cell
  | [] => []
  | .plain text :: cells => .plain text :: assign field value cells
  | .entry text f v :: cells =>
    if f = field then .entry text f value :: cells else .entry text f v :: assign field value cells

theorem map_line_assign (field value : Bytes) (cells : List Cell) :
    (assign field value cells).map Cell.line = cells.map Cell.line := by
  induction cells with
  | nil => rfl
  | cons cell cells ih =>
    cases cell with
    | plain text => rw [assign, List.map_cons, ih, List.map_cons]
    | entry text f v =>
      rw [assign]
      split
      · rfl
      · rw [List.map_cons, ih, List.map_cons]

theorem fields_assign (field value : Bytes) (cells : List Cell) :
    fields (assign field value cells) = fields cells := by
  induction cells with
  | nil => rfl
  | cons cell cells ih =>
    cases cell with
    | plain text => rw [assign, fields, ih, fields]
    | entry text f v =>
      rw [assign]
      split
      · rfl
      · rw [fields, ih, fields]

theorem entriesFrom_assign (name field value : Bytes) (i : Nat) (cells : List Cell) :
    entriesFrom name i (assign field value cells) =
      IniParser.assign name field value (entriesFrom name i cells) := by
  induction cells generalizing i with
  | nil => rfl
  | cons cell cells ih =>
    cases cell with
    | plain text => rw [assign, entriesFrom, ih, entriesFrom]
    | entry text f v =>
      rw [assign, entriesFrom, IniParser.assign]
      by_cases hfield : f = field
      · rw [if_pos hfield, if_pos ⟨rfl, hfield⟩, entriesFrom]
      · rw [if_neg hfield, if_neg (fun hmatch => hfield hmatch.2), entriesFrom, ih]

theorem savable_assign {loaded n : Nat} {cells : List Cell} {field value : Bytes}
    (h : Savable loaded n cells) (htext : ReadsAs (field ++ equalsSign :: value) field) :
    Savable loaded n (assign field value cells) := by
  induction cells generalizing n with
  | nil => trivial
  | cons cell cells ih =>
    cases cell with
    | plain text => exact ⟨h.1, ih h.2⟩
    | entry text f v =>
      obtain ⟨hwritten, hline, hrest⟩ := h
      rw [assign]
      split
      · next hfield =>
        subst hfield
        exact ⟨htext, hline, hrest⟩
      · exact ⟨hwritten, hline, ih hrest⟩

/-- Where `insertIndex` puts a new entry: on a line of its own behind all others,
or on a blank last line without an entry. -/
theorem insertIndex_cells {name : Bytes} {front : List Bytes} {cells : List Cell} {index : Nat}
    (h : IniParser.insertIndex (entriesFrom name front.length cells)
      (front ++ cells.map Cell.line) = .ok index) :
    index = front.length + cells.length ∨
      ∃ init, cells = init ++ [.plain []] ∧ index = front.length + init.length := by
  have hlength : (front ++ cells.map Cell.line).length = front.length + cells.length := by simp
  rw [IniParser.insertIndex, Run.bind_eq_ok_iff] at h
  obtain ⟨text, htext, h⟩ := h
  rw [back_eq_ok_iff] at htext
  split at h
  · next hblank =>
    rw [Run.bind_eq_ok_iff] at h
    obtain ⟨t, ht, h⟩ := h
    rw [back_eq_ok_iff] at ht
    have hvalue := Except.ok.inj h
    split at hvalue
    · next hother =>
      rcases List.eq_nil_or_concat cells with rfl | ⟨init, cell, rfl⟩
      · cases ht
      · rw [List.concat_eq_append] at htext ht hlength hvalue hother ⊢
        rw [List.map_append, List.map_singleton, ← List.append_assoc, List.getLast?_concat,
          Option.some.injEq, hblank] at htext
        have hcells : (init ++ [cell]).length = init.length + 1 := List.length_append
        cases cell with
        | plain line =>
          obtain rfl : line = [] := htext
          exact .inr ⟨init, rfl, by omega⟩
        | entry line field value =>
          rw [entriesFrom_append, entriesFrom, entriesFrom, List.getLast?_concat,
            Option.some.injEq] at ht
          have hindex : t.index = front.length + init.length := by rw [← ht]
          omega
    · exact .inl (by omega)
  · have hvalue := Except.ok.inj h
    exact .inl (by omega)

end Cell

/-- What comes before the entries of a section: its section line, or nothing for
`global`. -/
def IsFront (name : Bytes) (front : List Bytes) : Prop :=
  if name = globalName then front = []
  else ∃ header, front = [header] ∧ isSectionLine header = true ∧ lineName header = name

namespace IsFront

variable {name : Bytes} {front : List Bytes}

theorem eq_or (h : IsFront name front) :
    front = [] ∨ ∃ header, front = [header] ∧ isSectionLine header = true ∧ lineName header = name := by
  rw [IsFront] at h
  split at h
  · exact .inl h
  · exact .inr h

theorem entryKeys_append (h : IsFront name front) (rest : List Bytes) :
    entryKeys (front ++ rest) = entryKeys rest := by
  obtain rfl | ⟨header, rfl, hheader, -⟩ := h.eq_or
  · rfl
  · rw [List.singleton_append, Cell.entryKeys_cons, not_isEntryLine_of_isSectionLine hheader,
      if_neg Bool.false_ne_true]

theorem entriesOf_append (h : IsFront name front) (rest : List Bytes) :
    entriesOf name (front ++ rest) = Cell.entriesFrom name front.length (Cell.ofLines rest) := by
  obtain rfl | ⟨header, rfl, hheader, -⟩ := h.eq_or
  · exact Cell.entriesOf_eq_entriesFrom name rest
  · exact Cell.entriesOf_cons name hheader rest

end IsFront

/-- A section of which `save` writes the section line once and behind it lines
that `load` accepts. -/
def Regular (name : Bytes) (loaded : Nat) (entries : List Entry) (lines : List Bytes) : Prop :=
  ∃ front cells, IsFront name front ∧ lines = front ++ cells.map Cell.line ∧
    entries = Cell.entriesFrom name front.length cells ∧ Cell.Savable loaded 0 cells ∧
    (Cell.fields cells).Nodup ∧ loaded ≤ (Cell.fields cells).length

namespace Regular

/-- Lines behind the section line that are entry lines or not read. -/
theorem of_front {name : Bytes} {front rest : List Bytes} (hfront : IsFront name front)
    (hread : ∀ text ∈ rest, isRead text = true → isEntryLine text = true)
    (hkeys : (entryKeys (front ++ rest)).Nodup) :
    Regular name (entryKeys (front ++ rest)).length (entriesOf name (front ++ rest))
      (front ++ rest) := by
  have hsavable := Cell.savable_ofLines hread 0
  rw [Nat.zero_add] at hsavable
  rw [hfront.entryKeys_append] at hkeys ⊢
  refine ⟨front, Cell.ofLines rest, hfront, ?_, hfront.entriesOf_append rest, hsavable, ?_, ?_⟩
  · rw [Cell.map_line_ofLines]
  · rwa [Cell.fields_ofLines]
  · rw [Cell.fields_ofLines]

/-- The sections of an accepted file. -/
theorem of_load {lines body : List Bytes} {name : Bytes} (hwell : WellFormed lines)
    (hmem : (name, body) ∈ sections lines) :
    Regular name (entryKeys body).length (entriesOf name body) body := by
  obtain ⟨blocks, hblocks, hall⟩ := sectionsFrom_eq globalName [] lines
  have hlines : ∀ text ∈ body, text ∈ lines := by
    intro text htext
    have hflat : text ∈ (sections lines).flatMap Prod.snd :=
      List.mem_flatMap.mpr ⟨(name, body), hmem, htext⟩
    rwa [sections, flatMap_sectionsFrom, List.nil_append] at hflat
  have hkeys := hwell.keys_nodup _ hmem
  have hread : ∀ text ∈ body, isSectionLine text = false → isRead text = true →
      isEntryLine text = true := by
    intro text htext hsection hread
    have hline := hwell.recognised text (hlines text htext) hread
    simpa [hsection] using hline
  rw [sections, hblocks, List.nil_append, List.mem_cons] at hmem
  rcases hmem with heq | hmem
  · obtain ⟨rfl, rfl⟩ := Prod.mk.inj heq
    have hfront : IsFront globalName [] := by rw [IsFront, if_pos rfl]
    refine of_front hfront (fun text htext => hread text htext ?_) hkeys
    simpa using List.mem_takeWhile_imp htext
  · obtain ⟨header, rest, rfl, hheader, hname, hrest⟩ := hall _ hmem
    have hne : name ≠ globalName := by
      rintro rfl
      have hnames := map_fst_sectionsFrom globalName [] lines
      rw [hblocks, List.map_cons, List.cons.injEq] at hnames
      exact hwell.names_ne_global (hnames.2 ▸ List.mem_map.mpr ⟨_, hmem, rfl⟩)
    have hfront : IsFront name [header] := by
      rw [IsFront, if_neg hne]
      exact ⟨header, rfl, hheader, hname⟩
    exact of_front hfront
      (fun text htext => hread text (List.mem_cons_of_mem _ htext) (hrest text htext)) hkeys

variable {name : Bytes} {loaded : Nat} {entries : List Entry} {lines : List Bytes}

theorem sectionName_eq (h : Regular name loaded entries lines) (t : Entry) (ht : t ∈ entries) :
    t.sectionName = name := by
  obtain ⟨front, cells, -, -, rfl, -⟩ := h
  exact Cell.sectionName_of_mem ht

theorem assign (h : Regular name loaded entries lines) {field value : Bytes}
    (htext : Cell.ReadsAs (field ++ equalsSign :: value) field) :
    Regular name loaded (IniParser.assign name field value entries) lines := by
  obtain ⟨front, cells, hfront, rfl, rfl, hsavable, hnodup, hloaded⟩ := h
  refine ⟨front, Cell.assign field value cells, hfront, ?_, ?_, Cell.savable_assign hsavable htext,
    ?_, ?_⟩
  · rw [Cell.map_line_assign]
  · rw [Cell.entriesFrom_assign]
  · rwa [Cell.fields_assign]
  · rwa [Cell.fields_assign]

theorem append (h : Regular name loaded entries lines) {field value : Bytes} {index : Nat}
    (htext : Cell.ReadsAs (field ++ equalsSign :: value) field)
    (hnew : field ∉ entries.map Entry.field)
    (hindex : IniParser.insertIndex entries lines = .ok index) :
    Regular name loaded (entries ++ [⟨name, field, index, value⟩]) (lines ++ [[]]) := by
  obtain ⟨front, cells, hfront, rfl, rfl, hsavable, hnodup, hloaded⟩ := h
  rw [Cell.map_field_entriesFrom] at hnew
  have hfields : (Cell.fields cells ++ [field]).Nodup := by
    rw [List.nodup_append]
    refine ⟨hnodup, by simp, fun a ha b hb heq => hnew ?_⟩
    rw [List.mem_singleton] at hb
    rwa [← hb, ← heq]
  rcases Cell.insertIndex_cells hindex with rfl | ⟨init, rfl, rfl⟩
  · refine ⟨front, cells ++ [.entry [] field value], hfront, ?_, ?_, ?_, ?_, ?_⟩
    · simp [Cell.line]
    · rw [Cell.entriesFrom_append]
      rfl
    · rw [Cell.savable_append]
      refine ⟨hsavable, htext, fun _ => ?_, trivial⟩
      rw [if_neg (by omega)]
    · rw [Cell.fields_append]
      exact hfields
    · rw [Cell.fields_append, List.length_append]
      omega
  · have hsame : Cell.fields (init ++ [.plain []]) = Cell.fields init := by
      rw [Cell.fields_append]
      exact List.append_nil _
    rw [hsame] at hloaded hfields
    rw [Cell.savable_append] at hsavable
    refine ⟨front, init ++ [.entry [] field value, .plain []], hfront, ?_, ?_, ?_, ?_, ?_⟩
    · simp [Cell.line]
    · rw [Cell.entriesFrom_append, Cell.entriesFrom_append]
      simp [Cell.entriesFrom]
    · rw [Cell.savable_append]
      refine ⟨hsavable.1, htext, fun _ => ?_, rfl, trivial⟩
      rw [if_neg (by omega)]
    · rw [Cell.fields_append]
      exact hfields
    · rw [Cell.fields_append, List.length_append]
      omega

/-- A section that `setValue` creates, or that it finds with a section line only.
There the second section line is the one on which the entry stands. -/
theorem create {field value : Bytes} (hname : name ≠ globalName) {front : List Bytes}
    (hfront : front = [] ∨ IsFront name front)
    (htext : Cell.ReadsAs (field ++ equalsSign :: value) field) :
    Regular name 0 [⟨name, field, 1, value⟩] (front ++ [IniParser.sectionLine name, []]) := by
  have hheader : IsFront name [IniParser.sectionLine name] := by
    rw [IsFront, if_neg hname]
    exact ⟨_, rfl, isSectionLine_sectionLine name, lineName_sectionLine name⟩
  rcases hfront with rfl | hfront
  · exact ⟨_, [.entry [] field value], hheader, rfl, rfl, ⟨htext, by simp, trivial⟩,
      by simp [Cell.fields], Nat.zero_le _⟩
  · refine ⟨front, [.entry (IniParser.sectionLine name) field value, .plain []], hfront, rfl, ?_,
      ⟨htext, by simp, rfl, trivial⟩, by simp [Cell.fields], Nat.zero_le _⟩
    rw [IsFront, if_neg hname] at hfront
    obtain ⟨header, rfl, -, -⟩ := hfront
    rfl

/-- What `save` writes: the front as it is, then the cells. -/
theorem exists_saved (h : Regular name loaded entries lines) :
    ∃ front cells, IsFront name front ∧
      IniParser.saveLines entries 0 0 lines = front ++ Cell.saved 0 cells ∧
      Cell.Savable loaded 0 cells ∧ Cell.fields cells = entries.map Entry.field := by
  obtain ⟨front, cells, hfront, rfl, rfl, hsavable, -, -⟩ := h
  refine ⟨front, cells, hfront, ?_, hsavable, (Cell.map_field_entriesFrom _ _ _).symm⟩
  have hsaved : IniParser.saveLines (Cell.entriesFrom name front.length cells) front.length 0
      (cells.map Cell.line) = Cell.saved 0 cells :=
    @Cell.saveLines_eq_saved name [] front.length cells (by simp)
  obtain rfl | ⟨header, rfl, -, -⟩ := hfront.eq_or
  · exact hsaved
  · rw [List.singleton_append, List.singleton_append, IniParser.saveLines]
    split
    · exact congrArg (List.cons header) hsaved
    · next t ht =>
      have hindex := Cell.le_index_of_mem (List.mem_of_getElem? ht)
      rw [if_neg (by rw [List.length_singleton] at hindex; omega)]
      exact congrArg (List.cons header) hsaved

theorem fields_nodup (h : Regular name loaded entries lines) : (entries.map Entry.field).Nodup := by
  obtain ⟨front, cells, -, -, rfl, -, hnodup, -⟩ := h
  rwa [Cell.map_field_entriesFrom]

/-- The keys that `load` finds in what `save` writes. -/
theorem entryKeys_saved (h : Regular name loaded entries lines) :
    entryKeys (IniParser.saveLines entries 0 0 lines) =
      (entries.map Entry.field).take (max (2 ^ 32) loaded) := by
  obtain ⟨front, cells, hfront, hsaved, hsavable, hfields⟩ := h.exists_saved
  rw [hsaved, ← hfields, hfront.entryKeys_append, Cell.entryKeys_saved hsavable, Nat.sub_zero]

theorem recognised_saved (h : Regular name loaded entries lines) {text : Bytes}
    (htext : text ∈ IniParser.saveLines entries 0 0 lines) (hread : isRead text = true) :
    isSectionLine text ∨ isEntryLine text := by
  obtain ⟨front, cells, hfront, hsaved, hsavable, -⟩ := h.exists_saved
  rw [hsaved, List.mem_append] at htext
  rcases htext with htext | htext
  · obtain rfl | ⟨header, rfl, hheader, -⟩ := hfront.eq_or
    · cases htext
    · rw [List.mem_singleton.mp htext]
      exact .inl hheader
  · exact .inr ((Cell.saved_line hsavable htext).2 hread)

theorem isBlock_saved (h : Regular name loaded entries lines) (hname : name ≠ globalName) :
    IsBlock (name, IniParser.saveLines entries 0 0 lines) := by
  obtain ⟨front, cells, hfront, hsaved, hsavable, -⟩ := h.exists_saved
  rw [IsFront, if_neg hname] at hfront
  obtain ⟨header, rfl, hheader, hheaderName⟩ := hfront
  exact ⟨header, Cell.saved 0 cells, hsaved, hheader, hheaderName,
    fun text htext => (Cell.saved_line hsavable htext).1⟩

theorem isSectionLine_saved (h : Regular globalName loaded entries lines) {text : Bytes}
    (htext : text ∈ IniParser.saveLines entries 0 0 lines) : isSectionLine text = false := by
  obtain ⟨front, cells, hfront, hsaved, hsavable, -⟩ := h.exists_saved
  rw [IsFront, if_pos rfl] at hfront
  rw [hsaved, hfront, List.nil_append] at htext
  exact (Cell.saved_line hsavable htext).1

end Regular

/-- A section of which `save` writes two section lines: no entry stands on them. -/
def Doubled (name : Bytes) (entries : List Entry) (lines : List Bytes) : Prop :=
  ∃ i j first second, i < j ∧ lines[i]? = some first ∧ lines[j]? = some second ∧
    (isSectionLine first = true ∧ lineName first = name) ∧
    (isSectionLine second = true ∧ lineName second = name) ∧
    ∀ t ∈ entries, t.index ≠ i ∧ t.index ≠ j

namespace Doubled

variable {name : Bytes} {entries : List Entry} {lines : List Bytes}

theorem assign (h : Doubled name entries lines) (field value : Bytes) :
    Doubled name (IniParser.assign name field value entries) lines := by
  obtain ⟨i, j, first, second, hij, hfirst, hsecond, hline, hline', hother⟩ := h
  refine ⟨i, j, first, second, hij, hfirst, hsecond, hline, hline', fun t ht => ?_⟩
  have hindex : t.index ∈ entries.map Entry.index := by
    rw [← map_assign Entry.index (fun _ _ => rfl) name field value]
    exact List.mem_map.mpr ⟨t, ht, rfl⟩
  obtain ⟨t', ht', heq⟩ := List.mem_map.mp hindex
  rw [← heq]
  exact hother t' ht'

/-- A new entry stands on a blank line. -/
theorem insertIndex_blank {index : Nat} (h : IniParser.insertIndex entries lines = .ok index) :
    (lines ++ [[]])[index]? = some [] := by
  rw [IniParser.insertIndex, Run.bind_eq_ok_iff] at h
  obtain ⟨text, htext, h⟩ := h
  rw [back_eq_ok_iff, List.getLast?_eq_some_iff] at htext
  obtain ⟨init, rfl⟩ := htext
  split at h
  · next hblank =>
    rw [Run.bind_eq_ok_iff] at h
    obtain ⟨t, -, h⟩ := h
    have hvalue := Except.ok.inj h
    rw [List.length_append, List.length_singleton] at hvalue
    split at hvalue
    · rw [← hvalue, hblank]
      simp
    · rw [← hvalue]
      simp
  · rw [← Except.ok.inj h]
    simp

theorem append (h : Doubled name entries lines) {field value : Bytes} {index : Nat}
    (hindex : IniParser.insertIndex entries lines = .ok index) :
    Doubled name (entries ++ [⟨name, field, index, value⟩]) (lines ++ [[]]) := by
  obtain ⟨i, j, first, second, hij, hfirst, hsecond, hline, hline', hother⟩ := h
  have hgrown : ∀ {k : Nat} {text : Bytes}, lines[k]? = some text →
      (lines ++ [[]])[k]? = some text := by
    intro k text htext
    obtain ⟨hk, -⟩ := List.getElem?_eq_some_iff.mp htext
    rwa [List.getElem?_append_left hk]
  have hne : ∀ {k : Nat} {text : Bytes}, lines[k]? = some text → isSectionLine text = true →
      index ≠ k := by
    rintro k text htext hsection rfl
    have hblank := insertIndex_blank hindex
    rw [hgrown htext, Option.some.injEq] at hblank
    rw [hblank] at hsection
    cases hsection
  refine ⟨i, j, first, second, hij, hgrown hfirst, hgrown hsecond, hline, hline', fun t ht => ?_⟩
  rcases List.mem_append.mp ht with ht | ht
  · exact hother t ht
  · rw [List.mem_singleton.mp ht]
    exact ⟨hne hfirst hline.1, hne hsecond hline'.1⟩

/-- `setValue` finds a section line and further lines, but no entry. -/
theorem create {field value header text : Bytes} {rest : List Bytes}
    (hheader : isSectionLine header = true ∧ lineName header = name) :
    Doubled name [⟨name, field, 1, value⟩]
      ((header :: text :: rest) ++ [IniParser.sectionLine name, []]) := by
  refine ⟨0, rest.length + 2, header, IniParser.sectionLine name, by omega, rfl, ?_, hheader,
    ⟨isSectionLine_sectionLine name, lineName_sectionLine name⟩, fun t ht => ?_⟩
  · rw [List.getElem?_append_right (by simp)]
    simp
  · rw [List.mem_singleton.mp ht]
    simp only
    omega

/-- A line on which no entry stands is written as it is. -/
theorem getElem?_saveLines {k : Nat} {i : Nat} (hother : ∀ t ∈ entries, t.index ≠ i + k)
    (nextEntry : UInt32) : (IniParser.saveLines entries i nextEntry lines)[k]? = lines[k]? := by
  induction lines generalizing i k nextEntry with
  | nil => rfl
  | cons text lines ih =>
    have hrest : ∀ k', k = k' + 1 → ∀ t ∈ entries, t.index ≠ i + 1 + k' := by
      intro k' hk t ht
      have hne := hother t ht
      omega
    rw [IniParser.saveLines]
    split
    · cases k with
      | zero => rfl
      | succ k => exact ih (hrest k rfl) nextEntry
    · next t ht =>
      split
      · next hindex =>
        cases k with
        | zero => exact absurd hindex.symm (hother t (List.mem_of_getElem? ht))
        | succ k => exact ih (hrest k rfl) (nextEntry + 1)
      · cases k with
        | zero => rfl
        | succ k => exact ih (hrest k rfl) nextEntry

theorem pair_sublist_of_getElem? {α : Type} {xs : List α} {i j : Nat} {x y : α} (hij : i < j)
    (hx : xs[i]? = some x) (hy : xs[j]? = some y) : [x, y].Sublist xs := by
  obtain ⟨hi, hx⟩ := List.getElem?_eq_some_iff.mp hx
  obtain ⟨hj, hy⟩ := List.getElem?_eq_some_iff.mp hy
  have hsplit : xs = xs.take j ++ y :: xs.drop (j + 1) := by
    rw [← hy, List.getElem_cons_drop, List.take_append_drop]
  rw [hsplit]
  refine @List.Sublist.append _ [x] _ [y] _ ?_ (List.singleton_sublist.mpr List.mem_cons_self)
  rw [List.singleton_sublist, ← hx]
  exact List.mem_take_iff_getElem.mpr ⟨i, by omega, rfl⟩

/-- The name comes twice among the saved section lines. -/
theorem names_saved (h : Doubled name entries lines) :
    ¬ (sectionNames (IniParser.saveLines entries 0 0 lines)).Nodup := by
  obtain ⟨i, j, first, second, hij, hfirst, hsecond, hline, hline', hother⟩ := h
  have hi : (IniParser.saveLines entries 0 0 lines)[i]? = some first := by
    rw [getElem?_saveLines (fun t ht => by rw [Nat.zero_add]; exact (hother t ht).1), hfirst]
  have hj : (IniParser.saveLines entries 0 0 lines)[j]? = some second := by
    rw [getElem?_saveLines (fun t ht => by rw [Nat.zero_add]; exact (hother t ht).2), hsecond]
  have hsublist := ((pair_sublist_of_getElem? hij hi hj).filter isSectionLine).map lineName
  intro hnodup
  have hpair := hnodup.sublist hsublist
  simp [hline.1, hline'.1, hline.2, hline'.2] at hpair

end Doubled

end clockUtils.iniParser
