import ClockUtils.IniParser.LineIndex
import Mathlib.Data.List.Dedup

namespace clockUtils.iniParser

/-- The arguments of a call of `setValue`. -/
structure Assignment where
  sectionName : Bytes
  field : Bytes
  value : Bytes

/-- The texts that can stand in a file. -/
@[mk_iff]
structure Assignment.Fits (a : Assignment) : Prop where
  sectionName_lines : newline ∉ a.sectionName
  field_ne_nil : a.field ≠ []
  field_lines : newline ∉ a.field
  field_equals : equalsSign ∉ a.field
  field_open : a.field.head? ≠ some openBracket
  field_comment : a.field.head? ≠ some semicolon
  value_lines : newline ∉ a.value

instance (a : Assignment) : Decidable a.Fits :=
  decidable_of_iff' _ a.fits_iff

/-- The texts that can stand in a file below a section line. -/
@[mk_iff]
structure Assignment.Writable (a : Assignment) : Prop extends Assignment.Fits a where
  sectionName_ne : a.sectionName ≠ globalName

instance (a : Assignment) : Decidable a.Writable :=
  decidable_of_iff' _ a.writable_iff

/-- Successive calls of `setValue`. -/
def setValues (p : IniParser) : List Assignment → Run IniParser
  | [] => .ok p
  | a :: assignments => do
    let p ← p.setValue a.sectionName a.field a.value
    setValues p assignments

/-- The fields that were given to a section, in the order of the calls. -/
def fieldsGiven (assignments : List Assignment) (sectionName : Bytes) : List Bytes :=
  (assignments.filter fun a => a.sectionName = sectionName).map Assignment.field

/-- A section that only `setValue` has written: its section line, then one
placeholder for each entry in order. -/
structure BuiltSection (name : Bytes) (entries : List Entry) (lines : List Bytes) : Prop where
  nonempty : entries ≠ []
  lines_eq : lines = IniParser.sectionLine name :: List.replicate entries.length []
  indices : entries.map Entry.index = List.range' 1 entries.length
  entries_of : EntriesOf name entries
  writable : ∀ t ∈ entries, Assignment.Writable ⟨t.sectionName, t.field, t.value⟩

/-- Each section is missing in both maps or built in both. -/
def Built (p : IniParser) : Prop :=
  ∀ name, p.data[name]? = none ∧ p.allLines[name]? = none ∨
    ∃ entries lines, p.data[name]? = some entries ∧ p.allLines[name]? = some lines ∧
      BuiltSection name entries lines

theorem Built.fresh : Built .fresh := by
  intro name
  exact .inl ⟨Std.ExtTreeMap.getElem?_empty, Std.ExtTreeMap.getElem?_empty⟩

namespace BuiltSection

/-- The section that `createSection` makes. -/
theorem create {name field value : Bytes} (h : Assignment.Writable ⟨name, field, value⟩) :
    BuiltSection name [⟨name, field, 1, value⟩] [IniParser.sectionLine name, []] where
  nonempty := by simp
  lines_eq := rfl
  indices := rfl
  entries_of := ⟨by simp, by simp⟩
  writable := by simpa using h

theorem length_assign (name field value : Bytes) (entries : List Entry) :
    (IniParser.assign name field value entries).length = entries.length := by
  simpa using congrArg List.length (map_assign Entry.field (fun _ _ => rfl) name field value entries)

theorem mem_assign {name field value : Bytes} {entries : List Entry} {t : Entry}
    (h : t ∈ IniParser.assign name field value entries) :
    t ∈ entries ∨ t.sectionName = name ∧ t.field = field ∧ t.value = value := by
  induction entries with
  | nil => cases h
  | cons t' entries ih =>
    rw [IniParser.assign] at h
    split at h
    · next hmatch =>
      rcases List.mem_cons.mp h with rfl | h
      · exact .inr ⟨hmatch.1, hmatch.2, rfl⟩
      · exact .inl (List.mem_cons_of_mem _ h)
    · rcases List.mem_cons.mp h with rfl | h
      · exact .inl List.mem_cons_self
      · exact (ih h).imp_left (List.mem_cons_of_mem _)

/-- Overwriting a value keeps the section built. -/
theorem assign {name field value : Bytes} {entries : List Entry} {lines : List Bytes}
    (h : BuiltSection name entries lines) (hwritable : Assignment.Writable ⟨name, field, value⟩) :
    BuiltSection name (IniParser.assign name field value entries) lines := by
  have hlength := length_assign name field value entries
  refine ⟨?_, ?_, ?_, ⟨fun t ht => ?_, ?_⟩, fun t ht => ?_⟩
  · rw [← List.length_pos_iff, hlength]
    exact List.length_pos_of_ne_nil h.nonempty
  · rw [hlength]
    exact h.lines_eq
  · rw [map_assign Entry.index fun _ _ => rfl, hlength]
    exact h.indices
  · rcases mem_assign ht with ht | ht
    · exact h.entries_of.sectionName_eq t ht
    · exact ht.1
  · rw [map_assign Entry.field fun _ _ => rfl]
    exact h.entries_of.fields_nodup
  · rcases mem_assign ht with ht | ⟨hname, hfield, hvalue⟩
    · exact h.writable t ht
    · rw [hname, hfield, hvalue]
      exact hwritable

/-- The last line belongs to the last entry, so a new entry gets the next one. -/
theorem insertIndex_eq {name : Bytes} {entries : List Entry} {lines : List Bytes}
    (h : BuiltSection name entries lines) :
    IniParser.insertIndex entries lines = .ok (entries.length + 1) := by
  obtain ⟨front, last, hentries⟩ := (List.eq_nil_or_concat entries).resolve_left h.nonempty
  rw [List.concat_eq_append] at hentries
  have hlast : last.index = entries.length := by
    have hindices := h.indices
    rw [hentries, List.length_append, List.length_singleton, List.range'_1_concat, List.map_append] at hindices
    have hsingle := (List.append_inj hindices (by simp)).2
    rw [hentries, List.length_append]
    have : last.index = 1 + front.length := by simpa using hsingle
    simpa [Nat.add_comm] using this
  have hbackLine : IniParser.back lines = .ok [] := by
    rw [back_eq_ok_iff, h.lines_eq, hentries, List.length_append, List.length_singleton,
      List.replicate_succ', ← List.cons_append, List.getLast?_concat]
  have hbackEntry : IniParser.back entries = .ok last := by
    rw [back_eq_ok_iff, hentries, List.getLast?_concat]
  have hlength : lines.length = entries.length + 1 := by
    simp [h.lines_eq]
  rw [IniParser.insertIndex, hbackLine, Run.ok_bind, if_pos rfl, hbackEntry, Run.ok_bind, hlast, hlength]
  simp

/-- A new field gets the next line. -/
theorem append {name field value : Bytes} {entries : List Entry} {lines : List Bytes}
    (h : BuiltSection name entries lines) (hwritable : Assignment.Writable ⟨name, field, value⟩)
    (hnew : ∀ t ∈ entries, ¬ t.Matches name field) :
    BuiltSection name (entries ++ [⟨name, field, entries.length + 1, value⟩]) (lines ++ [[]]) := by
  refine ⟨by simp, ?_, ?_, ⟨fun t ht => ?_, ?_⟩, fun t ht => ?_⟩
  · rw [h.lines_eq, List.length_append, List.length_singleton, List.replicate_succ', List.cons_append]
  · rw [List.map_append, h.indices, List.length_append, List.length_singleton, List.range'_1_concat,
      Nat.add_comm 1]
    rfl
  · rcases List.mem_append.mp ht with ht | ht
    · exact h.entries_of.sectionName_eq t ht
    · rw [List.mem_singleton.mp ht]
  · rw [List.map_append, List.nodup_append]
    refine ⟨h.entries_of.fields_nodup, by simp, fun a ha b hb heq => ?_⟩
    obtain ⟨t, ht, rfl⟩ := List.mem_map.mp ha
    obtain rfl : b = field := by simpa using hb
    exact hnew t ht ⟨h.entries_of.sectionName_eq t ht, heq⟩
  · rcases List.mem_append.mp ht with ht | ht
    · exact h.writable t ht
    · rw [List.mem_singleton.mp ht]
      exact hwritable

end BuiltSection

theorem getAllEntries_of_getElem? {p q : IniParser} {name : Bytes} {entries : List Entry}
    (hdata : ∀ query, q.data[query]? = if name = query then some entries else p.data[query]?)
    (query : Bytes) :
    q.getAllEntries query =
      if name = query then entries.map Entry.field else p.getAllEntries query := by
  rw [getAllEntries_eq, getAllEntries_eq, VectorMap.vector_eq_getElem?, hdata,
    VectorMap.vector_eq_getElem?]
  split
  · rfl
  · rfl

/-- A change of both maps for one section keeps the others. -/
theorem Built.update {p q : IniParser} {name : Bytes} {entries : List Entry} {lines : List Bytes}
    (h : Built p) (hsection : BuiltSection name entries lines)
    (hdata : ∀ query, q.data[query]? = if name = query then some entries else p.data[query]?)
    (hlines : ∀ query, q.allLines[query]? = if name = query then some lines else p.allLines[query]?) :
    Built q := by
  intro query
  rw [hdata, hlines]
  split
  · next heq => exact .inr ⟨entries, lines, rfl, rfl, heq ▸ hsection⟩
  · exact h query

/-- Where every section is built, `setValue` is defined, keeps it so, and adds
the field to the section if it is new there. -/
theorem Built.setValue {p : IniParser} (h : Built p) {name field value : Bytes}
    (hwritable : Assignment.Writable ⟨name, field, value⟩) :
    ∃ q entries lines, p.setValue name field value = .ok q ∧ BuiltSection name entries lines ∧
      (∀ query, q.data[query]? = if name = query then some entries else p.data[query]?) ∧
      (∀ query, q.allLines[query]? = if name = query then some lines else p.allLines[query]?) ∧
      ∀ f, f ∈ entries.map Entry.field ↔ f ∈ p.getAllEntries name ∨ f = field := by
  rw [IniParser.setValue, IniParser.getAllEntries]
  rcases h name with ⟨hdata, hlines⟩ | ⟨entries, lines, hdata, hlines, hsection⟩
  · have hnoEntries := VectorMap.vector_of_none hdata
    have hnoLines := VectorMap.vector_of_none hlines
    rw [hdata]
    refine ⟨_, _, _, rfl, .create hwritable, fun query => ?_, fun query => ?_, by simp⟩
    · simp only [IniParser.createSection, IniParser.appendEntry, IniParser.pushEntry,
        IniParser.pushLine, VectorMap.getElem?_push, hnoEntries, List.nil_append]
    · simp only [IniParser.createSection, IniParser.appendEntry, IniParser.pushEntry,
        IniParser.pushLine, VectorMap.getElem?_push, VectorMap.vector_push, if_pos, hnoLines,
        List.nil_append, List.singleton_append]
      split <;> rfl
  · have hentries := VectorMap.vector_of_some hdata
    have hvector := VectorMap.vector_of_some hlines
    rw [hdata]
    by_cases hold : ∃ t ∈ entries, t.Matches name field
    · simp only [if_pos hold]
      refine ⟨_, _, lines, rfl, hsection.assign hwritable, fun query => ?_, fun query => ?_, fun f => ?_⟩
      · exact VectorMap.getElem?_insert _ _ _ _
      · split
        · next heq => rw [← heq, hlines]
        · rfl
      · rw [map_assign Entry.field fun _ _ => rfl]
        obtain ⟨t, ht, hmatch⟩ := hold
        refine ⟨.inl, fun hf => hf.elim id ?_⟩
        rintro rfl
        exact List.mem_map.mpr ⟨t, ht, hmatch.2⟩
    · simp only [if_neg hold, hvector, hsection.insertIndex_eq, Run.ok_bind]
      refine ⟨_, _, _, rfl, hsection.append hwritable (fun t ht hmatch => hold ⟨t, ht, hmatch⟩),
        fun query => ?_, fun query => ?_, by simp⟩
      · simp only [IniParser.appendEntry, IniParser.pushEntry, IniParser.pushLine,
          VectorMap.getElem?_push, hentries]
      · simp only [IniParser.appendEntry, IniParser.pushEntry, IniParser.pushLine,
          VectorMap.getElem?_push, hvector]

theorem fieldsGiven_cons (a : Assignment) (assignments : List Assignment) (name : Bytes) :
    fieldsGiven (a :: assignments) name =
      if a.sectionName = name then a.field :: fieldsGiven assignments name
      else fieldsGiven assignments name := by
  rw [fieldsGiven, List.filter_cons]
  by_cases h : a.sectionName = name
  · simp [h, fieldsGiven]
  · simp [h, fieldsGiven]

/-- Any sequence of calls leaves built sections, with the fields given to them. -/
theorem Built.setValues {p : IniParser} (h : Built p) {assignments : List Assignment}
    (hwritable : ∀ a ∈ assignments, a.Writable) :
    ∃ q, setValues p assignments = .ok q ∧ Built q ∧ ∀ name f, f ∈ q.getAllEntries name ↔
      f ∈ p.getAllEntries name ∨ f ∈ fieldsGiven assignments name := by
  induction assignments generalizing p with
  | nil => exact ⟨p, rfl, h, by simp [fieldsGiven]⟩
  | cons a assignments ih =>
    rw [List.forall_mem_cons] at hwritable
    obtain ⟨r, entries, lines, hcall, hsection, hdata, hlines, hfields⟩ := h.setValue hwritable.1
    obtain ⟨q, hrest, hq, hgiven⟩ := ih (h.update hsection hdata hlines) hwritable.2
    refine ⟨q, ?_, hq, fun name f => ?_⟩
    · rw [iniParser.setValues, hcall, Run.ok_bind, hrest]
    · rw [hgiven, getAllEntries_of_getElem? hdata, fieldsGiven_cons]
      by_cases hname : a.sectionName = name
      · subst hname
        rw [if_pos rfl, if_pos rfl, hfields, List.mem_cons, or_assoc]
      · rw [if_neg hname, if_neg hname]

end clockUtils.iniParser
