import ClockUtils.IniParser.EditedSection

namespace clockUtils.iniParser

theorem Assignment.Fits.readsAs {a : Assignment} (h : a.Fits) :
    Cell.ReadsAs (a.field ++ equalsSign :: a.value) a.field :=
  ⟨@isEntryLine_entryText ⟨a.sectionName, a.field, 0, a.value⟩ h,
    @lineKey_entryText ⟨a.sectionName, a.field, 0, a.value⟩ h⟩

/-- Every entry carries the name of its section, and neither lines nor entries
contain a line break. -/
structure Clean (p : IniParser) : Prop where
  names : ∀ name, ∀ t ∈ p.data.vector name, t.sectionName = name
  lines : ∀ name, ∀ line ∈ p.allLines.vector name, newline ∉ line
  texts : ∀ name, ∀ t ∈ p.data.vector name, newline ∉ IniParser.entryText t

theorem Clean.of_holds {q : IniParser} {content : Bytes}
    (h : Holds q (sections (content.splitOn newline))) : Clean q := by
  have hfile : ∀ name body, (name, body) ∈ sections (content.splitOn newline) →
      ∀ line ∈ body, newline ∉ line := by
    intro name body hmem line hline
    have hflat : line ∈ (sections (content.splitOn newline)).flatMap Prod.snd :=
      List.mem_flatMap.mpr ⟨(name, body), hmem, hline⟩
    rw [sections, flatMap_sectionsFrom, List.nil_append] at hflat
    exact Lines.not_mem_of_mem_splitOn hflat
  have hentry : ∀ name, ∀ t ∈ q.data.vector name,
      t.sectionName = name ∧ newline ∉ IniParser.entryText t := by
    intro name t ht
    rw [VectorMap.vector_eq_getElem?] at ht
    cases hdata : q.data[name]? with
    | none => simp [hdata] at ht
    | some entries =>
      rw [hdata, Option.getD_some] at ht
      obtain ⟨-, body, hmem, rfl⟩ := (h.data_iff name entries).mp hdata
      obtain ⟨hname, line, hline, hisEntry, hkey, hvalue⟩ := mem_entriesOf_iff.mp ht
      simp only [isEntryLine, decide_eq_true_eq] at hisEntry
      rw [IniParser.entryText, ← hkey, ← hvalue, lineKey_append_lineValue hisEntry.2.2]
      exact ⟨hname, hfile name body hmem line (List.mem_of_getElem? hline)⟩
  refine ⟨fun name t ht => (hentry name t ht).1, fun name line hline => ?_,
    fun name t ht => (hentry name t ht).2⟩
  rw [VectorMap.vector_eq_getElem?] at hline
  cases hlines : q.allLines[name]? with
  | none => simp [hlines] at hline
  | some body =>
    rw [hlines, Option.getD_some] at hline
    exact hfile name body ((h.allLines_iff name body).mp hlines) line hline

theorem Clean.appendEntry {p : IniParser} (h : Clean p) {name field value : Bytes}
    (hfits : Assignment.Fits ⟨name, field, value⟩) (index : Nat) :
    Clean (p.appendEntry name ⟨name, field, index, value⟩) := by
  have hdata : ∀ query, ∀ t ∈ (p.appendEntry name ⟨name, field, index, value⟩).data.vector query,
      t ∈ p.data.vector query ∨ query = name ∧ t = ⟨name, field, index, value⟩ := by
    intro query t ht
    rw [show (p.appendEntry name ⟨name, field, index, value⟩).data =
      (p.pushEntry name ⟨name, field, index, value⟩).data from rfl, vector_pushEntry] at ht
    split at ht
    · next heq =>
      rw [List.mem_append, List.mem_singleton] at ht
      rw [← heq]
      exact ht.imp_right fun ht => ⟨rfl, ht⟩
    · exact .inl ht
  refine ⟨fun query t ht => ?_, fun query line hline => ?_, fun query t ht => ?_⟩
  · rcases hdata query t ht with ht | ⟨rfl, rfl⟩
    · exact h.names query t ht
    · rfl
  · rw [IniParser.appendEntry, vector_pushLine] at hline
    split at hline
    · rw [List.mem_append, List.mem_singleton] at hline
      rcases hline with hline | rfl
      · exact h.lines name line hline
      · simp
    · exact h.lines query line hline
  · rcases hdata query t ht with ht | ⟨rfl, rfl⟩
    · exact h.texts query t ht
    · exact @newline_not_mem_entryText ⟨query, field, 0, value⟩ hfits

theorem Clean.setValue {p q : IniParser} {a : Assignment} (h : Clean p) (hfits : a.Fits)
    (hcall : p.setValue a.sectionName a.field a.value = .ok q) : Clean q := by
  rcases setValue_cases hcall with ⟨-, rfl⟩ | ⟨entries, hsome, -, rfl⟩ | ⟨entries, index, -, -, -, rfl⟩
  · refine @Clean.appendEntry (p.pushLine a.sectionName (IniParser.sectionLine a.sectionName))
      ⟨h.names, fun query line hline => ?_, h.texts⟩ _ _ _ hfits 1
    rw [vector_pushLine] at hline
    split at hline
    · rw [List.mem_append, List.mem_singleton] at hline
      rcases hline with hline | rfl
      · exact h.lines _ line hline
      · exact newline_not_mem_sectionLine hfits.sectionName_lines
    · exact h.lines query line hline
  · have hvector := VectorMap.vector_of_some hsome
    have hdata : ∀ query, ∀ t ∈ VectorMap.vector (p.data.insert a.sectionName
        (IniParser.assign a.sectionName a.field a.value entries)) query, t ∈ p.data.vector query ∨
          query = a.sectionName ∧ t.sectionName = a.sectionName ∧ t.field = a.field ∧
            t.value = a.value := by
      intro query t ht
      rw [VectorMap.vector_insert] at ht
      split at ht
      · next heq =>
        rw [← heq, hvector]
        exact (BuiltSection.mem_assign ht).imp_right fun ht => ⟨rfl, ht⟩
      · exact .inl ht
    refine ⟨fun query t ht => ?_, h.lines, fun query t ht => ?_⟩
    · rcases hdata query t ht with ht | ⟨rfl, hname, -⟩
      · exact h.names query t ht
      · exact hname
    · rcases hdata query t ht with ht | ⟨-, -, hfield, hvalue⟩
      · exact h.texts query t ht
      · rw [IniParser.entryText, hfield, hvalue]
        exact @newline_not_mem_entryText ⟨a.sectionName, a.field, 0, a.value⟩ hfits
  · exact h.appendEntry hfits index

/-- A call changes the vectors of its section only. -/
theorem setValue_other {p q : IniParser} {name field value query : Bytes}
    (hcall : p.setValue name field value = .ok q) (hother : name ≠ query) :
    q.data[query]? = p.data[query]? ∧ q.allLines[query]? = p.allLines[query]? := by
  rcases setValue_cases hcall with ⟨-, rfl⟩ | ⟨entries, -, -, rfl⟩ | ⟨entries, index, -, -, -, rfl⟩
  · simp only [IniParser.createSection, IniParser.appendEntry, IniParser.pushEntry,
      IniParser.pushLine, VectorMap.getElem?_push, if_neg hother]
    exact ⟨trivial, trivial⟩
  · exact ⟨by rw [VectorMap.getElem?_insert, if_neg hother], rfl⟩
  · simp only [IniParser.appendEntry, IniParser.pushEntry, IniParser.pushLine,
      VectorMap.getElem?_push, if_neg hother]
    exact ⟨trivial, trivial⟩

/-- What a call does to the vectors of its section. -/
theorem setValue_self {p q : IniParser} {name field value : Bytes}
    (hcall : p.setValue name field value = .ok q) :
    (p.data[name]? = none ∧ q.data[name]? = some [⟨name, field, 1, value⟩] ∧
        q.allLines[name]? = some (p.allLines.vector name ++ [IniParser.sectionLine name, []])) ∨
      (∃ entries, p.data[name]? = some entries ∧ (∃ t ∈ entries, t.Matches name field) ∧
        q.data[name]? = some (IniParser.assign name field value entries) ∧
        q.allLines[name]? = p.allLines[name]?) ∨
      ∃ entries index, p.data[name]? = some entries ∧ (∀ t ∈ entries, ¬ t.Matches name field) ∧
        IniParser.insertIndex entries (p.allLines.vector name) = .ok index ∧
        q.data[name]? = some (entries ++ [⟨name, field, index, value⟩]) ∧
        q.allLines[name]? = some (p.allLines.vector name ++ [[]]) := by
  rcases setValue_cases hcall with ⟨hnone, rfl⟩ | ⟨entries, hsome, hold, rfl⟩ |
    ⟨entries, index, hsome, hnew, hindex, rfl⟩
  · refine .inl ⟨hnone, ?_, ?_⟩
    · simp only [IniParser.createSection, IniParser.appendEntry, IniParser.pushEntry,
        IniParser.pushLine, VectorMap.getElem?_push, if_pos]
      rw [VectorMap.vector_of_none hnone, List.nil_append]
    · simp only [IniParser.createSection, IniParser.appendEntry, IniParser.pushEntry,
        IniParser.pushLine, VectorMap.getElem?_push, VectorMap.vector_push, if_pos,
        List.append_assoc, List.singleton_append]
  · refine .inr (.inl ⟨entries, hsome, hold, ?_, rfl⟩)
    rw [VectorMap.getElem?_insert, if_pos rfl]
  · refine .inr (.inr ⟨entries, index, hsome, hnew, hindex, ?_, ?_⟩)
    · simp only [IniParser.appendEntry, IniParser.pushEntry, IniParser.pushLine,
        VectorMap.getElem?_push, if_pos]
      rw [VectorMap.vector_of_some hsome]
    · simp only [IniParser.appendEntry, IniParser.pushEntry, IniParser.pushLine,
        VectorMap.getElem?_push, if_pos]

/-- The lines of a section of a file, none if the file does not have it. -/
def fileBody (lines : List Bytes) (name : Bytes) : List Bytes :=
  ((sections lines).lookup name).getD []

/-- A section with lines behind its section line but without entries. It is in
`_allLines` and not in `_data`. -/
def Unlisted (lines : List Bytes) (name : Bytes) : Prop :=
  name ≠ globalName ∧ 2 ≤ (fileBody lines name).length ∧ entryKeys (fileBody lines name) = []

instance (lines : List Bytes) (name : Bytes) : Decidable (Unlisted lines name) :=
  inferInstanceAs (Decidable (_ ∧ _ ∧ _))

/-- A section is not in `_data` and as the file has it, or it is in both maps.
Of one that was `Unlisted`, a call has then written a second section line. -/
def Edited (lines : List Bytes) (p : IniParser) : Prop :=
  ∀ name,
    (p.data[name]? = none ∧ name ≠ globalName ∧ entryKeys (fileBody lines name) = [] ∧
      p.allLines[name]? = (sections lines).lookup name) ∨
    ∃ entries body, p.data[name]? = some entries ∧ p.allLines[name]? = some body ∧
      (Unlisted lines name → Doubled name entries body) ∧
      (¬ Unlisted lines name → Regular name (entryKeys (fileBody lines name)).length entries body)

theorem lookup_eq_some_iff {α β : Type} [BEq α] [LawfulBEq α] {pairs : List (α × β)}
    (h : (pairs.map Prod.fst).Nodup) {key : α} {x : β} :
    pairs.lookup key = some x ↔ (key, x) ∈ pairs := by
  induction pairs with
  | nil => simp
  | cons pair pairs ih =>
    obtain ⟨key', x'⟩ := pair
    rw [List.map_cons, List.nodup_cons] at h
    rw [List.lookup_cons, List.mem_cons, Prod.mk.injEq]
    by_cases hkey : key = key'
    · subst hkey
      have hnot : (key, x) ∉ pairs := fun hmem => h.1 (List.mem_map.mpr ⟨_, hmem, rfl⟩)
      simp [hnot, eq_comm]
    · rw [beq_eq_false_iff_ne.mpr hkey, ih h.2]
      simp [hkey]

theorem WellFormed.lookup_iff {lines : List Bytes} (h : WellFormed lines) {name : Bytes}
    {body : List Bytes} : (sections lines).lookup name = some body ↔ (name, body) ∈ sections lines := by
  apply lookup_eq_some_iff
  have hproper := ((acceptable_iff_wellFormed lines).mpr h).2
  exact hproper.names_nodup

/-- The lines of a section that a file has without entries. -/
theorem lookup_cases {lines : List Bytes} (h : WellFormed lines) {name : Bytes}
    (hname : name ≠ globalName) :
    ((sections lines).lookup name = none ∧ fileBody lines name = []) ∨
      ∃ header rest, (sections lines).lookup name = some (header :: rest) ∧
        fileBody lines name = header :: rest ∧ isSectionLine header = true ∧
        lineName header = name := by
  rw [fileBody]
  cases hlookup : (sections lines).lookup name with
  | none => exact .inl ⟨rfl, rfl⟩
  | some body =>
    rw [h.lookup_iff] at hlookup
    obtain ⟨blocks, hblocks, hall⟩ := sectionsFrom_eq globalName [] lines
    rw [sections, hblocks, List.mem_cons, Prod.mk.injEq] at hlookup
    obtain ⟨header, rest, hbody, hheader, hheaderName, -⟩ :=
      hall _ (hlookup.resolve_left fun heq => hname heq.1)
    simp only at hbody hheaderName
    exact .inr ⟨header, rest, by rw [hbody], by rw [hbody]; rfl, hheader, hheaderName⟩

theorem Edited.of_holds {q : IniParser} {lines : List Bytes} (hwell : WellFormed lines)
    (h : Holds q (sections lines)) : Edited lines q := by
  intro name
  have hlines : q.allLines[name]? = (sections lines).lookup name := by
    ext body
    rw [h.allLines_iff, hwell.lookup_iff]
  cases hdata : q.data[name]? with
  | some entries =>
    obtain ⟨hlisted, body, hmem, rfl⟩ := (h.data_iff name entries).mp hdata
    have hlookup := hwell.lookup_iff.mpr hmem
    have hbody : fileBody lines name = body := by
      rw [fileBody, hlookup]
      rfl
    have hregular := Regular.of_load hwell hmem
    rw [hbody]
    refine .inr ⟨_, body, rfl, by rw [hlines, hlookup], fun hunlisted => ?_, fun _ => hregular⟩
    rcases hlisted with hne | hglobal
    · have hkeys := hunlisted.2.2
      rw [hbody, ← map_field_entriesOf name, List.map_eq_nil_iff] at hkeys
      exact absurd hkeys hne
    · exact absurd hglobal hunlisted.1
  | none =>
    refine .inl ⟨rfl, ?_, ?_, hlines⟩
    · rintro rfl
      obtain ⟨blocks, hblocks, -⟩ := sectionsFrom_eq globalName [] lines
      have hglobal := (h.data_iff globalName (entriesOf globalName (globalLines lines))).mpr
        ⟨.inr rfl, globalLines lines, by simp [sections, hblocks], rfl⟩
      rw [hdata] at hglobal
      cases hglobal
    · rw [fileBody]
      cases hlookup : (sections lines).lookup name with
      | none => rfl
      | some body =>
        have hvector := h.data_vector (hwell.lookup_iff.mp hlookup)
        rw [VectorMap.vector_of_none hdata] at hvector
        rw [Option.getD_some, ← map_field_entriesOf name, ← hvector]
        rfl

/-- What a call makes of a section that is not in `_data`. A section line that stands alone
leaves the entry the place behind it. -/
theorem created_section {lines : List Bytes} {p : IniParser} {name field value : Bytes}
    (hwell : WellFormed lines) (hne : name ≠ globalName)
    (hkeys : entryKeys (fileBody lines name) = [])
    (hloaded : p.allLines[name]? = (sections lines).lookup name)
    (htext : Cell.ReadsAs (field ++ equalsSign :: value) field) :
    (Unlisted lines name → Doubled name [⟨name, field, 1, value⟩]
      (p.allLines.vector name ++ [IniParser.sectionLine name, []])) ∧
    (¬ Unlisted lines name → Regular name 0 [⟨name, field, 1, value⟩]
      (p.allLines.vector name ++ [IniParser.sectionLine name, []])) := by
  obtain ⟨hlookup, hbody⟩ | ⟨header, rest, hlookup, hbody, hheader, hheaderName⟩ :=
    lookup_cases hwell hne
  · rw [VectorMap.vector_of_none (hloaded.trans hlookup)]
    refine ⟨fun hunlisted => ?_, fun _ => .create hne (.inl rfl) htext⟩
    have hlong := hunlisted.2.1
    rw [hbody] at hlong
    cases hlong
  · rw [VectorMap.vector_of_some (hloaded.trans hlookup)]
    cases rest with
    | nil =>
      have hfront : IsFront name [header] := by
        rw [IsFront, if_neg hne]
        exact ⟨header, rfl, hheader, hheaderName⟩
      refine ⟨fun hunlisted => ?_, fun _ => .create hne (.inr hfront) htext⟩
      have hlong := hunlisted.2.1
      rw [hbody, List.length_singleton] at hlong
      omega
    | cons text rest =>
      refine ⟨fun _ => Doubled.create ⟨hheader, hheaderName⟩, fun hlisted => ?_⟩
      refine absurd ⟨hne, ?_, hkeys⟩ hlisted
      rw [hbody, List.length_cons, List.length_cons]
      omega

theorem Edited.setValue {lines : List Bytes} {p q : IniParser} {a : Assignment}
    (hwell : WellFormed lines) (h : Edited lines p) (hfits : a.Fits)
    (hcall : p.setValue a.sectionName a.field a.value = .ok q) : Edited lines q := by
  intro name
  by_cases hname : a.sectionName = name
  swap
  · obtain ⟨hdata, hlines⟩ := setValue_other hcall hname
    rw [hdata, hlines]
    exact h name
  subst hname
  rcases setValue_self hcall with ⟨hnone, hdata, hlines⟩ | ⟨entries, hsome, -, hdata, hlines⟩ |
    ⟨entries, index, hsome, hnew, hindex, hdata, hlines⟩
  · obtain ⟨-, hne, hkeys, hloaded⟩ | ⟨entries, body, hsome, -⟩ := h a.sectionName
    swap
    · rw [hnone] at hsome
      cases hsome
    obtain ⟨hdoubled, hregular⟩ := created_section hwell hne hkeys hloaded hfits.readsAs
    refine .inr ⟨_, _, hdata, hlines, hdoubled, fun hlisted => ?_⟩
    rw [hkeys]
    exact hregular hlisted
  · obtain ⟨hnone, -⟩ | ⟨entries', body, hsome', hbody, hdoubled, hregular⟩ := h a.sectionName
    · rw [hnone] at hsome
      cases hsome
    obtain rfl : entries = entries' := Option.some.inj (hsome.symm.trans hsome')
    exact .inr ⟨_, body, hdata, hlines.trans hbody, fun hunlisted => (hdoubled hunlisted).assign _ _,
      fun hlisted => (hregular hlisted).assign hfits.readsAs⟩
  · obtain ⟨hnone, -⟩ | ⟨entries', body, hsome', hbody, hdoubled, hregular⟩ := h a.sectionName
    · rw [hnone] at hsome
      cases hsome
    obtain rfl : entries = entries' := Option.some.inj (hsome.symm.trans hsome')
    rw [VectorMap.vector_of_some hbody] at hindex hlines
    refine .inr ⟨_, _, hdata, hlines, fun hunlisted => (hdoubled hunlisted).append hindex,
      fun hlisted => ?_⟩
    have hsection := hregular hlisted
    apply hsection.append hfits.readsAs _ hindex
    intro hmem
    obtain ⟨t, ht, hfield⟩ := List.mem_map.mp hmem
    exact hnew t ht ⟨hsection.sectionName_eq t ht, hfield⟩

/-- The fields of a section behind one more call: a new one comes last. -/
def addField (fields : List Bytes) (field : Bytes) : List Bytes :=
  if fields.contains field then fields else fields ++ [field]

theorem addField_of_mem {fields : List Bytes} {field : Bytes} (h : field ∈ fields) :
    addField fields field = fields := by
  rw [addField, if_pos (List.contains_iff_mem.mpr h)]

theorem addField_of_not_mem {fields : List Bytes} {field : Bytes} (h : field ∉ fields) :
    addField fields field = fields ++ [field] := by
  rw [addField, if_neg (mt List.contains_iff_mem.mp h)]

theorem getAllEntries_setValue {p q : IniParser} {a : Assignment} (h : Clean p)
    (hcall : p.setValue a.sectionName a.field a.value = .ok q) (name : Bytes) :
    q.getAllEntries name =
      if a.sectionName = name then addField (p.getAllEntries name) a.field
      else p.getAllEntries name := by
  split
  swap
  · next hname =>
    rw [IniParser.getAllEntries, (setValue_other hcall hname).1, IniParser.getAllEntries]
  next hname =>
  subst hname
  have hfield : ∀ {entries : List Entry}, p.data[a.sectionName]? = some entries →
      ((∃ t ∈ entries, t.Matches a.sectionName a.field) ↔ a.field ∈ entries.map Entry.field) := by
    intro entries hsome
    have hnames := h.names a.sectionName
    rw [VectorMap.vector_of_some hsome] at hnames
    rw [List.mem_map]
    constructor
    · rintro ⟨t, ht, hmatch⟩
      exact ⟨t, ht, hmatch.2⟩
    · rintro ⟨t, ht, hfield⟩
      exact ⟨t, ht, hnames t ht, hfield⟩
  rw [IniParser.getAllEntries, IniParser.getAllEntries]
  rcases setValue_self hcall with ⟨hnone, hdata, -⟩ | ⟨entries, hsome, hold, hdata, -⟩ |
    ⟨entries, index, hsome, hnew, -, hdata, -⟩
  · rw [hdata, hnone]
    rfl
  · rw [hdata, hsome]
    simp only [addField_of_mem ((hfield hsome).mp hold)]
    exact map_assign Entry.field (fun _ _ => rfl) _ _ _ _
  · have hmissing : a.field ∉ entries.map Entry.field := by
      rw [← hfield hsome]
      rintro ⟨t, ht, hmatch⟩
      exact hnew t ht hmatch
    rw [hdata, hsome]
    simp only [addField_of_not_mem hmissing, List.map_append, List.map_singleton]

theorem Edited.isSome_setValue {lines : List Bytes} {p q : IniParser} {a : Assignment}
    (h : Edited lines p) (hcall : p.setValue a.sectionName a.field a.value = .ok q) (name : Bytes) :
    q.allLines[name]?.isSome ↔ p.allLines[name]?.isSome ∨ name = a.sectionName := by
  by_cases hname : a.sectionName = name
  · subst hname
    simp only [or_true, iff_true]
    rcases setValue_self hcall with ⟨-, -, hlines⟩ | ⟨entries, hsome, -, -, hlines⟩ |
      ⟨entries, index, -, -, -, -, hlines⟩
    · rw [hlines]
      rfl
    · obtain ⟨hnone, -⟩ | ⟨entries', body, -, hbody, -⟩ := h a.sectionName
      · rw [hnone] at hsome
        cases hsome
      · rw [hlines, hbody]
        rfl
    · rw [hlines]
      rfl
  · rw [(setValue_other hcall hname).2, or_iff_left (Ne.symm hname)]

/-- Any sequence of defined calls behind a loaded file: the state of every
section, its fields, and the sections that there are. -/
theorem Edited.setValues {lines : List Bytes} {p q : IniParser} {assignments : List Assignment}
    (hwell : WellFormed lines) (h : Edited lines p) (hclean : Clean p)
    (hfits : ∀ a ∈ assignments, a.Fits) (hrun : setValues p assignments = .ok q) :
    Edited lines q ∧ Clean q ∧
      (∀ name, q.getAllEntries name =
        (fieldsGiven assignments name).foldl addField (p.getAllEntries name)) ∧
      ∀ name, q.allLines[name]?.isSome ↔
        p.allLines[name]?.isSome ∨ name ∈ assignments.map Assignment.sectionName := by
  induction assignments generalizing p with
  | nil =>
    obtain rfl : p = q := Except.ok.inj hrun
    exact ⟨h, hclean, fun name => rfl, fun name => by simp⟩
  | cons a assignments ih =>
    rw [List.forall_mem_cons] at hfits
    rw [iniParser.setValues, Run.bind_eq_ok_iff] at hrun
    obtain ⟨r, hcall, hrun⟩ := hrun
    obtain ⟨hedited, hclean', hfields, hsome⟩ :=
      ih (h.setValue hwell hfits.1 hcall) (hclean.setValue hfits.1 hcall) hfits.2 hrun
    refine ⟨hedited, hclean', fun name => ?_, fun name => ?_⟩
    · rw [hfields, getAllEntries_setValue hclean hcall, fieldsGiven_cons]
      split
      · rfl
      · rfl
    · rw [hsome, h.isSome_setValue hcall, List.map_cons, List.mem_cons, or_assoc]

end clockUtils.iniParser
