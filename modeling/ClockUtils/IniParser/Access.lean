import ClockUtils.IniParser.Load

namespace clockUtils.iniParser

theorem getValue_eq (p : IniParser) (sectionName field : Bytes) :
    p.getValue sectionName field =
      match (p.data.vector sectionName).find? fun t => t.Matches sectionName field with
      | none => (.VALUE_NOTFOUND, [])
      | some t => (.SUCCESS, t.value) := by
  rw [IniParser.getValue, VectorMap.vector_eq_getElem?]
  cases p.data[sectionName]? <;> rfl

theorem getAllEntries_eq (p : IniParser) (sectionName : Bytes) :
    p.getAllEntries sectionName = (p.data.vector sectionName).map Entry.field := by
  rw [IniParser.getAllEntries, VectorMap.vector_eq_getElem?]
  cases p.data[sectionName]? <;> rfl

/-- The entries of one section: they carry its name, and no field twice. -/
structure EntriesOf (sectionName : Bytes) (entries : List Entry) : Prop where
  sectionName_eq : ∀ t ∈ entries, t.sectionName = sectionName
  fields_nodup : (entries.map Entry.field).Nodup

theorem EntriesOf.find?_eq_some_iff {sectionName field : Bytes} {entries : List Entry} {t : Entry}
    (h : EntriesOf sectionName entries) :
    entries.find? (fun t => t.Matches sectionName field) = some t ↔ t ∈ entries ∧ t.field = field := by
  constructor
  · intro hfind
    have hmatch := List.find?_some hfind
    rw [decide_eq_true_eq] at hmatch
    exact ⟨List.mem_of_find?_eq_some hfind, hmatch.2⟩
  · rintro ⟨hmem, rfl⟩
    cases hfind : entries.find? fun t' => t'.Matches sectionName t.field with
    | none =>
      have hnone := List.find?_eq_none.mp hfind t hmem
      exact absurd (decide_eq_true ⟨h.sectionName_eq t hmem, rfl⟩) hnone
    | some t' =>
      have hmem' := List.mem_of_find?_eq_some hfind
      have hmatch := List.find?_some hfind
      rw [decide_eq_true_eq] at hmatch
      rw [List.inj_on_of_nodup_map h.fields_nodup hmem' hmem hmatch.2]

theorem EntriesOf.getValue_iff {p : IniParser} {sectionName : Bytes}
    (h : EntriesOf sectionName (p.data.vector sectionName)) (field value : Bytes) :
    p.getValue sectionName field = (.SUCCESS, value) ↔
      ∃ t ∈ p.data.vector sectionName, t.field = field ∧ t.value = value := by
  rw [getValue_eq]
  constructor
  · split
    · simp
    · next t hfind =>
      intro hvalue
      obtain ⟨hmem, hfield⟩ := h.find?_eq_some_iff.mp hfind
      exact ⟨t, hmem, hfield, by simpa using hvalue⟩
  · rintro ⟨t, hmem, hfield, rfl⟩
    rw [h.find?_eq_some_iff.mpr ⟨hmem, hfield⟩]

/-- `getValue` has only one other result, so it is determined by its successes. -/
theorem getValue_eq_of_iff {p q : IniParser} {sectionName field : Bytes}
    (h : ∀ value, p.getValue sectionName field = (.SUCCESS, value) ↔
      q.getValue sectionName field = (.SUCCESS, value)) :
    p.getValue sectionName field = q.getValue sectionName field := by
  have hcases : ∀ r : IniParser, r.getValue sectionName field = (.VALUE_NOTFOUND, []) ∨
      ∃ value, r.getValue sectionName field = (.SUCCESS, value) := by
    intro r
    rw [getValue_eq]
    split
    · exact .inl rfl
    · exact .inr ⟨_, rfl⟩
  rcases hcases p with hp | ⟨value, hp⟩
  · rcases hcases q with hq | ⟨value, hq⟩
    · rw [hp, hq]
    · rw [(h value).mpr hq, hq]
  · rw [hp, (h value).mp hp]

/-- Assigning a value changes nothing else of the entries. -/
theorem map_assign {β : Type} (g : Entry → β) (hg : ∀ t value, g { t with value := value } = g t)
    (sectionName field value : Bytes) (entries : List Entry) :
    (IniParser.assign sectionName field value entries).map g = entries.map g := by
  induction entries with
  | nil => rfl
  | cons t entries ih =>
    rw [IniParser.assign]
    split
    · rw [List.map_cons, hg, List.map_cons]
    · rw [List.map_cons, ih, List.map_cons]

/-- What the accessors return for a file. -/
structure Lookups (p : IniParser) (lines : List Bytes) : Prop where
  getValue_iff : ∀ sectionName field value, p.getValue sectionName field = (.SUCCESS, value) ↔
    ∃ body, (sectionName, body) ∈ sections lines ∧
      ∃ line ∈ body, isEntryLine line ∧ lineKey line = field ∧ lineValue line = value
  getAllEntries_eq : ∀ sectionName body, (sectionName, body) ∈ sections lines →
    p.getAllEntries sectionName = entryKeys body
  getAllEntries_unknown : ∀ sectionName, (∀ body, (sectionName, body) ∉ sections lines) →
    p.getAllEntries sectionName = []
  getAllSections_sorted : p.getAllSections.Pairwise fun a b => compare a b = .lt
  mem_getAllSections_iff : ∀ sectionName, sectionName ∈ p.getAllSections ↔
    sectionName = globalName ∨ sectionName ∈ sectionNames lines

theorem acceptable_iff_wellFormed (lines : List Bytes) :
    Acceptable [] globalName [] lines ↔ WellFormed lines := by
  rw [Acceptable, List.nil_append]
  constructor
  · rintro ⟨hrecognised, hproper⟩
    have hnames := hproper.names_nodup
    rw [map_fst_sectionsFrom, List.nodup_cons] at hnames
    exact ⟨hrecognised, hnames.2, hnames.1, hproper.keys_nodup⟩
  · intro h
    refine ⟨h.recognised, ?_, h.keys_nodup⟩
    rw [map_fst_sectionsFrom, List.nodup_cons]
    exact ⟨h.names_ne_global, h.names_nodup⟩

theorem loadLines_reset (lines : List Bytes) :
    (Acceptable [] globalName [] lines → ∃ q, IniParser.reset.loadLines globalName lines = .ok q ∧
        Holds q (sections lines)) ∧
      (¬ Acceptable [] globalName [] lines →
        ∃ q, IniParser.reset.loadLines globalName lines = .error q) := by
  have hproper : Proper ([] ++ [(globalName, [])]) := ⟨by simp, by simp [entryKeys]⟩
  exact loadLines_spec holds_reset hproper (by simp) lines

/-- `load` of a well-formed file, from any state of the parser. -/
theorem load_wellFormed (p : IniParser) {content : Bytes} (h : WellFormed (content.splitOn newline)) :
    ∃ q, p.load (some content) = (.SUCCESS, q) ∧ Holds q (sections (content.splitOn newline)) := by
  have hspec := loadLines_reset (content.splitOn newline)
  obtain ⟨q, hload, hholds⟩ := hspec.1 ((acceptable_iff_wellFormed _).mpr h)
  exact ⟨q, by rw [IniParser.load, hload], hholds⟩

theorem load_not_wellFormed (p : IniParser) {content : Bytes}
    (h : ¬ WellFormed (content.splitOn newline)) :
    ∃ q, p.load (some content) = (.WRONG_SYNTAX, q) := by
  obtain ⟨q, hload⟩ :=
    (loadLines_reset (content.splitOn newline)).2 (mt (acceptable_iff_wellFormed _).mp h)
  exact ⟨q, by rw [IniParser.load, hload]⟩

theorem load_success_iff (p : IniParser) (content : Bytes) :
    (p.load (some content)).1 = .SUCCESS ↔ WellFormed (content.splitOn newline) := by
  constructor
  · intro hsuccess
    by_contra hnot
    obtain ⟨q, hload⟩ := load_not_wellFormed p hnot
    rw [hload] at hsuccess
    cases hsuccess
  · intro h
    obtain ⟨q, hload, -⟩ := load_wellFormed p h
    rw [hload]

theorem entriesOf_section (sectionName : Bytes) {lines : List Bytes} (h : (entryKeys lines).Nodup) :
    EntriesOf sectionName (entriesOf sectionName lines) where
  sectionName_eq t ht := (mem_entriesOf_iff.mp ht).1
  fields_nodup := by rwa [map_field_entriesOf]

theorem exists_entriesOf_iff {sectionName field value : Bytes} {lines : List Bytes} :
    (∃ t ∈ entriesOf sectionName lines, t.field = field ∧ t.value = value) ↔
      ∃ line ∈ lines, isEntryLine line ∧ lineKey line = field ∧ lineValue line = value := by
  constructor
  · rintro ⟨t, ht, rfl, rfl⟩
    obtain ⟨-, line, hline, hentry⟩ := mem_entriesOf_iff.mp ht
    exact ⟨line, List.mem_of_getElem? hline, hentry⟩
  · rintro ⟨line, hline, hentry, rfl, rfl⟩
    obtain ⟨i, hi⟩ := List.mem_iff_getElem?.mp hline
    refine ⟨⟨sectionName, lineKey line, i, lineValue line⟩, ?_, rfl, rfl⟩
    exact mem_entriesOf_iff.mpr ⟨rfl, line, hi, hentry, rfl, rfl⟩

theorem Holds.data_vector_eq_nil {p : IniParser} {secs : List FileSection} (h : Holds p secs)
    {name : Bytes} (hempty : ∀ body, (name, body) ∈ secs → ∀ line ∈ body, isEntryLine line = false) :
    p.data.vector name = [] := by
  by_cases hknown : name ∈ secs.map Prod.fst
  · obtain ⟨⟨name, body⟩, hmem, rfl⟩ := List.mem_map.mp hknown
    rw [h.data_vector hmem, List.eq_nil_iff_forall_not_mem]
    intro t ht
    obtain ⟨-, line, hline, hentry, -⟩ := mem_entriesOf_iff.mp ht
    rw [hempty body hmem line (List.mem_of_getElem? hline)] at hentry
    cases hentry
  · exact h.data_vector_of_not_mem hknown

/-- What a parser holds determines the results of its accessors. -/
theorem Holds.getValue_iff {p : IniParser} {secs : List FileSection} (h : Holds p secs)
    (hkeys : ∀ fileSection ∈ secs, (entryKeys fileSection.2).Nodup) (sectionName field value : Bytes) :
    p.getValue sectionName field = (.SUCCESS, value) ↔ ∃ body, (sectionName, body) ∈ secs ∧
      ∃ line ∈ body, isEntryLine line ∧ lineKey line = field ∧ lineValue line = value := by
  by_cases hknown : ∃ body, (sectionName, body) ∈ secs
  · obtain ⟨body, hmem⟩ := hknown
    have hvector := h.data_vector hmem
    have hentries : EntriesOf sectionName (p.data.vector sectionName) :=
      hvector ▸ entriesOf_section sectionName (hkeys _ hmem)
    have hbody : ∀ body', (sectionName, body') ∈ secs ↔ body' = body := by
      intro body'
      rw [← h.allLines_iff, (h.allLines_iff sectionName body).mpr hmem, Option.some.injEq, eq_comm]
    rw [hentries.getValue_iff, hvector, exists_entriesOf_iff]
    simp only [hbody, exists_eq_left]
  · have hunknown : sectionName ∉ secs.map Prod.fst := by simpa using hknown
    rw [getValue_eq, h.data_vector_of_not_mem hunknown]
    constructor
    · simp
    · rintro ⟨body, hmem, -⟩
      exact absurd ⟨body, hmem⟩ hknown

/-- `load` accepts exactly the well-formed files and returns `WRONG_SYNTAX` for all others.
After it the accessors return what the file says: `getAllSections` its sections,
`getAllEntries` the fields of a section in their order, and `getValue` the value of a field.
-/
theorem load_accepts_grammar (p : IniParser) (content : Bytes) :
    ((p.load (some content)).1 = .SUCCESS ↔ WellFormed (content.splitOn newline)) ∧
      (¬ WellFormed (content.splitOn newline) → (p.load (some content)).1 = .WRONG_SYNTAX) ∧
      (WellFormed (content.splitOn newline) →
        Lookups (p.load (some content)).2 (content.splitOn newline)) := by
  refine ⟨load_success_iff p content, fun hnot => ?_, fun hwell => ?_⟩
  · obtain ⟨q, hload⟩ := load_not_wellFormed p hnot
    rw [hload]
  obtain ⟨q, hload, hholds⟩ := load_wellFormed p hwell
  rw [hload]
  constructor
  · exact hholds.getValue_iff hwell.keys_nodup
  · intro sectionName body hmem
    rw [getAllEntries_eq, hholds.data_vector hmem, map_field_entriesOf]
  · intro sectionName hunknown
    rw [getAllEntries_eq, hholds.data_vector_of_not_mem (by simpa using hunknown), List.map_nil]
  · exact Std.ExtTreeMap.ordered_keys
  · intro sectionName
    rw [IniParser.getAllSections, Std.ExtTreeMap.mem_keys, hholds.mem_allLines_iff, sections,
      map_fst_sectionsFrom, List.mem_cons]

end clockUtils.iniParser
