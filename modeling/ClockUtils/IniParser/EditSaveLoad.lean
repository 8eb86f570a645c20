import ClockUtils.IniParser.EditSave

namespace clockUtils.iniParser

/-- The sections that there are after the calls, `global` apart. -/
def knownNames (lines : List Bytes) (assignments : List Assignment) : List Bytes :=
  sectionNames lines ++ assignments.map Assignment.sectionName

/-- The fields of a section after the calls: those of the file, then the new ones
in the order of the calls. -/
def fieldsAfter (lines : List Bytes) (assignments : List Assignment) (name : Bytes) : List Bytes :=
  (fieldsGiven assignments name).foldl addField (entryKeys (fileBody lines name))

/-- The fields of which `save` writes a line: its counter stops at 2^32, and the
lines of a longer file are there anyway. -/
def writtenFields (lines : List Bytes) (assignments : List Assignment) (name : Bytes) : List Bytes :=
  (fieldsAfter lines assignments name).take (max (2 ^ 32) (entryKeys (fileBody lines name)).length)

/-- The greatest name below `global`. Behind the lines of this section `save`
writes those of `global`, which have no section line. -/
def LastBefore (lines : List Bytes) (assignments : List Assignment) (name : Bytes) : Prop :=
  name ∈ knownNames lines assignments ∧ compare name globalName = .lt ∧
    ∀ other ∈ knownNames lines assignments, compare other globalName = .lt →
      compare name other ≠ .lt

/-- The files and calls after which `save` writes a file that `load` accepts: no
call names a section that has lines behind its section line but no entry, and
the section before `global` has no field that `global` has. -/
structure Reloadable (lines : List Bytes) (assignments : List Assignment) : Prop where
  listed : ∀ a ∈ assignments, ¬ Unlisted lines a.sectionName
  disjoint : ∀ name, LastBefore lines assignments name →
    (writtenFields lines assignments name).Disjoint (writtenFields lines assignments globalName)

theorem mem_foldl_addField {fields given : List Bytes} {field : Bytes} :
    field ∈ given.foldl addField fields ↔ field ∈ fields ∨ field ∈ given := by
  induction given generalizing fields with
  | nil => simp
  | cons next given ih =>
    rw [List.foldl_cons, ih, List.mem_cons]
    by_cases hmem : next ∈ fields
    · rw [addField_of_mem hmem]
      constructor
      · exact fun h => h.imp_right .inr
      · rintro (h | rfl | h)
        · exact .inl h
        · exact .inl hmem
        · exact .inr h
    · rw [addField_of_not_mem hmem, List.mem_append, List.mem_singleton, or_assoc]

/-- The state of a parser that has loaded a file and has made the calls. -/
structure Outcome (lines : List Bytes) (assignments : List Assignment) (q : IniParser) : Prop where
  edited : Edited lines q
  clean : Clean q
  fields : ∀ name, q.getAllEntries name = fieldsAfter lines assignments name
  names : ∀ name, q.allLines[name]?.isSome ↔
    name = globalName ∨ name ∈ knownNames lines assignments
  unlisted : ∀ name, Unlisted lines name → name ∉ assignments.map Assignment.sectionName →
    q.data[name]? = none

theorem Holds.getAllEntries_fileBody {q : IniParser} {lines : List Bytes} (hwell : WellFormed lines)
    (h : Holds q (sections lines)) (name : Bytes) :
    q.getAllEntries name = entryKeys (fileBody lines name) := by
  rw [getAllEntries_eq, fileBody]
  cases hlookup : (sections lines).lookup name with
  | some body =>
    rw [h.data_vector (hwell.lookup_iff.mp hlookup), map_field_entriesOf, Option.getD_some]
  | none =>
    have hunknown : name ∉ (sections lines).map Prod.fst := by
      intro hknown
      obtain ⟨⟨name, body⟩, hmem, rfl⟩ := List.mem_map.mp hknown
      rw [hwell.lookup_iff.mpr hmem] at hlookup
      cases hlookup
    rw [h.data_vector_of_not_mem hunknown]
    rfl

theorem setValues_other {p q : IniParser} {assignments : List Assignment} {name : Bytes}
    (hrun : setValues p assignments = .ok q)
    (hother : name ∉ assignments.map Assignment.sectionName) : q.data[name]? = p.data[name]? := by
  induction assignments generalizing p with
  | nil =>
    obtain rfl : p = q := Except.ok.inj hrun
    rfl
  | cons a assignments ih =>
    rw [List.map_cons, List.mem_cons, not_or] at hother
    rw [iniParser.setValues, Run.bind_eq_ok_iff] at hrun
    obtain ⟨r, hcall, hrun⟩ := hrun
    rw [ih hrun hother.2, (setValue_other hcall (Ne.symm hother.1)).1]

theorem Outcome.of_run {q₀ q : IniParser} {content : Bytes} {assignments : List Assignment}
    (hwell : WellFormed (content.splitOn newline))
    (hholds : Holds q₀ (sections (content.splitOn newline))) (hfits : ∀ a ∈ assignments, a.Fits)
    (hrun : setValues q₀ assignments = .ok q) :
    Outcome (content.splitOn newline) assignments q := by
  obtain ⟨hedited, hclean, hfields, hsome⟩ :=
    (Edited.of_holds hwell hholds).setValues hwell (.of_holds hholds) hfits hrun
  refine ⟨hedited, hclean, fun name => ?_, fun name => ?_, fun name hunlisted hother => ?_⟩
  · rw [hfields, hholds.getAllEntries_fileBody hwell, fieldsAfter]
  · rw [hsome, ← Std.ExtTreeMap.mem_iff_isSome_getElem?, hholds.mem_allLines_iff, sections,
      map_fst_sectionsFrom, List.mem_cons, knownNames, List.mem_append, or_assoc]
  · rw [setValues_other hrun hother]
    cases hdata : q₀.data[name]? with
    | none => rfl
    | some entries =>
      obtain ⟨hlisted, body, hmem, rfl⟩ := (hholds.data_iff name entries).mp hdata
      have hkeys := hunlisted.2.2
      rw [fileBody, hwell.lookup_iff.mpr hmem, Option.getD_some, ← map_field_entriesOf name,
        List.map_eq_nil_iff] at hkeys
      exact absurd hlisted (not_or.mpr ⟨not_not.mpr hkeys, hunlisted.1⟩)

/-- What `save` writes for each section, in the order of `_allLines`. -/
def savedBlocks (q : IniParser) : List FileSection :=
  q.allLines.toList.map fun (name, lines) =>
    (name, IniParser.saveLines (q.data.vector name) 0 0 lines)

theorem flatMap_savedBlocks (q : IniParser) : (savedBlocks q).flatMap Prod.snd = q.savedLines := by
  rw [savedBlocks, List.flatMap_map, IniParser.savedLines]

theorem mem_savedBlocks_iff {q : IniParser} {name : Bytes} {block : List Bytes} :
    (name, block) ∈ savedBlocks q ↔ ∃ body, q.allLines[name]? = some body ∧
      block = IniParser.saveLines (q.data.vector name) 0 0 body := by
  simp only [savedBlocks, List.mem_map, Prod.exists, Prod.mk.injEq,
    Std.ExtTreeMap.mem_toList_iff_getElem?_eq_some]
  constructor
  · rintro ⟨name, body, hbody, rfl, rfl⟩
    exact ⟨body, hbody, rfl⟩
  · rintro ⟨body, hbody, rfl⟩
    exact ⟨name, body, hbody, rfl, rfl⟩

theorem savedBlocks_sorted (q : IniParser) :
    (savedBlocks q).Pairwise fun a b => compare a.1 b.1 = .lt := by
  rw [savedBlocks, List.pairwise_map]
  exact q.allLines.ordered_keys_toList

theorem names_savedBlocks_nodup (q : IniParser) : ((savedBlocks q).map Prod.fst).Nodup := by
  rw [List.Nodup, List.pairwise_map]
  refine (savedBlocks_sorted q).imp fun hlt heq => ?_
  rw [heq, Std.ReflOrd.compare_self] at hlt
  cases hlt

theorem Clean.newline_not_mem {q : IniParser} (h : Clean q) {text : Bytes}
    (htext : text ∈ q.savedLines) : newline ∉ text := by
  rw [← flatMap_savedBlocks, List.mem_flatMap] at htext
  obtain ⟨⟨name, block⟩, hblock, htext⟩ := htext
  obtain ⟨body, hbody, rfl⟩ := mem_savedBlocks_iff.mp hblock
  rcases mem_saveLines htext with htext | ⟨t, ht, rfl⟩
  · apply h.lines name
    rwa [VectorMap.vector_of_some hbody]
  · exact h.texts name t ht

/-- A parser without lines writes the empty file, which has one blank line. -/
theorem Clean.wellFormed_savedText_iff {q : IniParser} (h : Clean q) :
    WellFormed (q.savedText.splitOn newline) ↔ WellFormed q.savedLines := by
  by_cases hnil : q.savedLines = []
  · have hblank : WellFormed [[]] :=
      (load_success_iff .fresh []).mp rfl
    have hnone : WellFormed [] :=
      ⟨by simp, by simp [sectionNames], by simp [sectionNames], by simp [sections, sectionsFrom, entryKeys]⟩
    have htext : q.savedText = [] := by
      rw [IniParser.savedText, hnil]
      rfl
    rw [htext, hnil]
    exact iff_of_true hblank hnone
  · rw [splitOn_savedText q (fun text htext => h.newline_not_mem htext) hnil]

/-- A call for an `Unlisted` section leaves two section lines with one name. -/
theorem Outcome.not_wellFormed {lines : List Bytes} {assignments : List Assignment} {q : IniParser}
    (h : Outcome lines assignments q) {a : Assignment} (ha : a ∈ assignments)
    (hunlisted : Unlisted lines a.sectionName) : ¬ WellFormed q.savedLines := by
  intro hsaved
  have hfield : a.field ∈ q.getAllEntries a.sectionName := by
    rw [h.fields, fieldsAfter, mem_foldl_addField]
    exact .inr (List.mem_map.mpr ⟨a, List.mem_filter.mpr ⟨ha, by simp⟩, rfl⟩)
  obtain ⟨hnone, -⟩ | ⟨entries, body, hsome, hbody, hdoubled, -⟩ := h.edited a.sectionName
  · rw [IniParser.getAllEntries, hnone] at hfield
    cases hfield
  · have hblock : (a.sectionName, IniParser.saveLines entries 0 0 body) ∈ savedBlocks q :=
      mem_savedBlocks_iff.mpr ⟨body, hbody, by rw [VectorMap.vector_of_some hsome]⟩
    have hsublist : (IniParser.saveLines entries 0 0 body).Sublist q.savedLines := by
      rw [← flatMap_savedBlocks, List.flatMap_def]
      exact List.sublist_flatten_of_mem (List.mem_map.mpr ⟨_, hblock, rfl⟩)
    apply (hdoubled hunlisted).names_saved
    exact hsaved.names_nodup.sublist ((hsublist.filter isSectionLine).map lineName)

/-- A file is well formed when its lines are recognised, its sections have
different names and each has different keys. -/
theorem wellFormed_iff_keys {lines : List Bytes} {secs : List FileSection}
    (hsections : sections lines = secs)
    (hlines : ∀ line ∈ lines, isRead line → isSectionLine line ∨ isEntryLine line)
    (hnames : (secs.map Prod.fst).Nodup) :
    WellFormed lines ↔ ∀ fileSection ∈ secs, (entryKeys fileSection.2).Nodup := by
  subst hsections
  rw [sections, map_fst_sectionsFrom, List.nodup_cons] at hnames
  exact ⟨fun h => h.keys_nodup, fun hkeys => ⟨hlines, hnames.2, hnames.1, hkeys⟩⟩

section Joined

variable {before after : List FileSection} {plain : List Bytes}

/-- Blocks behind the lines of `global`, each with different keys. -/
theorem wellFormed_first (hplain : ∀ text ∈ plain, isSectionLine text = false)
    (hblock : ∀ block ∈ after, IsBlock block)
    (hlines : ∀ text ∈ ((globalName, plain) :: after).flatMap Prod.snd,
      isRead text → isSectionLine text ∨ isEntryLine text)
    (hnames : (((globalName, plain) :: after).map Prod.fst).Nodup)
    (hkeys : ∀ fileSection ∈ (globalName, plain) :: after, (entryKeys fileSection.2).Nodup) :
    WellFormed (((globalName, plain) :: after).flatMap Prod.snd) :=
  (wellFormed_iff_keys (sections_first hplain hblock) hlines hnames).mpr hkeys

/-- Behind a block, the lines of `global` must not repeat one of its keys. -/
theorem wellFormed_behind_iff {name : Bytes} {body : List Bytes}
    (hplain : ∀ text ∈ plain, isSectionLine text = false)
    (hblock : ∀ block ∈ before ++ [(name, body)] ++ after, IsBlock block)
    (hlines : ∀ text ∈ (before ++ [(name, body)] ++ (globalName, plain) :: after).flatMap Prod.snd,
      isRead text → isSectionLine text ∨ isEntryLine text)
    (hnames : ((before ++ [(name, body)] ++ (globalName, plain) :: after).map Prod.fst).Nodup)
    (hkeys : ∀ fileSection ∈ before ++ [(name, body)] ++ (globalName, plain) :: after,
      (entryKeys fileSection.2).Nodup) :
    WellFormed ((before ++ [(name, body)] ++ (globalName, plain) :: after).flatMap Prod.snd) ↔
      (entryKeys body).Disjoint (entryKeys plain) := by
  have hnames' : (((globalName, []) :: (before ++ (name, body ++ plain) :: after)).map
      Prod.fst).Nodup := by
    rw [List.map_append, List.map_cons, List.nodup_middle] at hnames
    simpa using hnames
  have happend : entryKeys (body ++ plain) = entryKeys body ++ entryKeys plain := by
    rw [entryKeys, List.filter_append, List.map_append]
    rfl
  rw [wellFormed_iff_keys (sections_behind hplain hblock) hlines hnames']
  constructor
  · intro hnodup
    have hboth := hnodup (name, body ++ plain) (by simp)
    rw [happend, List.nodup_append'] at hboth
    exact hboth.2.2
  · intro hdisjoint fileSection hsection
    rw [List.mem_cons, List.mem_append, List.mem_cons] at hsection
    rcases hsection with rfl | hsection | rfl | hsection
    · simp [entryKeys]
    · exact hkeys fileSection (by simp [hsection])
    · rw [happend, List.nodup_append']
      exact ⟨hkeys (name, body) (by simp), hkeys (globalName, plain) (by simp), hdisjoint⟩
    · exact hkeys fileSection (by simp [hsection])

end Joined

namespace Outcome

variable {lines : List Bytes} {assignments : List Assignment} {q : IniParser}

theorem regular (hwell : WellFormed lines) (h : Outcome lines assignments q)
    (hlisted : ∀ a ∈ assignments, ¬ Unlisted lines a.sectionName) {name : Bytes} {body : List Bytes}
    (hbody : q.allLines[name]? = some body) :
    Regular name (entryKeys (fileBody lines name)).length (q.data.vector name) body := by
  obtain ⟨hnone, -, hkeys, hlookup⟩ | ⟨entries, body', hsome, hbody', -, hregular⟩ := h.edited name
  · rw [hlookup] at hbody
    have hfile : fileBody lines name = body := by
      rw [fileBody, hbody]
      rfl
    have hloaded := Regular.of_load hwell (hwell.lookup_iff.mp hbody)
    have hentries : entriesOf name body = [] := by
      rw [← List.map_eq_nil_iff, map_field_entriesOf, ← hfile, hkeys]
    rw [VectorMap.vector_of_none hnone, hfile]
    rwa [hentries] at hloaded
  · obtain rfl : body = body' := Option.some.inj (hbody.symm.trans hbody')
    rw [VectorMap.vector_of_some hsome]
    apply hregular
    intro hunlisted
    have hcalled : name ∈ assignments.map Assignment.sectionName := by
      by_contra hother
      rw [h.unlisted name hunlisted hother] at hsome
      cases hsome
    obtain ⟨a, ha, rfl⟩ := List.mem_map.mp hcalled
    exact hlisted a ha hunlisted

theorem entryKeys_block (hwell : WellFormed lines) (h : Outcome lines assignments q)
    (hlisted : ∀ a ∈ assignments, ¬ Unlisted lines a.sectionName) {name : Bytes} {block : List Bytes}
    (hblock : (name, block) ∈ savedBlocks q) :
    entryKeys block = writtenFields lines assignments name ∧ (entryKeys block).Nodup := by
  obtain ⟨body, hbody, rfl⟩ := mem_savedBlocks_iff.mp hblock
  have hregular := h.regular hwell hlisted hbody
  have hkeys := hregular.entryKeys_saved
  constructor
  · rw [hkeys, writtenFields, ← h.fields, getAllEntries_eq]
  · rw [hkeys]
    exact hregular.fields_nodup.sublist (List.take_sublist _ _)

/-- `global` among the written sections. -/
theorem exists_blocks (h : Outcome lines assignments q) :
    ∃ before plain after, savedBlocks q = before ++ (globalName, plain) :: after ∧
      (∀ block ∈ before, compare block.1 globalName = .lt) ∧
      (∀ block ∈ after, compare globalName block.1 = .lt) := by
  obtain ⟨body, hbody⟩ := Option.isSome_iff_exists.mp ((h.names globalName).mpr (.inl rfl))
  obtain ⟨before, after, hsplit⟩ := List.append_of_mem
    (mem_savedBlocks_iff.mpr ⟨body, hbody, rfl⟩)
  have hsorted := savedBlocks_sorted q
  rw [hsplit, List.pairwise_append, List.pairwise_cons] at hsorted
  exact ⟨before, _, after, hsplit, fun block hblock => hsorted.2.2 block hblock _ List.mem_cons_self,
    hsorted.2.1.1⟩

section Blocks

variable {before after : List FileSection} {plain : List Bytes}

theorem mem_before_iff (h : Outcome lines assignments q)
    (hsplit : savedBlocks q = before ++ (globalName, plain) :: after)
    (hbefore : ∀ block ∈ before, compare block.1 globalName = .lt)
    (hafter : ∀ block ∈ after, compare globalName block.1 = .lt) (name : Bytes) :
    (∃ body, (name, body) ∈ before) ↔
      name ∈ knownNames lines assignments ∧ compare name globalName = .lt := by
  have hsome : q.allLines[name]?.isSome ↔ ∃ block, (name, block) ∈ savedBlocks q := by
    rw [Option.isSome_iff_exists]
    simp only [mem_savedBlocks_iff, exists_comm, exists_and_left, exists_eq, and_true]
  constructor
  · rintro ⟨body, hmem⟩
    have hlt := hbefore _ hmem
    refine ⟨?_, hlt⟩
    have hknown := (h.names name).mp (hsome.mpr ⟨body, by rw [hsplit]; exact List.mem_append_left _ hmem⟩)
    refine hknown.resolve_left ?_
    rintro rfl
    rw [Std.ReflOrd.compare_self] at hlt
    cases hlt
  · rintro ⟨hknown, hlt⟩
    obtain ⟨body, hmem⟩ := hsome.mp ((h.names name).mpr (.inr hknown))
    rw [hsplit, List.mem_append, List.mem_cons, Prod.mk.injEq] at hmem
    rcases hmem with hmem | ⟨rfl, -⟩ | hmem
    · exact ⟨body, hmem⟩
    · rw [Std.ReflOrd.compare_self] at hlt
      cases hlt
    · have hgt := hafter _ hmem
      rw [Std.OrientedOrd.eq_swap, hlt] at hgt
      cases hgt

/-- The last of the blocks before `global` has the greatest of their names. -/
theorem lastBefore_iff (h : Outcome lines assignments q)
    (hsplit : savedBlocks q = before ++ (globalName, plain) :: after)
    (hbefore : ∀ block ∈ before, compare block.1 globalName = .lt)
    (hafter : ∀ block ∈ after, compare globalName block.1 = .lt) (name : Bytes) :
    LastBefore lines assignments name ↔ ∃ front body, before = front ++ [(name, body)] := by
  have hmem := h.mem_before_iff hsplit hbefore hafter
  have hsorted := savedBlocks_sorted q
  rw [hsplit, List.pairwise_append] at hsorted
  constructor
  · rintro ⟨hknown, hlt, hgreatest⟩
    obtain ⟨body, hbody⟩ := (hmem name).mpr ⟨hknown, hlt⟩
    rcases List.eq_nil_or_concat before with rfl | ⟨front, ⟨other, otherBody⟩, rfl⟩
    · cases hbody
    · rw [List.concat_eq_append] at hbody hmem hsorted ⊢
      have hother := (hmem other).mp ⟨otherBody, by simp⟩
      rw [List.mem_append, List.mem_singleton, Prod.mk.injEq] at hbody
      rcases hbody with hbody | ⟨rfl, -⟩
      · have hlast := (List.pairwise_append.mp hsorted.1).2.2 _ hbody _ (List.mem_singleton_self _)
        exact absurd hlast (hgreatest other hother.1 hother.2)
      · exact ⟨front, otherBody, rfl⟩
  · rintro ⟨front, body, rfl⟩
    obtain ⟨hknown, hlt⟩ := (hmem name).mp ⟨body, by simp⟩
    refine ⟨hknown, hlt, fun other hother hotherLt => ?_⟩
    obtain ⟨otherBody, hotherMem⟩ := (hmem other).mpr ⟨hother, hotherLt⟩
    rw [List.mem_append, List.mem_singleton, Prod.mk.injEq] at hotherMem
    rcases hotherMem with hotherMem | ⟨rfl, -⟩
    · have hlast := (List.pairwise_append.mp hsorted.1).2.2 _ hotherMem _ (List.mem_singleton_self _)
      intro hgt
      rw [Std.OrientedOrd.eq_swap, hgt] at hlast
      cases hlast
    · rw [Std.ReflOrd.compare_self]
      exact Ordering.noConfusion

end Blocks

theorem recognised (hwell : WellFormed lines) (h : Outcome lines assignments q)
    (hlisted : ∀ a ∈ assignments, ¬ Unlisted lines a.sectionName) {text : Bytes}
    (htext : text ∈ q.savedLines) (hread : isRead text = true) :
    isSectionLine text ∨ isEntryLine text := by
  rw [← flatMap_savedBlocks, List.mem_flatMap] at htext
  obtain ⟨⟨name, block⟩, hblock, htext⟩ := htext
  obtain ⟨body, hbody, rfl⟩ := mem_savedBlocks_iff.mp hblock
  exact (h.regular hwell hlisted hbody).recognised_saved htext hread

theorem isBlock_block (hwell : WellFormed lines) (h : Outcome lines assignments q)
    (hlisted : ∀ a ∈ assignments, ¬ Unlisted lines a.sectionName) {name : Bytes} {block : List Bytes}
    (hblock : (name, block) ∈ savedBlocks q) (hname : name ≠ globalName) : IsBlock (name, block) := by
  obtain ⟨body, hbody, rfl⟩ := mem_savedBlocks_iff.mp hblock
  exact (h.regular hwell hlisted hbody).isBlock_saved hname

theorem isSectionLine_block (hwell : WellFormed lines) (h : Outcome lines assignments q)
    (hlisted : ∀ a ∈ assignments, ¬ Unlisted lines a.sectionName) {block : List Bytes}
    (hblock : (globalName, block) ∈ savedBlocks q) {text : Bytes} (htext : text ∈ block) :
    isSectionLine text = false := by
  obtain ⟨body, hbody, rfl⟩ := mem_savedBlocks_iff.mp hblock
  exact (h.regular hwell hlisted hbody).isSectionLine_saved htext

/-- Where every section has one section line, only `global` can be in the way:
its fields are read as fields of the section before it. -/
theorem wellFormed_iff (hwell : WellFormed lines) (h : Outcome lines assignments q)
    (hlisted : ∀ a ∈ assignments, ¬ Unlisted lines a.sectionName) :
    WellFormed q.savedLines ↔ ∀ name, LastBefore lines assignments name →
      (writtenFields lines assignments name).Disjoint
        (writtenFields lines assignments globalName) := by
  obtain ⟨before, plain, after, hsplit, hbefore, hafter⟩ := h.exists_blocks
  have hlast := h.lastBefore_iff hsplit hbefore hafter
  have hkeys : ∀ {name block}, (name, block) ∈ savedBlocks q →
      entryKeys block = writtenFields lines assignments name ∧ (entryKeys block).Nodup :=
    h.entryKeys_block hwell hlisted
  have hnodup : ∀ fileSection ∈ savedBlocks q, (entryKeys fileSection.2).Nodup :=
    fun fileSection hsection => (hkeys hsection).2
  have hlines : ∀ text ∈ (savedBlocks q).flatMap Prod.snd,
      isRead text → isSectionLine text ∨ isEntryLine text := by
    rw [flatMap_savedBlocks]
    exact fun text htext hread => h.recognised hwell hlisted htext hread
  have hnames := names_savedBlocks_nodup q
  have hglobal : (globalName, plain) ∈ savedBlocks q := by simp [hsplit]
  have hplain : ∀ text ∈ plain, isSectionLine text = false :=
    fun text htext => h.isSectionLine_block hwell hlisted hglobal htext
  have hblock : ∀ block ∈ before ++ after, IsBlock block := by
    rintro ⟨name, block⟩ hmem
    have hsaved : (name, block) ∈ savedBlocks q := by
      rw [hsplit, List.mem_append, List.mem_cons]
      exact (List.mem_append.mp hmem).imp_right .inr
    refine h.isBlock_block hwell hlisted hsaved ?_
    rintro rfl
    rw [hsplit, List.map_append, List.map_cons, List.nodup_middle, ← List.map_append,
      List.nodup_cons] at hnames
    exact hnames.1 (List.mem_map.mpr ⟨_, hmem, rfl⟩)
  rw [← flatMap_savedBlocks]
  rcases List.eq_nil_or_concat before with rfl | ⟨front, ⟨name, body⟩, rfl⟩
  · rw [hsplit] at hlines hnames hnodup ⊢
    refine iff_of_true (wellFormed_first hplain hblock hlines hnames hnodup) fun name hname => ?_
    obtain ⟨front, body, hnil⟩ := (hlast name).mp hname
    simp at hnil
  · rw [List.concat_eq_append] at hsplit hlast hblock
    have hbodyKeys := hkeys (show (name, body) ∈ savedBlocks q by simp [hsplit])
    have hplainKeys := hkeys hglobal
    rw [hsplit] at hlines hnames hnodup ⊢
    rw [wellFormed_behind_iff hplain hblock hlines hnames hnodup, hbodyKeys.1, hplainKeys.1]
    constructor
    · intro hdisjoint other hother
      obtain ⟨front', body', hfront⟩ := (hlast other).mp hother
      obtain ⟨-, hpair⟩ := List.append_inj' hfront rfl
      obtain ⟨rfl, rfl⟩ : name = other ∧ body = body' := by simpa using hpair
      exact hdisjoint
    · exact fun hdisjoint => hdisjoint name ((hlast name).mpr ⟨front, body, rfl⟩)

end Outcome

/-- After a file has been loaded and values have been set, the file that `save`
writes is accepted by `load` exactly when no call names a section with lines
but without entries, and no field of `global` is also a field of the section
that is written before it. -/
theorem edit_save_load_iff (p p' q₀ q : IniParser) (content : Bytes) (assignments : List Assignment)
    (hload : p.load (some content) = (.SUCCESS, q₀)) (hfits : ∀ a ∈ assignments, a.Fits)
    (hrun : setValues q₀ assignments = .ok q) :
    (p'.load (q.save true).2.1).1 = .SUCCESS ↔
      Reloadable (content.splitOn newline) assignments := by
  have hwell : WellFormed (content.splitOn newline) :=
    (load_success_iff p content).mp (by rw [hload])
  obtain ⟨q', hload', hholds⟩ := load_wellFormed p hwell
  obtain rfl : q₀ = q' := by
    rw [hload] at hload'
    exact (Prod.mk.inj hload').2
  have houtcome := Outcome.of_run hwell hholds hfits hrun
  rw [show (q.save true).2.1 = some q.savedText from rfl, load_success_iff,
    houtcome.clean.wellFormed_savedText_iff]
  by_cases hlisted : ∀ a ∈ assignments, ¬ Unlisted (content.splitOn newline) a.sectionName
  · rw [houtcome.wellFormed_iff hwell hlisted]
    exact ⟨fun hdisjoint => ⟨hlisted, hdisjoint⟩, fun h => h.disjoint⟩
  · refine iff_of_false ?_ fun h => hlisted h.listed
    simp only [not_forall, not_not] at hlisted
    obtain ⟨a, ha, hunlisted⟩ := hlisted
    exact houtcome.not_wellFormed ha hunlisted

/-- The file `x=1`, `[A]`, `y=2`. -/
def smallFile : Bytes := [120, 61, 49, 10, 91, 65, 93, 10, 121, 61, 50]

/-- A new field and a new value in section `A`, and `x` in the new section `net`. -/
def smallEdits : List Assignment :=
  [⟨[65], [122], [51]⟩, ⟨[110, 101, 116], [120], [52]⟩, ⟨[65], [121], [53]⟩]

theorem edit_save_load_small :
    ∃ q₀ q, IniParser.fresh.load (some smallFile) = (.SUCCESS, q₀) ∧
      (∀ a ∈ smallEdits, a.Fits) ∧ setValues q₀ smallEdits = .ok q ∧
      (IniParser.fresh.load (q.save true).2.1).1 = .SUCCESS := by
  have hfits : ∀ a ∈ smallEdits, a.Fits := by decide
  have hreloadable : Reloadable (smallFile.splitOn newline) smallEdits := by
    have hname : ∀ name ∈ knownNames (smallFile.splitOn newline) smallEdits,
        compare name globalName = .lt → name = [65] := by decide
    have hfields : ∀ field ∈ fieldsAfter (smallFile.splitOn newline) smallEdits [65],
        field ∉ fieldsAfter (smallFile.splitOn newline) smallEdits globalName := by decide
    refine ⟨by decide, fun name hlast field hfield hglobal => ?_⟩
    obtain rfl := hname name hlast.1 hlast.2.1
    exact hfields field (List.mem_of_mem_take hfield) (List.mem_of_mem_take hglobal)
  exact ⟨_, _, rfl, hfits, rfl,
    (edit_save_load_iff .fresh .fresh _ _ smallFile smallEdits rfl hfits rfl).mpr hreloadable⟩

/-- The file `[A]`, `;c`, in which `x` is set in section `A`: the saved file has
two section lines for `A`, and the comment is lost. The file `x=1`, `[A]`, `x=2`
is rejected when it is saved without changes, since `x=1` comes behind `x=2`. -/
theorem edit_save_rejected :
    (∃ q₀ q, IniParser.fresh.load (some [91, 65, 93, 10, 59, 99]) = (.SUCCESS, q₀) ∧
      Assignment.Fits ⟨[65], [120], [49]⟩ ∧ setValues q₀ [⟨[65], [120], [49]⟩] = .ok q ∧
      q.savedLines = [[91, 65, 93], [120, 61, 49], [91, 65, 93], []] ∧
      (IniParser.fresh.load (q.save true).2.1).1 = .WRONG_SYNTAX) ∧
    ∃ q₀, IniParser.fresh.load (some [120, 61, 49, 10, 91, 65, 93, 10, 120, 61, 50]) =
        (.SUCCESS, q₀) ∧
      setValues q₀ [] = .ok q₀ ∧ (IniParser.fresh.load (q₀.save true).2.1).1 = .WRONG_SYNTAX :=
  ⟨⟨_, _, rfl, by decide, rfl, rfl, rfl⟩, _, rfl, rfl, rfl⟩

end clockUtils.iniParser
