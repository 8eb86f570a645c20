import ClockUtils.IniParser.Blocks

namespace clockUtils.iniParser

/-- The saved sections around `global`: those with smaller names come before it. -/
structure Arranged (lines : List Bytes) (before after : List FileSection) : Prop where
  perm : (before ++ (globalName, globalLines lines) :: after).Perm (sections lines)
  before_lt : ∀ block ∈ before, compare block.1 globalName = .lt
  after_gt : ∀ block ∈ after, compare globalName block.1 = .lt

namespace Arranged

variable {lines : List Bytes} {before after : List FileSection}

theorem perm_blocks (h : Arranged lines before after) :
    ∃ blocks, sections lines = (globalName, globalLines lines) :: blocks ∧
      (before ++ after).Perm blocks ∧ ∀ block ∈ before ++ after, IsBlock block := by
  obtain ⟨blocks, hblocks, hall⟩ := sectionsFrom_eq globalName [] lines
  have hperm : (before ++ after).Perm blocks := by
    have hmiddle := List.perm_middle.symm.trans h.perm
    rw [sections, hblocks, List.nil_append] at hmiddle
    exact List.Perm.cons_inv hmiddle
  exact ⟨blocks, hblocks, hperm, fun block hmem => hall block (hperm.mem_iff.mp hmem)⟩

theorem isSectionLine_globalLines {line : Bytes} (h : line ∈ globalLines lines) :
    isSectionLine line = false := by
  simpa using List.mem_takeWhile_imp h

/-- The written lines are lines of the file. -/
theorem mem_lines (h : Arranged lines before after) {line : Bytes}
    (hline : line ∈ (before ++ (globalName, globalLines lines) :: after).flatMap Prod.snd) :
    line ∈ lines := by
  have hperm := h.perm.flatMap_right Prod.snd
  rw [hperm.mem_iff, sections, flatMap_sectionsFrom, List.nil_append] at hline
  exact hline

theorem sectionNames_perm (h : Arranged lines before after) {lines' : List Bytes}
    (hnames : (sections lines').map Prod.fst = globalName :: (before ++ after).map Prod.fst) :
    (sectionNames lines').Perm (sectionNames lines) := by
  obtain ⟨blocks, hblocks, hperm, -⟩ := h.perm_blocks
  rw [sections, map_fst_sectionsFrom, List.cons.injEq] at hnames
  have horiginal := map_fst_sectionsFrom globalName [] lines
  rw [← sections, hblocks, List.map_cons, List.cons.injEq] at horiginal
  rw [hnames.2, ← horiginal.2]
  exact hperm.map _

/-- With no smaller name, `global` is written first and read back as it was. -/
theorem sections_first (h : Arranged lines [] after) :
    sections ((([] : List FileSection) ++ (globalName, globalLines lines) :: after).flatMap Prod.snd) =
      (globalName, globalLines lines) :: after := by
  obtain ⟨-, -, -, hblock⟩ := h.perm_blocks
  exact iniParser.sections_first (fun line => isSectionLine_globalLines) hblock

/-- Behind a section with a smaller name, the lines of `global` are read as
lines of that section. -/
theorem sections_behind {name : Bytes} {body : List Bytes}
    (h : Arranged lines (before ++ [(name, body)]) after) :
    sections ((before ++ [(name, body)] ++ (globalName, globalLines lines) :: after).flatMap Prod.snd) =
      (globalName, []) :: (before ++ (name, body ++ globalLines lines) :: after) := by
  obtain ⟨-, -, -, hblock⟩ := h.perm_blocks
  exact iniParser.sections_behind (fun line => isSectionLine_globalLines) hblock

/-- The lines of `global` carry no entry away when it has none. -/
theorem sameEntries_behind {name : Bytes} {body : List Bytes}
    (h : Arranged lines (before ++ [(name, body)]) after)
    (hglobal : ∀ line ∈ globalLines lines, isEntryLine line = false) :
    SameEntries ((globalName, []) :: (before ++ (name, body ++ globalLines lines) :: after))
      (sections lines) := by
  have hfilter : (globalLines lines).filter isEntryLine = [] := by
    rw [List.filter_eq_nil_iff]
    intro line hline
    simp [hglobal line hline]
  intro query entries hne
  simp only [← h.perm.mem_iff, List.mem_append, List.mem_cons, List.not_mem_nil, or_false,
    Prod.mk.injEq, or_and_right, exists_or, and_assoc, exists_and_left, exists_eq_left,
    List.filter_append, hfilter, List.append_nil, List.filter_nil, hne.symm, and_false, false_or]
  rw [or_assoc]

end Arranged

theorem exists_arranged {q : IniParser} {lines : List Bytes} (h : Holds q (sections lines))
    (hwell : WellFormed lines) :
    ∃ before after, q.allLines.toList = before ++ (globalName, globalLines lines) :: after ∧
      Arranged lines before after := by
  have hproper := ((acceptable_iff_wellFormed lines).mpr hwell).2
  have hperm := q.allLines.toList_perm hproper.names_nodup h.allLines_iff
  obtain ⟨blocks, hblocks, -⟩ := sectionsFrom_eq globalName [] lines
  have hmem : (globalName, globalLines lines) ∈ q.allLines.toList := by
    rw [hperm.mem_iff, List.nil_append, hblocks]
    exact List.mem_cons_self
  obtain ⟨before, after, hsplit⟩ := List.append_of_mem hmem
  have hsorted := q.allLines.ordered_keys_toList
  rw [hsplit] at hperm hsorted
  rw [List.pairwise_append, List.pairwise_cons] at hsorted
  exact ⟨before, after, hsplit, hperm, fun block hblock => hsorted.2.2 block hblock _ List.mem_cons_self,
    fun block hblock => hsorted.2.1.1 block hblock⟩

/-- `global` is written first exactly when no section name is smaller. -/
theorem Arranged.before_eq_nil_iff {lines : List Bytes} {before after : List FileSection}
    (h : Arranged lines before after) :
    before = [] ↔ ∀ name ∈ sectionNames lines, compare name globalName ≠ .lt := by
  obtain ⟨blocks, hblocks, hperm, -⟩ := h.perm_blocks
  have hnames := map_fst_sectionsFrom globalName [] lines
  rw [← sections, hblocks, List.map_cons, List.cons.injEq] at hnames
  rw [← hnames.2, List.forall_mem_map]
  simp only [← hperm.mem_iff]
  constructor
  · rintro rfl block hmem hlt
    have hgt := h.after_gt block hmem
    rw [Std.OrientedOrd.eq_swap, hlt] at hgt
    cases hgt
  · intro hnone
    apply List.eq_nil_iff_forall_not_mem.mpr
    intro block hmem
    exact hnone block (List.mem_append_left _ hmem) (h.before_lt block hmem)

/-- The lines that `save` writes for a loaded file, as `load` reads them. -/
theorem splitOn_savedText_of_holds {q : IniParser} {content : Bytes}
    (h : Holds q (sections (content.splitOn newline)))
    (hwell : WellFormed (content.splitOn newline)) :
    q.savedText.splitOn newline = q.allLines.toList.flatMap Prod.snd := by
  have hproper := ((acceptable_iff_wellFormed _).mpr hwell).2
  have hperm := (q.allLines.toList_perm hproper.names_nodup h.allLines_iff).flatMap_right Prod.snd
  rw [List.nil_append, flatMap_sectionsFrom, List.nil_append, ← h.savedLines_eq] at hperm
  rw [← h.savedLines_eq]
  apply splitOn_savedText
  · intro line hline
    exact Lines.not_mem_of_mem_splitOn (hperm.mem_iff.mp hline)
  · intro hnil
    rw [hnil, List.nil_perm] at hperm
    exact List.splitOn_ne_nil newline content hperm

/-- A second parser reads the saved file when its sections hold the entries of
the first. -/
theorem reload_of_sameEntries (p' : IniParser) {q : IniParser} {lines : List Bytes}
    (hq : Holds q (sections lines)) (hwell : WellFormed lines)
    {before after : List FileSection} (harranged : Arranged lines before after)
    (hlines : ∀ line ∈ q.savedText.splitOn newline, line ∈ lines)
    (hnames : (sections (q.savedText.splitOn newline)).map Prod.fst =
      globalName :: (before ++ after).map Prod.fst)
    (hentries : SameEntries (sections (q.savedText.splitOn newline)) (sections lines)) :
    ∃ r, p'.load (some q.savedText) = (.SUCCESS, r) ∧ ∀ sectionName field,
      r.getValue sectionName field = q.getValue sectionName field := by
  have hwell' := hwell.of_sameEntries hlines (harranged.sectionNames_perm hnames) hentries
  obtain ⟨r, hload, hr⟩ := load_wellFormed p' hwell'
  exact ⟨r, hload, hq.getValue_eq_of_sameEntries hr hwell hwell' hentries⟩

/-- An entry of `global` is lost when the saved file begins with a section line. -/
theorem not_reload_of_entry (p' : IniParser) {q : IniParser} {lines : List Bytes}
    (hq : Holds q (sections lines)) (hwell : WellFormed lines)
    (hglobal : (globalName, []) ∈ sections (q.savedText.splitOn newline))
    {line : Bytes} (hline : line ∈ globalLines lines) (hentry : isEntryLine line = true) :
    ¬ ∃ r, p'.load (some q.savedText) = (.SUCCESS, r) ∧ ∀ sectionName field,
      r.getValue sectionName field = q.getValue sectionName field := by
  rintro ⟨r, hload, hsame⟩
  have hwell' : WellFormed (q.savedText.splitOn newline) :=
    (load_success_iff p' _).mp (by rw [hload])
  obtain ⟨r', hload', hr⟩ := load_wellFormed p' hwell'
  obtain rfl : r = r' := by
    rw [hload] at hload'
    exact (Prod.mk.inj hload').2
  obtain ⟨blocks, hblocks, -⟩ := sectionsFrom_eq globalName [] lines
  have hvalue : q.getValue globalName (lineKey line) = (.SUCCESS, lineValue line) := by
    rw [hq.getValue_iff hwell.keys_nodup]
    exact ⟨globalLines lines, by simp [sections, hblocks], line, hline, hentry, rfl, rfl⟩
  rw [← hsame, hr.getValue_iff hwell'.keys_nodup] at hvalue
  obtain ⟨body, hbody, other, hother, -⟩ := hvalue
  have hempty := hr.allLines_vector hbody
  rw [hr.allLines_vector hglobal] at hempty
  rw [← hempty] at hother
  cases hother

/-- Loading what was saved of a loaded file gives the same values exactly when
the file has no entry before its first section line, or no section name that
is smaller than `global`. -/
theorem load_save_load_iff (p p' q : IniParser) (content : Bytes)
    (hload : p.load (some content) = (.SUCCESS, q)) :
    (∃ r, p'.load (q.save true).2.1 = (.SUCCESS, r) ∧ ∀ sectionName field,
        r.getValue sectionName field = (q.save true).2.2.getValue sectionName field) ↔
      (∀ line ∈ globalLines (content.splitOn newline), isEntryLine line = false) ∨
        ∀ name ∈ sectionNames (content.splitOn newline), compare name globalName ≠ .lt := by
  have hwell : WellFormed (content.splitOn newline) :=
    (load_success_iff p content).mp (by rw [hload])
  obtain ⟨q', hload', hq⟩ := load_wellFormed p hwell
  obtain rfl : q' = q := by
    rw [hload] at hload'
    exact (Prod.mk.inj hload').2.symm
  obtain ⟨before, after, hsplit, harranged⟩ := exists_arranged hq hwell
  have htext := splitOn_savedText_of_holds hq hwell
  rw [hsplit] at htext
  have hlines : ∀ line ∈ q'.savedText.splitOn newline, line ∈ content.splitOn newline := by
    rw [htext]
    exact fun line => harranged.mem_lines
  rw [← harranged.before_eq_nil_iff]
  simp only [save_getValue, show (q'.save true).2.1 = some q'.savedText from rfl]
  rcases List.eq_nil_or_concat before with rfl | ⟨front, ⟨name, body⟩, rfl⟩
  · have hsections := harranged.sections_first
    rw [← htext] at hsections
    have hentries : SameEntries (sections (q'.savedText.splitOn newline))
        (sections (content.splitOn newline)) := .of_perm (hsections ▸ harranged.perm)
    simp only [or_true, iff_true]
    exact reload_of_sameEntries p' hq hwell harranged hlines (by rw [hsections]; rfl) hentries
  · rw [List.concat_eq_append] at harranged htext
    have hsections := harranged.sections_behind
    rw [← htext] at hsections
    rw [or_iff_left (by simp)]
    constructor
    · intro hreload line hline
      by_contra hentry
      exact not_reload_of_entry p' hq hwell (by rw [hsections]; exact List.mem_cons_self) hline
        (by simpa using hentry) hreload
    · intro hglobal
      refine reload_of_sameEntries p' hq hwell harranged hlines ?_ ?_
      · rw [hsections]
        simp
      · rw [hsections]
        exact harranged.sameEntries_behind hglobal

/-- The file `x=1`, `[A]`, `y=2`: the entry before the section line is read
back as an entry of `A`, since `A` is smaller than `global`. -/
theorem load_save_load_moves_entry :
    ∃ q r, IniParser.fresh.load (some [120, 61, 49, 10, 91, 65, 93, 10, 121, 61, 50]) = (.SUCCESS, q) ∧
      IniParser.fresh.load (q.save true).2.1 = (.SUCCESS, r) ∧
      q.getValue globalName [120] = (.SUCCESS, [49]) ∧
      r.getValue globalName [120] = (.VALUE_NOTFOUND, []) :=
  ⟨_, _, rfl, rfl, by decide, by decide⟩

/-- The file `x=1`, `[net]`, `y=2`, where the name is greater than `global`. -/
theorem load_save_load_keeps_entry :
    ∃ q r, IniParser.fresh.load
        (some [120, 61, 49, 10, 91, 110, 101, 116, 93, 10, 121, 61, 50]) = (.SUCCESS, q) ∧
      IniParser.fresh.load (q.save true).2.1 = (.SUCCESS, r) ∧
      ∀ sectionName field,
        r.getValue sectionName field = (q.save true).2.2.getValue sectionName field := by
  obtain ⟨r, hload, hsame⟩ := (load_save_load_iff .fresh .fresh _
    [120, 61, 49, 10, 91, 110, 101, 116, 93, 10, 121, 61, 50] rfl).mpr (.inr (by decide))
  exact ⟨_, r, rfl, hload, hsame⟩

end clockUtils.iniParser
