import ClockUtils.IniParser.Save
import Mathlib.Data.List.TakeWhile

namespace clockUtils.iniParser

/-- A section with a section line: this line comes first and is the only one. -/
def IsBlock (fileSection : FileSection) : Prop :=
  ∃ line rest, fileSection.2 = line :: rest ∧ isSectionLine line = true ∧
    lineName line = fileSection.1 ∧ ∀ other ∈ rest, isSectionLine other = false

/-- The lines before the first section line. -/
def globalLines (lines : List Bytes) : List Bytes :=
  lines.takeWhile fun line => !isSectionLine line

theorem sectionsFrom_append {name : Bytes} {body plain : List Bytes}
    (h : ∀ line ∈ plain, isSectionLine line = false) (lines : List Bytes) :
    sectionsFrom name body (plain ++ lines) = sectionsFrom name (body ++ plain) lines := by
  induction plain generalizing body with
  | nil => simp
  | cons line plain ih =>
    rw [List.forall_mem_cons] at h
    rw [List.cons_append, sectionsFrom, if_neg (by simp [h.1]), ih h.2, List.append_assoc,
      List.singleton_append]

/-- Blocks are cut where they were joined. -/
theorem sectionsFrom_flatMap (name : Bytes) (body : List Bytes) {blocks : List FileSection}
    (h : ∀ block ∈ blocks, IsBlock block) :
    sectionsFrom name body (blocks.flatMap Prod.snd) = (name, body) :: blocks := by
  induction blocks generalizing name body with
  | nil => rfl
  | cons block blocks ih =>
    rw [List.forall_mem_cons] at h
    obtain ⟨⟨line, rest, hlines, hline, hname, hrest⟩, hblocks⟩ := h
    obtain ⟨blockName, lines⟩ := block
    subst hlines hname
    rw [List.flatMap_cons, List.cons_append, sectionsFrom, if_pos hline, sectionsFrom_append hrest,
      ih _ _ hblocks, List.singleton_append]

/-- The sections of a file are the lines before the first section line and then
blocks. -/
theorem sectionsFrom_eq (name : Bytes) (body lines : List Bytes) :
    ∃ blocks, sectionsFrom name body lines = (name, body ++ globalLines lines) :: blocks ∧
      ∀ block ∈ blocks, IsBlock block := by
  induction lines generalizing name body with
  | nil => exact ⟨[], by simp [sectionsFrom, globalLines], by simp⟩
  | cons line lines ih =>
    rw [sectionsFrom, globalLines, List.takeWhile_cons]
    split
    · next hline =>
      obtain ⟨blocks, hblocks, hall⟩ := ih (lineName line) [line]
      refine ⟨_, by rw [if_neg (by simp [hline]), List.append_nil, hblocks], ?_⟩
      rw [List.forall_mem_cons]
      refine ⟨⟨line, globalLines lines, rfl, hline, rfl, ?_⟩, hall⟩
      intro other hother
      simpa using List.mem_takeWhile_imp hother
    · next hline =>
      obtain ⟨blocks, hblocks, hall⟩ := ih name (body ++ [line])
      refine ⟨blocks, ?_, hall⟩
      rw [if_pos (by simp [hline]), hblocks, List.append_assoc]
      rfl

theorem flatMap_sectionsFrom (name : Bytes) (body lines : List Bytes) :
    (sectionsFrom name body lines).flatMap Prod.snd = body ++ lines := by
  induction lines generalizing name body with
  | nil => simp [sectionsFrom]
  | cons line lines ih =>
    rw [sectionsFrom]
    split
    · rw [List.flatMap_cons, ih, List.singleton_append]
    · rw [ih, List.append_assoc, List.singleton_append]

/-- Lines of `global` before blocks are read back as they are. -/
theorem sections_first {plain : List Bytes} {after : List FileSection}
    (hplain : ∀ line ∈ plain, isSectionLine line = false)
    (hafter : ∀ block ∈ after, IsBlock block) :
    sections (((globalName, plain) :: after).flatMap Prod.snd) = (globalName, plain) :: after := by
  rw [List.flatMap_cons, sections, sectionsFrom_append hplain, sectionsFrom_flatMap _ _ hafter,
    List.nil_append]

/-- Behind a block, the lines of `global` are read as lines of that block. -/
theorem sections_behind {plain : List Bytes} {before after : List FileSection} {name : Bytes}
    {body : List Bytes} (hplain : ∀ line ∈ plain, isSectionLine line = false)
    (hblock : ∀ block ∈ before ++ [(name, body)] ++ after, IsBlock block) :
    sections ((before ++ [(name, body)] ++ (globalName, plain) :: after).flatMap Prod.snd) =
      (globalName, []) :: (before ++ (name, body ++ plain) :: after) := by
  have hjoin : (before ++ [(name, body)] ++ (globalName, plain) :: after).flatMap Prod.snd =
      (before ++ (name, body ++ plain) :: after).flatMap Prod.snd := by
    simp
  rw [hjoin, sections, sectionsFrom_flatMap]
  intro block hmem
  rw [List.mem_append, List.mem_cons] at hmem
  rcases hmem with hmem | rfl | hmem
  · exact hblock block (by simp [hmem])
  · obtain ⟨line, rest, hlines, hline, hname, hrest⟩ := hblock (name, body) (by simp)
    refine ⟨line, rest ++ plain, ?_, hline, hname, ?_⟩
    · rw [show body = line :: rest from hlines]
      rfl
    intro other hother
    rcases List.mem_append.mp hother with hother | hother
    · exact hrest other hother
    · exact hplain other hother
  · exact hblock block (by simp [hmem])

/-- Two files in which each section has the same entry lines. Sections without
any are not compared. -/
def SameEntries (secs secs' : List FileSection) : Prop :=
  ∀ name entries, entries ≠ [] →
    ((∃ body, (name, body) ∈ secs ∧ body.filter isEntryLine = entries) ↔
      ∃ body, (name, body) ∈ secs' ∧ body.filter isEntryLine = entries)

theorem SameEntries.of_perm {secs secs' : List FileSection} (h : secs.Perm secs') :
    SameEntries secs secs' := by
  intro name entries _
  simp only [h.mem_iff]

theorem SameEntries.exists_line_iff {secs secs' : List FileSection} (h : SameEntries secs secs')
    (name : Bytes) (P : Bytes → Prop) :
    (∃ body, (name, body) ∈ secs ∧ ∃ line ∈ body, isEntryLine line ∧ P line) ↔
      ∃ body, (name, body) ∈ secs' ∧ ∃ line ∈ body, isEntryLine line ∧ P line := by
  have hside : ∀ {secs secs' : List FileSection}, SameEntries secs secs' →
      (∃ body, (name, body) ∈ secs ∧ ∃ line ∈ body, isEntryLine line ∧ P line) →
      ∃ body, (name, body) ∈ secs' ∧ ∃ line ∈ body, isEntryLine line ∧ P line := by
    rintro secs secs' h ⟨body, hmem, line, hline, hentry, hP⟩
    have hfilter : line ∈ body.filter isEntryLine := List.mem_filter.mpr ⟨hline, hentry⟩
    obtain ⟨body', hmem', hsame⟩ :=
      (h name _ (List.ne_nil_of_mem hfilter)).mp ⟨body, hmem, rfl⟩
    rw [← hsame] at hfilter
    exact ⟨body', hmem', line, (List.mem_filter.mp hfilter).1, hentry, hP⟩
  exact ⟨hside h, hside fun name entries hne => (h name entries hne).symm⟩

/-- A file with the lines, the names and the entries of a well-formed one is
well formed, and its parser gives the same results. -/
theorem WellFormed.of_sameEntries {lines lines' : List Bytes} (h : WellFormed lines)
    (hlines : ∀ line ∈ lines', line ∈ lines)
    (hnames : (sectionNames lines').Perm (sectionNames lines))
    (hentries : SameEntries (sections lines') (sections lines)) : WellFormed lines' where
  recognised line hline := h.recognised line (hlines line hline)
  names_nodup := hnames.nodup_iff.mpr h.names_nodup
  names_ne_global := mt hnames.mem_iff.mp h.names_ne_global
  keys_nodup := by
    rintro ⟨name, body⟩ hmem
    rw [entryKeys]
    by_cases hempty : body.filter isEntryLine = []
    · simp [hempty]
    · obtain ⟨body', hmem', hsame⟩ := (hentries name _ hempty).mp ⟨body, hmem, rfl⟩
      rw [← hsame]
      exact h.keys_nodup _ hmem'

theorem Holds.getValue_eq_of_sameEntries {p q : IniParser} {lines lines' : List Bytes}
    (hp : Holds p (sections lines)) (hq : Holds q (sections lines')) (h : WellFormed lines)
    (h' : WellFormed lines') (hentries : SameEntries (sections lines') (sections lines))
    (sectionName field : Bytes) : q.getValue sectionName field = p.getValue sectionName field := by
  apply getValue_eq_of_iff
  intro value
  rw [hp.getValue_iff h.keys_nodup, hq.getValue_iff h'.keys_nodup]
  exact hentries.exists_line_iff sectionName fun line => lineKey line = field ∧ lineValue line = value

end clockUtils.iniParser
