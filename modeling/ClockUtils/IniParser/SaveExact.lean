import ClockUtils.IniParser.SaveLoad

namespace clockUtils.iniParser

/-- The files whose sections stand where `save` writes them: the names increase,
and `global` is either without lines or smaller than all of them. -/
structure InSavedOrder (lines : List Bytes) : Prop where
  names_sorted : (sectionNames lines).Pairwise fun a b => compare a b = .lt
  global_first : (∃ line rest, lines = line :: rest ∧ isSectionLine line = true) ∨
    ∀ name ∈ sectionNames lines, compare globalName name = .lt

/-- The sections that have lines, in the order of the file, are in the order of
their names. -/
theorem InSavedOrder.sections_sorted {lines : List Bytes} (h : InSavedOrder lines) :
    ((sections lines).filter fun fileSection => !fileSection.2.isEmpty).Pairwise
      fun a b => compare a.1 b.1 = .lt := by
  have hnames := map_fst_sectionsFrom globalName [] lines
  obtain ⟨blocks, hblocks, -⟩ := sectionsFrom_eq globalName [] lines
  rw [hblocks, List.map_cons, List.cons.injEq] at hnames
  have hsorted := h.names_sorted
  rw [← hnames.2, List.pairwise_map] at hsorted
  rw [sections, hblocks, List.nil_append]
  rcases h.global_first with ⟨line, rest, rfl, hline⟩ | hglobal
  · have hempty : globalLines (line :: rest) = [] := by
      rw [globalLines, List.takeWhile_cons, if_neg (by simp [hline])]
    rw [List.filter_cons, if_neg (by simp [hempty])]
    exact hsorted.filter _
  · refine List.Pairwise.filter _ (List.pairwise_cons.mpr ⟨fun block hblock => ?_, hsorted⟩)
    rw [← hnames.2, List.forall_mem_map] at hglobal
    exact hglobal block hblock

/-- Loading and saving without changes reproduces a file byte for byte, comments and blank
lines included, when its sections are in the order in which `save` writes them. -/
theorem save_load_text (p q : IniParser) (content : Bytes)
    (hload : p.load (some content) = (.SUCCESS, q))
    (horder : InSavedOrder (content.splitOn newline)) :
    (q.save true).2.1 = some content := by
  have hwell : WellFormed (content.splitOn newline) :=
    (load_success_iff p content).mp (by rw [hload])
  obtain ⟨q', hload', hq⟩ := load_wellFormed p hwell
  obtain rfl : q = q' := by
    rw [hload] at hload'
    exact (Prod.mk.inj hload').2
  have hproper := ((acceptable_iff_wellFormed _).mpr hwell).2
  have hlines := q.allLines.flatMap_toList hproper.names_nodup hq.allLines_iff horder.sections_sorted
  rw [List.nil_append, flatMap_sectionsFrom, List.nil_append,
    ← splitOn_savedText_of_holds hq hwell] at hlines
  have htext := congrArg [newline].intercalate hlines
  rw [List.intercalate_splitOn, List.intercalate_splitOn] at htext
  rw [IniParser.save, if_pos rfl, htext]

/-- A file with a comment, a blank line, a value with an equals sign, a line of
one character and a line break at its end: `;c`, `x=1=2`, the blank line,
`[net]`, `y`. -/
theorem save_load_text_comment :
    ∃ q, IniParser.fresh.load (some [59, 99, 10, 120, 61, 49, 61, 50, 10, 10, 91, 110, 101, 116, 93,
        10, 121, 10]) = (.SUCCESS, q) ∧
      (q.save true).2.1 = some [59, 99, 10, 120, 61, 49, 61, 50, 10, 10, 91, 110, 101, 116, 93,
        10, 121, 10] :=
  ⟨_, rfl, save_load_text .fresh _ _ rfl ⟨by decide, .inr (by decide)⟩⟩

end clockUtils.iniParser
