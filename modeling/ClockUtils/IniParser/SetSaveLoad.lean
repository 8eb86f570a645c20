import ClockUtils.IniParser.SetSave
import Mathlib.Data.Nat.Digits.Defs

namespace clockUtils.iniParser

namespace Built

variable {p : IniParser}

/-- A section that is in `_allLines` is built. -/
theorem builtSection (h : Built p) {name : Bytes} {lines : List Bytes}
    (hlines : p.allLines[name]? = some lines) : BuiltSection name (p.data.vector name) lines := by
  rcases h name with ⟨-, hnone⟩ | ⟨entries, lines', hdata, hlines', hsection⟩
  · rw [hnone] at hlines
    cases hlines
  · rw [hlines', Option.some.injEq] at hlines
    rw [VectorMap.vector_of_some hdata, ← hlines]
    exact hsection

/-- The sections of the written file behind `global`. -/
def blocks (p : IniParser) : List FileSection :=
  p.allLines.toList.map fun pair => (pair.1, writtenLines pair.1 (p.data.vector pair.1))

theorem mem_blocks_iff (h : Built p) {block : FileSection} :
    block ∈ blocks p ↔ ∃ lines, BuiltSection block.1 (p.data.vector block.1) lines ∧
      block.2 = writtenLines block.1 (p.data.vector block.1) := by
  rw [blocks, List.mem_map]
  constructor
  · rintro ⟨⟨name, lines⟩, hmem, rfl⟩
    rw [Std.ExtTreeMap.mem_toList_iff_getElem?_eq_some] at hmem
    exact ⟨lines, h.builtSection hmem, rfl⟩
  · obtain ⟨name, body⟩ := block
    rintro ⟨lines, hsection, hbody⟩
    rcases h name with ⟨hnone, -⟩ | ⟨entries, lines', hdata, hlines, -⟩
    · exact absurd (VectorMap.vector_of_none hnone) hsection.nonempty
    · exact ⟨(name, lines'), Std.ExtTreeMap.mem_toList_iff_getElem?_eq_some.mpr hlines,
        Prod.ext rfl hbody.symm⟩

theorem savedLines_eq (h : Built p) : p.savedLines = (blocks p).flatMap Prod.snd := by
  rw [IniParser.savedLines, blocks, List.flatMap_map, List.flatMap_def, List.flatMap_def]
  congr 1
  apply List.map_congr_left
  rintro ⟨name, lines⟩ hmem
  rw [Std.ExtTreeMap.mem_toList_iff_getElem?_eq_some] at hmem
  exact (h.builtSection hmem).saveLines_eq

/-- The file as `load` reads it. Without any section it is empty, which is one
blank line. -/
theorem splitOn_savedText (h : Built p) :
    ∃ blank, (∀ line ∈ blank, line = []) ∧
      p.savedText.splitOn newline = blank ++ (blocks p).flatMap Prod.snd := by
  rw [← h.savedLines_eq]
  by_cases hnil : p.savedLines = []
  · refine ⟨[[]], by simp, ?_⟩
    rw [IniParser.savedText, hnil]
    rfl
  · refine ⟨[], by simp, iniParser.splitOn_savedText p (fun line hline => ?_) hnil⟩
    rw [h.savedLines_eq, List.mem_flatMap] at hline
    obtain ⟨block, hblock, hline⟩ := hline
    obtain ⟨lines, hsection, hbody⟩ := h.mem_blocks_iff.mp hblock
    rw [hbody] at hline
    exact hsection.newline_not_mem hline

theorem sections_savedText (h : Built p) :
    ∃ blank, (∀ line ∈ blank, line = []) ∧
      sections (p.savedText.splitOn newline) = (globalName, blank) :: blocks p := by
  obtain ⟨blank, hblank, hlines⟩ := h.splitOn_savedText
  refine ⟨blank, hblank, ?_⟩
  rw [hlines, sections, sectionsFrom_append, List.nil_append, sectionsFrom_flatMap]
  · intro block hblock
    obtain ⟨lines, hsection, hbody⟩ := h.mem_blocks_iff.mp hblock
    have hisBlock := hsection.isBlock
    rwa [← hbody] at hisBlock
  · intro line hline
    rw [hblank line hline]
    decide

theorem wellFormed_savedText (h : Built p) : WellFormed (p.savedText.splitOn newline) := by
  obtain ⟨blank, hblank, hlines⟩ := h.splitOn_savedText
  obtain ⟨blank', hblank', hsections⟩ := h.sections_savedText
  have hnames : sectionNames (p.savedText.splitOn newline) = p.allLines.keys := by
    have hfst := map_fst_sectionsFrom globalName [] (p.savedText.splitOn newline)
    rw [← sections, hsections, List.map_cons, List.cons.injEq, blocks, List.map_map] at hfst
    rw [← hfst.2, ← Std.ExtTreeMap.map_fst_toList_eq_keys]
    rfl
  refine ⟨fun line hline hread => ?_, ?_, fun hglobal => ?_, fun fileSection hmem => ?_⟩
  · rw [hlines, List.mem_append, List.mem_flatMap] at hline
    rcases hline with hline | ⟨block, hblock, hline⟩
    · rw [hblank line hline] at hread
      cases hread
    · obtain ⟨lines, hsection, hbody⟩ := h.mem_blocks_iff.mp hblock
      rw [hbody] at hline
      exact hsection.recognised hline hread
  · rw [hnames]
    refine Std.ExtTreeMap.ordered_keys.imp fun hlt heq => ?_
    rw [heq, Std.ReflOrd.compare_self] at hlt
    cases hlt
  · rw [hnames, Std.ExtTreeMap.mem_keys, Std.ExtTreeMap.mem_iff_isSome_getElem?,
      Option.isSome_iff_exists] at hglobal
    obtain ⟨lines, hget⟩ := hglobal
    exact (h.builtSection hget).name_writable.2 rfl
  · rw [hsections, List.mem_cons] at hmem
    rcases hmem with rfl | hmem
    · have hnone : entryKeys blank' = [] := by
        rw [entryKeys, List.filter_eq_nil_iff.mpr, List.map_nil]
        intro line hline
        rw [hblank' line hline]
        decide
      rw [hnone]
      exact List.nodup_nil
    · obtain ⟨lines, hsection, hbody⟩ := h.mem_blocks_iff.mp hmem
      rw [hbody, hsection.entryKeys_writtenLines]
      exact hsection.entries_of.fields_nodup.sublist (List.take_sublist _ _)

/-- A second parser reads the first `2 ^ 32` entries of each section back. -/
theorem reload (h : Built p) (p' : IniParser) :
    ∃ r, p'.load (some p.savedText) = (.SUCCESS, r) ∧ ∀ name,
      r.getAllEntries name = (p.getAllEntries name).take (2 ^ 32) ∧
      ∀ field value, r.getValue name field = (.SUCCESS, value) ↔
        ∃ t ∈ (p.data.vector name).take (2 ^ 32), t.field = field ∧ t.value = value := by
  have hwell := h.wellFormed_savedText
  obtain ⟨blank, hblank, hsections⟩ := h.sections_savedText
  obtain ⟨r, hload, hr⟩ := load_wellFormed p' hwell
  refine ⟨r, hload, fun name => ?_⟩
  rw [getAllEntries_eq, getAllEntries_eq]
  rcases h name with ⟨hnone, hlines⟩ | ⟨entries, lines, hdata, -, hsection⟩
  · have hvector := VectorMap.vector_of_none hnone
    have hempty : ∀ body, (name, body) ∈ sections (p.savedText.splitOn newline) →
        ∀ line ∈ body, isEntryLine line = false := by
      intro body hmem line hline
      rw [hsections, List.mem_cons] at hmem
      rcases hmem with hmem | hmem
      · rw [(Prod.mk.inj hmem).2] at hline
        rw [hblank line hline]
        decide
      · obtain ⟨lines, hsection, -⟩ := h.mem_blocks_iff.mp hmem
        exact absurd hvector hsection.nonempty
    have hvector' := hr.data_vector_eq_nil hempty
    refine ⟨by rw [hvector', hvector]; rfl, fun field value => ?_⟩
    rw [EntriesOf.getValue_iff (hvector' ▸ ⟨by simp, by simp⟩), hvector', hvector, List.take_nil]
  · have hmem : (name, writtenLines name entries) ∈ sections (p.savedText.splitOn newline) := by
      rw [hsections]
      refine List.mem_cons_of_mem _ (h.mem_blocks_iff.mpr ⟨lines, ?_, ?_⟩)
      · rwa [VectorMap.vector_of_some hdata]
      · rw [VectorMap.vector_of_some hdata]
    have hentries := entriesOf_section name (hwell.keys_nodup _ hmem)
    have hvector := hr.data_vector hmem
    rw [← hvector] at hentries
    refine ⟨?_, fun field value => ?_⟩
    · rw [hvector, map_field_entriesOf, hsection.entryKeys_writtenLines, VectorMap.vector_of_some hdata]
    · rw [hentries.getValue_iff, hvector, exists_entriesOf_iff, hsection.exists_writtenLines_iff,
        VectorMap.vector_of_some hdata]

end Built

theorem Built.entriesOf {p : IniParser} (h : Built p) (name : Bytes) :
    EntriesOf name (p.data.vector name) := by
  rcases h name with ⟨hnone, -⟩ | ⟨entries, lines, hdata, -, hsection⟩
  · rw [VectorMap.vector_of_none hnone]
    exact ⟨by simp, by simp⟩
  · rw [VectorMap.vector_of_some hdata]
    exact hsection.entries_of

/-- The calls on a fresh parser are defined, and a section has as many entries
as it was given different fields. -/
theorem setValues_fresh {assignments : List Assignment} (h : ∀ a ∈ assignments, a.Writable) :
    ∃ p, setValues .fresh assignments = .ok p ∧ Built p ∧
      ∀ name, (p.getAllEntries name).length = (fieldsGiven assignments name).dedup.length := by
  obtain ⟨p, hset, hbuilt, hfields⟩ := Built.fresh.setValues h
  refine ⟨p, hset, hbuilt, fun name => ?_⟩
  have hnodup : (p.getAllEntries name).Nodup := by
    rw [getAllEntries_eq]
    exact (hbuilt.entriesOf name).fields_nodup
  apply List.Perm.length_eq
  rw [List.perm_ext_iff_of_nodup hnodup (List.nodup_dedup _)]
  intro field
  have hempty : IniParser.fresh.getAllEntries name = [] := by
    rw [getAllEntries_eq, VectorMap.vector_of_none, List.map_nil]
    exact Std.ExtTreeMap.getElem?_empty
  rw [hfields, hempty, List.mem_dedup]
  simp

/-- Values that were set in a fresh parser are the same after `save` and `load` exactly when
no section was given more than `2 ^ 32` different fields. The counter of `save` is a
`uint32_t`, which returns to 0 then, and the entries behind it are not written. -/
theorem setValues_save_load_iff (assignments : List Assignment)
    (h : ∀ a ∈ assignments, a.Writable) (p' : IniParser) :
    ∃ p, setValues .fresh assignments = .ok p ∧
      ((∃ r, p'.load (p.save true).2.1 = (.SUCCESS, r) ∧ ∀ sectionName,
          r.getAllEntries sectionName = (p.save true).2.2.getAllEntries sectionName ∧
          ∀ field, r.getValue sectionName field = (p.save true).2.2.getValue sectionName field) ↔
        ∀ sectionName, (fieldsGiven assignments sectionName).dedup.length ≤ 2 ^ 32) := by
  obtain ⟨p, hset, hbuilt, hlength⟩ := setValues_fresh h
  refine ⟨p, hset, ?_⟩
  obtain ⟨r, hload, hread⟩ := hbuilt.reload p'
  simp only [show (p.save true).2.1 = some p.savedText from rfl, save_getValue, save_getAllEntries,
    ← hlength]
  constructor
  · rintro ⟨r', hload', hsame⟩ sectionName
    obtain rfl : r = r' := by
      rw [hload] at hload'
      exact (Prod.mk.inj hload').2
    rw [← (hsame sectionName).1, (hread sectionName).1]
    exact List.length_take_le _ _
  · intro hsmall
    refine ⟨r, hload, fun sectionName => ⟨?_, fun field => ?_⟩⟩
    · rw [(hread sectionName).1, List.take_of_length_le (hsmall sectionName)]
    · have hall : (p.data.vector sectionName).take (2 ^ 32) = p.data.vector sectionName := by
        apply List.take_of_length_le
        have hle := hsmall sectionName
        rwa [getAllEntries_eq, List.length_map] at hle
      apply getValue_eq_of_iff
      intro value
      rw [(hread sectionName).2, hall, (hbuilt.entriesOf sectionName).getValue_iff]

/-- Two fields in one section, one of them overwritten and one empty. -/
def threeCalls : List Assignment :=
  [⟨[65], [120], [49]⟩, ⟨[65], [121], []⟩, ⟨[65], [120], [50]⟩]

theorem setValues_save_load_two :
    ∃ p r, setValues .fresh threeCalls = .ok p ∧
      IniParser.fresh.load (p.save true).2.1 = (.SUCCESS, r) ∧ ∀ sectionName,
        r.getAllEntries sectionName = (p.save true).2.2.getAllEntries sectionName ∧
        ∀ field, r.getValue sectionName field = (p.save true).2.2.getValue sectionName field := by
  have hsmall : ∀ sectionName, (fieldsGiven threeCalls sectionName).dedup.length ≤ 2 ^ 32 := by
    intro sectionName
    have hdedup := (List.dedup_sublist (fieldsGiven threeCalls sectionName)).length_le
    have hfilter := List.length_filter_le (fun a => a.sectionName = sectionName) threeCalls
    rw [fieldsGiven, List.length_map] at hdedup
    have hthree : threeCalls.length = 3 := rfl
    rw [fieldsGiven]
    omega
  obtain ⟨p, hset, hiff⟩ := setValues_save_load_iff threeCalls (by decide) .fresh
  obtain ⟨r, hload, hsame⟩ := hiff.mpr hsmall
  exact ⟨p, r, hset, hload, hsame⟩

/-- The decimal digits of `i + 1`, the last one first. -/
def numberText (i : Nat) : Bytes :=
  (Nat.digits 10 (i + 1)).map fun d => UInt8.ofNat (48 + d)

/-- `n` different fields for section `A`. -/
def numbered (n : Nat) : List Assignment :=
  (List.range n).map fun i => ⟨[65], numberText i, []⟩

theorem numberText_injective : Function.Injective numberText := by
  have hinverse : ∀ i, Nat.ofDigits 10 ((numberText i).map fun c => c.toNat - 48) = i + 1 := by
    intro i
    rw [numberText, List.map_map]
    have hsame : (Nat.digits 10 (i + 1)).map
        ((fun c : UInt8 => c.toNat - 48) ∘ fun d => UInt8.ofNat (48 + d)) = Nat.digits 10 (i + 1) := by
      conv_rhs => rw [← List.map_id (Nat.digits 10 (i + 1))]
      apply List.map_congr_left
      intro d hd
      have hlt := Nat.digits_lt_base (by omega) hd
      simp only [Function.comp_apply, UInt8.toNat_ofNat', id_eq]
      omega
    rw [hsame, Nat.ofDigits_digits]
  intro i j hij
  have hi := hinverse i
  rw [hij, hinverse j] at hi
  omega

theorem numberText_digit {i : Nat} {c : UInt8} (h : c ∈ numberText i) : 48 ≤ c.toNat ∧ c.toNat ≤ 57 := by
  obtain ⟨d, hd, rfl⟩ := List.mem_map.mp h
  have hlt := Nat.digits_lt_base (by omega) hd
  rw [UInt8.toNat_ofNat']
  omega

theorem numbered_writable (n : Nat) : ∀ a ∈ numbered n, a.Writable := by
  intro a ha
  obtain ⟨i, -, rfl⟩ := List.mem_map.mp ha
  have hother : ∀ c : UInt8, ¬ (48 ≤ c.toNat ∧ c.toNat ≤ 57) → c ∉ numberText i :=
    fun c hc hmem => hc (numberText_digit hmem)
  have hhead : ∀ c : UInt8, ¬ (48 ≤ c.toNat ∧ c.toNat ≤ 57) → (numberText i).head? ≠ some c :=
    fun c hc hsome => hother c hc (List.mem_of_head? hsome)
  exact {
    sectionName_lines := show newline ∉ [65] by decide
    sectionName_ne := show [65] ≠ globalName by decide
    field_ne_nil := by simp [numberText]
    field_lines := hother newline (by decide)
    field_equals := hother equalsSign (by decide)
    field_open := hhead openBracket (by decide)
    field_comment := hhead semicolon (by decide)
    value_lines := show newline ∉ [] by decide }

theorem length_fieldsGiven_numbered (n : Nat) : (fieldsGiven (numbered n) [65]).dedup.length = n := by
  have hfields : fieldsGiven (numbered n) [65] = (List.range n).map numberText := by
    rw [fieldsGiven, numbered, List.filter_eq_self.mpr (by simp), List.map_map]
    rfl
  rw [hfields, ((List.nodup_map_iff numberText_injective).mpr List.nodup_range).dedup,
    List.length_map, List.length_range]

/-- With `2 ^ 32 + 1` different fields in section `A`, one of them is missing
in the parser that loads the saved file. -/
theorem setValues_save_load_loses_field :
    (∀ a ∈ numbered (2 ^ 32 + 1), a.Writable) ∧
      ∃ p r, setValues .fresh (numbered (2 ^ 32 + 1)) = .ok p ∧
        IniParser.fresh.load (p.save true).2.1 = (.SUCCESS, r) ∧
        ((p.save true).2.2.getAllEntries [65]).length = 2 ^ 32 + 1 ∧
        (r.getAllEntries [65]).length = 2 ^ 32 := by
  have hwritable := numbered_writable (2 ^ 32 + 1)
  obtain ⟨p, hset, hbuilt, hlength⟩ := setValues_fresh hwritable
  obtain ⟨r, hload, hread⟩ := hbuilt.reload .fresh
  have hfirst : (p.getAllEntries [65]).length = 2 ^ 32 + 1 := by
    rw [hlength, length_fieldsGiven_numbered]
  refine ⟨hwritable, p, r, hset, hload, ?_, ?_⟩
  · rw [save_getAllEntries, hfirst]
  · rw [(hread [65]).1, List.length_take, hfirst]
    omega

end clockUtils.iniParser
