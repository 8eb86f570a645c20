import ClockUtils.IniParser.Access
import Mathlib.Logic.Relation

namespace clockUtils.iniParser

/-- Where the own lines of a section's entries stand, in the order of the entries
in `_data`: the line that an entry was read from, or the blank line that
`setValue` made its placeholder. `none` stands for a line that is erased. The
parser does not record this; it follows from the calls alone. -/
abbrev OwnLines := Bytes → List (Option Nat)

/-- The lines of a file that `load` reads entries from. -/
def entryPositions (lines : List Bytes) : List (Option Nat) :=
  (lines.zipIdx.filter fun (line, _) => isEntryLine line).map fun (_, i) => some i

/-- The own lines behind `load`. -/
def IniParser.loadedLines (p : IniParser) : OwnLines :=
  fun name => entryPositions (p.allLines.vector name)

/-- The placeholder of an entry that `setValue` appends together with a blank
line: the line that was the last one, if it is blank and no entry's own, and the
appended line otherwise. -/
def placeholder (lines : List Bytes) (own : List (Option Nat)) : Nat :=
  if lines.getLast? = some [] ∧ some (lines.length - 1) ∉ own then lines.length - 1
  else lines.length

/-- Where a line stands when the line at `i` is erased. -/
def movedUp (i : Nat) : Option Nat → Option Nat
  | none => none
  | some j => if j < i then some j else if j = i then none else some (j - 1)

/-- The INDEX values of one section fit its lines. -/
structure Indexed (entries : List Entry) (lines : List Bytes) (own : List (Option Nat)) :
    Prop where
  increasing : (entries.map Entry.index).Pairwise (· < ·)
  in_range : ∀ t ∈ entries, t.index < lines.length
  own_line : entries.map (fun t => some t.index) = own
  text : ∀ t ∈ entries, ∀ line, lines[t.index]? = some line →
    line = [] ∨ isEntryLine line = true ∧ lineKey line = t.field

/-- In every section the INDEX values increase, are positions of lines, and each
is the position of the entry's own line, which is a placeholder or an entry line
for the entry's field. -/
def Consistent (p : IniParser) (own : OwnLines) : Prop :=
  ∀ name, Indexed (p.data.vector name) (p.allLines.vector name) (own name)

theorem map_index_entriesOf (name : Bytes) (lines : List Bytes) :
    (entriesOf name lines).map (fun t => some t.index) = entryPositions lines := by
  rw [entriesOf, entryPositions, List.map_map]
  rfl

namespace Indexed

theorem nil (lines : List Bytes) : Indexed [] lines [] :=
  ⟨by simp, by simp, rfl, by simp⟩

/-- The entries that were read from lines. -/
theorem of_entriesOf (name : Bytes) (lines : List Bytes) :
    Indexed (entriesOf name lines) lines (entryPositions lines) := by
  refine ⟨?_, fun t ht => ?_, map_index_entriesOf name lines, fun t ht line hline => ?_⟩
  · induction lines using List.reverseRecOn with
    | nil => simp [entriesOf]
    | append_singleton lines line ih =>
      rw [entriesOf_append, List.map_append, List.pairwise_append]
      refine ⟨ih, by split <;> simp, fun i hi j hj => ?_⟩
      obtain ⟨t, ht, rfl⟩ := List.mem_map.mp hi
      obtain ⟨-, line', hline', -⟩ := mem_entriesOf_iff.mp ht
      obtain ⟨hlt, -⟩ := List.getElem?_eq_some_iff.mp hline'
      split at hj
      · obtain rfl : j = lines.length := by simpa using hj
        exact hlt
      · simp at hj
  · obtain ⟨-, line, hline, -⟩ := mem_entriesOf_iff.mp ht
    exact (List.getElem?_eq_some_iff.mp hline).1
  · obtain ⟨-, line', hline', hentry, hkey, -⟩ := mem_entriesOf_iff.mp ht
    rw [hline, Option.some.injEq] at hline'
    subst hline'
    exact .inr ⟨hentry, hkey⟩

/-- Values do not matter. -/
theorem assign {entries : List Entry} {lines : List Bytes} {own : List (Option Nat)}
    (h : Indexed entries lines own) (sectionName field value : Bytes) :
    Indexed (IniParser.assign sectionName field value entries) lines own := by
  have hsame := map_assign (fun t => (t.index, t.field)) (fun _ _ => rfl) sectionName field value
    entries
  have hmem : ∀ t ∈ IniParser.assign sectionName field value entries,
      ∃ t' ∈ entries, t'.index = t.index ∧ t'.field = t.field := by
    intro t ht
    have hpair : (t.index, t.field) ∈ entries.map fun t => (t.index, t.field) :=
      hsame ▸ List.mem_map.mpr ⟨t, ht, rfl⟩
    obtain ⟨t', ht', heq⟩ := List.mem_map.mp hpair
    exact ⟨t', ht', Prod.mk.inj heq⟩
  refine ⟨?_, fun t ht => ?_, ?_, fun t ht line hline => ?_⟩
  · rw [map_assign Entry.index fun _ _ => rfl]
    exact h.increasing
  · obtain ⟨t', ht', hindex, -⟩ := hmem t ht
    exact hindex ▸ h.in_range t' ht'
  · rw [map_assign (fun t => some t.index) fun _ _ => rfl]
    exact h.own_line
  · obtain ⟨t', ht', hindex, hfield⟩ := hmem t ht
    rw [← hindex] at hline
    rw [← hfield]
    exact h.text t' ht' line hline

/-- A new entry behind all others, on a blank line. -/
theorem push {entries : List Entry} {lines : List Bytes} {own : List (Option Nat)}
    (h : Indexed entries lines own) {t : Entry} (hbehind : ∀ t' ∈ entries, t'.index < t.index)
    (hline : (lines ++ [[]])[t.index]? = some []) :
    Indexed (entries ++ [t]) (lines ++ [[]]) (own ++ [some t.index]) := by
  refine ⟨?_, fun t' ht' => ?_, ?_, fun t' ht' line hline' => ?_⟩
  · rw [List.map_append, List.pairwise_append]
    refine ⟨h.increasing, by simp, fun i hi j hj => ?_⟩
    obtain ⟨t', ht', rfl⟩ := List.mem_map.mp hi
    obtain rfl : j = t.index := by simpa using hj
    exact hbehind t' ht'
  · rcases List.mem_append.mp ht' with ht' | ht'
    · have hlt := h.in_range t' ht'
      rw [List.length_append]
      omega
    · rw [List.mem_singleton.mp ht']
      exact (List.getElem?_eq_some_iff.mp hline).1
  · rw [List.map_append, h.own_line, List.map_singleton]
  · rcases List.mem_append.mp ht' with ht' | ht'
    · rw [List.getElem?_append_left (h.in_range t' ht')] at hline'
      exact h.text t' ht' line hline'
    · rw [List.mem_singleton.mp ht', hline, Option.some.injEq] at hline'
      exact .inl hline'.symm

theorem lt_last {entries : List Entry} {t : Entry} {lines : List Bytes} {own : List (Option Nat)}
    (h : Indexed (entries ++ [t]) lines own) : ∀ t' ∈ entries, t'.index < t.index := by
  have hincreasing := h.increasing
  rw [List.map_append, List.pairwise_append] at hincreasing
  intro t' ht'
  exact hincreasing.2.2 _ (List.mem_map.mpr ⟨t', ht', rfl⟩) _ (by simp)

/-- Erasing the line of the last entry moves no line of another one. -/
theorem eraseLast {entries : List Entry} {t : Entry} {lines : List Bytes}
    {own : List (Option Nat)} (h : Indexed (entries ++ [t]) lines own) :
    Indexed entries (lines.eraseIdx t.index)
      ((own.eraseIdx entries.length).map (movedUp t.index)) := by
  have hlast := h.in_range t (by simp)
  refine ⟨?_, fun t' ht' => ?_, ?_, fun t' ht' line hline => ?_⟩
  · have hincreasing := h.increasing
    rw [List.map_append, List.pairwise_append] at hincreasing
    exact hincreasing.1
  · have hlt := h.lt_last t' ht'
    rw [List.length_eraseIdx_of_lt hlast]
    omega
  · have hfront : own.eraseIdx entries.length = entries.map fun t => some t.index := by
      rw [← h.own_line, List.map_append, List.eraseIdx_append_of_length_le (by simp)]
      simp
    rw [hfront, List.map_map]
    apply List.map_congr_left
    intro t' ht'
    exact (if_pos (h.lt_last t' ht')).symm
  · rw [List.getElem?_eraseIdx_of_lt (h.lt_last t' ht')] at hline
    exact h.text t' (by simp [ht']) line hline

/-- The own line of an entry is at its INDEX. -/
theorem own_getElem? {entries : List Entry} {lines : List Bytes} {own : List (Option Nat)}
    (h : Indexed entries lines own) {k : Nat} {t : Entry} (ht : entries[k]? = some t) :
    own[k]? = some (some t.index) := by
  rw [← h.own_line, List.getElem?_map, ht, Option.map_some]

end Indexed

/-- The calls that change a parser. -/
inductive Op where
  | setValue (sectionName field value : Bytes)
  | removeEntry (sectionName entry : Bytes)

def Op.apply (p : IniParser) : Op → Run IniParser
  | .setValue sectionName field value => p.setValue sectionName field value
  | .removeEntry sectionName entry => p.removeEntry sectionName entry

/-- The own lines behind a call in the state `p`: a new entry gets its
placeholder, and `removeEntry` moves the lines behind the one that it erases. -/
def Op.ownLines (p : IniParser) (own : OwnLines) : Op → OwnLines
  | .setValue sectionName field _ =>
    let lines := p.allLines.vector sectionName
    match p.data[sectionName]? with
    | none => Function.update own sectionName (own sectionName ++ [some (lines.length + 1)])
    | some entries =>
      if ∃ t ∈ entries, t.Matches sectionName field then own
      else
        Function.update own sectionName
          (own sectionName ++ [some (placeholder lines (own sectionName))])
  | .removeEntry sectionName entry =>
    let k := p.entryPosition sectionName entry
    match (p.data.vector sectionName)[k]? with
    | none => own
    | some t =>
      Function.update own sectionName (((own sectionName).eraseIdx k).map (movedUp t.index))

theorem back_eq_ok_iff {α : Type} {xs : List α} {x : α} :
    IniParser.back xs = .ok x ↔ xs.getLast? = some x := by
  rw [IniParser.back]
  split
  · next hnone => simp [hnone]
  · next hsome => simp [hsome]

/-- What a defined call of `setValue` does. -/
theorem setValue_cases {p q : IniParser} {sectionName field value : Bytes}
    (h : p.setValue sectionName field value = .ok q) :
    (p.data[sectionName]? = none ∧ q = p.createSection sectionName field value) ∨
      (∃ entries, p.data[sectionName]? = some entries ∧
        (∃ t ∈ entries, t.Matches sectionName field) ∧
        q = { p with
          data := p.data.insert sectionName (IniParser.assign sectionName field value entries) }) ∨
      ∃ entries index, p.data[sectionName]? = some entries ∧
        (∀ t ∈ entries, ¬ t.Matches sectionName field) ∧
        IniParser.insertIndex entries (p.allLines.vector sectionName) = .ok index ∧
        q = p.appendEntry sectionName ⟨sectionName, field, index, value⟩ := by
  rw [IniParser.setValue] at h
  split at h
  · next hnone => exact .inl ⟨hnone, (Except.ok.inj h).symm⟩
  · next entries hsome =>
    split at h
    · next hold => exact .inr (.inl ⟨entries, hsome, hold, (Except.ok.inj h).symm⟩)
    · next hnew =>
      rw [Run.bind_eq_ok_iff] at h
      obtain ⟨index, hindex, hq⟩ := h
      refine .inr (.inr ⟨entries, index, hsome, ?_, hindex, (Except.ok.inj hq).symm⟩)
      exact fun t ht hmatch => hnew ⟨t, ht, hmatch⟩

/-- A new entry comes behind all others, its line is blank and its placeholder. -/
theorem insertIndex_spec {entries : List Entry} {lines : List Bytes} {own : List (Option Nat)}
    {index : Nat} (h : Indexed entries lines own)
    (hindex : IniParser.insertIndex entries lines = .ok index) :
    (∀ t ∈ entries, t.index < index) ∧ (lines ++ [[]])[index]? = some [] ∧
      placeholder lines own = index := by
  rw [IniParser.insertIndex, Run.bind_eq_ok_iff] at hindex
  obtain ⟨line, hline, hindex⟩ := hindex
  rw [back_eq_ok_iff] at hline
  split at hindex
  · next hblank =>
    rw [Run.bind_eq_ok_iff] at hindex
    obtain ⟨last, hlast, hindex⟩ := hindex
    rw [back_eq_ok_iff, List.getLast?_eq_some_iff] at hlast
    obtain ⟨front, rfl⟩ := hlast
    subst hblank
    have hle : ∀ t ∈ front ++ [last], t.index ≤ last.index := by
      intro t ht
      rcases List.mem_append.mp ht with ht | ht
      · exact Nat.le_of_lt (h.lt_last t ht)
      · exact List.mem_singleton.mp ht ▸ Nat.le_refl _
    have hlt := h.in_range last (by simp)
    have hown : some (lines.length - 1) ∈ own ↔ last.index = lines.length - 1 := by
      rw [← h.own_line, List.mem_map]
      constructor
      · rintro ⟨t, ht, heq⟩
        have := hle t ht
        rw [Option.some.injEq] at heq
        omega
      · intro heq
        exact ⟨last, by simp, by rw [heq]⟩
    have hvalue := Except.ok.inj hindex
    obtain ⟨before, rfl⟩ := List.getLast?_eq_some_iff.mp hline
    have hlength : (before ++ [[]]).length = before.length + 1 := by simp
    split at hvalue
    · next hother =>
      obtain rfl : before.length = index := by omega
      refine ⟨fun t ht => ?_, by simp, ?_⟩
      · have := hle t ht
        omega
      · rw [placeholder, if_pos ⟨hline, fun hmem => hother (hown.mp hmem)⟩]
        omega
    · next hsame =>
      obtain rfl : before.length + 1 = index := by omega
      refine ⟨fun t ht => ?_, by simp, ?_⟩
      · have := hle t ht
        omega
      · rw [placeholder, if_neg fun hfree => hfree.2 (hown.mpr (not_not.mp hsame)), hlength]
  · next hblank =>
    obtain rfl : lines.length = index := Except.ok.inj hindex
    refine ⟨h.in_range, by simp, if_neg ?_⟩
    rintro ⟨hlast, -⟩
    rw [hline, Option.some.injEq] at hlast
    exact hblank hlast

theorem vector_pushLine (p : IniParser) (name line query : Bytes) :
    (p.pushLine name line).allLines.vector query =
      if name = query then p.allLines.vector name ++ [line] else p.allLines.vector query :=
  VectorMap.vector_push _ _ _ _

theorem vector_pushEntry (p : IniParser) (name : Bytes) (t : Entry) (query : Bytes) :
    (p.pushEntry name t).data.vector query =
      if name = query then p.data.vector name ++ [t] else p.data.vector query :=
  VectorMap.vector_push _ _ _ _

/-- Only one section changes when an entry is appended to it. -/
theorem Consistent.appendEntry {p : IniParser} {own : OwnLines} {name : Bytes} {t : Entry}
    {position : Option Nat}
    (h : ∀ query, query ≠ name →
      Indexed (p.data.vector query) (p.allLines.vector query) (own query))
    (hname : Indexed (p.data.vector name ++ [t]) (p.allLines.vector name ++ [[]])
      (own name ++ [position])) :
    Consistent (p.appendEntry name t) (Function.update own name (own name ++ [position])) := by
  intro query
  rw [IniParser.appendEntry, vector_pushLine,
    show ((p.pushEntry name t).pushLine name []).data = (p.pushEntry name t).data from rfl,
    show (p.pushEntry name t).allLines = p.allLines from rfl, vector_pushEntry]
  by_cases hquery : name = query
  · subst hquery
    rw [if_pos rfl, if_pos rfl, Function.update_self]
    exact hname
  · rw [if_neg hquery, if_neg hquery, Function.update_of_ne (Ne.symm hquery)]
    exact h query (Ne.symm hquery)

/-- `setValue` keeps the line index, unless it creates a section whose lines
are there already. -/
theorem Consistent.setValue {p q : IniParser} {own : OwnLines} {sectionName field value : Bytes}
    (h : Consistent p own) (hknown : sectionName ∈ p.data ∨ sectionName ∉ p.allLines)
    (hcall : p.setValue sectionName field value = .ok q) :
    Consistent q ((Op.setValue sectionName field value).ownLines p own) := by
  rcases setValue_cases hcall with ⟨hnone, rfl⟩ | ⟨entries, hsome, hold, rfl⟩ |
    ⟨entries, index, hsome, hnew, hindex, rfl⟩
  · have hdata := VectorMap.vector_of_none hnone
    have hlines : p.allLines.vector sectionName = [] := by
      rw [Std.ExtTreeMap.mem_iff_isSome_getElem?, hnone,
        Std.ExtTreeMap.mem_iff_isSome_getElem?] at hknown
      have hmissing := hknown.resolve_left (by simp)
      exact VectorMap.vector_of_none (Option.not_isSome_iff_eq_none.mp hmissing)
    simp only [Op.ownLines, hnone, hlines]
    refine Consistent.appendEntry (fun query hquery => ?_) ?_
    · rw [vector_pushLine, if_neg (Ne.symm hquery)]
      exact h query
    · have hown := (h sectionName).own_line
      rw [hdata] at hown
      rw [vector_pushLine, if_pos rfl, hlines, ← hown,
        show (p.pushLine sectionName (IniParser.sectionLine sectionName)).data = p.data from rfl,
        hdata]
      exact (Indexed.nil [IniParser.sectionLine sectionName]).push
        (t := ⟨sectionName, field, 1, value⟩) (by simp) rfl
  · have hvector := VectorMap.vector_of_some hsome
    simp only [Op.ownLines, hsome, if_pos hold]
    intro query
    rw [VectorMap.vector_insert]
    split
    · next heq =>
      subst heq
      exact (hvector ▸ h sectionName).assign sectionName field value
    · exact h query
  · have hvector := VectorMap.vector_of_some hsome
    obtain ⟨hbehind, hline, hplace⟩ := insertIndex_spec (hvector ▸ h sectionName) hindex
    have hold : ¬ ∃ t ∈ entries, t.Matches sectionName field := by
      rintro ⟨t, ht, hmatch⟩
      exact hnew t ht hmatch
    simp only [Op.ownLines, hsome, if_neg hold, hplace]
    exact Consistent.appendEntry (fun query _ => h query)
      ((h sectionName).push (hvector.symm ▸ hbehind) hline)

/-- What `removeEntry` finds: no entry, or the first that matches. -/
theorem removeEntry_eq (p : IniParser) (sectionName entry : Bytes) :
    p.removeEntry sectionName entry =
      p.eraseEntry sectionName entry >>= fun q =>
        if q.data.vector sectionName = [] then
          .ok { data := q.data.erase sectionName, allLines := q.allLines.erase sectionName }
        else .ok q := rfl

/-- The loop of `removeEntry` finds no entry, or it erases the first one that matches
with the line at its INDEX. -/
theorem eraseEntry_cases {p q : IniParser} {sectionName entry : Bytes}
    (hcall : p.eraseEntry sectionName entry = .ok q) :
    ((p.data.vector sectionName)[p.entryPosition sectionName entry]? = none ∧
      q = { p with data := p.data.touch sectionName }) ∨
    ∃ t, (p.data.vector sectionName)[p.entryPosition sectionName entry]? = some t ∧
      t.index < (p.allLines.vector sectionName).length ∧
      q = {
        data := p.data.insert sectionName
          ((p.data.vector sectionName).eraseIdx (p.entryPosition sectionName entry))
        allLines := p.allLines.insert sectionName
          ((p.allLines.vector sectionName).eraseIdx t.index) } := by
  rw [IniParser.eraseEntry] at hcall
  cases ht : (p.data.vector sectionName)[p.entryPosition sectionName entry]? with
  | none =>
    rw [ht] at hcall
    exact .inl ⟨rfl, (Except.ok.inj hcall).symm⟩
  | some t =>
    rw [ht] at hcall
    dsimp only at hcall
    rw [IniParser.eraseAt] at hcall
    split at hcall
    · next hrange => exact .inr ⟨t, rfl, hrange, (Except.ok.inj hcall).symm⟩
    · cases hcall

/-- Erasing a section without entries keeps the line index. -/
theorem Consistent.erase {p : IniParser} {own : OwnLines} (h : Consistent p own)
    {sectionName : Bytes} (hempty : p.data.vector sectionName = []) :
    Consistent { data := p.data.erase sectionName, allLines := p.allLines.erase sectionName }
      own := by
  intro query
  rw [VectorMap.vector_erase, VectorMap.vector_erase]
  split
  · next heq =>
    have hown := (h sectionName).own_line
    rw [hempty] at hown
    rw [← heq, ← hown]
    exact Indexed.nil _
  · exact h query

/-- Behind the call the section has lost its entry at `k` and its line at `i`,
and is gone if this was its last entry. No other section changes. -/
structure ErasesLine (p q : IniParser) (sectionName : Bytes) (k i : Nat) : Prop where
  line_exists : i < (p.allLines.vector sectionName).length
  data_eq : q.data.vector sectionName = (p.data.vector sectionName).eraseIdx k
  lines_eq : (p.data.vector sectionName).eraseIdx k ≠ [] →
    q.allLines.vector sectionName = (p.allLines.vector sectionName).eraseIdx i
  section_erased : (p.data.vector sectionName).eraseIdx k = [] →
    sectionName ∉ q.data ∧ sectionName ∉ q.allLines
  others : ∀ name, name ≠ sectionName →
    q.data[name]? = p.data[name]? ∧ q.allLines[name]? = p.allLines[name]?

/-- `removeEntry` of an entry whose INDEX is the position of a line. -/
theorem removeEntry_erasesLine {p : IniParser} {sectionName entry : Bytes} {t : Entry}
    (ht : (p.data.vector sectionName)[p.entryPosition sectionName entry]? = some t)
    (hrange : t.index < (p.allLines.vector sectionName).length) :
    ∃ q, p.removeEntry sectionName entry = .ok q ∧
      ErasesLine p q sectionName (p.entryPosition sectionName entry) t.index := by
  rw [removeEntry_eq, IniParser.eraseEntry, ht]
  simp only [IniParser.eraseAt, if_pos hrange, Run.ok_bind, VectorMap.vector_insert, if_true]
  split
  · next hempty =>
    refine ⟨_, rfl, hrange, ?_, fun hne => absurd hempty hne, fun _ => ?_, fun name hname => ?_⟩
    · rw [VectorMap.vector_erase, if_pos rfl, hempty]
    · simp
    · rw [VectorMap.getElem?_erase, VectorMap.getElem?_erase, if_neg (Ne.symm hname),
        if_neg (Ne.symm hname), VectorMap.getElem?_insert, VectorMap.getElem?_insert,
        if_neg (Ne.symm hname), if_neg (Ne.symm hname)]
      exact ⟨rfl, rfl⟩
  · next hrest =>
    refine ⟨_, rfl, hrange, ?_, fun _ => ?_, fun hempty => absurd hempty hrest,
      fun name hname => ?_⟩
    · rw [VectorMap.vector_insert, if_pos rfl]
    · rw [VectorMap.vector_insert, if_pos rfl]
    · rw [VectorMap.getElem?_insert, VectorMap.getElem?_insert, if_neg (Ne.symm hname),
        if_neg (Ne.symm hname)]
      exact ⟨rfl, rfl⟩

/-- `removeEntry` is defined, and it erases the own line of the entry that it
removes. -/
theorem Consistent.removeEntry_defined {p : IniParser} {own : OwnLines} (h : Consistent p own)
    (sectionName entry : Bytes) :
    ∃ q, p.removeEntry sectionName entry = .ok q ∧
      ∀ t, (p.data.vector sectionName)[p.entryPosition sectionName entry]? = some t →
        t.field = entry ∧
        (own sectionName)[p.entryPosition sectionName entry]? = some (some t.index) ∧
        ErasesLine p q sectionName (p.entryPosition sectionName entry) t.index := by
  cases ht : (p.data.vector sectionName)[p.entryPosition sectionName entry]? with
  | none =>
    rw [removeEntry_eq, IniParser.eraseEntry, ht]
    simp only [Run.ok_bind]
    split
    · exact ⟨_, rfl, fun t ht => by cases ht⟩
    · exact ⟨_, rfl, fun t ht => by cases ht⟩
  | some t =>
    have hrange := (h sectionName).in_range t (List.mem_of_getElem? ht)
    obtain ⟨q, hcall, herases⟩ := removeEntry_erasesLine ht hrange
    refine ⟨q, hcall, fun t' ht' => ?_⟩
    obtain rfl := Option.some.inj ht'
    obtain ⟨hlt, hget⟩ := List.getElem?_eq_some_iff.mp ht
    have hmatch := List.findIdx_getElem (w := hlt)
    rw [decide_eq_true_eq] at hmatch
    refine ⟨?_, (h sectionName).own_getElem? ht, herases⟩
    rw [← hget]
    exact hmatch.2

theorem eq_concat_of_getElem? {α : Type} {xs : List α} {k : Nat} {x : α} (hx : xs[k]? = some x)
    (hlast : xs.length ≤ k + 1) : ∃ front, xs = front ++ [x] ∧ xs.eraseIdx k = front := by
  obtain ⟨hk, hget⟩ := List.getElem?_eq_some_iff.mp hx
  have hsplit : xs = xs.take k ++ [x] := by
    conv_lhs => rw [← List.take_append_drop k xs, List.drop_eq_getElem_cons hk, hget,
      List.drop_eq_nil_of_le (by omega)]
  refine ⟨xs.take k, hsplit, ?_⟩
  rw [List.eraseIdx_eq_take_drop_succ, List.drop_eq_nil_of_le (by omega), List.append_nil]

/-- `removeEntry` keeps the line index when no entry stands behind the removed
one in its section. -/
theorem Consistent.removeEntry {p q : IniParser} {own : OwnLines} {sectionName entry : Bytes}
    (h : Consistent p own)
    (hlast : (p.data.vector sectionName).length ≤ p.entryPosition sectionName entry + 1)
    (hcall : p.removeEntry sectionName entry = .ok q) :
    Consistent q ((Op.removeEntry sectionName entry).ownLines p own) := by
  rw [removeEntry_eq, Run.bind_eq_ok_iff] at hcall
  obtain ⟨r, hr, hq⟩ := hcall
  have hconsistent : Consistent r ((Op.removeEntry sectionName entry).ownLines p own) := by
    obtain ⟨hnone, rfl⟩ | ⟨t, ht, -, rfl⟩ := eraseEntry_cases hr
    · simp only [Op.ownLines, hnone]
      intro query
      rw [VectorMap.vector_touch]
      exact h query
    · obtain ⟨front, hfront, herase⟩ := eq_concat_of_getElem? ht hlast
      have hlength : p.entryPosition sectionName entry = front.length := by
        have hlt := (List.getElem?_eq_some_iff.mp ht).1
        rw [hfront, List.length_append, List.length_singleton] at hlast hlt
        omega
      simp only [Op.ownLines, ht]
      intro query
      rw [VectorMap.vector_insert, VectorMap.vector_insert]
      split
      · next heq =>
        have hindexed := h sectionName
        rw [hfront] at hindexed
        rw [herase, ← heq, Function.update_self, hlength]
        exact hindexed.eraseLast
      · next hne =>
        rw [Function.update_of_ne (Ne.symm hne)]
        exact h query
  split at hq
  · next hempty =>
    obtain rfl := Except.ok.inj hq
    exact hconsistent.erase hempty
  · obtain rfl := Except.ok.inj hq
    exact hconsistent

/-- A fresh parser, or one behind a successful `load`. -/
inductive Start : IniParser → Prop where
  | fresh : Start .fresh
  | loaded {p q : IniParser} {file : Option Bytes} (h : p.load file = (.SUCCESS, q)) : Start q

/-- The states reached from a start by defined calls that `allowed` admits. -/
def Reached (allowed : IniParser → Op → Prop) (p : IniParser) : Prop :=
  ∃ start, Start start ∧
    Relation.ReflTransGen (fun p q => ∃ op, allowed p op ∧ op.apply p = .ok q) start p

/-- The same runs, with the own lines of the entries followed along. -/
inductive Traced (allowed : IniParser → Op → Prop) : IniParser → OwnLines → Prop where
  | fresh : Traced allowed .fresh fun _ => []
  | loaded {p q : IniParser} {file : Option Bytes} (h : p.load file = (.SUCCESS, q)) :
    Traced allowed q q.loadedLines
  | call {p q : IniParser} {own : OwnLines} (h : Traced allowed p own) (op : Op)
      (hallowed : allowed p op) (hcall : op.apply p = .ok q) : Traced allowed q (op.ownLines p own)

/-- Every run can be followed. -/
theorem Reached.traced {allowed : IniParser → Op → Prop} {p : IniParser} (h : Reached allowed p) :
    ∃ own, Traced allowed p own := by
  obtain ⟨start, hstart, hsteps⟩ := h
  induction hsteps with
  | refl =>
    cases hstart with
    | fresh => exact ⟨_, .fresh⟩
    | loaded hload => exact ⟨_, .loaded hload⟩
  | tail _ hstep ih =>
    obtain ⟨own, htraced⟩ := ih
    obtain ⟨op, hallowed, hcall⟩ := hstep
    exact ⟨_, htraced.call op hallowed hcall⟩

/-- The calls on which the line index survives: `setValue` does not create a
section whose lines are there already, and `removeEntry` removes the last
entry of its section, if any. -/
def KeepsIndex (p : IniParser) : Op → Prop
  | .setValue sectionName _ _ => sectionName ∈ p.data ∨ sectionName ∉ p.allLines
  | .removeEntry sectionName entry =>
    (p.data.vector sectionName).length ≤ p.entryPosition sectionName entry + 1

theorem Consistent.loaded {before p : IniParser} {file : Option Bytes}
    (hload : before.load file = (.SUCCESS, p)) : Consistent p p.loadedLines := by
  cases file with
  | none => cases hload
  | some content =>
    have hwell := (load_success_iff before content).mp (by rw [hload])
    obtain ⟨q, hload', hholds⟩ := load_wellFormed before hwell
    obtain rfl : q = p := by
      rw [hload] at hload'
      exact (Prod.mk.inj hload').2.symm
    intro name
    rw [IniParser.loadedLines]
    by_cases hname : name ∈ (sections (content.splitOn newline)).map Prod.fst
    · obtain ⟨⟨name, lines⟩, hmem, rfl⟩ := List.mem_map.mp hname
      rw [hholds.data_vector hmem, hholds.allLines_vector hmem]
      exact Indexed.of_entriesOf name lines
    · have hlines : q.allLines.vector name = [] := by
        rw [← hholds.mem_allLines_iff, Std.ExtTreeMap.mem_iff_isSome_getElem?] at hname
        exact VectorMap.vector_of_none (Option.not_isSome_iff_eq_none.mp hname)
      rw [hholds.data_vector_of_not_mem hname, hlines]
      exact Indexed.nil _

/-- The line index is consistent in every run whose calls keep it. -/
theorem Traced.consistent {p : IniParser} {own : OwnLines} (h : Traced KeepsIndex p own) :
    Consistent p own := by
  induction h with
  | fresh => exact fun name => Indexed.nil _
  | loaded hload => exact .loaded hload
  | call _ op hkeeps hcall ih =>
    cases op with
    | setValue sectionName field value => exact ih.setValue hkeeps hcall
    | removeEntry sectionName entry => exact ih.removeEntry hkeeps hcall

/-- In every state that such calls reach, and however its run is followed, each
section's INDEX values increase, are positions of its lines, and each of them is
where the entry's own line stands: the line it was read from or the placeholder
that `setValue` gave it. `removeEntry` is then defined, and where it finds the
entry it erases exactly this line and this entry. -/
theorem lineIndex_consistent (p : IniParser) (h : Reached KeepsIndex p) :
    (∃ own, Traced KeepsIndex p own) ∧
      ∀ own, Traced KeepsIndex p own → Consistent p own ∧
        ∀ sectionName entry, ∃ q, p.removeEntry sectionName entry = .ok q ∧
          ∀ t, (p.data.vector sectionName)[p.entryPosition sectionName entry]? = some t →
            t.field = entry ∧
            (own sectionName)[p.entryPosition sectionName entry]? = some (some t.index) ∧
            ErasesLine p q sectionName (p.entryPosition sectionName entry) t.index := by
  refine ⟨h.traced, fun own htraced => ?_⟩
  have hconsistent := htraced.consistent
  exact ⟨hconsistent, hconsistent.removeEntry_defined⟩

/-- The file `[A]`, `a=1`, `b=2` -/
def twoEntries : Bytes := [91, 65, 93, 10, 97, 61, 49, 10, 98, 61, 50]

/-- A reachable state with a stale INDEX: after the first of two entries is
removed, the second still has INDEX 2, but only two lines are left. With a line
break at the end of the file line 2 is there and blank, and it is not the
entry's own. -/
theorem removeEntry_leaves_stale_index :
    (∃ q own, Traced (fun _ _ => True) q own ∧ ¬ Consistent q own ∧
      (q.data.vector [65]).map Entry.index = [2] ∧ (q.allLines.vector [65]).length = 2) ∧
    ∃ q own, Traced (fun _ _ => True) q own ∧ ¬ Consistent q own ∧
      (q.data.vector [65]).map Entry.index = [2] ∧
      (q.allLines.vector [65])[2]? = some [] ∧ own [65] = [some 1] := by
  constructor
  · have hstart : IniParser.fresh.load (some twoEntries) = (.SUCCESS, _) := rfl
    refine ⟨_, _, (Traced.loaded hstart).call (.removeEntry [65] [97]) trivial rfl, fun h => ?_,
      by decide, by decide⟩
    exact absurd ((h [65]).in_range ⟨[65], [98], 2, [50]⟩ (by decide)) (by decide)
  · have hstart : IniParser.fresh.load (some (twoEntries ++ [10])) = (.SUCCESS, _) := rfl
    refine ⟨_, _, (Traced.loaded hstart).call (.removeEntry [65] [97]) trivial rfl, fun h => ?_,
      by decide, by decide, by decide⟩
    exact absurd (h [65]).own_line (by decide)

/-- Removing the last entry of the file and setting it again: the new entry
stands on the line that `setValue` appended, and this line goes with it. -/
theorem lineIndex_consistent_last :
    ∃ q, IniParser.fresh.load (some twoEntries) = (.SUCCESS, q) ∧
      ∃ r, q.removeEntry [65] [98] = .ok r ∧ ∃ s, r.setValue [65] [98] [51] = .ok s ∧
        ∃ own, own [65] = [some 1, some 2] ∧ Consistent s own ∧
          ∃ u, s.removeEntry [65] [98] = .ok u ∧ ErasesLine s u [65] 1 2 := by
  have hstart : IniParser.fresh.load (some twoEntries) = (.SUCCESS, _) := rfl
  have hfirst : KeepsIndex (IniParser.fresh.load (some twoEntries)).2 (.removeEntry [65] [98]) := by
    unfold KeepsIndex
    decide
  have hremoved : (IniParser.fresh.load (some twoEntries)).2.removeEntry [65] [98] = .ok _ := rfl
  refine ⟨_, hstart, _, hremoved, _, rfl, ?_⟩
  have hreached : Reached KeepsIndex _ := ⟨_, .loaded hstart,
    (Relation.ReflTransGen.single ⟨_, hfirst, hremoved⟩).tail
      ⟨.setValue [65] [98] [51], by unfold KeepsIndex; decide, rfl⟩⟩
  have htraced : Traced KeepsIndex _ _ := ((Traced.loaded hstart).call _ hfirst hremoved).call
    (.setValue [65] [98] [51]) (by unfold KeepsIndex; decide) rfl
  obtain ⟨hconsistent, hremoves⟩ := (lineIndex_consistent _ hreached).2 _ htraced
  obtain ⟨u, hcall, herases⟩ := hremoves [65] [98]
  have hentry := herases ⟨[65], [98], 2, [51]⟩ rfl
  exact ⟨_, by decide, hconsistent, u, hcall, hentry.2.2⟩

end clockUtils.iniParser
