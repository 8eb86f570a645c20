import ClockUtils.IniParser.RemoveMissing
import ClockUtils.Lib.OrderedDict
import Mathlib.Data.List.InsertIdx
import Mathlib.Data.Nat.Find
import Mathlib.Data.Set.Insert

namespace clockUtils.iniParser

/-- Sections by their names, and in each one values by their fields. -/
structure Contents where
  sections : Set Bytes
  fields : Bytes → OrderedDict Bytes Bytes

/-- The entry lines of a section with their fields and values. -/
def entryPairs (body : List Bytes) : List (Bytes × Bytes) :=
  (body.filter isEntryLine).map fun line => (lineKey line, lineValue line)

open Classical in
/-- The lines from the beginning of a file that are well formed together. -/
noncomputable def readable (lines : List Bytes) : List Bytes :=
  lines.take (Nat.findGreatest (fun n => WellFormed (lines.take n)) lines.length)

namespace Contents

def empty : Contents where
  sections := ∅
  fields _ := .empty

/-- What stands in the lines of a file. -/
def ofLines (lines : List Bytes) : Contents where
  sections := { name | name ∈ (iniParser.sections lines).map Prod.fst }
  fields name :=
    match (iniParser.sections lines).find? fun fileSection => fileSection.1 = name with
    | none => .empty
    | some fileSection => .ofPairs (entryPairs fileSection.2)

def setValue (c : Contents) (sectionName field value : Bytes) : Contents where
  sections := insert sectionName c.sections
  fields := Function.update c.fields sectionName ((c.fields sectionName).set field value)

/-- A section goes with its last field. -/
def removeEntry (c : Contents) (sectionName entry : Bytes) : Contents where
  sections :=
    if (c.fields sectionName).keys = [entry] then c.sections \ {sectionName} else c.sections
  fields := Function.update c.fields sectionName ((c.fields sectionName).remove entry)

end Contents

/-- What a program does with a parser. -/
inductive Call where
  | load (file : Option Bytes)
  | save (opened : Bool)
  | setValue (sectionName field value : Bytes)
  | removeEntry (sectionName entry : Bytes)

namespace IniParser

def call (p : IniParser) : Call → Run IniParser
  | .load file => .ok (p.load file).2
  | .save opened => .ok (p.save opened).2.2
  | .setValue sectionName field value => p.setValue sectionName field value
  | .removeEntry sectionName entry => p.removeEntry sectionName entry

/-- Some calls one after the other, as long as they are defined. -/
def calls (p : IniParser) : List Call → Run IniParser
  | [] => .ok p
  | first :: rest => p.call first >>= fun q => q.calls rest

end IniParser

namespace Contents

noncomputable def call (c : Contents) : Call → Contents
  | .load none => c
  | .load (some content) => ofLines (readable (content.splitOn newline))
  | .save _ => c
  | .setValue sectionName field value => c.setValue sectionName field value
  | .removeEntry sectionName entry => c.removeEntry sectionName entry

/-- The call is not a `removeEntry` in a section that is there without fields,
which the parser answers by dropping the section. -/
def SparesSections (c : Contents) : Call → Prop
  | .removeEntry sectionName _ => sectionName ∈ c.sections → (c.fields sectionName).keys ≠ []
  | _ => True

/-- Every one of the calls is so, in the contents that it finds. -/
def AllSpareSections (c : Contents) : List Call → Prop
  | [] => True
  | first :: rest => c.SparesSections first ∧ (c.call first).AllSpareSections rest

end Contents

/-- The parser has these fields. -/
structure Represents (p : IniParser) (c : Contents) : Prop where
  sectionName_eq : ∀ name, ∀ t ∈ p.data.vector name, t.sectionName = name
  pairs_eq : ∀ name,
    (p.data.vector name).map (fun t => (t.field, t.value)) = (c.fields name).pairs
  listed : ∀ name, p.data.vector name ≠ [] → name ∈ p.allLines

/-- The parser has these sections. -/
def Lists (p : IniParser) (c : Contents) : Prop :=
  ∀ name, name ∈ p.allLines ↔ name ∈ c.sections

section Reading

variable {p : IniParser} {c : Contents} (h : Represents p c)

include h

theorem Represents.keys_eq (name : Bytes) : p.getAllEntries name = (c.fields name).keys := by
  rw [getAllEntries_eq, OrderedDict.keys, ← h.pairs_eq, List.map_map]
  rfl

theorem Represents.matches_iff {name : Bytes} {t : Entry} (ht : t ∈ p.data.vector name)
    (field : Bytes) : t.Matches name field ↔ t.field = field :=
  and_iff_right (h.sectionName_eq name t ht)

theorem Represents.firstValue_eq (sectionName field : Bytes) :
    firstValue sectionName field (p.data.vector sectionName) =
      (c.fields sectionName).get? field := by
  rw [firstValue, OrderedDict.get?, ← h.pairs_eq, List.find?_map, Option.map_map,
    ← List.head?_filter, ← List.head?_filter, List.filter_congr fun t ht =>
      decide_eq_decide.mpr (h.matches_iff ht field)]
  rfl

theorem Represents.getValue_eq (sectionName field : Bytes) :
    p.getValue sectionName field =
      match (c.fields sectionName).get? field with
      | none => (.VALUE_NOTFOUND, [])
      | some value => (.SUCCESS, value) := by
  have hvalue := getValue_eq_firstValue p sectionName field
  rw [h.firstValue_eq] at hvalue
  exact hvalue

theorem Represents.mem_keys_iff (name field : Bytes) :
    field ∈ (c.fields name).pairs.map Prod.fst ↔
      ∃ t ∈ p.data.vector name, t.Matches name field := by
  rw [← h.pairs_eq, List.map_map, List.mem_map]
  exact exists_congr fun t => and_congr_right fun ht => (h.matches_iff ht field).symm

end Reading

theorem map_assign_pairs {sectionName field : Bytes} (value : Bytes) {entries : List Entry}
    (hname : ∀ t ∈ entries, t.sectionName = sectionName)
    (hmem : ∃ t ∈ entries, t.Matches sectionName field) :
    (IniParser.assign sectionName field value entries).map (fun t => (t.field, t.value)) =
      OrderedDict.put field value (entries.map fun t => (t.field, t.value)) := by
  induction entries with
  | nil =>
    obtain ⟨t, ht, -⟩ := hmem
    cases ht
  | cons t entries ih =>
    rw [List.forall_mem_cons] at hname
    have hmatch : t.Matches sectionName field ↔ t.field = field := and_iff_right hname.1
    rw [IniParser.assign, List.map_cons, OrderedDict.put]
    by_cases hfield : t.field = field
    · rw [if_pos (hmatch.mpr hfield), if_pos hfield, List.map_cons, hfield]
    · rw [if_neg (mt hmatch.mp hfield), if_neg hfield, List.map_cons]
      rw [List.exists_mem_cons_iff] at hmem
      rw [ih hname.2 (hmem.resolve_left (mt hmatch.mp hfield))]

theorem findIdx_matches {sectionName : Bytes} {entries : List Entry}
    (hname : ∀ t ∈ entries, t.sectionName = sectionName) (field : Bytes) :
    entries.findIdx (fun t => t.Matches sectionName field) =
      entries.findIdx fun t => t.field = field := by
  induction entries with
  | nil => rfl
  | cons t entries ih =>
    rw [List.forall_mem_cons] at hname
    have hmatch : t.Matches sectionName field ↔ t.field = field := and_iff_right hname.1
    rw [List.findIdx_cons, List.findIdx_cons, ih hname.2, decide_eq_decide.mpr hmatch]

theorem mem_insert_iff_of_mem {map : VectorMap Bytes Bytes} {name : Bytes} (h : name ∈ map)
    (lines : List Bytes) (query : Bytes) : query ∈ map.insert name lines ↔ query ∈ map := by
  rw [Std.ExtTreeMap.mem_insert, Std.LawfulEqCmp.compare_eq_iff_eq]
  constructor
  · rintro (rfl | hmem)
    · exact h
    · exact hmem
  · exact .inr

theorem mem_erase_iff {map : VectorMap Bytes Bytes} {name query : Bytes} :
    query ∈ map.erase name ↔ query ≠ name ∧ query ∈ map := by
  rw [Std.ExtTreeMap.mem_erase, Ne, Std.LawfulEqCmp.compare_eq_iff_eq, eq_comm]

section Changing

variable {p q : IniParser} {c : Contents} (h : Represents p c)

include h

/-- A change of one section. -/
theorem Represents.update {name : Bytes} {dict : OrderedDict Bytes Bytes} {names : Set Bytes}
    (hother : ∀ query, query ≠ name → q.data.vector query = p.data.vector query)
    (hname : ∀ t ∈ q.data.vector name, t.sectionName = name)
    (hpairs : (q.data.vector name).map (fun t => (t.field, t.value)) = dict.pairs)
    (hlisted : ∀ query, q.data.vector query ≠ [] → query ∈ q.allLines) :
    Represents q ⟨names, Function.update c.fields name dict⟩ := by
  refine ⟨fun query t ht => ?_, fun query => ?_, hlisted⟩
  · by_cases hquery : query = name
    · subst hquery
      exact hname t ht
    · rw [hother query hquery] at ht
      exact h.sectionName_eq query t ht
  · by_cases hquery : query = name
    · subst hquery
      dsimp only
      rw [Function.update_self, hpairs]
    · dsimp only
      rw [Function.update_of_ne hquery, hother query hquery, h.pairs_eq]

theorem Represents.append {r : IniParser} (hdata : r.data = p.data)
    (hlines : ∀ query ∈ p.allLines, query ∈ r.allLines) {sectionName field : Bytes}
    (hnew : ∀ t ∈ p.data.vector sectionName, ¬ t.Matches sectionName field) (index : Nat)
    (value : Bytes) :
    Represents (r.appendEntry sectionName ⟨sectionName, field, index, value⟩)
      (c.setValue sectionName field value) := by
  have hvector : ∀ query,
      (r.appendEntry sectionName ⟨sectionName, field, index, value⟩).data.vector query =
        if sectionName = query then p.data.vector sectionName ++ [⟨sectionName, field, index, value⟩]
        else p.data.vector query := by
    intro query
    rw [← hdata]
    exact vector_pushEntry r sectionName _ query
  refine h.update (fun query hquery => ?_) (fun t ht => ?_) ?_ fun query hne => ?_
  · rw [hvector, if_neg (Ne.symm hquery)]
  · rw [hvector, if_pos rfl, List.mem_append, List.mem_singleton] at ht
    rcases ht with ht | rfl
    · exact h.sectionName_eq sectionName t ht
    · rfl
  · have hfresh : field ∉ (c.fields sectionName).pairs.map Prod.fst := by
      rw [h.mem_keys_iff]
      rintro ⟨t, ht, hmatch⟩
      exact hnew t ht hmatch
    rw [hvector, if_pos rfl, List.map_append, h.pairs_eq]
    exact (OrderedDict.put_of_not_mem value hfresh).symm
  · apply (VectorMap.mem_push_iff r.allLines sectionName query []).mpr
    by_cases hquery : query = sectionName
    · exact .inl hquery
    · rw [hvector, if_neg (Ne.symm hquery)] at hne
      exact .inr (hlines query (h.listed query hne))

theorem Represents.setValue {sectionName field value : Bytes}
    (hcall : p.setValue sectionName field value = .ok q) :
    Represents q (c.setValue sectionName field value) := by
  rcases setValue_cases hcall with ⟨hnone, rfl⟩ | ⟨entries, hsome, hold, rfl⟩ |
    ⟨entries, index, hsome, hnew, -, rfl⟩
  · refine h.append (r := p.pushLine sectionName _) rfl (fun query hquery => ?_) ?_ 1 value
    · exact (VectorMap.mem_push_iff p.allLines sectionName query _).mpr (.inr hquery)
    · rw [VectorMap.vector_of_none hnone]
      simp
  · have hvector := VectorMap.vector_of_some hsome
    rw [← hvector] at hold ⊢
    have hassigned : ∀ query, VectorMap.vector (p.data.insert sectionName
        (IniParser.assign sectionName field value (p.data.vector sectionName))) query =
          if sectionName = query then
            IniParser.assign sectionName field value (p.data.vector sectionName)
          else p.data.vector query :=
      fun query => VectorMap.vector_insert _ _ _ _
    have hlisted : sectionName ∈ p.allLines := by
      obtain ⟨t, ht, -⟩ := hold
      exact h.listed sectionName (List.ne_nil_of_mem ht)
    refine h.update (fun query hquery => ?_) (fun t ht => ?_) ?_ fun query hne => ?_
    · rw [hassigned, if_neg (Ne.symm hquery)]
    · rw [hassigned, if_pos rfl] at ht
      have hsame := map_assign Entry.sectionName (fun _ _ => rfl) sectionName field value
        (p.data.vector sectionName)
      have hmem : t.sectionName ∈ (p.data.vector sectionName).map Entry.sectionName :=
        hsame ▸ List.mem_map_of_mem ht
      obtain ⟨t', ht', heq⟩ := List.mem_map.mp hmem
      exact heq.symm.trans (h.sectionName_eq sectionName t' ht')
    · rw [hassigned, if_pos rfl, map_assign_pairs value (h.sectionName_eq sectionName) hold,
        h.pairs_eq]
      rfl
    · by_cases hquery : query = sectionName
      · rw [hquery]
        exact hlisted
      · rw [hassigned, if_neg (Ne.symm hquery)] at hne
        exact h.listed query hne
  · refine h.append rfl (fun query hquery => hquery) ?_ index value
    rw [VectorMap.vector_of_some hsome]
    exact hnew

/-- What `removeEntry` leaves of the entries, before it looks whether there are any. -/
theorem Represents.eraseEntry {sectionName entry : Bytes}
    (hcall : p.eraseEntry sectionName entry = .ok q) :
    Represents q (c.removeEntry sectionName entry) := by
  have hposition : p.entryPosition sectionName entry =
      (c.fields sectionName).pairs.findIdx fun pair => pair.1 = entry := by
    rw [IniParser.entryPosition, ← h.pairs_eq, List.findIdx_map]
    exact findIdx_matches (h.sectionName_eq sectionName) entry
  have hpairs : ((p.data.vector sectionName).eraseIdx (p.entryPosition sectionName entry)).map
      (fun t => (t.field, t.value)) = ((c.fields sectionName).remove entry).pairs := by
    rw [← List.eraseIdx_map, h.pairs_eq, hposition,
      OrderedDict.eraseIdx_findIdx (c.fields sectionName).nodup]
    rfl
  obtain ⟨hnone, rfl⟩ | ⟨t, ht, -, rfl⟩ := eraseEntry_cases hcall
  · rw [List.eraseIdx_of_length_le (List.getElem?_eq_none_iff.mp hnone)] at hpairs
    refine h.update (fun query _ => VectorMap.vector_touch ..) (fun t ht => ?_) ?_
      fun query hne => ?_
    · rw [VectorMap.vector_touch] at ht
      exact h.sectionName_eq sectionName t ht
    · rw [VectorMap.vector_touch]
      exact hpairs
    · rw [VectorMap.vector_touch] at hne
      exact h.listed query hne
  · have hlisted := h.listed sectionName (List.ne_nil_of_mem (List.mem_of_getElem? ht))
    refine h.update (fun query hquery => ?_) (fun t' ht' => ?_) ?_ fun query hne => ?_
    · rw [VectorMap.vector_insert, if_neg (Ne.symm hquery)]
    · rw [VectorMap.vector_insert, if_pos rfl] at ht'
      exact h.sectionName_eq sectionName t' (List.mem_of_mem_eraseIdx ht')
    · rw [VectorMap.vector_insert, if_pos rfl]
      exact hpairs
    · rw [mem_insert_iff_of_mem hlisted]
      by_cases hquery : query = sectionName
      · rw [hquery]
        exact hlisted
      · rw [VectorMap.vector_insert, if_neg (Ne.symm hquery)] at hne
        exact h.listed query hne

theorem Represents.removeEntry {sectionName entry : Bytes}
    (hcall : p.removeEntry sectionName entry = .ok q) :
    Represents q (c.removeEntry sectionName entry) := by
  rw [removeEntry_eq, Run.bind_eq_ok_iff] at hcall
  obtain ⟨r, hr, hq⟩ := hcall
  have hr := h.eraseEntry hr
  split at hq
  · next hnone =>
    obtain rfl := Except.ok.inj hq
    have hvector : ∀ query, VectorMap.vector (r.data.erase sectionName) query =
        r.data.vector query := by
      intro query
      rw [VectorMap.vector_erase]
      split
      · next heq => rw [← heq, hnone]
      · rfl
    refine ⟨fun name t ht => ?_, fun name => ?_, fun name hne => ?_⟩
    · rw [hvector] at ht
      exact hr.sectionName_eq name t ht
    · rw [hvector]
      exact hr.pairs_eq name
    · rw [hvector] at hne
      rw [mem_erase_iff]
      refine ⟨?_, hr.listed name hne⟩
      rintro rfl
      exact hne hnone
  · obtain rfl := Except.ok.inj hq
    exact hr

/-- An empty vector in `_data` changes nothing. -/
theorem Represents.of_vectors (hlines : q.allLines = p.allLines)
    (hdata : ∀ name, q.data.vector name = p.data.vector name) : Represents q c := by
  refine ⟨fun name t ht => ?_, fun name => ?_, fun name hne => ?_⟩
  · rw [hdata] at ht
    exact h.sectionName_eq name t ht
  · rw [hdata]
    exact h.pairs_eq name
  · rw [hdata] at hne
    rw [hlines]
    exact h.listed name hne

theorem Represents.save (opened : Bool) : Represents (p.save opened).2.2 c :=
  h.of_vectors rfl fun name => vector_touchSections p.data p.allLines.toList name

theorem Lists.setValue (hlists : Lists p c) {sectionName field value : Bytes}
    (hcall : p.setValue sectionName field value = .ok q) :
    Lists q (c.setValue sectionName field value) := by
  intro query
  unfold Contents.setValue
  rw [Set.mem_insert_iff, ← hlists query]
  rcases setValue_cases hcall with ⟨-, rfl⟩ | ⟨entries, hsome, ⟨t, ht, -⟩, rfl⟩ |
    ⟨entries, index, -, -, -, rfl⟩
  · change query ∈ (p.allLines.push sectionName _).push sectionName _ ↔ _
    rw [VectorMap.mem_push_iff, VectorMap.mem_push_iff, ← or_assoc, or_self]
  · have hlisted : sectionName ∈ p.allLines := by
      apply h.listed
      rw [VectorMap.vector_of_some hsome]
      exact List.ne_nil_of_mem ht
    constructor
    · exact .inr
    · rintro (rfl | hmem)
      · exact hlisted
      · exact hmem
  · exact VectorMap.mem_push_iff p.allLines sectionName query []

/-- The entries that `removeEntry` leaves in the section. -/
theorem Represents.removed_eq_nil_iff {sectionName entry : Bytes}
    (hcall : p.eraseEntry sectionName entry = .ok q) (hne : (c.fields sectionName).keys ≠ []) :
    q.data.vector sectionName = [] ↔ (c.fields sectionName).keys = [entry] := by
  have hkeys := (h.eraseEntry hcall).keys_eq sectionName
  unfold Contents.removeEntry at hkeys
  dsimp only at hkeys
  rw [Function.update_self, getAllEntries_eq] at hkeys
  rw [← List.map_eq_nil_iff, hkeys]
  exact OrderedDict.keys_remove_eq_nil_iff hne

/-- No section goes or comes with an entry alone. -/
theorem Represents.mem_eraseEntry_iff {sectionName entry : Bytes}
    (hcall : p.eraseEntry sectionName entry = .ok q) (query : Bytes) :
    query ∈ q.allLines ↔ query ∈ p.allLines := by
  obtain ⟨-, rfl⟩ | ⟨t, ht, -, rfl⟩ := eraseEntry_cases hcall
  · rfl
  · have hlisted := h.listed sectionName (List.ne_nil_of_mem (List.mem_of_getElem? ht))
    exact mem_insert_iff_of_mem hlisted _ query

theorem Lists.removeEntry (hlists : Lists p c) {sectionName entry : Bytes}
    (hspares : sectionName ∈ c.sections → (c.fields sectionName).keys ≠ [])
    (hcall : p.removeEntry sectionName entry = .ok q) :
    Lists q (c.removeEntry sectionName entry) := by
  rw [removeEntry_eq, Run.bind_eq_ok_iff] at hcall
  obtain ⟨r, hr, hq⟩ := hcall
  have hlines : ∀ query, query ∈ r.allLines ↔ query ∈ c.sections := fun query =>
    (h.mem_eraseEntry_iff hr query).trans (hlists query)
  intro query
  unfold Contents.removeEntry
  by_cases hlisted : sectionName ∈ c.sections
  · have hempty := h.removed_eq_nil_iff hr (hspares hlisted)
    split at hq
    · next hnil =>
      obtain rfl := Except.ok.inj hq
      rw [if_pos (hempty.mp hnil), mem_erase_iff, hlines, and_comm]
      rfl
    · next hrest =>
      obtain rfl := Except.ok.inj hq
      rw [if_neg (mt hempty.mpr hrest), hlines]
  · have hgone : query ∈ c.sections ↔ query ≠ sectionName ∧ query ∈ c.sections := by
      constructor
      · intro hmem
        refine ⟨?_, hmem⟩
        rintro rfl
        exact hlisted hmem
      · exact And.right
    have hfields : (c.fields sectionName).keys ≠ [entry] := by
      intro hkeys
      rw [← h.keys_eq, getAllEntries_eq] at hkeys
      apply hlisted
      rw [← hlists sectionName]
      apply h.listed
      intro hnil
      rw [hnil] at hkeys
      cases hkeys
    rw [if_neg hfields]
    split at hq
    · obtain rfl := Except.ok.inj hq
      rw [mem_erase_iff, hlines, ← hgone]
    · obtain rfl := Except.ok.inj hq
      exact hlines query

end Changing

theorem loadLine_error {p q : IniParser} {name line : Bytes}
    (h : p.loadLine name line = .error q) :
    q.allLines = p.allLines ∧ ∀ query, q.data.vector query = p.data.vector query := by
  unfold IniParser.loadLine at h
  split at h
  · cases h
  · split at h
    · unfold IniParser.loadSectionLine at h
      split at h
      · obtain rfl := Except.error.inj h
        exact ⟨rfl, fun _ => rfl⟩
      · simp only at h
        split at h
        · obtain rfl := Except.error.inj h
          exact ⟨rfl, fun _ => rfl⟩
        · cases h
    · unfold IniParser.loadEntryLine at h
      split at h
      · obtain rfl := Except.error.inj h
        exact ⟨rfl, fun _ => rfl⟩
      · simp only at h
        split at h
        · obtain rfl := Except.error.inj h
          exact ⟨rfl, fun query => VectorMap.vector_touch ..⟩
        · cases h

/-- A load that stops at a line has read the lines before it. -/
theorem loadLines_error {p q : IniParser} {name : Bytes} {lines : List Bytes}
    (h : p.loadLines name lines = .error q) :
    ∃ before line rest r, lines = before ++ line :: rest ∧ p.loadLines name before = .ok r ∧
      (∃ stopped, p.loadLines name (before ++ [line]) = .error stopped) ∧
      q.allLines = r.allLines ∧ ∀ query, q.data.vector query = r.data.vector query := by
  induction lines generalizing p name with
  | nil => cases h
  | cons line lines ih =>
    cases hline : p.loadLine name line with
    | error stopped =>
      rw [loadLines_cons_error lines hline] at h
      obtain rfl := Except.error.inj h
      obtain ⟨hlines, hdata⟩ := loadLine_error hline
      exact ⟨[], line, lines, p, rfl, rfl, ⟨_, loadLines_cons_error [] hline⟩, hlines, hdata⟩
    | ok next =>
      rw [loadLines_cons lines hline] at h
      obtain ⟨before, bad, rest, r, rfl, hbefore, ⟨stopped, hbad⟩, hsame⟩ := ih h
      refine ⟨line :: before, bad, rest, r, rfl, ?_, ⟨stopped, ?_⟩, hsame⟩
      · rw [loadLines_cons before hline]
        exact hbefore
      · rw [List.cons_append, loadLines_cons (before ++ [bad]) hline]
        exact hbad

theorem loadLines_append {p q : IniParser} {name : Bytes} {lines more : List Bytes}
    (h : p.loadLines name (lines ++ more) = .ok q) : ∃ r, p.loadLines name lines = .ok r := by
  induction lines generalizing p name with
  | nil => exact ⟨p, rfl⟩
  | cons line lines ih =>
    cases hline : p.loadLine name line with
    | error stopped =>
      rw [List.cons_append, loadLines_cons_error _ hline] at h
      cases h
    | ok next =>
      rw [List.cons_append, loadLines_cons _ hline] at h
      rw [loadLines_cons _ hline]
      exact ih h

theorem loadLines_ok_iff (lines : List Bytes) :
    (∃ q, IniParser.reset.loadLines globalName lines = .ok q) ↔ WellFormed lines := by
  rw [← acceptable_iff_wellFormed]
  constructor
  · rintro ⟨q, hq⟩
    by_contra hnot
    obtain ⟨r, hr⟩ := (loadLines_reset lines).2 hnot
    rw [hq] at hr
    cases hr
  · intro h
    obtain ⟨q, hq, -⟩ := (loadLines_reset lines).1 h
    exact ⟨q, hq⟩

theorem WellFormed.of_append {lines more : List Bytes} (h : WellFormed (lines ++ more)) :
    WellFormed lines := by
  obtain ⟨q, hq⟩ := (loadLines_ok_iff _).mpr h
  exact (loadLines_ok_iff _).mp (loadLines_append hq)

theorem readable_of_wellFormed {lines : List Bytes} (h : WellFormed lines) :
    readable lines = lines := by
  classical
  have hall : Nat.findGreatest (fun n => WellFormed (lines.take n)) lines.length = lines.length := by
    rw [Nat.findGreatest_eq_iff]
    refine ⟨Nat.le_refl _, fun _ => ?_, fun n hlt hle => absurd hle (by omega)⟩
    rw [List.take_length]
    exact h
  unfold readable
  convert List.take_length using 2

theorem readable_of_stop {before rest : List Bytes} {line : Bytes} (h : WellFormed before)
    (hstop : ¬ WellFormed (before ++ [line])) : readable (before ++ line :: rest) = before := by
  classical
  have hlength : Nat.findGreatest (fun n => WellFormed ((before ++ line :: rest).take n))
      (before ++ line :: rest).length = before.length := by
    rw [Nat.findGreatest_eq_iff]
    refine ⟨by simp, fun _ => ?_, fun n hlt _ hwell => hstop ?_⟩
    · rw [List.take_left]
      exact h
    · obtain ⟨m, rfl⟩ : ∃ m, n = before.length + (m + 1) := ⟨n - before.length - 1, by omega⟩
      rw [List.take_length_add_append, List.take_succ_cons, List.append_cons] at hwell
      exact hwell.of_append
  unfold readable
  rw [show Nat.findGreatest _ _ = before.length from hlength, List.take_left]

theorem map_pair_entriesOf (name : Bytes) (lines : List Bytes) :
    (entriesOf name lines).map (fun t => (t.field, t.value)) = entryPairs lines := by
  induction lines using List.reverseRecOn with
  | nil => rfl
  | append_singleton lines line ih =>
    rw [entriesOf_append, List.map_append, ih, entryPairs, entryPairs, List.filter_append]
    by_cases h : isEntryLine line <;> simp [h]

theorem Represents.of_holds {q : IniParser} {lines : List Bytes} (h : Holds q (sections lines))
    (hwell : WellFormed lines) : Represents q (.ofLines lines) := by
  have hfields : ∀ name, (q.data.vector name = [] ∧ (Contents.ofLines lines).fields name = .empty) ∨
      ∃ body, (name, body) ∈ sections lines ∧ q.data.vector name = entriesOf name body ∧
        (Contents.ofLines lines).fields name = .ofPairs (entryPairs body) := by
    intro name
    unfold Contents.ofLines
    dsimp only
    cases hfind : (sections lines).find? fun fileSection => fileSection.1 = name with
    | none =>
      refine .inl ⟨h.data_vector_of_not_mem fun hmem => ?_, rfl⟩
      obtain ⟨fileSection, hsection, hname⟩ := List.mem_map.mp hmem
      have hnot := List.find?_eq_none.mp hfind fileSection hsection
      exact hnot (decide_eq_true hname)
    | some fileSection =>
      obtain ⟨name', body⟩ := fileSection
      have hmem := List.mem_of_find?_eq_some hfind
      obtain rfl : name' = name := by simpa using List.find?_some hfind
      exact .inr ⟨body, hmem, h.data_vector hmem, rfl⟩
  refine ⟨fun name t ht => ?_, fun name => ?_, fun name hne => ?_⟩
  · rcases hfields name with ⟨hnone, -⟩ | ⟨body, -, hvector, -⟩
    · rw [hnone] at ht
      cases ht
    · rw [hvector] at ht
      exact (mem_entriesOf_iff.mp ht).1
  · rcases hfields name with ⟨hnone, hempty⟩ | ⟨body, hmem, hvector, hbody⟩
    · rw [hnone, hempty]
      rfl
    · have hkeys : ((entryPairs body).map Prod.fst).Nodup := by
        rw [entryPairs, List.map_map]
        exact hwell.keys_nodup _ hmem
      rw [hvector, hbody, map_pair_entriesOf, OrderedDict.pairs_ofPairs hkeys]
  · rw [h.mem_allLines_iff]
    by_contra hnot
    exact hne (h.data_vector_of_not_mem hnot)

theorem load_represents (p : IniParser) (content : Bytes) :
    Represents (p.load (some content)).2 (.ofLines (readable (content.splitOn newline))) ∧
      Lists (p.load (some content)).2 (.ofLines (readable (content.splitOn newline))) := by
  have hread : ∀ {lines q}, IniParser.reset.loadLines globalName lines = .ok q →
      WellFormed lines ∧ Represents q (.ofLines lines) ∧ Lists q (.ofLines lines) := by
    intro lines q hload
    have hwell := (loadLines_ok_iff _).mp ⟨q, hload⟩
    obtain ⟨r, hr, hholds⟩ := (loadLines_reset _).1 ((acceptable_iff_wellFormed _).mpr hwell)
    obtain rfl := Except.ok.inj (hload.symm.trans hr)
    exact ⟨hwell, .of_holds hholds hwell, hholds.mem_allLines_iff⟩
  cases hload : IniParser.reset.loadLines globalName (content.splitOn newline) with
  | ok q =>
    obtain ⟨hwell, hq⟩ := hread hload
    rw [readable_of_wellFormed hwell, IniParser.load, hload]
    exact hq
  | error q =>
    obtain ⟨before, line, rest, r, hlines, hbefore, ⟨stopped, hstop⟩, hsame, hdata⟩ :=
      loadLines_error hload
    obtain ⟨hwell, hr, hlists⟩ := hread hbefore
    have hnot : ¬ WellFormed (before ++ [line]) := by
      rw [← loadLines_ok_iff]
      rintro ⟨q', hq'⟩
      rw [hstop] at hq'
      cases hq'
    rw [IniParser.load, hload, hlines, readable_of_stop hwell hnot]
    refine ⟨hr.of_vectors hsame hdata, fun name => ?_⟩
    rw [hsame]
    exact hlists name

theorem Represents.call {p q : IniParser} {c : Contents} (h : Represents p c) {call : Call}
    (hcall : p.call call = .ok q) : Represents q (c.call call) := by
  cases call with
  | load file =>
    obtain rfl := Except.ok.inj hcall
    cases file with
    | none => exact h
    | some content => exact (load_represents p content).1
  | save opened =>
    obtain rfl := Except.ok.inj hcall
    exact h.save opened
  | setValue sectionName field value => exact h.setValue hcall
  | removeEntry sectionName entry => exact h.removeEntry hcall

theorem Represents.calls {p q : IniParser} {c : Contents} (h : Represents p c) {calls : List Call}
    (hcalls : p.calls calls = .ok q) : Represents q (calls.foldl Contents.call c) := by
  induction calls generalizing p c with
  | nil =>
    obtain rfl := Except.ok.inj hcalls
    exact h
  | cons call calls ih =>
    rw [IniParser.calls, Run.bind_eq_ok_iff] at hcalls
    obtain ⟨r, hr, hrest⟩ := hcalls
    exact ih (h.call hr) hrest

theorem Lists.call {p q : IniParser} {c : Contents} (hlists : Lists p c) (h : Represents p c)
    {call : Call} (hspares : c.SparesSections call) (hcall : p.call call = .ok q) :
    Lists q (c.call call) := by
  cases call with
  | load file =>
    obtain rfl := Except.ok.inj hcall
    cases file with
    | none => exact hlists
    | some content => exact (load_represents p content).2
  | save opened =>
    obtain rfl := Except.ok.inj hcall
    exact hlists
  | setValue sectionName field value => exact hlists.setValue h hcall
  | removeEntry sectionName entry => exact hlists.removeEntry h hspares hcall

theorem Lists.calls {p q : IniParser} {c : Contents} (hlists : Lists p c) (h : Represents p c)
    {calls : List Call} (hspare : c.AllSpareSections calls) (hcalls : p.calls calls = .ok q) :
    Lists q (calls.foldl Contents.call c) := by
  induction calls generalizing p c with
  | nil =>
    obtain rfl := Except.ok.inj hcalls
    exact hlists
  | cons call calls ih =>
    rw [IniParser.calls, Run.bind_eq_ok_iff] at hcalls
    obtain ⟨r, hr, hrest⟩ := hcalls
    exact ih (hlists.call h hspare.1 hr) (h.call hr) hspare.2 hrest

theorem represents_fresh : Represents .fresh .empty where
  sectionName_eq name t ht := by cases ht
  pairs_eq name := rfl
  listed name hne := absurd rfl hne

theorem lists_fresh : Lists .fresh .empty := by
  intro name
  simp [IniParser.fresh, Contents.empty]

/-- A parser is a dictionary of dictionaries. Whatever a program does with it, as
long as the calls are defined, `getValue` and `getAllEntries` answer from the
fields that the calls have set and removed, a section's fields being in the order
in which they came. `getAllSections` lists the sections in ascending order, as
long as no entry is removed from a section that is there without one. A file that
cannot be parsed counts up to the line at which `load` stops. -/
theorem accessors_read_contents (calls : List Call) (p : IniParser)
    (h : IniParser.fresh.calls calls = .ok p) :
    (∀ sectionName field, p.getValue sectionName field =
        match ((calls.foldl Contents.call .empty).fields sectionName).get? field with
        | none => (.VALUE_NOTFOUND, [])
        | some value => (.SUCCESS, value)) ∧
      (∀ sectionName, p.getAllEntries sectionName =
        ((calls.foldl Contents.call .empty).fields sectionName).keys) ∧
      p.getAllSections.Pairwise (fun a b => compare a b = .lt) ∧
      (Contents.empty.AllSpareSections calls → ∀ sectionName, sectionName ∈ p.getAllSections ↔
        sectionName ∈ (calls.foldl Contents.call .empty).sections) := by
  have hrepresents := represents_fresh.calls h
  refine ⟨hrepresents.getValue_eq, hrepresents.keys_eq, Std.ExtTreeMap.ordered_keys,
    fun hspare sectionName => ?_⟩
  rw [mem_getAllSections_iff]
  exact lists_fresh.calls represents_fresh hspare h sectionName

/-- A file whose third line cannot be parsed is loaded, a field `c` is set in its
section and the field `a` of its second line removed. -/
theorem accessors_read_contents_partial :
    ∃ p, IniParser.fresh.calls [.load (some [91, 65, 93, 10, 97, 61, 49, 10, 98, 98]),
        .setValue [65] [99] [50], .removeEntry [65] [97], .save true] = .ok p ∧
      p.getAllEntries [65] = [[99]] ∧
      (([.load (some [91, 65, 93, 10, 97, 61, 49, 10, 98, 98]), .setValue [65] [99] [50],
        .removeEntry [65] [97], .save true].foldl Contents.call .empty).fields [65]).keys =
          [[99]] ∧
      p.getAllSections = [[65], globalName] ∧
      [65] ∈ ([.load (some [91, 65, 93, 10, 97, 61, 49, 10, 98, 98]), .setValue [65] [99] [50],
        .removeEntry [65] [97], .save true].foldl Contents.call .empty).sections := by
  have hrun : IniParser.fresh.calls [.load (some [91, 65, 93, 10, 97, 61, 49, 10, 98, 98]),
      .setValue [65] [99] [50], .removeEntry [65] [97], .save true] = .ok _ := rfl
  obtain ⟨-, hentries, -, hsections⟩ := accessors_read_contents _ _ hrun
  have hspare : Contents.empty.AllSpareSections
      [.load (some [91, 65, 93, 10, 97, 61, 49, 10, 98, 98]), .setValue [65] [99] [50],
        .removeEntry [65] [97], .save true] := by
    refine ⟨trivial, trivial, fun _ => ?_, trivial, trivial⟩
    unfold Contents.call Contents.setValue
    dsimp only
    rw [Function.update_self]
    exact OrderedDict.keys_set_ne_nil _ _ _
  refine ⟨_, hrun, rfl, ?_, by decide, (hsections hspare [65]).mp (by decide)⟩
  rw [← hentries]
  rfl

end clockUtils.iniParser
