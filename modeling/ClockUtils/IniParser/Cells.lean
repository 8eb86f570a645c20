import ClockUtils.IniParser.Blocks

namespace clockUtils.iniParser

/-- A line of a section: one that `save` writes as it is, or one in whose place it
writes an entry. -/
inductive Cell where
  | plain (line : Bytes)
  | entry (line field value : Bytes)

namespace Cell

def line : Cell → Bytes
  | .plain line => line
  | .entry line _ _ => line

/-- The entries of cells whose first one has the line number `i`. -/
def entriesFrom (name : Bytes) : Nat → List Cell → List Entry
  | _, [] => []
  | i, .plain _ :: cells => entriesFrom name (i + 1) cells
  | i, .entry _ field value :: cells => ⟨name, field, i, value⟩ :: entriesFrom name (i + 1) cells

/-- The fields of the entries, in their order. -/
def fields : List Cell → List Bytes
  | [] => []
  | .plain _ :: cells => fields cells
  | .entry _ field _ :: cells => field :: fields cells

/-- What `save` writes for the cells when `n` entries come before them. Behind
2^32 entries its counter does not reach any other. -/
def saved : Nat → List Cell → List Bytes
  | _, [] => []
  | n, .plain line :: cells => line :: saved n cells
  | n, .entry line field value :: cells =>
    (if n < 2 ^ 32 then field ++ equalsSign :: value else line) :: saved (n + 1) cells

theorem map_field_entriesFrom (name : Bytes) (i : Nat) (cells : List Cell) :
    (entriesFrom name i cells).map Entry.field = fields cells := by
  induction cells generalizing i with
  | nil => rfl
  | cons cell cells ih =>
    cases cell with
    | plain line => exact ih (i + 1)
    | entry line field value => rw [entriesFrom, List.map_cons, ih, fields]

theorem le_index_of_mem {name : Bytes} {i : Nat} {cells : List Cell} {t : Entry}
    (h : t ∈ entriesFrom name i cells) : i ≤ t.index := by
  induction cells generalizing i with
  | nil => cases h
  | cons cell cells ih =>
    cases cell with
    | plain line =>
      have hle := ih h
      omega
    | entry line field value =>
      rcases List.mem_cons.mp h with rfl | h
      · exact Nat.le_refl i
      · have hle := ih h
        omega

theorem sectionName_of_mem {name : Bytes} {i : Nat} {cells : List Cell} {t : Entry}
    (h : t ∈ entriesFrom name i cells) : t.sectionName = name := by
  induction cells generalizing i with
  | nil => cases h
  | cons cell cells ih =>
    cases cell with
    | plain line => exact ih h
    | entry line field value =>
      rcases List.mem_cons.mp h with rfl | h
      · rfl
      · exact ih h

/-- The counter behind `n` entries: it wraps once and then stays. -/
def counter (n : Nat) : UInt32 :=
  UInt32.ofNat (min n (2 ^ 32))

theorem counter_of_lt {n : Nat} (h : n < 2 ^ 32) : (counter n).toNat = n := by
  rw [counter, Nat.min_eq_left (by omega)]
  exact UInt32.toNat_ofNat_of_lt' h

theorem counter_succ {n : Nat} (h : n < 2 ^ 32) : counter n + 1 = counter (n + 1) := by
  rw [counter, counter, Nat.min_eq_left (by omega), Nat.min_eq_left (by omega), UInt32.ofNat_add]
  rfl

theorem counter_of_le {n : Nat} (h : 2 ^ 32 ≤ n) : counter n = 0 := by
  rw [counter, Nat.min_eq_right h]
  decide

/-- The loop of `save` over cells, behind the entries that are done. A line stays where the
entry at the counter belongs to another line. -/
theorem saveLines_eq_saved {name : Bytes} {done : List Entry} {i : Nat} {cells : List Cell}
    (hdone : ∀ t ∈ done, t.index < i) :
    IniParser.saveLines (done ++ entriesFrom name i cells) i (counter done.length)
        (cells.map Cell.line) = saved done.length cells := by
  induction cells generalizing done i with
  | nil => rfl
  | cons cell cells ih =>
    have hdone' : ∀ t ∈ done, t.index < i + 1 := fun t ht => Nat.lt_succ_of_lt (hdone t ht)
    have hkeep : ∀ line entries, (∀ t, entries[(counter done.length).toNat]? = some t → i ≠ t.index) →
        IniParser.saveLines entries i (counter done.length) (line :: cells.map Cell.line) =
          line :: IniParser.saveLines entries (i + 1) (counter done.length) (cells.map Cell.line) := by
      intro line entries hother
      rw [IniParser.saveLines]
      split
      · rfl
      · next t ht => rw [if_neg (hother t ht)]
    have hpast : 2 ^ 32 ≤ done.length → ∀ more t,
        (done ++ more)[(counter done.length).toNat]? = some t → i ≠ t.index := by
      intro hfull more t ht
      rw [counter_of_le hfull, UInt32.toNat_zero, List.getElem?_append_left (by omega)] at ht
      have hlt := hdone t (List.mem_of_getElem? ht)
      omega
    cases cell with
    | plain line =>
      rw [entriesFrom, saved, List.map_cons, Cell.line, hkeep, ih hdone']
      intro t ht
      by_cases hfull : 2 ^ 32 ≤ done.length
      · exact hpast hfull _ t ht
      · rw [counter_of_lt (by omega), List.getElem?_append_right (Nat.le_refl _)] at ht
        have hle := le_index_of_mem (List.mem_of_getElem? ht)
        omega
    | entry line field value =>
      have hnext := @ih (done ++ [⟨name, field, i, value⟩]) (i + 1) (by
        intro t ht
        rcases List.mem_append.mp ht with ht | ht
        · exact hdone' t ht
        · rw [List.mem_singleton.mp ht]
          exact Nat.lt_succ_self i)
      rw [List.append_assoc, List.singleton_append, List.length_append, List.length_singleton] at hnext
      rw [entriesFrom, saved, List.map_cons, Cell.line]
      by_cases hfull : 2 ^ 32 ≤ done.length
      · rw [hkeep _ _ (hpast hfull _), if_neg (by omega), ← hnext, counter_of_le hfull,
          counter_of_le (by omega)]
      · have hget : (done ++ ⟨name, field, i, value⟩ :: entriesFrom name (i + 1) cells)[
            (counter done.length).toNat]? = some ⟨name, field, i, value⟩ := by
          rw [counter_of_lt (by omega), List.getElem?_append_right (Nat.le_refl _), Nat.sub_self]
          rfl
        rw [IniParser.saveLines, hget]
        simp only [if_true]
        rw [if_pos (by omega), counter_succ (by omega), hnext]
        rfl

/-- A text that is read as an entry line for the field. -/
def ReadsAs (text field : Bytes) : Prop :=
  isEntryLine text = true ∧ lineKey text = field

/-- Cells behind the section line, with `n` entries before them, the first
`loaded` of which come from a file: lines without an entry are not read,
entries are written as entry lines for their fields, and the line of an entry
is the file's or blank. Only the first entry, which is always written, may
stand on any line. -/
def Savable (loaded : Nat) : Nat → List Cell → Prop
  | _, [] => True
  | n, .plain line :: cells => isRead line = false ∧ Savable loaded n cells
  | n, .entry line field value :: cells => ReadsAs (field ++ equalsSign :: value) field ∧
      (0 < n → if n < loaded then ReadsAs line field else line = []) ∧ Savable loaded (n + 1) cells

theorem isEntryLine_of_not_isRead {line : Bytes} (h : isRead line = false) :
    isEntryLine line = false := by
  simp [isEntryLine, h]

theorem isSectionLine_of_not_isRead {line : Bytes} (h : isRead line = false) :
    isSectionLine line = false := by
  simp [isSectionLine, h]

theorem entryKeys_cons (line : Bytes) (lines : List Bytes) :
    entryKeys (line :: lines) = if isEntryLine line then lineKey line :: entryKeys lines
      else entryKeys lines := by
  rw [entryKeys, List.filter_cons]
  split
  · rfl
  · rfl

/-- The keys of the saved lines: the first 2^32 fields, and those that the file
had anyway. -/
theorem entryKeys_saved {loaded n : Nat} {cells : List Cell} (h : Savable loaded n cells) :
    entryKeys (saved n cells) = (fields cells).take (max (2 ^ 32) loaded - n) := by
  induction cells generalizing n with
  | nil => simp [saved, fields, entryKeys]
  | cons cell cells ih =>
    cases cell with
    | plain line =>
      obtain ⟨hline, hrest⟩ := h
      rw [saved, entryKeys_cons, if_neg (by simp [isEntryLine_of_not_isRead hline]), ih hrest, fields]
    | entry line field value =>
      obtain ⟨htext, hline, hrest⟩ := h
      have hnext : max (2 ^ 32) loaded - (n + 1) = max (2 ^ 32) loaded - n - 1 := by omega
      rw [saved, entryKeys_cons, ih hrest, fields, hnext]
      by_cases hwritten : n < 2 ^ 32
      · have hroom : max (2 ^ 32) loaded - n = max (2 ^ 32) loaded - n - 1 + 1 := by omega
        rw [if_pos hwritten, if_pos htext.1, htext.2, hroom, List.take_succ_cons,
          Nat.add_sub_cancel]
      · rw [if_neg hwritten]
        have hown := hline (by omega)
        by_cases hloaded : n < loaded
        · have hroom : max (2 ^ 32) loaded - n = max (2 ^ 32) loaded - n - 1 + 1 := by omega
          rw [if_pos hloaded] at hown
          rw [if_pos hown.1, hown.2, hroom, List.take_succ_cons, Nat.add_sub_cancel]
        · have hnone : max (2 ^ 32) loaded - n = 0 := by omega
          rw [if_neg hloaded] at hown
          rw [hown, if_neg (by decide), hnone, Nat.zero_sub, List.take_zero, List.take_zero]

/-- No saved line is a section line, and those that are read are entry lines. -/
theorem saved_line {loaded n : Nat} {cells : List Cell} (h : Savable loaded n cells) {text : Bytes}
    (htext : text ∈ saved n cells) :
    isSectionLine text = false ∧ (isRead text = true → isEntryLine text = true) := by
  induction cells generalizing n with
  | nil => cases htext
  | cons cell cells ih =>
    have hunread : ∀ line, isRead line = false →
        isSectionLine line = false ∧ (isRead line = true → isEntryLine line = true) := by
      intro line hline
      refine ⟨isSectionLine_of_not_isRead hline, fun hread => ?_⟩
      rw [hline] at hread
      cases hread
    have hentry : ∀ line field, ReadsAs line field →
        isSectionLine line = false ∧ (isRead line = true → isEntryLine line = true) := by
      intro line field hline
      refine ⟨?_, fun _ => hline.1⟩
      by_contra hsection
      have hnot := not_isEntryLine_of_isSectionLine (by simpa using hsection)
      rw [hline.1] at hnot
      cases hnot
    cases cell with
    | plain line =>
      obtain ⟨hline, hrest⟩ := h
      rcases List.mem_cons.mp htext with rfl | htext
      · exact hunread _ hline
      · exact ih hrest htext
    | entry line field value =>
      obtain ⟨hwritten, hline, hrest⟩ := h
      rcases List.mem_cons.mp htext with rfl | htext
      · split
        · exact hentry _ field hwritten
        · have hown := hline (by omega)
          split at hown
          · exact hentry _ field hown
          · exact hunread _ (by rw [hown]; rfl)
      · exact ih hrest htext

end Cell

end clockUtils.iniParser
