import ClockUtils.ArgParser.Progress

namespace clockUtils.argParser

open BasicVariable (Declaration)

namespace Parser

/-- The keys of `parsed` are the long names of the variables that occurred. -/
def ParsedFor (s : Setup) (items : List Item) (parsed : List Bytes) : Prop :=
  ∀ i d, s.declarations[i]? = some d → (d.longname ∈ parsed ↔ textsFor items i ≠ [])

theorem names_iff {arg : Bytes} (hflag : IsFlag arg) (v : BasicVariable) :
    names (arg.drop 1) v = true ↔ Named arg v.declaration := by
  obtain ⟨c, rest, rfl⟩ := hflag
  simp only [names, Named, BasicVariable.declaration, List.drop_succ_cons, List.drop_zero,
    decide_eq_true_eq, List.cons.injEq, true_and]
  constructor
  · rintro (h | h)
    · exact .inl h
    · exact .inr ⟨by rw [← h]; simp, h⟩
  · rintro (h | ⟨-, h⟩)
    · exact .inl h
    · exact .inr h

theorem isFlag_iff (arg : Bytes) : IsFlag arg ↔ arg.head? = some dash ∧ 2 ≤ arg.length := by
  match arg with
  | [] => simp [IsFlag]
  | [c] => simp [IsFlag]
  | c :: c' :: rest => simp [IsFlag]

theorem isHelp_iff {arg : Bytes} (hflag : IsFlag arg) :
    (arg.drop 1 = literal "-help" ∨ arg.drop 1 = literal "h") ↔ IsHelp arg := by
  obtain ⟨c, rest, rfl⟩ := hflag
  have hlong : literal "--help" = dash :: literal "-help" := by decide
  have hshort : literal "-h" = dash :: literal "h" := by decide
  rw [IsHelp, hlong, hshort, List.cons.injEq, List.cons.injEq]
  simp only [true_and, List.drop_succ_cons, List.drop_zero]

/-- The loop over the variables finds the first one that the flag names. -/
theorem find?_some_first {p : Parser} {items : List Item} {arg : Bytes} (hflag : IsFlag arg)
    {v : BasicVariable} {i : Nat}
    (h : (p.after items).variableList.zipIdx.find? (fun entry => names (arg.drop 1) entry.1) =
      some (v, i)) :
    (p.after items).variableList[i]? = some v ∧ First p.setup arg i v.declaration := by
  obtain ⟨hnames, k, hk, hget, hbefore⟩ := List.find?_eq_some_iff_getElem.mp h
  rw [List.getElem_zipIdx, Prod.mk.injEq, Nat.zero_add] at hget
  obtain ⟨hv, rfl⟩ := hget
  rw [List.length_zipIdx] at hk
  have hget : (p.after items).variableList[k]? = some v := by
    rw [List.getElem?_eq_getElem hk, hv]
  refine ⟨hget, ?_, (names_iff hflag v).mp hnames, fun j hj d hd => ?_⟩
  · rw [← map_declaration_after p items, List.getElem?_map, hget]
    rfl
  · rw [← map_declaration_after p items, List.getElem?_map, Option.map_eq_some_iff] at hd
    obtain ⟨w, hw, rfl⟩ := hd
    have hnot := hbefore j hj
    rw [List.getElem_zipIdx] at hnot
    obtain ⟨hlt, hw'⟩ := List.getElem?_eq_some_iff.mp hw
    rw [← names_iff hflag, ← hw']
    simpa using hnot

theorem find?_none_unclaimed {p : Parser} {items : List Item} {arg : Bytes} (hflag : IsFlag arg)
    (h : (p.after items).variableList.zipIdx.find? (fun entry => names (arg.drop 1) entry.1) =
      none) : Unclaimed p.setup arg := by
  intro d hd
  rw [← map_declaration_after p items, List.mem_map] at hd
  obtain ⟨v, hv, rfl⟩ := hd
  obtain ⟨i, hi⟩ := List.mem_iff_getElem?.mp hv
  have hnot := List.find?_eq_none.mp h (v, i) (List.mem_zipIdx_iff_getElem?.mpr hi)
  rw [← names_iff hflag]
  exact hnot

/-- How the loop goes on behind an item of one or two arguments. -/
def next (two : Bool) (p : Parser) (parsed : List Bytes) : Turn :=
  if two then .two p parsed else .one p parsed

/-- A turn that fails, where no item can stand; or one that reads the only item
that can. -/
def TurnFor (p : Parser) (done : List Item) (arg : Bytes) (following : Option Bytes) (t : Turn) :
    Prop :=
  (∃ q, t = .fail q ∧ ∀ item two, ItemAt p.setup arg following item two →
      ¬ Single p.setup (done ++ [item])) ∨
    ∃ item two parsed, (∀ item' two', ItemAt p.setup arg following item' two' ↔
        item' = item ∧ two' = two) ∧
      Single p.setup (done ++ [item]) ∧ ParsedFor p.setup (done ++ [item]) parsed ∧
      t = next two (p.after (done ++ [item])) parsed

/-- The keys of `parsed` among the long names are those that have occurred. -/
def GivenFor (s : Setup) (items : List Item) (parsed : List Bytes) : Prop :=
  ∀ (i : Nat) (d : Declaration), s.declarations[i]? = some d →
    (d.longname ∈ parsed ↔ d.longname ∈ givenNames s items)

/-- What a turn does whatever the names of the variables are. It fails where no
item can stand, and leaves `arguments` alone only at an empty argument; or it
reads the only item that can. -/
def TurnReads (p : Parser) (done : List Item) (arg : Bytes) (following : Option Bytes) (t : Turn) :
    Prop :=
  (∃ q, t = .fail q ∧ q.arguments = (if arg = [] then p.arguments else none) ∧
      q.vectors = (p.after done).vectors ∧
      ∀ item two, ItemAt p.setup arg following item two → ¬ Unrepeated p.setup (done ++ [item])) ∨
    ∃ item two parsed, (∀ item' two', ItemAt p.setup arg following item' two' ↔
        item' = item ∧ two' = two) ∧
      Unrepeated p.setup (done ++ [item]) ∧ GivenFor p.setup (done ++ [item]) parsed ∧
      t = next two (p.after (done ++ [item])) parsed

theorem givenNames_of_target {s : Setup} {item : Item} {i : Nat} (htarget : item.target = some i)
    {d : Declaration} (hd : s.declarations[i]? = some d) : givenNames s [item] = [d.longname] := by
  simp [givenNames, htarget, hd]

/-- A further text for a variable is a repetition exactly when the variable is
not `multiple` and its long name has occurred. -/
theorem isRepeated_iff {p : Parser} {done : List Item} {item : Item} {parsed : List Bytes} {i : Nat}
    (hdone : Unrepeated p.setup done) (hparsed : GivenFor p.setup done parsed)
    (htarget : item.target = some i) {v : BasicVariable}
    (hv : p.setup.declarations[i]? = some v.declaration) :
    isRepeated v parsed = true ↔ ¬ Unrepeated p.setup (done ++ [item]) := by
  have hmem : v.longname ∈ parsed ↔ v.longname ∈ givenNames p.setup done :=
    hparsed i v.declaration hv
  have hfresh : Fresh p.setup done item ↔
      (v.multiple = false → v.longname ∉ givenNames p.setup done) := by
    constructor
    · intro h
      exact h i v.declaration htarget hv
    · intro h j d hj hd
      obtain rfl : i = j := Option.some.inj (htarget.symm.trans hj)
      obtain rfl := Option.some.inj (hv.symm.trans hd)
      exact h
  rw [unrepeated_concat_iff, and_iff_right hdone, hfresh, isRepeated, Bool.and_eq_true,
    Bool.not_eq_true', decide_eq_true_eq, hmem]
  simp

theorem GivenFor.give {s : Setup} {done : List Item} {item : Item} {parsed : List Bytes} {i : Nat}
    (hparsed : GivenFor s done parsed) (htarget : item.target = some i) {d : Declaration}
    (hd : s.declarations[i]? = some d) : GivenFor s (done ++ [item]) (d.longname :: parsed) := by
  intro j e he
  rw [givenNames_append, givenNames_of_target htarget hd, List.mem_cons, List.mem_append,
    List.mem_singleton, hparsed j e he, or_comm]

/-- An item that gives no variable a text. -/
def Textless (item : Item) : Prop :=
  ∀ i, textsFor [item] i = []

theorem Textless.target_eq_none {item : Item} (h : Textless item) : item.target = none := by
  cases item with
  | value i text => simpa [textsFor] using h i
  | flag i => simpa [textsFor] using h i
  | help => rfl
  | argument arg => rfl

theorem Textless.unrepeated {s : Setup} {done : List Item} {item : Item} (h : Textless item)
    (hdone : Unrepeated s done) : Unrepeated s (done ++ [item]) := by
  refine unrepeated_concat_iff.mpr ⟨hdone, fun i d htarget => ?_⟩
  rw [h.target_eq_none] at htarget
  cases htarget

theorem Textless.givenFor {s : Setup} {done : List Item} {item : Item} {parsed : List Bytes}
    (h : Textless item) (hparsed : GivenFor s done parsed) :
    GivenFor s (done ++ [item]) parsed := by
  have hnone : givenNames s [item] = [] := by simp [givenNames, h.target_eq_none]
  intro i d hd
  rw [givenNames_append, hnone, List.append_nil]
  exact hparsed i d hd

theorem TurnReads.reject {p q : Parser} {done : List Item} {arg : Bytes} {following : Option Bytes}
    (hne : arg ≠ []) (hvectors : q.vectors = (p.after done).vectors) (error : Bytes)
    (hnone : ∀ item two, ItemAt p.setup arg following item two →
      ¬ Unrepeated p.setup (done ++ [item])) :
    p.TurnReads done arg following (q.reject error) :=
  .inl ⟨_, rfl, (if_neg hne).symm, hvectors, hnone⟩

section Turn

variable {p : Parser} {done : List Item} {parsed : List Bytes} {arg : Bytes}
  {following : Option Bytes} {v : BasicVariable} {i : Nat}
  (hdone : Unrepeated p.setup done) (hparsed : GivenFor p.setup done parsed)

include hdone hparsed

theorem argumentTurn_reads (hne : arg ≠ [])
    (hexact : ∀ item two, ItemAt p.setup arg following item two ↔
      p.setup.registered = true ∧ item = .argument arg ∧ two = false) :
    p.TurnReads done arg following ((p.after done).argumentTurn parsed arg) := by
  unfold argumentTurn
  split
  · next hnone =>
    refine .reject hne rfl _ fun item two hitem => ?_
    have hlist := ((hexact item two).mp hitem).1
    simp [setup, show p.arguments = none from hnone] at hlist
  · next vector hvector =>
    have hvector' : p.arguments = some vector := hvector
    have hlist : p.setup.registered = true := by simp [setup, hvector']
    have htextless : Textless (.argument arg) := fun _ => rfl
    refine .inr ⟨.argument arg, false, parsed, ?_, htextless.unrepeated hdone,
      htextless.givenFor hparsed, ?_⟩
    · intro item' two'
      rw [hexact]
      exact and_iff_right hlist
    · rw [after_argument p done arg hvector']
      rfl

theorem unknownTurn_reads (hflag : IsFlag arg) (hunclaimed : Unclaimed p.setup arg) :
    p.TurnReads done arg following ((p.after done).unknownTurn parsed (arg.drop 1) arg) := by
  have hhelp := isHelp_iff hflag
  unfold unknownTurn
  split
  · next hyes =>
    rw [hhelp] at hyes
    have htextless : Textless .help := fun _ => rfl
    refine .inr ⟨.help, false, parsed, ?_, htextless.unrepeated hdone,
      htextless.givenFor hparsed, ?_⟩
    · intro item' two'
      rw [hunclaimed.itemAt_iff hflag]
      simp [hyes]
    · rw [after_help]
      rfl
  · next hno =>
    rw [hhelp] at hno
    split
    · next herror =>
      refine .reject hflag.ne_nil rfl _ fun item two hitem => ?_
      rw [hunclaimed.itemAt_iff hflag] at hitem
      have herror' : p.setup.errorOnFlag = true := herror
      simp [hno, herror'] at hitem
    · next herror =>
      refine argumentTurn_reads hdone hparsed hflag.ne_nil fun item two => ?_
      have herror' : p.setup.errorOnFlag = false := (Bool.not_eq_true _).mp herror
      rw [hunclaimed.itemAt_iff hflag]
      simp [hno, herror']

theorem valueTurn_reads {text repeatedError : Bytes}
    (hv : (p.after done).variableList[i]? = some v) (hfirst : First p.setup arg i v.declaration)
    (hexact : ∀ item two, ItemAt p.setup arg (some text) item two ↔
      v.declaration.accepts text = true ∧ item = .value i text ∧ two = true) (name : Bytes) :
    p.TurnReads done arg (some text)
      ((p.after done).valueTurn parsed name i v text repeatedError) := by
  have htexts : ∀ j, textsFor [.value i text] j = if i = j then [text] else [] := by
    intro j
    by_cases hij : i = j <;> simp [textsFor, hij]
  have htarget : (Item.value i text).target = some i := rfl
  have hrepeated := isRepeated_iff hdone hparsed htarget hfirst.at_position
  unfold valueTurn
  rw [BasicVariable.setValue_fst]
  split
  · next hinvalid =>
    refine .reject hfirst.named.isFlag.ne_nil (by rfl) _ fun item two hitem => ?_
    have hvalid := ((hexact item two).mp hitem).1
    rw [hinvalid] at hvalid
    cases hvalid
  · next hvalid =>
    have hexact' : ∀ item two, ItemAt p.setup arg (some text) item two ↔
        item = .value i text ∧ two = true := by
      intro item two
      rw [hexact]
      exact and_iff_right (by simpa using hvalid)
    split
    · next hagain =>
      refine .reject hfirst.named.isFlag.ne_nil (by rfl) _ fun item two hitem => ?_
      rw [((hexact' item two).mp hitem).1]
      exact hrepeated.mp hagain
    · next hnew =>
      refine .inr ⟨_, true, _, hexact', not_not.mp (mt hrepeated.mpr hnew),
        hparsed.give htarget hfirst.at_position, ?_⟩
      rw [p.after_variable htexts (by simp) rfl hv]
      rfl

theorem boolTurn_reads
    (hv : (p.after done).variableList[i]? = some v) (hfirst : First p.setup arg i v.declaration)
    (hexact : ∀ item two, ItemAt p.setup arg following item two ↔ item = .flag i ∧ two = false) :
    p.TurnReads done arg following ((p.after done).boolTurn parsed i v) := by
  have htexts : ∀ j, textsFor [.flag i] j = if i = j then [literal "1"] else [] := by
    intro j
    by_cases hij : i = j <;> simp [textsFor, hij]
  have htarget : (Item.flag i).target = some i := rfl
  have hrepeated := isRepeated_iff hdone hparsed htarget hfirst.at_position
  unfold boolTurn
  split
  · next hagain =>
    refine .reject hfirst.named.isFlag.ne_nil (by rfl) _ fun item two hitem => ?_
    rw [((hexact item two).mp hitem).1]
    exact hrepeated.mp hagain
  · next hnew =>
    refine .inr ⟨_, false, _, hexact, not_not.mp (mt hrepeated.mpr hnew),
      hparsed.give htarget hfirst.at_position, ?_⟩
    rw [p.after_variable htexts (by simp) rfl hv]
    rfl

theorem variableTurn_reads
    (hv : (p.after done).variableList[i]? = some v) (hfirst : First p.setup arg i v.declaration)
    (name : Bytes) :
    p.TurnReads done arg following ((p.after done).variableTurn parsed name i v following) := by
  unfold variableTurn
  have hflag : ∀ {following : Option Bytes}, v.isBool = true →
      (∀ text, following = some text → text.head? = some dash) →
      p.TurnReads done arg following ((p.after done).boolTurn parsed i v) := by
    intro following hbool hnext
    refine boolTurn_reads hdone hparsed hv hfirst fun item two => ?_
    rw [hfirst.itemAt_iff]
    constructor
    · rintro (⟨text, rfl, hdash, -⟩ | ⟨-, -, hitem⟩)
      · exact absurd (hnext text rfl) (hdash hbool)
      · exact hitem
    · exact fun hitem => .inr ⟨hbool, hnext, hitem⟩
  split
  · next text hbool =>
    split
    · next hdash =>
      refine valueTurn_reads hdone hparsed hv hfirst (fun item two => ?_) name
      rw [hfirst.itemAt_iff]
      constructor
      · rintro (⟨text', htext, -, hvalid⟩ | ⟨-, hnext, -⟩)
        · obtain rfl := Option.some.inj htext
          exact hvalid
        · exact absurd (hnext text rfl) hdash
      · exact fun hitem => .inl ⟨text, rfl, fun _ => hdash, hitem⟩
    · next hdash =>
      refine hflag hbool fun text' htext => ?_
      obtain rfl := Option.some.inj htext
      exact not_not.mp hdash
  · next hbool => exact hflag hbool fun text htext => by cases htext
  · next text hbool =>
    have hbool' : v.declaration.isBool = false := hbool
    refine valueTurn_reads hdone hparsed hv hfirst (fun item two => ?_) name
    rw [hfirst.itemAt_iff]
    constructor
    · rintro (⟨text', htext, -, hvalid⟩ | ⟨hyes, -⟩)
      · obtain rfl := Option.some.inj htext
        exact hvalid
      · rw [hbool'] at hyes
        cases hyes
    · exact fun hitem => .inl ⟨text, rfl, by simp [hbool'], hitem⟩
  · next hbool =>
    have hbool' : v.declaration.isBool = false := hbool
    refine .reject hfirst.named.isFlag.ne_nil (by rfl) _ fun item two hitem => ?_
    rw [hfirst.itemAt_iff] at hitem
    simp [hbool'] at hitem

/-- One turn of the loop reads the one item that stands there, or fails. -/
theorem turn_reads (arg : Bytes) (following : Option Bytes) :
    p.TurnReads done arg following ((p.after done).turn parsed arg following) := by
  unfold turn
  split
  · next hflag =>
    rw [← isFlag_iff] at hflag
    split
    · next hnone => exact unknownTurn_reads hdone hparsed hflag (find?_none_unclaimed hflag hnone)
    · next v i hsome =>
      obtain ⟨hv, hfirst⟩ := find?_some_first hflag hsome
      exact variableTurn_reads hdone hparsed hv hfirst _
  · next hflag =>
    rw [← isFlag_iff] at hflag
    split
    · next hne =>
      refine argumentTurn_reads hdone hparsed hne fun item two => ?_
      rw [itemAt_argument_iff hflag]
      exact and_iff_right hne
    · next hempty =>
      refine .inl ⟨_, rfl, (if_pos (not_not.mp hempty)).symm, rfl, fun item two hitem => ?_⟩
      rw [itemAt_argument_iff hflag] at hitem
      exact absurd hitem.1 hempty

end Turn

theorem length_textsFor_singleton (item : Item) (i : Nat) :
    (textsFor [item] i).length = if item.target = some i then 1 else 0 := by
  cases item with
  | value j text => by_cases hij : j = i <;> simp [textsFor, Item.target, hij]
  | flag j => by_cases hij : j = i <;> simp [textsFor, Item.target, hij]
  | help => simp [textsFor, Item.target]
  | argument arg => simp [textsFor, Item.target]

theorem textsFor_ne_nil_iff (items : List Item) (i : Nat) :
    textsFor items i ≠ [] ↔ ∃ item ∈ items, item.target = some i := by
  induction items with
  | nil => simp [textsFor]
  | cons item items ih =>
    have hone := length_textsFor_singleton item i
    rw [← List.singleton_append, textsFor_append, List.singleton_append, List.exists_mem_cons_iff,
      ← ih, Ne, List.append_eq_nil_iff, not_and_or, ← List.length_eq_zero_iff, hone]
    simp

section Distinct

variable {s : Setup} (hnames : (s.declarations.map Declaration.longname).Nodup)

include hnames

/-- With distinct long names a name has occurred just when its variable has. -/
theorem mem_givenNames_iff {i : Nat} {d : Declaration} (hd : s.declarations[i]? = some d)
    (items : List Item) : d.longname ∈ givenNames s items ↔ textsFor items i ≠ [] := by
  rw [textsFor_ne_nil_iff, givenNames, List.mem_filterMap]
  refine exists_congr fun item => and_congr_right fun _ => ?_
  rw [Option.bind_eq_some_iff]
  constructor
  · rintro ⟨j, htarget, hj⟩
    have hlt : i < (s.declarations.map Declaration.longname).length := by
      simpa using (List.getElem?_eq_some_iff.mp hd).1
    have hij : i = j := by
      apply (List.getElem?_inj hlt hnames).mp
      rw [List.getElem?_map, List.getElem?_map, hd, hj, Option.map_some]
    rwa [hij]
  · intro htarget
    exact ⟨i, htarget, by rw [hd, Option.map_some]⟩

theorem parsedFor_iff_givenFor (items : List Item) (parsed : List Bytes) :
    ParsedFor s items parsed ↔ GivenFor s items parsed :=
  forall₃_congr fun i d hd => by rw [mem_givenNames_iff hnames hd]

theorem single_iff_unrepeated (items : List Item) : Single s items ↔ Unrepeated s items := by
  induction items using List.reverseRecOn with
  | nil => simp [Single, Unrepeated, textsFor]
  | append_singleton items item ih =>
    rw [unrepeated_concat_iff, ← ih]
    constructor
    · intro h
      refine ⟨h.of_append, fun i d htarget hd hmultiple => ?_⟩
      have hle := h i d hd hmultiple
      rw [textsFor_append, List.length_append, length_textsFor_singleton, if_pos htarget] at hle
      rw [mem_givenNames_iff hnames hd, not_not]
      exact List.length_eq_zero_iff.mp (by omega)
    · rintro ⟨hsingle, hfresh⟩ i d hd hmultiple
      have hle := hsingle i d hd hmultiple
      rw [textsFor_append, List.length_append, length_textsFor_singleton]
      split
      · next htarget =>
        have hnone := hfresh i d htarget hd hmultiple
        rw [mem_givenNames_iff hnames hd, not_not] at hnone
        simp [hnone]
      · exact hle

theorem turn_for {p : Parser} (hp : p.setup = s) {done : List Item} {parsed : List Bytes}
    (hsingle : Single p.setup done) (hparsed : ParsedFor p.setup done parsed) (arg : Bytes)
    (following : Option Bytes) :
    p.TurnFor done arg following ((p.after done).turn parsed arg following) := by
  subst hp
  rw [single_iff_unrepeated hnames] at hsingle
  rw [parsedFor_iff_givenFor hnames] at hparsed
  rcases turn_reads hsingle hparsed arg following with
    ⟨q, hfail, -, -, hnone⟩ | ⟨item, two, parsed', hexact, hsingle', hparsed', hnext⟩
  · refine .inl ⟨q, hfail, fun item two hitem => ?_⟩
    rw [single_iff_unrepeated hnames]
    exact hnone item two hitem
  · rw [← single_iff_unrepeated hnames] at hsingle'
    rw [← parsedFor_iff_givenFor hnames] at hparsed'
    exact .inr ⟨item, two, parsed', hexact, hsingle', hparsed', hnext⟩

end Distinct

end Parser

end clockUtils.argParser
