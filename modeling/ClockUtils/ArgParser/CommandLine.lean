import ClockUtils.ArgParser.Recognition

namespace clockUtils.argParser

open BasicVariable (Declaration)

theorem ItemAt.unique {setup : Setup} {arg : Bytes} {next : Option Bytes} {item item' : Item}
    {two two' : Bool} (h : ItemAt setup arg next item two) (h' : ItemAt setup arg next item' two') :
    item = item' ∧ two = two' := by
  cases h with
  | value hfirst hbool hvalid =>
    rcases hfirst.itemAt_iff.mp h' with ⟨text, hnext, -, -, rfl, rfl⟩ | ⟨hyes, -⟩
    · obtain rfl := Option.some.inj hnext
      exact ⟨rfl, rfl⟩
    · rw [hbool] at hyes
      cases hyes
  | boolValue hfirst hbool hdash hvalid =>
    rcases hfirst.itemAt_iff.mp h' with ⟨text, hnext, -, -, rfl, rfl⟩ | ⟨-, hnext, -⟩
    · obtain rfl := Option.some.inj hnext
      exact ⟨rfl, rfl⟩
    · exact absurd (hnext _ rfl) hdash
  | boolFlag hfirst hbool hnext =>
    rcases hfirst.itemAt_iff.mp h' with ⟨text, rfl, hdash, -⟩ | ⟨-, -, rfl, rfl⟩
    · exact absurd (hnext text rfl) (hdash hbool)
    · exact ⟨rfl, rfl⟩
  | help hunclaimed hhelp =>
    rcases (hunclaimed.itemAt_iff hhelp.isFlag).mp h' with ⟨-, rfl, rfl⟩ | ⟨hnot, -⟩
    · exact ⟨rfl, rfl⟩
    · exact absurd hhelp hnot
  | unknownFlag hflag hunclaimed hhelp =>
    rcases (hunclaimed.itemAt_iff hflag).mp h' with ⟨hyes, -⟩ | ⟨-, -, -, rfl, rfl⟩
    · exact absurd hyes hhelp
    · exact ⟨rfl, rfl⟩
  | argument hflag =>
    obtain ⟨-, -, rfl, rfl⟩ := (itemAt_argument_iff hflag).mp h'
    exact ⟨rfl, rfl⟩

theorem Splits.unique {setup : Setup} {argv : List Bytes} {items items' : List Item}
    (h : Splits setup argv items) (h' : Splits setup argv items') : items = items' := by
  induction h generalizing items' with
  | nil => exact (splits_nil_iff.mp h').symm
  | one hitem hrest ih =>
    obtain ⟨item', two, rest, hitem', rfl, hrest'⟩ := splits_cons_iff.mp h'
    obtain ⟨rfl, rfl⟩ := hitem.unique hitem'
    rw [ih hrest']
  | two hitem hrest ih =>
    obtain ⟨item', two, rest, hitem', rfl, hrest'⟩ := splits_cons_iff.mp h'
    obtain ⟨rfl, rfl⟩ := hitem.unique hitem'
    rw [ih hrest']

namespace Parser

/-- What a parse does with an argument line that splits into these items. -/
theorem parseArguments_of_splits {p : Parser}
    (hnames : (p.variableList.map BasicVariable.longname).Nodup) {argv : List Bytes}
    {items : List Item} (hsplits : Splits p.setup argv items) :
    (Single p.setup items ∧ RequiredGiven p.setup items ∧
        p.parseArguments argv = (.SUCCESS, { p.after items with arguments := none })) ∨
      ¬ (Single p.setup items ∧ RequiredGiven p.setup items) ∧
        (p.parseArguments argv).1 = .INVALID_USAGE := by
  rcases parseArguments_spec hnames argv with
    ⟨items', hsplits', hsingle, hgiven, hcall⟩ | ⟨hnone, hcall⟩
  · obtain rfl := hsplits.unique hsplits'
    exact .inl ⟨hsingle, hgiven, hcall⟩
  · exact .inr ⟨hnone items hsplits, hcall⟩

end Parser

/-- The long name of the variable at this position. -/
def Setup.longname (setup : Setup) (i : Nat) : Bytes :=
  match setup.declarations[i]? with
  | none => []
  | some d => d.longname

/-- The arguments that stand for an item, flags by their long names. -/
def Item.written (setup : Setup) : Item → List Bytes
  | .value i text => [dash :: dash :: setup.longname i, text]
  | .flag i => [dash :: dash :: setup.longname i]
  | .help => [literal "--help"]
  | .argument arg => [arg]

def written (setup : Setup) (items : List Item) : List Bytes :=
  items.flatMap (Item.written setup)

/-- No two variables have the same long name, and no short name can be taken for a
long one. -/
structure ClearNames (setup : Setup) : Prop where
  longnames : (setup.declarations.map Declaration.longname).Nodup
  shortnames : ∀ d ∈ setup.declarations, d.shortname.head? ≠ some dash

/-- The value is valid for the variable, and does not look like a flag where this
matters; an argument is no flag. -/
def Item.Writable (setup : Setup) : Item → Prop
  | .value i text => ∃ d, setup.declarations[i]? = some d ∧ d.accepts text = true ∧
      (d.isBool = true → text.head? ≠ some dash)
  | .flag i => ∃ d, setup.declarations[i]? = some d ∧ d.isBool = true
  | .help => Unclaimed setup (literal "--help")
  | .argument arg => arg ≠ [] ∧ ¬ IsFlag arg ∧ setup.registered = true

/-- Behind `--b` an argument would be taken for the value of the variable. -/
def Writable (setup : Setup) : List Item → Prop
  | [] => True
  | item :: items => item.Writable setup ∧
      (∀ i arg, item = .flag i → items.head? = some (.argument arg) → arg.head? = some dash) ∧
      Writable setup items

theorem ClearNames.first {setup : Setup} (h : ClearNames setup) {i : Nat} {d : Declaration}
    (hd : setup.declarations[i]? = some d) : First setup (dash :: dash :: setup.longname i) i d := by
  have hname : setup.longname i = d.longname := by
    unfold Setup.longname
    rw [hd]
  rw [hname]
  refine ⟨hd, .inl rfl, fun j hj d' hd' hnamed => ?_⟩
  rcases hnamed with hsame | ⟨hne, hshort⟩
  · have hlong : d'.longname = d.longname := by simpa using hsame.symm
    have hget : (setup.declarations.map Declaration.longname)[j]? = some d.longname := by
      rw [List.getElem?_map, hd', Option.map_some, hlong]
    have hget' : (setup.declarations.map Declaration.longname)[i]? = some d.longname := by
      rw [List.getElem?_map, hd, Option.map_some]
    have hlength : i < (setup.declarations.map Declaration.longname).length :=
      (List.getElem?_eq_some_iff.mp hget').1
    exact List.nodup_iff_getElem?_ne_getElem?.mp h.longnames j i hj hlength (hget.trans hget'.symm)
  · have hdash : d'.shortname = dash :: d.longname := by simpa using hshort.symm
    refine h.shortnames d' (List.mem_of_getElem? hd') ?_
    rw [hdash]
    rfl

/-- Only an argument that may stand there begins without a dash. -/
theorem head?_written {setup : Setup} {i : Nat} {items : List Item}
    (h : Writable setup (.flag i :: items)) {text : Bytes}
    (htext : (written setup items).head? = some text) : text.head? = some dash := by
  cases items with
  | nil => cases htext
  | cons item items =>
    rw [written, List.flatMap_cons] at htext
    cases item with
    | value j value =>
      obtain rfl := Option.some.inj htext
      rfl
    | flag j =>
      obtain rfl := Option.some.inj htext
      rfl
    | help =>
      obtain rfl := Option.some.inj htext
      rfl
    | argument arg =>
      obtain rfl := Option.some.inj htext
      exact h.2.1 i arg rfl rfl

/-- What was written is read again. -/
theorem splits_written {setup : Setup} (hnames : ClearNames setup) {items : List Item}
    (h : Writable setup items) : Splits setup (written setup items) items := by
  induction items with
  | nil => exact .nil
  | cons item items ih =>
    have hrest := ih h.2.2
    rw [written, List.flatMap_cons]
    cases item with
    | value i text =>
      obtain ⟨d, hd, hvalid, hdash⟩ := h.1
      refine .two ((hnames.first hd).itemAt_iff.mpr (.inl ?_)) hrest
      exact ⟨text, rfl, hdash, hvalid, rfl, rfl⟩
    | flag i =>
      obtain ⟨d, hd, hbool⟩ := h.1
      refine .one ((hnames.first hd).itemAt_iff.mpr (.inr ?_)) hrest
      exact ⟨hbool, fun text htext => head?_written h htext, rfl, rfl⟩
    | help => exact .one (.help h.1 (.inl rfl)) hrest
    | argument arg =>
      obtain ⟨hne, hflag, hlist⟩ := h.1
      exact .one (.argument hflag hne hlist) hrest

/-- The texts for a variable are valid; `--b` gives the text `1`. -/
theorem accepts_of_mem_textsFor {setup : Setup} {items : List Item} (h : Writable setup items)
    {i : Nat} {d : Declaration} (hd : setup.declarations[i]? = some d)
    (hone : d.isBool = true → d.accepts (literal "1") = true) {text : Bytes}
    (htext : text ∈ textsFor items i) : d.accepts text = true := by
  induction items with
  | nil => cases htext
  | cons item items ih =>
    rw [← List.singleton_append, textsFor_append, List.mem_append] at htext
    rcases htext with htext | htext
    · cases item with
      | value j value =>
        by_cases hij : j = i
        · subst hij
          obtain ⟨d', hd', hvalid, -⟩ := h.1
          obtain rfl := Option.some.inj (hd.symm.trans hd')
          obtain rfl : text = value := by simpa [textsFor] using htext
          exact hvalid
        · simp [textsFor, hij] at htext
      | flag j =>
        by_cases hij : j = i
        · subst hij
          obtain ⟨d', hd', hbool⟩ := h.1
          obtain rfl := Option.some.inj (hd.symm.trans hd')
          obtain rfl : text = literal "1" := by simpa [textsFor] using htext
          exact hone hbool
        · simp [textsFor, hij] at htext
      | help => simp [textsFor] at htext
      | argument arg => simp [textsFor] at htext
    · exact ih h.2.2 htext

theorem exists_values (v : BasicVariable) {texts : List Bytes}
    (h : ∀ text ∈ texts, v.declaration.accepts text = true) :
    ∃ vals : List v.T, List.Forall₂ (fun text val => v.extract text = .valid val) texts vals := by
  induction texts with
  | nil => exact ⟨[], .nil⟩
  | cons text texts ih =>
    obtain ⟨hfirst, hrest⟩ := List.forall_mem_cons.mp h
    obtain ⟨vals, hvals⟩ := ih hrest
    cases hextract : v.extract text with
    | valid val => exact ⟨val :: vals, .cons hextract hvals⟩
    | invalid stored =>
      have hnot : (v.extract text).isValid = true := hfirst
      rw [hextract] at hnot
      cases hnot

/-- Whatever is to be given to the variables, to the argument list and to `--help`, the line
that is written for it is accepted, as long as the names are clear, every item can be
written, no variable occurs twice unless it is `multiple`, and every required one occurs
unless help is given. Then every variable has exactly the values that were written for it,
and its default value if there are none. -/
theorem parse_written (p : Parser) (items : List Item) (hnames : ClearNames p.setup)
    (hitems : Writable p.setup items) (hsingle : Single p.setup items)
    (hgiven : RequiredGiven p.setup items)
    (hone : ∀ v ∈ p.variableList, v.isBool = true → (v.extract (literal "1")).isValid = true) :
    (p.parseArguments (written p.setup items)).1 = .SUCCESS ∧
      ((p.parseArguments (written p.setup items)).2.help = true ↔ .help ∈ items) ∧
      (p.parseArguments (written p.setup items)).2.vectors = p.vectorsAfter (argumentsOf items) ∧
      ∀ i v, p.variableList[i]? = some v →
        ∃ vals : List v.T,
          List.Forall₂ (fun text val => v.extract text = .valid val) (textsFor items i) vals ∧
          (p.parseArguments (written p.setup items)).2.variableList[i]? = some { v with
            value := vals.headD v.defaultValue
            values := vals.tail
            set := decide (vals ≠ []) } := by
  have hlong : (p.variableList.map BasicVariable.longname).Nodup := by
    have hdeclarations := hnames.longnames
    unfold Parser.setup at hdeclarations
    rwa [List.map_map] at hdeclarations
  have hcall : p.parseArguments (written p.setup items) =
      (.SUCCESS, { p.after items with arguments := none }) := by
    rcases Parser.parseArguments_of_splits hlong (splits_written hnames hitems) with
      ⟨-, -, hcall⟩ | ⟨hnone, -⟩
    · exact hcall
    · exact absurd ⟨hsingle, hgiven⟩ hnone
  rw [hcall]
  refine ⟨rfl, decide_eq_true_iff, rfl, fun i v hv => ?_⟩
  have hd : p.setup.declarations[i]? = some v.declaration := by
    unfold Parser.setup
    rw [List.getElem?_map, hv]
    rfl
  obtain ⟨vals, hvals⟩ := exists_values v fun text htext =>
    accepts_of_mem_textsFor hitems hd (hone v (List.mem_of_getElem? hv)) htext
  refine ⟨vals, hvals, ?_⟩
  rw [Parser.getElem?_after, hv, Option.map_some, v.holding_eq hvals]
  rfl

/-- A required string `--name` and a bool `--verbose`, whose stream reads `0` and `1`. -/
def nameAndSwitch : Parser where
  variableList :=
    [.new BasicVariable.extractString false (literal "name") (literal "n") [] true false,
      .new (BasicVariable.extractBool fun text =>
        (decide (text = literal "1"), decide (text = literal "1" ∨ text = literal "0"))) true
        (literal "verbose") (literal "v") false false false]
  error := []
  errorOnFlag := true
  help := false
  arguments := none
  vectors _ := []

theorem clearNames_nameAndSwitch : ClearNames nameAndSwitch.setup :=
  ⟨by decide, by decide⟩

theorem writable_nameAndSwitch :
    Writable nameAndSwitch.setup [.flag 1, .value 0 (literal "-v")] ∧
      Writable nameAndSwitch.setup [.value 0 (literal "-v"), .flag 1] := by
  have hflag : Item.Writable nameAndSwitch.setup (.flag 1) := ⟨_, rfl, rfl⟩
  have hvalue : Item.Writable nameAndSwitch.setup (.value 0 (literal "-v")) :=
    ⟨_, rfl, rfl, fun h => by cases h⟩
  exact ⟨⟨hflag, by simp, hvalue, by simp, trivial⟩, ⟨hvalue, by simp, hflag, by simp, trivial⟩⟩

theorem parse_written_switch :
    (nameAndSwitch.parseArguments
      (written nameAndSwitch.setup [.flag 1, .value 0 (literal "-v")])).1 = .SUCCESS := by
  refine (parse_written nameAndSwitch [.flag 1, .value 0 (literal "-v")] clearNames_nameAndSwitch
    writable_nameAndSwitch.1 ?_ ?_ (by decide)).1
  · intro i d _ _
    match i with
    | 0 => exact Nat.le_refl 1
    | 1 => exact Nat.le_refl 1
    | i + 2 => simp [textsFor]
  · refine .inr fun i d hd hrequired => ?_
    match i with
    | 0 => simp [textsFor]
    | 1 =>
      obtain rfl := Option.some.inj hd
      cases hrequired
    | i + 2 => cases hd

/-- What is given to the variables and to the list decides the outcome: in which order the
items of different variables and the arguments stand does not matter. The long names have to
be distinct, as a variable that is given twice is looked up by its long name. -/
theorem Parser.parse_order_irrelevant (p : Parser)
    (hnames : (p.variableList.map BasicVariable.longname).Nodup) (argv argv' : List Bytes)
    (items items' : List Item) (hsplits : Splits p.setup argv items)
    (hsplits' : Splits p.setup argv' items')
    (htexts : ∀ i, textsFor items' i = textsFor items i)
    (harguments : argumentsOf items' = argumentsOf items)
    (hhelp : .help ∈ items' ↔ .help ∈ items) :
    (p.parseArguments argv').1 = (p.parseArguments argv).1 ∧
      ((p.parseArguments argv).1 = .SUCCESS →
        p.parseArguments argv' = p.parseArguments argv) := by
  have hafter : p.after items' = p.after items := by
    unfold Parser.after
    simp only [htexts, harguments, hhelp]
  have hgood : (Single p.setup items' ∧ RequiredGiven p.setup items') ↔
      (Single p.setup items ∧ RequiredGiven p.setup items) := by
    unfold Single RequiredGiven
    simp only [htexts, hhelp]
  rcases Parser.parseArguments_of_splits hnames hsplits with ⟨hsingle, hgiven, hcall⟩ | ⟨hnone, hcall⟩
  · rcases Parser.parseArguments_of_splits hnames hsplits' with ⟨-, -, hcall'⟩ | ⟨hnone', -⟩
    · rw [hcall, hcall', hafter]
      exact ⟨rfl, fun _ => rfl⟩
    · exact absurd (hgood.mpr ⟨hsingle, hgiven⟩) hnone'
  · rcases Parser.parseArguments_of_splits hnames hsplits' with ⟨hsingle', hgiven', -⟩ | ⟨-, hcall'⟩
    · exact absurd (hgood.mp ⟨hsingle', hgiven'⟩) hnone
    · rw [hcall, hcall']
      exact ⟨rfl, fun h => by cases h⟩

/-- The lines `--verbose --name -v` and `--name -v --verbose`. -/
theorem parse_order_irrelevant_switch :
    (nameAndSwitch.parseArguments (written nameAndSwitch.setup [.value 0 (literal "-v"), .flag 1])).1 =
      (nameAndSwitch.parseArguments
        (written nameAndSwitch.setup [.flag 1, .value 0 (literal "-v")])).1 := by
  have hfirst := splits_written clearNames_nameAndSwitch writable_nameAndSwitch.1
  have hsecond := splits_written clearNames_nameAndSwitch writable_nameAndSwitch.2
  refine (Parser.parse_order_irrelevant nameAndSwitch (by decide) _ _ _ _ hfirst hsecond
    (fun i => ?_) rfl (by simp)).1
  match i with
  | 0 => rfl
  | 1 => rfl
  | i + 2 => simp [textsFor]

end clockUtils.argParser
