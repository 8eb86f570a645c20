import ClockUtils.ArgParser.ArgumentList

namespace clockUtils.argParser

open BasicVariable (Declaration)

/-- The arguments at which the loop fails without an error text, given the items
before and the next argument: those for a list that is not registered, and the
repetition of a bool that is not `multiple`. -/
inductive Silent (setup : Setup) (done : List Item) (arg : Bytes) : Option Bytes → Prop where
  | unknownFlag {next : Option Bytes} (hflag : IsFlag arg) (hunclaimed : Unclaimed setup arg)
      (hhelp : ¬ IsHelp arg) (herror : setup.errorOnFlag = false)
      (hlist : setup.registered = false) : Silent setup done arg next
  | argument {next : Option Bytes} (hflag : ¬ IsFlag arg) (hne : arg ≠ [])
      (hlist : setup.registered = false) : Silent setup done arg next
  | boolValue {i : Nat} {d : Declaration} {text : Bytes} (hfirst : First setup arg i d)
      (hbool : d.isBool = true) (hdash : text.head? ≠ some dash) (hvalid : d.accepts text = true)
      (hmultiple : d.multiple = false) (hagain : d.longname ∈ givenNames setup done) :
      Silent setup done arg (some text)
  | boolFlag {i : Nat} {d : Declaration} {next : Option Bytes} (hfirst : First setup arg i d)
      (hbool : d.isBool = true) (hnext : ∀ text, next = some text → text.head? = some dash)
      (hmultiple : d.multiple = false) (hagain : d.longname ∈ givenNames setup done) :
      Silent setup done arg next

/-- Reading the line gets to such an argument. -/
def EndsSilently (setup : Setup) (argv : List Bytes) : Prop :=
  ∃ items arg rest, ReadsTo setup argv items (arg :: rest) ∧ Unrepeated setup items ∧
    Silent setup items arg rest.head?

/-- The same behind items that were read before. -/
def SilentAfter (setup : Setup) (done : List Item) (argv : List Bytes) : Prop :=
  ∃ items arg rest, ReadsTo setup argv items (arg :: rest) ∧ Unrepeated setup (done ++ items) ∧
    Silent setup (done ++ items) arg rest.head?

section Inversion

variable {setup : Setup} {done : List Item} {arg : Bytes}

theorem First.silent_iff {i : Nat} {d : Declaration} (hfirst : First setup arg i d)
    {next : Option Bytes} :
    Silent setup done arg next ↔
      (d.isBool = true ∧ d.multiple = false ∧ d.longname ∈ givenNames setup done) ∧
        ((∃ text, next = some text ∧ text.head? ≠ some dash ∧ d.accepts text = true) ∨
          ∀ text, next = some text → text.head? = some dash) := by
  constructor
  · intro h
    cases h with
    | unknownFlag _ hunclaimed => exact absurd hunclaimed hfirst.not_unclaimed
    | argument hflag => exact absurd hfirst.named.isFlag hflag
    | boolValue hfirst' hbool hdash hvalid hmultiple hagain =>
      obtain ⟨rfl, rfl⟩ := hfirst.unique hfirst'
      exact ⟨⟨hbool, hmultiple, hagain⟩, .inl ⟨_, rfl, hdash, hvalid⟩⟩
    | boolFlag hfirst' hbool hnext hmultiple hagain =>
      obtain ⟨rfl, rfl⟩ := hfirst.unique hfirst'
      exact ⟨⟨hbool, hmultiple, hagain⟩, .inr hnext⟩
  · rintro ⟨⟨hbool, hmultiple, hagain⟩, ⟨text, rfl, hdash, hvalid⟩ | hnext⟩
    · exact .boolValue hfirst hbool hdash hvalid hmultiple hagain
    · exact .boolFlag hfirst hbool hnext hmultiple hagain

theorem Unclaimed.silent_iff (h : Unclaimed setup arg) (hflag : IsFlag arg) {next : Option Bytes} :
    Silent setup done arg next ↔
      ¬ IsHelp arg ∧ setup.errorOnFlag = false ∧ setup.registered = false := by
  constructor
  · intro hsilent
    cases hsilent with
    | unknownFlag _ _ hhelp herror hlist => exact ⟨hhelp, herror, hlist⟩
    | argument hnot => exact absurd hflag hnot
    | boolValue hfirst => exact absurd h hfirst.not_unclaimed
    | boolFlag hfirst => exact absurd h hfirst.not_unclaimed
  · rintro ⟨hhelp, herror, hlist⟩
    exact .unknownFlag hflag h hhelp herror hlist

theorem silent_argument_iff (hflag : ¬ IsFlag arg) {next : Option Bytes} :
    Silent setup done arg next ↔ arg ≠ [] ∧ setup.registered = false := by
  constructor
  · intro h
    cases h with
    | unknownFlag hyes => exact absurd hyes hflag
    | argument _ hne hlist => exact ⟨hne, hlist⟩
    | boolValue hfirst => exact absurd hfirst.named.isFlag hflag
    | boolFlag hfirst => exact absurd hfirst.named.isFlag hflag
  · rintro ⟨hne, hlist⟩
    exact .argument hflag hne hlist

theorem not_silentAfter_nil : ¬ SilentAfter setup done [] := by
  rintro ⟨items, arg, rest, hreads, -⟩
  cases hreads

/-- No reading goes past an argument at which no item can stand. -/
theorem silentAfter_of_no_item {argv : List Bytes} (hdone : Unrepeated setup done)
    (hnone : ∀ item two, ItemAt setup arg argv.head? item two →
      ¬ Unrepeated setup (done ++ [item])) :
    SilentAfter setup done (arg :: argv) ↔ Silent setup done arg argv.head? := by
  constructor
  · rintro ⟨items, arg', rest, hreads, hitems, hsilent⟩
    rcases readsTo_cons_iff.mp hreads with ⟨rfl, heq⟩ | ⟨item, two, items', hitem, rfl, -⟩
    · cases heq
      rwa [List.append_nil] at hsilent
    · rw [List.append_cons] at hitems
      exact absurd hitems.of_append (hnone item two hitem)
  · intro hsilent
    refine ⟨[], arg, argv, .nil _, ?_⟩
    rw [List.append_nil]
    exact ⟨hdone, hsilent⟩

/-- An item that is the only one there is the first one of every reading. -/
theorem silentAfter_cons_iff {argv : List Bytes} {item : Item} {two : Bool}
    (hexact : ∀ item' two', ItemAt setup arg argv.head? item' two' ↔ item' = item ∧ two' = two)
    (hloud : ¬ Silent setup done arg argv.head?) :
    SilentAfter setup done (arg :: argv) ↔
      SilentAfter setup (done ++ [item]) (if two then argv.tail else argv) := by
  constructor
  · rintro ⟨items, arg', rest, hreads, hend⟩
    rcases readsTo_cons_iff.mp hreads with ⟨rfl, heq⟩ | ⟨item', two', items', hitem', rfl, hrest⟩
    · cases heq
      rw [List.append_nil] at hend
      exact absurd hend.2 hloud
    · obtain ⟨rfl, rfl⟩ := (hexact _ _).mp hitem'
      rw [List.append_cons] at hend
      exact ⟨items', arg', rest, hrest, hend⟩
  · rintro ⟨items, arg', rest, hreads, hend⟩
    rw [← List.append_cons] at hend
    have hitem := (hexact _ _).mpr ⟨rfl, rfl⟩
    exact ⟨item :: items, arg', rest,
      readsTo_cons_iff.mpr (.inr ⟨item, two, items, hitem, rfl, hreads⟩), hend⟩

end Inversion

namespace Parser

/-- A turn that fails leaves the error text empty exactly at the silent
arguments, and any other turn is at none of them. -/
def Tells (p : Parser) (done : List Item) (arg : Bytes) (following : Option Bytes) : Turn → Prop
  | .fail q => q.error = [] ↔ Silent p.setup done arg following
  | .one _ _ => ¬ Silent p.setup done arg following
  | .two _ _ => ¬ Silent p.setup done arg following

section Turn

variable {p : Parser} {done : List Item} {parsed : List Bytes} {arg : Bytes}
  {following : Option Bytes} {v : BasicVariable} {i : Nat}

theorem Tells.loud (q : Parser) {error : Bytes} (herror : error ≠ [])
    (hloud : ¬ Silent p.setup done arg following) :
    p.Tells done arg following (q.reject error) :=
  iff_of_false herror hloud

theorem Tells.silent (q : Parser) (hsilent : Silent p.setup done arg following) :
    p.Tells done arg following (q.reject (p.after done).error) :=
  iff_of_true rfl hsilent

theorem argumentTurn_tells
    (hsilent : Silent p.setup done arg following ↔ p.setup.registered = false) :
    p.Tells done arg following ((p.after done).argumentTurn parsed arg) := by
  unfold argumentTurn
  split
  · next hnone =>
    have harguments : p.arguments = none := hnone
    exact .silent _ (hsilent.mpr (by simp [setup, harguments]))
  · next vector hvector =>
    have harguments : p.arguments = some vector := hvector
    have hlist : ¬ p.setup.registered = false := by simp [setup, harguments]
    exact fun h => hlist (hsilent.mp h)

theorem unknownTurn_tells (hflag : IsFlag arg) (hunclaimed : Unclaimed p.setup arg) :
    p.Tells done arg following ((p.after done).unknownTurn parsed (arg.drop 1) arg) := by
  have hiff : Silent p.setup done arg following ↔ _ := hunclaimed.silent_iff hflag
  unfold unknownTurn
  split
  · next hhelp => exact fun h => (hiff.mp h).1 ((isHelp_iff hflag).mp hhelp)
  · next hhelp =>
    rw [isHelp_iff hflag] at hhelp
    split
    · next herror =>
      refine .loud _ (List.append_ne_nil_of_right_ne_nil _ (by decide)) fun h => ?_
      have hoff : (p.after done).errorOnFlag = false := (hiff.mp h).2.1
      rw [hoff] at herror
      cases herror
    · next herror =>
      refine argumentTurn_tells ?_
      have hoff : p.setup.errorOnFlag = false := (Bool.not_eq_true _).mp herror
      rw [hiff, and_iff_right hhelp, and_iff_right hoff]

variable (hparsed : GivenFor p.setup done parsed) (hfirst : First p.setup arg i v.declaration)

include hparsed hfirst

theorem isRepeated_iff_given : isRepeated v parsed = true ↔
    v.declaration.multiple = false ∧ v.declaration.longname ∈ givenNames p.setup done := by
  rw [← hparsed i v.declaration hfirst.at_position]
  simp [isRepeated, BasicVariable.declaration]

theorem valueTurn_tells {text repeatedError : Bytes} (name : Bytes)
    (hdash : v.isBool = true → text.head? ≠ some dash)
    (hrepeated : repeatedError = [] ↔ v.isBool = true) :
    p.Tells done arg (some text) ((p.after done).valueTurn parsed name i v text repeatedError) := by
  have hagain := isRepeated_iff_given hparsed hfirst
  have hiff : Silent p.setup done arg (some text) ↔
      v.isBool = true ∧ isRepeated v parsed = true ∧ v.declaration.accepts text = true := by
    rw [hfirst.silent_iff, hagain]
    constructor
    · rintro ⟨⟨hbool, hgiven⟩, ⟨text', htext, -, hvalid⟩ | hnext⟩
      · obtain rfl := Option.some.inj htext
        exact ⟨hbool, hgiven, hvalid⟩
      · exact absurd (hnext text rfl) (hdash hbool)
    · rintro ⟨hbool, hgiven, hvalid⟩
      exact ⟨⟨hbool, hgiven⟩, .inl ⟨text, rfl, hdash hbool, hvalid⟩⟩
  unfold valueTurn
  rw [BasicVariable.setValue_fst]
  split
  · next hinvalid =>
    have htext : text ++ literal " is not a valid value for variable " ≠ [] :=
      List.append_ne_nil_of_right_ne_nil _ (by decide)
    refine .loud _ (List.append_ne_nil_of_left_ne_nil htext _) fun h => ?_
    rw [hiff, hinvalid] at h
    exact absurd h.2.2 Bool.false_ne_true
  · next hvalid =>
    split
    · next hrep =>
      show repeatedError = [] ↔ _
      rw [hrepeated, hiff]
      exact ⟨fun hbool => ⟨hbool, hrep, by simpa using hvalid⟩, fun h => h.1⟩
    · next hnew => exact fun h => hnew (hiff.mp h).2.1

theorem boolTurn_tells (hbool : v.isBool = true)
    (hnext : ∀ text, following = some text → text.head? = some dash) :
    p.Tells done arg following ((p.after done).boolTurn parsed i v) := by
  have hagain := isRepeated_iff_given hparsed hfirst
  have hiff : Silent p.setup done arg following ↔ isRepeated v parsed = true := by
    rw [hfirst.silent_iff, hagain]
    exact ⟨fun h => h.1.2, fun h => ⟨⟨hbool, h⟩, .inr hnext⟩⟩
  unfold boolTurn
  split
  · next hrep => exact .silent _ (hiff.mpr hrep)
  · next hnew => exact fun h => hnew (hiff.mp h)

theorem variableTurn_tells (name : Bytes) :
    p.Tells done arg following ((p.after done).variableTurn parsed name i v following) := by
  unfold variableTurn
  split
  · next text hbool =>
    split
    · next hdash => exact valueTurn_tells hparsed hfirst name (fun _ => hdash) (iff_of_true rfl hbool)
    · next hdash =>
      refine boolTurn_tells hparsed hfirst hbool fun text' htext => ?_
      obtain rfl := Option.some.inj htext
      exact not_not.mp hdash
  · next hbool => exact boolTurn_tells hparsed hfirst hbool fun text htext => by cases htext
  · next text hbool =>
    refine valueTurn_tells hparsed hfirst name (by simp [hbool]) (iff_of_false ?_ (by simp [hbool]))
    exact List.append_ne_nil_of_right_ne_nil _ (by decide)
  · next hbool =>
    refine .loud _ (List.append_ne_nil_of_right_ne_nil _ (by decide)) fun h => ?_
    have hbool' : v.declaration.isBool = true := (hfirst.silent_iff.mp h).1.1
    rw [show v.declaration.isBool = v.isBool from rfl, hbool] at hbool'
    cases hbool'

end Turn

theorem turn_tells {p : Parser} {done : List Item} {parsed : List Bytes}
    (hparsed : GivenFor p.setup done parsed) (arg : Bytes) (following : Option Bytes) :
    p.Tells done arg following ((p.after done).turn parsed arg following) := by
  unfold turn
  split
  · next hflag =>
    rw [← isFlag_iff] at hflag
    split
    · next hnone => exact unknownTurn_tells hflag (find?_none_unclaimed hflag hnone)
    · next v i hsome => exact variableTurn_tells hparsed (find?_some_first hflag hsome).2 _
  · next hflag =>
    rw [← isFlag_iff] at hflag
    split
    · next hne =>
      refine argumentTurn_tells ?_
      rw [silent_argument_iff hflag, and_iff_right hne]
    · next hempty =>
      have hloud : ¬ Silent p.setup done arg following := by
        rw [silent_argument_iff hflag]
        exact fun h => hempty h.1
      have htext : literal "parsing empty string not possible!" ≠ [] := by decide
      exact iff_of_false htext hloud

theorem error_checkRequired {p : Parser} (herror : p.error = []) :
    p.checkRequired.2.error = [] ↔ p.checkRequired.1 = .SUCCESS := by
  unfold checkRequired
  split
  · have htext : ∀ name : Bytes,
        literal "Variable " ++ name ++ literal " required, but not set." ≠ [] :=
      fun name => List.append_ne_nil_of_right_ne_nil _ (by decide)
    exact iff_of_false (htext _) fun h => by cases h
  · exact iff_of_true herror rfl

/-- Behind items that it has read, the loop tells what is wrong exactly when the
rest does not lead to a silent argument. -/
theorem parseLoop_tells {p : Parser} {done : List Item} {parsed : List Bytes}
    (hdone : Unrepeated p.setup done) (hparsed : GivenFor p.setup done parsed) (argv : List Bytes) :
    (((p.after done).parseLoop parsed argv).2.error = [] ↔
        ((p.after done).parseLoop parsed argv).1 = .SUCCESS) ↔
      ¬ SilentAfter p.setup done argv := by
  induction hn : argv.length using Nat.strongRecOn generalizing argv done parsed with
  | ind n ih =>
    cases argv with
    | nil => exact iff_of_true (error_checkRequired rfl) not_silentAfter_nil
    | cons arg argv =>
      have htells := turn_tells hparsed arg argv.head?
      rcases turn_reads hdone hparsed arg argv.head? with
        ⟨q, hfail, -, -, hnone⟩ | ⟨item, two, parsed', hexact, hdone', hparsed', hnext⟩
      · rw [hfail] at htells
        have herror : q.error = [] ↔ Silent p.setup done arg argv.head? := htells
        rw [parseLoop_cons, hfail, silentAfter_of_no_item hdone hnone, ← herror]
        simp
      · have hloud : ¬ Silent p.setup done arg argv.head? := by
          rw [hnext] at htells
          cases two with
          | false => exact htells
          | true => exact htells
        rw [parseLoop_next hnext, silentAfter_cons_iff hexact hloud]
        exact ih _ (hn ▸ length_rest_lt two arg argv) hdone' hparsed' _ rfl

/-- Every failure is explained exactly when reading the line does not lead to a
silent argument: for all variables, settings and argument lines, the error text
is empty exactly on success, unless the line gets to an argument for a list that
is not registered or to the repetition of a bool. -/
theorem getLastParserError_eq_nil_iff (p : Parser) (argv : List Bytes) :
    ((p.parseArguments argv).2.getLastParserError = [] ↔
        (p.parseArguments argv).1 = .SUCCESS) ↔ ¬ EndsSilently p.setup argv := by
  have htells := parseLoop_tells (unrepeated_nil p.setup) (givenFor_nil p.setup) argv
  rw [after_nil] at htells
  exact htells

/-- A bool `--verbose`, `-v` and no list. -/
def verboseOnly : Parser where
  variableList :=
    [.new (BasicVariable.extractBool fun _ => (false, false)) true (literal "verbose") (literal "v")
      false false false]
  error := []
  errorOnFlag := true
  help := false
  arguments := none
  vectors _ := []

/-- An argument with no list for it, and a bool that is given twice. -/
theorem getLastParserError_silent :
    (verboseOnly.parseArguments [literal "x"]).1 = .INVALID_USAGE ∧
      (verboseOnly.parseArguments [literal "x"]).2.getLastParserError = [] ∧
      (verboseOnly.parseArguments [literal "-v", literal "-v"]).1 = .INVALID_USAGE ∧
      (verboseOnly.parseArguments [literal "-v", literal "-v"]).2.getLastParserError = [] := by
  decide

end Parser

end clockUtils.argParser
