import ClockUtils.ArgParser.Recognition

namespace clockUtils.argParser

/-- Reading the line gets to an empty argument, or to the end without a
required variable. -/
def LeavesList (setup : Setup) (argv : List Bytes) : Prop :=
  ∃ items rest, ReadsTo setup argv items rest ∧ Unrepeated setup items ∧
    (rest.head? = some [] ∨ rest = [] ∧ ¬ RequiredGiven setup items)

/-- The same behind items that were read before. -/
def LeavesAfter (setup : Setup) (done : List Item) (argv : List Bytes) : Prop :=
  ∃ items rest, ReadsTo setup argv items rest ∧ Unrepeated setup (done ++ items) ∧
    (rest.head? = some [] ∨ rest = [] ∧ ¬ RequiredGiven setup (done ++ items))

theorem ItemAt.ne_nil {setup : Setup} {arg : Bytes} {next : Option Bytes} {item : Item} {two : Bool}
    (h : ItemAt setup arg next item two) : arg ≠ [] := by
  cases h with
  | value hfirst => exact hfirst.named.isFlag.ne_nil
  | boolValue hfirst => exact hfirst.named.isFlag.ne_nil
  | boolFlag hfirst => exact hfirst.named.isFlag.ne_nil
  | help _ hhelp => exact hhelp.isFlag.ne_nil
  | unknownFlag hflag => exact hflag.ne_nil
  | argument _ hne => exact hne

theorem leavesAfter_nil_iff {setup : Setup} {done : List Item} (hdone : Unrepeated setup done) :
    LeavesAfter setup done [] ↔ ¬ RequiredGiven setup done := by
  constructor
  · rintro ⟨items, rest, hreads, -, hstop⟩
    cases hreads
    rw [List.append_nil] at hstop
    simpa using hstop
  · intro hmissing
    refine ⟨[], [], .nil _, ?_⟩
    rw [List.append_nil]
    exact ⟨hdone, .inr ⟨rfl, hmissing⟩⟩

theorem leavesAfter_empty_argument {setup : Setup} {done : List Item} (hdone : Unrepeated setup done)
    (argv : List Bytes) : LeavesAfter setup done ([] :: argv) := by
  refine ⟨[], [] :: argv, .nil _, ?_, .inl rfl⟩
  rwa [List.append_nil]

/-- No reading goes past an argument at which no item can stand. -/
theorem not_leavesAfter_of_no_item {setup : Setup} {done : List Item} {arg : Bytes} (hne : arg ≠ [])
    {argv : List Bytes} (hnone : ∀ item two, ItemAt setup arg argv.head? item two →
      ¬ Unrepeated setup (done ++ [item])) : ¬ LeavesAfter setup done (arg :: argv) := by
  rintro ⟨items, rest, hreads, hitems, hstop⟩
  rcases readsTo_cons_iff.mp hreads with ⟨rfl, rfl⟩ | ⟨item, two, items', hitem, rfl, -⟩
  · simp [hne] at hstop
  · rw [List.append_cons] at hitems
    exact hnone item two hitem hitems.of_append

/-- An item that is the only one there is the first one of every reading. -/
theorem leavesAfter_cons_iff {setup : Setup} {done : List Item} {arg : Bytes} {argv : List Bytes}
    {item : Item} {two : Bool} (hexact : ∀ item' two', ItemAt setup arg argv.head? item' two' ↔
      item' = item ∧ two' = two) :
    LeavesAfter setup done (arg :: argv) ↔
      LeavesAfter setup (done ++ [item]) (if two then argv.tail else argv) := by
  have hitem : ItemAt setup arg argv.head? item two := (hexact _ _).mpr ⟨rfl, rfl⟩
  constructor
  · rintro ⟨items, rest, hreads, hstop⟩
    rcases readsTo_cons_iff.mp hreads with ⟨rfl, rfl⟩ | ⟨item', two', items', hitem', rfl, hrest⟩
    · simp [hitem.ne_nil] at hstop
    · obtain ⟨rfl, rfl⟩ := (hexact _ _).mp hitem'
      rw [List.append_cons] at hstop
      exact ⟨items', rest, hrest, hstop⟩
  · rintro ⟨items, rest, hreads, hstop⟩
    rw [← List.append_cons] at hstop
    exact ⟨item :: items, rest, readsTo_cons_iff.mpr (.inr ⟨item, two, items, hitem, rfl, hreads⟩),
      hstop⟩

namespace Parser

theorem vectors_checkRequired (p : Parser) : p.checkRequired.2.vectors = p.vectors := by
  unfold checkRequired
  split <;> rfl

theorem arguments_checkRequired {p : Parser} (h : p.checkRequired.1 = .INVALID_USAGE) :
    p.checkRequired.2.arguments = p.arguments := by
  unfold checkRequired at h ⊢
  split
  · rfl
  · next hnone => simp [hnone] at h

theorem vectorsAfter_of_ne {p : Parser} (args : List Bytes) {vector : Nat}
    (h : p.arguments ≠ some vector) : p.vectorsAfter args vector = p.vectors vector := by
  unfold vectorsAfter
  cases harguments : p.arguments with
  | none => rfl
  | some vector' =>
    have hne : vector ≠ vector' := by
      rintro rfl
      exact h harguments
    exact Function.update_of_ne hne _ _

/-- Behind items that it has read, the loop keeps `arguments` registered
exactly when the rest leads to one of the two exits that do not reset it, and
appends to no other vector. -/
theorem parseLoop_list {p : Parser} {done : List Item} {parsed : List Bytes}
    (hdone : Unrepeated p.setup done) (hparsed : GivenFor p.setup done parsed) (argv : List Bytes) :
    (∃ args, ((p.after done).parseLoop parsed argv).2.vectors = p.vectorsAfter args) ∧
      (LeavesAfter p.setup done argv ∧
          ((p.after done).parseLoop parsed argv).2.arguments = p.arguments ∨
        ¬ LeavesAfter p.setup done argv ∧
          ((p.after done).parseLoop parsed argv).2.arguments = none) := by
  induction hn : argv.length using Nat.strongRecOn generalizing argv done parsed with
  | ind n ih =>
    cases argv with
    | nil =>
      refine ⟨⟨argumentsOf done, vectors_checkRequired _⟩, ?_⟩
      rw [leavesAfter_nil_iff hdone]
      rcases checkRequired_after p done with ⟨hgiven, hcheck⟩ | ⟨hmissing, hcheck⟩
      · exact .inr ⟨not_not.mpr hgiven, by rw [parseLoop, hcheck]⟩
      · exact .inl ⟨hmissing, arguments_checkRequired hcheck⟩
    | cons arg argv =>
      rcases turn_reads hdone hparsed arg argv.head? with
        ⟨q, hfail, hkept, hvectors, hnone⟩ | ⟨item, two, parsed', hexact, hdone', hparsed', hnext⟩
      · rw [parseLoop_cons, hfail]
        refine ⟨⟨argumentsOf done, hvectors⟩, ?_⟩
        by_cases hempty : arg = []
        · subst hempty
          exact .inl ⟨leavesAfter_empty_argument hdone argv, hkept⟩
        · rw [if_neg hempty] at hkept
          exact .inr ⟨not_leavesAfter_of_no_item hempty hnone, hkept⟩
      · rw [parseLoop_next hnext, leavesAfter_cons_iff hexact]
        exact ih _ (hn ▸ length_rest_lt two arg argv) hdone' hparsed' _ rfl

theorem unrepeated_nil (s : Setup) : Unrepeated s [] := by
  intro before item hinitial
  simp at hinitial

theorem givenFor_nil (s : Setup) : GivenFor s [] [] := by
  intro i d _
  simp [givenNames]

theorem parseArguments_list (p : Parser) (argv : List Bytes) :
    (∃ args, (p.parseArguments argv).2.vectors = p.vectorsAfter args) ∧
      ((p.parseArguments argv).2.arguments = none ↔
        p.arguments = none ∨ ¬ LeavesList p.setup argv) := by
  have hlist := parseLoop_list (unrepeated_nil p.setup) (givenFor_nil p.setup) argv
  rw [after_nil] at hlist
  refine ⟨hlist.1, ?_⟩
  rcases hlist.2 with ⟨hleaves, hkept⟩ | ⟨hresets, hnone⟩
  · have hleaves' : LeavesList p.setup argv := hleaves
    rw [show (p.parseArguments argv).2.arguments = p.arguments from hkept]
    simp [hleaves']
  · exact ⟨fun _ => .inr hresets, fun _ => hnone⟩

end Parser

/-- What a program does with argument lists. A parse comes with the variables
and the setting for unknown flags that are current then. -/
inductive ListEvent where
  /-- `ArgumentList::ArgumentList` with the vector at this address -/
  | constructs (vector : Nat)
  /-- `ArgumentList::~ArgumentList` -/
  | destroys
  | parses (variableList : List BasicVariable) (errorOnFlag : Bool) (argv : List Bytes)

namespace Parser

/-- The static members when the program starts. -/
def initial : Parser where
  variableList := []
  error := []
  errorOnFlag := true
  help := false
  arguments := none
  vectors _ := []

/-- The state in which a parse is called. -/
def calledWith (p : Parser) (variableList : List BasicVariable) (errorOnFlag : Bool) : Parser :=
  { p with variableList := variableList, errorOnFlag := errorOnFlag }

def step (p : Parser) : ListEvent → Parser
  | .constructs vector =>
    { p with vectors := Function.update p.vectors vector [] }.registerArgumentsVector (some vector)
  | .destroys => p.registerArgumentsVector none
  | .parses variableList errorOnFlag argv =>
    ((p.calledWith variableList errorOnFlag).parseArguments argv).2

def run (p : Parser) (events : List ListEvent) : Parser :=
  events.foldl step p

end Parser

/-- The vectors that were registered behind the last parse. -/
def registeredSinceParse (events : List ListEvent) : List Nat :=
  events.foldl (fun vectors event =>
    match event with
    | .constructs vector => vector :: vectors
    | .destroys => vectors
    | .parses _ _ _ => []) []

namespace Parser

/-- Every parse of the run resets `arguments`: nothing is registered when it is
called, or its line leads to one of the exits that do. -/
def AllReset (events : List ListEvent) : Prop :=
  ∀ done variableList errorOnFlag argv,
    done ++ [.parses variableList errorOnFlag argv] <+: events →
      (initial.run done).arguments = none ∨
        ¬ LeavesList ((initial.run done).calledWith variableList errorOnFlag).setup argv

theorem AllReset.of_prefix {events events' : List ListEvent} (h : AllReset events')
    (hinitial : events <+: events') : AllReset events :=
  fun done variableList errorOnFlag argv hdone =>
    h done variableList errorOnFlag argv (hdone.trans hinitial)

theorem AllReset.concat {events : List ListEvent} (h : AllReset events) {event : ListEvent}
    (hevent : ∀ variableList errorOnFlag argv, event = .parses variableList errorOnFlag argv →
      (initial.run events).arguments = none ∨
        ¬ LeavesList ((initial.run events).calledWith variableList errorOnFlag).setup argv) :
    AllReset (events ++ [event]) := by
  intro done variableList errorOnFlag argv hdone
  rcases List.prefix_concat_iff.mp hdone with heq | hdone
  · obtain ⟨rfl, hparse⟩ := List.append_inj' heq rfl
    exact hevent variableList errorOnFlag argv (by simpa using hparse.symm)
  · exact h done variableList errorOnFlag argv hdone

theorem run_concat (events : List ListEvent) (event : ListEvent) :
    initial.run (events ++ [event]) = (initial.run events).step event := by
  rw [run, List.foldl_append]
  rfl

/-- What is registered was registered behind the last parse: only the last event of a run
decides about it. -/
theorem registered_since_parse {events : List ListEvent} (h : AllReset events) {vector : Nat}
    (hvector : (initial.run events).arguments = some vector) :
    vector ∈ registeredSinceParse events := by
  rcases List.eq_nil_or_concat' events with rfl | ⟨before, event, rfl⟩
  · cases hvector
  · rw [run_concat] at hvector
    rw [registeredSinceParse, List.foldl_append]
    cases event with
    | constructs vector' =>
      obtain rfl : vector' = vector := Option.some.inj hvector
      exact List.mem_cons_self
    | destroys => cases hvector
    | parses variableList errorOnFlag argv =>
      have hreset := (parseArguments_list
        ((initial.run before).calledWith variableList errorOnFlag) argv).2.mpr
          (h before variableList errorOnFlag argv List.prefix_rfl)
      rw [show (initial.run before).step (.parses variableList errorOnFlag argv) =
        (((initial.run before).calledWith variableList errorOnFlag).parseArguments argv).2 from rfl,
        hreset] at hvector
      cases hvector

/-- A parse leaves `arguments` null exactly when nothing was registered or
reading its line leads neither to an empty argument nor to the end without a
required variable; and in every run whose parses are all of this kind, a parse
appends only to a list that was registered behind the previous one. -/
theorem arguments_serve_one_parse (events : List ListEvent) :
    (∀ (p : Parser) (argv : List Bytes), (p.parseArguments argv).2.arguments = none ↔
        p.arguments = none ∨ ¬ LeavesList p.setup argv) ∧
      (AllReset events → ∀ done variableList errorOnFlag argv vector,
        done ++ [.parses variableList errorOnFlag argv] <+: events →
        (initial.run (done ++ [.parses variableList errorOnFlag argv])).vectors vector ≠
          (initial.run done).vectors vector →
        vector ∈ registeredSinceParse done) := by
  refine ⟨fun p argv => (parseArguments_list p argv).2, ?_⟩
  intro hall done variableList errorOnFlag argv vector hinitial hchanged
  apply registered_since_parse (hall.of_prefix ((List.prefix_append _ _).trans hinitial))
  obtain ⟨args, hvectors⟩ :=
    (parseArguments_list ((initial.run done).calledWith variableList errorOnFlag) argv).1
  rw [run_concat] at hchanged
  by_contra hother
  apply hchanged
  exact (congrFun hvectors vector).trans (vectorsAfter_of_ne args hother)

/-- Two parses of one argument each, with a list registered before each: the second
argument is appended to the second list and not to the first. -/
theorem arguments_serve_one_parse_twice :
    (initial.run [.constructs 1, .parses [] true [[120]], .constructs 2]).vectors 2 = [] ∧
      (initial.run [.constructs 1, .parses [] true [[120]], .constructs 2,
        .parses [] true [[121]]]).vectors 2 = [[121]] ∧
      (initial.run [.constructs 1, .parses [] true [[120]], .constructs 2,
        .parses [] true [[121]]]).vectors 1 = [[120]] ∧
      2 ∈ registeredSinceParse [.constructs 1, .parses [] true [[120]], .constructs 2] := by
  have hstart : AllReset [] := fun done _ _ _ hdone => by simp at hdone
  have hfirst : AllReset [.constructs 1] := hstart.concat fun _ _ _ h => by cases h
  have hparse : AllReset [.constructs 1, .parses [] true [[120]]] :=
    hfirst.concat fun variableList errorOnFlag argv h => by
      cases h
      exact (parseArguments_list _ [[120]]).2.mp rfl
  have hsecond : AllReset [.constructs 1, .parses [] true [[120]], .constructs 2] :=
    hparse.concat fun _ _ _ h => by cases h
  have hall : AllReset
      [.constructs 1, .parses [] true [[120]], .constructs 2, .parses [] true [[121]]] :=
    hsecond.concat fun variableList errorOnFlag argv h => by
      cases h
      exact (parseArguments_list _ [[121]]).2.mp rfl
  refine ⟨by decide, by decide, by decide, ?_⟩
  apply (arguments_serve_one_parse _).2 hall
    [.constructs 1, .parses [] true [[120]], .constructs 2] [] true [[121]] 2 List.prefix_rfl
  decide

/-- An empty argument and a missing required variable both leave the list
registered, and the next parse appends to it. -/
theorem arguments_stay_registered :
    (∃ p : Parser, (p.parseArguments [[]]).2.arguments ≠ none) ∧
      ∃ done variableList errorOnFlag argv vector,
        (initial.run (done ++ [.parses variableList errorOnFlag argv])).vectors vector ≠
          (initial.run done).vectors vector ∧
        vector ∉ registeredSinceParse done := by
  refine ⟨⟨initial.run [.constructs 1], by decide⟩, ?_⟩
  exact ⟨[.constructs 1, .parses [.new BasicVariable.extractString false (literal "name") [] [] true false]
    true []], [], true, [[120]], 1, by decide, by decide⟩

end Parser

end clockUtils.argParser
