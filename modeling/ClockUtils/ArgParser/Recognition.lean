import ClockUtils.ArgParser.Turn

namespace clockUtils.argParser

open BasicVariable (Declaration)

namespace Parser

theorem requiredGiven_iff (p : Parser) (items : List Item) :
    RequiredGiven p.setup items ↔
      ∀ v ∈ (p.after items).variableList,
        ¬ (!(p.after items).help && v.required && !v.set) = true := by
  unfold RequiredGiven
  by_cases hhelp : Item.help ∈ items
  · simp [hhelp, after]
  · have hnone : (p.after items).help = false := decide_eq_false hhelp
    simp only [hhelp, false_or, hnone, Bool.not_false, Bool.true_and, Bool.and_eq_true,
      Bool.not_eq_true', not_and]
    have hset : ∀ (v : BasicVariable) (i : Nat),
        ¬ (v.holding (textsFor items i)).set = false ↔ textsFor items i ≠ [] := by
      intro v i
      rw [Bool.not_eq_false, v.set_holding]
    have hrequired : ∀ (v : BasicVariable) (i : Nat),
        (v.holding (textsFor items i)).required = v.declaration.required := by
      intro v i
      exact congrArg Declaration.required (v.declaration_holding (textsFor items i))
    constructor
    · intro h v hv
      obtain ⟨i, hi⟩ := List.mem_iff_getElem?.mp hv
      rw [getElem?_after, Option.map_eq_some_iff] at hi
      obtain ⟨w, hw, rfl⟩ := hi
      rw [hset, hrequired]
      apply h i w.declaration
      rw [setup, List.getElem?_map, hw]
      rfl
    · intro h i d hd
      rw [setup, List.getElem?_map, Option.map_eq_some_iff] at hd
      obtain ⟨w, hw, rfl⟩ := hd
      have hmem : w.holding (textsFor items i) ∈ (p.after items).variableList := by
        apply List.mem_of_getElem?
        rw [getElem?_after, hw]
        rfl
      have hgiven := h _ hmem
      rwa [hset, hrequired] at hgiven

theorem checkRequired_after (p : Parser) (items : List Item) :
    RequiredGiven p.setup items ∧
        (p.after items).checkRequired = (.SUCCESS, { p.after items with arguments := none }) ∨
      ¬ RequiredGiven p.setup items ∧ (p.after items).checkRequired.1 = .INVALID_USAGE := by
  unfold checkRequired
  split
  · next v hfind =>
    have hmissing := List.find?_some hfind
    refine .inr ⟨fun hgiven => ?_, rfl⟩
    exact (requiredGiven_iff p items).mp hgiven v (List.mem_of_find?_eq_some hfind) hmissing
  · next hnone => exact .inl ⟨(requiredGiven_iff p items).mpr (List.find?_eq_none.mp hnone), rfl⟩

theorem parseLoop_cons (p : Parser) (parsed : List Bytes) (arg : Bytes) (argv : List Bytes) :
    p.parseLoop parsed (arg :: argv) =
      match p.turn parsed arg argv.head? with
      | .fail q => (.INVALID_USAGE, q)
      | .one q parsed => q.parseLoop parsed argv
      | .two q parsed => q.parseLoop parsed argv.tail := by
  cases argv with
  | nil =>
    rw [parseLoop, List.head?_nil]
    cases p.turn parsed arg none <;> rfl
  | cons next argv =>
    rw [parseLoop]
    rfl

theorem parseLoop_next {p q : Parser} {parsed parsed' : List Bytes} {arg : Bytes}
    {argv : List Bytes} {two : Bool} (h : p.turn parsed arg argv.head? = next two q parsed') :
    p.parseLoop parsed (arg :: argv) = q.parseLoop parsed' (if two then argv.tail else argv) := by
  rw [parseLoop_cons, h]
  cases two <;> rfl

theorem length_rest_lt (two : Bool) (arg : Bytes) (argv : List Bytes) :
    (if two then argv.tail else argv).length < (arg :: argv).length := by
  rw [List.length_cons]
  split
  · rw [List.length_tail]
    omega
  · omega

/-- The loop behind items it has read: it succeeds exactly when the rest splits
into items with which every condition holds. -/
theorem parseLoop_spec {p : Parser} (hnames : (p.setup.declarations.map Declaration.longname).Nodup)
    {done : List Item} {parsed : List Bytes} (hsingle : Single p.setup done)
    (hparsed : ParsedFor p.setup done parsed) (argv : List Bytes) :
    (∃ items, Splits p.setup argv items ∧ Single p.setup (done ++ items) ∧
        RequiredGiven p.setup (done ++ items) ∧
        (p.after done).parseLoop parsed argv =
          (.SUCCESS, { p.after (done ++ items) with arguments := none })) ∨
      (∀ items, Splits p.setup argv items →
        ¬ (Single p.setup (done ++ items) ∧ RequiredGiven p.setup (done ++ items))) ∧
        ((p.after done).parseLoop parsed argv).1 = .INVALID_USAGE := by
  induction hn : argv.length using Nat.strongRecOn generalizing argv done parsed with
  | ind n ih =>
    cases argv with
    | nil =>
      rcases checkRequired_after p done with ⟨hgiven, hcheck⟩ | ⟨hmissing, hcheck⟩
      · refine .inl ⟨[], .nil, ?_⟩
        rw [List.append_nil]
        exact ⟨hsingle, hgiven, hcheck⟩
      · refine .inr ⟨fun items hsplits => ?_, hcheck⟩
        rw [splits_nil_iff.mp hsplits, List.append_nil]
        exact fun h => hmissing h.2
    | cons arg argv =>
      rcases turn_for hnames rfl hsingle hparsed arg argv.head? with ⟨q, hfail, hnone⟩ | ⟨item, two, parsed', hexact, hsingle', hparsed', hnext⟩
      · refine .inr ⟨fun items hsplits hgood => ?_, by rw [parseLoop_cons, hfail]⟩
        obtain ⟨item, two, rest, hitem, rfl, -⟩ := splits_cons_iff.mp hsplits
        rw [List.append_cons] at hgood
        exact hnone item two hitem hgood.1.of_append
      · rw [parseLoop_next hnext]
        have hshort : (if two then argv.tail else argv).length < n := hn ▸ length_rest_lt two arg argv
        rcases ih _ hshort hsingle' hparsed' _ rfl with ⟨items, hsplits, hgood⟩ | ⟨hnone, hcall⟩
        · refine .inl ⟨item :: items, ?_, ?_⟩
          · exact splits_cons_iff.mpr ⟨item, two, items, (hexact _ _).mpr ⟨rfl, rfl⟩, rfl, hsplits⟩
          · rwa [List.append_cons]
        · refine .inr ⟨fun items hsplits => ?_, hcall⟩
          obtain ⟨item', two', rest, hitem, rfl, hrest⟩ := splits_cons_iff.mp hsplits
          obtain ⟨rfl, rfl⟩ := (hexact _ _).mp hitem
          rw [List.append_cons]
          exact hnone rest hrest

/-- The two outcomes of a call. -/
theorem parseArguments_spec {p : Parser}
    (hnames : (p.variableList.map BasicVariable.longname).Nodup) (argv : List Bytes) :
    (∃ items, Splits p.setup argv items ∧ Single p.setup items ∧ RequiredGiven p.setup items ∧
        p.parseArguments argv = (.SUCCESS, { p.after items with arguments := none })) ∨
      (∀ items, Splits p.setup argv items →
        ¬ (Single p.setup items ∧ RequiredGiven p.setup items)) ∧
        (p.parseArguments argv).1 = .INVALID_USAGE := by
  have hdeclarations : (p.setup.declarations.map Declaration.longname).Nodup := by
    unfold setup
    rwa [List.map_map]
  have hnothing : Single p.setup [] := fun i d _ _ => Nat.zero_le 1
  have hparsed : ParsedFor p.setup [] [] := by
    intro i d _
    simp [textsFor]
  have hspec := parseLoop_spec hdeclarations hnothing hparsed argv
  rw [after_nil] at hspec
  exact hspec

/-- `parseArguments` recognises its argument grammar: it succeeds exactly when
the arguments split into items such that no variable occurs twice unless it is
`multiple` and every required one occurs unless help was given, and returns
`INVALID_USAGE` otherwise. On success each variable holds the values that the
items give to it: `count` and `at` see these values in their order, and the default
value if there are none. -/
theorem parseArguments_recognises (p : Parser)
    (hnames : (p.variableList.map BasicVariable.longname).Nodup) (argv : List Bytes) :
    ((p.parseArguments argv).1 = .SUCCESS ↔ ∃ items, Splits p.setup argv items ∧
        Single p.setup items ∧ RequiredGiven p.setup items) ∧
      ((p.parseArguments argv).1 ≠ .SUCCESS → (p.parseArguments argv).1 = .INVALID_USAGE) ∧
      ((p.parseArguments argv).1 = .SUCCESS → ∃ items, Splits p.setup argv items ∧
        (p.parseArguments argv).2 = { p.after items with arguments := none } ∧
        ∀ (i : Nat) (v : BasicVariable) (vals : List v.T), p.variableList[i]? = some v →
          List.Forall₂ (fun text val => v.extract text = .valid val) (textsFor items i) vals →
          (p.parseArguments argv).2.variableList[i]? = some (v.given vals) ∧
            ((v.given vals).set = true ↔ vals ≠ []) ∧
            (v.given vals).count = max 1 vals.length ∧
            ∀ idx val, (v.given vals).valueAt idx = .ok val ↔
              (if vals = [] then [v.defaultValue] else vals)[idx]? = some val) := by
  rcases parseArguments_spec hnames argv with ⟨items, hsplits, hsingle, hgiven, hcall⟩ | ⟨hnone, hcall⟩
  · rw [hcall]
    refine ⟨⟨fun _ => ⟨items, hsplits, hsingle, hgiven⟩, fun _ => rfl⟩, fun h => absurd rfl h, ?_⟩
    intro _
    refine ⟨items, hsplits, rfl, fun i v vals hv hvals => ?_⟩
    refine ⟨?_, decide_eq_true_iff, v.count_given vals, v.valueAt_given_eq_ok_iff vals⟩
    rw [getElem?_after, hv, Option.map_some, v.holding_eq hvals]
  · rw [hcall]
    have hfailed : ClockError.INVALID_USAGE ≠ .SUCCESS := by decide
    refine ⟨⟨fun h => absurd h hfailed, ?_⟩, fun _ => rfl, fun h => absurd h hfailed⟩
    rintro ⟨items, hsplits, hgood⟩
    exact absurd hgood (hnone items hsplits)

/-- A required string `--name`, `-n` and a bool `--verbose`, `-v` -/
def nameAndVerbose : Parser where
  variableList :=
    [.new BasicVariable.extractString false (literal "name") (literal "n") [] true false,
      .new (BasicVariable.extractBool fun _ => (false, false)) true (literal "verbose") (literal "v")
        false false false]
  error := []
  errorOnFlag := true
  help := false
  arguments := none
  vectors _ := []

/-- The arguments `-v --name -v`, where the second `-v` is the name. -/
theorem parseArguments_recognises_name :
    ∃ items, Splits nameAndVerbose.setup [literal "-v", literal "--name", literal "-v"] items ∧
      Single nameAndVerbose.setup items ∧ RequiredGiven nameAndVerbose.setup items :=
  (parseArguments_recognises nameAndVerbose (by decide) _).1.mp rfl

end Parser

end clockUtils.argParser
