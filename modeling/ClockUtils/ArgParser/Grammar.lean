import ClockUtils.ArgParser.Parser

namespace clockUtils.argParser

open BasicVariable (Declaration)

/-- An item of the argument line. Variables stand by their position in the list
of the registered ones. -/
inductive Item where
  | value (i : Nat) (text : Bytes)
  | flag (i : Nat)
  | help
  | argument (arg : Bytes)
  deriving DecidableEq

/-- What an argument line is read against. -/
structure Setup where
  declarations : List Declaration
  errorOnFlag : Bool
  registered : Bool

/-- A dash and something behind it. -/
def IsFlag (arg : Bytes) : Prop :=
  ∃ c rest, arg = dash :: c :: rest

/-- `--long` or `-short` -/
def Named (arg : Bytes) (d : Declaration) : Prop :=
  arg = dash :: dash :: d.longname ∨ d.shortname ≠ [] ∧ arg = dash :: d.shortname

/-- The first variable in the order of registration that the argument names. -/
structure First (setup : Setup) (arg : Bytes) (i : Nat) (d : Declaration) : Prop where
  at_position : setup.declarations[i]? = some d
  named : Named arg d
  first : ∀ j < i, ∀ d', setup.declarations[j]? = some d' → ¬ Named arg d'

def Unclaimed (setup : Setup) (arg : Bytes) : Prop :=
  ∀ d ∈ setup.declarations, ¬ Named arg d

def IsHelp (arg : Bytes) : Prop :=
  arg = literal "--help" ∨ arg = literal "-h"

/-- The items that can begin with an argument, given the next one; the last
component tells whether the next one belongs to the item. -/
inductive ItemAt (setup : Setup) (arg : Bytes) : Option Bytes → Item → Bool → Prop where
  | value {i : Nat} {d : Declaration} {text : Bytes} (hfirst : First setup arg i d)
      (hbool : d.isBool = false) (hvalid : d.accepts text = true) :
      ItemAt setup arg (some text) (.value i text) true
  | boolValue {i : Nat} {d : Declaration} {text : Bytes} (hfirst : First setup arg i d)
      (hbool : d.isBool = true) (hdash : text.head? ≠ some dash) (hvalid : d.accepts text = true) :
      ItemAt setup arg (some text) (.value i text) true
  | boolFlag {i : Nat} {d : Declaration} {next : Option Bytes} (hfirst : First setup arg i d)
      (hbool : d.isBool = true) (hnext : ∀ text, next = some text → text.head? = some dash) :
      ItemAt setup arg next (.flag i) false
  | help {next : Option Bytes} (hunclaimed : Unclaimed setup arg) (hhelp : IsHelp arg) :
      ItemAt setup arg next .help false
  | unknownFlag {next : Option Bytes} (hflag : IsFlag arg) (hunclaimed : Unclaimed setup arg)
      (hhelp : ¬ IsHelp arg) (herror : setup.errorOnFlag = false) (hlist : setup.registered = true) :
      ItemAt setup arg next (.argument arg) false
  | argument {next : Option Bytes} (hflag : ¬ IsFlag arg) (hne : arg ≠ [])
      (hlist : setup.registered = true) : ItemAt setup arg next (.argument arg) false

/-- An argument line is split into items from left to right. -/
inductive Splits (setup : Setup) : List Bytes → List Item → Prop where
  | nil : Splits setup [] []
  | one {arg : Bytes} {argv : List Bytes} {item : Item} {items : List Item}
      (hitem : ItemAt setup arg argv.head? item false) (hrest : Splits setup argv items) :
      Splits setup (arg :: argv) (item :: items)
  | two {arg next : Bytes} {argv : List Bytes} {item : Item} {items : List Item}
      (hitem : ItemAt setup arg (some next) item true) (hrest : Splits setup argv items) :
      Splits setup (arg :: next :: argv) (item :: items)

/-- The texts that the items give to a variable. -/
def textsFor (items : List Item) (i : Nat) : List Bytes :=
  items.filterMap fun
    | .value j text => if j = i then some text else none
    | .flag j => if j = i then some (literal "1") else none
    | .help => none
    | .argument _ => none

/-- The arguments for the registered list. -/
def argumentsOf (items : List Item) : List Bytes :=
  items.filterMap fun
    | .argument arg => some arg
    | _ => none

/-- No variable occurs twice unless it is `multiple`. -/
def Single (setup : Setup) (items : List Item) : Prop :=
  ∀ i d, setup.declarations[i]? = some d → d.multiple = false → (textsFor items i).length ≤ 1

/-- Every required variable occurs, unless help was given. -/
def RequiredGiven (setup : Setup) (items : List Item) : Prop :=
  .help ∈ items ∨ ∀ i d, setup.declarations[i]? = some d → d.required = true → textsFor items i ≠ []

/-- The variable to which an item gives a text. -/
def Item.target : Item → Option Nat
  | .value i _ => some i
  | .flag i => some i
  | .help => none
  | .argument _ => none

/-- The long names of the variables that occur, in order. -/
def givenNames (setup : Setup) (items : List Item) : List Bytes :=
  items.filterMap fun item =>
    item.target.bind fun i => setup.declarations[i]?.map Declaration.longname

/-- The item is for no variable, for one that is `multiple`, or for one whose
long name has not occurred. -/
def Fresh (setup : Setup) (before : List Item) (item : Item) : Prop :=
  ∀ i d, item.target = some i → setup.declarations[i]? = some d → d.multiple = false →
    d.longname ∉ givenNames setup before

/-- No long name occurs again for a variable that is not `multiple`. Several
variables may have the same long name. -/
def Unrepeated (setup : Setup) (items : List Item) : Prop :=
  ∀ before item, before ++ [item] <+: items → Fresh setup before item

/-- An argument line is read up to some place. -/
inductive ReadsTo (setup : Setup) : List Bytes → List Item → List Bytes → Prop where
  | nil (argv : List Bytes) : ReadsTo setup argv [] argv
  | one {arg : Bytes} {argv rest : List Bytes} {item : Item} {items : List Item}
      (hitem : ItemAt setup arg argv.head? item false) (hrest : ReadsTo setup argv items rest) :
      ReadsTo setup (arg :: argv) (item :: items) rest
  | two {arg next : Bytes} {argv rest : List Bytes} {item : Item} {items : List Item}
      (hitem : ItemAt setup arg (some next) item true) (hrest : ReadsTo setup argv items rest) :
      ReadsTo setup (arg :: next :: argv) (item :: items) rest

theorem IsFlag.ne_nil {arg : Bytes} (h : IsFlag arg) : arg ≠ [] := by
  obtain ⟨c, rest, rfl⟩ := h
  exact List.cons_ne_nil _ _

theorem Named.isFlag {arg : Bytes} {d : Declaration} (h : Named arg d) : IsFlag arg := by
  rcases h with h | ⟨hne, h⟩
  · exact ⟨dash, d.longname, h⟩
  · obtain ⟨c, rest, hshort⟩ := List.exists_cons_of_ne_nil hne
    exact ⟨c, rest, by rw [h, hshort]⟩

theorem IsHelp.isFlag {arg : Bytes} (h : IsHelp arg) : IsFlag arg := by
  rcases h with rfl | rfl
  · exact ⟨_, _, rfl⟩
  · exact ⟨_, _, rfl⟩

theorem First.unique {setup : Setup} {arg : Bytes} {i j : Nat} {d e : Declaration}
    (h : First setup arg i d) (h' : First setup arg j e) : i = j ∧ d = e := by
  have hij : i = j := by
    rcases Nat.lt_trichotomy i j with hlt | heq | hgt
    · exact absurd h.named (h'.first i hlt d h.at_position)
    · exact heq
    · exact absurd h'.named (h.first j hgt e h'.at_position)
  subst hij
  have hsame := h.at_position
  rw [h'.at_position, Option.some.injEq] at hsame
  exact ⟨rfl, hsame.symm⟩

theorem First.not_unclaimed {setup : Setup} {arg : Bytes} {i : Nat} {d : Declaration}
    (h : First setup arg i d) : ¬ Unclaimed setup arg :=
  fun hunclaimed => hunclaimed d (List.mem_of_getElem? h.at_position) h.named

/-- The items that begin with the flag of a variable. -/
theorem First.itemAt_iff {setup : Setup} {arg : Bytes} {i : Nat} {d : Declaration}
    (h : First setup arg i d) {next : Option Bytes} {item : Item} {two : Bool} :
    ItemAt setup arg next item two ↔
      (∃ text, next = some text ∧ (d.isBool = true → text.head? ≠ some dash) ∧
        d.accepts text = true ∧ item = .value i text ∧ two = true) ∨
      d.isBool = true ∧ (∀ text, next = some text → text.head? = some dash) ∧ item = .flag i ∧
        two = false := by
  constructor
  · intro hitem
    cases hitem with
    | value hfirst hbool hvalid =>
      obtain ⟨rfl, rfl⟩ := h.unique hfirst
      exact .inl ⟨_, rfl, by simp [hbool], hvalid, rfl, rfl⟩
    | boolValue hfirst hbool hdash hvalid =>
      obtain ⟨rfl, rfl⟩ := h.unique hfirst
      exact .inl ⟨_, rfl, fun _ => hdash, hvalid, rfl, rfl⟩
    | boolFlag hfirst hbool hnext =>
      obtain ⟨rfl, rfl⟩ := h.unique hfirst
      exact .inr ⟨hbool, hnext, rfl, rfl⟩
    | help hunclaimed => exact absurd hunclaimed h.not_unclaimed
    | unknownFlag _ hunclaimed => exact absurd hunclaimed h.not_unclaimed
    | argument hflag => exact absurd h.named.isFlag hflag
  · rintro (⟨text, rfl, hdash, hvalid, rfl, rfl⟩ | ⟨hbool, hnext, rfl, rfl⟩)
    · cases hbool : d.isBool with
      | false => exact .value h hbool hvalid
      | true => exact .boolValue h hbool (hdash hbool) hvalid
    · exact .boolFlag h hbool hnext

/-- The items that begin with another flag. -/
theorem Unclaimed.itemAt_iff {setup : Setup} {arg : Bytes} (h : Unclaimed setup arg)
    (hflag : IsFlag arg) {next : Option Bytes} {item : Item} {two : Bool} :
    ItemAt setup arg next item two ↔
      IsHelp arg ∧ item = .help ∧ two = false ∨
      ¬ IsHelp arg ∧ setup.errorOnFlag = false ∧ setup.registered = true ∧ item = .argument arg ∧
        two = false := by
  constructor
  · intro hitem
    cases hitem with
    | value hfirst => exact absurd h hfirst.not_unclaimed
    | boolValue hfirst => exact absurd h hfirst.not_unclaimed
    | boolFlag hfirst => exact absurd h hfirst.not_unclaimed
    | help _ hhelp => exact .inl ⟨hhelp, rfl, rfl⟩
    | unknownFlag _ _ hhelp herror hlist => exact .inr ⟨hhelp, herror, hlist, rfl, rfl⟩
    | argument hnot => exact absurd hflag hnot
  · rintro (⟨hhelp, rfl, rfl⟩ | ⟨hhelp, herror, hlist, rfl, rfl⟩)
    · exact .help h hhelp
    · exact .unknownFlag hflag h hhelp herror hlist

/-- The items that begin with no flag. -/
theorem itemAt_argument_iff {setup : Setup} {arg : Bytes} (hflag : ¬ IsFlag arg)
    {next : Option Bytes} {item : Item} {two : Bool} :
    ItemAt setup arg next item two ↔
      arg ≠ [] ∧ setup.registered = true ∧ item = .argument arg ∧ two = false := by
  constructor
  · intro hitem
    cases hitem with
    | value hfirst => exact absurd hfirst.named.isFlag hflag
    | boolValue hfirst => exact absurd hfirst.named.isFlag hflag
    | boolFlag hfirst => exact absurd hfirst.named.isFlag hflag
    | help _ hhelp => exact absurd hhelp.isFlag hflag
    | unknownFlag hyes => exact absurd hyes hflag
    | argument _ hne hlist => exact ⟨hne, hlist, rfl, rfl⟩
  · rintro ⟨hne, hlist, rfl, rfl⟩
    exact .argument hflag hne hlist

theorem splits_nil_iff {setup : Setup} {items : List Item} : Splits setup [] items ↔ items = [] := by
  constructor
  · intro h
    cases h
    rfl
  · rintro rfl
    exact .nil

theorem splits_cons_iff {setup : Setup} {arg : Bytes} {argv : List Bytes} {items : List Item} :
    Splits setup (arg :: argv) items ↔
      ∃ item two rest, ItemAt setup arg argv.head? item two ∧ items = item :: rest ∧
        Splits setup (if two then argv.tail else argv) rest := by
  constructor
  · intro h
    cases h with
    | one hitem hrest => exact ⟨_, false, _, hitem, rfl, hrest⟩
    | two hitem hrest => exact ⟨_, true, _, hitem, rfl, hrest⟩
  · rintro ⟨item, two, rest, hitem, rfl, hrest⟩
    cases two with
    | false => exact .one hitem hrest
    | true =>
      cases argv with
      | nil => cases hitem
      | cons next argv => exact .two hitem hrest

theorem readsTo_cons_iff {setup : Setup} {arg : Bytes} {argv rest : List Bytes}
    {items : List Item} :
    ReadsTo setup (arg :: argv) items rest ↔
      items = [] ∧ rest = arg :: argv ∨
      ∃ item two items', ItemAt setup arg argv.head? item two ∧ items = item :: items' ∧
        ReadsTo setup (if two then argv.tail else argv) items' rest := by
  constructor
  · intro h
    cases h with
    | nil => exact .inl ⟨rfl, rfl⟩
    | one hitem hrest => exact .inr ⟨_, false, _, hitem, rfl, hrest⟩
    | two hitem hrest => exact .inr ⟨_, true, _, hitem, rfl, hrest⟩
  · rintro (⟨rfl, rfl⟩ | ⟨item, two, items', hitem, rfl, hrest⟩)
    · exact .nil _
    · cases two with
      | false => exact .one hitem hrest
      | true =>
        cases argv with
        | nil => cases hitem
        | cons next argv => exact .two hitem hrest

theorem textsFor_append (items items' : List Item) (i : Nat) :
    textsFor (items ++ items') i = textsFor items i ++ textsFor items' i :=
  List.filterMap_append

theorem Single.of_append {setup : Setup} {items items' : List Item}
    (h : Single setup (items ++ items')) : Single setup items := by
  intro i d hd hmultiple
  have hle := h i d hd hmultiple
  rw [textsFor_append, List.length_append] at hle
  omega

theorem givenNames_append (setup : Setup) (items items' : List Item) :
    givenNames setup (items ++ items') = givenNames setup items ++ givenNames setup items' :=
  List.filterMap_append

theorem unrepeated_concat_iff {setup : Setup} {items : List Item} {item : Item} :
    Unrepeated setup (items ++ [item]) ↔ Unrepeated setup items ∧ Fresh setup items item := by
  constructor
  · intro h
    refine ⟨fun before item' hinitial => ?_, h items item List.prefix_rfl⟩
    exact h before item' (hinitial.trans (List.prefix_append _ _))
  · rintro ⟨hitems, hfresh⟩ before item' hinitial
    rcases List.prefix_concat_iff.mp hinitial with heq | hinitial
    · obtain ⟨rfl, hitem⟩ := List.append_inj' heq rfl
      obtain rfl : item' = item := by simpa using hitem
      exact hfresh
    · exact hitems before item' hinitial

theorem Unrepeated.of_append {setup : Setup} {items items' : List Item}
    (h : Unrepeated setup (items ++ items')) : Unrepeated setup items :=
  fun before item hinitial => h before item (hinitial.trans (List.prefix_append _ _))

end clockUtils.argParser
