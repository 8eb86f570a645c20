import ClockUtils.ArgParser.Grammar
import Mathlib.Data.List.Forall2
import Mathlib.Data.List.Induction
import Mathlib.Data.List.Nodup

namespace clockUtils.argParser

open BasicVariable (Declaration)

namespace BasicVariable

/-- A variable after a parse that gave it these texts. -/
def holding (v : BasicVariable) (texts : List Bytes) : BasicVariable :=
  texts.foldl give v.resetToDefault

theorem holding_concat (v : BasicVariable) (texts : List Bytes) (text : Bytes) :
    v.holding (texts ++ [text]) = (v.holding texts).give text := by
  rw [holding, List.foldl_append, holding]
  rfl

@[simp] theorem declaration_holding (v : BasicVariable) (texts : List Bytes) :
    (v.holding texts).declaration = v.declaration := by
  induction texts using List.reverseRecOn with
  | nil => exact declaration_resetToDefault v
  | append_singleton texts text ih => rw [holding_concat, declaration_give, ih]

theorem set_holding (v : BasicVariable) (texts : List Bytes) :
    (v.holding texts).set = true ↔ texts ≠ [] := by
  induction texts using List.reverseRecOn with
  | nil => simp [holding, resetToDefault]
  | append_singleton texts text ih =>
    rw [holding_concat]
    simp [give]

theorem give_of_valid {v : BasicVariable} {text : Bytes} {val : v.T}
    (h : v.extract text = .valid val) : v.give text = { v.store val with set := true } := by
  have hstored : (v.extract text).stored = some val := by
    rw [h]
    rfl
  have hset : (v.setValue text).2 = v.store val := by
    unfold setValue
    rw [hstored]
  unfold give
  rw [hset]

/-- A valid text for a variable that has a value already. -/
theorem give_later (v : BasicVariable) {text : Bytes} {val : v.T} (h : v.extract text = .valid val)
    (x : v.T) (xs : List v.T) :
    give { v with value := x, values := xs, set := true } text =
      { v with value := x, values := xs ++ [val], set := true } := by
  have hgive := give_of_valid
    (show ({ v with value := x, values := xs, set := true } : BasicVariable).extract text = .valid val from h)
  rw [hgive]
  rfl

theorem foldl_give_later (v : BasicVariable) {texts : List Bytes} {vals : List v.T}
    (h : List.Forall₂ (fun text val => v.extract text = .valid val) texts vals) (x : v.T)
    (xs : List v.T) :
    texts.foldl give { v with value := x, values := xs, set := true } =
      { v with value := x, values := xs ++ vals, set := true } := by
  induction h generalizing xs with
  | nil => rw [List.foldl_nil, List.append_nil]
  | cons hval _ ih => rw [List.foldl_cons, v.give_later hval, ih, List.append_assoc, List.singleton_append]

/-- A variable with these values, or with its default value if there are none. -/
def given (v : BasicVariable) (vals : List v.T) : BasicVariable :=
  { v with
    value := vals.headD v.defaultValue
    values := vals.tail
    set := decide (vals ≠ []) }

theorem count_given (v : BasicVariable) (vals : List v.T) :
    (v.given vals).count = max 1 vals.length := by
  cases vals with
  | nil => rfl
  | cons val vals =>
    have hcount : (v.given (val :: vals)).count = 1 + vals.length := rfl
    rw [hcount, List.length_cons]
    omega

theorem valueAt_eq_ok_iff (v : BasicVariable) (idx : Nat) (val : v.T) :
    v.valueAt idx = .ok val ↔ (v.value :: v.values)[idx]? = some val := by
  unfold valueAt
  cases (v.value :: v.values)[idx]? with
  | none => exact ⟨nofun, nofun⟩
  | some val' => simp

theorem valueAt_given_eq_ok_iff (v : BasicVariable) (vals : List v.T) (idx : Nat) (val : v.T) :
    (v.given vals).valueAt idx = .ok val ↔
      (if vals = [] then [v.defaultValue] else vals)[idx]? = some val := by
  cases vals with
  | nil => exact (v.given []).valueAt_eq_ok_iff idx val
  | cons first vals =>
    rw [if_neg (List.cons_ne_nil _ _)]
    exact (v.given (first :: vals)).valueAt_eq_ok_iff idx val

/-- Valid texts give a variable their values in order. -/
theorem holding_eq (v : BasicVariable) {texts : List Bytes} {vals : List v.T}
    (h : List.Forall₂ (fun text val => v.extract text = .valid val) texts vals) :
    v.holding texts = v.given vals := by
  cases h with
  | nil => rfl
  | @cons text val texts vals hval hrest =>
    have hfirst : v.resetToDefault.give text =
        { v with value := val, values := [], set := true } := by
      have hgive := give_of_valid (show v.resetToDefault.extract text = .valid val from hval)
      rw [hgive]
      rfl
    rw [holding, List.foldl_cons, hfirst, v.foldl_give_later hrest, List.nil_append, given]
    simp

end BasicVariable

namespace Parser

/-- What the argument line is read against when `parseArguments` is called. -/
def setup (p : Parser) : Setup where
  declarations := p.variableList.map BasicVariable.declaration
  errorOnFlag := p.errorOnFlag
  registered := p.arguments.isSome

/-- The vectors in memory after arguments were appended to the registered one. -/
def vectorsAfter (p : Parser) (args : List Bytes) : Nat → List Bytes :=
  match p.arguments with
  | none => p.vectors
  | some vector => Function.update p.vectors vector (p.vectors vector ++ args)

/-- The state of the loop behind the given items. -/
def after (p : Parser) (items : List Item) : Parser :=
  { p with
    variableList := p.variableList.mapIdx fun i v => v.holding (textsFor items i)
    error := []
    help := decide (.help ∈ items)
    vectors := p.vectorsAfter (argumentsOf items) }

theorem after_nil (p : Parser) : p.after [] = p.reset := by
  have hvectors : p.vectorsAfter [] = p.vectors := by
    unfold vectorsAfter
    split
    · rfl
    · rw [List.append_nil, Function.update_eq_self]
  have hlist : (p.variableList.mapIdx fun i v => v.holding (textsFor [] i)) =
      p.variableList.map BasicVariable.resetToDefault := by
    rw [List.mapIdx_eq_zipIdx_map]
    conv_rhs => rw [← List.zipIdx_map_fst 0 p.variableList, List.map_map]
    rfl
  unfold after reset
  rw [show argumentsOf [] = [] from rfl, hvectors, hlist]
  rfl

theorem getElem?_after (p : Parser) (items : List Item) (i : Nat) :
    (p.after items).variableList[i]? =
      p.variableList[i]?.map fun v => v.holding (textsFor items i) :=
  List.getElem?_mapIdx

theorem map_declaration_after (p : Parser) (items : List Item) :
    (p.after items).variableList.map BasicVariable.declaration = p.setup.declarations := by
  apply List.ext_getElem?
  intro i
  rw [List.getElem?_map, getElem?_after, setup, List.getElem?_map, Option.map_map]
  congr 1
  funext v
  exact v.declaration_holding _

/-- An item for one variable changes this variable only. -/
theorem after_variable (p : Parser) {items : List Item} {item : Item} {i : Nat} {text : Bytes}
    (htexts : ∀ j, textsFor [item] j = if i = j then [text] else [])
    (hhelp : item ≠ .help) (hargument : argumentsOf [item] = []) {v : BasicVariable}
    (hv : (p.after items).variableList[i]? = some v) :
    p.after (items ++ [item]) = (p.after items).setVariable i (v.give text) := by
  have hlist : (p.after (items ++ [item])).variableList =
      (p.after items).variableList.set i (v.give text) := by
    apply List.ext_getElem?
    intro j
    rw [getElem?_after, List.getElem?_set, textsFor_append, htexts]
    by_cases hij : i = j
    · subst hij
      have hlt : i < (p.after items).variableList.length := (List.getElem?_eq_some_iff.mp hv).1
      rw [getElem?_after, Option.map_eq_some_iff] at hv
      obtain ⟨w, hw, rfl⟩ := hv
      rw [if_pos rfl, if_pos rfl, if_pos hlt, hw, Option.map_some, BasicVariable.holding_concat]
    · rw [if_neg hij, if_neg hij, List.append_nil, getElem?_after]
  have hargs : argumentsOf (items ++ [item]) = argumentsOf items := by
    rw [argumentsOf, List.filterMap_append]
    exact (congrArg (_ ++ ·) hargument).trans (List.append_nil _)
  have hmem : (Item.help ∈ items ++ [item]) ↔ Item.help ∈ items := by
    simp [hhelp.symm]
  unfold setVariable
  rw [← hlist]
  unfold after
  simp only [hargs, hmem]

theorem after_help (p : Parser) (items : List Item) :
    p.after (items ++ [.help]) = { p.after items with help := true } := by
  have htexts : ∀ i, textsFor (items ++ [.help]) i = textsFor items i := by
    intro i
    rw [textsFor_append]
    exact List.append_nil _
  have hargs : argumentsOf (items ++ [.help]) = argumentsOf items := by
    rw [argumentsOf, List.filterMap_append]
    exact List.append_nil _
  unfold after
  simp only [htexts, hargs]
  simp

theorem after_argument (p : Parser) (items : List Item) (arg : Bytes) {vector : Nat}
    (hvector : p.arguments = some vector) :
    p.after (items ++ [.argument arg]) = { p.after items with
      vectors := Function.update (p.after items).vectors vector
        ((p.after items).vectors vector ++ [arg]) } := by
  have htexts : ∀ i, textsFor (items ++ [.argument arg]) i = textsFor items i := by
    intro i
    rw [textsFor_append]
    exact List.append_nil _
  have hargs : argumentsOf (items ++ [.argument arg]) = argumentsOf items ++ [arg] := by
    rw [argumentsOf, List.filterMap_append]
    rfl
  unfold after vectorsAfter
  simp only [htexts, hargs, hvector]
  simp

end Parser

end clockUtils.argParser
