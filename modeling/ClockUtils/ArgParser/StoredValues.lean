import ClockUtils.ArgParser.Recognition

namespace clockUtils.argParser

namespace Extraction

variable {T : Type}

/-- The same validity and the same valid value, but another value left behind. -/
def leaving (left : Option T) : Extraction T → Extraction T
  | .valid val => .valid val
  | .invalid _ => .invalid left

end Extraction

namespace BasicVariable

/-- The variable when an invalid text leaves other values in it. `setValue` does
not initialise `val`, and a stream whose text ends before a value begins stores
nothing, so that what the variable then holds is not determined by the text. -/
def refill (v : BasicVariable) (left : Bytes → Option v.T) : BasicVariable :=
  { v with extract := fun text => (v.extract text).leaving (left text) }

/-- The variable without what invalid texts leave in it. -/
def forget (v : BasicVariable) : BasicVariable :=
  v.refill fun _ => none

end BasicVariable

namespace Parser

/-- The two have everything but the variables in common. -/
structure SameStatics (p p' : Parser) : Prop where
  error : p.error = p'.error
  errorOnFlag : p.errorOnFlag = p'.errorOnFlag
  help : p.help = p'.help
  arguments : p.arguments = p'.arguments
  vectors : p.vectors = p'.vectors

/-- The two differ in nothing but what invalid texts leave in the variables. -/
structure Alike (p p' : Parser) : Prop extends SameStatics p p' where
  list : p.variableList.map BasicVariable.forget = p'.variableList.map BasicVariable.forget

/-- Here one variable may differ altogether. -/
structure AllButOne (p p' : Parser) : Prop extends SameStatics p p' where
  others : ∃ i : Nat, ∀ j : Nat, j ≠ i → (p.variableList[j]?).map BasicVariable.forget =
    (p'.variableList[j]?).map BasicVariable.forget

variable {p p' : Parser}

/-- The variable at one position is changed. -/
theorem Alike.setVariable (h : p.Alike p') (i : Nat) (v v' : BasicVariable) :
    AllButOne (p.setVariable i v) (p'.setVariable i v') := by
  refine { h with others := ⟨i, fun j hj => ?_⟩ }
  unfold Parser.setVariable
  dsimp only
  rw [List.getElem?_set_ne (Ne.symm hj), List.getElem?_set_ne (Ne.symm hj), ← List.getElem?_map,
    ← List.getElem?_map, h.list]

end Parser

namespace Turn

/-- The two turns end alike, and in parsers that go on alike. -/
def Alike : Turn → Turn → Prop
  | .fail p, .fail p' => p.AllButOne p'
  | .one p parsed, .one p' parsed' => p.Alike p' ∧ parsed = parsed'
  | .two p parsed, .two p' parsed' => p.Alike p' ∧ parsed = parsed'
  | _, _ => False

end Turn

namespace Parser

section Turns

variable {p p' : Parser} (parsed : List Bytes)

theorem AllButOne.reject (h : p.AllButOne p') (error : Bytes) :
    (p.reject error).Alike (p'.reject error) :=
  { h with error := rfl, arguments := rfl }

variable (h : p.Alike p')

include h

variable {i : Nat} {v v' : BasicVariable} (hv : v.forget = v'.forget)

include hv

end Turns

variable {p p' : Parser}

end Parser

end clockUtils.argParser
