import ClockUtils.ArgParser.StoredValues

namespace clockUtils.argParser

/-- What a program does with the parser and its variables. `assign` is the `operator=`
that takes a value of the variable's own type; to assign another variable would copy
its names and properties too. With `memory` something else comes to stand where
`setValue` has its `val`. -/
inductive Call where
  | registerArgumentsVector (args : Option Nat)
  | setErrorOnFlag (b : Bool)
  | assign (i : Nat) (val : (v : BasicVariable) → v.T)
  | memory (left : Nat → (v : BasicVariable) → Bytes → Option v.T)
  | parseArguments (argv : List Bytes)

namespace BasicVariable

/-- `Variable<T>::operator=` -/
def assign (v : BasicVariable) (val : v.T) : BasicVariable :=
  { v with value := val }

end BasicVariable

namespace Parser

def setErrorOnFlag (p : Parser) (b : Bool) : Parser :=
  { p with errorOnFlag := b }

def call (p : Parser) : Call → Parser
  | .registerArgumentsVector args => p.registerArgumentsVector args
  | .setErrorOnFlag b => p.setErrorOnFlag b
  | .assign i val => { p with variableList := p.variableList.modify i fun v => v.assign (val v) }
  | .memory left => { p with variableList := p.variableList.mapIdx fun i v => v.refill (left i v) }
  | .parseArguments argv => (p.parseArguments argv).2

def withVectors (p : Parser) (vectors : Nat → List Bytes) : Parser :=
  { p with vectors := vectors }

/-- The variables as they were registered. -/
def defaults (p : Parser) : List BasicVariable :=
  p.variableList.map BasicVariable.resetToDefault

/-- The parser keeps what it was given to parse with. -/
structure Keeps (p q : Parser) : Prop where
  defaults : q.defaults = p.defaults
  errorOnFlag : q.errorOnFlag = p.errorOnFlag

theorem Keeps.refl (p : Parser) : Keeps p p :=
  ⟨rfl, rfl⟩

theorem Keeps.trans {p q r : Parser} (h : Keeps p q) (h' : Keeps q r) : Keeps p r :=
  ⟨h'.defaults.trans h.defaults, h'.errorOnFlag.trans h.errorOnFlag⟩

end Parser

namespace Turn

def withVectors (vectors : Nat → List Bytes) : Turn → Turn
  | .fail p => .fail (p.withVectors vectors)
  | .one p parsed => .one (p.withVectors vectors) parsed
  | .two p parsed => .two (p.withVectors vectors) parsed

/-- A parser that goes on keeps the registered vector too. -/
def Keeps (p : Parser) : Turn → Prop
  | .fail q => p.Keeps q
  | .one q _ => p.Keeps q ∧ q.arguments = p.arguments
  | .two q _ => p.Keeps q ∧ q.arguments = p.arguments

end Turn

namespace Parser

/-- Whatever the vectors hold, the turn is the same and appends the same arguments. -/
def Blind (p : Parser) (f : Parser → Turn) : Prop :=
  ∃ t args, (∀ vectors, f (p.withVectors vectors) =
    Turn.withVectors ((p.withVectors vectors).vectorsAfter args) t) ∧ Turn.Keeps p t

theorem vectorsAfter_nil (p : Parser) : p.vectorsAfter [] = p.vectors := by
  unfold vectorsAfter
  split
  · rfl
  · rw [List.append_nil, Function.update_eq_self]

/-- A turn that appends nothing. -/
theorem Blind.silent {p : Parser} {f : Parser → Turn} {t : Turn}
    (hturn : ∀ vectors, f (p.withVectors vectors) = Turn.withVectors vectors t)
    (hkeeps : Turn.Keeps p t) : p.Blind f := by
  refine ⟨t, [], fun vectors => ?_, hkeeps⟩
  rw [vectorsAfter_nil]
  exact hturn vectors

section Turns

variable {p : Parser} (parsed : List Bytes)

variable {i : Nat} {v : BasicVariable} (hv : p.variableList[i]? = some v)

include hv

end Turns

end Parser

end clockUtils.argParser
