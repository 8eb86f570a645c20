import Mathlib.Algebra.Group.Nat.Defs
import Mathlib.Data.List.Basic

namespace clockUtils

/-- The error codes shared by every library of the repository, in the order of
`errors.h`. The trailing `ERROR_COUNT` is no result of any function. -/
inductive ClockError where
  | SUCCESS
  | NOT_READY
  | TIMEOUT
  | INVALID_ARGUMENT
  | INVALID_USAGE
  | IN_PROGRESS
  | WRONG_TYPE
  | WRONG_SYNTAX
  | FILENOTFOUND
  | OUT_OF_MEMORY
  | INVALID_IP
  | INVALID_PORT
  | ADDRESS_INUSE
  | CONNECTION_FAILED
  | NOT_CONNECTED
  | VALUE_NOTFOUND
  | NO_ELEMENT
  | NO_SPACE_AVAILABLE
  | UNKNOWN
  deriving DecidableEq, Repr

/-- The steps for which the C++ standard gives no meaning and that the code
can reach when it does not check for them. -/
inductive Undefined where
  /-- a floating-point quotient by zero converted to an integer -/
  | divisionByZero
  /-- `top()` of an empty priority queue -/
  | topOfEmpty
  /-- `back()` of an empty vector -/
  | backOfEmpty
  /-- dereferencing a null pointer -/
  | nullDereference
  /-- an index or iterator outside of its container -/
  | outOfRange
  /-- an `int` result that is not representable -/
  | signedOverflow
  deriving DecidableEq, Repr

/-- A computation that either has a defined result or reaches an undefined step. -/
abbrev Run (α : Type) := Except Undefined α

/-- A `std::string` or a vector of bytes. -/
abbrev Bytes := List UInt8

namespace Run

theorem bind_eq_ok_iff {α β : Type} {x : Run α} {f : α → Run β} {y : β} :
    (x >>= f) = .ok y ↔ ∃ a, x = .ok a ∧ f a = .ok y := by
  cases x with
  | error e => simp [bind, Except.bind]
  | ok a => simp [bind, Except.bind]

@[simp] theorem ok_bind {α β : Type} (a : α) (f : α → Run β) :
    ((.ok a : Run α) >>= f) = f a := rfl

@[simp] theorem error_bind {α β : Type} (e : Undefined) (f : α → Run β) :
    ((.error e : Run α) >>= f) = .error e := rfl

@[simp] theorem pure_eq_ok {α : Type} (a : α) : (pure a : Run α) = .ok a := rfl

end Run

end clockUtils
