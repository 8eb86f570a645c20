import ClockUtils.Errors

namespace clockUtils.argParser

/-- The bytes of a string literal of the source. -/
def literal (s : String) : Bytes :=
  s.toList.map fun c => UInt8.ofNat c.toNat

/-- What `setValue` makes of a text: a valid value, or a failure that may still
have stored something. -/
inductive Extraction (T : Type) where
  | valid (val : T)
  | invalid (stored : Option T)

namespace Extraction

/-- The result of `setValue`. -/
def isValid {T : Type} : Extraction T → Bool
  | .valid _ => true
  | .invalid _ => false

/-- The value that `setValue` stores. -/
def stored {T : Type} : Extraction T → Option T
  | .valid val => some val
  | .invalid stored => stored

end Extraction

/-- A `Variable<T>` of any type `T`, with the extraction of its `setValue`. -/
structure BasicVariable where
  T : Type
  extract : Bytes → Extraction T
  isBool : Bool
  longname : Bytes
  shortname : Bytes
  required : Bool
  multiple : Bool
  defaultValue : T
  value : T
  values : List T
  set : Bool

namespace BasicVariable

/-- The constructor of `Variable<T>`. -/
def new {T : Type} (extract : Bytes → Extraction T) (isBool : Bool) (longname shortname : Bytes)
    (value : T) (required multiple : Bool) : BasicVariable where
  T := T
  extract := extract
  isBool := isBool
  longname := longname
  shortname := shortname
  required := required
  multiple := multiple
  defaultValue := value
  value := value
  values := []
  set := false

/-- `Variable<T>::setValue` of the types without a specialization. The value is
stored also when the stream has failed. `stream` is the extraction operator:
the value, and whether it read the whole text without failing. -/
def extractAny {T : Type} (stream : Bytes → T × Bool) (text : Bytes) : Extraction T :=
  if (stream text).2 then .valid (stream text).1 else .invalid (some (stream text).1)

/-- `Variable<std::string>::setValue` -/
def extractString (text : Bytes) : Extraction Bytes :=
  .valid text

def tolower (c : UInt8) : UInt8 :=
  if 65 ≤ c ∧ c ≤ 90 then c + 32 else c

/-- `Variable<bool>::setValue` -/
def extractBool (stream : Bytes → Bool × Bool) (text : Bytes) : Extraction Bool :=
  if text.map tolower = literal "true" then .valid true
  else if text.map tolower = literal "false" then .valid false
  else extractAny stream text

/-- The first value goes to `_value`, the later ones to `_values`. -/
def store (v : BasicVariable) (val : v.T) : BasicVariable :=
  if v.set then { v with values := v.values ++ [val] } else { v with value := val }

def setValue (v : BasicVariable) (text : Bytes) : Bool × BasicVariable :=
  match (v.extract text).stored with
  | none => ((v.extract text).isValid, v)
  | some val => ((v.extract text).isValid, v.store val)

def resetToDefault (v : BasicVariable) : BasicVariable :=
  { v with value := v.defaultValue, values := [], set := false }

def count (v : BasicVariable) : Nat :=
  1 + v.values.length

/-- `at`, which is undefined from `count` on. -/
def valueAt (v : BasicVariable) (idx : Nat) : Run v.T :=
  match (v.value :: v.values)[idx]? with
  | none => .error .outOfRange
  | some val => .ok val

/-- What `parseArguments` does to a variable whose flag it has found. -/
def give (v : BasicVariable) (text : Bytes) : BasicVariable :=
  { (v.setValue text).2 with set := true }

/-- What was registered of a variable: its names and properties, and the texts
that are valid for its type. -/
structure Declaration where
  longname : Bytes
  shortname : Bytes
  isBool : Bool
  required : Bool
  multiple : Bool
  accepts : Bytes → Bool

def declaration (v : BasicVariable) : Declaration where
  longname := v.longname
  shortname := v.shortname
  isBool := v.isBool
  required := v.required
  multiple := v.multiple
  accepts text := (v.extract text).isValid

theorem setValue_fst (v : BasicVariable) (text : Bytes) :
    (v.setValue text).1 = v.declaration.accepts text := by
  unfold setValue
  split <;> rfl

@[simp] theorem declaration_store (v : BasicVariable) (val : v.T) :
    (v.store val).declaration = v.declaration := by
  unfold store
  split <;> rfl

@[simp] theorem declaration_setValue (v : BasicVariable) (text : Bytes) :
    (v.setValue text).2.declaration = v.declaration := by
  unfold setValue
  split
  · rfl
  · exact declaration_store v _

@[simp] theorem declaration_give (v : BasicVariable) (text : Bytes) :
    (v.give text).declaration = v.declaration :=
  declaration_setValue v text

@[simp] theorem declaration_resetToDefault (v : BasicVariable) :
    v.resetToDefault.declaration = v.declaration := rfl

end BasicVariable

end clockUtils.argParser
