import ClockUtils.Errors
import ClockUtils.Lib.VectorMap

namespace clockUtils.iniParser

def newline : UInt8 := 10

def semicolon : UInt8 := 59

def equalsSign : UInt8 := 61

def openBracket : UInt8 := 91

def closeBracket : UInt8 := 93

/-- The bytes of `"global"`, the section of the lines before the first section line. -/
def globalName : Bytes := [103, 108, 111, 98, 97, 108]

/-- A tuple of `_data`: SECTION, FIELD, INDEX and VALUE. -/
structure Entry where
  sectionName : Bytes
  field : Bytes
  index : Nat
  value : Bytes
  deriving DecidableEq

/-- The test by which `getValue`, `setValue` and `removeEntry` find an entry. -/
def Entry.Matches (t : Entry) (sectionName field : Bytes) : Prop :=
  t.sectionName = sectionName ∧ t.field = field

instance (t : Entry) (sectionName field : Bytes) : Decidable (t.Matches sectionName field) :=
  inferInstanceAs (Decidable (_ ∧ _))

/-- `_data` and `_allLines`. -/
structure IniParser where
  data : VectorMap Bytes Entry
  allLines : VectorMap Bytes Bytes

namespace IniParser

/-- The parser that the constructor makes. -/
def fresh : IniParser where
  data := ∅
  allLines := ∅

/-- The state behind the reset in `load`. -/
def reset : IniParser where
  data := fresh.data.touch globalName
  allLines := fresh.allLines.touch globalName

/-- `_allLines[section].push_back(line)` -/
def pushLine (p : IniParser) (currentSection line : Bytes) : IniParser :=
  { p with allLines := p.allLines.push currentSection line }

/-- `_data[section].push_back(t)` -/
def pushEntry (p : IniParser) (currentSection : Bytes) (t : Entry) : IniParser :=
  { p with data := p.data.push currentSection t }

/-- The branch of `load` for a line that starts with a bracket. -/
def loadSectionLine (p : IniParser) (line : Bytes) : Except IniParser (Bytes × IniParser) :=
  if line.getLast? ≠ some closeBracket then .error p
  else
    let currentSection := (line.drop 1).take (line.length - 2)
    if currentSection ∈ p.allLines then .error p
    else .ok (currentSection, p.pushLine currentSection line)

/-- The branch of `load` for a field. Comparing the keys creates the vector of
the section in `_data`, also when the file is then rejected. -/
def loadEntryLine (p : IniParser) (currentSection line : Bytes) :
    Except IniParser (Bytes × IniParser) :=
  if equalsSign ∉ line then .error p
  else
    let n := line.idxOf equalsSign
    let key := line.take n
    let touched := { p with data := p.data.touch currentSection }
    if ∃ t ∈ p.data.vector currentSection, t.field = key then .error touched
    else
      let t := ⟨currentSection, key, (p.allLines.vector currentSection).length, line.drop (n + 1)⟩
      .ok (currentSection, (touched.pushEntry currentSection t).pushLine currentSection line)

/-- One turn of the loop in `load`. An error carries the parser with which
`load` returns `WRONG_SYNTAX`. -/
def loadLine (p : IniParser) (currentSection line : Bytes) : Except IniParser (Bytes × IniParser) :=
  if line.length ≤ 1 ∨ line.head? = some semicolon then
    .ok (currentSection, p.pushLine currentSection line)
  else if line.head? = some openBracket then p.loadSectionLine line
  else p.loadEntryLine currentSection line

def loadLines (p : IniParser) (currentSection : Bytes) : List Bytes → Except IniParser IniParser
  | [] => .ok p
  | line :: lines =>
    match p.loadLine currentSection line with
    | .error p => .error p
    | .ok (currentSection, p) => p.loadLines currentSection lines

/-- `load` of a file with the given content, of a file that cannot be opened
for `none`. Reading until `good()` fails gives the parts between the line
breaks, the one behind the last line break included. -/
def load (p : IniParser) : Option Bytes → ClockError × IniParser
  | none => (.FILENOTFOUND, p)
  | some content =>
    match reset.loadLines globalName (content.splitOn newline) with
    | .error p => (.WRONG_SYNTAX, p)
    | .ok p => (.SUCCESS, p)

/-- The text that `save` writes for an entry. -/
def entryText (t : Entry) : Bytes :=
  t.field ++ equalsSign :: t.value

/-- The inner loop of `save` from line `i` on: the line of an entry is replaced
by the entry's text. The counter of the entries has 32 bits. -/
def saveLines (entries : List Entry) : Nat → UInt32 → List Bytes → List Bytes
  | _, _, [] => []
  | i, nextEntry, line :: lines =>
    match entries[nextEntry.toNat]? with
    | none => line :: saveLines entries (i + 1) nextEntry lines
    | some t =>
      if i = t.index then entryText t :: saveLines entries (i + 1) (nextEntry + 1) lines
      else line :: saveLines entries (i + 1) nextEntry lines

/-- All lines that `save` writes, in the order of the sections in `_allLines`. -/
def savedLines (p : IniParser) : List Bytes :=
  p.allLines.toList.flatMap fun (name, lines) => saveLines (p.data.vector name) 0 0 lines

/-- The stream's content without its last character. -/
def savedText (p : IniParser) : Bytes :=
  (p.savedLines.flatMap (· ++ [newline])).dropLast

/-- The comparisons in `save` create a vector in `_data` for each section with
lines. -/
def touchSections (data : VectorMap Bytes Entry) (pairs : List (Bytes × List Bytes)) :
    VectorMap Bytes Entry :=
  pairs.foldl (fun data pair => if pair.2 = [] then data else data.touch pair.1) data

/-- `save` returns `SUCCESS` also when the file could not be opened, since this
sets the stream's `failbit` and not its `badbit`; what the file then holds is
`none`. -/
def save (p : IniParser) (opened : Bool) : ClockError × Option Bytes × IniParser :=
  (.SUCCESS, if opened then some p.savedText else none,
    { p with data := touchSections p.data p.allLines.toList })

/-- `getValue<std::string>`: the error code and the value assigned. -/
def getValue (p : IniParser) (sectionName field : Bytes) : ClockError × Bytes :=
  match p.data[sectionName]? with
  | none => (.VALUE_NOTFOUND, [])
  | some entries =>
    match entries.find? fun t => t.Matches sectionName field with
    | none => (.VALUE_NOTFOUND, [])
    | some t => (.SUCCESS, t.value)

def getAllSections (p : IniParser) : List Bytes :=
  p.allLines.keys

def getAllEntries (p : IniParser) (sectionName : Bytes) : List Bytes :=
  match p.data[sectionName]? with
  | none => []
  | some entries => entries.map Entry.field

/-- The section line that `setValue` writes. -/
def sectionLine (sectionName : Bytes) : Bytes :=
  openBracket :: sectionName ++ [closeBracket]

/-- Assigns the value to the first entry of this section and field. -/
def assign (sectionName field value : Bytes) : List Entry → List Entry
  | [] => []
  | t :: entries =>
    if t.Matches sectionName field then { t with value := value } :: entries
    else t :: assign sectionName field value entries

/-- `back()` of a vector. -/
def back {α : Type} (xs : List α) : Run α :=
  match xs.getLast? with
  | none => .error .backOfEmpty
  | some x => .ok x

/-- The INDEX that `setValue` gives to a new entry of a known section: a blank
line at the end is used when it does not belong to the last entry. -/
def insertIndex (entries : List Entry) (lines : List Bytes) : Run Nat := do
  let line ← back lines
  if line = [] then
    let t ← back entries
    .ok (if t.index ≠ lines.length - 1 then lines.length - 1 else lines.length)
  else .ok lines.length

/-- A new entry with a blank line as its placeholder. -/
def appendEntry (p : IniParser) (sectionName : Bytes) (t : Entry) : IniParser :=
  (p.pushEntry sectionName t).pushLine sectionName []

/-- `setValue` for a section that is not in `_data`. -/
def createSection (p : IniParser) (sectionName field value : Bytes) : IniParser :=
  (p.pushLine sectionName (sectionLine sectionName)).appendEntry sectionName
    ⟨sectionName, field, 1, value⟩

def setValue (p : IniParser) (sectionName field value : Bytes) : Run IniParser :=
  match p.data[sectionName]? with
  | none => .ok (p.createSection sectionName field value)
  | some entries =>
    if ∃ t ∈ entries, t.Matches sectionName field then
      .ok { p with data := p.data.insert sectionName (assign sectionName field value entries) }
    else do
      let index ← insertIndex entries (p.allLines.vector sectionName)
      .ok (p.appendEntry sectionName ⟨sectionName, field, index, value⟩)

/-- Erases the line at the INDEX of the `k`-th entry, and the entry. -/
def eraseAt (p : IniParser) (sectionName : Bytes) (k : Nat) (t : Entry) : Run IniParser :=
  if t.index < (p.allLines.vector sectionName).length then
    .ok {
      data := p.data.insert sectionName ((p.data.vector sectionName).eraseIdx k)
      allLines :=
        p.allLines.insert sectionName ((p.allLines.vector sectionName).eraseIdx t.index) }
  else .error .outOfRange

/-- The position of an entry in the vector of its section, or the vector's size. -/
def entryPosition (p : IniParser) (sectionName entry : Bytes) : Nat :=
  (p.data.vector sectionName).findIdx fun t => t.Matches sectionName entry

/-- The loop of `removeEntry`. -/
def eraseEntry (p : IniParser) (sectionName entry : Bytes) : Run IniParser :=
  match (p.data.vector sectionName)[p.entryPosition sectionName entry]? with
  | none => .ok { p with data := p.data.touch sectionName }
  | some t => p.eraseAt sectionName (p.entryPosition sectionName entry) t

def removeEntry (p : IniParser) (sectionName entry : Bytes) : Run IniParser := do
  let p ← p.eraseEntry sectionName entry
  if p.data.vector sectionName = [] then
    .ok { data := p.data.erase sectionName, allLines := p.allLines.erase sectionName }
  else .ok p

end IniParser

end clockUtils.iniParser
