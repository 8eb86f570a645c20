import ClockUtils.ArgParser.Registry

namespace clockUtils.argParser

/-- The arguments of `REGISTER_VARIABLE_INTERNAL`; `shortname` is the text of its
argument, and so is `valueText` beside the default value. -/
structure Registration where
  T : Type
  extract : Bytes → Extraction T
  isBool : Bool
  longname : Bytes
  shortname : Bytes
  value : T
  valueText : Bytes
  description : Bytes
  required : Bool
  multiple : Bool

namespace Registration

/-- The `Variable` that the macro declares. -/
def toVariable (r : Registration) : BasicVariable :=
  .new r.extract r.isBool r.longname r.shortname r.value r.required r.multiple

/-- The names of a variable; a short name `""` is none. -/
def names (r : Registration) : Bytes :=
  literal "\t--" ++ r.longname ++
    if r.shortname ≠ literal "\"\"" then literal ", -" ++ r.shortname else []

/-- The line that the macro adds to the help text. -/
def helpText (r : Registration) : Bytes :=
  r.names ++ List.replicate (16 - r.names.length) 32 ++
    literal "[Default: " ++ r.valueText ++ literal "]" ++
    List.replicate (15 - r.valueText.length) 32 ++ r.description ++
    (if r.required then literal " (required)" else []) ++
    (if r.multiple then literal " (multiple)" else [])

end Registration

/-- What happens to variables and lines. `copies` and `assigns` are the copy
constructor and the copy assignment that the compiler gives every `Variable<T>`. -/
inductive HelpEvent where
  | registers (address : Nat) (r : Registration)
  /-- `Parser::addHelpTextLine` -/
  | line (name text : Bytes)
  | copies (address source : Nat)
  | assigns (address source : Nat)
  | ends (address : Nat)

/-- `Parser::variableList` and `Parser::helpTexts`. -/
structure HelpRegistry where
  registry : Registry
  helpTexts : Std.TreeMap Bytes Bytes

namespace HelpRegistry

def empty : HelpRegistry where
  registry := Registry.empty
  helpTexts := ∅

/-- `BasicVariable::~BasicVariable`, which erases a line when it has erased a
variable. -/
def destroy (r : HelpRegistry) (address : Nat) : Option HelpRegistry :=
  match r.registry.objects address with
  | none => none
  | some v =>
    (r.registry.destroy address).map fun registry =>
      ⟨registry,
        if r.registry.variableList.any fun pointer =>
            (r.registry.objects pointer).any fun other => v.longname = other.longname then
          r.helpTexts.erase v.longname
        else r.helpTexts⟩

/-- `std::map::insert` keeps a line that is there. -/
def addHelpTextLine (r : HelpRegistry) (name text : Bytes) : HelpRegistry :=
  { r with helpTexts := r.helpTexts.insertIfNew name text }

/-- All members are copied, the names too; `variableList` does not learn of it. -/
def copy (r : HelpRegistry) (address source : Nat) : Option HelpRegistry :=
  (r.registry.objects source).map fun v =>
    { r with registry := { r.registry with
      objects := Function.update r.registry.objects address (some v) } }

def step (r : HelpRegistry) : HelpEvent → Option HelpRegistry
  | .registers address reg =>
    some ⟨r.registry.construct address reg.toVariable,
      (r.addHelpTextLine reg.longname reg.helpText).helpTexts⟩
  | .line name text => some (r.addHelpTextLine name text)
  | .copies address source => r.copy address source
  | .assigns address source =>
    if (r.registry.objects address).isSome then r.copy address source else none
  | .ends address => r.destroy address

def run (r : HelpRegistry) : List HelpEvent → Option HelpRegistry
  | [] => some r
  | event :: events =>
    match r.step event with
    | none => none
    | some r' => r'.run events

/-- The loop of `getHelpText`. -/
def joinLines : List Bytes → Bytes
  | [] => []
  | [line] => line
  | line :: lines => line ++ 10 :: joinLines lines

/-- `Parser::getHelpText` -/
def getHelpText (r : HelpRegistry) : Bytes :=
  joinLines (r.helpTexts.toList.map Prod.snd)

end HelpRegistry

/-- The live registered variables in the order of their registration, the live copies
of variables, which are not registered, and the other lines. -/
structure Declared where
  live : List (Nat × Registration)
  copies : Live
  lines : List (Bytes × Bytes)

namespace Declared

def empty : Declared where
  live := []
  copies := []
  lines := []

/-- The variables as the registry has them. -/
def registered (d : Declared) : Live :=
  d.live.map fun entry => (entry.1, entry.2.toVariable)

/-- All variables that exist. -/
def objects (d : Declared) : Live :=
  d.registered ++ d.copies

/-- The copy at this address has the members of the variable at `source`. -/
def copy (d : Declared) (address source : Nat) : Declared :=
  match d.objects.find? fun entry => entry.1 = source with
  | none => d
  | some entry =>
    { d with copies := d.copies.filter (fun other => other.1 ≠ address) ++ [(address, entry.2)] }

def after (d : Declared) : HelpEvent → Declared
  | .registers address reg => { d with live := d.live ++ [(address, reg)] }
  | .line name text => { d with lines := d.lines ++ [(name, text)] }
  | .copies address source | .assigns address source => d.copy address source
  | .ends address =>
    { d with
      live := d.live.filter fun entry => entry.1 ≠ address
      copies := d.copies.filter fun entry => entry.1 ≠ address }

/-- The lines with their names. -/
def shown (d : Declared) : List (Bytes × Bytes) :=
  d.live.map (fun entry => (entry.2.longname, entry.2.helpText)) ++ d.lines

/-- A variable begins where none exists, only an existing one is copied, assigned to
or ends, and a new line has a name that is not used. No registered variable is
assigned to, and a copy ends when no registered variable has its name. -/
def Possible (d : Declared) : HelpEvent → Prop
  | .registers address reg =>
    address ∉ d.objects.map Prod.fst ∧ reg.longname ∉ d.shown.map Prod.fst
  | .line name _ => name ∉ d.shown.map Prod.fst
  | .copies address source =>
    address ∉ d.objects.map Prod.fst ∧ source ∈ d.objects.map Prod.fst
  | .assigns address source =>
    address ∈ d.copies.map Prod.fst ∧ source ∈ d.objects.map Prod.fst
  | .ends address =>
    address ∈ d.live.map Prod.fst ∨
      ∃ v, (address, v) ∈ d.copies ∧ v.longname ∉ d.live.map fun entry => entry.2.longname

def AllPossible (d : Declared) : List HelpEvent → Prop
  | [] => True
  | event :: events => d.Possible event ∧ AllPossible (d.after event) events

theorem longnames_nodup {d : Declared} (hNames : (d.shown.map Prod.fst).Nodup) :
    (d.live.map fun entry => entry.2.longname).Nodup := by
  rw [shown, List.map_append, List.nodup_append, List.map_map] at hNames
  exact hNames.1

@[simp]
theorem registered_addresses (d : Declared) :
    d.registered.map Prod.fst = d.live.map Prod.fst := by
  rw [registered, List.map_map]
  rfl

theorem objects_ends (d : Declared) (address : Nat) :
    (d.after (.ends address)).objects = d.objects.filter fun entry => entry.1 ≠ address := by
  simp only [objects, registered, after, List.filter_append, List.filter_map]
  rfl

/-- What a copy leaves as it is. -/
theorem copy_live (d : Declared) (address source : Nat) :
    (d.copy address source).live = d.live ∧ (d.copy address source).lines = d.lines := by
  rw [copy]
  split
  · exact ⟨rfl, rfl⟩
  · exact ⟨rfl, rfl⟩

theorem shown_copy (d : Declared) (address source : Nat) :
    (d.copy address source).shown = d.shown := by
  rw [shown, (d.copy_live address source).1, (d.copy_live address source).2]
  rfl

theorem registered_copy (d : Declared) (address source : Nat) :
    (d.copy address source).registered = d.registered := by
  rw [registered, (d.copy_live address source).1]
  rfl

/-- Where no name is used twice, a variable that ends takes its line away. -/
theorem shown_ends (d : Declared) (hNames : (d.shown.map Prod.fst).Nodup)
    (hAddresses : (d.live.map Prod.fst).Nodup) {address : Nat} {reg : Registration}
    (hEntry : (address, reg) ∈ d.live) :
    (d.after (.ends address)).shown = d.shown.filter fun line => line.1 ≠ reg.longname := by
  have hLive : ∀ entry ∈ d.live, entry.1 = address ↔ entry.2.longname = reg.longname := by
    intro entry hMem
    constructor
    · intro hSame
      rw [List.inj_on_of_nodup_map hAddresses hMem hEntry hSame]
    · intro hSame
      rw [List.inj_on_of_nodup_map (longnames_nodup hNames) hMem hEntry hSame]
  have hLines : ∀ line ∈ d.lines, line.1 ≠ reg.longname := by
    intro line hMem
    rw [shown, List.map_append, List.nodup_append, List.map_map] at hNames
    exact fun hSame => hNames.2.2 _ (List.mem_map_of_mem hEntry) _ (List.mem_map_of_mem hMem) hSame.symm
  have hKept : d.lines.filter (fun line => line.1 ≠ reg.longname) = d.lines :=
    List.filter_eq_self.mpr fun line hMem => by simpa using hLines line hMem
  have hRest : d.live.filter (fun entry => entry.1 ≠ address) =
      d.live.filter fun entry => entry.2.longname ≠ reg.longname := by
    apply List.filter_congr
    intro entry hMem
    simp [hLive entry hMem]
  rw [after, shown, shown, List.filter_append, hKept, List.filter_map, hRest]
  rfl

theorem shown_registers (d : Declared) (address : Nat) (reg : Registration) :
    (d.after (.registers address reg)).shown.Perm ((reg.longname, reg.helpText) :: d.shown) := by
  simp only [after, shown, List.map_append, List.map_singleton, List.append_assoc]
  exact List.perm_middle

theorem shown_line (d : Declared) (name text : Bytes) :
    (d.after (.line name text)).shown.Perm ((name, text) :: d.shown) := by
  simp only [after, shown, ← List.append_assoc]
  exact List.perm_append_singleton _ _

end Declared

namespace HelpRegistry

variable {r r' : HelpRegistry} {d : Declared}

/-- The list and the map hold the live variables and the lines. -/
structure Shows (d : Declared) (r : HelpRegistry) : Prop where
  list : r.registry.variableList = d.registered.map Prod.fst
  holds : Registry.Holds d.objects r.registry.objects
  names : (d.shown.map Prod.fst).Nodup
  texts : ∀ name text, r.helpTexts[name]? = some text ↔ (name, text) ∈ d.shown

theorem Shows.registered (h : Shows d r) : Registry.Holds d.registered r.registry.objects :=
  h.holds.left

theorem Shows.addresses_nodup (h : Shows d r) : (d.live.map Prod.fst).Nodup := by
  simpa using h.registered.nodup

/-- The lines in the order of the map are the shown ones. -/
theorem Shows.toList_perm (h : Shows d r) : r.helpTexts.toList.Perm d.shown := by
  have hDistinct : r.helpTexts.toList.Nodup := by
    refine Std.TreeMap.distinct_keys_toList.imp fun {a b} hNe => ?_
    rintro rfl
    exact hNe Std.ReflCmp.compare_self
  rw [List.perm_ext_iff_of_nodup hDistinct (List.Nodup.of_map _ h.names)]
  rintro ⟨name, text⟩
  rw [Std.TreeMap.mem_toList_iff_getElem?_eq_some, h.texts]

theorem names_add (h : Shows d r) {name text : Bytes} (hNew : name ∉ d.shown.map Prod.fst)
    {shown : List (Bytes × Bytes)} (hShown : shown.Perm ((name, text) :: d.shown)) :
    (shown.map Prod.fst).Nodup := by
  rw [(hShown.map Prod.fst).nodup_iff, List.map_cons, List.nodup_cons]
  exact ⟨hNew, h.names⟩

/-- A line with a name that is not used is added. -/
theorem texts_add (h : Shows d r) {name text : Bytes} (hNew : name ∉ d.shown.map Prod.fst)
    {shown : List (Bytes × Bytes)} (hShown : shown.Perm ((name, text) :: d.shown))
    (name' text' : Bytes) :
    (r.helpTexts.insertIfNew name text)[name']? = some text' ↔ (name', text') ∈ shown := by
  have hAbsent : name ∉ r.helpTexts := by
    intro hMem
    rw [Std.TreeMap.mem_iff_isSome_getElem?, Option.isSome_iff_exists] at hMem
    obtain ⟨old, hOld⟩ := hMem
    exact hNew (List.mem_map_of_mem ((h.texts name old).mp hOld))
  rw [Std.TreeMap.getElem?_insertIfNew, hShown.mem_iff, List.mem_cons]
  simp only [Std.LawfulEqCmp.compare_eq_iff_eq]
  by_cases hSame : name = name'
  · subst hSame
    rw [if_pos ⟨rfl, hAbsent⟩, Option.some.injEq]
    constructor
    · rintro rfl
      exact .inl rfl
    · rintro (hEq | hMem)
      · exact (Prod.mk.inj hEq).2.symm
      · exact absurd (List.mem_map_of_mem hMem) hNew
  · rw [if_neg fun hBoth => hSame hBoth.1, h.texts]
    constructor
    · exact .inr
    · rintro (hEq | hMem)
      · exact absurd (Prod.mk.inj hEq).1.symm hSame
      · exact hMem

/-- The line of a live variable is erased. -/
theorem texts_erase (h : Shows d r) {address : Nat} {reg : Registration}
    (hEntry : (address, reg) ∈ d.live) (name text : Bytes) :
    (r.helpTexts.erase reg.longname)[name]? = some text ↔
      (name, text) ∈ (d.after (.ends address)).shown := by
  have hShown := d.shown_ends h.names h.addresses_nodup hEntry
  rw [Std.TreeMap.getElem?_erase, hShown, List.mem_filter, ← h.texts]
  simp only [Std.LawfulEqCmp.compare_eq_iff_eq]
  by_cases hName : reg.longname = name
  · simp [hName]
  · simp [hName, Ne.symm hName]

/-- A live variable is the only one of its name. -/
theorem Shows.oldest (h : Shows d r) {address : Nat} {reg : Registration}
    (hEntry : (address, reg) ∈ d.live) : d.registered.Oldest address := by
  refine ⟨reg.toVariable, ?_⟩
  have hMem : (address, reg.toVariable) ∈ d.registered := List.mem_map_of_mem hEntry
  have hSome : (d.registered.find? fun entry => reg.toVariable.longname = entry.2.longname).isSome := by
    rw [List.find?_isSome]
    exact ⟨_, hMem, by simp⟩
  obtain ⟨found, hFound⟩ := Option.isSome_iff_exists.mp hSome
  have hName := List.find?_some hFound
  obtain ⟨entry, hLive, rfl⟩ := List.mem_map.mp (List.mem_of_find?_eq_some hFound)
  have hEq : entry = (address, reg) := by
    refine List.inj_on_of_nodup_map (Declared.longnames_nodup h.names) hLive hEntry ?_
    exact (of_decide_eq_true hName).symm
  rw [hFound, hEq]

/-- A copy takes the members of its source. -/
theorem Shows.copy (h : Shows d r) {address source : Nat}
    (hFree : address ∉ d.live.map Prod.fst) (hSource : source ∈ d.objects.map Prod.fst) :
    ∃ r', r.copy address source = some r' ∧ Shows (d.copy address source) r' := by
  obtain ⟨⟨source, v⟩, hEntry, rfl⟩ := List.mem_map.mp hSource
  have hObject := h.holds.object _ hEntry
  have hFind : d.objects.find? (fun entry => entry.1 = source) = some (source, v) := by
    have hSome : (d.objects.find? fun entry => entry.1 = source).isSome := by
      rw [List.find?_isSome]
      exact ⟨_, hEntry, by simp⟩
    obtain ⟨found, hFound⟩ := Option.isSome_iff_exists.mp hSome
    have hName := List.find?_some hFound
    have hSame := List.inj_on_of_nodup_map h.holds.nodup (List.mem_of_find?_eq_some hFound) hEntry
      (of_decide_eq_true hName)
    rw [hFound, hSame]
  refine ⟨_, by rw [HelpRegistry.copy, hObject, Option.map_some], ?_, ?_, ?_, ?_⟩
  · rw [Declared.registered_copy]
    exact h.list
  · have hKept : d.registered.filter (fun entry => entry.1 ≠ address) = d.registered :=
      Registry.filter_ne_of_not_mem (by simpa using hFree)
    have hObjects : (d.copy address source).objects =
        d.objects.filter (fun entry => entry.1 ≠ address) ++ [(address, v)] := by
      rw [Declared.objects, Declared.registered_copy, Declared.copy, hFind, Declared.objects,
        List.filter_append, hKept, List.append_assoc]
    rw [hObjects]
    have hGone : address ∉ (d.objects.filter fun entry => entry.1 ≠ address).map Prod.fst := by
      simp
    have hHolds := Registry.holds_construct
      (r := ⟨Function.update r.registry.objects address none, []⟩)
      (Registry.holds_filter h.holds address) hGone v
    simpa [Registry.construct] using hHolds
  · rw [Declared.shown_copy]
    exact h.names
  · rw [Declared.shown_copy]
    exact h.texts

/-- A registered variable ends: the loop finds the variable itself, and it is erased with
its line. -/
theorem Shows.endsLive (h : Shows d r) {address : Nat} {reg : Registration}
    (hEntry : (address, reg) ∈ d.live) :
    ∃ r', r.step (.ends address) = some r' ∧ Shows (d.after (.ends address)) r' := by
  have hMem : (address, reg.toVariable) ∈ d.registered := List.mem_map_of_mem hEntry
  have hObject := h.registered.object _ hMem
  have hLive : d.registered.Possible (.ends address) := List.mem_map_of_mem hMem
  obtain ⟨registry, hStep, -, hExact⟩ := Registry.step_exact h.list h.registered hLive
  have hAfter : d.registered.after (.ends address) = (d.after (.ends address)).registered := by
    simp only [Live.after, Declared.registered, Declared.after, List.filter_map]
    rfl
  have hFound : (r.registry.variableList.any fun pointer => (r.registry.objects pointer).any
      fun other => reg.toVariable.longname = other.longname) = true := by
    rw [List.any_eq_true]
    refine ⟨address, ?_, by simp [hObject]⟩
    rw [h.list]
    exact List.mem_map_of_mem hMem
  have hList := hExact.mpr fun other hOther => by
    cases hOther
    exact h.oldest hEntry
  have hRegistry : r.registry.destroy address = some registry := hStep
  have hDestroy : r.step (.ends address) = some ⟨registry, r.helpTexts.erase reg.longname⟩ := by
    simp only [HelpRegistry.step, destroy, hObject, hRegistry, Option.map_some, hFound, if_true]
    rfl
  rw [hAfter] at hList
  refine ⟨_, hDestroy, hList, ?_, ?_, texts_erase h hEntry⟩
  · rw [Declared.objects_ends, Registry.destroy_objects hRegistry]
    exact Registry.holds_filter h.holds address
  · rw [d.shown_ends h.names h.addresses_nodup hEntry]
    exact h.names.sublist (List.filter_sublist.map _)

/-- A copy ends whose name no registered variable has: nothing is erased. -/
theorem Shows.endsCopy (h : Shows d r) {address : Nat} {v : BasicVariable}
    (hEntry : (address, v) ∈ d.copies)
    (hName : v.longname ∉ d.live.map fun entry => entry.2.longname) :
    ∃ r', r.step (.ends address) = some r' ∧ Shows (d.after (.ends address)) r' := by
  have hObject := h.holds.object _ (List.mem_append_right d.registered hEntry)
  have hNames : ∀ entry ∈ d.registered, v.longname ≠ entry.2.longname := by
    rintro entry hMem hSame
    obtain ⟨entry, hLive, rfl⟩ := List.mem_map.mp hMem
    exact hName (List.mem_map.mpr ⟨entry, hLive, hSame.symm⟩)
  have hErase := Registry.eraseName_live h.registered v.longname
  rw [← h.list, List.eraseP_of_forall_not fun entry hMem => by simpa using hNames entry hMem,
    ← h.list] at hErase
  have hMissed : (r.registry.variableList.any fun pointer => (r.registry.objects pointer).any
      fun other => v.longname = other.longname) = false := by
    rw [List.any_eq_false]
    intro pointer hPointer
    rw [h.list] at hPointer
    obtain ⟨entry, hMem, rfl⟩ := List.mem_map.mp hPointer
    simpa [h.registered.object entry hMem] using hNames entry hMem
  have hFree : address ∉ d.live.map Prod.fst := by
    have hNodup := h.holds.nodup
    rw [Declared.objects, List.map_append, List.nodup_append, Declared.registered_addresses]
      at hNodup
    exact fun hMem => hNodup.2.2 address hMem address (List.mem_map_of_mem hEntry) rfl
  have hKept : d.live.filter (fun entry => entry.1 ≠ address) = d.live := by
    rw [List.filter_eq_self]
    intro entry hMem
    have hNe : entry.1 ≠ address := fun hSame => hFree (hSame ▸ List.mem_map_of_mem hMem)
    simpa using hNe
  have hDestroy : r.step (.ends address) = some ⟨⟨Function.update r.registry.objects address none,
      r.registry.variableList⟩, r.helpTexts⟩ := by
    simp only [HelpRegistry.step, destroy, Registry.destroy, hObject, hErase, Option.map_some,
      hMissed, Bool.false_eq_true, if_false]
  refine ⟨_, hDestroy, ?_, ?_, ?_, ?_⟩
  · rw [Declared.registered_addresses, Declared.after, hKept, ← Declared.registered_addresses]
    exact h.list
  · rw [Declared.objects_ends]
    exact Registry.holds_filter h.holds address
  · rw [Declared.shown, Declared.after, hKept]
    exact h.names
  · rw [Declared.shown, Declared.after, hKept]
    exact h.texts

theorem Shows.step (h : Shows d r) {event : HelpEvent} (hPossible : d.Possible event) :
    ∃ r', r.step event = some r' ∧ Shows (d.after event) r' := by
  cases event with
  | registers address reg =>
    obtain ⟨hFree, hNew⟩ := hPossible
    refine ⟨_, rfl, ?_, ?_, ?_, ?_⟩
    · simp [Registry.construct, h.list, Declared.after, Declared.registered]
    · have hHolds := Registry.holds_construct (r := r.registry) h.holds hFree reg.toVariable
      refine hHolds.perm ?_
      simp only [Declared.objects, Declared.registered, Declared.after, List.map_append,
        List.map_singleton, List.append_assoc]
      exact (List.perm_append_comm).append_left _
    · exact names_add h hNew (d.shown_registers address reg)
    · exact texts_add h hNew (d.shown_registers address reg)
  | line name text =>
    refine ⟨_, rfl, h.list, h.holds, ?_, ?_⟩
    · exact names_add h hPossible (d.shown_line name text)
    · exact texts_add h hPossible (d.shown_line name text)
  | copies address source =>
    refine h.copy ?_ hPossible.2
    intro hMem
    apply hPossible.1
    rw [Declared.objects, List.map_append, Declared.registered_addresses]
    exact List.mem_append_left _ hMem
  | assigns address source =>
    obtain ⟨hCopy, hSource⟩ := hPossible
    obtain ⟨⟨address, v⟩, hEntry, rfl⟩ := List.mem_map.mp hCopy
    have hObject := h.holds.object _ (List.mem_append_right d.registered hEntry)
    have hFree : address ∉ d.live.map Prod.fst := by
      have hNodup := h.holds.nodup
      rw [Declared.objects, List.map_append, List.nodup_append, Declared.registered_addresses]
        at hNodup
      exact fun hMem => hNodup.2.2 address hMem address hCopy rfl
    obtain ⟨r', hStep, hShows⟩ := h.copy hFree hSource
    exact ⟨r', by rw [HelpRegistry.step, hObject]; exact hStep, hShows⟩
  | ends address =>
    rcases hPossible with hLive | ⟨v, hEntry, hName⟩
    · obtain ⟨⟨address, reg⟩, hEntry, rfl⟩ := List.mem_map.mp hLive
      exact h.endsLive hEntry
    · exact h.endsCopy hEntry hName

theorem Shows.run {events : List HelpEvent} (h : Shows d r) (hPossible : d.AllPossible events) :
    ∃ r', r.run events = some r' ∧ Shows (events.foldl Declared.after d) r' := by
  induction events generalizing r d with
  | nil => exact ⟨r, rfl, h⟩
  | cons event events ih =>
    obtain ⟨r₁, hStep, hNext⟩ := h.step hPossible.1
    obtain ⟨r', hRun, hLast⟩ := ih hNext hPossible.2
    refine ⟨r', ?_, hLast⟩
    rw [HelpRegistry.run, hStep]
    exact hRun

theorem empty_shows : Shows Declared.empty empty where
  list := rfl
  holds := ⟨by simp [Declared.objects, Declared.registered, Declared.empty], List.nodup_nil⟩
  names := List.nodup_nil
  texts name text := by simp [empty, Declared.shown, Declared.empty]

/-- The help text and the list of variables stay in step in every program that
registers variables, adds lines, copies variables, assigns to copies and destroys
variables, where a new variable or line has a name that is not used, no registered
variable is assigned from another one, and a copy ends only when no registered
variable has its name: every destruction is defined, parsing acts on exactly the live
registered variables, and the help text is made of exactly their lines and the added
ones, each once and in the order of the names. -/
theorem help_text_in_step (events : List HelpEvent)
    (hPossible : Declared.empty.AllPossible events) :
    ∃ r, empty.run events = some r ∧
      r.registry.Exact (events.foldl Declared.after Declared.empty).registered ∧
      ∃ shown : List (Bytes × Bytes),
        shown.Perm (events.foldl Declared.after Declared.empty).shown ∧
        shown.Pairwise (fun a b => compare a.1 b.1 = .lt) ∧
        r.getHelpText = joinLines (shown.map Prod.snd) := by
  obtain ⟨r, hRun, hShows⟩ := empty_shows.run hPossible
  refine ⟨r, hRun, .of_holds hShows.list hShows.registered, r.helpTexts.toList, hShows.toList_perm, ?_, rfl⟩
  exact Std.TreeMap.ordered_keys_toList

/-- Two variables of the source's test of the help text. -/
def stringVariable : Registration where
  T := Bytes
  extract := BasicVariable.extractString
  isBool := false
  longname := literal "s"
  shortname := literal "s"
  value := []
  valueText := literal "\"\""
  description := literal "A string variable"
  required := false
  multiple := false

def longVariable : Registration where
  T := Int
  extract := BasicVariable.extractAny fun _ => (0, false)
  isBool := false
  longname := literal "variable"
  shortname := literal "v"
  value := 15
  valueText := literal "15"
  description := literal "A long and short variable"
  required := false
  multiple := false

/-- One of them is copied and ends, and so does the copy. -/
theorem help_text_in_step_one :
    ∃ r, empty.run [.registers 1 stringVariable, .registers 2 longVariable, .copies 3 1, .ends 1,
        .ends 3] = some r ∧
      r.getHelpText = literal "\t--variable, -v [Default: 15]             A long and short variable" := by
  have hPossible : Declared.empty.AllPossible
      [.registers 1 stringVariable, .registers 2 longVariable, .copies 3 1, .ends 1, .ends 3] := by
    refine ⟨⟨by decide, by decide⟩, ⟨by decide, ?_⟩, ⟨by decide, by decide⟩, .inl (by decide),
      .inr ⟨stringVariable.toVariable, List.mem_cons_self, ?_⟩, trivial⟩
    · change longVariable.longname ∉ [stringVariable.longname]
      decide
    · change stringVariable.longname ∉ [longVariable.longname]
      decide
  obtain ⟨r, hRun, -, shown, hShown, -, hText⟩ := help_text_in_step _ hPossible
  have hOne : shown = [(longVariable.longname, longVariable.helpText)] :=
    List.perm_singleton.mp hShown
  refine ⟨r, hRun, ?_⟩
  rw [hText, hOne]
  decide

end HelpRegistry

end clockUtils.argParser
