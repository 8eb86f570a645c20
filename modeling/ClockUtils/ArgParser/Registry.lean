import ClockUtils.ArgParser.Parser
import Mathlib.Data.List.Infix
import Mathlib.Data.List.Nodup

namespace clockUtils.argParser

/-- `Parser::variableList` with the memory that its pointers go to. An address
at which no variable lives has no object. -/
structure Registry where
  objects : Nat → Option BasicVariable
  variableList : List Nat

/-- Construction and destruction of a `Variable`. -/
inductive Lifetime where
  | begins (address : Nat) (v : BasicVariable)
  | ends (address : Nat)

namespace Registry

def empty : Registry where
  objects _ := none
  variableList := []

/-- `BasicVariable::BasicVariable` -/
def construct (r : Registry) (address : Nat) (v : BasicVariable) : Registry where
  objects := Function.update r.objects address (some v)
  variableList := r.variableList ++ [address]

/-- The loop of `~BasicVariable`, which erases the first variable of that name;
`none` when it reads the name of a variable that no longer exists. -/
def eraseName (objects : Nat → Option BasicVariable) (longname : Bytes) : List Nat → Option (List Nat)
  | [] => some []
  | pointer :: pointers =>
    match objects pointer with
    | none => none
    | some v =>
      if longname = v.longname then some pointers
      else (eraseName objects longname pointers).map (pointer :: ·)

/-- `BasicVariable::~BasicVariable`. The variable still exists while the loop
looks for it. -/
def destroy (r : Registry) (address : Nat) : Option Registry :=
  match r.objects address with
  | none => none
  | some v =>
    match eraseName r.objects v.longname r.variableList with
    | none => none
    | some pointers => some ⟨Function.update r.objects address none, pointers⟩

def step (r : Registry) : Lifetime → Option Registry
  | .begins address v => some (r.construct address v)
  | .ends address => r.destroy address

def run (r : Registry) : List Lifetime → Option Registry
  | [] => some r
  | event :: events =>
    match r.step event with
    | none => none
    | some r' => r'.run events

/-- The objects behind a list of pointers, if they all exist. -/
def dereference (objects : Nat → Option BasicVariable) : List Nat → Option (List BasicVariable)
  | [] => some []
  | pointer :: pointers =>
    match objects pointer with
    | none => none
    | some v => (dereference objects pointers).map (v :: ·)

/-- `parseArguments` with the other static members of `statics`. It begins with
a call on every variable of the list. -/
def parseArguments (r : Registry) (statics : Parser) (argv : List Bytes) :
    Option (ClockError × Parser) :=
  (dereference r.objects r.variableList).map fun list =>
    { statics with variableList := list }.parseArguments argv

end Registry

/-- The constructed and not yet destroyed variables, in construction order. -/
abbrev Live := List (Nat × BasicVariable)

namespace Live

def after (live : Live) : Lifetime → Live
  | .begins address v => live ++ [(address, v)]
  | .ends address => live.filter fun entry => entry.1 ≠ address

def afterAll (live : Live) (events : List Lifetime) : Live :=
  events.foldl after live

/-- A variable begins where none lives, and only a live one ends. -/
def Possible (live : Live) : Lifetime → Prop
  | .begins address _ => address ∉ live.map Prod.fst
  | .ends address => address ∈ live.map Prod.fst

def AllPossible (live : Live) : List Lifetime → Prop
  | [] => True
  | event :: events => live.Possible event ∧ AllPossible (live.after event) events

/-- The variable is the oldest live one of its long name. -/
def Oldest (live : Live) (address : Nat) : Prop :=
  ∃ v, live.find? (fun entry => v.longname = entry.2.longname) = some (address, v)

end Live

/-- The constructions and destructions of a program in their order. -/
structure History where
  events : List Lifetime
  possible : Live.AllPossible [] events

/-- The list points exactly to the live variables, and parsing acts on exactly
these. -/
structure Registry.Exact (live : Live) (r : Registry) : Prop where
  variableList_eq : r.variableList = live.map Prod.fst
  parse_eq : ∀ statics argv, r.parseArguments statics argv =
    some ({ statics with variableList := live.map Prod.snd }.parseArguments argv)

namespace Registry

/-- The memory holds the live variables, each at its own address. -/
structure Holds (live : Live) (objects : Nat → Option BasicVariable) : Prop where
  object : ∀ entry ∈ live, objects entry.1 = some entry.2
  nodup : (live.map Prod.fst).Nodup

theorem Holds.tail {entry : Nat × BasicVariable} {live : Live}
    {objects : Nat → Option BasicVariable} (h : Holds (entry :: live) objects) : Holds live objects :=
  ⟨fun other hother => h.object other (List.mem_cons_of_mem _ hother),
    (List.nodup_cons.mp h.nodup).2⟩

theorem Holds.left {live more : Live} {objects : Nat → Option BasicVariable}
    (h : Holds (live ++ more) objects) : Holds live objects :=
  ⟨fun entry hentry => h.object entry (List.mem_append_left more hentry),
    h.nodup.sublist ((List.sublist_append_left live more).map Prod.fst)⟩

theorem Holds.perm {live live' : Live} {objects : Nat → Option BasicVariable}
    (h : Holds live objects) (hperm : live.Perm live') : Holds live' objects :=
  ⟨fun entry hentry => h.object entry (hperm.mem_iff.mpr hentry),
    (hperm.map Prod.fst).nodup_iff.mp h.nodup⟩

theorem dereference_live {live : Live} {objects : Nat → Option BasicVariable}
    (h : Holds live objects) : dereference objects (live.map Prod.fst) = some (live.map Prod.snd) := by
  induction live with
  | nil => rfl
  | cons entry live ih =>
    simp only [List.map_cons, dereference, h.object entry List.mem_cons_self, ih h.tail,
      Option.map_some]

theorem Exact.of_holds {live : Live} {r : Registry} (hlist : r.variableList = live.map Prod.fst)
    (h : Holds live r.objects) : r.Exact live := by
  refine ⟨hlist, ?_⟩
  intro statics argv
  rw [parseArguments, hlist, dereference_live h]
  rfl

/-- On a list of live variables the loop of the destructor finds the first one
with the name. -/
theorem eraseName_live {live : Live} {objects : Nat → Option BasicVariable} (h : Holds live objects)
    (longname : Bytes) : eraseName objects longname (live.map Prod.fst) =
      some ((live.eraseP fun entry => longname = entry.2.longname).map Prod.fst) := by
  induction live with
  | nil => rfl
  | cons entry live ih =>
    simp only [List.map_cons, eraseName, h.object entry List.mem_cons_self, ih h.tail]
    by_cases hname : longname = entry.2.longname
    · rw [if_pos hname, List.eraseP_cons_of_pos (by simpa using hname)]
    · rw [if_neg hname, List.eraseP_cons_of_neg (by simpa using hname)]
      rfl

theorem filter_ne_of_not_mem {live : Live} {address : Nat} (h : address ∉ live.map Prod.fst) :
    live.filter (fun entry => entry.1 ≠ address) = live := by
  rw [List.filter_eq_self]
  intro entry hentry
  have hne : entry.1 ≠ address := by
    rintro rfl
    exact h (List.mem_map_of_mem hentry)
  simpa using hne

/-- Erasing by the name of a live variable removes this variable just when it
is the first one of the name. -/
theorem eraseP_name_eq_iff {live : Live} (hnodup : (live.map Prod.fst).Nodup) {address : Nat}
    {v : BasicVariable} (hentry : (address, v) ∈ live) :
    (live.eraseP fun entry => v.longname = entry.2.longname).map Prod.fst =
        (live.filter fun entry => entry.1 ≠ address).map Prod.fst ↔
      live.find? (fun entry => v.longname = entry.2.longname) = some (address, v) := by
  induction live with
  | nil => simp at hentry
  | cons entry live ih =>
    rw [List.map_cons, List.nodup_cons] at hnodup
    by_cases hself : entry = (address, v)
    · subst hself
      rw [List.eraseP_cons_of_pos (by simp), List.find?_cons_of_pos (by simp),
        List.filter_cons_of_neg (by simp), filter_ne_of_not_mem hnodup.1]
      simp
    · have hmem : (address, v) ∈ live := by
        rcases List.mem_cons.mp hentry with heq | hmem
        · exact absurd heq.symm hself
        · exact hmem
      have hne : entry.1 ≠ address := by
        intro heq
        exact hnodup.1 (heq ▸ List.mem_map_of_mem hmem)
      rw [List.filter_cons_of_pos (by simpa using hne), List.map_cons]
      by_cases hname : v.longname = entry.2.longname
      · rw [List.eraseP_cons_of_pos (by simpa using hname),
          List.find?_cons_of_pos (by simpa using hname), Option.some.injEq]
        constructor
        · intro heq
          exact absurd (heq ▸ List.mem_cons_self) hnodup.1
        · intro heq
          exact absurd heq hself
      · rw [List.eraseP_cons_of_neg (by simpa using hname),
          List.find?_cons_of_neg (by simpa using hname), List.map_cons, List.cons.injEq,
          ih hnodup.2 hmem]
        exact and_iff_right rfl

theorem holds_construct {live : Live} {r : Registry} (h : Holds live r.objects) {address : Nat}
    (hfree : address ∉ live.map Prod.fst) (v : BasicVariable) :
    Holds (live ++ [(address, v)]) (r.construct address v).objects := by
  constructor
  · intro entry hentry
    rcases List.mem_append.mp hentry with hold | hnew
    · have hne : entry.1 ≠ address := fun heq => hfree (heq ▸ List.mem_map_of_mem hold)
      simp only [construct, Function.update_of_ne hne]
      exact h.object entry hold
    · obtain rfl := List.mem_singleton.mp hnew
      exact Function.update_self ..
  · rw [List.map_append, List.map_cons, List.map_nil]
    exact List.Nodup.append h.nodup (List.nodup_singleton _) (by simpa using hfree)

theorem holds_filter {live : Live} {objects : Nat → Option BasicVariable} (h : Holds live objects)
    (address : Nat) : Holds (live.filter fun entry => entry.1 ≠ address)
      (Function.update objects address none) := by
  constructor
  · intro entry hentry
    obtain ⟨hmem, hne⟩ := List.mem_filter.mp hentry
    rw [Function.update_of_ne (by simpa using hne)]
    exact h.object entry hmem
  · exact h.nodup.sublist (List.filter_sublist.map _)

theorem destroy_objects {r r' : Registry} {address : Nat} (h : r.destroy address = some r') :
    r'.objects = Function.update r.objects address none := by
  rw [destroy] at h
  split at h
  · cases h
  · split at h
    · cases h
    · obtain rfl := Option.some.inj h
      rfl

/-- One construction or destruction. It never fails on an exact list, and keeps
it exact unless it destroys a variable in whose place an older one is erased. -/
theorem step_exact {live : Live} {r : Registry} (hlist : r.variableList = live.map Prod.fst)
    (h : Holds live r.objects) {event : Lifetime} (hpossible : live.Possible event) :
    ∃ r', r.step event = some r' ∧ Holds (live.after event) r'.objects ∧
      (r'.variableList = (live.after event).map Prod.fst ↔
        ∀ address, event = .ends address → live.Oldest address) := by
  cases event with
  | begins address v =>
    refine ⟨r.construct address v, rfl, holds_construct h hpossible v, ?_⟩
    simp [construct, hlist, Live.after]
  | ends address =>
    obtain ⟨⟨address, v⟩, hentry, rfl⟩ := List.mem_map.mp hpossible
    have herase := eraseName_live h v.longname
    rw [← hlist] at herase
    have hdestroy : r.step (.ends address) = some ⟨Function.update r.objects address none,
        (live.eraseP fun entry => v.longname = entry.2.longname).map Prod.fst⟩ := by
      simp only [step, destroy, h.object _ hentry, herase]
    refine ⟨_, hdestroy, holds_filter h address, ?_⟩
    rw [Live.after, eraseP_name_eq_iff h.nodup hentry]
    constructor
    · rintro hfirst _ ⟨⟩
      exact ⟨v, hfirst⟩
    · intro holdest
      obtain ⟨v', hfirst⟩ := holdest address rfl
      have hsame := h.object _ (List.mem_of_find?_eq_some hfirst)
      rw [h.object _ hentry, Option.some.injEq] at hsame
      change v = v' at hsame
      rwa [hsame]

theorem run_exact_iff {events : List Lifetime} {live : Live} {r : Registry}
    (hlist : r.variableList = live.map Prod.fst) (h : Holds live r.objects)
    (hpossible : live.AllPossible events) :
    (∀ done, done <+: events → ∃ r', r.run done = some r' ∧ r'.Exact (live.afterAll done)) ↔
      ∀ done address, done ++ [.ends address] <+: events → (live.afterAll done).Oldest address := by
  induction events generalizing live r with
  | nil =>
    constructor
    · intro _ done address hdone
      simp at hdone
    · intro _ done hdone
      obtain rfl := List.prefix_nil.mp hdone
      exact ⟨r, rfl, .of_holds hlist h⟩
  | cons event events ih =>
    obtain ⟨hfirst, hrest⟩ := hpossible
    obtain ⟨r', hstep, hholds, hexact⟩ := step_exact hlist h hfirst
    have hrun : ∀ done, r.run (event :: done) = r'.run done := by
      intro done
      simp only [run, hstep]
    constructor
    · intro hall
      have hlist' : r'.variableList = (live.after event).map Prod.fst := by
        obtain ⟨r'', hrun', hexact'⟩ := hall [event] (by simp)
        obtain rfl := Option.some.inj ((hrun []).symm.trans hrun')
        exact hexact'.variableList_eq
      have htail := (ih hlist' hholds hrest).mp fun done hdone => by
        obtain ⟨r'', hrun', hexact'⟩ := hall (event :: done) (List.cons_prefix_cons.mpr ⟨rfl, hdone⟩)
        exact ⟨r'', hrun done ▸ hrun', hexact'⟩
      intro done address hdone
      cases done with
      | nil =>
        obtain ⟨rfl, -⟩ := List.cons_prefix_cons.mp hdone
        exact hexact.mp hlist' address rfl
      | cons event' done =>
        obtain ⟨rfl, hrest'⟩ := List.cons_prefix_cons.mp hdone
        exact htail done address hrest'
    · intro hall
      have hlist' := hexact.mpr fun address heq => hall [] address (by rw [heq]; simp)
      have htail := (ih hlist' hholds hrest).mpr fun done address hdone =>
        hall (event :: done) address (List.cons_prefix_cons.mpr ⟨rfl, hdone⟩)
      intro done hdone
      cases done with
      | nil => exact ⟨r, rfl, .of_holds hlist h⟩
      | cons event' done =>
        obtain ⟨rfl, hrest'⟩ := List.cons_prefix_cons.mp hdone
        rw [hrun]
        exact htail done hrest'

/-- In every state of a program `variableList` holds exactly the live
variables, each once and in construction order, and parsing is defined and acts
on exactly these, just when every destruction destroys the oldest live variable
of its long name. -/
theorem variableList_exact_iff (history : History) :
    (∀ done, done <+: history.events →
        ∃ r, empty.run done = some r ∧ r.Exact (Live.afterAll [] done)) ↔
      ∀ done address, done ++ [.ends address] <+: history.events →
        (Live.afterAll [] done).Oldest address :=
  run_exact_iff rfl ⟨by simp, List.nodup_nil⟩ history.possible

/-- The `int` variable of a scope. -/
def counter (longname : Bytes) : BasicVariable :=
  .new (BasicVariable.extractAny fun _ => (0, false)) false longname [] (0 : Int) false false

/-- Two nested scopes that both have a variable `level`. -/
def nestedScopes : History where
  events := [.begins 1 (counter (literal "level")), .begins 2 (counter (literal "level")), .ends 2]
  possible := by simp [Live.AllPossible, Live.Possible, Live.after]

/-- When the inner scope ends, its variable stays in the list and the outer one
has left it; parsing then reaches the destroyed variable. -/
theorem variableList_nested_scopes :
    ¬ (∀ done, done <+: nestedScopes.events →
        ∃ r, empty.run done = some r ∧ r.Exact (Live.afterAll [] done)) ∧
      ∃ r, empty.run nestedScopes.events = some r ∧ r.variableList = [2] ∧
        (Live.afterAll [] nestedScopes.events).map Prod.fst = [1] ∧
        ∀ statics argv, r.parseArguments statics argv = none := by
  refine ⟨fun h => ?_, ⟨_, [2]⟩, rfl, rfl, rfl, fun _ _ => rfl⟩
  obtain ⟨r, hrun, hexact⟩ := h nestedScopes.events List.prefix_rfl
  obtain rfl := Option.some.inj hrun
  exact absurd hexact.variableList_eq (by decide)

end Registry

end clockUtils.argParser
