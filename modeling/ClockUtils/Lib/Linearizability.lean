import Mathlib.Data.List.Basic
import Mathlib.Logic.Function.Basic

namespace Concurrent

/-- A sequential object: its first state, and what a call returns and leaves. -/
structure SeqObject (Op Ret State : Type) where
  init : State
  apply : State → Op → Ret × State

namespace SeqObject

/-- Calls one after the other return what is recorded for them. -/
def Legal {Op Ret State : Type} (obj : SeqObject Op Ret State) : State → List (Op × Ret) → Prop
  | _, [] => True
  | a, (op, r) :: rest => (obj.apply a op).1 = r ∧ obj.Legal (obj.apply a op).2 rest

/-- The state that calls one after the other leave. -/
def final {Op Ret State : Type} (obj : SeqObject Op Ret State) (a : State)
    (calls : List (Op × Ret)) : State :=
  calls.foldl (fun a c => (obj.apply a c.1).2) a

theorem legal_append {Op Ret State : Type} (obj : SeqObject Op Ret State)
    (calls rest : List (Op × Ret)) (a : State) :
    obj.Legal a (calls ++ rest) ↔ obj.Legal a calls ∧ obj.Legal (obj.final a calls) rest := by
  induction calls generalizing a with
  | nil => simp [Legal, final]
  | cons c calls ih =>
    rw [List.cons_append, Legal, Legal, ih, and_assoc]
    rfl

theorem final_append {Op Ret State : Type} (obj : SeqObject Op Ret State) (a : State)
    (calls rest : List (Op × Ret)) :
    obj.final a (calls ++ rest) = obj.final (obj.final a calls) rest := by
  rw [final, List.foldl_append]
  rfl

end SeqObject

/-- What is seen of one step of a run: a call starts, a call ends, or a thread
takes a step inside of a call. -/
inductive Label (Thread Op Ret : Type) where
  | call (t : Thread) (op : Op)
  | ret (t : Thread) (r : Ret)
  | internal (t : Thread)
  deriving DecidableEq

/-- A step of a run, with those internal steps marked at which a call takes effect. -/
inductive Event (Thread Op Ret : Type) where
  | call (t : Thread) (op : Op)
  | ret (t : Thread) (r : Ret)
  | internal (t : Thread)
  | commit (t : Thread) (op : Op) (r : Ret)

namespace Event

/-- The step without its mark. -/
def label {Thread Op Ret : Type} : Event Thread Op Ret → Label Thread Op Ret
  | call t op => .call t op
  | ret t r => .ret t r
  | internal t => .internal t
  | commit t _ _ => .internal t

def commit? {Thread Op Ret : Type} : Event Thread Op Ret → Option (Op × Ret)
  | commit _ op r => some (op, r)
  | _ => none

/-- The step neither starts nor ends a call of the thread, and none takes effect. -/
def Quiet {Thread Op Ret : Type} (t : Thread) : Event Thread Op Ret → Prop
  | call u _ => u ≠ t
  | ret u _ => u ≠ t
  | internal _ => True
  | commit u _ _ => u ≠ t

end Event

/-- The calls that take effect, in the order in which they do. -/
def commits {Thread Op Ret : Type} (events : List (Event Thread Op Ret)) : List (Op × Ret) :=
  events.filterMap Event.commit?

/-- The marks on the steps of a run give every completed call one instant
between its start and its end, give no instant to anything but a call under way,
and the calls in the order of their instants are a legal run of the object. -/
structure Linearizes {Thread Op Ret State : Type} (obj : SeqObject Op Ret State)
    (labels : List (Label Thread Op Ret)) (events : List (Event Thread Op Ret)) : Prop where
  marks : events.map Event.label = labels
  completed : ∀ before t r after, events = before ++ .ret t r :: after →
    ∃ first op waiting leaving,
      before = first ++ .call t op :: (waiting ++ .commit t op r :: leaving) ∧
      (∀ e ∈ waiting, e.Quiet t) ∧ ∀ e ∈ leaving, e.Quiet t
  underway : ∀ before t op r after, events = before ++ .commit t op r :: after →
    ∃ first waiting, before = first ++ .call t op :: waiting ∧ ∀ e ∈ waiting, e.Quiet t
  legal : obj.Legal obj.init (commits events)

/-- How far a thread is with its call. -/
inductive Phase (Op Ret : Type) where
  | idle
  | pending (op : Op)
  | done (op : Op) (r : Ret)

/-- One step of the atomic object shared by all threads: a call takes effect as
a whole, somewhere between its start and its end. -/
inductive AtomicStep {Thread Op Ret State : Type} [DecidableEq Thread]
    (obj : SeqObject Op Ret State) :
    State × (Thread → Phase Op Ret) → Event Thread Op Ret → State × (Thread → Phase Op Ret) → Prop
  | call {a phases t} (op : Op) (hIdle : phases t = .idle) :
      AtomicStep obj (a, phases) (.call t op) (a, Function.update phases t (.pending op))
  | internal {a phases} (t : Thread) : AtomicStep obj (a, phases) (.internal t) (a, phases)
  | commit {a phases t op} (hPending : phases t = .pending op) :
      AtomicStep obj (a, phases) (.commit t op (obj.apply a op).1)
        ((obj.apply a op).2, Function.update phases t (.done op (obj.apply a op).1))
  | ret {a phases t op r} (hDone : phases t = .done op r) :
      AtomicStep obj (a, phases) (.ret t r) (a, Function.update phases t .idle)

/-- The runs of the atomic object. -/
inductive AtomicRun {Thread Op Ret State : Type} [DecidableEq Thread]
    (obj : SeqObject Op Ret State) :
    List (Event Thread Op Ret) → State × (Thread → Phase Op Ret) → Prop
  | start : AtomicRun obj [] (obj.init, fun _ => .idle)
  | snoc {events x e y} (hRun : AtomicRun obj events x) (hStep : AtomicStep obj x e y) :
      AtomicRun obj (events ++ [e]) y

namespace AtomicRun

/-- What the phase of a thread says about the steps so far. -/
def Reached {Thread Op Ret : Type} (events : List (Event Thread Op Ret)) (t : Thread) :
    Phase Op Ret → Prop
  | .idle => True
  | .pending op => ∃ first waiting, events = first ++ .call t op :: waiting ∧
      ∀ e ∈ waiting, e.Quiet t
  | .done op r => ∃ first waiting leaving,
      events = first ++ .call t op :: (waiting ++ .commit t op r :: leaving) ∧
      (∀ e ∈ waiting, e.Quiet t) ∧ ∀ e ∈ leaving, e.Quiet t

theorem Reached.snoc_quiet {Thread Op Ret : Type} {events : List (Event Thread Op Ret)}
    {t : Thread} {phase : Phase Op Ret} {e : Event Thread Op Ret}
    (hReached : Reached events t phase) (hQuiet : e.Quiet t) : Reached (events ++ [e]) t phase := by
  have hSnoc : ∀ es : List (Event Thread Op Ret), (∀ e ∈ es, e.Quiet t) →
      ∀ e' ∈ es ++ [e], e'.Quiet t := by
    intro es hes e' he'
    rcases List.mem_append.mp he' with h | h
    · exact hes e' h
    · rw [List.mem_singleton.mp h]
      exact hQuiet
  cases phase with
  | idle => trivial
  | pending op =>
    obtain ⟨first, waiting, rfl, hWaiting⟩ := hReached
    exact ⟨first, waiting ++ [e], by simp, hSnoc waiting hWaiting⟩
  | done op r =>
    obtain ⟨first, waiting, leaving, rfl, hWaiting, hLeaving⟩ := hReached
    exact ⟨first, waiting, leaving ++ [e], by simp, hWaiting, hSnoc leaving hLeaving⟩

theorem reached {Thread Op Ret State : Type} [DecidableEq Thread] {obj : SeqObject Op Ret State}
    {events : List (Event Thread Op Ret)} {x : State × (Thread → Phase Op Ret)}
    (hRun : AtomicRun obj events x) (t : Thread) : Reached events t (x.2 t) := by
  induction hRun with
  | start => trivial
  | snoc _ hStep ih =>
    cases hStep with
    | internal u => exact ih.snoc_quiet trivial
    | @call a phases u op hIdle =>
      by_cases hu : u = t
      · subst hu
        simp only [Function.update_self]
        exact ⟨_, [], rfl, by simp⟩
      · simp only [Function.update_of_ne (Ne.symm hu)]
        exact ih.snoc_quiet hu
    | @commit a phases u op hPending =>
      by_cases hu : u = t
      · subst hu
        simp only [hPending] at ih
        obtain ⟨first, waiting, rfl, hWaiting⟩ := ih
        simp only [Function.update_self]
        exact ⟨first, waiting, [], by simp, hWaiting, by simp⟩
      · simp only [Function.update_of_ne (Ne.symm hu)]
        exact ih.snoc_quiet hu
    | @ret a phases u op r hDone =>
      by_cases hu : u = t
      · subst hu
        simp only [Function.update_self]
        trivial
      · simp only [Function.update_of_ne (Ne.symm hu)]
        exact ih.snoc_quiet hu

theorem legal_final {Thread Op Ret State : Type} [DecidableEq Thread]
    {obj : SeqObject Op Ret State} {events : List (Event Thread Op Ret)}
    {x : State × (Thread → Phase Op Ret)} (hRun : AtomicRun obj events x) :
    obj.Legal obj.init (commits events) ∧ obj.final obj.init (commits events) = x.1 := by
  induction hRun with
  | start => exact ⟨trivial, rfl⟩
  | @snoc events _ _ _ _ hStep ih =>
    obtain ⟨hLegal, hFinal⟩ := ih
    have hCommits : ∀ e : Event Thread Op Ret,
        commits (events ++ [e]) = commits events ++ e.commit?.toList := by
      intro e
      rw [commits, List.filterMap_append]
      cases he : e.commit? with
      | none => simp [commits, he]
      | some c => simp [commits, he]
    rw [hCommits]
    cases hStep with
    | internal u => simpa [Event.commit?] using ⟨hLegal, hFinal⟩
    | call op hIdle => simpa [Event.commit?] using ⟨hLegal, hFinal⟩
    | ret hDone => simpa [Event.commit?] using ⟨hLegal, hFinal⟩
    | @commit a phases u op hPending =>
      simp only at hFinal
      rw [SeqObject.legal_append, SeqObject.final_append, hFinal]
      exact ⟨⟨hLegal, rfl, trivial⟩, rfl⟩

/-- A run can be cut before any of its steps. -/
theorem cut {Thread Op Ret State : Type} [DecidableEq Thread] {obj : SeqObject Op Ret State}
    {before after : List (Event Thread Op Ret)} {e : Event Thread Op Ret}
    {x : State × (Thread → Phase Op Ret)} (hRun : AtomicRun obj (before ++ e :: after) x) :
    ∃ y z, AtomicRun obj before y ∧ AtomicStep obj y e z := by
  generalize hEvents : before ++ e :: after = events at hRun
  induction hRun generalizing after with
  | start => simp at hEvents
  | @snoc events y e' z hRun hStep ih =>
    rcases List.eq_nil_or_concat after with rfl | ⟨after, last, rfl⟩
    · obtain ⟨rfl, hLast⟩ := List.append_inj' hEvents rfl
      obtain rfl : e = e' := by simpa using hLast
      exact ⟨y, z, hRun, hStep⟩
    · have hSplit : (before ++ e :: after) ++ [last] = events ++ [e'] := by simpa using hEvents
      exact ih (List.append_inj' hSplit rfl).1

/-- A run of the atomic object marks the instants of the calls. -/
theorem linearizes {Thread Op Ret State : Type} [DecidableEq Thread]
    {obj : SeqObject Op Ret State} {events : List (Event Thread Op Ret)}
    {x : State × (Thread → Phase Op Ret)} (hRun : AtomicRun obj events x) :
    Linearizes obj (events.map Event.label) events := by
  refine ⟨rfl, ?_, ?_, hRun.legal_final.1⟩
  · rintro before t r after rfl
    obtain ⟨y, z, hBefore, hStep⟩ := hRun.cut
    cases hStep with
    | @ret a phases _ op _ hDone =>
      have hReached := hBefore.reached t
      simp only [hDone] at hReached
      obtain ⟨first, waiting, leaving, hEq, hWaiting, hLeaving⟩ := hReached
      exact ⟨first, op, waiting, leaving, hEq, hWaiting, hLeaving⟩
  · rintro before t op r after rfl
    obtain ⟨y, z, hBefore, hStep⟩ := hRun.cut
    cases hStep with
    | commit hPending =>
      have hReached := hBefore.reached t
      simp only [hPending] at hReached
      exact hReached

end AtomicRun

end Concurrent
