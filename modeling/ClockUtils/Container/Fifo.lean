import Mathlib.Data.List.Forall2
import ClockUtils.Container.LockFreeQueue

namespace clockUtils.container

open Concurrent LockFreeQueue

/-- The calls of an atomic queue, oldest element first, with what a `push` does to it. -/
@[simp]
def callOn {T : Type} (push : T → Reply T × List T) (held : List T) : Call T → Reply T × List T
  | .push value => push value
  | .pop =>
    match held with
    | [] => (⟨.NO_ELEMENT, none⟩, [])
    | _ :: rest => (⟨.SUCCESS, none⟩, rest)
  | .front =>
    match held with
    | [] => (⟨.NO_ELEMENT, none⟩, [])
    | value :: rest => (⟨.SUCCESS, some value⟩, value :: rest)
  | .poll =>
    match held with
    | [] => (⟨.NO_ELEMENT, none⟩, [])
    | value :: rest => (⟨.SUCCESS, some value⟩, rest)

/-- An atomic queue that holds at most `capacity` elements. -/
def fifo (T : Type) (capacity : Nat) : SeqObject (Call T) (Reply T) (List T) where
  init := []
  apply held := callOn (fun value =>
    if held.length = capacity then (⟨.NO_SPACE_AVAILABLE, none⟩, held)
    else (⟨.SUCCESS, none⟩, held ++ [value])) held

/-- An atomic queue without a bound. -/
def unboundedFifo (T : Type) : SeqObject (Call T) (Reply T) (List T) where
  init := []
  apply held := callOn (fun value => (⟨.SUCCESS, none⟩, held ++ [value])) held

/-- One call does not tell a queue without a bound from one with room. -/
theorem unboundedFifo_apply {T : Type} (held : List T) (op : Call T) :
    (unboundedFifo T).apply held op = (fifo T (held.length + 1)).apply held op := by
  cases op with
  | push value => simp [unboundedFifo, fifo]
  | pop => rfl
  | front => rfl
  | poll => rfl

/-- The values that successful pushes have put into the queue, in order. -/
def pushed {T : Type} (calls : List (Call T × Reply T)) : List T :=
  calls.filterMap fun
    | (.push value, ⟨.SUCCESS, _⟩) => some value
    | _ => none

/-- The successful removals, in order. -/
def removals {T : Type} (calls : List (Call T × Reply T)) : List (Call T × Reply T) :=
  calls.filter fun
    | (.pop, ⟨.SUCCESS, _⟩) => true
    | (.poll, ⟨.SUCCESS, _⟩) => true
    | _ => false

/-- The removal takes the value off the queue, and a `poll` hands it out. -/
inductive Takes {T : Type} : Call T × Reply T → T → Prop
  | pop (value : T) : Takes (.pop, ⟨.SUCCESS, none⟩) value
  | poll (value : T) : Takes (.poll, ⟨.SUCCESS, some value⟩) value

/-- The values held and pushed before a call are the values it takes and those
held after it. -/
def Conserves {T : Type} (obj : SeqObject (Call T) (Reply T) (List T)) : Prop :=
  ∀ held op, ∃ taken,
    held ++ pushed [(op, (obj.apply held op).1)] = taken ++ (obj.apply held op).2 ∧
      List.Forall₂ Takes (removals [(op, (obj.apply held op).1)]) taken

theorem fifo_conserves {T : Type} (capacity : Nat) : Conserves (fifo T capacity) := by
  intro held op
  cases op with
  | push value =>
    by_cases hFull : held.length = capacity
    · exact ⟨[], by simp [fifo, hFull, pushed], by simp [fifo, hFull, removals]⟩
    · exact ⟨[], by simp [fifo, hFull, pushed], by simp [fifo, hFull, removals]⟩
  | front =>
    cases held with
    | nil => exact ⟨[], by simp [fifo, pushed], by simp [fifo, removals]⟩
    | cons value rest => exact ⟨[], by simp [fifo, pushed], by simp [fifo, removals]⟩
  | pop =>
    cases held with
    | nil => exact ⟨[], by simp [fifo, pushed], by simp [fifo, removals]⟩
    | cons value rest =>
      exact ⟨[value], by simp [fifo, pushed], by simp [fifo, removals, Takes.pop value]⟩
  | poll =>
    cases held with
    | nil => exact ⟨[], by simp [fifo, pushed], by simp [fifo, removals]⟩
    | cons value rest =>
      exact ⟨[value], by simp [fifo, pushed], by simp [fifo, removals, Takes.poll value]⟩

theorem unboundedFifo_conserves {T : Type} : Conserves (unboundedFifo T) := by
  intro held op
  rw [unboundedFifo_apply]
  exact fifo_conserves (held.length + 1) held op

/-- Over any calls the values are taken in the order in which they were pushed,
each once, and those that have not been taken are held. -/
theorem Conserves.final {T : Type} {obj : SeqObject (Call T) (Reply T) (List T)}
    (h : Conserves obj) (calls : List (Call T × Reply T)) (held : List T)
    (hLegal : obj.Legal held calls) :
    ∃ taken, held ++ pushed calls = taken ++ obj.final held calls ∧
      List.Forall₂ Takes (removals calls) taken := by
  induction calls generalizing held with
  | nil => exact ⟨[], by simp [pushed, SeqObject.final], by simp [removals]⟩
  | cons call calls ih =>
    obtain ⟨op, r⟩ := call
    obtain ⟨rfl, hRest⟩ := hLegal
    obtain ⟨first, hFirst, hTakesFirst⟩ := h held op
    obtain ⟨later, hLater, hTakesLater⟩ := ih _ hRest
    refine ⟨first ++ later, ?_, ?_⟩
    · have hPushed : ∀ call : Call T × Reply T,
          pushed (call :: calls) = pushed [call] ++ pushed calls := by
        intro call
        rw [pushed, ← List.singleton_append, List.filterMap_append]
        rfl
      rw [hPushed, ← List.append_assoc, hFirst, List.append_assoc, hLater, ← List.append_assoc]
      rfl
    · have hRemovals : ∀ call : Call T × Reply T,
          removals (call :: calls) = removals [call] ++ removals calls := by
        intro call
        rw [removals, ← List.singleton_append, List.filter_append]
        rfl
      rw [hRemovals]
      exact List.rel_append hTakesFirst hTakesLater

end clockUtils.container
