import Mathlib.Data.Multiset.Basic
import Mathlib.Data.List.MinMax

/-- A priority queue with smallest key on top. Nothing is said about the order
of elements with equal keys, except that it is a function of the queue: the
queue type may remember every push and pop. -/
structure PriorityQueue (α β : Type) [LinearOrder β] (key : α → β) where
  Queue : Type
  empty : Queue
  push : Queue → α → Queue
  top : Queue → Option α
  pop : Queue → Queue
  /-- what the queue holds, forgetting the order -/
  contents : Queue → Multiset α
  contents_empty : contents empty = 0
  contents_push (q : Queue) (a : α) : contents (push q a) = a ::ₘ contents q
  contents_of_top_none {q : Queue} (h : top q = none) : contents q = 0
  top_le {q : Queue} {a b : α} (h : top q = some a) (hb : b ∈ contents q) : key a ≤ key b
  contents_pop {q : Queue} {a : α} (h : top q = some a) : contents q = a ::ₘ contents (pop q)

namespace PriorityQueue

/-- The number of elements held. -/
def size {α β : Type} [LinearOrder β] {key : α → β} (pq : PriorityQueue α β key)
    (q : pq.Queue) : Nat :=
  (pq.contents q).card

theorem size_pop {α β : Type} [LinearOrder β] {key : α → β} (pq : PriorityQueue α β key)
    {q : pq.Queue} {a : α} (h : pq.top q = some a) : pq.size q = pq.size (pq.pop q) + 1 := by
  rw [size, pq.contents_pop h, Multiset.card_cons, size]

theorem exists_top {α β : Type} [LinearOrder β] {key : α → β} (pq : PriorityQueue α β key)
    {q : pq.Queue} (h : 0 < pq.size q) : ∃ a, pq.top q = some a := by
  cases htop : pq.top q with
  | none => simp [size, pq.contents_of_top_none htop] at h
  | some a => exact ⟨a, rfl⟩

/-- A queue that keeps its elements in a list and searches it for the
smallest key at every access. -/
def scanning {α β : Type} [LinearOrder β] [DecidableEq α] (key : α → β) :
    PriorityQueue α β key where
  Queue := List α
  empty := []
  push q a := a :: q
  top q := q.argmin key
  pop q := (q.argmin key).elim q q.erase
  contents q := ↑q
  contents_empty := rfl
  contents_push _ _ := rfl
  contents_of_top_none h := by simpa using h
  top_le h hb := List.le_of_mem_argmin (Multiset.mem_coe.mp hb) h
  contents_pop {q a} h := by
    have hmem : a ∈ q := List.argmin_mem h
    rw [h, Option.elim_some, Multiset.cons_coe]
    exact Multiset.coe_eq_coe.mpr (List.perm_cons_erase hmem)

end PriorityQueue
