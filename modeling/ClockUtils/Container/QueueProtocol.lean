import Mathlib.Data.Nat.ModEq
import ClockUtils.Container.Fifo

namespace clockUtils.container.LockFreeQueue

open Concurrent

/-- What the flags and the indices stand for: the elements held, oldest first,
and the threads inside of `push` and inside of `pop`, `front` or `poll`. -/
structure Ghost (Thread T : Type) where
  held : List T
  enqueuer : Option Thread
  dequeuer : Option Thread

/-- The content of the slot that a count of elements belongs to. -/
def slotAt {T : Type} {SIZE : Nat} [NeZero SIZE] (q : LockFreeQueue T SIZE) (n : Nat) : T :=
  q.data.get ⟨n % SIZE, Nat.mod_lt _ (Nat.pos_of_neZero SIZE)⟩

/-- What lies in the slots from `_readIndex` to `_writeIndex`. -/
def contents {T : Type} {SIZE : Nat} [NeZero SIZE] (q : LockFreeQueue T SIZE) : List T :=
  (List.range (q.writeIndex.toNat - q.readIndex.toNat)).map fun i =>
    q.slotAt (q.readIndex.toNat + i)

/-- The elements held lie in the slots from `_readIndex` to `_writeIndex`, no
more than there are slots, and a flag is set while a thread is inside. -/
structure Inv {Thread T : Type} {SIZE : Nat} [NeZero SIZE] (q : LockFreeQueue T SIZE)
    (g : Ghost Thread T) : Prop where
  writeIndex_eq : q.writeIndex.toNat = q.readIndex.toNat + g.held.length
  length_le : g.held.length ≤ SIZE
  slots : ∀ i v, g.held[i]? = some v → q.slotAt (q.readIndex.toNat + i) = v
  enqueuing_eq : q.enqueuing = g.enqueuer.isSome
  dequeuing_eq : q.dequeuing = g.dequeuer.isSome

/-- Only the thread inside of `push` changes `_writeIndex` and the slots, and
only the thread inside of `pop`, `front` or `poll` changes `_readIndex`. Seen
from one side, the other index only grows. -/
structure Rely {Thread T : Type} {SIZE : Nat} (t : Thread) (q : LockFreeQueue T SIZE)
    (g : Ghost Thread T) (q' : LockFreeQueue T SIZE) (g' : Ghost Thread T) : Prop where
  enqueuer : g.enqueuer = some t → g'.enqueuer = some t ∧ q'.writeIndex = q.writeIndex ∧
    q'.data = q.data ∧ q.readIndex.toNat ≤ q'.readIndex.toNat
  dequeuer : g.dequeuer = some t → g'.dequeuer = some t ∧ q'.readIndex = q.readIndex ∧
    q.writeIndex.toNat ≤ q'.writeIndex.toNat ∧ g.held <+: g'.held

/-- The protocol that all calls keep to. Every `push` uses up at most one of the
`2 ^ 64` values of `_writeIndex`. -/
def protocol (Thread T : Type) (SIZE : Nat) [NeZero SIZE] :
    Protocol Thread (Call T) (LockFreeQueue T SIZE) (Ghost Thread T) (List T) where
  inv := Inv
  abs g := g.held
  rely := Rely
  rely_refl _ _ _ := ⟨fun h => ⟨h, rfl, rfl, le_rfl⟩, fun h => ⟨h, rfl, le_rfl, List.prefix_rfl⟩⟩
  weight
    | .push _ => 1
    | _ => 0
  spent q _ := q.writeIndex.toNat
  budget := 2 ^ 64 - 1

/-- The slot behind the elements held is none of theirs unless all are taken. -/
theorem slot_free {SIZE r n i : Nat} (hi : i < n) (hRoom : n < SIZE) :
    (r + n) % SIZE ≠ (r + i) % SIZE := by
  intro h
  have hMod : n ≡ i [MOD SIZE] := Nat.ModEq.add_left_cancel' r h
  have := Nat.ModEq.eq_of_lt_of_lt hMod hRoom (hi.trans hRoom)
  omega

section Steps

variable {Thread T : Type} {SIZE : Nat} [NeZero SIZE] {t : Thread} {q : LockFreeQueue T SIZE}
  {g : Ghost Thread T} {phase : Phase (Call T) (Reply T)}

@[simp]
theorem slotAt_writeSlot (q : LockFreeQueue T SIZE) (index : UInt64) (value : T) (n : Nat) :
    (writeSlot index value q).slotAt n =
      if index.toNat % SIZE = n % SIZE then value else q.slotAt n := by
  have hi : index.toNat % SIZE < SIZE := (slot index).isLt
  have hn : n % SIZE < SIZE := Nat.mod_lt _ (Nat.pos_of_neZero SIZE)
  exact Vector.getElem_set hi hn

theorem Inv.readIndex_le (hInv : Inv q g) : q.readIndex.toNat ≤ q.writeIndex.toNat := by
  rw [hInv.writeIndex_eq]
  omega

theorem Inv.contents_eq (hInv : Inv q g) : q.contents = g.held := by
  have hWrite := hInv.writeIndex_eq
  have hLength : q.contents.length = g.held.length := by
    rw [contents, List.length_map, List.length_range]
    omega
  refine List.ext_getElem hLength ?_
  intro i _ hi
  simp only [contents, List.getElem_map, List.getElem_range]
  exact hInv.slots i g.held[i] (List.getElem?_eq_getElem hi)

theorem setEnqueuing_true_ok (hInv : Inv q g) (hFree : q.enqueuing = false) :
    (protocol Thread T SIZE).StepOk (fifo T SIZE) t phase q g phase (setEnqueuing true q)
      { g with enqueuer := some t } := by
  have hNone : g.enqueuer = none := by
    have h := hInv.enqueuing_eq
    rw [hFree] at h
    simpa using h.symm
  refine .silent ⟨hInv.writeIndex_eq, hInv.length_le, hInv.slots, rfl, hInv.dequeuing_eq⟩ ?_ rfl rfl
  intro u _
  exact ⟨fun h => by simp [hNone] at h, fun h => ⟨h, rfl, le_rfl, List.prefix_rfl⟩⟩

theorem setEnqueuing_false_ok (hInv : Inv q g) (hEnqueuer : g.enqueuer = some t) :
    (protocol Thread T SIZE).StepOk (fifo T SIZE) t phase q g phase (setEnqueuing false q)
      { g with enqueuer := none } := by
  refine .silent ⟨hInv.writeIndex_eq, hInv.length_le, hInv.slots, rfl, hInv.dequeuing_eq⟩ ?_ rfl rfl
  intro u hu
  exact ⟨fun h => absurd h (ne_some_of_ne hEnqueuer hu),
    fun h => ⟨h, rfl, le_rfl, List.prefix_rfl⟩⟩

theorem setDequeuing_true_ok (hInv : Inv q g) (hFree : q.dequeuing = false) :
    (protocol Thread T SIZE).StepOk (fifo T SIZE) t phase q g phase (setDequeuing true q)
      { g with dequeuer := some t } := by
  have hNone : g.dequeuer = none := by
    have h := hInv.dequeuing_eq
    rw [hFree] at h
    simpa using h.symm
  refine .silent ⟨hInv.writeIndex_eq, hInv.length_le, hInv.slots, hInv.enqueuing_eq, rfl⟩ ?_ rfl rfl
  intro u _
  exact ⟨fun h => ⟨h, rfl, rfl, le_rfl⟩, fun h => by simp [hNone] at h⟩

theorem setDequeuing_false_ok (hInv : Inv q g) (hDequeuer : g.dequeuer = some t) :
    (protocol Thread T SIZE).StepOk (fifo T SIZE) t phase q g phase (setDequeuing false q)
      { g with dequeuer := none } := by
  refine .silent ⟨hInv.writeIndex_eq, hInv.length_le, hInv.slots, hInv.enqueuing_eq, rfl⟩ ?_ rfl rfl
  intro u hu
  exact ⟨fun h => ⟨h, rfl, rfl, le_rfl⟩, fun h => absurd h (ne_some_of_ne hDequeuer hu)⟩

/-- The slot behind the last element is written while there is room. -/
theorem writeSlot_ok (hInv : Inv q g) (hEnqueuer : g.enqueuer = some t)
    (hRoom : q.writeIndex.toNat < q.readIndex.toNat + SIZE) (value : T) :
    (protocol Thread T SIZE).StepOk (fifo T SIZE) t phase q g phase
      (writeSlot q.writeIndex value q) g := by
  have hWrite := hInv.writeIndex_eq
  refine .silent ⟨hWrite, hInv.length_le, ?_, hInv.enqueuing_eq, hInv.dequeuing_eq⟩ ?_ rfl rfl
  · intro i v hv
    obtain ⟨hi, _⟩ := List.getElem?_eq_some_iff.mp hv
    rw [slotAt_writeSlot, if_neg]
    · exact hInv.slots i v hv
    · rw [hWrite]
      exact slot_free hi (by omega)
  · intro u hu
    exact ⟨fun h => absurd h (ne_some_of_ne hEnqueuer hu),
      fun h => ⟨h, rfl, le_rfl, List.prefix_rfl⟩⟩

/-- A `push` takes effect when `_writeIndex` is increased. -/
theorem addWriteIndex_ok {value : T} (hInv : Inv q g) (hEnqueuer : g.enqueuer = some t)
    (hBudget : q.writeIndex.toNat + 1 ≤ 2 ^ 64 - 1)
    (hRoom : q.writeIndex.toNat < q.readIndex.toNat + SIZE)
    (hSlot : q.slotAt q.writeIndex.toNat = value) :
    (protocol Thread T SIZE).StepOk (fifo T SIZE) t (.pending (.push value)) q g
      (.done (.push value) ⟨.SUCCESS, none⟩) (addWriteIndex q)
      { g with held := g.held ++ [value] } := by
  have hWrite := hInv.writeIndex_eq
  have hNext : (q.writeIndex + 1).toNat = q.writeIndex.toNat + 1 := by
    rw [UInt64.toNat_add, UInt64.toNat_one]
    omega
  refine ⟨⟨?_, ?_, ?_, hInv.enqueuing_eq, hInv.dequeuing_eq⟩, ?_, ?_, ?_⟩
  · simp only [addWriteIndex, hNext, List.length_append, List.length_singleton]
    omega
  · rw [List.length_append, List.length_singleton]
    omega
  · intro i v hv
    rcases lt_or_ge i g.held.length with hi | hi
    · rw [List.getElem?_append_left hi] at hv
      exact hInv.slots i v hv
    · rw [List.getElem?_append_right hi, List.getElem?_singleton] at hv
      split at hv
      next hLast =>
        obtain rfl : i = g.held.length := by omega
        rw [← Option.some.inj hv, ← hSlot, hWrite]
        rfl
      next => cases hv
  · intro u hu
    refine ⟨fun h => absurd h (ne_some_of_ne hEnqueuer hu),
      fun h => ⟨h, rfl, ?_, List.prefix_append _ _⟩⟩
    simp only [addWriteIndex, hNext]
    omega
  · have hNotFull : g.held.length ≠ SIZE := by omega
    have hCommit : Protocol.Advance (fifo T SIZE) _ g.held _ _ := .commit (.push value) g.held
    simp only [fifo, callOn, if_neg hNotFull] at hCommit
    exact hCommit
  · simp only [protocol, Protocol.due, addWriteIndex, hNext]
    omega

/-- A `pop` or `poll` takes effect when `_readIndex` is increased. -/
theorem addReadIndex_ok {op : Call T} {r : Reply T} {value : T} {rest : List T}
    (hInv : Inv q g) (hDequeuer : g.dequeuer = some t) (hHeld : g.held = value :: rest)
    (hApply : (fifo T SIZE).apply g.held op = (r, rest)) :
    (protocol Thread T SIZE).StepOk (fifo T SIZE) t (.pending op) q g (.done op r)
      (addReadIndex q) { g with held := rest } := by
  have hWrite := hInv.writeIndex_eq
  have hLength := hInv.length_le
  rw [hHeld, List.length_cons] at hWrite hLength
  have hNext : (q.readIndex + 1).toNat = q.readIndex.toNat + 1 := by
    have hBound := q.writeIndex.toNat_lt
    rw [UInt64.toNat_add, UInt64.toNat_one]
    omega
  refine ⟨⟨?_, ?_, ?_, hInv.enqueuing_eq, hInv.dequeuing_eq⟩, ?_, ?_, ?_⟩
  · simp only [addReadIndex, hNext]
    omega
  · simp only
    omega
  · intro i v hv
    have hSlot := hInv.slots (i + 1) v (by rw [hHeld, List.getElem?_cons_succ]; exact hv)
    rw [← hSlot, addReadIndex, hNext, Nat.add_assoc, Nat.add_comm 1 i]
    rfl
  · intro u hu
    refine ⟨fun h => ⟨h, rfl, rfl, ?_⟩, fun h => absurd h (ne_some_of_ne hDequeuer hu)⟩
    simp only [addReadIndex, hNext]
    omega
  · have hCommit : Protocol.Advance (fifo T SIZE) _ g.held _ _ := .commit op g.held
    rw [hApply] at hCommit
    exact hCommit
  · simp only [protocol, Protocol.due, addReadIndex]
    omega

end Steps

end clockUtils.container.LockFreeQueue
