import ClockUtils.Container.DoubleBufferQueue
import ClockUtils.Container.Fifo

namespace clockUtils.container.DoubleBufferQueue

open Concurrent
open LockFreeQueue (Call)

section Buffers

variable {T : Type} (q : DoubleBufferQueue T)

@[simp]
theorem buffer_setBuffer (b c : Buffer) (xs : List T) :
    (q.setBuffer b xs).buffer c = if b = c then xs else q.buffer c := by
  cases b <;> cases c <;> rfl

@[simp]
theorem queueRead_setBuffer (b : Buffer) (xs : List T) :
    (q.setBuffer b xs).queueRead = q.queueRead := by
  cases b <;> rfl

@[simp]
theorem queueWrite_setBuffer (b : Buffer) (xs : List T) :
    (q.setBuffer b xs).queueWrite = q.queueWrite := by
  cases b <;> rfl

@[simp]
theorem readLock_setBuffer (b : Buffer) (xs : List T) :
    (q.setBuffer b xs).readLock = q.readLock := by
  cases b <;> rfl

@[simp]
theorem writeLock_setBuffer (b : Buffer) (xs : List T) :
    (q.setBuffer b xs).writeLock = q.writeLock := by
  cases b <;> rfl

variable {q} (hPointers : q.queueRead ≠ q.queueWrite)

include hPointers

/-- A producer does not touch the buffer of the consumers. -/
theorem readBuffer_pushBack (value : T) : (pushBack value q).readBuffer = q.readBuffer := by
  simp [pushBack, readBuffer, Ne.symm hPointers]

theorem writeBuffer_popFront : (popFront q).writeBuffer = q.writeBuffer := by
  simp [popFront, writeBuffer, hPointers]

theorem readBuffer_swapPointers : (swapPointers q).readBuffer = q.writeBuffer := by
  unfold swapPointers readBuffer writeBuffer
  cases hRead : q.queueRead <;> cases hWrite : q.queueWrite <;> simp_all <;> rfl

theorem writeBuffer_swapPointers : (swapPointers q).writeBuffer = q.readBuffer := by
  unfold swapPointers readBuffer writeBuffer
  cases hRead : q.queueRead <;> cases hWrite : q.queueWrite <;> simp_all <;> rfl

omit hPointers

theorem writeBuffer_pushBack (value : T) :
    (pushBack value q).writeBuffer = q.writeBuffer ++ [value] := by
  simp [pushBack, writeBuffer]

theorem readBuffer_popFront : (popFront q).readBuffer = q.readBuffer.tail := by
  simp [popFront, readBuffer]

theorem pointers_swapPointers : (swapPointers q).queueRead ≠ (swapPointers q).queueWrite := by
  unfold swapPointers
  split <;> simp

theorem readLock_swapPointers : (swapPointers q).readLock = q.readLock := by
  unfold swapPointers
  split <;> rfl

theorem writeLock_swapPointers : (swapPointers q).writeLock = q.writeLock := by
  unfold swapPointers
  split <;> rfl

end Buffers

/-- What the members stand for: the elements held, oldest first, and the threads
that take elements and that hold `_writeLock`. -/
structure Ghost (Thread T : Type) where
  held : List T
  reader : Option Thread
  writer : Option Thread

/-- The elements lie in the buffer that is read and behind them in the one that
is written, which are two. With one consumer, `sole` is this consumer. -/
structure Inv {Thread T : Type} (consumer : Bool) (sole : Option Thread) (q : DoubleBufferQueue T)
    (g : Ghost Thread T) : Prop where
  pointers : q.queueRead ≠ q.queueWrite
  held_eq : g.held = q.readBuffer ++ q.writeBuffer
  writeLock_eq : q.writeLock = g.writer.isSome
  reader_eq : if consumer then q.readLock = g.reader.isSome else g.reader = sole

/-- Only the thread that takes elements changes the buffer that is read. -/
structure Rely {Thread T : Type} (t : Thread) (q : DoubleBufferQueue T) (g : Ghost Thread T)
    (q' : DoubleBufferQueue T) (g' : Ghost Thread T) : Prop where
  reader : g.reader = some t → g'.reader = some t ∧ q'.readBuffer = q.readBuffer
  writer : g.writer = some t → g'.writer = some t

/-- The protocol that all calls keep to. There is nothing to be used up. -/
def protocol (Thread T : Type) (consumer : Bool) (sole : Option Thread) :
    Protocol Thread (Call T) (DoubleBufferQueue T) (Ghost Thread T) (List T) where
  inv := Inv consumer sole
  abs g := g.held
  rely := Rely
  rely_refl _ _ _ := ⟨fun h => ⟨h, rfl⟩, id⟩
  weight _ := 0
  spent _ _ := 0
  budget := 0

section Steps

variable {Thread T : Type} {consumer : Bool} {sole : Option Thread} {t : Thread}
  {q : DoubleBufferQueue T} {g : Ghost Thread T} {phase : Phase (Call T) (Reply T)}

theorem setReadLock_true_ok (hInv : Inv true sole q g) (hFree : q.readLock = false) :
    (protocol Thread T true sole).StepOk (unboundedFifo T) t phase q g phase (setReadLock true q)
      { g with reader := some t } := by
  have hNone : g.reader = none := by
    have h := hInv.reader_eq
    rw [if_pos rfl, hFree] at h
    simpa using h.symm
  refine .silent ⟨hInv.pointers, hInv.held_eq, hInv.writeLock_eq, rfl⟩ ?_ rfl rfl
  intro u _
  exact ⟨fun h => by simp [hNone] at h, id⟩

theorem setReadLock_false_ok (hInv : Inv true sole q g) (hReader : g.reader = some t) :
    (protocol Thread T true sole).StepOk (unboundedFifo T) t phase q g phase (setReadLock false q)
      { g with reader := none } := by
  refine .silent ⟨hInv.pointers, hInv.held_eq, hInv.writeLock_eq, rfl⟩ ?_ rfl rfl
  intro u hu
  exact ⟨fun h => absurd h (ne_some_of_ne hReader hu), id⟩

theorem setWriteLock_true_ok (hInv : Inv consumer sole q g) (hFree : q.writeLock = false) :
    (protocol Thread T consumer sole).StepOk (unboundedFifo T) t phase q g phase
      (setWriteLock true q) { g with writer := some t } := by
  have hNone : g.writer = none := by
    have h := hInv.writeLock_eq
    rw [hFree] at h
    simpa using h.symm
  refine .silent ⟨hInv.pointers, hInv.held_eq, rfl, hInv.reader_eq⟩ ?_ rfl rfl
  intro u _
  exact ⟨fun h => ⟨h, rfl⟩, fun h => by simp [hNone] at h⟩

theorem setWriteLock_false_ok (hInv : Inv consumer sole q g) (hWriter : g.writer = some t) :
    (protocol Thread T consumer sole).StepOk (unboundedFifo T) t phase q g phase
      (setWriteLock false q) { g with writer := none } := by
  refine .silent ⟨hInv.pointers, hInv.held_eq, rfl, hInv.reader_eq⟩ ?_ rfl rfl
  intro u hu
  exact ⟨fun h => ⟨h, rfl⟩, fun h => absurd h (ne_some_of_ne hWriter hu)⟩

/-- A `push` takes effect when the element is in the buffer that is written. -/
theorem pushBack_ok (hInv : Inv consumer sole q g) (value : T) :
    (protocol Thread T consumer sole).StepOk (unboundedFifo T) t (.pending (.push value)) q g
      (.done (.push value) ⟨.SUCCESS, none⟩) (pushBack value q)
      { g with held := g.held ++ [value] } := by
  have hRead := readBuffer_pushBack hInv.pointers value
  refine ⟨⟨?_, ?_, ?_, ?_⟩, ?_, .commit (Call.push value) g.held, Nat.le_refl _⟩
  · simpa [pushBack] using hInv.pointers
  · rw [hRead, writeBuffer_pushBack, hInv.held_eq, List.append_assoc]
  · simpa [pushBack] using hInv.writeLock_eq
  · simpa [pushBack] using hInv.reader_eq
  · intro u _
    exact ⟨fun h => ⟨h, hRead⟩, id⟩

/-- The buffer that is read is empty when the pointers are exchanged, so the
elements stay in their order. -/
theorem Inv.swapPointers (hInv : Inv consumer sole q g) (hEmpty : q.readBuffer = []) :
    Inv consumer sole (swapPointers q) g := by
  refine ⟨pointers_swapPointers, ?_, ?_, ?_⟩
  · rw [readBuffer_swapPointers hInv.pointers, writeBuffer_swapPointers hInv.pointers, hEmpty,
      List.append_nil, hInv.held_eq, hEmpty, List.nil_append]
  · rw [writeLock_swapPointers, hInv.writeLock_eq]
  · rw [readLock_swapPointers]
    exact hInv.reader_eq

/-- Only the thread that takes elements exchanges the pointers. -/
theorem rely_swapPointers (hReader : g.reader = some t) (u : Thread) (hu : u ≠ t) :
    Rely u q g (DoubleBufferQueue.swapPointers q) g :=
  ⟨fun h => absurd h (ne_some_of_ne hReader hu), id⟩

/-- A `pop` or `poll` takes effect when the element leaves its buffer. -/
theorem popFront_ok {op : Call T} {r : Reply T} (hInv : Inv consumer sole q g)
    (hReader : g.reader = some t) {value : T} {rest : List T} (hRead : q.readBuffer = value :: rest)
    (hApply : (unboundedFifo T).apply g.held op = (r, g.held.tail)) :
    (protocol Thread T consumer sole).StepOk (unboundedFifo T) t (.pending op) q g (.done op r)
      (popFront q) { g with held := g.held.tail } := by
  refine ⟨⟨?_, ?_, ?_, ?_⟩, ?_, ?_, Nat.le_refl _⟩
  · simpa [popFront] using hInv.pointers
  · rw [readBuffer_popFront, writeBuffer_popFront hInv.pointers, hInv.held_eq, hRead]
    rfl
  · simpa [popFront] using hInv.writeLock_eq
  · simpa [popFront] using hInv.reader_eq
  · intro u hu
    exact ⟨fun h => absurd h (ne_some_of_ne hReader hu), id⟩
  · have hCommit : Protocol.Advance (unboundedFifo T) _ g.held _ _ := .commit op g.held
    rw [hApply] at hCommit
    exact hCommit

end Steps

end clockUtils.container.DoubleBufferQueue
