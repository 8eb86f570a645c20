import ClockUtils.Container.QueueProtocol
import ClockUtils.Container.DoubleBufferProtocol
import ClockUtils.Lib.SequentialProgram

namespace clockUtils.container

open Concurrent
open LockFreeQueue (Call AnyCall)

inductive QueueCall (T : Type) where
  | of (op : AnyCall T)
  | empty
  | size
  deriving DecidableEq

/-- What a member function returns. -/
inductive Answer (T : Type) where
  | reply (r : Reply T)
  | emptiness (b : Bool)
  | count (n : Nat)
  deriving DecidableEq

def LockFreeQueue.queueBody {T : Type} {SIZE : Nat} [NeZero SIZE] :
    QueueCall T → Prog (LockFreeQueue T SIZE) (Answer T)
  | .of op => op.body.map .reply
  | .empty => LockFreeQueue.empty.map .emptiness
  | .size => LockFreeQueue.size.map fun n => .count n.toNat

def DoubleBufferQueue.queueBody {T : Type} (consumer : Bool) :
    QueueCall T → Prog (DoubleBufferQueue T) (Answer T)
  | .of op => (anyBody consumer op).map .reply
  | .empty => DoubleBufferQueue.empty.map .emptiness
  | .size => DoubleBufferQueue.size.map fun n => .count n.toNat

/-- A plain list, oldest element first. -/
def plainFifo (T : Type) : SeqObject (QueueCall T) (Answer T) (List T) where
  init := []
  apply held
    | .of (.of op) => (.reply ((unboundedFifo T).apply held op).1, ((unboundedFifo T).apply held op).2)
    | .of .clear => (.reply ⟨.SUCCESS, none⟩, [])
    | .empty => (.emptiness held.isEmpty, held)
    | .size => (.count held.length, held)

/-- The number of pushes among the calls. -/
def pushCount {T : Type} (calls : List (QueueCall T)) : Nat :=
  calls.countP fun
    | .of (.of (.push _)) => true
    | _ => false

/-- From the elements held on, the calls never make them more than `capacity`. -/
def HoldsAtMost {T : Type} (capacity : Nat) (held : List T) : List (QueueCall T) → Prop
  | [] => held.length ≤ capacity
  | call :: calls =>
    held.length ≤ capacity ∧ HoldsAtMost capacity ((plainFifo T).apply held call).2 calls

theorem HoldsAtMost.length_le {T : Type} {capacity : Nat} {held : List T}
    {calls : List (QueueCall T)} (h : HoldsAtMost capacity held calls) : held.length ≤ capacity := by
  cases calls with
  | nil => exact h
  | cons call calls => exact h.1

namespace LockFreeQueue

section Flags

variable {T : Type} {SIZE : Nat} {q : LockFreeQueue T SIZE}

theorem eval_acquireEnqueuing (h : q.enqueuing = false)
    (k : Prog (LockFreeQueue T SIZE) (Reply T)) :
    (acquireEnqueuing k).eval q = k.eval (setEnqueuing true q) := by
  rw [acquireEnqueuing, Prog.eval_spin (by simp [h]), Prog.eval_assert rfl]

theorem eval_acquireDequeuing (h : q.dequeuing = false)
    (k : Prog (LockFreeQueue T SIZE) (Reply T)) :
    (acquireDequeuing k).eval q = k.eval (setDequeuing true q) := by
  rw [acquireDequeuing, Prog.eval_spin (by simp [h]), Prog.eval_assert rfl]

/-- What the calls of the consumers do when nobody has their flag. -/
theorem eval_pop (h : q.dequeuing = false) : pop.eval q =
    if q.writeIndex ≤ q.readIndex then
      some (setDequeuing false (setDequeuing true q), ⟨.NO_ELEMENT, none⟩)
    else some (setDequeuing false (addReadIndex (setDequeuing true q)), ⟨.SUCCESS, none⟩) := by
  rw [pop, eval_acquireDequeuing h]
  change Prog.eval (setDequeuing true q) (if q.writeIndex ≤ q.readIndex then _ else _) = _
  split <;> rfl

theorem eval_front [NeZero SIZE] (h : q.dequeuing = false) : front.eval q =
    if q.readIndex < q.writeIndex then
      some (setDequeuing false (setDequeuing true q), ⟨.SUCCESS, some (readSlot q.readIndex q)⟩)
    else some (setDequeuing false (setDequeuing true q), ⟨.NO_ELEMENT, none⟩) := by
  rw [front, eval_acquireDequeuing h]
  change Prog.eval (setDequeuing true q) (if q.readIndex < q.writeIndex then _ else _) = _
  split <;> rfl

theorem eval_poll [NeZero SIZE] (h : q.dequeuing = false) : poll.eval q =
    if q.readIndex < q.writeIndex then
      some (setDequeuing false (addReadIndex (setDequeuing true q)),
        ⟨.SUCCESS, some (readSlot q.readIndex q)⟩)
    else some (setDequeuing false (setDequeuing true q), ⟨.NO_ELEMENT, none⟩) := by
  rw [poll, eval_acquireDequeuing h]
  change Prog.eval (setDequeuing true q) (if q.readIndex < q.writeIndex then _ else _) = _
  split <;> rfl

end Flags

section Alone

variable {T : Type} {SIZE : Nat} [NeZero SIZE] {q : LockFreeQueue T SIZE} {held : List T}

/-- The state between two calls of a single thread. -/
def Alone (q : LockFreeQueue T SIZE) (held : List T) : Prop :=
  Inv q (⟨held, none, none⟩ : Ghost Unit T)

theorem alone_new [Inhabited T] : Alone (new T SIZE) [] :=
  ⟨rfl, Nat.zero_le _, fun _ _ h => by simp at h, rfl, rfl⟩

theorem Alone.enqueuing_eq (h : Alone q held) : q.enqueuing = false :=
  Inv.enqueuing_eq h

theorem Alone.dequeuing_eq (h : Alone q held) : q.dequeuing = false :=
  Inv.dequeuing_eq h

theorem Alone.readIndex_lt_iff (h : Alone q held) : q.readIndex < q.writeIndex ↔ held ≠ [] := by
  have hWrite : q.writeIndex.toNat = q.readIndex.toNat + held.length := h.writeIndex_eq
  rw [UInt64.lt_iff_toNat_lt, ← List.length_pos_iff]
  omega

theorem Alone.readSlot_eq {value : T} {rest : List T} (h : Alone q (value :: rest)) :
    readSlot q.readIndex q = value :=
  h.slots 0 value rfl

/-- `push` while there is room, by the steps of the protocol that all threads keep to. -/
theorem push_alone (h : Alone q held) (value : T) (hRoom : held.length < SIZE)
    (hBudget : q.writeIndex.toNat + 1 < 2 ^ 64) :
    ∃ q', (push value).eval q = some (q', ⟨.SUCCESS, none⟩) ∧ Alone q' (held ++ [value]) ∧
      q'.writeIndex.toNat = q.writeIndex.toNat + 1 := by
  have hWrite : q.writeIndex.toNat = q.readIndex.toNat + held.length := h.writeIndex_eq
  have hTest : (q.writeIndex - q.readIndex).toNat < SIZE := by
    rw [UInt64.toNat_sub_of_le _ _ (by rw [UInt64.le_iff_toNat_le]; omega)]
    omega
  have hEntered : (protocol Unit T SIZE).StepOk (fifo T SIZE) () (.pending (.push value)) q _ _ _ _ :=
    setEnqueuing_true_ok h h.enqueuing_eq
  have hWritten : (protocol Unit T SIZE).StepOk (fifo T SIZE) () (.pending (.push value)) _ _ _ _ _ :=
    writeSlot_ok hEntered.inv rfl (by simp only [setEnqueuing]; omega) value
  have hStored : (protocol Unit T SIZE).StepOk (fifo T SIZE) () (.pending (.push value)) _ _ _ _ _ :=
    addWriteIndex_ok hWritten.inv rfl (by simp only [writeSlot, setEnqueuing]; omega)
      (by simp only [writeSlot, setEnqueuing]; omega) (by rw [slotAt_writeSlot]; exact if_pos rfl)
  have hLeft : (protocol Unit T SIZE).StepOk (fifo T SIZE) () (.pending (.push value)) _ _ _ _ _ :=
    setEnqueuing_false_ok hStored.inv rfl
  refine ⟨_, ?_, hLeft.inv, ?_⟩
  · rw [push, eval_acquireEnqueuing h.enqueuing_eq]
    simp only [Prog.eval_load]
    rw [if_pos (.inl hTest)]
    rfl
  · simp only [setEnqueuing, addWriteIndex, writeSlot]
    rw [UInt64.toNat_add, UInt64.toNat_one]
    omega

/-- A call that takes the flag of the consumers and finds nothing, or only looks. -/
theorem alone_of_look (h : Alone q held) :
    Alone (setDequeuing false (setDequeuing true q)) held :=
  ⟨h.writeIndex_eq, h.length_le, h.slots, h.enqueuing_eq, rfl⟩

/-- A call that takes the flag of the consumers and removes the oldest element. -/
theorem alone_of_remove {value : T} {rest : List T} (h : Alone q (value :: rest)) :
    Alone (setDequeuing false (addReadIndex (setDequeuing true q))) rest := by
  have hEntered : (protocol Unit T SIZE).StepOk (fifo T SIZE) () (.pending .pop) q _ _ _ _ :=
    setDequeuing_true_ok h h.dequeuing_eq
  have hRemoved : (protocol Unit T SIZE).StepOk (fifo T SIZE) () (.pending .pop) _ _ _ _ _ :=
    addReadIndex_ok hEntered.inv rfl rfl rfl
  have hLeft : (protocol Unit T SIZE).StepOk (fifo T SIZE) () (.pending .pop) _ _ _ _ _ :=
    setDequeuing_false_ok hRemoved.inv rfl
  exact hLeft.inv

/-- `pop`, `front` and `poll` do what they do on a list. -/
theorem consume_alone (h : Alone q held) {op : Call T} (hop : ∀ value, op ≠ .push value) :
    ∃ q', (op.body : Prog (LockFreeQueue T SIZE) (Reply T)).eval q =
        some (q', ((unboundedFifo T).apply held op).1) ∧
      Alone q' ((unboundedFifo T).apply held op).2 ∧ q'.writeIndex = q.writeIndex := by
  have hFlag := h.dequeuing_eq
  have hLess := h.readIndex_lt_iff
  cases held with
  | nil =>
    have hNone : ¬ q.readIndex < q.writeIndex := by simp [hLess]
    cases op with
    | push value => exact absurd rfl (hop value)
    | pop => exact ⟨_, (eval_pop hFlag).trans (if_pos (UInt64.not_lt.mp hNone)), alone_of_look h, rfl⟩
    | front => exact ⟨_, (eval_front hFlag).trans (if_neg hNone), alone_of_look h, rfl⟩
    | poll => exact ⟨_, (eval_poll hFlag).trans (if_neg hNone), alone_of_look h, rfl⟩
  | cons value rest =>
    have hSome : q.readIndex < q.writeIndex := by simp [hLess]
    have hValue := h.readSlot_eq
    cases op with
    | push value' => exact absurd rfl (hop value')
    | pop =>
      exact ⟨_, (eval_pop hFlag).trans (if_neg (UInt64.not_le.mpr hSome)), alone_of_remove h, rfl⟩
    | front =>
      refine ⟨_, (eval_front hFlag).trans ?_, alone_of_look h, rfl⟩
      rw [if_pos hSome, hValue]
      rfl
    | poll =>
      refine ⟨_, (eval_poll hFlag).trans ?_, alone_of_remove h, rfl⟩
      rw [if_pos hSome, hValue]
      rfl

theorem clear_alone (h : Alone q held) :
    ∃ q', clear.eval q = some (q', ⟨.SUCCESS, none⟩) ∧ Alone q' [] ∧
      q'.writeIndex = q.writeIndex :=
  ⟨setReadIndex q.writeIndex q, rfl,
    ⟨rfl, Nat.zero_le _, fun _ _ hv => by simp at hv, h.enqueuing_eq, h.dequeuing_eq⟩, rfl⟩

theorem empty_alone (h : Alone q held) : empty.eval q = some (q, held.isEmpty) := by
  have hWrite : q.writeIndex.toNat = q.readIndex.toNat + held.length := h.writeIndex_eq
  have hEmpty : (q.readIndex == q.writeIndex) = held.isEmpty := by
    rw [Bool.eq_iff_iff, beq_iff_eq, List.isEmpty_iff, ← UInt64.toNat_inj, ← List.length_eq_zero_iff]
    omega
  simp [empty, hEmpty]

theorem size_alone (h : Alone q held) :
    ∃ n : UInt64, size.eval q = some (q, n) ∧ n.toNat = held.length := by
  have hWrite : q.writeIndex.toNat = q.readIndex.toNat + held.length := h.writeIndex_eq
  refine ⟨q.writeIndex - q.readIndex, rfl, ?_⟩
  rw [UInt64.toNat_sub_of_le _ _ (by rw [UInt64.le_iff_toNat_le]; omega)]
  omega

end Alone

end LockFreeQueue

namespace DoubleBufferQueue

section Alone

variable {T : Type} {q : DoubleBufferQueue T} {held : List T}

/-- The elements lie in the two buffers, and nobody has `_writeLock`. -/
structure Holds (q : DoubleBufferQueue T) (held : List T) : Prop where
  pointers : q.queueRead ≠ q.queueWrite
  held_eq : held = q.readBuffer ++ q.writeBuffer
  writeLock_eq : q.writeLock = false

/-- The state between two calls of a single thread. -/
structure Alone (q : DoubleBufferQueue T) (held : List T) : Prop extends Holds q held where
  readLock_eq : q.readLock = false

theorem alone_new : Alone (new T) [] :=
  ⟨⟨by simp [new], rfl, rfl⟩, rfl⟩

theorem eval_underWriteLock (h : q.writeLock = false) (f : DoubleBufferQueue T → DoubleBufferQueue T)
    (k : Prog (DoubleBufferQueue T) (Reply T)) :
    (underWriteLock f k).eval q = k.eval (setWriteLock false (f (setWriteLock true q))) := by
  rw [underWriteLock, Prog.eval_spin (by simp [h])]
  rfl

/-- The state after the first test, and the swap if it was necessary. -/
def ready (q : DoubleBufferQueue T) : DoubleBufferQueue T :=
  if q.readBuffer.isEmpty then setWriteLock false (swapPointers (setWriteLock true q)) else q

theorem eval_readElement (h : q.writeLock = false) (take : Prog (DoubleBufferQueue T) (Reply T))
    (leave : Reply T → Prog (DoubleBufferQueue T) (Reply T)) :
    (readElement take leave).eval q =
      if q.ready.readBuffer.isEmpty then (leave ⟨.NO_ELEMENT, none⟩).eval q.ready
      else take.eval q.ready := by
  rw [readElement, Prog.eval_load, ready]
  cases q.readBuffer.isEmpty with
  | true =>
    simp only [if_true, swap]
    rw [eval_underWriteLock h, Prog.eval_load]
    split <;> rfl
  | false =>
    simp only [Bool.false_eq_true, if_false]
    rw [Prog.eval_load]
    split <;> rfl

theorem Holds.ready (h : Holds q held) : Holds q.ready held ∧ q.ready.readLock = q.readLock := by
  unfold DoubleBufferQueue.ready
  split
  · next hempty =>
    have hread : q.readBuffer = [] := List.isEmpty_iff.mp hempty
    have hpointers : (setWriteLock true q).queueRead ≠ (setWriteLock true q).queueWrite := h.pointers
    refine ⟨⟨pointers_swapPointers, ?_, rfl⟩, readLock_swapPointers⟩
    have hread' := readBuffer_swapPointers hpointers
    have hwrite' := writeBuffer_swapPointers hpointers
    have hheld := h.held_eq
    rw [hread, List.nil_append] at hheld
    calc held = q.writeBuffer ++ q.readBuffer := by rw [hread, List.append_nil, hheld]
      _ = _ := congrArg₂ (· ++ ·) hread'.symm hwrite'.symm
  · exact ⟨h, rfl⟩

/-- After the swap an empty buffer means that there is no element at all. -/
theorem Holds.readBuffer_ready (h : Holds q held) : q.ready.readBuffer = [] → held = [] := by
  have hheld := h.ready.1.held_eq
  unfold DoubleBufferQueue.ready at hheld ⊢
  split
  · next hempty =>
    rw [if_pos hempty] at hheld
    have hpointers : (setWriteLock true q).queueRead ≠ (setWriteLock true q).queueWrite := h.pointers
    have hwrite : (setWriteLock false (swapPointers (setWriteLock true q))).writeBuffer = [] :=
      (writeBuffer_swapPointers hpointers).trans (List.isEmpty_iff.mp hempty)
    intro hread
    rw [hheld, hread, hwrite]
    rfl
  · next hne =>
    intro hread
    exact absurd (List.isEmpty_iff.mpr hread) hne

theorem Holds.exists_readBuffer {value : T} {rest : List T} (h : Holds q (value :: rest)) :
    ∃ later, q.ready.readBuffer = value :: later := by
  cases hread : q.ready.readBuffer with
  | nil => cases h.readBuffer_ready hread
  | cons value' later =>
    have hheld := h.ready.1.held_eq
    rw [hread, List.cons_append, List.cons.injEq] at hheld
    exact ⟨later, by rw [hheld.1]⟩

theorem Holds.popFront {value : T} {rest later : List T} (h : Holds q (value :: rest))
    (hread : q.readBuffer = value :: later) : Holds (popFront q) rest := by
  refine ⟨?_, ?_, ?_⟩
  · simpa [DoubleBufferQueue.popFront] using h.pointers
  · have hheld := h.held_eq
    rw [hread, List.cons_append, List.cons.injEq] at hheld
    rw [readBuffer_popFront, writeBuffer_popFront h.pointers, hread, List.tail_cons]
    exact hheld.2
  · simpa [DoubleBufferQueue.popFront] using h.writeLock_eq

theorem eval_removeFront {value : T} {later : List T} (hread : q.readBuffer = value :: later)
    (k : Prog (DoubleBufferQueue T) (Reply T)) : (removeFront k).eval q = k.eval (popFront q) := by
  rw [removeFront, Prog.eval_atomic, hread]
  rfl

theorem eval_loadFront {value : T} {later : List T} (hread : q.readBuffer = value :: later)
    (k : T → Prog (DoubleBufferQueue T) (Reply T)) : (loadFront k).eval q = (k value).eval q := by
  rw [loadFront, Prog.eval_load, hread]
  rfl

/-- However it leaves, the body does to the elements what the call does to a list. -/
def Consumes (body : (Reply T → Prog (DoubleBufferQueue T) (Reply T)) →
    Prog (DoubleBufferQueue T) (Reply T)) (held : List T) (reply : Reply T) (rest : List T) : Prop :=
  ∀ leave q, Holds q held → ∃ q', (body leave).eval q = (leave reply).eval q' ∧ Holds q' rest ∧
    q'.readLock = q.readLock

/-- Both overloads of a call, alone. -/
theorem overload_alone {body : (Reply T → Prog (DoubleBufferQueue T) (Reply T)) →
    Prog (DoubleBufferQueue T) (Reply T)} {reply : Reply T} {rest : List T}
    (hbody : Consumes body held reply rest) (h : Alone q held) (consumer : Bool) :
    ∃ q', (overload consumer body).eval q = some (q', reply) ∧ Alone q' rest := by
  cases consumer with
  | true =>
    have hlocked : Holds (setReadLock true q) held := ⟨h.pointers, h.held_eq, h.writeLock_eq⟩
    obtain ⟨q', heval, hrest, -⟩ := hbody
      (fun reply => .modify (setReadLock false) <| .ret reply) (setReadLock true q) hlocked
    refine ⟨setReadLock false q', ?_, ⟨hrest.pointers, hrest.held_eq, hrest.writeLock_eq⟩, rfl⟩
    rw [overload, if_pos rfl, underReadLock, Prog.eval_spin (by simp [h.readLock_eq]), heval]
    rfl
  | false =>
    obtain ⟨q', heval, hrest, hlock⟩ := hbody .ret q h.toHolds
    exact ⟨q', heval, hrest, hlock.trans h.readLock_eq⟩

/-- The body of a call that finds no element. -/
theorem consumes_nil (take : (Reply T → Prog (DoubleBufferQueue T) (Reply T)) →
    Prog (DoubleBufferQueue T) (Reply T)) :
    Consumes (fun leave => readElement (take leave) leave) [] ⟨.NO_ELEMENT, none⟩ [] := by
  intro leave q h
  obtain ⟨hready, hlock⟩ := h.ready
  have hread : q.ready.readBuffer = [] := (List.append_eq_nil_iff.mp hready.held_eq.symm).1
  refine ⟨q.ready, ?_, hready, hlock⟩
  rw [eval_readElement h.writeLock_eq, if_pos (List.isEmpty_iff.mpr hread)]

/-- The body of a call that finds an element. -/
theorem consumes_cons {take : (Reply T → Prog (DoubleBufferQueue T) (Reply T)) →
    Prog (DoubleBufferQueue T) (Reply T)} {value : T} {rest rest' : List T} {reply : Reply T}
    (htake : ∀ leave q later, Holds q (value :: rest) → q.readBuffer = value :: later →
      ∃ q', (take leave).eval q = (leave reply).eval q' ∧ Holds q' rest' ∧ q'.readLock = q.readLock) :
    Consumes (fun leave => readElement (take leave) leave) (value :: rest) reply rest' := by
  intro leave q h
  obtain ⟨hready, hlock⟩ := h.ready
  obtain ⟨later, hread⟩ := h.exists_readBuffer
  obtain ⟨q', heval, hrest, hlock'⟩ := htake leave q.ready later hready hread
  refine ⟨q', ?_, hrest, hlock'.trans hlock⟩
  rw [eval_readElement h.writeLock_eq, hread]
  exact heval

theorem readLock_popFront (q : DoubleBufferQueue T) : (popFront q).readLock = q.readLock :=
  readLock_setBuffer _ _ _

theorem pop_consumes (held : List T) :
    Consumes (fun leave => readElement (removeFront <| leave ⟨.SUCCESS, none⟩) leave) held
      ((unboundedFifo T).apply held .pop).1 ((unboundedFifo T).apply held .pop).2 := by
  cases held with
  | nil => exact consumes_nil fun leave => removeFront <| leave ⟨.SUCCESS, none⟩
  | cons value rest =>
    apply consumes_cons
    intro leave q later hq hread
    exact ⟨popFront q, eval_removeFront hread _, hq.popFront hread, readLock_popFront q⟩

theorem front_consumes (held : List T) :
    Consumes (fun leave => readElement (loadFront fun value => leave ⟨.SUCCESS, some value⟩) leave)
      held ((unboundedFifo T).apply held .front).1 ((unboundedFifo T).apply held .front).2 := by
  cases held with
  | nil => exact consumes_nil fun leave => loadFront fun value => leave ⟨.SUCCESS, some value⟩
  | cons value rest =>
    apply consumes_cons
    intro leave q later hq hread
    exact ⟨q, eval_loadFront hread _, hq, rfl⟩

theorem poll_consumes (held : List T) :
    Consumes (fun leave => readElement
        (loadFront fun value => removeFront <| leave ⟨.SUCCESS, some value⟩) leave)
      held ((unboundedFifo T).apply held .poll).1 ((unboundedFifo T).apply held .poll).2 := by
  cases held with
  | nil =>
    exact consumes_nil fun leave => loadFront fun value => removeFront <| leave ⟨.SUCCESS, some value⟩
  | cons value rest =>
    apply consumes_cons
    intro leave q later hq hread
    refine ⟨popFront q, ?_, hq.popFront hread, readLock_popFront q⟩
    rw [eval_loadFront hread, eval_removeFront hread]
    rfl

theorem push_alone (h : Alone q held) (value : T) :
    ∃ q', (push value).eval q = some (q', ⟨.SUCCESS, none⟩) ∧ Alone q' (held ++ [value]) := by
  have hpointers : (setWriteLock true q).queueRead ≠ (setWriteLock true q).queueWrite := h.pointers
  refine ⟨_, by rw [push, eval_underWriteLock h.writeLock_eq, Prog.eval_ret], ⟨⟨?_, ?_, rfl⟩, ?_⟩⟩
  · simpa [setWriteLock, pushBack] using h.pointers
  · have hread := readBuffer_pushBack hpointers value
    have hwrite := writeBuffer_pushBack (q := setWriteLock true q) value
    calc held ++ [value] = q.readBuffer ++ (q.writeBuffer ++ [value]) := by
          rw [h.held_eq, List.append_assoc]
      _ = _ := congrArg₂ (· ++ ·) hread.symm hwrite.symm
  · simpa [setWriteLock, pushBack] using h.readLock_eq

/-- Every call but `clear` does what it does on a list. -/
theorem body_alone (h : Alone q held) (consumer : Bool) (op : Call T) :
    ∃ q', (body consumer op).eval q = some (q', ((unboundedFifo T).apply held op).1) ∧
      Alone q' ((unboundedFifo T).apply held op).2 := by
  cases op with
  | push value => exact push_alone h value
  | pop => exact overload_alone (pop_consumes held) h consumer
  | front => exact overload_alone (front_consumes held) h consumer
  | poll => exact overload_alone (poll_consumes held) h consumer

theorem clear_alone (h : Alone q held) :
    ∃ q', clear.eval q = some (q', ⟨.SUCCESS, none⟩) ∧ Alone q' [] := by
  have hfree : (setReadLock false (emptyRead (setReadLock true q))).writeLock = false := by
    simpa [setReadLock, emptyRead] using h.writeLock_eq
  refine ⟨setWriteLock false (emptyWrite (setWriteLock true
    (setReadLock false (emptyRead (setReadLock true q))))), ?_, ⟨⟨?_, ?_, rfl⟩, ?_⟩⟩
  · rw [clear, Prog.eval_spin (by simp [h.readLock_eq]), Prog.eval_modify, Prog.eval_modify,
      eval_underWriteLock hfree, Prog.eval_ret]
  · simpa [setWriteLock, setReadLock, emptyRead, emptyWrite] using h.pointers
  · have hpointers := h.pointers
    cases hread : q.queueRead <;> cases hwrite : q.queueWrite <;>
      simp_all [readBuffer, writeBuffer, setWriteLock, setReadLock, emptyRead, emptyWrite,
        setBuffer, buffer]
  · simp [setWriteLock, emptyWrite, setReadLock]

theorem empty_alone (h : Alone q held) : empty.eval q = some (q, held.isEmpty) := by
  have hheld := h.held_eq
  rw [empty, Prog.eval_load]
  cases hread : q.readBuffer with
  | nil =>
    rw [hread, List.nil_append] at hheld
    rw [hheld]
    rfl
  | cons value later =>
    rw [hread] at hheld
    rw [hheld]
    rfl

theorem size_alone (h : Alone q held) (hlength : held.length < 2 ^ 64) :
    ∃ n : UInt64, size.eval q = some (q, n) ∧ n.toNat = held.length := by
  refine ⟨UInt64.ofNat q.readBuffer.length + UInt64.ofNat q.writeBuffer.length, rfl, ?_⟩
  have hheld := congrArg List.length h.held_eq
  rw [List.length_append] at hheld
  rw [← UInt64.ofNat_add, ← hheld]
  exact UInt64.toNat_ofNat_of_lt' hlength

end Alone

end DoubleBufferQueue

theorem pushCount_cons {T : Type} (call : QueueCall T) (calls : List (QueueCall T)) :
    pushCount (call :: calls) = pushCount [call] + pushCount calls := by
  rw [pushCount, ← List.singleton_append, List.countP_append]
  rfl

/-- A call makes the list longer by the pushes that it is. -/
theorem length_apply_le {T : Type} (held : List T) (call : QueueCall T) :
    ((plainFifo T).apply held call).2.length ≤ held.length + pushCount [call] := by
  cases call with
  | empty => simp [plainFifo]
  | size => simp [plainFifo]
  | of op =>
    cases op with
    | clear => simp [plainFifo]
    | of op =>
      cases op with
      | push value => simp [plainFifo, unboundedFifo, pushCount]
      | pop => cases held <;> simp [plainFifo, unboundedFifo]; omega
      | front => cases held <;> simp [plainFifo, unboundedFifo]
      | poll => cases held <;> simp [plainFifo, unboundedFifo]; omega

namespace LockFreeQueue

/-- One call of a single thread, with the pushes still to come and room for
them. -/
theorem queueBody_alone {T : Type} {SIZE : Nat} [NeZero SIZE] {q : LockFreeQueue T SIZE}
    {held : List T} {call : QueueCall T} (h : q.Alone held)
    (hpushes : q.writeIndex.toNat + pushCount [call] < 2 ^ 64)
    (hheld : ((plainFifo T).apply held call).2.length ≤ SIZE) :
    ∃ q' : LockFreeQueue T SIZE,
      (queueBody call).eval q = some (q', ((plainFifo T).apply held call).1) ∧
        q'.Alone ((plainFifo T).apply held call).2 ∧
        q'.writeIndex.toNat ≤ q.writeIndex.toNat + pushCount [call] := by
  cases call with
  | empty => exact ⟨q, by simp [queueBody, empty_alone h, plainFifo], h, Nat.le_add_right _ _⟩
  | size =>
    obtain ⟨n, heval, hn⟩ := size_alone h
    exact ⟨q, by simp [queueBody, heval, hn, plainFifo], h, Nat.le_add_right _ _⟩
  | of op =>
    cases op with
    | clear =>
      obtain ⟨q', heval, halone, hindex⟩ := clear_alone h
      refine ⟨q', by simp [queueBody, AnyCall.body, heval, plainFifo], halone, ?_⟩
      rw [hindex]
      exact Nat.le_add_right _ _
    | of op =>
      by_cases hop : ∃ value, op = .push value
      · obtain ⟨value, rfl⟩ := hop
        have hroom : (held ++ [value]).length ≤ SIZE := hheld
        rw [List.length_append, List.length_singleton] at hroom
        obtain ⟨q', heval, halone, hindex⟩ := push_alone h value (by omega) hpushes
        refine ⟨q', ?_, halone, hindex.le⟩
        simp [queueBody, AnyCall.body, Call.body, heval, plainFifo, unboundedFifo]
      · obtain ⟨q', heval, halone, hindex⟩ := consume_alone h (not_exists.mp hop)
        refine ⟨q', by simp [queueBody, AnyCall.body, heval, plainFifo], halone, ?_⟩
        rw [hindex]
        exact Nat.le_add_right _ _

theorem evalCalls_eq {T : Type} {SIZE : Nat} [NeZero SIZE] {q : LockFreeQueue T SIZE}
    {held : List T} {calls : List (QueueCall T)} (h : q.Alone held)
    (hpushes : q.writeIndex.toNat + pushCount calls < 2 ^ 64) (hheld : HoldsAtMost SIZE held calls) :
    Prog.evalCalls queueBody q calls = some ((plainFifo T).results held calls) := by
  refine evalCalls_of_simulation (fun calls (q : LockFreeQueue T SIZE) held => q.Alone held ∧
    q.writeIndex.toNat + pushCount calls < 2 ^ 64 ∧ HoldsAtMost SIZE held calls) ?_ ⟨h, hpushes, hheld⟩
  rintro call calls q held ⟨h, hpushes, -, hheld⟩
  rw [pushCount_cons] at hpushes
  obtain ⟨q', heval, halone, hindex⟩ := queueBody_alone h (by omega) hheld.length_le
  exact ⟨q', heval, halone, by omega, hheld⟩

end LockFreeQueue

namespace DoubleBufferQueue

theorem queueBody_alone {T : Type} {q : DoubleBufferQueue T} {held : List T}
    (h : q.Alone held) (consumer : Bool) (call : QueueCall T) (hlength : held.length < 2 ^ 64) :
    ∃ q', (queueBody consumer call).eval q = some (q', ((plainFifo T).apply held call).1) ∧
      q'.Alone ((plainFifo T).apply held call).2 := by
  cases call with
  | empty => exact ⟨q, by simp [queueBody, empty_alone h, plainFifo], h⟩
  | size =>
    obtain ⟨n, heval, hn⟩ := size_alone h hlength
    exact ⟨q, by simp [queueBody, heval, hn, plainFifo], h⟩
  | of op =>
    cases op with
    | clear =>
      obtain ⟨q', heval, halone⟩ := clear_alone h
      exact ⟨q', by simp [queueBody, anyBody, heval, plainFifo], halone⟩
    | of op =>
      obtain ⟨q', heval, halone⟩ := body_alone h consumer op
      exact ⟨q', by simp [queueBody, anyBody, heval, plainFifo], halone⟩

theorem evalCalls_eq {T : Type} {q : DoubleBufferQueue T} {held : List T} (consumer : Bool)
    {calls : List (QueueCall T)} (h : q.Alone held) (hpushes : held.length + pushCount calls < 2 ^ 64) :
    Prog.evalCalls (queueBody consumer) q calls = some ((plainFifo T).results held calls) := by
  refine evalCalls_of_simulation (fun calls (q : DoubleBufferQueue T) held => q.Alone held ∧
    held.length + pushCount calls < 2 ^ 64) ?_ ⟨h, hpushes⟩
  rintro call calls q held ⟨h, hpushes⟩
  rw [pushCount_cons] at hpushes
  obtain ⟨q', heval, halone⟩ := queueBody_alone h consumer call (by omega)
  have hlength := length_apply_le held call
  exact ⟨q', heval, halone, by omega⟩

end DoubleBufferQueue

/-- Used by a single thread, the two queues are interchangeable: over any calls
with fewer than `2 ^ 64` pushes and never more than `SIZE` elements held, both
return what a plain list does, call by call. -/
theorem queues_interchangeable {T : Type} [Inhabited T] {SIZE : Nat} [NeZero SIZE] (consumer : Bool)
    (calls : List (QueueCall T)) (hpushes : pushCount calls < 2 ^ 64)
    (hheld : HoldsAtMost SIZE [] calls) :
    Prog.evalCalls LockFreeQueue.queueBody (LockFreeQueue.new T SIZE) calls =
        some ((plainFifo T).results [] calls) ∧
      Prog.evalCalls (DoubleBufferQueue.queueBody consumer) (DoubleBufferQueue.new T) calls =
        some ((plainFifo T).results [] calls) := by
  constructor
  · refine LockFreeQueue.evalCalls_eq LockFreeQueue.alone_new ?_ hheld
    simpa [LockFreeQueue.new] using hpushes
  · refine DoubleBufferQueue.evalCalls_eq consumer DoubleBufferQueue.alone_new ?_
    simpa using hpushes

/-- One slot, used twice with a `clear` in between. -/
theorem queues_interchangeable_one_slot :
    Prog.evalCalls LockFreeQueue.queueBody (LockFreeQueue.new Nat 1)
        [.of (.of (.push 7)), .size, .of .clear, .empty, .of (.of (.push 8)), .of (.of .poll)] =
      some [.reply ⟨.SUCCESS, none⟩, .count 1, .reply ⟨.SUCCESS, none⟩, .emptiness true,
        .reply ⟨.SUCCESS, none⟩, .reply ⟨.SUCCESS, some 8⟩] :=
  (queues_interchangeable true _ (by decide)
    (by simp [HoldsAtMost, plainFifo, unboundedFifo])).1

end clockUtils.container
