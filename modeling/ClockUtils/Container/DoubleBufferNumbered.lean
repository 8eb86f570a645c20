import ClockUtils.Lib.RunLifting
import ClockUtils.Container.DoubleBufferProtocol

namespace clockUtils.container

open Concurrent

variable {T U : Type}

def Reply.map (g : T → U) (reply : Reply T) : Reply U :=
  ⟨reply.err, reply.value.map g⟩

namespace LockFreeQueue

def Call.map (g : T → U) : Call T → Call U
  | push value => push (g value)
  | pop => pop
  | front => front
  | poll => poll

def AnyCall.map (g : T → U) : AnyCall T → AnyCall U
  | of op => of (op.map g)
  | clear => clear

/-- A push of a value that carries a number. -/
def AnyCall.number (n : Nat) : AnyCall T → AnyCall (T × Nat) :=
  map fun value => (value, n)

theorem AnyCall.map_number (n : Nat) (op : AnyCall T) : (op.number n).map Prod.fst = op := by
  cases op with
  | of op => cases op <;> rfl
  | clear => rfl

end LockFreeQueue

namespace DoubleBufferQueue

open LockFreeQueue (Call AnyCall)

/-- The queue with its elements replaced. -/
def map (g : T → U) (q : DoubleBufferQueue T) : DoubleBufferQueue U where
  queueA := q.queueA.map g
  queueB := q.queueB.map g
  queueRead := q.queueRead
  queueWrite := q.queueWrite
  readLock := q.readLock
  writeLock := q.writeLock

/-- No member function looks at the elements: the program does the same to the
queue with its elements replaced. -/
def Generic (g : T → U) : Prog (DoubleBufferQueue T) (Reply T) →
    Prog (DoubleBufferQueue U) (Reply U) → Prop :=
  Prog.Lifts (map g) (Reply.map g)

section Elements

variable (g : T → U) (q : DoubleBufferQueue T)

@[simp]
theorem buffer_map (b : Buffer) : (q.map g).buffer b = (q.buffer b).map g := by
  cases b <;> rfl

@[simp]
theorem readBuffer_map : (q.map g).readBuffer = q.readBuffer.map g :=
  buffer_map g q q.queueRead

@[simp]
theorem writeBuffer_map : (q.map g).writeBuffer = q.writeBuffer.map g :=
  buffer_map g q q.queueWrite

theorem map_setBuffer (b : Buffer) (xs : List T) :
    (q.setBuffer b xs).map g = (q.map g).setBuffer b (xs.map g) := by
  cases b <;> rfl

theorem map_pushBack (value : T) : (pushBack value q).map g = pushBack (g value) (q.map g) := by
  rw [pushBack, map_setBuffer, List.map_append, pushBack, writeBuffer_map]
  rfl

theorem map_popFront : (popFront q).map g = popFront (q.map g) := by
  rw [popFront, map_setBuffer, popFront, readBuffer_map, List.map_tail]
  rfl

theorem map_swapPointers : (swapPointers q).map g = swapPointers (q.map g) := by
  unfold swapPointers
  by_cases hRead : q.queueRead = .A
  · rw [if_pos hRead, if_pos (show (q.map g).queueRead = .A from hRead)]
    rfl
  · rw [if_neg hRead, if_neg (show ¬ (q.map g).queueRead = .A from hRead)]
    rfl

end Elements

section Programs

variable {g : T → U} {k : Prog (DoubleBufferQueue T) (Reply T)}
  {k' : Prog (DoubleBufferQueue U) (Reply U)}

theorem generic_ret (err : ClockError) (value : Option T) :
    Generic g (.ret ⟨err, value⟩) (.ret ⟨err, value.map g⟩) :=
  rfl

theorem generic_underWriteLock {f : DoubleBufferQueue T → DoubleBufferQueue T}
    {f' : DoubleBufferQueue U → DoubleBufferQueue U} (hf : ∀ q, (f q).map g = f' (q.map g))
    (hk : Generic g k k') : Generic g (underWriteLock f k) (underWriteLock f' k') :=
  ⟨fun _ => rfl, fun _ => rfl, hf, fun _ => ⟨fun _ => rfl, fun _ => hk⟩⟩

/-- What remains of a call may depend on what it returns. -/
theorem generic_overload (consumer : Bool)
    {body : (Reply T → Prog (DoubleBufferQueue T) (Reply T)) → Prog (DoubleBufferQueue T) (Reply T)}
    {body' : (Reply U → Prog (DoubleBufferQueue U) (Reply U)) → Prog (DoubleBufferQueue U) (Reply U)}
    (hBody : ∀ leave leave', (∀ reply, Generic g (leave reply) (leave' (reply.map g))) →
      Generic g (body leave) (body' leave')) :
    Generic g (overload consumer body) (overload consumer body') := by
  cases consumer with
  | false => exact hBody _ _ fun _ => rfl
  | true =>
    exact ⟨fun _ => rfl, fun _ => rfl, hBody _ _ fun _ => ⟨fun _ => rfl, fun _ => rfl⟩⟩

/-- The test whether an element can be read. -/
theorem generic_test {k₁ : Prog (DoubleBufferQueue T) (Reply T)}
    {k₁' : Prog (DoubleBufferQueue U) (Reply U)} (hEmpty : Generic g k k') (hElement : Generic g k₁ k₁') :
    Generic g (.load (fun q => q.readBuffer.isEmpty) fun empty => if empty then k else k₁)
      (.load (fun q => q.readBuffer.isEmpty) fun empty => if empty then k' else k₁') := by
  refine ⟨fun _ => rfl, fun q => ?_⟩
  simp only [readBuffer_map, List.isEmpty_map]
  by_cases hTest : q.readBuffer.isEmpty = true
  · rw [if_pos hTest, if_pos hTest]
    exact hEmpty
  · rw [if_neg hTest, if_neg hTest]
    exact hElement

theorem generic_readElement (hk : Generic g k k')
    {leave : Reply T → Prog (DoubleBufferQueue T) (Reply T)}
    {leave' : Reply U → Prog (DoubleBufferQueue U) (Reply U)}
    (hLeave : ∀ reply, Generic g (leave reply) (leave' (reply.map g))) :
    Generic g (readElement k leave) (readElement k' leave') := by
  have hAgain := generic_test (hLeave ⟨.NO_ELEMENT, none⟩) hk
  exact generic_test (generic_underWriteLock (map_swapPointers g) hAgain) hAgain

theorem generic_loadFront {k : T → Prog (DoubleBufferQueue T) (Reply T)}
    {k' : U → Prog (DoubleBufferQueue U) (Reply U)} (hk : ∀ value, Generic g (k value) (k' (g value))) :
    Generic g (loadFront k) (loadFront k') := by
  refine ⟨fun _ => rfl, fun q => ?_⟩
  simp only [readBuffer_map, List.head?_map]
  cases q.readBuffer.head? with
  | none => trivial
  | some value => exact hk value

theorem generic_removeFront (hk : Generic g k k') : Generic g (removeFront k) (removeFront k') := by
  refine ⟨map_popFront g, fun q => ?_⟩
  simp only [readBuffer_map, List.isEmpty_map]
  by_cases hTest : q.readBuffer.isEmpty = true
  · rw [if_pos hTest, if_pos hTest]
    trivial
  · rw [if_neg hTest, if_neg hTest]
    exact hk

theorem generic_pop (g : T → U) (consumer : Bool) : Generic g (pop consumer) (pop consumer) := by
  refine generic_overload consumer fun leave leave' hLeave => generic_readElement ?_ hLeave
  exact generic_removeFront (hLeave ⟨.SUCCESS, none⟩)

theorem generic_front (g : T → U) (consumer : Bool) :
    Generic g (front consumer) (front consumer) := by
  refine generic_overload consumer fun leave leave' hLeave => generic_readElement ?_ hLeave
  exact generic_loadFront fun value => hLeave ⟨.SUCCESS, some value⟩

theorem generic_poll (g : T → U) (consumer : Bool) : Generic g (poll consumer) (poll consumer) := by
  refine generic_overload consumer fun leave leave' hLeave => generic_readElement ?_ hLeave
  exact generic_loadFront fun value => generic_removeFront (hLeave ⟨.SUCCESS, some value⟩)

theorem generic_clear (g : T → U) : Generic g clear clear :=
  ⟨fun _ => rfl, fun _ => rfl, fun q => map_setBuffer g q q.queueRead [], fun _ =>
    ⟨fun _ => rfl, fun _ =>
      generic_underWriteLock (fun q => map_setBuffer g q q.queueWrite []) (generic_ret .SUCCESS none)⟩⟩

/-- Every member function is generic. -/
theorem generic_anyBody (g : T → U) (consumer : Bool) (op : AnyCall T) :
    Generic g (anyBody consumer op) (anyBody consumer (op.map g)) := by
  cases op with
  | clear => exact generic_clear g
  | of op =>
    cases op with
    | push value =>
      exact generic_underWriteLock (fun q => map_pushBack g q value) (generic_ret .SUCCESS none)
    | pop => exact generic_pop g consumer
    | front => exact generic_front g consumer
    | poll => exact generic_poll g consumer

end Programs

/-- The same run with elements that carry the positions of their pushes. -/
structure NumberedRun {Thread T : Type} [DecidableEq Thread] [DecidableEq T] (consumer : Bool)
    (labels : List (Label Thread (AnyCall T) (Reply T)))
    (numbered : List (Label Thread (AnyCall (T × Nat)) (Reply (T × Nat))))
    (c : Config Thread (DoubleBufferQueue (T × Nat)) (Reply (T × Nat))) : Prop where
  run : (Config.start (new (T × Nat))).run (anyBody consumer) numbered = some c
  labels_eq : numbered.map (Label.map (AnyCall.map Prod.fst) (Reply.map Prod.fst)) = labels
  numbers : Numbered AnyCall.number numbered

/-- Every run has one. -/
theorem exists_numberedRun {Thread T : Type} [DecidableEq Thread] [DecidableEq T] {consumer : Bool}
    {labels : List (Label Thread (AnyCall T) (Reply T))}
    {c : Config Thread (DoubleBufferQueue T) (Reply T)}
    (hRun : (Config.start (new T)).run (anyBody consumer) labels = some c) :
    ∃ numbered c', NumberedRun consumer labels numbered c' ∧ c'.shared.map Prod.fst = c.shared := by
  have hErased : (Config.start ((new (T × Nat)).map Prod.fst)).run (anyBody consumer) labels = some c :=
    hRun
  obtain ⟨numbered, c', hRun', hLabels, hNumbers, hLifts⟩ :=
    Config.exists_numbered (generic_anyBody Prod.fst consumer) AnyCall.map_number hErased
  exact ⟨numbered, c', ⟨hRun', hLabels, hNumbers⟩, hLifts.shared⟩

end DoubleBufferQueue

end clockUtils.container
