import ClockUtils.Lib.ControlPoints
import ClockUtils.Container.LockFreeQueue

namespace clockUtils.container.LockFreeQueue

open Concurrent

/-- The functions that set `_dequeuing`. -/
inductive Kind where
  | pop
  | front
  | poll
  deriving DecidableEq

/-- The steps that a thread can have before it, with the values of its local
variables. For an increment of `_readIndex` this includes the index that was
compared with `_writeIndex`. -/
inductive Point (T : Type) where
  | pushSpin (value : T)
  | pushAssert (value : T)
  | pushLoadRead (value : T)
  | pushLoadWrite (value : T) (readIndex : UInt64)
  | pushWriteSlot (value : T) (writeIndex : UInt64)
  | pushAdd (value : T)
  | pushLeave (reply : Reply T)
  | spin (kind : Kind)
  | assert (kind : Kind)
  | loadWrite (kind : Kind)
  | loadRead (kind : Kind) (writeIndex : UInt64)
  | popAdd (readIndex : UInt64)
  | frontRead (readIndex : UInt64)
  | pollRead (readIndex : UInt64)
  | pollAdd (value : T) (readIndex : UInt64)
  | leave (reply : Reply T)
  | clearLoad
  | clearStore (writeIndex : UInt64)
  | done (reply : Reply T)
  | aborted
  deriving DecidableEq

namespace Point

variable {T : Type} {SIZE : Nat}

/-- Where an element was found at `readIndex`. -/
def found (readIndex : UInt64) : Kind → Point T
  | .pop => popAdd readIndex
  | .front => frontRead readIndex
  | .poll => pollRead readIndex

def entry : AnyCall T → Point T
  | .of (.push value) => pushSpin value
  | .of .pop => spin .pop
  | .of .front => spin .front
  | .of .poll => spin .poll
  | .clear => clearLoad

def step [NeZero SIZE] (q : LockFreeQueue T SIZE) : Point T → Option (LockFreeQueue T SIZE × Point T)
  | pushSpin value =>
    if !q.enqueuing then some (setEnqueuing true q, pushAssert value) else some (q, pushSpin value)
  | pushAssert value => some (q, if q.enqueuing then pushLoadRead value else aborted)
  | pushLoadRead value => some (q, pushLoadWrite value q.readIndex)
  | pushLoadWrite value readIndex =>
    some (q, if (q.writeIndex - readIndex).toNat < SIZE ∨ readIndex > q.writeIndex then
      pushWriteSlot value q.writeIndex else pushLeave ⟨.NO_SPACE_AVAILABLE, none⟩)
  | pushWriteSlot value writeIndex => some (writeSlot writeIndex value q, pushAdd value)
  | pushAdd _ => some (addWriteIndex q, pushLeave ⟨.SUCCESS, none⟩)
  | pushLeave reply => some (setEnqueuing false q, done reply)
  | spin kind =>
    if !q.dequeuing then some (setDequeuing true q, assert kind) else some (q, spin kind)
  | assert kind => some (q, if q.dequeuing then loadWrite kind else aborted)
  | loadWrite kind => some (q, loadRead kind q.writeIndex)
  | loadRead kind writeIndex =>
    some (q, if writeIndex ≤ q.readIndex then leave ⟨.NO_ELEMENT, none⟩ else found q.readIndex kind)
  | popAdd _ => some (addReadIndex q, leave ⟨.SUCCESS, none⟩)
  | frontRead readIndex => some (q, leave ⟨.SUCCESS, some (readSlot readIndex q)⟩)
  | pollRead readIndex => some (q, pollAdd (readSlot readIndex q) readIndex)
  | pollAdd value _ => some (addReadIndex q, leave ⟨.SUCCESS, some value⟩)
  | leave reply => some (setDequeuing false q, done reply)
  | clearLoad => some (q, clearStore q.writeIndex)
  | clearStore writeIndex => some (setReadIndex writeIndex q, done ⟨.SUCCESS, none⟩)
  | done _ => none
  | aborted => none

def reply : Point T → Option (Reply T)
  | done reply => some reply
  | _ => none

/-- All calls, cut at their steps. -/
def graph (T : Type) (SIZE : Nat) [NeZero SIZE] :
    ControlGraph (AnyCall T) (Reply T) (LockFreeQueue T SIZE) (Point T) where
  entry := entry
  step := step
  reply := reply

/-- What follows the comparison of the indices in `pop`, `front` and `poll`. -/
def compareProg [NeZero SIZE] (writeIndex readIndex : UInt64) :
    Kind → Prog (LockFreeQueue T SIZE) (Reply T)
  | .pop =>
    if writeIndex ≤ readIndex then leaveDequeuing ⟨.NO_ELEMENT, none⟩
    else .modify addReadIndex <| leaveDequeuing ⟨.SUCCESS, none⟩
  | .front =>
    if writeIndex > readIndex then
      .load (readSlot readIndex) fun value => leaveDequeuing ⟨.SUCCESS, some value⟩
    else leaveDequeuing ⟨.NO_ELEMENT, none⟩
  | .poll =>
    if writeIndex > readIndex then
      .load (readSlot readIndex) fun value =>
      .modify addReadIndex <|
      leaveDequeuing ⟨.SUCCESS, some value⟩
    else leaveDequeuing ⟨.NO_ELEMENT, none⟩

/-- What follows the acquisition of `_dequeuing`. -/
def dequeueProg [NeZero SIZE] (kind : Kind) : Prog (LockFreeQueue T SIZE) (Reply T) :=
  .load (fun q => q.writeIndex) fun writeIndex =>
  .load (fun q => q.readIndex) fun readIndex =>
  compareProg writeIndex readIndex kind

/-- What follows the comparison of the indices in `push`. -/
def pushProg [NeZero SIZE] (value : T) (readIndex writeIndex : UInt64) :
    Prog (LockFreeQueue T SIZE) (Reply T) :=
  if (writeIndex - readIndex).toNat < SIZE ∨ readIndex > writeIndex then
    .modify (writeSlot writeIndex value) <|
    .modify addWriteIndex <|
    leaveEnqueuing ⟨.SUCCESS, none⟩
  else
    leaveEnqueuing ⟨.NO_SPACE_AVAILABLE, none⟩

/-- What a thread has still to do of its call. -/
def prog [NeZero SIZE] : Point T → Prog (LockFreeQueue T SIZE) (Reply T)
  | pushSpin value => push value
  | pushAssert value =>
    .assert (fun q => q.enqueuing) <|
    .load (fun q => q.readIndex) fun readIndex =>
    .load (fun q => q.writeIndex) fun writeIndex =>
    pushProg value readIndex writeIndex
  | pushLoadRead value =>
    .load (fun q => q.readIndex) fun readIndex =>
    .load (fun q => q.writeIndex) fun writeIndex =>
    pushProg value readIndex writeIndex
  | pushLoadWrite value readIndex => .load (fun q => q.writeIndex) (pushProg value readIndex)
  | pushWriteSlot value writeIndex =>
    .modify (writeSlot writeIndex value) <|
    .modify addWriteIndex <|
    leaveEnqueuing ⟨.SUCCESS, none⟩
  | pushAdd _ => .modify addWriteIndex <| leaveEnqueuing ⟨.SUCCESS, none⟩
  | pushLeave reply => leaveEnqueuing reply
  | spin kind => acquireDequeuing (dequeueProg kind)
  | assert kind => .assert (fun q => q.dequeuing) (dequeueProg kind)
  | loadWrite kind => dequeueProg kind
  | loadRead kind writeIndex =>
    .load (fun q => q.readIndex) fun readIndex => compareProg writeIndex readIndex kind
  | popAdd _ => .modify addReadIndex <| leaveDequeuing ⟨.SUCCESS, none⟩
  | frontRead readIndex =>
    .load (readSlot readIndex) fun value => leaveDequeuing ⟨.SUCCESS, some value⟩
  | pollRead readIndex =>
    .load (readSlot readIndex) fun value =>
    .modify addReadIndex <|
    leaveDequeuing ⟨.SUCCESS, some value⟩
  | pollAdd value _ => .modify addReadIndex <| leaveDequeuing ⟨.SUCCESS, some value⟩
  | leave reply => leaveDequeuing reply
  | clearLoad => clear
  | clearStore writeIndex => .modify (setReadIndex writeIndex) <| .ret ⟨.SUCCESS, none⟩
  | done reply => .ret reply
  | aborted => .abort

theorem compareProg_eq [NeZero SIZE] (writeIndex readIndex : UInt64) (kind : Kind) :
    (compareProg writeIndex readIndex kind : Prog (LockFreeQueue T SIZE) (Reply T)) =
      prog (if writeIndex ≤ readIndex then leave ⟨.NO_ELEMENT, none⟩ else found readIndex kind) := by
  by_cases h : writeIndex ≤ readIndex
  · have hNot : ¬ writeIndex > readIndex := UInt64.not_lt.mpr h
    cases kind <;> simp only [compareProg, if_pos h, if_neg hNot, prog]
  · have hLt : writeIndex > readIndex := UInt64.not_le.mp h
    cases kind <;> simp only [compareProg, if_neg h, if_pos hLt, found, prog]

theorem pushProg_eq [NeZero SIZE] (value : T) (readIndex writeIndex : UInt64) :
    (pushProg value readIndex writeIndex : Prog (LockFreeQueue T SIZE) (Reply T)) =
      prog (if (writeIndex - readIndex).toNat < SIZE ∨ readIndex > writeIndex then
        pushWriteSlot value writeIndex else pushLeave ⟨.NO_SPACE_AVAILABLE, none⟩) := by
  rw [pushProg]
  split
  · rfl
  · rfl

theorem prog_step [NeZero SIZE] (q : LockFreeQueue T SIZE) (p : Point T) :
    (prog p).step q = (step q p).map fun next => (next.1, prog next.2) := by
  cases p with
  | pushSpin value =>
    change (if !q.enqueuing then some (setEnqueuing true q, prog (pushAssert value))
      else some (q, prog (pushSpin value))) = _
    rw [step]
    split <;> rfl
  | spin kind =>
    change (if !q.dequeuing then some (setDequeuing true q, prog (assert kind))
      else some (q, prog (spin kind))) = _
    rw [step]
    split <;> rfl
  | pushAssert value =>
    change some (q, if q.enqueuing then prog (pushLoadRead value) else .abort) = _
    rw [step]
    cases q.enqueuing <;> rfl
  | assert kind =>
    change some (q, if q.dequeuing then prog (loadWrite kind) else .abort) = _
    rw [step]
    cases q.dequeuing <;> rfl
  | pushLoadWrite value readIndex =>
    change some (q, pushProg value readIndex q.writeIndex) = _
    rw [pushProg_eq]
    rfl
  | loadRead kind writeIndex =>
    change some (q, compareProg writeIndex q.readIndex kind) = _
    rw [compareProg_eq]
    rfl
  | pushLoadRead value => rfl
  | pushWriteSlot value writeIndex => rfl
  | pushAdd value => rfl
  | pushLeave reply => rfl
  | loadWrite kind => rfl
  | popAdd readIndex => rfl
  | frontRead readIndex => rfl
  | pollRead readIndex => rfl
  | pollAdd value readIndex => rfl
  | leave reply => rfl
  | clearLoad => rfl
  | clearStore writeIndex => rfl
  | done reply => rfl
  | aborted => rfl

theorem prog_eq_ret_iff [NeZero SIZE] (p : Point T) (r : Reply T) :
    (prog p : Prog (LockFreeQueue T SIZE) (Reply T)) = .ret r ↔ reply p = some r := by
  cases p with
  | done reply => simp [prog, Point.reply]
  | _ =>
    constructor
    · intro h
      cases h
    · intro h
      cases h

/-- The points are those of the functions. -/
theorem graph_cuts [NeZero SIZE] : (graph T SIZE).Cuts AnyCall.body prog := by
  refine ⟨?_, prog_step, prog_eq_ret_iff⟩
  intro op
  cases op with
  | of op => cases op <;> rfl
  | clear => rfl

end Point

end clockUtils.container.LockFreeQueue
