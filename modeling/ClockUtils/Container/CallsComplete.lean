import ClockUtils.Container.Sequential
import ClockUtils.Container.DoubleBufferLinearizable
import ClockUtils.Container.DoubleBufferClear
import ClockUtils.Lib.LockOrder

namespace clockUtils.container

open Concurrent
open LockFreeQueue (Call AnyCall)

namespace LockFreeQueue

inductive Flag where
  | enqueuing
  | dequeuing

/-- No call takes both flags, so they have the same rank. -/
def flags (T : Type) (SIZE : Nat) : Locking (LockFreeQueue T SIZE) Flag Unit where
  held
    | q, .enqueuing => q.enqueuing
    | q, .dequeuing => q.dequeuing
  rank _ := 0
  standing _ := False
  data _ _ := ()
  inv _ := True

section Flags

variable {T : Type} {SIZE : Nat}

theorem takes_enqueuing :
    (flags T SIZE).Takes .enqueuing (fun q => !q.enqueuing) (setEnqueuing true) where
  standing := not_false
  inv := fun _ _ => trivial
  data := fun _ _ => rfl
  guard := fun _ => rfl
  others := fun _ l hl => by
    cases l with
    | enqueuing => exact absurd rfl hl
    | dequeuing => rfl
  mine := fun _ => rfl

theorem takes_dequeuing :
    (flags T SIZE).Takes .dequeuing (fun q => !q.dequeuing) (setDequeuing true) where
  standing := not_false
  inv := fun _ _ => trivial
  data := fun _ _ => rfl
  guard := fun _ => rfl
  others := fun _ l hl => by
    cases l with
    | enqueuing => rfl
    | dequeuing => exact absurd rfl hl
  mine := fun _ => rfl

theorem releases_enqueuing : (flags T SIZE).Keeps [.enqueuing] [] (setEnqueuing false) := by
  refine .of_release (by simp) (fun _ _ => trivial) (fun _ _ => rfl) (fun _ l hl => ?_) fun _ => rfl
  cases l with
  | enqueuing => exact absurd rfl hl
  | dequeuing => rfl

theorem releases_dequeuing : (flags T SIZE).Keeps [.dequeuing] [] (setDequeuing false) := by
  refine .of_release (by simp) (fun _ _ => trivial) (fun _ _ => rfl) (fun _ l hl => ?_) fun _ => rfl
  cases l with
  | enqueuing => rfl
  | dequeuing => exact absurd rfl hl

end Flags

section Calls

variable {T : Type} {SIZE : Nat} {own : List Flag} {α : Type}

/-- The steps between the acquisition of a flag and its release. -/
theorem bracketed_load {β : Type} {field : LockFreeQueue T SIZE → β}
    {k : β → Prog (LockFreeQueue T SIZE) α}
    (h : ∀ b, (flags T SIZE).Bracketed [] own (fun _ => True) (k b)) :
    (flags T SIZE).Bracketed [] own (fun _ => True) (.load field k) :=
  .load (Locking.stable_true own) fun q _ _ _ => ⟨fun _ => True, trivial, h (field q)⟩

theorem bracketed_modify {f : LockFreeQueue T SIZE → LockFreeQueue T SIZE}
    {k : Prog (LockFreeQueue T SIZE) α}
    (hHeld : ∀ q l, (flags T SIZE).held (f q) l = (flags T SIZE).held q l)
    (h : (flags T SIZE).Bracketed [] own (fun _ => True) k) :
    (flags T SIZE).Bracketed [] own (fun _ => True) (.modify f k) := by
  have hKeeps : (flags T SIZE).Keeps own own f :=
    .of_held (fun _ _ => trivial) (fun _ _ _ _ => rfl) hHeld
  exact .modify hKeeps h (Locking.stable_true own)

/-- The assertion on the flag does not fail: nobody else resets it. -/
theorem bracketed_assert {flag : Flag} (hFlag : flag ∈ own) {k : Prog (LockFreeQueue T SIZE) α}
    (h : (flags T SIZE).Bracketed [] own (fun _ => True) k) :
    (flags T SIZE).Bracketed [] own (fun _ => True)
      (.assert (fun q => (flags T SIZE).held q flag) k) := by
  refine .load (Locking.stable_true own) fun q _ hHeld _ => ⟨fun _ => True, trivial, ?_⟩
  rwa [if_pos (hHeld flag hFlag)]

theorem bracketed_acquireEnqueuing {k : Prog (LockFreeQueue T SIZE) (Reply T)}
    (h : (flags T SIZE).Bracketed [] [.enqueuing] (fun _ => True) k) :
    (flags T SIZE).Bracketed [] [] (fun _ => True) (acquireEnqueuing k) :=
  .lock (by simp) takes_enqueuing (bracketed_assert List.mem_cons_self h)

theorem bracketed_acquireDequeuing {k : Prog (LockFreeQueue T SIZE) (Reply T)}
    (h : (flags T SIZE).Bracketed [] [.dequeuing] (fun _ => True) k) :
    (flags T SIZE).Bracketed [] [] (fun _ => True) (acquireDequeuing k) :=
  .lock (by simp) takes_dequeuing (bracketed_assert List.mem_cons_self h)

theorem bracketed_leaveEnqueuing (reply : Reply T) :
    (flags T SIZE).Bracketed [] [.enqueuing] (fun _ => True) (leaveEnqueuing reply) :=
  .modify releases_enqueuing (.done reply) (Locking.stable_true _)

theorem bracketed_leaveDequeuing (reply : Reply T) :
    (flags T SIZE).Bracketed [] [.dequeuing] (fun _ => True) (leaveDequeuing reply) :=
  .modify releases_dequeuing (.done reply) (Locking.stable_true _)

theorem bracketed_pop : (flags T SIZE).Bracketed [] [] (fun _ => True) pop := by
  refine bracketed_acquireDequeuing (bracketed_load fun writeIndex => bracketed_load fun readIndex => ?_)
  split
  · exact bracketed_leaveDequeuing _
  · refine bracketed_modify (fun q l => ?_) (bracketed_leaveDequeuing _)
    cases l <;> rfl

theorem bracketed_clear : (flags T SIZE).Bracketed [] [] (fun _ => True) clear := by
  refine bracketed_load fun writeIndex => bracketed_modify (fun q l => ?_) (.done _)
  cases l <;> rfl

variable [NeZero SIZE]

theorem bracketed_push (value : T) :
    (flags T SIZE).Bracketed [] [] (fun _ => True) (push value) := by
  refine bracketed_acquireEnqueuing (bracketed_load fun readIndex => bracketed_load fun writeIndex => ?_)
  split
  · refine bracketed_modify (fun q l => ?_) (bracketed_modify (fun q l => ?_) ?_)
    · cases l <;> rfl
    · cases l <;> rfl
    · exact bracketed_leaveEnqueuing _
  · exact bracketed_leaveEnqueuing _

theorem bracketed_front : (flags T SIZE).Bracketed [] [] (fun _ => True) front := by
  refine bracketed_acquireDequeuing (bracketed_load fun writeIndex => bracketed_load fun readIndex => ?_)
  split
  · exact bracketed_load fun value => bracketed_leaveDequeuing _
  · exact bracketed_leaveDequeuing _

theorem bracketed_poll : (flags T SIZE).Bracketed [] [] (fun _ => True) poll := by
  refine bracketed_acquireDequeuing (bracketed_load fun writeIndex => bracketed_load fun readIndex => ?_)
  split
  · refine bracketed_load fun value => bracketed_modify (fun q l => ?_) (bracketed_leaveDequeuing _)
    cases l <;> rfl
  · exact bracketed_leaveDequeuing _

theorem bracketed_queueBody (call : QueueCall T) :
    (flags T SIZE).Bracketed [] [] (fun _ => True) (queueBody call) := by
  cases call with
  | of op =>
    refine .map Answer.reply ?_
    cases op with
    | clear => exact bracketed_clear
    | of op =>
      cases op with
      | push value => exact bracketed_push value
      | pop => exact bracketed_pop
      | front => exact bracketed_front
      | poll => exact bracketed_poll
  | empty => exact .map _ (bracketed_load fun _ => bracketed_load fun _ => .done _)
  | size => exact .map _ (bracketed_load fun _ => bracketed_load fun _ => .done _)

end Calls

section Runs

variable {Thread T : Type} {SIZE : Nat} [NeZero SIZE] [Inhabited T] [DecidableEq Thread]
  [DecidableEq T]

/-- However the calls of all threads are interleaved, no assertion fails and no call is ever
stuck: the threads inside of their calls can always bring it to its end. An element is
assigned in one step here, which does not throw. -/
theorem ring_calls_complete (labels : List (Label Thread (QueueCall T) (Answer T)))
    (c : Config Thread (LockFreeQueue T SIZE) (Answer T))
    (hRun : (Config.start (new T SIZE)).run queueBody labels = some c) (t : Thread)
    (p : Prog (LockFreeQueue T SIZE) (Answer T)) (hp : c.running t = some p) :
    p ≠ .abort ∧ ∃ (more : List (Label Thread (QueueCall T) (Answer T)))
      (c' : Config Thread (LockFreeQueue T SIZE) (Answer T)) (answer : Answer T),
      Internal more ∧ c.run queueBody more = some c' ∧ c'.running t = some (.ret answer) := by
  have hStart : Starts (flags T SIZE) (fun _ : Thread => []) (new T SIZE) := by
    refine ⟨trivial, fun t l hl => (by cases hl), fun l hl => ?_, fun t u l hl => (by cases hl)⟩
    cases l <;> cases hl
  exact exists_completion_of_run (fun _ op _ => bracketed_queueBody op) 0 (fun _ => Nat.le_refl 0)
    hStart hRun hp

/-- The second `push` waits for the flag of the first one. -/
def pushesAtOnce : List (Label Nat (QueueCall Nat) (Answer Nat)) :=
  [.call 0 (.of (.of (.push 5))), .internal 0, .call 1 (.of (.of (.push 7))), .internal 1, .internal 0]

theorem ring_calls_complete_waiting :
    ∃ (c : Config Nat (LockFreeQueue Nat 1) (Answer Nat)) (p : Prog (LockFreeQueue Nat 1) (Answer Nat)),
      (Config.start (new Nat 1)).run queueBody pushesAtOnce = some c ∧ c.running 1 = some p ∧
      p ≠ .abort ∧ ∃ (more : List (Label Nat (QueueCall Nat) (Answer Nat)))
        (c' : Config Nat (LockFreeQueue Nat 1) (Answer Nat)) (answer : Answer Nat),
        Internal more ∧ c.run queueBody more = some c' ∧ c'.running 1 = some (.ret answer) := by
  have hSome : (((Config.start (new Nat 1)).run queueBody pushesAtOnce).bind
      fun c => c.running 1).isSome = true := by
    decide
  obtain ⟨p, hBind⟩ := Option.isSome_iff_exists.mp hSome
  obtain ⟨c, hRun, hp⟩ := Option.bind_eq_some_iff.mp hBind
  exact ⟨c, p, hRun, hp, ring_calls_complete pushesAtOnce c hRun 1 p hp⟩

end Runs

end LockFreeQueue

namespace DoubleBufferQueue

/-- The role of the only consumer protects what otherwise `_readLock` protects. -/
inductive Lock where
  | role
  | read
  | write
  deriving DecidableEq

/-- What a thread needs to use `*_queueRead`. -/
def Lock.ofReader (consumer : Bool) : Lock :=
  if consumer then .read else .role

/-- `swap` takes the write lock of a thread that may hold the read lock. -/
def locks (T : Type) (consumer : Bool) : Locking (DoubleBufferQueue T) Lock (List T) where
  held
    | _, .role => !consumer
    | q, .read => q.readLock
    | q, .write => q.writeLock
  rank
    | .role => 0
    | .read => 1
    | .write => 2
  standing l := l = .role
  data l q :=
    if l = .ofReader consumer then q.readBuffer else if l = .write then q.writeBuffer else []
  inv q := q.queueRead ≠ q.queueWrite

section Locks

variable {T : Type} {consumer : Bool} {base own : List Lock}

theorem data_ofReader (q : DoubleBufferQueue T) :
    (locks T consumer).data (.ofReader consumer) q = q.readBuffer :=
  if_pos rfl

theorem takes_read : (locks T consumer).Takes .read (fun q => !q.readLock) (setReadLock true) where
  standing := Lock.noConfusion
  inv := fun _ hInv => hInv
  data := fun _ _ => rfl
  guard := fun _ => rfl
  others := fun _ l hl => by
    cases l with
    | role => rfl
    | read => exact absurd rfl hl
    | write => rfl
  mine := fun _ => rfl

theorem takes_write :
    (locks T consumer).Takes .write (fun q => !q.writeLock) (setWriteLock true) where
  standing := Lock.noConfusion
  inv := fun _ hInv => hInv
  data := fun _ _ => rfl
  guard := fun _ => rfl
  others := fun _ l hl => by
    cases l with
    | role => rfl
    | read => rfl
    | write => exact absurd rfl hl
  mine := fun _ => rfl

theorem releases_read (hOwn : Lock.read ∉ own) :
    (locks T consumer).Keeps (.read :: own) own (setReadLock false) := by
  refine .of_release hOwn (fun _ hInv => hInv) (fun _ _ => rfl) (fun _ l hl => ?_) fun _ => rfl
  cases l with
  | role => rfl
  | read => exact absurd rfl hl
  | write => rfl

theorem releases_write (hOwn : Lock.write ∉ own) :
    (locks T consumer).Keeps (.write :: own) own (setWriteLock false) := by
  refine .of_release hOwn (fun _ hInv => hInv) (fun _ _ => rfl) (fun _ l hl => ?_) fun _ => rfl
  cases l with
  | role => rfl
  | read => rfl
  | write => exact absurd rfl hl

/-- A change of the buffers under the locks that it needs. -/
theorem keeps_buffers {f : DoubleBufferQueue T → DoubleBufferQueue T}
    (hInv : ∀ q, q.queueRead ≠ q.queueWrite → (f q).queueRead ≠ (f q).queueWrite)
    (hRead : Lock.ofReader consumer ∈ own ∨
      ∀ q, q.queueRead ≠ q.queueWrite → (f q).readBuffer = q.readBuffer)
    (hWrite : Lock.write ∈ own ∨
      ∀ q, q.queueRead ≠ q.queueWrite → (f q).writeBuffer = q.writeBuffer)
    (hLocks : ∀ q, (f q).readLock = q.readLock ∧ (f q).writeLock = q.writeLock) :
    (locks T consumer).Keeps own own f := by
  refine .of_held hInv (fun q hPointers l hl => ?_) fun q l => ?_
  · simp only [locks]
    split
    · next hReader =>
      subst hReader
      exact hRead.resolve_left hl q hPointers
    · split
      · next hWriter =>
        subst hWriter
        exact hWrite.resolve_left hl q hPointers
      · rfl
  · cases l with
    | role => rfl
    | read => exact (hLocks q).1
    | write => exact (hLocks q).2

theorem keeps_pushBack (value : T) (hOwn : Lock.write ∈ own) :
    (locks T consumer).Keeps own own (pushBack value) :=
  keeps_buffers (fun q hPointers => by simpa [pushBack] using hPointers)
    (.inr fun q hPointers => readBuffer_pushBack hPointers value) (.inl hOwn)
    fun q => by simp [pushBack]

theorem keeps_popFront (hOwn : Lock.ofReader consumer ∈ own) :
    (locks T consumer).Keeps own own popFront :=
  keeps_buffers (fun q hPointers => by simpa [popFront] using hPointers) (.inl hOwn)
    (.inr fun q hPointers => writeBuffer_popFront hPointers) fun q => by simp [popFront]

theorem keeps_swapPointers (hOwn : Lock.ofReader consumer ∈ own) (hWrite : Lock.write ∈ own) :
    (locks T consumer).Keeps own own swapPointers :=
  keeps_buffers (fun _ _ => pointers_swapPointers) (.inl hOwn) (.inl hWrite)
    fun _ => ⟨readLock_swapPointers, writeLock_swapPointers⟩

theorem keeps_emptyRead (hOwn : Lock.ofReader consumer ∈ own) :
    (locks T consumer).Keeps own own emptyRead :=
  keeps_buffers (fun q hPointers => by simpa [emptyRead] using hPointers) (.inl hOwn)
    (.inr fun q hPointers => by simp [emptyRead, writeBuffer, hPointers]) fun q => by simp [emptyRead]

theorem keeps_emptyWrite (hOwn : Lock.write ∈ own) :
    (locks T consumer).Keeps own own emptyWrite :=
  keeps_buffers (fun q hPointers => by simpa [emptyWrite] using hPointers)
    (.inr fun q hPointers => readBuffer_emptyWrite hPointers) (.inl hOwn)
    fun q => by simp [emptyWrite]

/-- An element that a consumer has seen stays until it takes it. -/
theorem stable_readBuffer (hOwn : Lock.ofReader consumer ∈ own) :
    (locks T consumer).Stable own fun q => q.readBuffer ≠ [] := by
  intro q q' _ _ hData hElement
  have hSame := hData (.ofReader consumer) hOwn
  rw [data_ofReader, data_ofReader] at hSame
  rwa [hSame]

end Locks

section Calls

variable {T : Type} {consumer : Bool} {base own : List Lock}

theorem bracketed_underWriteLock {f : DoubleBufferQueue T → DoubleBufferQueue T}
    {k : Prog (DoubleBufferQueue T) (Reply T)} (hOwn : Lock.write ∉ own)
    (hKeeps : (locks T consumer).Keeps (.write :: own) (.write :: own) f)
    (h : (locks T consumer).Bracketed base own (fun _ => True) k) :
    (locks T consumer).Bracketed base own (fun _ => True) (underWriteLock f k) := by
  refine .lock (fun l hl => ?_) takes_write (.modify hKeeps ?_ (Locking.stable_true _))
  · cases l with
    | role => exact Nat.two_pos
    | read => exact Nat.one_lt_two
    | write => exact absurd hl hOwn
  · exact .modify (releases_write hOwn) h (Locking.stable_true _)

/-- `take` is reached only with an element to take. -/
theorem bracketed_readElement {take : Prog (DoubleBufferQueue T) (Reply T)}
    {leave : Reply T → Prog (DoubleBufferQueue T) (Reply T)}
    (hOwn : Lock.ofReader consumer ∈ own) (hWrite : Lock.write ∉ own)
    (hTake : (locks T consumer).Bracketed base own (fun q => q.readBuffer ≠ []) take)
    (hLeave : ∀ r, (locks T consumer).Bracketed base own (fun _ => True) (leave r)) :
    (locks T consumer).Bracketed base own (fun _ => True) (readElement take leave) := by
  have hAgain : (locks T consumer).Bracketed base own (fun _ => True)
      (.load (fun q => q.readBuffer.isEmpty) fun empty =>
        if empty then leave ⟨.NO_ELEMENT, none⟩ else take) := by
    refine .load (Locking.stable_true own) fun q _ _ _ => ?_
    cases hEmpty : q.readBuffer.isEmpty with
    | true => exact ⟨fun _ => True, trivial, hLeave _⟩
    | false => exact ⟨fun q => q.readBuffer ≠ [], by simpa using hEmpty, hTake⟩
  unfold readElement
  refine .load (Locking.stable_true own) fun q _ _ _ => ⟨fun _ => True, trivial, ?_⟩
  cases hEmpty : q.readBuffer.isEmpty with
  | true =>
    have hKeeps := keeps_swapPointers (T := T) (List.mem_cons_of_mem .write hOwn) List.mem_cons_self
    exact bracketed_underWriteLock hWrite hKeeps hAgain
  | false => exact hAgain

theorem bracketed_loadFront {k : T → Prog (DoubleBufferQueue T) (Reply T)}
    {K : DoubleBufferQueue T → Prop} (hOwn : Lock.ofReader consumer ∈ own)
    (hK : ∀ q, q.readBuffer ≠ [] → K q)
    (h : ∀ value, (locks T consumer).Bracketed base own K (k value)) :
    (locks T consumer).Bracketed base own (fun q => q.readBuffer ≠ []) (loadFront k) := by
  refine .load (stable_readBuffer hOwn) fun q _ _ hElement => ⟨K, hK q hElement, ?_⟩
  obtain ⟨value, rest, hRead⟩ := List.exists_cons_of_ne_nil hElement
  rw [hRead]
  exact h value

theorem bracketed_removeFront {k : Prog (DoubleBufferQueue T) (Reply T)}
    (hOwn : Lock.ofReader consumer ∈ own)
    (h : (locks T consumer).Bracketed base own (fun _ => True) k) :
    (locks T consumer).Bracketed base own (fun q => q.readBuffer ≠ []) (removeFront k) := by
  refine ⟨stable_readBuffer hOwn, own, keeps_popFront hOwn, fun q _ _ hElement => ?_⟩
  refine ⟨fun _ => True, trivial, ?_⟩
  change (locks T consumer).Bracketed base own _ (if q.readBuffer.isEmpty then .abort else k)
  rwa [if_neg (by simpa using hElement)]

/-- The locks that a thread has between its calls. -/
def standing (consumer isSole : Bool) : List Lock :=
  if !consumer && isSole then [.role] else []

/-- A call that may take elements out of the queue. -/
def Drains : AnyCall T → Prop
  | .of op => isConsumer op
  | .clear => True

theorem write_notMem_standing (consumer isSole : Bool) : Lock.write ∉ standing consumer isSole := by
  cases consumer <;> cases isSole <;> simp [standing]

theorem read_notMem_standing (consumer isSole : Bool) : Lock.read ∉ standing consumer isSole := by
  cases consumer <;> cases isSole <;> simp [standing]

/-- The only consumer has its role for good; otherwise the thread takes `_readLock`. -/
theorem bracketed_overload {isSole : Bool} (hSole : consumer = true ∨ isSole = true)
    {body : (Reply T → Prog (DoubleBufferQueue T) (Reply T)) → Prog (DoubleBufferQueue T) (Reply T)}
    (h : ∀ own leave, Lock.ofReader consumer ∈ own → Lock.write ∉ own →
      (∀ r, (locks T consumer).Bracketed (standing consumer isSole) own (fun _ => True) (leave r)) →
      (locks T consumer).Bracketed (standing consumer isSole) own (fun _ => True) (body leave)) :
    (locks T consumer).Bracketed (standing consumer isSole) (standing consumer isSole)
      (fun _ => True) (overload consumer body) := by
  cases consumer with
  | false =>
    obtain rfl := hSole.resolve_left Bool.noConfusion
    exact h [.role] .ret List.mem_cons_self (by simp) fun r => .done r
  | true =>
    refine .lock (fun l hl => (by cases hl)) takes_read ?_
    refine h [.read] _ List.mem_cons_self (by simp) fun r => ?_
    exact .modify (releases_read List.not_mem_nil) (.done r) (Locking.stable_true _)

theorem bracketed_pop {isSole : Bool} (hSole : consumer = true ∨ isSole = true) :
    (locks T consumer).Bracketed (standing consumer isSole) (standing consumer isSole)
      (fun _ => True) (pop consumer) := by
  unfold pop
  refine bracketed_overload hSole fun own leave hOwn hWrite hLeave => ?_
  exact bracketed_readElement hOwn hWrite (bracketed_removeFront hOwn (hLeave _)) hLeave

theorem bracketed_front {isSole : Bool} (hSole : consumer = true ∨ isSole = true) :
    (locks T consumer).Bracketed (standing consumer isSole) (standing consumer isSole)
      (fun _ => True) (front consumer) := by
  unfold front
  refine bracketed_overload hSole fun own leave hOwn hWrite hLeave => ?_
  refine bracketed_readElement hOwn hWrite ?_ hLeave
  exact bracketed_loadFront hOwn (fun _ _ => trivial) fun value => hLeave _

theorem bracketed_poll {isSole : Bool} (hSole : consumer = true ∨ isSole = true) :
    (locks T consumer).Bracketed (standing consumer isSole) (standing consumer isSole)
      (fun _ => True) (poll consumer) := by
  unfold poll
  refine bracketed_overload hSole fun own leave hOwn hWrite hLeave => ?_
  refine bracketed_readElement hOwn hWrite ?_ hLeave
  exact bracketed_loadFront hOwn (fun _ h => h) fun value => bracketed_removeFront hOwn (hLeave _)

theorem bracketed_anyBody (isSole : Bool) (op : AnyCall T)
    (hSole : Drains op → consumer = true ∨ isSole = true) :
    (locks T consumer).Bracketed (standing consumer isSole) (standing consumer isSole)
      (fun _ => True) (anyBody consumer op) := by
  have hWrite := write_notMem_standing consumer isSole
  cases op with
  | clear =>
    have hRead := read_notMem_standing consumer isSole
    have hOwn : Lock.ofReader consumer ∈ Lock.read :: standing consumer isSole := by
      rcases hSole trivial with rfl | rfl
      · exact List.mem_cons_self
      · cases consumer <;> simp [Lock.ofReader, standing]
    refine .lock (fun l hl => ?_) takes_read (.modify (keeps_emptyRead hOwn) ?_ (Locking.stable_true _))
    · cases l with
      | role => exact Nat.one_pos
      | read => exact absurd hl hRead
      | write => exact absurd hl hWrite
    · refine .modify (releases_read hRead) ?_ (Locking.stable_true _)
      exact bracketed_underWriteLock hWrite (keeps_emptyWrite List.mem_cons_self) (.done _)
  | of op =>
    cases op with
    | push value =>
      exact bracketed_underWriteLock hWrite (keeps_pushBack value List.mem_cons_self) (.done _)
    | pop => exact bracketed_pop (hSole trivial)
    | front => exact bracketed_front (hSole trivial)
    | poll => exact bracketed_poll (hSole trivial)

end Calls

section Runs

variable {Thread T : Type} [DecidableEq Thread]

theorem starts_new (consumer : Bool) (sole : Thread) :
    Starts (locks T consumer) (fun t => standing consumer (t = sole)) (new T) := by
  refine ⟨Buffer.noConfusion, fun t l hl => ?_, fun l hl => ?_, fun t u l ht hu => ?_⟩
  · cases consumer <;> simp_all [standing, locks]
  · cases l with
    | role =>
      refine ⟨sole, ?_⟩
      simp_all [locks, standing]
    | read => cases hl
    | write => cases hl
  · have hMem (t : Thread) (hl : l ∈ standing consumer (t = sole)) : t = sole := by
      by_contra hNe
      simp [standing, hNe] at hl
    exact (hMem t ht).trans (hMem u hu).symm

/-- However the calls of all threads are interleaved, `clear` among them, no empty
buffer is asked for its front and no call is ever stuck: the threads inside of
their calls can always bring it to its end. With `consumer = false` one thread alone
may take elements out of the queue. -/
theorem double_buffer_calls_complete [DecidableEq T] (consumer : Bool)
    (labels : List (Label Thread (AnyCall T) (Reply T)))
    (c : Config Thread (DoubleBufferQueue T) (Reply T))
    (hSole : consumer = false → ∃ sole, ∀ t op, .call t op ∈ labels → Drains op → t = sole)
    (hRun : (Config.start (new T)).run (anyBody consumer) labels = some c) (t : Thread)
    (p : Prog (DoubleBufferQueue T) (Reply T)) (hp : c.running t = some p) :
    p ≠ .abort ∧ ∃ (more : List (Label Thread (AnyCall T) (Reply T)))
      (c' : Config Thread (DoubleBufferQueue T) (Reply T)) (r : Reply T),
      Internal more ∧ c.run (anyBody consumer) more = some c' ∧ c'.running t = some (.ret r) := by
  obtain ⟨sole, hAllowed⟩ : ∃ sole : Thread, ∀ u op, .call u op ∈ labels → Drains op →
      consumer = true ∨ decide (u = sole) = true := by
    cases consumer with
    | true => exact ⟨t, fun _ _ _ _ => .inl rfl⟩
    | false =>
      obtain ⟨sole, hSole⟩ := hSole rfl
      exact ⟨sole, fun u op hCall hOp => .inr (decide_eq_true (hSole u op hCall hOp))⟩
  refine exists_completion_of_run (fun u op hCall => ?_) 2 (fun l => ?_) (starts_new consumer sole)
    hRun hp
  · exact bracketed_anyBody _ op (hAllowed u op hCall)
  · cases l <;> simp [locks]

/-- The only consumer waits in `swap` for the lock of a `push`. -/
def pollWhilePushing : List (Label Nat (AnyCall Nat) (Reply Nat)) :=
  [.call 0 (.of (.push 5)), .internal 0, .call 1 (.of .poll), .internal 1, .internal 1, .internal 0]

theorem double_buffer_calls_complete_waiting :
    ∃ (c : Config Nat (DoubleBufferQueue Nat) (Reply Nat))
      (p : Prog (DoubleBufferQueue Nat) (Reply Nat)),
      (Config.start (new Nat)).run (anyBody false) pollWhilePushing = some c ∧
      c.running 1 = some p ∧
      p ≠ .abort ∧ ∃ (more : List (Label Nat (AnyCall Nat) (Reply Nat)))
        (c' : Config Nat (DoubleBufferQueue Nat) (Reply Nat)) (r : Reply Nat),
        Internal more ∧ c.run (anyBody false) more = some c' ∧ c'.running 1 = some (.ret r) := by
  have hSome : (((Config.start (new Nat)).run (anyBody false) pollWhilePushing).bind
      fun c => c.running 1).isSome = true := by
    decide
  obtain ⟨p, hBind⟩ := Option.isSome_iff_exists.mp hSome
  obtain ⟨c, hRun, hp⟩ := Option.bind_eq_some_iff.mp hBind
  have hSole : ∀ t op, .call t op ∈ pollWhilePushing → Drains op → t = 1 := by
    intro t op hCall hOp
    simp only [pollWhilePushing, List.mem_cons, Label.call.injEq, reduceCtorEq, List.not_mem_nil,
      or_false, false_or] at hCall
    rcases hCall with ⟨-, rfl⟩ | ⟨rfl, -⟩
    · exact hOp.elim
    · rfl
  exact ⟨c, p, hRun, hp, double_buffer_calls_complete false pollWhilePushing c
    (fun _ => ⟨1, hSole⟩) hRun 1 p hp⟩

end Runs

end DoubleBufferQueue

end clockUtils.container
