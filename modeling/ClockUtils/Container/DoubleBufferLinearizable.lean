import ClockUtils.Lib.ProtocolRun
import ClockUtils.Container.DoubleBufferProtocol

namespace clockUtils.container.DoubleBufferQueue

open Concurrent
open LockFreeQueue (Call)

/-- The thread takes elements, and `A` holds of the buffer that is read. -/
def Reads {Thread T : Type} (t : Thread) (A : List T → Prop) (q : DoubleBufferQueue T)
    (g : Ghost Thread T) : Prop :=
  g.reader = some t ∧ A q.readBuffer

/-- The thread holds `_writeLock`, and `P` holds. -/
def Writes {Thread T : Type} (t : Thread) (P : DoubleBufferQueue T → Ghost Thread T → Prop)
    (q : DoubleBufferQueue T) (g : Ghost Thread T) : Prop :=
  g.writer = some t ∧ P q g

/-- The assertion does not depend on who holds `_writeLock`. -/
def LockFree {Thread T : Type} (P : DoubleBufferQueue T → Ghost Thread T → Prop) : Prop :=
  ∀ q g lock writer, P q g → P (setWriteLock lock q) { g with writer := writer }

variable {Thread T : Type} {consumer : Bool} {sole : Option Thread} {t : Thread}

theorem stable_true : (protocol Thread T consumer sole).Stable t fun _ _ => True :=
  fun _ _ _ _ _ _ _ => trivial

theorem Reads.stable (A : List T → Prop) :
    (protocol Thread T consumer sole).Stable t (Reads t A) := by
  intro q g q' g' _ hP hRely
  obtain ⟨hReader, hRead⟩ := hRely.reader hP.1
  refine ⟨hReader, ?_⟩
  rw [hRead]
  exact hP.2

theorem Reads.lockFree (A : List T → Prop) : LockFree (Reads t A) :=
  fun _ _ _ _ hP => hP

theorem Writes.stable {P : DoubleBufferQueue T → Ghost Thread T → Prop}
    (hStable : (protocol Thread T consumer sole).Stable t P) :
    (protocol Thread T consumer sole).Stable t (Writes t P) := by
  intro q g q' g' hInv hP hRely
  exact ⟨hRely.writer hP.1, hStable q g q' g' hInv hP.2 hRely⟩

section WriteLock

variable {P : DoubleBufferQueue T → Ghost Thread T → Prop} {phase : Phase (Call T) (Reply T)}
  {k : Prog (DoubleBufferQueue T) (Reply T)}

theorem safe_underWriteLock {f : DoubleBufferQueue T → DoubleBufferQueue T}
    (hStable : (protocol Thread T consumer sole).Stable t P) (hLock : LockFree P)
    (hBody : (protocol Thread T consumer sole).Safe (unboundedFifo T) t
      (.modify f <| .modify (setWriteLock false) k) phase (Writes t P)) :
    (protocol Thread T consumer sole).Safe (unboundedFifo T) t (underWriteLock f k) phase P := by
  refine Protocol.safe_spin hStable ?_ hBody
  intro q g hInv hP hFree
  exact ⟨_, setWriteLock_true_ok hInv (by simpa using hFree), rfl, hLock q g true (some t) hP⟩

theorem safe_leaveWriteLock (hStable : (protocol Thread T consumer sole).Stable t P)
    (hLock : LockFree P)
    (hRest : (protocol Thread T consumer sole).Safe (unboundedFifo T) t k phase P) :
    (protocol Thread T consumer sole).Safe (unboundedFifo T) t (.modify (setWriteLock false) k)
      phase (Writes t P) := by
  refine Protocol.safe_modify (Writes.stable hStable) ?_ hRest
  intro q g hInv _ hP
  exact ⟨_, setWriteLock_false_ok hInv hP.1, hLock q g false none hP.2⟩

end WriteLock

theorem push_safe (value : T) :
    (protocol Thread T consumer sole).Safe (unboundedFifo T) t (push value)
      (.pending (.push value)) fun _ _ => True := by
  have hLock : LockFree fun (_ : DoubleBufferQueue T) (_ : Ghost Thread T) => True :=
    fun _ _ _ _ _ => trivial
  refine safe_underWriteLock stable_true hLock (Protocol.safe_modify (Writes.stable stable_true) ?_
    (safe_leaveWriteLock stable_true hLock (Protocol.safe_ret (.push value) _)))
  intro q g hInv _ hP
  exact ⟨_, pushBack_ok hInv value, hP.1, trivial⟩

section Take

variable {op : Call T} {r : Reply T} {k : Prog (DoubleBufferQueue T) (Reply T)}

/-- On an empty queue the call takes effect with the exchange: nobody else
fills the buffer that is then read. -/
theorem swap_safe (hApply : (unboundedFifo T).apply [] op = (⟨.NO_ELEMENT, none⟩, []))
    (hEmpty : (protocol Thread T consumer sole).Safe (unboundedFifo T) t k
      (.done op ⟨.NO_ELEMENT, none⟩) (Reads t fun xs => xs = []))
    (hNonempty : (protocol Thread T consumer sole).Safe (unboundedFifo T) t k (.pending op)
      (Reads t fun xs => xs ≠ [])) :
    (protocol Thread T consumer sole).Safe (unboundedFifo T) t (swap k) (.pending op)
      (Reads t fun xs => xs = []) := by
  refine safe_underWriteLock (Reads.stable _) (Reads.lockFree _)
    (Protocol.safe_atomic (Writes.stable (Reads.stable _)) ?_)
  rintro q g hInv _ ⟨hWriter, hReader, hRead⟩
  have hInv' := Inv.swapPointers hInv hRead
  have hRely := @rely_swapPointers _ _ _ q _ hReader
  have hBuffer := readBuffer_swapPointers hInv.pointers
  by_cases hWrite : q.writeBuffer = []
  · have hHeld : g.held = [] := by
      rw [hInv.held_eq, hRead, hWrite]
      rfl
    have hCommit : Protocol.Advance (unboundedFifo T) _ g.held _ _ := .commit op g.held
    simp only [hHeld, hApply] at hCommit
    refine ⟨g, .done op ⟨.NO_ELEMENT, none⟩, Writes t (Reads t fun xs => xs = []),
      ⟨hInv', hRely, ?_, Nat.le_refl _⟩, ⟨hWriter, hReader, hBuffer.trans hWrite⟩,
      safe_leaveWriteLock (Reads.stable _) (Reads.lockFree _) hEmpty⟩
    simp only [protocol, hHeld]
    exact hCommit
  · refine ⟨g, .pending op, Writes t (Reads t fun xs => xs ≠ []), .silent hInv' hRely rfl rfl,
      ⟨hWriter, hReader, ?_⟩, safe_leaveWriteLock (Reads.stable _) (Reads.lockFree _) hNonempty⟩
    rw [hBuffer]
    exact hWrite

theorem readElement_safe {take : Prog (DoubleBufferQueue T) (Reply T)}
    {leave : Reply T → Prog (DoubleBufferQueue T) (Reply T)}
    (hApply : (unboundedFifo T).apply [] op = (⟨.NO_ELEMENT, none⟩, []))
    (hLeave : ∀ r, (protocol Thread T consumer sole).Safe (unboundedFifo T) t (leave r) (.done op r)
      (Reads t fun _ => True))
    (hTake : (protocol Thread T consumer sole).Safe (unboundedFifo T) t take (.pending op)
      (Reads t fun xs => xs ≠ [])) :
    (protocol Thread T consumer sole).Safe (unboundedFifo T) t (readElement take leave)
      (.pending op) (Reads t fun _ => True) := by
  have hEmpty : (protocol Thread T consumer sole).Safe (unboundedFifo T) t
      (.load (fun q => q.readBuffer.isEmpty) fun empty =>
        if empty then leave ⟨.NO_ELEMENT, none⟩ else take)
      (.done op ⟨.NO_ELEMENT, none⟩) (Reads t fun xs => xs = []) := by
    refine Protocol.safe_load_silent (Reads.stable _) ?_
    rintro q g hInv ⟨hReader, hRead⟩
    rw [hRead]
    exact ⟨_, ⟨hReader, trivial⟩, hLeave _⟩
  have hNonempty : (protocol Thread T consumer sole).Safe (unboundedFifo T) t
      (.load (fun q => q.readBuffer.isEmpty) fun empty =>
        if empty then leave ⟨.NO_ELEMENT, none⟩ else take)
      (.pending op) (Reads t fun xs => xs ≠ []) := by
    refine Protocol.safe_load_silent (Reads.stable _) ?_
    rintro q g hInv ⟨hReader, hRead⟩
    rw [if_neg (by simpa using hRead)]
    exact ⟨_, ⟨hReader, hRead⟩, hTake⟩
  unfold readElement
  refine Protocol.safe_load_silent (Reads.stable _) ?_
  rintro q g hInv ⟨hReader, -⟩
  by_cases hRead : q.readBuffer = []
  · rw [if_pos (by simp [hRead])]
    exact ⟨_, ⟨hReader, hRead⟩, swap_safe hApply hEmpty hNonempty⟩
  · rw [if_neg (by simpa using hRead)]
    exact ⟨_, ⟨hReader, hRead⟩, hNonempty⟩

theorem removeFront_safe {A : List T → Prop}
    (hApply : ∀ xs ys, A xs →
      xs ≠ [] ∧ (unboundedFifo T).apply (xs ++ ys) op = (r, (xs ++ ys).tail))
    (hRest : (protocol Thread T consumer sole).Safe (unboundedFifo T) t k (.done op r)
      (Reads t fun _ => True)) :
    (protocol Thread T consumer sole).Safe (unboundedFifo T) t (removeFront k) (.pending op)
      (Reads t A) := by
  refine Protocol.safe_atomic (Reads.stable A) ?_
  rintro q g hInv _ ⟨hReader, hA⟩
  obtain ⟨hNonempty, hHeld⟩ := hApply q.readBuffer q.writeBuffer hA
  obtain ⟨value, rest, hRead⟩ := List.exists_cons_of_ne_nil hNonempty
  rw [← hInv.held_eq] at hHeld
  refine ⟨_, .done op r, Reads t fun _ => True, popFront_ok hInv hReader hRead hHeld,
    ⟨hReader, trivial⟩, ?_⟩
  rw [if_neg (by simpa using hNonempty)]
  exact hRest

/-- The element at the front, while no other thread takes it. -/
theorem loadFront_safe {k : T → Prog (DoubleBufferQueue T) (Reply T)}
    (hRest : ∀ q g value, Inv consumer sole q g → q.readBuffer.head? = some value →
      ∃ phase, (protocol Thread T consumer sole).StepOk (unboundedFifo T) t (.pending op) q g phase q g ∧
        (protocol Thread T consumer sole).Safe (unboundedFifo T) t (k value) phase
          (Reads t fun xs => xs.head? = some value)) :
    (protocol Thread T consumer sole).Safe (unboundedFifo T) t (loadFront k) (.pending op)
      (Reads t fun xs => xs ≠ []) := by
  refine Protocol.safe_load (Reads.stable _) ?_
  rintro q g hInv ⟨hReader, hRead⟩
  obtain ⟨value, rest, hRead⟩ := List.exists_cons_of_ne_nil hRead
  have hHead : q.readBuffer.head? = some value := by
    rw [hRead]
    rfl
  obtain ⟨phase, hOk, hSafe⟩ := hRest q g value hInv hHead
  refine ⟨phase, Reads t fun xs => xs.head? = some value, hOk, ⟨hReader, hHead⟩, ?_⟩
  rw [hHead]
  exact hSafe

/-- With several consumers, the one that holds `_readLock` takes elements; with
one consumer, this one does. -/
theorem overload_safe
    {body : (Reply T → Prog (DoubleBufferQueue T) (Reply T)) → Prog (DoubleBufferQueue T) (Reply T)}
    (hConsumer : consumer = true ∨ sole = some t)
    (hBody : ∀ leave, (∀ r, (protocol Thread T consumer sole).Safe (unboundedFifo T) t (leave r)
        (.done op r) (Reads t fun _ => True)) →
      (protocol Thread T consumer sole).Safe (unboundedFifo T) t (body leave) (.pending op)
        (Reads t fun _ => True)) :
    (protocol Thread T consumer sole).Safe (unboundedFifo T) t
      (overload consumer body) (.pending op) fun _ _ => True := by
  cases consumer with
  | true =>
    refine Protocol.safe_spin stable_true ?_ (hBody _ fun r => ?_)
    · intro q g hInv _ hFree
      exact ⟨_, setReadLock_true_ok hInv (by simpa using hFree), rfl, trivial⟩
    · refine Protocol.safe_modify (Reads.stable _) ?_
        (Protocol.safe_ret (P := fun _ _ => True) op r)
      intro q g hInv _ hP
      exact ⟨_, setReadLock_false_ok hInv hP.1, trivial⟩
  | false =>
    refine Protocol.Safe.weaken stable_true ?_ (hBody .ret fun r => Protocol.safe_ret op r)
    intro q g hInv _
    have hReader : g.reader = sole := hInv.reader_eq
    exact ⟨hReader.trans (hConsumer.resolve_left Bool.false_ne_true), trivial⟩

end Take

theorem pop_safe (hConsumer : consumer = true ∨ sole = some t) :
    (protocol Thread T consumer sole).Safe (unboundedFifo T) t (pop consumer) (.pending .pop)
      fun _ _ => True := by
  refine overload_safe hConsumer ?_
  intro leave hLeave
  refine readElement_safe rfl hLeave ?_
  refine removeFront_safe ?_ (hLeave _)
  intro xs ys hNonempty
  obtain ⟨value, rest, rfl⟩ := List.exists_cons_of_ne_nil hNonempty
  exact ⟨hNonempty, rfl⟩

/-- A `front` takes effect when it reads the element. -/
theorem front_safe (hConsumer : consumer = true ∨ sole = some t) :
    (protocol Thread T consumer sole).Safe (unboundedFifo T) t (front consumer) (.pending .front)
      fun _ _ => True := by
  refine overload_safe hConsumer ?_
  intro leave hLeave
  refine readElement_safe rfl hLeave ?_
  refine loadFront_safe fun q g value hInv hHead => ?_
  obtain ⟨rest, hRead⟩ := List.head?_eq_some_iff.mp hHead
  refine ⟨.done .front ⟨.SUCCESS, some value⟩, .observe hInv ?_, ?_⟩
  · simp only [protocol, hInv.held_eq, hRead]
    rfl
  · exact Protocol.Safe.weaken (Reads.stable _) (fun _ _ _ hP => ⟨hP.1, trivial⟩) (hLeave _)

theorem poll_safe (hConsumer : consumer = true ∨ sole = some t) :
    (protocol Thread T consumer sole).Safe (unboundedFifo T) t (poll consumer) (.pending .poll)
      fun _ _ => True := by
  refine overload_safe hConsumer ?_
  intro leave hLeave
  refine readElement_safe rfl hLeave ?_
  refine loadFront_safe fun q g value hInv hHead => ⟨.pending .poll, .refl hInv, ?_⟩
  refine removeFront_safe ?_ (hLeave _)
  intro xs ys hFront
  obtain ⟨rest, rfl⟩ := List.head?_eq_some_iff.mp hFront
  exact ⟨List.cons_ne_nil _ _, rfl⟩

/-- The call takes or looks at an element. -/
def isConsumer : Call T → Prop
  | .push _ => False
  | _ => True

theorem implementsOn_unboundedFifo :
    (protocol Thread T consumer sole).ImplementsOn (unboundedFifo T) (body consumer)
      fun t op => isConsumer op → consumer = true ∨ sole = some t := by
  intro t op hConsumer
  cases op with
  | push value => exact push_safe value
  | pop => exact pop_safe (hConsumer trivial)
  | front => exact front_safe (hConsumer trivial)
  | poll => exact poll_safe (hConsumer trivial)

theorem new_inv : Inv consumer sole (new T) ⟨[], if consumer then none else sole, none⟩ := by
  refine ⟨Buffer.noConfusion, rfl, rfl, ?_⟩
  cases consumer <;> rfl

/-- All elements in the queue, oldest first. -/
def contents (q : DoubleBufferQueue T) : List T :=
  q.readBuffer ++ q.writeBuffer

/-- The queue is an atomic FIFO. In every interleaving of any calls by any
threads, with `consumer = false` only one of them taking elements, the calls can
be given instants at which they take effect as calls of the FIFO do. The
elements lie in the queue or have been taken in the order of the pushes, none
lost and none twice, the pointers are different, and no empty buffer has been
asked for its front. -/
theorem refines_fifo [DecidableEq Thread] [DecidableEq T] (consumer : Bool)
    (labels : List (Label Thread (Call T) (Reply T)))
    {c : Config Thread (DoubleBufferQueue T) (Reply T)}
    (hSole : consumer = false →
      ∃ sole, ∀ t op, .call t op ∈ labels → isConsumer op → t = sole)
    (hRun : (Config.start (new T)).run (body consumer) labels = some c) :
    ∃ events, Linearizes (unboundedFifo T) labels events ∧
      (∃ taken, pushed (commits events) = taken ++ c.shared.contents ∧
        List.Forall₂ Takes (removals (commits events)) taken) ∧
      c.shared.queueRead ≠ c.shared.queueWrite ∧ ∀ t, c.running t ≠ some .abort := by
  have hAllowed : ∃ sole : Option Thread, ∀ t op, .call t op ∈ labels →
      isConsumer op → consumer = true ∨ sole = some t := by
    cases consumer with
    | true => exact ⟨none, fun _ _ _ _ => .inl rfl⟩
    | false =>
      obtain ⟨sole, hSole⟩ := hSole rfl
      exact ⟨some sole, fun t op hCall hOp => .inr (congrArg some (hSole t op hCall hOp).symm)⟩
  obtain ⟨sole, hAllowed⟩ := hAllowed
  have hNothing : (labels.map (protocol Thread T consumer sole).payment).sum ≤ 0 := by
    refine (List.sum_eq_zero ?_).le
    intro n hn
    obtain ⟨l, -, rfl⟩ := List.mem_map.mp hn
    cases l <;> rfl
  obtain ⟨g, events, hLinearizes, hInv, hAbs, hAssert⟩ :=
    implementsOn_unboundedFifo.linearizes new_inv rfl rfl labels hAllowed hRun hNothing
  obtain ⟨taken, hTaken, hTakes⟩ :=
    unboundedFifo_conserves.final (commits events) [] hLinearizes.legal
  refine ⟨events, hLinearizes, ⟨taken, ?_, hTakes⟩, hInv.pointers, hAssert⟩
  rw [contents, ← hInv.held_eq]
  exact hTaken.trans (congrArg (taken ++ ·) hAbs.symm)

/-- The queue has one consumer, thread 2. The first `push` comes between the
first test of its `poll` and the exchange, the second one waits for the exchange. -/
def pushesWhilePolling : List (Label Nat (Call Nat) (Reply Nat)) :=
  [.call 2 .poll, .internal 2, .call 0 (.push 5), .internal 0, .internal 2, .internal 0,
    .internal 0, .ret 0 ⟨.SUCCESS, none⟩, .internal 2, .internal 2, .call 1 (.push 7), .internal 1,
    .internal 2, .internal 2, .internal 1, .internal 1, .internal 2, .internal 2, .internal 1,
    .ret 1 ⟨.SUCCESS, none⟩, .ret 2 ⟨.SUCCESS, some 5⟩]

theorem refines_fifo_one_consumer :
    ∃ c, (Config.start (new Nat)).run (body false) pushesWhilePolling = some c ∧
      ∃ events, Linearizes (unboundedFifo Nat) pushesWhilePolling events ∧
        (∃ taken, pushed (commits events) = taken ++ c.shared.contents ∧
          List.Forall₂ Takes (removals (commits events)) taken) ∧
        c.shared.queueRead ≠ c.shared.queueWrite ∧ ∀ t, c.running t ≠ some .abort := by
  have hSome : ((Config.start (new Nat)).run (body false) pushesWhilePolling).isSome = true := by
    decide
  obtain ⟨c, hRun⟩ := Option.isSome_iff_exists.mp hSome
  have hSole : ∀ t op, .call t op ∈ pushesWhilePolling → isConsumer op → t = 2 := by
    intro t op hCall hOp
    simp only [pushesWhilePolling, List.mem_cons, Label.call.injEq, reduceCtorEq, List.not_mem_nil,
      or_false, false_or] at hCall
    rcases hCall with ⟨rfl, -⟩ | ⟨-, rfl⟩ | ⟨-, rfl⟩
    · rfl
    · exact hOp.elim
    · exact hOp.elim
  exact ⟨c, hRun, refines_fifo false pushesWhilePolling (fun _ => ⟨2, hSole⟩) hRun⟩

end clockUtils.container.DoubleBufferQueue
