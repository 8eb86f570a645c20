import ClockUtils.Sockets.AsyncDelivery

namespace clockUtils.sockets

variable {Thread Dest : Type}

/-- How much the worker has still to do at a queue without elements. -/
def queueLeft : Channel → Bool → Nat
  | .bytes, true => 1
  | .packets, true => 2
  | .bytes, false => 6
  | .packets, false => 7

/-- How much the worker has still to do when `_terminate` is set and the queues
are empty. -/
def WorkPoint.left : WorkPoint Dest → Nat
  | ended => 0
  | unlockCond true => 3
  | testTerminate => 4
  | lockCond => 5
  | unlockCond false => 8
  | woken => 9
  | waiting => 10
  | wait => 11
  | testBytes => 12
  | testPackets => 13
  | next channel finish => queueLeft channel finish
  | pop channel finish => queueLeft channel finish + 1
  | writing channel finish _ => queueLeft channel finish + 2
  | call channel finish _ => queueLeft channel finish + 3

def DestructorPoint.left : DestructorPoint → Nat
  | alive => 6
  | setTerminate => 5
  | lockCond => 4
  | notify => 3
  | unlockCond => 2
  | join => 1
  | joined => 0

namespace AsyncWriter

variable {transport : Transport} {s s' : AsyncWriter Thread Dest}

section Progress

variable [DecidableEq Thread]

/-- A call that has begun, the worker or the destructor can go on, without
waiting for a wake-up that has no reason. -/
def CanMove (transport : Transport) (s : AsyncWriter Thread Dest) : Prop :=
  (∃ t, (s.userStep t).isSome = true) ∨ (s.workerStep transport).isSome = true ∨
    (s.destructorStep transport).isSome = true

/-- The thread that has locked `_condMutex` can go on. -/
theorem Locked.canMove (h : Locked transport s) (hMutex : s.condMutex.isNone = false) :
    CanMove transport s := by
  obtain ⟨owner, hOwner⟩ : ∃ owner, s.condMutex = some owner := by
    cases hOption : s.condMutex with
    | none => simp [hOption] at hMutex
    | some owner => exact ⟨owner, rfl⟩
  have hHolds := (h owner).mp hOwner
  cases owner with
  | worker =>
    refine .inr (.inl ?_)
    unfold AsyncWriter.workerStep
    simp only [holds] at hHolds
    split <;> next hPoint => first | rfl | (rw [hPoint] at hHolds; cases hHolds)
  | user t =>
    refine .inl ⟨t, ?_⟩
    unfold AsyncWriter.userStep
    simp only [holds] at hHolds
    split <;> next hPoint => first | rfl | (rw [hPoint] at hHolds; cases hHolds)
  | destructor =>
    refine .inr (.inr ?_)
    unfold AsyncWriter.destructorStep
    simp only [holds] at hHolds
    split <;> next hPoint =>
      first | rfl | (rw [hPoint] at hHolds; cases transport <;> cases hHolds)

/-- A thread that has to lock `_condMutex` can do so, or another one can go on. -/
theorem Locked.canMove_of_lock (h : Locked transport s)
    (hFree : s.condMutex.isNone = true → CanMove transport s) : CanMove transport s := by
  cases hMutex : s.condMutex.isNone with
  | true => exact hFree hMutex
  | false => exact h.canMove hMutex

omit [DecidableEq Thread] in
/-- The worker passes on what is not empty. -/
theorem Flow.taken_nonempty (h : Flow transport s) {channel : Channel} {finish : Bool}
    {tmp : Message Dest} (hPoint : s.worker = .call channel finish tmp) : tmp.vec ≠ [] := by
  refine h.nonempty channel tmp ?_
  rw [h.split channel, hPoint]
  simp [WorkPoint.taken]

/-- Who has yet to notify the worker can go on. -/
theorem Inv.canMove_of_toNotify (h : Inv transport s)
    (hNotify : (∃ t, (s.user t).toNotify = true) ∨ s.destructor.toNotify = true) :
    CanMove transport s := by
  rcases hNotify with ⟨t, hNotify⟩ | hNotify
  · cases hPoint : s.user t with
    | idle | push channel m | unlockCond =>
      rw [hPoint] at hNotify
      cases hNotify
    | lockCond =>
      refine h.locked.canMove_of_lock fun hFree => .inl ⟨t, ?_⟩
      simp [userStep, hPoint, hFree]
    | notify => exact .inl ⟨t, by simp [userStep, hPoint]⟩
  · cases hPoint : s.destructor with
    | alive | unlockCond | join | joined =>
      rw [hPoint] at hNotify
      cases hNotify
    | lockCond =>
      refine h.locked.canMove_of_lock fun hFree => .inr (.inr ?_)
      simp [destructorStep, hPoint, hFree]
    | setTerminate | notify => exact .inr (.inr (by simp [destructorStep, hPoint]))

omit [DecidableEq Thread] in
/-- A worker that waits although there is something to do will be notified. -/
theorem Inv.toNotify_of_waiting (h : Inv transport s) (hWaiting : s.worker = .waiting)
    (hWork : s.terminate = true ∨ ∃ channel, s.queue channel ≠ []) :
    (∃ t, (s.user t).toNotify = true) ∨ s.destructor.toNotify = true := by
  rcases hWork with hTerminate | ⟨channel, hSome⟩
  · exact .inr (h.noticed.terminate (by rw [hWaiting]; rfl) hTerminate)
  · exact .inl (h.noticed.queue channel (by rw [hWaiting]; cases channel <;> rfl) hSome)

/-- When nothing can go on, the worker has ended or waits without anything to do. -/
theorem Inv.canMove (h : Inv transport s) (hEnded : s.worker ≠ .ended)
    (hWork : s.worker = .waiting → s.terminate = true ∨ ∃ channel, s.queue channel ≠ []) :
    CanMove transport s := by
  cases hPoint : s.worker with
  | ended => exact absurd hPoint hEnded
  | waiting => exact h.canMove_of_toNotify (h.toNotify_of_waiting hPoint (hWork hPoint))
  | lockCond | woken =>
    refine h.locked.canMove_of_lock fun hFree => .inr (.inl ?_)
    simp [workerStep, hPoint, hFree]
  | call channel finish tmp =>
    have hNonempty := h.flow.taken_nonempty hPoint
    exact .inr (.inl (by simp [workerStep, hPoint, hNonempty]))
  | pop channel finish =>
    have hPresent := h.flow.present channel (by simp [hPoint, WorkPoint.stale])
    refine .inr (.inl ?_)
    cases hQueue : s.queue channel with
    | nil => exact absurd hQueue hPresent
    | cons front rest => simp [workerStep, hPoint, hQueue]
  | testTerminate | testPackets | testBytes | wait | unlockCond finish | next channel finish
  | writing channel finish tmp => exact .inr (.inl (by simp [workerStep, hPoint]))

end Progress

/-- Without elements in the queues a worker that has nothing in its hands has
passed everything on. -/
theorem Flow.passed_eq (h : Flow transport s) {channel : Channel}
    (hTaken : s.worker.taken channel = []) (hQueue : s.queue channel = []) :
    s.passed channel = s.enqueued channel := by
  rw [h.split channel, hTaken, unsent, hQueue]
  simp

theorem Inv.ended (h : Inv transport s) (hEnded : s.worker = .ended) (channel : Channel) :
    s.queue channel = [] ∧ s.passed channel = s.enqueued channel := by
  have hQueue := h.ending.drained channel (by rw [hEnded]; cases channel <;> rfl)
  exact ⟨hQueue, h.flow.passed_eq (by rw [hEnded]; rfl) hQueue⟩

section Bound

/-- How many steps are left at most when `_terminate` is set. -/
def left (transport : Transport) (s : AsyncWriter Thread Dest) : Nat :=
  s.worker.left + 4 * ((s.unsent transport .packets).length + (s.unsent transport .bytes).length) +
    s.destructor.left

/-- The worker takes a message, which is worth four steps, or leaves the queue. -/
theorem takeNext_left (channel : Channel) (finish : Bool) :
    (takeNext transport channel finish s).left transport <
      queueLeft channel finish + 4 * ((s.queue .packets).length + (s.queue .bytes).length) +
        s.destructor.left := by
  unfold takeNext
  split
  · cases channel <;> cases finish <;>
      simp [left, afterQueue, WorkPoint.left, queueLeft, unsent, WorkPoint.stale]
  · next m rest hQueue =>
    cases channel <;> cases transport <;>
      simp [left, WorkPoint.left, unsent, WorkPoint.stale, hQueue] <;> omega

theorem WorkerMove.left (hMove : WorkerMove transport s s') (h : s.terminate = true) :
    s'.left transport < s.left transport := by
  cases hMove with
  | lock hPoint | terminate hPoint | noPackets hPoint | noBytes hPoint | wait hPoint
  | relock hPoint | pass channel finish tmp hPoint =>
    simp [AsyncWriter.left, hPoint, WorkPoint.left, unsent, WorkPoint.stale]
  | running hPoint hUnset =>
    rw [hUnset] at h
    cases h
  | work hPoint =>
    rcases hPoint with hPoint | hPoint <;>
      simp [AsyncWriter.left, hPoint, WorkPoint.left, unsent, WorkPoint.stale]
  | unlock finish hPoint =>
    cases finish <;>
      simp [AsyncWriter.left, hPoint, WorkPoint.left, queueLeft, unsent, WorkPoint.stale]
  | next channel finish hPoint =>
    refine (takeNext_left channel finish).trans_le ?_
    simp [AsyncWriter.left, hPoint, WorkPoint.left, unsent, WorkPoint.stale]
  | written channel finish tmp hPoint =>
    cases transport <;> simp [AsyncWriter.left, hPoint, WorkPoint.left, unsent, WorkPoint.stale]
  | pop channel finish front rest hPoint hQueue =>
    refine (takeNext_left channel finish).trans_le ?_
    cases channel <;>
      simp [AsyncWriter.left, hPoint, WorkPoint.left, unsent, WorkPoint.stale, hQueue]

theorem left_notified (point : WorkPoint Dest) : point.notified.left ≤ point.left := by
  cases point with
  | waiting => exact Nat.le_succ 9
  | _ => exact Nat.le_refl _

theorem unsent_notified (s : AsyncWriter Thread Dest) (destructor : DestructorPoint)
    (channel : Channel) :
    ({ s with worker := s.worker.notified, destructor := destructor }).unsent transport channel =
      s.unsent transport channel := by
  simp only [unsent, stale_notified]

theorem DestructorMove.terminate (hMove : DestructorMove transport s s')
    (hSet : s.terminate = true) : s'.terminate = true := by
  cases hMove with
  | setTerminate => rfl
  | lock | notify | unlock | join => exact hSet

theorem DestructorMove.left (hMove : DestructorMove transport s s') (h : Ending transport s)
    (hSet : s.terminate = true) : s'.left transport < s.left transport := by
  have hTerminate := h.terminate
  rw [hSet] at hTerminate
  cases hMove with
  | setTerminate hPoint =>
    rw [hPoint] at hTerminate
    cases transport <;> cases hTerminate
  | lock hPoint =>
    rw [hPoint] at hTerminate
    cases transport with
    | tcp => cases hTerminate
    | udp => simp [AsyncWriter.left, hPoint, DestructorPoint.afterLock, DestructorPoint.left, unsent]
  | notify hPoint =>
    have hWorker := left_notified s.worker
    simp only [AsyncWriter.left, unsent_notified, hPoint, DestructorPoint.left]
    omega
  | unlock hPoint | join hPoint =>
    simp [AsyncWriter.left, hPoint, DestructorPoint.left, unsent]

variable [DecidableEq Thread] [Fintype Thread]

/-- When `_terminate` is set, every step brings the end nearer. -/
theorem Inv.left_step (h : Inv transport s) (hSet : s.terminate = true) {act : Act Thread Dest}
    (hStep : s.step transport act = some s') :
    s'.terminate = true ∧ s'.left transport < s.left transport := by
  have hTerminate := h.ending.terminate
  have hAlive : s.destructor ≠ .alive := by
    intro hAlive
    rw [hAlive, hSet] at hTerminate
    cases transport <;> cases hTerminate
  cases act with
  | call t channel m => simp [AsyncWriter.step, hAlive] at hStep
  | user t => simp [AsyncWriter.step, userStep, h.ending.idle hAlive t] at hStep
  | worker =>
    have hMove := workerStep_move hStep
    exact ⟨by rw [hMove.frame.1, hSet], hMove.left hSet⟩
  | wake =>
    simp only [AsyncWriter.step] at hStep
    split at hStep
    · next hWaiting =>
      cases hStep
      exact ⟨hSet, by simp [left, hWaiting, WorkPoint.left, unsent, WorkPoint.stale]⟩
    · cases hStep
  | destroy => simp [AsyncWriter.step, hAlive] at hStep
  | destructor =>
    have hMove := destructorStep_move hStep
    exact ⟨hMove.terminate hSet, hMove.left h.ending hSet⟩

end Bound

/-- Where nothing goes on, everything was passed on. -/
theorem Inv.passed_of_halt [DecidableEq Thread] (h : Inv transport s)
    (hHalt : ¬ CanMove transport s) (channel : Channel) :
    s.passed channel = s.enqueued channel := by
  by_cases hEnded : s.worker = .ended
  · exact (h.ended hEnded channel).2
  · have hWaiting : s.worker = .waiting := by
      by_contra hWorking
      exact hHalt (h.canMove hEnded fun hWaiting => absurd hWaiting hWorking)
    have hQueue : s.queue channel = [] := by
      by_contra hSome
      exact hHalt (h.canMove hEnded fun _ => .inr ⟨channel, hSome⟩)
    exact h.flow.passed_eq (by rw [hWaiting]; rfl) hQueue

/-- In every run of a `TcpSocket` or `UdpSocket`, with any threads that enqueue
messages: the worker has passed on what was enqueued, each message once and in
order, but for what it has in its hands and what is still in the queues; it ends
only with empty queues; it does not wait in vain; and nothing comes to a halt
before all messages are passed on. When the destructor has set `_terminate`, only
a bounded number of steps is left and the last one finds the worker at its end. -/
theorem async_writes_delivered [DecidableEq Thread] [Fintype Thread] (transport : Transport)
    (acts : List (Act Thread Dest)) {s : AsyncWriter Thread Dest}
    (hRun : StepRun.run (step transport) fresh acts = some s) :
    (∀ channel, s.enqueued channel =
      s.passed channel ++ (s.worker.taken channel ++ s.unsent transport channel)) ∧
    (s.worker = .ended → ∀ channel,
      s.queue channel = [] ∧ s.passed channel = s.enqueued channel) ∧
    (s.worker = .waiting → (s.terminate = true ∨ ∃ channel, s.queue channel ≠ []) →
      (∃ t, (s.user t).toNotify = true) ∨ s.destructor.toNotify = true) ∧
    (¬ CanMove transport s → ∀ channel, s.passed channel = s.enqueued channel) ∧
    (s.terminate = true → ∀ more s', StepRun.run (step transport) s more = some s' →
      more.length ≤ s.left transport ∧ (¬ CanMove transport s' → s'.worker = .ended)) := by
  have hInv := inv_of_run hRun
  refine ⟨hInv.flow.split, hInv.ended, hInv.toNotify_of_waiting, hInv.passed_of_halt,
    fun hSet more s' hMore => ?_⟩
  have hLater := StepRun.run_invariant (I := fun s => Inv transport s ∧ s.terminate = true)
    (fun _ _ _ h hStep => ⟨h.1.step hStep, (h.1.left_step h.2 hStep).1⟩) hMore ⟨hInv, hSet⟩
  have hLength := StepRun.run_length_le (I := fun s => Inv transport s ∧ s.terminate = true)
    (fun _ _ _ h hStep =>
      have hNext := h.1.left_step h.2 hStep
      ⟨⟨h.1.step hStep, hNext.1⟩, hNext.2⟩) hMore ⟨hInv, hSet⟩
  refine ⟨by omega, fun hHalt => ?_⟩
  by_contra hEnded
  exact hHalt (hLater.1.canMove hEnded fun _ => .inl hLater.2)

/-- Two threads enqueue one message each while the worker waits, and the socket is
destroyed. -/
def twoMessages : List (Act Bool Unit) :=
  List.replicate 5 Act.worker ++
    [Act.call true .packets ⟨[1], ()⟩, Act.user true, Act.call false .bytes ⟨[2], ()⟩,
      Act.user false, Act.user true, Act.user true, Act.user true] ++
    List.replicate 9 Act.worker ++
    [Act.user false, Act.user false, Act.user false, Act.destroy] ++
    List.replicate 4 Act.destructor ++ List.replicate 6 Act.worker

theorem async_writes_delivered_two :
    ∃ s, StepRun.run (step .udp) fresh twoMessages = some s ∧ s.worker = .ended ∧
      s.passed .packets = [⟨[1], ()⟩] ∧ s.passed .bytes = [⟨[2], ()⟩] := by
  have hMap : (StepRun.run (step .udp) fresh twoMessages).map
      (fun s => (s.worker, s.enqueued .packets, s.enqueued .bytes)) =
      some (.ended, [⟨[1], ()⟩], [⟨[2], ()⟩]) := by decide
  obtain ⟨s, hRun, hEnd⟩ := Option.map_eq_some_iff.mp hMap
  simp only [Prod.mk.injEq] at hEnd
  have hPassed := (async_writes_delivered .udp twoMessages hRun).2.1 hEnd.1
  exact ⟨s, hRun, hEnd.1, (hPassed .packets).2.trans hEnd.2.1, (hPassed .bytes).2.trans hEnd.2.2⟩

end AsyncWriter

end clockUtils.sockets
