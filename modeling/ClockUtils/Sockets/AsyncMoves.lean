import ClockUtils.Sockets.AsyncWriter

namespace clockUtils.sockets.AsyncWriter

variable {Thread Dest : Type} {transport : Transport} {s s' : AsyncWriter Thread Dest}

/-- What a step of the worker can do. -/
inductive WorkerMove (transport : Transport) (s : AsyncWriter Thread Dest) :
    AsyncWriter Thread Dest → Prop
  | lock (hPoint : s.worker = .lockCond) (hFree : s.condMutex.isNone = true) :
      WorkerMove transport s { s with condMutex := some .worker, worker := .testTerminate }
  | terminate (hPoint : s.worker = .testTerminate) (hSet : s.terminate = true) :
      WorkerMove transport s { s with worker := .unlockCond true }
  | running (hPoint : s.worker = .testTerminate) (hUnset : s.terminate = false) :
      WorkerMove transport s { s with worker := .testPackets }
  | noPackets (hPoint : s.worker = .testPackets) (hEmpty : s.queue .packets = []) :
      WorkerMove transport s { s with worker := .testBytes }
  | noBytes (hPoint : s.worker = .testBytes) (hEmpty : s.queue .bytes = []) :
      WorkerMove transport s { s with worker := .wait }
  | work (hPoint : s.worker = .testPackets ∨ s.worker = .testBytes) :
      WorkerMove transport s { s with worker := .unlockCond false }
  | wait (hPoint : s.worker = .wait) :
      WorkerMove transport s { s with condMutex := none, worker := .waiting }
  | relock (hPoint : s.worker = .woken) (hFree : s.condMutex.isNone = true) :
      WorkerMove transport s { s with condMutex := some .worker, worker := .unlockCond false }
  | unlock (finish : Bool) (hPoint : s.worker = .unlockCond finish) :
      WorkerMove transport s { s with condMutex := none, worker := .next .packets finish }
  | next (channel : Channel) (finish : Bool) (hPoint : s.worker = .next channel finish) :
      WorkerMove transport s (takeNext transport channel finish s)
  | pass (channel : Channel) (finish : Bool) (tmp : Message Dest)
      (hPoint : s.worker = .call channel finish tmp) :
      WorkerMove transport s { s with
        worker := .writing channel finish tmp
        passed := Function.update s.passed channel (s.passed channel ++ [tmp]) }
  | written (channel : Channel) (finish : Bool) (tmp : Message Dest)
      (hPoint : s.worker = .writing channel finish tmp) :
      WorkerMove transport s { s with
        worker := match transport with
          | .tcp => .next channel finish
          | .udp => .pop channel finish }
  | pop (channel : Channel) (finish : Bool) (front : Message Dest) (rest : List (Message Dest))
      (hPoint : s.worker = .pop channel finish) (hQueue : s.queue channel = front :: rest) :
      WorkerMove transport s
        (takeNext transport channel finish { s with queue := Function.update s.queue channel rest })

theorem workerStep_move (hStep : s.workerStep transport = some s') : WorkerMove transport s s' := by
  cases hPoint : s.worker with
  | lockCond =>
    simp only [workerStep, hPoint] at hStep
    split at hStep <;> cases hStep
    next hFree => exact .lock hPoint hFree
  | testTerminate =>
    simp only [workerStep, hPoint] at hStep
    cases hStep
    split
    · next hSet => exact .terminate hPoint hSet
    · next hSet => exact .running hPoint (Bool.eq_false_iff.mpr hSet)
  | testPackets =>
    simp only [workerStep, hPoint] at hStep
    cases hStep
    split
    · next hEmpty => exact .noPackets hPoint (List.isEmpty_iff.mp hEmpty)
    · exact .work (.inl hPoint)
  | testBytes =>
    simp only [workerStep, hPoint] at hStep
    cases hStep
    split
    · next hEmpty => exact .noBytes hPoint (List.isEmpty_iff.mp hEmpty)
    · exact .work (.inr hPoint)
  | wait =>
    simp only [workerStep, hPoint] at hStep
    cases hStep
    exact .wait hPoint
  | woken =>
    simp only [workerStep, hPoint] at hStep
    split at hStep <;> cases hStep
    next hFree => exact .relock hPoint hFree
  | unlockCond finish =>
    simp only [workerStep, hPoint] at hStep
    cases hStep
    exact .unlock finish hPoint
  | next channel finish =>
    simp only [workerStep, hPoint] at hStep
    cases hStep
    exact .next channel finish hPoint
  | call channel finish tmp =>
    simp only [workerStep, hPoint] at hStep
    split at hStep <;> cases hStep
    exact .pass channel finish tmp hPoint
  | writing channel finish tmp =>
    simp only [workerStep, hPoint] at hStep
    cases hStep
    exact .written channel finish tmp hPoint
  | pop channel finish =>
    simp only [workerStep, hPoint] at hStep
    split at hStep <;> cases hStep
    next front rest hQueue => exact .pop channel finish front rest hPoint hQueue
  | waiting | ended => simp [workerStep, hPoint] at hStep

/-- What a step of the destructor can do. -/
inductive DestructorMove (transport : Transport) (s : AsyncWriter Thread Dest) :
    AsyncWriter Thread Dest → Prop
  | setTerminate (hPoint : s.destructor = .setTerminate) :
      DestructorMove transport s
        { s with terminate := true, destructor := DestructorPoint.afterSet transport }
  | lock (hPoint : s.destructor = .lockCond) (hFree : s.condMutex.isNone = true) :
      DestructorMove transport s
        { s with condMutex := some .destructor, destructor := DestructorPoint.afterLock transport }
  | notify (hPoint : s.destructor = .notify) :
      DestructorMove transport s
        { s with worker := s.worker.notified, destructor := .unlockCond }
  | unlock (hPoint : s.destructor = .unlockCond) :
      DestructorMove transport s { s with condMutex := none, destructor := .join }
  | join (hPoint : s.destructor = .join) (hWorker : s.worker = .ended) :
      DestructorMove transport s { s with destructor := .joined }

theorem destructorStep_move (hStep : s.destructorStep transport = some s') :
    DestructorMove transport s s' := by
  cases hPoint : s.destructor with
  | alive | joined => simp [destructorStep, hPoint] at hStep
  | setTerminate =>
    simp only [destructorStep, hPoint] at hStep
    cases hStep
    exact .setTerminate hPoint
  | lockCond =>
    simp only [destructorStep, hPoint] at hStep
    split at hStep <;> cases hStep
    next hFree => exact .lock hPoint hFree
  | notify =>
    simp only [destructorStep, hPoint] at hStep
    cases hStep
    exact .notify hPoint
  | unlockCond =>
    simp only [destructorStep, hPoint] at hStep
    cases hStep
    exact .unlock hPoint
  | join =>
    simp only [destructorStep, hPoint] at hStep
    split at hStep <;> cases hStep
    next hWorker => exact .join hPoint hWorker

/-- What a step of a call can do. -/
inductive UserMove [DecidableEq Thread] (t : Thread) (s : AsyncWriter Thread Dest) :
    AsyncWriter Thread Dest → Prop
  | push (channel : Channel) (m : Message Dest) (hPoint : s.user t = .push channel m) :
      UserMove t s { s with
        queue := Function.update s.queue channel (s.queue channel ++ [m])
        enqueued := Function.update s.enqueued channel (s.enqueued channel ++ [m])
        user := Function.update s.user t .lockCond }
  | lock (hPoint : s.user t = .lockCond) (hFree : s.condMutex.isNone = true) :
      UserMove t s
        { s with condMutex := some (.user t), user := Function.update s.user t .notify }
  | notify (hPoint : s.user t = .notify) :
      UserMove t s
        { s with worker := s.worker.notified, user := Function.update s.user t .unlockCond }
  | unlock (hPoint : s.user t = .unlockCond) :
      UserMove t s { s with condMutex := none, user := Function.update s.user t .idle }

theorem userStep_move [DecidableEq Thread] {t : Thread} (hStep : s.userStep t = some s') :
    UserMove t s s' := by
  cases hPoint : s.user t with
  | idle => simp [userStep, hPoint] at hStep
  | push channel m =>
    simp only [userStep, hPoint] at hStep
    cases hStep
    exact .push channel m hPoint
  | lockCond =>
    simp only [userStep, hPoint] at hStep
    split at hStep <;> cases hStep
    next hFree => exact .lock hPoint hFree
  | notify =>
    simp only [userStep, hPoint] at hStep
    cases hStep
    exact .notify hPoint
  | unlockCond =>
    simp only [userStep, hPoint] at hStep
    cases hStep
    exact .unlock hPoint

section Frame

@[simp]
theorem takeNext_condMutex (channel : Channel) (finish : Bool) :
    (takeNext transport channel finish s).condMutex = s.condMutex := by
  unfold takeNext
  split <;> rfl

@[simp]
theorem takeNext_user (channel : Channel) (finish : Bool) :
    (takeNext transport channel finish s).user = s.user := by
  unfold takeNext
  split <;> rfl

@[simp]
theorem takeNext_destructor (channel : Channel) (finish : Bool) :
    (takeNext transport channel finish s).destructor = s.destructor := by
  unfold takeNext
  split <;> rfl

@[simp]
theorem takeNext_terminate (channel : Channel) (finish : Bool) :
    (takeNext transport channel finish s).terminate = s.terminate := by
  unfold takeNext
  split <;> rfl

@[simp]
theorem takeNext_enqueued (channel : Channel) (finish : Bool) :
    (takeNext transport channel finish s).enqueued = s.enqueued := by
  unfold takeNext
  split <;> rfl

@[simp]
theorem takeNext_passed (channel : Channel) (finish : Bool) :
    (takeNext transport channel finish s).passed = s.passed := by
  unfold takeNext
  split <;> rfl

/-- What a step of the worker leaves alone. -/
theorem WorkerMove.frame (h : WorkerMove transport s s') :
    s'.terminate = s.terminate ∧ s'.user = s.user ∧ s'.destructor = s.destructor := by
  cases h with
  | next channel finish hPoint | pop channel finish front rest hPoint hQueue =>
    exact ⟨takeNext_terminate .., takeNext_user .., takeNext_destructor ..⟩
  | _ => exact ⟨rfl, rfl, rfl⟩

end Frame

end clockUtils.sockets.AsyncWriter
