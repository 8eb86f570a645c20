import ClockUtils.Sockets.AsyncInvariant

namespace clockUtils.sockets.AsyncWriter

variable {Thread Dest : Type}

section Ending

variable {transport : Transport} {s s' : AsyncWriter Thread Dest}

theorem takeNext_finish (channel : Channel) (finish : Bool) :
    (takeNext transport channel finish s).worker.finish = finish := by
  unfold takeNext
  split
  · cases channel <;> cases finish <;> rfl
  · rfl

/-- The worker drains a queue only when it is about to end. -/
theorem finish_of_drained {point : WorkPoint Dest} {channel : Channel}
    (h : point.drained channel = true) : point.finish = true := by
  unfold WorkPoint.drained at h
  split at h
  · rfl
  · rfl
  · rfl
  · rfl
  · rfl
  · cases h

theorem takeNext_drained {channel : Channel} {finish : Bool}
    (hPackets : channel = .bytes → finish = true → s.queue .packets = []) (other : Channel)
    (h : (takeNext transport channel finish s).worker.drained other = true) :
    (takeNext transport channel finish s).queue other = [] := by
  unfold takeNext at h ⊢
  split
  · next hQueue =>
    rw [hQueue] at h
    cases channel with
    | packets =>
      cases other with
      | packets => exact hQueue
      | bytes => cases finish <;> cases h
    | bytes =>
      cases finish with
      | false => cases other <;> cases h
      | true =>
        cases other with
        | packets => exact hPackets rfl rfl
        | bytes => exact hQueue
  · next m rest hQueue =>
    rw [hQueue] at h
    cases channel with
    | packets => cases other <;> cases h
    | bytes =>
      cases finish with
      | false => cases other <;> cases h
      | true =>
        cases other with
        | packets => exact hPackets rfl rfl
        | bytes => cases h

/-- The worker sets `finish` when it sees `_terminate`. -/
theorem WorkerMove.finish (hMove : WorkerMove transport s s') (hEnd : s'.worker.finish = true) :
    s.worker.finish = true ∨ s.terminate = true := by
  cases hMove with
  | lock | running | noPackets | noBytes | work | wait | relock => cases hEnd
  | terminate hPoint hSet => exact .inr hSet
  | unlock finish hPoint | pass channel finish tmp hPoint =>
    rw [hPoint]
    exact .inl hEnd
  | next channel finish hPoint | pop channel finish front rest hPoint hQueue =>
    rw [takeNext_finish] at hEnd
    rw [hPoint]
    exact .inl hEnd
  | written channel finish tmp hPoint =>
    rw [hPoint]
    cases transport <;> exact .inl hEnd

theorem WorkerMove.drained (hMove : WorkerMove transport s s')
    (h : ∀ channel, s.worker.drained channel = true → s.queue channel = []) (channel : Channel)
    (hEnd : s'.worker.drained channel = true) : s'.queue channel = [] := by
  cases hMove with
  | lock | terminate | running | noPackets | noBytes | work | wait | relock | unlock =>
    cases channel <;> cases hEnd
  | next busy finish hPoint =>
    refine takeNext_drained (fun hBytes hFinish => ?_) channel hEnd
    exact h .packets (by rw [hPoint, hBytes, hFinish]; rfl)
  | pass busy finish tmp hPoint =>
    refine h channel ?_
    rw [hPoint]
    cases channel <;> cases busy <;> cases finish <;> first | rfl | cases hEnd
  | written busy finish tmp hPoint =>
    refine h channel ?_
    rw [hPoint]
    cases transport <;> cases channel <;> cases busy <;> cases finish <;> first | rfl | cases hEnd
  | pop busy finish front rest hPoint hQueue =>
    refine takeNext_drained (fun hBytes hFinish => ?_) channel hEnd
    subst hBytes hFinish
    exact h .packets (by rw [hPoint]; rfl)

theorem Ending.workerStep (h : Ending transport s) (hMove : WorkerMove transport s s') :
    Ending transport s' := by
  obtain ⟨hTerminate, hUser, hDestructor⟩ := hMove.frame
  refine ⟨?_, ?_, fun hEnd => ?_, hMove.drained h.drained⟩
  · rw [hTerminate, hDestructor, h.terminate]
  · rw [hUser, hDestructor]
    exact h.idle
  · rw [hTerminate]
    exact (hMove.finish hEnd).elim h.finish id

/-- After the destructor was called, the worker is not asked for anything. -/
theorem Ending.not_finish (h : Ending transport s) {t : Thread} (hUser : s.user t ≠ .idle) :
    s.destructor = .alive ∧ s.worker.finish = false := by
  have hAlive : s.destructor = .alive := by
    by_contra hDestructor
    exact hUser (h.idle hDestructor t)
  refine ⟨hAlive, ?_⟩
  rw [Bool.eq_false_iff]
  intro hFinish
  have hTerminate := h.finish hFinish
  rw [h.terminate, hAlive] at hTerminate
  cases transport <;> cases hTerminate

theorem Ending.userStep [DecidableEq Thread] (h : Ending transport s) {t : Thread}
    (hMove : UserMove t s s') : Ending transport s' := by
  have hActive : s.user t ≠ .idle := by
    cases hMove with
    | push channel m hPoint | lock hPoint | notify hPoint | unlock hPoint => simp [hPoint]
  obtain ⟨hAlive, hFinish⟩ := h.not_finish hActive
  have hFrame : s'.terminate = s.terminate ∧ s'.destructor = s.destructor ∧
      s'.worker.finish = s.worker.finish := by
    cases hMove with
    | push | lock | unlock => exact ⟨rfl, rfl, rfl⟩
    | notify => exact ⟨rfl, rfl, finish_notified _⟩
  obtain ⟨hTerminate, hDestructor, hWorker⟩ := hFrame
  refine ⟨?_, fun hNot => ?_, fun hEnd => ?_, fun channel hEnd => ?_⟩
  · rw [hTerminate, hDestructor, h.terminate]
  · rw [hDestructor] at hNot
    exact absurd hAlive hNot
  · rw [hWorker, hFinish] at hEnd
    cases hEnd
  · rw [finish_of_drained hEnd] at hWorker
    rw [hFinish] at hWorker
    cases hWorker

theorem Ending.destructorStep (h : Ending transport s) (hMove : DestructorMove transport s s') :
    Ending transport s' := by
  have hTerminate := h.terminate
  have hIdle : ∀ t, s.user t = .idle := by
    refine h.idle ?_
    cases hMove with
    | setTerminate hPoint | lock hPoint | notify hPoint | unlock hPoint | join hPoint => simp [hPoint]
  cases hMove with
  | setTerminate hPoint =>
    exact ⟨by cases transport <;> rfl, fun _ => hIdle, fun _ => rfl, h.drained⟩
  | lock hPoint | unlock hPoint | join hPoint =>
    rw [hPoint] at hTerminate
    exact ⟨by cases transport <;> exact hTerminate, fun _ => hIdle, h.finish, h.drained⟩
  | notify hPoint =>
    rw [hPoint] at hTerminate
    refine ⟨by cases transport <;> exact hTerminate, fun _ => hIdle, fun hEnd => ?_,
      fun channel hEnd => ?_⟩
    · rw [finish_notified] at hEnd
      exact h.finish hEnd
    · rw [drained_notified] at hEnd
      exact h.drained channel hEnd

end Ending

section Flow

variable {transport : Transport} {s s' : AsyncWriter Thread Dest}

theorem unsent_of_not_stale {channel : Channel} (h : s.worker.stale transport channel = false) :
    s.unsent transport channel = s.queue channel := by
  simp [unsent, h]

/-- The queues and the messages in the hands of the worker stay as they are. -/
theorem Flow.frame (h : Flow transport s) (hQueue : s'.queue = s.queue)
    (hEnqueued : s'.enqueued = s.enqueued) (hPassed : s'.passed = s.passed)
    (hUser : ∀ t channel m, s'.user t = .push channel m → m.vec ≠ [])
    (hTaken : ∀ channel, s'.worker.taken channel = s.worker.taken channel)
    (hStale : ∀ channel, s'.worker.stale transport channel = s.worker.stale transport channel) :
    Flow transport s' := by
  refine ⟨fun channel => ?_, fun channel => ?_, ?_, hUser⟩
  · rw [hEnqueued, hPassed, hTaken, unsent, hStale, hQueue]
    exact h.split channel
  · rw [hStale, hQueue]
    exact h.present channel
  · rw [hEnqueued]
    exact h.nonempty

/-- The worker takes the next element, or there is none. -/
theorem Flow.takeNext (channel : Channel) (finish : Bool)
    (hSplit : ∀ other, s.enqueued other = s.passed other ++ s.queue other)
    (hNonempty : ∀ other, ∀ m ∈ s.enqueued other, m.vec ≠ [])
    (hPushed : ∀ t other m, s.user t = .push other m → m.vec ≠ []) :
    Flow transport (takeNext transport channel finish s) := by
  refine ⟨fun other => ?_, fun other hStale => ?_, by simpa using hNonempty, by simpa using hPushed⟩
  · rw [takeNext_enqueued, takeNext_passed, hSplit other]
    congr 1
    unfold AsyncWriter.takeNext
    split
    · cases channel <;> cases finish <;> rfl
    · next m rest hQueue =>
      by_cases hOther : channel = other
      · subst hOther
        cases transport <;> simp [unsent, WorkPoint.taken, WorkPoint.stale, hQueue]
      · simp [unsent, WorkPoint.taken, WorkPoint.stale, hOther, Function.update_of_ne (Ne.symm hOther)]
  · unfold AsyncWriter.takeNext at hStale ⊢
    split
    · next hQueue =>
      rw [hQueue] at hStale
      cases channel <;> cases finish <;> cases hStale
    · next m rest hQueue =>
      rw [hQueue] at hStale
      simp only [WorkPoint.stale, decide_eq_true_eq] at hStale
      obtain ⟨rfl, rfl⟩ := hStale
      simp

theorem Flow.workerStep (h : Flow transport s) (hMove : WorkerMove transport s s') :
    Flow transport s' := by
  have hSplit := h.split
  cases hMove with
  | lock hPoint | terminate hPoint | running hPoint | noPackets hPoint | noBytes hPoint | wait hPoint
  | relock hPoint | unlock finish hPoint =>
    exact h.frame rfl rfl rfl h.pushed (by simp [hPoint, WorkPoint.taken])
      (by simp [hPoint, WorkPoint.stale])
  | work hPoint =>
    rcases hPoint with hPoint | hPoint <;>
      exact h.frame rfl rfl rfl h.pushed (by simp [hPoint, WorkPoint.taken])
        (by simp [hPoint, WorkPoint.stale])
  | next busy finish hPoint =>
    refine Flow.takeNext busy finish (fun channel => ?_) h.nonempty h.pushed
    rw [hSplit channel, unsent_of_not_stale (by rw [hPoint]; rfl), hPoint]
    rfl
  | pass busy finish tmp hPoint =>
    refine ⟨fun channel => ?_, fun channel => ?_, h.nonempty, h.pushed⟩
    · rw [hSplit channel, hPoint, unsent, hPoint]
      by_cases hBusy : busy = channel
      · subst hBusy
        simp [WorkPoint.taken, unsent, WorkPoint.stale]
      · simp [WorkPoint.taken, unsent, WorkPoint.stale, hBusy,
          Function.update_of_ne (Ne.symm hBusy)]
    · have hPresent := h.present channel
      rw [hPoint] at hPresent
      exact hPresent
  | written busy finish tmp hPoint =>
    refine h.frame rfl rfl rfl h.pushed (fun channel => ?_) (fun channel => ?_)
    · rw [hPoint]
      cases transport <;> rfl
    · rw [hPoint]
      cases transport <;> simp [WorkPoint.stale]
  | pop busy finish front rest hPoint hQueue =>
    refine Flow.takeNext busy finish (fun channel => ?_) h.nonempty h.pushed
    rw [hSplit channel, hPoint, unsent, hPoint]
    by_cases hBusy : busy = channel
    · subst hBusy
      simp [WorkPoint.taken, WorkPoint.stale, hQueue]
    · simp [WorkPoint.taken, WorkPoint.stale, hBusy, Function.update_of_ne (Ne.symm hBusy)]

theorem Flow.destructorStep (h : Flow transport s) (hMove : DestructorMove transport s s') :
    Flow transport s' := by
  cases hMove with
  | setTerminate | lock | unlock | join =>
    exact h.frame rfl rfl rfl h.pushed (fun _ => rfl) fun _ => rfl
  | notify =>
    exact h.frame rfl rfl rfl h.pushed (taken_notified _) (stale_notified transport _)

section Users

variable [DecidableEq Thread] {t : Thread}

/-- The messages that are about to be pushed after a thread has taken a step. -/
theorem pushed_update {P : Channel → Message Dest → Prop}
    (h : ∀ t channel m, s.user t = .push channel m → P channel m) {point : UserPoint Dest}
    (hPoint : ∀ channel m, point = .push channel m → P channel m) (u : Thread) (channel : Channel)
    (m : Message Dest) (hUser : Function.update s.user t point u = .push channel m) :
    P channel m := by
  by_cases hu : u = t
  · subst hu
    rw [Function.update_self] at hUser
    exact hPoint channel m hUser
  · rw [Function.update_of_ne hu] at hUser
    exact h u channel m hUser

omit [DecidableEq Thread] in
/-- A new message comes last. -/
theorem Flow.push (h : Flow transport s) (channel : Channel) {m : Message Dest} (hm : m.vec ≠ [])
    {user : Thread → UserPoint Dest} (hUser : ∀ t channel m, user t = .push channel m → m.vec ≠ []) :
    Flow transport { s with
      queue := Function.update s.queue channel (s.queue channel ++ [m])
      enqueued := Function.update s.enqueued channel (s.enqueued channel ++ [m])
      user := user } := by
  refine ⟨fun other => ?_, fun other hStale => ?_, fun other m' hm' => ?_, hUser⟩
  · by_cases hOther : other = channel
    · subst hOther
      simp only [Function.update_self, h.split other, unsent]
      cases hStale : s.worker.stale transport other with
      | false => simp
      | true => simp [List.tail_append_of_ne_nil (h.present other hStale)]
    · simp only [Function.update_of_ne hOther, unsent]
      exact h.split other
  · by_cases hOther : other = channel
    · subst hOther
      simp
    · simp only [Function.update_of_ne hOther]
      exact h.present other hStale
  · by_cases hOther : other = channel
    · subst hOther
      simp only [Function.update_self, List.mem_append, List.mem_singleton] at hm'
      rcases hm' with hm' | rfl
      · exact h.nonempty other m' hm'
      · exact hm
    · simp only [Function.update_of_ne hOther] at hm'
      exact h.nonempty other m' hm'

theorem Flow.userStep (h : Flow transport s) (hMove : UserMove t s s') : Flow transport s' := by
  have hPushed : ∀ point : UserPoint Dest, (∀ channel m, point ≠ .push channel m) →
      ∀ u channel m, Function.update s.user t point u = .push channel m → m.vec ≠ [] :=
    fun point hPoint => pushed_update h.pushed fun channel m hm => absurd hm (hPoint channel m)
  cases hMove with
  | push channel m hPoint =>
    exact h.push channel (h.pushed t channel m hPoint) (hPushed .lockCond (by simp))
  | lock | unlock =>
    exact h.frame rfl rfl rfl (hPushed _ (by simp)) (fun _ => rfl) fun _ => rfl
  | notify =>
    exact h.frame rfl rfl rfl (hPushed _ (by simp)) (taken_notified _) (stale_notified transport _)

end Users

end Flow

end clockUtils.sockets.AsyncWriter
