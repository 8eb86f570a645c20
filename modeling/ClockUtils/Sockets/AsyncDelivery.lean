import ClockUtils.Sockets.AsyncFlow

namespace clockUtils.sockets.AsyncWriter

variable {Thread Dest : Type} {transport : Transport} {s s' : AsyncWriter Thread Dest}

section Noticed

/-- After `notify_all` a worker that does not hold the lock does not wait. -/
theorem notified_unaware {point : WorkPoint Dest} (h : point.holds = false) :
    point.notified.sawRunning = false ∧ ∀ channel, point.notified.sawEmpty channel = false := by
  cases point with
  | testTerminate | testPackets | testBytes | wait | unlockCond finish => cases h
  | _ => exact ⟨rfl, fun channel => by cases channel <;> rfl⟩

/-- A worker that does not wait and will not do so has nothing to be notified of. -/
theorem Noticed.of_unaware (hRunning : s.worker.sawRunning = false)
    (hEmpty : ∀ channel, s.worker.sawEmpty channel = false) : Noticed s := by
  refine ⟨fun h => ?_, fun channel h => ?_⟩
  · rw [hRunning] at h
    cases h
  · rw [hEmpty] at h
    cases h

/-- While another thread holds the lock, the worker does not. -/
theorem Locked.worker_not_holds (h : Locked transport s) {owner : Owner Thread}
    (hOwner : s.holds transport owner = true) (hOther : owner ≠ .worker) :
    s.worker.holds = false := by
  rw [Bool.eq_false_iff]
  intro hWorker
  have hBoth : s.holds transport .worker = true := hWorker
  exact hOther (h.unique hOwner hBoth)

theorem takeNext_noticed (channel : Channel) (finish : Bool) :
    Noticed (takeNext transport channel finish s) := by
  unfold takeNext
  split
  · refine .of_unaware ?_ fun other => ?_
    · cases channel <;> cases finish <;> rfl
    · cases channel <;> cases finish <;> cases other <;> rfl
  · exact .of_unaware rfl fun other => by cases other <;> rfl

theorem Noticed.workerStep (h : Noticed s) (hMove : WorkerMove transport s s') : Noticed s' := by
  have hTerminate := h.terminate
  have hQueue := h.queue
  cases hMove with
  | lock | terminate | work | relock | unlock | pass =>
    exact .of_unaware rfl fun channel => by cases channel <;> rfl
  | running hPoint hUnset =>
    refine ⟨fun _ hSet => ?_, fun channel hSaw => ?_⟩
    · rw [hUnset] at hSet
      cases hSet
    · cases channel <;> cases hSaw
  | noPackets hPoint hEmpty =>
    rw [hPoint] at hTerminate
    refine ⟨fun _ => hTerminate rfl, fun channel hSaw hSome => ?_⟩
    cases channel with
    | packets => exact absurd hEmpty hSome
    | bytes => cases hSaw
  | noBytes hPoint hEmpty =>
    rw [hPoint] at hTerminate hQueue
    refine ⟨fun _ => hTerminate rfl, fun channel hSaw hSome => ?_⟩
    cases channel with
    | packets => exact hQueue .packets rfl hSome
    | bytes => exact absurd hEmpty hSome
  | wait hPoint =>
    rw [hPoint] at hTerminate hQueue
    exact ⟨fun _ => hTerminate rfl, fun channel _ => hQueue channel (by cases channel <;> rfl)⟩
  | next busy finish hPoint | pop busy finish front rest hPoint hFront =>
    exact takeNext_noticed busy finish
  | written busy finish tmp hPoint =>
    cases transport <;> exact .of_unaware rfl fun channel => by cases channel <;> rfl

theorem Noticed.destructorStep (h : Noticed s) (hLocked : Locked transport s)
    (hMove : DestructorMove transport s s') : Noticed s' := by
  have hTerminate := h.terminate
  cases hMove with
  | setTerminate | lock => exact ⟨fun _ _ => by cases transport <;> rfl, h.queue⟩
  | notify hPoint =>
    have hHolds : s.holds transport .destructor = true := by
      simp only [holds, hPoint]
      cases transport <;> rfl
    have hWorker := hLocked.worker_not_holds hHolds (by simp)
    exact .of_unaware (notified_unaware hWorker).1 (notified_unaware hWorker).2
  | unlock hPoint | join hPoint =>
    rw [hPoint] at hTerminate
    exact ⟨hTerminate, h.queue⟩

section Users

variable [DecidableEq Thread] {t : Thread}

/-- A thread that has yet to notify still has to when another one has taken a step. -/
theorem toNotify_update {point : UserPoint Dest}
    (hPoint : (s.user t).toNotify = true → point.toNotify = true)
    (h : ∃ u, (s.user u).toNotify = true) :
    ∃ u, (Function.update s.user t point u).toNotify = true := by
  obtain ⟨u, hu⟩ := h
  refine ⟨u, ?_⟩
  by_cases hSame : u = t
  · subst hSame
    rw [Function.update_self]
    exact hPoint hu
  · rwa [Function.update_of_ne hSame]

theorem Noticed.userStep (h : Noticed s) (hLocked : Locked transport s) (hMove : UserMove t s s') :
    Noticed s' := by
  cases hMove with
  | push channel m hPoint =>
    refine ⟨h.terminate, fun _ _ _ => ⟨t, ?_⟩⟩
    simp only [Function.update_self, UserPoint.toNotify]
  | lock hPoint =>
    refine ⟨h.terminate, fun channel hSaw hSome => ?_⟩
    exact toNotify_update (fun _ => rfl) (h.queue channel hSaw hSome)
  | notify hPoint =>
    have hHolds : s.holds transport (.user t) = true := by
      simp only [holds, hPoint, UserPoint.holds]
    have hWorker := hLocked.worker_not_holds hHolds (by simp)
    exact .of_unaware (notified_unaware hWorker).1 (notified_unaware hWorker).2
  | unlock hPoint =>
    refine ⟨h.terminate, fun channel hSaw hSome => ?_⟩
    refine toNotify_update (fun hNotify => ?_) (h.queue channel hSaw hSome)
    rw [hPoint] at hNotify
    cases hNotify

end Users

end Noticed

/-- What holds in every state of a run. -/
structure Inv (transport : Transport) (s : AsyncWriter Thread Dest) : Prop where
  locked : Locked transport s
  ending : Ending transport s
  flow : Flow transport s
  noticed : Noticed s

theorem fresh_inv : Inv transport (fresh : AsyncWriter Thread Dest) := by
  refine ⟨fun owner => ?_, ⟨?_, fun _ _ => rfl, by simp [fresh, WorkPoint.finish], fun _ _ => rfl⟩,
    ⟨fun _ => rfl, fun channel h => ?_, by simp [fresh], by simp [fresh]⟩, ?_⟩
  · cases owner <;> cases transport <;> simp [fresh, holds, WorkPoint.holds, UserPoint.holds,
      DestructorPoint.holds]
  · cases transport <;> rfl
  · cases h
  · exact .of_unaware rfl fun channel => by cases channel <;> rfl

theorem isIdle_iff {point : UserPoint Dest} : point.isIdle = true ↔ point = .idle := by
  cases point <;> simp [UserPoint.isIdle]

section Step

variable [DecidableEq Thread]

/-- A call begins. -/
theorem Inv.call (h : Inv transport s) {t : Thread} {channel : Channel} {m : Message Dest}
    (hAlive : s.destructor = .alive) (hIdle : s.user t = .idle) (hm : m.vec ≠ []) :
    Inv transport { s with user := Function.update s.user t (.push channel m) } := by
  refine ⟨h.locked.user_keeps rfl rfl rfl rfl (by rw [hIdle]; rfl),
    ⟨h.ending.terminate, fun hNot => absurd hAlive hNot, h.ending.finish, h.ending.drained⟩,
    h.flow.frame rfl rfl rfl (pushed_update h.flow.pushed ?_) (fun _ => rfl) fun _ => rfl,
    h.noticed.terminate, fun other hSaw hSome => ?_⟩
  · rintro other m' ⟨⟩
    exact hm
  · refine toNotify_update (fun hNotify => ?_) (h.noticed.queue other hSaw hSome)
    rw [hIdle] at hNotify
    cases hNotify

omit [DecidableEq Thread] in
/-- The worker wakes up for no reason. -/
theorem Inv.wake (h : Inv transport s) (hWaiting : s.worker = .waiting) :
    Inv transport { s with worker := .woken } := by
  refine ⟨h.locked.worker_keeps rfl rfl rfl (by rw [hWaiting]; rfl),
    ⟨h.ending.terminate, h.ending.idle, fun hEnd => ?_, fun channel hEnd => ?_⟩,
    h.flow.frame rfl rfl rfl h.flow.pushed (by simp [hWaiting, WorkPoint.taken])
      (by simp [hWaiting, WorkPoint.stale]),
    .of_unaware rfl fun channel => by cases channel <;> rfl⟩
  · cases hEnd
  · cases channel <;> cases hEnd

omit [DecidableEq Thread] in
/-- The destructor is called. -/
theorem Inv.destroy (h : Inv transport s) (hAlive : s.destructor = .alive)
    (hIdle : ∀ t, s.user t = .idle) :
    Inv transport { s with destructor := DestructorPoint.first transport } := by
  have hTerminate : s.terminate = false := by
    rw [h.ending.terminate, hAlive]
    cases transport <;> rfl
  refine ⟨h.locked.keep rfl fun owner => ?_,
    ⟨?_, fun _ => hIdle, h.ending.finish, h.ending.drained⟩,
    h.flow.frame rfl rfl rfl h.flow.pushed (fun _ => rfl) fun _ => rfl,
    fun _ hSet => ?_, h.noticed.queue⟩
  · cases owner with
    | worker | user t => rfl
    | destructor =>
      simp only [holds, hAlive]
      cases transport <;> rfl
  · rw [hTerminate]
    cases transport <;> rfl
  · rw [hTerminate] at hSet
    cases hSet

theorem Inv.step [Fintype Thread] (h : Inv transport s) {act : Act Thread Dest}
    (hStep : s.step transport act = some s') : Inv transport s' := by
  cases act with
  | call t channel m =>
    simp only [AsyncWriter.step] at hStep
    split at hStep <;> cases hStep
    next hGuard => exact h.call hGuard.1 (isIdle_iff.mp hGuard.2.1) hGuard.2.2
  | user t =>
    have hMove := userStep_move hStep
    exact ⟨h.locked.userStep hMove, h.ending.userStep hMove, h.flow.userStep hMove,
      h.noticed.userStep h.locked hMove⟩
  | worker =>
    have hMove := workerStep_move hStep
    exact ⟨h.locked.workerStep hMove, h.ending.workerStep hMove, h.flow.workerStep hMove,
      h.noticed.workerStep hMove⟩
  | wake =>
    simp only [AsyncWriter.step] at hStep
    split at hStep
    · next hWaiting =>
      cases hStep
      exact h.wake hWaiting
    · cases hStep
  | destroy =>
    simp only [AsyncWriter.step] at hStep
    split at hStep <;> cases hStep
    next hGuard => exact h.destroy hGuard.1 fun t => isIdle_iff.mp (hGuard.2 t)
  | destructor =>
    have hMove := destructorStep_move hStep
    exact ⟨h.locked.destructorStep hMove, h.ending.destructorStep hMove, h.flow.destructorStep hMove,
      h.noticed.destructorStep h.locked hMove⟩

/-- All states of all runs. -/
theorem inv_of_run [Fintype Thread] {acts : List (Act Thread Dest)}
    (hRun : StepRun.run (step transport) fresh acts = some s) : Inv transport s :=
  StepRun.run_invariant (fun _ _ _ hInv hStep => hInv.step hStep) hRun fresh_inv

end Step

end clockUtils.sockets.AsyncWriter
