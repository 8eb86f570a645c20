import ClockUtils.Sockets.AsyncMoves

namespace clockUtils.sockets

variable {Thread Dest : Type}

namespace WorkPoint

/-- The worker has locked `_condMutex`. -/
def holds : WorkPoint Dest → Bool
  | testTerminate | testPackets | testBytes | wait | unlockCond _ => true
  | _ => false

/-- The variable `finish`. -/
def finish : WorkPoint Dest → Bool
  | unlockCond finish | next _ finish | call _ finish _ | writing _ finish _ | pop _ finish => finish
  | ended => true
  | _ => false

/-- The message that the worker has moved out of a queue and not yet passed on. -/
def taken (channel : Channel) : WorkPoint Dest → List (Message Dest)
  | call busy _ tmp => if busy = channel then [tmp] else []
  | _ => []

/-- The first element of the queue is one that the worker has moved from. -/
def stale (transport : Transport) (channel : Channel) : WorkPoint Dest → Bool
  | call busy _ _ | writing busy _ _ => transport = .udp ∧ busy = channel
  | pop busy _ => busy = channel
  | _ => false

/-- The worker has seen this queue without elements after `finish` was set. -/
def drained : Channel → WorkPoint Dest → Bool
  | .packets, next .bytes true | .packets, call .bytes true _ | .packets, writing .bytes true _
  | .packets, pop .bytes true | _, ended => true
  | _, _ => false

/-- The worker has seen that `_terminate` is not set and will wait, or waits. -/
def sawRunning : WorkPoint Dest → Bool
  | testPackets | testBytes | wait | waiting => true
  | _ => false

/-- The worker has seen the queue without elements and will wait, or waits. -/
def sawEmpty : Channel → WorkPoint Dest → Bool
  | .packets, testBytes | _, wait | _, waiting => true
  | _, _ => false

end WorkPoint

namespace UserPoint

def holds : UserPoint Dest → Bool
  | notify | unlockCond => true
  | _ => false

/-- The call has pushed its message and has yet to call `notify_all`. -/
def toNotify : UserPoint Dest → Bool
  | lockCond | notify => true
  | _ => false

end UserPoint

namespace DestructorPoint

def holds : Transport → DestructorPoint → Bool
  | .tcp, setTerminate | _, notify | _, unlockCond => true
  | _, _ => false

/-- `_terminate` is set. -/
def terminated : Transport → DestructorPoint → Bool
  | .udp, lockCond | _, notify | _, unlockCond | _, join | _, joined => true
  | _, _ => false

/-- The destructor has yet to call `notify_all`. -/
def toNotify : DestructorPoint → Bool
  | setTerminate | lockCond | notify => true
  | _ => false

end DestructorPoint

namespace AsyncWriter

/-- The thread has locked `_condMutex`. -/
def holds (transport : Transport) (s : AsyncWriter Thread Dest) : Owner Thread → Bool
  | .worker => s.worker.holds
  | .user t => (s.user t).holds
  | .destructor => s.destructor.holds transport

/-- What the worker has still to take from the queue. -/
def unsent (transport : Transport) (s : AsyncWriter Thread Dest) (channel : Channel) :
    List (Message Dest) :=
  if s.worker.stale transport channel then (s.queue channel).tail else s.queue channel

/-- `_condMutex` is owned by the one thread that has locked it. -/
def Locked (transport : Transport) (s : AsyncWriter Thread Dest) : Prop :=
  ∀ owner, s.condMutex = some owner ↔ s.holds transport owner = true

/-- The order in which the destructor lets the others end. -/
structure Ending (transport : Transport) (s : AsyncWriter Thread Dest) : Prop where
  terminate : s.terminate = s.destructor.terminated transport
  idle : s.destructor ≠ .alive → ∀ t, s.user t = .idle
  finish : s.worker.finish = true → s.terminate = true
  drained : ∀ channel, s.worker.drained channel = true → s.queue channel = []

/-- Every message is enqueued, on its way or passed on. -/
structure Flow (transport : Transport) (s : AsyncWriter Thread Dest) : Prop where
  split : ∀ channel,
    s.enqueued channel = s.passed channel ++ (s.worker.taken channel ++ s.unsent transport channel)
  present : ∀ channel, s.worker.stale transport channel = true → s.queue channel ≠ []
  nonempty : ∀ channel, ∀ m ∈ s.enqueued channel, m.vec ≠ []
  pushed : ∀ t channel m, s.user t = .push channel m → m.vec ≠ []

/-- A worker that waits, or will do so, is going to be notified of what it has
not seen. -/
structure Noticed (s : AsyncWriter Thread Dest) : Prop where
  terminate : s.worker.sawRunning = true → s.terminate = true → s.destructor.toNotify = true
  queue : ∀ channel, s.worker.sawEmpty channel = true → s.queue channel ≠ [] →
    ∃ t, (s.user t).toNotify = true

section Notified

theorem holds_notified (point : WorkPoint Dest) : point.notified.holds = point.holds := by
  cases point <;> rfl

theorem finish_notified (point : WorkPoint Dest) : point.notified.finish = point.finish := by
  cases point <;> rfl

theorem drained_notified (point : WorkPoint Dest) (channel : Channel) :
    point.notified.drained channel = point.drained channel := by
  cases point <;> cases channel <;> rfl

theorem taken_notified (point : WorkPoint Dest) (channel : Channel) :
    point.notified.taken channel = point.taken channel := by
  cases point <;> rfl

theorem stale_notified (transport : Transport) (point : WorkPoint Dest) (channel : Channel) :
    point.notified.stale transport channel = point.stale transport channel := by
  cases point <;> rfl

end Notified

section Lock

variable {transport : Transport} {s s' : AsyncWriter Thread Dest} {owner : Owner Thread}

namespace Locked

theorem holds_of_free (h : Locked transport s) (hFree : s.condMutex.isNone = true) :
    s.holds transport owner = false := by
  rw [Option.isNone_iff_eq_none] at hFree
  have hOwner := h owner
  rw [hFree] at hOwner
  simpa using hOwner

/-- Two threads do not hold the lock at the same time. -/
theorem unique (h : Locked transport s) {other : Owner Thread}
    (hOwner : s.holds transport owner = true) (hOther : s.holds transport other = true) :
    owner = other :=
  Option.some.inj (((h owner).mpr hOwner).symm.trans ((h other).mpr hOther))

theorem acquire (h : Locked transport s) (hFree : s.condMutex.isNone = true)
    (hMutex : s'.condMutex = some owner) (hOwner : s'.holds transport owner = true)
    (hOthers : ∀ other, other ≠ owner → s'.holds transport other = s.holds transport other) :
    Locked transport s' := by
  intro other
  by_cases hOther : other = owner
  · subst hOther
    simp only [hMutex, hOwner]
  · rw [hMutex, hOthers other hOther, h.holds_of_free hFree]
    simpa using Ne.symm hOther

theorem release (h : Locked transport s) (hOwner : s.holds transport owner = true)
    (hMutex : s'.condMutex = none) (hFree : s'.holds transport owner = false)
    (hOthers : ∀ other, other ≠ owner → s'.holds transport other = s.holds transport other) :
    Locked transport s' := by
  intro other
  have hHolds : s'.holds transport other = false := by
    by_cases hOther : other = owner
    · rw [hOther, hFree]
    · rw [hOthers other hOther, Bool.eq_false_iff]
      exact fun hBoth => hOther (h.unique hBoth hOwner)
  rw [hMutex, hHolds]
  simp

theorem keep (h : Locked transport s) (hMutex : s'.condMutex = s.condMutex)
    (hHolds : ∀ other, s'.holds transport other = s.holds transport other) : Locked transport s' := by
  intro other
  rw [hMutex, hHolds]
  exact h other

end Locked

/-- A step of the worker does not change what the others hold. -/
theorem holds_worker (hUser : s'.user = s.user) (hDestructor : s'.destructor = s.destructor)
    (other : Owner Thread) (hOther : other ≠ .worker) :
    s'.holds transport other = s.holds transport other := by
  cases other with
  | worker => exact absurd rfl hOther
  | user t => simp only [holds, hUser]
  | destructor => simp only [holds, hDestructor]

theorem takeNext_holds (channel : Channel) (finish : Bool) :
    (takeNext transport channel finish s).worker.holds = false := by
  unfold takeNext
  split
  · cases channel <;> cases finish <;> rfl
  · rfl

theorem Locked.worker_keeps (h : Locked transport s) (hUser : s'.user = s.user)
    (hDestructor : s'.destructor = s.destructor) (hMutex : s'.condMutex = s.condMutex)
    (hWorker : s'.worker.holds = s.worker.holds) : Locked transport s' := by
  refine h.keep hMutex fun other => ?_
  by_cases hOther : other = .worker
  · subst hOther
    exact hWorker
  · exact holds_worker hUser hDestructor other hOther

theorem Locked.workerStep (h : Locked transport s) (hMove : WorkerMove transport s s') :
    Locked transport s' := by
  cases hMove with
  | lock hPoint hFree | relock hPoint hFree =>
    exact h.acquire hFree rfl rfl (holds_worker rfl rfl)
  | terminate hPoint | running hPoint | noPackets hPoint | noBytes hPoint =>
    exact h.worker_keeps rfl rfl rfl (by rw [hPoint]; rfl)
  | work hPoint =>
    refine h.worker_keeps rfl rfl rfl ?_
    rcases hPoint with hPoint | hPoint <;> rw [hPoint] <;> rfl
  | wait hPoint | unlock finish hPoint =>
    have hHolds : s.holds transport .worker = true := by simp only [holds, hPoint, WorkPoint.holds]
    exact h.release hHolds rfl rfl (holds_worker rfl rfl)
  | next channel finish hPoint | pop channel finish front rest hPoint hQueue =>
    refine h.worker_keeps (takeNext_user ..) (takeNext_destructor ..) (takeNext_condMutex ..) ?_
    rw [takeNext_holds, hPoint]
    rfl
  | pass channel finish tmp hPoint => exact h.worker_keeps rfl rfl rfl (by rw [hPoint]; rfl)
  | written channel finish tmp hPoint =>
    refine h.worker_keeps rfl rfl rfl ?_
    rw [hPoint]
    cases transport <;> rfl

/-- A step of the destructor does not change what the others hold. -/
theorem holds_destructor (hUser : s'.user = s.user) (hWorker : s'.worker.holds = s.worker.holds)
    (other : Owner Thread) (hOther : other ≠ .destructor) :
    s'.holds transport other = s.holds transport other := by
  cases other with
  | worker => exact hWorker
  | user t => simp only [holds, hUser]
  | destructor => exact absurd rfl hOther

theorem Locked.destructor_keeps (h : Locked transport s) (hUser : s'.user = s.user)
    (hWorker : s'.worker.holds = s.worker.holds) (hMutex : s'.condMutex = s.condMutex)
    (hDestructor : s'.destructor.holds transport = s.destructor.holds transport) :
    Locked transport s' := by
  refine h.keep hMutex fun other => ?_
  by_cases hOther : other = .destructor
  · subst hOther
    exact hDestructor
  · exact holds_destructor hUser hWorker other hOther

theorem Locked.destructorStep (h : Locked transport s) (hMove : DestructorMove transport s s') :
    Locked transport s' := by
  cases hMove with
  | setTerminate hPoint | join hPoint =>
    refine h.destructor_keeps rfl rfl rfl ?_
    rw [hPoint]
    cases transport <;> rfl
  | lock hPoint hFree =>
    exact h.acquire hFree rfl (by cases transport <;> rfl) (holds_destructor rfl rfl)
  | notify hPoint =>
    refine h.destructor_keeps rfl (holds_notified _) rfl ?_
    rw [hPoint]
    cases transport <;> rfl
  | unlock hPoint =>
    have hHolds : s.holds transport .destructor = true := by
      simp only [holds, hPoint]
      cases transport <;> rfl
    exact h.release hHolds rfl (by cases transport <;> rfl) (holds_destructor rfl rfl)

section Users

variable [DecidableEq Thread] {t : Thread}

/-- A call changes what its thread holds. -/
theorem holds_user {point : UserPoint Dest} (hUser : s'.user = Function.update s.user t point)
    (hWorker : s'.worker.holds = s.worker.holds) (hDestructor : s'.destructor = s.destructor)
    (other : Owner Thread) (hOther : other ≠ .user t) :
    s'.holds transport other = s.holds transport other := by
  cases other with
  | worker => exact hWorker
  | user u =>
    have hu : u ≠ t := fun hu => hOther (by rw [hu])
    simp only [holds, hUser, Function.update_of_ne hu]
  | destructor => simp only [holds, hDestructor]

theorem Locked.user_keeps (h : Locked transport s) {point : UserPoint Dest}
    (hUser : s'.user = Function.update s.user t point)
    (hWorker : s'.worker.holds = s.worker.holds) (hDestructor : s'.destructor = s.destructor)
    (hMutex : s'.condMutex = s.condMutex) (hPoint : point.holds = (s.user t).holds) :
    Locked transport s' := by
  refine h.keep hMutex fun other => ?_
  by_cases hOther : other = .user t
  · subst hOther
    simp only [holds, hUser, Function.update_self, hPoint]
  · exact holds_user hUser hWorker hDestructor other hOther

theorem Locked.userStep (h : Locked transport s) (hMove : UserMove t s s') :
    Locked transport s' := by
  cases hMove with
  | push channel m hPoint => exact h.user_keeps rfl rfl rfl rfl (by rw [hPoint]; rfl)
  | lock hPoint hFree =>
    refine h.acquire hFree rfl ?_ (holds_user rfl rfl rfl)
    simp only [holds, Function.update_self, UserPoint.holds]
  | notify hPoint => exact h.user_keeps rfl (holds_notified _) rfl rfl (by rw [hPoint]; rfl)
  | unlock hPoint =>
    have hHolds : s.holds transport (.user t) = true := by
      simp only [holds, hPoint, UserPoint.holds]
    refine h.release hHolds rfl ?_ (holds_user rfl rfl rfl)
    simp only [holds, Function.update_self, UserPoint.holds]

end Users

end Lock

end AsyncWriter

end clockUtils.sockets
