import ClockUtils.Sockets.LifecycleRuns

namespace clockUtils.sockets

namespace Lifecycle

variable {s s' : Lifecycle}

@[simp]
theorem closeSocket_status (s : Lifecycle) : s.closeSocket.status = s.status := by
  rw [closeSocket_eq]

theorem finishConnect_eq_tcpSocket (s : Lifecycle) (buffer : Bytes) (os : TcpSocket.ConnectCalls) :
    (s.finishConnect os).1 = (TcpSocket.finishConnect os ⟨s.status, buffer⟩).1 ∧
      (s.finishConnect os).2.status =
        (TcpSocket.finishConnect os ⟨s.status, buffer⟩).2.status := by
  unfold finishConnect TcpSocket.finishConnect
  cases os.connect with
  | none => exact ⟨rfl, rfl⟩
  | some errno =>
    dsimp only
    repeat' split
    all_goals simp

/-- The descriptors play no part in what `connect` answers and in the status it
leaves behind. -/
theorem connect_eq_tcpSocket (s : Lifecycle) (buffer : Bytes) (os : TcpSocket.ConnectCalls)
    (fd : Descriptor) (remoteIP : IPv4) (remotePort : UInt16) :
    (s.connect os fd remoteIP remotePort).1 =
        (TcpSocket.connect os ⟨s.status, buffer⟩ remoteIP remotePort).1 ∧
      (s.connect os fd remoteIP remotePort).2.status =
        (TcpSocket.connect os ⟨s.status, buffer⟩ remoteIP remotePort).2.status := by
  unfold connect TcpSocket.connect
  dsimp only
  cases os.socket <;> cases os.fcntlGet <;> cases os.fcntlSet <;> dsimp only <;> repeat' split
  all_goals first
    | exact finishConnect_eq_tcpSocket (s.openSocket fd) buffer os
    | simp [openSocket]

/-- How many steps a listening thread has still to make when `::accept` fails. -/
def listenLeft : ListenPoint → Nat
  | .ended => 0
  | .closeFailed | .closeStopped => 1
  | .report _ | .testStop => 2
  | .testSilent _ => 3
  | .testResult (.error _) => 4
  | .accept => 5
  | .testAgain => 6
  | .hand _ => 7
  | .testResult (.ok _) => 8

/-- How many steps the thread of `receiveCallback` has still to make when `_sock` is
`INVALID_SOCKET`. -/
def callbackLeft : CallbackPoint → Nat
  | .ended => 0
  | .testSock => 1
  | .inClose _ .setInactive => 2
  | .inClose _ .joinCallback => 3
  | .inClose _ .joinListen => 4
  | .inClose _ .shutdown => 5
  | .inClose _ .testStatus => 6
  | .inCallback _ => 7
  | .report _ _ => 8
  | .receive => 9

/-- How many steps the owner has still to make behind the end of the descriptor. -/
def callLeft : CallPoint → Nat
  | .closing .joinListen => 3
  | .closing .joinCallback => 2
  | .closing .setInactive => 1
  | _ => 0

def stepsLeft (s : Lifecycle) : Nat :=
  callLeft s.call + (s.listenThread.elim 0 (listenLeft ·.point) +
    s.callbackThread.elim 0 (callbackLeft ·.point))

/-- The steps that are left while the owner begins no other call: `::accept` fails,
as its descriptor is closed. -/
def ending : LifecycleAct → Bool
  | .owner | .listener | .accept (.error _) | .receive _ _ | .closeInside | .callback => true
  | _ => false

/-- The steps of the worker and of the detached threads. -/
def aside : LifecycleAct → Bool
  | .workerEnds | .acceptCallback _ => true
  | _ => false

/-- `close` has ended the descriptor, and may have returned. -/
structure Closing (s : Lifecycle) : Prop where
  inv : Inv s
  sock : s.sock = none
  call : callLeft s.call = 0 →
    s.status = .INACTIVE ∧ (s.call = .idle ∨ s.call = .destroyed) ∧ s.callbackThread = none

theorem callbackLeft_nextRound (err : ClockError) : callbackLeft (nextRound err) ≤ 1 := by
  rw [nextRound]
  split <;> simp [callbackLeft]

theorem listenFunc_left {thread thread' : Listening} (hSock : s.sock = none)
    (hStep : s.listenFunc thread = some (s', thread')) :
    (∃ waiting, s' = { s with waiting := waiting }) ∧
      listenLeft thread'.point < listenLeft thread.point := by
  have hClose : s.closeSocket = s := by rw [closeSocket, hSock]
  unfold listenFunc startCall at hStep
  rw [hClose] at hStep
  cases hPoint : thread.point <;> rw [hPoint] at hStep
  case accept | ended => cases hStep
  case testResult clientSock =>
    cases clientSock <;> cases hStep <;> refine ⟨⟨_, rfl⟩, ?_⟩
    · exact Nat.lt_succ_self 3
    · dsimp only
      split <;> simp [listenLeft]
  case testSilent clientSock =>
    dsimp only at hStep
    split at hStep <;> cases hStep <;> exact ⟨⟨_, rfl⟩, by simp [listenLeft]⟩
  case testAgain | testStop =>
    cases hStep
    refine ⟨⟨_, rfl⟩, ?_⟩
    dsimp only
    split <;> simp [listenLeft]
  all_goals
    cases hStep
    exact ⟨⟨_, rfl⟩, by simp [listenLeft]⟩

/-- A `close` by the `packetCallback`, when the descriptor has ended already. -/
theorem closeStep_left (hSock : s.sock = none) (hListen : s.listenThread = none) {err : ClockError}
    {point : ClosePoint} {next : Option ClosePoint}
    (hStep : s.closeStep true point = some (s', next)) :
    (∃ status, s' = { s with status := status }) ∧
      callbackLeft (next.elim (nextRound err) (.inClose err)) < callbackLeft (.inClose err point) := by
  have hNext := callbackLeft_nextRound err
  cases point with
  | testStatus =>
    cases hStep
    refine ⟨⟨_, rfl⟩, ?_⟩
    split
    · exact Nat.lt_of_le_of_lt hNext (by simp [callbackLeft])
    · exact Nat.lt_succ_self 5
  | shutdown =>
    have hClose : s.closeSocket = s := by rw [closeSocket, hSock]
    rw [closeStep, hClose] at hStep
    cases hStep
    exact ⟨⟨_, rfl⟩, Nat.lt_succ_self 4⟩
  | joinListen =>
    rw [closeStep, hListen] at hStep
    cases hStep
    exact ⟨⟨_, rfl⟩, Nat.lt_succ_self 3⟩
  | joinCallback =>
    have hSame : s' = s ∧ next = some .setInactive := by
      rw [closeStep] at hStep
      split at hStep <;> cases hStep <;> exact ⟨rfl, rfl⟩
    obtain ⟨rfl, rfl⟩ := hSame
    exact ⟨⟨_, rfl⟩, Nat.lt_succ_self 2⟩
  | setInactive =>
    cases hStep
    exact ⟨⟨_, rfl⟩, Nat.lt_succ_of_le hNext⟩

theorem callbackFunc_left {thread thread' : Receiving} (h : Inv s) (hSock : s.sock = none)
    (hThread : s.callbackThread = some thread)
    (hStep : s.callbackFunc thread = some (s', thread')) :
    (∃ status, s' = { s with status := status }) ∧
      callbackLeft thread'.point < callbackLeft thread.point := by
  obtain ⟨rfl, hPoint, -, hNext⟩ | ⟨err, buffer, rfl, hPoint, rfl⟩ | ⟨err, rfl, hPoint, rfl⟩ |
    ⟨err, point, next, hPoint, hClose, rfl⟩ := callbackFunc_cases hStep <;> rw [hPoint]
  · refine ⟨⟨_, rfl⟩, ?_⟩
    obtain hNext | ⟨-, hOpen⟩ := hNext
    · rw [hNext]
      exact Nat.zero_lt_one
    · exact absurd hSock hOpen
  · exact ⟨⟨_, rfl⟩, Nat.lt_succ_self 7⟩
  · exact ⟨⟨_, rfl⟩, Nat.lt_of_le_of_lt (callbackLeft_nextRound err) (by simp [callbackLeft])⟩
  · have hListen := (h.callback thread hThread).listenThread (by simp [hPoint])
    exact closeStep_left hSock hListen hClose

theorem Closing.ownerStep (h : Closing s) (hStep : s.ownerStep = some s') :
    Closing s' ∧ stepsLeft s' < stepsLeft s := by
  have hInv := h.inv.ownerStep hStep
  have hCall := h.call
  unfold Lifecycle.ownerStep closeStep at hStep
  cases hPoint : s.call <;> rw [hPoint] at hCall hStep <;> dsimp only at hStep
  case closing point =>
    cases point <;> dsimp only at hStep
    case testStatus | shutdown =>
      obtain ⟨-, hFalse | hFalse, -⟩ := hCall rfl <;> cases hFalse
    case joinListen =>
      split at hStep
      · next hThread =>
        cases hStep
        exact ⟨⟨hInv, h.sock, fun hZero => by cases hZero⟩, by simp [stepsLeft, hPoint, callLeft]⟩
      · next thread hThread =>
        split at hStep
        case isFalse => cases hStep
        next hEnded =>
        cases hStep
        refine ⟨⟨hInv, h.sock, fun hZero => by cases hZero⟩, ?_⟩
        simp [stepsLeft, hPoint, callLeft, hThread, hEnded, listenLeft]
    case joinCallback =>
      split at hStep
      · next hThread =>
        cases hStep
        exact ⟨⟨hInv, h.sock, fun hZero => by cases hZero⟩, by simp [stepsLeft, hPoint, callLeft]⟩
      · next thread hThread =>
        rw [if_neg Bool.false_ne_true] at hStep
        split at hStep
        case isFalse => cases hStep
        next hEnded =>
        cases hStep
        refine ⟨⟨hInv, h.sock, fun hZero => by cases hZero⟩, ?_⟩
        simp [stepsLeft, hPoint, callLeft, hThread, hEnded, callbackLeft]
    case setInactive =>
      have hThread : s.callbackThread = none := by
        have hDone := h.inv.call
        rw [hPoint] at hDone
        exact hDone.2.2
      cases hStep
      refine ⟨⟨hInv, h.sock, fun _ => ⟨rfl, ?_, hThread⟩⟩, ?_⟩
      · simp only [returned, Option.elim_none]
        split
        · exact .inr rfl
        · exact .inl rfl
      · simp only [stepsLeft, returned, hPoint, Option.elim_none]
        split <;> simp [callLeft]
  case idle | destroyed => cases hStep
  all_goals
    obtain ⟨-, hFalse | hFalse, -⟩ := hCall rfl <;> cases hFalse

/-- The thread of `receiveCallback` goes on while `close` waits for it. -/
theorem Closing.setReceiving (h : Closing s) {thread thread' : Receiving} {status : SocketStatus}
    {inside : Bool} (hThread : s.callbackThread = some thread)
    (hInv : Inv { s with
      status := status, callbackThread := some thread', closedInside := inside })
    (hLeft : callbackLeft thread'.point < callbackLeft thread.point) :
    Closing { s with
        status := status, callbackThread := some thread', closedInside := inside } ∧
      stepsLeft { s with
        status := status, callbackThread := some thread', closedInside := inside } <
          stepsLeft s := by
  refine ⟨⟨hInv, h.sock, fun hZero => ?_⟩, ?_⟩
  · have hNone := (h.call hZero).2.2
    rw [hThread] at hNone
    cases hNone
  · simpa [stepsLeft, hThread] using hLeft

/-- Behind the end of the descriptor every step brings `close` closer to its end. -/
theorem Closing.step (h : Closing s) {act : LifecycleAct} (hEnding : ending act = true)
    (hStep : s.step act = some s') : Closing s' ∧ stepsLeft s' < stepsLeft s := by
  have hInv := h.inv.step hStep
  cases act with
  | listen | connect | receiveCallback | close | destroy | workerEnds | acceptCallback =>
    cases hEnding
  | owner => exact h.ownerStep hStep
  | accept clientSock =>
    cases clientSock with
    | ok clientSock => cases hEnding
    | error errno =>
      rw [Lifecycle.step] at hStep
      split at hStep
      · cases hStep
      next thread hThread =>
      obtain ⟨hPoint, hStep⟩ := Option.ite_none_right_eq_some.mp hStep
      obtain rfl := Option.some.inj hStep
      refine ⟨⟨hInv, h.sock, h.call⟩, ?_⟩
      simp [stepsLeft, hThread, hPoint, listenLeft]
  | listener =>
    obtain ⟨thread, hThread, hMap⟩ := Option.bind_eq_some_iff.mp hStep
    obtain ⟨⟨s₁, thread'⟩, hFunc, rfl⟩ := Option.map_eq_some_iff.mp hMap
    obtain ⟨⟨waiting, rfl⟩, hLeft⟩ := listenFunc_left h.sock hFunc
    refine ⟨⟨hInv, h.sock, h.call⟩, ?_⟩
    simpa [stepsLeft, hThread] using hLeft
  | receive err buffer =>
    rw [Lifecycle.step] at hStep
    split at hStep
    · cases hStep
    next thread hThread =>
    obtain ⟨⟨hPoint, -⟩, hStep⟩ := Option.ite_none_right_eq_some.mp hStep
    obtain rfl := Option.some.inj hStep
    exact h.setReceiving hThread hInv (by rw [hPoint]; exact Nat.lt_succ_self 8)
  | closeInside =>
    rw [Lifecycle.step] at hStep
    split at hStep
    · next err calls hThread =>
      obtain ⟨-, hStep⟩ := Option.ite_none_right_eq_some.mp hStep
      obtain rfl := Option.some.inj hStep
      exact h.setReceiving hThread hInv (Nat.lt_succ_self 6)
    · cases hStep
  | callback =>
    obtain ⟨-, hStep⟩ := Option.ite_none_right_eq_some.mp hStep
    obtain ⟨thread, hThread, hMap⟩ := Option.bind_eq_some_iff.mp hStep
    obtain ⟨⟨s₁, thread'⟩, hFunc, rfl⟩ := Option.map_eq_some_iff.mp hMap
    obtain ⟨⟨status, rfl⟩, hLeft⟩ := callbackFunc_left h.inv h.sock hThread hFunc
    exact h.setReceiving hThread hInv hLeft

theorem Closing.stepAside (h : Closing s) {act : LifecycleAct} (hAside : aside act = true)
    (hStep : s.step act = some s') : Closing s' ∧ stepsLeft s' = stepsLeft s := by
  have hInv := h.inv.step hStep
  cases act with
  | workerEnds =>
    obtain ⟨-, hStep⟩ := Option.ite_none_right_eq_some.mp hStep
    obtain rfl := Option.some.inj hStep
    exact ⟨⟨hInv, h.sock, h.call⟩, rfl⟩
  | acceptCallback i =>
    obtain ⟨call, -, rfl⟩ := Option.map_eq_some_iff.mp hStep
    exact ⟨⟨hInv, h.sock, h.call⟩, rfl⟩
  | _ => cases hAside

/-- The listening thread can go on until it has ended. -/
theorem exists_listener_step {thread : Listening} (hThread : s.listenThread = some thread)
    (hRuns : thread.point ≠ .ended) : ∃ act, ending act = true ∧ (s.step act).isSome = true := by
  by_cases hAccept : thread.point = .accept
  · exact ⟨.accept (.error .EBADF), rfl, by simp [Lifecycle.step, hThread, hAccept]⟩
  · refine ⟨.listener, rfl, ?_⟩
    simp only [Lifecycle.step, hThread, Option.bind_some, Option.isSome_map, listenFunc]
    split <;> first | rfl | contradiction | (split <;> rfl)

/-- So can the thread of `receiveCallback`. -/
theorem exists_callback_step (h : Inv s) {thread : Receiving}
    (hThread : s.callbackThread = some thread) (hRuns : thread.point ≠ .ended)
    (hCall : s.call ≠ .destroyed) : ∃ act, ending act = true ∧ (s.step act).isSome = true := by
  have hListen := (h.callback thread hThread).listenThread hRuns
  by_cases hReceive : thread.point = .receive
  · exact ⟨.receive .NOT_CONNECTED [], rfl, by simp [Lifecycle.step, hThread, hReceive, hCall]⟩
  · refine ⟨.callback, rfl, ?_⟩
    simp only [Lifecycle.step, hThread, Option.bind_some, hCall, ne_eq, not_false_eq_true, if_true,
      Option.isSome_map, callbackFunc]
    split
    · rfl
    · contradiction
    · rfl
    · rfl
    · next err point hPoint =>
      rw [Option.isSome_map]
      cases point <;> simp [closeStep, hListen, hThread]
    · contradiction

/-- The thread that `close` waits for can go on, or `close` itself. -/
theorem exists_step (h : Inv s) (hCall : callLeft s.call ≠ 0) :
    ∃ act, ending act = true ∧ (s.step act).isSome = true := by
  cases hPoint : s.call with
  | closing point =>
    cases point with
    | joinListen =>
      cases hThread : s.listenThread with
      | none =>
        exact ⟨.owner, rfl,
          by simp [Lifecycle.step, Lifecycle.ownerStep, closeStep, hPoint, hThread]⟩
      | some thread =>
        by_cases hEnded : thread.point = .ended
        · exact ⟨.owner, rfl,
            by simp [Lifecycle.step, Lifecycle.ownerStep, closeStep, hPoint, hThread, hEnded]⟩
        · exact exists_listener_step hThread hEnded
    | joinCallback =>
      cases hThread : s.callbackThread with
      | none =>
        exact ⟨.owner, rfl,
          by simp [Lifecycle.step, Lifecycle.ownerStep, closeStep, hPoint, hThread]⟩
      | some thread =>
        by_cases hEnded : thread.point = .ended
        · exact ⟨.owner, rfl,
            by simp [Lifecycle.step, Lifecycle.ownerStep, closeStep, hPoint, hThread, hEnded]⟩
        · exact exists_callback_step h hThread hEnded (by rw [hPoint]; exact CallPoint.noConfusion)
    | setInactive =>
      exact ⟨.owner, rfl, by simp [Lifecycle.step, Lifecycle.ownerStep, closeStep, hPoint]⟩
    | testStatus | shutdown =>
      rw [hPoint] at hCall
      exact absurd rfl hCall
  | _ =>
    rw [hPoint] at hCall
    exact absurd rfl hCall

theorem Closing.run (h : Closing s) {acts : List LifecycleAct}
    (hActs : ∀ act ∈ acts, ending act = true ∨ aside act = true)
    (hRun : StepRun.run Lifecycle.step s acts = some s') :
    Closing s' ∧ acts.countP ending + stepsLeft s' ≤ stepsLeft s := by
  induction acts generalizing s with
  | nil =>
    obtain rfl := Option.some.inj hRun
    exact ⟨h, by simp⟩
  | cons act acts ih =>
    rw [List.forall_mem_cons] at hActs
    rw [StepRun.run_cons, Option.bind_eq_some_iff] at hRun
    obtain ⟨s₁, hFirst, hRun⟩ := hRun
    rw [List.countP_cons]
    cases hEnding : ending act with
    | true =>
      obtain ⟨hNext, hLess⟩ := h.step hEnding hFirst
      obtain ⟨hLast, hLength⟩ := ih hNext hActs.2 hRun
      refine ⟨hLast, ?_⟩
      rw [if_pos rfl]
      omega
    | false =>
      obtain ⟨hNext, hSame⟩ := h.stepAside (hActs.1.resolve_left (by simp [hEnding])) hFirst
      obtain ⟨hLast, hLength⟩ := ih hNext hActs.2 hRun
      refine ⟨hLast, ?_⟩
      rw [if_neg Bool.false_ne_true]
      omega

theorem Inv.stepsLeft_le (h : Inv s) : stepsLeft s ≤ 12 := by
  have hCall : callLeft s.call ≤ 3 := by
    unfold callLeft
    split <;> omega
  have hListen : s.listenThread.elim 0 (listenLeft ·.point) ≤ 8 := by
    cases s.listenThread with
    | none => exact Nat.zero_le 8
    | some thread =>
      dsimp only [Option.elim]
      unfold listenLeft
      split <;> omega
  have hCallback : s.callbackThread.elim 0 (callbackLeft ·.point) ≤ 9 ∧
      (s.listenThread ≠ none → s.callbackThread.elim 0 (callbackLeft ·.point) = 0) := by
    cases hThread : s.callbackThread with
    | none => exact ⟨Nat.zero_le 9, fun _ => rfl⟩
    | some thread =>
      dsimp only [Option.elim]
      constructor
      · unfold callbackLeft
        split <;> omega
      · intro hSome
        by_contra hLeft
        refine hSome ((h.callback thread hThread).listenThread fun hEnded => hLeft ?_)
        rw [hEnded]
        rfl
  rw [stepsLeft]
  by_cases hThread : s.listenThread = none
  · rw [hThread, Option.elim_none]
    omega
  · have hZero := hCallback.2 hThread
    omega

/-- Once `close` has ended the descriptor, it returns, whether the owner has called it
or the destructor behind its join of the worker: from every state that a run reaches
there, at most 12 further steps of `close`, the listening thread and the thread of
`receiveCallback` are possible, which may itself call `close` in its callback, and
when none of them is left the call has returned and the socket is inactive, without
threads. What the worker and the detached threads do meanwhile does not matter. -/
theorem close_returns {s₀ : Lifecycle} {acts more : List LifecycleAct} (h : Constructed s₀)
    (hRun : StepRun.run step s₀ acts = some s)
    (hCall : s.call = .closing .joinListen ∨ s.call = .closing .joinCallback ∨
      s.call = .closing .setInactive)
    (hActs : ∀ act ∈ more, ending act = true ∨ aside act = true)
    (hMore : StepRun.run step s more = some s') :
    more.countP ending ≤ 12 ∧
    ((∀ act, ending act = true → s'.step act = none) →
      s'.status = .INACTIVE ∧ (s'.call = .idle ∨ s'.call = .destroyed) ∧
        s'.listenThread = none ∧ s'.callbackThread = none) := by
  have hInv := run_inv h hRun
  have hClosing : Closing s := by
    have hPoint := hInv.call
    obtain hCall | hCall | hCall := hCall <;> rw [hCall] at hPoint
    · exact ⟨hInv, hPoint.1, fun hZero => by rw [hCall] at hZero; cases hZero⟩
    · exact ⟨hInv, hPoint.1, fun hZero => by rw [hCall] at hZero; cases hZero⟩
    · exact ⟨hInv, hPoint.1, fun hZero => by rw [hCall] at hZero; cases hZero⟩
  obtain ⟨hEnd, hLength⟩ := hClosing.run hActs hMore
  have hBound := hInv.stepsLeft_le
  refine ⟨by omega, fun hStuck => ?_⟩
  have hReturned : callLeft s'.call = 0 := by
    by_contra hLeft
    obtain ⟨act, hAct, hSome⟩ := exists_step hEnd.inv hLeft
    rw [hStuck act hAct] at hSome
    cases hSome
  obtain ⟨hInactive, hCall', hThread⟩ := hEnd.call hReturned
  exact ⟨hInactive, hCall', (hEnd.inv.inactive hInactive).2, hThread⟩

/-- A run in which `close` has ended the descriptor while `::accept` waits. -/
def closedRun : List LifecycleAct :=
  [.listen ⟨.ok 3, none, none, none⟩ 80 10 true, .close, .owner, .owner]

/-- The rest of that run. -/
def endRun : List LifecycleAct :=
  [.accept (.error .EBADF), .listener, .listener, .listener, .acceptCallback 0, .listener, .owner,
    .owner, .owner]

theorem close_returns_waiting :
    ∃ s s', StepRun.run step fresh closedRun = some s ∧ StepRun.run step s endRun = some s' ∧
      s.call = .closing .joinListen ∧ s'.status = .INACTIVE := by
  obtain ⟨s, hRun, hCall, hMore⟩ : ∃ s, StepRun.run step fresh closedRun = some s ∧
      s.call = .closing .joinListen ∧ StepRun.run step s endRun = some _ := ⟨_, rfl, rfl, rfl⟩
  refine ⟨s, _, hRun, hMore, hCall, ?_⟩
  refine ((close_returns (.inl rfl) hRun (.inl hCall) (by decide) hMore).2 ?_).1
  intro act hAct
  cases act <;> first | rfl | cases hAct

end Lifecycle

end clockUtils.sockets
