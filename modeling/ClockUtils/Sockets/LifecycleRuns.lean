import Mathlib.Data.List.Perm.Basic
import ClockUtils.Sockets.Lifecycle

namespace clockUtils.sockets

namespace ListenPoint

/-- The descriptor that the thread has in hand. -/
def pending : ListenPoint → List Descriptor
  | testResult clientSock | testSilent clientSock => clientSock.toOption.toList
  | hand clientSock => [clientSock]
  | _ => []

/-- How many sockets and errors the callback has seen and how many descriptors
were dropped, at a point of `listenFunc`. -/
def Counts (terminate acceptMultiple : Bool) (handed errors dropped : Nat) : ListenPoint → Prop
  | accept | testResult _ | report _ | hand _ =>
    errors = 0 ∧ dropped = 0 ∧ (acceptMultiple = false → handed = 0)
  | testSilent clientSock =>
    errors = 0 ∧ dropped = 0 ∧ (acceptMultiple = false → handed = 0) ∧
      (clientSock.toOption.toList ≠ [] → terminate = true)
  | closeFailed => errors = 1 ∧ dropped = 0 ∧ (acceptMultiple = false → handed = 0)
  | testAgain => errors = 0 ∧ dropped = 0 ∧ (acceptMultiple = false → handed = 1)
  | testStop | closeStopped =>
    errors = 0 ∧ dropped = 0 ∧ (acceptMultiple = false → handed = 1) ∧
      (acceptMultiple = true → terminate = true)
  | ended =>
    errors + dropped ≤ 1 ∧ (acceptMultiple = false → handed + errors + dropped ≤ 1) ∧
      (terminate = false → dropped = 0 ∧ (acceptMultiple = true → errors = 1) ∧
        (acceptMultiple = false → handed + errors = 1))

theorem Counts.terminate {acceptMultiple : Bool} {handed errors dropped : Nat}
    {point : ListenPoint} (h : point.Counts false acceptMultiple handed errors dropped) :
    point.Counts true acceptMultiple handed errors dropped := by
  cases point with
  | ended => exact ⟨h.1, h.2.1, fun hFalse => by cases hFalse⟩
  | testSilent clientSock => exact ⟨h.1, h.2.1, h.2.2.1, fun _ => rfl⟩
  | testStop | closeStopped => exact ⟨h.1, h.2.1, h.2.2.1, fun _ => rfl⟩
  | _ => exact h

end ListenPoint

/-- For what a listening thread has started threads: first for the sockets of the
descriptors that were accepted, then for the errors. -/
structure Listening.Told (terminate : Bool) (thread : Listening) (handed : List Descriptor)
    (errors : List ClockError) : Prop where
  started : thread.started = handed.map .accepted ++ errors.map .failed
  accepted : thread.accepted = handed ++ (thread.point.pending ++ thread.dropped)
  failures : ∀ error ∈ errors, error ≠ .SUCCESS
  counts : thread.point.Counts terminate thread.acceptMultiple handed.length errors.length
    thread.dropped.length

/-- At most one descriptor or error is not in the hands of a callback that got a
socket. -/
theorem Listening.Told.bounds {terminate : Bool} {thread : Listening}
    {handed : List Descriptor} {errors : List ClockError}
    (h : thread.Told terminate handed errors) :
    (thread.point.pending ++ thread.dropped).length + errors.length ≤ 1 ∧
      (thread.acceptMultiple = false →
        handed.length + (thread.point.pending ++ thread.dropped).length + errors.length ≤ 1) := by
  have hCounts := h.counts
  have hOption (clientSock : Except Errno Descriptor) : clientSock.toOption.toList.length ≤ 1 := by
    cases clientSock.toOption <;> simp
  rw [List.length_append]
  cases hPoint : thread.point with
  | testResult clientSock | testSilent clientSock =>
    have hLength := hOption clientSock
    rw [hPoint] at hCounts
    simp only [ListenPoint.Counts, ListenPoint.pending] at hCounts ⊢
    exact ⟨by omega, fun hSingle => by have := hCounts.2.2; grind⟩
  | _ =>
    rw [hPoint] at hCounts
    simp only [ListenPoint.Counts, ListenPoint.pending, List.length_nil, List.length_singleton]
      at hCounts ⊢
    exact ⟨by omega, fun hSingle => by grind⟩

def Listening.Accounted (terminate : Bool) (thread : Listening) : Prop :=
  ∃ handed errors, thread.Told terminate handed errors

theorem Listening.Accounted.terminate {thread : Listening} (h : thread.Accounted false) :
    thread.Accounted true := by
  obtain ⟨handed, errors, hTold⟩ := h
  exact ⟨handed, errors, { hTold with counts := hTold.counts.terminate }⟩

/-- A step that starts no thread and keeps what the thread has in hand. -/
theorem Listening.Told.move {terminate : Bool} {thread : Listening} {handed : List Descriptor}
    {errors : List ClockError} (h : thread.Told terminate handed errors) {point : ListenPoint}
    (hPending : point.pending = thread.point.pending)
    (hCounts : point.Counts terminate thread.acceptMultiple handed.length errors.length
      thread.dropped.length) :
    { thread with point := point }.Accounted terminate :=
  ⟨handed, errors, h.started, by rw [hPending]; exact h.accepted, h.failures, hCounts⟩

namespace Lifecycle

variable {s s' : Lifecycle} {thread thread' : Listening}

/-- `closeSocket` touches the descriptor only. -/
theorem closeSocket_eq (s : Lifecycle) :
    s.closeSocket = { s with sock := none, closed := s.closed ++ s.sock.toList } := by
  obtain ⟨sock⟩ := s
  cases sock <;> simp [closeSocket]

theorem accept_told {handed : List Descriptor} {errors : List ClockError}
    (h : thread.Told s.terminate handed errors) (hPoint : thread.point = .accept)
    (clientSock : Except Errno Descriptor) :
    { thread with
      point := .testResult clientSock
      accepted := thread.accepted ++ clientSock.toOption.toList }.Told s.terminate handed errors := by
  obtain ⟨hCalls, hAccepted, hErrors, hCounts⟩ := h
  rw [hPoint] at hAccepted hCounts
  have hDropped : thread.dropped = [] := List.eq_nil_of_length_eq_zero hCounts.2.1
  refine ⟨hCalls, ?_, hErrors, hCounts⟩
  simp [hAccepted, ListenPoint.pending, hDropped]

/-- A step of `listenFunc` keeps the account of the descriptors. -/
theorem listenFunc_accounted (hStep : s.listenFunc thread = some (s', thread'))
    (h : thread.Accounted s.terminate) : thread'.Accounted s.terminate := by
  obtain ⟨handed, errors, hTold⟩ := h
  have hCounts := hTold.counts
  have hAccepted := hTold.accepted
  unfold listenFunc startCall at hStep
  cases hPoint : thread.point <;> rw [hPoint] at hStep hAccepted hCounts
  case accept | ended => cases hStep
  case testResult clientSock =>
    cases clientSock with
    | error errno =>
      cases hStep
      refine hTold.move (by rw [hPoint]; rfl) ⟨hCounts.1, hCounts.2.1, hCounts.2.2, fun hSome => ?_⟩
      exact absurd rfl hSome
    | ok clientSock =>
      cases hStep
      cases hTerminate : s.terminate with
      | true =>
        rw [hTerminate] at hTold
        exact hTold.move (by rw [hPoint]; rfl) ⟨hCounts.1, hCounts.2.1, hCounts.2.2, fun _ => rfl⟩
      | false =>
        rw [hTerminate] at hTold
        exact hTold.move (by rw [hPoint]; rfl) hCounts
  case testSilent clientSock =>
    obtain ⟨hNoError, hNone, hSingle, hSilent⟩ := hCounts
    have hDropped : thread.dropped = [] := List.eq_nil_of_length_eq_zero hNone
    have hLength : clientSock.toOption.toList.length ≤ 1 := by
      cases clientSock.toOption <;> simp
    dsimp only at hStep
    split at hStep
    · next hTerminate =>
      cases hStep
      refine ⟨handed, errors, hTold.started, ?_, hTold.failures, ?_⟩
      · simp [hAccepted, ListenPoint.pending, hDropped]
      · simp only [ListenPoint.Counts, List.length_append, hTerminate]
        refine ⟨by omega, fun h => by have := hSingle h; omega, fun h => by cases h⟩
    · next hTerminate =>
      cases hStep
      have hPending : clientSock.toOption.toList = [] := by
        by_contra hNe
        exact hTerminate (hSilent hNe)
      exact hTold.move (by rw [hPoint]; exact hPending.symm) ⟨hNoError, hNone, hSingle⟩
  case report errno =>
    cases hStep
    have hNil : errors = [] := List.eq_nil_of_length_eq_zero hCounts.1
    subst hNil
    refine ⟨handed, [getLastError errno], ?_, hAccepted, ?_, rfl, hCounts.2⟩
    · simp [hTold.started]
    · intro error hMem
      rw [List.mem_singleton.mp hMem]
      exact TcpSocket.getLastError_ne_success errno
  case closeFailed =>
    cases hStep
    obtain ⟨hOne, hNone, hSingle⟩ := hCounts
    refine hTold.move (by rw [hPoint]; rfl) ?_
    refine ⟨by omega, fun h => by have := hSingle h; omega, fun _ => ⟨hNone, fun _ => hOne, ?_⟩⟩
    intro h
    have := hSingle h
    omega
  case hand clientSock =>
    cases hStep
    obtain ⟨hNone, hNoDrop, hSingle⟩ := hCounts
    have hNil : errors = [] := List.eq_nil_of_length_eq_zero hNone
    have hDropped : thread.dropped = [] := List.eq_nil_of_length_eq_zero hNoDrop
    subst hNil
    refine ⟨handed ++ [clientSock], [], ?_, ?_, hTold.failures, rfl, hNoDrop, ?_⟩
    · simp [hTold.started]
    · simp [hAccepted, ListenPoint.pending, hDropped]
    · intro h
      simp [List.eq_nil_of_length_eq_zero (hSingle h)]
  case testAgain =>
    cases hStep
    obtain ⟨hNone, hNoDrop, hSingle⟩ := hCounts
    refine hTold.move ?_ ?_
    · rw [hPoint]
      split <;> rfl
    · cases hMultiple : thread.acceptMultiple <;> cases hTerminate : s.terminate <;>
        simp_all [ListenPoint.Counts]
  case testStop =>
    cases hStep
    refine hTold.move ?_ ?_
    · rw [hPoint]
      split <;> rfl
    · cases hTerminate : s.terminate with
      | false =>
        rw [hTerminate] at hCounts
        exact hCounts
      | true =>
        obtain ⟨hNone, hNoDrop, hSingle, -⟩ := hCounts
        exact ⟨by omega, fun h => by have := hSingle h; omega, fun h => by cases h⟩
  case closeStopped =>
    cases hStep
    obtain ⟨hNone, hNoDrop, hSingle, hMultiple⟩ := hCounts
    refine hTold.move (by rw [hPoint]; rfl) ?_
    refine ⟨by omega, fun h => by have := hSingle h; omega, fun h => ⟨hNoDrop, fun hm => ?_, ?_⟩⟩
    · rw [hMultiple hm] at h
      cases h
    · intro hs
      have := hSingle hs
      omega

/-- A step of `listenFunc` changes nothing but the thread, or it closes the
descriptor, or it starts a thread for the callback. -/
theorem listenFunc_cases (hStep : s.listenFunc thread = some (s', thread')) :
    thread'.sock = thread.sock ∧
      ((s' = s ∨ s' = s.closeSocket) ∧ thread'.started = thread.started ∨
        ∃ call, s' = { s with waiting := s.waiting ++ [call] } ∧
          thread'.started = thread.started ++ [call]) := by
  unfold listenFunc startCall at hStep
  cases hPoint : thread.point <;> rw [hPoint] at hStep
  case accept | ended => cases hStep
  case testResult clientSock =>
    cases clientSock <;> cases hStep <;> exact ⟨rfl, .inl ⟨.inl rfl, rfl⟩⟩
  case testSilent =>
    dsimp only at hStep
    split at hStep <;> cases hStep <;> exact ⟨rfl, .inl ⟨.inl rfl, rfl⟩⟩
  case report | hand =>
    cases hStep
    exact ⟨rfl, .inr ⟨_, rfl, rfl⟩⟩
  case closeFailed | closeStopped =>
    cases hStep
    exact ⟨rfl, .inl ⟨.inr rfl, rfl⟩⟩
  case testAgain | testStop =>
    cases hStep
    exact ⟨rfl, .inl ⟨.inl rfl, rfl⟩⟩

/-- What a step of the thread of `receiveCallback` does. -/
theorem callbackFunc_cases {thread thread' : Receiving}
    (hStep : s.callbackFunc thread = some (s', thread')) :
    (s' = s ∧ thread.point = .testSock ∧ thread'.calls = thread.calls ∧
        (thread'.point = .ended ∨ thread'.point = .receive ∧ s.sock ≠ none)) ∨
      (∃ err buffer, s' = s ∧ thread.point = .report err buffer ∧
        thread' = ⟨.inCallback err, thread.calls ++ [(err, buffer)]⟩) ∨
      (∃ err, s' = s ∧ thread.point = .inCallback err ∧
        thread' = { thread with point := nextRound err }) ∨
      ∃ err point next, thread.point = .inClose err point ∧
        s.closeStep true point = some (s', next) ∧
        thread' = { thread with point := next.elim (nextRound err) (.inClose err) } := by
  unfold callbackFunc at hStep
  cases hPoint : thread.point <;> rw [hPoint] at hStep
  case testSock =>
    cases hStep
    refine .inl ⟨rfl, rfl, rfl, ?_⟩
    dsimp only
    split
    · exact .inl rfl
    · next hSock => exact .inr ⟨rfl, hSock⟩
  case receive | ended => cases hStep
  case report err buffer =>
    cases hStep
    exact .inr (.inl ⟨err, buffer, rfl, rfl, rfl⟩)
  case inCallback err =>
    cases hStep
    exact .inr (.inr (.inl ⟨err, rfl, rfl, rfl⟩))
  case inClose err point =>
    obtain ⟨⟨s₁, next⟩, hClose, hEq⟩ := Option.map_eq_some_iff.mp hStep
    cases hEq
    exact .inr (.inr (.inr ⟨err, point, next, rfl, hClose, rfl⟩))

/-- What has already happened at a point of a call of the owner. -/
def CallInv (s : Lifecycle) : CallPoint → Prop
  | .idle | .setTerminate => s.terminate = false
  | .joinPrevious =>
    s.terminate = false ∧ s.status ≠ .LISTENING ∧ (s.closedInside = false → s.status ≠ .INACTIVE)
  | .joinWorker => s.terminate = true
  | .closing .testStatus => True
  | .closing .shutdown => s.closedInside = false → s.status ≠ .INACTIVE
  | .closing .joinListen => s.sock = none ∧ (s.closedInside = false → s.status ≠ .INACTIVE)
  | .closing .joinCallback =>
    s.sock = none ∧ s.listenThread = none ∧ (s.closedInside = false → s.status ≠ .INACTIVE)
  | .closing .setInactive => s.sock = none ∧ s.listenThread = none ∧ s.callbackThread = none
  | .destroyed => s.terminate = true ∧ s.status = .INACTIVE

/-- What has already happened at a point of the thread of `receiveCallback`. -/
def CallbackInv (s : Lifecycle) : CallbackPoint → Prop
  | .ended => True
  | .inClose _ .testStatus => s.closedInside = true ∧ s.listenThread = none
  | .inClose _ .shutdown =>
    s.closedInside = true ∧ s.listenThread = none ∧ s.status ≠ .INACTIVE
  | .inClose _ _ =>
    s.closedInside = true ∧ s.listenThread = none ∧ s.status ≠ .INACTIVE ∧ s.sock = none
  | _ => s.listenThread = none

/-- The invariant of a socket with its threads. -/
structure Inv (s : Lifecycle) : Prop where
  descriptors : s.opened.Perm (s.closed ++ s.sock.toList)
  inactive : s.status = .INACTIVE → s.sock = none ∧ s.listenThread = none
  joined : s.closedInside = false → s.status = .INACTIVE → s.callbackThread = none
  listening : ∀ thread ∈ s.listenThread, s.status = .LISTENING ∧ thread.Accounted s.terminate
  own : ∀ thread ∈ s.listenThread, ∀ fd ∈ s.sock, fd = thread.sock
  listened : ∀ thread ∈ s.listened, thread.point = .ended ∧ thread.Accounted s.terminate
  calls : ((s.listened ++ s.listenThread.toList).flatMap (·.started)).Perm (s.called ++ s.waiting)
  callback : ∀ thread ∈ s.callbackThread, s.CallbackInv thread.point
  call : s.CallInv s.call

theorem fresh_inv : Inv fresh where
  descriptors := .refl _
  inactive := fun _ => ⟨rfl, rfl⟩
  joined := fun _ _ => rfl
  listening := fun thread hMem => by cases hMem
  own := fun thread hMem => by cases hMem
  listened := fun thread hMem => by cases hMem
  calls := .refl _
  callback := fun thread hMem => by cases hMem
  call := rfl

theorem accepted_inv (fd : Descriptor) : Inv (accepted fd) :=
  { fresh_inv with
    descriptors := .refl _
    inactive := fun h => by cases h
    joined := fun _ h => by cases h
    listening := fun thread hMem => by cases hMem
    own := fun thread hMem => by cases hMem
    callback := fun thread hMem => by cases hMem }

theorem CallInv.closeSocket {point : CallPoint} (h : s.CallInv point) :
    s.closeSocket.CallInv point := by
  rw [closeSocket_eq]
  cases point with
  | closing point =>
    cases point with
    | testStatus | shutdown => exact h
    | joinListen | joinCallback | setInactive => exact ⟨rfl, h.2⟩
  | _ => exact h

theorem CallbackInv.closeSocket {point : CallbackPoint} (h : s.CallbackInv point) :
    s.closeSocket.CallbackInv point := by
  rw [closeSocket_eq]
  cases point with
  | inClose err point =>
    cases point with
    | testStatus | shutdown => exact h
    | joinListen | joinCallback | setInactive => exact ⟨h.1, h.2.1, h.2.2.1, rfl⟩
  | _ => exact h

/-- `closeSocket` passes a descriptor to `::close` that was not passed to it before. -/
theorem Inv.closeSocket (h : Inv s) : Inv s.closeSocket := by
  have hCall := h.call.closeSocket
  have hCallback := fun thread hMem => (h.callback thread hMem).closeSocket
  rw [closeSocket_eq] at hCall hCallback ⊢
  refine { h with descriptors := ?_, inactive := ?_, own := ?_, callback := hCallback, call := hCall }
  · simpa using h.descriptors
  · exact fun hInactive => ⟨rfl, (h.inactive hInactive).2⟩
  · intro thread _ fd hMem
    cases hMem

/-- A thread of `receiveCallback` that runs finds no listening thread. -/
theorem CallbackInv.listenThread {point : CallbackPoint} (h : s.CallbackInv point)
    (hRuns : point ≠ .ended) : s.listenThread = none := by
  cases point with
  | ended => exact absurd rfl hRuns
  | inClose err point =>
    cases point with
    | testStatus => exact h.2
    | shutdown | joinListen | joinCallback | setInactive => exact h.2.1
  | _ => exact h

/-- The owner starts something new when all threads of `receiveCallback` have ended. -/
theorem Settled.callbackInv (hSettled : s.Settled) (hInactive : s.status = .INACTIVE)
    (s' : Lifecycle) : ∀ thread ∈ s.callbackThread, s'.CallbackInv thread.point := by
  intro thread hMem
  rw [hSettled hInactive thread hMem]
  trivial

/-- Between two calls of the owner nothing is asked of the socket but that it lives. -/
theorem Inv.idle (h : Inv s) (hIdle : s.call = .idle) {s' : Lifecycle}
    (hTerminate : s'.terminate = s.terminate) : s'.CallInv s.call := by
  have hCall := h.call
  rw [hIdle] at hCall ⊢
  exact hTerminate.trans hCall

theorem Inv.openSocket_perm (h : Inv s) (hInactive : s.status = .INACTIVE) (fd : Descriptor) :
    (s.opened ++ [fd]).Perm (s.closed ++ [fd]) := by
  have hDescriptors := h.descriptors
  rw [(h.inactive hInactive).1, Option.toList_none, List.append_nil] at hDescriptors
  exact hDescriptors.append_right [fd]

/-- `listen` and `connect` without success close what they have opened. -/
theorem Inv.reopen (h : Inv s) (hIdle : s.call = .idle) (hSettled : s.Settled)
    (hInactive : s.status = .INACTIVE) (fd : Descriptor) : Inv (s.openSocket fd).closeSocket := by
  refine { h with
    descriptors := ?_, inactive := ?_, own := ?_, callback := hSettled.callbackInv hInactive _,
    call := h.idle hIdle rfl }
  · exact (h.openSocket_perm hInactive fd).trans (by simp [openSocket, Lifecycle.closeSocket])
  · exact fun _ => ⟨rfl, (h.inactive hInactive).2⟩
  · intro thread _ fd' hMem
    cases hMem

theorem Inv.noSock (h : Inv s) (hInactive : s.status = .INACTIVE) : Inv { s with sock := none } := by
  have hSock := (h.inactive hInactive).1
  have hSame : { s with sock := none } = s := by rw [← hSock]
  rw [hSame]
  exact h

theorem Inv.listen (h : Inv s) (hIdle : s.call = .idle) (hSettled : s.Settled) (os : ListenCalls)
    (listenPort : UInt16) (maxParallelConnections : Int) (acceptMultiple : Bool) :
    Inv (s.listen os listenPort maxParallelConnections acceptMultiple).2 := by
  rw [Lifecycle.listen]
  split
  · exact h
  split
  · exact h
  split
  · exact h
  next hStatus =>
  have hInactive : s.status = .INACTIVE := by simpa using hStatus
  rw [listenOpen]
  split
  · exact h.noSock hInactive
  next fd _ =>
  split
  · exact h.reopen hIdle hSettled hInactive fd
  · exact h.reopen hIdle hSettled hInactive fd
  · exact h.reopen hIdle hSettled hInactive fd
  refine { h with
    descriptors := h.openSocket_perm hInactive fd, inactive := ?_, joined := ?_, listening := ?_,
    own := ?_, calls := ?_, callback := hSettled.callbackInv hInactive _,
    call := h.idle hIdle rfl }
  · intro hFalse
    cases hFalse
  · intro _ hFalse
    cases hFalse
  · intro thread hMem
    obtain rfl := Option.some.inj hMem
    exact ⟨rfl, [], [], rfl, rfl, fun error hError => (by cases hError), rfl, rfl, fun _ => rfl⟩
  · intro thread hMem fd' hFd
    obtain rfl := Option.some.inj hMem
    exact (Option.some.inj hFd).symm
  · have hCalls := h.calls
    rw [(h.inactive hInactive).2] at hCalls
    simpa [openSocket] using hCalls

theorem Inv.connected (h : Inv s) (hIdle : s.call = .idle) (hSettled : s.Settled)
    (hInactive : s.status = .INACTIVE) (fd : Descriptor) :
    Inv { s.openSocket fd with status := .CONNECTED } := by
  have hNoThread (thread : Listening) (hMem : thread ∈ s.listenThread) : False := by
    rw [(h.inactive hInactive).2] at hMem
    cases hMem
  refine { h with
    descriptors := h.openSocket_perm hInactive fd, inactive := ?_, joined := ?_, listening := ?_,
    own := ?_, callback := hSettled.callbackInv hInactive _, call := h.idle hIdle rfl }
  · intro hFalse
    cases hFalse
  · intro _ hFalse
    cases hFalse
  · exact fun thread hMem => (hNoThread thread hMem).elim
  · exact fun thread hMem => (hNoThread thread hMem).elim

theorem Inv.connect (h : Inv s) (hIdle : s.call = .idle) (hSettled : s.Settled)
    (os : TcpSocket.ConnectCalls) (fd : Descriptor) (remoteIP : IPv4) (remotePort : UInt16) :
    Inv (s.connect os fd remoteIP remotePort).2 := by
  rw [Lifecycle.connect]
  split
  · exact h
  split
  · exact h
  split
  · exact h
  split
  · exact h
  next hStatus =>
  have hInactive : s.status = .INACTIVE := by simpa using hStatus
  split
  · exact h.noSock hInactive
  · exact h.reopen hIdle hSettled hInactive fd
  · exact h.reopen hIdle hSettled hInactive fd
  rw [finishConnect]
  split
  · exact h.connected hIdle hSettled hInactive fd
  split
  · split
    · split
      · exact h.reopen hIdle hSettled hInactive fd
      · exact h.connected hIdle hSettled hInactive fd
    · exact h.reopen hIdle hSettled hInactive fd
  · exact h.reopen hIdle hSettled hInactive fd

theorem Inv.listenThread_eq_none (h : Inv s) (hStatus : s.status ≠ .LISTENING) :
    s.listenThread = none := by
  cases hThread : s.listenThread with
  | none => rfl
  | some thread => exact absurd (h.listening thread hThread).1 hStatus

theorem Inv.receiveCallback (h : Inv s) (hIdle : s.call = .idle) : Inv s.receiveCallback.2 := by
  rw [Lifecycle.receiveCallback]
  split
  · exact h
  next hStatus =>
  have hConnected : s.status = .CONNECTED := by simpa using hStatus
  split
  · have hCall := h.call
    rw [hIdle] at hCall
    exact { h with
      call := ⟨hCall, by rw [hConnected]; decide, fun _ => by rw [hConnected]; decide⟩ }
  · refine { h with joined := ?_, callback := ?_, call := h.idle hIdle rfl }
    · intro _ hFalse
      rw [hConnected] at hFalse
      cases hFalse
    · intro thread hMem
      obtain rfl := Option.some.inj hMem
      exact h.listenThread_eq_none (by rw [hConnected]; decide)

/-- `close` returns: to its caller, or to the destructor. -/
theorem Inv.returned (h : Inv s) (hInactive : s.status = .INACTIVE) : Inv s.returned := by
  refine { h with call := ?_ }
  show CallInv _ (if s.terminate then .destroyed else .idle)
  cases hTerminate : s.terminate with
  | true => exact ⟨hTerminate, hInactive⟩
  | false => exact hTerminate

/-- The listening thread is joined. -/
theorem Inv.joinListening (h : Inv s) (hThread : s.listenThread = some thread)
    (hEnded : thread.point = .ended) {call : CallPoint}
    (hCall : CallInv { s with listenThread := none } call) :
    Inv { s with listenThread := none, listened := s.listened ++ [thread], call := call } := by
  refine { h with
    inactive := ?_, listening := ?_, own := ?_, listened := ?_, calls := ?_, callback := ?_,
    call := hCall }
  · exact fun hInactive => ⟨(h.inactive hInactive).1, rfl⟩
  · intro thread hMem
    cases hMem
  · intro thread hMem
    cases hMem
  · exact List.forall_mem_append.mpr
      ⟨h.listened, List.forall_mem_singleton.mpr ⟨hEnded, (h.listening thread hThread).2⟩⟩
  · have hCalls := h.calls
    rw [hThread] at hCalls
    simpa using hCalls
  · intro receiving hMem
    by_cases hRuns : receiving.point = .ended
    · rw [hRuns]
      trivial
    · have hNone := (h.callback receiving hMem).listenThread hRuns
      rw [hThread] at hNone
      cases hNone

/-- The thread of `receiveCallback` is joined. -/
theorem Inv.joinReceiving (h : Inv s) (received : List Receiving) {call : CallPoint}
    (hCall : CallInv { s with callbackThread := none } call) :
    Inv { s with callbackThread := none, received := received, call := call } := by
  refine { h with joined := ?_, callback := ?_, call := hCall }
  · exact fun _ _ => rfl
  · intro thread hMem
    cases hMem

/-- A step of a `close` that the owner has called. -/
theorem Inv.closing (h : Inv s) {point : ClosePoint} (hPoint : s.call = .closing point)
    {next : Option ClosePoint} (hStep : s.closeStep false point = some (s', next)) :
    Inv (next.elim s'.returned fun point => { s' with call := .closing point }) := by
  have hCall := h.call
  rw [hPoint] at hCall
  cases point with
  | testStatus =>
    cases hStep
    split
    · next hInactive => exact h.returned hInactive
    · next hStatus => exact { h with call := fun _ => hStatus }
  | shutdown =>
    cases hStep
    have hClosed := h.closeSocket
    refine { hClosed with call := ?_ }
    show CallInv _ (.closing .joinListen)
    rw [closeSocket_eq]
    exact ⟨rfl, hCall⟩
  | joinListen =>
    rw [closeStep] at hStep
    split at hStep
    · next hThread =>
      cases hStep
      exact { h with call := ⟨hCall.1, hThread, hCall.2⟩ }
    next thread hThread =>
    obtain ⟨hEnded, hStep⟩ := Option.ite_none_right_eq_some.mp hStep
    cases hStep
    exact h.joinListening hThread hEnded ⟨hCall.1, rfl, hCall.2⟩
  | joinCallback =>
    rw [closeStep] at hStep
    split at hStep
    · next hThread =>
      cases hStep
      exact { h with call := ⟨hCall.1, hCall.2.1, hThread⟩ }
    next thread hThread =>
    rw [if_neg Bool.false_ne_true] at hStep
    obtain ⟨hEnded, hStep⟩ := Option.ite_none_right_eq_some.mp hStep
    cases hStep
    exact h.joinReceiving _ ⟨hCall.1, hCall.2.1, rfl⟩
  | setInactive =>
    cases hStep
    refine Inv.returned ?_ rfl
    refine { h with inactive := ?_, joined := ?_, listening := ?_, callback := ?_, call := ?_ }
    · exact fun _ => ⟨hCall.1, hCall.2.1⟩
    · exact fun _ _ => hCall.2.2
    · intro thread hMem
      rw [hCall.2.1] at hMem
      cases hMem
    · intro thread hMem
      rw [hCall.2.2] at hMem
      cases hMem
    · show CallInv _ s.call
      rw [hPoint]
      exact hCall

theorem Inv.ownerStep (h : Inv s) (hStep : s.ownerStep = some s') : Inv s' := by
  have hCall := h.call
  unfold Lifecycle.ownerStep at hStep
  cases hPoint : s.call <;> rw [hPoint] at hCall hStep <;> dsimp only at hStep
  case idle | destroyed => cases hStep
  case joinPrevious =>
    split at hStep
    · cases hStep
    next thread hThread =>
    obtain ⟨hEnded, hStep⟩ := Option.ite_none_right_eq_some.mp hStep
    cases hStep
    refine { h with joined := ?_, callback := ?_, call := hCall.1 }
    · exact fun hInside hFalse => absurd hFalse (hCall.2.2 hInside)
    · intro thread hMem
      obtain rfl := Option.some.inj hMem
      exact h.listenThread_eq_none hCall.2.1
  case setTerminate =>
    cases hStep
    have hListening (thread : Listening) (hThread : thread.Accounted s.terminate) :
        thread.Accounted true := by
      rw [show s.terminate = false from hCall] at hThread
      exact hThread.terminate
    exact { h with
      listening := fun thread hMem =>
        ⟨(h.listening thread hMem).1, hListening thread (h.listening thread hMem).2⟩
      listened := fun thread hMem =>
        ⟨(h.listened thread hMem).1, hListening thread (h.listened thread hMem).2⟩
      call := rfl }
  case joinWorker =>
    obtain ⟨hEnded, hStep⟩ := Option.ite_none_right_eq_some.mp hStep
    cases hStep
    exact { h with call := trivial }
  case closing point =>
    obtain ⟨⟨s₁, next⟩, hClose, rfl⟩ := Option.map_eq_some_iff.mp hStep
    exact h.closing hPoint hClose

/-- The threads do not touch what the points of the owner rely on. -/
theorem CallInv.listenThread {point : CallPoint} {thread thread' : Listening}
    (h : s.CallInv point) (hThread : s.listenThread = some thread) :
    { s with listenThread := some thread' }.CallInv point := by
  cases point with
  | closing point =>
    cases point with
    | joinCallback | setInactive => exact absurd (hThread.symm.trans h.2.1) (by simp)
    | _ => exact h
  | _ => exact h

theorem CallInv.callbackThread {point : CallPoint} {thread thread' : Receiving}
    (h : s.CallInv point) (hThread : s.callbackThread = some thread) :
    { s with callbackThread := some thread' }.CallInv point := by
  cases point with
  | closing point =>
    cases point with
    | setInactive => exact absurd (hThread.symm.trans h.2.2) (by simp)
    | _ => exact h
  | _ => exact h

/-- A `close` by the `packetCallback` may make the socket inactive at any point. -/
theorem CallInv.inactive {point : CallPoint} (h : s.CallInv point)
    (hInside : s.closedInside = true) : { s with status := .INACTIVE }.CallInv point := by
  have hNever {P : Prop} (hFalse : s.closedInside = false) : P := by
    rw [hInside] at hFalse
    cases hFalse
  cases point with
  | joinPrevious => exact ⟨h.1, SocketStatus.noConfusion, hNever⟩
  | destroyed => exact ⟨h.1, rfl⟩
  | closing point =>
    cases point with
    | shutdown => exact hNever
    | joinListen => exact ⟨h.1, hNever⟩
    | joinCallback => exact ⟨h.1, h.2.1, hNever⟩
    | _ => exact h
  | _ => exact h

theorem CallInv.closeInside {point : CallPoint} (h : s.CallInv point) :
    { s with closedInside := true }.CallInv point := by
  have hNever {P : Prop} (hFalse : true = false) : P := by cases hFalse
  cases point with
  | joinPrevious => exact ⟨h.1, h.2.1, hNever⟩
  | closing point =>
    cases point with
    | shutdown => exact hNever
    | joinListen => exact ⟨h.1, hNever⟩
    | joinCallback => exact ⟨h.1, h.2.1, hNever⟩
    | _ => exact h
  | _ => exact h

theorem Inv.setListening (h : Inv s) (hThread : s.listenThread = some thread)
    (hAccounted : thread'.Accounted s.terminate) (hSock : thread'.sock = thread.sock)
    {calls : List AcceptCall} (hStarted : thread'.started = thread.started ++ calls) :
    Inv { s with listenThread := some thread', waiting := s.waiting ++ calls } := by
  refine { h with
    inactive := ?_, listening := ?_, own := ?_, calls := ?_, callback := ?_, call := ?_ }
  · intro hInactive
    have hNone := (h.inactive hInactive).2
    rw [hThread] at hNone
    cases hNone
  · intro other hMem
    obtain rfl := Option.some.inj hMem
    exact ⟨(h.listening thread hThread).1, hAccounted⟩
  · intro other hMem fd hFd
    obtain rfl := Option.some.inj hMem
    rw [hSock]
    exact h.own thread hThread fd hFd
  · have hCalls := (h.calls).append_right calls
    rw [hThread] at hCalls
    simpa [hStarted] using hCalls
  · intro receiving hMem
    by_cases hRuns : receiving.point = .ended
    · rw [hRuns]
      trivial
    · have hNone := (h.callback receiving hMem).listenThread hRuns
      rw [hThread] at hNone
      cases hNone
  · exact h.call.listenThread hThread

theorem Inv.setReceiving {thread thread' : Receiving} (h : Inv s)
    (hThread : s.callbackThread = some thread) (hCallback : s.CallbackInv thread'.point) :
    Inv { s with callbackThread := some thread' } := by
  refine { h with joined := ?_, callback := ?_, call := h.call.callbackThread hThread }
  · intro hInside hInactive
    have hNone := h.joined hInside hInactive
    rw [hThread] at hNone
    cases hNone
  · intro other hMem
    obtain rfl := Option.some.inj hMem
    exact hCallback

/-- The `packetCallback` calls `close`. -/
theorem Inv.closeInside (h : Inv s) {err : ClockError} {calls : List (ClockError × Bytes)}
    (hThread : s.callbackThread = some ⟨.inCallback err, calls⟩) :
    Inv { s with
      callbackThread := some ⟨.inClose err .testStatus, calls⟩
      closedInside := true } := by
  have hNone := (h.callback _ hThread).listenThread (by simp)
  refine { h with joined := ?_, callback := ?_, call := ?_ }
  · intro hFalse
    cases hFalse
  · intro other hMem
    obtain rfl := Option.some.inj hMem
    exact ⟨rfl, hNone⟩
  · exact h.call.closeInside.callbackThread hThread

theorem callbackInv_nextRound (hNone : s.listenThread = none) (err : ClockError) :
    s.CallbackInv (nextRound err) := by
  rw [nextRound]
  split
  · exact hNone
  · trivial

/-- A step of a `close` that the `packetCallback` has called. Its join throws, and
the thread goes on. -/
theorem Inv.closingInside {receiving : Receiving} (h : Inv s)
    (hThread : s.callbackThread = some receiving) {err : ClockError} {point : ClosePoint}
    (hPoint : receiving.point = .inClose err point) {next : Option ClosePoint}
    (hStep : s.closeStep true point = some (s', next)) :
    Inv { s' with callbackThread := some { receiving with
      point := next.elim (nextRound err) (.inClose err) } } := by
  have hCallback := h.callback receiving hThread
  rw [hPoint] at hCallback
  have hNone := hCallback.listenThread (by simp)
  cases point with
  | testStatus =>
    cases hStep
    refine h.setReceiving hThread ?_
    dsimp only
    split
    · exact callbackInv_nextRound hNone err
    · next hStatus => exact ⟨hCallback.1, hNone, hStatus⟩
  | shutdown =>
    cases hStep
    have hClosed : s.closeSocket.callbackThread = some receiving := by
      rw [closeSocket_eq]
      exact hThread
    refine h.closeSocket.setReceiving hClosed ?_
    show CallbackInv _ (.inClose err .joinListen)
    rw [closeSocket_eq]
    exact ⟨hCallback.1, hNone, hCallback.2.2, rfl⟩
  | joinListen =>
    rw [closeStep, hNone] at hStep
    cases hStep
    exact h.setReceiving hThread hCallback
  | joinCallback =>
    rw [closeStep, hThread] at hStep
    cases hStep
    exact h.setReceiving hThread hCallback
  | setInactive =>
    cases hStep
    refine { h with inactive := ?_, joined := ?_, listening := ?_, callback := ?_, call := ?_ }
    · exact fun _ => ⟨hCallback.2.2.2, hNone⟩
    · intro hInside
      rw [hCallback.1] at hInside
      cases hInside
    · intro thread hMem
      rw [hNone] at hMem
      cases hMem
    · intro other hMem
      obtain rfl := Option.some.inj hMem
      exact callbackInv_nextRound (s := { s with status := .INACTIVE }) hNone err
    · exact (h.call.inactive hCallback.1).callbackThread hThread

theorem Inv.callbackStep {receiving receiving' : Receiving} (h : Inv s)
    (hThread : s.callbackThread = some receiving)
    (hStep : s.callbackFunc receiving = some (s', receiving')) :
    Inv { s' with callbackThread := some receiving' } := by
  have hCallback := h.callback receiving hThread
  have hNone (hRuns : receiving.point ≠ .ended) := hCallback.listenThread hRuns
  obtain ⟨rfl, hPoint, -, hNext⟩ | ⟨err, buffer, rfl, hPoint, rfl⟩ | ⟨err, rfl, hPoint, rfl⟩ |
    ⟨err, point, next, hPoint, hClose, rfl⟩ := callbackFunc_cases hStep
  · refine h.setReceiving hThread ?_
    obtain hNext | ⟨hNext, -⟩ := hNext <;> rw [hNext]
    · trivial
    · exact hNone (by simp [hPoint])
  · exact h.setReceiving hThread (hNone (by simp [hPoint]))
  · exact h.setReceiving hThread (callbackInv_nextRound (hNone (by simp [hPoint])) err)
  · exact h.closingInside hThread hPoint hClose

theorem Inv.listenerStep (h : Inv s) (hThread : s.listenThread = some thread)
    (hStep : s.listenFunc thread = some (s', thread')) :
    Inv { s' with listenThread := some thread' } := by
  have hAccounted := listenFunc_accounted hStep (h.listening thread hThread).2
  obtain ⟨hSock, ⟨rfl | rfl, hStarted⟩ | ⟨call, rfl, hStarted⟩⟩ := listenFunc_cases hStep
  · rw [← List.append_nil thread.started] at hStarted
    simpa using h.setListening hThread hAccounted hSock hStarted
  · have hClosed : s.closeSocket.listenThread = some thread := by
      rw [closeSocket_eq]
      exact hThread
    have hTerminate : s.closeSocket.terminate = s.terminate := by rw [closeSocket_eq]
    rw [← List.append_nil thread.started] at hStarted
    rw [← hTerminate] at hAccounted
    simpa using h.closeSocket.setListening hClosed hAccounted hSock hStarted
  · exact h.setListening hThread hAccounted hSock hStarted

theorem Inv.step (h : Inv s) {act : LifecycleAct} (hStep : s.step act = some s') : Inv s' := by
  cases act with
  | listen os listenPort maxParallelConnections acceptMultiple =>
    obtain ⟨⟨hIdle, hSettled⟩, hStep⟩ := Option.ite_none_right_eq_some.mp hStep
    obtain rfl := Option.some.inj hStep
    exact h.listen hIdle hSettled os listenPort maxParallelConnections acceptMultiple
  | connect os fd remoteIP remotePort =>
    obtain ⟨⟨hIdle, hSettled⟩, hStep⟩ := Option.ite_none_right_eq_some.mp hStep
    obtain rfl := Option.some.inj hStep
    exact h.connect hIdle hSettled os fd remoteIP remotePort
  | receiveCallback =>
    obtain ⟨hIdle, hStep⟩ := Option.ite_none_right_eq_some.mp hStep
    obtain rfl := Option.some.inj hStep
    exact h.receiveCallback hIdle
  | close =>
    obtain ⟨hIdle, hStep⟩ := Option.ite_none_right_eq_some.mp hStep
    obtain rfl := Option.some.inj hStep
    exact { h with call := trivial }
  | destroy =>
    obtain ⟨hIdle, hStep⟩ := Option.ite_none_right_eq_some.mp hStep
    obtain rfl := Option.some.inj hStep
    have hCall := h.call
    rw [hIdle] at hCall
    exact { h with call := hCall }
  | owner => exact h.ownerStep hStep
  | workerEnds =>
    obtain ⟨-, hStep⟩ := Option.ite_none_right_eq_some.mp hStep
    obtain rfl := Option.some.inj hStep
    exact { h with }
  | accept clientSock =>
    rw [Lifecycle.step] at hStep
    split at hStep
    · cases hStep
    next thread hThread =>
    obtain ⟨hPoint, hStep⟩ := Option.ite_none_right_eq_some.mp hStep
    obtain rfl := Option.some.inj hStep
    obtain ⟨handed, errors, hTold⟩ := (h.listening thread hThread).2
    have hAccounted := accept_told hTold hPoint clientSock
    simpa using h.setListening hThread ⟨handed, errors, hAccounted⟩ rfl (List.append_nil _).symm
  | listener =>
    obtain ⟨thread, hThread, hMap⟩ := Option.bind_eq_some_iff.mp hStep
    obtain ⟨⟨s₁, thread'⟩, hFunc, rfl⟩ := Option.map_eq_some_iff.mp hMap
    exact h.listenerStep hThread hFunc
  | acceptCallback i =>
    obtain ⟨call, hCall, rfl⟩ := Option.map_eq_some_iff.mp hStep
    obtain ⟨hLength, rfl⟩ := List.getElem?_eq_some_iff.mp hCall
    refine { h with calls := h.calls.trans ?_ }
    rw [List.append_assoc]
    exact (List.getElem_cons_eraseIdx_perm hLength).symm.append_left s.called
  | receive err buffer =>
    rw [Lifecycle.step] at hStep
    split at hStep
    · cases hStep
    next thread hThread =>
    obtain ⟨⟨hPoint, -⟩, hStep⟩ := Option.ite_none_right_eq_some.mp hStep
    obtain rfl := Option.some.inj hStep
    exact h.setReceiving hThread ((h.callback thread hThread).listenThread (by simp [hPoint]))
  | closeInside =>
    rw [Lifecycle.step] at hStep
    split at hStep
    · next err calls hThread =>
      obtain ⟨-, hStep⟩ := Option.ite_none_right_eq_some.mp hStep
      obtain rfl := Option.some.inj hStep
      exact h.closeInside hThread
    · cases hStep
  | callback =>
    obtain ⟨-, hStep⟩ := Option.ite_none_right_eq_some.mp hStep
    obtain ⟨thread, hThread, hMap⟩ := Option.bind_eq_some_iff.mp hStep
    obtain ⟨⟨s₁, thread'⟩, hFunc, rfl⟩ := Option.map_eq_some_iff.mp hMap
    exact h.callbackStep hThread hFunc

/-- A socket as one of the two constructors makes it. -/
def Constructed (s : Lifecycle) : Prop :=
  s = fresh ∨ ∃ fd, s = accepted fd

theorem Constructed.inv (h : Constructed s) : Inv s := by
  obtain rfl | ⟨fd, rfl⟩ := h
  · exact fresh_inv
  · exact accepted_inv fd

theorem run_inv {s₀ : Lifecycle} (h : Constructed s₀) {acts : List LifecycleAct}
    (hRun : StepRun.run step s₀ acts = some s) : Inv s :=
  StepRun.run_invariant (fun _ _ _ hInv hStep => hInv.step hStep) hRun h.inv

/-- In every run, whatever the operating system answers and however the threads are
interleaved, a listening thread starts one thread for each descriptor that it has
accepted, in order, and behind them at most one for an error; at most one descriptor
is not yet, or never, handed over. Each thread that was started calls the callback
once or has still to call it; in which order they do is not said, and they outlive
`close`. When `close` has joined the listening thread, every descriptor that it has
accepted was handed to a thread, and there was exactly one error unless it had
stopped behind its only connection. -/
theorem accepted_reach_callback {s₀ : Lifecycle} {acts : List LifecycleAct} (h : Constructed s₀)
    (hRun : StepRun.run step s₀ acts = some s) :
    (∀ thread ∈ s.listened ++ s.listenThread.toList,
      ∃ (handed rest : List Descriptor) (errors : List ClockError),
      thread.started = handed.map .accepted ++ errors.map .failed ∧
      thread.accepted = handed ++ rest ∧
      (∀ error ∈ errors, error ≠ .SUCCESS) ∧
      rest.length + errors.length ≤ 1 ∧
      (thread.acceptMultiple = false → handed.length + rest.length + errors.length ≤ 1)) ∧
    ((s.listened ++ s.listenThread.toList).flatMap (·.started)).Perm (s.called ++ s.waiting) ∧
    (s.terminate = false → ∀ thread ∈ s.listened, ∃ errors : List ClockError,
      thread.started = thread.accepted.map .accepted ++ errors.map .failed ∧
      (∀ error ∈ errors, error ≠ .SUCCESS) ∧
      errors.length = if thread.acceptMultiple then 1 else 1 - thread.accepted.length) := by
  have hInv := run_inv h hRun
  refine ⟨fun thread hMem => ?_, hInv.calls, fun hTerminate thread hMem => ?_⟩
  · have hAccounted : thread.Accounted s.terminate := by
      rcases List.mem_append.mp hMem with hMem | hMem
      · exact (hInv.listened thread hMem).2
      · exact (hInv.listening thread (Option.mem_toList.mp hMem)).2
    obtain ⟨handed, errors, hTold⟩ := hAccounted
    exact ⟨handed, _, errors, hTold.started, hTold.accepted, hTold.failures, hTold.bounds⟩
  · obtain ⟨hEnded, handed, errors, hStarted, hAccepted, hFailures, hCounts⟩ :=
      hInv.listened thread hMem
    rw [hEnded] at hAccepted hCounts
    obtain ⟨-, -, hRunning⟩ := hCounts
    obtain ⟨hDropped, hMultiple, hSingle⟩ := hRunning hTerminate
    have hHanded : thread.accepted = handed := by
      rw [hAccepted, List.eq_nil_of_length_eq_zero hDropped]
      exact List.append_nil handed
    refine ⟨errors, by rw [hHanded]; exact hStarted, hFailures, ?_⟩
    rw [hHanded]
    cases hAccept : thread.acceptMultiple with
    | true => exact hMultiple hAccept
    | false =>
      have := hSingle hAccept
      simp only [Bool.false_eq_true, if_false]
      omega

/-- A listening socket that accepts two connections and is closed then. The callback
is called for the error first, and not yet for the first connection. -/
def servedRun : List LifecycleAct :=
  [.listen ⟨.ok 3, none, none, none⟩ 80 10 true, .accept (.ok 7), .listener, .listener, .listener,
    .accept (.ok 8), .listener, .listener, .listener, .close, .owner, .owner,
    .accept (.error .EBADF), .listener, .listener, .listener, .listener, .owner, .owner, .owner,
    .acceptCallback 2, .acceptCallback 1]

theorem accepted_reach_callback_served :
    ∃ s, StepRun.run step fresh servedRun = some s ∧
      s.called = [.failed .INVALID_USAGE, .accepted 8] ∧ s.waiting = [.accepted 7] ∧
      (s.listened.flatMap (·.started)).Perm (s.called ++ s.waiting) ∧
      ∀ thread ∈ s.listened, thread.acceptMultiple = true →
        thread.started.length = thread.accepted.length + 1 := by
  have hRun : StepRun.run step fresh servedRun = some _ := rfl
  obtain ⟨-, hCalls, hJoined⟩ := accepted_reach_callback (.inl rfl) hRun
  refine ⟨_, hRun, rfl, rfl, hCalls, fun thread hMem hMultiple => ?_⟩
  obtain ⟨errors, hStarted, -, hLength⟩ := hJoined rfl thread hMem
  rw [hStarted, List.length_append, List.length_map, List.length_map, hLength, if_pos hMultiple]

end Lifecycle

end clockUtils.sockets
