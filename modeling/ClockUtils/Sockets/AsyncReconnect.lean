import ClockUtils.Sockets.AsyncInvariant

namespace clockUtils.sockets

/-- How far a call of `connect` or `close` has come. -/
inductive ControlPoint where
  | idle
  /-- `connect`, before `_sock` is assigned -/
  | socket
  /-- `connect`, before `_status` is set -/
  | connecting
  /-- `connect` that has failed, before `closeSocket` -/
  | closeSocket
  /-- `close`, before `_condMutex` is locked -/
  | shutdown
  /-- `close`, before `_status` is set -/
  | setInactive
  deriving DecidableEq

/-- How far the worker has come in `writePacket` or `write`. -/
inductive WritePoint where
  | outside
  /-- before `writePacket` looks at `_status` -/
  | testPacket
  /-- before `write` looks at `_status` -/
  | testWrite
  | send
  | done
  deriving DecidableEq

/-- A `TcpSocket` with its worker. Connections are numbered in the order of their
sockets; a message carries the number of the one on which it was accepted. -/
structure TcpSession (Thread : Type) where
  writer : AsyncWriter Thread Nat
  status : SocketStatus
  /-- the connection of `_sock`, `none` for `INVALID_SOCKET` -/
  sock : Option Nat
  /-- the last connection -/
  last : Nat
  control : ControlPoint
  writing : WritePoint
  /-- what was handed to `send`, with the connection it was handed to -/
  sent : List (Message Nat × Option Nat)

/-- One step: of a call of `writePacketAsync` or `writeAsync` by any thread, of the
worker, or of the user's call of `connect` or `close`, with what the system calls
say. -/
inductive SessionAct (Thread : Type) where
  | write (t : Thread) (channel : Channel) (vec : Bytes)
  | user (t : Thread)
  | worker
  | wake
  | connect
  | close
  | control (success : Bool)

/-- The call that the worker makes. -/
def WorkPoint.entry {Dest : Type} : WorkPoint Dest → WritePoint
  | writing .packets _ _ => .testPacket
  | writing .bytes _ _ => .testWrite
  | _ => .outside

namespace TcpSession

variable {Thread : Type}

/-- `TcpSocket()` -/
def fresh : TcpSession Thread where
  writer := AsyncWriter.fresh
  status := .INACTIVE
  sock := none
  last := 0
  control := .idle
  writing := .outside
  sent := []

/-- `TcpSocket(fd)` -/
def accepted : TcpSession Thread :=
  { fresh with status := .CONNECTED, sock := some 1, last := 1 }

/-- `work`, with the calls of `writePacket` and `write`. -/
def workerStep (s : TcpSession Thread) : Option (TcpSession Thread) :=
  match s.writing with
  | .outside =>
    (s.writer.workerStep .tcp).map fun writer =>
      { s with writer := writer, writing := writer.worker.entry }
  | .testPacket =>
    some { s with writing := if s.status = .CONNECTED then .testWrite else .done }
  | .testWrite => some { s with writing := if s.status = .CONNECTED then .send else .done }
  | .send =>
    match s.writer.worker with
    | .writing _ _ tmp => some { s with sent := s.sent ++ [(tmp, s.sock)], writing := .done }
    | _ => none
  | .done =>
    (s.writer.workerStep .tcp).map fun writer => { s with writer := writer, writing := .outside }

/-- `connect` after it has found `_status` to be `INACTIVE`, and `close` after it
has found it to be something else. -/
def controlStep (s : TcpSession Thread) (success : Bool) : Option (TcpSession Thread) :=
  match s.control with
  | .idle => none
  | .socket =>
    if success then
      some { s with sock := some (s.last + 1), last := s.last + 1, control := .connecting }
    else some { s with sock := none, control := .idle }
  | .connecting =>
    if success then some { s with status := .CONNECTED, control := .idle }
    else some { s with control := .closeSocket }
  | .closeSocket =>
    if s.writer.condMutex.isNone then some { s with sock := none, control := .idle } else none
  | .shutdown =>
    if s.writer.condMutex.isNone then some { s with sock := none, control := .setInactive }
    else none
  | .setInactive => some { s with status := .INACTIVE, control := .idle }

def step [DecidableEq Thread] (s : TcpSession Thread) :
    SessionAct Thread → Option (TcpSession Thread)
  | .write t channel vec =>
    if s.status = .CONNECTED ∧ (s.writer.user t).isIdle = true then
      some { s with
        writer := { s.writer with
          user := Function.update s.writer.user t (.push channel ⟨vec, s.last⟩) } }
    else none
  | .user t => (s.writer.userStep t).map fun writer => { s with writer := writer }
  | .worker => s.workerStep
  | .wake =>
    match s.writer.worker with
    | .waiting => some { s with writer := { s.writer with worker := .woken } }
    | _ => none
  | .connect =>
    if s.control = .idle ∧ s.status = .INACTIVE then some { s with control := .socket } else none
  | .close =>
    if s.control = .idle ∧ s.status ≠ .INACTIVE then some { s with control := .shutdown } else none
  | .control success => s.controlStep success

end TcpSession

/-- The message in the hands of the worker. -/
def WorkPoint.hand {Dest : Type} : WorkPoint Dest → List (Message Dest)
  | call _ _ tmp | writing _ _ tmp => [tmp]
  | _ => []

/-- The message that a call is about to push. -/
def UserPoint.message {Dest : Type} : UserPoint Dest → List (Message Dest)
  | push _ m => [m]
  | _ => []

namespace AsyncWriter

variable {Thread Dest : Type} {s s' : AsyncWriter Thread Dest} {m : Message Dest}

/-- The message was accepted, and the worker has not returned from writing it. -/
def Held (s : AsyncWriter Thread Dest) (m : Message Dest) : Prop :=
  (∃ channel, m ∈ s.queue channel) ∨ m ∈ s.worker.hand ∨ ∃ t, m ∈ (s.user t).message

theorem hand_notified (point : WorkPoint Dest) : point.notified.hand = point.hand := by
  cases point <;> rfl

/-- The queues after the first element of one of them was removed. -/
theorem mem_of_removed {channel other : Channel} {front : Message Dest} {rest : List (Message Dest)}
    (hQueue : s.queue channel = front :: rest)
    (h : m ∈ Function.update s.queue channel rest other) : m ∈ s.queue other := by
  by_cases hOther : other = channel
  · subst hOther
    rw [Function.update_self] at h
    rw [hQueue]
    exact List.mem_cons_of_mem front h
  · rwa [Function.update_of_ne hOther] at h

/-- A step of the worker of a `TcpSocket` brings no message. -/
theorem Held.of_takeNext {channel : Channel} {finish : Bool}
    (h : Held (takeNext .tcp channel finish s) m) : Held s m := by
  unfold takeNext at h
  split at h
  · rcases h with hQueue | hHand | hUser
    · exact .inl hQueue
    · cases channel <;> cases finish <;> cases hHand
    · exact .inr (.inr hUser)
  · next front rest hQueue =>
    rcases h with ⟨other, hm⟩ | hHand | hUser
    · exact .inl ⟨other, mem_of_removed hQueue hm⟩
    · refine .inl ⟨channel, ?_⟩
      rw [hQueue, List.mem_singleton.mp hHand]
      exact List.mem_cons_self
    · exact .inr (.inr hUser)

/-- Outside of the queues only the hands of the worker matter. -/
theorem Held.of_workerMove (hMove : WorkerMove .tcp s s') (h : Held s' m) : Held s m := by
  have hKeeps : ∀ {s' : AsyncWriter Thread Dest}, Held s' m → s'.queue = s.queue →
      s'.user = s.user → (m ∈ s'.worker.hand → m ∈ s.worker.hand) → Held s m := by
    rintro s' (hQueue | hHand | hUser) hQueues hUsers hHands
    · exact .inl (by rwa [hQueues] at hQueue)
    · exact .inr (.inl (hHands hHand))
    · exact .inr (.inr (by rwa [hUsers] at hUser))
  cases hMove with
  | lock | terminate | running | noPackets | noBytes | work | wait | relock | unlock | written =>
    exact hKeeps h rfl rfl fun hHand => by cases hHand
  | next channel finish hPoint => exact h.of_takeNext
  | pass channel finish tmp hPoint => exact hKeeps h rfl rfl fun hHand => by rwa [hPoint]
  | pop channel finish front rest hPoint hQueue =>
    rcases h.of_takeNext with ⟨other, hm⟩ | hHand | hUser
    · exact .inl ⟨other, mem_of_removed hQueue hm⟩
    · rw [hPoint] at hHand
      cases hHand
    · exact .inr (.inr hUser)

section Users

variable [DecidableEq Thread] {t : Thread}

/-- A thread that has taken a step holds no message that it did not hold before. -/
theorem message_update {point : UserPoint Dest} (hPoint : m ∈ point.message → Held s m)
    (h : ∃ u, m ∈ (Function.update s.user t point u).message) : Held s m := by
  obtain ⟨u, hm⟩ := h
  by_cases hu : u = t
  · subst hu
    rw [Function.update_self] at hm
    exact hPoint hm
  · rw [Function.update_of_ne hu] at hm
    exact .inr (.inr ⟨u, hm⟩)

theorem Held.of_userMove (hMove : UserMove t s s') (h : Held s' m) : Held s m := by
  cases hMove with
  | push channel m' hPoint =>
    rcases h with ⟨other, hm⟩ | hHand | hUser
    · by_cases hOther : other = channel
      · subst hOther
        simp only [Function.update_self, List.mem_append] at hm
        rcases hm with hm | hm
        · exact .inl ⟨other, hm⟩
        · exact .inr (.inr ⟨t, by rwa [hPoint]⟩)
      · simp only [Function.update_of_ne hOther] at hm
        exact .inl ⟨other, hm⟩
    · exact .inr (.inl hHand)
    · exact message_update (fun hm => by cases hm) hUser
  | lock | unlock =>
    rcases h with hQueue | hHand | hUser
    · exact .inl hQueue
    · exact .inr (.inl hHand)
    · exact message_update (fun hm => by cases hm) hUser
  | notify =>
    rcases h with hQueue | hHand | hUser
    · exact .inl hQueue
    · rw [hand_notified] at hHand
      exact .inr (.inl hHand)
    · exact message_update (fun hm => by cases hm) hUser

theorem UserMove.hand (hMove : UserMove t s s') : s'.worker.hand = s.worker.hand := by
  cases hMove with
  | push | lock | unlock => rfl
  | notify => exact hand_notified s.worker

end Users

end AsyncWriter

namespace TcpSession

open AsyncWriter (workerStep_move userStep_move)

variable {Thread : Type}

/-- The worker and the calls have no message left. -/
def NoneHeld (w : AsyncWriter Thread Nat) : Prop :=
  w.queue .packets = [] ∧ w.queue .bytes = [] ∧ w.worker.hand = [] ∧ ∀ t, (w.user t).message = []

/-- When the step assigns a new `_sock`, the worker is not about to call `send`;
when it sets `_status` to `CONNECTED`, no message is left. -/
def Separates (s : TcpSession Thread) : SessionAct Thread → Prop
  | .control true =>
    (s.control = .socket → s.writing ≠ .send) ∧ (s.control = .connecting → NoneHeld s.writer)
  | _ => True

instance [Fintype Thread] (w : AsyncWriter Thread Nat) : Decidable (NoneHeld w) :=
  inferInstanceAs (Decidable (_ ∧ _ ∧ _ ∧ ∀ t, (w.user t).message = []))

instance [Fintype Thread] (s : TcpSession Thread) :
    (act : SessionAct Thread) → Decidable (Separates s act)
  | .control true => inferInstanceAs (Decidable ((s.control = .socket → s.writing ≠ .send) ∧
      (s.control = .connecting → NoneHeld s.writer)))
  | .control false | .write _ _ _ | .user _ | .worker | .wake | .connect | .close => isTrue trivial

theorem NoneHeld.not_held {w : AsyncWriter Thread Nat} (h : NoneHeld w) (m : Message Nat) :
    ¬ w.Held m := by
  obtain ⟨hPackets, hBytes, hHand, hUser⟩ := h
  rintro (⟨channel, hm⟩ | hm | ⟨t, hm⟩)
  · cases channel with
    | packets => simp [hPackets] at hm
    | bytes => simp [hBytes] at hm
  · simp [hHand] at hm
  · simp [hUser t] at hm

/-- What holds while no message crosses connections: those that can be sent were
accepted on the last connection. -/
structure OwnConnection (s : TcpSession Thread) : Prop where
  held : s.status = .CONNECTED → ∀ m, s.writer.Held m → m.dest = s.last
  sending : s.writing = .send → ∀ m ∈ s.writer.worker.hand, m.dest = s.last
  connecting : s.control = .socket → s.status ≠ .CONNECTED
  sock : ∀ k, s.sock = some k → k = s.last
  sent : ∀ m k, (m, some k) ∈ s.sent → k = m.dest

namespace OwnConnection

variable {s s' : TcpSession Thread}

theorem fresh : OwnConnection (fresh : TcpSession Thread) :=
  ⟨fun h => (by cases h), fun h => (by cases h), fun h => (by cases h), fun _ h => (by cases h),
    fun _ _ h => (by cases h)⟩

theorem accepted : OwnConnection (accepted : TcpSession Thread) := by
  refine ⟨fun _ m h => ?_, fun h => (by cases h), fun h => (by cases h), fun k h => ?_,
    fun _ _ h => (by cases h)⟩
  · have hNone : NoneHeld (TcpSession.accepted : TcpSession Thread).writer :=
      ⟨rfl, rfl, rfl, fun _ => rfl⟩
    exact absurd h (hNone.not_held m)
  · exact (Option.some.inj h).symm

/-- Another step of the worker or of a call, outside of `writePacket` and `write`. -/
theorem writer (h : OwnConnection s) {writer : AsyncWriter Thread Nat} {writing : WritePoint}
    (hHeld : ∀ m, writer.Held m → s.writer.Held m)
    (hSend : writing = .send → s.writing = .send ∧ writer.worker.hand = s.writer.worker.hand) :
    OwnConnection { s with writer := writer, writing := writing } := by
  refine ⟨fun hStatus m hm => h.held hStatus m (hHeld m hm), fun hWriting m hm => ?_, h.connecting,
    h.sock, h.sent⟩
  obtain ⟨hWriting, hHand⟩ := hSend hWriting
  rw [hHand] at hm
  exact h.sending hWriting m hm

theorem workerStep (h : OwnConnection s) (hStep : s.workerStep = some s') : OwnConnection s' := by
  cases hPoint : s.writing with
  | outside =>
    simp only [TcpSession.workerStep, hPoint, Option.map_eq_some_iff] at hStep
    obtain ⟨writer, hWriter, rfl⟩ := hStep
    refine h.writer (fun m hm => hm.of_workerMove (workerStep_move hWriter)) fun hEntry => ?_
    unfold WorkPoint.entry at hEntry
    split at hEntry <;> cases hEntry
  | testPacket =>
    simp only [TcpSession.workerStep, hPoint] at hStep
    cases hStep
    refine h.writer (fun m hm => hm) fun hSend => ?_
    split at hSend <;> cases hSend
  | testWrite =>
    simp only [TcpSession.workerStep, hPoint] at hStep
    cases hStep
    refine ⟨h.held, fun hSend m hm => ?_, h.connecting, h.sock, h.sent⟩
    simp only at hSend
    split at hSend
    · next hStatus => exact h.held hStatus m (.inr (.inl hm))
    · cases hSend
  | send =>
    simp only [TcpSession.workerStep, hPoint] at hStep
    split at hStep
    · next channel finish tmp hWriting =>
      cases hStep
      refine ⟨h.held, fun hSend => (by cases hSend), h.connecting, h.sock, fun m k hm => ?_⟩
      rcases List.mem_append.mp hm with hm | hm
      · exact h.sent m k hm
      · simp only [List.mem_singleton, Prod.mk.injEq] at hm
        obtain ⟨rfl, hSock⟩ := hm
        have hDest := h.sending hPoint m (by rw [hWriting]; exact List.mem_singleton_self m)
        rw [hDest]
        exact h.sock k hSock.symm
    · cases hStep
  | done =>
    simp only [TcpSession.workerStep, hPoint, Option.map_eq_some_iff] at hStep
    obtain ⟨writer, hWriter, rfl⟩ := hStep
    exact h.writer (fun m hm => hm.of_workerMove (workerStep_move hWriter)) fun hSend => by cases hSend

theorem controlStep (h : OwnConnection s) {success : Bool}
    (hSeparates : Separates s (.control success)) (hStep : s.controlStep success = some s') :
    OwnConnection s' := by
  cases hPoint : s.control with
  | idle => simp [TcpSession.controlStep, hPoint] at hStep
  | socket =>
    have hStatus := h.connecting hPoint
    cases success with
    | true =>
      simp only [TcpSession.controlStep, hPoint, if_true] at hStep
      cases hStep
      refine ⟨fun hNow => absurd hNow hStatus, fun hSend => ?_, fun hNow => (by cases hNow),
        fun k hk => (Option.some.inj hk).symm, h.sent⟩
      exact absurd hSend (hSeparates.1 hPoint)
    | false =>
      simp only [TcpSession.controlStep, hPoint, Bool.false_eq_true, if_false] at hStep
      cases hStep
      exact ⟨h.held, h.sending, fun hNow => (by cases hNow), fun k hk => (by cases hk), h.sent⟩
  | connecting =>
    cases success with
    | true =>
      simp only [TcpSession.controlStep, hPoint, if_true] at hStep
      cases hStep
      have hNone := hSeparates.2 hPoint
      exact ⟨fun _ m hm => absurd hm (hNone.not_held m), h.sending, fun hNow => (by cases hNow),
        h.sock, h.sent⟩
    | false =>
      simp only [TcpSession.controlStep, hPoint, Bool.false_eq_true, if_false] at hStep
      cases hStep
      exact ⟨h.held, h.sending, fun hNow => (by cases hNow), h.sock, h.sent⟩
  | closeSocket | shutdown =>
    simp only [TcpSession.controlStep, hPoint] at hStep
    split at hStep <;> cases hStep
    exact ⟨h.held, h.sending, fun hNow => (by cases hNow), fun k hk => (by cases hk), h.sent⟩
  | setInactive =>
    simp only [TcpSession.controlStep, hPoint] at hStep
    cases hStep
    exact ⟨fun hNow => (by cases hNow), h.sending, fun hNow => (by cases hNow), h.sock, h.sent⟩

section Users

variable [DecidableEq Thread]

/-- A new message is accepted on the last connection. -/
theorem write (h : OwnConnection s) (t : Thread) (channel : Channel) (vec : Bytes) :
    OwnConnection { s with
      writer := { s.writer with
        user := Function.update s.writer.user t (.push channel ⟨vec, s.last⟩) } } := by
  refine ⟨fun hStatus m hm => ?_, h.sending, h.connecting, h.sock, h.sent⟩
  rcases hm with hQueue | hHand | ⟨u, hm⟩
  · exact h.held hStatus m (.inl hQueue)
  · exact h.held hStatus m (.inr (.inl hHand))
  · by_cases hu : u = t
    · subst hu
      simp only [Function.update_self, UserPoint.message, List.mem_singleton] at hm
      rw [hm]
    · simp only [Function.update_of_ne hu] at hm
      exact h.held hStatus m (.inr (.inr ⟨u, hm⟩))

theorem step (h : OwnConnection s) {act : SessionAct Thread} (hSeparates : Separates s act)
    (hStep : s.step act = some s') : OwnConnection s' := by
  cases act with
  | write t channel vec =>
    simp only [TcpSession.step] at hStep
    split at hStep <;> cases hStep
    exact h.write t channel vec
  | user t =>
    simp only [TcpSession.step, Option.map_eq_some_iff] at hStep
    obtain ⟨writer, hWriter, rfl⟩ := hStep
    have hMove := userStep_move hWriter
    exact h.writer (fun m hm => hm.of_userMove hMove) fun hSend => ⟨hSend, hMove.hand⟩
  | worker => exact h.workerStep hStep
  | wake =>
    simp only [TcpSession.step] at hStep
    split at hStep
    · next hWaiting =>
      cases hStep
      refine h.writer (fun m hm => ?_) fun hSend => ⟨hSend, by rw [hWaiting]; rfl⟩
      rcases hm with hQueue | hHand | hUser
      · exact .inl hQueue
      · cases hHand
      · exact .inr (.inr hUser)
    · cases hStep
  | connect =>
    simp only [TcpSession.step] at hStep
    split at hStep <;> cases hStep
    next hGuard =>
      refine ⟨h.held, h.sending, fun _ => ?_, h.sock, h.sent⟩
      simp [hGuard.2]
  | close =>
    simp only [TcpSession.step] at hStep
    split at hStep <;> cases hStep
    exact ⟨h.held, h.sending, fun hNow => (by cases hNow), h.sock, h.sent⟩
  | control success => exact h.controlStep hSeparates hStep

end Users

end OwnConnection

/-- In every run of a `TcpSocket`, with messages from any threads, the worker and a
user who connects and closes: what `send` gets on a connection was accepted on that
connection, provided that no message is left whenever `connect` sets `_status` and
that the worker is not about to call `send` whenever `connect` assigns `_sock`. -/
theorem sends_stay_on_connection [DecidableEq Thread] {start : TcpSession Thread}
    (hStart : start = fresh ∨ start = accepted) (acts : List (SessionAct Thread))
    {s : TcpSession Thread} (hRun : StepRun.run step start acts = some s)
    (hSeparates : StepRun.Along step Separates start acts) :
    ∀ m k, (m, some k) ∈ s.sent → k = m.dest := by
  have hFirst : OwnConnection start := by
    rcases hStart with rfl | rfl
    · exact OwnConnection.fresh
    · exact OwnConnection.accepted
  have hLast : OwnConnection s :=
    StepRun.run_invariant_along (fun _ _ _ h hNow hStep => h.step hNow hStep) hRun hSeparates hFirst
  exact hLast.sent

/-- A call of `connect` that succeeds. -/
def connects : List (SessionAct Unit) :=
  [.connect, .control true, .control true]

/-- A call of `close`. -/
def closes : List (SessionAct Unit) :=
  [.close, .control true, .control true]

/-- A call of `writePacketAsync`. -/
def enqueues (vec : Bytes) : List (SessionAct Unit) :=
  [.write () .packets vec, .user (), .user (), .user (), .user ()]

/-- The worker writes the message before the socket is closed. -/
def drainedReconnect : List (SessionAct Unit) :=
  connects ++ enqueues [7] ++ List.replicate 10 .worker ++ closes ++ connects ++ enqueues [8] ++
    List.replicate 5 .worker

theorem sends_stay_on_connection_drained :
    ∃ s, StepRun.run step fresh drainedReconnect = some s ∧
      StepRun.Along step Separates fresh drainedReconnect ∧
      s.sent = [(⟨[7], 1⟩, some 1), (⟨[8], 2⟩, some 2)] ∧
      ∀ m k, (m, some k) ∈ s.sent → k = m.dest := by
  have hMap : (StepRun.run step fresh drainedReconnect).map TcpSession.sent =
      some [(⟨[7], 1⟩, some 1), (⟨[8], 2⟩, some 2)] := by decide
  have hSeparates : StepRun.Along step Separates fresh drainedReconnect := by decide
  obtain ⟨s, hRun, hSent⟩ := Option.map_eq_some_iff.mp hMap
  exact ⟨s, hRun, hSeparates, hSent,
    sends_stay_on_connection (.inl rfl) drainedReconnect hRun hSeparates⟩

/-- The worker gets to run after the socket is connected again. -/
def hastyReconnect : List (SessionAct Unit) :=
  connects ++ enqueues [7] ++ closes ++ connects ++ List.replicate 9 .worker

/-- The message that was accepted on the first connection is sent on the second one. -/
theorem send_crosses_connections :
    (StepRun.run step fresh hastyReconnect).map TcpSession.sent = some [(⟨[7], 1⟩, some 2)] := by
  decide

end TcpSession

end clockUtils.sockets
