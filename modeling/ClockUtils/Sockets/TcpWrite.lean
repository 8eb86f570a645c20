import ClockUtils.Sockets.TcpSocket
import Mathlib.Algebra.Order.BigOperators.Group.List
import Mathlib.Algebra.Order.Ring.Nat

namespace clockUtils.sockets

/-- The results of one call of `send`. -/
inductive SendEvent where
  /-- `send` returns -1 with this `errno` -/
  | failed (errno : Errno)
  /-- `send` returns the number of bytes that it has taken -/
  | accepted (count : Nat)
  deriving DecidableEq

namespace SendEvent

/-- What POSIX allows `send` to do with a message of that length: it may fail,
and when it does not it takes at least one byte, unless there is none. -/
def Allowed (length : Nat) : SendEvent → Prop
  | .failed _ => True
  | .accepted count => count ≤ length ∧ (count = 0 → length = 0)

instance (length : Nat) (event : SendEvent) : Decidable (event.Allowed length) :=
  match event with
  | .failed _ => .isTrue trivial
  | .accepted count => inferInstanceAs (Decidable (count ≤ length ∧ (count = 0 → length = 0)))

/-- The value of `int rc`, which keeps 32 bits of what `send` returns. -/
def rc : SendEvent → Int
  | .failed _ => -1
  | .accepted count => (count : Int).bmod (2 ^ 32)

/-- The value of `errno`, which is zeroed before the call. -/
def errno : SendEvent → Errno
  | .failed errno => errno
  | .accepted _ => .other

/-- The bytes of a message that `send` has taken. -/
def taken (message : Bytes) : SendEvent → Bytes
  | .failed _ => []
  | .accepted count => message.take count

theorem length_taken_le (message : Bytes) (event : SendEvent) :
    (event.taken message).length ≤ message.length := by
  cases event with
  | failed errno => simp [taken]
  | accepted count => simp [taken]

end SendEvent

/-- The calls that send before they return. -/
inductive WriteCall where
  | write (str : Bytes)
  | writePacket (str : Bytes)
  deriving DecidableEq

/-- The bytes that a call has to send: the message itself or its frame. -/
def WriteCall.message : WriteCall → Bytes
  | .write str => str
  | .writePacket str => packetBuffer str

/-- A call together with what `send` does in it. -/
structure Attempt where
  call : WriteCall
  event : SendEvent
  allowed : event.Allowed call.message.length

namespace TcpSocket

/-- The result of `write`, and the bytes that `send` has taken meanwhile. -/
def write (socket : TcpSocket) (str : Bytes) (event : SendEvent) : ClockError × Bytes :=
  if socket.status ≠ .CONNECTED then (.NOT_READY, [])
  else if event.rc = -1 then (getLastError event.errno, event.taken str)
  else if event.rc = 0 then (.NOT_CONNECTED, event.taken str)
  else (.SUCCESS, event.taken str)

def writePacket (socket : TcpSocket) (str : Bytes) (event : SendEvent) : ClockError × Bytes :=
  if socket.status ≠ .CONNECTED then (.NOT_READY, [])
  else socket.write (packetBuffer str) event

def attempt (socket : TcpSocket) (a : Attempt) : ClockError × Bytes :=
  match a.call with
  | .write str => socket.write str a.event
  | .writePacket str => socket.writePacket str a.event

/-- A sequence of calls: their results, and all bytes that `send` has taken. -/
def writes (socket : TcpSocket) : List Attempt → List ClockError × Bytes
  | [] => ([], [])
  | a :: attempts =>
    let (error, bytes) := socket.attempt a
    let (errors, rest) := socket.writes attempts
    (error :: errors, bytes ++ rest)

/-- Both calls hand their message to `send` once and judge it by `rc`. -/
theorem attempt_eq_write (socket : TcpSocket) (a : Attempt) :
    socket.attempt a = socket.write a.call.message a.event := by
  unfold attempt
  cases a.call with
  | write str => rfl
  | writePacket str =>
    simp only [writePacket, WriteCall.message]
    split
    · next hstatus => rw [write, if_pos hstatus]
    · rfl

/-- When a call succeeds, and what it has sent then. -/
theorem write_success_iff (socket : TcpSocket) (str : Bytes) (event : SendEvent) :
    (socket.write str event).1 = .SUCCESS ↔
      socket.status = .CONNECTED ∧ event.rc ≠ -1 ∧ event.rc ≠ 0 := by
  unfold write
  split
  · next h => simp [h]
  · next hconnected =>
    have hconnected := not_not.mp hconnected
    split
    · next hfailed => simp [hfailed, getLastError_ne_success]
    · next hrc =>
      split
      · next hzero => simp [hzero]
      · next hzero => simp [hconnected, hrc, hzero]

theorem write_bytes {socket : TcpSocket} (hstatus : socket.status = .CONNECTED) (str : Bytes)
    (event : SendEvent) : (socket.write str event).2 = event.taken str := by
  unfold write
  rw [if_neg (by simp [hstatus])]
  split
  · rfl
  · split <;> rfl

/-- All calls succeed on a connected socket whose `send` is never taken for a
failure. -/
theorem writes_success_iff (socket : TcpSocket) (attempts : List Attempt) :
    (∀ error ∈ (socket.writes attempts).1, error = .SUCCESS) ↔
      ∀ a ∈ attempts, socket.status = .CONNECTED ∧ a.event.rc ≠ -1 ∧ a.event.rc ≠ 0 := by
  induction attempts with
  | nil => simp [writes]
  | cons a attempts ih =>
    simp only [writes, List.forall_mem_cons, ih, attempt_eq_write, write_success_iff]

theorem writes_bytes {socket : TcpSocket} (hstatus : socket.status = .CONNECTED)
    (attempts : List Attempt) :
    (socket.writes attempts).2 = attempts.flatMap fun a => a.event.taken a.call.message := by
  induction attempts with
  | nil => rfl
  | cons a attempts ih =>
    simp only [writes, List.flatMap_cons, ih, attempt_eq_write, write_bytes hstatus]

end TcpSocket

/-- No call can make up for bytes that another one has left out: what is taken
of each message is never longer than it. -/
theorem flatMap_taken_eq_iff (attempts : List Attempt) :
    (attempts.flatMap fun a => a.event.taken a.call.message) =
        attempts.flatMap (fun a => a.call.message) ↔
      ∀ a ∈ attempts, a.event.taken a.call.message = a.call.message := by
  constructor
  · intro h
    induction attempts with
    | nil => simp
    | cons a attempts ih =>
      rw [List.flatMap_cons, List.flatMap_cons] at h
      have hrest : (attempts.flatMap fun a => a.event.taken a.call.message).length ≤
          (attempts.flatMap fun a => a.call.message).length := by
        rw [List.length_flatMap, List.length_flatMap]
        exact List.sum_le_sum fun a _ => a.event.length_taken_le a.call.message
      have hfirst := a.event.length_taken_le a.call.message
      have htotal := congrArg List.length h
      rw [List.length_append, List.length_append] at htotal
      obtain ⟨hhead, htail⟩ := List.append_inj h (by omega)
      exact List.forall_mem_cons.mpr ⟨hhead, ih htail⟩
  · intro h
    rw [List.flatMap_def, List.flatMap_def, List.map_congr_left h]

/-- `send` has taken a whole message just when it reports its whole length. -/
theorem Attempt.taken_eq_iff {a : Attempt} (hrc : a.event.rc ≠ -1) :
    a.event.taken a.call.message = a.call.message ↔
      a.event = .accepted a.call.message.length := by
  have hallowed := a.allowed
  cases hevent : a.event with
  | failed errno =>
    rw [hevent] at hrc
    exact absurd rfl hrc
  | accepted count =>
    rw [hevent] at hallowed
    have hle : count ≤ a.call.message.length := hallowed.1
    rw [SendEvent.taken, List.take_eq_self_iff, SendEvent.accepted.injEq]
    omega

/-- Success of all calls means that the complete messages were sent exactly
when no `send` is short: on a connected socket, either one of them is taken for
a failure, or each takes all bytes that it is given. -/
theorem TcpSocket.writes_complete_iff (socket : TcpSocket) (attempts : List Attempt) :
    ((∀ error ∈ (socket.writes attempts).1, error = .SUCCESS) →
        (socket.writes attempts).2 = attempts.flatMap fun a => a.call.message) ↔
      socket.status ≠ .CONNECTED ∨ (∃ a ∈ attempts, a.event.rc = -1 ∨ a.event.rc = 0) ∨
        ∀ a ∈ attempts, a.event = .accepted a.call.message.length := by
  rw [writes_success_iff]
  by_cases hstatus : socket.status = .CONNECTED
  · rw [writes_bytes hstatus, flatMap_taken_eq_iff]
    by_cases hfailed : ∃ a ∈ attempts, a.event.rc = -1 ∨ a.event.rc = 0
    · obtain ⟨a, ha, hrc⟩ := hfailed
      constructor
      · intro _
        exact .inr (.inl ⟨a, ha, hrc⟩)
      · intro _ hall
        obtain ⟨-, hne, hnonzero⟩ := hall a ha
        exact absurd hrc (by simp [hne, hnonzero])
    · have hsent : ∀ a ∈ attempts, a.event.rc ≠ -1 ∧ a.event.rc ≠ 0 := by
        simpa using hfailed
      have hsame : (∀ a ∈ attempts, a.event.taken a.call.message = a.call.message) ↔
          ∀ a ∈ attempts, a.event = .accepted a.call.message.length :=
        forall₂_congr fun a ha => Attempt.taken_eq_iff (hsent a ha).1
      constructor
      · intro h
        exact .inr (.inr (hsame.mp (h fun a ha => ⟨hstatus, hsent a ha⟩)))
      · intro h _
        exact hsame.mpr ((h.resolve_left (not_not.mpr hstatus)).resolve_left hfailed)
  · constructor
    · intro _
      exact .inl hstatus
    · intro _ hall
      cases attempts with
      | nil => rfl
      | cons a attempts => exact absurd (hall a List.mem_cons_self).1 hstatus

/-- A frame of seven bytes of which `send` takes two, and a second frame that
it takes whole: both calls succeed. -/
theorem TcpSocket.writePacket_short_send :
    ∃ attempts : List Attempt,
      (∀ error ∈ ((⟨.CONNECTED, []⟩ : TcpSocket).writes attempts).1, error = .SUCCESS) ∧
      ((⟨.CONNECTED, []⟩ : TcpSocket).writes attempts).2 ≠
        attempts.flatMap fun a => a.call.message :=
  ⟨[⟨.writePacket [120], .accepted 2, by decide⟩, ⟨.writePacket [121], .accepted 7, by decide⟩],
    by decide, by decide⟩

end clockUtils.sockets
