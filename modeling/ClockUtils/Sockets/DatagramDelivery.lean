import ClockUtils.Sockets.DatagramNetwork
import Mathlib.Data.List.Perm.Subperm

namespace clockUtils.sockets

/-- The packet and the sender that a call of the callback reports. -/
def DatagramCall.report (call : DatagramCall) : Option (Peer × Bytes) :=
  if call.error = .SUCCESS then call.peer.map fun peer => (peer, call.packet) else none

/-- The packets that the callback got. -/
def DatagramReceiver.reports (r : DatagramReceiver) : List (Peer × Bytes) :=
  r.calls.filterMap DatagramCall.report

/-- A thread that has ended has reported an error before. -/
def DatagramReceiver.EndsOnError (r : DatagramReceiver) : Prop :=
  match r.point with
  | .running => True
  | .ended => ∃ call ∈ r.calls.getLast?, call.error ≠ .SUCCESS
  | .undefined _ => False

/-- The vectors for `q`, in their order. -/
def addressed (q : Peer) (messages : List (Message Peer)) : List Bytes :=
  (messages.filter fun m => m.dest = q).map Message.vec

theorem addressed_append (q : Peer) (messages more : List (Message Peer)) :
    addressed q (messages ++ more) = addressed q messages ++ addressed q more := by
  simp [addressed]

theorem inbox_append_singleton (mixed : List (Peer × Bytes)) (p peer : Peer) (str : Bytes) :
    UdpSocket.inbox (mixed ++ [(p, str)]) peer =
      UdpSocket.inbox mixed peer ++ if p = peer then [str] else [] := by
  by_cases hSame : p = peer <;> simp [UdpSocket.inbox, hSame]

/-- Another packet is sent behind the ones that are on their way. -/
theorem UdpSocket.Pending.sent {buffer : Bytes} {wire rest : List Bytes}
    (h : Pending buffer wire rest) (str : Bytes) :
    Pending buffer (wire ++ datagrams str) (rest ++ [str]) := by
  cases h with
  | idle =>
    have hStart := Pending.start [str]
    rwa [List.flatMap_singleton] at hStart
  | partly strs hSplit hDue =>
    have hMore := Pending.partly (strs ++ [str]) hSplit hDue
    rwa [List.flatMap_append, List.flatMap_singleton, ← List.append_assoc] at hMore

/-- How the sockets are used and what the network does: the packets, the results of
`sendto` and the changes of what is on its way. -/
structure LinkUse where
  fits : Bytes → Prop
  sends : (Nat → Option Errno) → Prop
  moves : List Bytes → List Bytes → Prop

/-- What holds between two sockets, of the packets that the second one's callback got
from the first one, its buffer, the datagrams on their way and the packets passed to
`writePacket`: every step keeps it, and no datagram ends a call with an error. -/
structure LinkInvariant (use : LinkUse)
    (link : List Bytes → Bytes → List Bytes → List Bytes → Prop) : Prop where
  start : link [] [] [] []
  sent : ∀ {reports buffer wire passed str sendto}, link reports buffer wire passed →
    use.fits str → use.sends sendto →
    link reports buffer (wire ++ (UdpSocket.fresh.writePacket sendto str).2) (passed ++ [str])
  arrive : ∀ {reports buffer d due passed}, link reports buffer (d :: due) passed →
    (∀ str ∈ passed, use.fits str) →
    d ≠ [] ∧ d.length ≤ UdpSocket.MAX_PACKET_SIZE ∧
      ((∃ str, absorb buffer buffer 0 d = .ok (.done .SUCCESS (some str) []) ∧
          link (reports ++ [str]) [] due passed) ∨
        ∃ length, absorb buffer buffer 0 d = .ok (.more (buffer ++ d) length) ∧
          link reports (buffer ++ d) due passed)
  disturb : ∀ {reports buffer wire passed due}, link reports buffer wire passed →
    (∀ d ∈ due, d ∈ wire) → use.moves wire due → link reports buffer due passed

/-- A datagram that carries something and fits into the buffer of `recvfrom`. -/
theorem DatagramReceiver.recvfrom_datagram (r : DatagramReceiver) (peer : Peer) {d : Bytes}
    (hNonempty : d ≠ []) (hLength : d.length ≤ UdpSocket.MAX_PACKET_SIZE) :
    r.recvfrom (.datagram peer d) =
      r.round peer (absorb (r.socket.buffer peer) (r.socket.buffer peer) 0 d) := by
  simp only [recvfrom, UdpSocket.recvfromOnce, hNonempty, if_false,
    List.take_of_length_le hLength, ne_eq, not_true_eq_false]

namespace DatagramNetwork

variable {Thread : Type} {s s' : DatagramNetwork Thread} {use : LinkUse}
  {link : List Bytes → Bytes → List Bytes → List Bytes → Prop}

/-- The packets for `q` that the socket `p` passed to `writePacket`. -/
def passed (s : DatagramNetwork Thread) (p q : Peer) : List Bytes :=
  addressed q ((s.writer p).passed .packets)

/-- The packets for `q` that were enqueued at the socket `p`. -/
def enqueued (s : DatagramNetwork Thread) (p q : Peer) : List Bytes :=
  addressed q ((s.writer p).enqueued .packets)

/-- The packets from `p` that the callback of `q` got. -/
def reported (s : DatagramNetwork Thread) (p q : Peer) : List Bytes :=
  UdpSocket.inbox (s.receiver q).reports p

/-- The receiver of `q`: what it has got, holds and still gets fits together, and the
errors are the ones of `recvfrom`, for which no sender is reported. -/
structure Kept (link : List Bytes → Bytes → List Bytes → List Bytes → Prop)
    (s : DatagramNetwork Thread) (q : Peer) : Prop where
  ends : (s.receiver q).EndsOnError
  errors : ∀ call ∈ (s.receiver q).calls, call.error ≠ .SUCCESS → call.peer = some UdpSocket.noPeer
  link : ∀ p, link (s.reported p q) ((s.receiver q).socket.buffer p) (s.wire p q) (s.passed p q)

/-- A message that the sockets are used for. -/
def Fits (use : LinkUse) (channel : Channel) (m : Message Peer) : Prop :=
  channel = .packets ∧ use.fits m.vec

/-- What holds in every state of a run. -/
structure Inv (use : LinkUse) (link : List Bytes → Bytes → List Bytes → List Bytes → Prop)
    (s : DatagramNetwork Thread) : Prop where
  writer : ∀ p, AsyncWriter.Inv .udp (s.writer p)
  carries : ∀ p, AsyncWriter.Carries (Fits use) (s.writer p)
  kept : ∀ q, Kept link s q

theorem fresh_inv (hLink : LinkInvariant use link) :
    Inv use link (fresh : DatagramNetwork Thread) where
  writer _ := AsyncWriter.fresh_inv
  carries _ := ⟨fun channel m hMem => (by cases hMem), fun t channel m hUser => (by cases hUser)⟩
  kept _ := ⟨trivial, fun call hMem => (by cases hMem), fun _ => hLink.start⟩

/-- Everything that is passed on is a packet of the kind that is used. -/
theorem Inv.fits_passed (h : Inv use link s) (p q : Peer) :
    ∀ str ∈ s.passed p q, use.fits str := by
  intro str hMem
  obtain ⟨m, hFilter, rfl⟩ := List.mem_map.mp hMem
  refine ((h.carries p).enqueued .packets m ?_).2
  rw [(h.writer p).flow.split]
  exact List.mem_append_left _ (List.mem_filter.mp hFilter).1

/-- The steps that the use allows. -/
def Allowed (use : LinkUse) (s : DatagramNetwork Thread) : NetworkAct Thread → Prop
  | .writer _ (.call _ channel m) _ => channel = .packets ∧ use.fits m.vec
  | .writer _ .worker sendto => use.sends sendto
  | .disturb p q places => use.moves (s.wire p q) (s.disturbed p q places)
  | _ => True

/-- A step that leaves the receiver of `q` alone. -/
theorem Kept.of_link {q : Peer} (h : Kept link s q) (hReceiver : s'.receiver q = s.receiver q)
    (hSent : ∀ p, link (s.reported p q) ((s.receiver q).socket.buffer p) (s.wire p q) (s.passed p q) →
      link (s.reported p q) ((s.receiver q).socket.buffer p) (s'.wire p q) (s'.passed p q)) :
    Kept link s' q := by
  refine ⟨?_, ?_, fun p => ?_⟩
  · rw [hReceiver]
    exact h.ends
  · rw [hReceiver]
    exact h.errors
  · rw [reported, hReceiver]
    exact hSent p (h.link p)

/-- The receivers that a step does not concern. -/
theorem Kept.of_frame {q : Peer} (h : Kept link s q) (hReceiver : s'.receiver q = s.receiver q)
    (hWriter : s'.writer = s.writer) (hWire : ∀ p, s'.wire p q = s.wire p q) : Kept link s' q := by
  refine h.of_link hReceiver fun p hHolds => ?_
  rw [passed, hWriter, hWire]
  exact hHolds

/-- The receiver of `q` behind a step. -/
theorem Kept.of_receiver {q : Peer} {r : DatagramReceiver} (hEnds : r.EndsOnError)
    (hErrors : ∀ call ∈ r.calls, call.error ≠ .SUCCESS → call.peer = some UdpSocket.noPeer)
    (hHolds : ∀ p, link (UdpSocket.inbox r.reports p) (r.socket.buffer p) (s.wire p q) (s.passed p q)) :
    Kept link (s.setReceiver q r) q := by
  refine ⟨?_, ?_, fun p => ?_⟩
  · simpa [setReceiver] using hEnds
  · simpa [setReceiver] using hErrors
  · simpa [setReceiver, reported, passed] using hHolds p

/-- A datagram of which the socket `p` is the sender is reported as the last one of a
packet, or kept. -/
theorem Kept.arrive (hLink : LinkInvariant use link) {p q : Peer} {d : Bytes} {due : List Bytes}
    (h : Kept link s q) (hFits : ∀ str ∈ s.passed p q, use.fits str)
    (hWire : s.wire p q = d :: due) :
    Kept link ((s.setWire p q due).setReceiver q ((s.receiver q).recvfrom (.datagram p d))) q := by
  have hArrive := h.link p
  rw [hWire] at hArrive
  obtain ⟨hNonempty, hLength, hRound⟩ := hLink.arrive hArrive hFits
  rw [(s.receiver q).recvfrom_datagram p hNonempty hLength]
  obtain ⟨str, hAbsorb, hNext⟩ | ⟨length, hAbsorb, hNext⟩ := hRound
  · rw [hAbsorb]
    have hReports : ((s.receiver q).round p (.ok (.done .SUCCESS (some str) []))).reports =
        (s.receiver q).reports ++ [(p, str)] := by
      simp [DatagramReceiver.round, DatagramReceiver.reports, DatagramCall.report]
    have hBuffer : ((s.receiver q).round p (.ok (.done .SUCCESS (some str) []))).socket.buffer =
        Function.update (s.receiver q).socket.buffer p [] := rfl
    refine Kept.of_receiver trivial ?_ fun other => ?_
    · simpa [DatagramReceiver.round, or_imp, forall_and] using h.errors
    · rw [hReports, hBuffer, inbox_append_singleton]
      by_cases hSame : other = p
      · subst hSame
        simpa [setWire, reported, passed] using hNext
      · simpa [setWire, reported, passed, hSame, Ne.symm hSame] using h.link other
  · rw [hAbsorb]
    refine Kept.of_receiver h.ends h.errors fun other => ?_
    by_cases hSame : other = p
    · subst hSame
      simpa [setWire, reported, passed, DatagramReceiver.round, DatagramReceiver.reports,
        UdpSocket.store] using hNext
    · simpa [setWire, reported, passed, DatagramReceiver.round, DatagramReceiver.reports,
        UdpSocket.store, hSame] using h.link other

/-- A `recvfrom` that fails is tried again, or ends the thread. -/
theorem Kept.fail {q : Peer} (h : Kept link s q) (errno : Errno) :
    Kept link (s.setReceiver q ((s.receiver q).recvfrom (.failed errno))) q := by
  by_cases hRetry : getLastError errno = .IN_PROGRESS
  · have hSame : (s.receiver q).recvfrom (.failed errno) = s.receiver q := by
      simp [DatagramReceiver.recvfrom, UdpSocket.recvfromOnce, hRetry]
    rw [hSame]
    exact Kept.of_receiver h.ends h.errors h.link
  · have hError : getLastError errno ≠ .SUCCESS := TcpSocket.getLastError_ne_success errno
    have hEnd : (s.receiver q).recvfrom (.failed errno) =
        { s.receiver q with
          point := .ended
          calls := (s.receiver q).calls ++ [⟨[], some UdpSocket.noPeer, getLastError errno⟩] } := by
      simp [DatagramReceiver.recvfrom, UdpSocket.recvfromOnce, hRetry, hError]
    rw [hEnd]
    refine Kept.of_receiver ?_ ?_ fun p => ?_
    · simpa [DatagramReceiver.EndsOnError] using hError
    · simpa [or_imp, forall_and] using h.errors
    · simpa [reported, DatagramReceiver.reports, DatagramCall.report, hError] using h.link p

variable [DecidableEq Thread] [Fintype Thread]

/-- What a step of the writing side adds for each receiver: nothing, or a packet with
the datagrams that `writePacket` sends for it. -/
theorem sentBy_cases {writer writer' : AsyncWriter Thread Peer}
    (hInv : AsyncWriter.Inv .udp writer) (hCarries : AsyncWriter.Carries (Fits use) writer)
    {act : Act Thread Peer} (hStep : writer.step .udp act = some writer')
    (sendto : Nat → Option Errno) (q : Peer) :
    (sentBy writer act sendto q = [] ∧
      addressed q (writer'.passed .packets) = addressed q (writer.passed .packets)) ∨
    ∃ str, act = .worker ∧ use.fits str ∧
      sentBy writer act sendto q = (UdpSocket.fresh.writePacket sendto str).2 ∧
      addressed q (writer'.passed .packets) = addressed q (writer.passed .packets) ++ [str] := by
  obtain ⟨channel, finish, tmp, rfl, hPoint, hPassed⟩ | ⟨hPassed, hOther⟩ :=
    AsyncWriter.step_passed hStep
  · obtain ⟨rfl, hFits⟩ := hCarries.enqueued channel tmp (hInv.call_mem hPoint)
    rw [hPassed, Function.update_self, addressed_append]
    by_cases hDest : tmp.dest = q
    · refine .inr ⟨tmp.vec, rfl, hFits, ?_, ?_⟩
      · simp only [sentBy, hPoint, hDest, if_true]
      · simp [addressed, hDest]
    · refine .inl ⟨?_, ?_⟩
      · simp only [sentBy, hPoint, hDest, if_false]
      · simp [addressed, hDest]
  · refine .inl ⟨?_, by rw [hPassed]⟩
    unfold sentBy
    split
    · next hPoint => exact absurd hPoint (hOther rfl _ _ _)
    · next hPoint => exact absurd hPoint (hOther rfl _ _ _)
    · rfl

theorem Inv.writerStep (hLink : LinkInvariant use link) (h : Inv use link s) {p : Peer}
    {act : Act Thread Peer} {sendto : Nat → Option Errno} {writer : AsyncWriter Thread Peer}
    (hAllowed : Allowed use s (.writer p act sendto))
    (hStep : (s.writer p).step .udp act = some writer) :
    Inv use link { s with
      writer := Function.update s.writer p writer
      wire := Function.update s.wire p fun q => s.wire p q ++ sentBy (s.writer p) act sendto q } := by
  have hCarries : AsyncWriter.Carries (Fits use) writer := by
    refine (h.carries p).step (fun t channel m hAct => ?_) hStep
    subst hAct
    exact hAllowed
  refine ⟨fun other => ?_, fun other => ?_, fun q => ?_⟩
  · by_cases hSame : other = p
    · subst hSame
      simpa using (h.writer other).step hStep
    · simpa [hSame] using h.writer other
  · by_cases hSame : other = p
    · subst hSame
      simpa using hCarries
    · simpa [hSame] using h.carries other
  · have hCases := sentBy_cases (h.writer p) (h.carries p) hStep sendto q
    refine (h.kept q).of_link rfl fun other hHolds => ?_
    by_cases hSame : other = p
    · subst hSame
      obtain ⟨hSent, hPassed⟩ | ⟨str, rfl, hFits, hSent, hPassed⟩ := hCases
      · simpa [passed, hPassed, hSent] using hHolds
      · simpa [passed, hPassed, hSent] using hLink.sent hHolds hFits hAllowed
    · simpa [passed, hSame] using hHolds

theorem Inv.step (hLink : LinkInvariant use link) (h : Inv use link s) {act : NetworkAct Thread}
    (hAllowed : Allowed use s act) (hStep : s.step act = some s') : Inv use link s' := by
  cases act with
  | writer p act sendto =>
    obtain ⟨writer, hWriter, rfl⟩ := Option.map_eq_some_iff.mp hStep
    exact h.writerStep hLink hAllowed hWriter
  | arrive p q =>
    rw [DatagramNetwork.step] at hStep
    split at hStep <;> cases hStep
    next d due hPoint hWire =>
    refine ⟨h.writer, h.carries, fun other => ?_⟩
    by_cases hSame : other = q
    · subst hSame
      exact (h.kept other).arrive hLink (h.fits_passed p other) hWire
    · refine (h.kept other).of_frame (by simp [setReceiver, setWire, hSame]) rfl fun p' => ?_
      by_cases hSender : p' = p
      · subst hSender
        simp [setReceiver, setWire, hSame]
      · simp [setReceiver, setWire, hSender]
  | fail q errno =>
    rw [DatagramNetwork.step] at hStep
    split at hStep <;> cases hStep
    next hPoint =>
    refine ⟨h.writer, h.carries, fun other => ?_⟩
    by_cases hSame : other = q
    · subst hSame
      exact (h.kept other).fail errno
    · exact (h.kept other).of_frame (by simp [setReceiver, hSame]) rfl fun _ => rfl
  | receiveCallback q =>
    rw [DatagramNetwork.step] at hStep
    split at hStep <;> cases hStep
    refine ⟨h.writer, h.carries, fun other => ?_⟩
    by_cases hSame : other = q
    · subst hSame
      exact Kept.of_receiver trivial (h.kept other).errors (h.kept other).link
    · exact (h.kept other).of_frame (by simp [setReceiver, hSame]) rfl fun _ => rfl
  | disturb p q places =>
    obtain rfl := Option.some.inj hStep
    have hDue : ∀ d ∈ s.disturbed p q places, d ∈ s.wire p q := by
      intro d hMem
      obtain ⟨i, -, hAt⟩ := List.mem_filterMap.mp hMem
      exact List.mem_of_getElem? hAt
    refine ⟨h.writer, h.carries, fun other => ?_⟩
    refine (h.kept other).of_link rfl fun p' hHolds => ?_
    by_cases hSender : p' = p
    · subst hSender
      by_cases hSame : other = q
      · subst hSame
        simpa [setWire, passed] using hLink.disturb hHolds hDue hAllowed
      · simpa [setWire, passed, hSame] using hHolds
    · simpa [setWire, passed, hSender] using hHolds

theorem inv_of_run (hLink : LinkInvariant use link) {acts : List (NetworkAct Thread)}
    (hRun : StepRun.run step fresh acts = some s)
    (hAllowed : StepRun.Along step (Allowed use) fresh acts) : Inv use link s :=
  StepRun.run_invariant_along (fun _ _ _ hInv hCondition hStep => hInv.step hLink hCondition hStep)
    hRun hAllowed (fresh_inv hLink)

omit [DecidableEq Thread] [Fintype Thread] in
theorem Inv.passed_prefix (h : Inv use link s) (p q : Peer) : s.passed p q <+: s.enqueued p q := by
  rw [enqueued, (h.writer p).flow.split, addressed_append]
  exact List.prefix_append _ _

/-- Packets of every length that a sender may send, no `sendto` that fails, and a
network that neither loses nor duplicates nor reorders the datagrams between two
sockets. -/
def inOrder : LinkUse where
  fits := UdpSocket.Sendable
  sends sendto := ∀ i, sendto i = none
  moves _ _ := False

theorem inOrder_link : LinkInvariant inOrder fun reports buffer wire passed =>
    ∃ rest, passed = reports ++ rest ∧ UdpSocket.Pending buffer wire rest where
  start := ⟨[], rfl, .idle⟩
  sent := by
    rintro reports buffer wire passed str sendto ⟨rest, rfl, hPending⟩ - hSendto
    obtain rfl : sendto = fun _ => none := funext hSendto
    exact ⟨rest ++ [str], List.append_assoc .., hPending.sent str⟩
  arrive := by
    rintro reports buffer d due passed ⟨rest, rfl, hPending⟩ hFits
    have hRest : ∀ str ∈ rest, UdpSocket.Sendable str :=
      fun str hMem => hFits str (List.mem_append_right _ hMem)
    obtain ⟨hNonempty, hLength, hRound⟩ := hPending.arrive hRest
    refine ⟨hNonempty, hLength, ?_⟩
    obtain ⟨str, strs, rfl, hDone, hNext⟩ | ⟨length, hMore, hNext⟩ := hRound
    · exact .inl ⟨str, hDone, strs, by simp, hNext⟩
    · exact .inr ⟨length, hMore, rest, rfl, hNext⟩
  disturb := fun _ _ hMoves => hMoves.elim

/-- Nothing goes on: neither the calls of the users nor the workers, and no datagram
that is on its way can be received. -/
def Halted (s : DatagramNetwork Thread) : Prop :=
  (∀ p, ¬ AsyncWriter.CanMove .udp (s.writer p)) ∧ ∀ p q, s.step (.arrive p q) = none

/-- From `writePacketAsync` to the callbacks of any number of sockets that send to each
other: in every run, whatever the interleaving, in which the network keeps the order between
two sockets, every callback gets from each sender the packets that were enqueued there for
it, in their order, each once and unchanged. No call of `receivePacket` is undefined, no
datagram is taken for an error, and a thread that has ended on an error of `recvfrom` and is
started again goes on where it was; when nothing goes on any more where the thread runs, all
packets have arrived. The packets are `Sendable`: one whose frame is a number of full
datagrams would be followed by an empty one, which is taken for an error. -/
theorem datagram_packets_arrive {acts : List (NetworkAct Thread)}
    (hRun : StepRun.run step fresh acts = some s)
    (hAllowed : StepRun.Along step (Allowed inOrder) fresh acts) (q : Peer) :
    (s.receiver q).EndsOnError ∧
      (∀ call ∈ (s.receiver q).calls, call.error ≠ .SUCCESS →
        call.peer = some UdpSocket.noPeer) ∧
      (∀ p, s.reported p q <+: s.enqueued p q) ∧
      ((s.receiver q).point = .running → Halted s → ∀ p, s.reported p q = s.enqueued p q) := by
  have hInv := inv_of_run inOrder_link hRun hAllowed
  have hKept := hInv.kept q
  refine ⟨hKept.ends, hKept.errors, fun p => ?_, fun hPoint hHalt p => ?_⟩
  · obtain ⟨rest, hSplit, -⟩ := hKept.link p
    exact List.IsPrefix.trans ⟨rest, hSplit.symm⟩ (hInv.passed_prefix p q)
  · obtain ⟨rest, hSplit, hPending⟩ := hKept.link p
    have hWire : s.wire p q = [] := by
      have hStep := hHalt.2 p q
      simp only [DatagramNetwork.step, hPoint] at hStep
      split at hStep
      · cases hStep
      · next hNone =>
        by_contra hSome
        obtain ⟨d, due, hCons⟩ := List.exists_cons_of_ne_nil hSome
        exact hNone d due rfl hCons
    rw [hWire] at hPending
    rw [hPending.of_nil.2, List.append_nil] at hSplit
    rw [← hSplit, passed, (hInv.writer p).passed_of_halt (hHalt.1 p), enqueued]

def firstSocket : Peer := ([49], 1)

def secondSocket : Peer := ([49], 2)

/-- A thread enqueues a packet of one byte at the first socket for the second one. -/
def oneDatagram : List (NetworkAct Bool) :=
  [.writer firstSocket (.call true .packets ⟨[1], secondSocket⟩) (fun _ => none),
    .writer firstSocket (.user true) (fun _ => none)] ++
    List.replicate 6 (.writer firstSocket .worker (fun _ => none))

/-- Before the packet arrives, the thread of the second socket ends and is started
again. -/
def restartedRun : List (NetworkAct Bool) :=
  oneDatagram ++ [.fail secondSocket .EINTR, .receiveCallback secondSocket,
    .arrive firstSocket secondSocket]

theorem datagram_packets_arrive_restarted :
    ∃ s, StepRun.run step fresh restartedRun = some s ∧
      (s.receiver secondSocket).reports = [(firstSocket, [1])] ∧
      s.reported firstSocket secondSocket <+: s.enqueued firstSocket secondSocket := by
  obtain ⟨s, hRun, hReports⟩ : ∃ s, StepRun.run step fresh restartedRun = some s ∧
      (s.receiver secondSocket).reports = [(firstSocket, [1])] := ⟨_, rfl, rfl⟩
  have hAllowed : StepRun.Along step (Allowed inOrder) fresh restartedRun := by
    apply StepRun.along_of_forall_mem
    simp [restartedRun, oneDatagram, Allowed, inOrder, UdpSocket.Sendable,
      UdpSocket.MAX_PACKET_SIZE]
  obtain ⟨-, -, hPrefix, -⟩ := datagram_packets_arrive hRun hAllowed secondSocket
  exact ⟨s, hRun, hReports, hPrefix firstSocket⟩

end DatagramNetwork

end clockUtils.sockets
