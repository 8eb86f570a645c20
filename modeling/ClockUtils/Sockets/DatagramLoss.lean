import ClockUtils.Sockets.DatagramDelivery

namespace clockUtils.sockets

theorem packetBuffer_injective : Function.Injective packetBuffer := by
  intro str str' hEq
  have hLength := congrArg List.length hEq
  rw [length_packetBuffer, length_packetBuffer] at hLength
  simp only [packetBuffer, List.append_assoc] at hEq
  obtain ⟨-, hRest⟩ := List.append_inj hEq rfl
  exact (List.append_inj hRest (by omega)).1

namespace UdpSocket

/-- A packet that is sent as one datagram. -/
def Single (str : Bytes) : Prop :=
  str.length + 6 < MAX_PACKET_SIZE

theorem Single.length_lt {str : Bytes} (h : Single str) : str.length < 2 ^ 31 - 6 := by
  simp only [Single, MAX_PACKET_SIZE] at h
  omega

theorem Single.sendChunk {str : Bytes} (h : Single str) :
    sendChunk (packetBuffer str) 0 = packetBuffer str := by
  have hDiv : (packetBuffer str).length / MAX_PACKET_SIZE = 0 := by
    rw [length_packetBuffer]
    exact Nat.div_eq_of_lt h
  simp [UdpSocket.sendChunk, hDiv]

/-- Its datagram is sent, or `sendto` fails and nothing is. -/
theorem Single.writePacket {str : Bytes} (h : Single str) (sendto : Nat → Option Errno) :
    (fresh.writePacket sendto str).2 = [packetBuffer str] ∨
      (fresh.writePacket sendto str).2 = [] := by
  have hDiv : (packetBuffer str).length / MAX_PACKET_SIZE = 0 := by
    rw [length_packetBuffer]
    exact Nat.div_eq_of_lt h
  have hBound : fresh.bound = true := rfl
  rw [UdpSocket.writePacket, if_pos hBound, write, if_pos hBound, hDiv]
  simp only [writeLoop]
  cases sendto 0 with
  | none => exact .inl (by rw [h.sendChunk])
  | some errno => exact .inr rfl

/-- Where nothing was begun, the datagram of such a packet is the packet. -/
theorem Single.absorb {str : Bytes} (h : Single str) :
    absorb [] [] 0 (packetBuffer str) = .ok (.done .SUCCESS (some str) []) := by
  have hNonempty : packetBuffer str ≠ [] := by simp [packetBuffer]
  have hWhole : [] ++ packetBuffer str ++ [] = packetBuffer str ++ [] := rfl
  have hRound := absorb_spec [] h.length_lt hWhole (.inl rfl) fun _ => hNonempty
  rw [if_pos (by simp)] at hRound
  obtain ⟨leftover, hDone, hLeftover⟩ := hRound
  rw [List.append_nil] at hLeftover
  rw [hDone, hLeftover]

end UdpSocket

namespace DatagramNetwork

variable {Thread : Type} {s s' : DatagramNetwork Thread}

/-- Packets of one datagram each, with any results of `sendto`. -/
def single (moves : List Bytes → List Bytes → Prop) : LinkUse where
  fits := UdpSocket.Single
  sends _ := True
  moves := moves

/-- A network that loses, duplicates and reorders datagrams. -/
def unreliable : LinkUse :=
  single fun _ _ => True

/-- A network that loses and reorders datagrams. -/
def lossy : LinkUse :=
  single fun wire due => due.Subperm wire

/-- No packet is ever begun in a buffer, and the packets that were reported and the
ones on their way are among those passed on. -/
def singleLink (among : List Bytes → List Bytes → Prop) (reports : List Bytes) (buffer : Bytes)
    (wire passed : List Bytes) : Prop :=
  buffer = [] ∧ among (reports.map packetBuffer ++ wire) (passed.map packetBuffer)

/-- The datagrams on their way are the ones of packets. -/
theorem singleLink.head {among : List Bytes → List Bytes → Prop}
    (hMem : ∀ {a b}, among a b → a ⊆ b) {reports : List Bytes} {buffer d : Bytes}
    {due passed : List Bytes} (h : singleLink among reports buffer (d :: due) passed) :
    ∃ str ∈ passed, d = packetBuffer str := by
  have hIn : d ∈ passed.map packetBuffer := hMem h.2 (by simp)
  obtain ⟨str, hStr, hEq⟩ := List.mem_map.mp hIn
  exact ⟨str, hStr, hEq.symm⟩

theorem singleLink_invariant {among moves : List Bytes → List Bytes → Prop} (hNil : among [] [])
    (hMem : ∀ {a b}, among a b → a ⊆ b)
    (hSent : ∀ {a b} (c), among a b → among (a ++ c) (b ++ c))
    (hLost : ∀ {a b} (c), among a b → among a (b ++ c))
    (hMoves : ∀ {a wire due b}, among (a ++ wire) b → due ⊆ wire → moves wire due →
      among (a ++ due) b) :
    LinkInvariant (single moves) (singleLink among) where
  start := ⟨rfl, hNil⟩
  sent := by
    rintro reports buffer wire passed str sendto ⟨rfl, hAmong⟩ (hSingle : UdpSocket.Single str) -
    refine ⟨rfl, ?_⟩
    rw [List.map_append, List.map_singleton]
    obtain hOne | hNone := hSingle.writePacket sendto
    · rw [hOne, ← List.append_assoc]
      exact hSent _ hAmong
    · rw [hNone, List.append_nil]
      exact hLost _ hAmong
  arrive := by
    intro reports buffer d due passed hLink hFits
    obtain ⟨str, hStr, rfl⟩ := hLink.head hMem
    obtain ⟨rfl, hAmong⟩ := hLink
    have hSingle : UdpSocket.Single str := hFits str hStr
    refine ⟨by simp [packetBuffer], ?_, .inl ⟨str, hSingle.absorb, rfl, ?_⟩⟩
    · rw [length_packetBuffer]
      exact Nat.le_of_lt hSingle
    · simpa using hAmong
  disturb := by
    rintro reports buffer wire passed due ⟨rfl, hAmong⟩ hDue hMove
    exact ⟨rfl, hMoves hAmong hDue hMove⟩

theorem unreliable_link : LinkInvariant unreliable (singleLink (· ⊆ ·)) := by
  apply singleLink_invariant (List.Subset.refl _) id
  · intro a b c h
    exact List.append_subset.mpr
      ⟨List.subset_append_of_subset_left c h, List.subset_append_right b c⟩
  · intro a b c h
    exact List.subset_append_of_subset_left c h
  · intro a wire due b h hDue _
    obtain ⟨hReports, hWire⟩ := List.append_subset.mp h
    exact List.append_subset.mpr ⟨hReports, List.Subset.trans hDue hWire⟩

theorem lossy_link : LinkInvariant lossy (singleLink List.Subperm) := by
  apply singleLink_invariant (List.Subperm.refl _) List.Subperm.subset
  · intro a b c h
    exact (List.subperm_append_right c).mpr h
  · intro a b c h
    exact h.trans (List.prefix_append b c).sublist.subperm
  · intro a wire due b h _ hMove
    exact ((List.subperm_append_left a).mpr hMove).trans h

variable [DecidableEq Thread] [Fintype Thread]

/-- What the next datagram does where no packet is ever begun in a buffer. -/
theorem Inv.reports_next (h : Inv unreliable (singleLink (· ⊆ ·)) s) {p q : Peer}
    (hStep : s.step (.arrive p q) = some s') :
    ∃ str ∈ s.enqueued p q, (s'.receiver q).point = .running ∧
      (s'.receiver q).calls = (s.receiver q).calls ++ [⟨str, some p, .SUCCESS⟩] := by
  rw [DatagramNetwork.step] at hStep
  split at hStep <;> cases hStep
  next d due hPoint hWire =>
  have hLink := (h.kept q).link p
  rw [hWire] at hLink
  obtain ⟨str, hStr, rfl⟩ := hLink.head id
  have hSingle : UdpSocket.Single str := h.fits_passed p q str hStr
  have hRecv : (s.receiver q).recvfrom (.datagram p (packetBuffer str)) =
      (s.receiver q).round p (.ok (.done .SUCCESS (some str) [])) := by
    rw [DatagramReceiver.recvfrom_datagram _ _ (by simp [packetBuffer]), hLink.1, hSingle.absorb]
    rw [length_packetBuffer]
    exact Nat.le_of_lt hSingle
  refine ⟨str, (h.passed_prefix p q).subset hStr, ?_, ?_⟩
  · simp [setReceiver, hRecv, DatagramReceiver.round]
  · simp [setReceiver, hRecv, DatagramReceiver.round]

/-- Packets of one datagram each, on a network that may lose, duplicate and reorder them,
with any failures of `sendto` and `recvfrom`: every callback reports as a packet of a sender
only what was enqueued there for it; no call is undefined, each datagram that arrives is
reported at once and without an error, also behind an error of `recvfrom`; and where the
network does not duplicate datagrams, no packet is reported more often than it was enqueued.
A frame of exactly `MAX_PACKET_SIZE` bytes is no such packet, since an empty datagram
follows it. -/
theorem single_packets_survive {acts : List (NetworkAct Thread)}
    (hRun : StepRun.run step fresh acts = some s)
    (hAllowed : StepRun.Along step (Allowed unreliable) fresh acts) (q : Peer) :
    (s.receiver q).EndsOnError ∧
      (∀ p, s.reported p q ⊆ s.enqueued p q) ∧
      (∀ p s', s.step (.arrive p q) = some s' →
        ∃ str ∈ s.enqueued p q, (s'.receiver q).point = .running ∧
          (s'.receiver q).calls = (s.receiver q).calls ++ [⟨str, some p, .SUCCESS⟩]) ∧
      (StepRun.Along step (Allowed lossy) fresh acts →
        ∀ p, (s.reported p q).Subperm (s.enqueued p q)) := by
  have hInv := inv_of_run unreliable_link hRun hAllowed
  refine ⟨(hInv.kept q).ends, fun p => ?_, fun p s' hStep => hInv.reports_next hStep,
    fun hLossy p => ?_⟩
  · obtain ⟨-, hAmong⟩ := (hInv.kept q).link p
    intro str hStr
    have hIn : packetBuffer str ∈ (s.passed p q).map packetBuffer :=
      (List.append_subset.mp hAmong).1 (List.mem_map_of_mem hStr)
    rw [List.mem_map_of_injective packetBuffer_injective] at hIn
    exact (hInv.passed_prefix p q).subset hIn
  · have hInvLossy := inv_of_run lossy_link hRun hLossy
    obtain ⟨-, hAmong⟩ := (hInvLossy.kept q).link p
    have hPassed : (s.reported p q).Subperm (s.passed p q) := by
      rw [← List.map_subperm_map_iff packetBuffer_injective]
      exact (List.prefix_append _ _).sublist.subperm.trans hAmong
    exact hPassed.trans (hInv.passed_prefix p q).sublist.subperm

/-- The network duplicates the datagram of a packet; both arrive. -/
theorem single_packets_survive_twice :
    ∃ s, StepRun.run step fresh (oneDatagram ++
        [.disturb firstSocket secondSocket [0, 0],
          .arrive firstSocket secondSocket, .arrive firstSocket secondSocket]) = some s ∧
      (s.receiver secondSocket).reports = [(firstSocket, [1]), (firstSocket, [1])] ∧
      s.reported firstSocket secondSocket ⊆ s.enqueued firstSocket secondSocket := by
  obtain ⟨s, hRun, hReports⟩ : ∃ s, StepRun.run step fresh (oneDatagram ++
        [.disturb firstSocket secondSocket [0, 0],
          .arrive firstSocket secondSocket, .arrive firstSocket secondSocket]) = some s ∧
      (s.receiver secondSocket).reports = [(firstSocket, [1]), (firstSocket, [1])] :=
    ⟨_, rfl, rfl⟩
  have hAllowed : StepRun.Along step (Allowed unreliable) fresh (oneDatagram ++
      [.disturb firstSocket secondSocket [0, 0],
        .arrive firstSocket secondSocket, .arrive firstSocket secondSocket]) := by
    apply StepRun.along_of_forall_mem
    simp [oneDatagram, Allowed, unreliable, single, UdpSocket.Single, UdpSocket.MAX_PACKET_SIZE]
  obtain ⟨-, hAmong, -⟩ := single_packets_survive hRun hAllowed secondSocket
  exact ⟨s, hRun, hReports, hAmong firstSocket⟩

end DatagramNetwork

end clockUtils.sockets
