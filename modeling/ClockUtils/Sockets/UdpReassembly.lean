import ClockUtils.Sockets.UdpSocket
import Mathlib.Algebra.BigOperators.Group.List.Basic
import Mathlib.Algebra.Order.Ring.Nat
import Mathlib.Data.List.Nodup

namespace clockUtils.sockets

namespace UdpSocket

theorem writeLoop_none (str : Bytes) (rounds i : Nat) :
    writeLoop (fun _ => none) str rounds i =
      (.SUCCESS, (List.range' i rounds).map (sendChunk str)) := by
  induction rounds generalizing i with
  | zero => rfl
  | succ rounds ih => simp [writeLoop, ih, List.range'_succ]

/-- The datagrams that `writePacket` sends for `str` when no `sendto` fails. -/
def datagrams (str : Bytes) : List Bytes :=
  (fresh.writePacket (fun _ => none) str).2

theorem datagrams_eq (str : Bytes) :
    datagrams str = (List.range ((str.length + 6) / MAX_PACKET_SIZE + 1)).map
      (sendChunk (packetBuffer str)) := by
  have hbound : fresh.bound = true := rfl
  rw [datagrams, writePacket, if_pos hbound, write, if_pos hbound, writeLoop_none,
    length_packetBuffer, List.range_eq_range']

theorem flatten_sendChunk (str : Bytes) {n : Nat} (hn : n ≤ str.length / MAX_PACKET_SIZE) :
    ((List.range n).map (sendChunk str)).flatten = str.take (n * MAX_PACKET_SIZE) := by
  induction n with
  | zero => simp
  | succ n ih =>
    rw [List.range_succ, List.map_append, List.flatten_append, ih (by omega), List.map_singleton,
      List.flatten_singleton, sendChunk, if_pos (by omega), Nat.succ_mul, List.take_add]

/-- The `sendto` calls of `write` carry its whole buffer. -/
theorem flatten_sendChunks (str : Bytes) :
    ((List.range (str.length / MAX_PACKET_SIZE + 1)).map (sendChunk str)).flatten = str := by
  have hlast : sendChunk str (str.length / MAX_PACKET_SIZE) =
      str.drop (str.length / MAX_PACKET_SIZE * MAX_PACKET_SIZE) := by
    rw [sendChunk, if_neg (lt_irrefl _), List.take_of_length_le (by rw [List.length_drop])]
  rw [List.range_succ, List.map_append, List.flatten_append, flatten_sendChunk str le_rfl,
    List.map_singleton, List.flatten_singleton, hlast, List.take_append_drop]

/-- The datagrams of a packet are the packet. -/
theorem flatten_datagrams (str : Bytes) : (datagrams str).flatten = packetBuffer str := by
  rw [datagrams_eq, ← length_packetBuffer, flatten_sendChunks]

/-- All datagrams are full but the last one, which takes what is left. -/
theorem length_sendChunk {buf : Bytes} {i : Nat} (hi : i ≤ buf.length / MAX_PACKET_SIZE) :
    (sendChunk buf i).length =
      if i < buf.length / MAX_PACKET_SIZE then MAX_PACKET_SIZE else buf.length % MAX_PACKET_SIZE := by
  have hdiv := Nat.div_add_mod buf.length MAX_PACKET_SIZE
  rw [sendChunk, List.length_take, List.length_drop]
  split
  · next hlt =>
    have hmul := Nat.mul_le_mul_right MAX_PACKET_SIZE (show i + 1 ≤ buf.length / MAX_PACKET_SIZE from hlt)
    rw [Nat.add_mul, Nat.mul_comm (buf.length / MAX_PACKET_SIZE)] at hmul
    omega
  · next hge =>
    obtain rfl : i = buf.length / MAX_PACKET_SIZE := by omega
    rw [Nat.mul_comm]
    omega

theorem length_sendChunk_le {str : Bytes} {i : Nat} (hi : i ≤ str.length / MAX_PACKET_SIZE) :
    (sendChunk str i).length ≤ MAX_PACKET_SIZE := by
  rw [length_sendChunk hi]
  split
  · exact le_rfl
  · exact (Nat.mod_lt _ (by decide)).le

/-- No datagram exceeds the receiver's buffer, and none is empty unless the
packet ends on a full datagram. -/
theorem mem_datagrams {str d : Bytes} (hfull : (str.length + 6) % MAX_PACKET_SIZE ≠ 0)
    (hd : d ∈ datagrams str) : d ≠ [] ∧ d.length ≤ MAX_PACKET_SIZE := by
  rw [datagrams_eq, ← length_packetBuffer] at hd
  rw [← length_packetBuffer] at hfull
  obtain ⟨i, hi, rfl⟩ := List.mem_map.mp hd
  rw [List.mem_range] at hi
  have hpos : 0 < MAX_PACKET_SIZE := by decide
  have hlast : i ≤ (packetBuffer str).length / MAX_PACKET_SIZE := by omega
  refine ⟨fun hnil => ?_, length_sendChunk_le hlast⟩
  have hlength := length_sendChunk hlast
  rw [hnil, List.length_nil] at hlength
  split at hlength <;> omega

/-- The part of a mixed sequence that belongs to one sender, in order. -/
def inbox (mixed : List (Peer × Bytes)) (peer : Peer) : List Bytes :=
  (mixed.filter fun entry => entry.1 = peer).map Prod.snd

theorem inbox_cons (entry : Peer × Bytes) (mixed : List (Peer × Bytes)) (peer : Peer) :
    inbox (entry :: mixed) peer =
      if entry.1 = peer then entry.2 :: inbox mixed peer else inbox mixed peer := by
  by_cases h : entry.1 = peer <;> simp [inbox, h]

/-- The sequence of `recvfrom` results for datagrams in arrival order. -/
def arrivals (net : List (Peer × Bytes)) : List RecvFromEvent :=
  net.map fun entry => .datagram entry.1 entry.2

/-- Between two rounds the buffer of a sender holds the datagrams that have
arrived of the packet that is still incomplete, if there is one. -/
inductive Pending : Bytes → List Bytes → List Bytes → Prop where
  | idle : Pending [] [] []
  | partly {str : Bytes} {arrived due : List Bytes} (strs : List Bytes)
      (hsplit : datagrams str = arrived ++ due) (hdue : due ≠ []) :
      Pending arrived.flatten (due ++ strs.flatMap datagrams) (str :: strs)

theorem Pending.start (strs : List Bytes) : Pending [] (strs.flatMap datagrams) strs := by
  cases strs with
  | nil => exact .idle
  | cons str strs =>
    refine @Pending.partly str [] (datagrams str) strs rfl ?_
    rw [datagrams_eq]
    simp

theorem Pending.of_nil {buffer : Bytes} {strs : List Bytes} (h : Pending buffer [] strs) :
    buffer = [] ∧ strs = [] := by
  generalize htodo : [] = todo at h
  cases h with
  | idle => exact ⟨rfl, rfl⟩
  | partly strs hsplit hdue => exact absurd (List.append_eq_nil_iff.mp htodo.symm).1 hdue

/-- The packets a sender may send: shorter than the decoder's `int` allows, and
not ending on a full datagram. -/
def Sendable (str : Bytes) : Prop :=
  str.length < 2 ^ 31 - 6 ∧ (str.length + 6) % MAX_PACKET_SIZE ≠ 0

/-- A datagram of a sender either completes its packet or is kept. -/
theorem Pending.arrive {buffer d : Bytes} {due strs : List Bytes}
    (h : Pending buffer (d :: due) strs) (hstrs : ∀ str ∈ strs, Sendable str) :
    d ≠ [] ∧ d.length ≤ MAX_PACKET_SIZE ∧
      ((∃ str strs', strs = str :: strs' ∧
          absorb buffer buffer 0 d = .ok (.done .SUCCESS (some str) []) ∧ Pending [] due strs') ∨
        (∃ length, absorb buffer buffer 0 d = .ok (.more (buffer ++ d) length) ∧
          Pending (buffer ++ d) due strs)) := by
  generalize htodo : d :: due = todo at h
  cases h with
  | idle => cases htodo
  | @partly str arrived rest strs hsplit hdue =>
    obtain ⟨hlen, hfull⟩ := hstrs str (by simp)
    obtain ⟨first, rest, rfl⟩ := List.exists_cons_of_ne_nil hdue
    rw [List.cons_append, List.cons.injEq] at htodo
    obtain ⟨rfl, rfl⟩ := htodo
    have hd := mem_datagrams hfull (hsplit ▸ (by simp : d ∈ arrived ++ d :: rest))
    have hflat : arrived.flatten ++ d ++ rest.flatten = packetBuffer str ++ [] := by
      rw [List.append_nil, ← flatten_datagrams, hsplit]
      simp
    refine ⟨hd.1, hd.2, ?_⟩
    have hround := absorb_spec arrived.flatten hlen hflat (.inl rfl) (fun _ => hd.1)
    have htotal := congrArg List.length hflat
    simp only [List.length_append, List.length_nil, Nat.add_zero] at htotal
    split at hround
    · next hcomplete =>
      obtain ⟨leftover, hdone, hleftover⟩ := hround
      obtain ⟨rfl, hnil⟩ := List.append_eq_nil_iff.mp hleftover
      have hrest : rest = [] := by
        cases rest with
        | nil => rfl
        | cons e rest =>
          have he := mem_datagrams hfull (hsplit ▸ (by simp : e ∈ arrived ++ d :: e :: rest))
          simp [he.1] at hnil
      subst hrest
      exact .inl ⟨str, strs, rfl, hdone, .start strs⟩
    · next hincomplete =>
      obtain ⟨length, hmore, -⟩ := hround
      refine .inr ⟨length, hmore, ?_⟩
      have hne : rest ≠ [] := by
        rintro rfl
        simp only [List.length_append, List.flatten_nil, List.length_nil] at htotal hincomplete
        omega
      have hsplit' : datagrams str = (arrived ++ [d]) ++ rest := by simpa using hsplit
      have hnext := Pending.partly strs hsplit' hne
      simpa using hnext

/-- The whole receiver: every sender's buffer fits what is still under way from
this sender. -/
def Waiting (socket : UdpSocket) (net : List (Peer × Bytes)) (sent : Peer → List Bytes) : Prop :=
  ∀ peer, Pending (socket.buffer peer) (inbox net peer) (sent peer)

/-- Storing for one sender what fits its remaining datagrams keeps all others. -/
theorem Waiting.store {socket : UdpSocket} {net : List (Peer × Bytes)} {sent : Peer → List Bytes}
    {peer : Peer} {d buffer : Bytes} {strs : List Bytes}
    (h : Waiting socket ((peer, d) :: net) sent) (hpeer : Pending buffer (inbox net peer) strs) :
    Waiting (socket.store peer buffer) net (Function.update sent peer strs) := by
  intro other
  by_cases hsame : other = peer
  · subst hsame
    simpa [UdpSocket.store] using hpeer
  · have hother := h other
    rw [inbox_cons, if_neg (Ne.symm hsame)] at hother
    simpa [UdpSocket.store, hsame] using hother

/-- One call: as long as datagrams are under way it returns the next packet of
the sender whose packet is complete first. -/
theorem receivePacket_spec {socket : UdpSocket} (hbound : socket.bound = true)
    {net : List (Peer × Bytes)} {sent : Peer → List Bytes} (h : Waiting socket net sent)
    (hsent : ∀ peer, ∀ str ∈ sent peer, Sendable str) (hnet : net ≠ []) :
    ∃ peer str strs socket' net', sent peer = str :: strs ∧
      receivePacket socket (arrivals net) =
        .ok (some ⟨.SUCCESS, some str, some peer, socket', arrivals net'⟩) ∧
      socket'.bound = true ∧ net'.length < net.length ∧
      Waiting socket' net' (Function.update sent peer strs) := by
  induction net generalizing socket with
  | nil => exact absurd rfl hnet
  | cons entry net ih =>
    obtain ⟨peer, d⟩ := entry
    have hpeer := h peer
    rw [inbox_cons, if_pos rfl] at hpeer
    obtain ⟨hne, hle, hround⟩ := hpeer.arrive (hsent peer)
    have hstep : receivePacket socket (arrivals ((peer, d) :: net)) =
        absorb (socket.buffer peer) (socket.buffer peer) 0 d >>=
          afterRound socket peer (arrivals net) (fun socket => receiveLoop socket (arrivals net)) := by
      simp only [receivePacket, hbound, if_true, arrivals, List.map_cons, receiveLoop, recvfromOnce,
        hne, if_false, List.take_of_length_le hle, ne_eq, not_true_eq_false]
    rw [hstep]
    rcases hround with ⟨str, strs, hstrs, hdone, hpending⟩ | ⟨length, hmore, hpending⟩
    · exact ⟨peer, str, strs, socket.store peer [], net, hstrs, by rw [hdone]; rfl, hbound,
        by simp, h.store hpending⟩
    · have hwaiting := h.store hpending
      rw [Function.update_eq_self] at hwaiting
      have hnet' : net ≠ [] := by
        rintro rfl
        exact hne (List.append_eq_nil_iff.mp hpending.of_nil.1).2
      have hbound'' : (socket.store peer (socket.buffer peer ++ d)).bound = true := hbound
      obtain ⟨peer', str, strs, socket', net', hstrs, hrun, hbound', hlt, hnext⟩ :=
        ih hbound'' hwaiting hnet'
      refine ⟨peer', str, strs, socket', net', hstrs, ?_, hbound', ?_, hnext⟩
      · rw [receivePacket, if_pos hbound''] at hrun
        rw [hmore]
        exact hrun
      · rw [List.length_cons]
        omega

/-- Successive calls of `receivePacket` that all succeed, with the packets and
senders they report. -/
inductive Receives : UdpSocket → List RecvFromEvent → List (Peer × Bytes) → Prop where
  | nil (socket : UdpSocket) (events : List RecvFromEvent) : Receives socket events []
  | cons {socket socket' : UdpSocket} {events events' : List RecvFromEvent} {peer : Peer}
      {str : Bytes} {out : List (Peer × Bytes)}
      (hcall : receivePacket socket events =
        .ok (some ⟨.SUCCESS, some str, some peer, socket', events'⟩))
      (hrest : Receives socket' events' out) : Receives socket events ((peer, str) :: out)

theorem receives_of_waiting {socket : UdpSocket} (hbound : socket.bound = true)
    {net : List (Peer × Bytes)} {sent : Peer → List Bytes} (h : Waiting socket net sent)
    (hsent : ∀ peer, ∀ str ∈ sent peer, Sendable str) :
    ∃ out, Receives socket (arrivals net) out ∧ ∀ peer, inbox out peer = sent peer := by
  generalize hsize : net.length = size
  induction size using Nat.strong_induction_on generalizing socket net sent with
  | _ size ih =>
    by_cases hnet : net = []
    · refine ⟨[], .nil _ _, fun peer => ?_⟩
      subst hnet
      exact (h peer).of_nil.2.symm
    · obtain ⟨peer, str, strs, socket', net', hstrs, hrun, hbound', hlt, hnext⟩ :=
        receivePacket_spec hbound h hsent hnet
      have hsent' : ∀ other, ∀ str ∈ Function.update sent peer strs other, Sendable str := by
        intro other str' hstr'
        by_cases hsame : other = peer
        · subst hsame
          rw [Function.update_self] at hstr'
          exact hsent other str' (by rw [hstrs]; exact List.mem_cons_of_mem _ hstr')
        · rw [Function.update_of_ne hsame] at hstr'
          exact hsent other str' hstr'
      obtain ⟨out, hout, hinbox⟩ := ih net'.length (by omega) hbound' hnext hsent' rfl
      refine ⟨(peer, str) :: out, .cons hrun hout, fun other => ?_⟩
      rw [inbox_cons, hinbox]
      by_cases hsame : peer = other
      · subst hsame
        rw [if_pos rfl, Function.update_self, hstrs]
      · rw [if_neg hsame, Function.update_of_ne (Ne.symm hsame)]

/-- A mixed sequence is as long as the parts of its senders together. -/
theorem length_eq_sum_inbox {peers : List Peer} (hnodup : peers.Nodup) {mixed : List (Peer × Bytes)}
    (hfrom : ∀ entry ∈ mixed, entry.1 ∈ peers) :
    mixed.length = (peers.map fun peer => (inbox mixed peer).length).sum := by
  induction mixed with
  | nil => simp [inbox]
  | cons entry mixed ih =>
    rw [List.forall_mem_cons] at hfrom
    have hlength : ∀ peer, (inbox (entry :: mixed) peer).length =
        (inbox mixed peer).length + if peer = entry.1 then 1 else 0 := by
      intro peer
      rw [inbox_cons]
      by_cases hsame : entry.1 = peer
      · simp [hsame]
      · simp [hsame, Ne.symm hsame]
    have hcount : ∀ peers : List Peer,
        (peers.map fun peer => if peer = entry.1 then 1 else 0).sum = peers.count entry.1 := by
      intro peers
      induction peers with
      | nil => rfl
      | cons peer peers ih =>
        rw [List.map_cons, List.sum_cons, ih, List.count_cons, Nat.add_comm]
        simp
    simp only [hlength]
    rw [List.sum_map_add, hcount, List.count_eq_one_of_mem hnodup hfrom.1, ← ih hfrom.2,
      List.length_cons]

/-- Senders are kept apart: for every interleaving of the datagrams of finitely
many senders that keeps each sender's own order, as many calls of
`receivePacket` as packets were sent all succeed on a fresh receiver, and the
packets reported for each sender are its own, in sending order. -/
theorem receivePacket_separates_senders (peers : List Peer) (hnodup : peers.Nodup)
    (sent : Peer → List Bytes)
    (hsent : ∀ peer ∈ peers, ∀ str ∈ sent peer,
      str.length < 2 ^ 31 - 6 ∧ (str.length + 6) % MAX_PACKET_SIZE ≠ 0)
    (net : List (Peer × Bytes)) (hfrom : ∀ entry ∈ net, entry.1 ∈ peers)
    (horder : ∀ peer ∈ peers, inbox net peer = (sent peer).flatMap datagrams) :
    ∃ out, Receives fresh (arrivals net) out ∧
      out.length = (peers.map fun peer => (sent peer).length).sum ∧
      (∀ entry ∈ out, entry.1 ∈ peers) ∧ ∀ peer ∈ peers, inbox out peer = sent peer := by
  let sent' : Peer → List Bytes := fun peer => if peer ∈ peers then sent peer else []
  have hwaiting : Waiting fresh net sent' := by
    intro peer
    by_cases hpeer : peer ∈ peers
    · have hstart := Pending.start (sent peer)
      simpa [sent', hpeer, horder peer hpeer, fresh] using hstart
    · have hnone : inbox net peer = [] := by
        simp only [inbox, List.map_eq_nil_iff, List.filter_eq_nil_iff, decide_eq_true_eq]
        rintro entry hentry rfl
        exact hpeer (hfrom entry hentry)
      simpa [sent', hpeer, hnone, fresh] using Pending.idle
  have hsendable : ∀ peer, ∀ str ∈ sent' peer, Sendable str := by
    intro peer str hstr
    by_cases hpeer : peer ∈ peers
    · exact hsent peer hpeer str (by simpa [sent', hpeer] using hstr)
    · simp [sent', hpeer] at hstr
  obtain ⟨out, hout, hinbox⟩ := receives_of_waiting rfl hwaiting hsendable
  have hpeers : ∀ entry ∈ out, entry.1 ∈ peers := by
    intro entry hentry
    by_contra hnot
    have hmem : entry.2 ∈ inbox out entry.1 :=
      List.mem_map.mpr ⟨entry, List.mem_filter.mpr ⟨hentry, by simp⟩, rfl⟩
    simp [hinbox, sent', hnot] at hmem
  have hsame : ∀ peer ∈ peers, inbox out peer = sent peer := by
    intro peer hpeer
    simp [hinbox, sent', hpeer]
  refine ⟨out, hout, ?_, hpeers, hsame⟩
  rw [length_eq_sum_inbox hnodup hpeers]
  congr 1
  apply List.map_congr_left
  intro peer hpeer
  rw [hsame peer hpeer]

/-- Two senders at one address, one packet each, the second one's first. -/
theorem receivePacket_separates_two :
    ∃ out, Receives fresh
        (arrivals [(([49], 2), packetBuffer [120]), (([49], 1), packetBuffer [])]) out ∧
      out.length = 2 ∧ (∀ entry ∈ out, entry.1 ∈ [(([49], 1) : Peer), ([49], 2)]) ∧
      ∀ peer ∈ [(([49], 1) : Peer), ([49], 2)],
        inbox out peer = if peer.2 = 1 then [[]] else [[120]] :=
  receivePacket_separates_senders [([49], 1), ([49], 2)] (by decide)
    (fun peer => if peer.2 = 1 then [[]] else [[120]]) (by decide) _ (by decide) (by decide)

end UdpSocket

end clockUtils.sockets
