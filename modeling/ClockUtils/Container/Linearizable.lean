import ClockUtils.Lib.ProtocolRun
import ClockUtils.Container.QueueProtocol

namespace clockUtils.container.LockFreeQueue

open Concurrent

/-- The thread is inside of `push`, and `A` holds. -/
def Enqueues {Thread T : Type} {SIZE : Nat} (t : Thread) (A : LockFreeQueue T SIZE → Prop)
    (q : LockFreeQueue T SIZE) (g : Ghost Thread T) : Prop :=
  g.enqueuer = some t ∧ A q

/-- The thread is inside of `pop`, `front` or `poll`, and `A` holds of the queue
and the elements held. -/
def Dequeues {Thread T : Type} {SIZE : Nat} (t : Thread)
    (A : LockFreeQueue T SIZE → List T → Prop)
    (q : LockFreeQueue T SIZE) (g : Ghost Thread T) : Prop :=
  g.dequeuer = some t ∧ A q g.held

/-- The copy of `_readIndex` is from an earlier moment, so the room it shows is still there. -/
theorem push_condition_of_room {SIZE : Nat} {readIndex writeIndex : UInt64}
    (hLe : readIndex.toNat ≤ writeIndex.toNat)
    (hRoom : writeIndex.toNat < readIndex.toNat + SIZE) :
    (writeIndex - readIndex).toNat < SIZE ∨ readIndex > writeIndex := by
  left
  rw [UInt64.toNat_sub_of_le _ _ (UInt64.le_iff_toNat_le.mpr hLe)]
  omega

theorem push_condition_of_full {SIZE : Nat} {readIndex writeIndex : UInt64}
    (hFull : writeIndex.toNat = readIndex.toNat + SIZE) :
    ¬((writeIndex - readIndex).toNat < SIZE ∨ readIndex > writeIndex) := by
  have hLe : readIndex.toNat ≤ writeIndex.toNat := by omega
  rw [not_or, gt_iff_lt, UInt64.lt_iff_toNat_lt,
    UInt64.toNat_sub_of_le _ _ (UInt64.le_iff_toNat_le.mpr hLe)]
  omega

variable {Thread T : Type} {SIZE : Nat} [NeZero SIZE] {t : Thread}

theorem stable_true : (protocol Thread T SIZE).Stable t fun _ _ => True :=
  fun _ _ _ _ _ _ _ => trivial

theorem Enqueues.stable {A : LockFreeQueue T SIZE → Prop}
    (hA : ∀ q q', A q → q'.writeIndex = q.writeIndex → q'.data = q.data →
      q.readIndex.toNat ≤ q'.readIndex.toNat → A q') :
    (protocol Thread T SIZE).Stable t (Enqueues t A) := by
  intro q g q' g' _ hP hRely
  obtain ⟨hEnqueuer, hWrite, hData, hRead⟩ := hRely.enqueuer hP.1
  exact ⟨hEnqueuer, hA q q' hP.2 hWrite hData hRead⟩

theorem Dequeues.stable {A : LockFreeQueue T SIZE → List T → Prop}
    (hA : ∀ q q' held later, A q held → q'.readIndex = q.readIndex →
      q.writeIndex.toNat ≤ q'.writeIndex.toNat → A q' (held ++ later)) :
    (protocol Thread T SIZE).Stable t (Dequeues t A) := by
  intro q g q' g' _ hP hRely
  obtain ⟨hDequeuer, hRead, hWrite, later, hHeld⟩ := hRely.dequeuer hP.1
  refine ⟨hDequeuer, ?_⟩
  rw [← hHeld]
  exact hA q q' g.held later hP.2 hRead hWrite

theorem safe_acquireEnqueuing {phase : Phase (Call T) (Reply T)}
    {k : Prog (LockFreeQueue T SIZE) (Reply T)}
    (hRest : (protocol Thread T SIZE).Safe (fifo T SIZE) t k phase (Enqueues t fun _ => True)) :
    (protocol Thread T SIZE).Safe (fifo T SIZE) t (acquireEnqueuing k) phase fun _ _ => True := by
  refine Protocol.safe_spin stable_true ?_ (Protocol.safe_assert ?_ ?_ hRest)
  · intro q g hInv _ hFree
    exact ⟨_, setEnqueuing_true_ok hInv (by simpa using hFree), rfl, trivial⟩
  · exact Enqueues.stable fun _ _ _ _ _ _ => trivial
  · intro q g hInv hP
    exact hInv.enqueuing_eq.trans (by rw [hP.1]; rfl)

theorem safe_acquireDequeuing {phase : Phase (Call T) (Reply T)}
    {k : Prog (LockFreeQueue T SIZE) (Reply T)}
    (hRest : (protocol Thread T SIZE).Safe (fifo T SIZE) t k phase (Dequeues t fun _ _ => True)) :
    (protocol Thread T SIZE).Safe (fifo T SIZE) t (acquireDequeuing k) phase fun _ _ => True := by
  refine Protocol.safe_spin stable_true ?_ (Protocol.safe_assert ?_ ?_ hRest)
  · intro q g hInv _ hFree
    exact ⟨_, setDequeuing_true_ok hInv (by simpa using hFree), rfl, trivial⟩
  · exact Dequeues.stable fun _ _ _ _ _ _ _ => trivial
  · intro q g hInv hP
    exact hInv.dequeuing_eq.trans (by rw [hP.1]; rfl)

theorem safe_leaveEnqueuing (op : Call T) (r : Reply T) :
    (protocol Thread T SIZE).Safe (fifo T SIZE) t (leaveEnqueuing r) (.done op r)
      (Enqueues t fun _ => True) := by
  refine Protocol.safe_modify (Enqueues.stable fun _ _ _ _ _ _ => trivial) ?_
    (Protocol.safe_ret (P := fun _ _ => True) op r)
  intro q g hInv _ hP
  exact ⟨_, setEnqueuing_false_ok hInv hP.1, trivial⟩

theorem safe_leaveDequeuing (op : Call T) (r : Reply T) :
    (protocol Thread T SIZE).Safe (fifo T SIZE) t (leaveDequeuing r) (.done op r)
      (Dequeues t fun _ _ => True) := by
  refine Protocol.safe_modify (Dequeues.stable fun _ _ _ _ _ _ _ => trivial) ?_
    (Protocol.safe_ret (P := fun _ _ => True) op r)
  intro q g hInv _ hP
  exact ⟨_, setDequeuing_false_ok hInv hP.1, trivial⟩

/-- The part of `push` that stores an element, after room was seen. -/
theorem safe_push_store (value : T) (writeIndex : UInt64) :
    (protocol Thread T SIZE).Safe (fifo T SIZE) t
      (.modify (writeSlot writeIndex value) <| .modify addWriteIndex <|
        leaveEnqueuing ⟨.SUCCESS, none⟩)
      (.pending (.push value))
      (Enqueues t fun q => q.writeIndex = writeIndex ∧
        writeIndex.toNat < q.readIndex.toNat + SIZE) := by
  have hAdd : (protocol Thread T SIZE).Safe (fifo T SIZE) t
      (.modify addWriteIndex <| leaveEnqueuing ⟨.SUCCESS, none⟩) (.pending (.push value))
      (Enqueues t fun q => (q.writeIndex = writeIndex ∧
        writeIndex.toNat < q.readIndex.toNat + SIZE) ∧ q.slotAt writeIndex.toNat = value) := by
    refine Protocol.safe_modify (Enqueues.stable ?_) ?_ (safe_leaveEnqueuing (.push value) _)
    · intro q q' hA hWrite hData hRead
      refine ⟨⟨hWrite.trans hA.1.1, by omega⟩, ?_⟩
      unfold slotAt
      rw [hData]
      exact hA.2
    · rintro q g hInv hBudget ⟨hEnqueuer, ⟨rfl, hRoom⟩, hSlot⟩
      exact ⟨_, addWriteIndex_ok hInv hEnqueuer hBudget hRoom hSlot, hEnqueuer, trivial⟩
  refine Protocol.safe_modify (Enqueues.stable ?_) ?_ hAdd
  · intro q q' hA hWrite _ hRead
    exact ⟨hWrite.trans hA.1, by omega⟩
  · rintro q g hInv _ ⟨hEnqueuer, rfl, hRoom⟩
    exact ⟨g, writeSlot_ok hInv hEnqueuer hRoom value, hEnqueuer, ⟨rfl, hRoom⟩, by simp⟩

/-- A `push` into a full queue takes effect when it reads `_readIndex`: until it
returns nobody else changes `_writeIndex`. -/
theorem push_safe (value : T) :
    (protocol Thread T SIZE).Safe (fifo T SIZE) t (push value) (.pending (.push value))
      fun _ _ => True := by
  refine safe_acquireEnqueuing (Protocol.safe_load (Enqueues.stable fun _ _ _ _ _ _ => trivial) ?_)
  intro q g hInv hP
  have hWriteIndex := hInv.writeIndex_eq
  have hLength := hInv.length_le
  by_cases hFull : g.held.length = SIZE
  · refine ⟨.done (.push value) ⟨.NO_SPACE_AVAILABLE, none⟩,
      Enqueues t fun q' => q'.writeIndex.toNat = q.readIndex.toNat + SIZE,
      .observe hInv ?_, ⟨hP.1, by omega⟩, ?_⟩
    · simp [protocol, fifo, hFull]
    · refine Protocol.safe_load_silent (Enqueues.stable ?_) ?_
      · intro q₁ q₂ hA hWrite _ _
        rw [hWrite]
        exact hA
      · rintro q₁ g₁ _ ⟨hEnqueuer, hWrite⟩
        rw [if_neg (push_condition_of_full hWrite)]
        exact ⟨_, ⟨hEnqueuer, trivial⟩, safe_leaveEnqueuing _ _⟩
  · refine ⟨.pending (.push value), Enqueues t fun q' => q.readIndex.toNat ≤ q'.readIndex.toNat ∧
      q'.writeIndex.toNat < q.readIndex.toNat + SIZE, .refl hInv, ⟨hP.1, le_rfl, by omega⟩, ?_⟩
    refine Protocol.safe_load_silent (Enqueues.stable ?_) ?_
    · intro q₁ q₂ hA hWrite _ hRead
      rw [hWrite]
      exact ⟨hA.1.trans hRead, hA.2⟩
    · rintro q₁ g₁ hInv₁ ⟨hEnqueuer, hRead, hRoom⟩
      have hOrder := hInv₁.readIndex_le
      rw [if_pos (push_condition_of_room (hRead.trans hOrder) hRoom)]
      exact ⟨_, ⟨hEnqueuer, rfl, by omega⟩, safe_push_store value q₁.writeIndex⟩

/-- What `pop`, `front` and `poll` have in common. On an empty queue they take
effect when they read `_writeIndex`: until they return nobody else changes
`_readIndex`. -/
theorem safe_dequeue {op : Call T}
    {k : UInt64 → UInt64 → Prog (LockFreeQueue T SIZE) (Reply T)}
    (hEmptyOp : (fifo T SIZE).apply [] op = (⟨.NO_ELEMENT, none⟩, []))
    (hEmpty : ∀ w r, w ≤ r → k w r = leaveDequeuing ⟨.NO_ELEMENT, none⟩)
    (hNonempty : ∀ w r, r < w → (protocol Thread T SIZE).Safe (fifo T SIZE) t (k w r)
      (.pending op) (Dequeues t fun q held => q.readIndex = r ∧ held ≠ [])) :
    (protocol Thread T SIZE).Safe (fifo T SIZE) t
      (acquireDequeuing <| .load (fun q => q.writeIndex) fun writeIndex =>
        .load (fun q => q.readIndex) fun readIndex => k writeIndex readIndex)
      (.pending op) fun _ _ => True := by
  refine safe_acquireDequeuing
    (Protocol.safe_load (Dequeues.stable fun _ _ _ _ _ _ _ => trivial) ?_)
  intro q g hInv hP
  have hWriteIndex := hInv.writeIndex_eq
  by_cases hHeld : g.held = []
  · refine ⟨.done op ⟨.NO_ELEMENT, none⟩,
      Dequeues t fun q' _ => q'.readIndex.toNat = q.writeIndex.toNat,
      .observe hInv ?_, ⟨hP.1, ?_⟩, ?_⟩
    · simp only [protocol, hHeld, hEmptyOp]
    · rw [hWriteIndex, hHeld]
      rfl
    · refine Protocol.safe_load_silent (Dequeues.stable ?_) ?_
      · intro q₁ q₂ _ _ hA hRead _
        rw [hRead]
        exact hA
      · rintro q₁ g₁ _ ⟨hDequeuer, hRead⟩
        rw [hEmpty _ _ (UInt64.le_iff_toNat_le.mpr hRead.ge)]
        exact ⟨_, ⟨hDequeuer, trivial⟩, safe_leaveDequeuing _ _⟩
  · have hPos : 0 < g.held.length := List.length_pos_iff.mpr hHeld
    refine ⟨.pending op, Dequeues t fun q' held => q'.readIndex.toNat < q.writeIndex.toNat ∧
      held ≠ [], .refl hInv, ⟨hP.1, by omega, hHeld⟩, ?_⟩
    refine Protocol.safe_load_silent (Dequeues.stable ?_) ?_
    · intro q₁ q₂ held later hA hRead _
      rw [hRead]
      exact ⟨hA.1, by simp [hA.2]⟩
    · rintro q₁ g₁ _ ⟨hDequeuer, hLt, hHeld₁⟩
      exact ⟨_, ⟨hDequeuer, rfl, hHeld₁⟩, hNonempty _ _ (UInt64.lt_iff_toNat_lt.mpr hLt)⟩

theorem stable_nonempty (r : UInt64) : (protocol Thread T SIZE).Stable t
    (Dequeues t fun q held => q.readIndex = r ∧ held ≠ []) := by
  refine Dequeues.stable ?_
  intro q q' held later hA hRead _
  exact ⟨hRead.trans hA.1, by simp [hA.2]⟩

/-- The slot at `_readIndex` holds the oldest element. -/
theorem Inv.readSlot_eq {q : LockFreeQueue T SIZE} {g : Ghost Thread T} (hInv : Inv q g)
    {value : T} {rest : List T} (hHeld : g.held = value :: rest) :
    readSlot q.readIndex q = value :=
  hInv.slots 0 value (by rw [hHeld]; rfl)

theorem pop_safe : (protocol Thread T SIZE).Safe (fifo T SIZE) t pop (.pending .pop)
    fun _ _ => True := by
  refine safe_dequeue rfl (fun w r h => if_pos h) ?_
  intro w r hLt
  rw [if_neg (by rw [UInt64.not_le]; exact hLt)]
  refine Protocol.safe_modify (stable_nonempty r) ?_ (safe_leaveDequeuing .pop _)
  rintro q g hInv _ ⟨hDequeuer, _, hHeld⟩
  obtain ⟨value, rest, hHeld⟩ := List.exists_cons_of_ne_nil hHeld
  exact ⟨_, addReadIndex_ok hInv hDequeuer hHeld (by rw [hHeld]; rfl), hDequeuer, trivial⟩

/-- A successful `front` takes effect when it reads the slot. -/
theorem front_safe : (protocol Thread T SIZE).Safe (fifo T SIZE) t front (.pending .front)
    fun _ _ => True := by
  refine safe_dequeue rfl (fun w r h => if_neg (by rw [gt_iff_lt, UInt64.not_lt]; exact h)) ?_
  intro w r hLt
  rw [if_pos hLt]
  refine Protocol.safe_load (stable_nonempty r) ?_
  rintro q g hInv ⟨hDequeuer, rfl, hHeld⟩
  obtain ⟨value, rest, hHeld⟩ := List.exists_cons_of_ne_nil hHeld
  refine ⟨.done .front ⟨.SUCCESS, some value⟩, Dequeues t fun _ _ => True, .observe hInv ?_,
    ⟨hDequeuer, trivial⟩, ?_⟩
  · simp [protocol, fifo, hHeld]
  · rw [hInv.readSlot_eq hHeld]
    exact safe_leaveDequeuing .front _

/-- While `poll` holds the element it has read, nobody else takes it. -/
theorem poll_safe : (protocol Thread T SIZE).Safe (fifo T SIZE) t poll (.pending .poll)
    fun _ _ => True := by
  refine safe_dequeue rfl (fun w r h => if_neg (by rw [gt_iff_lt, UInt64.not_lt]; exact h)) ?_
  intro w r hLt
  rw [if_pos hLt]
  refine Protocol.safe_load_silent (stable_nonempty r) ?_
  rintro q g hInv ⟨hDequeuer, rfl, hHeld⟩
  obtain ⟨value, rest, hHeld⟩ := List.exists_cons_of_ne_nil hHeld
  refine ⟨Dequeues t fun _ held => ∃ rest, held = value :: rest, ⟨hDequeuer, rest, hHeld⟩, ?_⟩
  rw [hInv.readSlot_eq hHeld]
  refine Protocol.safe_modify (Dequeues.stable ?_) ?_ (safe_leaveDequeuing .poll _)
  · rintro _ _ _ later ⟨rest, rfl⟩ _ _
    exact ⟨rest ++ later, rfl⟩
  · rintro q₁ g₁ hInv₁ _ ⟨hDequeuer₁, rest₁, hHeld₁⟩
    exact ⟨_, addReadIndex_ok hInv₁ hDequeuer₁ hHeld₁ (by rw [hHeld₁]; rfl), hDequeuer₁, trivial⟩

theorem implements_fifo :
    (protocol Thread T SIZE).Implements (fifo T SIZE) Call.body := by
  intro t op
  cases op with
  | push value => exact push_safe value
  | pop => exact pop_safe
  | front => exact front_safe
  | poll => exact poll_safe

theorem new_inv [Inhabited T] :
    Inv (LockFreeQueue.new T SIZE) (⟨[], none, none⟩ : Ghost Thread T) := by
  refine ⟨rfl, Nat.zero_le _, ?_, rfl, rfl⟩
  intro i v hv
  simp at hv

/-- The step starts a `push`. -/
def isPush : Label Thread (Call T) (Reply T) → Bool
  | .call _ (.push _) => true
  | _ => false

theorem sum_payment_eq_countP (labels : List (Label Thread (Call T) (Reply T))) :
    (labels.map (protocol Thread T SIZE).payment).sum = labels.countP isPush := by
  induction labels with
  | nil => rfl
  | cons l labels ih =>
    rw [List.map_cons, List.sum_cons, List.countP_cons, ih, Nat.add_comm]
    congr 1
    cases l with
    | call t op => cases op <;> rfl
    | ret t r => rfl
    | internal t => rfl

/-- The queue is an atomic bounded FIFO. In every interleaving of any calls by
any threads, less than `2 ^ 64` of them pushes, the calls can be given instants
at which they take effect as calls of the FIFO do. The elements lie in the queue
or have been taken in the order of the pushes, none lost and none twice, and no
assertion has failed. -/
theorem linearizable [DecidableEq Thread] [DecidableEq T] [Inhabited T]
    (labels : List (Label Thread (Call T) (Reply T)))
    {c : Config Thread (LockFreeQueue T SIZE) (Reply T)}
    (hRun : (Config.start (LockFreeQueue.new T SIZE)).run Call.body labels = some c)
    (hPushes : labels.countP isPush < 2 ^ 64) :
    ∃ events, Linearizes (fifo T SIZE) labels events ∧
      (∃ taken, pushed (commits events) = taken ++ c.shared.contents ∧
        List.Forall₂ Takes (removals (commits events)) taken) ∧
      ∀ t, c.running t ≠ some .abort := by
  obtain ⟨g, events, hLinearizes, hInv, hAbs, hAssert⟩ :=
    implements_fifo.on.linearizes new_inv rfl rfl labels (fun _ _ _ => trivial) hRun (by
      rw [sum_payment_eq_countP]
      exact Nat.le_sub_one_of_lt hPushes)
  obtain ⟨taken, hTaken, hTakes⟩ := (fifo_conserves SIZE).final (commits events) [] hLinearizes.legal
  refine ⟨events, hLinearizes, ⟨taken, ?_, hTakes⟩, hAssert⟩
  rw [Inv.contents_eq hInv]
  exact hTaken.trans (congrArg (taken ++ ·) hAbs.symm)

/-- The threads race for a single slot: the second `push` comes too late, and
the `poll` begins before the first one has stored its element. -/
def race : List (Label (Fin 3) (Call Nat) (Reply Nat)) :=
  [.call 0 (.push 5), .internal 0, .call 1 (.push 7), .internal 1, .internal 0, .internal 0,
    .internal 0, .call 2 .poll, .internal 2, .internal 0, .internal 2, .internal 0, .internal 2,
    .internal 0, .internal 1, .ret 0 ⟨.SUCCESS, none⟩, .internal 1, .internal 1, .internal 2,
    .internal 2, .internal 2, .internal 1, .internal 1, .ret 1 ⟨.NO_SPACE_AVAILABLE, none⟩,
    .internal 2, .ret 2 ⟨.SUCCESS, some 5⟩]

theorem linearizable_race :
    ∃ c, (Config.start (LockFreeQueue.new Nat 1)).run Call.body race = some c ∧
      race.countP isPush < 2 ^ 64 ∧
      ∃ events, Linearizes (fifo Nat 1) race events ∧
        (∃ taken, pushed (commits events) = taken ++ c.shared.contents ∧
          List.Forall₂ Takes (removals (commits events)) taken) ∧
        ∀ t, c.running t ≠ some .abort := by
  have hSome : ((Config.start (LockFreeQueue.new Nat 1)).run Call.body race).isSome = true := by
    decide
  obtain ⟨c, hRun⟩ := Option.isSome_iff_exists.mp hSome
  exact ⟨c, hRun, by decide, linearizable race hRun (by decide)⟩

end clockUtils.container.LockFreeQueue
