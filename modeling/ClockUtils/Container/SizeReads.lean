import ClockUtils.Lib.Queries
import ClockUtils.Lib.Snapshot
import ClockUtils.Container.ClearOrder

namespace clockUtils.container.LockFreeQueue

open Concurrent

/-- The call that only reads. -/
inductive Query where
  | size
  deriving DecidableEq

def Query.body {T : Type} {SIZE : Nat} : Query → Prog (LockFreeQueue T SIZE) UInt64
  | size => LockFreeQueue.size

/-- The calls of a program that never clears the queue and may ask for its size. -/
def sizedBody {T : Type} {SIZE : Nat} [NeZero SIZE] :
    Call T ⊕ Query → Prog (LockFreeQueue T SIZE) (Reply T ⊕ UInt64) :=
  withQueries Call.body Query.body

/-- The steps of such programs, and their states. -/
abbrev SizedLabel (Thread T : Type) :=
  Label Thread (Call T ⊕ Query) (Reply T ⊕ UInt64)

abbrev SizedConfig (Thread T : Type) (SIZE : Nat) :=
  Config Thread (LockFreeQueue T SIZE) (Reply T ⊕ UInt64)

/-- The step starts a `push`. -/
def asksPush {Thread T : Type} : SizedLabel Thread T → Bool
  | .call _ (.inl (.push _)) => true
  | _ => false

theorem Query.reads {T : Type} {SIZE : Nat} (query : Query) :
    (query.body : Prog (LockFreeQueue T SIZE) UInt64).Reads := by
  cases query with
  | size => exact ⟨rfl, fun _ => ⟨rfl, fun _ => trivial⟩⟩

namespace Point

variable {T : Type} {SIZE : Nat}

/-- A point of `clear`. -/
def clears : Point T → Bool
  | clearLoad => true
  | clearStore _ => true
  | _ => false

theorem clears_found (readIndex : UInt64) (kind : Kind) :
    (found readIndex kind : Point T).clears = false := by
  cases kind <;> rfl

theorem storing_of_clears {p : Point T} (h : p.clears = false) : p.storing = none := by
  cases p with
  | clearStore _ => cases h
  | _ => rfl

theorem clears_entry (op : Call T) : (entry (.of op)).clears = false := by
  cases op <;> rfl

theorem step_clears [NeZero SIZE] {q q' : LockFreeQueue T SIZE} {p p' : Point T}
    (h : p.clears = false) (hStep : p.step q = some (q', p')) : p'.clears = false := by
  cases p <;> grind [step, clears, clears_found]

end Point

variable {Thread T : Type} {SIZE : Nat} [DecidableEq Thread] [DecidableEq T] [NeZero SIZE]

/-- A state in which at most `n` pushes have begun: without the queries it is one
of those that `OrderInv` describes, and no thread is inside of `clear`. -/
def Tracked (c : SizedConfig Thread T SIZE) (n : Nat) : Prop :=
  ∃ (m : Located Thread (LockFreeQueue T SIZE) (Point T)) (paid : Nat), paid ≤ n ∧
    c.HidesQueries (m.config Point.prog) ∧ OrderInv m paid ∧
    ∀ t, ∀ p ∈ m.points t, p.clears = false

/-- How the indices change with a step: none goes back, and one of them at most
is changed. -/
structure IndexStep (q q' : LockFreeQueue T SIZE) : Prop where
  readIndex_le : q.readIndex.toNat ≤ q'.readIndex.toNat
  writeIndex_le : q.writeIndex.toNat ≤ q'.writeIndex.toNat
  one : q'.readIndex = q.readIndex ∨ q'.writeIndex = q.writeIndex

omit [DecidableEq T] [NeZero SIZE] in
theorem IndexStep.refl (q : LockFreeQueue T SIZE) : IndexStep q q :=
  ⟨Nat.le_refl _, Nat.le_refl _, .inl rfl⟩

omit [DecidableEq Thread] [DecidableEq T] [NeZero SIZE] in
theorem clearsInOrder_of_clears {m : Located Thread (LockFreeQueue T SIZE) (Point T)}
    (h : ∀ t, ∀ p ∈ m.points t, p.clears = false) (l : Label Thread (AnyCall T) (Reply T)) :
    ClearsInOrder m l := by
  cases l with
  | call t op => trivial
  | ret t r => trivial
  | internal t =>
    intro w hw
    cases hp : m.points t with
    | none => rw [hp] at hw; cases hw
    | some p =>
      rw [hp, Option.bind_some, Point.storing_of_clears (h t p hp)] at hw
      cases hw

section Step

variable {m m' : Located Thread (LockFreeQueue T SIZE) (Point T)} {paid : Nat}
  {l : Label Thread (Call T) (Reply T)}

omit [DecidableEq T] in
/-- Without `clear` among the calls no thread gets there. -/
theorem clears_step [DecidableEq (Reply T)] (h : ∀ t, ∀ p ∈ m.points t, p.clears = false)
    (hStep : m.step (Point.graph T SIZE) (l.map .of id) = some m') :
    ∀ t, ∀ p ∈ m'.points t, p.clears = false := by
  have hUpdate : ∀ (t : Thread) (point : Option (Point T)), (∀ p ∈ point, p.clears = false) →
      ∀ u, ∀ p ∈ Function.update m.points t point u, p.clears = false := by
    intro t point hPoint
    rw [Function.forall_update_iff m.points fun _ point => ∀ p ∈ point, p.clears = false]
    exact ⟨hPoint, fun u _ => h u⟩
  rcases Located.step_cases hStep with ⟨t, op, hl, rfl⟩ | ⟨t, r, -, rfl⟩ |
    ⟨t, p, q', p', -, hp, hNext, rfl⟩
  · refine hUpdate t _ fun p hp => ?_
    obtain rfl := Option.some.inj hp
    cases l with
    | call u op' =>
      obtain ⟨-, rfl⟩ := Label.call.inj hl
      exact Point.clears_entry op'
    | ret u r | internal u => cases hl
  · exact hUpdate t none fun p hp => by cases hp
  · refine hUpdate t _ fun p₁ hp₁ => ?_
    obtain rfl := Option.some.inj hp₁
    exact Point.step_clears (h t p hp) hNext

omit [DecidableEq T] in
theorem OrderInv.indexStep [DecidableEq (Reply T)] (h : OrderInv m paid) (hPaid : paid < 2 ^ 64)
    (hNone : ∀ t, ∀ p ∈ m.points t, p.clears = false)
    (hStep : m.step (Point.graph T SIZE) (l.map .of id) = some m') :
    IndexStep m.shared m'.shared := by
  rcases Located.step_cases hStep with ⟨t, op, -, rfl⟩ | ⟨t, r, -, rfl⟩ |
    ⟨t, p, q', p', -, hp, hNext, rfl⟩
  · exact .refl _
  · exact .refl _
  · have hAdvances := h.advances hPaid hp (clearsInOrder_of_clears hNone _) hNext
    refine ⟨hAdvances.readIndex_le, hAdvances.writeIndex_le, ?_⟩
    cases hTaken : p.taken with
    | none => exact .inl (hAdvances.readIndex_eq hTaken (Point.storing_of_clears (hNone t p hp)))
    | some index =>
      obtain rfl := Point.step_taken hTaken hNext
      exact .inr rfl

end Step

section Run

variable {c c' : SizedConfig Thread T SIZE} {n : Nat}

omit [DecidableEq Thread] [DecidableEq T] in
theorem Tracked.ordered (h : Tracked c n) : Ordered c.shared := by
  obtain ⟨m, paid, -, hHides, hInv, -⟩ := h
  rw [hHides.shared]
  exact hInv.ordered

theorem Tracked.step (h : Tracked c n) (hn : n < 2 ^ 64) {l : SizedLabel Thread T}
    (hStep : c.step sizedBody l = some c') :
    Tracked c' (n + if asksPush l then 1 else 0) ∧ IndexStep c.shared c'.shared := by
  obtain ⟨m, paid, hPaid, hHides, hInv, hNone⟩ := h
  rcases hHides.step Query.reads hStep with hQuery | ⟨l', d, hStep', hHides', hCall⟩
  · refine ⟨⟨m, paid, by omega, hQuery, hInv, hNone⟩, ?_⟩
    rw [hQuery.shared, hHides.shared]
    exact .refl _
  · have hSame : (m.config Point.prog).step AnyCall.body (l'.map .of id) = some d := by
      rw [← hStep']
      cases l' <;> rfl
    rw [Located.config_step Point.graph_cuts, Option.map_eq_some_iff] at hSame
    obtain ⟨m', hNext, rfl⟩ := hSame
    have hInv' := hInv.step (by omega) (clearsInOrder_of_clears hNone _) hNext
    refine ⟨⟨m', _, ?_, hHides', hInv', clears_step hNone hNext⟩, ?_⟩
    · refine Nat.add_le_add hPaid ?_
      cases l' with
      | call t op =>
        rw [hCall t op rfl]
        cases op <;> exact Nat.le_refl _
      | ret t r | internal t => exact Nat.zero_le _
    · rw [hHides.shared, hHides'.shared]
      exact hInv.indexStep (by omega) hNone hNext

variable {labels : List (SizedLabel Thread T)}

theorem Tracked.run (h : Tracked c n) (hn : n + labels.countP asksPush < 2 ^ 64)
    (hRun : c.run sizedBody labels = some c') : Tracked c' (n + labels.countP asksPush) := by
  have hSteps : StepRun.run (Config.step sizedBody) c labels = some c' := hRun
  refine StepRun.run_counted ?_ hSteps (StepRun.along_of_forall (fun _ _ => trivial) _ _) h hn
  intro c₁ l c₂ n hTracked _ hn hStep
  exact (hTracked.step hn hStep).1

/-- How many elements have been taken, and how many were added. -/
def takenCount {Ret : Type} (c : Config Thread (LockFreeQueue T SIZE) Ret) : Nat :=
  c.shared.readIndex.toNat

def addedCount {Ret : Type} (c : Config Thread (LockFreeQueue T SIZE) Ret) : Nat :=
  c.shared.writeIndex.toNat

omit [DecidableEq Thread] [DecidableEq T] [NeZero SIZE] in
theorem IndexStep.counts {Ret : Type} {c c' : Config Thread (LockFreeQueue T SIZE) Ret}
    (h : IndexStep c.shared c'.shared) : takenCount c ≤ takenCount c' ∧
      addedCount c ≤ addedCount c' ∧
      (takenCount c' = takenCount c ∨ addedCount c' = addedCount c) := by
  refine ⟨h.readIndex_le, h.writeIndex_le, h.one.imp ?_ ?_⟩
  · exact congrArg UInt64.toNat
  · exact congrArg UInt64.toNat

theorem Tracked.counts (h : Tracked c n) (hn : n + labels.countP asksPush < 2 ^ 64) :
    StepRun.Along (Config.step sizedBody)
      (StepRun.Counts (Config.step sizedBody) takenCount addedCount) c labels := by
  refine StepRun.along_counted ?_ ?_ (StepRun.along_of_forall (fun _ _ => trivial) _ _) h hn
  · intro c₁ l c₂ n hTracked _ hn hStep
    exact (hTracked.step hn hStep).1
  · intro c₁ l n hTracked _ hn c₂ hStep
    exact (hTracked.step hn hStep).2.counts

omit [DecidableEq Thread] [DecidableEq T] in
theorem new_tracked [Inhabited T] :
    Tracked (Config.start (new T SIZE) : Config Thread _ (Reply T ⊕ UInt64)) 0 :=
  ⟨Located.start (new T SIZE), 0, Nat.le_refl _, ⟨rfl, fun _ => .idle⟩, new_orderInv,
    fun t p hp => by cases hp⟩

end Run

section Size

variable [Inhabited T] {c c₁ c₂ : SizedConfig Thread T SIZE}
  {first during waiting between leaving : List (SizedLabel Thread T)} {t : Thread} {n : UInt64}

/-- The states of a run from the constructor on. -/
def SizedRun (labels : List (SizedLabel Thread T)) (c : SizedConfig Thread T SIZE) : Prop :=
  (Config.start (new T SIZE)).run sizedBody labels = some c

/-- With none of these steps, taken after the first ones, a `push` increases
`_writeIndex` when a `pop` or `poll` has increased `_readIndex` since. -/
def Undisturbed (SIZE : Nat) [NeZero SIZE]
    (first steps : List (SizedLabel Thread T)) : Prop :=
  ∀ c ∈ (Config.start (new T SIZE)).run sizedBody first,
    StepRun.Along (Config.step sizedBody)
      (StepRun.KeepsAdded (Config.step sizedBody) takenCount addedCount (takenCount c)) c steps

instance (first steps : List (SizedLabel Thread T)) :
    Decidable (Undisturbed SIZE first steps) :=
  Option.decidableForallMem _

/-- A run up to the first read of a call of `size`. -/
def untilRead (first : List (SizedLabel Thread T)) (t : Thread)
    (during : List (SizedLabel Thread T)) : List (SizedLabel Thread T) :=
  first ++ .call t (.inr .size) :: (during.takeWhile (fun l => l.thread ≠ t) ++ [.internal t])

/-- The steps between the two reads, all of other threads. -/
def betweenReads (t : Thread) (during : List (SizedLabel Thread T)) :
    List (SizedLabel Thread T) :=
  ((during.dropWhile fun l => l.thread ≠ t).drop 1).takeWhile fun l => l.thread ≠ t

omit [DecidableEq T] [Inhabited T] in
/-- The next step of a thread divides a run. -/
theorem span_others {others : List (SizedLabel Thread T)} (h : ∀ l ∈ others, l.thread ≠ t)
    (rest : List (SizedLabel Thread T)) :
    (others ++ .internal t :: rest).takeWhile (fun l => l.thread ≠ t) = others ∧
      (others ++ .internal t :: rest).dropWhile (fun l => l.thread ≠ t) = .internal t :: rest := by
  have hOthers : ∀ l ∈ others, decide (l.thread ≠ t) = true :=
    fun l hl => decide_eq_true (h l hl)
  rw [List.takeWhile_append_of_pos hOthers, List.dropWhile_append_of_pos hOthers]
  simp [Label.thread]

omit [DecidableEq T] [Inhabited T] in
theorem reads_of_split (h : ∀ l ∈ waiting ++ between ++ leaving, l.thread ≠ t)
    (first : List (SizedLabel Thread T)) :
    untilRead first t (waiting ++ .internal t :: (between ++ .internal t :: leaving)) =
        first ++ .call t (.inr .size) :: (waiting ++ [.internal t]) ∧
      betweenReads t (waiting ++ .internal t :: (between ++ .internal t :: leaving)) = between := by
  have hWaiting : ∀ l ∈ waiting, l.thread ≠ t := fun l hl => h l (by simp [hl])
  have hBetween : ∀ l ∈ between, l.thread ≠ t := fun l hl => h l (by simp [hl])
  obtain ⟨hTake, hDrop⟩ := span_others hWaiting (between ++ .internal t :: leaving)
  rw [untilRead, betweenReads, hTake, hDrop, List.drop_one, List.tail_cons]
  exact ⟨rfl, (span_others hBetween leaving).1⟩

/-- Every call of `size` reads twice, and returns the difference. -/
theorem size_reads
    (hRun : SizedRun (first ++ .call t (.inr .size) :: (during ++ [.ret t (.inr n)])) c)
    (hCall : ∀ r, .ret t r ∉ during) :
    ∃ (waiting between leaving : List (SizedLabel Thread T)) (c₁ c₂ : SizedConfig Thread T SIZE),
      during = waiting ++ .internal t :: (between ++ .internal t :: leaving) ∧
      (∀ l ∈ waiting ++ between ++ leaving, l.thread ≠ t) ∧
      SizedRun (first ++ .call t (.inr .size) :: (waiting ++ [.internal t])) c₁ ∧
      c₁.run sizedBody between = some c₂ ∧ n = c₂.shared.writeIndex - c₁.shared.readIndex := by
  have hBody : (sizedBody (.inr .size) : Prog (LockFreeQueue T SIZE) (Reply T ⊕ UInt64)) =
      .load (fun q => q.readIndex) fun readIdx => .load (fun q => q.writeIndex) fun writeIdx =>
        .ret (.inr (writeIdx - readIdx)) := rfl
  obtain ⟨waiting, between, leaving, c₁, c₂, hDuring, hOthers, hRead, hBetween, hResult⟩ :=
    Config.exists_two_reads hBody hRun hCall
  exact ⟨waiting, between, leaving, c₁, c₂, hDuring, hOthers, hRead, hBetween,
    Sum.inr.inj hResult⟩

/-- At an instant between these steps, taken after the first ones, the queue
holds `n` elements. -/
def HeldDuring (SIZE : Nat) [NeZero SIZE]
    (first steps : List (SizedLabel Thread T)) (n : UInt64) : Prop :=
  ∃ (before after : List (SizedLabel Thread T)) (c : SizedConfig Thread T SIZE),
    steps = before ++ after ∧ SizedRun (first ++ before) c ∧ c.shared.contents.length = n.toNat

omit [DecidableEq Thread] [DecidableEq T] [Inhabited T] in
theorem length_contents {Ret : Type} (c : Config Thread (LockFreeQueue T SIZE) Ret) :
    c.shared.contents.length = addedCount c - takenCount c := by
  rw [contents, List.length_map, List.length_range]
  rfl

theorem SizedRun.tracked (hRun : SizedRun first c) (hPushes : first.countP asksPush < 2 ^ 64) :
    Tracked c (first.countP asksPush) := by
  have h := new_tracked.run (by rwa [Nat.zero_add]) hRun
  rwa [Nat.zero_add] at h

/-- No state of a run holds more elements than there are slots. -/
theorem HeldDuring.le (h : HeldDuring SIZE first during n)
    (hPushes : (first ++ during).countP asksPush < 2 ^ 64) : n.toNat ≤ SIZE := by
  obtain ⟨before, after, c, rfl, hRun, hLength⟩ := h
  rw [← List.append_assoc, List.countP_append] at hPushes
  have hOrdered := (hRun.tracked (by omega)).ordered
  have hRoom := hOrdered.writeIndex_le
  rw [← hLength, length_contents, addedCount, takenCount]
  omega

/-- The steps of a longer part of the run. -/
theorem HeldDuring.extend (h : HeldDuring SIZE (first ++ waiting) between n) :
    HeldDuring SIZE first (waiting ++ (between ++ leaving)) n := by
  obtain ⟨before, after, c, rfl, hRun, hLength⟩ := h
  refine ⟨waiting ++ before, after ++ leaving, c, by simp, ?_, hLength⟩
  rwa [← List.append_assoc]

/-- The difference of the reads is the number of elements at an instant between
them exactly if the steps between them are not disturbed. -/
theorem heldDuring_iff_undisturbed (hFirst : SizedRun first c₁)
    (hBetween : c₁.run sizedBody between = some c₂)
    (hPushes : (first ++ between).countP asksPush < 2 ^ 64) :
    HeldDuring SIZE first between (c₂.shared.writeIndex - c₁.shared.readIndex) ↔
      Undisturbed SIZE first between := by
  rw [List.countP_append] at hPushes
  have hTracked := hFirst.tracked (by omega)
  have hOrdered : ∀ before after c₃, between = before ++ after →
      c₁.run sizedBody before = some c₃ → takenCount c₃ ≤ addedCount c₃ := by
    rintro before after c₃ rfl hBefore
    rw [List.countP_append] at hPushes
    exact (hTracked.run (by omega) hBefore).ordered.readIndex_le
  have hDifference : (c₂.shared.writeIndex - c₁.shared.readIndex).toNat =
      addedCount c₂ - takenCount c₁ := by
    have hTaken := (StepRun.Counts.run_le (hTracked.counts hPushes) hBetween).1
    have hLe := hOrdered between [] c₂ (by simp) hBetween
    exact UInt64.toNat_sub_of_le _ _ (UInt64.le_iff_toNat_le.mpr (hTaken.trans hLe))
  have hSnapshot := StepRun.snapshot_iff hBetween (hTracked.counts hPushes) hOrdered
  unfold SizedRun at hFirst
  simp only [Undisturbed, hFirst, Option.mem_def, Option.some.injEq, forall_eq', ← hSnapshot,
    HeldDuring, hDifference, length_contents, SizedRun, Config.run_append, Option.bind_some]
  rfl

/-- The value that `size` returns is a number of elements that the queue had
between the two reads exactly if no `push` increases `_writeIndex` between them
after a `pop` or `poll` has increased `_readIndex`. Then it is one that the queue
had during the call, and not more than there are slots. -/
theorem size_held_iff (first during : List (SizedLabel Thread T)) (t : Thread) (n : UInt64)
    (hRun : SizedRun (first ++ .call t (.inr .size) :: (during ++ [.ret t (.inr n)])) c)
    (hCall : ∀ r, .ret t r ∉ during)
    (hPushes : (first ++ .call t (.inr .size) :: during).countP asksPush < 2 ^ 64) :
    (HeldDuring SIZE (untilRead first t during) (betweenReads t during) n ↔
      Undisturbed SIZE (untilRead first t during) (betweenReads t during)) ∧
    (Undisturbed SIZE (untilRead first t during) (betweenReads t during) →
      HeldDuring SIZE (first ++ [.call t (.inr .size)]) during n ∧ n.toNat ≤ SIZE) := by
  obtain ⟨waiting, between, leaving, c₁, c₂, rfl, hOthers, hFirst, hBetween, rfl⟩ :=
    size_reads hRun hCall
  obtain ⟨hUntil, hSteps⟩ := reads_of_split hOthers first
  rw [hUntil, hSteps]
  have hIff := heldDuring_iff_undisturbed hFirst hBetween (by
    simp only [List.countP_append, List.countP_cons, List.countP_nil] at hPushes ⊢
    omega)
  refine ⟨hIff, fun hUndisturbed => ?_⟩
  have hHeld : HeldDuring SIZE (first ++ [.call t (.inr .size)])
      (waiting ++ [.internal t] ++ (between ++ .internal t :: leaving))
      (c₂.shared.writeIndex - c₁.shared.readIndex) := by
    apply HeldDuring.extend
    simpa using hIff.mpr hUndisturbed
  rw [List.append_assoc, List.singleton_append] at hHeld
  exact ⟨hHeld, hHeld.le (by simpa using hPushes)⟩

end Size

/-- The threads of the runs below. -/
inductive Role where
  | producer
  | consumer
  | observer
  deriving DecidableEq

/-- One element is in the queue. -/
def onePush : List (SizedLabel Role Nat) :=
  uninterrupted .producer (.inl (.push 5)) 7 (.inl ⟨.SUCCESS, none⟩)

/-- Between the reads of the observer there is a `push`, and then a `pop`. -/
def pushThenPop : List (SizedLabel Role Nat) :=
  .internal .observer :: (uninterrupted .producer (.inl (.push 7)) 7 (.inl ⟨.SUCCESS, none⟩) ++
    (uninterrupted .consumer (.inl .pop) 6 (.inl ⟨.SUCCESS, none⟩) ++ [.internal .observer]))

theorem size_held_pushThenPop :
    (∃ c : SizedConfig Role Nat 2, SizedRun
      (onePush ++ .call .observer (.inr .size) :: (pushThenPop ++ [.ret .observer (.inr 2)])) c) ∧
    Undisturbed 2 (untilRead onePush .observer pushThenPop) (betweenReads .observer pushThenPop) ∧
    HeldDuring 2 (onePush ++ [.call .observer (.inr .size)]) pushThenPop 2 := by
  have hSome : ((Config.start (new Nat 2)).run sizedBody (onePush ++
      .call .observer (.inr .size) :: (pushThenPop ++ [.ret .observer (.inr 2)]))).isSome = true := by
    decide
  obtain ⟨c, hRun⟩ := Option.isSome_iff_exists.mp hSome
  have hUndisturbed : Undisturbed 2 (untilRead onePush .observer pushThenPop)
      (betweenReads .observer pushThenPop) := by decide
  have hCall : ∀ r, .ret .observer r ∉ pushThenPop := by simp [pushThenPop, uninterrupted]
  have hHeld := (size_held_iff onePush pushThenPop .observer 2 hRun hCall (by decide)).2 hUndisturbed
  exact ⟨⟨c, hRun⟩, hUndisturbed, hHeld.1⟩

/-- Between the reads of the observer there is a `pop`, and then a `push`. -/
def popThenPush : List (SizedLabel Role Nat) :=
  .internal .observer :: (uninterrupted .consumer (.inl .pop) 6 (.inl ⟨.SUCCESS, none⟩) ++
    (uninterrupted .producer (.inl (.push 7)) 7 (.inl ⟨.SUCCESS, none⟩) ++ [.internal .observer]))

/-- A queue with a single slot reports two elements. -/
theorem size_exceeds_slots :
    (∃ c : SizedConfig Role Nat 1, SizedRun
      (onePush ++ .call .observer (.inr .size) :: (popThenPush ++ [.ret .observer (.inr 2)])) c) ∧
    (∀ r, .ret .observer r ∉ popThenPush) ∧
    (onePush ++ .call .observer (.inr .size) :: popThenPush).countP asksPush < 2 ^ 64 ∧
    ¬ HeldDuring 1 (onePush ++ [.call .observer (.inr .size)]) popThenPush 2 := by
  have hSome : ((Config.start (new Nat 1)).run sizedBody (onePush ++
      .call .observer (.inr .size) :: (popThenPush ++ [.ret .observer (.inr 2)]))).isSome = true := by
    decide
  refine ⟨Option.isSome_iff_exists.mp hSome, by simp [popThenPush, uninterrupted], by decide,
    fun hHeld => ?_⟩
  have hLe := hHeld.le (by decide)
  revert hLe
  decide

end clockUtils.container.LockFreeQueue
