import Mathlib.Data.Fintype.Basic
import ClockUtils.Lib.ProtocolRun
import ClockUtils.Container.QueuePoints
import ClockUtils.Container.QueueProtocol

namespace clockUtils.container.LockFreeQueue

open Concurrent

namespace Point

variable {T : Type}

/-- The index that a `pop` or `poll` takes with its next step. -/
def taken : Point T → Option UInt64
  | popAdd readIndex => some readIndex
  | pollAdd _ readIndex => some readIndex
  | _ => none

/-- The index that a `clear` stores with its next step. -/
def storing : Point T → Option UInt64
  | clearStore writeIndex => some writeIndex
  | _ => none

/-- An element was found and `_readIndex` is to be increased. -/
def takes : Point T → Bool
  | popAdd _ => true
  | pollRead _ => true
  | pollAdd _ _ => true
  | _ => false

/-- Between setting and resetting `_enqueuing`. -/
def enqueues : Point T → Bool
  | pushAssert _ => true
  | pushLoadRead _ => true
  | pushLoadWrite _ _ => true
  | pushWriteSlot _ _ => true
  | pushAdd _ => true
  | pushLeave _ => true
  | _ => false

/-- Between setting and resetting `_dequeuing`. -/
def dequeues : Point T → Bool
  | assert _ => true
  | loadWrite _ => true
  | loadRead _ _ => true
  | popAdd _ => true
  | frontRead _ => true
  | pollRead _ => true
  | pollAdd _ _ => true
  | leave _ => true
  | _ => false

/-- The call of which the thread may still increase `_writeIndex`. -/
def phase : Point T → Phase (Call T) (Reply T)
  | pushSpin value => .pending (.push value)
  | pushAssert value => .pending (.push value)
  | pushLoadRead value => .pending (.push value)
  | pushLoadWrite value _ => .pending (.push value)
  | pushWriteSlot value _ => .pending (.push value)
  | pushAdd value => .pending (.push value)
  | _ => .idle

theorem enqueues_found (readIndex : UInt64) (kind : Kind) :
    (found readIndex kind : Point T).enqueues = false := by
  cases kind <;> rfl

theorem dequeues_found (readIndex : UInt64) (kind : Kind) :
    (found readIndex kind : Point T).dequeues = true := by
  cases kind <;> rfl

theorem phase_found (readIndex : UInt64) (kind : Kind) :
    (found readIndex kind : Point T).phase = .idle := by
  cases kind <;> rfl

theorem takes_of_taken {p : Point T} (h : p.taken ≠ none) : p.takes = true := by
  cases p with
  | popAdd _ => rfl
  | pollAdd _ _ => rfl
  | _ => exact absurd rfl h

theorem dequeues_of_takes {p : Point T} (h : p.takes = true) : p.dequeues = true := by
  cases p with
  | popAdd _ => rfl
  | pollRead _ => rfl
  | pollAdd _ _ => rfl
  | _ => cases h

end Point

section Condition

variable {Thread T : Type} {SIZE : Nat}

/-- With this step no `clear` lowers `_readIndex`, and none raises it while a
thread is between the comparison of the indices and the increment. -/
def ClearsInOrder (m : Located Thread (LockFreeQueue T SIZE) (Point T)) :
    Label Thread (AnyCall T) (Reply T) → Prop
  | .internal t => ∀ w ∈ (m.points t).bind Point.storing, m.shared.readIndex = w ∨
      m.shared.readIndex < w ∧ ∀ u, ∀ p ∈ m.points u, p.takes = false
  | _ => True

/-- Every step of the run is such a step. -/
def RunsInOrder [DecidableEq Thread] [DecidableEq T] [NeZero SIZE]
    (m : Located Thread (LockFreeQueue T SIZE) (Point T))
    (labels : List (Label Thread (AnyCall T) (Reply T))) : Prop :=
  StepRun.Along (Located.step (Point.graph T SIZE)) ClearsInOrder m labels

instance [Fintype Thread] (m : Located Thread (LockFreeQueue T SIZE) (Point T)) :
    (l : Label Thread (AnyCall T) (Reply T)) → Decidable (ClearsInOrder m l)
  | .internal t => Option.decidableForallMem ((m.points t).bind Point.storing)
  | .call _ _ => isTrue trivial
  | .ret _ _ => isTrue trivial

instance [Fintype Thread] [DecidableEq Thread] [DecidableEq T] [NeZero SIZE]
    (m : Located Thread (LockFreeQueue T SIZE) (Point T))
    (labels : List (Label Thread (AnyCall T) (Reply T))) : Decidable (RunsInOrder m labels) :=
  StepRun.decidableAlong m labels

end Condition

/-- The indices of a queue that holds between none and `SIZE` elements. -/
structure Ordered {T : Type} {SIZE : Nat} (q : LockFreeQueue T SIZE) : Prop where
  readIndex_le : q.readIndex.toNat ≤ q.writeIndex.toNat
  writeIndex_le : q.writeIndex.toNat ≤ q.readIndex.toNat + SIZE

/-- What a thread knows at a point: copies of an index are not ahead of it, the
room that a `push` has seen is there, and what a `pop` or `poll` has found is
still the oldest element. -/
def Point.Holds {T : Type} {SIZE : Nat} (q : LockFreeQueue T SIZE) : Point T → Prop
  | pushLoadWrite _ readIndex => readIndex.toNat ≤ q.readIndex.toNat
  | pushWriteSlot _ _ => q.writeIndex.toNat < q.readIndex.toNat + SIZE
  | pushAdd _ => q.writeIndex.toNat < q.readIndex.toNat + SIZE
  | loadRead _ writeIndex => writeIndex.toNat ≤ q.writeIndex.toNat
  | popAdd readIndex => readIndex = q.readIndex ∧ q.readIndex.toNat < q.writeIndex.toNat
  | pollRead readIndex => readIndex = q.readIndex ∧ q.readIndex.toNat < q.writeIndex.toNat
  | pollAdd _ readIndex => readIndex = q.readIndex ∧ q.readIndex.toNat < q.writeIndex.toNat
  | clearStore writeIndex => writeIndex.toNat ≤ q.writeIndex.toNat
  | _ => True

/-- One step of a thread: the indices stay ordered and only grow, and each is
changed by those threads only that may do so. -/
structure Advances {T : Type} {SIZE : Nat} (q : LockFreeQueue T SIZE) (p : Point T)
    (q' : LockFreeQueue T SIZE) (p' : Point T) : Prop where
  ordered : Ordered q'
  holds : p'.Holds q'
  readIndex_le : q.readIndex.toNat ≤ q'.readIndex.toNat
  writeIndex_le : q.writeIndex.toNat ≤ q'.writeIndex.toNat
  readIndex_eq : p.taken = none → p.storing = none → q'.readIndex = q.readIndex
  writeIndex_eq : p.enqueues = false → q'.writeIndex = q.writeIndex

section Step

variable {T : Type} {SIZE : Nat} {q q' : LockFreeQueue T SIZE} {p p' : Point T}

/-- A step that leaves the indices alone. -/
theorem Advances.quiet (hOrdered : Ordered q) (hRead : q'.readIndex = q.readIndex)
    (hWrite : q'.writeIndex = q.writeIndex) (hHolds : p'.Holds q') : Advances q p q' p' := by
  refine ⟨⟨?_, ?_⟩, hHolds, ?_, ?_, fun _ _ => hRead, fun _ => hWrite⟩
  · rw [hRead, hWrite]
    exact hOrdered.readIndex_le
  · rw [hRead, hWrite]
    exact hOrdered.writeIndex_le
  · rw [hRead]
  · rw [hWrite]

/-- The element that was found is taken. -/
theorem Advances.take (hOrdered : Ordered q) (hFound : q.readIndex.toNat < q.writeIndex.toNat)
    (hTaken : p.taken ≠ none) (hHolds : p'.Holds (addReadIndex q)) :
    Advances q p (addReadIndex q) p' := by
  have hNext : (q.readIndex + 1).toNat = q.readIndex.toNat + 1 := by
    have hBound := q.writeIndex.toNat_lt
    rw [UInt64.toNat_add, UInt64.toNat_one]
    omega
  have hRoom := hOrdered.writeIndex_le
  refine ⟨⟨?_, ?_⟩, hHolds, ?_, Nat.le_refl _, fun h => absurd h hTaken, fun _ => rfl⟩
  · simp only [addReadIndex, hNext]
    omega
  · simp only [addReadIndex, hNext]
    omega
  · simp only [addReadIndex, hNext]
    omega

/-- An element is added where there is room. -/
theorem Advances.add (hOrdered : Ordered q) (hBudget : q.writeIndex.toNat + 1 ≤ 2 ^ 64 - 1)
    (hRoom : q.writeIndex.toNat < q.readIndex.toNat + SIZE) (hEnqueues : p.enqueues = true)
    (hHolds : p'.Holds (addWriteIndex q)) : Advances q p (addWriteIndex q) p' := by
  have hNext : (q.writeIndex + 1).toNat = q.writeIndex.toNat + 1 := by
    rw [UInt64.toNat_add, UInt64.toNat_one]
    omega
  have hOrder := hOrdered.readIndex_le
  refine ⟨⟨?_, ?_⟩, hHolds, Nat.le_refl _, ?_, fun _ _ => rfl, fun h => ?_⟩
  · simp only [addWriteIndex, hNext]
    omega
  · simp only [addWriteIndex, hNext]
    omega
  · simp only [addWriteIndex, hNext]
    omega
  · rw [h] at hEnqueues
    cases hEnqueues

/-- A `clear` stores an index that is not behind. -/
theorem Advances.store (hOrdered : Ordered q) {w : UInt64} (hLe : w.toNat ≤ q.writeIndex.toNat)
    (hForward : q.readIndex.toNat ≤ w.toNat) (hStoring : p.storing ≠ none)
    (hHolds : p'.Holds (setReadIndex w q)) : Advances q p (setReadIndex w q) p' := by
  have hRoom := hOrdered.writeIndex_le
  refine ⟨⟨hLe, ?_⟩, hHolds, hForward, Nat.le_refl _, fun _ h => absurd h hStoring, fun _ => rfl⟩
  simp only [setReadIndex]
  omega

/-- The room that a `push` sees is there, since `_readIndex` has only grown. -/
theorem room_of_condition (hOrdered : Ordered q) {readIndex : UInt64}
    (hLe : readIndex.toNat ≤ q.readIndex.toNat)
    (hCondition : (q.writeIndex - readIndex).toNat < SIZE ∨ readIndex > q.writeIndex) :
    q.writeIndex.toNat < q.readIndex.toNat + SIZE := by
  have hOrder := hOrdered.readIndex_le
  have hEarlier : readIndex.toNat ≤ q.writeIndex.toNat := hLe.trans hOrder
  rw [gt_iff_lt, UInt64.lt_iff_toNat_lt,
    UInt64.toNat_sub_of_le _ _ (UInt64.le_iff_toNat_le.mpr hEarlier)] at hCondition
  omega

/-- The comparison in `pop`, `front` and `poll`, with a copy of `_writeIndex`. -/
theorem found_holds {writeIndex : UInt64} (hLe : writeIndex.toNat ≤ q.writeIndex.toNat)
    (hFound : ¬ writeIndex ≤ q.readIndex) (kind : Kind) :
    (Point.found q.readIndex kind : Point T).Holds q := by
  rw [UInt64.not_le, UInt64.lt_iff_toNat_lt] at hFound
  cases kind with
  | pop => exact ⟨rfl, by omega⟩
  | front => trivial
  | poll => exact ⟨rfl, by omega⟩

/-- The steps of all functions. -/
theorem step_advances {Thread : Type} [NeZero SIZE] (hOrdered : Ordered q) (hHolds : p.Holds q)
    (hBudget : q.writeIndex.toNat + (protocol Thread T SIZE).due p.phase ≤ 2 ^ 64 - 1)
    (hClear : ∀ w ∈ p.storing, q.readIndex.toNat ≤ w.toNat)
    (hStep : p.step q = some (q', p')) : Advances q p q' p' := by
  cases p with
  | done reply => cases hStep
  | aborted => cases hStep
  | pushSpin value =>
    rw [Point.step] at hStep
    split at hStep
    · cases hStep
      exact .quiet hOrdered rfl rfl trivial
    · cases hStep
      exact .quiet hOrdered rfl rfl trivial
  | spin kind =>
    rw [Point.step] at hStep
    split at hStep
    · cases hStep
      exact .quiet hOrdered rfl rfl trivial
    · cases hStep
      exact .quiet hOrdered rfl rfl trivial
  | pushAdd value =>
    cases hStep
    exact .add hOrdered hBudget hHolds rfl trivial
  | popAdd readIndex =>
    cases hStep
    exact .take hOrdered hHolds.2 (Option.some_ne_none _) trivial
  | pollAdd value readIndex =>
    cases hStep
    exact .take hOrdered hHolds.2 (Option.some_ne_none _) trivial
  | clearStore writeIndex =>
    cases hStep
    exact .store hOrdered hHolds (hClear writeIndex rfl) (Option.some_ne_none _) trivial
  | pushAssert value =>
    cases hStep
    refine .quiet hOrdered rfl rfl ?_
    split <;> trivial
  | assert kind =>
    cases hStep
    refine .quiet hOrdered rfl rfl ?_
    split <;> trivial
  | pushLoadWrite value readIndex =>
    cases hStep
    refine .quiet hOrdered rfl rfl ?_
    split
    · next hCondition => exact room_of_condition hOrdered hHolds hCondition
    · trivial
  | loadRead kind writeIndex =>
    cases hStep
    refine .quiet hOrdered rfl rfl ?_
    split
    · trivial
    · next hFound => exact found_holds hHolds hFound kind
  | pushLoadRead value =>
    cases hStep
    exact .quiet hOrdered rfl rfl (Nat.le_refl _)
  | loadWrite kind =>
    cases hStep
    exact .quiet hOrdered rfl rfl (Nat.le_refl _)
  | clearLoad =>
    cases hStep
    exact .quiet hOrdered rfl rfl (Nat.le_refl _)
  | pushWriteSlot value writeIndex =>
    cases hStep
    exact .quiet hOrdered rfl rfl hHolds
  | pollRead readIndex =>
    cases hStep
    exact .quiet hOrdered rfl rfl hHolds
  | frontRead readIndex =>
    cases hStep
    exact .quiet hOrdered rfl rfl trivial
  | pushLeave reply =>
    cases hStep
    exact .quiet hOrdered rfl rfl trivial
  | leave reply =>
    cases hStep
    exact .quiet hOrdered rfl rfl trivial

/-- What another thread knows survives: it is alone in changing the index that it relies on.
What is left of the queue has not become less while nobody takes from it. -/
theorem Advances.holds_other {p₂ : Point T} (h : Advances q p q' p') (hHolds : p₂.Holds q)
    (hEnqueues : p₂.enqueues = true → q'.writeIndex = q.writeIndex)
    (hTakes : p₂.takes = true → q'.readIndex = q.readIndex) : p₂.Holds q' := by
  have hRead := h.readIndex_le
  have hWrite := h.writeIndex_le
  have hFound : ∀ {readIndex : UInt64},
      readIndex = q.readIndex ∧ q.readIndex.toNat < q.writeIndex.toNat →
      q'.readIndex = q.readIndex →
        readIndex = q'.readIndex ∧ q'.readIndex.toNat < q'.writeIndex.toNat := by
    rintro readIndex ⟨rfl, hLt⟩ hSame
    rw [hSame]
    exact ⟨rfl, by omega⟩
  cases p₂ with
  | pushLoadWrite value readIndex => exact hHolds.trans hRead
  | pushWriteSlot value writeIndex =>
    simp only [Point.Holds] at hHolds ⊢
    rw [hEnqueues rfl]
    omega
  | pushAdd value =>
    simp only [Point.Holds] at hHolds ⊢
    rw [hEnqueues rfl]
    omega
  | loadRead kind writeIndex => exact hHolds.trans hWrite
  | clearStore writeIndex => exact hHolds.trans hWrite
  | popAdd readIndex => exact hFound hHolds (hTakes rfl)
  | pollRead readIndex => exact hFound hHolds (hTakes rfl)
  | pollAdd value readIndex => exact hFound hHolds (hTakes rfl)
  | _ => trivial

end Step

namespace Point

variable {T : Type} {SIZE : Nat} {q q' : LockFreeQueue T SIZE} {p p' : Point T}

theorem Holds.taken_eq (h : p.Holds q) {index : UInt64} (hTaken : p.taken = some index) :
    index = q.readIndex := by
  cases p with
  | popAdd _ => exact (Option.some.inj hTaken).symm.trans h.1
  | pollAdd _ _ => exact (Option.some.inj hTaken).symm.trans h.1
  | _ => cases hTaken

theorem Holds.storing_le (h : p.Holds q) {index : UInt64} (hStoring : p.storing = some index) :
    index.toNat ≤ q.writeIndex.toNat := by
  cases p with
  | clearStore _ =>
    obtain rfl := Option.some.inj hStoring
    exact h
  | _ => cases hStoring

variable [NeZero SIZE]

theorem step_taken {index : UInt64} (hTaken : p.taken = some index)
    (hStep : p.step q = some (q', p')) : q' = addReadIndex q := by
  cases p with
  | popAdd _ => exact (Prod.mk.inj (Option.some.inj hStep)).1.symm
  | pollAdd _ _ => exact (Prod.mk.inj (Option.some.inj hStep)).1.symm
  | _ => cases hTaken

theorem step_storing {index : UInt64} (hStoring : p.storing = some index)
    (hStep : p.step q = some (q', p')) : q' = setReadIndex index q := by
  cases p with
  | clearStore _ =>
    obtain rfl := Option.some.inj hStoring
    exact (Prod.mk.inj (Option.some.inj hStep)).1.symm
  | _ => cases hStoring

theorem step_phase (hStep : p.step q = some (q', p')) :
    (q'.writeIndex = q.writeIndex ∧ (p'.phase = p.phase ∨ p'.phase = .idle)) ∨
      (q' = addWriteIndex q ∧ (∃ value, p.phase = .pending (.push value)) ∧ p'.phase = .idle) := by
  cases p <;> grind [step, phase, phase_found, setEnqueuing, setDequeuing, addReadIndex, writeSlot,
    setReadIndex]

/-- Only the increment of `_writeIndex` uses up what was paid for a `push`. -/
theorem due_step {Thread : Type}
    (hBudget : q.writeIndex.toNat + (protocol Thread T SIZE).due p.phase ≤ 2 ^ 64 - 1)
    (hStep : p.step q = some (q', p')) :
    q'.writeIndex.toNat + (protocol Thread T SIZE).due p'.phase ≤
      q.writeIndex.toNat + (protocol Thread T SIZE).due p.phase := by
  have hIdle : (protocol Thread T SIZE).due (.idle : Phase (Call T) (Reply T)) = 0 := rfl
  rcases step_phase hStep with ⟨hWrite, hPhase | hPhase⟩ | ⟨rfl, ⟨value, hPhase⟩, hPhase'⟩
  · rw [hWrite, hPhase]
  · rw [hWrite, hPhase, hIdle]
    omega
  · have hDue :
        (protocol Thread T SIZE).due (.pending (.push value) : Phase (Call T) (Reply T)) = 1 := rfl
    rw [hPhase, hDue] at hBudget ⊢
    rw [hPhase', hIdle, addWriteIndex, UInt64.toNat_add, UInt64.toNat_one]
    omega

end Point

/-- How a thread may change a flag: not at all, or when it comes in or leaves. -/
def FlagStep (flag flag' inside inside' : Bool) : Prop :=
  (flag' = flag ∧ (inside' = true → inside = true)) ∨ (flag = false ∧ flag' = true) ∨
    (inside = true ∧ inside' = false ∧ flag' = false)

theorem step_enqueuing {T : Type} {SIZE : Nat} [NeZero SIZE] {q q' : LockFreeQueue T SIZE}
    {p p' : Point T} (hStep : p.step q = some (q', p')) :
    FlagStep q.enqueuing q'.enqueuing p.enqueues p'.enqueues := by
  cases p <;> grind [Point.step, FlagStep, Point.enqueues, Point.enqueues_found, setEnqueuing,
    setDequeuing, addReadIndex, addWriteIndex, writeSlot, setReadIndex]

theorem step_dequeuing {T : Type} {SIZE : Nat} [NeZero SIZE] {q q' : LockFreeQueue T SIZE}
    {p p' : Point T} (hStep : p.step q = some (q', p')) :
    FlagStep q.dequeuing q'.dequeuing p.dequeues p'.dequeues := by
  cases p <;> grind [Point.step, FlagStep, Point.dequeues, Point.dequeues_found, setEnqueuing,
    setDequeuing, addReadIndex, addWriteIndex, writeSlot, setReadIndex]

section Guarded

variable {Thread T : Type} {inside : Point T → Bool} {flag flag' : Bool}
  {points : Thread → Option (Point T)}

/-- The flag is set while a thread is inside, and only one thread is. -/
def Guarded (inside : Point T → Bool) (flag : Bool) (points : Thread → Option (Point T)) : Prop :=
  ∃ owner : Option Thread, flag = owner.isSome ∧
    ∀ t, ∀ p ∈ points t, inside p = true → owner = some t

theorem Guarded.eq (h : Guarded inside flag points) {t u : Thread} {p p' : Point T}
    (hp : points t = some p) (hp' : points u = some p') (hInside : inside p = true)
    (hInside' : inside p' = true) : t = u := by
  obtain ⟨owner, -, hOwner⟩ := h
  have ht := hOwner t p hp hInside
  have hu := hOwner u p' hp' hInside'
  rw [ht] at hu
  exact Option.some.inj hu

variable [DecidableEq Thread]

/-- A thread that is not inside comes or goes without a change of the flag. -/
theorem Guarded.update (h : Guarded inside flag points) {t : Thread} {point : Option (Point T)}
    (hPoint : ∀ p ∈ point, inside p = true → ∃ p' ∈ points t, inside p' = true) :
    Guarded inside flag (Function.update points t point) := by
  obtain ⟨owner, hFlag, hOwner⟩ := h
  refine ⟨owner, hFlag, fun u p hp hInside => ?_⟩
  by_cases hu : u = t
  · subst hu
    rw [Function.update_self] at hp
    obtain ⟨p', hp', hInside'⟩ := hPoint p hp hInside
    exact hOwner u p' hp' hInside'
  · rw [Function.update_of_ne hu] at hp
    exact hOwner u p hp hInside

theorem Guarded.step (h : Guarded inside flag points) {t : Thread} {p p' : Point T}
    (hp : points t = some p) (hFlag : FlagStep flag flag' (inside p) (inside p')) :
    Guarded inside flag' (Function.update points t (some p')) := by
  rcases hFlag with ⟨rfl, hKeep⟩ | ⟨hFree, rfl⟩ | ⟨hInside, hLeft, rfl⟩
  · refine h.update fun p'' hp'' hInside => ⟨p, hp, ?_⟩
    obtain rfl := Option.some.inj hp''
    exact hKeep hInside
  · obtain ⟨owner, hFlag, hOwner⟩ := h
    refine ⟨some t, rfl, fun u p'' hp'' hInside => ?_⟩
    by_cases hu : u = t
    · rw [hu]
    · rw [Function.update_of_ne hu] at hp''
      rw [hOwner u p'' hp'' hInside, hFree] at hFlag
      cases hFlag
  · obtain ⟨owner, -, hOwner⟩ := h
    refine ⟨none, rfl, fun u p'' hp'' hInside'' => ?_⟩
    by_cases hu : u = t
    · subst hu
      rw [Function.update_self] at hp''
      obtain rfl := Option.some.inj hp''
      rw [hLeft] at hInside''
      cases hInside''
    · rw [Function.update_of_ne hu] at hp''
      have ht := hOwner t p hp hInside
      rw [hOwner u p'' hp'' hInside''] at ht
      exact absurd (Option.some.inj ht) hu

end Guarded

end clockUtils.container.LockFreeQueue
