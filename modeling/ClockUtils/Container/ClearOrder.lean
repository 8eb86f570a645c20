import ClockUtils.Container.IndexOrder

namespace clockUtils.container.LockFreeQueue

open Concurrent

/-- The step starts a `push`. -/
def startsPush {Thread T : Type} : Label Thread (AnyCall T) (Reply T) → Bool
  | .call _ (.of (.push _)) => true
  | _ => false

/-- The calls that may still increase `_writeIndex`. -/
def phases {Thread T : Type} (points : Thread → Option (Point T)) (t : Thread) :
    Phase (Call T) (Reply T) :=
  (points t).elim .idle Point.phase

/-- With this step a `pop` or `poll` takes the element at the index. -/
def TakesAt {Thread T : Type} {SIZE : Nat} (m : Located Thread (LockFreeQueue T SIZE) (Point T))
    (l : Label Thread (AnyCall T) (Reply T)) (index : UInt64) : Prop :=
  ∃ t p, l = .internal t ∧ m.points t = some p ∧ p.taken = some index

/-- With this step a `clear` stores the index. -/
def StoresAt {Thread T : Type} {SIZE : Nat} (m : Located Thread (LockFreeQueue T SIZE) (Point T))
    (l : Label Thread (AnyCall T) (Reply T)) (index : UInt64) : Prop :=
  ∃ t p, l = .internal t ∧ m.points t = some p ∧ p.storing = some index

variable {Thread T : Type} {SIZE : Nat} [DecidableEq Thread] [NeZero SIZE]
  {m m' : Located Thread (LockFreeQueue T SIZE) (Point T)} {paid : Nat}

/-- What holds in every state of a run in which `paid` pushes have begun. -/
structure OrderInv (m : Located Thread (LockFreeQueue T SIZE) (Point T)) (paid : Nat) : Prop where
  ordered : Ordered m.shared
  holds : ∀ t, ∀ p ∈ m.points t, p.Holds m.shared
  enqueuing : Guarded Point.enqueues m.shared.enqueuing m.points
  dequeuing : Guarded Point.dequeues m.shared.dequeuing m.points
  covered : (protocol Thread T SIZE).Covered (phases m.points) m.shared.writeIndex.toNat paid

theorem phases_update (points : Thread → Option (Point T)) (t : Thread) (point : Option (Point T)) :
    phases (Function.update points t point) =
      Function.update (phases points) t (point.elim .idle Point.phase) := by
  funext u
  exact Function.apply_update (fun _ point => point.elim .idle Point.phase) points t point u

namespace OrderInv

/-- A call begins or ends: the thread has nothing to know yet or any more. -/
theorem replace (h : OrderInv m paid) {t : Thread} {point : Option (Point T)}
    (hPoint : ∀ p ∈ point, p.Holds m.shared ∧ p.enqueues = false ∧ p.dequeues = false) {more : Nat}
    (hMore : (protocol Thread T SIZE).due (point.elim .idle Point.phase) ≤ more) :
    OrderInv ⟨m.shared, Function.update m.points t point⟩ (paid + more) := by
  refine ⟨h.ordered, ?_, h.enqueuing.update fun p hp hInside => ?_,
    h.dequeuing.update fun p hp hInside => ?_, ?_⟩
  · rw [Function.forall_update_iff m.points fun _ point => ∀ p ∈ point, p.Holds m.shared]
    exact ⟨fun p hp => (hPoint p hp).1, fun u _ => h.holds u⟩
  · rw [(hPoint p hp).2.1] at hInside
    cases hInside
  · rw [(hPoint p hp).2.2] at hInside
    cases hInside
  · rw [phases_update]
    refine h.covered.update ?_
    simp only
    omega

/-- What may still be added is what was paid for. -/
theorem budget (h : OrderInv m paid) (hPaid : paid < 2 ^ 64) {t : Thread} {p : Point T}
    (hp : m.points t = some p) :
    m.shared.writeIndex.toNat + (protocol Thread T SIZE).due p.phase ≤ 2 ^ 64 - 1 := by
  have hDue := h.covered.due_le t
  rw [phases, hp, Option.elim_some] at hDue
  omega

omit [DecidableEq Thread] [NeZero SIZE] in
/-- A `clear` that meets the condition does not go back. -/
theorem forward {t : Thread} {p : Point T} (hp : m.points t = some p)
    (hClear : ClearsInOrder m (.internal t)) :
    ∀ w ∈ p.storing, m.shared.readIndex.toNat ≤ w.toNat := by
  intro w hw
  have hStore := hClear w (by rw [hp]; exact hw)
  rcases hStore with hEq | ⟨hLt, -⟩
  · rw [hEq]
  · rw [UInt64.lt_iff_toNat_lt] at hLt
    omega

/-- The step of one thread. -/
theorem advances (h : OrderInv m paid) (hPaid : paid < 2 ^ 64) {t : Thread} {p p' : Point T}
    (hp : m.points t = some p) (hClear : ClearsInOrder m (.internal t))
    {q' : LockFreeQueue T SIZE} (hStep : p.step m.shared = some (q', p')) :
    Advances m.shared p q' p' :=
  step_advances h.ordered (h.holds t p hp) (h.budget hPaid hp) (forward hp hClear) hStep

omit [DecidableEq Thread] in
/-- The other threads are outside of the part that changes their index. -/
theorem holds_other (h : OrderInv m paid) {t u : Thread} {p p₂ p' : Point T}
    (hp : m.points t = some p) (hp₂ : m.points u = some p₂) (hu : u ≠ t)
    (hClear : ClearsInOrder m (.internal t)) {q' : LockFreeQueue T SIZE}
    (hStep : p.step m.shared = some (q', p')) (hAdvances : Advances m.shared p q' p') :
    p₂.Holds q' := by
  refine hAdvances.holds_other (h.holds u p₂ hp₂) (fun hEnqueues => ?_) (fun hTakes => ?_)
  · refine hAdvances.writeIndex_eq ?_
    by_contra hInside
    exact hu (h.enqueuing.eq hp₂ hp hEnqueues (by simpa using hInside))
  · cases hStoring : p.storing with
    | none =>
      refine hAdvances.readIndex_eq ?_ hStoring
      by_contra hTaken
      exact hu (h.dequeuing.eq hp₂ hp (Point.dequeues_of_takes hTakes)
        (Point.dequeues_of_takes (Point.takes_of_taken hTaken)))
    | some w =>
      rcases hClear w (by rw [hp]; exact hStoring) with hEq | ⟨-, hNobody⟩
      · rw [Point.step_storing hStoring hStep, hEq]
        rfl
      · rw [hNobody u p₂ hp₂] at hTakes
        cases hTakes

theorem internal (h : OrderInv m paid) (hPaid : paid < 2 ^ 64) {t : Thread} {p p' : Point T}
    (hp : m.points t = some p) (hClear : ClearsInOrder m (.internal t))
    {q' : LockFreeQueue T SIZE} (hStep : p.step m.shared = some (q', p')) :
    OrderInv ⟨q', Function.update m.points t (some p')⟩ paid := by
  have hAdvances := h.advances hPaid hp hClear hStep
  refine ⟨hAdvances.ordered, ?_, h.enqueuing.step hp (step_enqueuing hStep),
    h.dequeuing.step hp (step_dequeuing hStep), ?_⟩
  · rw [Function.forall_update_iff m.points fun _ point => ∀ p ∈ point, p.Holds q']
    refine ⟨fun p₂ hp₂ => ?_, fun u hu p₂ hp₂ => ?_⟩
    · obtain rfl := Option.some.inj hp₂
      exact hAdvances.holds
    · exact h.holds_other hp hp₂ hu hClear hStep hAdvances
  · rw [phases_update, ← Nat.add_zero paid]
    refine h.covered.update ?_
    rw [phases, hp]
    exact Point.due_step (h.budget hPaid hp) hStep

variable [DecidableEq T] {l : Label Thread (AnyCall T) (Reply T)}
  {labels : List (Label Thread (AnyCall T) (Reply T))}

theorem step (h : OrderInv m paid) (hPaid : paid < 2 ^ 64) (hClear : ClearsInOrder m l)
    (hStep : m.step (Point.graph T SIZE) l = some m') :
    OrderInv m' (paid + if startsPush l then 1 else 0) := by
  rcases Located.step_cases hStep with ⟨t, op, rfl, rfl⟩ | ⟨t, r, rfl, rfl⟩ |
    ⟨t, p, q', p', rfl, hp, hNext, rfl⟩
  · refine h.replace (fun p hp => ?_) ?_
    · obtain rfl := Option.some.inj hp
      cases op with
      | of op => cases op <;> exact ⟨trivial, rfl, rfl⟩
      | clear => exact ⟨trivial, rfl, rfl⟩
    · cases op with
      | of op => cases op <;> exact Nat.le_refl _
      | clear => exact Nat.le_refl _
  · exact h.replace (fun p hp => by cases hp) (Nat.le_refl _)
  · exact h.internal hPaid hp hClear hNext

omit [DecidableEq Thread] [DecidableEq T] in
/-- The index that is taken is the one in `_readIndex`. -/
theorem taken_eq (h : OrderInv m paid) {index : UInt64} (hTakes : TakesAt m l index) :
    index = m.shared.readIndex := by
  obtain ⟨t, p, -, hp, hTaken⟩ := hTakes
  exact (h.holds t p hp).taken_eq hTaken

theorem readIndex_take (h : OrderInv m paid) (hPaid : paid < 2 ^ 64) (hClear : ClearsInOrder m l)
    {index : UInt64} (hTakes : TakesAt m l index)
    (hStep : m.step (Point.graph T SIZE) l = some m') :
    m'.shared.readIndex.toNat = m.shared.readIndex.toNat + 1 := by
  obtain ⟨t, p, rfl, hp, hTaken⟩ := hTakes
  rcases Located.step_cases hStep with ⟨t', op, hl, -⟩ | ⟨t', r, hl, -⟩ |
    ⟨t', p₂, q', p', hl, hp₂, hNext, rfl⟩
  · cases hl
  · cases hl
  · obtain rfl := Label.internal.inj hl
    obtain rfl : p = p₂ := Option.some.inj (hp.symm.trans hp₂)
    have hLe := (h.advances hPaid hp hClear hNext).readIndex_le
    have hBound := m.shared.readIndex.toNat_lt
    obtain rfl := Point.step_taken hTaken hNext
    simp only [addReadIndex, UInt64.toNat_add, UInt64.toNat_one] at hLe ⊢
    omega

/-- How `_readIndex` changes with a step. -/
theorem readIndex_step (h : OrderInv m paid) (hPaid : paid < 2 ^ 64) (hClear : ClearsInOrder m l)
    (hStep : m.step (Point.graph T SIZE) l = some m') :
    m'.shared.readIndex = m.shared.readIndex ∨
      (TakesAt m l m.shared.readIndex ∧
        m'.shared.readIndex.toNat = m.shared.readIndex.toNat + 1) ∨
      (StoresAt m l m'.shared.readIndex ∧
        m'.shared.readIndex.toNat ≤ m.shared.writeIndex.toNat ∧
        m.shared.readIndex.toNat ≤ m'.shared.readIndex.toNat) := by
  rcases Located.step_cases hStep with ⟨t, op, rfl, rfl⟩ | ⟨t, r, rfl, rfl⟩ |
    ⟨t, p, q', p', rfl, hp, hNext, rfl⟩
  · exact .inl rfl
  · exact .inl rfl
  · have hAdvances := h.advances hPaid hp hClear hNext
    have hHolds := h.holds t p hp
    cases hTaken : p.taken with
    | some index =>
      have hTakes : TakesAt m (.internal t) index := ⟨t, p, rfl, hp, hTaken⟩
      have hNow := h.readIndex_take hPaid hClear hTakes hStep
      obtain rfl := h.taken_eq hTakes
      exact .inr (.inl ⟨hTakes, hNow⟩)
    | none =>
      cases hStoring : p.storing with
      | none => exact .inl (hAdvances.readIndex_eq hTaken hStoring)
      | some w =>
        obtain rfl := Point.step_storing hStoring hNext
        exact .inr (.inr ⟨⟨t, p, rfl, hp, hStoring⟩, hHolds.storing_le hStoring,
          hAdvances.readIndex_le⟩)

theorem readIndex_le_step (h : OrderInv m paid) (hPaid : paid < 2 ^ 64) (hClear : ClearsInOrder m l)
    (hStep : m.step (Point.graph T SIZE) l = some m') :
    m.shared.readIndex.toNat ≤ m'.shared.readIndex.toNat := by
  rcases h.readIndex_step hPaid hClear hStep with hEq | ⟨-, hNext⟩ | ⟨-, -, hLe⟩
  · rw [hEq]
  · omega
  · exact hLe

/-- All steps of a run that meets the condition. -/
theorem run (h : OrderInv m paid) (hPaid : paid + labels.countP startsPush < 2 ^ 64)
    (hOrder : RunsInOrder m labels) (hRun : m.run (Point.graph T SIZE) labels = some m') :
    OrderInv m' (paid + labels.countP startsPush) ∧
      m.shared.readIndex.toNat ≤ m'.shared.readIndex.toNat := by
  have hSteps : StepRun.run (Located.step (Point.graph T SIZE)) m labels = some m' := hRun
  apply StepRun.run_counted (I := fun m₁ n => OrderInv m₁ n ∧
    m.shared.readIndex.toNat ≤ m₁.shared.readIndex.toNat) ?_ hSteps hOrder ⟨h, Nat.le_refl _⟩ hPaid
  rintro m₁ l m₂ n ⟨hInv, hLe⟩ hClear hn hStep
  exact ⟨hInv.step hn hClear hStep, hLe.trans (hInv.readIndex_le_step hn hClear hStep)⟩

/-- Every index that `_readIndex` has passed was taken, or a `clear` stored a
greater one when the element was there. -/
theorem passed (h : OrderInv m paid) (hPaid : paid + labels.countP startsPush < 2 ^ 64)
    (hOrder : RunsInOrder m labels) (hRun : m.run (Point.graph T SIZE) labels = some m')
    {i : UInt64} (hFrom : m.shared.readIndex ≤ i) (hTo : i < m'.shared.readIndex) :
    ∃ before l after m₁, labels = before ++ l :: after ∧
      m.run (Point.graph T SIZE) before = some m₁ ∧
      (TakesAt m₁ l i ∨ ∃ w, StoresAt m₁ l w ∧ i < w ∧ w ≤ m₁.shared.writeIndex) := by
  induction labels generalizing m paid with
  | nil =>
    obtain rfl := Option.some.inj hRun
    exact absurd hTo (UInt64.not_lt.mpr hFrom)
  | cons l labels ih =>
    rw [Located.run_cons, Option.bind_eq_some_iff] at hRun
    obtain ⟨m₁, hStep, hRun⟩ := hRun
    rw [List.countP_cons, Nat.add_comm (labels.countP startsPush), ← Nat.add_assoc] at hPaid
    have hStart : paid < 2 ^ 64 := by omega
    by_cases hNow : i < m₁.shared.readIndex
    · refine ⟨[], l, labels, m, rfl, rfl, ?_⟩
      rcases h.readIndex_step hStart hOrder.1 hStep with hEq | ⟨hTakes, hNext⟩ | ⟨hStores, hLe, -⟩
      · rw [hEq] at hNow
        exact absurd hNow (UInt64.not_lt.mpr hFrom)
      · left
        rw [UInt64.le_iff_toNat_le] at hFrom
        rw [UInt64.lt_iff_toNat_lt] at hNow
        obtain rfl : m.shared.readIndex = i := UInt64.toNat_inj.mp (by omega)
        exact hTakes
      · exact .inr ⟨_, hStores, hNow, UInt64.le_iff_toNat_le.mpr hLe⟩
    · obtain ⟨before, l', after, m₂, rfl, hBefore, hPassed⟩ :=
        ih (h.step hStart hOrder.1 hStep) hPaid (hOrder.2 m₁ hStep) hRun (UInt64.not_lt.mp hNow)
      refine ⟨l :: before, l', after, m₂, rfl, ?_, hPassed⟩
      rw [Located.run_cons, hStep]
      exact hBefore

end OrderInv

omit [DecidableEq Thread] in
theorem new_orderInv [Inhabited T] :
    OrderInv (Located.start (new T SIZE) : Located Thread (LockFreeQueue T SIZE) (Point T)) 0 := by
  have hGuarded : ∀ inside : Point T → Bool, Guarded inside false fun _ : Thread => none :=
    fun inside => ⟨none, rfl, fun t p hp => by cases hp⟩
  refine ⟨⟨Nat.le_refl _, Nat.zero_le _⟩, ?_, hGuarded _, hGuarded _, ∅, fun _ _ => rfl,
    Nat.le_refl _⟩
  intro t p hp
  cases hp

/-- The states of a run from the constructor on, with the points of the threads. -/
def ReachedBy [DecidableEq T] [Inhabited T] (labels : List (Label Thread (AnyCall T) (Reply T)))
    (m : Located Thread (LockFreeQueue T SIZE) (Point T)) : Prop :=
  (Located.start (new T SIZE)).run (Point.graph T SIZE) labels = some m

/-- The programs reach a state when their points do. -/
theorem exists_reachedBy [DecidableEq T] [Inhabited T]
    {labels : List (Label Thread (AnyCall T) (Reply T))}
    {c : Config Thread (LockFreeQueue T SIZE) (Reply T)}
    (hRun : (Config.start (new T SIZE)).run AnyCall.body labels = some c) :
    ∃ m : Located Thread (LockFreeQueue T SIZE) (Point T), ReachedBy labels m ∧
      m.shared = c.shared := by
  have hConfig := Located.config_run Point.graph_cuts
    (Located.start (new T SIZE) : Located Thread (LockFreeQueue T SIZE) (Point T)) labels
  have hRun' := hConfig.symm.trans hRun
  obtain ⟨m, hReached, rfl⟩ := Option.map_eq_some_iff.mp hRun'
  exact ⟨m, hReached, rfl⟩

/-- A run can be cut at any of its states. -/
theorem ReachedBy.cut [DecidableEq T] [Inhabited T]
    {before after : List (Label Thread (AnyCall T) (Reply T))}
    (hReached : ReachedBy (before ++ after) m)
    (hPushes : (before ++ after).countP startsPush < 2 ^ 64)
    (hOrder : RunsInOrder (Located.start (new T SIZE)) (before ++ after))
    (hBefore : ReachedBy before m') :
    OrderInv m' (before.countP startsPush) ∧
      before.countP startsPush + after.countP startsPush < 2 ^ 64 ∧ RunsInOrder m' after ∧
      m'.run (Point.graph T SIZE) after = some m := by
  rw [List.countP_append] at hPushes
  obtain ⟨hFirst, hRest⟩ := StepRun.along_append.mp hOrder
  have hInv := (new_orderInv.run (by omega) hFirst hBefore).1
  rw [Nat.zero_add] at hInv
  unfold ReachedBy at hReached hBefore
  rw [Located.run_append, hBefore, Option.bind_some] at hReached
  exact ⟨hInv, hPushes, hRest m' hBefore, hReached⟩

/-- Of two increments the later one takes the greater index. -/
theorem ReachedBy.taken_lt [DecidableEq T] [Inhabited T]
    {before middle : List (Label Thread (AnyCall T) (Reply T))}
    {l l' : Label Thread (AnyCall T) (Reply T)} {i j : UInt64}
    (hPushes : (before ++ l :: middle).countP startsPush < 2 ^ 64)
    (hOrder : RunsInOrder (Located.start (new T SIZE)) (before ++ l :: middle))
    (hFirst : ReachedBy before m) (hSecond : ReachedBy (before ++ l :: middle) m')
    (hTakes : TakesAt m l i) (hTakes' : TakesAt m' l' j) : i < j := by
  obtain ⟨hInv, hPaid, hRest, hRun⟩ := hSecond.cut hPushes hOrder hFirst
  have hInv' := (hInv.run hPaid hRest hRun).1
  rw [Located.run_cons, Option.bind_eq_some_iff] at hRun
  obtain ⟨m₁, hStep, hRun⟩ := hRun
  rw [List.countP_cons, Nat.add_comm (middle.countP startsPush), ← Nat.add_assoc] at hPaid
  have hStart : before.countP startsPush < 2 ^ 64 := by omega
  have hNext := hInv.readIndex_take hStart hRest.1 hTakes hStep
  have hLe := ((hInv.step hStart hRest.1 hStep).run hPaid (hRest.2 m₁ hStep) hRun).2
  rw [hInv.taken_eq hTakes, hInv'.taken_eq hTakes', UInt64.lt_iff_toNat_lt]
  omega

/-- In every interleaving of any calls, `clear` included, less than `2 ^ 64` of
them pushes, in which every `clear` that changes `_readIndex` raises it while no
thread is between the comparison of the indices and the increment: the indices
are ordered in all states and `_readIndex` never decreases. Therefore no index is
taken twice, and what is passed without being taken was in the queue when a
`clear` stored its index. -/
theorem indices_stay_ordered [DecidableEq T] [Inhabited T]
    (labels : List (Label Thread (AnyCall T) (Reply T)))
    {c : Config Thread (LockFreeQueue T SIZE) (Reply T)}
    (hRun : (Config.start (new T SIZE)).run AnyCall.body labels = some c)
    (hPushes : labels.countP startsPush < 2 ^ 64)
    (hOrder : RunsInOrder (Located.start (new T SIZE)) labels) :
    (∀ before after c₁, labels = before ++ after →
      (Config.start (new T SIZE)).run AnyCall.body before = some c₁ →
        Ordered c₁.shared ∧ c₁.shared.readIndex ≤ c.shared.readIndex) ∧
    (∀ before l middle l' after i j,
      ∀ m₁ m₂ : Located Thread (LockFreeQueue T SIZE) (Point T),
        labels = before ++ l :: (middle ++ l' :: after) → ReachedBy before m₁ →
        ReachedBy (before ++ l :: middle) m₂ → TakesAt m₁ l i → TakesAt m₂ l' j → i < j) ∧
    ∀ i < c.shared.readIndex, ∃ before l after,
      ∃ m₁ : Located Thread (LockFreeQueue T SIZE) (Point T),
        labels = before ++ l :: after ∧ ReachedBy before m₁ ∧
        (TakesAt m₁ l i ∨ ∃ w, StoresAt m₁ l w ∧ i < w ∧ w ≤ m₁.shared.writeIndex) := by
  obtain ⟨m, hReached, hShared⟩ := exists_reachedBy hRun
  rw [← hShared]
  refine ⟨?_, ?_, ?_⟩
  · rintro before after c₁ rfl hBefore
    obtain ⟨m₁, hFirst, hShared₁⟩ := exists_reachedBy hBefore
    obtain ⟨hInv, hPaid, hRest, hLater⟩ := hReached.cut hPushes hOrder hFirst
    have hLe := (hInv.run hPaid hRest hLater).2
    rw [← hShared₁]
    exact ⟨hInv.ordered, UInt64.le_iff_toNat_le.mpr hLe⟩
  · rintro before l middle l' after i j m₁ m₂ rfl hFirst hSecond hTakes hTakes'
    rw [← List.cons_append, ← List.append_assoc] at hPushes hOrder
    refine ReachedBy.taken_lt ?_ (StepRun.along_append.mp hOrder).1 hFirst hSecond hTakes hTakes'
    rw [List.countP_append] at hPushes
    omega
  · intro i hi
    exact new_orderInv.passed (by omega) hOrder hReached (UInt64.zero_le) hi

/-- A whole call by a thread that is not interrupted. -/
def uninterrupted {Thread Op Ret : Type} (t : Thread) (op : Op) (steps : Nat) (r : Ret) :
    List (Label Thread Op Ret) :=
  .call t op :: (List.replicate steps (.internal t) ++ [.ret t r])

/-- The threads of the runs below. -/
inductive Worker where
  | producer
  | consumer
  | cleaner
deriving DecidableEq

instance : Fintype Worker where
  elems := {.producer, .consumer, .cleaner}
  complete worker := by cases worker <;> decide

/-- A `clear` while a `poll` has not yet compared the indices. -/
def clearBeforeCompare : List (Label Worker (AnyCall Nat) (Reply Nat)) :=
  uninterrupted .producer (.of (.push 5)) 7 ⟨.SUCCESS, none⟩ ++
    [.call .cleaner .clear, .internal .cleaner, .call .consumer (.of .poll), .internal .consumer,
      .internal .consumer, .internal .consumer, .internal .cleaner,
      .ret .cleaner ⟨.SUCCESS, none⟩, .internal .consumer, .internal .consumer,
      .ret .consumer ⟨.NO_ELEMENT, none⟩]

theorem indices_stay_ordered_clear :
    ∃ c, (Config.start (new Nat 2)).run AnyCall.body clearBeforeCompare = some c ∧
      clearBeforeCompare.countP startsPush < 2 ^ 64 ∧
      RunsInOrder (Located.start (new Nat 2)) clearBeforeCompare ∧ Ordered c.shared ∧
      c.shared.readIndex = 1 := by
  have hIndex : ((Config.start (new Nat 2)).run AnyCall.body clearBeforeCompare).map
      (fun c => c.shared.readIndex) = some 1 := by decide
  have hOrder : RunsInOrder (Located.start (new Nat 2)) clearBeforeCompare := by decide
  obtain ⟨c, hRun, hRead⟩ := Option.map_eq_some_iff.mp hIndex
  have hAll := (indices_stay_ordered clearBeforeCompare hRun (by decide) hOrder).1
  exact ⟨c, hRun, by decide, hOrder, (hAll clearBeforeCompare [] c (by simp) hRun).1, hRead⟩

/-- A `clear` between the comparison and the increment of a `pop`. -/
def clearDuringPop : List (Label Worker (AnyCall Nat) (Reply Nat)) :=
  uninterrupted .producer (.of (.push 5)) 7 ⟨.SUCCESS, none⟩ ++
    .call .consumer (.of .pop) :: List.replicate 4 (.internal .consumer) ++
    uninterrupted .cleaner .clear 2 ⟨.SUCCESS, none⟩ ++ [.internal .consumer]

/-- A `clear` that has loaded `_writeIndex` before a `push` and a `pop`. -/
def staleClear : List (Label Worker (AnyCall Nat) (Reply Nat)) :=
  [.call .cleaner .clear, .internal .cleaner] ++
    uninterrupted .producer (.of (.push 5)) 7 ⟨.SUCCESS, none⟩ ++
    uninterrupted .consumer (.of .pop) 6 ⟨.SUCCESS, none⟩

/-- In the first run `_readIndex` ends ahead of `_writeIndex`; in the second one
the last step of the `clear` lowers it, and a `poll` hands out the element that
the `pop` has removed. -/
theorem clear_breaks_order :
    clearDuringPop.countP startsPush < 2 ^ 64 ∧ staleClear.countP startsPush < 2 ^ 64 ∧
    ((Config.start (new Nat 1)).run AnyCall.body clearDuringPop).map
      (fun c => (c.shared.readIndex, c.shared.writeIndex)) = some (2, 1) ∧
    ((Config.start (new Nat 1)).run AnyCall.body staleClear).map
      (fun c => (c.shared.readIndex, c.shared.writeIndex)) = some (1, 1) ∧
    ((Config.start (new Nat 1)).run AnyCall.body (staleClear ++ [.internal .cleaner])).map
      (fun c => (c.shared.readIndex, c.shared.writeIndex)) = some (0, 1) ∧
    ((Config.start (new Nat 1)).run AnyCall.body (staleClear ++ .internal .cleaner ::
      uninterrupted .consumer (.of .poll) 7 ⟨.SUCCESS, some 5⟩)).isSome = true := by
  decide

end clockUtils.container.LockFreeQueue
