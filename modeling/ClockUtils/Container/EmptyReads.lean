import ClockUtils.Container.Sequential
import ClockUtils.Container.SizeReads

namespace clockUtils.container.LockFreeQueue

open Concurrent

theorem beq_eq_sub_beq_zero (readIdx writeIdx : UInt64) :
    (readIdx == writeIdx) = (writeIdx - readIdx == 0) := by
  rw [Bool.eq_iff_iff, beq_iff_eq, beq_iff_eq]
  constructor
  · rintro rfl
    exact UInt64.sub_self readIdx
  · intro hZero
    have hCancel := UInt64.sub_add_cancel writeIdx readIdx
    rwa [hZero, UInt64.zero_add] at hCancel

theorem empty_eq_map_size {T : Type} {SIZE : Nat} :
    (empty : Prog (LockFreeQueue T SIZE) Bool) = size.map fun n => n == 0 := by
  unfold empty size Prog.load
  simp only [Prog.map]
  congr 1
  funext q
  congr 1
  funext q'
  rw [beq_eq_sub_beq_zero]

/-- The calls that do not clear the queue, without what `empty` and `size` make of
the indices. -/
def reduced {T : Type} : QueueCall T → Option (Call T ⊕ Query)
  | .of (.of op) => some (.inl op)
  | .of .clear => none
  | .empty => some (.inr .size)
  | .size => some (.inr .size)

theorem exists_reduced {T : Type} {SIZE : Nat} [NeZero SIZE] {call : QueueCall T}
    (hClear : call ≠ .of .clear) :
    ∃ op g, reduced call = some op ∧
      (queueBody call : Prog (LockFreeQueue T SIZE) (Answer T)) = (sizedBody op).map g := by
  cases call with
  | of op =>
    cases op with
    | clear => exact absurd rfl hClear
    | of op =>
      refine ⟨.inl op, Sum.elim .reply fun n => .count n.toNat, rfl, ?_⟩
      rw [queueBody, sizedBody, withQueries, Prog.map_map]
      rfl
  | empty =>
    refine ⟨.inr .size, Sum.elim .reply fun n => .emptiness (n == 0), rfl, ?_⟩
    rw [queueBody, empty_eq_map_size, Prog.map_map]
    exact (Prog.map_map _ _ _).symm
  | size =>
    refine ⟨.inr .size, Sum.elim .reply fun n => .count n.toNat, rfl, ?_⟩
    exact (Prog.map_map _ _ _).symm

/-- The steps of programs that may call every member function, and their states. -/
abbrev QueueLabel (Thread T : Type) :=
  Label Thread (QueueCall T) (Answer T)

abbrev QueueConfig (Thread T : Type) (SIZE : Nat) :=
  Config Thread (LockFreeQueue T SIZE) (Answer T)

/-- The step starts a `push`. -/
def beginsPush {Thread T : Type} : QueueLabel Thread T → Bool
  | .call _ (.of (.of (.push _))) => true
  | _ => false

/-- The step does not start a `clear`. -/
def KeepsElements {Thread T : Type} (l : QueueLabel Thread T) : Prop :=
  ∀ t, l ≠ .call t (.of .clear)

theorem exists_push_of_asksPush {Thread T : Type} {l : SizedLabel Thread T}
    (h : asksPush l = true) : ∃ t value, l = .call t (.inl (.push value)) := by
  match l with
  | .call t (.inl (.push value)) => exact ⟨t, value, rfl⟩

theorem push_of_reduced {T : Type} {call : QueueCall T} {value : T}
    (h : reduced call = some (.inl (.push value))) : call = .of (.of (.push value)) := by
  match call with
  | .of (.of op) => rw [Sum.inl.inj (Option.some.inj h)]

section Run

variable {Thread T : Type} {SIZE : Nat} [DecidableEq Thread] [DecidableEq T] [NeZero SIZE]
  {c c' : QueueConfig Thread T SIZE} {n : Nat} {labels : List (QueueLabel Thread T)}

/-- A state in which at most `n` pushes have begun. -/
def QueueTracked (c : QueueConfig Thread T SIZE) (n : Nat) : Prop :=
  ∃ d : SizedConfig Thread T SIZE, Presents c d ∧ Tracked d n

omit [DecidableEq Thread] [DecidableEq T] in
theorem QueueTracked.ordered (h : QueueTracked c n) : Ordered c.shared := by
  obtain ⟨d, hPresents, hTracked⟩ := h
  rw [hPresents.shared]
  exact hTracked.ordered

/-- One step of a program that clears nothing: a `push` without the other results is a
`push` with them. -/
theorem QueueTracked.step (h : QueueTracked c n) (hn : n < 2 ^ 64) {l : QueueLabel Thread T}
    (hKeeps : KeepsElements l) (hStep : c.step queueBody l = some c') :
    QueueTracked c' (n + if beginsPush l then 1 else 0) ∧ IndexStep c.shared c'.shared := by
  obtain ⟨d, hPresents, hTracked⟩ := h
  obtain ⟨l', d', hStep', hPresents', hCall⟩ :=
    hPresents.step (R := fun call op => reduced call = some op)
      (fun t call hl => exists_reduced fun hClear => hKeeps t (hClear ▸ hl)) hStep
  obtain ⟨⟨m, paid, hPaid, hRest⟩, hIndex⟩ := hTracked.step hn hStep'
  rw [hPresents.shared, hPresents'.shared]
  refine ⟨⟨d', hPresents', m, paid, hPaid.trans (Nat.add_le_add_left ?_ n), hRest⟩, hIndex⟩
  cases hPush : asksPush l' with
  | false => exact Nat.zero_le _
  | true =>
    obtain ⟨t, value, rfl⟩ := exists_push_of_asksPush hPush
    obtain ⟨call, rfl, hReduced⟩ := hCall t _ rfl
    rw [push_of_reduced hReduced]
    exact Nat.le_refl _

theorem QueueTracked.run (h : QueueTracked c n) (hn : n + labels.countP beginsPush < 2 ^ 64)
    (hKeeps : ∀ l ∈ labels, KeepsElements l) (hRun : c.run queueBody labels = some c') :
    QueueTracked c' (n + labels.countP beginsPush) := by
  have hSteps : StepRun.run (Config.step queueBody) c labels = some c' := hRun
  have hAlong : StepRun.Along (Config.step queueBody) (fun _ l => KeepsElements l) c labels :=
    StepRun.along_of_forall_mem (fun l hl _ => hKeeps l hl) c
  refine StepRun.run_counted ?_ hSteps hAlong h hn
  intro c₁ l c₂ n hTracked hKeep hn hStep
  exact (hTracked.step hn hKeep hStep).1

theorem QueueTracked.counts (h : QueueTracked c n) (hn : n + labels.countP beginsPush < 2 ^ 64)
    (hKeeps : ∀ l ∈ labels, KeepsElements l) :
    StepRun.Along (Config.step queueBody)
      (StepRun.Counts (Config.step queueBody) takenCount addedCount) c labels := by
  have hAlong : StepRun.Along (Config.step queueBody) (fun _ l => KeepsElements l) c labels :=
    StepRun.along_of_forall_mem (fun l hl _ => hKeeps l hl) c
  refine StepRun.along_counted ?_ ?_ hAlong h hn
  · intro c₁ l c₂ n hTracked hKeep hn hStep
    exact (hTracked.step hn hKeep hStep).1
  · intro c₁ l n hTracked hKeep hn c₂ hStep
    exact (hTracked.step hn hKeep hStep).2.counts

omit [DecidableEq Thread] [DecidableEq T] in
theorem new_queueTracked [Inhabited T] :
    QueueTracked (Config.start (new T SIZE) : QueueConfig Thread T SIZE) 0 :=
  ⟨Config.start (new T SIZE), ⟨rfl, fun _ => ⟨fun _ => .count 0, rfl⟩⟩, new_tracked⟩

end Run

section Reads

variable {Thread T : Type} {SIZE : Nat} [DecidableEq Thread] [DecidableEq T] [NeZero SIZE]
  [Inhabited T] {c c₁ c₂ : QueueConfig Thread T SIZE}
  {first during between : List (QueueLabel Thread T)} {t : Thread}

/-- The states of a run from the constructor on. -/
def QueueRun (labels : List (QueueLabel Thread T)) (c : QueueConfig Thread T SIZE) : Prop :=
  (Config.start (new T SIZE)).run queueBody labels = some c

/-- What is known of the steps between two reads. -/
structure ReadsAround (first between : List (QueueLabel Thread T))
    (c₁ c₂ : QueueConfig Thread T SIZE) : Prop where
  reached : QueueRun first c₁
  passed : c₁.run queueBody between = some c₂
  counts : StepRun.Along (Config.step queueBody)
    (StepRun.Counts (Config.step queueBody) takenCount addedCount) c₁ between
  ordered : ∀ before after c, between = before ++ after → c₁.run queueBody before = some c →
    takenCount c ≤ addedCount c

theorem readsAround (hFirst : QueueRun first c₁) (hBetween : c₁.run queueBody between = some c₂)
    (hKeeps : ∀ l ∈ first ++ between, KeepsElements l)
    (hPushes : (first ++ between).countP beginsPush < 2 ^ 64) :
    ReadsAround first between c₁ c₂ := by
  obtain ⟨hKeepsFirst, hKeepsBetween⟩ := List.forall_mem_append.mp hKeeps
  rw [List.countP_append] at hPushes
  have hTracked : QueueTracked c₁ (0 + first.countP beginsPush) :=
    new_queueTracked.run (by omega) hKeepsFirst hFirst
  refine ⟨hFirst, hBetween, hTracked.counts (by omega) hKeepsBetween, ?_⟩
  rintro before after c rfl hBefore
  rw [List.countP_append] at hPushes
  have hKeepsBefore := (List.forall_mem_append.mp hKeepsBetween).1
  exact (hTracked.run (by omega) hKeepsBefore hBefore).ordered.readIndex_le

/-- The instants between the reads. -/
theorem ReadsAround.instant_iff {call : QueueCall T} {waiting before : List (QueueLabel Thread T)}
    (h : ReadsAround (first ++ .call t call :: (waiting ++ [.internal t])) between c₁ c₂) :
    QueueRun (first ++ .call t call :: (waiting ++ .internal t :: before)) c ↔
      c₁.run queueBody before = some c := by
  have hSplit : first ++ .call t call :: (waiting ++ .internal t :: before) =
      (first ++ .call t call :: (waiting ++ [.internal t])) ++ before := by simp
  have hReached := h.reached
  unfold QueueRun at hReached ⊢
  rw [hSplit, Config.run_append, hReached, Option.bind_some]

theorem ReadsAround.held_le {before after : List (QueueLabel Thread T)}
    (h : ReadsAround first (before ++ after) c₁ c₂) (hBefore : c₁.run queueBody before = some c) :
    c.shared.contents.length ≤ addedCount c₂ - takenCount c₁ := by
  have hPassed := h.passed
  rw [Config.run_append, hBefore, Option.bind_some] at hPassed
  rw [length_contents]
  exact StepRun.difference_le hBefore hPassed h.counts

/-- The calls of `empty` and `size` differ in what they make of the indices only. -/
theorem exists_reads (call : QueueCall T) (k : UInt64 → UInt64 → Answer T) {answer : Answer T}
    (hBody : (queueBody call : Prog (LockFreeQueue T SIZE) (Answer T)) =
      .load (fun q => q.readIndex) fun readIdx => .load (fun q => q.writeIndex) fun writeIdx =>
      .ret (k readIdx writeIdx))
    (hRun : QueueRun (first ++ .call t call :: (during ++ [.ret t answer])) c)
    (hCall : ∀ r, .ret t r ∉ during) (hPush : beginsPush (.call t call) = false)
    (hClear : call ≠ .of .clear) (hKeeps : ∀ l ∈ first ++ during, KeepsElements l)
    (hPushes : (first ++ during).countP beginsPush < 2 ^ 64) :
    ∃ (waiting between leaving : List (QueueLabel Thread T)) (c₁ c₂ : QueueConfig Thread T SIZE),
      during = waiting ++ .internal t :: (between ++ .internal t :: leaving) ∧
      (∀ l ∈ waiting ++ between ++ leaving, l.thread ≠ t) ∧
      ReadsAround (first ++ .call t call :: (waiting ++ [.internal t])) between c₁ c₂ ∧
      answer = k c₁.shared.readIndex c₂.shared.writeIndex := by
  obtain ⟨waiting, between, leaving, c₁, c₂, rfl, hOthers, hRead, hBetween, rfl⟩ :=
    Config.exists_two_reads hBody hRun hCall
  refine ⟨waiting, between, leaving, c₁, c₂, rfl, hOthers, readsAround hRead hBetween ?_ ?_, rfl⟩
  · intro l hl
    simp only [List.mem_append, List.mem_cons, List.not_mem_nil, or_false] at hl hKeeps
    rcases hl with (hl | rfl | hl | rfl) | hl
    · exact hKeeps l (.inl hl)
    · intro u hEq
      exact hClear (Label.call.inj hEq).2
    · exact hKeeps l (.inr (.inl hl))
    · intro u hEq
      cases hEq
    · exact hKeeps l (.inr (.inr (.inr (.inl hl))))
  · simp only [List.countP_append, List.countP_cons, List.countP_nil, hPush,
      Bool.false_eq_true, if_false] at hPushes ⊢
    omega

/-- An answer of `empty` is right: `true` means that nothing is in the queue at any instant
between the reads, `false` that there is something at one of them. The runs are those
without `clear` and with fewer than `2 ^ 64` pushes. -/
theorem empty_answers_right (first during : List (QueueLabel Thread T)) (t : Thread) (answer : Bool)
    (hRun : QueueRun (first ++ .call t .empty :: (during ++ [.ret t (.emptiness answer)])) c)
    (hCall : ∀ r, .ret t r ∉ during) (hKeeps : ∀ l ∈ first ++ during, KeepsElements l)
    (hPushes : (first ++ during).countP beginsPush < 2 ^ 64) :
    ∃ waiting between leaving, during = waiting ++ .internal t :: (between ++ .internal t :: leaving) ∧
      (∀ l ∈ waiting ++ between ++ leaving, l.thread ≠ t) ∧
      (answer = true → ∀ before after, between = before ++ after →
        ∀ c₁ : QueueConfig Thread T SIZE,
          QueueRun (first ++ .call t .empty :: (waiting ++ .internal t :: before)) c₁ →
          c₁.shared.contents = []) ∧
      (answer = false → ∃ (before after : List (QueueLabel Thread T))
        (c₁ : QueueConfig Thread T SIZE), between = before ++ after ∧
          QueueRun (first ++ .call t .empty :: (waiting ++ .internal t :: before)) c₁ ∧
          c₁.shared.contents ≠ []) := by
  obtain ⟨waiting, between, leaving, c₁, c₂, rfl, hOthers, hReads, hAnswer⟩ :=
    exists_reads .empty (fun readIdx writeIdx => .emptiness (readIdx == writeIdx)) rfl hRun hCall rfl
      (by simp) hKeeps hPushes
  refine ⟨waiting, between, leaving, rfl, hOthers, ?_, ?_⟩
  · rintro rfl before after rfl c hInstant
    have hEqual : addedCount c₂ = takenCount c₁ := by
      have hBeq := (Answer.emptiness.inj hAnswer).symm
      exact congrArg UInt64.toNat (beq_iff_eq.mp hBeq).symm
    have hLe := hReads.held_le (hReads.instant_iff.mp hInstant)
    rw [← List.length_eq_zero_iff]
    omega
  · rintro rfl
    have hLess : takenCount c₁ < addedCount c₂ := by
      have hNe : c₁.shared.readIndex.toNat ≠ c₂.shared.writeIndex.toNat := by
        intro hSame
        have hBeq := (Answer.emptiness.inj hAnswer).symm
        simp [UInt64.toNat_inj.mp hSame] at hBeq
      have hTaken := (StepRun.Counts.run_le hReads.counts hReads.passed).1
      have hOrder := hReads.ordered between [] c₂ (by simp) hReads.passed
      unfold takenCount addedCount at *
      omega
    obtain ⟨before, after, c, rfl, hBefore, hFound⟩ :=
      StepRun.exists_difference hReads.passed hReads.counts hReads.ordered hLess
    refine ⟨before, after, c, rfl, hReads.instant_iff.mpr hBefore, ?_⟩
    rw [← List.length_pos_iff, length_contents]
    omega

/-- One element is in the queue. -/
def pushedOne : List (QueueLabel Role Nat) :=
  uninterrupted .producer (.of (.of (.push 5))) 7 (.reply ⟨.SUCCESS, none⟩)

/-- It is taken between the reads of the observer. -/
def poppedBetween : List (QueueLabel Role Nat) :=
  .internal .observer ::
    (uninterrupted .consumer (.of (.of .pop)) 6 (.reply ⟨.SUCCESS, none⟩) ++ [.internal .observer])

theorem empty_answers_right_popped :
    ∃ waiting between leaving,
      poppedBetween = waiting ++ .internal .observer :: (between ++ .internal .observer :: leaving) ∧
      ∃ (before after : List (QueueLabel Role Nat)) (c₁ : QueueConfig Role Nat 2),
        between = before ++ after ∧
        QueueRun (pushedOne ++ .call .observer .empty :: (waiting ++ .internal .observer :: before)) c₁ ∧
        c₁.shared.contents ≠ [] := by
  have hSome : ((Config.start (new Nat 2)).run queueBody (pushedOne ++
      .call .observer .empty :: (poppedBetween ++ [.ret .observer (.emptiness false)]))).isSome = true := by
    decide
  obtain ⟨c, hRun⟩ := Option.isSome_iff_exists.mp hSome
  have hCall : ∀ r, .ret .observer r ∉ poppedBetween := by simp [poppedBetween, uninterrupted]
  have hKeeps : ∀ l ∈ pushedOne ++ poppedBetween, KeepsElements l := by
    simp [pushedOne, poppedBetween, uninterrupted, KeepsElements]
  obtain ⟨waiting, between, leaving, hDuring, -, -, hFalse⟩ :=
    empty_answers_right pushedOne poppedBetween .observer false hRun hCall hKeeps (by decide)
  exact ⟨waiting, between, leaving, hDuring, hFalse rfl⟩

/-- The value of `size` is not less than the number of elements at any instant
between the reads. It is more than at the first read by the elements added since,
and more than at the second one by the elements taken before. -/
theorem size_counts_all (first during : List (QueueLabel Thread T)) (t : Thread) (n : Nat)
    (hRun : QueueRun (first ++ .call t .size :: (during ++ [.ret t (.count n)])) c)
    (hCall : ∀ r, .ret t r ∉ during) (hKeeps : ∀ l ∈ first ++ during, KeepsElements l)
    (hPushes : (first ++ during).countP beginsPush < 2 ^ 64) :
    ∃ (waiting between leaving : List (QueueLabel Thread T)) (c₁ c₂ : QueueConfig Thread T SIZE),
      during = waiting ++ .internal t :: (between ++ .internal t :: leaving) ∧
      (∀ l ∈ waiting ++ between ++ leaving, l.thread ≠ t) ∧
      (∀ before after, between = before ++ after → ∀ c : QueueConfig Thread T SIZE,
        QueueRun (first ++ .call t .size :: (waiting ++ .internal t :: before)) c →
        c.shared.contents.length ≤ n) ∧
      QueueRun (first ++ .call t .size :: (waiting ++ [.internal t])) c₁ ∧
      c₁.run queueBody between = some c₂ ∧
      n = c₁.shared.contents.length + (addedCount c₂ - addedCount c₁) ∧
      n = c₂.shared.contents.length + (takenCount c₂ - takenCount c₁) := by
  obtain ⟨waiting, between, leaving, c₁, c₂, rfl, hOthers, hReads, hAnswer⟩ :=
    exists_reads .size (fun readIdx writeIdx => .count (writeIdx - readIdx).toNat) rfl hRun hCall rfl
      (by simp) hKeeps hPushes
  obtain ⟨hTaken, hAdded⟩ := StepRun.Counts.run_le hReads.counts hReads.passed
  have hOrder₁ := hReads.ordered [] between c₁ rfl rfl
  have hOrder₂ := hReads.ordered between [] c₂ (by simp) hReads.passed
  have hn : n = addedCount c₂ - takenCount c₁ := by
    rw [Answer.count.inj hAnswer]
    exact UInt64.toNat_sub_of_le _ _ (UInt64.le_iff_toNat_le.mpr (hTaken.trans hOrder₂))
  refine ⟨waiting, between, leaving, c₁, c₂, rfl, hOthers, ?_, hReads.reached, hReads.passed, ?_, ?_⟩
  · rintro before after rfl c hInstant
    rw [hn]
    exact hReads.held_le (hReads.instant_iff.mp hInstant)
  · rw [length_contents]
    omega
  · rw [length_contents]
    omega

theorem size_counts_all_popped :
    ∃ (between : List (QueueLabel Role Nat)) (c₁ c₂ : QueueConfig Role Nat 2),
      c₁.run queueBody between = some c₂ ∧
      1 = c₁.shared.contents.length + (addedCount c₂ - addedCount c₁) ∧
      1 = c₂.shared.contents.length + (takenCount c₂ - takenCount c₁) := by
  have hSome : ((Config.start (new Nat 2)).run queueBody (pushedOne ++
      .call .observer .size :: (poppedBetween ++ [.ret .observer (.count 1)]))).isSome = true := by
    decide
  obtain ⟨c, hRun⟩ := Option.isSome_iff_exists.mp hSome
  have hCall : ∀ r, .ret .observer r ∉ poppedBetween := by simp [poppedBetween, uninterrupted]
  have hKeeps : ∀ l ∈ pushedOne ++ poppedBetween, KeepsElements l := by
    simp [pushedOne, poppedBetween, uninterrupted, KeepsElements]
  obtain ⟨waiting, between, leaving, c₁, c₂, -, -, -, -, hBetween, hFirst, hSecond⟩ :=
    size_counts_all pushedOne poppedBetween .observer 1 hRun hCall hKeeps (by decide)
  exact ⟨between, c₁, c₂, hBetween, hFirst, hSecond⟩

end Reads

end clockUtils.container.LockFreeQueue
