import ClockUtils.Sockets.AsyncProgress

namespace clockUtils.sockets.AsyncWriter

variable {Thread Dest : Type} {transport : Transport} {s s' : AsyncWriter Thread Dest}
  {P : Channel → Message Dest → Prop}

/-- What is enqueued, or about to be, has the property. -/
structure Carries (P : Channel → Message Dest → Prop) (s : AsyncWriter Thread Dest) : Prop where
  enqueued : ∀ channel, ∀ m ∈ s.enqueued channel, P channel m
  pushed : ∀ t channel m, s.user t = .push channel m → P channel m

theorem WorkerMove.enqueued (h : WorkerMove transport s s') : s'.enqueued = s.enqueued := by
  cases h with
  | next channel finish hPoint | pop channel finish front rest hPoint hQueue => exact takeNext_enqueued ..
  | _ => rfl

/-- The message at a call is one that was enqueued. -/
theorem Inv.call_mem (h : Inv transport s) {channel : Channel} {finish : Bool} {tmp : Message Dest}
    (hPoint : s.worker = .call channel finish tmp) : tmp ∈ s.enqueued channel := by
  rw [h.flow.split channel, hPoint]
  simp [WorkPoint.taken]

theorem Carries.worker (h : Carries P s) (hMove : WorkerMove transport s s') : Carries P s' :=
  ⟨by rw [hMove.enqueued]; exact h.enqueued, by rw [hMove.frame.2.1]; exact h.pushed⟩

variable [DecidableEq Thread]

theorem Carries.user (h : Carries P s) {t : Thread} (hMove : UserMove t s s') : Carries P s' := by
  cases hMove with
  | push channel m hPoint =>
    refine ⟨fun other m' hMem => ?_, pushed_update h.pushed (by simp)⟩
    by_cases hSame : other = channel
    · subst hSame
      simp only [Function.update_self, List.mem_append, List.mem_singleton] at hMem
      rcases hMem with hMem | rfl
      · exact h.enqueued other m' hMem
      · exact h.pushed t other m' hPoint
    · simp only [Function.update_of_ne hSame] at hMem
      exact h.enqueued other m' hMem
  | lock hPoint | notify hPoint | unlock hPoint => exact ⟨h.enqueued, pushed_update h.pushed (by simp)⟩

variable [Fintype Thread]

theorem Carries.step (h : Carries P s) {act : Act Thread Dest}
    (hAct : ∀ t channel m, act = .call t channel m → P channel m)
    (hStep : s.step transport act = some s') : Carries P s' := by
  cases act with
  | call t channel m =>
    simp only [AsyncWriter.step] at hStep
    split at hStep <;> cases hStep
    refine ⟨h.enqueued, pushed_update h.pushed fun other m' hEq => ?_⟩
    cases hEq
    exact hAct t channel m rfl
  | user t => exact h.user (userStep_move hStep)
  | worker => exact h.worker (workerStep_move hStep)
  | wake =>
    simp only [AsyncWriter.step] at hStep
    split at hStep <;> cases hStep
    exact ⟨h.enqueued, h.pushed⟩
  | destroy =>
    simp only [AsyncWriter.step] at hStep
    split at hStep <;> cases hStep
    exact ⟨h.enqueued, h.pushed⟩
  | destructor =>
    cases destructorStep_move hStep <;> exact ⟨h.enqueued, h.pushed⟩

/-- Only a step of the worker at a call passes a message on. -/
theorem step_passed {act : Act Thread Dest} (hStep : s.step transport act = some s') :
    (∃ channel finish tmp, act = .worker ∧ s.worker = .call channel finish tmp ∧
      s'.passed = Function.update s.passed channel (s.passed channel ++ [tmp])) ∨
    (s'.passed = s.passed ∧ (act = .worker → ∀ channel finish tmp,
      s.worker ≠ .call channel finish tmp)) := by
  cases act with
  | worker =>
    have hMove := workerStep_move hStep
    cases hPoint : s.worker with
    | call channel finish tmp =>
      cases hMove with
      | pass channel' finish' tmp' hPoint' =>
        cases hPoint.symm.trans hPoint'
        exact .inl ⟨channel, finish, tmp, rfl, rfl, rfl⟩
      | _ => simp_all
    | _ =>
      refine .inr ⟨?_, by simp⟩
      cases hMove with
      | next channel finish hPoint' | pop channel finish front rest hPoint' hQueue =>
        exact takeNext_passed ..
      | pass channel' finish' tmp' hPoint' => simp_all
      | _ => rfl
  | call t channel m =>
    simp only [AsyncWriter.step] at hStep
    split at hStep <;> cases hStep
    exact .inr ⟨rfl, by simp⟩
  | user t => cases userStep_move hStep <;> exact .inr ⟨rfl, by simp⟩
  | wake =>
    simp only [AsyncWriter.step] at hStep
    split at hStep <;> cases hStep
    exact .inr ⟨rfl, by simp⟩
  | destroy =>
    simp only [AsyncWriter.step] at hStep
    split at hStep <;> cases hStep
    exact .inr ⟨rfl, by simp⟩
  | destructor => cases destructorStep_move hStep <;> exact .inr ⟨rfl, by simp⟩

end clockUtils.sockets.AsyncWriter
