import Mathlib.Data.List.Induction
import ClockUtils.Lib.StepRun

namespace StepRun

variable {σ α : Type} {step : σ → α → Option σ}

section Counters

variable {taken added : σ → Nat}

/-- No counter goes back, and a step changes one of them at most. -/
def Counts (step : σ → α → Option σ) (taken added : σ → Nat) (s : σ) (act : α) : Prop :=
  ∀ s' ∈ step s act, taken s ≤ taken s' ∧ added s ≤ added s' ∧
    (taken s' = taken s ∨ added s' = added s)

/-- The step does not change `added` once `taken` has moved on from what was read. -/
def KeepsAdded (step : σ → α → Option σ) (taken added : σ → Nat) (read : Nat) (s : σ) (act : α) :
    Prop :=
  ∀ s' ∈ step s act, added s' = added s ∨ taken s = read

instance (read : Nat) (s : σ) (act : α) : Decidable (KeepsAdded step taken added read s act) :=
  inferInstanceAs (Decidable (∀ s' ∈ step s act, _))

theorem Counts.run_le {s s' : σ} {acts : List α} (hCounts : Along step (Counts step taken added) s acts)
    (hRun : run step s acts = some s') : taken s ≤ taken s' ∧ added s ≤ added s' := by
  induction acts generalizing s with
  | nil =>
    obtain rfl := Option.some.inj hRun
    exact ⟨Nat.le_refl _, Nat.le_refl _⟩
  | cons act acts ih =>
    rw [run_cons, Option.bind_eq_some_iff] at hRun
    obtain ⟨s₁, hFirst, hRun⟩ := hRun
    obtain ⟨hTaken, hAdded, -⟩ := hCounts.1 s₁ hFirst
    obtain ⟨hTaken', hAdded'⟩ := ih (hCounts.2 s₁ hFirst) hRun
    exact ⟨Nat.le_trans hTaken hTaken', Nat.le_trans hAdded hAdded'⟩

/-- The instant: the last one at which `taken` is still what was read, if
`added` is not changed after it. -/
theorem exists_instant {s s' : σ} {acts : List α} (hRun : run step s acts = some s')
    (hCounts : Along step (Counts step taken added) s acts)
    (hKeeps : Along step (KeepsAdded step taken added (taken s)) s acts) :
    ∃ before after s₁, acts = before ++ after ∧ run step s before = some s₁ ∧
      taken s₁ = taken s ∧ added s₁ = added s' := by
  induction acts using List.reverseRecOn generalizing s' with
  | nil =>
    obtain rfl := Option.some.inj hRun
    exact ⟨[], [], s, rfl, rfl, rfl, rfl⟩
  | append_singleton acts act ih =>
    obtain ⟨s₂, hFirst, hLast⟩ := run_snoc hRun
    obtain ⟨hCounts, hCountsLast⟩ := along_snoc hCounts hFirst
    obtain ⟨hKeeps, hKeepsLast⟩ := along_snoc hKeeps hFirst
    by_cases hSame : added s' = added s₂
    · obtain ⟨before, after, s₁, rfl, hBefore, hTaken, hAdded⟩ := ih hFirst hCounts hKeeps
      exact ⟨before, after ++ [act], s₁, by simp, hBefore, hTaken, hAdded.trans hSame.symm⟩
    · have hBefore := (hKeepsLast s' hLast).resolve_left hSame
      have hNow := (hCountsLast s' hLast).2.2.resolve_right hSame
      exact ⟨acts ++ [act], [], s', by simp, hRun, hNow.trans hBefore, rfl⟩

/-- While nothing is taken, every step is allowed. -/
theorem keepsAdded_of_taken {s s' : σ} {acts : List α} {read : Nat}
    (hRun : run step s acts = some s') (hCounts : Along step (Counts step taken added) s acts)
    (hFrom : read ≤ taken s) (hTo : taken s' ≤ read) :
    Along step (KeepsAdded step taken added read) s acts := by
  induction acts generalizing s with
  | nil => trivial
  | cons act acts ih =>
    have hLe := (Counts.run_le hCounts hRun).1
    rw [run_cons, Option.bind_eq_some_iff] at hRun
    obtain ⟨s₁, hFirst, hRun⟩ := hRun
    have hNext := (hCounts.1 s₁ hFirst).1
    refine ⟨fun _ _ => .inr (by omega), fun s₂ hs₂ => ?_⟩
    obtain rfl := Option.some.inj (hFirst.symm.trans hs₂)
    exact ih hRun (hCounts.2 s₁ hFirst) (by omega)

/-- While nothing is added, every step is allowed. -/
theorem keepsAdded_of_added {s s' : σ} {acts : List α} (read : Nat)
    (hRun : run step s acts = some s') (hCounts : Along step (Counts step taken added) s acts)
    (hSame : added s' ≤ added s) : Along step (KeepsAdded step taken added read) s acts := by
  induction acts generalizing s with
  | nil => trivial
  | cons act acts ih =>
    rw [run_cons, Option.bind_eq_some_iff] at hRun
    obtain ⟨s₁, hFirst, hRun⟩ := hRun
    have hNext := (hCounts.1 s₁ hFirst).2.1
    have hRest := (Counts.run_le (hCounts.2 s₁ hFirst) hRun).2
    refine ⟨fun s₂ hs₂ => ?_, fun s₂ hs₂ => ?_⟩
    · obtain rfl := Option.some.inj (hFirst.symm.trans hs₂)
      exact .inl (by omega)
    · obtain rfl := Option.some.inj (hFirst.symm.trans hs₂)
      exact ih hRun (hCounts.2 s₁ hFirst) (by omega)

/-- The difference of the two reads is the difference of the counters at an
instant between them exactly if nothing is added after something was taken. -/
theorem snapshot_iff {s s' : σ} {acts : List α} (hRun : run step s acts = some s')
    (hCounts : Along step (Counts step taken added) s acts)
    (hOrdered : ∀ before after s₁, acts = before ++ after → run step s before = some s₁ →
      taken s₁ ≤ added s₁) :
    (∃ before after s₁, acts = before ++ after ∧ run step s before = some s₁ ∧
        added s₁ - taken s₁ = added s' - taken s) ↔
      Along step (KeepsAdded step taken added (taken s)) s acts := by
  constructor
  · rintro ⟨before, after, s₁, rfl, hBefore, hEqual⟩
    have hLe := hOrdered before after s₁ rfl hBefore
    obtain ⟨hFirst, hLast⟩ := along_append.mp hCounts
    rw [run_append, hBefore, Option.bind_some] at hRun
    have hTaken := (Counts.run_le hFirst hBefore).1
    have hAdded := (Counts.run_le (hLast s₁ hBefore) hRun).2
    refine along_append.mpr ⟨?_, fun s₂ hs₂ => ?_⟩
    · exact keepsAdded_of_taken hBefore hFirst (Nat.le_refl _) (by omega)
    · obtain rfl := Option.some.inj (hBefore.symm.trans hs₂)
      exact keepsAdded_of_added _ hRun (hLast s₁ hBefore) (by omega)
  · intro hKeeps
    obtain ⟨before, after, s₁, hActs, hBefore, hTaken, hAdded⟩ := exists_instant hRun hCounts hKeeps
    exact ⟨before, after, s₁, hActs, hBefore, by rw [hTaken, hAdded]⟩

/-- The difference of the two reads is at least that of the counters at every
instant between them. -/
theorem difference_le {s s₁ s' : σ} {before after : List α} (hBefore : run step s before = some s₁)
    (hAfter : run step s₁ after = some s')
    (hCounts : Along step (Counts step taken added) s (before ++ after)) :
    added s₁ - taken s₁ ≤ added s' - taken s := by
  obtain ⟨hFirst, hLast⟩ := along_append.mp hCounts
  have hTaken := (Counts.run_le hFirst hBefore).1
  have hAdded := (Counts.run_le (hLast s₁ hBefore) hAfter).2
  omega

/-- If the two reads are different, so are the counters at an instant between them. Nothing
can be taken before something is added. -/
theorem exists_difference {s s' : σ} {acts : List α} (hRun : run step s acts = some s')
    (hCounts : Along step (Counts step taken added) s acts)
    (hOrdered : ∀ before after s₁, acts = before ++ after → run step s before = some s₁ →
      taken s₁ ≤ added s₁) (hReads : taken s < added s') :
    ∃ before after s₁, acts = before ++ after ∧ run step s before = some s₁ ∧
      taken s₁ < added s₁ := by
  induction acts generalizing s with
  | nil =>
    obtain rfl := Option.some.inj hRun
    exact ⟨[], [], s, rfl, rfl, hReads⟩
  | cons act acts ih =>
    by_cases hNow : taken s < added s
    · exact ⟨[], act :: acts, s, rfl, rfl, hNow⟩
    · rw [run_cons, Option.bind_eq_some_iff] at hRun
      obtain ⟨s₁, hFirst, hRun⟩ := hRun
      have hNext (before : List α) : run step s (act :: before) = run step s₁ before := by
        rw [run_cons, hFirst, Option.bind_some]
      have hSame : taken s₁ = taken s := by
        obtain ⟨hTaken, -, hOne⟩ := hCounts.1 s₁ hFirst
        have hOrder := hOrdered [act] acts s₁ rfl (hNext [])
        omega
      obtain ⟨before, after, s₂, rfl, hBefore, hFound⟩ :=
        ih hRun (hCounts.2 s₁ hFirst)
          (fun before after s₂ hActs hBefore =>
            hOrdered (act :: before) after s₂ (by rw [hActs]; rfl) ((hNext before).trans hBefore))
          (by rwa [hSame])
      exact ⟨act :: before, after, s₂, rfl, (hNext before).trans hBefore, hFound⟩

end Counters

end StepRun
