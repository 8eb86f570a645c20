import Mathlib.Data.List.Basic

namespace StepRun

variable {σ α : Type} {step : σ → α → Option σ}

/-- Steps one after the other; `none` when one of them cannot be taken. -/
def run (step : σ → α → Option σ) (s : σ) (acts : List α) : Option σ :=
  acts.foldlM step s

theorem run_cons (step : σ → α → Option σ) (s : σ) (act : α) (acts : List α) :
    run step s (act :: acts) = (step s act).bind fun s' => run step s' acts :=
  List.foldlM_cons

theorem run_append (step : σ → α → Option σ) (s : σ) (acts more : List α) :
    run step s (acts ++ more) = (run step s acts).bind fun s' => run step s' more :=
  List.foldlM_append

/-- The last step of a run. -/
theorem run_snoc {s s' : σ} {acts : List α} {act : α}
    (hRun : run step s (acts ++ [act]) = some s') :
    ∃ s₁, run step s acts = some s₁ ∧ step s₁ act = some s' := by
  rw [run_append, Option.bind_eq_some_iff] at hRun
  obtain ⟨s₁, hFirst, hLast⟩ := hRun
  rw [run_cons, Option.bind_eq_some_iff] at hLast
  obtain ⟨s₂, hStep, hNil⟩ := hLast
  obtain rfl := Option.some.inj hNil
  exact ⟨s₁, hFirst, hStep⟩

/-- Every step of the run meets the condition. -/
def Along (step : σ → α → Option σ) (condition : σ → α → Prop) : σ → List α → Prop
  | _, [] => True
  | s, act :: acts => condition s act ∧ ∀ s' ∈ step s act, Along step condition s' acts

instance decidableAlong {condition : σ → α → Prop} [∀ s act, Decidable (condition s act)] :
    (s : σ) → (acts : List α) → Decidable (Along step condition s acts)
  | _, [] => isTrue trivial
  | s, act :: acts =>
    have (s' : σ) : Decidable (Along step condition s' acts) := decidableAlong s' acts
    inferInstanceAs (Decidable (condition s act ∧ ∀ s' ∈ step s act, Along step condition s' acts))

theorem along_append {condition : σ → α → Prop} {s : σ} {acts more : List α} :
    Along step condition s (acts ++ more) ↔
      Along step condition s acts ∧ ∀ s' ∈ run step s acts, Along step condition s' more := by
  induction acts generalizing s with
  | nil =>
    constructor
    · intro h
      refine ⟨trivial, fun s' hs' => ?_⟩
      obtain rfl := Option.some.inj hs'
      exact h
    · rintro ⟨-, h⟩
      exact h s rfl
  | cons act acts ih =>
    rw [List.cons_append, Along, Along]
    constructor
    · rintro ⟨hNow, hRest⟩
      refine ⟨⟨hNow, fun s₁ hs₁ => (ih.mp (hRest s₁ hs₁)).1⟩, fun s' hs' => ?_⟩
      rw [Option.mem_def, run_cons, Option.bind_eq_some_iff] at hs'
      obtain ⟨s₁, hFirst, hRun⟩ := hs'
      exact (ih.mp (hRest s₁ hFirst)).2 s' hRun
    · rintro ⟨⟨hNow, hRest⟩, hMore⟩
      refine ⟨hNow, fun s₁ hs₁ => ih.mpr ⟨hRest s₁ hs₁, fun s' hs' => hMore s' ?_⟩⟩
      rw [Option.mem_def, run_cons, hs₁, Option.bind_some]
      exact hs'

/-- What the last step was, and the steps before it. -/
theorem along_snoc {condition : σ → α → Prop} {s s' : σ} {acts : List α} {act : α}
    (h : Along step condition s (acts ++ [act])) (hRun : run step s acts = some s') :
    Along step condition s acts ∧ condition s' act := by
  obtain ⟨hFirst, hLast⟩ := along_append.mp h
  exact ⟨hFirst, (hLast s' hRun).1⟩

/-- What every step that meets the condition keeps holds after such a run. -/
theorem run_invariant_along {I : σ → Prop} {condition : σ → α → Prop}
    (hStep : ∀ s act s', I s → condition s act → step s act = some s' → I s')
    {s s' : σ} {acts : List α} (hRun : run step s acts = some s')
    (hAlong : Along step condition s acts) (h : I s) : I s' := by
  induction acts generalizing s with
  | nil =>
    obtain rfl := Option.some.inj hRun
    exact h
  | cons act acts ih =>
    rw [run_cons, Option.bind_eq_some_iff] at hRun
    obtain ⟨s₁, hFirst, hRun⟩ := hRun
    exact ih hRun (hAlong.2 s₁ hFirst) (hStep s act s₁ h hAlong.1 hFirst)

theorem along_of_forall {condition : σ → α → Prop} (h : ∀ s act, condition s act) (s : σ)
    (acts : List α) : Along step condition s acts := by
  induction acts generalizing s with
  | nil => trivial
  | cons act acts ih => exact ⟨h s act, fun s' _ => ih s'⟩

/-- A condition on the steps alone. -/
theorem along_of_forall_mem {condition : σ → α → Prop} {acts : List α}
    (h : ∀ act ∈ acts, ∀ s, condition s act) (s : σ) : Along step condition s acts := by
  induction acts generalizing s with
  | nil => trivial
  | cons act acts ih =>
    rw [List.forall_mem_cons] at h
    exact ⟨h.1 s, fun s' _ => ih h.2 s'⟩

/-- What every step keeps holds after a run. -/
theorem run_invariant {I : σ → Prop} (hStep : ∀ s act s', I s → step s act = some s' → I s')
    {s s' : σ} {acts : List α} (hRun : run step s acts = some s') (h : I s) : I s' :=
  run_invariant_along (fun s act s' hNow (_ : True) => hStep s act s' hNow) hRun
    (along_of_forall (fun _ _ => trivial) s acts) h

section Budget

variable {I : σ → Nat → Prop} {condition : σ → α → Prop} {pays : α → Bool} {bound : Nat}

/-- An invariant that counts the steps of one kind, as long as they stay below a bound. -/
theorem run_counted
    (hStep : ∀ s act s' n, I s n → condition s act → n < bound → step s act = some s' →
      I s' (n + if pays act then 1 else 0))
    {s s' : σ} {acts : List α} {n : Nat} (hRun : run step s acts = some s')
    (hAlong : Along step condition s acts) (h : I s n) (hn : n + acts.countP pays < bound) :
    I s' (n + acts.countP pays) := by
  induction acts generalizing s n with
  | nil =>
    obtain rfl := Option.some.inj hRun
    exact h
  | cons act acts ih =>
    rw [run_cons, Option.bind_eq_some_iff] at hRun
    obtain ⟨s₁, hFirst, hRun⟩ := hRun
    rw [List.countP_cons, Nat.add_comm (acts.countP pays), ← Nat.add_assoc] at hn ⊢
    have hNext := hStep s act s₁ n h hAlong.1 (by omega) hFirst
    exact ih hRun (hAlong.2 s₁ hFirst) hNext hn

/-- What follows from such an invariant for every step of a run. -/
theorem along_counted {property : σ → α → Prop}
    (hStep : ∀ s act s' n, I s n → condition s act → n < bound → step s act = some s' →
      I s' (n + if pays act then 1 else 0))
    (hHolds : ∀ s act n, I s n → condition s act → n < bound → property s act)
    {s : σ} {acts : List α} {n : Nat} (hAlong : Along step condition s acts) (h : I s n)
    (hn : n + acts.countP pays < bound) : Along step property s acts := by
  induction acts generalizing s n with
  | nil => trivial
  | cons act acts ih =>
    rw [List.countP_cons, Nat.add_comm (acts.countP pays), ← Nat.add_assoc] at hn
    refine ⟨hHolds s act n h hAlong.1 (by omega), fun s₁ hFirst => ?_⟩
    exact ih (hAlong.2 s₁ hFirst) (hStep s act s₁ n h hAlong.1 (by omega) hFirst) hn

end Budget

/-- A run is not longer than what each of its steps takes away. -/
theorem run_length_le {I : σ → Prop} {rank : σ → Nat}
    (hStep : ∀ s act s', I s → step s act = some s' → I s' ∧ rank s' < rank s)
    {s s' : σ} {acts : List α} (hRun : run step s acts = some s') (h : I s) :
    acts.length + rank s' ≤ rank s := by
  induction acts generalizing s with
  | nil =>
    obtain rfl := Option.some.inj hRun
    exact Nat.le_of_eq (Nat.zero_add _)
  | cons act acts ih =>
    rw [run_cons, Option.bind_eq_some_iff] at hRun
    obtain ⟨s₁, hFirst, hRun⟩ := hRun
    obtain ⟨hNext, hRank⟩ := hStep s act s₁ h hFirst
    have hRest := ih hRun hNext
    rw [List.length_cons]
    omega

end StepRun
