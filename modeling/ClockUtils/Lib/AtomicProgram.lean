import ClockUtils.Lib.Linearizability
import ClockUtils.Lib.StepRun

namespace Concurrent

/-- A program whose steps are atomic operations on a shared state `σ`. -/
inductive Prog (σ α : Type) where
  | ret (a : α)
  /-- a failed assertion: the thread never takes another step -/
  | abort
  /-- one operation; what follows may depend on what it has read -/
  | atomic (f : σ → σ) (k : σ → Prog σ α)
  /-- a conditional operation that is tried again until its guard holds -/
  | spin (guard : σ → Bool) (f : σ → σ) (k : Prog σ α)

namespace Prog

/-- Reads one component of the state. -/
def load {σ α β : Type} (field : σ → β) (k : β → Prog σ α) : Prog σ α :=
  atomic id fun s => k (field s)

/-- Changes the state without looking at it. -/
def modify {σ α : Type} (f : σ → σ) (k : Prog σ α) : Prog σ α :=
  atomic f fun _ => k

/-- Reads a component that has to be true. -/
def assert {σ α : Type} (flag : σ → Bool) (k : Prog σ α) : Prog σ α :=
  load flag fun b => if b then k else abort

/-- One step of a program, `none` when it has ended. A spin whose guard fails
leaves the state and the program as they are. -/
def step {σ α : Type} (s : σ) : Prog σ α → Option (σ × Prog σ α)
  | ret _ => none
  | abort => none
  | atomic f k => some (f s, k s)
  | spin guard f k => if guard s then some (f s, k) else some (s, spin guard f k)

theorem step_modify {σ α : Type} {f : σ → σ} {k p : Prog σ α} {s s' : σ}
    (hStep : (modify f k).step s = some (s', p)) : s' = f s ∧ p = k := by
  simp only [modify, step, Option.some.injEq, Prod.mk.injEq] at hStep
  exact ⟨hStep.1.symm, hStep.2.symm⟩

/-- A conditional operation is done, or it is still to be done. -/
theorem step_spin {σ α : Type} {guard : σ → Bool} {f : σ → σ} {k p : Prog σ α} {s s' : σ}
    (hStep : (spin guard f k).step s = some (s', p)) :
    (guard s = true ∧ s' = f s ∧ p = k) ∨ (s' = s ∧ p = spin guard f k) := by
  simp only [step] at hStep
  split at hStep
  · next hGuard =>
    simp only [Option.some.injEq, Prod.mk.injEq] at hStep
    exact .inl ⟨hGuard, hStep.1.symm, hStep.2.symm⟩
  · simp only [Option.some.injEq, Prod.mk.injEq] at hStep
    exact .inr ⟨hStep.1.symm, hStep.2.symm⟩

end Prog

/-- The shared state, and what every thread still has to do of its call. -/
structure Config (Thread σ Ret : Type) where
  shared : σ
  running : Thread → Option (Prog σ Ret)

namespace Config

/-- No thread has called anything yet. -/
def start {Thread σ Ret : Type} (s : σ) : Config Thread σ Ret :=
  ⟨s, fun _ => none⟩

/-- One step of one thread. A thread without a call may start any; `body` is the
program of each operation. -/
def step {Thread Op Ret σ : Type} [DecidableEq Thread] [DecidableEq Ret]
    (body : Op → Prog σ Ret) (c : Config Thread σ Ret) :
    Label Thread Op Ret → Option (Config Thread σ Ret)
  | .call t op =>
    match c.running t with
    | none => some ⟨c.shared, Function.update c.running t (some (body op))⟩
    | some _ => none
  | .ret t r =>
    match c.running t with
    | some (.ret r') =>
      if r = r' then some ⟨c.shared, Function.update c.running t none⟩ else none
    | _ => none
  | .internal t =>
    match c.running t with
    | some p =>
      match p.step c.shared with
      | some (s, p') => some ⟨s, Function.update c.running t (some p')⟩
      | none => none
    | none => none

/-- An interleaving: one label for every step. -/
def run {Thread Op Ret σ : Type} [DecidableEq Thread] [DecidableEq Ret]
    (body : Op → Prog σ Ret) (c : Config Thread σ Ret) (labels : List (Label Thread Op Ret)) :
    Option (Config Thread σ Ret) :=
  labels.foldlM (step body) c

section Steps

variable {Thread Op Ret σ : Type} [DecidableEq Thread] [DecidableEq Ret] {body : Op → Prog σ Ret}
  {c c' : Config Thread σ Ret}

/-- What a step can do. -/
theorem step_cases {l : Label Thread Op Ret} (hStep : c.step body l = some c') :
    (∃ t op, l = .call t op ∧ c.running t = none ∧
      c' = ⟨c.shared, Function.update c.running t (some (body op))⟩) ∨
    (∃ t r, l = .ret t r ∧ c.running t = some (.ret r) ∧
      c' = ⟨c.shared, Function.update c.running t none⟩) ∨
    ∃ t p s p', l = .internal t ∧ c.running t = some p ∧ p.step c.shared = some (s, p') ∧
      c' = ⟨s, Function.update c.running t (some p')⟩ := by
  cases l with
  | call t op =>
    simp only [step] at hStep
    split at hStep
    · next hIdle => exact .inl ⟨t, op, rfl, hIdle, (Option.some.inj hStep).symm⟩
    · cases hStep
  | ret t r =>
    simp only [step] at hStep
    split at hStep
    · next r' hRunning =>
      split at hStep
      · next hr =>
        obtain rfl := hr
        exact .inr (.inl ⟨t, r, rfl, hRunning, (Option.some.inj hStep).symm⟩)
      · cases hStep
    · cases hStep
  | internal t =>
    simp only [step] at hStep
    split at hStep
    · next p hRunning =>
      split at hStep
      · next s p' hNext =>
        exact .inr (.inr ⟨t, p, s, p', rfl, hRunning, hNext, (Option.some.inj hStep).symm⟩)
      · cases hStep
    · cases hStep

theorem run_cons (body : Op → Prog σ Ret) (c : Config Thread σ Ret) (l : Label Thread Op Ret)
    (labels : List (Label Thread Op Ret)) :
    c.run body (l :: labels) = (c.step body l).bind fun c' => c'.run body labels :=
  StepRun.run_cons (step body) c l labels

theorem run_append (body : Op → Prog σ Ret) (c : Config Thread σ Ret)
    (labels more : List (Label Thread Op Ret)) :
    c.run body (labels ++ more) = (c.run body labels).bind fun c' => c'.run body more :=
  StepRun.run_append (step body) c labels more

/-- The last step of a run. -/
theorem run_snoc {labels : List (Label Thread Op Ret)} {l : Label Thread Op Ret}
    (hRun : c.run body (labels ++ [l]) = some c') :
    ∃ c₁, c.run body labels = some c₁ ∧ c₁.step body l = some c' :=
  StepRun.run_snoc hRun

end Steps

end Config

/-- One thread at a time owns what only its owner may use. -/
theorem ne_some_of_ne {Thread : Type} {owner : Option Thread} {t u : Thread}
    (hOwner : owner = some t) (hu : u ≠ t) : owner ≠ some u := by
  rw [hOwner]
  exact fun h => hu (Option.some.inj h).symm

/-- Two families that are changed at the same place stay related. -/
theorem update_related {ι α β : Type} [DecidableEq ι] {R : ι → α → β → Prop} {f : ι → α}
    {g : ι → β} {i : ι} {a : α} {b : β} (hNew : R i a b) (hOld : ∀ j, j ≠ i → R j (f j) (g j))
    (j : ι) : R j (Function.update f i a j) (Function.update g i b j) := by
  by_cases hj : j = i
  · subst hj
    simpa only [Function.update_self] using hNew
  · simpa only [Function.update_of_ne hj] using hOld j hj

/-- What the proofs about the programs of an object share: an invariant of the
shared state `σ` and an auxiliary state `γ`, the object's state that the
auxiliary state stands for, what a thread may rely on when another one takes a
step, and an account of calls in which every call has paid its weight in
advance. -/
structure Protocol (Thread Op σ γ State : Type) where
  inv : σ → γ → Prop
  abs : γ → State
  rely : Thread → σ → γ → σ → γ → Prop
  rely_refl (t : Thread) (s : σ) (g : γ) : rely t s g s g
  weight : Op → Nat
  spent : σ → γ → Nat
  budget : Nat

namespace Protocol

variable {Thread Op Ret σ γ State : Type}

/-- What a call has paid for and not yet used. -/
def due (pr : Protocol Thread Op σ γ State) : Phase Op Ret → Nat
  | .pending op => pr.weight op
  | _ => 0

/-- The assertion survives the steps of the other threads. -/
def Stable (pr : Protocol Thread Op σ γ State) (t : Thread) (P : σ → γ → Prop) : Prop :=
  ∀ s g s' g', pr.inv s g → P s g → pr.rely t s g s' g' → P s' g'

/-- A step of a program leaves the object alone, or the pending call takes effect with it. -/
inductive Advance (obj : SeqObject Op Ret State) : Phase Op Ret → State → Phase Op Ret → State → Prop
  | silent (phase : Phase Op Ret) (a : State) : Advance obj phase a phase a
  | commit (op : Op) (a : State) :
      Advance obj (.pending op) a (.done op (obj.apply a op).1) (obj.apply a op).2

/-- A step keeps the invariant and what the other threads rely on. -/
structure StepOk (pr : Protocol Thread Op σ γ State) (obj : SeqObject Op Ret State) (t : Thread)
    (phase : Phase Op Ret) (s : σ) (g : γ) (phase' : Phase Op Ret) (s' : σ) (g' : γ) : Prop where
  inv : pr.inv s' g'
  rely : ∀ u, u ≠ t → pr.rely u s g s' g'
  advance : Advance obj phase (pr.abs g) phase' (pr.abs g')
  spent : pr.spent s' g' + pr.due phase' ≤ pr.spent s g + pr.due phase

/-- From states with the assertion `P` the step `f`, where it is taken, can be
accounted for, and the rest of the program is safe after it. -/
def Steps (pr : Protocol Thread Op σ γ State) (obj : SeqObject Op Ret State) (t : Thread)
    (phase : Phase Op Ret) (P : σ → γ → Prop) (guard : σ → Bool) (f : σ → σ)
    (rest : σ → Phase Op Ret → (σ → γ → Prop) → Prop) : Prop :=
  ∀ s g, pr.inv s g → pr.spent s g + pr.due phase ≤ pr.budget → P s g → guard s = true →
    ∃ g' phase' P', pr.StepOk obj t phase s g phase' (f s) g' ∧ P' (f s) g' ∧ rest s phase' P'

/-- The program, run by thread `t` from a state with the assertion `P`, keeps to
the protocol, makes its call take effect exactly once before it returns, and
returns what the object does. -/
def Safe (pr : Protocol Thread Op σ γ State) (obj : SeqObject Op Ret State) (t : Thread) :
    Prog σ Ret → Phase Op Ret → (σ → γ → Prop) → Prop
  | .ret r, phase, _ => ∃ op, phase = .done op r
  | .abort, _, _ => False
  | .atomic f k, phase, P => pr.Stable t P ∧
      pr.Steps obj t phase P (fun _ => true) f fun s => pr.Safe obj t (k s)
  | .spin guard f k, phase, P => pr.Stable t P ∧
      pr.Steps obj t phase P guard f fun _ => pr.Safe obj t k

section Rules

variable {pr : Protocol Thread Op σ γ State} {obj : SeqObject Op Ret State} {t : Thread}
  {phase : Phase Op Ret} {P : σ → γ → Prop}

theorem StepOk.silent {s s' : σ} {g g' : γ} (hInv : pr.inv s' g')
    (hRely : ∀ u, u ≠ t → pr.rely u s g s' g') (hAbs : pr.abs g' = pr.abs g)
    (hSpent : pr.spent s' g' = pr.spent s g) : pr.StepOk obj t phase s g phase s' g' := by
  refine ⟨hInv, hRely, ?_, by omega⟩
  rw [hAbs]
  exact .silent phase (pr.abs g)

theorem StepOk.refl {s : σ} {g : γ} (hInv : pr.inv s g) :
    pr.StepOk obj t phase s g phase s g :=
  .silent hInv (fun u _ => pr.rely_refl u s g) rfl rfl

/-- A call takes effect that does not change the object. -/
theorem StepOk.observe {s : σ} {g : γ} {op : Op} {r : Ret} (hInv : pr.inv s g)
    (hApply : obj.apply (pr.abs g) op = (r, pr.abs g)) :
    pr.StepOk obj t (.pending op) s g (.done op r) s g := by
  refine ⟨hInv, fun u _ => pr.rely_refl u s g, ?_, by simp [due]⟩
  have hCommit : Advance obj (.pending op) (pr.abs g) _ _ := .commit op (pr.abs g)
  rwa [hApply] at hCommit

/-- An assertion that the invariant supplies may be left out. -/
theorem Safe.weaken {p : Prog σ Ret} {P' : σ → γ → Prop} (hStable : pr.Stable t P)
    (h : ∀ s g, pr.inv s g → P s g → P' s g) (hSafe : pr.Safe obj t p phase P') :
    pr.Safe obj t p phase P := by
  cases p with
  | ret r => exact hSafe
  | abort => exact hSafe
  | atomic f k =>
    refine ⟨hStable, ?_⟩
    intro s g hInv hBudget hP
    exact hSafe.2 s g hInv hBudget (h s g hInv hP)
  | spin guard f k =>
    refine ⟨hStable, ?_⟩
    intro s g hInv hBudget hP
    exact hSafe.2 s g hInv hBudget (h s g hInv hP)

theorem safe_atomic {f : σ → σ} {k : σ → Prog σ Ret} (hStable : pr.Stable t P)
    (h : ∀ s g, pr.inv s g → pr.spent s g + pr.due phase ≤ pr.budget → P s g →
      ∃ g' phase' P', pr.StepOk obj t phase s g phase' (f s) g' ∧ P' (f s) g' ∧
        pr.Safe obj t (k s) phase' P') :
    pr.Safe obj t (.atomic f k) phase P := by
  refine ⟨hStable, ?_⟩
  intro s g hInv hBudget hP _
  exact h s g hInv hBudget hP

theorem safe_load {β : Type} {field : σ → β} {k : β → Prog σ Ret} (hStable : pr.Stable t P)
    (h : ∀ s g, pr.inv s g → P s g → ∃ phase' P', pr.StepOk obj t phase s g phase' s g ∧
      P' s g ∧ pr.Safe obj t (k (field s)) phase' P') :
    pr.Safe obj t (.load field k) phase P := by
  refine safe_atomic hStable ?_
  intro s g hInv _ hP
  obtain ⟨phase', P', hOk, hP', hRest⟩ := h s g hInv hP
  exact ⟨g, phase', P', hOk, hP', hRest⟩

theorem safe_load_silent {β : Type} {field : σ → β} {k : β → Prog σ Ret}
    (hStable : pr.Stable t P)
    (h : ∀ s g, pr.inv s g → P s g →
      ∃ P' : σ → γ → Prop, P' s g ∧ pr.Safe obj t (k (field s)) phase P') :
    pr.Safe obj t (.load field k) phase P := by
  refine safe_load hStable ?_
  intro s g hInv hP
  obtain ⟨P', hP', hRest⟩ := h s g hInv hP
  exact ⟨phase, P', .refl hInv, hP', hRest⟩

theorem safe_modify {f : σ → σ} {k : Prog σ Ret} {phase' : Phase Op Ret} {P' : σ → γ → Prop}
    (hStable : pr.Stable t P)
    (h : ∀ s g, pr.inv s g → pr.spent s g + pr.due phase ≤ pr.budget → P s g →
      ∃ g', pr.StepOk obj t phase s g phase' (f s) g' ∧ P' (f s) g')
    (hRest : pr.Safe obj t k phase' P') : pr.Safe obj t (.modify f k) phase P := by
  refine safe_atomic hStable ?_
  intro s g hInv hBudget hP
  obtain ⟨g', hOk, hP'⟩ := h s g hInv hBudget hP
  exact ⟨g', phase', P', hOk, hP', hRest⟩

theorem safe_assert {flag : σ → Bool} {k : Prog σ Ret} (hStable : pr.Stable t P)
    (hFlag : ∀ s g, pr.inv s g → P s g → flag s = true)
    (hRest : pr.Safe obj t k phase P) : pr.Safe obj t (.assert flag k) phase P := by
  refine safe_load_silent hStable ?_
  intro s g hInv hP
  refine ⟨P, hP, ?_⟩
  rw [hFlag s g hInv hP]
  exact hRest

theorem safe_spin {guard : σ → Bool} {f : σ → σ} {k : Prog σ Ret} {P' : σ → γ → Prop}
    (hStable : pr.Stable t P)
    (h : ∀ s g, pr.inv s g → P s g → guard s = true →
      ∃ g', pr.StepOk obj t phase s g phase (f s) g' ∧ P' (f s) g')
    (hRest : pr.Safe obj t k phase P') : pr.Safe obj t (.spin guard f k) phase P := by
  refine ⟨hStable, ?_⟩
  intro s g hInv _ hP hGuard
  obtain ⟨g', hOk, hP'⟩ := h s g hInv hP hGuard
  exact ⟨g', phase, P', hOk, hP', hRest⟩

theorem safe_ret (op : Op) (r : Ret) : pr.Safe obj t (.ret r) (.done op r) P :=
  ⟨op, rfl⟩

/-- A safe program stays safe while other threads take steps. -/
theorem Safe.interfere {p : Prog σ Ret} {s s' : σ} {g g' : γ} (hSafe : pr.Safe obj t p phase P)
    (hInv : pr.inv s g) (hP : P s g) (hRely : pr.rely t s g s' g') :
    ∃ P' : σ → γ → Prop, P' s' g' ∧ pr.Safe obj t p phase P' := by
  cases p with
  | ret r => exact ⟨fun _ _ => True, trivial, hSafe⟩
  | abort => exact hSafe.elim
  | atomic f k => exact ⟨P, hSafe.1 s g s' g' hInv hP hRely, hSafe⟩
  | spin guard f k => exact ⟨P, hSafe.1 s g s' g' hInv hP hRely, hSafe⟩

/-- Every step of a safe program can be accounted for, and leaves a safe program. -/
theorem Safe.step {p p' : Prog σ Ret} {s s' : σ} {g : γ} (hSafe : pr.Safe obj t p phase P)
    (hInv : pr.inv s g) (hBudget : pr.spent s g + pr.due phase ≤ pr.budget) (hP : P s g)
    (hStep : p.step s = some (s', p')) :
    ∃ g' phase', ∃ P' : σ → γ → Prop, pr.StepOk obj t phase s g phase' s' g' ∧
      P' s' g' ∧ pr.Safe obj t p' phase' P' := by
  cases p with
  | ret r => simp [Prog.step] at hStep
  | abort => exact hSafe.elim
  | atomic f k =>
    simp only [Prog.step, Option.some.injEq, Prod.mk.injEq] at hStep
    obtain ⟨rfl, rfl⟩ := hStep
    exact hSafe.2 s g hInv hBudget hP rfl
  | spin guard f k =>
    rcases Prog.step_spin hStep with ⟨hGuard, rfl, rfl⟩ | ⟨rfl, rfl⟩
    · exact hSafe.2 s g hInv hBudget hP hGuard
    · exact ⟨g, phase, P, .refl hInv, hP, hSafe⟩

end Rules

end Protocol

end Concurrent
