import ClockUtils.Lib.AtomicProgram

namespace Concurrent

/-- Programs cut at their steps: the point at which each operation begins, the
step from a point, and what a call returns at a point. -/
structure ControlGraph (Op Ret σ Point : Type) where
  entry : Op → Point
  step : σ → Point → Option (σ × Point)
  reply : Point → Option Ret

/-- The points are those of the programs: `prog` is what remains to be done. -/
structure ControlGraph.Cuts {Op Ret σ Point : Type} (graph : ControlGraph Op Ret σ Point)
    (body : Op → Prog σ Ret) (prog : Point → Prog σ Ret) : Prop where
  entry : ∀ op, prog (graph.entry op) = body op
  step : ∀ s p, (prog p).step s = (graph.step s p).map fun next => (next.1, prog next.2)
  reply : ∀ p r, prog p = .ret r ↔ graph.reply p = some r

/-- The shared state, and the point that every thread has reached in its call. -/
structure Located (Thread σ Point : Type) where
  shared : σ
  points : Thread → Option Point

namespace Located

variable {Thread Op Ret σ Point : Type}

/-- No thread has called anything yet. -/
def start (s : σ) : Located Thread σ Point :=
  ⟨s, fun _ => none⟩

/-- What the threads still have to do. -/
def config (prog : Point → Prog σ Ret) (m : Located Thread σ Point) : Config Thread σ Ret :=
  ⟨m.shared, fun t => (m.points t).map prog⟩

section Run

variable [DecidableEq Thread] [DecidableEq Ret]

/-- One step of one thread, as `Config.step` has it. -/
def step (graph : ControlGraph Op Ret σ Point) (m : Located Thread σ Point) :
    Label Thread Op Ret → Option (Located Thread σ Point)
  | .call t op =>
    match m.points t with
    | none => some ⟨m.shared, Function.update m.points t (some (graph.entry op))⟩
    | some _ => none
  | .ret t r =>
    match m.points t with
    | some p =>
      if graph.reply p = some r then some ⟨m.shared, Function.update m.points t none⟩ else none
    | none => none
  | .internal t =>
    match m.points t with
    | some p =>
      match graph.step m.shared p with
      | some (s, p') => some ⟨s, Function.update m.points t (some p')⟩
      | none => none
    | none => none

def run (graph : ControlGraph Op Ret σ Point) (m : Located Thread σ Point)
    (labels : List (Label Thread Op Ret)) : Option (Located Thread σ Point) :=
  labels.foldlM (step graph) m

/-- What a step can do. -/
theorem step_cases {graph : ControlGraph Op Ret σ Point} {m m' : Located Thread σ Point}
    {l : Label Thread Op Ret} (hStep : m.step graph l = some m') :
    (∃ t op, l = .call t op ∧
      m' = ⟨m.shared, Function.update m.points t (some (graph.entry op))⟩) ∨
    (∃ t r, l = .ret t r ∧ m' = ⟨m.shared, Function.update m.points t none⟩) ∨
    ∃ t p s p', l = .internal t ∧ m.points t = some p ∧ graph.step m.shared p = some (s, p') ∧
      m' = ⟨s, Function.update m.points t (some p')⟩ := by
  cases l with
  | call t op =>
    simp only [step] at hStep
    split at hStep
    · exact .inl ⟨t, op, rfl, (Option.some.inj hStep).symm⟩
    · cases hStep
  | ret t r =>
    simp only [step] at hStep
    split at hStep
    · split at hStep
      · exact .inr (.inl ⟨t, r, rfl, (Option.some.inj hStep).symm⟩)
      · cases hStep
    · cases hStep
  | internal t =>
    simp only [step] at hStep
    split at hStep
    · next p hPoint =>
      split at hStep
      · next s p' hNext =>
        exact .inr (.inr ⟨t, p, s, p', rfl, hPoint, hNext, (Option.some.inj hStep).symm⟩)
      · cases hStep
    · cases hStep

theorem run_cons (graph : ControlGraph Op Ret σ Point) (m : Located Thread σ Point)
    (l : Label Thread Op Ret) (labels : List (Label Thread Op Ret)) :
    m.run graph (l :: labels) = (m.step graph l).bind fun m' => m'.run graph labels :=
  StepRun.run_cons (step graph) m l labels

theorem run_append (graph : ControlGraph Op Ret σ Point) (m : Located Thread σ Point)
    (labels more : List (Label Thread Op Ret)) :
    m.run graph (labels ++ more) = (m.run graph labels).bind fun m' => m'.run graph more :=
  StepRun.run_append (step graph) m labels more

omit [DecidableEq Ret] in
theorem config_update (prog : Point → Prog σ Ret) (s : σ) (points : Thread → Option Point)
    (t : Thread) (p : Option Point) :
    config prog ⟨s, Function.update points t p⟩ =
      ⟨s, Function.update (fun u => (points u).map prog) t (p.map prog)⟩ := by
  simp only [config, Config.mk.injEq, true_and]
  funext u
  exact Function.apply_update (fun _ point => point.map prog) points t p u

variable {graph : ControlGraph Op Ret σ Point} {body : Op → Prog σ Ret} {prog : Point → Prog σ Ret}

/-- The steps between points are the steps of the programs. -/
theorem config_step (hCuts : graph.Cuts body prog) (m : Located Thread σ Point)
    (l : Label Thread Op Ret) :
    (m.config prog).step body l = (m.step graph l).map (config prog) := by
  cases l with
  | call t op =>
    simp only [Config.step, step, config]
    cases m.points t with
    | none => simp only [Option.map_none, Option.map_some, config_update, hCuts.entry]
    | some p => simp only [Option.map_none, Option.map_some]
  | ret t r =>
    simp only [Config.step, step]
    cases hPoint : m.points t with
    | none => simp only [config, hPoint, Option.map_none]
    | some p =>
      have hReply := hCuts.reply p
      simp only [config, hPoint, Option.map_some]
      cases hProg : prog p with
      | ret r' =>
        rw [(hReply r').mp hProg]
        by_cases hr : r = r'
        · simp only [hr, if_true, Option.map_some, config_update, Option.map_none]
        · have hr' : some r' ≠ some r := fun h => hr (Option.some.inj h).symm
          simp only [if_neg hr, if_neg hr', Option.map_none]
      | abort =>
        have hNone : graph.reply p ≠ some r := by simp [← hReply, hProg]
        simp only [if_neg hNone, Option.map_none]
      | atomic f k =>
        have hNone : graph.reply p ≠ some r := by simp [← hReply, hProg]
        simp only [if_neg hNone, Option.map_none]
      | spin guard f k =>
        have hNone : graph.reply p ≠ some r := by simp [← hReply, hProg]
        simp only [if_neg hNone, Option.map_none]
  | internal t =>
    simp only [Config.step, step]
    cases hPoint : m.points t with
    | none => simp only [config, hPoint, Option.map_none]
    | some p =>
      simp only [config, hPoint, Option.map_some, hCuts.step]
      cases graph.step m.shared p with
      | none => simp only [Option.map_none]
      | some next => simp only [Option.map_some, config_update]

/-- Every interleaving reaches the same state either way. -/
theorem config_run (hCuts : graph.Cuts body prog) (m : Located Thread σ Point)
    (labels : List (Label Thread Op Ret)) :
    (m.config prog).run body labels = (m.run graph labels).map (config prog) := by
  induction labels generalizing m with
  | nil => rfl
  | cons l labels ih =>
    unfold Config.run
    rw [List.foldlM_cons, run_cons, config_step hCuts]
    cases m.step graph l with
    | none => rfl
    | some m' => exact ih m'

end Run

end Located

end Concurrent
