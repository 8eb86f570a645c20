import Mathlib.Logic.Relation
import ClockUtils.Lib.AtomicProgram

namespace Concurrent

namespace Prog

variable {σ α β : Type}

/-- Runs a program that no other thread interferes with: the state it leaves and
its result, `none` when it aborts or would try a conditional operation forever. -/
def eval (s : σ) : Prog σ α → Option (σ × α)
  | ret a => some (s, a)
  | abort => none
  | atomic f k => (k s).eval (f s)
  | spin guard f k => if guard s then k.eval (f s) else none

/-- The same program with another result. -/
def map (g : α → β) : Prog σ α → Prog σ β
  | ret a => ret (g a)
  | abort => abort
  | atomic f k => atomic f fun s => (k s).map g
  | spin guard f k => spin guard f (k.map g)

@[simp]
theorem eval_ret (s : σ) (a : α) : (ret a).eval s = some (s, a) := rfl

@[simp]
theorem eval_load (s : σ) (field : σ → β) (k : β → Prog σ α) :
    (load field k).eval s = (k (field s)).eval s := rfl

@[simp]
theorem eval_modify (s : σ) (f : σ → σ) (k : Prog σ α) : (modify f k).eval s = k.eval (f s) := rfl

@[simp]
theorem eval_atomic (s : σ) (f : σ → σ) (k : σ → Prog σ α) :
    (atomic f k).eval s = (k s).eval (f s) := rfl

theorem eval_spin {s : σ} {guard : σ → Bool} (h : guard s = true) (f : σ → σ) (k : Prog σ α) :
    (spin guard f k).eval s = k.eval (f s) :=
  if_pos h

theorem eval_assert {s : σ} {flag : σ → Bool} (h : flag s = true) (k : Prog σ α) :
    (assert flag k).eval s = k.eval s := by
  rw [assert, eval_load, if_pos h]

@[simp]
theorem eval_map (g : α → β) (p : Prog σ α) (s : σ) :
    (p.map g).eval s = (p.eval s).map fun outcome => (outcome.1, g outcome.2) := by
  induction p generalizing s with
  | ret a => rfl
  | abort => rfl
  | atomic f k ih => exact ih s (f s)
  | spin guard f k ih =>
    rw [map, eval, eval]
    split
    · exact ih (f s)
    · rfl

/-- The steps of the program lead to what `eval` says. -/
theorem eval_steps {p : Prog σ α} {s s' : σ} {a : α} (h : p.eval s = some (s', a)) :
    Relation.ReflTransGen (fun before after => before.2.step before.1 = some after)
      (s, p) (s', .ret a) := by
  induction p generalizing s with
  | ret b =>
    obtain ⟨rfl, rfl⟩ : s = s' ∧ b = a := by simpa using h
    exact .refl
  | abort => cases h
  | atomic f k ih => exact .head rfl (ih s h)
  | spin guard f k ih =>
    rw [eval] at h
    split at h
    · next hguard => exact .head (if_pos hguard) (ih h)
    · cases h

/-- The results of calls that one thread makes one after the other. -/
def evalCalls {Op Ret : Type} (body : Op → Prog σ Ret) (s : σ) : List Op → Option (List Ret)
  | [] => some []
  | op :: ops =>
    match (body op).eval s with
    | none => none
    | some (s', r) => (evalCalls body s' ops).map (r :: ·)

end Prog

/-- The results of the same calls on the object. -/
def SeqObject.results {Op Ret State : Type} (obj : SeqObject Op Ret State) (a : State) :
    List Op → List Ret
  | [] => []
  | op :: ops => (obj.apply a op).1 :: obj.results (obj.apply a op).2 ops

/-- A relation between the states of the program and those of the object, which
may depend on the calls that are still to come, shows that both return the same. -/
theorem evalCalls_of_simulation {Op Ret State σ : Type} {body : Op → Prog σ Ret}
    {obj : SeqObject Op Ret State} (related : List Op → σ → State → Prop)
    (hstep : ∀ op ops s a, related (op :: ops) s a →
      ∃ s', (body op).eval s = some (s', (obj.apply a op).1) ∧ related ops s' (obj.apply a op).2)
    {ops : List Op} {s : σ} {a : State} (h : related ops s a) :
    Prog.evalCalls body s ops = some (obj.results a ops) := by
  induction ops generalizing s a with
  | nil => rfl
  | cons op ops ih =>
    obtain ⟨s', heval, hrest⟩ := hstep op ops s a h
    rw [Prog.evalCalls, heval]
    simp only [ih hrest]
    rfl

end Concurrent
