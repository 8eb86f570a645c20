import Mathlib.Data.List.Induction
import ClockUtils.Lib.AtomicProgram

namespace Concurrent

namespace Prog

variable {σ α : Type}

/-- Whatever the program may still do to the state has the property. -/
def All (P : (σ → σ) → Prop) : Prog σ α → Prop
  | ret _ => True
  | abort => True
  | atomic f k => P f ∧ ∀ s, (k s).All P
  | spin _ f k => P f ∧ k.All P

theorem All.mono {P Q : (σ → σ) → Prop} {p : Prog σ α} (h : p.All P) (hPQ : ∀ f, P f → Q f) :
    p.All Q := by
  induction p with
  | ret a => trivial
  | abort => trivial
  | atomic f k ih => exact ⟨hPQ f h.1, fun s => ih s (h.2 s)⟩
  | spin guard f k ih => exact ⟨hPQ f h.1, ih h.2⟩

/-- One step applies such a function, or it tries in vain. -/
theorem All.step {P : (σ → σ) → Prop} {p p' : Prog σ α} {s s' : σ} (h : p.All P)
    (hStep : p.step s = some (s', p')) : p'.All P ∧ (s' = s ∨ ∃ f, P f ∧ s' = f s) := by
  cases p with
  | ret a => cases hStep
  | abort => cases hStep
  | atomic f k =>
    simp only [Prog.step, Option.some.injEq, Prod.mk.injEq] at hStep
    obtain ⟨rfl, rfl⟩ := hStep
    exact ⟨h.2 s, .inr ⟨f, h.1, rfl⟩⟩
  | spin guard f k =>
    rcases step_spin hStep with ⟨-, rfl, rfl⟩ | ⟨rfl, rfl⟩
    · exact ⟨h.2, .inr ⟨f, h.1, rfl⟩⟩
    · exact ⟨h, .inl rfl⟩

/-- The first program does to its state what the second one does to a state that
shows less of it, `erase` being what is left of a state and `view` of a result. -/
def Lifts {σ' α' : Type} (erase : σ' → σ) (view : α' → α) : Prog σ' α' → Prog σ α → Prop
  | ret a', ret a => view a' = a
  | abort, abort => True
  | atomic f' k', atomic f k =>
      (∀ s, erase (f' s) = f (erase s)) ∧ ∀ s, Lifts erase view (k' s) (k (erase s))
  | spin guard' f' k', spin guard f k =>
      (∀ s, guard' s = guard (erase s)) ∧ (∀ s, erase (f' s) = f (erase s)) ∧ Lifts erase view k' k
  | _, _ => False

/-- Both take their steps together. -/
theorem Lifts.step {σ' α' : Type} {erase : σ' → σ} {view : α' → α} {p' : Prog σ' α'} {p q : Prog σ α}
    (h : Lifts erase view p' p) {s' : σ'} {s : σ} (hStep : p.step (erase s') = some (s, q)) :
    ∃ s₁ q', p'.step s' = some (s₁, q') ∧ erase s₁ = s ∧ Lifts erase view q' q := by
  cases p with
  | ret a => cases hStep
  | abort => cases hStep
  | atomic f k =>
    cases p' with
    | ret a | abort | spin guard' f' k' => exact h.elim
    | atomic f' k' =>
      simp only [Prog.step, Option.some.injEq, Prod.mk.injEq] at hStep
      obtain ⟨rfl, rfl⟩ := hStep
      exact ⟨f' s', k' s', rfl, h.1 s', h.2 s'⟩
  | spin guard f k =>
    cases p' with
    | ret a | abort | atomic f' k' => exact h.elim
    | spin guard' f' k' =>
      simp only [Prog.step] at hStep ⊢
      rw [h.1 s']
      split at hStep
      · next hGuard =>
        simp only [Option.some.injEq, Prod.mk.injEq] at hStep
        obtain ⟨rfl, rfl⟩ := hStep
        exact ⟨f' s', k', if_pos hGuard, h.2.1 s', h.2.2⟩
      · next hGuard =>
        simp only [Option.some.injEq, Prod.mk.injEq] at hStep
        obtain ⟨rfl, rfl⟩ := hStep
        exact ⟨s', spin guard' f' k', if_neg hGuard, rfl, h⟩

/-- A program that has ended lifts to one that has ended. -/
theorem Lifts.ret_eq {σ' α' : Type} {erase : σ' → σ} {view : α' → α} {p' : Prog σ' α'} {a : α}
    (h : Lifts erase view p' (.ret a)) : ∃ a', p' = .ret a' ∧ view a' = a := by
  cases p' with
  | ret a' => exact ⟨a', rfl, h⟩
  | abort | atomic f' k' | spin guard' f' k' => exact h.elim

end Prog

namespace Config

variable {Thread Op Ret σ : Type} [DecidableEq Thread] [DecidableEq Ret] {body : Op → Prog σ Ret}
  {c c' : Config Thread σ Ret}

/-- After these steps the thread has called something and not returned from it,
and what it still does is part of what it has called. -/
def Calling (body : Op → Prog σ Ret) (labels : List (Label Thread Op Ret)) (t : Thread)
    (p : Prog σ Ret) : Prop :=
  ∃ first op rest, labels = first ++ .call t op :: rest ∧ (∀ r, .ret t r ∉ rest) ∧
    ∀ P, (body op).All P → p.All P

omit [DecidableEq Thread] [DecidableEq Ret] in
theorem Calling.snoc {labels : List (Label Thread Op Ret)} {t : Thread} {p p' : Prog σ Ret}
    (h : Calling body labels t p) {l : Label Thread Op Ret} (hReturn : ∀ r, .ret t r ≠ l)
    (hPart : ∀ P, p.All P → p'.All P) : Calling body (labels ++ [l]) t p' := by
  obtain ⟨first, op, rest, rfl, hRest, hAll⟩ := h
  refine ⟨first, op, rest ++ [l], by simp, fun r hr => ?_, fun P hP => hPart P (hAll P hP)⟩
  rcases List.mem_append.mp hr with hr | hr
  · exact hRest r hr
  · exact hReturn r (List.mem_singleton.mp hr)

/-- What a thread is running is a part of its last call, which has not returned. The run is
read from its end. -/
theorem run_running {s : σ} {labels : List (Label Thread Op Ret)}
    (hRun : (start s : Config Thread σ Ret).run body labels = some c) {t : Thread} {p : Prog σ Ret}
    (hp : c.running t = some p) : Calling body labels t p := by
  induction labels using List.reverseRecOn generalizing c t p with
  | nil =>
    obtain rfl := Option.some.inj hRun
    cases hp
  | append_singleton labels l ih =>
    obtain ⟨c₁, hFirst, hStep⟩ := run_snoc hRun
    rcases step_cases hStep with ⟨u, op, rfl, -, rfl⟩ | ⟨u, r, rfl, -, rfl⟩ |
      ⟨u, q, s', q', rfl, hq, hNext, rfl⟩
    · by_cases hu : t = u
      · subst hu
        simp only [Function.update_self] at hp
        obtain rfl := Option.some.inj hp
        exact ⟨labels, op, [], rfl, by simp, fun P hP => hP⟩
      · simp only [Function.update_of_ne hu] at hp
        exact (ih hFirst hp).snoc (by simp) fun P hP => hP
    · by_cases hu : t = u
      · subst hu
        simp only [Function.update_self] at hp
        cases hp
      · simp only [Function.update_of_ne hu] at hp
        refine (ih hFirst hp).snoc (fun r' hr => ?_) fun P hP => hP
        exact hu (Label.ret.inj hr).1
    · by_cases hu : t = u
      · subst hu
        simp only [Function.update_self] at hp
        obtain rfl := Option.some.inj hp
        exact (ih hFirst hq).snoc (by simp) fun P hP => (hP.step hNext).1
      · simp only [Function.update_of_ne hu] at hp
        exact (ih hFirst hp).snoc (by simp) fun P hP => hP

/-- An invariant of the shared state that every operation keeps. -/
theorem run_invariant {s : σ} {labels : List (Label Thread Op Ret)} {I : σ → Prop}
    (hRun : (start s : Config Thread σ Ret).run body labels = some c) (hStart : I s)
    (hBody : ∀ op, (body op).All fun f => ∀ s, I s → I (f s)) : I c.shared := by
  induction labels using List.reverseRecOn generalizing c with
  | nil =>
    obtain rfl := Option.some.inj hRun
    exact hStart
  | append_singleton labels l ih =>
    obtain ⟨c₁, hFirst, hStep⟩ := run_snoc hRun
    have hInv := ih hFirst
    rcases step_cases hStep with ⟨u, op, rfl, -, rfl⟩ | ⟨u, r, rfl, -, rfl⟩ |
      ⟨u, q, s', q', rfl, hq, hNext, rfl⟩
    · exact hInv
    · exact hInv
    · obtain ⟨first, op, rest, -, -, hAll⟩ := run_running hFirst hq
      rcases ((hAll _ (hBody op)).step hNext).2 with rfl | ⟨f, hf, rfl⟩
      · exact hInv
      · exact hf _ hInv

end Config

section Lifting

variable {Thread Op Op' Ret Ret' σ σ' : Type}

/-- What is left of a step. -/
def Label.map (erase : Op' → Op) (view : Ret' → Ret) : Label Thread Op' Ret' → Label Thread Op Ret
  | .call t op => .call t (erase op)
  | .ret t r => .ret t (view r)
  | .internal t => .internal t

/-- The threads of both configurations have as much left to do. -/
structure Config.Lifts (erase : σ' → σ) (view : Ret' → Ret) (c' : Config Thread σ' Ret')
    (c : Config Thread σ Ret) : Prop where
  shared : erase c'.shared = c.shared
  running : ∀ t, Option.Rel (Prog.Lifts erase view) (c'.running t) (c.running t)

/-- The calls of the run are numbered by their positions. -/
def Numbered (number : Nat → Op → Op') (labels : List (Label Thread Op' Ret')) : Prop :=
  ∀ first t op' rest, labels = first ++ .call t op' :: rest → ∃ op, op' = number first.length op

theorem Numbered.snoc {number : Nat → Op → Op'} {labels : List (Label Thread Op' Ret')}
    (h : Numbered number labels) {l : Label Thread Op' Ret'}
    (hl : ∀ t op', l = .call t op' → ∃ op, op' = number labels.length op) :
    Numbered number (labels ++ [l]) := by
  intro first t op' rest hEq
  rcases List.eq_nil_or_concat rest with rfl | ⟨rest', last, rfl⟩
  · obtain ⟨rfl, hLast⟩ := List.append_inj' hEq rfl
    exact hl t op' (List.singleton_inj.mp hLast)
  · rw [List.concat_eq_append, ← List.cons_append, ← List.append_assoc] at hEq
    exact h first t op' rest' (List.append_inj' hEq rfl).1

theorem Numbered.left {number : Nat → Op → Op'} {labels more : List (Label Thread Op' Ret')}
    (h : Numbered number (labels ++ more)) : Numbered number labels := by
  rintro first t op' rest rfl
  exact h first t op' (rest ++ more) (by simp)

variable [DecidableEq Thread] [DecidableEq Ret] [DecidableEq Ret']
  {erase : σ' → σ} {view : Ret' → Ret} {eraseOp : Op' → Op} {number : Nat → Op → Op'}
  {body' : Op' → Prog σ' Ret'} {body : Op → Prog σ Ret}
  {c' : Config Thread σ' Ret'} {c c₁ : Config Thread σ Ret}

omit [DecidableEq Ret] [DecidableEq Ret'] in
theorem Config.Lifts.update (h : c'.Lifts erase view c) {s' : σ'} {s : σ} (hShared : erase s' = s)
    {t : Thread} {p' : Option (Prog σ' Ret')} {p : Option (Prog σ Ret)}
    (hRunning : Option.Rel (Prog.Lifts erase view) p' p) :
    Config.Lifts erase view ⟨s', Function.update c'.running t p'⟩
      ⟨s, Function.update c.running t p⟩ := by
  refine ⟨hShared, ?_⟩
  exact update_related (R := fun _ => Option.Rel (Prog.Lifts erase view)) hRunning
    fun u _ => h.running u

/-- Every step is a step of the configuration that shows more, and a call may be
numbered there. -/
theorem Config.Lifts.step (hBody : ∀ op', Prog.Lifts erase view (body' op') (body (eraseOp op')))
    (hNumber : ∀ n op, eraseOp (number n op) = op) (h : c'.Lifts erase view c)
    {l : Label Thread Op Ret} (hStep : c.step body l = some c₁) (n : Nat) :
    ∃ l' c₁', c'.step body' l' = some c₁' ∧ l'.map eraseOp view = l ∧ c₁'.Lifts erase view c₁ ∧
      ∀ t op', l' = .call t op' → ∃ op, op' = number n op := by
  rcases Config.step_cases hStep with ⟨t, op, rfl, hIdle, rfl⟩ | ⟨t, r, rfl, hRet, rfl⟩ |
    ⟨t, p, s, p₁, rfl, hp, hNext, rfl⟩
  · have hRunning := h.running t
    rw [hIdle] at hRunning
    refine ⟨.call t (number n op), ⟨c'.shared, Function.update c'.running t (some (body' (number n op)))⟩,
      ?_, ?_, ?_, ?_⟩
    · cases hc : c'.running t with
      | none => simp only [Config.step, hc]
      | some p' => rw [hc] at hRunning; cases hRunning
    · rw [Label.map, hNumber]
    · have hCall := hBody (number n op)
      rw [hNumber] at hCall
      exact h.update h.shared (.some hCall)
    · rintro u op' ⟨⟩
      exact ⟨op, rfl⟩
  · have hRunning := h.running t
    rw [hRet] at hRunning
    cases hc : c'.running t with
    | none => rw [hc] at hRunning; cases hRunning
    | some p' =>
      rw [hc] at hRunning
      cases hRunning with
      | some hLifts =>
        obtain ⟨r', rfl, hr⟩ := hLifts.ret_eq
        refine ⟨.ret t r', ⟨c'.shared, Function.update c'.running t none⟩, ?_, ?_, ?_, ?_⟩
        · simp only [Config.step, hc, if_true]
        · rw [Label.map, hr]
        · exact h.update h.shared .none
        · rintro u op' ⟨⟩
  · have hRunning := h.running t
    rw [hp] at hRunning
    cases hc : c'.running t with
    | none => rw [hc] at hRunning; cases hRunning
    | some p' =>
      rw [hc] at hRunning
      cases hRunning with
      | some hLifts =>
        rw [← h.shared] at hNext
        obtain ⟨s', q', hStep', hs', hq'⟩ := hLifts.step hNext
        refine ⟨.internal t, ⟨s', Function.update c'.running t (some q')⟩, ?_, rfl, ?_, ?_⟩
        · simp only [Config.step, hc, hStep']
        · exact h.update hs' (.some hq')
        · rintro u op' ⟨⟩

/-- Every run is a run of the configuration that shows more, with its calls numbered. -/
theorem Config.exists_numbered
    (hBody : ∀ op', Prog.Lifts erase view (body' op') (body (eraseOp op')))
    (hNumber : ∀ n op, eraseOp (number n op) = op) {s' : σ'} {labels : List (Label Thread Op Ret)}
    (hRun : (start (erase s') : Config Thread σ Ret).run body labels = some c) :
    ∃ labels' c', (start s' : Config Thread σ' Ret').run body' labels' = some c' ∧
      labels'.map (Label.map eraseOp view) = labels ∧ Numbered number labels' ∧
      c'.Lifts erase view c := by
  induction labels using List.reverseRecOn generalizing c with
  | nil =>
    obtain rfl := Option.some.inj hRun
    refine ⟨[], start s', rfl, rfl, ?_, rfl, fun t => .none⟩
    intro first t op' rest hEq
    simp at hEq
  | append_singleton labels l ih =>
    obtain ⟨c₁, hFirst, hStep⟩ := run_snoc hRun
    obtain ⟨labels', c₁', hRun', hErase, hNumbered, hLifts⟩ := ih hFirst
    obtain ⟨l', c', hStep', hl', hLifts', hCall⟩ := hLifts.step hBody hNumber hStep labels'.length
    refine ⟨labels' ++ [l'], c', ?_, ?_, hNumbered.snoc hCall, hLifts'⟩
    · rw [run_append, hRun', Option.bind_some, run_cons, hStep', Option.bind_some]
      rfl
    · rw [List.map_append, hErase, List.map_singleton, hl']

end Lifting

end Concurrent
