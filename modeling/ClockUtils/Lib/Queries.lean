import ClockUtils.Lib.RunLifting
import ClockUtils.Lib.SequentialProgram

namespace Concurrent

namespace Prog

variable {σ α β : Type}

theorem step_map (f : α → β) (p : Prog σ α) (s : σ) :
    (p.map f).step s = (p.step s).map fun next => (next.1, next.2.map f) := by
  cases p with
  | ret a => rfl
  | abort => rfl
  | atomic g k => rfl
  | spin guard g k =>
    simp only [map, step]
    split
    · rfl
    · rfl

theorem map_map {γ : Type} (f : α → β) (g : β → γ) (p : Prog σ α) :
    (p.map f).map g = p.map fun a => g (f a) := by
  induction p with
  | ret a => rfl
  | abort => rfl
  | atomic f' k ih => simp only [map, ih]
  | spin guard f' k ih => simp only [map, ih]

theorem map_eq_ret {f : α → β} {p : Prog σ α} {b : β} (h : p.map f = .ret b) :
    ∃ a, p = .ret a ∧ f a = b := by
  cases p with
  | ret a => exact ⟨a, rfl, Prog.ret.inj h⟩
  | abort | atomic g k | spin guard g k => cases h

/-- The program never changes the state. -/
def Reads (p : Prog σ α) : Prop :=
  p.All fun f => f = id

theorem Reads.step {p p' : Prog σ α} {s s' : σ} (h : p.Reads) (hStep : p.step s = some (s', p')) :
    p'.Reads ∧ s' = s := by
  obtain ⟨hRest, hState⟩ := All.step h hStep
  refine ⟨hRest, ?_⟩
  rcases hState with rfl | ⟨f, rfl, rfl⟩
  · rfl
  · rfl

end Prog

variable {Thread Op Query Ret Answer σ : Type}

/-- The operations of an object together with calls that only read it. -/
def withQueries (body : Op → Prog σ Ret) (query : Query → Prog σ Answer) :
    Op ⊕ Query → Prog σ (Ret ⊕ Answer)
  | .inl op => (body op).map .inl
  | .inr q => (query q).map .inr

/-- What a thread has before it, and what is left of it where no query is seen. -/
inductive Hides : Option (Prog σ (Ret ⊕ Answer)) → Option (Prog σ Ret) → Prop
  | idle : Hides none none
  | op (p : Prog σ Ret) : Hides (some (p.map .inl)) (some p)
  | query {p : Prog σ Answer} (h : p.Reads) : Hides (some (p.map .inr)) none

namespace Config

/-- The two configurations differ in the queries only. -/
structure HidesQueries (c : Config Thread σ (Ret ⊕ Answer)) (d : Config Thread σ Ret) : Prop where
  shared : c.shared = d.shared
  running : ∀ t, Hides (c.running t) (d.running t)

variable [DecidableEq Thread] {c c' : Config Thread σ (Ret ⊕ Answer)} {d : Config Thread σ Ret}

theorem HidesQueries.update (h : c.HidesQueries d) {s : σ} {t : Thread}
    {p : Option (Prog σ (Ret ⊕ Answer))} {p' : Option (Prog σ Ret)} (hHides : Hides p p') :
    HidesQueries ⟨s, Function.update c.running t p⟩ ⟨s, Function.update d.running t p'⟩ := by
  exact ⟨rfl, update_related (R := fun _ => Hides) hHides fun u _ => h.running u⟩

/-- The thread has nothing to do but a query. -/
theorem HidesQueries.update_query (h : c.HidesQueries d) {t : Thread}
    {p : Option (Prog σ (Ret ⊕ Answer))} (hIdle : d.running t = none) (hHides : Hides p none) :
    HidesQueries ⟨c.shared, Function.update c.running t p⟩ d := by
  have hUpdate := h.update (s := c.shared) (t := t) hHides
  rw [← hIdle, Function.update_eq_self] at hUpdate
  exact ⟨h.shared, hUpdate.running⟩

variable [DecidableEq Ret] [DecidableEq Answer] {body : Op → Prog σ Ret}
  {query : Query → Prog σ Answer}

/-- Every step is one of a query, or one without queries. -/
theorem HidesQueries.step (hQuery : ∀ q, (query q).Reads) (h : c.HidesQueries d)
    {l : Label Thread (Op ⊕ Query) (Ret ⊕ Answer)}
    (hStep : c.step (withQueries body query) l = some c') :
    (c'.HidesQueries d) ∨ ∃ l' d', d.step body l' = some d' ∧ c'.HidesQueries d' ∧
      ∀ t op, l' = .call t op → l = .call t (.inl op) := by
  rcases step_cases hStep with ⟨t, op, rfl, hIdle, rfl⟩ | ⟨t, r, rfl, hRet, rfl⟩ |
    ⟨t, p, s, p', rfl, hp, hNext, rfl⟩
  · have hHides := h.running t
    rw [hIdle] at hHides
    cases hd : d.running t with
    | some p => rw [hd] at hHides; cases hHides
    | none =>
      cases op with
      | inr q => exact .inl (h.update_query hd (.query (hQuery q)))
      | inl op =>
        refine .inr ⟨.call t op, ⟨d.shared, Function.update d.running t (some (body op))⟩, ?_, ?_, ?_⟩
        · simp only [Config.step, hd]
        · rw [← h.shared]
          exact h.update (.op (body op))
        · intro u op' hl
          cases hl
          rfl
  · have hHides := h.running t
    rw [hRet] at hHides
    generalize hp : (Prog.ret r : Prog σ (Ret ⊕ Answer)) = p at hHides
    generalize hd : d.running t = p' at hHides
    cases hHides with
    | query hReads => exact .inl (h.update_query hd .idle)
    | op p =>
      obtain ⟨r', rfl, rfl⟩ := Prog.map_eq_ret hp.symm
      refine .inr ⟨.ret t r', ⟨d.shared, Function.update d.running t none⟩, ?_, ?_, ?_⟩
      · simp only [Config.step, hd, if_true]
      · rw [← h.shared]
        exact h.update .idle
      · intro u op hl
        cases hl
  · have hHides := h.running t
    rw [hp] at hHides
    generalize hd : d.running t = q at hHides
    cases hHides with
    | @query p₁ hReads =>
      rw [Prog.step_map, Option.map_eq_some_iff] at hNext
      obtain ⟨⟨s₁, p₂⟩, hNext, hPair⟩ := hNext
      obtain ⟨rfl, rfl⟩ := Prod.mk.inj hPair
      obtain ⟨hRest, rfl⟩ := hReads.step hNext
      exact .inl (h.update_query hd (.query hRest))
    | op p₁ =>
      rw [Prog.step_map, Option.map_eq_some_iff] at hNext
      obtain ⟨⟨s₁, p₂⟩, hNext, hPair⟩ := hNext
      obtain ⟨rfl, rfl⟩ := Prod.mk.inj hPair
      refine .inr ⟨.internal t, ⟨s₁, Function.update d.running t (some p₂)⟩, ?_, ?_, ?_⟩
      · rw [h.shared] at hNext
        simp only [Config.step, hd, hNext]
      · exact h.update (.op p₂)
      · intro u op hl
        cases hl

end Config

/-- The thread that takes the step. -/
def Label.thread : Label Thread Op Ret → Thread
  | .call t _ => t
  | .ret t _ => t
  | .internal t => t

namespace Config

variable [DecidableEq Thread] [DecidableEq Ret] {body : Op → Prog σ Ret}
  {c c' : Config Thread σ Ret} {labels : List (Label Thread Op Ret)} {t : Thread}

theorem running_of_ne {l : Label Thread Op Ret} (hStep : c.step body l = some c')
    (ht : l.thread ≠ t) : c'.running t = c.running t := by
  rcases step_cases hStep with ⟨u, op, rfl, -, rfl⟩ | ⟨u, r, rfl, -, rfl⟩ |
    ⟨u, p, s, p', rfl, -, -, rfl⟩
  · exact Function.update_of_ne (Ne.symm ht) _ _
  · exact Function.update_of_ne (Ne.symm ht) _ _
  · exact Function.update_of_ne (Ne.symm ht) _ _

theorem running_call {op : Op} (hStep : c.step body (.call t op) = some c') :
    c'.running t = some (body op) := by
  rcases step_cases hStep with ⟨u, op', hl, -, rfl⟩ | ⟨u, r, hl, -⟩ | ⟨u, p, s, p', hl, -⟩
  · obtain ⟨rfl, rfl⟩ := Label.call.inj hl
    exact Function.update_self _ _ _
  · cases hl
  · cases hl

theorem running_ret {r : Ret} (hStep : c.step body (.ret t r) = some c') :
    c.running t = some (.ret r) := by
  rcases step_cases hStep with ⟨u, op, hl, -⟩ | ⟨u, r', hl, hRunning, -⟩ | ⟨u, p, s, p', hl, -⟩
  · cases hl
  · obtain ⟨rfl, rfl⟩ := Label.ret.inj hl
    exact hRunning
  · cases hl

/-- A thread in a call takes a step of it or returns from it. -/
theorem step_own {p : Prog σ Ret} (hp : c.running t = some p) {l : Label Thread Op Ret}
    (hStep : c.step body l = some c') (ht : l.thread = t) :
    (∃ r, l = .ret t r ∧ p = .ret r) ∨ ∃ s p', l = .internal t ∧ p.step c.shared = some (s, p') ∧
      c' = ⟨s, Function.update c.running t (some p')⟩ := by
  rcases step_cases hStep with ⟨u, op, rfl, hIdle, rfl⟩ | ⟨u, r, rfl, hRet, rfl⟩ |
    ⟨u, q, s, p', rfl, hq, hNext, rfl⟩
  · obtain rfl : u = t := ht
    rw [hp] at hIdle
    cases hIdle
  · obtain rfl : u = t := ht
    exact .inl ⟨r, rfl, Option.some.inj (hp.symm.trans hRet)⟩
  · obtain rfl : u = t := ht
    obtain rfl := Option.some.inj (hp.symm.trans hq)
    exact .inr ⟨s, p', rfl, hNext, rfl⟩

/-- Up to the next step of its thread a call waits where it is. -/
theorem run_next_step {p : Prog σ Ret} (hp : c.running t = some p)
    (hRun : c.run body labels = some c') (hMoves : c'.running t ≠ some p)
    (hCall : ∀ r, .ret t r ∉ labels) :
    ∃ others rest c₁ s p', labels = others ++ .internal t :: rest ∧
      (∀ l ∈ others, l.thread ≠ t) ∧ c.run body others = some c₁ ∧ p.step c₁.shared = some (s, p') ∧
      c₁.step body (.internal t) = some ⟨s, Function.update c₁.running t (some p')⟩ ∧
      (⟨s, Function.update c₁.running t (some p')⟩ : Config Thread σ Ret).run body rest = some c' := by
  induction labels generalizing c with
  | nil =>
    obtain rfl := Option.some.inj hRun
    exact absurd hp hMoves
  | cons l labels ih =>
    rw [run_cons, Option.bind_eq_some_iff] at hRun
    obtain ⟨c₁, hStep, hRun⟩ := hRun
    by_cases ht : l.thread = t
    · rcases step_own hp hStep ht with ⟨r, rfl, -⟩ | ⟨s, p', rfl, hNext, rfl⟩
      · exact absurd List.mem_cons_self (hCall r)
      · exact ⟨[], labels, c, s, p', rfl, by simp, rfl, hNext, hStep, hRun⟩
    · have hp₁ : c₁.running t = some p := (running_of_ne hStep ht).trans hp
      obtain ⟨others, rest, c₂, s, p', rfl, hOthers, hFirst, hRest⟩ :=
        ih hp₁ hRun fun r hr => hCall r (List.mem_cons_of_mem l hr)
      refine ⟨l :: others, rest, c₂, s, p', rfl, ?_, ?_, hRest⟩
      · exact List.forall_mem_cons.mpr ⟨ht, hOthers⟩
      · rw [run_cons, hStep, Option.bind_some]
        exact hFirst

/-- A call that has its result waits for its return. -/
theorem run_finished {r : Ret} (hp : c.running t = some (.ret r))
    (hRun : c.run body labels = some c') (hCall : ∀ r, .ret t r ∉ labels) :
    (∀ l ∈ labels, l.thread ≠ t) ∧ c'.running t = some (.ret r) := by
  induction labels generalizing c with
  | nil =>
    obtain rfl := Option.some.inj hRun
    exact ⟨by simp, hp⟩
  | cons l labels ih =>
    rw [run_cons, Option.bind_eq_some_iff] at hRun
    obtain ⟨c₁, hStep, hRun⟩ := hRun
    have ht : l.thread ≠ t := by
      intro ht
      rcases step_own hp hStep ht with ⟨r, rfl, -⟩ | ⟨s, p', rfl, hNext, -⟩
      · exact hCall r List.mem_cons_self
      · cases hNext
    obtain ⟨hOthers, hEnd⟩ := ih ((running_of_ne hStep ht).trans hp) hRun
      fun r hr => hCall r (List.mem_cons_of_mem l hr)
    exact ⟨List.forall_mem_cons.mpr ⟨ht, hOthers⟩, hEnd⟩

/-- A call that reads twice and returns what it makes of both. -/
theorem run_two_reads {α β : Type} {field : σ → α} {field' : σ → β} {k : α → β → Ret} {r : Ret}
    (hp : c.running t = some (.load field fun a => .load field' fun b => .ret (k a b)))
    (hRun : c.run body labels = some c') (hEnd : c'.running t = some (.ret r))
    (hCall : ∀ r, .ret t r ∉ labels) :
    ∃ waiting between leaving c₁ c₂,
      labels = waiting ++ .internal t :: (between ++ .internal t :: leaving) ∧
      (∀ l ∈ waiting ++ between ++ leaving, l.thread ≠ t) ∧
      c.run body (waiting ++ [.internal t]) = some c₁ ∧ c₁.run body between = some c₂ ∧
      r = k (field c₁.shared) (field' c₂.shared) := by
  obtain ⟨waiting, rest, cRead, s, p, rfl, hWaiting, hRead, hNext, hStep, hRun⟩ :=
    run_next_step hp hRun (by rw [hEnd]; intro h; cases h) hCall
  cases hNext
  obtain ⟨between, leaving, cWrite, s, p, rfl, hBetween, hWrite, hNext, -, hRun⟩ :=
    run_next_step (Function.update_self _ _ _) hRun (by rw [hEnd]; intro h; cases h)
      fun r hr => hCall r (by simp [hr])
  cases hNext
  obtain ⟨hLeaving, hResult⟩ := run_finished (Function.update_self _ _ _) hRun
    fun r hr => hCall r (by simp [hr])
  rw [hEnd] at hResult
  refine ⟨waiting, between, leaving, _, cWrite, rfl, fun l hl => ?_, ?_, hWrite, ?_⟩
  · rcases List.mem_append.mp hl with hl | hl
    · rcases List.mem_append.mp hl with hl | hl
      · exact hWaiting l hl
      · exact hBetween l hl
    · exact hLeaving l hl
  · rw [run_append, hRead, Option.bind_some, run_cons, hStep]
    rfl
  · exact Prog.ret.inj (Option.some.inj hResult)

/-- The whole run with such a call in it. -/
theorem exists_two_reads {α β : Type} {op : Op} {field : σ → α} {field' : σ → β} {k : α → β → Ret}
    {r : Ret} {first during : List (Label Thread Op Ret)}
    (hBody : body op = .load field fun a => .load field' fun b => .ret (k a b))
    (hRun : c.run body (first ++ .call t op :: (during ++ [.ret t r])) = some c')
    (hCall : ∀ r, .ret t r ∉ during) :
    ∃ waiting between leaving c₁ c₂,
      during = waiting ++ .internal t :: (between ++ .internal t :: leaving) ∧
      (∀ l ∈ waiting ++ between ++ leaving, l.thread ≠ t) ∧
      c.run body (first ++ .call t op :: (waiting ++ [.internal t])) = some c₁ ∧
      c₁.run body between = some c₂ ∧ r = k (field c₁.shared) (field' c₂.shared) := by
  rw [run_append, Option.bind_eq_some_iff] at hRun
  obtain ⟨c₀, hFirst, hRun⟩ := hRun
  rw [run_cons, Option.bind_eq_some_iff] at hRun
  obtain ⟨cStart, hStart, hRun⟩ := hRun
  obtain ⟨cEnd, hRun, hReturn⟩ := run_snoc hRun
  have hRunning := running_call hStart
  rw [hBody] at hRunning
  obtain ⟨waiting, between, leaving, c₁, c₂, hDuring, hOthers, hRead, hBetween, hResult⟩ :=
    run_two_reads hRunning hRun (running_ret hReturn) hCall
  refine ⟨waiting, between, leaving, c₁, c₂, hDuring, hOthers, ?_, hBetween, hResult⟩
  rw [run_append, hFirst, Option.bind_some, run_cons, hStart, Option.bind_some]
  exact hRead

end Config

section Presents

variable {Op' Ret' : Type}

/-- The threads are at the same places in both, and only their results differ. -/
structure Presents (c : Config Thread σ Ret') (d : Config Thread σ Ret) : Prop where
  shared : c.shared = d.shared
  running : ∀ t, ∃ g : Ret → Ret', c.running t = (d.running t).map (Prog.map g)

variable [DecidableEq Thread] {c c' : Config Thread σ Ret'} {d : Config Thread σ Ret}

theorem Presents.update (h : Presents c d) {s : σ} {t : Thread} {p : Option (Prog σ Ret)}
    {p' : Option (Prog σ Ret')} {g : Ret → Ret'} (hp : p' = p.map (Prog.map g)) :
    Presents ⟨s, Function.update c.running t p'⟩ ⟨s, Function.update d.running t p⟩ := by
  refine ⟨rfl, ?_⟩
  have hNew : ∃ g : Ret → Ret', p' = p.map (Prog.map g) := ⟨g, hp⟩
  exact update_related
    (R := fun _ p' p => ∃ g : Ret → Ret', p' = Option.map (Prog.map g) p) hNew
    fun u _ => h.running u

variable [DecidableEq Ret] [DecidableEq Ret'] {body : Op → Prog σ Ret} {body' : Op' → Prog σ Ret'}

/-- Every step of one is a step of the other; a call has its counterpart. -/
theorem Presents.step {R : Op' → Op → Prop} {l : Label Thread Op' Ret'}
    (hBody : ∀ t op', l = .call t op' → ∃ op g, R op' op ∧ body' op' = (body op).map g)
    (h : Presents c d) (hStep : c.step body' l = some c') :
    ∃ l' d', d.step body l' = some d' ∧ Presents c' d' ∧
      ∀ t op, l' = .call t op → ∃ op', l = .call t op' ∧ R op' op := by
  rcases Config.step_cases hStep with ⟨t, op', rfl, hIdle, rfl⟩ | ⟨t, r, rfl, hRet, rfl⟩ |
    ⟨t, p, s, p', rfl, hp, hNext, rfl⟩
  · obtain ⟨op, g, hOp, hProg⟩ := hBody t op' rfl
    obtain ⟨g', hRunning⟩ := h.running t
    have hd : d.running t = none := by simpa [hIdle] using hRunning.symm
    refine ⟨.call t op, ⟨d.shared, Function.update d.running t (some (body op))⟩, ?_, ?_, ?_⟩
    · simp only [Config.step, hd]
    · rw [← h.shared, hProg]
      exact h.update rfl
    · intro u op₁ hl
      cases hl
      exact ⟨op', rfl, hOp⟩
  · obtain ⟨g, hRunning⟩ := h.running t
    rw [hRet] at hRunning
    obtain ⟨p, hd, hp⟩ := Option.map_eq_some_iff.mp hRunning.symm
    obtain ⟨r', rfl, -⟩ := Prog.map_eq_ret hp
    refine ⟨.ret t r', ⟨d.shared, Function.update d.running t none⟩, ?_, ?_, ?_⟩
    · simp only [Config.step, hd, if_true]
    · rw [← h.shared]
      exact h.update (g := g) rfl
    · intro u op hl
      cases hl
  · obtain ⟨g, hRunning⟩ := h.running t
    rw [hp] at hRunning
    obtain ⟨q, hd, rfl⟩ := Option.map_eq_some_iff.mp hRunning.symm
    rw [Prog.step_map, Option.map_eq_some_iff] at hNext
    obtain ⟨⟨s₁, q'⟩, hNext, hPair⟩ := hNext
    obtain ⟨rfl, rfl⟩ := Prod.mk.inj hPair
    refine ⟨.internal t, ⟨s₁, Function.update d.running t (some q')⟩, ?_, ?_, ?_⟩
    · rw [h.shared] at hNext
      simp only [Config.step, hd, hNext]
    · exact h.update rfl
    · intro u op hl
      cases hl

end Presents

end Concurrent
