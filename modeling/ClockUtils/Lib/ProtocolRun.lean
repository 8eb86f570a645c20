import Mathlib.Algebra.BigOperators.Group.Finset.Basic
import Mathlib.Algebra.GroupWithZero.Nat
import ClockUtils.Lib.AtomicProgram

namespace Concurrent.Protocol

variable {Thread Op Ret σ γ State : Type}

/-- A thread between calls is idle, and one in a call has a safe program before it. -/
def Follows (pr : Protocol Thread Op σ γ State) (obj : SeqObject Op Ret State) (s : σ) (g : γ)
    (t : Thread) (phase : Phase Op Ret) : Option (Prog σ Ret) → Prop
  | none => phase = .idle
  | some p => ∃ P : σ → γ → Prop, P s g ∧ pr.Safe obj t p phase P

theorem Follows.interfere {pr : Protocol Thread Op σ γ State} {obj : SeqObject Op Ret State}
    {s s' : σ} {g g' : γ} {t : Thread} {phase : Phase Op Ret} {running : Option (Prog σ Ret)}
    (hFollows : pr.Follows obj s g t phase running) (hInv : pr.inv s g)
    (hRely : pr.rely t s g s' g') : pr.Follows obj s' g' t phase running := by
  cases running with
  | none => exact hFollows
  | some p =>
    obtain ⟨P, hP, hSafe⟩ := hFollows
    exact hSafe.interfere hInv hP hRely

variable [DecidableEq Thread]

/-- What a step pays for. -/
def payment (pr : Protocol Thread Op σ γ State) : Label Thread Op Ret → Nat
  | .call _ op => pr.weight op
  | _ => 0

/-- What has been used and what the calls under way may still use has been paid
for. Only finitely many threads have ever called. -/
def Covered (pr : Protocol Thread Op σ γ State) (phases : Thread → Phase Op Ret)
    (spent paid : Nat) : Prop :=
  ∃ callers : Finset Thread, (∀ t, t ∉ callers → phases t = .idle) ∧
    spent + ∑ t ∈ callers, pr.due (phases t) ≤ paid

theorem sum_due_split (pr : Protocol Thread Op σ γ State) {phases : Thread → Phase Op Ret}
    {callers : Finset Thread} (hIdle : ∀ t, t ∉ callers → phases t = .idle) (t : Thread) :
    ∑ u ∈ callers, pr.due (phases u) =
      pr.due (phases t) + ∑ u ∈ callers.erase t, pr.due (phases u) := by
  by_cases ht : t ∈ callers
  · exact (Finset.add_sum_erase callers _ ht).symm
  · rw [Finset.erase_eq_of_notMem ht, hIdle t ht]
    simp [due]

theorem Covered.due_le {pr : Protocol Thread Op σ γ State} {phases : Thread → Phase Op Ret}
    {spent paid : Nat} (hCovered : pr.Covered phases spent paid) (t : Thread) :
    spent + pr.due (phases t) ≤ paid := by
  obtain ⟨callers, hIdle, hSum⟩ := hCovered
  rw [pr.sum_due_split hIdle t] at hSum
  omega

theorem Covered.update {pr : Protocol Thread Op σ γ State} {phases : Thread → Phase Op Ret}
    {spent paid : Nat} (hCovered : pr.Covered phases spent paid) {t : Thread}
    {phase : Phase Op Ret} {spent' more : Nat}
    (hLe : spent' + pr.due phase ≤ spent + pr.due (phases t) + more) :
    pr.Covered (Function.update phases t phase) spent' (paid + more) := by
  obtain ⟨callers, hIdle, hSum⟩ := hCovered
  rw [pr.sum_due_split hIdle t] at hSum
  refine ⟨insert t callers, ?_, ?_⟩
  · intro u hu
    rw [Finset.mem_insert, not_or] at hu
    rw [Function.update_of_ne hu.1]
    exact hIdle u hu.2
  · have hOthers : ∑ u ∈ (insert t callers).erase t, pr.due (Function.update phases t phase u) =
        ∑ u ∈ callers.erase t, pr.due (phases u) := by
      rw [Finset.erase_insert_eq_erase]
      refine Finset.sum_congr rfl ?_
      intro u hu
      rw [Function.update_of_ne (Finset.ne_of_mem_erase hu)]
    rw [← Finset.add_sum_erase _ _ (Finset.mem_insert_self t callers), hOthers,
      Function.update_self]
    omega

/-- A step that the protocol allows is one of the atomic object. -/
theorem Advance.snoc {obj : SeqObject Op Ret State} {events : List (Event Thread Op Ret)}
    {phases : Thread → Phase Op Ret} {t : Thread} {phase : Phase Op Ret} {a a' : State}
    (hAdvance : Advance obj (phases t) a phase a') (hRun : AtomicRun obj events (a, phases)) :
    ∃ e : Event Thread Op Ret, e.label = .internal t ∧
      AtomicRun obj (events ++ [e]) (a', Function.update phases t phase) := by
  generalize hPhase : phases t = before at hAdvance
  cases hAdvance with
  | silent =>
    refine ⟨.internal t, rfl, ?_⟩
    rw [← hPhase, Function.update_eq_self]
    exact hRun.snoc (.internal t)
  | commit op => exact ⟨.commit t op (obj.apply a op).1, rfl, hRun.snoc (.commit hPhase)⟩

/-- The state of a run beside the state of the atomic object after the same
steps: all that is known after `paid` has been paid. -/
structure Simulates (pr : Protocol Thread Op σ γ State) (obj : SeqObject Op Ret State)
    (c : Config Thread σ Ret) (g : γ) (phases : Thread → Phase Op Ret)
    (events : List (Event Thread Op Ret)) (paid : Nat) : Prop where
  run : AtomicRun obj events (pr.abs g, phases)
  inv : pr.inv c.shared g
  threads : ∀ t, pr.Follows obj c.shared g t (phases t) (c.running t)
  covered : pr.Covered phases (pr.spent c.shared g) paid

section Run

variable [DecidableEq Ret] {pr : Protocol Thread Op σ γ State} {obj : SeqObject Op Ret State}
  {body : Op → Prog σ Ret}

/-- Every operation can be started whenever the invariant holds. -/
def Implements (pr : Protocol Thread Op σ γ State) (obj : SeqObject Op Ret State)
    (body : Op → Prog σ Ret) : Prop :=
  ∀ t op, pr.Safe obj t (body op) (.pending op) fun _ _ => True

/-- The operations that the threads are allowed to call can be started whenever
the invariant holds. -/
def ImplementsOn (pr : Protocol Thread Op σ γ State) (obj : SeqObject Op Ret State)
    (body : Op → Prog σ Ret) (allowed : Thread → Op → Prop) : Prop :=
  ∀ t op, allowed t op → pr.Safe obj t (body op) (.pending op) fun _ _ => True

omit [DecidableEq Thread] [DecidableEq Ret] in
theorem Implements.on (hImpl : pr.Implements obj body) :
    pr.ImplementsOn obj body fun _ _ => True :=
  fun t op _ => hImpl t op

omit [DecidableEq Ret] in
theorem Simulates.call {c : Config Thread σ Ret} {g : γ} {phases : Thread → Phase Op Ret}
    {events : List (Event Thread Op Ret)} {paid : Nat} {t : Thread} {op : Op}
    (hBody : pr.Safe obj t (body op) (.pending op) fun _ _ => True)
    (hSim : pr.Simulates obj c g phases events paid) (hNone : c.running t = none) :
    pr.Simulates obj ⟨c.shared, Function.update c.running t (some (body op))⟩ g
      (Function.update phases t (.pending op)) (events ++ [.call t op]) (paid + pr.weight op) := by
  have hIdle := hSim.threads t
  simp only [hNone, Follows] at hIdle
  refine ⟨hSim.run.snoc (.call op hIdle), hSim.inv, ?_, ?_⟩
  · exact update_related (R := pr.Follows obj c.shared g) ⟨_, trivial, hBody⟩
      fun u _ => hSim.threads u
  · refine hSim.covered.update ?_
    simp only [due]
    omega

omit [DecidableEq Ret] in
theorem Simulates.ret {c : Config Thread σ Ret} {g : γ} {phases : Thread → Phase Op Ret}
    {events : List (Event Thread Op Ret)} {paid : Nat}
    (hSim : pr.Simulates obj c g phases events paid)
    {t : Thread} {r : Ret} (hRet : c.running t = some (.ret r)) :
    pr.Simulates obj ⟨c.shared, Function.update c.running t none⟩ g
      (Function.update phases t .idle) (events ++ [.ret t r]) (paid + 0) := by
  have hSafe := hSim.threads t
  simp only [hRet, Follows, Safe] at hSafe
  obtain ⟨_, _, op, hDone⟩ := hSafe
  refine ⟨hSim.run.snoc (.ret hDone), hSim.inv, ?_, ?_⟩
  · exact update_related (R := pr.Follows obj c.shared g) rfl fun u _ => hSim.threads u
  · refine hSim.covered.update ?_
    simp only [due]
    omega

omit [DecidableEq Ret] in
theorem Simulates.internal {c : Config Thread σ Ret} {g : γ} {phases : Thread → Phase Op Ret}
    {events : List (Event Thread Op Ret)} {paid : Nat} (hBudget : paid ≤ pr.budget)
    (hSim : pr.Simulates obj c g phases events paid) {t : Thread} {p p' : Prog σ Ret} {s' : σ}
    (hSome : c.running t = some p) (hProg : p.step c.shared = some (s', p')) :
    ∃ g' phases' e, e.label = (.internal t : Label Thread Op Ret) ∧
      pr.Simulates obj ⟨s', Function.update c.running t (some p')⟩ g' phases' (events ++ [e])
        (paid + 0) := by
  have hSafe := hSim.threads t
  simp only [hSome, Follows] at hSafe
  obtain ⟨P, hP, hSafe⟩ := hSafe
  obtain ⟨g', phase', P', hOk, hP', hSafe'⟩ := hSafe.step hSim.inv
    ((hSim.covered.due_le t).trans hBudget) hP hProg
  have hThreads : ∀ u, pr.Follows obj s' g' u (Function.update phases t phase' u)
      (Function.update c.running t (some p') u) := by
    refine update_related (R := pr.Follows obj s' g') ⟨P', hP', hSafe'⟩ ?_
    intro u hu
    exact (hSim.threads u).interfere hSim.inv (hOk.rely u hu)
  have hCovered : pr.Covered (Function.update phases t phase') (pr.spent s' g') (paid + 0) :=
    hSim.covered.update hOk.spent
  obtain ⟨e, hLabel, hRun⟩ := hOk.advance.snoc hSim.run
  exact ⟨g', _, e, hLabel, hRun, hOk.inv, hThreads, hCovered⟩

theorem Simulates.step {c c' : Config Thread σ Ret} {g : γ} {phases : Thread → Phase Op Ret}
    {events : List (Event Thread Op Ret)} {paid : Nat} {allowed : Thread → Op → Prop}
    (hImpl : pr.ImplementsOn obj body allowed) (hBudget : paid ≤ pr.budget)
    (hSim : pr.Simulates obj c g phases events paid) {l : Label Thread Op Ret}
    (hAllowed : ∀ t op, l = .call t op → allowed t op) (hStep : c.step body l = some c') :
    ∃ g' phases' e, e.label = l ∧
      pr.Simulates obj c' g' phases' (events ++ [e]) (paid + pr.payment l) := by
  rcases Config.step_cases hStep with ⟨t, op, rfl, hNone, rfl⟩ | ⟨t, r, rfl, hRet, rfl⟩ |
    ⟨t, p, s', p', rfl, hSome, hProg, rfl⟩
  · exact ⟨g, _, .call t op, rfl, hSim.call (hImpl t op (hAllowed t op rfl)) hNone⟩
  · exact ⟨g, _, .ret t r, rfl, hSim.ret hRet⟩
  · exact hSim.internal hBudget hSome hProg

/-- Every run of programs that keep to the protocol can be followed by the atomic object. -/
theorem ImplementsOn.simulates {s : σ} {g : γ} {allowed : Thread → Op → Prop}
    (hImpl : pr.ImplementsOn obj body allowed)
    (hInv : pr.inv s g) (hAbs : pr.abs g = obj.init) (hSpent : pr.spent s g = 0)
    (labels : List (Label Thread Op Ret)) {c : Config Thread σ Ret}
    (hAllowed : ∀ t op, .call t op ∈ labels → allowed t op)
    (hRun : (Config.start s).run body labels = some c)
    (hBudget : (labels.map pr.payment).sum ≤ pr.budget) :
    ∃ g' phases events, events.map Event.label = labels ∧
      pr.Simulates obj c g' phases events (labels.map pr.payment).sum := by
  induction labels using List.reverseRecOn generalizing c with
  | nil =>
    obtain rfl : Config.start s = c := Option.some.inj hRun
    refine ⟨g, fun _ => .idle, [], rfl, ?_, hInv, fun _ => rfl, ∅, fun _ _ => rfl, ?_⟩
    · rw [hAbs]
      exact .start
    · simp [Config.start, hSpent]
  | append_singleton labels l ih =>
    obtain ⟨c₁, hBefore, hStep⟩ := Config.run_snoc hRun
    simp only [List.map_append, List.map_cons, List.map_nil, List.sum_append, List.sum_cons,
      List.sum_nil, Nat.add_zero] at hBudget ⊢
    obtain ⟨g₁, phases₁, events, hLabels, hSim⟩ :=
      ih (fun t op hMem => hAllowed t op (List.mem_append_left _ hMem)) hBefore (by omega)
    obtain ⟨g', phases, e, hLabel, hSim'⟩ := hSim.step hImpl (by omega)
      (fun t op hLast => hAllowed t op (by simp [hLast])) hStep
    exact ⟨g', phases, events ++ [e], by simp [hLabels, hLabel], hSim'⟩

/-- Programs that keep to the protocol are linearizable: every interleaving has
its instants. The invariant holds of the state reached, the object's state is
that of the calls so far, and no assertion has failed. -/
theorem ImplementsOn.linearizes {s : σ} {g : γ} {allowed : Thread → Op → Prop}
    (hImpl : pr.ImplementsOn obj body allowed)
    (hInv : pr.inv s g) (hAbs : pr.abs g = obj.init) (hSpent : pr.spent s g = 0)
    (labels : List (Label Thread Op Ret)) {c : Config Thread σ Ret}
    (hAllowed : ∀ t op, .call t op ∈ labels → allowed t op)
    (hRun : (Config.start s).run body labels = some c)
    (hBudget : (labels.map pr.payment).sum ≤ pr.budget) :
    ∃ g' events, Linearizes obj labels events ∧ pr.inv c.shared g' ∧
      pr.abs g' = obj.final obj.init (commits events) ∧ ∀ t, c.running t ≠ some .abort := by
  obtain ⟨g', phases, events, hLabels, hSim⟩ :=
    hImpl.simulates hInv hAbs hSpent labels hAllowed hRun hBudget
  refine ⟨g', events, ?_, hSim.inv, hSim.run.legal_final.2.symm, ?_⟩
  · rw [← hLabels]
    exact hSim.run.linearizes
  · intro t ht
    have hSafe := hSim.threads t
    simp only [ht, Follows, Safe, and_false, exists_false] at hSafe

end Run

end Concurrent.Protocol
