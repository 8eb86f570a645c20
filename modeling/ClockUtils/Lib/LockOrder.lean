import Mathlib.Data.List.Basic
import ClockUtils.Lib.SequentialProgram

namespace Concurrent

/-- Locks that are flags of the shared state: who wants several of them takes them
in the order of their ranks. A standing lock is one that a thread has for good and
nobody takes, such as the role of the only consumer. `data` is what only the holder
of a lock may change, and `inv` holds of every state. -/
structure Locking (σ L D : Type) where
  held : σ → L → Bool
  rank : L → Nat
  standing : L → Prop
  data : L → σ → D
  inv : σ → Prop

namespace Locking

variable {σ L D α : Type} (lk : Locking σ L D)

/-- What the holder of these locks knows is not changed by others. -/
def Stable (own : List L) (K : σ → Prop) : Prop :=
  ∀ s s', lk.inv s → lk.inv s' → (∀ l ∈ own, lk.data l s' = lk.data l s) → K s → K s'

/-- A step of a thread with the locks `own`, which keeps the locks `own'`. -/
structure Keeps (own own' : List L) (f : σ → σ) : Prop where
  inv : ∀ s, lk.inv s → lk.inv (f s)
  data : ∀ s, lk.inv s → ∀ l, l ∉ own → lk.data l (f s) = lk.data l s
  others : ∀ s, lk.inv s → ∀ l, l ∉ own → lk.held (f s) l = lk.held s l
  mine : ∀ s, lk.inv s → ∀ l ∈ own, lk.held s l = true → (lk.held (f s) l = true ↔ l ∈ own')
  sub : ∀ l ∈ own', l ∈ own

/-- A step that takes a lock. -/
structure Takes (l : L) (guard : σ → Bool) (f : σ → σ) : Prop where
  standing : ¬ lk.standing l
  inv : ∀ s, lk.inv s → lk.inv (f s)
  data : ∀ s l', lk.data l' (f s) = lk.data l' s
  guard : ∀ s, guard s = !lk.held s l
  others : ∀ s l', l' ≠ l → lk.held (f s) l' = lk.held s l'
  mine : ∀ s, lk.held (f s) l = true

/-- The program of a thread that has the locks `own` and knows `K`: it takes locks
in order, changes what they protect only under them, ends with the locks `base`
that it has begun with, and no assertion of it fails. -/
def Bracketed (base : List L) : List L → (σ → Prop) → Prog σ α → Prop
  | own, _, .ret _ => own = base
  | _, _, .abort => False
  | own, K, .atomic f k => lk.Stable own K ∧ ∃ own', lk.Keeps own own' f ∧
      ∀ s, lk.inv s → (∀ l ∈ own, lk.held s l = true) → K s →
        ∃ K' : σ → Prop, K' (f s) ∧ Bracketed base own' K' (k s)
  | own, K, .spin guard f k => lk.Stable own K ∧ ∃ l, (∀ l' ∈ own, lk.rank l' < lk.rank l) ∧
      lk.Takes l guard f ∧ ∃ K' : σ → Prop, (∀ s, lk.inv s → K s → K' (f s)) ∧
        Bracketed base (l :: own) K' k

variable {lk} {base : List L}

theorem Bracketed.stable {own : List L} {K : σ → Prop} {p : Prog σ α}
    (h : lk.Bracketed base own K p) {s s' : σ} (hInv : lk.inv s) (hInv' : lk.inv s')
    (hData : ∀ l ∈ own, lk.data l s' = lk.data l s) (hK : K s) :
    ∃ K' : σ → Prop, K' s' ∧ lk.Bracketed base own K' p := by
  cases p with
  | ret a => exact ⟨fun _ => True, trivial, h⟩
  | abort => exact h.elim
  | atomic f k => exact ⟨K, h.1 s s' hInv hInv' hData hK, h⟩
  | spin guard f k => exact ⟨K, h.1 s s' hInv hInv' hData hK, h⟩

theorem stable_true (own : List L) : lk.Stable own fun _ => True :=
  fun _ _ _ _ _ _ => trivial

/-- A step that does not touch the locks. -/
theorem Keeps.of_held {own : List L} {f : σ → σ} (hInv : ∀ s, lk.inv s → lk.inv (f s))
    (hData : ∀ s, lk.inv s → ∀ l, l ∉ own → lk.data l (f s) = lk.data l s)
    (hHeld : ∀ s l, lk.held (f s) l = lk.held s l) : lk.Keeps own own f where
  inv := hInv
  data := hData
  others := fun s _ l _ => hHeld s l
  mine := fun s _ l hl hMine => ⟨fun _ => hl, fun _ => (hHeld s l).trans hMine⟩
  sub := fun _ hl => hl

/-- A step that gives back the lock taken last. -/
theorem Keeps.of_release {own : List L} {l : L} (hl : l ∉ own) {f : σ → σ}
    (hInv : ∀ s, lk.inv s → lk.inv (f s)) (hData : ∀ s l', lk.data l' (f s) = lk.data l' s)
    (hHeld : ∀ s l', l' ≠ l → lk.held (f s) l' = lk.held s l') (hFree : ∀ s, lk.held (f s) l = false) :
    lk.Keeps (l :: own) own f where
  inv := hInv
  data := fun s _ l' _ => hData s l'
  others := fun s _ l' hl' => hHeld s l' fun hEq => hl' (hEq ▸ List.mem_cons_self)
  mine := by
    intro s _ l' hl' hMine
    by_cases hEq : l' = l
    · subst hEq
      simp [hFree, hl]
    · rw [hHeld s l' hEq]
      exact ⟨fun _ => (List.mem_cons.mp hl').resolve_left hEq, fun _ => hMine⟩
  sub := fun _ hl' => List.mem_cons_of_mem l hl'

theorem Bracketed.done {K : σ → Prop} (a : α) : lk.Bracketed base base K (.ret a) :=
  rfl

/-- A read. What it has shown is known as long as nobody else can change it. -/
theorem Bracketed.load {own : List L} {K : σ → Prop} {β : Type} {field : σ → β}
    {k : β → Prog σ α} (hStable : lk.Stable own K)
    (h : ∀ s, lk.inv s → (∀ l ∈ own, lk.held s l = true) → K s →
      ∃ K' : σ → Prop, K' s ∧ lk.Bracketed base own K' (k (field s))) :
    lk.Bracketed base own K (.load field k) :=
  ⟨hStable, own, .of_held (fun _ h => h) (fun _ _ _ _ => rfl) fun _ _ => rfl, h⟩

/-- A change of what the locks protect, or of the locks. -/
theorem Bracketed.modify {own own' : List L} {f : σ → σ} {k : Prog σ α}
    (hKeeps : lk.Keeps own own' f) (h : lk.Bracketed base own' (fun _ => True) k) {K : σ → Prop}
    (hStable : lk.Stable own K) : lk.Bracketed base own K (.modify f k) :=
  ⟨hStable, own', hKeeps, fun _ _ _ _ => ⟨fun _ => True, trivial, h⟩⟩

/-- A lock above all others that the thread has. -/
theorem Bracketed.lock {own : List L} {l : L} {guard : σ → Bool} {f : σ → σ} {k : Prog σ α}
    (hRank : ∀ l' ∈ own, lk.rank l' < lk.rank l) (hTakes : lk.Takes l guard f)
    (h : lk.Bracketed base (l :: own) (fun _ => True) k) :
    lk.Bracketed base own (fun _ => True) (.spin guard f k) :=
  ⟨stable_true own, l, hRank, hTakes, fun _ => True, fun _ _ _ => trivial, h⟩

theorem Bracketed.map {β : Type} (g : α → β) {own : List L} {K : σ → Prop} {p : Prog σ α}
    (h : lk.Bracketed base own K p) : lk.Bracketed base own K (p.map g) := by
  induction p generalizing own K with
  | ret a => exact h
  | abort => exact h.elim
  | atomic f k ih =>
    obtain ⟨hStable, own', hKeeps, hRest⟩ := h
    refine ⟨hStable, own', hKeeps, fun s hInv hHeld hK => ?_⟩
    obtain ⟨K', hK', hRest⟩ := hRest s hInv hHeld hK
    exact ⟨K', hK', ih s hRest⟩
  | spin guard f k ih =>
    obtain ⟨hStable, l, hRank, hTakes, K', hK', hRest⟩ := h
    exact ⟨hStable, l, hRank, hTakes, K', hK', ih hRest⟩

variable (lk) in
/-- A thread in a state: between its calls it has the locks `base`. -/
def Follows (base : List L) (s : σ) (own : List L) : Option (Prog σ α) → Prop
  | none => own = base
  | some p => ∃ K : σ → Prop, K s ∧ lk.Bracketed base own K p

theorem Follows.stable {own : List L} {p : Option (Prog σ α)} {s s' : σ}
    (h : lk.Follows base s own p) (hInv : lk.inv s) (hInv' : lk.inv s')
    (hData : ∀ l ∈ own, lk.data l s' = lk.data l s) : lk.Follows base s' own p := by
  cases p with
  | none => exact h
  | some p =>
    obtain ⟨K, hK, hp⟩ := h
    exact hp.stable hInv hInv' hData hK

end Locking

section Discipline

variable {Thread Op Ret σ L D : Type} {lk : Locking σ L D} {body : Op → Prog σ Ret}
  {s : σ} {running : Thread → Option (Prog σ Ret)} {base own : Thread → List L}

/-- Every lock that is held is one of the locks of one thread, and every thread
keeps to the order. -/
structure Disciplined (lk : Locking σ L D) (base : Thread → List L) (c : Config Thread σ Ret)
    (own : Thread → List L) : Prop where
  inv : lk.inv c.shared
  follows : ∀ t, lk.Follows (base t) c.shared (own t) (c.running t)
  held : ∀ t, ∀ l ∈ own t, lk.held c.shared l = true
  owner : ∀ l, lk.held c.shared l = true → ∃ t, l ∈ own t
  unique : ∀ t u l, l ∈ own t → l ∈ own u → t = u

/-- At first the threads have their standing locks, and no other lock is held. -/
structure Starts (lk : Locking σ L D) (base : Thread → List L) (s : σ) : Prop where
  inv : lk.inv s
  standing : ∀ t, ∀ l ∈ base t, lk.standing l ∧ lk.held s l = true
  owner : ∀ l, lk.held s l = true → ∃ t, l ∈ base t
  unique : ∀ t u l, l ∈ base t → l ∈ base u → t = u

theorem disciplined_start (h : Starts lk base s) :
    Disciplined lk base (Config.start s : Config Thread σ Ret) base where
  inv := h.inv
  follows := fun _ => rfl
  held := fun t l hl => (h.standing t l hl).2
  owner := h.owner
  unique := h.unique

/-- A thread that tests a lock waits for one above all that it has. -/
theorem Disciplined.guard {c : Config Thread σ Ret} (h : Disciplined lk base c own) {t : Thread}
    {guard : σ → Bool} {f : σ → σ} {k : Prog σ Ret} (hp : c.running t = some (.spin guard f k)) :
    ∃ l, ¬ lk.standing l ∧ (∀ l' ∈ own t, lk.rank l' < lk.rank l) ∧
      ∀ s, guard s = !lk.held s l := by
  have hOwn := h.follows t
  rw [hp] at hOwn
  obtain ⟨K, -, -, l, hRank, hTakes, -⟩ := hOwn
  exact ⟨l, hTakes.standing, hRank, hTakes.guard⟩

variable [DecidableEq Thread]

/-- A thread begins or ends a call. -/
theorem Disciplined.setIdle (h : Disciplined lk base ⟨s, running⟩ own) {t : Thread}
    {p : Option (Prog σ Ret)} (hOwn : own t = base t)
    (hp : ∀ p₁ ∈ p, lk.Bracketed (base t) (base t) (fun _ => True) p₁) :
    Disciplined lk base ⟨s, Function.update running t p⟩ own := by
  have hFollows : lk.Follows (base t) s (own t) p := by
    rw [hOwn]
    cases p with
    | none => rfl
    | some p₁ => exact ⟨fun _ => True, trivial, hp p₁ rfl⟩
  refine { h with follows := fun u => ?_ }
  have hUpdate := update_related (R := fun u => lk.Follows (base u) s) (i := t) hFollows
    (fun u _ => h.follows u) u
  rwa [Function.update_eq_self] at hUpdate

/-- A step of a thread that changes what its locks protect, and gives some back. -/
theorem Disciplined.keep (h : Disciplined lk base ⟨s, running⟩ own) {t : Thread} {f : σ → σ}
    {locks : List L} {K : σ → Prop} {p : Prog σ Ret} (hKeeps : lk.Keeps (own t) locks f)
    (hK : K (f s)) (hp : lk.Bracketed (base t) locks K p) :
    Disciplined lk base ⟨f s, Function.update running t (some p)⟩ (Function.update own t locks) := by
  have hInv := hKeeps.inv s h.inv
  have hOther {u : Thread} (hu : u ≠ t) {l : L} (hl : l ∈ own u) : l ∉ own t :=
    fun hMine => hu (h.unique u t l hl hMine)
  have hSub : ∀ u l, l ∈ Function.update own t locks u → l ∈ own u := by
    intro u l hl
    by_cases hut : u = t
    · subst hut
      rw [Function.update_self] at hl
      exact hKeeps.sub l hl
    · rwa [Function.update_of_ne hut] at hl
  refine ⟨hInv, fun u => ?_, fun u l hl => ?_, fun l hl => ?_, ?_⟩
  · have hOwn : lk.Follows (base t) (f s) locks (some p) := ⟨K, hK, hp⟩
    refine update_related (R := fun u => lk.Follows (base u) (f s)) hOwn (fun u hut => ?_) u
    exact (h.follows u).stable h.inv hInv fun l hl => hKeeps.data s h.inv l (hOther hut hl)
  · by_cases hut : u = t
    · subst hut
      rw [Function.update_self] at hl
      have hMine := hKeeps.sub l hl
      exact (hKeeps.mine s h.inv l hMine (h.held u l hMine)).mpr hl
    · rw [Function.update_of_ne hut] at hl
      exact (hKeeps.others s h.inv l (hOther hut hl)).trans (h.held u l hl)
  · by_cases hMine : l ∈ own t
    · refine ⟨t, ?_⟩
      rw [Function.update_self]
      exact (hKeeps.mine s h.inv l hMine (h.held t l hMine)).mp hl
    · obtain ⟨u, hu⟩ := h.owner l ((hKeeps.others s h.inv l hMine).symm.trans hl)
      have hut : u ≠ t := by
        rintro rfl
        exact hMine hu
      exact ⟨u, by rwa [Function.update_of_ne hut]⟩
  · exact fun u v l hu hv => h.unique u v l (hSub u l hu) (hSub v l hv)

/-- A thread takes a lock that is free. -/
theorem Disciplined.take (h : Disciplined lk base ⟨s, running⟩ own) {t : Thread} {l : L}
    {guard : σ → Bool} {f : σ → σ} {K : σ → Prop} {p : Prog σ Ret} (hTakes : lk.Takes l guard f)
    (hFree : lk.held s l = false) (hK : K (f s)) (hp : lk.Bracketed (base t) (l :: own t) K p) :
    Disciplined lk base ⟨f s, Function.update running t (some p)⟩
      (Function.update own t (l :: own t)) := by
  have hInv := hTakes.inv s h.inv
  have hNone (u : Thread) : l ∉ own u := fun hl =>
    absurd ((h.held u l hl).symm.trans hFree) (by simp)
  have hOwn (u : Thread) (l' : L) :
      l' ∈ Function.update own t (l :: own t) u ↔ (u = t ∧ l' = l) ∨ l' ∈ own u := by
    by_cases hut : u = t
    · subst hut
      simp
    · simp [hut]
  refine ⟨hInv, fun u => ?_, fun u l' hl => ?_, fun l' hl => ?_, fun u v l' hu hv => ?_⟩
  · have hOwn : lk.Follows (base t) (f s) (l :: own t) (some p) := ⟨K, hK, hp⟩
    refine update_related (R := fun u => lk.Follows (base u) (f s)) hOwn (fun u _ => ?_) u
    exact (h.follows u).stable h.inv hInv fun l' _ => hTakes.data s l'
  · rcases (hOwn u l').mp hl with ⟨-, rfl⟩ | hl
    · exact hTakes.mine s
    · have hNe : l' ≠ l := fun hEq => hNone u (hEq ▸ hl)
      exact (hTakes.others s l' hNe).trans (h.held u l' hl)
  · by_cases hNe : l' = l
    · exact ⟨t, (hOwn t l').mpr (.inl ⟨rfl, hNe⟩)⟩
    · obtain ⟨u, hu⟩ := h.owner l' ((hTakes.others s l' hNe).symm.trans hl)
      exact ⟨u, (hOwn u l').mpr (.inr hu)⟩
  · rcases (hOwn u l').mp hu with ⟨rfl, rfl⟩ | hMine
    · rcases (hOwn v l').mp hv with ⟨rfl, -⟩ | hMine
      · rfl
      · exact absurd hMine (hNone v)
    · rcases (hOwn v l').mp hv with ⟨rfl, rfl⟩ | hOther
      · exact absurd hMine (hNone u)
      · exact h.unique u v l' hMine hOther

variable [DecidableEq Ret] {c c' : Config Thread σ Ret}

/-- Every step keeps to the discipline. -/
theorem Disciplined.step (h : Disciplined lk base c own) {l : Label Thread Op Ret}
    (hBody : ∀ t op, l = .call t op → lk.Bracketed (base t) (base t) (fun _ => True) (body op))
    (hStep : c.step body l = some c') :
    ∃ own', Disciplined lk base c' own' := by
  have hFollows := h.follows
  rcases Config.step_cases hStep with ⟨t, op, rfl, hIdle, rfl⟩ | ⟨t, r, rfl, hRet, rfl⟩ |
    ⟨t, p, s, p', rfl, hp, hNext, rfl⟩
  · have hOwn := hFollows t
    rw [hIdle] at hOwn
    refine ⟨own, h.setIdle hOwn fun p hp => ?_⟩
    obtain rfl := Option.some.inj hp
    exact hBody t op rfl
  · have hOwn := hFollows t
    rw [hRet] at hOwn
    obtain ⟨K, -, hOwn⟩ := hOwn
    exact ⟨own, h.setIdle hOwn fun p hp => by cases hp⟩
  · have hOwn := hFollows t
    rw [hp] at hOwn
    obtain ⟨K, hK, hBracketed⟩ := hOwn
    cases p with
    | ret a => cases hNext
    | abort => cases hNext
    | atomic f k =>
      cases hNext
      obtain ⟨-, locks, hKeeps, hRest⟩ := hBracketed
      obtain ⟨K', hK', hRest⟩ := hRest c.shared h.inv (h.held t) hK
      exact ⟨_, h.keep hKeeps hK' hRest⟩
    | spin guard f k =>
      obtain ⟨-, l, -, hTakes, K', hK', hRest⟩ := id hBracketed
      rcases Prog.step_spin hNext with ⟨hGuard, rfl, rfl⟩ | ⟨rfl, rfl⟩
      · have hFree : lk.held c.shared l = false := by simpa [hTakes.guard] using hGuard
        exact ⟨_, h.take hTakes hFree (hK' c.shared h.inv hK) hRest⟩
      · refine ⟨own, ?_⟩
        rw [← hp, Function.update_eq_self]
        exact h

/-- Steps of threads inside of their calls. -/
def Internal (labels : List (Label Thread Op Ret)) : Prop :=
  ∀ l ∈ labels, ∃ t, l = .internal t

/-- A thread whose next step is no test of a lock takes it. -/
theorem Disciplined.atomic (body : Op → Prog σ Ret) (h : Disciplined lk base c own) {t : Thread}
    {f : σ → σ} {k : σ → Prog σ Ret} (hp : c.running t = some (.atomic f k)) :
    ∃ locks, (∀ l ∈ own t, l ∉ locks → lk.held (f c.shared) l = false) ∧
      c.step body (.internal t) =
        some ⟨f c.shared, Function.update c.running t (some (k c.shared))⟩ ∧
      Disciplined lk base ⟨f c.shared, Function.update c.running t (some (k c.shared))⟩
        (Function.update own t locks) := by
  have hOwn := h.follows t
  rw [hp] at hOwn
  obtain ⟨K, hK, -, locks, hKeeps, hRest⟩ := hOwn
  obtain ⟨K', hK', hRest⟩ := hRest c.shared h.inv (h.held t) hK
  refine ⟨locks, fun l hl hNot => ?_, by simp [Config.step, hp, Prog.step], ?_⟩
  · rw [Bool.eq_false_iff]
    exact fun hHeld => hNot ((hKeeps.mine c.shared h.inv l hl (h.held t l hl)).mp hHeld)
  · exact h.keep hKeeps hK' hRest

/-- A thread that tests a free lock takes it. -/
theorem Disciplined.acquire (body : Op → Prog σ Ret) (h : Disciplined lk base c own) {t : Thread}
    {guard : σ → Bool} {f : σ → σ} {k : Prog σ Ret} (hp : c.running t = some (.spin guard f k))
    (hGuard : guard c.shared = true) :
    ∃ l, c.step body (.internal t) = some ⟨f c.shared, Function.update c.running t (some k)⟩ ∧
      Disciplined lk base ⟨f c.shared, Function.update c.running t (some k)⟩
        (Function.update own t (l :: own t)) := by
  have hOwn := h.follows t
  rw [hp] at hOwn
  obtain ⟨K, hK, -, l, -, hTakes, K', hK', hRest⟩ := hOwn
  have hFree : lk.held c.shared l = false := by simpa [hTakes.guard] using hGuard
  exact ⟨l, by simp [Config.step, hp, Prog.step, hGuard],
    h.take hTakes hFree (hK' c.shared h.inv hK) hRest⟩

/-- Steps that end in a state with this property, and that leave alone the threads
whose locks all have ranks below `n`. -/
def Reaches (lk : Locking σ L D) (base : Thread → List L) (body : Op → Prog σ Ret) (n : Nat)
    (c : Config Thread σ Ret) (own : Thread → List L) (P : Config Thread σ Ret → Prop) : Prop :=
  ∃ (labels : List (Label Thread Op Ret)) (c' : Config Thread σ Ret) (own' : Thread → List L),
    Internal labels ∧ c.run body labels = some c' ∧ Disciplined lk base c' own' ∧ P c' ∧
      ∀ t, (∀ l ∈ own t, lk.rank l < n) → c'.running t = c.running t ∧ own' t = own t

theorem Reaches.now {n : Nat} {P : Config Thread σ Ret → Prop} (h : Disciplined lk base c own)
    (hP : P c) : Reaches lk base body n c own P :=
  ⟨[], c, own, fun l hl => (by cases hl), rfl, h, hP, fun _ _ => ⟨rfl, rfl⟩⟩

/-- One step of a thread, which is not among those that are left alone. -/
theorem Reaches.step {n : Nat} {P : Config Thread σ Ret → Prop} {t : Thread} {s : σ}
    {p : Prog σ Ret} (locks : List L)
    (hStep : c.step body (.internal t) = some ⟨s, Function.update c.running t (some p)⟩)
    (hTall : ∃ l ∈ own t, n ≤ lk.rank l)
    (h : Reaches lk base body n ⟨s, Function.update c.running t (some p)⟩
      (Function.update own t locks) P) :
    Reaches lk base body n c own P := by
  obtain ⟨labels, c', own', hInternal, hRun, hEnd, hP, hFrame⟩ := h
  refine ⟨.internal t :: labels, c', own', ?_, ?_, hEnd, hP, fun u hu => ?_⟩
  · exact List.forall_mem_cons.mpr ⟨⟨t, rfl⟩, hInternal⟩
  · rw [Config.run_cons, hStep]
    exact hRun
  · have hut : u ≠ t := by
      rintro rfl
      obtain ⟨l, hl, hLe⟩ := hTall
      have hLt := hu l hl
      omega
    have hSame := hFrame u
    simp only [Function.update_of_ne hut] at hSame
    exact hSame hu

/-- First the steps to one property, then those to another. -/
theorem Reaches.trans {n m : Nat} {P Q : Config Thread σ Ret → Prop} (hLe : n ≤ m)
    (h : Reaches lk base body m c own P)
    (hNext : ∀ c' own', Disciplined lk base c' own' → P c' →
      (∀ t, (∀ l ∈ own t, lk.rank l < m) → c'.running t = c.running t ∧ own' t = own t) →
      Reaches lk base body n c' own' Q) :
    Reaches lk base body n c own Q := by
  obtain ⟨labels, c', own', hInternal, hRun, hMiddle, hP, hFrame⟩ := h
  obtain ⟨more, c'', own'', hInternal', hRun', hEnd, hQ, hFrame'⟩ := hNext c' own' hMiddle hP hFrame
  refine ⟨labels ++ more, c'', own'', ?_, ?_, hEnd, hQ, fun t ht => ?_⟩
  · exact List.forall_mem_append.mpr ⟨hInternal, hInternal'⟩
  · rw [Config.run_append, hRun]
    exact hRun'
  · have hSame := hFrame t fun l hl => Nat.lt_of_lt_of_le (ht l hl) hLe
    have hSame' := hFrame' t (by rw [hSame.2]; exact ht)
    exact ⟨hSame'.1.trans hSame.1, hSame'.2.trans hSame.2⟩

/-- The holder of a lock gives it back: what it waits for before has a higher rank, and is
given back first. The induction is on the ranks from above, and then on what the holder has
still to do. -/
theorem exists_release (body : Op → Prog σ Ret) {top : Nat} (hTop : ∀ l, lk.rank l ≤ top)
    (hBase : ∀ t, ∀ l ∈ base t, lk.standing l) {l : L} {t : Thread}
    (h : Disciplined lk base c own) (hl : l ∈ own t) (hTaken : ¬ lk.standing l) :
    Reaches lk base body (lk.rank l) c own fun c' => lk.held c'.shared l = false := by
  induction hGap : top - lk.rank l using Nat.strongRecOn generalizing c own l t with
  | _ gap ihRank =>
    have hRunning : ∃ p, c.running t = some p := by
      cases hp : c.running t with
      | some p => exact ⟨p, rfl⟩
      | none =>
        have hOwn := h.follows t
        rw [hp] at hOwn
        rw [show own t = base t from hOwn] at hl
        exact absurd (hBase t l hl) hTaken
    obtain ⟨p, hp⟩ := hRunning
    induction p generalizing c own with
    | ret a =>
      have hOwn := h.follows t
      rw [hp] at hOwn
      obtain ⟨K, -, hNil⟩ := hOwn
      rw [show own t = base t from hNil] at hl
      exact absurd (hBase t l hl) hTaken
    | abort =>
      have hOwn := h.follows t
      rw [hp] at hOwn
      obtain ⟨K, -, hFalse⟩ := hOwn
      exact hFalse.elim
    | atomic f k ih =>
      obtain ⟨locks, hGiven, hStep, hNext⟩ := h.atomic body hp
      refine Reaches.step locks hStep ⟨l, hl, Nat.le_refl _⟩ ?_
      by_cases hStill : l ∈ locks
      · exact ih c.shared hNext (by rwa [Function.update_self]) (Function.update_self _ _ _)
      · exact .now hNext (hGiven l hl hStill)
    | spin guard f k ih =>
      obtain ⟨l', hTaken', hRank, hGuard⟩ := h.guard hp
      have hAbove := hRank l hl
      have hTake (c₁ : Config Thread σ Ret) (own₁ : Thread → List L) (h₁ : Disciplined lk base c₁ own₁)
          (hp₁ : c₁.running t = some (.spin guard f k)) (hOwn₁ : own₁ t = own t)
          (hFree : lk.held c₁.shared l' = false) :
          Reaches lk base body (lk.rank l) c₁ own₁ fun c' => lk.held c'.shared l = false := by
        obtain ⟨l'', hStep, hNext⟩ := h₁.acquire body hp₁ (by rw [hGuard, hFree]; rfl)
        refine Reaches.step (l'' :: own₁ t) hStep ⟨l, by rw [hOwn₁]; exact hl, Nat.le_refl _⟩ ?_
        refine ih hNext ?_ (Function.update_self _ _ _)
        rw [Function.update_self, hOwn₁]
        exact List.mem_cons_of_mem l'' hl
      cases hHeld : lk.held c.shared l' with
      | false => exact hTake c own h hp rfl hHeld
      | true =>
        obtain ⟨u, hu⟩ := h.owner l' hHeld
        have hLess : top - lk.rank l' < gap := by
          have := hTop l'
          omega
        refine (ihRank _ hLess h hu hTaken' rfl).trans (Nat.le_of_lt hAbove) ?_
        intro c₁ own₁ h₁ hFree hFrame
        obtain ⟨hp₁, hOwn₁⟩ := hFrame t hRank
        exact hTake c₁ own₁ h₁ (hp₁.trans hp) hOwn₁ hFree

/-- Every call that has begun can be brought to its end, whatever the other threads
have begun. -/
theorem exists_completion (body : Op → Prog σ Ret) {top : Nat} (hTop : ∀ l, lk.rank l ≤ top)
    (hBase : ∀ t, ∀ l ∈ base t, lk.standing l) {t : Thread} {p : Prog σ Ret}
    (h : Disciplined lk base c own) (hp : c.running t = some p) :
    ∃ (labels : List (Label Thread Op Ret)) (c' : Config Thread σ Ret) (r : Ret),
      Internal labels ∧ c.run body labels = some c' ∧ c'.running t = some (.ret r) := by
  induction p generalizing c own with
  | ret a => exact ⟨[], c, a, fun l hl => (by cases hl), rfl, hp⟩
  | abort =>
    have hOwn := h.follows t
    rw [hp] at hOwn
    obtain ⟨K, -, hFalse⟩ := hOwn
    exact hFalse.elim
  | atomic f k ih =>
    obtain ⟨locks, -, hStep, hNext⟩ := h.atomic body hp
    obtain ⟨labels, c', r, hInternal, hRun, hEnd⟩ := ih c.shared hNext (Function.update_self _ _ _)
    refine ⟨.internal t :: labels, c', r, List.forall_mem_cons.mpr ⟨⟨t, rfl⟩, hInternal⟩, ?_, hEnd⟩
    rw [Config.run_cons, hStep]
    exact hRun
  | spin guard f k ih =>
    obtain ⟨l, hTaken, hRank, hGuard⟩ := h.guard hp
    obtain ⟨labels, c₁, own₁, hInternal, hRun, h₁, hFree, hp₁⟩ :
        ∃ (labels : List (Label Thread Op Ret)) (c₁ : Config Thread σ Ret)
          (own₁ : Thread → List L), Internal labels ∧ c.run body labels = some c₁ ∧
          Disciplined lk base c₁ own₁ ∧ lk.held c₁.shared l = false ∧
          c₁.running t = some (.spin guard f k) := by
      cases hHeld : lk.held c.shared l with
      | false => exact ⟨[], c, own, fun l hl => (by cases hl), rfl, h, hHeld, hp⟩
      | true =>
        obtain ⟨u, hu⟩ := h.owner l hHeld
        obtain ⟨labels, c₁, own₁, hInternal, hRun, h₁, hFree, hFrame⟩ :=
          exists_release body hTop hBase h hu hTaken
        exact ⟨labels, c₁, own₁, hInternal, hRun, h₁, hFree, (hFrame t hRank).1.trans hp⟩
    obtain ⟨l', hStep, hNext⟩ := h₁.acquire body hp₁ (by rw [hGuard, hFree]; rfl)
    obtain ⟨more, c', r, hInternal', hRun', hEnd⟩ := ih hNext (Function.update_self _ _ _)
    refine ⟨labels ++ .internal t :: more, c', r, ?_, ?_, hEnd⟩
    · exact List.forall_mem_append.mpr
        ⟨hInternal, List.forall_mem_cons.mpr ⟨⟨t, rfl⟩, hInternal'⟩⟩
    · rw [Config.run_append, hRun, Option.bind_some, Config.run_cons, hStep]
      exact hRun'

/-- All states of all runs. -/
theorem disciplined_run {labels : List (Label Thread Op Ret)}
    (hBody : ∀ t op, .call t op ∈ labels →
      lk.Bracketed (base t) (base t) (fun _ => True) (body op))
    (h : Disciplined lk base c own) (hRun : c.run body labels = some c') :
    ∃ own', Disciplined lk base c' own' := by
  induction labels generalizing c own with
  | nil =>
    obtain rfl := Option.some.inj hRun
    exact ⟨own, h⟩
  | cons l labels ih =>
    rw [Config.run_cons, Option.bind_eq_some_iff] at hRun
    obtain ⟨c₁, hFirst, hRun⟩ := hRun
    obtain ⟨own₁, h₁⟩ := h.step (fun t op hl => hBody t op (hl ▸ List.mem_cons_self)) hFirst
    exact ih (fun t op hl => hBody t op (List.mem_cons_of_mem l hl)) h₁ hRun

/-- In every state of every run no assertion has failed, and every call that has
begun can be brought to its end. -/
theorem exists_completion_of_run {labels : List (Label Thread Op Ret)}
    (hBody : ∀ t op, .call t op ∈ labels →
      lk.Bracketed (base t) (base t) (fun _ => True) (body op))
    (top : Nat) (hTop : ∀ l, lk.rank l ≤ top) {s : σ} (hStart : Starts lk base s)
    (hRun : (Config.start s : Config Thread σ Ret).run body labels = some c) {t : Thread}
    {p : Prog σ Ret} (hp : c.running t = some p) :
    p ≠ .abort ∧ ∃ (more : List (Label Thread Op Ret)) (c' : Config Thread σ Ret) (r : Ret),
      Internal more ∧ c.run body more = some c' ∧ c'.running t = some (.ret r) := by
  obtain ⟨own, hOwn⟩ := disciplined_run hBody (disciplined_start hStart) hRun
  have hBase : ∀ t, ∀ l ∈ base t, lk.standing l := fun t l hl => (hStart.standing t l hl).1
  refine ⟨?_, exists_completion body hTop hBase hOwn hp⟩
  rintro rfl
  have hFollows := hOwn.follows t
  rw [hp] at hFollows
  obtain ⟨K, -, hFalse⟩ := hFollows
  exact hFalse

end Discipline

end Concurrent
