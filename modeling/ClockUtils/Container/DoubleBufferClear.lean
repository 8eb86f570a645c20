import Mathlib.Tactic.IntervalCases
import ClockUtils.Container.DoubleBufferNumbered
import ClockUtils.Container.ClearOrder

namespace clockUtils.container.DoubleBufferQueue

open Concurrent
open LockFreeQueue (Call AnyCall Worker uninterrupted startsPush)

/-- The element is pushed in these steps, and its push returns in them. -/
def PushedIn {Thread T : Type} (labels : List (Label Thread (AnyCall T) (Reply T))) (x : T) : Prop :=
  ∃ first t rest r, labels = first ++ .call t (.of (.push x)) :: rest ∧ .ret t r ∈ rest

section Calls

variable {T : Type} {old : T → Prop}

/-- What a call does to the queue when it does not push an old element. -/
inductive Moves (old : T → Prop) (q q' : DoubleBufferQueue T) : Prop
  | keeps (pointer : q'.queueRead = q.queueRead)
      (read : (∃ x ∈ q'.readBuffer, old x) → ∃ x ∈ q.readBuffer, old x)
      (write : (∃ x ∈ q'.writeBuffer, old x) → ∃ x ∈ q.writeBuffer, old x)
  | swaps (pointer : q'.queueRead ≠ q.queueRead) (read : q'.readBuffer = q.writeBuffer)
      (write : q'.writeBuffer = q.readBuffer)

theorem Moves.refl (q : DoubleBufferQueue T) : Moves old q q :=
  .keeps rfl id id

/-- The function does no more than that, and the pointers stay different. -/
def Tame (old : T → Prop) (f : DoubleBufferQueue T → DoubleBufferQueue T) : Prop :=
  ∀ q, q.queueRead ≠ q.queueWrite → (f q).queueRead ≠ (f q).queueWrite ∧ Moves old q (f q)

theorem tame_id : Tame old id :=
  fun q hPointers => ⟨hPointers, .refl q⟩

theorem tame_setReadLock (held : Bool) : Tame old (setReadLock held) :=
  fun _ hPointers => ⟨hPointers, .keeps rfl id id⟩

theorem tame_setWriteLock (held : Bool) : Tame old (setWriteLock held) :=
  fun _ hPointers => ⟨hPointers, .keeps rfl id id⟩

/-- A buffer gets fewer old elements. -/
theorem tame_setBuffer {f : DoubleBufferQueue T → DoubleBufferQueue T}
    {b : DoubleBufferQueue T → Buffer} {xs : DoubleBufferQueue T → List T}
    (hf : ∀ q, f q = q.setBuffer (b q) (xs q)) (hxs : ∀ q, ∀ x ∈ xs q, old x → x ∈ q.buffer (b q)) :
    Tame old f := by
  intro q hPointers
  have hBuffer : ∀ c, (∃ x ∈ (f q).buffer c, old x) → ∃ x ∈ q.buffer c, old x := by
    rintro c ⟨x, hx, hOld⟩
    rw [hf, buffer_setBuffer] at hx
    split at hx
    · next hb =>
      subst hb
      exact ⟨x, hxs q x hx hOld, hOld⟩
    · exact ⟨x, hx, hOld⟩
  have hRead : (f q).queueRead = q.queueRead := by rw [hf, queueRead_setBuffer]
  have hWrite : (f q).queueWrite = q.queueWrite := by rw [hf, queueWrite_setBuffer]
  refine ⟨by rwa [hRead, hWrite], .keeps hRead ?_ ?_⟩
  · rw [readBuffer, hRead]
    exact hBuffer q.queueRead
  · rw [writeBuffer, hWrite]
    exact hBuffer q.queueWrite

theorem tame_pushBack {value : T} (hValue : ¬ old value) : Tame old (pushBack value) := by
  refine tame_setBuffer (fun q => rfl) fun q x hx hOld => ?_
  rcases List.mem_append.mp hx with hx | hx
  · exact hx
  · rw [List.mem_singleton.mp hx] at hOld
    exact absurd hOld hValue

theorem tame_popFront : Tame old (popFront : DoubleBufferQueue T → DoubleBufferQueue T) :=
  tame_setBuffer (fun _ => rfl) fun _ _ hx _ => List.mem_of_mem_tail hx

theorem tame_emptyRead : Tame old (emptyRead : DoubleBufferQueue T → DoubleBufferQueue T) :=
  tame_setBuffer (fun _ => rfl) fun _ _ hx _ => absurd hx List.not_mem_nil

theorem tame_emptyWrite : Tame old (emptyWrite : DoubleBufferQueue T → DoubleBufferQueue T) :=
  tame_setBuffer (fun _ => rfl) fun _ _ hx _ => absurd hx List.not_mem_nil

theorem queueRead_swapPointers (q : DoubleBufferQueue T) :
    (swapPointers q).queueRead ≠ q.queueRead := by
  unfold swapPointers
  split
  · next hRead => rw [hRead]; simp
  · next hRead => exact Ne.symm hRead

theorem tame_swapPointers : Tame old (swapPointers : DoubleBufferQueue T → DoubleBufferQueue T) :=
  fun q hPointers => ⟨pointers_swapPointers, .swaps (queueRead_swapPointers q)
    (readBuffer_swapPointers hPointers) (writeBuffer_swapPointers hPointers)⟩

theorem all_underWriteLock {f : DoubleBufferQueue T → DoubleBufferQueue T} (hf : Tame old f)
    {k : Prog (DoubleBufferQueue T) (Reply T)} (hk : k.All (Tame old)) :
    (underWriteLock f k).All (Tame old) :=
  ⟨tame_setWriteLock true, hf, fun _ => ⟨tame_setWriteLock false, fun _ => hk⟩⟩

theorem all_overload (consumer : Bool)
    {body : (Reply T → Prog (DoubleBufferQueue T) (Reply T)) → Prog (DoubleBufferQueue T) (Reply T)}
    (hBody : ∀ leave, (∀ reply, (leave reply).All (Tame old)) → (body leave).All (Tame old)) :
    (overload consumer body).All (Tame old) := by
  cases consumer with
  | false => exact hBody _ fun _ => trivial
  | true =>
    exact ⟨tame_setReadLock true, hBody _ fun _ => ⟨tame_setReadLock false, fun _ => trivial⟩⟩

theorem all_ite {test : Bool} {p p' : Prog (DoubleBufferQueue T) (Reply T)}
    (hp : p.All (Tame old)) (hp' : p'.All (Tame old)) : (if test then p else p').All (Tame old) := by
  split
  · exact hp
  · exact hp'

theorem all_readElement {take : Prog (DoubleBufferQueue T) (Reply T)}
    {leave : Reply T → Prog (DoubleBufferQueue T) (Reply T)} (hTake : take.All (Tame old))
    (hLeave : ∀ reply, (leave reply).All (Tame old)) : (readElement take leave).All (Tame old) := by
  have hAgain : (Prog.load (fun q : DoubleBufferQueue T => q.readBuffer.isEmpty) fun empty =>
      if empty then leave ⟨.NO_ELEMENT, none⟩ else take).All (Tame old) :=
    ⟨tame_id, fun _ => all_ite (hLeave _) hTake⟩
  exact ⟨tame_id, fun _ => all_ite (all_underWriteLock tame_swapPointers hAgain) hAgain⟩

theorem all_loadFront {k : T → Prog (DoubleBufferQueue T) (Reply T)}
    (hk : ∀ value, (k value).All (Tame old)) : (loadFront k).All (Tame old) := by
  refine ⟨tame_id, fun q => ?_⟩
  beta_reduce
  cases q.readBuffer.head? with
  | none => trivial
  | some value => exact hk value

theorem all_removeFront {k : Prog (DoubleBufferQueue T) (Reply T)} (hk : k.All (Tame old)) :
    (removeFront k).All (Tame old) :=
  ⟨tame_popFront, fun _ => all_ite trivial hk⟩

theorem all_pop (consumer : Bool) : (pop consumer : Prog (DoubleBufferQueue T) _).All (Tame old) := by
  refine all_overload consumer fun leave hLeave => all_readElement ?_ hLeave
  exact all_removeFront (hLeave _)

theorem all_front (consumer : Bool) :
    (front consumer : Prog (DoubleBufferQueue T) _).All (Tame old) := by
  refine all_overload consumer fun leave hLeave => all_readElement ?_ hLeave
  exact all_loadFront fun value => hLeave _

theorem all_poll (consumer : Bool) :
    (poll consumer : Prog (DoubleBufferQueue T) _).All (Tame old) := by
  refine all_overload consumer fun leave hLeave => all_readElement ?_ hLeave
  exact all_loadFront fun value => all_removeFront (hLeave _)

/-- Only the push of an old element does more. -/
theorem all_anyBody (consumer : Bool) {op : AnyCall T} (hOp : ∀ x, op = .of (.push x) → ¬ old x) :
    (anyBody consumer op).All (Tame old) := by
  cases op with
  | clear =>
    exact ⟨tame_setReadLock true, tame_emptyRead, fun _ => ⟨tame_setReadLock false, fun _ =>
      all_underWriteLock tame_emptyWrite trivial⟩⟩
  | of op =>
    cases op with
    | push value => exact all_underWriteLock (tame_pushBack (hOp value rfl)) trivial
    | pop => exact all_pop consumer
    | front => exact all_front consumer
    | poll => exact all_poll consumer

end Calls

section Stages

variable {Thread T : Type}

theorem readBuffer_emptyRead (q : DoubleBufferQueue T) : (emptyRead q).readBuffer = [] := by
  simp [emptyRead, readBuffer]

theorem writeBuffer_emptyWrite (q : DoubleBufferQueue T) : (emptyWrite q).writeBuffer = [] := by
  simp [emptyWrite, writeBuffer]

theorem readBuffer_emptyWrite {q : DoubleBufferQueue T} (hPointers : q.queueRead ≠ q.queueWrite) :
    (emptyWrite q).readBuffer = q.readBuffer := by
  simp [emptyWrite, readBuffer, Ne.symm hPointers]

/-- What is left of `clear` when it has the write lock. -/
def atWrite : Prog (DoubleBufferQueue T) (Reply T) :=
  .modify emptyWrite <|
  .modify (setWriteLock false) <|
  .ret ⟨.SUCCESS, none⟩

/-- What is left of `clear` when it has left its first critical section. -/
def beforeWrite : Prog (DoubleBufferQueue T) (Reply T) :=
  .spin (fun q => !q.writeLock) (setWriteLock true) atWrite

/-- What is left of `clear` when the read buffer is empty. -/
def afterRead : Prog (DoubleBufferQueue T) (Reply T) :=
  .modify (setReadLock false) beforeWrite

/-- What is left of `clear` when it has the read lock. -/
def atRead : Prog (DoubleBufferQueue T) (Reply T) :=
  .modify emptyRead afterRead

/-- The `clear` has emptied one buffer and not the other. -/
def Between (p : Prog (DoubleBufferQueue T) (Reply T)) : Prop :=
  p = afterRead ∨ p = beforeWrite ∨ p = atWrite

/-- With this step the pointers are exchanged while the `clear` of the thread is
between its buffers and the one that it has still to empty holds an old element. -/
def SwapsAway (old : T → Prop) (t : Thread)
    (c c' : Config Thread (DoubleBufferQueue T) (Reply T)) : Prop :=
  (∃ p, c.running t = some p ∧ Between p) ∧ c'.shared.queueRead ≠ c.shared.queueRead ∧
    ∃ x ∈ c.shared.writeBuffer, old x

/-- How far a `clear` has come: when it is between its buffers, the one that it
has emptied holds no old element again. -/
def Clearing (old : T → Prop) (q : DoubleBufferQueue T)
    (p : Prog (DoubleBufferQueue T) (Reply T)) : Prop :=
  p = clear ∨ p = atRead ∨ (Between p ∧ ¬ ∃ x ∈ q.readBuffer, old x)

def Cleared (old : T → Prop) (q : DoubleBufferQueue T) : Prop :=
  (¬ ∃ x ∈ q.readBuffer, old x) ∧ ¬ ∃ x ∈ q.writeBuffer, old x

/-- The thread is clearing the queue, or no old element is left. -/
def Stage (old : T → Prop) (t : Thread) (c : Config Thread (DoubleBufferQueue T) (Reply T)) : Prop :=
  (∃ p, c.running t = some p ∧ Clearing old c.shared p) ∨ Cleared old c.shared

section Queue

variable {old : T → Prop} {q q' : DoubleBufferQueue T} {p p' : Prog (DoubleBufferQueue T) (Reply T)}

/-- A `clear` that has not emptied both buffers has not ended. -/
theorem Clearing.ne_ret (h : Clearing old q p) (r : Reply T) : p ≠ .ret r := by
  rcases h with rfl | rfl | ⟨rfl | rfl | rfl, -⟩ <;> exact fun hRet => by cases hRet

/-- A step of the thread that clears. -/
theorem Clearing.step (h : Clearing old q p) (hPointers : q.queueRead ≠ q.queueWrite)
    (hNext : p.step q = some (q', p')) : Clearing old q' p' ∨ Cleared old q' := by
  rcases h with rfl | rfl | ⟨rfl | rfl | rfl, hRead⟩
  · rcases Prog.step_spin hNext with ⟨-, rfl, rfl⟩ | ⟨rfl, rfl⟩
    · exact .inl (.inr (.inl rfl))
    · exact .inl (.inl rfl)
  · obtain ⟨rfl, rfl⟩ := Prog.step_modify hNext
    refine .inl (.inr (.inr ⟨.inl rfl, ?_⟩))
    rintro ⟨x, hx, -⟩
    simp [readBuffer_emptyRead] at hx
  · obtain ⟨rfl, rfl⟩ := Prog.step_modify hNext
    exact .inl (.inr (.inr ⟨.inr (.inl rfl), hRead⟩))
  · rcases Prog.step_spin hNext with ⟨-, rfl, rfl⟩ | ⟨rfl, rfl⟩
    · exact .inl (.inr (.inr ⟨.inr (.inr rfl), hRead⟩))
    · exact .inl (.inr (.inr ⟨.inr (.inl rfl), hRead⟩))
  · obtain ⟨rfl, -⟩ := Prog.step_modify hNext
    refine .inr ⟨?_, ?_⟩
    · rwa [readBuffer_emptyWrite hPointers]
    · rintro ⟨x, hx, -⟩
      simp [writeBuffer_emptyWrite] at hx

/-- A step of another thread that does not swap an old element away. -/
theorem Clearing.moves (h : Clearing old q p) (hMoves : Moves old q q')
    (hSwap : Between p → q'.queueRead ≠ q.queueRead → ¬ ∃ x ∈ q.writeBuffer, old x) :
    Clearing old q' p := by
  rcases h with rfl | rfl | ⟨hBetween, hRead⟩
  · exact .inl rfl
  · exact .inr (.inl rfl)
  · refine .inr (.inr ⟨hBetween, ?_⟩)
    cases hMoves with
    | keeps _ hKeeps _ => exact fun hOld => hRead (hKeeps hOld)
    | swaps hPointer hBuffer _ =>
      rw [hBuffer]
      exact hSwap hBetween hPointer

/-- Nothing brings an old element back. -/
theorem Cleared.moves (h : Cleared old q) (hMoves : Moves old q q') : Cleared old q' := by
  obtain ⟨hRead, hWrite⟩ := h
  cases hMoves with
  | keeps _ hKeepsRead hKeepsWrite =>
    exact ⟨fun hOld => hRead (hKeepsRead hOld), fun hOld => hWrite (hKeepsWrite hOld)⟩
  | swaps _ hBufferRead hBufferWrite =>
    exact ⟨by rwa [hBufferRead], by rwa [hBufferWrite]⟩

end Queue

/-- No call that is going on pushes an old element. -/
structure Settled (old : T → Prop) (c : Config Thread (DoubleBufferQueue T) (Reply T)) : Prop where
  pointers : c.shared.queueRead ≠ c.shared.queueWrite
  tame : ∀ t p, c.running t = some p → p.All (Tame old)

variable [DecidableEq Thread] {old : T → Prop}
  {c c' : Config Thread (DoubleBufferQueue T) (Reply T)}

/-- The programs of a configuration after one of them has changed. -/
theorem tame_update (h : ∀ t p, c.running t = some p → p.All (Tame old)) (t : Thread)
    {next : Option (Prog (DoubleBufferQueue T) (Reply T))}
    (hNext : ∀ p, next = some p → p.All (Tame old)) (u : Thread)
    (p : Prog (DoubleBufferQueue T) (Reply T))
    (hp : Function.update c.running t next u = some p) : p.All (Tame old) := by
  by_cases hu : u = t
  · subst hu
    rw [Function.update_self] at hp
    exact hNext p hp
  · rw [Function.update_of_ne hu] at hp
    exact h u p hp

variable [DecidableEq T] {consumer : Bool} {l : Label Thread (AnyCall T) (Reply T)}

theorem Settled.step (h : Settled old c)
    (hCall : ∀ u x, l = .call u (.of (.push x)) → ¬ old x)
    (hStep : c.step (anyBody consumer) l = some c') :
    Settled old c' ∧ Moves old c.shared c'.shared := by
  rcases Config.step_cases hStep with ⟨u, op, rfl, -, rfl⟩ | ⟨u, r, rfl, -, rfl⟩ |
    ⟨u, p, q', p', rfl, hp, hNext, rfl⟩
  · refine ⟨⟨h.pointers, tame_update h.tame u fun p hp => ?_⟩, .refl _⟩
    obtain rfl := Option.some.inj hp
    exact all_anyBody consumer fun x hx => hCall u x (by rw [hx])
  · refine ⟨⟨h.pointers, tame_update h.tame u fun p hp => ?_⟩, .refl _⟩
    cases hp
  · obtain ⟨hRest, hEffect⟩ := (h.tame u p hp).step hNext
    have hTame : ∀ p₁, some p' = some p₁ → p₁.All (Tame old) := by
      rintro p₁ ⟨⟩
      exact hRest
    rcases hEffect with rfl | ⟨f, hf, rfl⟩
    · exact ⟨⟨h.pointers, tame_update h.tame u hTame⟩, .refl _⟩
    · obtain ⟨hPointers, hMoves⟩ := hf c.shared h.pointers
      exact ⟨⟨hPointers, tame_update h.tame u hTame⟩, hMoves⟩

/-- While the thread clears, it takes no step but those of `clear`. -/
theorem Stage.step {t : Thread} (h : Stage old t c) (hSettled : Settled old c)
    (hCall : ∀ u x, l = .call u (.of (.push x)) → ¬ old x)
    (hStep : c.step (anyBody consumer) l = some c') (hSwap : ¬ SwapsAway old t c c') :
    Stage old t c' := by
  have hMoves := (hSettled.step hCall hStep).2
  rcases h with ⟨p, hp, hClearing⟩ | hCleared
  · have hOther : Clearing old c'.shared p :=
      hClearing.moves hMoves fun hBetween hPointer hOld =>
        hSwap ⟨⟨p, hp, hBetween⟩, hPointer, hOld⟩
    rcases Config.step_cases hStep with ⟨u, op, rfl, hIdle, rfl⟩ | ⟨u, r, rfl, hRet, rfl⟩ |
      ⟨u, p₁, q', p', rfl, hp₁, hNext, rfl⟩
    · have hu : t ≠ u := by
        rintro rfl
        rw [hp] at hIdle
        cases hIdle
      exact .inl ⟨p, (Function.update_of_ne hu ..).trans hp, hOther⟩
    · have hu : t ≠ u := by
        rintro rfl
        rw [hp] at hRet
        exact hClearing.ne_ret r (Option.some.inj hRet)
      exact .inl ⟨p, (Function.update_of_ne hu ..).trans hp, hOther⟩
    · by_cases hu : t = u
      · subst hu
        obtain rfl := Option.some.inj (hp.symm.trans hp₁)
        exact (hClearing.step hSettled.pointers hNext).imp
          (fun hNow => ⟨p', Function.update_self .., hNow⟩) id
      · exact .inl ⟨p, (Function.update_of_ne hu ..).trans hp, hOther⟩
  · exact .inr (hCleared.moves hMoves)

/-- The steps of a run that does not swap an old element away. -/
theorem Stage.run {t : Thread} {labels : List (Label Thread (AnyCall T) (Reply T))}
    (h : Stage old t c) (hSettled : Settled old c)
    (hCall : ∀ u x, .call u (.of (.push x)) ∈ labels → ¬ old x)
    (hRun : c.run (anyBody consumer) labels = some c')
    (hSwap : ∀ first l rest c₀ c₁, labels = first ++ l :: rest →
      c.run (anyBody consumer) first = some c₀ → c₀.step (anyBody consumer) l = some c₁ →
        ¬ SwapsAway old t c₀ c₁) :
    Stage old t c' ∧ Settled old c' := by
  induction labels generalizing c with
  | nil =>
    obtain rfl := Option.some.inj hRun
    exact ⟨h, hSettled⟩
  | cons l labels ih =>
    rw [Config.run_cons, Option.bind_eq_some_iff] at hRun
    obtain ⟨c₁, hStep, hRun⟩ := hRun
    have hNow : ∀ u x, l = .call u (.of (.push x)) → ¬ old x :=
      fun u x hl => hCall u x (by rw [hl]; exact List.mem_cons_self)
    refine ih (h.step hSettled hNow hStep (hSwap [] l labels c c₁ rfl rfl hStep))
      (hSettled.step hNow hStep).1 (fun u x hx => hCall u x (List.mem_cons_of_mem l hx)) hRun ?_
    rintro first l' rest c₂ c₃ rfl hFirst hNext
    refine hSwap (l :: first) l' rest c₂ c₃ rfl ?_ hNext
    rw [Config.run_cons, hStep, Option.bind_some, hFirst]

/-- No run brings an old element back. -/
theorem Cleared.run {labels : List (Label Thread (AnyCall T) (Reply T))} (h : Cleared old c.shared)
    (hSettled : Settled old c) (hCall : ∀ u x, .call u (.of (.push x)) ∈ labels → ¬ old x)
    (hRun : c.run (anyBody consumer) labels = some c') : Cleared old c'.shared := by
  induction labels generalizing c with
  | nil =>
    obtain rfl := Option.some.inj hRun
    exact h
  | cons l labels ih =>
    rw [Config.run_cons, Option.bind_eq_some_iff] at hRun
    obtain ⟨c₁, hStep, hRun⟩ := hRun
    obtain ⟨hSettled', hMoves⟩ := hSettled.step
      (fun u x hl => hCall u x (by rw [hl]; exact List.mem_cons_self)) hStep
    exact ih (h.moves hMoves) hSettled' (fun u x hx => hCall u x (List.mem_cons_of_mem l hx)) hRun

end Stages

section Numbers

variable {Thread T : Type} {labels : List (Label Thread (AnyCall (T × Nat)) (Reply (T × Nat)))}

/-- An element carries the position of its push. -/
theorem position_of_push (hNumbers : Numbered AnyCall.number labels)
    {first rest : List (Label Thread (AnyCall (T × Nat)) (Reply (T × Nat)))} {t : Thread}
    {x : T × Nat} (hLabels : labels = first ++ .call t (.of (.push x)) :: rest) :
    x.2 = first.length := by
  obtain ⟨op, hOp⟩ := hNumbers first t _ rest hLabels
  cases op with
  | clear => cases hOp
  | of op =>
    cases op with
    | push value =>
      simp only [AnyCall.number, AnyCall.map, Call.map, AnyCall.of.injEq, Call.push.injEq] at hOp
      rw [hOp]
    | pop | front | poll => cases hOp

/-- An element is pushed once. -/
theorem push_unique (hNumbers : Numbered AnyCall.number labels)
    {first rest first' rest' : List (Label Thread (AnyCall (T × Nat)) (Reply (T × Nat)))}
    {t t' : Thread} {x : T × Nat} (hLabels : labels = first ++ .call t (.of (.push x)) :: rest)
    (hLabels' : labels = first' ++ .call t' (.of (.push x)) :: rest') : t = t' ∧ rest = rest' := by
  have hLength : first.length = first'.length :=
    (position_of_push hNumbers hLabels).symm.trans (position_of_push hNumbers hLabels')
  have hTail := (List.append_inj (hLabels.symm.trans hLabels') hLength).2
  simp only [List.cons.injEq, Label.call.injEq] at hTail
  exact ⟨hTail.1.1, hTail.2⟩

/-- What is pushed later is another element. -/
theorem not_pushedIn_of_later {after : List (Label Thread (AnyCall (T × Nat)) (Reply (T × Nat)))}
    (hNumbers : Numbered AnyCall.number (labels ++ after)) {t : Thread} {x : T × Nat}
    (hLater : .call t (.of (.push x)) ∈ after) : ¬ PushedIn labels x := by
  rintro ⟨first, t', rest, r, rfl, -⟩
  obtain ⟨middle, rest', rfl⟩ := List.append_of_mem hLater
  have hFirst := position_of_push hNumbers (List.append_assoc first _ _)
  have hSecond := position_of_push hNumbers (List.append_assoc _ middle _).symm
  rw [List.length_append, List.length_append, List.length_cons] at hSecond
  omega

variable [DecidableEq Thread] [DecidableEq T] {consumer : Bool}
  {c : Config Thread (DoubleBufferQueue (T × Nat)) (Reply (T × Nat))}

/-- A push that is going on has not returned. -/
theorem settled_of_run (hNumbers : Numbered AnyCall.number labels)
    (hRun : (Config.start (new (T × Nat))).run (anyBody consumer) labels = some c) :
    Settled (PushedIn labels) c := by
  refine ⟨?_, fun t p hp => ?_⟩
  · refine Config.run_invariant (I := fun q => q.queueRead ≠ q.queueWrite) hRun (by simp [new]) ?_
    intro op
    have hAll : (anyBody consumer op).All (Tame fun _ => False) := all_anyBody consumer fun _ _ => id
    exact hAll.mono fun f hf q hPointers => (hf q hPointers).1
  · obtain ⟨first, op, rest, hLabels, hReturn, hAll⟩ := Config.run_running hRun hp
    refine hAll _ (all_anyBody consumer ?_)
    rintro x rfl ⟨first', t', rest', r, hLabels', hr⟩
    obtain ⟨rfl, rfl⟩ := push_unique hNumbers hLabels hLabels'
    exact hReturn r hr

/-- After the `clear` of a thread has returned, no element is left whose push had
returned before, unless one was swapped away. -/
theorem cleared_of_run {before during later : List (Label Thread (AnyCall (T × Nat)) (Reply (T × Nat)))}
    {t : Thread} {r : Reply (T × Nat)}
    (hNumbers : Numbered AnyCall.number (before ++ .call t .clear :: (during ++ .ret t r :: later)))
    (hRun : (Config.start (new (T × Nat))).run (anyBody consumer)
      (before ++ .call t .clear :: (during ++ .ret t r :: later)) = some c)
    (hSwap : ∀ first l rest c₀ c₁, during = first ++ l :: rest →
      (Config.start (new (T × Nat))).run (anyBody consumer) (before ++ .call t .clear :: first) =
        some c₀ →
      c₀.step (anyBody consumer) l = some c₁ → ¬ SwapsAway (PushedIn before) t c₀ c₁) :
    Cleared (PushedIn before) c.shared := by
  have hCall : ∀ u x, .call u (.of (.push x)) ∈ .call t .clear :: (during ++ .ret t r :: later) →
      ¬ PushedIn before x := fun u x hx => not_pushedIn_of_later hNumbers hx
  rw [Config.run_append, Option.bind_eq_some_iff] at hRun
  obtain ⟨c₁, hBefore, hRun⟩ := hRun
  rw [Config.run_cons, Option.bind_eq_some_iff] at hRun
  obtain ⟨c₂, hStart, hRun⟩ := hRun
  rw [Config.run_append, Option.bind_eq_some_iff] at hRun
  obtain ⟨c₃, hDuring, hRun⟩ := hRun
  rw [Config.run_cons, Option.bind_eq_some_iff] at hRun
  obtain ⟨c₄, hReturn, hLater⟩ := hRun
  have hSettled := ((settled_of_run hNumbers.left hBefore).step (by simp) hStart).1
  have hStage : Stage (PushedIn before) t c₂ := by
    rcases Config.step_cases hStart with ⟨u, op, hl, -, rfl⟩ | ⟨u, r', hl, -⟩ | ⟨u, p, s, p', hl, -⟩
    · cases hl
      exact .inl ⟨clear, Function.update_self .., .inl rfl⟩
    · cases hl
    · cases hl
  obtain ⟨hStage, hSettled⟩ := hStage.run hSettled
    (fun u x hx => hCall u x (List.mem_cons_of_mem _ (List.mem_append_left _ hx))) hDuring
    fun first l rest c₀ c₁' hDuring' hFirst => hSwap first l rest c₀ c₁' hDuring' (by
      rw [Config.run_append, hBefore, Option.bind_some, Config.run_cons, hStart, Option.bind_some,
        hFirst])
  have hCleared : Cleared (PushedIn before) c₃.shared := by
    rcases Config.step_cases hReturn with ⟨u, op, hl, -⟩ | ⟨u, r', hl, hRet, -⟩ |
      ⟨u, p, s, p', hl, -⟩
    · cases hl
    · cases hl
      rcases hStage with ⟨p, hp, hClearing⟩ | hCleared
      · rw [hRet] at hp
        exact absurd (Option.some.inj hp).symm (hClearing.ne_ret r)
      · exact hCleared
    · cases hl
  obtain ⟨hSettled, hMoves⟩ := hSettled.step (by simp) hReturn
  exact (hCleared.moves hMoves).run hSettled
    (fun u x hx => hCall u x (by simp [hx])) hLater

end Numbers

/-- In every interleaving of any calls, seen with the elements numbered by their
pushes: when a `clear` has returned, no element is in the queue whose push had
returned before that `clear` was called, provided that no step exchanged the
buffers while the `clear` had emptied the read buffer and not yet the write buffer
and the write buffer held such an element. -/
theorem clear_removes_pushed {Thread T : Type} [DecidableEq Thread] [DecidableEq T] (consumer : Bool)
    (labels : List (Label Thread (AnyCall T) (Reply T))) :
    (∀ c : Config Thread (DoubleBufferQueue T) (Reply T),
      (Config.start (new T)).run (anyBody consumer) labels = some c →
      ∃ numbered c', NumberedRun consumer labels numbered c' ∧
        c'.shared.map Prod.fst = c.shared) ∧
    ∀ numbered c', NumberedRun consumer labels numbered c' →
      ∀ before t during r later, numbered = before ++ .call t .clear :: (during ++ .ret t r :: later) →
      (∀ first l rest c₀ c₁, during = first ++ l :: rest →
        (Config.start (new (T × Nat))).run (anyBody consumer) (before ++ .call t .clear :: first) =
          some c₀ →
        c₀.step (anyBody consumer) l = some c₁ → ¬ SwapsAway (PushedIn before) t c₀ c₁) →
      ∀ x ∈ c'.shared.readBuffer ++ c'.shared.writeBuffer, ¬ PushedIn before x := by
  refine ⟨fun c hRun => exists_numberedRun hRun, ?_⟩
  rintro numbered c' hNumbered before t during r later rfl hSwap x hx hOld
  obtain ⟨hRead, hWrite⟩ := cleared_of_run hNumbered.numbers hNumbered.run hSwap
  rcases List.mem_append.mp hx with hx | hx
  · exact hRead ⟨x, hx, hOld⟩
  · exact hWrite ⟨x, hx, hOld⟩

/-- A push that returns. -/
def pushOnce {T : Type} (value : T) : List (Label Worker (AnyCall T) (Reply T)) :=
  uninterrupted .producer (.of (.push value)) 3 ⟨.SUCCESS, none⟩

theorem pushedIn_pushOnce {T : Type} (value : T) : PushedIn (pushOnce value) value :=
  ⟨[], .producer, _, ⟨.SUCCESS, none⟩, rfl, by simp⟩

/-- A push between the two critical sections of a `clear`. -/
def pushDuringClear : List (Label Worker (AnyCall (Nat × Nat)) (Reply (Nat × Nat))) :=
  List.replicate 3 (.internal .cleaner) ++
    uninterrupted .producer (.of (.push (8, 9))) 3 ⟨.SUCCESS, none⟩ ++
    List.replicate 3 (.internal .cleaner)

/-- A push, and a `clear` with another push during it. -/
def pushThenClear : List (Label Worker (AnyCall (Nat × Nat)) (Reply (Nat × Nat))) :=
  pushOnce (7, 0) ++ .call .cleaner .clear :: (pushDuringClear ++ [.ret .cleaner ⟨.SUCCESS, none⟩])

theorem numbered_pushThenClear : Numbered (AnyCall.number (T := Nat)) pushThenClear := by
  intro first t op' rest hLabels
  have hBound : first.length < pushThenClear.length := by
    rw [hLabels]
    simp
  have hGet : pushThenClear[first.length]? = some (.call t op') := by
    rw [hLabels]
    simp
  generalize first.length = n at hBound hGet
  change n < 18 at hBound
  interval_cases n <;> simp [pushThenClear, pushOnce, pushDuringClear, uninterrupted] at hGet
  · exact ⟨.of (.push 7), hGet.2.symm⟩
  · exact ⟨.clear, hGet.2.symm⟩
  · exact ⟨.of (.push 8), hGet.2.symm⟩

/-- The buffers are not exchanged. -/
theorem queueRead_pushDuringClear : ∀ n ≤ pushDuringClear.length,
    ((Config.start (new (Nat × Nat))).run (anyBody true)
      (pushOnce (7, 0) ++ .call .cleaner .clear :: pushDuringClear.take n)).map
        (fun c => c.shared.queueRead) = some (new (Nat × Nat)).queueRead := by
  decide

theorem clear_removes_pushed_beside_push :
    ∃ labels c', NumberedRun true labels pushThenClear c' ∧ PushedIn (pushOnce (7, 0)) (7, 0) ∧
      (7, 0) ∉ c'.shared.readBuffer ++ c'.shared.writeBuffer := by
  have hSome : ((Config.start (new (Nat × Nat))).run (anyBody true) pushThenClear).isSome = true := by
    decide
  obtain ⟨c', hRun⟩ := Option.isSome_iff_exists.mp hSome
  have hNumbered : NumberedRun true _ pushThenClear c' := ⟨hRun, rfl, numbered_pushThenClear⟩
  refine ⟨_, c', hNumbered, pushedIn_pushOnce _, fun hx => ?_⟩
  refine (clear_removes_pushed true _).2 pushThenClear c' hNumbered (pushOnce (7, 0)) .cleaner
    pushDuringClear ⟨.SUCCESS, none⟩ [] rfl ?_ (7, 0) hx (pushedIn_pushOnce _)
  rintro first l rest c₀ c₁ hDuring hFirst hStep ⟨-, hPointer, -⟩
  have hNext : (Config.start (new (Nat × Nat))).run (anyBody true)
      (pushOnce (7, 0) ++ .call .cleaner .clear :: (first ++ [l])) = some c₁ := by
    rw [← List.cons_append, ← List.append_assoc, Config.run_append, hFirst, Option.bind_some,
      Config.run_cons, hStep]
    rfl
  have hLength : first.length + 1 ≤ pushDuringClear.length := by
    rw [hDuring, List.length_append, List.length_cons]
    omega
  have hBefore := queueRead_pushDuringClear first.length (by omega)
  have hAfter := queueRead_pushDuringClear (first.length + 1) hLength
  rw [hDuring, List.take_left, hFirst, Option.map_some] at hBefore
  rw [hDuring, List.append_cons first l rest, List.take_left' (by simp), hNext, Option.map_some] at hAfter
  exact hPointer (Option.some.inj (hAfter.trans hBefore.symm))

/-- A `front` between the two critical sections of a `clear`. -/
def frontDuringClear : List (Label Worker (AnyCall Nat) (Reply Nat)) :=
  .call .cleaner .clear :: (List.replicate 3 (.internal .cleaner) ++
    uninterrupted .consumer (.of .front) 8 ⟨.SUCCESS, some 7⟩ ++
    List.replicate 3 (.internal .cleaner) ++ [.ret .cleaner ⟨.SUCCESS, none⟩])

/-- The only element was pushed before the `clear`, and it is still there after it. -/
theorem clear_misses_element :
    PushedIn (pushOnce 7) 7 ∧ (pushOnce 7 ++ frontDuringClear).countP startsPush = 1 ∧
    ((Config.start (new Nat)).run (anyBody true) (pushOnce 7 ++ frontDuringClear)).map
      (fun c => (c.shared.readBuffer, c.shared.writeBuffer)) = some ([7], []) := by
  refine ⟨pushedIn_pushOnce 7, ?_, ?_⟩ <;> decide

end clockUtils.container.DoubleBufferQueue
