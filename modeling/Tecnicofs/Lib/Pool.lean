import Mathlib.Data.Fintype.Basic
import Tecnicofs.Lib.Prog
import Tecnicofs.Lib.Runs

structure Thread (L Λ σ C O : Type) : Type 1 where
  current : Option (C × Prog L Λ σ O)
  held : List (L × Mode)

/-- `n` threads, the state they share, the calls that have returned, and the locks that are broken. -/
structure Pool (n : Nat) (L Λ σ C O : Type) : Type 1 where
  state : σ
  thread : Fin n → Thread L Λ σ C O
  history : List (Fin n × C × O)
  broken : L → Bool

def Mode.Conflicts : Mode → Mode → Prop
  | shared, shared => False
  | _, _ => True

instance : ∀ m m', Decidable (Mode.Conflicts m m')
  | .shared, .shared => isFalse id
  | .exclusive, _ => isTrue trivial
  | .shared, .exclusive => isTrue trivial

theorem Mode.Conflicts.symm : ∀ {m m' : Mode}, m.Conflicts m' → m'.Conflicts m
  | .exclusive, .exclusive, _ | .exclusive, .shared, _ | .shared, .exclusive, _ => trivial
  | .shared, .shared, h => h

def giveBack {L : Type} [DecidableEq L] (held : List (L × Mode)) (l : L) : List (L × Mode) :=
  held.eraseP fun x => x.1 = l

namespace Pool

inductive Event (n : Nat) (C : Type)
  | start (t : Fin n) (c : C)
  | step (t : Fin n)

variable {n : Nat} {L Λ σ C O : Type}

def setThread (p : Pool n L Λ σ C O) (t : Fin n) (x : Thread L Λ σ C O) : Pool n L Λ σ C O :=
  { p with thread := Function.update p.thread t x }

@[simp] theorem setThread_history (p : Pool n L Λ σ C O) (t : Fin n) (x : Thread L Λ σ C O) :
    (p.setThread t x).history = p.history := rfl

def Blocks (p : Pool n L Λ σ C O) (u : Fin n) (l : L) (mode : Mode) : Prop :=
  ∃ x ∈ (p.thread u).held, x.1 = l ∧ mode.Conflicts x.2

def WaitsFor (p : Pool n L Λ σ C O) (t u : Fin n) : Prop :=
  ∃ c l mode k, (p.thread t).current = some (c, .lock l mode k) ∧ u ≠ t ∧ p.Blocks u l mode

def Deadlocked (p : Pool n L Λ σ C O) : Prop :=
  ∃ S : Finset (Fin n), S.Nonempty ∧ ∀ t ∈ S, ∃ u ∈ S, p.WaitsFor t u

def init (s : σ) : Pool n L Λ σ C O := ⟨s, fun _ => ⟨none, []⟩, [], fun _ => false⟩

variable [DecidableEq L]

/-- The broken locks when the thread has given a lock back.  One that it does not have is broken from then on. -/
def brokenBy (p : Pool n L Λ σ C O) (t : Fin n) (l : L) : L → Bool :=
  if ∃ x ∈ (p.thread t).held, x.1 = l then p.broken else Function.update p.broken l true

instance (p : Pool n L Λ σ C O) (u : Fin n) (l : L) (mode : Mode) : Decidable (p.Blocks u l mode) :=
  inferInstanceAs (Decidable (∃ x ∈ _, _))

instance (p : Pool n L Λ σ C O) (t u : Fin n) : Decidable (p.WaitsFor t u) :=
  match h : (p.thread t).current with
  | some (_, .lock l mode k) =>
    decidable_of_iff (u ≠ t ∧ p.Blocks u l mode)
      ⟨fun hb => ⟨_, l, mode, k, h, hb⟩, fun ⟨_, _, _, _, h', hb⟩ => by
        rw [h] at h'
        cases h'
        exact hb⟩
  | some (_, .ret _) | some (_, .unlock _ _) | some (_, .act _ _ _) | none =>
    isFalse fun ⟨_, _, _, _, h', _⟩ => by
      rw [h] at h'
      cases h'

/-- One step of a thread.  A thread that waits for a lock has none; a broken lock keeps nobody out. -/
def stepThread (p : Pool n L Λ σ C O) (t : Fin n) : Option (Pool n L Λ σ C O) :=
  match (p.thread t).current with
  | none => none
  | some (c, .ret o) =>
    some { p.setThread t ⟨none, (p.thread t).held⟩ with history := p.history ++ [(t, c, o)] }
  | some (c, .lock l mode k) =>
    if p.broken l = false ∧ ∃ u, u ≠ t ∧ p.Blocks u l mode then none
    else some (p.setThread t ⟨some (c, k), (l, mode) :: (p.thread t).held⟩)
  | some (c, .unlock l k) =>
    some { p.setThread t ⟨some (c, k), giveBack (p.thread t).held l⟩ with broken := p.brokenBy t l }
  | some (c, .act _ f k) =>
    (f p.state).map fun x => { p.setThread t ⟨some (c, k x.1), (p.thread t).held⟩ with state := x.2 }

def step (body : C → Prog L Λ σ O) (p : Pool n L Λ σ C O) : Event n C → Option (Unit × Pool n L Λ σ C O)
  | .start t c =>
    match (p.thread t).current with
    | none => some ((), p.setThread t ⟨some (c, body c), (p.thread t).held⟩)
    | some _ => none
  | .step t => (p.stepThread t).map fun p' => ((), p')

def Assumes (A : Λ → σ → Prop) (p : Pool n L Λ σ C O) : Event n C → Prop
  | .start _ _ => True
  | .step t =>
    match (p.thread t).current with
    | some (_, .act (some l) _ _) => A l p.state
    | _ => True

instance (A : Λ → σ → Prop) [∀ l s, Decidable (A l s)] (p : Pool n L Λ σ C O) : ∀ e, Decidable (p.Assumes A e)
  | .start _ _ => isTrue trivial
  | .step t =>
    match h : (p.thread t).current with
    | some (_, .act (some l) _ _) => decidable_of_iff (A l p.state) (by rw [Assumes, h])
    | some (_, .act none _ _) => isTrue (by rw [Assumes, h]; trivial)
    | some (_, .ret _) => isTrue (by rw [Assumes, h]; trivial)
    | some (_, .lock _ _ _) => isTrue (by rw [Assumes, h]; trivial)
    | some (_, .unlock _ _) => isTrue (by rw [Assumes, h]; trivial)
    | none => isTrue (by rw [Assumes, h]; trivial)

inductive Moves (body : C → Prog L Λ σ O) (p : Pool n L Λ σ C O) : Event n C → Pool n L Λ σ C O → Prop
  | start {t : Fin n} (c : C) (h : (p.thread t).current = none) :
      Moves body p (.start t c) (p.setThread t ⟨some (c, body c), (p.thread t).held⟩)
  | ret {t : Fin n} {c : C} {o : O} (h : (p.thread t).current = some (c, .ret o)) :
      Moves body p (.step t)
        { p.setThread t ⟨none, (p.thread t).held⟩ with history := p.history ++ [(t, c, o)] }
  | lock {t : Fin n} {c : C} {l : L} {mode : Mode} {k : Prog L Λ σ O}
      (h : (p.thread t).current = some (c, .lock l mode k))
      (hf : p.broken l = false → ∀ u, u ≠ t → ¬ p.Blocks u l mode) :
      Moves body p (.step t) (p.setThread t ⟨some (c, k), (l, mode) :: (p.thread t).held⟩)
  | unlock {t : Fin n} {c : C} {l : L} {k : Prog L Λ σ O} (h : (p.thread t).current = some (c, .unlock l k)) :
      Moves body p (.step t)
        { p.setThread t ⟨some (c, k), giveBack (p.thread t).held l⟩ with broken := p.brokenBy t l }
  | act {t : Fin n} {c : C} {γ : Type} {label : Option Λ} {f : σ → Option (γ × σ)} {k : γ → Prog L Λ σ O}
      {x : γ × σ} (h : (p.thread t).current = some (c, .act label f k)) (hx : f p.state = some x) :
      Moves body p (.step t) { p.setThread t ⟨some (c, k x.1), (p.thread t).held⟩ with state := x.2 }

theorem moves_of_step {body : C → Prog L Λ σ O} {p p' : Pool n L Λ σ C O} {e : Event n C} {o : Unit}
    (h : step body p e = some (o, p')) : Moves body p e p' := by
  cases e with
  | start t c =>
    cases hc : (p.thread t).current with
    | none =>
      simp only [step, hc] at h
      cases h
      exact .start c hc
    | some x => simp [step, hc] at h
  | step t =>
    obtain ⟨p₁, hp, he⟩ := Option.map_eq_some_iff.mp h
    cases he
    unfold stepThread at hp
    split at hp
    · cases hp
    · next c o hc =>
      cases hp
      exact .ret hc
    · next c l mode k hc =>
      split at hp
      · cases hp
      · next hf =>
        cases hp
        exact .lock hc fun hl u hu hb => hf ⟨hl, u, hu, hb⟩
    · next c l k hc =>
      cases hp
      exact .unlock hc
    · next c γ label f k hc =>
      obtain ⟨x, hx, rfl⟩ := Option.map_eq_some_iff.mp hp
      exact .act hc hx

section
variable {body : C → Prog L Λ σ O} {valid : C → Prop} {p p' : Pool n L Λ σ C O} {e : Event n C}

structure Valid (valid : C → Prop) (p : Pool n L Λ σ C O) : Prop where
  current : ∀ t c prog, (p.thread t).current = some (c, prog) → valid c
  history : ∀ x ∈ p.history, valid x.2.1

omit [DecidableEq L] in
theorem Valid.setThread (h : p.Valid valid) {t : Fin n} {x : Thread L Λ σ C O}
    (hx : ∀ c prog, x.current = some (c, prog) → valid c) : (p.setThread t x).Valid valid where
  current u c prog hc := by
    by_cases hu : u = t
    · subst hu
      exact hx c prog (by simpa [Pool.setThread] using hc)
    · exact h.current u c prog (by simpa [Pool.setThread, hu] using hc)
  history := h.history

theorem Valid.step (h : p.Valid valid) (he : ∀ t c, e = .start t c → valid c) (hm : Moves body p e p') :
    p'.Valid valid := by
  cases hm with
  | @start t c hc =>
    refine h.setThread fun c' prog hc' => ?_
    cases hc'
    exact he t c rfl
  | @ret t c o hc =>
    have hold := h.setThread (t := t) (x := ⟨none, (p.thread t).held⟩) fun c' prog hc' => by cases hc'
    refine ⟨hold.current, fun x hx => ?_⟩
    rcases List.mem_append.mp hx with hx | hx
    · exact h.history x hx
    · cases List.mem_singleton.mp hx
      exact h.current t c _ hc
  | @lock t c l mode k hc hf =>
    refine h.setThread fun c' prog hc' => ?_
    cases hc'
    exact h.current t c _ hc
  | @unlock t c l k hc =>
    have hold := h.setThread (t := t) (x := ⟨some (c, k), giveBack (p.thread t).held l⟩) fun c' prog hc' => by
      cases hc'
      exact h.current t c _ hc
    exact ⟨hold.current, hold.history⟩
  | @act t c γ label f k x hc hx =>
    have hold := h.setThread (t := t) (x := ⟨some (c, k x.1), (p.thread t).held⟩) fun c' prog hc' => by
      cases hc'
      exact h.current t c _ hc
    exact ⟨hold.current, hold.history⟩

theorem Valid.of_run {s : σ} {es : List (Event n C)} {outs : List Unit}
    (ha : Runs.Along (Pool.step body) (fun _ e => ∀ t c, e = .start t c → valid c) (Pool.init s) es)
    (hr : Runs.run (Pool.step body) (Pool.init s) es = some (outs, p)) : p.Valid valid := by
  have hinit : (Pool.init s : Pool n L Λ σ C O).Valid valid :=
    ⟨fun _ _ _ hc => (Option.some_ne_none _ hc.symm).elim, fun _ hx => absurd hx List.not_mem_nil⟩
  exact (Runs.run_invariant (I := Valid valid) (P := fun _ => True)
    (fun _ _ _ _ h he hs => ⟨trivial, h.step he (moves_of_step hs)⟩) hinit ha hr).2

end

end Pool
