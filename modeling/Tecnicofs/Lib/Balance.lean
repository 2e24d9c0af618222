import Tecnicofs.Lib.Pool

namespace Prog

variable {L Λ σ α β γ : Type}

/-- The program is about to give back a lock of its own, and `E` excuses what it does after that. -/
def Excused (E : L → σ → Prop) (held : List (L × Mode)) (s : σ) : Prog L Λ σ β → Prop
  | unlock l _ => E l s ∧ ∃ x ∈ held, x.1 = l
  | ret _ | lock _ _ _ | act _ _ _ => False

variable [DecidableEq L]

/-- Whatever the other threads do, the program gives back only locks it holds, keeps the invariant `I`, and ends with
locks that fit its result, unless it comes to where it is excused.  Labelled actions run in states that allow them. -/
def Balances (A : Λ → σ → Prop) (I : σ → Prop) (E : L → σ → Prop) :
    Prog L Λ σ β → List (L × Mode) → (β → List (L × Mode) → Prop) → Prop
  | ret b, held, Q => Q b held
  | lock l mode k, held, Q => k.Balances A I E ((l, mode) :: held) Q
  | unlock l k, held, Q => (∃ x ∈ held, x.1 = l) ∧ k.Balances A I E (giveBack held l) Q
  | act label f k, held, Q =>
    ∀ s c s', I s → (∀ l ∈ label, A l s) → f s = some (c, s') →
      I s' ∧ ((k c).Excused E held s' ∨ (k c).Balances A I E held Q)

variable {A : Λ → σ → Prop} {I : σ → Prop} {E : L → σ → Prop} {held : List (L × Mode)} {s : σ}
  {Q Q' : β → List (L × Mode) → Prop}

omit [DecidableEq L] in
theorem Excused.bind {p : Prog L Λ σ α} {f : α → Prog L Λ σ β} (h : p.Excused E held s) :
    (p.bind f).Excused E held s := by
  cases p with
  | unlock l k => exact h
  | ret a => exact h.elim
  | lock l mode k => exact h.elim
  | act label g k => exact h.elim

theorem Balances.mono {p : Prog L Λ σ β} (h : p.Balances A I E held Q) (hQ : ∀ b held, Q b held → Q' b held) :
    p.Balances A I E held Q' := by
  induction p generalizing held with
  | ret b => exact hQ b held h
  | lock l mode k ih => exact ih h
  | unlock l k ih => exact ⟨h.1, ih h.2⟩
  | act label f k ih => exact fun s c s' hi hl hf => (h s c s' hi hl hf).imp_right (Or.imp_right (ih c))

theorem Balances.bind {p : Prog L Λ σ α} {f : α → Prog L Λ σ β}
    (h : p.Balances A I E held fun a held => (f a).Balances A I E held Q) : (p >>= f).Balances A I E held Q := by
  change (p.bind f).Balances A I E held Q
  induction p generalizing held with
  | ret a => exact h
  | lock l mode k ih => exact ih h
  | unlock l k ih => exact ⟨h.1, ih h.2⟩
  | act label g k ih => exact fun s c s' hi hl hg => (h s c s' hi hl hg).imp_right (Or.imp Excused.bind (ih c))

theorem balances_pure {b : β} (h : Q b held) : (pure b : Prog L Λ σ β).Balances A I E held Q := h

theorem balances_acquire {l : L} {mode : Mode} {f : Unit → Prog L Λ σ β}
    (h : (f ()).Balances A I E ((l, mode) :: held) Q) : (acquire l mode >>= f).Balances A I E held Q := h

theorem balances_release {l : L} {f : Unit → Prog L Λ σ β} (hl : ∃ x ∈ held, x.1 = l)
    (h : (f ()).Balances A I E (giveBack held l) Q) : (release l >>= f).Balances A I E held Q := ⟨hl, h⟩

theorem balances_atomic {label : Option Λ} {g : σ → Option (γ × σ)} {f : γ → Prog L Λ σ β}
    (h : ∀ s c s', I s → (∀ l ∈ label, A l s) → g s = some (c, s') →
      I s' ∧ ((f c).Excused E held s' ∨ (f c).Balances A I E held Q)) :
    (atomic label g >>= f).Balances A I E held Q := h

theorem balances_get {g : σ → γ} {f : γ → Prog L Λ σ β}
    (h : ∀ s, I s → (f (g s)).Excused E held s ∨ (f (g s)).Balances A I E held Q) :
    (get g >>= f).Balances A I E held Q := by
  intro s c s' hi _ hg
  cases hg
  exact ⟨hi, h s hi⟩

theorem balances_modify {g : σ → σ} {f : Unit → Prog L Λ σ β} (hg : ∀ s, I s → I (g s))
    (h : ∀ s, I s → (f ()).Excused E held (g s) ∨ (f ()).Balances A I E held Q) :
    (modify g >>= f).Balances A I E held Q := by
  intro s c s' hi _ hs
  cases hs
  exact ⟨hg s hi, h s hi⟩

end Prog

namespace Pool

variable {n : Nat} {L Λ σ C O : Type} {p p' : Pool n L Λ σ C O}

/-- A thread holds no lock when it returns and between its calls, and never gives back a lock that it does not hold. -/
def Balanced (p : Pool n L Λ σ C O) : Prop :=
  ∀ t, match (p.thread t).current with
    | none | some (_, .ret _) => (p.thread t).held = []
    | some (_, .unlock l _) => ∃ x ∈ (p.thread t).held, x.1 = l
    | some (_, .lock _ _ _) | some (_, .act _ _ _) => True

def Excuses (E : C → L → σ → Prop) (p : Pool n L Λ σ C O) (t : Fin n) : Prop :=
  match (p.thread t).current with
  | some (c, .unlock l _) => E c l p.state
  | _ => False

variable [DecidableEq L] {A : Λ → σ → Prop} {I : σ → Prop} {E : C → L → σ → Prop}

instance (p : Pool n L Λ σ C O) : Decidable p.Balanced :=
  @Nat.decidableForallFin n _ fun t =>
    match (p.thread t).current with
    | none | some (_, .ret _) => decidable_of_iff ((p.thread t).held.isEmpty = true) List.isEmpty_iff
    | some (_, .unlock l _) => inferInstanceAs (Decidable (∃ x ∈ (p.thread t).held, x.1 = l))
    | some (_, .lock _ _ _) | some (_, .act _ _ _) => isTrue trivial

instance [∀ c l s, Decidable (E c l s)] (p : Pool n L Λ σ C O) (t : Fin n) : Decidable (p.Excuses E t) :=
  match h : (p.thread t).current with
  | some (c, .unlock l _) => decidable_of_iff (E c l p.state) (by rw [Excuses, h])
  | some (_, .ret _) | some (_, .lock _ _ _) | some (_, .act _ _ _) | none =>
    isFalse (by rw [Excuses, h]; exact id)

structure Balances (A : Λ → σ → Prop) (I : σ → Prop) (E : C → L → σ → Prop) (p : Pool n L Λ σ C O) : Prop where
  state : I p.state
  thread : ∀ t, match (p.thread t).current with
    | none => (p.thread t).held = []
    | some (c, prog) => prog.Excused (E c) (p.thread t).held p.state ∨
        prog.Balances A I (E c) (p.thread t).held fun _ held => held = []

namespace Balances

theorem init {s : σ} (h : I s) : (Pool.init s : Pool n L Λ σ C O).Balances A I E := ⟨h, fun _ => rfl⟩

theorem balanced (b : p.Balances A I E) : p.Balanced := by
  intro t
  have ht := b.thread t
  split at ht
  · next hc =>
    rw [hc]
    exact ht
  · next c prog hc =>
    rw [hc]
    cases prog with
    | ret o => exact ht.resolve_left id
    | lock l mode k => trivial
    | unlock l k => exact ht.elim And.right And.left
    | act label f k => trivial

theorem of_current (b : p.Balances A I E) {t : Fin n} (hE : ¬ p.Excuses E t) {c : C} {prog : Prog L Λ σ O}
    (h : (p.thread t).current = some (c, prog)) :
    prog.Balances A I (E c) (p.thread t).held fun _ held => held = [] := by
  have ht := b.thread t
  rw [h] at ht
  refine ht.resolve_left fun hx => hE ?_
  rw [Excuses, h]
  cases prog with
  | unlock l k => exact hx.1
  | ret o => exact hx
  | lock l mode k => exact hx
  | act label f k => exact hx

theorem step {body : C → Prog L Λ σ O} {e : Event n C} (b : p.Balances A I E)
    (hbody : ∀ c, (body c).Balances A I (E c) [] fun _ held => held = []) (ha : p.Assumes A e)
    (hE : ∀ t, ¬ p.Excuses E t) (hm : Moves body p e p') : p'.Balances A I E := by
  have next : ∀ {t : Fin n} {x : Thread L Λ σ C O} {q : Pool n L Λ σ C O}, q.thread = Function.update p.thread t x →
      I q.state → (match x.current with
        | none => x.held = []
        | some (c, prog) => prog.Excused (E c) x.held q.state ∨
            prog.Balances A I (E c) x.held fun _ held => held = []) → q.Balances A I E := by
    intro t x q hq hi hx
    refine ⟨hi, fun u => ?_⟩
    by_cases hu : u = t
    · rw [hq, hu, Function.update_self]
      exact hx
    · rw [hq, Function.update_of_ne hu]
      cases hc : (p.thread u).current with
      | none =>
        have hold := b.thread u
        rwa [hc] at hold
      | some y => exact .inr (b.of_current (hE u) hc)
  cases hm with
  | @start t c hc =>
    have ht := b.thread t
    rw [hc] at ht
    refine next rfl b.state (.inr ?_)
    simp only [ht]
    exact hbody c
  | ret hc => exact next rfl b.state (b.of_current (hE _) hc)
  | lock hc hf => exact next rfl b.state (.inr (b.of_current (hE _) hc))
  | unlock hc => exact next rfl b.state (.inr (b.of_current (hE _) hc).2)
  | @act t c γ label f k x hc hx =>
    have hl : ∀ l ∈ label, A l p.state := fun l hl => by
      rw [Assumes, hc] at ha
      cases label with
      | none => cases hl
      | some l' =>
        cases hl
        exact ha
    obtain ⟨hi, hk⟩ := b.of_current (hE t) hc p.state x.1 x.2 b.state hl hx
    exact next rfl hi hk

end Balances

theorem balanced_of_run {body : C → Prog L Λ σ O} (hbody : ∀ c, (body c).Balances A I (E c) [] fun _ held => held = [])
    {s : σ} (hs : I s) {es : List (Event n C)} {outs : List Unit}
    (ha : Runs.Along (Pool.step body) (fun p e => p.Assumes A e ∧ ∀ t, ¬ p.Excuses E t) (Pool.init s) es)
    (hr : Runs.run (Pool.step body) (Pool.init s) es = some (outs, p)) : p.Balanced := by
  obtain ⟨-, h⟩ := Runs.run_invariant (I := fun p => p.Balances A I E) (P := fun _ => True)
    (fun _ _ _ _ b hc hs => ⟨trivial, b.step hbody hc.1 hc.2 (moves_of_step hs)⟩) (.init hs) ha hr
  exact h.balanced

end Pool
