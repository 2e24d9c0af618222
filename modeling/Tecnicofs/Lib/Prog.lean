import Mathlib.Data.Option.Basic
import Mathlib.Tactic.Common

inductive Mode
  | exclusive
  | shared
  deriving DecidableEq

/-- Locks `L`, state `σ`, result `β`.  A label says what an atomic action is, where a theorem is to assume
something about the states it runs in; an action without a result has no step. -/
inductive Prog (L Λ σ : Type) (β : Type) : Type 1
  | ret (b : β)
  | lock (l : L) (mode : Mode) (k : Prog L Λ σ β)
  | unlock (l : L) (k : Prog L Λ σ β)
  | act {γ : Type} (label : Option Λ) (f : σ → Option (γ × σ)) (k : γ → Prog L Λ σ β)

namespace Prog

variable {L Λ σ α β γ : Type}

def bind : Prog L Λ σ α → (α → Prog L Λ σ β) → Prog L Λ σ β
  | ret a, f => f a
  | lock l mode k, f => lock l mode (k.bind f)
  | unlock l k, f => unlock l (k.bind f)
  | act label g k, f => act label g fun c => (k c).bind f

instance : Monad (Prog L Λ σ) where
  pure := ret
  bind := bind

def acquire (l : L) (mode : Mode) : Prog L Λ σ Unit := lock l mode (ret ())

def release (l : L) : Prog L Λ σ Unit := unlock l (ret ())

def atomic (label : Option Λ) (f : σ → Option (γ × σ)) : Prog L Λ σ γ := act label f ret

def get (f : σ → γ) : Prog L Λ σ γ := atomic none fun s => some (f s, s)

def modify (f : σ → σ) : Prog L Λ σ Unit := atomic none fun s => some ((), f s)

theorem bind_assoc (p : Prog L Λ σ α) (f : α → Prog L Λ σ β) (g : β → Prog L Λ σ γ) :
    p >>= f >>= g = p >>= fun a => f a >>= g := by
  change (p.bind f).bind g = p.bind fun a => (f a).bind g
  induction p with
  | ret a => rfl
  | lock l mode k ih => exact congrArg (lock l mode) ih
  | unlock l k ih => exact congrArg (unlock l) ih
  | act label h k ih => exact congrArg (act label h) (funext ih)

/-- The program run by itself, where every lock is granted at once; `runLocks` tells when they are. -/
def run : Prog L Λ σ β → σ → Option (β × σ)
  | ret b, s => some (b, s)
  | lock _ _ k, s => run k s
  | unlock _ k, s => run k s
  | act _ f k, s =>
    match f s with
    | none => none
    | some (c, s') => run (k c) s'

/-- Run by itself, the program executes each labelled action in a state that allows it. -/
def Assumes (A : Λ → σ → Prop) : Prog L Λ σ β → σ → Prop
  | ret _, _ => True
  | lock _ _ k, s => Assumes A k s
  | unlock _ k, s => Assumes A k s
  | act label f k, s =>
    (∀ l ∈ label, A l s) ∧
      match f s with
      | none => True
      | some (c, s') => Assumes A (k c) s'

instance Assumes.decidable (A : Λ → σ → Prop) [∀ l s, Decidable (A l s)] :
    ∀ (p : Prog L Λ σ β) (s : σ), Decidable (p.Assumes A s)
  | ret _, _ => isTrue trivial
  | lock _ _ k, s => Assumes.decidable A k s
  | unlock _ k, s => Assumes.decidable A k s
  | act label f k, s =>
    have hk : Decidable (match f s with
        | none => True
        | some (c, s') => Assumes A (k c) s') :=
      match f s with
      | none => isTrue trivial
      | some (c, s') => Assumes.decidable A (k c) s'
    have hl : Decidable (∀ l ∈ label, A l s) :=
      match label with
      | none => isTrue (by simp)
      | some l => decidable_of_iff (A l s) (by simp)
    decidable_of_iff (_ ∧ _) (Iff.of_eq (by rw [Assumes]))

@[simp] theorem run_pure (b : β) (s : σ) : (pure b : Prog L Λ σ β).run s = some (b, s) := rfl

@[simp] theorem run_acquire (l : L) (mode : Mode) (s : σ) :
    (acquire l mode : Prog L Λ σ Unit).run s = some ((), s) := rfl

@[simp] theorem run_release (l : L) (s : σ) : (release l : Prog L Λ σ Unit).run s = some ((), s) := rfl

@[simp] theorem run_atomic (label : Option Λ) (f : σ → Option (γ × σ)) (s : σ) :
    (atomic label f : Prog L Λ σ γ).run s = f s := by
  unfold atomic run
  cases f s <;> rfl

@[simp] theorem run_get (f : σ → γ) (s : σ) : (get f : Prog L Λ σ γ).run s = some (f s, s) := rfl

@[simp] theorem run_modify (f : σ → σ) (s : σ) : (modify f : Prog L Λ σ Unit).run s = some ((), f s) := rfl

@[simp] theorem run_bind (p : Prog L Λ σ α) (f : α → Prog L Λ σ β) (s : σ) :
    (p >>= f).run s = (p.run s).bind fun x => (f x.1).run x.2 := by
  change (p.bind f).run s = _
  induction p generalizing s with
  | ret a => rfl
  | lock l mode k ih => exact ih s
  | unlock l k ih => exact ih s
  | act label g k ih =>
    simp only [bind, run]
    cases g s with
    | none => rfl
    | some x => exact ih x.1 x.2

section
variable {A : Λ → σ → Prop}

@[simp] theorem assumes_pure (b : β) (s : σ) : (pure b : Prog L Λ σ β).Assumes A s := trivial

@[simp] theorem assumes_acquire (l : L) (mode : Mode) (s : σ) :
    (acquire l mode : Prog L Λ σ Unit).Assumes A s := trivial

@[simp] theorem assumes_release (l : L) (s : σ) : (release l : Prog L Λ σ Unit).Assumes A s := trivial

@[simp] theorem assumes_atomic (label : Option Λ) (f : σ → Option (γ × σ)) (s : σ) :
    (atomic label f : Prog L Λ σ γ).Assumes A s ↔ ∀ l ∈ label, A l s := by
  rw [atomic, Assumes]
  refine and_iff_left ?_
  cases f s <;> trivial

@[simp] theorem assumes_get (f : σ → γ) (s : σ) : (get f : Prog L Λ σ γ).Assumes A s := by simp [get]

@[simp] theorem assumes_modify (f : σ → σ) (s : σ) : (modify f : Prog L Λ σ Unit).Assumes A s := by simp [modify]

theorem assumes_bind (p : Prog L Λ σ α) (f : α → Prog L Λ σ β) (s : σ) :
    (p >>= f).Assumes A s ↔ p.Assumes A s ∧ ∀ a s', p.run s = some (a, s') → (f a).Assumes A s' := by
  change (p.bind f).Assumes A s ↔ _
  induction p generalizing s with
  | ret a =>
    refine ⟨fun h => ⟨trivial, fun b s' he => ?_⟩, fun h => h.2 a s rfl⟩
    cases he
    exact h
  | lock l mode k ih => exact ih s
  | unlock l k ih => exact ih s
  | act label g k ih =>
    simp only [bind, Assumes, run]
    cases g s with
    | none => simp
    | some x => simp only [ih, and_assoc]

theorem Assumes.mono {A' : Λ → σ → Prop} (hA : ∀ l s, A l s → A' l s) {p : Prog L Λ σ β} {s : σ} (h : p.Assumes A s) :
    p.Assumes A' s := by
  induction p generalizing s with
  | ret b => trivial
  | lock l mode k ih => exact ih h
  | unlock l k ih => exact ih h
  | act label f k ih =>
    rw [Assumes] at h ⊢
    refine ⟨fun l hl => hA l s (h.1 l hl), ?_⟩
    have hk := h.2
    cases hf : f s with
    | none => trivial
    | some x =>
      rw [hf] at hk
      exact ih x.1 hk

theorem Assumes.of_run {p : Prog L Λ σ α} {f : α → Prog L Λ σ β} {s s' : σ} {a : α} (hp : p.Assumes A s)
    (hr : p.run s = some (a, s')) (hf : (f a).Assumes A s') : (p >>= f).Assumes A s := by
  refine (assumes_bind p f s).mpr ⟨hp, fun b s₁ hb => ?_⟩
  obtain ⟨rfl, rfl⟩ := Prod.mk.inj (Option.some.inj (hb.symm.trans hr))
  exact hf

end

section
variable {Q Q' : β → σ → Prop} {s : σ}

def Ensures (p : Prog L Λ σ β) (s : σ) (Q : β → σ → Prop) : Prop := ∀ b s', p.run s = some (b, s') → Q b s'

theorem Ensures.mono {p : Prog L Λ σ β} (h : p.Ensures s Q) (hQ : ∀ b s', Q b s' → Q' b s') : p.Ensures s Q' :=
  fun b s' hr => hQ b s' (h b s' hr)

theorem Ensures.bind {p : Prog L Λ σ α} {f : α → Prog L Λ σ β}
    (h : p.Ensures s fun a s' => (f a).Ensures s' Q) : (p >>= f).Ensures s Q := by
  intro b s' hr
  rw [run_bind, Option.bind_eq_some_iff] at hr
  obtain ⟨x, hx, hr⟩ := hr
  exact h x.1 x.2 hx b s' hr

theorem Ensures.of_run {p : Prog L Λ σ α} {f : α → Prog L Λ σ β} {a : α} {s' : σ} (hp : p.run s = some (a, s'))
    (hf : (f a).Ensures s' Q) : (p >>= f).Ensures s Q :=
  .bind fun a₁ s₁ hr => by
    rw [hp] at hr
    cases hr
    exact hf

theorem ensures_pure {b : β} (h : Q b s) : (pure b : Prog L Λ σ β).Ensures s Q := by
  intro b' s' hr
  cases hr
  exact h

theorem ensures_acquire {l : L} {mode : Mode} {f : Unit → Prog L Λ σ β} (h : (f ()).Ensures s Q) :
    (acquire l mode >>= f).Ensures s Q := h

theorem ensures_release {l : L} {f : Unit → Prog L Λ σ β} (h : (f ()).Ensures s Q) :
    (release l >>= f).Ensures s Q := h

theorem ensures_atomic {label : Option Λ} {g : σ → Option (γ × σ)} {f : γ → Prog L Λ σ β}
    (h : ∀ c s', g s = some (c, s') → (f c).Ensures s' Q) : (atomic label g >>= f).Ensures s Q :=
  Ensures.bind fun c s' hr => h c s' (by rwa [run_atomic] at hr)

theorem ensures_get {g : σ → γ} {f : γ → Prog L Λ σ β} (h : (f (g s)).Ensures s Q) :
    (get g >>= f).Ensures s Q := h

theorem ensures_modify {g : σ → σ} {f : Unit → Prog L Λ σ β} (h : (f ()).Ensures (g s) Q) :
    (modify g >>= f).Ensures s Q := h

end

end Prog
