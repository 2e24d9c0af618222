import Tecnicofs.Lib.Pool

/-- What the thread of a call knows in a phase, the labels it may use, what its actions do to the state and its phase,
and the phases it may return in. -/
structure Protocol (Λ σ Ph C O : Type) where
  Knows : C → Ph → σ → Prop
  Allows : C → Ph → Λ → Prop
  Takes : C → Ph → Option Λ → σ → σ → Ph → Prop
  Returns : C → Ph → O → Prop

variable {L Λ σ Ph C O α β γ : Type} {P : Protocol Λ σ Ph C O} {c : C} {ph : Ph} {s : σ}

namespace Prog

/-- The actions of the program, in states where it knows what its phase says, are those of the protocol. -/
def Follows (P : Protocol Λ σ Ph C O) (c : C) : Prog L Λ σ β → Ph → (β → Ph → Prop) → Prop
  | ret b, ph, Q => Q b ph
  | lock _ _ k, ph, Q | unlock _ k, ph, Q => k.Follows P c ph Q
  | act label f k, ph, Q =>
    (∀ l ∈ label, P.Allows c ph l) ∧
      ∀ s b s', P.Knows c ph s → f s = some (b, s') → ∃ ph', P.Takes c ph label s s' ph' ∧ (k b).Follows P c ph' Q

variable {Q Q' : β → Ph → Prop}

theorem Follows.mono {p : Prog L Λ σ β} (h : p.Follows P c ph Q) (hQ : ∀ b ph, Q b ph → Q' b ph) :
    p.Follows P c ph Q' := by
  induction p generalizing ph with
  | ret b => exact hQ b ph h
  | lock l mode k ih => exact ih h
  | unlock l k ih => exact ih h
  | act label f k ih =>
    refine ⟨h.1, fun s b s' hk hf => ?_⟩
    obtain ⟨ph', ht, hp⟩ := h.2 s b s' hk hf
    exact ⟨ph', ht, ih b hp⟩

theorem Follows.bind {p : Prog L Λ σ α} {f : α → Prog L Λ σ β} (h : p.Follows P c ph fun a ph => (f a).Follows P c ph Q) :
    (p >>= f).Follows P c ph Q := by
  change (p.bind f).Follows P c ph Q
  induction p generalizing ph with
  | ret a => exact h
  | lock l mode k ih => exact ih h
  | unlock l k ih => exact ih h
  | act label g k ih =>
    refine ⟨h.1, fun s b s' hk hg => ?_⟩
    obtain ⟨ph', ht, hp⟩ := h.2 s b s' hk hg
    exact ⟨ph', ht, ih b hp⟩

theorem follows_pure {b : β} (h : Q b ph) : (pure b : Prog L Λ σ β).Follows P c ph Q := h

theorem follows_acquire {l : L} {mode : Mode} {f : Unit → Prog L Λ σ β} (h : (f ()).Follows P c ph Q) :
    (acquire l mode >>= f).Follows P c ph Q := h

theorem follows_release {l : L} {f : Unit → Prog L Λ σ β} (h : (f ()).Follows P c ph Q) :
    (release l >>= f).Follows P c ph Q := h

theorem follows_atomic {label : Option Λ} {g : σ → Option (γ × σ)} {f : γ → Prog L Λ σ β}
    (hl : ∀ l ∈ label, P.Allows c ph l)
    (h : ∀ s b s', P.Knows c ph s → g s = some (b, s') →
      ∃ ph', P.Takes c ph label s s' ph' ∧ (f b).Follows P c ph' Q) :
    (atomic label g >>= f).Follows P c ph Q := ⟨hl, h⟩

theorem follows_get {g : σ → γ} {f : γ → Prog L Λ σ β}
    (h : ∀ s, P.Knows c ph s → ∃ ph', P.Takes c ph none s s ph' ∧ (f (g s)).Follows P c ph' Q) :
    (get g >>= f).Follows P c ph Q := by
  refine ⟨fun l hl => (by cases hl), fun s b s' hk hf => ?_⟩
  cases hf
  exact h s hk

theorem follows_modify {g : σ → σ} {f : Unit → Prog L Λ σ β}
    (h : ∀ s, P.Knows c ph s → ∃ ph', P.Takes c ph none s (g s) ph' ∧ (f ()).Follows P c ph' Q) :
    (modify g >>= f).Follows P c ph Q := by
  refine ⟨fun l hl => (by cases hl), fun s b s' hk hf => ?_⟩
  cases hf
  exact h s hk

theorem Follows.assumes {p : Prog L Λ σ β} {A : Λ → σ → Prop} {S : Ph → Prop} (h : p.Follows P c ph Q) (hS : S ph)
    (hk : P.Knows c ph s) (hA : ∀ ph l s, S ph → P.Allows c ph l → A l s)
    (hclosed : ∀ ph label s s' ph', S ph → P.Knows c ph s → P.Takes c ph label s s' ph' → S ph' ∧ P.Knows c ph' s') :
    p.Assumes A s := by
  induction p generalizing ph s with
  | ret b => trivial
  | lock l mode k ih => exact ih h hS hk
  | unlock l k ih => exact ih h hS hk
  | act label f k ih =>
    rw [Assumes]
    refine ⟨fun l hl => hA ph l s hS (h.1 l hl), ?_⟩
    cases hf : f s with
    | none => trivial
    | some x =>
      obtain ⟨ph', ht, hp⟩ := h.2 s x.1 x.2 hk hf
      obtain ⟨hS', hk'⟩ := hclosed ph label s x.2 ph' hS hk ht
      exact ih x.1 hp hS' hk'

end Prog

namespace Protocol

variable {n : Nat} {body : C → Prog L Λ σ O} {start : C → Ph} {p p' : Pool n L Λ σ C O}
  {phase : Fin n → Ph}

def Followed (P : Protocol Λ σ Ph C O) (p : Pool n L Λ σ C O) (phase : Fin n → Ph) : Prop :=
  ∀ t c prog, (p.thread t).current = some (c, prog) → prog.Follows P c (phase t) fun o ph => P.Returns c ph o

/-- What a step does to the calls that are running, to the state, to the phases and to the calls that returned. -/
inductive Moves (P : Protocol Λ σ Ph C O) (start : C → Ph) (p : Pool n L Λ σ C O) (phase : Fin n → Ph) :
    Pool.Event n C → Pool n L Λ σ C O → (Fin n → Ph) → Prop
  | start {t : Fin n} {c : C} {prog : Prog L Λ σ O} {held : List (L × Mode)} {p' : Pool n L Λ σ C O}
      (hc : (p.thread t).current = none) (hp : p'.thread = Function.update p.thread t ⟨some (c, prog), held⟩)
      (hs : p'.state = p.state) (hh : p'.history = p.history) :
      Moves P start p phase (.start t c) p' (Function.update phase t (start c))
  | silent {t : Fin n} {c : C} {prog prog' : Prog L Λ σ O} {held : List (L × Mode)} {p' : Pool n L Λ σ C O}
      (hc : (p.thread t).current = some (c, prog))
      (hp : p'.thread = Function.update p.thread t ⟨some (c, prog'), held⟩)
      (hs : p'.state = p.state) (hh : p'.history = p.history) : Moves P start p phase (.step t) p' phase
  | act {t : Fin n} {c : C} {γ : Type} {label : Option Λ} {f : σ → Option (γ × σ)} {k : γ → Prog L Λ σ O}
      {prog' : Prog L Λ σ O} {held : List (L × Mode)} {p' : Pool n L Λ σ C O} {ph' : Ph}
      (hc : (p.thread t).current = some (c, .act label f k))
      (hp : p'.thread = Function.update p.thread t ⟨some (c, prog'), held⟩)
      (ht : P.Takes c (phase t) label p.state p'.state ph') (hh : p'.history = p.history) :
      Moves P start p phase (.step t) p' (Function.update phase t ph')
  | ret {t : Fin n} {c : C} {o : O} {prog : Prog L Λ σ O} {held : List (L × Mode)} {p' : Pool n L Λ σ C O}
      (hc : (p.thread t).current = some (c, prog)) (hp : p'.thread = Function.update p.thread t ⟨none, held⟩)
      (hs : p'.state = p.state) (ho : P.Returns c (phase t) o) (hh : p'.history = p.history ++ [(t, c, o)]) :
      Moves P start p phase (.step t) p' phase

theorem Followed.update (h : P.Followed p phase) {t : Fin n} {x : Thread L Λ σ C O} {ph : Ph}
    (hp : p'.thread = Function.update p.thread t x)
    (hx : ∀ c prog, x.current = some (c, prog) → prog.Follows P c ph fun o ph => P.Returns c ph o) :
    P.Followed p' (Function.update phase t ph) := by
  intro u c prog hc
  by_cases hu : u = t
  · subst hu
    rw [hp, Function.update_self] at hc
    rw [Function.update_self]
    exact hx c prog hc
  · rw [hp, Function.update_of_ne hu] at hc
    rw [Function.update_of_ne hu]
    exact h u c prog hc

theorem Followed.stay (h : P.Followed p phase) {t : Fin n} {x : Thread L Λ σ C O}
    (hp : p'.thread = Function.update p.thread t x)
    (hx : ∀ c prog, x.current = some (c, prog) → prog.Follows P c (phase t) fun o ph => P.Returns c ph o) :
    P.Followed p' phase := by
  have hsame := h.update hp hx
  rwa [Function.update_eq_self] at hsame

variable [DecidableEq L]

theorem Followed.step (h : P.Followed p phase)
    (hk : ∀ t c prog, (p.thread t).current = some (c, prog) → P.Knows c (phase t) p.state) {e : Pool.Event n C}
    (hbody : ∀ t c, e = .start t c → (body c).Follows P c (start c) fun o ph => P.Returns c ph o)
    (hm : Pool.Moves body p e p') : ∃ phase', P.Moves start p phase e p' phase' ∧ P.Followed p' phase' := by
  cases hm with
  | @start t c hc =>
    refine ⟨_, .start hc rfl rfl rfl, h.update rfl fun c' prog hp => ?_⟩
    cases hp
    exact hbody t c rfl
  | @ret t c o hc => exact ⟨phase, .ret hc rfl rfl (h t c _ hc) rfl, h.stay rfl fun c' prog hp => by cases hp⟩
  | @lock t c l mode k hc _ =>
    have hf := h t c _ hc
    refine ⟨phase, .silent hc rfl rfl rfl, h.stay rfl fun c' prog hp => ?_⟩
    cases hp
    exact hf
  | @unlock t c l k hc =>
    have hf := h t c _ hc
    refine ⟨phase, .silent hc rfl rfl rfl, h.stay rfl fun c' prog hp => ?_⟩
    cases hp
    exact hf
  | @act t c γ label f k x hc hx =>
    obtain ⟨ph', ht, hp'⟩ := (h t c _ hc).2 p.state x.1 x.2 (hk t c _ hc) hx
    refine ⟨_, .act hc rfl ht rfl, h.update rfl fun c' prog hp => ?_⟩
    cases hp
    exact hp'

end Protocol
