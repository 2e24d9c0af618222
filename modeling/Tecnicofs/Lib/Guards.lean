import Tecnicofs.Lib.LockOrder
import Tecnicofs.Lib.Phases

variable {L Λ σ Ph C O β γ : Type} {P : Protocol Λ σ Ph C O} {N : Ph → L → Prop} {c : C} {ph : Ph}
  {held : List (L × Mode)}

def Secured (N : Ph → L → Prop) (ph : Ph) (held : List (L × Mode)) : Prop := ∀ l, N ph l → (l, .exclusive) ∈ held

namespace Prog

variable [DecidableEq L]

/-- The program follows the protocol, holds the locks that its phases need, and gives back only locks that it holds. -/
def Guards (P : Protocol Λ σ Ph C O) (N : Ph → L → Prop) (c : C) :
    Prog L Λ σ β → Ph → List (L × Mode) → (β → Ph → Prop) → Prop
  | ret b, ph, _, Q => Q b ph
  | lock l mode k, ph, held, Q => k.Guards P N c ph ((l, mode) :: held) Q
  | unlock l k, ph, held, Q =>
    (∃ x ∈ held, x.1 = l) ∧ Secured N ph (giveBack held l) ∧ k.Guards P N c ph (giveBack held l) Q
  | act label f k, ph, held, Q =>
    ∀ s b s', P.Knows c ph s → f s = some (b, s') →
      ∃ ph', P.Takes c ph label s s' ph' ∧ Secured N ph' held ∧ (k b).Guards P N c ph' held Q

variable {Q : β → Ph → Prop}

theorem guards_pure {b : β} (h : Q b ph) : (pure b : Prog L Λ σ β).Guards P N c ph held Q := h

theorem guards_acquire {l : L} {mode : Mode} {f : Unit → Prog L Λ σ β}
    (h : (f ()).Guards P N c ph ((l, mode) :: held) Q) : (acquire l mode >>= f).Guards P N c ph held Q := h

theorem guards_release {l : L} {f : Unit → Prog L Λ σ β} (hl : ∃ x ∈ held, x.1 = l)
    (hs : Secured N ph (giveBack held l)) (h : (f ()).Guards P N c ph (giveBack held l) Q) :
    (release l >>= f).Guards P N c ph held Q := ⟨hl, hs, h⟩

theorem guards_get {g : σ → γ} {f : γ → Prog L Λ σ β}
    (h : ∀ s, P.Knows c ph s →
      ∃ ph', P.Takes c ph none s s ph' ∧ Secured N ph' held ∧ (f (g s)).Guards P N c ph' held Q) :
    (get g >>= f).Guards P N c ph held Q := by
  intro s b s' hk hf
  cases hf
  exact h s hk

theorem guards_modify {g : σ → σ} {f : Unit → Prog L Λ σ β}
    (h : ∀ s, P.Knows c ph s →
      ∃ ph', P.Takes c ph none s (g s) ph' ∧ Secured N ph' held ∧ (f ()).Guards P N c ph' held Q) :
    (modify g >>= f).Guards P N c ph held Q := by
  intro s b s' hk hf
  cases hf
  exact h s hk

end Prog

namespace Protocol

variable [DecidableEq L] {n : Nat} {body : C → Prog L Λ σ O} {start : C → Ph} {p p' : Pool n L Λ σ C O}
  {phase : Fin n → Ph}

def Left (P : Protocol Λ σ Ph C O) (N : Ph → L → Prop) (x : Thread L Λ σ C O) (ph : Ph) : Prop :=
  ∀ c prog, x.current = some (c, prog) →
    Secured N ph x.held ∧ prog.Guards P N c ph x.held fun o ph => P.Returns c ph o

/-- Every thread follows the protocol with the locks that its phase needs, and no two threads have one lock. -/
structure Guarded (P : Protocol Λ σ Ph C O) (N : Ph → L → Prop) (p : Pool n L Λ σ C O) (phase : Fin n → Ph) : Prop where
  left : ∀ t, P.Left N (p.thread t) (phase t)
  exclusion : p.Exclusion

theorem Guarded.alone (h : P.Guarded N p phase) {t u : Fin n} (ht : (p.thread t).current ≠ none)
    (hu : (p.thread u).current ≠ none) {l : L} (hl : N (phase t) l) (hl' : N (phase u) l) : u = t := by
  obtain ⟨x, hx⟩ := Option.ne_none_iff_exists'.mp ht
  obtain ⟨y, hy⟩ := Option.ne_none_iff_exists'.mp hu
  by_contra hne
  exact h.exclusion.apart t u hne _ ((h.left t _ _ hx).1 l hl) ⟨_, (h.left u _ _ hy).1 l hl', rfl, trivial⟩

theorem Guarded.update (h : P.Guarded N p phase) {t : Fin n} {x : Thread L Λ σ C O} {ph : Ph}
    (hp : p'.thread = Function.update p.thread t x) (hx : P.Left N x ph) (he : p'.Exclusion) :
    P.Guarded N p' (Function.update phase t ph) := by
  refine ⟨fun u => ?_, he⟩
  rw [hp]
  by_cases hu : u = t
  · subst hu
    rwa [Function.update_self, Function.update_self]
  · rw [Function.update_of_ne hu, Function.update_of_ne hu]
    exact h.left u

theorem Guarded.stay (h : P.Guarded N p phase) {t : Fin n} {x : Thread L Λ σ C O}
    (hp : p'.thread = Function.update p.thread t x) (hx : P.Left N x (phase t)) (he : p'.Exclusion) :
    P.Guarded N p' phase := by
  have hsame := h.update hp hx he
  rwa [Function.update_eq_self] at hsame

theorem Guarded.step (h : P.Guarded N p phase)
    (hk : ∀ t c prog, (p.thread t).current = some (c, prog) → P.Knows c (phase t) p.state) {e : Pool.Event n C}
    (hbody : ∀ t c, e = .start t c → P.Left N ⟨some (c, body c), (p.thread t).held⟩ (start c))
    (hm : Pool.Moves body p e p') : ∃ phase', P.Moves start p phase e p' phase' ∧ P.Guarded N p' phase' := by
  have hex := h.exclusion.step (fun t c l k hc => (h.left t c _ hc).2.1) hm
  cases hm with
  | @start t c hc => exact ⟨_, .start hc rfl rfl rfl, h.update rfl (hbody t c rfl) hex⟩
  | @ret t c o hc =>
    exact ⟨phase, .ret hc rfl rfl (h.left t c _ hc).2 rfl, h.stay rfl (fun c' prog hp => by cases hp) hex⟩
  | @lock t c l mode k hc _ =>
    obtain ⟨hs, hg⟩ := h.left t c _ hc
    refine ⟨phase, .silent hc rfl rfl rfl, h.stay rfl (fun c' prog hp => ?_) hex⟩
    cases hp
    exact ⟨fun l' hl' => List.mem_cons_of_mem _ (hs l' hl'), hg⟩
  | @unlock t c l k hc =>
    obtain ⟨-, -, hg⟩ := h.left t c _ hc
    refine ⟨phase, .silent hc rfl rfl rfl, h.stay rfl (fun c' prog hp => ?_) hex⟩
    cases hp
    exact hg
  | @act t c γ label f k x hc hx =>
    obtain ⟨-, hg⟩ := h.left t c _ hc
    obtain ⟨ph', ht, hs, hk'⟩ := hg p.state x.1 x.2 (hk t c _ hc) hx
    refine ⟨_, .act hc rfl ht rfl, h.update rfl (fun c' prog hp => ?_) hex⟩
    cases hp
    exact ⟨hs, hk'⟩

end Protocol
