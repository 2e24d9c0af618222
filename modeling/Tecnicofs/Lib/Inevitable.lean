import Mathlib.Data.DFinsupp.WellFounded
import Tecnicofs.Lib.LockOrder

namespace Runs

variable {S C O : Type*} {step : S → C → Option (O × S)} {G : S → C → Prop} {Q : S → Prop}

/-- Whatever allowed calls are made, after finitely many no other has an answer, and then `Q` holds. -/
inductive Inevitable (step : S → C → Option (O × S)) (G : S → C → Prop) (Q : S → Prop) : S → Prop
  | intro {s : S} (hend : (∀ c, G s c → step s c = none) → Q s)
      (hnext : ∀ c o s', G s c → step s c = some (o, s') → Inevitable step G Q s') : Inevitable step G Q s

theorem Inevitable.of_wellFounded {r : S → S → Prop} (hr : WellFounded r) {I : S → Prop}
    (hstep : ∀ s c o s', I s → G s c → step s c = some (o, s') → r s' s ∧ I s')
    (hend : ∀ s, I s → (∀ c, G s c → step s c = none) → Q s) {s : S} (hi : I s) : Inevitable step G Q s := by
  induction s using hr.induction with
  | h s ih =>
    refine ⟨hend s hi, fun c o s' hg hs => ?_⟩
    obtain ⟨hlt, hi'⟩ := hstep s c o s' hi hg hs
    exact ih s' hlt hi'

theorem Inevitable.exists_run {s : S} (h : Inevitable step G Q s) :
    ∃ cs os s', Along step G s cs ∧ run step s cs = some (os, s') ∧ Q s' := by
  induction h with
  | @intro s hend hnext ih =>
    by_cases hno : ∀ c, G s c → step s c = none
    · exact ⟨[], [], s, trivial, rfl, hend hno⟩
    · push Not at hno
      obtain ⟨c, hg, hs⟩ := hno
      obtain ⟨⟨o, s₁⟩, hs⟩ := Option.ne_none_iff_exists'.mp hs
      obtain ⟨cs, os, s', ha, hr, hq⟩ := ih c o s₁ hg hs
      exact ⟨c :: cs, o :: os, s', ⟨hg, by rw [hs]; exact ha⟩, by rw [run_cons hs, hr]; rfl, hq⟩

end Runs

variable {n : Nat} {L Λ σ C O : Type}

namespace Prog

inductive Shorter : Option (C × Prog L Λ σ O) → Option (C × Prog L Λ σ O) → Prop
  | ret {c : C} {o : O} : Shorter none (some (c, ret o))
  | lock {c : C} {l : L} {mode : Mode} {k : Prog L Λ σ O} : Shorter (some (c, k)) (some (c, lock l mode k))
  | unlock {c : C} {l : L} {k : Prog L Λ σ O} : Shorter (some (c, k)) (some (c, unlock l k))
  | act {c : C} {γ : Type} {label : Option Λ} {f : σ → Option (γ × σ)} {k : γ → Prog L Λ σ O} {b : γ} :
      Shorter (some (c, k b)) (some (c, act label f k))

theorem shorter_wellFounded : WellFounded (Shorter (C := C) (L := L) (Λ := Λ) (σ := σ) (O := O)) := by
  have hnone : Acc Shorter (none : Option (C × Prog L Λ σ O)) := ⟨_, fun _ h => nomatch h⟩
  refine ⟨fun x => ?_⟩
  cases x with
  | none => exact hnone
  | some x =>
    obtain ⟨c, p⟩ := x
    induction p with
    | ret o => exact ⟨_, fun y h => by cases h; exact hnone⟩
    | lock l mode k ih => exact ⟨_, fun y h => by cases h; exact ih⟩
    | unlock l k ih => exact ⟨_, fun y h => by cases h; exact ih⟩
    | act label f k ih => exact ⟨_, fun y h => by cases h; exact ih _⟩

def Total : Prog L Λ σ O → Prop
  | ret _ => True
  | lock _ _ k | unlock _ k => k.Total
  | act _ f k => (∀ s, f s ≠ none) ∧ ∀ c, (k c).Total

end Prog

namespace Pool

variable {A : Λ → σ → Prop} {I : Pool n L Λ σ C O → Prop} {p p' : Pool n L Λ σ C O}

def currents (p : Pool n L Λ σ C O) (t : Fin n) : Option (C × Prog L Λ σ O) := (p.thread t).current

def Nearer : Pool n L Λ σ C O → Pool n L Λ σ C O → Prop :=
  InvImage (Pi.Lex (· < ·) fun {_} => Prog.Shorter) currents

theorem nearer_wellFounded : WellFounded (Nearer (n := n) (L := L) (Λ := Λ) (σ := σ) (C := C) (O := O)) :=
  InvImage.wf currents (Pi.Lex.wellFounded (· < ·) fun _ => Prog.shorter_wellFounded)

theorem nearer_of_thread {t : Fin n} {x : Thread L Λ σ C O} (hp : p'.thread = Function.update p.thread t x)
    (hx : Prog.Shorter x.current (p.thread t).current) : Nearer p' p := by
  refine ⟨t, fun u hu => ?_, ?_⟩
  · rw [currents, currents, hp, Function.update_of_ne (ne_of_lt hu)]
  · rw [currents, currents, hp, Function.update_self]
    exact hx

variable [DecidableEq L] {body : C → Prog L Λ σ O}

theorem nearer_of_moves {t : Fin n} (hm : Moves body p (.step t) p') : Nearer p' p := by
  cases hm with
  | ret hc => exact nearer_of_thread rfl (by rw [hc]; exact .ret)
  | lock hc => exact nearer_of_thread rfl (by rw [hc]; exact .lock)
  | unlock hc => exact nearer_of_thread rfl (by rw [hc]; exact .unlock)
  | act hc => exact nearer_of_thread rfl (by rw [hc]; exact .act)

def Goes (A : Λ → σ → Prop) (p : Pool n L Λ σ C O) : Event n C → Prop
  | .start _ _ => False
  | .step t => p.Assumes A (.step t)

def Returned (A : Λ → σ → Prop) (p : Pool n L Λ σ C O) : Prop :=
  (∀ t, (p.thread t).current = none) ∨ ∃ t, ¬ p.Assumes A (.step t)

def Defined (A : Λ → σ → Prop) (p : Pool n L Λ σ C O) : Prop :=
  ∀ (t : Fin n) (c : C) (γ : Type) (label : Option Λ) (f : σ → Option (γ × σ)) (k : γ → Prog L Λ σ O),
    (p.thread t).current = some (c, .act label f k) → (∀ l ∈ label, A l p.state) → f p.state ≠ none

theorem exists_waitsFor (hheld : ∀ t, (p.thread t).current = none → (p.thread t).held = []) (hdef : p.Defined A)
    {t : Fin n} (ht : (p.thread t).current ≠ none) (ha : p.Assumes A (.step t)) (hstop : step body p (.step t) = none) :
    ∃ u, (p.thread u).current ≠ none ∧ p.WaitsFor t u := by
  have hthread : p.stepThread t = none := Option.map_eq_none_iff.mp hstop
  obtain ⟨⟨c, prog⟩, hc⟩ := Option.ne_none_iff_exists'.mp ht
  rw [stepThread, hc] at hthread
  cases prog with
  | ret o => cases hthread
  | unlock l k => cases hthread
  | lock l mode k =>
    by_cases hb : p.broken l = false ∧ ∃ u, u ≠ t ∧ p.Blocks u l mode
    · obtain ⟨-, u, hne, hu⟩ := hb
      refine ⟨u, fun hnone => ?_, c, l, mode, k, hc, hne, hu⟩
      obtain ⟨x, hx, -⟩ := hu
      rw [hheld u hnone] at hx
      cases hx
    · simp only [if_neg hb] at hthread
      cases hthread
  | act label f k =>
    refine absurd (Option.map_eq_none_iff.mp hthread) (hdef t c _ label f k hc fun l hl => ?_)
    cases hl
    rw [Assumes, hc] at ha
    exact ha

theorem returned_of_stopped (hheld : ∀ t, (p.thread t).current = none → (p.thread t).held = []) (hdef : p.Defined A)
    (hdead : ¬ p.Deadlocked) (hstop : ∀ e, p.Goes A e → step body p e = none) : p.Returned A := by
  by_contra hno
  obtain ⟨hbusy, hall⟩ := not_or.mp hno
  have hall : ∀ t, p.Assumes A (.step t) := fun t => by_contra fun ha => hall ⟨t, ha⟩
  obtain ⟨t, ht⟩ := not_forall.mp hbusy
  classical
  refine hdead ⟨Finset.univ.filter fun t => (p.thread t).current ≠ none, ⟨t, by simpa using ht⟩, fun u hu => ?_⟩
  obtain ⟨v, hv, hw⟩ := exists_waitsFor hheld hdef (by simpa using hu) (hall u) (hstop (.step u) (hall u))
  exact ⟨v, by simpa using hv, hw⟩

/-- Threads whose locks have an order and whose actions are defined come to the end of their calls. -/
theorem inevitably_returned (hstep : ∀ p t p', I p → p.Assumes A (.step t) → Moves body p (.step t) p' → I p')
    (hheld : ∀ p, I p → ∀ t, (p.thread t).current = none → (p.thread t).held = []) (hdef : ∀ p, I p → p.Defined A)
    (hdead : ∀ p, I p → ¬ p.Deadlocked) (hi : I p) : Runs.Inevitable (step body) (Goes A) (Returned A) p := by
  refine .of_wellFounded nearer_wellFounded (I := I) (fun q e o q' hq hg hs => ?_)
    (fun q hq => returned_of_stopped (hheld q hq) (hdef q hq) (hdead q hq)) hi
  cases e with
  | start t c => exact hg.elim
  | step t =>
    have hm := moves_of_step hs
    exact ⟨nearer_of_moves hm, hstep q t q' hq hg hm⟩

def Total (p : Pool n L Λ σ C O) : Prop := ∀ t c prog, (p.thread t).current = some (c, prog) → prog.Total

theorem Total.step (h : p.Total) {e : Event n C} (hbody : ∀ c, (body c).Total) (hm : Moves body p e p') : p'.Total := by
  have next : ∀ {t : Fin n} {x : Thread L Λ σ C O} {q : Pool n L Λ σ C O}, q.thread = Function.update p.thread t x →
      (∀ c prog, x.current = some (c, prog) → prog.Total) → q.Total := by
    intro t x q hq hx u c prog hc
    rw [hq] at hc
    by_cases hu : u = t
    · rw [hu, Function.update_self] at hc
      exact hx c prog hc
    · rw [Function.update_of_ne hu] at hc
      exact h u c prog hc
  cases hm with
  | start c hc => exact next rfl fun c' prog he => by cases he; exact hbody c
  | ret hc => exact next rfl fun c' prog he => by cases he
  | @lock t c l mode k hc hf =>
    have hk : (Prog.lock l mode k).Total := h t c _ hc
    exact next rfl fun c' prog he => by cases he; exact hk
  | @unlock t c l k hc =>
    have hk : (Prog.unlock l k).Total := h t c _ hc
    exact next rfl fun c' prog he => by cases he; exact hk
  | act hc hx => exact next rfl fun c' prog he => by cases he; exact (h _ _ _ hc).2 _

/-- Threads with total programs that hold no lock when they take one end their calls in some order of their steps. -/
theorem exists_idle (htotal : p.Total) (hbody : ∀ c, (body c).Total)
    (hd : p.Disciplined (fun _ _ => True) (fun _ => True) fun held _ _ => held = []) :
    ∃ es outs p', Runs.Along (step body) (Goes fun _ _ => True) p es ∧ Runs.run (step body) p es = some (outs, p') ∧
      ∀ t, (p'.thread t).current = none := by
  have hall : ∀ (q : Pool n L Λ σ C O) t, q.Assumes (fun _ _ => True) (.step t) := fun q t => by
    rw [Assumes]
    split <;> trivial
  have hend : Runs.Inevitable (step body) (Goes fun _ _ => True) (Returned fun _ _ => True) p := inevitably_returned
    (I := fun q => q.Total ∧ q.Disciplined (fun _ _ => True) (fun _ => True) fun held _ _ => held = [])
    (fun q t q' hq _ hm => ⟨hq.1.step hbody hm, hq.2.step (fun _ _ he => by cases he) (hall q t) hm⟩)
    (fun q hq t hc => by simpa [hc] using hq.2.thread t)
    (fun q hq t c _ _ f k hc _ => (hq.1 t c _ hc).1 q.state)
    (fun q hq => hq.2.no_deadlock (fun _ => 0) fun held _ _ hok x hx => by simp [hok] at hx) ⟨htotal, hd⟩
  obtain ⟨es, outs, p', ha, hr, hret⟩ := hend.exists_run
  exact ⟨es, outs, p', ha, hr, hret.resolve_right fun ⟨t, hno⟩ => hno (hall p' t)⟩

end Pool
