import Mathlib.Data.List.Basic
import Mathlib.Data.Option.Basic

namespace Runs

variable {S S' C C' O : Type*}

/-- The answers to a sequence of calls and the state they leave; nothing when a call has no answer. -/
def run (step : S → C → Option (O × S)) : S → List C → Option (List O × S)
  | s, [] => some ([], s)
  | s, c :: cs =>
    match step s c with
    | none => none
    | some (o, s') => (run step s' cs).map fun x => (o :: x.1, x.2)

/-- Every call of the sequence is made in a state that allows it. -/
def Along (step : S → C → Option (O × S)) (G : S → C → Prop) : S → List C → Prop
  | _, [] => True
  | s, c :: cs =>
    G s c ∧
      match step s c with
      | none => True
      | some (_, s') => Along step G s' cs

instance Along.decidable (step : S → C → Option (O × S)) (G : S → C → Prop) [∀ s c, Decidable (G s c)] :
    ∀ s cs, Decidable (Along step G s cs)
  | _, [] => inferInstanceAs (Decidable True)
  | s, c :: cs =>
    @instDecidableAnd _ _ _ (match step s c with
      | none => inferInstanceAs (Decidable True)
      | some (_, s') => Along.decidable step G s' cs)

variable {step : S → C → Option (O × S)} {G G' : S → C → Prop}

theorem run_cons {s s' : S} {c : C} {o : O} (h : step s c = some (o, s')) (cs : List C) :
    run step s (c :: cs) = (run step s' cs).map fun x => (o :: x.1, x.2) := by
  rw [run, h]

theorem run_cons_eq_some {s s' : S} {c : C} {cs : List C} {os : List O}
    (h : run step s (c :: cs) = some (os, s')) :
    ∃ o os' s₁, step s c = some (o, s₁) ∧ run step s₁ cs = some (os', s') ∧ os = o :: os' := by
  rw [run] at h
  cases hs : step s c with
  | none =>
    rw [hs] at h
    cases h
  | some x =>
    obtain ⟨o, s₁⟩ := x
    simp only [hs, Option.map_eq_some_iff] at h
    obtain ⟨x, hx, he⟩ := h
    cases he
    exact ⟨o, x.1, s₁, rfl, hx, rfl⟩

theorem run_concat {s s' s'' : S} {c : C} {cs : List C} {o : O} {os : List O} (h : run step s cs = some (os, s'))
    (hc : step s' c = some (o, s'')) : run step s (cs ++ [c]) = some (os ++ [o], s'') := by
  induction cs generalizing s os with
  | nil =>
    cases h
    rw [List.nil_append, run_cons hc]
    rfl
  | cons d cs ih =>
    obtain ⟨o', os', s₁, hs, hr, rfl⟩ := run_cons_eq_some h
    rw [List.cons_append, run_cons hs, ih hr]
    rfl

theorem Along.mono (h : ∀ s c, G s c → G' s c) {s : S} {cs : List C} (ha : Along step G s cs) :
    Along step G' s cs := by
  induction cs generalizing s with
  | nil => trivial
  | cons c cs ih =>
    obtain ⟨hc, hcs⟩ := ha
    refine ⟨h s c hc, ?_⟩
    cases hs : step s c with
    | none => trivial
    | some x =>
      rw [hs] at hcs
      exact ih hcs

theorem Along.of_forall (h : ∀ s c, G s c) (s : S) (cs : List C) : Along step G s cs := by
  induction cs generalizing s with
  | nil => trivial
  | cons c cs ih =>
    refine ⟨h s c, ?_⟩
    cases step s c with
    | none => trivial
    | some x => exact ih x.2

theorem Along.and_of_mem {P : C → Prop} {s : S} {cs : List C} (h : ∀ c ∈ cs, P c) (ha : Along step G s cs) :
    Along step (fun s c => P c ∧ G s c) s cs := by
  induction cs generalizing s with
  | nil => trivial
  | cons c cs ih =>
    obtain ⟨hc, hcs⟩ := List.forall_mem_cons.mp h
    refine ⟨⟨hc, ha.1⟩, ?_⟩
    have hrest := ha.2
    cases hs : step s c with
    | none => trivial
    | some x =>
      rw [hs] at hrest
      exact ih hcs hrest

theorem Along.of_invariant {I : S → Prop} (hstep : ∀ s c o s', I s → G s c → step s c = some (o, s') → I s')
    (h : ∀ s c, I s → G s c → G' s c) {s : S} {cs : List C} (hi : I s) (ha : Along step G s cs) :
    Along step G' s cs := by
  induction cs generalizing s with
  | nil => trivial
  | cons c cs ih =>
    obtain ⟨hc, hcs⟩ := ha
    refine ⟨h s c hi hc, ?_⟩
    cases hs : step s c with
    | none => trivial
    | some x =>
      rw [hs] at hcs
      exact ih (hstep s c x.1 x.2 hi hc hs) hcs

theorem Along.of_append {s : S} {cs ds : List C} (h : Along step G s (cs ++ ds)) :
    Along step G s cs ∧ ∀ os s', run step s cs = some (os, s') → Along step G s' ds := by
  induction cs generalizing s with
  | nil =>
    refine ⟨trivial, fun os s' hr => ?_⟩
    cases hr
    exact h
  | cons c cs ih =>
    obtain ⟨hc, hcs⟩ := h
    cases hs : step s c with
    | none =>
      refine ⟨⟨hc, by rw [hs]; trivial⟩, fun os s' hr => ?_⟩
      rw [run, hs] at hr
      cases hr
    | some x =>
      rw [hs] at hcs
      obtain ⟨hl, hd⟩ := ih hcs
      refine ⟨⟨hc, by rw [hs]; exact hl⟩, fun os s' hr => ?_⟩
      obtain ⟨o, os', s₁, hs₁, hr', -⟩ := run_cons_eq_some hr
      rw [hs] at hs₁
      cases hs₁
      exact hd _ _ hr'

theorem run_invariant {I : S → Prop} {P : O → Prop}
    (hstep : ∀ s c o s', I s → G s c → step s c = some (o, s') → P o ∧ I s')
    {s s' : S} {cs : List C} {os : List O} (hi : I s) (ha : Along step G s cs)
    (hr : run step s cs = some (os, s')) : (∀ o ∈ os, P o) ∧ I s' := by
  induction cs generalizing s os with
  | nil =>
    cases hr
    exact ⟨by simp, hi⟩
  | cons c cs ih =>
    obtain ⟨hc, hcs⟩ := ha
    obtain ⟨o, os', s₁, hs, hr', rfl⟩ := run_cons_eq_some hr
    rw [hs] at hcs
    obtain ⟨ho, hi₁⟩ := hstep s c o s₁ hi hc hs
    obtain ⟨hos, hi'⟩ := ih hi₁ hcs hr'
    exact ⟨List.forall_mem_cons.mpr ⟨ho, hos⟩, hi'⟩

def Reaches (step : S → C → Option (O × S)) (G : S → C → Prop) (s s' : S) : Prop :=
  ∃ cs os, Along step G s cs ∧ run step s cs = some (os, s')

theorem Along.concat {s s' : S} {c : C} {cs : List C} {os : List O} (ha : Along step G s cs)
    (hr : run step s cs = some (os, s')) (hc : G s' c) : Along step G s (cs ++ [c]) := by
  induction cs generalizing s os with
  | nil =>
    cases hr
    refine ⟨hc, ?_⟩
    cases step s' c <;> trivial
  | cons d cs ih =>
    obtain ⟨hd, hcs⟩ := ha
    obtain ⟨o, os', s₁, hs, hr', -⟩ := run_cons_eq_some hr
    refine ⟨hd, ?_⟩
    rw [hs] at hcs ⊢
    exact ih hcs hr'

namespace Reaches

variable {s s' s'' : S}

theorem refl (s : S) : Reaches step G s s := ⟨[], [], trivial, rfl⟩

theorem mono (hg : ∀ s c, G s c → G' s c) (h : Reaches step G s s') : Reaches step G' s s' := by
  obtain ⟨cs, os, ha, hr⟩ := h
  exact ⟨cs, os, ha.mono hg, hr⟩

theorem call {c : C} {o : O} (h : Reaches step G s s') (hg : G s' c) (hc : step s' c = some (o, s'')) :
    Reaches step G s s'' := by
  obtain ⟨cs, os, ha, hr⟩ := h
  exact ⟨cs ++ [c], os ++ [o], ha.concat hr hg, run_concat hr hc⟩

theorem invariant {I : S → Prop} (hstep : ∀ s c o s', I s → G s c → step s c = some (o, s') → I s') (hi : I s)
    (h : Reaches step G s s') : I s' := by
  obtain ⟨cs, os, ha, hr⟩ := h
  exact (run_invariant (P := fun _ => True) (fun s c o s' hi hg hc => ⟨trivial, hstep s c o s' hi hg hc⟩) hi ha hr).2

end Reaches

/-- If every allowed call is answered as a second component answers its image, so is every run. -/
theorem run_simulation {step' : S' → C' → Option (O × S')} {R : S → S' → Prop} (f : C → C')
    (hstep : ∀ s t c, R s t → G s c →
      ∃ o s₁ t₁, step s c = some (o, s₁) ∧ step' t (f c) = some (o, t₁) ∧ R s₁ t₁)
    {s : S} {t : S'} {cs : List C} (hr : R s t) (ha : Along step G s cs) :
    ∃ os s₁ t₁, run step s cs = some (os, s₁) ∧ run step' t (cs.map f) = some (os, t₁) ∧ R s₁ t₁ := by
  induction cs generalizing s t with
  | nil => exact ⟨[], s, t, rfl, rfl, hr⟩
  | cons c cs ih =>
    obtain ⟨hc, hcs⟩ := ha
    obtain ⟨o, s₁, t₁, hs, ht, hr₁⟩ := hstep s t c hr hc
    rw [hs] at hcs
    obtain ⟨os, s₂, t₂, hs₂, ht₂, hr₂⟩ := ih hr₁ hcs
    refine ⟨o :: os, s₂, t₂, ?_, ?_, hr₂⟩
    · rw [run_cons hs, hs₂]
      rfl
    · rw [List.map_cons, run_cons ht, ht₂]
      rfl

section
variable {fine : S' → C → Option (O × S')} {view : S' → S} {Q : S' → C → Prop}
  (hview : ∀ x c o x', fine x c = some (o, x') → step (view x) c = some (o, view x'))
include hview

theorem run_view {x x' : S'} {cs : List C} {os : List O} (hr : run fine x cs = some (os, x')) :
    run step (view x) cs = some (os, view x') := by
  induction cs generalizing x os with
  | nil =>
    cases hr
    rfl
  | cons c cs ih =>
    obtain ⟨o, os', x₁, hc, hr', rfl⟩ := run_cons_eq_some hr
    rw [run_cons (hview x c o x₁ hc), ih hr']
    rfl

theorem Reaches.of_fine {x x' : S'} (h : Reaches fine (fun x c => G (view x) c) x x') :
    Reaches step G (view x) (view x') := by
  obtain ⟨cs, os, ha, hr⟩ := h
  refine ⟨cs, os, ?_, run_view hview hr⟩
  induction cs generalizing x os with
  | nil => trivial
  | cons c cs ih =>
    obtain ⟨o, os', x₁, hc, hr', rfl⟩ := run_cons_eq_some hr
    obtain ⟨hg, ha'⟩ := ha
    rw [hc] at ha'
    refine ⟨hg, ?_⟩
    rw [hview x c o x₁ hc]
    exact ih os' ha' hr'

theorem Along.to_fine {x : S'} {cs : List C} (ha : Along step G (view x) cs) :
    Along fine (fun x c => G (view x) c) x cs := by
  induction cs generalizing x with
  | nil => trivial
  | cons c cs ih =>
    obtain ⟨hg, ha'⟩ := ha
    refine ⟨hg, ?_⟩
    cases hc : fine x c with
    | none => trivial
    | some y =>
      rw [hview x c y.1 y.2 hc] at ha'
      exact ih ha'

theorem run_fine (hgo : ∀ x c, Q x c → (step (view x) c).isSome → (fine x c).isSome) {x : S'} {s : S} {cs : List C}
    {os : List O} (ha : Along fine Q x cs) (hr : run step (view x) cs = some (os, s)) :
    ∃ x', run fine x cs = some (os, x') ∧ view x' = s := by
  induction cs generalizing x os with
  | nil =>
    cases hr
    exact ⟨x, rfl, rfl⟩
  | cons c cs ih =>
    obtain ⟨o, os', s₁, hs, hr', rfl⟩ := run_cons_eq_some hr
    obtain ⟨hq, ha'⟩ := ha
    obtain ⟨⟨o', x₁⟩, hc⟩ := Option.isSome_iff_exists.mp (hgo x c hq (Option.isSome_of_eq_some hs))
    cases hs.symm.trans (hview x c o' x₁ hc)
    rw [hc] at ha'
    obtain ⟨x', hx, he⟩ := ih ha' hr'
    exact ⟨x', by rw [run_cons hc, hx]; rfl, he⟩

theorem Along.of_fine (hgo : ∀ x c, Q x c → (step (view x) c).isSome → (fine x c).isSome) {x : S'} {cs : List C}
    (ha : Along fine (fun x c => G (view x) c ∧ Q x c) x cs) : Along step G (view x) cs := by
  induction cs generalizing x with
  | nil => trivial
  | cons c cs ih =>
    obtain ⟨⟨hg, hq⟩, ha'⟩ := ha
    refine ⟨hg, ?_⟩
    cases hs : step (view x) c with
    | none => trivial
    | some y =>
      obtain ⟨⟨o, x₁⟩, hc⟩ := Option.isSome_iff_exists.mp (hgo x c hq (Option.isSome_of_eq_some hs))
      cases hs.symm.trans (hview x c o x₁ hc)
      rw [hc] at ha'
      exact ih ha'

end

/-- The calls of a second run stand to those of the first as `G` says, in the states of the first. -/
def AlongPair (step : S → C → Option (O × S)) (G : S → C → C → Prop) : S → List C → List C → Prop
  | _, [], [] => True
  | s, c :: cs, c' :: cs' =>
    G s c c' ∧
      match step s c with
      | none => True
      | some (_, s') => AlongPair step G s' cs cs'
  | _, _, _ => False

instance AlongPair.decidable (step : S → C → Option (O × S)) (G : S → C → C → Prop)
    [∀ s c c', Decidable (G s c c')] : ∀ s cs cs', Decidable (AlongPair step G s cs cs')
  | _, [], [] => inferInstanceAs (Decidable True)
  | s, c :: cs, _ :: cs' =>
    @instDecidableAnd _ _ _ (match step s c with
      | none => inferInstanceAs (Decidable True)
      | some (_, s') => AlongPair.decidable step G s' cs cs')
  | _, [], _ :: _ => inferInstanceAs (Decidable False)
  | _, _ :: _, [] => inferInstanceAs (Decidable False)

def observe (step : S → C → Option (O × S)) (p : S → C → Bool) : S → List C → List O
  | _, [] => []
  | s, c :: cs =>
    match step s c with
    | none => []
    | some (o, s') => if p s c then o :: observe step p s' cs else observe step p s' cs

theorem observe_congr_along {R : S → S → Prop} {G : S → C → C → Prop} {p : S → C → Bool}
    (hstep : ∀ s t c c', R s t → G s c c' → G' t c' → p s c = p t c' ∧
      Option.Rel (fun x y => R x.2 y.2 ∧ (p s c → x.1 = y.1)) (step s c) (step t c'))
    {s t : S} {cs cs' : List C} (hr : R s t) (ha : AlongPair step G s cs cs') (ha' : Along step G' t cs') :
    observe step p s cs = observe step p t cs' := by
  induction cs generalizing s t cs' with
  | nil =>
    cases cs' with
    | nil => rfl
    | cons c' cs' => exact ha.elim
  | cons c cs ih =>
    cases cs' with
    | nil => exact ha.elim
    | cons c' cs' =>
      obtain ⟨hc, hcs⟩ := ha
      obtain ⟨hc', hcs'⟩ := ha'
      obtain ⟨hp, hrel⟩ := hstep s t c c' hr hc hc'
      rw [observe, observe, ← hp]
      cases hs : step s c with
      | none =>
        cases ht : step t c' with
        | none => rfl
        | some y =>
          rw [hs, ht] at hrel
          cases hrel
      | some x =>
        cases ht : step t c' with
        | none =>
          rw [hs, ht] at hrel
          cases hrel
        | some y =>
          rw [hs, ht] at hrel
          rw [hs] at hcs
          rw [ht] at hcs'
          obtain ⟨hr', ho⟩ := Option.rel_some_some.mp hrel
          simp only [ih hr' hcs hcs']
          split
          · next hsel => rw [ho hsel]
          · rfl

theorem observe_congr {R : S → S → Prop} {G : S → C → C → Prop} {p : S → C → Bool}
    (hstep : ∀ s t c c', R s t → G s c c' → p s c = p t c' ∧
      Option.Rel (fun x y => R x.2 y.2 ∧ (p s c → x.1 = y.1)) (step s c) (step t c'))
    {s t : S} {cs cs' : List C} (hr : R s t) (ha : AlongPair step G s cs cs') :
    observe step p s cs = observe step p t cs' := by
  have hall : Along step (fun _ _ => True) t cs' := .of_forall (fun _ _ => trivial) t cs'
  exact observe_congr_along (fun s t c c' hr hg _ => hstep s t c c' hr hg) hr ha hall

end Runs
