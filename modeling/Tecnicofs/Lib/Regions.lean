import Tecnicofs.Lib.LockOrder

/-! Locks that protect parts of a state, programs that change only what they have locked, and why the calls of many
threads are then answered as in some serial order. -/

/-- The state of the programs, what proofs add to it, and the abstract state it stands for. -/
structure World (σ X A : Type) where
  state : σ
  ghost : X
  abs : A

/-- What each lock protects: `Same l` compares this part of two worlds, and `Inv l` holds of it while no thread has
`l` locked exclusively.  `Global` holds always, and `spec` answers calls on the abstract state. -/
structure Regions (L Λ σ X A C O : Type) where
  allows : Λ → σ → Prop
  spec : A → C → Option (O × A)
  Same : L → World σ X A → World σ X A → Prop
  Inv : L → World σ X A → Prop
  Global : World σ X A → Prop
  same_refl : ∀ l w, Same l w w
  same_trans : ∀ l w₁ w₂ w₃, Same l w₁ w₂ → Same l w₂ w₃ → Same l w₁ w₃
  inv_of_same : ∀ l w w', Same l w w' → Inv l w → Inv l w'

namespace Regions

variable {L Λ σ X A C O : Type} {R : Regions L Λ σ X A C O} {c : C} {held : List (L × Mode)} {lin lin' : Option O}
  {w w' w'' : World σ X A}

def Rely (R : Regions L Λ σ X A C O) (held : List (L × Mode)) (w w' : World σ X A) : Prop :=
  ∀ x ∈ held, R.Same x.1 w w'

def Guar (R : Regions L Λ σ X A C O) (held : List (L × Mode)) (w w' : World σ X A) : Prop :=
  ∀ l, (l, .exclusive) ∉ held → R.Same l w w'

/-- The abstract state stays, or the call takes effect on it, once, with its final answer. -/
def Takes (R : Regions L Λ σ X A C O) (c : C) (w w' : World σ X A) (lin lin' : Option O) : Prop :=
  w'.abs = w.abs ∧ lin' = lin ∨ lin = none ∧ ∃ o, R.spec w.abs c = some (o, w'.abs) ∧ lin' = some o

theorem Rely.refl : R.Rely held w w := fun _ _ => R.same_refl _ _

theorem Rely.trans (h : R.Rely held w w') (h' : R.Rely held w' w'') : R.Rely held w w'' :=
  fun x hx => R.same_trans _ _ _ _ (h x hx) (h' x hx)

theorem Rely.mono {held' : List (L × Mode)} (h : R.Rely held w w') (hs : held' ⊆ held) : R.Rely held' w w' :=
  fun x hx => h x (hs hx)

theorem Guar.mono {held' : List (L × Mode)} (h : R.Guar held w w') (hs : held ⊆ held') : R.Guar held' w w' :=
  fun l hl => h l fun hm => hl (hs hm)

theorem Guar.refl : R.Guar held w w := fun _ _ => R.same_refl _ _

theorem Takes.refl : R.Takes c w w lin lin := .inl ⟨rfl, rfl⟩

theorem Takes.trans {lin'' : Option O} (h : R.Takes c w w' lin lin') (h' : R.Takes c w' w'' lin' lin'') :
    R.Takes c w w'' lin lin'' := by
  rcases h with ⟨ha, rfl⟩ | ⟨rfl, o, hs, rfl⟩
  · unfold Takes
    rwa [← ha]
  · rcases h' with ⟨ha, rfl⟩ | ⟨hn, -⟩
    · exact .inr ⟨rfl, o, by rw [ha, hs], rfl⟩
    · cases hn

end Regions

namespace Prog

variable {L Λ σ X A C O α β γ : Type} [DecidableEq L]

/-- Whatever the others do with what is not locked, the program changes only what it has locked, restores what it
gives back, takes effect at most once, and ends with `Q`. -/
def Meets (R : Regions L Λ σ X A C O) (c : C) : Prog L Λ σ β → List (L × Mode) → Option O → World σ X A →
    (β → List (L × Mode) → Option O → World σ X A → Prop) → Prop
  | ret b, held, lin, w, Q => ∀ w', R.Rely held w w' → Q b held lin w'
  | lock l mode k, held, lin, w, Q =>
    (∀ x ∈ held, x.1 ≠ l) ∧
      ∀ w', R.Rely held w w' → R.Global w' → R.Inv l w' → k.Meets R c ((l, mode) :: held) lin w' Q
  | unlock l k, held, lin, w, Q =>
    (∃ x ∈ held, x.1 = l) ∧
      ∀ w', R.Rely held w w' → R.Global w' → R.Inv l w' ∧ k.Meets R c (giveBack held l) lin w' Q
  | act label f k, held, lin, w, Q =>
    ∀ w', R.Rely held w w' → R.Global w' → (∀ l ∈ label, R.allows l w'.state) →
      ∃ b w'' lin', f w'.state = some (b, w''.state) ∧ R.Global w'' ∧ R.Guar held w' w'' ∧
        R.Takes c w' w'' lin lin' ∧ (k b).Meets R c held lin' w'' Q

variable {R : Regions L Λ σ X A C O} {c : C} {held : List (L × Mode)} {lin : Option O} {w w' : World σ X A}
  {Q Q' : β → List (L × Mode) → Option O → World σ X A → Prop}

theorem Meets.rely {p : Prog L Λ σ β} (h : p.Meets R c held lin w Q) (hr : R.Rely held w w') :
    p.Meets R c held lin w' Q := by
  cases p with
  | ret b => exact fun w'' hr' => h w'' (hr.trans hr')
  | lock l mode k => exact ⟨h.1, fun w'' hr' => h.2 w'' (hr.trans hr')⟩
  | unlock l k => exact ⟨h.1, fun w'' hr' => h.2 w'' (hr.trans hr')⟩
  | act label f k => exact fun w'' hr' => h w'' (hr.trans hr')

theorem Meets.bind {p : Prog L Λ σ α} {f : α → Prog L Λ σ β}
    (h : p.Meets R c held lin w fun a held lin w => (f a).Meets R c held lin w Q) :
    (p >>= f).Meets R c held lin w Q := by
  change (p.bind f).Meets R c held lin w Q
  induction p generalizing held lin w with
  | ret a => exact h w .refl
  | lock l mode k ih => exact ⟨h.1, fun w' hr hg hi => ih (h.2 w' hr hg hi)⟩
  | unlock l k ih => exact ⟨h.1, fun w' hr hg => (h.2 w' hr hg).imp_right ih⟩
  | act label g k ih =>
    intro w' hr hg hl
    obtain ⟨b, w'', lin', hf, hg', hgu, ht, hk⟩ := h w' hr hg hl
    exact ⟨b, w'', lin', hf, hg', hgu, ht, ih b hk⟩

theorem meets_pure {b : β} (h : ∀ w', R.Rely held w w' → Q b held lin w') :
    (pure b : Prog L Λ σ β).Meets R c held lin w Q := h

theorem meets_acquire {l : L} {mode : Mode} {f : Unit → Prog L Λ σ β} (hnew : ∀ x ∈ held, x.1 ≠ l)
    (h : ∀ w', R.Rely held w w' → R.Global w' → R.Inv l w' → (f ()).Meets R c ((l, mode) :: held) lin w' Q) :
    (acquire l mode >>= f).Meets R c held lin w Q := ⟨hnew, h⟩

theorem meets_release {l : L} {f : Unit → Prog L Λ σ β} (hl : ∃ x ∈ held, x.1 = l)
    (h : ∀ w', R.Rely held w w' → R.Global w' → R.Inv l w' ∧ (f ()).Meets R c (giveBack held l) lin w' Q) :
    (release l >>= f).Meets R c held lin w Q := ⟨hl, h⟩

theorem meets_atomic {label : Option Λ} {g : σ → Option (γ × σ)} {f : γ → Prog L Λ σ β}
    (h : ∀ w', R.Rely held w w' → R.Global w' → (∀ l ∈ label, R.allows l w'.state) →
      ∃ b w'', g w'.state = some (b, w''.state) ∧ R.Global w'' ∧ R.Guar held w' w'' ∧ w''.abs = w'.abs ∧
        (f b).Meets R c held lin w'' Q) : (atomic label g >>= f).Meets R c held lin w Q := by
  intro w' hr hg hl
  obtain ⟨b, w'', hf, hg', hgu, ha, hk⟩ := h w' hr hg hl
  exact ⟨b, w'', lin, hf, hg', hgu, .inl ⟨ha, rfl⟩, hk⟩

theorem meets_effect {label : Option Λ} {g : σ → Option (γ × σ)} {f : γ → Prog L Λ σ β}
    (h : ∀ w', R.Rely held w w' → R.Global w' → (∀ l ∈ label, R.allows l w'.state) →
      ∃ b w'' o, g w'.state = some (b, w''.state) ∧ R.Global w'' ∧ R.Guar held w' w'' ∧
        R.spec w'.abs c = some (o, w''.abs) ∧ (f b).Meets R c held (some o) w'' Q) :
    (atomic label g >>= f).Meets R c held none w Q := by
  intro w' hr hg hl
  obtain ⟨b, w'', o, hf, hg', hgu, hs, hk⟩ := h w' hr hg hl
  exact ⟨b, w'', some o, hf, hg', hgu, .inr ⟨rfl, o, hs, rfl⟩, hk⟩

theorem meets_get {g : σ → γ} {f : γ → Prog L Λ σ β}
    (h : ∀ w', R.Rely held w w' → R.Global w' → (f (g w'.state)).Meets R c held lin w' Q) :
    (get g >>= f).Meets R c held lin w Q :=
  fun w' hr hg _ => ⟨g w'.state, w', lin, rfl, hg, .refl, .refl, h w' hr hg⟩

end Prog

namespace Regions

variable {L Λ σ X A C O β : Type} [DecidableEq L] {R : Regions L Λ σ X A C O} {c : C} {held : List (L × Mode)}
  {lin : Option O} {w : World σ X A} {Q : β → List (L × Mode) → Option O → World σ X A → Prop}

def Implements (R : Regions L Λ σ X A C O) (c : C) (p : Prog L Λ σ O) : Prop :=
  ∀ w, p.Meets R c [] none w fun o held lin _ => held = [] ∧ lin = some o

theorem mem_giveBack_of_ne {l : L} {x : L × Mode} (h : x ∈ held) (hne : x.1 ≠ l) : x ∈ giveBack held l :=
  (List.mem_eraseP_of_neg (by simpa using hne)).mpr h

theorem run_of_meets {p : Prog L Λ σ β} (h : p.Meets R c held lin w Q) (hg : R.Global w)
    (hi : ∀ l, (l, .exclusive) ∉ held → R.Inv l w) (ha : p.Assumes R.allows w.state) :
    ∃ b w' held' lin', p.run w.state = some (b, w'.state) ∧ Q b held' lin' w' ∧ R.Global w' ∧
      (∀ l, (l, .exclusive) ∉ held' → R.Inv l w') ∧ R.Takes c w w' lin lin' := by
  induction p generalizing held lin w with
  | ret b => exact ⟨b, w, held, lin, rfl, h w .refl, hg, hi, .refl⟩
  | lock l mode k ih =>
    have hl : R.Inv l w := hi l fun hm => h.1 _ hm rfl
    exact ih (h.2 w .refl hg hl) hg (fun l' hl' => hi l' fun hm => hl' (List.mem_cons_of_mem _ hm)) ha
  | unlock l k ih =>
    obtain ⟨hl, hk⟩ := h.2 w .refl hg
    refine ih hk hg (fun l' hl' => ?_) ha
    by_cases he : l' = l
    · exact he ▸ hl
    · exact hi l' fun hm => hl' (mem_giveBack_of_ne hm he)
  | act label f k ih =>
    rw [Prog.Assumes] at ha
    obtain ⟨b, w₁, lin₁, hf, hg₁, hgu, ht, hk⟩ := h w .refl hg ha.1
    have ha' := ha.2
    rw [hf] at ha'
    obtain ⟨b', w', held', lin', hr, hQ, hg', hi', ht'⟩ :=
      ih b hk hg₁ (fun l hl => R.inv_of_same l w w₁ (hgu l hl) (hi l hl)) ha'
    exact ⟨b', w', held', lin', by rw [Prog.run, hf]; exact hr, hQ, hg', hi', ht.trans ht'⟩

theorem Implements.run {p : Prog L Λ σ O} (h : R.Implements c p) (hg : R.Global w) (hi : ∀ l, R.Inv l w)
    (ha : p.Assumes R.allows w.state) :
    ∃ o w', p.run w.state = some (o, w'.state) ∧ R.spec w.abs c = some (o, w'.abs) ∧ R.Global w' ∧ ∀ l, R.Inv l w' := by
  obtain ⟨o, w', held', lin', hr, ⟨rfl, rfl⟩, hg', hi', ht⟩ := run_of_meets (h w) hg (fun l _ => hi l) ha
  rcases ht with ⟨-, hn⟩ | ⟨-, o', hs, he⟩
  · cases hn
  · cases he
    exact ⟨o, w', hr, hs, hg', fun l => hi' l List.not_mem_nil⟩

variable {n : Nat} {p p' : Pool n L Λ σ C O}

def pending (p : Pool n L Λ σ C O) (lin : Fin n → Option O) (t : Fin n) : List (Fin n × C × O) :=
  match (p.thread t).current, lin t with
  | some (c, _), some o => [(t, c, o)]
  | _, _ => []

/-- The calls in `log`, made one after the other on the abstract state, explain what the threads have done so far. -/
structure Explains (R : Regions L Λ σ X A C O) (a : A) (p : Pool n L Λ σ C O) (w : World σ X A)
    (lin : Fin n → Option O) (log : List (Fin n × C × O)) : Prop where
  state : w.state = p.state
  global : R.Global w
  inv : ∀ l, (∀ t, (l, .exclusive) ∉ (p.thread t).held) → R.Inv l w
  thread : ∀ t, match (p.thread t).current with
    | none => (p.thread t).held = [] ∧ lin t = none
    | some (c, prog) => prog.Meets R c (p.thread t).held (lin t) w fun o held lin _ => held = [] ∧ lin = some o
  exclusion : p.Exclusion
  serial : Runs.run R.spec a (log.map fun x => x.2.1) = some (log.map fun x => x.2.2, w.abs)
  order : ∀ t, log.filter (fun x => x.1 = t) = p.history.filter (fun x => x.1 = t) ++ pending p lin t

namespace Explains

variable {a : A} {lin : Fin n → Option O} {log : List (Fin n × C × O)} {body : C → Prog L Λ σ O}

theorem init (hg : R.Global w) (hi : ∀ l, R.Inv l w) :
    R.Explains w.abs (Pool.init w.state : Pool n L Λ σ C O) w (fun _ => none) [] where
  state := rfl
  global := hg
  inv l _ := hi l
  thread _ := ⟨rfl, rfl⟩
  exclusion := .init w.state
  serial := rfl
  order _ := rfl

theorem meets (h : R.Explains a p w lin log) {t : Fin n} {c : C} {prog : Prog L Λ σ O}
    (hc : (p.thread t).current = some (c, prog)) :
    prog.Meets R c (p.thread t).held (lin t) w fun o held lin _ => held = [] ∧ lin = some o := by
  have ht := h.thread t
  rwa [hc] at ht

theorem notMem_of_mem (h : R.Explains a p w lin log) {t u : Fin n} (hne : u ≠ t) {l : L}
    (ht : (l, .exclusive) ∈ (p.thread t).held) {m : Mode} : (l, m) ∉ (p.thread u).held :=
  fun hu => h.exclusion.apart t u hne _ ht ⟨_, hu, rfl, trivial⟩

theorem next (h : R.Explains a p w lin log) {t : Fin n} {x : Thread L Λ σ C O} {w' : World σ X A} (lin' : Option O)
    (log' : List (Fin n × C × O)) (hp : p'.thread = Function.update p.thread t x) (hx : p'.Exclusion)
    (hstate : w'.state = p'.state) (hg : R.Global w') (hgu : R.Guar (p.thread t).held w w')
    (hinv : ∀ l, (∀ u, u ≠ t → (l, .exclusive) ∉ (p.thread u).held) → (l, .exclusive) ∉ x.held → R.Inv l w')
    (ht : match x.current with
      | none => x.held = [] ∧ lin' = none
      | some (c, prog) => prog.Meets R c x.held lin' w' fun o held lin _ => held = [] ∧ lin = some o)
    (hserial : Runs.run R.spec a (log'.map fun x => x.2.1) = some (log'.map fun x => x.2.2, w'.abs))
    (horder : ∀ u, log'.filter (fun x => x.1 = u) =
      p'.history.filter (fun x => x.1 = u) ++ pending p' (Function.update lin t lin') u) :
    R.Explains a p' w' (Function.update lin t lin') log' where
  state := hstate
  global := hg
  inv l hl := by
    refine hinv l (fun u hu => ?_) ?_
    · have := hl u
      rwa [hp, Function.update_of_ne hu] at this
    · have := hl t
      rwa [hp, Function.update_self] at this
  thread u := by
    by_cases hu : u = t
    · rw [hu, hp, Function.update_self, Function.update_self]
      exact ht
    · rw [hp, Function.update_of_ne hu, Function.update_of_ne hu]
      have hold := h.thread u
      cases hc : (p.thread u).current with
      | none =>
        rw [hc] at hold
        exact hold
      | some y =>
        rw [hc] at hold
        refine hold.rely fun z hz => hgu z.1 fun hm => ?_
        exact h.notMem_of_mem hu hm hz
  exclusion := hx
  serial := hserial
  order := horder

omit [DecidableEq L] in
theorem pending_of_ne {t u : Fin n} (hu : u ≠ t) {x : Thread L Λ σ C O} (hp : p'.thread = Function.update p.thread t x)
    (lin' : Option O) : pending p' (Function.update lin t lin') u = pending p lin u := by
  unfold pending
  rw [hp, Function.update_of_ne hu, Function.update_of_ne hu]

omit [DecidableEq L] in
theorem pending_self {t : Fin n} {x : Thread L Λ σ C O} (hp : p'.thread = Function.update p.thread t x)
    (lin' : Option O) : pending p' (Function.update lin t lin') t =
      match x.current, lin' with
      | some (c, _), some o => [(t, c, o)]
      | _, _ => [] := by
  unfold pending
  rw [hp, Function.update_self, Function.update_self]

theorem order_of_same (h : R.Explains a p w lin log) {t : Fin n} {x : Thread L Λ σ C O} {prog prog' : Prog L Λ σ O} {c : C}
    (hp : p'.thread = Function.update p.thread t x) (hh : p'.history = p.history)
    (hc : (p.thread t).current = some (c, prog)) (hx : x.current = some (c, prog')) (u : Fin n) :
    log.filter (fun x => x.1 = u) =
      p'.history.filter (fun x => x.1 = u) ++ pending p' (Function.update lin t (lin t)) u := by
  rw [h.order u, hh]
  by_cases hu : u = t
  · subst hu
    rw [pending_self hp, hx, pending, hc]
    cases lin u <;> rfl
  · rw [pending_of_ne hu hp]

theorem step (h : R.Explains a p w lin log) {e : Pool.Event n C}
    (hbody : ∀ t c, e = .start t c → R.Implements c (body c)) (ha : p.Assumes R.allows e)
    (hm : Pool.Moves body p e p') : ∃ w' lin' log', R.Explains a p' w' lin' log' := by
  have hx := h.exclusion.step (fun t c l k hc => (h.meets hc).1) hm
  cases hm with
  | @start t c hc =>
    have ht := h.thread t
    rw [hc] at ht
    obtain ⟨hheld, hlin⟩ := ht
    refine ⟨w, _, _, h.next (t := t) none log rfl hx h.state h.global .refl (fun l hu hl => h.inv l fun u => ?_) ?_
      h.serial fun u => ?_⟩
    · by_cases he : u = t
      · exact he ▸ hl
      · exact hu u he
    · rw [hheld]
      exact hbody t c rfl w
    · rw [h.order u]
      by_cases hu : u = t
      · subst hu
        rw [pending_self rfl, pending, hc]
        rfl
      · rw [pending_of_ne hu rfl]
        rfl
  | @ret t c o hc =>
    obtain ⟨hheld, hlin⟩ := h.meets hc w .refl
    refine ⟨w, _, _, h.next (t := t) none log rfl hx h.state h.global .refl (fun l hu hl => h.inv l fun u => ?_) ⟨hheld, rfl⟩
      h.serial fun u => ?_⟩
    · by_cases he : u = t
      · exact he ▸ hl
      · exact hu u he
    · rw [h.order u, List.filter_append]
      by_cases hu : u = t
      · subst hu
        rw [pending_self rfl, pending, hc, hlin]
        simp
      · rw [pending_of_ne hu rfl]
        simp [Ne.symm hu]
  | @lock t c l mode k hc hf =>
    obtain ⟨hnew, hk⟩ := h.meets hc
    have hl : R.Inv l w := h.inv l fun u hm => by
      by_cases hu : u = t
      · exact hnew _ (hu ▸ hm) rfl
      · exact hf (h.exclusion.intact l) u hu ⟨_, hm, rfl, by cases mode <;> trivial⟩
    refine ⟨w, _, _, h.next (t := t) (lin t) log rfl hx h.state h.global .refl (fun l' hu hl' => h.inv l' fun u => ?_)
      (hk w .refl h.global hl) h.serial (h.order_of_same rfl rfl hc rfl)⟩
    by_cases he : u = t
    · subst he
      exact fun hm => hl' (List.mem_cons_of_mem _ hm)
    · exact hu u he
  | @unlock t c l k hc =>
    obtain ⟨hl, hk⟩ := (h.meets hc).2 w .refl h.global
    refine ⟨w, _, _, h.next (t := t) (lin t) log rfl hx h.state h.global .refl (fun l' hu hl' => ?_) hk h.serial
      (h.order_of_same rfl rfl hc rfl)⟩
    by_cases he : l' = l
    · exact he ▸ hl
    · refine h.inv l' fun u => ?_
      by_cases hut : u = t
      · subst hut
        exact fun hm => hl' (mem_giveBack_of_ne hm he)
      · exact hu u hut
  | @act t c γ label f k x hc hxf =>
    have hall : ∀ l ∈ label, R.allows l w.state := fun l hl => by
      rw [h.state]
      rw [Pool.Assumes, hc] at ha
      cases label with
      | none => cases hl
      | some l' =>
        cases hl
        exact ha
    obtain ⟨b, w₁, lin₁, hf, hg, hgu, ht, hk⟩ := h.meets hc w .refl h.global hall
    rw [h.state, hxf] at hf
    obtain ⟨rfl, hs⟩ := Prod.mk.inj (Option.some.inj hf)
    have hinv : ∀ l, (∀ u, u ≠ t → (l, .exclusive) ∉ (p.thread u).held) → (l, .exclusive) ∉ (p.thread t).held →
        R.Inv l w₁ := fun l hu hl => by
      refine R.inv_of_same l w w₁ (hgu l hl) (h.inv l fun u => ?_)
      by_cases he : u = t
      · exact he ▸ hl
      · exact hu u he
    rcases ht with ⟨habs, rfl⟩ | ⟨hnone, o, hspec, rfl⟩
    · refine ⟨w₁, _, _, h.next (t := t) (lin t) log rfl hx hs.symm hg hgu hinv hk (by rw [habs]; exact h.serial)
        (h.order_of_same rfl rfl hc rfl)⟩
    · refine ⟨w₁, _, _, h.next (t := t) (some o) (log ++ [(t, c, o)]) rfl hx hs.symm hg hgu hinv hk ?_ fun u => ?_⟩
      · rw [List.map_append, List.map_append]
        exact Runs.run_concat h.serial hspec
      · rw [List.filter_append, h.order u]
        by_cases hu : u = t
        · subst hu
          rw [pending_self rfl, pending, hc, hnone]
          simp
        · rw [pending_of_ne hu rfl]
          simp [Ne.symm hu]

end Explains

/-- Once all threads are between calls, their calls and answers are those of some serial order, in which each thread's
calls stand in its own order, and the state stands for the abstract state after them. -/
theorem serial {body : C → Prog L Λ σ O} {valid : C → Prop} (hbody : ∀ c, valid c → R.Implements c (body c))
    (hg : R.Global w) (hi : ∀ l, R.Inv l w) {es : List (Pool.Event n C)} {outs : List Unit}
    (ha : Runs.Along (Pool.step body) (fun p e => (∀ t c, e = .start t c → valid c) ∧ p.Assumes R.allows e)
      (Pool.init w.state) es)
    (hr : Runs.run (Pool.step body) (Pool.init w.state) es = some (outs, p))
    (hidle : ∀ t, (p.thread t).current = none) :
    ∃ (log : List (Fin n × C × O)) (w' : World σ X A), w'.state = p.state ∧ R.Global w' ∧ (∀ l, R.Inv l w') ∧
      Runs.run R.spec w.abs (log.map fun x => x.2.1) = some (log.map fun x => x.2.2, w'.abs) ∧
      ∀ t, log.filter (fun x => x.1 = t) = p.history.filter fun x => x.1 = t := by
  obtain ⟨-, w', lin, log, h⟩ := Runs.run_invariant
    (I := fun p => ∃ w' lin log, R.Explains w.abs p w' lin log) (P := fun _ => True)
    (fun _ _ _ _ ⟨_, _, _, h⟩ ⟨hv, hl⟩ hs =>
      ⟨trivial, h.step (fun t c he => hbody c (hv t c he)) hl (Pool.moves_of_step hs)⟩)
    ⟨w, _, [], .init hg hi⟩ ha hr
  refine ⟨log, w', h.state, h.global, fun l => h.inv l fun t hm => ?_, h.serial, fun t => ?_⟩
  · have ht := h.thread t
    rw [hidle t] at ht
    rw [ht.1] at hm
    cases hm
  · rw [h.order t, pending, hidle t, List.append_nil]

end Regions
