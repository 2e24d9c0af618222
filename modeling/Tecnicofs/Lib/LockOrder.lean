import Mathlib.Data.Finset.Max
import Tecnicofs.Lib.Pool

namespace Prog

variable {L Λ σ α β γ : Type} [DecidableEq L]

/-- Whatever the other threads do, the program takes locks only as `ok` allows with what it holds, gives back locks
that it holds, keeps the invariant `I`, and ends with locks that fit its result.  Labelled actions run in states that
allow them. -/
def Locks (A : Λ → σ → Prop) (I : σ → Prop) (ok : List (L × Mode) → L → Mode → Prop) :
    Prog L Λ σ β → List (L × Mode) → (β → List (L × Mode) → Prop) → Prop
  | ret b, held, Q => Q b held
  | lock l mode k, held, Q => ok held l mode ∧ k.Locks A I ok ((l, mode) :: held) Q
  | unlock l k, held, Q => (∃ x ∈ held, x.1 = l) ∧ k.Locks A I ok (giveBack held l) Q
  | act label f k, held, Q =>
    ∀ s c s', I s → (∀ l ∈ label, A l s) → f s = some (c, s') → I s' ∧ (k c).Locks A I ok held Q

/-- The program can come to a lock of this kind. -/
def MayTake (P : L → Prop) : Prog L Λ σ β → Prop
  | ret _ => False
  | lock l _ k => P l ∨ k.MayTake P
  | unlock _ k => k.MayTake P
  | act _ _ k => ∃ c, (k c).MayTake P

variable {A : Λ → σ → Prop} {I : σ → Prop} {ok : List (L × Mode) → L → Mode → Prop} {held : List (L × Mode)}
  {Q Q' : β → List (L × Mode) → Prop}

theorem Locks.mono {p : Prog L Λ σ β} (h : p.Locks A I ok held Q) (hQ : ∀ b held, Q b held → Q' b held) :
    p.Locks A I ok held Q' := by
  induction p generalizing held with
  | ret b => exact hQ b held h
  | lock l mode k ih => exact ⟨h.1, ih h.2⟩
  | unlock l k ih => exact ⟨h.1, ih h.2⟩
  | act label f k ih => exact fun s c s' hi hl hf => (h s c s' hi hl hf).imp_right (ih c)

theorem Locks.bind {p : Prog L Λ σ α} {f : α → Prog L Λ σ β}
    (h : p.Locks A I ok held fun a held => (f a).Locks A I ok held Q) : (p >>= f).Locks A I ok held Q := by
  change (p.bind f).Locks A I ok held Q
  induction p generalizing held with
  | ret a => exact h
  | lock l mode k ih => exact ⟨h.1, ih h.2⟩
  | unlock l k ih => exact ⟨h.1, ih h.2⟩
  | act label g k ih => exact fun s c s' hi hl hg => (h s c s' hi hl hg).imp_right (ih c)

theorem Locks.seq {p : Prog L Λ σ α} {f : α → Prog L Λ σ β} {P : α → Prop}
    (h : p.Locks A I ok held fun a held' => held' = held ∧ P a)
    (hf : ∀ a, P a → (f a).Locks A I ok held Q) : (p >>= f).Locks A I ok held Q :=
  .bind (h.mono fun a _ ⟨he, ha⟩ => he ▸ hf a ha)

theorem locks_pure {b : β} (h : Q b held) : (pure b : Prog L Λ σ β).Locks A I ok held Q := h

theorem locks_acquire {l : L} {mode : Mode} {f : Unit → Prog L Λ σ β} (hok : ok held l mode)
    (h : (f ()).Locks A I ok ((l, mode) :: held) Q) : (acquire l mode >>= f).Locks A I ok held Q := ⟨hok, h⟩

theorem locks_release {l : L} {f : Unit → Prog L Λ σ β} (hl : ∃ x ∈ held, x.1 = l)
    (h : (f ()).Locks A I ok (giveBack held l) Q) : (release l >>= f).Locks A I ok held Q := ⟨hl, h⟩

theorem locks_atomic {label : Option Λ} {g : σ → Option (γ × σ)} {f : γ → Prog L Λ σ β}
    (h : ∀ s c s', I s → (∀ l ∈ label, A l s) → g s = some (c, s') → I s' ∧ (f c).Locks A I ok held Q) :
    (atomic label g >>= f).Locks A I ok held Q := h

theorem locks_get {g : σ → γ} {f : γ → Prog L Λ σ β} (h : ∀ s, I s → (f (g s)).Locks A I ok held Q) :
    (get g >>= f).Locks A I ok held Q := by
  intro s c s' hi _ hg
  cases hg
  exact ⟨hi, h s hi⟩

theorem locks_modify {g : σ → σ} {f : Unit → Prog L Λ σ β} (hg : ∀ s, I s → I (g s))
    (h : (f ()).Locks A I ok held Q) : (modify g >>= f).Locks A I ok held Q := by
  intro s c s' hi _ hs
  cases hs
  exact ⟨hg s hi, h⟩

end Prog

namespace Pool

variable {n : Nat} {L Λ σ C O : Type} {p p' : Pool n L Λ σ C O}

theorem setThread_self (p : Pool n L Λ σ C O) (t : Fin n) (x : Thread L Λ σ C O) : (p.setThread t x).thread t = x :=
  Function.update_self ..

theorem setThread_of_ne (p : Pool n L Λ σ C O) {t u : Fin n} (x : Thread L Λ σ C O) (h : u ≠ t) :
    (p.setThread t x).thread u = p.thread u := Function.update_of_ne h ..

theorem Deadlocked.minimal (h : p.Deadlocked) : ∃ S : Finset (Fin n), S.Nonempty ∧
    (∀ t ∈ S, ∃ u ∈ S, p.WaitsFor t u) ∧ ∀ u ∈ S, ∃ t ∈ S, p.WaitsFor t u := by
  obtain ⟨S, hne, hS⟩ := h
  induction S using Finset.strongInduction with
  | H S ih =>
    by_cases hall : ∀ u ∈ S, ∃ t ∈ S, p.WaitsFor t u
    · exact ⟨S, hne, hS, hall⟩
    · push Not at hall
      obtain ⟨u, hu, hno⟩ := hall
      refine ih (S.erase u) (Finset.erase_ssubset hu) ?_ fun t ht => ?_
      · obtain ⟨v, hv, hw⟩ := hS u hu
        obtain ⟨-, -, -, -, -, hvu, -⟩ := hw
        exact ⟨v, Finset.mem_erase.mpr ⟨hvu, hv⟩⟩
      · obtain ⟨v, hv, hw⟩ := hS t (Finset.mem_of_mem_erase ht)
        exact ⟨v, Finset.mem_erase.mpr ⟨fun he => hno t (Finset.mem_of_mem_erase ht) (he ▸ hw), hv⟩, hw⟩

theorem not_deadlock_of_rank {S : Finset (Fin n)} (hne : S.Nonempty) (rank : Fin n → Nat)
    (h : ∀ t ∈ S, ∃ u ∈ S, rank t < rank u) : False := by
  obtain ⟨t, ht, hmax⟩ := S.exists_max_image rank hne
  obtain ⟨u, hu, hlt⟩ := h t ht
  exact absurd (hmax u hu) (Nat.not_le.mpr hlt)

/-- No lock is broken, and no two threads hold one in modes that conflict. -/
structure Exclusion (p : Pool n L Λ σ C O) : Prop where
  intact : ∀ l, p.broken l = false
  apart : ∀ t u, u ≠ t → ∀ x ∈ (p.thread t).held, ¬ p.Blocks u x.1 x.2

theorem Exclusion.init (s : σ) : (Pool.init s : Pool n L Λ σ C O).Exclusion where
  intact _ := rfl
  apart t u _ x hx := by cases hx

def GivesOwn (p : Pool n L Λ σ C O) : Prop :=
  ∀ (t : Fin n) (c : C) (l : L) (k : Prog L Λ σ O), (p.thread t).current = some (c, .unlock l k) →
    ∃ x ∈ (p.thread t).held, x.1 = l

theorem Exclusion.shrink (h : p.Exclusion) {t : Fin n} (hb : p'.broken = p.broken)
    (hs : ∀ x ∈ (p'.thread t).held, x ∈ (p.thread t).held) (ho : ∀ u, u ≠ t → p'.thread u = p.thread u) :
    p'.Exclusion := by
  refine ⟨fun l => hb ▸ h.intact l, ?_⟩
  have hsub : ∀ u, ∀ x ∈ (p'.thread u).held, x ∈ (p.thread u).held := fun u => by
    by_cases hu : u = t
    · exact hu ▸ hs
    · rw [ho u hu]
      exact fun _ => id
  intro u v hne x hx ⟨y, hy, he, hc⟩
  exact h.apart u v hne x (hsub u x hx) ⟨y, hsub v y hy, he, hc⟩

theorem Exclusion.take (h : p.Exclusion) {t : Fin n} {l : L} {mode : Mode} (hb : p'.broken = p.broken)
    (hs : (p'.thread t).held = (l, mode) :: (p.thread t).held) (ho : ∀ u, u ≠ t → p'.thread u = p.thread u)
    (hf : ∀ u, u ≠ t → ¬ p.Blocks u l mode) : p'.Exclusion := by
  refine ⟨fun l => hb ▸ h.intact l, ?_⟩
  have old : ∀ u, u ≠ t → (p'.thread u).held = (p.thread u).held := fun u hu => by rw [ho u hu]
  intro u v hne x hx ⟨y, hy, he, hc⟩
  by_cases hu : u = t
  · subst hu
    rw [old v hne] at hy
    rw [hs, List.mem_cons] at hx
    rcases hx with rfl | hx
    · exact hf v hne ⟨y, hy, he, hc⟩
    · exact h.apart u v hne x hx ⟨y, hy, he, hc⟩
  · rw [old u hu] at hx
    by_cases hv : v = t
    · subst hv
      rw [hs, List.mem_cons] at hy
      rcases hy with rfl | hy
      · exact hf u hu ⟨x, hx, he.symm, hc.symm⟩
      · exact h.apart u v hne x hx ⟨y, hy, he, hc⟩
    · rw [old v hv] at hy
      exact h.apart u v hne x hx ⟨y, hy, he, hc⟩

variable [DecidableEq L]

theorem giveBack_subset (held : List (L × Mode)) (l : L) : ∀ x ∈ giveBack held l, x ∈ held :=
  fun _ h => List.mem_of_mem_eraseP h

theorem brokenBy_of_mem {t : Fin n} {l : L} (h : ∃ x ∈ (p.thread t).held, x.1 = l) : p.brokenBy t l = p.broken :=
  if_pos h

theorem Exclusion.step {body : C → Prog L Λ σ O} {e : Event n C} (h : p.Exclusion) (hown : p.GivesOwn)
    (hm : Moves body p e p') : p'.Exclusion := by
  have same : ∀ {t : Fin n} {x : Thread L Λ σ C O} {q : Pool n L Λ σ C O}, q.thread = Function.update p.thread t x →
      q.broken = p.broken → (∀ y ∈ x.held, y ∈ (p.thread t).held) → q.Exclusion := by
    intro t x q hq hb hx
    refine h.shrink (t := t) hb ?_ fun u hu => ?_
    · rw [hq, Function.update_self]
      exact hx
    · rw [hq, Function.update_of_ne hu]
  cases hm with
  | start c hc => exact same rfl rfl fun _ => id
  | ret hc => exact same rfl rfl fun _ => id
  | @lock t c l mode k hc hf =>
    exact h.take (t := t) rfl (by rw [setThread_self]) (fun u hu => setThread_of_ne p _ hu) (hf (h.intact l))
  | @unlock t c l k hc => exact same rfl (brokenBy_of_mem (hown t c l k hc)) (giveBack_subset _ _)
  | act hc hx => exact same rfl rfl fun _ => id

/-- The invariant holds, every thread takes locks as `ok` allows, and holds none between its calls. -/
structure Disciplined (A : Λ → σ → Prop) (I : σ → Prop) (ok : List (L × Mode) → L → Mode → Prop)
    (p : Pool n L Λ σ C O) : Prop where
  state : I p.state
  thread : ∀ t, match (p.thread t).current with
    | none => (p.thread t).held = []
    | some (_, prog) => prog.Locks A I ok (p.thread t).held fun _ held => held = []

section
variable {A : Λ → σ → Prop} {I : σ → Prop} {ok : List (L × Mode) → L → Mode → Prop}

theorem Disciplined.init {s : σ} (h : I s) : (Pool.init s : Pool n L Λ σ C O).Disciplined A I ok :=
  ⟨h, fun _ => rfl⟩

theorem Disciplined.of_current (d : p.Disciplined A I ok) {t : Fin n} {c : C} {prog : Prog L Λ σ O}
    (h : (p.thread t).current = some (c, prog)) :
    prog.Locks A I ok (p.thread t).held fun _ held => held = [] := by
  have ht := d.thread t
  rwa [h] at ht

theorem Disciplined.givesOwn (d : p.Disciplined A I ok) : p.GivesOwn := fun _ _ _ _ hc => (d.of_current hc).1

theorem Disciplined.step {body : C → Prog L Λ σ O} {e : Event n C} (d : p.Disciplined A I ok)
    (hbody : ∀ t c, e = .start t c → (body c).Locks A I ok [] fun _ held => held = []) (ha : p.Assumes A e)
    (hm : Moves body p e p') : p'.Disciplined A I ok := by
  have next : ∀ {t : Fin n} {x : Thread L Λ σ C O} {q : Pool n L Λ σ C O}, q.thread = Function.update p.thread t x →
      I q.state → (match x.current with
        | none => x.held = []
        | some (_, prog) => prog.Locks A I ok x.held fun _ held => held = []) → q.Disciplined A I ok := by
    intro t x q hq hi hx
    refine ⟨hi, fun u => ?_⟩
    by_cases hu : u = t
    · rw [hq, hu, Function.update_self]
      exact hx
    · rw [hq, Function.update_of_ne hu]
      exact d.thread u
  cases hm with
  | @start t c hc =>
    have ht := d.thread t
    rw [hc] at ht
    refine next rfl d.state ?_
    simp only [ht]
    exact hbody _ c rfl
  | ret hc => exact next rfl d.state (d.of_current hc)
  | lock hc hf => exact next rfl d.state (d.of_current hc).2
  | unlock hc => exact next rfl d.state (d.of_current hc).2
  | @act t c γ label f k x hc hx =>
    have hl : ∀ l ∈ label, A l p.state := fun l hl => by
      rw [Assumes, hc] at ha
      cases label with
      | none => cases hl
      | some l' =>
        cases hl
        exact ha
    obtain ⟨hi, hk⟩ := d.of_current hc p.state x.1 x.2 d.state hl hx
    exact next rfl hi hk

theorem Disciplined.of_waitsFor (d : p.Disciplined A I ok) {t u : Fin n} (h : p.WaitsFor t u) :
    ∃ c l mode k, (p.thread t).current = some (c, .lock l mode k) ∧ ok (p.thread t).held l mode ∧ u ≠ t ∧
      p.Blocks u l mode := by
  obtain ⟨c, l, mode, k, hc, hne, hb⟩ := h
  exact ⟨c, l, mode, k, hc, (d.of_current hc).1, hne, hb⟩

def awaited (rank : L → Nat) (p : Pool n L Λ σ C O) (t : Fin n) : Nat :=
  match (p.thread t).current with
  | some (_, .lock l _ _) => rank l
  | _ => 0

/-- Threads that take locks in the order of their ranks do not wait for each other. -/
theorem Disciplined.no_deadlock (d : p.Disciplined A I ok) (rank : L → Nat)
    (hok : ∀ held l mode, ok held l mode → ∀ x ∈ held, rank x.1 < rank l) : ¬ p.Deadlocked := by
  rintro ⟨S, hne, hS⟩
  refine not_deadlock_of_rank hne (awaited rank p) fun t ht => ?_
  obtain ⟨u, hu, hw⟩ := hS t ht
  obtain ⟨v, -, hw'⟩ := hS u hu
  obtain ⟨c, l, mode, k, hc, -, -, y, hy, rfl, -⟩ := d.of_waitsFor hw
  obtain ⟨c', l', mode', k', hc', hok', -, -⟩ := d.of_waitsFor hw'
  refine ⟨u, hu, ?_⟩
  rw [awaited, awaited, hc, hc']
  exact hok _ _ _ hok' y hy

end

end Pool
