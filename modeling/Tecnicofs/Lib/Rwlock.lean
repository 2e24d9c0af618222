import Mathlib.Logic.Function.Basic
import Tecnicofs.Lib.Prog

/-! Locks in the hands of one thread, which may give them back more often than it takes them. -/

/-- A `pthread_rwlock_t` of glibc while nobody waits for it: whether the phase is the writers', whether one has the lock,
and how many readers are counted. -/
structure Rwlock where
  writePhase : Bool
  writer : Bool
  readers : BitVec 29
  deriving DecidableEq

namespace Rwlock

def new : Rwlock := ⟨false, false, 0⟩

/-- A thread that has the lock gets EDEADLK.  It waits for readers that are counted in their phase. -/
def wrlock (x : Rwlock) : Option Rwlock :=
  if x.writer then some x
  else if x.writePhase ∨ x.readers = 0 then some ⟨true, true, x.readers⟩
  else none

/-- EDEADLK for the writer, EAGAIN where the count is full. -/
def rdlock (x : Rwlock) : Rwlock :=
  if x.writer ∨ (x.readers + 1).msb then x else ⟨false, false, x.readers + 1⟩

/-- Where no writer has the lock, a reader is thought to give it back. -/
def unlock (x : Rwlock) : Rwlock :=
  if x.writer then ⟨x.readers = 0, false, x.readers⟩ else { x with readers := x.readers - 1 }

def IsFree (x : Rwlock) : Prop := x.writer = false ∧ x.readers = 0

instance (x : Rwlock) : Decidable x.IsFree := inferInstanceAs (Decidable (_ ∧ _))

variable {x y : Rwlock}

theorem isFree_new : new.IsFree := ⟨rfl, rfl⟩

theorem IsFree.wrlock (h : x.IsFree) : x.wrlock = some ⟨true, true, 0⟩ := by
  obtain ⟨hw, hr⟩ := h
  simp [Rwlock.wrlock, hw, hr]

theorem IsFree.unlock_wrlock (h : x.IsFree) (hy : x.wrlock = some y) : y.unlock.IsFree := by
  rw [h.wrlock] at hy
  cases hy
  exact ⟨rfl, rfl⟩

theorem IsFree.unlock_rdlock (h : x.IsFree) : x.rdlock.unlock.IsFree := by
  obtain ⟨hw, hr⟩ := h
  simp [rdlock, hw, hr, unlock, IsFree]

/-- A lock that was given back twice has one more writer, and then no other. -/
theorem IsFree.unlock_twice (h : x.IsFree) (hy : x.wrlock = some y) :
    ∃ z, y.unlock.unlock.wrlock = some z ∧ z.unlock.wrlock = none ∧ z.unlock.unlock.wrlock = none := by
  rw [h.wrlock] at hy
  cases hy
  exact ⟨_, rfl, by decide, by decide⟩

end Rwlock

/-- What a thread does to the locks `K` when it takes one, nothing where it waits for ever, and when it gives one back. -/
structure LockTable (L K : Type) where
  take : L → Mode → K → Option K
  give : L → K → K

namespace Prog

variable {L Λ σ K α β γ : Type} {T : LockTable L K}

def runLocks (T : LockTable L K) : Prog L Λ σ β → σ → K → Option (β × σ × K)
  | ret b, s, h => some (b, s, h)
  | lock l mode k, s, h => (T.take l mode h).bind fun h => runLocks T k s h
  | unlock l k, s, h => runLocks T k s (T.give l h)
  | act _ f k, s, h => (f s).bind fun x => runLocks T (k x.1) x.2 h

section
variable (s : σ) (h : K)

@[simp] theorem runLocks_pure (b : β) : (pure b : Prog L Λ σ β).runLocks T s h = some (b, s, h) := rfl

@[simp] theorem runLocks_acquire (l : L) (mode : Mode) :
    (acquire l mode : Prog L Λ σ Unit).runLocks T s h = (T.take l mode h).map fun h => ((), s, h) := by
  unfold acquire runLocks
  cases T.take l mode h <;> rfl

@[simp] theorem runLocks_release (l : L) :
    (release l : Prog L Λ σ Unit).runLocks T s h = some ((), s, T.give l h) := rfl

@[simp] theorem runLocks_atomic (label : Option Λ) (f : σ → Option (γ × σ)) :
    (atomic label f : Prog L Λ σ γ).runLocks T s h = (f s).map fun x => (x.1, x.2, h) := by
  unfold atomic runLocks
  cases f s <;> rfl

@[simp] theorem runLocks_get (f : σ → γ) : (get f : Prog L Λ σ γ).runLocks T s h = some (f s, s, h) := rfl

@[simp] theorem runLocks_modify (f : σ → σ) : (modify f : Prog L Λ σ Unit).runLocks T s h = some ((), f s, h) := rfl

@[simp] theorem runLocks_bind (p : Prog L Λ σ α) (f : α → Prog L Λ σ β) :
    (p >>= f).runLocks T s h = (p.runLocks T s h).bind fun x => (f x.1).runLocks T x.2.1 x.2.2 := by
  change (p.bind f).runLocks T s h = _
  induction p generalizing s h with
  | ret a => rfl
  | lock l mode k ih =>
    simp only [bind, runLocks, Option.bind_assoc]
    exact congrArg _ (funext fun h => ih s h)
  | unlock l k ih => exact ih s _
  | act label g k ih =>
    simp only [bind, runLocks, Option.bind_assoc]
    exact congrArg _ (funext fun x => ih x.1 x.2 h)

end

theorem run_of_runLocks {p : Prog L Λ σ β} {s s' : σ} {h h' : K} {b : β} (hr : p.runLocks T s h = some (b, s', h')) :
    p.run s = some (b, s') := by
  induction p generalizing s h with
  | ret a =>
    cases hr
    rfl
  | lock l mode k ih =>
    obtain ⟨h₁, -, hr⟩ := Option.bind_eq_some_iff.mp hr
    exact ih hr
  | unlock l k ih => exact ih hr
  | act label f k ih =>
    obtain ⟨x, hx, hr⟩ := Option.bind_eq_some_iff.mp hr
    rw [run, hx]
    exact ih x.1 hr

/-- The program waits for nothing, and leaves the locks as `g` makes them. -/
def Turns (T : LockTable L K) (g : K → K) (p : Prog L Λ σ β) : Prop :=
  ∀ s h, p.runLocks T s h = (p.run s).map fun x => (x.1, x.2, g h)

abbrev Spares (T : LockTable L K) (p : Prog L Λ σ β) : Prop := p.Turns T id

variable {g g' : K → K}

theorem Turns.runLocks_eq {p : Prog L Λ σ β} (hp : p.Turns T g) {h h' : K} (he : g h = h') (s : σ) :
    p.runLocks T s h = (p.run s).map fun x => (x.1, x.2, h') := by rw [hp, he]

theorem spares_pure (b : β) : (pure b : Prog L Λ σ β).Spares T := fun _ _ => rfl

theorem turns_acquire {l : L} {mode : Mode} (ht : ∀ h, T.take l mode h = some (g h)) :
    (acquire l mode : Prog L Λ σ Unit).Turns T g := fun s h => by
  rw [runLocks_acquire, ht]
  rfl

theorem turns_release {l : L} (ht : ∀ h, T.give l h = g h) : (release l : Prog L Λ σ Unit).Turns T g := fun s h => by
  rw [runLocks_release, ht]
  rfl

theorem spares_atomic {label : Option Λ} {f : σ → Option (γ × σ)} : (atomic label f : Prog L Λ σ γ).Spares T :=
  fun s h => by
    rw [runLocks_atomic, run_atomic]
    rfl

theorem Turns.bind {p : Prog L Λ σ α} {f : α → Prog L Λ σ β} (hp : p.Turns T g) (hf : ∀ a, (f a).Turns T g') :
    (p >>= f).Turns T (g' ∘ g) := by
  intro s h
  rw [runLocks_bind, run_bind, hp]
  cases p.run s with
  | none => rfl
  | some x => exact hf x.1 x.2 (g h)

theorem Spares.bind {p : Prog L Λ σ α} {f : α → Prog L Λ σ β} (hp : p.Spares T) (hf : ∀ a, (f a).Turns T g) :
    (p >>= f).Turns T g := Turns.bind hp hf

end Prog
