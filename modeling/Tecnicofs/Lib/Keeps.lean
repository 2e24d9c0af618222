import Tecnicofs.Lib.Prog

namespace Prog

variable {L Λ σ α β γ : Type} {I : σ → Prop} {Q Q' : β → Prop} {f : α → Prog L Λ σ β}

/-- If the program returns, the property holds again, and `Q` of the result. -/
def Keeps (I : σ → Prop) (p : Prog L Λ σ β) (Q : β → Prop) : Prop := ∀ s, I s → p.Ensures s fun b s' => Q b ∧ I s'

theorem Keeps.bind {p : Prog L Λ σ α} {P : α → Prop} (h : p.Keeps I P) (hf : ∀ a, P a → (f a).Keeps I Q) :
    (p >>= f).Keeps I Q :=
  fun s hs => .bind ((h s hs).mono fun a s' ha => hf a ha.1 s' ha.2)

theorem keeps_pure {b : β} (h : Q b) : (pure b : Prog L Λ σ β).Keeps I Q := fun _ hs => ensures_pure ⟨h, hs⟩

theorem keeps_acquire {l : L} {mode : Mode} {f : Unit → Prog L Λ σ β} (h : (f ()).Keeps I Q) :
    (acquire l mode >>= f).Keeps I Q := fun s hs => ensures_acquire (h s hs)

theorem keeps_release {l : L} {f : Unit → Prog L Λ σ β} (h : (f ()).Keeps I Q) : (release l >>= f).Keeps I Q :=
  fun s hs => ensures_release (h s hs)

theorem keeps_atomic {label : Option Λ} {g : σ → Option (α × σ)}
    (h : ∀ s a s', I s → g s = some (a, s') → I s' ∧ (f a).Keeps I Q) : (atomic label g >>= f).Keeps I Q :=
  fun s hs => ensures_atomic fun a s' hg => (h s a s' hs hg).2 s' (h s a s' hs hg).1

theorem keeps_get {g : σ → α} (h : ∀ s, I s → (f (g s)).Keeps I Q) : (get g >>= f).Keeps I Q :=
  fun s hs => ensures_get (h s hs s hs)

theorem keeps_modify {g : σ → σ} {f : Unit → Prog L Λ σ β} (hg : ∀ s, I s → I (g s)) (h : (f ()).Keeps I Q) :
    (modify g >>= f).Keeps I Q := fun s hs => ensures_modify (h (g s) (hg s hs))

theorem keeps_step {label : Option Λ} {g : σ → Option (β × σ)} (h : ∀ s b s', I s → g s = some (b, s') → Q b ∧ I s') :
    (atomic label g : Prog L Λ σ β).Keeps I Q := fun s hs b s' hr => h s b s' hs (by rwa [run_atomic] at hr)

end Prog
