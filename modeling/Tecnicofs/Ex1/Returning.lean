import Tecnicofs.Ex1.Serial
import Tecnicofs.Ex1.LockOrder
import Tecnicofs.Lib.Inevitable

namespace Tecnicofs.Ex1

open Bytes

def Above (held : Held) (l : Lock) (_ : Mode) : Prop := ∀ x ∈ held, x.1.rank < l.rank

def Climbs (held : Held) (p : Program α) : Prop :=
  Prog.Locks (fun _ _ => True) (fun _ => True) Above p held fun _ held' => held' = held

section
variable {held : Held} {p : Program α} {f : α → Program β} {Q : β → Held → Prop}

theorem Climbs.bind (h : Climbs held p)
    (hf : ∀ a, Prog.Locks (fun _ _ => True) (fun _ => True) Above (f a) held Q) :
    Prog.Locks (fun _ _ => True) (fun _ => True) Above (p >>= f) held Q :=
  Prog.Locks.bind (h.mono fun a _ he => he ▸ hf a)

theorem climbs_pure (a : α) : Climbs held (pure a : Program α) := rfl

theorem climbs_act {label : Option Label} {f : State → Option (γ × State)} : Climbs held (Prog.atomic label f) :=
  fun _ _ _ _ _ _ => ⟨trivial, rfl⟩

theorem climbs_get {g : State → γ} {f : γ → Program β}
    (hf : ∀ c, Prog.Locks (fun _ _ => True) (fun _ => True) Above (f c) held Q) :
    Prog.Locks (fun _ _ => True) (fun _ => True) Above (Prog.get g >>= f) held Q :=
  Climbs.bind climbs_act hf

variable (hrank : ∀ x ∈ held, x.1.rank < 4)
include hrank

theorem climbs_dataBlockAlloc : Climbs held dataBlockAlloc :=
  Prog.locks_acquire hrank (Climbs.bind climbs_act fun _ =>
    Prog.locks_release (by simp) (Prog.locks_pure (giveBack_self ..)))

theorem climbs_directBlock (inode k : Nat) : Climbs held (directBlock inode k) := by
  refine climbs_get fun b => ?_
  split
  · exact (climbs_dataBlockAlloc hrank).bind fun b => Climbs.bind climbs_act fun _ => Prog.locks_pure rfl
  · exact Prog.locks_pure rfl

theorem climbs_bonusBlockInit (inode : Nat) : Climbs held (bonusBlockInit inode) := by
  refine (climbs_dataBlockAlloc hrank).bind fun b => Climbs.bind climbs_act fun _ => ?_
  split
  · exact Climbs.bind climbs_act fun _ => Prog.locks_pure rfl
  · exact Climbs.bind climbs_act fun _ => Prog.locks_pure rfl

theorem climbs_needBonusBlock (inode : Nat) : Climbs held (needBonusBlock inode) := by
  refine climbs_get fun b => ?_
  split
  · exact (climbs_bonusBlockInit hrank inode).bind fun b => Climbs.bind climbs_act fun _ => Prog.locks_pure rfl
  · exact Prog.locks_pure rfl

theorem climbs_indirectBlock (inode j : Nat) : Climbs held (indirectBlock inode j) := by
  refine climbs_get fun b => ?_
  split
  · exact climbs_act
  · refine Climbs.bind climbs_act fun b => ?_
    split
    · exact (climbs_dataBlockAlloc hrank).bind fun b => Climbs.bind climbs_act fun _ => Prog.locks_pure rfl
    · exact Prog.locks_pure rfl

theorem climbs_getCurrentDataBlock (inode file : Nat) : Climbs held (getCurrentDataBlock inode file) := by
  refine climbs_get fun k => ?_
  split
  · exact climbs_directBlock hrank inode k
  · refine (climbs_needBonusBlock hrank inode).bind fun ok => ?_
    split
    · exact climbs_indirectBlock hrank inode _
    · exact Prog.locks_pure rfl

theorem climbs_writeLoop (inode file fuel : Nat) (buffer : List UInt8) :
    Climbs held (writeLoop inode file fuel buffer) := by
  induction fuel generalizing buffer with
  | zero => exact climbs_pure true
  | succ fuel ih =>
    rw [writeLoop]
    split
    · exact climbs_pure true
    · refine (climbs_getCurrentDataBlock hrank inode file).bind fun r => ?_
      cases r with
      | none => exact Prog.locks_pure rfl
      | some block => exact climbs_get fun o => Climbs.bind climbs_act fun _ => ih _

theorem climbs_readLoop (inode file fuel toRead : Nat) (bytesRead : List UInt8) :
    Climbs held (readLoop inode file fuel toRead bytesRead) := by
  induction fuel generalizing toRead bytesRead with
  | zero => exact climbs_pure _
  | succ fuel ih =>
    rw [readLoop]
    split
    · exact climbs_pure _
    · refine climbs_get fun o => (climbs_getCurrentDataBlock hrank inode file).bind fun r => ?_
      cases r with
      | none => exact Prog.locks_pure rfl
      | some block => exact Climbs.bind climbs_act fun _ => ih _ _

end

theorem climbs_tfsWrite (fhandle : Int) (buffer : List UInt8) : Climbs [] (tfsWrite fhandle buffer) := by
  refine Prog.locks_acquire (by simp [Above]) ?_
  split
  · exact Prog.locks_release (by simp) (Prog.locks_pure (giveBack_self ..))
  · next file _ =>
    refine Prog.locks_acquire (by simp [Above, Lock.rank]) (Prog.locks_release (by simp) ?_)
    rw [giveBack_of_ne (by simp), giveBack_self]
    refine Prog.locks_acquire (by simp [Above, Lock.rank]) (climbs_get fun inumber => ?_)
    split
    · refine Prog.locks_release (by simp) (Prog.locks_release (by simp) (Prog.locks_pure ?_))
      rw [giveBack_self, giveBack_self]
    · next inode _ =>
      refine Prog.locks_acquire (by simp [Above, Lock.rank]) (Prog.locks_release (by simp) ?_)
      rw [giveBack_of_ne (by simp), giveBack_self]
      refine Climbs.bind climbs_act fun initial => ?_
      refine (climbs_writeLoop (by simp [Lock.rank]) inode file _ buffer).bind fun ok => ?_
      split
      · refine Climbs.bind climbs_act fun _ =>
          Prog.locks_release (by simp) (Prog.locks_release (by simp) (Prog.locks_pure ?_))
        rw [giveBack_of_ne (by simp), giveBack_self, giveBack_self]
      · refine Prog.locks_release (by simp) (Prog.locks_release (by simp) (Prog.locks_pure ?_))
        rw [giveBack_self, giveBack_self]

theorem climbs_tfsRead (fhandle : Int) (len : Nat) : Climbs [] (tfsRead fhandle len) := by
  refine Prog.locks_acquire (by simp [Above]) ?_
  split
  · intro s c s' _ _ hf
    cases hf
  · next file _ =>
    refine Prog.locks_acquire (by simp [Above, Lock.rank]) (Prog.locks_release (by simp) ?_)
    rw [giveBack_of_ne (by simp), giveBack_self]
    refine Prog.locks_acquire (by simp [Above, Lock.rank]) (climbs_get fun inumber => ?_)
    split
    · refine Prog.locks_release (by simp) (Prog.locks_release (by simp) (Prog.locks_pure ?_))
      rw [giveBack_of_ne (by simp), giveBack_self, giveBack_self]
    · next inode _ =>
      refine Prog.locks_acquire (by simp [Above, Lock.rank]) (Prog.locks_release (by simp) ?_)
      rw [giveBack_of_ne (by simp), giveBack_self]
      refine climbs_get fun available => (climbs_readLoop (by simp [Lock.rank]) inode file _ _ _).bind fun r => ?_
      split
      · refine Prog.locks_release (by simp) (Prog.locks_release (by simp) (Prog.locks_pure ?_))
        rw [giveBack_of_ne (by simp), giveBack_self, giveBack_self]
      · refine Prog.locks_release (by simp) (Prog.locks_release (by simp) (Prog.locks_pure ?_))
        rw [giveBack_self, giveBack_self]

theorem Transfers.climbs {s₀ : State} {c : Call} (h : Transfers s₀ c) : Climbs [] (body c) := by
  cases c with
  | write fhandle buffer => exact (climbs_tfsWrite fhandle buffer).bind fun _ => Prog.locks_pure rfl
  | read fhandle len => exact climbs_tfsRead fhandle len
  | «open» name flags => exact h.elim
  | close fhandle => exact h.elim

variable {n : Nat} {owner : Owner} {s₀ : State} {p p' : Pool n Lock Label State Call Out} {e : Pool.Event n Call}

structure Underway (s₀ : State) (a : ByteFs Nat) (p : Pool n Lock Label State Call Out) : Prop where
  explained : ∃ w lin log, (regions s₀).Explains a p w lin log
  disciplined : p.Disciplined (fun _ _ => True) (fun _ => True) Above

namespace Underway

variable {a : ByteFs Nat}

theorem init (h : Settled owner s₀) : Underway (n := n) s₀ s₀.abs (.init s₀) where
  explained := ⟨⟨s₀, owner, s₀.abs⟩, _, _, .init (h.sound (shows_abs s₀)) (h.inv (shows_abs s₀))⟩
  disciplined := .init trivial

theorem step (h : Underway s₀ a p) (hs : Settled owner s₀) (hc : ∀ t c, e = .start t c → Transfers s₀ c)
    (ha : p.Assumes Label.Succeeds e) (hm : Pool.Moves body p e p') : Underway s₀ a p' := by
  obtain ⟨w, lin, log, he⟩ := h.explained
  have hfair : Fair s₀ p e := ⟨hc, ha⟩
  refine ⟨?_, h.disciplined.step (fun t c hstart => ?_) ?_ hm⟩
  · obtain ⟨w', lin', log', he'⟩ := he.step (fun t c hstart => (hc t c hstart).implements hs) hfair.allows hm
    exact ⟨w', lin', log', he'⟩
  · exact (hc t c hstart).climbs.mono fun _ _ hheld => hheld
  · cases e with
    | start t c => trivial
    | step t =>
      rw [Pool.Assumes]
      split <;> trivial

theorem idle (h : Underway s₀ a p) (t : Fin n) (hc : (p.thread t).current = none) : (p.thread t).held = [] := by
  have ht := h.disciplined.thread t
  rwa [hc] at ht

end Underway

end Tecnicofs.Ex1
