import Tecnicofs.Ex1.Ownership
import Tecnicofs.Ex1.Transfer

namespace Tecnicofs.Ex1

open Bytes

/-- No offset is past the end of its file, no file too long, and all blocks below the sizes exist. -/
structure Settled (owner : Owner) (s : State) : Prop extends Consistent owner s where
  allocated : ∀ i, s.IsFile i → ∀ k, k * blockSize < (s.inodeTable i).iSize → s.slot i (dataSlot k) ≠ -1
  short : ∀ i, s.IsFile i → (s.inodeTable i).iSize ≤ maxFileSize
  offsets : ∀ f < maxOpenFiles, s.freeOpenFileEntries f = .taken →
    (s.openFileTable f).ofOffset ≤ (s.inodeTable (s.fileOf f)).iSize

def State.bytesOf (s : State) (i : Nat) : List UInt8 := s.fileBytes i (s.inodeTable i).iSize

@[simp] theorem length_bytesOf (s : State) (i : Nat) : (s.bytesOf i).length = (s.inodeTable i).iSize := by
  simp [State.bytesOf]

structure Shows (s : State) (fs : ByteFs Nat) : Prop where
  contents : ∀ i, s.IsFile i → fs.contents i = s.bytesOf i
  handles : ∀ f < maxOpenFiles, s.freeOpenFileEntries f = .taken →
    fs.handles f = some (s.fileOf f, (s.openFileTable f).ofOffset)

def State.abs (s : State) : ByteFs Nat where
  names := []
  contents := s.bytesOf
  handles f := if s.freeOpenFileEntries f = .taken then some (s.fileOf f, (s.openFileTable f).ofOffset) else none

theorem shows_abs (s : State) : Shows s s.abs := ⟨fun _ _ => rfl, fun _ _ ht => if_pos ht⟩

variable {owner : Owner} {s s₀ s' : State} {fs : ByteFs Nat} {w : FsWorld} {i f : Nat}

theorem Consistent.onFile (h : Consistent owner s) (hf : f < maxOpenFiles) (ht : s.freeOpenFileEntries f = .taken) :
    ∃ i, OnFile s f i := by
  obtain ⟨i, hin, hi⟩ := h.handles f hf ht
  exact ⟨i, hf, ht, hin, hi, h.ne_zero hi⟩

namespace Settled

theorem fileOk (h : Settled owner s) (hs : Shows s fs) (hi : s.IsFile i) : FileOk i ⟨s, owner, fs⟩ where
  lt b hb := (h.taken b i hb).1
  owns := h.files i hi
  allocated k hk := by
    rw [hs.contents i hi, length_bytesOf] at hk
    exact h.allocated i hi k hk
  stored := by
    rw [hs.contents i hi, length_bytesOf]
    rfl
  short := by
    rw [hs.contents i hi, length_bytesOf]
    exact h.short i hi
  size := by rw [hs.contents i hi, length_bytesOf]

theorem inv (h : Settled owner s) (hs : Shows s fs) : ∀ l, (regions s).Inv l ⟨s, owner, fs⟩
  | .rwl _ => fun hi => h.fileOk hs hi
  | .file f => fun hf ht => hs.handles f hf ht
  | .inodeTable | .openFileTable | .blockTable => trivial

theorem sound (h : Settled owner s) (hs : Shows s fs) : Sound s ⟨s, owner, fs⟩ where
  kept := .refl s
  taken := h.taken
  root := h.ownerRoot
  handles f hf ht := by
    refine ⟨_, hs.handles f hf ht, ?_⟩
    obtain ⟨i, hi⟩ := h.onFile hf ht
    have hle := h.offsets f hf ht
    rw [hi.fileOf] at hle ⊢
    rwa [hs.contents i hi.isFile, length_bytesOf]

end Settled

theorem Settled.of_sound (h : Consistent owner s₀) (hs : Sound s₀ w) (hi : ∀ l, (regions s₀).Inv l w) :
    Settled w.ghost w.state ∧ Shows w.state w.abs := by
  have hfile : ∀ i, w.state.IsFile i → FileOk i w := fun i hf => hi (.rwl i) (hs.kept.isFile.mp hf)
  have hcons : Consistent w.ghost w.state := h.keep hs.kept hs.taken hs.root fun i hf =>
    (hfile i (hs.kept.isFile.mpr hf)).owns
  have hhandle : ∀ f < maxOpenFiles, w.state.freeOpenFileEntries f = .taken →
      w.abs.handles f = some (w.state.fileOf f, (w.state.openFileTable f).ofOffset) := by
    intro f hf ht
    rw [hs.kept.handles] at ht
    rw [State.fileOf, hs.kept.inumber]
    exact hi (.file f) hf ht
  have hcontents : ∀ i, w.state.IsFile i → w.abs.contents i = w.state.bytesOf i := fun i hf => by
    rw [State.bytesOf, (hfile i hf).size, (hfile i hf).stored]
  refine ⟨{ hcons with
    allocated := fun i hf k hk => (hfile i hf).allocated k (by rwa [← (hfile i hf).size])
    short := fun i hf => by
      rw [(hfile i hf).size]
      exact (hfile i hf).short
    offsets := fun f hf ht => ?_ }, ⟨hcontents, hhandle⟩⟩
  obtain ⟨o, ho, hle⟩ := hs.handles f hf (by rwa [← hs.kept.handles])
  obtain ⟨i, hon⟩ := hcons.onFile hf ht
  have heq := hhandle f hf ht
  have hof : s₀.fileOf f = w.state.fileOf f := by rw [State.fileOf, State.fileOf, hs.kept.inumber]
  rw [hof] at ho hle
  cases Option.some.inj (heq.symm.trans ho)
  rwa [hon.fileOf, (hfile i hon.isFile).size, ← hon.fileOf]

end Tecnicofs.Ex1
