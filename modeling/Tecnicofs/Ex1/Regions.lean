import Tecnicofs.Ex1.Slots
import Tecnicofs.Lib.Regions

/-! Project 1: what the locks protect.  An i-node's lock stands for the bytes of its file, a handle's lock for its
offset. -/

namespace Tecnicofs.Ex1

open Bytes

abbrev FsWorld := World State Owner (ByteFs Nat)

/-- A file has at most as many names as the directory entries, handles as the table, and no bound on its bytes here. -/
def limits : Limits := ⟨maxDirEntries, maxOpenFiles, none⟩

def State.fileOf (s : State) (f : Nat) : Nat := (s.openFileTable f).ofInumber.toNat

variable {i f : Nat} {w w' w'' : FsWorld}

structure SameFile (i : Nat) (w w' : FsWorld) : Prop where
  inode : w'.state.inodeTable i = w.state.inodeTable i
  owner : ∀ b, w'.ghost b = some i ↔ w.ghost b = some i
  data : ∀ b, w.ghost b = some i → ∀ o < blockSize,
    w'.state.fsData (b * blockSize + o) = w.state.fsData (b * blockSize + o)
  contents : w'.abs.contents i = w.abs.contents i

structure SameHandle (f : Nat) (w w' : FsWorld) : Prop where
  entry : w'.state.openFileTable f = w.state.openFileTable f
  handle : w'.abs.handles f = w.abs.handles f

structure FileHolds (i : Nat) (bytes : List UInt8) (w : FsWorld) : Prop where
  lt : ∀ b, w.ghost b = some i → b < dataBlocks
  owns : FileOwns w.ghost w.state i
  allocated : ∀ k, k * blockSize < bytes.length → w.state.slot i (dataSlot k) ≠ -1
  stored : w.state.fileBytes i bytes.length = bytes
  short : bytes.length ≤ maxFileSize

structure FileOk (i : Nat) (w : FsWorld) : Prop extends FileHolds i (w.abs.contents i) w where
  size : (w.state.inodeTable i).iSize = (w.abs.contents i).length

/-- Blocks have owners, the directory and the handles are those of `s₀`, and no offset is past the end. -/
structure Sound (s₀ : State) (w : FsWorld) : Prop where
  kept : Kept s₀ w.state
  taken : BlocksTaken w.ghost w.state.toDisk
  root : w.ghost 0 = some 0
  handles : ∀ f < maxOpenFiles, s₀.freeOpenFileEntries f = .taken →
    ∃ o, w.abs.handles f = some (s₀.fileOf f, o) ∧ o ≤ (w.abs.contents (s₀.fileOf f)).length

theorem SameFile.refl : SameFile i w w := ⟨rfl, fun _ => Iff.rfl, fun _ _ _ _ => rfl, rfl⟩

theorem SameFile.trans (h : SameFile i w w') (h' : SameFile i w' w'') : SameFile i w w'' where
  inode := h'.inode.trans h.inode
  owner b := (h'.owner b).trans (h.owner b)
  data b hb o ho := (h'.data b ((h.owner b).mpr hb) o ho).trans (h.data b hb o ho)
  contents := h'.contents.trans h.contents

theorem SameHandle.refl : SameHandle f w w := ⟨rfl, rfl⟩

theorem SameHandle.trans (h : SameHandle f w w') (h' : SameHandle f w' w'') : SameHandle f w w'' :=
  ⟨h'.entry.trans h.entry, h'.handle.trans h.handle⟩

theorem fileBytes_eq_iff {s : State} {bytes : List UInt8} :
    s.fileBytes i bytes.length = bytes ↔ ∀ x < bytes.length, s.byteAt i x = bytes.getD x 0 := by
  constructor
  · intro h x hx
    rw [← h]
    simp [State.fileBytes, List.getD, hx]
  · intro h
    apply List.ext_getElem (by simp)
    intro x hx hx'
    simp [State.fileBytes, h x hx', List.getD, hx']

theorem byteAt_eq {s : State} {x b : Nat} (h : s.slot i (dataSlot (x / blockSize)) = b) (hb : b < dataBlocks) :
    s.byteAt i x = s.fsData (b * blockSize + x % blockSize) := by
  rw [State.byteAt, h, dataBlockGet_of_lt hb]

namespace FileHolds

variable {bytes : List UInt8}

theorem dataSlot_exists (h : FileHolds i bytes w) {k : Nat} (hk : k * blockSize < bytes.length) : (dataSlot k).Exists :=
  Ex1.dataSlot_exists (lt_of_lt_of_le hk h.short)

theorem block (h : FileHolds i bytes w) {k : Nat} (hk : k * blockSize < bytes.length) :
    ∃ b : Nat, w.state.slot i (dataSlot k) = b ∧ w.ghost b = some i :=
  h.owns.slot _ (h.dataSlot_exists hk) (h.allocated k hk)

theorem congr (h : FileHolds i bytes w) (hlt : ∀ b, w'.ghost b = some i → b < dataBlocks)
    (ho : FileOwns w'.ghost w'.state i)
    (hs : ∀ k, k * blockSize < bytes.length → w'.state.slot i (dataSlot k) = w.state.slot i (dataSlot k))
    (hd : ∀ k (b : Nat), k * blockSize < bytes.length → w.state.slot i (dataSlot k) = b → w.ghost b = some i →
      ∀ o < blockSize, w'.state.fsData (b * blockSize + o) = w.state.fsData (b * blockSize + o)) :
    FileHolds i bytes w' where
  lt := hlt
  owns := ho
  allocated k hk := by
    rw [hs k hk]
    exact h.allocated k hk
  stored := by
    refine fileBytes_eq_iff.mpr fun x hx => ?_
    have hk : x / blockSize * blockSize < bytes.length := lt_of_le_of_lt (Nat.div_mul_le_self ..) hx
    obtain ⟨b, hb, hob⟩ := h.block hk
    rw [← fileBytes_eq_iff.mp h.stored x hx, byteAt_eq hb (h.lt b hob),
      byteAt_eq (by rwa [hs _ hk]) (h.lt b hob), hd _ b hk hb hob _ (Nat.mod_lt _ (by decide))]
  short := h.short

theorem same (h : FileHolds i bytes w) (hw : SameFile i w w') : FileHolds i bytes w' := by
  have hslot : ∀ k : Slot, k.Exists → w'.state.slot i k = w.state.slot i k := fun k hk =>
    h.owns.slot_congr h.lt hw.inode hw.data hk
  refine h.congr (fun b hb => h.lt b ((hw.owner b).mp hb)) ?_ (fun k hk => hslot _ (h.dataSlot_exists hk))
    fun k b _ _ hob => hw.data b hob
  exact h.owns.congr (fun b hb => (hw.owner b).mpr hb) hslot

end FileHolds

theorem FileOk.same (h : FileOk i w) (hw : SameFile i w w') : FileOk i w' where
  toFileHolds := by
    rw [hw.contents]
    exact h.toFileHolds.same hw
  size := by rw [hw.inode, hw.contents, h.size]

/-- What each lock protects in runs of reads and writes from `s₀`. -/
def regions (s₀ : State) : Regions Lock Label State Owner (ByteFs Nat) Call Out where
  allows
    | .alloc, s => Label.alloc.Succeeds s
    | .write file len, s => (Label.write file len).Succeeds s
    | .inodeSearch, _ => True
  spec := ByteFs.transfer limits
  Same
    | .rwl i => SameFile i
    | .file f => SameHandle f
    | .inodeTable | .openFileTable | .blockTable => fun _ _ => True
  Inv
    | .rwl i => fun w => s₀.IsFile i → FileOk i w
    | .file f => fun w => f < maxOpenFiles → s₀.freeOpenFileEntries f = .taken →
        w.abs.handles f = some (s₀.fileOf f, (w.state.openFileTable f).ofOffset)
    | .inodeTable | .openFileTable | .blockTable => fun _ => True
  Global := Sound s₀
  same_refl
    | .rwl _, _ => .refl
    | .file _, _ => .refl
    | .inodeTable, _ | .openFileTable, _ | .blockTable, _ => trivial
  same_trans
    | .rwl _, _, _, _ => .trans
    | .file _, _, _, _ => .trans
    | .inodeTable, _, _, _ | .openFileTable, _, _, _ | .blockTable, _, _, _ => fun _ _ => trivial
  inv_of_same
    | .rwl _, _, _ => fun hs hi hf => (hi hf).same hs
    | .file _, _, _ => fun hs hi hf ht => by rw [hs.handle, hs.entry, hi hf ht]
    | .inodeTable, _, _ | .openFileTable, _, _ | .blockTable, _, _ => fun _ _ => trivial

end Tecnicofs.Ex1
