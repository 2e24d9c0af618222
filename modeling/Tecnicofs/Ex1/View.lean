import Tecnicofs.Ex1.Regions

namespace Tecnicofs.Ex1

open Bytes

/-- The bytes and the block numbers of a file, a handle's offset, and what both stand for. -/
structure View where
  bytes : List UInt8
  offset : Nat
  size : Nat
  slots : Slot → Int
  contents : List UInt8
  handle : Option (Nat × Nat)

def View.setSlot (v : View) (k : Slot) (c : Int) : View := { v with slots := Function.update v.slots k c }

@[simp] theorem View.setSlot_slots (v : View) (k k' : Slot) (c : Int) :
    (v.setSlot k c).slots k' = if k' = k then c else v.slots k' := Function.update_apply ..

def View.write (v : View) (bytes : List UInt8) : View :=
  { v with
    bytes := overwrite v.bytes v.offset bytes
    offset := v.offset + bytes.length
    size := v.size + bytes.length }

def View.read (v : View) (n : Nat) : View := { v with offset := v.offset + n }

structure Knows (i f : Nat) (v : View) (w : FsWorld) : Prop extends FileHolds i v.bytes w where
  slot : ∀ k : Slot, k.Exists → w.state.slot i k = v.slots k
  offset : (w.state.openFileTable f).ofOffset = v.offset
  size : (w.state.inodeTable i).iSize = v.size
  contents : w.abs.contents i = v.contents
  handle : w.abs.handles f = v.handle

structure OnlyFile (i f : Nat) (w w' : FsWorld) : Prop where
  files : ∀ j, j ≠ i → SameFile j w w'
  handles : ∀ g, g ≠ f → SameHandle g w w'

def Fresh (i : Nat) (v : View) (c : Nat) (w : FsWorld) : Prop :=
  w.ghost c = some i ∧ ∀ k : Slot, k.Exists → v.slots k ≠ c

def takeFor (w : FsWorld) (i c : Nat) : FsWorld :=
  ⟨w.state.setDisk (w.state.toDisk.take c), Function.update w.ghost c (some i), w.abs⟩

theorem takeFor_ghost (w : FsWorld) (i c b : Nat) : (takeFor w i c).ghost b = if b = c then some i else w.ghost b :=
  Function.update_apply ..

def stored (w : FsWorld) (a : Nat) (bytes : List UInt8) : FsWorld :=
  { w with state := w.state.setDisk { w.state.toDisk with fsData := w.state.fsData.store a bytes } }

def dropIndirect (w : FsWorld) (i : Nat) : FsWorld :=
  { w with state := w.state.setInode i ((w.state.inodeTable i).setBlock indirectAccessBlock (-1)) }

/-- The i-node names a block whose references are not initialised. -/
structure HalfIndirect (i f : Nat) (v : View) (c : Nat) (w : FsWorld) : Prop where
  named : (w.state.inodeTable i).iDataBlock indirectAccessBlock = c
  missing : v.slots (.entry indirectAccessBlock) = -1
  knows : Knows i f v (dropIndirect w i)
  fresh : Fresh i v c w

variable {i f : Nat} {v : View} {s₀ : State} {w w' : FsWorld}

theorem Fresh.same {c : Nat} (h : Fresh i v c w) (hi : SameFile i w w') : Fresh i v c w' :=
  ⟨(hi.owner c).mpr h.1, h.2⟩

theorem Knows.same (h : Knows i f v w) (hi : SameFile i w w') (hf : SameHandle f w w') : Knows i f v w' where
  toFileHolds := h.toFileHolds.same hi
  slot k hk := (h.owns.slot_congr h.lt hi.inode hi.data hk).trans (h.slot k hk)
  offset := by rw [hf.entry, h.offset]
  size := by rw [hi.inode, h.size]
  contents := by rw [hi.contents, h.contents]
  handle := by rw [hf.handle, h.handle]

theorem SameFile.dropIndirect (h : SameFile i w w') : SameFile i (dropIndirect w i) (dropIndirect w' i) where
  inode := by simp only [Ex1.dropIndirect, State.setInode_inodeTable, if_true, h.inode]
  owner := h.owner
  data := h.data
  contents := h.contents

theorem HalfIndirect.same {c : Nat} (h : HalfIndirect i f v c w) (hi : SameFile i w w') (hf : SameHandle f w w') :
    HalfIndirect i f v c w' where
  named := by rw [hi.inode, h.named]
  missing := h.missing
  knows := h.knows.same hi.dropIndirect ⟨hf.entry, hf.handle⟩
  fresh := h.fresh.same hi

theorem Sound.setState (hs : Sound s₀ w) {s : State} (hk : Kept w.state s) (hf : s.freeBlocks = w.state.freeBlocks) :
    Sound s₀ { w with state := s } where
  kept := hs.kept.trans hk
  taken b j hb := by
    rw [hf]
    exact hs.taken b j hb
  root := hs.root
  handles := hs.handles

theorem Sound.ne_zero (hs : Sound s₀ w) (hi : i ≠ 0) {b : Nat} (hb : w.ghost b = some i) : b ≠ 0 := by
  rintro rfl
  exact hi (Option.some.inj (hb.symm.trans hs.root))

theorem sameFile_setInode {j : Nat} (h : j ≠ i) (x : Inode) :
    SameFile j w { w with state := w.state.setInode i x } where
  inode := by simp [State.setInode_inodeTable, h]
  owner _ := Iff.rfl
  data _ _ _ _ := rfl
  contents := rfl

theorem sameFile_stored {j b o : Nat} (h : j ≠ i) (hb : w.ghost b = some i) {bytes : List UInt8}
    (hlen : o + bytes.length ≤ blockSize) : SameFile j w (stored w (b * blockSize + o) bytes) where
  inode := rfl
  owner _ := Iff.rfl
  data c hc x hx := by
    have hne : c ≠ b := by
      rintro rfl
      exact h (Option.some.inj (hc.symm.trans hb))
    simp only [blockSize] at hlen hx
    exact Mem.store_of_notMem _ (by simp only [blockSize]; omega)
  contents := rfl

theorem takeFor_slot (c j : Nat) (k : Slot) : (takeFor w i c).state.slot j k = w.state.slot j k := by cases k <;> rfl

theorem Knows.takeFor (h : Knows i f v w) (hs : Sound s₀ w) {c : Nat} (hc : c < dataBlocks)
    (hfree : w.state.freeBlocks c = .free) :
    Knows i f v (takeFor w i c) ∧ Sound s₀ (takeFor w i c) ∧ OnlyFile i f w (takeFor w i c) ∧
      Fresh i v c (takeFor w i c) := by
  have hnone : w.ghost c = none := hs.taken.owner_of_free hfree
  have hkeep : ∀ b j, w.ghost b = some j → (Ex1.takeFor w i c).ghost b = some j := by
    intro b j hb
    rw [takeFor_ghost, if_neg, hb]
    rintro rfl
    cases hnone.symm.trans hb
  have hold : ∀ b j, (Ex1.takeFor w i c).ghost b = some j → b = c ∧ j = i ∨ w.ghost b = some j := by
    intro b j hb
    rw [takeFor_ghost] at hb
    split at hb
    · next hbc => exact .inl ⟨hbc, (Option.some.inj hb).symm⟩
    · exact .inr hb
  refine ⟨?_, ?_, ⟨fun j hj => ?_, fun g _ => ⟨rfl, rfl⟩⟩, by rw [takeFor_ghost, if_pos rfl], fun k hk he => ?_⟩
  · exact {
      toFileHolds := h.toFileHolds.congr
        (fun b hb => (hold b i hb).elim (fun hbc => hbc.1 ▸ hc) (h.lt b))
        (h.owns.congr (fun b hb => hkeep b i hb) fun k _ => takeFor_slot c i k)
        (fun k _ => takeFor_slot c i _) fun _ _ _ _ _ _ _ => rfl
      slot := fun k hk => (takeFor_slot c i k).trans (h.slot k hk)
      offset := h.offset
      size := h.size
      contents := h.contents
      handle := h.handle }
  · exact {
      kept := hs.kept.trans (.take c)
      taken := fun b j hb => by
        have hfree' : (Ex1.takeFor w i c).state.freeBlocks b = if b = c then .taken else w.state.freeBlocks b :=
          Disk.take_freeBlocks ..
        rcases hold b j hb with ⟨rfl, -⟩ | hb
        · exact ⟨hc, by rw [hfree', if_pos rfl]⟩
        · obtain ⟨hlt, ht⟩ := hs.taken b j hb
          exact ⟨hlt, by rw [hfree', ht, ite_self]⟩
      root := hkeep 0 0 hs.root
      handles := hs.handles }
  · exact {
      inode := rfl
      owner := fun b => ⟨fun hb => (hold b j hb).resolve_left fun hbc => hj hbc.2, hkeep b j⟩
      data := fun _ _ _ _ => rfl
      contents := rfl }
  · have hslot := (h.slot k hk).trans he
    obtain ⟨b, hb, ho⟩ := h.owns.slot k hk (by rw [hslot]; omega)
    obtain rfl : c = b := by
      rw [hslot] at hb
      omega
    cases hnone.symm.trans ho

theorem Knows.setSlot (h : Knows i f v w) {s : State} {k₀ : Slot} {c : Nat} (hno : v.slots k₀ = -1) (hk₀ : k₀.Exists)
    (hfresh : Fresh i v c w) (hslot : ∀ k : Slot, k.Exists → s.slot i k = if k = k₀ then (c : Int) else w.state.slot i k)
    (hdata : ∀ k (b : Nat), k * blockSize < v.bytes.length → w.state.slot i (dataSlot k) = b → w.ghost b = some i →
      ∀ o < blockSize, s.fsData (b * blockSize + o) = w.state.fsData (b * blockSize + o))
    (hoff : s.openFileTable = w.state.openFileTable) (hsize : (s.inodeTable i).iSize = (w.state.inodeTable i).iSize) :
    Knows i f (v.setSlot k₀ c) { w with state := s } := by
  have hmissing : w.state.slot i k₀ = -1 := (h.slot k₀ hk₀).trans hno
  exact {
    toFileHolds := h.toFileHolds.congr h.lt
      (h.owns.update (fun k hk hne => by rw [hslot k hk, if_neg hne])
        (.inr ⟨c, by rw [hslot k₀ hk₀, if_pos rfl], hfresh.1, fun k hk _ he => hfresh.2 k hk ((h.slot k hk).symm.trans he)⟩))
      (fun k hk => by
        rw [hslot _ (h.dataSlot_exists hk), if_neg]
        rintro rfl
        exact h.allocated k hk hmissing)
      hdata
    slot := fun k hk => by
      rw [hslot k hk, View.setSlot_slots, h.slot k hk]
    offset := by
      rw [hoff]
      exact h.offset
    size := hsize.trans h.size
    contents := h.contents
    handle := h.handle }

theorem Knows.setEntry (h : Knows i f v w) (hs : Sound s₀ w) (hi : i ≠ 0) {k c : Nat} (hk : k < indirectAccessBlock)
    (hno : v.slots (.entry k) = -1) (hfresh : Fresh i v c w) :
    Knows i f (v.setSlot (.entry k) c) { w with state := w.state.setInode i ((w.state.inodeTable i).setBlock k c) } ∧
      Sound s₀ { w with state := w.state.setInode i ((w.state.inodeTable i).setBlock k c) } ∧
      OnlyFile i f w { w with state := w.state.setInode i ((w.state.inodeTable i).setBlock k c) } := by
  refine ⟨?_, hs.setState (.setBlock hi ..) rfl, fun j hj => sameFile_setInode hj _, fun _ _ => ⟨rfl, rfl⟩⟩
  refine h.setSlot hno (Nat.lt_succ_of_lt hk) hfresh (fun k' _ => slot_setBlock (Nat.ne_of_lt hk) c k')
    (fun _ _ _ _ _ _ _ => rfl) rfl ?_
  simp [State.setInode_inodeTable, Inode.setBlock]

theorem Knows.halfIndirect (h : Knows i f v w) (hs : Sound s₀ w) (hi : i ≠ 0)
    (hno : v.slots (.entry indirectAccessBlock) = -1) {c : Nat} (hfresh : Fresh i v c w) :
    let s := w.state.setInode i ((w.state.inodeTable i).setBlock indirectAccessBlock c)
    HalfIndirect i f v c { w with state := s } ∧ Sound s₀ { w with state := s } ∧ OnlyFile i f w { w with state := s } := by
  have hmissing : (w.state.inodeTable i).iDataBlock indirectAccessBlock = -1 :=
    (h.slot (.entry indirectAccessBlock) (by decide)).trans hno
  have hback : ((w.state.inodeTable i).setBlock indirectAccessBlock c).setBlock indirectAccessBlock (-1) =
      w.state.inodeTable i := by
    simp [Inode.setBlock, ← hmissing]
  refine ⟨⟨?_, hno, ?_, hfresh⟩, hs.setState (.setBlock hi ..) rfl, fun j hj => sameFile_setInode hj _,
    fun _ _ => ⟨rfl, rfl⟩⟩
  · simp [State.setInode_inodeTable, Inode.setBlock]
  · have hsame : dropIndirect { w with
        state := w.state.setInode i ((w.state.inodeTable i).setBlock indirectAccessBlock c) } i = w := by
      simp only [dropIndirect, State.setInode, Function.update_self, Function.update_idem, hback, Function.update_eq_self]
    rw [hsame]
    exact h

theorem HalfIndirect.fill {c : Nat} (h : HalfIndirect i f v c w) (hs : Sound s₀ w) (hi : i ≠ 0) :
    Knows i f (v.setSlot (.entry indirectAccessBlock) c) (stored w (c * blockSize) noReferences) ∧
      Sound s₀ (stored w (c * blockSize) noReferences) ∧ OnlyFile i f w (stored w (c * blockSize) noReferences) := by
  have hlt : c < dataBlocks := h.knows.lt c h.fresh.1
  have hc0 := hs.ne_zero hi h.fresh.1
  have hsize := length_noReferences
  have hfiles : ∀ j, j ≠ i → SameFile j w (stored w (c * blockSize) noReferences) := fun j hj => by
    rw [← Nat.add_zero (c * blockSize)]
    exact sameFile_stored hj h.fresh.1 (by rw [hsize, Nat.zero_add])
  have hge : blockSize ≤ c * blockSize := Nat.le_mul_of_pos_left _ (Nat.pos_of_ne_zero hc0)
  have hkept : Kept w.state (stored w (c * blockSize) noReferences).state := .store hge _
  refine ⟨?_, hs.setState hkept rfl, hfiles, fun _ _ => ⟨rfl, rfl⟩⟩
  refine h.knows.setSlot h.missing (by decide) h.fresh (fun k hk => ?_) (fun k b hk hb ho x hx => ?_) rfl ?_
  · cases k with
    | entry k =>
      by_cases hlast : k = indirectAccessBlock
      · subst hlast
        rw [if_pos rfl]
        exact h.named
      · rw [if_neg (by simpa using hlast)]
        simp only [State.slot, State.setDisk_inodeTable, dropIndirect, State.setInode_inodeTable, if_true, Inode.setBlock]
        exact (Function.update_of_ne hlast ..).symm
    | indirect j =>
      have hdropped : (dropIndirect w i).state.slot i (.indirect j) = -1 :=
        slot_indirect_of_none (by simp [dropIndirect, State.setInode_inodeTable, Inode.setBlock]) j
      rw [if_neg (by simp), hdropped, slot_indirect (by exact h.named) hlt]
      exact loadInt_noReferences _ _ hk
  · have hne : b ≠ c := by
      rintro rfl
      exact h.fresh.2 _ (h.knows.dataSlot_exists hk) ((h.knows.slot _ (h.knows.dataSlot_exists hk)).symm.trans hb)
    simp only [blockSize] at hx hsize
    exact Mem.store_of_notMem _ (by simp only [blockSize]; omega)
  · simp [dropIndirect, State.setInode_inodeTable, Inode.setBlock]

theorem Knows.setReference (h : Knows i f v w) (hs : Sound s₀ w) (hi : i ≠ 0) {e j c : Nat}
    (he : v.slots (.entry indirectAccessBlock) = e) (hj : j < indirectReferences) (hno : v.slots (.indirect j) = -1)
    (hfresh : Fresh i v c w) :
    Knows i f (v.setSlot (.indirect j) c) (stored w (e * blockSize + 4 * j) (encodeInt c)) ∧
      Sound s₀ (stored w (e * blockSize + 4 * j) (encodeInt c)) ∧
      OnlyFile i f w (stored w (e * blockSize + 4 * j) (encodeInt c)) := by
  have hlast : (w.state.inodeTable i).iDataBlock indirectAccessBlock = e :=
    (h.slot (.entry indirectAccessBlock) (by decide)).trans he
  obtain ⟨b, hb, ho⟩ := h.owns.indirectBlock (by rw [State.slot, hlast]; omega)
  obtain rfl : e = b := by
    rw [hlast] at hb
    omega
  have hc : IsInt (c : Int) := by
    have := h.lt c hfresh.1
    simp only [dataBlocks] at this
    exact ⟨by omega, by omega⟩
  have hfit : 4 * j + (encodeInt c).length ≤ blockSize := by
    simp only [indirectReferences, blockSize, length_encodeInt] at hj ⊢
    omega
  refine ⟨?_, hs.setState (.store (blockSize_le (hs.ne_zero hi ho) _) _) rfl,
    fun j' hj' => sameFile_stored hj' ho hfit, fun _ _ => ⟨rfl, rfl⟩⟩
  refine h.setSlot hno hj hfresh (fun k hk => slot_store hlast (h.lt e ho) hc k) (fun k b hk hkb hob x hx => ?_) rfl rfl
  have hne : b ≠ e := by
    rintro rfl
    exact dataSlot_ne_last k (h.owns.inj _ (.entry indirectAccessBlock) (h.dataSlot_exists hk) (by decide)
      (by rw [hkb]; omega) (hkb.trans hlast.symm))
  simp only [blockSize] at hx hfit
  exact Mem.store_of_notMem _ (by simp only [blockSize]; omega)

structure CurrentBlock (i : Nat) (v : View) (b : Nat) (w : FsWorld) : Prop where
  slot : v.slots (dataSlot (v.offset / blockSize)) = b
  owned : w.ghost b = some i

theorem Knows.slot_wrote (h : Knows i f v w) {b o : Nat} {k₀ : Slot} (hex : k₀.Exists) (hne : k₀ ≠ .entry indirectAccessBlock)
    (hb : w.state.slot i k₀ = b) {bytes : List UInt8} (hlen : o + bytes.length ≤ blockSize) {k : Slot} (hk : k.Exists) :
    (wrote w.state i f (b * blockSize + o) bytes).slot i k = w.state.slot i k :=
  h.owns.slot_wrote h.lt hex hne hb hlen hk

theorem Knows.byteAt_wrote (h : Knows i f v w) {b : Nat} (hb : CurrentBlock i v b w) {bytes : List UInt8}
    (hex : (dataSlot (v.offset / blockSize)).Exists) (hlen : v.offset % blockSize + bytes.length ≤ blockSize)
    (hoff : v.offset ≤ v.bytes.length) {x : Nat} (hx : x < max v.bytes.length (v.offset + bytes.length)) :
    (wrote w.state i f (b * blockSize + v.offset % blockSize) bytes).byteAt i x =
      (overwrite v.bytes v.offset bytes).getD x 0 := by
  have hslot : w.state.slot i (dataSlot (v.offset / blockSize)) = b := (h.slot _ hex).trans hb.slot
  rw [getD_overwrite hoff]
  by_cases hin : v.offset ≤ x ∧ x < v.offset + bytes.length
  · have hdiv : x / blockSize = v.offset / blockSize := by
      simp only [blockSize] at hlen ⊢
      omega
    have hcur := (h.slot_wrote hex (dataSlot_ne_last _) hslot hlen hex).trans hslot
    rw [if_pos hin, byteAt_eq (by rwa [hdiv]) (h.lt b hb.owned), wrote_fsData]
    have hmod : x % blockSize = v.offset % blockSize + (x - v.offset) := by
      simp only [blockSize] at hlen hdiv ⊢
      omega
    rw [Mem.store_of_mem _ (by omega) (by omega)]
    congr 1
    omega
  · have hold : x < v.bytes.length := by omega
    have hk : x / blockSize * blockSize < v.bytes.length := lt_of_le_of_lt (Nat.div_mul_le_self ..) hold
    obtain ⟨c, hc, ho⟩ := h.block hk
    have hex' := h.dataSlot_exists hk
    rw [if_neg hin, ← fileBytes_eq_iff.mp h.stored x hold, byteAt_eq hc (h.lt c ho),
      byteAt_eq ((h.slot_wrote hex (dataSlot_ne_last _) hslot hlen hex').trans hc) (h.lt c ho), wrote_fsData]
    by_cases hcb : c = b
    · subst hcb
      have hdiv : x / blockSize = v.offset / blockSize :=
        dataSlot_inj (h.owns.inj _ _ hex' hex (by rw [hc]; omega) (hc.trans hslot.symm))
      refine Mem.store_of_notMem _ ?_
      simp only [blockSize] at hdiv hlen ⊢
      omega
    · refine Mem.store_of_notMem _ ?_
      simp only [blockSize] at hlen ⊢
      omega

theorem Knows.write (h : Knows i f v w) (hs : Sound s₀ w) (hi : i ≠ 0) {b : Nat} (hb : CurrentBlock i v b w)
    {bytes : List UInt8} (hlen : v.offset % blockSize + bytes.length ≤ blockSize) (hoff : v.offset ≤ v.bytes.length)
    (hmax : v.offset + bytes.length ≤ maxFileSize) (hpos : 0 < bytes.length) (hsize : v.size + bytes.length < 2 ^ 64) :
    let s := wrote w.state i f (b * blockSize + v.offset % blockSize) bytes
    Knows i f (v.write bytes) { w with state := s } ∧ Sound s₀ { w with state := s } ∧
      OnlyFile i f w { w with state := s } := by
  have hex : (dataSlot (v.offset / blockSize)).Exists :=
    Ex1.dataSlot_exists (lt_of_le_of_lt (Nat.div_mul_le_self ..) (by omega))
  have hslot : w.state.slot i (dataSlot (v.offset / blockSize)) = b := (h.slot _ hex).trans hb.slot
  have hslots : ∀ k : Slot, k.Exists → _ := fun k hk => h.slot_wrote hex (dataSlot_ne_last _) hslot hlen hk
  have hlength : (overwrite v.bytes v.offset bytes).length = max v.bytes.length (v.offset + bytes.length) :=
    length_overwrite hoff
  have hbound : maxFileSize < 2 ^ 63 := by decide
  refine ⟨?_, hs.setState (.wrote hi (blockSize_le (hs.ne_zero hi hb.owned) _) _) rfl, fun j hj => ?_, fun g hg => ?_⟩
  · exact {
      lt := h.lt
      owns := h.owns.congr (fun _ => id) hslots
      allocated := fun k hk => by
        have hk : k * blockSize < max v.bytes.length (v.offset + bytes.length) := by rwa [← hlength]
        by_cases hold : k * blockSize < v.bytes.length
        · rw [hslots _ (h.dataSlot_exists hold)]
          exact h.allocated k hold
        · have hkn : k = v.offset / blockSize := by
            simp only [blockSize] at hk hold hlen ⊢
            omega
          rw [hkn, hslots _ hex, hslot]
          omega
      stored := fileBytes_eq_iff.mpr fun x hx => h.byteAt_wrote hb hex hlen hoff (by rwa [← hlength])
      short := by
        have := h.short
        simp only [View.write, hlength]
        omega
      slot := fun k hk => (hslots k hk).trans (h.slot k hk)
      offset := by
        rw [wrote_offset, h.offset]
        exact szAdd_of_lt (by omega)
      size := by
        simp only [wrote, State.setInode_inodeTable, if_true, h.size]
        exact szAdd_of_lt hsize
      contents := h.contents
      handle := h.handle }
  · have hst := sameFile_stored (w := w) hj hb.owned hlen
    exact ⟨by simp [wrote, State.setInode_inodeTable, hj], hst.owner, hst.data, rfl⟩
  · refine ⟨?_, rfl⟩
    simp [wrote, OpenFiles.setOffset_table, hg]

theorem Knows.read (h : Knows i f v w) {b n : Nat} (hb : CurrentBlock i v b w)
    (hlen : v.offset % blockSize + n ≤ blockSize) (hn : v.offset + n ≤ v.bytes.length) (hpos : 0 < n) :
    w.state.fsData.load (b * blockSize + v.offset % blockSize) n = (v.bytes.drop v.offset).take n ∧
      Knows i f (v.read n) { w with
        state := w.state.setFiles (w.state.toOpenFiles.setOffset f (szAdd (w.state.openFileTable f).ofOffset n)) } := by
  have hk : v.offset / blockSize * blockSize < v.bytes.length :=
    lt_of_le_of_lt (Nat.div_mul_le_self ..) (by omega)
  have hslot : w.state.slot i (dataSlot (v.offset / blockSize)) = b :=
    (h.slot _ (h.dataSlot_exists hk)).trans hb.slot
  have hlt := h.lt b hb.owned
  have hbound : maxFileSize < 2 ^ 63 := by decide
  have hshort := h.short
  refine ⟨?_, ?_⟩
  · apply List.ext_getElem (by simp; omega)
    intro x hx hx'
    have hxn : x < n := by simpa using hx
    have hdiv : (v.offset + x) / blockSize = v.offset / blockSize := by
      simp only [blockSize] at hlen ⊢
      omega
    have hbyte := fileBytes_eq_iff.mp h.stored (v.offset + x) (by omega)
    rw [byteAt_eq (by rwa [hdiv]) hlt] at hbyte
    have hmod : (v.offset + x) % blockSize = v.offset % blockSize + x := by
      simp only [blockSize] at hlen hdiv ⊢
      omega
    simp only [Mem.load, List.getElem_map, List.getElem_range, List.getElem_take, List.getElem_drop]
    rw [hmod, ← Nat.add_assoc] at hbyte
    rw [hbyte, List.getD, List.getElem?_eq_getElem (by omega), Option.getD_some]
  · exact {
      toFileHolds := h.toFileHolds.same ⟨rfl, fun _ => Iff.rfl, fun _ _ _ _ => rfl, rfl⟩
      slot := fun k hk => (by cases k <;> rfl : _ = w.state.slot i k).trans (h.slot k hk)
      offset := by
        simp only [State.setFiles_toOpenFiles, OpenFiles.setOffset_table, if_true, View.read, h.offset]
        exact szAdd_of_lt (by omega)
      size := h.size
      contents := h.contents
      handle := h.handle }

end Tecnicofs.Ex1
