import Tecnicofs.Ex1.Operations

namespace Tecnicofs.Ex1

open Bytes

/-- A place for a block number: an entry of `i_data_block`, or of the block that its last entry names. -/
inductive Slot
  | entry (k : Nat)
  | indirect (j : Nat)
  deriving DecidableEq

def Slot.Exists : Slot → Prop
  | entry k => k < blocks
  | indirect j => j < indirectReferences

instance : ∀ k : Slot, Decidable k.Exists
  | .entry _ | .indirect _ => inferInstanceAs (Decidable (_ < _))

def State.slot (s : State) (i : Nat) : Slot → Int
  | .entry k => (s.inodeTable i).iDataBlock k
  | .indirect j =>
    match dataBlockGet ((s.inodeTable i).iDataBlock indirectAccessBlock) with
    | some a => s.fsData.loadInt (a + 4 * j)
    | none => -1

/-- The i-node that each block belongs to. -/
abbrev Owner := Nat → Option Nat

/-- What the slots of a file name are different blocks of this file. -/
structure FileOwns (owner : Owner) (s : State) (i : Nat) : Prop where
  slot : ∀ k : Slot, k.Exists → s.slot i k ≠ -1 → ∃ b : Nat, s.slot i k = b ∧ owner b = some i
  inj : ∀ k k' : Slot, k.Exists → k'.Exists → s.slot i k ≠ -1 → s.slot i k = s.slot i k' → k = k'

def BlocksTaken (owner : Owner) (d : Disk) : Prop :=
  ∀ b i, owner b = some i → b < dataBlocks ∧ d.freeBlocks b = .taken

variable {owner owner' : Owner} {s s' : State} {i : Nat}

theorem slot_indirect {e : Nat} (h : (s.inodeTable i).iDataBlock indirectAccessBlock = e) (he : e < dataBlocks)
    (j : Nat) : s.slot i (.indirect j) = s.fsData.loadInt (e * blockSize + 4 * j) := by
  rw [State.slot, h, dataBlockGet_of_lt he]

theorem slot_indirect_of_none (h : (s.inodeTable i).iDataBlock indirectAccessBlock = -1) (j : Nat) :
    s.slot i (.indirect j) = -1 := by
  rw [State.slot, h]
  rfl

theorem BlocksTaken.owner_of_free (h : BlocksTaken owner s.toDisk) {b : Nat} (hb : s.freeBlocks b = .free) :
    owner b = none := by
  cases ho : owner b with
  | none => rfl
  | some i =>
    have ht := (h b i ho).2
    rw [hb] at ht
    cases ht

namespace FileOwns

theorem indirectBlock (h : FileOwns owner s i) (hne : s.slot i (.entry indirectAccessBlock) ≠ -1) :
    ∃ e : Nat, (s.inodeTable i).iDataBlock indirectAccessBlock = e ∧ owner e = some i :=
  h.slot (.entry indirectAccessBlock) (by decide) hne

theorem slot_congr (h : FileOwns owner s i) (ht : ∀ b, owner b = some i → b < dataBlocks)
    (hi : s'.inodeTable i = s.inodeTable i)
    (hd : ∀ b, owner b = some i → ∀ o < blockSize, s'.fsData (b * blockSize + o) = s.fsData (b * blockSize + o))
    {k : Slot} (hk : k.Exists) : s'.slot i k = s.slot i k := by
  cases k with
  | entry k => simp only [State.slot, hi]
  | indirect j =>
    by_cases hne : s.slot i (.entry indirectAccessBlock) = -1
    · rw [slot_indirect_of_none hne, slot_indirect_of_none (by rwa [hi])]
    · obtain ⟨e, he, ho⟩ := h.indirectBlock hne
      rw [slot_indirect he (ht e ho), slot_indirect (by rwa [hi]) (ht e ho)]
      apply Mem.loadInt_congr
      intro x hx
      have hj : j < 256 := hk
      simpa only [Nat.add_assoc] using hd e ho (4 * j + x) (by simp only [blockSize]; omega)

theorem congr (h : FileOwns owner s i) (ho : ∀ b, owner b = some i → owner' b = some i)
    (hs : ∀ k : Slot, k.Exists → s'.slot i k = s.slot i k) : FileOwns owner' s' i where
  slot k hk hne := by
    rw [hs k hk] at hne ⊢
    obtain ⟨b, hb, hob⟩ := h.slot k hk hne
    exact ⟨b, hb, ho b hob⟩
  inj k k' hk hk' hne heq := by
    rw [hs k hk] at hne
    rw [hs k hk, hs k' hk'] at heq
    exact h.inj k k' hk hk' hne heq

theorem update (h : FileOwns owner s i) {k : Slot} (hs : ∀ k' : Slot, k'.Exists → k' ≠ k → s'.slot i k' = s.slot i k')
    (hk : s'.slot i k = -1 ∨ ∃ b : Nat, s'.slot i k = b ∧ owner b = some i ∧
      ∀ k' : Slot, k'.Exists → k' ≠ k → s.slot i k' ≠ b) : FileOwns owner s' i where
  slot k' hk' hne := by
    by_cases he : k' = k
    · subst he
      obtain ⟨b, hb, ho, -⟩ := hk.resolve_left hne
      exact ⟨b, hb, ho⟩
    · rw [hs k' hk' he] at hne ⊢
      exact h.slot k' hk' hne
  inj k₁ k₂ h₁ h₂ hne heq := by
    by_cases he₁ : k₁ = k
    · subst he₁
      by_contra hne'
      obtain ⟨b, hb, -, hnew⟩ := hk.resolve_left hne
      rw [hb, hs k₂ h₂ (Ne.symm hne')] at heq
      exact hnew k₂ h₂ (Ne.symm hne') heq.symm
    · rw [hs k₁ h₁ he₁] at hne heq
      by_cases he₂ : k₂ = k
      · subst he₂
        obtain ⟨b, hb, -, hnew⟩ := hk.resolve_left (by rwa [← heq])
        exact absurd (heq.trans hb) (hnew k₁ h₁ he₁)
      · rw [hs k₂ h₂ he₂] at heq
        exact h.inj k₁ k₂ h₁ h₂ hne heq

end FileOwns

theorem getCurrentOffset_eq {o : Nat} (h : o < 2 ^ 64) : getCurrentOffset o = o % blockSize := by
  unfold getCurrentOffset
  split
  · rfl
  · next hk =>
    simp only [blockSize, indirectAccessBlock] at hk ⊢
    rw [szSub_of_le (by omega) h]
    omega

theorem chunk_eq {left o : Nat} (h : left + o < 2 ^ 64) (ho : o < blockSize) : chunk left o = min left (blockSize - o) := by
  unfold chunk
  rw [szAdd_of_lt h]
  by_cases hle : left + o ≤ blockSize
  · rw [if_pos hle]
    omega
  · rw [if_neg hle]
    omega

theorem slot_setBlock {k : Nat} (hk : k ≠ indirectAccessBlock) (b : Int) (k' : Slot) :
    (s.setInode i ((s.inodeTable i).setBlock k b)).slot i k' = if k' = .entry k then b else s.slot i k' := by
  have hlast : (((s.setInode i ((s.inodeTable i).setBlock k b)).inodeTable i).iDataBlock indirectAccessBlock) =
      (s.inodeTable i).iDataBlock indirectAccessBlock := by
    simp only [State.setInode_inodeTable, if_true, Inode.setBlock]
    exact Function.update_of_ne (Ne.symm hk) ..
  cases k' with
  | entry k' => simp [State.slot, State.setInode_inodeTable, Inode.setBlock, Function.update_apply]
  | indirect j =>
    rw [State.slot, hlast]
    simp [State.slot]

theorem slot_setInode_of_ne {j : Nat} (h : j ≠ i) (x : Inode) (k : Slot) : (s.setInode i x).slot j k = s.slot j k := by
  cases k <;> simp [State.slot, State.setInode_inodeTable, h]

theorem slot_store {e j : Nat} {b : Int} (he : (s.inodeTable i).iDataBlock indirectAccessBlock = e) (hlt : e < dataBlocks)
    (hb : IsInt b) (k : Slot) :
    (s.setDisk { s.toDisk with fsData := s.fsData.store (e * blockSize + 4 * j) (encodeInt b) }).slot i k =
      if k = .indirect j then b else s.slot i k := by
  cases k with
  | entry k => simp [State.slot]
  | indirect j' =>
    rw [slot_indirect (by simpa using he) hlt, slot_indirect he hlt]
    by_cases hj : j' = j
    · subst hj
      rw [if_pos rfl]
      exact Mem.loadInt_storeInt_self s.fsData _ hb
    · rw [if_neg (by simpa using hj)]
      exact Mem.loadInt_storeInt_disjoint s.fsData b (by omega)

theorem noReferences_eq : noReferences = List.replicate blockSize 255 := by
  rw [noReferences, show encodeInt (-1) = List.replicate 4 255 by decide, List.flatten_replicate_replicate,
    show indirectReferences * 4 = blockSize by decide]

@[simp] theorem length_noReferences : noReferences.length = blockSize := by
  rw [noReferences_eq, List.length_replicate]

theorem loadInt_noReferences (m : Mem) (a : Nat) {j : Nat} (hj : j < indirectReferences) :
    (m.store a noReferences).loadInt (a + 4 * j) = -1 := by
  have hload : ∀ x < 4, m.store a noReferences (a + 4 * j + x) = 255 := by
    intro x hx
    have hlt : 4 * j + x < blockSize := by
      simp only [indirectReferences, blockSize] at hj ⊢
      omega
    rw [Mem.store_of_mem _ (by omega) (by rw [length_noReferences]; omega), noReferences_eq,
      show a + 4 * j + x - a = 4 * j + x by omega]
    simp only [List.getD, List.getElem?_replicate, if_pos hlt, Option.getD_some]
  have hc := @Mem.loadInt_congr _ (fun _ => 255) _ 0 fun x hx => hload x hx
  rw [hc]
  decide

def wrote (s : State) (i file a : Nat) (bytes : List UInt8) : State :=
  ((s.setDisk { s.toDisk with fsData := s.fsData.store a bytes }).setFiles
    (s.toOpenFiles.setOffset file (szAdd (s.openFileTable file).ofOffset bytes.length))).setInode i
      { s.inodeTable i with iSize := szAdd (s.inodeTable i).iSize bytes.length }

@[simp] theorem wrote_offset (s : State) (i file a : Nat) (bytes : List UInt8) :
    ((wrote s i file a bytes).openFileTable file).ofOffset = szAdd (s.openFileTable file).ofOffset bytes.length := by
  simp [wrote, OpenFiles.setOffset_table]

theorem wrote_fsData (s : State) (i file a : Nat) (bytes : List UInt8) :
    (wrote s i file a bytes).fsData = s.fsData.store a bytes := rfl

theorem wrote_iDataBlock (s : State) (i file a : Nat) (bytes : List UInt8) :
    ((wrote s i file a bytes).inodeTable i).iDataBlock = (s.inodeTable i).iDataBlock := by
  simp [wrote, State.setInode_inodeTable]

theorem FileOwns.slot_wrote (h : FileOwns owner s i) (hlt : ∀ b, owner b = some i → b < dataBlocks) {b o : Nat}
    {k₀ : Slot} (hex : k₀.Exists) (hne : k₀ ≠ .entry indirectAccessBlock) (hb : s.slot i k₀ = b) {bytes : List UInt8}
    (hlen : o + bytes.length ≤ blockSize) {file : Nat} {k : Slot} (hk : k.Exists) :
    (wrote s i file (b * blockSize + o) bytes).slot i k = s.slot i k := by
  cases k with
  | entry k => simp only [State.slot, wrote_iDataBlock]
  | indirect j =>
    by_cases hno : s.slot i (.entry indirectAccessBlock) = -1
    · rw [slot_indirect_of_none hno, slot_indirect_of_none (by rw [wrote_iDataBlock]; exact hno)]
    · obtain ⟨e, he, ho⟩ := h.indirectBlock hno
      have heb : e ≠ b := by
        rintro rfl
        exact hne (h.inj k₀ _ hex (by decide) (by rw [hb]; omega) (hb.trans he.symm))
      rw [slot_indirect he (hlt e ho), slot_indirect (by rw [wrote_iDataBlock]; exact he) (hlt e ho), wrote_fsData]
      have hj : j < 256 := hk
      simp only [blockSize] at hlen
      exact Mem.loadInt_store_disjoint _ (by simp only [blockSize]; omega)

theorem disk_store_eq_some {d d' : Disk} {a : Nat} {bs : List UInt8} (h : d.store a bs = some d') :
    a + bs.length ≤ fsDataSize ∧ d' = { d with fsData := d.fsData.store a bs } := by
  unfold Disk.store at h
  split at h
  · next hfit =>
    cases h
    exact ⟨hfit, rfl⟩
  · cases h

theorem disk_load_eq_some {d : Disk} {a n : Nat} {bs : List UInt8} (h : d.load a n = some bs) :
    a + n ≤ fsDataSize ∧ bs = d.fsData.load a n := by
  unfold Disk.load at h
  split at h
  · next hfit =>
    cases h
    exact ⟨hfit, rfl⟩
  · cases h

def State.IsFile (s : State) (i : Nat) : Prop :=
  i < inodeTableSize ∧ s.freeinodeTs i = .taken ∧ (s.inodeTable i).iNodeType = .file

instance (s : State) (i : Nat) : Decidable (s.IsFile i) := inferInstanceAs (Decidable (_ ∧ _ ∧ _))

/-- The same files, directory and handles; blocks, sizes, offsets and the bytes of files may differ. -/
structure Kept (s s' : State) : Prop where
  freeinodeTs : s'.freeinodeTs = s.freeinodeTs
  type : ∀ j, (s'.inodeTable j).iNodeType = (s.inodeTable j).iNodeType
  root : s'.inodeTable 0 = s.inodeTable 0
  directory : ∀ x < blockSize, s'.fsData x = s.fsData x
  handles : s'.freeOpenFileEntries = s.freeOpenFileEntries
  inumber : ∀ h, (s'.openFileTable h).ofInumber = (s.openFileTable h).ofInumber

namespace Kept

theorem refl (s : State) : Kept s s := ⟨rfl, fun _ => rfl, rfl, fun _ _ => rfl, rfl, fun _ => rfl⟩

theorem trans {s₁ s₂ s₃ : State} (h : Kept s₁ s₂) (h' : Kept s₂ s₃) : Kept s₁ s₃ where
  freeinodeTs := h'.freeinodeTs.trans h.freeinodeTs
  type j := (h'.type j).trans (h.type j)
  root := h'.root.trans h.root
  directory x hx := (h'.directory x hx).trans (h.directory x hx)
  handles := h'.handles.trans h.handles
  inumber f := (h'.inumber f).trans (h.inumber f)

theorem isFile (h : Kept s s') {j : Nat} : s'.IsFile j ↔ s.IsFile j := by
  simp only [State.IsFile, h.freeinodeTs, h.type]

theorem setInode (hi : i ≠ 0) {x : Inode} (hx : x.iNodeType = (s.inodeTable i).iNodeType) :
    Kept s (s.setInode i x) where
  freeinodeTs := rfl
  type j := by
    rw [State.setInode_inodeTable]
    split
    · next h => rw [hx, h]
    · rfl
  root := by rw [State.setInode_inodeTable, if_neg (Ne.symm hi)]
  directory _ _ := rfl
  handles := rfl
  inumber _ := rfl

theorem setDisk {d : Disk} (hd : ∀ x < blockSize, d.fsData x = s.fsData x) : Kept s (s.setDisk d) where
  freeinodeTs := rfl
  type _ := rfl
  root := rfl
  directory := hd
  handles := rfl
  inumber _ := rfl

theorem take (b : Nat) : Kept s (s.setDisk (s.toDisk.take b)) := setDisk fun _ _ => rfl

theorem release (b : Nat) : Kept s (s.setDisk (s.toDisk.release b)) := setDisk fun _ _ => rfl

theorem setBlock (hi : i ≠ 0) (k : Nat) (b : Int) : Kept s (s.setInode i ((s.inodeTable i).setBlock k b)) :=
  setInode hi rfl

theorem setOffset (f o : Nat) : Kept s (s.setFiles (s.toOpenFiles.setOffset f o)) where
  freeinodeTs := rfl
  type _ := rfl
  root := rfl
  directory _ _ := rfl
  handles := rfl
  inumber h := OpenFiles.setOffset_ofInumber s.toOpenFiles f o h

theorem store {a : Nat} (ha : blockSize ≤ a) (bytes : List UInt8) :
    Kept s (s.setDisk { s.toDisk with fsData := s.fsData.store a bytes }) :=
  .setDisk fun _ hx => Mem.store_of_notMem _ (.inl (Nat.lt_of_lt_of_le hx ha))

end Kept

theorem blockSize_le {e : Nat} (he : e ≠ 0) (x : Nat) : blockSize ≤ e * blockSize + x := by
  simp only [blockSize]
  omega

theorem Kept.wrote (hi : i ≠ 0) {a : Nat} (ha : blockSize ≤ a) (bytes : List UInt8) :
    Kept s (wrote s i file a bytes) := by
  have h₁ : Kept s (s.setDisk { s.toDisk with fsData := s.fsData.store a bytes }) := .store ha bytes
  exact (h₁.trans (.setOffset file _)).trans (.setInode hi rfl)

theorem setBlock_self {k : Nat} {b : Int} (h : (s.inodeTable i).iDataBlock k = b) :
    s.setInode i ((s.inodeTable i).setBlock k b) = s := by
  simp [State.setInode, Inode.setBlock, ← h]

def dataSlot (k : Nat) : Slot := if k < indirectAccessBlock then .entry k else .indirect (k - indirectAccessBlock)

def State.byteAt (s : State) (i x : Nat) : UInt8 :=
  match dataBlockGet (s.slot i (dataSlot (x / blockSize))) with
  | some a => s.fsData (a + x % blockSize)
  | none => 0

def State.fileBytes (s : State) (i n : Nat) : List UInt8 := (List.range n).map (s.byteAt i)

@[simp] theorem length_fileBytes (s : State) (i n : Nat) : (s.fileBytes i n).length = n := by simp [State.fileBytes]

theorem dataSlot_exists {k : Nat} (h : k * blockSize < maxFileSize) : (dataSlot k).Exists := by
  simp only [maxFileSize, blockSize, indirectReferences, indirectAccessBlock] at h
  unfold dataSlot
  split
  · next hk =>
    simp only [Slot.Exists, blocks, indirectAccessBlock] at hk ⊢
    omega
  · simp only [Slot.Exists, indirectReferences, blockSize, indirectAccessBlock]
    omega

theorem dataSlot_inj {k k' : Nat} (h : dataSlot k = dataSlot k') : k = k' := by
  unfold dataSlot at h
  split at h <;> split at h
  · exact Slot.entry.inj h
  · cases h
  · cases h
  · have := Slot.indirect.inj h
    omega

theorem dataSlot_ne_last (k : Nat) : dataSlot k ≠ .entry indirectAccessBlock := by
  unfold dataSlot
  split
  · next hk =>
    simp only [ne_eq, Slot.entry.injEq]
    omega
  · simp

end Tecnicofs.Ex1
