import Tecnicofs.Ex1.Alone
import Tecnicofs.Ex1.Slots

namespace Tecnicofs.Ex1

open Bytes

/-- Blocks have owners; the directory and the open handles name existing files. -/
structure Consistent (owner : Owner) (s : State) : Prop where
  taken : BlocksTaken owner s.toDisk
  ownerRoot : owner 0 = some 0
  rootType : (s.inodeTable 0).iNodeType = .directory
  rootBlock : (s.inodeTable 0).iDataBlock 0 = 0
  rootTaken : s.freeinodeTs 0 = .taken
  files : ∀ i, s.IsFile i → FileOwns owner s i
  entries : ∀ k < maxDirEntries, dInumber s.fsData 0 k = -1 ∨ ∃ i : Nat, dInumber s.fsData 0 k = i ∧ s.IsFile i
  handles : ∀ h < maxOpenFiles, s.freeOpenFileEntries h = .taken →
    ∃ i : Nat, (s.openFileTable h).ofInumber = i ∧ s.IsFile i

theorem dInumber_congr {m m' : Mem} (h : ∀ x < blockSize, m' x = m x) {k : Nat} (hk : k < maxDirEntries) :
    dInumber m' 0 k = dInumber m 0 k := by
  apply Mem.loadInt_congr
  intro j hj
  simp only [maxDirEntries, blockSize, dirEntrySize, maxFileName] at hk h ⊢
  exact h _ (by omega)

theorem store_noReferences (m : Mem) {c e : Nat} (hne : e ≠ c) {o : Nat} (ho : o < blockSize) :
    m.store (c * blockSize) noReferences (e * blockSize + o) = m (e * blockSize + o) := by
  have hsize := length_noReferences
  simp only [blockSize] at ho hsize
  exact Mem.store_of_notMem _ (by simp only [blockSize]; omega)

namespace Consistent

variable {owner owner' : Owner} {s s' : State} {i : Nat}

theorem ne_zero (h : Consistent owner s) (hi : s.IsFile i) : i ≠ 0 := by
  rintro rfl
  cases h.rootType.symm.trans hi.2.2

theorem block_ne_zero (h : Consistent owner s) (hi : s.IsFile i) {b : Nat} (hb : owner b = some i) : b ≠ 0 := by
  rintro rfl
  exact h.ne_zero hi (Option.some.inj (hb.symm.trans h.ownerRoot))

theorem lt (h : Consistent owner s) {b : Nat} (hb : owner b = some i) : b < dataBlocks := (h.taken b i hb).1

theorem dirBlock (h : Consistent owner s) : dirBlock s rootDirInum = some 0 := by
  have hget : inodeGet rootDirInum = some 0 := rfl
  simp only [Ex1.dirBlock, hget, h.rootType, ne_eq, not_true_eq_false, if_false, h.rootBlock]
  rfl

theorem findDirEntry (h : Consistent owner s) (subName : CString) :
    findDirEntry s.fsData 0 subName = -1 ∨ ∃ i : Nat, findDirEntry s.fsData 0 subName = i ∧ s.IsFile i := by
  rcases findDirEntry_cases s.fsData 0 subName with he | ⟨k, hk, he, hne⟩
  · exact .inl he
  · rw [he]
    exact .inr ((h.entries k hk).resolve_left hne)

theorem keep (h : Consistent owner s) (k : Kept s s') (ht : BlocksTaken owner' s'.toDisk) (h0 : owner' 0 = some 0)
    (hf : ∀ i, s.IsFile i → FileOwns owner' s' i) : Consistent owner' s' where
  taken := ht
  ownerRoot := h0
  rootType := by rw [k.root, h.rootType]
  rootBlock := by rw [k.root, h.rootBlock]
  rootTaken := by rw [k.freeinodeTs, h.rootTaken]
  files i hi := hf i (k.isFile.mp hi)
  entries x hx := by
    rw [dInumber_congr k.directory hx]
    exact (h.entries x hx).imp_right fun ⟨i, he, hi⟩ => ⟨i, he, k.isFile.mpr hi⟩
  handles f hf ht := by
    rw [k.handles] at ht
    obtain ⟨i, he, hi⟩ := h.handles f hf ht
    exact ⟨i, (k.inumber f).trans he, k.isFile.mpr hi⟩

theorem sameSlots (h : Consistent owner s) (k : Kept s s') (ht : s'.freeBlocks = s.freeBlocks)
    (hs : ∀ i, s.IsFile i → ∀ k : Slot, k.Exists → s'.slot i k = s.slot i k) : Consistent owner s' :=
  h.keep k (fun b i hb => by rw [ht]; exact h.taken b i hb) h.ownerRoot
    fun i hi => (h.files i hi).congr (fun _ => id) (hs i hi)

theorem slot_ne_of_free (h : Consistent owner s) (hi : s.IsFile i) {b : Nat} (hb : s.freeBlocks b = .free)
    {k : Slot} (hk : k.Exists) : s.slot i k ≠ b := by
  intro he
  obtain ⟨c, hc, ho⟩ := (h.files i hi).slot k hk (by rw [he]; omega)
  obtain rfl : c = b := by
    rw [he] at hc
    omega
  exact absurd ho (by simp [h.taken.owner_of_free hb])

theorem alloc (h : Consistent owner s) {c : Nat} (hc : c < dataBlocks) (hfree : s.freeBlocks c = .free)
    (o : Option Nat) : Consistent (Function.update owner c o) (s.setDisk (s.toDisk.take c)) := by
  have hnone := h.taken.owner_of_free hfree
  have hsame : ∀ b i, owner b = some i → Function.update owner c o b = some i := by
    intro b i hb
    rw [Function.update_of_ne, hb]
    rintro rfl
    rw [hnone] at hb
    cases hb
  refine h.keep (.setDisk fun _ _ => rfl) (fun b i hb => ?_) (hsame 0 0 h.ownerRoot) fun i hi =>
    (h.files i hi).congr (fun b => hsame b i) fun k _ => by cases k <;> rfl
  by_cases hbc : b = c
  · subst hbc
    exact ⟨hc, by simp [Disk.take_freeBlocks]⟩
  · rw [Function.update_of_ne hbc] at hb
    obtain ⟨hlt, ht⟩ := h.taken b i hb
    exact ⟨hlt, by simp [Disk.take_freeBlocks, hbc, ht]⟩

theorem setSlot (h : Consistent owner s) (k : Kept s s') (ht : s'.freeBlocks = s.freeBlocks) (hi : s.IsFile i)
    (k₀ : Slot) (ho : ∀ j, j ≠ i → s.IsFile j → ∀ k : Slot, k.Exists → s'.slot j k = s.slot j k)
    (hs : ∀ k : Slot, k.Exists → k ≠ k₀ → s'.slot i k = s.slot i k)
    (hk : s'.slot i k₀ = -1 ∨ ∃ b : Nat, s'.slot i k₀ = b ∧ owner b = some i ∧
      ∀ k : Slot, k.Exists → k ≠ k₀ → s.slot i k ≠ b) : Consistent owner s' := by
  refine h.keep k (fun b i hb => by rw [ht]; exact h.taken b i hb) h.ownerRoot fun j hj => ?_
  by_cases hji : j = i
  · subst hji
    exact (h.files j hj).update hs hk
  · exact (h.files j hj).congr (fun _ => id) (ho j hji hj)

theorem setEntry (h : Consistent owner s) (hi : s.IsFile i) {k : Nat} (hk : k ≠ indirectAccessBlock) {b : Int}
    (hb : b = -1 ∨ ∃ c : Nat, b = c ∧ owner c = some i ∧ ∀ k' : Slot, k'.Exists → s.slot i k' ≠ c) :
    Consistent owner (s.setInode i ((s.inodeTable i).setBlock k b)) := by
  refine h.setSlot (.setBlock (h.ne_zero hi) ..) rfl hi (.entry k) (fun j hj _ k' _ => slot_setInode_of_ne hj _ k')
    (fun k' _ hne => by rw [slot_setBlock hk, if_neg hne]) ?_
  rw [slot_setBlock hk, if_pos rfl]
  exact hb.imp_right fun ⟨c, hc, ho, hno⟩ => ⟨c, hc, ho, fun k' hk' _ => hno k' hk'⟩

theorem setData (h : Consistent owner s) {m : Mem} (hm : ∀ x < blockSize, m x = s.fsData x)
    (hd : ∀ i, s.IsFile i → ∀ e : Nat, (s.inodeTable i).iDataBlock indirectAccessBlock = e →
      ∀ o < blockSize, m (e * blockSize + o) = s.fsData (e * blockSize + o)) :
    Consistent owner (s.setDisk { s.toDisk with fsData := m }) := by
  refine h.sameSlots (.setDisk hm) rfl fun i hi k hk => ?_
  cases k with
  | entry k => rfl
  | indirect j =>
    by_cases hne : s.slot i (.entry indirectAccessBlock) = -1
    · rw [slot_indirect_of_none hne, slot_indirect_of_none (by exact hne)]
    · obtain ⟨e, he, ho⟩ := (h.files i hi).indirectBlock hne
      rw [slot_indirect he (h.lt ho), slot_indirect (by exact he) (h.lt ho)]
      apply Mem.loadInt_congr
      intro x hx
      have hj : j < 256 := hk
      have hx' := hd i hi e he (4 * j + x) (by simp only [blockSize]; omega)
      rwa [← Nat.add_assoc] at hx'

theorem write (h : Consistent owner s) (hi : s.IsFile i) {b o : Nat} (hb : owner b = some i)
    (hne : (s.inodeTable i).iDataBlock indirectAccessBlock ≠ b) {bytes : List UInt8}
    (hlen : o + bytes.length ≤ blockSize) :
    Consistent owner (s.setDisk { s.toDisk with fsData := s.fsData.store (b * blockSize + o) bytes }) := by
  have h0 := h.block_ne_zero hi hb
  simp only [blockSize] at hlen
  refine h.setData (fun x hx => ?_) fun j hj e he x hx => ?_
  · simp only [blockSize] at hx
    exact Mem.store_of_notMem _ (by simp only [blockSize]; omega)
  · have heb : e ≠ b := by
      rintro rfl
      by_cases hji : j = i
      · exact hne (hji ▸ he)
      · obtain ⟨e', he', ho'⟩ := (h.files j hj).indirectBlock (by rw [State.slot, he]; omega)
        obtain rfl : e = e' := by
          rw [he] at he'
          omega
        exact hji (Option.some.inj (ho'.symm.trans hb))
    simp only [blockSize] at hx
    exact Mem.store_of_notMem _ (by simp only [blockSize]; omega)

theorem storeReference (h : Consistent owner s) (hi : s.IsFile i) {e j : Nat}
    (he : (s.inodeTable i).iDataBlock indirectAccessBlock = e) {b : Int}
    (hb : b = -1 ∨ ∃ c : Nat, b = c ∧ c < dataBlocks ∧ owner c = owner (e + j / indirectReferences) ∧
      ∀ i, s.IsFile i → ∀ k : Slot, k.Exists → s.slot i k ≠ c) :
    Consistent owner (s.setDisk { s.toDisk with fsData := s.fsData.store (e * blockSize + 4 * j) (encodeInt b) }) := by
  obtain ⟨e', he', ho⟩ := (h.files i hi).indirectBlock (by rw [State.slot, he]; omega)
  obtain rfl : e = e' := by
    rw [he] at he'
    omega
  have h0 := h.block_ne_zero hi ho
  have hint : IsInt b := by
    rcases hb with rfl | ⟨c, rfl, hc, -⟩
    · decide
    · simp only [dataBlocks] at hc
      exact ⟨by omega, by omega⟩
  -- the place lies in this block
  obtain ⟨blk, hblk⟩ : ∃ blk, blk = e + j / indirectReferences := ⟨_, rfl⟩
  have haddr : e * blockSize + 4 * j = blk * blockSize + 4 * (j % indirectReferences) := by
    simp only [hblk, indirectReferences, blockSize]
    omega
  have hpos : 0 < blk := hblk ▸ Nat.add_pos_left (Nat.pos_of_ne_zero h0) _
  rw [haddr]
  rw [← hblk] at hb
  refine h.keep (.setDisk fun x hx => ?_) h.taken h.ownerRoot fun i' hi' => ?_
  · simp only [blockSize] at hx
    exact Mem.store_of_notMem _ (by simp only [length_encodeInt, blockSize]; omega)
  by_cases hlast : (s.inodeTable i').iDataBlock indirectAccessBlock = blk
  · -- the file's own indirect block
    obtain ⟨f, hf, hof⟩ := (h.files i' hi').indirectBlock (by rw [State.slot, hlast]; omega)
    obtain rfl : f = blk := by
      rw [hlast] at hf
      omega
    have hs := slot_store (s := s) (i := i') (j := j % indirectReferences) hlast (h.lt hof) hint
    refine (h.files i' hi').update (k := .indirect (j % indirectReferences)) (fun k _ hne => ?_) ?_
    · rw [hs, if_neg hne]
    · rw [hs, if_pos rfl]
      refine hb.imp_right (Exists.imp fun c hc => ?_)
      exact ⟨hc.1, hc.2.2.1.trans hof, fun k hk _ => hc.2.2.2 i' hi' k hk⟩
  · refine (h.files i' hi').congr (fun _ => id) fun k hk => ?_
    cases k with
    | entry k => rfl
    | indirect j' =>
      by_cases hne : s.slot i' (.entry indirectAccessBlock) = -1
      · rw [slot_indirect_of_none hne, slot_indirect_of_none (by exact hne)]
      · obtain ⟨f, hf, hof⟩ := (h.files i' hi').indirectBlock hne
        have hfb : f ≠ blk := by
          rintro rfl
          exact hlast hf
        have hj' : j' < 256 := hk
        rw [slot_indirect hf (h.lt hof), slot_indirect (by exact hf) (h.lt hof)]
        refine Mem.loadInt_storeInt_disjoint s.fsData b ?_
        simp only [blockSize, indirectReferences]
        omega

theorem slot_newIndirect (h : Consistent owner s) (hno : (s.inodeTable i).iDataBlock indirectAccessBlock = -1) {c : Nat}
    (hlt : c < dataBlocks) (hc : ∀ j, j ≠ i → owner c ≠ some j) {j : Nat} (hj : s.IsFile j) {k : Slot} (hk : k.Exists)
    (hne : j ≠ i ∨ k ≠ .entry indirectAccessBlock) :
    ((s.setInode i ((s.inodeTable i).setBlock indirectAccessBlock c)).setDisk
      { s.toDisk with fsData := s.fsData.store (c * blockSize) noReferences }).slot j k = s.slot j k := by
  by_cases hji : j = i
  · subst hji
    cases k with
    | entry k =>
      have hk' : k ≠ indirectAccessBlock := fun he => hne.elim (· rfl) (· (he ▸ rfl))
      simp only [State.slot, State.setDisk_inodeTable, State.setInode_inodeTable, if_true, Inode.setBlock]
      exact Function.update_of_ne hk' ..
    | indirect k =>
      rw [slot_indirect (by simp [State.setInode_inodeTable, Inode.setBlock]) hlt, slot_indirect_of_none hno]
      exact loadInt_noReferences _ _ hk
  · refine FileOwns.slot_congr (h.files j hj) (fun b hb => h.lt hb) ?_ (fun b hb o ho => ?_) hk
    · simp [State.setInode_inodeTable, hji]
    · refine store_noReferences _ ?_ ho
      rintro rfl
      exact hc j hji hb

theorem newIndirect (h : Consistent owner s) (hi : s.IsFile i) (hno : (s.inodeTable i).iDataBlock indirectAccessBlock = -1)
    {c : Nat} (hc : owner c = some i) (hfresh : ∀ k : Slot, k.Exists → s.slot i k ≠ c) :
    Consistent owner ((s.setInode i ((s.inodeTable i).setBlock indirectAccessBlock c)).setDisk
      { s.toDisk with fsData := s.fsData.store (c * blockSize) noReferences }) := by
  have h0 := h.block_ne_zero hi hc
  have hother : ∀ j, j ≠ i → owner c ≠ some j := fun j hj he => hj (Option.some.inj (he.symm.trans hc))
  have hkept : Kept s (s.setInode i ((s.inodeTable i).setBlock indirectAccessBlock c)) := .setBlock (h.ne_zero hi) ..
  refine h.setSlot (hkept.trans (.setDisk fun x hx => ?_)) rfl hi (.entry indirectAccessBlock)
    (fun j hj hfj k hk => h.slot_newIndirect hno (h.lt hc) hother hfj hk (.inl hj))
    (fun k hk hne => h.slot_newIndirect hno (h.lt hc) hother hi hk (.inr hne)) (.inr ⟨c, ?_, hc, fun k hk _ => hfresh k hk⟩)
  · have hstay := store_noReferences s.fsData (Ne.symm h0) hx
    rwa [Nat.zero_mul, Nat.zero_add] at hstay
  · simp [State.slot, State.setInode_inodeTable, Inode.setBlock]

theorem free (h : Consistent owner s) (hi : s.IsFile i) {k b : Nat} (hk : k < indirectAccessBlock)
    (hb : (s.inodeTable i).iDataBlock k = b) :
    ∃ owner', Consistent owner' ((s.setDisk (s.toDisk.release b)).setInode i ((s.inodeTable i).setBlock k (-1))) := by
  have hslot : s.slot i (.entry k) = b := hb
  have hex : (Slot.entry k).Exists := Nat.lt_succ_of_lt hk
  obtain ⟨c, hc, ho⟩ := (h.files i hi).slot _ hex (by rw [hslot]; omega)
  obtain rfl : c = b := by
    rw [hslot] at hc
    omega
  have h0 := h.block_ne_zero hi ho
  have hslots : ∀ k' : Slot, ((s.setDisk (s.toDisk.release c)).setInode i ((s.inodeTable i).setBlock k (-1))).slot i k' =
      if k' = .entry k then -1 else s.slot i k' := fun k' =>
    (slot_setBlock (s := s.setDisk (s.toDisk.release c)) (Nat.ne_of_lt hk) (-1) k').trans (by cases k' <;> rfl)
  refine ⟨Function.update owner c none, h.keep ((Kept.release c).trans (.setBlock (h.ne_zero hi) ..))
    (fun b j hj => ?_) ?_ fun j hj => ?_⟩
  · have hne : b ≠ c := by
      rintro rfl
      simp at hj
    rw [Function.update_of_ne hne] at hj
    obtain ⟨hlt, ht⟩ := h.taken b j hj
    exact ⟨hlt, by simp [Disk.release_freeBlocks, hne, ht]⟩
  · rw [Function.update_of_ne (Ne.symm h0), h.ownerRoot]
  · by_cases hji : j = i
    · subst hji
      -- the other slots name other blocks
      refine ⟨fun k' hk' hne => ?_, fun k₁ k₂ h₁ h₂ hne heq => ?_⟩
      · rw [hslots] at hne ⊢
        split at hne
        · exact absurd rfl hne
        · next hkk =>
          obtain ⟨b, hb', hob⟩ := (h.files j hj).slot k' hk' hne
          rw [if_neg hkk]
          refine ⟨b, hb', ?_⟩
          rw [Function.update_of_ne, hob]
          rintro rfl
          exact hkk ((h.files j hj).inj k' _ hk' hex hne (hb'.trans hslot.symm))
      · rw [hslots] at hne heq
        rw [hslots] at heq
        split at hne
        · exact absurd rfl hne
        · next hk₁ =>
          rw [if_neg hk₁] at heq
          split at heq
          · exact absurd heq hne
          · exact (h.files j hj).inj k₁ k₂ h₁ h₂ hne heq
    · refine (h.files j hj).congr (fun b hb' => ?_) fun k' _ => ?_
      · rw [Function.update_of_ne, hb']
        rintro rfl
        exact hji (Option.some.inj (hb'.symm.trans ho))
      · rw [slot_setInode_of_ne hji]
        cases k' <;> rfl

theorem setSize (h : Consistent owner s) (hi : s.IsFile i) (n : Nat) :
    Consistent owner (s.setInode i { s.inodeTable i with iSize := n }) := by
  refine h.sameSlots (.setInode (h.ne_zero hi) rfl) rfl fun j _ k _ => ?_
  by_cases hj : j = i
  · subst hj
    cases k <;> simp [State.slot, State.setInode_inodeTable]
  · exact slot_setInode_of_ne hj _ k

theorem setFiles (h : Consistent owner s) {f : OpenFiles} (hf : ∀ x < maxOpenFiles, f.freeOpenFileEntries x = .taken →
    ∃ i : Nat, (f.openFileTable x).ofInumber = i ∧ s.IsFile i) : Consistent owner (s.setFiles f) where
  taken := h.taken
  ownerRoot := h.ownerRoot
  rootType := h.rootType
  rootBlock := h.rootBlock
  rootTaken := h.rootTaken
  files i hi := (h.files i hi).congr (fun _ => id) fun k _ => by cases k <;> rfl
  entries := h.entries
  handles := hf

theorem setOffset (h : Consistent owner s) (f o : Nat) :
    Consistent owner (s.setFiles (s.toOpenFiles.setOffset f o)) := by
  refine h.setFiles fun x hx ht => ?_
  rw [OpenFiles.setOffset_ofInumber]
  exact h.handles x hx ht

theorem openHandle (h : Consistent owner s) (hi : s.IsFile i) (o : Nat) :
    Consistent owner (s.setFiles (Tecnicofs.addToOpenFileTable s.toOpenFiles i o).2) := by
  refine h.setFiles fun x hx ht => ?_
  unfold Tecnicofs.addToOpenFileTable at ht ⊢
  split at ht
  · next f _ =>
    simp only [OpenFiles.setEntry_free, OpenFiles.take_free, OpenFiles.setEntry_table] at ht ⊢
    by_cases hxf : x = f
    · exact ⟨i, by rw [if_pos hxf], hi⟩
    · rw [if_neg hxf] at ht ⊢
      exact h.handles x hx ht
  · exact h.handles x hx ht

theorem close (h : Consistent owner s) (fhandle : Int) :
    Consistent owner (s.setFiles (Tecnicofs.removeFromOpenFileTable s.toOpenFiles fhandle).2) := by
  refine h.setFiles fun x hx ht => ?_
  unfold Tecnicofs.removeFromOpenFileTable at ht ⊢
  split at ht
  · next hc =>
    rw [if_pos hc]
    exact h.handles x hx ht
  · next hc =>
    rw [if_neg hc]
    rw [OpenFiles.release_free] at ht
    split at ht
    · cases ht
    · exact h.handles x hx ht

theorem newFile_inodeTable_of_ne {j : Nat} (h : j ≠ i) : (newFile s i).inodeTable j = s.inodeTable j := by
  simp [newFile, State.setInode_inodeTable, h]

theorem newFile_freeinodeTs (j : Nat) : (newFile s i).freeinodeTs j = if j = i then .taken else s.freeinodeTs j := by
  simp [newFile, State.setInodeState_freeinodeTs]

theorem isFile_newFile (hi : i < inodeTableSize) : (newFile s i).IsFile i := by
  refine ⟨hi, ?_, ?_⟩ <;> simp [newFile, State.setInode_inodeTable, State.setInodeState_freeinodeTs]

theorem isFile_newFile_of_ne {j : Nat} (h : j ≠ i) : (newFile s i).IsFile j ↔ s.IsFile j := by
  simp only [State.IsFile, newFile_inodeTable_of_ne h, newFile_freeinodeTs, if_neg h]

theorem isFile_newFile_of_isFile (hfree : s.freeinodeTs i = .free) {j : Nat} (hj : s.IsFile j) :
    (newFile s i).IsFile j := by
  refine (isFile_newFile_of_ne ?_).mpr hj
  rintro rfl
  cases hfree.symm.trans hj.2.1

theorem slot_newFile {k : Slot} (hk : k.Exists) : (newFile s i).slot i k = -1 := by
  cases k with
  | entry k =>
    have hk : k < blocks := hk
    simp only [State.slot, newFile, State.setInode_inodeTable, if_true, if_pos hk]
  | indirect j => exact slot_indirect_of_none (by simp [newFile, State.setInode_inodeTable]) j

theorem create (h : Consistent owner s) (hfree : s.freeinodeTs i = .free) : Consistent owner (newFile s i) := by
  have hroot : (0 : Nat) ≠ i := by
    rintro rfl
    cases hfree.symm.trans h.rootTaken
  exact {
    taken := h.taken
    ownerRoot := h.ownerRoot
    rootType := by rw [newFile_inodeTable_of_ne hroot, h.rootType]
    rootBlock := by rw [newFile_inodeTable_of_ne hroot, h.rootBlock]
    rootTaken := by rw [newFile_freeinodeTs, if_neg hroot, h.rootTaken]
    files := fun j hj => by
      by_cases hji : j = i
      · subst hji
        exact ⟨fun k hk hne => absurd (slot_newFile hk) hne, fun k _ hk _ hne => absurd (slot_newFile hk) hne⟩
      · refine (h.files j ((isFile_newFile_of_ne hji).mp hj)).congr (fun _ => id) fun k _ => ?_
        exact (slot_setInode_of_ne hji _ k).trans (by cases k <;> rfl)
    entries := fun k hk => (h.entries k hk).imp_right fun ⟨j, he, hj⟩ => ⟨j, he, isFile_newFile_of_isFile hfree hj⟩
    handles := fun x hx ht => by
      obtain ⟨j, he, hj⟩ := h.handles x hx ht
      exact ⟨j, he, isFile_newFile_of_isFile hfree hj⟩ }

theorem isInt_of_isFile (hi : s.IsFile i) : IsInt (i : Int) := by
  have hlt := hi.1
  simp only [inodeTableSize] at hlt
  exact ⟨by omega, by omega⟩

theorem slot_addEntry (h : Consistent owner s) (hi : s.IsFile i) {subName : CString} {m : Mem}
    (hm : fillDirEntry s.fsData 0 i subName = some m) {j : Nat} (hj : s.IsFile j) {k : Slot} (hk : k.Exists) :
    (s.setDisk { s.toDisk with fsData := m }).slot j k = s.slot j k := by
  have hout := (fillDirEntry_eq_some hm (isInt_of_isFile hi)).2
  have hslot := @FileOwns.slot_congr _ s (s.setDisk { s.toDisk with fsData := m }) j (h.files j hj)
  refine hslot (fun b hb => h.lt hb) rfl (fun b hb o ho => hout _ ?_) hk
  have := h.block_ne_zero hj hb
  simp only [blockSize]
  omega

theorem addEntry (h : Consistent owner s) (hi : s.IsFile i) {subName : CString} {m : Mem}
    (hm : fillDirEntry s.fsData 0 i subName = some m) :
    Consistent owner (s.setDisk { s.toDisk with fsData := m }) := by
  obtain ⟨k₀, hk₀⟩ := (fillDirEntry_eq_some hm (isInt_of_isFile hi)).1
  exact {
    taken := h.taken
    ownerRoot := h.ownerRoot
    rootType := h.rootType
    rootBlock := h.rootBlock
    rootTaken := h.rootTaken
    files := fun j hj => (h.files j hj).congr (fun _ => id) fun k hk => h.slot_addEntry hi hm hj hk
    entries := fun k hk => by
      rw [State.setDisk_toDisk, hk₀ k hk]
      split
      · exact .inr ⟨i, rfl, hi⟩
      · exact h.entries k hk
    handles := h.handles }

theorem delete (h : Consistent owner s) (hi : s.IsFile i) (he : ∀ k < maxDirEntries, dInumber s.fsData 0 k ≠ i)
    (hh : ∀ x < maxOpenFiles, s.freeOpenFileEntries x = .taken → (s.openFileTable x).ofInumber ≠ i) :
    Consistent owner (s.setInodeState i .free) := by
  have hfile : ∀ j, (s.setInodeState i .free).IsFile j ↔ j ≠ i ∧ s.IsFile j := by
    intro j
    simp only [State.IsFile, State.setInodeState_freeinodeTs, State.setInodeState_inodeTable]
    by_cases hj : j = i <;> simp [hj]
  have hroot : (0 : Nat) ≠ i := Ne.symm (h.ne_zero hi)
  exact {
    taken := h.taken
    ownerRoot := h.ownerRoot
    rootType := h.rootType
    rootBlock := h.rootBlock
    rootTaken := by rw [State.setInodeState_freeinodeTs, if_neg hroot, h.rootTaken]
    files := fun j hj => (h.files j ((hfile j).mp hj).2).congr (fun _ => id) fun k _ => by cases k <;> rfl
    entries := fun k hk => (h.entries k hk).imp_right <| Exists.imp fun j hj => by
      refine ⟨hj.1, (hfile j).mpr ⟨?_, hj.2⟩⟩
      rintro rfl
      exact he k hk hj.1
    handles := fun x hx ht => by
      obtain ⟨j, hj, hf⟩ := h.handles x hx ht
      refine ⟨j, hj, (hfile j).mpr ⟨?_, hf⟩⟩
      rintro rfl
      exact hh x hx ht hj }

theorem deleteNew (h : Consistent owner s) (hi : i < inodeTableSize) (hfree : s.freeinodeTs i = .free) :
    Consistent owner ((newFile s i).setInodeState i .free) := by
  have hne : ∀ j : Nat, s.IsFile j → (j : Int) ≠ i := by
    intro j hj he
    obtain rfl : j = i := by omega
    cases hfree.symm.trans hj.2.1
  refine (h.create hfree).delete (isFile_newFile hi) (fun k hk => ?_) fun x hx ht => ?_
  · rcases h.entries k hk with he | ⟨j, he, hj⟩
    · have he : dInumber (newFile s i).fsData 0 k = -1 := he
      omega
    · have he : dInumber (newFile s i).fsData 0 k = j := he
      rw [he]
      exact hne j hj
  · obtain ⟨j, he, hj⟩ := h.handles x hx ht
    have he : ((newFile s i).openFileTable x).ofInumber = j := he
    rw [he]
    exact hne j hj

theorem not_isFile_init (i : Nat) : ¬ State.init.IsFile i := by
  rw [State.init_eq]
  rintro ⟨-, ht, hf⟩
  by_cases h : i = 0
  · subst h
    cases hf
  · simp [h] at ht

theorem init : Consistent (fun b => if b = 0 then some 0 else none) State.init := by
  have hno := not_isFile_init
  rw [State.init_eq]
  exact {
    taken := fun b i hb => by
      by_cases h : b = 0
      · simp [h]
      · simp [h] at hb
    ownerRoot := rfl
    rootType := rfl
    rootBlock := rfl
    rootTaken := rfl
    files := fun i hi => absurd hi (by rw [← State.init_eq]; exact hno i)
    entries := fun k hk => .inl (dInumber_foldl_setDInumber _ _ hk)
    handles := fun x _ ht => by simp [State.zero] at ht }

end Consistent

end Tecnicofs.Ex1
