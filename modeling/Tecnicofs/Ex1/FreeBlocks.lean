import Tecnicofs.Ex1.Ownership

namespace Tecnicofs.Ex1

open Bytes

/-- How many blocks must be taken before a file has its block with number `k`. -/
def State.blockCost (s : State) (i k : Nat) : Nat :=
  (if s.slot i (dataSlot k) = -1 then 1 else 0) +
    if indirectAccessBlock ≤ k ∧ s.slot i (.entry indirectAccessBlock) = -1 then 1 else 0

structure Located (s : State) (i k b : Nat) (s' : State) : Prop where
  slot : s'.slot i (dataSlot k) = b
  others : ∀ k', k' ≠ k → (dataSlot k').Exists → s'.slot i (dataSlot k') = s.slot i (dataSlot k')
  last : s'.slot i (.entry indirectAccessBlock) = -1 ↔
    k < indirectAccessBlock ∧ s.slot i (.entry indirectAccessBlock) = -1
  count : s'.freeCount + s.blockCost i k = s.freeCount

def State.readable (s : State) (i : Nat) : List UInt8 := s.fileBytes i (min (s.inodeTable i).iSize maxFileSize)

structure Intact (s s' : State) : Prop where
  files : s'.openFileTable = s.openFileTable
  size : ∀ j, s.IsFile j → (s'.inodeTable j).iSize = (s.inodeTable j).iSize
  readable : ∀ j, s.IsFile j → s'.readable j = s.readable j

variable {owner : Owner} {s s' : State} {i file k : Nat}

theorem Intact.refl (s : State) : Intact s s := ⟨rfl, fun _ _ => rfl, fun _ _ => rfl⟩

theorem dataSlot_exists_iff : (dataSlot k).Exists ↔ k * blockSize < maxFileSize := by
  refine ⟨fun h => ?_, dataSlot_exists⟩
  unfold dataSlot at h
  split at h
  · next hk =>
    simp only [maxFileSize, blockSize, indirectReferences, indirectAccessBlock] at hk ⊢
    omega
  · simp only [Slot.Exists, maxFileSize, blockSize, indirectReferences, indirectAccessBlock] at h ⊢
    omega

theorem intact_of_slots (hf : s'.openFileTable = s.openFileTable)
    (hsize : ∀ j, (s'.inodeTable j).iSize = (s.inodeTable j).iSize)
    (hslot : ∀ j, s.IsFile j → ∀ k, (dataSlot k).Exists → s'.slot j (dataSlot k) = s.slot j (dataSlot k))
    (hdata : ∀ j, s.IsFile j → ∀ k (b : Nat), (dataSlot k).Exists → s.slot j (dataSlot k) = b → ∀ o < blockSize,
      s'.fsData (b * blockSize + o) = s.fsData (b * blockSize + o)) : Intact s s' where
  files := hf
  size j _ := hsize j
  readable j hj := by
    rw [State.readable, State.readable, hsize, State.fileBytes, State.fileBytes]
    refine List.map_congr_left fun x hx => ?_
    have hx := List.mem_range.mp hx
    have hex : (dataSlot (x / blockSize)).Exists :=
      dataSlot_exists (lt_of_le_of_lt (Nat.div_mul_le_self ..) (lt_of_lt_of_le hx (Nat.min_le_right ..)))
    rw [State.byteAt, State.byteAt, hslot j hj _ hex]
    cases hget : dataBlockGet (s.slot j (dataSlot (x / blockSize))) with
    | none => rfl
    | some a =>
      obtain ⟨b, -, hb, rfl⟩ := dataBlockGet_eq_some hget
      exact hdata j hj _ b hex hb _ (Nat.mod_lt _ (by decide))

theorem blockCost_of_slot (hne : s.slot i (dataSlot k) ≠ -1) : s.blockCost i k = 0 := by
  have hlast : ¬ (indirectAccessBlock ≤ k ∧ s.slot i (.entry indirectAccessBlock) = -1) := by
    rintro ⟨hk, hno⟩
    rw [dataSlot, if_neg (Nat.not_lt.mpr hk)] at hne
    exact hne (slot_indirect_of_none hno _)
  rw [State.blockCost, if_neg hne, if_neg hlast]

theorem blockCost_direct (hk : k < indirectAccessBlock) :
    s.blockCost i k = if s.slot i (.entry k) = -1 then 1 else 0 := by
  have hge : ¬ (indirectAccessBlock ≤ k ∧ s.slot i (.entry indirectAccessBlock) = -1) := fun hc =>
    absurd hc.1 (Nat.not_le.mpr hk)
  rw [State.blockCost, dataSlot, if_pos hk, if_neg hge, Nat.add_zero]

theorem dataSlot_ne {k' : Nat} (h : k' ≠ k) : dataSlot k' ≠ dataSlot k := fun he => h (dataSlot_inj he)

theorem run_directBlock {b : Nat} (hb : s.slot i (.entry k) = b) (hlt : b < dataBlocks) :
    (directBlock i k).run s = some (some (b * blockSize), s) := by
  have hb : (s.inodeTable i).iDataBlock k = b := hb
  have hne : ¬ (b : Int) = -1 := by omega
  simp only [directBlock, Prog.run_bind, Prog.run_get, Option.bind_some, hb, if_neg hne, Prog.run_pure,
    dataBlockGet_of_lt hlt]

theorem directBlock_cases (h : Consistent owner s) (hi : s.IsFile i) (hk : k < indirectAccessBlock) :
    (∃ b s', (directBlock i k).run s = some (some (b * blockSize), s') ∧ Located s i k b s') ∨
    s.freeCount < s.blockCost i k ∧ (directBlock i k).run s = some (none, s) := by
  have hcost := blockCost_direct (s := s) (i := i) hk
  have hds : dataSlot k = .entry k := if_pos hk
  have hslot : s.slot i (.entry k) = (s.inodeTable i).iDataBlock k := rfl
  by_cases hno : (s.inodeTable i).iDataBlock k = -1
  · rw [hslot, if_pos hno] at hcost
    rcases dataBlockAlloc_count s.toDisk with ⟨c, hc, hfree, he, hcount⟩ | ⟨hzero, he⟩
    · refine .inl ⟨c, (s.setDisk (s.toDisk.take c)).setInode i ((s.inodeTable i).setBlock k c), ?_, ?_⟩
      · simp only [directBlock, setDataBlock, Prog.run_bind, Prog.run_get, Option.bind_some, if_pos hno,
          run_dataBlockAlloc, he, Prog.run_modify, Prog.run_pure, dataBlockGet_of_lt hc, State.setDisk_inodeTable]
      · have hslots : ∀ k', ((s.setDisk (s.toDisk.take c)).setInode i ((s.inodeTable i).setBlock k c)).slot i k' =
            if k' = .entry k then (c : Int) else s.slot i k' := fun k' =>
          (slot_setBlock (s := s.setDisk (s.toDisk.take c)) (Nat.ne_of_lt hk) c k').trans (by cases k' <;> rfl)
        refine ⟨by rw [hds, hslots, if_pos rfl], fun k' hk' _ => ?_, ?_, by rw [hcost]; exact hcount⟩
        · rw [hslots, if_neg (hds ▸ dataSlot_ne hk')]
        · rw [hslots, if_neg fun he => Nat.ne_of_gt hk (Slot.entry.inj he)]
          exact (and_iff_right hk).symm
    · refine .inr ⟨by rw [hcost, hzero]; exact Nat.one_pos, ?_⟩
      simp only [directBlock, setDataBlock, Prog.run_bind, Prog.run_get, Option.bind_some, if_pos hno,
        run_dataBlockAlloc, he, Prog.run_modify, Prog.run_pure, dataBlockGet_neg_one, State.setDisk_inodeTable]
      rw [show s.setDisk s.toDisk = s from rfl, setBlock_self hno]
  · rw [hslot, if_neg hno] at hcost
    obtain ⟨b, hb, ho⟩ := (h.files i hi).slot (.entry k) (Nat.lt_succ_of_lt hk) hno
    exact .inl ⟨b, s, run_directBlock hb (h.lt ho),
      ⟨hds ▸ hb, fun _ _ _ => rfl, (and_iff_right hk).symm, by rw [hcost, Nat.add_zero]⟩⟩

theorem run_needBonusBlock (hne : s.slot i (.entry indirectAccessBlock) ≠ -1) :
    (needBonusBlock i).run s = some (true, s) := by
  have hne : ¬ (s.inodeTable i).iDataBlock indirectAccessBlock = -1 := hne
  simp only [needBonusBlock, Prog.run_bind, Prog.run_get, Option.bind_some, if_neg hne, Prog.run_pure]

theorem run_indirectBlock {e b j : Nat} (he : (s.inodeTable i).iDataBlock indirectAccessBlock = e) (hlt : e < dataBlocks)
    (hj : j < indirectReferences) (hb : s.slot i (.indirect j) = b) (hb' : b < dataBlocks) :
    (indirectBlock i j).run s = some (some (b * blockSize), s) := by
  have hfit : e * blockSize + 4 * j + 4 ≤ fsDataSize := by
    simp only [indirectReferences, blockSize, fsDataSize, dataBlocks] at hj hlt ⊢
    omega
  have hload : s.toDisk.load (e * blockSize + 4 * j) 4 = some (s.fsData.load (e * blockSize + 4 * j) 4) := if_pos hfit
  have hdecode : decodeInt (s.fsData.load (e * blockSize + 4 * j) 4) = b := (slot_indirect he hlt j).symm.trans hb
  have hne : ¬ (b : Int) = -1 := by omega
  simp only [indirectBlock, loadReference, Prog.run_bind, Prog.run_get, Option.bind_some, he, dataBlockGet_of_lt hlt,
    Prog.run_atomic, hload, Option.map_some, hdecode, if_neg hne, Prog.run_pure, dataBlockGet_of_lt hb']

theorem needBonusBlock_cases (h : Consistent owner s) (hi : s.IsFile i) :
    (∃ s', (needBonusBlock i).run s = some (true, s') ∧ s'.slot i (.entry indirectAccessBlock) ≠ -1 ∧
      (∀ k, (dataSlot k).Exists → s'.slot i (dataSlot k) = s.slot i (dataSlot k)) ∧
      s'.freeCount + (if s.slot i (.entry indirectAccessBlock) = -1 then 1 else 0) = s.freeCount ∧ Intact s s') ∨
    s.slot i (.entry indirectAccessBlock) = -1 ∧ s.freeCount = 0 ∧ (needBonusBlock i).run s = none := by
  have hslot : s.slot i (.entry indirectAccessBlock) = (s.inodeTable i).iDataBlock indirectAccessBlock := rfl
  rw [hslot]
  by_cases hno : (s.inodeTable i).iDataBlock indirectAccessBlock = -1
  · rcases dataBlockAlloc_count s.toDisk with ⟨c, hc, hfree, he, hcount⟩ | ⟨hzero, he⟩
    · obtain ⟨ha, ho, hfresh⟩ := h.allocFor hc hfree (some i)
      have hne : (c : Int) ≠ -1 := by omega
      have hstore : (s.toDisk.take c).store (c * blockSize) noReferences = some { s.toDisk.take c with
          fsData := s.fsData.store (c * blockSize) noReferences } := by
        rw [Disk.store, if_pos]
        · rfl
        · simp only [length_noReferences, blockSize, fsDataSize, dataBlocks] at hc ⊢
          omega
      have hslots : ∀ j, s.IsFile j → ∀ k, (dataSlot k).Exists →
          (((s.setDisk (s.toDisk.take c)).setInode i ((s.inodeTable i).setBlock indirectAccessBlock c)).setDisk
            { s.toDisk.take c with fsData := s.fsData.store (c * blockSize) noReferences }).slot j (dataSlot k) =
              s.slot j (dataSlot k) := fun j hj k hk => by
        have hsame := ha.slot_newIndirect hno hc (fun j hj he => hj (Option.some.inj (he.symm.trans ho))) hj hk
          (.inr (dataSlot_ne_last k))
        exact hsame.trans (by cases dataSlot k <;> rfl)
      refine .inl ⟨_, ?_, ?_, fun k hk => hslots i hi k hk, by rw [if_pos hno]; exact hcount, ?_⟩
      · simp only [needBonusBlock, bonusBlockInit, setDataBlock, Prog.run_bind, Prog.run_get, Option.bind_some,
          if_pos hno, run_dataBlockAlloc, he, Prog.run_modify, dataBlockGet_of_lt hc, Prog.run_atomic,
          State.setDisk_inodeTable, State.setInode_toDisk, State.setDisk_toDisk, hstore, Option.map_some, Prog.run_pure]
        -- the entry is set a second time
        refine congrArg some (Prod.ext (by simp [hne]) (setBlock_self ?_))
        simp [State.setInode_inodeTable, Inode.setBlock]
      · simp [State.slot, State.setInode_inodeTable, Inode.setBlock]
      · refine intact_of_slots rfl (fun j => ?_) hslots fun j hj k b hk hb o hob => store_noReferences _ ?_ hob
        · rw [State.setDisk_inodeTable, State.setInode_inodeTable]
          split
          · next hji => rw [hji]; rfl
          · rfl
        · rintro rfl
          exact h.slot_ne_of_free hj hfree hk hb
    · refine .inr ⟨hno, hzero, ?_⟩
      simp only [needBonusBlock, bonusBlockInit, setDataBlock, Prog.run_bind, Prog.run_get, Option.bind_some,
        if_pos hno, run_dataBlockAlloc, he, Prog.run_modify, dataBlockGet_neg_one, undefined, Prog.run_atomic,
        Option.bind_none]
  · exact .inl ⟨s, run_needBonusBlock hno, hno, fun _ _ => rfl, by rw [if_neg hno, Nat.add_zero], .refl s⟩

theorem indirectBlock_cases (h : Consistent owner s) (hi : s.IsFile i) {j : Nat} (hj : j < indirectReferences)
    (hlast : s.slot i (.entry indirectAccessBlock) ≠ -1) :
    (∃ b s', (indirectBlock i j).run s = some (some (b * blockSize), s') ∧
      (∀ k, s'.slot i k = if k = .indirect j then (b : Int) else s.slot i k) ∧
      s'.freeCount + (if s.slot i (.indirect j) = -1 then 1 else 0) = s.freeCount) ∨
    s.slot i (.indirect j) = -1 ∧ s.freeCount = 0 ∧ (indirectBlock i j).run s = some (none, s) := by
  obtain ⟨e, he, ho⟩ := (h.files i hi).indirectBlock hlast
  have hlt := h.lt ho
  have hslot := slot_indirect he hlt j
  have hfit : e * blockSize + 4 * j + 4 ≤ fsDataSize := by
    simp only [indirectReferences, blockSize, fsDataSize, dataBlocks] at hj hlt ⊢
    omega
  have hload : s.toDisk.load (e * blockSize + 4 * j) 4 = some (s.fsData.load (e * blockSize + 4 * j) 4) := if_pos hfit
  have hdecode : decodeInt (s.fsData.load (e * blockSize + 4 * j) 4) = s.slot i (.indirect j) := hslot.symm
  by_cases hno : s.slot i (.indirect j) = -1
  · rcases dataBlockAlloc_count s.toDisk with ⟨c, hc, hfree, hal, hcount⟩ | ⟨hzero, hal⟩
    · have hint : IsInt (c : Int) := by
        simp only [dataBlocks] at hc
        exact ⟨by omega, by omega⟩
      refine .inl ⟨c, (s.setDisk (s.toDisk.take c)).setDisk { s.toDisk.take c with
        fsData := s.fsData.store (e * blockSize + 4 * j) (encodeInt c) }, ?_, fun k => ?_, by rw [if_pos hno]; exact hcount⟩
      · have hstore : (s.toDisk.take c).store (e * blockSize + 4 * j) (encodeInt c) = some { s.toDisk.take c with
            fsData := s.fsData.store (e * blockSize + 4 * j) (encodeInt c) } := by
          rw [Disk.store, if_pos]
          · rfl
          · rwa [length_encodeInt]
        simp only [indirectBlock, loadReference, storeReference, Prog.run_bind, Prog.run_get, Option.bind_some, he,
          dataBlockGet_of_lt hlt, Prog.run_atomic, hload, Option.map_some, hdecode, if_pos hno, run_dataBlockAlloc, hal,
          State.setDisk_toDisk, hstore, Prog.run_pure, dataBlockGet_of_lt hc]
      · have hst := slot_store (s := s.setDisk (s.toDisk.take c)) (j := j) (by exact he) hlt hint k
        exact hst.trans (by cases k <;> rfl)
    · refine .inr ⟨hno, hzero, ?_⟩
      have hsame : s.fsData.store (e * blockSize + 4 * j) (encodeInt (-1)) = s.fsData := by
        rw [← hno, hslot]
        exact Mem.storeInt_loadInt ..
      have hstore : s.toDisk.store (e * blockSize + 4 * j) (encodeInt (-1)) = some s.toDisk := by
        rw [Disk.store, if_pos (by rwa [length_encodeInt]), hsame]
      simp only [indirectBlock, loadReference, storeReference, Prog.run_bind, Prog.run_get, Option.bind_some, he,
        dataBlockGet_of_lt hlt, Prog.run_atomic, hload, Option.map_some, hdecode, if_pos hno, run_dataBlockAlloc, hal,
        State.setDisk_toDisk, hstore, Prog.run_pure, dataBlockGet_neg_one]
      rfl
  · obtain ⟨b, hb, hob⟩ := (h.files i hi).slot (.indirect j) hj hno
    refine .inl ⟨b, s, run_indirectBlock he hlt hj hb (h.lt hob), fun k => ?_, by rw [if_neg hno, Nat.add_zero]⟩
    split
    · next hk => rw [hk, hb]
    · rfl

/-- Where the next block would be the first behind the indirect block, there is none, and no block is free, the code
writes through a null pointer. -/
def NullIndirect (s : State) (i k : Nat) : Prop :=
  indirectAccessBlock ≤ k ∧ s.slot i (.entry indirectAccessBlock) = -1 ∧ s.freeCount = 0

theorem run_getCurrentDataBlock (h : Consistent owner s) (hi : s.IsFile i)
    (hk : (s.openFileTable file).ofOffset / blockSize = k) (hex : (dataSlot k).Exists)
    (hne : s.slot i (dataSlot k) ≠ -1) :
    ∃ b, (getCurrentDataBlock i file).run s = some (some (b * blockSize), s) ∧ owner b = some i := by
  obtain ⟨b, hb, hob⟩ := (h.files i hi).slot _ hex hne
  refine ⟨b, ?_, hob⟩
  by_cases hdir : k < indirectAccessBlock
  · rw [dataSlot, if_pos hdir] at hb
    simp only [getCurrentDataBlock, Prog.run_bind, Prog.run_get, Option.bind_some, hk, if_pos hdir,
      run_directBlock hb (h.lt hob)]
  · rw [dataSlot, if_neg hdir] at hb hex hne
    have hlast : s.slot i (.entry indirectAccessBlock) ≠ -1 := fun hno => hne (slot_indirect_of_none hno _)
    obtain ⟨e, he, ho⟩ := (h.files i hi).indirectBlock hlast
    simp only [getCurrentDataBlock, Prog.run_bind, Prog.run_get, Option.bind_some, hk, if_neg hdir,
      run_needBonusBlock hlast, if_true, run_indirectBlock he (h.lt ho) hex hb (h.lt hob)]

theorem getCurrentDataBlock_cases (h : Consistent owner s) (hi : s.IsFile i)
    (hk : (s.openFileTable file).ofOffset / blockSize = k) (hex : (dataSlot k).Exists) :
    (∃ b s', (getCurrentDataBlock i file).run s = some (some (b * blockSize), s') ∧ Located s i k b s') ∨
    s.freeCount < s.blockCost i k ∧
      (NullIndirect s i k ∧ (getCurrentDataBlock i file).run s = none ∨
        ¬ NullIndirect s i k ∧ ∃ s', (getCurrentDataBlock i file).run s = some (none, s') ∧ Intact s s') := by
  by_cases hdir : k < indirectAccessBlock
  · have hrun : (getCurrentDataBlock i file).run s = (directBlock i k).run s := by
      simp only [getCurrentDataBlock, Prog.run_bind, Prog.run_get, Option.bind_some, hk, if_pos hdir]
    rw [hrun]
    refine (directBlock_cases h hi hdir).imp_right fun hfull => ?_
    obtain ⟨hcost, hr⟩ := hfull
    exact ⟨hcost, .inr ⟨fun hn => absurd hn.1 (Nat.not_le.mpr hdir), s, hr, .refl s⟩⟩
  · have hge : indirectAccessBlock ≤ k := Nat.le_of_not_lt hdir
    have hds : dataSlot k = .indirect (k - indirectAccessBlock) := if_neg hdir
    have hj : k - indirectAccessBlock < indirectReferences := by rwa [hds] at hex
    have hrun : (getCurrentDataBlock i file).run s = ((needBonusBlock i).run s).bind fun x =>
        (if x.1 = true then indirectBlock i (k - indirectAccessBlock) else pure none).run x.2 := by
      simp only [getCurrentDataBlock, Prog.run_bind, Prog.run_get, Option.bind_some, hk, if_neg hdir]
    have hcost : s.blockCost i k = (if s.slot i (dataSlot k) = -1 then 1 else 0) +
        if s.slot i (.entry indirectAccessBlock) = -1 then 1 else 0 := by
      simp only [State.blockCost, hge, true_and]
    rw [hrun, hcost]
    rcases needBonusBlock_cases h hi with ⟨s₁, hr₁, hlast, hslots, hcount, hintact⟩ | ⟨hno, hzero, hr⟩
    · obtain ⟨hown, -⟩ := ensures_needBonusBlock h hi _ _ hr₁
      obtain ⟨owner₁, h₁⟩ := hown.consistent
      have hmiss : s₁.slot i (.indirect (k - indirectAccessBlock)) = s.slot i (dataSlot k) := by
        rw [← hds]
        exact hslots k hex
      rw [hr₁, Option.bind_some, if_pos rfl]
      rcases indirectBlock_cases h₁ (hown.kept.isFile.mpr hi) hj hlast with ⟨b, s₂, hr₂, hs₂, hcount₂⟩ | ⟨hno₂, hzero₂, hr₂⟩
      · refine .inl ⟨b, s₂, hr₂, by rw [hs₂, hds, if_pos rfl], fun k' hk' hex' => ?_, ?_, ?_⟩
        · rw [hs₂, if_neg (hds ▸ dataSlot_ne hk'), hslots k' hex']
        · rw [hs₂, if_neg (by simp)]
          exact ⟨fun hc => absurd hc hlast, fun hc => absurd hc.1 hdir⟩
        · rw [hmiss] at hcount₂
          rw [hcost]
          omega
      · rw [hmiss] at hno₂
        refine .inr ⟨by rw [if_pos hno₂]; omega, .inr ⟨fun hn => ?_, s₁, hr₂, hintact⟩⟩
        rw [if_pos hn.2.1, hn.2.2] at hcount
        omega
    · refine .inr ⟨?_, .inl ⟨⟨hge, hno, hzero⟩, by rw [hr]; rfl⟩⟩
      rw [hzero, if_pos hno]
      omega

section
variable {A : Label → State → Prop}

theorem assumes_dataBlockAlloc : dataBlockAlloc.Assumes A s ↔ A .alloc s := by
  simp [dataBlockAlloc, mutexLock, unlock, Prog.assumes_bind]

theorem assumes_directBlock (ha : s.slot i (.entry k) = -1 → A .alloc s) : (directBlock i k).Assumes A s := by
  simp only [directBlock, Prog.assumes_bind, Prog.assumes_get, Prog.run_get, true_and]
  rintro b s' ⟨⟩
  split
  · next hno =>
    have hal := ha hno
    simp only [Prog.assumes_bind, assumes_dataBlockAlloc, hal, setDataBlock, Prog.assumes_modify, Prog.assumes_pure,
      implies_true, and_self]
  · trivial

theorem assumes_needBonusBlock (ha : s.slot i (.entry indirectAccessBlock) = -1 → A .alloc s) :
    (needBonusBlock i).Assumes A s := by
  simp only [needBonusBlock, Prog.assumes_bind, Prog.assumes_get, Prog.run_get, true_and]
  rintro b s' ⟨⟩
  split
  · next hno =>
    have hal := ha hno
    simp only [bonusBlockInit, Prog.assumes_bind, assumes_dataBlockAlloc, hal, setDataBlock, Prog.assumes_modify,
      Prog.assumes_pure, true_and, implies_true, and_true]
    intro c s₁ _ _ s₂ _
    split <;> simp [undefined, Prog.assumes_bind]
  · trivial

theorem assumes_indirectBlock {e j : Nat} (he : (s.inodeTable i).iDataBlock indirectAccessBlock = e) (hlt : e < dataBlocks)
    (ha : s.slot i (.indirect j) = -1 → A .alloc s) : (indirectBlock i j).Assumes A s := by
  simp only [indirectBlock, Prog.assumes_bind, Prog.assumes_get, Prog.run_get, true_and]
  rintro b s' ⟨⟩
  rw [he, dataBlockGet_of_lt hlt]
  simp only [loadReference, Prog.assumes_bind, Prog.assumes_atomic, Prog.run_atomic, Option.map_eq_some_iff]
  refine ⟨by simp, ?_⟩
  rintro b s' ⟨bytes, hload, ⟨⟩⟩
  have hb : decodeInt bytes = s.slot i (.indirect j) := by
    rw [slot_indirect he hlt, (disk_load_eq_some hload).2]
    rfl
  split
  · next hno =>
    have hal := ha (hb.symm.trans hno)
    simp [storeReference, Prog.assumes_bind, assumes_dataBlockAlloc, hal]
  · trivial

theorem assumes_getCurrentDataBlock (hA : ∀ s : State, 0 < s.freeCount → A .alloc s) (h : Consistent owner s)
    (hi : s.IsFile i) (hk : (s.openFileTable file).ofOffset / blockSize = k) (hex : (dataSlot k).Exists)
    (hcost : s.blockCost i k ≤ s.freeCount) : (getCurrentDataBlock i file).Assumes A s := by
  have hget : (Prog.get fun s : State => (s.openFileTable file).ofOffset / blockSize : Program Nat).run s = some (k, s) := by
    rw [Prog.run_get, hk]
  simp only [getCurrentDataBlock, Prog.assumes_bind, Prog.assumes_get, hget, true_and]
  rintro k' s' ⟨⟩
  by_cases hdir : k < indirectAccessBlock
  · rw [if_pos hdir]
    refine assumes_directBlock fun hno => hA s ?_
    rw [blockCost_direct hdir, if_pos hno] at hcost
    exact hcost
  · rw [if_neg hdir, Prog.assumes_bind]
    have hge : indirectAccessBlock ≤ k := Nat.le_of_not_lt hdir
    have hcost' : (if s.slot i (dataSlot k) = -1 then 1 else 0) +
        (if s.slot i (.entry indirectAccessBlock) = -1 then 1 else 0) ≤ s.freeCount := by
      simpa only [State.blockCost, hge, true_and] using hcost
    refine ⟨assumes_needBonusBlock fun hno => hA s ?_, fun ok s₁ hr => ?_⟩
    · rw [if_pos hno] at hcost'
      omega
    · rcases needBonusBlock_cases h hi with ⟨s₂, hr₂, hlast, hslots, hcount, -⟩ | ⟨-, -, hr₂⟩
      · rw [hr] at hr₂
        cases hr₂
        obtain ⟨hown, -⟩ := ensures_needBonusBlock h hi _ _ hr
        obtain ⟨owner₁, h₁⟩ := hown.consistent
        obtain ⟨e, he, ho⟩ := (h₁.files i (hown.kept.isFile.mpr hi)).indirectBlock hlast
        have hds : dataSlot k = .indirect (k - indirectAccessBlock) := if_neg hdir
        rw [if_pos rfl]
        refine assumes_indirectBlock he (h₁.lt ho) fun hno => hA s₁ ?_
        rw [← hds, hslots k hex] at hno
        rw [if_pos hno] at hcost'
        omega
      · rw [hr] at hr₂
        cases hr₂

end

end Tecnicofs.Ex1
