import Tecnicofs.Ex1.AllOrNothing

namespace Tecnicofs.Ex1

open Bytes

/-- Slots of the file that were empty name blocks that were free, and nothing else was taken. -/
structure Grew (i : Nat) (s s' : State) : Prop where
  fresh : ∀ (k : Slot) (b : Nat), k.Exists → s.slot i k = -1 → s'.slot i k = b →
    s.freeBlocks b = .free ∧ s'.freeBlocks b = .taken
  others : ∀ b : Nat, (∀ k : Slot, k.Exists → s.slot i k = -1 → s'.slot i k ≠ b) → s'.freeBlocks b = s.freeBlocks b
  same : ∀ k : Slot, k.Exists → s.slot i k ≠ -1 → s'.slot i k = s.slot i k

variable {owner : Owner} {s s' : State} {i file : Nat} {Q : β → State → Prop}

namespace Grew

theorem of_slots (hf : s'.freeBlocks = s.freeBlocks) (hs : ∀ k : Slot, k.Exists → s'.slot i k = s.slot i k) :
    Grew i s s' where
  fresh k b hk hno hb := by
    rw [hs k hk, hno] at hb
    omega
  others b _ := by rw [hf]
  same k hk _ := hs k hk

theorem refl (i : Nat) (s : State) : Grew i s s := of_slots rfl fun _ _ => rfl

theorem free_of_free (h : Grew i s s') {b : Nat} (hb : s'.freeBlocks b = .free) : s.freeBlocks b = .free := by
  by_cases hex : ∃ k : Slot, k.Exists ∧ s.slot i k = -1 ∧ s'.slot i k = b
  · obtain ⟨k, hk, hno, hkb⟩ := hex
    exact (h.fresh k b hk hno hkb).1
  · rw [← h.others b fun k hk hno hkb => hex ⟨k, hk, hno, hkb⟩]
    exact hb

theorem taken_of_taken (h : Grew i s s') {b : Nat} (hb : s.freeBlocks b = .taken) : s'.freeBlocks b = .taken := by
  cases hb' : s'.freeBlocks b with
  | taken => rfl
  | free =>
    rw [h.free_of_free hb'] at hb
    cases hb

theorem trans {s₁ s₂ s₃ : State} (h : Grew i s₁ s₂) (h' : Grew i s₂ s₃) : Grew i s₁ s₃ where
  fresh k b hk hno hb := by
    by_cases hno₂ : s₂.slot i k = -1
    · obtain ⟨hf, ht⟩ := h'.fresh k b hk hno₂ hb
      exact ⟨h.free_of_free hf, ht⟩
    · rw [h'.same k hk hno₂] at hb
      obtain ⟨hf, ht⟩ := h.fresh k b hk hno hb
      exact ⟨hf, h'.taken_of_taken ht⟩
  others b hb := by
    have hempty : ∀ k : Slot, k.Exists → s₂.slot i k = -1 → s₁.slot i k = -1 := fun k hk hno => by
      by_contra hne
      exact hne ((h.same k hk hne).symm.trans hno)
    rw [h'.others b fun k hk hno => hb k hk (hempty k hk hno)]
    refine h.others b fun k hk hno hkb => hb k hk hno ?_
    rw [h'.same k hk (by rw [hkb]; omega), hkb]
  same k hk hne := by
    have hsame := h.same k hk hne
    rw [h'.same k hk (by rwa [hsame]), hsame]

theorem of_take {c : Nat} {k₀ : Slot} (hfree : s.freeBlocks c = .free) (hf : s'.freeBlocks = (s.toDisk.take c).freeBlocks)
    (hk₀ : k₀.Exists) (hno₀ : s.slot i k₀ = -1)
    (hs : ∀ k : Slot, k.Exists → s'.slot i k = if k = k₀ then (c : Int) else s.slot i k) : Grew i s s' where
  fresh k b hk hno hb := by
    rw [hs k hk] at hb
    by_cases hkk : k = k₀
    · rw [if_pos hkk] at hb
      obtain rfl : c = b := by omega
      exact ⟨hfree, by rw [hf, Disk.take_freeBlocks, if_pos rfl]⟩
    · rw [if_neg hkk, hno] at hb
      omega
  others b hb := by
    have hne : b ≠ c := by
      rintro rfl
      exact hb k₀ hk₀ hno₀ (by rw [hs k₀ hk₀, if_pos rfl])
    rw [hf, Disk.take_freeBlocks, if_neg hne]
  same k hk hne := by
    rw [hs k hk, if_neg]
    rintro rfl
    exact hne hno₀

end Grew

structure Gained (i : Nat) (s s' : State) : Prop extends Grew i s s' where
  size : (s'.inodeTable i).iSize = (s.inodeTable i).iSize

theorem Gained.refl (i : Nat) (s : State) : Gained i s s := ⟨.refl i s, rfl⟩

theorem Gained.trans {s₁ s₂ s₃ : State} (h : Gained i s₁ s₂) (h' : Gained i s₂ s₃) : Gained i s₁ s₃ :=
  ⟨h.toGrew.trans h'.toGrew, h'.size.trans h.size⟩

theorem gained_directBlock {k : Nat} (hk : k < indirectAccessBlock) :
    (directBlock i k).Ensures s fun _ => Gained i s := by
  have hslot : s.slot i (.entry k) = (s.inodeTable i).iDataBlock k := rfl
  have hex : (Slot.entry k).Exists := Nat.lt_succ_of_lt hk
  refine Prog.ensures_get ?_
  split
  · next hno =>
    refine ensures_dataBlockAlloc (fun c hc hfree => ?_) ?_
    · refine Prog.ensures_modify (Prog.ensures_pure ⟨.of_take hfree rfl hex (hslot.trans hno) fun k' hk' => ?_, ?_⟩)
      · exact (slot_setBlock (s := s.setDisk (s.toDisk.take c)) (Nat.ne_of_lt hk) c k').trans (by cases k' <;> rfl)
      · simp [State.setInode_inodeTable, Inode.setBlock]
    · refine Prog.ensures_modify (Prog.ensures_pure ?_)
      rw [setBlock_self hno]
      exact .refl i s
  · exact Prog.ensures_pure (.refl i s)

theorem gained_needBonusBlock (h : Consistent owner s) (hi : s.IsFile i) :
    (needBonusBlock i).Ensures s fun _ => Gained i s := by
  have hex : (Slot.entry indirectAccessBlock).Exists := by decide
  refine Prog.ensures_get ?_
  split
  · next hno =>
    refine Prog.Ensures.bind (ensures_dataBlockAlloc (fun c hc hfree => ?_) ?_)
    · obtain ⟨ha, ho, -⟩ := h.allocFor hc hfree (some i)
      refine Prog.ensures_modify ?_
      rw [dataBlockGet_of_lt hc]
      refine Prog.ensures_atomic fun _ s' hs => Prog.ensures_pure ?_
      obtain ⟨d, hd, he⟩ := Option.map_eq_some_iff.mp hs
      cases he
      obtain ⟨-, rfl⟩ := disk_store_eq_some hd
      refine Prog.ensures_modify (Prog.ensures_pure ?_)
      rw [setBlock_self (by simp [State.setInode_inodeTable, Inode.setBlock])]
      refine ⟨.of_take hfree rfl hex hno fun k hk => ?_, by simp [State.setInode_inodeTable, Inode.setBlock]⟩
      by_cases hkl : k = .entry indirectAccessBlock
      · rw [if_pos hkl, hkl]
        simp [State.slot, State.setInode_inodeTable, Inode.setBlock]
      · rw [if_neg hkl]
        have hother : ∀ j, j ≠ i → Function.update owner c (some i) c ≠ some j := fun j hj he =>
          hj (Option.some.inj (he.symm.trans ho))
        exact (ha.slot_newIndirect (by exact hno) hc hother hi hk (.inr hkl)).trans (by cases k <;> rfl)
    · refine Prog.ensures_modify ?_
      rw [dataBlockGet_neg_one]
      exact Prog.ensures_atomic fun _ _ hs => by cases hs
  · exact Prog.ensures_pure (.refl i s)

theorem gained_indirectBlock {j : Nat} (hj : j < indirectReferences) :
    (indirectBlock i j).Ensures s fun _ => Gained i s := by
  have hex : (Slot.indirect j).Exists := hj
  refine Prog.ensures_get ?_
  split
  · exact fun _ _ hr => by cases hr
  · next a ha =>
    obtain ⟨e, hlt, he, rfl⟩ := dataBlockGet_eq_some ha
    refine Prog.ensures_atomic fun b s' hs => ?_
    obtain ⟨bs, hbs, hb⟩ := Option.map_eq_some_iff.mp hs
    cases hb
    have hslot : s.slot i (.indirect j) = decodeInt bs := by
      rw [slot_indirect he hlt, (disk_load_eq_some hbs).2]
      rfl
    split
    · next hno =>
      refine ensures_dataBlockAlloc (fun c hc hfree => ?_) ?_
      · have hint : IsInt (c : Int) := by
          simp only [dataBlocks] at hc
          exact ⟨by omega, by omega⟩
        refine ensures_storeReference (Prog.ensures_pure ⟨.of_take hfree rfl hex (hslot.trans hno) fun k hk => ?_, rfl⟩)
        exact (slot_store (s := s.setDisk (s.toDisk.take c)) (by exact he) hlt hint k).trans (by cases k <;> rfl)
      · refine ensures_storeReference (Prog.ensures_pure ⟨.of_slots rfl fun k hk => ?_, rfl⟩)
        rw [slot_store he hlt (by decide) k]
        split
        · next hkj => rw [hkj, hslot, hno]
        · rfl
    · exact Prog.ensures_pure (.refl i s)

theorem gained_getCurrentDataBlock (h : Consistent owner s) (hi : s.IsFile i)
    (hex : (dataSlot ((s.openFileTable file).ofOffset / blockSize)).Exists) :
    (getCurrentDataBlock i file).Ensures s fun _ => Gained i s := by
  refine Prog.ensures_get ?_
  split
  · next hk => exact gained_directBlock hk
  · next hk =>
    rw [dataSlot, if_neg hk] at hex
    refine Prog.Ensures.bind ((gained_needBonusBlock h hi).mono fun ok s₁ h₁ => ?_)
    split
    · exact (gained_indirectBlock hex).mono fun _ s₂ h₂ => h₁.trans h₂
    · exact Prog.ensures_pure h₁

structure Filled (s : State) (i n : Nat) : Prop where
  slot : ∀ k, (dataSlot k).Exists → (s.slot i (dataSlot k) = -1 ↔ n ≤ k)
  last : s.slot i (.entry indirectAccessBlock) = -1 ↔ n ≤ indirectAccessBlock

theorem Filled.of_slots {n : Nat} (h : Filled s i n) (hs : ∀ k : Slot, k.Exists → s'.slot i k = s.slot i k) :
    Filled s' i n where
  slot k hk := by rw [hs _ hk, h.slot k hk]
  last := by rw [hs _ (by decide), h.last]

theorem Filled.located {n k b : Nat} (h : Filled s i n) (hk : k ≤ n) (hl : Located s i k b s') :
    Filled s' i (max n (k + 1)) where
  slot k' hk' := by
    by_cases hkk : k' = k
    · rw [hkk, hl.slot]
      omega
    · rw [hl.others k' hkk hk', h.slot k' hk']
      omega
  last := by
    rw [hl.last, h.last]
    omega

def blocksFor (size : Nat) : Nat := (size + (blockSize - 1)) / blockSize

theorem wrote_iSize (s : State) (i file a : Nat) (bytes : List UInt8) :
    ((wrote s i file a bytes).inodeTable i).iSize = szAdd (s.inodeTable i).iSize bytes.length := by
  simp [wrote, State.setInode_inodeTable]

theorem wrote_openFileTable_of_ne (s : State) {f : Nat} (hf : f ≠ file) (i a : Nat) (bytes : List UInt8) :
    (wrote s i file a bytes).openFileTable f = s.openFileTable f := by
  simp [wrote, OpenFiles.setOffset_table, hf]

structure Extended (i file n len : Nat) (s s' : State) : Prop where
  filled : Filled s' i (max n (blocksFor ((s.openFileTable file).ofOffset + len)))
  size : (s'.inodeTable i).iSize = (s.inodeTable i).iSize + len
  offset : (s'.openFileTable file).ofOffset = (s.openFileTable file).ofOffset + len
  handles : ∀ f, f ≠ file → s'.openFileTable f = s.openFileTable f

theorem extended_zero {n : Nat} (h : Filled s i n) (hat : (s.openFileTable file).ofOffset ≤ n * blockSize) :
    Extended i file n 0 s s where
  filled := by
    have hle : blocksFor ((s.openFileTable file).ofOffset + 0) ≤ n := by
      simp only [blocksFor, blockSize] at hat ⊢
      omega
    rwa [max_eq_left hle]
  size := rfl
  offset := rfl
  handles _ _ := rfl

theorem Extended.after {n c len offset : Nat} {s₁ s₂ : State} (hc : 0 < c) (hle : c ≤ len)
    (ho : (s.openFileTable file).ofOffset = offset) (hoff : (s₁.openFileTable file).ofOffset = offset + c)
    (hsize : (s₁.inodeTable i).iSize = (s.inodeTable i).iSize + c)
    (hothers : ∀ f, f ≠ file → s₁.openFileTable f = s.openFileTable f)
    (h : Extended i file (max n (offset / blockSize + 1)) (len - c) s₁ s₂) : Extended i file n len s s₂ where
  filled := by
    have hmax : max (max n (offset / blockSize + 1)) (blocksFor ((s₁.openFileTable file).ofOffset + (len - c))) =
        max n (blocksFor ((s.openFileTable file).ofOffset + len)) := by
      simp only [blocksFor, blockSize, hoff, ho]
      omega
    rw [← hmax]
    exact h.filled
  size := by rw [h.size, hsize]; omega
  offset := by rw [h.offset, hoff, ho]; omega
  handles f hf := (h.handles f hf).trans (hothers f hf)

theorem ensures_writeLoop_extended (h : Consistent owner s) (hi : s.IsFile i) {n fuel : Nat} {buffer : List UInt8}
    (hfilled : Filled s i n) (hat : (s.openFileTable file).ofOffset ≤ n * blockSize)
    (hlen : (s.openFileTable file).ofOffset + buffer.length ≤ maxFileSize) (hfuel : buffer.length ≤ fuel)
    (hsize : (s.inodeTable i).iSize + buffer.length < 2 ^ 64) :
    (writeLoop i file fuel buffer).Ensures s fun ok s' =>
      Owned s s' ∧ Grew i s s' ∧ (ok = true → Extended i file n buffer.length s s') := by
  induction fuel generalizing s owner buffer n with
  | zero =>
    obtain rfl := List.length_eq_zero_iff.mp (Nat.le_zero.mp hfuel)
    exact Prog.ensures_pure ⟨⟨.refl s, _, h⟩, .refl i s, fun _ => extended_zero hfilled hat⟩
  | succ fuel ih =>
    rw [writeLoop]
    split
    · next hnil =>
      subst hnil
      exact Prog.ensures_pure ⟨⟨.refl s, _, h⟩, .refl i s, fun _ => extended_zero hfilled hat⟩
    · next hne =>
      have hpos := List.length_pos_iff.mpr hne
      have hex : (dataSlot ((s.openFileTable file).ofOffset / blockSize)).Exists :=
        dataSlot_exists (lt_of_le_of_lt (Nat.div_mul_le_self ..) (by omega))
      refine Prog.Ensures.bind fun r s₁ hr => ?_
      have hfound := ensures_getCurrentDataBlock h hi _ _ hr
      have hgained := gained_getCurrentDataBlock h hi hex _ _ hr
      rcases getCurrentDataBlock_cases h hi rfl hex with ⟨b, s₁', hr', hl⟩ | ⟨-, ⟨-, hr'⟩ | ⟨-, s₁', hr', -⟩⟩
      · rw [hr] at hr'
        cases hr'
        obtain ⟨owner₁, h₁⟩ := hfound.consistent
        have hi₁ := hfound.kept.isFile.mpr hi
        have hown := h₁.files i hi₁
        obtain ⟨c, hc, ho⟩ := hown.slot _ hex (by rw [hl.slot]; omega)
        obtain rfl : b = c := by
          rw [hl.slot] at hc
          omega
        have hlast := dataSlot_ne_last ((s.openFileTable file).ofOffset / blockSize)
        have hlastb : (s₁.inodeTable i).iDataBlock indirectAccessBlock ≠ b := fun he =>
          hlast (hown.inj _ (.entry indirectAccessBlock) hex (by decide) (by rw [hl.slot]; omega) (hl.slot.trans he.symm))
        refine Prog.ensures_get ?_
        obtain ⟨hcur, hchunk⟩ := chunk_getCurrentOffset buffer.length (s.openFileTable file).ofOffset (by omega)
        rw [hfound.files, hcur, hchunk]
        have hroom := room_pos hpos (s.openFileTable file).ofOffset
        have hle : room buffer.length (s.openFileTable file).ofOffset ≤ buffer.length := Nat.min_le_left ..
        have hblock : (s.openFileTable file).ofOffset % blockSize + room buffer.length (s.openFileTable file).ofOffset ≤
            blockSize := by
          simp only [room, blockSize]
          omega
        have hfilled₁ := hfilled.located (Nat.div_le_of_le_mul (by rwa [Nat.mul_comm])) hl
        generalize hoff : (s.openFileTable file).ofOffset = offset at *
        generalize room buffer.length offset = n₁ at *
        have htake : (buffer.take n₁).length = n₁ := List.length_take_of_le hle
        have hbytes : offset % blockSize + (buffer.take n₁).length ≤ blockSize := by rwa [htake]
        have hslots : ∀ k : Slot, k.Exists →
            (wrote s₁ i file (b * blockSize + offset % blockSize) (buffer.take n₁)).slot i k = s₁.slot i k := fun k hk =>
          hown.slot_wrote (fun b hb => h₁.lt hb) hex hlast hl.slot hbytes hk
        have hkept : Kept s₁ (wrote s₁ i file (b * blockSize + offset % blockSize) (buffer.take n₁)) :=
          .wrote (h₁.ne_zero hi₁) (blockSize_le (h₁.block_ne_zero hi₁ ho) _) _
        have hbound : maxFileSize < 2 ^ 62 := by decide
        have hoff₂ : ((wrote s₁ i file (b * blockSize + offset % blockSize) (buffer.take n₁)).openFileTable file).ofOffset =
            offset + n₁ := by rw [wrote_offset, hfound.files, hoff, htake, szAdd_of_lt (by omega)]
        have hsize₂ : ((wrote s₁ i file (b * blockSize + offset % blockSize) (buffer.take n₁)).inodeTable i).iSize =
            (s.inodeTable i).iSize + n₁ := by
          rw [wrote_iSize, hgained.size, htake, szAdd_of_lt (by omega)]
        have hothers : ∀ f, f ≠ file →
            (wrote s₁ i file (b * blockSize + offset % blockSize) (buffer.take n₁)).openFileTable f = s.openFileTable f :=
          fun f hf => (wrote_openFileTable_of_ne s₁ hf ..).trans (congrFun hfound.files f)
        have hwrote : Grew i s₁ (wrote s₁ i file (b * blockSize + offset % blockSize) (buffer.take n₁)) :=
          .of_slots rfl hslots
        have hrest : (buffer.drop n₁).length = buffer.length - n₁ := List.length_drop
        refine ensures_writeChunk ((ih (h₁.wrote hi₁ ho hlastb hbytes) (hkept.isFile.mpr hi₁) (hfilled₁.of_slots hslots)
          ?_ (by omega) (by omega) (by omega)).mono fun ok s₃ hrec =>
            ⟨.trans (hfound.kept.trans hkept) hrec.1, (hgained.toGrew.trans hwrote).trans hrec.2.1,
              fun hok => ?_⟩)
        · rw [hoff₂]
          simp only [blockSize] at hblock ⊢
          omega
        · have hext := hrec.2.2 hok
          rw [hrest] at hext
          exact hext.after hroom hle hoff hoff₂ hsize₂ hothers
      · rw [hr] at hr'
        cases hr'
      · rw [hr] at hr'
        cases hr'
        exact Prog.ensures_pure ⟨hfound.toOwned, hgained.toGrew, fun hok => by cases hok⟩

theorem run_tfsWrite_extended (h : Consistent owner s) {f : Nat} (hon : OnFile s f i) {buffer : List UInt8} {r : Int}
    (hfilled : Filled s i (blocksFor (s.inodeTable i).iSize))
    (hoff : (s.openFileTable f).ofOffset ≤ (s.inodeTable i).iSize) (hshort : (s.inodeTable i).iSize ≤ maxFileSize)
    (hlen : (s.openFileTable f).ofOffset + buffer.length ≤ maxFileSize)
    (hr : (tfsWrite f buffer).run s = some (r, s')) (hne : r ≠ -1) :
    ∃ s₁, (writeLoop i f buffer.length buffer).run s = some (true, s₁) ∧ Owned s s₁ ∧ Grew i s s₁ ∧
      Extended i f (blocksFor (s.inodeTable i).iSize) buffer.length s s₁ ∧ s' = s₁.setInode i { s₁.inodeTable i with
        iSize := max (s.inodeTable i).iSize ((s.openFileTable f).ofOffset + buffer.length) } := by
  have hbound : maxFileSize < 2 ^ 62 := by decide
  rw [run_tfsWrite hon] at hr
  obtain ⟨⟨ok, s₁⟩, hloop, hr⟩ := Option.bind_eq_some_iff.mp hr
  have hat : (s.openFileTable f).ofOffset ≤ blocksFor (s.inodeTable i).iSize * blockSize := by
    simp only [blocksFor, blockSize]
    omega
  obtain ⟨hown, hgrew, hext⟩ :=
    ensures_writeLoop_extended h hon.isFile hfilled hat hlen le_rfl (by omega) ok s₁ hloop
  cases ok with
  | false =>
    cases hr
    exact absurd rfl hne
  | true =>
    refine ⟨s₁, hloop, hown, hgrew, hext rfl, ?_⟩
    have hsize := (hext rfl).size
    rw [if_pos rfl] at hr
    obtain ⟨⟨u, s₂⟩, hfix, he⟩ := Option.map_eq_some_iff.mp hr
    cases he
    rw [fixSize, Prog.run_modify] at hfix
    cases hfix
    split
    · next hno =>
      have hmax : (if (s.openFileTable f).ofOffset + buffer.length > (s.inodeTable i).iSize then
            (s.openFileTable f).ofOffset + buffer.length else (s.inodeTable i).iSize) =
          max (s.inodeTable i).iSize ((s.openFileTable f).ofOffset + buffer.length) := by
        split <;> omega
      rw [szAdd_of_lt (by omega), Nat.add_comm buffer.length, hmax]
    · next hyes =>
      have hmax : max (s.inodeTable i).iSize ((s.openFileTable f).ofOffset + buffer.length) =
          (s₁.inodeTable i).iSize := by omega
      rw [hmax]
      simp [State.setInode]

theorem slot_setSize {n : Nat} (hs : s' = s.setInode i { s.inodeTable i with iSize := n }) (j : Nat) (k : Slot) :
    s'.slot j k = s.slot j k := by
  by_cases hj : j = i
  · subst hj
    rw [hs]
    cases k <;> simp [State.slot, State.setInode_inodeTable]
  · rw [hs]
    exact slot_setInode_of_ne hj _ k

theorem Extended.written {n len : Nat} {s₁ : State} (h : Extended i file (blocksFor n) len s s₁)
    (hs : s' = s₁.setInode i { s₁.inodeTable i with iSize := max n ((s.openFileTable file).ofOffset + len) }) :
    Filled s' i (blocksFor (s'.inodeTable i).iSize) ∧
      (s'.inodeTable i).iSize = max n ((s.openFileTable file).ofOffset + len) := by
  have hsize : (s'.inodeTable i).iSize = max n ((s.openFileTable file).ofOffset + len) := by
    rw [hs, State.setInode_inodeTable, if_pos rfl]
  have hblocks : max (blocksFor n) (blocksFor ((s.openFileTable file).ofOffset + len)) =
      blocksFor (max n ((s.openFileTable file).ofOffset + len)) := by
    simp only [blocksFor, blockSize]
    omega
  refine ⟨?_, hsize⟩
  rw [hsize, ← hblocks]
  exact h.filled.of_slots fun k _ => slot_setSize hs i k

/-- The file that was created in the state `s₀` has the blocks that its size needs, and nothing else was allocated. -/
structure Grown (s₀ : State) (i : Nat) (s : State) : Prop where
  consistent : ∃ owner, Consistent owner s
  isFile : s.IsFile i
  grew : Grew i (newFile s₀ i) s
  filled : Filled s i (blocksFor (s.inodeTable i).iSize)
  short : (s.inodeTable i).iSize ≤ maxFileSize
  states : s.freeinodeTs = (newFile s₀ i).freeinodeTs
  offsets : ∀ f < maxOpenFiles, s.freeOpenFileEntries f = .taken → (s.openFileTable f).ofInumber = (i : Nat) →
    (s.openFileTable f).ofOffset ≤ (s.inodeTable i).iSize

namespace Grown

variable {s₀ : State}

theorem created (h : Consistent owner s₀) (hi : i < inodeTableSize) (hfree : s₀.freeinodeTs i = .free) :
    Grown s₀ i (newFile s₀ i) where
  consistent := ⟨owner, h.create hfree⟩
  isFile := Consistent.isFile_newFile hi
  grew := .refl i _
  filled := by
    have hsize : ((newFile s₀ i).inodeTable i).iSize = 0 := by simp [newFile, State.setInode_inodeTable]
    rw [hsize]
    exact ⟨fun k hk => iff_of_true (Consistent.slot_newFile hk) (Nat.zero_le _),
      iff_of_true (Consistent.slot_newFile (by decide)) (Nat.zero_le _)⟩
  short := by simp [newFile, State.setInode_inodeTable]
  states := rfl
  offsets f hf ht hin := by
    obtain ⟨j, hj, hjf⟩ := h.handles f hf ht
    obtain rfl : j = i := by
      have heq : ((newFile s₀ i).openFileTable f).ofInumber = (s₀.openFileTable f).ofInumber := rfl
      rw [← heq, hin] at hj
      omega
    cases hfree.symm.trans hjf.2.1

theorem setFiles (h : Grown s₀ i s) {f : OpenFiles} (hc : ∃ owner, Consistent owner (s.setFiles f))
    (ho : ∀ x < maxOpenFiles, f.freeOpenFileEntries x = .taken → (f.openFileTable x).ofInumber = (i : Nat) →
      (f.openFileTable x).ofOffset ≤ (s.inodeTable i).iSize) : Grown s₀ i (s.setFiles f) where
  consistent := hc
  isFile := h.isFile
  grew := h.grew.trans (.of_slots rfl fun k _ => by cases k <;> rfl)
  filled := h.filled.of_slots fun k _ => by cases k <;> rfl
  short := h.short
  states := h.states
  offsets := ho

theorem opened (h : Grown s₀ i s) {o : Nat} (ho : o ≤ (s.inodeTable i).iSize) : Grown s₀ i (opened s i o).2 := by
  obtain ⟨owner, hc⟩ := h.consistent
  refine h.setFiles ⟨owner, hc.openHandle h.isFile o⟩ fun x hx ht hin => ?_
  unfold Tecnicofs.addToOpenFileTable at ht hin ⊢
  split at ht
  · next f hf =>
    rw [hf] at hin
    simp only [OpenFiles.setEntry_free, OpenFiles.take_free, OpenFiles.setEntry_table] at ht hin ⊢
    by_cases hxf : x = f
    · rw [if_pos hxf]
      exact ho
    · rw [if_neg hxf] at ht hin ⊢
      exact h.offsets x hx ht hin
  · next hf =>
    rw [hf] at hin
    exact h.offsets x hx ht hin

theorem closed (h : Grown s₀ i s) (fhandle : Int) :
    Grown s₀ i (s.setFiles (Tecnicofs.removeFromOpenFileTable s.toOpenFiles fhandle).2) := by
  obtain ⟨owner, hc⟩ := h.consistent
  refine h.setFiles ⟨owner, hc.close fhandle⟩ fun x hx ht hin => ?_
  by_cases hopen : s.toOpenFiles.IsOpen fhandle
  · rw [removeFromOpenFileTable_of_isOpen hopen] at ht hin ⊢
    rw [OpenFiles.release_free] at ht
    split at ht
    · cases ht
    · exact h.offsets x hx ht hin
  · rw [removeFromOpenFileTable_of_not hopen] at ht hin ⊢
    exact h.offsets x hx ht hin

theorem wrote (h : Grown s₀ i s) {f : Nat} (hon : OnFile s f i) {buffer : List UInt8} {r : Int}
    (hlen : (s.openFileTable f).ofOffset + buffer.length ≤ maxFileSize)
    (hr : (tfsWrite f buffer).run s = some (r, s')) (hne : r ≠ -1) : Grown s₀ i s' := by
  obtain ⟨owner, hc⟩ := h.consistent
  have hoff := h.offsets f hon.lt hon.taken hon.inumber
  have hshort := h.short
  obtain ⟨s₁, -, hown, hgrew, hext, hs'⟩ := run_tfsWrite_extended hc hon h.filled hoff hshort hlen hr hne
  obtain ⟨owner₁, hc₁⟩ := hown.consistent
  have hi₁ := hown.kept.isFile.mpr hon.isFile
  obtain ⟨hfilled, hsize'⟩ := hext.written hs'
  have hslots := slot_setSize hs'
  generalize hm : max (s.inodeTable i).iSize ((s.openFileTable f).ofOffset + buffer.length) = m at hs' hsize'
  exact {
    consistent := ⟨owner₁, hs' ▸ hc₁.setSize hi₁ m⟩
    isFile := by
      have hkept : Kept s₁ (s₁.setInode i { s₁.inodeTable i with iSize := m }) := .setInode hon.ne_zero rfl
      exact hs' ▸ hkept.isFile.mpr hi₁
    grew := (h.grew.trans hgrew).trans (.of_slots (by rw [hs']; rfl) fun k _ => hslots i k)
    filled := hfilled
    short := by omega
    states := by rw [hs', State.setInode_freeinodeTs, hown.kept.freeinodeTs, h.states]
    offsets := fun x hx ht hin => by
      rw [hsize']
      rw [hs', State.setInode_toOpenFiles] at ht hin ⊢
      rw [hown.kept.handles] at ht
      by_cases hxf : x = f
      · rw [hxf, hext.offset]
        omega
      · rw [hext.handles x hxf] at hin ⊢
        have := h.offsets x hx ht hin
        omega }

end Grown

end Tecnicofs.Ex1
