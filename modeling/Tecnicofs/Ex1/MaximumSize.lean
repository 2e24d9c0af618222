import Tecnicofs.Ex1.Sequential

namespace Tecnicofs.Ex1

open Bytes

/-- The entry of `i_data_block` under which the block at an offset is looked for. -/
def entryIndex (offset : Nat) : Nat :=
  if offset / blockSize < indirectAccessBlock then offset / blockSize else indirectAccessBlock

/-- And the entry of the indirect block, where there is one. -/
def referenceIndex (offset : Nat) : Option Nat :=
  if offset / blockSize < indirectAccessBlock then none else some (offset / blockSize - indirectAccessBlock)

structure InBounds (offset : Nat) : Prop where
  entry : entryIndex offset < blocks
  reference : ∀ j ∈ referenceIndex offset, j < indirectReferences

variable {owner : Owner} {s s' : State} {i f file offset : Nat} {buffer : List UInt8} {fhandle : Int}

theorem run_getCurrentDataBlock_index (inode file : Nat) (s : State) :
    (getCurrentDataBlock inode file).run s =
      match referenceIndex (s.openFileTable file).ofOffset with
      | none => (directBlock inode (entryIndex (s.openFileTable file).ofOffset)).run s
      | some j => (needBonusBlock inode >>= fun ok => if ok then indirectBlock inode j else pure none).run s := by
  simp only [getCurrentDataBlock, entryIndex, referenceIndex, Prog.run_bind, Prog.run_get, Option.bind_some]
  split <;> simp only [Prog.run_bind]

theorem inBounds_iff : InBounds offset ↔ offset < maxFileSize := by
  have hmax : maxFileSize = (indirectAccessBlock + indirectReferences) * blockSize := rfl
  have hlt := @Nat.div_lt_iff_lt_mul blockSize offset (indirectAccessBlock + indirectReferences) (by decide)
  rw [hmax, ← hlt]
  by_cases hdir : offset / blockSize < indirectAccessBlock
  · refine iff_of_true ⟨?_, fun j hj => ?_⟩ (Nat.lt_add_right _ hdir)
    · rw [entryIndex, if_pos hdir]
      exact Nat.lt_succ_of_lt hdir
    · rw [referenceIndex, if_pos hdir] at hj
      cases hj
  · constructor
    · intro h
      have hj := h.reference _ (if_neg hdir)
      omega
    · refine fun hk => ⟨?_, fun j hj => ?_⟩
      · rw [entryIndex, if_neg hdir]
        exact Nat.lt_succ_self _
      · rw [referenceIndex, if_neg hdir] at hj
        cases hj
        omega

/-- The offsets at which the loop of `tfs_write` looks for a block. -/
def writeOffsets (inode file : Nat) : Nat → List UInt8 → State → List Nat
  | 0, _, _ => []
  | fuel + 1, buffer, s =>
    if buffer = [] then []
    else (s.openFileTable file).ofOffset ::
      match (writeIteration inode file buffer).run s with
      | some (some rest, s') => writeOffsets inode file fuel rest s'
      | _ => []

def readOffsets (inode file : Nat) : Nat → Nat → State → List Nat
  | 0, _, _ => []
  | fuel + 1, toRead, s =>
    if toRead = 0 then []
    else (s.openFileTable file).ofOffset ::
      match (readIteration inode file toRead).run s with
      | some (some x, s') => readOffsets inode file fuel x.1 s'
      | _ => []

theorem writeOffsets_inBounds (h : Consistent owner s) (hi : s.IsFile i) (fuel : Nat)
    (hmax : (s.openFileTable file).ofOffset + buffer.length ≤ maxFileSize) :
    ∀ x ∈ writeOffsets i file fuel buffer s, InBounds x := by
  induction fuel generalizing s owner buffer with
  | zero => simp [writeOffsets]
  | succ fuel ih =>
    rw [writeOffsets]
    split
    · simp
    · next hne =>
      have hpos := List.length_pos_iff.mpr hne
      refine List.forall_mem_cons.mpr ⟨inBounds_iff.mpr (by omega), ?_⟩
      rcases writeIteration_cases h hi hne hmax with ⟨s₁, hr, ha⟩ | ⟨-, ⟨-, hr⟩ | ⟨-, s₁, hr, -⟩⟩
      · obtain ⟨owner₁, h₁⟩ := ha.consistent
        have hleft := ha.left
        rw [hr]
        exact ih h₁ (ha.kept.isFile.mpr hi) (by omega)
      · rw [hr]
        simp
      · rw [hr]
        simp

theorem readOffsets_inBounds (h : Consistent owner s) (hi : s.IsFile i) (fuel toRead : Nat)
    (hmax : (s.openFileTable file).ofOffset + toRead ≤ maxFileSize)
    (hall : ∀ k, k * blockSize < (s.openFileTable file).ofOffset + toRead → s.slot i (dataSlot k) ≠ -1) :
    ∀ x ∈ readOffsets i file fuel toRead s, InBounds x := by
  induction fuel generalizing s toRead with
  | zero => simp [readOffsets]
  | succ fuel ih =>
    rw [readOffsets]
    split
    · simp
    · next hpos =>
      have hne := hall _ (lt_of_le_of_lt (Nat.div_mul_le_self ..) (by omega : (s.openFileTable file).ofOffset < _))
      have hle : room toRead (s.openFileTable file).ofOffset ≤ toRead := Nat.min_le_left ..
      obtain ⟨bytes, hr⟩ := run_readIteration h hi hpos hmax hne
      refine List.forall_mem_cons.mpr ⟨inBounds_iff.mpr (by omega), ?_⟩
      rw [hr]
      refine ih (h.setOffset ..) hi _ ?_ fun k hk => ?_
      · rw [offset_advanced]
        omega
      · rw [slot_advanced]
        rw [offset_advanced] at hk
        exact hall k (by omega)

/-- A write stores and returns what fits in the file, and uses no reference outside its indirect block. -/
structure RespectsMaximum (s : State) (fhandle : Int) (buffer : List UInt8) : Prop where
  stores : ∃ s', s.call (.write fhandle buffer) =
      some (⟨(min buffer.length (maxFileSize - (s.openFileTable fhandle.toNat).ofOffset) : Nat), []⟩, s') ∧
    s'.bytesOf (s.fileOf fhandle.toNat) = overwrite (s.bytesOf (s.fileOf fhandle.toNat))
      (s.openFileTable fhandle.toNat).ofOffset (buffer.take (maxFileSize - (s.openFileTable fhandle.toNat).ofOffset))
  references : ∀ x ∈ writeOffsets (s.fileOf fhandle.toNat) fhandle.toNat buffer.length buffer s, InBounds x

def ReadsInBounds (s : State) (fhandle : Int) : Prop :=
  ∀ len, ∀ x ∈ readOffsets (s.fileOf fhandle.toNat) fhandle.toNat (s.toRead (s.fileOf fhandle.toNat) fhandle.toNat len)
    (s.toRead (s.fileOf fhandle.toNat) fhandle.toNat len) s, InBounds x

theorem Settled.readsInBounds (h : Settled owner s) (ho : s.toOpenFiles.IsOpen fhandle) : ReadsInBounds s fhandle := by
  obtain ⟨f, hf, rfl, ht⟩ := ho.exists
  obtain ⟨i, hon⟩ := h.onFile hf ht
  intro len
  have hoff := h.offsets f hf ht
  have hshort := h.short i hon.isFile
  have hbound : maxFileSize < 2 ^ 62 := by decide
  rw [Int.toNat_natCast, hon.fileOf] at *
  have hle : s.toRead i f len ≤ (s.inodeTable i).iSize - (s.openFileTable f).ofOffset := by
    rw [State.toRead, szSub_of_le hoff (by omega)]
    split <;> omega
  exact readOffsets_inBounds h.toConsistent hon.isFile _ _ (by omega) fun k hk => h.allocated i hon.isFile k (by omega)

theorem call_write_ret (hf : OnFile s f i) {o : Out} (hr : s.call (.write f buffer) = some (o, s')) :
    o.ret = -1 ∨ o.ret = buffer.length := by
  rw [call_write, run_tfsWrite hf, Option.map_eq_some_iff] at hr
  obtain ⟨y, hy, he⟩ := hr
  obtain ⟨x, -, hx⟩ := Option.bind_eq_some_iff.mp hy
  obtain ⟨rfl, rfl⟩ := Prod.mk.inj he
  split at hx
  · obtain ⟨z, -, rfl⟩ := Option.map_eq_some_iff.mp hx
    exact .inr rfl
  · cases hx
    exact .inl rfl

theorem not_respectsMaximum (h : Settled owner s) (ho : s.toOpenFiles.IsOpen fhandle)
    (hlong : maxFileSize < (s.openFileTable fhandle.toNat).ofOffset + buffer.length) :
    ¬ RespectsMaximum s fhandle buffer := by
  obtain ⟨f, hf, rfl, ht⟩ := ho.exists
  obtain ⟨i, hon⟩ := h.onFile hf ht
  have hoff := (h.offsets f hf ht).trans (h.short _ (by rw [hon.fileOf]; exact hon.isFile))
  rw [Int.toNat_natCast] at hlong
  rintro ⟨⟨s', hr, -⟩, -⟩
  rw [Int.toNat_natCast] at hr
  rcases call_write_ret hon hr with he | he <;> simp only at he <;> omega

theorem Settled.respectsMaximum (h : Settled owner s) (hw : WithinFile s (.write fhandle buffer))
    (hb : EnoughBlocks s fhandle buffer) : RespectsMaximum s fhandle buffer := by
  obtain ⟨f, hf, rfl, ht⟩ := hw.1.exists
  obtain ⟨i, hon⟩ := h.onFile hf ht
  have hmax := hw.2
  rw [EnoughBlocks] at hb
  rw [Int.toNat_natCast] at hmax hb
  rw [hon.fileOf] at hb
  have hmin : min buffer.length (maxFileSize - (s.openFileTable f).ofOffset) = buffer.length := by omega
  have htake : buffer.take (maxFileSize - (s.openFileTable f).ofOffset) = buffer := List.take_of_length_le (by omega)
  obtain ⟨o, s', fs', owner', hr, ht', h', hs', hk⟩ := h.write (shows_abs s) hon buffer hmax hb
  have hh : s.abs.handles f = some (i, (s.openFileTable f).ofOffset) := by
    rw [(shows_abs s).handles f hf ht, hon.fileOf]
  simp only [ByteFs.transfer, ByteFs.write, Int.toNat_natCast, hh, Limits.clip, limits, Option.some.injEq,
    Prod.mk.injEq] at ht'
  obtain ⟨rfl, rfl⟩ := ht'
  have hstored := hs'.contents i (hk.isFile.mpr hon.isFile)
  simp only [ByteFs.setHandle, ByteFs.setContents, Function.update_self] at hstored
  constructor
  · rw [Int.toNat_natCast, hmin, htake, hon.fileOf]
    exact ⟨s', hr, hstored.symm⟩
  · rw [Int.toNat_natCast, hon.fileOf]
    exact writeOffsets_inBounds h.toConsistent hon.isFile _ hmax

/-- As long as every write fits: a write respects the maximum file size exactly when it fits, and reads stay within
the indirect block. -/
theorem respectsMaximum_iff (h : Runs.Reaches State.call Roomy State.init s) (ho : s.toOpenFiles.IsOpen fhandle)
    (buffer : List UInt8)
    (hb : EnoughBlocks s fhandle (buffer.take (maxFileSize - (s.openFileTable fhandle.toNat).ofOffset))) :
    (RespectsMaximum s fhandle buffer ↔ (s.openFileTable fhandle.toNat).ofOffset + buffer.length ≤ maxFileSize) ∧
      ReadsInBounds s fhandle := by
  obtain ⟨owner, hs⟩ := Settled.of_reaches h
  refine ⟨⟨fun hr => ?_, fun hfit => ?_⟩, hs.readsInBounds ho⟩
  · by_contra hlong
    exact not_respectsMaximum hs ho (Nat.lt_of_not_le hlong) hr
  · rw [List.take_of_length_le (by omega)] at hb
    exact hs.respectsMaximum ⟨ho, hfit⟩ hb

/-- From eleven blocks on through a second handle at the end. -/
theorem respectsMaximum_append :
    let name := some ⟨[47, 97], by decide⟩
    ∃ outs s, Runs.run State.call State.init [.open name tfsOCreat, .write 0 (List.replicate (10 * blockSize + 1) 1),
      .open name tfsOAppend] = some (outs, s) ∧ RespectsMaximum s 1 [2, 3] ∧ ReadsInBounds s 1 := by
  intro name
  have hrun : (Runs.run State.call State.init [.open name tfsOCreat, .write 0 (List.replicate (10 * blockSize + 1) 1),
      .open name tfsOAppend]).map (fun x => decide (x.2.toOpenFiles.IsOpen 1 ∧
        EnoughBlocks x.2 1 ([2, 3].take (maxFileSize - (x.2.openFileTable (1 : Int).toNat).ofOffset)) ∧
        (x.2.openFileTable (1 : Int).toNat).ofOffset + 2 ≤ maxFileSize)) = some true := by decide +kernel
  obtain ⟨x, hx, he⟩ := Option.map_eq_some_iff.mp hrun
  obtain ⟨ho, hb, hfit⟩ := of_decide_eq_true he
  have hr := respectsMaximum_iff ⟨_, _, by decide +kernel, hx⟩ ho [2, 3] hb
  exact ⟨x.1, x.2, hx, hr.1.mpr hfit, hr.2⟩

/-- A file of 266 blocks is full, and the code writes on. -/
theorem maximum_not_respected : ¬ ∀ (s : State) (fhandle : Int) (buffer : List UInt8),
    Runs.Reaches State.call Roomy State.init s → s.toOpenFiles.IsOpen fhandle →
      EnoughBlocks s fhandle (buffer.take (maxFileSize - (s.openFileTable fhandle.toNat).ofOffset)) →
        RespectsMaximum s fhandle buffer := by
  intro h
  obtain ⟨s₁, h₁, hf⟩ := Stocked.init.open ⟨[47, 97], by decide⟩ (by decide) (by decide) (by decide) (by decide)
  replace hf : Untouched s₁ 0 1 := hf
  obtain ⟨owner, hs₁⟩ := Settled.of_reaches h₁.reached
  have hlen : (List.replicate maxFileSize (0 : UInt8)).length = maxFileSize := List.length_replicate
  have hcost : s₁.writeCost 1 0 maxFileSize ≤ s₁.freeCount := by
    rw [h₁.count, writeCost_untouched hf.slot le_rfl]
    decide
  obtain ⟨o, s₂, fs₂, owner₂, hr, ht, hs₂, hshow, hk⟩ := hs₁.write (shows_abs s₁) hf.toOnFile
    (List.replicate maxFileSize 0) (by rw [hf.offset, hlen, Nat.zero_add]) (by rw [hf.offset, hlen]; exact hcost)
  have ho : s₂.toOpenFiles.IsOpen (0 : Nat) := OpenFiles.isOpen_natCast.mpr ⟨hf.lt, by rw [hk.handles]; exact hf.taken⟩
  have hreach : Runs.Reaches State.call Roomy State.init s₂ := by
    refine h₁.reached.call (c := .write (0 : Nat) (List.replicate maxFileSize 0)) ⟨⟨?_, ?_⟩, trivial, ?_⟩ hr
    · exact OpenFiles.isOpen_natCast.mpr ⟨hf.lt, hf.taken⟩
    · rw [Int.toNat_natCast, hf.offset, hlen, Nat.zero_add]
    · rw [EnoughFor, EnoughBlocks, Int.toNat_natCast, hf.fileOf, hf.offset, hlen]
      exact hcost
  have hoff : (s₂.openFileTable 0).ofOffset = maxFileSize := by
    have hh : s₁.abs.handles 0 = some (1, 0) := by
      rw [(shows_abs s₁).handles 0 hf.lt hf.taken, hf.fileOf, hf.offset]
    have hh₂ := hshow.handles 0 hf.lt (by rw [hk.handles]; exact hf.taken)
    simp only [ByteFs.transfer, ByteFs.write, Int.toNat_natCast, hh, Limits.clip, limits, Option.some.injEq,
      Prod.mk.injEq] at ht
    obtain ⟨-, rfl⟩ := ht
    simp only [ByteFs.setHandle, Function.update_self, hlen, Nat.zero_add, Option.some.injEq, Prod.mk.injEq] at hh₂
    exact hh₂.2.symm
  refine not_respectsMaximum hs₂ ho ?_ (h s₂ (0 : Nat) [0] hreach ho ?_)
  · rw [Int.toNat_natCast, hoff]
    exact Nat.lt_succ_self _
  · rw [Int.toNat_natCast, hoff, Nat.sub_self, List.take_zero, EnoughBlocks, List.length_nil, writeCost_zero]
    exact Nat.zero_le _

end Tecnicofs.Ex1
