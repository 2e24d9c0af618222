import Tecnicofs.Ex1.Consistent

namespace Tecnicofs.Ex1

open Bytes

variable {owner : Owner} {s s' : State} {i file : Nat} {Q : β → State → Prop}

structure Owned (s s' : State) : Prop where
  kept : Kept s s'
  consistent : ∃ owner, Consistent owner s'

structure Found (s : State) (i : Nat) (k : Slot) (r : Option Nat) (s' : State) : Prop extends Owned s s' where
  files : s'.openFileTable = s.openFileTable
  block : ∀ a ∈ r, ∃ b : Nat, a = b * blockSize ∧ s'.slot i k = b

theorem Owned.trans {s₁ s₂ s₃ : State} (h : Kept s₁ s₂) (h' : Owned s₂ s₃) : Owned s₁ s₃ :=
  ⟨h.trans h'.kept, h'.consistent⟩

theorem ensures_dataBlockAlloc {f : Int → Program β}
    (hsome : ∀ c < dataBlocks, s.freeBlocks c = .free →
      (f c).Ensures (s.setDisk (s.toDisk.take c)) Q) (hnone : (f (-1)).Ensures s Q) :
    (dataBlockAlloc >>= f).Ensures s Q := by
  refine .of_run (run_dataBlockAlloc s) ?_
  rcases dataBlockAlloc_cases s.toDisk with ⟨c, hc, hfree, he⟩ | ⟨-, he⟩
  · rw [he]
    exact hsome c hc hfree
  · rw [he]
    exact hnone

theorem Consistent.allocFor (h : Consistent owner s) {c : Nat} (hc : c < dataBlocks) (hfree : s.freeBlocks c = .free)
    (o : Option Nat) :
    Consistent (Function.update owner c o) (s.setDisk (s.toDisk.take c)) ∧ Function.update owner c o c = o ∧
      ∀ j, s.IsFile j → ∀ k : Slot, k.Exists → (s.setDisk (s.toDisk.take c)).slot j k ≠ c := by
  refine ⟨h.alloc hc hfree o, Function.update_self .., fun j hj k hk => ?_⟩
  have hne := h.slot_ne_of_free hj hfree hk
  cases k <;> exact hne

theorem ensures_directBlock (h : Consistent owner s) (hi : s.IsFile i) {k : Nat} (hk : k < indirectAccessBlock) :
    (directBlock i k).Ensures s (Found s i (.entry k)) := by
  have hne : k ≠ indirectAccessBlock := Nat.ne_of_lt hk
  refine Prog.ensures_get ?_
  split
  · refine ensures_dataBlockAlloc (fun c hc hfree => ?_) ?_
    · obtain ⟨ha, ho, hno⟩ := h.allocFor hc hfree (some i)
      have hset := ha.setEntry hi hne (.inr ⟨c, rfl, ho, hno i hi⟩)
      refine Prog.ensures_modify (Prog.ensures_pure ⟨⟨(Kept.take c).trans (.setBlock (h.ne_zero hi) ..), _, hset⟩, rfl,
        fun a hr => ?_⟩)
      rw [dataBlockGet_of_lt hc] at hr
      cases hr
      exact ⟨c, rfl, by simp [State.slot, State.setInode_inodeTable, Inode.setBlock]⟩
    · have hset := h.setEntry hi hne (.inl rfl)
      refine Prog.ensures_modify (Prog.ensures_pure ⟨⟨.setBlock (h.ne_zero hi) .., _, hset⟩, rfl, fun a hr => ?_⟩)
      cases hr
  · refine Prog.ensures_pure ⟨⟨.refl s, _, h⟩, rfl, fun a hr => ?_⟩
    obtain ⟨b, -, hb, rfl⟩ := dataBlockGet_eq_some hr
    exact ⟨b, rfl, hb⟩

theorem ensures_storeReference {a j : Nat} {b : Int} {f : Unit → Program β}
    (h : (f ()).Ensures (s.setDisk { s.toDisk with fsData := s.fsData.store (a + 4 * j) (encodeInt b) }) Q) :
    (storeReference a j b >>= f).Ensures s Q := by
  refine Prog.ensures_atomic fun _ s' hs => ?_
  obtain ⟨d, hd, he⟩ := Option.map_eq_some_iff.mp hs
  cases he
  obtain ⟨-, rfl⟩ := disk_store_eq_some hd
  exact h

theorem ensures_needBonusBlock (h : Consistent owner s) (hi : s.IsFile i) :
    (needBonusBlock i).Ensures s fun _ s' => Owned s s' ∧ s'.openFileTable = s.openFileTable := by
  refine Prog.ensures_get ?_
  split
  · next hno =>
    refine Prog.Ensures.bind (ensures_dataBlockAlloc (fun c hc hfree => ?_) ?_)
    · obtain ⟨ha, ho, hfresh⟩ := h.allocFor hc hfree (some i)
      have hnew := ha.newIndirect hi (by exact hno) ho (hfresh i hi)
      refine Prog.ensures_modify ?_
      rw [dataBlockGet_of_lt hc]
      refine Prog.ensures_atomic fun _ s' hs => Prog.ensures_pure ?_
      obtain ⟨d, hd, he⟩ := Option.map_eq_some_iff.mp hs
      cases he
      obtain ⟨-, rfl⟩ := disk_store_eq_some hd
      refine Prog.ensures_modify (Prog.ensures_pure ?_)
      -- the entry is set a second time
      rw [setBlock_self (by simp [State.setInode_inodeTable, Inode.setBlock])]
      have hc0 := ha.block_ne_zero hi ho
      exact ⟨⟨((Kept.take c).trans (.setBlock (h.ne_zero hi) ..)).trans (.store (by simpa using blockSize_le hc0 0) _),
        _, hnew⟩, rfl⟩
    · refine Prog.ensures_modify ?_
      rw [dataBlockGet_neg_one]
      exact Prog.ensures_atomic fun _ _ hs => by cases hs
  · exact Prog.ensures_pure ⟨⟨.refl s, _, h⟩, rfl⟩

theorem ensures_indirectBlock (h : Consistent owner s) (hi : s.IsFile i) (j : Nat) :
    (indirectBlock i j).Ensures s (Found s i (.indirect j)) := by
  refine Prog.ensures_get ?_
  split
  · exact fun _ _ hr => by cases hr
  · next a ha =>
    obtain ⟨e, hlt, he, rfl⟩ := dataBlockGet_eq_some ha
    refine Prog.ensures_atomic fun b s' hs => ?_
    obtain ⟨bs, hbs, hb⟩ := Option.map_eq_some_iff.mp hs
    cases hb
    have hslot : s.slot i (.indirect j) = decodeInt bs := by
      rw [slot_indirect he hlt, (disk_load_eq_some hbs).2]
      rfl
    obtain ⟨f, hf, hof⟩ := (h.files i hi).indirectBlock (by rw [State.slot, he]; omega)
    obtain rfl : e = f := by
      rw [he] at hf
      omega
    have he0 := h.block_ne_zero hi hof
    split
    · refine ensures_dataBlockAlloc (fun c hc hfree => ?_) ?_
      · obtain ⟨hal, ho, hno⟩ := h.allocFor hc hfree (owner (e + j / indirectReferences))
        have hown : Function.update owner c (owner (e + j / indirectReferences)) c =
            Function.update owner c (owner (e + j / indirectReferences)) (e + j / indirectReferences) := by
          rw [ho, Function.update_apply]
          split <;> rfl
        have hst := hal.storeReference hi (j := j) (by exact he) (.inr ⟨c, rfl, hc, hown, hno⟩)
        refine ensures_storeReference (Prog.ensures_pure ⟨⟨(Kept.take c).trans (.store (blockSize_le he0 _) _), _, hst⟩,
          rfl, fun a hr => ?_⟩)
        rw [dataBlockGet_of_lt hc] at hr
        cases hr
        refine ⟨c, rfl, ?_⟩
        rw [slot_indirect (by exact he) hlt]
        simp only [dataBlocks] at hc
        exact Mem.loadInt_storeInt_self _ _ ⟨by omega, by omega⟩
      · have hst := h.storeReference hi he (j := j) (b := -1) (.inl rfl)
        refine ensures_storeReference (Prog.ensures_pure ⟨⟨.store (blockSize_le he0 _) _, _, hst⟩, rfl, fun a hr => ?_⟩)
        cases hr
    · refine Prog.ensures_pure ⟨⟨.refl s, _, h⟩, rfl, fun a hr => ?_⟩
      obtain ⟨b, -, hb, rfl⟩ := dataBlockGet_eq_some hr
      exact ⟨b, rfl, hslot.trans hb⟩

theorem ensures_getCurrentDataBlock (h : Consistent owner s) (hi : s.IsFile i) :
    (getCurrentDataBlock i file).Ensures s
      (Found s i (dataSlot ((s.openFileTable file).ofOffset / blockSize))) := by
  refine Prog.ensures_get ?_
  unfold dataSlot
  split
  · next hk => exact ensures_directBlock h hi hk
  · refine Prog.Ensures.bind ((ensures_needBonusBlock h hi).mono fun ok s₁ ⟨ho, hf⟩ => ?_)
    split
    · obtain ⟨owner₁, h₁⟩ := ho.consistent
      refine (ensures_indirectBlock h₁ (ho.kept.isFile.mpr hi) _).mono fun r s₂ hr => ?_
      exact ⟨.trans ho.kept hr.toOwned, hr.files.trans hf, hr.block⟩
    · exact Prog.ensures_pure ⟨ho, hf, fun a hr => by cases hr⟩

theorem ensures_writeChunk {block currentOffset : Nat} {bytes : List UInt8} {f : Unit → Program β}
    (h : (f ()).Ensures (wrote s i file (block + currentOffset) bytes) Q) :
    (writeChunk i file block currentOffset bytes >>= f).Ensures s Q := by
  refine Prog.ensures_atomic fun _ s' hs => ?_
  obtain ⟨d, hd, he⟩ := Option.map_eq_some_iff.mp hs
  cases he
  obtain ⟨-, rfl⟩ := disk_store_eq_some hd
  exact h

theorem Consistent.wrote (h : Consistent owner s) (hi : s.IsFile i) {b o : Nat} (hb : owner b = some i)
    (hne : (s.inodeTable i).iDataBlock indirectAccessBlock ≠ b) {bytes : List UInt8}
    (hlen : o + bytes.length ≤ blockSize) : Consistent owner (wrote s i file (b * blockSize + o) bytes) :=
  ((h.write hi hb hne hlen).setOffset file _).setSize hi _

theorem ensures_writeLoop (h : Consistent owner s) (hi : s.IsFile i) (fuel : Nat) {buffer : List UInt8}
    (hlen : (s.openFileTable file).ofOffset + buffer.length ≤ maxFileSize) :
    (writeLoop i file fuel buffer).Ensures s fun _ => Owned s := by
  induction fuel generalizing s owner buffer with
  | zero => exact Prog.ensures_pure ⟨.refl s, _, h⟩
  | succ fuel ih =>
    rw [writeLoop]
    split
    · exact Prog.ensures_pure ⟨.refl s, _, h⟩
    · next hne =>
      refine Prog.Ensures.bind ((ensures_getCurrentDataBlock h hi).mono fun r s₁ hr => ?_)
      obtain ⟨owner₁, h₁⟩ := hr.consistent
      have hi₁ := hr.kept.isFile.mpr hi
      split
      · exact Prog.ensures_pure hr.toOwned
      · next a =>
        obtain ⟨b, rfl, hb⟩ := hr.block a rfl
        have hpos := List.length_pos_iff.mpr hne
        have hoff : (s.openFileTable file).ofOffset < maxFileSize := by omega
        have hex : (dataSlot ((s.openFileTable file).ofOffset / blockSize)).Exists :=
          dataSlot_exists (lt_of_le_of_lt (Nat.div_mul_le_self ..) hoff)
        have hown := h₁.files i hi₁
        obtain ⟨c, hc, ho⟩ := hown.slot _ hex (by rw [hb]; omega)
        obtain rfl : b = c := by
          rw [hb] at hc
          omega
        have hlast : (s₁.inodeTable i).iDataBlock indirectAccessBlock ≠ b := fun he =>
          dataSlot_ne_last _ (hown.inj _ (.entry indirectAccessBlock) hex (by decide) (by rw [hb]; omega)
            (hb.trans he.symm))
        refine Prog.ensures_get ?_
        rw [hr.files]
        generalize hs : (s.openFileTable file).ofOffset = offset at *
        have hmod : offset % blockSize < blockSize := Nat.mod_lt _ (by decide)
        have hmax : maxFileSize < 2 ^ 62 := by decide
        rw [getCurrentOffset_eq (by omega), chunk_eq (by simp only [blockSize] at hmod ⊢; omega) hmod]
        generalize hn : min buffer.length (blockSize - offset % blockSize) = n
        have htake : (buffer.take n).length = n := List.length_take_of_le (by omega)
        have h₂ : Consistent owner₁ (wrote s₁ i file (b * blockSize + offset % blockSize) (buffer.take n)) :=
          h₁.wrote hi₁ ho hlast (by omega)
        have hkept : Kept s₁ (wrote s₁ i file (b * blockSize + offset % blockSize) (buffer.take n)) :=
          .wrote (h₁.ne_zero hi₁) (blockSize_le (h₁.block_ne_zero hi₁ ho) _) _
        refine ensures_writeChunk ((ih h₂ (hkept.isFile.mpr hi₁) ?_).mono fun _ s₃ h₃ =>
          .trans (hr.kept.trans hkept) h₃)
        rw [wrote_offset, hr.files, hs, htake, szAdd_of_lt (by omega), List.length_drop]
        omega

theorem ensures_readLoop (h : Consistent owner s) (hi : s.IsFile i) (fuel toRead : Nat) (bytesRead : List UInt8) :
    (readLoop i file fuel toRead bytesRead).Ensures s fun _ => Owned s := by
  induction fuel generalizing s owner toRead bytesRead with
  | zero => exact Prog.ensures_pure ⟨.refl s, _, h⟩
  | succ fuel ih =>
    rw [readLoop]
    split
    · exact Prog.ensures_pure ⟨.refl s, _, h⟩
    · refine Prog.ensures_get (Prog.Ensures.bind ((ensures_getCurrentDataBlock h hi).mono fun r s₁ hr => ?_))
      obtain ⟨owner₁, h₁⟩ := hr.consistent
      split
      · exact Prog.ensures_pure hr.toOwned
      · refine Prog.ensures_atomic fun _ s₂ hs => ?_
        obtain ⟨bytes, -, he⟩ := Option.map_eq_some_iff.mp hs
        cases he
        exact (ih (h₁.setOffset file _) (hr.kept.isFile.mpr hi) _ _).mono fun _ s₃ h₃ =>
          .trans (hr.kept.trans (.setOffset file _)) h₃

theorem ensures_freeDirect (h : Consistent owner s) (hi : s.IsFile i) {n : Nat} (hn : n ≤ indirectAccessBlock) :
    (freeDirect i n).Ensures s fun _ s' => Owned s s' ∧
      (s'.inodeTable i).iDataBlock indirectAccessBlock = (s.inodeTable i).iDataBlock indirectAccessBlock := by
  induction n generalizing s owner with
  | zero => exact Prog.ensures_pure ⟨⟨.refl s, _, h⟩, rfl⟩
  | succ n ih =>
    have hk : indirectAccessBlock - (n + 1) < indirectAccessBlock := by
      simp only [indirectAccessBlock] at hn ⊢
      omega
    refine Prog.ensures_get ?_
    split
    · exact Prog.ensures_pure ⟨⟨.refl s, _, h⟩, rfl⟩
    · next hne =>
      obtain ⟨b, hb, ho⟩ := (h.files i hi).slot (.entry (indirectAccessBlock - (n + 1))) (Nat.lt_succ_of_lt hk) hne
      have hb : (s.inodeTable i).iDataBlock (indirectAccessBlock - (n + 1)) = b := hb
      refine .of_run (run_dataBlockFree s _) ?_
      rw [hb, dataBlockFree_of_lt _ (h.lt ho), if_neg (by simp)]
      obtain ⟨owner₁, h₁⟩ := h.free hi hk hb
      have hkept := (Kept.release (s := s) b).trans (.setBlock (h.ne_zero hi) (indirectAccessBlock - (n + 1)) (-1))
      refine Prog.ensures_modify ((ih h₁ (hkept.isFile.mpr hi) (by omega)).mono fun _ s₂ ⟨h₂, hlast⟩ => ?_)
      refine ⟨.trans hkept h₂, hlast.trans ?_⟩
      simp only [State.setInode_inodeTable, if_true, Inode.setBlock]
      exact Function.update_of_ne (Ne.symm (Nat.ne_of_lt hk)) ..

theorem ensures_truncate (h : Consistent owner s) (hi : s.IsFile i)
    (hlast : (s.inodeTable i).iSize > 0 → (s.inodeTable i).iDataBlock indirectAccessBlock = -1) :
    (truncate i).Ensures s fun _ => Owned s := by
  refine Prog.ensures_get ?_
  split
  · next hsize =>
    have hblocks : (truncateBlocks i (s.inodeTable i)).Ensures s fun _ => Owned s := by
      unfold truncateBlocks
      rw [hi.2.2]
      refine Prog.Ensures.bind ((ensures_freeDirect h hi le_rfl).mono fun ok s₁ ⟨h₁, he⟩ => ?_)
      split
      · refine Prog.ensures_get ?_
        rw [he, hlast hsize, if_pos rfl]
        exact Prog.ensures_pure h₁
      · exact Prog.ensures_pure h₁
    refine Prog.Ensures.bind (hblocks.mono fun ok s₁ ho => ?_)
    split
    · obtain ⟨owner₁, h₁⟩ := ho.consistent
      have hi₁ := ho.kept.isFile.mpr hi
      exact Prog.ensures_modify (Prog.ensures_pure
        ⟨ho.kept.trans (.setInode (h₁.ne_zero hi₁) rfl), _, h₁.setSize hi₁ 0⟩)
    · exact Prog.ensures_pure ho
  · exact Prog.ensures_pure ⟨.refl s, _, h⟩

theorem ensures_addToOpenFileTable (h : Consistent owner s) (hi : s.IsFile i) (o : Nat) :
    (addToOpenFileTable i o).Ensures s fun _ s' => ∃ owner, Consistent owner s' := by
  intro r s' hr
  rw [run_addToOpenFileTable] at hr
  cases hr
  exact ⟨_, h.openHandle hi o⟩

theorem ensures_openExisting (h : Consistent owner s) (hi : s.IsFile i) {flags : Int}
    (hlast : hasFlag flags tfsOTrunc → (s.inodeTable i).iSize > 0 →
      (s.inodeTable i).iDataBlock indirectAccessBlock = -1) :
    (openExisting i flags).Ensures s fun _ => Owned s := by
  have htrunc : (truncateIf flags i).Ensures s fun _ => Owned s := by
    unfold truncateIf
    split
    · next ht =>
      exact Prog.Ensures.bind ((ensures_truncate h hi (hlast ht)).mono fun ok s₁ ho =>
        Prog.ensures_release (Prog.ensures_pure ho))
    · exact Prog.ensures_pure ⟨.refl s, _, h⟩
  refine Prog.Ensures.bind (htrunc.mono fun ok s₁ ho => ?_)
  split
  · exact Prog.ensures_get (Prog.ensures_release (Prog.ensures_pure ho))
  · exact Prog.ensures_pure ho

theorem ensures_createFile (h : Consistent owner s) {subName : CString} (hlen : subName.strlen ≠ 0) :
    (do
      let inum ← inodeCreate .file
      if inum = -1 then return -1
      else if (← addDirEntry rootDirInum inum subName) = -1 then
        let _ ← inodeDelete inum
        return -1
      else addToOpenFileTable inum 0 : Program Int).Ensures s fun _ s' => ∃ owner, Consistent owner s' := by
  cases hfirst : firstFree s.freeinodeTs inodeTableSize with
  | none =>
    refine .of_run (run_inodeCreate_none hfirst) ?_
    exact Prog.ensures_pure ⟨_, h⟩
  | some i =>
    obtain ⟨hi, hfree, -⟩ := firstFree_eq_some.mp hfirst
    have hnew := h.create hfree
    have hfile := Consistent.isFile_newFile (s := s) hi
    refine .of_run (run_inodeCreate_some hfirst) ?_
    rw [if_neg (by omega)]
    have hadd := run_addDirEntry hnew.dirBlock (validInumber_natCast hi) hlen
    cases hfill : fillDirEntry (newFile s i).fsData 0 i subName with
    | some m =>
      rw [hfill] at hadd
      refine .of_run hadd ?_
      rw [if_neg (by decide)]
      exact ensures_addToOpenFileTable (hnew.addEntry hfile hfill) (by exact hfile) 0
    | none =>
      rw [hfill] at hadd
      refine .of_run hadd ?_
      rw [if_pos rfl]
      refine .of_run (run_inodeDelete hi hfile.2.1 hfile.2.2 ?_) (Prog.ensures_pure ⟨_, h.deleteNew hi hfree⟩)
      simp [newFile, State.setInode_inodeTable]

/-- A truncated file with bytes has no indirect block. -/
def NoIndirectTrunc (s : State) : Call → Prop
  | .open name flags => hasFlag flags tfsOTrunc → ∀ i < inodeTableSize, lookup s name = (i : Nat) →
      (s.inodeTable i).iSize > 0 → (s.inodeTable i).iDataBlock indirectAccessBlock = -1
  | .close _ | .write _ _ | .read _ _ => True

/-- Handles are open, and no write goes past the blocks that a file can have. -/
def WithinFile (s : State) : Call → Prop
  | .open _ _ => True
  | .close fhandle | .read fhandle _ => s.toOpenFiles.IsOpen fhandle
  | .write fhandle buffer =>
    s.toOpenFiles.IsOpen fhandle ∧ (s.openFileTable fhandle.toNat).ofOffset + buffer.length ≤ maxFileSize

def WithinFileNoIndirectTrunc (s : State) (c : Call) : Prop := WithinFile s c ∧ NoIndirectTrunc s c

theorem ensures_tfsOpen (h : Consistent owner s) {name : Option CString} {flags : Int}
    (ht : NoIndirectTrunc s (.open name flags)) :
    (tfsOpen name flags).Ensures s fun _ s' => ∃ owner, Consistent owner s' := by
  cases name with
  | none => exact Prog.ensures_pure ⟨_, h⟩
  | some name =>
    rw [tfsOpen]
    split
    · next hv =>
      refine Prog.ensures_acquire (.of_run (run_tfsLookup h.dirBlock hv) ?_)
      have hlook := lookup_eq h.dirBlock hv
      rcases h.findDirEntry name.tail with he | ⟨i, he, hi⟩
      · rw [he, if_neg (by decide)]
        split
        · exact Prog.ensures_release (ensures_createFile h (strlen_tail_ne_zero hv))
        · exact Prog.ensures_release (Prog.ensures_pure ⟨_, h⟩)
      · rw [he, if_pos (by omega), inodeGet_natCast hi.1]
        refine Prog.ensures_acquire (Prog.ensures_release ?_)
        refine Prog.Ensures.bind ((ensures_openExisting h hi fun hf hsize => ?_).mono fun r s₁ ho => ?_)
        · exact ht hf i hi.1 (hlook.trans he) hsize
        · obtain ⟨owner₁, h₁⟩ := ho.consistent
          cases r with
          | none => exact Prog.ensures_pure ⟨_, h₁⟩
          | some offset => exact ensures_addToOpenFileTable h₁ (ho.kept.isFile.mpr hi) offset
    · exact Prog.ensures_pure ⟨_, h⟩

theorem getOpenFileEntry_of_isOpen {f : OpenFiles} {fhandle : Int} (h : f.IsOpen fhandle) :
    ∃ file < maxOpenFiles, getOpenFileEntry fhandle = some file ∧ fhandle.toNat = file ∧
      f.freeOpenFileEntries file = .taken := by
  obtain ⟨file, hf, rfl, ht⟩ := h.exists
  exact ⟨file, hf, getOpenFileEntry_natCast hf, Int.toNat_natCast file, ht⟩

theorem ensures_tfsWrite (h : Consistent owner s) {fhandle : Int} {buffer : List UInt8}
    (hw : WithinFile s (.write fhandle buffer)) :
    (tfsWrite fhandle buffer).Ensures s fun _ s' => ∃ owner, Consistent owner s' := by
  obtain ⟨file, hf, hget, hnat, ht⟩ := getOpenFileEntry_of_isOpen hw.1
  obtain ⟨i, hin, hi⟩ := h.handles file hf ht
  have hlen := hw.2
  rw [hnat] at hlen
  refine Prog.ensures_acquire ?_
  rw [hget]
  refine Prog.ensures_acquire (Prog.ensures_release (Prog.ensures_acquire (Prog.ensures_get ?_)))
  rw [hin, inodeGet_natCast hi.1]
  refine Prog.ensures_acquire (Prog.ensures_release (Prog.ensures_atomic fun initial s₁ hs => ?_))
  cases hs
  refine Prog.Ensures.bind ((ensures_writeLoop h hi _ hlen).mono fun ok s₂ ho => ?_)
  obtain ⟨owner₂, h₂⟩ := ho.consistent
  split
  · refine Prog.ensures_modify (Prog.ensures_release (Prog.ensures_release (Prog.ensures_pure ?_)))
    split
    · exact ⟨_, h₂.setSize (ho.kept.isFile.mpr hi) _⟩
    · exact ⟨_, h₂⟩
  · exact Prog.ensures_release (Prog.ensures_release (Prog.ensures_pure ⟨_, h₂⟩))

theorem ensures_tfsRead (h : Consistent owner s) {fhandle : Int} (ho : s.toOpenFiles.IsOpen fhandle) (len : Nat) :
    (tfsRead fhandle len).Ensures s fun _ s' => ∃ owner, Consistent owner s' := by
  obtain ⟨file, hf, hget, -, ht⟩ := getOpenFileEntry_of_isOpen ho
  obtain ⟨i, hin, hi⟩ := h.handles file hf ht
  refine Prog.ensures_acquire ?_
  rw [hget]
  refine Prog.ensures_acquire (Prog.ensures_release (Prog.ensures_acquire (Prog.ensures_get ?_)))
  rw [hin, inodeGet_natCast hi.1]
  refine Prog.ensures_acquire (Prog.ensures_release (Prog.ensures_get ?_))
  refine Prog.Ensures.bind ((ensures_readLoop h hi _ _ _).mono fun ok s₂ h₂ => ?_)
  split
  · exact Prog.ensures_release (Prog.ensures_release (Prog.ensures_pure h₂.consistent))
  · exact Prog.ensures_release (Prog.ensures_release (Prog.ensures_pure h₂.consistent))

theorem Consistent.call (h : Consistent owner s) {c : Call} (hw : WithinFile s c) (ht : NoIndirectTrunc s c) {o : Out}
    (hc : s.call c = some (o, s')) : ∃ owner, Consistent owner s' := by
  suffices hb : (body c).Ensures s fun _ s' => ∃ owner, Consistent owner s' from hb o s' hc
  cases c with
  | «open» name flags => exact Prog.Ensures.bind ((ensures_tfsOpen h ht).mono fun _ _ h' => Prog.ensures_pure h')
  | close fhandle =>
    refine .of_run (run_tfsClose fhandle) (Prog.ensures_pure ⟨_, h.close fhandle⟩)
  | write fhandle buffer => exact Prog.Ensures.bind ((ensures_tfsWrite h hw).mono fun _ _ h' => Prog.ensures_pure h')
  | read fhandle len => exact ensures_tfsRead h hw len

/-- Where the system refers to a block: in the root directory's i-node, or in a slot of a file. -/
inductive Reference
  | root
  | file (i : Nat) (k : Slot)

def State.Refers (s : State) : Reference → Int → Prop
  | .root, b => b = (s.inodeTable 0).iDataBlock 0
  | .file i k, b => s.IsFile i ∧ k.Exists ∧ s.slot i k = b ∧ b ≠ -1

/-- Every block that is referred to is a `TAKEN` block of the table, and referred to once. -/
structure BlocksOwned (s : State) : Prop where
  taken : ∀ r b, s.Refers r b → validBlockNumber b ∧ s.freeBlocks b.toNat = .taken
  once : ∀ r r' b, s.Refers r b → s.Refers r' b → r = r'

theorem Consistent.exists_owner (h : Consistent owner s) {r : Reference} {b : Int} (hr : s.Refers r b) :
    ∃ c : Nat, b = c ∧ ∃ j, owner c = some j ∧ ∀ i k, r = .file i k → j = i := by
  cases r with
  | root => exact ⟨0, hr.trans h.rootBlock, 0, h.ownerRoot, fun _ _ he => by cases he⟩
  | file i k =>
    obtain ⟨hi, hk, rfl, hne⟩ := hr
    obtain ⟨c, hc, ho⟩ := (h.files i hi).slot k hk hne
    exact ⟨c, hc, i, ho, fun _ _ he => by cases he; rfl⟩

theorem Consistent.blocksOwned (h : Consistent owner s) : BlocksOwned s where
  taken r b hr := by
    obtain ⟨c, rfl, j, hc, -⟩ := h.exists_owner hr
    obtain ⟨hlt, ht⟩ := h.taken c j hc
    exact ⟨⟨by omega, by exact_mod_cast hlt⟩, ht⟩
  once r r' b hr hr' := by
    cases r with
    | root =>
      cases r' with
      | root => rfl
      | file i k =>
        obtain ⟨c, rfl, j, hc, hj⟩ := h.exists_owner hr'
        have h0 : (c : Int) = 0 := hr.trans h.rootBlock
        obtain rfl := hj i k rfl
        exact absurd (by omega) (h.block_ne_zero hr'.1 hc)
    | file i k =>
      cases r' with
      | root =>
        obtain ⟨c, rfl, j, hc, hj⟩ := h.exists_owner hr
        have h0 : (c : Int) = 0 := hr'.trans h.rootBlock
        obtain rfl := hj i k rfl
        exact absurd (by omega) (h.block_ne_zero hr.1 hc)
      | file i' k' =>
        obtain ⟨c, rfl, j, hc, hj⟩ := h.exists_owner hr
        obtain ⟨c', he, j', hc', hj'⟩ := h.exists_owner hr'
        obtain rfl : c = c' := by omega
        obtain rfl := hj i k rfl
        obtain rfl := hj' i' k' rfl
        obtain rfl := Option.some.inj (hc.symm.trans hc')
        obtain ⟨hi, hk, hs, hne⟩ := hr
        obtain ⟨-, hk', hs', -⟩ := hr'
        rw [(h.files j hi).inj k k' hk hk' (by rwa [hs]) (hs.trans hs'.symm)]

/-- Whatever is opened, closed, read and written: without truncation of files that have an indirect block, no block
is free or shared while something refers to it. -/
theorem blocks_owned {cs : List Call} {outs : List Out}
    (ha : Runs.Along State.call (fun s c => WithinFile s c ∧ NoIndirectTrunc s c) State.init cs)
    (hr : Runs.run State.call State.init cs = some (outs, s)) : BlocksOwned s := by
  obtain ⟨-, owner, h⟩ := Runs.run_invariant (I := fun s => ∃ owner, Consistent owner s) (P := fun _ => True)
    (fun _ _ _ _ ⟨_, h⟩ ⟨hw, ht⟩ hc => ⟨trivial, h.call hw ht hc⟩) ⟨_, .init⟩ ha hr
  exact h.blocksOwned

instance (s : State) : ∀ c, Decidable (NoIndirectTrunc s c)
  | .open _ _ => inferInstanceAs (Decidable (_ → ∀ i < _, _ → _ → _))
  | .close _ | .write _ _ | .read _ _ => inferInstanceAs (Decidable True)

instance (s : State) : ∀ c, Decidable (WithinFile s c)
  | .open _ _ => inferInstanceAs (Decidable True)
  | .close _ | .read _ _ => inferInstanceAs (Decidable (s.toOpenFiles.IsOpen _))
  | .write _ _ => inferInstanceAs (Decidable (_ ∧ _))

instance (s : State) (c : Call) : Decidable (WithinFileNoIndirectTrunc s c) := inferInstanceAs (Decidable (_ ∧ _))

/-- A file of two blocks is truncated and grows to eleven. -/
theorem blocks_owned_truncated :
    let name := some ⟨[47, 97], by decide⟩
    ∃ outs s, Runs.run State.call State.init [.open name tfsOCreat, .write 0 (List.replicate (blockSize + 1) 0),
      .open name tfsOTrunc, .write 1 (List.replicate (10 * blockSize + 1) 0)] = some (outs, s) ∧ BlocksOwned s := by
  intro name
  have hrun : (Runs.run State.call State.init [.open name tfsOCreat, .write 0 (List.replicate (blockSize + 1) 0),
      .open name tfsOTrunc, .write 1 (List.replicate (10 * blockSize + 1) 0)]).isSome = true := by decide +kernel
  obtain ⟨x, hx⟩ := Option.isSome_iff_exists.mp hrun
  exact ⟨x.1, x.2, hx, blocks_owned (by decide +kernel) hx⟩

/-- A file of eleven blocks is truncated: the indirect block is free and still in the i-node. -/
theorem truncated_not_owned : ¬ ∀ (cs : List Call) (outs : List Out) (s : State),
    Runs.Along State.call (fun s c => WithinFile s c ∧ (body c).Assumes Label.Succeeds s) State.init cs →
    Runs.run State.call State.init cs = some (outs, s) → BlocksOwned s := by
  intro h
  let name : Option CString := some ⟨[47, 97], by decide⟩
  let cs : List Call := [.open name tfsOCreat, .write 0 (List.replicate (10 * blockSize + 1) 0), .open name tfsOTrunc]
  have hend : (Runs.run State.call State.init cs).map (fun x =>
      decide (x.2.IsFile 1 ∧ x.2.slot 1 (.entry 10) = 11 ∧ x.2.freeBlocks 11 = .free)) = some true := by
    decide +kernel
  obtain ⟨x, hx, he⟩ := Option.map_eq_some_iff.mp hend
  obtain ⟨hi, hslot, hfree⟩ := of_decide_eq_true he
  have ht := ((h cs x.1 x.2 (by decide +kernel) hx).taken (.file 1 (.entry 10)) 11
    ⟨hi, by decide, hslot, by decide⟩).2
  exact absurd (hfree.symm.trans ht) (by decide)

end Tecnicofs.Ex1
