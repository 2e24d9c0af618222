import Tecnicofs.Ex2.Operations

namespace Tecnicofs.Ex2

open Bytes

/-- The directory lists the files, file `i` has i-node `i + 1`, and the i-nodes with contents share out the
taken blocks. -/
structure Wf (es : List DirEntry) (s : State) : Prop where
  dir : DirHolds s.fsData 0 es
  inumber : ∀ i (h : i < es.length), es[i].inumber = i + 1
  root : s.inodeTable 0 = ⟨.directory, blockSize, 0⟩
  inode : ∀ j < inodeTableSize, s.freeinodeTs j = .taken ↔ j ≤ es.length
  type : ∀ j, 0 < j → j ≤ es.length → (s.inodeTable j).iNodeType = .file
  size : ∀ j ≤ es.length, (s.inodeTable j).iSize ≤ blockSize
  block : ∀ j ≤ es.length, 0 < (s.inodeTable j).iSize →
    ∃ b : Nat, b < dataBlocks ∧ (s.inodeTable j).iDataBlock = b ∧ s.freeBlocks b = .taken
  distinct : ∀ j ≤ es.length, ∀ k ≤ es.length, 0 < (s.inodeTable j).iSize → 0 < (s.inodeTable k).iSize →
    (s.inodeTable j).iDataBlock = (s.inodeTable k).iDataBlock → j = k
  owned : ∀ b : Nat, b < dataBlocks → s.freeBlocks b = .taken →
    ∃ j ≤ es.length, 0 < (s.inodeTable j).iSize ∧ (s.inodeTable j).iDataBlock = b
  handle : ∀ h < maxOpenFiles, s.freeOpenFileEntries h = .taken →
    ∃ j, 0 < j ∧ j ≤ es.length ∧ (s.openFileTable h).ofInumber = j

theorem inodeCreate_directory {s : State} (hi : s.freeinodeTs 0 = .free) (hb : s.freeBlocks 0 = .free) :
    inodeCreate s .directory =
      (0, { s with
        fsData := clearDirEntries s.fsData 0
        freeBlocks := Function.update s.freeBlocks 0 .taken
        inodeTable := Function.update s.inodeTable 0 ⟨.directory, blockSize, 0⟩
        freeinodeTs := Function.update s.freeinodeTs 0 .taken }) := by
  have hi : firstFree s.freeinodeTs inodeTableSize = some 0 :=
    firstFree_eq_some.mpr ⟨by decide, hi, by simp⟩
  have hb : firstFree s.freeBlocks dataBlocks = some 0 := firstFree_eq_some.mpr ⟨by decide, hb, by simp⟩
  have ha : dataBlockAlloc s.toDisk = (((0 : Nat) : Int), s.toDisk.take 0) := by
    unfold dataBlockAlloc
    rw [hb]
  have hg : dataBlockGet ((0 : Nat) : Int) = some 0 := dataBlockGet_of_lt (by decide)
  unfold inodeCreate
  rw [hi]
  simp only [State.setInode_toDisk, State.setInodeState_toDisk, ha]
  rw [if_neg (by decide), hg]
  simp [State.setInode, State.setInodeState, State.setDisk, Disk.take]

theorem State.init_eq : State.init =
    { State.zero with
      fsData := clearDirEntries (fun _ => 0) 0
      freeBlocks := Function.update (fun _ => .free) 0 .taken
      inodeTable := Function.update (fun _ => ⟨.file, 0, 0⟩) 0 ⟨.directory, blockSize, 0⟩
      freeinodeTs := Function.update (fun _ => .free) 0 .taken } := by
  have h := inodeCreate_directory (s := { stateInit .zero with canOpenFiles := 1, openFiles := 0 }) rfl rfl
  simp only [State.init, tfsInit, h]
  rfl

def newFile (s : State) (j : Nat) : State :=
  (s.setInodeState j .taken).setInode j ⟨.file, 0, -1⟩

def written (s : State) (file j b : Nat) (bytes : List UInt8) : State :=
  let offset := (s.openFileTable file).ofOffset
  let x := s.inodeTable j
  let d := s.toDisk.take b
  ((s.setDisk { d with fsData := d.fsData.store (b * blockSize + offset) bytes }).setFiles
    (s.toOpenFiles.setOffset file (offset + bytes.length))).setInode j
      ⟨x.iNodeType, max x.iSize (offset + bytes.length), b⟩

section
variable (s : State) (file j b : Nat) (bytes : List UInt8)

@[simp] theorem written_fsData : (written s file j b bytes).fsData =
    s.fsData.store (b * blockSize + (s.openFileTable file).ofOffset) bytes := rfl

@[simp] theorem written_toOpenFiles : (written s file j b bytes).toOpenFiles =
    s.toOpenFiles.setOffset file ((s.openFileTable file).ofOffset + bytes.length) := rfl

@[simp] theorem written_canOpenFiles : (written s file j b bytes).canOpenFiles = s.canOpenFiles := rfl

theorem written_freeBlocks (c : Nat) :
    (written s file j b bytes).freeBlocks c = if c = b then .taken else s.freeBlocks c :=
  Disk.take_freeBlocks ..

theorem written_inodeTable (k : Nat) : (written s file j b bytes).inodeTable k =
    if k = j then ⟨(s.inodeTable j).iNodeType,
      max (s.inodeTable j).iSize ((s.openFileTable file).ofOffset + bytes.length), b⟩
    else s.inodeTable k := State.setInode_inodeTable ..

end

/-- The block a write to file `j` goes to: its own, or the first free one when it is empty. -/
def WriteBlock (s : State) (j b : Nat) : Prop :=
  0 < b ∧ b < dataBlocks ∧
    ((s.inodeTable j).iSize = 0 ∧ firstFree s.freeBlocks dataBlocks = some b ∨
      0 < (s.inodeTable j).iSize ∧ (s.inodeTable j).iDataBlock = b ∧ s.freeBlocks b = .taken)

theorem WriteBlock.unique {s t : State} {j b c : Nat} (hb : WriteBlock s j b) (hc : WriteBlock t j c)
    (hi : t.inodeTable j = s.inodeTable j) (hf : t.freeBlocks = s.freeBlocks) : c = b := by
  obtain ⟨-, -, hc⟩ := hc
  rw [hi, hf] at hc
  rcases hb.2.2 with ⟨hs, hb⟩ | ⟨hs, hb, -⟩ <;> rcases hc with ⟨hs', hc⟩ | ⟨hs', hc, -⟩
  · exact Option.some.inj (hc.symm.trans hb)
  · omega
  · omega
  · exact_mod_cast hc.symm.trans hb

def openedState (s : State) (j : Nat) (flags : Int) : State :=
  if hasFlag flags tfsOTrunc then (truncate s j).2 else s

def openedOffset (s : State) (j : Nat) (flags : Int) : Nat :=
  if hasFlag flags tfsOAppend then ((openedState s j flags).inodeTable j).iSize else 0

/-- The ways an open ends: a handle on an existing file, a handle on a new one, or a failure before any handle
is taken. -/
inductive Opened (es : List DirEntry) (s : State) (name : Option CString) (flags : Int) :
    List DirEntry → Int × State → Prop
  | existing {subName : CString} {i : Nat} (hs : skipSlash name = some subName) (hv : validPathname name)
      (hi : i < es.length) (hn : es[i].name = subName.bytes) (hl : lookupEntry es subName = i + 1) :
      Opened es s name flags es
        (openHandle (openedState s (i + 1) flags) (i + 1 : Nat) (openedOffset s (i + 1) flags))
  | created {subName : CString} {m : Mem} (hs : skipSlash name = some subName)
      (hv : validPathname name → ∀ e ∈ es, e.name ≠ subName.bytes) (hc : hasFlag flags tfsOCreat)
      (hlen : 0 < subName.strlen) (hroom : es.length < maxDirEntries)
      (h : IsInt (es.length + 1 : Nat) ∧ ((es.length + 1 : Nat) : Int) ≠ -1)
      (hd : DirHolds m 0 (es ++ [.ofName subName (es.length + 1 : Nat) h]))
      (hm : ∀ x, blockSize ≤ x → m x = s.fsData x) :
      Opened es s name flags (es ++ [.ofName subName (es.length + 1 : Nat) h])
        (openHandle ((newFile s (es.length + 1)).setDisk { s.toDisk with fsData := m }) (es.length + 1 : Nat) 0)
  | full {subName : CString} (hs : skipSlash name = some subName)
      (hv : validPathname name → ∀ e ∈ es, e.name ≠ subName.bytes) (hc : hasFlag flags tfsOCreat)
      (hno : subName.strlen = 0 ∨ es.length = maxDirEntries) :
      Opened es s name flags es (-1, (inodeDelete (newFile s (es.length + 1)) (es.length + 1 : Nat)).2)
  | absent (hv : ∀ subName, skipSlash name = some subName → validPathname name →
        ∀ e ∈ es, e.name ≠ subName.bytes) (hc : ¬ hasFlag flags tfsOCreat) :
      Opened es s name flags es (-1, s)

namespace Wf

theorem init : Wf [] State.init := by
  rw [State.init_eq]
  exact {
    dir := dirHolds_clearDirEntries _ _
    inumber := by simp
    root := by simp
    inode := fun j _ => by simp [Function.update_apply]
    type := fun j h0 h1 => by simp at h1; omega
    size := fun j hj => by
      have hj : j = 0 := by simpa using hj
      simp [hj]
    block := fun j hj _ => by
      have hj : j = 0 := by simpa using hj
      exact ⟨0, by simp, by simp [hj], by simp⟩
    distinct := fun j hj k hk _ _ _ => by simp at hj hk; omega
    owned := fun b _ hb => by
      have hb : b = 0 := by simpa [Function.update_apply] using hb
      exact ⟨0, by simp, by simp, by simp [hb]⟩
    handle := fun h _ ht => by simp [State.zero] at ht }

variable {es : List DirEntry} {s : State}

theorem length_le (w : Wf es s) : es.length ≤ maxDirEntries := w.dir.length_le

theorem length_lt (w : Wf es s) : es.length + 1 < inodeTableSize ∧ es.length + 1 < dataBlocks := by
  have h := w.length_le
  simp at h ⊢
  omega

theorem exists_free_block (w : Wf es s) : ∃ b < dataBlocks, s.freeBlocks b = .free := by
  have hl := w.length_lt
  apply exists_free (fun j => (s.inodeTable j).iDataBlock.toNat) (k := es.length + 1) hl.2
  intro b hb ht
  obtain ⟨j, hj, -, hjb⟩ := w.owned b hb ht
  exact ⟨j, by omega, by simp [hjb]⟩

theorem file_block (w : Wf es s) {j : Nat} (h0 : 0 < j) (hj : j ≤ es.length)
    (hs : 0 < (s.inodeTable j).iSize) :
    ∃ b : Nat, 0 < b ∧ b < dataBlocks ∧ (s.inodeTable j).iDataBlock = b ∧ s.freeBlocks b = .taken := by
  obtain ⟨b, hb, hjb, ht⟩ := w.block j hj hs
  refine ⟨b, Nat.pos_of_ne_zero fun h => ?_, hb, hjb, ht⟩
  have hd := w.distinct j hj 0 (Nat.zero_le _) hs (by simp [w.root]) (by simp [w.root, hjb, h])
  omega

theorem lookup (w : Wf es s) (name : Option CString) :
    tfsLookupUnsynchronized s name =
      match skipSlash name with
      | some subName => if validPathname name then lookupEntry es subName else -1
      | none => -1 := by
  unfold tfsLookupUnsynchronized findInDir
  cases skipSlash name with
  | none => rfl
  | some subName =>
    have hd := w.dir.find subName
    simp [validInumber, validIndex, w.root, dataBlockGet, validBlockNumber, hd]

theorem lookupEntry_cases (w : Wf es s) (subName : CString) :
    (∃ i, ∃ h : i < es.length, es[i].name = subName.bytes ∧ lookupEntry es subName = i + 1) ∨
    (∀ e ∈ es, e.name ≠ subName.bytes) ∧ lookupEntry es subName = -1 := by
  rcases Tecnicofs.lookupEntry_cases es subName with ⟨i, hi, hn, he⟩ | hno
  · exact .inl ⟨i, hi, hn, by rw [he, w.inumber i hi]⟩
  · exact .inr hno

theorem setFiles (w : Wf es s) {f : OpenFiles}
    (h : ∀ h < maxOpenFiles, f.freeOpenFileEntries h = .taken →
      ∃ j, 0 < j ∧ j ≤ es.length ∧ (f.openFileTable h).ofInumber = j) : Wf es (s.setFiles f) :=
  { w with handle := h }

theorem openFiles (w : Wf es s) (n : Int) : Wf es { s with openFiles := n } := { w with }

theorem setOffset (w : Wf es s) (file offset : Nat) :
    Wf es (s.setFiles (s.toOpenFiles.setOffset file offset)) := by
  apply w.setFiles
  intro h hh ht
  simpa using w.handle h hh ht

theorem openHandle (w : Wf es s) {j : Nat} (h0 : 0 < j) (hj : j ≤ es.length) (offset : Nat) :
    Wf es (openHandle s j offset).2 := by
  unfold Ex2.openHandle addToOpenFileTable
  cases hf : firstFree s.freeOpenFileEntries maxOpenFiles with
  | none => exact w.setFiles w.handle
  | some i =>
    apply w.setFiles
    intro h hh ht
    rw [OpenFiles.setEntry_table]
    rw [OpenFiles.setEntry_free, OpenFiles.take_free] at ht
    split at ht
    · next he => exact ⟨j, h0, hj, by simp [he]⟩
    · next he => simpa [he] using w.handle h hh ht

theorem close (w : Wf es s) (fhandle : Int) : Wf es (tfsClose s fhandle).2 := by
  by_cases ho : s.toOpenFiles.IsOpen fhandle
  · rw [tfsClose_of_isOpen ho]
    refine (w.setFiles fun h hh ht => ?_).openFiles _
    rw [OpenFiles.release_free] at ht
    split at ht
    · cases ht
    · exact w.handle h hh ht
  · rw [tfsClose_of_not ho]
    exact w

theorem truncate_eq (w : Wf es s) {j : Nat} (h0 : 0 < j) (hj : j ≤ es.length) :
    truncate s j = (true, s) ∧ (s.inodeTable j).iSize = 0 ∨
    ∃ b : Nat, 0 < b ∧ b < dataBlocks ∧ (s.inodeTable j).iDataBlock = b ∧ 0 < (s.inodeTable j).iSize ∧
      truncate s j = (true, (s.setDisk (s.toDisk.release b)).setInode j { s.inodeTable j with iSize := 0 }) := by
  unfold truncate
  by_cases hs : 0 < (s.inodeTable j).iSize
  · obtain ⟨b, hb0, hb, hjb, -⟩ := w.file_block h0 hj hs
    right
    refine ⟨b, hb0, hb, hjb, hs, ?_⟩
    rw [if_pos hs, hjb, dataBlockFree_of_lt _ hb]
    rfl
  · left
    rw [if_neg hs]
    exact ⟨rfl, by omega⟩

theorem truncate (w : Wf es s) {j : Nat} (h0 : 0 < j) (hj : j ≤ es.length) :
    (truncate s j).1 = true ∧ Wf es (truncate s j).2 := by
  rcases w.truncate_eq h0 hj with ⟨he, -⟩ | ⟨b, hb0, hb, hjb, hs, he⟩
  · rw [he]
    exact ⟨rfl, w⟩
  rw [he]
  refine ⟨rfl, ?_⟩
  have hne : ∀ k ≤ es.length, k ≠ j → 0 < (s.inodeTable k).iSize → (s.inodeTable k).iDataBlock ≠ b := by
    intro k hk hkj hks hkb
    exact hkj (w.distinct k hk j hj hks hs (hkb.trans hjb.symm))
  constructor
  · exact w.dir
  · exact w.inumber
  · simp [State.setInode_inodeTable, w.root]
    omega
  · exact w.inode
  · intro k hk0 hk
    have := w.type k hk0 hk
    rw [State.setInode_inodeTable]
    split <;> simp_all
  · intro k hk
    have := w.size k hk
    rw [State.setInode_inodeTable]
    split <;> simp_all
  · intro k hk
    rw [State.setInode_inodeTable]
    split
    · simp
    · next hkj =>
      intro hks
      obtain ⟨c, hc, hkc, ht⟩ := w.block k hk hks
      have hcb : c ≠ b := fun h => hne k hk hkj hks (by rw [hkc, h])
      exact ⟨c, hc, hkc, by simp [Disk.release_freeBlocks, hcb, ht]⟩
  · intro k hk l hl
    simp only [State.setInode_inodeTable]
    split <;> split <;> simp_all
    exact w.distinct k hk l hl
  · intro c hc ht
    simp only [State.setInode_toDisk, State.setDisk_toDisk, Disk.release_freeBlocks] at ht
    split at ht
    · cases ht
    · next hcb =>
      obtain ⟨k, hk, hks, hkc⟩ := w.owned c hc ht
      have hkj : k ≠ j := fun h => hcb (by rw [h, hjb] at hkc; exact_mod_cast hkc.symm)
      exact ⟨k, hk, by simpa [State.setInode_inodeTable, hkj] using ⟨hks, hkc⟩⟩
  · exact w.handle

theorem congr {s' : State} (w : Wf es s) (hm : ∀ x < blockSize, s'.fsData x = s.fsData x)
    (hi : ∀ j ≤ es.length, s'.inodeTable j = s.inodeTable j)
    (hf : ∀ j < inodeTableSize, s'.freeinodeTs j = s.freeinodeTs j)
    (hb : s'.freeBlocks = s.freeBlocks) (ho : s'.toOpenFiles = s.toOpenFiles) : Wf es s' where
  dir := w.dir.congr fun x _ hx => hm x (by omega)
  inumber := w.inumber
  root := (hi 0 (Nat.zero_le _)).trans w.root
  inode j hj := by rw [hf j hj]; exact w.inode j hj
  type j h0 hj := by rw [hi j hj]; exact w.type j h0 hj
  size j hj := by rw [hi j hj]; exact w.size j hj
  block j hj := by rw [hi j hj, hb]; exact w.block j hj
  distinct j hj k hk := by rw [hi j hj, hi k hk]; exact w.distinct j hj k hk
  owned b hlt ht := by
    obtain ⟨j, hj, h⟩ := w.owned b hlt (by rwa [hb] at ht)
    exact ⟨j, hj, by rwa [hi j hj]⟩
  handle := by rw [ho]; exact w.handle

theorem writeBlock_eq (w : Wf es s) {j : Nat} (h0 : 0 < j) (hj : j ≤ es.length) :
    ∃ b, WriteBlock s j b ∧ writeBlock s j =
      (s.setDisk (s.toDisk.take b)).setInode j { s.inodeTable j with iDataBlock := b } := by
  unfold writeBlock
  by_cases hs : (s.inodeTable j).iSize = 0
  · obtain ⟨c, hc, hf⟩ := w.exists_free_block
    obtain ⟨b, hfirst, ha⟩ := dataBlockAlloc_of_free hc hf
    obtain ⟨hb, hbf, -⟩ := firstFree_eq_some.mp hfirst
    refine ⟨b, ⟨Nat.pos_of_ne_zero fun h => ?_, hb, .inl ⟨hs, hfirst⟩⟩, by rw [if_pos hs, ha]⟩
    obtain ⟨r, -, hr, ht⟩ := w.block 0 (Nat.zero_le _) (by simp [w.root])
    have hr0 : r = 0 := by simpa [w.root] using hr.symm
    rw [h, ← hr0, ht] at hbf
    cases hbf
  · obtain ⟨b, hb0, hb, hjb, ht⟩ := w.file_block h0 hj (by omega)
    refine ⟨b, ⟨hb0, hb, .inr ⟨by omega, hjb, ht⟩⟩, ?_⟩
    have hd : s.toDisk.take b = s.toDisk := by
      unfold Disk.take
      rw [← ht, Function.update_eq_self]
    rw [if_neg hs, hd, ← hjb]
    simp [State.setInode, State.setDisk]

theorem write_eq (w : Wf es s) {file : Nat} (hf : file < maxOpenFiles)
    (ht : s.freeOpenFileEntries file = .taken) (buffer : List UInt8) :
    ∃ j b, 0 < j ∧ j ≤ es.length ∧ (s.openFileTable file).ofInumber = j ∧ WriteBlock s j b ∧
      tfsWrite s file buffer =
        let n := toWrite buffer.length (s.openFileTable file).ofOffset
        if n = 0 then some (0, s)
        else if n ≤ buffer.length ∧ b * blockSize + (s.openFileTable file).ofOffset + n ≤ fsDataSize then
          some ((n : Int), written s file j b (buffer.take n))
        else none := by
  obtain ⟨j, h0, hj, hi⟩ := w.handle file hf ht
  obtain ⟨b, hb, hw⟩ := w.writeBlock_eq h0 hj
  refine ⟨j, b, h0, hj, hi, hb, ?_⟩
  have hl := w.length_lt
  have hinode : inodeGet (s.openFileTable file).ofInumber = some j := by
    rw [hi]
    exact inodeGet_natCast (by omega)
  unfold tfsWrite written
  simp only [getOpenFileEntry_natCast hf, hinode, hw, dataBlockGet_of_lt hb.2.1, State.setInode_inodeTable,
    if_true]
  generalize toWrite buffer.length (s.openFileTable file).ofOffset = n
  generalize (s.openFileTable file).ofOffset = offset
  rcases Nat.eq_zero_or_pos n with hz | hpos
  · simp [hz]
  rw [if_pos hpos, if_neg hpos.ne']
  by_cases hle : n ≤ buffer.length
  · have hlen : (buffer.take n).length = n := List.length_take_of_le hle
    rw [if_neg (by omega), Disk.store, hlen]
    by_cases hb' : b * blockSize + offset + n ≤ fsDataSize
    · have hadd : szAdd offset n = offset + n := szAdd_of_lt (by simp at hb'; omega)
      rw [if_pos hb', if_pos ⟨hle, hb'⟩, Option.map_some, hadd]
      congr 2
      simp only [State.setFiles_inodeTable, State.setDisk_inodeTable, State.setInode_inodeTable, if_true]
      rcases Nat.lt_or_ge (s.inodeTable j).iSize (offset + n) with hlt | hge
      · rw [if_pos hlt, max_eq_right hlt.le]
        simp [State.setInode, State.setDisk, State.setFiles]
      · rw [if_neg (by omega), max_eq_left hge]
        simp [State.setInode, State.setDisk, State.setFiles]
    · rw [if_neg hb', if_neg (fun h => hb' h.2)]
      rfl
  · rw [if_pos (by omega), if_neg (fun h => hle h.1)]

theorem inodeCreate_file (w : Wf es s) :
    inodeCreate s .file = (((es.length + 1 : Nat) : Int), newFile s (es.length + 1)) := by
  have hl := w.length_lt
  have hf : firstFree s.freeinodeTs inodeTableSize = some (es.length + 1) := by
    rw [firstFree_eq_some]
    refine ⟨hl.1, ?_, fun j hj => (w.inode j (by omega)).mpr (by omega)⟩
    have hn := (w.inode _ hl.1).not.mpr (by omega)
    cases hc : s.freeinodeTs (es.length + 1) <;> simp_all
  unfold inodeCreate
  rw [hf]
  simp [newFile]

theorem inodeDelete_newFile_eq (w : Wf es s) :
    inodeDelete (newFile s (es.length + 1)) (es.length + 1 : Nat) =
      (0, (newFile s (es.length + 1)).setInodeState (es.length + 1) .free) := by
  have hl := w.length_lt
  have hv : validInumber (es.length + 1 : Nat) := ⟨by omega, by exact_mod_cast hl.1⟩
  have hcond : ¬ (¬ validInumber (es.length + 1 : Nat) ∨
      (newFile s (es.length + 1)).freeinodeTs ((es.length + 1 : Nat) : Int).toNat = .free) := by
    rw [Int.toNat_natCast, newFile, State.setInode_freeinodeTs, State.setInodeState_freeinodeTs]
    simpa using hv
  rw [inodeDelete, if_neg hcond]
  simp [newFile, State.setInode_inodeTable]

theorem newFile_inodeTable_of_le {j : Nat} (hj : j ≤ es.length) :
    (newFile s (es.length + 1)).inodeTable j = s.inodeTable j := by
  rw [newFile, State.setInode_inodeTable, if_neg (by omega), State.setInodeState_inodeTable]

theorem inodeDelete_newFile (w : Wf es s) :
    Wf es (inodeDelete (newFile s (es.length + 1)) (es.length + 1 : Nat)).2 := by
  rw [w.inodeDelete_newFile_eq]
  refine w.congr (fun _ _ => rfl) (fun j hj => newFile_inodeTable_of_le hj) (fun j hj => ?_) rfl rfl
  have hn := (w.inode _ w.length_lt.1).not.mpr (by omega)
  rw [State.setInodeState_freeinodeTs]
  split
  · next he =>
    rw [he]
    cases hc : s.freeinodeTs (es.length + 1) <;> simp_all
  · next he => rw [newFile, State.setInode_freeinodeTs, State.setInodeState_freeinodeTs, if_neg he]

theorem addDirEntry_newFile (w : Wf es s) (subName : CString) :
    addDirEntry (newFile s (es.length + 1)) rootDirInum (es.length + 1 : Nat) subName =
      if subName.strlen = 0 then (-1, newFile s (es.length + 1))
      else
        match fillDirEntry s.fsData 0 (es.length + 1 : Nat) subName with
        | some m => (0, (newFile s (es.length + 1)).setDisk { s.toDisk with fsData := m })
        | none => (-1, newFile s (es.length + 1)) := by
  have hl := w.length_lt
  have hv : validInumber (es.length + 1 : Nat) := ⟨by omega, by exact_mod_cast hl.1⟩
  have hr : validInumber 0 := by decide
  have hi : (newFile s (es.length + 1)).inodeTable 0 = ⟨.directory, blockSize, 0⟩ := by
    simp [newFile, State.setInode_inodeTable, w.root]
  have hg : dataBlockGet 0 = some 0 := by decide
  have hm : (newFile s (es.length + 1)).toDisk = s.toDisk := rfl
  unfold addDirEntry
  simp only [rootDirInum, hv, hr, Int.toNat_zero, hi, hg, hm]
  cases fillDirEntry s.fsData 0 (es.length + 1 : Nat) subName <;> rfl

theorem isInt_inumber (w : Wf es s) : IsInt (es.length + 1 : Nat) ∧ ((es.length + 1 : Nat) : Int) ≠ -1 := by
  have hl := w.length_lt
  simp only [IsInt, inodeTableSize] at *
  omega

theorem create (w : Wf es s) {subName : CString} {m : Mem}
    (hd : DirHolds m 0 (es ++ [.ofName subName (es.length + 1 : Nat) w.isInt_inumber])) :
    Wf (es ++ [.ofName subName (es.length + 1 : Nat) w.isInt_inumber])
      ((newFile s (es.length + 1)).setDisk { s.toDisk with fsData := m }) := by
  have hlen : (es ++ [DirEntry.ofName subName (es.length + 1 : Nat) w.isInt_inumber]).length =
      es.length + 1 := by simp
  have hi : ∀ j, (newFile s (es.length + 1)).inodeTable j =
      if j = es.length + 1 then ⟨.file, 0, -1⟩ else s.inodeTable j := by
    intro j
    rw [newFile, State.setInode_inodeTable, State.setInodeState_inodeTable]
  have hpos : ∀ j, 0 < ((newFile s (es.length + 1)).inodeTable j).iSize → j ≤ es.length + 1 →
      j ≤ es.length ∧ (newFile s (es.length + 1)).inodeTable j = s.inodeTable j := by
    intro j hs hj
    rw [hi] at hs ⊢
    split at hs
    · simp at hs
    · next hne => exact ⟨by omega, if_neg hne⟩
  constructor
  · exact hd
  · intro i hlt
    rcases Nat.lt_or_ge i es.length with h | h
    · rw [List.getElem_append_left h]
      exact w.inumber i h
    · have h : i = es.length := by omega
      subst h
      simp [DirEntry.ofName]
  · rw [State.setDisk_inodeTable, hi, if_neg (by omega)]
    exact w.root
  · intro j hj
    have h := w.inode j hj
    rw [hlen, State.setDisk_freeinodeTs, newFile, State.setInode_freeinodeTs, State.setInodeState_freeinodeTs]
    split
    · simp
      omega
    · next hne => exact h.trans (by omega)
  · intro j h0 hj
    rw [State.setDisk_inodeTable, hi]
    split
    · rfl
    · exact w.type j h0 (by omega)
  · intro j hj
    rw [State.setDisk_inodeTable, hi]
    split
    · simp
    · exact w.size j (by omega)
  · intro j hj hs
    obtain ⟨hjl, he⟩ := hpos j hs (by omega)
    rw [State.setDisk_inodeTable, he] at hs ⊢
    exact w.block j hjl hs
  · intro j hj k hk hsj hsk
    obtain ⟨hjl, hje⟩ := hpos j hsj (by omega)
    obtain ⟨hkl, hke⟩ := hpos k hsk (by omega)
    rw [State.setDisk_inodeTable, hje] at hsj ⊢
    rw [State.setDisk_inodeTable, hke] at hsk
    rw [hke]
    exact w.distinct j hjl k hkl hsj hsk
  · intro b hb ht
    obtain ⟨j, hj, h⟩ := w.owned b hb ht
    refine ⟨j, by omega, ?_⟩
    rw [State.setDisk_inodeTable, hi, if_neg (by omega)]
    exact h
  · intro h hh ht
    obtain ⟨j, h0, hj, he⟩ := w.handle h hh ht
    exact ⟨j, h0, by omega, he⟩

theorem block_ne (w : Wf es s) {j b : Nat} (hb : WriteBlock s j b) (hj : j ≤ es.length) {k : Nat}
    (hk : k ≤ es.length) (hkj : k ≠ j) (hks : 0 < (s.inodeTable k).iSize) :
    (s.inodeTable k).iDataBlock ≠ b := by
  intro hkb
  rcases hb.2.2 with ⟨-, hfirst⟩ | ⟨hjs, hjb, -⟩
  · obtain ⟨c, -, hkc, ht⟩ := w.block k hk hks
    have hcb : c = b := by exact_mod_cast hkc.symm.trans hkb
    rw [hcb, (firstFree_eq_some.mp hfirst).2.1] at ht
    cases ht
  · exact hkj (w.distinct k hk j hj hks hjs (hkb.trans hjb.symm))

theorem written (w : Wf es s) {file j b : Nat} (h0 : 0 < j) (hj : j ≤ es.length) (hb : WriteBlock s j b)
    {bytes : List UInt8} (hpos : 0 < bytes.length)
    (hle : (s.openFileTable file).ofOffset + bytes.length ≤ blockSize) :
    Wf es (Ex2.written s file j b bytes) := by
  have hne := fun k => w.block_ne hb hj (k := k)
  obtain ⟨hb0, hbl, hown⟩ := hb
  have hi := written_inodeTable s file j b bytes
  have hfb := written_freeBlocks s file j b bytes
  constructor
  · apply w.dir.congr
    intro x _ hx
    exact Mem.store_of_notMem _ (by simp at hx ⊢; omega)
  · exact w.inumber
  · rw [hi, if_neg (by omega)]
    exact w.root
  · exact w.inode
  · intro k hk0 hk
    rw [hi]
    split
    · exact w.type j h0 hj
    · exact w.type k hk0 hk
  · intro k hk
    have hs := w.size
    rw [hi]
    split
    · exact max_le (hs j hj) hle
    · exact hs k hk
  · intro k hk hks
    rw [hi] at hks ⊢
    split at hks
    · next he =>
      rw [if_pos he]
      exact ⟨b, hbl, rfl, by rw [hfb, if_pos rfl]⟩
    · next he =>
      obtain ⟨c, hc, hkc, ht⟩ := w.block k hk hks
      rw [if_neg he]
      refine ⟨c, hc, hkc, ?_⟩
      rw [hfb]
      split
      · rfl
      · exact ht
  · intro k hk l hl hks hls he
    rw [hi] at hks he
    rw [hi] at hls he
    split at hks <;> split at hls
    · next h1 h2 => exact h1.trans h2.symm
    · next h1 h2 =>
      rw [if_pos h1, if_neg h2] at he
      exact absurd he.symm (hne l hl h2 hls)
    · next h1 h2 =>
      rw [if_neg h1, if_pos h2] at he
      exact absurd he (hne k hk h1 hks)
    · next h1 h2 =>
      rw [if_neg h1, if_neg h2] at he
      exact w.distinct k hk l hl hks hls he
  · intro c hc ht
    rw [hfb] at ht
    split at ht
    · next he =>
      refine ⟨j, hj, ?_⟩
      rw [hi, if_pos rfl, he]
      exact ⟨by simp; omega, rfl⟩
    · next he =>
      obtain ⟨k, hk, hks, hkc⟩ := w.owned c hc ht
      by_cases hkj : k = j
      · exfalso
        rw [hkj] at hks hkc
        rcases hown with ⟨hjs, -⟩ | ⟨-, hjb, -⟩
        · omega
        · exact he (by exact_mod_cast hkc.symm.trans hjb)
      · refine ⟨k, hk, ?_⟩
        rw [hi, if_neg hkj]
        exact ⟨hks, hkc⟩
  · intro h hh ht
    simpa [Ex2.written] using w.handle h hh ht

theorem opened (w : Wf es s) {name : Option CString} {flags : Int} {r : Int × State}
    (h : tfsOpenUnsynchronized s name flags = some r) : ∃ es', Opened es s name flags es' r := by
  have hl := w.length_lt
  have hlook := w.lookup name
  unfold tfsOpenUnsynchronized at h
  by_cases hfound : ∃ subName i, ∃ hi : i < es.length, skipSlash name = some subName ∧ validPathname name ∧
      es[i].name = subName.bytes ∧ lookupEntry es subName = i + 1
  · -- the name is in the directory
    obtain ⟨subName, i, hi, hs, hv, hn, hle⟩ := hfound
    have hge : ((i + 1 : Nat) : Int) ≥ 0 := by omega
    have hlook : tfsLookupUnsynchronized s name = (i + 1 : Nat) := by
      rw [hlook, hs]
      simp [hv, hle]
    simp only [hlook, hge, if_true, inodeGet_natCast (show i + 1 < inodeTableSize by omega)] at h
    have htr := (w.truncate (j := i + 1) (by omega) hi).1
    have hr : r =
        Ex2.openHandle (openedState s (i + 1) flags) (i + 1 : Nat) (openedOffset s (i + 1) flags) := by
      unfold openedOffset openedState
      by_cases ht : hasFlag flags tfsOTrunc
      · simpa [ht, htr] using h.symm
      · simpa [ht] using h.symm
    rw [hr]
    exact ⟨es, .existing hs hv hi hn hle⟩
  · -- it is not, or it is no valid path
    have hv : ∀ subName, skipSlash name = some subName → validPathname name → ∀ e ∈ es, e.name ≠ subName.bytes := by
      intro subName hs hv
      rcases w.lookupEntry_cases subName with ⟨i, hi, hn, hle⟩ | ⟨hno, -⟩
      · exact absurd ⟨subName, i, hi, hs, hv, hn, hle⟩ hfound
      · exact hno
    have hlook : tfsLookupUnsynchronized s name = -1 := by
      rw [hlook]
      cases hs : skipSlash name with
      | none => rfl
      | some subName =>
        by_cases hvp : validPathname name
        · rcases w.lookupEntry_cases subName with ⟨i, hi, hn, hle⟩ | ⟨-, hle⟩
          · exact absurd ⟨subName, i, hi, hs, hvp, hn, hle⟩ hfound
          · simp [hvp, hle]
        · simp [hvp]
    have hneg : ¬ (-1 : Int) ≥ 0 := by decide
    simp only [hlook, hneg, if_false] at h
    by_cases hc : hasFlag flags tfsOCreat
    · have hne : ((es.length + 1 : Nat) : Int) ≠ -1 := by omega
      simp only [hc, if_true, w.inodeCreate_file, hne, if_false] at h
      cases hs : skipSlash name with
      | none => simp [hs] at h
      | some subName =>
        simp only [hs, w.addDirEntry_newFile subName] at h
        by_cases hz : subName.strlen = 0
        · simp only [hz, if_true, Option.some.injEq] at h
          rw [← h]
          exact ⟨es, .full hs (hv _ hs) hc (.inl hz)⟩
        rcases Nat.lt_or_ge es.length maxDirEntries with hroom | hfull
        · obtain ⟨m, hm, hd, hframe⟩ := w.dir.fill w.isInt_inumber subName hroom
          rw [if_neg hz, hm] at h
          cases h
          exact ⟨_, .created hs (hv _ hs) hc (by omega) hroom _ hd fun x hx => hframe x (.inr (by omega))⟩
        · have hfull : es.length = maxDirEntries := le_antisymm w.length_le hfull
          simp only [hz, if_false, w.dir.fill_full _ subName hfull, if_true, Option.some.injEq] at h
          rw [← h]
          exact ⟨es, .full hs (hv _ hs) hc (.inr hfull)⟩
    · simp only [hc] at h
      rw [if_neg (by decide)] at h
      cases h
      exact ⟨es, .absent hv hc⟩

theorem openedState_cases (w : Wf es s) {j : Nat} (h0 : 0 < j) (hj : j ≤ es.length) (flags : Int) :
    openedState s j flags = s ∨ ∃ b, openedState s j flags =
      (s.setDisk (s.toDisk.release b)).setInode j { s.inodeTable j with iSize := 0 } := by
  unfold openedState
  split
  · rcases w.truncate_eq h0 hj with ⟨he, -⟩ | ⟨b, -, -, -, -, he⟩
    · exact .inl (by rw [he])
    · exact .inr ⟨b, by rw [he]⟩
  · exact .inl rfl

theorem of_opened (w : Wf es s) {name : Option CString} {flags : Int} {es' : List DirEntry} {x : Int × State}
    (h : Opened es s name flags es' x) : Wf es' x.2 := by
  cases h with
  | @existing _ i hs hv hi hn hl =>
    refine openHandle ?_ (by omega) hi _
    unfold openedState
    split
    · exact (w.truncate (by omega) hi).2
    · exact w
  | created hs hv hc hlen hroom h hd hm => exact (w.create hd).openHandle (by omega) (by simp) 0
  | full => exact w.inodeDelete_newFile
  | absent => exact w

theorem open_eq_none (w : Wf es s) {name : Option CString} {flags : Int} :
    tfsOpenUnsynchronized s name flags = none ↔ skipSlash name = none ∧ hasFlag flags tfsOCreat := by
  cases hs : skipSlash name with
  | some subName =>
    obtain ⟨x, hx⟩ := exists_tfsOpenUnsynchronized s flags hs
    simp [hx]
  | none =>
    have hlook := w.lookup name
    simp only [hs] at hlook
    have hneg : ¬ (-1 : Int) ≥ 0 := by decide
    have hne : ((es.length + 1 : Nat) : Int) ≠ -1 := by omega
    unfold tfsOpenUnsynchronized
    simp only [hlook, hneg, if_false, hs, w.inodeCreate_file, hne]
    split <;> simp_all

theorem read_cases {file : Int} {len : Nat} {out : Out} {s' : State} (h : tfsRead s file len = some (out, s')) :
    s' = s ∨ ∃ i offset, s' = s.setFiles (s.toOpenFiles.setOffset i offset) := by
  unfold tfsRead at h
  cases hf : getOpenFileEntry file with
  | none =>
    rw [hf] at h
    cases h
    exact .inl rfl
  | some i =>
    rw [hf] at h
    cases hi : inodeGet (s.openFileTable i).ofInumber with
    | none =>
      simp only [hi] at h
      cases h
      exact .inl rfl
    | some j =>
      simp only [hi] at h
      generalize toRead (s.inodeTable j).iSize (s.openFileTable i).ofOffset len = n at h
      split at h
      · split at h
        · cases h
          exact .inl rfl
        · obtain ⟨bytes, -, he⟩ := Option.map_eq_some_iff.mp h
          cases he
          exact .inr ⟨_, _, rfl⟩
      · cases h
        exact .inl rfl

end Wf

def fileBytes (s : State) (j : Nat) : List UInt8 :=
  s.fsData.load ((s.inodeTable j).iDataBlock.toNat * blockSize) (s.inodeTable j).iSize

@[simp] theorem length_fileBytes (s : State) (j : Nat) :
    (fileBytes s j).length = (s.inodeTable j).iSize := by simp [fileBytes]

theorem fileBytes_congr {s s' : State} {j : Nat} (hi : s'.inodeTable j = s.inodeTable j)
    (hm : ∀ k < (s.inodeTable j).iSize, s'.fsData ((s.inodeTable j).iDataBlock.toNat * blockSize + k) =
      s.fsData ((s.inodeTable j).iDataBlock.toNat * blockSize + k)) : fileBytes s' j = fileBytes s j := by
  unfold fileBytes
  rw [hi]
  exact Mem.load_congr hm

theorem Wf.fileBytes_congr {es : List DirEntry} {s s' : State} (w : Wf es s) {j b : Nat} (h0 : 0 < j)
    (hj : j ≤ es.length) (hi : s'.inodeTable j = s.inodeTable j)
    (hb : 0 < (s.inodeTable j).iSize → (s.inodeTable j).iDataBlock ≠ b)
    (hm : ∀ x, blockSize ≤ x → x < b * blockSize ∨ (b + 1) * blockSize ≤ x → s'.fsData x = s.fsData x) :
    fileBytes s' j = fileBytes s j := by
  apply Ex2.fileBytes_congr hi
  intro k hk
  obtain ⟨c, hc0, -, hjc, -⟩ := w.file_block h0 hj (by omega)
  have hs := w.size j hj
  have hcb : c ≠ b := fun h => hb (by omega) (by rw [hjc, h])
  simp only [hjc, Int.toNat_natCast, blockSize] at hs ⊢
  exact hm _ (by simp; omega) (by simp; omega)

theorem fileBytes_written {s : State} {file j b : Nat} (hb : WriteBlock s j b)
    (ho : (s.openFileTable file).ofOffset ≤ (s.inodeTable j).iSize) (bytes : List UInt8) :
    fileBytes (written s file j b bytes) j =
      overwrite (fileBytes s j) (s.openFileTable file).ofOffset bytes := by
  have hbytes : fileBytes s j = s.fsData.load (b * blockSize) (s.inodeTable j).iSize := by
    rcases hb.2.2 with ⟨hz, -⟩ | ⟨-, hj, -⟩
    · simp [fileBytes, hz, Mem.load]
    · rw [fileBytes, hj, Int.toNat_natCast]
  rw [hbytes, ← Mem.load_store_overwrite _ _ ho]
  simp [fileBytes, written_inodeTable]

theorem Wf.fileBytes_written_of_ne {es : List DirEntry} {s : State} (w : Wf es s) {file j b k : Nat}
    (hj : j ≤ es.length) (hb : WriteBlock s j b) {bytes : List UInt8}
    (hle : (s.openFileTable file).ofOffset + bytes.length ≤ blockSize) (h0 : 0 < k) (hk : k ≤ es.length)
    (hne : k ≠ j) : fileBytes (Ex2.written s file j b bytes) k = fileBytes s k := by
  refine w.fileBytes_congr (b := b) h0 hk ?_ (fun hs => w.block_ne hb hj hk hne hs) fun x _ hx => ?_
  · rw [written_inodeTable, if_neg hne]
  · rw [written_fsData, Mem.store_of_notMem]
    refine hx.imp (fun h => Nat.lt_add_right _ h) fun h => ?_
    simp only [blockSize] at hle h ⊢
    omega

theorem Wf.fileBytes_created {es : List DirEntry} {s : State} (w : Wf es s) {m : Mem}
    (hm : ∀ x, blockSize ≤ x → m x = s.fsData x) {k : Nat} (h0 : 0 < k) (hk : k ≤ es.length) :
    fileBytes ((newFile s (es.length + 1)).setDisk { s.toDisk with fsData := m }) k = fileBytes s k := by
  refine w.fileBytes_congr (b := 0) h0 hk (newFile_inodeTable_of_le hk) (fun hs he => ?_) fun x hx _ => hm x hx
  obtain ⟨b, hb, -, hkb, -⟩ := w.file_block h0 hk hs
  omega

theorem Wf.read_eq {es : List DirEntry} {s : State} (w : Wf es s) {file j : Nat} (hf : file < maxOpenFiles)
    (h0 : 0 < j) (hj : j ≤ es.length) (hin : (s.openFileTable file).ofInumber = j)
    (ho : (s.openFileTable file).ofOffset ≤ (s.inodeTable j).iSize) (len : Nat) :
    let data := ((fileBytes s j).drop (s.openFileTable file).ofOffset).take len
    tfsRead s file len = some (⟨data.length, data⟩,
      s.setFiles (s.toOpenFiles.setOffset file ((s.openFileTable file).ofOffset + data.length))) := by
  intro data
  have hl := w.length_lt
  have hinode : inodeGet (s.openFileTable file).ofInumber = some j := by
    rw [hin]
    exact inodeGet_natCast (by omega)
  have hsize := w.size j hj
  generalize hoff : (s.openFileTable file).ofOffset = offset at *
  have hdl : data.length = min len ((s.inodeTable j).iSize - offset) := by
    simp only [data, hoff, List.length_take, List.length_drop, length_fileBytes]
  have hn : data.length = toRead (s.inodeTable j).iSize offset len := by rw [toRead_of_le ho hsize, hdl]
  rw [tfsRead, getOpenFileEntry_natCast hf]
  simp only [hinode, hoff, ← hn]
  by_cases hpos : 0 < data.length
  · obtain ⟨b, -, hb, hib, -⟩ := w.file_block h0 hj (by omega)
    have hfit : b * blockSize + offset + data.length ≤ fsDataSize := by
      simp only [fsDataSize, blockSize, dataBlocks] at *
      omega
    have hload : s.fsData.load (b * blockSize + offset) data.length = data := by
      have hdata : data = s.fsData.load (b * blockSize + offset) (min len ((s.inodeTable j).iSize - offset)) := by
        simp only [data, hoff, fileBytes, hib, Int.toNat_natCast, Mem.take_drop_load]
      rw [hdl, ← hdata]
    have hadd : szAdd offset data.length = offset + data.length :=
      szAdd_of_lt (by simp only [blockSize] at hsize; omega)
    rw [if_pos hpos, hib, dataBlockGet_of_lt hb]
    simp only [Disk.load, if_pos hfit, Option.map_some, hload, hadd]
  · have hnil : data = [] := List.length_eq_zero_iff.mp (by omega)
    rw [if_neg hpos, hnil, List.length_nil, Nat.add_zero, ← hoff, OpenFiles.setOffset_self]
    rfl

end Tecnicofs.Ex2
