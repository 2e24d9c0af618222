import Tecnicofs.Ex2.Allocation

namespace Tecnicofs.Ex2

open Bytes

/-- Existing files, handles and `open_files` are as before. -/
structure KeepsFiles (s s' : State) : Prop where
  inode : ∀ j < inodeTableSize, s.freeinodeTs j = .taken →
    s'.freeinodeTs j = .taken ∧ s'.inodeTable j = s.inodeTable j
  contents : ∀ j < inodeTableSize, s.freeinodeTs j = .taken → (s.inodeTable j).iNodeType = .file →
    fileBytes s' j = fileBytes s j
  handles : s'.toOpenFiles = s.toOpenFiles
  openFiles : s'.openFiles = s.openFiles

def rootName (s : State) (i : Nat) : Nat → UInt8 :=
  dName s.fsData ((s.inodeTable rootDirInum.toNat).iDataBlock.toNat * blockSize) i

def SameEntry (s s' : State) (i : Nat) : Prop :=
  rootEntry s' i = rootEntry s i ∧ (rootEntry s i ≠ -1 → ∀ j < maxFileName, rootName s' i j = rootName s i j)

/-- The directory and the marks of the i-nodes are as before. -/
structure SameTables (s s' : State) : Prop where
  entry : ∀ i < maxDirEntries, SameEntry s s' i
  inode : ∀ j < inodeTableSize, s'.freeinodeTs j = s.freeinodeTs j

structure NewEmptyFile (s s' : State) (j k : Nat) : Prop where
  lt : j < inodeTableSize ∧ k < maxDirEntries
  free : s.freeinodeTs j = .free ∧ rootEntry s k = -1
  taken : s'.freeinodeTs j = .taken ∧ rootEntry s' k = j
  empty : (s'.inodeTable j).iNodeType = .file ∧ (s'.inodeTable j).iSize = 0
  entry : ∀ i < maxDirEntries, i ≠ k → SameEntry s s' i
  inode : ∀ i < inodeTableSize, i ≠ j → s'.freeinodeTs i = s.freeinodeTs i

def TableFull (s : State) : Prop := ∀ file < maxOpenFiles, s.freeOpenFileEntries file = .taken

/-- Nothing is lost; a new empty file may remain when only the open-file table was full. -/
def LosesNothing (s s' : State) : Prop :=
  KeepsFiles s s' ∧ (SameTables s s' ∨ TableFull s ∧ ∃ j k, NewEmptyFile s s' j k)

/-- The open would truncate a file with contents, and there is no handle left for it. -/
def TruncatesInVain (s : State) (name : Option CString) (flags : Int) : Prop :=
  hasFlag flags tfsOTrunc = true ∧
    (∃ j < inodeTableSize, tfsLookupUnsynchronized s name = j ∧ 0 < (s.inodeTable j).iSize) ∧ TableFull s

theorem KeepsFiles.refl (s : State) : KeepsFiles s s := ⟨fun _ _ h => ⟨h, rfl⟩, fun _ _ _ _ => rfl, rfl, rfl⟩

theorem SameEntry.refl (s : State) (i : Nat) : SameEntry s s i := ⟨rfl, fun _ _ _ => rfl⟩

theorem LosesNothing.refl (s : State) : LosesNothing s s :=
  ⟨.refl s, .inl ⟨fun i _ => .refl s i, fun _ _ => rfl⟩⟩

theorem not_truncatesInVain_of_absent {s : State} {name : Option CString} {flags : Int}
    (h : tfsLookupUnsynchronized s name = -1) : ¬ TruncatesInVain s name flags := by
  rintro ⟨-, ⟨j, -, hj, -⟩, -⟩
  omega

theorem openHandle_of_full {s : State} (h : TableFull s) (inum : Int) (offset : Nat) :
    openHandle s inum offset = (-1, s) := by
  have hnone : firstFree s.freeOpenFileEntries maxOpenFiles = none := firstFree_eq_none.mpr h
  unfold openHandle addToOpenFileTable
  rw [hnone]
  rfl

namespace Wf

variable {es : List DirEntry} {s : State}

theorem rootEntry_eq (w : Wf es s) (i : Nat) : rootEntry s i = dInumber s.fsData 0 i := by
  simp [rootEntry, w.root]

theorem rootName_eq (w : Wf es s) (i : Nat) : rootName s i = dName s.fsData 0 i := by
  simp [rootName, w.root]

theorem newEmptyFile (w : Wf es s) {subName : CString} {m : Mem} {h : IsInt (es.length + 1 : Nat) ∧
    ((es.length + 1 : Nat) : Int) ≠ -1} (hroom : es.length < maxDirEntries)
    (hd : DirHolds m 0 (es ++ [.ofName subName (es.length + 1 : Nat) h])) :
    NewEmptyFile s ((newFile s (es.length + 1)).setDisk { s.toDisk with fsData := m }) (es.length + 1) es.length := by
  have hl := w.length_lt
  have w' := w.create hd
  have hlen : es.length < (es ++ [DirEntry.ofName subName (es.length + 1 : Nat) h]).length := by simp
  have hfree : s.freeinodeTs (es.length + 1) = .free := by
    have hn := (w.inode _ hl.1).not.mpr (by omega)
    cases hc : s.freeinodeTs (es.length + 1) <;> simp_all
  refine ⟨⟨hl.1, hroom⟩, ⟨hfree, ?_⟩, ⟨?_, ?_⟩, ?_, fun i hi hne => ?_, fun i hi hne => ?_⟩
  · rw [w.rootEntry_eq, w.dir.empty _ le_rfl hroom]
  · exact (w'.inode _ hl.1).mpr (by simp)
  · rw [w'.rootEntry_eq, State.setDisk_toDisk, hd.inumber _ hlen]
    simp [DirEntry.ofName]
  · simp [newFile, State.setInode_inodeTable]
  · rw [SameEntry, w'.rootEntry_eq, w.rootEntry_eq, w'.rootName_eq, w.rootName_eq, State.setDisk_toDisk]
    by_cases hlt : i < es.length
    · have hlt' : i < (es ++ [DirEntry.ofName subName (es.length + 1 : Nat) h]).length := by omega
      refine ⟨?_, fun _ j hj => ?_⟩
      · rw [hd.inumber i hlt', w.dir.inumber i hlt, List.getElem_append_left hlt]
      · rw [hd.name i hlt' j hj, w.dir.name i hlt j hj, List.getElem_append_left hlt]
    · have hge : (es ++ [DirEntry.ofName subName (es.length + 1 : Nat) h]).length ≤ i := by
        simp only [List.length_append, List.length_singleton]
        omega
      have hold := w.dir.empty i (by omega) hi
      exact ⟨(hd.empty i hge hi).trans hold.symm, fun hne => absurd hold hne⟩
  · simp [newFile, State.setInodeState_freeinodeTs, hne]

theorem keepsFiles_created (w : Wf es s) {m : Mem} (hm : ∀ x, blockSize ≤ x → m x = s.fsData x) :
    KeepsFiles s ((newFile s (es.length + 1)).setDisk { s.toDisk with fsData := m }) := by
  refine ⟨fun j hj ht => ⟨?_, ?_⟩, fun j hj ht htype => ?_, rfl, rfl⟩
  · rw [State.setDisk_freeinodeTs, newFile, State.setInode_freeinodeTs, State.setInodeState_freeinodeTs]
    split
    · rfl
    · exact ht
  · exact newFile_inodeTable_of_le ((w.inode j hj).mp ht)
  · have hle := (w.inode j hj).mp ht
    refine w.fileBytes_created hm (Nat.pos_of_ne_zero ?_) hle
    rintro rfl
    rw [w.root] at htype
    cases htype

theorem losesNothing_deleted (w : Wf es s) :
    LosesNothing s (inodeDelete (newFile s (es.length + 1)) (es.length + 1 : Nat)).2 := by
  have hl := w.length_lt
  have w' := w.inodeDelete_newFile
  rw [w.inodeDelete_newFile_eq] at w' ⊢
  have hmark : ∀ j < inodeTableSize,
      ((newFile s (es.length + 1)).setInodeState (es.length + 1) .free).freeinodeTs j = s.freeinodeTs j := by
    intro j hj
    have hsame := (w'.inode j hj).trans (w.inode j hj).symm
    cases h : s.freeinodeTs j <;>
      cases h' : ((newFile s (es.length + 1)).setInodeState (es.length + 1) .free).freeinodeTs j <;> simp_all
  refine ⟨⟨fun j hj ht => ⟨(hmark j hj).trans ht, ?_⟩, fun j hj ht _ => ?_, rfl, rfl⟩,
    .inl ⟨fun i _ => ?_, hmark⟩⟩
  · exact newFile_inodeTable_of_le ((w.inode j hj).mp ht)
  · exact Ex2.fileBytes_congr (newFile_inodeTable_of_le ((w.inode j hj).mp ht)) fun _ _ => rfl
  · rw [SameEntry, w'.rootEntry_eq, w.rootEntry_eq, w'.rootName_eq, w.rootName_eq]
    exact ⟨rfl, fun _ _ _ => rfl⟩

theorem lookup_absent (w : Wf es s) {name : Option CString} (hv : ∀ subName, skipSlash name = some subName →
    validPathname name → ∀ e ∈ es, e.name ≠ subName.bytes) : tfsLookupUnsynchronized s name = -1 := by
  rw [w.lookup name]
  cases hs : skipSlash name with
  | none => rfl
  | some subName =>
    by_cases hvp : validPathname name = true
    · rcases w.lookupEntry_cases subName with ⟨i, hi, hn, -⟩ | ⟨-, hl⟩
      · exact absurd hn (hv subName hs hvp _ (List.getElem_mem hi))
      · simp [hvp, hl]
    · simp [hvp]

theorem openedState_losesNothing_iff (w : Wf es s) {j : Nat} (h0 : 0 < j) (hj : j ≤ es.length) (flags : Int) :
    LosesNothing s (openedState s j flags) ↔ ¬ (hasFlag flags tfsOTrunc = true ∧ 0 < (s.inodeTable j).iSize) := by
  have hl := w.length_lt
  unfold openedState
  by_cases ht : hasFlag flags tfsOTrunc = true
  · rw [if_pos ht]
    rcases w.truncate_eq h0 hj with ⟨he, hz⟩ | ⟨b, -, -, -, hs, he⟩
    · rw [he, hz]
      simp [LosesNothing.refl]
    · rw [he]
      simp only [ht, hs, and_self, not_true, iff_false]
      intro h
      have hsame := (h.1.inode j (by omega) ((w.inode j (by omega)).mpr hj)).2
      rw [State.setInode_inodeTable, if_pos rfl] at hsame
      have hsize := congrArg Inode.iSize hsame
      simp only at hsize
      omega
  · rw [if_neg ht]
    simp [ht, LosesNothing.refl]

theorem open_losesNothing_iff (w : Wf es s) (hcan : s.canOpenFiles = 1) {name : Option CString} {flags : Int}
    {x : Int × State} (hx : tfsOpen s name flags = some x) :
    (x.1 = -1 → LosesNothing s x.2) ↔ ¬ TruncatesInVain s name flags := by
  rw [tfsOpen, if_neg (by rw [hcan]; decide)] at hx
  obtain ⟨⟨ret, t⟩, hy, rfl⟩ := Option.map_eq_some_iff.mp hx
  simp only
  have hopened : (ret = -1 → LosesNothing s (if ret ≠ -1 then { t with openFiles := t.openFiles + 1 } else t)) ↔
      (ret = -1 → LosesNothing s t) := by
    refine forall_congr' fun hr => ?_
    rw [if_neg (not_not.mpr hr)]
  rw [hopened]
  obtain ⟨es', ho⟩ := w.opened hy
  generalize hz : (ret, t) = z at ho
  have hret : ret = z.1 := congrArg Prod.fst hz
  have hstate : t = z.2 := congrArg Prod.snd hz
  rw [hret, hstate]
  cases ho with
  | @existing subName i hs hv hi hn hl =>
    have hlook : tfsLookupUnsynchronized s name = (i + 1 : Nat) := by
      rw [w.lookup name, hs]
      simp [hv, hl]
    have hfiles : (openedState s (i + 1) flags).toOpenFiles = s.toOpenFiles := by
      rcases w.openedState_cases (by omega : 0 < i + 1) hi flags with he | ⟨b, he⟩
      · rw [he]
      · rw [he]
        rfl
    by_cases hfull : TableFull s
    · have hfull' : TableFull (openedState s (i + 1) flags) := by
        intro file hf
        rw [hfiles]
        exact hfull file hf
      rw [openHandle_of_full hfull']
      refine (forall_prop_of_true rfl).trans ((w.openedState_losesNothing_iff (by omega) hi flags).trans (not_congr ?_))
      constructor
      · rintro ⟨ht, hs⟩
        exact ⟨ht, ⟨i + 1, by have := w.length_lt; omega, hlook, hs⟩, hfull⟩
      · rintro ⟨ht, ⟨j, -, hj, hs⟩, -⟩
        obtain rfl : i + 1 = j := Int.natCast_inj.mp (hlook.symm.trans hj)
        exact ⟨ht, hs⟩
    · refine iff_of_true (fun hneg => absurd (fun file hf => ?_) hfull) fun h => hfull h.2.2
      rw [← hfiles]
      exact openHandle_full hneg file hf
  | @created subName m hs hv hc hlen hroom h hd hm =>
    have hlook := w.lookup_absent fun subName hs' hvp => Option.some.inj (hs.symm.trans hs') ▸ hv hvp
    refine iff_of_true (fun hneg => ?_) (not_truncatesInVain_of_absent hlook)
    have hfull : TableFull s := fun file hf => openHandle_full hneg file hf
    have hfull' : TableFull ((newFile s (es.length + 1)).setDisk { s.toDisk with fsData := m }) := hfull
    rw [openHandle_of_full hfull']
    exact ⟨w.keepsFiles_created hm, .inr ⟨hfull, _, _, w.newEmptyFile hroom hd⟩⟩
  | full hs hv hc hno =>
    have hlook := w.lookup_absent fun subName hs' hvp => Option.some.inj (hs.symm.trans hs') ▸ hv hvp
    exact iff_of_true (fun _ => w.losesNothing_deleted) (not_truncatesInVain_of_absent hlook)
  | absent hv hc => exact iff_of_true (fun _ => .refl s) (not_truncatesInVain_of_absent (w.lookup_absent hv))

end Wf

/-- In every state that calls on open handles lead to, a failed open loses nothing exactly when it does not truncate a
file with contents while the open-file table is full. -/
theorem failed_open_losesNothing_iff {cs : List Call} {outs : List Out} {s : State}
    (ha : Runs.Along State.call OnOpenHandle State.init cs)
    (hr : Runs.run State.call State.init cs = some (outs, s)) {name : Option CString} {flags : Int} {x : Int × State}
    (hx : tfsOpen s name flags = some x) : (x.1 = -1 → LosesNothing s x.2) ↔ ¬ TruncatesInVain s name flags := by
  obtain ⟨es, w⟩ := exists_wf_of_run ha hr
  exact w.open_losesNothing_iff (Reachable.sane ⟨cs, outs, hr⟩).canOpen hx

def openedTwenty (name : CString) : List Call :=
  .open (some name) tfsOCreat :: .write 0 [1, 2, 3] :: List.replicate 19 (.open (some name) 0)

/-- A new file remains when no handle is left for it. -/
theorem failed_open_new_file : ∃ outs s x, Runs.run State.call State.init (openedTwenty ⟨[47, 97], by decide⟩) =
    some (outs, s) ∧ tfsOpen s (some ⟨[47, 98], by decide⟩) tfsOCreat = some x ∧ x.1 = -1 ∧ LosesNothing s x.2 := by
  have hend : (Runs.run State.call State.init (openedTwenty ⟨[47, 97], by decide⟩)).map (fun x =>
      (decide (hasFlag tfsOCreat tfsOTrunc), (tfsOpen x.2 (some ⟨[47, 98], by decide⟩) tfsOCreat).map Prod.fst)) =
        some (false, some (-1)) := by decide +kernel
  obtain ⟨y, hy, he⟩ := Option.map_eq_some_iff.mp hend
  obtain ⟨x, hx, hneg⟩ := Option.map_eq_some_iff.mp (congrArg Prod.snd he)
  have hno : ¬ TruncatesInVain y.2 (some ⟨[47, 98], by decide⟩) tfsOCreat := fun h => absurd h.1 (by decide)
  exact ⟨y.1, y.2, x, hy, hx, hneg, (failed_open_losesNothing_iff (by decide +kernel) hy hx).mpr hno hneg⟩

/-- The file is truncated when no handle is left for it. -/
theorem failed_open_truncates : ¬ ∀ (cs : List Call) (outs : List Out) (s : State),
    Runs.Along State.call OnOpenHandle State.init cs → Runs.run State.call State.init cs = some (outs, s) →
      ∀ name flags x, tfsOpen s name flags = some x → x.1 = -1 → LosesNothing s x.2 := by
  intro hall
  let name : CString := ⟨[47, 97], by decide⟩
  have hend : (Runs.run State.call State.init (openedTwenty name)).map (fun x =>
      ((x.2.inodeTable 1).iSize, decide (x.2.freeinodeTs 1 = .taken),
        (tfsOpen x.2 (some name) tfsOTrunc).map fun y => (y.1, (y.2.inodeTable 1).iSize))) =
          some (3, true, some (-1, 0)) := by decide +kernel
  obtain ⟨y, hy, he⟩ := Option.map_eq_some_iff.mp hend
  obtain ⟨x, hx, hneg⟩ := Option.map_eq_some_iff.mp (congrArg (fun z => z.2.2) he)
  have ht : y.2.freeinodeTs 1 = .taken := of_decide_eq_true (congrArg (fun z => z.2.1) he)
  have hsame := ((hall _ y.1 y.2 (by decide +kernel) hy _ _ x hx (congrArg Prod.fst hneg)).1.inode 1 (by decide) ht).2
  have hold : (y.2.inodeTable 1).iSize = 3 := congrArg Prod.fst he
  have hnew : (x.2.inodeTable 1).iSize = 0 := congrArg Prod.snd hneg
  rw [hsame] at hnew
  omega

end Tecnicofs.Ex2
