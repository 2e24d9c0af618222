import Tecnicofs.Ex1.Operations

namespace Tecnicofs.Ex1

open Bytes

variable {s : State}

def newFile (s : State) (i : Nat) : State :=
  (s.setInodeState i .taken).setInode i
    ⟨.file, 0, fun k => if k < blocks then -1 else (s.inodeTable i).iDataBlock k⟩

theorem run_inodeCreate_some {i : Nat} (h : firstFree s.freeinodeTs inodeTableSize = some i) :
    (inodeCreate .file).run s = some ((i : Int), newFile s i) := by
  simp only [inodeCreate, mutexLock, unlock, initFile, Prog.run_bind, Prog.run_acquire, Prog.run_atomic, h,
    Option.bind_some, Prog.run_modify, Prog.run_release, Prog.run_pure]
  simp only [newFile, State.setInode, State.setInodeState, Function.update_idem, Function.update_self]

theorem run_inodeCreate_none (h : firstFree s.freeinodeTs inodeTableSize = none) :
    (inodeCreate .file).run s = some (-1, s) := by
  simp only [inodeCreate, mutexLock, Prog.run_bind, Prog.run_acquire, Prog.run_atomic, h, Option.bind_some,
    Prog.run_pure]

theorem run_inodeDelete {i : Nat} (hi : i < inodeTableSize) (ht : s.freeinodeTs i = .taken)
    (hf : (s.inodeTable i).iNodeType = .file) (hz : (s.inodeTable i).iSize = 0) :
    (inodeDelete i).run s = some (0, s.setInodeState i .free) := by
  have hget := inodeGet_natCast hi
  have hblocks : (deleteBlocks i).run (s.setInodeState i .free) = some (true, s.setInodeState i .free) := by
    simp only [deleteBlocks, Prog.run_bind, Prog.run_get, Option.bind_some, State.setInodeState_inodeTable, hf, hz]
    rfl
  simp only [inodeDelete, mutexLock, unlock, Prog.run_bind, Prog.run_acquire, Prog.run_atomic, Option.bind_some, hget,
    ht, reduceCtorEq, if_false, hblocks, Prog.run_release, Prog.run_pure, if_true]

theorem run_findInDir {a : Nat} (h : dirBlock s rootDirInum = some a) (subName : CString) :
    (findInDir rootDirInum subName).run s = some (findDirEntry s.fsData a subName, s) := by
  simp only [findInDir, mutexLock, unlock, Prog.run_bind, Prog.run_acquire, Prog.run_get, Option.bind_some, h,
    Prog.run_release, Prog.run_pure]

theorem run_tfsLookup {a : Nat} (h : dirBlock s rootDirInum = some a) {name : CString}
    (hv : validPathname (some name) = true) :
    (tfsLookup (some name)).run s = some (findDirEntry s.fsData a name.tail, s) := by
  rw [tfsLookup, if_pos hv, run_findInDir h]

def lookup (s : State) (name : Option CString) : Int := (((tfsLookup name).run s).getD (-1, s)).1

theorem lookup_eq {a : Nat} (h : dirBlock s rootDirInum = some a) {name : CString}
    (hv : validPathname (some name) = true) : lookup s (some name) = findDirEntry s.fsData a name.tail := by
  rw [lookup, run_tfsLookup h hv]
  rfl

theorem lookup_of_not_valid {name : Option CString} (hv : ¬ validPathname name = true) : lookup s name = -1 := by
  cases name with
  | none => rfl
  | some name =>
    rw [lookup, tfsLookup, if_neg hv]
    rfl

theorem run_tfsLookup_eq (s : State) {name : CString} (hv : validPathname (some name) = true) :
    (tfsLookup (some name)).run s = some (lookup s (some name), s) := by
  have hrun : ∃ r, (tfsLookup (some name)).run s = some (r, s) := by
    simp only [tfsLookup, if_pos hv, findInDir, mutexLock, unlock, Prog.run_bind, Prog.run_acquire, Prog.run_get,
      Prog.run_release, Prog.run_pure, Option.bind_some]
    exact ⟨_, rfl⟩
  obtain ⟨r, hr⟩ := hrun
  rw [lookup, hr]
  rfl

theorem run_addDirEntry {a : Nat} (h : dirBlock s rootDirInum = some a) {subInumber : Int}
    (hv : validInumber subInumber) {subName : CString} (hlen : subName.strlen ≠ 0) :
    (addDirEntry rootDirInum subInumber subName).run s =
      match fillDirEntry s.fsData a subInumber subName with
      | some m => some (0, s.setDisk { s.toDisk with fsData := m })
      | none => some (-1, s) := by
  simp only [addDirEntry, mutexLock, unlock, Prog.run_bind, Prog.run_acquire, Prog.run_atomic, Option.bind_some,
    hv, not_true_eq_false, hlen, or_self, if_false, h]
  cases fillDirEntry s.fsData a subInumber subName <;> rfl

theorem run_addFrom (inumber : Int) (offset n : Nat) (hn : n ≤ maxOpenFiles) :
    (addFrom inumber offset n).run s =
      match (List.range' (maxOpenFiles - n) n).find? fun i => s.freeOpenFileEntries i = .free with
      | some i => some ((i : Int), s.setFiles ((s.toOpenFiles.take i).setEntry i ⟨inumber, offset⟩))
      | none => some (-1, s) := by
  induction n with
  | zero => rfl
  | succ n ih =>
    have hnext : maxOpenFiles - (n + 1) + 1 = maxOpenFiles - n := by omega
    rw [List.range'_succ, hnext]
    simp only [addFrom, mutexLock, unlock, Prog.run_bind, Prog.run_acquire, Prog.run_atomic, Option.bind_some,
      List.find?_cons]
    by_cases hfree : s.freeOpenFileEntries (maxOpenFiles - (n + 1)) = .free
    · simp only [hfree, if_true, Option.bind_some, Prog.run_release, decide_true, Prog.run_pure]
    · simp only [hfree, if_false, Option.bind_some, Prog.run_release, Bool.false_eq_true, decide_false]
      exact ih (by omega)

theorem run_addToOpenFileTable (inumber : Int) (offset : Nat) :
    (addToOpenFileTable inumber offset).run s =
      some ((Tecnicofs.addToOpenFileTable s.toOpenFiles inumber offset).1,
        s.setFiles (Tecnicofs.addToOpenFileTable s.toOpenFiles inumber offset).2) := by
  have hrange : List.range' (maxOpenFiles - maxOpenFiles) maxOpenFiles = List.range maxOpenFiles := by
    rw [Nat.sub_self, List.range_eq_range']
  rw [addToOpenFileTable, run_addFrom inumber offset maxOpenFiles le_rfl, hrange, Tecnicofs.addToOpenFileTable, firstFree]
  cases (List.range maxOpenFiles).find? fun i => s.freeOpenFileEntries i = .free <;> rfl

theorem run_tfsClose (fhandle : Int) :
    (tfsClose fhandle).run s =
      some ((Tecnicofs.removeFromOpenFileTable s.toOpenFiles fhandle).1,
        s.setFiles (Tecnicofs.removeFromOpenFileTable s.toOpenFiles fhandle).2) := by
  simp [tfsClose, removeFromOpenFileTable, mutexLock, unlock]

theorem run_openExisting {i : Nat} {flags : Int}
    (ht : hasFlag flags tfsOTrunc = true → (s.inodeTable i).iSize = 0) :
    (openExisting i flags).run s =
      some (some (if hasFlag flags tfsOAppend then (s.inodeTable i).iSize else 0), s) := by
  have htrunc : (truncateIf flags i).run s = some (true, s) := by
    unfold truncateIf
    split
    · next h =>
      have hsize : ¬ (s.inodeTable i).iSize > 0 := by simp [ht h]
      simp only [truncate, unlock, Prog.run_bind, Prog.run_get, Option.bind_some, if_neg hsize, Prog.run_pure,
        Prog.run_release]
    · rfl
  simp only [openExisting, unlock, Prog.run_bind, htrunc, Option.bind_some, if_true, Prog.run_get, Prog.run_release,
    Prog.run_pure]

theorem run_tfsOpen_existing {a i : Nat} {name : CString} {flags : Int} (h : dirBlock s rootDirInum = some a)
    (hv : validPathname (some name) = true) (hl : findDirEntry s.fsData a name.tail = i) (hi : i < inodeTableSize)
    (ht : hasFlag flags tfsOTrunc = true → (s.inodeTable i).iSize = 0) :
    (tfsOpen (some name) flags).run s =
      (addToOpenFileTable i (if hasFlag flags tfsOAppend then (s.inodeTable i).iSize else 0)).run s := by
  have hge : (i : Int) ≥ 0 := by omega
  simp only [tfsOpen, if_pos hv, mutexLock, wrlock, unlock, Prog.run_bind, Prog.run_acquire, Option.bind_some,
    run_tfsLookup h hv, hl, if_pos hge, inodeGet_natCast hi, Prog.run_release, run_openExisting ht]

theorem strlen_tail_ne_zero {name : CString} (hv : validPathname (some name) = true) : name.tail.strlen ≠ 0 := by
  simp only [validPathname, Bool.and_eq_true, decide_eq_true_eq] at hv
  simp only [CString.strlen, CString.tail, List.length_tail] at hv ⊢
  omega

theorem dirBlock_newFile {a i : Nat} (h : dirBlock s rootDirInum = some a) (hi : i ≠ 0) :
    dirBlock (newFile s i) rootDirInum = some a := by
  have hsame : (newFile s i).inodeTable 0 = s.inodeTable 0 := by
    simp [newFile, State.setInode_inodeTable, Ne.symm hi]
  have hget : inodeGet rootDirInum = some 0 := rfl
  simp only [dirBlock, hget, hsame] at h ⊢
  exact h

theorem run_tfsOpen_new {a i : Nat} {m : Mem} {name : CString} {flags : Int} (h : dirBlock s rootDirInum = some a)
    (hv : validPathname (some name) = true) (hl : findDirEntry s.fsData a name.tail = -1)
    (hc : hasFlag flags tfsOCreat = true) (hfree : firstFree s.freeinodeTs inodeTableSize = some i) (hi : i ≠ 0)
    (hfill : fillDirEntry s.fsData a i name.tail = some m) :
    (tfsOpen (some name) flags).run s =
      (addToOpenFileTable i 0).run ((newFile s i).setDisk { s.toDisk with fsData := m }) := by
  have hlt : ¬ (-1 : Int) ≥ 0 := by omega
  have hne : ¬ (i : Int) = -1 := by omega
  have hadd := run_addDirEntry (dirBlock_newFile h hi) (validInumber_natCast (firstFree_eq_some.mp hfree).1)
    (strlen_tail_ne_zero hv)
  rw [show (newFile s i).fsData = s.fsData from rfl, hfill] at hadd
  have h0 : ¬ (0 : Int) = -1 := by omega
  simp only [tfsOpen, if_pos hv, mutexLock, unlock, Prog.run_bind, Prog.run_acquire, Option.bind_some,
    run_tfsLookup h hv, hl, if_neg hlt, hc, if_true, Prog.run_release, run_inodeCreate_some hfree, if_neg hne, hadd,
    if_neg h0]
  rfl

theorem call_open (name : Option CString) (flags : Int) :
    s.call (.open name flags) = ((tfsOpen name flags).run s).map fun y => (⟨y.1, []⟩, y.2) := by
  simp only [State.call, body, Prog.run_bind, Prog.run_pure]
  cases (tfsOpen name flags).run s <;> rfl

theorem call_close (fhandle : Int) :
    s.call (.close fhandle) = some (⟨(Tecnicofs.removeFromOpenFileTable s.toOpenFiles fhandle).1, []⟩,
      s.setFiles (Tecnicofs.removeFromOpenFileTable s.toOpenFiles fhandle).2) := by
  simp only [State.call, body, Prog.run_bind, run_tfsClose, Option.bind_some, Prog.run_pure]

end Tecnicofs.Ex1
