import Tecnicofs.Storage.OpenFiles

namespace Tecnicofs.Ex2

open Bytes

inductive InodeType
  | file
  | directory
  deriving DecidableEq

structure Inode where
  iNodeType : InodeType
  iSize : Nat
  iDataBlock : Int

/-- The static variables of `state.c`, and `can_open_files` and `open_files` of `operations.c`. -/
structure State extends Disk, OpenFiles where
  inodeTable : Nat → Inode
  freeinodeTs : Nat → AllocationState
  canOpenFiles : Int
  openFiles : Int

def State.zero : State where
  fsData _ := 0
  freeBlocks _ := .free
  openFileTable _ := ⟨0, 0⟩
  freeOpenFileEntries _ := .free
  inodeTable _ := ⟨.file, 0, 0⟩
  freeinodeTs _ := .free
  canOpenFiles := 1
  openFiles := 0

namespace State

def setInode (s : State) (i : Nat) (x : Inode) : State :=
  { s with inodeTable := Function.update s.inodeTable i x }

def setInodeState (s : State) (i : Nat) (a : AllocationState) : State :=
  { s with freeinodeTs := Function.update s.freeinodeTs i a }

def setDisk (s : State) (d : Disk) : State := { s with toDisk := d }

def setFiles (s : State) (f : OpenFiles) : State := { s with toOpenFiles := f }

def setData (s : State) (m : Mem) : State := { s with fsData := m }

@[simp] theorem setData_self (s : State) : s.setData s.fsData = s := rfl

@[simp] theorem setData_fsData (s : State) (m : Mem) : (s.setData m).fsData = m := rfl

@[simp] theorem setData_freeBlocks (s : State) (m : Mem) : (s.setData m).freeBlocks = s.freeBlocks := rfl

@[simp] theorem setData_inodeTable (s : State) (m : Mem) : (s.setData m).inodeTable = s.inodeTable := rfl

@[simp] theorem setData_toOpenFiles (s : State) (m : Mem) : (s.setData m).toOpenFiles = s.toOpenFiles := rfl

section
variable (s : State) (i j : Nat) (x : Inode) (a : AllocationState) (d : Disk) (f : OpenFiles)

theorem setInode_inodeTable : (s.setInode i x).inodeTable j = if j = i then x else s.inodeTable j :=
  Function.update_apply ..

theorem setInodeState_freeinodeTs :
    (s.setInodeState i a).freeinodeTs j = if j = i then a else s.freeinodeTs j :=
  Function.update_apply ..

@[simp] theorem setInode_setInode (y : Inode) : (s.setInode i x).setInode i y = s.setInode i y := by
  simp [setInode]

@[simp] theorem setInode_toDisk : (s.setInode i x).toDisk = s.toDisk := rfl
@[simp] theorem setInode_toOpenFiles : (s.setInode i x).toOpenFiles = s.toOpenFiles := rfl
@[simp] theorem setInode_freeinodeTs : (s.setInode i x).freeinodeTs = s.freeinodeTs := rfl
@[simp] theorem setInode_canOpenFiles : (s.setInode i x).canOpenFiles = s.canOpenFiles := rfl
@[simp] theorem setInode_openFiles : (s.setInode i x).openFiles = s.openFiles := rfl
@[simp] theorem setInodeState_toDisk : (s.setInodeState i a).toDisk = s.toDisk := rfl
@[simp] theorem setInodeState_toOpenFiles : (s.setInodeState i a).toOpenFiles = s.toOpenFiles := rfl
@[simp] theorem setInodeState_inodeTable : (s.setInodeState i a).inodeTable = s.inodeTable := rfl
@[simp] theorem setInodeState_canOpenFiles : (s.setInodeState i a).canOpenFiles = s.canOpenFiles := rfl
@[simp] theorem setInodeState_openFiles : (s.setInodeState i a).openFiles = s.openFiles := rfl
@[simp] theorem setDisk_toDisk : (s.setDisk d).toDisk = d := rfl
@[simp] theorem setDisk_toOpenFiles : (s.setDisk d).toOpenFiles = s.toOpenFiles := rfl
@[simp] theorem setDisk_inodeTable : (s.setDisk d).inodeTable = s.inodeTable := rfl
@[simp] theorem setDisk_freeinodeTs : (s.setDisk d).freeinodeTs = s.freeinodeTs := rfl
@[simp] theorem setDisk_canOpenFiles : (s.setDisk d).canOpenFiles = s.canOpenFiles := rfl
@[simp] theorem setDisk_openFiles : (s.setDisk d).openFiles = s.openFiles := rfl
@[simp] theorem setFiles_toDisk : (s.setFiles f).toDisk = s.toDisk := rfl
@[simp] theorem setFiles_toOpenFiles : (s.setFiles f).toOpenFiles = f := rfl
@[simp] theorem setFiles_inodeTable : (s.setFiles f).inodeTable = s.inodeTable := rfl
@[simp] theorem setFiles_freeinodeTs : (s.setFiles f).freeinodeTs = s.freeinodeTs := rfl
@[simp] theorem setFiles_canOpenFiles : (s.setFiles f).canOpenFiles = s.canOpenFiles := rfl
@[simp] theorem setFiles_openFiles : (s.setFiles f).openFiles = s.openFiles := rfl

end

end State

def stateInit (s : State) : State :=
  { s with
    freeinodeTs := fun _ => .free
    freeBlocks := fun _ => .free
    freeOpenFileEntries := fun _ => .free }

def inodeCreate (s : State) (nType : InodeType) : Int × State :=
  match firstFree s.freeinodeTs inodeTableSize with
  | none => (-1, s)
  | some inumber =>
    let s := s.setInodeState inumber .taken
    let s := s.setInode inumber { s.inodeTable inumber with iNodeType := nType }
    match nType with
    | .directory =>
      let (b, d) := dataBlockAlloc s.toDisk
      if b = -1 then (-1, s.setInodeState inumber .free)
      else
        let s := (s.setDisk d).setInode inumber ⟨nType, blockSize, b⟩
        match dataBlockGet b with
        | none => (-1, s.setInodeState inumber .free)
        | some a => (inumber, s.setDisk { s.toDisk with fsData := clearDirEntries s.fsData a })
    | .file => (inumber, s.setInode inumber ⟨nType, 0, -1⟩)

def inodeDelete (s : State) (inumber : Int) : Int × State :=
  if ¬ validInumber inumber ∨ s.freeinodeTs inumber.toNat = .free then (-1, s)
  else
    let s := s.setInodeState inumber.toNat .free
    if (s.inodeTable inumber.toNat).iSize > 0 then
      let (r, d) := dataBlockFree s.toDisk (s.inodeTable inumber.toNat).iDataBlock
      (r, s.setDisk d)
    else (0, s)

/-- The index of an i-node; `none` models the null pointer. -/
def inodeGet (inumber : Int) : Option Nat :=
  if validInumber inumber then some inumber.toNat else none

def addDirEntry (s : State) (inumber subInumber : Int) (subName : CString) : Int × State :=
  if ¬ validInumber inumber ∨ ¬ validInumber subInumber then (-1, s)
  else if (s.inodeTable inumber.toNat).iNodeType ≠ .directory then (-1, s)
  else if subName.strlen = 0 then (-1, s)
  else
    match dataBlockGet (s.inodeTable inumber.toNat).iDataBlock with
    | none => (-1, s)
    | some dirEntry =>
      match fillDirEntry s.fsData dirEntry subInumber subName with
      | some m => (0, s.setDisk { s.toDisk with fsData := m })
      | none => (-1, s)

def findInDir (s : State) (inumber : Int) (subName : CString) : Int :=
  if ¬ validInumber inumber ∨ (s.inodeTable inumber.toNat).iNodeType ≠ .directory then -1
  else
    match dataBlockGet (s.inodeTable inumber.toNat).iDataBlock with
    | none => -1
    | some dirEntry => findDirEntry s.fsData dirEntry subName

theorem inodeGet_natCast {i : Nat} (h : i < inodeTableSize) : inodeGet i = some i := by
  have hv : validInumber i := ⟨by omega, by exact_mod_cast h⟩
  simp [inodeGet, hv]

theorem inodeGet_eq_some {inumber : Int} {i : Nat} (h : inodeGet inumber = some i) :
    inumber = i ∧ i < inodeTableSize := by
  unfold inodeGet at h
  split at h
  · next hv =>
    obtain ⟨h0, h1⟩ := hv
    cases h
    omega
  · cases h

end Tecnicofs.Ex2
