import Tecnicofs.Lib.Prog
import Tecnicofs.Spec.ByteFs
import Tecnicofs.Storage.OpenFiles

/-! Project 1: `fs/state.c`, the tables, their locks and the functions on them. -/

namespace Tecnicofs.Ex1

open Bytes

@[simp] def blocks : Nat := 11
@[simp] def indirectAccessBlock : Nat := 10
@[simp] def indirectReferences : Nat := blockSize / 4

inductive InodeType
  | file
  | directory
  deriving DecidableEq

structure Inode where
  iNodeType : InodeType
  iSize : Nat
  iDataBlock : Nat → Int

def Inode.setBlock (x : Inode) (k : Nat) (b : Int) : Inode :=
  { x with iDataBlock := Function.update x.iDataBlock k b }

/-- The static variables of `state.c` that hold data. -/
structure State extends Disk, OpenFiles where
  inodeTable : Nat → Inode
  freeinodeTs : Nat → AllocationState

def State.zero : State where
  fsData _ := 0
  freeBlocks _ := .free
  openFileTable _ := ⟨0, 0⟩
  freeOpenFileEntries _ := .free
  inodeTable _ := ⟨.file, 0, fun _ => 0⟩
  freeinodeTs _ := .free

namespace State

def setInode (s : State) (i : Nat) (x : Inode) : State :=
  { s with inodeTable := Function.update s.inodeTable i x }

def setInodeState (s : State) (i : Nat) (a : AllocationState) : State :=
  { s with freeinodeTs := Function.update s.freeinodeTs i a }

def setDisk (s : State) (d : Disk) : State := { s with toDisk := d }

def setFiles (s : State) (f : OpenFiles) : State := { s with toOpenFiles := f }

section
variable (s : State) (i j : Nat) (x : Inode) (a : AllocationState) (d : Disk) (f : OpenFiles)

theorem setInode_inodeTable : (s.setInode i x).inodeTable j = if j = i then x else s.inodeTable j :=
  Function.update_apply ..

theorem setInodeState_freeinodeTs :
    (s.setInodeState i a).freeinodeTs j = if j = i then a else s.freeinodeTs j :=
  Function.update_apply ..

@[simp] theorem setInode_toDisk : (s.setInode i x).toDisk = s.toDisk := rfl
@[simp] theorem setInode_toOpenFiles : (s.setInode i x).toOpenFiles = s.toOpenFiles := rfl
@[simp] theorem setInode_freeinodeTs : (s.setInode i x).freeinodeTs = s.freeinodeTs := rfl
@[simp] theorem setInodeState_toDisk : (s.setInodeState i a).toDisk = s.toDisk := rfl
@[simp] theorem setInodeState_toOpenFiles : (s.setInodeState i a).toOpenFiles = s.toOpenFiles := rfl
@[simp] theorem setInodeState_inodeTable : (s.setInodeState i a).inodeTable = s.inodeTable := rfl
@[simp] theorem setDisk_toDisk : (s.setDisk d).toDisk = d := rfl
@[simp] theorem setDisk_toOpenFiles : (s.setDisk d).toOpenFiles = s.toOpenFiles := rfl
@[simp] theorem setDisk_inodeTable : (s.setDisk d).inodeTable = s.inodeTable := rfl
@[simp] theorem setDisk_freeinodeTs : (s.setDisk d).freeinodeTs = s.freeinodeTs := rfl
@[simp] theorem setFiles_toDisk : (s.setFiles f).toDisk = s.toDisk := rfl
@[simp] theorem setFiles_toOpenFiles : (s.setFiles f).toOpenFiles = f := rfl
@[simp] theorem setFiles_inodeTable : (s.setFiles f).inodeTable = s.inodeTable := rfl
@[simp] theorem setFiles_freeinodeTs : (s.setFiles f).freeinodeTs = s.freeinodeTs := rfl

end

end State

inductive Lock
  | inodeTable
  | openFileTable
  | blockTable
  | file (h : Nat)
  | rwl (i : Nat)
  deriving DecidableEq

def maxFileSize : Nat := (indirectAccessBlock + indirectReferences) * blockSize

/-- The actions that theorems make assumptions about: the search of `data_block_alloc`, the search of
`inode_create`, and the start of a write of `len` bytes. -/
inductive Label
  | alloc
  | inodeSearch
  | write (file len : Nat)

/-- What an action needs to go well: a free block, a free i-node, room in the file. -/
def Label.Succeeds : Label → State → Prop
  | alloc, s => ∃ b < dataBlocks, s.freeBlocks b = .free
  | inodeSearch, s => ∃ i < inodeTableSize, s.freeinodeTs i = .free
  | write file len, s => (s.openFileTable file).ofOffset + len ≤ maxFileSize

instance : ∀ l s, Decidable (Label.Succeeds l s)
  | .alloc, _ => inferInstanceAs (Decidable (∃ _ < _, _))
  | .inodeSearch, _ => inferInstanceAs (Decidable (∃ _ < _, _))
  | .write _ _, _ => inferInstanceAs (Decidable (_ ≤ _))

abbrev Program := Prog Lock Label State

/-- What the C code leaves undefined. -/
def undefined : Program α := Prog.atomic none fun _ => none

def mutexLock (l : Lock) : Program Unit := Prog.acquire l .exclusive

def wrlock (i : Nat) : Program Unit := Prog.acquire (.rwl i) .exclusive

def rdlock (i : Nat) : Program Unit := Prog.acquire (.rwl i) .shared

def unlock (l : Lock) : Program Unit := Prog.release l

def dataBlockAlloc : Program Int := do
  mutexLock .blockTable
  let b ← Prog.atomic (some .alloc) fun s =>
    let (b, d) := Tecnicofs.dataBlockAlloc s.toDisk
    some (b, s.setDisk d)
  unlock .blockTable
  return b

def dataBlockFree (blockNumber : Int) : Program Int := do
  mutexLock .blockTable
  let r ← Prog.atomic none fun s =>
    let (r, d) := Tecnicofs.dataBlockFree s.toDisk blockNumber
    some (r, s.setDisk d)
  unlock .blockTable
  return r

theorem run_dataBlockAlloc (s : State) : dataBlockAlloc.run s =
    some ((Tecnicofs.dataBlockAlloc s.toDisk).1, s.setDisk (Tecnicofs.dataBlockAlloc s.toDisk).2) := by
  simp [dataBlockAlloc, mutexLock, unlock]

theorem run_dataBlockFree (s : State) (b : Int) : (dataBlockFree b).run s =
    some ((Tecnicofs.dataBlockFree s.toDisk b).1, s.setDisk (Tecnicofs.dataBlockFree s.toDisk b).2) := by
  simp [dataBlockFree, mutexLock, unlock]

def loadReference (a j : Nat) : Program Int :=
  Prog.atomic none fun s => (s.toDisk.load (a + 4 * j) 4).map fun bs => (decodeInt bs, s)

def storeReference (a j : Nat) (b : Int) : Program Unit :=
  Prog.atomic none fun s => (s.toDisk.store (a + 4 * j) (encodeInt b)).map fun d => ((), s.setDisk d)

def setDataBlock (inode k : Nat) (b : Int) : Program Unit :=
  Prog.modify fun s => s.setInode inode ((s.inodeTable inode).setBlock k b)

def stateInit (s : State) : State :=
  { s with
    freeinodeTs := fun _ => .free
    freeBlocks := fun _ => .free
    freeOpenFileEntries := fun _ => .free }

/-- The i-node's index; `none` models the null pointer. -/
def inodeGet (inumber : Int) : Option Nat := if validInumber inumber then some inumber.toNat else none

theorem inodeGet_natCast {i : Nat} (hi : i < inodeTableSize) : inodeGet (i : Int) = some i := by
  simp [inodeGet, validInumber_natCast hi]

def initDirectory (inumber : Nat) : Program Bool := do
  let b ← dataBlockAlloc
  if b = -1 then return false
  else
    Prog.modify fun s =>
      s.setInode inumber ({ s.inodeTable inumber with iSize := blockSize }.setBlock 0 b)
    match dataBlockGet b with
    | none => return false
    | some dirEntry =>
      Prog.modify fun s => s.setDisk { s.toDisk with fsData := clearDirEntries s.fsData dirEntry }
      return true

def initFile (inumber : Nat) : Program Unit :=
  Prog.modify fun s => s.setInode inumber
    { s.inodeTable inumber with
      iSize := 0
      iDataBlock := fun k => if k < blocks then -1 else (s.inodeTable inumber).iDataBlock k }

/-- When the table is full, `inode_table_lock` stays locked. -/
def inodeCreate (nType : InodeType) : Program Int := do
  mutexLock .inodeTable
  let found ← Prog.atomic (some .inodeSearch) fun s =>
    match firstFree s.freeinodeTs inodeTableSize with
    | none => some (none, s)
    | some i =>
      some (some i, (s.setInodeState i .taken).setInode i { s.inodeTable i with iNodeType := nType })
  match found with
  | none => return -1
  | some inumber =>
    match nType with
    | .directory =>
      if ← initDirectory inumber then
        unlock .inodeTable
        return inumber
      else
        Prog.modify fun s => s.setInodeState inumber .free
        unlock .inodeTable
        return -1
    | .file =>
      initFile inumber
      unlock .inodeTable
      return inumber

/-- The loop that frees the direct blocks from entry `10 - n` on, up to the first that is -1. -/
def freeDirect (inode : Nat) : Nat → Program Bool
  | 0 => return true
  | n + 1 => do
    let k := indirectAccessBlock - (n + 1)
    let b ← Prog.get fun s => (s.inodeTable inode).iDataBlock k
    if b = -1 then return true
    else if (← dataBlockFree b) = -1 then return false
    else
      setDataBlock inode k (-1)
      freeDirect inode n

/-- The same for the entries of the indirect block at `a`; `atEnd` is what the loop does after the last one. -/
def freeIndirect (a : Nat) (atEnd : Program Unit) : Nat → Program Bool
  | 0 => do
    atEnd
    return true
  | n + 1 => do
    let j := indirectReferences - (n + 1)
    let b ← loadReference a j
    if b = -1 then return true
    else if (← dataBlockFree b) = -1 then return false
    else
      storeReference a j (-1)
      freeIndirect a atEnd n

/-- Frees the blocks of a file.  The entry of the indirect block itself is left as it is: only a local variable is
set to -1. -/
def freeBlocks (inode : Nat) (atEnd : Nat → Program Unit) : Program Bool := do
  if ← freeDirect inode indirectAccessBlock then
    let lastBlock ← Prog.get fun s => (s.inodeTable inode).iDataBlock indirectAccessBlock
    if lastBlock = -1 then return true
    else
      match dataBlockGet lastBlock with
      | none => return false
      | some bonusBlock =>
        if ← freeIndirect bonusBlock (atEnd bonusBlock) indirectReferences then
          return (← dataBlockFree lastBlock) ≠ -1
        else return false
  else return false

def deleteBlocks (inode : Nat) : Program Bool := do
  let x ← Prog.get fun s => s.inodeTable inode
  match x.iNodeType with
  | .directory =>
    if x.iDataBlock 0 = -1 then
      if (← dataBlockFree (-1)) = -1 then return false
      else
        setDataBlock inode 0 (-1)
        return true
    else return true
  | .file =>
    if x.iSize > 0 then
      -- `bonus_block[j] != -1` is tested before `j < INDIRECT_REFERENCES`
      freeBlocks inode fun bonusBlock => do
        let _ ← loadReference bonusBlock indirectReferences
    else return true

def inodeDelete (inumber : Int) : Program Int := do
  mutexLock .inodeTable
  let found ← Prog.atomic none fun s =>
    match inodeGet inumber with
    | none => some (none, s)
    | some i => some (if s.freeinodeTs i = .free then (none, s) else (some i, s.setInodeState i .free))
  match found with
  | none =>
    unlock .inodeTable
    return -1
  | some inode =>
    let ok ← deleteBlocks inode
    unlock .inodeTable
    return if ok then 0 else -1

def dirBlock (s : State) (inumber : Int) : Option Nat :=
  match inodeGet inumber with
  | none => none
  | some i =>
    if (s.inodeTable i).iNodeType ≠ .directory then none else dataBlockGet ((s.inodeTable i).iDataBlock 0)

def addDirEntry (inumber subInumber : Int) (subName : CString) : Program Int := do
  mutexLock .inodeTable
  let r ← Prog.atomic none fun s =>
    if ¬ validInumber subInumber ∨ subName.strlen = 0 then some (-1, s)
    else
      match dirBlock s inumber with
      | none => some (-1, s)
      | some a =>
        match fillDirEntry s.fsData a subInumber subName with
        | some m => some (0, s.setDisk { s.toDisk with fsData := m })
        | none => some (-1, s)
  unlock .inodeTable
  return r

def findInDir (inumber : Int) (subName : CString) : Program Int := do
  mutexLock .inodeTable
  let r ← Prog.get fun s =>
    match dirBlock s inumber with
    | none => -1
    | some a => findDirEntry s.fsData a subName
  unlock .inodeTable
  return r

/-- The loop of `add_to_open_file_table`, from entry `20 - n` on. -/
def addFrom (inumber : Int) (offset : Nat) : Nat → Program Int
  | 0 => return -1
  | n + 1 => do
    let i := maxOpenFiles - (n + 1)
    mutexLock (.file i)
    let isFree ← Prog.atomic none fun s =>
      some (if s.freeOpenFileEntries i = .free then
          (true, s.setFiles ((s.toOpenFiles.take i).setEntry i ⟨inumber, offset⟩))
        else (false, s))
    unlock (.file i)
    if isFree then return i else addFrom inumber offset n

def addToOpenFileTable (inumber : Int) (offset : Nat) : Program Int := addFrom inumber offset maxOpenFiles

def removeFromOpenFileTable (fhandle : Int) : Program Int := do
  mutexLock .openFileTable
  let r ← Prog.atomic none fun s =>
    let (r, f) := Tecnicofs.removeFromOpenFileTable s.toOpenFiles fhandle
    some (r, s.setFiles f)
  unlock .openFileTable
  return r

def getCurrentOffset (offset : Nat) : Nat :=
  if offset / blockSize < indirectAccessBlock then offset % blockSize
  else szSub offset (indirectAccessBlock * blockSize) % blockSize

def noReferences : List UInt8 := (List.replicate indirectReferences (encodeInt (-1))).flatten

def bonusBlockInit (inode : Nat) : Program Int := do
  let lastBlock ← dataBlockAlloc
  setDataBlock inode indirectAccessBlock lastBlock
  match dataBlockGet lastBlock with
  | none => undefined
  | some bonusBlock =>
    Prog.atomic none fun s =>
      (s.toDisk.store bonusBlock noReferences).map fun d => ((), s.setDisk d)
    return lastBlock

/-- The entry of `i_data_block`, which gets a new block when it is -1. -/
def directBlock (inode k : Nat) : Program (Option Nat) := do
  let b ← Prog.get fun s => (s.inodeTable inode).iDataBlock k
  if b = -1 then
    let b ← dataBlockAlloc
    setDataBlock inode k b
    return dataBlockGet b
  else return dataBlockGet b

/-- The entry `j` of the indirect block, which gets a new block when it is -1. -/
def indirectBlock (inode j : Nat) : Program (Option Nat) := do
  let b ← Prog.get fun s => (s.inodeTable inode).iDataBlock indirectAccessBlock
  match dataBlockGet b with
  | none => undefined
  | some a =>
    let b ← loadReference a j
    if b = -1 then
      let b ← dataBlockAlloc
      storeReference a j b
      return dataBlockGet b
    else return dataBlockGet b

/-- The indirect block exists; `false` when it is missing and cannot be made. -/
def needBonusBlock (inode : Nat) : Program Bool := do
  let b ← Prog.get fun s => (s.inodeTable inode).iDataBlock indirectAccessBlock
  if b = -1 then
    let b ← bonusBlockInit inode
    setDataBlock inode indirectAccessBlock b
    return b ≠ -1
  else return true

/-- The address of the block at the handle's offset; `none` models the null pointer. -/
def getCurrentDataBlock (inode file : Nat) : Program (Option Nat) := do
  let currentBlock ← Prog.get fun s => (s.openFileTable file).ofOffset / blockSize
  if currentBlock < indirectAccessBlock then directBlock inode currentBlock
  else if ← needBonusBlock inode then indirectBlock inode (currentBlock - indirectAccessBlock)
  else return none

end Tecnicofs.Ex1
