import Tecnicofs.Ex2.State
import Tecnicofs.Spec.ByteFs

/-! Project 2: `fs/operations.c`.  A call that copies outside `fs_data` has no result. -/

namespace Tecnicofs.Ex2

open Bytes

def tfsInit (s : State) : Int × State :=
  let s := { stateInit s with canOpenFiles := 1, openFiles := 0 }
  let (root, s) := inodeCreate s .directory
  if root ≠ rootDirInum then (-1, s) else (0, s)

def tfsLookupUnsynchronized (s : State) (name : Option CString) : Int :=
  match skipSlash name with
  | some subName => if validPathname name then findInDir s rootDirInum subName else -1
  | none => -1

def truncate (s : State) (inode : Nat) : Bool × State :=
  if (s.inodeTable inode).iSize > 0 then
    let (r, d) := dataBlockFree s.toDisk (s.inodeTable inode).iDataBlock
    if r = -1 then (false, s.setDisk d)
    else (true, (s.setDisk d).setInode inode { s.inodeTable inode with iSize := 0 })
  else (true, s)

def openHandle (s : State) (inum : Int) (offset : Nat) : Int × State :=
  let (r, f) := addToOpenFileTable s.toOpenFiles inum offset
  (r, s.setFiles f)

/-- There is no result when `name + 1` is not a string and is read as one. -/
def tfsOpenUnsynchronized (s : State) (name : Option CString) (flags : Int) : Option (Int × State) :=
  let inum := tfsLookupUnsynchronized s name
  if inum ≥ 0 then
    match inodeGet inum with
    | none => some (-1, s)
    | some inode =>
      let (ok, s) := if hasFlag flags tfsOTrunc then truncate s inode else (true, s)
      if ok then
        some (openHandle s inum (if hasFlag flags tfsOAppend then (s.inodeTable inode).iSize else 0))
      else some (-1, s)
  else if hasFlag flags tfsOCreat then
    let (inum, s) := inodeCreate s .file
    if inum = -1 then some (-1, s)
    else
      match skipSlash name with
      | none => none
      | some subName =>
        let (r, s) := addDirEntry s rootDirInum inum subName
        if r = -1 then some (-1, (inodeDelete s inum).2) else some (openHandle s inum 0)
  else some (-1, s)

theorem exists_tfsOpenUnsynchronized (s : State) {name : Option CString} (flags : Int) {subName : CString}
    (h : skipSlash name = some subName) : ∃ x, tfsOpenUnsynchronized s name flags = some x := by
  unfold tfsOpenUnsynchronized
  simp only [h]
  split
  · split
    · exact ⟨_, rfl⟩
    · split <;> split <;> exact ⟨_, rfl⟩
  · split
    · split
      · exact ⟨_, rfl⟩
      · split <;> exact ⟨_, rfl⟩
    · exact ⟨_, rfl⟩

/-- The critical section of `tfs_open`. -/
def tfsOpenLocked (s : State) (name : Option CString) (flags : Int) : Option (Int × State) :=
  (tfsOpenUnsynchronized s name flags).map fun (ret, s) =>
    (ret, if ret ≠ -1 then { s with openFiles := s.openFiles + 1 } else s)

def tfsOpen (s : State) (name : Option CString) (flags : Int) : Option (Int × State) :=
  if s.canOpenFiles = 0 then some (-1, s) else tfsOpenLocked s name flags

def tfsClose (s : State) (fhandle : Int) : Int × State :=
  let (r, f) := removeFromOpenFileTable s.toOpenFiles fhandle
  let s := s.setFiles f
  if r ≠ -1 then (r, { s with openFiles := s.openFiles - 1 }) else (r, s)

theorem tfsClose_of_isOpen {s : State} {fhandle : Int} (h : s.toOpenFiles.IsOpen fhandle) :
    tfsClose s fhandle =
      (0, { s.setFiles (s.toOpenFiles.release fhandle.toNat) with openFiles := s.openFiles - 1 }) := by
  rw [tfsClose, removeFromOpenFileTable_of_isOpen h]
  rfl

theorem tfsClose_of_not {s : State} {fhandle : Int} (h : ¬ s.toOpenFiles.IsOpen fhandle) :
    tfsClose s fhandle = (-1, s) := by
  rw [tfsClose, removeFromOpenFileTable_of_not h]
  rfl

/-- The i-node a write goes to, after a new block for an empty file. -/
def writeBlock (s : State) (inode : Nat) : State :=
  if (s.inodeTable inode).iSize = 0 then
    let (b, d) := dataBlockAlloc s.toDisk
    (s.setDisk d).setInode inode { s.inodeTable inode with iDataBlock := b }
  else s

def toWrite (len offset : Nat) : Nat := if szAdd len offset > blockSize then szSub blockSize offset else len

def toRead (iSize offset len : Nat) : Nat :=
  let available := szSub iSize offset
  if available > len then len else available

theorem toWrite_of_le {len offset : Nat} (h : len + offset < 2 ^ 64) (ho : offset ≤ blockSize) :
    toWrite len offset = min len (blockSize - offset) := by
  unfold toWrite
  rw [szAdd_of_lt h, szSub_of_le ho (by decide)]
  split <;> omega

theorem toWrite_fits {len offset b : Nat} (hpos : 0 < toWrite len offset)
    (hfit : b * blockSize + offset + toWrite len offset ≤ fsDataSize) :
    offset + toWrite len offset ≤ blockSize := by
  unfold toWrite at hpos hfit ⊢
  by_cases hgt : szAdd len offset > blockSize
  · rw [if_pos hgt] at hpos hfit ⊢
    simp only [szSub, blockSize, fsDataSize, dataBlocks] at *
    omega
  · rw [if_neg hgt] at hpos hfit ⊢
    simp only [szAdd, blockSize, fsDataSize, dataBlocks] at *
    omega

theorem toRead_of_le {iSize offset : Nat} (ho : offset ≤ iSize) (hs : iSize ≤ blockSize) (len : Nat) :
    toRead iSize offset len = min len (iSize - offset) := by
  unfold toRead
  rw [szSub_of_le ho (by simp only [blockSize] at hs; omega)]
  simp only
  split <;> omega

@[simp] theorem toRead_zero (iSize offset : Nat) : toRead iSize offset 0 = 0 := by
  unfold toRead
  simp only
  split <;> omega

def tfsWrite (s : State) (fhandle : Int) (buffer : List UInt8) : Option (Int × State) :=
  match getOpenFileEntry fhandle with
  | none => some (-1, s)
  | some file =>
    match inodeGet (s.openFileTable file).ofInumber with
    | none => some (-1, s)
    | some inode =>
      let offset := (s.openFileTable file).ofOffset
      let toWrite := toWrite buffer.length offset
      if toWrite > 0 then
        let s := writeBlock s inode
        match dataBlockGet (s.inodeTable inode).iDataBlock with
        | none => some (-1, s)
        | some block =>
          -- the copy reads `toWrite` bytes of the buffer
          if toWrite > buffer.length then none
          else
            (s.toDisk.store (block + offset) (buffer.take toWrite)).map fun d =>
              let offset := szAdd offset toWrite
              let s := (s.setDisk d).setFiles (s.toOpenFiles.setOffset file offset)
              let node := s.inodeTable inode
              (toWrite, if offset > node.iSize then s.setInode inode { node with iSize := offset } else s)
      else some (toWrite, s)

def tfsRead (s : State) (fhandle : Int) (len : Nat) : Option (Out × State) :=
  match getOpenFileEntry fhandle with
  | none => some (⟨-1, []⟩, s)
  | some file =>
    match inodeGet (s.openFileTable file).ofInumber with
    | none => some (⟨-1, []⟩, s)
    | some inode =>
      let offset := (s.openFileTable file).ofOffset
      let toRead := toRead (s.inodeTable inode).iSize offset len
      if toRead > 0 then
        match dataBlockGet (s.inodeTable inode).iDataBlock with
        | none => some (⟨-1, []⟩, s)
        | some block =>
          (s.toDisk.load (block + offset) toRead).map fun bytes =>
            (⟨toRead, bytes⟩, s.setFiles (s.toOpenFiles.setOffset file (szAdd offset toRead)))
      else some (⟨toRead, []⟩, s)

def State.call (s : State) : Call → Option (Out × State)
  | .open name flags => (tfsOpen s name flags).map fun x => (⟨x.1, []⟩, x.2)
  | .close fhandle => some (⟨(tfsClose s fhandle).1, []⟩, (tfsClose s fhandle).2)
  | .write fhandle buffer => (tfsWrite s fhandle buffer).map fun x => (⟨x.1, []⟩, x.2)
  | .read fhandle len => tfsRead s fhandle len

def State.init : State := (tfsInit .zero).2

end Tecnicofs.Ex2
