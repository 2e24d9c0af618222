import Tecnicofs.Ex1.State

/-! Project 1: `fs/operations.c`, with every lock and unlock. -/

namespace Tecnicofs.Ex1

open Bytes

@[simp] def bufferSize : Nat := 128

def tfsInit (s : State) : Option (Int × State) :=
  ((inodeCreate .directory).run (stateInit s)).map fun x => (if x.1 ≠ rootDirInum then -1 else 0, x.2)

def tfsLookup : Option CString → Program Int
  | none => return -1
  | some name =>
    if validPathname (some name) then findInDir rootDirInum name.tail else return -1

def truncateBlocks (inode : Nat) (x : Inode) : Program Bool :=
  match x.iNodeType with
  | .directory => do
    if x.iDataBlock 0 = -1 then
      let r ← dataBlockFree (-1)
      return r ≠ -1
    else return true
  | .file => freeBlocks inode fun _ => return ()

def truncate (inode : Nat) : Program Bool := do
  let x ← Prog.get fun s => s.inodeTable inode
  if x.iSize > 0 then
    if ← truncateBlocks inode x then
      Prog.modify fun s => s.setInode inode { s.inodeTable inode with iSize := 0 }
      return true
    else return false
  else return true

/-- The truncation, if requested; then the lock is given back, and `tfs_open` will give it back again. -/
def truncateIf (flags : Int) (inode : Nat) : Program Bool := do
  if hasFlag flags tfsOTrunc then
    let ok ← truncate inode
    unlock (.rwl inode)
    return ok
  else return true

/-- What `tfs_open` does with an existing file: the offset of the new handle, or nothing when it fails. -/
def openExisting (inode : Nat) (flags : Int) : Program (Option Nat) := do
  if ← truncateIf flags inode then
    let offset ← Prog.get fun s => if hasFlag flags tfsOAppend then (s.inodeTable inode).iSize else 0
    unlock (.rwl inode)
    return some offset
  else return none

def tfsOpen : Option CString → Int → Program Int
  | none, _ => return -1
  | some name, flags =>
    if validPathname (some name) then do
      mutexLock .inodeTable
      let inum ← tfsLookup (some name)
      if inum ≥ 0 then
        match inodeGet inum with
        | none =>
          unlock .inodeTable
          return -1
        | some inode =>
          wrlock inode
          unlock .inodeTable
          match ← openExisting inode flags with
          | none => return -1
          | some offset => addToOpenFileTable inum offset
      else if hasFlag flags tfsOCreat then
        unlock .inodeTable
        let inum ← inodeCreate .file
        if inum = -1 then return -1
        else if (← addDirEntry rootDirInum inum name.tail) = -1 then
          let _ ← inodeDelete inum
          return -1
        else addToOpenFileTable inum 0
      else
        unlock .inodeTable
        return -1
    else return -1

def tfsClose (fhandle : Int) : Program Int := removeFromOpenFileTable fhandle

def chunk (left currentOffset : Nat) : Nat :=
  if szAdd left currentOffset ≤ blockSize then left else blockSize - currentOffset

def writeChunk (inode file block currentOffset : Nat) (bytes : List UInt8) : Program Unit :=
  Prog.atomic none fun s => (s.toDisk.store (block + currentOffset) bytes).map fun d =>
    let s := (s.setDisk d).setFiles
      (s.toOpenFiles.setOffset file (szAdd (s.openFileTable file).ofOffset bytes.length))
    let x := s.inodeTable inode
    ((), s.setInode inode { x with iSize := szAdd x.iSize bytes.length })

/-- The loop of `tfs_write` on the bytes that are left; `false` when there is no block.  Every iteration copies a
byte at least, so as many iterations as bytes are enough. -/
def writeLoop (inode file : Nat) : Nat → List UInt8 → Program Bool
  | 0, _ => return true
  | fuel + 1, buffer => do
    if buffer = [] then return true
    else
      match ← getCurrentDataBlock inode file with
      | none => return false
      | some block =>
        let currentOffset ← Prog.get fun s => getCurrentOffset (s.openFileTable file).ofOffset
        let n := chunk buffer.length currentOffset
        writeChunk inode file block currentOffset (buffer.take n)
        writeLoop inode file fuel (buffer.drop n)

/-- The size after the loop of `tfs_write`, which has added every byte to it. -/
def fixSize (inode initialOffset initialSize bytesWritten : Nat) : Program Unit :=
  Prog.modify fun s =>
    if initialOffset ≠ initialSize then
      s.setInode inode { s.inodeTable inode with
        iSize := if szAdd bytesWritten initialOffset > initialSize then szAdd bytesWritten initialOffset
          else initialSize }
    else s

def tfsWrite (fhandle : Int) (buffer : List UInt8) : Program Int := do
  mutexLock .openFileTable
  match getOpenFileEntry fhandle with
  | none =>
    unlock .openFileTable
    return -1
  | some file =>
    mutexLock (.file file)
    unlock .openFileTable
    mutexLock .inodeTable
    let inumber ← Prog.get fun s => (s.openFileTable file).ofInumber
    match inodeGet inumber with
    | none =>
      unlock .inodeTable
      unlock (.file file)
      return -1
    | some inode =>
      wrlock inode
      unlock .inodeTable
      let initial ← Prog.atomic (some (.write file buffer.length)) fun s =>
        some (((s.openFileTable file).ofOffset, (s.inodeTable inode).iSize), s)
      if ← writeLoop inode file buffer.length buffer then
        fixSize inode initial.1 initial.2 buffer.length
        unlock (.file file)
        unlock (.rwl inode)
        return buffer.length
      else
        unlock (.rwl inode)
        unlock (.file file)
        return -1

def readChunk (file block currentOffset n : Nat) : Program (List UInt8) :=
  Prog.atomic none fun s => (s.toDisk.load (block + currentOffset) n).map fun bytes =>
    (bytes, s.setFiles (s.toOpenFiles.setOffset file (szAdd (s.openFileTable file).ofOffset n)))

def readLoop (inode file : Nat) : Nat → Nat → List UInt8 → Program (Bool × List UInt8)
  | 0, _, bytesRead => return (true, bytesRead)
  | fuel + 1, toRead, bytesRead => do
    if toRead = 0 then return (true, bytesRead)
    else
      let currentOffset ← Prog.get fun s => getCurrentOffset (s.openFileTable file).ofOffset
      match ← getCurrentDataBlock inode file with
      | none => return (false, bytesRead)
      | some block =>
        let n := chunk toRead currentOffset
        let bytes ← readChunk file block currentOffset n
        readLoop inode file fuel (toRead - n) (bytesRead ++ bytes)

/-- `file->file_lock` of the null pointer is undefined. -/
def tfsRead (fhandle : Int) (len : Nat) : Program Out := do
  mutexLock .openFileTable
  match getOpenFileEntry fhandle with
  | none => undefined
  | some file =>
    mutexLock (.file file)
    unlock .openFileTable
    mutexLock .inodeTable
    let inumber ← Prog.get fun s => (s.openFileTable file).ofInumber
    match inodeGet inumber with
    | none =>
      unlock (.file file)
      unlock .inodeTable
      return ⟨-1, []⟩
    | some inode =>
      rdlock inode
      unlock .inodeTable
      let available ← Prog.get fun s => szSub (s.inodeTable inode).iSize (s.openFileTable file).ofOffset
      let toRead := if available > len then len else available
      let result ← readLoop inode file toRead toRead []
      if result.1 then
        unlock (.file file)
        unlock (.rwl inode)
        return ⟨toRead, result.2⟩
      else
        unlock (.rwl inode)
        unlock (.file file)
        return ⟨-1, result.2⟩

/-- What the outside does: whether `fopen` succeeds, and how many bytes each `fwrite` accepts. -/
structure Dest where
  opens : Bool
  accepts : Nat → Nat

/-- The loop of `tfs_copy_to_external_fs` after `i` iterations, with what the destination holds.  The result of
`fwrite`, a `size_t`, is never equal to -1.  The model follows the loop for as many iterations as `fuel`. -/
def copyLoop (fhandle : Int) (dest : Dest) : Nat → Nat → List UInt8 → Program (Bool × List UInt8)
  | 0, _, _ => undefined
  | fuel + 1, i, written => do
    let r ← tfsRead fhandle bufferSize
    if r.ret = -1 then return (false, written)
    else
      let written := written ++ r.data.take (dest.accepts i)
      if r.ret = bufferSize then copyLoop fhandle dest fuel (i + 1) written else return (true, written)

/-- The bytes in the result are those the destination got. -/
def tfsCopyToExternalFs (sourcePath : Option CString) (dest : Dest) (fuel : Nat) : Program Out := do
  mutexLock .openFileTable
  let fhandle ← tfsOpen sourcePath 0
  if fhandle = -1 then
    unlock .openFileTable
    return ⟨-1, []⟩
  else
    match getOpenFileEntry fhandle with
    | none => undefined
    | some file =>
      mutexLock (.file file)
      unlock .openFileTable
      mutexLock .inodeTable
      let inumber ← Prog.get fun s => (s.openFileTable file).ofInumber
      match inodeGet inumber with
      | none =>
        unlock .inodeTable
        return ⟨-1, []⟩
      | some inode =>
        rdlock inode
        unlock .inodeTable
        if dest.opens then
          let result ← copyLoop fhandle dest fuel 0 []
          if result.1 then
            let _ ← tfsClose fhandle
            unlock (.rwl inode)
            unlock (.file file)
            return ⟨0, result.2⟩
          else
            unlock (.rwl inode)
            unlock (.file file)
            return ⟨-1, result.2⟩
        else
          unlock (.rwl inode)
          unlock (.file file)
          return ⟨-1, []⟩

def body : Call → Program Out
  | .open name flags => return ⟨← tfsOpen name flags, []⟩
  | .close fhandle => return ⟨← tfsClose fhandle, []⟩
  | .write fhandle buffer => return ⟨← tfsWrite fhandle buffer, []⟩
  | .read fhandle len => tfsRead fhandle len

def State.call (s : State) (c : Call) : Option (Out × State) := (body c).run s

/-- The state that `tfs_init` leaves; its allocations succeed. -/
def State.init : State := ((tfsInit .zero).getD (0, .zero)).2

theorem firstFree_zero {t : Nat → AllocationState} {n : Nat} (hn : 0 < n) (h : t 0 = .free) :
    firstFree t n = some 0 := firstFree_eq_some.mpr ⟨hn, h, fun _ hj => absurd hj (Nat.not_lt_zero _)⟩

theorem run_initDirectory {s : State} {b : Nat} (h : firstFree s.freeBlocks dataBlocks = some b) (i : Nat) :
    (initDirectory i).run s = some (true, ((s.setDisk (s.toDisk.take b)).setInode i
      ({ s.inodeTable i with iSize := blockSize }.setBlock 0 b)).setDisk
        { s.toDisk.take b with fsData := clearDirEntries s.fsData (b * blockSize) }) := by
  have hne : (b : Int) ≠ -1 := by omega
  simp only [initDirectory, Prog.run_bind, run_dataBlockAlloc, dataBlockAlloc_of_some h, Option.bind_some, if_neg hne,
    Prog.run_modify, dataBlockGet_of_lt (firstFree_eq_some.mp h).1, Prog.run_pure, State.setDisk_inodeTable,
    State.setInode_toDisk, State.setDisk_toDisk, Disk.take_fsData]

theorem State.init_eq : State.init =
    { State.zero with
      fsData := clearDirEntries (fun _ => 0) 0
      freeBlocks := Function.update (fun _ => .free) 0 .taken
      inodeTable := Function.update (fun _ => ⟨.file, 0, fun _ => 0⟩) 0 ⟨.directory, blockSize, fun _ => 0⟩
      freeinodeTs := Function.update (fun _ => .free) 0 .taken } := by
  have hinode : firstFree (stateInit .zero).freeinodeTs inodeTableSize = some 0 := firstFree_zero (by decide) rfl
  have hblock : firstFree (stateInit .zero).toDisk.freeBlocks dataBlocks = some 0 := firstFree_zero (by decide) rfl
  have hdir := run_initDirectory (s := ((stateInit .zero).setInodeState 0 .taken).setInode 0
    { (stateInit .zero).inodeTable 0 with iNodeType := .directory }) hblock 0
  simp only [State.init, tfsInit, inodeCreate, mutexLock, unlock, Prog.run_bind, Prog.run_acquire, Prog.run_atomic,
    hinode, Option.bind_some, hdir, if_true, Prog.run_release, Prog.run_pure, Option.map_some, Option.getD_some]
  simp [State.setInode, State.setInodeState, State.setDisk, Inode.setBlock, stateInit, State.zero, Disk.take]

end Tecnicofs.Ex1
