import Tecnicofs.Lib.Runs
import Tecnicofs.Storage.Directory

/-! What both file systems are for: names stand for byte strings, handles for a name and an offset. -/

namespace Tecnicofs

open Bytes

inductive Call
  | open (name : Option CString) (flags : Int)
  | close (fhandle : Int)
  | write (fhandle : Int) (buffer : List UInt8)
  | read (fhandle : Int) (len : Nat)

/-- A call's return value and, for `tfs_read`, the bytes it put in the caller's buffer. -/
structure Out where
  ret : Int
  data : List UInt8 := []
  deriving DecidableEq

structure ByteFs (N : Type) where
  names : List N
  contents : N → List UInt8
  handles : Nat → Option (N × Nat)

/-- How many files and handles there are, and how long a file may get. -/
structure Limits where
  maxFiles : Nat
  maxHandles : Nat
  maxSize : Option Nat

def Limits.clip (l : Limits) (o : Nat) (bytes : List UInt8) : List UInt8 :=
  match l.maxSize with
  | some size => bytes.take (size - o)
  | none => bytes

namespace ByteFs

variable {N : Type} [DecidableEq N]

def empty : ByteFs N := ⟨[], fun _ => [], fun _ => none⟩

def setContents (fs : ByteFs N) (n : N) (bytes : List UInt8) : ByteFs N :=
  { fs with contents := Function.update fs.contents n bytes }

def setHandle (fs : ByteFs N) (h : Nat) (x : Option (N × Nat)) : ByteFs N :=
  { fs with handles := Function.update fs.handles h x }

def create (fs : ByteFs N) (n : N) : ByteFs N :=
  ({ fs with names := fs.names ++ [n] } : ByteFs N).setContents n []

def openHandle (fs : ByteFs N) (l : Limits) (n : N) (o : Nat) : Int × ByteFs N :=
  match (List.range l.maxHandles).find? fun h => (fs.handles h).isNone with
  | some h => (h, fs.setHandle h (some (n, o)))
  | none => (-1, fs)

def openFile (fs : ByteFs N) (l : Limits) (name : Option N) (creat trunc append : Bool) : Int × ByteFs N :=
  match name with
  | none => (-1, fs)
  | some n =>
    if n ∈ fs.names then
      let fs := if trunc then fs.setContents n [] else fs
      fs.openHandle l n (if append then (fs.contents n).length else 0)
    else if creat ∧ fs.names.length < l.maxFiles then (fs.create n).openHandle l n 0
    else (-1, fs)

def close (fs : ByteFs N) (h : Nat) : Int × ByteFs N :=
  match fs.handles h with
  | some _ => (0, fs.setHandle h none)
  | none => (-1, fs)

def write (fs : ByteFs N) (l : Limits) (h : Nat) (buffer : List UInt8) : Int × ByteFs N :=
  match fs.handles h with
  | some (n, o) =>
    let bytes := l.clip o buffer
    (bytes.length,
      (fs.setContents n (overwrite (fs.contents n) o bytes)).setHandle h (some (n, o + bytes.length)))
  | none => (-1, fs)

def read (fs : ByteFs N) (h len : Nat) : Out × ByteFs N :=
  match fs.handles h with
  | some (n, o) =>
    let bytes := ((fs.contents n).drop o).take len
    (⟨bytes.length, bytes⟩, fs.setHandle h (some (n, o + bytes.length)))
  | none => (⟨-1, []⟩, fs)

def transfer (l : Limits) (fs : ByteFs N) : Call → Option (Out × ByteFs N)
  | .write fhandle buffer => let (r, fs) := fs.write l fhandle.toNat buffer; some (⟨r, []⟩, fs)
  | .read fhandle len => some (fs.read fhandle.toNat len)
  | .open _ _ | .close _ => none

section
variable {fs : ByteFs N} {n : N}

theorem setContents_self (fs : ByteFs N) (n : N) : fs.setContents n (fs.contents n) = fs := by
  simp [setContents]

omit [DecidableEq N] in
theorem setHandle_self {h : Nat} {x : Option (N × Nat)} (hx : fs.handles h = x) : fs.setHandle h x = fs := by
  simp [setHandle, ← hx]

theorem openFile_of_mem (l : Limits) (h : n ∈ fs.names) (creat append : Bool) :
    fs.openFile l (some n) creat false append =
      fs.openHandle l n (if append then (fs.contents n).length else 0) := by
  rw [openFile, if_pos h]
  rfl

theorem openFile_trunc (l : Limits) (h : n ∈ fs.names) (creat append : Bool) :
    fs.openFile l (some n) creat true append = (fs.setContents n []).openHandle l n 0 := by
  rw [openFile, if_pos h]
  simp [setContents]

theorem openFile_create {l : Limits} (h : n ∉ fs.names) (hl : fs.names.length < l.maxFiles) (trunc append : Bool) :
    fs.openFile l (some n) true trunc append = (fs.create n).openHandle l n 0 := by
  rw [openFile, if_neg h, if_pos ⟨rfl, hl⟩]

theorem openFile_refused {l : Limits} {creat : Bool} (h : n ∉ fs.names)
    (hl : creat → l.maxFiles ≤ fs.names.length) (trunc append : Bool) :
    fs.openFile l (some n) creat trunc append = (-1, fs) := by
  rw [openFile, if_neg h, if_neg fun hc => Nat.not_lt.mpr (hl hc.1) hc.2]

end

end ByteFs

def fileName (name : Option CString) : Option (List UInt8) :=
  match name with
  | some s => if validPathname name then some s.tail.bytes else none
  | none => none

def ByteFs.call (l : Limits) (fs : ByteFs (List UInt8)) : Call → Option (Out × ByteFs (List UInt8))
  | .open name flags =>
    let (r, fs) := fs.openFile l (fileName name) (hasFlag flags tfsOCreat) (hasFlag flags tfsOTrunc)
      (hasFlag flags tfsOAppend)
    some (⟨r, []⟩, fs)
  | .close fhandle => let (r, fs) := fs.close fhandle.toNat; some (⟨r, []⟩, fs)
  | .write fhandle buffer => let (r, fs) := fs.write l fhandle.toNat buffer; some (⟨r, []⟩, fs)
  | .read fhandle len => some (fs.read fhandle.toNat len)

end Tecnicofs
