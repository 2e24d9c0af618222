import Tecnicofs.Storage.Directory

namespace Tecnicofs

structure OpenFileEntry where
  ofInumber : Int
  ofOffset : Nat

structure OpenFiles where
  openFileTable : Nat → OpenFileEntry
  freeOpenFileEntries : Nat → AllocationState

namespace OpenFiles

def setEntry (f : OpenFiles) (i : Nat) (e : OpenFileEntry) : OpenFiles :=
  { f with openFileTable := Function.update f.openFileTable i e }

def setOffset (f : OpenFiles) (i : Nat) (offset : Nat) : OpenFiles :=
  f.setEntry i { f.openFileTable i with ofOffset := offset }

def take (f : OpenFiles) (i : Nat) : OpenFiles :=
  { f with freeOpenFileEntries := Function.update f.freeOpenFileEntries i .taken }

def release (f : OpenFiles) (i : Nat) : OpenFiles :=
  { f with freeOpenFileEntries := Function.update f.freeOpenFileEntries i .free }

def IsOpen (f : OpenFiles) (fhandle : Int) : Prop :=
  validFileHandle fhandle ∧ f.freeOpenFileEntries fhandle.toNat = .taken

instance (f : OpenFiles) (fhandle : Int) : Decidable (f.IsOpen fhandle) :=
  inferInstanceAs (Decidable (_ ∧ _))

@[simp] theorem setEntry_free (f : OpenFiles) (i : Nat) (e : OpenFileEntry) :
    (f.setEntry i e).freeOpenFileEntries = f.freeOpenFileEntries := rfl

@[simp] theorem setOffset_free (f : OpenFiles) (i o : Nat) :
    (f.setOffset i o).freeOpenFileEntries = f.freeOpenFileEntries := rfl

@[simp] theorem take_table (f : OpenFiles) (i : Nat) : (f.take i).openFileTable = f.openFileTable := rfl

@[simp] theorem release_table (f : OpenFiles) (i : Nat) :
    (f.release i).openFileTable = f.openFileTable := rfl

theorem setEntry_table (f : OpenFiles) (i : Nat) (e : OpenFileEntry) (j : Nat) :
    (f.setEntry i e).openFileTable j = if j = i then e else f.openFileTable j := Function.update_apply ..

theorem setOffset_table (f : OpenFiles) (i o : Nat) (j : Nat) :
    (f.setOffset i o).openFileTable j =
      if j = i then { f.openFileTable i with ofOffset := o } else f.openFileTable j :=
  Function.update_apply ..

theorem setOffset_self (f : OpenFiles) (i : Nat) : f.setOffset i (f.openFileTable i).ofOffset = f := by
  simp [setOffset, setEntry]

@[simp] theorem setOffset_ofInumber (f : OpenFiles) (i o : Nat) (j : Nat) :
    ((f.setOffset i o).openFileTable j).ofInumber = (f.openFileTable j).ofInumber := by
  rw [setOffset_table]
  split
  · next h => rw [h]
  · rfl

theorem take_free (f : OpenFiles) (i j : Nat) :
    (f.take i).freeOpenFileEntries j = if j = i then .taken else f.freeOpenFileEntries j :=
  Function.update_apply ..

theorem release_free (f : OpenFiles) (i j : Nat) :
    (f.release i).freeOpenFileEntries j = if j = i then .free else f.freeOpenFileEntries j :=
  Function.update_apply ..

theorem IsOpen.exists {f : OpenFiles} {fhandle : Int} (h : f.IsOpen fhandle) :
    ∃ i < maxOpenFiles, fhandle = (i : Nat) ∧ f.freeOpenFileEntries i = .taken := by
  obtain ⟨⟨h0, h1⟩, ht⟩ := h
  exact ⟨fhandle.toNat, by omega, by omega, ht⟩

theorem isOpen_natCast {f : OpenFiles} {i : Nat} :
    f.IsOpen i ↔ i < maxOpenFiles ∧ f.freeOpenFileEntries i = .taken := by
  have hv : validFileHandle (i : Int) ↔ i < maxOpenFiles := by
    simp only [validFileHandle, validIndex]
    omega
  rw [IsOpen, hv, Int.toNat_natCast]

end OpenFiles

def addToOpenFileTable (f : OpenFiles) (inumber : Int) (offset : Nat) : Int × OpenFiles :=
  match firstFree f.freeOpenFileEntries maxOpenFiles with
  | some i => (i, (f.take i).setEntry i ⟨inumber, offset⟩)
  | none => (-1, f)

theorem addToOpenFileTable_of_free {f : OpenFiles} (h : ∃ i < maxOpenFiles, f.freeOpenFileEntries i = .free)
    (inumber : Int) (offset : Nat) :
    (addToOpenFileTable f inumber offset).2.IsOpen (addToOpenFileTable f inumber offset).1 ∧
      (addToOpenFileTable f inumber offset).2.openFileTable (addToOpenFileTable f inumber offset).1.toNat =
        ⟨inumber, offset⟩ := by
  unfold addToOpenFileTable
  cases hf : firstFree f.freeOpenFileEntries maxOpenFiles with
  | none =>
    obtain ⟨i, hi, hfree⟩ := h
    exact absurd (hfree.symm.trans (firstFree_eq_none.mp hf i hi)) (by decide)
  | some i =>
    refine ⟨OpenFiles.isOpen_natCast.mpr ⟨(firstFree_eq_some.mp hf).1, ?_⟩, ?_⟩
    · rw [OpenFiles.setEntry_free, OpenFiles.take_free, if_pos rfl]
    · rw [Int.toNat_natCast, OpenFiles.setEntry_table, if_pos rfl]

def removeFromOpenFileTable (f : OpenFiles) (fhandle : Int) : Int × OpenFiles :=
  if ¬ validFileHandle fhandle ∨ f.freeOpenFileEntries fhandle.toNat ≠ .taken then (-1, f)
  else (0, f.release fhandle.toNat)

/-- The index of a handle's entry; `none` models the null pointer. -/
def getOpenFileEntry (fhandle : Int) : Option Nat :=
  if validFileHandle fhandle then some fhandle.toNat else none

theorem removeFromOpenFileTable_of_isOpen {f : OpenFiles} {fhandle : Int} (h : f.IsOpen fhandle) :
    removeFromOpenFileTable f fhandle = (0, f.release fhandle.toNat) := by
  simp [removeFromOpenFileTable, h.1, h.2]

theorem removeFromOpenFileTable_of_not {f : OpenFiles} {fhandle : Int} (h : ¬ f.IsOpen fhandle) :
    removeFromOpenFileTable f fhandle = (-1, f) := by
  unfold removeFromOpenFileTable
  rw [if_pos]
  exact not_and_or.mp h

theorem getOpenFileEntry_natCast {i : Nat} (h : i < maxOpenFiles) : getOpenFileEntry i = some i := by
  have hv : validFileHandle i := ⟨by omega, by exact_mod_cast h⟩
  simp [getOpenFileEntry, hv]

end Tecnicofs
