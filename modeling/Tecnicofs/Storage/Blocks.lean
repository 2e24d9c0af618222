import Mathlib.Data.Finset.Card
import Tecnicofs.Lib.Bytes

/-! Allocation tables and the data blocks of `state.c`, which both projects share. -/

namespace Tecnicofs

open Bytes

@[simp] def blockSize : Nat := 1024
@[simp] def dataBlocks : Nat := 1024
@[simp] def inodeTableSize : Nat := 50
@[simp] def maxOpenFiles : Nat := 20
@[simp] def maxFileName : Nat := 40
@[simp] def rootDirInum : Int := 0

@[simp] def fsDataSize : Nat := blockSize * dataBlocks

inductive AllocationState
  | free
  | taken
  deriving DecidableEq

def firstFree (t : Nat → AllocationState) (n : Nat) : Option Nat :=
  (List.range n).find? fun i => t i = .free

theorem firstFree_eq_some {t : Nat → AllocationState} {n i : Nat} :
    firstFree t n = some i ↔ i < n ∧ t i = .free ∧ ∀ j < i, t j = .taken := by
  have hne : ∀ j, (t j ≠ .free ↔ t j = .taken) := fun j => by cases t j <;> simp
  simp only [firstFree, List.find?_range_eq_some, List.mem_range, decide_eq_true_eq,
    Bool.not_eq_true', decide_eq_false_iff_not, hne]
  tauto

theorem firstFree_eq_none {t : Nat → AllocationState} {n : Nat} :
    firstFree t n = none ↔ ∀ i < n, t i = .taken := by
  have hne : ∀ j, (t j ≠ .free ↔ t j = .taken) := fun j => by cases t j <;> simp
  simp only [firstFree, List.find?_range_eq_none, Bool.not_eq_true', decide_eq_false_iff_not, hne]

theorem exists_free {t : Nat → AllocationState} {n k : Nat} (owner : Nat → Nat) (hk : k < n)
    (h : ∀ i < n, t i = .taken → ∃ j < k, owner j = i) : ∃ i < n, t i = .free := by
  by_contra hfull
  push Not at hfull
  have hsub : Finset.range n ⊆ (Finset.range k).image owner := by
    intro i hi
    have hi := Finset.mem_range.mp hi
    have ht : t i = .taken := by
      have := hfull i hi
      cases hc : t i <;> simp_all
    obtain ⟨j, hj, rfl⟩ := h i hi ht
    exact Finset.mem_image_of_mem _ (Finset.mem_range.mpr hj)
  have hcard := (Finset.card_le_card hsub).trans Finset.card_image_le
  simp only [Finset.card_range] at hcard
  omega

def validIndex (n : Nat) (i : Int) : Prop := 0 ≤ i ∧ i < n

instance (n : Nat) (i : Int) : Decidable (validIndex n i) := inferInstanceAs (Decidable (_ ∧ _))

def validInumber (inumber : Int) : Prop := validIndex inodeTableSize inumber
def validBlockNumber (blockNumber : Int) : Prop := validIndex dataBlocks blockNumber
def validFileHandle (fileHandle : Int) : Prop := validIndex maxOpenFiles fileHandle

instance (i : Int) : Decidable (validInumber i) := inferInstanceAs (Decidable (validIndex _ _))
instance (i : Int) : Decidable (validBlockNumber i) := inferInstanceAs (Decidable (validIndex _ _))
instance (i : Int) : Decidable (validFileHandle i) := inferInstanceAs (Decidable (validIndex _ _))

theorem validInumber_natCast {i : Nat} (h : i < inodeTableSize) : validInumber i := ⟨by omega, by exact_mod_cast h⟩

structure Disk where
  fsData : Mem
  freeBlocks : Nat → AllocationState

namespace Disk

def load (d : Disk) (a n : Nat) : Option (List UInt8) :=
  if a + n ≤ fsDataSize then some (d.fsData.load a n) else none

def store (d : Disk) (a : Nat) (bs : List UInt8) : Option Disk :=
  if a + bs.length ≤ fsDataSize then some { d with fsData := d.fsData.store a bs } else none

def take (d : Disk) (b : Nat) : Disk := { d with freeBlocks := Function.update d.freeBlocks b .taken }

def release (d : Disk) (b : Nat) : Disk := { d with freeBlocks := Function.update d.freeBlocks b .free }

@[simp] theorem take_fsData (d : Disk) (b : Nat) : (d.take b).fsData = d.fsData := rfl

@[simp] theorem release_fsData (d : Disk) (b : Nat) : (d.release b).fsData = d.fsData := rfl

theorem take_freeBlocks (d : Disk) (b c : Nat) :
    (d.take b).freeBlocks c = if c = b then .taken else d.freeBlocks c := Function.update_apply ..

theorem release_freeBlocks (d : Disk) (b c : Nat) :
    (d.release b).freeBlocks c = if c = b then .free else d.freeBlocks c := Function.update_apply ..

def freeCount (d : Disk) : Nat := ((Finset.range dataBlocks).filter fun b => d.freeBlocks b = .free).card

theorem freeCount_take {d : Disk} {b : Nat} (hb : b < dataBlocks) (hf : d.freeBlocks b = .free) :
    (d.take b).freeCount + 1 = d.freeCount := by
  have hmem : b ∈ (Finset.range dataBlocks).filter fun b => d.freeBlocks b = .free :=
    Finset.mem_filter.mpr ⟨Finset.mem_range.mpr hb, hf⟩
  have herase : ((Finset.range dataBlocks).filter fun c => (d.take b).freeBlocks c = .free) =
      ((Finset.range dataBlocks).filter fun c => d.freeBlocks c = .free).erase b := by
    ext c
    simp only [Finset.mem_filter, Finset.mem_erase, take_freeBlocks]
    by_cases hc : c = b <;> simp [hc]
  rw [freeCount, herase, freeCount, Finset.card_erase_add_one hmem]

theorem freeCount_eq_zero {d : Disk} : d.freeCount = 0 ↔ ∀ b < dataBlocks, d.freeBlocks b = .taken := by
  rw [freeCount, Finset.card_eq_zero, Finset.filter_eq_empty_iff]
  refine forall_congr' fun b => ?_
  rw [Finset.mem_range]
  cases d.freeBlocks b <;> simp

end Disk

def dataBlockAlloc (d : Disk) : Int × Disk :=
  match firstFree d.freeBlocks dataBlocks with
  | some i => (i, d.take i)
  | none => (-1, d)

def dataBlockFree (d : Disk) (blockNumber : Int) : Int × Disk :=
  if validBlockNumber blockNumber then (0, d.release blockNumber.toNat) else (-1, d)

def dataBlockGet (blockNumber : Int) : Option Nat :=
  if validBlockNumber blockNumber then some (blockNumber.toNat * blockSize) else none

theorem dataBlockAlloc_cases (d : Disk) :
    (∃ b < dataBlocks, d.freeBlocks b = .free ∧ dataBlockAlloc d = ((b : Int), d.take b)) ∨
    (∀ b < dataBlocks, d.freeBlocks b = .taken) ∧ dataBlockAlloc d = (-1, d) := by
  unfold dataBlockAlloc
  cases h : firstFree d.freeBlocks dataBlocks with
  | some b =>
    obtain ⟨hb, hf, -⟩ := firstFree_eq_some.mp h
    exact .inl ⟨b, hb, hf, rfl⟩
  | none => exact .inr ⟨firstFree_eq_none.mp h, rfl⟩

theorem dataBlockAlloc_count (d : Disk) :
    (∃ b < dataBlocks, d.freeBlocks b = .free ∧ dataBlockAlloc d = ((b : Int), d.take b) ∧
      (d.take b).freeCount + 1 = d.freeCount) ∨
    d.freeCount = 0 ∧ dataBlockAlloc d = (-1, d) := by
  rcases dataBlockAlloc_cases d with ⟨b, hb, hf, he⟩ | ⟨hf, he⟩
  · exact .inl ⟨b, hb, hf, he, Disk.freeCount_take hb hf⟩
  · exact .inr ⟨Disk.freeCount_eq_zero.mpr hf, he⟩

theorem dataBlockAlloc_of_some {d : Disk} {b : Nat} (h : firstFree d.freeBlocks dataBlocks = some b) :
    dataBlockAlloc d = ((b : Int), d.take b) := by
  unfold dataBlockAlloc
  rw [h]

theorem dataBlockAlloc_of_free {d : Disk} {b : Nat} (hb : b < dataBlocks) (hf : d.freeBlocks b = .free) :
    ∃ c, firstFree d.freeBlocks dataBlocks = some c ∧ dataBlockAlloc d = ((c : Int), d.take c) := by
  unfold dataBlockAlloc
  cases h : firstFree d.freeBlocks dataBlocks with
  | some c => exact ⟨c, rfl, rfl⟩
  | none => exact absurd (firstFree_eq_none.mp h b hb) (by simp [hf])

theorem dataBlockFree_of_lt (d : Disk) {b : Nat} (h : b < dataBlocks) :
    dataBlockFree d b = (0, d.release b) := by
  have hv : validBlockNumber b := ⟨by omega, by exact_mod_cast h⟩
  simp [dataBlockFree, hv]

theorem dataBlockGet_of_lt {b : Nat} (h : b < dataBlocks) : dataBlockGet b = some (b * blockSize) := by
  have hv : validBlockNumber b := ⟨by omega, by exact_mod_cast h⟩
  simp [dataBlockGet, hv]

theorem dataBlockGet_eq_some {b : Int} {a : Nat} (h : dataBlockGet b = some a) :
    ∃ c < dataBlocks, b = (c : Nat) ∧ a = c * blockSize := by
  unfold dataBlockGet at h
  split at h
  · next hv =>
    obtain ⟨h0, h1⟩ := hv
    exact ⟨b.toNat, by omega, by omega, by simpa using h.symm⟩
  · cases h

@[simp] theorem dataBlockGet_neg_one : dataBlockGet (-1) = none := rfl

end Tecnicofs
