import Tecnicofs.Storage.Blocks

namespace Tecnicofs

open Bytes

/-- `sizeof(dir_entry_t)`: a name field and an `int`. -/
@[simp] def dirEntrySize : Nat := maxFileName + 4

@[simp] def maxDirEntries : Nat := blockSize / dirEntrySize

def dName (m : Mem) (a i : Nat) : Nat → UInt8 := fun j => m (a + i * dirEntrySize + j)

def dInumber (m : Mem) (a i : Nat) : Int := m.loadInt (a + i * dirEntrySize + maxFileName)

def setDInumber (m : Mem) (a i : Nat) (inumber : Int) : Mem :=
  m.storeInt (a + i * dirEntrySize + maxFileName) inumber

def clearDirEntries (m : Mem) (a : Nat) : Mem :=
  (List.range maxDirEntries).foldl (fun m i => setDInumber m a i (-1)) m

def findDirEntry (m : Mem) (a : Nat) (subName : CString) : Int :=
  match (List.range maxDirEntries).find? fun i =>
    dInumber m a i ≠ -1 && strncmpEq (dName m a i) subName.char maxFileName with
  | some i => dInumber m a i
  | none => -1

/-- `strncpy` of at most `MAX_FILE_NAME - 1` bytes of the name, and the final zero. -/
def setDName (m : Mem) (a i : Nat) (subName : CString) : Mem :=
  let m := m.store (a + i * dirEntrySize) (strncpy subName (maxFileName - 1))
  m.store (a + i * dirEntrySize + (maxFileName - 1)) [0]

def fillDirEntry (m : Mem) (a : Nat) (subInumber : Int) (subName : CString) : Option Mem :=
  match (List.range maxDirEntries).find? fun i => dInumber m a i = -1 with
  | some i => some (setDName (setDInumber m a i subInumber) a i subName)
  | none => none

/-- An occupied entry: a stored name is a string shorter than its field. -/
structure DirEntry where
  name : List UInt8
  inumber : Int
  noNul : 0 ∉ name
  short : name.length < maxFileName
  used : IsInt inumber ∧ inumber ≠ -1

def DirEntry.ofName (subName : CString) (inumber : Int) (h : IsInt inumber ∧ inumber ≠ -1) : DirEntry where
  name := subName.bytes.take (maxFileName - 1)
  inumber := inumber
  noNul h := subName.noNul (List.mem_of_mem_take h)
  short := by simp
  used := h

/-- The block at `a` holds the entries `es`, in order, and is empty after them. -/
structure DirHolds (m : Mem) (a : Nat) (es : List DirEntry) : Prop where
  length_le : es.length ≤ maxDirEntries
  inumber : ∀ i (h : i < es.length), dInumber m a i = es[i].inumber
  name : ∀ i (h : i < es.length), ∀ j < maxFileName, dName m a i j = es[i].name.getD j 0
  empty : ∀ i, es.length ≤ i → i < maxDirEntries → dInumber m a i = -1

def lookupEntry (es : List DirEntry) (subName : CString) : Int :=
  match es.find? fun e => e.name = subName.bytes with
  | some e => e.inumber
  | none => -1

theorem DirHolds.lt_length {m : Mem} {a : Nat} {es : List DirEntry} (h : DirHolds m a es) {i : Nat}
    (hi : i < maxDirEntries) (hne : dInumber m a i ≠ -1) : i < es.length := by
  by_contra hge
  exact hne (h.empty i (by omega) hi)

theorem DirHolds.congr {m m' : Mem} {a : Nat} {es : List DirEntry} (h : DirHolds m a es)
    (hm : ∀ x, a ≤ x → x < a + blockSize → m' x = m x) : DirHolds m' a es := by
  have hi : ∀ i < maxDirEntries, dInumber m' a i = dInumber m a i := by
    intro i hi
    apply Mem.loadInt_congr
    intro j hj
    simp at hi ⊢
    exact hm _ (by omega) (by simp; omega)
  have hn : ∀ i < maxDirEntries, ∀ j < maxFileName, dName m' a i j = dName m a i j := by
    intro i hi j hj
    simp at hi hj ⊢
    exact hm _ (by omega) (by simp; omega)
  have hl := h.length_le
  exact {
    length_le := hl
    inumber := fun i hlt => (hi i (by omega)).trans (h.inumber i hlt)
    name := fun i hlt j hj => (hn i (by omega) j hj).trans (h.name i hlt j hj)
    empty := fun i hle hlt => (hi i hlt).trans (h.empty i hle hlt) }

theorem DirHolds.strncmpEq_iff {m : Mem} {a : Nat} {es : List DirEntry} (h : DirHolds m a es)
    (subName : CString) {i : Nat} (hi : i < es.length) :
    strncmpEq (dName m a i) subName.char maxFileName = true ↔ es[i].name = subName.bytes := by
  have hs := es[i].short
  have hc := strncmpEq_congr (g := subName.char) (h.name i hi) fun _ _ => rfl
  have hiff := Bytes.strncmpEq_iff es[i].noNul subName.noNul maxFileName
  rw [hc]
  refine hiff.trans ⟨fun he => ?_, fun he => by rw [he]⟩
  have hlen := congrArg List.length he
  simp only [maxFileName, List.length_take] at hlen hs he
  rwa [List.take_of_length_le (by omega), List.take_of_length_le (by omega)] at he

theorem DirHolds.name_eq {m : Mem} {a : Nat} {es : List DirEntry} (h : DirHolds m a es) {i k : Nat} (hi : i < es.length)
    (hk : k < es.length) (he : strncmpEq (dName m a i) (dName m a k) maxFileName = true) : es[i].name = es[k].name := by
  refine (h.strncmpEq_iff ⟨es[k].name, es[k].noNul⟩ hi).mp ?_
  rwa [strncmpEq_congr (fun _ _ => rfl) (h.name k hk)] at he

theorem find?_range_of_getElem {α : Type} {p : Nat → Bool} {q : α → Bool} {l : List α} {n : Nat}
    (hn : l.length ≤ n) (hp : ∀ i (h : i < l.length), p i = q l[i])
    (hq : ∀ i, l.length ≤ i → i < n → p i = false) :
    (List.range n).find? p = l.findIdx? q := by
  cases h : l.findIdx? q with
  | none =>
    rw [List.find?_range_eq_none]
    rw [List.findIdx?_eq_none_iff] at h
    intro i hi
    by_cases hl : i < l.length
    · simp [hp i hl, h _ (List.getElem_mem hl)]
    · simp [hq i (by omega) hi]
  | some i =>
    obtain ⟨hi, hqi, hlt⟩ := List.findIdx?_eq_some_iff_getElem.mp h
    rw [List.find?_range_eq_some]
    refine ⟨by rw [hp i hi, hqi], by simp; omega, fun j hj => ?_⟩
    simpa [hp j (by omega)] using hlt j hj

theorem DirHolds.find {m : Mem} {a : Nat} {es : List DirEntry} (h : DirHolds m a es) (subName : CString) :
    findDirEntry m a subName = lookupEntry es subName := by
  have hf : ((List.range maxDirEntries).find? fun i =>
      dInumber m a i ≠ -1 && strncmpEq (dName m a i) subName.char maxFileName) =
      es.findIdx? fun e => e.name = subName.bytes := by
    apply find?_range_of_getElem h.length_le
    · intro i hi
      have hu := es[i].used.2
      have hiff := h.strncmpEq_iff subName hi
      rw [Bool.eq_iff_iff, Bool.and_eq_true, hiff]
      simp [h.inumber i hi, hu]
    · intro i hl hi
      simp [h.empty i hl hi]
  unfold findDirEntry lookupEntry
  rw [hf, List.find?_eq_bind_findIdx?_getElem?]
  cases hi : es.findIdx? fun e => e.name = subName.bytes with
  | none => rfl
  | some i =>
    obtain ⟨hlt, -, -⟩ := List.findIdx?_eq_some_iff_getElem.mp hi
    simp [hlt, h.inumber i hlt]

theorem lookupEntry_cases (es : List DirEntry) (subName : CString) :
    (∃ i, ∃ h : i < es.length, es[i].name = subName.bytes ∧ lookupEntry es subName = es[i].inumber) ∨
      (∀ e ∈ es, e.name ≠ subName.bytes) ∧ lookupEntry es subName = -1 := by
  unfold lookupEntry
  cases hf : es.find? fun e => e.name = subName.bytes with
  | some e =>
    obtain ⟨hp, i, hi, rfl, -⟩ := List.find?_eq_some_iff_getElem.mp hf
    exact .inl ⟨i, hi, by simpa using hp, rfl⟩
  | none => exact .inr ⟨by simpa using hf, rfl⟩

theorem setDInumber_of_notMem (m : Mem) {a i x : Nat} (v : Int)
    (h : x < a + i * dirEntrySize + maxFileName ∨ a + (i + 1) * dirEntrySize ≤ x) :
    setDInumber m a i v x = m x := Mem.storeInt_of_notMem m v (by simp at *; omega)

theorem setDName_of_notMem (m : Mem) {a i x : Nat} (subName : CString)
    (h : x < a + i * dirEntrySize ∨ a + i * dirEntrySize + maxFileName ≤ x) :
    setDName m a i subName x = m x := by
  unfold setDName
  rw [Mem.store_of_notMem _ (by simp at *; omega), Mem.store_of_notMem _ (by simp at *; omega)]

theorem dInumber_setDInumber (m : Mem) (a i : Nat) {v : Int} (h : IsInt v) :
    dInumber (setDInumber m a i v) a i = v := Mem.loadInt_storeInt_self _ _ h

theorem dInumber_setDInumber_of_ne (m : Mem) (a : Nat) {i k : Nat} (v : Int) (h : k ≠ i) :
    dInumber (setDInumber m a i v) a k = dInumber m a k :=
  Mem.loadInt_storeInt_disjoint m v (by simp; omega)

theorem dInumber_setDName (m : Mem) (a i k : Nat) (subName : CString) :
    dInumber (setDName m a i subName) a k = dInumber m a k := by
  apply Mem.loadInt_congr
  intro j hj
  exact setDName_of_notMem m subName (by simp; omega)

theorem dName_setDName (m : Mem) (a i : Nat) (subName : CString) {j : Nat} (hj : j < maxFileName) :
    dName (setDName m a i subName) a i j = (subName.bytes.take (maxFileName - 1)).getD j 0 := by
  unfold dName setDName
  by_cases h : j < maxFileName - 1
  · rw [Mem.store_of_notMem _ (by omega), Mem.store_of_mem _ (by omega) (by simp at *; omega)]
    rw [show a + i * dirEntrySize + j - (a + i * dirEntrySize) = j by omega, getD_strncpy _ h]
    rw [CString.char, List.getD, List.getD, List.getElem?_take_of_lt h]
  · have hl : j = maxFileName - 1 := by omega
    subst hl
    rw [Mem.store_of_mem _ (by omega) (by simp)]
    simp [List.getD]

theorem dName_setDName_of_ne (m : Mem) (a : Nat) {i k : Nat} (subName : CString) (h : k ≠ i) {j : Nat}
    (hj : j < maxFileName) : dName (setDName m a i subName) a k j = dName m a k j :=
  setDName_of_notMem m subName (by simp at *; omega)

theorem dName_setDInumber (m : Mem) (a i k : Nat) (v : Int) {j : Nat} (hj : j < maxFileName) :
    dName (setDInumber m a i v) a k j = dName m a k j :=
  setDInumber_of_notMem m v (by simp at *; omega)

theorem DirHolds.fill {m : Mem} {a : Nat} {es : List DirEntry} (h : DirHolds m a es)
    {subInumber : Int} (hsub : IsInt subInumber ∧ subInumber ≠ -1) (subName : CString)
    (hl : es.length < maxDirEntries) :
    ∃ m', fillDirEntry m a subInumber subName = some m' ∧
      DirHolds m' a (es ++ [.ofName subName subInumber hsub]) ∧
      ∀ x, x < a ∨ a + blockSize ≤ x → m' x = m x := by
  have hf : ((List.range maxDirEntries).find? fun i => dInumber m a i = -1) = some es.length := by
    rw [List.find?_range_eq_some]
    refine ⟨by simp [h.empty _ le_rfl hl], by simpa using hl, fun j hj => ?_⟩
    have hu := es[j].used.2
    simp [h.inumber j hj, hu]
  have hi : ∀ i, i ≠ es.length → dInumber (setDName (setDInumber m a es.length subInumber) a es.length
      subName) a i = dInumber m a i := by
    intro i hne
    rw [dInumber_setDName, dInumber_setDInumber_of_ne _ _ _ hne]
  refine ⟨setDName (setDInumber m a es.length subInumber) a es.length subName, ?_, ?_, ?_⟩
  · unfold fillDirEntry
    rw [hf]
  · constructor
    · rw [List.length_append, List.length_singleton]
      exact hl
    · intro i hlt
      by_cases hne : i = es.length
      · subst hne
        simp [dInumber_setDName, dInumber_setDInumber _ _ _ hsub.1, DirEntry.ofName]
      · have hlt' : i < es.length := by simp at hlt; omega
        rw [hi i hne, h.inumber i hlt', List.getElem_append_left hlt']
    · intro i hlt j hj
      by_cases hne : i = es.length
      · subst hne
        simp [dName_setDName _ _ _ _ hj, DirEntry.ofName]
      · have hlt' : i < es.length := by simp at hlt; omega
        rw [dName_setDName_of_ne _ _ _ hne hj, dName_setDInumber _ _ _ _ _ hj, h.name i hlt' j hj,
          List.getElem_append_left hlt']
    · intro i hle hlt
      rw [List.length_append, List.length_singleton] at hle
      rw [hi i (by omega)]
      exact h.empty i (by omega) hlt
  · intro x hx
    rw [setDName_of_notMem _ _ (by simp at *; omega), setDInumber_of_notMem _ _ (by simp at *; omega)]

theorem DirHolds.fill_full {m : Mem} {a : Nat} {es : List DirEntry} (h : DirHolds m a es)
    (subInumber : Int) (subName : CString) (hl : es.length = maxDirEntries) :
    fillDirEntry m a subInumber subName = none := by
  have hf : ((List.range maxDirEntries).find? fun i => dInumber m a i = -1) = none := by
    rw [List.find?_range_eq_none]
    intro i hi
    have hu := es[i].used.2
    simp [h.inumber i (by omega), hu]
  unfold fillDirEntry
  rw [hf]

theorem fillDirEntry_eq_some {m m' : Mem} {a : Nat} {subInumber : Int} {subName : CString}
    (h : fillDirEntry m a subInumber subName = some m') (hsub : IsInt subInumber) :
    (∃ i, ∀ k < maxDirEntries, dInumber m' a k = if k = i then subInumber else dInumber m a k) ∧
      ∀ x, x < a ∨ a + blockSize ≤ x → m' x = m x := by
  unfold fillDirEntry at h
  split at h
  · next i hi =>
    cases h
    have hlt : i < maxDirEntries := List.mem_range.mp (List.mem_of_find?_eq_some hi)
    refine ⟨⟨i, fun k _ => ?_⟩, fun x hx => ?_⟩
    · rw [dInumber_setDName]
      split
      · next hk => rw [hk, dInumber_setDInumber _ _ _ hsub]
      · next hk => rw [dInumber_setDInumber_of_ne _ _ _ hk]
    · rw [setDName_of_notMem _ _ (by simp at *; omega), setDInumber_of_notMem _ _ (by simp at *; omega)]
  · cases h

theorem findDirEntry_cases (m : Mem) (a : Nat) (subName : CString) :
    findDirEntry m a subName = -1 ∨
      ∃ k < maxDirEntries, findDirEntry m a subName = dInumber m a k ∧ dInumber m a k ≠ -1 := by
  unfold findDirEntry
  split
  · next k hk =>
    have hp := List.find?_some hk
    simp only [Bool.and_eq_true, decide_eq_true_eq] at hp
    exact .inr ⟨k, List.mem_range.mp (List.mem_of_find?_eq_some hk), rfl, hp.1⟩
  · exact .inl rfl

theorem dInumber_foldl_setDInumber (m : Mem) (a : Nat) {n i : Nat} (h : i < n) :
    dInumber ((List.range n).foldl (fun m i => setDInumber m a i (-1)) m) a i = -1 := by
  induction n with
  | zero => omega
  | succ n ih =>
    rw [List.range_succ, List.foldl_append, List.foldl_cons, List.foldl_nil]
    by_cases hi : i = n
    · subst hi
      exact dInumber_setDInumber _ _ _ (by constructor <;> omega)
    · rw [dInumber_setDInumber_of_ne _ _ _ hi]
      exact ih (by omega)

theorem dirHolds_clearDirEntries (m : Mem) (a : Nat) : DirHolds (clearDirEntries m a) a [] where
  length_le := by simp
  inumber := by simp
  name := by simp
  empty _ _ h := dInumber_foldl_setDInumber m a h

def validPathname : Option CString → Bool
  | some name => name.strlen > 1 && name.char 0 == 47
  | none => false

/-- `name + 1`; `none` when this is not a string. -/
def skipSlash : Option CString → Option CString
  | some name => if name.bytes = [] then none else some name.tail
  | none => none

def hasFlag (flags flag : Int) : Bool := flags / flag % 2 = 1

def tfsOCreat : Int := 0b001
def tfsOTrunc : Int := 0b010
def tfsOAppend : Int := 0b100

end Tecnicofs
