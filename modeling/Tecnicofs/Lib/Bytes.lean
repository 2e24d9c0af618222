import Mathlib.Algebra.Ring.Int.Defs
import Mathlib.Algebra.Ring.Nat
import Mathlib.Data.List.Basic
import Mathlib.Data.List.GetD
import Mathlib.Data.List.Range
import Mathlib.Data.List.TakeWhile
import Mathlib.Logic.Function.Basic

namespace Bytes

/-- `a + b` on `size_t`. -/
def szAdd (a b : Nat) : Nat := (a + b) % 2 ^ 64

def szSub (a b : Nat) : Nat := (a + 2 ^ 64 - b) % 2 ^ 64

theorem szAdd_of_lt {a b : Nat} (h : a + b < 2 ^ 64) : szAdd a b = a + b := Nat.mod_eq_of_lt h

theorem szSub_of_le {a b : Nat} (h : b ≤ a) (ha : a < 2 ^ 64) : szSub a b = a - b := by
  unfold szSub
  omega

theorem szSub_of_lt {a b : Nat} (h : a < b) (hb : b ≤ 2 ^ 64) : szSub a b = 2 ^ 64 + a - b := by
  unfold szSub
  omega

def leEncode : Nat → Nat → List UInt8
  | 0, _ => []
  | k + 1, n => UInt8.ofNat n :: leEncode k (n / 256)

def leDecode : List UInt8 → Nat
  | [] => 0
  | b :: bs => b.toNat + 256 * leDecode bs

@[simp] theorem length_leEncode (k n : Nat) : (leEncode k n).length = k := by
  induction k generalizing n with
  | zero => rfl
  | succ k ih => simp [leEncode, ih]

theorem leDecode_leEncode (k n : Nat) : leDecode (leEncode k n) = n % 256 ^ k := by
  induction k generalizing n with
  | zero => simp [leEncode, leDecode, Nat.mod_one]
  | succ k ih =>
    have hb : (UInt8.ofNat n).toNat = n % 256 := by simp
    simp only [leEncode, leDecode, ih, hb]
    rw [Nat.pow_succ', Nat.mod_mul]

theorem leDecode_lt (bs : List UInt8) : leDecode bs < 256 ^ bs.length := by
  induction bs with
  | nil => simp [leDecode]
  | cons b bs ih =>
    have hb := b.toNat_lt
    simp only [leDecode, List.length_cons, Nat.pow_succ']
    omega

theorem leEncode_leDecode (bs : List UInt8) : leEncode bs.length (leDecode bs) = bs := by
  induction bs with
  | nil => rfl
  | cons b bs ih =>
    have hb := b.toNat_lt
    have hlow : UInt8.ofNat (b.toNat + 256 * leDecode bs) = b := by
      apply UInt8.toNat_inj.mp
      rw [UInt8.toNat_ofNat']
      omega
    have hrest : (b.toNat + 256 * leDecode bs) / 256 = leDecode bs := by omega
    rw [List.length_cons, leDecode, leEncode, hlow, hrest, ih]

theorem leEncode_mod (k n : Nat) : leEncode k (n % 256 ^ k) = leEncode k n := by
  induction k generalizing n with
  | zero => rfl
  | succ k ih =>
    have hb : UInt8.ofNat (n % 256 ^ (k + 1)) = UInt8.ofNat n := by
      apply UInt8.toNat_inj.mp
      rw [UInt8.toNat_ofNat', UInt8.toNat_ofNat']
      exact Nat.mod_mod_of_dvd n ⟨256 ^ k, Nat.pow_succ' ..⟩
    have hd : n % 256 ^ (k + 1) / 256 = n / 256 % 256 ^ k := by
      rw [Nat.pow_succ', Nat.mod_mul_right_div_self]
    rw [leEncode, leEncode, hb, hd, ih]

theorem take_leEncode (j k n : Nat) : (leEncode (j + k) n).take j = leEncode j n := by
  induction j generalizing n with
  | zero => rfl
  | succ j ih => rw [Nat.add_right_comm, leEncode, leEncode, List.take_succ_cons, ih]

def encodeInt (i : Int) : List UInt8 := leEncode 4 (i % 2 ^ 32).toNat

def decodeInt (bs : List UInt8) : Int :=
  if leDecode bs < 2 ^ 31 then leDecode bs else (leDecode bs : Int) - 2 ^ 32

def encodeSize (n : Nat) : List UInt8 := leEncode 8 n

def decodeSize (bs : List UInt8) : Nat := leDecode bs

@[simp] theorem length_encodeInt (i : Int) : (encodeInt i).length = 4 := length_leEncode ..

@[simp] theorem length_encodeSize (n : Nat) : (encodeSize n).length = 8 := length_leEncode ..

def encodeSsize (i : Int) : List UInt8 := leEncode 8 (i % 2 ^ 64).toNat

theorem take_encodeSsize (i : Int) : (encodeSsize i).take 4 = encodeInt i := by
  have h : (i % 2 ^ 32).toNat = (i % 2 ^ 64).toNat % 256 ^ 4 := by omega
  rw [encodeSsize, encodeInt, h, leEncode_mod]
  exact take_leEncode 4 4 _

def IsInt (i : Int) : Prop := -2 ^ 31 ≤ i ∧ i < 2 ^ 31

instance (i : Int) : Decidable (IsInt i) := inferInstanceAs (Decidable (_ ∧ _))

theorem IsInt.decode_encode {i : Int} (h : IsInt i) : decodeInt (encodeInt i) = i := by
  obtain ⟨hl, hu⟩ := h
  have hlt : (i % 2 ^ 32).toNat % 256 ^ 4 = (i % 2 ^ 32).toNat := by omega
  unfold decodeInt encodeInt
  rw [leDecode_leEncode, hlt]
  split <;> omega

theorem encodeInt_decodeInt {bs : List UInt8} (h : bs.length = 4) : encodeInt (decodeInt bs) = bs := by
  have hlt := leDecode_lt bs
  rw [h] at hlt
  have hval : (decodeInt bs % 2 ^ 32).toNat = leDecode bs := by
    unfold decodeInt
    split <;> omega
  rw [encodeInt, hval, ← h, leEncode_leDecode]

theorem decodeSize_encodeSize {n : Nat} (h : n < 2 ^ 64) : decodeSize (encodeSize n) = n := by
  rw [decodeSize, encodeSize, leDecode_leEncode]
  exact Nat.mod_eq_of_lt (by omega)

abbrev Mem := Nat → UInt8

/-- `bytes` written over `old` from offset `o` on. -/
def overwrite (old : List UInt8) (o : Nat) (bytes : List UInt8) : List UInt8 :=
  old.take o ++ bytes ++ old.drop (o + bytes.length)

theorem length_overwrite {old bytes : List UInt8} {o : Nat} (h : o ≤ old.length) :
    (overwrite old o bytes).length = max old.length (o + bytes.length) := by
  simp only [overwrite, List.length_append, List.length_take, List.length_drop]
  omega

theorem overwrite_nil (old : List UInt8) (o : Nat) : overwrite old o [] = old := by
  simp [overwrite]

theorem getD_overwrite {old bytes : List UInt8} {o : Nat} (h : o ≤ old.length) (x : Nat) :
    (overwrite old o bytes).getD x 0 =
      if o ≤ x ∧ x < o + bytes.length then bytes.getD (x - o) 0 else old.getD x 0 := by
  have htake : (old.take o).length = o := List.length_take_of_le h
  simp only [List.getD, overwrite]
  by_cases hlt : x < o
  · rw [if_neg (by omega), List.append_assoc, List.getElem?_append_left (by omega), List.getElem?_take_of_lt hlt]
  · by_cases hin : x < o + bytes.length
    · rw [if_pos ⟨by omega, hin⟩, List.append_assoc, List.getElem?_append_right (by omega),
        List.getElem?_append_left (by omega), htake]
    · rw [if_neg (by omega), List.getElem?_append_right (by rw [List.length_append]; omega), List.getElem?_drop,
        List.length_append, htake]
      congr 2
      omega

theorem overwrite_append {old a b : List UInt8} {o : Nat} (h : o ≤ old.length) :
    overwrite (overwrite old o a) (o + a.length) b = overwrite old o (a ++ b) := by
  have htake : (old.take o ++ a).length = o + a.length := by
    rw [List.length_append, List.length_take_of_le h]
  rw [overwrite, overwrite, overwrite, List.take_append_of_le_length (by omega), List.take_of_length_le (by omega),
    List.append_assoc (old.take o) a b, List.length_append]
  congr 1
  rw [List.drop_append, List.drop_eq_nil_of_le (by omega), List.nil_append, List.drop_drop]
  congr 1
  omega

namespace Mem

def load (m : Mem) (a n : Nat) : List UInt8 := (List.range n).map fun i => m (a + i)

def store (m : Mem) (a : Nat) (bs : List UInt8) : Mem :=
  fun x => if a ≤ x ∧ x < a + bs.length then bs.getD (x - a) 0 else m x

def loadInt (m : Mem) (a : Nat) : Int := decodeInt (m.load a 4)

def storeInt (m : Mem) (a : Nat) (i : Int) : Mem := m.store a (encodeInt i)

@[simp] theorem length_load (m : Mem) (a n : Nat) : (m.load a n).length = n := by simp [load]

theorem load_congr {m m' : Mem} {a a' n : Nat} (h : ∀ i < n, m (a + i) = m' (a' + i)) :
    m.load a n = m'.load a' n := by
  apply List.map_congr_left
  intro i hi
  exact h i (List.mem_range.mp hi)

theorem getD_load (m : Mem) (a : Nat) {n i : Nat} (h : i < n) : (m.load a n).getD i 0 = m (a + i) := by
  simp [load, List.getD, h]

theorem store_of_mem (m : Mem) {a x : Nat} {bs : List UInt8} (hl : a ≤ x) (hu : x < a + bs.length) :
    m.store a bs x = bs.getD (x - a) 0 := if_pos ⟨hl, hu⟩

theorem store_of_notMem (m : Mem) {a x : Nat} {bs : List UInt8} (h : x < a ∨ a + bs.length ≤ x) :
    m.store a bs x = m x := if_neg (by omega)

@[simp] theorem store_nil (m : Mem) (a : Nat) : m.store a [] = m := by
  funext x
  exact store_of_notMem m (by simp; omega)

theorem store_append (m : Mem) (a : Nat) (bs cs : List UInt8) :
    (m.store a bs).store (a + bs.length) cs = m.store a (bs ++ cs) := by
  funext x
  by_cases hlow : x < a
  · rw [store_of_notMem _ (by omega), store_of_notMem _ (.inl hlow), store_of_notMem _ (.inl hlow)]
  by_cases hmid : x < a + bs.length
  · rw [store_of_notMem _ (.inl hmid), store_of_mem _ (by omega) hmid,
      store_of_mem _ (by omega) (by rw [List.length_append]; omega), List.getD_append _ _ _ _ (by omega)]
  by_cases hhigh : x < a + bs.length + cs.length
  · rw [store_of_mem _ (by omega) hhigh, store_of_mem _ (by omega) (by rw [List.length_append]; omega),
      List.getD_append_right _ _ _ _ (by omega)]
    congr 1
    omega
  · rw [store_of_notMem _ (.inr (by omega)), store_of_notMem _ (.inr (by omega)),
      store_of_notMem _ (.inr (by rw [List.length_append]; omega))]

theorem load_store_self (m : Mem) (a : Nat) (bs : List UInt8) :
    (m.store a bs).load a bs.length = bs := by
  apply List.ext_getElem (by simp)
  intro i hi hi'
  have hs := store_of_mem m (Nat.le_add_right a i) (Nat.add_lt_add_left hi' a)
  simp [load, hs, List.getD, hi']

theorem load_store_disjoint (m : Mem) {a b n : Nat} {bs : List UInt8}
    (h : a + n ≤ b ∨ b + bs.length ≤ a) : (m.store b bs).load a n = m.load a n := by
  apply load_congr
  intro i hi
  exact store_of_notMem m (by omega)

theorem load_store_overwrite (m : Mem) (a : Nat) {n o : Nat} {bs : List UInt8} (h : o ≤ n) :
    (m.store (a + o) bs).load a (max n (o + bs.length)) = overwrite (m.load a n) o bs := by
  apply List.ext_getElem
  · rw [length_overwrite (by simpa using h), length_load, length_load]
  intro i hi _
  simp only [length_load] at hi
  simp only [load, overwrite, List.getElem_map, List.getElem_range, List.getElem_append, List.length_append,
    List.length_take, List.length_map, List.length_range, List.getElem_take, List.getElem_drop, min_eq_left h]
  by_cases hlt : i < o
  · rw [store_of_notMem _ (by omega), dif_pos (by omega), dif_pos hlt]
  · by_cases hin : i < o + bs.length
    · rw [store_of_mem _ (by omega) (by omega), dif_pos hin, dif_neg hlt]
      simp [List.getD, show a + i - (a + o) = i - o by omega, show i - o < bs.length by omega]
    · rw [store_of_notMem _ (by omega), dif_neg hin]
      congr 1
      omega

theorem take_drop_load (m : Mem) (a n o len : Nat) :
    ((m.load a n).drop o).take len = m.load (a + o) (min len (n - o)) := by
  apply List.ext_getElem (by simp)
  intro i _ _
  simp [load, Nat.add_assoc]

theorem load_prefix {m m' : Mem} {a n k : Nat} (h : m.load a n = m'.load a n) (hk : k ≤ n) :
    m.load a k = m'.load a k := by
  have ht := congrArg (List.take k) h
  simpa [load, ← List.map_take, List.take_range, hk] using ht

theorem loadInt_congr {m m' : Mem} {a a' : Nat} (h : ∀ i < 4, m (a + i) = m' (a' + i)) :
    m.loadInt a = m'.loadInt a' := congrArg decodeInt (load_congr h)

theorem loadInt_storeInt_self (m : Mem) (a : Nat) {i : Int} (h : IsInt i) :
    (m.storeInt a i).loadInt a = i := by
  have hl := load_store_self m a (encodeInt i)
  rw [length_encodeInt] at hl
  rw [loadInt, storeInt, hl, h.decode_encode]

theorem store_load (m : Mem) (a n : Nat) : m.store a (m.load a n) = m := by
  funext x
  by_cases hx : a ≤ x ∧ x < a + n
  · rw [store_of_mem m hx.1 (by rw [length_load]; exact hx.2), getD_load m a (by omega)]
    congr 1
    omega
  · exact store_of_notMem m (by rw [length_load]; omega)

theorem storeInt_loadInt (m : Mem) (a : Nat) : m.storeInt a (m.loadInt a) = m := by
  rw [storeInt, loadInt, encodeInt_decodeInt (length_load ..), store_load]

theorem loadInt_store_disjoint (m : Mem) {a b : Nat} {bs : List UInt8}
    (h : a + 4 ≤ b ∨ b + bs.length ≤ a) : (m.store b bs).loadInt a = m.loadInt a :=
  congrArg decodeInt (load_store_disjoint m h)

theorem loadInt_storeInt_disjoint (m : Mem) {a b : Nat} (i : Int) (h : a + 4 ≤ b ∨ b + 4 ≤ a) :
    (m.storeInt b i).loadInt a = m.loadInt a :=
  loadInt_store_disjoint m (by simpa using h)

theorem storeInt_of_notMem (m : Mem) {a x : Nat} (i : Int) (h : x < a ∨ a + 4 ≤ x) :
    m.storeInt a i x = m x := store_of_notMem m (by simpa using h)

end Mem

/-- The bytes of a C string, without the terminating zero. -/
structure CString where
  bytes : List UInt8
  noNul : 0 ∉ bytes
  deriving DecidableEq

namespace CString

theorem eq_of_bytes {s t : CString} (h : s.bytes = t.bytes) : s = t := by
  obtain ⟨sb, hs⟩ := s
  obtain ⟨tb, ht⟩ := t
  obtain rfl : sb = tb := h
  rfl

def strlen (s : CString) : Nat := s.bytes.length

def char (s : CString) (i : Nat) : UInt8 := s.bytes.getD i 0

/-- `s + 1`. -/
def tail (s : CString) : CString := ⟨s.bytes.tail, fun h => s.noNul (List.mem_of_mem_tail h)⟩

/-- The string in a field of characters; nothing when no zero ends it. -/
def ofField (field : List UInt8) : Option CString :=
  if 0 ∈ field then
    some ⟨field.takeWhile (· ≠ 0), fun h => by simpa using List.mem_takeWhile_imp h⟩
  else none

theorem ofField_strcpy (s : CString) (rest : List UInt8) : ofField (s.bytes ++ 0 :: rest) = some s := by
  have hs : ∀ b ∈ s.bytes, decide (b ≠ 0) = true := fun b hb => by
    have hne : b ≠ 0 := fun h => s.noNul (h ▸ hb)
    simpa using hne
  have htake : (s.bytes ++ 0 :: rest).takeWhile (· ≠ 0) = s.bytes := by
    rw [List.takeWhile_append_of_pos hs]
    simp
  simp only [ofField, htake, List.mem_append, List.mem_cons, true_or, or_true, if_true]

end CString

/-- `strncmp (f, g, n) == 0`. -/
def strncmpEq (f g : Nat → UInt8) : Nat → Bool
  | 0 => true
  | n + 1 =>
    if f 0 ≠ g 0 then false
    else if f 0 = 0 then true
    else strncmpEq (fun i => f (i + 1)) (fun i => g (i + 1)) n

/-- The `n` bytes that `strncpy` writes. -/
def strncpy (s : CString) (n : Nat) : List UInt8 :=
  (List.range n).map s.char

@[simp] theorem length_strncpy (s : CString) (n : Nat) : (strncpy s n).length = n := by simp [strncpy]

theorem getD_strncpy (s : CString) {n i : Nat} (h : i < n) : (strncpy s n).getD i 0 = s.char i := by
  simp [strncpy, List.getD, h]

theorem strncmpEq_congr {f f' g g' : Nat → UInt8} {n : Nat} (hf : ∀ i < n, f i = f' i) (hg : ∀ i < n, g i = g' i) :
    strncmpEq f g n = strncmpEq f' g' n := by
  induction n generalizing f f' g g' with
  | zero => rfl
  | succ n ih =>
    have hf0 := hf 0 (by omega)
    have hg0 := hg 0 (by omega)
    have hfs : ∀ i < n, f (i + 1) = f' (i + 1) := fun i hi => hf (i + 1) (by omega)
    have hgs : ∀ i < n, g (i + 1) = g' (i + 1) := fun i hi => hg (i + 1) (by omega)
    simp only [strncmpEq, hf0, hg0, ih hfs hgs]

theorem strncmpEq_iff {a b : List UInt8} (ha : 0 ∉ a) (hb : 0 ∉ b) (n : Nat) :
    strncmpEq (fun i => a.getD i 0) (fun i => b.getD i 0) n = true ↔ a.take n = b.take n := by
  induction n generalizing a b with
  | zero => simp [strncmpEq]
  | succ n ih =>
    cases a with
    | nil =>
      cases b with
      | nil => simp [strncmpEq]
      | cons y b =>
        have hy : y ≠ 0 := fun h => hb (by simp [h])
        simp [strncmpEq, Ne.symm hy]
    | cons x a =>
      have hx : x ≠ 0 := fun h => ha (by simp [h])
      cases b with
      | nil => simp [strncmpEq, hx]
      | cons y b =>
        have ih' := ih (a := a) (b := b) (fun h => ha (by simp [h])) (fun h => hb (by simp [h]))
        by_cases hxy : x = y
        · subst hxy
          simpa [strncmpEq, hx] using ih'
        · simp [strncmpEq, hxy]

end Bytes
