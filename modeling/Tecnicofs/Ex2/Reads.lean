import Tecnicofs.Ex2.Protocol

/-! Project 2: the functions that receive messages, when `read` may return fewer bytes than it was asked for, nothing at
the end, or an error. -/

namespace Tecnicofs.Ex2.Reads

open Bytes

/-- The reading end of a pipe: the bytes until the other side closes it, and how each `read` goes: it fails, or
returns at most so many bytes and one more. -/
structure Source where
  bytes : List UInt8
  plan : Nat → Option Nat

namespace Source

def next (p : Source) (n : Nat) : Source := ⟨p.bytes.drop n, fun k => p.plan (k + 1)⟩

/-- What `read` returns; no bytes at the end, nothing when it fails. -/
def read (p : Source) (n : Nat) : Option (List UInt8) × Source :=
  match p.plan 0 with
  | some c => (some (p.bytes.take (min (c + 1) n)), p.next (min (c + 1) n))
  | none => (none, p.next 0)

def Fails (p : Source) : Prop := ∃ k, p.plan k = none

/-- The first `read` brings `size` bytes. -/
def Whole (p : Source) (size : Nat) : Prop := ∃ c, p.plan 0 = some c ∧ size ≤ c + 1 ∧ size ≤ p.bytes.length

/-- The first `read` does not bring `size` bytes, and one fails before any other brings some. -/
def FailsEarly (p : Source) (size : Nat) : Prop :=
  ¬ p.Whole size ∧ ∃ k, p.plan k = none ∧ (k ≤ 1 ∨ ∀ c, p.plan 0 = some c → p.bytes.length ≤ c + 1)

end Source

/-- The loops that read until `size` bytes came into a variable of `cap` bytes; the pointer they add `bytes_read` to steps
`scale` bytes.  There is no result after `fuel` reads, and none after bytes that go behind the variable. -/
def readLoop (scale size cap : Nat) : Nat → Nat → Mem → Source → Option (Option Mem × Source)
  | 0, _, _, _ => none
  | fuel + 1, bytesRead, m, p =>
    if bytesRead < size then
      match p.read (size - bytesRead) with
      | (some bytes, p) =>
        if bytes = [] ∨ bytesRead * scale + bytes.length ≤ cap then
          readLoop scale size cap fuel (bytesRead + bytes.length) (m.store (bytesRead * scale) bytes) p
        else none
      | (none, p) => some (none, p)
    else some (some m, p)

def receiveThen {β : Type} (size : Nat) (after : List UInt8 → Source → Option (Option β × Source)) (fuel : Nat) (m : Mem)
    (p : Source) : Option (Option β × Source) :=
  match readLoop size size size fuel 0 m p with
  | none => none
  | some (none, p) => some (none, p)
  | some (some message, p) => after (message.load 0 size) p

/-- A request in the server: its opcode, its structure and the bytes after it. -/
structure Received where
  opcode : Nat
  message : List UInt8
  body : List UInt8

/-- What the functions meet beside the reads: the bytes that the stack has left for `content` and that a client's `buffer`
has, how `open` of a client's pipe ends, if it does, whether `table_lock` can be had, whether no session is free, and
whether a refusal can be written. -/
structure Setting where
  room : Nat
  len : Nat
  openFifo : CString → Option (Option Nat)
  tableFree : Bool
  full : Bool
  writes : Bool

def deposit (opcode : Nat) (message body : List UInt8) (p : Source) : Option (Option Received × Source) :=
  (sessionIndex (intAt message 0)).map fun _ => (some ⟨opcode, message, body⟩, p)

def receiveMessage (opcode size : Nat) : Nat → Mem → Source → Option (Option Received × Source) :=
  receiveThen size fun message => deposit opcode message []

def tfsUnmount := receiveMessage tfsOpCodeUnmount 4
def tfsOpenServer := receiveMessage tfsOpCodeOpen 48
def tfsCloseServer := receiveMessage tfsOpCodeClose 8
def tfsReadServer := receiveMessage tfsOpCodeRead 16
def tfsShutdownServer := receiveMessage tfsOpCodeShutdownAfterAllClosed 4

/-- The rest of `tfs_mount`, from `open` on. -/
def seatClient (e : Setting) (message : List UInt8) (p : Source) : Option (Option Received × Source) :=
  match (stringAt message 0 maxPipenameSize).bind e.openFifo with
  | none => none
  | some none => some (none, p)
  | some (some _) =>
    if e.tableFree then
      some (if e.full ∧ e.writes = false then none else some ⟨tfsOpCodeMount, message, []⟩, p)
    else none

def tfsMount (e : Setting) : Nat → Mem → Source → Option (Option Received × Source) :=
  receiveThen maxPipenameSize (seatClient e)

/-- The rest of `tfs_write_server`, from `content` on. -/
def receiveBody (e : Setting) (fuel : Nat) (m : Mem) (message : List UInt8) (p : Source) :
    Option (Option Received × Source) :=
  let len := sizeAt message 8
  if len ≤ e.room then
    match readLoop 1 len len fuel 0 m p with
    | none => none
    | some (none, p) => some (none, p)
    | some (some content, p) => deposit tfsOpCodeWrite message (content.load 0 len) p
  else none

def tfsWriteServer (e : Setting) (fuel : Nat) (m : Mem) (p : Source) : Option (Option Received × Source) :=
  receiveThen 16 (receiveBody e fuel m) fuel m p

structure Answer where
  ret : Int
  data : List UInt8

def requestHandler : Nat → Mem → Source → Option (Option Answer × Source) :=
  receiveThen 4 fun answer p => some (some ⟨decodeInt answer, []⟩, p)

/-- How many bytes follow the count; the loop compares with it as a `size_t`. -/
def payload (fileBytesRead : Int) : Nat := if fileBytesRead = -1 then 0 else (fileBytesRead % 2 ^ 64).toNat

/-- The rest of the client's `tfs_read`, after the count; `buffer` has `len` bytes. -/
def receiveData (len fuel : Nat) (m : Mem) (count : List UInt8) (p : Source) : Option (Option Answer × Source) :=
  let fileBytesRead := decodeInt count
  if fileBytesRead = -1 then some (some ⟨-1, []⟩, p)
  else
    (readLoop 1 (payload fileBytesRead) len fuel 0 m p).map fun x =>
      (x.1.map fun data => ⟨fileBytesRead, data.load 0 (payload fileBytesRead)⟩, x.2)

/-- The last part of the client's `tfs_read`; `file_bytes_read` is 0 before. -/
def tfsRead (len fuel : Nat) (m : Mem) (p : Source) : Option (Option Answer × Source) :=
  receiveThen 4 (receiveData len fuel m) fuel (m.store 0 (encodeInt 0)) p

variable {β : Type} {size cap fuel b n : Nat} {m : Mem} {p p' : Source} {out : Option Mem}

theorem length_take_min {c : Nat} (bytes : List UInt8) :
    (bytes.take (min (c + 1) n)).length = min (min (c + 1) n) bytes.length := List.length_take

theorem readLoop_of_none (scale : Nat) (hb : b < size) (hp : p.plan 0 = none) :
    readLoop scale size cap (fuel + 1) b m p = some (none, p.next 0) := by
  rw [readLoop, if_pos hb, Source.read, hp]

theorem readLoop_of_le (scale : Nat) (hb : size ≤ b) :
    readLoop scale size cap (fuel + 1) b m p = some (some m, p) := by
  rw [readLoop, if_neg (by omega)]

theorem readLoop_mono {scale : Nat} {x : Option Mem × Source} (h : readLoop scale size cap fuel b m p = some x) {fuel' : Nat}
    (hf : fuel ≤ fuel') : readLoop scale size cap fuel' b m p = some x := by
  induction fuel generalizing fuel' b m p with
  | zero => cases h
  | succ fuel ih =>
    obtain ⟨fuel', rfl⟩ : ∃ k, fuel' = k + 1 := ⟨fuel' - 1, by omega⟩
    rw [readLoop] at h ⊢
    split
    · next hlt =>
      rw [if_pos hlt] at h
      split
      · next hread =>
        rw [hread] at h
        simp only at h
        split
        · next hin =>
          rw [if_pos hin] at h
          exact ih h (by omega)
        · next hin =>
          rw [if_neg hin] at h
          cases h
      · next hread =>
        rw [hread] at h
        exact h
    · next hlt =>
      rw [if_neg hlt] at h
      exact h

theorem fails_of_readLoop_nil {scale : Nat} (hb : b < size) (hp : p.bytes = [])
    (h : readLoop scale size cap fuel b m p = some (out, p')) : out = none ∧ p.Fails := by
  induction fuel generalizing m p with
  | zero => cases h
  | succ fuel ih =>
    cases hp₀ : p.plan 0 with
    | none =>
      rw [readLoop_of_none scale hb hp₀] at h
      cases h
      exact ⟨rfl, 0, hp₀⟩
    | some c =>
      rw [readLoop, if_pos hb, Source.read, hp₀, hp] at h
      simp only [List.take_nil, List.length_nil, Nat.add_zero, true_or, if_true] at h
      obtain ⟨ho, k, hk⟩ := ih (by simp [Source.next, hp]) h
      exact ⟨ho, k + 1, hk⟩

theorem readLoop_behind (hb : b < size) (hb₀ : 0 < b) (hp : p.bytes ≠ []) {c : Nat} (hc : p.plan 0 = some c) :
    readLoop size size size fuel b m p = none := by
  cases fuel with
  | zero => rfl
  | succ fuel =>
    have hlen := length_take_min (c := c) (n := size - b) p.bytes
    have hpos := List.length_pos_iff.mpr hp
    have hscale : size ≤ b * size := Nat.le_mul_of_pos_left size hb₀
    rw [readLoop, if_pos hb, Source.read, hc]
    refine if_neg fun h => ?_
    rcases h with h | h
    · have hnil := congrArg List.length h
      rw [List.length_nil] at hnil
      omega
    · omega

theorem readLoop_whole (hf : 2 ≤ fuel) (hpos : 0 < size) (m : Mem) (h : p.Whole size) :
    readLoop size size size fuel 0 m p = some (some (m.store 0 (p.bytes.take size)), p.next size) := by
  obtain ⟨fuel, rfl⟩ : ∃ k, fuel = k + 2 := ⟨fuel - 2, by omega⟩
  obtain ⟨c, hc, hle, hlen⟩ := h
  have hmin : min (c + 1) (size - 0) = size := by omega
  have htake : (p.bytes.take size).length = size := List.length_take_of_le hlen
  rw [readLoop, if_pos hpos, Source.read, hc]
  simp only [Nat.sub_zero] at hmin
  simp only [Nat.sub_zero, hmin, htake, Nat.zero_mul, Nat.zero_add, le_refl, or_true, if_true]
  exact readLoop_of_le size le_rfl

theorem readLoop_first (fuel : Nat) (m : Mem) {c : Nat} (hpos : 0 < size) (hc : p.plan 0 = some c) (hw : ¬ p.Whole size) :
    readLoop size size size (fuel + 1) 0 m p = readLoop size size size fuel (p.bytes.take (min (c + 1) size)).length
        (m.store 0 (p.bytes.take (min (c + 1) size))) (p.next (min (c + 1) size)) ∧
      (p.bytes.take (min (c + 1) size)).length < size := by
  have hlen := length_take_min (c := c) (n := size) p.bytes
  have hlt : (p.bytes.take (min (c + 1) size)).length < size := by
    by_contra hge
    exact hw ⟨c, hc, by omega, by omega⟩
  refine ⟨?_, hlt⟩
  rw [readLoop, if_pos hpos, Source.read, hc]
  simp only [Nat.zero_mul, Nat.zero_add, Nat.sub_zero]
  exact if_pos (.inr hlt.le)

theorem readLoop_structure_cases (hpos : 0 < size) (h : readLoop size size size fuel 0 m p = some (out, p')) :
    out = none ∧ p.FailsEarly size ∨ 2 ≤ fuel ∧ p.Whole size := by
  cases fuel with
  | zero => cases h
  | succ fuel =>
    cases hc : p.plan 0 with
    | none =>
      rw [readLoop_of_none size hpos hc] at h
      cases h
      refine .inl ⟨rfl, fun ⟨c, hc', _⟩ => ?_, 0, hc, .inl (Nat.zero_le 1)⟩
      rw [hc] at hc'
      cases hc'
    | some c =>
      by_cases hw : p.Whole size
      · refine .inr ⟨?_, hw⟩
        obtain ⟨c', hc', hle, hlen⟩ := hw
        have hmin : min (c' + 1) (size - 0) = size := by omega
        cases fuel with
        | zero =>
          rw [readLoop, if_pos hpos, Source.read, hc'] at h
          simp [readLoop] at h
        | succ fuel => omega
      · obtain ⟨heq, hlt⟩ := readLoop_first fuel m hpos hc hw
        rw [heq] at h
        have hlen := length_take_min (c := c) (n := size) p.bytes
        by_cases hrest : (p.next (min (c + 1) size)).bytes = []
        · obtain ⟨ho, k, hk⟩ := fails_of_readLoop_nil hlt hrest h
          refine .inl ⟨ho, hw, k + 1, hk, .inr fun c' hc' => ?_⟩
          obtain rfl := Option.some.inj (hc.symm.trans hc')
          have hnil := congrArg List.length hrest
          simp only [Source.next, List.length_drop, List.length_nil] at hnil
          omega
        · cases hc₁ : (p.next (min (c + 1) size)).plan 0 with
          | none =>
            cases fuel with
            | zero => cases h
            | succ fuel =>
              rw [readLoop_of_none size hlt hc₁] at h
              cases h
              exact .inl ⟨rfl, hw, 1, hc₁, .inl le_rfl⟩
          | some c₁ =>
            have hne := List.length_pos_iff.mpr hrest
            simp only [Source.next, List.length_drop] at hne
            rw [readLoop_behind hlt (by omega) hrest hc₁] at h
            cases h

section
variable {after : List UInt8 → Source → Option (Option β × Source)}

theorem load_store_take (m : Mem) (h : size ≤ p.bytes.length) :
    (m.store 0 (p.bytes.take size)).load 0 size = p.bytes.take size := by
  have hself := m.load_store_self 0 (p.bytes.take size)
  rwa [List.length_take_of_le h] at hself

theorem receiveThen_whole (hf : 2 ≤ fuel) (hpos : 0 < size) (m : Mem) (h : p.Whole size) :
    receiveThen size after fuel m p = after (p.bytes.take size) (p.next size) := by
  obtain ⟨-, -, -, hlen⟩ := id h
  rw [receiveThen, readLoop_whole hf hpos m h]
  simp only [load_store_take m hlen]

theorem receiveThen_cases (hpos : 0 < size) {x : Option β × Source} (h : receiveThen size after fuel m p = some x) :
    x.1 = none ∧ p.FailsEarly size ∨
      2 ≤ fuel ∧ p.Whole size ∧ after (p.bytes.take size) (p.next size) = some x := by
  cases hloop : readLoop size size size fuel 0 m p with
  | none =>
    rw [receiveThen, hloop] at h
    cases h
  | some y =>
    rcases readLoop_structure_cases hpos hloop with ⟨ho, hf⟩ | ⟨hf, hw⟩
    · obtain ⟨out, p₁⟩ := y
      subst ho
      rw [receiveThen, hloop] at h
      cases h
      exact .inl ⟨rfl, hf⟩
    · exact .inr ⟨hf, hw, by rwa [receiveThen_whole hf hpos m hw] at h⟩

end

inductive Receiver
  | tfsMount
  | tfsUnmount
  | tfsOpenServer
  | tfsCloseServer
  | tfsWriteServer
  | tfsReadServer
  | tfsShutdownServer
  | requestHandler
  | tfsRead

namespace Receiver

/-- Whether the function succeeds, if it returns, and what it leaves to be read. -/
def run (e : Setting) (fuel : Nat) (m : Mem) (p : Source) : Receiver → Option (Bool × Source)
  | tfsMount => (Reads.tfsMount e fuel m p).map fun x => (x.1.isSome, x.2)
  | tfsUnmount => (Reads.tfsUnmount fuel m p).map fun x => (x.1.isSome, x.2)
  | tfsOpenServer => (Reads.tfsOpenServer fuel m p).map fun x => (x.1.isSome, x.2)
  | tfsCloseServer => (Reads.tfsCloseServer fuel m p).map fun x => (x.1.isSome, x.2)
  | tfsWriteServer => (Reads.tfsWriteServer e fuel m p).map fun x => (x.1.isSome, x.2)
  | tfsReadServer => (Reads.tfsReadServer fuel m p).map fun x => (x.1.isSome, x.2)
  | tfsShutdownServer => (Reads.tfsShutdownServer fuel m p).map fun x => (x.1.isSome, x.2)
  | requestHandler => (Reads.requestHandler fuel m p).map fun x => (x.1.isSome, x.2)
  | tfsRead => (Reads.tfsRead e.len fuel m p).map fun x => (x.1.isSome, x.2)

end Receiver

theorem sessionIndex_isSome {i : Int} : (sessionIndex i).isSome ↔ validIndex maxClients i := by
  unfold sessionIndex
  split
  · next h => exact iff_of_true rfl h
  · next h => exact iff_of_false nofun h

theorem deposit_iff {opcode : Nat} {message body : List UInt8} :
    (∃ x, deposit opcode message body p = some x) ↔ validIndex maxClients (intAt message 0) := by
  rw [← sessionIndex_isSome, Option.isSome_iff_exists]
  constructor
  · rintro ⟨x, hx⟩
    obtain ⟨i, hi, -⟩ := Option.map_eq_some_iff.mp hx
    exact ⟨i, hi⟩
  · rintro ⟨i, hi⟩
    exact ⟨_, by rw [deposit, hi]; rfl⟩

end Tecnicofs.Ex2.Reads
