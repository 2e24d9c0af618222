import Mathlib.Algebra.Order.BigOperators.Group.List
import Mathlib.Algebra.Order.Group.Nat
import Tecnicofs.Ex2.Reads

/-! Project 2: messages that arrive in pieces.  The pointers to structures and to `int` advance by whole structures,
the pointers to `char` and `void` by bytes. -/

namespace Tecnicofs.Ex2.Reads

open Bytes

inductive Message
  | mount (clientPipe : CString)
  | unmount (sessionId : Int)
  | open (sessionId : Int) (name : CString) (flags : Int)
  | close (sessionId fhandle : Int)
  | write (sessionId fhandle : Int) (buffer : List UInt8)
  | read (sessionId fhandle : Int) (len : Nat)
  | shutdown (sessionId : Int)

namespace Message

def opcode : Message → Nat
  | mount _ => tfsOpCodeMount
  | unmount _ => tfsOpCodeUnmount
  | .open _ _ _ => tfsOpCodeOpen
  | close _ _ => tfsOpCodeClose
  | write _ _ _ => tfsOpCodeWrite
  | read _ _ _ => tfsOpCodeRead
  | shutdown _ => tfsOpCodeShutdownAfterAllClosed

/-- The structure that the client fills; `field` is what was in its `name` before. -/
def fields (field : List UInt8) : Message → List UInt8
  | mount clientPipe => clientPipe.bytes ++ List.replicate (maxPipenameSize - clientPipe.strlen) 0
  | unmount sessionId | shutdown sessionId => encodeInt sessionId
  | .open sessionId name flags => openMessage field sessionId name flags
  | close sessionId fhandle => closeMessage sessionId fhandle
  | write sessionId fhandle buffer => transferMessage sessionId fhandle buffer.length
  | read sessionId fhandle len => transferMessage sessionId fhandle len

def size : Message → Nat
  | mount _ => maxPipenameSize
  | unmount _ | shutdown _ => 4
  | .open _ _ _ => 48
  | close _ _ => 8
  | write _ _ _ | read _ _ _ => 16

def body : Message → List UInt8
  | write _ _ buffer => buffer
  | mount _ | unmount _ | .open _ _ _ | close _ _ | read _ _ _ | shutdown _ => []

def encode (field : List UInt8) (x : Message) : List UInt8 :=
  opcodeConvert x.opcode :: (x.fields field ++ x.body)

/-- Numbers fit in their types, and strings in their fields with the zero at the end. -/
def Sendable (field : List UInt8) : Message → Prop
  | mount clientPipe => clientPipe.strlen < maxPipenameSize
  | unmount sessionId | shutdown sessionId => IsInt sessionId
  | .open sessionId name flags =>
    IsInt sessionId ∧ name.strlen < maxPipenameSize ∧ IsInt flags ∧ field.length = maxPipenameSize
  | close sessionId fhandle => IsInt sessionId ∧ IsInt fhandle
  | write sessionId fhandle buffer => IsInt sessionId ∧ IsInt fhandle ∧ buffer.length < 2 ^ 64
  | read sessionId fhandle len => IsInt sessionId ∧ IsInt fhandle ∧ len < 2 ^ 64

def receive (e : Setting) : Message → Nat → Mem → Source → Option (Option Received × Source)
  | mount _ => tfsMount e
  | unmount _ => tfsUnmount
  | .open _ _ _ => tfsOpenServer
  | close _ _ => tfsCloseServer
  | write _ _ _ => tfsWriteServer e
  | read _ _ _ => tfsReadServer
  | shutdown _ => tfsShutdownServer

def sessionId : Message → Option Int
  | mount _ => none
  | unmount sessionId | .open sessionId _ _ | close sessionId _ | write sessionId _ _ | read sessionId _ _
  | shutdown sessionId => some sessionId

def Succeeds (e : Setting) (x : Message) : Prop :=
  (∀ sessionId ∈ x.sessionId, validIndex maxClients sessionId) ∧
    match x with
    | mount clientPipe => (∃ fdc, e.openFifo clientPipe = some (some fdc)) ∧ e.tableFree ∧ (e.full → e.writes)
    | write _ _ buffer => buffer.length ≤ e.room
    | unmount _ | .open _ _ _ | close _ _ | read _ _ _ | shutdown _ => True

end Message

/-- A request, what was in the field `name` of its structure, and what its function meets in the server. -/
structure Request where
  message : Message
  field : List UInt8
  setting : Setting

def Request.received (x : Request) : Received := ⟨x.message.opcode, x.message.fields x.field, x.message.body⟩

/-- What the worker functions take out of a request. -/
def Received.request (x : Received) : Option Message :=
  if x.opcode = tfsOpCodeMount then (stringAt x.message 0 maxPipenameSize).map .mount
  else if x.opcode = tfsOpCodeUnmount then some (.unmount (intAt x.message 0))
  else if x.opcode = tfsOpCodeOpen then
    (stringAt x.message 4 maxPipenameSize).map fun name => .open (intAt x.message 0) name (intAt x.message 44)
  else if x.opcode = tfsOpCodeClose then some (.close (intAt x.message 0) (intAt x.message 4))
  else if x.opcode = tfsOpCodeWrite then
    some (.write (intAt x.message 0) (intAt x.message 4) (x.body.take (sizeAt x.message 8)))
  else if x.opcode = tfsOpCodeRead then
    some (.read (intAt x.message 0) (intAt x.message 4) (sizeAt x.message 8))
  else if x.opcode = tfsOpCodeShutdownAfterAllClosed then some (.shutdown (intAt x.message 0))
  else none

def receiver (e : Setting) (opcode : Nat) : Option (Nat → Mem → Source → Option (Option Received × Source)) :=
  if opcode = tfsOpCodeMount then some (tfsMount e)
  else if opcode = tfsOpCodeUnmount then some tfsUnmount
  else if opcode = tfsOpCodeOpen then some tfsOpenServer
  else if opcode = tfsOpCodeClose then some tfsCloseServer
  else if opcode = tfsOpCodeWrite then some (tfsWriteServer e)
  else if opcode = tfsOpCodeRead then some tfsReadServer
  else if opcode = tfsOpCodeShutdownAfterAllClosed then some tfsShutdownServer
  else none

/-- Turns of the main loop, each with what its function meets and the memory that the variable `message` is in. -/
def receiveAll (fuel : Nat) : List (Setting × Mem) → Source → Option (Option (List Received) × Source)
  | [], p => some (some [], p)
  | (e, m) :: turns, p =>
    match p.read 1 with
    | (none, p) => some (none, p)
    | (some c, p) =>
      match receiver e (atoi (c.headD 0)) with
      | none => receiveAll fuel turns p
      | some f =>
        match f fuel m p with
        | none => none
        | some (none, p) => some (none, p)
        | some (some x, p) => (receiveAll fuel turns p).map fun y => (y.1.map fun xs => x :: xs, y.2)

theorem receiver_opcode (e : Setting) (x : Message) :
    receiver e (atoi (opcodeConvert x.opcode)) = some (x.receive e) := by
  have hlt : x.opcode < 10 := by cases x <;> exact Nat.le_of_ble_eq_true rfl
  rw [atoi_opcodeConvert x.opcode hlt]
  cases x <;> rfl

theorem stringAt_fields {field : List UInt8} {clientPipe : CString} (h : clientPipe.strlen < maxPipenameSize) :
    stringAt (Message.fields field (.mount clientPipe)) 0 maxPipenameSize = some clientPipe := by
  obtain ⟨k, hk⟩ : ∃ k, maxPipenameSize - clientPipe.strlen = k + 1 :=
    ⟨_, (Nat.succ_pred (Nat.sub_ne_zero_of_lt h)).symm⟩
  rw [Message.fields, hk, List.replicate_succ]
  have hlen : (clientPipe.bytes ++ 0 :: List.replicate k 0).length = maxPipenameSize := by
    have hs : clientPipe.strlen = clientPipe.bytes.length := rfl
    simp only [List.length_append, List.length_cons, List.length_replicate]
    omega
  have hat := stringAt_append List.length_nil hlen []
  rw [List.nil_append, List.append_nil] at hat
  rw [hat, CString.ofField_strcpy]

theorem request_received {field : List UInt8} {x : Message} (h : x.Sendable field) (e : Setting) :
    (Request.received ⟨x, field, e⟩).request = some x := by
  unfold Request.received
  cases x with
  | mount clientPipe =>
    rw [Received.request, Message.opcode, if_pos rfl, stringAt_fields h]
    rfl
  | unmount sessionId =>
    have hid := intAt_append List.length_nil h []
    rw [List.nil_append, List.append_nil] at hid
    simp [Received.request, Message.opcode, Message.fields, hid, tfsOpCodeUnmount, tfsOpCodeMount]
  | «open» sessionId name flags =>
    obtain ⟨hs, hn, hf, hj⟩ := h
    obtain ⟨hid, hname, hflags, -⟩ := openMessage_fields hs hj hn hf
    simp only [Received.request, Message.opcode, Message.fields, hid, hname, hflags, tfsOpCodeUnmount, tfsOpCodeMount,
      tfsOpCodeOpen]
    rfl
  | close sessionId fhandle =>
    obtain ⟨hid, hh⟩ := closeMessage_fields h.1 h.2
    simp [Received.request, Message.opcode, Message.fields, hid, hh, tfsOpCodeUnmount, tfsOpCodeMount, tfsOpCodeOpen,
      tfsOpCodeClose]
  | write sessionId fhandle buffer =>
    obtain ⟨hid, hh, hl, -⟩ := transferMessage_fields h.1 h.2.1 h.2.2 []
    rw [List.append_nil] at hid hh hl
    simp [Received.request, Message.opcode, Message.fields, Message.body, hid, hh, hl, tfsOpCodeUnmount, tfsOpCodeMount,
      tfsOpCodeOpen, tfsOpCodeClose, tfsOpCodeWrite]
  | read sessionId fhandle len =>
    obtain ⟨hid, hh, hl, -⟩ := transferMessage_fields h.1 h.2.1 h.2.2 []
    rw [List.append_nil] at hid hh hl
    simp [Received.request, Message.opcode, Message.fields, hid, hh, hl, tfsOpCodeUnmount, tfsOpCodeMount,
      tfsOpCodeOpen, tfsOpCodeClose, tfsOpCodeWrite, tfsOpCodeRead]
  | shutdown sessionId =>
    have hid := intAt_append List.length_nil h []
    rw [List.nil_append, List.append_nil] at hid
    simp [Received.request, Message.opcode, Message.fields, hid, tfsOpCodeUnmount, tfsOpCodeMount,
      tfsOpCodeOpen, tfsOpCodeClose, tfsOpCodeWrite, tfsOpCodeRead, tfsOpCodeShutdownAfterAllClosed]

theorem length_fields {field : List UInt8} {x : Message} (h : x.Sendable field) : (x.fields field).length = x.size := by
  cases x with
  | mount clientPipe =>
    have hs : clientPipe.strlen = clientPipe.bytes.length := rfl
    have hlt : clientPipe.strlen < maxPipenameSize := h
    simp only [Message.fields, Message.size, List.length_append, List.length_replicate]
    omega
  | unmount sessionId => exact length_encodeInt sessionId
  | «open» sessionId name flags => exact (openMessage_fields h.1 h.2.2.2 h.2.1 h.2.2.1).2.2.2
  | close sessionId fhandle => simp [Message.fields, Message.size, closeMessage]
  | write sessionId fhandle buffer => simp [Message.fields, Message.size, transferMessage]
  | read sessionId fhandle len => simp [Message.fields, Message.size, transferMessage]
  | shutdown sessionId => exact length_encodeInt sessionId

theorem size_pos (x : Message) : 1 < x.size := by
  cases x <;> exact Nat.le_of_ble_eq_true rfl

variable {size fuel b : Nat} {e : Setting} {m : Mem} {p p' : Source} {plan : Nat → Nat} {bytes rest : List UInt8}

def sent (bytes : List UInt8) (plan : Nat → Nat) : Source := ⟨bytes, fun k => some (plan k)⟩

/-- How many reads bring `n` bytes, when they bring at most as many as the plan says and one more. -/
def readsFor : Nat → (Nat → Nat) → Nat
  | 0, _ => 0
  | n + 1, plan => 1 + readsFor (n - plan 0) fun k => plan (k + 1)
termination_by n => n

theorem read_sent (bytes : List UInt8) (plan : Nat → Nat) (n : Nat) : (sent bytes plan).read n =
    (some (bytes.take (min (plan 0 + 1) n)), sent (bytes.drop (min (plan 0 + 1) n)) fun k => plan (k + 1)) := rfl

theorem whole_sent : (sent bytes plan).Whole size ↔ size ≤ plan 0 + 1 ∧ size ≤ bytes.length := by
  constructor
  · rintro ⟨c, hc, h⟩
    cases hc
    exact h
  · exact fun h => ⟨plan 0, rfl, h⟩

theorem not_failsEarly_sent : ¬ (sent bytes plan).FailsEarly size := by
  rintro ⟨-, k, hk, -⟩
  cases hk

theorem readLoop_split {cap : Nat} (plan : Nat → Nat) (hlen : b + bytes.length = size) (hcap : size ≤ cap) (m : Mem)
    (rest : List UInt8) (hf : bytes.length < fuel) :
    readLoop 1 size cap fuel b m (sent (bytes ++ rest) plan) =
      some (some (m.store b bytes), sent rest fun k => plan (k + readsFor bytes.length plan)) := by
  induction fuel generalizing b m bytes plan with
  | zero => omega
  | succ fuel ih =>
    rw [readLoop]
    by_cases hlt : b < size
    · rw [if_pos hlt, read_sent]
      obtain ⟨n, hn⟩ : ∃ n, bytes.length = n + 1 := ⟨bytes.length - 1, by omega⟩
      have htake : (bytes ++ rest).take (min (plan 0 + 1) (size - b)) = bytes.take (plan 0 + 1) := by
        rw [List.take_append_of_le_length (by omega), List.take_eq_take_iff]
        omega
      have hdrop : (bytes ++ rest).drop (min (plan 0 + 1) (size - b)) = bytes.drop (plan 0 + 1) ++ rest := by
        by_cases hle : plan 0 + 1 ≤ size - b
        · rw [Nat.min_eq_left hle, List.drop_append_of_le_length (by omega)]
        · rw [Nat.min_eq_right (by omega), List.drop_left' (by omega), List.drop_eq_nil_of_le (by omega),
            List.nil_append]
      have hreads : (bytes.drop (plan 0 + 1)).length = n - plan 0 := by
        rw [List.length_drop]
        omega
      have hin : b * 1 + (bytes.take (plan 0 + 1)).length ≤ cap := by
        rw [List.length_take]
        omega
      simp only [htake, hdrop]
      rw [if_pos (.inr hin)]
      simp only [Nat.mul_one]
      rw [ih _ (by rw [hreads, List.length_take]; omega) _ (by omega), hreads, Mem.store_append, List.take_append_drop,
        hn, readsFor]
      congr 3
      funext k
      congr 1
      omega
    · have hnil : bytes = [] := List.length_eq_zero_iff.mp (by omega)
      subst hnil
      rw [if_neg hlt, Mem.store_nil, List.length_nil, readsFor]
      rfl

theorem receiveThen_sent {β : Type} (after : List UInt8 → Source → Option (Option β × Source))
    (hlen : bytes.length = size) (hpos : 0 < size) (hwhole : size ≤ plan 0 + 1) (m : Mem) (rest : List UInt8)
    (hf : 2 ≤ fuel) : receiveThen size after fuel m (sent (bytes ++ rest) plan) =
      after bytes (sent rest fun k => plan (k + 1)) := by
  have hle : size ≤ (bytes ++ rest).length := by
    rw [List.length_append]
    omega
  rw [receiveThen_whole hf hpos m (whole_sent.mpr ⟨hwhole, hle⟩)]
  simp only [sent, Source.next, List.take_left' hlen, List.drop_left' hlen]

theorem deposit_valid {opcode : Nat} {message body : List UInt8} (h : validIndex maxClients (intAt message 0))
    (p : Source) : deposit opcode message body p = some (some ⟨opcode, message, body⟩, p) := by
  obtain ⟨i, hi⟩ := Option.isSome_iff_exists.mp (sessionIndex_isSome.mpr h)
  rw [deposit, hi]
  rfl

theorem intAt_fields {field : List UInt8} {x : Message} (hx : x.Sendable field) {sessionId : Int}
    (h : sessionId ∈ x.sessionId) : intAt (x.fields field) 0 = sessionId := by
  have hint : ∀ i, IsInt i → intAt (encodeInt i) 0 = i := by
    intro i hi
    have hid := intAt_append List.length_nil hi []
    rwa [List.nil_append, List.append_nil] at hid
  have htransfer : ∀ {i fhandle len}, IsInt i → IsInt fhandle → len < 2 ^ 64 →
      intAt (transferMessage i fhandle len) 0 = i := by
    intro i fhandle len hi hh hl
    obtain ⟨hid, -⟩ := transferMessage_fields hi hh hl []
    rwa [List.append_nil] at hid
  cases x with
  | mount clientPipe => cases h
  | unmount i =>
    cases h
    exact hint sessionId hx
  | «open» i name flags =>
    cases h
    exact (openMessage_fields hx.1 hx.2.2.2 hx.2.1 hx.2.2.1).1
  | close i fhandle =>
    cases h
    exact (closeMessage_fields hx.1 hx.2).1
  | write i fhandle buffer =>
    cases h
    exact htransfer hx.1 hx.2.1 hx.2.2
  | read i fhandle len =>
    cases h
    exact htransfer hx.1 hx.2.1 hx.2.2
  | shutdown i =>
    cases h
    exact hint sessionId hx

theorem receive_sent (plan : Nat → Nat) {field : List UInt8} {x : Message} (hx : x.Sendable field)
    (hwhole : x.size ≤ plan 0 + 1) (hs : x.Succeeds e) (m : Mem) (rest : List UInt8) (hf : x.body.length + 2 ≤ fuel) :
    x.receive e fuel m (sent (x.fields field ++ (x.body ++ rest)) plan) = some (some (Request.received ⟨x, field, e⟩),
      sent rest fun k => plan (k + readsFor x.body.length (fun k => plan (k + 1)) + 1)) := by
  have hlen := length_fields hx
  have hpos : 0 < x.size := Nat.zero_lt_of_lt (size_pos x)
  have hfuel : 2 ≤ fuel := by omega
  have hfixed : ∀ opcode, x.body = [] → ∀ i ∈ x.sessionId,
      receiveMessage opcode x.size fuel m (sent (x.fields field ++ (x.body ++ rest)) plan) =
        some (some ⟨opcode, x.fields field, []⟩,
          sent rest fun k => plan (k + readsFor x.body.length (fun k => plan (k + 1)) + 1)) := by
    intro opcode hbody i hi
    have hv : validIndex maxClients (intAt (x.fields field) 0) := intAt_fields hx hi ▸ hs.1 i hi
    rw [hbody, List.nil_append, List.length_nil, readsFor, receiveMessage, receiveThen_sent _ hlen hpos hwhole m rest hfuel]
    exact deposit_valid hv _
  cases x with
  | mount clientPipe =>
    obtain ⟨-, ⟨fdc, hopen⟩, htable, hfull⟩ := hs
    refine (receiveThen_sent (seatClient e) hlen hpos hwhole m _ hfuel).trans ?_
    rw [seatClient, stringAt_fields hx]
    simp only [Option.bind_some, hopen, htable, if_true, Message.body, List.nil_append, List.length_nil, readsFor]
    rw [if_neg fun ⟨h, hw⟩ => by rw [hfull h] at hw; cases hw]
    rfl
  | write sessionId fhandle buffer =>
    obtain ⟨-, -, hl, -⟩ := transferMessage_fields hx.1 hx.2.1 hx.2.2 []
    rw [List.append_nil] at hl
    have hbody := readLoop_split (fun k => plan (k + 1)) (Nat.zero_add buffer.length) le_rfl m rest (Nat.lt_of_succ_lt hf)
    have hid : intAt (transferMessage sessionId fhandle buffer.length) 0 = sessionId := intAt_fields hx rfl
    have hv : validIndex maxClients (intAt (transferMessage sessionId fhandle buffer.length) 0) := by
      rw [hid]
      exact hs.1 sessionId rfl
    refine (receiveThen_sent (receiveBody e fuel m) hlen hpos hwhole m _ hfuel).trans ?_
    simp only [receiveBody, Message.fields, hl, if_pos hs.2, Message.body, hbody, m.load_store_self 0 buffer]
    exact deposit_valid hv _
  | unmount sessionId => exact hfixed _ rfl _ rfl
  | «open» sessionId name flags => exact hfixed _ rfl _ rfl
  | close sessionId fhandle => exact hfixed _ rfl _ rfl
  | read sessionId fhandle len => exact hfixed _ rfl _ rfl
  | shutdown sessionId => exact hfixed _ rfl _ rfl

theorem seatClient_some {message : List UInt8} {clientPipe : CString} {y : Received}
    (hname : stringAt message 0 maxPipenameSize = some clientPipe) (h : seatClient e message p = some (some y, p')) :
    (∃ fdc, e.openFifo clientPipe = some (some fdc)) ∧ e.tableFree ∧ (e.full → e.writes) := by
  rw [seatClient, hname, Option.bind_some] at h
  cases hopen : e.openFifo clientPipe with
  | none =>
    rw [hopen] at h
    cases h
  | some fdc =>
    rw [hopen] at h
    cases fdc with
    | none => cases h
    | some fdc =>
      simp only at h
      by_cases htable : e.tableFree
      · rw [if_pos htable] at h
        refine ⟨⟨fdc, rfl⟩, htable, fun hfull => ?_⟩
        by_contra hwrites
        rw [if_pos ⟨hfull, Bool.eq_false_of_not_eq_true hwrites⟩] at h
        cases h
      · rw [if_neg htable] at h
        cases h

theorem receiveBody_some {message : List UInt8} {y : Received} (h : receiveBody e fuel m message p = some (some y, p')) :
    sizeAt message 8 ≤ e.room ∧ validIndex maxClients (intAt message 0) := by
  rw [receiveBody] at h
  by_cases hroom : sizeAt message 8 ≤ e.room
  · rw [if_pos hroom] at h
    refine ⟨hroom, ?_⟩
    cases hloop : readLoop 1 (sizeAt message 8) (sizeAt message 8) fuel 0 m p with
    | none =>
      rw [hloop] at h
      cases h
    | some out =>
      rw [hloop] at h
      obtain ⟨content, p₁⟩ := out
      cases content with
      | none => cases h
      | some content => exact deposit_iff.mp ⟨_, h⟩
  · rw [if_neg hroom] at h
    cases h

theorem of_receive {field : List UInt8} {x : Message} {y : Received} (hx : x.Sendable field)
    (h : x.receive e fuel m (sent (x.fields field ++ bytes) plan) = some (some y, p')) :
    x.size ≤ plan 0 + 1 ∧ x.Succeeds e := by
  have hlen := length_fields hx
  have hpos : 0 < x.size := Nat.zero_lt_of_lt (size_pos x)
  have htake : (sent (x.fields field ++ bytes) plan).bytes.take x.size = x.fields field := List.take_left' hlen
  have hthen : ∀ {after : List UInt8 → Source → Option (Option Received × Source)},
      receiveThen x.size after fuel m (sent (x.fields field ++ bytes) plan) = some (some y, p') →
      x.size ≤ plan 0 + 1 ∧ ∃ rest, after (x.fields field) rest = some (some y, p') := by
    intro after h
    rcases receiveThen_cases hpos h with ⟨-, hf⟩ | ⟨-, hw, ha⟩
    · exact absurd hf not_failsEarly_sent
    · rw [htake] at ha
      exact ⟨(whole_sent.mp hw).1, _, ha⟩
  have hfixed : ∀ {opcode}, receiveMessage opcode x.size fuel m (sent (x.fields field ++ bytes) plan) =
      some (some y, p') → x.size ≤ plan 0 + 1 ∧ ∀ i ∈ x.sessionId, validIndex maxClients i := by
    intro opcode h
    obtain ⟨hw, rest, ha⟩ := hthen h
    exact ⟨hw, fun i hi => intAt_fields hx hi ▸ deposit_iff.mp ⟨_, ha⟩⟩
  cases x with
  | mount clientPipe =>
    obtain ⟨hw, rest, ha⟩ := hthen h
    exact ⟨hw, nofun, seatClient_some (stringAt_fields hx) ha⟩
  | write sessionId fhandle buffer =>
    obtain ⟨hw, rest, ha⟩ := hthen h
    obtain ⟨hroom, hv⟩ := receiveBody_some ha
    obtain ⟨-, -, hl, -⟩ := transferMessage_fields hx.1 hx.2.1 hx.2.2 []
    rw [List.append_nil] at hl
    rw [Message.fields, hl] at hroom
    exact ⟨hw, fun i hi => intAt_fields hx hi ▸ hv, hroom⟩
  | unmount sessionId => exact ⟨(hfixed h).1, (hfixed h).2, trivial⟩
  | «open» sessionId name flags => exact ⟨(hfixed h).1, (hfixed h).2, trivial⟩
  | close sessionId fhandle => exact ⟨(hfixed h).1, (hfixed h).2, trivial⟩
  | read sessionId fhandle len => exact ⟨(hfixed h).1, (hfixed h).2, trivial⟩
  | shutdown sessionId => exact ⟨(hfixed h).1, (hfixed h).2, trivial⟩

theorem receiveThen_mono {β : Type} {after after' : List UInt8 → Source → Option (Option β × Source)} {fuel' : Nat}
    {x : Option β × Source} (ha : ∀ message p x, after message p = some x → after' message p = some x)
    (h : receiveThen size after fuel m p = some x) (hf : fuel ≤ fuel') :
    receiveThen size after' fuel' m p = some x := by
  cases hloop : readLoop size size size fuel 0 m p with
  | none =>
    rw [receiveThen, hloop] at h
    cases h
  | some y =>
    rw [receiveThen, hloop] at h
    rw [receiveThen, readLoop_mono hloop hf]
    obtain ⟨message, p₁⟩ := y
    cases message with
    | none => exact h
    | some message => exact ha _ _ _ h

theorem receiveMessage_mono {opcode fuel' : Nat} {x : Option Received × Source}
    (h : receiveMessage opcode size fuel m p = some x) (hf : fuel ≤ fuel') :
    receiveMessage opcode size fuel' m p = some x :=
  receiveThen_mono (fun _ _ _ ha => ha) h hf

theorem receiveBody_mono {message : List UInt8} {fuel' : Nat} {x : Option Received × Source}
    (h : receiveBody e fuel m message p = some x) (hf : fuel ≤ fuel') : receiveBody e fuel' m message p = some x := by
  rw [receiveBody] at h ⊢
  by_cases hroom : sizeAt message 8 ≤ e.room
  · rw [if_pos hroom] at h ⊢
    cases hloop : readLoop 1 (sizeAt message 8) (sizeAt message 8) fuel 0 m p with
    | none =>
      rw [hloop] at h
      cases h
    | some out =>
      rw [readLoop_mono hloop hf]
      rw [hloop] at h
      exact h
  · rw [if_neg hroom] at h
    cases h

theorem receive_mono {x : Message} {y : Option Received × Source} (h : x.receive e fuel m p = some y) {fuel' : Nat}
    (hf : fuel ≤ fuel') : x.receive e fuel' m p = some y := by
  cases x with
  | write sessionId fhandle buffer => exact receiveThen_mono (fun _ _ _ ha => receiveBody_mono ha hf) h hf
  | mount clientPipe => exact receiveThen_mono (fun _ _ _ ha => ha) h hf
  | unmount sessionId => exact receiveMessage_mono h hf
  | «open» sessionId name flags => exact receiveMessage_mono h hf
  | close sessionId fhandle => exact receiveMessage_mono h hf
  | read sessionId fhandle len => exact receiveMessage_mono h hf
  | shutdown sessionId => exact receiveMessage_mono h hf

def stream (xs : List Request) : List UInt8 := xs.flatMap fun x => x.message.encode x.field

/-- The plan after the opcode, the structure in one `read`, and the body. -/
def afterRequest (x : Message) (plan : Nat → Nat) : Nat → Nat :=
  fun k => plan (k + readsFor x.body.length (fun k => plan (k + 2)) + 2)

/-- Every structure comes in the first `read` of its loop, and every function succeeds once its request has come. -/
def AllReceived : List Request → (Nat → Nat) → Prop
  | [], _ => True
  | x :: xs, plan => x.message.size ≤ plan 1 + 1 ∧ x.message.Succeeds x.setting ∧
    AllReceived xs (afterRequest x.message plan)

/-- The main loop receives these requests and nothing else, wherever its variables are, and the worker functions take
them out. -/
def Decodes (xs : List Request) (plan : Nat → Nat) : Prop :=
  (∀ ms, ms.length = xs.length → ∃ fuel p', receiveAll fuel ((xs.map Request.setting).zip ms) (sent (stream xs) plan) =
    some (some (xs.map Request.received), p') ∧ p'.bytes = []) ∧
  ∀ x ∈ xs, x.received.request = some x.message

theorem receiveAll_cons (x : Request) (xs : List Request) (m : Mem) (turns : List (Setting × Mem)) :
    receiveAll fuel ((e, m) :: turns) (sent (stream (x :: xs)) plan) =
      match x.message.receive e fuel m
        (sent (x.message.fields x.field ++ (x.message.body ++ stream xs)) fun k => plan (k + 1)) with
      | none => none
      | some (none, p) => some (none, p)
      | some (some y, p) => (receiveAll fuel turns p).map fun ys => (ys.1.map fun ys => y :: ys, ys.2) := by
  have hmin : min (plan 0 + 1) 1 = 1 := by omega
  have hstream : stream (x :: xs) =
      opcodeConvert x.message.opcode :: (x.message.fields x.field ++ (x.message.body ++ stream xs)) := by
    simp [stream, Message.encode]
  rw [receiveAll, read_sent, hmin, hstream]
  simp only [List.take_succ_cons, List.take_zero, List.drop_succ_cons, List.drop_zero, List.headD_cons, receiver_opcode]

theorem receiveAll_of_allReceived {xs : List Request} (hs : ∀ x ∈ xs, x.message.Sendable x.field)
    (h : AllReceived xs plan) (hf : ∀ x ∈ xs, x.message.body.length + 2 ≤ fuel) {ms : List Mem}
    (hms : ms.length = xs.length) : ∃ plan', receiveAll fuel ((xs.map Request.setting).zip ms) (sent (stream xs) plan) =
      some (some (xs.map Request.received), sent [] plan') := by
  induction xs generalizing ms plan with
  | nil => exact ⟨plan, rfl⟩
  | cons x xs ih =>
    obtain ⟨m, ms, rfl⟩ := List.exists_cons_of_length_eq_add_one hms
    obtain ⟨hx, hxs⟩ := List.forall_mem_cons.mp hs
    obtain ⟨hfx, hfxs⟩ := List.forall_mem_cons.mp hf
    obtain ⟨hwhole, hsucc, hrest⟩ := h
    obtain ⟨plan', hrun⟩ := ih hxs hrest hfxs (Nat.succ.inj hms)
    refine ⟨plan', ?_⟩
    rw [List.map_cons, List.zip_cons_cons, receiveAll_cons,
      receive_sent (fun k => plan (k + 1)) hx hwhole hsucc m _ hfx]
    simp only
    exact Option.map_eq_some_iff.mpr ⟨_, hrun, rfl⟩

theorem receiveAll_cons_some {x : Request} {xs : List Request} {turns : List (Setting × Mem)} {ys : List Received}
    (h : receiveAll fuel ((e, m) :: turns) (sent (stream (x :: xs)) plan) = some (some ys, p')) :
    ∃ y p₁ ys', x.message.receive e fuel m
        (sent (x.message.fields x.field ++ (x.message.body ++ stream xs)) fun k => plan (k + 1)) = some (some y, p₁) ∧
      receiveAll fuel turns p₁ = some (some ys', p') ∧ ys = y :: ys' := by
  rw [receiveAll_cons] at h
  cases hx : x.message.receive e fuel m
      (sent (x.message.fields x.field ++ (x.message.body ++ stream xs)) fun k => plan (k + 1)) with
  | none =>
    rw [hx] at h
    cases h
  | some out =>
    obtain ⟨y, p₁⟩ := out
    rw [hx] at h
    cases y with
    | none => cases h
    | some y =>
      obtain ⟨⟨out, p₂⟩, hrest, hout⟩ := Option.map_eq_some_iff.mp h
      cases out with
      | none => cases hout
      | some ys' =>
        cases hout
        exact ⟨y, p₁, ys', rfl, hrest, rfl⟩

theorem allReceived_of_decodes {xs : List Request} (hs : ∀ x ∈ xs, x.message.Sendable x.field) (h : Decodes xs plan) :
    AllReceived xs plan := by
  induction xs generalizing plan with
  | nil => trivial
  | cons x xs ih =>
    obtain ⟨hx, hxs⟩ := List.forall_mem_cons.mp hs
    obtain ⟨fuel, p', hrun, -⟩ := h.1 (List.replicate (x :: xs).length fun _ => 0) List.length_replicate
    obtain ⟨y, p₁, ys', hy, -, -⟩ := receiveAll_cons_some hrun
    obtain ⟨hwhole, hsucc⟩ := of_receive hx hy
    refine ⟨hwhole, hsucc, ih hxs ⟨fun ms hms => ?_, fun z hz => h.2 z (List.mem_cons_of_mem _ hz)⟩⟩
    obtain ⟨fuel, p', hrun, hp'⟩ := h.1 ((fun _ => 0) :: ms) (congrArg Nat.succ hms)
    obtain ⟨y, p₁, ys', hy, hrest, hys⟩ := receiveAll_cons_some hrun
    have hmax := receive_mono hy (Nat.le_max_left fuel (x.message.body.length + 2))
    rw [receive_sent (fun k => plan (k + 1)) hx hwhole hsucc _ _ (Nat.le_max_right _ _)] at hmax
    obtain ⟨-, rfl⟩ := Prod.mk.inj (Option.some.inj hmax)
    obtain ⟨-, rfl⟩ := List.cons.inj hys
    exact ⟨fuel, p', hrest, hp'⟩

theorem decodes_iff {xs : List Request} (hs : ∀ x ∈ xs, x.message.Sendable x.field) :
    Decodes xs plan ↔ AllReceived xs plan := by
  refine ⟨allReceived_of_decodes hs, fun h => ⟨fun ms hms => ?_, fun x hx => request_received (hs x hx) x.setting⟩⟩
  have hf : ∀ x ∈ xs, x.message.body.length + 2 ≤ (xs.map fun x => x.message.body.length).sum + 2 := by
    intro x hx
    have hle : x.message.body.length ≤ (xs.map fun x => x.message.body.length).sum :=
      List.single_le_sum (fun _ _ => Nat.zero_le _) _ (List.mem_map_of_mem hx)
    omega
  obtain ⟨plan', hrun⟩ := receiveAll_of_allReceived hs h hf hms
  exact ⟨_, _, hrun, rfl⟩

/-- `request_handler` gets the answer, wherever its variable is. -/
def AnswerRecovered (ret : Int) (plan : Nat → Nat) : Prop :=
  ∀ m, ∃ fuel p', requestHandler fuel m (sent (encodeInt ret) plan) = some (some ⟨ret, []⟩, p') ∧ p'.bytes = []

/-- The client's `tfs_read` of `len` bytes gets the count and the bytes. -/
def ReadRecovered (len : Nat) (ret : Int) (data : List UInt8) (plan : Nat → Nat) : Prop :=
  ∀ m, ∃ fuel p', tfsRead len fuel m (sent (encodeInt ret ++ data) plan) = some (some ⟨ret, data⟩, p') ∧ p'.bytes = []

def IsReply (len : Nat) (ret : Int) (data : List UInt8) : Prop :=
  IsInt ret ∧ (ret = -1 ∧ data = [] ∨ ret = data.length ∧ data.length ≤ len)

theorem of_receiveThen_sent {β : Type} {after : List UInt8 → Source → Option (Option β × Source)} {x : Option β × Source}
    (hpos : 0 < size) (h : receiveThen size after fuel m (sent bytes plan) = some x) : size ≤ plan 0 + 1 := by
  rcases receiveThen_cases hpos h with ⟨-, hf⟩ | ⟨-, hw, -⟩
  · exact absurd hf not_failsEarly_sent
  · exact (whole_sent.mp hw).1

theorem answerRecovered_iff {ret : Int} (h : IsInt ret) : AnswerRecovered ret plan ↔ 4 ≤ plan 0 + 1 := by
  constructor
  · intro hrec
    obtain ⟨fuel, p', hrun, -⟩ := hrec fun _ => 0
    exact of_receiveThen_sent (by decide) hrun
  · intro hwhole m
    have hrun := receiveThen_sent (fun answer p => some (some (Answer.mk (decodeInt answer) []), p))
      (length_encodeInt ret) (by decide) hwhole m [] le_rfl
    rw [List.append_nil, h.decode_encode] at hrun
    exact ⟨2, _, hrun, rfl⟩

theorem payload_of_isReply {len : Nat} {ret : Int} {data : List UInt8} (h : IsReply len ret data) :
    payload ret = data.length := by
  obtain ⟨⟨-, hlt⟩, ⟨rfl, rfl⟩ | ⟨rfl, -⟩⟩ := h
  · rfl
  · rw [payload, if_neg (by omega)]
    omega

theorem readRecovered_iff {len : Nat} {ret : Int} {data : List UInt8} (h : IsReply len ret data) :
    ReadRecovered len ret data plan ↔ 4 ≤ plan 0 + 1 := by
  constructor
  · intro hrec
    obtain ⟨fuel, p', hrun, -⟩ := hrec fun _ => 0
    exact of_receiveThen_sent (by decide) hrun
  · intro hwhole m
    have hpayload := payload_of_isReply h
    have hrun := fun fuel (hf : 2 ≤ fuel) => receiveThen_sent (receiveData len fuel m) (length_encodeInt ret) (by decide)
      hwhole (m.store 0 (encodeInt 0)) data hf
    obtain ⟨hint, ⟨rfl, rfl⟩ | ⟨hret, hle⟩⟩ := h
    · refine ⟨2, sent [] fun k => plan (k + 1), ?_, rfl⟩
      rw [tfsRead, hrun 2 le_rfl, receiveData]
      simp only [hint.decode_encode, if_true]
    · have hneg : ret ≠ -1 := by omega
      have hdata := readLoop_split (fun k => plan (k + 1)) (Nat.zero_add data.length) hle m []
        (Nat.lt_add_of_pos_right (n := data.length) (by decide : 0 < 2))
      rw [List.append_nil] at hdata
      refine ⟨data.length + 2, sent [] fun k => plan (k + readsFor data.length (fun k => plan (k + 1)) + 1), ?_, rfl⟩
      rw [tfsRead, hrun _ (Nat.le_add_left 2 _), receiveData]
      simp only [hint.decode_encode, if_neg hneg, hpayload, hdata, Option.map_some, m.load_store_self 0 data]

/-- What is read does not depend on how the reads split the stream, exactly as long as they leave the structures, the
answers and the counts whole and the functions succeed once the requests have come. -/
theorem reassembled_iff {xs : List Request} (hs : ∀ x ∈ xs, x.message.Sendable x.field) {len : Nat} {ret : Int}
    {data : List UInt8} (h : IsReply len ret data) (plan : Nat → Nat) :
    (Decodes xs plan ↔ AllReceived xs plan) ∧ (AnswerRecovered ret plan ↔ 4 ≤ plan 0 + 1) ∧
      (ReadRecovered len ret data plan ↔ 4 ≤ plan 0 + 1) :=
  ⟨decodes_iff hs, answerRecovered_iff h.1, readRecovered_iff h⟩

def usual : Setting where
  room := 8388608
  len := 100
  openFifo := fun _ => some (some 5)
  tableFree := true
  full := false
  writes := true

/-- Reads of at most 48 bytes: the body of 100 bytes comes in three. -/
theorem reassembled_48 :
    let xs : List Request := [⟨.open 0 ⟨[47, 97], by decide⟩ 1, List.replicate 40 7, usual⟩,
      ⟨.write 0 0 (List.replicate 100 7), [], usual⟩, ⟨.unmount 0, [], usual⟩]
    Decodes xs (fun _ => 47) ∧ AnswerRecovered 100 (fun _ => 47) ∧
      ReadRecovered 100 100 (List.replicate 100 7) (fun _ => 47) := by
  have hs : ∀ x ∈ ([⟨.open 0 ⟨[47, 97], by decide⟩ 1, List.replicate 40 7, usual⟩,
      ⟨.write 0 0 (List.replicate 100 7), [], usual⟩, ⟨.unmount 0, [], usual⟩] : List Request),
      x.message.Sendable x.field := by
    simp [Message.Sendable, IsInt, CString.strlen]
  have hreply : IsReply 100 100 (List.replicate 100 7) := ⟨by decide, .inr ⟨rfl, le_rfl⟩⟩
  have h := reassembled_iff hs hreply fun _ => 47
  have hzero : ∀ i ∈ some (0 : Int), validIndex maxClients i := by
    intro i hi
    cases hi
    decide
  exact ⟨h.1.mpr ⟨by decide, ⟨hzero, trivial⟩, by decide, ⟨hzero, by decide⟩, by decide, ⟨hzero, trivial⟩, trivial⟩,
    h.2.1.mpr (by decide), h.2.2.mpr (by decide)⟩

/-- An unmount whose structure comes in two halves. -/
theorem split_unmount : ¬ ∀ (xs : List Request) (plan : Nat → Nat),
    (∀ x ∈ xs, x.message.Sendable x.field) → Decodes xs plan := by
  intro h
  have hs : ∀ x ∈ [Request.mk (.unmount 0) [] usual], x.message.Sendable x.field := by simp [Message.Sendable, IsInt]
  have hall := allReceived_of_decodes hs (h _ (fun _ => 1) hs)
  exact absurd hall.1 (by decide)

end Tecnicofs.Ex2.Reads
