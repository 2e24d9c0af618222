import Mathlib.Data.List.Perm.Basic
import Tecnicofs.Ex2.ClientServer
import Tecnicofs.Ex2.Refinement

namespace Tecnicofs.Ex2

open Bytes

/-- The field that a client fills with the name of its pipe; a longer name would be copied past it. -/
def mountMessage (path : CString) : Option (List UInt8) :=
  if path.strlen ≤ maxPipenameSize then
    some (path.bytes ++ List.replicate (maxPipenameSize - path.strlen) 0)
  else none

/-- `tfs_mount` of the server, with the session it signals.  `openFifo` opens the pipe that a name stands for. -/
def tfsMount (openFifo : CString → Option Nat) (fuel : Nat) (m : Mem) (srv : Server) : Option (Option Nat × Server) := do
  let (message, pipe) ← recv fuel m maxPipenameSize maxPipenameSize srv.serverPipe
  let name ← stringAt message 0 maxPipenameSize
  let fdc ← openFifo name
  if srv.tableLocked then none
  else
    let srv := { srv with serverPipe := pipe, isOpen := Function.update srv.isOpen fdc true }
    match firstFree srv.freesessionEntries maxClients with
    | some i =>
      return (some i, { srv with
        freesessionEntries := Function.update srv.freesessionEntries i .taken
        sessionTable := Function.update srv.sessionTable i
          { clientFd := fdc, threadBuffer := some (encodeInt tfsOpCodeMount ++ message) } })
    | none => return (none, srv.reply fdc (encodeInt (-1)))

def turn (openFifo : CString → Option Nat) (fuel : Nat) (m : Mem) (srv : Server) : Option (Option Nat × Server) :=
  match srv.serverPipe with
  | [] => none
  | c :: pipe =>
    if atoi c = tfsOpCodeMount then tfsMount openFifo fuel m { srv with serverPipe := pipe }
    else (receive fuel m srv).map fun x => (some x.1, x.2)

def attend (openFifo : CString → Option Nat) (fuel : Nat) (m : Mem) (srv : Server) (request : List UInt8) :
    Option Server := do
  let (sId, srv) ← turn openFifo fuel m { srv with serverPipe := srv.serverPipe ++ request }
  match sId with
  | none => some srv
  | some sId => work srv sId

def takeAnswer (fuel : Nat) (m : Mem) (srv : Server) (c : Nat) : Option (Int × Server) := do
  let (answer, pipe) ← requestHandler fuel m (srv.clientPipes c)
  return (answer, { srv with clientPipes := Function.update srv.clientPipes c pipe })

/-- The server and what each client remembers of its mount. -/
structure World where
  srv : Server
  sessionId : Nat → Option Int

inductive Remote
  | mount (path : CString)
  | unmount
  | call (c : Call)

/-- A client's turn; `field` and `m` are what was in the memory of the variables before. -/
structure Turn where
  client : Nat
  remote : Remote
  field : List UInt8
  m : Mem

section
variable (openFifo : CString → Option Nat) (fuel : Nat)

def clientMount (w : World) (x : Turn) (path : CString) : Option (Out × World) := do
  let message ← mountMessage path
  let srv ← attend openFifo fuel x.m w.srv (opcodeConvert tfsOpCodeMount :: message)
  let (sessionId, srv) ← takeAnswer fuel x.m srv x.client
  if sessionId = -1 then return (⟨-1, []⟩, { w with srv := srv })
  else return (⟨0, []⟩, ⟨srv, Function.update w.sessionId x.client (some sessionId)⟩)

def clientUnmount (w : World) (x : Turn) (sessionId : Int) : Option (Out × World) := do
  let srv ← attend openFifo fuel x.m w.srv (opcodeConvert tfsOpCodeUnmount :: encodeInt sessionId)
  let (fail, srv) ← takeAnswer fuel x.m srv x.client
  if fail = -1 then return (⟨-1, []⟩, { w with srv := srv })
  else return (⟨0, []⟩, ⟨srv, Function.update w.sessionId x.client none⟩)

def World.step (w : World) (x : Turn) : Option (Out × World) :=
  match x.remote, w.sessionId x.client with
  | .mount path, _ => clientMount openFifo fuel w x path
  | .unmount, some sessionId => clientUnmount openFifo fuel w x sessionId
  | .call c, some sessionId =>
    (remoteCall fuel w.srv ⟨⟨sessionId, x.client⟩, c, x.field, x.m⟩).map fun y => (y.1, { w with srv := y.2 })
  | .unmount, none | .call _, none => none

end

def Server.init (room : StackRoom) : Server where
  lib := .init
  sessionTable := fun _ => ⟨0, none⟩
  freesessionEntries := fun _ => .free
  serverPipe := []
  clientPipes := fun _ => []
  isOpen := fun _ => false
  tableLocked := false
  stack := room

def World.init (room : StackRoom) : World := ⟨.init room, fun _ => none⟩

structure Service where
  store : ByteFs (List UInt8)
  mounted : List Nat

namespace Service

def init : Service := ⟨.empty, []⟩

def step (v : Service) (x : Turn) : Option (Out × Service) :=
  match x.remote with
  | .mount _ =>
    if v.mounted.length < maxClients then some (⟨0, []⟩, { v with mounted := x.client :: v.mounted })
    else some (⟨-1, []⟩, v)
  | .unmount => some (⟨0, []⟩, { v with mounted := v.mounted.erase x.client })
  | .call c => (v.store.call limits c).map fun y => (y.1, { v with store := y.2 })

end Service

/-- A client mounts when it is not mounted, with a pipe that it made and whose name fits; it calls and unmounts when it
is mounted, and the server has room for the bytes of its calls. -/
def SendableTurn (openFifo : CString → Option Nat) (w : World) (x : Turn) : Prop :=
  x.field.length = maxPipenameSize ∧
    match x.remote with
    | .mount path => w.sessionId x.client = none ∧ path.strlen < maxPipenameSize ∧ openFifo path = some x.client
    | .unmount => w.sessionId x.client ≠ none
    | .call c => w.sessionId x.client ≠ none ∧ Sendable c ∧ w.srv.stack.Fits c ∧ Admissible w.srv.lib c

instance (openFifo : CString → Option Nat) (w : World) : ∀ x, Decidable (SendableTurn openFifo w x)
  | ⟨_, .mount _, _, _⟩ => inferInstanceAs (Decidable (_ ∧ _ ∧ _ ∧ _))
  | ⟨_, .unmount, _, _⟩ => inferInstanceAs (Decidable (_ ∧ _ ≠ _))
  | ⟨_, .call _, _, _⟩ => inferInstanceAs (Decidable (_ ∧ _ ≠ _ ∧ _ ∧ _ ∧ _))

/-- The table of sessions seats the mounted clients and nobody else. -/
structure Hosts (w : World) (mounted : List Nat) : Prop where
  quiet : Quiet w.srv
  unlocked : w.srv.tableLocked = false
  isOpen : ∀ c ∈ mounted, w.srv.isOpen c = true
  nodup : mounted.Nodup
  seat : ∀ c ∈ mounted, ∃ k < maxClients, w.sessionId c = some (k : Int) ∧ w.srv.freesessionEntries k = .taken ∧
    (w.srv.sessionTable k).clientFd = c
  owner : ∀ k < maxClients, w.srv.freesessionEntries k = .taken →
    (w.srv.sessionTable k).clientFd ∈ mounted ∧ w.sessionId (w.srv.sessionTable k).clientFd = some (k : Int)
  outside : ∀ c, c ∉ mounted → w.sessionId c = none

variable {openFifo : CString → Option Nat} {fuel : Nat} {srv : Server} {w : World} {mounted : List Nat} {c k : Nat}

theorem stringAt_mountMessage {path : CString} (hp : path.strlen < maxPipenameSize) :
    ∃ message, mountMessage path = some message ∧ message.length = maxPipenameSize ∧
      stringAt message 0 maxPipenameSize = some path := by
  refine ⟨_, if_pos hp.le, ?_, ?_⟩
  · rw [List.length_append, List.length_replicate]
    simp only [CString.strlen] at hp ⊢
    omega
  · obtain ⟨n, hn⟩ : ∃ n, maxPipenameSize - path.strlen = n + 1 := ⟨maxPipenameSize - path.strlen - 1, by omega⟩
    have hlen : (path.bytes ++ List.replicate (maxPipenameSize - path.strlen) (0 : UInt8)).length ≤ maxPipenameSize := by
      rw [List.length_append, List.length_replicate]
      simp only [CString.strlen] at hp ⊢
      omega
    rw [stringAt, List.drop_zero, List.take_of_length_le hlen, hn, List.replicate_succ]
    exact CString.ofField_strcpy path _

theorem turn_mount (hf : 2 ≤ fuel) (m : Mem) (srv : Server) (hl : srv.tableLocked = false) {path : CString}
    {message : List UInt8}
    (hlen : message.length = maxPipenameSize) (hstring : stringAt message 0 maxPipenameSize = some path)
    (hopen : openFifo path = some c) :
    turn openFifo fuel m { srv with serverPipe := opcodeConvert tfsOpCodeMount :: message } =
      match firstFree srv.freesessionEntries maxClients with
      | none => some (none, { srv with
          serverPipe := []
          isOpen := Function.update srv.isOpen c true
          clientPipes := Function.update srv.clientPipes c (srv.clientPipes c ++ encodeInt (-1)) })
      | some i =>
        some (some i, { srv with
          serverPipe := []
          isOpen := Function.update srv.isOpen c true
          freesessionEntries := Function.update srv.freesessionEntries i .taken
          sessionTable := Function.update srv.sessionTable i ⟨c, some (encodeInt tfsOpCodeMount ++ message)⟩ }) := by
  have hop : atoi (opcodeConvert tfsOpCodeMount) = tfsOpCodeMount := by decide
  have hr : recv fuel m maxPipenameSize maxPipenameSize (message ++ []) = some (message, []) :=
    recv_append hf m maxPipenameSize hlen []
  rw [List.append_nil] at hr
  simp only [turn, hop, if_true, tfsMount, hr, Option.bind_eq_bind, Option.bind_some, hstring, hopen, hl]
  cases firstFree srv.freesessionEntries maxClients with
  | none => simp [Server.reply]
  | some i => rfl

theorem opcode_buffer {opcode : Nat} (ho : opcode < 10) (message : List UInt8) :
    intAt (encodeInt opcode ++ message) 0 = opcode ∧ (encodeInt opcode ++ message).drop 4 = message := by
  have hint : IsInt opcode := by
    simp only [IsInt]
    omega
  exact ⟨intAt_append List.length_nil hint _, List.drop_left' (length_encodeInt _)⟩

theorem attend_mount (hf : 2 ≤ fuel) (m : Mem) (hq : Quiet srv) (hl : srv.tableLocked = false) {path : CString}
    {message : List UInt8}
    (hlen : message.length = maxPipenameSize) (hstring : stringAt message 0 maxPipenameSize = some path)
    (hopen : openFifo path = some c) (hfree : firstFree srv.freesessionEntries maxClients = some k) :
    attend openFifo fuel m srv (opcodeConvert tfsOpCodeMount :: message) = some { srv with
      isOpen := Function.update srv.isOpen c true
      freesessionEntries := Function.update srv.freesessionEntries k .taken
      sessionTable := Function.update srv.sessionTable k ⟨c, none⟩
      clientPipes := Function.update srv.clientPipes c (encodeInt k) } := by
  have hturn := turn_mount hf m srv hl hlen hstring hopen
  rw [hfree] at hturn
  obtain ⟨hop, -⟩ := opcode_buffer (by decide : tfsOpCodeMount < 10) message
  simp only [attend, hq.serverPipe, List.nil_append, hturn, Option.bind_eq_bind, Option.bind_some, work,
    Function.update_self, hop, if_true, workerMount, Server.reply, Server.setBuffer, hq.clientPipes, Function.update_idem,
    List.nil_append]
  rw [← hq.serverPipe]
  rfl

theorem attend_mount_full (hf : 2 ≤ fuel) (m : Mem) (hq : Quiet srv) (hl : srv.tableLocked = false)
    {path : CString} {message : List UInt8}
    (hlen : message.length = maxPipenameSize) (hstring : stringAt message 0 maxPipenameSize = some path)
    (hopen : openFifo path = some c) (hfree : firstFree srv.freesessionEntries maxClients = none) :
    attend openFifo fuel m srv (opcodeConvert tfsOpCodeMount :: message) = some { srv with
      isOpen := Function.update srv.isOpen c true
      clientPipes := Function.update srv.clientPipes c (encodeInt (-1)) } := by
  have hturn := turn_mount hf m srv hl hlen hstring hopen
  rw [hfree] at hturn
  simp only [attend, hq.serverPipe, List.nil_append, hturn, Option.bind_eq_bind, Option.bind_some, hq.clientPipes]

theorem attend_unmount (openFifo : CString → Option Nat) (hf : 2 ≤ fuel) (m : Mem) (hq : Quiet srv)
    (hl : srv.tableLocked = false) (ho : srv.isOpen c = true) (hk : k < maxClients)
    (ht : srv.freesessionEntries k = .taken) (hc : (srv.sessionTable k).clientFd = c) :
    attend openFifo fuel m srv (opcodeConvert tfsOpCodeUnmount :: encodeInt k) = some { srv with
      isOpen := Function.update srv.isOpen c false
      freesessionEntries := Function.update srv.freesessionEntries k .free
      clientPipes := Function.update srv.clientPipes c (encodeInt 0) } := by
  have hvalid : validIndex maxClients k := ⟨Int.natCast_nonneg k, Int.ofNat_lt.mpr hk⟩
  have hindex : sessionIndex k = some k := by rw [sessionIndex, if_pos hvalid, Int.toNat_natCast]
  have hint : IsInt k := by
    simp only [maxClients, IsInt] at *
    omega
  have hid : intAt (encodeInt k) 0 = k := by
    have h := intAt_append List.length_nil hint []
    rwa [List.nil_append, List.append_nil] at h
  have hop : atoi (opcodeConvert tfsOpCodeUnmount) = tfsOpCodeUnmount := by decide
  have hr := recv_append hf m 4 (length_encodeInt k) []
  rw [List.append_nil] at hr
  have hturn : turn openFifo fuel m { srv with serverPipe := opcodeConvert tfsOpCodeUnmount :: encodeInt k } =
      some (some k, { srv with serverPipe := [] }.setBuffer k (some (encodeInt tfsOpCodeUnmount ++ encodeInt k))) := by
    have hne : tfsOpCodeUnmount ≠ tfsOpCodeMount := by decide
    simp only [turn, receive, hop, if_neg hne, if_true, tfsUnmount, receiveMessage, hr, Option.bind_eq_bind,
      Option.bind_some, deposit, hid, hindex, Option.map_some, List.append_nil]
  obtain ⟨hcode, hdrop⟩ := opcode_buffer (by decide : tfsOpCodeUnmount < 10) (encodeInt k)
  have hne : (tfsOpCodeUnmount : Int) ≠ tfsOpCodeMount := by decide
  rw [attend, hq.serverPipe, List.nil_append, hturn]
  simp only [Option.bind_eq_bind, Option.bind_some, work, Server.setBuffer,
    Function.update_self, hcode, hdrop, if_neg hne, if_true, workerUnmount, hid, hindex, hl, ht, Server.reply, hc, ho,
    hq.clientPipes]
  have htable : Function.update srv.sessionTable k ⟨c, none⟩ = srv.sessionTable := by
    rw [Function.update_eq_self_iff, ← hc, ← hq.threadBuffer k]
  have hfree : AllocationState.taken ≠ .free := by decide
  simp only [Option.pure_def, Option.bind_some, Function.update_self, Function.update_idem, htable, if_neg hfree,
    Bool.false_eq_true, if_false, List.nil_append]

theorem takeAnswer_reply (hf : 2 ≤ fuel) (m : Mem) (hq : Quiet srv) (c : Nat) {i : Int} (hi : IsInt i) :
    takeAnswer fuel m { srv with clientPipes := Function.update srv.clientPipes c (encodeInt i) } c = some (i, srv) := by
  have hr := recv_append hf m 4 (length_encodeInt i) []
  rw [List.append_nil] at hr
  have hpipes : Function.update srv.clientPipes c [] = srv.clientPipes := by
    rw [Function.update_eq_self_iff, hq.clientPipes]
  simp only [takeAnswer, requestHandler, Function.update_self, hr, Option.map_some, hi.decode_encode, Option.bind_eq_bind,
    Option.bind_some, Function.update_idem, hpipes]
  rfl

namespace Hosts

theorem init (room : StackRoom) : Hosts (World.init room) [] where
  quiet := ⟨rfl, fun _ => rfl, fun _ => rfl⟩
  unlocked := rfl
  isOpen _ h := by cases h
  nodup := .nil
  seat _ h := by cases h
  owner _ _ h := by cases h
  outside _ _ := rfl

theorem perm (h : Hosts w mounted) : mounted.Perm
    (((List.range maxClients).filter fun k => w.srv.freesessionEntries k = .taken).map
      fun k => (w.srv.sessionTable k).clientFd) := by
  have hnodup : (((List.range maxClients).filter fun k => w.srv.freesessionEntries k = .taken).map
      fun k => (w.srv.sessionTable k).clientFd).Nodup := by
    refine (List.nodup_range.filter _).map_on fun j hj k hk he => ?_
    simp only [List.mem_filter, List.mem_range, decide_eq_true_eq] at hj hk
    have hsame := (h.owner j hj.1 hj.2).2
    rw [he, (h.owner k hk.1 hk.2).2] at hsame
    exact (Int.ofNat_inj.mp (Option.some.inj hsame)).symm
  refine (List.perm_ext_iff_of_nodup h.nodup hnodup).mpr fun c => ⟨fun hc => ?_, fun hc => ?_⟩
  · obtain ⟨k, hk, -, ht, hfd⟩ := h.seat c hc
    exact List.mem_map.mpr ⟨k, List.mem_filter.mpr ⟨List.mem_range.mpr hk, by simpa using ht⟩, hfd⟩
  · obtain ⟨k, hk, rfl⟩ := List.mem_map.mp hc
    simp only [List.mem_filter, List.mem_range, decide_eq_true_eq] at hk
    exact (h.owner k hk.1 hk.2).1

theorem length_lt_iff (h : Hosts w mounted) :
    mounted.length < maxClients ↔ ∃ k < maxClients, w.srv.freesessionEntries k = .free := by
  have hlt := List.length_filter_lt_length_iff_exists (p := fun k => decide (w.srv.freesessionEntries k = .taken))
    (l := List.range maxClients)
  rw [List.length_range] at hlt
  rw [h.perm.length_eq, List.length_map, hlt]
  refine exists_congr fun k => ?_
  rw [List.mem_range, decide_eq_true_eq]
  cases w.srv.freesessionEntries k <;> simp

theorem mem_of_sessionId (h : Hosts w mounted) (hc : w.sessionId c ≠ none) : c ∈ mounted := by
  by_contra hno
  exact hc (h.outside c hno)

theorem client (h : Hosts w mounted) (hc : c ∈ mounted) {i : Int} (hi : w.sessionId c = some i) :
    Mounted w.srv ⟨i, c⟩ := by
  obtain ⟨k, hk, hid, -, hfd⟩ := h.seat c hc
  obtain rfl : i = k := Option.some.inj (hi.symm.trans hid)
  exact ⟨⟨Int.natCast_nonneg k, Int.ofNat_lt.mpr hk⟩, by simpa using hfd, h.isOpen c hc⟩

theorem call (h : Hosts w mounted) (lib : State) : Hosts { w with srv := { w.srv with lib := lib } } mounted :=
  ⟨h.quiet.lib lib, h.unlocked, h.isOpen, h.nodup, h.seat, h.owner, h.outside⟩

theorem refuse (h : Hosts w mounted) (c : Nat) :
    Hosts { w with srv := { w.srv with isOpen := Function.update w.srv.isOpen c true } } mounted where
  quiet := ⟨h.quiet.serverPipe, h.quiet.clientPipes, h.quiet.threadBuffer⟩
  unlocked := h.unlocked
  isOpen d hd := by
    by_cases hdc : d = c
    · simp [hdc]
    · simpa [hdc] using h.isOpen d hd
  nodup := h.nodup
  seat := h.seat
  owner := h.owner
  outside := h.outside

theorem mount (h : Hosts w mounted) (hc : w.sessionId c = none) (hk : k < maxClients)
    (hfree : w.srv.freesessionEntries k = .free) :
    Hosts ⟨{ w.srv with
      isOpen := Function.update w.srv.isOpen c true
      freesessionEntries := Function.update w.srv.freesessionEntries k .taken
      sessionTable := Function.update w.srv.sessionTable k ⟨c, none⟩ },
        Function.update w.sessionId c (some (k : Int))⟩ (c :: mounted) := by
  have hno : c ∉ mounted := fun hm => by
    obtain ⟨j, -, hid, -⟩ := h.seat c hm
    cases hc.symm.trans hid
  exact {
    quiet := ⟨h.quiet.serverPipe, h.quiet.clientPipes, fun i => by
      by_cases hi : i = k
      · simp [hi]
      · simpa [hi] using h.quiet.threadBuffer i⟩
    unlocked := h.unlocked
    isOpen := fun d hd => by
      by_cases hdc : d = c
      · simp [hdc]
      · simpa [hdc] using h.isOpen d ((List.mem_cons.mp hd).resolve_left hdc)
    nodup := List.nodup_cons.mpr ⟨hno, h.nodup⟩
    seat := fun d hd => by
      rcases List.mem_cons.mp hd with rfl | hmem
      · exact ⟨k, hk, by simp⟩
      · obtain ⟨j, hj, hid, ht, hfd⟩ := h.seat d hmem
        have hjk : j ≠ k := by
          rintro rfl
          cases hfree.symm.trans ht
        have hdc : d ≠ c := by
          rintro rfl
          exact hno hmem
        exact ⟨j, hj, by simpa [hjk, hdc] using ⟨hid, ht, hfd⟩⟩
    owner := fun j hj ht => by
      by_cases hjk : j = k
      · simp [hjk]
      · obtain ⟨hm, hid⟩ := h.owner j hj (by simpa [hjk] using ht)
        have hne : (w.srv.sessionTable j).clientFd ≠ c := fun he => hno (he ▸ hm)
        simpa [hjk, hne] using ⟨hm, hid⟩
    outside := fun d hd => by
      obtain ⟨hdc, hd⟩ := not_or.mp (fun h => hd (List.mem_cons.mpr h))
      simpa [hdc] using h.outside d hd }

theorem unmount (h : Hosts w mounted) (hk : k < maxClients) (hc : w.sessionId c = some (k : Int)) :
    Hosts ⟨{ w.srv with
      isOpen := Function.update w.srv.isOpen c false
      freesessionEntries := Function.update w.srv.freesessionEntries k .free },
      Function.update w.sessionId c none⟩ (mounted.erase c) where
  quiet := ⟨h.quiet.serverPipe, h.quiet.clientPipes, h.quiet.threadBuffer⟩
  unlocked := h.unlocked
  isOpen d hd := by
    obtain ⟨hdc, hd⟩ := h.nodup.mem_erase_iff.mp hd
    simpa [hdc] using h.isOpen d hd
  nodup := h.nodup.erase c
  seat d hd := by
    obtain ⟨hdc, hd⟩ := h.nodup.mem_erase_iff.mp hd
    obtain ⟨j, hj, hid, ht, hfd⟩ := h.seat d hd
    have hjk : j ≠ k := by
      rintro rfl
      obtain ⟨i, -, hid', -, hfd'⟩ := h.seat c (h.mem_of_sessionId (by simp [hc]))
      obtain rfl : i = j := Int.ofNat_inj.mp (Option.some.inj (hid'.symm.trans hc))
      exact hdc (hfd.symm.trans hfd')
    exact ⟨j, hj, by simpa [hjk, hdc] using ⟨hid, ht, hfd⟩⟩
  owner j hj ht := by
    have hjk : j ≠ k := by
      rintro rfl
      simp at ht
    obtain ⟨hm, hid⟩ := h.owner j hj (by simpa [hjk] using ht)
    have hne : (w.srv.sessionTable j).clientFd ≠ c := by
      intro he
      rw [he, hc] at hid
      exact hjk (Int.ofNat_inj.mp (Option.some.inj hid)).symm
    exact ⟨h.nodup.mem_erase_iff.mpr ⟨hne, hm⟩, by simpa [hne] using hid⟩
  outside d hd := by
    by_cases hdc : d = c
    · simp [hdc]
    · simpa [hdc] using h.outside d fun hm => hd (h.nodup.mem_erase_iff.mpr ⟨hdc, hm⟩)

end Hosts

theorem World.step_service (hf : 2 ≤ fuel) {v : Service} {x : Turn}
    (h : Hosts w v.mounted ∧ ∃ es, Refines es w.srv.lib v.store) (hp : SendableTurn openFifo w x) :
    ∃ out w' v', World.step openFifo fuel w x = some (out, w') ∧ v.step x = some (out, v') ∧
      Hosts w' v'.mounted ∧ ∃ es, Refines es w'.srv.lib v'.store := by
  obtain ⟨h, es, hr⟩ := h
  obtain ⟨client, remote, field, m⟩ := x
  obtain ⟨hfield, hp⟩ := hp
  cases remote with
  | mount path =>
    obtain ⟨hnone, hpath, hopen⟩ := hp
    obtain ⟨message, hm, hlen, hstring⟩ := stringAt_mountMessage hpath
    cases hfree : firstFree w.srv.freesessionEntries maxClients with
    | none =>
      have hfull : ¬ v.mounted.length < maxClients := by
        rw [h.length_lt_iff]
        rintro ⟨k, hk, hkf⟩
        cases (firstFree_eq_none.mp hfree k hk).symm.trans hkf
      have hrefuse := h.refuse client
      refine ⟨⟨-1, []⟩, _, v, ?_, by simp only [Service.step, if_neg hfull], hrefuse, es, hr⟩
      have hattend := attend_mount_full hf m h.quiet h.unlocked hlen hstring hopen hfree
      have hans := takeAnswer_reply hf m hrefuse.quiet client (by decide : IsInt (-1))
      simp only [World.step, clientMount, hm, hattend, hans, Option.bind_eq_bind, Option.bind_some, if_true]
      rfl
    | some k =>
      obtain ⟨hk, hkf, -⟩ := firstFree_eq_some.mp hfree
      have hroom : v.mounted.length < maxClients := h.length_lt_iff.mpr ⟨k, hk, hkf⟩
      have hmount := h.mount hnone hk hkf
      refine ⟨⟨0, []⟩, _, { v with mounted := client :: v.mounted }, ?_, by simp only [Service.step, if_pos hroom],
        hmount, es, hr⟩
      have hint : IsInt k := by
        simp only [maxClients, IsInt] at *
        omega
      have hne : (k : Int) ≠ -1 := by omega
      have hattend := attend_mount hf m h.quiet h.unlocked hlen hstring hopen hfree
      have hans := takeAnswer_reply hf m hmount.quiet client hint
      simp only [World.step, clientMount, hm, hattend, hans, Option.bind_eq_bind, Option.bind_some, if_neg hne]
      rfl
  | unmount =>
    have hmem := h.mem_of_sessionId hp
    obtain ⟨k, hk, hid, ht, hfd⟩ := h.seat client hmem
    have hunmount := h.unmount hk hid
    refine ⟨⟨0, []⟩, _, { v with mounted := v.mounted.erase client }, ?_, rfl, hunmount, es, hr⟩
    have hne : (0 : Int) ≠ -1 := by decide
    have hattend := attend_unmount openFifo hf m h.quiet h.unlocked (h.isOpen client hmem) hk ht hfd
    have hans := takeAnswer_reply hf m hunmount.quiet client (by decide : IsInt 0)
    simp only [World.step, hid, clientUnmount, hattend, hans, Option.bind_eq_bind, Option.bind_some, if_neg hne]
    rfl
  | call f =>
    obtain ⟨hid, hsend, hfits, hadm⟩ := hp
    obtain ⟨i, hi⟩ := Option.ne_none_iff_exists'.mp hid
    obtain ⟨out, lib, store, hcall, hstore, hr'⟩ := hr.call hadm
    have hremote := remoteCall_eq hf h.quiet (x := ⟨⟨i, client⟩, f, field, m⟩) hfield
      (h.client (h.mem_of_sessionId hid) hi) hsend hcall
    rw [if_pos hfits] at hremote
    refine ⟨out, _, { v with store := store }, ?_, by simp only [Service.step, hstore, Option.map_some], h.call lib,
      hr'⟩
    simp only [World.step, hi, hremote, Option.map_some]

/-- Clients that mount, call and unmount over the pipes get the answers of a store of byte strings with room for
`MAX_CLIENTS` clients, whatever sessions they are given; after it the pipes are empty. -/
theorem turns_served (hf : 2 ≤ fuel) {room : StackRoom} {xs : List Turn}
    (ha : Runs.Along (World.step openFifo fuel) (SendableTurn openFifo) (World.init room) xs) :
    ∃ outs w v, Runs.run (World.step openFifo fuel) (World.init room) xs = some (outs, w) ∧
      Runs.run Service.step .init xs = some (outs, v) ∧ Quiet w.srv ∧ ∀ c, c ∈ v.mounted ↔ w.sessionId c ≠ none := by
  have hstart : Hosts (World.init room) Service.init.mounted ∧
      ∃ es, Refines es (World.init room).srv.lib Service.init.store := by
    refine ⟨.init room, [], ?_⟩
    simp only [World.init, Server.init, Service.init]
    exact init_refines
  obtain ⟨outs, w, v, hw, hv, h, -⟩ := Runs.run_simulation
    (R := fun (w : World) (v : Service) => Hosts w v.mounted ∧ ∃ es, Refines es w.srv.lib v.store) id
    (fun _ _ _ h hp => World.step_service hf h hp) hstart ha
  refine ⟨outs, w, v, hw, by simpa using hv, h.quiet, fun c => ⟨fun hc => ?_, h.mem_of_sessionId⟩⟩
  obtain ⟨k, -, hid, -⟩ := h.seat c hc
  simp [hid]

def fifoOf (path : CString) : Option Nat :=
  match path.bytes with
  | [b] => some (b.toNat - 1)
  | _ => none

def mountTurn (c : Nat) (b : UInt8) (h : 0 ∉ [b]) : Turn := ⟨c, .mount ⟨[b], h⟩, List.replicate 40 7, fun _ => 7⟩

/-- The third client takes the session that the first gives up and reads what the first wrote. -/
theorem turns_served_three :
    let open_ : Call := .open (some ⟨[47, 97], by decide⟩) tfsOCreat
    let xs : List Turn := [mountTurn 0 1 (by decide), mountTurn 1 2 (by decide),
      ⟨0, .call open_, List.replicate 40 7, fun _ => 7⟩,
      ⟨0, .call (.write 0 [1, 2]), List.replicate 40 7, fun _ => 7⟩,
      ⟨0, .unmount, List.replicate 40 7, fun _ => 7⟩, mountTurn 2 3 (by decide),
      ⟨2, .call open_, List.replicate 40 7, fun _ => 7⟩, ⟨2, .call (.read 1 5), List.replicate 40 7, fun _ => 7⟩]
    ∃ outs w v, Runs.run (World.step fifoOf 2) (World.init ⟨8388608, 8388608, 8388608⟩) xs = some (outs, w) ∧
      Runs.run Service.step .init xs = some (outs, v) ∧ Quiet w.srv ∧ ∀ c, c ∈ v.mounted ↔ w.sessionId c ≠ none :=
  turns_served le_rfl (by decide +kernel)

end Tecnicofs.Ex2
