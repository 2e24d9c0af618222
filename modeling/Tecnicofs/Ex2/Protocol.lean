import Tecnicofs.Ex2.Operations

/-! Project 2: the messages that `client/tecnicofs_client_api.c` and `fs/tfs_server.c` exchange, byte by byte.
The structures are packed; a function has no result where the program indexes outside `session_table`, reads a
string that does not end, or waits for bytes that are not in the pipe. -/

namespace Tecnicofs.Ex2

open Bytes

@[simp] def maxPipenameSize : Nat := 40
@[simp] def maxClients : Nat := 20

def tfsOpCodeMount : Nat := 1
def tfsOpCodeUnmount : Nat := 2
def tfsOpCodeOpen : Nat := 3
def tfsOpCodeClose : Nat := 4
def tfsOpCodeWrite : Nat := 5
def tfsOpCodeRead : Nat := 6
def tfsOpCodeShutdownAfterAllClosed : Nat := 7

/-- A `read` that gets all the bytes it asks for. -/
def readWhole (pipe : List UInt8) (n : Nat) : Option (List UInt8 × List UInt8) :=
  if n ≤ pipe.length then some (pipe.take n, pipe.drop n) else none

/-- The loops that read until `size` bytes came; the pointer they add `bytes_read` to steps `scale` bytes. -/
def recvLoop {P : Type} (read : P → Nat → Option (List UInt8 × P)) (scale size : Nat) :
    Nat → Nat → Mem → P → Option (Mem × P)
  | 0, _, _, _ => none
  | fuel + 1, bytesRead, m, p =>
    if bytesRead < size then
      match read p (size - bytesRead) with
      | none => none
      | some (bytes, p) =>
        recvLoop read scale size fuel (bytesRead + bytes.length) (m.store (bytesRead * scale) bytes) p
    else some (m, p)

/-- What such a loop leaves in a variable of `size` bytes, whose memory was `m`. -/
def recv (fuel : Nat) (m : Mem) (scale size : Nat) (pipe : List UInt8) : Option (List UInt8 × List UInt8) :=
  (recvLoop readWhole scale size fuel 0 m pipe).map fun x => (x.1.load 0 size, x.2)

theorem recv_append {fuel : Nat} (hf : 2 ≤ fuel) (m : Mem) (scale : Nat) {size : Nat} {bytes : List UInt8}
    (hs : bytes.length = size) (rest : List UInt8) :
    recv fuel m scale size (bytes ++ rest) = some (bytes, rest) := by
  obtain ⟨fuel, rfl⟩ : ∃ k, fuel = k + 2 := ⟨fuel - 2, by omega⟩
  subst hs
  unfold recv
  rcases Nat.eq_zero_or_pos bytes.length with hz | hpos
  · have hb : bytes = [] := List.length_eq_zero_iff.mp hz
    subst hb
    simp [recvLoop, Mem.load]
  · have hr : readWhole (bytes ++ rest) bytes.length = some (bytes, rest) := by simp [readWhole]
    have hl : (m.store 0 bytes).load 0 bytes.length = bytes := m.load_store_self 0 bytes
    simp [recvLoop, hpos, hr, hl]

/-- The first character `sprintf` writes. -/
def opcodeConvert (opcode : Nat) : UInt8 := UInt8.ofNat ((Nat.toDigits 10 opcode).headD '0').toNat

/-- `atoi` of a string of one character. -/
def atoi (c : UInt8) : Nat := if 48 ≤ c ∧ c ≤ 57 then c.toNat - 48 else 0

theorem atoi_opcodeConvert : ∀ opcode < 10, atoi (opcodeConvert opcode) = opcode := by decide

/-- `strcpy` leaves the rest of the field as it was. -/
def openMessage (junk : List UInt8) (sessionId : Int) (name : CString) (flags : Int) : List UInt8 :=
  encodeInt sessionId ++ overwrite junk 0 (name.bytes ++ [0]) ++ encodeInt flags

def closeMessage (sessionId fhandle : Int) : List UInt8 := encodeInt sessionId ++ encodeInt fhandle

def transferMessage (sessionId fhandle : Int) (len : Nat) : List UInt8 :=
  encodeInt sessionId ++ encodeInt fhandle ++ encodeSize len

def intAt (message : List UInt8) (o : Nat) : Int := decodeInt ((message.drop o).take 4)

def sizeAt (message : List UInt8) (o : Nat) : Nat := decodeSize ((message.drop o).take 8)

def stringAt (message : List UInt8) (o n : Nat) : Option CString := CString.ofField ((message.drop o).take n)

theorem intAt_append {before : List UInt8} {o : Nat} (ho : before.length = o) {i : Int} (hi : IsInt i)
    (rest : List UInt8) : intAt (before ++ (encodeInt i ++ rest)) o = i := by
  have ht : (encodeInt i ++ rest).take 4 = encodeInt i := List.take_left' (length_encodeInt i)
  rw [intAt, List.drop_left' ho, ht, hi.decode_encode]

theorem sizeAt_append {before : List UInt8} {o : Nat} (ho : before.length = o) {n : Nat} (hn : n < 2 ^ 64)
    (rest : List UInt8) : sizeAt (before ++ (encodeSize n ++ rest)) o = n := by
  have ht : (encodeSize n ++ rest).take 8 = encodeSize n := List.take_left' (length_encodeSize n)
  rw [sizeAt, List.drop_left' ho, ht, decodeSize_encodeSize hn]

theorem stringAt_append {before field : List UInt8} {o n : Nat} (ho : before.length = o) (hn : field.length = n)
    (rest : List UInt8) : stringAt (before ++ (field ++ rest)) o n = CString.ofField field := by
  rw [stringAt, List.drop_left' ho, List.take_left' hn]

section
variable {sessionId : Int} (hs : IsInt sessionId)
include hs

theorem closeMessage_fields {fhandle : Int} (hf : IsInt fhandle) :
    intAt (closeMessage sessionId fhandle) 0 = sessionId ∧ intAt (closeMessage sessionId fhandle) 4 = fhandle := by
  have h0 := intAt_append List.length_nil hs (encodeInt fhandle)
  have h4 := intAt_append (length_encodeInt sessionId) hf []
  rw [List.append_nil] at h4
  exact ⟨h0, h4⟩

theorem transferMessage_fields {fhandle : Int} (hf : IsInt fhandle) {len : Nat} (hl : len < 2 ^ 64)
    (body : List UInt8) :
    let message := transferMessage sessionId fhandle len ++ body
    intAt message 0 = sessionId ∧ intAt message 4 = fhandle ∧ sizeAt message 8 = len ∧ message.drop 16 = body := by
  intro message
  have hm : message = encodeInt sessionId ++ (encodeInt fhandle ++ (encodeSize len ++ body)) := by
    simp [message, transferMessage]
  have h0 := intAt_append List.length_nil hs (encodeInt fhandle ++ (encodeSize len ++ body))
  have h4 := intAt_append (length_encodeInt sessionId) hf (encodeSize len ++ body)
  have h8 := sizeAt_append (by simp : (encodeInt sessionId ++ encodeInt fhandle).length = 8) hl body
  rw [List.append_assoc] at h8
  have hd : message.drop 16 = body := List.drop_left' (by simp [transferMessage])
  refine ⟨?_, ?_, ?_, hd⟩ <;> rw [hm]
  · exact h0
  · exact h4
  · exact h8

theorem openMessage_fields {field : List UInt8} (hj : field.length = maxPipenameSize) {name : CString}
    (hn : name.strlen < maxPipenameSize) {flags : Int} (hf : IsInt flags) :
    let message := openMessage field sessionId name flags
    intAt message 0 = sessionId ∧ stringAt message 4 maxPipenameSize = some name ∧ intAt message 44 = flags ∧
      message.length = 48 := by
  intro message
  have hover : overwrite field 0 (name.bytes ++ [0]) =
      name.bytes ++ 0 :: field.drop (name.bytes.length + 1) := by simp [overwrite]
  have hlen : (overwrite field 0 (name.bytes ++ [0])).length = maxPipenameSize := by
    simp only [CString.strlen] at hn
    rw [length_overwrite (Nat.zero_le _), List.length_append, hj]
    simp at hn ⊢
    omega
  have hm : message = encodeInt sessionId ++ (overwrite field 0 (name.bytes ++ [0]) ++ encodeInt flags) := by
    simp [message, openMessage]
  have h0 := intAt_append List.length_nil hs (overwrite field 0 (name.bytes ++ [0]) ++ encodeInt flags)
  have h4 := stringAt_append (length_encodeInt sessionId) hlen (encodeInt flags)
  have hbefore : (encodeInt sessionId ++ overwrite field 0 (name.bytes ++ [0])).length = 44 := by
    rw [List.length_append, hlen, length_encodeInt]
    rfl
  have h44 := intAt_append hbefore hf []
  rw [List.append_nil, List.append_assoc] at h44
  rw [hover, CString.ofField_strcpy, ← hover] at h4
  rw [hm]
  refine ⟨h0, h4, h44, ?_⟩
  rw [List.length_append, List.length_append, hlen, length_encodeInt, length_encodeInt]
  rfl

end

def callOpcode : Call → Nat
  | .open _ _ => tfsOpCodeOpen
  | .close _ => tfsOpCodeClose
  | .write _ _ => tfsOpCodeWrite
  | .read _ _ => tfsOpCodeRead

/-- The structure a call fills; nothing when `strcpy` copies from the null pointer. -/
def callMessage (junk : List UInt8) (sessionId : Int) : Call → Option (List UInt8)
  | .open name flags => name.map fun name => openMessage junk sessionId name flags
  | .close fhandle => some (closeMessage sessionId fhandle)
  | .write fhandle buffer => some (transferMessage sessionId fhandle buffer.length)
  | .read fhandle len => some (transferMessage sessionId fhandle len)

def callBody : Call → List UInt8
  | .write _ buffer => buffer
  | _ => []

def callRequest (junk : List UInt8) (sessionId : Int) (c : Call) : Option (List UInt8) :=
  (callMessage junk sessionId c).map fun message => opcodeConvert (callOpcode c) :: (message ++ callBody c)

/-- The last part of `request_handler`; `server_answer` is an `int`. -/
def requestHandler (fuel : Nat) (m : Mem) (pipe : List UInt8) : Option (Int × List UInt8) :=
  (recv fuel m 4 4 pipe).map fun x => (decodeInt x.1, x.2)

def callFinish (fuel : Nat) (m : Mem) (pipe : List UInt8) : Call → Option (Out × List UInt8)
  | .open _ _ | .write _ _ => do
    let (answer, pipe) ← requestHandler fuel m pipe
    return (⟨if answer = -1 then -1 else answer, []⟩, pipe)
  | .close _ => do
    let (answer, pipe) ← requestHandler fuel m pipe
    return (⟨if answer = -1 then -1 else 0, []⟩, pipe)
  | .read _ _ => do
    let (fileBytesRead, pipe) ← requestHandler fuel m pipe
    if fileBytesRead = -1 then return (⟨-1, []⟩, pipe)
    else
      -- the loop compares with the count as a `size_t`
      let (data, pipe) ← recv fuel m 1 (fileBytesRead % 2 ^ 64).toNat pipe
      return (⟨fileBytesRead, data⟩, pipe)

structure SessionEntry where
  clientFd : Nat
  threadBuffer : Option (List UInt8)

/-- How many bytes the stacks of the threads have left for the array `content` of each function; beyond them the
server dies. -/
structure StackRoom where
  tfsWriteServer : Nat
  workerWrite : Nat
  workerRead : Nat

namespace StackRoom

/-- `content` fits on the stack of the main thread. -/
def Receives (room : StackRoom) : Call → Prop
  | .write _ buffer => buffer.length ≤ room.tfsWriteServer
  | .open _ _ | .close _ | .read _ _ => True

/-- `content` fits on the stack of the worker. -/
def Serves (room : StackRoom) : Call → Prop
  | .write _ buffer => buffer.length ≤ room.workerWrite
  | .read _ len => len ≤ room.workerRead
  | .open _ _ | .close _ => True

def Fits (room : StackRoom) (c : Call) : Prop := room.Receives c ∧ room.Serves c

instance (room : StackRoom) : ∀ c, Decidable (room.Receives c)
  | .write _ _ => inferInstanceAs (Decidable (_ ≤ _))
  | .open _ _ | .close _ | .read _ _ => isTrue trivial

instance (room : StackRoom) : ∀ c, Decidable (room.Serves c)
  | .write _ _ | .read _ _ => inferInstanceAs (Decidable (_ ≤ _))
  | .open _ _ | .close _ => isTrue trivial

instance (room : StackRoom) (c : Call) : Decidable (room.Fits c) := inferInstanceAs (Decidable (_ ∧ _))

end StackRoom

/-- The server, with the bytes in the pipes.  `isOpen` tells which descriptors it has open, `tableLocked` whether a worker
has left `table_lock` locked. -/
structure Server where
  lib : State
  sessionTable : Nat → SessionEntry
  freesessionEntries : Nat → AllocationState
  serverPipe : List UInt8
  clientPipes : Nat → List UInt8
  isOpen : Nat → Bool
  tableLocked : Bool
  stack : StackRoom

namespace Server

def setBuffer (srv : Server) (i : Nat) (buffer : Option (List UInt8)) : Server :=
  { srv with sessionTable := Function.update srv.sessionTable i { srv.sessionTable i with threadBuffer := buffer } }

/-- `write` to a client's pipe; where the descriptor is closed it fails. -/
def reply (srv : Server) (fd : Nat) (bytes : List UInt8) : Server :=
  if srv.isOpen fd then
    { srv with clientPipes := Function.update srv.clientPipes fd (srv.clientPipes fd ++ bytes) }
  else srv

end Server

def sessionIndex (sessionId : Int) : Option Nat :=
  if validIndex maxClients sessionId then some sessionId.toNat else none

/-- The end of the receiving functions: a new buffer with the opcode and the message goes to the session. -/
def deposit (srv : Server) (opcode : Nat) (message body : List UInt8) : Option (Nat × Server) :=
  (sessionIndex (intAt message 0)).map fun i =>
    (i, srv.setBuffer i (some (encodeInt opcode ++ message ++ body)))

def receiveMessage (fuel : Nat) (m : Mem) (opcode size : Nat) (srv : Server) : Option (Nat × Server) := do
  let (message, pipe) ← recv fuel m size size srv.serverPipe
  deposit { srv with serverPipe := pipe } opcode message []

def tfsUnmount (fuel : Nat) (m : Mem) := receiveMessage fuel m tfsOpCodeUnmount 4
def tfsOpenServer (fuel : Nat) (m : Mem) := receiveMessage fuel m tfsOpCodeOpen 48
def tfsCloseServer (fuel : Nat) (m : Mem) := receiveMessage fuel m tfsOpCodeClose 8
def tfsReadServer (fuel : Nat) (m : Mem) := receiveMessage fuel m tfsOpCodeRead 16
def tfsShutdownServer (fuel : Nat) (m : Mem) := receiveMessage fuel m tfsOpCodeShutdownAfterAllClosed 4

def tfsWriteServer (fuel : Nat) (m : Mem) (srv : Server) : Option (Nat × Server) := do
  let (message, pipe) ← recv fuel m 16 16 srv.serverPipe
  if sizeAt message 8 ≤ srv.stack.tfsWriteServer then
    let (content, pipe) ← recv fuel m 1 (sizeAt message 8) pipe
    deposit { srv with serverPipe := pipe } tfsOpCodeWrite message content
  else none

/-- The turn of the main loop for every request but a mount, with the session it is for. -/
def receive (fuel : Nat) (m : Mem) (srv : Server) : Option (Nat × Server) :=
  match srv.serverPipe with
  | [] => none
  | c :: pipe =>
    let srv := { srv with serverPipe := pipe }
    let opcode := atoi c
    if opcode = tfsOpCodeUnmount then tfsUnmount fuel m srv
    else if opcode = tfsOpCodeOpen then tfsOpenServer fuel m srv
    else if opcode = tfsOpCodeClose then tfsCloseServer fuel m srv
    else if opcode = tfsOpCodeWrite then tfsWriteServer fuel m srv
    else if opcode = tfsOpCodeRead then tfsReadServer fuel m srv
    else if opcode = tfsOpCodeShutdownAfterAllClosed then tfsShutdownServer fuel m srv
    else none

def workerMount (srv : Server) (sId : Nat) : Server :=
  srv.reply (srv.sessionTable sId).clientFd (encodeInt sId)

/-- Where the `write` fails, `table_lock` stays locked and the descriptor is not closed. -/
def workerUnmount (srv : Server) (message : List UInt8) : Option Server := do
  let i ← sessionIndex (intAt message 0)
  if srv.tableLocked then none
  else
    let outcome := if srv.freesessionEntries i = .free then -1 else 0
    let srv := { srv with freesessionEntries := Function.update srv.freesessionEntries i .free }
    let fdc := (srv.sessionTable i).clientFd
    if srv.isOpen fdc then
      return { srv.reply fdc (encodeInt outcome) with isOpen := Function.update srv.isOpen fdc false }
    else return { srv with tableLocked := true }

def workerOpen (srv : Server) (message : List UInt8) : Option Server := do
  let name ← stringAt message 4 maxPipenameSize
  let (outcome, lib) ← tfsOpen srv.lib (some name) (intAt message 44)
  let i ← sessionIndex (intAt message 0)
  return { srv with lib := lib }.reply (srv.sessionTable i).clientFd (encodeInt outcome)

def workerClose (srv : Server) (message : List UInt8) : Option Server := do
  let (outcome, lib) := tfsClose srv.lib (intAt message 4)
  let i ← sessionIndex (intAt message 0)
  return { srv with lib := lib }.reply (srv.sessionTable i).clientFd (encodeInt outcome)

/-- Only the low bytes of the `ssize_t` are sent. -/
def workerWrite (srv : Server) (message : List UInt8) : Option Server := do
  if sizeAt message 8 ≤ srv.stack.workerWrite then
    let (bytesWritten, lib) ← tfsWrite srv.lib (intAt message 4) ((message.drop 16).take (sizeAt message 8))
    let i ← sessionIndex (intAt message 0)
    return { srv with lib := lib }.reply (srv.sessionTable i).clientFd ((encodeSsize bytesWritten).take 4)
  else none

def workerRead (srv : Server) (message : List UInt8) : Option Server := do
  if sizeAt message 8 ≤ srv.stack.workerRead then
    let (out, lib) ← tfsRead srv.lib (intAt message 4) (sizeAt message 8)
    let bytesFileRead := decodeInt ((encodeSsize out.ret).take 4)
    let i ← sessionIndex (intAt message 0)
    let answer := if out.ret = -1 then [] else out.data.take out.ret.toNat
    return { srv with lib := lib }.reply (srv.sessionTable i).clientFd (encodeInt bytesFileRead ++ answer)
  else none

def work (srv : Server) (sId : Nat) : Option Server := do
  let buffer ← (srv.sessionTable sId).threadBuffer
  let opcode := intAt buffer 0
  let message := buffer.drop 4
  let srv ←
    if opcode = tfsOpCodeMount then some (workerMount srv sId)
    else if opcode = tfsOpCodeUnmount then workerUnmount srv message
    else if opcode = tfsOpCodeOpen then workerOpen srv message
    else if opcode = tfsOpCodeClose then workerClose srv message
    else if opcode = tfsOpCodeWrite then workerWrite srv message
    else if opcode = tfsOpCodeRead then workerRead srv message
    else some srv
  return srv.setBuffer sId none

structure Client where
  sessionId : Int
  pipe : Nat

/-- A client's call; `field` and `m` are what was in the memory of the variables before. -/
structure Request where
  client : Client
  call : Call
  field : List UInt8
  m : Mem

/-- A call that is served before the next request is taken. -/
def remoteCall (fuel : Nat) (srv : Server) (x : Request) : Option (Out × Server) := do
  let request ← callRequest x.field x.client.sessionId x.call
  let srv := { srv with serverPipe := srv.serverPipe ++ request }
  let (sId, srv) ← receive fuel x.m srv
  let srv ← work srv sId
  let (out, pipe) ← callFinish fuel x.m (srv.clientPipes x.client.pipe) x.call
  return (out, { srv with clientPipes := Function.update srv.clientPipes x.client.pipe pipe })

end Tecnicofs.Ex2
