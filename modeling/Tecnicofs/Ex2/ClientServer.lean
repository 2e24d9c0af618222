import Tecnicofs.Ex2.Protocol
import Tecnicofs.Lib.Runs

namespace Tecnicofs.Ex2

open Bytes

/-- The arguments have their C types, and a path name fits in its field. -/
def Sendable : Call → Prop
  | .open name flags => (∃ p ∈ name, p.strlen < maxPipenameSize) ∧ IsInt flags
  | .close fhandle => IsInt fhandle
  | .write fhandle buffer => IsInt fhandle ∧ buffer.length + 17 < 2 ^ 64
  | .read fhandle len => IsInt fhandle ∧ len < 2 ^ 64

instance : ∀ c, Decidable (Sendable c)
  | .open _ _ => inferInstanceAs (Decidable (_ ∧ _))
  | .close _ => inferInstanceAs (Decidable (IsInt _))
  | .write _ _ => inferInstanceAs (Decidable (_ ∧ _))
  | .read _ _ => inferInstanceAs (Decidable (_ ∧ _))

/-- Nothing is under way. -/
structure Quiet (srv : Server) : Prop where
  serverPipe : srv.serverPipe = []
  clientPipes : ∀ fd, srv.clientPipes fd = []
  threadBuffer : ∀ i, (srv.sessionTable i).threadBuffer = none

/-- The client's session is in the table, and its entry has the client's pipe, which is open. -/
structure Mounted (srv : Server) (x : Client) : Prop where
  session : validIndex maxClients x.sessionId
  clientFd : (srv.sessionTable x.sessionId.toNat).clientFd = x.pipe
  isOpen : srv.isOpen x.pipe = true

theorem addToOpenFileTable_ret (f : OpenFiles) (inum : Int) (o : Nat) :
    -1 ≤ (addToOpenFileTable f inum o).1 ∧ (addToOpenFileTable f inum o).1 < maxOpenFiles := by
  unfold addToOpenFileTable
  cases h : firstFree f.freeOpenFileEntries maxOpenFiles with
  | none => simp
  | some i =>
    have hi := (firstFree_eq_some.mp h).1
    simp at hi ⊢
    omega

theorem tfsOpen_ret {s : State} {name : Option CString} {flags : Int} {x : Int × State}
    (h : tfsOpen s name flags = some x) : IsInt x.1 := by
  have hneg : IsInt (-1) := by constructor <;> omega
  have handle : ∀ (t : State) (inum : Int) (o : Nat), IsInt (openHandle t inum o).1 := by
    intro t inum o
    have hr := addToOpenFileTable_ret t.toOpenFiles inum o
    simp only [openHandle, IsInt, maxOpenFiles] at *
    omega
  have hun : ∀ {y : Int × State}, tfsOpenUnsynchronized s name flags = some y → IsInt y.1 := by
    intro y hy
    unfold tfsOpenUnsynchronized at hy
    simp only at hy
    split at hy
    · split at hy
      · cases hy
        exact hneg
      · split at hy <;> split at hy <;> cases hy <;> first | exact hneg | exact handle ..
    · split at hy
      · split at hy
        · cases hy
          exact hneg
        · split at hy
          · cases hy
          · split at hy <;> cases hy <;> first | exact hneg | exact handle ..
      · cases hy
        exact hneg
  unfold tfsOpen at h
  split at h
  · cases h
    exact hneg
  · obtain ⟨y, hy, rfl⟩ := Option.map_eq_some_iff.mp h
    exact hun (y := y) hy

theorem tfsClose_ret (s : State) (fhandle : Int) : (tfsClose s fhandle).1 = 0 ∨ (tfsClose s fhandle).1 = -1 := by
  by_cases ho : s.toOpenFiles.IsOpen fhandle
  · rw [tfsClose_of_isOpen ho]
    exact .inl rfl
  · rw [tfsClose_of_not ho]
    exact .inr rfl

theorem tfsWrite_ret {s : State} {fhandle : Int} {buffer : List UInt8} {x : Int × State}
    (h : tfsWrite s fhandle buffer = some x) : IsInt x.1 := by
  have hneg : IsInt (-1) := by constructor <;> omega
  unfold tfsWrite at h
  cases hf : getOpenFileEntry fhandle with
  | none =>
    rw [hf] at h
    cases h
    exact hneg
  | some file =>
    rw [hf] at h
    cases hi : inodeGet (s.openFileTable file).ofInumber with
    | none =>
      simp only [hi] at h
      cases h
      exact hneg
    | some j =>
      simp only [hi] at h
      generalize toWrite buffer.length (s.openFileTable file).ofOffset = n at h
      split at h
      · split at h
        · cases h
          exact hneg
        · split at h
          · cases h
          · -- the copy stayed in the array
            obtain ⟨d, hd, rfl⟩ := Option.map_eq_some_iff.mp h
            unfold Disk.store at hd
            split at hd
            · next hle hfit =>
              rw [List.length_take_of_le (by omega)] at hfit
              simp only [IsInt, fsDataSize, blockSize, dataBlocks] at hfit ⊢
              omega
            · cases hd
      · next hn =>
        cases h
        have hn : n = 0 := by omega
        rw [hn]
        constructor <;> omega

theorem tfsRead_out {s s' : State} {fhandle : Int} {len : Nat} {out : Out}
    (h : tfsRead s fhandle len = some (out, s')) :
    IsInt out.ret ∧ (out = ⟨-1, []⟩ ∨ out.ret = out.data.length) := by
  have hneg : IsInt (-1) := by constructor <;> omega
  unfold tfsRead at h
  cases hf : getOpenFileEntry fhandle with
  | none =>
    rw [hf] at h
    cases h
    exact ⟨hneg, .inl rfl⟩
  | some file =>
    rw [hf] at h
    cases hi : inodeGet (s.openFileTable file).ofInumber with
    | none =>
      simp only [hi] at h
      cases h
      exact ⟨hneg, .inl rfl⟩
    | some j =>
      simp only [hi] at h
      generalize toRead (s.inodeTable j).iSize (s.openFileTable file).ofOffset len = n at h
      split at h
      · split at h
        · cases h
          exact ⟨hneg, .inl rfl⟩
        · obtain ⟨bytes, hb, he⟩ := Option.map_eq_some_iff.mp h
          cases he
          unfold Disk.load at hb
          split at hb
          · next hfit =>
            cases hb
            refine ⟨?_, .inr (by simp)⟩
            simp only [IsInt, fsDataSize, blockSize, dataBlocks] at hfit ⊢
            omega
          · cases hb
      · next hn =>
        cases h
        have hn : n = 0 := by omega
        subst hn
        exact ⟨by constructor <;> simp, .inr rfl⟩

def replyBytes (out : Out) : List UInt8 := encodeInt out.ret ++ out.data

def receiveCall : Call → Nat → Mem → Server → Option (Nat × Server)
  | .open _ _ => tfsOpenServer
  | .close _ => tfsCloseServer
  | .write _ _ => tfsWriteServer
  | .read _ _ => tfsReadServer

theorem callOpcode_lt (c : Call) : callOpcode c < 10 := by
  cases c <;> simp only [callOpcode, tfsOpCodeOpen, tfsOpCodeClose, tfsOpCodeWrite, tfsOpCodeRead] <;> omega

theorem receive_call (fuel : Nat) (m : Mem) (srv : Server) (c : Call) (pipe : List UInt8) :
    receive fuel m { srv with serverPipe := opcodeConvert (callOpcode c) :: pipe } =
      receiveCall c fuel m { srv with serverPipe := pipe } := by
  have hop := atoi_opcodeConvert (callOpcode c) (callOpcode_lt c)
  unfold receive
  simp only [hop]
  cases c <;> rfl

theorem receive_request {fuel : Nat} (hf : 2 ≤ fuel) (srv : Server) {x : Request}
    (hfield : x.field.length = maxPipenameSize) (hs : validIndex maxClients x.client.sessionId)
    (hc : Sendable x.call) {message : List UInt8}
    (hm : callMessage x.field x.client.sessionId x.call = some message) :
    receive fuel x.m { srv with serverPipe := opcodeConvert (callOpcode x.call) :: (message ++ callBody x.call) } =
      if srv.stack.Receives x.call then
        some (x.client.sessionId.toNat, { srv with serverPipe := [] }.setBuffer x.client.sessionId.toNat
          (some (encodeInt (callOpcode x.call) ++ message ++ callBody x.call)))
      else none := by
  have hsid : IsInt x.client.sessionId := by
    simp only [validIndex, maxClients, IsInt] at *
    omega
  have hindex : sessionIndex x.client.sessionId = some x.client.sessionId.toNat := if_pos hs
  have hfixed : ∀ opcode size, message.length = size → intAt message 0 = x.client.sessionId →
      callBody x.call = [] → receiveMessage fuel x.m opcode size { srv with serverPipe := message } =
        some (x.client.sessionId.toNat, { srv with serverPipe := [] }.setBuffer x.client.sessionId.toNat
          (some (encodeInt opcode ++ message ++ callBody x.call))) := by
    intro opcode size hsize hid hbody
    have hr := recv_append hf x.m size hsize []
    rw [List.append_nil] at hr
    simp [receiveMessage, hr, deposit, hid, hindex, hbody]
  rw [receive_call]
  cases hcall : x.call with
  | «open» name flags =>
    rw [hcall] at hm hc
    obtain ⟨⟨name, rfl, hshort⟩, hflags⟩ := hc
    cases hm
    obtain ⟨h0, -, -, hlen⟩ := openMessage_fields hsid hfield hshort hflags
    have hr := hfixed tfsOpCodeOpen 48 hlen h0 (by rw [hcall]; rfl)
    rw [hcall] at hr
    rw [if_pos (show srv.stack.Receives (.open _ _) from trivial)]
    simp only [callBody, List.append_nil] at hr ⊢
    exact hr
  | close fhandle =>
    rw [hcall] at hm hc
    cases hm
    have h0 := (closeMessage_fields hsid hc).1
    have hr := hfixed tfsOpCodeClose 8 (by simp [closeMessage]) h0 (by rw [hcall]; rfl)
    rw [hcall] at hr
    rw [if_pos (show srv.stack.Receives (.close _) from trivial)]
    simp only [callBody, List.append_nil] at hr ⊢
    exact hr
  | write fhandle buffer =>
    rw [hcall] at hm hc
    cases hm
    have hlen : buffer.length < 2 ^ 64 := by
      have := hc.2
      omega
    obtain ⟨h0, -, h8, -⟩ := transferMessage_fields hsid hc.1 hlen []
    rw [List.append_nil] at h0 h8
    have hsize : (transferMessage x.client.sessionId fhandle buffer.length).length = 16 := by simp [transferMessage]
    have hr := recv_append hf x.m 16 hsize buffer
    have hr' := recv_append hf x.m 1 (rfl : buffer.length = _) []
    rw [List.append_nil] at hr'
    simp only [receiveCall, tfsWriteServer, callBody, hr, Option.bind_eq_bind, Option.bind_some, h8, hr', deposit, h0,
      hindex, Option.map_some]
    rfl
  | read fhandle len =>
    rw [hcall] at hm hc
    cases hm
    have h0 := (transferMessage_fields hsid hc.1 hc.2 []).1
    rw [List.append_nil] at h0
    have hr := hfixed tfsOpCodeRead 16 (by simp [transferMessage]) h0 (by rw [hcall]; rfl)
    rw [hcall] at hr
    rw [if_pos (show srv.stack.Receives (.read _ _) from trivial)]
    simp only [callBody, List.append_nil] at hr ⊢
    exact hr

def workCall : Call → Server → List UInt8 → Option Server
  | .open _ _ => workerOpen
  | .close _ => workerClose
  | .write _ _ => workerWrite
  | .read _ _ => workerRead

theorem work_call {srv : Server} {i : Nat} {c : Call} {message : List UInt8}
    (hbuf : (srv.sessionTable i).threadBuffer = some (encodeInt (callOpcode c) ++ message)) :
    work srv i = (workCall c srv message).map fun srv => srv.setBuffer i none := by
  have hint : IsInt (callOpcode c) := by
    have := callOpcode_lt c
    simp only [IsInt]
    omega
  have hop : intAt (encodeInt (callOpcode c) ++ message) 0 = callOpcode c := intAt_append List.length_nil hint _
  have hdrop : (encodeInt (callOpcode c) ++ message).drop 4 = message := List.drop_left' (length_encodeInt _)
  simp only [work, hbuf, Option.bind_eq_bind, Option.bind_some, hop, hdrop]
  cases c <;> simp only [callOpcode, workCall, tfsOpCodeMount, tfsOpCodeUnmount, tfsOpCodeOpen, tfsOpCodeClose,
    tfsOpCodeWrite, tfsOpCodeRead] <;> exact Option.map_eq_bind.symm

theorem workCall_message {srv : Server} {x : Request} (hfield : x.field.length = maxPipenameSize)
    (hs : validIndex maxClients x.client.sessionId) (hc : Sendable x.call) {message : List UInt8}
    (hm : callMessage x.field x.client.sessionId x.call = some message)
    {out : Out} {lib : State} (hcall : srv.lib.call x.call = some (out, lib)) :
    workCall x.call srv (message ++ callBody x.call) =
      if srv.stack.Serves x.call then
        some ({ srv with lib := lib }.reply (srv.sessionTable x.client.sessionId.toNat).clientFd (replyBytes out))
      else none := by
  have hsid : IsInt x.client.sessionId := by
    simp only [validIndex, maxClients, IsInt] at *
    omega
  have hindex : sessionIndex x.client.sessionId = some x.client.sessionId.toNat := if_pos hs
  cases hx : x.call with
  | «open» name flags =>
    rw [hx] at hm hc hcall
    obtain ⟨⟨name, rfl, hshort⟩, hflags⟩ := hc
    cases hm
    obtain ⟨h0, h4, h44, -⟩ := openMessage_fields hsid hfield hshort hflags
    obtain ⟨y, hy, he⟩ := Option.map_eq_some_iff.mp hcall
    cases he
    rw [if_pos (show srv.stack.Serves (.open _ _) from trivial)]
    simp only [workCall, workerOpen, callBody, List.append_nil, h4, h44, hy, h0, hindex, Option.bind_eq_bind,
      Option.bind_some, replyBytes]
    rfl
  | close fhandle =>
    rw [hx] at hm hc hcall
    cases hm
    cases hcall
    obtain ⟨h0, h4⟩ := closeMessage_fields hsid hc
    rw [if_pos (show srv.stack.Serves (.close _) from trivial)]
    simp only [workCall, workerClose, callBody, List.append_nil, h4, h0, hindex, Option.bind_eq_bind,
      Option.bind_some, replyBytes]
    rfl
  | write fhandle buffer =>
    rw [hx] at hm hc hcall
    cases hm
    have hlen : buffer.length < 2 ^ 64 := by
      have := hc.2
      omega
    obtain ⟨h0, h4, h8, h16⟩ := transferMessage_fields hsid hc.1 hlen buffer
    obtain ⟨y, hy, he⟩ := Option.map_eq_some_iff.mp hcall
    cases he
    simp only [workCall, workerWrite, callBody, h4, h8, h16, List.take_length, hy, h0, hindex, Option.bind_eq_bind,
      Option.bind_some, replyBytes, take_encodeSsize, List.append_nil]
    rfl
  | read fhandle len =>
    rw [hx] at hm hc hcall
    cases hm
    obtain ⟨h0, h4, h8, -⟩ := transferMessage_fields hsid hc.1 hc.2 []
    rw [List.append_nil] at h0 h4 h8
    obtain ⟨hi, hout⟩ := tfsRead_out hcall
    have hdata : (if out.ret = -1 then [] else out.data.take out.ret.toNat) = out.data := by
      rcases hout with rfl | hout
      · rfl
      · rw [if_neg (by omega), hout, Int.toNat_natCast, List.take_length]
    have hcall : tfsRead srv.lib fhandle len = some (out, lib) := hcall
    simp only [workCall, workerRead, callBody, List.append_nil, h4, h8, hcall, h0, hindex, Option.bind_eq_bind,
      Option.bind_some, replyBytes, take_encodeSsize, hi.decode_encode, hdata]
    rfl

theorem finish_reply {fuel : Nat} (hf : 2 ≤ fuel) (m : Mem) {s lib : State} {c : Call} {out : Out}
    (hcall : s.call c = some (out, lib)) : callFinish fuel m (replyBytes out) c = some (out, []) := by
  have hanswer : ∀ out : Out, IsInt out.ret → requestHandler fuel m (replyBytes out) = some (out.ret, out.data) := by
    intro out hi
    rw [requestHandler, replyBytes, recv_append hf m 4 (length_encodeInt _) out.data, Option.map_some,
      hi.decode_encode]
  cases c with
  | «open» name flags =>
    obtain ⟨y, hy, he⟩ := Option.map_eq_some_iff.mp hcall
    cases he
    simp only [callFinish, hanswer ⟨y.1, []⟩ (tfsOpen_ret hy), Option.bind_eq_bind, Option.bind_some]
    split
    · next h => rw [h]; rfl
    · rfl
  | close fhandle =>
    cases hcall
    rcases tfsClose_ret s fhandle with h | h
    · simp only [callFinish, h, hanswer ⟨0, []⟩ (by constructor <;> simp), Option.bind_eq_bind, Option.bind_some]
      rfl
    · simp only [callFinish, h, hanswer ⟨-1, []⟩ (by constructor <;> simp), Option.bind_eq_bind, Option.bind_some]
      rfl
  | write fhandle buffer =>
    obtain ⟨y, hy, he⟩ := Option.map_eq_some_iff.mp hcall
    cases he
    simp only [callFinish, hanswer ⟨y.1, []⟩ (tfsWrite_ret hy), Option.bind_eq_bind, Option.bind_some]
    split
    · next h => rw [h]; rfl
    · rfl
  | read fhandle len =>
    obtain ⟨hi, hout⟩ := tfsRead_out hcall
    simp only [callFinish, hanswer out hi, Option.bind_eq_bind, Option.bind_some]
    rcases hout with rfl | hout
    · rfl
    · have hn : (out.ret % 2 ^ 64).toNat = out.data.length := by
        simp only [IsInt] at hi
        omega
      have hr := recv_append hf m 1 (rfl : out.data.length = _) []
      rw [List.append_nil] at hr
      rw [if_neg (by omega), hn, hr]
      rfl

/-- A call over the pipes is the library's call, and changes nothing else in the server, if the stacks have room for its
bytes; otherwise the server dies. -/
theorem remoteCall_eq {fuel : Nat} (hf : 2 ≤ fuel) {srv : Server} (hq : Quiet srv) {x : Request}
    (hfield : x.field.length = maxPipenameSize) (hm : Mounted srv x.client) (hc : Sendable x.call) {out : Out}
    {lib : State} (hcall : srv.lib.call x.call = some (out, lib)) :
    remoteCall fuel srv x = if srv.stack.Fits x.call then some (out, { srv with lib := lib }) else none := by
  obtain ⟨message, hmes⟩ : ∃ message, callMessage x.field x.client.sessionId x.call = some message := by
    cases hx : x.call with
    | «open» name flags =>
      rw [hx] at hc
      obtain ⟨⟨name, rfl, -⟩, -⟩ := hc
      exact ⟨_, rfl⟩
    | _ => exact ⟨_, rfl⟩
  have hreq : callRequest x.field x.client.sessionId x.call =
      some (opcodeConvert (callOpcode x.call) :: (message ++ callBody x.call)) := by
    rw [callRequest, hmes, Option.map_some]
  have hrecv := receive_request hf srv hfield hm.session hc hmes
  simp only [remoteCall, hreq, hq.serverPipe, List.nil_append, Option.bind_eq_bind, Option.bind_some, hrecv]
  by_cases hmain : srv.stack.Receives x.call
  swap
  · rw [if_neg hmain, if_neg fun h => hmain h.1]
    rfl
  rw [if_pos hmain, Option.bind_some]
  generalize hsrv : ({ srv with serverPipe := [] } : Server).setBuffer x.client.sessionId.toNat
    (some (encodeInt (callOpcode x.call) ++ message ++ callBody x.call)) = srv₁
  have hbuf : (srv₁.sessionTable x.client.sessionId.toNat).threadBuffer =
      some (encodeInt (callOpcode x.call) ++ (message ++ callBody x.call)) := by
    simp [← hsrv, Server.setBuffer]
  have hfd : (srv₁.sessionTable x.client.sessionId.toNat).clientFd = x.client.pipe := by
    simpa [← hsrv, Server.setBuffer] using hm.clientFd
  have hcall₁ : srv₁.lib.call x.call = some (out, lib) := by
    rw [← hsrv]
    exact hcall
  have hstack : srv₁.stack = srv.stack := by rw [← hsrv]; rfl
  have hopen : srv₁.isOpen x.client.pipe = true := by
    rw [← hsrv]
    exact hm.isOpen
  have hwork := work_call hbuf
  rw [workCall_message hfield hm.session hc hmes hcall₁, hfd, hstack] at hwork
  by_cases hserves : srv.stack.Serves x.call
  swap
  · rw [hwork, if_neg hserves, if_neg fun h => hserves h.2]
    rfl
  rw [if_pos hserves, Option.map_some, Server.reply, if_pos hopen] at hwork
  rw [hwork, if_pos ⟨hmain, hserves⟩]
  have hpipe : srv₁.clientPipes = srv.clientPipes := by rw [← hsrv]; rfl
  have hfin := finish_reply hf x.m hcall
  simp only [Option.bind_some, Server.setBuffer, Function.update_self, hpipe, hq.clientPipes, List.nil_append, hfin,
    Function.update_idem]
  -- the buffer and the pipe are empty again
  have htable : Function.update srv₁.sessionTable x.client.sessionId.toNat
      { clientFd := (srv₁.sessionTable x.client.sessionId.toNat).clientFd, threadBuffer := none } =
        srv.sessionTable := by
    rw [← hsrv]
    simp only [Server.setBuffer, Function.update_self, Function.update_idem]
    rw [Function.update_eq_self_iff, ← hq.threadBuffer x.client.sessionId.toNat]
  have hclients : Function.update srv.clientPipes x.client.pipe [] = srv.clientPipes := by
    rw [Function.update_eq_self_iff, hq.clientPipes]
  rw [htable, hclients, ← hsrv]
  rfl

theorem Mounted.lib {srv : Server} {c : Client} (h : Mounted srv c) (lib : State) :
    Mounted { srv with lib := lib } c := ⟨h.session, h.clientFd, h.isOpen⟩

theorem Quiet.lib {srv : Server} (h : Quiet srv) (lib : State) : Quiet { srv with lib := lib } :=
  ⟨h.serverPipe, h.clientPipes, h.threadBuffer⟩

theorem run_remoteCall_iff {fuel : Nat} (hf : 2 ≤ fuel) {srv : Server} (hq : Quiet srv) {xs : List Request}
    (hxs : ∀ x ∈ xs, x.field.length = maxPipenameSize ∧ Mounted srv x.client ∧ Sendable x.call)
    {outs : List Out} {lib : State} (hrun : Runs.run State.call srv.lib (xs.map Request.call) = some (outs, lib)) :
    Runs.run (remoteCall fuel) srv xs = some (outs, { srv with lib := lib }) ↔ ∀ x ∈ xs, srv.stack.Fits x.call := by
  induction xs generalizing srv outs with
  | nil =>
    cases hrun
    exact iff_of_true rfl nofun
  | cons x xs ih =>
    rw [List.map_cons] at hrun
    obtain ⟨out, outs', s, hs, hrun', rfl⟩ := Runs.run_cons_eq_some hrun
    obtain ⟨⟨hfield, hm, hc⟩, hxs⟩ := List.forall_mem_cons.mp hxs
    have hx := remoteCall_eq hf hq hfield hm hc hs
    rw [List.forall_mem_cons]
    by_cases hfits : srv.stack.Fits x.call
    · rw [if_pos hfits] at hx
      have ih := ih (hq.lib s) (fun y hy => ⟨(hxs y hy).1, (hxs y hy).2.1.lib s, (hxs y hy).2.2⟩) hrun'
      rw [and_iff_right hfits, ← ih, Runs.run_cons hx]
      constructor
      · intro h
        obtain ⟨y, hy, he⟩ := Option.map_eq_some_iff.mp h
        obtain ⟨ho, hsrv⟩ := Prod.mk.inj he
        rw [hy, ← (List.cons.inj ho).2, ← hsrv]
      · intro h
        rw [h]
        rfl
    · rw [if_neg hfits] at hx
      exact iff_of_false (fun h => by simp [Runs.run, hx] at h) fun h => hfits h.1

/-- Sequences of calls of mounted clients are answered as the same sequence of direct calls, and after it the pipes
are empty, exactly when the stacks of the server have room for the bytes of every call. -/
theorem remoteCalls_eq_iff {fuel : Nat} (hf : 2 ≤ fuel) {srv : Server} (hq : Quiet srv) {xs : List Request}
    (hxs : ∀ x ∈ xs, x.field.length = maxPipenameSize ∧ Mounted srv x.client ∧ Sendable x.call)
    {outs : List Out} {lib : State} (hrun : Runs.run State.call srv.lib (xs.map Request.call) = some (outs, lib)) :
    Runs.run (remoteCall fuel) srv xs = some (outs, { srv with lib := lib }) ∧ Quiet { srv with lib := lib } ↔
      ∀ x ∈ xs, srv.stack.Fits x.call := by
  rw [and_iff_left (hq.lib lib)]
  exact run_remoteCall_iff hf hq hxs hrun

def twoSessions : Server where
  lib := .init
  sessionTable := fun i => ⟨i + 5, none⟩
  freesessionEntries := fun i => if i < 2 then .taken else .free
  serverPipe := []
  clientPipes := fun _ => []
  isOpen := fun fd => 5 ≤ fd
  tableLocked := false
  stack := ⟨8388608, 8388608, 8388608⟩

theorem quiet_twoSessions : Quiet twoSessions := ⟨rfl, fun _ => rfl, fun _ => rfl⟩

theorem mounted_twoSessions {i : Nat} (hi : i < maxClients) : Mounted twoSessions ⟨i, i + 5⟩ :=
  ⟨⟨by simp, Int.ofNat_lt.mpr hi⟩, rfl, decide_eq_true (Nat.le_add_left 5 i)⟩

theorem slashA_noNul : (0 : UInt8) ∉ [47, 97] := by decide

def twoClients : List Request :=
  [⟨⟨0, 5⟩, .open (some ⟨[47, 97], slashA_noNul⟩) 1, List.replicate 40 7, fun _ => 7⟩,
    ⟨⟨0, 5⟩, .write 0 [1, 2, 3], List.replicate 40 7, fun _ => 7⟩,
    ⟨⟨1, 6⟩, .open (some ⟨[47, 97], slashA_noNul⟩) 0, List.replicate 40 8, fun _ => 8⟩,
    ⟨⟨1, 6⟩, .read 1 10, List.replicate 40 8, fun _ => 8⟩, ⟨⟨0, 5⟩, .close 0, List.replicate 40 7, fun _ => 7⟩]

theorem remoteCalls_two_clients : ∃ outs lib,
    Runs.run (remoteCall 2) twoSessions twoClients = some (outs, { twoSessions with lib := lib }) ∧
      Quiet { twoSessions with lib := lib } := by
  have hxs : ∀ x ∈ twoClients, x.field.length = maxPipenameSize ∧ Mounted twoSessions x.client ∧ Sendable x.call := by
    simp only [twoClients, List.forall_mem_cons, List.not_mem_nil, false_imp_iff, implies_true, and_true]
    exact ⟨⟨rfl, mounted_twoSessions (i := 0) (by decide), by decide⟩,
      ⟨rfl, mounted_twoSessions (i := 0) (by decide), by decide⟩,
      ⟨rfl, mounted_twoSessions (i := 1) (by decide), by decide⟩,
      ⟨rfl, mounted_twoSessions (i := 1) (by decide), by decide⟩,
      rfl, mounted_twoSessions (i := 0) (by decide), by decide⟩
  have hrun : (Runs.run State.call twoSessions.lib (twoClients.map Request.call)).isSome = true := by
    decide +kernel
  obtain ⟨⟨outs, lib⟩, hrun⟩ := Option.isSome_iff_exists.mp hrun
  exact ⟨outs, lib, (remoteCalls_eq_iff le_rfl quiet_twoSessions hxs hrun).mpr (by decide)⟩

/-- The second request of the client, for 16 MiB of its empty file, ends the server. -/
theorem remoteCalls_not_eq : ¬ ∀ (fuel : Nat) (srv : Server) (xs : List Request) (outs : List Out) (lib : State),
    2 ≤ fuel → Quiet srv →
    (∀ x ∈ xs, x.field.length = maxPipenameSize ∧ Mounted srv x.client ∧ Sendable x.call) →
    Runs.run State.call srv.lib (xs.map Request.call) = some (outs, lib) →
    Runs.run (remoteCall fuel) srv xs = some (outs, { srv with lib := lib }) ∧ Quiet { srv with lib := lib } := by
  intro hall
  let xs : List Request :=
    [⟨⟨0, 5⟩, .open (some ⟨[47, 97], slashA_noNul⟩) 1, List.replicate 40 7, fun _ => 7⟩,
      ⟨⟨0, 5⟩, .read 0 16777216, List.replicate 40 7, fun _ => 7⟩]
  have hxs : ∀ x ∈ xs, x.field.length = maxPipenameSize ∧ Mounted twoSessions x.client ∧ Sendable x.call := by
    simp only [xs, List.forall_mem_cons, List.not_mem_nil, false_imp_iff, implies_true, and_true]
    exact ⟨⟨rfl, mounted_twoSessions (i := 0) (by decide), by decide⟩,
      rfl, mounted_twoSessions (i := 0) (by decide), by decide⟩
  have hrun : (Runs.run State.call twoSessions.lib (xs.map Request.call)).isSome = true := by
    decide +kernel
  obtain ⟨⟨outs, lib⟩, hrun⟩ := Option.isSome_iff_exists.mp hrun
  have hfits := (run_remoteCall_iff le_rfl quiet_twoSessions hxs hrun).mp
    (hall 2 twoSessions xs outs lib le_rfl quiet_twoSessions hxs hrun).1
  exact absurd hfits (by decide)

end Tecnicofs.Ex2
