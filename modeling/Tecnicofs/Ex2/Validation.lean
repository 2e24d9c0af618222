import Tecnicofs.Ex2.Protocol
import Tecnicofs.Lib.Runs

/-! Project 2: which sessions the requests on the server's pipe reach.  Any bytes may arrive, and the main thread and the
workers take turns in any order between their accesses to the tables and to the buffers. -/

namespace Tecnicofs.Ex2

open Bytes

def NamesSession (opcode : Nat) : Prop := tfsOpCodeUnmount ≤ opcode ∧ opcode ≤ tfsOpCodeShutdownAfterAllClosed

instance (opcode : Nat) : Decidable (NamesSession opcode) := inferInstanceAs (Decidable (_ ∧ _))

def CopiesMessage (opcode : Int) : Prop := (tfsOpCodeUnmount : Int) ≤ opcode ∧ opcode ≤ tfsOpCodeRead

instance (opcode : Int) : Decidable (CopiesMessage opcode) := inferInstanceAs (Decidable (_ ∧ _))

def messageSize (opcode : Nat) : Nat :=
  if opcode = tfsOpCodeMount then maxPipenameSize
  else if opcode = tfsOpCodeOpen then 48
  else if opcode = tfsOpCodeClose then 8
  else if opcode = tfsOpCodeWrite ∨ opcode = tfsOpCodeRead then 16
  else 4

def serve (srv : Server) (sId : Nat) (opcode : Int) (buffer : List UInt8) : Option Server :=
  let message := buffer.drop 4
  if opcode = tfsOpCodeMount then some (workerMount srv sId)
  else if opcode = tfsOpCodeUnmount then workerUnmount srv message
  else if opcode = tfsOpCodeOpen then workerOpen srv message
  else if opcode = tfsOpCodeClose then workerClose srv message
  else if opcode = tfsOpCodeWrite then workerWrite srv message
  else if opcode = tfsOpCodeRead then workerRead srv message
  else some srv

theorem work_eq (srv : Server) (sId : Nat) :
    work srv sId = (srv.sessionTable sId).threadBuffer.bind fun buffer =>
      (serve srv sId (intAt buffer 0) buffer).map fun srv => srv.setBuffer sId none := by
  unfold work serve
  cases (srv.sessionTable sId).threadBuffer with
  | none => rfl
  | some buffer =>
    simp only [Option.bind_eq_bind, Option.bind_some, Option.map_eq_bind]
    split_ifs <;> rfl

/-- Where the main thread is: before the opcode, before the structure, before `open` and before `table_lock` in
`tfs_mount`, before the bytes of a write, before the buffer is allocated, before it is filled. -/
inductive MainPhase
  | idle
  | receiving (opcode : Nat)
  | opening (message : List UInt8)
  | seating (message : List UInt8) (fdc : Nat)
  | receivingBody (message : List UInt8)
  | giving (opcode : Nat) (message body : List UInt8)
  | filling (mount : Bool) (i : Nat) (buffer : List UInt8)

/-- Where a worker is: before it finds a buffer, after it took the opcode, after it answered. -/
inductive WorkerPhase
  | waiting
  | looked (opcode : Int)
  | answered

structure Site where
  srv : Server
  main : MainPhase
  worker : Nat → WorkerPhase

def afterMessage (opcode : Nat) (message : List UInt8) : MainPhase :=
  if opcode = tfsOpCodeMount then .opening message
  else if opcode = tfsOpCodeWrite then .receivingBody message
  else .giving opcode message []

/-- `junk` is what the memory from `malloc` holds. -/
inductive ServerEvent
  | arrive (bytes : List UInt8)
  | opcode
  | message (n : Nat)
  | openFifo (fdc : Nat)
  | seat (junk : List UInt8)
  | body
  | give (junk : List UInt8)
  | fill
  | look (k : Nat)
  | answer (k : Nat)
  | free (k : Nat)

def Suffices (opcode : Int) (buffer : List UInt8) : Prop :=
  CopiesMessage opcode → 4 + messageSize opcode.toNat +
    (if opcode = tfsOpCodeWrite then sizeAt (buffer.drop 4) 8 else 0) ≤ buffer.length

instance (opcode : Int) (buffer : List UInt8) : Decidable (Suffices opcode buffer) :=
  inferInstanceAs (Decidable (_ → _))

namespace Site

def init (room : StackRoom) : Site where
  srv := {
    lib := .init
    sessionTable := fun _ => ⟨0, none⟩
    freesessionEntries := fun _ => .free
    serverPipe := []
    clientPipes := fun _ => []
    isOpen := fun fd => fd < 4
    tableLocked := false
    stack := room }
  main := .idle
  worker _ := .waiting

/-- `pthread_mutex_lock(&table_lock)` in `tfs_mount` and the search for a session; when there is one its buffer is
allocated. -/
def seat (x : Site) (message : List UInt8) (fdc : Nat) (junk : List UInt8) : Option Site :=
  if x.srv.tableLocked then none
  else match firstFree x.srv.freesessionEntries maxClients with
  | some i => some { x with
      srv := { x.srv with
        freesessionEntries := Function.update x.srv.freesessionEntries i .taken
        sessionTable := Function.update x.srv.sessionTable i ⟨fdc, some junk⟩
        tableLocked := true }
      main := .filling true i (encodeInt tfsOpCodeMount ++ message) }
  | none => some { x with srv := x.srv.reply fdc (encodeInt (-1)), main := .idle }

/-- The main thread's next step.  A structure that does not come whole has no result: its next part would be stored behind
the variable. -/
def mainStep (x : Site) : ServerEvent → Option Site
  | .opcode =>
    match x.main, x.srv.serverPipe with
    | .idle, c :: pipe => some { x with
        srv := { x.srv with serverPipe := pipe }
        main := if atoi c = tfsOpCodeMount ∨ NamesSession (atoi c) then .receiving (atoi c) else .idle }
    | _, _ => none
  | .message n =>
    match x.main with
    | .receiving opcode =>
      if n = messageSize opcode ∧ n ≤ x.srv.serverPipe.length then some { x with
        srv := { x.srv with serverPipe := x.srv.serverPipe.drop n }
        main := afterMessage opcode (x.srv.serverPipe.take n) }
      else none
    | _ => none
  | .openFifo fdc =>
    match x.main with
    | .opening message =>
      if (stringAt message 0 maxPipenameSize).isSome ∧ x.srv.isOpen fdc = false then some { x with
        srv := { x.srv with isOpen := Function.update x.srv.isOpen fdc true }
        main := .seating message fdc }
      else none
    | _ => none
  | .seat junk =>
    match x.main with
    | .seating message fdc => x.seat message fdc junk
    | _ => none
  | .body =>
    match x.main with
    | .receivingBody message =>
      if sizeAt message 8 ≤ x.srv.stack.tfsWriteServer ∧ sizeAt message 8 ≤ x.srv.serverPipe.length then some { x with
        srv := { x.srv with serverPipe := x.srv.serverPipe.drop (sizeAt message 8) }
        main := .giving tfsOpCodeWrite message (x.srv.serverPipe.take (sizeAt message 8)) }
      else none
    | _ => none
  | .give junk =>
    match x.main with
    | .giving opcode message body => (sessionIndex (intAt message 0)).map fun i => { x with
        srv := x.srv.setBuffer i (some junk)
        main := .filling false i (encodeInt opcode ++ message ++ body) }
    | _ => none
  | .fill =>
    match x.main with
    | .filling mount i buffer => (x.srv.sessionTable i).threadBuffer.map fun _ => { x with
        srv := { x.srv.setBuffer i (some buffer) with tableLocked := if mount then false else x.srv.tableLocked }
        main := .idle }
    | _ => none
  | .arrive _ | .look _ | .answer _ | .free _ => none

def workerStep (x : Site) : ServerEvent → Option Site
  | .look k =>
    match x.worker k with
    | .waiting =>
      if k < maxClients then (x.srv.sessionTable k).threadBuffer.map fun buffer =>
        { x with worker := Function.update x.worker k (.looked (intAt buffer 0)) }
      else none
    | _ => none
  | .answer k =>
    match x.worker k with
    | .looked opcode => (x.srv.sessionTable k).threadBuffer.bind fun buffer =>
      if Suffices opcode buffer then (serve x.srv k opcode buffer).map fun srv =>
        { x with srv := srv, worker := Function.update x.worker k .answered }
      else none
    | _ => none
  | .free k =>
    match x.worker k with
    | .answered => some { x with srv := x.srv.setBuffer k none, worker := Function.update x.worker k .waiting }
    | _ => none
  | _ => none

def step (x : Site) (e : ServerEvent) : Option (Unit × Site) :=
  match e with
  | .arrive bytes => some ((), { x with srv := { x.srv with serverPipe := x.srv.serverPipe ++ bytes } })
  | .look k => (x.workerStep (.look k)).map ((), ·)
  | .answer k => (x.workerStep (.answer k)).map ((), ·)
  | .free k => (x.workerStep (.free k)).map ((), ·)
  | e => (x.mainStep e).map ((), ·)

end Site

/-- The session id in a buffer, for the worker functions that use it. -/
def bufferId (opcode : Int) (buffer : List UInt8) : List Int :=
  if CopiesMessage opcode then [intAt (buffer.drop 4) 0] else []

def InSession (srv : Server) (i : Int) : Prop := validIndex maxClients i ∧ srv.freesessionEntries i.toNat = .taken

instance (srv : Server) (i : Int) : Decidable (InSession srv i) := inferInstanceAs (Decidable (_ ∧ _))

namespace MainPhase

def Fills (k : Nat) : MainPhase → Prop
  | filling _ i _ => i = k
  | idle | receiving _ | opening _ | seating _ _ | receivingBody _ | giving _ _ _ => False

def Whole (n : Nat) : MainPhase → Prop
  | receiving opcode => n = messageSize opcode
  | idle | opening _ | seating _ _ | receivingBody _ | giving _ _ _ | filling _ _ _ => True

/-- The request that is about to get its buffer names a mounted session. -/
def NamesMounted (srv : Server) : MainPhase → Prop
  | giving _ message _ => InSession srv (intAt message 0)
  | idle | receiving _ | opening _ | seating _ _ | receivingBody _ | filling _ _ _ => True

instance (k : Nat) : ∀ p : MainPhase, Decidable (p.Fills k)
  | filling _ i _ => inferInstanceAs (Decidable (i = k))
  | idle | receiving _ | opening _ | seating _ _ | receivingBody _ | giving _ _ _ => isFalse id

instance (n : Nat) : ∀ p : MainPhase, Decidable (p.Whole n)
  | receiving opcode => inferInstanceAs (Decidable (n = messageSize opcode))
  | idle | opening _ | seating _ _ | receivingBody _ | giving _ _ _ | filling _ _ _ => isTrue trivial

instance (srv : Server) : ∀ p : MainPhase, Decidable (p.NamesMounted srv)
  | giving _ message _ => inferInstanceAs (Decidable (InSession srv (intAt message 0)))
  | idle | receiving _ | opening _ | seating _ _ | receivingBody _ | filling _ _ _ => isTrue trivial

end MainPhase

/-- A structure comes in one `read`, a request names a mounted session when its buffer is allocated, and no worker uses a
buffer that is still to be filled. -/
def WholeMountedFilled (x : Site) : ServerEvent → Prop
  | .message n => x.main.Whole n
  | .give _ => x.main.NamesMounted x.srv
  | .look k | .answer k => ¬ x.main.Fills k
  | .arrive _ | .opcode | .openFifo _ | .seat _ | .body | .fill | .free _ => True

instance (x : Site) : ∀ e, Decidable (WholeMountedFilled x e)
  | .message n => inferInstanceAs (Decidable (x.main.Whole n))
  | .give _ => inferInstanceAs (Decidable (x.main.NamesMounted x.srv))
  | .look k | .answer k => inferInstanceAs (Decidable (¬ x.main.Fills k))
  | .arrive _ | .opcode | .openFifo _ | .seat _ | .body | .fill | .free _ => isTrue trivial

theorem reply_frame (srv : Server) (fd : Nat) (bytes : List UInt8) :
    (srv.reply fd bytes).sessionTable = srv.sessionTable ∧
      (srv.reply fd bytes).freesessionEntries = srv.freesessionEntries := by
  unfold Server.reply
  split <;> exact ⟨rfl, rfl⟩

theorem workerUnmount_frame {srv srv' : Server} {message : List UInt8} (h : workerUnmount srv message = some srv') :
    ∃ i, sessionIndex (intAt message 0) = some i ∧ srv'.sessionTable = srv.sessionTable ∧
      srv'.freesessionEntries = Function.update srv.freesessionEntries i .free := by
  obtain ⟨i, hi, he⟩ := Option.bind_eq_some_iff.mp h
  refine ⟨i, hi, ?_⟩
  simp only at he
  by_cases hlocked : srv.tableLocked
  · rw [if_pos hlocked] at he
    cases he
  rw [if_neg hlocked] at he
  by_cases hopen : srv.isOpen (srv.sessionTable i).clientFd
  · rw [if_pos hopen] at he
    cases he
    exact reply_frame _ _ _
  · rw [if_neg hopen] at he
    cases he
    exact ⟨rfl, rfl⟩

theorem serve_frame {srv srv' : Server} {k : Nat} {opcode : Int} {buffer : List UInt8}
    (h : serve srv k opcode buffer = some srv') :
    srv'.sessionTable = srv.sessionTable ∧
      ∀ j : Nat, (∀ i ∈ bufferId opcode buffer, i.toNat ≠ j) →
        srv'.freesessionEntries j = srv.freesessionEntries j := by
  unfold serve at h
  simp only at h
  have frame : ∀ {t : Server}, t.sessionTable = srv.sessionTable → t.freesessionEntries = srv.freesessionEntries →
      t.sessionTable = srv.sessionTable ∧
        ∀ j : Nat, (∀ i ∈ bufferId opcode buffer, i.toNat ≠ j) → t.freesessionEntries j = srv.freesessionEntries j :=
    fun h₁ h₂ => ⟨h₁, fun _ _ => congrFun h₂ _⟩
  split at h
  · cases h
    exact frame (reply_frame ..).1 (reply_frame ..).2
  split at h
  · next hc =>
    obtain ⟨i, hi, htable, hfree⟩ := workerUnmount_frame h
    refine ⟨htable, fun j hj => ?_⟩
    rw [hfree]
    unfold sessionIndex at hi
    split at hi
    · cases hi
      refine Function.update_of_ne (Ne.symm (hj _ ?_)) ..
      simp [bufferId, CopiesMessage, hc, tfsOpCodeUnmount, tfsOpCodeRead]
    · cases hi
  split at h
  · obtain ⟨name, -, h⟩ := Option.bind_eq_some_iff.mp h
    obtain ⟨out, -, h⟩ := Option.bind_eq_some_iff.mp h
    obtain ⟨i, -, he⟩ := Option.bind_eq_some_iff.mp h
    cases he
    exact frame (reply_frame ..).1 (reply_frame ..).2
  split at h
  · obtain ⟨i, -, he⟩ := Option.bind_eq_some_iff.mp h
    cases he
    exact frame (reply_frame ..).1 (reply_frame ..).2
  split at h
  · unfold workerWrite at h
    split at h
    · obtain ⟨out, -, h⟩ := Option.bind_eq_some_iff.mp h
      obtain ⟨i, -, he⟩ := Option.bind_eq_some_iff.mp h
      cases he
      exact frame (reply_frame ..).1 (reply_frame ..).2
    · cases h
  split at h
  · unfold workerRead at h
    split at h
    · obtain ⟨out, -, h⟩ := Option.bind_eq_some_iff.mp h
      obtain ⟨i, -, he⟩ := Option.bind_eq_some_iff.mp h
      cases he
      exact frame (reply_frame ..).1 (reply_frame ..).2
    · cases h
  · cases h
    exact frame rfl rfl

theorem intAt_of_take {message rest : List UInt8} (h : 4 ≤ message.length) :
    intAt (message ++ rest) 0 = intAt message 0 := by
  simp only [intAt, List.drop_zero]
  rw [List.take_append_of_le_length h]

theorem intAt_encodeInt {i : Int} (hi : IsInt i) (rest : List UInt8) : intAt (encodeInt i ++ rest) 0 = i :=
  intAt_append List.length_nil hi rest

theorem inSession_natCast {srv : Server} {k : Nat} :
    InSession srv k ↔ k < maxClients ∧ srv.freesessionEntries k = .taken := by
  have hv : validIndex maxClients (k : Int) ↔ k < maxClients := by
    simp only [validIndex]
    omega
  rw [InSession, hv, Int.toNat_natCast]

def WorkerPhase.opcode (buffer : List UInt8) : WorkerPhase → Int
  | .looked opcode => opcode
  | .waiting | .answered => intAt buffer 0

def MainPhase.HasId : MainPhase → Prop
  | .giving _ message _ | .receivingBody message => 4 ≤ message.length
  | .idle | .receiving _ | .opening _ | .seating _ _ | .filling _ _ _ => True

/-- A buffer that a worker is still to use is a mounted session's and names no other; so does the one that the main thread
is still to fill. -/
structure Buffered (x : Site) : Prop where
  session : ∀ k buffer, x.worker k ≠ .answered → (x.srv.sessionTable k).threadBuffer = some buffer →
    InSession x.srv k ∧ (¬ x.main.Fills k → ∀ i ∈ bufferId ((x.worker k).opcode buffer) buffer, i = k)
  looked : ∀ k opcode, x.worker k = .looked opcode → (x.srv.sessionTable k).threadBuffer ≠ none
  fills : ∀ mount i buffer, x.main = .filling mount i buffer → InSession x.srv i ∧
    ∀ j ∈ bufferId ((x.worker i).opcode buffer) buffer, j = i
  hasId : x.main.HasId

namespace Buffered

variable {x x' : Site}

theorem init (room : StackRoom) : Buffered (Site.init room) where
  session _ _ _ h := by cases h
  looked _ _ h := by cases h
  fills _ _ _ h := by cases h
  hasId := trivial

theorem keep (h : Buffered x) {srv : Server} {main : MainPhase} (ht : srv.sessionTable = x.srv.sessionTable)
    (hf : srv.freesessionEntries = x.srv.freesessionEntries) (hx : ∀ k, ¬ x.main.Fills k) (hm : ∀ k, ¬ main.Fills k)
    (hid : main.HasId) : Buffered { x with srv := srv, main := main } where
  session k buffer ha hb := by
    have hb' : (x.srv.sessionTable k).threadBuffer = some buffer := by rw [← ht]; exact hb
    obtain ⟨hs, hi⟩ := h.session k buffer ha hb'
    rw [inSession_natCast] at hs ⊢
    exact ⟨⟨hs.1, (congrFun hf k).trans hs.2⟩, fun _ => hi (hx k)⟩
  looked k opcode hl := by
    simp only [ht]
    exact h.looked k opcode hl
  fills mount i buffer he := by
    simp only at he
    subst he
    exact absurd rfl (hm i)
  hasId := hid

theorem allocate (h : Buffered x) {srv : Server} {mount : Bool} {i fd : Nat} {junk buffer : List UInt8}
    (ht : srv.sessionTable = Function.update x.srv.sessionTable i ⟨fd, some junk⟩)
    (hf : ∀ j, x.srv.freesessionEntries j = .taken → srv.freesessionEntries j = .taken) (hx : ∀ k, ¬ x.main.Fills k)
    (hi : InSession srv i) (hb : ∀ j ∈ bufferId ((x.worker i).opcode buffer) buffer, j = i) :
    Buffered { x with srv := srv, main := .filling mount i buffer } where
  session k b ha hk := by
    by_cases hki : k = i
    · subst hki
      exact ⟨hi, fun hno => absurd rfl hno⟩
    · simp only [ht, Function.update_of_ne hki] at hk
      obtain ⟨hs, hb'⟩ := h.session k b ha hk
      rw [inSession_natCast] at hs ⊢
      exact ⟨⟨hs.1, hf k hs.2⟩, fun _ => hb' (hx k)⟩
  looked k opcode hl := by
    by_cases hki : k = i
    · subst hki
      simp [ht]
    · simpa only [ht, Function.update_of_ne hki] using h.looked k opcode hl
  fills mount' i' buffer' he := by
    cases he
    exact ⟨hi, hb⟩
  hasId := trivial

theorem seat (h : Buffered x) {message : List UInt8} {fdc : Nat} {junk : List UInt8} (hx : ∀ k, ¬ x.main.Fills k)
    (hs : x.seat message fdc junk = some x') : Buffered x' := by
  unfold Site.seat at hs
  split at hs
  · cases hs
  split at hs
  · next i hfirst =>
    obtain ⟨hi, hfree, -⟩ := firstFree_eq_some.mp hfirst
    cases hs
    refine h.allocate rfl (fun j hj => ?_) hx (inSession_natCast.mpr ⟨hi, Function.update_self ..⟩) fun j hj => ?_
    · by_cases hji : j = i
      · simp [hji]
      · simpa [hji] using hj
    · -- its worker has no buffer, so it has taken no opcode
      have hop : (x.worker i).opcode (encodeInt tfsOpCodeMount ++ message) = tfsOpCodeMount := by
        cases hw : x.worker i with
        | looked opcode =>
          obtain ⟨b, hb⟩ := Option.ne_none_iff_exists'.mp (h.looked i opcode hw)
          have hin := (h.session i b (by simp [hw]) hb).1
          rw [inSession_natCast, hfree] at hin
          cases hin.2
        | waiting => exact intAt_encodeInt (by decide) message
        | answered => exact intAt_encodeInt (by decide) message
      rw [bufferId, hop, if_neg (by decide)] at hj
      cases hj
  · cases hs
    exact h.keep (reply_frame ..).1 (reply_frame ..).2 hx (fun _ => id) trivial

theorem give (h : Buffered x) {opcode i : Nat} {message body junk : List UInt8}
    (hm : x.main = .giving opcode message body) (hin : InSession x.srv (intAt message 0))
    (hi : sessionIndex (intAt message 0) = some i) :
    Buffered { x with
      srv := x.srv.setBuffer i (some junk)
      main := .filling false i (encodeInt opcode ++ message ++ body) } := by
  have hlen : 4 ≤ message.length := by
    have hid := h.hasId
    rwa [hm] at hid
  unfold sessionIndex at hi
  split at hi
  · next hv =>
    cases hi
    have hcast : ((intAt message 0).toNat : Int) = intAt message 0 := by
      obtain ⟨h0, -⟩ := hv
      omega
    refine h.allocate rfl (fun j hj => hj) (fun k hk => by rw [hm] at hk; exact hk) ?_ fun j hj => ?_
    · rw [hcast]
      exact hin
    · have hdrop : (encodeInt opcode ++ message ++ body).drop 4 = message ++ body := by
        rw [List.append_assoc, List.drop_left' (length_encodeInt _)]
      unfold bufferId at hj
      rw [hdrop, intAt_of_take hlen] at hj
      split at hj
      · rw [hcast]
        simpa using hj
      · cases hj
  · cases hi

theorem fill (h : Buffered x) {mount : Bool} {i : Nat} {buffer : List UInt8} (hm : x.main = .filling mount i buffer) :
    Buffered { x with
      srv := { x.srv.setBuffer i (some buffer) with tableLocked := if mount then false else x.srv.tableLocked }
      main := .idle } where
  session k b ha hb := by
    by_cases hki : k = i
    · subst hki
      obtain ⟨hin, hid⟩ := h.fills mount k buffer hm
      simp only [Server.setBuffer, Function.update_self, Option.some.injEq] at hb
      subst hb
      exact ⟨hin, fun _ => hid⟩
    · simp only [Server.setBuffer, Function.update_of_ne hki] at hb
      obtain ⟨hs, hb'⟩ := h.session k b ha hb
      refine ⟨hs, fun _ => hb' ?_⟩
      rw [hm]
      exact fun he => hki he.symm
  looked k opcode hl := by
    by_cases hki : k = i
    · simp [Server.setBuffer, hki]
    · simpa only [Server.setBuffer, Function.update_of_ne hki] using h.looked k opcode hl
  fills _ _ _ he := by cases he
  hasId := trivial

theorem mainStep (h : Buffered x) {e : ServerEvent} (hg : WholeMountedFilled x e) (hs : x.mainStep e = some x') :
    Buffered x' := by
  cases e with
  | opcode =>
    rw [Site.mainStep] at hs
    split at hs
    · next hm hpipe =>
      cases hs
      refine h.keep rfl rfl (fun k => by rw [hm]; exact id) (fun k => ?_) ?_
      · split <;> exact id
      · split <;> exact trivial
    · cases hs
  | message n =>
    simp only [Site.mainStep] at hs
    split at hs
    · next opcode hm =>
      split at hs
      · next hn =>
        cases hs
        refine h.keep rfl rfl (fun k => by rw [hm]; exact id) (fun k => ?_) ?_
        · unfold afterMessage
          split_ifs <;> exact id
        · have hsize : 4 ≤ (x.srv.serverPipe.take n).length := by
            rw [List.length_take_of_le hn.2, hn.1]
            unfold messageSize
            split_ifs <;> decide
          unfold afterMessage
          split_ifs
          · trivial
          · exact hsize
          · exact hsize
      · cases hs
    · cases hs
  | openFifo fdc =>
    simp only [Site.mainStep] at hs
    split at hs
    · next message hm =>
      split at hs
      · cases hs
        exact h.keep rfl rfl (fun k => by rw [hm]; exact id) (fun _ => id) trivial
      · cases hs
    · cases hs
  | seat junk =>
    simp only [Site.mainStep] at hs
    split at hs
    · next message fdc hm => exact h.seat (fun k => by rw [hm]; exact id) hs
    · cases hs
  | body =>
    simp only [Site.mainStep] at hs
    split at hs
    · next message hm =>
      split at hs
      · cases hs
        have hid := h.hasId
        rw [hm] at hid
        exact h.keep rfl rfl (fun k => by rw [hm]; exact id) (fun _ => id) hid
      · cases hs
    · cases hs
  | give junk =>
    simp only [Site.mainStep] at hs
    split at hs
    · next opcode message body hm =>
      obtain ⟨i, hi, he⟩ := Option.map_eq_some_iff.mp hs
      cases he
      rw [WholeMountedFilled, hm] at hg
      exact h.give hm hg hi
    · cases hs
  | fill =>
    simp only [Site.mainStep] at hs
    split at hs
    · next mount i buffer hm =>
      obtain ⟨_, -, he⟩ := Option.map_eq_some_iff.mp hs
      cases he
      exact h.fill hm
    · cases hs
  | arrive | look | answer | free => cases hs

theorem look (h : Buffered x) {k : Nat} {buffer : List UInt8} (hw : x.worker k = .waiting)
    (hb : (x.srv.sessionTable k).threadBuffer = some buffer) (hg : ¬ x.main.Fills k) :
    Buffered { x with worker := Function.update x.worker k (.looked (intAt buffer 0)) } where
  session j b ha hb' := by
    by_cases hjk : j = k
    · subst hjk
      obtain rfl := Option.some.inj (hb.symm.trans hb')
      obtain ⟨hin, hid⟩ := h.session j buffer (by simp [hw]) hb
      rw [hw] at hid
      simp only [Function.update_self]
      exact ⟨hin, hid⟩
    · simp only [Function.update_of_ne hjk] at ha ⊢
      exact h.session j b ha hb'
  looked j opcode hl := by
    by_cases hjk : j = k
    · subst hjk
      exact Option.ne_none_iff_exists'.mpr ⟨buffer, hb⟩
    · simp only [Function.update_of_ne hjk] at hl
      exact h.looked j opcode hl
  fills mount i b hm := by
    have hik : i ≠ k := fun he => hg (by rw [show x.main = _ from hm]; exact he)
    simp only [Function.update_of_ne hik]
    exact h.fills mount i b hm
  hasId := h.hasId

theorem answer (h : Buffered x) {k : Nat} {opcode : Int} {buffer : List UInt8} {srv : Server}
    (hw : x.worker k = .looked opcode) (hb : (x.srv.sessionTable k).threadBuffer = some buffer)
    (hg : ¬ x.main.Fills k) (hs : serve x.srv k opcode buffer = some srv) :
    Buffered { x with srv := srv, worker := Function.update x.worker k .answered } := by
  obtain ⟨htable, hfree⟩ := serve_frame hs
  have hid := (h.session k buffer (by simp [hw]) hb).2 hg
  rw [hw] at hid
  have hkeep : ∀ j : Nat, j ≠ k → InSession x.srv j → InSession srv j := by
    intro j hjk hin
    rw [inSession_natCast] at hin ⊢
    refine ⟨hin.1, (hfree j fun i hi => ?_).trans hin.2⟩
    rw [hid i hi]
    simpa using Ne.symm hjk
  constructor
  · intro j b ha hb'
    by_cases hjk : j = k
    · simp [hjk] at ha
    · simp only [Function.update_of_ne hjk, htable] at ha hb' ⊢
      obtain ⟨hin, hid'⟩ := h.session j b ha hb'
      exact ⟨hkeep j hjk hin, hid'⟩
  · intro j opcode' hl
    by_cases hjk : j = k
    · simp [hjk] at hl
    · simp only [Function.update_of_ne hjk, htable] at hl ⊢
      exact h.looked j opcode' hl
  · intro mount i b hm
    have hik : i ≠ k := fun he => hg (by rw [show x.main = _ from hm]; exact he)
    simp only [Function.update_of_ne hik]
    obtain ⟨hin, hid'⟩ := h.fills mount i b hm
    exact ⟨hkeep i hik hin, hid'⟩
  · exact h.hasId

theorem free (h : Buffered x) {k : Nat} (hw : x.worker k = .answered) :
    Buffered { x with srv := x.srv.setBuffer k none, worker := Function.update x.worker k .waiting } where
  session j b ha hb := by
    by_cases hjk : j = k
    · simp [Server.setBuffer, hjk] at hb
    · simp only [Server.setBuffer, Function.update_of_ne hjk] at ha hb ⊢
      exact h.session j b ha hb
  looked j opcode hl := by
    by_cases hjk : j = k
    · simp [hjk] at hl
    · simp only [Server.setBuffer, Function.update_of_ne hjk] at hl ⊢
      exact h.looked j opcode hl
  fills mount i b hm := by
    obtain ⟨hin, hid⟩ := h.fills mount i b hm
    refine ⟨hin, ?_⟩
    by_cases hik : i = k
    · subst hik
      rw [hw] at hid
      simp only [Function.update_self]
      exact hid
    · simp only [Function.update_of_ne hik]
      exact hid
  hasId := h.hasId

theorem step (h : Buffered x) {e : ServerEvent} (hg : WholeMountedFilled x e) {o : Unit}
    (hs : x.step e = some (o, x')) : Buffered x' := by
  have hmain : ∀ {e}, WholeMountedFilled x e → (x.mainStep e).map ((), ·) = some (o, x') → Buffered x' := by
    intro e hg hs
    obtain ⟨y, hy, he⟩ := Option.map_eq_some_iff.mp hs
    cases he
    exact h.mainStep hg hy
  cases e with
  | arrive bytes =>
    cases hs
    exact ⟨h.session, h.looked, h.fills, h.hasId⟩
  | look k =>
    obtain ⟨y, hy, he⟩ := Option.map_eq_some_iff.mp hs
    cases he
    simp only [Site.workerStep] at hy
    split at hy
    · next hw =>
      split at hy
      · obtain ⟨buffer, hb, he⟩ := Option.map_eq_some_iff.mp hy
        cases he
        exact h.look hw hb hg
      · cases hy
    · cases hy
  | answer k =>
    obtain ⟨y, hy, he⟩ := Option.map_eq_some_iff.mp hs
    cases he
    simp only [Site.workerStep] at hy
    split at hy
    · next opcode hw =>
      obtain ⟨buffer, hb, hy⟩ := Option.bind_eq_some_iff.mp hy
      split at hy
      · obtain ⟨srv, hsrv, he⟩ := Option.map_eq_some_iff.mp hy
        cases he
        exact h.answer hw hb hg hsrv
      · cases hy
    · cases hy
  | free k =>
    obtain ⟨y, hy, he⟩ := Option.map_eq_some_iff.mp hs
    cases he
    simp only [Site.workerStep] at hy
    split at hy
    · next hw =>
      cases hy
      exact h.free hw
    · cases hy
  | opcode => exact hmain hg hs
  | message n => exact hmain hg hs
  | openFifo fdc => exact hmain hg hs
  | seat junk => exact hmain hg hs
  | body => exact hmain hg hs
  | give junk => exact hmain hg hs
  | fill => exact hmain hg hs

end Buffered

end Tecnicofs.Ex2
