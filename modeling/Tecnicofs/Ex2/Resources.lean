import Tecnicofs.Ex2.Mounts
import Tecnicofs.Ex2.Operations
import Tecnicofs.Lib.Loans

/-! Project 2: the heap and the descriptors of the server.  An entry of `session_table` has the address of a block that
`malloc` gave and the descriptor that `open` gave; as long as neither is used after it was given back, the sessions that
hold requests and clients themselves stand for it. -/

namespace Tecnicofs.Ex2.Resources

open Sessions Loans

/-- The server with its allocated blocks, what was copied into them, and its descriptors, each open on a client's pipe. -/
structure Sys where
  serverPipe : List (Message Call)
  main : Main Call
  worker : Nat → Worker Call
  freesessionEntries : Nat → AllocationState
  clientPipe : Nat → List Reply
  sessionId : Nat → Option Nat
  waiting : Nat → Option (Message Call)
  sent : List (Message Call)
  executed : List (Option (Message Call))
  /-- `none` is NULL. -/
  threadBuffer : Nat → Option Nat
  clientFd : Nat → Nat
  blocks : Finset Nat
  content : Nat → Option (Message Call)
  fds : Nat → Option Nat
  lib : State

inductive Effect
  | nothing
  | refused
  | sentRead
  deriving DecidableEq

namespace Sys

variable (s : Sys)

/-- The sessions, when the descriptors of `session_table` are read as the pipes `pipe`. -/
def sessions (pipe : Nat → Nat) : Sessions.Sys Call where
  serverPipe := s.serverPipe
  main := s.main
  threadBuffer k := (s.threadBuffer k).map s.content
  worker := s.worker
  freesessionEntries := s.freesessionEntries
  clientFd := pipe
  clientPipe := s.clientPipe
  sessionId := s.sessionId
  waiting := s.waiting
  sent := s.sent
  executed := s.executed

def view : Sessions.Sys Call := s.sessions fun k => (s.fds (s.clientFd k)).getD 0

def after (t : Sessions.Sys Call) : Sys :=
  { s with
    serverPipe := t.serverPipe
    main := t.main
    worker := t.worker
    freesessionEntries := t.freesessionEntries
    clientPipe := t.clientPipe
    sessionId := t.sessionId
    waiting := t.waiting
    sent := t.sent
    executed := t.executed }

def init : Sys where
  serverPipe := []
  main := .receiving
  worker _ := .unlocked
  freesessionEntries _ := .free
  clientPipe _ := []
  sessionId _ := none
  waiting _ := none
  sent := []
  executed := []
  threadBuffer _ := none
  clientFd _ := 0
  blocks := ∅
  content _ := none
  fds _ := none
  lib := .init

def setWorker (k : Nat) (w : Worker Call) : Sys := { s with worker := Function.update s.worker k w }

/-- `malloc` gives an address that is not in use. -/
def malloc (a : Nat) : Option Sys :=
  if a ∈ s.blocks then none
  else some { s with blocks := insert a s.blocks, content := Function.update s.content a none }

/-- `free` of an address that is not in use is undefined. -/
def free : Option Nat → Option Sys
  | none => some s
  | some a => if a ∈ s.blocks then some { s with blocks := s.blocks.erase a } else none

/-- What the buffer of a session holds; to read through NULL or after `free` is undefined. -/
def load (k : Nat) : Option (Option (Message Call)) :=
  match s.threadBuffer k with
  | none => none
  | some a => if a ∈ s.blocks then some (s.content a) else none

def store (k : Nat) (m : Message Call) : Option Sys :=
  match s.threadBuffer k with
  | none => none
  | some a => if a ∈ s.blocks then some { s with content := Function.update s.content a (some m) } else none

/-- `open` gives the first descriptor that is not in use, counted from those that the server had before; there are
`limit` of them. -/
def openPipe (limit pipe : Nat) : Option (Nat × Sys) :=
  ((List.range limit).find? fun fd => (s.fds fd).isNone).map fun fd =>
    (fd, { s with fds := Function.update s.fds fd (some pipe) })

/-- There is no step for a `write` to a descriptor that is not open. -/
def write (fd : Nat) (r : Reply) : Option Sys :=
  (s.fds fd).map fun pipe => { s with clientPipe := Function.update s.clientPipe pipe (s.clientPipe pipe ++ [r]) }

def close (fd : Nat) : Sys := { s with fds := Function.update s.fds fd none }

end Sys

def setThreadBuffer (s : Sys) (a k : Nat) (m : Message Call) (rest : List (Message Call)) : Option Sys :=
  (s.malloc a).map fun s =>
    { s with threadBuffer := Function.update s.threadBuffer k (some a), serverPipe := rest, main := .filling k m }

/-- `tfs_mount` in the server, up to the new buffer.  The descriptor is opened before the search for a session, and a
refused client's stays open.  Where `open` fails the main thread returns, and the server is gone. -/
def tfsMount (limit : Nat) (s : Sys) (a pipe : Nat) (m : Message Call) (rest : List (Message Call)) :
    Option (Effect × Sys) :=
  match s.openPipe limit pipe with
  | none => none
  | some (fdc, s) =>
    match firstFree s.freesessionEntries maxClients with
    | none =>
      let taken := { s with serverPipe := rest }
      (taken.write fdc .noSession).map fun s => (.refused, s)
    | some k =>
      (setThreadBuffer s a k m rest).map fun s =>
        (.nothing, { s with
          freesessionEntries := Function.update s.freesessionEntries k .taken
          clientFd := Function.update s.clientFd k fdc })

def mainStep (limit : Nat) (s : Sys) (a : Nat) : Option (Effect × Sys) :=
  match s.main with
  | .receiving =>
    match s.serverPipe with
    | [] => none
    | m :: rest =>
      match m.request with
      | .mount pipe => tfsMount limit s a pipe m rest
      | .unmount k | .call k _ | .shutdown k =>
        if k < maxClients then (setThreadBuffer s a k m rest).map fun s => (.nothing, s) else none
  | .filling k m => (s.store k m).map fun s => (.nothing, { s with main := .signalling k m })
  | .signalling _ _ => (Sessions.mainStep s.view).map fun t => (.nothing, s.after t)

/-- `worker_read` has copied its answer into a block of its own, which it never frees. -/
def sentBlock (s : Sys) (a : Nat) : Call → Out → Option (Effect × Sys)
  | .read _ _, o => if o.ret = -1 then some (.nothing, s) else (s.malloc a).map fun s => (.sentRead, s)
  | .open _ _, _ | .close _, _ | .write _ _, _ => some (.nothing, s)

def execute (s : Sys) (a k : Nat) (m : Message Call) : Option (Effect × Sys) :=
  match m.request with
  | .mount _ => (s.write (s.clientFd k) (.session k)).map fun s => (.nothing, s)
  | .unmount j =>
    if s.main.holdsTableLock then none
    else
      let freed := { s with freesessionEntries := Function.update s.freesessionEntries j .free }
      (freed.write (s.clientFd j) .outcome).map fun s => (.nothing, s.close (s.clientFd j))
  | .call j c =>
    match s.lib.call c with
    | none => none
    | some (o, lib) =>
      let called := { s with lib := lib }
      (called.write (s.clientFd j) .outcome).bind fun s => sentBlock s a c o
  | .shutdown _ => some (.nothing, s)

def workerStep (s : Sys) (a k : Nat) : Option (Effect × Sys) :=
  match s.worker k with
  | .reading => (s.load k).map fun content => (.nothing, s.setWorker k (.executing content))
  | .executing (some m) =>
    -- the message is copied from the buffer once more
    (s.load k).bind fun _ => (execute s a k m).map fun x =>
      (x.1, { x.2.setWorker k .replied with executed := s.executed ++ [some m] })
  | .replied =>
    (s.free (s.threadBuffer k)).map fun s =>
      (.nothing, { s with threadBuffer := Function.update s.threadBuffer k none }.setWorker k .unlocked)
  | .unlocked | .woken | .locked | .sawNull | .asleep | .executing none =>
    (Sessions.workerStep s.view k).map fun t => (.nothing, s.after t)

/-- A step in a server whose stacks have room for every `content`; `malloc` gives the second component, where the step
calls it. -/
def advance (limit : Nat) (s : Sys) : Event Call × Nat → Option (Effect × Sys)
  | (.main, a) => mainStep limit s a
  | (.worker k, a) => if k < maxClients then workerStep s a k else none
  | (e, _) => (Sessions.step s.view e).map fun x => (.nothing, s.after x.2)

def fitsStack (room : StackRoom) (s : Sys) (e : Event Call) : Bool :=
  match e, (handled s.view e).map Message.request with
  | .main, some (.call _ f) => decide (room.Receives f)
  | .worker _, some (.call _ f) => decide (room.Serves f)
  | _, _ => true

/-- A step.  The server dies where `content` does not fit on a stack. -/
def step (room : StackRoom) (limit : Nat) (s : Sys) (x : Event Call × Nat) : Option (Effect × Sys) :=
  if fitsStack room s x.1 then advance limit s x else none

namespace Sys

def descriptor (s : Sys) (k : Nat) : Option Nat :=
  match s.freesessionEntries k with
  | .taken => some (s.clientFd k)
  | .free => none

def openFds (s : Sys) (limit : Nat) : Finset Nat := (Finset.range limit).filter fun fd => (s.fds fd).isSome

end Sys

/-- No two sessions share a block or a descriptor, and the descriptor of a mounted session is open on its client's pipe.
`refused` descriptors and `reads` blocks are with no session. -/
structure Sound (limit : Nat) (s : Sys) (pipe : Nat → Nat) (refused reads : Nat) : Prop where
  blocks : Lent (Finset.range maxClients) s.threadBuffer s.blocks reads
  descriptors : Lent (Finset.range maxClients) s.descriptor (s.openFds limit) refused
  pipe : ∀ k, s.freesessionEntries k = .taken → s.fds (s.clientFd k) = some (pipe k)
  bound : ∀ fd, s.fds fd ≠ none → fd < limit

section
variable {limit : Nat} {s s' : Sys} {pipe : Nat → Nat} {refused reads a k fd : Nat} {m : Message Call}
  {rest : List (Message Call)} {t : Sessions.Sys Call} {e : Event Call} {o : Effect}

theorem descriptor_eq_some : s.descriptor k = some fd ↔ s.freesessionEntries k = .taken ∧ s.clientFd k = fd := by
  unfold Sys.descriptor
  cases s.freesessionEntries k <;> simp

theorem descriptor_eq_none : s.descriptor k = none ↔ s.freesessionEntries k = .free := by
  unfold Sys.descriptor
  cases s.freesessionEntries k <;> simp

theorem setThreadBuffer_eq_some (h : setThreadBuffer s a k m rest = some s') :
    a ∉ s.blocks ∧ s' = { s with
      blocks := insert a s.blocks
      content := Function.update s.content a none
      threadBuffer := Function.update s.threadBuffer k (some a)
      serverPipe := rest
      main := .filling k m } := by
  unfold Resources.setThreadBuffer Sys.malloc at h
  split at h
  · cases h
  · next ha =>
    cases h
    exact ⟨ha, rfl⟩

theorem setThreadBuffer_isSome (ha : a ∉ s.blocks) (k : Nat) (m : Message Call) (rest : List (Message Call)) :
    (setThreadBuffer s a k m rest).isSome := by simp [setThreadBuffer, Sys.malloc, ha]

theorem openPipe_eq_some {p : Nat} (h : s.openPipe limit p = some (fd, s')) :
    fd < limit ∧ s.fds fd = none ∧ s' = { s with fds := Function.update s.fds fd (some p) } := by
  obtain ⟨x, hx, he⟩ := Option.map_eq_some_iff.mp h
  cases he
  obtain ⟨hnone, hmem, -⟩ := List.find?_range_eq_some.mp hx
  exact ⟨List.mem_range.mp hmem, Option.isNone_iff_eq_none.mp hnone, rfl⟩

theorem write_eq_some {r : Reply} (h : s.write fd r = some s') :
    ∃ p, s.fds fd = some p ∧
      s' = { s with clientPipe := Function.update s.clientPipe p (s.clientPipe p ++ [r]) } := by
  obtain ⟨p, hp, he⟩ := Option.map_eq_some_iff.mp h
  exact ⟨p, hp, he.symm⟩

theorem notMem_openFds (hnone : s.fds fd = none) : fd ∉ s.openFds limit := by simp [Sys.openFds, hnone]

theorem openFds_open (hfd : fd < limit) {p : Nat} (hs : s'.fds = Function.update s.fds fd (some p)) :
    s'.openFds limit = insert fd (s.openFds limit) := by
  ext x
  simp only [Sys.openFds, hs, Finset.mem_filter, Finset.mem_range, Finset.mem_insert]
  by_cases hx : x = fd
  · simp [hx, hfd]
  · simp [hx]

theorem openFds_close (hs : s'.fds = Function.update s.fds fd none) :
    s'.openFds limit = (s.openFds limit).erase fd := by
  ext x
  simp only [Sys.openFds, hs, Finset.mem_filter, Finset.mem_range, Finset.mem_erase]
  by_cases hx : x = fd <;> simp [hx]

theorem moves_after (pipe : Nat → Nat) (h : Moves s.view e t) (hh : handled s.view e = none)
    (heq : t.threadBuffer = s.view.threadBuffer) :
    Moves (s.sessions pipe) e ((s.after t).sessions pipe) ∧ t.freesessionEntries = s.freesessionEntries := by
  have key : (s.after t).sessions pipe = { t with clientFd := pipe } := by
    calc (s.after t).sessions pipe = { t with clientFd := pipe, threadBuffer := s.view.threadBuffer } := rfl
      _ = { t with clientFd := pipe } := by rw [← heq]
  rw [key]
  cases h with
  | send c r => exact ⟨.send c r, rfl⟩
  | receive hw hp => exact ⟨.receive (s := s.sessions pipe) hw hp, rfl⟩
  | refuse hm hp => simp [handled, hm, hp] at hh
  | mount hm hp => simp [handled, hm, hp] at hh
  | deposit hm hp => simp [handled, hm, hp] at hh
  | fill hm hb => exact ⟨.fill (s := s.sessions pipe) hm hb, rfl⟩
  | wakeWorker hm hw => exact ⟨.wakeWorker (s := s.sessions pipe) hm hw, rfl⟩
  | signalNobody hm hw => exact ⟨.signalNobody (s := s.sessions pipe) hm hw, rfl⟩
  | lock hw => exact ⟨.lock (s := s.sessions pipe) hw, rfl⟩
  | seeNull hw hb => exact ⟨.seeNull (s := s.sessions pipe) hw hb, rfl⟩
  | seeBuffer hw hb => exact ⟨.seeBuffer (s := s.sessions pipe) hw hb, rfl⟩
  | sleep hw => exact ⟨.sleep (s := s.sessions pipe) hw, rfl⟩
  | read hw hb => exact ⟨.read (s := s.sessions pipe) hw hb, rfl⟩
  | garbage hw => exact ⟨.garbage (s := s.sessions pipe) hw, rfl⟩
  | execute hw => simp [handled, hw] at hh
  | clear hw => exact ⟨.clear (s := s.sessions pipe) hw, rfl⟩
  | wake hw => exact ⟨.wake (s := s.sessions pipe) hw, rfl⟩

namespace Sound

theorem init (limit : Nat) : Sound limit .init (fun _ => 0) 0 0 where
  blocks := .empty _
  descriptors := (Lent.empty _).congr (funext fun k => descriptor_eq_none.mpr rfl) (by simp [Sys.openFds, Sys.init])
  pipe k h := by cases h
  bound fd h := absurd rfl h

theorem congr (i : Sound limit s pipe refused reads) (hb : s'.threadBuffer = s.threadBuffer)
    (hbl : s'.blocks = s.blocks) (he : s'.freesessionEntries = s.freesessionEntries) (hc : s'.clientFd = s.clientFd)
    (hf : s'.fds = s.fds) : Sound limit s' pipe refused reads where
  blocks := i.blocks.congr hb hbl
  descriptors := i.descriptors.congr (by funext k; simp only [Sys.descriptor, he, hc]) (by simp only [Sys.openFds, hf])
  pipe k h := by
    rw [hf, hc]
    exact i.pipe k (he ▸ h)
  bound fd h := i.bound fd (hf ▸ h)

theorem control (i : Sound limit s pipe refused reads) (h : Moves s.view e t)
    (hh : handled s.view e = none) (hb : t.threadBuffer = s.view.threadBuffer) :
    ∃ pipe', Moves (s.sessions pipe) e ((s.after t).sessions pipe') ∧ Sound limit (s.after t) pipe' refused reads := by
  obtain ⟨hm, he⟩ := moves_after pipe h hh hb
  exact ⟨pipe, hm, i.congr rfl rfl he rfl rfl⟩

theorem map_content (i : Sound limit s pipe refused reads) (ha : a ∉ s.blocks) (x : Option (Message Call)) (j : Nat) :
    (s.threadBuffer j).map (Function.update s.content a x) = (s.threadBuffer j).map s.content := by
  cases hb : s.threadBuffer j with
  | none => rfl
  | some b =>
    have hne : b ≠ a := fun he => ha (he ▸ (i.blocks.mem j b hb).2)
    simp [hne]

theorem setThreadBuffer (i : Sound limit s pipe refused reads) (hk : k < maxClients) (hnull : s.threadBuffer k = none)
    (h : Resources.setThreadBuffer s a k m rest = some s') :
    s'.sessions pipe = Sessions.setThreadBuffer (s.sessions pipe) k m rest ∧ Sound limit s' pipe refused reads := by
  obtain ⟨ha, rfl⟩ := setThreadBuffer_eq_some h
  have hview : (fun j => (Function.update s.threadBuffer k (some a) j).map (Function.update s.content a none)) =
      Function.update (s.sessions pipe).threadBuffer k (some none) := by
    funext j
    by_cases hj : j = k
    · simp [hj]
    · rw [Function.update_of_ne hj, Function.update_of_ne hj]
      exact i.map_content ha none j
  constructor
  · unfold Sys.sessions Sessions.setThreadBuffer Sessions.Sys.setBuffer
    simp only [hview]
    rfl
  · exact {
      blocks := i.blocks.take (Finset.mem_range.mpr hk) hnull ha
      descriptors := i.descriptors.congr rfl rfl
      pipe := i.pipe
      bound := i.bound }

theorem store (i : Sound limit s pipe refused reads) (h : s.store k m = some s') :
    s'.sessions pipe = (s.sessions pipe).setBuffer k (some (some m)) ∧ Sound limit s' pipe refused reads ∧
      ∃ b, (s.sessions pipe).threadBuffer k = some b := by
  unfold Sys.store at h
  split at h
  · cases h
  next b hb =>
  split at h
  · cases h
    have hview : (fun j => (s.threadBuffer j).map (Function.update s.content b (some m))) =
        Function.update (s.sessions pipe).threadBuffer k (some (some m)) := by
      funext j
      by_cases hj : j = k
      · simp [hj, hb]
      · rw [Function.update_of_ne hj]
        cases hb' : s.threadBuffer j with
        | none => simp [Sys.sessions, hb']
        | some b' =>
          have hne : b' ≠ b := fun he => hj (i.blocks.unique j k b (he ▸ hb') hb)
          simp [Sys.sessions, hb', hne]
    refine ⟨?_, i.congr rfl rfl rfl rfl rfl, s.content b, by simp [Sys.sessions, hb]⟩
    unfold Sys.sessions Sessions.Sys.setBuffer
    simp only [hview]
    rfl
  · cases h

theorem pipe_open (i : Sound limit s pipe refused reads) {p j : Nat} (hnone : s.fds fd = none)
    (ht : s.freesessionEntries j = .taken) :
    Function.update s.fds fd (some p) (s.clientFd j) = some (pipe j) := by
  have hp := i.pipe j ht
  have hne : s.clientFd j ≠ fd := fun he => by
    rw [he, hnone] at hp
    cases hp
  rw [Function.update_of_ne hne]
  exact hp

theorem bound_open (i : Sound limit s pipe refused reads) {p x : Nat} (hfd : fd < limit)
    (hx : Function.update s.fds fd (some p) x ≠ none) : x < limit := by
  by_cases hxf : x = fd
  · exact hxf ▸ hfd
  · rw [Function.update_of_ne hxf] at hx
    exact i.bound x hx

theorem grant (i : Sound limit s pipe refused reads) {p : Nat} (hk : k < maxClients)
    (hfree : s.freesessionEntries k = .free) (hfd : fd < limit) (hnone : s.fds fd = none) :
    Sound limit { s with
      freesessionEntries := Function.update s.freesessionEntries k .taken
      clientFd := Function.update s.clientFd k fd
      fds := Function.update s.fds fd (some p) } (Function.update pipe k p) refused reads where
  blocks := i.blocks
  descriptors := by
    have hdesc := i.descriptors.take (Finset.mem_range.mpr hk) (descriptor_eq_none.mpr hfree) (notMem_openFds hnone)
    refine hdesc.congr ?_ (openFds_open hfd rfl)
    funext j
    by_cases hj : j = k <;> simp [Sys.descriptor, hj]
  pipe j hj := by
    by_cases hjk : j = k
    · simp [hjk]
    · have ht : s.freesessionEntries j = .taken := by simpa [hjk] using hj
      simp only [Function.update_of_ne hjk]
      exact i.pipe_open hnone ht
  bound x hx := i.bound_open hfd hx

theorem refuse (i : Sound limit s pipe refused reads) {p : Nat} (hfd : fd < limit) (hnone : s.fds fd = none) :
    Sound limit { s with fds := Function.update s.fds fd (some p) } pipe (refused + 1) reads where
  blocks := i.blocks
  descriptors := (i.descriptors.lose (notMem_openFds hnone)).congr rfl (openFds_open hfd rfl)
  pipe _ hj := i.pipe_open hnone hj
  bound _ hx := i.bound_open hfd hx

theorem revoke (i : Sound limit s pipe refused reads) (ht : s.freesessionEntries k = .taken) :
    Sound limit { s with
      freesessionEntries := Function.update s.freesessionEntries k .free
      fds := Function.update s.fds (s.clientFd k) none } pipe refused reads where
  blocks := i.blocks
  descriptors := by
    refine (i.descriptors.giveBack (descriptor_eq_some.mpr ⟨ht, rfl⟩)).congr ?_ (openFds_close rfl)
    funext j
    by_cases hj : j = k <;> simp [Sys.descriptor, hj]
  pipe j hj := by
    have hjk : j ≠ k := fun hjk => by simp [hjk] at hj
    have ht' : s.freesessionEntries j = .taken := by simpa [hjk] using hj
    have hne : s.clientFd j ≠ s.clientFd k := fun he => hjk
      (i.descriptors.unique j k _ (descriptor_eq_some.mpr ⟨ht', he⟩) (descriptor_eq_some.mpr ⟨ht, rfl⟩))
    exact (Function.update_of_ne hne ..).trans (i.pipe j ht')
  bound x hx := i.bound x fun he => hx (by
    by_cases hxf : x = s.clientFd k <;> simp [hxf, he])

theorem keepBlock (i : Sound limit s pipe refused reads) (h : s.malloc a = some s') :
    s'.sessions pipe = s.sessions pipe ∧ Sound limit s' pipe refused (reads + 1) := by
  unfold Sys.malloc at h
  split at h
  · cases h
  next ha =>
  cases h
  have hview : (fun j => (s.threadBuffer j).map (Function.update s.content a none)) = (s.sessions pipe).threadBuffer :=
    funext (i.map_content ha none)
  refine ⟨?_, ⟨i.blocks.lose ha, i.descriptors, i.pipe, i.bound⟩⟩
  unfold Sys.sessions
  simp only [hview]
  rfl

theorem execute (i : Sound limit s pipe refused reads) (ht : s.freesessionEntries k = .taken)
    (hk : ∀ j ∈ m.request.sessionId, j = k) (h : Resources.execute s a k m = some (o, s')) :
    Sessions.execute (s.sessions pipe) k m = some (s'.sessions pipe) ∧
      Sound limit s' pipe (refused + [o].count .refused) (reads + [o].count .sentRead) := by
  have answered : ∀ (s₁ : Sys) {s₂ : Sys} {r : Reply}, s₁.fds = s.fds → s₁.write (s.clientFd k) r = some s₂ →
      s₂ = { s₁ with clientPipe := Function.update s₁.clientPipe (pipe k) (s₁.clientPipe (pipe k) ++ [r]) } := by
    intro s₁ s₂ r hf hw
    obtain ⟨p, hp, rfl⟩ := write_eq_some hw
    rw [hf, i.pipe k ht] at hp
    rw [← Option.some.inj hp]
  unfold Resources.execute at h
  unfold Sessions.execute
  cases hr : m.request with
  | mount p =>
    simp only [hr] at h
    obtain ⟨s₂, hw, he⟩ := Option.map_eq_some_iff.mp h
    cases he
    obtain rfl := answered s rfl hw
    exact ⟨rfl, i.congr rfl rfl rfl rfl rfl⟩
  | unmount j =>
    obtain rfl := hk j (by rw [hr]; rfl)
    simp only [hr] at h
    split at h
    · cases h
    · next hlock =>
      obtain ⟨s₂, hw, he⟩ := Option.map_eq_some_iff.mp h
      cases he
      obtain rfl := answered { s with freesessionEntries := Function.update s.freesessionEntries j .free } rfl hw
      exact ⟨if_neg hlock, (i.revoke ht).congr rfl rfl rfl rfl rfl⟩
  | call j c =>
    obtain rfl := hk j (by rw [hr]; rfl)
    simp only [hr] at h
    split at h
    · cases h
    · next x lib hcall =>
      obtain ⟨s₂, hw, hb⟩ := Option.bind_eq_some_iff.mp h
      obtain rfl := answered { s with lib := lib } rfl hw
      have i₂ : Sound limit { s with
          lib := lib
          clientPipe := Function.update s.clientPipe (pipe j) (s.clientPipe (pipe j) ++ [.outcome]) } pipe refused reads :=
        i.congr rfl rfl rfl rfl rfl
      have kept : ∀ {s₁ : Sys}, some (Effect.nothing, s₁) = some (o, s') → o = .nothing ∧ s' = s₁ := fun he => by
        cases he
        exact ⟨rfl, rfl⟩
      unfold sentBlock at hb
      split at hb
      · split at hb
        · obtain ⟨rfl, rfl⟩ := kept hb
          exact ⟨rfl, i₂⟩
        · obtain ⟨s₃, hm, he⟩ := Option.map_eq_some_iff.mp hb
          cases he
          obtain ⟨hs, i₃⟩ := i₂.keepBlock hm
          exact ⟨by rw [hs]; rfl, i₃⟩
      all_goals
        obtain ⟨rfl, rfl⟩ := kept hb
        exact ⟨rfl, i₂⟩
  | shutdown j =>
    simp only [hr] at h
    cases h
    exact ⟨rfl, i⟩

theorem clear (i : Sound limit s pipe refused reads) (h : s.free (s.threadBuffer k) = some s') :
    ({ s' with threadBuffer := Function.update s'.threadBuffer k none } : Sys).sessions pipe =
        (s.sessions pipe).setBuffer k none ∧
      Sound limit { s' with threadBuffer := Function.update s'.threadBuffer k none } pipe refused reads := by
  have hview : ∀ {s₁ : Sys}, s₁.threadBuffer = s.threadBuffer → s₁.content = s.content →
      (fun j => (Function.update s₁.threadBuffer k none j).map s₁.content) =
        Function.update (s.sessions pipe).threadBuffer k none := by
    intro s₁ hb hc
    funext j
    rw [hb, hc]
    by_cases hj : j = k <;> simp [hj, Sys.sessions]
  cases hb : s.threadBuffer k with
  | none =>
    rw [hb, Sys.free] at h
    cases h
    have hsame : Function.update s.threadBuffer k none = s.threadBuffer := by rw [← hb, Function.update_eq_self]
    refine ⟨?_, i.congr hsame rfl rfl rfl rfl⟩
    unfold Sys.sessions Sessions.Sys.setBuffer
    simp only [hview rfl rfl]
    rfl
  | some b =>
    rw [hb, Sys.free] at h
    split at h
    · cases h
      refine ⟨?_, ⟨i.blocks.giveBack hb, i.descriptors, i.pipe, i.bound⟩⟩
      unfold Sys.sessions Sessions.Sys.setBuffer
      simp only [hview rfl rfl]
      rfl
    · cases h

end Sound
end

end Tecnicofs.Ex2.Resources
