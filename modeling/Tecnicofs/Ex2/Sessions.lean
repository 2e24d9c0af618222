import Tecnicofs.Ex2.Protocol
import Tecnicofs.Lib.Runs

/-! Project 2: clients, the receiving main thread and the session workers, one step at a time.  The main thread
and a worker share `thread_buffer`; the lock that the worker holds around its test is never taken by the main
thread. -/

namespace Tecnicofs.Ex2.Sessions

/-- A request with the fields that decide where it goes; `α` is what a file operation carries besides. -/
inductive Request (α : Type)
  | mount (clientPipe : Nat)
  | unmount (sessionId : Nat)
  | call (sessionId : Nat) (fields : α)
  | shutdown (sessionId : Nat)
  deriving DecidableEq

def Request.sessionId : Request α → Option Nat
  | mount _ => none
  | unmount k | call k _ | shutdown k => some k

/-- A request on its way.  `number` and `client` are not part of the bytes: they tell requests apart. -/
structure Message (α : Type) where
  number : Nat
  client : Nat
  request : Request α
  deriving DecidableEq

inductive Reply
  | session (id : Nat)
  | noSession
  | outcome

/-- Where the main thread stands.  `tfs_mount` holds `table_lock` from the choice of a session to its signal. -/
inductive Main (α : Type)
  | receiving
  | filling (k : Nat) (m : Message α)
  | signalling (k : Nat) (m : Message α)
  deriving DecidableEq

/-- Where `thread_func` stands: before the lock, before the test of `thread_buffer`, between the test and the
wait, waiting, woken up, before it reads the buffer, with what it has read, and before it frees the buffer.
`none` is what an unfilled buffer holds. -/
inductive Worker (α : Type)
  | unlocked
  | locked
  | sawNull
  | asleep
  | woken
  | reading
  | executing (content : Option (Message α))
  | replied
  deriving DecidableEq

structure Sys (α : Type) where
  serverPipe : List (Message α)
  main : Main α
  /-- `none` is NULL, `some none` a buffer that is not filled yet. -/
  threadBuffer : Nat → Option (Option (Message α))
  worker : Nat → Worker α
  freesessionEntries : Nat → AllocationState
  clientFd : Nat → Nat
  clientPipe : Nat → List Reply
  sessionId : Nat → Option Nat
  waiting : Nat → Option (Message α)
  sent : List (Message α)
  executed : List (Option (Message α))

namespace Sys

variable (s : Sys α)

def setBuffer (k : Nat) (b : Option (Option (Message α))) : Sys α :=
  { s with threadBuffer := Function.update s.threadBuffer k b }

def setWorker (k : Nat) (w : Worker α) : Sys α := { s with worker := Function.update s.worker k w }

def reply (fd : Nat) (r : Reply) : Sys α :=
  { s with clientPipe := Function.update s.clientPipe fd (s.clientPipe fd ++ [r]) }

def init : Sys α where
  serverPipe := []
  main := .receiving
  threadBuffer _ := none
  worker _ := .unlocked
  freesessionEntries _ := .free
  clientFd _ := 0
  clientPipe _ := []
  sessionId _ := none
  waiting _ := none
  sent := []
  executed := []

end Sys

inductive Event (α : Type)
  | send (client : Nat) (request : Request α)
  | receive (client : Nat)
  | main
  | worker (k : Nat)
  | wake (k : Nat)

/-- `request_handler` up to its wait for the answer. -/
def send (s : Sys α) (c : Nat) (r : Request α) : Sys α :=
  let m : Message α := ⟨s.sent.length, c, r⟩
  { s with
    serverPipe := s.serverPipe ++ [m]
    waiting := Function.update s.waiting c (some m)
    sent := s.sent ++ [m] }

def sessionAfter (old : Option Nat) : Request α → Reply → Option Nat
  | .mount _, .session k => some k
  | .mount _, _ => none
  | .unmount _, _ => none
  | .call _ _, _ | .shutdown _, _ => old

/-- The end of `request_handler`. -/
def receive (s : Sys α) (c : Nat) : Option (Sys α) :=
  match s.waiting c, s.clientPipe c with
  | some m, r :: rest =>
    some { s with
      clientPipe := Function.update s.clientPipe c rest
      waiting := Function.update s.waiting c none
      sessionId := Function.update s.sessionId c (sessionAfter (s.sessionId c) m.request r) }
  | _, _ => none

def setThreadBuffer (s : Sys α) (k : Nat) (m : Message α) (rest : List (Message α)) : Sys α :=
  { s.setBuffer k (some none) with serverPipe := rest, main := .filling k m }

/-- `tfs_mount` in the server, up to the new buffer; without a free session the client is refused. -/
def tfsMount (s : Sys α) (pipe : Nat) (m : Message α) (rest : List (Message α)) : Sys α :=
  match firstFree s.freesessionEntries maxClients with
  | none => { s with serverPipe := rest }.reply pipe .noSession
  | some k =>
    { setThreadBuffer s k m rest with
      freesessionEntries := Function.update s.freesessionEntries k .taken
      clientFd := Function.update s.clientFd k pipe }

/-- One step of the main thread: set the buffer, fill it, signal.  An index outside `session_table` and a copy
through NULL have no step. -/
def mainStep (s : Sys α) : Option (Sys α) :=
  match s.main with
  | .receiving =>
    match s.serverPipe with
    | [] => none
    | m :: rest =>
      match m.request with
      | .mount pipe => some (tfsMount s pipe m rest)
      | .unmount k | .call k _ | .shutdown k =>
        if k < maxClients then some (setThreadBuffer s k m rest) else none
  | .filling k m => (s.threadBuffer k).map fun _ => { s.setBuffer k (some (some m)) with main := .signalling k m }
  | .signalling k _ =>
    some { s with
      main := .receiving
      worker := match s.worker k with
        | .asleep => Function.update s.worker k .woken
        | _ => s.worker }

def Main.holdsTableLock : Main α → Bool
  | .receiving => false
  | .filling _ m | .signalling _ m => m.request.sessionId.isNone

/-- What the worker of session `k` does with the message it has read, apart from the file operation itself. -/
def execute (s : Sys α) (k : Nat) (m : Message α) : Option (Sys α) :=
  match m.request with
  | .mount _ => some (s.reply (s.clientFd k) (.session k))
  | .unmount j =>
    if s.main.holdsTableLock then none
    else some ({ s with freesessionEntries := Function.update s.freesessionEntries j .free }.reply (s.clientFd j) .outcome)
  | .call j _ => some (s.reply (s.clientFd j) .outcome)
  | .shutdown _ => some s

def workerStep (s : Sys α) (k : Nat) : Option (Sys α) :=
  match s.worker k with
  | .unlocked | .woken => some (s.setWorker k .locked)
  | .locked => some (s.setWorker k (if s.threadBuffer k = none then .sawNull else .reading))
  | .sawNull => some (s.setWorker k .asleep)
  | .asleep => none
  | .reading => (s.threadBuffer k).map fun content => s.setWorker k (.executing content)
  | .executing none => some { s.setWorker k .replied with executed := s.executed ++ [none] }
  | .executing (some m) =>
    (execute s k m).map fun s' => { s'.setWorker k .replied with executed := s.executed ++ [some m] }
  | .replied => some ((s.setBuffer k none).setWorker k .unlocked)

/-- `pthread_cond_wait` may return without a signal. -/
def wakeUp (s : Sys α) (k : Nat) : Option (Sys α) :=
  match s.worker k with
  | .asleep => some (s.setWorker k .woken)
  | _ => none

def step (s : Sys α) : Event α → Option (Unit × Sys α)
  | .send c r => some ((), send s c r)
  | .receive c => (receive s c).map fun s' => ((), s')
  | .main => (mainStep s).map fun s' => ((), s')
  | .worker k => if k < maxClients then (workerStep s k).map fun s' => ((), s') else none
  | .wake k => (wakeUp s k).map fun s' => ((), s')

inductive Moves (s : Sys α) : Event α → Sys α → Prop
  | send (c : Nat) (r : Request α) : Moves s (.send c r) (send s c r)
  | receive {c : Nat} {m : Message α} {r : Reply} {rest : List Reply} (hw : s.waiting c = some m)
      (hp : s.clientPipe c = r :: rest) :
      Moves s (.receive c) { s with
        clientPipe := Function.update s.clientPipe c rest
        waiting := Function.update s.waiting c none
        sessionId := Function.update s.sessionId c (sessionAfter (s.sessionId c) m.request r) }
  | refuse {m : Message α} {rest : List (Message α)} {pipe : Nat} (hm : s.main = .receiving)
      (hp : s.serverPipe = m :: rest) (hr : m.request = .mount pipe)
      (hf : firstFree s.freesessionEntries maxClients = none) :
      Moves s .main ({ s with serverPipe := rest }.reply pipe .noSession)
  | mount {m : Message α} {rest : List (Message α)} {pipe k : Nat} (hm : s.main = .receiving)
      (hp : s.serverPipe = m :: rest) (hr : m.request = .mount pipe)
      (hf : firstFree s.freesessionEntries maxClients = some k) :
      Moves s .main { setThreadBuffer s k m rest with
        freesessionEntries := Function.update s.freesessionEntries k .taken
        clientFd := Function.update s.clientFd k pipe }
  | deposit {m : Message α} {rest : List (Message α)} {k : Nat} (hm : s.main = .receiving)
      (hp : s.serverPipe = m :: rest) (hr : m.request.sessionId = some k) (hk : k < maxClients) :
      Moves s .main (setThreadBuffer s k m rest)
  | fill {k : Nat} {m : Message α} {b : Option (Message α)} (hm : s.main = .filling k m)
      (hb : s.threadBuffer k = some b) :
      Moves s .main { s.setBuffer k (some (some m)) with main := .signalling k m }
  | wakeWorker {k : Nat} {m : Message α} (hm : s.main = .signalling k m) (hw : s.worker k = .asleep) :
      Moves s .main { s.setWorker k .woken with main := .receiving }
  | signalNobody {k : Nat} {m : Message α} (hm : s.main = .signalling k m) (hw : s.worker k ≠ .asleep) :
      Moves s .main { s with main := .receiving }
  | lock {k : Nat} (hw : s.worker k = .unlocked ∨ s.worker k = .woken) : Moves s (.worker k) (s.setWorker k .locked)
  | seeNull {k : Nat} (hw : s.worker k = .locked) (hb : s.threadBuffer k = none) :
      Moves s (.worker k) (s.setWorker k .sawNull)
  | seeBuffer {k : Nat} (hw : s.worker k = .locked) (hb : s.threadBuffer k ≠ none) :
      Moves s (.worker k) (s.setWorker k .reading)
  | sleep {k : Nat} (hw : s.worker k = .sawNull) : Moves s (.worker k) (s.setWorker k .asleep)
  | read {k : Nat} {content : Option (Message α)} (hw : s.worker k = .reading)
      (hb : s.threadBuffer k = some content) : Moves s (.worker k) (s.setWorker k (.executing content))
  | garbage {k : Nat} (hw : s.worker k = .executing none) :
      Moves s (.worker k) { s.setWorker k .replied with executed := s.executed ++ [none] }
  | execute {k : Nat} {m : Message α} {s₁ : Sys α} (hw : s.worker k = .executing (some m))
      (he : execute s k m = some s₁) :
      Moves s (.worker k) { s₁.setWorker k .replied with executed := s.executed ++ [some m] }
  | clear {k : Nat} (hw : s.worker k = .replied) :
      Moves s (.worker k) ((s.setBuffer k none).setWorker k .unlocked)
  | wake {k : Nat} (hw : s.worker k = .asleep) : Moves s (.wake k) (s.setWorker k .woken)

variable {s s' : Sys α}

theorem execute_frame {k : Nat} {m : Message α} (h : execute s k m = some s') :
    s'.main = s.main ∧ s'.threadBuffer = s.threadBuffer ∧ s'.worker = s.worker := by
  unfold execute at h
  split at h
  · cases h
    exact ⟨rfl, rfl, rfl⟩
  · split at h
    · cases h
    · cases h
      exact ⟨rfl, rfl, rfl⟩
  · cases h
    exact ⟨rfl, rfl, rfl⟩
  · cases h
    exact ⟨rfl, rfl, rfl⟩

theorem moves_of_mainStep (h : mainStep s = some s') : Moves s .main s' := by
  unfold mainStep at h
  cases hm : s.main with
  | receiving =>
    rw [hm] at h
    cases hp : s.serverPipe with
    | nil => simp [hp] at h
    | cons m rest =>
      have deposit : ∀ k, m.request.sessionId = some k →
          (if k < maxClients then some (setThreadBuffer s k m rest) else none) = some s' → Moves s .main s' := by
        intro k hk h
        split at h
        · next hlt =>
          cases h
          exact .deposit hm hp hk hlt
        · cases h
      cases hr : m.request with
      | mount pipe =>
        simp only [hp, hr, tfsMount] at h
        cases hf : firstFree s.freesessionEntries maxClients with
        | none =>
          rw [hf] at h
          cases h
          exact .refuse hm hp hr hf
        | some k =>
          rw [hf] at h
          cases h
          exact .mount hm hp hr hf
      | unmount k => exact deposit k (by rw [hr]; rfl) (by simpa only [hp, hr] using h)
      | call k fields => exact deposit k (by rw [hr]; rfl) (by simpa only [hp, hr] using h)
      | shutdown k => exact deposit k (by rw [hr]; rfl) (by simpa only [hp, hr] using h)
  | filling k m =>
    simp only [hm, Option.map_eq_some_iff] at h
    obtain ⟨b, hb, rfl⟩ := h
    exact .fill hm hb
  | signalling k m =>
    simp only [hm] at h
    cases h
    by_cases hw : s.worker k = .asleep
    · rw [hw]
      exact .wakeWorker hm hw
    · have he : (match s.worker k with
          | .asleep => Function.update s.worker k .woken
          | _ => s.worker) = s.worker := by
        split
        · contradiction
        · rfl
      rw [he]
      exact .signalNobody hm hw

theorem moves_of_workerStep {k : Nat} (h : workerStep s k = some s') : Moves s (.worker k) s' := by
  unfold workerStep at h
  cases hw : s.worker k with
  | unlocked =>
    rw [hw] at h
    cases h
    exact .lock (.inl hw)
  | woken =>
    rw [hw] at h
    cases h
    exact .lock (.inr hw)
  | locked =>
    rw [hw] at h
    cases h
    split
    · next hb => exact .seeNull hw hb
    · next hb => exact .seeBuffer hw hb
  | sawNull =>
    rw [hw] at h
    cases h
    exact .sleep hw
  | asleep => simp [hw] at h
  | reading =>
    simp only [hw, Option.map_eq_some_iff] at h
    obtain ⟨content, hb, rfl⟩ := h
    exact .read hw hb
  | executing content =>
    cases content with
    | none =>
      rw [hw] at h
      cases h
      exact .garbage hw
    | some m =>
      simp only [hw, Option.map_eq_some_iff] at h
      obtain ⟨s₁, he, rfl⟩ := h
      exact .execute hw he
  | replied =>
    rw [hw] at h
    cases h
    exact .clear hw

theorem moves_of_step {e : Event α} {o : Unit} (h : step s e = some (o, s')) : Moves s e s' := by
  cases e with
  | send c r =>
    cases h
    exact .send c r
  | receive c =>
    obtain ⟨s₁, hs, he⟩ := Option.map_eq_some_iff.mp h
    cases he
    unfold Sessions.receive at hs
    split at hs
    · next m r rest hw hp =>
      cases hs
      exact .receive hw hp
    · cases hs
  | main =>
    obtain ⟨s₁, hs, he⟩ := Option.map_eq_some_iff.mp h
    cases he
    exact moves_of_mainStep hs
  | worker k =>
    by_cases hk : k < maxClients
    · rw [step, if_pos hk] at h
      obtain ⟨s₁, hs, he⟩ := Option.map_eq_some_iff.mp h
      cases he
      exact moves_of_workerStep hs
    · rw [step, if_neg hk] at h
      cases h
  | wake k =>
    obtain ⟨s₁, hs, he⟩ := Option.map_eq_some_iff.mp h
    cases he
    unfold wakeUp at hs
    split at hs
    · next hw =>
      cases hs
      exact .wake hw
    · cases hs

def Main.Before (k : Nat) (main : Main α) : Prop := ∃ m, main = .filling k m ∨ main = .signalling k m

/-- A worker that sleeps, or is about to after it saw NULL, and whose buffer is set will be signalled. -/
def Signalled (s : Sys α) : Prop :=
  ∀ k, s.threadBuffer k ≠ none → s.worker k = .sawNull ∨ s.worker k = .asleep → s.main.Before k

/-- The main thread does not signal a session whose worker stands between its test and its wait. -/
def SignalSeen (s : Sys α) : Event α → Prop
  | .main =>
    match s.main with
    | .signalling k _ => s.worker k ≠ .sawNull
    | .receiving | .filling _ _ => True
  | .send _ _ | .receive _ | .worker _ | .wake _ => True

instance [DecidableEq α] (s : Sys α) : ∀ e, Decidable (SignalSeen s e)
  | .main =>
    match h : s.main with
    | .signalling k _ => decidable_of_iff (s.worker k ≠ .sawNull) (by rw [SignalSeen, h])
    | .receiving | .filling _ _ => isTrue (by rw [SignalSeen, h]; trivial)
  | .send _ _ | .receive _ | .worker _ | .wake _ => isTrue trivial

theorem Signalled.init : Signalled (Sys.init : Sys α) := fun _ hb => absurd rfl hb

theorem Signalled.of_worker (i : Signalled s) (hb : s'.threadBuffer = s.threadBuffer) (hm : s'.main = s.main)
    (hw : ∀ k, s'.worker k = .sawNull ∨ s'.worker k = .asleep → s.worker k = .sawNull ∨ s.worker k = .asleep) :
    Signalled s' := by
  intro k hk hs
  rw [hm]
  exact i k (by rwa [hb] at hk) (hw k hs)

theorem Signalled.step {e : Event α} (i : Signalled s) (hg : SignalSeen s e) (h : Moves s e s') : Signalled s' := by
  have setWorker : ∀ {t : Sys α} {k : Nat} {w : Worker α}, t.threadBuffer = s.threadBuffer → t.main = s.main →
      t.worker = Function.update s.worker k w → w ≠ .sawNull → w ≠ .asleep → Signalled t := by
    intro t k w hb hm ht h₁ h₂
    refine i.of_worker hb hm fun j hj => ?_
    rw [ht] at hj
    by_cases hjk : j = k
    · subst hjk
      simp [h₁, h₂] at hj
    · simpa [hjk] using hj
  have setBuffer : ∀ {t : Sys α} {k : Nat} {b : Option (Message α)},
      t.threadBuffer = Function.update s.threadBuffer k (some b) → t.worker = s.worker →
      t.main.Before k → (∀ j, s.main.Before j → j = k) → Signalled t := by
    intro t k b hb hw hm hs j hj hwj
    by_cases hjk : j = k
    · rwa [hjk]
    · rw [hw] at hwj
      exact absurd (hs j (i j (by simpa [hb, hjk] using hj) hwj)) hjk
  cases h with
  | send c r => exact i.of_worker rfl rfl fun _ h => h
  | receive => exact i.of_worker rfl rfl fun _ h => h
  | refuse => exact i.of_worker rfl rfl fun _ h => h
  | @mount m _ _ k hm => exact setBuffer rfl rfl ⟨m, .inl rfl⟩ (by simp [Main.Before, hm])
  | deposit hm => exact setBuffer rfl rfl ⟨_, .inl rfl⟩ (by simp [Main.Before, hm])
  | fill hm hb => exact setBuffer rfl rfl ⟨_, .inr rfl⟩ (by simp [Main.Before, hm])
  | @wakeWorker k m hm hw =>
    intro j hj hs
    by_cases hjk : j = k
    · subst hjk
      simp [Sys.setWorker] at hs
    · obtain ⟨m', h | h⟩ := i j hj (by simpa [Sys.setWorker, hjk] using hs) <;> simp_all
  | @signalNobody k m hm hw =>
    intro j hj hs
    simp only [SignalSeen, hm] at hg
    obtain ⟨m', h | h⟩ := i j hj hs <;> simp_all
  | lock => exact setWorker rfl rfl rfl (by simp) (by simp)
  | @seeNull k hw hb =>
    intro j hj hs
    by_cases hjk : j = k
    · exact absurd (by rw [hjk]; exact hb) hj
    · exact i j hj (by simpa [Sys.setWorker, hjk] using hs)
  | seeBuffer => exact setWorker rfl rfl rfl (by simp) (by simp)
  | @sleep k hw =>
    intro j hj hs
    by_cases hjk : j = k
    · exact i j hj (.inl (by rw [hjk]; exact hw))
    · exact i j hj (by simpa [Sys.setWorker, hjk] using hs)
  | read => exact setWorker rfl rfl rfl (by simp) (by simp)
  | garbage => exact setWorker rfl rfl rfl (by simp) (by simp)
  | @execute k m s₁ hw he =>
    obtain ⟨hm, hb, hw'⟩ := execute_frame he
    have ht : Function.update s₁.worker k .replied = Function.update s.worker k .replied := by rw [hw']
    exact setWorker hb hm ht (by simp) (by simp)
  | @clear k hw =>
    intro j hj hs
    by_cases hjk : j = k
    · simp [Sys.setWorker, Sys.setBuffer, hjk] at hj
    · exact i j (by simpa [Sys.setWorker, Sys.setBuffer, hjk] using hj)
        (by simpa [Sys.setWorker, Sys.setBuffer, hjk] using hs)
  | wake => exact setWorker rfl rfl rfl (by simp) (by simp)

/-- If the main thread signals no session whose worker stands between its test and its wait, no worker sleeps
with its buffer set once the main thread is past its signal. -/
theorem no_lost_wakeup {es : List (Event α)} {outs : List Unit} {s : Sys α}
    (ha : Runs.Along step SignalSeen .init es) (hr : Runs.run step .init es = some (outs, s)) {k : Nat}
    (hw : s.worker k = .asleep) (hb : s.threadBuffer k ≠ none) :
    ∃ m, s.main = .filling k m ∨ s.main = .signalling k m :=
  (Runs.run_invariant (I := Signalled) (P := fun _ => True)
    (fun _ _ _ _ i hg h => ⟨trivial, i.step hg (moves_of_step h)⟩) .init ha hr).2 k hb (.inr hw)

/-- The worker waits before the buffer is set; the signal is still to come. -/
theorem no_lost_wakeup_mount : ∃ s : Sys Unit, (∃ outs, Runs.run step .init
    [.send 0 (.mount 0), .worker 0, .worker 0, .worker 0, .main] = some (outs, s)) ∧
      ∃ m, s.main = .filling 0 m ∨ s.main = .signalling 0 m := by
  let es : List (Event Unit) := [.send 0 (.mount 0), .worker 0, .worker 0, .worker 0, .main]
  have hend : (Runs.run step .init es).map (fun x => (x.2.worker 0, x.2.threadBuffer 0)) =
      some (.asleep, some none) := by decide
  obtain ⟨x, hx, he⟩ := Option.map_eq_some_iff.mp hend
  have hw : x.2.worker 0 = .asleep := congrArg Prod.fst he
  have hb : x.2.threadBuffer 0 ≠ none := by simp [show x.2.threadBuffer 0 = some none from congrArg Prod.snd he]
  exact ⟨x.2, ⟨x.1, hx⟩, no_lost_wakeup (by decide) hx hw hb⟩

/-- The buffer is set, filled and signalled between the worker's test and its wait. -/
theorem lost_wakeup : ¬ ∀ (es : List (Event Unit)) (outs : List Unit) (s : Sys Unit) (k : Nat),
    Runs.run step .init es = some (outs, s) → s.worker k = .asleep → s.threadBuffer k ≠ none →
      ∃ m, s.main = .filling k m ∨ s.main = .signalling k m := by
  intro hall
  let es : List (Event Unit) :=
    [.worker 0, .worker 0, .send 0 (.mount 0), .main, .main, .main, .worker 0]
  have hend : (Runs.run step .init es).map (fun x => (x.2.worker 0, x.2.threadBuffer 0, x.2.main)) =
      some (.asleep, some (some ⟨0, 0, .mount 0⟩), .receiving) := by decide
  obtain ⟨x, hx, he⟩ := Option.map_eq_some_iff.mp hend
  have hw : x.2.worker 0 = .asleep := congrArg Prod.fst he
  have hb : x.2.threadBuffer 0 = some (some ⟨0, 0, .mount 0⟩) := congrArg (fun y => y.2.1) he
  have hm : x.2.main = .receiving := congrArg (fun y => y.2.2) he
  obtain ⟨m, h | h⟩ := hall es x.1 x.2 0 hx hw (by simp [hb]) <;> simp [hm] at h

end Tecnicofs.Ex2.Sessions
