import Tecnicofs.Ex2.Handles
import Tecnicofs.Ex2.Mounts

namespace Tecnicofs.Ex2.Sessions

/-- The sessions and the library behind them, with what each worker executed last, the requests that workers are
done with, and those with an answer in their client's pipe, as often as they have one. -/
structure Service where
  sys : Sys Call
  lib : State
  current : Nat → Option (Message Call)
  finished : List (Message Call)
  answers : List (Message Call)

def Request.shutdownId : Request α → Option Nat
  | .shutdown k => some k
  | .mount _ | .unmount _ | .call _ _ => none

namespace Service

def init : Service := ⟨.init, .init, fun _ => none, [], []⟩

/-- The library after a step: only a worker that executes a file operation calls it. -/
def libAfter (x : Service) (e : Event Call) : Option State :=
  match e, handled x.sys e with
  | .worker _, some ⟨_, _, .call _ c⟩ => (x.lib.call c).map Prod.snd
  | _, _ => some x.lib

def currentAfter (x : Service) : Event Call → Nat → Option (Message Call)
  | .worker k => match x.sys.worker k with
    | .executing content => Function.update x.current k content
    | _ => x.current
  | _ => x.current

/-- A worker is done with a request when it clears its buffer. -/
def finishedAfter (x : Service) : Event Call → List (Message Call)
  | .worker k => match x.sys.worker k with
    | .replied => (x.current k).toList ++ x.finished
    | _ => x.finished
  | _ => x.finished

/-- A request is answered when the pipe of its client grows as it is dealt with. -/
def answersAfter (x : Service) (e : Event Call) (sys : Sys Call) : List (Message Call) :=
  match handled x.sys e with
  | some m => if (x.sys.clientPipe m.client).length < (sys.clientPipe m.client).length then m :: x.answers else x.answers
  | none => x.answers

def step (x : Service) (e : Event Call) : Option (Unit × Service) := do
  let (_, sys) ← Sessions.step x.sys e
  let lib ← x.libAfter e
  return ((), ⟨sys, lib, x.currentAfter e, x.finishedAfter e, x.answersAfter e sys⟩)

/-- What shutting down on request `m` comes to. -/
structure ShutDown (x : Service) (m : Message Call) : Prop where
  canOpenFiles : x.lib.canOpenFiles = 0
  closed : ∀ h < maxOpenFiles, x.lib.freeOpenFileEntries h = .free
  answered : x.answers.countP (fun a => a.number = m.number) = 1

structure Running (x : Service) : Prop where
  sane : Sane x.lib
  answers : ∀ m ∈ x.answers, ∀ k, m.request ≠ .shutdown k

variable {x x' : Service}

theorem running_init : Running init := by
  constructor
  · simp only [init]
    exact Sane.init
  · simp [init]

theorem Running.libAfter (h : Running x) {e : Event Call} {lib : State} (hl : x.libAfter e = some lib) : Sane lib := by
  unfold Service.libAfter at hl
  split at hl
  · obtain ⟨y, hy, rfl⟩ := Option.map_eq_some_iff.mp hl
    exact h.sane.call hy
  · cases hl
    exact h.sane

theorem unanswered {s s' : Sys Call} {e : Event Call} (h : Moves s e s') {m : Message Call}
    (hm : handled s e = some m) {k : Nat} (hr : m.request = .shutdown k) : s'.clientPipe = s.clientPipe := by
  cases h with
  | send => cases hm
  | receive => cases hm
  | @refuse m' rest pipe hmain hp hr' =>
    obtain rfl : m' = m := by simpa [handled, hmain, hp] using hm
    cases hr.symm.trans hr'
  | @execute k' m' s₁ hw he =>
    obtain rfl : m' = m := by simpa [handled, hw] using hm
    simp only [Sessions.execute, hr, Option.some.injEq] at he
    rw [← he]
    rfl
  | _ => rfl

theorem Running.step (h : Running x) {e : Event Call} {o : Unit} (hs : x.step e = some (o, x')) : Running x' := by
  obtain ⟨⟨u, sys⟩, hsys, hs⟩ := Option.bind_eq_some_iff.mp hs
  obtain ⟨lib, hlib, he⟩ := Option.bind_eq_some_iff.mp hs
  cases he
  refine ⟨h.libAfter hlib, fun m hm k hr => ?_⟩
  unfold answersAfter at hm
  split at hm
  · next m' hm' =>
    split at hm
    · next hlt =>
      rcases List.mem_cons.mp hm with rfl | hm
      · rw [unanswered (moves_of_step hsys) hm' hr] at hlt
        exact absurd hlt (Nat.lt_irrefl _)
      · exact h.answers m hm k hr
    · exact h.answers m hm k hr
  · exact h.answers m hm k hr

theorem not_shutDown {es : List (Event Call)} {outs : List Unit} (hr : Runs.run step init es = some (outs, x))
    {m : Message Call} {k : Nat} (hk : m.request = .shutdown k) :
    ¬ ShutDown x m ∧ x.lib.canOpenFiles = 1 ∧ m ∉ x.answers := by
  have ha : Runs.Along step (fun _ _ => True) init es := .of_forall (fun _ _ => trivial) _ _
  obtain ⟨-, h⟩ := Runs.run_invariant (P := fun _ => True) (fun _ _ _ _ h _ hs => ⟨trivial, Running.step h hs⟩)
    running_init ha hr
  refine ⟨fun hd => ?_, h.sane.canOpen, fun ha => h.answers m ha k hk⟩
  have hopen := h.sane.canOpen
  rw [hd.canOpenFiles] at hopen
  cases hopen

/-- Whatever the clients send and however the threads take turns, the server is shut down as asked only as long as
no worker is done with a request to shut it down. -/
theorem shutDown_iff {es : List (Event Call)} {outs : List Unit} (hr : Runs.run step init es = some (outs, x)) :
    (∀ m ∈ x.finished, ∀ k, m.request = .shutdown k → ShutDown x m) ↔
      ∀ m ∈ x.finished, ∀ k, m.request ≠ .shutdown k := by
  constructor
  · intro h m hm k hk
    exact (not_shutDown hr hk).1 (h m hm k hk)
  · intro h m hm k hk
    exact absurd hk (h m hm k)

def shutdownRequest : List (Event Call) :=
  [.send 0 (.mount 0), .main, .main, .main, .worker 0, .worker 0, .worker 0, .worker 0, .receive 0, .worker 0,
    .send 0 (.shutdown 0), .main, .main, .main, .worker 0, .worker 0, .worker 0, .worker 0, .worker 0]

theorem finished_shutdownRequest : ∃ outs x, Runs.run step init shutdownRequest = some (outs, x) ∧
    ∃ m ∈ x.finished, m.request = .shutdown 0 := by
  have hend : (Runs.run step init shutdownRequest).map (fun x => x.2.finished.map fun m => m.request.shutdownId) =
      some [some 0, none] := by decide
  obtain ⟨⟨outs, x⟩, hx, he⟩ := Option.map_eq_some_iff.mp hend
  obtain ⟨m, rest, hf, hid, -⟩ := List.map_eq_cons_iff.mp he
  refine ⟨outs, x, hx, m, ?_, ?_⟩
  · rw [show x.finished = m :: rest from hf]
    exact List.mem_cons_self ..
  · generalize m.request = request at hid
    cases request <;> cases hid
    rfl

theorem shutDown_iff_request : ∃ outs x, Runs.run step init shutdownRequest = some (outs, x) ∧
    ¬ ∀ m ∈ x.finished, ∀ k, m.request = .shutdown k → ShutDown x m := by
  obtain ⟨outs, x, hx, m, hm, hk⟩ := finished_shutdownRequest
  exact ⟨outs, x, hx, fun h => (shutDown_iff hx).mp h m hm 0 hk⟩

/-- The worker skips the request: files can still be opened, and the client waits for ever. -/
theorem shutdown_request_ignored : ¬ ∀ (es : List (Event Call)) (outs : List Unit) (x : Service),
    Runs.run step init es = some (outs, x) → ∀ m ∈ x.finished, ∀ k, m.request = .shutdown k → ShutDown x m := by
  intro hall
  obtain ⟨outs, x, hx, m, hm, hk⟩ := finished_shutdownRequest
  exact (not_shutDown hx hk).1 (hall _ outs x hx m hm 0 hk)

end Service

end Tecnicofs.Ex2.Sessions
