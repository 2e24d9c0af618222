import Mathlib.Data.List.Permutation
import Tecnicofs.Ex1.Sequential

namespace Tecnicofs.Ex1

open Bytes

variable {n : Nat} {owner : Owner} {s s' s₀ : State} {fs : ByteFs Nat} {c : Call}

/-- Reads and writes through handles that are open at the start. -/
def Transfers (s₀ : State) : Call → Prop
  | .write fhandle _ | .read fhandle _ => s₀.toOpenFiles.IsOpen fhandle
  | .open _ _ | .close _ => False

instance (s₀ : State) : ∀ c, Decidable (Transfers s₀ c)
  | .write _ _ | .read _ _ => inferInstanceAs (Decidable (s₀.toOpenFiles.IsOpen _))
  | .open _ _ | .close _ => isFalse id

/-- No offset is past the end of its file, and files have all blocks below their size, which is not too large. -/
structure WithinAllocated (s : State) : Prop where
  offsets : ∀ f < maxOpenFiles, s.freeOpenFileEntries f = .taken →
    (s.openFileTable f).ofOffset ≤ (s.inodeTable (s.fileOf f)).iSize
  allocated : ∀ i, s.IsFile i → ∀ k, k * blockSize < (s.inodeTable i).iSize → s.slot i (dataSlot k) ≠ -1
  short : ∀ i, s.IsFile i → (s.inodeTable i).iSize ≤ maxFileSize

theorem WithinAllocated.settled (h : WithinAllocated s) (hc : Consistent owner s) : Settled owner s :=
  { hc with
    offsets := h.offsets
    allocated := h.allocated
    short := h.short }

structure SameFiles (s s' : State) : Prop where
  bytes : ∀ i, s.IsFile i → s'.bytesOf i = s.bytesOf i
  offsets : ∀ f < maxOpenFiles, s.freeOpenFileEntries f = .taken →
    (s'.openFileTable f).ofOffset = (s.openFileTable f).ofOffset

/-- A step of the threads: calls that are started are such reads and writes, searches for a free block find one, and no
write goes past the last block of a file. -/
def Fair (s₀ : State) (p : Pool n Lock Label State Call Out) (e : Pool.Event n Call) : Prop :=
  (∀ t c, e = .start t c → Transfers s₀ c) ∧ p.Assumes Label.Succeeds e

instance (s₀ : State) (p : Pool n Lock Label State Call Out) : ∀ e, Decidable (Fair s₀ p e)
  | .start _ c => decidable_of_iff (Transfers s₀ c)
    ⟨fun h => ⟨fun _ _ he => by cases he; exact h, trivial⟩, fun h => h.1 _ _ rfl⟩
  | .step t => decidable_of_iff (p.Assumes Label.Succeeds (.step t))
    ⟨fun h => ⟨fun _ _ he => (nomatch he), h⟩, fun h => h.2⟩

/-- The calls in some order that keeps that of each thread. -/
def OrderOf (p : Pool n Lock Label State Call Out) (log : List (Fin n × Call × Out)) : Prop :=
  ∀ t, log.filter (fun x => x.1 = t) = p.history.filter fun x => x.1 = t

/-- The calls, one after the other on byte strings, have these answers and end in the contents, sizes and offsets of the
state. -/
def ExplainedBy (s₀ s : State) (log : List (Fin n × Call × Out)) : Prop :=
  ∃ fs, Runs.run (ByteFs.transfer limits) s₀.abs (log.map fun x => x.2.1) = some (log.map fun x => x.2.2, fs) ∧ Shows s fs

/-- And the code that makes them one after the other, with the locks. -/
def RepeatedBy (x₀ : LockedState) (s : State) (log : List (Fin n × Call × Out)) : Prop :=
  ∃ x, Runs.run LockedState.call x₀ (log.map fun x => x.2.1) = some (log.map fun x => x.2.2, x) ∧ SameFiles s x.toState

/-- No search for a free block fails in these calls, one after the other. -/
def SerialAllocs (s₀ : State) (log : List (Fin n × Call × Out)) : Prop :=
  Runs.Along State.call (fun s c => (body c).Assumes Label.Succeeds s) s₀ (log.map fun x => x.2.1)

theorem Transfers.kept (h : Transfers s₀ c) (hk : Kept s₀ s) : Transfers s c := by
  have hopen : ∀ fhandle, s₀.toOpenFiles.IsOpen fhandle → s.toOpenFiles.IsOpen fhandle := fun fhandle ho => by
    rwa [OpenFiles.IsOpen, hk.handles]
  cases c with
  | write fhandle buffer => exact hopen fhandle h
  | read fhandle len => exact hopen fhandle h
  | «open» name flags => exact h
  | close fhandle => exact h

theorem Transfers.truncatesNothing (h : Transfers s₀ c) (s : State) : TruncatesNothing s c := by
  cases c with
  | «open» name flags => exact h.elim
  | _ => trivial

theorem Transfers.implements (h : Settled owner s₀) (hc : Transfers s₀ c) : (regions s₀).Implements c (body c) := by
  cases c with
  | write fhandle buffer =>
    obtain ⟨f, hf, rfl, ht⟩ := hc.exists
    obtain ⟨i, hon⟩ := h.onFile hf ht
    exact write_implements hon buffer
  | read fhandle len =>
    obtain ⟨f, hf, rfl, ht⟩ := hc.exists
    obtain ⟨i, hon⟩ := h.onFile hf ht
    exact read_implements hon len
  | «open» name flags => exact hc.elim
  | close fhandle => exact hc.elim

theorem allows_of_succeeds {l : Label} (h : l.Succeeds s) : (regions s₀).allows l s := by
  cases l with
  | alloc => exact h
  | inodeSearch => trivial
  | write file len => exact h

theorem Fair.allows {p : Pool n Lock Label State Call Out} {e : Pool.Event n Call} (h : Fair s₀ p e) :
    p.Assumes (regions s₀).allows e := by
  have ha := h.2
  cases e with
  | start t c => trivial
  | step t =>
    cases hc : (p.thread t).current with
    | none =>
      rw [Pool.Assumes, hc]
      trivial
    | some x =>
      obtain ⟨c, prog⟩ := x
      rw [Pool.Assumes, hc] at ha ⊢
      cases prog with
      | act label f k =>
        cases label with
        | none => trivial
        | some l => exact allows_of_succeeds ha
      | _ => trivial

theorem OrderOf.mem_history {p : Pool n Lock Label State Call Out} {log : List (Fin n × Call × Out)} (h : OrderOf p log)
    {x : Fin n × Call × Out} (hx : x ∈ log) : x ∈ p.history := by
  have hmem : x ∈ log.filter (fun y => y.1 = x.1) := List.mem_filter.mpr ⟨hx, decide_eq_true rfl⟩
  rw [h x.1] at hmem
  exact (List.mem_filter.mp hmem).1

theorem SameFiles.of_shows (hs : Shows s fs) (hs' : Shows s' fs) (hk : Kept s₀ s) (hk' : Kept s₀ s') :
    SameFiles s s' where
  bytes i hi := by rw [← hs.contents i hi, ← hs'.contents i (hk'.isFile.mpr (hk.isFile.mp hi))]
  offsets f hf ht := by
    have he := hs.handles f hf ht
    rw [hs'.handles f hf (by rwa [hk'.handles, ← hk.handles])] at he
    exact (Prod.mk.inj (Option.some.inj he)).2

theorem along_grants_of_transfers {x : LockedState} (hf : x.IsFree) {cs : List Call} (hc : ∀ c ∈ cs, Transfers s₀ c) :
    Runs.Along LockedState.call LockedState.Grants x cs := by
  have hall : Runs.Along LockedState.call (fun _ _ => True) x cs := .of_forall (fun _ _ => trivial) x cs
  exact LockedState.along_grants hf ((hall.and_of_mem hc).mono fun y c h => h.1.truncatesNothing y.toState)

theorem RepeatedBy.of_explained {x₀ : LockedState} (hfree : x₀.IsFree) (h : Settled owner x₀.toState)
    {log : List (Fin n × Call × Out)} (hvalid : ∀ x ∈ log, Transfers x₀.toState x.2.1) (hk : Kept x₀.toState s)
    (he : ExplainedBy x₀.toState s log) (ha : SerialAllocs x₀.toState log) : RepeatedBy x₀ s log := by
  obtain ⟨fs, hrun, hshows⟩ := he
  have htransfers : ∀ c ∈ log.map fun x => x.2.1, Transfers x₀.toState c := fun c hc => by
    obtain ⟨x, hx, rfl⟩ := List.mem_map.mp hc
    exact hvalid x hx
  have hcalls := ha.and_of_mem htransfers
  obtain ⟨os, s', fs', hr, hr', ⟨-, hshows', hk'⟩⟩ := Runs.run_simulation
    (R := fun s fs => (∃ owner, Settled owner s) ∧ Shows s fs ∧ Kept x₀.toState s) id
    (fun s fs c ⟨⟨owner, hset⟩, hsh, hks⟩ ⟨hc, has⟩ => by
      obtain ⟨o, s', fs', owner', hcall, hspec, hset', hsh', hk'⟩ :=
        hset.transfer hsh ((hc.kept hks).implements hset) (has.mono fun _ _ => allows_of_succeeds)
      exact ⟨o, s', fs', hcall, hspec, ⟨owner', hset'⟩, hsh', hks.trans hk'⟩)
    ⟨⟨owner, h⟩, shows_abs _, .refl _⟩ hcalls
  rw [List.map_id, hrun] at hr'
  obtain ⟨rfl, rfl⟩ := Prod.mk.inj (Option.some.inj hr')
  obtain ⟨x, hx, rfl⟩ := LockedState.run_of_grants (along_grants_of_transfers hfree htransfers) hr
  exact ⟨x, hx, .of_shows hshows hshows' hk hk'⟩

/-- Threads before their first call, with the locks as sequential calls left them: one that is not free was given back
too often. -/
def LockedState.threads (x : LockedState) : Pool n Lock Label State Call Out :=
  { Pool.init x.toState with
    broken := fun
      | .rwl i => !decide (x.rwl i).IsFree
      | .inodeTable | .openFileTable | .blockTable | .file _ => false }

theorem LockedState.IsFree.threads_eq {x : LockedState} (h : x.IsFree) :
    (x.threads : Pool n Lock Label State Call Out) = .init x.toState := by
  have hbroken : (x.threads : Pool n Lock Label State Call Out).broken = fun _ => false := by
    funext l
    cases l with
    | rwl i => simp [threads, h i]
    | _ => rfl
  rw [threads] at hbroken ⊢
  simp only at hbroken
  rw [hbroken]
  rfl

/-- Reads and writes of many threads are answered as in some order of the calls, where no lock was given back too often
before. -/
theorem transfers_serial {n : Nat} {owner : Owner} {x₀ : LockedState} (h : Consistent owner x₀.toState)
    (hw : WithinAllocated x₀.toState) (hfree : x₀.IsFree) {es : List (Pool.Event n Call)} {outs : List Unit}
    {p : Pool n Lock Label State Call Out} (ha : Runs.Along (Pool.step body) (Fair x₀.toState) x₀.threads es)
    (hr : Runs.run (Pool.step body) x₀.threads es = some (outs, p)) (hidle : ∀ t, (p.thread t).current = none) :
    ∃ log, OrderOf p log ∧ ExplainedBy x₀.toState p.state log ∧
      (SerialAllocs x₀.toState log → RepeatedBy x₀ p.state log) := by
  rw [hfree.threads_eq] at ha hr
  have hs := hw.settled h
  have hbody : ∀ c, Transfers x₀.toState c → (regions x₀.toState).Implements c (body c) := fun c hc => hc.implements hs
  obtain ⟨log, w, hstate, hsound, hinv, hrun, horder⟩ := Regions.serial (w := ⟨x₀.toState, owner, x₀.abs⟩) hbody
    (hs.sound (shows_abs _)) (hs.inv (shows_abs _)) (ha.mono fun p e he => ⟨he.1, he.allows⟩) hr hidle
  obtain ⟨-, hshows⟩ := Settled.of_sound h hsound hinv
  have hk := hsound.kept
  rw [hstate] at hshows hk
  have he : ExplainedBy x₀.toState p.state log := ⟨w.abs, hrun, hshows⟩
  have hvalid : p.Valid (Transfers x₀.toState) := .of_run (ha.mono fun p e he => he.1) hr
  have ho : OrderOf p log := horder
  exact ⟨log, ho, he, .of_explained hfree hs (fun x hx => hvalid.history x (ho.mem_history hx)) hk he⟩

theorem Settled.of_lockedReaches {x : LockedState}
    (h : Runs.Reaches LockedState.call (fun x c => Roomy x.toState c) .init x) :
    ∃ owner, Settled owner x.toState ∧ x.IsFree := by
  obtain ⟨owner, hs⟩ := Settled.of_reaches (LockedState.reaches_init h)
  exact ⟨owner, hs, (LockedState.isFree_ofState State.init).of_reaches (fun _ _ hg => hg.2.1) h⟩

/-- A read starts first and sees what a write through another handle adds. -/
theorem transfers_serial_two_handles : ∃ (x₀ : LockedState) (es : List (Pool.Event 2 Call)) (outs : List Unit)
    (p : Pool 2 Lock Label State Call Out), Runs.run (Pool.step body) x₀.threads es = some (outs, p) ∧
      p.history.map (fun x => (x.1, x.2.2.ret)) = [(0, 1), (1, 4)] ∧
      ∃ log, OrderOf p log ∧ ExplainedBy x₀.toState p.state log ∧
        (SerialAllocs x₀.toState log → RepeatedBy x₀ p.state log) := by
  let name : Option CString := some ⟨[47, 97], by decide⟩
  let cs : List Call := [.open name tfsOCreat, .write 0 [1, 2, 3], .open name 0]
  let es : List (Pool.Event 2 Call) := .start 1 (.read 1 9) :: (List.replicate 3 (.step 1) ++
    .start 0 (.write 0 [4]) :: (List.replicate 16 (.step 0) ++ List.replicate 12 (.step 1)))
  have hroomy : Runs.Along LockedState.call (fun x c => Roomy x.toState c) .init cs := by decide +kernel
  have hend : (Runs.run LockedState.call .init cs).bind (fun x =>
      (Runs.run (Pool.step body) x.2.threads es).map fun y => decide (
        Runs.Along (Pool.step body) (Fair x.2.toState) x.2.threads es ∧ (∀ t, (y.2.thread t).current.isNone = true) ∧
        y.2.history.map (fun x => (x.1, x.2.2.ret)) = [(0, 1), (1, 4)])) = some true := by decide +kernel
  obtain ⟨x, hx, he⟩ := Option.bind_eq_some_iff.mp hend
  obtain ⟨y, hy, he⟩ := Option.map_eq_some_iff.mp he
  obtain ⟨hfair, hidle, hhist⟩ := of_decide_eq_true he
  obtain ⟨owner, hs, hfree⟩ := Settled.of_lockedReaches ⟨cs, x.1, hroomy, hx⟩
  exact ⟨x.2, es, y.1, y.2, hy, hhist, transfers_serial hs.toConsistent ⟨hs.offsets, hs.allocated, hs.short⟩ hfree hfair hy
    fun t => Option.isNone_iff_eq_none.mp (hidle t)⟩

theorem WithinAllocated.of_empty (hsize : ∀ i < inodeTableSize, s.IsFile i → (s.inodeTable i).iSize = 0)
    (hoff : ∀ f < maxOpenFiles, s.freeOpenFileEntries f = .taken → (s.openFileTable f).ofOffset = 0) :
    WithinAllocated s where
  offsets f hf ht := by
    rw [hoff f hf ht]
    exact Nat.zero_le _
  allocated i hi k hk := by
    rw [hsize i hi.1 hi] at hk
    exact absurd hk (Nat.not_lt_zero _)
  short i hi := by
    rw [hsize i hi.1 hi]
    exact Nat.zero_le _

theorem OrderOf.perm {p : Pool n Lock Label State Call Out} {log : List (Fin n × Call × Out)} (h : OrderOf p log) :
    log.Perm p.history := by
  classical
  refine List.perm_iff_count.mpr fun x => ?_
  have hx : decide (x.1 = x.1) = true := decide_eq_true rfl
  rw [← List.count_filter (p := fun y : Fin n × Call × Out => y.1 = x.1) hx, h x.1,
    List.count_filter (p := fun y : Fin n × Call × Out => y.1 = x.1) hx]

theorem OrderOf.cases_two {p : Pool n Lock Label State Call Out} {log : List (Fin n × Call × Out)} (h : OrderOf p log)
    (hlen : p.history.length = 2) : log = p.history ∨ log = p.history.reverse := by
  obtain ⟨x, y, he⟩ := List.length_eq_two.mp hlen
  have hperm := h.perm
  rw [he] at hperm ⊢
  exact List.perm_pair.mp hperm

/-- A file of eleven blocks was truncated: while it grows again, a write to another file takes its indirect block. -/
theorem transfers_not_serial : ¬ ∀ (n : Nat) (x₀ : LockedState) (es : List (Pool.Event n Call)) (outs : List Unit)
    (p : Pool n Lock Label State Call Out), Runs.Reaches LockedState.call (fun _ _ => True) .init x₀ →
    WithinAllocated x₀.toState →
    Runs.Along (Pool.step body) (Fair x₀.toState) x₀.threads es →
    Runs.run (Pool.step body) x₀.threads es = some (outs, p) → (∀ t, (p.thread t).current = none) →
    ∃ log, OrderOf p log ∧ (ExplainedBy x₀.toState p.state log ∨ RepeatedBy x₀ p.state log) := by
  intro hall
  let name : Option CString := some ⟨[47, 97], by decide⟩
  let cs : List Call := [.open name tfsOCreat, .write 0 (List.replicate (10 * blockSize + 1) 0), .close 0,
    .open name tfsOTrunc, .open (some ⟨[47, 98], by decide⟩) tfsOCreat]
  let es : List (Pool.Event 2 Call) := .start 0 (.write 0 (List.replicate (10 * blockSize + 1) 0)) ::
    (List.replicate 88 (.step 0) ++ .start 1 (.write 1 [0]) :: (List.replicate 20 (.step 1) ++ List.replicate 7 (.step 0)))
  have hend : (Runs.run LockedState.call .init cs).bind (fun x =>
      (Runs.run (Pool.step body) x.2.threads es).map fun y => decide (
        ((∀ i < inodeTableSize, x.2.IsFile i → (x.2.inodeTable i).iSize = 0) ∧
          ∀ f < maxOpenFiles, x.2.freeOpenFileEntries f = .taken → (x.2.openFileTable f).ofOffset = 0) ∧
        Runs.Along (Pool.step body) (Fair x.2.toState) x.2.threads es ∧ (∀ t, (y.2.thread t).current.isNone = true) ∧
        y.2.history.length = 2 ∧ ∀ log ∈ [y.2.history, y.2.history.reverse],
          (Runs.run (ByteFs.transfer limits) x.2.abs (log.map fun x => x.2.1)).map (fun x => x.1.map Out.ret) ≠
            some (log.map fun x => x.2.2.ret) ∧
          (Runs.run LockedState.call x.2 (log.map fun x => x.2.1)).map (fun x => x.1.map Out.ret) ≠
            some (log.map fun x => x.2.2.ret))) = some true := by decide +kernel
  obtain ⟨x, hx, he⟩ := Option.bind_eq_some_iff.mp hend
  obtain ⟨y, hy, he⟩ := Option.map_eq_some_iff.mp he
  obtain ⟨⟨hsize, hoff⟩, hfair, hidle, hlen, hneither⟩ := of_decide_eq_true he
  have hreach : Runs.Reaches LockedState.call (fun _ _ => True) .init x.2 :=
    ⟨cs, x.1, .of_forall (fun _ _ => trivial) _ _, hx⟩
  obtain ⟨log, ho, hexp⟩ := hall 2 x.2 es y.1 y.2 hreach (.of_empty hsize hoff) hfair hy
    fun t => Option.isNone_iff_eq_none.mp (hidle t)
  have hmem : log ∈ [y.2.history, y.2.history.reverse] := by simpa using ho.cases_two hlen
  obtain ⟨hspec, hcode⟩ := hneither log hmem
  rcases hexp with ⟨fs, hr, -⟩ | ⟨s', hr, -⟩
  · exact hspec (by rw [hr, Option.map_some, List.map_map]; rfl)
  · exact hcode (by rw [hr, Option.map_some, List.map_map]; rfl)

end Tecnicofs.Ex1
