import Tecnicofs.Ex2.Shutdown

namespace Tecnicofs.Ex2.Drain

open Shutdown

structure Sys extends Shutdown.Sys where
  signalled : Bool

def Sys.init : Sys := ⟨.init, false⟩

/-- `tfs_close` signals when no file is open, which only a thread that waits notices; a thread that enters the wait or
leaves it has no signal. -/
def signalledAfter (s : Sys) : Event → Shutdown.Sys → Bool
  | .close _ _, s' => s.signalled || decide (s.destroyer = .waiting ∧ s'.lib.openFiles = 0)
  | .destroy, _ | .wake, _ => false
  | .testOpen _ _ _, _ | .lockOpen _, _ => s.signalled

/-- One step.  A wait may end without a signal. -/
def step (s : Sys) (e : Event) : Option (Option Int × Sys) :=
  (Shutdown.step s.toSys e).map fun x => (x.1, ⟨x.2, signalledAfter s e x.2⟩)

variable {s s' : Sys} {e : Event} {o : Option Int}

theorem step_eq_some (h : step s e = some (o, s')) :
    Shutdown.step s.toSys e = some (o, s'.toSys) ∧ s'.signalled = signalledAfter s e s'.toSys := by
  obtain ⟨x, hx, he⟩ := Option.map_eq_some_iff.mp h
  cases he
  exact ⟨hx, rfl⟩

structure Inv (s : Sys) : Prop where
  counted : Counted s.lib
  waits : s.destroyer = .waiting → s.signalled = false → 0 < s.lib.openFiles

theorem Inv.start {lib : State} {pc : Nat → Pc} (c : Counted lib) : Inv ⟨⟨lib, pc, .before⟩, false⟩ where
  counted := c
  waits h := by cases h

theorem Inv.testLoop {s : Shutdown.Sys} (c : Counted s.lib) : Inv ⟨s.testLoop, false⟩ where
  counted := c
  waits h _ := by
    refine c.nonneg.lt_of_ne' fun hz => ?_
    simp [Shutdown.Sys.testLoop, hz] at h

theorem Inv.step (i : Inv s) (h : step s e = some (o, s')) : Inv s' := by
  obtain ⟨hs, hsig⟩ := step_eq_some h
  obtain ⟨sys, signalled⟩ := s'
  obtain rfl : signalled = signalledAfter s e sys := hsig
  cases moves_of_step hs with
  | refused => exact i
  | tested => exact ⟨i.counted, i.waits⟩
  | opened hx =>
    obtain ⟨hc, -, hle⟩ := i.counted.tfsOpenLocked hx
    exact ⟨hc, fun hw hno => (i.waits hw hno).trans_le hle⟩
  | closed thread fhandle =>
    have hc := i.counted.tfsClose fhandle
    refine ⟨hc, fun hw hno => hc.nonneg.lt_of_ne' fun hz => ?_⟩
    have hsig := (Bool.or_eq_false_iff.mp hno).2
    exact of_decide_eq_false hsig ⟨hw, hz⟩
  | destroys hd => exact .testLoop (i.counted.canOpenFiles 0)
  | wakes hd => exact .testLoop i.counted

theorem Inv.run (i : Inv s) {es : List Event} {outs : List (Option Int)}
    (hr : Runs.run Drain.step s es = some (outs, s')) : Inv s' := by
  have ha : Runs.Along Drain.step (fun _ _ => True) s es := .of_forall (fun _ _ => trivial) _ _
  exact (Runs.run_invariant (P := fun _ => True) (fun _ _ _ _ i _ h => ⟨trivial, i.step h⟩) i ha hr).2

/-- However the threads take turns, `open_files` is the number of entries that are taken, and a thread that waits in
`tfs_destroy_after_all_closed` with no signal on its way waits for a file that is open. -/
theorem openFiles_counts {es : List Event} {outs : List (Option Int)} {s : Sys}
    (hr : Runs.run step Sys.init es = some (outs, s)) :
    s.lib.openFiles = (takenEntries s.lib.toOpenFiles).card ∧ 0 ≤ s.lib.openFiles ∧
      (s.destroyer = .waiting → s.signalled = false →
        ∃ h < maxOpenFiles, s.lib.freeOpenFileEntries h = .taken) := by
  have i : Inv s := (Inv.start .init).run hr
  exact ⟨i.counted.count, i.counted.nonneg, fun hw hno => i.counted.openFiles_pos.mp (i.waits hw hno)⟩

/-- A file is open, another is closed twice, and the last close is of a handle that does not exist. -/
theorem openFiles_counts_two_files :
    let es : List Event := [.testOpen 0 (some ⟨[47, 102], by decide⟩) 1, .testOpen 1 (some ⟨[47, 103], by decide⟩) 1,
      .testOpen 2 (some ⟨[102], by decide⟩) 0, .lockOpen 0, .destroy, .lockOpen 2, .lockOpen 1, .close 0 0, .close 1 0,
      .wake, .close 0 99]
    ∃ outs s, Runs.run step Sys.init es = some (outs, s) ∧ s.destroyer = .waiting ∧ s.signalled = false ∧
      s.lib.openFiles = (takenEntries s.lib.toOpenFiles).card ∧ 0 ≤ s.lib.openFiles ∧
      ∃ h < maxOpenFiles, s.lib.freeOpenFileEntries h = .taken := by
  intro es
  have hend : (Runs.run step Sys.init es).map (fun x => decide (x.2.destroyer = .waiting ∧ x.2.signalled = false)) =
      some true := by decide +kernel
  obtain ⟨x, hx, he⟩ := Option.map_eq_some_iff.mp hend
  obtain ⟨hw, hno⟩ := of_decide_eq_true he
  obtain ⟨hcount, hpos, hopen⟩ := openFiles_counts hx
  exact ⟨x.1, x.2, hx, hw, hno, hcount, hpos, hopen hw hno⟩

theorem IsOpen.of_close {lib : State} {fhandle h : Int} (ho : (tfsClose lib fhandle).2.toOpenFiles.IsOpen h) :
    lib.toOpenFiles.IsOpen h ∧ h ≠ fhandle := by
  by_cases hc : lib.toOpenFiles.IsOpen fhandle
  · rw [tfsClose_of_isOpen hc] at ho
    obtain ⟨hv, ht⟩ := ho
    simp only [State.setFiles_toOpenFiles, OpenFiles.release_free] at ht
    split at ht
    · cases ht
    · next hne =>
      refine ⟨⟨hv, ht⟩, ?_⟩
      rintro rfl
      exact hne rfl
  · rw [tfsClose_of_not hc] at ho
    refine ⟨ho, ?_⟩
    rintro rfl
    exact hc ho

theorem run_closes {thread : Nat} (hpc : s.pc thread = .idle) (hs : List Int) :
    ∃ outs s', Runs.run step s (hs.map (.close thread)) = some (outs, s') ∧ s'.destroyer = s.destroyer ∧
      ∀ h, s'.lib.toOpenFiles.IsOpen h → s.lib.toOpenFiles.IsOpen h ∧ h ∉ hs := by
  induction hs generalizing s with
  | nil => exact ⟨[], s, rfl, rfl, fun h ho => ⟨ho, List.not_mem_nil⟩⟩
  | cons fhandle hs ih =>
    obtain ⟨s₁, hstep, hpc₁, hd₁, hlib⟩ : ∃ s₁, step s (.close thread fhandle) = some (none, s₁) ∧ s₁.pc = s.pc ∧
        s₁.destroyer = s.destroyer ∧ s₁.lib = (tfsClose s.lib fhandle).2 := by
      simp [step, Shutdown.step, hpc]
    obtain ⟨outs, s', hr, hd, ho⟩ := ih (s := s₁) (by rw [hpc₁, hpc])
    refine ⟨none :: outs, s', ?_, hd.trans hd₁, fun h hopen => ?_⟩
    · rw [List.map_cons, Runs.run_cons hstep, hr]
      rfl
    · obtain ⟨h₁, hnot⟩ := ho h hopen
      rw [hlib] at h₁
      obtain ⟨h₀, hne⟩ := IsOpen.of_close h₁
      exact ⟨h₀, fun hmem => (List.mem_cons.mp hmem).elim hne hnot⟩

theorem closes_end_wait {es : List Event} {outs : List (Option Int)}
    (hr : Runs.run step Sys.init es = some (outs, s)) (hw : s.destroyer = .waiting) {thread : Nat}
    (hpc : s.pc thread = .idle) {hs : List Int} (hall : ∀ h, s.lib.toOpenFiles.IsOpen h → h ∈ hs) :
    ∃ outs' s' s'', Runs.run step s (hs.map (.close thread)) = some (outs', s') ∧ s'.signalled = true ∧
      step s' .wake = some (none, s'') ∧ s''.destroyer = .left := by
  obtain ⟨outs', s', hr', hd, ho⟩ := run_closes hpc hs
  have i : Inv s' := ((Inv.start .init).run hr).run hr'
  have hw' : s'.destroyer = .waiting := hd.trans hw
  have hnone : ¬ ∃ h < maxOpenFiles, s'.lib.freeOpenFileEntries h = .taken := by
    rintro ⟨h, hh, ht⟩
    obtain ⟨hopen, hnot⟩ := ho h (OpenFiles.isOpen_natCast.mpr ⟨hh, ht⟩)
    exact hnot (hall h hopen)
  have hzero : ¬ 0 < s'.lib.openFiles := fun hpos => hnone (i.counted.openFiles_pos.mp hpos)
  have hsig : s'.signalled = true := by
    by_contra hno
    exact hzero (i.waits hw' (Bool.eq_false_iff.mpr hno))
  have hz : s'.lib.openFiles = 0 := le_antisymm (not_lt.mp hzero) i.counted.nonneg
  refine ⟨outs', s', ⟨s'.testLoop, false⟩, hr', hsig, ?_, ?_⟩
  · simp [step, Shutdown.step, hw', signalledAfter]
  · simp [Shutdown.Sys.testLoop, hz]

end Tecnicofs.Ex2.Drain
