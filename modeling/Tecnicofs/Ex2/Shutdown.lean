import Tecnicofs.Ex2.Invariant
import Tecnicofs.Lib.Runs

/-! Project 2: `tfs_destroy_after_all_closed` against threads that open and close files.  `tfs_open` tests
`can_open_files` before it takes `single_global_lock`, so a thread can stand between the two. -/

namespace Tecnicofs.Ex2.Shutdown

open Bytes

inductive Pc
  | idle
  | tested (name : Option CString) (flags : Int)

inductive Destroyer
  | before
  | waiting
  | left
  deriving DecidableEq

structure Sys where
  lib : State
  pc : Nat → Pc
  destroyer : Destroyer

/-- A thread tests the flag or runs a critical section; `destroy` runs to the end of the loop or into the wait,
and `wake` leaves the wait and tests `open_files` again. -/
inductive Event
  | testOpen (thread : Nat) (name : Option CString) (flags : Int)
  | lockOpen (thread : Nat)
  | close (thread : Nat) (fhandle : Int)
  | destroy
  | wake

def Sys.setPc (s : Sys) (thread : Nat) (pc : Pc) : Sys := { s with pc := Function.update s.pc thread pc }

def Sys.testLoop (s : Sys) : Sys :=
  { s with destroyer := if s.lib.openFiles ≠ 0 then .waiting else .left }

/-- One step, with what `tfs_open` returns when it does. -/
def step (s : Sys) : Event → Option (Option Int × Sys)
  | .testOpen thread name flags =>
    match s.pc thread with
    | .idle =>
      if s.lib.canOpenFiles = 0 then some (some (-1), s) else some (none, s.setPc thread (.tested name flags))
    | .tested _ _ => none
  | .lockOpen thread =>
    match s.pc thread with
    | .idle => none
    | .tested name flags =>
      (tfsOpenLocked s.lib name flags).map fun x => (some x.1, ({ s with lib := x.2 }.setPc thread .idle : Sys))
  | .close thread fhandle =>
    match s.pc thread with
    | .idle => some (none, { s with lib := (tfsClose s.lib fhandle).2 })
    | .tested _ _ => none
  | .destroy =>
    match s.destroyer with
    | .before => some (none, ({ s with lib := { s.lib with canOpenFiles := 0 } } : Sys).testLoop)
    | _ => none
  | .wake =>
    match s.destroyer with
    | .waiting => some (none, s.testLoop)
    | _ => none

def Sys.init : Sys := ⟨.init, fun _ => .idle, .before⟩

inductive Moves (s : Sys) : Event → Option Int → Sys → Prop
  | refused {thread : Nat} (name : Option CString) (flags : Int) (hcan : s.lib.canOpenFiles = 0) :
      Moves s (.testOpen thread name flags) (some (-1)) s
  | tested {thread : Nat} (name : Option CString) (flags : Int) :
      Moves s (.testOpen thread name flags) none (s.setPc thread (.tested name flags))
  | opened {thread : Nat} {name : Option CString} {flags : Int} {x : Int × State}
      (hx : tfsOpenLocked s.lib name flags = some x) :
      Moves s (.lockOpen thread) (some x.1) ({ s with lib := x.2 }.setPc thread .idle)
  | closed (thread : Nat) (fhandle : Int) :
      Moves s (.close thread fhandle) none { s with lib := (tfsClose s.lib fhandle).2 }
  | destroys (hd : s.destroyer = .before) :
      Moves s .destroy none ({ s with lib := { s.lib with canOpenFiles := 0 } } : Sys).testLoop
  | wakes (hd : s.destroyer = .waiting) : Moves s .wake none s.testLoop

theorem moves_of_step {s s' : Sys} {e : Event} {o : Option Int} (h : step s e = some (o, s')) : Moves s e o s' := by
  cases e with
  | testOpen thread name flags =>
    cases hpc : s.pc thread with
    | tested _ _ => simp [step, hpc] at h
    | idle =>
      simp only [step, hpc] at h
      split at h
      · next hcan =>
        cases h
        exact .refused name flags hcan
      · cases h
        exact .tested name flags
  | lockOpen thread =>
    cases hpc : s.pc thread with
    | idle => simp [step, hpc] at h
    | tested name flags =>
      simp only [step, hpc, Option.map_eq_some_iff] at h
      obtain ⟨x, hx, he⟩ := h
      cases he
      exact .opened hx
  | close thread fhandle =>
    cases hpc : s.pc thread with
    | tested _ _ => simp [step, hpc] at h
    | idle =>
      simp only [step, hpc] at h
      cases h
      exact .closed thread fhandle
  | destroy =>
    cases hd : s.destroyer <;> simp only [step, hd, reduceCtorEq] at h
    cases h
    exact .destroys hd
  | wake =>
    cases hd : s.destroyer <;> simp only [step, hd, reduceCtorEq] at h
    cases h
    exact .wakes hd

/-- No thread enters the critical section of `tfs_open` once the wait loop was left. -/
def NotLate (s : Sys) : Event → Prop
  | .lockOpen _ => s.destroyer ≠ .left
  | _ => True

instance (s : Sys) : ∀ e, Decidable (NotLate s e)
  | .lockOpen _ => inferInstanceAs (Decidable (_ ≠ _))
  | .testOpen _ _ _ | .close _ _ | .destroy | .wake => inferInstanceAs (Decidable True)

def takenEntries (f : OpenFiles) : Finset Nat :=
  (Finset.range maxOpenFiles).filter fun h => f.freeOpenFileEntries h = .taken

structure Counted (s : State) : Prop where
  wf : ∃ es, Wf es s
  count : s.openFiles = (takenEntries s.toOpenFiles).card

theorem takenEntries_take {f : OpenFiles} {i : Nat} (hi : i < maxOpenFiles) (hf : f.freeOpenFileEntries i = .free) :
    (takenEntries (f.take i)).card = (takenEntries f).card + 1 := by
  have hins : takenEntries (f.take i) = insert i (takenEntries f) := by
    ext h
    simp only [takenEntries, Finset.mem_filter, Finset.mem_range, Finset.mem_insert, OpenFiles.take_free]
    by_cases he : h = i
    · simpa [he] using hi
    · simp [he]
  rw [hins, Finset.card_insert_of_notMem]
  simp [takenEntries, hf]

theorem takenEntries_release {f : OpenFiles} {i : Nat} (hi : i < maxOpenFiles)
    (ht : f.freeOpenFileEntries i = .taken) : (takenEntries (f.release i)).card + 1 = (takenEntries f).card := by
  have hins : takenEntries f = insert i (takenEntries (f.release i)) := by
    ext h
    simp only [takenEntries, Finset.mem_filter, Finset.mem_range, Finset.mem_insert, OpenFiles.release_free]
    by_cases he : h = i
    · simpa [he, ht] using hi
    · simp [he]
  rw [hins, Finset.card_insert_of_notMem]
  simp [takenEntries, OpenFiles.release_free]

theorem opened_files {es es' : List DirEntry} {s : State} (w : Wf es s) {name : Option CString} {flags : Int}
    {x : Int × State} (h : Opened es s name flags es' x) :
    x.2.openFiles = s.openFiles ∧ x.2.canOpenFiles = s.canOpenFiles ∧
      (x.1 = -1 ∧ x.2.toOpenFiles = s.toOpenFiles ∨
        x.1 ≠ -1 ∧ (takenEntries x.2.toOpenFiles).card = (takenEntries s.toOpenFiles).card + 1) := by
  have handle : ∀ (t : State) (inum : Int) (o : Nat), t.openFiles = s.openFiles →
      t.canOpenFiles = s.canOpenFiles → t.toOpenFiles = s.toOpenFiles →
      (openHandle t inum o).2.openFiles = s.openFiles ∧ (openHandle t inum o).2.canOpenFiles = s.canOpenFiles ∧
        ((openHandle t inum o).1 = -1 ∧ (openHandle t inum o).2.toOpenFiles = s.toOpenFiles ∨
          (openHandle t inum o).1 ≠ -1 ∧
            (takenEntries (openHandle t inum o).2.toOpenFiles).card = (takenEntries s.toOpenFiles).card + 1) := by
    intro t inum o hn hc hf
    refine ⟨hn, hc, ?_⟩
    unfold openHandle addToOpenFileTable
    cases hfree : firstFree t.freeOpenFileEntries maxOpenFiles with
    | none => exact .inl ⟨rfl, hf⟩
    | some i =>
      obtain ⟨hi, hfi, -⟩ := firstFree_eq_some.mp hfree
      right
      refine ⟨by simp only; omega, ?_⟩
      rw [hf] at hfi
      rw [← takenEntries_take hi hfi, hf]
      rfl
  cases h with
  | @existing _ i hs hv hi hn hl =>
    rcases w.openedState_cases (j := i + 1) (by omega) hi flags with he | ⟨b, he⟩ <;> rw [he] <;>
      exact handle _ _ _ rfl rfl rfl
  | created => exact handle _ _ _ rfl rfl rfl
  | full =>
    rw [w.inodeDelete_newFile_eq]
    exact ⟨rfl, rfl, .inl ⟨rfl, rfl⟩⟩
  | absent => exact ⟨rfl, rfl, .inl ⟨rfl, rfl⟩⟩

namespace Counted

variable {s : State}

theorem init : Counted State.init where
  wf := ⟨[], .init⟩
  count := by
    rw [State.init_eq]
    rfl

theorem tfsOpenLocked (c : Counted s) {name : Option CString} {flags : Int} {x : Int × State}
    (h : tfsOpenLocked s name flags = some x) :
    Counted x.2 ∧ x.2.canOpenFiles = s.canOpenFiles ∧ s.openFiles ≤ x.2.openFiles := by
  obtain ⟨es, w⟩ := c.wf
  obtain ⟨y, hy, rfl⟩ := Option.map_eq_some_iff.mp h
  obtain ⟨es', ho⟩ := w.opened hy
  have hw := w.of_opened ho
  have hcount := c.count
  obtain ⟨hn, hcan, ⟨hr, hf⟩ | ⟨hr, hf⟩⟩ := opened_files w ho
  · simp only [hr, ne_eq, not_true_eq_false, if_false]
    exact ⟨⟨⟨es', hw⟩, by rw [hn, hf, hcount]⟩, hcan, hn.ge⟩
  · simp only [ne_eq, hr, not_false_eq_true, if_true]
    refine ⟨⟨⟨es', hw.openFiles _⟩, ?_⟩, hcan, ?_⟩
    · simp only [hn, hcount, hf]
      push_cast
      rfl
    · simp only [hn]
      omega

theorem tfsClose (c : Counted s) (fhandle : Int) : Counted (tfsClose s fhandle).2 := by
  obtain ⟨es, w⟩ := c.wf
  refine ⟨⟨es, w.close fhandle⟩, ?_⟩
  have hcount := c.count
  by_cases ho : s.toOpenFiles.IsOpen fhandle
  · obtain ⟨i, hi, rfl, ht⟩ := ho.exists
    have hcard := takenEntries_release hi ht
    rw [tfsClose_of_isOpen ho, Int.toNat_natCast]
    simp only [State.setFiles_toOpenFiles, hcount, ← hcard]
    omega
  · rw [tfsClose_of_not ho]
    exact hcount

theorem nonneg (c : Counted s) : 0 ≤ s.openFiles := by
  rw [c.count]
  exact Int.natCast_nonneg _

theorem openFiles_pos (c : Counted s) : 0 < s.openFiles ↔ ∃ h < maxOpenFiles, s.freeOpenFileEntries h = .taken := by
  rw [c.count, Int.natCast_pos, Finset.card_pos]
  simp [takenEntries, Finset.Nonempty]

theorem canOpenFiles (c : Counted s) (n : Int) : Counted { s with canOpenFiles := n } :=
  ⟨c.wf.imp fun _ w => { w with }, c.count⟩

end Counted

/-- The counter is right, and once the flag is cleared it stays so; after the wait loop every handle is free. -/
structure Inv (s : Sys) : Prop where
  counted : Counted s.lib
  cleared : s.destroyer ≠ .before → s.lib.canOpenFiles = 0
  drained : s.destroyer = .left → takenEntries s.lib.toOpenFiles = ∅

theorem Inv.start {lib : State} {pc : Nat → Pc} (c : Counted lib) : Inv ⟨lib, pc, .before⟩ :=
  ⟨c, fun h => absurd rfl h, fun h => by cases h⟩

theorem Inv.testLoop {s : Sys} (c : Counted s.lib) (hclear : s.lib.canOpenFiles = 0) : Inv s.testLoop where
  counted := c
  cleared _ := hclear
  drained h := by
    have hz : s.lib.openFiles = 0 := by
      by_contra hne
      simp [Sys.testLoop, hne] at h
    rw [c.count] at hz
    exact Finset.card_eq_zero.mp (by exact_mod_cast hz)

theorem Inv.step {s s' : Sys} {e : Event} {o : Option Int} (i : Inv s) (hlate : NotLate s e)
    (h : step s e = some (o, s')) :
    Inv s' ∧ (s.destroyer = .left → s'.destroyer = .left ∧ ∀ r ∈ o, r = -1) := by
  cases moves_of_step h with
  | refused => exact ⟨i, fun hl => ⟨hl, by simp⟩⟩
  | tested => exact ⟨⟨i.counted, i.cleared, i.drained⟩, fun hl => ⟨hl, by simp⟩⟩
  | opened hx =>
    obtain ⟨hc, hcan, -⟩ := i.counted.tfsOpenLocked hx
    exact ⟨⟨hc, fun hb => hcan.trans (i.cleared hb), fun hl => absurd hl hlate⟩, fun hl => absurd hl hlate⟩
  | closed thread fhandle =>
    refine ⟨⟨i.counted.tfsClose fhandle, fun hb => ?_, fun hl => ?_⟩, fun hl => ⟨hl, by simp⟩⟩
    · have hcan := i.cleared hb
      by_cases ho : s.lib.toOpenFiles.IsOpen fhandle
      · simpa [tfsClose_of_isOpen ho] using hcan
      · simpa [tfsClose_of_not ho] using hcan
    · -- with every handle free, there is nothing to close
      have hnone := i.drained hl
      have ho : ¬ s.lib.toOpenFiles.IsOpen fhandle := fun ho => by
        obtain ⟨k, hk, -, ht⟩ := ho.exists
        have hmem : k ∈ takenEntries s.lib.toOpenFiles := by
          simpa [takenEntries, ht] using hk
        rw [hnone] at hmem
        cases hmem
      simpa [tfsClose_of_not ho] using hnone
  | destroys hd =>
    refine ⟨.testLoop (i.counted.canOpenFiles 0) rfl, fun hl => ?_⟩
    cases hd.symm.trans hl
  | wakes hd =>
    refine ⟨.testLoop i.counted (i.cleared (by simp [hd])), fun hl => ?_⟩
    cases hd.symm.trans hl

/-- If no thread enters the critical section of `tfs_open` late, then after the wait loop of
`tfs_destroy_after_all_closed` no entry is taken and no `tfs_open` returns a handle. -/
theorem no_handle_after_destroy {es₁ es₂ : List Event} {outs₁ outs₂ : List (Option Int)} {s₁ s₂ : Sys}
    (ha : Runs.Along step NotLate .init (es₁ ++ es₂)) (h₁ : Runs.run step .init es₁ = some (outs₁, s₁))
    (hleft : s₁.destroyer = .left) (h₂ : Runs.run step s₁ es₂ = some (outs₂, s₂)) :
    (∀ h < maxOpenFiles, s₂.lib.freeOpenFileEntries h = .free) ∧ ∀ o ∈ outs₂, ∀ r ∈ o, r = -1 := by
  obtain ⟨ha₁, ha₂⟩ := ha.of_append
  have hi : Inv s₁ := (Runs.run_invariant (P := fun _ => True) (fun s e o s' i hl h => ⟨trivial, (i.step hl h).1⟩)
    (Inv.start .init) ha₁ h₁).2
  obtain ⟨hout, hi₂, hl₂⟩ := Runs.run_invariant (I := fun s => Inv s ∧ s.destroyer = .left)
    (P := fun o => ∀ r ∈ o, r = -1) (fun s e o s' ⟨i, hd⟩ hl h => by
      obtain ⟨i', hd'⟩ := i.step hl h
      exact ⟨(hd' hd).2, i', (hd' hd).1⟩) ⟨hi, hleft⟩ (ha₂ _ _ h₁) h₂
  refine ⟨fun h hh => ?_, hout⟩
  have hnone := hi₂.drained hl₂
  cases hc : s₂.lib.freeOpenFileEntries h with
  | free => rfl
  | taken =>
    have hmem : h ∈ takenEntries s₂.lib.toOpenFiles := by simpa [takenEntries, hc] using hh
    rw [hnone] at hmem
    cases hmem

/-- The only file is closed while the destroyer waits; a later open is refused. -/
theorem no_handle_after_destroy_one_file :
    let es₁ : List Event := [.testOpen 0 (some ⟨[47, 102], by decide⟩) 1, .lockOpen 0, .destroy, .close 0 0, .wake]
    let es₂ : List Event := [.testOpen 1 (some ⟨[47, 102], by decide⟩) 0]
    ∃ outs₁ outs₂ s₁ s₂, Runs.run step .init es₁ = some (outs₁, s₁) ∧ s₁.destroyer = .left ∧
      Runs.run step s₁ es₂ = some (outs₂, s₂) ∧
      (∀ h < maxOpenFiles, s₂.lib.freeOpenFileEntries h = .free) ∧ ∀ o ∈ outs₂, ∀ r ∈ o, r = -1 := by
  intro es₁ es₂
  have ha : Runs.Along step NotLate .init (es₁ ++ es₂) := by decide +kernel
  have hleft : ((Runs.run step .init es₁).map fun x => x.2.destroyer) = some .left := by decide +kernel
  have hrun : ((Runs.run step .init es₁).bind fun x => Runs.run step x.2 es₂).isSome = true := by decide +kernel
  obtain ⟨x₁, h₁, hl⟩ := Option.map_eq_some_iff.mp hleft
  rw [h₁] at hrun
  obtain ⟨x₂, h₂⟩ := Option.isSome_iff_exists.mp hrun
  exact ⟨x₁.1, x₂.1, x₁.2, x₂.2, h₁, hl, h₂, no_handle_after_destroy ha h₁ hl h₂⟩

/-- A thread that has tested the flag opens a file after the destroyer has left. -/
theorem handle_after_destroy :
    ¬ ∀ es₁ es₂ outs₁ outs₂ s₁ s₂, Runs.run step .init es₁ = some (outs₁, s₁) → s₁.destroyer = .left →
      Runs.run step s₁ es₂ = some (outs₂, s₂) →
        (∀ h < maxOpenFiles, s₂.lib.freeOpenFileEntries h = .free) ∧ ∀ o ∈ outs₂, ∀ r ∈ o, r = -1 := by
  intro hall
  let es₁ : List Event := [.testOpen 0 (some ⟨[47, 102], by decide⟩) 1, .destroy]
  let es₂ : List Event := [.lockOpen 0]
  have hleft : ((Runs.run step .init es₁).map fun x => x.2.destroyer) = some .left := by decide +kernel
  have hout : ((Runs.run step .init es₁).bind fun x => (Runs.run step x.2 es₂).map fun y => y.1) =
      some [some 0] := by decide +kernel
  obtain ⟨x₁, h₁, hl⟩ := Option.map_eq_some_iff.mp hleft
  rw [h₁, Option.bind_some] at hout
  obtain ⟨x₂, h₂, ho⟩ := Option.map_eq_some_iff.mp hout
  have hneg := (hall es₁ es₂ _ _ _ _ h₁ hl h₂).2 (some 0) (by simp [ho]) 0 rfl
  omega

end Tecnicofs.Ex2.Shutdown
