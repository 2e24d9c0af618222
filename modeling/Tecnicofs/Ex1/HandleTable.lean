import Tecnicofs.Ex1.Operations
import Tecnicofs.Lib.Guards

/-! Project 1: threads that add to the open-file table and remove from it, with every read and write of the table. -/

namespace Tecnicofs

def OpenFiles.setInumber (f : OpenFiles) (i : Nat) (inumber : Int) : OpenFiles :=
  f.setEntry i { f.openFileTable i with ofInumber := inumber }

namespace Ex1.HandleTable

def addFrom (inumber : Int) (offset : Nat) : Nat → Program Int
  | 0 => return -1
  | n + 1 => do
    let i := maxOpenFiles - (n + 1)
    mutexLock (.file i)
    let a ← Prog.get fun s => s.freeOpenFileEntries i
    if a = .free then
      Prog.modify fun s => s.setFiles (s.toOpenFiles.take i)
      Prog.modify fun s => s.setFiles (s.toOpenFiles.setInumber i inumber)
      Prog.modify fun s => s.setFiles (s.toOpenFiles.setOffset i offset)
      unlock (.file i)
      return i
    else
      unlock (.file i)
      addFrom inumber offset n

def addToOpenFileTable (inumber : Int) (offset : Nat) : Program Int := addFrom inumber offset maxOpenFiles

def removeFromOpenFileTable (fhandle : Int) : Program Int := do
  mutexLock .openFileTable
  if validFileHandle fhandle then
    let a ← Prog.get fun s => s.freeOpenFileEntries fhandle.toNat
    if a ≠ .taken then
      unlock .openFileTable
      return -1
    else
      Prog.modify fun s => s.setFiles (s.toOpenFiles.release fhandle.toNat)
      unlock .openFileTable
      return 0
  else
    unlock .openFileTable
    return -1

inductive Call
  | add (inumber : Int) (offset : Nat)
  | remove (fhandle : Int)
  deriving DecidableEq

def body : Call → Program Int
  | .add inumber offset => addToOpenFileTable inumber offset
  | .remove fhandle => removeFromOpenFileTable fhandle

abbrev Threads (n : Nat) := Pool n Lock Label State Call Int

theorem setEntry_take (f : OpenFiles) (i : Nat) (inumber : Int) (offset : Nat) :
    ((f.take i).setInumber i inumber).setOffset i offset = (f.take i).setEntry i ⟨inumber, offset⟩ := by
  simp [OpenFiles.setOffset, OpenFiles.setInumber, OpenFiles.setEntry]

theorem run_addFrom (inumber : Int) (offset n : Nat) (s : State) :
    (addFrom inumber offset n).run s = (Ex1.addFrom inumber offset n).run s := by
  induction n with
  | zero => rfl
  | succ n ih =>
    by_cases hfree : s.freeOpenFileEntries (maxOpenFiles - (n + 1)) = .free
    · simp only [addFrom, Ex1.addFrom, mutexLock, unlock, Prog.run_bind, Prog.run_acquire, Prog.run_get, Prog.run_atomic,
        Option.bind_some, hfree, if_true, Prog.run_modify, Prog.run_release, Prog.run_pure, State.setFiles_toOpenFiles,
        setEntry_take]
      rfl
    · simp only [addFrom, Ex1.addFrom, mutexLock, unlock, Prog.run_bind, Prog.run_acquire, Prog.run_get, Prog.run_atomic,
        Option.bind_some, hfree, if_false, Prog.run_release, ih, Bool.false_eq_true]

/-- The steps of `add_to_open_file_table` come to what the model of the file system does at once. -/
theorem run_addToOpenFileTable (inumber : Int) (offset : Nat) (s : State) :
    (addToOpenFileTable inumber offset).run s = (Ex1.addToOpenFileTable inumber offset).run s :=
  run_addFrom inumber offset maxOpenFiles s

theorem run_removeFromOpenFileTable (fhandle : Int) (s : State) :
    (removeFromOpenFileTable fhandle).run s = (Ex1.removeFromOpenFileTable fhandle).run s := by
  by_cases ho : s.toOpenFiles.IsOpen fhandle
  · simp only [removeFromOpenFileTable, Ex1.removeFromOpenFileTable, mutexLock, unlock, Prog.run_bind, Prog.run_acquire,
      if_pos ho.1, Prog.run_get, Prog.run_atomic, Option.bind_some, ho.2, ne_eq, not_true_eq_false, if_false,
      Prog.run_modify, Prog.run_release, Prog.run_pure, removeFromOpenFileTable_of_isOpen ho]
  · simp only [removeFromOpenFileTable, Ex1.removeFromOpenFileTable, mutexLock, unlock, Prog.run_bind, Prog.run_acquire,
      Prog.run_atomic, Option.bind_some, Prog.run_release, Prog.run_pure, removeFromOpenFileTable_of_not ho]
    by_cases hv : validFileHandle fhandle
    · have hne : s.freeOpenFileEntries fhandle.toNat ≠ .taken := fun ht => ho ⟨hv, ht⟩
      simp only [if_pos hv, Prog.run_bind, Prog.run_get, Option.bind_some, if_pos hne, Prog.run_release, Prog.run_pure]
      rfl
    · simp only [if_neg hv, Prog.run_bind, Option.bind_some, Prog.run_release, Prog.run_pure]
      rfl

structure Grant (n : Nat) where
  thread : Fin n
  fhandle : Int
  entry : OpenFileEntry

variable {n : Nat}

def record (gs : List (Grant n)) : Fin n × Call × Int → List (Grant n)
  | (t, .add inumber offset, r) => if r = -1 then gs else gs ++ [⟨t, r, ⟨inumber, offset⟩⟩]
  | (t, .remove fhandle, _) => gs.filter fun g => ¬ (g.thread = t ∧ g.fhandle = fhandle)

/-- The grants of the calls that returned, less those that were removed. -/
def grants (history : List (Fin n × Call × Int)) : List (Grant n) := history.foldl record []

/-- The handles that are held: a thread holds its grants until it calls `remove_from_open_file_table`. -/
def heldBy (history : List (Fin n × Call × Int)) (call : Fin n → Option Call) : List (Grant n) :=
  (grants history).filter fun g => call g.thread ≠ some (.remove g.fhandle)

def calls (p : Threads n) (t : Fin n) : Option Call := (p.thread t).current.map Prod.fst

def held (p : Threads n) : List (Grant n) := heldBy p.history (calls p)

def RemovesOwn (p : Threads n) : Pool.Event n Call → Prop
  | .start t (.remove fhandle) => ∃ g ∈ held p, g.thread = t ∧ g.fhandle = fhandle
  | .start _ (.add _ _) | .step _ => True

instance (p : Threads n) : ∀ e, Decidable (RemovesOwn p e)
  | .start _ (.remove _) => inferInstanceAs (Decidable (∃ g ∈ held p, _))
  | .start _ (.add _ _) | .step _ => isTrue trivial

/-- No handle is held twice, and the entries of handles that are held are as their calls stored them. -/
structure Exclusive (p : Threads n) : Prop where
  distinct : ((held p).map Grant.fhandle).Nodup
  stored : ∀ g ∈ held p, p.state.toOpenFiles.IsOpen g.fhandle ∧ p.state.openFileTable g.fhandle.toNat = g.entry

def granted (calls : List (Fin n × Call × Int)) : List Int := (calls.map fun x => x.2.2).filter fun r => r ≠ -1

def freeHandles (f : OpenFiles) : Nat :=
  ((Finset.range maxOpenFiles).filter fun h => f.freeOpenFileEntries h = .free).card

inductive Phase
  | scanning (m : Nat)
  | found (h : Nat)
  | filling (h : Nat)
  | numbered (h : Nat)
  | granted (h : Nat)
  | removing (fhandle : Int)
  | removed
  deriving DecidableEq

def Phase.owned : Phase → Option Int
  | filling h | numbered h | granted h => some (h : Int)
  | removing fhandle => some fhandle
  | scanning _ | found _ | removed => none

inductive Takes : Call → Phase → OpenFiles → OpenFiles → Phase → Prop
  | pass {inumber : Int} {offset m : Nat} {f : OpenFiles} (ht : f.freeOpenFileEntries m = .taken) :
      Takes (.add inumber offset) (.scanning m) f f (.scanning (m + 1))
  | find {inumber : Int} {offset m : Nat} {f : OpenFiles} (hm : m < maxOpenFiles) (hf : f.freeOpenFileEntries m = .free) :
      Takes (.add inumber offset) (.scanning m) f f (.found m)
  | take {inumber : Int} {offset m : Nat} {f : OpenFiles} :
      Takes (.add inumber offset) (.found m) f (f.take m) (.filling m)
  | number {inumber : Int} {offset m : Nat} {f : OpenFiles} :
      Takes (.add inumber offset) (.filling m) f (f.setInumber m inumber) (.numbered m)
  | store {inumber : Int} {offset m : Nat} {f : OpenFiles} :
      Takes (.add inumber offset) (.numbered m) f (f.setOffset m offset) (.granted m)
  | check {fhandle : Int} {f : OpenFiles} : Takes (.remove fhandle) (.removing fhandle) f f (.removing fhandle)
  | release {fhandle : Int} {f : OpenFiles} :
      Takes (.remove fhandle) (.removing fhandle) f (f.release fhandle.toNat) .removed

inductive Returns : Call → Phase → Int → Prop
  | granted {inumber : Int} {offset m : Nat} : Returns (.add inumber offset) (.granted m) m
  | full {inumber : Int} {offset : Nat} : Returns (.add inumber offset) (.scanning maxOpenFiles) (-1)
  | removed {fhandle : Int} : Returns (.remove fhandle) .removed 0

def sharing : Protocol Label State Phase Call Int where
  Knows _ ph s := ∀ fhandle, ph = .removing fhandle → s.toOpenFiles.IsOpen fhandle
  Allows _ _ _ := True
  Takes c ph _ s s' ph' := ∃ f', Takes c ph s.toOpenFiles f' ph' ∧ s' = s.setFiles f'
  Returns := Returns

/-- Between the test that an entry is free and the write that takes it, the thread has the entry's lock. -/
def Needs : Phase → Lock → Prop
  | .found h, l => l = .file h
  | .scanning _, _ | .filling _, _ | .numbered _, _ | .granted _, _ | .removing _, _ | .removed, _ => False

def Phase.start : Call → Phase
  | .add _ _ => .scanning 0
  | .remove fhandle => .removing fhandle

theorem secured_of_not {ph : Phase} (h : ∀ l, ¬ Needs ph l) (held : List (Lock × Mode)) : Secured Needs ph held :=
  fun l hl => absurd hl (h l)

theorem guards_addFrom (inumber : Int) (offset : Nat) {n : Nat} (hn : n ≤ maxOpenFiles) (held : List (Lock × Mode)) :
    (addFrom inumber offset n).Guards sharing Needs (.add inumber offset) (.scanning (maxOpenFiles - n)) held
      fun r ph => Returns (.add inumber offset) ph r := by
  induction n generalizing held with
  | zero => exact Prog.guards_pure .full
  | succ n ih =>
    rw [addFrom]
    refine Prog.guards_acquire (Prog.guards_get fun s _ => ?_)
    by_cases hfree : s.freeOpenFileEntries (maxOpenFiles - (n + 1)) = .free
    · refine ⟨.found (maxOpenFiles - (n + 1)), ⟨_, .find (by simp only [maxOpenFiles]; omega) hfree, rfl⟩, ?_, ?_⟩
      · rintro l rfl
        exact List.mem_cons_self
      · rw [if_pos hfree]
        refine Prog.guards_modify fun s _ => ⟨_, ⟨_, .take, rfl⟩, secured_of_not (fun _ => id) _, ?_⟩
        refine Prog.guards_modify fun s _ => ⟨_, ⟨_, .number, rfl⟩, secured_of_not (fun _ => id) _, ?_⟩
        refine Prog.guards_modify fun s _ => ⟨_, ⟨_, .store, rfl⟩, secured_of_not (fun _ => id) _, ?_⟩
        exact Prog.guards_release (by simp) (secured_of_not (fun _ => id) _) (Prog.guards_pure .granted)
    · have htaken : s.freeOpenFileEntries (maxOpenFiles - (n + 1)) = .taken := by
        cases h : s.freeOpenFileEntries (maxOpenFiles - (n + 1)) with
        | free => exact absurd h hfree
        | taken => rfl
      refine ⟨_, ⟨_, .pass htaken, rfl⟩, secured_of_not (fun _ => id) _, ?_⟩
      rw [if_neg hfree]
      refine Prog.guards_release (by simp) (secured_of_not (fun _ => id) _) ?_
      have hnext := ih (by omega) (giveBack ((.file (maxOpenFiles - (n + 1)), .exclusive) :: held)
        (.file (maxOpenFiles - (n + 1))))
      rwa [show maxOpenFiles - n = maxOpenFiles - (n + 1) + 1 by omega] at hnext

theorem guards_removeFromOpenFileTable {fhandle : Int} (hv : validFileHandle fhandle) (held : List (Lock × Mode)) :
    (removeFromOpenFileTable fhandle).Guards sharing Needs (.remove fhandle) (.removing fhandle) held
      fun r ph => Returns (.remove fhandle) ph r := by
  rw [removeFromOpenFileTable]
  refine Prog.guards_acquire ?_
  rw [if_pos hv]
  refine Prog.guards_get fun s hk => ⟨_, ⟨_, .check, rfl⟩, secured_of_not (fun _ => id) _, ?_⟩
  rw [if_neg (not_not.mpr (hk fhandle rfl).2)]
  refine Prog.guards_modify fun s _ => ⟨_, ⟨_, .release, rfl⟩, secured_of_not (fun _ => id) _, ?_⟩
  exact Prog.guards_release (by simp) (secured_of_not (fun _ => id) _) (Prog.guards_pure .removed)

end Ex1.HandleTable

end Tecnicofs
