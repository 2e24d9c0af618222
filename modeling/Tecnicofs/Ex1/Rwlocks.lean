import Tecnicofs.Ex1.Alone
import Tecnicofs.Lib.Runs
import Tecnicofs.Lib.Rwlock

/-! Project 1: calls one after the other, with the locks of the i-nodes.  `tfs_open` gives such a lock back twice when it
truncates, and a later call can wait for it for ever. -/

namespace Tecnicofs.Ex1

open Bytes

/-- What one thread does to the locks of the i-nodes.  It never waits for a mutex: those it takes twice are recursive. -/
def rwlocks : LockTable Lock (Nat → Rwlock) where
  take
    | .rwl i, .exclusive, h => (h i).wrlock.map fun x => Function.update h i x
    | .rwl i, .shared, h => some (Function.update h i (h i).rdlock)
    | .inodeTable, _, h | .openFileTable, _, h | .blockTable, _, h | .file _, _, h => some h
  give
    | .rwl i, h => Function.update h i (h i).unlock
    | .inodeTable, h | .openFileTable, h | .blockTable, h | .file _, h => h

section
variable (h : Nat → Rwlock) (i file : Nat) (mode : Mode)

@[simp] theorem take_wrlock :
    rwlocks.take (.rwl i) .exclusive h = (h i).wrlock.map fun x => Function.update h i x := rfl
@[simp] theorem take_rdlock : rwlocks.take (.rwl i) .shared h = some (Function.update h i (h i).rdlock) := rfl
@[simp] theorem take_inodeTable : rwlocks.take .inodeTable mode h = some h := rfl
@[simp] theorem take_openFileTable : rwlocks.take .openFileTable mode h = some h := rfl
@[simp] theorem take_file : rwlocks.take (.file file) mode h = some h := rfl
@[simp] theorem give_rwl : rwlocks.give (.rwl i) h = Function.update h i (h i).unlock := rfl
@[simp] theorem give_inodeTable : rwlocks.give .inodeTable h = h := rfl
@[simp] theorem give_openFileTable : rwlocks.give .openFileTable h = h := rfl
@[simp] theorem give_file : rwlocks.give (.file file) h = h := rfl

end

structure LockedState extends State where
  rwl : Nat → Rwlock

namespace LockedState

/-- After `tfs_init`, which initialises the locks. -/
def ofState (s : State) : LockedState := ⟨s, fun _ => .new⟩

def init : LockedState := ofState State.init

theorem toState_ofState (s : State) : (ofState s).toState = s := rfl

def call (x : LockedState) (c : Call) : Option (Out × LockedState) :=
  ((body c).runLocks rwlocks x.toState x.rwl).map fun y => (y.1, ⟨y.2.1, y.2.2⟩)

end LockedState

abbrev Spares (p : Program α) : Prop := Prog.Spares rwlocks p

theorem spares_undefined : Spares (undefined : Program α) := Prog.spares_atomic

theorem spares_get (f : State → α) : Spares (Prog.get f) := Prog.spares_atomic

theorem spares_modify (f : State → State) : Spares (Prog.modify f) := Prog.spares_atomic

theorem spares_mutex {l : Lock} (hl : ∀ i, l ≠ .rwl i) : Spares (mutexLock l) ∧ Spares (unlock l) := by
  cases l with
  | rwl i => exact absurd rfl (hl i)
  | _ => exact ⟨Prog.turns_acquire fun _ => rfl, Prog.turns_release fun _ => rfl⟩

theorem spares_locked {l : Lock} (hl : ∀ i, l ≠ .rwl i) {label : Option Label} {f : State → Option (γ × State)} {g : γ → α} :
    Spares (do
      mutexLock l
      let c ← Prog.atomic label f
      unlock l
      return g c) :=
  (spares_mutex hl).1.bind fun _ => Prog.spares_atomic.bind fun _ => (spares_mutex hl).2.bind fun _ =>
    Prog.spares_pure _

theorem spares_dataBlockAlloc : Spares dataBlockAlloc := spares_locked (by simp)

theorem spares_dataBlockFree (b : Int) : Spares (dataBlockFree b) := spares_locked (by simp)

theorem spares_loadReference (a j : Nat) : Spares (loadReference a j) := Prog.spares_atomic

theorem spares_storeReference (a j : Nat) (b : Int) : Spares (storeReference a j b) := Prog.spares_atomic

theorem spares_setDataBlock (inode k : Nat) (b : Int) : Spares (setDataBlock inode k b) := spares_modify _

theorem spares_freeDirect (inode n : Nat) : Spares (freeDirect inode n) := by
  induction n with
  | zero => exact Prog.spares_pure true
  | succ n ih =>
    refine (spares_get _).bind fun b => ?_
    split
    · exact Prog.spares_pure true
    · refine (spares_dataBlockFree b).bind fun r => ?_
      split
      · exact Prog.spares_pure false
      · exact (spares_setDataBlock _ _ _).bind fun _ => ih

theorem spares_freeIndirect {a n : Nat} {atEnd : Program Unit} (h : Spares atEnd) : Spares (freeIndirect a atEnd n) := by
  induction n with
  | zero => exact h.bind fun _ => Prog.spares_pure true
  | succ n ih =>
    refine (spares_loadReference _ _).bind fun b => ?_
    split
    · exact Prog.spares_pure true
    · refine (spares_dataBlockFree b).bind fun r => ?_
      split
      · exact Prog.spares_pure false
      · exact (spares_storeReference _ _ _).bind fun _ => ih

theorem spares_freeBlocks {inode : Nat} {atEnd : Nat → Program Unit} (h : ∀ a, Spares (atEnd a)) :
    Spares (freeBlocks inode atEnd) := by
  refine (spares_freeDirect _ _).bind fun ok => ?_
  split
  · refine (spares_get _).bind fun b => ?_
    split
    · exact Prog.spares_pure true
    · split
      · exact Prog.spares_pure false
      · refine (spares_freeIndirect (h _)).bind fun ok => ?_
        split
        · exact (spares_dataBlockFree b).bind fun _ => Prog.spares_pure _
        · exact Prog.spares_pure false
  · exact Prog.spares_pure false

theorem spares_truncate (inode : Nat) : Spares (truncate inode) := by
  refine (spares_get _).bind fun x => ?_
  split
  · refine Prog.Spares.bind ?_ fun ok => ?_
    · unfold truncateBlocks
      split
      · split
        · exact (spares_dataBlockFree _).bind fun _ => Prog.spares_pure _
        · exact Prog.spares_pure true
      · exact spares_freeBlocks fun _ => Prog.spares_pure ()
    · split
      · exact (spares_modify _).bind fun _ => Prog.spares_pure true
      · exact Prog.spares_pure false
  · exact Prog.spares_pure true

theorem spares_deleteBlocks (inode : Nat) : Spares (deleteBlocks inode) := by
  refine (spares_get _).bind fun x => ?_
  split
  · split
    · refine (spares_dataBlockFree _).bind fun r => ?_
      split
      · exact Prog.spares_pure false
      · exact (spares_setDataBlock _ _ _).bind fun _ => Prog.spares_pure true
    · exact Prog.spares_pure true
  · split
    · exact spares_freeBlocks fun _ => (spares_loadReference _ _).bind fun _ => Prog.spares_pure ()
    · exact Prog.spares_pure true

theorem spares_inodeDelete (inumber : Int) : Spares (inodeDelete inumber) := by
  have hm := spares_mutex (l := .inodeTable) (by simp)
  refine hm.1.bind fun _ => Prog.spares_atomic.bind fun found => ?_
  split
  · exact hm.2.bind fun _ => Prog.spares_pure _
  · exact (spares_deleteBlocks _).bind fun _ => hm.2.bind fun _ => Prog.spares_pure _

theorem spares_inodeCreate : Spares (inodeCreate .file) := by
  have hm := spares_mutex (l := .inodeTable) (by simp)
  refine hm.1.bind fun _ => Prog.spares_atomic.bind fun found => ?_
  split
  · exact Prog.spares_pure _
  · exact (spares_modify _).bind fun _ => hm.2.bind fun _ => Prog.spares_pure _

theorem spares_addDirEntry (inumber subInumber : Int) (subName : CString) :
    Spares (addDirEntry inumber subInumber subName) := spares_locked (by simp)

theorem spares_findInDir (inumber : Int) (subName : CString) : Spares (findInDir inumber subName) :=
  spares_locked (by simp)

theorem spares_tfsLookup (name : Option CString) : Spares (tfsLookup name) := by
  unfold tfsLookup
  split
  · exact Prog.spares_pure _
  · split
    · exact spares_findInDir _ _
    · exact Prog.spares_pure _

theorem spares_addFrom (inumber : Int) (offset n : Nat) : Spares (addFrom inumber offset n) := by
  induction n with
  | zero => exact Prog.spares_pure _
  | succ n ih =>
    have hm := spares_mutex (l := .file (maxOpenFiles - (n + 1))) (by simp)
    refine hm.1.bind fun _ => Prog.spares_atomic.bind fun isFree => hm.2.bind fun _ => ?_
    split
    · exact Prog.spares_pure _
    · exact ih

theorem spares_tfsClose (fhandle : Int) : Spares (tfsClose fhandle) := spares_locked (by simp)

theorem spares_bonusBlockInit (inode : Nat) : Spares (bonusBlockInit inode) := by
  refine spares_dataBlockAlloc.bind fun b => (spares_setDataBlock _ _ _).bind fun _ => ?_
  split
  · exact spares_undefined
  · exact Prog.spares_atomic.bind fun _ => Prog.spares_pure _

theorem spares_directBlock (inode k : Nat) : Spares (directBlock inode k) := by
  refine (spares_get _).bind fun b => ?_
  split
  · exact spares_dataBlockAlloc.bind fun b => (spares_setDataBlock _ _ _).bind fun _ => Prog.spares_pure _
  · exact Prog.spares_pure _

theorem spares_indirectBlock (inode j : Nat) : Spares (indirectBlock inode j) := by
  refine (spares_get _).bind fun b => ?_
  split
  · exact spares_undefined
  · refine (spares_loadReference _ _).bind fun b => ?_
    split
    · exact spares_dataBlockAlloc.bind fun b => (spares_storeReference _ _ _).bind fun _ => Prog.spares_pure _
    · exact Prog.spares_pure _

theorem spares_needBonusBlock (inode : Nat) : Spares (needBonusBlock inode) := by
  refine (spares_get _).bind fun b => ?_
  split
  · exact (spares_bonusBlockInit inode).bind fun b => (spares_setDataBlock _ _ _).bind fun _ => Prog.spares_pure _
  · exact Prog.spares_pure _

theorem spares_getCurrentDataBlock (inode file : Nat) : Spares (getCurrentDataBlock inode file) := by
  refine (spares_get _).bind fun k => ?_
  split
  · exact spares_directBlock _ _
  · refine (spares_needBonusBlock inode).bind fun ok => ?_
    split
    · exact spares_indirectBlock _ _
    · exact Prog.spares_pure _

theorem spares_writeLoop (inode file fuel : Nat) (buffer : List UInt8) : Spares (writeLoop inode file fuel buffer) := by
  induction fuel generalizing buffer with
  | zero => exact Prog.spares_pure true
  | succ fuel ih =>
    rw [writeLoop]
    split
    · exact Prog.spares_pure true
    · refine (spares_getCurrentDataBlock _ _).bind fun r => ?_
      split
      · exact Prog.spares_pure false
      · exact (spares_get _).bind fun o => Prog.spares_atomic.bind fun _ => ih _

theorem spares_readLoop (inode file fuel toRead : Nat) (bytesRead : List UInt8) :
    Spares (readLoop inode file fuel toRead bytesRead) := by
  induction fuel generalizing toRead bytesRead with
  | zero => exact Prog.spares_pure _
  | succ fuel ih =>
    rw [readLoop]
    split
    · exact Prog.spares_pure _
    · refine (spares_get _).bind fun o => (spares_getCurrentDataBlock _ _).bind fun r => ?_
      split
      · exact Prog.spares_pure _
      · exact Prog.spares_atomic.bind fun bytes => ih _ _

def lockedInode (s : State) : Call → Option Nat
  | .open name _ => inodeGet (lookup s name)
  | .write fhandle _ | .read fhandle _ =>
    (getOpenFileEntry fhandle).bind fun file => inodeGet (s.openFileTable file).ofInumber
  | .close _ => none

def takeRwl (x : Rwlock) : Call → Option Rwlock
  | .open _ _ | .write _ _ => x.wrlock
  | .read _ _ => some x.rdlock
  | .close _ => some x

/-- `tfs_open` that has truncated gives the lock back twice. -/
def giveRwl (x : Rwlock) (s : State) (i : Nat) : Call → Rwlock
  | .open _ flags =>
    if hasFlag flags tfsOTrunc && ((truncate i).run s).any (·.1) then x.unlock.unlock else x.unlock
  | .close _ | .write _ _ | .read _ _ => x.unlock

theorem runLocks_openExisting (s : State) (h : Nat → Rwlock) (name : Option CString) (flags : Int) (i : Nat) :
    (openExisting i flags).runLocks rwlocks s h = ((openExisting i flags).run s).map fun y =>
      (y.1, y.2, Function.update h i (giveRwl (h i) s i (.open name flags))) := by
  unfold openExisting truncateIf giveRwl
  by_cases ht : hasFlag flags tfsOTrunc
  · simp only [if_pos ht, unlock, Prog.runLocks_bind, Prog.run_bind, spares_truncate i s h]
    cases (truncate i).run s with
    | none => rfl
    | some y =>
      obtain ⟨ok, s'⟩ := y
      cases ok <;> simp [ht]
  · simp [ht, unlock]

theorem inodeGet_eq_none {inumber : Int} (h : inumber < 0) : inodeGet inumber = none :=
  if_neg fun hv => absurd hv.1 (by omega)

theorem spares_create (name : CString) (flags : Int) : Spares (if hasFlag flags tfsOCreat then do
    unlock .inodeTable
    let inum ← inodeCreate .file
    if inum = -1 then return -1
    else if (← addDirEntry rootDirInum inum name.tail) = -1 then
      let _ ← inodeDelete inum
      return -1
    else addToOpenFileTable inum 0
  else do
    unlock .inodeTable
    return -1) := by
  have hm := spares_mutex (l := .inodeTable) (by simp)
  split
  · refine hm.2.bind fun _ => spares_inodeCreate.bind fun inum => ?_
    split
    · exact Prog.spares_pure _
    · refine (spares_addDirEntry _ _ _).bind fun r => ?_
      split
      · exact (spares_inodeDelete _).bind fun _ => Prog.spares_pure _
      · exact spares_addFrom _ _ _
  · exact hm.2.bind fun _ => Prog.spares_pure _

theorem runLocks_openFound (s : State) (h : Nat → Rwlock) (name : Option CString) (flags inum : Int) (i : Nat) :
    Prog.runLocks rwlocks (do
        wrlock i
        unlock .inodeTable
        match ← openExisting i flags with
        | none => return -1
        | some offset => addToOpenFileTable inum offset) s h =
      (h i).wrlock.bind fun r => (Prog.run (do
        wrlock i
        unlock .inodeTable
        match ← openExisting i flags with
        | none => return -1
        | some offset => addToOpenFileTable inum offset) s).map fun y =>
          (y.1, y.2, Function.update h i (giveRwl r s i (.open name flags))) := by
  simp only [wrlock, unlock, Prog.runLocks_bind, Prog.run_bind, Prog.runLocks_acquire, Prog.run_acquire, Option.bind_some,
    Prog.run_release, Prog.runLocks_release, take_wrlock, give_inodeTable]
  cases (h i).wrlock with
  | none => rfl
  | some r =>
    have hopen := runLocks_openExisting s (Function.update h i r) name flags i
    rw [Function.update_self, Function.update_idem] at hopen
    simp only [Option.map_some, Option.bind_some, hopen]
    cases (openExisting i flags).run s with
    | none => rfl
    | some y =>
      obtain ⟨offset, s'⟩ := y
      cases offset with
      | none => rfl
      | some offset => exact spares_addFrom inum offset _ s' _

theorem runLocks_tfsOpen (s : State) (h : Nat → Rwlock) (name : Option CString) (flags : Int) :
    (tfsOpen name flags).runLocks rwlocks s h =
      match inodeGet (lookup s name) with
      | none => ((tfsOpen name flags).run s).map fun y => (y.1, y.2, h)
      | some i => (h i).wrlock.bind fun r => ((tfsOpen name flags).run s).map fun y =>
          (y.1, y.2, Function.update h i (giveRwl r s i (.open name flags))) := by
  by_cases hv : validPathname name
  · cases name with
    | none => cases hv
    | some name =>
      have hlook := (spares_tfsLookup (some name)) s h
      rw [run_tfsLookup_eq s hv] at hlook
      have hrun := run_tfsLookup_eq s hv
      simp only [tfsOpen, if_pos hv, mutexLock, Prog.runLocks_bind, Prog.run_bind, Prog.runLocks_acquire, Prog.run_acquire,
        take_inodeTable, Option.map_some, Option.bind_some, hlook, hrun]
      by_cases hge : lookup s (some name) ≥ 0
      · simp only [if_pos hge]
        cases hget : inodeGet (lookup s (some name)) with
        | none => rfl
        | some i => exact runLocks_openFound s h (some name) flags _ i
      · simp only [if_neg hge, inodeGet_eq_none (by omega : lookup s (some name) < 0)]
        exact spares_create name flags s h
  · rw [lookup_of_not_valid hv, inodeGet_eq_none (by omega)]
    cases name with
    | none => rfl
    | some name =>
      rw [tfsOpen, if_neg hv]
      rfl

theorem turns_unlock (i file : Nat) (r : α) :
    Prog.Turns rwlocks (rwlocks.give (.rwl i)) (do
      unlock (.file file)
      unlock (.rwl i)
      return r) ∧
    Prog.Turns rwlocks (rwlocks.give (.rwl i)) (do
      unlock (.rwl i)
      unlock (.file file)
      return r) :=
  ⟨fun _ _ => rfl, fun _ _ => rfl⟩

theorem runLocks_tfsWrite (s : State) (h : Nat → Rwlock) (fhandle : Int) (buffer : List UInt8) :
    (tfsWrite fhandle buffer).runLocks rwlocks s h =
      match lockedInode s (.write fhandle buffer) with
      | none => ((tfsWrite fhandle buffer).run s).map fun y => (y.1, y.2, h)
      | some i => (h i).wrlock.bind fun r => ((tfsWrite fhandle buffer).run s).map fun y =>
          (y.1, y.2, Function.update h i r.unlock) := by
  rw [show lockedInode s (.write fhandle buffer) =
    (getOpenFileEntry fhandle).bind fun file => inodeGet (s.openFileTable file).ofInumber from rfl]
  unfold tfsWrite
  cases getOpenFileEntry fhandle with
  | none => rfl
  | some file =>
    simp only [mutexLock, wrlock, Prog.runLocks_bind, Prog.run_bind, Prog.runLocks_acquire, Prog.run_acquire, unlock,
      Prog.runLocks_release, Prog.run_release, Prog.runLocks_get, Prog.run_get, Option.bind_some, Option.map_some,
      take_openFileTable, take_file, take_inodeTable, give_openFileTable]
    cases inodeGet (s.openFileTable file).ofInumber with
    | none => rfl
    | some i =>
      rw [Prog.runLocks_bind, Prog.run_bind, Prog.runLocks_acquire, Prog.run_acquire, take_wrlock, Option.map_map,
        Option.bind_map]
      refine congrArg (Option.bind _) (funext fun r => ?_)
      refine Prog.Turns.runLocks_eq (g := rwlocks.give (.rwl i)) ?_ (by simp) s
      refine (Prog.turns_release fun _ => rfl).bind fun _ => Prog.spares_atomic.bind fun initial => ?_
      refine (spares_writeLoop i file _ buffer).bind fun ok => ?_
      split
      · exact (spares_modify _).bind fun _ => (turns_unlock i file _).1
      · exact (turns_unlock i file _).2

theorem runLocks_tfsRead (s : State) (h : Nat → Rwlock) (fhandle : Int) (len : Nat) :
    (tfsRead fhandle len).runLocks rwlocks s h =
      match lockedInode s (.read fhandle len) with
      | none => ((tfsRead fhandle len).run s).map fun y => (y.1, y.2, h)
      | some i => ((tfsRead fhandle len).run s).map fun y =>
          (y.1, y.2, Function.update h i (h i).rdlock.unlock) := by
  rw [show lockedInode s (.read fhandle len) =
    (getOpenFileEntry fhandle).bind fun file => inodeGet (s.openFileTable file).ofInumber from rfl]
  unfold tfsRead
  cases getOpenFileEntry fhandle with
  | none => rfl
  | some file =>
    simp only [mutexLock, rdlock, Prog.runLocks_bind, Prog.run_bind, Prog.runLocks_acquire, Prog.run_acquire, unlock,
      Prog.runLocks_release, Prog.run_release, Option.bind_some, Option.map_some,
      take_openFileTable, take_file, take_inodeTable, give_openFileTable]
    rw [Prog.runLocks_get, Prog.run_get, Option.bind_some, Option.bind_some]
    cases inodeGet (s.openFileTable file).ofInumber with
    | none => rfl
    | some i =>
      rw [Prog.runLocks_bind, Prog.run_bind, Prog.runLocks_acquire, Prog.run_acquire, take_rdlock,
        Option.map_some, Option.bind_some, Option.bind_some]
      refine Prog.Turns.runLocks_eq (g := rwlocks.give (.rwl i)) ?_ (by simp) s
      refine (Prog.turns_release fun _ => rfl).bind fun _ => Prog.spares_atomic.bind fun available => ?_
      refine (spares_readLoop i file _ _ []).bind fun result => ?_
      split
      · exact (turns_unlock i file _).1
      · exact (turns_unlock i file _).2

/-- No file that exists is opened with `TFS_O_TRUNC`. -/
def TruncatesNothing (s : State) : Call → Prop
  | .open name flags => hasFlag flags tfsOTrunc → lookup s name = -1
  | .close _ | .write _ _ | .read _ _ => True

instance (s : State) : ∀ c, Decidable (TruncatesNothing s c)
  | .open _ _ => inferInstanceAs (Decidable (_ → _))
  | .close _ | .write _ _ | .read _ _ => inferInstanceAs (Decidable True)

namespace LockedState

variable {x x' : LockedState} {c : Call} {o : Out}

/-- What a call does to the state is what it does where every lock is granted. -/
theorem call_view (x : LockedState) (c : Call) (o : Out) (x' : LockedState) (h : x.call c = some (o, x')) :
    x.toState.call c = some (o, x'.toState) := by
  obtain ⟨y, hy, he⟩ := Option.map_eq_some_iff.mp h
  cases he
  exact Prog.run_of_runLocks hy

/-- The lock that the call takes is granted. -/
def Grants (x : LockedState) (c : Call) : Prop := ∀ i ∈ lockedInode x.toState c, (takeRwl (x.rwl i) c).isSome

instance (x : LockedState) (c : Call) : Decidable (x.Grants c) := inferInstanceAs (Decidable (∀ i ∈ _, _))

theorem call_eq (x : LockedState) (c : Call) : x.call c =
    match lockedInode x.toState c with
    | none => (x.toState.call c).map fun y => (y.1, ⟨y.2, x.rwl⟩)
    | some i => (takeRwl (x.rwl i) c).bind fun r => (x.toState.call c).map fun y =>
        (y.1, ⟨y.2, Function.update x.rwl i (giveRwl r x.toState i c)⟩) := by
  unfold LockedState.call State.call
  cases c with
  | «open» name flags =>
    simp only [body, Prog.runLocks_bind, Prog.run_bind, runLocks_tfsOpen, lockedInode, takeRwl]
    cases inodeGet (lookup x.toState name) with
    | none => cases (tfsOpen name flags).run x.toState <;> rfl
    | some i =>
      cases hw : (x.rwl i).wrlock with
      | none => simp [hw]
      | some r =>
        simp only [hw, Option.bind_some]
        cases (tfsOpen name flags).run x.toState <;> rfl
  | close fhandle =>
    simp only [body, Prog.runLocks_bind, Prog.run_bind, lockedInode, spares_tfsClose fhandle x.toState x.rwl]
    cases (tfsClose fhandle).run x.toState <;> rfl
  | write fhandle buffer =>
    simp only [body, Prog.runLocks_bind, Prog.run_bind, runLocks_tfsWrite, takeRwl]
    cases lockedInode x.toState (.write fhandle buffer) with
    | none => cases (tfsWrite fhandle buffer).run x.toState <;> rfl
    | some i =>
      cases hw : (x.rwl i).wrlock with
      | none => simp [hw]
      | some r =>
        simp only [hw, Option.bind_some]
        cases (tfsWrite fhandle buffer).run x.toState <;> rfl
  | read fhandle len =>
    simp only [body, runLocks_tfsRead, takeRwl]
    cases lockedInode x.toState (.read fhandle len) <;> cases (tfsRead fhandle len).run x.toState <;> rfl

theorem call_isSome : (x.call c).isSome ↔ (x.toState.call c).isSome ∧ x.Grants c := by
  rw [call_eq, Grants]
  cases lockedInode x.toState c with
  | none => simp
  | some i =>
    cases hw : takeRwl (x.rwl i) c with
    | none => simp [hw]
    | some r => simp [hw]

theorem call_of_grants (x : LockedState) {c : Call} (hg : x.Grants c) {o : Out} {s : State}
    (hc : x.toState.call c = some (o, s)) : ∃ x', x.call c = some (o, x') ∧ x'.toState = s := by
  obtain ⟨⟨o', x'⟩, hx⟩ := Option.isSome_iff_exists.mp (call_isSome.mpr ⟨Option.isSome_of_eq_some hc, hg⟩)
  cases hc.symm.trans (call_view x c o' x' hx)
  exact ⟨x', hx, rfl⟩

theorem call_eq_none (x : LockedState) {c : Call} (hc : x.toState.call c = none) : x.call c = none := by
  rw [← Option.not_isSome_iff_eq_none, call_isSome, hc]
  exact fun h => absurd h.1 (by simp)

theorem grants_of_call (hc : x.call c = some (o, x')) : x.Grants c :=
  (call_isSome.mp (Option.isSome_of_eq_some hc)).2

theorem rwl_of_call (hc : x.call c = some (o, x')) :
    (lockedInode x.toState c = none ∧ x'.rwl = x.rwl) ∨
      ∃ i r, lockedInode x.toState c = some i ∧ takeRwl (x.rwl i) c = some r ∧
        x'.rwl = Function.update x.rwl i (giveRwl r x.toState i c) := by
  rw [call_eq] at hc
  cases hl : lockedInode x.toState c with
  | none =>
    rw [hl] at hc
    obtain ⟨y, -, he⟩ := Option.map_eq_some_iff.mp hc
    cases he
    exact .inl ⟨rfl, rfl⟩
  | some i =>
    rw [hl] at hc
    obtain ⟨r, hr, hc⟩ := Option.bind_eq_some_iff.mp hc
    obtain ⟨y, -, he⟩ := Option.map_eq_some_iff.mp hc
    cases he
    exact .inr ⟨i, r, rfl, hr, rfl⟩

theorem rwl_of_locked {i : Nat} (hl : lockedInode x.toState c = some i) (hc : x.call c = some (o, x')) :
    ∃ r, takeRwl (x.rwl i) c = some r ∧ x'.rwl i = giveRwl r x.toState i c := by
  obtain ⟨hnone, -⟩ | ⟨j, r, hl', hr, he⟩ := rwl_of_call hc
  · cases hnone.symm.trans hl
  · cases hl'.symm.trans hl
    exact ⟨r, hr, by rw [he, Function.update_self]⟩

/-- Nobody has a lock, and none was given back too often. -/
def IsFree (x : LockedState) : Prop := ∀ i, (x.rwl i).IsFree

theorem IsFree.grants (h : x.IsFree) (c : Call) : x.Grants c := by
  intro i _
  cases c with
  | «open» name flags => simp [takeRwl, (h i).wrlock]
  | write fhandle buffer => simp [takeRwl, (h i).wrlock]
  | close fhandle => rfl
  | read fhandle len => rfl

theorem isFree_ofState (s : State) : (ofState s).IsFree := fun _ => Rwlock.isFree_new

theorem IsFree.call (h : x.IsFree) (ht : TruncatesNothing x.toState c) (hc : x.call c = some (o, x')) : x'.IsFree := by
  obtain ⟨-, he⟩ | ⟨i, r, hl, hr, he⟩ := rwl_of_call hc
  · exact fun j => he ▸ h j
  · have hgive : (giveRwl r x.toState i c).IsFree := by
      cases c with
      | «open» name flags =>
        have hno : ¬ hasFlag flags tfsOTrunc := fun hf => by
          have hnone : inodeGet (lookup x.toState name) = none := by
            rw [ht hf]
            exact inodeGet_eq_none (by omega)
          cases hnone.symm.trans hl
        rw [giveRwl, if_neg (by simp [hno])]
        exact (h i).unlock_wrlock hr
      | close fhandle => cases hl
      | write fhandle buffer => exact (h i).unlock_wrlock hr
      | read fhandle len =>
        cases hr
        exact (h i).unlock_rdlock
    intro j
    rw [he]
    by_cases hj : j = i
    · subst hj
      rw [Function.update_self]
      exact hgive
    · rw [Function.update_of_ne hj]
      exact h j

/-- After a truncation one open or write of the file gets its lock, and the next one waits for ever. -/
theorem IsFree.waits_after_truncation (h : x.IsFree) {x₁ x₂ : LockedState} {o₁ o₂ : Out} {i : Nat} {name : Option CString}
    {flags : Int} {c d : Call} (hi : lockedInode x.toState (.open name flags) = some i) (hf : hasFlag flags tfsOTrunc)
    (ht : ((truncate i).run x.toState).any (·.1)) (h₁ : x.call (.open name flags) = some (o₁, x₁))
    (hc : lockedInode x₁.toState c = some i) (hcw : ∀ r, takeRwl r c = r.wrlock) (h₂ : x₁.call c = some (o₂, x₂))
    (hd : lockedInode x₂.toState d = some i) (hdw : ∀ r, takeRwl r d = r.wrlock) : x₂.call d = none := by
  obtain ⟨y, hy, hy'⟩ := rwl_of_locked hi h₁
  obtain ⟨z, hz, hzone, hztwo⟩ := (h i).unlock_twice hy
  obtain ⟨r, hr, hr'⟩ := rwl_of_locked hc h₂
  rw [hcw, hy', giveRwl, if_pos (by simp [hf, ht]), hz] at hr
  cases hr
  have hwaits : (x₂.rwl i).wrlock = none := by
    rw [hr']
    cases c with
    | «open» name flags =>
      rw [giveRwl]
      split
      · exact hztwo
      · exact hzone
    | close fhandle => exact hzone
    | write fhandle buffer => exact hzone
    | read fhandle len => exact hzone
  rw [← Option.not_isSome_iff_eq_none, call_isSome]
  intro hsome
  have hgrants := hsome.2 i hd
  rw [hdw, hwaits] at hgrants
  cases hgrants

example :
    let name : Option Bytes.CString := some ⟨[47, 97], by decide⟩
    (Runs.run LockedState.call .init [.open name tfsOCreat, .open name tfsOTrunc, .write 0 [1]]).isSome ∧
      Runs.run LockedState.call .init [.open name tfsOCreat, .open name tfsOTrunc, .write 0 [1], .write 0 [2]] = none := by
  refine ⟨by decide +kernel, Option.isNone_iff_eq_none.mp (by decide +kernel)⟩

theorem along_grants {cs : List Call} (h : x.IsFree)
    (ha : Runs.Along LockedState.call (fun x c => TruncatesNothing x.toState c) x cs) :
    Runs.Along LockedState.call Grants x cs :=
  ha.of_invariant (I := IsFree) (fun _ _ _ _ hx hc hs => hx.call hc hs) (fun _ c hx _ => hx.grants c) h

theorem run_of_grants {cs : List Call} {outs : List Out} {s : State} (hg : Runs.Along LockedState.call Grants x cs)
    (hr : Runs.run State.call x.toState cs = some (outs, s)) :
    ∃ x', Runs.run LockedState.call x cs = some (outs, x') ∧ x'.toState = s :=
  Runs.run_fine call_view (fun _ _ hq hs => call_isSome.mpr ⟨hs, hq⟩) hg hr

theorem along_of_grants {G : State → Call → Prop} {s : State} {cs : List Call}
    (ha : Runs.Along LockedState.call (fun x c => G x.toState c ∧ x.Grants c) (ofState s) cs) :
    Runs.Along State.call G s cs ∧ Runs.Along LockedState.call Grants (ofState s) cs :=
  ⟨Runs.Along.of_fine call_view (fun _ _ hq hs => call_isSome.mpr ⟨hs, hq⟩) ha, ha.mono fun _ _ h => h.2⟩

theorem reaches_view {G : State → Call → Prop} (h : Runs.Reaches LockedState.call (fun x c => G x.toState c) x x') :
    Runs.Reaches State.call G x.toState x'.toState := h.of_fine call_view

theorem reaches_init {G : State → Call → Prop} (h : Runs.Reaches LockedState.call (fun x c => G x.toState c) .init x) :
    Runs.Reaches State.call G State.init x.toState := by
  have h := reaches_view h
  rwa [init, toState_ofState] at h

theorem IsFree.of_reaches {G : State → Call → Prop} (hG : ∀ s c, G s c → TruncatesNothing s c) (hfree : x.IsFree)
    (h : Runs.Reaches LockedState.call (fun x c => G x.toState c) x x') : x'.IsFree := by
  obtain ⟨cs, outs, ha, hr⟩ := h
  exact (Runs.run_invariant (I := IsFree) (P := fun _ => True) (fun y c _ _ hi hc hs => ⟨trivial, hi.call (hG _ c hc) hs⟩)
    hfree ha hr).2

theorem exists_reaches {G : State → Call → Prop} (hG : ∀ s c, G s c → TruncatesNothing s c) {s s' : State}
    (h : Runs.Reaches State.call G s s') :
    ∃ x, Runs.Reaches LockedState.call (fun x c => G x.toState c) (ofState s) x ∧ x.toState = s' ∧ x.IsFree := by
  obtain ⟨cs, outs, ha, hr⟩ := h
  have hall : Runs.Along LockedState.call (fun x c => G x.toState c) (ofState s) cs := Runs.Along.to_fine call_view ha
  have hnothing : Runs.Along LockedState.call (fun x c => TruncatesNothing x.toState c) (ofState s) cs :=
    hall.mono fun _ _ => hG _ _
  obtain ⟨x, hx, he⟩ := run_of_grants (along_grants (isFree_ofState s) hnothing) hr
  exact ⟨x, ⟨cs, outs, hall, hx⟩, he, (isFree_ofState s).of_reaches hG ⟨cs, outs, hall, hx⟩⟩

end LockedState

end Tecnicofs.Ex1
