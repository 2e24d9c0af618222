import Tecnicofs.Ex1.Deadlock
import Tecnicofs.Lib.Balance

namespace Tecnicofs.Ex1

open Bytes

inductive Operation
  | lookup (name : Option CString)
  | request (r : Request)

def Operation.body : Operation → Program Out
  | .lookup name => return ⟨← tfsLookup name, []⟩
  | .request r => r.body

/-- An i-node's lock in `tfs_open` when the file has been truncated: it will be given back twice. -/
def Emptied : Operation → Lock → State → Prop
  | .request (.call (.open _ flags)), .rwl i, s => hasFlag flags tfsOTrunc = true ∧ (s.inodeTable i).iSize = 0
  | _, _, _ => False

abbrev Program.Balances (E : Lock → State → Prop) (p : Program α) (held : Held) (Q : α → Held → Prop) : Prop :=
  Prog.Balances SearchFinds ValidHandles E p held Q

def Tidy (E : Lock → State → Prop) (held : Held) (p : Program α) : Prop :=
  Program.Balances E p held fun _ held' => held' = held

variable {E : Lock → State → Prop} {held : Held}

theorem Tidy.bind {p : Program α} {f : α → Program β} {Q : β → Held → Prop} (h : Tidy E held p)
    (hf : ∀ a, Program.Balances E (f a) held Q) : Program.Balances E (p >>= f) held Q :=
  Prog.Balances.bind (h.mono fun a _ he => he ▸ hf a)

theorem tidy_pure (a : α) : Tidy E held (pure a : Program α) := by
  unfold Tidy
  exact Prog.balances_pure rfl

theorem balances_undefined {Q : α → Held → Prop} : Program.Balances E undefined held Q := fun _ _ _ _ _ h => by cases h

theorem tidy_atomic {f : State → Option (γ × State)}
    (hf : ∀ s c s', f s = some (c, s') → s'.openFileTable = s.openFileTable) : Tidy E held (Prog.atomic none f) :=
  fun s c s' hi _ h => ⟨fun i => hf s c s' h ▸ hi i, .inr rfl⟩

theorem balances_read {g : State → γ} {f : γ → Program α} {Q : α → Held → Prop}
    (h : ∀ s, ValidHandles s → Program.Balances E (f (g s)) held Q) :
    Program.Balances E (Prog.get g >>= f) held Q :=
  Prog.balances_get fun s hs => .inr (h s hs)

theorem balances_unlock {l : Lock} {m : Mode} {f : Unit → Program α} {Q : α → Held → Prop}
    (h : Program.Balances E (f ()) held Q) : Program.Balances E (unlock l >>= f) ((l, m) :: held) Q := by
  refine Prog.balances_release ⟨_, List.mem_cons_self, rfl⟩ ?_
  rwa [giveBack_self]

theorem balances_unlock_second {l l' : Lock} {m m' : Mode} (hne : l' ≠ l) {f : Unit → Program α} {Q : α → Held → Prop}
    (h : Program.Balances E (f ()) ((l', m') :: held) Q) :
    Program.Balances E (unlock l >>= f) ((l', m') :: (l, m) :: held) Q := by
  refine Prog.balances_release ⟨(l, m), by simp, rfl⟩ ?_
  rwa [giveBack_of_ne hne, giveBack_self]

theorem tidy_locked {l : Lock} {label : Option Label} {f : State → Option (γ × State)} {g : γ → α}
    (hf : ∀ s c s', f s = some (c, s') → s'.openFileTable = s.openFileTable) :
    Tidy E held (do
      mutexLock l
      let c ← Prog.atomic label f
      unlock l
      return g c) := by
  refine Prog.balances_acquire (Prog.balances_atomic fun s c s' hi _ h => ⟨fun i => hf s c s' h ▸ hi i, .inr ?_⟩)
  exact balances_unlock (Prog.balances_pure rfl)

theorem tidy_dataBlockAlloc : Tidy E held dataBlockAlloc := by
  refine tidy_locked fun s c s' h => ?_
  generalize Tecnicofs.dataBlockAlloc s.toDisk = x at h
  cases h
  rfl

theorem tidy_dataBlockFree (b : Int) : Tidy E held (dataBlockFree b) := by
  refine tidy_locked fun s c s' h => ?_
  generalize Tecnicofs.dataBlockFree s.toDisk b = x at h
  cases h
  rfl

theorem tidy_setDataBlock (inode k : Nat) (b : Int) : Tidy E held (setDataBlock inode k b) :=
  tidy_atomic fun s c s' h => by cases h; rfl

theorem tidy_loadReference (a j : Nat) : Tidy E held (loadReference a j) :=
  tidy_atomic fun s c s' h => by
    obtain ⟨bs, -, he⟩ := Option.map_eq_some_iff.mp h
    cases he
    rfl

theorem tidy_storeReference (a j : Nat) (b : Int) : Tidy E held (storeReference a j b) :=
  tidy_atomic fun s c s' h => by
    obtain ⟨d, -, he⟩ := Option.map_eq_some_iff.mp h
    cases he
    rfl

theorem tidy_freeDirect (inode n : Nat) : Tidy E held (freeDirect inode n) := by
  induction n with
  | zero => exact tidy_pure _
  | succ n ih =>
    refine balances_read fun s _ => ?_
    split
    · exact Prog.balances_pure rfl
    · refine (tidy_dataBlockFree _).bind fun r => ?_
      split
      · exact Prog.balances_pure rfl
      · exact (tidy_setDataBlock _ _ _).bind fun _ => ih

theorem tidy_freeIndirect (a : Nat) {atEnd : Program Unit} (he : Tidy E held atEnd) (n : Nat) :
    Tidy E held (freeIndirect a atEnd n) := by
  induction n with
  | zero => exact he.bind fun _ => Prog.balances_pure rfl
  | succ n ih =>
    refine (tidy_loadReference _ _).bind fun b => ?_
    split
    · exact Prog.balances_pure rfl
    · refine (tidy_dataBlockFree b).bind fun r => ?_
      split
      · exact Prog.balances_pure rfl
      · exact (tidy_storeReference _ _ _).bind fun _ => ih

theorem tidy_freeBlocks (inode : Nat) {atEnd : Nat → Program Unit} (he : ∀ a, Tidy E held (atEnd a)) :
    Tidy E held (freeBlocks inode atEnd) := by
  refine (tidy_freeDirect inode _).bind fun ok => ?_
  split
  · refine balances_read fun s _ => ?_
    split
    · exact Prog.balances_pure rfl
    · split
      · exact Prog.balances_pure rfl
      · refine (tidy_freeIndirect _ (he _) _).bind fun ok => ?_
        split
        · exact (tidy_dataBlockFree _).bind fun r => Prog.balances_pure rfl
        · exact Prog.balances_pure rfl
  · exact Prog.balances_pure rfl

theorem tidy_deleteBlocks (inode : Nat) : Tidy E held (deleteBlocks inode) := by
  refine balances_read fun s _ => ?_
  cases (s.inodeTable inode).iNodeType with
  | directory =>
    simp only
    split
    · refine (tidy_dataBlockFree _).bind fun r => ?_
      split
      · exact Prog.balances_pure rfl
      · exact (tidy_setDataBlock _ _ _).bind fun _ => Prog.balances_pure rfl
    · exact Prog.balances_pure rfl
  | file =>
    simp only
    split
    · exact tidy_freeBlocks inode fun a => (tidy_loadReference _ _).bind fun _ => Prog.balances_pure rfl
    · exact Prog.balances_pure rfl

theorem tidy_bonusBlockInit (inode : Nat) : Tidy E held (bonusBlockInit inode) := by
  refine tidy_dataBlockAlloc.bind fun b => (tidy_setDataBlock _ _ _).bind fun _ => ?_
  split
  · exact Prog.Balances.bind balances_undefined
  · refine (tidy_atomic fun s c s' h => ?_).bind fun _ => Prog.balances_pure rfl
    obtain ⟨d, -, he⟩ := Option.map_eq_some_iff.mp h
    cases he
    rfl

theorem tidy_getCurrentDataBlock (inode file : Nat) : Tidy E held (getCurrentDataBlock inode file) := by
  refine balances_read fun s _ => ?_
  split
  · refine balances_read fun s _ => ?_
    split
    · exact tidy_dataBlockAlloc.bind fun b => (tidy_setDataBlock _ _ _).bind fun _ => Prog.balances_pure rfl
    · exact Prog.balances_pure rfl
  · have hneed : Tidy E held (needBonusBlock inode) := by
      refine balances_read fun s _ => ?_
      split
      · exact (tidy_bonusBlockInit inode).bind fun b => (tidy_setDataBlock _ _ _).bind fun _ => Prog.balances_pure rfl
      · exact Prog.balances_pure rfl
    refine hneed.bind fun ok => ?_
    split
    · refine balances_read fun s _ => ?_
      split
      · exact balances_undefined
      · refine (tidy_loadReference _ _).bind fun b => ?_
        split
        · exact tidy_dataBlockAlloc.bind fun b => (tidy_storeReference _ _ _).bind fun _ => Prog.balances_pure rfl
        · exact Prog.balances_pure rfl
    · exact Prog.balances_pure rfl

theorem tidy_writeLoop (inode file fuel : Nat) (buffer : List UInt8) :
    Tidy E held (writeLoop inode file fuel buffer) := by
  induction fuel generalizing buffer with
  | zero => exact tidy_pure _
  | succ fuel ih =>
    rw [writeLoop]
    split
    · exact tidy_pure _
    · refine (tidy_getCurrentDataBlock inode file).bind fun r => ?_
      split
      · exact Prog.balances_pure rfl
      · refine balances_read fun s _ => Prog.balances_atomic fun s c s' hi _ hs => ⟨?_, .inr (ih _)⟩
        obtain ⟨d, -, he⟩ := Option.map_eq_some_iff.mp hs
        cases he
        exact hi.setOffset file _

theorem tidy_readLoop (inode file fuel toRead : Nat) (bytesRead : List UInt8) :
    Tidy E held (readLoop inode file fuel toRead bytesRead) := by
  induction fuel generalizing toRead bytesRead with
  | zero => exact tidy_pure _
  | succ fuel ih =>
    rw [readLoop]
    split
    · exact tidy_pure _
    · refine balances_read fun s _ => (tidy_getCurrentDataBlock inode file).bind fun r => ?_
      split
      · exact Prog.balances_pure rfl
      · refine Prog.balances_atomic fun s c s' hi _ hs => ⟨?_, .inr (ih _ _)⟩
        obtain ⟨d, -, he⟩ := Option.map_eq_some_iff.mp hs
        cases he
        exact hi.setOffset file _

theorem balances_inodeCreate :
    Program.Balances E (inodeCreate .file) held fun inumber held' => held' = held ∧ validInumber inumber := by
  refine Prog.balances_acquire (Prog.balances_atomic fun s c s' hi hl hf => ?_)
  -- the search finds an entry
  obtain ⟨i, hlt, hfree⟩ := hl .inodeSearch rfl
  cases hfirst : firstFree s.freeinodeTs inodeTableSize with
  | none =>
    rw [firstFree_eq_none.mp hfirst i hlt] at hfree
    cases hfree
  | some i =>
    rw [hfirst] at hf
    cases hf
    have hv := validInumber_natCast (firstFree_eq_some.mp hfirst).1
    refine ⟨hi, .inr (Prog.balances_modify (fun _ h => h) fun _ _ => .inr ?_)⟩
    exact balances_unlock (Prog.balances_pure ⟨rfl, hv⟩)

theorem tidy_inodeDelete (inumber : Int) : Tidy E held (inodeDelete inumber) := by
  refine Prog.balances_acquire (Prog.balances_atomic fun s c s' hi _ hs => ⟨?_, .inr ?_⟩)
  · have hsame : s'.openFileTable = s.openFileTable := by
      split at hs
      · cases hs
        rfl
      · split at hs <;> (cases hs; rfl)
    exact fun i => hsame ▸ hi i
  · cases c with
    | none => exact balances_unlock (Prog.balances_pure rfl)
    | some i => exact (tidy_deleteBlocks i).bind fun ok => balances_unlock (Prog.balances_pure rfl)

theorem tidy_addDirEntry (inumber subInumber : Int) (subName : CString) :
    Tidy E held (addDirEntry inumber subInumber subName) := by
  refine tidy_locked (g := id) fun s c s' hs => ?_
  split at hs
  · cases hs
    rfl
  · split at hs
    · cases hs
      rfl
    · split at hs <;> (cases hs; rfl)

theorem tidy_tfsLookup (name : Option CString) : Tidy E held (tfsLookup name) := by
  cases name with
  | none => exact tidy_pure _
  | some name =>
    rw [tfsLookup]
    split
    · exact tidy_locked (g := id) fun s c s' hs => by cases hs; rfl
    · exact tidy_pure _

theorem tidy_tfsClose (fhandle : Int) : Tidy E held (tfsClose fhandle) := by
  refine tidy_locked (g := id) fun s c s' hs => ?_
  have hsame : (Tecnicofs.removeFromOpenFileTable s.toOpenFiles fhandle).2.openFileTable = s.openFileTable := by
    unfold Tecnicofs.removeFromOpenFileTable
    split <;> rfl
  generalize Tecnicofs.removeFromOpenFileTable s.toOpenFiles fhandle = x at hs hsame
  cases hs
  exact hsame

theorem tidy_addFrom {inumber : Int} (hv : validInumber inumber) (offset n : Nat) :
    Tidy E held (addFrom inumber offset n) := by
  induction n with
  | zero => exact tidy_pure _
  | succ n ih =>
    refine Prog.balances_acquire (Prog.balances_atomic fun s isFree s' hi _ hs => ⟨?_, .inr ?_⟩)
    · split at hs
      · cases hs
        exact hi.setEntry _ offset hv
      · cases hs
        exact hi
    · refine balances_unlock ?_
      split
      · exact Prog.balances_pure rfl
      · exact ih

theorem balances_truncate {inode : Nat} {f : Bool → Program α} {Q : α → Held → Prop}
    (htrue : ∀ s, (s.inodeTable inode).iSize = 0 → (f true).Excused E held s)
    (hfalse : Program.Balances E (f false) held Q) : Program.Balances E (truncate inode >>= f) held Q := by
  have hblocks : ∀ x, Tidy E held (truncateBlocks inode x) := fun x => by
    unfold truncateBlocks
    split
    · split
      · exact (tidy_dataBlockFree (-1)).bind fun r => Prog.balances_pure rfl
      · exact tidy_pure _
    · exact tidy_freeBlocks inode fun a => tidy_pure _
  rw [truncate, Prog.bind_assoc]
  refine Prog.balances_get fun s _ => ?_
  by_cases hsize : (s.inodeTable inode).iSize > 0
  · right
    rw [if_pos hsize, Prog.bind_assoc]
    refine (hblocks _).bind fun ok => ?_
    cases ok with
    | false => exact hfalse
    | true =>
      refine Prog.balances_modify (fun _ h => h) fun s₁ _ => .inl (htrue _ ?_)
      simp [State.setInode_inodeTable]
  · left
    rw [if_neg hsize]
    exact htrue s (Nat.eq_zero_of_not_pos hsize)

theorem balances_openExisting {inode : Nat} {flags : Int} {m : Mode}
    (hE : ∀ s : State, hasFlag flags tfsOTrunc = true → (s.inodeTable inode).iSize = 0 → E (.rwl inode) s) :
    Program.Balances E (openExisting inode flags) ((.rwl inode, m) :: held) fun _ held' => held' = held := by
  rw [openExisting, truncateIf]
  split
  · next ht =>
    rw [Prog.bind_assoc]
    refine balances_truncate (fun s hs => ⟨hE s ht hs, _, List.mem_cons_self, rfl⟩) ?_
    exact Prog.Balances.bind (balances_unlock (Prog.balances_pure (Prog.balances_pure rfl)))
  · exact balances_read fun s _ => balances_unlock (Prog.balances_pure rfl)

theorem tidy_tfsOpen {flags : Int}
    (hE : ∀ i (s : State), hasFlag flags tfsOTrunc = true → (s.inodeTable i).iSize = 0 → E (.rwl i) s)
    (name : Option CString) : Tidy E held (tfsOpen name flags) := by
  cases name with
  | none => exact tidy_pure _
  | some name =>
    rw [tfsOpen]
    split
    · refine Prog.balances_acquire ((tidy_tfsLookup _).bind fun inum => ?_)
      split
      · split
        · exact balances_unlock (Prog.balances_pure rfl)
        · next inode hget =>
          refine Prog.balances_acquire (balances_unlock_second (by simp) ?_)
          refine Prog.Balances.bind ((balances_openExisting (hE inode)).mono fun r _ he => ?_)
          subst he
          cases r with
          | none => exact Prog.balances_pure rfl
          | some offset => exact tidy_addFrom (validInumber_of_inodeGet hget) offset maxOpenFiles
      · split
        · refine balances_unlock (Prog.Balances.bind (balances_inodeCreate.mono fun inum _ hres => ?_))
          obtain ⟨rfl, hv⟩ := hres
          split
          · exact Prog.balances_pure rfl
          · refine (tidy_addDirEntry _ _ _).bind fun r => ?_
            split
            · exact (tidy_inodeDelete _).bind fun _ => Prog.balances_pure rfl
            · exact tidy_addFrom hv 0 maxOpenFiles
        · exact balances_unlock (Prog.balances_pure rfl)
    · exact tidy_pure _

theorem tidy_tfsWrite (fhandle : Int) (buffer : List UInt8) : Tidy E held (tfsWrite fhandle buffer) := by
  refine Prog.balances_acquire ?_
  split
  · exact balances_unlock (Prog.balances_pure rfl)
  · next file _ =>
    refine Prog.balances_acquire (balances_unlock_second (by simp) (Prog.balances_acquire (balances_read fun s _ => ?_)))
    split
    · exact balances_unlock (balances_unlock (Prog.balances_pure rfl))
    · next inode _ =>
      refine Prog.balances_acquire (balances_unlock_second (by simp) ?_)
      refine Prog.balances_atomic fun s c s' hi _ hs => ⟨by cases hs; exact hi, .inr ?_⟩
      refine (tidy_writeLoop inode file _ buffer).bind fun ok => ?_
      split
      · refine Prog.balances_modify (fun s h => ?_) fun s _ => .inr ?_
        · split <;> exact h
        · exact balances_unlock_second (by simp) (balances_unlock (Prog.balances_pure rfl))
      · exact balances_unlock (balances_unlock (Prog.balances_pure rfl))

theorem tidy_tfsRead (fhandle : Int) (len : Nat) : Tidy E held (tfsRead fhandle len) := by
  refine Prog.balances_acquire ?_
  split
  · exact balances_undefined
  · next file _ =>
    refine Prog.balances_acquire (balances_unlock_second (by simp) (Prog.balances_acquire (balances_read fun s _ => ?_)))
    split
    · exact balances_unlock_second (by simp) (balances_unlock (Prog.balances_pure rfl))
    · next inode _ =>
      refine Prog.balances_acquire (balances_unlock_second (by simp) (balances_read fun s _ => ?_))
      refine (tidy_readLoop inode file _ _ _).bind fun r => ?_
      split
      · exact balances_unlock_second (by simp) (balances_unlock (Prog.balances_pure rfl))
      · exact balances_unlock (balances_unlock (Prog.balances_pure rfl))

theorem tidy_copyLoop (fhandle : Int) (dest : Dest) (fuel i : Nat) (written : List UInt8) :
    Tidy E held (copyLoop fhandle dest fuel i written) := by
  induction fuel generalizing i written with
  | zero => exact balances_undefined
  | succ fuel ih =>
    refine (tidy_tfsRead fhandle bufferSize).bind fun r => ?_
    split
    · exact Prog.balances_pure rfl
    · split
      · exact ih _ _
      · exact Prog.balances_pure rfl

theorem tidy_tfsCopyToExternalFs (sourcePath : Option CString) (dest : Dest) (fuel : Nat) :
    Tidy E held (tfsCopyToExternalFs sourcePath dest fuel) := by
  refine Prog.balances_acquire ((tidy_tfsOpen (fun _ _ ht _ => ?_) sourcePath).bind fun fhandle => ?_)
  · exact absurd ht (by decide)
  · split
    · exact balances_unlock (Prog.balances_pure rfl)
    · split
      · exact balances_undefined
      · next file _ =>
        refine Prog.balances_acquire (balances_unlock_second (by simp) ?_)
        refine Prog.balances_acquire (balances_read fun s hs => ?_)
        split
        · next hnone =>
          -- the handle names an i-node
          rw [inodeGet, if_pos (hs file)] at hnone
          cases hnone
        · next inode _ =>
          refine Prog.balances_acquire (balances_unlock_second (by simp) ?_)
          split
          · refine (tidy_copyLoop fhandle dest fuel 0 []).bind fun r => ?_
            split
            · exact (tidy_tfsClose fhandle).bind fun _ => balances_unlock (balances_unlock (Prog.balances_pure rfl))
            · exact balances_unlock (balances_unlock (Prog.balances_pure rfl))
          · exact balances_unlock (balances_unlock (Prog.balances_pure rfl))

instance : ∀ c l s, Decidable (Emptied c l s)
  | .request (.call (.open _ _)), .rwl _, _ => inferInstanceAs (Decidable (_ ∧ _))
  | .request (.call (.open _ _)), .inodeTable, _ | .request (.call (.open _ _)), .openFileTable, _
  | .request (.call (.open _ _)), .blockTable, _ | .request (.call (.open _ _)), .file _, _
  | .request (.call (.close _)), _, _ | .request (.call (.write _ _)), _, _ | .request (.call (.read _ _)), _, _
  | .request (.copy _ _ _), _, _ | .lookup _, _, _ => isFalse id

theorem tidy_operation (c : Operation) : Tidy (Emptied c) [] c.body := by
  cases c with
  | lookup name => exact (tidy_tfsLookup name).bind fun _ => Prog.balances_pure rfl
  | request r =>
    cases r with
    | copy sourcePath dest fuel => exact tidy_tfsCopyToExternalFs sourcePath dest fuel
    | call c =>
      cases c with
      | «open» name flags =>
        exact (tidy_tfsOpen (fun i s ht hs => ⟨ht, hs⟩) name).bind fun _ => Prog.balances_pure rfl
      | close fhandle => exact (tidy_tfsClose fhandle).bind fun _ => Prog.balances_pure rfl
      | write fhandle buffer => exact (tidy_tfsWrite fhandle buffer).bind fun _ => Prog.balances_pure rfl
      | read fhandle len => exact tidy_tfsRead fhandle len

/-- As long as `inode_create` finds a free i-node and nothing is truncated, no thread ends a call with a lock or gives
back one that it does not hold. -/
theorem locks_balanced {n : Nat} {es : List (Pool.Event n Operation)} {outs : List Unit}
    {p : Pool n Lock Label State Operation Out}
    (ha : Runs.Along (Pool.step Operation.body) (fun p e => p.Assumes SearchFinds e ∧ ∀ t, ¬ p.Excuses Emptied t)
      (Pool.init State.init) es)
    (hr : Runs.run (Pool.step Operation.body) (Pool.init State.init) es = some (outs, p)) : p.Balanced :=
  Pool.balanced_of_run tidy_operation validHandles_init ha hr

theorem slashE_noNul : (0 : UInt8) ∉ [47, 101] := by decide

def openTwice (t u : Fin n) (flags : Int) (steps : Nat) : List (Pool.Event n Operation) :=
  let name := some ⟨[47, 101], slashE_noNul⟩
  .start t (.request (.call (.open name tfsOCreat))) :: List.replicate 16 (.step t) ++
    .start u (.request (.call (.open name flags))) :: List.replicate steps (.step u)

/-- The second thread has opened the file to append to it. -/
theorem locks_balanced_append : ∃ p : Pool 2 Lock Label State Operation Out,
    (∃ outs, Runs.run (Pool.step Operation.body) (Pool.init State.init) (openTwice (n := 2) 0 1 tfsOAppend 12) =
      some (outs, p)) ∧
      p.Balanced := by
  have hrun : (Runs.run (Pool.step Operation.body) (Pool.init State.init)
      (openTwice (n := 2) 0 1 tfsOAppend 12)).isSome = true := by
    decide +kernel
  obtain ⟨x, hx⟩ := Option.isSome_iff_exists.mp hrun
  exact ⟨x.2, ⟨x.1, hx⟩, locks_balanced (by decide +kernel) hx⟩

/-- The second thread has truncated the file and is about to give back the i-node's lock again. -/
theorem truncation_not_balanced : ¬ ∀ (n : Nat) (es : List (Pool.Event n Operation)) (outs : List Unit)
    (p : Pool n Lock Label State Operation Out),
    Runs.run (Pool.step Operation.body) (Pool.init State.init) es = some (outs, p) → p.Balanced := by
  intro h
  have hend : (Runs.run (Pool.step Operation.body) (Pool.init State.init) (openTwice (n := 2) 0 1 tfsOTrunc 9)).map (fun x =>
      decide x.2.Balanced) = some false := by
    decide +kernel
  obtain ⟨x, hx, he⟩ := Option.map_eq_some_iff.mp hend
  exact of_decide_eq_false he (h 2 _ x.1 x.2 hx)

end Tecnicofs.Ex1
