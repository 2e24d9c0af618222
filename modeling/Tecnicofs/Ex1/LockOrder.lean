import Tecnicofs.Ex1.Operations
import Tecnicofs.Lib.LockOrder

/-! Project 1: the order of the locks.  Only the loop of `tfs_copy_to_external_fs` takes the locks of the tables
while it has a file locked. -/

namespace Tecnicofs.Ex1

inductive Request
  | call (c : Call)
  | copy (sourcePath : Option Bytes.CString) (dest : Dest) (fuel : Nat)

def Request.body : Request → Program Out
  | .call c => Ex1.body c
  | .copy sourcePath dest fuel => tfsCopyToExternalFs sourcePath dest fuel

def Lock.rank : Lock → Nat
  | .openFileTable => 0
  | .file _ => 1
  | .inodeTable => 2
  | .rwl _ => 3
  | .blockTable => 4

abbrev Held := List (Lock × Mode)

/-- A lock above those held; a handle's lock is taken under `open_file_table_lock` or with nothing held, and an
i-node's under `inode_table_lock`. -/
structure Ordered (held : Held) (l : Lock) : Prop where
  rank : ∀ x ∈ held, x.1.rank < l.rank
  file : ∀ h, l = .file h → held = [] ∨ (.openFileTable, .exclusive) ∈ held
  rwl : ∀ i, l = .rwl i → (.inodeTable, .exclusive) ∈ held

structure Late (held : Held) (l : Lock) (mode : Mode) : Prop where
  shared : ∃ i, (.rwl i, .shared) ∈ held
  noWriter : ∀ i, (.rwl i, .exclusive) ∉ held
  noBlockTable : ∀ m, (.blockTable, m) ∉ held
  next : (∃ j, l = .rwl j ∧ mode = .shared) ∨
    (l = .openFileTable ∨ l = .inodeTable) ∧ ∀ x ∈ held, x.1 ≠ .openFileTable ∧ x.1 ≠ .inodeTable

def Allowed (held : Held) (l : Lock) (mode : Mode) : Prop :=
  (l, mode) ∈ held ∨ Ordered held l ∨ Late held l mode

def SearchFinds : Label → State → Prop
  | .inodeSearch, s => Label.inodeSearch.Succeeds s
  | .alloc, _ | .write _ _, _ => True

def ValidHandles (s : State) : Prop := ∀ i, validInumber (s.openFileTable i).ofInumber

abbrev Program.Locks (p : Program α) (held : Held) (Q : α → Held → Prop) : Prop :=
  Prog.Locks SearchFinds ValidHandles Allowed p held Q

def Neutral (held : Held) (p : Program α) : Prop := p.Locks held fun _ held' => held' = held

@[simp] theorem giveBack_self (l : Lock) (m : Mode) (held : Held) : giveBack ((l, m) :: held) l = held := by
  simp [giveBack]

@[simp] theorem giveBack_of_ne {l l' : Lock} (h : l' ≠ l) (m : Mode) (held : Held) :
    giveBack ((l', m) :: held) l = (l', m) :: giveBack held l := by
  simp [giveBack, h]

theorem Neutral.bind {held : Held} {p : Program α} {f : α → Program β}
    {Q : β → Held → Prop} (h : Neutral held p) (hf : ∀ a, Program.Locks (f a) held Q) :
    Program.Locks (p >>= f) held Q :=
  Prog.Locks.bind (h.mono fun a _ he => he ▸ hf a)

theorem neutral_pure {held : Held} (a : α) : Neutral held (pure a : Program α) := by
  unfold Neutral
  exact Prog.locks_pure rfl

theorem neutral_atomic {held : Held} {f : State → Option (γ × State)}
    (hf : ∀ s c s', f s = some (c, s') → s'.openFileTable = s.openFileTable) : Neutral held (Prog.atomic none f) :=
  fun s c s' hi _ h => ⟨fun i => hf s c s' h ▸ hi i, rfl⟩

theorem locks_undefined {held : Held} {Q : α → Held → Prop} : Program.Locks undefined held Q :=
  fun _ _ _ _ _ h => by cases h

theorem allowed_own {held : Held} {l : Lock} {mode : Mode} (h : (l, mode) ∈ held) : Allowed held l mode := .inl h

theorem allowed_blockTable {held : Held} (h : ∀ x ∈ held, x.1.rank < 4) : Allowed held .blockTable .exclusive :=
  .inr (.inl ⟨h, by simp, by simp⟩)

section
variable {held : Held}

theorem neutral_dataBlockAlloc (h : ∀ x ∈ held, x.1.rank < 4) : Neutral held dataBlockAlloc := by
  refine Prog.locks_acquire (allowed_blockTable h) (Prog.locks_atomic fun s c s' hi _ hs => ⟨?_, ?_⟩)
  · generalize Tecnicofs.dataBlockAlloc s.toDisk = x at hs
    cases hs
    exact hi
  · exact Prog.locks_release (by simp) (Prog.locks_pure (giveBack_self ..))

theorem neutral_dataBlockFree (h : ∀ x ∈ held, x.1.rank < 4) (b : Int) : Neutral held (dataBlockFree b) := by
  refine Prog.locks_acquire (allowed_blockTable h) (Prog.locks_atomic fun s c s' hi _ hs => ⟨?_, ?_⟩)
  · generalize Tecnicofs.dataBlockFree s.toDisk b = x at hs
    cases hs
    exact hi
  · exact Prog.locks_release (by simp) (Prog.locks_pure (giveBack_self ..))

theorem neutral_setDataBlock (inode k : Nat) (b : Int) : Neutral held (setDataBlock inode k b) :=
  neutral_atomic fun s c s' h => by cases h; rfl

theorem neutral_loadReference (a j : Nat) : Neutral held (loadReference a j) :=
  neutral_atomic fun s c s' h => by
    obtain ⟨bs, -, he⟩ := Option.map_eq_some_iff.mp h
    cases he
    rfl

theorem neutral_storeReference (a j : Nat) (b : Int) : Neutral held (storeReference a j b) :=
  neutral_atomic fun s c s' h => by
    obtain ⟨d, -, he⟩ := Option.map_eq_some_iff.mp h
    cases he
    rfl

theorem neutral_freeDirect (h : ∀ x ∈ held, x.1.rank < 4) (inode n : Nat) : Neutral held (freeDirect inode n) := by
  induction n with
  | zero => exact neutral_pure _
  | succ n ih =>
    refine Prog.locks_get fun s _ => ?_
    split
    · exact Prog.locks_pure rfl
    · refine (neutral_dataBlockFree h _).bind fun r => ?_
      split
      · exact Prog.locks_pure rfl
      · exact Neutral.bind (neutral_setDataBlock _ _ _) fun _ => ih

theorem neutral_freeIndirect (h : ∀ x ∈ held, x.1.rank < 4) (a : Nat) {atEnd : Program Unit}
    (he : Neutral held atEnd) (n : Nat) : Neutral held (freeIndirect a atEnd n) := by
  induction n with
  | zero => exact he.bind fun _ => Prog.locks_pure rfl
  | succ n ih =>
    refine Neutral.bind (neutral_loadReference _ _) fun b => ?_
    split
    · exact Prog.locks_pure rfl
    · refine (neutral_dataBlockFree h b).bind fun r => ?_
      split
      · exact Prog.locks_pure rfl
      · exact Neutral.bind (neutral_storeReference _ _ _) fun _ => ih

theorem neutral_freeBlocks (h : ∀ x ∈ held, x.1.rank < 4) (inode : Nat) {atEnd : Nat → Program Unit}
    (he : ∀ a, Neutral held (atEnd a)) : Neutral held (freeBlocks inode atEnd) := by
  refine (neutral_freeDirect h inode _).bind fun ok => ?_
  split
  · refine Prog.locks_get fun s _ => ?_
    split
    · exact Prog.locks_pure rfl
    · split
      · exact Prog.locks_pure rfl
      · refine (neutral_freeIndirect h _ (he _) _).bind fun ok => ?_
        split
        · exact (neutral_dataBlockFree h _).bind fun r => Prog.locks_pure rfl
        · exact Prog.locks_pure rfl
  · exact Prog.locks_pure rfl

theorem neutral_deleteBlocks (h : ∀ x ∈ held, x.1.rank < 4) (inode : Nat) : Neutral held (deleteBlocks inode) := by
  refine Prog.locks_get fun s _ => ?_
  cases (s.inodeTable inode).iNodeType with
  | directory =>
    simp only
    split
    · refine (neutral_dataBlockFree h _).bind fun r => ?_
      split
      · exact Prog.locks_pure rfl
      · exact Neutral.bind (neutral_setDataBlock _ _ _) fun _ => Prog.locks_pure rfl
    · exact Prog.locks_pure rfl
  | file =>
    simp only
    split
    · exact neutral_freeBlocks h inode fun a => Neutral.bind (neutral_loadReference _ _) fun _ => Prog.locks_pure rfl
    · exact Prog.locks_pure rfl

theorem neutral_getCurrentDataBlock (h : ∀ x ∈ held, x.1.rank < 4) (inode file : Nat) :
    Neutral held (getCurrentDataBlock inode file) := by
  refine Prog.locks_get fun s _ => ?_
  split
  · refine Prog.locks_get fun s _ => ?_
    split
    · exact (neutral_dataBlockAlloc h).bind fun b => Neutral.bind (neutral_setDataBlock _ _ _) fun _ => Prog.locks_pure rfl
    · exact Prog.locks_pure rfl
  · have hneed : Neutral held (needBonusBlock inode) := by
      refine Prog.locks_get fun s _ => ?_
      split
      · refine Neutral.bind ?_ fun b => Neutral.bind (neutral_setDataBlock _ _ _) fun _ => Prog.locks_pure rfl
        refine (neutral_dataBlockAlloc h).bind fun b => Neutral.bind (neutral_setDataBlock _ _ _) fun _ => ?_
        split
        · exact Prog.Locks.bind locks_undefined
        · refine (neutral_atomic fun s c s' h => ?_).bind fun _ => Prog.locks_pure rfl
          obtain ⟨d, -, he⟩ := Option.map_eq_some_iff.mp h
          cases he
          rfl
      · exact Prog.locks_pure rfl
    refine hneed.bind fun ok => ?_
    split
    · refine Prog.locks_get fun s _ => ?_
      split
      · exact locks_undefined
      · refine Neutral.bind (neutral_loadReference _ _) fun b => ?_
        split
        · exact (neutral_dataBlockAlloc h).bind fun b =>
            Neutral.bind (neutral_storeReference _ _ _) fun _ => Prog.locks_pure rfl
        · exact Prog.locks_pure rfl
    · exact Prog.locks_pure rfl

theorem ValidHandles.setOffset {s : State} (h : ValidHandles s) (file o : Nat) :
    ValidHandles (s.setFiles (s.toOpenFiles.setOffset file o)) := by
  intro i
  have hi := h i
  rwa [← OpenFiles.setOffset_ofInumber s.toOpenFiles file o i] at hi

theorem ValidHandles.setEntry {s : State} (h : ValidHandles s) (i : Nat) {inumber : Int} (offset : Nat)
    (hv : validInumber inumber) :
    ValidHandles (s.setFiles ((s.toOpenFiles.take i).setEntry i ⟨inumber, offset⟩)) := by
  intro j
  change validInumber ((OpenFiles.setEntry _ i ⟨inumber, offset⟩).openFileTable j).ofInumber
  rw [OpenFiles.setEntry_table]
  split
  · exact hv
  · exact h j

theorem neutral_writeLoop (h : ∀ x ∈ held, x.1.rank < 4) (inode file fuel : Nat) (buffer : List UInt8) :
    Neutral held (writeLoop inode file fuel buffer) := by
  induction fuel generalizing buffer with
  | zero => exact neutral_pure _
  | succ fuel ih =>
    rw [writeLoop]
    split
    · exact neutral_pure _
    · refine (neutral_getCurrentDataBlock h inode file).bind fun r => ?_
      split
      · exact Prog.locks_pure rfl
      · refine Prog.locks_get fun s _ => Prog.locks_atomic fun s c s' hi _ hs => ⟨?_, ih _⟩
        obtain ⟨d, -, he⟩ := Option.map_eq_some_iff.mp hs
        cases he
        exact hi.setOffset file _

theorem neutral_readLoop (h : ∀ x ∈ held, x.1.rank < 4) (inode file fuel toRead : Nat) (bytesRead : List UInt8) :
    Neutral held (readLoop inode file fuel toRead bytesRead) := by
  induction fuel generalizing toRead bytesRead with
  | zero => exact neutral_pure _
  | succ fuel ih =>
    rw [readLoop]
    split
    · exact neutral_pure _
    · refine Prog.locks_get fun s _ => (neutral_getCurrentDataBlock h inode file).bind fun r => ?_
      split
      · exact Prog.locks_pure rfl
      · refine Prog.locks_atomic fun s c s' hi _ hs => ⟨?_, ih _ _⟩
        obtain ⟨d, -, he⟩ := Option.map_eq_some_iff.mp hs
        cases he
        exact hi.setOffset file _

end

theorem validInumber_of_inodeGet {inumber : Int} {i : Nat} (h : inodeGet inumber = some i) : validInumber inumber := by
  unfold inodeGet at h
  split at h
  · next hv => exact hv
  · cases h

theorem locks_inodeCreate :
    Program.Locks (inodeCreate .file) [] fun inumber held => held = [] ∧ validInumber inumber := by
  refine Prog.locks_acquire (.inr (.inl ⟨by simp, by simp, by simp⟩)) (Prog.locks_atomic fun s c s' hi hl hf => ?_)
  -- the search finds an entry
  cases hfirst : firstFree s.freeinodeTs inodeTableSize with
  | none =>
    obtain ⟨i, hlt, hfree⟩ := hl .inodeSearch rfl
    rw [firstFree_eq_none.mp hfirst i hlt] at hfree
    cases hfree
  | some i =>
    rw [hfirst] at hf
    cases hf
    have hv := validInumber_natCast (firstFree_eq_some.mp hfirst).1
    exact ⟨hi, Prog.locks_modify (fun _ h => h) (Prog.locks_release (by simp) (Prog.locks_pure ⟨giveBack_self .., hv⟩))⟩

theorem neutral_inodeDelete (inumber : Int) : Neutral [] (inodeDelete inumber) := by
  refine Prog.locks_acquire (.inr (.inl ⟨by simp, by simp, by simp⟩)) (Prog.locks_atomic fun s c s' hi _ hs => ⟨?_, ?_⟩)
  · have hsame : s'.openFileTable = s.openFileTable := by
      split at hs
      · cases hs
        rfl
      · split at hs <;> (cases hs; rfl)
    exact fun i => hsame ▸ hi i
  · cases c with
    | none => exact Prog.locks_release (by simp) (Prog.locks_pure (giveBack_self ..))
    | some i =>
      refine (neutral_deleteBlocks (by simp [Lock.rank]) i).bind fun ok => ?_
      exact Prog.locks_release (by simp) (Prog.locks_pure (giveBack_self ..))

theorem neutral_addDirEntry (inumber subInumber : Int) (subName : Bytes.CString) :
    Neutral [] (addDirEntry inumber subInumber subName) := by
  refine Prog.locks_acquire (.inr (.inl ⟨by simp, by simp, by simp⟩)) (Prog.locks_atomic fun s c s' hi _ hs => ⟨?_, ?_⟩)
  · have hsame : s'.openFileTable = s.openFileTable := by
      split at hs
      · cases hs
        rfl
      · split at hs
        · cases hs
          rfl
        · split at hs <;> (cases hs; rfl)
    exact fun i => hsame ▸ hi i
  · exact Prog.locks_release (by simp) (Prog.locks_pure (giveBack_self ..))

theorem neutral_tfsClose {held : Held} (h : Allowed held .openFileTable .exclusive) (fhandle : Int) :
    Neutral held (tfsClose fhandle) := by
  refine Prog.locks_acquire h (Prog.locks_atomic fun s c s' hi _ hs => ⟨?_, ?_⟩)
  · have hsame : (Tecnicofs.removeFromOpenFileTable s.toOpenFiles fhandle).2.openFileTable = s.openFileTable := by
      unfold Tecnicofs.removeFromOpenFileTable
      split <;> rfl
    generalize Tecnicofs.removeFromOpenFileTable s.toOpenFiles fhandle = x at hs hsame
    cases hs
    exact fun i => hsame ▸ hi i
  · exact Prog.locks_release (by simp) (Prog.locks_pure (giveBack_self ..))

theorem neutral_tfsLookup {held : Held} (h : (.inodeTable, .exclusive) ∈ held) (name : Option Bytes.CString) :
    Neutral held (tfsLookup name) := by
  cases name with
  | none => exact neutral_pure _
  | some name =>
    rw [tfsLookup]
    split
    · refine Prog.locks_acquire (allowed_own h) (Prog.locks_get fun _ _ => ?_)
      exact Prog.locks_release (by simp) (Prog.locks_pure (giveBack_self ..))
    · exact neutral_pure _

/-- What a thread holds when it calls `tfs_open`: nothing, or `open_file_table_lock` in the copy. -/
def OpenBase (held : Held) : Prop := held = [] ∨ held = [(.openFileTable, .exclusive)]

theorem neutral_addFrom {held : Held} (hh : OpenBase held) {inumber : Int} (hv : validInumber inumber)
    (offset n : Nat) : Neutral held (addFrom inumber offset n) := by
  induction n with
  | zero => exact neutral_pure _
  | succ n ih =>
    refine Prog.locks_acquire (Or.inr (Or.inl ?_)) (Prog.locks_atomic fun s isFree s' hi _ hs => ⟨?_, ?_⟩)
    · rcases hh with rfl | rfl <;> exact ⟨by simp [Lock.rank], by simp, by simp⟩
    · split at hs
      · cases hs
        exact hi.setEntry _ offset hv
      · cases hs
        exact hi
    · refine Prog.locks_release (by simp) ?_
      rw [giveBack_self]
      split
      · exact Prog.locks_pure rfl
      · exact ih

theorem locks_openExisting {held : Held} {flags : Int} (ht : hasFlag flags tfsOTrunc = false) (inode : Nat) :
    Program.Locks (openExisting inode flags) ((.rwl inode, .exclusive) :: held) fun _ held' => held' = held := by
  have hok : truncateIf flags inode = pure true := by
    unfold truncateIf
    rw [ht]
    rfl
  unfold openExisting
  rw [hok]
  exact Prog.locks_get fun _ _ => Prog.locks_release (by simp) (Prog.locks_pure (giveBack_self ..))

theorem neutral_tfsOpen {held : Held} {flags : Int} (hh : held = [] ∨ held = [(.openFileTable, .exclusive)] ∧ flags = 0)
    (ht : hasFlag flags tfsOTrunc = false) (name : Option Bytes.CString) : Neutral held (tfsOpen name flags) := by
  have hbase : OpenBase held := hh.imp id And.left
  cases name with
  | none => exact neutral_pure _
  | some name =>
    rw [tfsOpen]
    split
    · refine Prog.locks_acquire (Or.inr (Or.inl ?_)) ?_
      · rcases hbase with rfl | rfl <;> exact ⟨by simp [Lock.rank], by simp, by simp⟩
      refine (neutral_tfsLookup List.mem_cons_self _).bind fun inum => ?_
      split
      · split
        · exact Prog.locks_release (by simp) (Prog.locks_pure (giveBack_self ..))
        · next inode hget =>
          refine Prog.locks_acquire (Or.inr (Or.inl ?_)) (Prog.locks_release (by simp) ?_)
          · rcases hbase with rfl | rfl <;> exact ⟨by simp [Lock.rank], by simp, by simp⟩
          rw [giveBack_of_ne (by simp), giveBack_self]
          refine Prog.Locks.bind ((locks_openExisting ht inode).mono fun r _ he => ?_)
          subst he
          cases r with
          | none => exact Prog.locks_pure rfl
          | some offset => exact neutral_addFrom hbase (validInumber_of_inodeGet hget) offset maxOpenFiles
      · split
        · next hcreat =>
          -- the copy does not create files
          obtain rfl : held = [] := hh.resolve_right fun h => by
            rw [h.2] at hcreat
            exact absurd hcreat (by decide)
          refine Prog.locks_release (by simp) ?_
          rw [giveBack_self]
          refine locks_inodeCreate.seq fun inum hv => ?_
          split
          · exact Prog.locks_pure rfl
          · refine (neutral_addDirEntry _ _ _).bind fun r => ?_
            split
            · exact (neutral_inodeDelete _).bind fun _ => Prog.locks_pure rfl
            · exact neutral_addFrom hbase hv 0 maxOpenFiles
        · exact Prog.locks_release (by simp) (Prog.locks_pure (giveBack_self ..))
    · exact neutral_pure _

theorem neutral_tfsWrite (fhandle : Int) (buffer : List UInt8) : Neutral [] (tfsWrite fhandle buffer) := by
  refine Prog.locks_acquire (Or.inr (Or.inl ⟨by simp, by simp, by simp⟩)) ?_
  split
  · exact Prog.locks_release (by simp) (Prog.locks_pure (giveBack_self ..))
  · next file _ =>
    refine Prog.locks_acquire (Or.inr (Or.inl ⟨by simp [Lock.rank], by simp, by simp⟩)) (Prog.locks_release (by simp) ?_)
    rw [giveBack_of_ne (by simp), giveBack_self]
    refine Prog.locks_acquire (Or.inr (Or.inl ⟨by simp [Lock.rank], by simp, by simp⟩)) (Prog.locks_get fun s _ => ?_)
    split
    · refine Prog.locks_release (by simp) (Prog.locks_release (by simp) (Prog.locks_pure ?_))
      rw [giveBack_self, giveBack_self]
    · next inode _ =>
      refine Prog.locks_acquire (Or.inr (Or.inl ⟨by simp [Lock.rank], by simp, by simp⟩)) (Prog.locks_release (by simp) ?_)
      rw [giveBack_of_ne (by simp), giveBack_self]
      refine Prog.locks_atomic fun s c s' hi _ hs => ⟨?_, ?_⟩
      · cases hs
        exact hi
      · refine (neutral_writeLoop (by simp [Lock.rank]) inode file _ buffer).bind fun ok => ?_
        split
        · refine Prog.locks_modify (fun s h => ?_)
            (Prog.locks_release (by simp) (Prog.locks_release (by simp) (Prog.locks_pure ?_)))
          · split <;> exact h
          · rw [giveBack_of_ne (by simp), giveBack_self, giveBack_self]
        · refine Prog.locks_release (by simp) (Prog.locks_release (by simp) (Prog.locks_pure ?_))
          rw [giveBack_self, giveBack_self]

/-- What a thread holds when it calls `tfs_read`: nothing, or what the copy keeps in its loop. -/
def ReadBase (file : Nat) (held : Held) : Prop :=
  held = [] ∨ ∃ i, held = [(.rwl i, .shared), (.file file, .exclusive)]

theorem ReadBase.openFileTable {file : Nat} {held : Held} (h : ReadBase file held) :
    Allowed held .openFileTable .exclusive := by
  rcases h with rfl | ⟨i, rfl⟩
  · exact .inr (.inl ⟨by simp, by simp, by simp⟩)
  · exact .inr (.inr ⟨⟨i, by simp⟩, by simp, by simp, .inr ⟨.inl rfl, by simp⟩⟩)

theorem ReadBase.file {file : Nat} {held : Held} (h : ReadBase file held) :
    Allowed ((.openFileTable, .exclusive) :: held) (.file file) .exclusive := by
  rcases h with rfl | ⟨i, rfl⟩
  · exact .inr (.inl ⟨by simp [Lock.rank], by simp, by simp⟩)
  · exact allowed_own (by simp)

theorem ReadBase.inodeTable {file : Nat} {held : Held} (h : ReadBase file held) :
    Allowed ((.file file, .exclusive) :: held) .inodeTable .exclusive := by
  rcases h with rfl | ⟨i, rfl⟩
  · exact .inr (.inl ⟨by simp [Lock.rank], by simp, by simp⟩)
  · exact .inr (.inr ⟨⟨i, by simp⟩, by simp, by simp, .inr ⟨.inr rfl, by simp⟩⟩)

theorem ReadBase.rwl {file : Nat} {held : Held} (h : ReadBase file held) (j : Nat) :
    Allowed ((.inodeTable, .exclusive) :: (.file file, .exclusive) :: held) (.rwl j) .shared := by
  rcases h with rfl | ⟨i, rfl⟩
  · exact .inr (.inl ⟨by simp [Lock.rank], by simp, by simp⟩)
  · exact .inr (.inr ⟨⟨i, by simp⟩, by simp, by simp, .inl ⟨j, rfl, rfl⟩⟩)

theorem ReadBase.rank {file : Nat} {held : Held} (h : ReadBase file held) : ∀ x ∈ held, x.1.rank < 4 := by
  rcases h with rfl | ⟨i, rfl⟩ <;> simp [Lock.rank]

theorem neutral_tfsRead {fhandle : Int} {held : Held}
    (h : ∀ file, getOpenFileEntry fhandle = some file → ReadBase file held)
    (htable : Allowed held .openFileTable .exclusive) (len : Nat) : Neutral held (tfsRead fhandle len) := by
  refine Prog.locks_acquire htable ?_
  split
  · exact locks_undefined
  · next file hfile =>
    have hb := h file hfile
    refine Prog.locks_acquire hb.file (Prog.locks_release (by simp) ?_)
    rw [giveBack_of_ne (by simp), giveBack_self]
    refine Prog.locks_acquire hb.inodeTable (Prog.locks_get fun s _ => ?_)
    split
    · refine Prog.locks_release (by simp) (Prog.locks_release (by simp) (Prog.locks_pure ?_))
      rw [giveBack_of_ne (by simp), giveBack_self, giveBack_self]
    · next inode _ =>
      refine Prog.locks_acquire (hb.rwl inode) (Prog.locks_release (by simp) ?_)
      rw [giveBack_of_ne (by simp), giveBack_self]
      have hrank : ∀ x ∈ ((.rwl inode, .shared) :: (.file file, .exclusive) :: held : Held), x.1.rank < 4 := by
        simpa [Lock.rank] using hb.rank
      refine Prog.locks_get fun s _ => (neutral_readLoop hrank inode file _ _ _).bind fun r => ?_
      split
      · refine Prog.locks_release (by simp) (Prog.locks_release (by simp) (Prog.locks_pure ?_))
        rw [giveBack_of_ne (by simp), giveBack_self, giveBack_self]
      · refine Prog.locks_release (by simp) (Prog.locks_release (by simp) (Prog.locks_pure ?_))
        rw [giveBack_self, giveBack_self]

theorem neutral_copyLoop {fhandle : Int} {file inode : Nat} (hfile : getOpenFileEntry fhandle = some file)
    (dest : Dest) (fuel i : Nat) (written : List UInt8) :
    Neutral [(.rwl inode, .shared), (.file file, .exclusive)] (copyLoop fhandle dest fuel i written) := by
  have hb : ReadBase file [(.rwl inode, .shared), (.file file, .exclusive)] := .inr ⟨inode, rfl⟩
  induction fuel generalizing i written with
  | zero => exact locks_undefined
  | succ fuel ih =>
    refine (neutral_tfsRead (fun f hf => ?_) hb.openFileTable bufferSize).bind fun r => ?_
    · obtain rfl := Option.some.inj (hfile.symm.trans hf)
      exact hb
    · split
      · exact Prog.locks_pure rfl
      · split
        · exact ih _ _
        · exact Prog.locks_pure rfl

theorem neutral_tfsCopyToExternalFs (sourcePath : Option Bytes.CString) (dest : Dest) (fuel : Nat) :
    Neutral [] (tfsCopyToExternalFs sourcePath dest fuel) := by
  refine Prog.locks_acquire (Or.inr (Or.inl ⟨by simp, by simp, by simp⟩)) ?_
  refine (neutral_tfsOpen (.inr ⟨rfl, rfl⟩) (by decide) sourcePath).bind fun fhandle => ?_
  split
  · exact Prog.locks_release (by simp) (Prog.locks_pure (giveBack_self ..))
  · split
    · exact locks_undefined
    · next file hfile =>
      refine Prog.locks_acquire (Or.inr (Or.inl ⟨by simp [Lock.rank], by simp, by simp⟩)) (Prog.locks_release (by simp) ?_)
      rw [giveBack_of_ne (by simp), giveBack_self]
      refine Prog.locks_acquire (Or.inr (Or.inl ⟨by simp [Lock.rank], by simp, by simp⟩)) ?_
      refine Prog.locks_get fun s hs => ?_
      split
      · next hnone =>
        -- the handle names an i-node
        rw [inodeGet, if_pos (hs file)] at hnone
        cases hnone
      · next inode _ =>
        refine Prog.locks_acquire (Or.inr (Or.inl ⟨by simp [Lock.rank], by simp, by simp⟩)) (Prog.locks_release (by simp) ?_)
        rw [giveBack_of_ne (by simp), giveBack_self]
        split
        · refine (neutral_copyLoop hfile dest fuel 0 []).bind fun r => ?_
          split
          · have hb : ReadBase file [(.rwl inode, .shared), (.file file, .exclusive)] := .inr ⟨inode, rfl⟩
            refine (neutral_tfsClose hb.openFileTable fhandle).bind fun _ => ?_
            refine Prog.locks_release (by simp) (Prog.locks_release (by simp) (Prog.locks_pure ?_))
            rw [giveBack_self, giveBack_self]
          · refine Prog.locks_release (by simp) (Prog.locks_release (by simp) (Prog.locks_pure ?_))
            rw [giveBack_self, giveBack_self]
        · refine Prog.locks_release (by simp) (Prog.locks_release (by simp) (Prog.locks_pure ?_))
          rw [giveBack_self, giveBack_self]

def Request.NoTrunc : Request → Prop
  | .call (.open _ flags) => hasFlag flags tfsOTrunc = false
  | .call _ | .copy _ _ _ => True

theorem neutral_body {r : Request} (h : r.NoTrunc) : Neutral [] r.body := by
  cases r with
  | copy sourcePath dest fuel => exact neutral_tfsCopyToExternalFs sourcePath dest fuel
  | call c =>
    have hbase (file : Nat) : ReadBase file [] := .inl rfl
    cases c with
    | «open» name flags => exact (neutral_tfsOpen (.inl rfl) h name).bind fun _ => Prog.locks_pure rfl
    | close fhandle => exact (neutral_tfsClose (hbase 0).openFileTable fhandle).bind fun _ => Prog.locks_pure rfl
    | write fhandle buffer => exact (neutral_tfsWrite fhandle buffer).bind fun _ => Prog.locks_pure rfl
    | read fhandle len => exact neutral_tfsRead (fun file _ => hbase file) (hbase 0).openFileTable len

end Tecnicofs.Ex1
