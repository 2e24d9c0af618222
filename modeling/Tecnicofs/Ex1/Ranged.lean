import Tecnicofs.Ex1.Operations
import Tecnicofs.Lib.Keeps

namespace Tecnicofs.Ex1

open Bytes

/-- A property of states that `get_current_data_block` cannot change. -/
structure BlockSteady (I : State → Prop) : Prop where
  alloc : ∀ s, I s → I (s.setDisk (Tecnicofs.dataBlockAlloc s.toDisk).2)
  entry : ∀ s i k b, I s → I (s.setInode i ((s.inodeTable i).setBlock k b))
  store : ∀ s a bytes d, I s → s.toDisk.store a bytes = some d → I (s.setDisk d)

structure Steady (I : State → Prop) : Prop extends BlockSteady I where
  offset : ∀ s f o, I s → o < 2 ^ 64 → I (s.setFiles (s.toOpenFiles.setOffset f o))

theorem szAdd_lt (a b : Nat) : szAdd a b < 2 ^ 64 := Nat.mod_lt _ (by decide)

theorem keeps_undefined {I : State → Prop} {Q : α → Prop} : Prog.Keeps I (undefined : Program α) Q :=
  fun s _ b s' hr => by cases hr

section
variable {I : State → Prop} (h : BlockSteady I)
include h

theorem keeps_dataBlockAlloc : dataBlockAlloc.Keeps I fun _ => True := by
  refine Prog.keeps_acquire (Prog.keeps_atomic fun s b s' hs hr => ⟨?_, Prog.keeps_release (Prog.keeps_pure trivial)⟩)
  have halloc := h.alloc s hs
  generalize Tecnicofs.dataBlockAlloc s.toDisk = x at hr halloc
  cases hr
  exact halloc

theorem keeps_setDataBlock (inode k : Nat) (b : Int) : (setDataBlock inode k b).Keeps I fun _ => True :=
  Prog.keeps_step fun s a s' hs hr => by
    cases hr
    exact ⟨trivial, h.entry s inode k b hs⟩

omit h in
theorem keeps_loadReference (a j : Nat) : (loadReference a j).Keeps I fun _ => True :=
  Prog.keeps_step fun s b s' hs hr => by
    obtain ⟨bytes, -, he⟩ := Option.map_eq_some_iff.mp hr
    cases he
    exact ⟨trivial, hs⟩

theorem keeps_storeReference (a j : Nat) (b : Int) : (storeReference a j b).Keeps I fun _ => True :=
  Prog.keeps_step fun s c s' hs hr => by
    obtain ⟨d, hd, he⟩ := Option.map_eq_some_iff.mp hr
    cases he
    exact ⟨trivial, h.store s _ _ d hs hd⟩

theorem keeps_directBlock (inode k : Nat) : (directBlock inode k).Keeps I fun _ => True := by
  refine Prog.keeps_get fun s _ => ?_
  split
  · exact (keeps_dataBlockAlloc h).bind fun b _ => (keeps_setDataBlock h _ _ _).bind fun _ _ => Prog.keeps_pure trivial
  · exact Prog.keeps_pure trivial

theorem keeps_bonusBlockInit (inode : Nat) : (bonusBlockInit inode).Keeps I fun _ => True := by
  refine (keeps_dataBlockAlloc h).bind fun b _ => (keeps_setDataBlock h _ _ _).bind fun _ _ => ?_
  split
  · exact keeps_undefined
  · refine Prog.keeps_atomic fun s c s' hs hr => ⟨?_, Prog.keeps_pure trivial⟩
    obtain ⟨d, hd, he⟩ := Option.map_eq_some_iff.mp hr
    cases he
    exact h.store s _ _ d hs hd

theorem keeps_needBonusBlock (inode : Nat) : (needBonusBlock inode).Keeps I fun _ => True := by
  refine Prog.keeps_get fun s _ => ?_
  split
  · exact (keeps_bonusBlockInit h inode).bind fun b _ =>
      (keeps_setDataBlock h _ _ _).bind fun _ _ => Prog.keeps_pure trivial
  · exact Prog.keeps_pure trivial

theorem keeps_indirectBlock (inode j : Nat) : (indirectBlock inode j).Keeps I fun _ => True := by
  refine Prog.keeps_get fun s _ => ?_
  split
  · exact keeps_undefined
  · refine (keeps_loadReference _ _).bind fun b _ => ?_
    split
    · exact (keeps_dataBlockAlloc h).bind fun b _ => (keeps_storeReference h _ _ _).bind fun _ _ => Prog.keeps_pure trivial
    · exact Prog.keeps_pure trivial

theorem keeps_getCurrentDataBlock (inode file : Nat) : (getCurrentDataBlock inode file).Keeps I fun _ => True := by
  refine Prog.keeps_get fun s _ => ?_
  split
  · exact keeps_directBlock h _ _
  · refine (keeps_needBonusBlock h inode).bind fun ok _ => ?_
    split
    · exact keeps_indirectBlock h _ _
    · exact Prog.keeps_pure trivial

end

section
variable {I : State → Prop} (h : Steady I)
include h

theorem keeps_readChunk (file block currentOffset n : Nat) :
    (readChunk file block currentOffset n).Keeps I fun _ => True :=
  Prog.keeps_step fun s bytes s' hs hr => by
    obtain ⟨bs, -, he⟩ := Option.map_eq_some_iff.mp hr
    cases he
    exact ⟨trivial, h.offset s _ _ hs (szAdd_lt ..)⟩

theorem keeps_readLoop (inode file fuel toRead : Nat) (bytesRead : List UInt8) :
    (readLoop inode file fuel toRead bytesRead).Keeps I fun _ => True := by
  induction fuel generalizing toRead bytesRead with
  | zero => exact Prog.keeps_pure trivial
  | succ fuel ih =>
    rw [readLoop]
    split
    · exact Prog.keeps_pure trivial
    · refine Prog.keeps_get fun s _ => (keeps_getCurrentDataBlock h.toBlockSteady _ _).bind fun r _ => ?_
      cases r with
      | none => exact Prog.keeps_pure trivial
      | some block => exact (keeps_readChunk h _ _ _ _).bind fun bytes _ => ih _ _

theorem keeps_tfsRead (fhandle : Int) (len : Nat) : (tfsRead fhandle len).Keeps I fun _ => True := by
  refine Prog.keeps_acquire ?_
  cases getOpenFileEntry fhandle with
  | none => exact keeps_undefined
  | some file =>
    refine Prog.keeps_acquire (Prog.keeps_release (Prog.keeps_acquire (Prog.keeps_get fun s _ => ?_)))
    split
    · exact Prog.keeps_release (Prog.keeps_release (Prog.keeps_pure trivial))
    · refine Prog.keeps_acquire (Prog.keeps_release (Prog.keeps_get fun s _ =>
        (keeps_readLoop h _ _ _ _ _).bind fun r _ => ?_))
      split
      · exact Prog.keeps_release (Prog.keeps_release (Prog.keeps_pure trivial))
      · exact Prog.keeps_release (Prog.keeps_release (Prog.keeps_pure trivial))

end

/-- Sizes and offsets fit into 64 bits, and the entries of the open-file table have numbers of i-nodes. -/
structure Ranged (s : State) : Prop where
  size : ∀ i, (s.inodeTable i).iSize < 2 ^ 64
  offset : ∀ f, (s.openFileTable f).ofOffset < 2 ^ 64
  inumber : ∀ f, validInumber (s.openFileTable f).ofInumber

abbrev Program.Stays (p : Program α) (Q : α → Prop) : Prop := p.Keeps Ranged Q

variable {s s' : State} {i f : Nat}

namespace Ranged

theorem congr (h : Ranged s) (hi : s'.inodeTable = s.inodeTable) (hf : s'.openFileTable = s.openFileTable) :
    Ranged s' := ⟨fun i => hi ▸ h.size i, fun f => hf ▸ h.offset f, fun f => hf ▸ h.inumber f⟩

theorem setDisk (h : Ranged s) (d : Disk) : Ranged (s.setDisk d) := ⟨h.size, h.offset, h.inumber⟩

theorem setInode (h : Ranged s) {x : Inode} (hx : x.iSize < 2 ^ 64) : Ranged (s.setInode i x) where
  size j := by
    rw [State.setInode_inodeTable]
    split
    · exact hx
    · exact h.size j
  offset := h.offset
  inumber := h.inumber

theorem setEntry (h : Ranged s) {e : OpenFileEntry} (ho : e.ofOffset < 2 ^ 64) (hi : validInumber e.ofInumber) :
    Ranged (s.setFiles (s.toOpenFiles.setEntry f e)) where
  size := h.size
  offset g := by
    rw [State.setFiles_toOpenFiles, OpenFiles.setEntry_table]
    split
    · exact ho
    · exact h.offset g
  inumber g := by
    rw [State.setFiles_toOpenFiles, OpenFiles.setEntry_table]
    split
    · exact hi
    · exact h.inumber g

theorem setOffset (h : Ranged s) {o : Nat} (ho : o < 2 ^ 64) : Ranged (s.setFiles (s.toOpenFiles.setOffset f o)) :=
  h.setEntry ho (h.inumber f)

theorem init : Ranged State.init := by
  rw [State.init_eq]
  refine ⟨fun i => ?_, fun f => Nat.two_pow_pos 64, fun f => show validInumber 0 by decide⟩
  simp only [Function.update_apply]
  split
  · decide
  · decide

theorem steady : Steady Ranged where
  alloc _ hs := hs.setDisk _
  entry _ i _ _ hs := hs.setInode (hs.size i)
  store _ _ _ d hs _ := hs.setDisk d
  offset _ _ _ hs ho := hs.setOffset ho

end Ranged

theorem stays_step {label : Option Label} {g : State → Option (α × State)}
    (hg : ∀ s a s', g s = some (a, s') → s'.inodeTable = s.inodeTable ∧ s'.openFileTable = s.openFileTable) :
    Program.Stays (Prog.atomic label g) fun _ => True :=
  Prog.keeps_step fun s a s' hs hr => ⟨trivial, hs.congr (hg s a s' hr).1 (hg s a s' hr).2⟩

theorem stays_dataBlockFree (b : Int) : Program.Stays (dataBlockFree b) fun _ => True := by
  refine Prog.keeps_acquire (Prog.Keeps.bind (stays_step fun s a s' hs => ?_) fun b _ =>
    Prog.keeps_release (Prog.keeps_pure trivial))
  generalize Tecnicofs.dataBlockFree s.toDisk b = x at hs
  cases hs
  exact ⟨rfl, rfl⟩

theorem stays_freeDirect (inode n : Nat) : Program.Stays (freeDirect inode n) fun _ => True := by
  induction n with
  | zero => exact Prog.keeps_pure trivial
  | succ n ih =>
    refine Prog.keeps_get fun s _ => ?_
    split
    · exact Prog.keeps_pure trivial
    · refine (stays_dataBlockFree _).bind fun r _ => ?_
      split
      · exact Prog.keeps_pure trivial
      · exact (keeps_setDataBlock Ranged.steady.toBlockSteady _ _ _).bind fun _ _ => ih

theorem stays_freeIndirect (a : Nat) {atEnd : Program Unit} (he : Program.Stays atEnd fun _ => True) (n : Nat) :
    Program.Stays (freeIndirect a atEnd n) fun _ => True := by
  induction n with
  | zero => exact he.bind fun _ _ => Prog.keeps_pure trivial
  | succ n ih =>
    refine (keeps_loadReference _ _).bind fun b _ => ?_
    split
    · exact Prog.keeps_pure trivial
    · refine (stays_dataBlockFree _).bind fun r _ => ?_
      split
      · exact Prog.keeps_pure trivial
      · exact (keeps_storeReference Ranged.steady.toBlockSteady _ _ _).bind fun _ _ => ih

theorem stays_freeBlocks (inode : Nat) {atEnd : Nat → Program Unit} (he : ∀ a, Program.Stays (atEnd a) fun _ => True) :
    Program.Stays (freeBlocks inode atEnd) fun _ => True := by
  refine (stays_freeDirect _ _).bind fun ok _ => ?_
  split
  · refine Prog.keeps_get fun s _ => ?_
    split
    · exact Prog.keeps_pure trivial
    · split
      · exact Prog.keeps_pure trivial
      · refine (stays_freeIndirect _ (he _) _).bind fun ok _ => ?_
        split
        · exact (stays_dataBlockFree _).bind fun r _ => Prog.keeps_pure trivial
        · exact Prog.keeps_pure trivial
  · exact Prog.keeps_pure trivial

theorem stays_deleteBlocks (inode : Nat) : Program.Stays (deleteBlocks inode) fun _ => True := by
  refine Prog.keeps_get fun s _ => ?_
  split
  · split
    · refine (stays_dataBlockFree _).bind fun r _ => ?_
      split
      · exact Prog.keeps_pure trivial
      · exact (keeps_setDataBlock Ranged.steady.toBlockSteady _ _ _).bind fun _ _ => Prog.keeps_pure trivial
    · exact Prog.keeps_pure trivial
  · split
    · exact stays_freeBlocks inode fun a => (keeps_loadReference _ _).bind fun _ _ => Prog.keeps_pure trivial
    · exact Prog.keeps_pure trivial

theorem stays_inodeCreate : Program.Stays (inodeCreate .file) fun inumber => inumber = -1 ∨ validInumber inumber := by
  refine Prog.keeps_acquire (Prog.keeps_atomic fun s found s' hs hr => ?_)
  cases hfirst : firstFree s.freeinodeTs inodeTableSize with
  | none =>
    rw [hfirst] at hr
    cases hr
    exact ⟨hs, Prog.keeps_pure (.inl rfl)⟩
  | some i =>
    rw [hfirst] at hr
    cases hr
    refine ⟨(hs.congr rfl rfl : Ranged (s.setInodeState i .taken)).setInode (hs.size i), ?_⟩
    refine Prog.keeps_modify (fun s hs => hs.setInode (Nat.two_pow_pos 64)) (Prog.keeps_release (Prog.keeps_pure (.inr ?_)))
    exact validInumber_natCast (firstFree_eq_some.mp hfirst).1

theorem stays_inodeDelete (inumber : Int) : Program.Stays (inodeDelete inumber) fun _ => True := by
  refine Prog.keeps_acquire (Prog.Keeps.bind (stays_step fun s a s' hs => ?_) fun found _ => ?_)
  · split at hs
    · cases hs
      exact ⟨rfl, rfl⟩
    · split at hs
      · cases hs
        exact ⟨rfl, rfl⟩
      · cases hs
        exact ⟨rfl, rfl⟩
  · split
    · exact Prog.keeps_release (Prog.keeps_pure trivial)
    · exact (stays_deleteBlocks _).bind fun ok _ => Prog.keeps_release (Prog.keeps_pure trivial)

theorem stays_addDirEntry (inumber subInumber : Int) (subName : CString) :
    Program.Stays (addDirEntry inumber subInumber subName) fun _ => True := by
  refine Prog.keeps_acquire (Prog.Keeps.bind (stays_step fun s a s' hs => ?_) fun r _ =>
    Prog.keeps_release (Prog.keeps_pure trivial))
  split at hs
  · cases hs
    exact ⟨rfl, rfl⟩
  · split at hs
    · cases hs
      exact ⟨rfl, rfl⟩
    · split at hs
      · cases hs
        exact ⟨rfl, rfl⟩
      · cases hs
        exact ⟨rfl, rfl⟩

theorem stays_tfsLookup (name : Option CString) : Program.Stays (tfsLookup name) fun _ => True := by
  cases name with
  | none => exact Prog.keeps_pure trivial
  | some name =>
    rw [tfsLookup]
    split
    · exact Prog.keeps_acquire (Prog.keeps_get fun s _ => Prog.keeps_release (Prog.keeps_pure trivial))
    · exact Prog.keeps_pure trivial

theorem stays_addFrom {inumber : Int} (hv : validInumber inumber) {offset : Nat} (ho : offset < 2 ^ 64) (n : Nat) :
    Program.Stays (addFrom inumber offset n) fun _ => True := by
  induction n with
  | zero => exact Prog.keeps_pure trivial
  | succ n ih =>
    refine Prog.keeps_acquire (Prog.keeps_atomic fun s isFree s' hs hr => ⟨?_, Prog.keeps_release ?_⟩)
    · split at hr
      · cases hr
        exact (hs.congr rfl rfl : Ranged (s.setFiles (s.toOpenFiles.take _))).setEntry ho hv
      · cases hr
        exact hs
    · split
      · exact Prog.keeps_pure trivial
      · exact ih

theorem stays_tfsClose (fhandle : Int) : Program.Stays (tfsClose fhandle) fun _ => True := by
  refine Prog.keeps_acquire (Prog.Keeps.bind (stays_step fun s a s' hs => ?_) fun r _ =>
    Prog.keeps_release (Prog.keeps_pure trivial))
  have hsame : (Tecnicofs.removeFromOpenFileTable s.toOpenFiles fhandle).2.openFileTable = s.openFileTable := by
    unfold Tecnicofs.removeFromOpenFileTable
    split <;> rfl
  generalize Tecnicofs.removeFromOpenFileTable s.toOpenFiles fhandle = x at hs hsame
  cases hs
  exact ⟨rfl, hsame⟩

theorem stays_truncateIf (flags : Int) (inode : Nat) : Program.Stays (truncateIf flags inode) fun _ => True := by
  have hblocks : ∀ x, Program.Stays (truncateBlocks inode x) fun _ => True := fun x => by
    unfold truncateBlocks
    split
    · split
      · exact (stays_dataBlockFree _).bind fun r _ => Prog.keeps_pure trivial
      · exact Prog.keeps_pure trivial
    · exact stays_freeBlocks inode fun a => Prog.keeps_pure trivial
  have htruncate : Program.Stays (truncate inode) fun _ => True := by
    refine Prog.keeps_get fun s _ => ?_
    split
    · refine (hblocks _).bind fun ok _ => ?_
      split
      · exact Prog.keeps_modify (fun s hs => hs.setInode (Nat.two_pow_pos 64)) (Prog.keeps_pure trivial)
      · exact Prog.keeps_pure trivial
    · exact Prog.keeps_pure trivial
  unfold truncateIf
  split
  · exact htruncate.bind fun ok _ => Prog.keeps_release (Prog.keeps_pure trivial)
  · exact Prog.keeps_pure trivial

theorem stays_openExisting (inode : Nat) (flags : Int) :
    Program.Stays (openExisting inode flags) fun r => ∀ o ∈ r, o < 2 ^ 64 := by
  refine (stays_truncateIf flags inode).bind fun ok _ => ?_
  split
  · refine Prog.keeps_get fun s hs => Prog.keeps_release (Prog.keeps_pure ?_)
    rintro o ⟨⟩
    split
    · exact hs.size inode
    · decide
  · refine Prog.keeps_pure ?_
    rintro o ⟨⟩

theorem stays_tfsOpen (name : Option CString) (flags : Int) : Program.Stays (tfsOpen name flags) fun _ => True := by
  cases name with
  | none => exact Prog.keeps_pure trivial
  | some name =>
    rw [tfsOpen]
    split
    · refine Prog.keeps_acquire ((stays_tfsLookup _).bind fun inum _ => ?_)
      split
      · cases hi : inodeGet inum with
        | none => exact Prog.keeps_release (Prog.keeps_pure trivial)
        | some inode =>
          have hv : validInumber inum := by
            unfold inodeGet at hi
            split at hi
            · assumption
            · cases hi
          refine Prog.keeps_acquire (Prog.keeps_release ((stays_openExisting inode flags).bind fun r ho => ?_))
          cases r with
          | none => exact Prog.keeps_pure trivial
          | some offset => exact stays_addFrom hv (ho offset rfl) _
      · split
        · refine Prog.keeps_release (stays_inodeCreate.bind fun inum hv => ?_)
          split
          · exact Prog.keeps_pure trivial
          · next hne =>
            refine (stays_addDirEntry _ _ _).bind fun r _ => ?_
            split
            · exact (stays_inodeDelete _).bind fun _ _ => Prog.keeps_pure trivial
            · exact stays_addFrom (hv.resolve_left hne) (by decide) _
        · exact Prog.keeps_release (Prog.keeps_pure trivial)
    · exact Prog.keeps_pure trivial

theorem stays_writeChunk (inode file block currentOffset : Nat) (bytes : List UInt8) :
    Program.Stays (writeChunk inode file block currentOffset bytes) fun _ => True :=
  Prog.keeps_step fun s a s' hs hr => by
    obtain ⟨d, -, he⟩ := Option.map_eq_some_iff.mp hr
    cases he
    exact ⟨trivial, ((hs.congr rfl rfl : Ranged (s.setDisk d)).setOffset (szAdd_lt ..)).setInode (szAdd_lt ..)⟩

theorem stays_writeLoop (inode file fuel : Nat) (buffer : List UInt8) :
    Program.Stays (writeLoop inode file fuel buffer) fun _ => True := by
  induction fuel generalizing buffer with
  | zero => exact Prog.keeps_pure trivial
  | succ fuel ih =>
    rw [writeLoop]
    split
    · exact Prog.keeps_pure trivial
    · refine (keeps_getCurrentDataBlock Ranged.steady.toBlockSteady _ _).bind fun r _ => ?_
      cases r with
      | none => exact Prog.keeps_pure trivial
      | some block => exact Prog.keeps_get fun s _ => (stays_writeChunk _ _ _ _ _).bind fun _ _ => ih _

theorem stays_tfsWrite (fhandle : Int) (buffer : List UInt8) : Program.Stays (tfsWrite fhandle buffer) fun _ => True := by
  refine Prog.keeps_acquire ?_
  cases getOpenFileEntry fhandle with
  | none => exact Prog.keeps_release (Prog.keeps_pure trivial)
  | some file =>
    refine Prog.keeps_acquire (Prog.keeps_release (Prog.keeps_acquire (Prog.keeps_get fun s _ => ?_)))
    split
    · exact Prog.keeps_release (Prog.keeps_release (Prog.keeps_pure trivial))
    · next inode _ =>
      refine Prog.keeps_acquire (Prog.keeps_release (Prog.keeps_atomic fun s initial s' hs hr => ?_))
      cases hr
      have hsize := hs.size inode
      refine ⟨hs, (stays_writeLoop _ _ _ _).bind fun ok _ => ?_⟩
      split
      · refine Prog.keeps_modify (fun s' hs' => ?_) (Prog.keeps_release (Prog.keeps_release (Prog.keeps_pure trivial)))
        split
        · refine hs'.setInode ?_
          split
          · exact szAdd_lt ..
          · exact hsize
        · exact hs'
      · exact Prog.keeps_release (Prog.keeps_release (Prog.keeps_pure trivial))

theorem stays_body (c : Call) : Program.Stays (body c) fun _ => True := by
  cases c with
  | «open» name flags => exact (stays_tfsOpen name flags).bind fun _ _ => Prog.keeps_pure trivial
  | close fhandle => exact (stays_tfsClose fhandle).bind fun _ _ => Prog.keeps_pure trivial
  | write fhandle buffer => exact (stays_tfsWrite fhandle buffer).bind fun _ _ => Prog.keeps_pure trivial
  | read fhandle len => exact keeps_tfsRead Ranged.steady fhandle len

theorem Ranged.of_reaches (h : Runs.Reaches State.call (fun _ _ => True) State.init s) : Ranged s :=
  h.invariant (fun s c o s' hs _ hr => (stays_body c s hs o s' hr).2) .init

end Tecnicofs.Ex1
