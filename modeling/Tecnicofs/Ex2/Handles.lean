import Tecnicofs.Ex2.Invariant
import Tecnicofs.Lib.Runs

/-! Project 2: calls on handles that are not open.  A read or write checks only that the handle lies in the
open-file table; a closed entry, and one never used, still names an i-node. -/

namespace Tecnicofs.Ex2

open Bytes

structure Sane (s : State) : Prop where
  canOpen : s.canOpenFiles = 1
  file : ∀ file < maxOpenFiles, validInumber (s.openFileTable file).ofInumber
  block : ∀ j, 0 < (s.inodeTable j).iSize → validBlockNumber (s.inodeTable j).iDataBlock

namespace Sane

variable {s : State}

theorem init : Sane State.init := by
  rw [State.init_eq]
  refine ⟨rfl, fun file _ => ?_, fun j hj => ?_⟩
  · exact show validInumber 0 by decide
  · by_cases h0 : j = 0
    · subst h0
      exact show validBlockNumber 0 by decide
    · simp [h0] at hj

theorem setDisk (h : Sane s) (d : Disk) : Sane (s.setDisk d) := ⟨h.canOpen, h.file, h.block⟩

theorem setInodeState (h : Sane s) (i : Nat) (a : AllocationState) : Sane (s.setInodeState i a) :=
  ⟨h.canOpen, h.file, h.block⟩

theorem openFiles (h : Sane s) (n : Int) : Sane { s with openFiles := n } := ⟨h.canOpen, h.file, h.block⟩

theorem setInode (h : Sane s) {i : Nat} {x : Inode} (hx : 0 < x.iSize → validBlockNumber x.iDataBlock) :
    Sane (s.setInode i x) := by
  refine ⟨h.canOpen, h.file, fun j hj => ?_⟩
  rw [State.setInode_inodeTable] at hj ⊢
  split at hj
  · next he =>
    rw [if_pos he]
    exact hx hj
  · next he =>
    rw [if_neg he]
    exact h.block j hj

theorem setFiles (h : Sane s) {f : OpenFiles}
    (hf : ∀ file < maxOpenFiles, validInumber (f.openFileTable file).ofInumber) : Sane (s.setFiles f) :=
  ⟨h.canOpen, hf, h.block⟩

theorem setOffset (h : Sane s) (file offset : Nat) :
    Sane (s.setFiles (s.toOpenFiles.setOffset file offset)) := by
  apply h.setFiles
  intro k hk
  simpa using h.file k hk

theorem openHandle (h : Sane s) {inum : Int} (hi : validInumber inum) (offset : Nat) :
    Sane (openHandle s inum offset).2 := by
  unfold Ex2.openHandle addToOpenFileTable
  cases firstFree s.freeOpenFileEntries maxOpenFiles with
  | none => exact h.setFiles h.file
  | some i =>
    apply h.setFiles
    intro k hk
    rw [OpenFiles.setEntry_table]
    split
    · exact hi
    · exact h.file k hk

theorem truncate (h : Sane s) (inode : Nat) : Sane (truncate s inode).2 := by
  unfold Ex2.truncate
  split
  · simp only
    split
    · exact h.setDisk _
    · exact (h.setDisk _).setInode (by simp)
  · exact h

theorem writeBlock (h : Sane s) (inode : Nat) : Sane (writeBlock s inode) := by
  unfold Ex2.writeBlock
  generalize dataBlockAlloc s.toDisk = y
  split
  · next hz => exact (h.setDisk _).setInode (by simp [hz])
  · exact h

theorem addDirEntry (h : Sane s) (inumber subInumber : Int) (subName : CString) :
    Sane (addDirEntry s inumber subInumber subName).2 := by
  unfold Ex2.addDirEntry
  split
  · exact h
  split
  · exact h
  split
  · exact h
  split
  · exact h
  split
  · exact h.setDisk _
  · exact h

theorem inodeDelete (h : Sane s) (inumber : Int) : Sane (inodeDelete s inumber).2 := by
  unfold Ex2.inodeDelete
  split
  · exact h
  · simp only
    split
    · exact (h.setInodeState _ _).setDisk _
    · exact h.setInodeState _ _

theorem inodeCreate (h : Sane s) {inum : Int} {s' : State} (hc : inodeCreate s .file = (inum, s')) :
    Sane s' ∧ (inum = -1 ∨ validInumber inum) := by
  unfold Ex2.inodeCreate at hc
  cases hf : firstFree s.freeinodeTs inodeTableSize with
  | none =>
    rw [hf] at hc
    cases hc
    exact ⟨h, .inl rfl⟩
  | some i =>
    have hi := (firstFree_eq_some.mp hf).1
    rw [hf] at hc
    simp only [State.setInode_setInode] at hc
    cases hc
    exact ⟨(h.setInodeState i .taken).setInode (by simp), .inr ⟨by omega, by exact_mod_cast hi⟩⟩

theorem openUnsynchronized (h : Sane s) {name : Option CString} {flags : Int} {x : Int × State}
    (hx : tfsOpenUnsynchronized s name flags = some x) : Sane x.2 := by
  unfold tfsOpenUnsynchronized at hx
  simp only at hx
  split at hx
  · -- an existing file
    cases hi : inodeGet (tfsLookupUnsynchronized s name) with
    | none =>
      rw [hi] at hx
      cases hx
      exact h
    | some inode =>
      have hv : validInumber (tfsLookupUnsynchronized s name) := by
        obtain ⟨he, hlt⟩ := inodeGet_eq_some hi
        exact he ▸ ⟨by omega, by exact_mod_cast hlt⟩
      have ht : Sane (if hasFlag flags tfsOTrunc then Ex2.truncate s inode else (true, s)).2 := by
        split
        · exact h.truncate inode
        · exact h
      simp only [hi] at hx
      generalize (if hasFlag flags tfsOTrunc then Ex2.truncate s inode else (true, s)) = y at hx ht
      split at hx <;> cases hx
      · exact ht.openHandle hv _
      · exact ht
  · split at hx
    · -- a new file
      generalize hc : Ex2.inodeCreate s .file = y at hx
      obtain ⟨inum, s₁⟩ := y
      obtain ⟨h₁, hv⟩ := h.inodeCreate hc
      simp only at hx
      split at hx
      · cases hx
        exact h₁
      · next hne =>
        split at hx
        · cases hx
        · split at hx <;> cases hx
          · exact (h₁.addDirEntry ..).inodeDelete _
          · exact (h₁.addDirEntry ..).openHandle (hv.resolve_left hne) _
    · cases hx
      exact h

theorem write (h : Sane s) {fhandle : Int} {buffer : List UInt8} {x : Int × State}
    (hx : tfsWrite s fhandle buffer = some x) : Sane x.2 := by
  unfold tfsWrite at hx
  cases hf : getOpenFileEntry fhandle with
  | none =>
    rw [hf] at hx
    cases hx
    exact h
  | some file =>
  rw [hf] at hx
  cases hi : inodeGet (s.openFileTable file).ofInumber with
  | none =>
    simp only [hi] at hx
    cases hx
    exact h
  | some inode =>
    simp only [hi] at hx
    generalize toWrite buffer.length (s.openFileTable file).ofOffset = n at hx
    split at hx
    · have hw := h.writeBlock inode
      generalize Ex2.writeBlock s inode = t at hx hw
      cases hb : dataBlockGet (t.inodeTable inode).iDataBlock with
      | none =>
        rw [hb] at hx
        cases hx
        exact hw
      | some block =>
        obtain ⟨b, hlt, hblock, -⟩ := dataBlockGet_eq_some hb
        have hv : validBlockNumber (t.inodeTable inode).iDataBlock :=
          hblock ▸ ⟨by omega, by exact_mod_cast hlt⟩
        simp only [hb] at hx
        split at hx
        · cases hx
        · obtain ⟨d, -, rfl⟩ := Option.map_eq_some_iff.mp hx
          have hs := (hw.setDisk d).setOffset file (szAdd (s.openFileTable file).ofOffset n)
          simp only
          split
          · exact hs.setInode fun _ => hv
          · exact hs
    · cases hx
      exact h

theorem call (h : Sane s) {c : Call} {out : Out} {s' : State} (hc : s.call c = some (out, s')) : Sane s' := by
  cases c with
  | «open» name flags =>
    obtain ⟨x, hx, he⟩ := Option.map_eq_some_iff.mp hc
    cases he
    unfold tfsOpen at hx
    split at hx
    · cases hx
      exact h
    · obtain ⟨y, hy, rfl⟩ := Option.map_eq_some_iff.mp hx
      have hs := h.openUnsynchronized hy
      simp only
      split
      · exact hs.openFiles _
      · exact hs
  | close fhandle =>
    cases hc
    by_cases ho : s.toOpenFiles.IsOpen fhandle
    · rw [tfsClose_of_isOpen ho]
      exact (h.setFiles (f := s.toOpenFiles.release fhandle.toNat) h.file).openFiles (s.openFiles - 1)
    · rw [tfsClose_of_not ho]
      exact h
  | write fhandle buffer =>
    obtain ⟨x, hx, he⟩ := Option.map_eq_some_iff.mp hc
    cases he
    exact h.write hx
  | read fhandle len =>
    rcases Wf.read_cases hc with rfl | ⟨i, offset, rfl⟩
    · exact h
    · exact h.setOffset i offset

end Sane

def Reachable (s : State) : Prop := ∃ cs outs, Runs.run State.call State.init cs = some (outs, s)

theorem Reachable.sane {s : State} (h : Reachable s) : Sane s := by
  obtain ⟨cs, outs, hr⟩ := h
  have ha : Runs.Along State.call (fun _ _ => True) State.init cs := .of_forall (fun _ _ => trivial) _ _
  exact (Runs.run_invariant (P := fun _ => True) (fun _ _ _ _ i _ hc => ⟨trivial, i.call hc⟩) Sane.init ha hr).2

/-- The i-node that an entry of the open-file table names, whether or not the entry is taken. -/
def entryInode (s : State) (file : Nat) : Inode := s.inodeTable (s.openFileTable file).ofInumber.toNat

/-- The read has bytes to copy, from an i-node that never had a block. -/
def ReadsNoBlock (s : State) (file len : Nat) : Prop :=
  0 < toRead (entryInode s file).iSize (s.openFileTable file).ofOffset len ∧
    ¬ validBlockNumber (entryInode s file).iDataBlock

/-- The write has bytes to copy, to an i-node that never had a block, and there is no block left. -/
def WritesNoBlock (s : State) (file len : Nat) : Prop :=
  0 < toWrite len (s.openFileTable file).ofOffset ∧ (entryInode s file).iSize = 0 ∧
    (entryInode s file).iDataBlock = -1 ∧ ∀ b < dataBlocks, s.freeBlocks b = .taken

namespace Sane

variable {s : State}

theorem entry (h : Sane s) {fhandle : Int} (hv : validFileHandle fhandle) :
    getOpenFileEntry fhandle = some fhandle.toNat ∧
      inodeGet (s.openFileTable fhandle.toNat).ofInumber =
        some (s.openFileTable fhandle.toNat).ofInumber.toNat := by
  have hlt : fhandle.toNat < maxOpenFiles := by
    obtain ⟨h0, h1⟩ := hv
    omega
  exact ⟨if_pos hv, if_pos (h.file _ hlt)⟩

theorem read_fails_iff (h : Sane s) (fhandle : Int) (len : Nat) :
    tfsRead s fhandle len = some (⟨-1, []⟩, s) ↔
      ¬ validFileHandle fhandle ∨ ReadsNoBlock s fhandle.toNat len := by
  by_cases hv : validFileHandle fhandle
  · obtain ⟨hf, hi⟩ := h.entry hv
    simp only [hv, not_true, false_or, ReadsNoBlock, entryInode]
    unfold tfsRead
    simp only [hf, hi]
    generalize s.inodeTable (s.openFileTable fhandle.toNat).ofInumber.toNat = node
    generalize toRead node.iSize (s.openFileTable fhandle.toNat).ofOffset len = n
    by_cases hn : n > 0
    · rw [if_pos hn]
      by_cases hb : validBlockNumber node.iDataBlock
      · -- the bytes of a block are there to be read
        rw [dataBlockGet, if_pos hb]
        simp only [hb, not_true, and_false, iff_false]
        intro he
        obtain ⟨bytes, -, he⟩ := Option.map_eq_some_iff.mp he
        have hret := congrArg (fun x => x.1.ret) he
        simp only at hret
        omega
      · rw [dataBlockGet, if_neg hb]
        simp [hn, hb]
    · rw [if_neg hn]
      simp only [show ¬ 0 < n from hn, false_and, iff_false]
      intro he
      have hret := congrArg (fun x => x.1.ret) (Option.some.inj he)
      simp only at hret
      omega
  · have hf : getOpenFileEntry fhandle = none := if_neg hv
    simp [tfsRead, hf, hv]

theorem writeBlock_eq_none (h : Sane s) (inode : Nat) :
    dataBlockGet ((Ex2.writeBlock s inode).inodeTable inode).iDataBlock = none ↔
      (s.inodeTable inode).iSize = 0 ∧ ∀ b < dataBlocks, s.freeBlocks b = .taken := by
  unfold Ex2.writeBlock
  by_cases hz : (s.inodeTable inode).iSize = 0
  · rw [if_pos hz]
    rcases dataBlockAlloc_cases s.toDisk with ⟨b, hb, hfree, ha⟩ | ⟨hfull, ha⟩
    · rw [ha]
      simp only [State.setInode_inodeTable, if_true, dataBlockGet_of_lt hb, reduceCtorEq, false_iff]
      intro hall
      cases hfree.symm.trans (hall.2 b hb)
    · rw [ha]
      simp only [State.setInode_inodeTable, if_true, dataBlockGet_neg_one, true_iff]
      exact ⟨hz, hfull⟩
  · rw [if_neg hz, dataBlockGet, if_pos (h.block inode (by omega))]
    simp [hz]

theorem writeBlock_full {inode : Nat} (hz : (s.inodeTable inode).iSize = 0)
    (hfull : ∀ b < dataBlocks, s.freeBlocks b = .taken) :
    Ex2.writeBlock s inode = s.setInode inode { s.inodeTable inode with iDataBlock := -1 } := by
  rw [Ex2.writeBlock, if_pos hz]
  rcases dataBlockAlloc_cases s.toDisk with ⟨b, hb, hfree, -⟩ | ⟨-, ha⟩
  · cases hfree.symm.trans (hfull b hb)
  · rw [ha]
    rfl

theorem write_fails_iff (h : Sane s) (fhandle : Int) (buffer : List UInt8) :
    tfsWrite s fhandle buffer = some (-1, s) ↔
      ¬ validFileHandle fhandle ∨ WritesNoBlock s fhandle.toNat buffer.length := by
  by_cases hv : validFileHandle fhandle
  · obtain ⟨hf, hi⟩ := h.entry hv
    simp only [hv, not_true, false_or, WritesNoBlock, entryInode]
    unfold tfsWrite
    simp only [hf, hi]
    generalize (s.openFileTable fhandle.toNat).ofInumber.toNat = inode
    generalize toWrite buffer.length (s.openFileTable fhandle.toNat).ofOffset = n
    by_cases hn : n > 0
    · rw [if_pos hn]
      have hnone := h.writeBlock_eq_none inode
      cases hb : dataBlockGet ((Ex2.writeBlock s inode).inodeTable inode).iDataBlock with
      | none =>
        obtain ⟨hz, hfull⟩ := hnone.mp hb
        simp only [writeBlock_full hz hfull, Option.some.injEq, Prod.mk.injEq, true_and]
        constructor
        · intro he
          have hnode := congrFun (congrArg State.inodeTable he) inode
          rw [State.setInode_inodeTable, if_pos rfl] at hnode
          exact ⟨hn, hz, (congrArg Inode.iDataBlock hnode).symm, hfull⟩
        · rintro ⟨-, -, hblock, -⟩
          rw [← hblock]
          simp [State.setInode]
      | some block =>
        -- bytes are stored, or the copy leaves the buffer or the array
        have hsome : ¬ (0 < n ∧ (s.inodeTable inode).iSize = 0 ∧ (s.inodeTable inode).iDataBlock = -1 ∧
            ∀ b < dataBlocks, s.freeBlocks b = .taken) := by
          rintro ⟨-, hz, -, hfull⟩
          cases hb.symm.trans (hnone.mpr ⟨hz, hfull⟩)
        simp only [hsome, iff_false]
        intro he
        split at he
        · cases he
        · obtain ⟨d, -, he⟩ := Option.map_eq_some_iff.mp he
          have hret := congrArg Prod.fst he
          simp only at hret
          omega
    · rw [if_neg hn]
      simp only [show ¬ 0 < n from hn, false_and, iff_false]
      intro he
      have hret := congrArg Prod.fst (Option.some.inj he)
      simp only at hret
      omega
  · have hf : getOpenFileEntry fhandle = none := if_neg hv
    simp [tfsWrite, hf, hv]

end Sane

/-- On a handle that is not open, closing always fails and changes nothing; reading and writing do so exactly when
the handle lies outside the table, or there happens to be no block to copy from or to. -/
theorem closed_handle_fails_iff {s : State} (hs : Reachable s) {fhandle : Int}
    (hno : ¬ s.toOpenFiles.IsOpen fhandle) :
    (∀ len, tfsRead s fhandle len = some (⟨-1, []⟩, s) ↔
      ¬ validFileHandle fhandle ∨ ReadsNoBlock s fhandle.toNat len) ∧
    (∀ buffer, tfsWrite s fhandle buffer = some (-1, s) ↔
      ¬ validFileHandle fhandle ∨ WritesNoBlock s fhandle.toNat buffer.length) ∧
    tfsClose s fhandle = (-1, s) :=
  ⟨hs.sane.read_fails_iff fhandle, hs.sane.write_fails_iff fhandle, tfsClose_of_not hno⟩

theorem closed_handle_fails_outside : tfsRead State.init 20 5 = some (⟨-1, []⟩, State.init) := by
  have hs : Reachable State.init := ⟨[], [], rfl⟩
  have hout : ¬ validFileHandle 20 := by decide
  exact ((closed_handle_fails_iff hs fun h => hout h.1).1 5).mpr (.inl hout)

/-- A write through the closed handle of a new file. -/
theorem closed_handle_writes : ¬ ∀ s : State, Reachable s → ∀ fhandle, ¬ s.toOpenFiles.IsOpen fhandle →
    (∀ len, tfsRead s fhandle len = some (⟨-1, []⟩, s)) ∧
      (∀ buffer, tfsWrite s fhandle buffer = some (-1, s)) ∧ tfsClose s fhandle = (-1, s) := by
  intro hall
  let cs : List Call := [.open (some ⟨[47, 97], by decide⟩) 1, .close 0]
  have hend : (Runs.run State.call State.init cs).map (fun x =>
      (decide (x.2.toOpenFiles.IsOpen 0), (tfsWrite x.2 0 [7]).map Prod.fst)) = some (false, some 1) := by
    decide +kernel
  obtain ⟨x, hx, he⟩ := Option.map_eq_some_iff.mp hend
  have hno : ¬ x.2.toOpenFiles.IsOpen 0 := of_decide_eq_false (congrArg Prod.fst he)
  have hw : (tfsWrite x.2 0 [7]).map Prod.fst = some 1 := congrArg Prod.snd he
  rw [(hall x.2 ⟨cs, x.1, hx⟩ 0 hno).2.1 [7]] at hw
  cases hw

end Tecnicofs.Ex2
