import Tecnicofs.Ex2.Allocation

namespace Tecnicofs.Ex2

open Bytes

/-- Open handles stand inside their files, and files inside a block. -/
def InRange (s : State) : Prop :=
  ∀ file < maxOpenFiles, s.freeOpenFileEntries file = .taken →
    (s.openFileTable file).ofOffset ≤ (entryInode s file).iSize ∧ (entryInode s file).iSize ≤ blockSize

def SizedCall : Call → Prop
  | .write _ buffer => buffer.length < 2 ^ 64
  | .read _ len => len < 2 ^ 64
  | .open _ _ | .close _ => True

/-- A file is truncated only while the handles on it, if any, are at its start; and a length and an offset that are
added do not come to `2 ^ 64`. -/
def KeepsRange (s : State) : Call → Prop
  | .open name flags => hasFlag flags tfsOTrunc → ∀ file < maxOpenFiles, s.freeOpenFileEntries file = .taken →
      (s.openFileTable file).ofInumber = tfsLookupUnsynchronized s name → (s.openFileTable file).ofOffset = 0
  | .write fhandle buffer => buffer.length + (s.openFileTable fhandle.toNat).ofOffset < 2 ^ 64
  | .read _ _ | .close _ => True

/-- The unsigned expressions have the values that they have for integers. -/
def NoWrap (s : State) : Call → Prop
  | .read fhandle _ =>
    let offset := (s.openFileTable fhandle.toNat).ofOffset
    let iSize := (entryInode s fhandle.toNat).iSize
    (szSub iSize offset : Int) = iSize - offset
  | .write fhandle buffer =>
    let offset := (s.openFileTable fhandle.toNat).ofOffset
    (szAdd buffer.length offset : Int) = buffer.length + offset ∧ (szSub blockSize offset : Int) = blockSize - offset
  | .open _ _ | .close _ => True

structure OwnBlock (s : State) (j b : Nat) : Prop where
  lt : b < dataBlocks
  taken : s.freeBlocks b = .taken
  block : (s.inodeTable j).iDataBlock = b
  alone : ∀ k < inodeTableSize, s.freeinodeTs k = .taken → 0 < (s.inodeTable k).iSize →
    (s.inodeTable k).iDataBlock = b → k = j

/-- The bytes that a transfer copies lie in the block of the handle's file, and a write changes no others. -/
def StaysInside (s : State) : Call → Prop
  | .read fhandle len => ∃ out s', s.call (.read fhandle len) = some (out, s') ∧
      (0 < out.ret → ∃ b, OwnBlock s (s.openFileTable fhandle.toNat).ofInumber.toNat b ∧
        (s.openFileTable fhandle.toNat).ofOffset + out.ret ≤ blockSize)
  | .write fhandle buffer => ∃ out s', s.call (.write fhandle buffer) = some (out, s') ∧
      (0 < out.ret → ∃ b, OwnBlock s' (s.openFileTable fhandle.toNat).ofInumber.toNat b ∧
        (s.openFileTable fhandle.toNat).ofOffset + out.ret ≤ blockSize ∧
        ∀ x : Nat, x < b * blockSize + (s.openFileTable fhandle.toNat).ofOffset ∨
          b * blockSize + (s.openFileTable fhandle.toNat).ofOffset + out.ret ≤ x → s'.fsData x = s.fsData x)
  | .open _ _ | .close _ => True

theorem Wf.ownBlock {es : List DirEntry} {s : State} (w : Wf es s) {j : Nat} (h0 : 0 < j) (hj : j ≤ es.length)
    (hs : 0 < (s.inodeTable j).iSize) : ∃ b, OwnBlock s j b := by
  obtain ⟨b, -, hb, hjb, ht⟩ := w.file_block h0 hj hs
  refine ⟨b, hb, ht, hjb, fun k hk hkt hks hkb => ?_⟩
  exact w.distinct k ((w.inode k hk).mp hkt) j hj hks hs (hkb.trans hjb.symm)

namespace InRange

variable {es : List DirEntry} {s : State} {j : Nat}

theorem init : InRange State.init := by
  intro file _ ht
  rw [State.init_eq] at ht
  simp [State.zero] at ht

theorem openFiles (r : InRange s) (n : Int) : InRange { s with openFiles := n } := r

theorem setDisk (r : InRange s) (d : Disk) : InRange (s.setDisk d) := r

theorem setInodeState (r : InRange s) (i : Nat) (a : AllocationState) : InRange (s.setInodeState i a) := r

theorem setInode (r : InRange s) {x : Inode} (hx : x.iSize ≤ blockSize)
    (h : ∀ file < maxOpenFiles, s.freeOpenFileEntries file = .taken → (s.openFileTable file).ofInumber.toNat = j →
      (s.openFileTable file).ofOffset ≤ x.iSize) : InRange (s.setInode j x) := by
  intro file hf ht
  rw [entryInode, State.setInode_inodeTable]
  split
  · next he => exact ⟨h file hf ht he, hx⟩
  · exact r file hf ht

theorem openHandle (r : InRange s) {inum : Int} {offset : Nat} (ho : offset ≤ (s.inodeTable inum.toNat).iSize)
    (hs : (s.inodeTable inum.toNat).iSize ≤ blockSize) : InRange (openHandle s inum offset).2 := by
  unfold Ex2.openHandle addToOpenFileTable
  cases hf : firstFree s.freeOpenFileEntries maxOpenFiles with
  | none => exact r
  | some i =>
    intro file hlt ht
    simp only [entryInode, State.setFiles_toOpenFiles, State.setFiles_inodeTable, OpenFiles.setEntry_table,
      OpenFiles.setEntry_free, OpenFiles.take_free, OpenFiles.take_table] at ht ⊢
    by_cases he : file = i
    · simp only [if_pos he]
      exact ⟨ho, hs⟩
    · simp only [if_neg he] at ht ⊢
      exact r file hlt ht

theorem close (r : InRange s) (fhandle : Int) : InRange (tfsClose s fhandle).2 := by
  by_cases ho : s.toOpenFiles.IsOpen fhandle
  · rw [tfsClose_of_isOpen ho]
    intro file hf ht
    simp only [State.setFiles_toOpenFiles, OpenFiles.release_free] at ht
    split at ht
    · cases ht
    · exact r file hf ht
  · rw [tfsClose_of_not ho]
    exact r

theorem openedState (r : InRange s) (w : Wf es s) (h0 : 0 < j) (hj : j ≤ es.length) {flags : Int}
    (h : hasFlag flags tfsOTrunc → ∀ file < maxOpenFiles, s.freeOpenFileEntries file = .taken →
      (s.openFileTable file).ofInumber = j → (s.openFileTable file).ofOffset = 0) :
    InRange (openedState s j flags) := by
  unfold Ex2.openedState
  split
  · next ht =>
    rcases w.truncate_eq h0 hj with ⟨he, -⟩ | ⟨b, -, -, -, -, he⟩
    · rw [he]
      exact r
    · rw [he]
      refine (r.setDisk _).setInode (Nat.zero_le _) fun file hf htk hin => ?_
      obtain ⟨k, -, -, hk⟩ := w.handle file hf htk
      have hkj : k = j := by
        have hin' : (s.openFileTable file).ofInumber.toNat = j := hin
        omega
      exact (h ht file hf htk (by rw [hk, hkj])).le
  · exact r

theorem newFile (r : InRange s) (w : Wf es s) : InRange (newFile s (es.length + 1)) := by
  refine (r.setInodeState _ _).setInode (Nat.zero_le _) fun file hf ht hin => ?_
  obtain ⟨k, -, hk, hin'⟩ := w.handle file hf ht
  have hfree : (s.openFileTable file).ofInumber.toNat = es.length + 1 := hin
  omega

theorem opened (r : InRange s) (w : Wf es s) {name : Option CString} {flags : Int} (hk : KeepsRange s (.open name flags))
    {es' : List DirEntry} {x : Int × State} (ho : Opened es s name flags es' x) : InRange x.2 := by
  cases ho with
  | @existing _ i hs hv hi hn hl =>
    have hlook : tfsLookupUnsynchronized s name = (i + 1 : Nat) := by
      rw [w.lookup name, hs]
      simp [hv, hl]
    have hstate : InRange (Ex2.openedState s (i + 1) flags) :=
      r.openedState w (by omega) hi fun ht file hf htk hin => hk ht file hf htk (hin.trans hlook.symm)
    have hw : Wf es (Ex2.openedState s (i + 1) flags) := by
      unfold Ex2.openedState
      split
      · exact (w.truncate (by omega) hi).2
      · exact w
    refine hstate.openHandle ?_ (hw.size _ hi)
    rw [openedOffset]
    split
    · exact le_rfl
    · exact Nat.zero_le _
  | created hs hv hc hlen hroom h hd hm =>
    exact ((r.newFile w).setDisk _).openHandle (Nat.zero_le _) ((w.create hd).size _ (by simp))
  | full =>
    rw [w.inodeDelete_newFile_eq]
    exact (r.newFile w).setInodeState _ _
  | absent => exact r

theorem setOffset (r : InRange s) {file offset : Nat} (ho : offset ≤ (entryInode s file).iSize) :
    InRange (s.setFiles (s.toOpenFiles.setOffset file offset)) := by
  intro k hk ht
  have hsame : (s.toOpenFiles.setOffset file offset).openFileTable k =
      if k = file then { s.openFileTable file with ofOffset := offset } else s.openFileTable k :=
    OpenFiles.setOffset_table ..
  simp only [entryInode, State.setFiles_toOpenFiles, State.setFiles_inodeTable, OpenFiles.setOffset_free, hsame] at ht ⊢
  by_cases he : k = file
  · simp only [if_pos he]
    subst he
    exact ⟨ho, (r k hk ht).2⟩
  · simp only [if_neg he]
    exact r k hk ht

theorem written (r : InRange s) (w : Wf es s) {file b : Nat} (hj : j ≤ es.length)
    (hin : (s.openFileTable file).ofInumber = j) {bytes : List UInt8}
    (hle : (s.openFileTable file).ofOffset + bytes.length ≤ blockSize) : InRange (Ex2.written s file j b bytes) := by
  have hsize := w.size j hj
  intro k hk ht
  have ht' : s.freeOpenFileEntries k = .taken := ht
  have hold := r k hk ht'
  simp only [entryInode] at hold
  rw [entryInode, written_inodeTable, written_toOpenFiles, OpenFiles.setOffset_ofInumber, OpenFiles.setOffset_table]
  by_cases he : (s.openFileTable k).ofInumber.toNat = j
  · rw [if_pos he]
    rw [he] at hold
    refine ⟨?_, max_le hsize hle⟩
    split
    · exact le_max_right _ _
    · exact hold.1.trans (le_max_left _ _)
  · have hkf : k ≠ file := by
      rintro rfl
      exact he (by rw [hin, Int.toNat_natCast])
    rw [if_neg he, if_neg hkf]
    exact hold

theorem read (r : InRange s) (w : Wf es s) {fhandle : Int} (ho : s.toOpenFiles.IsOpen fhandle) (len : Nat) :
    NoWrap s (.read fhandle len) ∧ StaysInside s (.read fhandle len) ∧
      ∀ out s', s.call (.read fhandle len) = some (out, s') → InRange s' := by
  obtain ⟨file, hf, rfl, ht⟩ := ho.exists
  obtain ⟨j, h0, hj, hin⟩ := w.handle file hf ht
  have hrange := r file hf ht
  have hread := w.read_eq hf h0 hj hin (by simpa [entryInode, hin] using hrange.1) len
  simp only [entryInode, hin, Int.toNat_natCast] at hrange
  generalize hdata : ((fileBytes s j).drop (s.openFileTable file).ofOffset).take len = data at hread
  have hlen : (s.openFileTable file).ofOffset + data.length ≤ (s.inodeTable j).iSize := by
    rw [← hdata, List.length_take, List.length_drop, length_fileBytes]
    omega
  refine ⟨?_, ⟨_, _, hread, fun hpos => ?_⟩, fun out s' hc => ?_⟩
  · have hsub := szSub_of_le hrange.1 (by simp only [blockSize] at hrange; omega)
    simp only [NoWrap, entryInode, Int.toNat_natCast, hin, hsub]
    omega
  · obtain ⟨b, hb⟩ := w.ownBlock h0 hj (by simp only at hpos; omega)
    refine ⟨b, ?_, ?_⟩
    · simpa [hin] using hb
    · simp only [Int.toNat_natCast]
      omega
  · cases hc.symm.trans hread
    refine r.setOffset ?_
    simpa [entryInode, hin] using hlen

theorem write (r : InRange s) (w : Wf es s) {fhandle : Int} {buffer : List UInt8}
    (ho : s.toOpenFiles.IsOpen fhandle) (hk : KeepsRange s (.write fhandle buffer)) :
    NoWrap s (.write fhandle buffer) ∧ StaysInside s (.write fhandle buffer) ∧
      ∀ out s', s.call (.write fhandle buffer) = some (out, s') → InRange s' := by
  obtain ⟨file, hf, rfl, ht⟩ := ho.exists
  obtain ⟨j, b, h0, hj, hin, hb, heq⟩ := w.write_eq hf ht buffer
  have hrange := r file hf ht
  simp only [entryInode, hin, Int.toNat_natCast] at hrange
  simp only [KeepsRange, Int.toNat_natCast] at hk
  have hoff := hrange.1.trans hrange.2
  have hcount := toWrite_of_le hk hoff
  have hadd : szAdd buffer.length (s.openFileTable file).ofOffset = _ := szAdd_of_lt hk
  have hsub : szSub blockSize (s.openFileTable file).ofOffset = _ := szSub_of_le hoff (by decide)
  have hwrap : NoWrap s (.write (file : Int) buffer) := by
    simp only [NoWrap, Int.toNat_natCast, hadd, hsub]
    omega
  generalize toWrite buffer.length (s.openFileTable file).ofOffset = n at heq hcount
  have hle : n ≤ buffer.length ∧ (s.openFileTable file).ofOffset + n ≤ blockSize := by omega
  have htake : (buffer.take n).length = n := List.length_take_of_le hle.1
  refine ⟨hwrap, ?_⟩
  rcases Nat.eq_zero_or_pos n with hz | hpos
  · have hcall : s.call (.write file buffer) = some (⟨0, []⟩, s) := by
      simp only [State.call, heq, if_pos hz, Option.map_some]
    refine ⟨⟨_, _, hcall, fun h => absurd h (by simp)⟩, fun out s' hc => ?_⟩
    cases hc.symm.trans hcall
    exact r
  · have hfit : b * blockSize + (s.openFileTable file).ofOffset + n ≤ fsDataSize := by
      have := hb.2.1
      simp only [fsDataSize, blockSize, dataBlocks] at *
      omega
    have hcall : s.call (.write file buffer) = some (⟨n, []⟩, Ex2.written s file j b (buffer.take n)) := by
      simp only [State.call, heq, if_neg hpos.ne', if_pos (And.intro hle.1 hfit), Option.map_some]
    have hw : Wf es (Ex2.written s file j b (buffer.take n)) := w.written h0 hj hb (by omega) (by omega)
    refine ⟨⟨_, _, hcall, fun _ => ⟨b, ?_, ?_, fun x hx => ?_⟩⟩, fun out s' hc => ?_⟩
    · obtain ⟨c, hc⟩ := hw.ownBlock (j := j) h0 hj (by rw [written_inodeTable, if_pos rfl]; simp only; omega)
      have hcb : (c : Int) = b := by
        rw [← hc.block, written_inodeTable, if_pos rfl]
      obtain rfl : c = b := by omega
      simpa [hin] using hc
    · simp only [Int.toNat_natCast]
      omega
    · rw [written_fsData]
      refine Mem.store_of_notMem _ ?_
      simp only [Int.toNat_natCast] at hx
      omega
    · cases hc.symm.trans hcall
      exact r.written w hj hin (by omega)

theorem call (r : InRange s) (w : Wf es s) {c : Call} (ho : OnOpenHandle s c) (hk : KeepsRange s c) {out : Out}
    {s' : State} (hc : s.call c = some (out, s')) : InRange s' := by
  cases c with
  | «open» name flags =>
    obtain ⟨x, hx, he⟩ := Option.map_eq_some_iff.mp hc
    cases he
    unfold tfsOpen at hx
    split at hx
    · cases hx
      exact r
    · obtain ⟨y, hy, rfl⟩ := Option.map_eq_some_iff.mp hx
      obtain ⟨es', hopened⟩ := w.opened hy
      have hr := r.opened w hk hopened
      simp only
      split
      · exact hr.openFiles _
      · exact hr
  | close fhandle =>
    cases hc
    exact r.close fhandle
  | write fhandle buffer => exact (r.write w ho hk).2.2 out s' hc
  | read fhandle len => exact (r.read w ho len).2.2 out s' hc

end InRange

/-- In every state that calls on open handles lead to, if each of them keeps the range, offsets are in range; and so
is the arithmetic of the next transfer, and its copy. -/
theorem transfers_in_range {cs : List Call} {outs : List Out} {s : State}
    (ha : Runs.Along State.call (fun s c => OnOpenHandle s c ∧ SizedCall c ∧ KeepsRange s c) State.init cs)
    (hr : Runs.run State.call State.init cs = some (outs, s)) :
    InRange s ∧ ∀ c, OnOpenHandle s c ∧ SizedCall c ∧ KeepsRange s c → NoWrap s c ∧ StaysInside s c := by
  have hstep : ∀ s c out s', (∃ es, Wf es s ∧ InRange s) → OnOpenHandle s c ∧ SizedCall c ∧ KeepsRange s c →
      s.call c = some (out, s') → True ∧ ∃ es, Wf es s' ∧ InRange s' := by
    rintro s c out s' ⟨es, w, r⟩ ⟨ho, -, hk⟩ hc
    obtain ⟨es', w'⟩ := w.call ho hc
    exact ⟨trivial, es', w', r.call w ho hk hc⟩
  obtain ⟨-, es, w, r⟩ := Runs.run_invariant (P := fun _ => True) hstep ⟨[], .init, .init⟩ ha hr
  refine ⟨r, fun c hc => ?_⟩
  obtain ⟨ho, -, hk⟩ := hc
  cases c with
  | «open» name flags => exact ⟨trivial, trivial⟩
  | close fhandle => exact ⟨trivial, trivial⟩
  | write fhandle buffer =>
    obtain ⟨hwrap, hstays, -⟩ := r.write w ho hk
    exact ⟨hwrap, hstays⟩
  | read fhandle len =>
    obtain ⟨hwrap, hstays, -⟩ := r.read w ho len
    exact ⟨hwrap, hstays⟩

instance : ∀ c, Decidable (SizedCall c)
  | .write _ _ | .read _ _ => inferInstanceAs (Decidable (_ < _))
  | .open _ _ | .close _ => isTrue trivial

instance (s : State) : ∀ c, Decidable (KeepsRange s c)
  | .open name flags => inferInstanceAs (Decidable (hasFlag flags tfsOTrunc = true → ∀ file < maxOpenFiles,
      s.freeOpenFileEntries file = .taken → (s.openFileTable file).ofInumber = tfsLookupUnsynchronized s name →
        (s.openFileTable file).ofOffset = 0))
  | .write _ _ => inferInstanceAs (Decidable (_ < _))
  | .read _ _ | .close _ => isTrue trivial

/-- A file is truncated while two handles on it are at its start. -/
theorem transfers_in_range_truncated : ∃ outs s, Runs.run State.call State.init
    [.open (some ⟨[47, 97], by decide⟩) 1, .write 0 [1, 2, 3], .close 0, .open (some ⟨[47, 97], by decide⟩) 0,
      .open (some ⟨[47, 97], by decide⟩) 2, .write 1 [4]] = some (outs, s) ∧ InRange s := by
  let cs : List Call := [.open (some ⟨[47, 97], by decide⟩) 1, .write 0 [1, 2, 3], .close 0,
    .open (some ⟨[47, 97], by decide⟩) 0, .open (some ⟨[47, 97], by decide⟩) 2, .write 1 [4]]
  have hend : (Runs.run State.call State.init cs).map (fun x => x.1.map Out.ret) = some [0, 3, 0, 0, 1, 1] := by
    decide +kernel
  obtain ⟨x, hx, -⟩ := Option.map_eq_some_iff.mp hend
  exact ⟨x.1, x.2, hx, (transfers_in_range (by decide +kernel) hx).1⟩

/-- A file is truncated under a handle that has moved. -/
theorem offset_beyond_size : ¬ ∀ (cs : List Call) (outs : List Out) (s : State),
    Runs.Along State.call (fun s c => OnOpenHandle s c ∧ SizedCall c) State.init cs →
    Runs.run State.call State.init cs = some (outs, s) →
      InRange s ∧ ∀ c, OnOpenHandle s c ∧ SizedCall c → NoWrap s c ∧ StaysInside s c := by
  intro hall
  let cs : List Call := [.open (some ⟨[47, 97], by decide⟩) 1, .write 0 [1, 2, 3],
    .open (some ⟨[47, 97], by decide⟩) 2]
  have hend : (Runs.run State.call State.init cs).map (fun x => ((x.2.openFileTable 0).ofOffset,
      (entryInode x.2 0).iSize, decide (x.2.freeOpenFileEntries 0 = .taken))) = some (3, 0, true) := by
    decide +kernel
  obtain ⟨x, hx, he⟩ := Option.map_eq_some_iff.mp hend
  have ht : x.2.freeOpenFileEntries 0 = .taken := of_decide_eq_true (congrArg (fun y => y.2.2) he)
  have ho : (x.2.openFileTable 0).ofOffset = 3 := congrArg Prod.fst he
  have hs : (entryInode x.2 0).iSize = 0 := congrArg (fun y => y.2.1) he
  have hrange := ((hall cs x.1 x.2 (by decide +kernel) hx).1 0 (by decide) ht).1
  omega

end Tecnicofs.Ex2
