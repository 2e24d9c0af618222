import Tecnicofs.Ex1.Refinement
import Tecnicofs.Ex1.Truncation

namespace Tecnicofs.Ex1

open Bytes

def HandlesAtStart (s : State) (i : Nat) : Prop :=
  ∀ f < maxOpenFiles, s.freeOpenFileEntries f = .taken → s.fileOf f = i → (s.openFileTable f).ofOffset = 0

/-- A file with bytes that is truncated has no indirect block, and its handles are at its start. -/
def TruncatesAtStart (s : State) (name : Option CString) : Prop :=
  ∀ i < inodeTableSize, lookup s name = (i : Nat) → (s.inodeTable i).iSize > 0 →
    (s.inodeTable i).iDataBlock indirectAccessBlock = -1 ∧ HandlesAtStart s i

/-- Like `SucceedsUntruncated`, with truncations. -/
def SucceedsTruncatingAtStart (s : State) : Call → Prop
  | .open name flags => (∀ p ∈ name, Fits p) ∧ (hasFlag flags tfsOTrunc = true → TruncatesAtStart s name)
  | .close fhandle => s.toOpenFiles.IsOpen fhandle
  | .write fhandle buffer => s.toOpenFiles.IsOpen fhandle ∧ (body (.write fhandle buffer)).Assumes Label.Succeeds s
  | .read fhandle _ => s.toOpenFiles.IsOpen fhandle

instance (s : State) (i : Nat) : Decidable (HandlesAtStart s i) :=
  inferInstanceAs (Decidable (∀ f < _, _ → _ → _))

instance (s : State) (name : Option CString) : Decidable (TruncatesAtStart s name) :=
  inferInstanceAs (Decidable (∀ i < _, _ → _ → _ ∧ HandlesAtStart s i))

instance (s : State) : ∀ c, Decidable (SucceedsTruncatingAtStart s c)
  | .open _ _ => inferInstanceAs (Decidable (_ ∧ (_ → _)))
  | .close _ => inferInstanceAs (Decidable (s.toOpenFiles.IsOpen _))
  | .write _ _ => inferInstanceAs (Decidable (_ ∧ _))
  | .read _ _ => inferInstanceAs (Decidable (s.toOpenFiles.IsOpen _))

variable {owner : Owner} {s s' : State} {es : List DirEntry} {fs : ByteFs (List UInt8)} {i : Nat}
  {name : Option CString} {flags : Int}

abbrev emptied (s : State) (i m : Nat) : State :=
  (s.freeEntries i 0 m).setInode i { (s.freeEntries i 0 m).inodeTable i with iSize := 0 }

theorem Consistent.run_truncate (h : Consistent owner s) (hi : s.IsFile i) (hsize : (s.inodeTable i).iSize > 0)
    (hlast : (s.inodeTable i).iDataBlock indirectAccessBlock = -1) :
    ∃ m ≤ indirectAccessBlock, (m < indirectAccessBlock → (s.inodeTable i).iDataBlock m = -1) ∧
      (truncate i).run s = some (true, emptied s i m) := by
  rcases freeBlocks_cases i s with ⟨m, hm, -, hend, -, hr⟩ | ⟨-, -, -, ⟨hne, -⟩ | ⟨-, -, k, hk, hne, hbad⟩⟩
  · refine ⟨m, hm, hend, ?_⟩
    simp only [truncate, Prog.run_bind, Prog.run_get, Option.bind_some, if_pos hsize, truncateBlocks, hi.2.2, hr,
      if_true, Prog.run_modify, Prog.run_pure]
  · exact absurd hlast hne
  · -- the entries of a file are blocks of it
    obtain ⟨b, hb, ho⟩ := (h.files i hi).slot (.entry k) (Nat.lt_succ_of_lt hk) hne
    have hb : (s.inodeTable i).iDataBlock k = b := hb
    refine absurd ?_ hbad
    rw [hb]
    exact ⟨Int.natCast_nonneg b, by exact_mod_cast h.lt ho⟩

theorem emptied_inodeTable_of_ne (s : State) {j : Nat} (hj : j ≠ i) (m : Nat) :
    (emptied s i m).inodeTable j = s.inodeTable j := by
  rw [State.setInode_inodeTable, if_neg hj]
  exact Function.update_of_ne hj ..

theorem slot_emptied_of_ne (s : State) {j : Nat} (hj : j ≠ i) (m : Nat) (k : Slot) :
    (emptied s i m).slot j k = s.slot j k := by
  have hsame := emptied_inodeTable_of_ne s hj m
  cases k with
  | entry k => exact congrArg (fun x : Inode => x.iDataBlock k) hsame
  | indirect k => rw [State.slot, State.slot, hsame]; rfl

namespace Settled

theorem truncated (h : Settled owner s) (hi : s.IsFile i) (hsize : (s.inodeTable i).iSize > 0)
    (hlast : (s.inodeTable i).iDataBlock indirectAccessBlock = -1)
    (hstart : HandlesAtStart s i) :
    ∃ s' owner', (truncate i).run s = some (true, s') ∧ Settled owner' s' ∧ Kept s s' ∧
      s'.toOpenFiles = s.toOpenFiles ∧ (s'.inodeTable i).iSize = 0 ∧
      ∀ j, j ≠ i → s.IsFile j → s'.bytesOf j = s.bytesOf j := by
  obtain ⟨m, -, -, hr⟩ := h.toConsistent.run_truncate hi hsize hlast
  obtain ⟨hk, owner', h'⟩ := ensures_truncate h.toConsistent hi (fun _ => hlast) true _ hr
  have hsize' : ((emptied s i m).inodeTable i).iSize = 0 := by rw [State.setInode_inodeTable, if_pos rfl]
  refine ⟨_, owner', hr, ?_, hk, rfl, hsize', fun j hj hfile => ?_⟩
  · exact { h' with
      allocated := fun j hj k hlt => by
        by_cases hji : j = i
        · rw [hji, hsize'] at hlt
          exact absurd hlt (Nat.not_lt_zero _)
        · rw [emptied_inodeTable_of_ne s hji] at hlt
          rw [slot_emptied_of_ne s hji]
          exact h.allocated j (hk.isFile.mp hj) k hlt
      short := fun j hj => by
        by_cases hji : j = i
        · rw [hji, hsize']
          exact Nat.zero_le _
        · rw [emptied_inodeTable_of_ne s hji]
          exact h.short j (hk.isFile.mp hj)
      offsets := fun f hf ht => by
        by_cases hji : s.fileOf f = i
        · exact (hstart f hf ht hji).le.trans (Nat.zero_le _)
        · have hsame : (emptied s i m).inodeTable (s.fileOf f) = s.inodeTable (s.fileOf f) :=
            emptied_inodeTable_of_ne s hji m
          refine (h.offsets f hf ht).trans_eq ?_
          rw [← hsame]
          rfl }
  · exact h.bytesOf_congr hfile (emptied_inodeTable_of_ne s hj m) (fun k _ => slot_emptied_of_ne s hj m _) fun _ _ => rfl

end Settled

theorem run_tfsOpen_truncated {p : CString} (hv : validPathname (some p) = true)
    (hl : lookup s (some p) = (i : Nat)) (hi : i < inodeTableSize) (ht : hasFlag flags tfsOTrunc = true)
    (hr : (truncate i).run s = some (true, s')) :
    (tfsOpen (some p) flags).run s =
      some (opened s' i (if hasFlag flags tfsOAppend then (s'.inodeTable i).iSize else 0)) := by
  have hge : (i : Int) ≥ 0 := Int.natCast_nonneg i
  have hlook : (tfsLookup (some p)).run s = some ((i : Int), s) := hl ▸ run_tfsLookup_eq s hv
  simp only [tfsOpen, if_pos hv, mutexLock, wrlock, unlock, Prog.run_bind, Prog.run_acquire, Option.bind_some, hlook,
    if_pos hge, inodeGet_natCast hi, Prog.run_release, openExisting, truncateIf, if_pos ht, hr, Prog.run_pure, if_true,
    Prog.run_get, run_addToOpenFileTable]

theorem run_tfsOpen_cases (h : Consistent owner s) (ht : NoIndirectTrunc s (.open name flags)) :
    (∃ x, (tfsOpen name flags).run s = some x ∧ Opens s name flags x) ∨
      ∃ i m, s.IsFile i ∧ lookup s name = (i : Nat) ∧ (s.inodeTable i).iDataBlock indirectAccessBlock = -1 ∧
        m ≤ indirectAccessBlock ∧ (m < indirectAccessBlock → (s.inodeTable i).iDataBlock m = -1) ∧
        Kept s (emptied s i m) ∧ (tfsOpen name flags).run s = some (opened (emptied s i m) i 0) := by
  by_cases hno : TruncatesNoBytes s (.open name flags)
  · exact .inl (run_tfsOpen h hno)
  · refine .inr ?_
    simp only [TruncatesNoBytes, not_forall] at hno
    obtain ⟨hf, i, hi, hl, hsize⟩ := hno
    have hv : validPathname name = true := by
      by_contra hv
      rw [lookup_of_not_valid hv] at hl
      omega
    cases name with
    | none => cases hv
    | some p =>
      obtain ⟨j, he, hj⟩ := (h.findDirEntry p.tail).resolve_left fun he => by
        rw [lookup_eq h.dirBlock hv, he] at hl
        omega
      obtain rfl : j = i := by
        rw [lookup_eq h.dirBlock hv, he] at hl
        omega
      have hpos : (s.inodeTable j).iSize > 0 := Nat.pos_of_ne_zero hsize
      have hlast := ht hf j hi hl hpos
      obtain ⟨m, hm, hend, hr⟩ := h.run_truncate hj hpos hlast
      refine ⟨j, m, hj, hl, hlast, hm, hend, (ensures_truncate h hj (fun _ => hlast) true _ hr).kept, ?_⟩
      have hrun := run_tfsOpen_truncated hv hl hi hf hr
      have hz : ((emptied s j m).inodeTable j).iSize = 0 := by rw [State.setInode_inodeTable, if_pos rfl]
      rwa [hz, ite_self] at hrun

namespace Simulates

theorem truncate (r : Simulates es owner s fs) (hi : i < es.length)
    (hlast : (s.inodeTable (i + 1)).iSize > 0 →
      (s.inodeTable (i + 1)).iDataBlock indirectAccessBlock = -1 ∧ HandlesAtStart s (i + 1)) :
    ∃ s' owner', (Ex1.truncate (i + 1)).run s = some (true, s') ∧ (s'.inodeTable (i + 1)).iSize = 0 ∧
      Simulates es owner' s' (fs.setContents es[i].name []) := by
  by_cases hsize : (s.inodeTable (i + 1)).iSize > 0
  · obtain ⟨hno, hstart⟩ := hlast hsize
    obtain ⟨s', owner', hr, hset, hk, hfiles, hz, hother⟩ := r.settled.truncated (r.isFile hi) hsize hno hstart
    have hempty : s'.bytesOf (i + 1) = [] := List.length_eq_zero_iff.mp (by rw [length_bytesOf, hz])
    refine ⟨s', owner', hr, hz, hset, r.listed.keep hk, ?_⟩
    have hsame : ∀ k < es.length, k ≠ i → s'.bytesOf (k + 1) = s.bytesOf (k + 1) :=
      fun k hk hne => hother (k + 1) (by omega) (r.isFile hk)
    have hrep := r.represents.setContents hi hsame fun f hf ht hin => ?_
    · rwa [hempty, ← hfiles] at hrep
    · have hfile : s.fileOf f = i + 1 := by rw [State.fileOf, hin]; rfl
      rw [hstart f hf ht hfile]
      exact Nat.zero_le _
  · have hrun : (Ex1.truncate (i + 1)).run s = some (true, s) := by
      simp only [Ex1.truncate, Prog.run_bind, Prog.run_get, Option.bind_some, if_neg hsize, Prog.run_pure]
    have hempty : fs.contents es[i].name = [] := by
      rw [r.represents.contents i hi]
      exact List.length_eq_zero_iff.mp (by rw [length_bytesOf]; omega)
    rw [← hempty, ByteFs.setContents_self]
    exact ⟨s, owner, hrun, by omega, r⟩

theorem openTruncated (r : Simulates es owner s fs) {p : CString} (ht : hasFlag flags tfsOTrunc = true)
    (hv : validPathname (some p) = true) (hl : lookup s (some p) = (i : Nat)) (hi : s.IsFile i)
    (hstart : TruncatesAtStart s (some p)) :
    ∃ x fs' owner', (tfsOpen (some p) flags).run s = some x ∧
      fs.openFile limits (fileName (some p)) (hasFlag flags tfsOCreat) (hasFlag flags tfsOTrunc)
        (hasFlag flags tfsOAppend) = (x.1, fs') ∧ Simulates es owner' x.2 fs' := by
  obtain ⟨k, hk, hn, rfl⟩ := r.found hv hl
  obtain ⟨s₁, owner₁, hr, hz, h₁⟩ := r.truncate hk (hstart (k + 1) hi.1 hl)
  have hmem : es[k].name ∈ fs.names := r.represents.mem_names.mpr ⟨_, List.getElem_mem hk, rfl⟩
  obtain ⟨hret, h₂⟩ := h₁.openHandle hk (Nat.zero_le _)
  have hrun := run_tfsOpen_truncated hv hl hi.1 ht hr
  rw [hz, ite_self] at hrun
  refine ⟨_, _, owner₁, hrun, ?_, h₂⟩
  rw [fileName_of_valid hv, ← hn, ht, ByteFs.openFile_trunc _ hmem]
  exact Prod.ext hret.symm rfl

theorem openTruncating (r : Simulates es owner s fs) (hfits : ∀ p ∈ name, Fits p)
    (ht : hasFlag flags tfsOTrunc = true → TruncatesAtStart s name) :
    ∃ x fs', (tfsOpen name flags).run s = some x ∧
      fs.openFile limits (fileName name) (hasFlag flags tfsOCreat) (hasFlag flags tfsOTrunc)
        (hasFlag flags tfsOAppend) = (x.1, fs') ∧ ∃ es' owner', Simulates es' owner' x.2 fs' := by
  by_cases hfound : hasFlag flags tfsOTrunc = true ∧ lookup s name ≠ -1
  · obtain ⟨hf, hne⟩ := hfound
    have hv : validPathname name = true := by
      by_contra hv
      exact hne (lookup_of_not_valid hv)
    cases name with
    | none => cases hv
    | some p =>
      have hlook := lookup_eq r.settled.dirBlock hv
      obtain ⟨i, he, hi⟩ := (r.settled.findDirEntry p.tail).resolve_left fun he => hne (hlook.trans he)
      obtain ⟨x, fs', owner', hrun, hspec, h'⟩ := r.openTruncated hf hv (hlook.trans he) hi (ht hf)
      exact ⟨x, fs', hrun, hspec, es, owner', h'⟩
  · have hno : hasFlag flags tfsOTrunc = true → lookup s name = -1 := fun hf => by
      by_contra hne
      exact hfound ⟨hf, hne⟩
    have hnothing : TruncatesNoBytes s (.open name flags) := fun hf i _ hl => by
      rw [hno hf] at hl
      omega
    obtain ⟨x, hr, ho⟩ := run_tfsOpen r.settled.toConsistent hnothing
    obtain ⟨fs', es', hspec, h'⟩ := r.opened hfits hno ho
    exact ⟨x, fs', hr, hspec, es', owner, h'⟩

theorem callTruncating (r : Simulates es owner s fs) {c : Call} (hc : SucceedsTruncatingAtStart s c) :
    ∃ o s' fs', s.call c = some (o, s') ∧ fs.call limits c = some (o, fs') ∧ ∃ es' owner', Simulates es' owner' s' fs' := by
  cases c with
  | «open» name flags =>
    obtain ⟨x, fs', hr, hspec, h'⟩ := r.openTruncating hc.1 hc.2
    exact ⟨⟨x.1, []⟩, x.2, fs', by rw [call_open, hr]; rfl, by simp only [ByteFs.call, hspec], h'⟩
  | close fhandle => exact r.call (c := .close fhandle) hc
  | write fhandle buffer => exact r.call (c := .write fhandle buffer) hc
  | read fhandle len => exact r.call (c := .read fhandle len) hc

end Simulates

/-- What `tfs_init` leaves of any memory. -/
def initialised (s : State) : State :=
  { stateInit s with
    fsData := clearDirEntries s.fsData 0
    freeBlocks := Function.update (fun _ => .free) 0 .taken
    inodeTable := Function.update s.inodeTable 0 ({ s.inodeTable 0 with
      iNodeType := .directory, iSize := blockSize }.setBlock 0 0)
    freeinodeTs := Function.update (fun _ => .free) 0 .taken }

theorem tfsInit_eq (s : State) : tfsInit s = some (0, initialised s) := by
  have hinode : firstFree (stateInit s).freeinodeTs inodeTableSize = some 0 := firstFree_zero (by decide) rfl
  have hblock : firstFree (stateInit s).toDisk.freeBlocks dataBlocks = some 0 := firstFree_zero (by decide) rfl
  have hdir := run_initDirectory (s := ((stateInit s).setInodeState 0 .taken).setInode 0
    { (stateInit s).inodeTable 0 with iNodeType := .directory }) hblock 0
  simp only [tfsInit, inodeCreate, mutexLock, unlock, Prog.run_bind, Prog.run_acquire, Prog.run_atomic, hinode,
    Option.bind_some, hdir, if_true, Prog.run_release, Prog.run_pure, Option.map_some]
  simp [State.setInode, State.setInodeState, State.setDisk, Inode.setBlock, stateInit, Disk.take, initialised, rootDirInum]

theorem not_isFile_initialised (s : State) (i : Nat) : ¬ (initialised s).IsFile i := by
  rintro ⟨-, ht, hf⟩
  by_cases h : i = 0
  · subst h
    cases hf
  · simp [initialised, h] at ht

theorem initialised_simulates (s : State) :
    Simulates [] (fun b => if b = 0 then some 0 else none) (initialised s) .empty where
  settled := {
    taken := fun b i hb => by
      by_cases h : b = 0
      · simp [h, initialised]
      · simp [h] at hb
    ownerRoot := rfl
    rootType := rfl
    rootBlock := rfl
    rootTaken := rfl
    files := fun i hi => absurd hi (not_isFile_initialised s i)
    entries := fun k hk => .inl (dInumber_foldl_setDInumber _ _ hk)
    handles := fun _ _ ht => by cases ht
    allocated := fun i hi => absurd hi (not_isFile_initialised s i)
    short := fun i hi => absurd hi (not_isFile_initialised s i)
    offsets := fun _ _ ht => by cases ht }
  listed := {
    dir := dirHolds_clearDirEntries _ _
    inumber := by simp
    rootType := rfl
    rootBlock := rfl
    taken := fun i _ => by simp [initialised, Function.update_apply] }
  represents := .empty fun _ _ => rfl

/-- Whatever the memory held before `tfs_init`, every run of such calls whose locks are granted is answered as the byte
strings answer it. -/
theorem regular_calls_refine (s₀ : State) :
    ∃ s, tfsInit s₀ = some (0, s) ∧ ∀ cs,
      Runs.Along LockedState.call (fun x c => SucceedsTruncatingAtStart x.toState c ∧ x.Grants c) (.ofState s) cs →
      ∃ outs x fs, Runs.run LockedState.call (.ofState s) cs = some (outs, x) ∧
        Runs.run (ByteFs.call limits) .empty cs = some (outs, fs) := by
  refine ⟨_, tfsInit_eq s₀, fun cs ha => ?_⟩
  obtain ⟨ha, hg⟩ := LockedState.along_of_grants ha
  obtain ⟨outs, s', fs, hs, hfs, -⟩ := Runs.run_simulation (R := fun s fs => ∃ es owner, Simulates es owner s fs) id
    (fun s fs c ⟨_, _, r⟩ hc => r.callTruncating hc) ⟨_, _, initialised_simulates s₀⟩ ha
  obtain ⟨x, hx, -⟩ := LockedState.run_of_grants hg hs
  exact ⟨outs, x, fs, hx, by simpa using hfs⟩

/-- A memory full of numbers; a file of two blocks is truncated while a handle is at its start, and written again. -/
theorem regular_calls_refine_truncated :
    let name := some ⟨[47, 97], by decide⟩
    let cs := [.open name tfsOCreat, .write 0 (List.replicate (blockSize + 1) 1), .open name 0, .close 0,
      .open name tfsOTrunc, .write 0 [2, 3], .read 1 10]
    ∃ s, tfsInit ⟨⟨fun _ => 7, fun _ => .taken⟩, ⟨fun _ => ⟨7, 7⟩, fun _ => .taken⟩, fun _ => ⟨.file, 7, fun _ => 7⟩,
        fun _ => .taken⟩ = some (0, s) ∧
      ∃ outs x fs, Runs.run LockedState.call (.ofState s) cs = some (outs, x) ∧
        Runs.run (ByteFs.call limits) .empty cs = some (outs, fs) := by
  intro name cs
  obtain ⟨s, hs, h⟩ := regular_calls_refine ⟨⟨fun _ => 7, fun _ => .taken⟩, ⟨fun _ => ⟨7, 7⟩, fun _ => .taken⟩,
    fun _ => ⟨.file, 7, fun _ => 7⟩, fun _ => .taken⟩
  refine ⟨s, hs, h _ ?_⟩
  cases (tfsInit_eq _).symm.trans hs
  decide +kernel

end Tecnicofs.Ex1
