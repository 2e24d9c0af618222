import Tecnicofs.Ex1.Rwlocks
import Tecnicofs.Ex1.Settled

namespace Tecnicofs.Ex1

open Bytes

def TruncatesNoBytes (s : State) : Call → Prop
  | .open name flags => hasFlag flags tfsOTrunc → ∀ i < inodeTableSize, lookup s name = (i : Nat) →
      (s.inodeTable i).iSize = 0
  | .close _ | .write _ _ | .read _ _ => True

theorem TruncatesNothing.noBytes {s : State} {c : Call} (h : TruncatesNothing s c) : TruncatesNoBytes s c := by
  cases c with
  | «open» name flags =>
    intro ht i _ hl
    rw [h ht] at hl
    omega
  | close fhandle => trivial
  | write fhandle buffer => trivial
  | read fhandle len => trivial

theorem TruncatesNoBytes.noIndirectTrunc {s : State} {c : Call} (h : TruncatesNoBytes s c) : NoIndirectTrunc s c := by
  cases c with
  | «open» name flags => exact fun ht i hi hl hsize => absurd (h ht i hi hl) (Nat.ne_of_gt hsize)
  | close fhandle => trivial
  | write fhandle buffer => trivial
  | read fhandle len => trivial

abbrev opened (s : State) (i o : Nat) : Int × State :=
  ((Tecnicofs.addToOpenFileTable s.toOpenFiles i o).1, s.setFiles (Tecnicofs.addToOpenFileTable s.toOpenFiles i o).2)

inductive Opens (s : State) (name : Option CString) (flags : Int) : Int × State → Prop
  | refused (hl : lookup s name = -1)
      (hc : validPathname name = true → hasFlag flags tfsOCreat = true → firstFree s.freeinodeTs inodeTableSize = none) :
      Opens s name flags (-1, s)
  | existing {i : Nat} (hv : validPathname name = true) (hl : lookup s name = i) (hi : s.IsFile i) :
      Opens s name flags (opened s i (if hasFlag flags tfsOAppend then (s.inodeTable i).iSize else 0))
  | created {p : CString} {i : Nat} {m : Mem} (hp : name = some p) (hv : validPathname name = true)
      (hl : lookup s name = -1) (hc : hasFlag flags tfsOCreat = true)
      (hfree : firstFree s.freeinodeTs inodeTableSize = some i) (hm : fillDirEntry s.fsData 0 i p.tail = some m) :
      Opens s name flags (opened ((newFile s i).setDisk { s.toDisk with fsData := m }) i 0)
  | full {p : CString} {i : Nat} (hp : name = some p) (hv : validPathname name = true) (hl : lookup s name = -1)
      (hc : hasFlag flags tfsOCreat = true) (hfree : firstFree s.freeinodeTs inodeTableSize = some i)
      (hm : fillDirEntry s.fsData 0 i p.tail = none) :
      Opens s name flags (-1, (newFile s i).setInodeState i .free)

variable {owner : Owner} {s s' : State} {i f : Nat} {name : Option CString} {flags : Int} {x : Int × State}

theorem run_tfsOpen_full (h : Consistent owner s) {p : CString} (hv : validPathname (some p) = true)
    (hl : findDirEntry s.fsData 0 p.tail = -1) (hc : hasFlag flags tfsOCreat = true)
    (hfree : firstFree s.freeinodeTs inodeTableSize = some i) (hi : i ≠ 0)
    (hm : fillDirEntry s.fsData 0 i p.tail = none) :
    (tfsOpen (some p) flags).run s = some (-1, (newFile s i).setInodeState i .free) := by
  have hlt : ¬ (-1 : Int) ≥ 0 := by omega
  have hne : ¬ (i : Int) = -1 := by omega
  have hin := (firstFree_eq_some.mp hfree).1
  have hfile := Consistent.isFile_newFile (s := s) hin
  have hadd := run_addDirEntry (dirBlock_newFile h.dirBlock hi) (validInumber_natCast hin) (strlen_tail_ne_zero hv)
  have hdel := run_inodeDelete hin hfile.2.1 hfile.2.2 (by simp [newFile, State.setInode_inodeTable])
  rw [show (newFile s i).fsData = s.fsData from rfl, hm] at hadd
  simp only [tfsOpen, if_pos hv, mutexLock, unlock, Prog.run_bind, Prog.run_acquire, Option.bind_some,
    run_tfsLookup h.dirBlock hv, hl, if_neg hlt, hc, if_true, Prog.run_release, run_inodeCreate_some hfree, if_neg hne,
    hadd, hdel, Prog.run_pure]

theorem run_tfsOpen_refused (h : Consistent owner s) {p : CString} (hv : validPathname (some p) = true)
    (hl : findDirEntry s.fsData 0 p.tail = -1)
    (hc : hasFlag flags tfsOCreat = true → firstFree s.freeinodeTs inodeTableSize = none) :
    (tfsOpen (some p) flags).run s = some (-1, s) := by
  have hlt : ¬ (-1 : Int) ≥ 0 := by omega
  simp only [tfsOpen, if_pos hv, mutexLock, unlock, Prog.run_bind, Prog.run_acquire, Option.bind_some,
    run_tfsLookup h.dirBlock hv, hl, if_neg hlt]
  by_cases hcreat : hasFlag flags tfsOCreat = true
  · simp only [if_pos hcreat, Prog.run_bind, Prog.run_release, Option.bind_some, run_inodeCreate_none (hc hcreat),
      if_true, Prog.run_pure]
  · simp only [if_neg hcreat, Prog.run_bind, Prog.run_release, Option.bind_some, Prog.run_pure]

theorem run_tfsOpen (h : Consistent owner s) (ht : TruncatesNoBytes s (.open name flags)) :
    ∃ x, (tfsOpen name flags).run s = some x ∧ Opens s name flags x := by
  by_cases hv : validPathname name = true
  · cases name with
    | none => cases hv
    | some p =>
      have hlook := lookup_eq h.dirBlock hv
      rcases h.findDirEntry p.tail with he | ⟨i, he, hi⟩
      · rw [he] at hlook
        cases hfree : firstFree s.freeinodeTs inodeTableSize with
        | none => exact ⟨_, run_tfsOpen_refused h hv he fun _ => hfree, .refused hlook fun _ _ => hfree⟩
        | some i =>
          by_cases hc : hasFlag flags tfsOCreat = true
          · have hi : i ≠ 0 := by
              rintro rfl
              cases (firstFree_eq_some.mp hfree).2.1.symm.trans h.rootTaken
            cases hm : fillDirEntry s.fsData 0 i p.tail with
            | none => exact ⟨_, run_tfsOpen_full h hv he hc hfree hi hm, .full rfl hv hlook hc hfree hm⟩
            | some m =>
              refine ⟨_, ?_, .created rfl hv hlook hc hfree hm⟩
              rw [run_tfsOpen_new h.dirBlock hv he hc hfree hi hm, run_addToOpenFileTable]
          · exact ⟨_, run_tfsOpen_refused h hv he fun hc' => absurd hc' hc, .refused hlook fun _ hc' => absurd hc' hc⟩
      · rw [he] at hlook
        refine ⟨_, ?_, .existing hv hlook hi⟩
        rw [run_tfsOpen_existing h.dirBlock hv he hi.1 fun hf => ht hf i hi.1 hlook, run_addToOpenFileTable]
  · refine ⟨(-1, s), ?_, .refused (lookup_of_not_valid hv) fun hv' => absurd hv' hv⟩
    cases name with
    | none => rfl
    | some p =>
      rw [tfsOpen, if_neg hv]
      rfl

namespace Settled

theorem setFiles (h : Settled owner s) {t : OpenFiles} (hc : Consistent owner (s.setFiles t))
    (ho : ∀ f < maxOpenFiles, t.freeOpenFileEntries f = .taken →
      (t.openFileTable f).ofOffset ≤ (s.inodeTable (t.openFileTable f).ofInumber.toNat).iSize) :
    Settled owner (s.setFiles t) :=
  { hc with
    allocated := fun i hi k hk => by
      have hs := h.allocated i hi k hk
      cases hd : dataSlot k <;> rwa [hd] at hs
    short := h.short
    offsets := ho }

theorem opened (h : Settled owner s) (hi : s.IsFile i) {o : Nat} (ho : o ≤ (s.inodeTable i).iSize) :
    Settled owner (opened s i o).2 := by
  refine h.setFiles (h.toConsistent.openHandle hi o) fun f hf ht => ?_
  unfold Tecnicofs.addToOpenFileTable at ht ⊢
  split at ht
  · next g _ =>
    simp only [OpenFiles.setEntry_free, OpenFiles.take_free, OpenFiles.setEntry_table] at ht ⊢
    by_cases hfg : f = g
    · rw [if_pos hfg]
      exact ho
    · rw [if_neg hfg] at ht ⊢
      exact h.offsets f hf ht
  · exact h.offsets f hf ht

theorem close (h : Settled owner s) (fhandle : Int) :
    Settled owner (s.setFiles (Tecnicofs.removeFromOpenFileTable s.toOpenFiles fhandle).2) := by
  refine h.setFiles (h.toConsistent.close fhandle) fun f hf ht => ?_
  unfold Tecnicofs.removeFromOpenFileTable at ht ⊢
  split at ht
  · next hc =>
    rw [if_pos hc]
    exact h.offsets f hf ht
  · next hc =>
    rw [if_neg hc]
    rw [OpenFiles.release_free] at ht
    split at ht
    · cases ht
    · exact h.offsets f hf ht

theorem of_files (h : Settled owner s) (hc : Consistent owner s') (hf : s'.toOpenFiles = s.toOpenFiles)
    (hold : ∀ i, s.IsFile i → s'.inodeTable i = s.inodeTable i ∧
      ∀ k, (dataSlot k).Exists → s'.slot i (dataSlot k) = s.slot i (dataSlot k))
    (hnew : ∀ i, s'.IsFile i → ¬ s.IsFile i → (s'.inodeTable i).iSize = 0) : Settled owner s' :=
  { hc with
    allocated := fun i hi k hk => by
      by_cases hi₀ : s.IsFile i
      · obtain ⟨hn, hs⟩ := hold i hi₀
        rw [hn] at hk
        rw [hs k (dataSlot_exists (lt_of_lt_of_le hk (h.short i hi₀)))]
        exact h.allocated i hi₀ k hk
      · rw [hnew i hi hi₀] at hk
        exact absurd hk (Nat.not_lt_zero _)
    short := fun i hi => by
      by_cases hi₀ : s.IsFile i
      · rw [(hold i hi₀).1]
        exact h.short i hi₀
      · rw [hnew i hi hi₀]
        exact Nat.zero_le _
    offsets := fun f hlt ht => by
      rw [hf] at ht
      obtain ⟨i, hon⟩ := h.onFile hlt ht
      have hle := h.offsets f hlt ht
      rw [State.fileOf, hf, (hold _ (by rw [← State.fileOf, hon.fileOf]; exact hon.isFile)).1]
      exact hle }

theorem newFile_of_isFile (hfree : s.freeinodeTs i = .free) {j : Nat} (hj : s.IsFile j) :
    (newFile s i).inodeTable j = s.inodeTable j ∧
      ∀ k, (dataSlot k).Exists → (newFile s i).slot j (dataSlot k) = s.slot j (dataSlot k) := by
  have hne : j ≠ i := by
    rintro rfl
    cases hfree.symm.trans hj.2.1
  refine ⟨Consistent.newFile_inodeTable_of_ne hne, fun k _ => (slot_setInode_of_ne hne _ _).trans ?_⟩
  cases dataSlot k <;> rfl

theorem create (h : Settled owner s) (hfree : s.freeinodeTs i = .free) : Settled owner (newFile s i) := by
  refine h.of_files (h.toConsistent.create hfree) rfl (fun j hj => newFile_of_isFile hfree hj) fun j hj hj₀ => ?_
  by_cases hji : j = i
  · simp [newFile, State.setInode_inodeTable, hji]
  · exact absurd ((Consistent.isFile_newFile_of_ne hji).mp hj) hj₀

theorem deleteNew (h : Settled owner s) (hi : i < inodeTableSize) (hfree : s.freeinodeTs i = .free) :
    Settled owner ((newFile s i).setInodeState i .free) := by
  refine h.of_files (h.toConsistent.deleteNew hi hfree) rfl (fun j hj => newFile_of_isFile hfree hj) fun j hj hj₀ => ?_
  have hji : j ≠ i := by
    rintro rfl
    have ht := hj.2.1
    rw [State.setInodeState_freeinodeTs, if_pos rfl] at ht
    cases ht
  refine absurd ((Consistent.isFile_newFile_of_ne hji).mp ⟨hj.1, ?_, hj.2.2⟩) hj₀
  have ht := hj.2.1
  rwa [State.setInodeState_freeinodeTs, if_neg hji] at ht

theorem addEntry (h : Settled owner s) (hi : s.IsFile i) {subName : CString} {m : Mem}
    (hm : fillDirEntry s.fsData 0 i subName = some m) :
    Settled owner (s.setDisk { s.toDisk with fsData := m }) :=
  h.of_files (h.toConsistent.addEntry hi hm) rfl
    (fun _ hj => ⟨rfl, fun _ hk => h.toConsistent.slot_addEntry hi hm hj hk⟩) fun _ hj hj₀ => absurd hj hj₀

theorem init : Settled (fun b => if b = 0 then some 0 else none) State.init :=
  { Consistent.init with
    allocated := fun i hi => absurd hi (Consistent.not_isFile_init i)
    short := fun i hi => absurd hi (Consistent.not_isFile_init i)
    offsets := fun f _ ht => by
      rw [State.init_eq] at ht
      cases ht }

theorem opens (h : Settled owner s) (ho : Opens s name flags x) : Settled owner x.2 := by
  cases ho with
  | refused hl hc => exact h
  | existing hv hl hi =>
    refine h.opened hi ?_
    split
    · exact le_rfl
    · exact Nat.zero_le _
  | @created p i m hp hv hl hc hfree hm =>
    obtain ⟨hi, hf, -⟩ := firstFree_eq_some.mp hfree
    exact ((h.create hf).addEntry (Consistent.isFile_newFile hi) hm).opened (Consistent.isFile_newFile hi) (Nat.zero_le _)
  | @full p i hp hv hl hc hfree hm =>
    obtain ⟨hi, hf, -⟩ := firstFree_eq_some.mp hfree
    exact h.deleteNew hi hf

end Settled

end Tecnicofs.Ex1
