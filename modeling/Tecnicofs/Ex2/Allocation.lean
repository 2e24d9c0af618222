import Tecnicofs.Ex2.Handles

namespace Tecnicofs.Ex2

open Bytes

def OnOpenHandle (s : State) : Call → Prop
  | .open _ _ => True
  | .close fhandle | .write fhandle _ | .read fhandle _ => s.toOpenFiles.IsOpen fhandle

instance (s : State) : ∀ c, Decidable (OnOpenHandle s c)
  | .open _ _ => inferInstanceAs (Decidable True)
  | .close _ | .write _ _ | .read _ _ => inferInstanceAs (Decidable (s.toOpenFiles.IsOpen _))

def rootEntry (s : State) (i : Nat) : Int :=
  dInumber s.fsData ((s.inodeTable rootDirInum.toNat).iDataBlock.toNat * blockSize) i

def Lists (s : State) (i j : Nat) : Prop := i < maxDirEntries ∧ rootEntry s i = j

structure Stores (s : State) (b j : Nat) : Prop where
  lt : j < inodeTableSize
  taken : s.freeinodeTs j = .taken
  type : (s.inodeTable j).iNodeType = .file
  size : 0 < (s.inodeTable j).iSize
  block : (s.inodeTable j).iDataBlock = b

/-- The allocation tables hold what the directory and the i-nodes say, and nothing else. -/
structure Accounted (s : State) : Prop where
  entry : ∀ i < maxDirEntries, rootEntry s i ≠ -1 → ∃ j, 0 < j ∧ j < inodeTableSize ∧ Lists s i j
  inode : ∀ j < inodeTableSize, s.freeinodeTs j = .taken ↔ j = 0 ∨ ∃ i, Lists s i j
  once : ∀ i k j, Lists s i j → Lists s k j → i = k
  block : ∀ b < dataBlocks, s.freeBlocks b = .taken ↔
    (s.inodeTable rootDirInum.toNat).iDataBlock = b ∨ ∃! j, Stores s b j

/-- Why an open may fail: no such file and none wanted, no name, a full directory or a full open-file table. -/
def Refused (s : State) (name : Option CString) (flags : Int) : Prop :=
  tfsLookupUnsynchronized s name = -1 ∧ ¬ hasFlag flags tfsOCreat ∨
    (∃ subName, skipSlash name = some subName ∧ subName.strlen = 0) ∨
      (∀ i < maxDirEntries, rootEntry s i ≠ -1) ∨ ∀ h < maxOpenFiles, s.freeOpenFileEntries h = .taken

namespace Wf

variable {es : List DirEntry} {s : State}

theorem lists_iff (w : Wf es s) {i j : Nat} : Lists s i j ↔ i < es.length ∧ j = i + 1 := by
  have hroot : rootEntry s i = dInumber s.fsData 0 i := by
    simp [rootEntry, w.root]
  rw [Lists, hroot]
  constructor
  · rintro ⟨hi, hj⟩
    by_cases hlt : i < es.length
    · have hn := (w.dir.inumber i hlt).symm.trans hj
      rw [w.inumber i hlt] at hn
      exact ⟨hlt, by omega⟩
    · rw [w.dir.empty i (by omega) hi] at hj
      omega
  · rintro ⟨hi, rfl⟩
    refine ⟨lt_of_lt_of_le hi w.length_le, ?_⟩
    rw [w.dir.inumber i hi, w.inumber i hi]
    rfl

theorem stores_iff (w : Wf es s) {b j : Nat} :
    Stores s b j ↔ 0 < j ∧ j ≤ es.length ∧ 0 < (s.inodeTable j).iSize ∧ (s.inodeTable j).iDataBlock = b := by
  constructor
  · intro h
    refine ⟨Nat.pos_of_ne_zero ?_, (w.inode j h.lt).mp h.taken, h.size, h.block⟩
    rintro rfl
    have ht := h.type
    rw [w.root] at ht
    cases ht
  · rintro ⟨h0, hj, hs, hb⟩
    have hlt : j < inodeTableSize := by
      have := w.length_lt
      omega
    exact ⟨hlt, (w.inode j hlt).mpr hj, w.type j h0 hj, hs, hb⟩

theorem accounted (w : Wf es s) : Accounted s where
  entry i hi hne := by
    have hlt : i < es.length := by
      by_contra hge
      have hroot : rootEntry s i = dInumber s.fsData 0 i := by simp [rootEntry, w.root]
      exact hne (hroot.trans (w.dir.empty i (by omega) hi))
    have := w.length_lt
    exact ⟨i + 1, by omega, by omega, w.lists_iff.mpr ⟨hlt, rfl⟩⟩
  inode j hj := by
    rw [w.inode j hj]
    constructor
    · intro hle
      cases j with
      | zero => exact .inl rfl
      | succ i => exact .inr ⟨i, w.lists_iff.mpr ⟨by omega, rfl⟩⟩
    · rintro (rfl | ⟨i, hi⟩)
      · omega
      · have := w.lists_iff.mp hi
        omega
  once i k j hi hk := by
    have h₁ := w.lists_iff.mp hi
    have h₂ := w.lists_iff.mp hk
    omega
  block b hb := by
    have hroot : (s.inodeTable rootDirInum.toNat).iDataBlock = 0 := congrArg Inode.iDataBlock w.root
    rw [hroot]
    constructor
    · intro ht
      obtain ⟨j, hj, hs, hjb⟩ := w.owned b hb ht
      by_cases h0 : j = 0
      · subst h0
        rw [w.root] at hjb
        exact .inl hjb
      · refine .inr ⟨j, w.stores_iff.mpr ⟨by omega, hj, hs, hjb⟩, fun k hk => ?_⟩
        obtain ⟨-, hk, hks, hkb⟩ := w.stores_iff.mp hk
        exact w.distinct k hk j hj hks hs (hkb.trans hjb.symm)
    · rintro (h | ⟨j, hj, -⟩)
      · obtain ⟨c, -, hc, ht⟩ := w.block 0 (Nat.zero_le _) (by simp [w.root])
        rw [w.root] at hc
        obtain rfl : c = b := by
          have : ((0 : Nat) : Int) = c := hc
          omega
        exact ht
      · obtain ⟨-, hj, hs, hjb⟩ := w.stores_iff.mp hj
        obtain ⟨c, -, hc, ht⟩ := w.block j hj hs
        obtain rfl : c = b := by
          have := hjb.symm.trans hc
          omega
        exact ht

theorem call (w : Wf es s) {c : Call} (hc : OnOpenHandle s c) {out : Out} {s' : State}
    (h : s.call c = some (out, s')) : ∃ es', Wf es' s' := by
  cases c with
  | «open» name flags =>
    obtain ⟨x, hx, he⟩ := Option.map_eq_some_iff.mp h
    cases he
    unfold tfsOpen at hx
    split at hx
    · cases hx
      exact ⟨es, w⟩
    · obtain ⟨y, hy, rfl⟩ := Option.map_eq_some_iff.mp hx
      obtain ⟨es', ho⟩ := w.opened hy
      have hw := w.of_opened ho
      refine ⟨es', ?_⟩
      simp only
      split
      · exact hw.openFiles _
      · exact hw
  | close fhandle =>
    cases h
    exact ⟨es, w.close fhandle⟩
  | write fhandle buffer =>
    obtain ⟨x, hx, he⟩ := Option.map_eq_some_iff.mp h
    cases he
    obtain ⟨file, hf, rfl, ht⟩ := hc.exists
    obtain ⟨j, b, h0, hj, -, hb, heq⟩ := w.write_eq hf ht buffer
    rw [heq] at hx
    generalize hn : toWrite buffer.length (s.openFileTable file).ofOffset = n at hx
    by_cases hz : n = 0
    · simp only [hz, if_true] at hx
      cases hx
      exact ⟨es, w⟩
    · simp only [if_neg hz] at hx
      split at hx
      · next hfit =>
        cases hx
        have hlen : (buffer.take n).length = n := List.length_take_of_le hfit.1
        have hle : (s.openFileTable file).ofOffset + n ≤ blockSize := by
          rw [← hn] at hz hfit ⊢
          exact toWrite_fits (by omega) hfit.2
        exact ⟨es, w.written h0 hj hb (by omega) (by rw [hlen]; exact hle)⟩
      · cases hx
  | read fhandle len =>
    rcases read_cases h with rfl | ⟨i, offset, rfl⟩
    · exact ⟨es, w⟩
    · exact ⟨es, w.setOffset i offset⟩

theorem openHandle_full {inum : Int} {offset : Nat} (h : (Ex2.openHandle s inum offset).1 = -1) :
    ∀ file < maxOpenFiles, s.freeOpenFileEntries file = .taken := by
  unfold Ex2.openHandle addToOpenFileTable at h
  cases hf : firstFree s.freeOpenFileEntries maxOpenFiles with
  | none => exact firstFree_eq_none.mp hf
  | some i =>
    simp only [hf] at h
    omega

theorem open_fails (w : Wf es s) (hcan : s.canOpenFiles = 1) {name : Option CString} {flags : Int}
    {x : Int × State} (hx : tfsOpen s name flags = some x) (hr : x.1 = -1) : Refused s name flags := by
  rw [tfsOpen, if_neg (by rw [hcan]; decide)] at hx
  obtain ⟨y, hy, rfl⟩ := Option.map_eq_some_iff.mp hx
  obtain ⟨es', ho⟩ := w.opened hy
  have hentry : ∀ i < es.length, rootEntry s i ≠ -1 := fun i hi h => by
    have hl := (w.lists_iff.mpr ⟨hi, rfl⟩).2
    omega
  cases ho with
  | @existing _ i hs hv hi =>
    refine .inr (.inr (.inr ?_))
    have hopen : (openedState s (i + 1) flags).toOpenFiles = s.toOpenFiles := by
      rcases w.openedState_cases (j := i + 1) (by omega) (by omega) flags with he | ⟨b, he⟩
      · rw [he]
      · rw [he]
        rfl
    simpa only [hopen] using openHandle_full hr
  | created => exact .inr (.inr (.inr (openHandle_full hr)))
  | @full subName hs hv hc hno =>
    rcases hno with hno | hno
    · exact .inr (.inl ⟨subName, hs, hno⟩)
    · exact .inr (.inr (.inl fun i hi => hentry i (by omega)))
  | absent hv hc =>
    refine .inl ⟨?_, hc⟩
    rw [w.lookup]
    cases hs : skipSlash name with
    | none => rfl
    | some subName =>
      by_cases hvp : validPathname name
      · rcases w.lookupEntry_cases subName with ⟨i, hi, hn, -⟩ | ⟨-, he⟩
        · exact absurd hn (hv subName hs hvp _ (List.getElem_mem hi))
        · simp [hvp, he]
      · simp [hvp]

theorem write_ok (w : Wf es s) {fhandle : Int} (ho : s.toOpenFiles.IsOpen fhandle) {buffer : List UInt8}
    {x : Int × State} (hx : tfsWrite s fhandle buffer = some x) : x.1 ≠ -1 := by
  obtain ⟨file, hf, rfl, ht⟩ := ho.exists
  obtain ⟨j, b, -, -, -, -, heq⟩ := w.write_eq hf ht buffer
  rw [heq] at hx
  generalize toWrite buffer.length (s.openFileTable file).ofOffset = n at hx
  simp only at hx
  split at hx
  · cases hx
    simp
  · split at hx
    · cases hx
      simp only
      omega
    · cases hx

end Wf

theorem exists_wf_of_run {cs : List Call} {outs : List Out} {s : State}
    (ha : Runs.Along State.call OnOpenHandle State.init cs)
    (hr : Runs.run State.call State.init cs = some (outs, s)) : ∃ es, Wf es s := by
  have hstep : ∀ s c out s', (∃ es, Wf es s) → OnOpenHandle s c → s.call c = some (out, s') →
      True ∧ ∃ es', Wf es' s' := by
    rintro s c out s' ⟨es, w⟩ ho hc
    exact ⟨trivial, w.call ho hc⟩
  exact (Runs.run_invariant (P := fun _ => True) hstep ⟨[], Wf.init⟩ ha hr).2

/-- In every state that calls on open handles lead to, the tables account for each other, and neither an i-node for
a new file nor a block for a write can be missing. -/
theorem allocation_accounted {cs : List Call} {outs : List Out} {s : State}
    (ha : Runs.Along State.call OnOpenHandle State.init cs) (hr : Runs.run State.call State.init cs = some (outs, s)) :
    Accounted s ∧ (inodeCreate s .file).1 ≠ -1 ∧ (dataBlockAlloc s.toDisk).1 ≠ -1 ∧
      (∀ name flags x, tfsOpen s name flags = some x → x.1 = -1 → Refused s name flags) ∧
      ∀ fhandle buffer x, s.toOpenFiles.IsOpen fhandle → tfsWrite s fhandle buffer = some x → x.1 ≠ -1 := by
  have hsane : Sane s := Reachable.sane ⟨cs, outs, hr⟩
  obtain ⟨es, w⟩ := exists_wf_of_run ha hr
  refine ⟨w.accounted, ?_, ?_, fun _ _ _ => w.open_fails hsane.canOpen, fun _ _ _ ho => w.write_ok ho⟩
  · rw [w.inodeCreate_file]
    simp only
    omega
  · obtain ⟨b, hb, hfree⟩ := w.exists_free_block
    obtain ⟨c, -, hc⟩ := dataBlockAlloc_of_free hb hfree
    rw [hc]
    simp only
    omega

/-- A file is written, truncated behind a handle and written again, and a nameless file is not created. -/
theorem allocation_accounted_truncated : ∃ outs s, Runs.run State.call State.init
    [.open (some ⟨[47, 98], by decide⟩) 1, .write 0 [1, 2, 3], .open (some ⟨[47, 98], by decide⟩) 2, .write 0 [4],
      .open (some ⟨[47], by decide⟩) 1] = some (outs, s) ∧ Accounted s := by
  let cs : List Call := [.open (some ⟨[47, 98], by decide⟩) 1, .write 0 [1, 2, 3],
    .open (some ⟨[47, 98], by decide⟩) 2, .write 0 [4], .open (some ⟨[47], by decide⟩) 1]
  have hsome : (Runs.run State.call State.init cs).isSome = true := by decide +kernel
  obtain ⟨x, hx⟩ := Option.isSome_iff_exists.mp hsome
  exact ⟨x.1, x.2, hx, (allocation_accounted (by decide +kernel) hx).1⟩

end Tecnicofs.Ex2
