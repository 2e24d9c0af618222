import Tecnicofs.Ex1.Accounting

namespace Tecnicofs.Ex1

open Bytes

def Openable (s : State) (name : Option CString) (flags : Int) : Prop :=
  lookup s name ≠ -1 ∨ validPathname name = true ∧ hasFlag flags tfsOCreat = true ∧
    ∃ k < maxDirEntries, dInumber s.fsData 0 k = -1

def HandleFree (s : State) : Prop := ∃ h < maxOpenFiles, s.freeOpenFileEntries h = .free

instance (s : State) (name : Option CString) (flags : Int) : Decidable (Openable s name flags) :=
  inferInstanceAs (Decidable (_ ∨ _ ∧ _ ∧ ∃ k < _, _))

instance (s : State) : Decidable (HandleFree s) := inferInstanceAs (Decidable (∃ h < _, _))

structure Granted (s : State) (i o : Nat) (x : Int × State) : Prop where
  fails : x.1 = -1 ↔ ¬ HandleFree s
  handle : ∀ h : Nat, x.1 = h → firstFree s.freeOpenFileEntries maxOpenFiles = some h ∧
    x.2.toOpenFiles = (s.toOpenFiles.take h).setEntry h ⟨i, o⟩

variable {owner : Owner} {s s' : State} {es : List DirEntry} {i o : Nat} {name : Option CString} {flags : Int}
  {x : Int × State}

theorem not_handleFree : ¬ HandleFree s ↔ firstFree s.freeOpenFileEntries maxOpenFiles = none := by
  rw [firstFree_eq_none, HandleFree, not_exists]
  refine forall_congr' fun h => ?_
  cases s.freeOpenFileEntries h <;> simp

theorem granted_opened (s : State) (i o : Nat) : Granted s i o (opened s i o) := by
  unfold opened Tecnicofs.addToOpenFileTable
  cases hf : firstFree s.freeOpenFileEntries maxOpenFiles with
  | none => exact ⟨iff_of_true rfl (not_handleFree.mpr hf), fun h he => by simp at he⟩
  | some g =>
    refine ⟨iff_of_false (by simp) fun hno => ?_, fun h he => ?_⟩
    · cases hf.symm.trans (not_handleFree.mp hno)
    · obtain rfl : g = h := by simpa using he
      exact ⟨hf, rfl⟩

theorem Granted.congr (h : Granted s i o x) (hf : s'.toOpenFiles = s.toOpenFiles) : Granted s' i o x := by
  obtain ⟨h1, h2⟩ := h
  exact ⟨by rwa [HandleFree, hf], by rwa [hf]⟩

namespace Listed

theorem room (l : Listed es s) (hno : ¬ es.length < maxDirEntries) (subName : CString) :
    fillDirEntry s.fsData 0 (es.length + 1 : Nat) subName = none :=
  l.dir.fill_full _ _ (by have := l.dir.length_le; omega)

theorem opens (l : Listed es s) (ho : Opens s name flags x) : ∃ es', Listed es' x.2 := by
  cases ho with
  | refused hl hc => exact ⟨es, l⟩
  | existing hv hl hi => exact ⟨es, l.congr rfl rfl rfl⟩
  | @created p i m hp hv hl hc hfree hm =>
    cases hfree.symm.trans l.firstFree_inode
    have hroom : es.length < maxDirEntries := by
      by_contra hno
      cases (l.room hno p.tail).symm.trans hm
    obtain ⟨m', hm', h'⟩ := l.create hroom p.tail
    cases hm.symm.trans hm'
    exact ⟨_, h'.congr rfl rfl rfl⟩
  | @full p i hp hv hl hc hfree hm =>
    cases hfree.symm.trans l.firstFree_inode
    exact ⟨es, l.deleteNew⟩

theorem call (l : Listed es s) (hc : Consistent owner s) {c : Call} (hb : WithinFileNoIndirectTrunc s c) {o : Out}
    (hcall : s.call c = some (o, s')) : ∃ es', Listed es' s' := by
  obtain ⟨hw, ht⟩ := hb
  cases c with
  | «open» name flags =>
    rw [call_open] at hcall
    obtain ⟨x, hx, he⟩ := Option.map_eq_some_iff.mp hcall
    cases he
    rcases run_tfsOpen_cases hc ht with ⟨y, hy, ho⟩ | ⟨i, m, hi, -, hlast, -, -, hk, hy⟩
    · cases hy.symm.trans hx
      exact l.opens ho
    · cases hy.symm.trans hx
      exact ⟨es, (l.keep hk).congr rfl rfl rfl⟩
  | close fhandle =>
    rw [call_close] at hcall
    cases hcall
    exact ⟨es, l.congr rfl rfl rfl⟩
  | write fhandle buffer =>
    obtain ⟨f, hf, rfl, hopen⟩ := hw.1.exists
    obtain ⟨i, hon⟩ := hc.onFile hf hopen
    have hlen := hw.2
    rw [Int.toNat_natCast] at hlen
    rw [call_write, run_tfsWrite hon] at hcall
    obtain ⟨x, hx, he⟩ := Option.map_eq_some_iff.mp hcall
    cases he
    obtain ⟨y, hloop, hx⟩ := Option.bind_eq_some_iff.mp hx
    have hkept := (ensures_writeLoop hc hon.isFile _ hlen y.1 y.2 hloop).kept
    split at hx
    · obtain ⟨z, hfix, he⟩ := Option.map_eq_some_iff.mp hx
      cases he
      rw [fixSize, Prog.run_modify] at hfix
      cases hfix
      refine ⟨es, (l.keep hkept).keep ?_⟩
      split
      · exact .setInode hon.ne_zero rfl
      · exact .refl _
    · cases hx
      exact ⟨es, l.keep hkept⟩
  | read fhandle len =>
    obtain ⟨f, hf, rfl, hopen⟩ := hw.exists
    obtain ⟨i, hon⟩ := hc.onFile hf hopen
    have hget : inodeGet (s.openFileTable f).ofInumber = some i := by rw [hon.inumber, inodeGet_natCast hon.isFile.1]
    have hcall : (tfsRead f len).run s = some (o, s') := hcall
    rw [run_tfsRead hf hget] at hcall
    obtain ⟨x, hx, he⟩ := Option.map_eq_some_iff.mp hcall
    cases he
    exact ⟨es, l.keep (ensures_readLoop hc hon.isFile _ _ _ x.1 x.2 hx).kept⟩

theorem inumber_eq (l : Listed es s) {k : Nat} (hk : k < maxDirEntries) :
    dInumber s.fsData 0 k = if k < es.length then ((k + 1 : Nat) : Int) else -1 := by
  split
  · next h => rw [l.dir.inumber k h, l.inumber k h]; rfl
  · next h => exact l.dir.empty k (Nat.le_of_not_lt h) hk

end Listed

theorem reached {s₀ s₁ : State} {r : Int} (h₀ : tfsInit s₀ = some (r, s₁)) {cs : List Call} {outs : List Out}
    (ha : Runs.Along State.call WithinFileNoIndirectTrunc s₁ cs) (hr : Runs.run State.call s₁ cs = some (outs, s)) :
    ∃ es owner, Listed es s ∧ Consistent owner s := by
  cases (tfsInit_eq s₀).symm.trans h₀
  have h := initialised_simulates s₀
  exact (Runs.run_invariant (I := fun s => ∃ es owner, Listed es s ∧ Consistent owner s) (P := fun _ => True)
    (fun _ _ _ _ ⟨_, _, l, hc⟩ hb hcall => by
      obtain ⟨es', l'⟩ := l.call hc hb hcall
      obtain ⟨owner', hc'⟩ := hc.call hb.1 hb.2 hcall
      exact ⟨trivial, es', owner', l', hc'⟩) ⟨_, _, h.listed, h.settled.toConsistent⟩ ha hr).2

/-- In every state of every such run, failed calls included: the directory's entries are the i-nodes 1, 2, ... in order,
and these and the root's are the i-nodes that are taken. -/
theorem inodes_accounted {s₀ s₁ : State} {r : Int} (h₀ : tfsInit s₀ = some (r, s₁)) {cs : List Call} {outs : List Out}
    (ha : Runs.Along State.call WithinFileNoIndirectTrunc s₁ cs) (hr : Runs.run State.call s₁ cs = some (outs, s)) :
    ∃ n ≤ maxDirEntries, (∀ k < maxDirEntries, dInumber s.fsData 0 k = if k < n then ((k + 1 : Nat) : Int) else -1) ∧
      ∀ i < inodeTableSize, s.freeinodeTs i = .taken ↔ i ≤ n := by
  obtain ⟨es, owner, l, -⟩ := reached h₀ ha hr
  exact ⟨es.length, l.dir.length_le, fun k hk => l.inumber_eq hk, l.taken⟩

/-- A directory with two files. -/
theorem inodes_accounted_two :
    let cs := [.open (some ⟨[47, 97], by decide⟩) tfsOCreat, .open (some ⟨[47, 98], by decide⟩) tfsOCreat, .write 0 [1]]
    ∃ outs s, Runs.run State.call (initialised .zero) cs = some (outs, s) ∧
      ∃ n ≤ maxDirEntries, (∀ k < maxDirEntries, dInumber s.fsData 0 k = if k < n then ((k + 1 : Nat) : Int) else -1) ∧
        ∀ i < inodeTableSize, s.freeinodeTs i = .taken ↔ i ≤ n := by
  intro cs
  have hrun : (Runs.run State.call (initialised .zero) cs).isSome = true := by decide +kernel
  obtain ⟨x, hx⟩ := Option.isSome_iff_exists.mp hrun
  exact ⟨x.1, x.2, hx, inodes_accounted (tfsInit_eq _) (by decide +kernel) hx⟩

/-- The open returns the first free handle, on the file and at its start or end, or fails as it should. -/
structure Outcome (s : State) (name : Option CString) (flags : Int) (x : Int × State) : Prop where
  fails : x.1 = -1 ↔ ¬ (Openable s name flags ∧ HandleFree s)
  handle : ∀ h : Nat, x.1 = h → firstFree s.freeOpenFileEntries maxOpenFiles = some h ∧
    ∃ i, x.2.IsFile i ∧ (lookup s name ≠ -1 → lookup s name = (i : Nat)) ∧
      x.2.openFileTable h = ⟨i, if hasFlag flags tfsOAppend then (x.2.inodeTable i).iSize else 0⟩

theorem Outcome.of_not_openable (h : ¬ Openable s name flags) : Outcome s name flags (-1, s') where
  fails := iff_of_true rfl fun ho => h ho.1
  handle h he := by simp at he

theorem Outcome.of_opened (hopen : Openable s name flags) (hf : s'.toOpenFiles = s.toOpenFiles) (hi : s'.IsFile i)
    (hl : lookup s name ≠ -1 → lookup s name = (i : Nat))
    (ho : o = if hasFlag flags tfsOAppend then (s'.inodeTable i).iSize else 0) :
    Outcome s name flags (opened s' i o) := by
  have hg := (granted_opened s' i o).congr hf.symm
  refine ⟨hg.fails.trans ⟨fun hno h => hno h.2, fun hno h => hno ⟨hopen, h⟩⟩, fun h he => ?_⟩
  obtain ⟨hfree, hfiles⟩ := hg.handle h he
  refine ⟨hfree, i, hi, hl, ?_⟩
  rw [hfiles, OpenFiles.setEntry_table, if_pos rfl, ho]
  rfl

theorem Listed.outcome (l : Listed es s) (ho : Opens s name flags x) : Outcome s name flags x := by
  have hroom_iff := l.room_iff
  cases ho with
  | refused hl hc =>
    refine .of_not_openable fun h => ?_
    obtain ⟨hv, hcreat, -⟩ := h.resolve_left (· hl)
    cases (hc hv hcreat).symm.trans l.firstFree_inode
  | existing hv hl hi => exact .of_opened (.inl (by rw [hl]; omega)) rfl hi (fun _ => hl) rfl
  | @created p i m hp hv hl hc hfree hm =>
    cases hfree.symm.trans l.firstFree_inode
    have hroom : es.length < maxDirEntries := by
      by_contra hno
      cases (l.room hno p.tail).symm.trans hm
    have hfile := Consistent.isFile_newFile (s := s) (firstFree_eq_some.mp hfree).1
    refine .of_opened (.inr ⟨hv, hc, hroom_iff.mpr hroom⟩) rfl hfile (fun hne => absurd hl hne) ?_
    simp [newFile, State.setInode_inodeTable]
  | @full p i hp hv hl hc hfree hm =>
    cases hfree.symm.trans l.firstFree_inode
    refine .of_not_openable fun h => ?_
    obtain ⟨-, -, hroom⟩ := h.resolve_left (· hl)
    obtain ⟨m, hm', -⟩ := l.create (hroom_iff.mp hroom) p.tail
    cases hm.symm.trans hm'

end Tecnicofs.Ex1
