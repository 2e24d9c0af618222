import Tecnicofs.Ex1.DirectoryMap
import Tecnicofs.Lib.Phases

namespace Tecnicofs.Ex1

open Bytes

/-- How far a thread in `tfs_open` is, and which i-node it has. -/
inductive OpenPhase
  | looking
  | missed
  | taken (i : Nat)
  | made (i : Nat)
  | doomed (i : Nat)
  | found (i : Nat)
  | opened (i h : Nat)
  | failed

namespace OpenPhase

def owned : OpenPhase → Option Nat
  | taken i | made i | doomed i => some i
  | looking | missed | found _ | opened _ _ | failed => none

def Pending : OpenPhase → Prop
  | taken _ | made _ => True
  | looking | missed | doomed _ | found _ | opened _ _ | failed => False

end OpenPhase

open OpenPhase

structure Rooted (s : State) : Prop where
  rootType : (s.inodeTable 0).iNodeType = .directory
  rootBlock : (s.inodeTable 0).iDataBlock 0 = 0
  rootTaken : s.freeinodeTs 0 = .taken
  files : ∀ i, i ≠ 0 → (s.inodeTable i).iNodeType = .file ∧ (s.inodeTable i).iSize = 0
  entries : ∀ k < maxDirEntries, dInumber s.fsData 0 k = -1 ∨
    ∃ i : Nat, dInumber s.fsData 0 k = i ∧ i ≠ 0 ∧ i < inodeTableSize

inductive Takes (name : CString) : OpenPhase → Option Label → State → State → OpenPhase → Prop
  | read {ph : OpenPhase} {s : State} : Takes name ph none s s ph
  | find {s : State} {i : Nat} (hl : findDirEntry s.fsData 0 name.tail = i) : Takes name looking none s s (found i)
  | miss {s : State} (hl : findDirEntry s.fsData 0 name.tail = -1) : Takes name looking none s s missed
  | search {s : State} {i : Nat} (hi : i < inodeTableSize) (hfree : s.freeinodeTs i = .free) :
      Takes name missed (some .inodeSearch) s
        ((s.setInodeState i .taken).setInode i { s.inodeTable i with iNodeType := .file }) (taken i)
  | full {s : State} : Takes name missed (some .inodeSearch) s s failed
  | init {s : State} {i : Nat} {x : Inode} (hx : x.iNodeType = (s.inodeTable i).iNodeType ∧ x.iSize = 0) :
      Takes name (taken i) none s (s.setInode i x) (made i)
  | add {s : State} {i : Nat} {m : Mem} (hm : fillDirEntry s.fsData 0 i name.tail = some m) :
      Takes name (made i) none s (s.setDisk { s.toDisk with fsData := m }) (found i)
  | refuse {s : State} {i : Nat} (hm : fillDirEntry s.fsData 0 i name.tail = none) :
      Takes name (made i) none s s (doomed i)
  | delete {s : State} {i : Nat} : Takes name (doomed i) none s (s.setInodeState i .free) failed
  | grant {s : State} {i h o : Nat} (hh : h < maxOpenFiles) (hfree : s.freeOpenFileEntries h = .free) :
      Takes name (found i) none s (s.setFiles ((s.toOpenFiles.take h).setEntry h ⟨i, o⟩)) (opened i h)

def OpensName (c : Call) (name : CString) : Prop :=
  validPathname (some name) = true ∧ ∃ flags, c = .open (some name) flags

def opening : Protocol Label State OpenPhase Call Out where
  Knows _ ph s := Rooted s ∧ ∀ i ∈ ph.owned, i ≠ 0 ∧ i < inodeTableSize ∧ s.freeinodeTs i = .taken
  Allows _ ph l := ph = .missed ∧ l = .inodeSearch
  Takes c ph label s s' ph' := ∃ name, OpensName c name ∧ Takes name ph label s s' ph'
  Returns _ ph o := o.ret = -1 ∧ ph.owned = none ∨ ∃ i h : Nat, ph = .opened i h ∧ o.ret = h

variable {s s' : State} {c : Call} {name : CString} {i : Nat} {β : Type} {Q : β → OpenPhase → Prop}

theorem Rooted.congr (h : Rooted s) (hi : s'.inodeTable 0 = s.inodeTable 0) (ht : s'.freeinodeTs 0 = .taken)
    (hf : ∀ i, i ≠ 0 → (s'.inodeTable i).iNodeType = .file ∧ (s'.inodeTable i).iSize = 0)
    (hd : s'.fsData = s.fsData) : Rooted s' where
  rootType := by rw [hi, h.rootType]
  rootBlock := by rw [hi, h.rootBlock]
  rootTaken := ht
  files := hf
  entries := by rw [hd]; exact h.entries

theorem Rooted.setInode (h : Rooted s) (h0 : i ≠ 0) {x : Inode} (hx : x.iNodeType = .file ∧ x.iSize = 0) :
    Rooted (s.setInode i x) := by
  refine h.congr ?_ h.rootTaken (fun j hj => ?_) rfl
  · rw [State.setInode_inodeTable, if_neg (Ne.symm h0)]
  · rw [State.setInode_inodeTable]
    split
    · exact hx
    · exact h.files j hj

theorem Rooted.fill (h : Rooted s) (h0 : i ≠ 0) (hi : i < inodeTableSize) {subName : CString} {m : Mem}
    (hm : fillDirEntry s.fsData 0 i subName = some m) : Rooted (s.setDisk { s.toDisk with fsData := m }) where
  rootType := h.rootType
  rootBlock := h.rootBlock
  rootTaken := h.rootTaken
  files := h.files
  entries k hk := by
    have hint : IsInt i := by
      simp only [inodeTableSize] at hi
      exact ⟨by omega, by omega⟩
    obtain ⟨⟨j, hj⟩, -⟩ := fillDirEntry_eq_some hm hint
    rw [State.setDisk_toDisk, hj k hk]
    split
    · exact .inr ⟨i, rfl, h0, hi⟩
    · exact h.entries k hk

theorem Rooted.dirBlock (h : Rooted s) : dirBlock s rootDirInum = some 0 := by
  have hget : inodeGet rootDirInum = some 0 := rfl
  simp only [Ex1.dirBlock, hget, h.rootType, ne_eq, not_true_eq_false, if_false, h.rootBlock]
  rfl

theorem Rooted.findDirEntry (h : Rooted s) (subName : CString) : findDirEntry s.fsData 0 subName = -1 ∨
    ∃ i : Nat, findDirEntry s.fsData 0 subName = i ∧ i ≠ 0 ∧ i < inodeTableSize := by
  rcases findDirEntry_cases s.fsData 0 subName with he | ⟨k, hk, he, hne⟩
  · exact .inl he
  · rw [he]
    exact .inr ((h.entries k hk).resolve_left hne)

theorem follows_read {γ : Type} {g : State → γ} {f : γ → Program β} {ph : OpenPhase}
    (hc : OpensName c name)
    (h : ∀ s, opening.Knows c ph s → (f (g s)).Follows opening c ph Q) : (Prog.get g >>= f).Follows opening c ph Q :=
  Prog.follows_get fun s hk => ⟨ph, ⟨name, hc, .read⟩, h s hk⟩

theorem follows_findInDir (hc : OpensName c name) :
    (findInDir rootDirInum name.tail).Follows opening c .looking fun r ph =>
      r = -1 ∧ ph = .missed ∨ ∃ i : Nat, r = i ∧ i ≠ 0 ∧ i < inodeTableSize ∧ ph = .found i := by
  refine Prog.follows_acquire (Prog.follows_get fun s hk => ?_)
  rw [hk.1.dirBlock]
  rcases hk.1.findDirEntry name.tail with he | ⟨i, he, h0, hi⟩
  · exact ⟨.missed, ⟨name, hc, .miss he⟩, Prog.follows_release (Prog.follows_pure (.inl ⟨he, rfl⟩))⟩
  · exact ⟨.found i, ⟨name, hc, .find he⟩,
      Prog.follows_release (Prog.follows_pure (.inr ⟨i, he, h0, hi, rfl⟩))⟩

theorem follows_openExisting (hc : OpensName c name) (hi : i ≠ 0) (fl : Int) :
    (openExisting i fl).Follows opening c (.found i) fun _ ph => ph = .found i := by
  refine Prog.Follows.bind (Prog.Follows.mono (Q := fun ok ph => ok = true ∧ ph = .found i) ?_ fun ok ph h => ?_)
  · rw [truncateIf]
    split
    · refine Prog.Follows.bind (follows_read hc fun s hk => ?_)
      have hsize : ¬ (s.inodeTable i).iSize > 0 := by rw [(hk.1.files i hi).2]; exact Nat.lt_irrefl 0
      rw [if_neg hsize]
      exact Prog.follows_pure (Prog.follows_release (Prog.follows_pure ⟨rfl, rfl⟩))
    · exact Prog.follows_pure ⟨rfl, rfl⟩
  · obtain ⟨rfl, rfl⟩ := h
    rw [if_pos rfl]
    exact follows_read hc fun _ _ => Prog.follows_release (Prog.follows_pure rfl)

theorem follows_addFrom (hc : OpensName c name) (offset : Nat) {n : Nat} (hn : n ≤ maxOpenFiles) :
    (addFrom i offset n).Follows opening c (.found i) fun r ph => opening.Returns c ph ⟨r, []⟩ := by
  induction n with
  | zero => exact Prog.follows_pure (.inl ⟨rfl, rfl⟩)
  | succ n ih =>
    refine Prog.follows_acquire (Prog.follows_atomic (fun l hl => by cases hl) fun s b s' hk hf => ?_)
    by_cases hfree : s.freeOpenFileEntries (maxOpenFiles - (n + 1)) = .free
    · rw [if_pos hfree] at hf
      cases hf
      exact ⟨_, ⟨name, hc, .grant (by omega) hfree⟩,
        Prog.follows_release (Prog.follows_pure (.inr ⟨i, _, rfl, rfl⟩))⟩
    · rw [if_neg hfree] at hf
      cases hf
      exact ⟨_, ⟨name, hc, .read⟩, Prog.follows_release (ih (by omega))⟩

theorem follows_inodeCreate (hc : OpensName c name) :
    (inodeCreate .file).Follows opening c .missed fun r ph =>
      r = -1 ∧ ph = .failed ∨ ∃ i : Nat, r = i ∧ i ≠ 0 ∧ i < inodeTableSize ∧ ph = .made i := by
  refine Prog.follows_acquire (Prog.follows_atomic (fun l hl => by cases hl; exact ⟨rfl, rfl⟩) fun s b s' hk hf => ?_)
  cases hfirst : firstFree s.freeinodeTs inodeTableSize with
  | none =>
    rw [hfirst] at hf
    cases hf
    exact ⟨.failed, ⟨name, hc, .full⟩, Prog.follows_pure (.inl ⟨rfl, rfl⟩)⟩
  | some i =>
    rw [hfirst] at hf
    cases hf
    obtain ⟨hi, hfree, -⟩ := firstFree_eq_some.mp hfirst
    have h0 : i ≠ 0 := by
      rintro rfl
      cases hfree.symm.trans hk.1.rootTaken
    refine ⟨.taken i, ⟨name, hc, .search hi hfree⟩, Prog.follows_modify fun s₁ _ => ?_⟩
    exact ⟨.made i, ⟨name, hc, .init ⟨rfl, rfl⟩⟩,
      Prog.follows_release (Prog.follows_pure (.inr ⟨i, rfl, h0, hi, rfl⟩))⟩

theorem follows_addDirEntry (hc : OpensName c name) (hlen : name.tail.strlen ≠ 0) (hi : i < inodeTableSize) :
    (addDirEntry rootDirInum i name.tail).Follows opening c (.made i) fun r ph =>
      r = 0 ∧ ph = .found i ∨ r = -1 ∧ ph = .doomed i := by
  refine Prog.follows_acquire (Prog.follows_atomic (fun l hl => by cases hl) fun s b s' hk hf => ?_)
  have hvalid : ¬ (¬ validInumber (i : Int) ∨ name.tail.strlen = 0) := by
    simp [validInumber_natCast hi, hlen]
  rw [if_neg hvalid, hk.1.dirBlock] at hf
  cases hm : fillDirEntry s.fsData 0 i name.tail with
  | none =>
    simp only [hm] at hf
    cases hf
    exact ⟨.doomed i, ⟨name, hc, .refuse hm⟩, Prog.follows_release (Prog.follows_pure (.inr ⟨rfl, rfl⟩))⟩
  | some m =>
    simp only [hm] at hf
    cases hf
    exact ⟨.found i, ⟨name, hc, .add hm⟩, Prog.follows_release (Prog.follows_pure (.inl ⟨rfl, rfl⟩))⟩

theorem follows_inodeDelete (hc : OpensName c name) (h0 : i ≠ 0) (hi : i < inodeTableSize) :
    (inodeDelete i).Follows opening c (.doomed i) fun _ ph => ph = .failed := by
  refine Prog.follows_acquire (Prog.follows_atomic (fun l hl => by cases hl) fun s b s' hk hf => ?_)
  have ht := (hk.2 i rfl).2.2
  simp only [inodeGet_natCast hi, ht, reduceCtorEq, if_false] at hf
  cases hf
  refine ⟨.failed, ⟨name, hc, .delete⟩, Prog.Follows.bind (follows_read hc fun s₁ hk₁ => ?_)⟩
  obtain ⟨htype, hsize⟩ := hk₁.1.files i h0
  have hno : ¬ (s₁.inodeTable i).iSize > 0 := by rw [hsize]; exact Nat.lt_irrefl 0
  simp only [htype, if_neg hno]
  exact Prog.follows_pure (Prog.follows_release (Prog.follows_pure rfl))

theorem follows_body (flags : Int) (hcreat : hasFlag flags tfsOCreat = true) (path : Option CString) :
    (body (.open path flags)).Follows opening (.open path flags) .looking fun o ph =>
      opening.Returns (.open path flags) ph o := by
  refine Prog.Follows.bind (Prog.Follows.mono (Q := fun r ph => opening.Returns (.open path flags) ph ⟨r, []⟩) ?_
    fun r ph h => Prog.follows_pure h)
  cases path with
  | none => exact Prog.follows_pure (.inl ⟨rfl, rfl⟩)
  | some name =>
    by_cases hv : validPathname (some name) = true
    · have hc : OpensName (.open (some name) flags) name := ⟨hv, flags, rfl⟩
      rw [tfsOpen, if_pos hv, tfsLookup, if_pos hv]
      refine Prog.follows_acquire (Prog.Follows.bind ((follows_findInDir hc).mono fun r ph h => ?_))
      rcases h with ⟨rfl, rfl⟩ | ⟨i, rfl, h0, hi, rfl⟩
      · rw [if_neg (by decide), if_pos hcreat]
        refine Prog.follows_release (Prog.Follows.bind ((follows_inodeCreate hc).mono fun r ph h => ?_))
        rcases h with ⟨rfl, rfl⟩ | ⟨i, rfl, h0, hi, rfl⟩
        · exact Prog.follows_pure (.inl ⟨rfl, rfl⟩)
        · rw [if_neg (by omega)]
          refine Prog.Follows.bind ((follows_addDirEntry hc (strlen_tail_ne_zero hv) hi).mono fun r ph h => ?_)
          rcases h with ⟨rfl, rfl⟩ | ⟨rfl, rfl⟩
          · rw [if_neg (by decide)]
            exact follows_addFrom hc 0 le_rfl
          · rw [if_pos rfl]
            refine Prog.Follows.bind ((follows_inodeDelete hc h0 hi).mono fun r ph h => ?_)
            rw [h]
            exact Prog.follows_pure (.inl ⟨rfl, rfl⟩)
      · rw [if_pos (by omega), inodeGet_natCast hi]
        refine Prog.follows_acquire (Prog.follows_release (Prog.Follows.bind ((follows_openExisting hc h0 flags).mono
          fun r ph h => ?_)))
        rw [h]
        cases r with
        | none => exact Prog.follows_pure (.inl ⟨rfl, rfl⟩)
        | some offset => exact follows_addFrom hc offset le_rfl
    · rw [tfsOpen, if_neg hv]
      exact Prog.follows_pure (.inl ⟨rfl, rfl⟩)

namespace OpenPhase

def Past : OpenPhase → Prop
  | looking | missed => False
  | taken _ | made _ | doomed _ | found _ | opened _ _ | failed => True

theorem Pending.past {ph : OpenPhase} (h : ph.Pending) : ph.Past := by
  cases ph <;> trivial

end OpenPhase

theorem knows_of_owned_eq_none {ph : OpenPhase} (hr : Rooted s) (ho : ph.owned = none) : opening.Knows c ph s :=
  ⟨hr, fun i hi => by
    rw [ho] at hi
    cases hi⟩

theorem Takes.past {ph ph' : OpenPhase} {label : Option Label} (ht : Takes name ph label s s' ph') (hp : ph.Past)
    (hk : opening.Knows c ph s) : ph'.Past ∧ opening.Knows c ph' s' := by
  cases ht with
  | read => exact ⟨hp, hk⟩
  | find | miss | search | full => exact hp.elim
  | @init _ i x hx =>
    obtain ⟨h0, hi, ht⟩ := hk.2 i rfl
    have hfile := hk.1.files i h0
    refine ⟨trivial, hk.1.setInode h0 ⟨hx.1.trans hfile.1, hx.2⟩, ?_⟩
    intro j hj
    cases hj
    exact ⟨h0, hi, ht⟩
  | @add _ i m hm =>
    obtain ⟨h0, hi, -⟩ := hk.2 i rfl
    exact ⟨trivial, knows_of_owned_eq_none (hk.1.fill h0 hi hm) rfl⟩
  | refuse hm => exact ⟨trivial, hk⟩
  | @delete _ i =>
    obtain ⟨h0, -, -⟩ := hk.2 i rfl
    refine ⟨trivial, knows_of_owned_eq_none (hk.1.congr rfl ?_ hk.1.files rfl) rfl⟩
    rw [State.setInodeState_freeinodeTs, if_neg h0.symm, hk.1.rootTaken]
  | grant => exact ⟨trivial, knows_of_owned_eq_none (hk.1.congr rfl hk.1.rootTaken hk.1.files rfl) rfl⟩

def NoSearch : Label → State → Prop
  | .inodeSearch, _ => False
  | .alloc, _ | .write _ _, _ => True

instance : ∀ l s, Decidable (NoSearch l s)
  | .inodeSearch, _ => isFalse id
  | .alloc, _ | .write _ _, _ => isTrue trivial

theorem OpenPhase.Past.assumes {ph : OpenPhase} {prog : Program Out} (hp : ph.Past) (hk : opening.Knows c ph s)
    (h : prog.Follows opening c ph fun o ph => opening.Returns c ph o) :
    prog.Assumes NoSearch s := by
  refine h.assumes (S := Past) hp hk ?_ ?_
  · rintro ph l s hp ⟨rfl, -⟩
    exact hp.elim
  · rintro ph label s s' ph' hp hk ⟨name, -, ht⟩
    exact ht.past hp hk

end Tecnicofs.Ex1
