import Tecnicofs.Ex1.Consistent
import Tecnicofs.Ex1.Rwlocks

namespace Tecnicofs.Ex1

open Bytes

/-- The directory has these entries; the entry with index `i` is the file with i-node `i + 1`, and no other i-node
is taken. -/
structure Listed (es : List DirEntry) (s : State) : Prop where
  dir : DirHolds s.fsData 0 es
  inumber : ∀ i (h : i < es.length), es[i].inumber = i + 1
  rootType : (s.inodeTable 0).iNodeType = .directory
  rootBlock : (s.inodeTable 0).iDataBlock 0 = 0
  taken : ∀ i < inodeTableSize, s.freeinodeTs i = .taken ↔ i ≤ es.length

namespace Listed

variable {es : List DirEntry} {s s' : State}

theorem init : Listed [] State.init := by
  rw [State.init_eq]
  exact {
    dir := dirHolds_clearDirEntries _ _
    inumber := by simp
    rootType := rfl
    rootBlock := rfl
    taken := fun i _ => by simp [Function.update_apply] }

theorem dirBlock (l : Listed es s) : dirBlock s rootDirInum = some 0 := by
  have hget : inodeGet rootDirInum = some 0 := rfl
  simp only [Ex1.dirBlock, hget, l.rootType, ne_eq, not_true_eq_false, if_false, l.rootBlock]
  rfl

theorem length_lt (l : Listed es s) : es.length + 1 < inodeTableSize := by
  have h := l.dir.length_le
  simp at h ⊢
  omega

theorem lookup (l : Listed es s) {name : CString} (hv : validPathname (some name) = true) :
    lookup s (some name) = lookupEntry es name.tail := by rw [lookup_eq l.dirBlock hv, l.dir.find]

theorem congr (l : Listed es s) (hd : s'.fsData = s.fsData) (hi : s'.inodeTable = s.inodeTable)
    (ht : s'.freeinodeTs = s.freeinodeTs) : Listed es s' where
  dir := by rw [hd]; exact l.dir
  inumber := l.inumber
  rootType := by rw [hi, l.rootType]
  rootBlock := by rw [hi, l.rootBlock]
  taken i h := by rw [ht, l.taken i h]

theorem firstFree_inode (l : Listed es s) : firstFree s.freeinodeTs inodeTableSize = some (es.length + 1) := by
  have hlt := l.length_lt
  refine firstFree_eq_some.mpr ⟨hlt, ?_, fun j hj => (l.taken j (by omega)).mpr (by omega)⟩
  have h := l.taken _ hlt
  cases hc : s.freeinodeTs (es.length + 1) with
  | free => rfl
  | taken => exact absurd (h.mp hc) (by omega)

def newEntry (l : Listed es s) (subName : CString) : DirEntry :=
  .ofName subName (es.length + 1 : Nat) (by
    have h := l.length_lt
    simp only [inodeTableSize] at h
    exact ⟨⟨by omega, by omega⟩, by omega⟩)

theorem create (l : Listed es s) (hroom : es.length < maxDirEntries) (subName : CString) :
    ∃ m, fillDirEntry s.fsData 0 (es.length + 1 : Nat) subName = some m ∧
      Listed (es ++ [l.newEntry subName]) ((newFile s (es.length + 1)).setDisk { s.toDisk with fsData := m }) := by
  have hroot : (0 : Nat) ≠ es.length + 1 := by omega
  obtain ⟨m, hm, hdir, -⟩ := l.dir.fill (l.newEntry subName).used subName hroom
  refine ⟨m, hm, ?_⟩
  exact {
    dir := hdir
    inumber := fun i hi => by
      rw [List.getElem_append]
      split
      · next h => exact l.inumber i h
      · next h =>
        obtain rfl : i = es.length := by simp at hi; omega
        simp [newEntry, DirEntry.ofName]
    rootType := by rw [State.setDisk_inodeTable, Consistent.newFile_inodeTable_of_ne hroot, l.rootType]
    rootBlock := by rw [State.setDisk_inodeTable, Consistent.newFile_inodeTable_of_ne hroot, l.rootBlock]
    taken := fun i hi => by
      rw [State.setDisk_freeinodeTs, Consistent.newFile_freeinodeTs, List.length_append, List.length_singleton]
      split
      · next h => simp [h]
      · next h =>
        rw [l.taken i hi]
        omega }

theorem room_iff (l : Listed es s) : (∃ k < maxDirEntries, dInumber s.fsData 0 k = -1) ↔ es.length < maxDirEntries := by
  constructor
  · rintro ⟨k, hk, he⟩
    by_contra hlt
    have hk' : k < es.length := by omega
    rw [l.dir.inumber k hk', l.inumber k hk'] at he
    omega
  · exact fun h => ⟨es.length, h, l.dir.empty _ le_rfl h⟩

end Listed

abbrev Grants := List (CString × Int)

def grant (c : Call) (o : Out) (s : State) : Grants :=
  match c with
  | .open (some name) _ => if 0 ≤ o.ret then [(name, (s.openFileTable o.ret.toNat).ofInumber)] else []
  | _ => []

/-- A call, and what it adds to the successful opens so far. -/
def grantedCall (x : LockedState × Grants) (c : Call) : Option (Out × LockedState × Grants) :=
  (x.1.call c).map fun y => (y.1, y.2, x.2 ++ grant c y.1 y.2.toState)

def Room (s : State) : Prop :=
  (∃ k < maxDirEntries, dInumber s.fsData 0 k = -1) ∧ ∃ h < maxOpenFiles, s.freeOpenFileEntries h = .free

def CreatesOrCloses (s : State) : Call → Prop
  | .open name flags => validPathname name = true ∧ hasFlag flags tfsOCreat = true ∧ Room s
  | .close _ => True
  | .write _ _ | .read _ _ => False

/-- What is left of the name after the slash fits in a directory entry, with its final zero. -/
def Fits (name : CString) : Prop := name.tail.strlen < maxFileName

instance (name : CString) : Decidable (Fits name) := inferInstanceAs (Decidable (_ < _))

/-- Names that were opened are found, on the i-node that they were opened on; opening them again gives that i-node
and leaves the directory alone; no i-node has two names. -/
structure ActsAsMap (x : LockedState × Grants) : Prop where
  found : ∀ y ∈ x.2, validInumber y.2 ∧ lookup x.1.toState (some y.1) = y.2
  reopened : ∀ y ∈ x.2, ∀ flags, CreatesOrCloses x.1.toState (.open (some y.1) flags) →
    ∃ o x', x.1.call (.open (some y.1) flags) = some (o, x') ∧ x'.toOpenFiles.IsOpen o.ret ∧
      (x'.openFileTable o.ret.toNat).ofInumber = y.2 ∧ x'.fsData = x.1.fsData
  injective : ∀ p q, lookup x.1.toState p = lookup x.1.toState q → lookup x.1.toState p ≠ -1 → p = q

/-- While there is room, the locks of the files that were opened are granted to a writer. -/
def Lockable (x : LockedState × Grants) : Prop := Room x.1.toState → ∀ y ∈ x.2, (x.1.rwl y.2.toNat).wrlock.isSome

theorem grantedCall_of_grants {x : LockedState × Grants} {c : Call} (hg : x.1.Grants c) {o : Out} {s : State}
    (hc : x.1.toState.call c = some (o, s)) :
    ∃ x', grantedCall x c = some (o, x', x.2 ++ grant c o s) ∧ x'.toState = s := by
  obtain ⟨x', hx, rfl⟩ := x.1.call_of_grants hg hc
  exact ⟨x', by rw [grantedCall, hx]; rfl, rfl⟩

theorem grants_new {x : LockedState} {name : Option CString} (h : lookup x.toState name = -1) (flags : Int) :
    x.Grants (.open name flags) := by
  intro i hi
  rw [lockedInode, h] at hi
  cases hi

theorem lookupEntry_of_not_fits (es : List DirEntry) {name : CString} (h : ¬ Fits name) :
    lookupEntry es name.tail = -1 := by
  rcases lookupEntry_cases es name.tail with ⟨i, hi, hn, -⟩ | ⟨-, he⟩
  · have hshort := es[i].short
    rw [hn] at hshort
    exact absurd hshort h
  · exact he

theorem Listed.open_existing {es : List DirEntry} {s : State} (l : Listed es s) {name : CString} (flags : Int)
    (hv : validPathname (some name) = true) (hfree : ∃ h < maxOpenFiles, s.freeOpenFileEntries h = .free) {i : Nat}
    (hi : i < es.length) (he : lookupEntry es name.tail = i + 1) (hz : (s.inodeTable (i + 1)).iSize = 0) :
    ∃ h f, s.call (.open (some name) flags) = some (⟨h, []⟩, s.setFiles f) ∧ f.IsOpen h ∧
      (f.openFileTable h.toNat).ofInumber = i + 1 := by
  have hlt := l.length_lt
  have hfind : findDirEntry s.fsData 0 name.tail = (i + 1 : Nat) := by rw [l.dir.find, he]; rfl
  rw [call_open, run_tfsOpen_existing l.dirBlock hv hfind (by omega) fun _ => hz, run_addToOpenFileTable]
  obtain ⟨ho, ht⟩ := addToOpenFileTable_of_free hfree (i + 1 : Nat)
    (if hasFlag flags tfsOAppend then (s.inodeTable (i + 1)).iSize else 0)
  exact ⟨_, _, rfl, ho, by rw [ht]; rfl⟩

theorem Listed.open_new {es : List DirEntry} {s : State} (l : Listed es s) {name : CString} {flags : Int}
    (hc : CreatesOrCloses s (.open (some name) flags)) (he : lookupEntry es name.tail = -1) :
    ∃ h f m, s.call (.open (some name) flags) =
        some (⟨h, []⟩, ((newFile s (es.length + 1)).setDisk { s.toDisk with fsData := m }).setFiles f) ∧ f.IsOpen h ∧
      (f.openFileTable h.toNat).ofInumber = es.length + 1 ∧
      Listed (es ++ [l.newEntry name.tail]) ((newFile s (es.length + 1)).setDisk { s.toDisk with fsData := m }) := by
  obtain ⟨hv, hcreat, hroom, hfree⟩ := hc
  obtain ⟨m, hm, hnew⟩ := l.create (l.room_iff.mp hroom) name.tail
  have hfind : findDirEntry s.fsData 0 name.tail = -1 := by rw [l.dir.find, he]
  rw [call_open, run_tfsOpen_new l.dirBlock hv hfind hcreat l.firstFree_inode (by omega) hm, run_addToOpenFileTable]
  obtain ⟨ho, ht⟩ := addToOpenFileTable_of_free hfree (es.length + 1 : Nat) 0
  exact ⟨_, _, m, rfl, ho, by exact congrArg OpenFileEntry.ofInumber ht, hnew⟩

structure Grows (es : List DirEntry) (x : LockedState × Grants) : Prop where
  listed : Listed es x.1.toState
  nodup : (es.map (·.name)).Nodup
  empty : ∀ i, 0 < i → i ≤ es.length → (x.1.inodeTable i).iSize = 0
  granted : ∀ y ∈ x.2, validPathname (some y.1) = true ∧
    ∃ i, ∃ h : i < es.length, es[i].name = y.1.tail.bytes ∧ y.2 = i + 1
  opened : ∀ i (h : i < es.length), ∃ y ∈ x.2, es[i].name = y.1.tail.bytes

theorem eq_of_tail {p q : CString} (hp : validPathname (some p) = true) (hq : validPathname (some q) = true)
    (h : p.tail.bytes = q.tail.bytes) : p = q := by
  have hcons : ∀ r : CString, validPathname (some r) = true → r.bytes = 47 :: r.tail.bytes := by
    intro r hr
    obtain ⟨bytes, hno⟩ := r
    cases bytes with
    | nil => simp [validPathname, CString.strlen] at hr
    | cons b bytes =>
      simp only [validPathname, CString.char, Bool.and_eq_true, beq_iff_eq] at hr
      simpa [CString.tail] using hr.2
  exact CString.eq_of_bytes ((hcons p hp).trans ((congrArg (List.cons 47) h).trans (hcons q hq).symm))

namespace Grows

variable {es : List DirEntry} {x x' : LockedState × Grants} {name : CString} {flags : Int}

theorem of_listed {x : LockedState} (l : Listed [] x.toState) : Grows [] (x, []) where
  listed := l
  nodup := List.nodup_nil
  empty i h0 h1 := absurd h1 (by simp only [List.length_nil]; omega)
  granted _ h := absurd h List.not_mem_nil
  opened _ h := absurd h (Nat.not_lt_zero _)

theorem init : Grows [] (.init, []) :=
  of_listed (by
    rw [LockedState.init, LockedState.toState_ofState]
    exact Listed.init)

theorem lookupEntry_eq (g : Grows es x) {i : Nat} (hi : i < es.length) {subName : CString}
    (hn : es[i].name = subName.bytes) : lookupEntry es subName = i + 1 := by
  rcases lookupEntry_cases es subName with ⟨k, hk, hk', he⟩ | ⟨hno, -⟩
  · have hki : k < (es.map DirEntry.name).length := by simpa
    have hii : i < (es.map DirEntry.name).length := by simpa
    have hnames : (es.map DirEntry.name)[k] = (es.map DirEntry.name)[i] := by simp [hk', hn]
    obtain rfl : k = i := g.nodup.getElem_inj_iff.mp hnames
    rw [he, g.listed.inumber k hk]
  · exact absurd hn (hno _ (List.getElem_mem hi))

theorem of_lookup (g : Grows es x) {name : Option CString} (hne : lookup x.1.toState name ≠ -1) :
    ∃ p, name = some p ∧ validPathname (some p) = true ∧
      ∃ i, ∃ h : i < es.length, es[i].name = p.tail.bytes ∧ lookup x.1.toState name = i + 1 := by
  have hv : validPathname name = true := by
    by_contra hv
    exact hne (lookup_of_not_valid hv)
  cases name with
  | none => cases hv
  | some p =>
    rw [g.listed.lookup hv] at hne ⊢
    rcases lookupEntry_cases es p.tail with ⟨i, hi, hn, hl⟩ | ⟨-, hl⟩
    · exact ⟨p, rfl, hv, i, hi, hn, by rw [hl, g.listed.inumber i hi]⟩
    · exact absurd hl hne

theorem granted_lookup (g : Grows es x) {y : CString × Int} (hy : y ∈ x.2) :
    ∃ i < es.length, lookup x.1.toState (some y.1) = (i + 1 : Nat) ∧ y.2 = (i + 1 : Nat) := by
  obtain ⟨hv, i, hi, hn, he⟩ := g.granted y hy
  exact ⟨i, hi, by rw [g.listed.lookup hv, g.lookupEntry_eq hi hn]; rfl, he⟩

theorem grants_iff (g : Grows es x) {y : CString × Int} (hy : y ∈ x.2) (flags : Int) :
    x.1.Grants (.open (some y.1) flags) ↔ (x.1.rwl y.2.toNat).wrlock.isSome := by
  obtain ⟨i, hi, hl, he⟩ := g.granted_lookup hy
  have hlt := g.listed.length_lt
  have hget : lockedInode x.1.toState (.open (some y.1) flags) = some (i + 1) := by
    rw [lockedInode, hl, inodeGet_natCast (by omega)]
  rw [LockedState.Grants, hget, he]
  simp [takeRwl]

theorem actsAsMap (g : Grows es x) (hlock : Lockable x) : ActsAsMap x where
  found y hy := by
    obtain ⟨i, hi, hl, he⟩ := g.granted_lookup hy
    have hlt := g.listed.length_lt
    rw [hl, he]
    exact ⟨validInumber_natCast (by omega), rfl⟩
  reopened y hy flags hc := by
    obtain ⟨hv, i, hi, hn, he⟩ := g.granted y hy
    obtain ⟨h, f, hcall, ho, hin⟩ := g.listed.open_existing flags hv hc.2.2.2 hi (g.lookupEntry_eq hi hn)
      (g.empty (i + 1) (by omega) (by omega))
    obtain ⟨x', hx, hs⟩ := x.1.call_of_grants ((g.grants_iff hy flags).mpr (hlock hc.2.2 y hy)) hcall
    refine ⟨_, x', hx, ?_⟩
    rw [hs, he]
    exact ⟨ho, hin, rfl⟩
  injective p q he hne := by
    obtain ⟨p, rfl, hp, i, hi, hn, hl⟩ := g.of_lookup hne
    obtain ⟨q, rfl, hq, k, hk, hn', hl'⟩ := g.of_lookup (he ▸ hne)
    obtain rfl : i = k := by omega
    rw [eq_of_tail hp hq (hn.symm.trans hn')]

theorem lockable (g : Grows es x) (hm : ActsAsMap x) : Lockable x := by
  intro hroom y hy
  obtain ⟨o, x', hcall, -⟩ := hm.reopened y hy tfsOCreat ⟨(g.granted y hy).1, by decide, hroom⟩
  exact (g.grants_iff hy tfsOCreat).mp (LockedState.grants_of_call hcall)

theorem grants (g : Grows es x) (hlock : Lockable x) {c : Call} (hc : CreatesOrCloses x.1.toState c) :
    x.1.Grants c := by
  cases c with
  | write fhandle buffer => exact hc.elim
  | read fhandle len => exact hc.elim
  | close fhandle => exact fun i hi => by cases hi
  | «open» name flags =>
    by_cases hnew : lookup x.1.toState name = -1
    · exact grants_new hnew flags
    · obtain ⟨p, rfl, hp, i, hi, hn, -⟩ := g.of_lookup hnew
      obtain ⟨y, hy, hname⟩ := g.opened i hi
      obtain rfl := eq_of_tail hp (g.granted y hy).1 (hn.symm.trans hname)
      exact (g.grants_iff hy flags).mpr (hlock hc.2.2 y hy)

theorem setFiles (g : Grows es x) {f : OpenFiles} {x' : LockedState} (hx : x'.toState = x.1.toState.setFiles f)
    {gs : Grants} (hg : ∀ y ∈ gs, validPathname (some y.1) = true ∧
      ∃ i, ∃ h : i < es.length, es[i].name = y.1.tail.bytes ∧ y.2 = i + 1) :
    Grows es (x', x.2 ++ gs) where
  listed := by
    rw [hx]
    exact g.listed.congr rfl rfl rfl
  nodup := g.nodup
  empty := by
    rw [hx]
    exact g.empty
  granted y hy := (List.mem_append.mp hy).elim (g.granted y) (hg y)
  opened i hi := (g.opened i hi).imp fun _ h => ⟨List.mem_append_left _ h.1, h.2⟩

theorem open_new (g : Grows es x) (hc : CreatesOrCloses x.1.toState (.open (some name) flags))
    (he : lookupEntry es name.tail = -1) :
    ∃ o x', grantedCall x (.open (some name) flags) = some (o, x', x.2 ++ [(name, (es.length : Int) + 1)]) ∧
      Listed (es ++ [g.listed.newEntry name.tail]) x'.toState ∧
      ∀ i, 0 < i → i ≤ es.length + 1 → (x'.inodeTable i).iSize = 0 := by
  obtain ⟨h, f, m, hcall, ho, hin, hl⟩ := g.listed.open_new hc he
  have hret : (0 : Int) ≤ h := ho.1.1
  have hnew : lookup x.1.toState (some name) = -1 := by rw [g.listed.lookup hc.1, he]
  obtain ⟨x', hx, hs⟩ := grantedCall_of_grants (grants_new hnew flags) hcall
  simp only [grant, if_pos hret, State.setFiles_toOpenFiles, hin] at hx
  refine ⟨_, x', hx, ?_⟩
  rw [hs]
  refine ⟨hl.congr rfl rfl rfl, fun i h0 hi => ?_⟩
  by_cases hnew : i = es.length + 1
  · simp [newFile, State.setInode_inodeTable, hnew]
  · rw [State.setFiles_inodeTable, State.setDisk_inodeTable, Consistent.newFile_inodeTable_of_ne hnew]
    exact g.empty i h0 (by omega)

theorem step (g : Grows es x) {c : Call} (hc : CreatesOrCloses x.1.toState c)
    (hfits : ∀ name flags, c = .open (some name) flags → Fits name) (hg : x.1.Grants c) :
    ∃ o x' es', grantedCall x c = some (o, x') ∧ Grows es' x' := by
  cases c with
  | write fhandle buffer => exact hc.elim
  | read fhandle len => exact hc.elim
  | close fhandle =>
    obtain ⟨x', hx, hs⟩ := grantedCall_of_grants hg (call_close fhandle)
    exact ⟨_, _, es, hx, g.setFiles hs (by simp [grant])⟩
  | «open» name flags =>
    cases name with
    | none => exact absurd hc.1 (by decide)
    | some name =>
      rcases lookupEntry_cases es name.tail with ⟨i, hi, hn, -⟩ | ⟨hno, he⟩
      · obtain ⟨h, f, hcall, ho, hin⟩ := g.listed.open_existing flags hc.1 hc.2.2.2 hi
          (g.lookupEntry_eq hi hn) (g.empty (i + 1) (by omega) (by omega))
        obtain ⟨x', hx, hs⟩ := grantedCall_of_grants hg hcall
        refine ⟨_, _, es, hx, g.setFiles hs fun y hy => ?_⟩
        have hret : (0 : Int) ≤ h := ho.1.1
        simp only [grant, if_pos hret, List.mem_singleton, State.setFiles_toOpenFiles, hin] at hy
        subst hy
        exact ⟨hc.1, i, hi, hn, rfl⟩
      · obtain ⟨o, x', hcall, hl, hz⟩ := g.open_new hc he
        have hshort := hfits name flags rfl
        have hname : (g.listed.newEntry name.tail).name = name.tail.bytes := by
          simp only [Fits, CString.strlen, maxFileName] at hshort
          exact List.take_of_length_le (by simp only [maxFileName]; omega)
        refine ⟨o, _, es ++ [g.listed.newEntry name.tail], hcall, ?_⟩
        exact {
          listed := hl
          nodup := by
            rw [List.map_append, List.nodup_append]
            refine ⟨g.nodup, by simp, fun n hn n' hn' => ?_⟩
            obtain ⟨e, hmem, rfl⟩ := List.mem_map.mp hn
            rw [List.map_singleton, List.mem_singleton, hname] at hn'
            rw [hn']
            exact hno e hmem
          empty := fun i h0 hi => hz i h0 (by simpa using hi)
          granted := fun y hy => by
            rcases List.mem_append.mp hy with hy | hy
            · obtain ⟨hv, i, hi, hn, hi'⟩ := g.granted y hy
              refine ⟨hv, i, by simp; omega, ?_, hi'⟩
              rwa [List.getElem_append_left hi]
            · rw [List.mem_singleton.mp hy]
              refine ⟨hc.1, es.length, by simp, ?_, rfl⟩
              simp [hname]
          opened := fun i hi => by
            by_cases hold : i < es.length
            · obtain ⟨y, hy, hn⟩ := g.opened i hold
              exact ⟨y, List.mem_append_left _ hy, by rwa [List.getElem_append_left hold]⟩
            · obtain rfl : i = es.length := by simp at hi; omega
              exact ⟨(name, (es.length : Int) + 1), by simp, by simp [hname]⟩ }

theorem not_actsAsMap (g : Grows es x) (hc : CreatesOrCloses x.1.toState (.open (some name) flags))
    (hlong : ¬ Fits name) : ∃ o x', grantedCall x (.open (some name) flags) = some (o, x') ∧ ¬ ActsAsMap x' := by
  obtain ⟨o, x', hcall, hl, -⟩ := g.open_new hc (lookupEntry_of_not_fits es hlong)
  refine ⟨o, _, hcall, fun hm => ?_⟩
  obtain ⟨hvalid, hfound⟩ := hm.found (name, es.length + 1) (by simp)
  rw [hl.lookup hc.1, lookupEntry_of_not_fits _ hlong] at hfound
  omega

theorem fits (g : Grows es x) {cs : List Call}
    (ha : Runs.Along grantedCall (fun x c => CreatesOrCloses x.1.toState c) x cs)
    (hm : ∀ ds es, cs = ds ++ es → ∀ outs y, Runs.run grantedCall x ds = some (outs, y) → ActsAsMap y) :
    (∀ name flags, .open (some name) flags ∈ cs → Fits name) ∧
      ∀ ds es, cs = ds ++ es → ∀ outs y, Runs.run grantedCall x ds = some (outs, y) → Lockable y := by
  induction cs generalizing es x with
  | nil =>
    refine ⟨by simp, fun ds ds' hds outs y hr => ?_⟩
    obtain ⟨rfl, -⟩ := List.append_eq_nil_iff.mp hds.symm
    cases hr
    exact g.lockable (hm [] [] rfl _ _ rfl)
  | cons c cs ih =>
    obtain ⟨hc, hcs⟩ := ha
    have hlock := g.lockable (hm [] (c :: cs) rfl _ _ rfl)
    have hfits : ∀ name flags, c = .open (some name) flags → Fits name := by
      rintro name flags rfl
      by_contra hlong
      obtain ⟨o, y, hcall, hno⟩ := g.not_actsAsMap hc hlong
      refine hno (hm [.open (some name) flags] cs rfl [o] y ?_)
      rw [Runs.run_cons hcall]
      rfl
    obtain ⟨o, y, es', hcall, g'⟩ := g.step hc hfits (g.grants hlock hc)
    rw [hcall] at hcs
    obtain ⟨hrest, hlocks⟩ := ih g' hcs fun ds es hds outs z hr =>
      hm (c :: ds) es (by rw [hds]; rfl) (o :: outs) z (by rw [Runs.run_cons hcall, hr]; rfl)
    refine ⟨fun name flags hmem => (List.mem_cons.mp hmem).elim (fun he => hfits name flags he.symm) (hrest name flags),
      fun ds ds' hds outs z hr => ?_⟩
    cases ds with
    | nil =>
      cases hr
      exact hlock
    | cons d ds =>
      obtain ⟨rfl, htail⟩ := List.cons.inj hds
      obtain ⟨o', outs', z', hd, hr', -⟩ := Runs.run_cons_eq_some hr
      obtain ⟨rfl, rfl⟩ := Prod.mk.inj (Option.some.inj (hcall.symm.trans hd))
      exact hlocks ds ds' htail outs' z hr'

theorem of_run (g : Grows es x) {cs : List Call} {outs : List Out} (hr : Runs.run grantedCall x cs = some (outs, x'))
    (ha : Runs.Along grantedCall (fun x c => CreatesOrCloses x.1.toState c) x cs)
    (hfits : ∀ name flags, .open (some name) flags ∈ cs → Fits name) : ∃ es', Grows es' x' := by
  induction cs generalizing es x outs with
  | nil =>
    cases hr
    exact ⟨es, g⟩
  | cons c cs ih =>
    obtain ⟨hc, hcs⟩ := ha
    obtain ⟨o', outs', y', hcall', hr', -⟩ := Runs.run_cons_eq_some hr
    obtain ⟨z, hz, -⟩ := Option.map_eq_some_iff.mp hcall'
    have hg := LockedState.grants_of_call hz
    obtain ⟨o, y, es', hcall, g'⟩ := g.step hc (fun name flags he => hfits name flags (he ▸ List.mem_cons_self)) hg
    obtain ⟨rfl, rfl⟩ := Prod.mk.inj (Option.some.inj (hcall.symm.trans hcall'))
    rw [hcall] at hcs
    exact ih g' hr' hcs fun name flags hmem => hfits name flags (List.mem_cons_of_mem _ hmem)

end Grows

/-- Opens that create files and closes, while there is room: the directory acts as a map in every state exactly when
every name fits in its entry and no state keeps the next open of a file waiting for its lock. -/
theorem actsAsMap_iff {cs : List Call}
    (ha : Runs.Along grantedCall (fun x c => CreatesOrCloses x.1.toState c) (.init, []) cs) :
    (∀ ds es, cs = ds ++ es → ∀ outs x, Runs.run grantedCall (.init, []) ds = some (outs, x) → ActsAsMap x) ↔
      (∀ name flags, .open (some name) flags ∈ cs → Fits name) ∧
        ∀ ds es, cs = ds ++ es → ∀ outs x, Runs.run grantedCall (.init, []) ds = some (outs, x) → Lockable x := by
  refine ⟨Grows.init.fits ha, fun ⟨hfits, hlock⟩ ds es hcs outs x hr => ?_⟩
  obtain ⟨es', g⟩ := Grows.init.of_run hr (hcs ▸ ha).of_append.1 fun name flags hmem =>
    hfits name flags (hcs ▸ List.mem_append_left _ hmem)
  exact g.actsAsMap (hlock ds es hcs outs x hr)

instance (s : State) : Decidable (Room s) := inferInstanceAs (Decidable (_ ∧ _))

instance (s : State) : ∀ c, Decidable (CreatesOrCloses s c)
  | .open _ _ => inferInstanceAs (Decidable (_ ∧ _))
  | .close _ => isTrue trivial
  | .write _ _ | .read _ _ => isFalse id

theorem lockable_of_truncatesNothing {ds es : List Call}
    (ha : Runs.Along grantedCall (fun x c => TruncatesNothing x.1.toState c) (.init, []) (ds ++ es)) {outs : List Out}
    {x : LockedState × Grants} (hr : Runs.run grantedCall (.init, []) ds = some (outs, x)) : Lockable x := by
  have hfree : (LockedState.init, ([] : Grants)).1.IsFree := LockedState.isFree_ofState State.init
  have hx := Runs.run_invariant (I := fun x => x.1.IsFree) (P := fun _ => True) (fun x c o x' hi hc hs => by
    obtain ⟨y, hy, he⟩ := Option.map_eq_some_iff.mp hs
    cases he
    exact ⟨trivial, hi.call hc hy⟩) hfree ha.of_append.1 hr
  intro _ y _
  rw [(hx.2 _).wrlock]
  rfl

/-- Two files; one is closed and opened again. -/
theorem actsAsMap_two_files :
    let f : CString := ⟨47 :: List.replicate 39 102, by decide⟩
    let g : CString := ⟨47 :: List.replicate 38 102, by decide⟩
    ∀ ds es, [Call.open (some f) tfsOCreat, .open (some g) tfsOCreat, .close 0, .open (some f) tfsOCreat] = ds ++ es →
      ∀ outs x, Runs.run grantedCall (.init, []) ds = some (outs, x) → ActsAsMap x := by
  intro f g
  refine (actsAsMap_iff (by decide +kernel)).mpr ⟨fun name flags hmem => ?_, ?_⟩
  · have hname : name = f ∨ name = g := by
      simp only [List.mem_cons, Call.open.injEq, Option.some.injEq, reduceCtorEq, List.not_mem_nil, or_false,
        false_or] at hmem
      tauto
    rcases hname with rfl | rfl <;> decide
  · intro ds es he outs x hr
    have ha : Runs.Along grantedCall (fun x c => TruncatesNothing x.1.toState c) (.init, [])
        [.open (some f) tfsOCreat, .open (some g) tfsOCreat, .close 0, .open (some f) tfsOCreat] := by decide +kernel
    exact lockable_of_truncatesNothing (he ▸ ha) hr

/-- A name of 40 bytes after the slash is cut when it is stored. -/
theorem long_name_not_found : ¬ ∀ (cs : List Call),
    Runs.Along grantedCall (fun x c => CreatesOrCloses x.1.toState c) (.init, []) cs →
      ∀ outs x, Runs.run grantedCall (.init, []) cs = some (outs, x) → ActsAsMap x := by
  intro h
  let name : CString := ⟨47 :: List.replicate 40 102, by decide⟩
  have hend : (Runs.run grantedCall (.init, []) [.open (some name) tfsOCreat]).map (fun x =>
      (x.2.2, lookup x.2.1.toState (some name))) = some ([(name, 1)], -1) := by decide +kernel
  obtain ⟨x, hx, he⟩ := Option.map_eq_some_iff.mp hend
  obtain ⟨hgrants, hlook⟩ := Prod.mk.inj he
  have hfound := (h _ (by decide +kernel) x.1 x.2 hx).found (name, 1) (by rw [hgrants]; exact List.mem_singleton_self _)
  exact absurd (hlook.symm.trans hfound.2) (by decide)

end Tecnicofs.Ex1
