import Tecnicofs.Ex2.Invariant
import Tecnicofs.Lib.Runs

/-! Project 2: what a file's readers learn of the other files.  The count of a read is computed as
`i_size - of_offset`, which wraps when the file was truncated behind the handle's back; a read or write there
reaches bytes of a block that other files used. -/

namespace Tecnicofs.Ex2

open Bytes

def readsFile (f : Nat) (s : State) : Call → Bool
  | .read fhandle _ => (s.openFileTable fhandle.toNat).ofInumber = f
  | _ => false

/-- The same call on an open handle, up to the bytes written to files other than `f`. -/
def SameCall (f : Nat) (s : State) : Call → Call → Prop
  | .open name flags, .open name' flags' => name' = name ∧ flags' = flags
  | .close h, .close h' => h' = h ∧ s.toOpenFiles.IsOpen h
  | .write h buffer, .write h' buffer' =>
    h' = h ∧ s.toOpenFiles.IsOpen h ∧ buffer'.length = buffer.length ∧
      ((s.openFileTable h.toNat).ofInumber = f → buffer' = buffer)
  | .read h len, .read h' len' => h' = h ∧ len' = len ∧ s.toOpenFiles.IsOpen h
  | _, _ => False

/-- Reads of `f` that ask for a byte, and writes to `f` that store one, start inside the file. -/
def StartsInside (f : Nat) (s : State) : Call → Prop
  | .write h buffer =>
    (s.openFileTable h.toNat).ofInumber = f → 0 < buffer.length →
      (s.openFileTable h.toNat).ofOffset < blockSize →
        (s.openFileTable h.toNat).ofOffset ≤ (s.inodeTable f).iSize
  | .read h len =>
    (s.openFileTable h.toNat).ofInumber = f → 0 < len →
      (s.openFileTable h.toNat).ofOffset ≤ (s.inodeTable f).iSize
  | _ => True

instance (f : Nat) (s : State) : ∀ c c', Decidable (SameCall f s c c')
  | .open _ _, .open _ _ => inferInstanceAs (Decidable (_ ∧ _))
  | .close _, .close _ => inferInstanceAs (Decidable (_ ∧ _))
  | .write _ _, .write _ _ => inferInstanceAs (Decidable (_ ∧ _))
  | .read _ _, .read _ _ => inferInstanceAs (Decidable (_ ∧ _))
  | .open _ _, .close _ | .open _ _, .write _ _ | .open _ _, .read _ _ => inferInstanceAs (Decidable False)
  | .close _, .open _ _ | .close _, .write _ _ | .close _, .read _ _ => inferInstanceAs (Decidable False)
  | .write _ _, .open _ _ | .write _ _, .close _ | .write _ _, .read _ _ => inferInstanceAs (Decidable False)
  | .read _ _, .open _ _ | .read _ _, .close _ | .read _ _, .write _ _ => inferInstanceAs (Decidable False)

instance (f : Nat) (s : State) : ∀ c, Decidable (StartsInside f s c)
  | .open _ _ | .close _ => inferInstanceAs (Decidable True)
  | .write _ _ => inferInstanceAs (Decidable (_ → _))
  | .read _ _ => inferInstanceAs (Decidable (_ → _))

/-- The data `m` put under the tables of `s` keeps the directory and the bytes of `f`. -/
structure SameFor (f : Nat) (es : List DirEntry) (s : State) (m : Mem) : Prop where
  wf : Wf es s
  wf' : Wf es (s.setData m)
  bytes : 0 < f → f ≤ es.length → fileBytes (s.setData m) f = fileBytes s f

section
variable (s : State) (m : Mem)

theorem openHandle_setData (inum : Int) (offset : Nat) : openHandle (s.setData m) inum offset =
    ((openHandle s inum offset).1, (openHandle s inum offset).2.setData m) := rfl

theorem truncate_setData (j : Nat) :
    truncate (s.setData m) j = ((truncate s j).1, (truncate s j).2.setData m) := by
  have hi : (s.setData m).inodeTable j = s.inodeTable j := rfl
  unfold truncate dataBlockFree
  rw [hi]
  by_cases hs : (s.inodeTable j).iSize > 0
  · rw [if_pos hs, if_pos hs]
    by_cases hv : validBlockNumber (s.inodeTable j).iDataBlock
    · simp only [if_pos hv]
      rfl
    · simp only [if_neg hv]
      rfl
  · rw [if_neg hs, if_neg hs]

theorem openedState_setData (j : Nat) (flags : Int) :
    openedState (s.setData m) j flags = (openedState s j flags).setData m := by
  unfold openedState
  rw [truncate_setData]
  split <;> rfl

theorem openedOffset_setData (j : Nat) (flags : Int) :
    openedOffset (s.setData m) j flags = openedOffset s j flags := by
  unfold openedOffset
  rw [openedState_setData]
  rfl

theorem tfsClose_setData (fhandle : Int) :
    tfsClose (s.setData m) fhandle = ((tfsClose s fhandle).1, (tfsClose s fhandle).2.setData m) := by
  by_cases ho : s.toOpenFiles.IsOpen fhandle
  · rw [tfsClose_of_isOpen ho, tfsClose_of_isOpen (s := s.setData m) ho]
    rfl
  · rw [tfsClose_of_not ho, tfsClose_of_not (s := s.setData m) ho]

theorem written_setData (file j b : Nat) {bytes bytes' : List UInt8} (h : bytes'.length = bytes.length) :
    written (s.setData m) file j b bytes' = (written s file j b bytes).setData
      (m.store (b * blockSize + (s.openFileTable file).ofOffset) bytes') := by
  unfold written
  rw [h]
  rfl

theorem tfsRead_setData (fhandle : Int) (len : Nat) :
    Option.Rel (fun x y => y.2 = x.2.setData m) (tfsRead s fhandle len) (tfsRead (s.setData m) fhandle len) := by
  unfold tfsRead
  rw [State.setData_toOpenFiles, State.setData_inodeTable]
  cases getOpenFileEntry fhandle with
  | none => exact .some rfl
  | some file =>
    simp only
    cases inodeGet (s.openFileTable file).ofInumber with
    | none => exact .some rfl
    | some inode =>
      simp only
      by_cases hn : toRead (s.inodeTable inode).iSize (s.openFileTable file).ofOffset len > 0
      · rw [if_pos hn, if_pos hn]
        cases dataBlockGet (s.inodeTable inode).iDataBlock with
        | none => exact .some rfl
        | some block =>
          simp only [Disk.load]
          by_cases hfit : block + (s.openFileTable file).ofOffset +
              toRead (s.inodeTable inode).iSize (s.openFileTable file).ofOffset len ≤ fsDataSize
          · rw [if_pos hfit, if_pos hfit]
            exact .some rfl
          · rw [if_neg hfit, if_neg hfit]
            exact .none
      · rw [if_neg hn, if_neg hn]
        exact .some rfl

theorem tfsRead_zero {s : State} {file j : Nat} (hf : file < maxOpenFiles)
    (hi : (s.openFileTable file).ofInumber = j) (hj : j < inodeTableSize) :
    tfsRead s file 0 = some (⟨0, []⟩, s) := by
  have hinode := inodeGet_natCast hj
  rw [tfsRead, getOpenFileEntry_natCast hf]
  simp only [hi, hinode, toRead_zero]
  rfl

end

namespace SameFor

variable {f : Nat} {es : List DirEntry} {s : State} {m : Mem}

theorem refl (w : Wf es s) : SameFor f es s s.fsData := ⟨w, w, fun _ _ => rfl⟩

theorem bytes_of_le {s' : State} (r : SameFor f es s m) (h0 : 0 < f) (hf : f ≤ es.length)
    (hd : s'.fsData = s.fsData) (hb : (s'.inodeTable f).iDataBlock = (s.inodeTable f).iDataBlock)
    (hs : (s'.inodeTable f).iSize ≤ (s.inodeTable f).iSize) : fileBytes (s'.setData m) f = fileBytes s' f := by
  have h := r.bytes h0 hf
  simp only [fileBytes, State.setData_fsData, State.setData_inodeTable] at h ⊢
  rw [hb, hd]
  exact Mem.load_prefix h hs

theorem opened (r : SameFor f es s m) {name : Option CString} {flags : Int} {es₁ es₂ : List DirEntry}
    {x y : Int × State} (hx : Opened es s name flags es₁ x) (hy : Opened es (s.setData m) name flags es₂ y) :
    y.1 = x.1 ∧ y.2 = x.2.setData y.2.fsData ∧ SameFor f es₁ x.2 y.2.fsData := by
  have hwx := r.wf.of_opened hx
  have hwy := r.wf'.of_opened hy
  cases hx with
  | @existing sub i hs hv hi hn hl =>
    cases hy with
    | @existing sub' k hs' hv' hk hn' hl' =>
      obtain rfl := Option.some.inj (hs.symm.trans hs')
      obtain rfl : k = i := by
        rw [hl] at hl'
        omega
      rw [openedState_setData, openedOffset_setData, openHandle_setData] at hwy ⊢
      refine ⟨rfl, rfl, hwx, hwy, fun h0 hf => ?_⟩
      rcases r.wf.openedState_cases (j := k + 1) (by omega) hi flags with he | ⟨b, he⟩ <;> rw [he]
      · exact r.bytes_of_le h0 hf rfl rfl le_rfl
      · refine r.bytes_of_le h0 hf rfl ?_ ?_ <;> simp only [openHandle, State.setFiles_inodeTable,
          State.setInode_inodeTable, State.setDisk_inodeTable] <;> split <;> simp_all
    | created hs' hv' =>
      obtain rfl := Option.some.inj (hs.symm.trans hs')
      exact absurd hn (hv' hv _ (List.getElem_mem hi))
    | full hs' hv' =>
      obtain rfl := Option.some.inj (hs.symm.trans hs')
      exact absurd hn (hv' hv _ (List.getElem_mem hi))
    | absent hv' => exact absurd hn (hv' _ hs hv _ (List.getElem_mem hi))
  | @created sub mx hs hv hc hlen hroom h hd hm =>
    cases hy with
    | existing hs' hv' hi hn =>
      obtain rfl := Option.some.inj (hs.symm.trans hs')
      exact absurd hn (hv hv' _ (List.getElem_mem hi))
    | @created sub' my hs' hv' hc' hlen' hroom' h' hd' hm' =>
      obtain rfl := Option.some.inj (hs.symm.trans hs')
      refine ⟨rfl, rfl, hwx, hwy, fun h0 hf => ?_⟩
      rcases Nat.lt_or_ge es.length f with hgt | hle
      · have hf : f = es.length + 1 := by simp at hf; omega
        subst hf
        have hempty : ∀ m, fileBytes ((newFile s (es.length + 1)).setDisk { s.toDisk with fsData := m })
            (es.length + 1) = [] := fun m =>
          List.length_eq_zero_iff.mp (by simp [newFile, State.setInode_inodeTable])
        exact (hempty my).trans (hempty mx).symm
      · exact (r.wf'.fileBytes_created hm' h0 hle).trans
          ((r.bytes h0 hle).trans (r.wf.fileBytes_created hm h0 hle).symm)
    | full hs' hv' hc' hno =>
      obtain rfl := Option.some.inj (hs.symm.trans hs')
      omega
    | absent hv' hc' => exact absurd hc hc'
  | full hs hv hc hno =>
    cases hy with
    | existing hs' hv' hi hn =>
      obtain rfl := Option.some.inj (hs.symm.trans hs')
      exact absurd hn (hv hv' _ (List.getElem_mem hi))
    | created hs' hv' hc' hlen' hroom' =>
      obtain rfl := Option.some.inj (hs.symm.trans hs')
      omega
    | full hs' hv' hc' hno' =>
      rw [r.wf.inodeDelete_newFile_eq] at hwx ⊢
      rw [r.wf'.inodeDelete_newFile_eq] at hwy ⊢
      refine ⟨rfl, rfl, hwx, hwy, fun h0 hf => r.bytes_of_le h0 hf rfl ?_ ?_⟩
      · exact congrArg Inode.iDataBlock (Wf.newFile_inodeTable_of_le hf)
      · exact (congrArg Inode.iSize (Wf.newFile_inodeTable_of_le hf)).le
    | absent hv' hc' => exact absurd hc hc'
  | absent hv hc =>
    cases hy with
    | existing hs' hv' hi hn => exact absurd hn (hv _ hs' hv' _ (List.getElem_mem hi))
    | created hs' hv' hc' => exact absurd hc' hc
    | full hs' hv' hc' => exact absurd hc' hc
    | absent => exact ⟨rfl, rfl, r⟩

theorem write (r : SameFor f es s m) {file : Nat} (hf : file < maxOpenFiles)
    (ht : s.freeOpenFileEntries file = .taken) {buffer buffer' : List UInt8}
    (hlen : buffer'.length = buffer.length) (hsame : (s.openFileTable file).ofInumber = f → buffer' = buffer)
    (hin : StartsInside f s (.write file buffer)) :
    Option.Rel (fun x y => y.1 = x.1 ∧ y.2 = x.2.setData y.2.fsData ∧ SameFor f es x.2 y.2.fsData)
      (tfsWrite s file buffer) (tfsWrite (s.setData m) file buffer') := by
  simp only [StartsInside, Int.toNat_natCast] at hin
  obtain ⟨j, b, h0, hj, hi, hb, heq⟩ := r.wf.write_eq hf ht buffer
  obtain ⟨k, c, -, -, hk, hc, heq'⟩ := r.wf'.write_eq hf ht buffer'
  obtain rfl : k = j := by exact_mod_cast hk.symm.trans hi
  obtain rfl := hb.unique hc rfl rfl
  rw [hlen, State.setData_toOpenFiles] at heq'
  have hfits := @toWrite_fits buffer.length (s.openFileTable file).ofOffset c
  rw [heq, heq']
  generalize toWrite buffer.length (s.openFileTable file).ofOffset = n at hfits
  simp only
  split
  · exact .some ⟨rfl, rfl, r⟩
  · next hz =>
    split
    · next hle =>
      have hpos : 0 < n := Nat.pos_of_ne_zero hz
      have hfit := hfits hpos hle.2
      have hl : (buffer.take n).length = n := List.length_take_of_le hle.1
      have hl' : (buffer'.take n).length = n := List.length_take_of_le (by omega)
      have hw := r.wf.written h0 hj hb (hl.symm ▸ hpos) (hl.symm ▸ hfit)
      have hw' := r.wf'.written h0 hj hc (hl'.symm ▸ hpos) (hl'.symm ▸ hfit)
      have hbytes : 0 < f → f ≤ es.length → fileBytes (written (s.setData m) file k c (buffer'.take n)) f =
          fileBytes (written s file k c (buffer.take n)) f := by
        intro hf0 hfle
        by_cases hfk : f = k
        · -- a write to `f` itself stores the same bytes
          subst hfk
          have ho := hin hi (by omega) (by omega)
          rw [fileBytes_written hc ho, fileBytes_written hb ho, r.bytes hf0 hfle, hsame hi]
          rfl
        · rw [r.wf'.fileBytes_written_of_ne hj hc (by rw [hl']; exact hfit) hf0 hfle hfk,
            r.wf.fileBytes_written_of_ne hj hb (by rw [hl]; exact hfit) hf0 hfle hfk, r.bytes hf0 hfle]
      rw [written_setData s m file k c (hl'.trans hl.symm)] at hw' hbytes ⊢
      exact .some ⟨rfl, rfl, hw, hw', hbytes⟩
    · exact .none

theorem setOffset (r : SameFor f es s m) (i o : Nat) :
    SameFor f es (s.setFiles (s.toOpenFiles.setOffset i o)) m :=
  ⟨r.wf.setOffset i o, r.wf'.setOffset i o, r.bytes⟩

theorem read (r : SameFor f es s m) {file : Nat} (hf : file < maxOpenFiles)
    (ht : s.freeOpenFileEntries file = .taken) {len : Nat} (hin : StartsInside f s (.read file len)) :
    Option.Rel (fun x y => ((s.openFileTable file).ofInumber = f → x.1 = y.1) ∧ y.2 = x.2.setData m ∧
      SameFor f es x.2 m) (tfsRead s file len) (tfsRead (s.setData m) file len) := by
  simp only [StartsInside, Int.toNat_natCast] at hin
  obtain ⟨j, h0, hj, hi⟩ := r.wf.handle file hf ht
  by_cases hfj : (s.openFileTable file).ofInumber = f
  · obtain rfl : f = j := by exact_mod_cast hfj.symm.trans hi
    rcases Nat.eq_zero_or_pos len with hz | hpos
    · have hl := r.wf.length_lt
      rw [hz, tfsRead_zero hf hi (by omega), tfsRead_zero (s := s.setData m) hf hi (by omega)]
      exact .some ⟨fun _ => rfl, rfl, r⟩
    · have ho := hin hi hpos
      rw [r.wf.read_eq hf h0 hj hi ho, r.wf'.read_eq hf h0 hj hi ho]
      refine .some ⟨fun _ => ?_, ?_, r.setOffset _ _⟩
      · rw [r.bytes h0 hj]
        rfl
      · rw [r.bytes h0 hj]
        rfl
  · have hrel := tfsRead_setData s m file len
    cases hx : tfsRead s file len with
    | none =>
      rw [hx] at hrel
      cases hy : tfsRead (s.setData m) file len with
      | none => exact .none
      | some y =>
        rw [hy] at hrel
        cases hrel
    | some x =>
      rw [hx] at hrel
      cases hy : tfsRead (s.setData m) file len with
      | none =>
        rw [hy] at hrel
        cases hrel
      | some y =>
        rw [hy] at hrel
        have htables := Option.rel_some_some.mp hrel
        refine .some ⟨fun h => absurd h hfj, htables, ?_⟩
        rcases Wf.read_cases hx with he | ⟨i, o, he⟩ <;> rw [he]
        · exact r
        · exact r.setOffset i o

theorem openFiles (r : SameFor f es s m) (n : Int) : SameFor f es { s with openFiles := n } m :=
  ⟨r.wf.openFiles n, r.wf'.openFiles n, r.bytes⟩

theorem close (r : SameFor f es s m) (fhandle : Int) : SameFor f es (tfsClose s fhandle).2 m := by
  refine ⟨r.wf.close fhandle, ?_, fun h0 hf => ?_⟩
  · have hw := r.wf'.close fhandle
    rwa [tfsClose_setData] at hw
  · by_cases ho : s.toOpenFiles.IsOpen fhandle
    · rw [tfsClose_of_isOpen ho]
      exact r.bytes h0 hf
    · rw [tfsClose_of_not ho]
      exact r.bytes h0 hf

theorem call (r : SameFor f es s m) {c c' : Call} (hsame : SameCall f s c c') (hin : StartsInside f s c) :
    readsFile f s c = readsFile f (s.setData m) c' ∧
      Option.Rel (fun x y => (∃ es' m', y.2 = x.2.setData m' ∧ SameFor f es' x.2 m') ∧
        (readsFile f s c → x.1 = y.1)) (s.call c) ((s.setData m).call c') := by
  cases c with
  | «open» name flags =>
    cases c' with
    | «open» name' flags' =>
      obtain ⟨rfl, rfl⟩ := hsame
      refine ⟨rfl, ?_⟩
      have hcan : (s.setData m).canOpenFiles = s.canOpenFiles := rfl
      simp only [State.call, tfsOpen, hcan]
      by_cases hclosed : s.canOpenFiles = 0
      · rw [if_pos hclosed, if_pos hclosed]
        exact .some ⟨⟨es, m, rfl, r⟩, fun _ => rfl⟩
      rw [if_neg hclosed, if_neg hclosed, tfsOpenLocked, tfsOpenLocked]
      cases hx : tfsOpenUnsynchronized s name' flags' with
      | none =>
        rw [r.wf'.open_eq_none.mpr (r.wf.open_eq_none.mp hx)]
        exact .none
      | some x =>
        cases hy : tfsOpenUnsynchronized (s.setData m) name' flags' with
        | none =>
          rw [r.wf.open_eq_none.mpr (r.wf'.open_eq_none.mp hy)] at hx
          cases hx
        | some y =>
          obtain ⟨es₁, ho⟩ := r.wf.opened hx
          obtain ⟨es₂, ho'⟩ := r.wf'.opened hy
          obtain ⟨hret, htables, hr⟩ := r.opened ho ho'
          refine .some ⟨⟨es₁, y.2.fsData, ?_, ?_⟩, fun h => by cases h⟩
          · simp only [hret]
            split
            · rw [htables]
              rfl
            · exact htables
          · simp only
            split
            · exact hr.openFiles _
            · exact hr
    | _ => exact hsame.elim
  | close fhandle =>
    cases c' with
    | close fhandle' =>
      obtain ⟨rfl, -⟩ := hsame
      refine ⟨rfl, ?_⟩
      simp only [State.call, tfsClose_setData]
      exact .some ⟨⟨es, m, rfl, r.close _⟩, fun _ => rfl⟩
    | _ => exact hsame.elim
  | write fhandle buffer =>
    cases c' with
    | write fhandle' buffer' =>
      obtain ⟨rfl, hopen, hlen, heq⟩ := hsame
      obtain ⟨file, hf, rfl, ht⟩ := hopen.exists
      refine ⟨rfl, ?_⟩
      have hrel := r.write hf ht hlen heq hin
      simp only [State.call]
      cases hx : tfsWrite s file buffer <;> cases hy : tfsWrite (s.setData m) file buffer' <;>
        rw [hx, hy] at hrel <;> cases hrel
      · exact .none
      · next h => exact .some ⟨⟨es, _, h.2.1, h.2.2⟩, fun h => by cases h⟩
    | _ => exact hsame.elim
  | read fhandle len =>
    cases c' with
    | read fhandle' len' =>
      obtain ⟨rfl, rfl, hopen⟩ := hsame
      obtain ⟨file, hf, rfl, ht⟩ := hopen.exists
      refine ⟨rfl, ?_⟩
      have hrel := r.read hf ht hin
      simp only [State.call]
      cases hx : tfsRead s file len' <;> cases hy : tfsRead (s.setData m) file len' <;>
        rw [hx, hy] at hrel <;> cases hrel
      · exact .none
      · next h => exact .some ⟨⟨es, m, h.2.1, h.2.2⟩, fun hf => h.1 (by simpa [readsFile] using hf)⟩
    | _ => exact hsame.elim

end SameFor

/-- In two runs that make the same calls, up to the bytes written to files other than `f`, the reads of `f` are
answered alike, if its reads and writes start inside it. -/
theorem reads_isolated (f : Nat) {cs cs' : List Call}
    (h : Runs.AlongPair State.call (fun s c c' => SameCall f s c c' ∧ StartsInside f s c) State.init cs cs') :
    Runs.observe State.call (readsFile f) State.init cs = Runs.observe State.call (readsFile f) State.init cs' := by
  refine Runs.observe_congr (R := fun s t => ∃ es m, t = s.setData m ∧ SameFor f es s m) ?_
    ⟨[], State.init.fsData, (State.setData_self _).symm, .refl .init⟩ h
  rintro s t c c' ⟨es, m, rfl, r⟩ ⟨hsame, hin⟩
  exact r.call hsame hin

theorem reads_isolated_append :
    let cs := fun b : UInt8 => [.open (some ⟨[47, 102], by decide⟩) 1, .open (some ⟨[47, 103], by decide⟩) 1,
      .write 0 [1, 2, 3], .write 1 [b, b], .open (some ⟨[47, 102], by decide⟩) 4, .write 2 [4], .read 0 9]
    Runs.observe State.call (readsFile 1) State.init (cs 7) = Runs.observe State.call (readsFile 1) State.init (cs 8) :=
  reads_isolated 1 (by decide +kernel)

/-- After `/f` is truncated behind handle 0, its block serves `/g`, and a read through handle 0 returns the bytes
written to `/g`. -/
theorem reads_not_isolated :
    ¬ ∀ (f : Nat) (cs cs' : List Call), Runs.AlongPair State.call (SameCall f) State.init cs cs' →
      Runs.observe State.call (readsFile f) State.init cs =
        Runs.observe State.call (readsFile f) State.init cs' := by
  intro h
  have hsame := h 1
    [.open (some ⟨[47, 102], by decide⟩) 1, .write 0 [65, 65, 65], .open (some ⟨[47, 102], by decide⟩) 2,
      .open (some ⟨[47, 103], by decide⟩) 1, .write 2 [66, 66, 66, 66, 66], .read 0 2]
    [.open (some ⟨[47, 102], by decide⟩) 1, .write 0 [65, 65, 65], .open (some ⟨[47, 102], by decide⟩) 2,
      .open (some ⟨[47, 103], by decide⟩) 1, .write 2 [67, 67, 67, 67, 67], .read 0 2] (by decide +kernel)
  revert hsame
  decide +kernel

end Tecnicofs.Ex2
