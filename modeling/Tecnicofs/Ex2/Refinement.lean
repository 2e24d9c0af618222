import Tecnicofs.Ex2.Invariant
import Tecnicofs.Spec.Represents

namespace Tecnicofs.Ex2

open Bytes

def limits : Limits := ⟨maxDirEntries, maxOpenFiles, some blockSize⟩

/-- Names start with a slash and fit in their field, handles are open, offsets do not wrap, and a file is
truncated only while no handle is open on it. -/
def Admissible (s : State) : Call → Prop
  | .open name flags =>
    (∃ p ∈ name, p.char 0 = 47 ∧ p.strlen ≤ maxFileName) ∧
      (hasFlag flags tfsOTrunc → ∀ h < maxOpenFiles, s.freeOpenFileEntries h = .taken →
        (s.openFileTable h).ofInumber ≠ tfsLookupUnsynchronized s name)
  | .close fhandle => s.toOpenFiles.IsOpen fhandle
  | .write fhandle buffer =>
    s.toOpenFiles.IsOpen fhandle ∧ buffer.length + (s.openFileTable fhandle.toNat).ofOffset < 2 ^ 64
  | .read fhandle _ => s.toOpenFiles.IsOpen fhandle

instance (s : State) : ∀ c, Decidable (Admissible s c)
  | .open _ _ => inferInstanceAs (Decidable (_ ∧ _))
  | .close _ => inferInstanceAs (Decidable (s.toOpenFiles.IsOpen _))
  | .write _ _ => inferInstanceAs (Decidable (_ ∧ _))
  | .read _ _ => inferInstanceAs (Decidable (s.toOpenFiles.IsOpen _))

structure Refines (es : List DirEntry) (s : State) (fs : ByteFs (List UInt8)) : Prop where
  wf : Wf es s
  canOpen : s.canOpenFiles ≠ 0
  represents : Represents es s.toOpenFiles (fileBytes s) fs

theorem init_refines : Refines [] State.init .empty where
  wf := .init
  canOpen := by
    rw [State.init_eq]
    decide
  represents := .empty fun h _ => by rw [State.init_eq]; rfl

namespace Refines

variable {es : List DirEntry} {s : State} {fs : ByteFs (List UInt8)}

theorem openHandle (r : Refines es s fs) {i o : Nat} (hi : i < es.length)
    (ho : o ≤ (s.inodeTable (i + 1)).iSize) :
    (Ex2.openHandle s (i + 1 : Nat) o).1 = (fs.openHandle limits es[i].name o).1 ∧
      Refines es (Ex2.openHandle s (i + 1 : Nat) o).2 (fs.openHandle limits es[i].name o).2 := by
  obtain ⟨hr, hrep⟩ := r.represents.openHandle (l := limits) rfl hi (by simpa using ho)
  exact ⟨hr, r.wf.openHandle (by omega) hi o, r.canOpen, hrep⟩

theorem truncate (r : Refines es s fs) {i : Nat} (hi : i < es.length)
    (hno : ∀ h < maxOpenFiles, s.freeOpenFileEntries h = .taken →
      (s.openFileTable h).ofInumber ≠ (i + 1 : Nat)) :
    Refines es (Ex2.truncate s (i + 1)).2 (fs.setContents es[i].name []) ∧
      ((Ex2.truncate s (i + 1)).2.inodeTable (i + 1)).iSize = 0 := by
  have hw := (r.wf.truncate (j := i + 1) (by omega) hi).2
  rcases r.wf.truncate_eq (j := i + 1) (by omega) hi with ⟨he, hz⟩ | ⟨b, -, -, -, hs, he⟩
  · rw [he]
    have hbytes : fileBytes s (i + 1) = [] := List.length_eq_zero_iff.mp (by simpa using hz)
    refine ⟨⟨r.wf, r.canOpen, ?_⟩, hz⟩
    rw [← hbytes]
    exact r.represents.setContents hi (fun _ _ _ => rfl) fun h hh ht he => absurd he (hno h hh ht)
  · rw [he] at hw ⊢
    refine ⟨⟨hw, r.canOpen, ?_⟩, by simp [State.setInode_inodeTable]⟩
    have hbytes : fileBytes ((s.setDisk (s.toDisk.release b)).setInode (i + 1)
        { s.inodeTable (i + 1) with iSize := 0 }) (i + 1) = [] :=
      List.length_eq_zero_iff.mp (by simp [State.setInode_inodeTable])
    rw [← hbytes]
    refine r.represents.setContents hi (fun k _ hk => ?_) fun h hh ht he => absurd he (hno h hh ht)
    exact Ex2.fileBytes_congr (by simp [State.setInode_inodeTable, hk]) fun _ _ => rfl

theorem create (r : Refines es s fs) {subName : CString} {m : Mem} (hnew : ∀ e ∈ es, e.name ≠ subName.bytes)
    (hshort : subName.strlen < maxFileName)
    (hd : DirHolds m 0 (es ++ [.ofName subName (es.length + 1 : Nat) r.wf.isInt_inumber]))
    (hm : ∀ x, blockSize ≤ x → m x = s.fsData x) :
    Refines (es ++ [.ofName subName (es.length + 1 : Nat) r.wf.isInt_inumber])
      ((newFile s (es.length + 1)).setDisk { s.toDisk with fsData := m }) (fs.create subName.bytes) := by
  have hname : (DirEntry.ofName subName (es.length + 1 : Nat) r.wf.isInt_inumber).name = subName.bytes :=
    List.take_of_length_le (by simp only [CString.strlen, maxFileName] at hshort ⊢; omega)
  refine ⟨r.wf.create hd, r.canOpen, ?_⟩
  rw [← hname]
  refine r.represents.create (by rwa [hname]) (fun k hk => ?_) (List.length_eq_zero_iff.mp ?_)
  · exact r.wf.fileBytes_created hm (by omega) hk
  · simp [newFile, State.setInode_inodeTable]

theorem opened (r : Refines es s fs) {name : Option CString} {flags : Int}
    (ha : Admissible s (.open name flags)) {es' : List DirEntry} {x : Int × State}
    (ho : Opened es s name flags es' x) :
    ∃ fs', fs.openFile limits (fileName name) (hasFlag flags tfsOCreat) (hasFlag flags tfsOTrunc)
      (hasFlag flags tfsOAppend) = (x.1, fs') ∧ Refines es' x.2 fs' := by
  obtain ⟨⟨p, rfl, hslash, hshort⟩, htr⟩ := ha
  have hne : p.bytes ≠ [] := fun h => by simp [CString.char, h] at hslash
  have hskip : skipSlash (some p) = some p.tail := by simp [skipSlash, hne]
  have hlen : p.strlen = p.tail.strlen + 1 := by
    simp only [CString.strlen, CString.tail, List.length_tail]
    have := List.length_pos_iff.mpr hne
    omega
  have hvalid : validPathname (some p) = true ↔ 0 < p.tail.strlen := by
    simp [validPathname, hslash, hlen]
  have hfile : fileName (some p) = if 0 < p.tail.strlen then some p.tail.bytes else none := by
    simp only [fileName, hvalid]
  have hlook := r.wf.lookup (some p)
  have hnot (hv : ∀ e ∈ es, e.name ≠ p.tail.bytes) : p.tail.bytes ∉ fs.names := fun hmem => by
    obtain ⟨e, he, hn⟩ := r.represents.mem_names.mp hmem
    exact hv e he hn
  have hnum : fs.names.length = es.length := by simp [r.represents.names]
  rw [hfile]
  cases ho with
  | @existing _ i hs hv hi hn hl =>
    obtain rfl := Option.some.inj (hskip.symm.trans hs)
    have hmem : es[i].name ∈ fs.names := r.represents.mem_names.mpr ⟨_, List.getElem_mem hi, rfl⟩
    rw [if_pos (hvalid.mp hv), ← hn]
    cases ht : hasFlag flags tfsOTrunc with
    | true =>
      rw [hlook, hs] at htr
      simp only [hv, if_true, hl] at htr
      obtain ⟨hr, hz⟩ := r.truncate hi fun h hh htk => by exact_mod_cast htr ht h hh htk
      have hsize : openedOffset s (i + 1) flags = 0 := by
        simp only [openedOffset, openedState, ht, if_true, hz, ite_self]
      obtain ⟨h1, h2⟩ := hr.openHandle hi (o := 0) (Nat.zero_le _)
      rw [ByteFs.openFile_trunc _ hmem, openedState, if_pos ht, hsize, h1]
      exact ⟨_, rfl, h2⟩
    | false =>
      have hstate : openedState s (i + 1) flags = s := by simp [openedState, ht]
      have hsize : openedOffset s (i + 1) flags =
          if hasFlag flags tfsOAppend then (fs.contents es[i].name).length else 0 := by
        simp [openedOffset, hstate, r.represents.contents i hi]
      have hle : openedOffset s (i + 1) flags ≤ (s.inodeTable (i + 1)).iSize := by
        rw [hsize, r.represents.contents i hi]
        split <;> simp
      obtain ⟨h1, h2⟩ := r.openHandle hi hle
      rw [ByteFs.openFile_of_mem _ hmem, hstate, h1, ← hsize]
      exact ⟨_, rfl, h2⟩
  | created hs hv hc hlen' hroom h hd hm =>
    obtain rfl := Option.some.inj (hskip.symm.trans hs)
    have hnew := hv (hvalid.mpr hlen')
    have hr := r.create hnew (by omega) hd hm
    have hlast := hr.openHandle (i := es.length) (by simp) (o := 0) (Nat.zero_le _)
    have hname : (es ++ [DirEntry.ofName p.tail (es.length + 1 : Nat) h])[es.length].name = p.tail.bytes := by
      simp only [List.getElem_concat_length, DirEntry.ofName]
      exact List.take_of_length_le (by simp only [CString.strlen, maxFileName] at *; omega)
    rw [hname] at hlast
    rw [if_pos hlen', hc, ByteFs.openFile_create (hnot hnew) (by rw [hnum]; exact hroom)]
    exact ⟨_, Prod.ext hlast.1.symm rfl, hlast.2⟩
  | full hs hv hc hno =>
    obtain rfl := Option.some.inj (hskip.symm.trans hs)
    refine ⟨fs, ?_, r.wf.inodeDelete_newFile, ?_, ?_⟩
    · by_cases hlen' : 0 < p.tail.strlen
      · have hfull : limits.maxFiles ≤ fs.names.length := by
          rw [hnum]
          simp only [limits]
          omega
        rw [if_pos hlen', ByteFs.openFile_refused (hnot (hv (hvalid.mpr hlen'))) fun _ => hfull]
      · rw [if_neg hlen', ByteFs.openFile]
    · rw [r.wf.inodeDelete_newFile_eq]
      exact r.canOpen
    · rw [r.wf.inodeDelete_newFile_eq]
      exact r.represents.congr fun k hk => Ex2.fileBytes_congr (Wf.newFile_inodeTable_of_le hk) fun _ _ => rfl
  | absent hv hc =>
    refine ⟨fs, ?_, r⟩
    by_cases hlen' : 0 < p.tail.strlen
    · rw [if_pos hlen', ByteFs.openFile_refused (hnot (hv _ hskip (hvalid.mpr hlen'))) fun h => absurd h hc]
    · rw [if_neg hlen', ByteFs.openFile]

theorem write (r : Refines es s fs) {fhandle : Int} {buffer : List UInt8}
    (ha : Admissible s (.write fhandle buffer)) :
    ∃ x fs', tfsWrite s fhandle buffer = some x ∧ fs.write limits fhandle.toNat buffer = (x.1, fs') ∧
      Refines es x.2 fs' := by
  obtain ⟨hopen, hwrap⟩ := ha
  obtain ⟨h, hh, rfl, ht⟩ := hopen.exists
  rw [Int.toNat_natCast] at hwrap ⊢
  obtain ⟨j, b, h0, hj, hin, hb, heq⟩ := r.wf.write_eq hh ht buffer
  obtain ⟨i, rfl⟩ : ∃ i, j = i + 1 := ⟨j - 1, by omega⟩
  obtain ⟨k, hk, hkn, ho, hhandle⟩ := r.represents.handle h hh ht
  obtain rfl : k = i := by
    have := hin.symm.trans hkn
    omega
  generalize hoff : (s.openFileTable h).ofOffset = offset at *
  have hsize := r.wf.size (k + 1) hj
  rw [length_fileBytes] at ho
  have hcount := toWrite_of_le hwrap (ho.trans hsize)
  have hn : limits.clip offset buffer = buffer.take (toWrite buffer.length offset) := by
    rw [hcount]
    exact (List.take_eq_take_min ..).trans (by rw [min_comm])
  have hlen : toWrite buffer.length offset ≤ buffer.length ∧ offset + toWrite buffer.length offset ≤ blockSize := by
    omega
  generalize toWrite buffer.length offset = n at heq hn hlen
  have htake : (buffer.take n).length = n := List.length_take_of_le hlen.1
  rw [heq]
  simp only [ByteFs.write, hhandle, hn, htake]
  rcases Nat.eq_zero_or_pos n with hz | hpos
  · refine ⟨(0, s), fs, by rw [if_pos hz], ?_, r⟩
    rw [hz, List.take_zero, overwrite_nil, ByteFs.setContents_self, Nat.add_zero, ByteFs.setHandle_self hhandle]
    rfl
  · have hfit : b * blockSize + offset + n ≤ fsDataSize := by
      have := hb.2.1
      simp only [fsDataSize, blockSize, dataBlocks] at *
      omega
    rw [if_neg hpos.ne', if_pos ⟨hlen.1, hfit⟩]
    refine ⟨_, _, rfl, rfl, ?_⟩
    have hself := fileBytes_written hb (by rw [hoff]; exact ho) (buffer.take n)
    have hwr := r.represents.write hh ht hk hin hself fun m hm hmk =>
      r.wf.fileBytes_written_of_ne hj hb (by rw [hoff, htake]; exact hlen.2) (by omega) hm (by omega)
    rw [hoff, htake] at hwr
    refine ⟨r.wf.written h0 hj hb (by omega) (by rw [hoff, htake]; exact hlen.2), r.canOpen, ?_⟩
    rw [written_toOpenFiles, hoff, htake]
    exact hwr.2

theorem close (r : Refines es s fs) {fhandle : Int} (ho : s.toOpenFiles.IsOpen fhandle) :
    ∃ fs', fs.close fhandle.toNat = ((tfsClose s fhandle).1, fs') ∧ Refines es (tfsClose s fhandle).2 fs' := by
  obtain ⟨hc, hr⟩ := r.represents.close ho
  have hw := r.wf.close fhandle
  rw [tfsClose_of_isOpen ho] at hw ⊢
  exact ⟨_, hc, hw, r.canOpen, hr⟩

theorem read (r : Refines es s fs) {fhandle : Int} (hopen : s.toOpenFiles.IsOpen fhandle) (len : Nat) :
    ∃ x, tfsRead s fhandle len = some x ∧ (fs.read fhandle.toNat len).1 = x.1 ∧
      Refines es x.2 (fs.read fhandle.toNat len).2 := by
  obtain ⟨h, hh, rfl, ht⟩ := hopen.exists
  obtain ⟨i, hi, hin, ho, hhandle⟩ := r.represents.handle h hh ht
  have hlen : (s.openFileTable h).ofOffset +
      (((fs.contents es[i].name).drop (s.openFileTable h).ofOffset).take len).length ≤
        (fileBytes s (i + 1)).length := by
    rw [r.represents.contents i hi, List.length_take, List.length_drop]
    omega
  have hread := r.represents.read hh ht hi hin hlen
  rw [length_fileBytes] at ho
  rw [r.wf.read_eq hh (by omega) hi hin ho, Int.toNat_natCast, ← r.represents.contents i hi]
  simp only [ByteFs.read, hhandle]
  exact ⟨_, rfl, rfl, r.wf.setOffset h _, r.canOpen, hread.2⟩

theorem openFiles (r : Refines es s fs) (n : Int) : Refines es { s with openFiles := n } fs :=
  ⟨r.wf.openFiles n, r.canOpen, r.represents⟩

theorem call (r : Refines es s fs) {c : Call} (ha : Admissible s c) :
    ∃ out s' fs', s.call c = some (out, s') ∧ fs.call limits c = some (out, fs') ∧
      ∃ es', Refines es' s' fs' := by
  cases c with
  | «open» name flags =>
    obtain ⟨p, rfl, hslash, -⟩ := ha.1
    have hne : p.bytes ≠ [] := fun h => by simp [CString.char, h] at hslash
    obtain ⟨x, hx⟩ := exists_tfsOpenUnsynchronized s flags (show skipSlash (some p) = _ from if_neg hne)
    obtain ⟨es', ho⟩ := r.wf.opened hx
    obtain ⟨fs', hfs, hr⟩ := r.opened ha ho
    have hcall : s.call (.open (some p) flags) =
        some (⟨x.1, []⟩, if x.1 ≠ -1 then { x.2 with openFiles := x.2.openFiles + 1 } else x.2) := by
      simp only [State.call, tfsOpen, if_neg r.canOpen, tfsOpenLocked, hx, Option.map_some]
    refine ⟨_, _, fs', hcall, by simp only [ByteFs.call, hfs], es', ?_⟩
    split
    · exact hr.openFiles _
    · exact hr
  | close fhandle =>
    obtain ⟨fs', hfs, hr⟩ := r.close ha
    exact ⟨⟨(tfsClose s fhandle).1, []⟩, (tfsClose s fhandle).2, fs', rfl, by simp only [ByteFs.call, hfs], es, hr⟩
  | write fhandle buffer =>
    obtain ⟨x, fs', hx, hfs, hr⟩ := r.write ha
    exact ⟨⟨x.1, []⟩, x.2, fs', by simp only [State.call, hx, Option.map_some], by simp only [ByteFs.call, hfs], es, hr⟩
  | read fhandle len =>
    obtain ⟨x, hx, hfs, hr⟩ := r.read ha len
    exact ⟨x.1, x.2, _, hx, by simp only [ByteFs.call, ← hfs], es, hr⟩

end Refines

/-- Every run of allowed calls is answered as the byte strings answer it. -/
theorem calls_refine {cs : List Call} (ha : Runs.Along State.call Admissible State.init cs) :
    ∃ outs s fs, Runs.run State.call State.init cs = some (outs, s) ∧
      Runs.run (ByteFs.call limits) .empty cs = some (outs, fs) := by
  obtain ⟨outs, s, fs, hs, hfs, -⟩ := Runs.run_simulation (R := fun s fs => ∃ es, Refines es s fs) id
    (fun s fs c ⟨_, r⟩ hc => r.call hc) ⟨_, init_refines⟩ ha
  exact ⟨outs, s, fs, hs, by simpa using hfs⟩

/-- Two handles on one file, which is truncated once both are closed. -/
theorem calls_refine_two_handles :
    let cs := [.open (some ⟨[47, 97], by decide⟩) 1, .write 0 [1, 2, 3], .open (some ⟨[47, 97], by decide⟩) 4,
      .write 1 [4, 5], .read 0 10, .close 0, .close 1, .open (some ⟨[47, 97], by decide⟩) 2, .read 0 10]
    ∃ outs s fs, Runs.run State.call State.init cs = some (outs, s) ∧
      Runs.run (ByteFs.call limits) .empty cs = some (outs, fs) :=
  calls_refine (by decide +kernel)

end Tecnicofs.Ex2
