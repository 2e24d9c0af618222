import Tecnicofs.Ex1.DirectoryMap
import Tecnicofs.Ex1.ExactCopy
import Tecnicofs.Spec.Represents

namespace Tecnicofs.Ex1

open Bytes

/-- Names fit in their field and nothing is truncated; handles are open; a write stays within the blocks of a file, and
whenever it searches for a free block, it finds one. -/
def SucceedsUntruncated (s : State) : Call → Prop
  | .open name flags => (∀ p ∈ name, Fits p) ∧ hasFlag flags tfsOTrunc = false
  | .close fhandle => s.toOpenFiles.IsOpen fhandle
  | .write fhandle buffer => s.toOpenFiles.IsOpen fhandle ∧ (body (.write fhandle buffer)).Assumes Label.Succeeds s
  | .read fhandle _ => s.toOpenFiles.IsOpen fhandle

instance (s : State) : ∀ c, Decidable (SucceedsUntruncated s c)
  | .open _ _ => inferInstanceAs (Decidable (_ ∧ _))
  | .close _ => inferInstanceAs (Decidable (s.toOpenFiles.IsOpen _))
  | .write _ _ => inferInstanceAs (Decidable (_ ∧ _))
  | .read _ _ => inferInstanceAs (Decidable (s.toOpenFiles.IsOpen _))

structure Simulates (es : List DirEntry) (owner : Owner) (s : State) (fs : ByteFs (List UInt8)) : Prop where
  settled : Settled owner s
  listed : Listed es s
  represents : Represents es s.toOpenFiles s.bytesOf fs

theorem init_simulates : Simulates [] (fun b => if b = 0 then some 0 else none) State.init .empty where
  settled := .init
  listed := .init
  represents := .empty fun h _ => by rw [State.init_eq]; rfl

variable {owner : Owner} {s s' : State} {es : List DirEntry} {fs : ByteFs (List UInt8)} {i f : Nat}
  {name : Option CString} {flags : Int}

theorem Settled.bytesOf_congr (h : Settled owner s) (hi : s.IsFile i) (hn : s'.inodeTable i = s.inodeTable i)
    (hs : ∀ k, (dataSlot k).Exists → s'.slot i (dataSlot k) = s.slot i (dataSlot k))
    (hd : ∀ x, blockSize ≤ x → s'.fsData x = s.fsData x) : s'.bytesOf i = s.bytesOf i := by
  rw [State.bytesOf, State.bytesOf, hn]
  refine List.map_congr_left fun x hx => ?_
  have hlt : x / blockSize * blockSize < (s.inodeTable i).iSize :=
    lt_of_le_of_lt (Nat.div_mul_le_self ..) (List.mem_range.mp hx)
  have hex := dataSlot_exists (hlt.trans_le (h.short i hi))
  obtain ⟨b, hb, hob⟩ := (h.files i hi).slot _ hex (h.allocated i hi _ hlt)
  have hne := h.block_ne_zero hi hob
  rw [byteAt_eq hb (h.lt hob), byteAt_eq ((hs _ hex).trans hb) (h.lt hob)]
  refine hd _ ?_
  simp only [blockSize]
  omega

theorem Settled.bytesOf_newFile (h : Settled owner s) (hfree : s.freeinodeTs i = .free) {j : Nat} (hj : s.IsFile j) :
    (newFile s i).bytesOf j = s.bytesOf j :=
  h.bytesOf_congr hj (Settled.newFile_of_isFile hfree hj).1 (Settled.newFile_of_isFile hfree hj).2 fun _ _ => rfl

theorem bytesOf_newFile_self (s : State) (i : Nat) : (newFile s i).bytesOf i = [] := by
  refine List.length_eq_zero_iff.mp ?_
  rw [length_bytesOf]
  simp [newFile, State.setInode_inodeTable]

theorem Settled.bytesOf_addEntry (h : Settled owner s) (hi : s.IsFile i) {subName : CString} {m : Mem}
    (hm : fillDirEntry s.fsData 0 i subName = some m) {j : Nat} (hj : s.IsFile j) :
    (s.setDisk { s.toDisk with fsData := m }).bytesOf j = s.bytesOf j :=
  h.bytesOf_congr hj rfl (fun _ hk => h.slot_addEntry hi hm hj hk) fun x hx =>
    (fillDirEntry_eq_some hm (Consistent.isInt_of_isFile hi)).2 x (.inr (by rwa [Nat.zero_add]))

theorem Listed.keep (l : Listed es s) (h : Kept s s') : Listed es s' where
  dir := l.dir.congr fun x _ hx => h.directory x (by rwa [Nat.zero_add] at hx)
  inumber := l.inumber
  rootType := by rw [h.root, l.rootType]
  rootBlock := by rw [h.root, l.rootBlock]
  taken i hi := by rw [h.freeinodeTs, l.taken i hi]

theorem Listed.deleteNew (l : Listed es s) :
    Listed es ((newFile s (es.length + 1)).setInodeState (es.length + 1) .free) where
  dir := l.dir
  inumber := l.inumber
  rootType := by
    rw [State.setInodeState_inodeTable, Consistent.newFile_inodeTable_of_ne (Nat.succ_ne_zero _).symm, l.rootType]
  rootBlock := by
    rw [State.setInodeState_inodeTable, Consistent.newFile_inodeTable_of_ne (Nat.succ_ne_zero _).symm, l.rootBlock]
  taken j hj := by
    rw [State.setInodeState_freeinodeTs, Consistent.newFile_freeinodeTs]
    split
    · next h => simp [h]
    · exact l.taken j hj

namespace Simulates

theorem isFile (r : Simulates es owner s fs) (hi : i < es.length) : s.IsFile (i + 1) := by
  have hmax : i < maxDirEntries := hi.trans_le r.listed.dir.length_le
  have hin : dInumber s.fsData 0 i = i + 1 := by rw [r.listed.dir.inumber i hi, r.listed.inumber i hi]
  obtain ⟨j, hj, hfile⟩ := (r.settled.entries i hmax).resolve_left (by omega)
  obtain rfl : j = i + 1 := by omega
  exact hfile

theorem openHandle (r : Simulates es owner s fs) (hi : i < es.length) {o : Nat} (ho : o ≤ (s.inodeTable (i + 1)).iSize) :
    (opened s (i + 1) o).1 = (fs.openHandle limits es[i].name o).1 ∧
      Simulates es owner (opened s (i + 1) o).2 (fs.openHandle limits es[i].name o).2 := by
  have hlen : o ≤ (s.bytesOf (i + 1)).length := by rwa [length_bytesOf]
  have hmax : limits.maxHandles = maxOpenFiles := rfl
  obtain ⟨hr, hrep⟩ := r.represents.openHandle hmax hi hlen
  exact ⟨hr, r.settled.opened (r.isFile hi) ho, r.listed.congr rfl rfl rfl, hrep⟩

theorem create (r : Simulates es owner s fs) {subName : CString} (hnew : ∀ e ∈ es, e.name ≠ subName.bytes)
    (hshort : subName.strlen < maxFileName) {m : Mem}
    (hm : fillDirEntry s.fsData 0 (es.length + 1 : Nat) subName = some m) :
    Simulates (es ++ [r.listed.newEntry subName]) owner
      ((newFile s (es.length + 1)).setDisk { s.toDisk with fsData := m }) (fs.create subName.bytes) := by
  have hroom : es.length < maxDirEntries := by
    by_contra hfull
    have hmax := r.listed.dir.length_le
    rw [r.listed.dir.fill_full _ _ (by omega)] at hm
    cases hm
  obtain ⟨hin, hfree, -⟩ := firstFree_eq_some.mp r.listed.firstFree_inode
  obtain ⟨m', hm', hl⟩ := r.listed.create hroom subName
  cases hm.symm.trans hm'
  have hname : (r.listed.newEntry subName).name = subName.bytes :=
    List.take_of_length_le (by simp only [CString.strlen, maxFileName] at hshort ⊢; omega)
  have hcreated := r.settled.create hfree
  have hfile := Consistent.isFile_newFile (s := s) hin
  refine ⟨hcreated.addEntry hfile hm, hl, ?_⟩
  rw [← hname]
  refine r.represents.create (by rwa [hname]) (fun k hk => ?_) ?_
  · have hold := r.isFile hk
    have hne : k + 1 ≠ es.length + 1 := by omega
    exact (hcreated.bytesOf_addEntry hfile hm ((Consistent.isFile_newFile_of_ne hne).mpr hold)).trans
      (r.settled.bytesOf_newFile hfree hold)
  · exact (hcreated.bytesOf_addEntry hfile hm hfile).trans (bytesOf_newFile_self ..)

theorem full (r : Simulates es owner s fs) :
    Simulates es owner ((newFile s (es.length + 1)).setInodeState (es.length + 1) .free) fs := by
  obtain ⟨hin, hfree, -⟩ := firstFree_eq_some.mp r.listed.firstFree_inode
  refine ⟨r.settled.deleteNew hin hfree, r.listed.deleteNew, r.represents.congr fun k hk => ?_⟩
  exact r.settled.bytesOf_newFile hfree (r.isFile hk)

theorem absent (r : Simulates es owner s fs) {p : CString} (hv : validPathname (some p) = true)
    (hl : lookup s (some p) = -1) : ∀ e ∈ es, e.name ≠ p.tail.bytes := by
  rw [r.listed.lookup hv] at hl
  rcases lookupEntry_cases es p.tail with ⟨k, hk, -, he⟩ | ⟨hno, -⟩
  · rw [hl, r.listed.inumber k hk] at he
    omega
  · exact hno

theorem found (r : Simulates es owner s fs) {p : CString} (hv : validPathname (some p) = true)
    (hl : lookup s (some p) = (i : Nat)) : ∃ k, ∃ hk : k < es.length, es[k].name = p.tail.bytes ∧ i = k + 1 := by
  rw [r.listed.lookup hv] at hl
  rcases lookupEntry_cases es p.tail with ⟨k, hk, hn, he⟩ | ⟨-, he⟩
  · rw [hl, r.listed.inumber k hk] at he
    exact ⟨k, hk, hn, by omega⟩
  · omega

theorem fileName_of_valid {p : CString} (hv : validPathname (some p) = true) : fileName (some p) = some p.tail.bytes :=
  if_pos hv

theorem fileName_of_not_valid (hv : ¬ validPathname name = true) : fileName name = none := by
  cases name with
  | none => rfl
  | some p => exact if_neg hv

theorem notMem_names (r : Simulates es owner s fs) {n : List UInt8} (h : ∀ e ∈ es, e.name ≠ n) : n ∉ fs.names :=
  fun hmem => by
    obtain ⟨e, he, hn⟩ := r.represents.mem_names.mp hmem
    exact h e he hn

theorem length_names (r : Simulates es owner s fs) : fs.names.length = es.length := by
  rw [r.represents.names, List.length_map]

theorem opened (r : Simulates es owner s fs) (hfits : ∀ p ∈ name, Fits p)
    (ht : hasFlag flags tfsOTrunc = true → lookup s name = -1) {x : Int × State} (ho : Opens s name flags x) :
    ∃ fs' es', fs.openFile limits (fileName name) (hasFlag flags tfsOCreat) (hasFlag flags tfsOTrunc)
      (hasFlag flags tfsOAppend) = (x.1, fs') ∧ Simulates es' owner x.2 fs' := by
  cases ho with
  | refused hl hc =>
    refine ⟨fs, es, ?_, r⟩
    by_cases hv : validPathname name = true
    · cases name with
      | none => cases hv
      | some p =>
        rw [fileName_of_valid hv, ByteFs.openFile_refused (r.notMem_names (r.absent hv hl)) fun hcreat => ?_]
        cases (hc hv hcreat).symm.trans r.listed.firstFree_inode
    · rw [fileName_of_not_valid hv]
      rfl
  | @existing i hv hl hi =>
    have hno : hasFlag flags tfsOTrunc = false := by
      by_contra hf
      have habsent := ht (by simpa using hf)
      omega
    rw [hno]
    cases name with
    | none => cases hv
    | some p =>
      obtain ⟨k, hk, hn, rfl⟩ := r.found hv hl
      have hmem : es[k].name ∈ fs.names := r.represents.mem_names.mpr ⟨_, List.getElem_mem hk, rfl⟩
      have hle : (if hasFlag flags tfsOAppend = true then (s.inodeTable (k + 1)).iSize else 0) ≤
          (s.inodeTable (k + 1)).iSize := by
        split
        · exact le_rfl
        · exact Nat.zero_le _
      have hend : (fs.contents es[k].name).length = (s.inodeTable (k + 1)).iSize := by
        rw [r.represents.contents k hk, length_bytesOf]
      obtain ⟨h1, h2⟩ := r.openHandle hk hle
      rw [fileName_of_valid hv, ← hn, ByteFs.openFile_of_mem _ hmem, hend]
      exact ⟨_, es, Prod.ext h1.symm rfl, h2⟩
  | @created p i m hp hv hl hc hfree hm =>
    subst hp
    cases hfree.symm.trans r.listed.firstFree_inode
    have hnew := r.absent hv hl
    have hshort := hfits p rfl
    have hcreated := r.create hnew hshort hm
    have hroom : es.length < maxDirEntries := by
      have hmax := hcreated.listed.dir.length_le
      rw [List.length_append, List.length_singleton] at hmax
      exact hmax
    have hlast := hcreated.openHandle (i := es.length) (by simp) (Nat.zero_le _)
    have hname : (es ++ [r.listed.newEntry p.tail])[es.length].name = p.tail.bytes := by
      rw [List.getElem_concat_length rfl]
      exact List.take_of_length_le (by simp only [Fits, CString.strlen, maxFileName] at hshort ⊢; omega)
    rw [hname] at hlast
    rw [fileName_of_valid hv, hc, ByteFs.openFile_create (r.notMem_names hnew) (by rwa [r.length_names])]
    exact ⟨_, _, Prod.ext hlast.1.symm rfl, hlast.2⟩
  | @full p i hp hv hl hc hfree hm =>
    subst hp
    cases hfree.symm.trans r.listed.firstFree_inode
    refine ⟨fs, es, ?_, r.full⟩
    have hfull : limits.maxFiles ≤ fs.names.length := by
      by_contra hroom
      rw [r.length_names] at hroom
      obtain ⟨m, hm', -⟩ := r.listed.create (Nat.lt_of_not_le hroom) p.tail
      cases hm.symm.trans hm'
    rw [fileName_of_valid hv, ByteFs.openFile_refused (r.notMem_names (r.absent hv hl)) fun _ => hfull]

theorem close (r : Simulates es owner s fs) {fhandle : Int} (ho : s.toOpenFiles.IsOpen fhandle) :
    ∃ fs', fs.close fhandle.toNat = ((Tecnicofs.removeFromOpenFileTable s.toOpenFiles fhandle).1, fs') ∧
      Simulates es owner (s.setFiles (Tecnicofs.removeFromOpenFileTable s.toOpenFiles fhandle).2) fs' := by
  obtain ⟨hc, hr⟩ := r.represents.close ho
  have hs := r.settled.close fhandle
  rw [removeFromOpenFileTable_of_isOpen ho] at hs ⊢
  exact ⟨_, hc, hs, r.listed.congr rfl rfl rfl, hr⟩

theorem onFile (r : Simulates es owner s fs) (hf : f < maxOpenFiles) (ht : s.freeOpenFileEntries f = .taken) :
    ∃ k, ∃ hk : k < es.length, OnFile s f (k + 1) ∧ fs.handles f = some (es[k].name, (s.openFileTable f).ofOffset) := by
  obtain ⟨k, hk, hin, -, he⟩ := r.represents.handle f hf ht
  exact ⟨k, hk, ⟨hf, ht, hin, r.isFile hk, Nat.succ_ne_zero k⟩, he⟩

theorem read (r : Simulates es owner s fs) {fhandle : Int} (ho : s.toOpenFiles.IsOpen fhandle) (len : Nat) :
    ∃ o s' fs', s.call (.read fhandle len) = some (o, s') ∧ fs.read fhandle.toNat len = (o, fs') ∧
      Simulates es owner s' fs' := by
  obtain ⟨f, hf, rfl, ht⟩ := ho.exists
  obtain ⟨k, hk, hon, hhandle⟩ := r.onFile hf ht
  have hoff := r.settled.offsets f hf ht
  rw [hon.fileOf] at hoff
  have hlen : (((s.bytesOf (k + 1)).drop (s.openFileTable f).ofOffset).take len).length =
      min len ((s.inodeTable (k + 1)).iSize - (s.openFileTable f).ofOffset) := by
    rw [List.length_take, List.length_drop, length_bytesOf]
  have hle : (s.openFileTable f).ofOffset + min len ((s.inodeTable (k + 1)).iSize - (s.openFileTable f).ofOffset) ≤
      (s.inodeTable (k + 1)).iSize := by omega
  have hrun : s.call (.read f len) = _ := r.settled.run_tfsRead hon len
  have hrep := r.represents.read hf ht hk hon.inumber (n := min len _) (hle.trans_eq (length_bytesOf ..).symm)
  rw [hrun, Int.toNat_natCast]
  simp only [ByteFs.read, hhandle, r.represents.contents k hk, hlen]
  exact ⟨_, _, _, rfl, rfl, r.settled.advanced hon hle, r.listed.congr rfl rfl rfl, hrep.2⟩

theorem write (r : Simulates es owner s fs) {fhandle : Int} (ho : s.toOpenFiles.IsOpen fhandle) {buffer : List UInt8}
    (ha : (body (.write fhandle buffer)).Assumes Label.Succeeds s) :
    ∃ o s' fs', s.call (.write fhandle buffer) = some (⟨o, []⟩, s') ∧ fs.write limits fhandle.toNat buffer = (o, fs') ∧
      ∃ owner', Simulates es owner' s' fs' := by
  obtain ⟨f, hf, rfl, ht⟩ := ho.exists
  obtain ⟨k, hk, hon, hhandle⟩ := r.onFile hf ht
  have hallow : (body (.write f buffer)).Assumes (regions s).allows s := ha.mono fun l s' hl => by
    cases l with
    | alloc => exact hl
    | inodeSearch => trivial
    | write file len => exact hl
  obtain ⟨o, s', fsn, owner', hcall, hspec, hset, hshow, hkept⟩ :=
    r.settled.transfer (shows_abs s) (write_implements hon buffer) hallow
  have habs : s.abs.handles f = some (k + 1, (s.openFileTable f).ofOffset) := by
    rw [(shows_abs s).handles f hf ht, hon.fileOf]
  simp only [ByteFs.transfer, ByteFs.write, Int.toNat_natCast, habs, Limits.clip, limits, Option.some.injEq,
    Prod.mk.injEq] at hspec
  obtain ⟨rfl, rfl⟩ := hspec
  have hself : s'.bytesOf (k + 1) = overwrite (s.bytesOf (k + 1)) (s.openFileTable f).ofOffset buffer := by
    rw [← hshow.contents (k + 1) (hkept.isFile.mpr hon.isFile)]
    exact Function.update_self ..
  have hother : ∀ m < es.length, m ≠ k → s'.bytesOf (m + 1) = s.bytesOf (m + 1) := fun m hm hmk => by
    rw [← hshow.contents (m + 1) (hkept.isFile.mpr (r.isFile hm))]
    exact Function.update_of_ne (by omega) ..
  obtain ⟨-, hrep⟩ := r.represents.write hf ht hk hon.inumber hself hother
  rw [hcall, Int.toNat_natCast]
  simp only [ByteFs.write, hhandle, Limits.clip, limits]
  refine ⟨_, s', _, rfl, rfl, owner', hset, r.listed.keep hkept,
    hrep.congrFiles hkept.handles (fun h => ?_) fun h hh hth => ?_⟩
  · rw [hkept.inumber h, OpenFiles.setOffset_ofInumber]
  · -- a handle other than the one written through keeps its offset
    rw [OpenFiles.setOffset_free] at hth
    have hoff := hshow.handles h hh (by rw [hkept.handles]; exact hth)
    rw [OpenFiles.setOffset_table]
    by_cases hhf : h = f
    · subst hhf
      simp only [ByteFs.setHandle, Function.update_self, Option.some.injEq, Prod.mk.injEq] at hoff
      rw [if_pos rfl]
      exact hoff.2.symm
    · rw [if_neg hhf]
      simp only [ByteFs.setHandle, ByteFs.setContents, Function.update_of_ne hhf, (shows_abs s).handles h hh hth,
        Option.some.injEq, Prod.mk.injEq] at hoff
      exact hoff.2.symm

theorem call (r : Simulates es owner s fs) {c : Call} (hc : SucceedsUntruncated s c) :
    ∃ o s' fs', s.call c = some (o, s') ∧ fs.call limits c = some (o, fs') ∧ ∃ es' owner', Simulates es' owner' s' fs' := by
  cases c with
  | «open» name flags =>
    have hno : ¬ hasFlag flags tfsOTrunc = true := by simp [hc.2]
    have htr : TruncatesNoBytes s (.open name flags) := fun ht => absurd ht hno
    obtain ⟨x, hr, ho⟩ := run_tfsOpen r.settled.toConsistent htr
    obtain ⟨fs', es', hfs, h'⟩ := r.opened hc.1 (fun ht => absurd ht hno) ho
    exact ⟨⟨x.1, []⟩, x.2, fs', by rw [call_open, hr]; rfl, by simp only [ByteFs.call, hfs], es', owner, h'⟩
  | close fhandle =>
    obtain ⟨fs', hfs, h'⟩ := r.close hc
    exact ⟨_, _, fs', call_close fhandle, by simp only [ByteFs.call, hfs], es, owner, h'⟩
  | write fhandle buffer =>
    obtain ⟨o, s', fs', hcall, hfs, owner', h'⟩ := r.write hc.1 hc.2
    exact ⟨_, s', fs', hcall, by simp only [ByteFs.call, hfs], es, owner', h'⟩
  | read fhandle len =>
    obtain ⟨o, s', fs', hcall, hfs, h'⟩ := r.read hc len
    exact ⟨o, s', fs', hcall, by simp only [ByteFs.call, hfs], es, owner, h'⟩

end Simulates

/-- Every run of such calls is answered as the byte strings answer it. -/
theorem ordinary_calls_refine {cs : List Call} (ha : Runs.Along State.call SucceedsUntruncated State.init cs) :
    ∃ outs s fs, Runs.run State.call State.init cs = some (outs, s) ∧
      Runs.run (ByteFs.call limits) .empty cs = some (outs, fs) := by
  obtain ⟨outs, s, fs, hs, hfs, -⟩ := Runs.run_simulation (R := fun s fs => ∃ es owner, Simulates es owner s fs) id
    (fun s fs c ⟨_, _, r⟩ hc => r.call hc) ⟨_, _, init_simulates⟩ ha
  exact ⟨outs, s, fs, hs, by simpa using hfs⟩

/-- Two handles on a file of two blocks, and a file with a name of 39 bytes. -/
theorem ordinary_calls_refine_two_files :
    let cs := [.open (some ⟨[47, 97], by decide⟩) tfsOCreat, .write 0 (List.replicate (blockSize + 1) 1),
      .open (some ⟨[47, 97], by decide⟩) tfsOAppend, .write 1 [2, 3], .close 0,
      .open (some ⟨47 :: List.replicate 39 98, by decide⟩) tfsOCreat, .write 0 [4], .open (some ⟨[47, 97], by decide⟩) 0,
      .read 2 blockSize, .read 2 10, .open (some ⟨[97], by decide⟩) tfsOCreat]
    ∃ outs s fs, Runs.run State.call State.init cs = some (outs, s) ∧
      Runs.run (ByteFs.call limits) .empty cs = some (outs, fs) :=
  ordinary_calls_refine (by decide +kernel)

end Tecnicofs.Ex1
