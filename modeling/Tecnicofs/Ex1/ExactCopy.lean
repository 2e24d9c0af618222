import Tecnicofs.Ex1.ExternalCopy

namespace Tecnicofs.Ex1

open Bytes

variable {owner : Owner} {s s' : State} {i f : Nat} {path : Option CString} {dest : Dest} {out : Out}

theorem Consistent.hasBlock (h : Consistent owner s) (hi : s.IsFile i) {k : Nat} (hex : (dataSlot k).Exists)
    (hne : s.slot i (dataSlot k) ≠ -1) : s.HasBlock i k := by
  obtain ⟨b, hb, hob⟩ := (h.files i hi).slot _ hex hne
  refine hasBlock_iff.mpr ⟨b, h.lt hob, ?_⟩
  unfold State.blockNumber
  by_cases hdir : k < indirectAccessBlock
  · rw [dataSlot, if_pos hdir] at hb
    rw [if_pos hdir]
    exact congrArg some hb
  · rw [dataSlot, if_neg hdir] at hb hex hne
    have hlast : s.slot i (.entry indirectAccessBlock) ≠ -1 := fun hno => hne (slot_indirect_of_none hno _)
    obtain ⟨e, he, ho⟩ := (h.files i hi).indirectBlock hlast
    have hlt := h.lt ho
    have hfit : e * blockSize + 4 * (k - indirectAccessBlock) + 4 ≤ fsDataSize := by
      simp only [Slot.Exists, indirectReferences, blockSize, fsDataSize, dataBlocks] at hex hlt ⊢
      omega
    rw [slot_indirect he hlt] at hb
    rw [if_neg hdir, he, dataBlockGet_of_lt hlt]
    simp only [Disk.load, if_pos hfit, Option.map_some]
    exact congrArg some hb

theorem Settled.run_tfsRead (h : Settled owner s) (hf : OnFile s f i) (len : Nat) :
    (tfsRead f len).run s = some
      (⟨(min len ((s.inodeTable i).iSize - (s.openFileTable f).ofOffset) : Nat),
        ((s.bytesOf i).drop (s.openFileTable f).ofOffset).take len⟩,
        advanced s f (min len ((s.inodeTable i).iSize - (s.openFileTable f).ofOffset))) := by
  have hoff := h.offsets f hf.lt hf.taken
  have hshort := h.short i hf.isFile
  have hbound : maxFileSize < 2 ^ 62 := by decide
  rw [hf.fileOf] at hoff
  have hn : s.toRead i f len = min len ((s.inodeTable i).iSize - (s.openFileTable f).ofOffset) := by
    rw [State.toRead, szSub_of_le hoff (by omega)]
    split <;> omega
  have hin : inodeGet (s.openFileTable f).ofInumber = some i := by rw [hf.inumber, inodeGet_natCast hf.isFile.1]
  have hle : min len ((s.inodeTable i).iSize - (s.openFileTable f).ofOffset) ≤
      (s.inodeTable i).iSize - (s.openFileTable f).ofOffset := Nat.min_le_right ..
  have hrun := Ex1.run_tfsRead hf.lt hin len
  rw [hn] at hrun
  have hall : ∀ x < min len ((s.inodeTable i).iSize - (s.openFileTable f).ofOffset),
      s.HasBlock i (((s.openFileTable f).ofOffset + x) / blockSize) := fun x hx => by
    have hlt : ((s.openFileTable f).ofOffset + x) / blockSize * blockSize < (s.inodeTable i).iSize :=
      lt_of_le_of_lt (Nat.div_mul_le_self ..) (by omega)
    exact h.toConsistent.hasBlock hf.isFile (dataSlot_exists (hlt.trans_le hshort)) (h.allocated i hf.isFile _ hlt)
  -- The state is that of the loop, and the bytes are those of the byte strings.
  obtain ⟨bytes, hloop⟩ := run_readLoop_of_hasBlocks [] le_rfl hall
  rw [hloop] at hrun
  obtain ⟨o, s₁, fs₁, owner₁, hcall, hspec, -⟩ := h.read (shows_abs s) hf len
  have ho := (Prod.mk.inj (Option.some.inj (hrun.symm.trans hcall))).1
  have hhandle : s.abs.handles f = some (i, (s.openFileTable f).ofOffset) := by
    rw [(shows_abs s).handles f hf.lt hf.taken, hf.fileOf]
  simp only [ByteFs.transfer, ByteFs.read, Int.toNat_natCast, hhandle, Option.some.injEq, Prod.mk.injEq] at hspec
  have hdata : [] ++ bytes = ((s.bytesOf i).drop (s.openFileTable f).ofOffset).take len :=
    congrArg Out.data (ho.trans hspec.1.symm)
  rw [hrun, Option.map_some, hdata]
  rfl

theorem Settled.advanced (h : Settled owner s) (hf : OnFile s f i) {n : Nat}
    (hn : (s.openFileTable f).ofOffset + n ≤ (s.inodeTable i).iSize) : Settled owner (Ex1.advanced s f n) := by
  refine h.setFiles (h.toConsistent.setOffset ..) fun g hg ht => ?_
  have hle := h.offsets g hg ht
  rw [OpenFiles.setOffset_ofInumber, OpenFiles.setOffset_table]
  split
  · next hgf =>
    rw [hgf, hf.inumber, Int.toNat_natCast]
    exact hn
  · exact hle

theorem OnFile.advanced (hf : OnFile s f i) (n : Nat) : OnFile (Ex1.advanced s f n) f i where
  lt := hf.lt
  taken := hf.taken
  inumber := (OpenFiles.setOffset_ofInumber ..).trans hf.inumber
  isFile := hf.isFile
  ne_zero := hf.ne_zero

theorem bytesOf_setFiles (s : State) (t : OpenFiles) (i : Nat) : (s.setFiles t).bytesOf i = s.bytesOf i := rfl

theorem Settled.run_readChunks (h : Settled owner s) (hf : OnFile s f i) {fuel : Nat}
    (hfuel : (s.inodeTable i).iSize - (s.openFileTable f).ofOffset < fuel * bufferSize) :
    ∃ chunks, (readChunks f fuel).run s = some ((true, chunks),
        Ex1.advanced s f ((s.inodeTable i).iSize - (s.openFileTable f).ofOffset)) ∧
      chunks.flatten = (s.bytesOf i).drop (s.openFileTable f).ofOffset ∧
      ∀ k (hk : k < chunks.length), chunks[k].length ≤
        min bufferSize ((s.inodeTable i).iSize - (s.openFileTable f).ofOffset - k * bufferSize) := by
  induction fuel generalizing s with
  | zero => omega
  | succ fuel ih =>
    have hoff := h.offsets f hf.lt hf.taken
    rw [hf.fileOf] at hoff
    have hread := h.run_tfsRead hf bufferSize
    have hlen := length_bytesOf s i
    generalize hsize : (s.inodeTable i).iSize = size at *
    generalize ho : (s.openFileTable f).ofOffset = o at *
    rw [readChunks, Prog.run_bind, hread, Option.bind_some]
    have hne : ¬ ((min bufferSize (size - o) : Nat) : Int) = -1 := by omega
    rw [if_neg hne]
    by_cases hfull : bufferSize ≤ size - o
    · have hmin : min bufferSize (size - o) = bufferSize := Nat.min_eq_left hfull
      have hle : (s.openFileTable f).ofOffset + bufferSize ≤ (s.inodeTable i).iSize := by omega
      have hsize₁ : ((Ex1.advanced s f bufferSize).inodeTable i).iSize = size := hsize
      have ho₁ : ((Ex1.advanced s f bufferSize).openFileTable f).ofOffset = o + bufferSize := by rw [offset_advanced, ho]
      have hrest := ih (h.advanced hf hle) (hf.advanced bufferSize)
      rw [hsize₁, ho₁] at hrest
      obtain ⟨chunks, hr, hflat, hlens⟩ := hrest (by rw [Nat.succ_mul] at hfuel; omega)
      have hsum : bufferSize + (size - (o + bufferSize)) = size - o := by omega
      rw [hmin, if_pos rfl, Prog.run_bind, hr, Option.bind_some, Prog.run_pure]
      refine ⟨_, by rw [advanced_advanced, hsum], ?_, ?_⟩
      · rw [List.flatten_cons, hflat, bytesOf_setFiles, ← List.drop_drop, List.take_append_drop]
      · rintro (_ | k) hk
        · simp only [List.getElem_cons_zero, List.length_take, List.length_drop]
          omega
        · have hk' := hlens k (Nat.lt_of_succ_lt_succ hk)
          have hindex : size - (o + bufferSize) - k * bufferSize = size - o - (k + 1) * bufferSize := by
            rw [Nat.succ_mul]
            omega
          rwa [hindex] at hk'
    · have hmin : min bufferSize (size - o) = size - o := Nat.min_eq_right (by omega)
      have hshort : ¬ ((size - o : Nat) : Int) = bufferSize := by omega
      rw [hmin, if_neg hshort]
      refine ⟨_, rfl, ?_, ?_⟩
      · rw [List.flatten_cons, List.flatten_nil, List.append_nil, List.take_of_length_le]
        rw [List.length_drop]
        omega
      · intro k hk
        obtain rfl : k = 0 := by simpa using hk
        simp only [List.getElem_cons_zero, List.length_take, List.length_drop]
        omega

theorem Settled.ensures_readChunks (h : Settled owner s) (hf : OnFile s f i) (fuel : Nat) :
    (readChunks f fuel).Ensures s fun _ s' => Settled owner s' := by
  induction fuel generalizing s with
  | zero => exact fun r s' hr => by cases hr
  | succ fuel ih =>
    have hoff := h.offsets f hf.lt hf.taken
    rw [hf.fileOf] at hoff
    refine .of_run (h.run_tfsRead hf bufferSize) ?_
    have hle : (s.openFileTable f).ofOffset + min bufferSize ((s.inodeTable i).iSize - (s.openFileTable f).ofOffset) ≤
        (s.inodeTable i).iSize := by omega
    generalize min bufferSize ((s.inodeTable i).iSize - (s.openFileTable f).ofOffset) = n at hle ⊢
    have h₁ := h.advanced hf hle
    split
    · exact Prog.ensures_pure h₁
    · split
      · exact Prog.Ensures.bind ((ih h₁ (hf.advanced n)).mono fun r s' hs' => Prog.ensures_pure hs')
      · exact Prog.ensures_pure h₁

theorem Consistent.isFile_of_lookup (h : Consistent owner s) (hl : lookup s path = (i : Nat)) : s.IsFile i := by
  have hv : validPathname path = true := by
    by_contra hv
    rw [lookup_of_not_valid hv] at hl
    omega
  cases path with
  | none => cases hv
  | some p =>
    rw [lookup_eq h.dirBlock hv] at hl
    rcases h.findDirEntry p.tail with he | ⟨j, he, hj⟩
    · omega
    · obtain rfl : j = i := by omega
      exact hj

theorem State.lookup_of_source (h : s.source path = some i) : lookup s path = (i : Nat) := by
  unfold State.source at h
  split at h
  · exact (inodeGet_eq_some h).1
  · cases h

theorem onFile_opened (hf : firstFree s.freeOpenFileEntries maxOpenFiles = some f) (hi : s.IsFile i) (h0 : i ≠ 0) :
    OnFile (opened s i 0).2 f i := by
  rw [opened_of_firstFree hf]
  refine ⟨(firstFree_eq_some.mp hf).1, Function.update_self .., ?_, hi, h0⟩
  rw [State.setFiles_toOpenFiles, OpenFiles.setEntry_table, if_pos rfl]

theorem Settled.copy (h : Settled owner s) {fuel : Nat}
    (hr : (tfsCopyToExternalFs path dest fuel).run s = some (out, s')) : Settled owner s' := by
  by_cases hopen : ∃ i f, s.source path = some i ∧ firstFree s.freeOpenFileEntries maxOpenFiles = some f
  · obtain ⟨i, f, hi, hf⟩ := hopen
    have hfile := h.toConsistent.isFile_of_lookup (State.lookup_of_source hi)
    have h₁ : Settled owner (Ex1.opened s i 0).2 := h.opened hfile (Nat.zero_le _)
    have hon := onFile_opened hf hfile (h.ne_zero hfile)
    rw [run_copy_opened hi hf] at hr
    split at hr
    · obtain ⟨⟨⟨ok, chunks⟩, s₂⟩, hreads, he⟩ := Option.map_eq_some_iff.mp hr
      have h₂ := h₁.ensures_readChunks hon fuel _ _ hreads
      cases ok with
      | false =>
        cases he
        exact h₂
      | true =>
        cases he
        exact h₂.close f
    · cases hr
      exact h₁
  · rw [run_copy_of_not hopen] at hr
    cases hr
    exact h

def WritesSucceed (s : State) : Call → Prop
  | .write fhandle buffer => (s.call (.write fhandle buffer)).all fun x => x.1.ret ≠ -1
  | .open _ _ | .close _ | .read _ _ => True

instance (s : State) : ∀ c, Decidable (WritesSucceed s c)
  | .write _ _ => inferInstanceAs (Decidable (_ = true))
  | .open _ _ | .close _ | .read _ _ => inferInstanceAs (Decidable True)

/-- Handles are open, nothing is truncated, and writes stay within the blocks of their files and do not fail. -/
def Unfailing (s : State) : Request → Prop
  | .call c => WithinFile s c ∧ TruncatesNothing s c ∧ WritesSucceed s c
  | .copy _ _ _ => True

instance (s : State) : ∀ r, Decidable (Unfailing s r)
  | .call _ => inferInstanceAs (Decidable (_ ∧ _ ∧ _))
  | .copy _ _ _ => inferInstanceAs (Decidable True)

theorem enoughFor_of_succeeds (h : Consistent owner s) {c : Call} (hw : WithinFile s c) (hs : WritesSucceed s c)
    (hr : s.call c = some (out, s')) : EnoughFor s c := by
  cases c with
  | «open» name flags => trivial
  | close fhandle => trivial
  | read fhandle len => trivial
  | write fhandle buffer =>
    obtain ⟨f, hf, rfl, ht⟩ := hw.1.exists
    obtain ⟨i, hon⟩ := h.onFile hf ht
    have hmax := hw.2
    have hok : out.ret ≠ -1 := by
      rw [WritesSucceed, hr, Option.all_some] at hs
      exact of_decide_eq_true hs
    rw [Int.toNat_natCast] at hmax
    rw [EnoughFor, EnoughBlocks, Int.toNat_natCast, hon.fileOf]
    by_contra hcost
    have hshort := Nat.lt_of_not_le hcost
    have hne : buffer ≠ [] := by
      rintro rfl
      exact hcost (by rw [List.length_nil, writeCost_zero]; exact Nat.zero_le _)
    have hlen := List.length_pos_iff.mpr hne
    have hfail : (writeLoop i f buffer.length buffer).run s = none ∨
        ∃ s₁, (writeLoop i f buffer.length buffer).run s = some (false, s₁) := by
      by_cases hno : NoBlock s i ((s.openFileTable f).ofOffset / blockSize)
      · obtain ⟨fuel, hfuel⟩ := Nat.exists_eq_succ_of_ne_zero hlen.ne'
        rw [hfuel]
        rcases @run_writeLoop_failsAtOnce _ _ _ f _ h hon.isFile fuel hne hmax hno with ⟨-, hr⟩ | ⟨-, s₁, hr, -⟩
        · exact .inl hr
        · exact .inr ⟨s₁, hr⟩
      · rcases run_writeLoop_late h hon.isFile hne hmax hno hshort with hnone | ⟨s₁, hr, -⟩
        · exact .inl hnone
        · exact .inr ⟨s₁, hr⟩
    rw [call_write, run_tfsWrite hon] at hr
    rcases hfail with hnone | ⟨s₁, hfalse⟩
    · rw [hnone] at hr
      cases hr
    · rw [hfalse, Option.bind_some, if_neg (by simp)] at hr
      cases hr
      exact hok rfl

theorem Settled.of_requests (h : Runs.Reaches State.request Unfailing State.init s) : ∃ owner, Settled owner s := by
  refine Runs.Reaches.invariant (I := fun s => ∃ owner, Settled owner s) ?_ ⟨_, .init⟩ h
  rintro s r o s' ⟨owner, hs⟩ hc hr
  cases r with
  | call c =>
    obtain ⟨o', s₁, owner', hr', h'⟩ := hs.call ⟨hc.1, hc.2.1, enoughFor_of_succeeds hs.toConsistent hc.1 hc.2.2 hr⟩
    cases hr.symm.trans hr'
    exact ⟨owner', h'⟩
  | copy path dest fuel => exact ⟨owner, hs.copy hr⟩

structure FilesKept (s s' : State) : Prop where
  disk : s'.toDisk = s.toDisk
  inodes : s'.inodeTable = s.inodeTable
  states : s'.freeinodeTs = s.freeinodeTs
  handles : s'.freeOpenFileEntries = s.freeOpenFileEntries
  entries : ∀ g, s.freeOpenFileEntries g = .taken → s'.openFileTable g = s.openFileTable g

/-- After a run without truncation and without failed writes, a copy of a file with a destination that opens and accepts
all it is given comes to an end, returns 0 and gives the destination exactly the bytes of the file. -/
theorem copy_exact (h : Runs.Reaches State.request Unfailing State.init s) (hl : lookup s path = (i : Nat))
    (hfree : ∃ f < maxOpenFiles, s.freeOpenFileEntries f = .free) (dest : Dest) (hopens : dest.opens = true)
    (haccepts : ∀ k, min bufferSize ((s.inodeTable i).iSize - k * bufferSize) ≤ dest.accepts k) :
    ∃ fuel s', FilesKept s s' ∧
      ∀ n, fuel ≤ n → s.request (.copy path dest n) = some (⟨0, s.bytesOf i⟩, s') := by
  obtain ⟨owner, hs⟩ := Settled.of_requests h
  have hfile := hs.toConsistent.isFile_of_lookup hl
  have hsource : s.source path = some i := by
    rw [State.source, hl, if_pos (Int.natCast_nonneg i), inodeGet_natCast hfile.1]
  obtain ⟨f, hf⟩ : ∃ f, firstFree s.freeOpenFileEntries maxOpenFiles = some f := by
    cases hf : firstFree s.freeOpenFileEntries maxOpenFiles with
    | some f => exact ⟨f, rfl⟩
    | none =>
      obtain ⟨g, hg, hfree⟩ := hfree
      cases hfree.symm.trans (firstFree_eq_none.mp hf g hg)
  have h₁ : Settled owner (opened s i 0).2 := hs.opened hfile (Nat.zero_le _)
  have hon := onFile_opened hf hfile (hs.ne_zero hfile)
  have htaken := freeOpenFileEntries_opened hf i
  have hinodes : (opened s i 0).2.inodeTable i = s.inodeTable i := rfl
  have hbytes : (opened s i 0).2.bytesOf i = s.bytesOf i := rfl
  have hoff : ((opened s i 0).2.openFileTable f).ofOffset = 0 := (handleAt_opened hfile.1 hf).2.1
  obtain ⟨s₁, hs₁⟩ : ∃ s₁, s₁ = advanced (opened s i 0).2 f ((s.inodeTable i).iSize - 0) := ⟨_, rfl⟩
  refine ⟨(s.inodeTable i).iSize / bufferSize + 1,
    s₁.setFiles (Tecnicofs.removeFromOpenFileTable s₁.toOpenFiles f).2, ?_, fun n hn => ?_⟩
  · have hkept : s₁.freeOpenFileEntries = Function.update s.freeOpenFileEntries f .taken := by
      rw [hs₁]
      exact htaken
    rw [removeFromOpenFileTable_of_opened hf hkept, hs₁, opened_of_firstFree hf]
    refine ⟨rfl, rfl, rfl, rfl, fun g hg => ?_⟩
    have hgf : g ≠ f := by
      rintro rfl
      cases hg.symm.trans (firstFree_eq_some.mp hf).2.1
    exact (OpenFiles.setOffset_table ..).trans ((if_neg hgf).trans ((OpenFiles.setEntry_table ..).trans (if_neg hgf)))
  · have hfuel : (s.inodeTable i).iSize - 0 < n * bufferSize := by
      simp only [bufferSize] at hn ⊢
      omega
    rw [← hoff, ← hinodes] at hfuel
    obtain ⟨chunks, hreads, hflat, hlens⟩ := h₁.run_readChunks hon hfuel
    rw [hoff, hinodes, ← hs₁] at hreads
    rw [hoff, hbytes, List.drop_zero] at hflat
    have hall : dest.accepted 0 chunks = s.bytesOf i := by
      rw [← hflat]
      refine (dest.accepted_eq_flatten_iff 0 chunks).mpr fun k hk => ?_
      have hk' := hlens k hk
      rw [hoff, hinodes, Nat.sub_zero] at hk'
      rw [Nat.zero_add]
      exact hk'.trans (haccepts k)
    rw [State.request, Request.body, run_copy_opened hsource hf, if_pos hopens, hreads, Option.map_some, if_pos rfl, hall]

/-- A file of one full piece and two bytes. -/
theorem copy_exact_two : ∃ s fuel s', Runs.Reaches State.request Unfailing State.init s ∧
    s.bytesOf 1 = List.replicate 130 1 ∧ FilesKept s s' ∧ ∀ n, fuel ≤ n →
      s.request (.copy (some ⟨[47, 97], by decide⟩) ⟨true, fun _ => 128⟩ n) = some (⟨0, s.bytesOf 1⟩, s') := by
  have hrun : (Runs.run State.request State.init [.call (.open (some ⟨[47, 97], by decide⟩) tfsOCreat),
      .call (.write 0 (List.replicate 130 1)), .call (.close 0)]).map (fun x =>
        decide (lookup x.2 (some ⟨[47, 97], by decide⟩) = ((1 : Nat) : Int) ∧ x.2.freeOpenFileEntries 0 = .free ∧
          x.2.bytesOf 1 = List.replicate 130 1)) = some true := by decide +kernel
  obtain ⟨x, hx, he⟩ := Option.map_eq_some_iff.mp hrun
  obtain ⟨hl, hfree, hbytes⟩ := of_decide_eq_true he
  have hreach : Runs.Reaches State.request Unfailing State.init x.2 := ⟨_, _, by decide +kernel, hx⟩
  obtain ⟨fuel, s', hs', hr⟩ := copy_exact hreach hl ⟨0, by decide, hfree⟩ ⟨true, fun _ => 128⟩ rfl
    fun _ => Nat.min_le_left ..
  exact ⟨x.2, fuel, s', hreach, hbytes, hs', hr⟩

end Tecnicofs.Ex1
