import Tecnicofs.Ex1.Ranged
import Tecnicofs.Ex1.Sequential

namespace Tecnicofs.Ex1

open Bytes

/-- The number that `get_current_data_block` finds for block `k` of a file, or nothing where it reads nothing defined. -/
def State.blockNumber (s : State) (i k : Nat) : Option Int :=
  if k < indirectAccessBlock then some ((s.inodeTable i).iDataBlock k)
  else
    match dataBlockGet ((s.inodeTable i).iDataBlock indirectAccessBlock) with
    | none => none
    | some a => (s.toDisk.load (a + 4 * (k - indirectAccessBlock)) 4).map decodeInt

def State.HasBlock (s : State) (i k : Nat) : Prop := (s.blockNumber i k).any fun b => decide (validBlockNumber b)

instance (s : State) (i k : Nat) : Decidable (s.HasBlock i k) := inferInstanceAs (Decidable (_ = true))

variable {s s' : State} {i file k : Nat}

theorem hasBlock_iff : s.HasBlock i k ↔ ∃ b : Nat, b < dataBlocks ∧ s.blockNumber i k = some (b : Int) := by
  rw [State.HasBlock, Option.any_eq_true]
  constructor
  · rintro ⟨b, hb, hv⟩
    obtain ⟨h0, hlt⟩ := of_decide_eq_true hv
    exact ⟨b.toNat, by omega, by rw [Int.toNat_of_nonneg h0]; exact hb⟩
  · rintro ⟨b, hlt, hb⟩
    exact ⟨b, hb, decide_eq_true ⟨by omega, by exact_mod_cast hlt⟩⟩

theorem State.HasBlock.lt (h : s.HasBlock i k) : k < indirectAccessBlock + fsDataSize := by
  obtain ⟨b, -, hb⟩ := hasBlock_iff.mp h
  unfold State.blockNumber at hb
  split at hb
  · omega
  · split at hb
    · cases hb
    · obtain ⟨bytes, hload, -⟩ := Option.map_eq_some_iff.mp hb
      have := (disk_load_eq_some hload).1
      omega

theorem run_getCurrentDataBlock_of_hasBlock (h : s.HasBlock i ((s.openFileTable file).ofOffset / blockSize)) :
    ∃ b < dataBlocks, (getCurrentDataBlock i file).run s = some (some (b * blockSize), s) := by
  obtain ⟨b, hlt, hb⟩ := hasBlock_iff.mp h
  have hne : ¬ (b : Int) = -1 := by omega
  refine ⟨b, hlt, ?_⟩
  simp only [getCurrentDataBlock, Prog.run_bind, Prog.run_get, Option.bind_some]
  unfold State.blockNumber at hb
  by_cases hdir : (s.openFileTable file).ofOffset / blockSize < indirectAccessBlock
  · rw [if_pos hdir] at hb ⊢
    simp only [directBlock, Prog.run_bind, Prog.run_get, Option.bind_some, Option.some.inj hb, if_neg hne, Prog.run_pure,
      dataBlockGet_of_lt hlt]
  · rw [if_neg hdir] at hb ⊢
    cases hget : dataBlockGet ((s.inodeTable i).iDataBlock indirectAccessBlock) with
    | none =>
      rw [hget] at hb
      cases hb
    | some a =>
      rw [hget] at hb
      obtain ⟨bytes, hload, hdecode⟩ := Option.map_eq_some_iff.mp hb
      obtain ⟨e, -, he, -⟩ := dataBlockGet_eq_some hget
      have hlast : ¬ (s.inodeTable i).iDataBlock indirectAccessBlock = -1 := by omega
      simp only [needBonusBlock, indirectBlock, loadReference, Prog.run_bind, Prog.run_get, Option.bind_some, if_neg hlast,
        if_true, Prog.run_pure, hget, Prog.run_atomic, hload, Option.map_some, hdecode, if_neg hne, dataBlockGet_of_lt hlt]

def TookBlock (s s' : State) : Prop := ∃ b, s.freeBlocks b = .free ∧ s'.freeBlocks b = .taken

theorem steady_taken (b : Nat) : Steady fun s => s.freeBlocks b = .taken where
  alloc s hs := by
    rcases dataBlockAlloc_cases s.toDisk with ⟨c, -, -, he⟩ | ⟨-, he⟩
    · rw [he]
      refine (Disk.take_freeBlocks ..).trans ?_
      split
      · rfl
      · exact hs
    · rw [he]
      exact hs
  entry _ _ _ _ hs := hs
  store _ _ _ _ hs hd := by
    obtain ⟨-, rfl⟩ := disk_store_eq_some hd
    exact hs
  offset _ _ _ hs _ := hs

theorem dataBlockAlloc_took (s : State) :
    Tecnicofs.dataBlockAlloc s.toDisk = (-1, s.toDisk) ∨ TookBlock s (s.setDisk (Tecnicofs.dataBlockAlloc s.toDisk).2) := by
  rcases dataBlockAlloc_cases s.toDisk with ⟨c, -, hfree, he⟩ | ⟨-, he⟩
  · refine .inr ⟨c, hfree, ?_⟩
    rw [he]
    exact (Disk.take_freeBlocks ..).trans (if_pos rfl)
  · exact .inl he

theorem TookBlock.keeps {s₁ : State} (h : TookBlock s s₁) {p : Program α} {a : α}
    (hp : ∀ b, p.Keeps (fun s => s.freeBlocks b = .taken) fun _ => True) (hr : p.run s₁ = some (a, s')) :
    TookBlock s s' := by
  obtain ⟨b, hfree, ht⟩ := h
  exact ⟨b, hfree, (hp b s₁ ht a s' hr).2⟩

theorem dataBlockGet_of_not {b : Int} (h : ¬ validBlockNumber b) : dataBlockGet b = none := by
  cases hget : dataBlockGet b with
  | none => rfl
  | some a =>
    obtain ⟨c, hlt, rfl, -⟩ := dataBlockGet_eq_some hget
    exact absurd ⟨by omega, by exact_mod_cast hlt⟩ h

theorem ensures_directBlock_of_not (h : ¬ validBlockNumber ((s.inodeTable i).iDataBlock k)) :
    (directBlock i k).Ensures s fun r s' => r = none ∨ TookBlock s s' := by
  refine Prog.ensures_get ?_
  split
  · refine .of_run (run_dataBlockAlloc s) ?_
    rcases dataBlockAlloc_took s with he | htook
    · rw [he]
      exact Prog.ensures_modify (Prog.ensures_pure (.inl dataBlockGet_neg_one))
    · exact fun r s' hr => .inr (htook.keeps (fun b =>
        (keeps_setDataBlock (steady_taken b).toBlockSteady _ _ _).bind fun _ _ => Prog.keeps_pure trivial) hr)
  · exact Prog.ensures_pure (.inl (dataBlockGet_of_not h))

theorem ensures_needBonusBlock_took : (needBonusBlock i).Ensures s fun _ s' =>
    (s.inodeTable i).iDataBlock indirectAccessBlock ≠ -1 ∧ s' = s ∨ TookBlock s s' := by
  refine Prog.ensures_get ?_
  split
  · rw [bonusBlockInit, Prog.bind_assoc]
    refine .of_run (run_dataBlockAlloc s) ?_
    rcases dataBlockAlloc_took s with he | htook
    · rw [he, Prog.bind_assoc]
      refine Prog.ensures_modify ?_
      rw [dataBlockGet_neg_one]
      exact fun r s' hr => by cases hr
    · refine fun r s' hr => .inr (htook.keeps (fun b => ?_) hr)
      have hset : ∀ c, (setDataBlock i indirectAccessBlock c).Keeps (fun s => s.freeBlocks b = .taken) fun _ => True :=
        fun c => keeps_setDataBlock (steady_taken b).toBlockSteady _ _ c
      refine Prog.Keeps.bind (P := fun _ => True) ((hset _).bind fun _ _ => ?_) fun c _ =>
        (hset c).bind fun _ _ => Prog.keeps_pure trivial
      split
      · exact keeps_undefined
      · refine Prog.keeps_atomic fun s₁ _ s₂ hs₁ hr₁ => ⟨?_, Prog.keeps_pure trivial⟩
        obtain ⟨d, hd, he⟩ := Option.map_eq_some_iff.mp hr₁
        cases he
        exact (steady_taken b).store s₁ _ _ d hs₁ hd
  · next hne => exact Prog.ensures_pure (.inl ⟨hne, rfl⟩)

theorem ensures_indirectBlock_of_not {j : Nat} (h : ¬ s.HasBlock i (indirectAccessBlock + j)) :
    (indirectBlock i j).Ensures s fun r s' => r = none ∨ TookBlock s s' := by
  refine Prog.ensures_get ?_
  cases hget : dataBlockGet ((s.inodeTable i).iDataBlock indirectAccessBlock) with
  | none => exact fun r s' hr => by cases hr
  | some a =>
    refine Prog.ensures_atomic fun v s₁ hv => ?_
    obtain ⟨bytes, hload, he⟩ := Option.map_eq_some_iff.mp hv
    cases he
    have hnumber : s.blockNumber i (indirectAccessBlock + j) = some (decodeInt bytes) := by
      rw [State.blockNumber, if_neg (by omega), hget, Nat.add_sub_cancel_left]
      exact Option.map_eq_some_iff.mpr ⟨bytes, hload, rfl⟩
    have hbad : ¬ validBlockNumber (decodeInt bytes) := fun hv => h (by
      rw [State.HasBlock, hnumber]
      exact decide_eq_true hv)
    split
    · refine .of_run (run_dataBlockAlloc s) ?_
      rcases dataBlockAlloc_took s with he | htook
      · rw [he]
        exact Prog.ensures_atomic fun _ _ _ => Prog.ensures_pure (.inl dataBlockGet_neg_one)
      · exact fun r s' hr => .inr (htook.keeps (fun b =>
          (keeps_storeReference (steady_taken b).toBlockSteady _ _ _).bind fun _ _ => Prog.keeps_pure trivial) hr)
    · exact Prog.ensures_pure (.inl (dataBlockGet_of_not hbad))

theorem ensures_getCurrentDataBlock_of_not (h : ¬ s.HasBlock i ((s.openFileTable file).ofOffset / blockSize)) :
    (getCurrentDataBlock i file).Ensures s fun r s' => r = none ∨ TookBlock s s' := by
  refine Prog.ensures_get ?_
  generalize (s.openFileTable file).ofOffset / blockSize = k at h
  by_cases hdir : k < indirectAccessBlock
  · rw [if_pos hdir]
    refine ensures_directBlock_of_not fun hv => h ?_
    rw [State.HasBlock, State.blockNumber, if_pos hdir]
    exact decide_eq_true hv
  · rw [if_neg hdir]
    refine Prog.Ensures.bind (ensures_needBonusBlock_took.mono fun ok s₁ hs₁ => ?_)
    rcases hs₁ with ⟨-, rfl⟩ | htook
    · split
      · refine ensures_indirectBlock_of_not ?_
        rwa [Nat.add_sub_cancel' (Nat.le_of_not_lt hdir)]
      · exact Prog.ensures_pure (.inl rfl)
    · refine fun r s' hr => .inr (htook.keeps (fun b => ?_) hr)
      split
      · exact keeps_indirectBlock (steady_taken b).toBlockSteady _ _
      · exact Prog.keeps_pure trivial

theorem State.HasBlock.offset_lt {o : Nat} (h : s.HasBlock i (o / blockSize)) : o < 2 ^ 32 := by
  have hlt := h.lt
  simp only [blockSize, indirectAccessBlock, fsDataSize, dataBlocks] at hlt
  omega

theorem advanced_zero (s : State) (file : Nat) : advanced s file 0 = s := by
  rw [advanced, Nat.add_zero, OpenFiles.setOffset_self]
  rfl

theorem advanced_advanced (s : State) (file m n : Nat) : advanced (advanced s file m) file n = advanced s file (m + n) := by
  simp only [advanced, State.setFiles, OpenFiles.setOffset, OpenFiles.setEntry, Function.update_self, Function.update_idem,
    Nat.add_assoc]

theorem run_readIteration_of_hasBlock {toRead : Nat} (h : s.HasBlock i ((s.openFileTable file).ofOffset / blockSize))
    (hlt : toRead + (s.openFileTable file).ofOffset % blockSize < 2 ^ 64) :
    ∃ bytes, (readIteration i file toRead).run s =
      some (some (toRead - room toRead (s.openFileTable file).ofOffset, bytes),
        advanced s file (room toRead (s.openFileTable file).ofOffset)) := by
  obtain ⟨b, hb, hr⟩ := run_getCurrentDataBlock_of_hasBlock h
  have hoff := h.offset_lt
  exact run_readIteration_of_found hb hr (by omega) hlt

theorem run_readIteration_of_wrap {toRead : Nat} (h : s.HasBlock i ((s.openFileTable file).ofOffset / blockSize))
    (hlt : toRead < 2 ^ 64) (hwrap : 2 ^ 64 ≤ toRead + (s.openFileTable file).ofOffset % blockSize) :
    (readIteration i file toRead).run s = none := by
  obtain ⟨b, -, hr⟩ := run_getCurrentDataBlock_of_hasBlock h
  have hoff := h.offset_lt
  have hmod : (s.openFileTable file).ofOffset % blockSize < blockSize := Nat.mod_lt _ (by decide)
  have hcur := getCurrentOffset_eq (o := (s.openFileTable file).ofOffset) (by omega)
  generalize (s.openFileTable file).ofOffset % blockSize = m at hmod hcur hwrap
  have hchunk : chunk toRead m = toRead := by
    unfold chunk
    refine if_pos ?_
    simp only [szAdd, blockSize] at hmod ⊢
    omega
  have hfit : ¬ b * blockSize + m + toRead ≤ fsDataSize := by
    simp only [blockSize, fsDataSize, dataBlocks] at hmod ⊢
    omega
  simp only [readIteration, Prog.run_bind, Prog.run_get, Option.bind_some, hcur, hr, hchunk, readChunk, Prog.run_atomic,
    Disk.load, if_neg hfit, Option.map_none, Option.bind_none]

theorem div_of_lt_room {o x n : Nat} (hx : x < room n o) : (o + x) / blockSize = o / blockSize := by
  have hroom : room n o ≤ blockSize - o % blockSize := Nat.min_le_right ..
  simp only [blockSize] at hroom ⊢
  omega

theorem ensures_readIteration_of_not {toRead : Nat} (h : ¬ s.HasBlock i ((s.openFileTable file).ofOffset / blockSize)) :
    (readIteration i file toRead).Ensures s fun r s' => r = none ∨ TookBlock s s' := by
  refine Prog.ensures_get (Prog.Ensures.bind ((ensures_getCurrentDataBlock_of_not h).mono fun found s₁ hs₁ => ?_))
  rcases hs₁ with rfl | htook
  · exact Prog.ensures_pure (.inl rfl)
  · refine fun r s' hr => .inr (htook.keeps (fun b => ?_) hr)
    cases found with
    | none => exact Prog.keeps_pure trivial
    | some block => exact (keeps_readChunk (steady_taken b) _ _ _ _).bind fun _ _ => Prog.keeps_pure trivial

theorem hasBlocks_of_readLoop {fuel toRead : Nat} {bytesRead out : List UInt8} (hlt : toRead < 2 ^ 64)
    (hfuel : toRead ≤ fuel) (hr : (readLoop i file fuel toRead bytesRead).run s = some ((true, out), s'))
    (hsame : s'.freeBlocks = s.freeBlocks) :
    ∀ x < toRead, s.HasBlock i (((s.openFileTable file).ofOffset + x) / blockSize) := by
  induction fuel generalizing s toRead bytesRead with
  | zero => exact fun x hx => by omega
  | succ fuel ih =>
    by_cases hpos : toRead = 0
    · exact fun x hx => by omega
    rw [readLoop_succ _ _ _ hpos, Prog.run_bind] at hr
    obtain ⟨⟨r, s₁⟩, hiter, hloop⟩ := Option.bind_eq_some_iff.mp hr
    by_cases hhas : s.HasBlock i ((s.openFileTable file).ofOffset / blockSize)
    · by_cases hwrap : toRead + (s.openFileTable file).ofOffset % blockSize < 2 ^ 64
      · obtain ⟨bytes, hsome⟩ := run_readIteration_of_hasBlock hhas hwrap
        rw [hsome] at hiter
        cases hiter
        have hroom := room_pos (Nat.pos_of_ne_zero hpos) (s.openFileTable file).ofOffset
        have hrest := ih (by omega) (by omega) hloop hsame
        intro x hx
        by_cases hin : x < room toRead (s.openFileTable file).ofOffset
        · rw [div_of_lt_room hin]
          exact hhas
        · have hx' := hrest (x - room toRead (s.openFileTable file).ofOffset) (by omega)
          rw [offset_advanced, Nat.add_assoc, Nat.add_sub_cancel' (Nat.le_of_not_lt hin)] at hx'
          exact hx'
      · rw [run_readIteration_of_wrap hhas hlt (Nat.le_of_not_lt hwrap)] at hiter
        cases hiter
    · exfalso
      rcases ensures_readIteration_of_not hhas r s₁ hiter with rfl | htook
      · cases hloop
      · cases r with
        | none => cases hloop
        | some left =>
          obtain ⟨b, hfree, htaken⟩ := htook.keeps (fun b => keeps_readLoop (steady_taken b) i file fuel _ _) hloop
          rw [hsame, hfree] at htaken
          cases htaken

theorem run_readLoop_of_hasBlocks {fuel toRead : Nat} (bytesRead : List UInt8) (hfuel : toRead ≤ fuel)
    (h : ∀ x < toRead, s.HasBlock i (((s.openFileTable file).ofOffset + x) / blockSize)) :
    ∃ bytes, (readLoop i file fuel toRead bytesRead).run s = some ((true, bytesRead ++ bytes), advanced s file toRead) := by
  induction fuel generalizing s toRead bytesRead with
  | zero =>
    obtain rfl : toRead = 0 := by omega
    exact ⟨[], by rw [advanced_zero, List.append_nil]; rfl⟩
  | succ fuel ih =>
    by_cases hpos : toRead = 0
    · subst hpos
      exact ⟨[], by rw [readLoop, if_pos rfl, advanced_zero, List.append_nil]; rfl⟩
    have hfirst := h 0 (Nat.pos_of_ne_zero hpos)
    have hlast := (h (toRead - 1) (by omega)).offset_lt
    have hfit : toRead + (s.openFileTable file).ofOffset % blockSize < 2 ^ 64 := by
      simp only [blockSize]
      omega
    rw [Nat.add_zero] at hfirst
    obtain ⟨bytes, hr⟩ := run_readIteration_of_hasBlock hfirst hfit
    have hroom := room_pos (Nat.pos_of_ne_zero hpos) (s.openFileTable file).ofOffset
    have hle : room toRead (s.openFileTable file).ofOffset ≤ toRead := Nat.min_le_left ..
    generalize room toRead (s.openFileTable file).ofOffset = n at hr hroom hle
    have hrest : ∀ x < toRead - n,
        (advanced s file n).HasBlock i ((((advanced s file n).openFileTable file).ofOffset + x) / blockSize) := fun x hx => by
      rw [offset_advanced, Nat.add_assoc]
      exact h (n + x) (by omega)
    obtain ⟨rest, hrest⟩ := ih (bytesRead ++ bytes) (by omega) hrest
    refine ⟨bytes ++ rest, ?_⟩
    rw [readLoop_succ _ _ _ hpos, Prog.run_bind, hr]
    refine hrest.trans ?_
    rw [advanced_advanced, Nat.add_sub_cancel' hle, List.append_assoc]

theorem run_tfsRead (hf : file < maxOpenFiles) (hi : inodeGet (s.openFileTable file).ofInumber = some i) (len : Nat) :
    (tfsRead file len).run s =
      ((readLoop i file (s.toRead i file len) (s.toRead i file len) []).run s).map fun x =>
        (⟨if x.1.1 then s.toRead i file len else -1, x.1.2⟩, x.2) := by
  simp only [tfsRead, mutexLock, rdlock, unlock, Prog.run_bind, Prog.run_acquire, getOpenFileEntry_natCast hf,
    Prog.run_release, Prog.run_get, Option.bind_some]
  simp only [hi, Prog.run_bind, Prog.run_acquire, Prog.run_release, Prog.run_get, State.toRead]
  -- The number of bytes stays a variable: evaluating it would unfold the loop.
  generalize readLoop i file = loop
  rw [Option.bind_some, Option.bind_some]
  generalize szSub (s.inodeTable i).iSize (s.openFileTable file).ofOffset = available
  rw [Option.bind_some]
  generalize (if available > len then len else available) = n
  cases (loop n n []).run s with
  | none => rfl
  | some x =>
    obtain ⟨⟨ok, out⟩, s'⟩ := x
    cases ok <;> rfl

def remaining (size offset : Nat) : Nat := if offset ≤ size then size - offset else 0

def State.expected (s : State) (f len : Nat) : Nat :=
  min len (remaining (s.inodeTable (s.fileOf f)).iSize (s.openFileTable f).ofOffset)

/-- The read returns what there is to read and moves the offset of its handle; all else stays. -/
def OnlyReads (s : State) (fhandle : Int) (len : Nat) : Prop :=
  ∃ data s', s.call (.read fhandle len) = some (⟨s.expected fhandle.toNat len, data⟩, s') ∧
    (s'.openFileTable fhandle.toNat).ofOffset =
      (s.openFileTable fhandle.toNat).ofOffset + s.expected fhandle.toNat len ∧
    (s'.openFileTable fhandle.toNat).ofInumber = (s.openFileTable fhandle.toNat).ofInumber ∧
    (∀ g, g ≠ fhandle.toNat → s'.openFileTable g = s.openFileTable g) ∧
    s'.freeOpenFileEntries = s.freeOpenFileEntries ∧ s'.toDisk = s.toDisk ∧ s'.inodeTable = s.inodeTable ∧
    s'.freeinodeTs = s.freeinodeTs

/-- The handle is not past the end, and the file has the blocks of all bytes to read. -/
def Readable (s : State) (f len : Nat) : Prop :=
  ((s.openFileTable f).ofOffset ≤ (s.inodeTable (s.fileOf f)).iSize ∨ len = 0) ∧
    ∀ x < s.expected f len, s.HasBlock (s.fileOf f) (((s.openFileTable f).ofOffset + x) / blockSize)

theorem Ranged.inodeGet (h : Ranged s) (f : Nat) : inodeGet (s.openFileTable f).ofInumber = some (s.fileOf f) :=
  if_pos (h.inumber f)

theorem toRead_lt (s : State) (i f len : Nat) : s.toRead i f len < 2 ^ 64 := by
  have hlt : szSub (s.inodeTable i).iSize (s.openFileTable f).ofOffset < 2 ^ 64 := Nat.mod_lt _ (by decide)
  unfold State.toRead
  simp only
  split <;> omega

theorem Ranged.toRead_eq_expected (h : Ranged s) (f len : Nat) :
    s.toRead (s.fileOf f) f len = s.expected f len ↔
      (s.openFileTable f).ofOffset ≤ (s.inodeTable (s.fileOf f)).iSize ∨ len = 0 := by
  have hsize := h.size (s.fileOf f)
  have hoff := h.offset f
  simp only [State.toRead, State.expected, remaining]
  by_cases hle : (s.openFileTable f).ofOffset ≤ (s.inodeTable (s.fileOf f)).iSize
  · rw [szSub_of_le hle hsize, if_pos hle]
    simp only [hle, true_or, iff_true]
    split <;> omega
  · rw [szSub_of_lt (by omega) (by omega), if_neg hle, Nat.min_zero]
    constructor
    · intro hz
      split at hz
      · exact .inr hz
      · omega
    · rintro (hle' | rfl)
      · exact absurd hle' hle
      · split <;> omega

theorem Ranged.onlyReads_iff (h : Ranged s) (hf : file < maxOpenFiles) (len : Nat) :
    OnlyReads s file len ↔ Readable s file len := by
  simp only [OnlyReads, Readable, Int.toNat_natCast, State.call, body, run_tfsRead hf (h.inodeGet file) len]
  rw [← h.toRead_eq_expected]
  constructor
  · rintro ⟨data, s', hr, -, -, -, -, hdisk, -⟩
    obtain ⟨⟨⟨ok, out⟩, s₁⟩, hloop, he⟩ := Option.map_eq_some_iff.mp hr
    obtain ⟨hout, rfl⟩ := Prod.mk.inj he
    have hret := congrArg Out.ret hout
    cases ok with
    | false =>
      have hneg : (-1 : Int) = (s.expected file len : Nat) := hret
      omega
    | true =>
      have hn : s.toRead (s.fileOf file) file len = s.expected file len := Int.ofNat.inj hret
      refine ⟨hn, ?_⟩
      rw [← hn]
      exact hasBlocks_of_readLoop (toRead_lt ..) le_rfl hloop (congrArg Disk.freeBlocks hdisk)
  · rintro ⟨hn, hall⟩
    rw [← hn] at hall
    obtain ⟨bytes, hloop⟩ := run_readLoop_of_hasBlocks [] le_rfl hall
    refine ⟨bytes, advanced s file (s.expected file len), ?_, offset_advanced .., ?_, fun g hg => ?_, rfl, rfl, rfl, rfl⟩
    · rw [hloop, hn]
      rfl
    · exact OpenFiles.setOffset_ofInumber ..
    · exact (OpenFiles.setOffset_table ..).trans (if_neg hg)

/-- After any calls, a read only reads exactly when its handle is not past the end and its blocks are there. -/
theorem onlyReads_iff_readable (h : Runs.Reaches State.call (fun _ _ => True) State.init s) {fhandle : Int}
    (hopen : s.toOpenFiles.IsOpen fhandle) (len : Nat) : OnlyReads s fhandle len ↔ Readable s fhandle.toNat len := by
  obtain ⟨f, hf, rfl, -⟩ := hopen.exists
  exact (Ranged.of_reaches h).onlyReads_iff hf len

/-- What was just written is read. -/
theorem onlyReads_of_written : ∃ s, Runs.Reaches State.call (fun _ _ => True) State.init s ∧ s.toOpenFiles.IsOpen 1 ∧
    s.expected 1 4 = 3 ∧ OnlyReads s 1 4 := by
  have hrun : (Runs.run State.call State.init [.open (some ⟨[47, 97], by decide⟩) tfsOCreat, .write 0 [1, 2, 3],
      .open (some ⟨[47, 97], by decide⟩) 0]).map (fun x => decide (x.2.toOpenFiles.IsOpen 1 ∧ x.2.expected 1 4 = 3 ∧
        (x.2.openFileTable 1).ofOffset = 0 ∧ x.2.HasBlock (x.2.fileOf 1) 0)) = some true := by decide +kernel
  obtain ⟨x, hx, he⟩ := Option.map_eq_some_iff.mp hrun
  obtain ⟨ho, hexp, hoff, hblock⟩ := of_decide_eq_true he
  have hreach : Runs.Reaches State.call (fun _ _ => True) State.init x.2 := ⟨_, _, by decide +kernel, hx⟩
  refine ⟨x.2, hreach, ho, hexp, (onlyReads_iff_readable hreach ho 4).mpr ⟨.inl ?_, fun y hy => ?_⟩⟩
  · exact hoff.trans_le (Nat.zero_le _)
  · rw [show (1 : Int).toNat = 1 from rfl] at hy ⊢
    rw [hexp] at hy
    rwa [hoff, Nat.zero_add, Nat.div_eq_of_lt (lt_trans hy (by decide))]

/-- A handle that another one's truncation left behind the end reads, and takes a block. -/
theorem read_past_end : ¬ ∀ (s : State) (fhandle : Int) (len : Nat),
    Runs.Reaches State.call (fun _ _ => True) State.init s → s.toOpenFiles.IsOpen fhandle → OnlyReads s fhandle len := by
  intro h
  have hrun : (Runs.run State.call State.init [.open (some ⟨[47, 97], by decide⟩) tfsOCreat, .write 0 [7],
      .open (some ⟨[47, 97], by decide⟩) tfsOTrunc]).bind (fun x => (x.2.call (.read 0 1)).map fun y =>
        decide (x.2.toOpenFiles.IsOpen 0 ∧ x.2.expected 0 1 = 0 ∧ y.1.ret = 1)) = some true := by decide +kernel
  obtain ⟨x, hx, hy⟩ := Option.bind_eq_some_iff.mp hrun
  obtain ⟨y, hr, he⟩ := Option.map_eq_some_iff.mp hy
  obtain ⟨ho, hexp, hret⟩ := of_decide_eq_true he
  obtain ⟨data, s', hcall, -⟩ := h x.2 0 1 ⟨_, _, by decide +kernel, hx⟩ ho
  obtain rfl := Option.some.inj (hr.symm.trans hcall)
  have hzero : ((x.2.expected 0 1 : Nat) : Int) = 1 := hret
  rw [hexp] at hzero
  cases hzero

end Tecnicofs.Ex1
