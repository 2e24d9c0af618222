import Tecnicofs.Ex1.AllOrNothing
import Tecnicofs.Ex1.Opening

namespace Tecnicofs.Ex1

open Bytes

variable {owner : Owner} {s s' : State} {fs : ByteFs Nat} {i f file : Nat} {buffer : List UInt8}

section
variable {A : Label → State → Prop}

theorem assumes_writeIteration (hA : ∀ s : State, 0 < s.freeCount → A .alloc s) (h : Consistent owner s)
    (hi : s.IsFile i) (hne : buffer ≠ []) (hmax : (s.openFileTable file).ofOffset + buffer.length ≤ maxFileSize)
    (hcost : s.writeCost i (s.openFileTable file).ofOffset buffer.length ≤ s.freeCount) :
    (writeIteration i file buffer).Assumes A s := by
  have hpos := List.length_pos_iff.mpr hne
  have hex : (dataSlot ((s.openFileTable file).ofOffset / blockSize)).Exists :=
    dataSlot_exists (lt_of_le_of_lt (Nat.div_mul_le_self ..) (by omega))
  rw [writeIteration, Prog.assumes_bind]
  refine ⟨assumes_getCurrentDataBlock hA h hi rfl hex ((blockCost_le_writeCost hpos.ne').trans hcost), fun r s₁ _ => ?_⟩
  cases r <;> simp [Prog.assumes_bind, writeChunk]

theorem assumes_writeLoop (hA : ∀ s : State, 0 < s.freeCount → A .alloc s) (h : Consistent owner s)
    (hi : s.IsFile i) (fuel : Nat) (hmax : (s.openFileTable file).ofOffset + buffer.length ≤ maxFileSize)
    (hcost : s.writeCost i (s.openFileTable file).ofOffset buffer.length ≤ s.freeCount) :
    (writeLoop i file fuel buffer).Assumes A s := by
  induction fuel generalizing s owner buffer with
  | zero => trivial
  | succ fuel ih =>
    by_cases hne : buffer = []
    · rw [hne, writeLoop_nil]
      trivial
    have hlen : buffer.length ≠ 0 := fun hz => hne (List.length_eq_zero_iff.mp hz)
    rw [writeLoop_succ _ _ _ hne, Prog.assumes_bind]
    refine ⟨assumes_writeIteration hA h hi hne hmax hcost, fun r s₁ hr => ?_⟩
    rcases writeIteration_cases h hi hne hmax with ⟨s₂, hr₂, ha⟩ | ⟨hno, -⟩
    · obtain ⟨rfl, rfl⟩ := Prod.mk.inj (Option.some.inj (hr.symm.trans hr₂))
      obtain ⟨owner₁, h₁⟩ := ha.consistent
      have hsum := ha.writeCost rfl hlen hmax
      have hleft := ha.left
      obtain ⟨b, hl⟩ := ha.located
      have hcount := hl.count
      rw [← ha.offset, ← List.length_drop] at hsum
      exact ih h₁ (ha.kept.isFile.mpr hi) (by omega) (by omega)
    · exact absurd ((blockCost_le_writeCost hlen).trans hcost) (Nat.not_le.mpr hno)

end

abbrev advanced (s : State) (file n : Nat) : State :=
  s.setFiles (s.toOpenFiles.setOffset file ((s.openFileTable file).ofOffset + n))

theorem slot_advanced (s : State) (file n i : Nat) (k : Slot) : (advanced s file n).slot i k = s.slot i k := by
  cases k <;> rfl

theorem offset_advanced (s : State) (file n : Nat) :
    ((advanced s file n).openFileTable file).ofOffset = (s.openFileTable file).ofOffset + n := by
  rw [State.setFiles_toOpenFiles, OpenFiles.setOffset_table, if_pos rfl]

theorem run_readIteration_of_found {b toRead : Nat} (hlt : b < dataBlocks)
    (hr : (getCurrentDataBlock i file).run s = some (some (b * blockSize), s))
    (hoff : (s.openFileTable file).ofOffset < 2 ^ 62)
    (hfit : toRead + (s.openFileTable file).ofOffset % blockSize < 2 ^ 64) :
    ∃ bytes, (readIteration i file toRead).run s = some (some (toRead - room toRead (s.openFileTable file).ofOffset, bytes),
      advanced s file (room toRead (s.openFileTable file).ofOffset)) := by
  have hmod : (s.openFileTable file).ofOffset % blockSize < blockSize := Nat.mod_lt _ (by decide)
  have hcur := getCurrentOffset_eq (o := (s.openFileTable file).ofOffset) (by omega)
  have hchunk : chunk toRead ((s.openFileTable file).ofOffset % blockSize) = room toRead (s.openFileTable file).ofOffset :=
    chunk_eq hfit hmod
  have hroom : room toRead (s.openFileTable file).ofOffset ≤ blockSize - (s.openFileTable file).ofOffset % blockSize :=
    Nat.min_le_right ..
  have hinside : b * blockSize + (s.openFileTable file).ofOffset % blockSize +
      room toRead (s.openFileTable file).ofOffset ≤ fsDataSize := by
    simp only [blockSize, fsDataSize, dataBlocks] at hlt hmod hroom ⊢
    omega
  have hadd : szAdd (s.openFileTable file).ofOffset (room toRead (s.openFileTable file).ofOffset) =
      (s.openFileTable file).ofOffset + room toRead (s.openFileTable file).ofOffset := szAdd_of_lt (by
    simp only [blockSize] at hroom
    omega)
  refine ⟨s.fsData.load (b * blockSize + (s.openFileTable file).ofOffset % blockSize)
    (room toRead (s.openFileTable file).ofOffset), ?_⟩
  simp only [readIteration, Prog.run_bind, Prog.run_get, Option.bind_some, hcur, hr, hchunk, readChunk, Prog.run_atomic,
    Disk.load, if_pos hinside, Option.map_some, Prog.run_pure, hadd]

theorem run_readIteration (h : Consistent owner s) (hi : s.IsFile i) {toRead : Nat} (hpos : toRead ≠ 0)
    (hmax : (s.openFileTable file).ofOffset + toRead ≤ maxFileSize)
    (hne : s.slot i (dataSlot ((s.openFileTable file).ofOffset / blockSize)) ≠ -1) :
    ∃ bytes, (readIteration i file toRead).run s = some (some (toRead - room toRead (s.openFileTable file).ofOffset, bytes),
      advanced s file (room toRead (s.openFileTable file).ofOffset)) := by
  have hex : (dataSlot ((s.openFileTable file).ofOffset / blockSize)).Exists :=
    dataSlot_exists (lt_of_le_of_lt (Nat.div_mul_le_self ..) (by omega))
  obtain ⟨b, hr, ho⟩ := run_getCurrentDataBlock h hi rfl hex hne
  have hbound : maxFileSize < 2 ^ 62 := by decide
  have hmod : (s.openFileTable file).ofOffset % blockSize ≤ (s.openFileTable file).ofOffset := Nat.mod_le ..
  exact run_readIteration_of_found (h.lt ho) hr (by omega) (by omega)

theorem assumes_readLoop {A : Label → State → Prop} (hA : ∀ s : State, 0 < s.freeCount → A .alloc s)
    (h : Consistent owner s) (hi : s.IsFile i) (fuel toRead : Nat) (bytesRead : List UInt8)
    (hmax : (s.openFileTable file).ofOffset + toRead ≤ maxFileSize)
    (hall : ∀ k, k * blockSize < (s.openFileTable file).ofOffset + toRead → s.slot i (dataSlot k) ≠ -1) :
    (readLoop i file fuel toRead bytesRead).Assumes A s := by
  induction fuel generalizing s toRead bytesRead with
  | zero => trivial
  | succ fuel ih =>
    by_cases hpos : toRead = 0
    · rw [readLoop, if_pos hpos]
      trivial
    have hne := hall _ (lt_of_le_of_lt (Nat.div_mul_le_self ..) (by omega : (s.openFileTable file).ofOffset < _))
    have hex : (dataSlot ((s.openFileTable file).ofOffset / blockSize)).Exists :=
      dataSlot_exists (lt_of_le_of_lt (Nat.div_mul_le_self ..) (by omega))
    have hle : room toRead (s.openFileTable file).ofOffset ≤ toRead := Nat.min_le_left ..
    rw [readLoop_succ _ _ _ hpos, Prog.assumes_bind]
    refine ⟨?_, fun r s₁ hr => ?_⟩
    · simp only [readIteration, Prog.assumes_bind, Prog.assumes_get, Prog.run_get, true_and]
      rintro _ _ ⟨⟩
      refine ⟨assumes_getCurrentDataBlock hA h hi rfl hex (by rw [blockCost_of_slot hne]; exact Nat.zero_le _),
        fun r s₁ _ => ?_⟩
      cases r <;> simp [Prog.assumes_bind, readChunk]
    · obtain ⟨bytes, hr₁⟩ := run_readIteration h hi hpos hmax hne
      obtain ⟨rfl, rfl⟩ := Prod.mk.inj (Option.some.inj (hr.symm.trans hr₁))
      refine ih (h.setOffset ..) hi _ _ ?_ fun k hk => ?_
      · rw [offset_advanced]
        omega
      · rw [slot_advanced]
        rw [offset_advanced] at hk
        exact hall k (by omega)

def State.toRead (s : State) (i f len : Nat) : Nat :=
  let available := szSub (s.inodeTable i).iSize (s.openFileTable f).ofOffset
  if available > len then len else available

theorem succeeds_of_freeCount {s : State} (h : 0 < s.freeCount) : Label.alloc.Succeeds s := by
  by_contra hno
  refine absurd (Disk.freeCount_eq_zero.mpr fun b hb => ?_) h.ne'
  cases hc : s.freeBlocks b with
  | taken => rfl
  | free => exact absurd ⟨b, hb, hc⟩ hno

theorem assumes_write {A : Label → State → Prop} (hA : ∀ s : State, 0 < s.freeCount → A .alloc s)
    (hw : A (.write f buffer.length) s) (h : Consistent owner s) (hf : OnFile s f i)
    (hmax : (s.openFileTable f).ofOffset + buffer.length ≤ maxFileSize)
    (hcost : s.writeCost i (s.openFileTable f).ofOffset buffer.length ≤ s.freeCount) :
    (body (.write f buffer)).Assumes A s := by
  have hloop := assumes_writeLoop (A := A) hA h hf.isFile buffer.length hmax hcost
  refine (Prog.assumes_bind ..).mpr ⟨?_, fun _ _ _ => trivial⟩
  simp only [tfsWrite, mutexLock, wrlock, unlock, getOpenFileEntry_natCast hf.lt]
  refine .of_run trivial rfl (.of_run trivial rfl (.of_run trivial rfl (.of_run trivial rfl
    (.of_run (Prog.assumes_get ..) (Prog.run_get ..) ?_))))
  rw [hf.inumber, inodeGet_natCast hf.isFile.1]
  refine .of_run trivial rfl (.of_run trivial rfl (.of_run ?_ (Prog.run_atomic ..) ?_))
  · refine (Prog.assumes_atomic ..).mpr fun l hl => ?_
    cases hl
    exact hw
  · refine (Prog.assumes_bind ..).mpr ⟨hloop, fun ok s₁ _ => ?_⟩
    cases ok <;> simp [Prog.assumes_bind, fixSize]

theorem assumes_read (h : Settled owner s) (hf : OnFile s f i) (len : Nat) :
    (body (.read f len)).Assumes (regions s).allows s := by
  have hoff := h.offsets f hf.lt hf.taken
  have hshort := h.short i hf.isFile
  rw [hf.fileOf] at hoff
  simp only [body, tfsRead, mutexLock, rdlock, unlock, getOpenFileEntry_natCast hf.lt]
  refine .of_run trivial rfl (.of_run trivial rfl (.of_run trivial rfl (.of_run trivial rfl
    (.of_run (Prog.assumes_get ..) (Prog.run_get ..) ?_))))
  rw [hf.inumber, inodeGet_natCast hf.isFile.1]
  refine .of_run trivial rfl (.of_run trivial rfl (.of_run (Prog.assumes_get ..) (Prog.run_get ..) ?_))
  have hbound : maxFileSize < 2 ^ 62 := by decide
  rw [szSub_of_le hoff (by omega)]
  have hread : (if (s.inodeTable i).iSize - (s.openFileTable f).ofOffset > len then len
      else (s.inodeTable i).iSize - (s.openFileTable f).ofOffset) ≤ (s.inodeTable i).iSize - (s.openFileTable f).ofOffset := by
    split <;> omega
  generalize (if (s.inodeTable i).iSize - (s.openFileTable f).ofOffset > len then len
      else (s.inodeTable i).iSize - (s.openFileTable f).ofOffset) = n at hread ⊢
  have hloop : (readLoop i f n n []).Assumes (regions s).allows s :=
    assumes_readLoop (A := (regions s).allows) (fun _ => succeeds_of_freeCount) h.toConsistent hf.isFile n n [] (by omega)
      fun k hk => h.allocated i hf.isFile k (by omega)
  refine (Prog.assumes_bind ..).mpr ⟨hloop, fun r s₁ _ => ?_⟩
  cases r.1 <;> simp [Prog.assumes_bind]

theorem Settled.transfer (h : Settled owner s) (hs : Shows s fs) {c : Call}
    (hi : (regions s).Implements c (body c)) (ha : (body c).Assumes (regions s).allows s) :
    ∃ o s' fs' owner', s.call c = some (o, s') ∧ ByteFs.transfer limits fs c = some (o, fs') ∧ Settled owner' s' ∧
      Shows s' fs' ∧ Kept s s' := by
  obtain ⟨o, w, hr, hspec, hsound, hinv⟩ := hi.run (h.sound hs) (h.inv hs) ha
  obtain ⟨hset, hshow⟩ := Settled.of_sound h.toConsistent hsound hinv
  exact ⟨o, w.state, w.abs, w.ghost, hr, hspec, hset, hshow, hsound.kept⟩

theorem Settled.write (h : Settled owner s) (hs : Shows s fs) (hf : OnFile s f i) (buffer : List UInt8)
    (hmax : (s.openFileTable f).ofOffset + buffer.length ≤ maxFileSize)
    (hcost : s.writeCost i (s.openFileTable f).ofOffset buffer.length ≤ s.freeCount) :
    ∃ o s' fs' owner', s.call (.write f buffer) = some (o, s') ∧
      ByteFs.transfer limits fs (.write f buffer) = some (o, fs') ∧ Settled owner' s' ∧ Shows s' fs' ∧ Kept s s' :=
  h.transfer hs (write_implements hf buffer) (assumes_write (fun _ => succeeds_of_freeCount) hmax h.toConsistent hf hmax
    hcost)

theorem Settled.read (h : Settled owner s) (hs : Shows s fs) (hf : OnFile s f i) (len : Nat) :
    ∃ o s' fs' owner', s.call (.read f len) = some (o, s') ∧
      ByteFs.transfer limits fs (.read f len) = some (o, fs') ∧ Settled owner' s' ∧ Shows s' fs' ∧ Kept s s' :=
  h.transfer hs (read_implements hf len) (assumes_read h hf len)

theorem Settled.call (h : Settled owner s) {c : Call} (hc : Roomy s c) :
    ∃ o s' owner', s.call c = some (o, s') ∧ Settled owner' s' := by
  cases c with
  | «open» name flags =>
    obtain ⟨x, hr, ho⟩ := run_tfsOpen h.toConsistent (TruncatesNothing.noBytes hc.2.1)
    exact ⟨⟨x.1, []⟩, x.2, owner, by rw [call_open, hr]; rfl, h.opens ho⟩
  | close fhandle => exact ⟨_, _, owner, call_close fhandle, h.close fhandle⟩
  | write fhandle buffer =>
    obtain ⟨f, hf, rfl, ht⟩ := hc.1.1.exists
    obtain ⟨i, hon⟩ := h.onFile hf ht
    have hmax := hc.1.2
    have hcost := hc.2.2
    rw [EnoughFor, EnoughBlocks, Int.toNat_natCast, hon.fileOf] at hcost
    rw [Int.toNat_natCast] at hmax
    obtain ⟨o, s', -, owner', hr, -, h', -, -⟩ := h.write (shows_abs s) hon buffer hmax hcost
    exact ⟨o, s', owner', hr, h'⟩
  | read fhandle len =>
    obtain ⟨f, hf, rfl, ht⟩ := hc.1.exists
    obtain ⟨i, hon⟩ := h.onFile hf ht
    obtain ⟨o, s', -, owner', hr, -, h', -, -⟩ := h.read (shows_abs s) hon len
    exact ⟨o, s', owner', hr, h'⟩

theorem Settled.of_reaches (h : Runs.Reaches State.call Roomy State.init s) : ∃ owner, Settled owner s := by
  refine Runs.Reaches.invariant (I := fun s => ∃ owner, Settled owner s) ?_ ⟨_, .init⟩ h
  rintro s c o s' ⟨owner, hs⟩ hc hr
  obtain ⟨o', s₁, owner', hr', h'⟩ := hs.call hc
  cases hr.symm.trans hr'
  exact ⟨owner', h'⟩

end Tecnicofs.Ex1
