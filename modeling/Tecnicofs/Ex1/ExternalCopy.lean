import Tecnicofs.Ex1.LockOrder
import Tecnicofs.Ex1.ReadOnly
import Tecnicofs.Ex1.Truncation

namespace Tecnicofs.Ex1

open Bytes

def State.request (s : State) (r : Request) : Option (Out × State) := r.body.run s

/-- The reads of the copy: what each delivers, and whether they come to a short one. -/
def readChunks (fhandle : Int) : Nat → Program (Bool × List (List UInt8))
  | 0 => undefined
  | fuel + 1 => do
    let r ← tfsRead fhandle bufferSize
    if r.ret = -1 then return (false, [])
    else if r.ret = bufferSize then
      let rest ← readChunks fhandle fuel
      return (rest.1, r.data :: rest.2)
    else return (true, [r.data])

def Dest.accepted (dest : Dest) : Nat → List (List UInt8) → List UInt8
  | _, [] => []
  | i, chunk :: chunks => chunk.take (dest.accepts i) ++ dest.accepted (i + 1) chunks

def Dest.AcceptsAll (dest : Dest) (chunks : List (List UInt8)) : Prop :=
  ∀ k (hk : k < chunks.length), chunks[k].length ≤ dest.accepts k

instance (dest : Dest) (chunks : List (List UInt8)) : Decidable (dest.AcceptsAll chunks) :=
  inferInstanceAs (Decidable (∀ k (_ : k < _), _ ≤ _))

variable {s s' : State} {i f file : Nat} {path : Option CString} {dest : Dest} {fuel : Nat} {out : Out}

theorem Dest.length_accepted_le (dest : Dest) (i : Nat) (chunks : List (List UInt8)) :
    (dest.accepted i chunks).length ≤ chunks.flatten.length := by
  induction chunks generalizing i with
  | nil => exact le_rfl
  | cons chunk chunks ih =>
    rw [Dest.accepted, List.flatten_cons, List.length_append, List.length_append, List.length_take]
    exact Nat.add_le_add (Nat.min_le_right ..) (ih (i + 1))

theorem Dest.accepted_eq_flatten_iff (dest : Dest) (i : Nat) (chunks : List (List UInt8)) :
    dest.accepted i chunks = chunks.flatten ↔
      ∀ k (hk : k < chunks.length), chunks[k].length ≤ dest.accepts (i + k) := by
  induction chunks generalizing i with
  | nil => exact iff_of_true rfl fun k hk => absurd hk (Nat.not_lt_zero k)
  | cons chunk chunks ih =>
    rw [Dest.accepted, List.flatten_cons]
    constructor
    · intro he
      have hrest := dest.length_accepted_le (i + 1) chunks
      have hlen := congrArg List.length he
      rw [List.length_append, List.length_append, List.length_take] at hlen
      have hchunk : chunk.length ≤ dest.accepts i := by omega
      rw [List.take_of_length_le hchunk] at he
      rintro (_ | k) hk
      · exact hchunk
      · have hk' := (ih (i + 1)).mp (List.append_cancel_left he) k (Nat.lt_of_succ_lt_succ hk)
        rwa [Nat.add_right_comm] at hk'
    · intro h
      have hrest : dest.accepted (i + 1) chunks = chunks.flatten := (ih (i + 1)).mpr fun k hk => by
        have hk' := h (k + 1) (Nat.succ_lt_succ hk)
        rwa [← Nat.add_assoc, Nat.add_right_comm] at hk'
      have hchunk : chunk.length ≤ dest.accepts i := h 0 (Nat.succ_pos _)
      rw [hrest, List.take_of_length_le hchunk]

theorem run_copyLoop (fhandle : Int) (dest : Dest) (fuel i : Nat) (written : List UInt8) (s : State) :
    (copyLoop fhandle dest fuel i written).run s =
      ((readChunks fhandle fuel).run s).map fun x => ((x.1.1, written ++ dest.accepted i x.1.2), x.2) := by
  induction fuel generalizing i written s with
  | zero => rfl
  | succ fuel ih =>
    rw [copyLoop, readChunks, Prog.run_bind, Prog.run_bind]
    cases (tfsRead fhandle bufferSize).run s with
    | none => rfl
    | some x =>
      rw [Option.bind_some, Option.bind_some]
      by_cases hfail : x.1.ret = -1
      · rw [if_pos hfail, if_pos hfail, Prog.run_pure, Prog.run_pure, Option.map_some, Dest.accepted, List.append_nil]
      · rw [if_neg hfail, if_neg hfail]
        by_cases hfull : x.1.ret = bufferSize
        · rw [if_pos hfull, if_pos hfull, ih, Prog.run_bind]
          cases (readChunks fhandle fuel).run x.2 with
          | none => rfl
          | some y =>
            rw [Option.bind_some, Prog.run_pure, Option.map_some, Option.map_some, Dest.accepted, List.append_assoc]
        · rw [if_neg hfull, if_neg hfull, Prog.run_pure, Prog.run_pure, Option.map_some, Dest.accepted, Dest.accepted,
            List.append_nil]

theorem keeps_readChunks {I : State → Prop} (h : Steady I) (fhandle : Int) (fuel : Nat) :
    (readChunks fhandle fuel).Keeps I fun _ => True := by
  induction fuel with
  | zero => exact keeps_undefined
  | succ fuel ih =>
    refine (keeps_tfsRead h fhandle bufferSize).bind fun r _ => ?_
    split
    · exact Prog.keeps_pure trivial
    · split
      · exact ih.bind fun _ _ => Prog.keeps_pure trivial
      · exact Prog.keeps_pure trivial

def HandleAt (file i o size : Nat) (s : State) : Prop :=
  inodeGet (s.openFileTable file).ofInumber = some i ∧ (s.openFileTable file).ofOffset = o ∧ (s.inodeTable i).iSize = size

variable {o size toRead : Nat}

theorem HandleAt.setDisk (h : HandleAt file i o size s) (d : Disk) : HandleAt file i o size (s.setDisk d) :=
  ⟨h.1, h.2.1, h.2.2⟩

theorem HandleAt.blockSteady (file i o size : Nat) : BlockSteady (HandleAt file i o size) where
  alloc _ h := h.setDisk _
  entry s j k b h := by
    refine ⟨h.1, h.2.1, ?_⟩
    rw [State.setInode_inodeTable]
    split
    · next he => exact he ▸ h.2.2
    · exact h.2.2
  store _ _ _ d h _ := h.setDisk d

theorem HandleAt.advance (h : HandleAt file i o size s) (n : Nat) :
    HandleAt file i (o + n) size (s.setFiles (s.toOpenFiles.setOffset file (o + n))) := by
  refine ⟨?_, ?_, h.2.2⟩
  · rw [State.setFiles_toOpenFiles, OpenFiles.setOffset_ofInumber]
    exact h.1
  · rw [State.setFiles_toOpenFiles, OpenFiles.setOffset_table, if_pos rfl]

theorem ensures_readIteration_at (h : HandleAt file i o size s) (hlt : o + toRead < 2 ^ 64) (hsmall : toRead ≤ bufferSize)
    (hpos : toRead ≠ 0) :
    (readIteration i file toRead).Ensures s fun r s' => ∀ left bytes, r = some (left, bytes) →
      left < toRead ∧ bytes.length = toRead - left ∧ HandleAt file i (o + (toRead - left)) size s' := by
  have hmod : o % blockSize < blockSize := Nat.mod_lt _ (by decide)
  have hblock := keeps_getCurrentDataBlock (HandleAt.blockSteady file i o size) i file s h
  refine Prog.ensures_get (Prog.Ensures.bind (hblock.mono
    fun r s₁ hs₁ => ?_))
  have hoff : o < 2 ^ 64 := by omega
  rw [h.2.1, getCurrentOffset_eq hoff]
  cases r with
  | none =>
    refine Prog.ensures_pure ?_
    rintro left bytes ⟨⟩
  | some block =>
    have hchunk : chunk toRead (o % blockSize) = room toRead o := chunk_eq (by
      simp only [blockSize, bufferSize] at hmod hsmall ⊢
      omega) hmod
    have hle : room toRead o ≤ toRead := Nat.min_le_left ..
    have hroom := room_pos (Nat.pos_of_ne_zero hpos) o
    rw [hchunk]
    refine Prog.ensures_atomic fun bytes s₂ hr => Prog.ensures_pure ?_
    obtain ⟨bs, hload, he⟩ := Option.map_eq_some_iff.mp hr
    obtain ⟨rfl, rfl⟩ := Prod.mk.inj he
    rintro left bytes ⟨⟩
    rw [hs₁.2.2.1, szAdd_of_lt (by omega)]
    refine ⟨by omega, ?_, ?_⟩
    · rw [(disk_load_eq_some hload).2, Mem.length_load]
      omega
    · rw [Nat.sub_sub_self hle]
      exact hs₁.2.advance _

theorem ensures_readLoop_at (h : HandleAt file i o size s) (hlt : o + toRead < 2 ^ 64) (hsmall : toRead ≤ bufferSize)
    (hfuel : toRead ≤ fuel) (bytesRead : List UInt8) :
    (readLoop i file fuel toRead bytesRead).Ensures s fun r s' => r.1 = true →
      r.2.length = bytesRead.length + toRead ∧ HandleAt file i (o + toRead) size s' := by
  induction fuel generalizing s o toRead bytesRead with
  | zero =>
    obtain rfl : toRead = 0 := by omega
    exact Prog.ensures_pure fun _ => ⟨rfl, h⟩
  | succ fuel ih =>
    by_cases hpos : toRead = 0
    · subst hpos
      rw [readLoop, if_pos rfl]
      exact Prog.ensures_pure fun _ => ⟨rfl, h⟩
    rw [readLoop_succ _ _ _ hpos]
    refine Prog.Ensures.bind ((ensures_readIteration_at h hlt hsmall hpos).mono fun r s₁ hr => ?_)
    cases r with
    | none => exact Prog.ensures_pure fun hf => by cases hf
    | some x =>
      obtain ⟨hleft, hlen, hat⟩ := hr x.1 x.2 rfl
      refine (ih hat (by omega) (by omega) (by omega) _).mono fun r' s' hr' hok => ?_
      obtain ⟨hlen', hat'⟩ := hr' hok
      rw [List.length_append] at hlen'
      refine ⟨by omega, ?_⟩
      rwa [Nat.add_assoc, Nat.sub_add_cancel hleft.le] at hat'

theorem ensures_tfsRead_at (h : HandleAt file i o size s) (hf : file < maxOpenFiles) (ho : o ≤ size) (hsize : size < 2 ^ 64) :
    (tfsRead file bufferSize).Ensures s fun r s' => r.ret ≠ -1 → r.ret = (min bufferSize (size - o) : Nat) ∧
      r.data.length = min bufferSize (size - o) ∧ HandleAt file i (o + min bufferSize (size - o)) size s' := by
  intro r s' hr hok
  have hn : s.toRead i file bufferSize = min bufferSize (size - o) := by
    rw [State.toRead, h.2.1, h.2.2, szSub_of_le ho hsize]
    split <;> omega
  rw [run_tfsRead hf h.1, hn] at hr
  have hle : min bufferSize (size - o) ≤ bufferSize := Nat.min_le_left ..
  have hlt : o + min bufferSize (size - o) < 2 ^ 64 := by omega
  generalize min bufferSize (size - o) = n at hr hle hlt ⊢
  obtain ⟨⟨⟨ok, data⟩, s₁⟩, hloop, he⟩ := Option.map_eq_some_iff.mp hr
  obtain ⟨rfl, rfl⟩ := Prod.mk.inj he
  cases ok with
  | false => exact absurd rfl hok
  | true =>
    obtain ⟨hlen, hat⟩ := ensures_readLoop_at h hlt hle le_rfl [] _ _ hloop rfl
    exact ⟨rfl, hlen.trans (Nat.zero_add _), hat⟩

theorem ensures_readChunks_at (h : HandleAt file i o size s) (hf : file < maxOpenFiles) (ho : o ≤ size)
    (hsize : size < 2 ^ 64) (fuel : Nat) :
    (readChunks file fuel).Ensures s fun r _ => r.1 = true → r.2.flatten.length = size - o := by
  induction fuel generalizing s o with
  | zero => exact fun r s' hr => by cases hr
  | succ fuel ih =>
    refine Prog.Ensures.bind ((ensures_tfsRead_at h hf ho hsize).mono fun r s₁ hr => ?_)
    split
    · exact Prog.ensures_pure fun hf => by cases hf
    · next hok =>
      obtain ⟨hret, hlen, hat⟩ := hr hok
      split
      · next hfull =>
        have hn : min bufferSize (size - o) = bufferSize := Int.ofNat.inj (hret.symm.trans hfull)
        rw [hn] at hlen hat
        refine Prog.Ensures.bind ((ih hat (by omega)).mono fun rest s₂ hrest => Prog.ensures_pure fun hall => ?_)
        rw [List.flatten_cons, List.length_append, hlen, hrest hall]
        omega
      · next hshort =>
        have hn : min bufferSize (size - o) ≠ bufferSize := fun he => hshort (hret.trans (congrArg _ he))
        refine Prog.ensures_pure fun _ => ?_
        rw [List.flatten_cons, List.flatten_nil, List.append_nil, hlen]
        omega

def State.source (s : State) (path : Option CString) : Option Nat :=
  if lookup s path ≥ 0 then inodeGet (lookup s path) else none

theorem inodeGet_eq_some {x : Int} {i : Nat} (h : inodeGet x = some i) : x = i ∧ i < inodeTableSize := by
  unfold inodeGet at h
  split at h
  · next hv =>
    cases h
    exact ⟨(Int.toNat_of_nonneg hv.1).symm, (Int.toNat_lt hv.1).mpr hv.2⟩
  · cases h

theorem State.source_lt (h : s.source path = some i) : i < inodeTableSize := by
  unfold State.source at h
  split at h
  · exact (inodeGet_eq_some h).2
  · cases h

theorem run_tfsOpen_of_none (h : s.source path = none) : (tfsOpen path 0).run s = some (-1, s) := by
  cases path with
  | none => rfl
  | some name =>
    by_cases hv : validPathname (some name) = true
    · have hlook := run_tfsLookup_eq s hv
      have hcreat : ¬ hasFlag 0 tfsOCreat = true := by decide
      unfold State.source at h
      by_cases hge : lookup s (some name) ≥ 0
      · rw [if_pos hge] at h
        simp only [tfsOpen, if_pos hv, mutexLock, unlock, Prog.run_bind, Prog.run_acquire, Option.bind_some, hlook,
          if_pos hge, h, Prog.run_release, Prog.run_pure]
      · simp only [tfsOpen, if_pos hv, mutexLock, unlock, Prog.run_bind, Prog.run_acquire, Option.bind_some, hlook,
          if_neg hge, if_neg hcreat, Prog.run_release, Prog.run_pure]
    · rw [tfsOpen, if_neg hv, Prog.run_pure]

theorem run_tfsOpen_of_some (h : s.source path = some i) : (tfsOpen path 0).run s = some (opened s i 0) := by
  unfold State.source at h
  split at h
  · next hge =>
    have hin := (inodeGet_eq_some h).1
    have hv : validPathname path = true := by
      by_contra hv
      rw [lookup_of_not_valid hv] at hge
      omega
    cases path with
    | none => cases hv
    | some name =>
      have htrunc : ¬ hasFlag 0 tfsOTrunc = true := by decide
      have happend : ¬ hasFlag 0 tfsOAppend = true := by decide
      have hlook := run_tfsLookup_eq s hv
      simp only [tfsOpen, if_pos hv, mutexLock, wrlock, unlock, Prog.run_bind, Prog.run_acquire, Option.bind_some, hlook,
        if_pos hge, h, Prog.run_release, openExisting, truncateIf, if_neg htrunc, Prog.run_pure, if_true, Prog.run_get,
        if_neg happend, run_addToOpenFileTable]
      rw [hin]
  · cases h

theorem opened_of_firstFree (hf : firstFree s.freeOpenFileEntries maxOpenFiles = some f) (i o : Nat) :
    opened s i o = ((f : Int), s.setFiles ((s.toOpenFiles.take f).setEntry f ⟨i, o⟩)) := by
  rw [opened, Tecnicofs.addToOpenFileTable, hf]

theorem opened_of_none (hf : firstFree s.freeOpenFileEntries maxOpenFiles = none) (i o : Nat) : opened s i o = (-1, s) := by
  rw [opened, Tecnicofs.addToOpenFileTable, hf]
  rfl

theorem handleAt_opened (hi : i < inodeTableSize) (hf : firstFree s.freeOpenFileEntries maxOpenFiles = some f) :
    HandleAt f i 0 (s.inodeTable i).iSize (opened s i 0).2 := by
  rw [opened_of_firstFree hf]
  simp only [HandleAt, State.setFiles_toOpenFiles, OpenFiles.setEntry_table, if_true, inodeGet_natCast hi, true_and]
  rfl

theorem run_copy_refused (h : (tfsOpen path 0).run s = some (-1, s)) (dest : Dest) (fuel : Nat) :
    (tfsCopyToExternalFs path dest fuel).run s = some (⟨-1, []⟩, s) := by
  simp only [tfsCopyToExternalFs, mutexLock, unlock, Prog.run_bind, Prog.run_acquire, Option.bind_some, h, if_true,
    Prog.run_release, Prog.run_pure]

theorem run_copy_of_not (h : ¬ ∃ i f, s.source path = some i ∧ firstFree s.freeOpenFileEntries maxOpenFiles = some f)
    (dest : Dest) (fuel : Nat) : (tfsCopyToExternalFs path dest fuel).run s = some (⟨-1, []⟩, s) := by
  refine run_copy_refused ?_ dest fuel
  cases hi : s.source path with
  | none => exact run_tfsOpen_of_none hi
  | some i =>
    rw [run_tfsOpen_of_some hi]
    cases hf : firstFree s.freeOpenFileEntries maxOpenFiles with
    | none => rw [opened_of_none hf]
    | some f => exact absurd ⟨i, f, hi, hf⟩ h

theorem run_copy_opened (h : s.source path = some i)
    (hf : firstFree s.freeOpenFileEntries maxOpenFiles = some f) (dest : Dest) (fuel : Nat) :
    (tfsCopyToExternalFs path dest fuel).run s =
      if dest.opens then ((readChunks f fuel).run (opened s i 0).2).map fun x =>
        if x.1.1 then (⟨0, dest.accepted 0 x.1.2⟩,
          x.2.setFiles (Tecnicofs.removeFromOpenFileTable x.2.toOpenFiles f).2)
        else (⟨-1, dest.accepted 0 x.1.2⟩, x.2)
      else some (⟨-1, []⟩, (opened s i 0).2) := by
  have hi := State.source_lt h
  have hne : ¬ (f : Int) = -1 := by omega
  have hopen : (tfsOpen path 0).run s = some ((f : Int), (opened s i 0).2) := by
    rw [run_tfsOpen_of_some h, opened_of_firstFree hf]
  have hin : inodeGet ((opened s i 0).2.openFileTable f).ofInumber = some i := (handleAt_opened hi hf).1
  simp only [tfsCopyToExternalFs, mutexLock, rdlock, unlock, Prog.run_bind, Prog.run_acquire, Option.bind_some, hopen,
    if_neg hne, getOpenFileEntry_natCast (firstFree_eq_some.mp hf).1, Prog.run_release, Prog.run_get, hin]
  cases dest.opens with
  | false => rfl
  | true =>
    simp only [if_true, Prog.run_bind, run_copyLoop]
    cases (readChunks f fuel).run (opened s i 0).2 with
    | none => rfl
    | some x =>
      obtain ⟨⟨ok, cs⟩, s₁⟩ := x
      cases ok with
      | false => rfl
      | true =>
        simp only [Option.map_some, Option.bind_some, if_true, Prog.run_bind, run_tfsClose, Prog.run_release, Prog.run_pure,
          List.nil_append]

theorem stays_tfsCopyToExternalFs (path : Option CString) (dest : Dest) (fuel : Nat) :
    Program.Stays (tfsCopyToExternalFs path dest fuel) fun _ => True := by
  have hloop : ∀ fhandle, Program.Stays (copyLoop fhandle dest fuel 0 []) fun _ => True := fun fhandle s hs r s' hr => by
    rw [run_copyLoop] at hr
    obtain ⟨x, hx, he⟩ := Option.map_eq_some_iff.mp hr
    cases he
    exact ⟨trivial, (keeps_readChunks Ranged.steady fhandle fuel s hs _ _ hx).2⟩
  refine Prog.keeps_acquire ((stays_tfsOpen path 0).bind fun fhandle _ => ?_)
  split
  · exact Prog.keeps_release (Prog.keeps_pure trivial)
  · split
    · exact keeps_undefined
    · refine Prog.keeps_acquire (Prog.keeps_release (Prog.keeps_acquire (Prog.keeps_get fun s _ => ?_)))
      split
      · exact Prog.keeps_release (Prog.keeps_pure trivial)
      · refine Prog.keeps_acquire (Prog.keeps_release ?_)
        split
        · refine (hloop fhandle).bind fun r _ => ?_
          split
          · exact (stays_tfsClose fhandle).bind fun _ _ =>
              Prog.keeps_release (Prog.keeps_release (Prog.keeps_pure trivial))
          · exact Prog.keeps_release (Prog.keeps_release (Prog.keeps_pure trivial))
        · exact Prog.keeps_release (Prog.keeps_release (Prog.keeps_pure trivial))

theorem Ranged.of_requests (h : Runs.Reaches State.request (fun _ _ => True) State.init s) : Ranged s := by
  refine h.invariant (fun s r o s' hs _ hr => ?_) .init
  cases r with
  | call c => exact (stays_body c s hs o s' hr).2
  | copy path dest fuel => exact (stays_tfsCopyToExternalFs path dest fuel s hs o s' hr).2

/-- The handles are those from before, and 0 means that the destination has all bytes that the reads deliver, as many
as the file is long. -/
structure CopiesCleanly (s : State) (path : Option CString) (fuel : Nat) (out : Out) (s' : State) : Prop where
  handles : s'.freeOpenFileEntries = s.freeOpenFileEntries
  complete : out.ret = 0 → ∃ i f chunks s₁, s.source path = some i ∧
    firstFree s.freeOpenFileEntries maxOpenFiles = some f ∧
    (readChunks f fuel).run (opened s i 0).2 = some ((true, chunks), s₁) ∧
    out.data = chunks.flatten ∧ out.data.length = (s.inodeTable i).iSize

/-- If the file is opened, so is the destination, no read fails, and every `fwrite` accepts all that it is given. -/
def NothingFails (s : State) (path : Option CString) (dest : Dest) (fuel : Nat) : Prop :=
  ∀ i f, s.source path = some i → firstFree s.freeOpenFileEntries maxOpenFiles = some f → dest.opens = true ∧
    ∀ ok chunks s₁, (readChunks f fuel).run (opened s i 0).2 = some ((ok, chunks), s₁) →
      ok = true ∧ dest.AcceptsAll chunks

theorem NothingFails.of_refused (h : ¬ ∃ i f, s.source path = some i ∧ firstFree s.freeOpenFileEntries maxOpenFiles = some f) :
    NothingFails s path dest fuel := fun i f hi hf => absurd ⟨i, f, hi, hf⟩ h

theorem freeOpenFileEntries_opened (hf : firstFree s.freeOpenFileEntries maxOpenFiles = some f) (i : Nat) :
    (opened s i 0).2.freeOpenFileEntries = Function.update s.freeOpenFileEntries f .taken := by
  rw [opened_of_firstFree hf]
  rfl

theorem steady_handles (t : Nat → AllocationState) : Steady fun s => s.freeOpenFileEntries = t where
  alloc _ h := h
  entry _ _ _ _ h := h
  store _ _ _ _ h _ := h
  offset _ _ _ h _ := h

theorem removeFromOpenFileTable_of_opened (hf : firstFree s.freeOpenFileEntries maxOpenFiles = some f) {t : OpenFiles}
    (ht : t.freeOpenFileEntries = Function.update s.freeOpenFileEntries f .taken) :
    Tecnicofs.removeFromOpenFileTable t f = (0, { t with freeOpenFileEntries := s.freeOpenFileEntries }) := by
  have hopen : t.IsOpen (f : Nat) := OpenFiles.isOpen_natCast.mpr ⟨(firstFree_eq_some.mp hf).1, by
    rw [ht, Function.update_self]⟩
  rw [removeFromOpenFileTable_of_isOpen hopen, OpenFiles.release, ht, Int.toNat_natCast, Function.update_idem,
    ← (firstFree_eq_some.mp hf).2.1, Function.update_eq_self]

theorem not_copiesCleanly (hf : firstFree s.freeOpenFileEntries maxOpenFiles = some f)
    (h : s'.freeOpenFileEntries = Function.update s.freeOpenFileEntries f .taken) : ¬ CopiesCleanly s path fuel out s' :=
  fun hc => by
    have htaken := congrFun (hc.handles.symm.trans h) f
    rw [Function.update_self, (firstFree_eq_some.mp hf).2.1] at htaken
    cases htaken

theorem copiesCleanly_iff_of_opened (hsize : (s.inodeTable i).iSize < 2 ^ 64)
    (h : s.source path = some i) (hf : firstFree s.freeOpenFileEntries maxOpenFiles = some f)
    (hr : (tfsCopyToExternalFs path dest fuel).run s = some (out, s')) :
    CopiesCleanly s path fuel out s' ↔ NothingFails s path dest fuel := by
  have hnothing : NothingFails s path dest fuel ↔ dest.opens = true ∧
      ∀ ok chunks s₁, (readChunks f fuel).run (opened s i 0).2 = some ((ok, chunks), s₁) →
        ok = true ∧ dest.AcceptsAll chunks := by
    refine ⟨fun hn => hn i f h hf, fun hn j g hj hg => ?_⟩
    cases h.symm.trans hj
    cases hf.symm.trans hg
    exact hn
  have hi := State.source_lt h
  have htaken := freeOpenFileEntries_opened hf i
  rw [hnothing, run_copy_opened h hf] at *
  cases hopens : dest.opens with
  | false =>
    rw [hopens, if_neg (by decide)] at hr
    cases hr
    exact iff_of_false (not_copiesCleanly hf htaken) fun hn => by cases hn.1
  | true =>
    rw [hopens, if_pos rfl] at hr
    obtain ⟨⟨⟨ok, chunks⟩, s₁⟩, hreads, he⟩ := Option.map_eq_some_iff.mp hr
    have hkept : s₁.freeOpenFileEntries = Function.update s.freeOpenFileEntries f .taken :=
      (keeps_readChunks (steady_handles _) f fuel _ htaken _ _ hreads).2
    cases ok with
    | false =>
      cases he
      exact iff_of_false (not_copiesCleanly hf hkept) fun hn => by cases (hn.2 _ _ _ hreads).1
    | true =>
      cases he
      have hall : chunks.flatten.length = (s.inodeTable i).iSize := ensures_readChunks_at (handleAt_opened hi hf)
        (firstFree_eq_some.mp hf).1 (Nat.zero_le _) hsize fuel _ _ hreads rfl
      have haccepts := dest.accepted_eq_flatten_iff 0 chunks
      simp only [Nat.zero_add] at haccepts
      constructor
      · intro hc
        obtain ⟨j, g, cs, s₂, hj, hg, hreads', hdata, -⟩ := hc.complete rfl
        cases h.symm.trans hj
        cases hf.symm.trans hg
        cases hreads.symm.trans hreads'
        refine ⟨rfl, fun ok chunks' s₃ hr' => ?_⟩
        cases hreads.symm.trans hr'
        exact ⟨rfl, haccepts.mp hdata⟩
      · rintro ⟨-, hn⟩
        have hdata : dest.accepted 0 chunks = chunks.flatten := haccepts.mpr (hn _ _ _ hreads).2
        refine ⟨?_, fun _ => ⟨i, f, chunks, s₁, h, hf, hreads, hdata, ?_⟩⟩
        · rw [removeFromOpenFileTable_of_opened hf hkept]
          rfl
        · exact (congrArg List.length hdata).trans hall

/-- After any requests, a copy that comes to an end leaves nothing behind and reports what goes wrong exactly when
nothing does. -/
theorem copiesCleanly_iff (h : Runs.Reaches State.request (fun _ _ => True) State.init s)
    (hr : s.request (.copy path dest fuel) = some (out, s')) :
    CopiesCleanly s path fuel out s' ↔ NothingFails s path dest fuel := by
  have hrange := Ranged.of_requests h
  by_cases hopen : ∃ i f, s.source path = some i ∧ firstFree s.freeOpenFileEntries maxOpenFiles = some f
  · obtain ⟨i, f, hi, hf⟩ := hopen
    exact copiesCleanly_iff_of_opened (hrange.size i) hi hf hr
  · rw [State.request, Request.body, run_copy_of_not hopen] at hr
    cases hr
    exact iff_of_true ⟨rfl, fun h0 => by cases h0⟩ (.of_refused hopen)

/-- A file that is read in two pieces. -/
theorem copiesCleanly_two : ∃ s out s', Runs.Reaches State.request (fun _ _ => True) State.init s ∧
    s.request (.copy (some ⟨[47, 97], by decide⟩) ⟨true, fun _ => 128⟩ 2) = some (out, s') ∧ out.ret = 0 ∧
    CopiesCleanly s (some ⟨[47, 97], by decide⟩) 2 out s' := by
  have hrun : (Runs.run State.request State.init [.call (.open (some ⟨[47, 97], by decide⟩) tfsOCreat),
      .call (.write 0 (List.replicate 130 1))]).bind (fun x =>
        ((readChunks 1 2).run (opened x.2 1 0).2).bind fun y =>
          (x.2.request (.copy (some ⟨[47, 97], by decide⟩) ⟨true, fun _ => 128⟩ 2)).map fun z =>
            decide (x.2.source (some ⟨[47, 97], by decide⟩) = some 1 ∧
              firstFree x.2.freeOpenFileEntries maxOpenFiles = some 1 ∧
              y.1 = (true, [List.replicate 128 1, List.replicate 2 1]) ∧ z.1.ret = 0)) = some true := by decide +kernel
  obtain ⟨x, hx, hy⟩ := Option.bind_eq_some_iff.mp hrun
  obtain ⟨y, hy, hz⟩ := Option.bind_eq_some_iff.mp hy
  obtain ⟨z, hz, he⟩ := Option.map_eq_some_iff.mp hz
  obtain ⟨hi, hf, hchunks, hret⟩ := of_decide_eq_true he
  have hreach : Runs.Reaches State.request (fun _ _ => True) State.init x.2 := ⟨_, _, by decide +kernel, hx⟩
  refine ⟨x.2, z.1, z.2, hreach, hz, hret, (copiesCleanly_iff hreach hz).mpr fun i f hi' hf' => ⟨rfl, ?_⟩⟩
  cases hi.symm.trans hi'
  cases hf.symm.trans hf'
  rintro ok chunks s₁ hr
  obtain rfl := Option.some.inj (hy.symm.trans hr)
  obtain ⟨rfl, rfl⟩ := Prod.mk.inj hchunks
  exact ⟨rfl, by decide +kernel⟩

/-- A destination that cannot be opened costs a handle. -/
theorem copy_keeps_handle : ¬ ∀ (s : State) (path : Option CString) (dest : Dest) (fuel : Nat) (out : Out) (s' : State),
    Runs.Reaches State.request (fun _ _ => True) State.init s → s.request (.copy path dest fuel) = some (out, s') →
      CopiesCleanly s path fuel out s' := by
  intro h
  have hrun : (Runs.run State.request State.init [.call (.open (some ⟨[47, 97], by decide⟩) tfsOCreat)]).bind (fun x =>
      (x.2.request (.copy (some ⟨[47, 97], by decide⟩) ⟨false, fun _ => 128⟩ 1)).map fun z =>
        decide (x.2.freeOpenFileEntries 1 = .free ∧ z.2.freeOpenFileEntries 1 = .taken)) = some true := by decide +kernel
  obtain ⟨x, hx, hz⟩ := Option.bind_eq_some_iff.mp hrun
  obtain ⟨z, hz, he⟩ := Option.map_eq_some_iff.mp hz
  obtain ⟨hfree, htaken⟩ := of_decide_eq_true he
  have hhandles := congrFun (h x.2 _ _ _ z.1 z.2 ⟨_, _, by decide +kernel, hx⟩ hz).handles 1
  rw [hfree, htaken] at hhandles
  cases hhandles

end Tecnicofs.Ex1
