import Tecnicofs.Ex1.DirectoryMap
import Tecnicofs.Ex1.FreeBlocks
import Tecnicofs.Ex1.Opening

namespace Tecnicofs.Ex1

open Bytes

/-- How many blocks must be taken for the `n` blocks of a file from number `k` on. -/
def State.blocksNeeded (s : State) (i k n : Nat) : Nat :=
  ((List.range' k n).countP fun k => s.slot i (dataSlot k) = -1) +
    if n ≠ 0 ∧ indirectAccessBlock < k + n ∧ s.slot i (.entry indirectAccessBlock) = -1 then 1 else 0

def blocksTouched (offset len : Nat) : Nat :=
  if len = 0 then 0 else (offset % blockSize + len + (blockSize - 1)) / blockSize

def State.writeCost (s : State) (i offset len : Nat) : Nat :=
  s.blocksNeeded i (offset / blockSize) (blocksTouched offset len)

variable {owner : Owner} {s s' : State} {i file k n : Nat} {buffer : List UInt8}

theorem Located.blocksNeeded {b : Nat} (h : Located s i k b s') (hex : (dataSlot (k + n)).Exists) :
    s.blocksNeeded i k (n + 1) = s.blockCost i k + s'.blocksNeeded i (k + 1) n := by
  have hcount : (List.range' (k + 1) n).countP (fun k => s'.slot i (dataSlot k) = -1) =
      (List.range' (k + 1) n).countP fun k => s.slot i (dataSlot k) = -1 := by
    refine List.countP_congr fun x hx => ?_
    have hx := List.mem_range'_1.mp hx
    rw [h.others x (by omega)]
    refine dataSlot_exists_iff.mpr (lt_of_le_of_lt ?_ (dataSlot_exists_iff.mp hex))
    exact Nat.mul_le_mul_right _ (by omega)
  rw [State.blocksNeeded, State.blocksNeeded, State.blockCost, List.range'_succ, List.countP_cons, hcount]
  simp only [h.last, decide_eq_true_eq]
  generalize (List.range' (k + 1) n).countP _ = m
  by_cases hmiss : s.slot i (.entry indirectAccessBlock) = -1
  · simp only [hmiss, and_true]
    split_ifs <;> omega
  · simp only [hmiss, and_false, if_false]
    omega

theorem blocksTouched_step (offset : Nat) {len : Nat} (hlen : len ≠ 0) :
    blocksTouched offset len = blocksTouched (offset + room len offset) (len - room len offset) + 1 ∧
      (len - room len offset ≠ 0 → (offset + room len offset) / blockSize = offset / blockSize + 1) := by
  have hmod : offset % blockSize < blockSize := Nat.mod_lt _ (by decide)
  rw [blocksTouched, if_neg hlen]
  by_cases hfit : len ≤ blockSize - offset % blockSize
  · have hroom : room len offset = len := Nat.min_eq_left hfit
    rw [hroom, Nat.sub_self, blocksTouched, if_pos rfl]
    simp only [blockSize] at hfit hmod ⊢
    omega
  · have hroom : room len offset = blockSize - offset % blockSize := Nat.min_eq_right (Nat.le_of_not_le hfit)
    have hleft : len - (blockSize - offset % blockSize) ≠ 0 := by omega
    rw [hroom, blocksTouched, if_neg hleft]
    simp only [blockSize] at hfit hmod ⊢
    omega

theorem blocksNeeded_zero (s : State) (i k : Nat) : s.blocksNeeded i k 0 = 0 := by simp [State.blocksNeeded]

theorem writeCost_zero (s : State) (i offset : Nat) : s.writeCost i offset 0 = 0 := blocksNeeded_zero ..

theorem blockCost_le_writeCost {offset len : Nat} (hlen : len ≠ 0) :
    s.blockCost i (offset / blockSize) ≤ s.writeCost i offset len := by
  rw [State.writeCost, (blocksTouched_step offset hlen).1, State.blocksNeeded, State.blockCost, List.range'_succ,
    List.countP_cons]
  simp only [decide_eq_true_eq]
  generalize (List.range' (offset / blockSize + 1) _).countP _ = m
  generalize blocksTouched _ _ = n
  refine Nat.add_le_add (Nat.le_add_left ..) ?_
  split
  · next hc => rw [if_pos ⟨by omega, by omega, hc.2⟩]
  · exact Nat.zero_le _

structure Advanced (s : State) (i file n : Nat) (s' : State) : Prop where
  kept : Kept s s'
  consistent : ∃ owner, Consistent owner s'
  offset : (s'.openFileTable file).ofOffset = (s.openFileTable file).ofOffset + n
  located : ∃ b, Located s i ((s.openFileTable file).ofOffset / blockSize) b s'

/-- No iteration of the loop of `tfs_write` can begin: its block is missing and cannot be had. -/
def NoBlock (s : State) (i k : Nat) : Prop := s.freeCount < s.blockCost i k

theorem writeIteration_cases (h : Consistent owner s) (hi : s.IsFile i) (hne : buffer ≠ [])
    (hmax : (s.openFileTable file).ofOffset + buffer.length ≤ maxFileSize) :
    (∃ s', (writeIteration i file buffer).run s =
        some (some (buffer.drop (room buffer.length (s.openFileTable file).ofOffset)), s') ∧
      Advanced s i file (room buffer.length (s.openFileTable file).ofOffset) s') ∨
    NoBlock s i ((s.openFileTable file).ofOffset / blockSize) ∧
      (NullIndirect s i ((s.openFileTable file).ofOffset / blockSize) ∧ (writeIteration i file buffer).run s = none ∨
        ¬ NullIndirect s i ((s.openFileTable file).ofOffset / blockSize) ∧
          ∃ s', (writeIteration i file buffer).run s = some (none, s') ∧ Intact s s') := by
  have hpos := List.length_pos_iff.mpr hne
  obtain ⟨hcur, hchunk⟩ := chunk_getCurrentOffset buffer.length (s.openFileTable file).ofOffset (by omega)
  have hex : (dataSlot ((s.openFileTable file).ofOffset / blockSize)).Exists :=
    dataSlot_exists (lt_of_le_of_lt (Nat.div_mul_le_self ..) (by omega))
  rcases getCurrentDataBlock_cases h hi rfl hex with ⟨b, s₁, hr₁, hl₁⟩ | ⟨hcost, hnull⟩
  · have hf₁ := ensures_getCurrentDataBlock h hi _ _ hr₁
    obtain ⟨owner₁, h₁⟩ := hf₁.consistent
    have hi₁ := hf₁.kept.isFile.mpr hi
    have hfiles := hf₁.files
    obtain ⟨c, hc, ho⟩ := (h₁.files i hi₁).slot _ hex (by rw [hl₁.slot]; omega)
    obtain rfl : b = c := by
      rw [hl₁.slot] at hc
      omega
    have hroom := room_pos hpos (s.openFileTable file).ofOffset
    have hle : room buffer.length (s.openFileTable file).ofOffset ≤ buffer.length := Nat.min_le_left ..
    have hblock : (s.openFileTable file).ofOffset % blockSize + room buffer.length (s.openFileTable file).ofOffset ≤
        blockSize := by
      simp only [room, blockSize]
      omega
    generalize hoff : (s.openFileTable file).ofOffset = offset at *
    generalize room buffer.length offset = n at *
    have htake : (buffer.take n).length = n := List.length_take_of_le hle
    rw [← htake] at hblock
    have hblt := h₁.lt ho
    have hstore : s₁.toDisk.store (b * blockSize + offset % blockSize) (buffer.take n) = some { s₁.toDisk with
        fsData := s₁.fsData.store (b * blockSize + offset % blockSize) (buffer.take n) } := by
      rw [Disk.store, if_pos]
      simp only [blockSize, fsDataSize, dataBlocks] at hblock hblt ⊢
      omega
    have hlast := dataSlot_ne_last (offset / blockSize)
    have hslots : ∀ k : Slot, k.Exists →
        (wrote s₁ i file (b * blockSize + offset % blockSize) (buffer.take n)).slot i k = s₁.slot i k := fun k hk =>
      (h₁.files i hi₁).slot_wrote (fun b hb => h₁.lt hb) hex hlast hl₁.slot hblock hk
    have hlastb : (s₁.inodeTable i).iDataBlock indirectAccessBlock ≠ b := fun he =>
      hlast ((h₁.files i hi₁).inj _ (.entry indirectAccessBlock) hex (by decide) (by rw [hl₁.slot]; omega)
        (hl₁.slot.trans he.symm))
    refine .inl ⟨wrote s₁ i file (b * blockSize + offset % blockSize) (buffer.take n), ?_, ?_⟩
    · simp only [writeIteration, Prog.run_bind, hr₁, Option.bind_some, Prog.run_get, hfiles, hoff, hcur, hchunk,
        writeChunk, Prog.run_atomic, hstore, Option.map_some, Prog.run_pure]
      rw [wrote, hfiles, hoff]
      rfl
    · exact {
        kept := hf₁.kept.trans (.wrote (h₁.ne_zero hi₁) (blockSize_le (h₁.block_ne_zero hi₁ ho) _) _)
        consistent := ⟨owner₁, h₁.wrote hi₁ ho hlastb hblock⟩
        offset := by
          have hbound : maxFileSize < 2 ^ 62 := by decide
          rw [wrote_offset, hfiles, hoff, htake, szAdd_of_lt (by omega)]
        located := by
          rw [hoff]
          exact ⟨b, (hslots _ hex).trans hl₁.slot, fun k' hk' hex' => (hslots _ hex').trans (hl₁.others k' hk' hex'),
            by rw [hslots _ (by decide)]; exact hl₁.last, hl₁.count⟩ }
  · refine .inr ⟨hcost, hnull.imp (fun hn => ⟨hn.1, ?_⟩) fun hn => ⟨hn.1, ?_⟩⟩
    · simp only [writeIteration, Prog.run_bind, hn.2, Option.bind_none]
    · obtain ⟨s', hr, hintact⟩ := hn.2
      refine ⟨s', ?_, hintact⟩
      simp only [writeIteration, Prog.run_bind, hr, Option.bind_some, Prog.run_pure]

theorem Advanced.writeCost {offset len : Nat} (h : Advanced s i file (room len offset) s')
    (hoff : (s.openFileTable file).ofOffset = offset) (hlen : len ≠ 0) (hmax : offset + len ≤ maxFileSize) :
    s.writeCost i offset len = s.blockCost i (offset / blockSize) +
      s'.writeCost i (offset + room len offset) (len - room len offset) := by
  obtain ⟨b, hl⟩ := h.located
  rw [hoff] at hl
  obtain ⟨htouched, hnext⟩ := blocksTouched_step offset hlen
  rw [State.writeCost, htouched]
  by_cases hleft : len - room len offset = 0
  · have hex : (dataSlot (offset / blockSize + 0)).Exists :=
      dataSlot_exists (lt_of_le_of_lt (Nat.div_mul_le_self ..) (by omega))
    rw [hleft, writeCost_zero, show blocksTouched (offset + room len offset) 0 = 0 from rfl, hl.blocksNeeded hex,
      blocksNeeded_zero]
  · rw [State.writeCost, hnext hleft, hl.blocksNeeded]
    refine dataSlot_exists_iff.mpr ?_
    have htotal : blocksTouched offset len = (offset % blockSize + len + (blockSize - 1)) / blockSize := if_neg hlen
    simp only [blockSize] at htotal htouched ⊢
    omega

theorem writeLoop_nil (i file fuel : Nat) : writeLoop i file fuel [] = pure true := by
  cases fuel with
  | zero => rfl
  | succ fuel => rw [writeLoop, if_pos rfl]

theorem Advanced.left (h : Advanced s i file (room buffer.length (s.openFileTable file).ofOffset) s') :
    (s'.openFileTable file).ofOffset + (buffer.drop (room buffer.length (s.openFileTable file).ofOffset)).length =
      (s.openFileTable file).ofOffset + buffer.length := by
  have hle : room buffer.length (s.openFileTable file).ofOffset ≤ buffer.length := Nat.min_le_left ..
  rw [h.offset, List.length_drop]
  omega

theorem run_writeLoop_enough (h : Consistent owner s) (hi : s.IsFile i) {fuel : Nat} (hfuel : buffer.length ≤ fuel)
    (hmax : (s.openFileTable file).ofOffset + buffer.length ≤ maxFileSize)
    (hcost : s.writeCost i (s.openFileTable file).ofOffset buffer.length ≤ s.freeCount) :
    ∃ s', (writeLoop i file fuel buffer).run s = some (true, s') ∧ Kept s s' ∧ (∃ owner, Consistent owner s') ∧
      s'.freeCount + s.writeCost i (s.openFileTable file).ofOffset buffer.length = s.freeCount := by
  induction fuel generalizing s owner buffer with
  | zero =>
    obtain rfl := List.length_eq_zero_iff.mp (Nat.le_zero.mp hfuel)
    exact ⟨s, rfl, .refl s, ⟨_, h⟩, by rw [List.length_nil, writeCost_zero, Nat.add_zero]⟩
  | succ fuel ih =>
    by_cases hne : buffer = []
    · subst hne
      exact ⟨s, by rw [writeLoop_nil]; rfl, .refl s, ⟨_, h⟩, by rw [List.length_nil, writeCost_zero, Nat.add_zero]⟩
    have hlen : buffer.length ≠ 0 := fun hz => hne (List.length_eq_zero_iff.mp hz)
    rcases writeIteration_cases h hi hne hmax with ⟨s₁, hr₁, ha⟩ | ⟨hno, -⟩
    · obtain ⟨owner₁, h₁⟩ := ha.consistent
      have hsum := ha.writeCost rfl hlen hmax
      have hleft := ha.left
      obtain ⟨b, hl⟩ := ha.located
      have hcount := hl.count
      have hroom := room_pos (Nat.pos_of_ne_zero hlen) (s.openFileTable file).ofOffset
      rw [← ha.offset, ← List.length_drop] at hsum
      have hfuel₁ : (buffer.drop (room buffer.length (s.openFileTable file).ofOffset)).length ≤ fuel := by
        rw [List.length_drop]
        omega
      obtain ⟨s₂, hr₂, hk₂, hc₂, hcount₂⟩ := ih h₁ (ha.kept.isFile.mpr hi) hfuel₁ (by omega) (by omega)
      refine ⟨s₂, ?_, ha.kept.trans hk₂, hc₂, by omega⟩
      rw [writeLoop_succ _ _ _ hne, Prog.run_bind, hr₁]
      exact hr₂
    · exact absurd ((blockCost_le_writeCost hlen).trans hcost) (Nat.not_le.mpr hno)

theorem run_writeLoop_short (h : Consistent owner s) (hi : s.IsFile i) {fuel : Nat} (hfuel : buffer.length ≤ fuel)
    (hmax : (s.openFileTable file).ofOffset + buffer.length ≤ maxFileSize)
    (hcost : s.freeCount < s.writeCost i (s.openFileTable file).ofOffset buffer.length) :
    (writeLoop i file fuel buffer).run s = none ∨ ∃ s', (writeLoop i file fuel buffer).run s = some (false, s') ∧
      (s.openFileTable file).ofOffset ≤ (s'.openFileTable file).ofOffset := by
  induction fuel generalizing s owner buffer with
  | zero =>
    obtain rfl := List.length_eq_zero_iff.mp (Nat.le_zero.mp hfuel)
    rw [List.length_nil, writeCost_zero] at hcost
    exact absurd hcost (Nat.not_lt_zero _)
  | succ fuel ih =>
    by_cases hne : buffer = []
    · subst hne
      rw [List.length_nil, writeCost_zero] at hcost
      exact absurd hcost (Nat.not_lt_zero _)
    have hlen : buffer.length ≠ 0 := fun hz => hne (List.length_eq_zero_iff.mp hz)
    rw [writeLoop_succ _ _ _ hne, Prog.run_bind]
    rcases writeIteration_cases h hi hne hmax with ⟨s₁, hr₁, ha⟩ | ⟨-, ⟨-, hr⟩ | ⟨-, s₁, hr, hintact⟩⟩
    · obtain ⟨owner₁, h₁⟩ := ha.consistent
      have hsum := ha.writeCost rfl hlen hmax
      have hleft := ha.left
      obtain ⟨b, hl⟩ := ha.located
      have hcount := hl.count
      have hoff := ha.offset
      have hroom := room_pos (Nat.pos_of_ne_zero hlen) (s.openFileTable file).ofOffset
      rw [← ha.offset, ← List.length_drop] at hsum
      rw [hr₁, Option.bind_some]
      have hfuel₁ : (buffer.drop (room buffer.length (s.openFileTable file).ofOffset)).length ≤ fuel := by
        rw [List.length_drop]
        omega
      refine (ih h₁ (ha.kept.isFile.mpr hi) hfuel₁ (by omega) (by omega)).imp_right ?_
      exact Exists.imp fun s₂ h₂ => ⟨h₂.1, by omega⟩
    · exact .inl (by rw [hr]; rfl)
    · exact .inr ⟨s₁, by rw [hr]; rfl, by rw [hintact.files]⟩

theorem run_tfsWrite {f : Nat} (hf : OnFile s f i) (buffer : List UInt8) :
    (tfsWrite f buffer).run s = ((writeLoop i f buffer.length buffer).run s).bind fun x =>
      if x.1 = true then
        ((fixSize i (s.openFileTable f).ofOffset (s.inodeTable i).iSize buffer.length).run x.2).map fun y =>
          ((buffer.length : Int), y.2)
      else some (-1, x.2) := by
  simp only [tfsWrite, mutexLock, wrlock, unlock, Prog.run_bind, Prog.run_acquire, getOpenFileEntry_natCast hf.lt,
    Prog.run_release, Prog.run_get, Prog.run_atomic, hf.inumber, inodeGet_natCast hf.isFile.1, Option.bind_some]
  congr 1
  funext x
  cases x.1 <;> rfl

theorem call_write (fhandle : Int) (buffer : List UInt8) :
    s.call (.write fhandle buffer) = ((tfsWrite fhandle buffer).run s).map fun y => (⟨y.1, []⟩, y.2) := by
  simp only [State.call, body, Prog.run_bind, Prog.run_pure]
  cases (tfsWrite fhandle buffer).run s <;> rfl

def State.AllOrNothing (s : State) (fhandle : Int) (buffer : List UInt8) : Prop :=
  ∃ r s', s.call (.write fhandle buffer) = some (⟨r, []⟩, s') ∧ (r = buffer.length ∨ r = -1 ∧ Intact s s')

/-- The write returns the full length, or -1 and leaves everything as it was. -/
def AllOrNothing (x : LockedState) (fhandle : Int) (buffer : List UInt8) : Prop :=
  ∃ r x', x.call (.write fhandle buffer) = some (⟨r, []⟩, x') ∧
    (r = buffer.length ∨ r = -1 ∧ Intact x.toState x'.toState)

theorem allOrNothing_iff_granted (x : LockedState) (fhandle : Int) (buffer : List UInt8) :
    AllOrNothing x fhandle buffer ↔ x.toState.AllOrNothing fhandle buffer ∧ x.Grants (.write fhandle buffer) := by
  constructor
  · rintro ⟨r, x', hc, hr⟩
    exact ⟨⟨r, x'.toState, LockedState.call_view _ _ _ _ hc, hr⟩, LockedState.grants_of_call hc⟩
  · rintro ⟨⟨r, s', hc, hr⟩, hg⟩
    obtain ⟨x', hx, rfl⟩ := x.call_of_grants hg hc
    exact ⟨r, x', hx, hr⟩

def EnoughBlocks (s : State) (fhandle : Int) (buffer : List UInt8) : Prop :=
  s.writeCost (s.fileOf fhandle.toNat) (s.openFileTable fhandle.toNat).ofOffset buffer.length ≤ s.freeCount

/-- The block at the handle's offset cannot be had, and not for want of the indirect block alone. -/
def FailsAtOnce (s : State) (fhandle : Int) : Prop :=
  NoBlock s (s.fileOf fhandle.toNat) ((s.openFileTable fhandle.toNat).ofOffset / blockSize) ∧
    ¬ NullIndirect s (s.fileOf fhandle.toNat) ((s.openFileTable fhandle.toNat).ofOffset / blockSize)

theorem run_writeLoop_failsAtOnce (h : Consistent owner s) (hi : s.IsFile i) {fuel : Nat} (hne : buffer ≠ [])
    (hmax : (s.openFileTable file).ofOffset + buffer.length ≤ maxFileSize)
    (hno : NoBlock s i ((s.openFileTable file).ofOffset / blockSize)) :
    NullIndirect s i ((s.openFileTable file).ofOffset / blockSize) ∧ (writeLoop i file (fuel + 1) buffer).run s = none ∨
      ¬ NullIndirect s i ((s.openFileTable file).ofOffset / blockSize) ∧
        ∃ s', (writeLoop i file (fuel + 1) buffer).run s = some (false, s') ∧ Intact s s' := by
  rw [writeLoop_succ _ _ _ hne, Prog.run_bind]
  rcases writeIteration_cases h hi hne hmax with ⟨s₁, -, ha⟩ | ⟨-, ⟨hn, hr⟩ | ⟨hn, s₁, hr, hintact⟩⟩
  · obtain ⟨b, hl⟩ := ha.located
    have hcount := hl.count
    exact absurd hno (Nat.not_lt.mpr (by omega))
  · exact .inl ⟨hn, by rw [hr]; rfl⟩
  · exact .inr ⟨hn, s₁, by rw [hr]; rfl, hintact⟩

theorem run_writeLoop_late (h : Consistent owner s) (hi : s.IsFile i) (hne : buffer ≠ [])
    (hmax : (s.openFileTable file).ofOffset + buffer.length ≤ maxFileSize)
    (hyes : ¬ NoBlock s i ((s.openFileTable file).ofOffset / blockSize))
    (hcost : s.freeCount < s.writeCost i (s.openFileTable file).ofOffset buffer.length) :
    (writeLoop i file buffer.length buffer).run s = none ∨
      ∃ s', (writeLoop i file buffer.length buffer).run s = some (false, s') ∧
        (s.openFileTable file).ofOffset < (s'.openFileTable file).ofOffset := by
  have hlen : buffer.length ≠ 0 := fun hz => hne (List.length_eq_zero_iff.mp hz)
  obtain ⟨fuel, hfuel⟩ := Nat.exists_eq_succ_of_ne_zero hlen
  have hrun := writeLoop_succ i file fuel hne
  rw [Nat.succ_eq_add_one] at hfuel
  rw [hfuel, hrun, Prog.run_bind]
  rcases writeIteration_cases h hi hne hmax with ⟨s₁, hr₁, ha⟩ | ⟨hno, -⟩
  · obtain ⟨owner₁, h₁⟩ := ha.consistent
    have hsum := ha.writeCost rfl hlen hmax
    have hleft := ha.left
    obtain ⟨b, hl⟩ := ha.located
    have hcount := hl.count
    have hoff := ha.offset
    have hroom := room_pos (Nat.pos_of_ne_zero hlen) (s.openFileTable file).ofOffset
    rw [← ha.offset, ← List.length_drop] at hsum
    have hfuel₁ : (buffer.drop (room buffer.length (s.openFileTable file).ofOffset)).length ≤ fuel := by
      rw [List.length_drop]
      omega
    rw [hr₁, Option.bind_some]
    refine (run_writeLoop_short h₁ (ha.kept.isFile.mpr hi) hfuel₁ (by omega) (by omega)).imp_right ?_
    exact Exists.imp fun s₂ h₂ => ⟨h₂.1, by omega⟩
  · exact absurd hno hyes

theorem call_write_enough {f : Nat} (h : Consistent owner s) (hon : OnFile s f i)
    (hmax : (s.openFileTable f).ofOffset + buffer.length ≤ maxFileSize)
    (hcost : s.writeCost i (s.openFileTable f).ofOffset buffer.length ≤ s.freeCount) :
    ∃ s', s.call (.write f buffer) = some (⟨buffer.length, []⟩, s') ∧ Kept s s' ∧
      s'.freeCount + s.writeCost i (s.openFileTable f).ofOffset buffer.length = s.freeCount := by
  obtain ⟨s₁, hr, hk, ⟨owner₁, h₁⟩, hcount⟩ := run_writeLoop_enough h hon.isFile le_rfl hmax hcost
  have hfix : ∀ o size n, ∃ s₂, (fixSize i o size n).run s₁ = some ((), s₂) ∧ Kept s₁ s₂ ∧ s₂.toDisk = s₁.toDisk := by
    intro o size n
    refine ⟨_, Prog.run_modify .., ?_⟩
    split
    · exact ⟨.setInode hon.ne_zero rfl, rfl⟩
    · exact ⟨.refl s₁, rfl⟩
  obtain ⟨s₂, hr₂, hk₂, hd₂⟩ := hfix (s.openFileTable f).ofOffset (s.inodeTable i).iSize buffer.length
  refine ⟨s₂, ?_, hk.trans hk₂, by rw [hd₂]; exact hcount⟩
  rw [call_write, run_tfsWrite hon, hr, Option.bind_some, if_pos rfl, hr₂]
  rfl

theorem allOrNothing_iff (h : Consistent owner s) {fhandle : Int} (hw : WithinFile s (.write fhandle buffer)) :
    s.AllOrNothing fhandle buffer ↔ EnoughBlocks s fhandle buffer ∨ FailsAtOnce s fhandle := by
  obtain ⟨f, hf, rfl, ht⟩ := hw.1.exists
  obtain ⟨i, hon⟩ := h.onFile hf ht
  have hmax := hw.2
  rw [Int.toNat_natCast] at hmax
  simp only [State.AllOrNothing, EnoughBlocks, FailsAtOnce, Int.toNat_natCast, hon.fileOf, call_write, run_tfsWrite hon]
  by_cases hcost : s.writeCost i (s.openFileTable f).ofOffset buffer.length ≤ s.freeCount
  · obtain ⟨s₁, hr, -⟩ := call_write_enough h hon hmax hcost
    rw [call_write, run_tfsWrite hon] at hr
    exact iff_of_true ⟨buffer.length, s₁, hr, .inl rfl⟩ (.inl hcost)
  have hshort := Nat.lt_of_not_le hcost
  have hne : buffer ≠ [] := by
    rintro rfl
    exact hcost (by rw [List.length_nil, writeCost_zero]; exact Nat.zero_le _)
  have hlen := List.length_pos_iff.mpr hne
  rw [or_iff_right hcost]
  by_cases hno : NoBlock s i ((s.openFileTable f).ofOffset / blockSize)
  · have hfuel : buffer.length = buffer.length - 1 + 1 := by omega
    generalize buffer.length - 1 = fuel at hfuel
    rw [hfuel]
    rcases @run_writeLoop_failsAtOnce _ _ _ f _ h hon.isFile fuel hne hmax hno with ⟨hnull, hr⟩ | ⟨hnull, s₁, hr, hintact⟩
    · refine iff_of_false ?_ fun hc => hc.2 hnull
      rintro ⟨r, s', hcall, -⟩
      rw [hr] at hcall
      cases hcall
    · exact iff_of_true ⟨-1, s₁, by rw [hr]; rfl, .inr ⟨rfl, hintact⟩⟩ ⟨hno, hnull⟩
  · refine iff_of_false ?_ fun hc => hno hc.1
    -- bytes have been written, or the call has no outcome
    rintro ⟨r, s', hcall, hr⟩
    rcases run_writeLoop_late h hon.isFile hne hmax hno hshort with hnone | ⟨s₁, hr₁, hoff⟩
    · rw [hnone] at hcall
      cases hcall
    · rw [hr₁, Option.bind_some, if_neg (by simp)] at hcall
      cases hcall
      rcases hr with hr | ⟨-, hintact⟩
      · omega
      · rw [hintact.files] at hoff
        exact absurd hoff (Nat.lt_irrefl _)

theorem Consistent.of_reaches (h : Runs.Reaches State.call WithinFileNoIndirectTrunc State.init s) :
    ∃ owner, Consistent owner s :=
  Runs.Reaches.invariant (I := fun s => ∃ owner, Consistent owner s)
    (fun _ _ _ _ ⟨_, h⟩ hc hr => h.call hc.1 hc.2 hr) ⟨_, .init⟩ h

/-- A write is all or nothing exactly when the file's lock is granted and there are enough free blocks for all of it, or
not even for its first byte. -/
theorem write_allOrNothing_iff {x : LockedState}
    (h : Runs.Reaches LockedState.call (fun x c => WithinFileNoIndirectTrunc x.toState c) .init x) {fhandle : Int}
    (hw : WithinFile x.toState (.write fhandle buffer)) :
    AllOrNothing x fhandle buffer ↔
      (EnoughBlocks x.toState fhandle buffer ∨ FailsAtOnce x.toState fhandle) ∧ x.Grants (.write fhandle buffer) := by
  obtain ⟨owner, hc⟩ := Consistent.of_reaches (LockedState.reaches_init h)
  rw [allOrNothing_iff_granted, allOrNothing_iff hc hw]

instance (s : State) (fhandle : Int) (buffer : List UInt8) : Decidable (EnoughBlocks s fhandle buffer) :=
  inferInstanceAs (Decidable (_ ≤ _))

/-- Eleven blocks and the indirect block. -/
theorem write_allOrNothing_eleven :
    let name := some ⟨[47, 97], by decide⟩
    ∃ outs x, Runs.run LockedState.call .init [.open name tfsOCreat, .write 0 [1]] = some (outs, x) ∧
      AllOrNothing x 0 (List.replicate (10 * blockSize) 1) := by
  intro name
  have hrun : (Runs.run LockedState.call .init [.open name tfsOCreat, .write 0 [1]]).map (fun x =>
      decide (WithinFile x.2.toState (.write 0 (List.replicate (10 * blockSize) 1)) ∧
        EnoughBlocks x.2.toState 0 (List.replicate (10 * blockSize) 1) ∧
        x.2.Grants (.write 0 (List.replicate (10 * blockSize) 1)))) = some true := by decide +kernel
  obtain ⟨x, hx, he⟩ := Option.map_eq_some_iff.mp hrun
  obtain ⟨hw, hb, hg⟩ := of_decide_eq_true he
  have hcareful : Runs.Along LockedState.call (fun x c => WithinFileNoIndirectTrunc x.toState c) .init
      [.open name tfsOCreat, .write 0 [1]] := by decide +kernel
  exact ⟨x.1, x.2, hx, (write_allOrNothing_iff ⟨_, _, hcareful, hx⟩ hw).mpr ⟨.inl hb, hg⟩⟩

def EnoughFor (s : State) : Call → Prop
  | .write fhandle buffer => EnoughBlocks s fhandle buffer
  | .open _ _ | .close _ | .read _ _ => True

instance (s : State) : ∀ c, Decidable (EnoughFor s c)
  | .write _ _ => inferInstanceAs (Decidable (_ ≤ _))
  | .open _ _ | .close _ | .read _ _ => inferInstanceAs (Decidable True)

/-- Handles are open, nothing is truncated, every write fits in its file and finds the blocks it needs. -/
def Roomy (s : State) (c : Call) : Prop := WithinFile s c ∧ TruncatesNothing s c ∧ EnoughFor s c

instance (s : State) (c : Call) : Decidable (Roomy s c) := inferInstanceAs (Decidable (_ ∧ _ ∧ _))

theorem Roomy.withinFileNoIndirectTrunc {s : State} {c : Call} (h : Roomy s c) : WithinFileNoIndirectTrunc s c :=
  ⟨h.1, (TruncatesNothing.noBytes h.2.1).noIndirectTrunc⟩

structure Stocked (names : List (List UInt8)) (n : Nat) (s : State) : Prop where
  reached : Runs.Reaches State.call Roomy State.init s
  listed : ∃ es, Listed es s ∧ es.map (·.name) = names
  handles : ∀ f < maxOpenFiles, s.freeOpenFileEntries f = .taken ↔ f < names.length
  count : s.freeCount = n

structure Untouched (s : State) (f i : Nat) : Prop extends OnFile s f i where
  offset : (s.openFileTable f).ofOffset = 0
  slot : ∀ k : Slot, k.Exists → s.slot i k = -1

theorem writeCost_untouched (h : ∀ k : Slot, k.Exists → s.slot i k = -1) {len : Nat} (hmax : len ≤ maxFileSize) :
    s.writeCost i 0 len =
      blocksTouched 0 len + if indirectAccessBlock < blocksTouched 0 len then 1 else 0 := by
  have hle : blocksTouched 0 len * blockSize < maxFileSize + blockSize := by
    unfold blocksTouched
    split
    · rw [Nat.zero_mul]
      exact Nat.add_pos_right _ (by decide)
    · generalize maxFileSize = m at *
      simp only [blockSize]
      omega
  generalize hn : blocksTouched 0 len = n at hle
  have hcount : (List.range' 0 n).countP (fun k => s.slot i (dataSlot k) = -1) = n := by
    rw [List.countP_eq_length.mpr, List.length_range']
    intro k hk
    have hk := (List.mem_range'_1.mp hk).2
    refine decide_eq_true (h _ (dataSlot_exists ?_))
    have hnext : (k + 1) * blockSize ≤ n * blockSize := Nat.mul_le_mul_right _ (by omega)
    rw [Nat.succ_mul] at hnext
    exact Nat.lt_of_add_lt_add_right (lt_of_le_of_lt hnext hle)
  have hlast := h (.entry indirectAccessBlock) (by decide)
  rw [State.writeCost, hn, State.blocksNeeded, Nat.zero_div, hcount, Nat.zero_add]
  simp only [hlast, and_true]
  congr 1
  exact if_congr ⟨fun hc => hc.2, fun hc => ⟨Nat.ne_of_gt (Nat.zero_lt_of_lt hc), hc⟩⟩ rfl rfl

namespace Stocked

variable {names : List (List UInt8)} {f : Nat}

theorem init : Stocked [] 1023 State.init where
  reached := .refl _
  listed := ⟨[], Listed.init, rfl⟩
  handles f hf := by
    rw [State.init_eq]
    simp [State.zero]
  count := by
    rw [State.init_eq]
    decide +kernel

theorem «open» (h : Stocked names n s) (name : CString) (hv : validPathname (some name) = true) (hfits : Fits name)
    (hnew : name.tail.bytes ∉ names) (hlt : names.length < maxOpenFiles) :
    ∃ s', Stocked (names ++ [name.tail.bytes]) n s' ∧ Untouched s' names.length (names.length + 1) := by
  obtain ⟨es, l, hes⟩ := h.listed
  have hlen : es.length = names.length := by rw [← hes, List.length_map]
  have hlookup : lookupEntry es name.tail = -1 := by
    rcases lookupEntry_cases es name.tail with ⟨k, hk, hn, -⟩ | ⟨-, he⟩
    · refine absurd ?_ hnew
      rw [← hes, ← hn]
      exact List.mem_map_of_mem (List.getElem_mem hk)
    · exact he
  have hroom : es.length < maxDirEntries := by
    simp only [maxOpenFiles, maxDirEntries, blockSize, dirEntrySize, maxFileName] at hlt ⊢
    omega
  obtain ⟨m, hm, hl⟩ := l.create hroom name.tail
  have hfree : firstFree s.freeOpenFileEntries maxOpenFiles = some names.length := by
    refine firstFree_eq_some.mpr ⟨hlt, ?_, fun g hg => (h.handles g (by omega)).mpr hg⟩
    have ht := h.handles _ hlt
    cases hc : s.freeOpenFileEntries names.length with
    | free => rfl
    | taken => exact absurd (ht.mp hc) (Nat.lt_irrefl _)
  have hcall : s.call (.open (some name) tfsOCreat) = some (⟨names.length, []⟩,
      ((newFile s (es.length + 1)).setDisk { s.toDisk with fsData := m }).setFiles
        ((s.toOpenFiles.take names.length).setEntry names.length ⟨(es.length + 1 : Nat), 0⟩)) := by
    have hfind : findDirEntry s.fsData 0 name.tail = -1 := by rw [l.dir.find, hlookup]
    have hadd : Tecnicofs.addToOpenFileTable s.toOpenFiles (es.length + 1 : Nat) 0 = ((names.length : Int),
        (s.toOpenFiles.take names.length).setEntry names.length ⟨(es.length + 1 : Nat), 0⟩) := by
      unfold Tecnicofs.addToOpenFileTable
      rw [hfree]
    rw [call_open, run_tfsOpen_new l.dirBlock hv hfind (by decide) l.firstFree_inode (by omega) hm,
      run_addToOpenFileTable]
    exact congrArg (fun x : Int × OpenFiles => some ((⟨x.1, []⟩ : Out),
      ((newFile s (es.length + 1)).setDisk { s.toDisk with fsData := m }).setFiles x.2)) hadd
  have hname : (l.newEntry name.tail).name = name.tail.bytes := by
    simp only [Fits, CString.strlen, maxFileName] at hfits
    exact List.take_of_length_le (by simp only [maxFileName]; omega)
  have hin : es.length + 1 < inodeTableSize := l.length_lt
  refine ⟨_, ⟨h.reached.call (c := .open (some name) tfsOCreat) ⟨trivial, fun ht => absurd ht (by decide), trivial⟩
    hcall, ⟨_, hl.congr rfl rfl rfl, ?_⟩,
    fun g hg => ?_, h.count⟩, ⟨hlt, ?_, ?_, ?_, Nat.succ_ne_zero _⟩, ?_, fun k hk => ?_⟩
  · rw [List.map_append, hes, List.map_singleton, hname]
  · rw [State.setFiles_toOpenFiles, OpenFiles.setEntry_free, OpenFiles.take_free, List.length_append,
      List.length_singleton]
    split
    · next he => exact iff_of_true rfl (by omega)
    · next he => rw [h.handles g hg]; omega
  · rw [State.setFiles_toOpenFiles, OpenFiles.setEntry_free, OpenFiles.take_free, if_pos rfl]
  · rw [State.setFiles_toOpenFiles, OpenFiles.setEntry_table, if_pos rfl, hlen]
  · rw [← hlen]
    exact Consistent.isFile_newFile hin
  · rw [State.setFiles_toOpenFiles, OpenFiles.setEntry_table, if_pos rfl]
  · have hslot : ∀ k : Slot, k.Exists → (newFile s (names.length + 1)).slot (names.length + 1) k = -1 := fun k hk =>
      Consistent.slot_newFile hk
    rw [hlen]
    cases k with
    | entry k => exact hslot (.entry k) hk
    | indirect j =>
      refine slot_indirect_of_none ?_ j
      exact hslot (.entry indirectAccessBlock) (by decide)

theorem write (h : Stocked names n s) (hf : Untouched s f i) (buffer : List UInt8) (hmax : buffer.length ≤ maxFileSize)
    (hcost : s.writeCost i 0 buffer.length ≤ n) : ∃ s', Stocked names (n - s.writeCost i 0 buffer.length) s' := by
  obtain ⟨owner, hc⟩ := Consistent.of_reaches (h.reached.mono fun _ _ => Roomy.withinFileNoIndirectTrunc)
  obtain ⟨es, l, hes⟩ := h.listed
  rw [← h.count, ← hf.offset] at hcost
  obtain ⟨s', hcall, hk, hcount⟩ := call_write_enough hc hf.toOnFile (by rw [hf.offset]; omega) hcost
  rw [hf.offset, h.count] at hcount
  have hopen : s.toOpenFiles.IsOpen (f : Int) := OpenFiles.isOpen_natCast.mpr ⟨hf.lt, hf.taken⟩
  refine ⟨s', h.reached.call (c := .write f buffer) ⟨⟨hopen, ?_⟩, trivial, ?_⟩ hcall,
    ⟨es, ⟨?_, l.inumber, ?_, ?_, ?_⟩, hes⟩, ?_, by omega⟩
  · rw [Int.toNat_natCast, hf.offset]
    omega
  · rw [EnoughFor, EnoughBlocks, Int.toNat_natCast, hf.fileOf]
    exact hcost
  · exact l.dir.congr fun x _ hx => hk.directory x (by rwa [Nat.zero_add] at hx)
  · rw [hk.root, l.rootType]
  · rw [hk.root, l.rootBlock]
  · intro j hj
    rw [hk.freeinodeTs, l.taken j hj]
  · intro g hg
    rw [hk.handles, h.handles g hg]

theorem fill (h : Stocked names n s) (name : CString) (len cost : Nat) (hv : validPathname (some name) = true)
    (hfits : Fits name) (hnew : name.tail.bytes ∉ names) (hlt : names.length < maxOpenFiles) (hmax : len ≤ maxFileSize)
    (hcost : blocksTouched 0 len + (if indirectAccessBlock < blocksTouched 0 len then 1 else 0) = cost)
    (hn : cost ≤ n) : ∃ s', Stocked (names ++ [name.tail.bytes]) (n - cost) s' := by
  obtain ⟨s₁, h₁, hf⟩ := h.open name hv hfits hnew hlt
  have hlen : (List.replicate len (0 : UInt8)).length = len := List.length_replicate
  rw [← writeCost_untouched hf.slot hmax] at hcost
  obtain ⟨s₂, h₂⟩ := h₁.write hf (List.replicate len 0) (by rw [hlen]; exact hmax) (by rw [hlen, hcost]; exact hn)
  rw [hlen, hcost] at h₂
  exact ⟨s₂, h₂⟩

end Stocked

/-- One block is free: a write of two blocks stores the first and then fails. -/
theorem write_partly_done : ¬ ∀ (cs : List Call) (outs : List Out) (x : LockedState) (fhandle : Int)
    (buffer : List UInt8), Runs.run LockedState.call .init cs = some (outs, x) →
    WithinFile x.toState (.write fhandle buffer) → AllOrNothing x fhandle buffer := by
  intro h
  let name (x : UInt8) (hx : 0 ∉ [47, x]) : CString := ⟨[47, x], hx⟩
  have hmax : 220 * blockSize ≤ maxFileSize := by decide
  obtain ⟨s₁, h₁⟩ := Stocked.init.fill (name 97 (by decide)) maxFileSize 267 (by decide) (by decide) (by decide)
    (by decide) le_rfl (by decide) (by decide)
  obtain ⟨s₂, h₂⟩ := h₁.fill (name 98 (by decide)) maxFileSize 267 (by decide) (by decide) (by decide)
    (by decide) le_rfl (by decide) (by decide)
  obtain ⟨s₃, h₃⟩ := h₂.fill (name 99 (by decide)) maxFileSize 267 (by decide) (by decide) (by decide)
    (by decide) le_rfl (by decide) (by decide)
  obtain ⟨s₄, h₄⟩ := h₃.fill (name 100 (by decide)) (220 * blockSize) 221 (by decide) (by decide) (by decide)
    (by decide) hmax (by decide) (by decide)
  obtain ⟨s₅, h₅, hf⟩ := h₄.open (name 101 (by decide)) (by decide) (by decide) (by decide) (by decide)
  replace hf : Untouched s₅ 4 5 := hf
  have hoff : (s₅.openFileTable (4 : Int).toNat).ofOffset = 0 := hf.offset
  have hlen : (List.replicate (blockSize + 1) (0 : UInt8)).length = blockSize + 1 := List.length_replicate
  have hw : WithinFile s₅ (.write 4 (List.replicate (blockSize + 1) 0)) := by
    refine ⟨OpenFiles.isOpen_natCast.mpr ⟨hf.lt, hf.taken⟩, ?_⟩
    rw [hoff, hlen]
    decide
  obtain ⟨owner, hc⟩ := Consistent.of_reaches (h₅.reached.mono fun _ _ => Roomy.withinFileNoIndirectTrunc)
  obtain ⟨x, ⟨cs, outs, -, hr⟩, rfl, -⟩ := LockedState.exists_reaches (fun _ _ hroomy => hroomy.2.1) h₅.reached
  have hcount := h₅.count
  have hfile : x.toState.fileOf (4 : Int).toNat = 5 := hf.fileOf
  have hall := (allOrNothing_iff_granted ..).mp (h cs outs x 4 _ hr hw)
  rcases (allOrNothing_iff hc hw).mp hall.1 with henough | hfails
  · rw [EnoughBlocks, hfile, hoff, hlen, writeCost_untouched hf.slot (by decide), hcount] at henough
    exact absurd henough (by decide)
  · have hno := hfails.1
    rw [NoBlock, hfile, hoff, blockCost_direct (by decide), hcount, hf.slot _ (by decide)] at hno
    exact absurd hno (by decide)

end Tecnicofs.Ex1
