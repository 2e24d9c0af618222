import Tecnicofs.Ex1.Growth
import Tecnicofs.Ex1.Truncation

namespace Tecnicofs.Ex1

open Bytes

/-- `deleteBlocks`, with what the loop over the indirect block does after the last entry as a parameter. -/
def deleteBlocksWith (atEnd : Nat → Program Unit) (inode : Nat) : Program Bool := do
  let x ← Prog.get fun s => s.inodeTable inode
  match x.iNodeType with
  | .directory =>
    if x.iDataBlock 0 = -1 then
      if (← dataBlockFree (-1)) = -1 then return false
      else
        setDataBlock inode 0 (-1)
        return true
    else return true
  | .file => if x.iSize > 0 then freeBlocks inode atEnd else return true

def inodeDeleteWith (atEnd : Nat → Program Unit) (inumber : Int) : Program Int := do
  mutexLock .inodeTable
  let found ← Prog.atomic none fun s =>
    match inodeGet inumber with
    | none => some (none, s)
    | some i => some (if s.freeinodeTs i = .free then (none, s) else (some i, s.setInodeState i .free))
  match found with
  | none =>
    unlock .inodeTable
    return -1
  | some inode =>
    let ok ← deleteBlocksWith atEnd inode
    unlock .inodeTable
    return if ok then 0 else -1

def readBeyond (bonusBlock : Nat) : Program Unit := do
  let _ ← loadReference bonusBlock indirectReferences

theorem inodeDelete_eq (inumber : Int) : inodeDelete inumber = inodeDeleteWith readBeyond inumber := rfl

variable {owner : Owner} {s s' : State} {i : Nat}

theorem run_freeIndirect {a m n : Nat} (ha : a + blockSize ≤ fsDataSize) (hn : n ≤ indirectReferences)
    (hm : m ≤ indirectReferences) (hle : indirectReferences - n ≤ m) (s : State)
    (hall : ∀ j < m, indirectReferences - n ≤ j → ∃ b < dataBlocks, s.fsData.loadInt (a + 4 * j) = (b : Nat))
    (hend : m < indirectReferences → s.fsData.loadInt (a + 4 * m) = -1) :
    ∃ s', s'.inodeTable = s.inodeTable ∧ s'.freeinodeTs = s.freeinodeTs ∧
      (∀ b, s'.freeBlocks b =
        if ∃ j < m, indirectReferences - n ≤ j ∧ s.fsData.loadInt (a + 4 * j) = (b : Nat) then .free
        else s.freeBlocks b) ∧
      ∀ atEnd, (freeIndirect a atEnd n).run s =
        if m < indirectReferences then some (true, s') else (atEnd.run s').map fun x => (true, x.2) := by
  induction n generalizing s with
  | zero =>
    obtain rfl : m = indirectReferences := by omega
    refine ⟨s, rfl, rfl, fun b => (if_neg ?_).symm, fun atEnd => ?_⟩
    · rintro ⟨j, hj, hge, -⟩
      omega
    · rw [if_neg (lt_irrefl _), freeIndirect, Prog.run_bind]
      cases atEnd.run s <;> rfl
  | succ n ih =>
    have hin : a + 4 * (indirectReferences - (n + 1)) + 4 ≤ fsDataSize := by
      simp only [indirectReferences, blockSize] at hn ha ⊢
      omega
    have hload : s.toDisk.load (a + 4 * (indirectReferences - (n + 1))) 4 =
        some (s.fsData.load (a + 4 * (indirectReferences - (n + 1))) 4) := if_pos hin
    have hvalue : decodeInt (s.fsData.load (a + 4 * (indirectReferences - (n + 1))) 4) =
        s.fsData.loadInt (a + 4 * (indirectReferences - (n + 1))) := rfl
    by_cases hat : m = indirectReferences - (n + 1)
    · have hno := hend (by omega)
      rw [hat] at hno
      refine ⟨s, rfl, rfl, fun b => (if_neg ?_).symm, fun atEnd => ?_⟩
      · rintro ⟨j, hj, hge, -⟩
        omega
      · simp only [freeIndirect, loadReference, Prog.run_bind, Prog.run_atomic, hload, Option.map_some, Option.bind_some,
          hvalue, hno, if_true, Prog.run_pure]
        rw [if_pos (by omega)]
    · obtain ⟨b, hlt, hb⟩ := hall _ (by omega) le_rfl
      have hne : ¬ (b : Int) = -1 := by omega
      have hstore : (s.toDisk.release b).store (a + 4 * (indirectReferences - (n + 1))) (encodeInt (-1)) =
          some { s.toDisk.release b with
            fsData := s.fsData.store (a + 4 * (indirectReferences - (n + 1))) (encodeInt (-1)) } :=
        if_pos (by rwa [length_encodeInt])
      obtain ⟨s₁, hs₁⟩ : ∃ s₁, s₁ = s.setDisk { s.toDisk.release b with
        fsData := s.fsData.store (a + 4 * (indirectReferences - (n + 1))) (encodeInt (-1)) } := ⟨_, rfl⟩
      have hlater : ∀ j, indirectReferences - n ≤ j → s₁.fsData.loadInt (a + 4 * j) = s.fsData.loadInt (a + 4 * j) :=
        fun j hj => by
          rw [hs₁]
          exact Mem.loadInt_storeInt_disjoint s.fsData (-1) (by omega)
      have hfree : ∀ c, s₁.freeBlocks c = if c = b then .free else s.freeBlocks c := fun c => by
        rw [hs₁]
        exact Disk.release_freeBlocks ..
      obtain ⟨s', hinodes, hstates, hblocks, hrun⟩ := ih (by omega) (by omega) s₁
        (fun j hj hge => by
          rw [hlater j hge]
          exact hall j hj (by omega))
        (fun hlt => by
          rw [hlater m (by omega)]
          exact hend hlt)
      refine ⟨s', hinodes.trans (by rw [hs₁]; rfl), hstates.trans (by rw [hs₁]; rfl), fun c => ?_, fun atEnd => ?_⟩
      · rw [hblocks c, hfree c]
        by_cases hex : ∃ j < m, indirectReferences - n ≤ j ∧ s₁.fsData.loadInt (a + 4 * j) = (c : Nat)
        · obtain ⟨j, hj, hge, hc⟩ := hex
          rw [if_pos ⟨j, hj, hge, hc⟩, if_pos ⟨j, hj, by omega, by rw [← hlater j hge, hc]⟩]
        · rw [if_neg hex]
          by_cases hcb : c = b
          · rw [if_pos hcb, if_pos ⟨_, by omega, le_rfl, by rw [hb, hcb]⟩]
          · rw [if_neg hcb, if_neg]
            rintro ⟨j, hj, hge, hc⟩
            by_cases hj' : j = indirectReferences - (n + 1)
            · rw [hj', hb] at hc
              omega
            · exact hex ⟨j, hj, by omega, by rw [hlater j (by omega), hc]⟩
      · rw [← hrun atEnd, hs₁]
        simp only [freeIndirect, loadReference, storeReference, Prog.run_bind, Prog.run_atomic, hload, Option.map_some,
          Option.bind_some, hvalue, hb, if_neg hne, run_dataBlockFree, dataBlockFree_of_lt _ hlt,
          if_neg (show ¬ (0 : Int) = -1 by decide), State.setDisk_toDisk, hstore]
        rfl

theorem names_iff (s : State) (i b : Nat) : s.Names i b ↔
    (∃ k < indirectAccessBlock, (s.inodeTable i).iDataBlock k = (b : Nat)) ∨
      (s.inodeTable i).iDataBlock indirectAccessBlock = (b : Nat) ∨
        ∃ j < indirectReferences, s.slot i (.indirect j) = (b : Nat) := by
  constructor
  · rintro ⟨k, hk, hb⟩
    cases k with
    | entry k =>
      by_cases hlast : k = indirectAccessBlock
      · exact .inr (.inl (hlast ▸ hb))
      · have hk : k < blocks := hk
        exact .inl ⟨k, by simp only [blocks, indirectAccessBlock] at hk hlast ⊢; omega, hb⟩
    | indirect j => exact .inr (.inr ⟨j, hk, hb⟩)
  · rintro (⟨k, hk, hb⟩ | hb | ⟨j, hj, hb⟩)
    · exact ⟨.entry k, Nat.lt_succ_of_lt hk, hb⟩
    · exact ⟨.entry indirectAccessBlock, by decide, hb⟩
    · exact ⟨.indirect j, hj, hb⟩

theorem Filled.entry {n k : Nat} (h : Filled s i n) (hk : k < indirectAccessBlock) :
    (s.inodeTable i).iDataBlock k = -1 ↔ n ≤ k := by
  have hslot := h.slot k
  rw [dataSlot, if_pos hk] at hslot
  exact hslot (Nat.lt_succ_of_lt hk)

theorem Filled.indirect {n j : Nat} (h : Filled s i n) (hj : j < indirectReferences) :
    s.slot i (.indirect j) = -1 ↔ n ≤ indirectAccessBlock + j := by
  have hslot := h.slot (indirectAccessBlock + j)
  rw [dataSlot, if_neg (by omega), Nat.add_sub_cancel_left] at hslot
  exact hslot hj

theorem run_freeDirect {n : Nat} (hf : Filled s i n)
    (hv : ∀ k : Slot, k.Exists → s.slot i k ≠ -1 → ∃ b < dataBlocks, s.slot i k = (b : Nat)) :
    (freeDirect i indirectAccessBlock).run s = some (true, s.freeEntries i 0 (min n indirectAccessBlock)) := by
  rcases freeDirect_cases i le_rfl s with ⟨m, hm, -, hall, hend, hr⟩ | ⟨m, hm, s', -, hne, hbad, -, -⟩
  · rw [Nat.sub_self] at hr hall
    have hmn : m = min n indirectAccessBlock := by
      have hle : m ≤ n := by
        by_contra hgt
        obtain ⟨b, -, hb⟩ := hall n (by omega) (Nat.zero_le _)
        rw [(hf.entry (by omega)).mpr le_rfl] at hb
        omega
      by_cases hlt : m < indirectAccessBlock
      · have := (hf.entry hlt).mp (hend hlt)
        omega
      · omega
    rw [hr, hmn]
  · obtain ⟨b, hlt, hb⟩ := hv (.entry m) (Nat.lt_succ_of_lt hm) hne
    have hb : (s.inodeTable i).iDataBlock m = (b : Nat) := hb
    exact absurd (hb ▸ ⟨by omega, by exact_mod_cast hlt⟩) hbad

theorem run_freeBlocks {n : Nat} (hn : n ≤ indirectAccessBlock + indirectReferences) (hf : Filled s i n)
    (hv : ∀ k : Slot, k.Exists → s.slot i k ≠ -1 → ∃ b < dataBlocks, s.slot i k = (b : Nat)) :
    ∃ s', s'.freeinodeTs = s.freeinodeTs ∧ (∀ b, s.Names i b → s'.freeBlocks b = .free) ∧
      (∀ b, ¬ s.Names i b → s'.freeBlocks b = s.freeBlocks b) ∧
      (n < indirectAccessBlock + indirectReferences →
        ∀ atEnd, (freeBlocks i atEnd).run s = some (true, s')) ∧
      (n = indirectAccessBlock + indirectReferences →
        (freeBlocks i fun _ => undefined).run s = none) := by
  have hdirect := run_freeDirect hf hv
  have hlast : ((s.freeEntries i 0 (min n indirectAccessBlock)).inodeTable i).iDataBlock indirectAccessBlock =
      (s.inodeTable i).iDataBlock indirectAccessBlock := by
    simp only [State.freeEntries, Function.update_self]
    exact if_neg (by omega)
  have hfreed : ∀ b, (∃ k < min n indirectAccessBlock, 0 ≤ k ∧ (s.inodeTable i).iDataBlock k = (b : Nat)) ↔
      ∃ k < indirectAccessBlock, (s.inodeTable i).iDataBlock k = (b : Nat) := by
    intro b
    constructor
    · rintro ⟨k, hk, -, hb⟩
      exact ⟨k, by omega, hb⟩
    · rintro ⟨k, hk, hb⟩
      refine ⟨k, ?_, Nat.zero_le _, hb⟩
      by_contra hge
      rw [(hf.entry hk).mpr (by omega)] at hb
      omega
  by_cases hle : n ≤ indirectAccessBlock
  · have hno : (s.inodeTable i).iDataBlock indirectAccessBlock = -1 := hf.last.mpr hle
    have hnames : ∀ b, s.Names i b ↔ ∃ k < indirectAccessBlock, (s.inodeTable i).iDataBlock k = (b : Nat) := by
      intro b
      rw [names_iff]
      refine or_iff_left ?_
      rintro (hb | ⟨j, -, hb⟩)
      · omega
      · rw [slot_indirect_of_none hno] at hb
        omega
    refine ⟨s.freeEntries i 0 (min n indirectAccessBlock), rfl, fun b hb => ?_, fun b hb => ?_, fun _ atEnd => ?_,
      fun hall => ?_⟩
    · exact if_pos ((hfreed b).mpr ((hnames b).mp hb))
    · exact if_neg fun hex => hb ((hnames b).mpr ((hfreed b).mp hex))
    · simp only [freeBlocks, Prog.run_bind, hdirect, Option.bind_some, if_true, Prog.run_get, hlast, if_pos hno,
        Prog.run_pure]
    · simp only [indirectReferences, blockSize, indirectAccessBlock] at hall hle
      omega
  · have hyes : ¬ (s.inodeTable i).iDataBlock indirectAccessBlock = -1 := fun hno => hle (hf.last.mp hno)
    obtain ⟨e, hlt, he⟩ := hv (.entry indirectAccessBlock) (by decide) hyes
    have he : (s.inodeTable i).iDataBlock indirectAccessBlock = (e : Nat) := he
    have ha : e * blockSize + blockSize ≤ fsDataSize := by
      simp only [dataBlocks, blockSize, fsDataSize] at hlt ⊢
      omega
    obtain ⟨m, rfl⟩ : ∃ m, n = indirectAccessBlock + m := ⟨n - indirectAccessBlock, by omega⟩
    have hslot : ∀ j, s.fsData.loadInt (e * blockSize + 4 * j) = s.slot i (.indirect j) := fun j =>
      (slot_indirect he hlt j).symm
    obtain ⟨s₂, hinodes, hstates, hblocks, hrun⟩ := run_freeIndirect ha le_rfl (show m ≤ indirectReferences by omega)
      (by omega) (s.freeEntries i 0 (min (indirectAccessBlock + m) indirectAccessBlock))
      (fun j hj _ => by
        have hex : (Slot.indirect j).Exists := show j < indirectReferences by omega
        have hne : s.slot i (.indirect j) ≠ -1 := fun hno => by
          have := (hf.indirect hex).mp hno
          omega
        obtain ⟨b, hb, hbj⟩ := hv _ hex hne
        exact ⟨b, hb, (hslot j).trans hbj⟩)
      (fun hm => (hslot m).trans ((hf.indirect hm).mpr le_rfl))
    rw [Nat.sub_self] at hblocks
    rw [he] at hlast hyes
    have hreleased : ∀ b, (s₂.toDisk.release e).freeBlocks b = if b = e then .free else s₂.freeBlocks b := fun b =>
      Disk.release_freeBlocks ..
    refine ⟨s₂.setDisk (s₂.toDisk.release e), hstates, fun b hb => ?_, fun b hb => ?_, fun hm atEnd => ?_, fun hm => ?_⟩
    · refine (hreleased b).trans ?_
      by_cases hbe : b = e
      · rw [if_pos hbe]
      · rw [if_neg hbe, hblocks b]
        rcases (names_iff s i b).mp hb with hdir | hlastb | ⟨j, hj, hjb⟩
        · split
          · rfl
          · exact if_pos ((hfreed b).mpr hdir)
        · rw [he] at hlastb
          omega
        · refine if_pos ⟨j, ?_, Nat.zero_le _, (hslot j).trans hjb⟩
          by_contra hge
          rw [(hf.indirect hj).mpr (by omega)] at hjb
          omega
    · have hnot := mt (names_iff s i b).mpr hb
      refine (hreleased b).trans ?_
      have hbe : b ≠ e := fun hbe => hnot (.inr (.inl (he.trans (congrArg _ hbe.symm))))
      rw [if_neg hbe, hblocks b, if_neg]
      · exact if_neg fun hex => hnot (.inl ((hfreed b).mp hex))
      · rintro ⟨j, hj, -, hjb⟩
        exact hnot (.inr (.inr ⟨j, by omega, (hslot j).symm.trans hjb⟩))
    · have hne : (0 : Int) ≠ -1 := by decide
      simp only [freeBlocks, Prog.run_bind, hdirect, Option.bind_some, if_true, Prog.run_get, hlast, if_neg hyes,
        dataBlockGet_of_lt hlt, hrun, if_pos (show m < indirectReferences by omega), run_dataBlockFree,
        dataBlockFree_of_lt _ hlt, Prog.run_pure, ne_eq, hne, not_false_eq_true, decide_true]
    · simp only [freeBlocks, Prog.run_bind, hdirect, Option.bind_some, if_true, Prog.run_get, hlast, if_neg hyes,
        dataBlockGet_of_lt hlt, hrun, if_neg (show ¬ m < indirectReferences by omega), undefined, Prog.run_atomic,
        Option.map_none, Option.bind_none]

/-- `inode_delete` returns 0 without reading behind the indirect block, and the tables of free i-nodes and free blocks
are as they were in the state `s`. -/
structure Undone (s : State) (i : Nat) (s₂ : State) : Prop where
  inside : (inodeDeleteWith (fun _ => undefined) i).run s₂ ≠ none
  restored : ∃ s₃, (inodeDelete i).run s₂ = some (0, s₃) ∧ s₃.freeinodeTs = s.freeinodeTs ∧ s₃.freeBlocks = s.freeBlocks

/-- What happens to a file after `inode_create`: handles on it are granted and given back, and writes through them
succeed, within the blocks that a file can have. -/
inductive FileGrows (i : Nat) : State → State → Prop
  | refl (s : State) : FileGrows i s s
  | opened {s s₁ : State} {o : Nat} (h : FileGrows i s s₁) (ho : o = 0 ∨ o = (s₁.inodeTable i).iSize) :
      FileGrows i s (opened s₁ i o).2
  | closed {s s₁ : State} (h : FileGrows i s s₁) (fhandle : Int) :
      FileGrows i s (s₁.setFiles (Tecnicofs.removeFromOpenFileTable s₁.toOpenFiles fhandle).2)
  | wrote {s s₁ s₂ : State} {f : Nat} {buffer : List UInt8} {r : Int} (h : FileGrows i s s₁)
      (hopen : s₁.toOpenFiles.IsOpen f) (hin : (s₁.openFileTable f).ofInumber = (i : Nat))
      (hlen : (s₁.openFileTable f).ofOffset + buffer.length ≤ maxFileSize)
      (hr : (tfsWrite f buffer).run s₁ = some (r, s₂)) (hne : r ≠ -1) : FileGrows i s s₂

theorem FileGrows.grown (h : Consistent owner s) (hi : i < inodeTableSize) (hfree : s.freeinodeTs i = .free) {s₂ : State}
    (hg : FileGrows i (newFile s i) s₂) : Grown s i s₂ := by
  induction hg with
  | refl => exact .created h hi hfree
  | opened _ ho ih => exact ih.opened (by omega)
  | closed _ fhandle ih => exact ih.closed fhandle
  | wrote _ hopen hin hlen hr hne ih =>
    obtain ⟨hlt, ht⟩ := OpenFiles.isOpen_natCast.mp hopen
    obtain ⟨owner₁, hc⟩ := ih.consistent
    exact ih.wrote ⟨hlt, ht, hin, ih.isFile, hc.ne_zero ih.isFile⟩ hlen hr hne

theorem run_inodeDeleteWith (atEnd : Nat → Program Unit) (hi : i < inodeTableSize) (ht : s.freeinodeTs i = .taken) :
    (inodeDeleteWith atEnd i).run s =
      ((deleteBlocksWith atEnd i).run (s.setInodeState i .free)).map fun x => (if x.1 then 0 else -1, x.2) := by
  simp only [inodeDeleteWith, mutexLock, unlock, Prog.run_bind, Prog.run_acquire, Prog.run_atomic, Option.bind_some,
    inodeGet_natCast hi, ht, reduceCtorEq, if_false, Prog.run_release, Prog.run_pure]
  cases (deleteBlocksWith atEnd i).run (s.setInodeState i .free) <;> rfl

theorem Grown.undone_iff {s₂ : State} (hg : Grown s i s₂) (hi : i < inodeTableSize) (hfree : s.freeinodeTs i = .free) :
    Undone s i s₂ ↔ (s₂.inodeTable i).iSize ≤ (indirectAccessBlock + indirectReferences - 1) * blockSize := by
  obtain ⟨owner, hc⟩ := hg.consistent
  have htype : (s₂.inodeTable i).iNodeType = .file := hg.isFile.2.2
  have hshort := hg.short
  have hn : blocksFor (s₂.inodeTable i).iSize ≤ indirectAccessBlock + indirectReferences := by
    simp only [blocksFor, maxFileSize, indirectAccessBlock, indirectReferences, blockSize] at hshort ⊢
    omega
  have hstates : (s₂.setInodeState i .free).freeinodeTs = s.freeinodeTs := by
    funext j
    rw [State.setInodeState_freeinodeTs, hg.states, Consistent.newFile_freeinodeTs]
    split
    · next hj => rw [hj, hfree]
    · rfl
  have hslots : ∀ k : Slot, (s₂.setInodeState i .free).slot i k = s₂.slot i k := fun k => by cases k <;> rfl
  have hnames : ∀ b, (s₂.setInodeState i .free).Names i b ↔ s₂.Names i b := fun b => by
    simp only [State.Names, hslots]
  -- The blocks in use are those that were free when the file was created.
  have hbefore : ∀ b, s₂.Names i b → s.freeBlocks b = .free := by
    rintro b ⟨k, hk, hb⟩
    exact (hg.grew.fresh k b hk (Consistent.slot_newFile hk) hb).1
  have hothers : ∀ b, ¬ s₂.Names i b → s₂.freeBlocks b = s.freeBlocks b := fun b hb =>
    hg.grew.others b fun k hk _ hkb => hb ⟨k, hk, hkb⟩
  obtain ⟨s₃, hinodes, hnamed, hunnamed, hrun, hfull⟩ := run_freeBlocks hn (hg.filled.of_slots fun k _ => hslots k)
    fun k hk hne => by
      rw [hslots] at hne ⊢
      obtain ⟨b, hb, ho⟩ := (hc.files i hg.isFile).slot k hk hne
      exact ⟨b, hc.lt ho, hb⟩
  have hrestored : s₃.freeBlocks = s.freeBlocks := by
    funext b
    by_cases hb : s₂.Names i b
    · rw [hnamed b ((hnames b).mpr hb), hbefore b hb]
    · exact (hunnamed b (mt (hnames b).mp hb)).trans (hothers b hb)
  have hdelete : ∀ atEnd, (inodeDeleteWith atEnd i).run s₂ =
      (if (s₂.inodeTable i).iSize > 0 then (freeBlocks i atEnd).run (s₂.setInodeState i .free)
        else some (true, s₂.setInodeState i .free)).map fun x => (if x.1 then 0 else -1, x.2) := by
    intro atEnd
    rw [run_inodeDeleteWith atEnd hi hg.isFile.2.1]
    congr 1
    simp only [deleteBlocksWith, Prog.run_bind, Prog.run_get, Option.bind_some, State.setInodeState_inodeTable, htype]
    split <;> rfl
  constructor
  · intro hu
    by_contra hlarge
    have hall : blocksFor (s₂.inodeTable i).iSize = indirectAccessBlock + indirectReferences := by
      simp only [blocksFor, maxFileSize, indirectAccessBlock, indirectReferences, blockSize] at hshort hlarge ⊢
      omega
    refine hu.inside ?_
    rw [hdelete, if_pos (by omega), hfull hall]
    rfl
  · intro hsmall
    have hless : blocksFor (s₂.inodeTable i).iSize < indirectAccessBlock + indirectReferences := by
      simp only [blocksFor, indirectAccessBlock, indirectReferences, blockSize] at hsmall ⊢
      omega
    by_cases hpos : (s₂.inodeTable i).iSize > 0
    · have hr : ∀ atEnd, (inodeDeleteWith atEnd i).run s₂ = some (0, s₃) := fun atEnd => by
        rw [hdelete, if_pos hpos, hrun hless atEnd]
        rfl
      exact ⟨by rw [hr]; simp, s₃, (inodeDelete_eq i ▸ hr _), hinodes.trans hstates, hrestored⟩
    · have hr : ∀ atEnd, (inodeDeleteWith atEnd i).run s₂ = some (0, s₂.setInodeState i .free) := fun atEnd => by
        rw [hdelete, if_neg hpos]
        rfl
      refine ⟨by rw [hr]; simp, _, (inodeDelete_eq i ▸ hr _), hstates, funext fun b => hothers b ?_⟩
      have hnone : Filled s₂ i 0 := by
        have hfilled := hg.filled
        rwa [show (s₂.inodeTable i).iSize = 0 by omega] at hfilled
      rw [names_iff]
      rintro (⟨k, hk, hb⟩ | hb | ⟨j, hj, hb⟩)
      · rw [(hnone.entry hk).mpr (Nat.zero_le _)] at hb
        omega
      · have hlast : (s₂.inodeTable i).iDataBlock indirectAccessBlock = -1 := hnone.last.mpr (Nat.zero_le _)
        omega
      · rw [(hnone.indirect hj).mpr (Nat.zero_le _)] at hb
        omega

theorem inodeCreate_directory {s₁ : State} (hc : (inodeCreate .directory).run s = some ((i : Int), s₁)) :
    i < inodeTableSize ∧ s₁.freeinodeTs i = .taken ∧ (s₁.inodeTable i).iNodeType = .directory ∧
      ∃ c : Nat, (s₁.inodeTable i).iDataBlock 0 = c ∧ s.freeBlocks c = .free ∧ s₁.freeBlocks c = .taken := by
  cases hfirst : firstFree s.freeinodeTs inodeTableSize with
  | none =>
    simp only [inodeCreate, mutexLock, Prog.run_bind, Prog.run_acquire, Prog.run_atomic, hfirst, Option.bind_some,
      Prog.run_pure, Option.some.injEq, Prod.mk.injEq] at hc
    omega
  | some j =>
    obtain ⟨hj, -, -⟩ := firstFree_eq_some.mp hfirst
    obtain ⟨s', hs'⟩ : ∃ s', s' = (s.setInodeState j .taken).setInode j { s.inodeTable j with iNodeType := .directory } :=
      ⟨_, rfl⟩
    have hdisk : s'.toDisk = s.toDisk := by rw [hs']; rfl
    cases hblock : firstFree s'.freeBlocks dataBlocks with
    | none =>
      have hinit : (initDirectory j).run s' = some (false, s') := by
        have hal : Tecnicofs.dataBlockAlloc s'.toDisk = (-1, s'.toDisk) := by
          unfold Tecnicofs.dataBlockAlloc
          rw [hblock]
        simp only [initDirectory, Prog.run_bind, run_dataBlockAlloc, hal, Option.bind_some, if_true, Prog.run_pure]
        rfl
      simp only [inodeCreate, mutexLock, unlock, Prog.run_bind, Prog.run_acquire, Prog.run_atomic, hfirst, ← hs',
        Option.bind_some, hinit, Bool.false_eq_true, if_false, Prog.run_modify, Prog.run_release, Prog.run_pure,
        Option.some.injEq, Prod.mk.injEq] at hc
      omega
    | some c =>
      simp only [inodeCreate, mutexLock, unlock, Prog.run_bind, Prog.run_acquire, Prog.run_atomic, hfirst, ← hs',
        Option.bind_some, run_initDirectory hblock, if_true, Prog.run_release, Prog.run_pure,
        Option.some.injEq, Prod.mk.injEq] at hc
      obtain ⟨hji, rfl⟩ := hc
      obtain rfl : j = i := by omega
      have hfree := (firstFree_eq_some.mp hblock).2.1
      refine ⟨hj, ?_, ?_, c, ?_, ?_, ?_⟩
      · simp [hs', State.setInodeState_freeinodeTs]
      · simp [hs', State.setInode_inodeTable, Inode.setBlock]
      · simp [State.setInode_inodeTable, Inode.setBlock]
      · rw [← hdisk, hfree]
      · exact (Disk.take_freeBlocks ..).trans (if_pos rfl)

theorem not_undone_directory {s₁ : State} (hc : (inodeCreate .directory).run s = some ((i : Int), s₁)) :
    ¬ Undone s i s₁ := by
  obtain ⟨hi, ht, htype, c, hentry, hfree, htaken⟩ := inodeCreate_directory hc
  intro hu
  obtain ⟨s₃, hr, -, hblocks⟩ := hu.restored
  have hne : ¬ (c : Int) = -1 := by omega
  rw [inodeDelete_eq, run_inodeDeleteWith _ hi ht] at hr
  simp only [deleteBlocksWith, Prog.run_bind, Prog.run_get, Option.bind_some, State.setInodeState_inodeTable, htype,
    hentry, if_neg hne, Prog.run_pure, Option.map_some, Option.some.injEq, Prod.mk.injEq] at hr
  have hsame := congrFun hblocks c
  rw [← hr.2, hfree] at hsame
  exact absurd (hsame.symm.trans htaken) (by decide)

/-- `inode_delete` undoes `inode_create` and the writes after it exactly for files that have not got all the blocks that
a file can have. -/
theorem delete_undoes_create_iff (h : Consistent owner s) {nType : InodeType} {s₁ s₂ : State}
    (hc : (inodeCreate nType).run s = some ((i : Int), s₁)) (hfile : nType = .file → FileGrows i s₁ s₂)
    (hdir : nType = .directory → s₂ = s₁) :
    Undone s i s₂ ↔
      nType = .file ∧ (s₂.inodeTable i).iSize ≤ (indirectAccessBlock + indirectReferences - 1) * blockSize := by
  cases nType with
  | directory =>
    rw [hdir rfl]
    exact ⟨fun hu => absurd hu (not_undone_directory hc), fun hf => by cases hf.1⟩
  | file =>
    cases hfirst : firstFree s.freeinodeTs inodeTableSize with
    | none =>
      rw [run_inodeCreate_none hfirst, Option.some.injEq, Prod.mk.injEq] at hc
      omega
    | some j =>
      rw [run_inodeCreate_some hfirst, Option.some.injEq, Prod.mk.injEq] at hc
      obtain ⟨hji, rfl⟩ := hc
      obtain rfl : j = i := by omega
      obtain ⟨hi, hfree, -⟩ := firstFree_eq_some.mp hfirst
      have hgrown := (hfile rfl).grown h hi hfree
      rw [hgrown.undone_iff hi hfree, and_iff_right rfl]

/-- A new file of two blocks. -/
theorem delete_undoes_create_two : ∃ s₁ s₂, (inodeCreate .file).run State.init = some (((1 : Nat) : Int), s₁) ∧
    FileGrows 1 s₁ s₂ ∧ Undone State.init 1 s₂ := by
  have hend : ((inodeCreate .file).run State.init).bind (fun x =>
      ((tfsWrite ((0 : Nat) : Int) (List.replicate (blockSize + 1) 0)).run (opened x.2 1 0).2).map fun y =>
        decide (x.1 = 1 ∧ (opened x.2 1 0).2.toOpenFiles.IsOpen ((0 : Nat) : Int) ∧
          ((opened x.2 1 0).2.openFileTable 0).ofInumber = ((1 : Nat) : Int) ∧
          ((opened x.2 1 0).2.openFileTable 0).ofOffset = 0 ∧ y.1 ≠ -1 ∧
          (y.2.inodeTable 1).iSize ≤ 265 * 1024)) = some true := by
    decide +kernel
  obtain ⟨⟨r, s₁⟩, hc, hw⟩ := Option.bind_eq_some_iff.mp hend
  obtain ⟨⟨q, s₂⟩, hw, hd⟩ := Option.map_eq_some_iff.mp hw
  obtain ⟨hr, hopen, hin, hoff, hne, hsize⟩ := of_decide_eq_true hd
  obtain rfl : r = ((1 : Nat) : Int) := hr
  have hlen : (((opened s₁ 1 0).2.openFileTable 0).ofOffset + (List.replicate (blockSize + 1) (0 : UInt8)).length) ≤
      maxFileSize := by
    rw [hoff, List.length_replicate]
    exact Nat.le_of_ble_eq_true rfl
  have hg : FileGrows 1 s₁ s₂ := .wrote (.opened (.refl s₁) (.inl rfl)) hopen hin hlen hw hne
  exact ⟨s₁, s₂, hc, hg, (delete_undoes_create_iff Consistent.init hc (fun _ => hg) fun hf => by cases hf).mpr ⟨rfl, hsize⟩⟩

/-- A new directory is deleted. -/
theorem delete_leaves_directory : ¬ ∀ (owner : Owner) (s : State) (nType : InodeType) (i : Nat) (s₁ s₂ : State),
    Consistent owner s → (inodeCreate nType).run s = some ((i : Int), s₁) → (nType = .file → FileGrows i s₁ s₂) →
    (nType = .directory → s₂ = s₁) → Undone s i s₂ := by
  intro h
  have hend : ((inodeCreate .directory).run State.init).map (fun x => decide (x.1 = 1)) = some true := by decide +kernel
  obtain ⟨⟨r, s₁⟩, hc, hr⟩ := Option.map_eq_some_iff.mp hend
  obtain rfl : r = ((1 : Nat) : Int) := of_decide_eq_true hr
  exact not_undone_directory hc (h _ _ .directory 1 s₁ s₁ Consistent.init hc (fun hf => by cases hf) fun _ => rfl)

end Tecnicofs.Ex1
