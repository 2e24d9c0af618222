import Tecnicofs.Ex1.Rwlocks
import Tecnicofs.Ex1.Slots

namespace Tecnicofs.Ex1

open Bytes

/-- The file names this block, in its i-node or in its indirect block. -/
def State.Names (s : State) (i b : Nat) : Prop := ∃ k : Slot, k.Exists ∧ s.slot i k = b

/-- The file is empty and has given back its blocks, and only them. -/
structure Truncated (s : State) (i : Nat) (s' : State) : Prop where
  size : (s'.inodeTable i).iSize = 0
  entries : ∀ k < blocks, (s'.inodeTable i).iDataBlock k = -1
  released : ∀ b, s.Names i b → s.freeBlocks b = .taken ∧ s'.freeBlocks b = .free
  others : ∀ b, ¬ s.Names i b → s'.freeBlocks b = s.freeBlocks b
  inodes : ∀ j, j ≠ i → s'.inodeTable j = s.inodeTable j
  states : s'.freeinodeTs = s.freeinodeTs

/-- There is no indirect block, and the direct entries are `TAKEN` blocks up to the first -1, after which there are no
more; none if the file is empty. -/
structure Compact (s : State) (i : Nat) : Prop where
  last : (s.inodeTable i).iDataBlock indirectAccessBlock = -1
  direct : ∃ n ≤ indirectAccessBlock,
    (∀ k < n, ∃ b < dataBlocks, (s.inodeTable i).iDataBlock k = (b : Nat) ∧ s.freeBlocks b = .taken) ∧
      ∀ k < indirectAccessBlock, n ≤ k → (s.inodeTable i).iDataBlock k = -1
  empty : (s.inodeTable i).iSize = 0 → ∀ k < indirectAccessBlock, (s.inodeTable i).iDataBlock k = -1

/-- The entries from `lo` up to `hi` are -1 and their blocks free. -/
def State.freeEntries (s : State) (i lo hi : Nat) : State :=
  { s with
    freeBlocks := fun b =>
      if ∃ k < hi, lo ≤ k ∧ (s.inodeTable i).iDataBlock k = (b : Nat) then .free else s.freeBlocks b
    inodeTable := Function.update s.inodeTable i { s.inodeTable i with
      iDataBlock := fun k => if lo ≤ k ∧ k < hi then -1 else (s.inodeTable i).iDataBlock k } }

variable {s s' : State} {i : Nat}

theorem freeEntries_self (s : State) (i lo : Nat) : s.freeEntries i lo lo = s := by
  have hb : (fun b => if ∃ k < lo, lo ≤ k ∧ (s.inodeTable i).iDataBlock k = (b : Nat) then .free else s.freeBlocks b) =
      s.freeBlocks := by
    funext b
    exact if_neg fun ⟨k, hk, hlo, _⟩ => absurd hlo (Nat.not_le.mpr hk)
  have hk : (fun k => if lo ≤ k ∧ k < lo then -1 else (s.inodeTable i).iDataBlock k) = (s.inodeTable i).iDataBlock := by
    funext k
    exact if_neg (by omega)
  simp only [State.freeEntries, hb, hk]
  simp

theorem State.eq_of_fields (hd : s.toDisk = s'.toDisk) (hf : s.toOpenFiles = s'.toOpenFiles)
    (hi : s.inodeTable = s'.inodeTable) (ht : s.freeinodeTs = s'.freeinodeTs) : s = s' := by
  cases s
  cases s'
  simp_all

theorem freeEntries_step {lo hi b : Nat} (hlo : lo < hi) (hb : (s.inodeTable i).iDataBlock lo = b) :
    ((s.setDisk (s.toDisk.release b)).setInode i ((s.inodeTable i).setBlock lo (-1))).freeEntries i (lo + 1) hi =
      s.freeEntries i lo hi := by
  have hentry : ∀ k, ((s.inodeTable i).setBlock lo (-1)).iDataBlock k =
      if k = lo then -1 else (s.inodeTable i).iDataBlock k := fun k => Function.update_apply ..
  refine State.eq_of_fields (congrArg (Disk.mk s.fsData) (funext fun c => ?_)) rfl (funext fun j => ?_) rfl
  · simp only [State.setInode_inodeTable, if_true, hentry]
    by_cases hc : c = b
    · have hfreed : (s.toDisk.release b).freeBlocks c = .free := (Disk.release_freeBlocks ..).trans (if_pos hc)
      rw [if_pos (show ∃ k < hi, lo ≤ k ∧ (s.inodeTable i).iDataBlock k = (c : Nat) from
        ⟨lo, hlo, le_rfl, hc ▸ hb⟩)]
      split
      · rfl
      · exact hfreed
    · have hiff : (∃ k < hi, lo + 1 ≤ k ∧ (if k = lo then -1 else (s.inodeTable i).iDataBlock k) = (c : Nat)) ↔
          ∃ k < hi, lo ≤ k ∧ (s.inodeTable i).iDataBlock k = (c : Nat) := by
        refine exists_congr fun k => and_congr_right fun _ => ?_
        constructor
        · rintro ⟨hk, he⟩
          rw [if_neg (by omega)] at he
          exact ⟨by omega, he⟩
        · rintro ⟨hk, he⟩
          have hne : k ≠ lo := by
            rintro rfl
            omega
          exact ⟨by omega, by rwa [if_neg hne]⟩
      have hsame : (s.toDisk.release b).freeBlocks c = s.freeBlocks c := (Disk.release_freeBlocks ..).trans (if_neg hc)
      simp only [hiff]
      exact congrArg (ite _ _) hsame
  · simp only [State.freeEntries, Function.update_apply, State.setInode_inodeTable, if_true, hentry]
    by_cases hj : j = i
    · rw [if_pos hj, if_pos hj]
      refine congrArg (Inode.mk _ _) (funext fun k => ?_)
      by_cases hk : k = lo
      · rw [if_neg (by omega), if_pos hk, if_pos (by omega)]
      · by_cases hin : lo + 1 ≤ k ∧ k < hi
        · rw [if_pos hin, if_pos (by omega)]
        · rw [if_neg hin, if_neg hk, if_neg (by omega)]
    · rw [if_neg hj, if_neg hj, if_neg hj]
      rfl

theorem freeDirect_cases (i : Nat) {n : Nat} (hn : n ≤ indirectAccessBlock) (s : State) :
    (∃ m ≤ indirectAccessBlock, indirectAccessBlock - n ≤ m ∧
      (∀ k < m, indirectAccessBlock - n ≤ k → ∃ b < dataBlocks, (s.inodeTable i).iDataBlock k = (b : Nat)) ∧
      (m < indirectAccessBlock → (s.inodeTable i).iDataBlock m = -1) ∧
      (freeDirect i n).run s = some (true, s.freeEntries i (indirectAccessBlock - n) m)) ∨
    ∃ m < indirectAccessBlock, ∃ s', indirectAccessBlock - n ≤ m ∧ (s.inodeTable i).iDataBlock m ≠ -1 ∧
      ¬ validBlockNumber ((s.inodeTable i).iDataBlock m) ∧
      (s'.inodeTable i).iSize = (s.inodeTable i).iSize ∧ (freeDirect i n).run s = some (false, s') := by
  induction n generalizing s with
  | zero =>
    exact .inl ⟨indirectAccessBlock, le_rfl, le_rfl, fun k hk hge => absurd hge (Nat.not_le.mpr hk),
      fun h => absurd h (lt_irrefl _), by rw [Nat.sub_zero, freeEntries_self]; rfl⟩
  | succ n ih =>
    have hk : indirectAccessBlock - (n + 1) < indirectAccessBlock := by
      simp only [indirectAccessBlock] at hn ⊢
      omega
    have hnext : indirectAccessBlock - (n + 1) + 1 = indirectAccessBlock - n := by omega
    have hrun : (freeDirect i (n + 1)).run s =
        (if (s.inodeTable i).iDataBlock (indirectAccessBlock - (n + 1)) = -1 then pure true
        else do
          if (← dataBlockFree ((s.inodeTable i).iDataBlock (indirectAccessBlock - (n + 1)))) = -1 then return false
          else
            setDataBlock i (indirectAccessBlock - (n + 1)) (-1)
            freeDirect i n : Program Bool).run s := rfl
    rw [hrun]
    by_cases hno : (s.inodeTable i).iDataBlock (indirectAccessBlock - (n + 1)) = -1
    · rw [if_pos hno]
      exact .inl ⟨_, Nat.le_of_lt hk, le_rfl, fun k hk hge => absurd hge (Nat.not_le.mpr hk), fun _ => hno,
        by rw [freeEntries_self]; rfl⟩
    · rw [if_neg hno]
      by_cases hv : validBlockNumber ((s.inodeTable i).iDataBlock (indirectAccessBlock - (n + 1)))
      · obtain ⟨b, hlt, hb⟩ : ∃ b < dataBlocks,
            (s.inodeTable i).iDataBlock (indirectAccessBlock - (n + 1)) = (b : Nat) :=
          ⟨_, (Int.toNat_lt hv.1).mpr hv.2, (Int.toNat_of_nonneg hv.1).symm⟩
        have hstep : (do
            if (← dataBlockFree ((s.inodeTable i).iDataBlock (indirectAccessBlock - (n + 1)))) = -1 then return false
            else
              setDataBlock i (indirectAccessBlock - (n + 1)) (-1)
              freeDirect i n : Program Bool).run s = (freeDirect i n).run ((s.setDisk (s.toDisk.release b)).setInode i
                ((s.inodeTable i).setBlock (indirectAccessBlock - (n + 1)) (-1))) := by
          simp only [Prog.run_bind, run_dataBlockFree, hb, dataBlockFree_of_lt _ hlt, Option.bind_some, setDataBlock,
            Prog.run_modify, if_neg (show ¬ (0 : Int) = -1 by decide), State.setDisk_inodeTable]
        have hlater : ∀ k, indirectAccessBlock - n ≤ k →
            (((s.setDisk (s.toDisk.release b)).setInode i
              ((s.inodeTable i).setBlock (indirectAccessBlock - (n + 1)) (-1))).inodeTable i).iDataBlock k =
                (s.inodeTable i).iDataBlock k := fun k hge => by
          rw [State.setInode_inodeTable, if_pos rfl]
          exact Function.update_of_ne (by omega) ..
        rw [hstep]
        rcases ih (by omega) ((s.setDisk (s.toDisk.release b)).setInode i
            ((s.inodeTable i).setBlock (indirectAccessBlock - (n + 1)) (-1))) with
          ⟨m, hm, hge, hall, hend, hr⟩ | ⟨m, hm, s', hge, hne, hbad, hsize, hr⟩
        · rw [← hnext] at hr hge
          rw [hr, freeEntries_step (Nat.lt_of_succ_le hge) hb]
          refine .inl ⟨m, hm, by omega, fun k hkm hle => ?_, fun hlt' => ?_, rfl⟩
          · by_cases hk0 : k = indirectAccessBlock - (n + 1)
            · exact ⟨b, hlt, hk0 ▸ hb⟩
            · rw [← hlater k (by omega)]
              exact hall k hkm (by omega)
          · rw [← hlater m (by omega)]
            exact hend hlt'
        · rw [hlater m hge] at hne hbad
          refine .inr ⟨m, hm, s', by omega, hne, hbad, hsize.trans ?_, hr⟩
          rw [State.setInode_inodeTable, if_pos rfl]
          rfl
      · refine .inr ⟨_, hk, s, le_rfl, hno, hv, rfl, ?_⟩
        have hfree : Tecnicofs.dataBlockFree s.toDisk ((s.inodeTable i).iDataBlock (indirectAccessBlock - (n + 1))) =
            (-1, s.toDisk) := if_neg hv
        simp only [Prog.run_bind, run_dataBlockFree, hfree, Option.bind_some, if_true, Prog.run_pure]
        rfl

theorem freeIndirect_returns {a n : Nat} (ha : a + blockSize ≤ fsDataSize) (hn : n ≤ indirectReferences) (s : State) :
    ∃ ok s', (freeIndirect a (pure ()) n).run s = some (ok, s') ∧ s'.inodeTable = s.inodeTable := by
  induction n generalizing s with
  | zero => exact ⟨true, s, rfl, rfl⟩
  | succ n ih =>
    have hin : a + 4 * (indirectReferences - (n + 1)) + 4 ≤ fsDataSize := by
      simp only [indirectReferences, blockSize] at hn ha ⊢
      omega
    have hload : s.toDisk.load (a + 4 * (indirectReferences - (n + 1))) 4 =
        some (s.fsData.load (a + 4 * (indirectReferences - (n + 1))) 4) := if_pos hin
    simp only [freeIndirect, loadReference, storeReference, Prog.run_bind, Prog.run_atomic, hload, Option.map_some,
      Option.bind_some]
    by_cases hno : decodeInt (s.fsData.load (a + 4 * (indirectReferences - (n + 1))) 4) = -1
    · rw [if_pos hno]
      exact ⟨true, s, rfl, rfl⟩
    · rw [if_neg hno]
      simp only [Prog.run_bind, run_dataBlockFree, Option.bind_some]
      by_cases hr : (Tecnicofs.dataBlockFree s.toDisk
          (decodeInt (s.fsData.load (a + 4 * (indirectReferences - (n + 1))) 4))).1 = -1
      · rw [if_pos hr]
        exact ⟨false, _, rfl, rfl⟩
      · rw [if_neg hr]
        have hstore : ∀ d : Disk, d.store (a + 4 * (indirectReferences - (n + 1))) (encodeInt (-1)) =
            some { d with fsData := d.fsData.store (a + 4 * (indirectReferences - (n + 1))) (encodeInt (-1)) } :=
          fun d => if_pos (by rwa [length_encodeInt])
        simp only [Prog.run_bind, Prog.run_atomic, hstore, Option.map_some, Option.bind_some]
        exact ih (by omega) _

theorem freeBlocks_cases (i : Nat) (s : State) :
    (∃ m ≤ indirectAccessBlock,
      (∀ k < m, ∃ b < dataBlocks, (s.inodeTable i).iDataBlock k = (b : Nat)) ∧
      (m < indirectAccessBlock → (s.inodeTable i).iDataBlock m = -1) ∧
      (s.inodeTable i).iDataBlock indirectAccessBlock = -1 ∧
      (freeBlocks i fun _ => pure ()).run s = some (true, s.freeEntries i 0 m)) ∨
    ∃ ok s', (freeBlocks i fun _ => pure ()).run s = some (ok, s') ∧
      ((s.inodeTable i).iDataBlock indirectAccessBlock ≠ -1 ∧
          (s'.inodeTable i).iDataBlock indirectAccessBlock = (s.inodeTable i).iDataBlock indirectAccessBlock ∨
        ok = false ∧ (s'.inodeTable i).iSize = (s.inodeTable i).iSize ∧
          ∃ m < indirectAccessBlock, (s.inodeTable i).iDataBlock m ≠ -1 ∧
            ¬ validBlockNumber ((s.inodeTable i).iDataBlock m)) := by
  rcases freeDirect_cases i le_rfl s with ⟨m, hm, -, hall, hend, hr⟩ | ⟨m, hm, s', -, hne, hbad, hsize, hr⟩
  · rw [Nat.sub_self] at hr
    have hlast : ((s.freeEntries i 0 m).inodeTable i).iDataBlock indirectAccessBlock =
        (s.inodeTable i).iDataBlock indirectAccessBlock := by
      simp only [State.freeEntries, Function.update_self]
      exact if_neg (by omega)
    by_cases hno : (s.inodeTable i).iDataBlock indirectAccessBlock = -1
    · refine .inl ⟨m, hm, fun k hk => hall k hk (by omega), hend, hno, ?_⟩
      simp only [freeBlocks, Prog.run_bind, hr, Option.bind_some, if_true, Prog.run_get, hlast, if_pos hno, Prog.run_pure]
    · refine .inr ?_
      simp only [freeBlocks, Prog.run_bind, hr, Option.bind_some, if_true, Prog.run_get, hlast, if_neg hno]
      cases hget : dataBlockGet ((s.inodeTable i).iDataBlock indirectAccessBlock) with
      | none => exact ⟨false, _, rfl, .inl ⟨hno, hlast⟩⟩
      | some a =>
        obtain ⟨c, hc, -, rfl⟩ := dataBlockGet_eq_some hget
        have ha : c * blockSize + blockSize ≤ fsDataSize := by
          simp only [dataBlocks, blockSize, fsDataSize] at hc ⊢
          omega
        obtain ⟨ok, s₁, hr₁, hsame⟩ := freeIndirect_returns ha le_rfl (s.freeEntries i 0 m)
        simp only [Prog.run_bind, hr₁, Option.bind_some]
        cases ok with
        | false => exact ⟨false, s₁, rfl, .inl ⟨hno, by rw [hsame, hlast]⟩⟩
        | true =>
          simp only [if_true, Prog.run_bind, run_dataBlockFree, Option.bind_some, Prog.run_pure]
          exact ⟨_, _, rfl, .inl ⟨hno, by rw [State.setDisk_inodeTable, hsame, hlast]⟩⟩
  · refine .inr ⟨false, s', ?_, .inr ⟨rfl, hsize, m, hm, hne, hbad⟩⟩
    simp only [freeBlocks, Prog.run_bind, hr, Option.bind_some]
    rfl

theorem Compact.names_iff (h : Compact s i) {b : Nat} :
    s.Names i b ↔ ∃ k < indirectAccessBlock, (s.inodeTable i).iDataBlock k = (b : Nat) := by
  constructor
  · rintro ⟨k, hk, hb⟩
    cases k with
    | entry k =>
      have hb : (s.inodeTable i).iDataBlock k = (b : Nat) := hb
      have hne : k ≠ indirectAccessBlock := by
        rintro rfl
        rw [h.last] at hb
        omega
      have hk : k < blocks := hk
      exact ⟨k, by simp only [blocks, indirectAccessBlock] at hk hne ⊢; omega, hb⟩
    | indirect j =>
      rw [slot_indirect_of_none h.last] at hb
      omega
  · rintro ⟨k, hk, hb⟩
    exact ⟨.entry k, Nat.lt_succ_of_lt hk, hb⟩

theorem Compact.truncated (h : Compact s i) {m : Nat} (hm : m ≤ indirectAccessBlock)
    (hall : ∀ k < m, ∃ b < dataBlocks, (s.inodeTable i).iDataBlock k = (b : Nat))
    (hend : m < indirectAccessBlock → (s.inodeTable i).iDataBlock m = -1) :
    Truncated s i ((s.freeEntries i 0 m).setInode i { (s.freeEntries i 0 m).inodeTable i with iSize := 0 }) := by
  obtain ⟨n, hn, hblocks, hnone⟩ := h.direct
  -- The loop ends where the blocks do.
  obtain rfl : m = n := by
    rcases Nat.lt_trichotomy m n with hlt | heq | hgt
    · obtain ⟨b, -, hb, -⟩ := hblocks m hlt
      rw [hend (by omega)] at hb
      omega
    · exact heq
    · obtain ⟨b, -, hb⟩ := hall n hgt
      rw [hnone n (by omega) le_rfl] at hb
      omega
  have hnamed : ∀ b, (∃ k < m, 0 ≤ k ∧ (s.inodeTable i).iDataBlock k = (b : Nat)) ↔ s.Names i b := by
    intro b
    rw [h.names_iff]
    constructor
    · rintro ⟨k, hk, -, hb⟩
      exact ⟨k, by omega, hb⟩
    · rintro ⟨k, hk, hb⟩
      refine ⟨k, ?_, Nat.zero_le _, hb⟩
      by_contra hge
      rw [hnone k hk (by omega)] at hb
      omega
  refine ⟨by rw [State.setInode_inodeTable, if_pos rfl], fun k hk => ?_, fun b hb => ⟨?_, ?_⟩, fun b hb => ?_,
    fun j hj => ?_, rfl⟩
  · rw [State.setInode_inodeTable, if_pos rfl]
    simp only [State.freeEntries, Function.update_self]
    by_cases hin : 0 ≤ k ∧ k < m
    · rw [if_pos hin]
    · rw [if_neg hin]
      by_cases hlast : k = indirectAccessBlock
      · rw [hlast, h.last]
      · exact hnone k (by simp only [blocks, indirectAccessBlock] at hk hlast ⊢; omega) (by omega)
  · obtain ⟨k, hk, hb⟩ := h.names_iff.mp hb
    by_cases hkm : k < m
    · obtain ⟨c, -, hc, ht⟩ := hblocks k hkm
      obtain rfl : c = b := by omega
      exact ht
    · rw [hnone k hk (by omega)] at hb
      omega
  · exact if_pos ((hnamed b).mpr hb)
  · exact if_neg fun hex => hb ((hnamed b).mp hex)
  · rw [State.setInode_inodeTable, if_neg hj]
    exact Function.update_of_ne hj ..

theorem truncate_cases (s : State) (hf : (s.inodeTable i).iNodeType = .file) :
    ∃ ok s', (truncate i).run s = some (ok, s') ∧ (Truncated s i s' ↔ Compact s i) := by
  by_cases hsize : (s.inodeTable i).iSize > 0
  · have hrun : (truncate i).run s = ((freeBlocks i fun _ => pure ()).run s).bind fun x =>
        some (x.1, if x.1 then x.2.setInode i { x.2.inodeTable i with iSize := 0 } else x.2) := by
      simp only [truncate, Prog.run_bind, Prog.run_get, Option.bind_some, if_pos hsize, truncateBlocks, hf]
      congr 1
      funext x
      obtain ⟨ok, s₁⟩ := x
      cases ok <;> rfl
    rw [hrun]
    rcases freeBlocks_cases i s with ⟨m, hm, hall, hend, hno, hr⟩ | ⟨ok, s', hr, hbad⟩
    · rw [hr, Option.bind_some]
      refine ⟨_, _, rfl, ⟨fun ht => ⟨hno, ⟨m, hm, fun k hk => ?_, fun k hk hge => ?_⟩, fun hz => ?_⟩,
        fun hc => hc.truncated hm hall hend⟩⟩
      · obtain ⟨b, hlt, hb⟩ := hall k hk
        exact ⟨b, hlt, hb, (ht.released b ⟨.entry k, Nat.lt_succ_of_lt (hk.trans_le hm), hb⟩).1⟩
      · have hentry := ht.entries k (Nat.lt_succ_of_lt hk)
        simp only [if_true, State.setInode_inodeTable, State.freeEntries, Function.update_self] at hentry
        rwa [if_neg (by omega)] at hentry
      · omega
    · rw [hr, Option.bind_some]
      refine ⟨_, _, rfl, ⟨fun ht => ?_, fun hc => ?_⟩⟩
      · rcases hbad with ⟨hne, hsame⟩ | ⟨rfl, hsame, -⟩
        · have hentry := ht.entries indirectAccessBlock (by decide)
          refine absurd (hsame.symm.trans ?_) hne
          cases ok with
          | false => exact hentry
          | true => simpa [State.setInode_inodeTable] using hentry
        · have hz : (s'.inodeTable i).iSize = 0 := ht.size
          omega
      · rcases hbad with ⟨hne, -⟩ | ⟨-, -, m, hm, hne, hinvalid⟩
        · exact absurd hc.last hne
        · obtain ⟨n, -, hblocks, hnone⟩ := hc.direct
          by_cases hmn : m < n
          · obtain ⟨b, hlt, hb, -⟩ := hblocks m hmn
            exact absurd (hb ▸ ⟨by omega, by exact_mod_cast hlt⟩) hinvalid
          · exact absurd (hnone m hm (by omega)) hne
  · have hrun : (truncate i).run s = some (true, s) := by
      simp only [truncate, Prog.run_bind, Prog.run_get, Option.bind_some, if_neg hsize, Prog.run_pure]
    refine ⟨true, s, hrun, ⟨fun ht => ?_, fun hc => ?_⟩⟩
    · have hentry : ∀ k < indirectAccessBlock, (s.inodeTable i).iDataBlock k = -1 := fun k hk =>
        ht.entries k (Nat.lt_succ_of_lt hk)
      exact ⟨ht.entries _ (by decide), ⟨0, Nat.zero_le _, fun k hk => absurd hk (Nat.not_lt_zero k),
        fun k hk _ => hentry k hk⟩, fun _ => hentry⟩
    · have hnone := hc.empty (by omega)
      have hnames : ∀ b, ¬ s.Names i b := by
        intro b hb
        obtain ⟨k, hk, hb⟩ := hc.names_iff.mp hb
        rw [hnone k hk] at hb
        omega
      refine ⟨by omega, fun k hk => ?_, fun b hb => absurd hb (hnames b), fun _ _ => rfl, fun _ _ => rfl, rfl⟩
      by_cases hlast : k = indirectAccessBlock
      · rw [hlast, hc.last]
      · exact hnone k (by simp only [blocks, indirectAccessBlock] at hk hlast ⊢; omega)

theorem Truncated.setFiles_iff {f : OpenFiles} : Truncated s i (s'.setFiles f) ↔ Truncated s i s' :=
  ⟨fun h => ⟨h.size, h.entries, h.released, h.others, h.inodes, h.states⟩,
    fun h => ⟨h.size, h.entries, h.released, h.others, h.inodes, h.states⟩⟩

theorem tfsOpen_truncates_iff {name : CString} {flags : Int} (ht : hasFlag flags tfsOTrunc = true)
    (hl : lookup s (some name) = (i : Nat)) (hi : s.IsFile i) :
    ∃ r s', (tfsOpen (some name) flags).run s = some (r, s') ∧ (Truncated s i s' ↔ Compact s i) := by
  have hv : validPathname (some name) = true := by
    by_contra hv
    rw [lookup_of_not_valid hv] at hl
    omega
  obtain ⟨ok, s₁, hr, hiff⟩ := truncate_cases s hi.2.2
  have hge : (i : Int) ≥ 0 := by omega
  have hlook : (tfsLookup (some name)).run s = some ((i : Int), s) := hl ▸ run_tfsLookup_eq s hv
  simp only [tfsOpen, if_pos hv, mutexLock, wrlock, unlock, Prog.run_bind, Prog.run_acquire, Option.bind_some, hlook,
    if_pos hge, inodeGet_natCast hi.1, Prog.run_release, openExisting, truncateIf, if_pos ht, hr, Prog.run_pure]
  cases ok with
  | false => exact ⟨-1, s₁, rfl, hiff⟩
  | true =>
    simp only [if_true, Prog.run_bind, Prog.run_get, Option.bind_some, Prog.run_release, Prog.run_pure,
      run_addToOpenFileTable]
    exact ⟨_, _, rfl, Truncated.setFiles_iff.trans hiff⟩

def Truncates (s : State) (i : Nat) : Call → Prop
  | .open (some name) flags => hasFlag flags tfsOTrunc = true ∧ lookup s (some name) = (i : Nat) ∧ s.IsFile i
  | .open none _ | .close _ | .write _ _ | .read _ _ => False

/-- If the call truncates a file, it returns and gives back the blocks of the file and no others. -/
def ExactTruncation (x : LockedState) (c : Call) : Prop :=
  ∀ i, Truncates x.toState i c → ∃ o x', x.call c = some (o, x') ∧ Truncated x.toState i x'.toState

/-- If the call truncates a file, the file is compact and its lock is granted. -/
def CompactTruncation (x : LockedState) (c : Call) : Prop :=
  ∀ i, Truncates x.toState i c → Compact x.toState i ∧ (x.rwl i).wrlock.isSome

theorem exactTruncation_iff (x : LockedState) (c : Call) : ExactTruncation x c ↔ CompactTruncation x c := by
  refine forall_congr' fun i => imp_congr_right fun hc => ?_
  cases c with
  | «open» name flags =>
    cases name with
    | none => exact hc.elim
    | some name =>
      obtain ⟨ht, hl, hi⟩ := hc
      obtain ⟨r, s', hr, hiff⟩ := tfsOpen_truncates_iff ht hl hi
      have hcall : x.toState.call (.open (some name) flags) = some (⟨r, []⟩, s') := by
        rw [call_open, hr]
        rfl
      have hlocked : lockedInode x.toState (.open (some name) flags) = some i := by
        rw [lockedInode, hl, inodeGet_natCast hi.1]
      have hgrants : x.Grants (.open (some name) flags) ↔ (x.rwl i).wrlock.isSome := by
        simp [LockedState.Grants, hlocked, takeRwl]
      rw [← hiff, ← hgrants]
      constructor
      · rintro ⟨o, x', he, h⟩
        have hview := LockedState.call_view _ _ _ _ he
        rw [hcall] at hview
        cases hview
        exact ⟨h, LockedState.grants_of_call he⟩
      · rintro ⟨h, hg⟩
        obtain ⟨x', he, hs⟩ := x.call_of_grants hg hcall
        exact ⟨_, x', he, hs ▸ h⟩
  | close fhandle => exact hc.elim
  | write fhandle buffer => exact hc.elim
  | read fhandle len => exact hc.elim

/-- The truncations of a run, and one more in any state, are exact as long as the files are compact and their locks are
granted, and only then. -/
theorem truncations_exact_iff (cs : List Call) :
    (Runs.Along LockedState.call ExactTruncation .init cs ↔ Runs.Along LockedState.call CompactTruncation .init cs) ∧
      ∀ x c, ExactTruncation x c ↔ CompactTruncation x c :=
  ⟨⟨Runs.Along.mono fun x c => (exactTruncation_iff x c).mp, Runs.Along.mono fun x c => (exactTruncation_iff x c).mpr⟩,
    exactTruncation_iff⟩

/-- A file of eleven blocks keeps the number of its indirect block. -/
theorem truncation_leaves_indirect : ¬ ∀ (cs : List Call) (outs : List Out) (x : LockedState) (c : Call),
    Runs.run LockedState.call .init cs = some (outs, x) → ExactTruncation x c := by
  intro h
  let name : Option CString := some ⟨[47, 97], by decide⟩
  let cs : List Call := [.open name tfsOCreat, .write 0 (List.replicate (10 * blockSize + 1) 0)]
  have hend : (Runs.run LockedState.call .init cs).map (fun x =>
      decide (lookup x.2.toState name = 1 ∧ x.2.toState.IsFile 1 ∧ (x.2.inodeTable 1).iDataBlock 10 = 11)) = some true := by
    decide +kernel
  obtain ⟨x, hx, he⟩ := Option.map_eq_some_iff.mp hend
  obtain ⟨hl, hi, hlast⟩ := of_decide_eq_true he
  have hflag : hasFlag tfsOTrunc tfsOTrunc = true := by decide
  have hexact := (exactTruncation_iff x.2 _).mp (h cs x.1 x.2 (.open name tfsOTrunc) hx) 1 ⟨hflag, hl, hi⟩
  exact absurd (hlast.symm.trans hexact.1.last) (by decide)

end Tecnicofs.Ex1
