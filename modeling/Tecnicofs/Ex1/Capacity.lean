import Mathlib.Algebra.BigOperators.Group.Finset.Basic
import Tecnicofs.Ex1.Accounting

namespace Tecnicofs.Ex1

open Bytes

def blocksUsed (size : Nat) : Nat := blocksFor size + if indirectAccessBlock < blocksFor size then 1 else 0

/-- Every file has the blocks that its size needs and no others. -/
def Snug (s : State) : Prop := ∀ i, s.IsFile i → Filled s i (blocksFor (s.inodeTable i).iSize)

variable {owner : Owner} {s s' : State} {es : List DirEntry} {fs : ByteFs (List UInt8)} {i j f n : Nat}

def slotsFor (n : Nat) : Finset Slot :=
  (Finset.range n).image dataSlot ∪ if indirectAccessBlock < n then {.entry indirectAccessBlock} else ∅

theorem card_slotsFor (n : Nat) : (slotsFor n).card = n + if indirectAccessBlock < n then 1 else 0 := by
  have hdisjoint : Disjoint ((Finset.range n).image dataSlot)
      (if indirectAccessBlock < n then {.entry indirectAccessBlock} else ∅) := by
    split
    · rw [Finset.disjoint_singleton_right, Finset.mem_image]
      rintro ⟨k, -, hk⟩
      exact dataSlot_ne_last k hk
    · exact Finset.disjoint_empty_right _
  have himage : ((Finset.range n).image dataSlot).card = n := by
    rw [Finset.card_image_of_injective _ fun _ _ => dataSlot_inj, Finset.card_range]
  rw [slotsFor, Finset.card_union_of_disjoint hdisjoint, himage]
  split <;> simp

theorem Slot.Exists.cases {k : Slot} (hk : k.Exists) : (∃ m, k = dataSlot m) ∨ k = .entry indirectAccessBlock := by
  cases k with
  | entry k =>
    by_cases hlt : k < indirectAccessBlock
    · exact .inl ⟨k, (if_pos hlt).symm⟩
    · have hk : k < blocks := hk
      obtain rfl : k = indirectAccessBlock := by
        simp only [blocks, indirectAccessBlock] at hk hlt ⊢
        omega
      exact .inr rfl
  | indirect k =>
    refine .inl ⟨k + indirectAccessBlock, ?_⟩
    rw [dataSlot, if_neg (by omega), Nat.add_sub_cancel]

theorem mem_slotsFor (h : Filled s i n) (hn : n * blockSize < maxFileSize + blockSize) {k : Slot} :
    k ∈ slotsFor n ↔ k.Exists ∧ s.slot i k ≠ -1 := by
  have hex : ∀ m < n, (dataSlot m).Exists := fun m hm => by
    have hle : (m + 1) * blockSize ≤ n * blockSize := Nat.mul_le_mul_right _ hm
    rw [Nat.succ_mul] at hle
    exact dataSlot_exists (by omega)
  rw [slotsFor, Finset.mem_union, Finset.mem_image]
  constructor
  · rintro (⟨m, hm, rfl⟩ | hk)
    · have hm := Finset.mem_range.mp hm
      exact ⟨hex m hm, fun hno => Nat.not_le.mpr hm ((h.slot m (hex m hm)).mp hno)⟩
    · split at hk
      · next hlt =>
        rw [Finset.mem_singleton.mp hk]
        exact ⟨by decide, fun hno => Nat.not_le.mpr hlt (h.last.mp hno)⟩
      · cases hk
  · rintro ⟨hk, hne⟩
    rcases hk.cases with ⟨m, rfl⟩ | rfl
    · exact .inl ⟨m, Finset.mem_range.mpr (Nat.lt_of_not_le fun hle => hne ((h.slot m hk).mpr hle)), rfl⟩
    · refine .inr ?_
      rw [if_pos (Nat.lt_of_not_le fun hle => hne (h.last.mpr hle))]
      exact Finset.mem_singleton_self _

def blocksOf (s : State) (i : Nat) : Finset Nat :=
  (slotsFor (blocksFor (s.inodeTable i).iSize)).image fun k => (s.slot i k).toNat

theorem blocksFor_le {size : Nat} (h : size ≤ maxFileSize) : blocksFor size * blockSize < maxFileSize + blockSize := by
  generalize maxFileSize = m at *
  simp only [blocksFor, blockSize]
  omega

namespace Settled

theorem mem_blocksOf (h : Settled owner s) (hs : Snug s) (hi : s.IsFile i) {b : Nat} :
    b ∈ blocksOf s i ↔ ∃ k : Slot, k.Exists ∧ s.slot i k = b := by
  have hmem : ∀ {k}, _ := fun {k} => @mem_slotsFor _ _ _ (hs i hi) (blocksFor_le (h.short i hi)) k
  rw [blocksOf, Finset.mem_image]
  constructor
  · rintro ⟨k, hk, rfl⟩
    obtain ⟨hex, hne⟩ := hmem.mp hk
    obtain ⟨b, hb, -⟩ := (h.files i hi).slot k hex hne
    exact ⟨k, hex, by rw [hb, Int.toNat_natCast]⟩
  · rintro ⟨k, hex, hb⟩
    exact ⟨k, hmem.mpr ⟨hex, by omega⟩, by rw [hb, Int.toNat_natCast]⟩

theorem card_blocksOf (h : Settled owner s) (hs : Snug s) (hi : s.IsFile i) :
    (blocksOf s i).card = blocksUsed (s.inodeTable i).iSize := by
  rw [blocksOf, Finset.card_image_of_injOn, card_slotsFor, blocksUsed]
  intro k hk k' hk' he
  obtain ⟨hex, hne⟩ := (mem_slotsFor (hs i hi) (blocksFor_le (h.short i hi))).mp hk
  obtain ⟨hex', hne'⟩ := (mem_slotsFor (hs i hi) (blocksFor_le (h.short i hi))).mp hk'
  obtain ⟨b, hb, -⟩ := (h.files i hi).slot k hex hne
  obtain ⟨b', hb', -⟩ := (h.files i hi).slot k' hex' hne'
  refine (h.files i hi).inj k k' hex hex' hne ?_
  simp only [hb, hb', Int.toNat_natCast] at he ⊢
  rw [he]

theorem owner_blocksOf (h : Settled owner s) (hs : Snug s) (hi : s.IsFile i) {b : Nat} (hb : b ∈ blocksOf s i) :
    owner b = some i := by
  obtain ⟨k, hk, hkb⟩ := (h.mem_blocksOf hs hi).mp hb
  obtain ⟨c, hc, ho⟩ := (h.files i hi).slot k hk (by omega)
  obtain rfl : b = c := by omega
  exact ho

theorem freeCount_add (h : Settled owner s) (hn : NoLeak s) (hs : Snug s) (hfiles : ∀ i, s.IsFile i ↔ 0 < i ∧ i ≤ n) :
    s.freeCount + 1 + ((List.range n).map fun i => blocksUsed (s.inodeTable (i + 1)).iSize).sum = dataBlocks := by
  have hfile : ∀ i ∈ Finset.range n, s.IsFile (i + 1) := fun i hi =>
    (hfiles _).mpr ⟨Nat.succ_pos i, Finset.mem_range.mp hi⟩
  have htaken : (Finset.range dataBlocks).filter (fun b => ¬ s.freeBlocks b = .free) =
      insert 0 ((Finset.range n).biUnion fun i => blocksOf s (i + 1)) := by
    ext b
    simp only [Finset.mem_filter, Finset.mem_range, Finset.mem_insert, Finset.mem_biUnion]
    constructor
    · rintro ⟨hb, hne⟩
      have ht : s.freeBlocks b = .taken := by cases hc : s.freeBlocks b <;> simp_all
      rcases Refers.cases (hn b hb ht) with hroot | ⟨j, k, hj, hk, he⟩
      · rw [h.rootBlock] at hroot
        exact .inl (by omega)
      · obtain ⟨hpos, hle⟩ := (hfiles j).mp hj
        refine .inr ⟨j - 1, by omega, ?_⟩
        rw [Nat.sub_add_cancel hpos]
        exact (h.mem_blocksOf hs hj).mpr ⟨k, hk, he⟩
    · have htaken : ∀ {b i}, owner b = some i → b < dataBlocks ∧ ¬ s.freeBlocks b = .free := fun ho => by
        obtain ⟨hlt, ht⟩ := h.taken _ _ ho
        exact ⟨hlt, by rw [ht]; exact nofun⟩
      rintro (rfl | ⟨i, hi, hb⟩)
      · exact htaken h.ownerRoot
      · exact htaken (h.owner_blocksOf hs (hfile i (Finset.mem_range.mpr hi)) hb)
  have hroot : 0 ∉ (Finset.range n).biUnion fun i => blocksOf s (i + 1) := by
    rw [Finset.mem_biUnion]
    rintro ⟨i, hi, hb⟩
    cases h.ownerRoot.symm.trans (h.owner_blocksOf hs (hfile i hi) hb)
  have hdisjoint : ∀ i ∈ Finset.range n, ∀ j ∈ Finset.range n, i ≠ j →
      Disjoint (blocksOf s (i + 1)) (blocksOf s (j + 1)) := fun i hi j hj hne => by
    refine Finset.disjoint_left.mpr fun b hb hb' => hne ?_
    have ho := (h.owner_blocksOf hs (hfile i hi) hb).symm.trans (h.owner_blocksOf hs (hfile j hj) hb')
    exact Nat.succ.inj (Option.some.inj ho)
  have hcard := Finset.card_filter_add_card_filter_not (s := Finset.range dataBlocks) fun b => s.freeBlocks b = .free
  have hsum : (((Finset.range n).biUnion fun i => blocksOf s (i + 1)).card) =
      ((List.range n).map fun i => blocksUsed (s.inodeTable (i + 1)).iSize).sum := by
    rw [Finset.card_biUnion hdisjoint, Finset.sum_congr rfl fun i hi => h.card_blocksOf hs (hfile i hi)]
    rfl
  rw [htaken, Finset.card_insert_of_notMem hroot, hsum, Finset.card_range] at hcard
  rw [Disk.freeCount]
  omega

end Settled

theorem countP_range' (n k t : Nat) : (List.range' k t).countP (fun x => n ≤ x) = t - (n - k) := by
  induction t generalizing k with
  | zero => simp
  | succ t ih =>
    rw [List.range'_succ, List.countP_cons, ih]
    simp only [decide_eq_true_eq]
    split <;> omega

theorem writeCost_add {size offset len : Nat} (h : Filled s i (blocksFor size)) (hoff : offset ≤ size)
    (hmax : offset + len ≤ maxFileSize) :
    s.writeCost i offset len + blocksUsed size = blocksUsed (max size (offset + len)) := by
  by_cases hlen : len = 0
  · rw [hlen, writeCost_zero, Nat.add_zero, max_eq_left hoff, Nat.zero_add]
  have htouched : offset / blockSize + blocksTouched offset len = blocksFor (offset + len) := by
    rw [blocksTouched, if_neg hlen]
    simp only [blocksFor, blockSize]
    omega
  have hstart : offset / blockSize ≤ blocksFor size := by
    simp only [blocksFor, blockSize]
    omega
  have hend : blocksFor (max size (offset + len)) = max (blocksFor size) (blocksFor (offset + len)) := by
    simp only [blocksFor, blockSize]
    omega
  have hlast : offset / blockSize < blocksFor (offset + len) := by
    simp only [blocksFor, blockSize]
    omega
  have hle := blocksFor_le hmax
  have hcount : (List.range' (offset / blockSize) (blocksTouched offset len)).countP
      (fun k => s.slot i (dataSlot k) = -1) = blocksTouched offset len - (blocksFor size - offset / blockSize) := by
    rw [← countP_range']
    refine List.countP_congr fun k hk => ?_
    have hlt := (List.mem_range'_1.mp hk).2
    rw [htouched] at hlt
    have hk : (k + 1) * blockSize ≤ blocksFor (offset + len) * blockSize := Nat.mul_le_mul_right _ hlt
    rw [Nat.succ_mul] at hk
    rw [decide_eq_true_iff, decide_eq_true_iff]
    exact h.slot k (dataSlot_exists (by omega))
  rw [State.writeCost, State.blocksNeeded, hcount, htouched, blocksUsed, blocksUsed, hend]
  simp only [h.last]
  generalize blocksFor size = n at *
  generalize blocksFor (offset + len) = m at *
  generalize blocksTouched offset len = t at *
  generalize offset / blockSize = k at *
  split_ifs <;> omega

namespace Snug

theorem congr (h : Snug s) (hsame : ∀ j, s'.IsFile j → s.IsFile j ∧ (s'.inodeTable j).iSize = (s.inodeTable j).iSize ∧
    ∀ k : Slot, k.Exists → s'.slot j k = s.slot j k) : Snug s' := fun j hj => by
  obtain ⟨hj', hsize, hslots⟩ := hsame j hj
  rw [hsize]
  exact (h j hj').of_slots hslots

theorem setFiles (h : Snug s) (files : OpenFiles) : Snug (s.setFiles files) :=
  h.congr fun _ hj => ⟨hj, rfl, fun k _ => by cases k <;> rfl⟩

theorem emptied (h : Snug s) (hk : Kept s (emptied s i n)) (hi : s.IsFile i)
    (hlast : (s.inodeTable i).iDataBlock indirectAccessBlock = -1) (hn : n ≤ indirectAccessBlock)
    (hend : n < indirectAccessBlock → (s.inodeTable i).iDataBlock n = -1) : Snug (emptied s i n) := fun j hj => by
  by_cases hji : j = i
  · subst hji
    have hsize : ((Ex1.emptied s j n).inodeTable j).iSize = 0 := by rw [State.setInode_inodeTable, if_pos rfl]
    have hentry : ∀ k ≤ indirectAccessBlock, ((Ex1.emptied s j n).inodeTable j).iDataBlock k = -1 := fun k hle => by
      rw [emptied_iDataBlock]
      split
      · rfl
      · next hge =>
        have hge : n ≤ k := by omega
        rcases hle.lt_or_eq with hlt | rfl
        · -- there are no blocks after the first missing one
          have hds : ∀ m < indirectAccessBlock, dataSlot m = .entry m := fun m hm => if_pos hm
          have hex : ∀ m < indirectAccessBlock, (dataSlot m).Exists := fun m hm => by
            rw [hds m hm]
            exact Nat.lt_succ_of_lt hm
          have hno := hend (by omega)
          have hfew := ((h j hi).slot n (hex n (by omega))).mp (by rw [hds n (by omega)]; exact hno)
          have hnone := ((h j hi).slot k (hex k hlt)).mpr (by omega)
          rwa [hds k hlt] at hnone
        · exact hlast
    have hslots : ∀ k : Slot, k.Exists → (Ex1.emptied s j n).slot j k = -1 := fun k hk => by
      cases k with
      | entry k => exact hentry k (Nat.le_of_lt_succ hk)
      | indirect k => exact slot_indirect_of_none (hentry _ le_rfl) k
    rw [hsize]
    exact ⟨fun k hk => iff_of_true (hslots _ hk) (Nat.zero_le _), iff_of_true (hslots _ (by decide)) (Nat.zero_le _)⟩
  · rw [emptied_inodeTable_of_ne s hji]
    exact (h j (hk.isFile.mp hj)).of_slots fun k _ => slot_emptied_of_ne s hji n k

theorem newFile (h : Snug s) : Snug (newFile s i) := fun j hj => by
  by_cases hji : j = i
  · subst hji
    have hsize : ((Ex1.newFile s j).inodeTable j).iSize = 0 := by simp [Ex1.newFile, State.setInode_inodeTable]
    rw [hsize]
    exact ⟨fun k hk => iff_of_true (Consistent.slot_newFile hk) (Nat.zero_le _),
      iff_of_true (Consistent.slot_newFile (by decide)) (Nat.zero_le _)⟩
  · rw [Consistent.newFile_inodeTable_of_ne hji]
    exact (h j ((Consistent.isFile_newFile_of_ne hji).mp hj)).of_slots fun k _ =>
      (slot_setInode_of_ne hji _ k).trans (by cases k <;> rfl)

theorem addEntry (h : Snug s) (hc : Consistent owner s) (hi : s.IsFile i) {subName : CString} {m : Mem}
    (hm : fillDirEntry s.fsData 0 i subName = some m) : Snug (s.setDisk { s.toDisk with fsData := m }) :=
  h.congr fun _ hj => ⟨hj, rfl, fun _ hk => hc.slot_addEntry hi hm hj hk⟩

theorem deleteNew (h : Snug s) : Snug ((Ex1.newFile s i).setInodeState i .free) :=
  h.newFile.congr fun j hj => by
    have hji : j ≠ i := by
      rintro rfl
      have ht := hj.2.1
      rw [State.setInodeState_freeinodeTs, if_pos rfl] at ht
      cases ht
    have ht := hj.2.1
    rw [State.setInodeState_freeinodeTs, if_neg hji] at ht
    exact ⟨⟨hj.1, ht, hj.2.2⟩, rfl, fun k _ => by cases k <;> rfl⟩

theorem opens (h : Snug s) (hc : Consistent owner s) {name : Option CString} {flags : Int} {x : Int × State}
    (ho : Opens s name flags x) : Snug x.2 := by
  cases ho with
  | refused hl hno => exact h
  | existing hv hl hi => exact h.setFiles _
  | @created p i m hp hv hl hcreat hfree hm =>
    obtain ⟨hi, hf, -⟩ := firstFree_eq_some.mp hfree
    exact (h.newFile.addEntry (hc.create hf) (Consistent.isFile_newFile hi) hm).setFiles _
  | full => exact h.deleteNew

theorem tfsOpen (h : Snug s) (hc : Consistent owner s) {name : Option CString} {flags : Int}
    (ht : NoIndirectTrunc s (.open name flags)) {x : Int × State} (hr : (tfsOpen name flags).run s = some x) :
    Snug x.2 := by
  rcases run_tfsOpen_cases hc ht with ⟨y, hy, ho⟩ | ⟨i, m, hi, -, hlast, hm, hend, hk, hy⟩
  · cases hy.symm.trans hr
    exact h.opens hc ho
  · cases hy.symm.trans hr
    exact (h.emptied hk hi hlast hm hend).setFiles _

theorem tfsWrite (h : Snug s) (hset : Settled owner s) (hon : OnFile s f i) {buffer : List UInt8} {r : Int}
    (hlen : (s.openFileTable f).ofOffset + buffer.length ≤ maxFileSize)
    (hr : (tfsWrite f buffer).run s = some (r, s')) (hne : r ≠ -1)
    (hsizes : ∀ j, j ≠ i → s.IsFile j → (s'.inodeTable j).iSize = (s.inodeTable j).iSize) : Snug s' := fun j hj => by
  have hoff := hset.offsets f hon.lt hon.taken
  rw [hon.fileOf] at hoff
  obtain ⟨s₁, hloop, hown, -, hext, hs'⟩ := run_tfsWrite_extended hset.toConsistent hon (h i hon.isFile) hoff
    (hset.short i hon.isFile) hlen hr hne
  by_cases hji : j = i
  · rw [hji]
    exact (hext.written hs').1
  · obtain ⟨hk, -, helse⟩ := ensures_writeLoop_elsewhere hset.toConsistent hon.isFile _ hlen _ _ hloop
    have hkept : Kept s s' := hs' ▸ hk.trans (.setInode hon.ne_zero rfl)
    have hj := hkept.isFile.mp hj
    rw [hsizes j hji hj]
    exact (h j hj).of_slots fun k hex => (slot_setSize hs' j k).trans (helse j hji hj k hex)

end Snug

/-- How many blocks the files take. -/
def blocksStored {N : Type} (fs : ByteFs N) : Nat := (fs.names.map fun n => blocksUsed (fs.contents n).length).sum

def HandleOpen (fs : ByteFs (List UInt8)) (fhandle : Int) : Prop :=
  validFileHandle fhandle ∧ fs.handles fhandle.toNat ≠ none

/-- Names fit in their field; a file is truncated that has at most ten blocks and whose handles are at its start; handles
are open; a write stays within the blocks that a file can have, and afterwards the files fit on the disk. -/
def Affordable (fs : ByteFs (List UInt8)) : Call → Prop
  | .open name flags => (∀ p ∈ name, Fits p) ∧ (hasFlag flags tfsOTrunc = true → ∀ n ∈ fileName name, n ∈ fs.names →
      (fs.contents n).length ≤ indirectAccessBlock * blockSize ∧
        ∀ h < maxOpenFiles, ∀ x ∈ fs.handles h, x.1 = n → x.2 = 0)
  | .close fhandle | .read fhandle _ => HandleOpen fs fhandle
  | .write fhandle buffer => HandleOpen fs fhandle ∧ ∀ x ∈ fs.handles fhandle.toNat,
      x.2 + buffer.length ≤ maxFileSize ∧
        blocksStored (fs.setContents x.1 (overwrite (fs.contents x.1) x.2 buffer)) < dataBlocks

instance (fs : ByteFs (List UInt8)) (fhandle : Int) : Decidable (HandleOpen fs fhandle) :=
  inferInstanceAs (Decidable (_ ∧ _))

instance (fs : ByteFs (List UInt8)) : ∀ c, Decidable (Affordable fs c)
  | .open _ _ => inferInstanceAs (Decidable (_ ∧ (_ → ∀ n ∈ _, _ → _ ∧ ∀ h < _, ∀ x ∈ _, _)))
  | .close _ | .read _ _ => inferInstanceAs (Decidable (HandleOpen _ _))
  | .write _ _ => inferInstanceAs (Decidable (_ ∧ ∀ x ∈ _, _ ∧ _))

theorem blocksStored_setContents {N : Type} [DecidableEq N] {fs : ByteFs N} (hn : fs.names.Nodup) {n : N}
    (hmem : n ∈ fs.names) (bytes : List UInt8) :
    blocksStored (fs.setContents n bytes) + blocksUsed (fs.contents n).length =
      blocksStored fs + blocksUsed bytes.length := by
  have hold := List.sum_map_erase (fun n => blocksUsed (fs.contents n).length) hmem
  have hnew := List.sum_map_erase (fun m => blocksUsed (Function.update fs.contents n bytes m).length) hmem
  have hrest : ((fs.names.erase n).map fun m => blocksUsed (Function.update fs.contents n bytes m).length) =
      (fs.names.erase n).map fun m => blocksUsed (fs.contents m).length :=
    List.map_congr_left fun m hm => by rw [Function.update_of_ne (hn.mem_erase_iff.mp hm).1]
  rw [hrest, Function.update_self] at hnew
  simp only [blocksStored, ByteFs.setContents]
  omega

/-- The library holds the byte strings in exactly the blocks that they need. -/
structure Packed (es : List DirEntry) (owner : Owner) (s : State) (fs : ByteFs (List UInt8)) : Prop
    extends Simulates es owner s fs where
  noLeak : NoLeak s
  snug : Snug s

namespace Packed

theorem isFile_iff (p : Packed es owner s fs) (i : Nat) : s.IsFile i ↔ 0 < i ∧ i ≤ es.length := by
  constructor
  · intro hi
    exact ⟨Nat.pos_of_ne_zero (p.settled.ne_zero hi), (p.listed.taken i hi.1).mp hi.2.1⟩
  · rintro ⟨hpos, hle⟩
    have hfile := p.isFile (i := i - 1) (by omega)
    rwa [Nat.sub_add_cancel hpos] at hfile

theorem length_contents (p : Packed es owner s fs) (hi : i < es.length) :
    (fs.contents es[i].name).length = (s.inodeTable (i + 1)).iSize := by
  rw [p.represents.contents i hi, length_bytesOf]

theorem freeCount (p : Packed es owner s fs) : s.freeCount + 1 + blocksStored fs = dataBlocks := by
  rw [← p.settled.freeCount_add p.noLeak p.snug p.isFile_iff, blocksStored, p.represents.names, List.map_map]
  congr 2
  refine List.ext_getElem (by simp) fun i hi _ => ?_
  have hlen := p.length_contents (i := i) (by simpa using hi)
  simp [hlen]

theorem isOpen (p : Packed es owner s fs) {fhandle : Int} (h : HandleOpen fs fhandle) :
    s.toOpenFiles.IsOpen fhandle := by
  obtain ⟨hv, hne⟩ := h
  refine ⟨hv, ?_⟩
  have hlt : fhandle.toNat < maxOpenFiles := by
    simp only [validFileHandle, validIndex] at hv
    omega
  cases hc : s.freeOpenFileEntries fhandle.toNat with
  | taken => rfl
  | free => exact absurd (p.represents.free _ hlt hc) hne

theorem truncatesAtStart (p : Packed es owner s fs) {name : Option CString}
    (h : ∀ n ∈ fileName name, n ∈ fs.names → (fs.contents n).length ≤ indirectAccessBlock * blockSize ∧
      ∀ h < maxOpenFiles, ∀ x ∈ fs.handles h, x.1 = n → x.2 = 0) : TruncatesAtStart s name := fun i hi hl _ => by
  have hv : validPathname name = true := by
    by_contra hv
    rw [lookup_of_not_valid hv] at hl
    omega
  cases name with
  | none => cases hv
  | some path =>
    obtain ⟨k, hk, hn, rfl⟩ := p.found hv hl
    have hmem : es[k].name ∈ fs.names := p.represents.mem_names.mpr ⟨_, List.getElem_mem hk, rfl⟩
    obtain ⟨hlen, hstart⟩ := h _ (Simulates.fileName_of_valid hv) (hn ▸ hmem)
    rw [← hn, p.length_contents hk] at hlen
    refine ⟨(p.snug (k + 1) (p.isFile hk)).last.mpr ?_, fun f hf ht hfile => ?_⟩
    · simp only [blocksFor, blockSize, indirectAccessBlock] at hlen ⊢
      omega
    · obtain ⟨m, hm, hin, -, he⟩ := p.represents.handle f hf ht
      obtain rfl : m = k := by
        rw [State.fileOf, hin] at hfile
        omega
      exact hstart f hf _ he hn

theorem enough (p : Packed es owner s fs) {buffer : List UInt8} (hi : i < es.length) {offset : Nat}
    (hoff : offset ≤ (s.inodeTable (i + 1)).iSize) (hmax : offset + buffer.length ≤ maxFileSize)
    (hfits : blocksStored (fs.setContents es[i].name (overwrite (fs.contents es[i].name) offset buffer)) < dataBlocks) :
    s.writeCost (i + 1) offset buffer.length ≤ s.freeCount := by
  have hnames : fs.names.Nodup := by
    rw [p.represents.names]
    exact p.represents.nodup
  have hmem : es[i].name ∈ fs.names := p.represents.mem_names.mpr ⟨_, List.getElem_mem hi, rfl⟩
  have hlen := p.length_contents hi
  have hafter := blocksStored_setContents hnames hmem (overwrite (fs.contents es[i].name) offset buffer)
  rw [length_overwrite (by rwa [hlen]), hlen] at hafter
  have hcost := writeCost_add (p.snug (i + 1) (p.isFile hi)) hoff hmax
  have hcount := p.freeCount
  omega

theorem regular (p : Packed es owner s fs) {c : Call} (hc : Affordable fs c) :
    SucceedsTruncatingAtStart s c ∧ WithinFile s c ∧ ReadsWithinFile s c ∧ NoIndirectTrunc s c := by
  cases c with
  | «open» name flags =>
    have htrunc : hasFlag flags tfsOTrunc = true → TruncatesAtStart s name := fun ht => p.truncatesAtStart (hc.2 ht)
    exact ⟨⟨hc.1, htrunc⟩, trivial, trivial, fun ht i hi hl hsize => (htrunc ht i hi hl hsize).1⟩
  | close fhandle => exact ⟨p.isOpen hc, p.isOpen hc, trivial, trivial⟩
  | write fhandle buffer =>
    have hopen := p.isOpen hc.1
    obtain ⟨f, hf, rfl, ht⟩ := hopen.exists
    obtain ⟨k, hk, hon, he⟩ := p.onFile hf ht
    obtain ⟨hmax, hfits⟩ := hc.2 _ (by rw [Int.toNat_natCast]; exact he)
    have hoff := p.settled.offsets f hf ht
    rw [hon.fileOf] at hoff
    exact ⟨⟨hopen, assumes_write (fun _ => succeeds_of_freeCount) hmax p.settled.toConsistent hon hmax
      (p.enough hk hoff hmax hfits)⟩, ⟨hopen, by rw [Int.toNat_natCast]; exact hmax⟩, trivial, trivial⟩
  | read fhandle len =>
    have hopen := p.isOpen hc
    refine ⟨hopen, hopen, ?_, trivial⟩
    obtain ⟨f, hf, rfl, ht⟩ := hopen.exists
    obtain ⟨i, hon⟩ := p.settled.onFile hf ht
    have hoff := p.settled.offsets f hf ht
    have hshort := p.settled.short i hon.isFile
    have hbound : maxFileSize < 2 ^ 62 := by decide
    rw [hon.fileOf] at hoff
    rw [ReadsWithinFile, Int.toNat_natCast, hon.fileOf, State.toRead, szSub_of_le hoff (by omega)]
    split <;> omega

theorem write_snug (p : Packed es owner s fs) {fhandle : Int} {buffer : List UInt8} {o : Out} {fs' : ByteFs (List UInt8)}
    {owner' : Owner} (hw : WithinFile s (.write fhandle buffer)) (hcall : s.call (.write fhandle buffer) = some (o, s'))
    (hspec : fs.call limits (.write fhandle buffer) = some (o, fs')) (r : Simulates es owner' s' fs') : Snug s' := by
  obtain ⟨f, hf, rfl, ht⟩ := hw.1.exists
  obtain ⟨k, hk, hon, he⟩ := p.onFile hf ht
  have hmax := hw.2
  rw [Int.toNat_natCast] at hmax
  rw [call_write] at hcall
  obtain ⟨x, hx, hout⟩ := Option.map_eq_some_iff.mp hcall
  simp only [ByteFs.call, ByteFs.write, Int.toNat_natCast, he, Limits.clip, limits, Option.some.injEq,
    Prod.mk.injEq] at hspec
  obtain ⟨rfl, rfl⟩ := hspec
  obtain ⟨hret, rfl⟩ := Prod.mk.inj hout
  have hne : x.1 ≠ -1 := by
    rw [(Out.mk.inj hret).1]
    omega
  refine p.snug.tfsWrite p.settled hon hmax hx hne fun j hj hfile => ?_
  obtain ⟨hpos, hle⟩ := (p.isFile_iff j).mp hfile
  obtain ⟨m, rfl⟩ : ∃ m, j = m + 1 := ⟨j - 1, by omega⟩
  have hname : es[m].name ≠ es[k].name := fun h => hj (congrArg Nat.succ (p.represents.eq_of_name hle hk h))
  rw [← length_bytesOf, ← length_bytesOf, ← r.represents.contents m hle, ← p.represents.contents m hle]
  simp only [ByteFs.setHandle, ByteFs.setContents, Function.update_of_ne hname]

theorem call (p : Packed es owner s fs) {c : Call} (hc : Affordable fs c) :
    ∃ o s' fs', s.call c = some (o, s') ∧ fs.call limits c = some (o, fs') ∧ ∃ es' owner', Packed es' owner' s' fs' := by
  obtain ⟨hreg, hwithin, hreads, htrunc⟩ := p.regular hc
  have hleak : ∀ o s', s.call c = some (o, s') → NoLeak s' := fun _ _ =>
    p.noLeak.call p.settled.toConsistent hwithin hreads htrunc
  cases c with
  | «open» name flags =>
    obtain ⟨x, fs', hr, hspec, es', owner', r⟩ := p.openTruncating hreg.1 hreg.2
    have hcall : s.call (.open name flags) = some (⟨x.1, []⟩, x.2) := by
      rw [call_open, hr]
      rfl
    exact ⟨_, _, fs', hcall, by simp only [ByteFs.call, hspec], es', owner', r, hleak _ _ hcall,
      p.snug.tfsOpen p.settled.toConsistent htrunc hr⟩
  | close fhandle =>
    obtain ⟨fs', hspec, r⟩ := p.close hreg
    exact ⟨_, _, fs', call_close fhandle, by simp only [ByteFs.call, hspec], es, owner, r,
      hleak _ _ (call_close fhandle), p.snug.setFiles _⟩
  | write fhandle buffer =>
    obtain ⟨o, s', fs', hcall, hwrite, owner', r⟩ := p.write hreg.1 hreg.2
    have hspec : fs.call limits (.write fhandle buffer) = some (⟨o, []⟩, fs') := by simp only [ByteFs.call, hwrite]
    exact ⟨_, s', fs', hcall, hspec, es, owner', r, hleak _ _ hcall, p.write_snug hwithin hcall hspec r⟩
  | read fhandle len =>
    obtain ⟨o, s', fs', hcall, hread, r⟩ := p.read hreg len
    refine ⟨o, s', fs', hcall, by simp only [ByteFs.call, hread], es, owner, r, hleak _ _ hcall, ?_⟩
    have hopen : s.toOpenFiles.IsOpen fhandle := hreg
    obtain ⟨f, hf, rfl, ht⟩ := hopen.exists
    obtain ⟨i, hon⟩ := p.settled.onFile hf ht
    have hrun : s.call (.read f len) = _ := p.settled.run_tfsRead hon len
    cases hcall.symm.trans hrun
    exact p.snug.setFiles _

end Packed

theorem initialised_packed (s : State) :
    Packed [] (fun b => if b = 0 then some 0 else none) (initialised s) .empty where
  toSimulates := initialised_simulates s
  noLeak := .initialised s
  snug i hi := absurd hi (not_isFile_initialised s i)

/-- Every run of calls that the byte strings afford and whose locks are granted is answered as the byte strings answer it:
no call fails for want of a block, and exactly the blocks that they need are taken. -/
theorem affordable_calls_succeed (s₀ : State) :
    ∃ s, tfsInit s₀ = some (0, s) ∧ ∀ cs, Runs.Along (ByteFs.call limits) Affordable .empty cs →
      Runs.Along LockedState.call LockedState.Grants (.ofState s) cs →
      ∃ outs x fs, Runs.run LockedState.call (.ofState s) cs = some (outs, x) ∧
        Runs.run (ByteFs.call limits) .empty cs = some (outs, fs) ∧
        x.toState.freeCount + 1 + blocksStored fs = dataBlocks := by
  refine ⟨_, tfsInit_eq s₀, fun cs ha hg => ?_⟩
  obtain ⟨outs, fs, s', hfs, hs, es, owner, p⟩ :=
    Runs.run_simulation (R := fun fs s => ∃ es owner, Packed es owner s fs) id (fun fs s c hr hc => by
      obtain ⟨es, owner, p⟩ := hr
      obtain ⟨o, s', fs', hs, hfs, hp⟩ := p.call hc
      exact ⟨o, fs', s', hfs, hs, hp⟩) ⟨_, _, initialised_packed s₀⟩ ha
  have hs : Runs.run State.call (initialised s₀) cs = some (outs, s') := by simpa using hs
  obtain ⟨x, hx, rfl⟩ := LockedState.run_of_grants hg hs
  exact ⟨outs, x, fs, hx, hfs, p.freeCount⟩

/-- A file of eleven blocks takes twelve; another file is truncated and takes one instead of two. -/
theorem affordable_calls_succeed_twelve :
    let a := some ⟨[47, 97], by decide⟩
    let b := some ⟨[47, 98], by decide⟩
    let cs := [.open a tfsOCreat, .write 0 (List.replicate (10 * blockSize + 1) 1), .open b tfsOCreat,
      .write 1 (List.replicate (blockSize + 1) 2), .close 1, .open b tfsOTrunc, .write 1 [3]]
    ∃ s, tfsInit .zero = some (0, s) ∧ ∃ outs x, Runs.run LockedState.call (.ofState s) cs = some (outs, x) ∧
      x.toState.freeCount = 1010 := by
  intro a b cs
  obtain ⟨s, hs, h⟩ := affordable_calls_succeed .zero
  obtain ⟨outs, x, fs, hr, hfs, hcount⟩ := h cs (by decide +kernel) (by
    cases (tfsInit_eq _).symm.trans hs
    decide +kernel)
  have hstored : (Runs.run (ByteFs.call limits) .empty cs).map (fun x => blocksStored x.2) = some 13 := by decide +kernel
  rw [hfs] at hstored
  have hstored : blocksStored fs = 13 := Option.some.inj hstored
  refine ⟨s, hs, outs, x, hr, ?_⟩
  simp only [hstored, dataBlocks] at hcount
  omega

end Tecnicofs.Ex1
