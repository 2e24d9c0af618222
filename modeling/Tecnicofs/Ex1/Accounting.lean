import Tecnicofs.Ex1.Growth
import Tecnicofs.Ex1.Truncating

namespace Tecnicofs.Ex1

open Bytes

def ReadsWithinFile (s : State) : Call → Prop
  | .read fhandle len => (s.openFileTable fhandle.toNat).ofOffset +
      s.toRead (s.fileOf fhandle.toNat) fhandle.toNat len ≤ maxFileSize
  | .open _ _ | .close _ | .write _ _ => True

instance (s : State) : ∀ c, Decidable (ReadsWithinFile s c)
  | .read _ _ => inferInstanceAs (Decidable (_ ≤ _))
  | .open _ _ | .close _ | .write _ _ => inferInstanceAs (Decidable True)

/-- Something refers to every `TAKEN` block. -/
def NoLeak (s : State) : Prop := ∀ b < dataBlocks, s.freeBlocks b = .taken → ∃ r, s.Refers r (b : Nat)

def Elsewhere (i : Nat) (s s' : State) : Prop :=
  ∀ j, j ≠ i → s.IsFile j → ∀ k : Slot, k.Exists → s'.slot j k = s.slot j k

variable {owner : Owner} {s s' : State} {i j file : Nat} {Q : β → State → Prop}

theorem Elsewhere.trans {s₁ s₂ s₃ : State} (h : Elsewhere i s₁ s₂) (hk : Kept s₁ s₂) (h' : Elsewhere i s₂ s₃) :
    Elsewhere i s₁ s₃ := fun j hj hf k hex => (h' j hj (hk.isFile.mpr hf) k hex).trans (h j hj hf k hex)

theorem Refers.cases {b : Nat} (h : ∃ r, s.Refers r (b : Nat)) :
    (b : Int) = (s.inodeTable 0).iDataBlock 0 ∨ ∃ j k, s.IsFile j ∧ k.Exists ∧ s.slot j k = b := by
  obtain ⟨r, hr⟩ := h
  cases r with
  | root => exact .inl hr
  | file j k => exact .inr ⟨j, k, hr.1, hr.2.1, hr.2.2.1⟩

theorem refers_slot {b : Nat} {k : Slot} (hi : s.IsFile i) (hk : k.Exists) (hb : s.slot i k = b) :
    ∃ r, s.Refers r (b : Nat) := ⟨.file i k, hi, hk, hb, by omega⟩

namespace NoLeak

theorem congr (h : NoLeak s) (hf : ∀ b, s'.freeBlocks b = .taken → s.freeBlocks b = .taken)
    (hroot : (s'.inodeTable 0).iDataBlock 0 = (s.inodeTable 0).iDataBlock 0)
    (hs : ∀ j (k : Slot), s.IsFile j → k.Exists → s.slot j k ≠ -1 → s'.IsFile j ∧ s'.slot j k = s.slot j k) :
    NoLeak s' := fun b hb ht => by
  rcases Refers.cases (h b hb (hf b ht)) with he | ⟨j, k, hj, hk, he⟩
  · exact ⟨.root, he.trans hroot.symm⟩
  · obtain ⟨hj', hk'⟩ := hs j k hj hk (by rw [he]; omega)
    exact refers_slot hj' hk (hk'.trans he)

theorem grew (h : NoLeak s) (hi : s.IsFile i) (hk : Kept s s') (hg : Grew i s s') (he : Elsewhere i s s') :
    NoLeak s' := fun b hb ht => by
  by_cases hnew : ∃ k : Slot, k.Exists ∧ s'.slot i k = b
  · obtain ⟨k, hex, hkb⟩ := hnew
    exact refers_slot (hk.isFile.mpr hi) hex hkb
  · have hsame := hg.others b fun k hex _ hkb => hnew ⟨k, hex, hkb⟩
    rcases Refers.cases (h b hb (hsame.symm.trans ht)) with hroot | ⟨j, k, hj, hex, hjb⟩
    · exact ⟨.root, by rw [hroot, ← hk.root]; rfl⟩
    · by_cases hji : j = i
      · subst hji
        exact absurd ⟨k, hex, (hg.same k hex (by rw [hjb]; omega)).trans hjb⟩ hnew
      · exact refers_slot (hk.isFile.mpr hj) hex ((he j hji hj k hex).trans hjb)

theorem setFiles (h : NoLeak s) (f : OpenFiles) : NoLeak (s.setFiles f) :=
  h.congr (fun _ => id) rfl fun j k hj _ _ => ⟨hj, by cases k <;> rfl⟩

theorem setSize (h : NoLeak s) (i n : Nat) : NoLeak (s.setInode i { s.inodeTable i with iSize := n }) := by
  have hsame : ∀ j, ((s.setInode i { s.inodeTable i with iSize := n }).inodeTable j).iDataBlock =
      (s.inodeTable j).iDataBlock := fun j => by
    rw [State.setInode_inodeTable]
    split
    · next h => rw [h]
    · rfl
  refine h.congr (fun _ => id) (congrFun (hsame 0) 0) fun j k hj _ _ => ⟨⟨hj.1, hj.2.1, ?_⟩, ?_⟩
  · rw [State.setInode_inodeTable]
    split
    · next h => rw [← h]; exact hj.2.2
    · exact hj.2.2
  · cases k with
    | entry k => exact congrFun (hsame j) k
    | indirect k => rw [State.slot, State.slot, hsame j]; rfl

end NoLeak

theorem Consistent.elsewhere_store (h : Consistent owner s) {e o : Nat} (ho : ∀ j, j ≠ i → owner e ≠ some j)
    {bytes : List UInt8} (hlen : o + bytes.length ≤ blockSize) (hn : ∀ j, j ≠ i → s'.inodeTable j = s.inodeTable j)
    (hd : s'.fsData = s.fsData.store (e * blockSize + o) bytes) : Elsewhere i s s' := fun j hj hf _ hk =>
  (h.files j hf).slot_congr (fun _ hb => h.lt hb) (hn j hj) (fun b hb x hx => by
    have hbe : b ≠ e := by
      rintro rfl
      exact ho j hj hb
    rw [hd]
    simp only [blockSize] at hx hlen
    exact Mem.store_of_notMem _ (by simp only [blockSize]; omega)) hk

theorem Consistent.elsewhere_inode (h : Consistent owner s) (hn : ∀ j, j ≠ i → s'.inodeTable j = s.inodeTable j)
    (hd : s'.fsData = s.fsData) : Elsewhere i s s' := fun j hj hf _ hk =>
  (h.files j hf).slot_congr (fun _ hb => h.lt hb) (hn j hj) (fun _ _ _ _ => by rw [hd]) hk

theorem owner_ne {b : Nat} (hi : owner b = some i) : ∀ j, j ≠ i → owner b ≠ some j :=
  fun _ hj he => hj (Option.some.inj (he.symm.trans hi))

theorem Consistent.owner_ne_of_free (h : Consistent owner s) {b : Nat} (hb : s.freeBlocks b = .free) (j : Nat) :
    owner b ≠ some j := by
  rw [h.taken.owner_of_free hb]
  exact nofun

theorem setInode_inodeTable_of_ne (s : State) (x : Inode) (hj : j ≠ i) : (s.setInode i x).inodeTable j = s.inodeTable j := by
  rw [State.setInode_inodeTable, if_neg hj]

theorem elsewhere_directBlock (h : Consistent owner s) (k : Nat) :
    (directBlock i k).Ensures s fun _ => Elsewhere i s := by
  refine Prog.ensures_get ?_
  split
  · refine ensures_dataBlockAlloc (fun c _ _ => ?_) ?_
    · exact Prog.ensures_modify (Prog.ensures_pure
        (h.elsewhere_inode (fun j hj => setInode_inodeTable_of_ne _ _ hj) rfl))
    · exact Prog.ensures_modify (Prog.ensures_pure
        (h.elsewhere_inode (fun j hj => setInode_inodeTable_of_ne _ _ hj) rfl))
  · exact Prog.ensures_pure (h.elsewhere_inode (fun _ _ => rfl) rfl)

theorem elsewhere_needBonusBlock (h : Consistent owner s) : (needBonusBlock i).Ensures s fun _ => Elsewhere i s := by
  refine Prog.ensures_get ?_
  split
  · refine Prog.Ensures.bind (ensures_dataBlockAlloc (fun c hc hfree => ?_) ?_)
    · refine Prog.ensures_modify ?_
      rw [dataBlockGet_of_lt hc]
      refine Prog.ensures_atomic fun _ s' hs => Prog.ensures_pure ?_
      obtain ⟨d, hd, he⟩ := Option.map_eq_some_iff.mp hs
      cases he
      obtain ⟨-, rfl⟩ := disk_store_eq_some hd
      refine Prog.ensures_modify (Prog.ensures_pure ?_)
      have hsize := length_noReferences
      refine h.elsewhere_store (e := c) (o := 0) (fun j _ => h.owner_ne_of_free hfree j)
        (by rw [hsize, Nat.zero_add]) (fun j hj => ?_) (by rw [Nat.add_zero]; rfl)
      rw [setInode_inodeTable_of_ne _ _ hj]
      exact setInode_inodeTable_of_ne _ _ hj
    · refine Prog.ensures_modify ?_
      rw [dataBlockGet_neg_one]
      exact Prog.ensures_atomic fun _ _ hs => by cases hs
  · exact Prog.ensures_pure (h.elsewhere_inode (fun _ _ => rfl) rfl)

theorem elsewhere_indirectBlock (h : Consistent owner s) (hi : s.IsFile i) {k : Nat} (hk : k < indirectReferences) :
    (indirectBlock i k).Ensures s fun _ => Elsewhere i s := by
  refine Prog.ensures_get ?_
  split
  · exact fun _ _ hr => by cases hr
  · next a ha =>
    obtain ⟨e, hlt, he, rfl⟩ := dataBlockGet_eq_some ha
    obtain ⟨e', he', ho⟩ := (h.files i hi).indirectBlock (by rw [State.slot, he]; omega)
    obtain rfl : e = e' := by
      rw [he] at he'
      omega
    have hstored : ∀ (s₁ : State) (b : Int), s₁.inodeTable = s.inodeTable → s₁.fsData = s.fsData →
        Elsewhere i s (s₁.setDisk { s₁.toDisk with
          fsData := s₁.fsData.store (e * blockSize + 4 * k) (encodeInt b) }) := fun s₁ b hn hd => by
      have hlen : 4 * k + (encodeInt b).length ≤ blockSize := by
        simp only [indirectReferences, blockSize, length_encodeInt] at hk ⊢
        omega
      exact h.elsewhere_store (owner_ne ho) hlen (fun j _ => by
        rw [State.setDisk_inodeTable, hn]) (by rw [State.setDisk_toDisk, hd])
    refine Prog.ensures_atomic fun b s' hs => ?_
    obtain ⟨bs, hbs, hb⟩ := Option.map_eq_some_iff.mp hs
    cases hb
    split
    · exact ensures_dataBlockAlloc (fun c _ _ => ensures_storeReference (Prog.ensures_pure (hstored _ _ rfl rfl)))
        (ensures_storeReference (Prog.ensures_pure (hstored _ _ rfl rfl)))
    · exact Prog.ensures_pure (h.elsewhere_inode (fun _ _ => rfl) rfl)

theorem elsewhere_getCurrentDataBlock (h : Consistent owner s) (hi : s.IsFile i)
    (hex : (dataSlot ((s.openFileTable file).ofOffset / blockSize)).Exists) :
    (getCurrentDataBlock i file).Ensures s fun _ => Elsewhere i s := by
  refine Prog.ensures_get ?_
  split
  · exact elsewhere_directBlock h _
  · next hk =>
    rw [dataSlot, if_neg hk] at hex
    have hneed : (needBonusBlock i).Ensures s fun _ s₁ => Elsewhere i s s₁ ∧ Owned s s₁ := fun ok s₁ hr =>
      ⟨elsewhere_needBonusBlock h ok s₁ hr, (ensures_needBonusBlock h hi ok s₁ hr).1⟩
    refine Prog.Ensures.bind (hneed.mono fun ok s₁ hs => ?_)
    obtain ⟨h₁, hkept, owner₁, hc₁⟩ := hs
    split
    · exact (elsewhere_indirectBlock hc₁ (hkept.isFile.mpr hi) hex).mono fun _ s₂ h₂ => h₁.trans hkept h₂
    · exact Prog.ensures_pure h₁

theorem noLeak_getCurrentDataBlock (h : Consistent owner s) (hi : s.IsFile i) (hn : NoLeak s)
    (hex : (dataSlot ((s.openFileTable file).ofOffset / blockSize)).Exists) :
    (getCurrentDataBlock i file).Ensures s fun r s' =>
      Found s i (dataSlot ((s.openFileTable file).ofOffset / blockSize)) r s' ∧ NoLeak s' := fun r s' hr =>
  have hfound := ensures_getCurrentDataBlock h hi r s' hr
  ⟨hfound, hn.grew hi hfound.kept (gained_getCurrentDataBlock h hi hex r s' hr).toGrew
    (elsewhere_getCurrentDataBlock h hi hex r s' hr)⟩

theorem ensures_writeLoop_elsewhere (h : Consistent owner s) (hi : s.IsFile i) (fuel : Nat) {buffer : List UInt8}
    (hlen : (s.openFileTable file).ofOffset + buffer.length ≤ maxFileSize) :
    (writeLoop i file fuel buffer).Ensures s fun _ s' => Kept s s' ∧ Grew i s s' ∧ Elsewhere i s s' := by
  induction fuel generalizing s owner buffer with
  | zero => exact Prog.ensures_pure ⟨.refl s, .refl i s, fun _ _ _ _ _ => rfl⟩
  | succ fuel ih =>
    rw [writeLoop]
    split
    · exact Prog.ensures_pure ⟨.refl s, .refl i s, fun _ _ _ _ _ => rfl⟩
    · next hne =>
      have hpos := List.length_pos_iff.mpr hne
      have hex : (dataSlot ((s.openFileTable file).ofOffset / blockSize)).Exists :=
        dataSlot_exists (lt_of_le_of_lt (Nat.div_mul_le_self ..) (by omega))
      have hfound : (getCurrentDataBlock i file).Ensures s fun r s₁ =>
          Found s i (dataSlot ((s.openFileTable file).ofOffset / blockSize)) r s₁ ∧ Grew i s s₁ ∧ Elsewhere i s s₁ :=
        fun r s₁ hs => ⟨ensures_getCurrentDataBlock h hi r s₁ hs, (gained_getCurrentDataBlock h hi hex r s₁ hs).toGrew,
          elsewhere_getCurrentDataBlock h hi hex r s₁ hs⟩
      refine Prog.Ensures.bind (hfound.mono fun r s₁ hs => ?_)
      obtain ⟨hr, hgrew, helse⟩ := hs
      obtain ⟨owner₁, h₁⟩ := hr.consistent
      have hi₁ := hr.kept.isFile.mpr hi
      split
      · exact Prog.ensures_pure ⟨hr.kept, hgrew, helse⟩
      · next a =>
        obtain ⟨b, rfl, hb⟩ := hr.block a rfl
        have hown := h₁.files i hi₁
        obtain ⟨c, hc, ho⟩ := hown.slot _ hex (by rw [hb]; omega)
        obtain rfl : b = c := by
          rw [hb] at hc
          omega
        have hne' := dataSlot_ne_last ((s.openFileTable file).ofOffset / blockSize)
        have hlast : (s₁.inodeTable i).iDataBlock indirectAccessBlock ≠ b := fun he =>
          hne' (hown.inj _ (.entry indirectAccessBlock) hex (by decide) (by rw [hb]; omega) (hb.trans he.symm))
        refine Prog.ensures_get ?_
        obtain ⟨hcur, hchunk⟩ := chunk_getCurrentOffset buffer.length (s.openFileTable file).ofOffset (by omega)
        rw [hr.files, hcur, hchunk]
        have hle : room buffer.length (s.openFileTable file).ofOffset ≤ buffer.length := Nat.min_le_left ..
        have hbytes : (s.openFileTable file).ofOffset % blockSize +
            (buffer.take (room buffer.length (s.openFileTable file).ofOffset)).length ≤ blockSize := by
          rw [List.length_take_of_le hle]
          simp only [room, blockSize]
          omega
        have hkept : Kept s₁ (wrote s₁ i file (b * blockSize + (s.openFileTable file).ofOffset % blockSize)
            (buffer.take (room buffer.length (s.openFileTable file).ofOffset))) :=
          .wrote (h₁.ne_zero hi₁) (blockSize_le (h₁.block_ne_zero hi₁ ho) _) _
        have hwrote : Grew i s₁ (wrote s₁ i file (b * blockSize + (s.openFileTable file).ofOffset % blockSize)
            (buffer.take (room buffer.length (s.openFileTable file).ofOffset))) :=
          .of_slots rfl fun k hk => hown.slot_wrote (fun b hb => h₁.lt hb) hex hne' hb hbytes hk
        have helse₁ : Elsewhere i s₁ (wrote s₁ i file (b * blockSize + (s.openFileTable file).ofOffset % blockSize)
            (buffer.take (room buffer.length (s.openFileTable file).ofOffset))) :=
          h₁.elsewhere_store (owner_ne ho) hbytes (fun j hj => setInode_inodeTable_of_ne _ _ hj) rfl
        have hmax : maxFileSize < 2 ^ 62 := by decide
        refine ensures_writeChunk ((ih (h₁.wrote hi₁ ho hlast hbytes) (hkept.isFile.mpr hi₁) ?_).mono
          fun _ s₂ hrest => ?_)
        · rw [wrote_offset, hr.files, List.length_take_of_le hle, szAdd_of_lt (by omega), List.length_drop]
          omega
        · obtain ⟨hk₂, hg₂, he₂⟩ := hrest
          have hk := hr.kept.trans hkept
          exact ⟨hk.trans hk₂, (hgrew.trans hwrote).trans hg₂, (helse.trans hr.kept helse₁).trans hk he₂⟩

theorem noLeak_readLoop (h : Consistent owner s) (hi : s.IsFile i) (hn : NoLeak s) (fuel toRead : Nat)
    (bytesRead : List UInt8) (hlen : (s.openFileTable file).ofOffset + toRead ≤ maxFileSize) :
    (readLoop i file fuel toRead bytesRead).Ensures s fun _ => NoLeak := by
  induction fuel generalizing s owner toRead bytesRead with
  | zero => exact Prog.ensures_pure hn
  | succ fuel ih =>
    rw [readLoop]
    split
    · exact Prog.ensures_pure hn
    · next hne =>
      have hex : (dataSlot ((s.openFileTable file).ofOffset / blockSize)).Exists :=
        dataSlot_exists (lt_of_le_of_lt (Nat.div_mul_le_self ..) (by omega))
      have hmax : maxFileSize < 2 ^ 62 := by decide
      obtain ⟨hcur, hchunk⟩ := chunk_getCurrentOffset toRead (s.openFileTable file).ofOffset (by omega)
      refine Prog.ensures_get (Prog.Ensures.bind
        ((noLeak_getCurrentDataBlock h hi hn hex).mono fun r s₁ hs => ?_))
      obtain ⟨hr, hn₁⟩ := hs
      obtain ⟨owner₁, h₁⟩ := hr.consistent
      split
      · exact Prog.ensures_pure hn₁
      · rw [hcur, hchunk]
        have hle : room toRead (s.openFileTable file).ofOffset ≤ toRead := Nat.min_le_left ..
        refine Prog.ensures_atomic fun _ s₂ hs => ?_
        obtain ⟨bytes, -, he⟩ := Option.map_eq_some_iff.mp hs
        cases he
        refine ih (h₁.setOffset file _) (hr.kept.isFile.mpr hi) (hn₁.setFiles _) _ _ ?_
        rw [State.setFiles_toOpenFiles, OpenFiles.setOffset_table, if_pos rfl, hr.files, szAdd_of_lt (by omega)]
        simp only
        omega

theorem emptied_iDataBlock (s : State) (i m k : Nat) :
    ((emptied s i m).inodeTable i).iDataBlock k = if 0 ≤ k ∧ k < m then -1 else (s.inodeTable i).iDataBlock k := by
  simp only [emptied, State.setInode_inodeTable, if_true, State.freeEntries, Function.update_self]

namespace NoLeak

theorem emptied (h : NoLeak s) (hc : Consistent owner s) (hi : s.IsFile i)
    (hlast : (s.inodeTable i).iDataBlock indirectAccessBlock = -1) (m : Nat) : NoLeak (emptied s i m) := fun b hb ht => by
  by_cases hin : ∃ k < m, 0 ≤ k ∧ (s.inodeTable i).iDataBlock k = (b : Nat)
  · have hfree : (Ex1.emptied s i m).freeBlocks b = .free := if_pos hin
    cases hfree.symm.trans ht
  · have hsame : (Ex1.emptied s i m).freeBlocks b = s.freeBlocks b := if_neg hin
    have hroot : (Ex1.emptied s i m).inodeTable 0 = s.inodeTable 0 :=
      emptied_inodeTable_of_ne s (Ne.symm (hc.ne_zero hi)) m
    have hfile : (Ex1.emptied s i m).IsFile i :=
      ⟨hi.1, hi.2.1, by simp only [Ex1.emptied, State.setInode_inodeTable, if_true, State.freeEntries,
        Function.update_self, hi.2.2]⟩
    rcases Refers.cases (h b hb (hsame.symm.trans ht)) with he | ⟨j, k, hj, hk, he⟩
    · exact ⟨.root, by rw [State.Refers, hroot, he]⟩
    · by_cases hji : j = i
      · subst hji
        cases k with
        | entry k =>
          have he : (s.inodeTable j).iDataBlock k = (b : Nat) := he
          refine refers_slot hfile hk ((emptied_iDataBlock s j m k).trans ?_)
          rw [if_neg fun hkm => hin ⟨k, hkm.2, hkm.1, he⟩, he]
        | indirect k =>
          rw [slot_indirect_of_none hlast] at he
          omega
      · have hj' : (Ex1.emptied s i m).IsFile j :=
          ⟨hj.1, hj.2.1, by rw [emptied_inodeTable_of_ne s hji]; exact hj.2.2⟩
        exact refers_slot hj' hk ((slot_emptied_of_ne s hji m k).trans he)

theorem create (h : NoLeak s) (hc : Consistent owner s) (hfree : s.freeinodeTs i = .free) : NoLeak (newFile s i) := by
  have hroot : (0 : Nat) ≠ i := by
    rintro rfl
    cases hfree.symm.trans hc.rootTaken
  refine h.congr (fun _ => id) ?_ fun j k hj _ _ => ⟨Consistent.isFile_newFile_of_isFile hfree hj, ?_⟩
  · rw [Consistent.newFile_inodeTable_of_ne hroot]
  · have hne : j ≠ i := by
      rintro rfl
      cases hfree.symm.trans hj.2.1
    exact (slot_setInode_of_ne hne _ k).trans (by cases k <;> rfl)

theorem deleteNew (h : NoLeak s) (hc : Consistent owner s) (hfree : s.freeinodeTs i = .free) :
    NoLeak ((newFile s i).setInodeState i .free) := by
  have hroot : (0 : Nat) ≠ i := by
    rintro rfl
    cases hfree.symm.trans hc.rootTaken
  refine h.congr (fun _ => id) ?_ fun j k hj _ _ => ?_
  · rw [State.setInodeState_inodeTable, Consistent.newFile_inodeTable_of_ne hroot]
  · have hne : j ≠ i := by
      rintro rfl
      cases hfree.symm.trans hj.2.1
    have hj' := (Consistent.isFile_newFile_of_ne (s := s) hne).mpr hj
    refine ⟨⟨hj.1, ?_, hj'.2.2⟩, (slot_setInode_of_ne hne _ k).trans (by cases k <;> rfl)⟩
    rw [State.setInodeState_freeinodeTs, if_neg hne]
    exact hj'.2.1

theorem addEntry (h : NoLeak s) (hc : Consistent owner s) (hi : s.IsFile i) {subName : CString} {m : Mem}
    (hm : fillDirEntry s.fsData 0 i subName = some m) : NoLeak (s.setDisk { s.toDisk with fsData := m }) :=
  h.congr (fun _ => id) rfl fun _ _ hj hk _ => ⟨hj, hc.slot_addEntry hi hm hj hk⟩

theorem opens (h : NoLeak s) (hc : Consistent owner s) {name : Option CString} {flags : Int} {x : Int × State}
    (ho : Opens s name flags x) : NoLeak x.2 := by
  cases ho with
  | refused hl hno => exact h
  | existing hv hl hi => exact h.setFiles _
  | @created p i m hp hv hl hcreat hfree hm =>
    obtain ⟨hi, hf, -⟩ := firstFree_eq_some.mp hfree
    exact ((h.create hc hf).addEntry (hc.create hf) (Consistent.isFile_newFile hi) hm).setFiles _
  | @full p i hp hv hl hcreat hfree hm => exact h.deleteNew hc (firstFree_eq_some.mp hfree).2.1

theorem call (h : NoLeak s) (hc : Consistent owner s) {c : Call} (hw : WithinFile s c) (hr : ReadsWithinFile s c)
    (ht : NoIndirectTrunc s c) {o : Out} (hcall : s.call c = some (o, s')) : NoLeak s' := by
  cases c with
  | «open» name flags =>
    rw [call_open] at hcall
    obtain ⟨x, hx, he⟩ := Option.map_eq_some_iff.mp hcall
    cases he
    rcases run_tfsOpen_cases hc ht with ⟨y, hy, ho⟩ | ⟨i, m, hi, -, hlast, -, -, -, hy⟩
    · cases hy.symm.trans hx
      exact h.opens hc ho
    · cases hy.symm.trans hx
      exact (h.emptied hc hi hlast m).setFiles _
  | close fhandle =>
    rw [call_close] at hcall
    cases hcall
    exact h.setFiles _
  | write fhandle buffer =>
    obtain ⟨f, hf, rfl, hopen⟩ := hw.1.exists
    obtain ⟨i, hon⟩ := hc.onFile hf hopen
    have hlen := hw.2
    rw [Int.toNat_natCast] at hlen
    rw [call_write, run_tfsWrite hon] at hcall
    obtain ⟨x, hx, he⟩ := Option.map_eq_some_iff.mp hcall
    cases he
    obtain ⟨y, hloop, hx⟩ := Option.bind_eq_some_iff.mp hx
    obtain ⟨hk, hg, he⟩ := ensures_writeLoop_elsewhere hc hon.isFile _ hlen y.1 y.2 hloop
    have hn := h.grew hon.isFile hk hg he
    split at hx
    · obtain ⟨z, hfix, he⟩ := Option.map_eq_some_iff.mp hx
      cases he
      rw [fixSize, Prog.run_modify] at hfix
      cases hfix
      split
      · exact hn.setSize i _
      · exact hn
    · cases hx
      exact hn
  | read fhandle len =>
    obtain ⟨f, hf, rfl, hopen⟩ := hw.exists
    obtain ⟨i, hon⟩ := hc.onFile hf hopen
    have hlen := hr
    simp only [ReadsWithinFile, Int.toNat_natCast, hon.fileOf] at hlen
    have hget : inodeGet (s.openFileTable f).ofInumber = some i := by rw [hon.inumber, inodeGet_natCast hon.isFile.1]
    have hcall : (tfsRead f len).run s = some (o, s') := hcall
    rw [run_tfsRead hf hget] at hcall
    obtain ⟨x, hx, he⟩ := Option.map_eq_some_iff.mp hcall
    cases he
    exact noLeak_readLoop hc hon.isFile h _ _ _ hlen x.1 x.2 hx

theorem initialised (s : State) : NoLeak (initialised s) := fun b _ ht => by
  by_cases h0 : b = 0
  · subst h0
    exact ⟨.root, rfl⟩
  · simp [Ex1.initialised, h0] at ht

end NoLeak

/-- Whatever is opened, truncated, closed, read and written, and also when blocks run out: a block is `TAKEN` exactly
when the directory or one slot of one file names it. -/
theorem blocks_accounted {s₀ s₁ : State} {r : Int} (h₀ : tfsInit s₀ = some (r, s₁)) {cs : List Call} {outs : List Out}
    (ha : Runs.Along State.call (fun s c => WithinFile s c ∧ ReadsWithinFile s c ∧ NoIndirectTrunc s c) s₁ cs)
    (hr : Runs.run State.call s₁ cs = some (outs, s)) {b : Nat} (hb : b < dataBlocks) :
    s.freeBlocks b = .taken ↔ ∃! r, s.Refers r (b : Nat) := by
  cases (tfsInit_eq s₀).symm.trans h₀
  obtain ⟨-, ⟨owner, hc⟩, hn⟩ := Runs.run_invariant (I := fun s => (∃ owner, Consistent owner s) ∧ NoLeak s)
    (P := fun _ => True) (fun _ _ _ _ ⟨⟨_, hc⟩, hn⟩ ⟨hw, hrd, ht⟩ hcall =>
      ⟨trivial, hc.call hw ht hcall, hn.call hc hw hrd ht hcall⟩)
    ⟨⟨_, (initialised_simulates s₀).settled.toConsistent⟩, .initialised s₀⟩ ha hr
  have howned := hc.blocksOwned
  constructor
  · intro ht
    obtain ⟨r, href⟩ := hn b hb ht
    exact ⟨r, href, fun r' href' => howned.once r' r b href' href⟩
  · rintro ⟨r, href, -⟩
    exact (howned.taken r b href).2

/-- A file of two blocks is truncated and gets one again. -/
theorem blocks_accounted_truncated :
    let a := some ⟨[47, 97], by decide⟩
    let cs := [.open a tfsOCreat, .write 0 (List.replicate (2 * blockSize) 1), .open a tfsOTrunc, .write 1 [1]]
    ∃ outs s, Runs.run State.call (initialised .zero) cs = some (outs, s) ∧
      (s.freeBlocks 1 = .taken ↔ ∃! r, s.Refers r (1 : Nat)) := by
  intro a cs
  have hrun : (Runs.run State.call (initialised .zero) cs).isSome = true := by decide +kernel
  obtain ⟨x, hx⟩ := Option.isSome_iff_exists.mp hrun
  exact ⟨x.1, x.2, hx, blocks_accounted (tfsInit_eq _) (by decide +kernel) hx (by decide)⟩

end Tecnicofs.Ex1
