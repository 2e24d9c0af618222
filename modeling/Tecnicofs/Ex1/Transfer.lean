import Tecnicofs.Ex1.View

namespace Tecnicofs.Ex1

open Bytes

def locked (i f : Nat) (m : Mode) : List (Lock × Mode) := [(.rwl i, m), (.file f, .exclusive)]

def View.withSlots (v : View) (slots : Slot → Int) : View := { v with slots := slots }

variable {β : Type} {i f : Nat} {m : Mode} {v : View} {s₀ : State} {w w' : FsWorld} {c : Call} {lin : Option Out}
  {Q : β → List (Lock × Mode) → Option Out → FsWorld → Prop}

theorem Knows.rely (h : Knows i f v w) (hr : (regions s₀).Rely (locked i f m) w w') : Knows i f v w' :=
  h.same (hr (.rwl i, m) (by simp [locked])) (hr (.file f, .exclusive) (by simp [locked]))

theorem OnlyFile.guar (h : OnlyFile i f w w') : (regions s₀).Guar (locked i f .exclusive) w w'
  | .rwl j, hl => h.files j fun he => hl (by simp [locked, he])
  | .file g, hl => h.handles g fun he => hl (by simp [locked, he])
  | .inodeTable, _ | .openFileTable, _ | .blockTable, _ => trivial

theorem Fresh.rely {b : Nat} (h : Fresh i v b w) (hr : (regions s₀).Rely (locked i f m) w w') : Fresh i v b w' :=
  h.same (hr (.rwl i, m) (by simp [locked]))

theorem HalfIndirect.rely {b : Nat} (h : HalfIndirect i f v b w) (hr : (regions s₀).Rely (locked i f m) w w') :
    HalfIndirect i f v b w' :=
  h.same (hr (.rwl i, m) (by simp [locked])) (hr (.file f, .exclusive) (by simp [locked]))

theorem owner_rely {b : Nat} (hr : (regions s₀).Rely (locked i f m) w w') (h : w.ghost b = some i) :
    w'.ghost b = some i := ((hr (.rwl i, m) (by simp [locked])).owner b).mpr h

theorem CurrentBlock.rely {b : Nat} (h : CurrentBlock i v b w) (hr : (regions s₀).Rely (locked i f m) w w') :
    CurrentBlock i v b w' := ⟨h.slot, owner_rely hr h.owned⟩

theorem giveBack_locked (i f : Nat) (m : Mode) (l : Lock) (m' : Mode) :
    giveBack ((l, m') :: locked i f m) l = locked i f m := by simp [giveBack]

theorem meets_change {γ : Type} {g : State → Option (γ × State)} {k : γ → Program β} {P : FsWorld → Prop}
    (hP : ∀ w', (regions s₀).Rely (locked i f .exclusive) w w' → P w')
    (h : ∀ w', P w' → Sound s₀ w' → ∃ b s', g w'.state = some (b, s') ∧
      Sound s₀ { w' with state := s' } ∧ OnlyFile i f w' { w' with state := s' } ∧
      (k b).Meets (regions s₀) c (locked i f .exclusive) lin { w' with state := s' } Q) :
    (Prog.atomic none g >>= k).Meets (regions s₀) c (locked i f .exclusive) lin w Q := by
  refine Prog.meets_atomic fun w₁ hr₁ hs₁ _ => ?_
  obtain ⟨b, s', hg, hs', ho, hk⟩ := h w₁ (hP w₁ hr₁) hs₁
  exact ⟨b, { w₁ with state := s' }, hg, hs', ho.guar, rfl, hk⟩

section
variable {Q : Option Nat → List (Lock × Mode) → Option Out → FsWorld → Prop}

theorem meets_dataBlockAlloc {Q : Int → List (Lock × Mode) → Option Out → FsWorld → Prop} (hk : Knows i f v w)
    (h : ∀ (b : Nat) w', Knows i f v w' → Fresh i v b w' → Q b (locked i f .exclusive) lin w') :
    dataBlockAlloc.Meets (regions s₀) c (locked i f .exclusive) lin w Q := by
  refine Prog.meets_acquire (by simp [locked]) fun w₁ hr₁ _ _ => ?_
  refine Prog.meets_atomic fun w₂ hr₂ hs₂ hall => ?_
  have hk₂ := (hk.rely hr₁).rely (hr₂.mono (List.subset_cons_self ..))
  obtain ⟨b₀, hb₀, hfree₀⟩ := hall .alloc rfl
  obtain ⟨b, hfirst, he⟩ := dataBlockAlloc_of_free hb₀ hfree₀
  obtain ⟨hb, hfree, -⟩ := firstFree_eq_some.mp hfirst
  obtain ⟨hk₃, hs₃, ho₃, hf₃⟩ := hk₂.takeFor hs₂ hb hfree
  refine ⟨b, takeFor w₂ i b, by rw [he]; rfl, hs₃, ho₃.guar.mono (List.subset_cons_self ..), rfl, ?_⟩
  refine Prog.meets_release (by simp) fun w₄ hr₄ _ => ⟨trivial, ?_⟩
  rw [giveBack_locked]
  have hr₄ := hr₄.mono (List.subset_cons_self ..)
  exact Prog.meets_pure fun w₅ hr₅ => h b w₅ ((hk₃.rely hr₄).rely hr₅) ((hf₃.rely hr₄).rely hr₅)

theorem Knows.block (h : Knows i f v w) {k : Slot} (hk : k.Exists) (hne : v.slots k ≠ -1) :
    ∃ b : Nat, v.slots k = b ∧ w.ghost b = some i := by
  rw [← h.slot k hk] at hne ⊢
  exact h.owns.slot k hk hne

theorem meets_directBlock {k : Nat} (hk : Knows i f v w) (hi : i ≠ 0)
    (hlt : k < indirectAccessBlock) (hm : v.slots (.entry k) = -1 → m = .exclusive)
    (h : ∀ slots (b : Nat) w', Knows i f (v.withSlots slots) w' → slots (.entry k) = b → w'.ghost b = some i →
      Q (some (b * blockSize)) (locked i f m) lin w') :
    (directBlock i k).Meets (regions s₀) c (locked i f m) lin w Q := by
  have hex : (Slot.entry k).Exists := Nat.lt_succ_of_lt hlt
  refine Prog.meets_get fun w₁ hr₁ _ => ?_
  have hk₁ := hk.rely hr₁
  have hslot : (w₁.state.inodeTable i).iDataBlock k = v.slots (.entry k) := hk₁.slot _ hex
  rw [hslot]
  split
  · next hno =>
    obtain rfl := hm hno
    refine Prog.Meets.bind (meets_dataBlockAlloc hk₁ fun b w₂ hk₂ hf₂ => ?_)
    refine meets_change (fun w₃ hr₃ => And.intro (hk₂.rely hr₃) (hf₂.rely hr₃)) fun w₃ hw₃ hs₃ => ?_
    obtain ⟨hk₃, hf₃⟩ := hw₃
    obtain ⟨hk₄, hs₄, ho₄⟩ := hk₃.setEntry hs₃ hi hlt hno hf₃
    refine ⟨(), _, rfl, hs₄, ho₄, ?_⟩
    rw [dataBlockGet_of_lt (hk₃.lt b hf₃.1)]
    refine Prog.meets_pure fun w₅ hr₅ => ?_
    exact h _ b w₅ (hk₄.rely hr₅) (Function.update_self ..) (owner_rely hr₅ hf₃.1)
  · next hne =>
    obtain ⟨b, hb, ho⟩ := hk₁.block hex hne
    rw [hb, dataBlockGet_of_lt (hk₁.lt b ho)]
    refine Prog.meets_pure fun w₂ hr₂ => ?_
    exact h v.slots b w₂ (hk₁.rely hr₂) hb (owner_rely hr₂ ho)

theorem meets_needBonusBlock {Q : Bool → List (Lock × Mode) → Option Out → FsWorld → Prop} (hk : Knows i f v w)
    (hi : i ≠ 0)
    (hm : v.slots (.entry indirectAccessBlock) = -1 → m = .exclusive)
    (h : ∀ slots w', Knows i f (v.withSlots slots) w' → slots (.entry indirectAccessBlock) ≠ -1 →
      (∀ j, slots (.indirect j) = v.slots (.indirect j)) →
      Q true (locked i f m) lin w') :
    (needBonusBlock i).Meets (regions s₀) c (locked i f m) lin w Q := by
  have hex : (Slot.entry indirectAccessBlock).Exists := by decide
  refine Prog.meets_get fun w₁ hr₁ _ => ?_
  have hk₁ := hk.rely hr₁
  have hslot : (w₁.state.inodeTable i).iDataBlock indirectAccessBlock = v.slots (.entry indirectAccessBlock) :=
    hk₁.slot _ hex
  rw [hslot]
  split
  · next hno =>
    obtain rfl := hm hno
    refine Prog.Meets.bind (Prog.Meets.bind (meets_dataBlockAlloc hk₁ fun b w₂ hk₂ hf₂ => ?_))
    refine meets_change (fun w₃ hr₃ => And.intro (hk₂.rely hr₃) (hf₂.rely hr₃)) fun w₃ hw₃ hs₃ => ?_
    obtain ⟨hk₃, hf₃⟩ := hw₃
    obtain ⟨hh₄, hs₄, ho₄⟩ := hk₃.halfIndirect hs₃ hi hno hf₃
    refine ⟨(), _, rfl, hs₄, ho₄, ?_⟩
    have hb := hk₃.lt b hf₃.1
    rw [dataBlockGet_of_lt hb]
    refine meets_change (fun w₅ hr₅ => hh₄.rely hr₅) fun w₅ hh₅ hs₅ => ?_
    obtain ⟨hk₆, hs₆, ho₆⟩ := hh₅.fill hs₅ hi
    have hstore : w₅.state.toDisk.store (b * blockSize) noReferences =
        some { w₅.state.toDisk with fsData := w₅.state.fsData.store (b * blockSize) noReferences } := by
      rw [Disk.store, if_pos]
      simp only [length_noReferences, blockSize, fsDataSize, dataBlocks] at hb ⊢
      omega
    refine ⟨(), _, by rw [hstore]; rfl, hs₆, ho₆, ?_⟩
    refine Prog.meets_pure fun w₇ hr₇ => ?_
    have hk₇ := hk₆.rely hr₇
    -- the entry is set a second time
    refine meets_change (fun w₈ hr₈ => hk₇.rely hr₈) fun w₈ hk₈ hs₈ => ?_
    have hsame : w₈.state.setInode i ((w₈.state.inodeTable i).setBlock indirectAccessBlock b) = w₈.state :=
      setBlock_self ((hk₈.slot _ hex).trans (by simp [View.setSlot_slots]))
    refine ⟨(), w₈.state, by simp only [hsame], hs₈, ⟨fun _ _ => .refl, fun _ _ => .refl⟩, ?_⟩
    refine Prog.meets_pure fun w₉ hr₉ => ?_
    rw [show decide ((b : Int) ≠ -1) = true by simp]
    refine h _ w₉ (hk₈.rely hr₉) ?_ fun j => ?_
    · simp [Function.update_self]
    · exact Function.update_of_ne (by simp) ..
  · next hne => exact Prog.meets_pure fun w₂ hr₂ => h v.slots w₂ (hk₁.rely hr₂) hne fun _ => rfl

theorem meets_indirectBlock {j : Nat} (hk : Knows i f v w) (hi : i ≠ 0)
    (hj : j < indirectReferences) (hlast : v.slots (.entry indirectAccessBlock) ≠ -1)
    (hm : v.slots (.indirect j) = -1 → m = .exclusive)
    (h : ∀ slots (b : Nat) w', Knows i f (v.withSlots slots) w' → slots (.indirect j) = b → w'.ghost b = some i →
      Q (some (b * blockSize)) (locked i f m) lin w') :
    (indirectBlock i j).Meets (regions s₀) c (locked i f m) lin w Q := by
  have hex : (Slot.entry indirectAccessBlock).Exists := by decide
  refine Prog.meets_get fun w₁ hr₁ _ => ?_
  have hk₁ := hk.rely hr₁
  obtain ⟨e, he, ho⟩ := hk₁.block hex hlast
  have hslot : (w₁.state.inodeTable i).iDataBlock indirectAccessBlock = e := (hk₁.slot _ hex).trans he
  have hlt := hk₁.lt e ho
  have hfit : e * blockSize + 4 * j + 4 ≤ fsDataSize := by
    simp only [indirectReferences, blockSize, fsDataSize, dataBlocks] at hj hlt ⊢
    omega
  rw [hslot, dataBlockGet_of_lt hlt]
  refine Prog.meets_atomic fun w₂ hr₂ hs₂ _ => ?_
  have hk₂ := hk₁.rely hr₂
  have hload : decodeInt (w₂.state.fsData.load (e * blockSize + 4 * j) 4) = v.slots (.indirect j) := by
    rw [← hk₂.slot (.indirect j) hj, slot_indirect ((hk₂.slot _ hex).trans he) hlt]
    rfl
  refine ⟨v.slots (.indirect j), w₂, ?_, hs₂, .refl, rfl, ?_⟩
  · rw [Disk.load, if_pos hfit, ← hload]
    rfl
  split
  · next hno =>
    obtain rfl := hm hno
    refine Prog.Meets.bind (meets_dataBlockAlloc hk₂ fun b w₃ hk₃ hf₃ => ?_)
    refine meets_change (fun w₄ hr₄ => And.intro (hk₃.rely hr₄) (hf₃.rely hr₄)) fun w₄ hw₄ hs₄ => ?_
    obtain ⟨hk₄, hf₄⟩ := hw₄
    obtain ⟨hk₅, hs₅, ho₅⟩ := hk₄.setReference hs₄ hi he hj hno hf₄
    have hstore : w₄.state.toDisk.store (e * blockSize + 4 * j) (encodeInt b) = some { w₄.state.toDisk with
        fsData := w₄.state.fsData.store (e * blockSize + 4 * j) (encodeInt b) } := by
      rw [Disk.store, if_pos]
      rwa [length_encodeInt]
    refine ⟨(), _, by rw [hstore]; rfl, hs₅, ho₅, ?_⟩
    rw [dataBlockGet_of_lt (hk₄.lt b hf₄.1)]
    refine Prog.meets_pure fun w₆ hr₆ => ?_
    exact h _ b w₆ (hk₅.rely hr₆) (Function.update_self ..) (owner_rely hr₆ hf₄.1)
  · next hne =>
    obtain ⟨b, hb, hob⟩ := hk₂.block (show (Slot.indirect j).Exists from hj) hne
    rw [hb, dataBlockGet_of_lt (hk₂.lt b hob)]
    exact Prog.meets_pure fun w₃ hr₃ => h v.slots b w₃ (hk₂.rely hr₃) hb (owner_rely hr₃ hob)

theorem Knows.last_ne (h : Knows i f v w) {j : Nat} (hj : j < indirectReferences) (hne : v.slots (.indirect j) ≠ -1) :
    v.slots (.entry indirectAccessBlock) ≠ -1 := by
  intro hno
  refine hne ?_
  rw [← h.slot (.indirect j) hj]
  exact slot_indirect_of_none ((h.slot (.entry indirectAccessBlock) (by decide)).trans hno) j

theorem meets_getCurrentDataBlock (hk : Knows i f v w) (hi : i ≠ 0)
    (hoff : v.offset < maxFileSize) (hm : v.slots (dataSlot (v.offset / blockSize)) = -1 → m = .exclusive)
    (h : ∀ slots (b : Nat) w', Knows i f (v.withSlots slots) w' → CurrentBlock i (v.withSlots slots) b w' →
      Q (some (b * blockSize)) (locked i f m) lin w') :
    (getCurrentDataBlock i f).Meets (regions s₀) c (locked i f m) lin w Q := by
  have hex : (dataSlot (v.offset / blockSize)).Exists :=
    dataSlot_exists (lt_of_le_of_lt (Nat.div_mul_le_self ..) hoff)
  refine Prog.meets_get fun w₁ hr₁ _ => ?_
  have hk₁ := hk.rely hr₁
  rw [hk₁.offset]
  split
  · next hlt =>
    rw [dataSlot, if_pos hlt] at hm
    refine meets_directBlock hk₁ hi hlt hm fun slots b w' hk' hb ho => h slots b w' hk' ⟨?_, ho⟩
    change slots (dataSlot (v.offset / blockSize)) = b
    rwa [dataSlot, if_pos hlt]
  · next hge =>
    have hj : v.offset / blockSize - indirectAccessBlock < indirectReferences := by
      simp only [maxFileSize, blockSize, indirectReferences, indirectAccessBlock] at hoff hge ⊢
      omega
    rw [dataSlot, if_neg hge] at hm
    refine Prog.Meets.bind (meets_needBonusBlock hk₁ hi (fun hno => hm ?_) fun slots w₂ hk₂ hlast hrefs => ?_)
    · by_contra hne
      exact hk₁.last_ne hj hne hno
    rw [if_pos rfl]
    refine meets_indirectBlock hk₂ hi hj hlast (fun hno => hm ((hrefs _).symm.trans hno)) fun slots' b w₃ hk₃ hb ho => ?_
    refine h slots' b w₃ hk₃ ⟨?_, ho⟩
    change slots' (dataSlot (v.offset / blockSize)) = b
    rwa [dataSlot, if_neg hge]

end

def room (left offset : Nat) : Nat := min left (blockSize - offset % blockSize)

theorem room_pos {left : Nat} (h : 0 < left) (offset : Nat) : 0 < room left offset := by
  simp only [room, blockSize]
  omega

theorem chunk_getCurrentOffset (left offset : Nat) (h : left + offset ≤ maxFileSize) :
    getCurrentOffset offset = offset % blockSize ∧ chunk left (offset % blockSize) = room left offset := by
  have hmod : offset % blockSize < blockSize := Nat.mod_lt _ (by decide)
  have hmax : maxFileSize < 2 ^ 62 := by decide
  refine ⟨getCurrentOffset_eq (by omega), chunk_eq ?_ hmod⟩
  simp only [blockSize] at hmod ⊢
  omega

/-- An iteration of the loop of `tfs_write`: the bytes that are left, or nothing when there is no block. -/
def writeIteration (inode file : Nat) (buffer : List UInt8) : Program (Option (List UInt8)) := do
  match ← getCurrentDataBlock inode file with
  | none => return none
  | some block =>
    let currentOffset ← Prog.get fun s => getCurrentOffset (s.openFileTable file).ofOffset
    let n := chunk buffer.length currentOffset
    writeChunk inode file block currentOffset (buffer.take n)
    return some (buffer.drop n)

theorem writeLoop_succ (inode file fuel : Nat) {buffer : List UInt8} (h : buffer ≠ []) :
    writeLoop inode file (fuel + 1) buffer = writeIteration inode file buffer >>= fun
      | none => pure false
      | some rest => writeLoop inode file fuel rest := by
  rw [writeLoop, if_neg h, writeIteration, Prog.bind_assoc]
  congr 1
  funext r
  cases r <;> rfl

theorem meets_writeIteration {Q : Option (List UInt8) → List (Lock × Mode) → Option Out → FsWorld → Prop}
    {buffer : List UInt8} (hk : Knows i f v w) (hi : i ≠ 0) (hne : buffer ≠ []) (hoff : v.offset ≤ v.bytes.length)
    (hmax : v.offset + buffer.length ≤ maxFileSize) (hsize : v.size + buffer.length < 2 ^ 64)
    (h : ∀ slots w', Knows i f ((v.withSlots slots).write (buffer.take (room buffer.length v.offset))) w' →
      Q (some (buffer.drop (room buffer.length v.offset))) (locked i f .exclusive) lin w') :
    (writeIteration i f buffer).Meets (regions s₀) c (locked i f .exclusive) lin w Q := by
  have hpos := List.length_pos_iff.mpr hne
  obtain ⟨hcur, hchunk⟩ := chunk_getCurrentOffset buffer.length v.offset (by omega)
  have hroom := room_pos hpos v.offset
  have hle : room buffer.length v.offset ≤ buffer.length := Nat.min_le_left ..
  have htake : (buffer.take (room buffer.length v.offset)).length = room buffer.length v.offset :=
    List.length_take_of_le hle
  have hblock : v.offset % blockSize + room buffer.length v.offset ≤ blockSize := by
    simp only [room, blockSize]
    omega
  generalize hn : room buffer.length v.offset = n at *
  refine Prog.Meets.bind (meets_getCurrentDataBlock hk hi (by omega) (fun _ => rfl) fun slots b w₁ hk₁ hb₁ => ?_)
  refine Prog.meets_get fun w₂ hr₂ _ => ?_
  have hk₂ := hk₁.rely hr₂
  have hb₂ := hb₁.rely hr₂
  rw [hk₂.offset, show (v.withSlots slots).offset = v.offset from rfl, hcur, hchunk]
  refine meets_change (fun w₃ hr₃ => And.intro (hk₂.rely hr₃) (hb₂.rely hr₃)) fun w₃ hw₃ hs₃ => ?_
  obtain ⟨hk₃, hb₃⟩ := hw₃
  rw [← htake] at hblock hroom
  have hfit : v.offset + (buffer.take n).length ≤ maxFileSize := by omega
  have hgrow : v.size + (buffer.take n).length < 2 ^ 64 := by omega
  obtain ⟨hk₄, hs₄, ho₄⟩ := hk₃.write hs₃ hi hb₃ hblock hoff hfit hroom hgrow
  have hlt := hk₃.lt b hb₃.owned
  have hstore : w₃.state.toDisk.store (b * blockSize + v.offset % blockSize) (buffer.take n) =
      some { w₃.state.toDisk with
        fsData := w₃.state.fsData.store (b * blockSize + v.offset % blockSize) (buffer.take n) } := by
    rw [Disk.store, if_pos]
    simp only [blockSize, fsDataSize, dataBlocks] at hblock hlt ⊢
    omega
  refine ⟨(), _, by rw [hstore]; rfl, hs₄, ho₄, ?_⟩
  exact Prog.meets_pure fun w₅ hr₅ => h slots w₅ (hk₄.rely hr₅)

/-- An iteration of the loop of `tfs_read`: how many bytes are left, and those copied. -/
def readIteration (inode file toRead : Nat) : Program (Option (Nat × List UInt8)) := do
  let currentOffset ← Prog.get fun s => getCurrentOffset (s.openFileTable file).ofOffset
  match ← getCurrentDataBlock inode file with
  | none => return none
  | some block =>
    let n := chunk toRead currentOffset
    let bytes ← readChunk file block currentOffset n
    return some (toRead - n, bytes)

theorem readLoop_succ (inode file fuel : Nat) {toRead : Nat} (h : toRead ≠ 0) (bytesRead : List UInt8) :
    readLoop inode file (fuel + 1) toRead bytesRead = readIteration inode file toRead >>= fun
      | none => pure (false, bytesRead)
      | some (left, bytes) => readLoop inode file fuel left (bytesRead ++ bytes) := by
  rw [readLoop, if_neg h, readIteration, Prog.bind_assoc]
  congr 1
  funext o
  rw [Prog.bind_assoc]
  congr 1
  funext r
  cases r <;> rfl

theorem meets_readIteration {Q : Option (Nat × List UInt8) → List (Lock × Mode) → Option Out → FsWorld → Prop}
    {toRead : Nat} (hk : Knows i f v w) (hi : i ≠ 0) (hpos : 0 < toRead) (hlen : v.offset + toRead ≤ v.bytes.length)
    (h : ∀ slots w', Knows i f ((v.withSlots slots).read (room toRead v.offset)) w' →
      Q (some (toRead - room toRead v.offset, (v.bytes.drop v.offset).take (room toRead v.offset)))
        (locked i f m) lin w') :
    (readIteration i f toRead).Meets (regions s₀) c (locked i f m) lin w Q := by
  have hshort := hk.short
  obtain ⟨hcur, hchunk⟩ := chunk_getCurrentOffset toRead v.offset (by omega)
  have hroom := room_pos hpos v.offset
  have hle : room toRead v.offset ≤ toRead := Nat.min_le_left ..
  have hblock : v.offset % blockSize + room toRead v.offset ≤ blockSize := by
    simp only [room, blockSize]
    omega
  generalize room toRead v.offset = n at *
  refine Prog.meets_get fun w₁ hr₁ _ => ?_
  have hk₁ := hk.rely hr₁
  rw [hk₁.offset, hcur]
  have hlt : v.offset / blockSize * blockSize < v.bytes.length :=
    lt_of_le_of_lt (Nat.div_mul_le_self ..) (by omega)
  have hslot : v.slots (dataSlot (v.offset / blockSize)) ≠ -1 := by
    rw [← hk.slot _ (hk.dataSlot_exists hlt)]
    exact hk.allocated _ hlt
  refine Prog.Meets.bind (meets_getCurrentDataBlock hk₁ hi (by omega) (fun hno => absurd hno hslot)
    fun slots b w₂ hk₂ hb₂ => ?_)
  rw [hchunk]
  refine Prog.meets_atomic fun w₃ hr₃ hs₃ _ => ?_
  have hk₃ := hk₂.rely hr₃
  have hb₃ := hb₂.rely hr₃
  obtain ⟨hload, hk₄⟩ := hk₃.read hb₃ hblock (le_trans (Nat.add_le_add_left hle _) hlen) hroom
  have hload : w₃.state.fsData.load (b * blockSize + v.offset % blockSize) n = (v.bytes.drop v.offset).take n := hload
  have hblt := hk₃.lt b hb₃.owned
  have hfit : b * blockSize + v.offset % blockSize + n ≤ fsDataSize := by
    simp only [blockSize, fsDataSize, dataBlocks] at hblock hblt ⊢
    omega
  refine ⟨(v.bytes.drop v.offset).take n, ⟨w₃.state.setFiles (w₃.state.toOpenFiles.setOffset f
    (szAdd (w₃.state.openFileTable f).ofOffset n)), w₃.ghost, w₃.abs⟩, ?_, ?_, ?_, rfl,
    Prog.meets_pure fun w₄ hr₄ => h slots w₄ (hk₄.rely hr₄)⟩
  · rw [Disk.load, if_pos hfit, Option.map_some, hload]
  · exact hs₃.setState (.setOffset f _) rfl
  · rintro (_ | _ | _ | g | j) hl
    · trivial
    · trivial
    · trivial
    · refine ⟨?_, rfl⟩
      have hne : g ≠ f := fun he => hl (by simp [locked, he])
      simp [OpenFiles.setOffset_table, hne]
    · exact ⟨rfl, fun _ => Iff.rfl, fun _ _ _ _ => rfl, rfl⟩

theorem View.write_nil (v : View) : v.write [] = v := by simp [View.write, overwrite_nil]

theorem View.write_append (v : View) (slots slots' : Slot → Int) (h : v.offset ≤ v.bytes.length) (a b : List UInt8) :
    (((v.withSlots slots).write a).withSlots slots').write b = (v.withSlots slots').write (a ++ b) := by
  simp [View.write, View.withSlots, overwrite_append h, Nat.add_assoc]

theorem meets_writeLoop {Q : Bool → List (Lock × Mode) → Option Out → FsWorld → Prop} {fuel : Nat}
    {buffer : List UInt8} (hfuel : buffer.length ≤ fuel) (hk : Knows i f v w) (hi : i ≠ 0)
    (hoff : v.offset ≤ v.bytes.length) (hmax : v.offset + buffer.length ≤ maxFileSize)
    (hsize : v.size + buffer.length < 2 ^ 64)
    (h : ∀ slots w', Knows i f ((v.withSlots slots).write buffer) w' → Q true (locked i f .exclusive) lin w') :
    (writeLoop i f fuel buffer).Meets (regions s₀) c (locked i f .exclusive) lin w Q := by
  induction fuel generalizing v w buffer with
  | zero =>
    obtain rfl := List.length_eq_zero_iff.mp (Nat.le_zero.mp hfuel)
    exact Prog.meets_pure fun w' hr => h v.slots w' (by rw [View.write_nil]; exact hk.rely hr)
  | succ fuel ih =>
    by_cases hne : buffer = []
    · subst hne
      rw [writeLoop, if_pos rfl]
      exact Prog.meets_pure fun w' hr => h v.slots w' (by rw [View.write_nil]; exact hk.rely hr)
    · rw [writeLoop_succ _ _ _ hne]
      refine Prog.Meets.bind (meets_writeIteration hk hi hne hoff hmax hsize fun slots w₁ hk₁ => ?_)
      have hroom := room_pos (List.length_pos_iff.mpr hne) v.offset
      have hle : room buffer.length v.offset ≤ buffer.length := Nat.min_le_left ..
      generalize room buffer.length v.offset = n at *
      have htake : (buffer.take n).length = n := List.length_take_of_le hle
      have hdrop : (buffer.drop n).length = buffer.length - n := List.length_drop ..
      refine ih (by omega) hk₁ ?_ ?_ ?_ fun slots' w₂ hk₂ => h slots' w₂ ?_
      · simp only [View.write, View.withSlots, length_overwrite hoff]
        exact Nat.le_max_right ..
      · simp only [View.write, View.withSlots, htake, hdrop]
        omega
      · simp only [View.write, View.withSlots, htake, hdrop]
        omega
      · rwa [View.write_append _ _ _ hoff, List.take_append_drop] at hk₂

theorem meets_readLoop {Q : Bool × List UInt8 → List (Lock × Mode) → Option Out → FsWorld → Prop} {fuel toRead : Nat}
    (hfuel : toRead ≤ fuel) (hk : Knows i f v w) (hi : i ≠ 0) (hlen : v.offset + toRead ≤ v.bytes.length)
    (bytesRead : List UInt8)
    (h : ∀ slots w', Knows i f ((v.withSlots slots).read toRead) w' →
      Q (true, bytesRead ++ (v.bytes.drop v.offset).take toRead) (locked i f m) lin w') :
    (readLoop i f fuel toRead bytesRead).Meets (regions s₀) c (locked i f m) lin w Q := by
  induction fuel generalizing v w toRead bytesRead with
  | zero =>
    obtain rfl := Nat.le_zero.mp hfuel
    refine Prog.meets_pure fun w' hr => ?_
    have hQ := h v.slots w' (hk.rely hr)
    rwa [List.take_zero, List.append_nil] at hQ
  | succ fuel ih =>
    by_cases hz : toRead = 0
    · subst hz
      rw [readLoop, if_pos rfl]
      refine Prog.meets_pure fun w' hr => ?_
      have hQ := h v.slots w' (hk.rely hr)
      rwa [List.take_zero, List.append_nil] at hQ
    · rw [readLoop_succ _ _ _ hz]
      refine Prog.Meets.bind (meets_readIteration hk hi (by omega) hlen fun slots w₁ hk₁ => ?_)
      have hroom := room_pos (Nat.pos_of_ne_zero hz) v.offset
      have hle : room toRead v.offset ≤ toRead := Nat.min_le_left ..
      generalize room toRead v.offset = n at *
      refine ih (by omega) hk₁ ?_ _ fun slots' w₂ hk₂ => ?_
      · simp only [View.read, View.withSlots]
        omega
      · have hview : ((((v.withSlots slots).read n).withSlots slots').read (toRead - n)) =
            (v.withSlots slots').read toRead := by
          simp only [View.read, View.withSlots, Nat.add_assoc, Nat.add_sub_cancel' hle]
        rw [hview] at hk₂
        have hbytes : (v.bytes.drop v.offset).take n ++ (v.bytes.drop (v.offset + n)).take (toRead - n) =
            (v.bytes.drop v.offset).take toRead := by
          rw [← List.drop_drop, ← List.take_add, Nat.add_sub_cancel' hle]
        have hQ := h slots' w₂ hk₂
        rwa [← hbytes, ← List.append_assoc] at hQ

structure OnFile (s₀ : State) (f i : Nat) : Prop where
  lt : f < maxOpenFiles
  taken : s₀.freeOpenFileEntries f = .taken
  inumber : (s₀.openFileTable f).ofInumber = i
  isFile : s₀.IsFile i
  ne_zero : i ≠ 0

theorem OnFile.fileOf (h : OnFile s₀ f i) : s₀.fileOf f = i := by rw [State.fileOf, h.inumber, Int.toNat_natCast]

def HandleOk (f i : Nat) (w : FsWorld) : Prop := w.abs.handles f = some (i, (w.state.openFileTable f).ofOffset)

theorem HandleOk.same (h : HandleOk f i w) (hw : SameHandle f w w') : HandleOk f i w' := by
  rw [HandleOk, hw.handle, hw.entry, h]

theorem meets_lockFile (hf : OnFile s₀ f i) {e : Program β} {k : Nat → Program β}
    (h : ∀ w', HandleOk f i w' → FileOk i w' → (k i).Meets (regions s₀) c (locked i f m) lin w' Q) :
    (do
      mutexLock .openFileTable
      mutexLock (.file f)
      unlock .openFileTable
      mutexLock .inodeTable
      let inumber ← Prog.get fun s => (s.openFileTable f).ofInumber
      match inodeGet inumber with
      | none => e
      | some inode =>
        Prog.acquire (.rwl inode) m
        unlock .inodeTable
        k inode).Meets (regions s₀) c [] lin w Q := by
  refine Prog.meets_acquire (by simp) fun w₁ _ _ _ => ?_
  refine Prog.meets_acquire (by simp) fun w₂ _ _ hh₂ => ?_
  have hh₂ : HandleOk f i w₂ := by
    rw [HandleOk, hh₂ hf.lt hf.taken, hf.fileOf]
  refine Prog.meets_release (by simp) fun w₃ hr₃ _ => ⟨trivial, ?_⟩
  have hh₃ := hh₂.same (hr₃ (.file f, .exclusive) (by simp))
  rw [show giveBack [(Lock.file f, Mode.exclusive), (.openFileTable, .exclusive)] .openFileTable =
    [(.file f, .exclusive)] by simp [giveBack]]
  refine Prog.meets_acquire (by simp) fun w₄ hr₄ _ _ => ?_
  have hh₄ := hh₃.same (hr₄ (.file f, .exclusive) (by simp))
  refine Prog.meets_get fun w₅ hr₅ hs₅ => ?_
  have hh₅ := hh₄.same (hr₅ (.file f, .exclusive) (by simp))
  rw [hs₅.kept.inumber, hf.inumber, inodeGet_natCast hf.isFile.1]
  refine Prog.meets_acquire (by simp) fun w₆ hr₆ _ hi₆ => ?_
  have hh₆ := hh₅.same (hr₆ (.file f, .exclusive) (by simp))
  have hi₆ : FileOk i w₆ := hi₆ hf.isFile
  refine Prog.meets_release (by simp) fun w₇ hr₇ _ => ⟨trivial, ?_⟩
  rw [show giveBack [(Lock.rwl i, m), (.inodeTable, .exclusive), (.file f, .exclusive)] .inodeTable = locked i f m by
    simp [giveBack, locked]]
  exact h w₇ (hh₆.same (hr₇ (.file f, .exclusive) (by simp))) (hi₆.same (hr₇ (.rwl i, m) (by simp)))

theorem meets_unlockFile (hf : OnFile s₀ f i) {k : Program β} (hh : HandleOk f i w) (ho : FileOk i w)
    (h : ∀ w', k.Meets (regions s₀) c [] lin w' Q) :
    (do
      unlock (.file f)
      unlock (.rwl i)
      k).Meets (regions s₀) c (locked i f m) lin w Q := by
  refine Prog.meets_release (by simp [locked]) fun w₁ hr₁ _ => ⟨fun _ _ => ?_, ?_⟩
  · rw [hf.fileOf]
    exact hh.same (hr₁ (.file f, .exclusive) (by simp [locked]))
  have ho₁ := ho.same (hr₁ (.rwl i, m) (by simp [locked]))
  rw [show giveBack (locked i f m) (.file f) = [(.rwl i, m)] by simp [giveBack, locked]]
  refine Prog.meets_release (by simp) fun w₂ hr₂ _ => ⟨fun _ => ho₁.same (hr₂ (.rwl i, m) (by simp)), ?_⟩
  rw [show giveBack [(Lock.rwl i, m)] (.rwl i) = [] by simp [giveBack]]
  exact h w₂

def FsWorld.view (w : FsWorld) (i f : Nat) (contents : List UInt8) (handle : Option (Nat × Nat)) : View where
  bytes := w.abs.contents i
  offset := (w.state.openFileTable f).ofOffset
  size := (w.state.inodeTable i).iSize
  slots := w.state.slot i
  contents := contents
  handle := handle

theorem FileOk.knows (h : FileOk i w) {fs : ByteFs Nat} :
    Knows i f (FsWorld.view w i f (fs.contents i) (fs.handles f)) { w with abs := fs } where
  toFileHolds := ⟨h.lt, h.owns, h.allocated, h.stored, h.short⟩
  slot _ _ := rfl
  offset := rfl
  size := rfl
  contents := rfl
  handle := rfl

theorem Knows.fileOk (h : Knows i f v w) (hc : v.contents = v.bytes) (hs : v.size = v.bytes.length) : FileOk i w where
  toFileHolds := by
    rw [h.contents, hc]
    exact h.toFileHolds
  size := by rw [h.size, h.contents, hc, hs]

theorem Knows.handleOk (h : Knows i f v w) (hv : v.handle = some (i, v.offset)) : HandleOk f i w := by
  rw [HandleOk, h.handle, h.offset, hv]

theorem Knows.setSize (h : Knows i f v w) (hs : Sound s₀ w) (hi : i ≠ 0) (n : Nat) :
    let s := w.state.setInode i { w.state.inodeTable i with iSize := n }
    Knows i f { v with size := n } { w with state := s } ∧ Sound s₀ { w with state := s } ∧
      OnlyFile i f w { w with state := s } := by
  have hslot : ∀ k, (w.state.setInode i { w.state.inodeTable i with iSize := n }).slot i k = w.state.slot i k := by
    intro k
    cases k <;> simp [State.slot, State.setInode_inodeTable]
  refine ⟨?_, hs.setState (.setInode hi rfl) rfl, fun j hj => sameFile_setInode hj _, fun _ _ => ⟨rfl, rfl⟩⟩
  exact {
    toFileHolds := h.toFileHolds.congr h.lt (h.owns.congr (fun _ => id) fun k _ => hslot k) (fun k _ => hslot _)
      fun _ _ _ _ _ _ _ => rfl
    slot := fun k hk => (hslot k).trans (h.slot k hk)
    offset := h.offset
    size := by simp [State.setInode_inodeTable]
    contents := h.contents
    handle := h.handle }

theorem sameFile_abs {fs : ByteFs Nat} {j : Nat} (h : fs.contents j = w.abs.contents j) :
    SameFile j w { w with abs := fs } := ⟨rfl, fun _ => Iff.rfl, fun _ _ _ _ => rfl, h⟩

theorem Sound.effect (hs : Sound s₀ w) (hf : OnFile s₀ f i) {bytes : List UInt8} {o : Nat}
    (hlen : (w.abs.contents i).length ≤ bytes.length) (ho : o ≤ bytes.length) :
    Sound s₀ { w with abs := (w.abs.setContents i bytes).setHandle f (some (i, o)) } where
  kept := hs.kept
  taken := hs.taken
  root := hs.root
  handles g hg ht := by
    have hcontents : ∀ j, (w.abs.contents j).length ≤
        (((w.abs.setContents i bytes).setHandle f (some (i, o))).contents j).length := by
      intro j
      by_cases hj : j = i
      · subst hj
        simpa [ByteFs.setHandle, ByteFs.setContents] using hlen
      · simp [ByteFs.setHandle, ByteFs.setContents, hj]
    by_cases hgf : g = f
    · subst hgf
      rw [hf.fileOf]
      exact ⟨o, by simp [ByteFs.setHandle], by simpa [ByteFs.setHandle, ByteFs.setContents] using ho⟩
    · obtain ⟨o', hh, hle⟩ := hs.handles g hg ht
      exact ⟨o', by simpa [ByteFs.setHandle, ByteFs.setContents, hgf] using hh, hle.trans (hcontents _)⟩

theorem Sound.offset_le (hs : Sound s₀ w) (hf : OnFile s₀ f i) (hh : HandleOk f i w) :
    (w.state.openFileTable f).ofOffset ≤ (w.abs.contents i).length := by
  obtain ⟨o, ho, hle⟩ := hs.handles f hf.lt hf.taken
  rw [hf.fileOf] at ho hle
  cases (Option.some.inj (hh.symm.trans ho))
  exact hle

theorem guar_effect {bytes : List UInt8} {x : Option (Nat × Nat)} (hm : bytes = w.abs.contents i ∨ m = .exclusive) :
    (regions s₀).Guar (locked i f m) w { w with abs := (w.abs.setContents i bytes).setHandle f x }
  | .rwl j, hl => by
    refine sameFile_abs ?_
    by_cases hj : j = i
    · subst hj
      have hm : bytes = w.abs.contents j := hm.resolve_right fun he => hl (by simp [locked, he])
      simp [ByteFs.setHandle, ByteFs.setContents, hm]
    · simp [ByteFs.setHandle, ByteFs.setContents, hj]
  | .file g, hl => by
    have hg : g ≠ f := fun he => hl (by simp [locked, he])
    exact ⟨rfl, by simp [ByteFs.setHandle, ByteFs.setContents, hg]⟩
  | .inodeTable, _ | .openFileTable, _ | .blockTable, _ => trivial

theorem meets_fixSize {k : Unit → Program β} {o size n : Nat} (hk : Knows i f v w) (hi : i ≠ 0)
    (hv : v.size = size + n) (hn : n + o < 2 ^ 64)
    (h : ∀ w', Knows i f { v with size := max size (o + n) } w' →
      (k ()).Meets (regions s₀) c (locked i f .exclusive) lin w' Q) :
    (fixSize i o size n >>= k).Meets (regions s₀) c (locked i f .exclusive) lin w Q := by
  refine meets_change (fun w₁ hr₁ => hk.rely hr₁) fun w₁ hk₁ hs₁ => ?_
  by_cases ho : o = size
  · have hsize : max size (o + n) = v.size := by omega
    rw [hsize] at h
    exact ⟨(), w₁.state, by simp [ho], hs₁, ⟨fun _ _ => .refl, fun _ _ => .refl⟩, h w₁ hk₁⟩
  · have hsize : (if szAdd n o > size then szAdd n o else size) = max size (o + n) := by
      rw [szAdd_of_lt hn]
      split <;> omega
    obtain ⟨hk₂, hs₂, ho₂⟩ := hk₁.setSize hs₁ hi (max size (o + n))
    exact ⟨(), _, by simp only [if_pos ho, hsize], hs₂, ho₂, h _ hk₂⟩

theorem write_implements (hf : OnFile s₀ f i) (buffer : List UInt8) :
    (regions s₀).Implements (.write f buffer) (body (.write f buffer)) := by
  intro w
  refine Prog.Meets.bind ?_
  simp only [tfsWrite, getOpenFileEntry_natCast hf.lt]
  refine meets_lockFile hf fun w₁ hh₁ ho₁ => ?_
  refine Prog.meets_effect fun w₂ hr₂ hs₂ hall => ?_
  have hh₂ : HandleOk f i w₂ := hh₁.same (hr₂ (.file f, .exclusive) (by simp [locked]))
  have ho₂ : FileOk i w₂ := ho₁.same (hr₂ (.rwl i, .exclusive) (by simp [locked]))
  have hmax : (w₂.state.openFileTable f).ofOffset + buffer.length ≤ maxFileSize := hall _ rfl
  have hoff := hs₂.offset_le hf hh₂
  have hbound : maxFileSize < 2 ^ 62 := by decide
  have hshort := ho₂.short
  -- the call takes effect here; the loop makes the blocks follow
  let fs := (w₂.abs.setContents i (overwrite (w₂.abs.contents i) (w₂.state.openFileTable f).ofOffset buffer)).setHandle f
    (some (i, (w₂.state.openFileTable f).ofOffset + buffer.length))
  have hlen : (overwrite (w₂.abs.contents i) (w₂.state.openFileTable f).ofOffset buffer).length = _ := length_overwrite hoff
  have hk₂ : Knows i f (FsWorld.view w₂ i f (fs.contents i) (fs.handles f)) { w₂ with abs := fs } := ho₂.knows
  refine ⟨_, { w₂ with abs := fs }, ⟨buffer.length, []⟩, rfl,
    hs₂.effect hf (by rw [hlen]; exact Nat.le_max_left ..) (by rw [hlen]; exact Nat.le_max_right ..),
    guar_effect (.inr rfl), ?_, ?_⟩
  · have hh₂ : w₂.abs.handles f = _ := hh₂
    simp only [regions, ByteFs.transfer, ByteFs.write, Int.toNat_natCast, hh₂, Limits.clip, limits]
    rfl
  refine Prog.Meets.bind (meets_writeLoop le_rfl hk₂ hf.ne_zero hoff hmax ?_ fun slots w₃ hk₃ => ?_)
  · change (w₂.state.inodeTable i).iSize + buffer.length < 2 ^ 64
    rw [ho₂.size]
    omega
  rw [if_pos rfl]
  refine meets_fixSize hk₃ hf.ne_zero rfl (by omega) fun w₄ hk₄ => ?_
  refine meets_unlockFile hf (hk₄.handleOk ?_) (hk₄.fileOk ?_ ?_) fun w₅ => Prog.meets_pure fun w₆ _ =>
    Prog.meets_pure fun w₇ _ => ⟨rfl, rfl⟩
  · simp [fs, View.write, View.withSlots, FsWorld.view, ByteFs.setHandle]
  · simp [fs, View.write, View.withSlots, FsWorld.view, ByteFs.setHandle, ByteFs.setContents]
  · have hbytes : ((((FsWorld.view w₂ i f (fs.contents i) (fs.handles f)).withSlots slots).write buffer).bytes).length =
      max (w₂.abs.contents i).length ((w₂.state.openFileTable f).ofOffset + buffer.length) := hlen
    rw [hbytes, ho₂.size]

theorem read_implements (hf : OnFile s₀ f i) (len : Nat) :
    (regions s₀).Implements (.read f len) (body (.read f len)) := by
  intro w
  simp only [body, tfsRead, getOpenFileEntry_natCast hf.lt]
  refine meets_lockFile hf fun w₁ hh₁ ho₁ => ?_
  refine Prog.meets_effect fun w₂ hr₂ hs₂ _ => ?_
  have hh₂ : HandleOk f i w₂ := hh₁.same (hr₂ (.file f, .exclusive) (by simp [locked]))
  have ho₂ : FileOk i w₂ := ho₁.same (hr₂ (.rwl i, .shared) (by simp [locked]))
  have hoff := hs₂.offset_le hf hh₂
  have hbound : maxFileSize < 2 ^ 62 := by decide
  have hshort := ho₂.short
  have havail : szSub (w₂.state.inodeTable i).iSize (w₂.state.openFileTable f).ofOffset =
      (w₂.abs.contents i).length - (w₂.state.openFileTable f).ofOffset := by
    rw [ho₂.size]
    exact szSub_of_le hoff (by omega)
  have hread : (if (w₂.abs.contents i).length - (w₂.state.openFileTable f).ofOffset > len then len
      else (w₂.abs.contents i).length - (w₂.state.openFileTable f).ofOffset) =
        min len ((w₂.abs.contents i).length - (w₂.state.openFileTable f).ofOffset) := by
    split <;> omega
  generalize hn : min len ((w₂.abs.contents i).length - (w₂.state.openFileTable f).ofOffset) = n at hread
  have hle : (w₂.state.openFileTable f).ofOffset + n ≤ (w₂.abs.contents i).length := by omega
  have htake : ((w₂.abs.contents i).drop (w₂.state.openFileTable f).ofOffset).take len =
      ((w₂.abs.contents i).drop (w₂.state.openFileTable f).ofOffset).take n := by
    rw [← hn, ← List.length_drop, List.take_eq_take_min]
  -- the call takes effect here; the loop moves the offset
  let fs := (w₂.abs.setContents i (w₂.abs.contents i)).setHandle f (some (i, (w₂.state.openFileTable f).ofOffset + n))
  have hk₂ : Knows i f (FsWorld.view w₂ i f (fs.contents i) (fs.handles f)) { w₂ with abs := fs } := ho₂.knows
  refine ⟨szSub (w₂.state.inodeTable i).iSize (w₂.state.openFileTable f).ofOffset, { w₂ with abs := fs },
    ⟨n, ((w₂.abs.contents i).drop (w₂.state.openFileTable f).ofOffset).take n⟩, rfl, hs₂.effect hf le_rfl hle,
    guar_effect (.inl rfl), ?_, ?_⟩
  · have hh₂ : w₂.abs.handles f = _ := hh₂
    have hlen : (((w₂.abs.contents i).drop (w₂.state.openFileTable f).ofOffset).take n).length = n :=
      List.length_take_of_le (by rw [List.length_drop]; omega)
    simp only [regions, ByteFs.transfer, ByteFs.read, Int.toNat_natCast, hh₂, htake, hlen, fs, ByteFs.setContents_self]
  rw [havail, hread]
  refine Prog.Meets.bind (meets_readLoop le_rfl hk₂ hf.ne_zero hle [] fun slots w₃ hk₃ => ?_)
  rw [if_pos rfl]
  refine meets_unlockFile hf (hk₃.handleOk ?_) (hk₃.fileOk ?_ ho₂.size) fun w₅ => Prog.meets_pure fun w₆ _ => ⟨rfl, rfl⟩
  · simp [fs, View.read, View.withSlots, FsWorld.view, ByteFs.setHandle]
  · simp [fs, View.read, View.withSlots, FsWorld.view, ByteFs.setHandle, ByteFs.setContents]

end Tecnicofs.Ex1
