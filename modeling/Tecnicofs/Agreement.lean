import Mathlib.Algebra.Order.BigOperators.Group.List
import Mathlib.Algebra.Order.Ring.Nat
import Tecnicofs.Ex1.Capacity
import Tecnicofs.Ex2.Refinement

namespace Tecnicofs

open Bytes

/-- Names start with a slash and fit in their field, handles are open, a write stays within the first block of its file,
and no handle is on a file that is truncated. -/
def FitsOneBlock (fs : ByteFs (List UInt8)) : Call → Prop
  | .open name flags =>
    (∃ p ∈ name, p.char 0 = 47 ∧ p.strlen ≤ maxFileName) ∧
      (hasFlag flags tfsOTrunc = true → ∀ n ∈ fileName name, ∀ h < maxOpenFiles, ∀ x ∈ fs.handles h, x.1 ≠ n)
  | .close fhandle | .read fhandle _ => Ex1.HandleOpen fs fhandle
  | .write fhandle buffer =>
    Ex1.HandleOpen fs fhandle ∧ ∀ x ∈ fs.handles fhandle.toNat, x.2 + buffer.length ≤ blockSize

instance (fs : ByteFs (List UInt8)) : ∀ c, Decidable (FitsOneBlock fs c)
  | .open _ _ => inferInstanceAs (Decidable (_ ∧ (_ → ∀ n ∈ _, ∀ h < _, ∀ x ∈ _, _)))
  | .close _ | .read _ _ => inferInstanceAs (Decidable (Ex1.HandleOpen _ _))
  | .write _ _ => inferInstanceAs (Decidable (_ ∧ ∀ x ∈ _, _))

variable {fs : ByteFs (List UInt8)} {es : List DirEntry} {c : Call}

theorem FitsOneBlock.call_eq (h : FitsOneBlock fs c) : fs.call Ex2.limits c = fs.call Ex1.limits c := by
  cases c with
  | «open» | close | read => rfl
  | write fhandle buffer =>
    obtain ⟨⟨-, hne⟩, hfits⟩ := h
    obtain ⟨x, hx⟩ := Option.ne_none_iff_exists'.mp hne
    have hclip : Ex2.limits.clip x.2 buffer = Ex1.limits.clip x.2 buffer :=
      List.take_of_length_le (Nat.le_sub_of_add_le (by rw [Nat.add_comm]; exact hfits x hx))
    simp only [ByteFs.call, ByteFs.write, hx, hclip]

namespace Ex2

variable {s : State}

theorem Refines.isOpen (r : Refines es s fs) {fhandle : Int} (h : Ex1.HandleOpen fs fhandle) :
    s.toOpenFiles.IsOpen fhandle := by
  obtain ⟨hv, hne⟩ := h
  refine ⟨hv, ?_⟩
  have hlt : fhandle.toNat < maxOpenFiles := by
    simp only [validFileHandle, validIndex] at hv
    omega
  cases hc : s.freeOpenFileEntries fhandle.toNat with
  | taken => rfl
  | free => exact absurd (r.represents.free _ hlt hc) hne

theorem Refines.lookup_name (r : Refines es s fs) {p : CString} {i : Nat} (hi : i < es.length)
    (hl : tfsLookupUnsynchronized s (some p) = (i + 1 : Nat)) : fileName (some p) = some es[i].name := by
  rw [r.wf.lookup] at hl
  cases hs : skipSlash (some p) with
  | none =>
    rw [hs] at hl
    simp only at hl
    omega
  | some subName =>
    obtain rfl : p.tail = subName := by
      rw [skipSlash] at hs
      split at hs
      · cases hs
      · exact Option.some.inj hs
    rw [hs] at hl
    simp only at hl
    split at hl
    · next hv =>
      rcases r.wf.lookupEntry_cases p.tail with ⟨k, hk, hn, he⟩ | ⟨-, he⟩
      · obtain rfl : k = i := by omega
        rw [Ex1.Simulates.fileName_of_valid hv, hn]
      · omega
    · omega

theorem Refines.admissible (r : Refines es s fs) (h : FitsOneBlock fs c) : Admissible s c := by
  cases c with
  | «open» name flags =>
    obtain ⟨hname, hno⟩ := h
    refine ⟨hname, fun ht f hf htaken he => ?_⟩
    obtain ⟨p, rfl, -⟩ := hname
    obtain ⟨i, hi, hin, -, hhandle⟩ := r.represents.handle f hf htaken
    exact hno ht _ (r.lookup_name hi (he.symm.trans hin)) f hf _ hhandle rfl
  | close fhandle => exact r.isOpen h
  | write fhandle buffer =>
    have hopen := r.isOpen h.1
    refine ⟨hopen, ?_⟩
    obtain ⟨f, hf, rfl, ht⟩ := hopen.exists
    obtain ⟨i, hi, -, -, hhandle⟩ := r.represents.handle f hf ht
    have hfits := h.2 _ (by rw [Int.toNat_natCast]; exact hhandle)
    rw [Int.toNat_natCast]
    simp only [blockSize] at hfits
    omega
  | read fhandle len => exact r.isOpen h

theorem Refines.short (r : Refines es s fs) {n : List UInt8} (hn : n ∈ fs.names) : (fs.contents n).length ≤ blockSize := by
  obtain ⟨e, he, rfl⟩ := r.represents.mem_names.mp hn
  obtain ⟨i, hi, rfl⟩ := List.getElem_of_mem he
  rw [r.represents.contents i hi, length_fileBytes]
  exact r.wf.size (i + 1) hi

end Ex2

namespace Ex1

variable {owner : Owner} {s : State} {t : Ex2.State} {es' : List DirEntry}

theorem blocksStored_le (h : ∀ n ∈ fs.names, (fs.contents n).length ≤ blockSize) :
    blocksStored fs ≤ fs.names.length := by
  have hone : ∀ x ∈ fs.names.map fun n => blocksUsed (fs.contents n).length, x ≤ 1 := fun x hx => by
    obtain ⟨n, hn, rfl⟩ := List.mem_map.mp hx
    have hlen := h n hn
    have hblocks : blocksFor (fs.contents n).length ≤ 1 := by
      simp only [blocksFor, blockSize] at hlen ⊢
      omega
    have hfew : ¬ indirectAccessBlock < blocksFor (fs.contents n).length := by
      simp only [indirectAccessBlock]
      omega
    rwa [blocksUsed, if_neg hfew]
  have hsum := List.sum_le_card_nsmul _ 1 hone
  rwa [List.length_map, nsmul_one, Nat.cast_id] at hsum

theorem Packed.affordable (p : Packed es owner s fs) (r : Ex2.Refines es' t fs) (h : FitsOneBlock fs c) :
    Affordable fs c := by
  cases c with
  | «open» name flags =>
    obtain ⟨⟨path, rfl, -, hlen⟩, hno⟩ := h
    refine ⟨fun q hq => ?_, fun ht n hn hmem =>
      ⟨(r.short hmem).trans (by decide), fun f hf x hx he => absurd he (hno ht n hn f hf x hx)⟩⟩
    cases hq
    simp only [Fits, CString.strlen, CString.tail, List.length_tail, maxFileName] at hlen ⊢
    omega
  | close fhandle => exact h
  | write fhandle buffer =>
    have hopen := p.isOpen h.1
    obtain ⟨f, hf, rfl, ht⟩ := hopen.exists
    obtain ⟨k, hk, hon, hhandle⟩ := p.onFile hf ht
    refine ⟨h.1, fun x hx => ?_⟩
    have hfits := h.2 x hx
    rw [Int.toNat_natCast, hhandle] at hx
    obtain rfl := Option.some.inj hx
    have hoff := p.settled.offsets f hf ht
    rw [hon.fileOf, ← p.length_contents hk] at hoff
    have hone : blockSize ≤ maxFileSize := by decide
    refine ⟨hfits.trans hone, (blocksStored_le fun n hn => ?_).trans_lt ?_⟩
    · change (Function.update fs.contents es[k].name _ n).length ≤ blockSize
      by_cases hnk : n = es[k].name
      · subst hnk
        rw [Function.update_self, length_overwrite hoff]
        exact max_le (r.short hn) hfits
      · rw [Function.update_of_ne hnk]
        exact r.short hn
    · have hmax := p.listed.dir.length_le
      rw [← p.length_names] at hmax
      exact hmax.trans_lt (by decide)
  | read fhandle len => exact h

end Ex1

structure Agree (fs : ByteFs (List UInt8)) (s : Ex1.State) (t : Ex2.State) : Prop where
  packed : ∃ es owner, Ex1.Packed es owner s fs
  refines : ∃ es, Ex2.Refines es t fs

theorem Agree.call {s : Ex1.State} {t : Ex2.State} (h : Agree fs s t) (hc : FitsOneBlock fs c) :
    ∃ o fs' s' t', fs.call Ex1.limits c = some (o, fs') ∧ s.call c = some (o, s') ∧ t.call c = some (o, t') ∧
      Agree fs' s' t' := by
  obtain ⟨⟨es, owner, p⟩, es', r⟩ := h
  obtain ⟨o, s', fs', hs, hfs, hp⟩ := p.call (p.affordable r hc)
  obtain ⟨o', t', fs'', ht, hfs', hr⟩ := r.call (r.admissible hc)
  rw [hc.call_eq, hfs] at hfs'
  obtain ⟨rfl, rfl⟩ := Prod.mk.inj (Option.some.inj hfs')
  exact ⟨o, fs', s', t', hfs, hs, ht, hp, hr⟩

/-- Every run of such calls, whose locks the first project grants, is answered alike by the two, whatever is in the memory
of the first before `tfs_init`. -/
theorem projects_agree (s₀ : Ex1.State) :
    ∃ s, Ex1.tfsInit s₀ = some (0, s) ∧ ∀ cs, Runs.Along (ByteFs.call Ex1.limits) FitsOneBlock .empty cs →
      Runs.Along Ex1.LockedState.call Ex1.LockedState.Grants (.ofState s) cs →
      ∃ outs x t, Runs.run Ex1.LockedState.call (.ofState s) cs = some (outs, x) ∧
        Runs.run Ex2.State.call Ex2.State.init cs = some (outs, t) := by
  refine ⟨_, Ex1.tfsInit_eq s₀, fun cs ha hg => ?_⟩
  have hinit : Agree .empty (Ex1.initialised s₀) Ex2.State.init :=
    ⟨⟨_, _, Ex1.initialised_packed s₀⟩, _, Ex2.init_refines⟩
  obtain ⟨outs, fs, s₁, hfs, hs, -⟩ := Runs.run_simulation (R := fun fs s => ∃ t, Agree fs s t) id
    (fun fs s c h hc => by
      obtain ⟨t, h⟩ := h
      obtain ⟨o, fs', s', t', hfs, hs, -, h'⟩ := h.call hc
      exact ⟨o, fs', s', hfs, hs, t', h'⟩) ⟨_, hinit⟩ ha
  obtain ⟨outs', fs', s₂, hfs', ht, -⟩ := Runs.run_simulation (R := fun fs t => ∃ s, Agree fs s t) id
    (fun fs t c h hc => by
      obtain ⟨s, h⟩ := h
      obtain ⟨o, fs', s', t', hfs, -, ht, h'⟩ := h.call hc
      exact ⟨o, fs', t', hfs, ht, s', h'⟩) ⟨_, hinit⟩ ha
  cases hfs.symm.trans hfs'
  have hs : Runs.run Ex1.State.call (Ex1.initialised s₀) cs = some (outs, s₁) := by simpa using hs
  obtain ⟨x, hx, -⟩ := Ex1.LockedState.run_of_grants hg hs
  exact ⟨outs, x, s₂, hx, by simpa using ht⟩

/-- Two handles on a file that is filled up, truncated once both are closed, written and read. -/
theorem projects_agree_truncated :
    let a := some ⟨[47, 97], by decide⟩
    let cs := [.open a tfsOCreat, .write 0 (List.replicate 1000 1), .open a tfsOAppend, .write 1 (List.replicate 24 2),
      .read 0 50, .close 0, .close 1, .open a tfsOTrunc, .write 0 [3], .read 0 50, .open (some ⟨[47], by decide⟩) tfsOCreat]
    ∃ s, Ex1.tfsInit .zero = some (0, s) ∧ ∃ outs x t, Runs.run Ex1.LockedState.call (.ofState s) cs = some (outs, x) ∧
      Runs.run Ex2.State.call Ex2.State.init cs = some (outs, t) := by
  intro a cs
  obtain ⟨s, hs, h⟩ := projects_agree .zero
  refine ⟨s, hs, h cs (by decide +kernel) ?_⟩
  cases (Ex1.tfsInit_eq _).symm.trans hs
  decide +kernel

end Tecnicofs
