import Mathlib.Data.List.Find
import Tecnicofs.Spec.ByteFs
import Tecnicofs.Storage.OpenFiles

/-! How a directory, an open-file table and the files' bytes stand for a `ByteFs`; file `i` of the directory
has i-node `i + 1` in both projects. -/

namespace Tecnicofs

open Bytes

structure Represents (es : List DirEntry) (f : OpenFiles) (bytes : Nat → List UInt8)
    (fs : ByteFs (List UInt8)) : Prop where
  names : fs.names = es.map (·.name)
  nodup : (es.map (·.name)).Nodup
  contents : ∀ i (h : i < es.length), fs.contents es[i].name = bytes (i + 1)
  free : ∀ h < maxOpenFiles, f.freeOpenFileEntries h = .free → fs.handles h = none
  handle : ∀ h < maxOpenFiles, f.freeOpenFileEntries h = .taken →
    ∃ i, ∃ hi : i < es.length, (f.openFileTable h).ofInumber = (i + 1 : Nat) ∧
      (f.openFileTable h).ofOffset ≤ (bytes (i + 1)).length ∧
      fs.handles h = some (es[i].name, (f.openFileTable h).ofOffset)

namespace Represents

variable {es : List DirEntry} {f : OpenFiles} {bytes : Nat → List UInt8} {fs : ByteFs (List UInt8)}

theorem empty (hf : ∀ h < maxOpenFiles, f.freeOpenFileEntries h = .free) : Represents [] f bytes .empty where
  names := rfl
  nodup := List.nodup_nil
  contents i h := by simp at h
  free _ _ _ := rfl
  handle h hh ht := by simp [hf h hh] at ht

theorem isNone_handles (r : Represents es f bytes fs) {h : Nat} (hh : h < maxOpenFiles) :
    (fs.handles h).isNone = true ↔ f.freeOpenFileEntries h = .free := by
  cases hc : f.freeOpenFileEntries h with
  | free => simp [r.free h hh hc]
  | taken =>
    obtain ⟨i, hi, -, -, he⟩ := r.handle h hh hc
    simp [he]

theorem eq_of_name (r : Represents es f bytes fs) {i k : Nat} (hi : i < es.length) (hk : k < es.length)
    (h : es[i].name = es[k].name) : i = k := by
  have hn := r.nodup
  have hi' : i < (es.map DirEntry.name).length := by simpa
  have hk' : k < (es.map DirEntry.name).length := by simpa
  have h' : (es.map DirEntry.name)[i] = (es.map DirEntry.name)[k] := by simpa using h
  exact hn.getElem_inj_iff.mp h'

theorem mem_names (r : Represents es f bytes fs) {n : List UInt8} :
    n ∈ fs.names ↔ ∃ e ∈ es, e.name = n := by
  rw [r.names, List.mem_map]

theorem congr (r : Represents es f bytes fs) {bytes' : Nat → List UInt8}
    (h : ∀ k < es.length, bytes' (k + 1) = bytes (k + 1)) : Represents es f bytes' fs where
  names := r.names
  nodup := r.nodup
  contents k hk := (r.contents k hk).trans (h k hk).symm
  free := r.free
  handle k hk ht := by
    obtain ⟨i, hi, hin, ho, he⟩ := r.handle k hk ht
    exact ⟨i, hi, hin, by rwa [h i hi], he⟩

theorem congrFiles (r : Represents es f bytes fs) {f' : OpenFiles} (hf : f'.freeOpenFileEntries = f.freeOpenFileEntries)
    (hi : ∀ h, (f'.openFileTable h).ofInumber = (f.openFileTable h).ofInumber)
    (ho : ∀ h < maxOpenFiles, f.freeOpenFileEntries h = .taken →
      (f'.openFileTable h).ofOffset = (f.openFileTable h).ofOffset) : Represents es f' bytes fs where
  names := r.names
  nodup := r.nodup
  contents := r.contents
  free h hh ht := r.free h hh (hf ▸ ht)
  handle h hh ht := by
    rw [hf] at ht
    rw [hi, ho h hh ht]
    exact r.handle h hh ht

theorem openHandle (r : Represents es f bytes fs) {l : Limits} (hl : l.maxHandles = maxOpenFiles) {i o : Nat}
    (hi : i < es.length) (ho : o ≤ (bytes (i + 1)).length) :
    (addToOpenFileTable f (i + 1 : Nat) o).1 = (fs.openHandle l es[i].name o).1 ∧
      Represents es (addToOpenFileTable f (i + 1 : Nat) o).2 bytes (fs.openHandle l es[i].name o).2 := by
  have hfind : ((List.range l.maxHandles).find? fun h => (fs.handles h).isNone) =
      firstFree f.freeOpenFileEntries maxOpenFiles := by
    rw [hl, firstFree]
    apply List.find?_congr
    intro h hh
    have hh := List.mem_range.mp hh
    rw [Bool.eq_iff_iff, r.isNone_handles hh, decide_eq_true_iff]
  unfold addToOpenFileTable ByteFs.openHandle
  rw [hfind]
  cases hf : firstFree f.freeOpenFileEntries maxOpenFiles with
  | none => exact ⟨rfl, r⟩
  | some k =>
    refine ⟨rfl, ?_⟩
    exact {
      names := r.names
      nodup := r.nodup
      contents := r.contents
      free := fun h hh ht => by
        rw [OpenFiles.setEntry_free, OpenFiles.take_free] at ht
        split at ht
        · cases ht
        · next hne => simpa [ByteFs.setHandle, hne] using r.free h hh ht
      handle := fun h hh ht => by
        rw [OpenFiles.setEntry_free, OpenFiles.take_free] at ht
        rw [OpenFiles.setEntry_table]
        split at ht
        · next he => exact ⟨i, hi, by simp [he], by simpa [he] using ho, by simp [ByteFs.setHandle, he]⟩
        · next hne =>
          obtain ⟨k, hk, he⟩ := r.handle h hh ht
          exact ⟨k, hk, by simpa [hne, ByteFs.setHandle] using he⟩ }

theorem close (r : Represents es f bytes fs) {fhandle : Int} (ho : f.IsOpen fhandle) :
    fs.close fhandle.toNat = (0, fs.setHandle fhandle.toNat none) ∧
      Represents es (f.release fhandle.toNat) bytes (fs.setHandle fhandle.toNat none) := by
  obtain ⟨k, hk, rfl, ht⟩ := ho.exists
  obtain ⟨i, hi, -, -, he⟩ := r.handle k hk ht
  rw [Int.toNat_natCast]
  refine ⟨by simp [ByteFs.close, he], ?_⟩
  exact {
    names := r.names
    nodup := r.nodup
    contents := r.contents
    free := fun h hh ht => by
      rw [OpenFiles.release_free] at ht
      split at ht
      · next he => simp [ByteFs.setHandle, he]
      · next hne => simpa [ByteFs.setHandle, hne] using r.free h hh ht
    handle := fun h hh ht => by
      rw [OpenFiles.release_free] at ht
      split at ht
      · cases ht
      · next hne =>
        obtain ⟨k, hk, he⟩ := r.handle h hh ht
        exact ⟨k, hk, by simpa [hne, ByteFs.setHandle] using he⟩ }

theorem setContents (r : Represents es f bytes fs) {i : Nat} (hi : i < es.length) {bytes' : Nat → List UInt8}
    (hne : ∀ k < es.length, k ≠ i → bytes' (k + 1) = bytes (k + 1))
    (hle : ∀ h < maxOpenFiles, f.freeOpenFileEntries h = .taken →
      (f.openFileTable h).ofInumber = (i + 1 : Nat) → (f.openFileTable h).ofOffset ≤ (bytes' (i + 1)).length) :
    Represents es f bytes' (fs.setContents es[i].name (bytes' (i + 1))) where
  names := r.names
  nodup := r.nodup
  contents k hk := by
    by_cases hki : k = i
    · subst hki
      simp [ByteFs.setContents]
    · have hname : es[k].name ≠ es[i].name := fun h => hki (r.eq_of_name hk hi h)
      simpa [ByteFs.setContents, hname, hne k hk hki] using r.contents k hk
  free := r.free
  handle h hh ht := by
    obtain ⟨k, hk, hin, ho, he⟩ := r.handle h hh ht
    refine ⟨k, hk, hin, ?_, he⟩
    by_cases hki : k = i
    · subst hki
      exact hle h hh ht hin
    · rwa [hne k hk hki]

theorem setOffset (r : Represents es f bytes fs) {h i o : Nat}
    (hi : i < es.length) (hin : (f.openFileTable h).ofInumber = (i + 1 : Nat)) (ho : o ≤ (bytes (i + 1)).length)
    (ht : f.freeOpenFileEntries h = .taken) :
    Represents es (f.setOffset h o) bytes (fs.setHandle h (some (es[i].name, o))) where
  names := r.names
  nodup := r.nodup
  contents := r.contents
  free k hk hfree := by
    rw [OpenFiles.setOffset_free] at hfree
    by_cases hkh : k = h
    · rw [hkh, ht] at hfree
      cases hfree
    · simpa [ByteFs.setHandle, hkh] using r.free k hk hfree
  handle k hk hkt := by
    rw [OpenFiles.setOffset_free] at hkt
    rw [OpenFiles.setOffset_table]
    by_cases hkh : k = h
    · exact ⟨i, hi, by simp [hkh, hin], by simpa [hkh] using ho, by simp [ByteFs.setHandle, hkh]⟩
    · simpa [ByteFs.setHandle, hkh] using r.handle k hk hkt

theorem write (r : Represents es f bytes fs) {h i : Nat} (hh : h < maxOpenFiles)
    (ht : f.freeOpenFileEntries h = .taken) (hi : i < es.length)
    (hin : (f.openFileTable h).ofInumber = (i + 1 : Nat)) {data : List UInt8} {bytes' : Nat → List UInt8}
    (hb : bytes' (i + 1) = overwrite (bytes (i + 1)) (f.openFileTable h).ofOffset data)
    (hne : ∀ k < es.length, k ≠ i → bytes' (k + 1) = bytes (k + 1)) :
    fs.handles h = some (es[i].name, (f.openFileTable h).ofOffset) ∧
      Represents es (f.setOffset h ((f.openFileTable h).ofOffset + data.length)) bytes'
        ((fs.setContents es[i].name
          (overwrite (fs.contents es[i].name) (f.openFileTable h).ofOffset data)).setHandle h
            (some (es[i].name, (f.openFileTable h).ofOffset + data.length))) := by
  obtain ⟨k, hk, hkn, ho, he⟩ := r.handle h hh ht
  have hki : k = i := by
    have := hin.symm.trans hkn
    omega
  subst hki
  refine ⟨he, ?_⟩
  have hlen : (bytes' (k + 1)).length =
      max (bytes (k + 1)).length ((f.openFileTable h).ofOffset + data.length) := by
    rw [hb, length_overwrite ho]
  rw [r.contents k hk, ← hb]
  refine (r.setContents hk hne fun x hx hxt hxn => ?_).setOffset hk hin (by rw [hlen]; exact le_max_right ..) ht
  obtain ⟨m, hm, hmn, hmo, -⟩ := r.handle x hx hxt
  have hmk : m = k := by
    have := hxn.symm.trans hmn
    omega
  subst hmk
  rw [hlen]
  exact hmo.trans (le_max_left ..)

theorem read (r : Represents es f bytes fs) {h i n : Nat} (hh : h < maxOpenFiles)
    (ht : f.freeOpenFileEntries h = .taken) (hi : i < es.length)
    (hin : (f.openFileTable h).ofInumber = (i + 1 : Nat))
    (hn : (f.openFileTable h).ofOffset + n ≤ (bytes (i + 1)).length) :
    fs.handles h = some (es[i].name, (f.openFileTable h).ofOffset) ∧
      Represents es (f.setOffset h ((f.openFileTable h).ofOffset + n)) bytes
        (fs.setHandle h (some (es[i].name, (f.openFileTable h).ofOffset + n))) := by
  obtain ⟨k, hk, hkn, ho, he⟩ := r.handle h hh ht
  have hki : k = i := by
    have := hin.symm.trans hkn
    omega
  subst hki
  exact ⟨he, r.setOffset hk hin hn ht⟩

theorem create (r : Represents es f bytes fs) {e : DirEntry} (hnew : ∀ x ∈ es, x.name ≠ e.name)
    {bytes' : Nat → List UInt8} (hold : ∀ k < es.length, bytes' (k + 1) = bytes (k + 1))
    (hempty : bytes' (es.length + 1) = []) : Represents (es ++ [e]) f bytes' (fs.create e.name) where
  names := by simp [ByteFs.create, ByteFs.setContents, r.names]
  nodup := by
    rw [List.map_append, List.nodup_append]
    refine ⟨r.nodup, by simp, fun a ha b hb => ?_⟩
    obtain ⟨x, hx, rfl⟩ := List.mem_map.mp ha
    have hb : b = e.name := by simpa using hb
    rw [hb]
    exact hnew x hx
  contents k hk := by
    rcases Nat.lt_or_ge k es.length with hlt | hge
    · have hname := hnew _ (List.getElem_mem hlt)
      rw [List.getElem_append_left hlt]
      simpa [ByteFs.create, ByteFs.setContents, hname, hold k hlt] using r.contents k hlt
    · have hk : k = es.length := by simp at hk; omega
      subst hk
      simp [ByteFs.create, ByteFs.setContents, hempty]
  free := r.free
  handle h hh ht := by
    obtain ⟨k, hk, hin, ho, he⟩ := r.handle h hh ht
    refine ⟨k, by simp; omega, hin, by rwa [hold k hk], ?_⟩
    rw [List.getElem_append_left hk]
    exact he

end Represents

end Tecnicofs
