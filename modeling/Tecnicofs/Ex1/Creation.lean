import Tecnicofs.Ex1.OpenPhases

namespace Tecnicofs.Ex1

open Bytes OpenPhase

def Named (es : List DirEntry) (name : CString) (i : Nat) : Prop :=
  ∃ e ∈ es, e.name = name.tail.bytes ∧ e.inumber = i

def UniqueNames (s : State) : Prop :=
  ∀ j < maxDirEntries, ∀ k < maxDirEntries, dInumber s.fsData 0 j ≠ -1 → dInumber s.fsData 0 k ≠ -1 →
    strncmpEq (dName s.fsData 0 j) (dName s.fsData 0 k) maxFileName = true → j = k

def HandleOn (s : State) (h i : Nat) : Prop :=
  s.freeOpenFileEntries h = .taken ∧ (s.openFileTable h).ofInumber = i

def OpenPhase.Has : OpenPhase → Nat → Prop
  | found i, j | opened i _, j => i = j
  | looking, _ | missed, _ | taken _, _ | made _, _ | doomed _, _ | failed, _ => False

abbrev Openers (n : Nat) := Fin n → Option (CString × OpenPhase)

/-- No name stands twice in the directory; an i-node is taken for one entry or by one thread; of the threads that may
add an entry each has its own name, which no entry has, or there is no room. -/
structure Creating {n : Nat} (es : List DirEntry) (s : State) (view : Openers n) : Prop where
  rooted : Rooted s
  dir : DirHolds s.fsData 0 es
  nodup : (es.map (·.name)).Nodup
  entry : ∀ e ∈ es, ∃ i : Nat, e.inumber = i ∧ i ≠ 0 ∧ i < inodeTableSize ∧ s.freeinodeTs i = .taken
  owned : ∀ t x i, view t = some x → x.2.owned = some i →
    i ≠ 0 ∧ i < inodeTableSize ∧ s.freeinodeTs i = .taken ∧ ∀ e ∈ es, e.inumber ≠ i
  apart : ∀ t u x y i, view t = some x → view u = some y → x.2.owned = some i → y.2.owned = some i → t = u
  reserved : ∀ t x, view t = some x → x.2.Pending → es.length = maxDirEntries ∨
    x.1.tail.bytes ∉ es.map (·.name) ∧ ∀ u y, view u = some y → y.2.Pending → y.1.tail = x.1.tail → u = t
  has : ∀ t x i, view t = some x → x.2.Has i → Named es x.1 i
  opened : ∀ t x i h, view t = some x → x.2 = .opened i h → HandleOn s h i

section
variable {n : Nat} {es es' : List DirEntry} {view : Openers n} {t : Fin n} {ph ph' : OpenPhase}

theorem update_eq_some {u : Fin n} {v : Option (CString × OpenPhase)} {y : CString × OpenPhase}
    (h : Function.update view t v u = some y) : u = t ∧ v = some y ∨ u ≠ t ∧ view u = some y := by
  by_cases hu : u = t
  · rw [hu, Function.update_self] at h
    exact .inl ⟨hu, h⟩
  · rw [Function.update_of_ne hu] at h
    exact .inr ⟨hu, h⟩

theorem update_cases {u : Fin n} {x y : CString × OpenPhase} (h : Function.update view t (some x) u = some y) :
    u = t ∧ y = x ∨ u ≠ t ∧ view u = some y :=
  (update_eq_some h).imp_left fun ⟨hu, hx⟩ => ⟨hu, (Option.some.inj hx).symm⟩

theorem Named.mono (h : Named es name i) (hs : es ⊆ es') : Named es' name i := by
  obtain ⟨e, he, hn⟩ := h
  exact ⟨e, hs he, hn⟩

theorem HandleOn.grant {s : State} {g g' i j o : Nat} (hfree : s.freeOpenFileEntries g = .free) (h : HandleOn s g' j) :
    HandleOn (s.setFiles ((s.toOpenFiles.take g).setEntry g ⟨i, o⟩)) g' j := by
  obtain ⟨ht, hj⟩ := h
  have hne : g' ≠ g := by
    rintro rfl
    cases hfree.symm.trans ht
  refine ⟨?_, ?_⟩
  · simp only [State.setFiles_toOpenFiles, OpenFiles.setEntry_free, OpenFiles.take_free, if_neg hne, ht]
  · simp only [State.setFiles_toOpenFiles, OpenFiles.setEntry_table, if_neg hne, OpenFiles.take_table, hj]

theorem HandleOn.granted {s : State} {g i o : Nat} :
    HandleOn (s.setFiles ((s.toOpenFiles.take g).setEntry g ⟨i, o⟩)) g i := by
  refine ⟨?_, ?_⟩
  · simp only [State.setFiles_toOpenFiles, OpenFiles.setEntry_free, OpenFiles.take_free, if_true]
  · simp only [State.setFiles_toOpenFiles, OpenFiles.setEntry_table, if_true]

namespace Creating

theorem init (view : Openers n) (hv : ∀ t, view t = none) : Creating [] State.init view where
  rooted := by
    rw [State.init_eq]
    exact {
      rootType := by simp
      rootBlock := by simp
      rootTaken := by simp
      files := fun i hi => by simp [Function.update_of_ne hi]
      entries := fun k hk => .inl ((dirHolds_clearDirEntries _ _).empty k (Nat.zero_le _) hk) }
  dir := Listed.init.dir
  nodup := List.nodup_nil
  entry e he := absurd he List.not_mem_nil
  owned t x i hx := by cases (hv t).symm.trans hx
  apart t u x y i hx := by cases (hv t).symm.trans hx
  reserved t x hx := by cases (hv t).symm.trans hx
  has t x i hx := by cases (hv t).symm.trans hx
  opened t x i g hx := by cases (hv t).symm.trans hx

theorem of_looking (h : Creating es s view) {view' : Openers n}
    (hv : ∀ t x, view' t = some x → view t = some x ∨ x.2 = .looking) : Creating es s view' where
  rooted := h.rooted
  dir := h.dir
  nodup := h.nodup
  entry := h.entry
  owned u x i hu hx := by
    rcases hv u x hu with hu' | hl
    · exact h.owned u x i hu' hx
    · rw [hl] at hx
      cases hx
  apart u w x y i hu hw hx hy := by
    rcases hv u x hu with hu' | hl
    · rcases hv w y hw with hw' | hl
      · exact h.apart u w x y i hu' hw' hx hy
      · rw [hl] at hy
        cases hy
    · rw [hl] at hx
      cases hx
  reserved u x hu hx := by
    rcases hv u x hu with hu' | hl
    · refine (h.reserved u x hu' hx).imp_right fun hr => ⟨hr.1, fun w y hw hy he => ?_⟩
      rcases hv w y hw with hw' | hl
      · exact hr.2 w y hw' hy he
      · rw [hl] at hy
        exact hy.elim
    · rw [hl] at hx
      exact hx.elim
  has u x i hu hx := by
    rcases hv u x hu with hu' | hl
    · exact h.has u x i hu' hx
    · rw [hl] at hx
      exact hx.elim
  opened u x i g hu hx := by
    rcases hv u x hu with hu' | hl
    · exact h.opened u x i g hu' hx
    · cases hl.symm.trans hx

theorem quiet (h : Creating es s view) (hv : view t = some (name, ph)) (hroot : Rooted s') (hd : s'.fsData = s.fsData)
    (ht : ∀ j, s.freeinodeTs j = .taken → (ph.owned = some j → ph'.owned = some j) → s'.freeinodeTs j = .taken)
    (hh : ∀ g j, HandleOn s g j → HandleOn s' g j) (ho : ∀ i, ph'.owned = some i → ph.owned = some i)
    (hp : ph'.Pending → ph.Pending) (hhas : ∀ i, ph'.Has i → Named es name i)
    (hop : ∀ i g, ph' = .opened i g → HandleOn s' g i) : Creating es s' (Function.update view t (some (name, ph'))) where
  rooted := hroot
  dir := by rw [hd]; exact h.dir
  nodup := h.nodup
  entry e he := by
    obtain ⟨j, hj, hj0, hjlt, hjt⟩ := h.entry e he
    exact ⟨j, hj, hj0, hjlt, ht j hjt fun hown => absurd hj ((h.owned t _ j hv hown).2.2.2 e he)⟩
  owned u x i hu hx := by
    rcases update_cases hu with ⟨rfl, rfl⟩ | ⟨hut, hu'⟩
    · obtain ⟨h0, hlt, hit, hno⟩ := h.owned _ _ i hv (ho i hx)
      exact ⟨h0, hlt, ht i hit fun _ => hx, hno⟩
    · obtain ⟨h0, hlt, hit, hno⟩ := h.owned u x i hu' hx
      exact ⟨h0, hlt, ht i hit fun hown => absurd (h.apart u t x _ i hu' hv hx hown) hut, hno⟩
  apart u w x y i hu hw hx hy := by
    rcases update_cases hu with ⟨rfl, rfl⟩ | ⟨-, hu'⟩ <;> rcases update_cases hw with ⟨rfl, rfl⟩ | ⟨-, hw'⟩
    · rfl
    · exact h.apart _ w _ y i hv hw' (ho i hx) hy
    · exact h.apart u _ x _ i hu' hv hx (ho i hy)
    · exact h.apart u w x y i hu' hw' hx hy
  reserved u x hu hx := by
    have hold : ∃ x', view u = some x' ∧ x'.2.Pending ∧ x'.1 = x.1 := by
      rcases update_cases hu with ⟨rfl, rfl⟩ | ⟨-, hu⟩
      · exact ⟨_, hv, hp hx, rfl⟩
      · exact ⟨x, hu, hx, rfl⟩
    obtain ⟨x', hu', hx', hn⟩ := hold
    rw [← hn]
    refine (h.reserved u x' hu' hx').imp_right fun hr => ⟨hr.1, fun w y hw hy he => ?_⟩
    rcases update_cases hw with ⟨rfl, rfl⟩ | ⟨-, hw⟩
    · exact hr.2 _ _ hv (hp hy) he
    · exact hr.2 w y hw hy he
  has u x i hu hx := by
    rcases update_cases hu with ⟨rfl, rfl⟩ | ⟨-, hu⟩
    · exact hhas i hx
    · exact h.has u x i hu hx
  opened u x i g hu hx := by
    rcases update_cases hu with ⟨rfl, rfl⟩ | ⟨-, hu⟩
    · exact hop i g hx
    · exact hh g i (h.opened u x i g hu hx)

theorem search (h : Creating es s view) (hi : i < inodeTableSize)
    (hfree : s.freeinodeTs i = .free)
    (hres : es.length = maxDirEntries ∨ name.tail.bytes ∉ es.map (·.name) ∧
      ∀ u y, u ≠ t → view u = some y → y.2.Pending → y.1.tail ≠ name.tail) :
    Creating es ((s.setInodeState i .taken).setInode i { s.inodeTable i with iNodeType := .file })
      (Function.update view t (some (name, .taken i))) := by
  have hne : ∀ j, s.freeinodeTs j = .taken → j ≠ i := by
    rintro j hj rfl
    cases hfree.symm.trans hj
  have hkeep : ∀ j, s.freeinodeTs j = .taken → (s.setInodeState i .taken).freeinodeTs j = .taken := by
    intro j hj
    rw [State.setInodeState_freeinodeTs, if_neg (hne j hj), hj]
  have h0 : i ≠ 0 := (hne 0 h.rooted.rootTaken).symm
  have hroot : Rooted (s.setInodeState i .taken) := h.rooted.congr rfl (hkeep 0 h.rooted.rootTaken) h.rooted.files rfl
  exact {
    rooted := hroot.setInode h0 ⟨rfl, (h.rooted.files i h0).2⟩
    dir := h.dir
    nodup := h.nodup
    entry := fun e he => by
      obtain ⟨j, hj, hj0, hjlt, hjt⟩ := h.entry e he
      exact ⟨j, hj, hj0, hjlt, hkeep j hjt⟩
    owned := fun u x j hu hx => by
      rcases update_cases hu with ⟨rfl, rfl⟩ | ⟨-, hu'⟩
      · cases hx
        refine ⟨h0, hi, by simp [State.setInodeState_freeinodeTs], fun e he hei => ?_⟩
        obtain ⟨j, hj, -, -, hjt⟩ := h.entry e he
        exact hne j hjt (by omega)
      · obtain ⟨hj0, hjlt, hjt, hj⟩ := h.owned u x j hu' hx
        exact ⟨hj0, hjlt, hkeep j hjt, hj⟩
    apart := fun u w x y j hu hw hx hy => by
      rcases update_cases hu with ⟨rfl, rfl⟩ | ⟨-, hu'⟩ <;> rcases update_cases hw with ⟨rfl, rfl⟩ | ⟨-, hw'⟩
      · rfl
      · cases hx
        exact absurd rfl (hne i (h.owned w y i hw' hy).2.2.1)
      · cases hy
        exact absurd rfl (hne i (h.owned u x i hu' hx).2.2.1)
      · exact h.apart u w x y j hu' hw' hx hy
    reserved := fun u x hu hx => by
      rcases hres with hfull | ⟨hnew, hother⟩
      · exact .inl hfull
      rcases update_cases hu with ⟨rfl, rfl⟩ | ⟨hut, hu'⟩
      · refine .inr ⟨hnew, fun w y hw hy he => ?_⟩
        rcases update_cases hw with ⟨rfl, rfl⟩ | ⟨hwu, hw'⟩
        · rfl
        · exact absurd he (hother w y hwu hw' hy)
      · refine (h.reserved u x hu' hx).imp_right fun hr => ⟨hr.1, fun w y hw hy he => ?_⟩
        rcases update_cases hw with ⟨rfl, rfl⟩ | ⟨-, hw'⟩
        · exact absurd he.symm (hother u x hut hu' hx)
        · exact hr.2 w y hw' hy he
    has := fun u x j hu hx => by
      rcases update_cases hu with ⟨rfl, rfl⟩ | ⟨-, hu'⟩
      · exact hx.elim
      · exact h.has u x j hu' hx
    opened := fun u x j g hu hx => by
      rcases update_cases hu with ⟨rfl, rfl⟩ | ⟨-, hu'⟩
      · cases hx
      · exact h.opened u x j g hu' hx }

theorem delete (h : Creating es s view) (hv : view t = some (name, .doomed i)) :
    Creating es (s.setInodeState i .free) (Function.update view t (some (name, .failed))) := by
  have h0 : i ≠ 0 := (h.owned t _ i hv rfl).1
  have hkeep : ∀ j, j ≠ i → s.freeinodeTs j = .taken → (s.setInodeState i .free).freeinodeTs j = .taken := by
    intro j hj ht
    rw [State.setInodeState_freeinodeTs, if_neg hj, ht]
  refine h.quiet hv (h.rooted.congr rfl (hkeep 0 h0.symm h.rooted.rootTaken) h.rooted.files rfl) rfl
    (fun j hj hown => hkeep j ?_ hj) (fun _ _ hon => hon) (fun _ hx => by cases hx) False.elim (fun _ hx => hx.elim)
    fun _ _ hx => by cases hx
  rintro rfl
  cases hown rfl

theorem add (h : Creating es s view) (hv : view t = some (name, .made i)) (hfits : Fits name) {m : Mem}
    (hm : fillDirEntry s.fsData 0 i name.tail = some m) :
    ∃ e : DirEntry, e.name = name.tail.bytes ∧ e.inumber = i ∧
      Creating (es ++ [e]) (s.setDisk { s.toDisk with fsData := m }) (Function.update view t (some (name, .found i))) := by
  obtain ⟨h0, hi, hit, hno⟩ := h.owned t _ i hv rfl
  have hsub : IsInt i ∧ (i : Int) ≠ -1 := by
    simp only [inodeTableSize] at hi
    exact ⟨⟨by omega, by omega⟩, by omega⟩
  have hlt : es.length < maxDirEntries := by
    refine lt_of_le_of_ne h.dir.length_le fun hfull => ?_
    rw [h.dir.fill_full i name.tail hfull] at hm
    cases hm
  obtain ⟨m', hm', hdir, -⟩ := h.dir.fill hsub name.tail hlt
  cases hm.symm.trans hm'
  obtain ⟨hnew, hone⟩ := (h.reserved t _ hv trivial).resolve_left (by omega)
  have hname : (DirEntry.ofName name.tail i hsub).name = name.tail.bytes := by
    simp only [Fits, CString.strlen, maxFileName] at hfits
    exact List.take_of_length_le (by simp only [maxFileName]; omega)
  have hentry : ∀ e ∈ es ++ [DirEntry.ofName name.tail i hsub],
      ∃ j : Nat, e.inumber = (j : Int) ∧ j ≠ 0 ∧ j < inodeTableSize ∧ s.freeinodeTs j = .taken := by
    intro e he
    rcases List.mem_append.mp he with he | he
    · exact h.entry e he
    · rw [List.mem_singleton.mp he]
      exact ⟨i, rfl, h0, hi, hit⟩
  refine ⟨DirEntry.ofName name.tail i hsub, hname, rfl, ?_⟩
  exact {
    rooted := h.rooted.fill h0 hi hm
    dir := hdir
    nodup := by
      rw [List.map_append, List.map_singleton, hname]
      exact List.nodup_append.mpr ⟨h.nodup, List.nodup_singleton _, fun a ha b hb => by
        rw [List.mem_singleton.mp hb]
        rintro rfl
        exact hnew ha⟩
    entry := hentry
    owned := fun u x j hu hx => by
      rcases update_cases hu with ⟨rfl, rfl⟩ | ⟨hut, hu'⟩
      · cases hx
      obtain ⟨hj0, hjlt, hjt, hj⟩ := h.owned u x j hu' hx
      refine ⟨hj0, hjlt, hjt, fun e he hej => ?_⟩
      rcases List.mem_append.mp he with he | he
      · exact hj e he hej
      · rw [List.mem_singleton.mp he] at hej
        obtain rfl : i = j := Int.natCast_inj.mp hej
        exact hut (h.apart u t x _ i hu' hv hx rfl)
    apart := fun u w x y j hu hw hx hy => by
      rcases update_cases hu with ⟨rfl, rfl⟩ | ⟨-, hu'⟩
      · cases hx
      rcases update_cases hw with ⟨rfl, rfl⟩ | ⟨-, hw'⟩
      · cases hy
      exact h.apart u w x y j hu' hw' hx hy
    reserved := fun u x hu hx => by
      rcases update_cases hu with ⟨rfl, rfl⟩ | ⟨hut, hu'⟩
      · exact hx.elim
      obtain ⟨hold, hr⟩ := (h.reserved u x hu' hx).resolve_left (by omega)
      refine .inr ⟨?_, fun w y hw hy he => ?_⟩
      · rw [List.map_append, List.mem_append, List.map_singleton, List.mem_singleton, hname]
        rintro (ha | ha)
        · exact hold ha
        · exact hut (hone u x hu' hx (CString.eq_of_bytes ha))
      · rcases update_cases hw with ⟨rfl, rfl⟩ | ⟨-, hw'⟩
        · exact hy.elim
        · exact hr w y hw' hy he
    has := fun u x j hu hx => by
      rcases update_cases hu with ⟨rfl, rfl⟩ | ⟨-, hu'⟩
      · cases hx
        exact ⟨_, List.mem_append_right _ (List.mem_singleton_self _), hname, rfl⟩
      · exact (h.has u x j hu' hx).mono (List.subset_append_left _ _)
    opened := fun u x j g hu hx => by
      rcases update_cases hu with ⟨rfl, rfl⟩ | ⟨-, hu'⟩
      · cases hx
      · exact h.opened u x j g hu' hx }

theorem step (h : Creating es s view) (hv : view t = some (name, ph)) (hfits : Fits name) {label : Option Label}
    (ht : Takes name ph label s s' ph')
    (hres : label = some .inodeSearch → es.length = maxDirEntries ∨ name.tail.bytes ∉ es.map (·.name) ∧
      ∀ u y, u ≠ t → view u = some y → y.2.Pending → y.1.tail ≠ name.tail) :
    ∃ es', es ⊆ es' ∧ (∀ g j, HandleOn s g j → HandleOn s' g j) ∧
      Creating es' s' (Function.update view t (some (name, ph'))) := by
  cases ht with
  | read =>
    refine ⟨es, List.Subset.refl _, fun _ _ hg => hg, ?_⟩
    rw [← hv, Function.update_eq_self]
    exact h
  | @find _ i hl =>
    refine ⟨es, List.Subset.refl _, fun _ _ hg => hg, h.quiet hv h.rooted rfl (fun _ hj _ => hj) (fun _ _ hg => hg)
      (fun _ hx => by cases hx) False.elim ?_ fun _ _ hx => by cases hx⟩
    rintro _ rfl
    rw [h.dir.find] at hl
    rcases lookupEntry_cases es name.tail with ⟨k, hk, hn, he⟩ | ⟨-, he⟩
    · exact ⟨es[k], List.getElem_mem hk, hn, he.symm.trans hl⟩
    · omega
  | miss hl =>
    exact ⟨es, List.Subset.refl _, fun _ _ hg => hg, h.quiet hv h.rooted rfl (fun _ hj _ => hj) (fun _ _ hg => hg)
      (fun _ hx => by cases hx) False.elim (fun _ hx => hx.elim) fun _ _ hx => by cases hx⟩
  | search hi hfree =>
    exact ⟨es, List.Subset.refl _, fun _ _ hg => hg, h.search hi hfree (hres rfl)⟩
  | full =>
    exact ⟨es, List.Subset.refl _, fun _ _ hg => hg, h.quiet hv h.rooted rfl (fun _ hj _ => hj) (fun _ _ hg => hg)
      (fun _ hx => by cases hx) False.elim (fun _ hx => hx.elim) fun _ _ hx => by cases hx⟩
  | @init _ i x hx =>
    have h0 := (h.owned t _ i hv rfl).1
    have hfile := h.rooted.files i h0
    exact ⟨es, List.Subset.refl _, fun _ _ hg => hg,
      h.quiet hv (h.rooted.setInode h0 ⟨hx.1.trans hfile.1, hx.2⟩) rfl (fun _ hj _ => hj) (fun _ _ hg => hg)
        (fun _ hx => hx) (fun hx => hx) (fun _ hx => hx.elim) fun _ _ hx => by cases hx⟩
  | @add _ i m hm =>
    obtain ⟨e, -, -, hadd⟩ := h.add hv hfits hm
    exact ⟨es ++ [e], List.subset_append_left _ _, fun _ _ hg => hg, hadd⟩
  | refuse hm =>
    exact ⟨es, List.Subset.refl _, fun _ _ hg => hg, h.quiet hv h.rooted rfl (fun _ hj _ => hj) (fun _ _ hg => hg)
      (fun _ hx => hx) False.elim (fun _ hx => hx.elim) fun _ _ hx => by cases hx⟩
  | delete => exact ⟨es, List.Subset.refl _, fun _ _ hg => hg, h.delete hv⟩
  | @grant _ i g o hg hfree =>
    have hkeep : ∀ g' j, HandleOn s g' j → HandleOn (s.setFiles ((s.toOpenFiles.take g).setEntry g ⟨i, o⟩)) g' j :=
      fun _ _ hon => hon.grant hfree
    refine ⟨es, List.Subset.refl _, hkeep, h.quiet hv (h.rooted.congr rfl h.rooted.rootTaken h.rooted.files rfl) rfl
      (fun _ hj _ => hj) hkeep (fun _ hx => by cases hx) False.elim (fun j hj => h.has t _ j hv hj) ?_⟩
    intro j g' hx
    cases hx
    exact .granted

theorem eq_of_named (h : Creating es s view) {i j : Nat} (hi : Named es name i) (hj : Named es name j) : i = j := by
  obtain ⟨e, he, hn, hei⟩ := hi
  obtain ⟨e', he', hn', hej⟩ := hj
  obtain rfl : e = e' := List.inj_on_of_nodup_map h.nodup he he' (hn.trans hn'.symm)
  omega

theorem uniqueNames (h : Creating es s view) : UniqueNames s := by
  intro j hj k hk hoj hok he
  have hjlt := h.dir.lt_length hj hoj
  have hklt := h.dir.lt_length hk hok
  have hnames := h.dir.name_eq hjlt hklt he
  have hjlen : j < (es.map (·.name)).length := by simpa using hjlt
  have hklen : k < (es.map (·.name)).length := by simpa using hklt
  have heq : (es.map (·.name))[j] = (es.map (·.name))[k] := by simpa using hnames
  exact h.nodup.getElem_inj_iff.mp heq

end Creating

end

variable {n : Nat} {p p' : Pool n Lock Label State Call Out} {es : List DirEntry} {phase : Fin n → OpenPhase} {t : Fin n}
  {e : Pool.Event n Call}

/-- The thread is in `tfs_open` of the name and, left alone, does not come to `inode_create` any more. -/
def PastCreate (p : Pool n Lock Label State Call Out) (u : Fin n) (name : CString) : Prop :=
  match (p.thread u).current with
  | some (.open (some other) _, prog) =>
    other = name ∧ prog.Assumes NoSearch p.state
  | _ => False

def Creates : Pool.Event n Call → Prop
  | .start _ (.open (some name) flags) => hasFlag flags tfsOCreat = true ∧ Fits name
  | .start _ _ => False
  | .step _ => True

/-- A thread that comes to `inode_create` finds its name still absent, and no other thread about to add it; or the
directory is full. -/
def Undisturbed (p : Pool n Lock Label State Call Out) : Pool.Event n Call → Prop
  | .start _ _ => True
  | .step t =>
    match (p.thread t).current with
    | some (.open (some name) _, .act (some .inodeSearch) _ _) =>
      (∀ k < maxDirEntries, dInumber p.state.fsData 0 k ≠ -1) ∨
        lookup p.state (some name) = -1 ∧ ∀ u, u ≠ t → ¬ PastCreate p u name
    | _ => True

def OneInode (p : Pool n Lock Label State Call Out) : Prop :=
  ∀ x ∈ p.history, ∀ y ∈ p.history, ∀ name flags flags', x.2.1 = .open (some name) flags →
    y.2.1 = .open (some name) flags' → 0 ≤ x.2.2.ret → 0 ≤ y.2.2.ret →
      (p.state.openFileTable x.2.2.ret.toNat).ofInumber = (p.state.openFileTable y.2.2.ret.toNat).ofInumber

def opener (x : Thread Lock Label State Call Out) (ph : OpenPhase) : Option (CString × OpenPhase) :=
  match x.current with
  | some (.open (some name) _, _) => if validPathname (some name) = true then some (name, ph) else none
  | _ => none

def openers (p : Pool n Lock Label State Call Out) (phase : Fin n → OpenPhase) : Openers n :=
  fun t => opener (p.thread t) (phase t)

theorem opener_eq_some {x : Thread Lock Label State Call Out} {ph : OpenPhase} {y : CString × OpenPhase} :
    opener x ph = some y ↔ ∃ c prog, x.current = some (c, prog) ∧ OpensName c y.1 ∧ y.2 = ph := by
  obtain ⟨name, ph'⟩ := y
  constructor
  · intro h
    unfold opener at h
    split at h
    · next name' flags prog hc =>
      split at h
      · next hv =>
        cases h
        exact ⟨_, prog, hc, ⟨hv, flags, rfl⟩, rfl⟩
      · cases h
    · cases h
  · rintro ⟨c, prog, hc, ⟨hv, flags, rfl⟩, rfl⟩
    rw [opener, hc]
    exact if_pos hv

theorem openers_init (s : State) : openers (n := n) (.init s) phase t = none := rfl

theorem openers_stay {c : Call} {prog prog' : Program Out} {held : List (Lock × Mode)}
    (hc : (p.thread t).current = some (c, prog)) (hp : p'.thread = Function.update p.thread t ⟨some (c, prog'), held⟩) :
    openers p' phase = openers p phase := by
  funext u
  rw [openers, openers, hp]
  by_cases hu : u = t
  · subst hu
    rw [Function.update_self]
    simp only [opener, hc]
    rcases c with ⟨_ | path, flags⟩ | _ | _ | _ <;> rfl
  · rw [Function.update_of_ne hu]

theorem openers_update (phase : Fin n → OpenPhase) (ph : OpenPhase) {x : Thread Lock Label State Call Out}
    (hp : p'.thread = Function.update p.thread t x) :
    openers p' (Function.update phase t ph) = Function.update (openers p phase) t (opener x ph) := by
  funext u
  rw [openers, hp]
  by_cases hu : u = t
  · subst hu
    rw [Function.update_self, Function.update_self, Function.update_self]
  · rw [Function.update_of_ne hu, Function.update_of_ne hu, Function.update_of_ne hu, openers]

theorem follows_of_creates (hc : Creates e) {t : Fin n} {c : Call} (he : e = .start t c) :
    (body c).Follows opening c OpenPhase.looking fun o ph => opening.Returns c ph o := by
  subst he
  cases c with
  | «open» path flags =>
    cases path with
    | none => exact hc.elim
    | some name => exact follows_body flags hc.1 (some name)
  | write fhandle buffer => exact hc.elim
  | read fhandle len => exact hc.elim
  | close fhandle => exact hc.elim

structure Tracked (p : Pool n Lock Label State Call Out) (phase : Fin n → OpenPhase) : Prop where
  followed : opening.Followed p phase
  fits : ∀ t x, openers p phase t = some x → Fits x.1
  idle : ∀ t, (p.thread t).current ≠ none → openers p phase t = none → phase t = .looking

inductive Proceeds (p : Pool n Lock Label State Call Out) (phase : Fin n → OpenPhase) :
    Pool.Event n Call → Pool n Lock Label State Call Out → (Fin n → OpenPhase) → Prop
  | start {t : Fin n} {c : Call} {p' : Pool n Lock Label State Call Out} {phase' : Fin n → OpenPhase}
      {v : Option (CString × OpenPhase)} (hnone : openers p phase t = none)
      (hview : openers p' phase' = Function.update (openers p phase) t v) (hv : ∀ x, v = some x → x.2 = .looking)
      (hs : p'.state = p.state) (hh : p'.history = p.history) : Proceeds p phase (.start t c) p' phase'
  | silent {t : Fin n} {p' : Pool n Lock Label State Call Out} {phase' : Fin n → OpenPhase}
      (hview : openers p' phase' = openers p phase) (hs : p'.state = p.state) (hh : p'.history = p.history) :
      Proceeds p phase (.step t) p' phase'
  | act {t : Fin n} {c : Call} {γ : Type} {label : Option Label} {f : State → Option (γ × State)} {k : γ → Program Out}
      {name : CString} {ph ph' : OpenPhase} {p' : Pool n Lock Label State Call Out} {phase' : Fin n → OpenPhase}
      (hc : (p.thread t).current = some (c, .act label f k)) (hname : OpensName c name)
      (hv : openers p phase t = some (name, ph)) (hfits : Fits name) (ht : Takes name ph label p.state p'.state ph')
      (hview : openers p' phase' = Function.update (openers p phase) t (some (name, ph'))) (hh : p'.history = p.history) :
      Proceeds p phase (.step t) p' phase'
  | ret {t : Fin n} {c : Call} {prog : Program Out} {o : Out} {p' : Pool n Lock Label State Call Out}
      {phase' : Fin n → OpenPhase} (hc : (p.thread t).current = some (c, prog)) (ho : opening.Returns c (phase t) o)
      (hview : openers p' phase' = Function.update (openers p phase) t none) (hs : p'.state = p.state)
      (hh : p'.history = p.history ++ [(t, c, o)]) : Proceeds p phase (.step t) p' phase'

namespace Tracked

theorem init (s : State) : Tracked (.init s) fun _ : Fin n => OpenPhase.looking where
  followed t c prog hc := absurd (show none = some (c, prog) from hc) (by simp)
  fits t x hx := by
    rw [openers_init] at hx
    cases hx
  idle t ht _ := absurd rfl ht

theorem opened (h : Tracked p phase) {c : Call} {prog : Program Out} {o : Out} (hc : (p.thread t).current = some (c, prog))
    (ho : opening.Returns c (phase t) o) {name : CString} {flags : Int} (hn : c = .open (some name) flags)
    (hret : 0 ≤ o.ret) : ∃ i g : Nat, openers p phase t = some (name, .opened i g) ∧ o.ret = g := by
  rcases ho with ⟨hneg, -⟩ | ⟨i, g, hph, hg⟩
  · omega
  · have hne : (p.thread t).current ≠ none := by
      rw [hc]
      simp
    cases hv : openers p phase t with
    | none => cases hph.symm.trans (h.idle t hne hv)
    | some x =>
      obtain ⟨name', ph⟩ := x
      obtain ⟨c', prog', hc', ⟨-, flags', hn'⟩, rfl⟩ := opener_eq_some.mp hv
      cases hc.symm.trans hc'
      cases hn.symm.trans hn'
      exact ⟨i, g, by rw [hph], hg⟩

theorem update (h : Tracked p phase) {phase' : Fin n → OpenPhase} {v : Option (CString × OpenPhase)}
    {x : Thread Lock Label State Call Out} (hf : opening.Followed p' phase') (hp : p'.thread = Function.update p.thread t x)
    (hview : openers p' phase' = Function.update (openers p phase) t v) (hv : ∀ x, v = some x → Fits x.1)
    (hphase : ∀ u, u ≠ t → phase' u = phase u) (ht : x.current ≠ none → v = none → phase' t = .looking) :
    Tracked p' phase' where
  followed := hf
  fits u y hy := by
    rw [hview] at hy
    rcases update_eq_some hy with ⟨-, hy⟩ | ⟨-, hy⟩
    · exact hv y hy
    · exact h.fits u y hy
  idle u hcu hnone := by
    rw [hp] at hcu
    rw [hview] at hnone
    by_cases hut : u = t
    · subst hut
      rw [Function.update_self] at hcu hnone
      exact ht hcu hnone
    · rw [Function.update_of_ne hut] at hcu hnone
      rw [hphase u hut]
      exact h.idle u hcu hnone

theorem step (h : Tracked p phase)
    (hk : ∀ t c prog, (p.thread t).current = some (c, prog) → opening.Knows c (phase t) p.state) (hc : Creates e)
    (hm : Pool.Moves body p e p') : ∃ phase', Tracked p' phase' ∧ Proceeds p phase e p' phase' := by
  have hnext : ∃ phase', opening.Moves (fun _ => .looking) p phase e p' phase' ∧ opening.Followed p' phase' :=
    h.followed.step hk (fun t c he => follows_of_creates hc he) hm
  obtain ⟨phase', hmove, hfollowed⟩ := hnext
  cases hmove with
  | @start t c prog held _ hcur hp hs hh =>
    have hview := openers_update phase .looking hp
    have hnew : ∀ x, opener ⟨some (c, prog), held⟩ .looking = some x → x.2 = .looking ∧ Fits x.1 := by
      intro x hx
      obtain ⟨c', prog', hc', ⟨-, flags, rfl⟩, hph⟩ := opener_eq_some.mp hx
      cases hc'
      exact ⟨hph, hc.2⟩
    have hnone : openers p phase t = none := by
      rw [openers, opener, hcur]
    have hphase : ∀ u, u ≠ t → Function.update phase t .looking u = phase u := fun u hut => Function.update_of_ne hut ..
    exact ⟨_, h.update hfollowed hp hview (fun x hx => (hnew x hx).2) hphase fun _ _ => Function.update_self ..,
      .start hnone hview (fun x hx => (hnew x hx).1) hs hh⟩
  | @silent t c prog prog' held _ hcur hp hs hh =>
    have hview : openers p' phase = openers p phase := openers_stay hcur hp
    refine ⟨phase, ⟨hfollowed, by rw [hview]; exact h.fits, fun u hcu hnone => ?_⟩, .silent hview hs hh⟩
    rw [hview] at hnone
    refine h.idle u ?_ hnone
    by_cases hut : u = t
    · rw [hut, hcur]
      simp
    · rwa [hp, Function.update_of_ne hut] at hcu
  | @act t c γ label f k prog' held _ ph' hcur hp ht hh =>
    obtain ⟨name, hname, htk⟩ := ht
    have hv : openers p phase t = some (name, phase t) := opener_eq_some.mpr ⟨c, _, hcur, hname, rfl⟩
    have hview : openers p' (Function.update phase t ph') = Function.update (openers p phase) t (some (name, ph')) := by
      have hname' : opener ⟨some (c, prog'), held⟩ ph' = some (name, ph') :=
        opener_eq_some.mpr ⟨c, prog', rfl, hname, rfl⟩
      rw [openers_update phase ph' hp, hname']
    have hfits : Fits name := h.fits t _ hv
    have hphase : ∀ u, u ≠ t → Function.update phase t ph' u = phase u := fun u hut => Function.update_of_ne hut ..
    refine ⟨_, h.update hfollowed hp hview (fun x hx => ?_) hphase fun _ hnone => absurd hnone (Option.some_ne_none _),
      .act hcur hname hv hfits htk hview hh⟩
    cases hx
    exact hfits
  | @ret t c o prog held _ hcur hp hs ho hh =>
    have hview : openers p' phase = Function.update (openers p phase) t none := by
      have hupdate := openers_update phase (phase t) hp
      rw [Function.update_eq_self] at hupdate
      exact hupdate
    exact ⟨phase, h.update hfollowed hp hview (fun _ hx => (nomatch hx)) (fun _ _ => rfl) fun hne => absurd rfl hne,
      .ret hcur ho hview hs hh⟩

end Tracked

structure CreationRun (p : Pool n Lock Label State Call Out) (phase : Fin n → OpenPhase) (es : List DirEntry) : Prop where
  followed : opening.Followed p phase
  creating : Creating es p.state (openers p phase)
  fits : ∀ t x, openers p phase t = some x → Fits x.1
  idle : ∀ t, (p.thread t).current ≠ none → openers p phase t = none → phase t = .looking
  granted : ∀ x ∈ p.history, ∀ name flags, x.2.1 = .open (some name) flags → 0 ≤ x.2.2.ret →
    ∃ i, Named es name i ∧ HandleOn p.state x.2.2.ret.toNat i

namespace CreationRun

theorem tracked (h : CreationRun p phase es) : Tracked p phase := ⟨h.followed, h.fits, h.idle⟩

theorem of_tracked (h : Tracked p phase) (hc : Creating es p.state (openers p phase))
    (hg : ∀ x ∈ p.history, ∀ name flags, x.2.1 = .open (some name) flags → 0 ≤ x.2.2.ret →
      ∃ i, Named es name i ∧ HandleOn p.state x.2.2.ret.toNat i) : CreationRun p phase es :=
  ⟨h.followed, hc, h.fits, h.idle, hg⟩

theorem of_creating {s : State} (h : Creating [] s fun _ : Fin n => none) :
    CreationRun (.init s) (fun _ : Fin n => OpenPhase.looking) [] :=
  of_tracked (.init s) h fun _ hx => absurd hx List.not_mem_nil

theorem knows (h : CreationRun p phase es) {c : Call} {prog : Program Out} (hc : (p.thread t).current = some (c, prog)) :
    opening.Knows c (phase t) p.state := by
  cases hv : openers p phase t with
  | none => exact knows_of_owned_eq_none h.creating.rooted (by rw [h.idle t (by rw [hc]; simp) hv]; rfl)
  | some x =>
    obtain ⟨-, -, -, -, hph⟩ := opener_eq_some.mp hv
    refine ⟨h.creating.rooted, fun i hi => ?_⟩
    obtain ⟨h0, hlt, ht, -⟩ := h.creating.owned t x i hv (by rw [hph]; exact hi)
    exact ⟨h0, hlt, ht⟩

theorem pastCreate (h : CreationRun p phase es) {x : CString × OpenPhase} (hv : openers p phase t = some x)
    (hp : x.2.Pending) : PastCreate p t x.1 := by
  obtain ⟨c, prog, hc, ⟨-, flags, rfl⟩, hph⟩ := opener_eq_some.mp hv
  have hf := h.followed t _ prog hc
  rw [PastCreate, hc]
  rw [hph] at hp
  exact ⟨rfl, hp.past.assumes (h.knows hc) hf⟩

theorem absent (h : CreationRun p phase es) {name : CString} (hv : validPathname (some name) = true)
    (hl : lookup p.state (some name) = -1) : name.tail.bytes ∉ es.map (·.name) := by
  rw [lookup_eq h.creating.rooted.dirBlock hv, h.creating.dir.find] at hl
  intro hmem
  obtain ⟨e, he, hn⟩ := List.mem_map.mp hmem
  rcases lookupEntry_cases es name.tail with ⟨i, hi, -, he'⟩ | ⟨hno, -⟩
  · exact es[i].used.2 (he'.symm.trans hl)
  · exact hno e he hn

theorem reserved_of_undisturbed (h : CreationRun p phase es) (hu : Undisturbed p (.step t)) {γ : Type}
    {f : State → Option (γ × State)} {k : γ → Program Out} {c : Call} {name : CString}
    (hc : (p.thread t).current = some (c, .act (some .inodeSearch) f k)) (hn : OpensName c name) :
    es.length = maxDirEntries ∨ name.tail.bytes ∉ es.map (·.name) ∧
      ∀ u y, u ≠ t → openers p phase u = some y → y.2.Pending → y.1.tail ≠ name.tail := by
  obtain ⟨hv, flags, rfl⟩ := hn
  rw [Undisturbed, hc] at hu
  rcases hu with hfull | ⟨hl, hother⟩
  · refine .inl (le_antisymm h.creating.dir.length_le ?_)
    by_contra hlt
    exact hfull es.length (by omega) (h.creating.dir.empty _ le_rfl (by omega))
  · refine .inr ⟨h.absent hv hl, fun u y hut hy hp he => hother u hut ?_⟩
    have hpast := h.pastCreate hy hp
    obtain ⟨-, -, -, ⟨hv', -⟩, -⟩ := opener_eq_some.mp hy
    rwa [eq_of_tail hv' hv (congrArg CString.bytes he)] at hpast

theorem creating_update (h : CreationRun p phase es) {phase' : Fin n → OpenPhase} {v : Option (CString × OpenPhase)}
    (hview : openers p' phase' = Function.update (openers p phase) t v) (hs : p'.state = p.state)
    (hv : ∀ x, v = some x → x.2 = .looking) : Creating es p'.state (openers p' phase') := by
  rw [hview, hs]
  refine h.creating.of_looking fun u x hx => ?_
  rcases update_eq_some hx with ⟨-, hx⟩ | ⟨-, hx⟩
  · exact .inr (hv x hx)
  · exact .inl hx

theorem step (h : CreationRun p phase es) (hc : Creates e) (hu : Undisturbed p e) (hm : Pool.Moves body p e p') :
    ∃ phase' es', CreationRun p' phase' es' := by
  obtain ⟨phase', htracked, hnext⟩ := h.tracked.step (fun t c prog hc => h.knows hc) hc hm
  cases hnext with
  | @start t c _ _ v hnone hview hv hs hh =>
    refine ⟨phase', es, of_tracked htracked (h.creating_update hview hs hv) ?_⟩
    rw [hh, hs]
    exact h.granted
  | @silent t _ _ hview hs hh =>
    refine ⟨phase', es, of_tracked htracked ?_ ?_⟩
    · rw [hview, hs]
      exact h.creating
    · rw [hh, hs]
      exact h.granted
  | @act t c γ label f k name ph ph' _ _ hcur hname hv hfits ht hview hh =>
    obtain ⟨es', hsub, hkeep, hcreating⟩ := h.creating.step hv hfits ht fun hl => by
      subst hl
      exact h.reserved_of_undisturbed hu hcur hname
    refine ⟨phase', es', of_tracked htracked (by rw [hview]; exact hcreating) fun x hx name' flags hn hret => ?_⟩
    rw [hh] at hx
    obtain ⟨i, hi, hon⟩ := h.granted x hx name' flags hn hret
    exact ⟨i, hi.mono hsub, hkeep _ _ hon⟩
  | @ret t c prog o _ _ hcur ho hview hs hh =>
    refine ⟨phase', es, of_tracked htracked (h.creating_update hview hs fun _ hx => (nomatch hx)) ?_⟩
    intro x hx name flags hn hret
    rw [hh] at hx
    rw [hs]
    rcases List.mem_append.mp hx with hx | hx
    · exact h.granted x hx name flags hn hret
    · rw [List.mem_singleton.mp hx] at hn hret ⊢
      obtain ⟨i, g, hv, hg⟩ := h.tracked.opened hcur ho hn hret
      refine ⟨i, h.creating.has t _ i hv rfl, ?_⟩
      rw [hg, Int.toNat_natCast]
      exact h.creating.opened t _ i g hv rfl

theorem oneInode (h : CreationRun p phase es) : OneInode p := by
  intro x hx y hy name flags flags' hxn hyn hxr hyr
  obtain ⟨i, hi, hon⟩ := h.granted x hx name flags hxn hxr
  obtain ⟨j, hj, hon'⟩ := h.granted y hy name flags' hyn hyr
  rw [hon.2, hon'.2, h.creating.eq_of_named hi hj]

end CreationRun

/-- Any number of threads create files: names stay unique, and a name stands for one i-node, as long as no thread
comes to `inode_create` for a name that another has added or is about to add. -/
theorem names_unique {es : List (Pool.Event n Call)} {outs : List Unit}
    (ha : Runs.Along (Pool.step body) (fun p e => Creates e ∧ Undisturbed p e) (.init State.init) es)
    (hr : Runs.run (Pool.step body) (.init State.init) es = some (outs, p)) : UniqueNames p.state ∧ OneInode p := by
  have hstep : ∀ (q : Pool n Lock Label State Call Out) e o q', (∃ phase es, CreationRun q phase es) →
      Creates e ∧ Undisturbed q e → Pool.step body q e = some (o, q') → True ∧ ∃ phase es, CreationRun q' phase es := by
    rintro q e o q' ⟨phase, es, h⟩ ⟨hc, hu⟩ he
    exact ⟨trivial, h.step hc hu (Pool.moves_of_step he)⟩
  have hinit : ∃ phase es, CreationRun (n := n) (.init State.init) phase es :=
    ⟨_, _, CreationRun.of_creating (Creating.init _ fun _ => rfl)⟩
  obtain ⟨-, phase, es, h⟩ := Runs.run_invariant (P := fun _ => True) hstep hinit ha hr
  exact ⟨h.creating.uniqueNames, h.oneInode⟩

instance (p : Pool n Lock Label State Call Out) (u : Fin n) (name : CString) : Decidable (PastCreate p u name) :=
  match h : (p.thread u).current with
  | some (.open (some other) _, prog) =>
    decidable_of_iff (other = name ∧ prog.Assumes NoSearch p.state)
      (by rw [PastCreate, h])
  | some (.open none _, _) | some (.close _, _) | some (.write _ _, _) | some (.read _ _, _) | none =>
    isFalse (by rw [PastCreate, h]; exact id)

instance : ∀ e : Pool.Event n Call, Decidable (Creates e)
  | .start _ (.open (some _) _) => inferInstanceAs (Decidable (_ ∧ _))
  | .start _ (.open none _) | .start _ (.close _) | .start _ (.write _ _) | .start _ (.read _ _) => isFalse id
  | .step _ => isTrue trivial

instance (p : Pool n Lock Label State Call Out) : ∀ e, Decidable (Undisturbed p e)
  | .start _ _ => isTrue trivial
  | .step t =>
    match h : (p.thread t).current with
    | some (.open (some name) _, .act (some .inodeSearch) _ _) =>
      decidable_of_iff ((∀ k < maxDirEntries, dInumber p.state.fsData 0 k ≠ -1) ∨
        lookup p.state (some name) = -1 ∧ ∀ u, u ≠ t → ¬ PastCreate p u name) (by rw [Undisturbed, h])
    | some (.open (some _) _, .ret _) | some (.open (some _) _, .lock _ _ _) | some (.open (some _) _, .unlock _ _)
    | some (.open (some _) _, .act none _ _) | some (.open (some _) _, .act (some .alloc) _ _)
    | some (.open (some _) _, .act (some (.write _ _)) _ _) | some (.open none _, _) | some (.close _, _)
    | some (.write _ _, _) | some (.read _ _, _) | none => isTrue (by rw [Undisturbed, h]; trivial)

instance (s : State) : Decidable (UniqueNames s) :=
  inferInstanceAs (Decidable (∀ j < maxDirEntries, ∀ k < maxDirEntries, _ → _ → _ → _))

def openTogether (t u : Fin n) (name other : CString) (rest : List (Pool.Event n Call)) : List (Pool.Event n Call) :=
  .start t (.open (some name) tfsOCreat) :: .start u (.open (some other) tfsOCreat) ::
    (List.replicate 5 (.step t) ++ List.replicate 5 (.step u) ++ List.replicate 11 (.step t) ++
      List.replicate 14 (.step u)) ++ rest

/-- Two names at the same time, then one of them again. -/
theorem names_unique_two_files : ∃ p : Pool 2 Lock Label State Call Out, p.history.length = 3 ∧
    UniqueNames p.state ∧ OneInode p := by
  let a : CString := ⟨[47, 97], by decide⟩
  let b : CString := ⟨[47, 98], by decide⟩
  let es : List (Pool.Event 2 Call) :=
    openTogether 0 1 a b (.start 1 (.open (some a) tfsOCreat) :: List.replicate 18 (.step 1))
  have hend : (Runs.run (Pool.step body) (.init State.init) es).map (fun x => x.2.history.length) = some 3 := by
    decide +kernel
  obtain ⟨x, hx, hlen⟩ := Option.map_eq_some_iff.mp hend
  exact ⟨x.2, hlen, names_unique (by decide +kernel) hx⟩

/-- Both threads look the name up before either creates it. -/
theorem names_not_unique : ¬ ∀ (n : Nat) (es : List (Pool.Event n Call)) (outs : List Unit)
    (p : Pool n Lock Label State Call Out), Runs.Along (Pool.step body) (fun _ e => Creates e) (.init State.init) es →
      Runs.run (Pool.step body) (.init State.init) es = some (outs, p) → UniqueNames p.state ∧ OneInode p := by
  intro h
  let a : CString := ⟨[47, 97], by decide⟩
  have hend : (Runs.run (Pool.step body) (.init State.init) (openTogether (n := 2) 0 1 a a [])).map (fun x =>
      decide (UniqueNames x.2.state)) = some false := by decide +kernel
  obtain ⟨x, hx, hne⟩ := Option.map_eq_some_iff.mp hend
  exact of_decide_eq_false hne (h 2 _ x.1 x.2 (by decide +kernel) hx).1

end Tecnicofs.Ex1
