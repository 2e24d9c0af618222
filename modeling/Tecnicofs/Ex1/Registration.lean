import Tecnicofs.Ex1.Creation
import Tecnicofs.Lib.Custody

namespace Tecnicofs.Ex1

open Bytes OpenPhase

def holding {n : Nat} (view : Openers n) (t : Fin n) : Option Nat := (view t).bind fun x => x.2.owned

/-- An i-node is free, the root's, in one entry of the directory or with one thread; threads that have found or made
their file have an i-node of that name. -/
structure Registers {n : Nat} (es : List DirEntry) (s : State) (view : Openers n) (place : Nat → Place (Fin n)) : Prop where
  rooted : Rooted s
  dir : DirHolds s.fsData 0 es
  numbers : ∀ e ∈ es, ∃ i : Nat, e.inumber = i
  placed : Placed (fun i => i < inodeTableSize ∧ s.freeinodeTs i = .taken) 0 (es.map fun e => e.inumber.toNat)
    (holding view) place
  has : ∀ t x i, view t = some x → x.2.Has i → Named es x.1 i
  opened : ∀ t x i h, view t = some x → x.2 = .opened i h → HandleOn s h i

section
variable {n : Nat} {es es' : List DirEntry} {s s' : State} {view view' : Openers n} {place : Nat → Place (Fin n)}
  {t : Fin n} {name : CString} {ph ph' : OpenPhase} {i : Nat}

theorem holding_update (view : Openers n) (t : Fin n) (x : Option (CString × OpenPhase)) :
    holding (Function.update view t x) = Function.update (holding view) t (x.bind fun x => x.2.owned) := by
  funext u
  rw [holding]
  by_cases hu : u = t
  · rw [hu, Function.update_self, Function.update_self]
  · rw [Function.update_of_ne hu, Function.update_of_ne hu, holding]

theorem holding_eq {x : CString × OpenPhase} (hv : view t = some x) : holding view t = x.2.owned := by
  rw [holding, hv, Option.bind_some]

namespace Registers

theorem init (view : Openers n) (hv : ∀ t, view t = none) :
    Registers [] State.init view fun i => if i = 0 then .kept else .free where
  rooted := (Creating.init view hv).rooted
  dir := Listed.init.dir
  numbers e he := absurd he List.not_mem_nil
  placed := .init (fun i => by
    rw [State.init_eq]
    by_cases hi : i = 0 <;> simp [hi, inodeTableSize]) fun t => by rw [holding, hv]; rfl
  has t x i hx := by cases (hv t).symm.trans hx
  opened t x i g hx := by cases (hv t).symm.trans hx

theorem knows (h : Registers es s view place) {c : Call} {x : CString × OpenPhase} (hv : view t = some x) :
    opening.Knows c x.2 s := by
  refine ⟨h.rooted, fun i hi => ?_⟩
  have hheld : holding view t = some i := (holding_eq hv).trans hi
  exact ⟨h.placed.ne_kept hheld, h.placed.taken_of_held hheld⟩

theorem congr (h : Registers es s view place) (hh : holding view' = holding view)
    (hv : ∀ t x, view' t = some x → view t = some x ∨ x.2 = .looking) : Registers es s view' place where
  rooted := h.rooted
  dir := h.dir
  numbers := h.numbers
  placed := by rw [hh]; exact h.placed
  has u x i hu hx := by
    rcases hv u x hu with hu' | hl
    · exact h.has u x i hu' hx
    · rw [hl] at hx
      exact hx.elim
  opened u x i g hu hx := by
    rcases hv u x hu with hu' | hl
    · exact h.opened u x i g hu' hx
    · cases hl.symm.trans hx

theorem advance (h : Registers es s view place) (hsub : es ⊆ es') (hroot : Rooted s') (hdir : DirHolds s'.fsData 0 es')
    (hnum : ∀ e ∈ es', ∃ i : Nat, e.inumber = i) {place' : Nat → Place (Fin n)}
    (hp : Placed (fun i => i < inodeTableSize ∧ s'.freeinodeTs i = .taken) 0 (es'.map fun e => e.inumber.toNat)
      (Function.update (holding view) t ph'.owned) place')
    (hh : ∀ g j, HandleOn s g j → HandleOn s' g j) (hhas : ∀ i, ph'.Has i → Named es' name i)
    (hop : ∀ i g, ph' = .opened i g → HandleOn s' g i) :
    Registers es' s' (Function.update view t (some (name, ph'))) place' where
  rooted := hroot
  dir := hdir
  numbers := hnum
  placed := by rw [holding_update]; exact hp
  has u x i hu hx := by
    rcases update_cases hu with ⟨rfl, rfl⟩ | ⟨-, hu⟩
    · exact hhas i hx
    · exact (h.has u x i hu hx).mono hsub
  opened u x i g hu hx := by
    rcases update_cases hu with ⟨rfl, rfl⟩ | ⟨-, hu⟩
    · exact hop i g hx
    · exact hh g i (h.opened u x i g hu hx)

theorem quiet (h : Registers es s view place) (hv : view t = some (name, ph)) (hroot : Rooted s')
    (hd : s'.fsData = s.fsData) (hf : s'.freeinodeTs = s.freeinodeTs) (hown : ph'.owned = ph.owned)
    (hh : ∀ g j, HandleOn s g j → HandleOn s' g j) (hhas : ∀ i, ph'.Has i → Named es name i)
    (hop : ∀ i g, ph' = .opened i g → HandleOn s' g i) :
    Registers es s' (Function.update view t (some (name, ph'))) place := by
  refine h.advance (List.Subset.refl _) hroot (by rw [hd]; exact h.dir) h.numbers ?_ hh hhas hop
  rw [hf, hown, ← holding_eq hv, Function.update_eq_self]
  exact h.placed

theorem add (h : Registers es s view place) (hv : view t = some (name, .made i)) (hfits : Fits name) {m : Mem}
    (hm : fillDirEntry s.fsData 0 i name.tail = some m) :
    ∃ (e : DirEntry) (place' : Nat → Place (Fin n)), Registers (es ++ [e]) (s.setDisk { s.toDisk with fsData := m })
      (Function.update view t (some (name, .found i))) place' := by
  have hheld : holding view t = some i := holding_eq hv
  have h0 := h.placed.ne_kept hheld
  obtain ⟨hi, -⟩ := h.placed.taken_of_held hheld
  have hsub : IsInt i ∧ (i : Int) ≠ -1 := by
    simp only [inodeTableSize] at hi
    exact ⟨⟨by omega, by omega⟩, by omega⟩
  have hlt : es.length < maxDirEntries := by
    refine lt_of_le_of_ne h.dir.length_le fun hfull => ?_
    rw [h.dir.fill_full i name.tail hfull] at hm
    cases hm
  obtain ⟨m', hm', hdir, -⟩ := h.dir.fill hsub name.tail hlt
  cases hm.symm.trans hm'
  have hname : (DirEntry.ofName name.tail i hsub).name = name.tail.bytes := by
    simp only [Fits, CString.strlen, maxFileName] at hfits
    exact List.take_of_length_le (by simp only [maxFileName]; omega)
  refine ⟨DirEntry.ofName name.tail i hsub, _, h.advance (List.subset_append_left _ _) (h.rooted.fill h0 hi hm) hdir
    (fun e he => ?_) (by rw [List.map_append]; exact h.placed.append hheld) (fun _ _ hg => hg) (fun j hj => ?_)
    fun _ _ hx => by cases hx⟩
  · rcases List.mem_append.mp he with he | he
    · exact h.numbers e he
    · exact ⟨i, by rw [List.mem_singleton.mp he]; rfl⟩
  · cases hj
    exact ⟨_, List.mem_append_right _ (List.mem_singleton_self _), hname, rfl⟩

theorem step (h : Registers es s view place) (hv : view t = some (name, ph)) (hfits : Fits name) {label : Option Label}
    (ht : Takes name ph label s s' ph') :
    ∃ es' place', es <+: es' ∧ (∀ g j, HandleOn s g j → HandleOn s' g j) ∧
      Registers es' s' (Function.update view t (some (name, ph'))) place' := by
  have hsame : ∀ g j, HandleOn s g j → HandleOn s g j := fun _ _ hg => hg
  cases ht with
  | read =>
    refine ⟨es, place, List.prefix_rfl, hsame, ?_⟩
    rw [← hv, Function.update_eq_self]
    exact h
  | @find _ i hl =>
    refine ⟨es, place, List.prefix_rfl, hsame, h.quiet hv h.rooted rfl rfl rfl hsame ?_ fun _ _ hx => by cases hx⟩
    rintro _ rfl
    rw [h.dir.find] at hl
    rcases lookupEntry_cases es name.tail with ⟨k, hk, hn, he⟩ | ⟨-, he⟩
    · exact ⟨es[k], List.getElem_mem hk, hn, he.symm.trans hl⟩
    · omega
  | miss | full =>
    exact ⟨es, place, List.prefix_rfl, hsame, h.quiet hv h.rooted rfl rfl rfl hsame (fun _ hx => hx.elim)
      fun _ _ hx => by cases hx⟩
  | @search _ i hi hfree =>
    have hno : ¬ (i < inodeTableSize ∧ s.freeinodeTs i = .taken) := fun hit => by cases hfree.symm.trans hit.2
    have h0 : i ≠ 0 := by
      rintro rfl
      cases hfree.symm.trans h.rooted.rootTaken
    have hroot : Rooted (s.setInodeState i .taken) := h.rooted.congr rfl
      (by rw [State.setInodeState_freeinodeTs, if_neg h0.symm, h.rooted.rootTaken]) h.rooted.files rfl
    have htaken : ∀ j, (j < inodeTableSize ∧ (s.setInodeState i .taken).freeinodeTs j = .taken) ↔
        (j < inodeTableSize ∧ s.freeinodeTs j = .taken) ∨ j = i := fun j => by
      rw [State.setInodeState_freeinodeTs]
      by_cases hj : j = i
      · exact iff_of_true ⟨hj ▸ hi, by rw [if_pos hj]⟩ (.inr hj)
      · simp [hj]
    have hfile : Rooted ((s.setInodeState i .taken).setInode i { s.inodeTable i with iNodeType := .file }) :=
      hroot.setInode h0 ⟨rfl, (h.rooted.files i h0).2⟩
    have hplaced := h.placed.take hno (holding_eq hv) htaken
    have h' : Registers es _ (Function.update view t (some (name, .taken i))) _ :=
      h.advance (List.Subset.refl _) hfile h.dir h.numbers hplaced hsame (fun _ hx => hx.elim) fun _ _ hx => by cases hx
    exact ⟨es, _, List.prefix_rfl, hsame, h'⟩
  | @init _ i x hx =>
    have h0 := h.placed.ne_kept (holding_eq hv)
    have hfile := h.rooted.files i h0
    exact ⟨es, place, List.prefix_rfl, hsame, h.quiet hv (h.rooted.setInode h0 ⟨hx.1.trans hfile.1, hx.2⟩) rfl rfl rfl
      hsame (fun _ hx => hx.elim) fun _ _ hx => by cases hx⟩
  | @add _ i m hm =>
    obtain ⟨e, place', h'⟩ := h.add hv hfits hm
    exact ⟨es ++ [e], place', List.prefix_append .., hsame, h'⟩
  | refuse hm =>
    exact ⟨es, place, List.prefix_rfl, hsame, h.quiet hv h.rooted rfl rfl rfl hsame (fun _ hx => hx.elim)
      fun _ _ hx => by cases hx⟩
  | @delete _ i =>
    have hheld : holding view t = some i := holding_eq hv
    have h0 := h.placed.ne_kept hheld
    have hroot : Rooted (s.setInodeState i .free) := h.rooted.congr rfl
      (by rw [State.setInodeState_freeinodeTs, if_neg h0.symm, h.rooted.rootTaken]) h.rooted.files rfl
    have htaken : ∀ j, (j < inodeTableSize ∧ (s.setInodeState i .free).freeinodeTs j = .taken) ↔
        (j < inodeTableSize ∧ s.freeinodeTs j = .taken) ∧ j ≠ i := fun j => by
      rw [State.setInodeState_freeinodeTs]
      by_cases hj : j = i <;> simp [hj]
    have h' : Registers es _ (Function.update view t (some (name, .failed))) _ :=
      h.advance (List.Subset.refl _) hroot h.dir h.numbers (h.placed.giveBack hheld htaken) hsame (fun _ hx => hx.elim)
        fun _ _ hx => by cases hx
    exact ⟨es, _, List.prefix_rfl, hsame, h'⟩
  | @grant _ i g o hg hfree =>
    have hkeep : ∀ g' j, HandleOn s g' j → HandleOn (s.setFiles ((s.toOpenFiles.take g).setEntry g ⟨i, o⟩)) g' j :=
      fun _ _ hon => hon.grant hfree
    refine ⟨es, place, List.prefix_rfl, hkeep, h.quiet hv (h.rooted.congr rfl h.rooted.rootTaken h.rooted.files rfl) rfl
      rfl rfl hkeep (fun j hj => h.has t _ j hv hj) ?_⟩
    intro j g' hx
    cases hx
    exact .granted

end Registers

end

variable {n : Nat} {p p' : Pool n Lock Label State Call Out} {es es' : List DirEntry} {phase : Fin n → OpenPhase}
  {place : Nat → Place (Fin n)} {t : Fin n} {e : Pool.Event n Call}

/-- A used entry of the directory has an i-node of its own, which is taken. Another taken i-node but the root's is with a
thread that is in a call, and no thread has two. A handle that was returned for a name is on an i-node with that name. -/
structure Registered (p : Pool n Lock Label State Call Out) : Prop where
  entry : ∀ k < maxDirEntries, dInumber p.state.fsData 0 k ≠ -1 →
    ∃ i : Nat, dInumber p.state.fsData 0 k = i ∧ i ≠ 0 ∧ i < inodeTableSize ∧ p.state.freeinodeTs i = .taken
  once : ∀ j < maxDirEntries, ∀ k < maxDirEntries, dInumber p.state.fsData 0 j ≠ -1 →
    dInumber p.state.fsData 0 k = dInumber p.state.fsData 0 j → j = k
  pending : ∃ holder : Fin n → Option Nat, ∀ i < inodeTableSize, p.state.freeinodeTs i = .taken →
    i = 0 ∨ (∃ k < maxDirEntries, dInumber p.state.fsData 0 k = i) ∨
      ∃ t, holder t = some i ∧ (p.thread t).current ≠ none
  granted : ∀ x ∈ p.history, ∀ name flags, x.2.1 = .open (some name) flags → 0 ≤ x.2.2.ret →
    p.state.freeOpenFileEntries x.2.2.ret.toNat = .taken ∧ ∃ k < maxDirEntries,
      dInumber p.state.fsData 0 k = (p.state.openFileTable x.2.2.ret.toNat).ofInumber ∧
        strncmpEq (dName p.state.fsData 0 k) name.tail.char maxFileName = true

def EntriesKept (s s' : State) : Prop :=
  ∀ k < maxDirEntries, dInumber s.fsData 0 k ≠ -1 →
    dInumber s'.fsData 0 k = dInumber s.fsData 0 k ∧ ∀ b < maxFileName, dName s'.fsData 0 k b = dName s.fsData 0 k b

structure RegistrationRun (p : Pool n Lock Label State Call Out) (phase : Fin n → OpenPhase) (es : List DirEntry)
    (place : Nat → Place (Fin n)) : Prop where
  tracked : Tracked p phase
  registers : Registers es p.state (openers p phase) place
  granted : ∀ x ∈ p.history, ∀ name flags, x.2.1 = .open (some name) flags → 0 ≤ x.2.2.ret →
    ∃ i, Named es name i ∧ HandleOn p.state x.2.2.ret.toNat i

namespace RegistrationRun

theorem of_registers {s : State} (h : Registers [] s (fun _ : Fin n => none) place) :
    RegistrationRun (.init s) (fun _ : Fin n => OpenPhase.looking) [] place :=
  ⟨.init s, h, fun _ hx => absurd hx List.not_mem_nil⟩

theorem knows (h : RegistrationRun p phase es place) {c : Call} {prog : Program Out}
    (hc : (p.thread t).current = some (c, prog)) : opening.Knows c (phase t) p.state := by
  cases hv : openers p phase t with
  | none => exact knows_of_owned_eq_none h.registers.rooted (by rw [h.tracked.idle t (by rw [hc]; simp) hv]; rfl)
  | some x =>
    obtain ⟨-, -, -, -, hph⟩ := opener_eq_some.mp hv
    rw [← hph]
    exact h.registers.knows hv

theorem registers_update (h : RegistrationRun p phase es place) {phase' : Fin n → OpenPhase}
    {v : Option (CString × OpenPhase)} (hview : openers p' phase' = Function.update (openers p phase) t v)
    (hs : p'.state = p.state) (hold : holding (openers p phase) t = none) (hv : ∀ x, v = some x → x.2 = .looking) :
    Registers es p'.state (openers p' phase') place := by
  have hnone : (v.bind fun x => x.2.owned) = none := by
    cases v with
    | none => rfl
    | some x =>
      rw [Option.bind_some, hv x rfl]
      rfl
  rw [hview, hs]
  refine h.registers.congr ?_ fun u x hx => ?_
  · rw [holding_update, hnone, ← hold, Function.update_eq_self]
  · rcases update_eq_some hx with ⟨-, hx⟩ | ⟨-, hx⟩
    · exact .inr (hv x hx)
    · exact .inl hx

theorem step (h : RegistrationRun p phase es place) (hc : Creates e) (hm : Pool.Moves body p e p') :
    ∃ phase' es' place', es <+: es' ∧ RegistrationRun p' phase' es' place' := by
  obtain ⟨phase', htracked, hnext⟩ := h.tracked.step (fun t c prog hc => h.knows hc) hc hm
  cases hnext with
  | @start t c _ _ v hnone hview hv hs hh =>
    have hold : holding (openers p phase) t = none := by rw [holding, hnone, Option.bind_none]
    refine ⟨phase', es, place, List.prefix_rfl, htracked, h.registers_update hview hs hold hv, ?_⟩
    rw [hh, hs]
    exact h.granted
  | @silent t _ _ hview hs hh =>
    refine ⟨phase', es, place, List.prefix_rfl, htracked, ?_, ?_⟩
    · rw [hview, hs]
      exact h.registers
    · rw [hh, hs]
      exact h.granted
  | @act t c γ label f k name ph ph' _ _ hcur hname hv hfits ht hview hh =>
    obtain ⟨es', place', hsub, hkeep, hregisters⟩ := h.registers.step hv hfits ht
    refine ⟨phase', es', place', hsub, htracked, by rw [hview]; exact hregisters, fun x hx name' flags hn hret => ?_⟩
    rw [hh] at hx
    obtain ⟨i, hi, hon⟩ := h.granted x hx name' flags hn hret
    exact ⟨i, hi.mono hsub.subset, hkeep _ _ hon⟩
  | @ret t c prog o _ _ hcur ho hview hs hh =>
    have hold : holding (openers p phase) t = none := by
      cases hv : openers p phase t with
      | none => rw [holding, hv, Option.bind_none]
      | some x =>
        obtain ⟨-, -, -, -, hph⟩ := opener_eq_some.mp hv
        rw [holding_eq hv, hph]
        rcases ho with ⟨-, hown⟩ | ⟨i, g, hopen, -⟩
        · exact hown
        · rw [hopen]
          rfl
    refine ⟨phase', es, place, List.prefix_rfl, htracked, h.registers_update hview hs hold fun _ hx => (nomatch hx), ?_⟩
    intro x hx name flags hn hret
    rw [hh] at hx
    rw [hs]
    rcases List.mem_append.mp hx with hx | hx
    · exact h.granted x hx name flags hn hret
    · rw [List.mem_singleton.mp hx] at hn hret ⊢
      obtain ⟨i, g, hv, hg⟩ := h.tracked.opened hcur ho hn hret
      refine ⟨i, h.registers.has t _ i hv rfl, ?_⟩
      rw [hg, Int.toNat_natCast]
      exact h.registers.opened t _ i g hv rfl

theorem run {evs : List (Pool.Event n Call)} {outs : List Unit} (h : RegistrationRun p phase es place)
    (ha : ∀ e ∈ evs, Creates e) (hr : Runs.run (Pool.step body) p evs = some (outs, p')) :
    ∃ phase' es' place', es <+: es' ∧ RegistrationRun p' phase' es' place' := by
  have hstep : ∀ (q : Pool n Lock Label State Call Out) e o q',
      (∃ phase' es' place', es <+: es' ∧ RegistrationRun q phase' es' place') → Creates e ∧ True →
      Pool.step body q e = some (o, q') →
        True ∧ ∃ phase' es' place', es <+: es' ∧ RegistrationRun q' phase' es' place' := by
    rintro q e o q' ⟨phase₁, es₁, place₁, hsub, hq⟩ ⟨hc, -⟩ he
    obtain ⟨phase₂, es₂, place₂, hsub', hq'⟩ := hq.step hc (Pool.moves_of_step he)
    exact ⟨trivial, phase₂, es₂, place₂, hsub.trans hsub', hq'⟩
  have hall : Runs.Along (Pool.step body) (fun _ _ => True) p evs := .of_forall (fun _ _ => trivial) p evs
  exact (Runs.run_invariant (P := fun _ => True) hstep ⟨phase, es, place, List.prefix_rfl, h⟩ (hall.and_of_mem ha) hr).2

theorem inumber (h : RegistrationRun p phase es place) {k : Nat} (hk : k < es.length) :
    ∃ i : Nat, dInumber p.state.fsData 0 k = i ∧ (es.map fun e => e.inumber.toNat)[k]? = some i := by
  obtain ⟨i, hi⟩ := h.registers.numbers es[k] (List.getElem_mem hk)
  refine ⟨i, (h.registers.dir.inumber k hk).trans hi, ?_⟩
  rw [List.getElem?_map, List.getElem?_eq_getElem hk, Option.map_some, hi, Int.toNat_natCast]

theorem registered (h : RegistrationRun p phase es place) : Registered p where
  entry k hk hne := by
    obtain ⟨i, hi, hget⟩ := h.inumber (h.registers.dir.lt_length hk hne)
    have hmem := List.mem_of_getElem? hget
    obtain ⟨hlt, ht⟩ := h.registers.placed.taken_of_mem hmem
    exact ⟨i, hi, h.registers.placed.ne_kept_of_mem hmem, hlt, ht⟩
  once j hj k hk hne he := by
    obtain ⟨i, hi, hget⟩ := h.inumber (h.registers.dir.lt_length hj hne)
    obtain ⟨i', hi', hget'⟩ := h.inumber (h.registers.dir.lt_length hk (he ▸ hne))
    have hsame : i' = i := by omega
    subst hsame
    exact h.registers.placed.eq_of_listed hget hget'
  pending := by
    refine ⟨holding (openers p phase), fun i hi ht => ?_⟩
    rcases h.registers.placed.cases ⟨hi, ht⟩ with h0 | hmem | ⟨t, hheld⟩
    · exact .inl h0
    · obtain ⟨e, he, hei⟩ := List.mem_map.mp hmem
      obtain ⟨k, hk, rfl⟩ := List.getElem_of_mem he
      obtain ⟨j, hj, hget⟩ := h.inumber hk
      refine .inr (.inl ⟨k, Nat.lt_of_lt_of_le hk h.registers.dir.length_le, ?_⟩)
      rw [List.getElem?_map, List.getElem?_eq_getElem hk, Option.map_some, hei] at hget
      rw [hj, Option.some.inj hget]
    · refine .inr (.inr ⟨t, hheld, fun hnone => ?_⟩)
      rw [holding, openers, opener, hnone] at hheld
      cases hheld
  granted x hx name flags hn hret := by
    obtain ⟨i, ⟨e, he, hname, hei⟩, hon⟩ := h.granted x hx name flags hn hret
    obtain ⟨k, hk, rfl⟩ := List.getElem_of_mem he
    refine ⟨hon.1, k, Nat.lt_of_lt_of_le hk h.registers.dir.length_le, ?_, (h.registers.dir.strncmpEq_iff _ hk).mpr hname⟩
    rw [h.registers.dir.inumber k hk, hei, hon.2]

theorem entriesKept {q : Pool n Lock Label State Call Out} {phase' : Fin n → OpenPhase} {place' : Nat → Place (Fin n)}
    (h : RegistrationRun p phase es place) (h' : RegistrationRun q phase' es' place') (hsub : es <+: es') :
    EntriesKept p.state q.state := by
  intro k hk hne
  have hlt := h.registers.dir.lt_length hk hne
  have hlt' : k < es'.length := hlt.trans_le hsub.length_le
  have hget : es'[k] = es[k] := (hsub.getElem hlt).symm
  refine ⟨?_, fun b hb => ?_⟩
  · rw [h'.registers.dir.inumber k hlt', h.registers.dir.inumber k hlt, hget]
  · rw [h'.registers.dir.name k hlt' b hb, h.registers.dir.name k hlt b hb, hget]

end RegistrationRun

/-- Any number of threads create files, also of one name at the same time: no i-node is lost, no entry is overwritten,
and no handle is on an i-node without an entry of its name. -/
theorem creations_kept {evs evs' : List (Pool.Event n Call)} {outs outs' : List Unit}
    (ha : ∀ e ∈ evs, Creates e) (hr : Runs.run (Pool.step body) (.init State.init) evs = some (outs, p))
    (ha' : ∀ e ∈ evs', Creates e) (hr' : Runs.run (Pool.step body) p evs' = some (outs', p')) :
    Registered p' ∧ EntriesKept p.state p'.state := by
  obtain ⟨phase, es, place, -, h⟩ := (RegistrationRun.of_registers (.init _ fun _ => rfl)).run ha hr
  obtain ⟨phase', es', place', hsub, h'⟩ := h.run ha' hr'
  exact ⟨h'.registered, h.entriesKept h' hsub⟩

/-- Two threads add an entry for one name, and then the name is opened again. -/
theorem creations_kept_one_name : ∃ p p' : Pool 2 Lock Label State Call Out, ¬ UniqueNames p.state ∧
    p'.history.length = 3 ∧ Registered p' ∧ EntriesKept p.state p'.state := by
  let a : CString := ⟨[47, 97], by decide⟩
  let evs : List (Pool.Event 2 Call) := openTogether 0 1 a a []
  let evs' : List (Pool.Event 2 Call) := .start 1 (.open (some a) tfsOCreat) :: List.replicate 18 (.step 1)
  have hend : (Runs.run (Pool.step body) (.init State.init) evs).bind (fun x =>
      (Runs.run (Pool.step body) x.2 evs').map fun y => (decide (UniqueNames x.2.state), y.2.history.length)) =
      some (false, 3) := by decide +kernel
  obtain ⟨x, hx, hrest⟩ := Option.bind_eq_some_iff.mp hend
  obtain ⟨y, hy, he⟩ := Option.map_eq_some_iff.mp hrest
  obtain ⟨hunique, hlen⟩ := Prod.mk.inj he
  exact ⟨x.2, y.2, of_decide_eq_false hunique, hlen, creations_kept (by decide) hx (by decide) hy⟩

end Tecnicofs.Ex1
