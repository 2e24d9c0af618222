import Tecnicofs.Ex1.HandleOwners
import Tecnicofs.Lib.Inevitable

namespace Tecnicofs.Ex1.HandleTable

variable {n : Nat} {f f' f₀ : OpenFiles} {a a' : Fin n → Option (Call × Phase)} {t u : Fin n} {c : Call} {ph ph' : Phase}
  {history history' new : List (Fin n × Call × Int)} {e : Pool.Event n Call} {p p' : Threads n} {phase : Fin n → Phase}

inductive Moves (f : OpenFiles) (a : Fin n → Option (Call × Phase)) (history : List (Fin n × Call × Int)) :
    Pool.Event n Call → OpenFiles → (Fin n → Option (Call × Phase)) → List (Fin n × Call × Int) → Prop
  | start {t : Fin n} {c : Call} (ht : a t = none) :
      Moves f a history (.start t c) f (Function.update a t (some (c, Phase.start c))) history
  | silent {t : Fin n} : Moves f a history (.step t) f a history
  | act {t : Fin n} {c : Call} {ph ph' : Phase} {f' : OpenFiles} (ht : a t = some (c, ph)) (hact : Takes c ph f f' ph')
      (halone : ∀ m, ph' = .found m → ∀ u d, u ≠ t → a u ≠ some (d, .found m)) :
      Moves f a history (.step t) f' (Function.update a t (some (c, ph'))) history
  | ret {t : Fin n} {c : Call} {ph : Phase} {r : Int} (ht : a t = some (c, ph)) (hr : Returns c ph r) :
      Moves f a history (.step t) f (Function.update a t none) (history ++ [(t, c, r)])

theorem Owners.step (h : Owners f a history)
    (hown : ∀ t fhandle, e = .start t (.remove fhandle) → ∃ g ∈ heldIn a history, g.thread = t ∧ g.fhandle = fhandle)
    (hm : Moves f a history e f' a' history') : Owners f' a' history' := by
  cases hm with
  | start ht => exact h.start ht fun fhandle hc => hown _ fhandle (by rw [hc])
  | silent => exact h
  | act ht hact halone => exact h.takes ht hact halone
  | ret ht hr => exact h.ret ht hr

def activity (p : Threads n) (phase : Fin n → Phase) (t : Fin n) : Option (Call × Phase) :=
  (p.thread t).current.map fun x => (x.1, phase t)

theorem activity_update {x : Thread Lock Label State Call Int} (hp : p'.thread = Function.update p.thread t x)
    (phase : Fin n → Phase) (ph : Phase) : activity p' (Function.update phase t ph) =
      Function.update (activity p phase) t (x.current.map fun y => (y.1, ph)) := by
  funext u
  by_cases hu : u = t
  · subst hu
    rw [activity, hp, Function.update_self, Function.update_self, Function.update_self]
  · rw [activity, hp, Function.update_of_ne hu, Function.update_of_ne hu, Function.update_of_ne hu]
    rfl

theorem activity_stay {x : Thread Lock Label State Call Int} (hp : p'.thread = Function.update p.thread t x) :
    activity p' phase = Function.update (activity p phase) t (x.current.map fun y => (y.1, phase t)) := by
  have hsame := activity_update hp phase (phase t)
  rwa [Function.update_eq_self] at hsame

theorem heldIn_activity (p : Threads n) (phase : Fin n → Phase) : heldIn (activity p phase) p.history = held p := by
  have hcalls : (fun t => (activity p phase t).map Prod.fst) = calls p := by
    funext t
    rw [activity, Option.map_map]
    rfl
  rw [heldIn, hcalls]
  rfl

theorem of_activity {x : Call × Phase} (h : activity p phase t = some x) :
    x.2 = phase t ∧ ∃ prog, (p.thread t).current = some (x.1, prog) := by
  obtain ⟨y, hy, rfl⟩ := Option.map_eq_some_iff.mp h
  exact ⟨rfl, y.2, hy⟩

theorem moves_of_step (hg : sharing.Guarded Needs p phase)
    (hknows : ∀ t c prog, (p.thread t).current = some (c, prog) → sharing.Knows c (phase t) p.state)
    (hvalid : ∀ t fhandle, e = .start t (.remove fhandle) → validFileHandle fhandle) (hm : Pool.Moves body p e p') :
    ∃ phase', sharing.Guarded Needs p' phase' ∧
      Moves p.state.toOpenFiles (activity p phase) p.history e p'.state.toOpenFiles (activity p' phase') p'.history := by
  have hbody : ∀ t c, e = .start t c → sharing.Left Needs ⟨some (c, body c), (p.thread t).held⟩ (Phase.start c) := by
    rintro t c rfl c' prog hc
    cases hc
    cases c with
    | add inumber offset =>
      refine ⟨secured_of_not (fun _ => id) _, ?_⟩
      have hguards := guards_addFrom inumber offset le_rfl (p.thread t).held
      rwa [Nat.sub_self] at hguards
    | remove fhandle =>
      exact ⟨secured_of_not (fun _ => id) _, guards_removeFromOpenFileTable (hvalid t fhandle rfl) _⟩
  obtain ⟨phase', hmove, hg'⟩ : ∃ phase', sharing.Moves Phase.start p phase e p' phase' ∧
      sharing.Guarded Needs p' phase' := hg.step hknows hbody hm
  refine ⟨phase', hg', ?_⟩
  cases hmove with
  | @start t c prog held _ hc hp hs hh =>
    rw [hs, hh, activity_update hp]
    refine .start ?_
    rw [activity, hc]
    rfl
  | @silent t c prog prog' held _ hc hp hs hh =>
    rw [hs, hh, activity_stay hp, Function.update_eq_self_iff.mpr]
    · exact .silent
    · rw [activity, hc]
      rfl
  | @act t c γ label g k prog' held _ ph' hc hp ht hh =>
    obtain ⟨f', hact, hs⟩ := ht
    have hself : activity p' (Function.update phase t ph') t = some (c, ph') := by
      rw [activity_update hp, Function.update_self]
      rfl
    have halone : ∀ m, ph' = .found m → ∀ u d, u ≠ t → activity p phase u ≠ some (d, .found m) := by
      intro m hm u d hu hfound
      have hother : activity p' (Function.update phase t ph') u = some (d, .found m) := by
        rw [activity_update hp, Function.update_of_ne hu, hfound]
      obtain ⟨hph, prog₁, hc₁⟩ := of_activity hself
      obtain ⟨hph', prog₂, hc₂⟩ := of_activity hother
      refine hu (hg'.alone (t := t) (u := u) (l := .file m) ?_ ?_ ?_ ?_)
      · rw [hc₁]
        exact Option.some_ne_none _
      · rw [hc₂]
        exact Option.some_ne_none _
      · rw [← hph]
        simp only [hm, Needs]
      · rw [← hph']
        simp only [Needs]
    rw [hs, hh, activity_update hp]
    refine .act ?_ hact halone
    rw [activity, hc]
    rfl
  | @ret t c o prog held _ hc hp hs ho hh =>
    rw [hs, hh, activity_stay hp]
    have hat : activity p phase t = some (c, phase t) := by
      rw [activity, hc]
      rfl
    exact .ret hat ho

theorem granted_concat (x : Fin n × Call × Int) :
    granted (new ++ [x]) = granted new ++ if x.2.2 = -1 then [] else [x.2.2] := by
  by_cases hx : x.2.2 = -1 <;> simp [granted, hx]

/-- Since the table was `f₀`, the threads have only added: the entries taken since are those of the calls in `new` and of
calls that have not returned. -/
structure Adding (f₀ f : OpenFiles) (a : Fin n → Option (Call × Phase)) (new : List (Fin n × Call × Int)) : Prop where
  calls : ∀ t x, a t = some x → ∃ i o, x.1 = .add i o
  news : ∀ x ∈ new, ∃ i o, x.2.1 = .add i o
  valid : ∀ r ∈ granted new, ∃ h < maxOpenFiles, r = (h : Nat)
  taken : ∀ h : Nat, f.freeOpenFileEntries h = .taken ↔
    f₀.freeOpenFileEntries h = .taken ∨ (h : Int) ∈ granted new ∨ ∃ t, Busy a t h
  fresh : ∀ h : Nat, (h : Int) ∈ granted new ∨ (∃ t, Busy a t h) → f₀.freeOpenFileEntries h = .free
  passed : ∀ t c m, a t = some (c, .scanning m) → ∀ j < m, f.freeOpenFileEntries j = .taken
  full : (∃ x ∈ new, x.2.2 = -1) → ∀ j < maxOpenFiles, f.freeOpenFileEntries j = .taken

namespace Adding

theorem init (hidle : ∀ t, a t = none) : Adding f f a [] := by
  have hnone : ∀ t h, ¬ Busy a t h := by
    rintro t h ⟨x, hx, -⟩
    rw [hidle t] at hx
    cases hx
  refine ⟨fun t x hx => ?_, fun x hx => (by cases hx), fun r hr => (by cases hr), fun h => ?_, fun h hh => ?_,
    fun t c m hx => ?_, ?_⟩
  · rw [hidle t] at hx
    cases hx
  · simp [granted, hnone]
  · simp [granted, hnone] at hh
  · rw [hidle t] at hx
    cases hx
  · rintro ⟨x, hx, -⟩
    cases hx

theorem goOn (h : Adding f₀ f a new) {i : Int} {o : Nat}
    (hfree : f'.freeOpenFileEntries = f.freeOpenFileEntries)
    (hself : ∀ x, ph'.owned = some x ↔ Busy a t x)
    (hpassed : ∀ m, ph' = .scanning m → ∀ j < m, f.freeOpenFileEntries j = .taken) :
    Adding f₀ f' (Function.update a t (some (.add i o, ph'))) new := by
  have hbusy : ∀ x, (∃ u, Busy (Function.update a t (some (.add i o, ph'))) u x) ↔ ∃ u, Busy a u x := by
    intro x
    refine exists_congr fun u => ?_
    rw [busy_update]
    split
    · next hu => simp [hself, hu]
    · rfl
  refine ⟨fun u x hx => ?_, h.news, h.valid, fun k => ?_, fun k hk => ?_, fun u d m hx => ?_, ?_⟩
  · by_cases hu : u = t
    · rw [hu, Function.update_self] at hx
      cases hx
      exact ⟨i, o, rfl⟩
    · rw [Function.update_of_ne hu] at hx
      exact h.calls u x hx
  · rw [hfree, hbusy]
    exact h.taken k
  · rw [hbusy] at hk
    exact h.fresh k hk
  · rw [hfree]
    by_cases hu : u = t
    · rw [hu, Function.update_self, Option.some.injEq, Prod.mk.injEq] at hx
      exact hpassed m hx.2
    · rw [Function.update_of_ne hu] at hx
      exact h.passed u d m hx
  · rw [hfree]
    exact h.full

theorem take (h : Adding f₀ f a new) {i : Int} {o m : Nat} (ht : a t = some (.add i o, .found m))
    (hfree : f.freeOpenFileEntries m = .free) :
    Adding f₀ (f.take m) (Function.update a t (some (.add i o, .filling m))) new := by
  have hbusy : ∀ x, (∃ u, Busy (Function.update a t (some (.add i o, .filling m))) u x) ↔
      x = m ∨ ∃ u, Busy a u x := by
    intro x
    have hno : ¬ Busy a t x := by
      rintro ⟨y, hy, ho⟩
      rw [ht] at hy
      cases hy
      cases ho
    constructor
    · rintro ⟨u, hu⟩
      rw [busy_update] at hu
      split at hu
      · obtain ⟨y, hy, ho⟩ := hu
        cases hy
        exact .inl (Option.some.inj ho).symm
      · exact .inr ⟨u, hu⟩
    · rintro (rfl | ⟨u, hu⟩)
      · exact ⟨t, busy_update.mpr (by rw [if_pos rfl]; exact ⟨_, rfl, rfl⟩)⟩
      · refine ⟨u, busy_update.mpr ?_⟩
        rwa [if_neg (by rintro rfl; exact hno hu)]
  have hmore : ∀ k, f.freeOpenFileEntries k = .taken → (f.take m).freeOpenFileEntries k = .taken := fun k hk => by
    rw [OpenFiles.take_free]
    split
    · rfl
    · exact hk
  refine ⟨fun u x hx => ?_, h.news, h.valid, fun k => ?_, fun k hk => ?_, fun u d j hx => ?_,
    fun hx j hj => hmore j (h.full hx j hj)⟩
  · by_cases hu : u = t
    · rw [hu, Function.update_self] at hx
      cases hx
      exact ⟨i, o, rfl⟩
    · rw [Function.update_of_ne hu] at hx
      exact h.calls u x hx
  · rw [hbusy, OpenFiles.take_free, Int.natCast_inj]
    by_cases hk : k = m
    · simp [hk]
    · rw [if_neg hk, h.taken k]
      simp [hk]
  · rw [hbusy, Int.natCast_inj] at hk
    by_cases hkm : k = m
    · subst hkm
      cases hf₀ : f₀.freeOpenFileEntries k with
      | free => rfl
      | taken =>
        rw [(h.taken k).mpr (.inl hf₀)] at hfree
        cases hfree
    · exact h.fresh k (hk.imp_right fun hk => hk.resolve_left hkm)
  · by_cases hu : u = t
    · rw [hu, Function.update_self] at hx
      cases hx
    · rw [Function.update_of_ne hu] at hx
      exact fun k hk => hmore k (h.passed u d j hx k hk)

theorem ret {r : Int} (h : Adding f₀ f a new) (hopen : ∀ x, Busy a t x → f.IsOpen x) (ht : a t = some (c, ph))
    (hr : Returns c ph r) : Adding f₀ f (Function.update a t none) (new ++ [(t, c, r)]) := by
  have hadd : ∃ i o, c = .add i o := h.calls t _ ht
  have hself : ∀ x, Busy a t x ↔ ph.owned = some x := fun x => by
    simp only [Busy, ht, Option.some.injEq, exists_eq_left']
  have hold : ∀ {v : Fin n} {y : Call × Phase}, Function.update a t none v = some y → a v = some y := by
    intro v y ha
    by_cases hv : v = t
    · rw [hv, Function.update_self] at ha
      cases ha
    · rwa [Function.update_of_ne hv] at ha
  -- The handle that the thread owned is the one that the call returns.
  have howned : (∀ x, ph.owned = some x ↔ r = x ∧ r ≠ -1) ∧
      (r = -1 → ∀ j < maxOpenFiles, f.freeOpenFileEntries j = .taken) := by
    cases hr with
    | @granted i o m =>
      refine ⟨fun x => ?_, fun hr => by omega⟩
      simp only [Phase.owned, Option.some.injEq]
      omega
    | full =>
      refine ⟨fun x => ?_, fun _ => h.passed t _ _ ht⟩
      simp [Phase.owned]
    | removed =>
      obtain ⟨i, o, hc⟩ := hadd
      cases hc
  have hsame : ∀ x, (x ∈ granted (new ++ [(t, c, r)]) ∨ ∃ u, Busy (Function.update a t none) u x) ↔
      x ∈ granted new ∨ ∃ u, Busy a u x := by
    intro x
    have hin : x ∈ granted (new ++ [(t, c, r)]) ↔ x ∈ granted new ∨ Busy a t x := by
      rw [granted_concat, List.mem_append, hself, howned.1]
      refine or_congr_right ?_
      by_cases hr1 : r = -1
      · simp [hr1]
      · simp [hr1, eq_comm]
    rw [hin, or_assoc]
    refine or_congr_right ⟨?_, ?_⟩
    · rintro (hb | ⟨u, hb⟩)
      · exact ⟨t, hb⟩
      · rw [busy_update] at hb
        split at hb
        · obtain ⟨y, hy, -⟩ := hb
          cases hy
        · exact ⟨u, hb⟩
    · rintro ⟨u, hb⟩
      by_cases hu : u = t
      · exact .inl (hu ▸ hb)
      · exact .inr ⟨u, busy_update.mpr (by rwa [if_neg hu])⟩
  refine ⟨fun u x hx => h.calls u x (hold hx), fun x hx => ?_, fun x hx => ?_, fun k => (h.taken k).trans ?_,
    fun k hk => h.fresh k ((hsame k).mp hk), fun u d m hx => h.passed u d m (hold hx), ?_⟩
  · rcases List.mem_append.mp hx with hx | hx
    · exact h.news x hx
    · rw [List.mem_singleton.mp hx]
      exact hadd
  · rw [granted_concat, List.mem_append] at hx
    rcases hx with hx | hx
    · exact h.valid x hx
    · have hr1 : r ≠ -1 ∧ x = r := by
        by_cases hr1 : r = -1
        · simp [hr1] at hx
        · exact ⟨hr1, by simpa [hr1] using hx⟩
      obtain ⟨k, hk, he, -⟩ := (hopen r ((hself r).mpr ((howned.1 r).mpr ⟨rfl, hr1.1⟩))).exists
      exact ⟨k, hk, hr1.2.trans he⟩
  · rw [hsame]
  · rintro ⟨x, hx, he⟩
    rcases List.mem_append.mp hx with hx | hx
    · exact h.full ⟨x, hx, he⟩
    · rw [List.mem_singleton.mp hx] at he
      exact howned.2 he

theorem step (h : Adding f₀ f a new) (ho : Owners f a history) (hadd : ∀ t fhandle, e ≠ .start t (.remove fhandle))
    (hm : Moves f a history e f' a' history') : ∃ news, history' = history ++ news ∧ Adding f₀ f' a' (new ++ news) := by
  cases hm with
  | @start t c ht =>
    refine ⟨[], (List.append_nil _).symm, ?_⟩
    rw [List.append_nil]
    cases c with
    | add i o =>
      refine h.goOn rfl (fun x => ?_) fun m hm j hj => ?_
      · simp [Busy, ht, Phase.start, Phase.owned]
      · cases hm
        omega
    | remove fhandle => exact absurd rfl (hadd t fhandle)
  | silent => exact ⟨[], (List.append_nil _).symm, by rwa [List.append_nil]⟩
  | @act t c ph ph' f' ht hact _ =>
    refine ⟨[], (List.append_nil _).symm, ?_⟩
    rw [List.append_nil]
    have hself : ∀ x, Busy a t x ↔ ph.owned = some x := fun x => by
      simp only [Busy, ht, Option.some.injEq, exists_eq_left']
    obtain ⟨i, o, hc⟩ := h.calls t _ ht
    cases hact with
    | @pass _ _ m _ htaken =>
      refine h.goOn rfl (fun x => by rw [hself]; rfl) fun k hk j hj => ?_
      cases hk
      rcases Nat.lt_succ_iff_lt_or_eq.mp hj with hj | rfl
      · exact h.passed t _ m ht j hj
      · exact htaken
    | find _ _ => exact h.goOn rfl (fun x => by rw [hself]; rfl) fun k hk => by cases hk
    | take => exact h.take ht (ho.free t _ _ ht).2
    | number => exact h.goOn rfl (fun x => by rw [hself]; rfl) fun k hk => by cases hk
    | store => exact h.goOn rfl (fun x => by rw [hself]; rfl) fun k hk => by cases hk
    | check => cases hc
    | release => cases hc
  | ret ht hr => exact ⟨_, rfl, h.ret (ho.isOpen _) ht hr⟩

theorem count (h : Adding f₀ f a new) (hidle : ∀ t, a t = none) (hd : (granted new).Nodup) :
    (granted new).length = min new.length (freeHandles f₀) := by
  have hnone : ∀ t x, ¬ Busy a t x := fun t x hb => by
    obtain ⟨y, hy, -⟩ := hb
    rw [hidle t] at hy
    cases hy
  have hlen : (granted new).length ≤ new.length := by
    refine (List.length_filter_le _ _).trans ?_
    rw [List.length_map]
  -- The entries that were granted are among those that were free.
  have hsub : ((granted new).map Int.toNat).toFinset ⊆
      (Finset.range maxOpenFiles).filter fun k => f₀.freeOpenFileEntries k = .free := by
    intro k hk
    obtain ⟨r, hr, rfl⟩ := List.mem_map.mp (List.mem_toFinset.mp hk)
    obtain ⟨m, hm, rfl⟩ := h.valid r hr
    rw [Int.toNat_natCast]
    exact Finset.mem_filter.mpr ⟨Finset.mem_range.mpr hm, h.fresh m (.inl hr)⟩
  have hnodup : ((granted new).map Int.toNat).Nodup := by
    refine hd.map_on fun x hx y hy he => ?_
    obtain ⟨m, -, rfl⟩ := h.valid x hx
    obtain ⟨m', -, rfl⟩ := h.valid y hy
    rw [Int.toNat_natCast, Int.toNat_natCast] at he
    rw [he]
  have hcard : ((granted new).map Int.toNat).toFinset.card = (granted new).length := by
    rw [List.toFinset_card_of_nodup hnodup, List.length_map]
  have hle : (granted new).length ≤ freeHandles f₀ := hcard ▸ Finset.card_le_card hsub
  by_cases hfull : ∃ x ∈ new, x.2.2 = -1
  · have hall : (Finset.range maxOpenFiles).filter (fun k => f₀.freeOpenFileEntries k = .free) ⊆
        ((granted new).map Int.toNat).toFinset := by
      intro k hk
      obtain ⟨hlt, hfree⟩ := Finset.mem_filter.mp hk
      rcases (h.taken k).mp (h.full hfull k (Finset.mem_range.mp hlt)) with ht | hg | ⟨t, hb⟩
      · rw [hfree] at ht
        cases ht
      · exact List.mem_toFinset.mpr (List.mem_map.mpr ⟨_, hg, Int.toNat_natCast k⟩)
      · exact absurd hb (hnone t _)
    have hge : freeHandles f₀ ≤ (granted new).length := hcard ▸ Finset.card_le_card hall
    omega
  · have hsame : granted new = new.map fun x => x.2.2 := by
      refine List.filter_eq_self.mpr fun r hr => ?_
      obtain ⟨x, hx, rfl⟩ := List.mem_map.mp hr
      exact decide_eq_true fun he => hfull ⟨x, hx, he⟩
    have hlen' : (granted new).length = new.length := by rw [hsame, List.length_map]
    omega

end Adding

theorem map_foldl_record {gs : List (Grant n)} (hnew : ∀ x ∈ new, ∃ i o, x.2.1 = Call.add i o) :
    (new.foldl record gs).map Grant.fhandle = gs.map Grant.fhandle ++ granted new := by
  induction new generalizing gs with
  | nil => simp [granted]
  | cons x new ih =>
    obtain ⟨t, c, r⟩ := x
    obtain ⟨i, o, rfl⟩ := hnew _ List.mem_cons_self
    rw [List.foldl_cons, ih fun y hy => hnew y (List.mem_cons_of_mem _ hy), record]
    by_cases hr : r = -1
    · simp [granted, hr]
    · simp [granted, hr]

theorem heldIn_of_idle (hidle : ∀ t, a t = none) : heldIn a history = grants history := by
  refine List.filter_eq_self.mpr fun g _ => decide_eq_true ?_
  beta_reduce
  rw [hidle]
  exact fun he => by cases he

structure Sharing (p : Threads n) (phase : Fin n → Phase) : Prop where
  guarded : sharing.Guarded Needs p phase
  owners : Owners p.state.toOpenFiles (activity p phase) p.history

namespace Sharing

theorem init (s : State) : Sharing (Pool.init s : Threads n) fun _ => .removed where
  guarded := ⟨fun t c prog hc => (by cases hc), .init s⟩
  owners := by
    have hnone : ∀ t x, ¬ Busy (activity (Pool.init s : Threads n) fun _ => .removed) t x := by
      rintro t x ⟨y, hy, -⟩
      cases hy
    refine ⟨fun t x hb => absurd hb (hnone t x), fun t u x hb => absurd hb (hnone t x), fun t c m hx => (by cases hx),
      fun t u c d m hx => (by cases hx), fun t i o m hx => (by cases hx), fun t i o m hx => (by cases hx),
      fun g hg => ?_, fun g hg => ?_, ?_⟩
    · cases hg
    · cases hg
    · exact List.nodup_nil

theorem moves (h : Sharing p phase) (hown : RemovesOwn p e) (hm : Pool.Moves body p e p') :
    ∃ phase', Sharing p' phase' ∧
      Moves p.state.toOpenFiles (activity p phase) p.history e p'.state.toOpenFiles (activity p' phase') p'.history := by
  have hremoves : ∀ t fhandle, e = .start t (.remove fhandle) →
      ∃ g ∈ heldIn (activity p phase) p.history, g.thread = t ∧ g.fhandle = fhandle := by
    rintro t fhandle rfl
    rw [heldIn_activity]
    exact hown
  have hknows : ∀ t c prog, (p.thread t).current = some (c, prog) → sharing.Knows c (phase t) p.state := by
    intro t c prog hc fhandle hph
    refine h.owners.isOpen t fhandle ⟨(c, phase t), ?_, ?_⟩
    · rw [activity, hc]
      rfl
    · rw [hph]
      rfl
  obtain ⟨phase', hg', hmoves⟩ := moves_of_step h.guarded hknows (fun t fhandle he => by
    obtain ⟨g, hg, -, rfl⟩ := hremoves t fhandle he
    exact (h.owners.held g hg).1.1) hm
  exact ⟨phase', ⟨hg', h.owners.step hremoves hmoves⟩, hmoves⟩

theorem exclusive (h : Sharing p phase) : Exclusive p where
  distinct := heldIn_activity p phase ▸ h.owners.distinct
  stored g hg := h.owners.held g (heldIn_activity p phase ▸ hg)

end Sharing

def Idle (p : Threads n) : Prop := ∀ t, (p.thread t).current = none

/-- The step is not the start of a removal. -/
def Adds : Pool.Event n Call → Prop
  | .start _ (.remove _) => False
  | .start _ (.add _ _) | .step _ => True

instance : ∀ e : Pool.Event n Call, Decidable (Adds e)
  | .start _ (.remove _) => isFalse id
  | .start _ (.add _ _) | .step _ => isTrue trivial

theorem Idle.activity (h : Idle p) (phase : Fin n → Phase) (t : Fin n) : activity p phase t = none := by
  rw [HandleTable.activity, h t]
  rfl

/-- Threads that add, and remove what they hold: no handle has two owners, and the entry of a handle that is held is the
one its call stored.  Of calls that all add, as many get a handle as there were free entries, all different. -/
theorem handles_exclusive {s : State} {es : List (Pool.Event n Call)} {outs : List Unit}
    (ha : Runs.Along (Pool.step body) RemovesOwn (Pool.init s) es)
    (hr : Runs.run (Pool.step body) (Pool.init s) es = some (outs, p)) :
    Exclusive p ∧ ∀ es' outs' p', Idle p → Runs.Along (Pool.step body) (fun _ e => Adds e) p es' →
      Runs.run (Pool.step body) p es' = some (outs', p') → Idle p' →
      ∃ new, p'.history = p.history ++ new ∧ (granted new).Nodup ∧
        (granted new).length = min new.length (freeHandles p.state.toOpenFiles) := by
  obtain ⟨-, phase, h⟩ := Runs.run_invariant (I := fun p => ∃ phase, Sharing p phase) (P := fun _ => True)
    (fun q e _ q' hq hown hs => ⟨trivial, by
      obtain ⟨phase, hq⟩ := hq
      obtain ⟨phase', hq', -⟩ := hq.moves hown (Pool.moves_of_step hs)
      exact ⟨phase', hq'⟩⟩) ⟨_, Sharing.init s⟩ ha hr
  refine ⟨h.exclusive, fun es' outs' p' hidle ha' hr' hidle' => ?_⟩
  obtain ⟨-, phase', new, h', hh, hadding⟩ := Runs.run_invariant
    (I := fun q => ∃ phase' new, Sharing q phase' ∧ q.history = p.history ++ new ∧
      Adding p.state.toOpenFiles q.state.toOpenFiles (activity q phase') new) (P := fun _ => True)
    (fun q e _ q' hq hadds hs => ⟨trivial, by
      obtain ⟨phase', new, hq, hh, hadding⟩ := hq
      have hno : ∀ t fhandle, e ≠ .start t (.remove fhandle) := by
        rintro t fhandle rfl
        exact hadds
      have hown : RemovesOwn q e := by
        cases e with
        | start t c =>
          cases c with
          | add i o => trivial
          | remove fhandle => exact absurd rfl (hno t fhandle)
        | step t => trivial
      obtain ⟨phase'', hq', hmoves⟩ := hq.moves hown (Pool.moves_of_step hs)
      obtain ⟨news, hnews, hadding'⟩ := hadding.step hq.owners hno hmoves
      exact ⟨phase'', new ++ news, hq', by rw [hnews, hh, List.append_assoc], hadding'⟩⟩)
    ⟨phase, [], h, (List.append_nil _).symm, .init (hidle.activity phase)⟩ ha' hr'
  have hdistinct : (granted new).Nodup := by
    have hd := h'.owners.distinct
    rw [heldIn_of_idle (hidle'.activity phase'), hh, grants, List.foldl_append, map_foldl_record hadding.news] at hd
    exact (List.nodup_append.mp hd).2.1
  exact ⟨new, hh, hdistinct, hadding.count (hidle'.activity phase') hdistinct⟩

abbrev Alone (p : Program Int) : Prop :=
  p.Locks (fun _ _ => True) (fun _ => True) (fun held _ _ => held = []) [] fun _ held => held = []

theorem alone_addFrom (inumber : Int) (offset m : Nat) : Alone (addFrom inumber offset m) := by
  induction m with
  | zero => exact Prog.locks_pure rfl
  | succ m ih =>
    refine Prog.locks_acquire rfl (Prog.locks_get fun s _ => ?_)
    split
    · refine Prog.locks_modify (fun _ => id) (Prog.locks_modify (fun _ => id) (Prog.locks_modify (fun _ => id) ?_))
      exact Prog.locks_release (by simp) (Prog.locks_pure (by simp [giveBack]))
    · refine Prog.locks_release (by simp) ?_
      simpa [giveBack] using ih

theorem alone_body (c : Call) : Alone (body c) := by
  cases c with
  | add inumber offset => exact alone_addFrom inumber offset _
  | remove fhandle =>
    refine Prog.locks_acquire rfl ?_
    split
    · refine Prog.locks_get fun s _ => ?_
      split
      · exact Prog.locks_release (by simp) (Prog.locks_pure (by simp [giveBack]))
      · refine Prog.locks_modify (fun _ => id) ?_
        exact Prog.locks_release (by simp) (Prog.locks_pure (by simp [giveBack]))
    · exact Prog.locks_release (by simp) (Prog.locks_pure (by simp [giveBack]))

theorem total_addFrom (inumber : Int) (offset m : Nat) : (addFrom inumber offset m).Total := by
  induction m with
  | zero => trivial
  | succ m ih =>
    refine ⟨by simp, fun a => ?_⟩
    change Prog.Total (if a = .free then _ else _)
    split
    · exact ⟨by simp, fun _ => ⟨by simp, fun _ => ⟨by simp, fun _ => trivial⟩⟩⟩
    · exact ih

theorem total_body (c : Call) : (body c).Total := by
  cases c with
  | add inumber offset => exact total_addFrom inumber offset _
  | remove fhandle =>
    change Prog.Total (if validFileHandle fhandle then _ else _)
    split
    · refine ⟨by simp, fun a => ?_⟩
      change Prog.Total (if a ≠ .taken then _ else _)
      split
      · trivial
      · exact ⟨by simp, fun _ => trivial⟩
    · trivial

/-- From every state, the calls under way can all return. -/
theorem exists_idle {s : State} {es : List (Pool.Event n Call)} {outs : List Unit}
    (hr : Runs.run (Pool.step body) (Pool.init s) es = some (outs, p)) :
    ∃ es' outs' p', Runs.Along (Pool.step body) (fun _ e => Adds e) p es' ∧
      Runs.run (Pool.step body) p es' = some (outs', p') ∧ Idle p' := by
  have hdone := (Runs.run_invariant (P := fun _ => True)
    (I := fun q : Threads n => q.Total ∧ q.Disciplined (fun _ _ => True) (fun _ => True) fun held _ _ => held = [])
    (fun q e _ q' hq _ hs => ⟨trivial, hq.1.step total_body (Pool.moves_of_step hs),
      hq.2.step (fun _ c _ => alone_body c) (by cases e with
        | start t c => trivial
        | step t =>
          rw [Pool.Assumes]
          split <;> trivial) (Pool.moves_of_step hs)⟩)
    ⟨fun t c prog hc => (by cases hc), .init trivial⟩ (.of_forall (G := fun _ _ => True) (fun _ _ => trivial) _ _) hr).2
  obtain ⟨es', outs', p', ha, hr', hidle⟩ := Pool.exists_idle hdone.1 total_body hdone.2
  refine ⟨es', outs', p', ha.mono fun q e hg => ?_, hr', hidle⟩
  cases e with
  | start t c => exact hg.elim
  | step t => trivial

/-- A thread adds and removes its handle; then two threads add at the same time. -/
theorem handles_exclusive_two : ∃ p p' : Threads 2, p.history = [(0, .add 1 0, 0), (0, .remove 0, 0)] ∧ Exclusive p ∧
    p'.history = p.history ++ [(1, .add 3 5, 1), (0, .add 2 0, 0)] ∧ (granted (p'.history.drop 2)).Nodup ∧
    (granted (p'.history.drop 2)).length = 2 := by
  let es : List (Pool.Event 2 Call) := .start 0 (.add 1 0) :: (List.replicate 7 (.step 0) ++
    .start 0 (.remove 0) :: List.replicate 5 (.step 0))
  let es' : List (Pool.Event 2 Call) := .start 0 (.add 2 0) :: .start 1 (.add 3 5) :: (List.replicate 6 (.step 0) ++
    (List.replicate 10 (.step 1) ++ [.step 0]))
  have hend : ((Runs.run (Pool.step body) (Pool.init State.zero : Threads 2) es).bind fun x =>
      (Runs.run (Pool.step body) x.2 es').map fun y => decide
        (x.2.history = [(0, .add 1 0, 0), (0, .remove 0, 0)] ∧ (∀ t, (x.2.thread t).current.isNone = true) ∧
          y.2.history = x.2.history ++ [(1, .add 3 5, 1), (0, .add 2 0, 0)] ∧
          (∀ t, (y.2.thread t).current.isNone = true) ∧ freeHandles x.2.state.toOpenFiles = 20 ∧
          Runs.Along (Pool.step body) (fun _ e => Adds e) x.2 es')) = some true := by
    decide +kernel
  obtain ⟨⟨outs, p⟩, hr, hw⟩ := Option.bind_eq_some_iff.mp hend
  obtain ⟨⟨outs', p'⟩, hr', hd⟩ := Option.map_eq_some_iff.mp hw
  obtain ⟨hh, hidle, hh', hidle', hfree, hadds⟩ := of_decide_eq_true hd
  have h := handles_exclusive (by decide +kernel) hr
  obtain ⟨new, hnew, hd, hcount⟩ := h.2 _ _ p' (fun t => Option.isNone_iff_eq_none.mp (hidle t)) hadds hr'
    fun t => Option.isNone_iff_eq_none.mp (hidle' t)
  obtain rfl := List.append_cancel_left (hnew.symm.trans hh')
  refine ⟨p, p', hh, h.1, hh', ?_, ?_⟩
  · rw [hh', hh]
    exact hd
  · rw [hh', hh]
    exact hcount.trans (by rw [hfree]; rfl)

end Tecnicofs.Ex1.HandleTable
