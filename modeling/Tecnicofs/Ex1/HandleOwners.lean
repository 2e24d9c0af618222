import Tecnicofs.Ex1.HandleTable

namespace Tecnicofs.Ex1.HandleTable

variable {n : Nat} {f f' : OpenFiles} {a : Fin n → Option (Call × Phase)} {t u : Fin n} {c : Call} {ph ph' : Phase}
  {history : List (Fin n × Call × Int)}

def Busy (a : Fin n → Option (Call × Phase)) (t : Fin n) (fhandle : Int) : Prop :=
  ∃ x, a t = some x ∧ x.2.owned = some fhandle

def heldIn (a : Fin n → Option (Call × Phase)) (history : List (Fin n × Call × Int)) : List (Grant n) :=
  heldBy history fun t => (a t).map Prod.fst

/-- Handles that are held, and those of calls that are adding or removing them, are open and all different. -/
structure Owners (f : OpenFiles) (a : Fin n → Option (Call × Phase)) (history : List (Fin n × Call × Int)) : Prop where
  isOpen : ∀ t h, Busy a t h → f.IsOpen h
  unique : ∀ t u h, Busy a t h → Busy a u h → u = t
  free : ∀ t c m, a t = some (c, .found m) → m < maxOpenFiles ∧ f.freeOpenFileEntries m = .free
  alone : ∀ t u c d m, a t = some (c, .found m) → a u = some (d, .found m) → u = t
  numbered : ∀ t i o m, a t = some (.add i o, .numbered m) → (f.openFileTable m).ofInumber = i
  stored : ∀ t i o m, a t = some (.add i o, .granted m) → f.openFileTable m = ⟨i, o⟩
  held : ∀ g ∈ heldIn a history, f.IsOpen g.fhandle ∧ f.openFileTable g.fhandle.toNat = g.entry
  apart : ∀ g ∈ heldIn a history, ∀ t, ¬ Busy a t g.fhandle
  distinct : ((heldIn a history).map Grant.fhandle).Nodup

theorem busy_update {x : Option (Call × Phase)} {h : Int} : Busy (Function.update a t x) u h ↔
    if u = t then ∃ y, x = some y ∧ y.2.owned = some h else Busy a u h := by
  unfold Busy
  by_cases hu : u = t
  · subst hu
    rw [Function.update_self, if_pos rfl]
  · rw [Function.update_of_ne hu, if_neg hu]

theorem mem_heldIn {g : Grant n} : g ∈ heldIn a history ↔
    g ∈ grants history ∧ (a g.thread).map Prod.fst ≠ some (.remove g.fhandle) := by
  simp [heldIn, heldBy]

theorem heldIn_congr {a' : Fin n → Option (Call × Phase)}
    (h : ∀ g ∈ grants history, (a' g.thread).map Prod.fst = some (.remove g.fhandle) ↔
      (a g.thread).map Prod.fst = some (.remove g.fhandle)) : heldIn a' history = heldIn a history := by
  refine List.filter_congr fun g hg => ?_
  simp only [ne_eq, h g hg]

theorem heldIn_act (ht : a t = some (c, ph)) (ph' : Phase) :
    heldIn (Function.update a t (some (c, ph'))) history = heldIn a history := by
  refine heldIn_congr fun g _ => ?_
  by_cases hg : g.thread = t
  · rw [hg, Function.update_self, ht]
    rfl
  · rw [Function.update_of_ne hg]

theorem grants_concat (x : Fin n × Call × Int) : grants (history ++ [x]) = record (grants history) x := by
  rw [grants, List.foldl_append]
  rfl

theorem heldIn_idle (ht : a t = some (c, ph)) (hc : ∀ fhandle, c ≠ .remove fhandle) :
    heldIn (Function.update a t none) history = heldIn a history := by
  refine heldIn_congr fun g _ => ?_
  by_cases hg : g.thread = t
  · rw [hg, Function.update_self, ht]
    exact ⟨fun he => (by cases he), fun he => absurd (Option.some.inj he) (hc _)⟩
  · rw [Function.update_of_ne hg]

theorem heldIn_granted {i : Int} {o m : Nat} (ht : a t = some (.add i o, .granted m)) :
    heldIn (Function.update a t none) (history ++ [(t, .add i o, (m : Int))]) =
      heldIn a history ++ [⟨t, m, ⟨i, o⟩⟩] := by
  have hne : ¬ (m : Int) = -1 := by omega
  rw [← heldIn_idle ht (fun _ => Call.noConfusion), heldIn, heldBy, grants_concat, record, if_neg hne, List.filter_append]
  simp [heldIn, heldBy]

theorem heldIn_full {i : Int} {o m : Nat} (ht : a t = some (.add i o, .scanning m)) :
    heldIn (Function.update a t none) (history ++ [(t, .add i o, -1)]) = heldIn a history := by
  rw [← heldIn_idle ht (fun _ => Call.noConfusion), heldIn, heldBy, grants_concat, record, if_pos rfl]
  rfl

theorem heldIn_removed {fhandle r : Int} {ph : Phase} (ht : a t = some (.remove fhandle, ph)) :
    heldIn (Function.update a t none) (history ++ [(t, .remove fhandle, r)]) = heldIn a history := by
  rw [heldIn, heldBy, grants_concat, record, List.filter_filter, heldIn, heldBy]
  refine List.filter_congr fun g _ => ?_
  by_cases hg : g.thread = t
  · rw [hg, Function.update_self, ht]
    simp [eq_comm]
  · simp [hg]

namespace Owners

theorem act (h : Owners f a history) (ht : a t = some (c, ph))
    (hkeep : ∀ x, f.IsOpen x → ph.owned ≠ some x →
      f'.IsOpen x ∧ f'.openFileTable x.toNat = f.openFileTable x.toNat)
    (howned : ∀ x, ph'.owned = some x → f'.IsOpen x ∧ (ph.owned = some x ∨ ¬ f.IsOpen x))
    (hfree : ∀ m, f.freeOpenFileEntries m = .free → ph = .found m ∨ f'.freeOpenFileEntries m = .free)
    (hfound : ∀ m, ph' = .found m → m < maxOpenFiles ∧ f'.freeOpenFileEntries m = .free ∧
      ∀ u d, u ≠ t → a u ≠ some (d, .found m))
    (hnumbered : ∀ i o m, c = .add i o → ph' = .numbered m → (f'.openFileTable m).ofInumber = i)
    (hstored : ∀ i o m, c = .add i o → ph' = .granted m → f'.openFileTable m = ⟨i, o⟩) :
    Owners f' (Function.update a t (some (c, ph'))) history := by
  have hself : ∀ x, Busy a t x ↔ ph.owned = some x := fun x => by
    simp only [Busy, ht, Option.some.injEq, exists_eq_left']
  have hbusy : ∀ v x, Busy (Function.update a t (some (c, ph'))) v x ↔
      if v = t then ph'.owned = some x else Busy a v x := fun v x => by
    rw [busy_update]
    simp only [Option.some.injEq, exists_eq_left']
  -- What another thread owns is not what this one owns.
  have hother : ∀ v x, v ≠ t → Busy a v x → f.IsOpen x ∧ ph.owned ≠ some x := fun v x hv hb =>
    ⟨h.isOpen v x hb, fun ho => hv (h.unique t v x ((hself x).mpr ho) hb)⟩
  have hnot : ∀ v x, v ≠ t → Busy a v x → ph'.owned ≠ some x := fun v x hv hb ho => by
    obtain ⟨hopen, hne⟩ := hother v x hv hb
    exact (howned x ho).2.elim hne fun hno => hno hopen
  have hfoundOther : ∀ v d m, v ≠ t → a v = some (d, .found m) → f'.freeOpenFileEntries m = .free ∧ ph' ≠ .found m := by
    intro v d m hv ha
    refine ⟨(hfree m (h.free v d m ha).2).resolve_left fun he => ?_, fun he => (hfound m he).2.2 v d hv ha⟩
    exact hv (h.alone t v c d m (he ▸ ht) ha)
  have hheld : heldIn (Function.update a t (some (c, ph'))) history = heldIn a history := heldIn_act ht ph'
  constructor
  · intro v x hb
    rw [hbusy] at hb
    split at hb
    · exact (howned x hb).1
    · next hv => exact (hkeep x (hother v x hv hb).1 (hother v x hv hb).2).1
  · intro v w x hb hb'
    rw [hbusy] at hb hb'
    split at hb
    · next hv =>
      split at hb'
      · next hw => rw [hv, hw]
      · next hw => exact absurd hb (hnot w x hw hb')
    · next hv =>
      split at hb'
      · next hw => exact absurd hb' (hnot v x hv hb)
      · next hw => exact h.unique v w x hb hb'
  · intro v d m ha
    by_cases hv : v = t
    · rw [hv, Function.update_self, Option.some.injEq, Prod.mk.injEq] at ha
      exact ⟨(hfound m ha.2).1, (hfound m ha.2).2.1⟩
    · rw [Function.update_of_ne hv] at ha
      exact ⟨(h.free v d m ha).1, (hfoundOther v d m hv ha).1⟩
  · intro v w d e m ha hb
    by_cases hv : v = t
    · by_cases hw : w = t
      · rw [hv, hw]
      · rw [hv, Function.update_self, Option.some.injEq, Prod.mk.injEq] at ha
        rw [Function.update_of_ne hw] at hb
        exact absurd ha.2 (hfoundOther w e m hw hb).2
    · rw [Function.update_of_ne hv] at ha
      by_cases hw : w = t
      · rw [hw, Function.update_self, Option.some.injEq, Prod.mk.injEq] at hb
        exact absurd hb.2 (hfoundOther v d m hv ha).2
      · rw [Function.update_of_ne hw] at hb
        exact h.alone v w d e m ha hb
  · intro v i o m ha
    by_cases hv : v = t
    · rw [hv, Function.update_self, Option.some.injEq, Prod.mk.injEq] at ha
      exact hnumbered i o m ha.1 ha.2
    · rw [Function.update_of_ne hv] at ha
      obtain ⟨hopen, hne⟩ := hother v m hv ⟨_, ha, rfl⟩
      exact (congrArg _ (hkeep m hopen hne).2).trans (h.numbered v i o m ha)
  · intro v i o m ha
    by_cases hv : v = t
    · rw [hv, Function.update_self, Option.some.injEq, Prod.mk.injEq] at ha
      exact hstored i o m ha.1 ha.2
    · rw [Function.update_of_ne hv] at ha
      obtain ⟨hopen, hne⟩ := hother v m hv ⟨_, ha, rfl⟩
      exact (hkeep m hopen hne).2.trans (h.stored v i o m ha)
  · intro g hg
    rw [hheld] at hg
    obtain ⟨hopen, hentry⟩ := h.held g hg
    obtain ⟨hopen', hsame⟩ := hkeep _ hopen fun ho => h.apart g hg t ((hself _).mpr ho)
    exact ⟨hopen', hsame.trans hentry⟩
  · intro g hg v hb
    rw [hheld] at hg
    rw [hbusy] at hb
    split at hb
    · exact (howned _ hb).2.elim (fun ho => h.apart g hg t ((hself _).mpr ho)) fun hno => hno (h.held g hg).1
    · exact h.apart g hg v hb
  · rw [hheld]
    exact h.distinct

theorem takes (h : Owners f a history) (ht : a t = some (c, ph)) (hact : Takes c ph f f' ph')
    (halone : ∀ m, ph' = .found m → ∀ u d, u ≠ t → a u ≠ some (d, .found m)) :
    Owners f' (Function.update a t (some (c, ph'))) history := by
  cases hact with
  | pass _ =>
    exact h.act ht (fun x hx _ => ⟨hx, rfl⟩) (fun x hx => by cases hx) (fun m hm => .inr hm)
      (fun m hm => by cases hm) (fun i o m _ hm => by cases hm) fun i o m _ hm => by cases hm
  | find hm hf =>
    refine h.act ht (fun x hx _ => ⟨hx, rfl⟩) (fun x hx => by cases hx) (fun m hm => .inr hm)
      (fun m he => ?_) (fun i o m _ hm => by cases hm) fun i o m _ hm => by cases hm
    have hsame := halone m he
    cases he
    exact ⟨hm, hf, hsame⟩
  | @take i o m =>
    obtain ⟨hm, hf⟩ := h.free t _ m ht
    refine h.act ht (fun x hx _ => ⟨⟨hx.1, ?_⟩, rfl⟩) (fun x hx => ?_) (fun k hk => ?_) (fun k hk => by cases hk)
      (fun i o k _ hk => by cases hk) fun i o k _ hk => by cases hk
    · rw [OpenFiles.take_free]
      split
      · rfl
      · exact hx.2
    · cases hx
      refine ⟨OpenFiles.isOpen_natCast.mpr ⟨hm, ?_⟩, .inr fun ho => ?_⟩
      · rw [OpenFiles.take_free, if_pos rfl]
      · rw [(OpenFiles.isOpen_natCast.mp ho).2] at hf
        cases hf
    · by_cases hkm : k = m
      · exact .inl (hkm ▸ rfl)
      · exact .inr (by rw [OpenFiles.take_free, if_neg hkm, hk])
  | @number i o m =>
    refine h.act ht (fun x hx hne => ⟨hx, ?_⟩) (fun x hx => ⟨h.isOpen t x ⟨_, ht, hx⟩, .inl hx⟩) (fun k hk => .inr hk)
      (fun k hk => by cases hk) (fun i' o' k hc hk => ?_) fun i o k _ hk => by cases hk
    · refine (OpenFiles.setEntry_table ..).trans (if_neg fun he => hne ?_)
      obtain ⟨k, -, rfl, -⟩ := hx.exists
      rw [← he]
      rfl
    · cases hk
      cases hc
      rw [OpenFiles.setInumber, OpenFiles.setEntry_table, if_pos rfl]
  | @store i o m =>
    refine h.act ht (fun x hx hne => ⟨hx, ?_⟩) (fun x hx => ⟨h.isOpen t x ⟨_, ht, hx⟩, .inl hx⟩) (fun k hk => .inr hk)
      (fun k hk => by cases hk) (fun i o k _ hk => by cases hk) fun i' o' k hc hk => ?_
    · refine (OpenFiles.setOffset_table ..).trans (if_neg fun he => hne ?_)
      obtain ⟨k, -, rfl, -⟩ := hx.exists
      rw [← he]
      rfl
    · cases hk
      cases hc
      have hnumbered := h.numbered t i o m ht
      rw [OpenFiles.setOffset_table, if_pos rfl, ← hnumbered]
  | check =>
    exact h.act ht (fun x hx _ => ⟨hx, rfl⟩) (fun x hx => ⟨h.isOpen t x ⟨_, ht, hx⟩, .inl hx⟩) (fun m hm => .inr hm)
      (fun m hm => by cases hm) (fun i o m _ hm => by cases hm) fun i o m _ hm => by cases hm
  | @release fhandle =>
    refine h.act ht (fun x hx hne => ⟨⟨hx.1, ?_⟩, rfl⟩) (fun x hx => by cases hx) (fun k hk => .inr ?_)
      (fun m hm => by cases hm) (fun i o m _ hm => by cases hm) fun i o m _ hm => by cases hm
    · rw [OpenFiles.release_free, if_neg, hx.2]
      intro he
      obtain ⟨k, -, rfl, -⟩ := hx.exists
      obtain ⟨k', -, rfl, -⟩ := (h.isOpen t fhandle ⟨_, ht, rfl⟩).exists
      rw [Int.toNat_natCast, Int.toNat_natCast] at he
      exact hne (he ▸ rfl)
    · rw [OpenFiles.release_free]
      split
      · rfl
      · exact hk

theorem start (h : Owners f a history) (ht : a t = none)
    (hown : ∀ fhandle, c = .remove fhandle → ∃ g ∈ heldIn a history, g.thread = t ∧ g.fhandle = fhandle) :
    Owners f (Function.update a t (some (c, Phase.start c))) history := by
  have hbusy : ∀ v x, Busy (Function.update a t (some (c, Phase.start c))) v x →
      v = t ∧ c = .remove x ∨ v ≠ t ∧ Busy a v x := fun v x hb => by
    rw [busy_update] at hb
    split at hb
    · next hv =>
      obtain ⟨y, hy, hx⟩ := hb
      cases hy
      refine .inl ⟨hv, ?_⟩
      cases c with
      | add i o => cases hx
      | remove fhandle =>
        cases hx
        rfl
    · next hv => exact .inr ⟨hv, hb⟩
  -- The thread no longer holds the handle that it removes.
  have hgone : ∀ g ∈ heldIn (Function.update a t (some (c, Phase.start c))) history, g.thread = t →
      c ≠ .remove g.fhandle := by
    intro g hg hgt hc
    have hno := (mem_heldIn.mp hg).2
    rw [hgt, Function.update_self, hc] at hno
    exact hno rfl
  have hsub : (heldIn (Function.update a t (some (c, Phase.start c))) history).Sublist (heldIn a history) := by
    refine List.monotone_filter_right _ fun g hg => ?_
    rw [decide_eq_true_eq] at hg ⊢
    beta_reduce at hg ⊢
    by_cases hgt : g.thread = t
    · rw [hgt, ht]
      exact fun he => by cases he
    · rwa [Function.update_of_ne hgt] at hg
  have hold : ∀ {v : Fin n} {d : Call} {ph : Phase}, ph ≠ Phase.start d →
      Function.update a t (some (c, Phase.start c)) v = some (d, ph) → a v = some (d, ph) := by
    intro v d ph hne ha
    by_cases hv : v = t
    · rw [hv, Function.update_self, Option.some.injEq, Prod.mk.injEq] at ha
      exact absurd (ha.2.symm.trans (congrArg _ ha.1)) hne
    · rwa [Function.update_of_ne hv] at ha
  have hfound : ∀ (d : Call) (m : Nat), Phase.found m ≠ .start d := fun d m he => by cases d <;> cases he
  have hown' : ∀ x, c = .remove x → f.IsOpen x ∧ ∀ v, ¬ Busy a v x := fun x hc => by
    obtain ⟨g, hg, -, rfl⟩ := hown x hc
    exact ⟨(h.held g hg).1, h.apart g hg⟩
  refine ⟨fun v x hb => ?_, fun v w x hb hb' => ?_, fun v d m ha => h.free v d m (hold (hfound d m) ha),
    fun v w d e m ha hb => h.alone v w d e m (hold (hfound d m) ha) (hold (hfound e m) hb),
    fun v i o m ha => h.numbered v i o m (hold (by rintro ⟨⟩) ha),
    fun v i o m ha => h.stored v i o m (hold (by rintro ⟨⟩) ha),
    fun g hg => h.held g (hsub.subset hg), fun g hg v hb => ?_, h.distinct.sublist (hsub.map _)⟩
  · rcases hbusy v x hb with ⟨-, hc⟩ | ⟨-, hb⟩
    · exact (hown' x hc).1
    · exact h.isOpen v x hb
  · rcases hbusy v x hb with ⟨hv, hc⟩ | ⟨-, hb⟩ <;> rcases hbusy w x hb' with ⟨hw, hc'⟩ | ⟨-, hb'⟩
    · rw [hv, hw]
    · exact absurd hb' ((hown' x hc).2 w)
    · exact absurd hb ((hown' x hc').2 v)
    · exact h.unique v w x hb hb'
  · rcases hbusy v _ hb with ⟨hv, hc⟩ | ⟨-, hb⟩
    · obtain ⟨g', hg', hgt, hgh⟩ := hown _ hc
      have hsame : g = g' := List.inj_on_of_nodup_map h.distinct (hsub.subset hg) hg' hgh.symm
      exact hgone g hg (hsame ▸ hgt) hc
    · exact h.apart g (hsub.subset hg) v hb

theorem idle {history' : List (Fin n × Call × Int)} (h : Owners f a history)
    (hheld : ∀ g ∈ heldIn (Function.update a t none) history',
      (f.IsOpen g.fhandle ∧ f.openFileTable g.fhandle.toNat = g.entry) ∧ ∀ v, v ≠ t → ¬ Busy a v g.fhandle)
    (hdistinct : ((heldIn (Function.update a t none) history').map Grant.fhandle).Nodup) :
    Owners f (Function.update a t none) history' := by
  have hbusy : ∀ v x, Busy (Function.update a t none) v x → v ≠ t ∧ Busy a v x := fun v x hb => by
    rw [busy_update] at hb
    split at hb
    · obtain ⟨y, hy, -⟩ := hb
      cases hy
    · next hv => exact ⟨hv, hb⟩
  have hold : ∀ {v : Fin n} {y : Call × Phase}, Function.update a t none v = some y → a v = some y := by
    intro v y ha
    by_cases hv : v = t
    · rw [hv, Function.update_self] at ha
      cases ha
    · rwa [Function.update_of_ne hv] at ha
  exact ⟨fun v x hb => h.isOpen v x (hbusy v x hb).2,
    fun v w x hb hb' => h.unique v w x (hbusy v x hb).2 (hbusy w x hb').2, fun v d m ha => h.free v d m (hold ha),
    fun v w d e m ha hb => h.alone v w d e m (hold ha) (hold hb), fun v i o m ha => h.numbered v i o m (hold ha),
    fun v i o m ha => h.stored v i o m (hold ha), fun g hg => (hheld g hg).1,
    fun g hg v hb => (hheld g hg).2 v (hbusy v _ hb).1 (hbusy v _ hb).2, hdistinct⟩

theorem ret {r : Int} (h : Owners f a history) (ht : a t = some (c, ph)) (hr : Returns c ph r) :
    Owners f (Function.update a t none) (history ++ [(t, c, r)]) := by
  cases hr with
  | @granted i o m =>
    have hm : Busy a t m := ⟨_, ht, rfl⟩
    refine h.idle ?_ ?_
    · rw [heldIn_granted ht]
      intro g hg
      rcases List.mem_append.mp hg with hg | hg
      · exact ⟨h.held g hg, fun v _ => h.apart g hg v⟩
      · obtain rfl := List.mem_singleton.mp hg
        exact ⟨⟨h.isOpen t m hm, h.stored t i o m ht⟩, fun v hv hb => hv (h.unique t v m hm hb)⟩
    · rw [heldIn_granted ht, List.map_append, List.nodup_append]
      refine ⟨h.distinct, List.nodup_singleton _, fun x hx y hy he => ?_⟩
      obtain ⟨g, hg, rfl⟩ := List.mem_map.mp hx
      rw [List.mem_singleton.mp hy] at he
      exact h.apart g hg t (he ▸ hm)
  | full =>
    refine h.idle ?_ ?_
    · rw [heldIn_full ht]
      exact fun g hg => ⟨h.held g hg, fun v _ => h.apart g hg v⟩
    · rw [heldIn_full ht]
      exact h.distinct
  | removed =>
    refine h.idle ?_ ?_
    · rw [heldIn_removed ht]
      exact fun g hg => ⟨h.held g hg, fun v _ => h.apart g hg v⟩
    · rw [heldIn_removed ht]
      exact h.distinct

end Owners

end Tecnicofs.Ex1.HandleTable
