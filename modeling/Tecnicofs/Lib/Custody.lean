import Mathlib.Data.List.Basic
import Mathlib.Logic.Function.Basic

namespace Tecnicofs

inductive Place (T : Type)
  | free
  | kept
  | listed (k : Nat)
  | held (t : T)

/-- Where each item is: free, the one that is always kept, in the list, or with a thread. -/
structure Placed {I T : Type} (taken : I → Prop) (kept : I) (list : List I) (holds : T → Option I)
    (place : I → Place T) : Prop where
  free : ∀ i, place i = .free ↔ ¬ taken i
  kept : ∀ i, place i = .kept ↔ i = kept
  listed : ∀ i k, place i = .listed k ↔ list[k]? = some i
  held : ∀ i t, place i = .held t ↔ holds t = some i

namespace Placed

variable {I T : Type} {taken taken' : I → Prop} {kept : I} {list : List I} {holds : T → Option I} {place : I → Place T}
  {i : I} {t u : T} {j k : Nat}

theorem taken_of_held (h : Placed taken kept list holds place) (hi : holds t = some i) : taken i := by
  by_contra hno
  cases ((h.free i).mpr hno).symm.trans ((h.held i t).mpr hi)

theorem taken_of_mem (h : Placed taken kept list holds place) (hi : i ∈ list) : taken i := by
  obtain ⟨k, hk⟩ := List.mem_iff_getElem?.mp hi
  by_contra hno
  cases ((h.free i).mpr hno).symm.trans ((h.listed i k).mpr hk)

theorem ne_kept (h : Placed taken kept list holds place) (hi : holds t = some i) : i ≠ kept := fun he => by
  cases ((h.kept i).mpr he).symm.trans ((h.held i t).mpr hi)

theorem ne_kept_of_mem (h : Placed taken kept list holds place) (hi : i ∈ list) : i ≠ kept := fun he => by
  obtain ⟨k, hk⟩ := List.mem_iff_getElem?.mp hi
  cases ((h.kept i).mpr he).symm.trans ((h.listed i k).mpr hk)

theorem eq_of_held (h : Placed taken kept list holds place) (ht : holds t = some i) (hu : holds u = some i) : t = u :=
  Place.held.inj (((h.held i t).mpr ht).symm.trans ((h.held i u).mpr hu))

theorem eq_of_listed (h : Placed taken kept list holds place) (hj : list[j]? = some i) (hk : list[k]? = some i) : j = k :=
  Place.listed.inj (((h.listed i j).mpr hj).symm.trans ((h.listed i k).mpr hk))

theorem cases (h : Placed taken kept list holds place) (hi : taken i) :
    i = kept ∨ i ∈ list ∨ ∃ t, holds t = some i := by
  cases hp : place i with
  | free => exact absurd hi ((h.free i).mp hp)
  | kept => exact .inl ((h.kept i).mp hp)
  | listed k => exact .inr (.inl (List.mem_of_getElem? ((h.listed i k).mp hp)))
  | held t => exact .inr (.inr ⟨t, (h.held i t).mp hp⟩)

theorem init [DecidableEq I] (ht : ∀ i, taken i ↔ i = kept) (hh : ∀ t, holds t = none) :
    Placed taken kept [] holds fun i => if i = kept then .kept else .free where
  free i := by
    rw [ht]
    split <;> simp [*]
  kept i := by split <;> simp [*]
  listed i k := by split <;> simp
  held i t := by
    rw [hh]
    split <;> simp

section
variable [DecidableEq I] {list' : List I} {holds' : T → Option I} {dest : Place T}

theorem move (h : Placed taken kept list holds place) (hi : i ≠ kept) (hdest : dest ≠ .kept)
    (htaken : ∀ j, j ≠ i → (taken' j ↔ taken j)) (hfree : dest = .free ↔ ¬ taken' i)
    (hlist : ∀ (j : I) (k : Nat), j ≠ i → (list'[k]? = some j ↔ list[k]? = some j))
    (hlisted : ∀ k : Nat, dest = .listed k ↔ list'[k]? = some i)
    (hholds : ∀ j u, j ≠ i → (holds' u = some j ↔ holds u = some j)) (hheld : ∀ u, dest = .held u ↔ holds' u = some i) :
    Placed taken' kept list' holds' (Function.update place i dest) where
  free j := by
    by_cases hj : j = i
    · rw [hj, Function.update_self, hfree]
    · rw [Function.update_of_ne hj, h.free, htaken j hj]
  kept j := by
    by_cases hj : j = i
    · rw [hj, Function.update_self]
      exact iff_of_false hdest hi
    · rw [Function.update_of_ne hj, h.kept]
  listed j k := by
    by_cases hj : j = i
    · rw [hj, Function.update_self, hlisted]
    · rw [Function.update_of_ne hj, h.listed, hlist j k hj]
  held j u := by
    by_cases hj : j = i
    · rw [hj, Function.update_self, hheld]
    · rw [Function.update_of_ne hj, h.held, hholds j u hj]

end

variable [DecidableEq T]

theorem update_holds {x : Option I} (ht : ∀ j, holds t = some j → j = i) (hx : ∀ j, x = some j → j = i) (j : I) (u : T)
    (hj : j ≠ i) : Function.update holds t x u = some j ↔ holds u = some j := by
  by_cases hu : u = t
  · subst hu
    rw [Function.update_self]
    exact iff_of_false (fun h => hj (hx j h)) fun h => hj (ht j h)
  · rw [Function.update_of_ne hu]

theorem not_held_of_update (h : Placed taken kept list holds place) (ht : holds t = some i) (u : T) :
    ¬ Function.update holds t none u = some i := fun hu => by
  by_cases he : u = t
  · rw [he, Function.update_self] at hu
    cases hu
  · rw [Function.update_of_ne he] at hu
    exact he (h.eq_of_held hu ht)

variable [DecidableEq I]

theorem take (h : Placed taken kept list holds place) (hi : ¬ taken i) (ht : holds t = none)
    (htaken : ∀ j, taken' j ↔ taken j ∨ j = i) :
    Placed taken' kept list (Function.update holds t (some i)) (Function.update place i (.held t)) := by
  have hfree := (h.free i).mpr hi
  have hkept : i ≠ kept := fun he => by cases ((h.kept i).mpr he).symm.trans hfree
  refine h.move hkept nofun (fun j hj => by simp [htaken, hj]) (by simp [htaken]) (fun _ _ _ => Iff.rfl) (fun k => ?_)
    (update_holds (by simp [ht]) fun _ hj => (Option.some.inj hj).symm) fun u => ?_
  · rw [← h.listed, hfree]
    simp
  · by_cases hu : u = t
    · simp [hu]
    · rw [Function.update_of_ne hu, ← h.held, hfree]
      simp [Ne.symm hu]

theorem append (h : Placed taken kept list holds place) (ht : holds t = some i) :
    Placed taken kept (list ++ [i]) (Function.update holds t none) (Function.update place i (.listed list.length)) := by
  have hmem : i ∉ list := fun hi => by
    obtain ⟨k, hk⟩ := List.mem_iff_getElem?.mp hi
    cases ((h.listed i k).mpr hk).symm.trans ((h.held i t).mpr ht)
  refine h.move (h.ne_kept ht) nofun (fun _ _ => Iff.rfl) (iff_of_false nofun fun hno => hno (h.taken_of_held ht))
    (fun j k hj => ?_) (fun k => ?_) (update_holds (fun j hj => Option.some.inj (hj.symm.trans ht)) nofun)
    fun u => iff_of_false nofun (h.not_held_of_update ht u)
  · rw [List.getElem?_append, List.getElem?_singleton]
    split
    · rfl
    · next hge => simp [List.getElem?_eq_none (Nat.le_of_not_lt hge), Ne.symm hj]
  · rw [List.getElem?_append, List.getElem?_singleton]
    split
    · next hlt =>
      refine iff_of_false (fun he => ?_) fun hk => hmem (List.mem_of_getElem? hk)
      exact Nat.ne_of_gt hlt (Place.listed.inj he)
    · next hge =>
      simp only [Place.listed.injEq, ite_eq_left_iff, reduceCtorEq, imp_false, Decidable.not_not]
      omega

theorem giveBack (h : Placed taken kept list holds place) (ht : holds t = some i)
    (htaken : ∀ j, taken' j ↔ taken j ∧ j ≠ i) :
    Placed taken' kept list (Function.update holds t none) (Function.update place i .free) := by
  have hheld := (h.held i t).mpr ht
  refine h.move (h.ne_kept ht) nofun (fun j hj => by simp [htaken, hj]) (by simp [htaken]) (fun _ _ _ => Iff.rfl)
    (fun k => ?_) (update_holds (fun j hj => Option.some.inj (hj.symm.trans ht)) nofun)
    fun u => iff_of_false nofun (h.not_held_of_update ht u)
  rw [← h.listed, hheld]
  simp

end Placed

end Tecnicofs
