import Mathlib.Data.Finset.Card
import Mathlib.Logic.Function.Basic

namespace Loans

variable {S R : Type*} {slots : Finset S} {holds holds' : S → Option R} {out out' : Finset R} {n : Nat}

def holding (slots : Finset S) (holds : S → Option R) : Finset S := slots.filter fun k => (holds k).isSome

/-- Of the resources in `out` all but `n` are with a slot. -/
structure Lent (slots : Finset S) (holds : S → Option R) (out : Finset R) (n : Nat) : Prop where
  mem : ∀ k r, holds k = some r → k ∈ slots ∧ r ∈ out
  unique : ∀ k j r, holds k = some r → holds j = some r → k = j
  count : out.card = (holding slots holds).card + n

theorem mem_holding {k : S} : k ∈ holding slots holds ↔ k ∈ slots ∧ holds k ≠ none := by
  simp [holding, Option.isSome_iff_ne_none]

namespace Lent

theorem empty (slots : Finset S) : Lent slots (fun _ => none : S → Option R) ∅ 0 where
  mem k r h := by cases h
  unique k j r h := by cases h
  count := by simp [holding]

variable (h : Lent slots holds out n)
include h

theorem congr (hh : holds' = holds) (ho : out' = out) : Lent slots holds' out' n := by
  subst hh ho
  exact h

variable [DecidableEq R] {r : R}

theorem lose (hr : r ∉ out) : Lent slots holds (insert r out) (n + 1) where
  mem k x hx := (h.mem k x hx).imp_right Finset.mem_insert_of_mem
  unique := h.unique
  count := by
    rw [Finset.card_insert_of_notMem hr, h.count]
    rfl

variable [DecidableEq S] {k : S}

theorem take (hk : k ∈ slots) (hnone : holds k = none) (hr : r ∉ out) :
    Lent slots (Function.update holds k (some r)) (insert r out) n where
  mem j x hx := by
    by_cases hj : j = k
    · rw [hj, Function.update_self] at hx
      rw [hj, ← Option.some.inj hx]
      exact ⟨hk, Finset.mem_insert_self ..⟩
    · rw [Function.update_of_ne hj] at hx
      exact (h.mem j x hx).imp_right Finset.mem_insert_of_mem
  unique := by
    have old : ∀ {j x}, j ≠ k → Function.update holds k (some r) j = some x → holds j = some x ∧ x ≠ r := by
      intro j x hj hx
      rw [Function.update_of_ne hj] at hx
      exact ⟨hx, fun he => hr (he ▸ (h.mem j x hx).2)⟩
    have new : ∀ {x}, Function.update holds k (some r) k = some x → x = r := fun hx => by
      rw [Function.update_self] at hx
      exact (Option.some.inj hx).symm
    intro j j' x hx hx'
    by_cases hj : j = k
    · subst hj
      by_contra hj'
      exact (old (Ne.symm hj') hx').2 (new hx)
    · by_cases hj' : j' = k
      · subst hj'
        exact absurd (new hx') (old hj hx).2
      · exact h.unique j j' x (old hj hx).1 (old hj' hx').1
  count := by
    have hins : holding slots (Function.update holds k (some r)) = insert k (holding slots holds) := by
      ext j
      simp only [mem_holding, Finset.mem_insert]
      by_cases hj : j = k
      · simp [hj, hk]
      · simp [hj]
    have hmem : k ∉ holding slots holds := fun hm => (mem_holding.mp hm).2 hnone
    rw [hins, Finset.card_insert_of_notMem hr, Finset.card_insert_of_notMem hmem, h.count]
    omega

theorem giveBack (hr : holds k = some r) : Lent slots (Function.update holds k none) (out.erase r) n where
  mem j x hx := by
    have hj : j ≠ k := fun hj => by
      rw [hj, Function.update_self] at hx
      cases hx
    rw [Function.update_of_ne hj] at hx
    obtain ⟨hs, ho⟩ := h.mem j x hx
    exact ⟨hs, Finset.mem_erase.mpr ⟨fun he => hj (h.unique j k r (he ▸ hx) hr), ho⟩⟩
  unique j j' x hx hx' := by
    have old : ∀ {j}, Function.update holds k none j = some x → holds j = some x := fun {j} hx => by
      by_cases hj : j = k
      · rw [hj, Function.update_self] at hx
        cases hx
      · rwa [Function.update_of_ne hj] at hx
    exact h.unique j j' x (old hx) (old hx')
  count := by
    have herase : holding slots (Function.update holds k none) = (holding slots holds).erase k := by
      ext j
      simp only [mem_holding, Finset.mem_erase]
      by_cases hj : j = k <;> simp [hj]
    obtain ⟨hk, ho⟩ := h.mem k r hr
    have hmem : k ∈ holding slots holds := mem_holding.mpr ⟨hk, by simp [hr]⟩
    have hcard := h.count
    rw [← Finset.card_erase_add_one ho, ← Finset.card_erase_add_one hmem] at hcard
    rw [herase]
    omega

end Lent

end Loans
