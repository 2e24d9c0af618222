import Mathlib.Data.List.Nodup
import Mathlib.Logic.Function.Basic
import Tecnicofs.Lib.Runs

namespace Histories

/-- A call that took effect and its answer; numbers tell calls apart. -/
structure Op (C O : Type*) where
  number : Nat
  caller : Nat
  call : C
  out : O

/-- The calls in the order of their effects, those whose answers the callers have, and for the number of a call the
answers that callers had when it was made. -/
structure History (C O : Type*) where
  log : List (Op C O)
  returned : List (Op C O)
  before : Nat → List (Op C O)

variable {S C O : Type*}

namespace History

def empty : History C O := ⟨[], [], fun _ => []⟩

def invoke (h : History C O) (n : Nat) : History C O := { h with before := Function.update h.before n h.returned }

def effect (h : History C O) (a : Op C O) : History C O := { h with log := h.log ++ [a] }

def respond (h : History C O) (a : Op C O) : History C O := { h with returned := h.returned ++ [a] }

/-- These are the calls of `c` that took effect and whose answers are on their way. -/
def Owes (h : History C O) (c : Nat) (l : List (Op C O)) : Prop :=
  h.log.filter (fun a => a.caller = c) = h.returned.filter (fun a => a.caller = c) ++ l

variable {h : History C O} {a : Op C O} {c n : Nat} {l : List (Op C O)}

theorem Owes.effect (ho : h.Owes c []) (hc : a.caller = c) : (h.effect a).Owes c [a] := by
  simp only [Owes, List.append_nil] at ho
  simp [Owes, History.effect, List.filter_append, ho, hc]

theorem Owes.effect_other (ho : h.Owes c l) (hc : a.caller ≠ c) : (h.effect a).Owes c l := by
  simpa [Owes, History.effect, List.filter_append, hc] using ho

theorem Owes.respond (ho : h.Owes c [a]) (hc : a.caller = c) : (h.respond a).Owes c [] := by
  simpa [Owes, History.respond, List.filter_append, hc] using ho

theorem Owes.respond_other (ho : h.Owes c l) (hc : a.caller ≠ c) : (h.respond a).Owes c l := by
  simpa [Owes, History.respond, List.filter_append, hc] using ho

theorem Owes.mem (ho : h.Owes c l) (hl : a ∈ l) : a ∈ h.log :=
  List.mem_of_mem_filter (p := fun a => a.caller = c) (by rw [ho]; exact List.mem_append_right _ hl)

theorem Owes.mem_returned (ho : h.Owes c []) (ha : a ∈ h.log) (hc : a.caller = c) : a ∈ h.returned := by
  have hmem : a ∈ h.log.filter (fun a => a.caller = c) := List.mem_filter.mpr ⟨ha, by simpa using hc⟩
  rw [ho, List.append_nil] at hmem
  exact List.mem_of_mem_filter hmem

end History

open History

/-- The log is a run of the object that gives the same answers, has every call once and every answer that a caller
got, and keeps the order of calls that do not overlap: what had returned when a call was made comes before it. -/
structure Linearizes (step : S → C → Option (O × S)) (s₀ : S) (h : History C O) (s : S) : Prop where
  legal : Runs.run step s₀ (h.log.map Op.call) = some (h.log.map Op.out, s)
  once : (h.log.map Op.number).Nodup
  returned : ∀ a ∈ h.returned, a ∈ h.log
  before : ∀ n, ∀ a ∈ h.before n, a ∈ h.log
  order : ∀ l₁ b l₂, h.log = l₁ ++ b :: l₂ → ∀ a ∈ h.before b.number, a ∈ l₁

namespace Linearizes

variable {step : S → C → Option (O × S)} {s₀ s s' : S} {h : History C O} {a : Op C O} {n : Nat}

theorem empty (step : S → C → Option (O × S)) (s₀ : S) : Linearizes step s₀ History.empty s₀ where
  legal := rfl
  once := .nil
  returned _ ha := by cases ha
  before _ _ ha := by cases ha
  order l₁ b l₂ hl := by simp [History.empty] at hl

theorem invoke (hl : Linearizes step s₀ h s) (hn : ∀ b ∈ h.log, b.number ≠ n) :
    Linearizes step s₀ (h.invoke n) s where
  legal := hl.legal
  once := hl.once
  returned := hl.returned
  before m a ha := by
    by_cases hm : m = n
    · subst hm
      exact hl.returned a (by simpa [History.invoke] using ha)
    · exact hl.before m a (by simpa [History.invoke, hm] using ha)
  order l₁ b l₂ he a ha := by
    have hb : b.number ≠ n := hn b (by rw [show h.log = l₁ ++ b :: l₂ from he]; simp)
    exact hl.order l₁ b l₂ he a (by simpa [History.invoke, hb] using ha)

theorem effect (hl : Linearizes step s₀ h s) (hs : step s a.call = some (a.out, s')) (hn : ∀ b ∈ h.log, b.number ≠ a.number) :
    Linearizes step s₀ (h.effect a) s' where
  legal := by
    simp only [History.effect, List.map_append, List.map_singleton]
    exact Runs.run_concat hl.legal hs
  once := by
    simp only [History.effect, List.map_append, List.map_singleton, List.nodup_append]
    refine ⟨hl.once, by simp, fun k hk k' hk' => ?_⟩
    obtain ⟨b, hb, rfl⟩ := List.mem_map.mp hk
    rw [List.mem_singleton.mp hk']
    exact hn b hb
  returned b hb := List.mem_append_left _ (hl.returned b hb)
  before m b hb := List.mem_append_left _ (hl.before m b hb)
  order l₁ b l₂ he b' hb' := by
    simp only [History.effect] at he
    rcases List.eq_nil_or_concat l₂ with rfl | ⟨l₂, d, rfl⟩
    · -- the new call is the last
      obtain ⟨rfl, -⟩ := List.append_inj' he rfl
      exact hl.before _ b' hb'
    · rw [List.concat_eq_append, ← List.cons_append, ← List.append_assoc] at he
      exact hl.order l₁ b l₂ (List.append_inj' he rfl).1 b' hb'

theorem respond (hl : Linearizes step s₀ h s) (ha : a ∈ h.log) : Linearizes step s₀ (h.respond a) s where
  legal := hl.legal
  once := hl.once
  returned b hb := (List.mem_append.mp hb).elim (hl.returned b) fun hb => List.mem_singleton.mp hb ▸ ha
  before := hl.before
  order := hl.order

end Linearizes

end Histories
