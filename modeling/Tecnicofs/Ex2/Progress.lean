import Mathlib.Algebra.Group.Action.Defs
import Mathlib.Algebra.Order.BigOperators.Group.Finset
import Tecnicofs.Ex2.Requests

namespace Tecnicofs.Ex2.Sessions

/-- Polite clients, buffers set and read in order, and no signal to a worker between its test and its wait. -/
def PoliteOrderlySeen (s : Sys α) (e : Event α) : Prop := (Polite s e ∧ Orderly s e) ∧ SignalSeen s e

instance [DecidableEq α] (s : Sys α) (e : Event α) : Decidable (PoliteOrderlySeen s e) := inferInstanceAs (Decidable (_ ∧ _))

def Event.OfServer : Event α → Prop
  | .main | .worker _ => True
  | .send _ _ | .receive _ | .wake _ => False

instance : ∀ e : Event α, Decidable e.OfServer
  | .main | .worker _ => inferInstanceAs (Decidable True)
  | .send _ _ | .receive _ | .wake _ => inferInstanceAs (Decidable False)

/-- The steps that a worker takes until it waits, with those that it takes when it is woken to a set buffer. -/
def Worker.rank (isNull : Bool) : Worker α → Nat
  | .unlocked | .woken => if isNull then 3 else 8
  | .locked => if isNull then 2 else 7
  | .sawNull => if isNull then 1 else 10
  | .asleep => if isNull then 0 else 9
  | .reading => 6
  | .executing _ => 5
  | .replied => 4

/-- A signal can wake a worker that has cleared its buffer before. -/
def Main.rank : Main α → Nat
  | .receiving => 0
  | .filling _ _ => 5
  | .signalling _ _ => 4

def seatRank (s : Sys α) (k : Nat) : Nat := (s.worker k).rank (s.threadBuffer k).isNone

def rank (s : Sys α) : Nat :=
  15 * s.serverPipe.length + s.main.rank + ∑ k ∈ Finset.range maxClients, seatRank s k

structure InTable (s : Sys α) : Prop where
  taken : ∀ k, s.freesessionEntries k = .taken → k < maxClients
  main : ∀ k, s.main.Before k → k < maxClients

variable {s s' : Sys α} {place : Nat → Place}

theorem Main.not_before_receiving (k : Nat) : ¬ (Main.receiving : Main α).Before k := by
  rintro ⟨m, h | h⟩ <;> cases h

theorem Main.before_filling {k j : Nat} {m : Message α} (h : (Main.filling k m).Before j) : j = k := by
  obtain ⟨m', h | h⟩ := h <;> cases h
  rfl

theorem Main.before_signalling {k j : Nat} {m : Message α} (h : (Main.signalling k m).Before j) : j = k := by
  obtain ⟨m', h | h⟩ := h <;> cases h
  rfl

namespace InTable

theorem init : InTable (Sys.init : Sys α) where
  taken _ h := by cases h
  main k h := absurd h (Main.not_before_receiving k)

theorem execute (i : InTable s) {k : Nat} {m : Message α} {s₁ : Sys α} (h : Sessions.execute s k m = some s₁) :
    InTable s₁ := by
  unfold Sessions.execute at h
  split at h
  · cases h
    exact ⟨i.taken, i.main⟩
  · next j _ =>
    split at h
    · cases h
    · cases h
      refine ⟨fun l hl => ?_, i.main⟩
      by_cases hlj : l = j
      · subst hlj
        simp [Sys.reply] at hl
      · exact i.taken l ((Function.update_of_ne hlj ..).symm.trans hl)
  · cases h
    exact ⟨i.taken, i.main⟩
  · cases h
    exact i

theorem step (i : InTable s) {e : Event α} (h : Moves s e s') : InTable s' := by
  have quiet : ∀ {t : Sys α}, t.freesessionEntries = s.freesessionEntries → t.main = .receiving → InTable t :=
    fun ht hm => ⟨fun k hk => i.taken k (by rwa [← ht]), fun k hk => absurd (hm ▸ hk) (Main.not_before_receiving k)⟩
  cases h with
  | @mount _ _ _ k _ _ _ hf =>
    have hk := (firstFree_eq_some.mp hf).1
    refine ⟨fun j hj => ?_, fun j hj => Main.before_filling hj ▸ hk⟩
    by_cases hjk : j = k
    · rwa [hjk]
    · exact i.taken j ((Function.update_of_ne hjk ..).symm.trans hj)
  | deposit _ _ _ hk => exact ⟨i.taken, fun j hj => Main.before_filling hj ▸ hk⟩
  | @fill k m _ hm =>
    exact ⟨i.taken, fun j hj => Main.before_signalling hj ▸ i.main k (hm ▸ ⟨m, .inl rfl⟩)⟩
  | refuse hm => exact ⟨i.taken, i.main⟩
  | wakeWorker => exact quiet rfl rfl
  | signalNobody => exact quiet rfl rfl
  | @execute k m s₁ _ he =>
    have hs := i.execute he
    exact ⟨hs.taken, hs.main⟩
  | _ => exact ⟨i.taken, i.main⟩

end InTable

theorem sum_range_add {f g : Nat → Nat} {n k : Nat} (hk : k < n) (h : ∀ j, j ≠ k → g j = f j) :
    (∑ j ∈ Finset.range n, g j) + f k = (∑ j ∈ Finset.range n, f j) + g k := by
  have hmem : k ∈ Finset.range n := Finset.mem_range.mpr hk
  have hrest : ∑ j ∈ (Finset.range n).erase k, g j = ∑ j ∈ (Finset.range n).erase k, f j :=
    Finset.sum_congr rfl fun j hj => h j (Finset.ne_of_mem_erase hj)
  rw [← Finset.add_sum_erase _ g hmem, ← Finset.add_sum_erase _ f hmem, hrest]
  omega

theorem rank_lt {k : Nat} (hk : k < maxClients) (h : ∀ j, j ≠ k → seatRank s' j = seatRank s j)
    (hlt : 15 * s'.serverPipe.length + s'.main.rank + seatRank s' k <
      15 * s.serverPipe.length + s.main.rank + seatRank s k) : rank s' < rank s := by
  have hsum := sum_range_add hk h
  unfold rank
  omega

theorem execute_serverPipe {k : Nat} {m : Message α} (h : execute s k m = some s') : s'.serverPipe = s.serverPipe := by
  unfold execute at h
  split at h
  · cases h
    rfl
  · split at h <;> cases h
    rfl
  · cases h
    rfl
  · cases h
    rfl

theorem rank_lt_worker {k : Nat} (hk : k < maxClients) {w : Worker α} (hp : s'.serverPipe = s.serverPipe)
    (hm : s'.main = s.main) (hb : s'.threadBuffer = s.threadBuffer) (hw : s'.worker = Function.update s.worker k w)
    (hlt : w.rank (s.threadBuffer k).isNone < (s.worker k).rank (s.threadBuffer k).isNone) : rank s' < rank s := by
  refine rank_lt hk (fun j hj => ?_) ?_
  · rw [seatRank, seatRank, hw, hb, Function.update_of_ne hj]
  · rw [seatRank, seatRank, hw, hb, hp, hm, Function.update_self]
    omega

theorem rank_lt_set {k : Nat} (hk : k < maxClients) {m : Message α} {rest : List (Message α)}
    (hpipe : s.serverPipe = m :: rest) (hm : s.main = .receiving) (hb : s.threadBuffer k = none)
    (hw : (s.worker k).Looking) (hp' : s'.serverPipe = rest) (hm' : s'.main = .filling k m)
    (hw' : s'.worker = s.worker) (hb' : s'.threadBuffer = Function.update s.threadBuffer k (some none)) :
    rank s' < rank s := by
  refine rank_lt hk (fun j hj => ?_) ?_
  · rw [seatRank, seatRank, hw', hb', Function.update_of_ne hj]
  · have hset : (s.worker k).rank false ≤ (s.worker k).rank true + 9 := by
      generalize s.worker k = w at hw
      cases w <;> simp [Worker.rank, Worker.Looking] at hw ⊢
    rw [seatRank, seatRank, hw', hb', hp', hm', hm, hpipe, hb, Function.update_self, List.length_cons]
    simp only [Main.rank, Option.isNone_some, Option.isNone_none]
    omega

theorem Moves.rank_lt {e : Event α} (i : Inv s place) (t : InTable s) (hs : e.OfServer) (hg : Orderly s e)
    (hk : ∀ k, e = .worker k → k < maxClients) (h : Moves s e s') : rank s' < rank s := by
  cases h with
  | send => exact hs.elim
  | receive => exact hs.elim
  | wake => exact hs.elim
  | refuse hm hp =>
    simp only [rank, seatRank, Sys.reply, hp, List.length_cons]
    omega
  | mount hm hp hr hf =>
    have hb := i.target_null hg hm hp (by rw [hr]; exact hf)
    exact rank_lt_set (firstFree_eq_some.mp hf).1 hp hm hb (i.null _ hb) rfl rfl rfl rfl
  | deposit hm hp hr hlt =>
    have hb := i.target_null hg hm hp (target_of_sessionId s hr)
    exact rank_lt_set hlt hp hm hb (i.null _ hb) rfl rfl rfl rfl
  | @fill k m b hm hb =>
    refine Sessions.rank_lt (t.main k (hm ▸ ⟨m, .inl rfl⟩)) (fun j hj => ?_) ?_
    · simp only [seatRank, Sys.setBuffer, Function.update_of_ne hj]
    · simp only [seatRank, Sys.setBuffer, Function.update_self, hm, hb, Main.rank, Option.isNone_some]
      omega
  | @wakeWorker k m hm hw =>
    refine Sessions.rank_lt (t.main k (hm ▸ ⟨m, .inr rfl⟩)) (fun j hj => ?_) ?_
    · simp only [seatRank, Sys.setWorker, Function.update_of_ne hj]
    · simp only [seatRank, Sys.setWorker, Function.update_self, hm, hw, Main.rank, Worker.rank]
      split <;> omega
  | signalNobody hm =>
    simp only [rank, seatRank, hm, Main.rank]
    omega
  | @lock k hw =>
    refine rank_lt_worker (hk k rfl) rfl rfl rfl rfl ?_
    rcases hw with hw | hw <;> rw [hw] <;> cases (s.threadBuffer k).isNone <;> simp [Worker.rank]
  | @seeNull k hw hb => exact rank_lt_worker (hk k rfl) rfl rfl rfl rfl (by simp [hw, hb, Worker.rank])
  | @seeBuffer k hw hb =>
    refine rank_lt_worker (hk k rfl) rfl rfl rfl rfl ?_
    simp [hw, Worker.rank, hb]
  | @sleep k hw =>
    refine rank_lt_worker (hk k rfl) rfl rfl rfl rfl ?_
    rw [hw]
    cases (s.threadBuffer k).isNone <;> simp [Worker.rank]
  | @read k content hw hb => exact rank_lt_worker (hk k rfl) rfl rfl rfl rfl (by simp [hw, Worker.rank])
  | @garbage k hw => exact rank_lt_worker (hk k rfl) rfl rfl rfl rfl (by simp [hw, Worker.rank])
  | @execute k m s₁ hw he =>
    obtain ⟨hm, hb, hw'⟩ := execute_frame he
    have hp := execute_serverPipe he
    exact rank_lt_worker (hk k rfl) hp hm hb (by rw [← hw']; rfl) (by simp [hw, Worker.rank])
  | @clear k hw =>
    refine Sessions.rank_lt (hk k rfl) (fun j hj => ?_) ?_
    · simp only [seatRank, Sys.setWorker, Sys.setBuffer, Function.update_of_ne hj]
    · simp [seatRank, Sys.setWorker, Sys.setBuffer, hw, Worker.rank]

namespace CanGoOn

end CanGoOn

structure Reached (s : Sys α) : Prop where
  inv : ∃ place, Inv s place
  inTable : InTable s
  signalled : Signalled s

theorem Reached.step {e : Event α} {u : Unit} (r : Reached s) (hg : PoliteOrderlySeen s e)
    (h : Sessions.step s e = some (u, s')) :
    Reached s' := by
  obtain ⟨place, i⟩ := r.inv
  have hm := moves_of_step h
  exact ⟨i.step hg.1 hm, r.inTable.step hm, r.signalled.step hg.2 hm⟩

theorem Reached.rank_lt {e : Event α} {u : Unit} (r : Reached s) (hs : e.OfServer) (hg : PoliteOrderlySeen s e)
    (h : Sessions.step s e = some (u, s')) : rank s' < rank s := by
  obtain ⟨place, i⟩ := r.inv
  refine (moves_of_step h).rank_lt i r.inTable hs hg.1.2 fun k hk => ?_
  subst hk
  by_contra hlt
  rw [Sessions.step, if_neg hlt] at h
  cases h

end Tecnicofs.Ex2.Sessions
