import Tecnicofs.Ex2.Linearizable
import Tecnicofs.Ex2.Resources

namespace Tecnicofs.Ex2.Resources

open Sessions Loans

theorem step_of_moves {t t' : Sessions.Sys Call} {e : Event Call} (h : Moves t e t')
    (hk : ∀ k, e = .worker k → k < maxClients) : Sessions.step t e = some ((), t') := by
  have worker : ∀ {k}, e = .worker k → Sessions.workerStep t k = some t' → Sessions.step t e = some ((), t') := by
    intro k he hw
    subst he
    rw [Sessions.step, if_pos (hk k rfl), hw]
    rfl
  cases h with
  | send c r => rfl
  | receive hw hp => simp [Sessions.step, Sessions.receive, hw, hp]
  | refuse hm hp hr hf =>
    simp only [Sessions.step, Sessions.mainStep, Sessions.tfsMount, hm, hp, hr, hf, Option.map_some]
  | mount hm hp hr hf =>
    simp only [Sessions.step, Sessions.mainStep, Sessions.tfsMount, hm, hp, hr, hf, Option.map_some]
  | @deposit m rest k hm hp hr hlt =>
    cases hreq : m.request with
    | mount p => simp [hreq, Request.sessionId] at hr
    | _ =>
      obtain rfl : _ = k := by simpa [hreq, Request.sessionId] using hr
      simp only [Sessions.step, Sessions.mainStep, hm, hp, hreq, if_pos hlt, Option.map_some]
  | fill hm hb => simp [Sessions.step, Sessions.mainStep, hm, hb]
  | wakeWorker hm hw => simp [Sessions.step, Sessions.mainStep, hm, hw, Sessions.Sys.setWorker]
  | signalNobody hm hw => simp only [Sessions.step, Sessions.mainStep, hm, Option.map_some]
  | lock hw => exact worker rfl (by rcases hw with hw | hw <;> simp [Sessions.workerStep, hw])
  | seeNull hw hb => exact worker rfl (by simp [Sessions.workerStep, hw, hb])
  | seeBuffer hw hb => exact worker rfl (by simp [Sessions.workerStep, hw, hb])
  | sleep hw => exact worker rfl (by simp [Sessions.workerStep, hw])
  | read hw hb => exact worker rfl (by simp [Sessions.workerStep, hw, hb])
  | garbage hw => exact worker rfl (by simp [Sessions.workerStep, hw])
  | execute hw he => exact worker rfl (by simp [Sessions.workerStep, hw, he])
  | clear hw => exact worker rfl (by simp [Sessions.workerStep, hw])
  | wake hw => simp [Sessions.step, Sessions.wakeUp, hw]

section
variable {limit : Nat} {s s' : Sys} {pipe : Nat → Nat} {refused reads a : Nat} {e : Event Call} {o : Effect}
  {place : Nat → Sessions.Place}

theorem polite_sessions (pipe : Nat → Nat) :
    (Polite (s.sessions pipe) e ∧ Orderly (s.sessions pipe) e) ↔ (Polite s.view e ∧ Orderly s.view e) := by
  cases e with
  | send c r => cases r <;> exact Iff.rfl
  | _ => exact Iff.rfl

namespace Sound

theorem threadBuffer_of_null {k : Nat} (h : (s.sessions pipe).threadBuffer k = none) : s.threadBuffer k = none :=
  Option.map_eq_none_iff.mp h

theorem mainStep (i : Sound limit s pipe refused reads) (q : Inv (s.sessions pipe) place)
    (hg : Orderly (s.sessions pipe) .main) (h : Resources.mainStep limit s a = some (o, s')) :
    ∃ pipe', Moves (s.sessions pipe) .main (s'.sessions pipe') ∧
      Sound limit s' pipe' (refused + [o].count .refused) (reads + [o].count .sentRead) := by
  unfold Resources.mainStep at h
  cases hm : s.main with
  | receiving =>
    cases hp : s.serverPipe with
    | nil => simp [hm, hp] at h
    | cons m rest =>
      have null : ∀ {k}, target (s.sessions pipe) m.request = some k → s.threadBuffer k = none := fun hk =>
        threadBuffer_of_null (q.target_null hg hm hp hk)
      have deposit : ∀ k, m.request.sessionId = some k →
          (if k < maxClients then (Resources.setThreadBuffer s a k m rest).map fun s => (Effect.nothing, s) else none) =
            some (o, s') → ∃ pipe', Moves (s.sessions pipe) .main (s'.sessions pipe') ∧
              Sound limit s' pipe' (refused + [o].count .refused) (reads + [o].count .sentRead) := by
        intro k hk h
        split at h
        · next hlt =>
          obtain ⟨s₁, hs, he⟩ := Option.map_eq_some_iff.mp h
          cases he
          obtain ⟨heq, i₁⟩ := i.setThreadBuffer hlt (null (target_of_sessionId _ hk)) hs
          refine ⟨pipe, ?_, i₁⟩
          rw [heq]
          exact .deposit (s := s.sessions pipe) hm hp hk hlt
        · cases h
      simp only [hm, hp] at h
      cases hr : m.request with
      | mount p =>
        simp only [hr, tfsMount] at h
        split at h
        · cases h
        next fdc s₁ hopen =>
        obtain ⟨hlt, hnone, rfl⟩ := openPipe_eq_some hopen
        split at h
        · next hf =>
          obtain ⟨s₂, hw, he⟩ := Option.map_eq_some_iff.mp h
          cases he
          obtain ⟨p', hp', rfl⟩ := write_eq_some hw
          obtain rfl : p = p' := by simpa using hp'
          exact ⟨pipe, .refuse (s := s.sessions pipe) hm hp hr hf, (i.refuse hlt hnone).congr rfl rfl rfl rfl rfl⟩
        · next k hf =>
          obtain ⟨hk, hfree, -⟩ := firstFree_eq_some.mp hf
          obtain ⟨s₂, hs, he⟩ := Option.map_eq_some_iff.mp h
          cases he
          -- the block is taken from the same heap, whatever the descriptors are
          obtain ⟨ha, rfl⟩ := setThreadBuffer_eq_some hs
          obtain ⟨s₃, hs₃⟩ := Option.isSome_iff_exists.mp (setThreadBuffer_isSome (s := s) ha k m rest)
          obtain ⟨heq, i₁⟩ := i.setThreadBuffer hk (null (by rw [hr]; exact hf)) hs₃
          obtain ⟨-, rfl⟩ := setThreadBuffer_eq_some hs₃
          refine ⟨Function.update pipe k p, ?_, (i₁.grant hk hfree hlt hnone).congr rfl rfl rfl rfl rfl⟩
          have hmove := Moves.mount (s := s.sessions pipe) hm hp hr hf
          rw [← heq] at hmove
          exact hmove
      | unmount k => exact deposit k (by rw [hr]; rfl) (by simpa only [hr] using h)
      | call k c => exact deposit k (by rw [hr]; rfl) (by simpa only [hr] using h)
      | shutdown k => exact deposit k (by rw [hr]; rfl) (by simpa only [hr] using h)
  | filling k m =>
    simp only [hm] at h
    obtain ⟨s₁, hs, he⟩ := Option.map_eq_some_iff.mp h
    cases he
    obtain ⟨heq, i₁, b, hb⟩ := i.store hs
    refine ⟨pipe, ?_, i₁.congr rfl rfl rfl rfl rfl⟩
    have hmove := Moves.fill (s := s.sessions pipe) hm hb
    rw [← heq] at hmove
    exact hmove
  | signalling k m =>
    simp only [hm] at h
    obtain ⟨t, ht, he⟩ := Option.map_eq_some_iff.mp h
    cases he
    have hmove := moves_of_mainStep ht
    refine i.control hmove (by simp [handled, Sys.view, Sys.sessions, hm]) ?_
    cases hmove with
    | refuse hm' => cases hm.symm.trans hm'
    | mount hm' => cases hm.symm.trans hm'
    | deposit hm' => cases hm.symm.trans hm'
    | fill hm' => cases hm.symm.trans hm'
    | wakeWorker => rfl
    | signalNobody => rfl

theorem workerStep {k : Nat} (i : Sound limit s pipe refused reads) (q : Inv (s.sessions pipe) place)
    (h : Resources.workerStep s a k = some (o, s')) :
    ∃ pipe', Moves (s.sessions pipe) (.worker k) (s'.sessions pipe') ∧
      Sound limit s' pipe' (refused + [o].count .refused) (reads + [o].count .sentRead) := by
  have control : ∀ {w}, s.worker k = w → (∀ m, w ≠ .executing (some m)) → w ≠ .replied →
      ((Sessions.workerStep s.view k).map fun t => (Effect.nothing, s.after t)) = some (o, s') →
        ∃ pipe', Moves (s.sessions pipe) (.worker k) (s'.sessions pipe') ∧
          Sound limit s' pipe' (refused + [o].count .refused) (reads + [o].count .sentRead) := by
    intro w hw hex hrep h
    obtain ⟨t, ht, he⟩ := Option.map_eq_some_iff.mp h
    cases he
    have hmove := moves_of_workerStep ht
    refine i.control hmove ?_ ?_
    · simp only [handled]
      split
      · next content hc =>
        cases content with
        | none => rfl
        | some m => exact absurd (hw.symm.trans hc) (hex m)
      · rfl
    · cases hmove with
      | execute hw' => exact absurd (hw.symm.trans hw') (hex _)
      | clear hw' => exact absurd (hw.symm.trans hw') hrep
      | _ => rfl
  unfold Resources.workerStep at h
  cases hw : s.worker k with
  | reading =>
    simp only [hw] at h
    obtain ⟨content, hc, he⟩ := Option.map_eq_some_iff.mp h
    cases he
    have hb : (s.sessions pipe).threadBuffer k = some content := by
      unfold Sys.load at hc
      split at hc
      · cases hc
      next b hb =>
      split at hc
      · cases hc
        simp [Sys.sessions, hb]
      · cases hc
    exact ⟨pipe, .read (s := s.sessions pipe) hw hb, i.congr rfl rfl rfl rfl rfl⟩
  | executing content =>
    cases content with
    | none => exact control hw (by simp) (by simp) (by simpa only [hw] using h)
    | some m =>
      simp only [hw] at h
      obtain ⟨-, -, h⟩ := Option.bind_eq_some_iff.mp h
      obtain ⟨x, hx, he⟩ := Option.map_eq_some_iff.mp h
      cases he
      obtain ⟨m', hm', -, -, hk, ho⟩ := q.executing_cases hw
      obtain rfl := Option.some.inj hm'
      obtain ⟨hex, i₁⟩ := i.execute ho.taken hk hx
      exact ⟨pipe, .execute (s := s.sessions pipe) hw hex, i₁.congr rfl rfl rfl rfl rfl⟩
  | replied =>
    simp only [hw] at h
    obtain ⟨s₁, hs, he⟩ := Option.map_eq_some_iff.mp h
    cases he
    obtain ⟨heq, i₁⟩ := i.clear hs
    refine ⟨pipe, ?_, i₁.congr rfl rfl rfl rfl rfl⟩
    have hmove := Moves.clear (s := s.sessions pipe) hw
    rw [← heq] at hmove
    have hworker : s₁.worker = s.worker := by
      unfold Sys.free at hs
      split at hs
      · cases hs
        rfl
      · split at hs
        · cases hs
          rfl
        · cases hs
    exact hmove
  | _ => exact control hw (by simp) (by simp) (by simpa only [hw] using h)

theorem advance (i : Sound limit s pipe refused reads) (q : Inv (s.sessions pipe) place)
    (hg : Polite s.view e ∧ Orderly s.view e) (h : Resources.advance limit s (e, a) = some (o, s')) :
    ∃ pipe', Sessions.step (s.sessions pipe) e = some ((), s'.sessions pipe') ∧
      Sound limit s' pipe' (refused + [o].count .refused) (reads + [o].count .sentRead) := by
  have control : (∀ t, Moves s.view e t → handled s.view e = none ∧ t.threadBuffer = s.view.threadBuffer) →
      (∀ k, e ≠ .worker k) → ((Sessions.step s.view e).map fun x => (Effect.nothing, s.after x.2)) = some (o, s') →
        ∃ pipe', Sessions.step (s.sessions pipe) e = some ((), s'.sessions pipe') ∧
          Sound limit s' pipe' (refused + [o].count .refused) (reads + [o].count .sentRead) := by
    intro hquiet hworker h
    obtain ⟨x, hx, he⟩ := Option.map_eq_some_iff.mp h
    cases he
    have hmove := moves_of_step hx
    obtain ⟨hh, hb⟩ := hquiet _ hmove
    obtain ⟨pipe', hm, i'⟩ := i.control hmove hh hb
    exact ⟨pipe', step_of_moves hm fun k hk => absurd hk (hworker k), i'⟩
  cases e with
  | main =>
    obtain ⟨pipe', hm, i'⟩ := i.mainStep q ((polite_sessions pipe).mpr hg).2 h
    exact ⟨pipe', step_of_moves hm nofun, i'⟩
  | worker k =>
    rw [Resources.advance] at h
    split at h
    · next hk =>
      obtain ⟨pipe', hm, i'⟩ := i.workerStep q h
      exact ⟨pipe', step_of_moves hm fun j hj => by cases hj; exact hk, i'⟩
    · cases h
  | send c r => exact control (fun t ht => by cases ht; exact ⟨rfl, rfl⟩) nofun h
  | receive c => exact control (fun t ht => by cases ht; exact ⟨rfl, rfl⟩) nofun h
  | wake k => exact control (fun t ht => by cases ht; exact ⟨rfl, rfl⟩) nofun h

end Sound
end

def Sys.mounted (s : Sys) : Finset Nat := (Finset.range maxClients).filter fun k => s.freesessionEntries k = .taken

section
variable {limit : Nat} {s s' : Sys} {pipe : Nat → Nat} {refused reads a : Nat} {e : Event Call}
  {place : Nat → Sessions.Place} {t : Sessions.Sys Call}

namespace Sound

end Sound

end

end Tecnicofs.Ex2.Resources
