import Tecnicofs.Ex1.LockOrder

namespace Tecnicofs.Ex1

abbrev Threads (n : Nat) := Pool n Lock Label State Request Out

variable {n : Nat} {p : Threads n} {S : Finset (Fin n)} {t : Fin n}

/-- The thread has an i-node locked for reading and can still come to the locks of the tables, as in the loop of
`tfs_copy_to_external_fs`. -/
def Copying (p : Threads n) (t : Fin n) : Prop :=
  (∃ i, (.rwl i, .shared) ∈ (p.thread t).held) ∧
    ∃ r prog, (p.thread t).current = some (r, prog) ∧ prog.MayTake fun l => l = .openFileTable ∨ l = .inodeTable

def HoldsTable (p : Threads n) (t : Fin n) : Prop :=
  ∃ x ∈ (p.thread t).held, x.1 = .openFileTable ∨ x.1 = .inodeTable

/-- No thread that holds the lock of a table waits for one that copies. -/
def Clear (p : Threads n) : Prop := ∀ t u, HoldsTable p t → p.WaitsFor t u → ¬ Copying p u

/-- Files are not truncated, and `inode_create` finds a free i-node. -/
def Guarded (p : Threads n) : Pool.Event n Request → Prop
  | .start _ r => r.NoTrunc
  | .step t => p.Assumes SearchFinds (.step t)

def awaitedRank (p : Threads n) (t : Fin n) : Nat :=
  match (p.thread t).current with
  | some (_, .lock l _ _) => l.rank
  | _ => 0

/-- A smallest set of threads that wait for each other. -/
structure Tangle (p : Threads n) (S : Finset (Fin n)) : Prop where
  disciplined : p.Disciplined SearchFinds ValidHandles Allowed
  exclusion : p.Exclusion
  waits : ∀ t ∈ S, ∃ u ∈ S, p.WaitsFor t u
  waitedFor : ∀ u ∈ S, ∃ t ∈ S, p.WaitsFor t u

structure Waits (p : Threads n) (S : Finset (Fin n)) (t : Fin n) (l : Lock) (mode : Mode) (u : Fin n) : Prop where
  mem : u ∈ S
  current : ∃ r k, (p.thread t).current = some (r, .lock l mode k)
  allowed : Ordered (p.thread t).held l ∨ Late (p.thread t).held l mode
  holder : ∃ m, (l, m) ∈ (p.thread u).held ∧ mode.Conflicts m

namespace Tangle

theorem waits_of_waitsFor (h : Tangle p S) {u : Fin n} (hu : u ∈ S) (hw : p.WaitsFor t u) :
    ∃ l mode, Waits p S t l mode u := by
  obtain ⟨r, l, mode, k, hc, hok, hne, hb⟩ := h.disciplined.of_waitsFor hw
  obtain ⟨⟨l', m⟩, hx, rfl, hm⟩ := hb
  refine ⟨l', mode, hu, ⟨r, k, hc⟩, hok.resolve_left fun hown => ?_, m, hx, hm⟩
  exact h.exclusion.apart t u hne _ hown ⟨_, hx, rfl, hm⟩

theorem exists_waits (h : Tangle p S) (ht : t ∈ S) : ∃ l mode u, Waits p S t l mode u := by
  obtain ⟨u, hu, hw⟩ := h.waits t ht
  obtain ⟨l, mode, hl⟩ := h.waits_of_waitsFor hu hw
  exact ⟨l, mode, u, hl⟩

theorem blockTable_notMem (h : Tangle p S) (ht : t ∈ S) (m : Mode) : (.blockTable, m) ∉ (p.thread t).held := by
  intro hx
  obtain ⟨l, mode, u, w⟩ := h.exists_waits ht
  rcases w.allowed with ho | hl
  · have hlt := ho.rank _ hx
    cases l <;> simp [Lock.rank] at hlt
  · exact hl.noBlockTable m hx

theorem ne_blockTable (h : Tangle p S) {l : Lock} {mode : Mode} {u : Fin n} (w : Waits p S t l mode u) :
    l ≠ .blockTable := by
  rintro rfl
  obtain ⟨m, hx, -⟩ := w.holder
  exact h.blockTable_notMem w.mem m hx

theorem writer_notMem (h : Tangle p S) (ht : t ∈ S) (i : Nat) : (.rwl i, .exclusive) ∉ (p.thread t).held := by
  intro hx
  obtain ⟨l, mode, u, w⟩ := h.exists_waits ht
  rcases w.allowed with ho | hl
  · have hlt := ho.rank _ hx
    have hne := h.ne_blockTable w
    cases l <;> simp [Lock.rank] at hlt hne
  · exact hl.noWriter i hx

theorem not_reading (h : Tangle p S) {i : Nat} {u : Fin n} : ¬ Waits p S t (.rwl i) .shared u := by
  intro w
  obtain ⟨m, hx, hm⟩ := w.holder
  cases m with
  | exclusive => exact h.writer_notMem w.mem i hx
  | shared => exact hm

theorem held_ne_nil (h : Tangle p S) (ht : t ∈ S) : (p.thread t).held ≠ [] := by
  obtain ⟨v, hv, hw⟩ := h.waitedFor t ht
  obtain ⟨l, mode, w⟩ := h.waits_of_waitsFor ht hw
  obtain ⟨m, hx, -⟩ := w.holder
  exact List.ne_nil_of_mem hx

theorem not_late (h : Tangle p S) (hclear : Clear p) (ht : t ∈ S) {l : Lock} {mode : Mode} {u : Fin n}
    (w : Waits p S t l mode u) : ¬ Late (p.thread t).held l mode := by
  intro hl
  rcases hl.next with ⟨j, rfl, rfl⟩ | ⟨htable, hno⟩
  · exact h.not_reading w
  · obtain ⟨r, k, hc⟩ := w.current
    have hcopy : Copying p t := ⟨hl.shared, r, _, hc, .inl htable⟩
    obtain ⟨v, hv, hw⟩ := h.waitedFor t ht
    have hnot : ¬ HoldsTable p v := fun hv => hclear v t hv hw hcopy
    obtain ⟨l', mode', w'⟩ := h.waits_of_waitsFor ht hw
    obtain ⟨m, hx, -⟩ := w'.holder
    obtain ⟨hne₁, hne₂⟩ := hno _ hx
    rcases w'.allowed with ho' | hl'
    · cases l' with
      | inodeTable => exact hne₂ rfl
      | openFileTable => exact hne₁ rfl
      | blockTable => exact h.ne_blockTable w' rfl
      | rwl i => exact hnot ⟨_, ho'.rwl i rfl, .inr rfl⟩
      | file f =>
        rcases ho'.file f rfl with hnil | hmem
        · exact h.held_ne_nil hv hnil
        · exact hnot ⟨_, hmem, .inl rfl⟩
    · rcases hl'.next with ⟨j, rfl, rfl⟩ | ⟨htable', -⟩
      · exact h.not_reading w'
      · rcases htable' with rfl | rfl
        · exact hne₁ rfl
        · exact hne₂ rfl

theorem ordered (h : Tangle p S) (hclear : Clear p) (ht : t ∈ S) {l : Lock} {mode : Mode} {u : Fin n}
    (w : Waits p S t l mode u) : Ordered (p.thread t).held l := w.allowed.resolve_right (h.not_late hclear ht w)

theorem awaitedRank_eq {l : Lock} {mode : Mode} {u : Fin n} (w : Waits p S t l mode u) :
    awaitedRank p t = l.rank := by
  obtain ⟨r, k, hc⟩ := w.current
  rw [Ex1.awaitedRank, hc]

theorem not_clear (h : Tangle p S) (hne : S.Nonempty) : ¬ Clear p := by
  intro hclear
  refine Pool.not_deadlock_of_rank hne (awaitedRank p) fun t ht => ?_
  obtain ⟨l, mode, u, w⟩ := h.exists_waits ht
  obtain ⟨l', mode', u', w'⟩ := h.exists_waits w.mem
  obtain ⟨m, hx, -⟩ := w.holder
  refine ⟨u, w.mem, ?_⟩
  rw [awaitedRank_eq w, awaitedRank_eq w']
  exact (h.ordered hclear w.mem w').rank _ hx

end Tangle

theorem validHandles_init : ValidHandles State.init := by
  intro i
  rw [State.init_eq]
  exact (by decide : validInumber 0)

/-- As long as files are not truncated and i-nodes are found, the threads of a deadlock include one that holds the
lock of a table and waits for one that copies. -/
theorem not_deadlocked {es : List (Pool.Event n Request)} {outs : List Unit}
    (ha : Runs.Along (Pool.step Request.body) Guarded (.init State.init) es)
    (hr : Runs.run (Pool.step Request.body) (.init State.init) es = some (outs, p)) (hclear : Clear p) :
    ¬ p.Deadlocked := by
  have hstep : ∀ (q : Threads n) e o q', (q.Disciplined SearchFinds ValidHandles Allowed ∧ q.Exclusion) →
      Guarded q e → Pool.step Request.body q e = some (o, q') →
      True ∧ q'.Disciplined SearchFinds ValidHandles Allowed ∧ q'.Exclusion := by
    intro q e o q' ⟨hd, hx⟩ hg h
    have hm := Pool.moves_of_step h
    refine ⟨trivial, hd.step (fun t r he => ?_) ?_ hm, hx.step hd.givesOwn hm⟩
    · subst he
      exact neutral_body hg
    · cases e with
      | start t r => trivial
      | step t => exact hg
  obtain ⟨-, hd, hx⟩ := Runs.run_invariant (P := fun _ => True) hstep
    ⟨.init validHandles_init, .init State.init⟩ ha hr
  intro hdead
  obtain ⟨S, hne, hS, hS'⟩ := hdead.minimal
  exact Tangle.not_clear ⟨hd, hx, hS, hS'⟩ hne hclear

instance : ∀ r : Request, Decidable r.NoTrunc
  | .call (.open _ _) => inferInstanceAs (Decidable (_ = _))
  | .call (.close _) | .call (.write _ _) | .call (.read _ _) | .copy _ _ _ => inferInstanceAs (Decidable True)

instance : ∀ l s, Decidable (SearchFinds l s)
  | .inodeSearch, s => inferInstanceAs (Decidable (Label.inodeSearch.Succeeds s))
  | .alloc, _ | .write _ _, _ => inferInstanceAs (Decidable True)

instance (p : Threads n) : ∀ e, Decidable (Guarded p e)
  | .start _ r => inferInstanceAs (Decidable r.NoTrunc)
  | .step t => inferInstanceAs (Decidable (p.Assumes SearchFinds (.step t)))

instance (p : Threads n) (t : Fin n) : Decidable (HoldsTable p t) := inferInstanceAs (Decidable (∃ x ∈ _, _))

theorem clear_of_no_wait (h : ∀ t u, HoldsTable p t → ¬ p.WaitsFor t u) : Clear p :=
  fun t u ht hw => absurd hw (h t u ht)

def copyAndOpen (copySteps openSteps : Nat) : List (Pool.Event 2 Request) :=
  let name := some ⟨[47, 97], by decide⟩
  .start 0 (.call (.open name tfsOCreat)) :: List.replicate 16 (.step 0) ++
    .start 0 (.copy name ⟨true, fun _ => bufferSize⟩ 1) :: List.replicate copySteps (.step 0) ++
      .start 1 (.call (.open name 0)) :: List.replicate openSteps (.step 1)

/-- The copy has not come to its loop; the other thread waits for `inode_table_lock`. -/
theorem not_deadlocked_before_loop : ∃ p : Threads 2,
    (∃ outs, Runs.run (Pool.step Request.body) (.init State.init) (copyAndOpen 19 0) = some (outs, p)) ∧
      p.WaitsFor 1 0 ∧ ¬ p.Deadlocked := by
  have hend : (Runs.run (Pool.step Request.body) (.init State.init) (copyAndOpen 19 0)).map (fun x =>
      (decide (x.2.WaitsFor 1 0), decide (∀ t u, HoldsTable x.2 t → ¬ x.2.WaitsFor t u))) = some (true, true) := by
    decide +kernel
  obtain ⟨x, hx, he⟩ := Option.map_eq_some_iff.mp hend
  have hwait : x.2.WaitsFor 1 0 := of_decide_eq_true (congrArg Prod.fst he)
  have hno : ∀ t u, HoldsTable x.2 t → ¬ x.2.WaitsFor t u := of_decide_eq_true (congrArg Prod.snd he)
  exact ⟨x.2, ⟨x.1, hx⟩, hwait, not_deadlocked (by decide +kernel) hx (clear_of_no_wait hno)⟩

/-- The copy waits for `inode_table_lock` in its first read, and the other thread for the i-node. -/
theorem copy_deadlocks : ¬ ∀ (n : Nat) (es : List (Pool.Event n Request)) (outs : List Unit) (p : Threads n),
    Runs.Along (Pool.step Request.body) Guarded (.init State.init) es →
    Runs.run (Pool.step Request.body) (.init State.init) es = some (outs, p) → ¬ p.Deadlocked := by
  intro h
  have hend : (Runs.run (Pool.step Request.body) (.init State.init) (copyAndOpen 24 4)).map (fun x =>
      (decide (x.2.WaitsFor 0 1), decide (x.2.WaitsFor 1 0))) = some (true, true) := by
    decide +kernel
  obtain ⟨x, hx, he⟩ := Option.map_eq_some_iff.mp hend
  have h0 : x.2.WaitsFor 0 1 := of_decide_eq_true (congrArg Prod.fst he)
  have h1 : x.2.WaitsFor 1 0 := of_decide_eq_true (congrArg Prod.snd he)
  refine h 2 _ x.1 x.2 (by decide +kernel) hx ⟨Finset.univ, Finset.univ_nonempty, fun t _ => ?_⟩
  rcases Fin.exists_fin_two.mp ⟨t, rfl⟩ with rfl | rfl
  · exact ⟨1, Finset.mem_univ _, h0⟩
  · exact ⟨0, Finset.mem_univ _, h1⟩

end Tecnicofs.Ex1
