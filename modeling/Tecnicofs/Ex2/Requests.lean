import Tecnicofs.Ex2.Sessions

/-! Project 2: what becomes of a request.  Clients send one request at a time and use the session they were given;
the invariant says for each client where its request is, and whose session each buffer belongs to. -/

namespace Tecnicofs.Ex2.Sessions

theorem sessionAfter_eq_some {old : Option Nat} {request : Request α} {r : Reply} {k : Nat}
    (h : sessionAfter old request r = some k) :
    r = .session k ∨ old = some k ∧ ∀ j, request ≠ .unmount j := by
  cases request with
  | mount pipe =>
    cases r with
    | session j =>
      cases h
      exact .inl rfl
    | noSession => cases h
    | outcome => cases h
  | unmount j => cases h
  | call j fields => exact .inr ⟨h, by simp⟩
  | shutdown j => exact .inr ⟨h, by simp⟩

/-- A client sends when it is not waiting, with its own pipe and its own session. -/
def Polite (s : Sys α) : Event α → Prop
  | .send c (.mount pipe) => s.waiting c = none ∧ pipe = c
  | .send c (.unmount k) | .send c (.call k _) => s.waiting c = none ∧ s.sessionId c = some k
  | .send _ (.shutdown _) => False
  | .receive _ | .main | .worker _ | .wake _ => True

def target (s : Sys α) : Request α → Option Nat
  | .mount _ => firstFree s.freesessionEntries maxClients
  | .unmount k | .call k _ | .shutdown k => some k

theorem target_of_sessionId (s : Sys α) {r : Request α} {k : Nat} (h : r.sessionId = some k) : target s r = some k := by
  cases r <;> cases h <;> rfl

/-- The main thread sets no buffer that its worker is still to free, and no worker reads an unfilled buffer. -/
def Orderly (s : Sys α) : Event α → Prop
  | .main =>
    match s.main, s.serverPipe with
    | .receiving, m :: _ => ∀ k ∈ target s m.request, s.worker k ≠ .replied
    | _, _ => True
  | .worker k => s.worker k = .reading → s.threadBuffer k ≠ some none
  | .send _ _ | .receive _ | .wake _ => True

inductive Place
  | idle
  | pipe
  | session (k : Nat)
  | answered

def Worker.Looking : Worker α → Prop
  | .unlocked | .locked | .sawNull | .asleep | .woken => True
  | .reading | .executing _ | .replied => False

def Worker.Fresh : Worker α → Prop
  | .unlocked | .locked | .sawNull | .asleep | .woken | .reading => True
  | .executing _ | .replied => False

theorem Worker.Looking.fresh {w : Worker α} (h : w.Looking) : w.Fresh := by
  cases w <;> trivial

/-- Session `k` has a request that is not executed yet. -/
inductive Holds (s : Sys α) (k : Nat) (m : Message α) : Prop
  | filling (hm : s.main = .filling k m) (hb : s.threadBuffer k = some none) (hw : (s.worker k).Fresh)
  | filled (hb : s.threadBuffer k = some (some m)) (hw : (s.worker k).Fresh)
  | executing (hb : s.threadBuffer k = some (some m)) (hw : s.worker k = .executing (some m))

structure Owned (s : Sys α) (k c : Nat) : Prop where
  taken : s.freesessionEntries k = .taken
  clientFd : s.clientFd k = c

theorem Owned.unique {s : Sys α} {k c c' : Nat} (h : Owned s k c) (h' : Owned s k c') : c = c' :=
  h.clientFd.symm.trans h'.clientFd

inductive Client (s : Sys α) (c : Nat) : Place → Prop
  | idle (hw : s.waiting c = none) (hp : s.clientPipe c = []) : Client s c .idle
  | pipe {m : Message α} (hw : s.waiting c = some m) (hp : s.clientPipe c = []) (hm : m ∈ s.serverPipe) :
      Client s c .pipe
  | session {m : Message α} {k : Nat} (hw : s.waiting c = some m) (hp : s.clientPipe c = [])
      (hh : Holds s k m) (hk : ∀ j ∈ m.request.sessionId, j = k) (ho : Owned s k c) : Client s c (.session k)
  | answered {m : Message α} {r : Reply} (hw : s.waiting c = some m) (hp : s.clientPipe c = [r])
      (ho : ∀ k, r = .session k → Owned s k c) : Client s c .answered

structure Sender (s : Sys α) (c : Nat) (m : Message α) : Prop where
  client : m.client = c
  sent : m ∈ s.sent
  session : ∀ k ∈ m.request.sessionId, s.sessionId c = some k
  pipe : ∀ p, m.request = .mount p → p = c
  noShutdown : ∀ k, m.request ≠ .shutdown k

structure Inv (s : Sys α) (place : Nat → Place) : Prop where
  client : ∀ c, Client s c (place c)
  sender : ∀ c m, s.waiting c = some m → Sender s c m
  pipe : ∀ m ∈ s.serverPipe, s.waiting m.client = some m ∧ place m.client = .pipe
  nodup : (s.serverPipe.map Message.client).Nodup
  filling : ∀ k m, s.main = .filling k m →
    s.waiting m.client = some m ∧ place m.client = .session k ∧ s.threadBuffer k = some none
  buffer : ∀ k, s.threadBuffer k ≠ none → s.worker k = .replied ∨ ∃ c, place c = .session k
  null : ∀ k, s.threadBuffer k = none → (s.worker k).Looking
  owner : ∀ c k, s.sessionId c = some k →
    Owned s k c ∨ place c = .answered ∧ ∃ m, s.waiting c = some m ∧ m.request = .unmount k
  executed : ∀ b ∈ s.executed, ∃ m ∈ s.sent, b = some m
  once : s.executed.Nodup
  pending : ∀ c m, s.waiting c = some m → place c ≠ .answered → some m ∉ s.executed
  number : ∀ m ∈ s.sent, m.number < s.sent.length

variable {s s' : Sys α} {place : Nat → Place}

theorem Holds.mono {k : Nat} {m : Message α} (h : Holds s k m) (hb : s'.threadBuffer k = s.threadBuffer k)
    (hm : s.main = .filling k m → s'.main = .filling k m) (hw : (s.worker k).Fresh → (s'.worker k).Fresh)
    (he : s.worker k = .executing (some m) → s'.worker k = .executing (some m)) : Holds s' k m := by
  cases h with
  | filling h₁ h₂ h₃ => exact .filling (hm h₁) (hb.trans h₂) (hw h₃)
  | filled h₁ h₂ => exact .filled (hb.trans h₁) (hw h₂)
  | executing h₁ h₂ => exact .executing (hb.trans h₁) (he h₂)

theorem Client.mono {c : Nat} {p : Place} (h : Client s c p) (hw : s'.waiting c = s.waiting c)
    (hp : s'.clientPipe c = s.clientPipe c)
    (hm : ∀ m ∈ s.serverPipe, s.waiting c = some m → p = .pipe → m ∈ s'.serverPipe)
    (hh : ∀ k m, p = .session k → Holds s k m → Holds s' k m) (ho : ∀ k, Owned s k c → Owned s' k c) :
    Client s' c p := by
  cases h with
  | idle h₁ h₂ => exact .idle (hw.trans h₁) (hp.trans h₂)
  | pipe h₁ h₂ h₃ => exact .pipe (hw.trans h₁) (hp.trans h₂) (hm _ h₃ h₁ rfl)
  | session h₁ h₂ h₃ h₄ h₅ => exact .session (hw.trans h₁) (hp.trans h₂) (hh _ _ rfl h₃) h₄ (ho _ h₅)
  | answered h₁ h₂ h₃ => exact .answered (hw.trans h₁) (hp.trans h₂) fun k hk => ho _ (h₃ k hk)

theorem Sender.mono {c : Nat} {m : Message α} (h : Sender s c m) (hs : m ∈ s.sent → m ∈ s'.sent)
    (hk : s'.sessionId c = s.sessionId c) : Sender s' c m :=
  ⟨h.client, hs h.sent, fun k hm => hk.trans (h.session k hm), h.pipe, h.noShutdown⟩

namespace Inv

theorem init : Inv (Sys.init : Sys α) fun _ => .idle where
  client _ := .idle rfl rfl
  sender _ _ h := by cases h
  pipe _ h := by cases h
  nodup := .nil
  filling _ _ h := by cases h
  buffer _ h := absurd rfl h
  null _ _ := trivial
  owner _ _ h := by cases h
  executed _ h := by cases h
  once := .nil
  pending _ _ h := by cases h
  number _ h := by cases h

theorem session_unique (i : Inv s place) {c c' k : Nat} (h : place c = .session k) (h' : place c' = .session k) :
    c = c' := by
  have hc := i.client c
  have hc' := i.client c'
  rw [h] at hc
  rw [h'] at hc'
  cases hc with
  | session _ _ _ _ ho =>
    cases hc' with
    | session _ _ _ _ ho' => exact ho.unique ho'

theorem session_cases (i : Inv s place) {c k : Nat} (h : place c = .session k) :
    ∃ m, s.waiting c = some m ∧ s.clientPipe c = [] ∧ Holds s k m ∧ (∀ j ∈ m.request.sessionId, j = k) ∧
      Owned s k c := by
  have hc := i.client c
  rw [h] at hc
  cases hc with
  | session h₁ h₂ h₃ h₄ h₅ => exact ⟨_, h₁, h₂, h₃, h₄, h₅⟩

theorem workers (i : Inv s place) {main : Main α} {worker : Nat → Worker α}
    (hm : ∀ k m, main = .filling k m ↔ s.main = .filling k m)
    (hw : ∀ k, worker k = s.worker k ∨
      (s.worker k).Fresh ∧ (worker k).Fresh ∧ (s.threadBuffer k = none → (worker k).Looking)) :
    Inv { s with main := main, worker := worker } place where
  client c := by
    refine (i.client c).mono rfl rfl (fun _ h _ _ => h) (fun k m _ hh => hh.mono rfl (hm k m).mpr ?_ ?_)
      fun k ho => ⟨ho.taken, ho.clientFd⟩
    · intro hf
      rcases hw k with h | h
      · simpa only [h] using hf
      · exact h.2.1
    · intro he
      rcases hw k with h | h
      · exact h.trans he
      · rw [he] at h
        exact h.1.elim
  sender c m h := (i.sender c m h).mono id rfl
  pipe := i.pipe
  nodup := i.nodup
  filling k m h := i.filling k m ((hm k m).mp h)
  buffer k hb := by
    rcases i.buffer k hb with h | h
    · rcases hw k with h' | h'
      · exact .inl (h'.trans h)
      · rw [h] at h'
        exact h'.1.elim
    · exact .inr h
  null k hb := by
    rcases hw k with h | h
    · simpa only [h] using i.null k hb
    · exact h.2.2 hb
  owner c k h := (i.owner c k h).imp (fun ho => ⟨ho.taken, ho.clientFd⟩) id
  executed := i.executed
  once := i.once
  pending := i.pending
  number := i.number

theorem setWorker (i : Inv s place) {k : Nat} {w : Worker α} (hs : (s.worker k).Fresh) (hw : w.Fresh)
    (hb : s.threadBuffer k = none → w.Looking) : Inv (s.setWorker k w) place := by
  refine i.workers (fun _ _ => Iff.rfl) fun j => ?_
  by_cases hj : j = k
  · subst hj
    exact .inr (by simpa using ⟨hs, hw, hb⟩)
  · exact .inl (Function.update_of_ne hj ..)

theorem read (i : Inv s place) {k : Nat} {content : Option (Message α)} (hw : s.worker k = .reading)
    (hb : s.threadBuffer k = some content) (hne : content ≠ none) :
    Inv (s.setWorker k (.executing content)) place where
  client c := by
    refine (i.client c).mono rfl rfl (fun _ h _ _ => h) (fun j m _ hh => ?_) fun k ho => ⟨ho.taken, ho.clientFd⟩
    by_cases hj : j = k
    · subst hj
      cases hh with
      | filling _ hb' =>
        cases hb.symm.trans hb'
        exact absurd rfl hne
      | filled hb' =>
        cases hb.symm.trans hb'
        exact .executing hb (Function.update_self ..)
      | executing _ hw' => cases hw.symm.trans hw'
    · exact hh.mono rfl id (by simp [Sys.setWorker, hj]) (by simp [Sys.setWorker, hj])
  sender c m h := (i.sender c m h).mono id rfl
  pipe := i.pipe
  nodup := i.nodup
  filling := i.filling
  buffer j hj := by
    by_cases hjk : j = k
    · rw [hjk] at hj ⊢
      exact .inr ((i.buffer k hj).resolve_left (by simp [hw]))
    · simpa [Sys.setWorker, hjk] using i.buffer j hj
  null j hj := by
    by_cases hjk : j = k
    · rw [hjk] at hj
      cases hb.symm.trans hj
    · simpa [Sys.setWorker, hjk] using i.null j hj
  owner c k h := (i.owner c k h).imp (fun ho => ⟨ho.taken, ho.clientFd⟩) id
  executed := i.executed
  once := i.once
  pending := i.pending
  number := i.number

theorem fill (i : Inv s place) {k : Nat} {m : Message α} (hm : s.main = .filling k m) :
    Inv { s.setBuffer k (some (some m)) with main := .signalling k m } place := by
  obtain ⟨hwait, hplace, hnone⟩ := i.filling k m hm
  have hbuf : ∀ {j}, j ≠ k → Function.update s.threadBuffer k (some (some m)) j = s.threadBuffer j :=
    fun hj => Function.update_of_ne hj ..
  exact {
    client := fun c => by
      refine (i.client c).mono rfl rfl (fun _ h _ _ => h) (fun j m' hp hh => ?_)
        fun k ho => ⟨ho.taken, ho.clientFd⟩
      by_cases hj : j = k
      · subst hj
        cases hh with
        | filling hm' _ hw =>
          cases hm.symm.trans hm'
          exact .filled (Function.update_self ..) hw
        | filled hb' => cases hnone.symm.trans hb'
        | executing hb' => cases hnone.symm.trans hb'
      · refine hh.mono (hbuf hj) (fun hm' => ?_) id id
        cases hm.symm.trans hm'
        exact absurd rfl hj
    sender := fun c m h => (i.sender c m h).mono id rfl
    pipe := i.pipe
    nodup := i.nodup
    filling := fun _ _ h => by cases h
    buffer := fun j hj => by
      by_cases hjk : j = k
      · rw [hjk]
        exact .inr ⟨_, hplace⟩
      · exact i.buffer j fun h => hj ((hbuf hjk).trans h)
    null := fun j hj => by
      by_cases hjk : j = k
      · simp [Sys.setBuffer, hjk] at hj
      · exact i.null j ((hbuf hjk).symm.trans hj)
    owner := fun c k h => (i.owner c k h).imp (fun ho => ⟨ho.taken, ho.clientFd⟩) id
    executed := i.executed
    once := i.once
    pending := i.pending
    number := i.number }

theorem clear (i : Inv s place) {k : Nat} (hw : s.worker k = .replied) :
    Inv ((s.setBuffer k none).setWorker k .unlocked) place := by
  have hnone : ∀ c, place c ≠ .session k := fun c hc => by
    obtain ⟨m, -, -, hh, -⟩ := i.session_cases hc
    cases hh with
    | filling _ _ h => simp [hw, Worker.Fresh] at h
    | filled _ h => simp [hw, Worker.Fresh] at h
    | executing _ h => cases hw.symm.trans h
  have hbuf : ∀ {j}, j ≠ k → Function.update s.threadBuffer k none j = s.threadBuffer j :=
    fun hj => Function.update_of_ne hj ..
  have hwork : ∀ {j}, j ≠ k → Function.update s.worker k .unlocked j = s.worker j :=
    fun hj => Function.update_of_ne hj ..
  exact {
    client := fun c => by
      refine (i.client c).mono rfl rfl (fun _ h _ _ => h) (fun j m hp hh => ?_) fun k ho => ⟨ho.taken, ho.clientFd⟩
      have hj : j ≠ k := fun h => hnone c (by rw [hp, h])
      exact hh.mono (hbuf hj) id (fun h => by simpa only [Sys.setWorker, Sys.setBuffer, hwork hj] using h)
        fun h => (hwork hj).trans h
    sender := fun c m h => (i.sender c m h).mono id rfl
    pipe := i.pipe
    nodup := i.nodup
    filling := fun j m h => by
      obtain ⟨h₁, h₂, h₃⟩ := i.filling j m h
      have hj : j ≠ k := fun hj => hnone _ (by rw [h₂, hj])
      exact ⟨h₁, h₂, (hbuf hj).trans h₃⟩
    buffer := fun j hj => by
      by_cases hjk : j = k
      · simp [Sys.setWorker, Sys.setBuffer, hjk] at hj
      · exact (i.buffer j fun h => hj ((hbuf hjk).trans h)).imp_left (hwork hjk).trans
    null := fun j hj => by
      by_cases hjk : j = k
      · simp [Sys.setWorker, Sys.setBuffer, hjk, Worker.Looking]
      · simpa only [Sys.setWorker, Sys.setBuffer, hwork hjk] using i.null j ((hbuf hjk).symm.trans hj)
    owner := fun c k h => (i.owner c k h).imp (fun ho => ⟨ho.taken, ho.clientFd⟩) id
    executed := i.executed
    once := i.once
    pending := i.pending
    number := i.number }

theorem head (i : Inv s place) {m : Message α} {rest : List (Message α)} (hp : s.serverPipe = m :: rest) :
    s.waiting m.client = some m ∧ s.clientPipe m.client = [] ∧ place m.client = .pipe ∧
      (∀ m' ∈ rest, m'.client ≠ m.client) ∧ ∀ m' ∈ s.serverPipe, m'.client ≠ m.client → m' ∈ rest := by
  obtain ⟨hw, hplace⟩ := i.pipe m (by simp [hp])
  have hc := i.client m.client
  rw [hplace] at hc
  have hnd := i.nodup
  rw [hp, List.map_cons, List.nodup_cons] at hnd
  refine ⟨hw, ?_, hplace, fun m' hm' he => hnd.1 (he ▸ List.mem_map_of_mem hm'), fun m' hm' hne => ?_⟩
  · cases hc with
    | pipe _ h => exact h
  · rw [hp, List.mem_cons] at hm'
    exact hm'.resolve_left fun h => hne (by rw [h])

theorem set (i : Inv s place) {m : Message α} {rest : List (Message α)} (hp : s.serverPipe = m :: rest)
    (hm : s.main = .receiving) {k : Nat} (hb : s.threadBuffer k = none) (hk : ∀ j ∈ m.request.sessionId, j = k)
    {entries : Nat → AllocationState} {fds : Nat → Nat} (ho : entries k = .taken ∧ fds k = m.client)
    (howned : ∀ j c, Owned s j c → entries j = .taken ∧ fds j = c) :
    Inv { setThreadBuffer s k m rest with freesessionEntries := entries, clientFd := fds }
      (Function.update place m.client (.session k)) := by
  obtain ⟨hwait, hpipe, hplace, hrest, hmem⟩ := i.head hp
  have hnone : ∀ c, place c ≠ .session k := fun c hc => by
    obtain ⟨m, -, -, hh, -⟩ := i.session_cases hc
    cases hh with
    | filling _ h => cases hb.symm.trans h
    | filled h => cases hb.symm.trans h
    | executing h => cases hb.symm.trans h
  have hbuf : ∀ {j}, j ≠ k → Function.update s.threadBuffer k (some none) j = s.threadBuffer j :=
    fun hj => Function.update_of_ne hj ..
  have hother : ∀ {c}, c ≠ m.client → Function.update place m.client (.session k) c = place c :=
    fun hc => Function.update_of_ne hc ..
  exact {
    client := fun c => by
      by_cases hc : c = m.client
      · subst hc
        rw [Function.update_self]
        exact .session hwait hpipe (.filling rfl (Function.update_self ..) (i.null k hb).fresh) hk ⟨ho.1, ho.2⟩
      · rw [hother hc]
        refine (i.client c).mono rfl rfl (fun m' h hw' _ => hmem m' h ?_) (fun j m' hp hh => ?_)
          fun j h => ⟨(howned j c h).1, (howned j c h).2⟩
        · rw [(i.sender c m' hw').client]
          exact hc
        · have hj : j ≠ k := fun h => hnone c (by rw [hp, h])
          exact hh.mono (hbuf hj) (fun h => by cases hm.symm.trans h) id id
    sender := fun c m h => (i.sender c m h).mono id rfl
    pipe := fun m' h => by
      rw [hother (hrest m' h)]
      exact i.pipe m' (hp ▸ List.mem_cons_of_mem m h)
    nodup := by
      have hnd := i.nodup
      rw [hp] at hnd
      exact hnd.of_cons
    filling := fun j m' h => by
      cases h
      exact ⟨hwait, Function.update_self .., Function.update_self ..⟩
    buffer := fun j hj => by
      by_cases hjk : j = k
      · exact .inr ⟨m.client, by rw [hjk, Function.update_self]⟩
      · refine (i.buffer j fun h => hj ((hbuf hjk).trans h)).imp_right (Exists.imp fun c hc => ?_)
        rwa [hother fun h => by cases hplace.symm.trans (h ▸ hc)]
    null := fun j hj => by
      by_cases hjk : j = k
      · simp [setThreadBuffer, Sys.setBuffer, hjk] at hj
      · exact i.null j ((hbuf hjk).symm.trans hj)
    owner := fun c j h => by
      refine (i.owner c j h).imp (fun h => ⟨(howned j c h).1, (howned j c h).2⟩) (And.imp_left fun hc => ?_)
      rwa [hother fun h => by cases hplace.symm.trans (h ▸ hc)]
    executed := i.executed
    once := i.once
    pending := fun c m' h hc => by
      refine i.pending c m' h fun hans => hc ?_
      rwa [hother fun h => by cases hplace.symm.trans (h ▸ hans)]
    number := i.number }

theorem refuse (i : Inv s place) {m : Message α} {rest : List (Message α)} (hp : s.serverPipe = m :: rest)
    {pipe : Nat} (hr : m.request = .mount pipe) :
    Inv ({ s with serverPipe := rest }.reply pipe .noSession) (Function.update place m.client .answered) := by
  obtain ⟨hwait, hpipe, hplace, hrest, hmem⟩ := i.head hp
  obtain rfl := (i.sender _ _ hwait).pipe _ hr
  have hother : ∀ {c}, c ≠ m.client → Function.update place m.client .answered c = place c :=
    fun hc => Function.update_of_ne hc ..
  have hsession : ∀ {c k}, place c = .session k → c ≠ m.client := fun hc h => by cases hplace.symm.trans (h ▸ hc)
  exact {
    client := fun c => by
      by_cases hc : c = m.client
      · subst hc
        rw [Function.update_self]
        refine .answered (r := .noSession) hwait ?_ fun _ h => by cases h
        simp [Sys.reply, hpipe]
      · rw [hother hc]
        refine (i.client c).mono rfl (Function.update_of_ne hc ..) (fun m' h hw' _ => hmem m' h ?_)
          (fun j m' _ hh => hh.mono rfl id id id) fun j h => ⟨h.taken, h.clientFd⟩
        rw [(i.sender c m' hw').client]
        exact hc
    sender := fun c m h => (i.sender c m h).mono id rfl
    pipe := fun m' h => by
      rw [hother (hrest m' h)]
      exact i.pipe m' (hp ▸ List.mem_cons_of_mem m h)
    nodup := by
      have hnd := i.nodup
      rw [hp] at hnd
      exact hnd.of_cons
    filling := fun k m' h => by
      have hf := i.filling k m' h
      rwa [hother (hsession hf.2.1)]
    buffer := fun k hk => (i.buffer k hk).imp_right (Exists.imp fun c hc => by rwa [hother (hsession hc)])
    null := i.null
    owner := fun c k h => by
      refine (i.owner c k h).imp (fun h => ⟨h.taken, h.clientFd⟩) (And.imp_left fun hc => ?_)
      rwa [hother fun h => by cases hplace.symm.trans (h ▸ hc)]
    executed := i.executed
    once := i.once
    pending := fun c m' h hc => by
      refine i.pending c m' h fun hans => hc ?_
      rwa [hother fun h => by cases hplace.symm.trans (h ▸ hans)]
    number := i.number }

theorem answer (i : Inv s place) {m : Message α} {k : Nat} (hwork : s.worker k = .executing (some m))
    (hplace : place m.client = .session k) {r : Reply} {entries : Nat → AllocationState}
    (hr : ∀ j, r = .session j → j = k ∧ entries k = .taken)
    (hothers : ∀ j c, c ≠ m.client → Owned s j c → entries j = .taken)
    (hown : ∀ j, Owned s j m.client → entries j = .taken ∨ j = k ∧ m.request = .unmount k) :
    Inv { ({ s with freesessionEntries := entries }.reply m.client r).setWorker k .replied with
      executed := s.executed ++ [some m] } (Function.update place m.client .answered) := by
  obtain ⟨m', hwait, hpipe, hh, hk, ho⟩ := i.session_cases hplace
  obtain rfl : m' = m := by
    cases hh with
    | filling _ _ h => simp [hwork, Worker.Fresh] at h
    | filled _ h => simp [hwork, Worker.Fresh] at h
    | executing _ h =>
      cases hwork.symm.trans h
      rfl
  have hother : ∀ {c}, c ≠ m'.client → Function.update place m'.client .answered c = place c :=
    fun hc => Function.update_of_ne hc ..
  have hsession : ∀ {c j}, place c = .session j → c ≠ m'.client → j ≠ k := fun hc hne h =>
    hne (i.session_unique (h ▸ hc) hplace)
  exact {
    client := fun c => by
      by_cases hc : c = m'.client
      · subst hc
        rw [Function.update_self]
        refine .answered (r := r) hwait (by simp [Sys.setWorker, Sys.reply, hpipe]) fun j h => ?_
        obtain ⟨rfl, ht⟩ := hr j h
        exact ⟨ht, ho.clientFd⟩
      · rw [hother hc]
        refine (i.client c).mono rfl (Function.update_of_ne hc ..) (fun _ h _ _ => h) (fun j m₁ hp hh => ?_)
          fun j h => ⟨hothers j c hc h, h.clientFd⟩
        have hj := hsession hp hc
        exact hh.mono rfl id (by simp [Sys.setWorker, Sys.reply, hj]) (by simp [Sys.setWorker, Sys.reply, hj])
    sender := fun c m h => (i.sender c m h).mono id rfl
    pipe := fun m₁ h => by
      have hp := i.pipe m₁ h
      rwa [hother fun he => by cases hp.2.symm.trans (he ▸ hplace)]
    nodup := i.nodup
    filling := fun j m₁ h => by
      obtain ⟨h₁, h₂, h₃⟩ := i.filling j m₁ h
      have hne : m₁.client ≠ m'.client := fun he => by
        obtain rfl : m₁ = m' := Option.some.inj (h₁.symm.trans (he ▸ hwait))
        obtain ⟨m₂, -, -, hh, -⟩ := i.session_cases h₂
        obtain rfl : j = k := Place.session.inj (h₂.symm.trans hplace)
        cases hh with
        | filling _ _ h => simp [hwork, Worker.Fresh] at h
        | filled _ h => simp [hwork, Worker.Fresh] at h
        | executing h => cases h₃.symm.trans h
      rw [hother hne]
      exact ⟨h₁, h₂, h₃⟩
    buffer := fun j hj => by
      by_cases hjk : j = k
      · exact .inl (by simp [Sys.setWorker, hjk])
      · refine (i.buffer j hj).imp (by simp [Sys.setWorker, Sys.reply, hjk]) (Exists.imp fun c hc => ?_)
        rwa [hother fun he => by
          rw [he, hplace] at hc
          exact hjk (Place.session.inj hc).symm]
    null := fun j hj => by
      by_cases hjk : j = k
      · subst hjk
        have hn := i.null j hj
        simp [hwork, Worker.Looking] at hn
      · simpa [Sys.setWorker, Sys.reply, hjk] using i.null j hj
    owner := fun c j h => by
      by_cases hc : c = m'.client
      · subst hc
        rw [Function.update_self]
        obtain ho' | ⟨he, -⟩ := i.owner _ j h
        · refine (hown j ho').imp (fun ht => ⟨ht, ho'.clientFd⟩) fun h => ⟨rfl, m', hwait, ?_⟩
          rw [h.1, h.2]
        · cases hplace.symm.trans he
      · rw [hother hc]
        exact (i.owner c j h).imp_left fun ho' => ⟨hothers j c hc ho', ho'.clientFd⟩
    executed := fun b hb => by
      rcases List.mem_append.mp hb with h | h
      · exact i.executed b h
      · exact ⟨m', (i.sender _ _ hwait).sent, List.mem_singleton.mp h⟩
    once := by
      have hnew := i.pending _ _ hwait (by simp [hplace])
      refine List.nodup_append.mpr ⟨i.once, List.nodup_singleton _, fun b hb b' hb' h => hnew ?_⟩
      rwa [← List.mem_singleton.mp hb', ← h]
    pending := fun c m₁ h hc => by
      have hne : c ≠ m'.client := fun he => by simp [he] at hc
      rw [hother hne] at hc
      have hm : m₁ ≠ m' := fun he => hne (by rw [← (i.sender c m₁ h).client, he])
      simpa [hm] using i.pending c m₁ h hc
    number := i.number }

theorem send (i : Inv s place) {c : Nat} {r : Request α} (hwait : s.waiting c = none)
    (hk : ∀ k ∈ r.sessionId, s.sessionId c = some k) (hp : ∀ p, r = .mount p → p = c)
    (hns : ∀ k, r ≠ .shutdown k) : Inv (Sessions.send s c r) (Function.update place c .pipe) := by
  have hother : ∀ {c'}, c' ≠ c → Function.update place c .pipe c' = place c' := fun h => Function.update_of_ne h ..
  have hne : ∀ {c' m}, s.waiting c' = some m → c' ≠ c := fun h he => by cases (he ▸ h).symm.trans hwait
  have hc := i.client c
  have hidle : place c = .idle := by
    cases hpl : place c with
    | idle => rfl
    | _ =>
      rw [hpl] at hc
      cases hc with
      | _ h => cases hwait.symm.trans h
  rw [hidle] at hc
  have hnew : ∀ {c' m}, (Sessions.send s c r).waiting c' = some m →
      c' = c ∧ m = ⟨s.sent.length, c, r⟩ ∨ c' ≠ c ∧ s.waiting c' = some m := by
    intro c' m h
    by_cases he : c' = c
    · exact .inl ⟨he, by simpa [Sessions.send, he] using h.symm⟩
    · exact .inr ⟨he, by simpa [Sessions.send, he] using h⟩
  have hfresh : some ⟨s.sent.length, c, r⟩ ∉ s.executed := fun h => by
    obtain ⟨m, hm, he⟩ := i.executed _ h
    have hlt := i.number m hm
    rw [← Option.some.inj he] at hlt
    exact absurd hlt (Nat.lt_irrefl _)
  exact {
    client := fun c' => by
      by_cases he : c' = c
      · subst he
        rw [Function.update_self]
        cases hc with
        | idle _ h => exact .pipe (Function.update_self ..) h (List.mem_append_right _ (by simp))
      · rw [hother he]
        exact (i.client c').mono (Function.update_of_ne he ..) rfl (fun _ h _ _ => List.mem_append_left _ h)
          (fun k m _ hh => hh.mono rfl id id id) fun k h => ⟨h.taken, h.clientFd⟩
    sender := fun c' m h => by
      rcases hnew h with ⟨rfl, rfl⟩ | ⟨-, h⟩
      · exact ⟨rfl, List.mem_append_right _ (by simp), hk, hp, hns⟩
      · exact (i.sender c' m h).mono (List.mem_append_left _) rfl
    pipe := fun m hm => by
      rcases List.mem_append.mp hm with hm | hm
      · obtain ⟨h₁, h₂⟩ := i.pipe m hm
        exact ⟨(Function.update_of_ne (hne h₁) ..).trans h₁, (hother (hne h₁)).trans h₂⟩
      · rw [List.mem_singleton.mp hm]
        exact ⟨Function.update_self .., Function.update_self ..⟩
    nodup := by
      have hnd := i.nodup
      simp only [Sessions.send, List.map_append, List.nodup_append]
      refine ⟨hnd, by simp, fun c₁ h₁ c₂ h₂ => ?_⟩
      obtain ⟨m, hm, rfl⟩ := List.mem_map.mp h₁
      obtain rfl : c₂ = c := by simpa using h₂
      exact hne (i.pipe m hm).1
    filling := fun k m h => by
      obtain ⟨h₁, h₂, h₃⟩ := i.filling k m h
      exact ⟨(Function.update_of_ne (hne h₁) ..).trans h₁, (hother (hne h₁)).trans h₂, h₃⟩
    buffer := fun k hk => (i.buffer k hk).imp_right <| Exists.imp fun c' h => by
      rwa [hother fun he => by cases hidle.symm.trans (he ▸ h)]
    null := i.null
    owner := fun c' k h => by
      refine (i.owner c' k h).imp (fun h => ⟨h.taken, h.clientFd⟩) fun h => ?_
      obtain ⟨h₁, m, h₂, h₃⟩ := h
      exact ⟨(hother (hne h₂)).trans h₁, m, (Function.update_of_ne (hne h₂) ..).trans h₂, h₃⟩
    executed := fun b hb => (i.executed b hb).imp fun m h => ⟨List.mem_append_left _ h.1, h.2⟩
    once := i.once
    pending := fun c' m h hpl => by
      rcases hnew h with ⟨-, rfl⟩ | ⟨he, h⟩
      · exact hfresh
      · exact i.pending c' m h (by rwa [hother he] at hpl)
    number := fun m hm => by
      rcases List.mem_append.mp hm with hm | hm
      · have := i.number m hm
        simp only [Sessions.send, List.length_append, List.length_singleton]
        omega
      · simp [Sessions.send, List.mem_singleton.mp hm] }

theorem receive (i : Inv s place) {c : Nat} {m : Message α} {r : Reply} {rest : List Reply}
    (hwait : s.waiting c = some m) (hpipe : s.clientPipe c = r :: rest) :
    Inv { s with
      clientPipe := Function.update s.clientPipe c rest
      waiting := Function.update s.waiting c none
      sessionId := Function.update s.sessionId c (sessionAfter (s.sessionId c) m.request r) }
      (Function.update place c .idle) := by
  have hc := i.client c
  have hans : place c = .answered := by
    cases hpl : place c with
    | answered => rfl
    | _ =>
      rw [hpl] at hc
      cases hc with
      | _ _ h => cases hpipe.symm.trans h
  have hother : ∀ {c'}, c' ≠ c → Function.update place c .idle c' = place c' := fun h => Function.update_of_ne h ..
  have hne : ∀ {c' p}, place c' = p → p ≠ .answered → c' ≠ c := fun h hp he => hp (by rw [← h, he, hans])
  rw [hans] at hc
  obtain ⟨rfl, ho⟩ : rest = [] ∧ ∀ k, r = .session k → Owned s k c := by
    cases hc with
    | answered _ h₂ h₃ =>
      cases hpipe.symm.trans h₂
      exact ⟨rfl, h₃⟩
  exact {
    client := fun c' => by
      by_cases he : c' = c
      · subst he
        rw [Function.update_self]
        exact .idle (Function.update_self ..) (Function.update_self ..)
      · rw [hother he]
        exact (i.client c').mono (Function.update_of_ne he ..) (Function.update_of_ne he ..) (fun _ h _ _ => h)
          (fun k m _ hh => hh.mono rfl id id id) fun k h => ⟨h.taken, h.clientFd⟩
    sender := fun c' m' h => by
      by_cases he : c' = c
      · simp [he] at h
      · exact (i.sender c' m' (by simpa [he] using h)).mono id (Function.update_of_ne he ..)
    pipe := fun m' h => by
      obtain ⟨h₁, h₂⟩ := i.pipe m' h
      have he := hne h₂ (by simp)
      exact ⟨(Function.update_of_ne he ..).trans h₁, (hother he).trans h₂⟩
    nodup := i.nodup
    filling := fun k m' h => by
      obtain ⟨h₁, h₂, h₃⟩ := i.filling k m' h
      have he := hne h₂ (by simp)
      exact ⟨(Function.update_of_ne he ..).trans h₁, (hother he).trans h₂, h₃⟩
    buffer := fun k hk =>
      (i.buffer k hk).imp_right (Exists.imp fun c' h => (hother (hne h (by simp))).trans h)
    null := i.null
    owner := fun c' k h => by
      by_cases he : c' = c
      · subst he
        left
        rcases sessionAfter_eq_some (by simpa using h) with hr | ⟨hold, hnu⟩
        · exact ⟨(ho k hr).taken, (ho k hr).clientFd⟩
        · rcases i.owner c' k hold with h' | ⟨-, m', hm', hu⟩
          · exact ⟨h'.taken, h'.clientFd⟩
          · cases hwait.symm.trans hm'
            exact absurd hu (hnu k)
      · refine (i.owner c' k (by simpa [he] using h)).imp (fun h => ⟨h.taken, h.clientFd⟩) fun h => ?_
        obtain ⟨h₁, m', h₂, h₃⟩ := h
        exact ⟨(hother he).trans h₁, m', (Function.update_of_ne he ..).trans h₂, h₃⟩
    executed := i.executed
    once := i.once
    pending := fun c' m' h hpl => by
      by_cases he : c' = c
      · simp [he] at h
      · rw [hother he] at hpl
        exact i.pending c' m' (by simpa [he] using h) hpl
    number := i.number }

theorem executing_cases (i : Inv s place) {k : Nat} {content : Option (Message α)}
    (hw : s.worker k = .executing content) :
    ∃ m, content = some m ∧ place m.client = .session k ∧ Sender s m.client m ∧
      (∀ j ∈ m.request.sessionId, j = k) ∧ Owned s k m.client := by
  have hb : s.threadBuffer k ≠ none := fun hb => by
    have hn := i.null k hb
    simp [hw, Worker.Looking] at hn
  obtain ⟨c, hc⟩ := (i.buffer k hb).resolve_left (by simp [hw])
  obtain ⟨m, hwait, -, hh, hk, ho⟩ := i.session_cases hc
  have hs := i.sender c m hwait
  obtain rfl := hs.client
  cases hh with
  | filling _ _ h => simp [hw, Worker.Fresh] at h
  | filled _ h => simp [hw, Worker.Fresh] at h
  | executing _ h =>
    cases hw.symm.trans h
    exact ⟨m, rfl, hc, hs, hk, ho⟩

theorem execute (i : Inv s place) {k : Nat} {m : Message α} {s₁ : Sys α} (hw : s.worker k = .executing (some m))
    (he : Sessions.execute s k m = some s₁) :
    Inv { s₁.setWorker k .replied with executed := s.executed ++ [some m] }
      (Function.update place m.client .answered) := by
  obtain ⟨m', hm, hplace, hs, hk, ho⟩ := i.executing_cases hw
  obtain rfl := Option.some.inj hm
  unfold Sessions.execute at he
  split at he
  · cases he
    rw [ho.clientFd]
    exact i.answer hw hplace (fun j h => ⟨(Reply.session.inj h).symm, ho.taken⟩) (fun _ _ _ h => h.taken)
      fun _ h => .inl h.taken
  · next j hr =>
    obtain rfl := hk j (by rw [hr]; rfl)
    split at he
    · cases he
    · cases he
      rw [ho.clientFd]
      refine i.answer hw hplace (by simp) (fun l c hc h => ?_) fun l h => ?_
      · have hl : l ≠ j := fun hl => hc ((hl ▸ h).unique ho)
        exact (Function.update_of_ne hl ..).trans h.taken
      · by_cases hl : l = j
        · exact .inr ⟨hl, hr⟩
        · exact .inl ((Function.update_of_ne hl ..).trans h.taken)
  · next j _ hr =>
    obtain rfl := hk j (by rw [hr]; rfl)
    cases he
    rw [ho.clientFd]
    exact i.answer hw hplace (by simp) (fun _ _ _ h => h.taken) fun _ h => .inl h.taken
  · next j hr => exact absurd hr (hs.noShutdown j)

theorem target_null (i : Inv s place) (hg : Orderly s .main) (hm : s.main = .receiving) {m : Message α}
    {rest : List (Message α)} (hp : s.serverPipe = m :: rest) {k : Nat} (hk : target s m.request = some k) :
    s.threadBuffer k = none := by
  by_contra hb
  simp only [Orderly, hm, hp, Option.mem_def] at hg
  obtain ⟨c, hc⟩ := (i.buffer k hb).resolve_left (hg k hk)
  obtain ⟨-, -, -, -, -, ho⟩ := i.session_cases hc
  obtain ⟨hwait, -, hplace, -⟩ := i.head hp
  have named : m.request.sessionId = some k → False := fun hid => by
    rcases i.owner _ _ ((i.sender _ _ hwait).session k hid) with h | ⟨h, -⟩
    · rw [ho.unique h, hplace] at hc
      cases hc
    · cases hplace.symm.trans h
  cases hr : m.request with
  | mount pipe =>
    simp only [hr, target] at hk
    cases (firstFree_eq_some.mp hk).2.1.symm.trans ho.taken
  | _ => exact named (by simpa only [hr, target, Request.sessionId] using hk)

theorem step (i : Inv s place) {e : Event α} (hg : Polite s e ∧ Orderly s e) (h : Moves s e s') :
    ∃ place', Inv s' place' := by
  cases h with
  | send c r =>
    cases r with
    | mount pipe =>
      obtain ⟨⟨hw, rfl⟩, -⟩ := hg
      exact ⟨_, i.send hw (by simp [Request.sessionId]) (fun p h => by cases h; rfl) (by simp)⟩
    | unmount k =>
      obtain ⟨⟨hw, hk⟩, -⟩ := hg
      exact ⟨_, i.send hw (by simpa [Request.sessionId] using hk) (by simp) (by simp)⟩
    | call k fields =>
      obtain ⟨⟨hw, hk⟩, -⟩ := hg
      exact ⟨_, i.send hw (by simpa [Request.sessionId] using hk) (by simp) (by simp)⟩
    | shutdown k => exact hg.1.elim
  | receive hw hp => exact ⟨_, i.receive hw hp⟩
  | refuse _ hp hr => exact ⟨_, i.refuse hp hr⟩
  | @mount m rest pipe k hm hp hr hf =>
    obtain ⟨hk, hfree, -⟩ := firstFree_eq_some.mp hf
    obtain ⟨hwait, -, -⟩ := i.head hp
    obtain rfl := (i.sender _ _ hwait).pipe _ hr
    have hnot : ∀ c, ¬ Owned s k c := fun c h => by cases hfree.symm.trans h.taken
    have hb : s.threadBuffer k = none := i.target_null hg.2 hm hp (by rw [hr]; exact hf)
    refine ⟨_, i.set hp hm hb (by simp [hr, Request.sessionId]) ⟨Function.update_self .., Function.update_self ..⟩
      fun j c h => ?_⟩
    have hj : j ≠ k := fun hj => hnot c (hj ▸ h)
    exact ⟨(Function.update_of_ne hj ..).trans h.taken, (Function.update_of_ne hj ..).trans h.clientFd⟩
  | @deposit m rest k hm hp hr hk =>
    obtain ⟨hwait, -, hplace, -⟩ := i.head hp
    have howned : Owned s k m.client := by
      rcases i.owner _ _ ((i.sender _ _ hwait).session k hr) with h | ⟨h, -⟩
      · exact h
      · cases hplace.symm.trans h
    have hb : s.threadBuffer k = none := i.target_null hg.2 hm hp (target_of_sessionId s hr)
    refine ⟨_, i.set hp hm hb (fun j hj => ?_) ⟨howned.taken, howned.clientFd⟩ fun j c h => ⟨h.taken, h.clientFd⟩⟩
    exact Option.some.inj (Eq.trans (Eq.symm hj) hr)
  | fill hm => exact ⟨_, i.fill hm⟩
  | @wakeWorker k m hm hw =>
    refine ⟨_, i.workers (by simp [hm]) fun j => ?_⟩
    by_cases hj : j = k
    · subst hj
      exact .inr (by simp [hw, Worker.Fresh, Worker.Looking, Sys.setWorker])
    · exact .inl (Function.update_of_ne hj ..)
  | signalNobody hm => exact ⟨_, i.workers (by simp [hm]) fun j => .inl rfl⟩
  | lock hw => exact ⟨_, i.setWorker (by rcases hw with h | h <;> rw [h] <;> trivial) trivial fun _ => trivial⟩
  | seeNull hw => exact ⟨_, i.setWorker (by rw [hw]; trivial) trivial fun _ => trivial⟩
  | seeBuffer hw hb => exact ⟨_, i.setWorker (by rw [hw]; trivial) trivial fun h => absurd h hb⟩
  | sleep hw => exact ⟨_, i.setWorker (by rw [hw]; trivial) trivial fun _ => trivial⟩
  | @read k content hw hb =>
    refine ⟨_, i.read hw hb ?_⟩
    rintro rfl
    exact hg.2 hw hb
  | garbage hw =>
    obtain ⟨m, hm, -⟩ := i.executing_cases hw
    cases hm
  | execute hw he => exact ⟨_, i.execute hw he⟩
  | clear hw => exact ⟨_, i.clear hw⟩
  | wake hw => exact ⟨_, i.setWorker (by rw [hw]; trivial) trivial fun _ => trivial⟩

end Inv

/-- Where the request of a waiting client can be: in the server pipe, with the session it names or, for a mount,
with the session chosen for it, or answered. -/
def Pending (s : Sys α) (c : Nat) (m : Message α) : Prop :=
  m ∈ s.serverPipe ∨ (∃ k, (∀ j ∈ m.request.sessionId, j = k) ∧ Owned s k c ∧ Holds s k m) ∨ s.clientPipe c ≠ []

theorem Inv.pending_of_waiting (i : Inv s place) {c : Nat} {m : Message α} (h : s.waiting c = some m) :
    Pending s c m := by
  have hc := i.client c
  generalize place c = p at hc
  cases hc with
  | idle hw => cases h.symm.trans hw
  | pipe hw _ hm =>
    cases h.symm.trans hw
    exact .inl hm
  | session hw _ hh hk ho =>
    cases h.symm.trans hw
    exact .inr (.inl ⟨_, hk, ho, hh⟩)
  | answered _ hp => exact .inr (.inr (by simp [hp]))

/-- If the main thread sets no buffer that is still to be freed and no worker reads an unfilled one, then every
request is executed at most once and as it was sent, and none is lost. -/
theorem requests_kept {es : List (Event α)} {outs : List Unit} {s : Sys α}
    (ha : Runs.Along step (fun s e => Polite s e ∧ Orderly s e) .init es)
    (hr : Runs.run step .init es = some (outs, s)) :
    (∀ b ∈ s.executed, ∃ m ∈ s.sent, b = some m) ∧ s.executed.Nodup ∧
      ∀ c m, s.waiting c = some m → Pending s c m := by
  obtain ⟨-, place, i⟩ := Runs.run_invariant (I := fun s => ∃ place, Inv s place) (P := fun _ => True)
    (fun _ _ _ _ ⟨_, i⟩ hg h => ⟨trivial, i.step hg (moves_of_step h)⟩) ⟨_, .init⟩ ha hr
  exact ⟨i.executed, i.once, fun _ _ => i.pending_of_waiting⟩

instance (s : Sys α) : ∀ e, Decidable (Polite s e)
  | .send _ (.mount _) | .send _ (.unmount _) | .send _ (.call _ _) => inferInstanceAs (Decidable (_ ∧ _))
  | .send _ (.shutdown _) => inferInstanceAs (Decidable False)
  | .receive _ | .main | .worker _ | .wake _ => inferInstanceAs (Decidable True)

instance [DecidableEq α] (s : Sys α) : ∀ e, Decidable (Orderly s e)
  | .main =>
    match hm : s.main, hp : s.serverPipe with
    | .receiving, m :: _ =>
      decidable_of_iff (∀ k ∈ target s m.request, s.worker k ≠ .replied) (by rw [Orderly, hm, hp])
    | .receiving, [] => isTrue (by rw [Orderly, hm, hp]; trivial)
    | .filling _ _, _ => isTrue (by rw [Orderly, hm]; trivial)
    | .signalling _ _, _ => isTrue (by rw [Orderly, hm]; trivial)
  | .worker k => inferInstanceAs (Decidable (s.worker k = .reading → s.threadBuffer k ≠ some none))
  | .send _ _ | .receive _ | .wake _ => inferInstanceAs (Decidable True)

def mountSession : List (Event Unit) :=
  [.send 0 (.mount 0), .main, .main, .main, .worker 0, .worker 0, .worker 0, .worker 0, .receive 0]

/-- The second request of a client arrives after its worker has cleared the buffer of the first. -/
theorem requests_kept_mount : ∃ outs s,
    Runs.run step .init (mountSession ++ [.worker 0, .send 0 (.call 0 ()), .main, .main, .main]) = some (outs, s) ∧
      Pending s 0 ⟨1, 0, .call 0 ()⟩ := by
  let es := mountSession ++ [.worker 0, .send 0 (.call 0 ()), .main, .main, .main]
  have hend : (Runs.run step .init es).map (fun x => x.2.waiting 0) = some (some ⟨1, 0, .call 0 ()⟩) := by decide
  obtain ⟨x, hx, hw⟩ := Option.map_eq_some_iff.mp hend
  exact ⟨x.1, x.2, hx, (requests_kept (by decide) hx).2.2 0 _ hw⟩

/-- A request set into the buffer between the worker's answer to the one before and its last two steps. -/
theorem request_dropped : ¬ ∀ (es : List (Event Unit)) (outs : List Unit) (s : Sys Unit),
    Runs.Along step Polite .init es → Runs.run step .init es = some (outs, s) →
      (∀ b ∈ s.executed, ∃ m ∈ s.sent, b = some m) ∧ s.executed.Nodup ∧
        ∀ c m, s.waiting c = some m → Pending s c m := by
  intro hall
  let es := mountSession ++ [.send 0 (.call 0 ()), .main, .main, .main, .worker 0]
  have hend : (Runs.run step .init es).map (fun x =>
      (x.2.waiting 0, x.2.serverPipe, x.2.threadBuffer 0, (x.2.clientPipe 0).length)) =
        some (some ⟨1, 0, .call 0 ()⟩, [], none, 0) := by decide
  obtain ⟨x, hx, he⟩ := Option.map_eq_some_iff.mp hend
  have hw : x.2.waiting 0 = some ⟨1, 0, .call 0 ()⟩ := congrArg Prod.fst he
  have hp : x.2.serverPipe = [] := congrArg (fun y => y.2.1) he
  have hb : x.2.threadBuffer 0 = none := congrArg (fun y => y.2.2.1) he
  have hc : x.2.clientPipe 0 = [] := List.length_eq_zero_iff.mp (congrArg (fun y => y.2.2.2) he)
  rcases (hall es x.1 x.2 (by decide) hx).2.2 0 _ hw with h | ⟨k, hk, -, hh⟩ | h
  · simp [hp] at h
  · obtain rfl := hk 0 rfl
    cases hh with
    | filling _ h => cases hb.symm.trans h
    | filled h => cases hb.symm.trans h
    | executing h => cases hb.symm.trans h
  · exact h hc

end Tecnicofs.Ex2.Sessions
