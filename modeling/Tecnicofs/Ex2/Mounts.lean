import Mathlib.Data.Set.Function
import Tecnicofs.Ex2.Requests

namespace Tecnicofs.Ex2.Sessions

/-- A client uses the session that its own mount returned, and sends one request at a time. -/
def Courteous (s : Sys α) : Event α → Prop
  | .send c (.mount pipe) => s.waiting c = none ∧ s.sessionId c = none ∧ pipe = c
  | .send c (.unmount k) | .send c (.call k _) | .send c (.shutdown k) => s.waiting c = none ∧ s.sessionId c = some k
  | .receive _ | .main | .worker _ | .wake _ => True

/-- Nothing happens while the main thread fills a buffer. -/
def Undivided (s : Sys α) : Event α → Prop
  | .main => True
  | .send _ _ | .receive _ | .worker _ | .wake _ => ∀ k m, s.main ≠ .filling k m

def handled (s : Sys α) : Event α → Option (Message α)
  | .main =>
    match s.main with
    | .receiving => s.serverPipe.head?
    | .filling _ _ | .signalling _ _ => none
  | .worker k =>
    match s.worker k with
    | .executing content => content
    | _ => none
  | .send _ _ | .receive _ | .wake _ => none

/-- The clients that have a session: those whose mount found one, until their unmount is executed. -/
def activeAfter (s : Sys α) (active : List Nat) (e : Event α) : List Nat :=
  match e, handled s e with
  | .main, some ⟨_, c, .mount _⟩ => if (firstFree s.freesessionEntries maxClients).isSome then c :: active else active
  | .worker _, some ⟨_, c, .unmount _⟩ => active.erase c
  | _, _ => active

def countedStep (x : Sys α × List Nat) (e : Event α) : Option (Unit × Sys α × List Nat) :=
  (step x.1 e).map fun y => ((), y.2, activeAfter x.1 x.2 e)

structure Seat (s : Sys α) (active : List Nat) (k c : Nat) : Prop where
  lt : k < maxClients
  taken : s.freesessionEntries k = .taken
  clientFd : s.clientFd k = c
  active : c ∈ active

def Knows (s : Sys α) (active : List Nat) (c : Nat) : Option Nat → Prop
  | some k => Seat s active k c
  | none => c ∉ active

inductive Stands (s : Sys α) (active : List Nat) (c : Nat) : Place → Prop
  | idle (hw : s.waiting c = none) (hp : s.clientPipe c = []) (hs : Knows s active c (s.sessionId c)) :
      Stands s active c .idle
  | pipe {m : Message α} (hw : s.waiting c = some m) (hp : s.clientPipe c = []) (hm : m ∈ s.serverPipe)
      (hs : Knows s active c (s.sessionId c)) (hr : m.request.sessionId = s.sessionId c) : Stands s active c .pipe
  | session {m : Message α} {k : Nat} (hw : s.waiting c = some m) (hp : s.clientPipe c = [])
      (hs : Seat s active k c) (hr : m.request.sessionId = s.sessionId c) (hk : ∀ j ∈ m.request.sessionId, j = k) :
      Stands s active c (.session k)
  | answered {m : Message α} {r : Reply} (hw : s.waiting c = some m) (hp : s.clientPipe c = [r])
      (hs : Knows s active c (sessionAfter (s.sessionId c) m.request r)) : Stands s active c .answered

def Held (s : Sys α) (k : Nat) (m : Message α) : Prop :=
  s.worker k = .executing (some m) ∨ s.threadBuffer k = some (some m) ∧ (s.worker k).Fresh

structure Seated (s : Sys α) (active : List Nat) (place : Nat → Place) : Prop where
  client : ∀ c, Stands s active c (place c)
  sender : ∀ c m, s.waiting c = some m → m.client = c ∧ ∀ p, m.request = .mount p → p = c
  pipe : ∀ m ∈ s.serverPipe, s.waiting m.client = some m ∧ place m.client = .pipe
  pipeNodup : (s.serverPipe.map Message.client).Nodup
  filling : ∀ k m, s.main = .filling k m → s.waiting m.client = some m ∧ place m.client = .session k
  held : ∀ k m, Held s k m → s.waiting m.client = some m ∧ place m.client = .session k
  seats : ∀ k < maxClients, s.freesessionEntries k = .taken → s.clientFd k ∈ active
  unique : ∀ k k' c, Seat s active k c → Seat s active k' c → k = k'
  nodup : active.Nodup

variable {s s' : Sys α} {active active' : List Nat} {place : Nat → Place}

theorem Seat.congr {k c : Nat} (h : Seat s active k c) (hf : s'.freesessionEntries = s.freesessionEntries)
    (hc : s'.clientFd = s.clientFd) : Seat s' active k c :=
  ⟨h.lt, (congrFun hf k).trans h.taken, (congrFun hc k).trans h.clientFd, h.active⟩

theorem Knows.mono {c : Nat} {o : Option Nat} (h : Knows s active c o)
    (hs : ∀ k, Seat s active k c → Seat s' active' k c) (ha : c ∉ active → c ∉ active') : Knows s' active' c o := by
  cases o with
  | none => exact ha h
  | some k => exact hs k h

theorem Stands.mono {c : Nat} {p : Place} (h : Stands s active c p) (hw : s'.waiting c = s.waiting c)
    (hp : s'.clientPipe c = s.clientPipe c) (hid : s'.sessionId c = s.sessionId c)
    (hm : ∀ m ∈ s.serverPipe, s.waiting c = some m → p = .pipe → m ∈ s'.serverPipe)
    (hs : ∀ k, Seat s active k c → Seat s' active' k c) (ha : c ∉ active → c ∉ active') : Stands s' active' c p := by
  cases h with
  | idle h₁ h₂ h₃ => exact .idle (hw.trans h₁) (hp.trans h₂) (hid ▸ h₃.mono hs ha)
  | pipe h₁ h₂ h₃ h₄ h₅ =>
    exact .pipe (hw.trans h₁) (hp.trans h₂) (hm _ h₃ h₁ rfl) (hid ▸ h₄.mono hs ha) (h₅.trans hid.symm)
  | session h₁ h₂ h₃ h₄ h₅ => exact .session (hw.trans h₁) (hp.trans h₂) (hs _ h₃) (h₄.trans hid.symm) h₅
  | answered h₁ h₂ h₃ => exact .answered (hw.trans h₁) (hp.trans h₂) (hid ▸ h₃.mono hs ha)

namespace Seated

theorem init : Seated (Sys.init : Sys α) [] fun _ => .idle where
  client _ := .idle rfl rfl (by simp [Knows, Sys.init])
  sender _ _ h := by cases h
  pipe _ h := by cases h
  pipeNodup := .nil
  filling _ _ h := by cases h
  held _ _ h := by rcases h with h | ⟨h, -⟩ <;> cases h
  seats _ _ h := by cases h
  unique _ _ _ h := by cases h.taken
  nodup := .nil

theorem session_cases (i : Seated s active place) {c k : Nat} (h : place c = .session k) :
    ∃ m, s.waiting c = some m ∧ s.clientPipe c = [] ∧ Seat s active k c ∧ m.request.sessionId = s.sessionId c ∧
      ∀ j ∈ m.request.sessionId, j = k := by
  have hc := i.client c
  rw [h] at hc
  cases hc with
  | session h₁ h₂ h₃ h₄ h₅ => exact ⟨_, h₁, h₂, h₃, h₄, h₅⟩

theorem executing (i : Seated s active place) {k : Nat} {m : Message α} (hw : s.worker k = .executing (some m)) :
    place m.client = .session k ∧ s.waiting m.client = some m ∧ s.clientPipe m.client = [] ∧
      Seat s active k m.client ∧ m.request.sessionId = s.sessionId m.client ∧ ∀ j ∈ m.request.sessionId, j = k := by
  obtain ⟨hwait, hplace⟩ := i.held k m (.inl hw)
  obtain ⟨m', hw', hp, hs, hr, hk⟩ := i.session_cases hplace
  cases hwait.symm.trans hw'
  exact ⟨hplace, hwait, hp, hs, hr, hk⟩

theorem head (i : Seated s active place) {m : Message α} {rest : List (Message α)} (hp : s.serverPipe = m :: rest) :
    s.waiting m.client = some m ∧ s.clientPipe m.client = [] ∧ place m.client = .pipe ∧
      Knows s active m.client m.request.sessionId ∧ m.request.sessionId = s.sessionId m.client ∧
      (∀ m' ∈ rest, m'.client ≠ m.client) ∧ ∀ m' ∈ s.serverPipe, m'.client ≠ m.client → m' ∈ rest := by
  obtain ⟨hw, hplace⟩ := i.pipe m (by simp [hp])
  have hc := i.client m.client
  rw [hplace] at hc
  have hnd := i.pipeNodup
  rw [hp, List.map_cons, List.nodup_cons] at hnd
  cases hc with
  | pipe h₁ h₂ _ h₄ h₅ =>
    cases hw.symm.trans h₁
    refine ⟨hw, h₂, hplace, h₅ ▸ h₄, h₅, fun m' hm' he => hnd.1 (he ▸ List.mem_map_of_mem hm'), fun m' hm' hne => ?_⟩
    rw [hp, List.mem_cons] at hm'
    exact hm'.resolve_left fun h => hne (by rw [h])

theorem threads (i : Seated s active place) {main : Main α} {worker : Nat → Worker α}
    {buffer : Nat → Option (Option (Message α))} {executed : List (Option (Message α))}
    (hf : ∀ k m, main = .filling k m → s.main = .filling k m)
    (hh : ∀ k m, worker k = .executing (some m) ∨ buffer k = some (some m) ∧ (worker k).Fresh →
      Held s k m ∨ s.main = .filling k m) :
    Seated { s with main := main, worker := worker, threadBuffer := buffer, executed := executed } active place where
  client c := (i.client c).mono rfl rfl rfl (fun _ h _ _ => h) (fun _ h => h.congr rfl rfl) id
  sender := i.sender
  pipe := i.pipe
  pipeNodup := i.pipeNodup
  filling k m h := i.filling k m (hf k m h)
  held k m h := (hh k m h).elim (i.held k m) (i.filling k m)
  seats := i.seats
  unique k k' c h h' := i.unique k k' c (h.congr rfl rfl) (h'.congr rfl rfl)
  nodup := i.nodup

theorem setWorker (i : Seated s active place) {k : Nat} {w : Worker α}
    (hw : ∀ m, w = .executing (some m) ∨ s.threadBuffer k = some (some m) ∧ w.Fresh → Held s k m) :
    Seated (s.setWorker k w) active place := by
  refine i.threads (fun _ _ h => h) fun j m h => .inl ?_
  by_cases hj : j = k
  · subst hj
    exact hw m (by simpa using h)
  · simpa [Held, hj] using h

theorem send (i : Seated s active place) {c : Nat} {r : Request α} (hw : s.waiting c = none)
    (hid : r.sessionId = s.sessionId c) (hr : ∀ p, r = .mount p → p = c) :
    Seated (send s c r) active (Function.update place c .pipe) := by
  have hidle : place c = .idle := by
    have hc := i.client c
    cases hp : place c with
    | idle => rfl
    | _ =>
      rw [hp] at hc
      cases hc with
      | _ h => cases hw.symm.trans h
  have hne : ∀ {m : Message α}, s.waiting m.client = some m → m.client ≠ c := fun h he => by
    rw [he, hw] at h
    cases h
  have hother : ∀ {c'}, c' ≠ c → Function.update place c .pipe c' = place c' := fun h => Function.update_of_ne h ..
  exact {
    client := fun c' => by
      by_cases he : c' = c
      · subst he
        have hc := i.client c'
        rw [hidle] at hc
        rw [Function.update_self]
        cases hc with
        | idle _ h₂ h₃ =>
          exact .pipe (Function.update_self ..) h₂ (List.mem_append_right _ (List.mem_singleton.mpr rfl))
            (h₃.mono (fun _ h => h.congr rfl rfl) id) hid
      · rw [hother he]
        exact (i.client c').mono (Function.update_of_ne he ..) rfl rfl (fun m h _ _ => List.mem_append_left _ h)
          (fun _ h => h.congr rfl rfl) id
    sender := fun c' m h => by
      by_cases he : c' = c
      · subst he
        simp only [Sessions.send, Function.update_self, Option.some.injEq] at h
        rw [← h]
        exact ⟨rfl, hr⟩
      · exact i.sender c' m (by simpa [Sessions.send, he] using h)
    pipe := fun m h => by
      rcases List.mem_append.mp h with h | h
      · obtain ⟨h₁, h₂⟩ := i.pipe m h
        have he := hne h₁
        exact ⟨(Function.update_of_ne he ..).trans h₁, (hother he).trans h₂⟩
      · rw [List.mem_singleton.mp h]
        exact ⟨Function.update_self .., Function.update_self ..⟩
    pipeNodup := by
      simp only [Sessions.send, List.map_append, List.nodup_append]
      refine ⟨i.pipeNodup, by simp, fun c₁ h₁ c₂ h₂ => ?_⟩
      obtain ⟨m, hm, rfl⟩ := List.mem_map.mp h₁
      obtain rfl : c₂ = c := by simpa using h₂
      exact hne (i.pipe m hm).1
    filling := fun k m h => by
      obtain ⟨h₁, h₂⟩ := i.filling k m h
      exact ⟨(Function.update_of_ne (hne h₁) ..).trans h₁, (hother (hne h₁)).trans h₂⟩
    held := fun k m h => by
      obtain ⟨h₁, h₂⟩ := i.held k m h
      exact ⟨(Function.update_of_ne (hne h₁) ..).trans h₁, (hother (hne h₁)).trans h₂⟩
    seats := i.seats
    unique := fun k k' c h h' =>
      i.unique k k' c (h.congr rfl rfl) (h'.congr rfl rfl)
    nodup := i.nodup }

theorem receive (i : Seated s active place) {c : Nat} {m : Message α} {r : Reply} {rest : List Reply}
    (hwait : s.waiting c = some m) (hpipe : s.clientPipe c = r :: rest) :
    Seated { s with
      clientPipe := Function.update s.clientPipe c rest
      waiting := Function.update s.waiting c none
      sessionId := Function.update s.sessionId c (sessionAfter (s.sessionId c) m.request r) }
      active (Function.update place c .idle) := by
  have hc := i.client c
  have hans : place c = .answered := by
    cases hpl : place c with
    | answered => rfl
    | _ =>
      rw [hpl] at hc
      cases hc with
      | _ _ h => cases hpipe.symm.trans h
  have hother : ∀ {c'}, c' ≠ c → Function.update place c .idle c' = place c' := fun h => Function.update_of_ne h ..
  have hne : ∀ {c' p}, place c' = p → p ≠ .answered → c' ≠ c := fun h hp he => hp (by rw [← h, he, hans])
  rw [hans] at hc
  obtain ⟨rfl, hs⟩ : rest = [] ∧ Knows s active c (sessionAfter (s.sessionId c) m.request r) := by
    cases hc with
    | answered h₁ h₂ h₃ =>
      cases hpipe.symm.trans h₂
      cases hwait.symm.trans h₁
      exact ⟨rfl, h₃⟩
  exact {
    client := fun c' => by
      by_cases he : c' = c
      · subst he
        rw [Function.update_self]
        refine .idle (Function.update_self ..) (Function.update_self ..) ?_
        simp only [Function.update_self]
        exact hs.mono (fun _ h => h.congr rfl rfl) id
      · rw [hother he]
        exact (i.client c').mono (Function.update_of_ne he ..) (Function.update_of_ne he ..)
          (Function.update_of_ne he ..) (fun _ h _ _ => h) (fun _ h => h.congr rfl rfl) id
    sender := fun c' m' h => by
      by_cases he : c' = c
      · simp [he] at h
      · exact i.sender c' m' (by simpa [he] using h)
    pipe := fun m' h => by
      obtain ⟨h₁, h₂⟩ := i.pipe m' h
      have he := hne h₂ (by simp)
      exact ⟨(Function.update_of_ne he ..).trans h₁, (hother he).trans h₂⟩
    pipeNodup := i.pipeNodup
    filling := fun k m' h => by
      obtain ⟨h₁, h₂⟩ := i.filling k m' h
      have he := hne h₂ (by simp)
      exact ⟨(Function.update_of_ne he ..).trans h₁, (hother he).trans h₂⟩
    held := fun k m' h => by
      obtain ⟨h₁, h₂⟩ := i.held k m' h
      have he := hne h₂ (by simp)
      exact ⟨(Function.update_of_ne he ..).trans h₁, (hother he).trans h₂⟩
    seats := i.seats
    unique := fun k k' c h h' =>
      i.unique k k' c (h.congr rfl rfl) (h'.congr rfl rfl)
    nodup := i.nodup }

theorem refuse (i : Seated s active place) {m : Message α} {rest : List (Message α)} {pipe : Nat}
    (hp : s.serverPipe = m :: rest) (hr : m.request = .mount pipe) :
    Seated ({ s with serverPipe := rest }.reply pipe .noSession) active
      (Function.update place m.client .answered) := by
  obtain ⟨hwait, hpipe, hplace, hs, -, hrest, hmem⟩ := i.head hp
  obtain rfl := (i.sender _ _ hwait).2 pipe hr
  have hother : ∀ {c}, c ≠ m.client → Function.update place m.client .answered c = place c :=
    fun hc => Function.update_of_ne hc ..
  have hsession : ∀ {c k}, place c = .session k → c ≠ m.client := fun hc he => by
    rw [he, hplace] at hc
    cases hc
  exact {
    client := fun c => by
      by_cases hc : c = m.client
      · subst hc
        rw [Function.update_self]
        refine .answered (r := .noSession) hwait (by simp [Sys.reply, hpipe]) ?_
        rw [hr] at hs ⊢
        exact hs.mono (fun _ h => h.congr rfl rfl) id
      · rw [hother hc]
        refine (i.client c).mono rfl (Function.update_of_ne hc ..) rfl (fun m' h hw' _ => hmem m' h ?_)
          (fun _ h => h.congr rfl rfl) id
        rw [(i.sender c m' hw').1]
        exact hc
    sender := i.sender
    pipe := fun m' h => by
      obtain ⟨h₁, h₂⟩ := i.pipe m' (hp ▸ List.mem_cons_of_mem _ h)
      exact ⟨h₁, (hother (hrest m' h)).trans h₂⟩
    pipeNodup := by
      have hnd := i.pipeNodup
      rw [hp, List.map_cons, List.nodup_cons] at hnd
      exact hnd.2
    filling := fun k m' h => by
      obtain ⟨h₁, h₂⟩ := i.filling k m' h
      exact ⟨h₁, (hother (hsession h₂)).trans h₂⟩
    held := fun k m' h => by
      obtain ⟨h₁, h₂⟩ := i.held k m' h
      exact ⟨h₁, (hother (hsession h₂)).trans h₂⟩
    seats := i.seats
    unique := fun k k' c h h' =>
      i.unique k k' c (h.congr rfl rfl) (h'.congr rfl rfl)
    nodup := i.nodup }

theorem set (i : Seated s active place) {m : Message α} {rest : List (Message α)} (hp : s.serverPipe = m :: rest)
    {k : Nat} (hk : ∀ j ∈ m.request.sessionId, j = k) {entries : Nat → AllocationState} {fds : Nat → Nat}
    (hs : s' = { setThreadBuffer s k m rest with freesessionEntries := entries, clientFd := fds })
    (hseat : Seat s' active' k m.client) (hold : ∀ j c, Seat s active j c → Seat s' active' j c)
    (hact : ∀ c ≠ m.client, c ∉ active → c ∉ active')
    (hseats : ∀ j < maxClients, entries j = .taken → fds j ∈ active')
    (hunique : ∀ j j' c, Seat s' active' j c → Seat s' active' j' c → j = j') (hnodup : active'.Nodup) :
    Seated s' active' (Function.update place m.client (.session k)) := by
  obtain ⟨hwait, hpipe, hplace, -, hid, hrest, hmem⟩ := i.head hp
  have hother : ∀ {c}, c ≠ m.client → Function.update place m.client (.session k) c = place c :=
    fun hc => Function.update_of_ne hc ..
  have hsession : ∀ {c j}, place c = .session j → c ≠ m.client := fun hc he => by
    rw [he, hplace] at hc
    cases hc
  subst hs
  exact {
    client := fun c => by
      by_cases hc : c = m.client
      · subst hc
        rw [Function.update_self]
        exact .session hwait hpipe hseat hid hk
      · rw [hother hc]
        refine (i.client c).mono rfl rfl rfl (fun m' h hw' _ => hmem m' h ?_) (fun j => hold j c) (hact c hc)
        rw [(i.sender c m' hw').1]
        exact hc
    sender := i.sender
    pipe := fun m' h => by
      obtain ⟨h₁, h₂⟩ := i.pipe m' (hp ▸ List.mem_cons_of_mem _ h)
      exact ⟨h₁, (hother (hrest m' h)).trans h₂⟩
    pipeNodup := by
      have hnd := i.pipeNodup
      rw [hp, List.map_cons, List.nodup_cons] at hnd
      exact hnd.2
    filling := fun j m' h => by
      cases h
      exact ⟨hwait, Function.update_self ..⟩
    held := fun j m' h => by
      have hh : Held s j m' := by
        refine h.imp_right fun hb => ?_
        by_cases hj : j = k
        · simp [setThreadBuffer, Sys.setBuffer, hj] at hb
        · simpa [setThreadBuffer, Sys.setBuffer, hj] using hb
      obtain ⟨h₁, h₂⟩ := i.held j m' hh
      exact ⟨h₁, (hother (hsession h₂)).trans h₂⟩
    seats := hseats
    unique := hunique
    nodup := hnodup }

theorem mount (i : Seated s active place) {m : Message α} {rest : List (Message α)} {pipe k : Nat}
    (hp : s.serverPipe = m :: rest) (hr : m.request = .mount pipe)
    (hf : firstFree s.freesessionEntries maxClients = some k) :
    Seated { setThreadBuffer s k m rest with
        freesessionEntries := Function.update s.freesessionEntries k .taken
        clientFd := Function.update s.clientFd k pipe } (m.client :: active)
      (Function.update place m.client (.session k)) := by
  obtain ⟨hk, hfree, -⟩ := firstFree_eq_some.mp hf
  obtain ⟨hwait, -, -, hs, -⟩ := i.head hp
  obtain rfl := (i.sender _ _ hwait).2 pipe hr
  rw [hr] at hs
  have hne : ∀ {j c}, Seat s active j c → j ≠ k := fun h hj => by
    cases hfree.symm.trans (hj ▸ h.taken)
  have hold : ∀ {j}, j ≠ k → Function.update s.freesessionEntries k .taken j = s.freesessionEntries j ∧
      Function.update s.clientFd k m.client j = s.clientFd j := fun hj =>
    ⟨Function.update_of_ne hj .., Function.update_of_ne hj ..⟩
  refine i.set hp (by simp [hr, Request.sessionId]) rfl
    ⟨hk, Function.update_self .., Function.update_self .., by simp⟩ (fun j c h => ?_) (fun c hc ha => by simp [hc, ha])
    (fun j hj ht => ?_) (fun j j' c h h' => ?_) (List.nodup_cons.mpr ⟨hs, i.nodup⟩)
  · obtain ⟨h₁, h₂⟩ := hold (hne h)
    exact ⟨h.lt, h₁.trans h.taken, h₂.trans h.clientFd, List.mem_cons_of_mem _ h.active⟩
  · by_cases hjk : j = k
    · rw [hjk, Function.update_self]
      exact List.mem_cons_self ..
    · rw [(hold hjk).2]
      exact List.mem_cons_of_mem _ (i.seats j hj ((hold hjk).1.symm.trans ht))
  · -- the new session's client had none
    have seat : ∀ {l}, l ≠ k → Seat { setThreadBuffer s k m rest with
        freesessionEntries := Function.update s.freesessionEntries k .taken
        clientFd := Function.update s.clientFd k m.client } (m.client :: active) l c → Seat s active l c := by
      intro l hl h
      have ht := (hold hl).1.symm.trans h.taken
      have hc := (hold hl).2.symm.trans h.clientFd
      exact ⟨h.lt, ht, hc, hc ▸ i.seats l h.lt ht⟩
    have hnew : ∀ {l}, l = k → Function.update s.clientFd k m.client l = c → c = m.client := fun hl h => by
      rw [hl, Function.update_self] at h
      exact h.symm
    by_cases hjk : j = k
    · by_cases hjk' : j' = k
      · rw [hjk, hjk']
      · exact absurd (seat hjk' h').active (hnew hjk h.clientFd ▸ hs)
    · by_cases hjk' : j' = k
      · exact absurd (seat hjk h).active (hnew hjk' h'.clientFd ▸ hs)
      · exact i.unique j j' c (seat hjk h) (seat hjk' h')

theorem deposit (i : Seated s active place) {m : Message α} {rest : List (Message α)} {k : Nat}
    (hp : s.serverPipe = m :: rest) (hr : m.request.sessionId = some k) :
    Seated (setThreadBuffer s k m rest) active (Function.update place m.client (.session k)) := by
  obtain ⟨hwait, -, -, hs, hid, -⟩ := i.head hp
  rw [hr] at hs
  have keep : ∀ {j c}, Seat s active j c → Seat (setThreadBuffer s k m rest) active j c :=
    fun h => h.congr rfl rfl
  refine i.set hp (fun j hj => Option.some.inj (hj.symm.trans hr)) rfl (keep hs) (fun _ _ => keep) (fun _ _ => id)
    i.seats (fun j j' c h h' => ?_) i.nodup
  exact i.unique j j' c (h.congr rfl rfl) (h'.congr rfl rfl)

theorem answer (i : Seated s active place) {m : Message α} {k : Nat} (hw : s.worker k = .executing (some m))
    (hmain : ∀ j m', s.main ≠ .filling j m')
    {r : Reply} {entries : Nat → AllocationState} {executed : List (Option (Message α))}
    (hs : s' = { ({ s with freesessionEntries := entries }.reply m.client r).setWorker k .replied with
      executed := executed })
    (hknows : Knows s' active' m.client (sessionAfter (s.sessionId m.client) m.request r))
    (hold : ∀ j c, c ≠ m.client → Seat s active j c → Seat s' active' j c)
    (hact : ∀ c ∈ active', c ∈ active) (hsub : ∀ j, entries j = .taken → s.freesessionEntries j = .taken)
    (hseats : ∀ j < maxClients, entries j = .taken → s.clientFd j ∈ active') (hnodup : active'.Nodup) :
    Seated s' active' (Function.update place m.client .answered) := by
  obtain ⟨hplace, hwait, hpipe, -⟩ := i.executing hw
  have hother : ∀ {c}, c ≠ m.client → Function.update place m.client .answered c = place c :=
    fun hc => Function.update_of_ne hc ..
  subst hs
  exact {
    client := fun c => by
      by_cases hc : c = m.client
      · subst hc
        rw [Function.update_self]
        exact .answered (r := r) hwait (by simp [Sys.setWorker, Sys.reply, hpipe]) hknows
      · rw [hother hc]
        exact (i.client c).mono rfl (Function.update_of_ne hc ..) rfl (fun _ h _ _ => h)
          (fun j => hold j c hc) fun h h' => h (hact c h')
    sender := i.sender
    pipe := fun m' h => by
      obtain ⟨h₁, h₂⟩ := i.pipe m' h
      refine ⟨h₁, ?_⟩
      rwa [hother fun he => by cases h₂.symm.trans (he ▸ hplace)]
    pipeNodup := i.pipeNodup
    filling := fun j m' h => absurd h (hmain j m')
    held := fun j m' h => by
      have hj : j ≠ k := by
        rintro rfl
        simp [Sys.setWorker, Held, Worker.Fresh] at h
      obtain ⟨h₁, h₂⟩ := i.held j m' (by simpa [Held, Sys.setWorker, Sys.reply, hj] using h)
      refine ⟨h₁, ?_⟩
      rwa [hother fun he => by
        rw [he, hplace] at h₂
        exact hj (Place.session.inj h₂).symm]
    seats := hseats
    unique := fun j j' c h h' => i.unique j j' c ⟨h.lt, hsub j h.taken, h.clientFd, hact c h.active⟩
      ⟨h'.lt, hsub j' h'.taken, h'.clientFd, hact c h'.active⟩
    nodup := hnodup }

theorem execute (i : Seated s active place) {k : Nat} {m : Message α} {s₁ : Sys α}
    (hw : s.worker k = .executing (some m)) (hmain : ∀ j m', s.main ≠ .filling j m')
    (he : Sessions.execute s k m = some s₁) :
    ∃ place', Seated { s₁.setWorker k .replied with executed := s.executed ++ [some m] }
      (activeAfter s active (.worker k)) place' := by
  obtain ⟨hplace, -, -, hs, hid, hk⟩ := i.executing hw
  rcases m with ⟨number, c, request⟩
  cases request with
  | mount pipe =>
    have hactive : activeAfter s active (.worker k) = active := by simp [activeAfter, handled, hw]
    cases he
    rw [hactive, hs.clientFd]
    refine ⟨_, i.answer hw hmain rfl ?_ (fun _ _ _ h => h.congr rfl rfl) (fun _ h => h) (fun _ h => h) i.seats
      i.nodup⟩
    exact Seat.congr hs rfl rfl
  | unmount j =>
    obtain rfl := hk j rfl
    simp only [Sessions.execute] at he
    split at he
    · cases he
    cases he
    have hactive : activeAfter s active (.worker j) = active.erase c := by simp [activeAfter, handled, hw]
    rw [hactive, hs.clientFd]
    have hne : ∀ {l d}, d ≠ c → Seat s active l d → l ≠ j := fun hd h hl => hd (by
      rw [← h.clientFd, hl, hs.clientFd])
    refine ⟨_, i.answer hw hmain rfl ?_ (fun l d hd h => ?_) (fun _ h => List.mem_of_mem_erase h) (fun l h => ?_)
      (fun l hl h => ?_) (i.nodup.erase c)⟩
    · exact fun h => (List.Nodup.mem_erase_iff i.nodup).mp h |>.1 rfl
    · refine ⟨h.lt, ?_, h.clientFd, (List.Nodup.mem_erase_iff i.nodup).mpr ⟨hd, h.active⟩⟩
      exact (Function.update_of_ne (hne hd h) ..).trans h.taken
    · by_cases hl : l = j
      · simp [hl] at h
      · simpa [hl] using h
    · have hlj : l ≠ j := by
        rintro rfl
        simp at h
      have ht : s.freesessionEntries l = .taken := by simpa [hlj] using h
      have hmem := i.seats l hl ht
      refine (List.Nodup.mem_erase_iff i.nodup).mpr ⟨fun hc => hlj ?_, hmem⟩
      exact i.unique l j c ⟨hl, ht, hc, hc ▸ hmem⟩ hs
  | call j fields =>
    obtain rfl := hk j rfl
    cases he
    have hactive : activeAfter s active (.worker j) = active := by simp [activeAfter, handled, hw]
    rw [hactive, hs.clientFd]
    have hknown : s.sessionId c = some j := hid.symm
    refine ⟨_, i.answer hw hmain rfl ?_ (fun _ _ _ h => h.congr rfl rfl) (fun _ h => h) (fun _ h => h) i.seats
      i.nodup⟩
    simp only [sessionAfter, hknown]
    exact Seat.congr hs rfl rfl
  | shutdown j =>
    -- the worker does nothing, and its client is never answered
    cases he
    have hactive : activeAfter s active (.worker k) = active := by simp [activeAfter, handled, hw]
    rw [hactive]
    refine ⟨place, i.threads (fun _ _ h => h) fun l m' h => .inl ?_⟩
    by_cases hl : l = k
    · subst hl
      simp [Sys.setWorker, Worker.Fresh] at h
    · simpa [Held, Sys.setWorker, hl] using h

theorem step (i : Seated s active place) {e : Event α} (hg : Courteous s e ∧ Undivided s e) (h : Moves s e s') :
    ∃ place', Seated s' (activeAfter s active e) place' := by
  have same : ∀ {e : Event α}, handled s e = none → activeAfter s active e = active := by
    intro e he
    unfold activeAfter
    rw [he]
    cases e <;> rfl
  cases h with
  | send c r =>
    rw [same rfl]
    cases r with
    | mount pipe =>
      obtain ⟨hw, hid, rfl⟩ := hg.1
      exact ⟨_, i.send hw (by rw [hid]; rfl) fun p hp => (Request.mount.inj hp).symm⟩
    | unmount k =>
      obtain ⟨hw, hid⟩ := hg.1
      exact ⟨_, i.send hw (by rw [hid]; rfl) (by simp)⟩
    | call k fields =>
      obtain ⟨hw, hid⟩ := hg.1
      exact ⟨_, i.send hw (by rw [hid]; rfl) (by simp)⟩
    | shutdown k =>
      obtain ⟨hw, hid⟩ := hg.1
      exact ⟨_, i.send hw (by rw [hid]; rfl) (by simp)⟩
  | receive hw hp =>
    rw [same rfl]
    exact ⟨_, i.receive hw hp⟩
  | @refuse m rest pipe hm hp hr hf =>
    have hactive : activeAfter s active .main = active := by
      rcases m with ⟨number, c, request⟩
      obtain rfl : request = .mount pipe := hr
      simp only [activeAfter, handled, hm, hp, List.head?_cons, hf]
      rfl
    rw [hactive]
    exact ⟨_, i.refuse hp hr⟩
  | @mount m rest pipe k hm hp hr hf =>
    have hactive : activeAfter s active .main = m.client :: active := by
      rcases m with ⟨number, c, request⟩
      obtain rfl : request = .mount pipe := hr
      simp only [activeAfter, handled, hm, hp, List.head?_cons, hf]
      rfl
    rw [hactive]
    exact ⟨_, i.mount hp hr hf⟩
  | @deposit m rest k hm hp hr hk =>
    have hactive : activeAfter s active .main = active := by
      rcases m with ⟨number, c, request⟩
      cases request with
      | mount pipe => cases hr
      | unmount j => simp [activeAfter, handled, hm, hp]
      | call j fields => simp [activeAfter, handled, hm, hp]
      | shutdown j => simp [activeAfter, handled, hm, hp]
    rw [hactive]
    exact ⟨_, i.deposit hp hr⟩
  | @fill k m b hm hb =>
    rw [same (by simp [handled, hm])]
    refine ⟨place, i.threads (fun _ _ h => by cases h) fun j m' h => ?_⟩
    by_cases hj : j = k
    · subst hj
      rcases h with h | ⟨h, -⟩
      · exact .inl (.inl h)
      · right
        simp only [Sys.setBuffer, Function.update_self, Option.some.injEq] at h
        rw [hm, h]
    · left
      simpa [Held, Sys.setBuffer, hj] using h
  | @wakeWorker k m hm hw =>
    rw [same (by simp [handled, hm])]
    refine ⟨place, i.threads (fun _ _ h => by cases h) fun j m' h => .inl ?_⟩
    by_cases hj : j = k
    · subst hj
      simpa [Held, Sys.setWorker, hw, Worker.Fresh] using h
    · simpa [Held, Sys.setWorker, hj] using h
  | signalNobody hm hw =>
    rw [same (by simp [handled, hm])]
    exact ⟨place, i.threads (fun _ _ h => by cases h) fun _ _ h => .inl h⟩
  | @lock k hw =>
    rw [same (by rcases hw with hw | hw <;> simp [handled, hw])]
    refine ⟨place, i.setWorker fun m h => ?_⟩
    rcases hw with hw | hw <;> simpa [Held, hw, Worker.Fresh] using h
  | seeNull hw =>
    rw [same (by simp [handled, hw])]
    exact ⟨place, i.setWorker fun m h => by simpa [Held, hw, Worker.Fresh] using h⟩
  | seeBuffer hw =>
    rw [same (by simp [handled, hw])]
    exact ⟨place, i.setWorker fun m h => by simpa [Held, hw, Worker.Fresh] using h⟩
  | sleep hw =>
    rw [same (by simp [handled, hw])]
    exact ⟨place, i.setWorker fun m h => by simpa [Held, hw, Worker.Fresh] using h⟩
  | @read k content hw hb =>
    rw [same (by simp [handled, hw])]
    refine ⟨place, i.setWorker fun m h => .inr ?_⟩
    rw [hw, hb]
    simpa [Worker.Fresh] using h
  | @garbage k hw =>
    rw [same (by simp [handled, hw])]
    refine ⟨place, i.threads (fun _ _ h => h) fun j m h => .inl ?_⟩
    by_cases hj : j = k
    · subst hj
      simp [Sys.setWorker, Worker.Fresh] at h
    · simpa [Held, Sys.setWorker, hj] using h
  | execute hw he => exact i.execute hw hg.2 he
  | @clear k hw =>
    rw [same (by simp [handled, hw])]
    refine ⟨place, i.threads (fun _ _ h => h) fun j m h => .inl ?_⟩
    by_cases hj : j = k
    · subst hj
      simp [Sys.setBuffer] at h
    · simpa [Held, Sys.setBuffer, hj] using h
  | wake hw =>
    rw [same rfl]
    exact ⟨place, i.setWorker fun m h => by simpa [Held, hw, Worker.Fresh] using h⟩

theorem exists_seat (i : Seated s active place) {c : Nat} (h : c ∈ active) : ∃ k, Seat s active k c := by
  have known : ∀ {o}, Knows s active c o → ∃ k, Seat s active k c := by
    intro o ho
    cases o with
    | none => exact absurd h ho
    | some k => exact ⟨k, ho⟩
  have hc := i.client c
  generalize place c = p at hc
  cases hc with
  | idle _ _ hs => exact known hs
  | pipe _ _ _ hs => exact known hs
  | session _ _ hs => exact ⟨_, hs⟩
  | answered _ _ hs => exact known hs

theorem bijOn (i : Seated s active place) :
    Set.BijOn s.clientFd {k | k < maxClients ∧ s.freesessionEntries k = .taken} {c | c ∈ active} := by
  have seat : ∀ {k}, k < maxClients → s.freesessionEntries k = .taken → Seat s active k (s.clientFd k) :=
    fun hk ht => ⟨hk, ht, rfl, i.seats _ hk ht⟩
  refine ⟨fun k hk => i.seats k hk.1 hk.2, fun k hk k' hk' he => ?_, fun c hc => ?_⟩
  · have hs := seat hk.1 hk.2
    rw [he] at hs
    exact i.unique k k' _ hs (seat hk'.1 hk'.2)
  · obtain ⟨k, hs⟩ := i.exists_seat hc
    exact ⟨k, ⟨hs.lt, hs.taken⟩, hs.clientFd⟩

end Seated

/-- A step of the server adds to a client's pipe only an answer to that client's request, and a mount is refused
exactly when every session is taken. -/
structure Replies (s : Sys α) (e : Event α) (s' : Sys α) : Prop where
  own : ∀ fd, s'.clientPipe fd ≠ s.clientPipe fd →
    e = .receive fd ∨ ∃ m r, handled s e = some m ∧ m.client = fd ∧ s'.clientPipe fd = s.clientPipe fd ++ [r]
  refused : ∀ m pipe, e = .main → handled s e = some m → m.request = .mount pipe →
    (s'.clientPipe m.client = s.clientPipe m.client ++ [.noSession] ↔
      ∀ k < maxClients, s.freesessionEntries k = .taken)

theorem Seated.replies (i : Seated s active place) {e : Event α} (h : Moves s e s') : Replies s e s' where
  own fd hne := by
    have answered : ∀ {m : Message α} {r : Reply}, handled s e = some m →
        s'.clientPipe = Function.update s.clientPipe m.client (s.clientPipe m.client ++ [r]) →
        e = .receive fd ∨ ∃ m r, handled s e = some m ∧ m.client = fd ∧ s'.clientPipe fd = s.clientPipe fd ++ [r] := by
      intro m r hm hp
      by_cases hfd : fd = m.client
      · exact .inr ⟨m, r, hm, hfd.symm, by rw [hp, hfd, Function.update_self]⟩
      · rw [hp, Function.update_of_ne hfd] at hne
        exact absurd rfl hne
    cases h with
    | @receive c =>
      by_cases hfd : fd = c
      · exact .inl (by rw [hfd])
      · exact absurd (Function.update_of_ne hfd ..) hne
    | @refuse m rest pipe hm hp hr =>
      obtain ⟨hwait, -⟩ := i.head hp
      obtain rfl := (i.sender _ _ hwait).2 pipe hr
      exact answered (m := m) (by simp [handled, hm, hp]) rfl
    | @execute k m s₁ hw he =>
      obtain ⟨-, -, -, hs, -, hk⟩ := i.executing hw
      have hm : handled s (.worker k) = some m := by simp [handled, hw]
      unfold Sessions.execute at he
      split at he
      · cases he
        rw [hs.clientFd] at hne answered ⊢
        exact answered hm rfl
      · next j hr =>
        obtain rfl := hk j (by rw [hr]; rfl)
        split at he
        · cases he
        · cases he
          rw [hs.clientFd] at hne answered ⊢
          exact answered hm rfl
      · next j _ hr =>
        obtain rfl := hk j (by rw [hr]; rfl)
        cases he
        rw [hs.clientFd] at hne answered ⊢
        exact answered hm rfl
      · cases he
        exact absurd rfl hne
    | _ => exact absurd rfl hne
  refused m pipe he hm hr := by
    subst he
    cases h with
    | @refuse m' rest pipe' hmain hp hr' hf =>
      obtain ⟨hwait, -⟩ := i.head hp
      obtain rfl := (i.sender _ _ hwait).2 pipe' hr'
      obtain rfl : m' = m := by simpa [handled, hmain, hp] using hm
      exact ⟨fun _ => firstFree_eq_none.mp hf, fun _ => Function.update_self ..⟩
    | @mount m' rest pipe' k hmain hp hr' hf =>
      obtain ⟨hk, hfree, -⟩ := firstFree_eq_some.mp hf
      constructor
      · intro h
        exact absurd (congrArg List.length h) (by simp [setThreadBuffer, Sys.setBuffer])
      · intro h
        cases hfree.symm.trans (h k hk)
    | @deposit m' rest k hmain hp hr' =>
      obtain rfl : m' = m := by simpa [handled, hmain, hp] using hm
      rw [hr] at hr'
      cases hr'
    | fill hmain => simp [handled, hmain] at hm
    | wakeWorker hmain => simp [handled, hmain] at hm
    | signalNobody hmain => simp [handled, hmain] at hm

/-- Whatever the order of the steps, the mounted sessions belong one to one to the clients whose mount was accepted
and whose unmount is not executed yet, every answer goes to the client it answers, and a mount is refused exactly
when every session is taken. -/
theorem sessions_match {es : List (Event α)} {outs : List Unit} {s : Sys α} {active : List Nat}
    (ha : Runs.Along countedStep (fun x e => Courteous x.1 e ∧ Undivided x.1 e) (.init, []) es)
    (hr : Runs.run countedStep (.init, []) es = some (outs, s, active)) :
    active.Nodup ∧
      Set.BijOn s.clientFd {k | k < maxClients ∧ s.freesessionEntries k = .taken} {c | c ∈ active} ∧
      ∀ e s', step s e = some ((), s') → Replies s e s' := by
  have hstep : ∀ (x : Sys α × List Nat) e o x', (∃ place, Seated x.1 x.2 place) →
      Courteous x.1 e ∧ Undivided x.1 e → countedStep x e = some (o, x') →
        True ∧ ∃ place, Seated x'.1 x'.2 place := by
    intro x e o x' h hg hx
    obtain ⟨place, i⟩ := h
    obtain ⟨y, hy, he⟩ := Option.map_eq_some_iff.mp hx
    cases he
    exact ⟨trivial, i.step hg (moves_of_step hy)⟩
  obtain ⟨-, place, i⟩ := Runs.run_invariant (P := fun _ => True) hstep ⟨_, .init⟩ ha hr
  exact ⟨i.nodup, i.bijOn, fun e s' h => i.replies (moves_of_step h)⟩

instance (s : Sys α) : ∀ e, Decidable (Courteous s e)
  | .send _ (.mount _) => inferInstanceAs (Decidable (_ ∧ _))
  | .send _ (.unmount _) | .send _ (.call _ _) | .send _ (.shutdown _) => inferInstanceAs (Decidable (_ ∧ _))
  | .receive _ | .main | .worker _ | .wake _ => inferInstanceAs (Decidable True)

instance [DecidableEq α] (s : Sys α) : ∀ e, Decidable (Undivided s e)
  | .main => inferInstanceAs (Decidable True)
  | .send _ _ | .receive _ | .worker _ | .wake _ =>
    match h : s.main with
    | .filling k m => isFalse fun hno => hno k m h
    | .receiving | .signalling _ _ => isTrue fun k m hno => by cases h.symm.trans hno

/-- Client 0 unmounts, client 1 gets its session before the worker has freed the buffer, and its mount is dropped;
the session is client 1's all the same. -/
theorem sessions_match_dropped : ∃ outs s, Runs.run countedStep ((.init : Sys Unit), [])
    (mountSession ++ [.worker 0, .send 0 (.unmount 0), .main, .main, .main, .worker 0, .worker 0, .worker 0, .worker 0,
      .receive 0, .send 1 (.mount 1), .main, .main, .main, .worker 0]) = some (outs, s, [1]) ∧
      Set.BijOn s.clientFd {k | k < maxClients ∧ s.freesessionEntries k = .taken} {c | c ∈ [1]} := by
  let es : List (Event Unit) := mountSession ++ [.worker 0, .send 0 (.unmount 0), .main, .main, .main, .worker 0,
    .worker 0, .worker 0, .worker 0, .receive 0, .send 1 (.mount 1), .main, .main, .main, .worker 0]
  have hend : (Runs.run countedStep (.init, []) es).map (fun x => x.2.2) = some [1] := by decide
  obtain ⟨⟨outs, s, active⟩, hx, he⟩ := Option.map_eq_some_iff.mp hend
  obtain rfl : active = [1] := he
  exact ⟨outs, s, hx, (sessions_match (by decide) hx).2.1⟩

end Tecnicofs.Ex2.Sessions
