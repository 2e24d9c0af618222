import Tecnicofs.Ex2.Mounts
import Tecnicofs.Ex2.Operations
import Tecnicofs.Lib.Histories

/-! Project 2: the server with its library.  A worker calls the library in one step and answers its client in a later one,
while other workers call it; the clients see a library that they share. -/

namespace Tecnicofs.Ex2.Sessions

open Histories

/-- The sessions and the library, with what the workers have still to answer, the answers in the pipes of the clients, and
the history of the library. -/
structure Serving where
  sys : Sys Call
  active : List Nat
  lib : State
  outcome : Nat → Option Out
  answers : Nat → List Out
  history : History Call Out

namespace Serving

def init : Serving := ⟨.init, [], .init, fun _ => none, fun _ => [], .empty⟩

def libraryCall (x : Serving) : Event Call → Option (Nat × Message Call × Call)
  | .worker k =>
    match x.sys.worker k, x.outcome k with
    | .executing (some m), none =>
      match m.request with
      | .call _ f => some (k, m, f)
      | .mount _ | .unmount _ | .shutdown _ => none
    | _, _ => none
  | .send _ _ | .receive _ | .main | .wake _ => none

def callLibrary (x : Serving) (k : Nat) (m : Message Call) (f : Call) : Option Serving :=
  (x.lib.call f).map fun y =>
    { x with
      lib := y.2
      outcome := Function.update x.outcome k (some y.1)
      history := x.history.effect ⟨m.number, m.client, f, y.1⟩ }

def moved (x : Serving) (e : Event Call) (sys : Sys Call) : Serving :=
  let y := { x with sys := sys, active := activeAfter x.sys x.active e }
  match e with
  | .send _ _ => { y with history := x.history.invoke x.sys.sent.length }
  | .receive c =>
    match x.sys.waiting c, x.answers c with
    | some ⟨n, _, .call _ f⟩, o :: rest =>
      { y with answers := Function.update x.answers c rest, history := x.history.respond ⟨n, c, f, o⟩ }
    | _, _ => y
  | .worker k =>
    match x.outcome k, handled x.sys (.worker k) with
    | some o, some ⟨_, _, .call j _⟩ =>
      { y with
        outcome := Function.update x.outcome k none
        answers := Function.update x.answers (x.sys.clientFd j) (x.answers (x.sys.clientFd j) ++ [o]) }
    | _, _ => y
  | .main | .wake _ => y

/-- A step in a server whose stacks have room for every `content`. -/
def advance (x : Serving) (e : Event Call) : Option (Unit × Serving) :=
  match x.libraryCall e with
  | some (k, m, f) => (x.callLibrary k m f).map fun y => ((), y)
  | none => (Sessions.step x.sys e).map fun y => ((), x.moved e y.2)

/-- The call whose `content` the step puts on the stack of the main thread. -/
def receivedCall (x : Serving) : Event Call → Option Call
  | .main =>
    match x.sys.main, x.sys.serverPipe with
    | .receiving, ⟨_, _, .call _ f⟩ :: _ => some f
    | _, _ => none
  | .send _ _ | .receive _ | .worker _ | .wake _ => none

/-- A step.  The server dies where `content` does not fit on a stack. -/
def step (room : StackRoom) (x : Serving) (e : Event Call) : Option (Unit × Serving) :=
  if (∀ y ∈ x.libraryCall e, room.Serves y.2.2) ∧ ∀ f ∈ x.receivedCall e, room.Receives f then x.advance e else none

structure Served (x : Serving) : Prop where
  seated : ∃ place, Seated x.sys x.active place
  linear : Linearizes State.call State.init x.history x.lib
  outcome : ∀ k o, x.outcome k = some o → ∃ m j f, x.sys.worker k = .executing (some m) ∧ m.request = .call j f ∧
    x.history.Owes m.client [⟨m.number, m.client, f, o⟩]
  answered : ∀ c o, o ∈ x.answers c → ∃ m j f, x.sys.waiting c = some m ∧ x.sys.clientPipe c ≠ [] ∧
    m.request = .call j f ∧ x.answers c = [o] ∧ x.history.Owes c [⟨m.number, c, f, o⟩]
  quiet : ∀ c, x.answers c = [] →
    (∀ k m o, x.sys.worker k = .executing (some m) → x.outcome k = some o → m.client ≠ c) → x.history.Owes c []
  ready : ∀ c m j f, x.sys.waiting c = some m → m.request = .call j f → x.sys.clientPipe c ≠ [] → x.answers c ≠ []
  numbered : ∀ m ∈ x.sys.sent, x.sys.sent[m.number]? = some m
  sent : ∀ c m, x.sys.waiting c = some m → m ∈ x.sys.sent
  logged : ∀ a ∈ x.history.log, ∃ j, ⟨a.number, a.caller, .call j a.call⟩ ∈ x.sys.sent
  fresh : ∀ c m, x.sys.waiting c = some m → ∀ a ∈ x.history.returned, a.number ≠ m.number

namespace Served

variable {x x' : Serving} {s' : Sys Call} {k c : Nat} {m : Message Call} {o : Out}

theorem first (lib : State) (hl : Linearizes State.call State.init History.empty lib) :
    Served ⟨.init, [], lib, fun _ => none, fun _ => [], .empty⟩ where
  seated := ⟨_, .init⟩
  linear := hl
  outcome _ _ h := by cases h
  answered _ _ h := by cases h
  quiet _ _ _ := rfl
  ready _ _ _ _ h := by cases h
  numbered _ h := by cases h
  sent _ _ h := by cases h
  logged _ h := by cases h
  fresh _ _ h := by cases h

theorem init : Served Serving.init := first _ (.empty ..)

theorem executing (i : Served x) (hw : x.sys.worker k = .executing (some m)) :
    x.sys.waiting m.client = some m ∧ x.sys.clientPipe m.client = [] ∧ x.answers m.client = [] ∧
      x.sys.clientFd k = m.client ∧ (∀ j ∈ m.request.sessionId, j = k) ∧
      ∀ k' m', x.sys.worker k' = .executing (some m') → m'.client = m.client → k' = k := by
  obtain ⟨place, hs⟩ := i.seated
  obtain ⟨hplace, hwait, hpipe, hseat, -, hid⟩ := hs.executing hw
  refine ⟨hwait, hpipe, ?_, hseat.clientFd, hid, fun k' m' hw' hc => ?_⟩
  · rw [List.eq_nil_iff_forall_not_mem]
    intro o ho
    obtain ⟨-, -, -, -, hne, -⟩ := i.answered _ o ho
    exact hne hpipe
  · have hplace' := (hs.executing hw').1
    rw [hc, hplace] at hplace'
    exact (Place.session.inj hplace').symm

theorem number_lt (i : Served x) {a : Op Call Out} (ha : a ∈ x.history.log) : a.number < x.sys.sent.length := by
  obtain ⟨j, hj⟩ := i.logged a ha
  exact (List.getElem?_eq_some_iff.mp (i.numbered _ hj)).1

theorem eq_of_number (i : Served x) {m m' : Message Call} (hm : m ∈ x.sys.sent) (hm' : m' ∈ x.sys.sent)
    (h : m.number = m'.number) : m = m' :=
  Option.some.inj ((i.numbered m hm).symm.trans (h ▸ i.numbered m' hm'))

theorem congr (i : Served x) {active : List Nat} (hs : ∃ place, Seated s' active place)
    (hw : s'.waiting = x.sys.waiting) (hsent : s'.sent = x.sys.sent)
    (hk : ∀ k, x.outcome k ≠ none → s'.worker k = x.sys.worker k)
    (hp : ∀ c, x.sys.clientPipe c ≠ [] → s'.clientPipe c ≠ [])
    (hp' : ∀ c m j f, x.sys.waiting c = some m → m.request = .call j f → s'.clientPipe c = x.sys.clientPipe c) :
    Served { x with sys := s', active := active } where
  seated := hs
  linear := i.linear
  outcome k o ho := by
    obtain ⟨m, j, f, hwk, hrest⟩ := i.outcome k o ho
    exact ⟨m, j, f, (hk k (by simp [show x.outcome k = some o from ho])).trans hwk, hrest⟩
  answered c o ho := by
    obtain ⟨m, j, f, hwait, hpipe, hrest⟩ := i.answered c o ho
    exact ⟨m, j, f, (congrFun hw c).trans hwait, hp c hpipe, hrest⟩
  quiet c hc hno := i.quiet c hc fun k m o hwk ho => by
    refine hno k m o ((hk k (by simp [ho])).trans hwk) ho
  ready c m j f hwait hr hpipe := by
    have hwait : x.sys.waiting c = some m := (congrFun hw c).symm.trans hwait
    exact i.ready c m j f hwait hr (by rwa [← hp' c m j f hwait hr])
  numbered m hm := by rw [hsent] at hm ⊢; exact i.numbered m hm
  sent c m hwait := by rw [hsent]; exact i.sent c m ((congrFun hw c).symm.trans hwait)
  logged a ha := by rw [hsent]; exact i.logged a ha
  fresh c m hwait := i.fresh c m ((congrFun hw c).symm.trans hwait)

theorem callLibrary (i : Served x) {j : Nat} {f : Call} (hw : x.sys.worker k = .executing (some m))
    (hr : m.request = .call j f) (ho : x.outcome k = none) (hx : x.callLibrary k m f = some x') : Served x' := by
  obtain ⟨⟨o, lib⟩, hcall, rfl⟩ := Option.map_eq_some_iff.mp hx
  obtain ⟨hwait, hpipe, hans, -, -, hone⟩ := i.executing hw
  have hother : ∀ k' m', x.sys.worker k' = .executing (some m') → x.outcome k' ≠ none → m'.client ≠ m.client :=
    fun k' m' hw' ho' hc => ho' (hone k' m' hw' hc ▸ ho)
  have howes : x.history.Owes m.client [] := i.quiet _ hans fun k' m' o' hw' ho' => hother k' m' hw' (by simp [ho'])
  have hmem := i.sent _ _ hwait
  have hfresh : ∀ b ∈ x.history.log, b.number ≠ m.number := by
    intro b hb hn
    obtain ⟨j', hb'⟩ := i.logged b hb
    have he := i.eq_of_number hb' hmem hn
    exact i.fresh _ _ hwait b (howes.mem_returned hb (congrArg Message.client he)) hn
  exact {
    seated := i.seated
    linear := i.linear.effect hcall hfresh
    outcome := fun k' o' ho' => by
      by_cases hk : k' = k
      · subst hk
        obtain rfl : o = o' := by simpa using ho'
        exact ⟨m, j, f, hw, hr, howes.effect rfl⟩
      · have ho' : x.outcome k' = some o' := by simpa [hk] using ho'
        obtain ⟨m', j', f', hw', hr', howes'⟩ := i.outcome k' o' ho'
        exact ⟨m', j', f', hw', hr', howes'.effect_other (Ne.symm (hother k' m' hw' (by simp [ho'])))⟩
    answered := fun c o' ho' => by
      obtain ⟨m', j', f', hwait', hpipe', hr', hc, howes'⟩ := i.answered c o' ho'
      refine ⟨m', j', f', hwait', hpipe', hr', hc, howes'.effect_other ?_⟩
      rintro rfl
      exact hpipe' hpipe
    quiet := fun c hc hno => by
      have hne : m.client ≠ c := hno k m o hw (Function.update_self ..)
      refine (i.quiet c hc fun k' m' o' hw' ho' => hno k' m' o' hw' ?_).effect_other hne
      have hk : k' ≠ k := by
        rintro rfl
        cases ho.symm.trans ho'
      simpa [hk] using ho'
    ready := i.ready
    numbered := i.numbered
    sent := i.sent
    logged := fun a ha => by
      rcases List.mem_append.mp ha with ha | ha
      · exact i.logged a ha
      · rw [List.mem_singleton.mp ha]
        refine ⟨j, ?_⟩
        rw [← hr]
        exact hmem
    fresh := i.fresh }

theorem reply (i : Served x) {j : Nat} {f : Call} (hw : x.sys.worker k = .executing (some m))
    (hr : m.request = .call j f) (ho : x.outcome k = some o) {active : List Nat}
    (hs : ∃ place, Seated { ((x.sys.reply (x.sys.clientFd j) .outcome).setWorker k .replied) with
      executed := x.sys.executed ++ [some m] } active place) :
    Served { x with
      sys := { ((x.sys.reply (x.sys.clientFd j) .outcome).setWorker k .replied) with
        executed := x.sys.executed ++ [some m] }
      active := active
      outcome := Function.update x.outcome k none
      answers := Function.update x.answers (x.sys.clientFd j) (x.answers (x.sys.clientFd j) ++ [o]) } := by
  obtain ⟨hwait, hpipe, hans, hfd, hid, hone⟩ := i.executing hw
  have hclient : x.sys.clientFd j = m.client := by rw [hid j (by rw [hr]; rfl), hfd]
  obtain ⟨m₀, j₀, f₀, hw₀, hr₀, howes⟩ := i.outcome k o ho
  cases hw.symm.trans hw₀
  cases hr.symm.trans hr₀
  rw [hclient] at hs ⊢
  rw [hans, List.nil_append]
  have hself : Function.update x.answers m.client [o] m.client = [o] := Function.update_self ..
  have hother : ∀ {c}, c ≠ m.client → Function.update x.answers m.client [o] c = x.answers c :=
    fun hc => Function.update_of_ne hc ..
  have hpipes : ∀ {c}, c ≠ m.client →
      (x.sys.reply m.client .outcome).clientPipe c = x.sys.clientPipe c := fun hc => Function.update_of_ne hc ..
  exact {
    seated := hs
    linear := i.linear
    outcome := fun k' o' ho' => by
      have hk : k' ≠ k := by
        rintro rfl
        simp at ho'
      obtain ⟨m', j', f', hw', hrest⟩ := i.outcome k' o' (by simpa [hk] using ho')
      exact ⟨m', j', f', (Function.update_of_ne hk ..).trans hw', hrest⟩
    answered := fun c o' ho' => by
      by_cases hc : c = m.client
      · subst hc
        obtain rfl : o' = o := by simpa using ho'
        exact ⟨m, j, f, hwait, by simp [Sys.setWorker, Sys.reply], hr, hself, howes⟩
      · simp only [hother hc] at ho' ⊢
        obtain ⟨m', j', f', hwait', hpipe', hrest⟩ := i.answered c o' ho'
        exact ⟨m', j', f', hwait', by rwa [← hpipes hc] at hpipe', hrest⟩
    quiet := fun c hc hno => by
      have hne : c ≠ m.client := by
        rintro rfl
        simp at hc
      simp only [hother hne] at hc
      refine i.quiet c hc fun k' m' o' hw' ho' => ?_
      by_cases hk : k' = k
      · subst hk
        cases hw.symm.trans hw'
        exact Ne.symm hne
      · exact hno k' m' o' ((Function.update_of_ne hk ..).trans hw') ((Function.update_of_ne hk ..).trans ho')
    ready := fun c m' j' f' hwait' hr' hpipe' => by
      by_cases hc : c = m.client
      · subst hc
        simp
      · simp only [hother hc]
        exact i.ready c m' j' f' hwait' hr' (by rwa [← hpipes hc])
    numbered := i.numbered
    sent := i.sent
    logged := i.logged
    fresh := i.fresh }

theorem send (i : Served x) {r : Request Call} (hwait : x.sys.waiting c = none) {active : List Nat}
    (hs : ∃ place, Seated (Sessions.send x.sys c r) active place) :
    Served { x with
      sys := Sessions.send x.sys c r
      active := active
      history := x.history.invoke x.sys.sent.length } := by
  obtain ⟨place, hseat⟩ := i.seated
  have hidle : x.sys.clientPipe c = [] := by
    have hc := hseat.client c
    generalize place c = p at hc
    cases hc with
    | idle _ hp => exact hp
    | pipe h => cases hwait.symm.trans h
    | session h => cases hwait.symm.trans h
    | answered h => cases hwait.symm.trans h
  have hother : ∀ {c'}, c' ≠ c → (Sessions.send x.sys c r).waiting c' = x.sys.waiting c' :=
    fun hc => Function.update_of_ne hc ..
  have hself : (Sessions.send x.sys c r).waiting c = some ⟨x.sys.sent.length, c, r⟩ := Function.update_self ..
  exact {
    seated := hs
    linear := i.linear.invoke fun b hb => Nat.ne_of_lt (i.number_lt hb)
    outcome := i.outcome
    answered := fun c' o ho => by
      obtain ⟨m, j, f, hwait', hrest⟩ := i.answered c' o ho
      have hc : c' ≠ c := by
        rintro rfl
        cases hwait.symm.trans hwait'
      exact ⟨m, j, f, (hother hc).trans hwait', hrest⟩
    quiet := i.quiet
    ready := fun c' m j f hwait' hr hpipe => by
      by_cases hc : c' = c
      · subst hc
        exact absurd hidle hpipe
      · exact i.ready c' m j f ((hother hc).symm.trans hwait') hr hpipe
    numbered := fun m hm => by
      rcases List.mem_append.mp hm with hm | hm
      · have h := i.numbered m hm
        exact List.getElem?_append_left (List.getElem?_eq_some_iff.mp h).1 |>.trans h
      · rw [List.mem_singleton.mp hm]
        exact List.getElem?_concat_length
    sent := fun c' m hwait' => by
      by_cases hc : c' = c
      · subst hc
        cases hself.symm.trans hwait'
        exact List.mem_append_right _ (List.mem_singleton_self _)
      · exact List.mem_append_left _ (i.sent c' m ((hother hc).symm.trans hwait'))
    logged := fun a ha => by
      obtain ⟨j, hj⟩ := i.logged a ha
      exact ⟨j, List.mem_append_left _ hj⟩
    fresh := fun c' m hwait' a ha => by
      by_cases hc : c' = c
      · subst hc
        cases hself.symm.trans hwait'
        exact Nat.ne_of_lt (i.number_lt (i.linear.returned a ha))
      · exact i.fresh c' m ((hother hc).symm.trans hwait') a ha }

def received (s : Sys Call) (c : Nat) (m : Message Call) (r : Reply) (rest : List Reply) : Sys Call :=
  { s with
    clientPipe := Function.update s.clientPipe c rest
    waiting := Function.update s.waiting c none
    sessionId := Function.update s.sessionId c (sessionAfter (s.sessionId c) m.request r) }

theorem client_ne (i : Served x) {r : Reply} {rest : List Reply} (hpipe : x.sys.clientPipe c = r :: rest)
    (hw : x.sys.worker k = .executing (some m)) : m.client ≠ c := by
  rintro rfl
  cases hpipe.symm.trans (i.executing hw).2.1

theorem receive (i : Served x) {j : Nat} {f : Call} {r : Reply} {rest : List Reply}
    (hwait : x.sys.waiting c = some m) (hpipe : x.sys.clientPipe c = r :: rest) (hr : m.request = .call j f)
    {active : List Nat} (hs : ∃ place, Seated (received x.sys c m r rest) active place) (hans : x.answers c = [o]) :
    Served { x with
      sys := received x.sys c m r rest
      active := active
      answers := Function.update x.answers c []
      history := x.history.respond ⟨m.number, c, f, o⟩ } := by
  obtain ⟨m₀, j₀, f₀, hwait₀, -, hr₀, -, howes⟩ := i.answered c o (by simp [hans])
  cases hwait.symm.trans hwait₀
  cases hr.symm.trans hr₀
  have hother : ∀ {c'}, c' ≠ c → (received x.sys c m r rest).waiting c' = x.sys.waiting c' :=
    fun hc => Function.update_of_ne hc ..
  have hself : (received x.sys c m r rest).waiting c = none := Function.update_self ..
  have hanswers : ∀ {c'}, c' ≠ c → Function.update x.answers c [] c' = x.answers c' := fun hc => Function.update_of_ne hc ..
  have hpipes : ∀ {c'}, c' ≠ c → (received x.sys c m r rest).clientPipe c' = x.sys.clientPipe c' :=
    fun hc => Function.update_of_ne hc ..
  exact {
    seated := hs
    linear := i.linear.respond (howes.mem (List.mem_singleton_self _))
    outcome := fun k' o' ho' => by
      obtain ⟨m', j', f', hw', hr', howes'⟩ := i.outcome k' o' ho'
      exact ⟨m', j', f', hw', hr', howes'.respond_other (Ne.symm (i.client_ne hpipe hw'))⟩
    answered := fun c' o' ho' => by
      have hc : c' ≠ c := by
        rintro rfl
        simp at ho'
      simp only [hanswers hc] at ho' ⊢
      obtain ⟨m', j', f', hwait', hpipe', hr', hone, howes'⟩ := i.answered c' o' ho'
      exact ⟨m', j', f', (hother hc).trans hwait', by rwa [hpipes hc], hr', hone, howes'.respond_other (Ne.symm hc)⟩
    quiet := fun c' hc' hno => by
      by_cases hc : c' = c
      · subst hc
        exact howes.respond rfl
      · simp only [hanswers hc] at hc'
        exact (i.quiet c' hc' hno).respond_other (Ne.symm hc)
    ready := fun c' m' j' f' hwait' hr' hpipe' => by
      have hc : c' ≠ c := by
        rintro rfl
        cases hself.symm.trans hwait'
      simp only [hanswers hc]
      exact i.ready c' m' j' f' ((hother hc).symm.trans hwait') hr' (by rwa [← hpipes hc])
    numbered := i.numbered
    sent := fun c' m' hwait' => by
      have hc : c' ≠ c := by
        rintro rfl
        cases hself.symm.trans hwait'
      exact i.sent c' m' ((hother hc).symm.trans hwait')
    logged := i.logged
    fresh := fun c' m' hwait' a ha hn => by
      have hc : c' ≠ c := by
        rintro rfl
        cases hself.symm.trans hwait'
      have hwait' := (hother hc).symm.trans hwait'
      rcases List.mem_append.mp ha with ha | ha
      · exact i.fresh c' m' hwait' a ha hn
      · rw [List.mem_singleton.mp ha] at hn
        obtain rfl := i.eq_of_number (i.sent c m hwait) (i.sent c' m' hwait') hn
        obtain ⟨place, hseat⟩ := i.seated
        exact hc ((hseat.sender c' m hwait').1.symm.trans (hseat.sender c m hwait).1) }

theorem receiveOther (i : Served x) {r : Reply} {rest : List Reply} (hwait : x.sys.waiting c = some m)
    (hr : ∀ j f, m.request ≠ .call j f) {active : List Nat}
    (hs : ∃ place, Seated (received x.sys c m r rest) active place) :
    Served { x with sys := received x.sys c m r rest, active := active } := by
  have hother : ∀ {c'}, c' ≠ c → (received x.sys c m r rest).waiting c' = x.sys.waiting c' :=
    fun hc => Function.update_of_ne hc ..
  have hself : (received x.sys c m r rest).waiting c = none := Function.update_self ..
  have hne : ∀ {c' m'}, (received x.sys c m r rest).waiting c' = some m' → c' ≠ c := by
    rintro c' m' h rfl
    cases hself.symm.trans h
  have hpipes : ∀ {c'}, c' ≠ c → (received x.sys c m r rest).clientPipe c' = x.sys.clientPipe c' :=
    fun hc => Function.update_of_ne hc ..
  exact {
    seated := hs
    linear := i.linear
    outcome := i.outcome
    answered := fun c' o' ho' => by
      obtain ⟨m', j', f', hwait', hpipe', hr', hrest⟩ := i.answered c' o' ho'
      have hc : c' ≠ c := by
        rintro rfl
        cases hwait.symm.trans hwait'
        exact hr j' f' hr'
      exact ⟨m', j', f', (hother hc).trans hwait', by rwa [hpipes hc], hr', hrest⟩
    quiet := i.quiet
    ready := fun c' m' j' f' hwait' hr' hpipe' => by
      have hc := hne hwait'
      exact i.ready c' m' j' f' ((hother hc).symm.trans hwait') hr' (by rwa [← hpipes hc])
    numbered := i.numbered
    sent := fun c' m' hwait' => i.sent c' m' ((hother (hne hwait')).symm.trans hwait')
    logged := i.logged
    fresh := fun c' m' hwait' => i.fresh c' m' ((hother (hne hwait')).symm.trans hwait') }

theorem execute_other {s s₁ : Sys Call} (h : execute s k m = some s₁) (hfd : s.clientFd k = m.client)
    (hid : ∀ j ∈ m.request.sessionId, j = k) (hr : ∀ j f, m.request ≠ .call j f) :
    s₁.waiting = s.waiting ∧ s₁.sent = s.sent ∧ s₁.worker = s.worker ∧
      (∀ c, c ≠ m.client → s₁.clientPipe c = s.clientPipe c) ∧ ∀ c, s.clientPipe c ≠ [] → s₁.clientPipe c ≠ [] := by
  have grown : ∀ (t : Sys Call) (r : Reply), t.clientPipe = s.clientPipe → ∀ c,
      (c ≠ m.client → (t.reply m.client r).clientPipe c = s.clientPipe c) ∧
        (s.clientPipe c ≠ [] → (t.reply m.client r).clientPipe c ≠ []) := by
    intro t r ht c
    by_cases hc : c = m.client
    · simp [Sys.reply, hc]
    · simp [Sys.reply, hc, ht]
  unfold execute at h
  split at h
  · cases h
    rw [hfd]
    exact ⟨rfl, rfl, rfl, fun c => (grown s _ rfl c).1, fun c => (grown s _ rfl c).2⟩
  · next j he =>
    obtain rfl := hid j (by rw [he]; rfl)
    split at h
    · cases h
    · cases h
      rw [hfd]
      exact ⟨rfl, rfl, rfl, fun c => (grown _ _ rfl c).1, fun c => (grown _ _ rfl c).2⟩
  · next j f he => exact absurd he (hr j f)
  · cases h
    exact ⟨rfl, rfl, rfl, fun _ _ => rfl, fun _ => id⟩

theorem eq_worker_of_libraryCall {e : Event Call} {f : Call} (h : x.libraryCall e = some (k, m, f)) :
    e = .worker k ∧ x.sys.worker k = .executing (some m) ∧ (∃ j, m.request = .call j f) ∧ x.outcome k = none := by
  cases e with
  | worker k' =>
    simp only [libraryCall] at h
    split at h
    · next m' hw ho =>
      split at h
      · next j f' hr =>
        cases h
        exact ⟨rfl, hw, ⟨j, hr⟩, ho⟩
      all_goals cases h
    · cases h
  | _ => cases h

theorem threads (i : Served x) {active : List Nat} (hs : ∃ place, Seated s' active place)
    (hw : s'.waiting = x.sys.waiting) (hsent : s'.sent = x.sys.sent) (hp : s'.clientPipe = x.sys.clientPipe)
    (hk : ∀ k, (∃ m, x.sys.worker k = .executing (some m)) → x.outcome k ≠ none → s'.worker k = x.sys.worker k) :
    Served { x with sys := s', active := active } := by
  refine i.congr hs hw hsent (fun k ho => hk k ?_ ho) (fun c h => by rwa [hp]) fun c _ _ _ _ _ => congrFun hp c
  obtain ⟨o, ho⟩ := Option.ne_none_iff_exists'.mp ho
  obtain ⟨m, -, -, hw, -⟩ := i.outcome k o ho
  exact ⟨m, hw⟩

theorem worker (i : Served x) {active : List Nat} {w : Worker Call} (hs : ∃ place, Seated s' active place)
    (hw : s'.waiting = x.sys.waiting) (hsent : s'.sent = x.sys.sent) (hp : s'.clientPipe = x.sys.clientPipe)
    (hk : s'.worker = Function.update x.sys.worker k w) (hno : ∀ m, x.sys.worker k ≠ .executing (some m)) :
    Served { x with sys := s', active := active } :=
  i.threads hs hw hsent hp fun k' ⟨m, hm⟩ _ => by
    have hne : k' ≠ k := by
      rintro rfl
      exact hno m hm
    rw [hk, Function.update_of_ne hne]

theorem moved_worker (i : Served x) (hno : ∀ m, x.sys.worker k ≠ .executing (some m)) (s' : Sys Call) :
    x.moved (.worker k) s' = { x with sys := s', active := activeAfter x.sys x.active (.worker k) } := by
  have ho : x.outcome k = none := by
    by_contra hne
    obtain ⟨o, ho⟩ := Option.ne_none_iff_exists'.mp hne
    obtain ⟨m, -, -, hw, -⟩ := i.outcome k o ho
    exact hno m hw
  simp only [moved, ho]

theorem execute (i : Served x) {s₁ : Sys Call} (hw : x.sys.worker k = .executing (some m))
    (he : Sessions.execute x.sys k m = some s₁) (hcall : x.libraryCall (.worker k) = none)
    (hs : ∃ place, Seated { s₁.setWorker k .replied with executed := x.sys.executed ++ [some m] }
      (activeAfter x.sys x.active (.worker k)) place) :
    Served (x.moved (.worker k) { s₁.setWorker k .replied with executed := x.sys.executed ++ [some m] }) := by
  obtain ⟨hwait, hpipe, hans, hfd, hid, hone⟩ := i.executing hw
  have hhandled : handled x.sys (.worker k) = some m := by simp [handled, hw]
  by_cases hr : ∃ j f, m.request = .call j f
  · obtain ⟨j, f, hr⟩ := hr
    cases ho : x.outcome k with
    | none => simp [libraryCall, hw, ho, hr] at hcall
    | some o =>
      simp only [Sessions.execute, hr, Option.some.injEq] at he
      subst he
      have hmoved : ∀ s', x.moved (.worker k) s' = { x with
          sys := s'
          active := activeAfter x.sys x.active (.worker k)
          outcome := Function.update x.outcome k none
          answers := Function.update x.answers (x.sys.clientFd j) (x.answers (x.sys.clientFd j) ++ [o]) } := by
        intro s'
        rcases m with ⟨number, client, request⟩
        obtain rfl : request = .call j f := hr
        simp only [moved, ho, hhandled]
      rw [hmoved]
      exact i.reply hw hr ho hs
  · have hr : ∀ j f, m.request ≠ .call j f := fun j f h => hr ⟨j, f, h⟩
    have ho : x.outcome k = none := by
      by_contra hne
      obtain ⟨o, ho⟩ := Option.ne_none_iff_exists'.mp hne
      obtain ⟨m', j, f, hw', hr', -⟩ := i.outcome k o ho
      cases hw.symm.trans hw'
      exact hr j f hr'
    obtain ⟨h1, h2, h3, h4, h5⟩ := execute_other he hfd hid hr
    have hmoved : ∀ s', x.moved (.worker k) s' = { x with
        sys := s', active := activeAfter x.sys x.active (.worker k) } := fun s' => by simp only [moved, ho]
    rw [hmoved]
    refine i.congr hs h1 h2 (fun k' ho' => ?_) h5 fun c m' j f hwait' hr' => h4 c ?_
    · have hne : k' ≠ k := by
        rintro rfl
        exact ho' ho
      exact (Function.update_of_ne hne ..).trans (congrFun h3 k')
    · rintro rfl
      cases hwait.symm.trans hwait'
      exact hr j f hr'

theorem receive_moved (i : Served x) {r : Reply} {rest : List Reply} (hwait : x.sys.waiting c = some m)
    (hpipe : x.sys.clientPipe c = r :: rest)
    (hs : ∃ place, Seated (received x.sys c m r rest) (activeAfter x.sys x.active (.receive c)) place) :
    Served (x.moved (.receive c) (received x.sys c m r rest)) := by
  rcases m with ⟨number, client, request⟩
  by_cases hr : ∃ j f, request = .call j f
  · obtain ⟨j, f, rfl⟩ := hr
    obtain ⟨o, l, hl⟩ := List.exists_cons_of_ne_nil (i.ready c _ j f hwait rfl (by simp [hpipe]))
    obtain ⟨-, -, -, -, -, -, hans, -⟩ := i.answered c o (by simp [hl])
    have hmoved : ∀ s', x.moved (.receive c) s' = { x with
        sys := s'
        active := activeAfter x.sys x.active (.receive c)
        answers := Function.update x.answers c []
        history := x.history.respond ⟨number, c, f, o⟩ } := fun s' => by simp only [moved, hwait, hans]
    rw [hmoved]
    exact i.receive hwait hpipe rfl hs hans
  · have hmoved : ∀ s', x.moved (.receive c) s' = { x with
        sys := s', active := activeAfter x.sys x.active (.receive c) } := fun s' => by
      cases request with
      | call j f => exact absurd ⟨j, f, rfl⟩ hr
      | _ => simp only [moved, hwait]
    rw [hmoved]
    exact i.receiveOther hwait (fun j f h => hr ⟨j, f, h⟩) hs

theorem waiting_of_courteous {s : Sys Call} {r : Request Call} (h : Courteous s (.send c r)) : s.waiting c = none := by
  cases r <;> exact h.1

theorem step (i : Served x) {e : Event Call} {u : Unit} (hg : Courteous x.sys e ∧ Undivided x.sys e)
    (h : x.advance e = some (u, x')) : Served x' := by
  unfold advance at h
  split at h
  · next k m f hcall =>
    obtain ⟨y, hy, he⟩ := Option.map_eq_some_iff.mp h
    cases he
    obtain ⟨-, hw, ⟨j, hr⟩, ho⟩ := eq_worker_of_libraryCall hcall
    exact i.callLibrary hw hr ho hy
  · next hcall =>
    obtain ⟨⟨u', s'⟩, hs, he⟩ := Option.map_eq_some_iff.mp h
    cases he
    have hm := moves_of_step hs
    obtain ⟨place, hseat⟩ := i.seated
    have hs := hseat.step hg hm
    cases hm with
    | send c r => exact i.send (waiting_of_courteous hg.1) hs
    | receive hwait hpipe => exact i.receive_moved hwait hpipe hs
    | @refuse m rest pipe hmain hp hr =>
      obtain ⟨hwait, -⟩ := hseat.head hp
      obtain rfl := (hseat.sender _ _ hwait).2 pipe hr
      refine i.congr hs rfl rfl (fun _ _ => rfl) (fun c hc => ?_) fun c m' j f hwait' hr' => ?_
      · by_cases hcm : c = m.client
        · simp [Sys.reply, hcm]
        · simpa [Sys.reply, hcm] using hc
      · have hcm : c ≠ m.client := by
          rintro rfl
          cases hwait.symm.trans hwait'
          cases hr.symm.trans hr'
        exact Function.update_of_ne hcm ..
    | mount => exact i.threads hs rfl rfl rfl fun _ _ _ => rfl
    | deposit => exact i.threads hs rfl rfl rfl fun _ _ _ => rfl
    | fill => exact i.threads hs rfl rfl rfl fun _ _ _ => rfl
    | wakeWorker hmain hw => exact i.worker hs rfl rfl rfl rfl (by simp [hw])
    | signalNobody => exact i.threads hs rfl rfl rfl fun _ _ _ => rfl
    | @lock k hw =>
      have hno : ∀ m, x.sys.worker k ≠ .executing (some m) := by rcases hw with hw | hw <;> simp [hw]
      rw [i.moved_worker hno]
      exact i.worker hs rfl rfl rfl rfl hno
    | @seeNull k hw =>
      have hno : ∀ m, x.sys.worker k ≠ .executing (some m) := by simp [hw]
      rw [i.moved_worker hno]
      exact i.worker hs rfl rfl rfl rfl hno
    | @seeBuffer k hw =>
      have hno : ∀ m, x.sys.worker k ≠ .executing (some m) := by simp [hw]
      rw [i.moved_worker hno]
      exact i.worker hs rfl rfl rfl rfl hno
    | @sleep k hw =>
      have hno : ∀ m, x.sys.worker k ≠ .executing (some m) := by simp [hw]
      rw [i.moved_worker hno]
      exact i.worker hs rfl rfl rfl rfl hno
    | @read k content hw hb =>
      have hno : ∀ m, x.sys.worker k ≠ .executing (some m) := by simp [hw]
      rw [i.moved_worker hno]
      exact i.worker hs rfl rfl rfl rfl hno
    | @garbage k hw =>
      have hno : ∀ m, x.sys.worker k ≠ .executing (some m) := by simp [hw]
      rw [i.moved_worker hno]
      exact i.worker hs rfl rfl rfl rfl hno
    | execute hw he => exact i.execute hw he hcall hs
    | @clear k hw =>
      have hno : ∀ m, x.sys.worker k ≠ .executing (some m) := by simp [hw]
      rw [i.moved_worker hno]
      exact i.worker hs rfl rfl rfl rfl hno
    | wake hw => exact i.worker hs rfl rfl rfl rfl (by simp [hw])

end Served

deriving instance DecidableEq for Call

end Serving

end Tecnicofs.Ex2.Sessions
