import Tecnicofs.Ex1.Truncating
import Tecnicofs.Spec.Alike

namespace Tecnicofs.Ex1

open Bytes

def NamedBy (paths : List CString) (n : List UInt8) : Prop := ∃ path ∈ paths, fileName (some path) = some n

def OnAny (paths : List CString) (s : State) (fhandle : Int) : Prop :=
  ∃ path ∈ paths, lookup s (some path) = (s.openFileTable fhandle.toNat).ofInumber

instance (paths : List CString) (n : List UInt8) : Decidable (NamedBy paths n) :=
  inferInstanceAs (Decidable (∃ path ∈ paths, _))

instance (paths : List CString) (s : State) (fhandle : Int) : Decidable (OnAny paths s fhandle) :=
  inferInstanceAs (Decidable (∃ path ∈ paths, _))

def SeenBy (paths : List CString) (s : State) (c : Call) : Bool := decide (Seen (OnAny paths s) c)

variable {paths : List CString} {es : List DirEntry} {owner : Owner} {s s' : State} {fs fs' : ByteFs (List UInt8)}
  {c c' : Call}

theorem SucceedsTruncatingAtStart.isOpen (hc : SucceedsTruncatingAtStart s c) :
    ∀ fhandle ∈ c.handle, s.toOpenFiles.IsOpen fhandle := by
  intro fhandle hmem
  cases c with
  | «open» => cases hmem
  | close => cases hmem; exact hc
  | write => cases hmem; exact hc.1
  | read => cases hmem; exact hc

theorem Simulates.onAny_iff (r : Simulates es owner s fs) {fhandle : Int} (ho : s.toOpenFiles.IsOpen fhandle) :
    OnAny paths s fhandle ↔ fs.On (NamedBy paths) fhandle.toNat := by
  obtain ⟨f, hf, rfl, ht⟩ := ho.exists
  obtain ⟨k, hk, hon, hhandle⟩ := r.onFile hf ht
  have hinumber : (s.openFileTable f).ofInumber = (k + 1 : Nat) := hon.inumber
  rw [OnAny, Int.toNat_natCast, hinumber]
  constructor
  · rintro ⟨path, hpath, hl⟩
    by_cases hv : validPathname (some path) = true
    · obtain ⟨j, hj, hn, he⟩ := r.found hv hl
      obtain rfl : k = j := Nat.succ.inj he
      exact ⟨_, _, ⟨path, hpath, (Simulates.fileName_of_valid hv).trans (congrArg some hn.symm)⟩, hhandle⟩
    · rw [lookup_of_not_valid hv] at hl
      omega
  · rintro ⟨n, o, ⟨path, hpath, hname⟩, hh⟩
    cases hhandle.symm.trans hh
    have hv : validPathname (some path) = true := by
      by_contra hv
      rw [Simulates.fileName_of_not_valid hv] at hname
      cases hname
    rw [Simulates.fileName_of_valid hv, Option.some.injEq] at hname
    refine ⟨path, hpath, ?_⟩
    rw [r.listed.lookup hv]
    rcases lookupEntry_cases es path.tail with ⟨j, hj, hn, he⟩ | ⟨hno, -⟩
    · obtain rfl : j = k := r.represents.eq_of_name hj hk (hn.trans hname)
      rw [he, r.listed.inumber j hj]
      rfl
    · exact absurd hname.symm (hno _ (List.getElem_mem hk))

def Alike (paths : List CString) (s s' : State) : Prop :=
  ∃ fs fs', (∃ es owner, Simulates es owner s fs) ∧ (∃ es owner, Simulates es owner s' fs') ∧
    ByteFs.Alike (NamedBy paths) fs fs'

theorem Alike.call (h : Alike paths s s') (hsame : SameCall (NamedBy paths) (OnAny paths s) c c')
    (hc : SucceedsTruncatingAtStart s c) (hc' : SucceedsTruncatingAtStart s' c') : SeenBy paths s c = SeenBy paths s' c' ∧
      Option.Rel (fun x y => Alike paths x.2 y.2 ∧ (SeenBy paths s c → x.1 = y.1)) (s.call c) (s'.call c') := by
  obtain ⟨fs, fs', ⟨es, owner, r⟩, ⟨es', owner', r'⟩, ha⟩ := h
  have hon : ∀ fhandle ∈ c.handle, OnAny paths s fhandle ↔ fs.On (NamedBy paths) fhandle.toNat :=
    fun fhandle hmem => r.onAny_iff (hc.isOpen fhandle hmem)
  have hon' : ∀ fhandle ∈ c'.handle, OnAny paths s' fhandle ↔ OnAny paths s fhandle := fun fhandle hmem => by
    rw [r'.onAny_iff (hc'.isOpen fhandle hmem), ha.on_iff, hon fhandle (hsame.handle ▸ hmem)]
  have hspec := ha.call (l := limits) ((SameCall.congr hon).mp hsame)
  obtain ⟨o, s₁, fs₁, hs, hfs, hr⟩ := r.callTruncating hc
  obtain ⟨o', s₁', fs₁', hs', hfs', hr'⟩ := r'.callTruncating hc'
  rw [hfs, hfs'] at hspec
  obtain ⟨ha₁, hanswer⟩ := Option.rel_some_some.mp hspec
  refine ⟨decide_eq_decide.mpr ((Seen.congr hon').trans hsame.seen).symm, ?_⟩
  rw [hs, hs']
  exact .some ⟨⟨fs₁, fs₁', hr, hr', ha₁⟩, fun hseen => hanswer ((Seen.congr hon).mp (of_decide_eq_true hseen))⟩

theorem Alike.lockedCall {x x' : LockedState} (h : Alike paths x.toState x'.toState)
    (hsame : SameCall (NamedBy paths) (OnAny paths x.toState) c c') (hc : SucceedsTruncatingAtStart x.toState c ∧ x.Grants c)
    (hc' : SucceedsTruncatingAtStart x'.toState c' ∧ x'.Grants c') : SeenBy paths x.toState c = SeenBy paths x'.toState c' ∧
      Option.Rel (fun y z => Alike paths y.2.toState z.2.toState ∧ (SeenBy paths x.toState c → y.1 = z.1))
        (x.call c) (x'.call c') := by
  obtain ⟨hseen, hrel⟩ := h.call hsame hc.1 hc'.1
  refine ⟨hseen, ?_⟩
  cases hs : x.toState.call c with
  | none =>
    cases hs' : x'.toState.call c' with
    | none =>
      rw [x.call_eq_none hs, x'.call_eq_none hs']
      exact .none
    | some z =>
      rw [hs, hs'] at hrel
      cases hrel
  | some y =>
    cases hs' : x'.toState.call c' with
    | none =>
      rw [hs, hs'] at hrel
      cases hrel
    | some z =>
      obtain ⟨y', hy, hye⟩ := x.call_of_grants hc.2 hs
      obtain ⟨z', hz, hze⟩ := x'.call_of_grants hc'.2 hs'
      rw [hs, hs'] at hrel
      have hboth := Option.rel_some_some.mp hrel
      rw [← hye, ← hze] at hboth
      rw [hy, hz]
      exact .some hboth

/-- In two runs whose locks are granted, each from any memory, that make the same calls up to what they read, write, append
to and truncate of other files, the users of these files get the same answers. -/
theorem files_isolated (paths : List CString) (s₀ s₀' : State) :
    ∃ s s', tfsInit s₀ = some (0, s) ∧ tfsInit s₀' = some (0, s') ∧ ∀ cs cs',
      Runs.AlongPair LockedState.call (fun x c c' => SameCall (NamedBy paths) (OnAny paths x.toState) c c' ∧
        SucceedsTruncatingAtStart x.toState c ∧ x.Grants c) (.ofState s) cs cs' →
      Runs.Along LockedState.call (fun x c => SucceedsTruncatingAtStart x.toState c ∧ x.Grants c) (.ofState s') cs' →
      Runs.observe LockedState.call (fun x => SeenBy paths x.toState) (.ofState s) cs =
        Runs.observe LockedState.call (fun x => SeenBy paths x.toState) (.ofState s') cs' := by
  refine ⟨_, _, tfsInit_eq s₀, tfsInit_eq s₀', fun cs cs' ha ha' => ?_⟩
  have hinit : Alike paths (initialised s₀) (initialised s₀') :=
    ⟨.empty, .empty, ⟨_, _, initialised_simulates s₀⟩, ⟨_, _, initialised_simulates s₀'⟩, .refl _ _⟩
  exact Runs.observe_congr_along (R := fun x x' => Alike paths x.toState x'.toState)
    (fun x x' c c' h hg hg' => h.lockedCall hg.1 hg.2 hg') hinit ha ha'

/-- The other file has one byte or more than a block, and is truncated in the second run. -/
theorem files_isolated_append :
    let f : CString := ⟨[47, 102], by decide⟩
    let g : CString := ⟨[47, 103], by decide⟩
    let cs := fun (bytes : List UInt8) (flags : Int) (len : Nat) => [.open (some f) tfsOCreat, .open (some g) tfsOCreat,
      .write 1 bytes, .write 0 [1, 2], .close 1, .open (some g) flags, .open (some f) tfsOAppend, .read 1 len,
      .write 2 [3], .read 0 9]
    ∃ s s', tfsInit .zero = some (0, s) ∧ tfsInit { State.zero with fsData := fun _ => 7 } = some (0, s') ∧
      Runs.observe LockedState.call (fun x => SeenBy [f] x.toState) (.ofState s) (cs [4] 0 9) =
        Runs.observe LockedState.call (fun x => SeenBy [f] x.toState) (.ofState s')
          (cs (List.replicate (blockSize + 1) 5) tfsOTrunc 3) := by
  intro f g cs
  obtain ⟨s, s', hs, hs', h⟩ := files_isolated [f] .zero { State.zero with fsData := fun _ => 7 }
  refine ⟨s, s', hs, hs', h _ _ ?_ ?_⟩
  · cases (tfsInit_eq _).symm.trans hs
    decide +kernel
  · cases (tfsInit_eq _).symm.trans hs'
    decide +kernel

end Tecnicofs.Ex1
