import Tecnicofs.Spec.ByteFs

namespace Tecnicofs

open Bytes

namespace ByteFs

variable {N : Type} {P : N → Prop} {fs fs' : ByteFs N} {l : Limits} {m n : N} {h k o o' : Nat}
  {bytes bytes' : List UInt8}

/-- The two have the same names, and handles on the same files; files that satisfy `P` have the same bytes, and their
handles the same offsets. -/
structure Alike (P : N → Prop) (fs fs' : ByteFs N) : Prop where
  names : fs'.names = fs.names
  contents : ∀ n, P n → fs'.contents n = fs.contents n
  files : ∀ h, (fs'.handles h).map Prod.fst = (fs.handles h).map Prod.fst
  offset : ∀ h n o, P n → fs.handles h = some (n, o) → fs'.handles h = some (n, o)

def On (P : N → Prop) (fs : ByteFs N) (h : Nat) : Prop := ∃ n o, P n ∧ fs.handles h = some (n, o)

theorem On.file (h : fs.On P k) (hh : fs.handles k = some (n, o)) : P n := by
  obtain ⟨m, j, hm, he⟩ := h
  cases hh.symm.trans he
  exact hm

namespace Alike

theorem refl (P : N → Prop) (fs : ByteFs N) : Alike P fs fs := ⟨rfl, fun _ _ => rfl, fun _ => rfl, fun _ _ _ _ he => he⟩

theorem setHandle (a : Alike P fs fs') {x x' : Option (N × Nat)} (hx : x'.map Prod.fst = x.map Prod.fst)
    (ho : ∀ n o, P n → x = some (n, o) → x' = some (n, o)) : Alike P (fs.setHandle h x) (fs'.setHandle h x') where
  names := a.names
  contents := a.contents
  files k := by
    simp only [ByteFs.setHandle]
    by_cases hk : k = h
    · rw [hk, Function.update_self, Function.update_self, hx]
    · rw [Function.update_of_ne hk, Function.update_of_ne hk, a.files]
  offset k n o hn he := by
    simp only [ByteFs.setHandle] at he ⊢
    by_cases hk : k = h
    · rw [hk, Function.update_self] at he ⊢
      exact ho n o hn he
    · rw [Function.update_of_ne hk] at he ⊢
      exact a.offset k n o hn he

theorem setOpen (a : Alike P fs fs') (ho : P n → o' = o) :
    Alike P (fs.setHandle h (some (n, o))) (fs'.setHandle h (some (n, o'))) :=
  a.setHandle rfl fun m k hm he => by
    cases he
    rw [ho hm]

theorem isNone (a : Alike P fs fs') (h : Nat) : (fs'.handles h).isNone = (fs.handles h).isNone := by
  rw [← Option.isNone_map (f := Prod.fst), a.files, Option.isNone_map]

theorem handle (a : Alike P fs fs') (hh : fs.handles h = some (n, o)) :
    ∃ o', fs'.handles h = some (n, o') ∧ (P n → o' = o) := by
  have hf := a.files h
  rw [hh] at hf
  obtain ⟨x, hx, rfl⟩ := Option.map_eq_some_iff.mp hf
  refine ⟨x.2, hx, fun hn => ?_⟩
  have he := a.offset h x.1 o hn hh
  rw [hx] at he
  exact congrArg Prod.snd (Option.some.inj he)

theorem closed (a : Alike P fs fs') (hh : fs.handles h = none) : fs'.handles h = none := by
  have hn := a.isNone h
  rwa [hh, Option.isNone_none, Option.isNone_iff_eq_none] at hn

theorem on_iff (a : Alike P fs fs') : fs'.On P h ↔ fs.On P h := by
  constructor
  · rintro ⟨n, o, hn, hh⟩
    have hf := a.files h
    rw [hh] at hf
    obtain ⟨x, hx, hxn⟩ := Option.map_eq_some_iff.mp hf.symm
    refine ⟨n, x.2, hn, ?_⟩
    rw [hx, ← show x.1 = n from hxn]
  · rintro ⟨n, o, hn, hh⟩
    exact ⟨n, o, hn, a.offset h n o hn hh⟩

theorem openHandle (a : Alike P fs fs') (ho : P n → o' = o) :
    (fs'.openHandle l n o').1 = (fs.openHandle l n o).1 ∧
      Alike P (fs.openHandle l n o).2 (fs'.openHandle l n o').2 := by
  unfold ByteFs.openHandle
  rw [funext a.isNone]
  cases (List.range l.maxHandles).find? fun h => (fs.handles h).isNone with
  | none => exact ⟨rfl, a⟩
  | some h => exact ⟨rfl, a.setOpen ho⟩

theorem close (a : Alike P fs fs') (h : Nat) :
    (fs'.close h).1 = (fs.close h).1 ∧ Alike P (fs.close h).2 (fs'.close h).2 := by
  unfold ByteFs.close
  cases hh : fs.handles h with
  | none =>
    rw [a.closed hh]
    exact ⟨rfl, a⟩
  | some x =>
    obtain ⟨o', hh', -⟩ := a.handle hh
    rw [hh']
    exact ⟨rfl, a.setHandle rfl fun _ _ _ he => nomatch he⟩

theorem read (a : Alike P fs fs') {len len' : Nat} (hlen : fs.On P h → len' = len) :
    (fs.On P h → (fs'.read h len').1 = (fs.read h len).1) ∧ Alike P (fs.read h len).2 (fs'.read h len').2 := by
  unfold ByteFs.read
  cases hh : fs.handles h with
  | none =>
    rw [a.closed hh]
    exact ⟨fun _ => rfl, a⟩
  | some x =>
    obtain ⟨n, o⟩ := x
    obtain ⟨o', hh', ho⟩ := a.handle hh
    rw [hh']
    have hbytes : P n → ((fs'.contents n).drop o').take len' = ((fs.contents n).drop o).take len := fun hn => by
      rw [hlen ⟨n, o, hn, hh⟩, ho hn, a.contents n hn]
    refine ⟨fun h => ?_, a.setOpen fun hn => ?_⟩
    · simp only [hbytes (h.file hh)]
    · rw [hbytes hn, ho hn]

variable [DecidableEq N]

theorem setContents (a : Alike P fs fs') (hb : P n → bytes' = bytes) :
    Alike P (fs.setContents n bytes) (fs'.setContents n bytes') where
  names := a.names
  contents m hm := by
    simp only [ByteFs.setContents]
    by_cases hmn : m = n
    · subst hmn
      rw [Function.update_self, Function.update_self, hb hm]
    · rw [Function.update_of_ne hmn, Function.update_of_ne hmn, a.contents m hm]
  files := a.files
  offset := a.offset

theorem create (a : Alike P fs fs') (n : N) : Alike P (fs.create n) (fs'.create n) :=
  setContents ⟨congrArg (· ++ [n]) a.names, a.contents, a.files, a.offset⟩ fun _ => rfl

theorem openFile (a : Alike P fs fs') (name : Option N) (creat : Bool) {trunc trunc' append append' : Bool}
    (hflags : ∀ n ∈ name, P n → trunc' = trunc ∧ append' = append) :
    (fs'.openFile l name creat trunc' append').1 = (fs.openFile l name creat trunc append).1 ∧
      Alike P (fs.openFile l name creat trunc append).2 (fs'.openFile l name creat trunc' append').2 := by
  cases name with
  | none => exact ⟨rfl, a⟩
  | some n =>
    have hflags := hflags n rfl
    rw [ByteFs.openFile, ByteFs.openFile, a.names]
    by_cases hn : n ∈ fs.names
    · rw [if_pos hn, if_pos hn]
      have hb : Alike P (if trunc = true then fs.setContents n [] else fs)
          (if trunc' = true then fs'.setContents n [] else fs') := by
        by_cases hp : P n
        · rw [(hflags hp).1]
          split
          · exact a.setContents fun _ => rfl
          · exact a
        · have hno : ∀ {b b' : List UInt8}, P n → b' = b := fun h => absurd h hp
          cases trunc <;> cases trunc'
          · exact a
          · have hset : Alike P (fs.setContents n (fs.contents n)) (fs'.setContents n []) := a.setContents hno
            rwa [setContents_self] at hset
          · have hset : Alike P (fs.setContents n []) (fs'.setContents n (fs'.contents n)) := a.setContents hno
            rwa [setContents_self] at hset
          · exact a.setContents hno
      refine hb.openHandle fun hp => ?_
      rw [(hflags hp).2, hb.contents n hp]
    · rw [if_neg hn, if_neg hn]
      split
      · exact (a.create n).openHandle fun _ => rfl
      · exact ⟨rfl, a⟩

theorem write (a : Alike P fs fs') {buffer buffer' : List UInt8} (hb : fs.On P h → buffer' = buffer) :
    (fs.On P h → (fs'.write l h buffer').1 = (fs.write l h buffer).1) ∧
      Alike P (fs.write l h buffer).2 (fs'.write l h buffer').2 := by
  unfold ByteFs.write
  cases hh : fs.handles h with
  | none =>
    rw [a.closed hh]
    exact ⟨fun _ => rfl, a⟩
  | some x =>
    obtain ⟨n, o⟩ := x
    obtain ⟨o', hh', ho⟩ := a.handle hh
    rw [hh']
    have hbuffer : P n → buffer' = buffer := fun hn => hb ⟨n, o, hn, hh⟩
    refine ⟨fun h => by rw [hbuffer (h.file hh), ho (h.file hh)], (a.setContents fun hn => ?_).setOpen fun hn => ?_⟩
    · rw [hbuffer hn, ho hn, a.contents n hn]
    · rw [hbuffer hn, ho hn]

end Alike

end ByteFs

/-- The calls whose answers the owner of some handles sees. -/
def Seen (on : Int → Prop) : Call → Prop
  | .open _ _ | .close _ => True
  | .write fhandle _ | .read fhandle _ => on fhandle

/-- The same call, up to what is read, written, appended to or truncated of files that do not satisfy `P`. -/
def SameCall (P : List UInt8 → Prop) (on : Int → Prop) : Call → Call → Prop
  | .open name flags, .open name' flags' =>
    name' = name ∧ hasFlag flags' tfsOCreat = hasFlag flags tfsOCreat ∧ ((∃ n ∈ fileName name, P n) → flags' = flags)
  | .close fhandle, .close fhandle' => fhandle' = fhandle
  | .write fhandle buffer, .write fhandle' buffer' => fhandle' = fhandle ∧ (on fhandle → buffer' = buffer)
  | .read fhandle len, .read fhandle' len' => fhandle' = fhandle ∧ (on fhandle → len' = len)
  | _, _ => False

instance {on : Int → Prop} [DecidablePred on] : ∀ c, Decidable (Seen on c)
  | .open _ _ | .close _ => isTrue trivial
  | .write _ _ | .read _ _ => inferInstanceAs (Decidable (on _))

instance {P : List UInt8 → Prop} {on : Int → Prop} [DecidablePred P] [DecidablePred on] :
    ∀ c c', Decidable (SameCall P on c c')
  | .open _ _, .open _ _ => inferInstanceAs (Decidable (_ ∧ _ ∧ ((∃ n ∈ _, _) → _)))
  | .close _, .close _ => inferInstanceAs (Decidable (_ = _))
  | .write _ _, .write _ _ | .read _ _, .read _ _ => inferInstanceAs (Decidable (_ ∧ (_ → _)))
  | .open _ _, .close _ | .open _ _, .write _ _ | .open _ _, .read _ _ => isFalse id
  | .close _, .open _ _ | .close _, .write _ _ | .close _, .read _ _ => isFalse id
  | .write _ _, .open _ _ | .write _ _, .close _ | .write _ _, .read _ _ => isFalse id
  | .read _ _, .open _ _ | .read _ _, .close _ | .read _ _, .write _ _ => isFalse id

def Call.handle : Call → Option Int
  | .open _ _ => none
  | .close fhandle | .write fhandle _ | .read fhandle _ => some fhandle

section
variable {P : List UInt8 → Prop} {on on' : Int → Prop} {c c' : Call}

theorem Seen.congr (h : ∀ fhandle ∈ c.handle, on' fhandle ↔ on fhandle) : Seen on' c ↔ Seen on c := by
  cases c with
  | «open» | close => exact Iff.rfl
  | write fhandle buffer => exact h fhandle rfl
  | read fhandle len => exact h fhandle rfl

theorem SameCall.congr (h : ∀ fhandle ∈ c.handle, on' fhandle ↔ on fhandle) : SameCall P on' c c' ↔ SameCall P on c c' := by
  cases c with
  | «open» | close => cases c' <;> exact Iff.rfl
  | write fhandle buffer => cases c' <;> simp only [SameCall, h fhandle rfl]
  | read fhandle len => cases c' <;> simp only [SameCall, h fhandle rfl]

theorem SameCall.handle (h : SameCall P on c c') : c'.handle = c.handle := by
  cases c <;> cases c' <;> first | exact h.elim | rfl | exact congrArg some h | exact congrArg some h.1

theorem SameCall.seen (h : SameCall P on c c') : Seen on' c' ↔ Seen on' c := by
  cases c <;> cases c' <;> first | exact h.elim | exact Iff.rfl | exact Iff.of_eq (congrArg on' h.1)

end

theorem ByteFs.Alike.call {P : List UInt8 → Prop} {fs fs' : ByteFs (List UInt8)} {l : Limits} {c c' : Call}
    (a : Alike P fs fs') (hc : SameCall P (fun fhandle => fs.On P fhandle.toNat) c c') :
    Option.Rel (fun x y => Alike P x.2 y.2 ∧ (Seen (fun fhandle => fs.On P fhandle.toNat) c → x.1 = y.1))
      (fs.call l c) (fs'.call l c') := by
  cases c with
  | «open» name flags =>
    cases c' with
    | «open» name' flags' =>
      obtain ⟨rfl, hcreat, hflags⟩ := hc
      have hboth : ∀ n ∈ fileName name', P n →
          hasFlag flags' tfsOTrunc = hasFlag flags tfsOTrunc ∧ hasFlag flags' tfsOAppend = hasFlag flags tfsOAppend := by
        intro n hn hp
        rw [hflags ⟨n, hn, hp⟩]
        exact ⟨rfl, rfl⟩
      obtain ⟨hret, ha⟩ := a.openFile (l := l) (fileName name') (hasFlag flags tfsOCreat) hboth
      simp only [ByteFs.call, hcreat]
      exact .some ⟨ha, fun _ => congrArg (Out.mk · []) hret.symm⟩
    | _ => exact hc.elim
  | close fhandle =>
    cases c' with
    | close fhandle' =>
      obtain rfl : fhandle' = fhandle := hc
      obtain ⟨hret, ha⟩ := a.close fhandle'.toNat
      exact .some ⟨ha, fun _ => congrArg (Out.mk · []) hret.symm⟩
    | _ => exact hc.elim
  | write fhandle buffer =>
    cases c' with
    | write fhandle' buffer' =>
      obtain ⟨rfl, hb⟩ := hc
      obtain ⟨hret, ha⟩ := a.write (l := l) hb
      exact .some ⟨ha, fun hs => congrArg (Out.mk · []) (hret hs).symm⟩
    | _ => exact hc.elim
  | read fhandle len =>
    cases c' with
    | read fhandle' len' =>
      obtain ⟨rfl, hlen⟩ := hc
      obtain ⟨hret, ha⟩ := a.read hlen
      exact .some ⟨ha, fun hs => (hret hs).symm⟩
    | _ => exact hc.elim

end Tecnicofs
