import Tecnicofs.Ex2.Linearizable
import Tecnicofs.Ex2.Refinement

namespace Tecnicofs.Ex2.Sessions.Serving

open Histories

def Allowed (x : Serving) (e : Event Call) : Prop :=
  match x.libraryCall e with
  | some (_, _, f) => Admissible x.lib f
  | none => True

instance (x : Serving) (e : Event Call) : Decidable (Allowed x e) :=
  match h : x.libraryCall e with
  | some (_, _, f) => decidable_of_iff (Admissible x.lib f) (by rw [Allowed, h])
  | none => isTrue (by rw [Allowed, h]; trivial)

variable {x x' : Serving} {e : Event Call} {u : Unit}

end Tecnicofs.Ex2.Sessions.Serving
