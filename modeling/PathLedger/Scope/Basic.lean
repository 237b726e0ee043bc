import PathLedger.Dict
import PathLedger.Digest.Blake3
import PathLedger.Path.Basic

/-!
# Secrets and noises

Secrets and noises are declared at scopes. Every path has an effective secret, a digest chain over
the secrets along it; a noise starts the chain anew and cuts off every secret above it. An empty
secret text counts as none.

* `Scopes.effectiveSecret` — the end of the chain, empty for paths in clear.
* `Scopes.branchScope?` — the deepest scope at or above a path that has a secret.
* `Scopes.hidingScope?` — that scope when it is not the root: everything at or below it is kept out of the
  index.
-/

namespace PathLedger

/-- The declared secrets and noises by scope key. -/
structure Scopes where
  secrets : Dict String String
  noises : Dict String String
deriving DecidableEq

namespace Scopes

def empty : Scopes := ⟨.empty, .empty⟩

instance : Inhabited Scopes := ⟨empty⟩

def declareSecret (s : Scopes) (scope : Path) (secret : String) : Scopes :=
  ⟨s.secrets.insert scope.key secret, s.noises⟩

def declareNoise (s : Scopes) (scope : Path) (noise : String) : Scopes :=
  ⟨s.secrets, s.noises.insert scope.key noise⟩

/-- The declarations that are not at or below a path. -/
def purgeUnder (s : Scopes) (p : Path) : Scopes :=
  ⟨s.secrets.filter fun k _ => !Path.atOrUnder k p.key,
    s.noises.filter fun k _ => !Path.atOrUnder k p.key⟩

/-- The secret declared exactly at a key, unless it is empty. -/
def liveSecret? (s : Scopes) (key : String) : Option String :=
  (s.secrets.get? key).filter fun t => !t.isEmpty

/-- The seed of a chain before any declaration. -/
def rootSeed : String := "root"

/-- The seed with one more secret. -/
def chain (seed secret : String) : String := digestText (seed ++ "::" ++ secret)

/-- The key and the text of the deepest noise at or above a path. -/
def noiseOver? (s : Scopes) (p : Path) : Option (String × String) :=
  p.ancestors.foldl
    (fun found a =>
      match s.noises.get? a.key with
      | some text => some (a.key, text)
      | none => found)
    ((s.noises.get? "").map fun text => ("", text))

/-- Where the chain of a path starts: at its noise, unless that is empty, or else at the root secret. -/
def seedOf (s : Scopes) (noise : Option (String × String)) : String :=
  match noise.filter fun n => !n.2.isEmpty with
  | some n => digestText ("noise::" ++ n.2)
  | none =>
    match s.liveSecret? "" with
    | some secret => chain rootSeed secret
    | none => rootSeed

/-- The effective secret of a path: the secrets at and above it, from shallow to deep, as far as they are at
or below its noise. -/
def effectiveSecret (s : Scopes) (p : Path) : String :=
  let noise := s.noiseOver? p
  let seed := p.ancestors.foldl
    (fun seed a =>
      match s.liveSecret? a.key with
      | none => seed
      | some secret =>
        if noise.all fun n => Path.atOrUnder a.key n.1 then chain seed secret else seed)
    (s.seedOf noise)
  if seed = rootSeed then "" else seed

/-- The deepest scope at or above a path that has a secret. -/
def branchScope? (s : Scopes) (p : Path) : Option Path :=
  p.ancestors.foldl
    (fun found a => if (s.liveSecret? a.key).isSome then some a else found)
    ((s.liveSecret? "").map fun _ => Path.root)

/-- The scope that hides a path, if any. -/
def hidingScope? (s : Scopes) (p : Path) : Option Path :=
  (s.branchScope? p).filter fun scope => !scope.isRoot && p.startsWith scope

end Scopes

end PathLedger
