import PathLedger.Path.Brackets

/-!
# Paths

A path is a list of segments. Texts become paths in two steps: `Path.parse` cuts a text at its
outer dots, `Path.normalize` expands bracket groups into plain segments, and `Path.canonical` does both.

* `Path.key` — the segments joined by dots; the root has the empty key.
* `Path.ofKey` — a key cut at its dots.
* `Path.atOrUnder` — whether a key equals another or lies below it.
-/

namespace PathLedger

/-- A row of segments; the empty row is the root. -/
structure Path where
  segments : List String
deriving DecidableEq, Repr, Inhabited

namespace Path

open Text

def root : Path := ⟨[]⟩

/-- A text cut at its outer dots. Segments are trimmed and empty ones dropped; brackets stay as they are. -/
def parse (raw : String) : Path :=
  ⟨(nonEmpty ((cut 0 none raw.toList).map trim)).map String.ofList⟩

/-- Bracket groups expanded into plain segments. -/
def normalize (p : Path) : Path :=
  ⟨(p.segments.flatMap fun s => expand s.toList).map String.ofList⟩

/-- A text cut and expanded. -/
def canonical (raw : String) : Path := (parse raw).normalize

def joinSegments : List String → String
  | [] => ""
  | [s] => s
  | s :: rest => s ++ "." ++ joinSegments rest

/-- The segments joined by dots. -/
def key (p : Path) : String := joinSegments p.segments

/-- A key cut at its dots; empty pieces are dropped. -/
def ofKey (key : String) : Path :=
  ⟨(nonEmpty (splitAll '.' key.toList)).map String.ofList⟩

def length (p : Path) : Nat := p.segments.length

def isRoot (p : Path) : Bool := p.segments.isEmpty

def last? (p : Path) : Option String := p.segments.getLast?

/-- The path without its last segment; the root stays the root. -/
def parent (p : Path) : Path := ⟨p.segments.dropLast⟩

def take (p : Path) (n : Nat) : Path := ⟨p.segments.take n⟩

/-- The segments behind the first `n`. -/
def drop (p : Path) (n : Nat) : Path := ⟨p.segments.drop n⟩

def child (p : Path) (segment : String) : Path := ⟨p.segments ++ [segment]⟩

def join (p q : Path) : Path := ⟨p.segments ++ q.segments⟩

/-- Whether `top` is the path itself or one of its ancestors. -/
def startsWith (p top : Path) : Bool := top.segments.isPrefixOf p.segments

/-- The path and its ancestors from shallow to deep, without the root. -/
def ancestors (p : Path) : List Path := (List.range' 1 p.length).map p.take

/-- The order of paths: segment by segment, by code points. -/
def order (p q : Path) : Ordering := compare p.segments q.segments

/-- Whether a key equals `top` or lies below it. The empty key is above every key. -/
def atOrUnder (key top : String) : Bool :=
  top.isEmpty || key = top || (top ++ ".").toList.isPrefixOf key.toList

end Path

end PathLedger
