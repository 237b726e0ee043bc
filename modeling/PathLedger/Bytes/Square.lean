/-!
# Squares of words

The working state of both the digest and the stream cipher is a square of sixteen 32-bit words that
is mixed along its columns and along its diagonals.
-/

namespace PathLedger

structure Quad where
  a : UInt32
  b : UInt32
  c : UInt32
  d : UInt32
deriving DecidableEq, Repr

def Quad.toList (q : Quad) : List UInt32 := [q.a, q.b, q.c, q.d]

/-- The first four words of a list; missing words are zero. -/
def Quad.ofList (ws : List UInt32) : Quad := ⟨ws.getD 0 0, ws.getD 1 0, ws.getD 2 0, ws.getD 3 0⟩

def Quad.zip (f : UInt32 → UInt32 → UInt32) (p q : Quad) : Quad :=
  ⟨f p.a q.a, f p.b q.b, f p.c q.c, f p.d q.d⟩

/-- A word turned left by a number of bits below thirty-two. -/
def rotateLeft (x n : UInt32) : UInt32 := (x <<< n) ||| (x >>> (32 - n))

/-- Four rows of four words. -/
structure Square where
  r₀ : Quad
  r₁ : Quad
  r₂ : Quad
  r₃ : Quad
deriving DecidableEq, Repr

namespace Square

def toList (s : Square) : List UInt32 := s.r₀.toList ++ s.r₁.toList ++ s.r₂.toList ++ s.r₃.toList

/-- Every column changed; the function is told the number of the column. -/
def mapColumns (f : Nat → Quad → Quad) (s : Square) : Square :=
  let p := f 0 ⟨s.r₀.a, s.r₁.a, s.r₂.a, s.r₃.a⟩
  let q := f 1 ⟨s.r₀.b, s.r₁.b, s.r₂.b, s.r₃.b⟩
  let r := f 2 ⟨s.r₀.c, s.r₁.c, s.r₂.c, s.r₃.c⟩
  let t := f 3 ⟨s.r₀.d, s.r₁.d, s.r₂.d, s.r₃.d⟩
  ⟨⟨p.a, q.a, r.a, t.a⟩, ⟨p.b, q.b, r.b, t.b⟩, ⟨p.c, q.c, r.c, t.c⟩, ⟨p.d, q.d, r.d, t.d⟩⟩

/-- Every falling diagonal changed; the function is told the column in which it starts. -/
def mapDiagonals (f : Nat → Quad → Quad) (s : Square) : Square :=
  let p := f 0 ⟨s.r₀.a, s.r₁.b, s.r₂.c, s.r₃.d⟩
  let q := f 1 ⟨s.r₀.b, s.r₁.c, s.r₂.d, s.r₃.a⟩
  let r := f 2 ⟨s.r₀.c, s.r₁.d, s.r₂.a, s.r₃.b⟩
  let t := f 3 ⟨s.r₀.d, s.r₁.a, s.r₂.b, s.r₃.c⟩
  ⟨⟨p.a, q.a, r.a, t.a⟩, ⟨t.b, p.b, q.b, r.b⟩, ⟨r.c, t.c, p.c, q.c⟩, ⟨q.d, r.d, t.d, p.d⟩⟩

def zip (f : UInt32 → UInt32 → UInt32) (s t : Square) : Square :=
  ⟨s.r₀.zip f t.r₀, s.r₁.zip f t.r₁, s.r₂.zip f t.r₂, s.r₃.zip f t.r₃⟩

end Square

end PathLedger
