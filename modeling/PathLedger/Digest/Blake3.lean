import PathLedger.Bytes.Hex
import PathLedger.Bytes.Square

/-!
# The BLAKE3 digest

The tree hash with 32-byte results, in its three modes.

* `Blake3.hash`, `Blake3.keyedHash`, `Blake3.deriveKey` — plain digest, digest under a key, key from a
  context text and key material.
* `Blake3.compress` — the compression of one 64-byte block into a chaining value.
* `digestText` — the digest of a text in hexadecimal; record hashes and secret chains are made of it.
-/

namespace PathLedger.Blake3

/-- The marks that tell blocks apart. -/
structure Flags where
  bits : UInt32
deriving DecidableEq, Repr

def Flags.and (f g : Flags) : Flags := ⟨f.bits ||| g.bits⟩

def Flags.chunkStart : Flags := ⟨1⟩

def Flags.chunkEnd : Flags := ⟨2⟩

def Flags.parent : Flags := ⟨4⟩

def Flags.root : Flags := ⟨8⟩

def Flags.plain : Flags := ⟨0⟩

def Flags.keyed : Flags := ⟨16⟩

/-- The context of a derived key. -/
def Flags.context : Flags := ⟨32⟩

/-- The material of a derived key. -/
def Flags.material : Flags := ⟨64⟩

/-- Eight words that stand for everything hashed below a node. -/
structure Chaining where
  low : Quad
  high : Quad
deriving DecidableEq, Repr

def Chaining.toList (c : Chaining) : List UInt32 := c.low.toList ++ c.high.toList

def Chaining.ofList (ws : List UInt32) : Chaining := ⟨.ofList ws, .ofList (ws.drop 4)⟩

/-- The words with which plain hashing starts. -/
def initial : Chaining :=
  ⟨⟨0x6a09e667, 0xbb67ae85, 0x3c6ef372, 0xa54ff53a⟩,
    ⟨0x510e527f, 0x9b05688c, 0x1f83d9ab, 0x5be0cd19⟩⟩

/-- The order in which the words of a block are taken in the next round. -/
def schedule : List Nat := [2, 6, 3, 10, 7, 0, 4, 13, 1, 11, 12, 5, 9, 14, 15, 8]

/-- Two words of the block mixed into four words of the state. -/
def mix (x y : UInt32) (q : Quad) : Quad :=
  let a := q.a + q.b + x
  let d := rotateLeft (q.d ^^^ a) 16
  let c := q.c + d
  let b := rotateLeft (q.b ^^^ c) 20
  let a := a + b + y
  let d := rotateLeft (d ^^^ a) 24
  let c := c + d
  let b := rotateLeft (b ^^^ c) 25
  ⟨a, b, c, d⟩

/-- One round: the columns take the first eight words of the block, the diagonals the others. -/
def round (block : Array UInt32) (s : Square) : Square :=
  let column := fun i q => mix (block.getD (2 * i) 0) (block.getD (2 * i + 1) 0) q
  let diagonal := fun i q => mix (block.getD (2 * i + 8) 0) (block.getD (2 * i + 9) 0) q
  (s.mapColumns column).mapDiagonals diagonal

/-- A number of rounds, the block being reordered between them. -/
def rounds : Nat → Array UInt32 → Square → Square
  | 0, _, s => s
  | n + 1, block, s =>
    rounds n (schedule.toArray.map fun i => block.getD i 0) (round block s)

/-- One block compressed under a chaining value. -/
def compress (cv : Chaining) (block : Array UInt32) (counter : Nat) (length : Nat) (flags : Flags) :
    Chaining :=
  let s : Square :=
    ⟨cv.low, cv.high, initial.low,
      ⟨UInt32.ofNat counter, UInt32.ofNat (counter / Nat.pow 2 32), UInt32.ofNat length, flags.bits⟩⟩
  let t := rounds 7 block s
  ⟨t.r₀.zip (· ^^^ ·) t.r₂, t.r₁.zip (· ^^^ ·) t.r₃⟩

/-- One block of at most 64 bytes compressed. -/
def compressBytes (cv : Chaining) (block : Bytes) (counter : Nat) (flags : Flags) : Chaining :=
  compress cv (Bytes.words (Bytes.padTo 64 block)).toArray counter block.length flags

/-- The blocks of a chunk behind the first, in turn; the last one has the closing marks. -/
def chunkRest (counter : Nat) (mode closing : Flags) : Chaining → List Bytes → Chaining
  | cv, [] => cv
  | cv, [block] => compressBytes cv block counter (mode.and closing)
  | cv, block :: rest => chunkRest counter mode closing (compressBytes cv block counter mode) rest

/-- The chaining value of a chunk of at most 1024 bytes. `top` are the marks of a chunk that is the whole
input. -/
def chunk (key : Chaining) (mode top : Flags) (counter : Nat) (input : Bytes) : Chaining :=
  let closing := Flags.chunkEnd.and top
  match Bytes.pieces 64 input with
  | [] => compressBytes key [] counter ((mode.and Flags.chunkStart).and closing)
  | [block] => compressBytes key block counter ((mode.and Flags.chunkStart).and closing)
  | block :: rest =>
    chunkRest counter mode closing
      (compressBytes key block counter (mode.and Flags.chunkStart)) rest

/-- The chaining value of a node over two others. -/
def parentNode (key : Chaining) (mode top : Flags) (left right : Chaining) : Chaining :=
  compress key (left.toList ++ right.toList).toArray 0 64 ((mode.and Flags.parent).and top)

/-- Neighbouring nodes joined pairwise; an odd one at the end stays. -/
def pairUp (key : Chaining) (mode : Flags) : List Chaining → List Chaining
  | a :: b :: r => parentNode key mode Flags.plain a b :: pairUp key mode r
  | r => r

/-- Nodes joined until one is left; the first argument bounds the number of levels. -/
def topNode (key : Chaining) (mode : Flags) : Nat → List Chaining → Chaining
  | _, [] => key
  | _, [a] => a
  | _, [a, b] => parentNode key mode Flags.root a b
  | 0, a :: _ => a
  | n + 1, cs => topNode key mode n (pairUp key mode cs)

/-- The digest of an input under a key, in a mode. -/
def digest (key : Chaining) (mode : Flags) (input : Bytes) : Chaining :=
  match Bytes.pieces 1024 input with
  | [] => chunk key mode Flags.root 0 []
  | [only] => chunk key mode Flags.root 0 only
  | chunks =>
    topNode key mode chunks.length
      (chunks.mapIdx fun i c => chunk key mode Flags.plain i c)

def Chaining.toBytes (c : Chaining) : Bytes := Bytes.ofWords c.toList

def Chaining.ofBytes (b : Bytes) : Chaining := .ofList (Bytes.words b)

def hash (input : Bytes) : Bytes := (digest initial .plain input).toBytes

/-- The digest of a row of bytes under a key of 32 bytes. -/
def keyedHash (key input : Bytes) : Bytes := (digest (.ofBytes key) .keyed input).toBytes

/-- A key of 32 bytes from a context text and key material. -/
def deriveKey (context : String) (material : Bytes) : Bytes :=
  (digest (digest initial .context (Bytes.ofText context)) .material material).toBytes

end PathLedger.Blake3

namespace PathLedger

/-- The digest of a text in hexadecimal. -/
def digestText (s : String) : String := Bytes.Hex.encode (Blake3.hash (Bytes.ofText s))

end PathLedger
