import PathLedger.Bytes.Basic
import PathLedger.Bytes.Square

/-!
# The ChaCha20 stream

* `ChaCha20.block` — 64 bytes of the stream for a key, a nonce and a block counter.
* `ChaCha20.keystream` — as many bytes as needed, from a block counter on.
* `ChaCha20.apply` — a row of bytes combined with the stream. Applying twice gives the row back.
-/

namespace PathLedger.ChaCha20

/-- The step on four words. -/
def quarter (q : Quad) : Quad :=
  let a := q.a + q.b
  let d := rotateLeft (q.d ^^^ a) 16
  let c := q.c + d
  let b := rotateLeft (q.b ^^^ c) 12
  let a := a + b
  let d := rotateLeft (d ^^^ a) 8
  let c := c + d
  let b := rotateLeft (b ^^^ c) 7
  ⟨a, b, c, d⟩

/-- Columns, then diagonals. -/
def doubleRound (s : Square) : Square :=
  (s.mapColumns fun _ q => quarter q).mapDiagonals fun _ q => quarter q

def doubleRounds : Nat → Square → Square
  | 0, s => s
  | n + 1, s => doubleRounds n (doubleRound s)

/-- The square from which a block is made. -/
def start (key nonce : Bytes) (counter : Nat) : Square :=
  let k := Bytes.words key
  let n := Bytes.words nonce
  ⟨⟨0x61707865, 0x3320646e, 0x79622d32, 0x6b206574⟩, .ofList k, .ofList (k.drop 4),
    ⟨UInt32.ofNat counter, n.getD 0 0, n.getD 1 0, n.getD 2 0⟩⟩

/-- The 64 bytes of the stream at a block counter. -/
def block (key nonce : Bytes) (counter : Nat) : Bytes :=
  let s := start key nonce counter
  Bytes.ofWords ((doubleRounds 10 s).zip (· + ·) s).toList

/-- The stream of `blocks` blocks from a counter on. -/
def keystream (key nonce : Bytes) (counter : Nat) : Nat → Bytes
  | 0 => []
  | blocks + 1 => block key nonce counter ++ keystream key nonce (counter + 1) blocks

/-- A row of bytes combined with the stream from a counter on. -/
def apply (key nonce : Bytes) (counter : Nat) (input : Bytes) : Bytes :=
  List.zipWith (· ^^^ ·) input (keystream key nonce counter ((input.length + 63) / 64))

theorem length_block (key nonce : Bytes) (counter : Nat) : (block key nonce counter).length = 64 := by
  simp [block, Bytes.ofWords, Square.toList, Quad.toList, Bytes.ofNat]

theorem length_keystream (key nonce : Bytes) (counter blocks : Nat) :
    (keystream key nonce counter blocks).length = 64 * blocks := by
  induction blocks generalizing counter with
  | zero => rfl
  | succ n ih => simp [keystream, length_block, ih]; omega

theorem length_apply (key nonce : Bytes) (counter : Nat) (input : Bytes) :
    (apply key nonce counter input).length = input.length := by
  simp only [apply, List.length_zipWith, length_keystream]
  omega

/-- Combining with the same stream twice gives the input back. -/
theorem apply_apply (key nonce : Bytes) (counter : Nat) (input : Bytes) :
    apply key nonce counter (apply key nonce counter input) = input := by
  have twice : ∀ (a k : Bytes), a.length ≤ k.length →
      List.zipWith (· ^^^ ·) (List.zipWith (· ^^^ ·) a k) k = a := by
    intro a
    induction a with
    | nil => simp
    | cons x r ih =>
      intro k hk
      cases k with
      | nil => simp at hk
      | cons y t =>
        have hrest := ih t (by simpa using hk)
        rw [List.zipWith_cons_cons, List.zipWith_cons_cons, hrest, UInt8.xor_assoc, UInt8.xor_self, UInt8.xor_zero]
  have hlen := length_apply key nonce counter input
  rw [apply, hlen]
  exact twice _ _ (by rw [length_keystream]; omega)

end PathLedger.ChaCha20
