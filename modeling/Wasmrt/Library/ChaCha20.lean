import Mathlib.Data.BitVec
import Mathlib.Data.Fin.VecNotation
import Mathlib.Data.FinEnum
import Mathlib.Tactic.Common
import Wasmrt.Library.Numerals

/-!
# ChaCha20

The stream cipher of RFC 8439: its block function on a state of four rows, and the key stream that it makes with the
block counter running from zero. The counter has 32 bits, so a key and a nonce have a stream of `2 ^ 38` bytes.

## Main definitions

* `quarterRound`, `doubleRound`, `block`: the block function.
* `keystream`: the first bytes of the stream, as far as it goes.
-/

namespace ChaCha20

abbrev Word := BitVec 32

scoped instance neZero_four : NeZero 4 := ⟨by decide⟩

/-- A state: four rows of four words. -/
abbrev State := Fin 4 → Fin 4 → Word

/-- Addition, exclusive or and rotation on two words and a third one. -/
def mix (x y z : Word) (n : ℕ) : Word × Word := (x + y, (z ^^^ (x + y)).rotateLeft n)

/-- The quarter round on four words. -/
def quarterRound (w : Fin 4 → Word) : Fin 4 → Word :=
  let (a, d) := mix (w 0) (w 1) (w 3) 16
  let (c, b) := mix (w 2) d (w 1) 12
  let (a, d) := mix a b d 8
  let (c, b) := mix c d b 7
  ![a, b, c, d]

/-- The quarter round on each column. -/
def columnRound (M : State) : State := fun r c => quarterRound (fun i => M i c) r

/-- The quarter round on each diagonal. -/
def diagonalRound (M : State) : State := fun r c => quarterRound (fun i => M i (c - r + i)) r

def doubleRound (M : State) : State := diagonalRound (columnRound M)

/-- The number that four bytes spell, the least significant one first. -/
def wordOfBytes (bytes : List UInt8) : Word := BitVec.ofNat 32 (Numerals.value 256 (bytes.reverse.map UInt8.toNat))

/-- The bytes of a word, the least significant one first. -/
def bytesOfWord (w : Word) : List UInt8 := (List.range 4).map fun i => UInt8.ofNat (w.toNat / 256 ^ i)

/-- Word `i` of some bytes. -/
def wordAt (bytes : List UInt8) (i : ℕ) : Word := wordOfBytes ((bytes.drop (4 * i)).take 4)

/-- `expand 32-byte k` -/
def constants : List UInt8 :=
  [0x65, 0x78, 0x70, 0x61, 0x6e, 0x64, 0x20, 0x33, 0x32, 0x2d, 0x62, 0x79, 0x74, 0x65, 0x20, 0x6b]

/-- The state of a block: the constants, the key, the counter and the nonce. -/
def initial (key nonce : List UInt8) (counter : Word) : State :=
  ![fun c => wordAt constants c, fun c => wordAt key c, fun c => wordAt key (4 + c),
    ![counter, wordAt nonce 0, wordAt nonce 1, wordAt nonce 2]]

/-- The bytes of a state, row by row. -/
def serialize (M : State) : List UInt8 :=
  (List.finRange 4).flatMap fun r => (List.finRange 4).flatMap fun c => bytesOfWord (M r c)

/-- The block function: twenty rounds, added to the state. -/
def block (key nonce : List UInt8) (counter : Word) : List UInt8 :=
  let M := initial key nonce counter
  serialize fun r c => doubleRound^[10] M r c + M r c

/-- The number of blocks of a stream. -/
def blockCount : ℕ := 2 ^ 32

/-- The first `n` bytes of the stream of a key and a nonce: the blocks of the counters 0, 1, 2, ... -/
def keystream (key nonce : List UInt8) (n : ℕ) : Option (List UInt8) :=
  if n ≤ 64 * blockCount then
    some (((List.range blockCount).flatMap fun i => block key nonce (BitVec.ofNat 32 i)).take n)
  else none

end ChaCha20
