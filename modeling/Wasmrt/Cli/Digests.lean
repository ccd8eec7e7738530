import Mathlib.Data.BitVec
import Mathlib.Data.FinEnum
import Mathlib.Data.List.GetD
import Mathlib.Tactic.Common
import Wasmrt.Cli.Pin
import Wasmrt.Library.Sha256

/-!
# Digests of modules

The hash that a module is pinned by, and its spelling in a DB.

## Main definitions

* `compressBlock`, `hash`: SHA-256 as it is computed, with an array for the message schedule and the tail of the message
  in one block or two.
* `toHex`: the spelling of a digest.

## Main results

* `compressBlock_eq`: a block is compressed as FIPS 180-4 says.
* `bitsOf_hash`: the hash of a message is its SHA-256 digest.
* `parseHex_toHex`: the spelling reads back.
* `parseHex_isSome_iff`: what is a spelling.
-/

namespace Wasmrt

open Fips180 (Word Words numberBytes bitsOf)

/-! ## The hash -/

/-- The constants of the rounds, `K`. -/
def kTable : List Word :=
  [0x428a2f98, 0x71374491, 0xb5c0fbcf, 0xe9b5dba5, 0x3956c25b, 0x59f111f1, 0x923f82a4, 0xab1c5ed5, 0xd807aa98,
    0x12835b01, 0x243185be, 0x550c7dc3, 0x72be5d74, 0x80deb1fe, 0x9bdc06a7, 0xc19bf174, 0xe49b69c1, 0xefbe4786,
    0x0fc19dc6, 0x240ca1cc, 0x2de92c6f, 0x4a7484aa, 0x5cb0a9dc, 0x76f988da, 0x983e5152, 0xa831c66d, 0xb00327c8,
    0xbf597fc7, 0xc6e00bf3, 0xd5a79147, 0x06ca6351, 0x14292967, 0x27b70a85, 0x2e1b2138, 0x4d2c6dfc, 0x53380d13,
    0x650a7354, 0x766a0abb, 0x81c2c92e, 0x92722c85, 0xa2bfe8a1, 0xa81a664b, 0xc24b8b70, 0xc76c51a3, 0xd192e819,
    0xd6990624, 0xf40e3585, 0x106aa070, 0x19a4c116, 0x1e376c08, 0x2748774c, 0x34b0bcb5, 0x391c0cb3, 0x4ed8aa4a,
    0x5b9cca4f, 0x682e6ff3, 0x748f82ee, 0x78a5636f, 0x84c87814, 0x8cc70208, 0x90befffa, 0xa4506ceb, 0xbef9a3f7,
    0xc67178f2]

/-- The hash value before the first block, `H0`. -/
def h0 : Words where
  a := 0x6a09e667
  b := 0xbb67ae85
  c := 0x3c6ef372
  d := 0xa54ff53a
  e := 0x510e527f
  f := 0x9b05688c
  g := 0x1f83d9ab
  h := 0x5be0cd19

/-- `u32::from_be_bytes` of the four bytes at `b`. -/
def wordFromBytes (block : List UInt8) (b : ℕ) : Word :=
  BitVec.ofNat 32 (Numerals.value 256
    ([block.getD b 0, block.getD (b + 1) 0, block.getD (b + 2) 0, block.getD (b + 3) 0].map UInt8.toNat))

/-- The array `w` with the words of a block. -/
def blockWords (block : List UInt8) : List Word :=
  (List.range 64).map fun i => if i < 16 then wordFromBytes block (i * 4) else 0

/-- Entry `i` of the array `w`, from those before it. -/
def extendWords (w : List Word) (i : ℕ) : List Word :=
  let x := w.getD (i - 15) 0
  let y := w.getD (i - 2) 0
  let s0 := x.rotateRight 7 ^^^ x.rotateRight 18 ^^^ x >>> 3
  let s1 := y.rotateRight 17 ^^^ y.rotateRight 19 ^^^ y >>> 10
  w.set i (w.getD (i - 16) 0 + s0 + w.getD (i - 7) 0 + s1)

/-- One round on the eight variables. -/
def compressRound (w : List Word) (v : Words) (i : ℕ) : Words :=
  let s1 := v.e.rotateRight 6 ^^^ v.e.rotateRight 11 ^^^ v.e.rotateRight 25
  let ch := (v.e &&& v.f) ^^^ (~~~v.e &&& v.g)
  let t1 := v.h + s1 + ch + kTable.getD i 0 + w.getD i 0
  let s0 := v.a.rotateRight 2 ^^^ v.a.rotateRight 13 ^^^ v.a.rotateRight 22
  let maj := (v.a &&& v.b) ^^^ (v.a &&& v.c) ^^^ (v.b &&& v.c)
  let t2 := s0 + maj
  { h := v.g, g := v.f, f := v.e, e := v.d + t1, d := v.c, c := v.b, b := v.a, a := t1 + t2 }

/-- One block of 64 bytes, `compress`. -/
def compressBlock (h : Words) (block : List UInt8) : Words :=
  let w := (List.range' 16 48).foldl extendWords (blockWords block)
  h + (List.range 64).foldl (compressRound w) h

/-- The bytes of a hash value. -/
def digestOf (h : Words) : Digest :=
  ⟨([h.a, h.b, h.c, h.d, h.e, h.f, h.g, h.h].flatMap fun w => numberBytes 4 w.toNat).toArray, by
    simp [numberBytes]⟩

/-- The last block: the length in bits takes its last eight bytes. -/
def finishHash (h : Words) (block : List UInt8) (bits : ℕ) : Digest :=
  digestOf (compressBlock h (block.take 56 ++ numberBytes 8 bits))

/-- SHA-256 of exactly these bytes. -/
def hash (bytes : List UInt8) : Digest :=
  let n := bytes.length / 64
  let h := (List.range n).foldl (fun h i => compressBlock h ((bytes.drop (64 * i)).take 64)) h0
  let rest := bytes.drop (64 * n)
  let block := rest ++ 0x80 :: List.replicate (63 - rest.length) 0
  let bits := bytes.length * 8 % 2 ^ 64
  if rest.length + 1 + 8 > 64 then finishHash (compressBlock h block) (List.replicate 64 0) bits
  else finishHash h block bits

/-! ## The spelling of a digest -/

/-- The digits of the spelling. -/
def hexTable : List Char := ['0', '1', '2', '3', '4', '5', '6', '7', '8', '9', 'a', 'b', 'c', 'd', 'e', 'f']

/-- The two digits of a byte. -/
def hexByte (b : UInt8) : Text := [hexTable.getD (b >>> 4).toNat '0', hexTable.getD (b &&& 0xf).toNat '0']

/-- A digest in lower-case hexadecimal. -/
def toHex (d : Digest) : Text := d.toList.flatMap hexByte

/-! ## The hash is SHA-256 -/

theorem rotateRight_eq {n : ℕ} (hn : n < 32) (x : Word) : x.rotateRight n = Fips180.rotr n x := by
  rw [BitVec.rotateRight, BitVec.rotateRightAux, Nat.mod_eq_of_lt hn, Fips180.rotr]

/-- The constants of the rounds are fractional parts of cube roots. -/
theorem kTable_getD {t : ℕ} (ht : t < 64) : kTable.getD t 0 = Fips180.roundConstant t := by
  have hroots : ∀ t : Fin 64, ∃ i : Fin 8,
      (i * 2 ^ 32 + (kTable.getD t 0).toNat) ^ 3 ≤ Fips180.primes.getD t 0 * (2 ^ 32) ^ 3 ∧
        Fips180.primes.getD t 0 * (2 ^ 32) ^ 3 < (i * 2 ^ 32 + (kTable.getD t 0).toNat + 1) ^ 3 := by decide
  obtain ⟨i, hle, hlt⟩ := hroots ⟨t, ht⟩
  rw [Fips180.roundConstant, Fips180.rootFraction_eq hle hlt, BitVec.ofNat_toNat, BitVec.setWidth_eq]

/-- The initial hash value consists of fractional parts of square roots. -/
theorem h0_eq : h0 = Fips180.initial := by
  ext1
  · exact (Fips180.rootFraction_eq (i := 1) (c := 0x6a09e667) (by decide) (by decide)).symm
  · exact (Fips180.rootFraction_eq (i := 1) (c := 0xbb67ae85) (by decide) (by decide)).symm
  · exact (Fips180.rootFraction_eq (i := 2) (c := 0x3c6ef372) (by decide) (by decide)).symm
  · exact (Fips180.rootFraction_eq (i := 2) (c := 0xa54ff53a) (by decide) (by decide)).symm
  · exact (Fips180.rootFraction_eq (i := 3) (c := 0x510e527f) (by decide) (by decide)).symm
  · exact (Fips180.rootFraction_eq (i := 3) (c := 0x9b05688c) (by decide) (by decide)).symm
  · exact (Fips180.rootFraction_eq (i := 4) (c := 0x1f83d9ab) (by decide) (by decide)).symm
  · exact (Fips180.rootFraction_eq (i := 4) (c := 0x5be0cd19) (by decide) (by decide)).symm

/-! ### One block -/

theorem getD_blockWords (block : List UInt8) {t : ℕ} (ht : t < 16) :
    (blockWords block).getD t 0 = wordFromBytes block (t * 4) := by
  rw [blockWords, List.getD_eq_getElem?_getD, List.getElem?_map, List.getElem?_range (by omega)]
  simp [ht]

/-- The array holds the message schedule up to where it has been filled. -/
theorem getD_extendWords {block : List UInt8} {M : ℕ → Word} (hM : ∀ t < 16, wordFromBytes block (t * 4) = M t)
    (n : ℕ) (hn : 16 + n ≤ 64) :
    ((List.range' 16 n).foldl extendWords (blockWords block)).length = 64 ∧
      ∀ t < 16 + n, ((List.range' 16 n).foldl extendWords (blockWords block)).getD t 0 = Fips180.schedule M t := by
  induction n with
  | zero =>
    refine ⟨by simp [blockWords], fun t ht => ?_⟩
    rw [Fips180.schedule, if_pos ht]
    exact (getD_blockWords block ht).trans (hM t ht)
  | succ n ih =>
    obtain ⟨hlen, hget⟩ := ih (by omega)
    rw [List.range'_concat, List.foldl_append, List.foldl_cons, List.foldl_nil, Nat.one_mul]
    refine ⟨by rw [extendWords, List.length_set, hlen], fun t ht => ?_⟩
    rw [extendWords, List.getD_eq_getElem?_getD, List.getElem?_set, hlen]
    by_cases hlast : 16 + n = t
    · -- The entry that is set is the sum the schedule prescribes, in another order.
      subst hlast
      rw [if_pos rfl, if_pos (by omega), Option.getD_some, hget _ (by omega), hget _ (by omega), hget _ (by omega),
        hget _ (by omega), rotateRight_eq (by decide), rotateRight_eq (by decide), rotateRight_eq (by decide),
        rotateRight_eq (by decide)]
      conv_rhs => rw [Fips180.schedule, if_neg (by omega)]
      rw [Fips180.smallSigma0, Fips180.smallSigma1]
      ac_rfl
    · rw [if_neg hlast, ← List.getD_eq_getElem?_getD]
      exact hget t (by omega)

theorem compressRound_eq {w : List Word} {t : ℕ} (ht : t < 64) (v : Words) :
    compressRound w v t = Fips180.round (Fips180.roundConstant t) (w.getD t 0) v := by
  rw [compressRound, kTable_getD ht]
  simp only [rotateRight_eq (show 2 < 32 by decide), rotateRight_eq (show 6 < 32 by decide),
    rotateRight_eq (show 11 < 32 by decide), rotateRight_eq (show 13 < 32 by decide),
    rotateRight_eq (show 22 < 32 by decide), rotateRight_eq (show 25 < 32 by decide)]
  rfl

theorem foldl_compressRound {w : List Word} {W : ℕ → Word} (hw : ∀ t < 64, w.getD t 0 = W t) (v : Words) :
    (List.range 64).foldl (compressRound w) v =
      (List.range 64).foldl (fun v t => Fips180.round (Fips180.roundConstant t) (W t) v) v := by
  refine List.foldl_ext _ _ v fun v t ht => ?_
  rw [List.mem_range] at ht
  rw [compressRound_eq ht, hw t ht]

theorem words_add_comm (u v : Words) : u + v = v + u := by
  ext1 <;> exact BitVec.add_comm _ _

/-- A block is compressed as the standard says. -/
theorem compressBlock_eq {block : List UInt8} {M : ℕ → Word} (hM : ∀ t < 16, wordFromBytes block (t * 4) = M t)
    (h : Words) : compressBlock h block = Fips180.compress h M := by
  rw [compressBlock, Fips180.compress, words_add_comm, foldl_compressRound (getD_extendWords hM 48 (by decide)).2]

/-- The four bytes at a place of a block. -/
theorem wordFromBytes_eq {block : List UInt8} {b : ℕ} (hb : b + 4 ≤ block.length) :
    wordFromBytes block b = BitVec.ofNat 32 (Numerals.value 256 (((block.drop b).take 4).map UInt8.toNat)) := by
  have hfour : (block.drop b).take 4 =
      [block.getD b 0, block.getD (b + 1) 0, block.getD (b + 2) 0, block.getD (b + 3) 0] := by
    rw [List.getD_eq_getElem _ _ (by omega), List.getD_eq_getElem _ _ (by omega), List.getD_eq_getElem _ _ (by omega),
      List.getD_eq_getElem _ _ (by omega), List.drop_eq_getElem_cons (by omega), List.drop_eq_getElem_cons (by omega),
      List.drop_eq_getElem_cons (by omega), List.drop_eq_getElem_cons (by omega)]
    rfl
  rw [wordFromBytes, hfour]

/-- The block that begins at byte `64 * i` of a message. -/
theorem compressBlock_at {P block : List UInt8} {i : ℕ} (hblock : block = (P.drop (64 * i)).take 64)
    (hlen : 64 * i + 64 ≤ P.length) (h : Words) :
    compressBlock h block = Fips180.compress h fun t => Fips180.wordAt (bitsOf P) (512 * i + 32 * t) := by
  apply compressBlock_eq
  intro t ht
  rw [show 512 * i + 32 * t = 8 * (64 * i + t * 4) by ring, Fips180.wordAt_bitsOf, wordFromBytes_eq, hblock,
    List.drop_take, List.drop_drop, List.take_take, Nat.min_eq_left (by omega)]
  rw [hblock, List.length_take, List.length_drop]
  omega

/-! ### A message -/

theorem absorb_succ (P : Fips180.Bits) (n : ℕ) :
    Fips180.absorb P (n + 1) =
      Fips180.compress (Fips180.absorb P n) fun t => Fips180.wordAt P (512 * n + 32 * t) := by
  rw [Fips180.absorb, List.range_succ, List.foldl_append]
  rfl

/-- The whole blocks of a message. -/
theorem foldl_compressBlock (m tail : List UInt8) (n : ℕ) (hn : 64 * n ≤ m.length) :
    (List.range n).foldl (fun h i => compressBlock h ((m.drop (64 * i)).take 64)) h0 =
      Fips180.absorb (bitsOf (m ++ tail)) n := by
  rw [h0_eq, Fips180.absorb]
  apply List.foldl_ext
  intro h i hi
  rw [List.mem_range] at hi
  apply compressBlock_at
  · rw [List.drop_append_of_le_length (by omega), List.take_append_of_le_length]
    rw [List.length_drop]
    omega
  · rw [List.length_append]
    omega

theorem bitsOf_digestOf (h : Words) : bitsOf (digestOf h).toList = h.bits := by
  simp [digestOf, Words.bits, Fips180.bitsOf_numberBytes]

/-- The hash of a message is its SHA-256 digest. -/
theorem bitsOf_hash {m : List UInt8} (hm : m.length < 2 ^ 61) :
    bitsOf (hash m).toList = Fips180.sha256 (bitsOf m) := by
  obtain ⟨tail, htail⟩ : ∃ tail, Fips180.paddedBytes m = m ++ tail := ⟨_, List.append_assoc ..⟩
  have hlen := Fips180.length_paddedBytes m
  have hblocks : (Fips180.pad (bitsOf m)).length / 512 = m.length / 64 + if m.length % 64 < 56 then 1 else 2 := by
    rw [← Fips180.bitsOf_padded, Fips180.length_bitsOf, hlen]
    split_ifs <;> omega
  have hwhole := foldl_compressBlock m tail (m.length / 64) (by omega)
  rw [← htail, Fips180.bitsOf_padded] at hwhole
  have hrest : (m.drop (64 * (m.length / 64))).length = m.length % 64 := by
    rw [List.length_drop]
    omega
  have hlast : (Fips180.paddedBytes m).drop (64 * (m.length / 64)) =
      m.drop (64 * (m.length / 64)) ++ 0x80 :: List.replicate ((55 + 64 - m.length % 64) % 64) 0 ++
        numberBytes 8 (8 * m.length) := by
    rw [Fips180.paddedBytes, List.append_assoc, List.drop_append_of_le_length (by omega), List.append_assoc]
  rw [hash, Fips180.sha256, hblocks, hwhole, hrest, Nat.mul_comm m.length 8,
    Nat.mod_eq_of_lt (show 8 * m.length < 2 ^ 64 by omega)]
  by_cases hroom : m.length % 64 < 56
  · rw [if_neg (by omega), if_pos hroom, finishHash, bitsOf_digestOf, absorb_succ, ← Fips180.bitsOf_padded]
    -- One more block holds the rest, the terminator and the length.
    refine congrArg Words.bits (compressBlock_at ?_ (by rw [hlen, if_pos hroom]; omega) _)
    rw [hlast, show (55 + 64 - m.length % 64) % 64 = 55 - m.length % 64 by omega,
      show 63 - m.length % 64 = 55 - m.length % 64 + 8 by omega, List.replicate_add, ← List.cons_append,
      ← List.append_assoc, List.take_left' (by simp [hrest]; omega), List.take_of_length_le]
    simp [hrest, numberBytes]
    omega
  · -- The terminator still fits, the length takes a block of its own.
    have hzeros : (55 + 64 - m.length % 64) % 64 = 63 - m.length % 64 + 56 := by omega
    have hfirst : m.drop (64 * (m.length / 64)) ++ 0x80 :: List.replicate (63 - m.length % 64) 0 =
        ((Fips180.paddedBytes m).drop (64 * (m.length / 64))).take 64 := by
      rw [hlast, hzeros, List.replicate_add, ← List.cons_append, ← List.append_assoc, List.append_assoc,
        List.take_left' (by simp [hrest]; omega)]
    have hsecond : (List.replicate 64 0).take 56 ++ numberBytes 8 (8 * m.length) =
        ((Fips180.paddedBytes m).drop (64 * (m.length / 64 + 1))).take 64 := by
      rw [Nat.mul_succ, ← List.drop_drop, hlast, hzeros, List.replicate_add, ← List.cons_append, ← List.append_assoc,
        List.append_assoc, List.drop_left' (by simp [hrest]; omega), List.take_replicate, Nat.min_eq_left (by decide),
        List.take_of_length_le (by simp [numberBytes])]
    rw [if_pos (by omega), if_neg hroom, finishHash, bitsOf_digestOf, absorb_succ, absorb_succ,
      compressBlock_at hsecond (by rw [hlen, if_neg hroom]; omega),
      compressBlock_at hfirst (by rw [hlen, if_neg hroom]; omega), Fips180.bitsOf_padded]

/-! ## The spelling reads back -/

theorem hexDigit_hexTable {n : ℕ} (hn : n < 16) : hexDigit (hexTable.getD n '0') = some n := by
  have hall : ∀ n : Fin 16, hexDigit (hexTable.getD n '0') = some n.val := by decide
  exact hall ⟨n, hn⟩

/-- A byte spells its two digits. -/
theorem mapM_hexByte (b : UInt8) : (hexByte b).mapM hexDigit = some [b.toNat / 16, b.toNat % 16] := by
  have hb := b.toNat_lt
  have hhi : (b >>> 4).toNat = b.toNat / 16 := by
    rw [UInt8.toNat_shiftRight, Nat.shiftRight_eq_div_pow]
    rfl
  have hlo : (b &&& 0xf).toNat = b.toNat % 16 := by
    rw [UInt8.toNat_and]
    exact Nat.and_two_pow_sub_one_eq_mod b.toNat 4
  rw [hexByte, hhi, hlo, List.mapM_cons, List.mapM_cons, hexDigit_hexTable (by omega), hexDigit_hexTable (by omega)]
  rfl

theorem mapM_flatMap_hexByte (bs : List UInt8) :
    (bs.flatMap hexByte).mapM hexDigit = some (bs.flatMap fun b => [b.toNat / 16, b.toNat % 16]) := by
  induction bs with
  | nil => rfl
  | cons b bs ih =>
    rw [List.flatMap_cons, List.flatMap_cons, List.mapM_append, mapM_hexByte, ih]
    rfl

/-- The digits of byte `i`. -/
theorem getD_flatMap_digits (bs : List UInt8) {i : ℕ} (hi : i < bs.length) :
    (bs.flatMap fun b => [b.toNat / 16, b.toNat % 16]).getD (2 * i) 0 = (bs[i].toNat / 16) ∧
      (bs.flatMap fun b => [b.toNat / 16, b.toNat % 16]).getD (2 * i + 1) 0 = bs[i].toNat % 16 := by
  induction bs generalizing i with
  | nil => simp at hi
  | cons b bs ih =>
    cases i with
    | zero => simp
    | succ i =>
      rw [List.length_cons, Nat.succ_lt_succ_iff] at hi
      simpa [Nat.mul_succ] using ih hi

theorem exists_mapM_eq_some {s : Text} (h : ∀ c ∈ s, hexDigit c ≠ none) : ∃ ds, s.mapM hexDigit = some ds := by
  induction s with
  | nil => exact ⟨[], rfl⟩
  | cons c s ih =>
    rw [List.forall_mem_cons] at h
    obtain ⟨d, hd⟩ := Option.ne_none_iff_exists'.mp h.1
    obtain ⟨ds, hds⟩ := ih h.2
    refine ⟨d :: ds, ?_⟩
    rw [List.mapM_cons, hd, hds]
    rfl

/-- Digits are characters of one byte. -/
theorem utf8Size_of_hexDigit {c : Char} (h : hexDigit c ≠ none) : c.utf8Size = 1 := by
  have hle : c.val ≤ 0x7f := by
    rw [hexDigit] at h
    split_ifs at h with hdec hlower hupper
    · exact UInt32.le_trans hdec.2 (by decide)
    · exact UInt32.le_trans hlower.2 (by decide)
    · exact UInt32.le_trans hupper.2 (by decide)
    · exact absurd rfl h
  exact if_pos hle

/-- A text of digits has as many bytes as characters. -/
theorem byteLength_of_mapM {s : Text} {ds : List ℕ} (h : s.mapM hexDigit = some ds) : s.byteLength = s.length := by
  induction s generalizing ds with
  | nil => rfl
  | cons c s ih =>
    rw [List.mapM_cons, Option.bind_eq_bind, Option.bind_eq_some_iff] at h
    obtain ⟨d, hd, hrest⟩ := h
    rw [Option.bind_eq_bind, Option.bind_eq_some_iff] at hrest
    obtain ⟨ds', hds', -⟩ := hrest
    have hc : c.utf8Size = 1 := utf8Size_of_hexDigit (by rw [hd]; simp)
    rw [Text.byteLength, List.map_cons, List.sum_cons, hc, List.length_cons, Nat.add_comm]
    exact congrArg (· + 1) (ih hds')

/-- The spelling of a digest reads back. -/
theorem parseHex_toHex (d : Digest) : parseHex (toHex d) = some d := by
  have hdigits : (toHex d).mapM hexDigit = some (d.toList.flatMap fun b => [b.toNat / 16, b.toNat % 16]) :=
    mapM_flatMap_hexByte d.toList
  have hlen : (toHex d).length = 64 := by simp [toHex, hexByte]
  rw [parseHex, if_neg (by rw [byteLength_of_mapM hdigits]; exact not_not.mpr hlen), hdigits, Option.map_some]
  refine congrArg some (Vector.ext fun i hi => ?_)
  obtain ⟨hhi, hlo⟩ := getD_flatMap_digits d.toList (show i < d.toList.length by simpa using hi)
  rw [Vector.getElem_ofFn, hhi, hlo, Nat.div_add_mod', Vector.getElem_toList, UInt8.ofNat_toNat]

/-- A spelling consists of 64 digits. -/
theorem parseHex_isSome_iff (s : Text) : (parseHex s).isSome ↔ s.length = 64 ∧ ∀ c ∈ s, hexDigit c ≠ none := by
  constructor
  · intro h
    rw [parseHex] at h
    split_ifs at h with hlen
    · simp at h
    · rw [Option.isSome_map, Option.isSome_iff_exists] at h
      obtain ⟨ds, hds⟩ := h
      rw [not_not, byteLength_of_mapM hds] at hlen
      refine ⟨hlen, fun c hc => ?_⟩
      obtain ⟨d, -, hd⟩ := Numerals.exists_of_mapM hds hc
      rw [hd]
      exact Option.some_ne_none d
  · rintro ⟨hlen, hdigits⟩
    obtain ⟨ds, hds⟩ := exists_mapM_eq_some hdigits
    rw [parseHex, if_neg (by rw [byteLength_of_mapM hds]; exact not_not.mpr hlen), hds]
    rfl

theorem hexDigit_ne_none_iff (c : Char) :
    hexDigit c ≠ none ↔ ('0' ≤ c ∧ c ≤ '9') ∨ ('a' ≤ c ∧ c ≤ 'f') ∨ 'A' ≤ c ∧ c ≤ 'F' := by
  rw [hexDigit]
  split_ifs <;> simp_all

/-- A module is pinned by its SHA-256 digest, and the spelling of a digest is just that. -/
theorem digest_isSha256 :
    (∀ m : List UInt8, m.length < 2 ^ 61 → bitsOf (hash m).toList = Fips180.sha256 (bitsOf m)) ∧
      (∀ d : Digest, parseHex (toHex d) = some d) ∧
      ∀ s : Text, (parseHex s).isSome →
        s.length = 64 ∧ ∀ c ∈ s, ('0' ≤ c ∧ c ≤ '9') ∨ ('a' ≤ c ∧ c ≤ 'f') ∨ 'A' ≤ c ∧ c ≤ 'F' := by
  refine ⟨fun m hm => bitsOf_hash hm, parseHex_toHex, fun s hs => ?_⟩
  obtain ⟨hlen, hdigits⟩ := (parseHex_isSome_iff s).mp hs
  exact ⟨hlen, fun c hc => (hexDigit_ne_none_iff c).mp (hdigits c hc)⟩

theorem digest_isSha256_abc :
    bitsOf (hash [0x61, 0x62, 0x63]).toList = Fips180.sha256 (bitsOf [0x61, 0x62, 0x63]) :=
  digest_isSha256.1 [0x61, 0x62, 0x63] (by decide)

end Wasmrt
