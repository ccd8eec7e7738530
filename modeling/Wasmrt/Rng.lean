import Mathlib.Algebra.Group.Fin.Basic
import Mathlib.Data.BitVec
import Mathlib.Data.FinEnum
import Mathlib.Tactic.Common
import Wasmrt.Library.ChaCha20

/-!
# The random generator

What `random_get` hands out: the key stream of one seed, made block by block. What a request leaves of a block is
kept for the next one. The counter of the blocks wraps, and nothing seeds the generator again.

## Main definitions

* `ChaCha20Rng`, `fromSeed`, `fill`: the generator.
* `fills`: what a sequence of requests draws.
* `IsKeystream`: the requests are handed one stretch of the key stream, and no block of it twice.

## Main results

* `block_toRows`: the block function is the one of ChaCha20.
* `StandsAt.fill`: a request continues the stream where the one before it ended.
* `isKeystream_iff`: how long the generator does what it is for.
-/

namespace Wasmrt.Rng

open scoped ChaCha20

/-! ## The generator -/

/-- The state of the block function. -/
abbrev State := Vector (BitVec 32) 16

/-- `expand 32-byte k` -/
def sigma : Vector (BitVec 32) 4 := #v[0x61707865, 0x3320646e, 0x79622d32, 0x6b206574]

/-- One quarter round on four words of the state. -/
def quarterRound (s : State) (a b c d : Fin 16) : State :=
  let s := s.set a (s[a] + s[b])
  let s := s.set d ((s[d] ^^^ s[a]).rotateLeft 16)
  let s := s.set c (s[c] + s[d])
  let s := s.set b ((s[b] ^^^ s[c]).rotateLeft 12)
  let s := s.set a (s[a] + s[b])
  let s := s.set d ((s[d] ^^^ s[a]).rotateLeft 8)
  let s := s.set c (s[c] + s[d])
  s.set b ((s[b] ^^^ s[c]).rotateLeft 7)

def columnRounds (s : State) : State :=
  let s := quarterRound s 0 4 8 12
  let s := quarterRound s 1 5 9 13
  let s := quarterRound s 2 6 10 14
  quarterRound s 3 7 11 15

def diagonalRounds (s : State) : State :=
  let s := quarterRound s 0 5 10 15
  let s := quarterRound s 1 6 11 12
  let s := quarterRound s 2 7 8 13
  quarterRound s 3 4 9 14

/-- `u32::to_le_bytes` -/
def toLeBytes (w : BitVec 32) : List UInt8 :=
  [UInt8.ofBitVec (w.extractLsb' 0 8), UInt8.ofBitVec (w.extractLsb' 8 8), UInt8.ofBitVec (w.extractLsb' 16 8),
    UInt8.ofBitVec (w.extractLsb' 24 8)]

/-- The block function: twenty rounds, added to the input. -/
def block (input : State) : List UInt8 :=
  let s := (fun s => diagonalRounds (columnRounds s))^[10] input
  (List.finRange 16).flatMap fun i => toLeBytes (s[i] + input[i])

/-- A generator of a key stream. -/
structure ChaCha20Rng where
  state : State
  /-- The block that is handed out. -/
  buf : List UInt8
  /-- How many bytes of it are left. -/
  avail : ℕ

/-- `u32::from_le_bytes` -/
def fromLeBytes (b0 b1 b2 b3 : UInt8) : BitVec 32 := b3.toBitVec ++ b2.toBitVec ++ b1.toBitVec ++ b0.toBitVec

/-- Word `i` of some bytes. -/
def leWord {n : ℕ} (bytes : Vector UInt8 n) (i : ℕ) (h : 4 * i + 4 ≤ n) : BitVec 32 :=
  fromLeBytes bytes[4 * i] bytes[4 * i + 1] bytes[4 * i + 2] bytes[4 * i + 3]

/-- The generator of a key and a nonce. -/
def fromSeed (key : Vector UInt8 32) (nonce : Vector UInt8 12) : ChaCha20Rng where
  state := Vector.ofFn fun i =>
    if _ : i.val < 4 then sigma[i.val]
    else if _ : i.val < 12 then leWord key (i.val - 4) (by omega)
    else if _ : i.val = 12 then 0
    else leWord nonce (i.val - 13) (by omega)
  buf := List.replicate 64 0
  avail := 0

/-- Make the next block. -/
def ChaCha20Rng.refill (rng : ChaCha20Rng) : ChaCha20Rng where
  state := rng.state.set 12 (rng.state[12] + 1)
  buf := block rng.state
  avail := 64

/-- Make sure that some bytes are left, and tell what block was made for that. -/
def ChaCha20Rng.ready (rng : ChaCha20Rng) : ChaCha20Rng × List State :=
  if rng.avail = 0 then (rng.refill, [rng.state]) else (rng, [])

theorem ChaCha20Rng.avail_ready_pos (rng : ChaCha20Rng) : 0 < rng.ready.1.avail := by
  rw [ready]
  split_ifs with h
  · exact Nat.zero_lt_succ _
  · exact Nat.pos_of_ne_zero h

/-- What a request drew: the bytes, the inputs of the blocks that were made for it, and the generator afterwards. -/
structure Drawn where
  bytes : List UInt8
  inputs : List State
  rng : ChaCha20Rng

/-- Draw this many more bytes. -/
def fill (rng : ChaCha20Rng) : ℕ → Drawn
  | 0 => ⟨[], [], rng⟩
  | m + 1 =>
    let now := rng.ready
    let take := min now.1.avail (m + 1)
    let rest := fill { now.1 with avail := now.1.avail - take } (m + 1 - take)
    ⟨(now.1.buf.drop (64 - now.1.avail)).take take ++ rest.bytes, now.2 ++ rest.inputs, rest.rng⟩
termination_by m => m
decreasing_by
  have := rng.avail_ready_pos
  omega

/-- What a sequence of requests draws. -/
def fills (rng : ChaCha20Rng) : List ℕ → Drawn
  | [] => ⟨[], [], rng⟩
  | m :: lens =>
    let first := fill rng m
    let rest := fills first.rng lens
    ⟨first.bytes ++ rest.bytes, first.inputs ++ rest.inputs, rest.rng⟩

/-- The requests are handed one stretch of the key stream of the seed, and no block is made twice. -/
def IsKeystream (key : Vector UInt8 32) (nonce : Vector UInt8 12) (lens : List ℕ) : Prop :=
  some (fills (fromSeed key nonce) lens).bytes = ChaCha20.keystream key.toList nonce.toList lens.sum ∧
    (fills (fromSeed key nonce) lens).inputs.Nodup

/-! ## The block function -/

/-- The rows of a state. -/
def toRows (s : State) : ChaCha20.State := fun r c => s[4 * r.val + c.val]

/-- A quarter of a quarter round. -/
def mixAt (s : State) (a b d : Fin 16) (n : ℕ) : State :=
  let s := s.set a (s[a] + s[b])
  s.set d ((s[d] ^^^ s[a]).rotateLeft n)

section Mix

variable (s : State) {a b d : Fin 16} (n : ℕ)

theorem mixAt_fst (had : a ≠ d) : (mixAt s a b d n)[a] = (ChaCha20.mix s[a] s[b] s[d] n).1 := by
  have had' : (d : ℕ) ≠ a := fun h => had (Fin.ext h.symm)
  simp [mixAt, ChaCha20.mix, Vector.getElem_set, had']

theorem mixAt_snd (had : a ≠ d) : (mixAt s a b d n)[d] = (ChaCha20.mix s[a] s[b] s[d] n).2 := by
  have had' : (a : ℕ) ≠ d := fun h => had (Fin.ext h)
  simp [mixAt, ChaCha20.mix, had']

theorem mixAt_of_ne {i : Fin 16} (ha : a ≠ i) (hd : d ≠ i) : (mixAt s a b d n)[i] = s[i] := by
  have ha' : (a : ℕ) ≠ i := fun h => ha (Fin.ext h)
  have hd' : (d : ℕ) ≠ i := fun h => hd (Fin.ext h)
  simp [mixAt, Vector.getElem_set, ha', hd']

end Mix

/-- A quarter round on the words at some indices. -/
def roundAt (s : State) (f : Fin 4 → Fin 16) : State := quarterRound s (f 0) (f 1) (f 2) (f 3)

theorem roundAt_eq (s : State) (f : Fin 4 → Fin 16) :
    roundAt s f = mixAt (mixAt (mixAt (mixAt s (f 0) (f 1) (f 3) 16) (f 2) (f 3) (f 1) 12) (f 0) (f 1) (f 3) 8)
      (f 2) (f 3) (f 1) 7 := rfl

theorem getElem_roundAt (s : State) {f : Fin 4 → Fin 16} (hf : f.Injective) (r : Fin 4) :
    (roundAt s f)[f r] = ChaCha20.quarterRound (fun i => s[f i]) r := by
  have hne : ∀ i j : Fin 4, i ≠ j → f i ≠ f j := fun _ _ h => hf.ne h
  rw [roundAt_eq]
  set s₁ := mixAt s (f 0) (f 1) (f 3) 16
  set s₂ := mixAt s₁ (f 2) (f 3) (f 1) 12
  set s₃ := mixAt s₂ (f 0) (f 1) (f 3) 8
  have h₁ : s₁[f 0] = (ChaCha20.mix s[f 0] s[f 1] s[f 3] 16).1 ∧ s₁[f 3] = (ChaCha20.mix s[f 0] s[f 1] s[f 3] 16).2 ∧
      s₁[f 1] = s[f 1] ∧ s₁[f 2] = s[f 2] :=
    ⟨mixAt_fst _ _ (hne 0 3 nofun), mixAt_snd _ _ (hne 0 3 nofun), mixAt_of_ne _ _ (hne 0 1 nofun) (hne 3 1 nofun),
      mixAt_of_ne _ _ (hne 0 2 nofun) (hne 3 2 nofun)⟩
  have h₂ : s₂[f 2] = (ChaCha20.mix s₁[f 2] s₁[f 3] s₁[f 1] 12).1 ∧
      s₂[f 1] = (ChaCha20.mix s₁[f 2] s₁[f 3] s₁[f 1] 12).2 ∧ s₂[f 3] = s₁[f 3] ∧ s₂[f 0] = s₁[f 0] :=
    ⟨mixAt_fst _ _ (hne 2 1 nofun), mixAt_snd _ _ (hne 2 1 nofun), mixAt_of_ne _ _ (hne 2 3 nofun) (hne 1 3 nofun),
      mixAt_of_ne _ _ (hne 2 0 nofun) (hne 1 0 nofun)⟩
  have h₃ : s₃[f 0] = (ChaCha20.mix s₂[f 0] s₂[f 1] s₂[f 3] 8).1 ∧
      s₃[f 3] = (ChaCha20.mix s₂[f 0] s₂[f 1] s₂[f 3] 8).2 ∧ s₃[f 1] = s₂[f 1] ∧ s₃[f 2] = s₂[f 2] :=
    ⟨mixAt_fst _ _ (hne 0 3 nofun), mixAt_snd _ _ (hne 0 3 nofun), mixAt_of_ne _ _ (hne 0 1 nofun) (hne 3 1 nofun),
      mixAt_of_ne _ _ (hne 0 2 nofun) (hne 3 2 nofun)⟩
  obtain ⟨h₁a, h₁d, h₁b, h₁c⟩ := h₁
  obtain ⟨h₂c, h₂b, h₂d, h₂a⟩ := h₂
  obtain ⟨h₃a, h₃d, h₃b, h₃c⟩ := h₃
  have hr : r = 0 ∨ r = 1 ∨ r = 2 ∨ r = 3 := by omega
  obtain rfl | rfl | rfl | rfl := hr
  · rw [mixAt_of_ne _ _ (hne 2 0 nofun) (hne 1 0 nofun), h₃a, h₂a, h₂b, h₂d, h₁a, h₁b, h₁c, h₁d]
    rfl
  · rw [mixAt_snd _ _ (hne 2 1 nofun), h₃c, h₃d, h₃b, h₂a, h₂b, h₂c, h₂d, h₁a, h₁b, h₁c, h₁d]
    rfl
  · rw [mixAt_fst _ _ (hne 2 1 nofun), h₃c, h₃d, h₂a, h₂b, h₂c, h₂d, h₁a, h₁b, h₁c, h₁d]
    rfl
  · rw [mixAt_of_ne _ _ (hne 2 3 nofun) (hne 1 3 nofun), h₃d, h₂a, h₂b, h₂d, h₁a, h₁b, h₁c, h₁d]
    rfl

theorem getElem_roundAt_of_ne (s : State) {f : Fin 4 → Fin 16} {i : Fin 16} (h : ∀ r, f r ≠ i) :
    (roundAt s f)[i] = s[i] := by
  rw [roundAt_eq, mixAt_of_ne _ _ (h 2) (h 1), mixAt_of_ne _ _ (h 0) (h 3), mixAt_of_ne _ _ (h 2) (h 1),
    mixAt_of_ne _ _ (h 0) (h 3)]

/-- Quarter rounds on disjoint indices do not disturb one another. -/
theorem getElem_foldl_roundAt {f : Fin 4 → Fin 4 → Fin 16} (hf : ∀ {k k' r r'}, f k r = f k' r' → k = k' ∧ r = r')
    {ks : List (Fin 4)} (hks : ks.Nodup) (s : State) (k r : Fin 4) :
    (ks.foldl (fun s k => roundAt s (f k)) s)[f k r] =
      if k ∈ ks then ChaCha20.quarterRound (fun i => s[f k i]) r else s[f k r] := by
  induction ks generalizing s with
  | nil => rfl
  | cons k' ks ih =>
    obtain ⟨hk', hks⟩ := List.nodup_cons.mp hks
    have hinj : (f k').Injective := fun _ _ h => (hf h).2
    have hkeep : k ≠ k' → ∀ i, (roundAt s (f k'))[f k i] = s[f k i] := fun h i =>
      getElem_roundAt_of_ne s fun r h' => h (hf h').1.symm
    rw [List.foldl_cons, ih hks]
    by_cases h : k = k'
    · subst h
      rw [if_neg hk', if_pos List.mem_cons_self, getElem_roundAt s hinj]
    · simp only [List.mem_cons, h, false_or, hkeep h]

/-- The place at a row and a column. -/
def place (r c : Fin 4) : Fin 16 := ⟨4 * r.val + c.val, by omega⟩

theorem place_inj {r r' c c' : Fin 4} (h : place r c = place r' c') : r = r' ∧ c = c' := by
  have h := congrArg Fin.val h
  simp only [place] at h
  omega

theorem foldl_finRange_four {α : Type} (g : α → Fin 4 → α) (a : α) :
    (List.finRange 4).foldl g a = g (g (g (g a 0) 1) 2) 3 := rfl

theorem toRows_columnRounds (s : State) : toRows (columnRounds s) = ChaCha20.columnRound (toRows s) := by
  funext r c
  have hrounds : columnRounds s = (List.finRange 4).foldl (fun s k => roundAt s fun r => place r k) s := by
    rw [foldl_finRange_four]
    rfl
  have hinj : ∀ {k k' r r' : Fin 4}, place r k = place r' k' → k = k' ∧ r = r' := fun h => (place_inj h).symm
  rw [hrounds]
  exact (getElem_foldl_roundAt hinj (List.nodup_finRange 4) s c r).trans (if_pos (List.mem_finRange _))

theorem toRows_diagonalRounds (s : State) : toRows (diagonalRounds s) = ChaCha20.diagonalRound (toRows s) := by
  funext r c
  have hrounds : diagonalRounds s = (List.finRange 4).foldl (fun s k => roundAt s fun r => place r (k + r)) s := by
    rw [foldl_finRange_four]
    rfl
  have hinj : ∀ {k k' r r' : Fin 4}, place r (k + r) = place r' (k' + r') → k = k' ∧ r = r' := by
    intro k k' r r' h
    obtain ⟨rfl, h⟩ := place_inj h
    exact ⟨add_right_cancel h, rfl⟩
  have h := getElem_foldl_roundAt hinj (List.nodup_finRange 4) s (c - r) r
  rw [if_pos (List.mem_finRange _)] at h
  simp only [sub_add_cancel] at h
  rw [hrounds]
  exact h

theorem toLeBytes_eq (w : BitVec 32) : toLeBytes w = ChaCha20.bytesOfWord w := by
  have hbyte : ∀ i, UInt8.ofBitVec (w.extractLsb' (8 * i) 8) = UInt8.ofNat (w.toNat / 256 ^ i) := by
    intro i
    apply UInt8.toBitVec_inj.mp
    apply BitVec.eq_of_toNat_eq
    simp [BitVec.extractLsb'_toNat, Nat.shiftRight_eq_div_pow, Nat.pow_mul]
  exact congrArg₂ _ (hbyte 0) <| congrArg₂ _ (hbyte 1) <| congrArg₂ _ (hbyte 2) <| congrArg₂ _ (hbyte 3) rfl

theorem flatMap_places {α : Type} (g : Fin 16 → List α) :
    (List.finRange 16).flatMap g =
      (List.finRange 4).flatMap fun r => (List.finRange 4).flatMap fun c => g (place r c) := by
  have h : List.finRange 16 = (List.finRange 4).flatMap fun r => (List.finRange 4).map (place r) := by decide
  rw [h, List.flatMap_assoc]
  simp only [List.flatMap_map]

/-- The block function is the one of ChaCha20. -/
theorem block_eq (s : State) :
    block s = ChaCha20.serialize fun r c => ChaCha20.doubleRound^[10] (toRows s) r c + toRows s r c := by
  have hrounds : ∀ n s, toRows ((fun s => diagonalRounds (columnRounds s))^[n] s) =
      ChaCha20.doubleRound^[n] (toRows s) := by
    intro n s
    refine (Function.Semiconj.iterate_right ?_ n) s
    intro s
    rw [toRows_diagonalRounds, toRows_columnRounds]
    rfl
  rw [← hrounds, block, flatMap_places, ChaCha20.serialize]
  simp only [toLeBytes_eq]
  rfl

theorem length_block (s : State) : (block s).length = 64 := by
  have hlen : ∀ i : Fin 16, (toLeBytes (((fun s => diagonalRounds (columnRounds s))^[10] s)[i] + s[i])).length = 4 :=
    fun _ => rfl
  rw [block, List.length_flatMap]
  simp only [hlen]
  rfl

/-! ## The seed -/

theorem toNat_append_eq {m n : ℕ} (x : BitVec m) (y : BitVec n) : (x ++ y).toNat = x.toNat * 2 ^ n + y.toNat := by
  rw [BitVec.toNat_append, ← Nat.shiftLeft_add_eq_or_of_lt y.isLt, Nat.shiftLeft_eq]

theorem fromLeBytes_eq (b0 b1 b2 b3 : UInt8) : fromLeBytes b0 b1 b2 b3 = ChaCha20.wordOfBytes [b0, b1, b2, b3] := by
  apply BitVec.eq_of_toNat_eq
  have h0 := b0.toNat_lt
  have h1 := b1.toNat_lt
  have h2 := b2.toNat_lt
  have h3 := b3.toNat_lt
  simp only [fromLeBytes, ChaCha20.wordOfBytes, toNat_append_eq, UInt8.toNat_toBitVec, Numerals.value,
    List.reverse_cons, List.reverse_nil, List.nil_append, List.cons_append, List.map_cons, List.map_nil,
    List.foldl_cons, List.foldl_nil, BitVec.toNat_ofNat]
  omega

theorem leWord_eq {n : ℕ} (bytes : Vector UInt8 n) (i : ℕ) (h : 4 * i + 4 ≤ n) :
    leWord bytes i h = ChaCha20.wordAt bytes.toList i := by
  have htake : (bytes.toList.drop (4 * i)).take 4 =
      [bytes[4 * i], bytes[4 * i + 1], bytes[4 * i + 2], bytes[4 * i + 3]] := by
    apply List.ext_getElem
    · simp
      omega
    · intro j hj hj'
      have : j = 0 ∨ j = 1 ∨ j = 2 ∨ j = 3 := by simp at hj'; omega
      obtain rfl | rfl | rfl | rfl := this <;> simp
  rw [leWord, fromLeBytes_eq, ChaCha20.wordAt, htake]

/-- A state with another counter. -/
def withCounter (seed : State) (i : ℕ) : State := seed.set 12 (BitVec.ofNat 32 i)

theorem getElem_withCounter (seed : State) (n : ℕ) {i : ℕ} (hi : i < 16) (h : 12 ≠ i) :
    (withCounter seed n)[i] = seed[i] := Vector.getElem_set_ne _ _ h

theorem getElem_fromSeed (key : Vector UInt8 32) (nonce : Vector UInt8 12) {i : ℕ} (hi : i < 16) :
    (fromSeed key nonce).state[i] =
      if _ : i < 4 then sigma[i]
      else if _ : i < 12 then leWord key (i - 4) (by omega)
      else if _ : i = 12 then 0
      else leWord nonce (i - 13) (by omega) := Vector.getElem_ofFn hi

/-- The state of a seed is the one of ChaCha20. -/
theorem toRows_withCounter (key : Vector UInt8 32) (nonce : Vector UInt8 12) (n : ℕ) :
    toRows (withCounter (fromSeed key nonce).state n) =
      ChaCha20.initial key.toList nonce.toList (BitVec.ofNat 32 n) := by
  have hsigma : ∀ c : Fin 4, sigma[c.val] = ChaCha20.wordAt ChaCha20.constants c := by decide
  have hnonce : ∀ {i : ℕ} (hi : i < 16) (h : 12 < i), (withCounter (fromSeed key nonce).state n)[i] =
      ChaCha20.wordAt nonce.toList (i - 13) := by
    intro i hi h
    rw [getElem_withCounter _ _ hi (by omega), getElem_fromSeed, dif_neg (by omega), dif_neg (by omega),
      dif_neg (by omega), leWord_eq]
  have hkey : ∀ {i : ℕ} (hi : i < 12) (h : 4 ≤ i), (withCounter (fromSeed key nonce).state n)[i] =
      ChaCha20.wordAt key.toList (i - 4) := by
    intro i hi h
    rw [getElem_withCounter _ _ (by omega) (by omega), getElem_fromSeed, dif_neg (by omega), dif_pos (by omega),
      leWord_eq]
  funext r c
  have hr : r = 0 ∨ r = 1 ∨ r = 2 ∨ r = 3 := by omega
  obtain rfl | rfl | rfl | rfl := hr
  · show (withCounter (fromSeed key nonce).state n)[4 * 0 + c.val] = ChaCha20.wordAt ChaCha20.constants c
    rw [getElem_withCounter _ _ (by omega) (by omega), getElem_fromSeed, dif_pos (by omega), ← hsigma c]
    simp only [Nat.mul_zero, Nat.zero_add]
  · show (withCounter (fromSeed key nonce).state n)[4 * 1 + c.val] = ChaCha20.wordAt key.toList c
    rw [hkey (by omega) (by omega), Nat.mul_one, Nat.add_sub_cancel_left]
  · show (withCounter (fromSeed key nonce).state n)[4 * 2 + c.val] = ChaCha20.wordAt key.toList (4 + c)
    rw [hkey (by omega) (by omega)]
    exact congrArg _ (by omega)
  · have hc : c = 0 ∨ c = 1 ∨ c = 2 ∨ c = 3 := by omega
    obtain rfl | rfl | rfl | rfl := hc
    · exact Vector.getElem_set_self _
    · exact hnonce (by omega) (by omega)
    · exact hnonce (by omega) (by omega)
    · exact hnonce (by omega) (by omega)

/-- A block of the generator is the block of the key and the nonce with its counter. -/
theorem block_withCounter (key : Vector UInt8 32) (nonce : Vector UInt8 12) (n : ℕ) :
    block (withCounter (fromSeed key nonce).state n) = ChaCha20.block key.toList nonce.toList (BitVec.ofNat 32 n) := by
  rw [block_eq, toRows_withCounter]
  rfl

/-! ## The stream -/

section Stream

variable (seed : State)

/-- Byte `p` of the stream, with a counter that wraps. -/
def byteAt (p : ℕ) : UInt8 := (block (withCounter seed (p / 64))).getD (p % 64) 0

/-- The `m` bytes of the stream from byte `p` on. -/
def stretch (p m : ℕ) : List UInt8 := (List.range m).map fun i => byteAt seed (p + i)

/-- How many blocks are made for the first `p` bytes. -/
def made (p : ℕ) : ℕ := (p + 63) / 64

/-- The inputs of the blocks that the `m` bytes from byte `p` on need anew. -/
def inputsOf (p m : ℕ) : List State := (List.range' (made p) (made (p + m) - made p)).map (withCounter seed)

theorem stretch_add (p m n : ℕ) : stretch seed p (m + n) = stretch seed p m ++ stretch seed (p + m) n := by
  simp only [stretch, List.range_add, List.map_append, List.map_map, Function.comp_def, Nat.add_assoc]

theorem inputsOf_add (p m n : ℕ) : inputsOf seed p (m + n) = inputsOf seed p m ++ inputsOf seed (p + m) n := by
  have hle : made p ≤ made (p + m) ∧ made (p + m) ≤ made (p + (m + n)) := by
    simp only [made]
    omega
  have hstart : made (p + m) = made p + (made (p + m) - made p) := by omega
  have hlen : made (p + (m + n)) - made p = made (p + m) - made p + (made (p + m + n) - made (p + m)) := by
    rw [Nat.add_assoc]
    omega
  rw [inputsOf, inputsOf, inputsOf, ← List.map_append, hlen, ← List.range'_append_1, ← hstart]

/-- What a block holds from some byte on is a stretch of the stream. -/
theorem take_drop_block {p take : ℕ} (h : p % 64 + take ≤ 64) :
    ((block (withCounter seed (p / 64))).drop (p % 64)).take take = stretch seed p take := by
  have hlen := length_block (withCounter seed (p / 64))
  apply List.ext_getElem
  · rw [List.length_take, List.length_drop, hlen, stretch, List.length_map, List.length_range]
    omega
  · intro i hi hi'
    have hi : i < take := by simpa [stretch] using hi'
    have hdiv : (p + i) / 64 = p / 64 := by omega
    have hmod : (p + i) % 64 = p % 64 + i := by omega
    rw [List.getElem_take, List.getElem_drop]
    simp only [stretch, List.getElem_map, List.getElem_range, byteAt, hdiv, hmod]
    exact List.getElem_eq_getD 0

/-- The generator has handed out `p` bytes. -/
structure StandsAt (p : ℕ) (rng : ChaCha20Rng) : Prop where
  state_eq : rng.state = withCounter seed (made p)
  avail_eq : rng.avail = 64 * made p - p
  buf_eq : rng.avail ≠ 0 → rng.buf = block (withCounter seed (p / 64))

/-- What was drawn is the stretch of the stream from byte `p` on. -/
structure Draws (p m : ℕ) (d : Drawn) : Prop where
  bytes_eq : d.bytes = stretch seed p m
  inputs_eq : d.inputs = inputsOf seed p m
  standsAt : StandsAt seed (p + m) d.rng

variable {seed}

theorem withCounter_succ (i : ℕ) :
    (withCounter seed i).set 12 ((withCounter seed i)[12] + 1) = withCounter seed (i + 1) := by
  have hone : BitVec.ofNat 32 i + 1 = BitVec.ofNat 32 (i + 1) := (BitVec.ofNat_add i 1).symm
  rw [withCounter, Vector.getElem_set_self, Vector.set_set, hone, withCounter]

theorem Draws.append {p m n : ℕ} {d d' : Drawn} (h : Draws seed p m d) (h' : Draws seed (p + m) n d') :
    Draws seed p (m + n) ⟨d.bytes ++ d'.bytes, d.inputs ++ d'.inputs, d'.rng⟩ where
  bytes_eq := by rw [h.bytes_eq, h'.bytes_eq, stretch_add]
  inputs_eq := by rw [h.inputs_eq, h'.inputs_eq, inputsOf_add]
  standsAt := by
    rw [← Nat.add_assoc]
    exact h'.standsAt

/-- With a byte left, the block at hand is the one of the next byte. -/
theorem StandsAt.ready {p : ℕ} {rng : ChaCha20Rng} (h : StandsAt seed p rng) :
    rng.ready =
      (⟨withCounter seed (p / 64 + 1), block (withCounter seed (p / 64)), 64 - p % 64⟩, inputsOf seed p 1) := by
  have havail := h.avail_eq
  rw [ChaCha20Rng.ready]
  split_ifs with hzero
  · have hmade : made p = p / 64 ∧ made (p + 1) = p / 64 + 1 ∧ p % 64 = 0 := by
      simp only [made] at *
      omega
    obtain ⟨hp, hp', hmod⟩ := hmade
    have hinputs : inputsOf seed p 1 = [withCounter seed (p / 64)] := by
      rw [inputsOf, hp, hp', Nat.add_sub_cancel_left]
      rfl
    have hstate := h.state_eq
    rw [hp] at hstate
    rw [hinputs, hmod, ChaCha20Rng.refill, hstate, withCounter_succ]
  · have hmade : made p = p / 64 + 1 ∧ made (p + 1) = p / 64 + 1 ∧ rng.avail = 64 - p % 64 := by
      simp only [made] at *
      omega
    obtain ⟨hp, hp', havail⟩ := hmade
    have hinputs : inputsOf seed p 1 = [] := by
      rw [inputsOf, hp, hp', Nat.sub_self]
      rfl
    rw [hinputs, ← h.buf_eq hzero, ← hp, ← h.state_eq, ← havail]

/-- A request continues the stream where the one before it ended. -/
theorem draws_fill {p : ℕ} {rng : ChaCha20Rng} (h : StandsAt seed p rng) (m : ℕ) : Draws seed p m (fill rng m) := by
  induction m using Nat.strong_induction_on generalizing p rng with
  | _ m ih =>
    cases m with
    | zero =>
      rw [fill]
      refine ⟨rfl, ?_, h⟩
      rw [inputsOf, Nat.add_zero, Nat.sub_self]
      rfl
    | succ m =>
      rw [fill, h.ready]
      dsimp only
      set take := min (64 - p % 64) (m + 1)
      have htake : 0 < take ∧ p % 64 + take ≤ 64 ∧ take ≤ m + 1 := by omega
      obtain ⟨hpos, hfits, hle⟩ := htake
      have hfrom : 64 - (64 - p % 64) = p % 64 := by omega
      have hmade : made (p + take) = p / 64 + 1 ∧ made (p + 1) = p / 64 + 1 := by
        simp only [made]
        omega
      have hnow : Draws seed p take ⟨((block (withCounter seed (p / 64))).drop (64 - (64 - p % 64))).take take,
          inputsOf seed p 1,
          ⟨withCounter seed (p / 64 + 1), block (withCounter seed (p / 64)), 64 - p % 64 - take⟩⟩ := by
        refine ⟨by rw [hfrom, take_drop_block seed hfits], by rw [inputsOf, inputsOf, hmade.1, hmade.2], ?_⟩
        refine ⟨by rw [hmade.1], ?_, fun hleft => ?_⟩
        · rw [hmade.1]
          dsimp only
          omega
        · have hsame : (p + take) / 64 = p / 64 := by
            dsimp only at hleft
            omega
          rw [hsame]
      have hrest := ih (m + 1 - take) (by omega) hnow.standsAt
      have hall := hnow.append hrest
      rw [Nat.add_sub_cancel' hle] at hall
      exact hall

/-- So does a sequence of requests, however the bytes are split. -/
theorem draws_fills {p : ℕ} {rng : ChaCha20Rng} (h : StandsAt seed p rng) (lens : List ℕ) :
    Draws seed p lens.sum (fills rng lens) := by
  induction lens generalizing p rng with
  | nil => exact ⟨rfl, by rw [inputsOf, List.sum_nil, Nat.add_zero, Nat.sub_self]; rfl, h⟩
  | cons m lens ih =>
    have hfirst := draws_fill h m
    exact hfirst.append (ih hfirst.standsAt)

theorem standsAt_fromSeed (key : Vector UInt8 32) (nonce : Vector UInt8 12) :
    StandsAt (fromSeed key nonce).state 0 (fromSeed key nonce) where
  state_eq := by
    have hzero : (fromSeed key nonce).state[12] = 0 := getElem_fromSeed key nonce _
    show (fromSeed key nonce).state = (fromSeed key nonce).state.set 12 0
    rw [← hzero, Vector.set_getElem_self]
  avail_eq := rfl
  buf_eq h := absurd rfl h

/-! ## How far it goes -/

/-- The blocks of the first counters are a stretch of the stream. -/
theorem flatMap_blocks (n : ℕ) :
    (List.range n).flatMap (fun i => block (withCounter seed i)) = stretch seed 0 (64 * n) := by
  induction n with
  | zero => rfl
  | succ n ih =>
    have hblock : block (withCounter seed n) = stretch seed (64 * n) 64 := by
      have hmod : 64 * n % 64 = 0 := by omega
      have hdiv : 64 * n / 64 = n := by omega
      rw [← take_drop_block seed (by omega), hmod, hdiv, List.drop_zero, ← length_block, List.take_length]
    rw [List.range_succ, List.flatMap_append, ih, List.flatMap_singleton, hblock, Nat.mul_succ, stretch_add,
      Nat.zero_add]

theorem take_stretch {m n : ℕ} (h : m ≤ n) : (stretch seed 0 n).take m = stretch seed 0 m := by
  obtain ⟨k, rfl⟩ := Nat.exists_eq_add_of_le h
  rw [stretch_add]
  apply List.take_left'
  rw [stretch, List.length_map, List.length_range]

theorem withCounter_inj {i j : ℕ} (hi : i < 2 ^ 32) (hj : j < 2 ^ 32) (h : withCounter seed i = withCounter seed j) :
    i = j := by
  have h := congrArg (fun s : State => s[12].toNat) h
  simp only [withCounter, Vector.getElem_set_self, BitVec.toNat_ofNat] at h
  rwa [Nat.mod_eq_of_lt hi, Nat.mod_eq_of_lt hj] at h

/-- The inputs of the blocks come again when the counter has wrapped, and not before. -/
theorem nodup_inputsOf (n : ℕ) : (inputsOf seed 0 n).Nodup ↔ n ≤ 2 ^ 38 := by
  have hinputs : inputsOf seed 0 n = (List.range (made n)).map (withCounter seed) := by
    rw [inputsOf, Nat.zero_add, List.range_eq_range']
    rfl
  rw [hinputs]
  constructor
  · intro h
    by_contra hlong
    have hwrap : withCounter seed 0 = withCounter seed (2 ^ 32) := by
      rw [withCounter, withCounter]
      exact congrArg (fun c => seed.set 12 c) (by decide)
    have hmem : ∀ i ≤ 2 ^ 32, i ∈ List.range (made n) := by
      intro i hi
      rw [List.mem_range, made]
      omega
    have := List.inj_on_of_nodup_map h (hmem 0 (Nat.zero_le _)) (hmem _ le_rfl) hwrap
    omega
  · intro h
    refine List.Nodup.map_on (fun i hi j hj => ?_) List.nodup_range
    rw [List.mem_range, made] at hi hj
    exact withCounter_inj (by omega) (by omega)

end Stream

/-- The generator is one key stream as long as the counter has not wrapped. -/
theorem isKeystream_iff (key : Vector UInt8 32) (nonce : Vector UInt8 12) (lens : List ℕ) :
    IsKeystream key nonce lens ↔ lens.sum ≤ 2 ^ 38 := by
  have hdraws := draws_fills (standsAt_fromSeed key nonce) lens
  have hlimit : 64 * ChaCha20.blockCount = 2 ^ 38 := by decide
  rw [IsKeystream, hdraws.bytes_eq, hdraws.inputs_eq, nodup_inputsOf]
  refine and_iff_right_of_imp fun h => ?_
  rw [ChaCha20.keystream, hlimit, if_pos h]
  simp only [← block_withCounter]
  rw [flatMap_blocks, take_stretch (hlimit ▸ h)]

/-- Enough requests for the random bytes of a page each make the first block again. -/
theorem not_isKeystream_long :
    ¬ IsKeystream (Vector.replicate 32 0) (Vector.replicate 12 0) (List.replicate (2 ^ 24 + 1) (2 ^ 14)) := by
  intro h
  have hdraws := draws_fills (standsAt_fromSeed (Vector.replicate 32 0) (Vector.replicate 12 0))
    (List.replicate (2 ^ 24 + 1) (2 ^ 14))
  have hnodup := h.2
  rw [hdraws.inputs_eq, nodup_inputsOf, List.sum_replicate_nat] at hnodup
  exact absurd hnodup (by decide)

end Wasmrt.Rng
