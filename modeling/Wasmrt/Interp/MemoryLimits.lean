import Wasmrt.Interp.Plain
import Wasmrt.Store.Ceilings
import Wasmrt.Store.Outcome
import Wasmrt.Validate.Module

/-!
# The limits of a memory over runs

A memory keeps to the limits of the type it was allocated for, whoever grows it: its size is a whole
number of its own pages, within the declared maximum, the address space and the ceiling of the host.
`memory.size` reports that number, and `memory.grow` answers with it or refuses.

The growth is modelled on machine words as well, where every sum and product is checked as in the source;
it gives the sizes of the model on numbers, so nothing wraps on the way.

## Main definitions

* `Memory.growWord`: what `memory.grow` computes, on machine words.
* `Memory.Coherent`: a memory within the limits of its type.
* `Memory.CanGrow`: the memory has room for more pages.

## Main results

* `Store.Step.coherent`: a step keeps every memory within its limits.
* `memory_limits_coherent`: sizes, `memory.size` and `memory.grow` in every store a run reaches.
-/

namespace Wasmrt

/-! ## Machine words -/

namespace Word

/-- A sum that overflows is refused. -/
def checkedAdd (a b : BitVec 64) : Option (BitVec 64) := if BitVec.uaddOverflow a b then none else some (a + b)

/-- A product that overflows is refused. -/
def checkedMul (a b : BitVec 64) : Option (BitVec 64) := if BitVec.umulOverflow a b then none else some (a * b)

/-- A shift by the width or more is refused. -/
def checkedShl (a : BitVec 64) (n : ℕ) : Option (BitVec 64) := if n < 64 then some (a <<< n) else none

theorem checkedAdd_of_lt {a b : BitVec 64} (h : a.toNat + b.toNat < 2 ^ 64) :
    checkedAdd a b = some (a + b) ∧ (a + b).toNat = a.toNat + b.toNat := by
  rw [checkedAdd, BitVec.uaddOverflow, if_neg (by simpa using h), BitVec.toNat_add, Nat.mod_eq_of_lt h]
  exact ⟨rfl, rfl⟩

theorem checkedAdd_of_not_lt {a b : BitVec 64} (h : ¬a.toNat + b.toNat < 2 ^ 64) : checkedAdd a b = none := by
  rw [checkedAdd, BitVec.uaddOverflow, if_pos (by simpa using h)]

theorem checkedMul_toNat (a b : BitVec 64) : (checkedMul a b).map BitVec.toNat =
    if a.toNat * b.toNat < 2 ^ 64 then some (a.toNat * b.toNat) else none := by
  rw [checkedMul, BitVec.umulOverflow]
  by_cases h : a.toNat * b.toNat < 2 ^ 64
  · rw [if_pos h, if_neg (by simpa using h), Option.map_some, BitVec.toNat_mul, Nat.mod_eq_of_lt h]
  · rw [if_neg h, if_pos (by simpa using h), Option.map_none]

theorem one_shiftLeft_toNat {n : ℕ} (h : n < 64) : ((1 : BitVec 64) <<< n).toNat = 2 ^ n := by
  have hlt : 2 ^ n < 2 ^ 64 := Nat.pow_lt_pow_right (by decide) h
  rw [BitVec.toNat_shiftLeft, show (1 : BitVec 64).toNat = 1 from rfl, Nat.one_shiftLeft, Nat.mod_eq_of_lt hlt]

/-- The largest page count of a memory. -/
def maxPages (is64 : Bool) (pageSizeLog2 : ℕ) : BitVec 64 :=
  let bits := if is64 then 64 else 32
  if pageSizeLog2 = 0 then
    if is64 then BitVec.allOnes 64 else (BitVec.allOnes 32).setWidth 64
  else if bits ≤ pageSizeLog2 then 1
  else 1 <<< (bits - pageSizeLog2)

/-- `pages` pages in bytes. -/
def pagesToBytes (pages : BitVec 64) (pageSizeLog2 : ℕ) : Option (BitVec 64) := do
  let unit ← checkedShl 1 pageSizeLog2
  checkedMul pages unit

theorem maxPages_toNat (is64 : Bool) (pageSizeLog2 : ℕ) :
    (maxPages is64 pageSizeLog2).toNat = Wasmrt.maxPages is64 pageSizeLog2 := by
  by_cases h0 : pageSizeLog2 = 0
  · subst h0
    cases is64 <;> decide
  · cases is64 <;> simp only [maxPages, Wasmrt.maxPages, if_neg h0, Bool.false_eq_true, if_false, if_true] <;>
      split
    · rfl
    · exact one_shiftLeft_toNat (by omega)
    · rfl
    · exact one_shiftLeft_toNat (by omega)

theorem pagesToBytes_toNat (pages : BitVec 64) (pageSizeLog2 : ℕ) :
    (pagesToBytes pages pageSizeLog2).map BitVec.toNat = Wasmrt.pagesToBytes pages.toNat pageSizeLog2 := by
  rw [pagesToBytes, checkedShl, Wasmrt.pagesToBytes, usizeMax]
  by_cases hlog : pageSizeLog2 < 64
  · rw [if_pos hlog, Option.bind_eq_bind, Option.bind_some, checkedMul_toNat, one_shiftLeft_toNat hlog]
    congr 1
    exact propext ⟨fun h => ⟨hlog, by omega⟩, fun h => by omega⟩
  · rw [if_neg hlog, if_neg fun h => hlog h.1]
    rfl

/-- Words are compared as numbers. -/
theorem map_filter_le (x : Option (BitVec 64)) (c : BitVec 64) :
    (x.filter (· ≤ c)).map BitVec.toNat = (x.map BitVec.toNat).filter (· ≤ c.toNat) := by
  cases x with
  | none => rfl
  | some a =>
    by_cases h : a.toNat ≤ c.toNat <;> simp [Option.filter, BitVec.le_def, h]

/-- The smaller of two words. -/
def smaller (a b : BitVec 64) : BitVec 64 := if a ≤ b then a else b

theorem smaller_toNat (a b : BitVec 64) : (smaller a b).toNat = min a.toNat b.toNat := by
  rw [smaller, min_def]
  by_cases h : a.toNat ≤ b.toNat
  · rw [if_pos (BitVec.le_def.mpr h), if_pos h]
  · rw [if_neg (mt BitVec.le_def.mp h), if_neg h]

/-- The size in bytes `memory.grow` reaches: `len` bytes are taken, and `delta` pages asked for. -/
def growTarget (is64 : Bool) (pageSizeLog2 : ℕ) (max : Option (BitVec 64)) (len byteCeiling delta : BitVec 64) :
    Option (BitVec 64) :=
  let old := len >>> pageSizeLog2
  let cap := maxPages is64 pageSizeLog2
  let limit := smaller (max.getD cap) cap
  ((checkedAdd old delta).filter (· ≤ limit)).bind fun pages =>
    (pagesToBytes pages pageSizeLog2).filter (· ≤ byteCeiling)

/-- A page count as it is pushed. -/
def pushPages (is64 : Bool) (pages : BitVec 64) : Value :=
  if is64 then i64Value pages else i32Value (pages.setWidth 32)

/-- The words hold the numbers of the model. -/
theorem growTarget_toNat {mem : Memory} {max : Option (BitVec 64)} {len byteCeiling delta : BitVec 64}
    (hlen : len.toNat = mem.bytes.length) (hmax : max.map BitVec.toNat = mem.max) :
    (growTarget mem.is64 mem.pageSizeLog2 max len byteCeiling delta).map BitVec.toNat =
      mem.growTarget byteCeiling.toNat delta.toNat := by
  have hold : (len >>> mem.pageSizeLog2).toNat = mem.pages := by
    rw [BitVec.toNat_ushiftRight, hlen, Memory.pages]
  have hlimit : (smaller (max.getD (maxPages mem.is64 mem.pageSizeLog2))
        (maxPages mem.is64 mem.pageSizeLog2)).toNat =
      min (mem.max.getD (Wasmrt.maxPages mem.is64 mem.pageSizeLog2))
        (Wasmrt.maxPages mem.is64 mem.pageSizeLog2) := by
    rw [smaller_toNat, maxPages_toNat, ← hmax]
    cases max with
    | none => rw [Option.getD_none, Option.map_none, Option.getD_none, maxPages_toNat]
    | some mx => rfl
  rw [growTarget, Memory.growTarget, ← hold]
  by_cases hadd : (len >>> mem.pageSizeLog2).toNat + delta.toNat < 2 ^ 64
  · obtain ⟨hsum, hval⟩ := checkedAdd_of_lt hadd
    rw [hsum]
    by_cases hle : (len >>> mem.pageSizeLog2).toNat + delta.toNat ≤
        min (mem.max.getD (Wasmrt.maxPages mem.is64 mem.pageSizeLog2))
          (Wasmrt.maxPages mem.is64 mem.pageSizeLog2)
    · have hword := BitVec.le_def.mpr (hval ▸ hlimit ▸ hle)
      rw [if_pos ⟨hadd, hle⟩, Option.filter_some, if_pos (decide_eq_true hword), Option.bind_some,
        map_filter_le, pagesToBytes_toNat, hval, Memory.pageBytes]
    · have hword := mt BitVec.le_def.mp (hval ▸ hlimit ▸ hle)
      rw [if_neg fun h => hle h.2, Option.filter_some, if_neg (by simpa using hword), Option.bind_none,
        Option.map_none]
  · rw [checkedAdd_of_not_lt hadd, if_neg fun h => hadd h.1]
    rfl

end Word

/-! ## Memories within their limits -/

/-- The width of a memory's addresses. -/
def addressBits (is64 : Bool) : ℕ := if is64 then 64 else 32

/-- A full memory fills the address space at most. -/
theorem maxPages_mul_le {is64 : Bool} {pageSizeLog2 : ℕ} (h : pageSizeLog2 ≤ addressBits is64) :
    maxPages is64 pageSizeLog2 * 2 ^ pageSizeLog2 ≤ 2 ^ addressBits is64 := by
  by_cases h0 : pageSizeLog2 = 0
  · subst h0
    cases is64 <;> decide
  · have hcap : maxPages is64 pageSizeLog2 = if addressBits is64 ≤ pageSizeLog2 then 1
        else 2 ^ (addressBits is64 - pageSizeLog2) := by
      rw [maxPages, if_neg h0]
      rfl
    rw [hcap]
    split
    · rw [one_mul]
      exact Nat.pow_le_pow_right (by decide) h
    · rw [← pow_add, Nat.sub_add_cancel h]

/-- A memory within the limits of the type it was allocated for and the ceiling of its host. -/
structure Memory.Coherent (mt : MemoryType) (byteCeiling : ℕ) (mem : Memory) : Prop where
  max_eq : mem.max = mt.limits.max
  is64_eq : mem.is64 = mt.limits.is64
  pageSizeLog2_eq : mem.pageSizeLog2 = mt.pageSizeLog2
  wholePages : mem.bytes.length = mem.pages * 2 ^ mt.pageSizeLog2
  min_le : mt.limits.min ≤ mem.pages
  le_max : ∀ mx, mt.limits.max = some mx → mem.pages ≤ mx
  le_maxPages : mem.pages ≤ maxPages mt.limits.is64 mt.pageSizeLog2
  le_ceiling : mem.bytes.length ≤ byteCeiling

/-- Is there room for `delta` more pages? -/
def Memory.CanGrow (byteCeiling delta : ℕ) (mem : Memory) : Prop :=
  (∀ mx, mem.max = some mx → mem.pages + delta ≤ mx) ∧
    mem.pages + delta ≤ maxPages mem.is64 mem.pageSizeLog2 ∧
    (mem.pages + delta) * 2 ^ mem.pageSizeLog2 ≤ byteCeiling

instance (byteCeiling delta : ℕ) (mem : Memory) : Decidable (mem.CanGrow byteCeiling delta) :=
  match h : mem.max with
  | none => decidable_of_iff (mem.pages + delta ≤ maxPages mem.is64 mem.pageSizeLog2 ∧
      (mem.pages + delta) * 2 ^ mem.pageSizeLog2 ≤ byteCeiling) (by simp [Memory.CanGrow, h])
  | some mx => decidable_of_iff (mem.pages + delta ≤ mx ∧
      mem.pages + delta ≤ maxPages mem.is64 mem.pageSizeLog2 ∧
      (mem.pages + delta) * 2 ^ mem.pageSizeLog2 ≤ byteCeiling) (by simp [Memory.CanGrow, h])

/-- What validation checks of a memory type. -/
theorem checkMemoryType_eq_ok {mt : MemoryType} (h : checkMemoryType mt = .ok ()) :
    (mt.pageSizeLog2 = 0 ∨ mt.pageSizeLog2 = 16) ∧
      mt.limits.min ≤ maxPages mt.limits.is64 mt.pageSizeLog2 ∧
      ∀ mx, mt.limits.max = some mx →
        mx ≤ maxPages mt.limits.is64 mt.pageSizeLog2 ∧ mt.limits.min ≤ mx := by
  simp only [checkMemoryType, Except.bind_eq_ok, ensure_eq_ok, Bool.or_eq_true, beq_iff_eq,
    decide_eq_true_iff] at h
  obtain ⟨-, hlog, -, hmin, h⟩ := h
  refine ⟨hlog, hmin, fun mx hmx => ?_⟩
  rw [hmx] at h
  simpa using h

theorem pages_of_length {mem : Memory} {n : ℕ} (h : mem.bytes.length = n * 2 ^ mem.pageSizeLog2) :
    mem.pages = n := by
  rw [Memory.pages, h, Nat.shiftRight_eq_div_pow, Nat.mul_div_cancel _ (Nat.two_pow_pos _)]

namespace Memory.Coherent

variable {mt : MemoryType} {c : ℕ} {mem mem' : Memory}

/-- Only the shape of a memory counts. -/
theorem of_shape_eq (h : Coherent mt c mem) (hshape : mem'.shape = mem.shape) : Coherent mt c mem' := by
  have hlen := Memory.length_of_shape_eq hshape
  simp only [shape, mk.injEq] at hshape
  obtain ⟨-, hmax, h64, -, hlog⟩ := hshape
  have hpages : mem'.pages = mem.pages := by rw [pages, pages, hlen, hlog]
  exact ⟨hmax.trans h.max_eq, h64.trans h.is64_eq, hlog.trans h.pageSizeLog2_eq,
    by rw [hlen, hpages, h.wholePages], hpages ▸ h.min_le, hpages ▸ h.le_max, hpages ▸ h.le_maxPages,
    hlen ▸ h.le_ceiling⟩

/-- `memory.grow` reaches a size if there is room for it, and refuses otherwise. -/
theorem growTarget_eq (h : Coherent mt c mem) (hlog : mt.pageSizeLog2 < 64) (hc : c ≤ usizeMax) (delta : ℕ) :
    mem.growTarget c delta = if mem.CanGrow c delta then some ((mem.pages + delta) * 2 ^ mem.pageSizeLog2)
      else none := by
  have hlimit : mem.pages + delta ≤ min (mem.max.getD (maxPages mem.is64 mem.pageSizeLog2))
      (maxPages mem.is64 mem.pageSizeLog2) ↔
      (∀ mx, mem.max = some mx → mem.pages + delta ≤ mx) ∧
        mem.pages + delta ≤ maxPages mem.is64 mem.pageSizeLog2 := by
    rw [le_min_iff]
    cases mem.max <;> simp
  have hcap := maxPages_lt mem.is64 mem.pageSizeLog2
  rw [growTarget]
  by_cases hgrow : mem.CanGrow c delta
  · obtain ⟨hmax, hpages, hbytes⟩ := hgrow
    rw [if_pos ⟨by omega, hlimit.mpr ⟨hmax, hpages⟩⟩, if_pos ⟨hmax, hpages, hbytes⟩, pageBytes, pagesToBytes,
      if_pos ⟨h.pageSizeLog2_eq ▸ hlog, hbytes.trans hc⟩, Option.filter_some, if_pos (decide_eq_true hbytes)]
  · rw [if_neg hgrow]
    split
    · rename_i hpages
      obtain ⟨hmax, hpages⟩ := hlimit.mp hpages.2
      rw [pageBytes, pagesToBytes]
      split
      · rw [Option.filter_some, if_neg]
        simpa using fun hbytes => hgrow ⟨hmax, hpages, hbytes⟩
      · rfl
    · rfl

/-- A granted growth stays within the limits. -/
theorem grow (h : Coherent mt c mem) {delta : ℕ} (hgrow : mem.CanGrow c delta) :
    Coherent mt c { mem with bytes := resize mem.bytes ((mem.pages + delta) * 2 ^ mem.pageSizeLog2) 0 } := by
  obtain ⟨hmax, hpages, hbytes⟩ := hgrow
  have hlen : (resize mem.bytes ((mem.pages + delta) * 2 ^ mem.pageSizeLog2) 0).length =
      (mem.pages + delta) * 2 ^ mem.pageSizeLog2 := length_resize _ _ _
  have hsize : pages { mem with
      bytes := resize mem.bytes ((mem.pages + delta) * 2 ^ mem.pageSizeLog2) 0 } = mem.pages + delta :=
    pages_of_length hlen
  exact ⟨h.max_eq, h.is64_eq, h.pageSizeLog2_eq, by rw [hsize, hlen, h.pageSizeLog2_eq],
    by rw [hsize]; exact le_add_right h.min_le,
    fun mx hmx => by rw [hsize]; exact hmax mx (h.max_eq.trans hmx),
    by rw [hsize, ← h.is64_eq, ← h.pageSizeLog2_eq]; exact hpages, hlen.trans_le hbytes⟩

end Memory.Coherent

/-! ## Steps and runs -/

/-- Every allocated memory has its minimum, within the ceiling. -/
theorem allocateMemories_within {limits : ResourceLimits} {mts : List MemoryType} {total : ℕ}
    {mems : List Memory} (h : allocateMemories limits total mts = .ok mems) :
    List.Forall₂ (fun mt mem => mt.limits.min * 2 ^ mt.pageSizeLog2 ≤ limits.maxMemoryBytes ∧
      mem = mt.allocate (mt.limits.min * 2 ^ mt.pageSizeLog2)) mts mems := by
  induction mts generalizing total mems with
  | nil =>
    obtain rfl := Except.pure_eq_ok.mp h
    exact .nil
  | cons mt mts ih =>
    simp only [allocateMemories, Except.bind_eq_ok, orError_eq_ok, Except.pure_eq_ok, pagesToBytes,
      Option.ite_none_right_eq_some, Option.some.injEq, ensure_eq_ok, decide_eq_true_iff] at h
    obtain ⟨_, ⟨-, rfl⟩, _, ⟨-, hle⟩, rest, hrest, rfl⟩ := h
    exact .cons ⟨by omega, rfl⟩ (ih hrest)

namespace Store

/-- A memory that was in the store before a module joined keeps its slot and its shape. -/
theorem memory_instantiate {s : Store} (m : Module) (imports : Imports) {k : ℕ} {mem : Memory}
    (hmem : s.pools.memories[k]? = some mem) :
    ∃ mem', (instantiate m imports s).state.pools.memories[k]? = some mem' ∧ mem'.shape = mem.shape := by
  rcases instantiate_error_or_committed m imports s with ⟨e, p, hprep, heq⟩ | hcommit
  · have hp := prepare_state s m imports s.pools
    rw [hprep, EStateM.Result.state_error] at hp
    rw [heq, EStateM.Result.state_error]
    rcases hp with rfl | hheap
    · exact ⟨mem, hmem, rfl⟩
    · exact ⟨mem, hheap.memories_eq ▸ hmem, rfl⟩
  · obtain ⟨parts, p, targets, -, hheap, -, -, hrw⟩ := hcommit.exists_parts
    refine hrw.getElem?_memories ?_
    have hlt := (List.getElem?_eq_some_iff.mp hmem).1
    rw [Pools.extend, hheap.memories_eq, List.getElem?_append_left hlt, hmem]

/-- A memory that an instantiation adds is one of those the module defines, at its minimum. -/
theorem Committed.coherent {s s' : Store} {m : Module} {imports : Imports} (h : Committed s m imports s')
    {j : ℕ} {mt : MemoryType} (hmt : m.definedMemories[j]? = some mt) (hvalid : checkMemoryType mt = .ok ()) :
    ∃ mem, s'.pools.memories[s.pools.memories.length + j]? = some mem ∧
      mem.Coherent mt s'.pools.limits.maxMemoryBytes := by
  obtain ⟨parts, p, targets, hparts, hheap, -, -, hrw⟩ := h.exists_parts
  obtain ⟨hlog, hmin, hmax⟩ := checkMemoryType_eq_ok hvalid
  obtain ⟨mem, hmem, hbytes, rfl⟩ := exists_getElem?_of_forall₂
    (allocateMemories_within hparts.memories) hmt
  have hfresh : (p.extend parts s.code.length m.tags.length).memories[s.pools.memories.length + j]? =
      some (mt.allocate (mt.limits.min * 2 ^ mt.pageSizeLog2)) := by
    rw [Pools.extend, hheap.memories_eq, List.getElem?_append_right (Nat.le_add_right _ _),
      Nat.add_sub_cancel_left, hmem]
  obtain ⟨mem', hmem', hshape⟩ := hrw.getElem?_memories hfresh
  have hlen : (mt.allocate (mt.limits.min * 2 ^ mt.pageSizeLog2)).bytes.length =
      mt.limits.min * 2 ^ mt.pageSizeLog2 := List.length_replicate
  have hpages : (mt.allocate (mt.limits.min * 2 ^ mt.pageSizeLog2)).pages = mt.limits.min :=
    pages_of_length hlen
  refine ⟨mem', hmem', Memory.Coherent.of_shape_eq ?_ hshape⟩
  rw [hrw.limits]
  exact ⟨rfl, rfl, rfl, by rw [hlen, hpages], hpages.ge, fun mx hmx => hpages.trans_le (hmax mx hmx).2,
    hpages.trans_le hmin, hlen.trans_le (hheap.limits_eq ▸ hbytes)⟩

/-- A step keeps every memory within its limits. -/
theorem Step.coherent {s s' : Store} (h : Step s s') {k : ℕ} {mem : Memory} {mt : MemoryType}
    (hmem : s.pools.memories[k]? = some mem) (hc : mem.Coherent mt s.pools.limits.maxMemoryBytes)
    (hlog : mt.pageSizeLog2 < 64) :
    ∃ mem', s'.pools.memories[k]? = some mem' ∧ mem'.Coherent mt s'.pools.limits.maxMemoryBytes := by
  rw [h.extends.pools.limits]
  cases h with
  | instantiate m imports _ =>
    obtain ⟨mem', hmem', hshape⟩ := memory_instantiate m imports hmem
    exact ⟨mem', hmem', hc.of_shape_eq hshape⟩
  | memoryGrow _ h =>
    rcases Pools.memoryGrow_cases h with rfl | ⟨grown, nbytes, hgrown, htarget, rfl⟩
    · exact ⟨mem, hmem, hc⟩
    · rename_i d mi operand v hd
      by_cases hk : d.maps.mem mi = k
      · subst hk
        obtain rfl := Option.some.inj (hgrown.symm.trans hmem)
        rw [hc.growTarget_eq hlog s.pools.limits.memory_le] at htarget
        split at htarget
        · rename_i hgrow
          obtain rfl := Option.some.inj htarget
          exact ⟨_, List.getElem?_set_self (List.getElem?_eq_some_iff.mp hmem).1, hc.grow hgrow⟩
        · cases htarget
      · exact ⟨mem, by rw [List.getElem?_set_ne hk, hmem], hc⟩
  | tableGrow _ h =>
    rcases Pools.tableGrow_cases h with rfl | ⟨_, _, _, _, rfl⟩ <;> exact ⟨mem, hmem, hc⟩
  | rewrite h =>
    obtain ⟨mem', hmem', hshape⟩ := h.getElem?_memories hmem
    exact ⟨mem', hmem', hc.of_shape_eq hshape⟩

theorem Run.coherent {s s' : Store} (h : Run s s') {k : ℕ} {mem : Memory} {mt : MemoryType}
    (hmem : s.pools.memories[k]? = some mem) (hc : mem.Coherent mt s.pools.limits.maxMemoryBytes)
    (hlog : mt.pageSizeLog2 < 64) :
    ∃ mem', s'.pools.memories[k]? = some mem' ∧ mem'.Coherent mt s'.pools.limits.maxMemoryBytes := by
  induction h with
  | refl => exact ⟨mem, hmem, hc⟩
  | tail _ hstep ih =>
    obtain ⟨mem₁, hmem₁, hc₁⟩ := ih
    exact hstep.coherent hmem₁ hc₁ hlog

end Store

/-! ## The two instructions -/

/-- What a refused growth pushes. -/
def minusOne (is64 : Bool) : Value := if is64 then i64Value (-1) else i32Value (-1)

/-- Page counts fit the words of the memory's index type. -/
theorem maxPages_lt_addressBits (is64 : Bool) (pageSizeLog2 : ℕ) :
    maxPages is64 pageSizeLog2 < 2 ^ addressBits is64 := by
  cases is64 with
  | true => exact maxPages_lt true pageSizeLog2
  | false =>
    by_cases h0 : pageSizeLog2 = 0
    · subst h0
      decide
    · simp only [maxPages, if_neg h0, Bool.false_eq_true, if_false]
      split
      · decide
      · exact Nat.pow_lt_pow_right (by decide) (show 32 - pageSizeLog2 < 32 by omega)

/-- A page count is read back as it was pushed. -/
theorem popMem_pushPages {mem : Memory} {pages : ℕ} (h : pages < 2 ^ addressBits mem.is64) :
    popMem mem.is64 (mem.pushPages pages) = pages := by
  unfold popMem Memory.pushPages
  cases h64 : mem.is64 with
  | true =>
    rw [h64] at h
    simp only [if_true, asI64, i64Value, BitVec.toNat_setWidth, BitVec.toNat_ofNat]
    rw [addressBits, if_pos rfl] at h
    omega
  | false =>
    rw [h64] at h
    simp only [Bool.false_eq_true, if_false, asI32, i32Value, BitVec.toNat_setWidth, BitVec.toNat_ofNat]
    rw [addressBits, if_neg Bool.false_ne_true] at h
    omega

theorem resize_of_le {α : Type*} {l : List α} {n : ℕ} (h : l.length ≤ n) (fill : α) :
    resize l n fill = l ++ List.replicate (n - l.length) fill := by
  rw [resize, List.take_of_length_le h]

/-- `memory.grow` on a memory within its limits: the previous size and zero bytes after the old ones, or
-1 and nothing else. -/
theorem Memory.Coherent.memoryGrow {p : Pools} {slot : ℕ} {mem : Memory} {mt : MemoryType}
    (hc : mem.Coherent mt p.limits.maxMemoryBytes) (hmem : p.memories[slot]? = some mem)
    (hlog : mt.pageSizeLog2 < 64) (operand : Value) :
    p.memoryGrow slot operand = .ok
      (if mem.CanGrow p.limits.maxMemoryBytes (popMem mem.is64 operand) then
        (mem.pushPages mem.pages, { p with memories := p.memories.set slot { mem with
          bytes := mem.bytes ++ List.replicate (popMem mem.is64 operand * 2 ^ mem.pageSizeLog2) 0 } })
      else (minusOne mem.is64, p)) := by
  have htarget := hc.growTarget_eq hlog p.limits.memory_le (popMem mem.is64 operand)
  by_cases hroom : mem.CanGrow p.limits.maxMemoryBytes (popMem mem.is64 operand)
  · rw [if_pos hroom] at htarget
    have hlen : mem.bytes.length = mem.pages * 2 ^ mem.pageSizeLog2 := hc.pageSizeLog2_eq ▸ hc.wholePages
    have hle : mem.bytes.length ≤ (mem.pages + popMem mem.is64 operand) * 2 ^ mem.pageSizeLog2 := by
      rw [hlen]
      exact Nat.mul_le_mul_right _ (Nat.le_add_right _ _)
    have hbytes : resize mem.bytes ((mem.pages + popMem mem.is64 operand) * 2 ^ mem.pageSizeLog2) 0 =
        mem.bytes ++ List.replicate (popMem mem.is64 operand * 2 ^ mem.pageSizeLog2) 0 := by
      rw [resize_of_le hle, hlen, add_mul, Nat.add_sub_cancel_left]
    simp only [Pools.memoryGrow, hmem, orError, bind, Except.bind, htarget, if_pos hroom, hbytes,
      Memory.pushPages, BitVec.ofInt_natCast]
    rfl
  · rw [if_neg hroom] at htarget
    simp only [Pools.memoryGrow, hmem, orError, bind, Except.bind, htarget, if_neg hroom]
    rfl

/-- The words of the source hold the numbers of the model: nothing wraps. -/
theorem Memory.Coherent.words {c : ℕ} {mem : Memory} {mt : MemoryType} (hc : mem.Coherent mt c)
    (hlog : mt.pageSizeLog2 < 64) (hvalid : checkMemoryType mt = .ok ()) (hceiling : c ≤ usizeMax) {delta : ℕ}
    (hdelta : delta < 2 ^ 64) :
    (Word.growTarget mem.is64 mem.pageSizeLog2 (mem.max.map (BitVec.ofNat 64))
        (BitVec.ofNat 64 mem.bytes.length) (BitVec.ofNat 64 c) (BitVec.ofNat 64 delta)).map BitVec.toNat =
      (if mem.CanGrow c delta then some ((mem.pages + delta) * 2 ^ mem.pageSizeLog2) else none) ∧
    Word.pushPages mem.is64 (BitVec.ofNat 64 mem.bytes.length >>> mem.pageSizeLog2) =
      mem.pushPages mem.pages := by
  have hlt : mem.bytes.length < 2 ^ 64 := Nat.lt_succ_of_le (hc.le_ceiling.trans hceiling)
  have hword (n : ℕ) (h : n < 2 ^ 64) : (BitVec.ofNat 64 n).toNat = n := by
    rw [BitVec.toNat_ofNat, Nat.mod_eq_of_lt h]
  have hmax : (mem.max.map (BitVec.ofNat 64)).map BitVec.toNat = mem.max := by
    rw [hc.max_eq]
    cases hmx : mt.limits.max with
    | none => rfl
    | some mx =>
      have hle := ((checkMemoryType_eq_ok hvalid).2.2 mx hmx).1
      rw [Option.map_some, Option.map_some, hword mx (hle.trans_lt (maxPages_lt _ _))]
  refine ⟨?_, ?_⟩
  · rw [Word.growTarget_toNat (hword _ hlt) hmax, hword c (Nat.lt_succ_of_le hceiling), hword delta hdelta]
    exact hc.growTarget_eq hlog hceiling delta
  · have hpages : BitVec.ofNat 64 mem.bytes.length >>> mem.pageSizeLog2 = BitVec.ofNat 64 mem.pages := by
      apply BitVec.eq_of_toNat_eq
      rw [BitVec.toNat_ushiftRight, hword _ hlt, hword _ (hc.le_maxPages.trans_lt (maxPages_lt _ _)), Memory.pages]
    rw [hpages, Word.pushPages, Memory.pushPages, BitVec.setWidth_ofNat_of_le (by decide)]

/-! ## Runs -/

/-- What holds of the memory in a slot of a store, allocated for the type `mt`, whichever instance runs
an instruction on it. The last field reads the source's words. -/
structure MemoryLaws (mt : MemoryType) (s : Store) (slot : ℕ) (mem : Memory) : Prop where
  coherent : mem.Coherent mt s.pools.limits.maxMemoryBytes
  length_le : mem.bytes.length ≤ 2 ^ addressBits mt.limits.is64
  pushed : popMem mem.is64 (mem.pushPages mem.pages) = mem.pages
  size : ∀ {d : InstanceData} {st : PlainState} {mi : ℕ}, d.maps.mem mi = slot →
    st.contents = s.pools.contents →
    execMemory d s.pools.limits st (.memorySize mi) = .ok (st.push (mem.pushPages mem.pages))
  grow : ∀ {d : InstanceData} {st : PlainState} {mi : ℕ}, d.maps.mem mi = slot →
    st.contents = s.pools.contents →
    let delta := popMem mem.is64 st.pop.1
    let mem' := { mem with bytes := mem.bytes ++ List.replicate (delta * 2 ^ mem.pageSizeLog2) 0 }
    execMemory d s.pools.limits st (.memoryGrow mi) = .ok
      (if mem.CanGrow s.pools.limits.maxMemoryBytes delta then
        { st.pop.2 with contents.memories := s.pools.memories.set slot mem' }.push (mem.pushPages mem.pages)
      else st.pop.2.push (minusOne mem.is64))
  words : ∀ {delta : ℕ}, delta < 2 ^ 64 →
    (Word.growTarget mem.is64 mem.pageSizeLog2 (mem.max.map (BitVec.ofNat 64))
        (BitVec.ofNat 64 mem.bytes.length) (BitVec.ofNat 64 s.pools.limits.maxMemoryBytes)
        (BitVec.ofNat 64 delta)).map BitVec.toNat =
      (if mem.CanGrow s.pools.limits.maxMemoryBytes delta then
        some ((mem.pages + delta) * 2 ^ mem.pageSizeLog2) else none) ∧
    Word.pushPages mem.is64 (BitVec.ofNat 64 mem.bytes.length >>> mem.pageSizeLog2) =
      mem.pushPages mem.pages

/-- The laws follow from coherence. -/
theorem Memory.Coherent.laws {s : Store} {slot : ℕ} {mem : Memory} {mt : MemoryType}
    (hc : mem.Coherent mt s.pools.limits.maxMemoryBytes) (hmem : s.pools.memories[slot]? = some mem)
    (hvalid : checkMemoryType mt = .ok ()) : MemoryLaws mt s slot mem := by
  have hlog := (checkMemoryType_eq_ok hvalid).1
  have hlog64 : mt.pageSizeLog2 < 64 := by omega
  have hbits : mt.pageSizeLog2 ≤ addressBits mt.limits.is64 := by
    rw [addressBits]
    split <;> omega
  refine ⟨hc, ?_, popMem_pushPages ?_, ?_, ?_, hc.words hlog64 hvalid s.pools.limits.memory_le⟩
  · rw [hc.wholePages]
    exact (Nat.mul_le_mul_right _ hc.le_maxPages).trans (maxPages_mul_le hbits)
  · rw [hc.is64_eq]
    exact hc.le_maxPages.trans_lt (maxPages_lt_addressBits _ _)
  · intro d st mi hslot hst
    have hget : st.contents.memories[d.maps.mem mi]? = some mem := by rw [hst, hslot]; exact hmem
    simp only [execMemory, hget, orError]
    rfl
  · intro d st mi hslot hst delta mem'
    have hmemories : st.contents.memories = s.pools.memories := congrArg Contents.memories hst
    have hgrow := @Memory.Coherent.memoryGrow { limits := s.pools.limits, memories := s.pools.memories } slot mem
      mt hc hmem hlog64 st.pop.1
    show (Pools.memoryGrow { limits := s.pools.limits, memories := st.contents.memories } (d.maps.mem mi) st.pop.1 >>=
      fun r => pure ({ st.pop.2 with contents.memories := r.2.memories }.push r.1)) = _
    rw [hmemories, hslot, hgrow]
    by_cases hroom : mem.CanGrow s.pools.limits.maxMemoryBytes (popMem mem.is64 st.pop.1)
    · rw [if_pos hroom, if_pos hroom]
      rfl
    · rw [if_neg hroom, if_neg hroom]
      show Except.ok (PlainState.push { st.pop.2 with contents.memories := s.pools.memories } _) = _
      rw [← hmemories]
      rfl

/-- In every store a run reaches from the one a memory was allocated in, the memory keeps to the limits of
its validated type, and to the maximum under which any module has imported it; `memory.size` and
`memory.grow` tell its size. -/
theorem memory_limits_coherent {s₀ s₁ s : Store} {m : Module} {imports : Imports}
    (hcommit : Store.Committed s₀ m imports s₁) {j : ℕ} {mt : MemoryType}
    (hmt : m.definedMemories[j]? = some mt) (hvalid : checkMemoryType mt = .ok ()) (hrun : s₁.Run s) :
    ∃ mem, s.pools.memories[s₀.pools.memories.length + j]? = some mem ∧
      MemoryLaws mt s (s₀.pools.memories.length + j) mem ∧
      ∀ {s₂ : Store} {mem₂ : Memory} {declared : MemoryType}, s₁.Run s₂ →
        s₂.pools.memories[s₀.pools.memories.length + j]? = some mem₂ →
        memoryImportMatches mem₂ declared = true →
        ∀ mx, declared.limits.max = some mx → mem.pages ≤ mx := by
  have hlog : mt.pageSizeLog2 < 64 := by
    have := (checkMemoryType_eq_ok hvalid).1
    omega
  obtain ⟨mem₁, hmem₁, hc₁⟩ := hcommit.coherent hmt hvalid
  obtain ⟨mem, hmem, hc⟩ := hrun.coherent hmem₁ hc₁ hlog
  refine ⟨mem, hmem, hc.laws hmem hvalid, fun {s₂ mem₂ declared} hrun₂ hmem₂ hmatch mx hmx => ?_⟩
  obtain ⟨mem₂', hmem₂', hc₂⟩ := hrun₂.coherent hmem₁ hc₁ hlog
  obtain rfl := Option.some.inj (hmem₂.symm.trans hmem₂')
  rw [memoryImportMatches, hmx, Bool.and_eq_true, hc₂.max_eq] at hmatch
  cases hown : mt.limits.max with
  | none =>
    rw [hown] at hmatch
    exact absurd hmatch.2 Bool.false_ne_true
  | some own =>
    rw [hown] at hmatch
    exact (hc.le_max own hown).trans (of_decide_eq_true hmatch.2)

/-- A module with a memory of two one-byte pages, which may have four. -/
def smallMemory : Module := { memories := [⟨{ min := 2, max := some 4 }, some 0⟩] }

theorem memory_limits_coherent_small :
    ∃ mem, (Store.instantiate smallMemory {} (Store.new 0 .defaults)).state.pools.memories[0 + 0]? = some mem ∧
      mem.pages ≤ 4 := by
  have hcommit := (@Store.instantiate_ok smallMemory {} (Store.new 0 .defaults) _ ⟨0, 0⟩ rfl).2
  have hvalid : checkMemoryType ⟨{ min := 2, max := some 4 }, some 0⟩ = .ok () := rfl
  obtain ⟨mem, hmem, hlaws, -⟩ := @memory_limits_coherent _ _ _ _ _ hcommit 0 _ rfl hvalid .refl
  exact ⟨mem, hmem, hlaws.coherent.le_max 4 rfl⟩

end Wasmrt
