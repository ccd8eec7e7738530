import Wasmrt.Interp.AccessKinds
import Wasmrt.Interp.BulkSteps

/-!
# Memory accesses are exact

Every instruction that accesses a memory does the access it stands for: it traps just in case the bytes from the
effective address on do not fit, or an atomic one is misaligned, and then nothing is written. A load finds what a store
left, and a read-modify-write is a load, an operation and a store.

## Main definitions

* `MemoryExact`: what the accesses of an instance are to be like.

## Main results

* `access_exact`: a step does its access.
* `agrees_load`, `agrees_store`: the machine's plain step is the step in place.
* `memory_exact`: so all accesses are as they should be.
-/

namespace Wasmrt

open BlockMove MachineInt

/-! ## Bytes -/

theorem leValue_cons (b : UInt8) (l : List UInt8) : leValue (b :: l) = b.toNat + 256 * leValue l := rfl

theorem leValue_lt (l : List UInt8) : leValue l < 256 ^ l.length := by
  induction l with
  | nil => exact Nat.one_pos
  | cons b l ih =>
    have hb : b.toNat < 256 := b.toNat_lt
    rw [leValue_cons, List.length_cons, pow_succ]
    omega

theorem leValue_append_zeros (l : List UInt8) (k : ℕ) : leValue (l ++ List.replicate k 0) = leValue l := by
  induction l with
  | nil =>
    induction k with
    | zero => rfl
    | succ k ih => rw [List.replicate_succ, List.nil_append, leValue_cons, ← List.nil_append (List.replicate k 0), ih]; rfl
  | cons b l ih => rw [List.cons_append, leValue_cons, leValue_cons, ih]

theorem leValue_drop (l : List UInt8) (k : ℕ) : leValue (l.drop k) = leValue l / 256 ^ k := by
  induction k generalizing l with
  | zero => rw [List.drop_zero, pow_zero, Nat.div_one]
  | succ k ih =>
    cases l with
    | nil => rw [List.drop_nil]; exact (Nat.zero_div _).symm
    | cons b l =>
      have hb : b.toNat < 256 := b.toNat_lt
      rw [List.drop_succ_cons, ih, leValue_cons, pow_succ', ← Nat.div_div_eq_div_mul]
      congr 1
      omega

theorem leValue_take (l : List UInt8) (k : ℕ) : leValue (l.take k) = leValue l % 256 ^ k := by
  induction k generalizing l with
  | zero => rw [List.take_zero, pow_zero, Nat.mod_one]; rfl
  | succ k ih =>
    cases l with
    | nil => rw [List.take_nil]; exact (Nat.zero_mod _).symm
    | cons b l =>
      have hb : b.toNat < 256 := b.toNat_lt
      have hlow : (b.toNat + 256 * leValue l) % 256 = b.toNat := by omega
      have hhigh : (b.toNat + 256 * leValue l) / 256 = leValue l := by omega
      rw [List.take_succ_cons, leValue_cons, leValue_cons, ih, pow_succ', Nat.mod_mul, hlow, hhigh]

/-- A run of bytes that holds the digits of a number has its remainder. -/
theorem leValue_of_digits {l : List UInt8} {n w : ℕ} (hlen : l.length = w)
    (h : ∀ k < w, l[k]? = some (UInt8.ofNat (n / 256 ^ k))) : leValue l = n % 256 ^ w := by
  have hdigits : l = (List.range w).map fun k => UInt8.ofNat (n / 256 ^ k) := by
    apply List.ext_getElem?
    intro k
    by_cases hk : k < w
    · rw [h k hk, List.getElem?_map, List.getElem?_range hk]
      rfl
    · rw [List.getElem?_eq_none (by omega), List.getElem?_eq_none (by rw [List.length_map, List.length_range]; omega)]
  have hmap : l.map UInt8.toNat = (List.range w).map fun k => n / 256 ^ k % 256 := by
    rw [hdigits, List.map_map]
    exact List.map_congr_left fun k _ => UInt8.toNat_ofNat'
  rw [leValue_eq, hmap, Lanes.ofDigits_digit]

theorem getElem?_leBytes {n k : ℕ} (v : Value) (hk : k < n) : (leBytes n v)[k]? = some (UInt8.ofNat (v.toNat / 256 ^ k)) := by
  have hbyte : UInt8.ofNat ((v >>> (8 * k)).toNat % 256) = UInt8.ofNat (v.toNat / 256 ^ k) := by
    apply UInt8.toNat_inj.mp
    simp only [UInt8.toNat_ofNat', BitVec.toNat_ushiftRight, Nat.shiftRight_eq_div_pow, Nat.mod_mod, pow_mul]
    rfl
  rw [leBytes, List.getElem?_map, List.getElem?_range hk, Option.map_some, hbyte]

theorem length_leBytes (n : ℕ) (v : Value) : (leBytes n v).length = n := by
  rw [leBytes, List.length_map, List.length_range]

namespace InPlace

/-- A byte below the others. -/
theorem ofNat_leValue_cons (b : UInt8) (l : List UInt8) :
    BitVec.ofNat 64 (leValue (b :: l)) = b.toBitVec.setWidth 64 ||| BitVec.ofNat 64 (leValue l) <<< 8 := by
  have hdisjoint (x : BitVec 64) : b.toBitVec.setWidth 64 &&& x <<< 8 = 0#64 := by
    ext i hi
    simp only [BitVec.getElem_and, BitVec.getElem_setWidth, BitVec.getElem_shiftLeft, BitVec.getElem_zero]
    by_cases h : i < 8
    · simp [h]
    · simp [BitVec.getLsbD_of_ge b.toBitVec i (by omega)]
  have hlow : BitVec.ofNat 64 b.toNat = b.toBitVec.setWidth 64 := by
    rw [← BitVec.ofNat_toNat]
    rfl
  have hhigh (n : ℕ) : BitVec.ofNat 64 (256 * n) = BitVec.ofNat 64 n <<< 8 := by
    apply BitVec.eq_of_toNat_eq
    simp only [BitVec.toNat_ofNat, BitVec.toNat_shiftLeft, Nat.shiftLeft_eq]
    omega
  rw [← BitVec.add_eq_or_of_and_eq_zero _ _ (hdisjoint _), leValue_cons, BitVec.ofNat_add, hlow, hhigh]

/-- The bytes put together are their number. -/
theorem gather_eq (l : List UInt8) : gather l = BitVec.ofNat 64 (leValue l) := by
  have hfold (k : ℕ) (v : BitVec 64) :
      (l.zipIdx k).foldl (fun (v : BitVec 64) (p : UInt8 × ℕ) => v ||| p.1.toBitVec.setWidth 64 <<< (8 * p.2)) v =
        v ||| BitVec.ofNat 64 (leValue l) <<< (8 * k) := by
    induction l generalizing k v with
    | nil => simp [leValue]
    | cons b l ih =>
      rw [List.zipIdx_cons, List.foldl_cons, ih, ofNat_leValue_cons, BitVec.shiftLeft_or_distrib, BitVec.or_assoc,
        ← BitVec.shiftLeft_add, Nat.mul_add, Nat.mul_one, Nat.add_comm 8]
  have hgather : gather l = 0 ||| BitVec.ofNat 64 (leValue l) <<< (8 * 0) := hfold 0 0
  rw [hgather, Nat.mul_zero, BitVec.shiftLeft_zero]
  exact BitVec.zero_or

variable {d : InstanceData} {α : Type}

/-! ## Steps -/

theorem push_run (v : Value) (st : PlainState) : push v st = .ok () (st.push v) := rfl

theorem bytesAt_run {s : PlainState} {slot ea n : ℕ} {mem : Memory} (hmem : s.contents.memories[slot]? = some mem)
    (hfit : ea + n ≤ mem.bytes.length) : bytesAt slot ea n s = .ok ((mem.bytes.drop ea).take n) s := by
  have hread : orPanic s.contents.memories[slot]? = (pure mem : InPlace Memory) := by rw [hmem]; rfl
  have hslice : orPanic (slice mem.bytes ea n) = (pure ((mem.bytes.drop ea).take n) : InPlace (List UInt8)) := by
    rw [slice_of_le hfit]
    rfl
  show (orPanic s.contents.memories[slot]? >>= fun mem => orPanic (slice mem.bytes ea n)) s = _
  rw [hread]
  show orPanic (slice mem.bytes ea n) s = _
  rw [hslice]
  rfl

/-- Writing the low bytes of a value writes those of its number. -/
theorem writeBytes_run {st : PlainState} {slot ea n : ℕ} {mem : Memory} (v : Value)
    (hmem : st.contents.memories[slot]? = some mem) (hfit : ea + n ≤ mem.bytes.length) (k : ℕ) :
    ∃ bytes, Moved mem.bytes bytes ea n (fun i => some (UInt8.ofNat (v.toNat / 256 ^ i))) ∧
      writeBytes slot ea n v (st.popped k) =
        .ok () { st.popped k with contents := st.contents.putBytes slot mem bytes } := by
  have hroom : ea + (leBytes n v).length ≤ mem.bytes.length := (length_leBytes n v).symm ▸ hfit
  obtain ⟨bytes, hwrite, hmoved⟩ := moved_overwrite hroom
  rw [length_leBytes] at hmoved
  refine ⟨bytes, hmoved.congr fun i hi => getElem?_leBytes v hi, ?_⟩
  exact onBytes_run hmem hwrite k

/-- A sum of an address and an offset that fits passes the checks; another traps. -/
theorem checked_bind {addr offset n len : ℕ} (hlen : len < 2 ^ 64) (f : ℕ → InPlace α) (st : PlainState) :
    (orTrap .memoryOutOfBounds (checkedAdd addr offset) >>= fun ea =>
      orTrap .memoryOutOfBounds (checkedAdd ea n) >>= fun last =>
        trapIf (last > len) .memoryOutOfBounds >>= fun _ => f ea) st =
      if addr + offset + n ≤ len then f (addr + offset) st else .error (.trap .memoryOutOfBounds) st := by
  by_cases hea : addr + offset < 2 ^ 64
  · rw [checkedAdd, if_pos hea, orTrap_some_bind]
    by_cases hlast : addr + offset + n < 2 ^ 64
    · rw [checkedAdd, if_pos hlast, orTrap_some_bind, trapIf_bind]
      by_cases hfit : addr + offset + n ≤ len
      · rw [if_pos hfit, if_neg (by simpa using hfit)]
      · rw [if_neg hfit, if_pos (by simpa using hfit)]
    · rw [checkedAdd, if_neg hlast, if_neg (by omega)]
      rfl
  · rw [checkedAdd, if_neg hea, if_neg (by omega)]
    rfl

section
variable {st : PlainState} {mem : Memory} {ma : MemArg} (hmem : st.contents.memories[d.maps.mem ma.memory]? = some mem)
  (hlen : mem.bytes.length < 2 ^ 64)

include hmem hlen

theorem loadBytes_run (n k : ℕ) :
    loadBytes d ma n (st.popped k) =
      if popMem mem.is64 (st.operand k) + ma.offset + n ≤ mem.bytes.length then
        .ok (BitVec.ofNat 64 (leValue ((mem.bytes.drop (popMem mem.is64 (st.operand k) + ma.offset)).take n)))
          (st.popped (k + 1))
      else .error (.trap .memoryOutOfBounds) (st.popped (k + 1)) := by
  rw [loadBytes, bind_of_ok (memory_run hmem k), bind_of_ok (popAddr_popped mem.is64 st k), checked_bind hlen]
  split
  · rename_i hfit
    rw [slice_of_le hfit, orPanic_some_bind, gather_eq]
    rfl
  · rfl

theorem simdMemEa_run (n k : ℕ) :
    simdMemEa d ma n (st.popped k) =
      if popMem mem.is64 (st.operand k) + ma.offset + n ≤ mem.bytes.length then
        .ok (popMem mem.is64 (st.operand k) + ma.offset) (st.popped (k + 1))
      else .error (.trap .memoryOutOfBounds) (st.popped (k + 1)) := by
  rw [simdMemEa, bind_of_ok (memory_run hmem k), bind_of_ok (popAddr_popped mem.is64 st k), checked_bind hlen]
  rfl

theorem storeBytes_run (n : ℕ) (val : BitVec 64) (k : ℕ) :
    storeBytes d ma n val (st.popped k) =
      if popMem mem.is64 (st.operand k) + ma.offset + n ≤ mem.bytes.length then
        writeBytes (d.maps.mem ma.memory) (popMem mem.is64 (st.operand k) + ma.offset) n (val.setWidth 128)
          (st.popped (k + 1))
      else .error (.trap .memoryOutOfBounds) (st.popped (k + 1)) := by
  rw [storeBytes, bind_of_ok (memory_run hmem k), bind_of_ok (popAddr_popped mem.is64 st k), checked_bind hlen]

theorem atomicEa_run (n k : ℕ) :
    atomicEa d ma n false (st.popped k) =
      if popMem mem.is64 (st.operand k) + ma.offset + n ≤ mem.bytes.length then
        if n ∣ popMem mem.is64 (st.operand k) + ma.offset then
          .ok (popMem mem.is64 (st.operand k) + ma.offset) (st.popped (k + 1))
        else .error (.trap .unalignedAtomic) (st.popped (k + 1))
      else .error (.trap .memoryOutOfBounds) (st.popped (k + 1)) := by
  rw [atomicEa, bind_of_ok (memory_run hmem k), bind_of_ok (popAddr_popped mem.is64 st k), Bool.false_and, trapIf_bind,
    if_neg Bool.false_ne_true, checked_bind hlen]
  split
  · rw [trapIf_bind]
    by_cases h : n ∣ popMem mem.is64 (st.operand k) + ma.offset
    · rw [if_pos h, if_neg (by simpa [bne_iff_ne] using Nat.mod_eq_zero_of_dvd h)]
      rfl
    · rw [if_neg h, if_pos (by simpa [bne_iff_ne] using fun h' => h (Nat.dvd_of_mod_eq_zero h'))]
  · rfl

end

end InPlace

/-! ## The start of an access -/

namespace Access

variable {a : Access} {d : InstanceData} {st : PlainState} {mem : Memory}

open InPlace

/-- The address is computed and checked as the access says. -/
structure Starts (a : Access) (mem : Memory) (st : PlainState) (ea : InPlace ℕ) : Prop where
  fails : a.Fails mem st → ea (st.popped a.operands) = .error (.trap (a.trap mem st)) (st.popped (a.operands + 1))
  done : ¬a.Fails mem st → ea (st.popped a.operands) = .ok (a.address mem st) (st.popped (a.operands + 1))

theorem fails_iff_of_not_aligned (ha : a.aligned = false) :
    a.Fails mem st ↔ ¬a.address mem st + a.width ≤ mem.bytes.length := by
  simp [Fails, ha]

theorem trap_of_not_fits (h : ¬a.address mem st + a.width ≤ mem.bytes.length) : a.trap mem st = .memoryOutOfBounds :=
  if_pos (not_le.mp h)

theorem trap_of_fits (h : a.address mem st + a.width ≤ mem.bytes.length) : a.trap mem st = .unalignedAtomic :=
  if_neg (not_lt.mpr h)

theorem fits_of_not_fails (h : ¬a.Fails mem st) : a.address mem st + a.width ≤ mem.bytes.length :=
  not_lt.mp fun hlt => h (Or.inl hlt)

section
variable {ma : MemArg} (hmem : st.contents.memories[d.maps.mem ma.memory]? = some mem)
  (hlen : mem.bytes.length < 2 ^ 64) (hoffset : a.offset = ma.offset)

include hmem hlen hoffset

theorem starts_simd (ha : a.aligned = false) : a.Starts mem st (simdMemEa d ma a.width) := by
  have hrun := simdMemEa_run hmem hlen a.width a.operands
  have haddress : popMem mem.is64 (st.operand a.operands) + a.offset = a.address mem st := rfl
  rw [← hoffset, haddress] at hrun
  constructor
  · intro hfails
    have hfit := (fails_iff_of_not_aligned ha).mp hfails
    rw [hrun, if_neg hfit, trap_of_not_fits hfit]
  · intro hfits
    rw [hrun, if_pos (fits_of_not_fails hfits)]

theorem starts_atomic (ha : a.aligned = true) : a.Starts mem st (atomicEa d ma a.width false) := by
  have hrun := atomicEa_run hmem hlen a.width a.operands
  have haddress : popMem mem.is64 (st.operand a.operands) + a.offset = a.address mem st := rfl
  rw [← hoffset, haddress] at hrun
  constructor
  · intro hfails
    rw [hrun]
    split
    · rename_i hfit
      have hdvd : ¬a.width ∣ a.address mem st := (hfails.resolve_left (not_lt.mpr hfit)).2
      rw [if_neg hdvd, trap_of_fits hfit]
    · rename_i hfit
      rw [trap_of_not_fits hfit]
  · intro hfits
    have hdvd : a.width ∣ a.address mem st := by
      by_contra h
      exact hfits (Or.inr ⟨ha, h⟩)
    rw [hrun, if_pos (fits_of_not_fails hfits), if_pos hdvd]

end

/-- What follows the address decides the outcome of an access that does not fail. -/
theorem Starts.exact {ea : InPlace ℕ} {run : InPlace Unit} {g : ℕ → InPlace Unit} (h : a.Starts mem st ea)
    (hrun : run st = (ea >>= g) (st.popped a.operands))
    (hrest : a.address mem st + a.width ≤ mem.bytes.length → ∃ c, a.Puts mem st (d.maps.mem a.memory) c ∧
      g (a.address mem st) (st.popped (a.operands + 1)) =
        .ok () ⟨st.locals, (a.push mem st).toList ++ st.vstack.drop (a.operands + 1), c⟩) :
    a.Exact mem st d run := by
  constructor
  · intro hfails
    rw [hrun, bind_run, h.fails hfails]
  · intro hfits
    obtain ⟨c, hputs, hc⟩ := hrest (fits_of_not_fails hfits)
    exact ⟨c, hputs, by rw [hrun, bind_of_ok (h.done hfits), hc]⟩

/-- An access that writes nothing. -/
theorem puts_none (h : a.put mem st = none) (slot : ℕ) : a.Puts mem st slot st.contents := by
  rw [Puts, h]

/-- An access that writes the low bytes of a value. -/
theorem puts_some {slot n : ℕ} {v : Value} (h : a.put mem st = some n) (hmem : st.contents.memories[slot]? = some mem)
    (hfit : a.address mem st + a.width ≤ mem.bytes.length) (hn : v.toNat % 256 ^ a.width = n % 256 ^ a.width) (k : ℕ) :
    ∃ c, a.Puts mem st slot c ∧
      writeBytes slot (a.address mem st) a.width v (st.popped k) = .ok () { st.popped k with contents := c } := by
  have hdigit : ∀ i < a.width, UInt8.ofNat (v.toNat / 256 ^ i) = UInt8.ofNat (n / 256 ^ i) := by
    intro i hi
    have hlow (m : ℕ) : UInt8.ofNat (m / 256 ^ i) = UInt8.ofNat (m % 256 ^ a.width / 256 ^ i) := by
      apply UInt8.toNat_inj.mp
      have hpow : 256 ^ a.width = 256 ^ i * 256 ^ (a.width - i) := by rw [← pow_add, Nat.add_sub_cancel' hi.le]
      have hdvd : 256 ∣ 256 ^ (a.width - i) := dvd_pow_self 256 (by omega)
      rw [UInt8.toNat_ofNat', UInt8.toNat_ofNat', hpow, Nat.mod_mul_right_div_self]
      exact (Nat.mod_mod_of_dvd _ hdvd).symm
    rw [hlow, hn, ← hlow]
  obtain ⟨bytes, hmoved, hrun⟩ := writeBytes_run v hmem hfit k
  refine ⟨_, ?_, hrun⟩
  rw [Puts, h]
  exact ⟨bytes, rfl, hmoved.congr fun i hi => congrArg some (hdigit i hi)⟩

end Access

/-! ## Numbers -/

theorem setWidth_eq_ofInt {w w' : ℕ} (x : BitVec w) : x.setWidth w' = BitVec.ofInt w' (readInt false x) := by
  rw [readInt_false, BitVec.ofInt_natCast, BitVec.ofNat_toNat]

theorem signExtend_eq_ofInt {w w' : ℕ} (x : BitVec w) : x.signExtend w' = BitVec.ofInt w' (readInt true x) := rfl

/-- What a load pushes. -/
theorem LoadOp.extend_eq (op : LoadOp) (n : ℕ) : op.extend (BitVec.ofNat 64 n) = op.result n := by
  have hlow {k : ℕ} (hk : k ≤ 64) : (BitVec.ofNat 64 n).setWidth k = BitVec.ofNat k n := BitVec.setWidth_ofNat_of_le hk n
  have hext {k : ℕ} (hk : k ≤ 64) (w : ℕ) (sg : Bool) :
      (if sg then ((BitVec.ofNat 64 n).setWidth k).signExtend w else ((BitVec.ofNat 64 n).setWidth k).setWidth w) =
        BitVec.ofInt w (readInt sg (BitVec.ofNat k n)) := by
    rw [hlow hk]
    cases sg with
    | false => exact setWidth_eq_ofInt _
    | true => exact signExtend_eq_ofInt _
  cases op with
  | i32 | f32 => exact congrArg i32Value ((hlow (by decide)).trans (ofInt_readInt (s := false) _).symm)
  | i64 | f64 => exact congrArg i64Value (ofInt_readInt (s := false) _).symm
  | i32Load8 sg | i32Load16 sg => exact congrArg i32Value (hext (by decide) 32 sg)
  | i64Load8 sg | i64Load16 sg | i64Load32 sg => exact congrArg i64Value (hext (by decide) 64 sg)

namespace InPlace

/-- The low bytes of an operand are kept. -/
theorem stored_mod (op : StoreOp) (v : Value) :
    ((stored op v).setWidth 128).toNat % 256 ^ op.width = v.toNat % 256 ^ op.width := by
  cases op with
  | f32 =>
    have hmask (n : ℕ) : n &&& 0xffffffff = n % 2 ^ 32 := Nat.and_two_pow_sub_one_eq_mod n 32
    simp [stored, StoreOp.width, hmask]
  | i32 | i64 | f64 | i32Store8 | i32Store16 | i64Store8 | i64Store16 | i64Store32 =>
    simp [stored, StoreOp.width, asI32, asI64]

end InPlace

namespace Access

open InPlace

variable {d : InstanceData} {st : PlainState} {mem : Memory}

theorem exact_load (op : LoadOp) {ma : MemArg} (hmem : st.contents.memories[d.maps.mem ma.memory]? = some mem)
    (hlen : mem.bytes.length < 2 ^ 64) : (read ma op.width op.result).Exact mem st d (load d op ma) := by
  have hrun := loadBytes_run hmem hlen op.width 0
  constructor
  · intro hfails
    have hfit := (fails_iff_of_not_aligned rfl).mp hfails
    rw [load, bind_run, ← st.popped_zero, hrun.trans (if_neg hfit), st.popped_zero, trap_of_not_fits hfit]
    rfl
  · intro hfits
    have hrun := hrun.trans (if_pos (fits_of_not_fails hfits))
    refine ⟨st.contents, puts_none rfl _, ?_⟩
    rw [load, ← st.popped_zero, bind_of_ok hrun, op.extend_eq]
    rfl

theorem exact_store (op : StoreOp) {ma : MemArg} (hmem : st.contents.memories[d.maps.mem ma.memory]? = some mem)
    (hlen : mem.bytes.length < 2 ^ 64) : (write ma op.width fun v => v.toNat).Exact mem st d (store d op ma) := by
  have hpop : store d op ma st = storeBytes d ma op.width (stored op (st.operand 0)) (st.popped 1) := by
    rw [store, ← st.popped_zero, bind_of_ok (pop_popped st 0)]
    rfl
  have hrun := storeBytes_run hmem hlen op.width (stored op (st.operand 0)) 1
  constructor
  · intro hfails
    have hfit := (fails_iff_of_not_aligned rfl).mp hfails
    rw [hpop, hrun.trans (if_neg hfit), trap_of_not_fits hfit]
    rfl
  · intro hfits
    have hfit := fits_of_not_fails hfits
    obtain ⟨c, hputs, hc⟩ := puts_some (a := write ma op.width fun v => v.toNat) rfl hmem hfit
      (stored_mod op (st.operand 0)) 2
    exact ⟨c, hputs, (hpop.trans (hrun.trans (if_pos hfit))).trans hc⟩

end Access

/-! ## Vectors -/

section
variable {sh : Shape}

theorem vector_eq {f : ℕ → ℤ} {l : List (BitVec sh.width)} (hlen : l.length = sh.count)
    (h : ∀ i < sh.count, l[i]? = some (BitVec.ofInt sh.width (f i))) : packed sh l = sh.vector f := by
  have hl : l = (List.range sh.count).map fun i => BitVec.ofInt sh.width (f i) := by
    apply List.ext_getElem?
    intro i
    by_cases hi : i < sh.count
    · rw [h i hi, List.getElem?_map, List.getElem?_range hi]
      rfl
    · rw [List.getElem?_eq_none (by omega), List.getElem?_eq_none (by rw [List.length_map, List.length_range]; omega)]
  rw [packed_eq, Shape.vector, hl]

theorem ofNat_eq_ofInt (w n : ℕ) : BitVec.ofNat w n = BitVec.ofInt w n := (BitVec.ofInt_natCast w n).symm

/-- One lane replaced by a number. -/
theorem packed_set (v : Value) {lane : ℕ} (hlane : lane < sh.count) (n : ℕ) :
    storeAt (unpack sh v) lane (BitVec.ofNat sh.width n) = some ((unpack sh v).set lane (BitVec.ofNat sh.width n)) ∧
      packed sh ((unpack sh v).set lane (BitVec.ofNat sh.width n)) =
        sh.vector fun i => if i = lane then n else sh.lane false v i := by
  refine ⟨if_pos ((length_unpack v).symm ▸ hlane), vector_eq (by rw [List.length_set, length_unpack]) fun i hi => ?_⟩
  rw [List.getElem?_set, length_unpack]
  by_cases h : lane = i
  · subst h
    rw [if_pos rfl, if_pos hi, if_pos rfl, ofNat_eq_ofInt]
  · rw [if_neg h, if_neg (Ne.symm h), getElem?_unpack v hi, Shape.lane, ofInt_readInt]

/-- The lanes of eight bytes, widened. -/
theorem lane_of_bytes {l : List UInt8} (sg : Bool) {dst : Shape} (i : ℕ) (hroom : i * sh.bytes + sh.bytes ≤ 8) (start : ℕ) :
    castInt sg dst.width (BitVec.ofNat sh.width (leValue ((l.drop (start + i * sh.bytes)).take sh.bytes))) =
      BitVec.ofInt dst.width
        (readInt sg (BitVec.ofNat sh.width (leValue ((l.drop start).take 8) / 2 ^ (sh.width * i)))) := by
  have hrun : ((l.drop (start + i * sh.bytes)).take sh.bytes) =
      ((((l.drop start).take 8).drop (i * sh.bytes)).take sh.bytes) := by
    rw [List.drop_take, List.take_take, List.drop_drop, Nat.min_eq_left (by omega)]
  have hpow : 256 ^ (i * sh.bytes) = 2 ^ (sh.width * i) := by rw [Nat.mul_comm, pow_mul, sh.pow_bytes, ← pow_mul]
  have hmod (n : ℕ) : BitVec.ofNat sh.width (n % 256 ^ sh.bytes) = BitVec.ofNat sh.width n := by
    apply BitVec.eq_of_toNat_eq
    rw [BitVec.toNat_ofNat, BitVec.toNat_ofNat, sh.pow_bytes, Nat.mod_mod]
  rw [hrun, leValue_take, leValue_drop, hmod, hpow, castInt]

end

namespace Access

open InPlace

variable {a : Access} {d : InstanceData} {st : PlainState} {mem : Memory} {ma : MemArg}

section
variable (hmem : st.contents.memories[d.maps.mem ma.memory]? = some mem) (hlen : mem.bytes.length < 2 ^ 64)

include hmem hlen

/-- A step that goes on with the number found does its access. -/
theorem exact_simdRead {run : InPlace Unit} {g : ℕ → InPlace Unit} (hmemory : a.memory = ma.memory)
    (hoffset : a.offset = ma.offset) (ha : a.aligned = false) (hput : a.put mem st = none)
    (hrun : run st = (simdRead d ma a.width >>= g) (st.popped a.operands))
    (hrest : g (a.found mem st) (st.popped (a.operands + 1)) =
      .ok () ⟨st.locals, (a.push mem st).toList ++ st.vstack.drop (a.operands + 1), st.contents⟩) :
    a.Exact mem st d run := by
  refine (starts_simd hmem hlen hoffset ha).exact
    (g := fun ea => bytesAt (d.maps.mem ma.memory) ea a.width >>= fun bytes => g (leValue bytes)) ?_ fun hfit => ?_
  · rw [hrun, simdRead]
    simp only [bind_assoc, pure_bind]
  · refine ⟨st.contents, hmemory ▸ puts_none hput _, ?_⟩
    rw [bind_of_ok (bytesAt_run (s := st.popped _) hmem hfit)]
    exact hrest

theorem exact_simdLoad (lane : ℕ) : (VMemOp.load.access ma lane).Exact mem st d (simdLoad d ma) :=
  exact_simdRead hmem hlen rfl rfl rfl rfl rfl rfl

theorem exact_simdLoadSplat (lane : ℕ) (sh : Shape) :
    ((VMemOp.loadSplat sh).access ma lane).Exact mem st d (simdLoadSplat d ma sh) := by
  refine exact_simdRead hmem hlen rfl rfl rfl rfl rfl ?_
  have hsplat (n : ℕ) : packed sh (List.replicate sh.count (BitVec.ofNat sh.width n)) = sh.vector fun _ => n :=
    vector_eq List.length_replicate fun i hi => by rw [List.getElem?_replicate, if_pos hi, ofNat_eq_ofInt]
  rw [hsplat, push_run]
  rfl

theorem exact_simdLoadZero (lane : ℕ) (sh : Shape) :
    ((VMemOp.loadZero sh).access ma lane).Exact mem st d (simdLoadZero d ma sh) := by
  refine exact_simdRead hmem hlen rfl rfl rfl rfl (g := fun n => InPlace.push (BitVec.ofNat 128 n)) ?_ rfl
  simp only [simdLoadZero, simdRead, leValue_append_zeros, bind_assoc, pure_bind]
  rfl

theorem exact_simdLoadLane {lane : ℕ} {sh : Shape} (hlane : lane < sh.count) :
    ((VMemOp.loadLane sh).access ma lane).Exact mem st d (simdLoadLane d ma lane sh) := by
  refine exact_simdRead hmem hlen rfl rfl rfl rfl (g := fun n => do
    let lanes ← InPlace.orPanic (storeAt (unpack sh (st.operand 0)) lane (BitVec.ofNat sh.width n))
    InPlace.push (packed sh lanes)) ?_ ?_
  · rw [simdLoadLane, ← st.popped_zero, bind_of_ok (pop_popped st 0)]
    rfl
  · obtain ⟨hset, hpacked⟩ := packed_set (st.operand 0) hlane (((VMemOp.loadLane sh).access ma lane).found mem st)
    rw [hset, orPanic_some_bind, hpacked, push_run]
    rfl

theorem exact_simdLoadExtend (lane : ℕ) {sh : Shape} (sg : Bool) (hwider : sh.wider.count * sh.bytes = 8) :
    ((VMemOp.loadExtend sh sg).access ma lane).Exact mem st d (simdLoadExtend d ma sg sh sh.wider) := by
  let a := (VMemOp.loadExtend sh sg).access ma lane
  refine (starts_simd (a := a) hmem hlen rfl rfl).exact (g := _) rfl fun hfit => ?_
  refine ⟨st.contents, puts_none rfl _, ?_⟩
  let turn (i : ℕ) : InPlace (BitVec sh.wider.width) := do
    let bytes ← bytesAt (d.maps.mem ma.memory) (a.address mem st + i * sh.bytes) sh.bytes
    pure (castInt sg sh.wider.width (BitVec.ofNat sh.width (leValue bytes)))
  have hturn : ∀ i ∈ List.range sh.wider.count, turn i (st.popped 1) =
        .ok (BitVec.ofInt sh.wider.width
          (readInt sg (BitVec.ofNat sh.width (a.found mem st / 2 ^ (sh.width * i))))) (st.popped 1) := by
    intro i hi
    have hroom : i * sh.bytes + sh.bytes ≤ 8 := by
      rw [← hwider, ← Nat.succ_mul]
      exact Nat.mul_le_mul_right _ (List.mem_range.mp hi)
    have hbytes : a.address mem st + i * sh.bytes + sh.bytes ≤ mem.bytes.length := by
      have hfit : a.address mem st + 8 ≤ mem.bytes.length := hfit
      omega
    show (bytesAt _ _ _ >>= _) (st.popped 1) = _
    rw [bind_of_ok (bytesAt_run (s := st.popped 1) hmem hbytes), lane_of_bytes sg i hroom]
    rfl
  show ((List.range sh.wider.count).mapM turn >>= fun lanes => InPlace.push (packed sh.wider lanes)) (st.popped 1) = _
  rw [bind_of_ok (mapM_of_ok _ hturn),
    vector_eq (f := fun i => readInt sg (BitVec.ofNat sh.width (a.found mem st / 2 ^ (sh.width * i))))]
  · rfl
  · rw [List.length_map, List.length_range]
  · intro i hi
    rw [List.getElem?_map, List.getElem?_range hi]
    rfl

theorem exact_simdStore (lane : ℕ) : (VMemOp.store.access ma lane).Exact mem st d (simdStore d ma) := by
  let a := VMemOp.store.access ma lane
  refine (starts_simd (a := a) hmem hlen rfl rfl).exact
    (g := fun ea => writeBytes (d.maps.mem ma.memory) ea 16 (st.operand 0)) ?_ fun hfit => ?_
  · rw [simdStore, ← st.popped_zero, bind_of_ok (pop_popped st 0)]
    rfl
  · obtain ⟨c, hputs, hc⟩ := puts_some (a := a) rfl hmem hfit rfl 2
    exact ⟨c, hputs, hc⟩

theorem exact_simdStoreLane {lane : ℕ} {sh : Shape} (hlane : lane < sh.count) :
    ((VMemOp.storeLane sh).access ma lane).Exact mem st d (simdStoreLane d ma lane sh) := by
  let a := (VMemOp.storeLane sh).access ma lane
  refine (starts_simd (a := a) hmem hlen rfl rfl).exact (g := fun ea => do
    let x ← InPlace.orPanic (unpack sh (st.operand 0))[lane]?
    writeBytes (d.maps.mem ma.memory) ea sh.bytes (x.setWidth 128)) ?_ fun hfit => ?_
  · rw [simdStoreLane, ← st.popped_zero, bind_of_ok (pop_popped st 0)]
    rfl
  · have hx : InPlace.orPanic (unpack sh (st.operand 0))[lane]? = pure (Lanes.lane sh.width (st.operand 0) lane) := by
      rw [getElem?_unpack _ hlane]
      rfl
    have hn : ((Lanes.lane sh.width (st.operand 0) lane).setWidth 128).toNat % 256 ^ a.width =
        (sh.lane false (st.operand 0) lane).toNat % 256 ^ a.width := by
      have hlt : (Lanes.lane sh.width (st.operand 0) lane).toNat < 2 ^ 128 :=
        (Lanes.lane sh.width (st.operand 0) lane).isLt.trans_le
          (Nat.pow_le_pow_right (by decide) (by cases sh <;> decide))
      rw [BitVec.toNat_setWidth, Nat.mod_eq_of_lt hlt]
      rfl
    obtain ⟨c, hputs, hc⟩ := puts_some (a := a) rfl hmem hfit hn 2
    exact ⟨c, hputs, by rw [hx, pure_bind]; exact hc⟩

end

/-- Every vector access is done. -/
theorem exact_vector {op : VMemOp} {s : Simd} (hvalid : (AccessInstr.vector op s).Valid)
    (hmem : st.contents.memories[d.maps.mem s.mem.memory]? = some mem) (hlen : mem.bytes.length < 2 ^ 64) :
    (op.access s.mem s.lane).Exact mem st d (simdMemory d s) := by
  obtain ⟨sub, ma, lane, bytes⟩ := s
  cases op with
  | load =>
    obtain rfl : 0x00 = sub := Option.some.inj hvalid
    exact exact_simdLoad hmem hlen lane
  | store =>
    obtain rfl : 0x0b = sub := Option.some.inj hvalid
    exact exact_simdStore hmem hlen lane
  | loadExtend sh sg =>
    have hrun (hwider : sh.wider.count * sh.bytes = 8)
        (harm : simdMemory d ⟨sub, ma, lane, bytes⟩ = simdLoadExtend d ma sg sh sh.wider) :=
      harm ▸ exact_simdLoadExtend hmem hlen lane sg hwider
    cases sh <;> cases sg <;> cases hvalid <;> exact hrun rfl rfl
  | loadSplat sh =>
    have hrun (harm : simdMemory d ⟨sub, ma, lane, bytes⟩ = simdLoadSplat d ma sh) :=
      harm ▸ exact_simdLoadSplat hmem hlen lane sh
    cases sh <;> cases hvalid <;> exact hrun rfl
  | loadZero sh =>
    have hrun (harm : simdMemory d ⟨sub, ma, lane, bytes⟩ = simdLoadZero d ma sh) :=
      harm ▸ exact_simdLoadZero hmem hlen lane sh
    cases sh <;> cases hvalid <;> exact hrun rfl
  | loadLane sh =>
    obtain ⟨hsub, hlane⟩ := hvalid
    have hrun (harm : simdMemory d ⟨sub, ma, lane, bytes⟩ = simdLoadLane d ma lane sh) :=
      harm ▸ exact_simdLoadLane hmem hlen hlane
    cases sh <;> cases hsub <;> exact hrun rfl
  | storeLane sh =>
    obtain ⟨hsub, hlane⟩ := hvalid
    have hrun (harm : simdMemory d ⟨sub, ma, lane, bytes⟩ = simdStoreLane d ma lane sh) :=
      harm ▸ exact_simdStoreLane hmem hlen hlane
    cases sh <;> cases hsub <;> exact hrun rfl

end Access

/-! ## Atomics -/

namespace InPlace

theorem popInt_popped (is64 : Bool) (st : PlainState) (k : ℕ) :
    popInt is64 (st.popped k) =
      .ok (if is64 then asI64 (st.operand k) else (asI32 (st.operand k)).setWidth 64) (st.popped (k + 1)) := by
  rw [popInt, bind_of_ok (pop_popped st k)]
  rfl

end InPlace

namespace AtomicType

open InPlace

variable (t : AtomicType)

/-- Is the number an `i64`? -/
def is64 : Bool := t.number = .w64

/-- An operand as a word. -/
def operand (v : Value) : BitVec 64 := if t.is64 then asI64 v else (asI32 v).setWidth 64

theorem atomicBytes_bytes : atomicBytes t.bytes = t.bytes := by cases t <;> rfl

theorem pow_bytes : 256 ^ t.bytes = 2 ^ (8 * t.bytes) := (pow_mul 2 8 t.bytes).symm

theorem bits_le : 8 * t.bytes ≤ 64 := by cases t <;> decide

/-- The bytes in memory are those of the operand. -/
theorem operand_mod (v : Value) : (t.operand v).toNat % 2 ^ (8 * t.bytes) = v.toNat % 2 ^ (8 * t.bytes) := by
  cases t <;> simp [operand, is64, number, bytes, asI32, asI64]

theorem setWidth_operand_mod (v : Value) :
    ((t.operand v).setWidth 128).toNat % 256 ^ t.bytes = v.toNat % 256 ^ t.bytes := by
  have hlt : (t.operand v).toNat < 2 ^ 128 := (t.operand v).isLt.trans (by decide)
  rw [BitVec.toNat_setWidth, Nat.mod_eq_of_lt hlt, t.pow_bytes, t.operand_mod]

/-- A number found is pushed with zeros above. -/
theorem pushInt_eq (n : ℕ) : pushInt t.is64 (BitVec.ofNat 64 n) = InPlace.push (t.value n) := by
  have hlow : (BitVec.ofNat 64 n).setWidth 32 = BitVec.ofNat 32 n := BitVec.setWidth_ofNat_of_le (by decide) n
  cases t with
  | i32 | i32Low8 | i32Low16 => exact congrArg (fun x => InPlace.push (i32Value x)) hlow
  | i64 | i64Low8 | i64Low16 | i64Low32 => rfl

/-! ### Arms -/

variable (d : InstanceData) (ma : MemArg)

theorem atomic_load : atomic d ⟨(AtomicOp.load t).sub, ma⟩ = atomicLoad d ma t.bytes t.is64 := by
  cases t <;> rfl

theorem atomic_store : atomic d ⟨(AtomicOp.store t).sub, ma⟩ = atomicStore d ma t.bytes t.is64 := by
  cases t <;> rfl

/-- The instructions that read and then write. -/
theorem atomic_group {sub : ℕ} (hmin : 0x1e ≤ sub) (hmax : sub ≤ 0x4e) : atomic d ⟨sub, ma⟩ =
    if (sub - 0x1e) / 7 = 6 then atomicCmpxchg d ma (2 ^ atomicAlignLog2 sub) (atomicIs64 sub)
    else atomicRmw d ma (2 ^ atomicAlignLog2 sub) (atomicIs64 sub) ((sub - 0x1e) / 7) := by
  simp only [atomic]
  rw [if_neg (by omega), if_neg (by omega), if_neg (by omega), if_neg (by omega), if_neg (by omega), if_pos ⟨hmin, hmax⟩]

theorem rmw_sub (op : RmwOp) : 2 ^ atomicAlignLog2 (AtomicOp.rmw op t).sub = t.bytes ∧
    atomicIs64 (AtomicOp.rmw op t).sub = t.is64 ∧ ((AtomicOp.rmw op t).sub - 0x1e) / 7 = op.place ∧ op.place ≠ 6 ∧
      0x1e ≤ (AtomicOp.rmw op t).sub ∧ (AtomicOp.rmw op t).sub ≤ 0x4e := by
  cases op <;> cases t <;> decide

theorem cmpxchg_sub : 2 ^ atomicAlignLog2 (AtomicOp.cmpxchg t).sub = t.bytes ∧
    atomicIs64 (AtomicOp.cmpxchg t).sub = t.is64 ∧ ((AtomicOp.cmpxchg t).sub - 0x1e) / 7 = 6 ∧
      0x1e ≤ (AtomicOp.cmpxchg t).sub ∧ (AtomicOp.cmpxchg t).sub ≤ 0x4e := by
  cases t <;> decide

theorem atomic_rmw (op : RmwOp) : atomic d ⟨(AtomicOp.rmw op t).sub, ma⟩ = atomicRmw d ma t.bytes t.is64 op.place := by
  obtain ⟨hwidth, h64, hgroup, hplace, hmin, hmax⟩ := t.rmw_sub op
  rw [atomic_group d ma hmin hmax, hwidth, h64, hgroup, if_neg hplace]

theorem atomic_cmpxchg : atomic d ⟨(AtomicOp.cmpxchg t).sub, ma⟩ = atomicCmpxchg d ma t.bytes t.is64 := by
  obtain ⟨hwidth, h64, hgroup, hmin, hmax⟩ := t.cmpxchg_sub
  rw [atomic_group d ma hmin hmax, hwidth, h64, if_pos hgroup]

end AtomicType

/-- A read-modify-write computes its operation, modulo the bits in memory. -/
theorem RmwOp.rmwNew_mod (op : RmwOp) {bits : ℕ} (hbits : bits ≤ 64) {old val : BitVec 64} {v : ℕ}
    (hval : val.toNat % 2 ^ bits = v % 2 ^ bits) :
    (InPlace.rmwNew op.place old val).toNat % 2 ^ bits = op.result bits old.toNat v := by
  have hlow (x : BitVec 64) : x.toNat % 2 ^ bits = (x.setWidth bits).toNat := (BitVec.toNat_setWidth ..).symm
  have hval' : val.setWidth bits = BitVec.ofNat bits v := by
    apply BitVec.eq_of_toNat_eq
    rw [BitVec.toNat_setWidth, hval, BitVec.toNat_ofNat]
  have hold : old.setWidth bits = BitVec.ofNat bits old.toNat := (BitVec.ofNat_toNat ..).symm
  rw [hlow]
  cases op with
  | add =>
    have hnew : (old + val).setWidth bits = BitVec.ofNat bits (old.toNat + v) := by
      rw [BitVec.setWidth_add _ _ hbits, hval', hold, BitVec.ofNat_add]
    exact congrArg BitVec.toNat hnew |>.trans (BitVec.toNat_ofNat ..)
  | sub =>
    have hnew : (old - val).setWidth bits = BitVec.ofInt bits (old.toNat - v) := by
      rw [BitVec.sub_eq_add_neg, BitVec.setWidth_add _ _ hbits, BitVec.setWidth_neg_of_le hbits, hval', hold,
        Int.sub_eq_add_neg, BitVec.ofInt_add, BitVec.ofInt_neg, BitVec.ofInt_natCast, BitVec.ofInt_natCast]
    exact congrArg BitVec.toNat hnew |>.trans (by rw [BitVec.toNat_ofInt, Nat.cast_pow]; rfl)
  | and =>
    have hnew : (old &&& val).setWidth bits = BitVec.ofNat bits (old.toNat &&& v) := by
      rw [BitVec.setWidth_and, hval', hold, BitVec.ofNat_and]
    exact congrArg BitVec.toNat hnew |>.trans (BitVec.toNat_ofNat ..)
  | or =>
    have hnew : (old ||| val).setWidth bits = BitVec.ofNat bits (old.toNat ||| v) := by
      rw [BitVec.setWidth_or, hval', hold, BitVec.ofNat_or]
    exact congrArg BitVec.toNat hnew |>.trans (BitVec.toNat_ofNat ..)
  | xor =>
    have hnew : (old ^^^ val).setWidth bits = BitVec.ofNat bits (old.toNat ^^^ v) := by
      rw [BitVec.setWidth_xor, hval', hold, BitVec.ofNat_xor]
    exact congrArg BitVec.toNat hnew |>.trans (BitVec.toNat_ofNat ..)
  | xchg => exact congrArg BitVec.toNat hval' |>.trans (BitVec.toNat_ofNat ..)

namespace Access

open InPlace

variable {d : InstanceData} {st : PlainState} {mem : Memory} {ma : MemArg} (t : AtomicType)

/-- The low bytes of a word masked are its remainder. -/
theorem toNat_maskWidth (v : BitVec 64) : (maskWidth v t.bytes).toNat = v.toNat % 2 ^ (8 * t.bytes) := by
  have hmask (k : ℕ) : v.toNat &&& (2 ^ k - 1) = v.toNat % 2 ^ k := Nat.and_two_pow_sub_one_eq_mod _ k
  cases t with
  | i64 => exact (Nat.mod_eq_of_lt v.isLt).symm
  | i32Low8 | i64Low8 => exact (BitVec.toNat_and ..).trans (hmask 8)
  | i32Low16 | i64Low16 => exact (BitVec.toNat_and ..).trans (hmask 16)
  | i32 | i64Low32 => exact (BitVec.toNat_and ..).trans (hmask 32)

/-- A number found in memory is one of as many bytes. -/
theorem found_lt (a : Access) : a.found mem st < 256 ^ a.width :=
  (leValue_lt _).trans_le (Nat.pow_le_pow_right (by decide) (List.length_take_le _ _))

theorem atomicRead_run {slot ea k : ℕ} (hmem : st.contents.memories[slot]? = some mem)
    (hfit : ea + t.bytes ≤ mem.bytes.length) :
    atomicRead slot ea t.bytes (st.popped k) =
      .ok (BitVec.ofNat 64 (leValue ((mem.bytes.drop ea).take t.bytes))) (st.popped k) := by
  rw [atomicRead, t.atomicBytes_bytes, bind_of_ok (bytesAt_run (s := st.popped k) hmem hfit)]
  rfl

theorem atomicWrite_eq (slot ea : ℕ) (v : BitVec 64) :
    atomicWrite slot ea t.bytes v = writeBytes slot ea t.bytes (v.setWidth 128) := by
  rw [atomicWrite, t.atomicBytes_bytes]

section
variable (hmem : st.contents.memories[d.maps.mem ma.memory]? = some mem) (hlen : mem.bytes.length < 2 ^ 64)

include hmem hlen

theorem exact_atomicLoad : ((AtomicOp.load t).access ma).Exact mem st d (atomicLoad d ma t.bytes t.is64) := by
  let a := (AtomicOp.load t).access ma
  refine (starts_atomic (a := a) hmem hlen rfl rfl).exact (g := _) rfl fun hfit => ?_
  refine ⟨st.contents, puts_none rfl _, ?_⟩
  rw [bind_of_ok (atomicRead_run t hmem hfit), t.pushInt_eq]
  rfl

theorem exact_atomicStore : ((AtomicOp.store t).access ma).Exact mem st d (atomicStore d ma t.bytes t.is64) := by
  let a := (AtomicOp.store t).access ma
  refine (starts_atomic (a := a) hmem hlen rfl rfl).exact
    (g := fun ea => atomicWrite (d.maps.mem ma.memory) ea t.bytes (t.operand (st.operand 0))) ?_ fun hfit => ?_
  · rw [atomicStore, ← st.popped_zero, bind_of_ok (popInt_popped t.is64 st 0)]
    rfl
  · rw [atomicWrite, t.atomicBytes_bytes]
    exact puts_some (a := a) rfl hmem hfit (t.setWidth_operand_mod _) 2

theorem exact_atomicRmw (op : RmwOp) :
    ((AtomicOp.rmw op t).access ma).Exact mem st d (atomicRmw d ma t.bytes t.is64 op.place) := by
  let a := (AtomicOp.rmw op t).access ma
  refine (starts_atomic (a := a) hmem hlen rfl rfl).exact (g := fun ea => do
    let old ← atomicRead (d.maps.mem ma.memory) ea t.bytes
    atomicWrite (d.maps.mem ma.memory) ea t.bytes (rmwNew op.place old (t.operand (st.operand 0)))
    pushInt t.is64 old) ?_ fun hfit => ?_
  · rw [atomicRmw, ← st.popped_zero, bind_of_ok (popInt_popped t.is64 st 0)]
    rfl
  · have hold : (BitVec.ofNat 64 (a.found mem st)).toNat = a.found mem st := by
      have hlt : a.found mem st < 2 ^ 64 := (found_lt a).trans_le
        ((t.pow_bytes.trans_le (Nat.pow_le_pow_right (by decide) t.bits_le)))
      rw [BitVec.toNat_ofNat, Nat.mod_eq_of_lt hlt]
    have hnew : (rmwNew op.place (BitVec.ofNat 64 (a.found mem st)) (t.operand (st.operand 0))).toNat %
        2 ^ (8 * t.bytes) = op.result (8 * t.bytes) (BitVec.ofNat 64 (a.found mem st)).toNat (st.operand 0).toNat :=
      op.rmwNew_mod t.bits_le (t.operand_mod (st.operand 0))
    rw [hold, ← t.pow_bytes] at hnew
    have hn : ((rmwNew op.place (BitVec.ofNat 64 (a.found mem st)) (t.operand (st.operand 0))).setWidth 128).toNat %
        256 ^ a.width = op.result (8 * t.bytes) (a.found mem st) (st.operand 0).toNat % 256 ^ a.width := by
      rw [← hnew, BitVec.toNat_setWidth, Nat.mod_eq_of_lt ((BitVec.isLt _).trans (by decide))]
      exact (Nat.mod_mod _ _).symm
    obtain ⟨c, hputs, hc⟩ := puts_some (a := a) rfl hmem hfit hn 2
    refine ⟨c, hputs, ?_⟩
    have hread : atomicRead (d.maps.mem ma.memory) (a.address mem st) t.bytes (st.popped 2) =
        .ok (BitVec.ofNat 64 (a.found mem st)) (st.popped 2) := atomicRead_run t hmem hfit
    have hwrite := (congrFun (atomicWrite_eq t _ _ _) (st.popped 2)).trans hc
    show (atomicRead _ (a.address mem st) t.bytes >>= _) (st.popped 2) = _
    rw [bind_of_ok hread]
    show (atomicWrite _ (a.address mem st) t.bytes _ >>= _) (st.popped 2) = _
    rw [bind_of_ok hwrite]
    show pushInt t.is64 (BitVec.ofNat 64 (a.found mem st)) _ = _
    rw [t.pushInt_eq]
    rfl

theorem exact_atomicCmpxchg :
    ((AtomicOp.cmpxchg t).access ma).Exact mem st d (atomicCmpxchg d ma t.bytes t.is64) := by
  let a := (AtomicOp.cmpxchg t).access ma
  refine (starts_atomic (a := a) hmem hlen rfl rfl).exact (g := fun ea => do
    let old ← atomicRead (d.maps.mem ma.memory) ea t.bytes
    if old = maskWidth (t.operand (st.operand 1)) t.bytes then
      atomicWrite (d.maps.mem ma.memory) ea t.bytes (t.operand (st.operand 0))
    pushInt t.is64 old) ?_ fun hfit => ?_
  · rw [atomicCmpxchg, ← st.popped_zero, bind_of_ok (popInt_popped t.is64 st 0), bind_of_ok (popInt_popped t.is64 st 1)]
    rfl
  · have hsame : BitVec.ofNat 64 (a.found mem st) = maskWidth (t.operand (st.operand 1)) t.bytes ↔
        a.found mem st = (st.operand 1).toNat % 2 ^ (8 * t.bytes) := by
      have hlt : a.found mem st < 2 ^ 64 := (found_lt a).trans_le
        ((t.pow_bytes.trans_le (Nat.pow_le_pow_right (by decide) t.bits_le)))
      rw [← BitVec.toNat_inj, BitVec.toNat_ofNat, Nat.mod_eq_of_lt hlt, toNat_maskWidth, t.operand_mod]
    have hread : atomicRead (d.maps.mem ma.memory) (a.address mem st) t.bytes (st.popped 3) =
        .ok (BitVec.ofNat 64 (a.found mem st)) (st.popped 3) := atomicRead_run t hmem hfit
    by_cases h : a.found mem st = (st.operand 1).toNat % 2 ^ (8 * t.bytes)
    · have hput : a.put mem st = some (st.operand 0).toNat := if_pos h
      obtain ⟨c, hputs, hc⟩ := puts_some (a := a) hput hmem hfit (t.setWidth_operand_mod _) 3
      have hwrite := (congrFun (atomicWrite_eq t _ _ _) (st.popped 3)).trans hc
      refine ⟨c, hputs, ?_⟩
      show (atomicRead _ (a.address mem st) t.bytes >>= _) (st.popped 3) = _
      rw [bind_of_ok hread]
      simp only [if_pos (hsame.mpr h)]
      show (atomicWrite _ (a.address mem st) t.bytes _ >>= _) (st.popped 3) = _
      rw [bind_of_ok hwrite]
      show pushInt t.is64 (BitVec.ofNat 64 (a.found mem st)) _ = _
      rw [t.pushInt_eq]
      rfl
    · have hput : a.put mem st = none := if_neg h
      refine ⟨st.contents, puts_none hput _, ?_⟩
      show (atomicRead _ (a.address mem st) t.bytes >>= _) (st.popped 3) = _
      rw [bind_of_ok hread]
      simp only [if_neg fun h' => h (hsame.mp h')]
      show pushInt t.is64 (BitVec.ofNat 64 (a.found mem st)) _ = _
      rw [t.pushInt_eq]
      rfl

end

end Access

/-! ## All accesses -/

section
variable {d : InstanceData} {st : PlainState} {mem : Memory}

theorem VMemOp.access_memory (op : VMemOp) (ma : MemArg) (lane : ℕ) : (op.access ma lane).memory = ma.memory := by
  cases op <;> rfl

theorem AtomicOp.access_memory (op : AtomicOp) (ma : MemArg) : (op.access ma).memory = ma.memory := by
  cases op <;> rfl

/-- A step does its access. -/
theorem access_exact {i : AccessInstr} (h : i.On d st mem) : i.access.Exact mem st d (InPlace.access d i.instr) := by
  obtain ⟨hvalid, hmem, hlen⟩ := h
  cases i with
  | load op ma => exact Access.exact_load op hmem hlen
  | store op ma => exact Access.exact_store op hmem hlen
  | vector op s =>
    have hmem : st.contents.memories[d.maps.mem s.mem.memory]? = some mem := op.access_memory s.mem s.lane ▸ hmem
    exact Access.exact_vector hvalid hmem hlen
  | atomic op ma =>
    have hmem : st.contents.memories[d.maps.mem ma.memory]? = some mem := op.access_memory ma ▸ hmem
    cases op with
    | load t =>
      have hexact := Access.exact_atomicLoad t hmem hlen
      rwa [← t.atomic_load] at hexact
    | store t =>
      have hexact := Access.exact_atomicStore t hmem hlen
      rwa [← t.atomic_store] at hexact
    | rmw op t =>
      have hexact := Access.exact_atomicRmw t hmem hlen op
      rwa [← t.atomic_rmw] at hexact
    | cmpxchg t =>
      have hexact := Access.exact_atomicCmpxchg t hmem hlen
      rwa [← t.atomic_cmpxchg] at hexact

/-- What a step that succeeds has done. -/
theorem access_done {i : AccessInstr} {st' : PlainState} (h : i.On d st mem) (hok : InPlace.access d i.instr st = .ok () st') :
    ¬i.access.Fails mem st ∧ ∃ c, i.access.Puts mem st (d.maps.mem i.access.memory) c ∧
      st' = ⟨st.locals, (i.access.push mem st).toList ++ st.vstack.drop (i.access.operands + 1), c⟩ := by
  have hexact := access_exact h
  have hfits : ¬i.access.Fails mem st := fun hfails => by
    rw [hexact.fails hfails] at hok
    cases hok
  obtain ⟨c, hputs, hdone⟩ := hexact.done hfits
  rw [hdone] at hok
  cases hok
  exact ⟨hfits, c, hputs, rfl⟩

/-- What has been written is found. -/
theorem Access.Puts.found {a : Access} {slot n : ℕ} {c : Contents} (h : a.Puts mem st slot c)
    (hmem : st.contents.memories[slot]? = some mem) (hn : a.put mem st = some n)
    (hfit : a.address mem st + a.width ≤ mem.bytes.length) :
    ∃ bytes, c.memories[slot]? = some { mem with bytes } ∧ bytes.length = mem.bytes.length ∧
      leValue ((bytes.drop (a.address mem st)).take a.width) = n % 256 ^ a.width := by
  rw [Puts, hn] at h
  obtain ⟨bytes, rfl, hmoved⟩ := h
  have hlt : slot < st.contents.memories.length := (List.getElem?_eq_some_iff.mp hmem).1
  refine ⟨bytes, ?_, hmoved.length_eq, ?_⟩
  · exact List.getElem?_set_self hlt
  · apply leValue_of_digits
    · exact length_slice (hmoved.length_eq.symm ▸ hfit)
    · intro k hk
      rw [getElem?_slice hk, hmoved.inside k hk]

theorem Access.Puts.unique {a a' : Access} {slot n : ℕ} {st' : PlainState} {c c' : Contents} (h : a.Puts mem st slot c)
    (h' : a'.Puts mem st' slot c') (hn : a.put mem st = some n) (hn' : a'.put mem st' = some n)
    (haddress : a'.address mem st' = a.address mem st) (hwidth : a'.width = a.width)
    (hcontents : st'.contents = st.contents) : c' = c := by
  rw [Puts, hn] at h
  rw [Puts, hn', haddress, hwidth, hcontents] at h'
  obtain ⟨bytes, rfl, hmoved⟩ := h
  obtain ⟨bytes', rfl, hmoved'⟩ := h'
  rw [hmoved.unique hmoved']

/-! ### The machine's step -/

theorem effectiveAddress_of_fits (hlen : mem.bytes.length < 2 ^ 64) {addr offset n : ℕ}
    (hfit : addr + offset + n ≤ mem.bytes.length) : effectiveAddress mem addr offset n = .ok (addr + offset) := by
  rw [effectiveAddress, decide_eq_true (show addr + offset + n < 2 ^ 64 by omega), decide_eq_true hfit]
  rfl

theorem effectiveAddress_of_not_fits {addr offset n : ℕ} (hfit : ¬addr + offset + n ≤ mem.bytes.length) :
    effectiveAddress mem addr offset n = .error .memoryOutOfBounds := by
  rw [effectiveAddress, decide_eq_false hfit]
  by_cases hlt : addr + offset + n < 2 ^ 64
  · rw [decide_eq_true hlt]
    rfl
  · rw [decide_eq_false hlt]
    rfl

theorem Agrees.ok {plain : Except Trap PlainState} {outcome : EStateM.Result Abort PlainState Unit} {st' : PlainState}
    (hplain : plain = .ok st') (hrun : outcome = .ok () st') : Agrees plain outcome := by
  rw [hplain, hrun]
  refine ⟨fun st'' => ?_, fun t ht => nomatch ht⟩
  rw [EStateM.Result.ok.injEq, Except.ok.injEq, eq_self, true_and]

theorem Agrees.error {plain : Except Trap PlainState} {outcome : EStateM.Result Abort PlainState Unit} {t t' : Trap}
    {st' : PlainState} (hplain : plain = .error t) (hrun : outcome = .error (.trap t') st') : Agrees plain outcome := by
  rw [hplain, hrun]
  refine ⟨fun st'' => ?_, fun _ _ => ⟨t', st', rfl⟩⟩
  exact ⟨fun h => (nomatch h), fun h => (nomatch h)⟩

section
variable {ma : MemArg} (hmem : st.contents.memories[d.maps.mem ma.memory]? = some mem) (hlen : mem.bytes.length < 2 ^ 64)

include hmem hlen

theorem agrees_load (limits : ResourceLimits) (op : LoadOp) :
    Agrees (execMemory d limits st (.load op ma)) (InPlace.access d (.load op ma) st) := by
  let a := (AccessInstr.load op ma).access
  have hplain : execMemory d limits (st.popped 0) (.load op ma) =
      (do
        let start ← effectiveAddress mem (st.addr mem.is64 0) ma.offset op.width
        pure ((st.popped 1).push (op.extend (BitVec.ofNat 64 (leValue ((mem.bytes.drop start).take op.width)))))) := by
    simp only [execMemory, hmem, orError, PlainState.popAddr_popped, PlainState.contents_popped]
    rfl
  have hexact := access_exact (i := .load op ma) ⟨trivial, hmem, hlen⟩
  by_cases hfails : a.Fails mem st
  · have hfit : ¬st.addr mem.is64 0 + ma.offset + op.width ≤ mem.bytes.length :=
      (Access.fails_iff_of_not_aligned (a := a) rfl).mp hfails
    rw [effectiveAddress_of_not_fits hfit] at hplain
    exact Agrees.error hplain (hexact.fails hfails)
  · have hfit : st.addr mem.is64 0 + ma.offset + op.width ≤ mem.bytes.length := Access.fits_of_not_fails (a := a) hfails
    rw [effectiveAddress_of_fits hlen hfit] at hplain
    obtain ⟨c, rfl, hrun⟩ := hexact.done hfails
    refine Agrees.ok (hplain.trans ?_) hrun
    exact congrArg (fun v => Except.ok ((st.popped 1).push v)) (op.extend_eq (a.found mem st))

theorem agrees_store (limits : ResourceLimits) (op : StoreOp) :
    Agrees (execMemory d limits st (.store op ma)) (InPlace.access d (.store op ma) st) := by
  let a := (AccessInstr.store op ma).access
  have hplain : execMemory d limits (st.popped 0) (.store op ma) =
      (do
        let start ← effectiveAddress mem (st.addr mem.is64 1) ma.offset op.width
        pure { st.popped 2 with
          contents := st.contents.putBytes (d.maps.mem ma.memory) mem
            (writeAt mem.bytes start (leBytes op.width (st.operand 0))) }) := by
    simp only [execMemory, hmem, orError, PlainState.pop_popped, PlainState.popAddr_popped, PlainState.contents_popped]
    rfl
  have hexact := access_exact (i := .store op ma) ⟨trivial, hmem, hlen⟩
  by_cases hfails : a.Fails mem st
  · have hfit : ¬st.addr mem.is64 1 + ma.offset + op.width ≤ mem.bytes.length :=
      (Access.fails_iff_of_not_aligned (a := a) rfl).mp hfails
    rw [effectiveAddress_of_not_fits hfit] at hplain
    exact Agrees.error hplain (hexact.fails hfails)
  · have hfit : st.addr mem.is64 1 + ma.offset + op.width ≤ mem.bytes.length := Access.fits_of_not_fails (a := a) hfails
    rw [effectiveAddress_of_fits hlen hfit] at hplain
    obtain ⟨c, ⟨bytes, rfl, hmoved⟩, hrun⟩ := hexact.done hfails
    have hlength := length_leBytes op.width (st.operand 0)
    have hroom : st.addr mem.is64 1 + ma.offset + (leBytes op.width (st.operand 0)).length ≤ mem.bytes.length :=
      hlength.symm ▸ hfit
    have hwritten := moved_writeAt hroom
    rw [hlength] at hwritten
    obtain rfl := (hwritten.congr fun k hk => getElem?_leBytes (st.operand 0) hk).unique hmoved
    exact Agrees.ok hplain hrun

end

theorem AtomicType.toNat_value (t : AtomicType) {n : ℕ} (hn : n < 2 ^ (8 * t.bytes)) : (t.value n).toNat = n := by
  have hlt : n < 2 ^ t.number.size := hn.trans_le (Nat.pow_le_pow_right (by decide) (by cases t <;> decide))
  have hlt' : n < 2 ^ 128 := hlt.trans_le (Nat.pow_le_pow_right (by decide) t.number.size_le)
  rw [value, Width.value, BitVec.toNat_setWidth, BitVec.toNat_ofNat, Nat.mod_eq_of_lt hlt, Nat.mod_eq_of_lt hlt']

theorem RmwOp.result_lt (op : RmwOp) (bits old v : ℕ) : op.result bits old v < 2 ^ bits := by
  have hpos : 0 < 2 ^ bits := Nat.two_pow_pos bits
  cases op with
  | add | and | or | xor | xchg => exact Nat.mod_lt _ hpos
  | sub =>
    have hpos : (0 : ℤ) < 2 ^ bits := by positivity
    have hlt : ((old : ℤ) - v) % 2 ^ bits < 2 ^ bits := Int.emod_lt_of_pos _ hpos
    have hnonneg : 0 ≤ ((old : ℤ) - v) % 2 ^ bits := Int.emod_nonneg _ hpos.ne'
    show (((old : ℤ) - v) % 2 ^ bits).toNat < 2 ^ bits
    zify
    rwa [Int.toNat_of_nonneg hnonneg]

open InPlace in
/-- A read-modify-write is a load, the operation and a store. -/
theorem rmw_eq_sequence {op : RmwOp} {t : AtomicType} {ma : MemArg} (hon : (AccessInstr.atomic (.rmw op t) ma).On d st mem) :
    access d (.atomic ⟨(AtomicOp.rmw op t).sub, ma⟩) st = rmwSequence d op t ma st := by
  let a := (AtomicOp.rmw op t).access ma
  let st₁ := (st.popped 2).push (st.operand 1)
  have hexact := access_exact hon
  have hload : ((AtomicOp.load t).access ma).Exact mem st₁ d (access d (.atomic ⟨(AtomicOp.load t).sub, ma⟩)) :=
    access_exact (i := .atomic (.load t) ma) ⟨trivial, hon.memory, hon.length⟩
  have hstart : rmwSequence d op t ma st = (access d (.atomic ⟨(AtomicOp.load t).sub, ma⟩) >>= fun _ => do
      let old ← pop
      InPlace.push (st.operand 1)
      InPlace.push (t.value (op.result (8 * t.bytes) old.toNat (st.operand 0).toNat))
      access d (.atomic ⟨(AtomicOp.store t).sub, ma⟩)
      InPlace.push old) st₁ := by
    rw [rmwSequence, ← st.popped_zero, bind_of_ok (pop_popped st 0), bind_of_ok (pop_popped st 1)]
    rfl
  rw [hstart]
  by_cases hfails : a.Fails mem st
  · have hrun : access d (.atomic ⟨(AtomicOp.load t).sub, ma⟩) st₁ = .error (.trap (a.trap mem st)) (st.popped 2) :=
      hload.fails hfails
    rw [bind_run, hrun]
    exact hexact.fails hfails
  · obtain ⟨c, hputs, hrun⟩ := hexact.done hfails
    obtain ⟨c₁, rfl, hload⟩ := hload.done hfails
    let old := t.value (a.found mem st)
    let new := op.result (8 * t.bytes) (a.found mem st) (st.operand 0).toNat
    let st₂ := ((st.popped 2).push (st.operand 1)).push (t.value new)
    have hload : access d (.atomic ⟨(AtomicOp.load t).sub, ma⟩) st₁ = .ok () ((st.popped 2).push old) := hload
    have hold : old.toNat = a.found mem st := t.toNat_value ((Access.found_lt a).trans_eq t.pow_bytes)
    have hnew : (t.value new).toNat = new := t.toNat_value (op.result_lt _ _ _)
    have hstore : ((AtomicOp.store t).access ma).Exact mem st₂ d (access d (.atomic ⟨(AtomicOp.store t).sub, ma⟩)) :=
      access_exact (i := .atomic (.store t) ma) ⟨trivial, hon.memory, hon.length⟩
    obtain ⟨c₂, hputs₂, hstore⟩ := hstore.done hfails
    have hc : c₂ = c := hputs.unique hputs₂ rfl (congrArg some hnew) rfl rfl rfl
    have hstore : access d (.atomic ⟨(AtomicOp.store t).sub, ma⟩) st₂ = .ok () { st.popped 2 with contents := c } :=
      hc ▸ hstore
    rw [bind_of_ok hload]
    symm
    show (access d (.atomic ⟨(AtomicOp.store t).sub, ma⟩) >>= fun _ => InPlace.push old)
      (((st.popped 2).push (st.operand 1)).push (t.value (op.result (8 * t.bytes) old.toNat (st.operand 0).toNat))) = _
    rw [hold, bind_of_ok hstore]
    exact hrun.symm

end

variable (d : InstanceData)

/-- Memory accesses are exact. -/
theorem memory_exact : MemoryExact d where
  traps_iff {i st mem} hon := by
    have hexact := access_exact hon
    constructor
    · rintro ⟨e, st', herror⟩
      by_contra hfits
      obtain ⟨c, -, hok⟩ := hexact.done hfits
      rw [herror] at hok
      cases hok
    · intro hfails
      exact ⟨_, _, hexact.fails hfails⟩
  trapped {i st st' mem e} hon herror := by
    have hexact := access_exact hon
    by_cases hfails : i.access.Fails mem st
    · rw [hexact.fails hfails] at herror
      cases herror
      exact ⟨rfl, rfl⟩
    · obtain ⟨c, -, hok⟩ := hexact.done hfails
      rw [herror] at hok
      cases hok
  done {i st st' mem} hon hok := by
    obtain ⟨-, c, hputs, rfl⟩ := access_done hon hok
    exact ⟨rfl, rfl, hputs⟩
  load_store {i j st st₁ st₂ mem n} hon hn hok hvalid hmemory hwidth haddress hcontents haligned := by
    obtain ⟨hfits, c, hputs, rfl⟩ := access_done hon hok
    have hfit := Access.fits_of_not_fails hfits
    obtain ⟨bytes, hbytes, hlength, hfound⟩ := hputs.found hon.memory hn hfit
    have hj : j.On d st₂ { mem with bytes } := by
      refine ⟨hvalid, ?_, hlength.trans_lt hon.length⟩
      rw [hcontents, hmemory, hbytes]
    have hfits' : ¬j.access.Fails { mem with bytes } st₂ := by
      rintro (hlt | ⟨ha, hdvd⟩)
      · have hlt : bytes.length < j.access.address mem st₂ + j.access.width := hlt
        omega
      · exact hdvd (haligned ha)
    obtain ⟨c', -, hrun⟩ := (access_exact hj).done hfits'
    have hfound' : j.access.found { mem with bytes } st₂ = n % 256 ^ i.access.width := by
      have haddress' : j.access.address { mem with bytes } st₂ = i.access.address mem st := haddress
      rw [Access.found, haddress', hwidth]
      exact hfound
    refine ⟨_, hrun, ?_⟩
    show (j.access.pushed st₂.operand (j.access.found { mem with bytes } st₂)).toList ++ _ = _
    rw [hfound']
  rmw hon := rmw_eq_sequence hon

end Wasmrt
