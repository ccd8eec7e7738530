import Wasmrt.Capi.Boundary

/-!
# Value handles

C names instances, functions, memories and globals by numbers: the tag of the store in the high half of a word, the
place in a table of the store in the low half. A handle is looked up by its tag and its place.

## Main definitions

* `pack`: the number of a handle.
* `HandleStore`: the tables of a store.
* `HandleStore.resolve`: what a number names there, presented as a handle of some kind.
* `HandleStore.Adds`: a store after one more handle was issued.

## Main results

* `unpack_eq_some_iff`: which numbers have a place.
* `HandleStore.resolve_eq_some_iff`: which numbers name something.
* `HandleStore.adds_addInstance`, `HandleStore.instanceGet_spec`: what the calls that issue a handle do.
-/

namespace Wasmrt.Capi

/-! ## Numbers -/

/-- The number of a handle. Its low half starts at 1, so that 0 names nothing. -/
def pack (tag : BitVec 32) (slot : ℕ) : BitVec 64 := tag.setWidth 64 <<< 32 ||| (BitVec.ofNat 64 slot + 1)

section Pack

variable {tag tag' : BitVec 32} {id : BitVec 64} {slot slot' : ℕ}

theorem toNat_pack (hslot : slot + 1 < 2 ^ 32) : (pack tag slot).toNat = tag.toNat * 2 ^ 32 + (slot + 1) := by
  have htag := tag.isLt
  have hlow : (BitVec.ofNat 64 slot + 1).toNat = slot + 1 := by
    have hone : (1 : BitVec 64).toNat = 1 := rfl
    rw [BitVec.toNat_add, BitVec.toNat_ofNat, hone]
    omega
  rw [pack, BitVec.toNat_or, BitVec.toNat_shiftLeft, BitVec.toNat_setWidth, hlow, Nat.mod_eq_of_lt (by omega),
    Nat.shiftLeft_eq, Nat.mod_eq_of_lt (by omega), Nat.mul_comm, ← Nat.two_pow_add_eq_or_of_lt hslot]

theorem unpack_eq_some_iff : unpack id tag = some slot ↔ slot + 1 < 2 ^ 32 ∧ id = pack tag slot := by
  have htag := tag.isLt
  have hid := id.isLt
  have hhigh : ((id >>> 32).setWidth 32).toNat = id.toNat / 2 ^ 32 := by
    rw [BitVec.toNat_setWidth, BitVec.toNat_ushiftRight, Nat.shiftRight_eq_div_pow]
    omega
  have hlow : (id.setWidth 32).toNat = id.toNat % 2 ^ 32 := BitVec.toNat_setWidth 32 id
  have hmatch : unpack id tag = some slot ↔ id.toNat / 2 ^ 32 = tag.toNat ∧ id.toNat % 2 ^ 32 = slot + 1 := by
    rw [unpack, ← hhigh, ← hlow, BitVec.toNat_inj]
    split_ifs with h
    · exact iff_of_false nofun fun h' => h h'.1
    · rw [ne_eq, not_not] at h
      rw [and_iff_right h]
      cases (id.setWidth 32).toNat <;> simp
  rw [hmatch]
  constructor
  · rintro ⟨hdiv, hmod⟩
    have hslot : slot + 1 < 2 ^ 32 := by omega
    exact ⟨hslot, BitVec.eq_of_toNat_eq (by rw [toNat_pack hslot]; omega)⟩
  · rintro ⟨hslot, rfl⟩
    rw [toNat_pack hslot]
    omega

/-- A handle has its own tag and its own place. -/
theorem pack_inj (hslot : slot + 1 < 2 ^ 32) (hslot' : slot' + 1 < 2 ^ 32) (h : pack tag slot = pack tag' slot') :
    tag = tag' ∧ slot = slot' := by
  have hnat := congrArg BitVec.toNat h
  rw [toNat_pack hslot, toNat_pack hslot'] at hnat
  exact ⟨BitVec.eq_of_toNat_eq (by omega), by omega⟩

theorem unpack_zero : unpack 0 tag = none := by
  rw [Option.eq_none_iff_forall_ne_some]
  intro slot h
  obtain ⟨hslot, h⟩ := unpack_eq_some_iff.mp h
  have hzero : (0 : BitVec 64).toNat = 0 := rfl
  have hnat := congrArg BitVec.toNat h
  rw [toNat_pack hslot, hzero] at hnat
  omega

end Pack

/-! ## The tables of a store -/

/-- What a handle is of, apart from an instance. -/
inductive ItemHandle
  | func | memory | global
  deriving DecidableEq

/-- The kind of the exports it names. -/
def ItemHandle.externKind : ItemHandle → ExternKind
  | func => .func
  | memory => .memory
  | global => .global

/-- The kinds of value handles. -/
inductive HandleKind
  | inst
  | item (k : ItemHandle)
  deriving DecidableEq

/-- What a handle stands for: an instance, or an index in one. -/
abbrev Entity := InstanceId × Option ℕ

/-- A `wasmrt_store` with all of its tables. -/
structure HandleStore extends CStore where
  memories : List (ℕ × ℕ)
  globals : List (ℕ × ℕ)

namespace HandleStore

/-- An empty store. -/
def new (tag : BitVec 32) (inner : Store) : HandleStore where
  tag := tag
  inner := inner
  instances := []
  funcs := []
  memories := []
  globals := []

/-- The records behind the handles of a kind: an instance's place, and an index in that instance. -/
def records (s : HandleStore) : ItemHandle → List (ℕ × ℕ)
  | .func => s.funcs
  | .memory => s.memories
  | .global => s.globals

def push (s : HandleStore) (k : ItemHandle) (r : ℕ × ℕ) : HandleStore :=
  match k with
  | .func => { s with funcs := s.funcs ++ [r] }
  | .memory => { s with memories := s.memories ++ [r] }
  | .global => { s with globals := s.globals ++ [r] }

/-! ### Lookups -/

def inst (s : HandleStore) (h : BitVec 64) : Option InstanceId := do
  s.instances[← unpack h s.tag]?

def memory (s : HandleStore) (h : BitVec 64) : Option (InstanceId × ℕ) := do
  let p ← s.memories[← unpack h s.tag]?
  let id ← s.instances[p.1]?
  pure (id, p.2)

def global (s : HandleStore) (h : BitVec 64) : Option (InstanceId × ℕ) := do
  let p ← s.globals[← unpack h s.tag]?
  let id ← s.instances[p.1]?
  pure (id, p.2)

/-- What a number names, presented as a handle of some kind. -/
def resolve (s : HandleStore) (kind : HandleKind) (h : BitVec 64) : Option Entity :=
  match kind with
  | .inst => (s.inst h).map (·, none)
  | .item .func => (s.func h).map (Prod.map id some)
  | .item .memory => (s.memory h).map (Prod.map id some)
  | .item .global => (s.global h).map (Prod.map id some)

/-- The place of an instance. -/
def slotOf (s : HandleStore) (id : InstanceId) : Option ℕ := s.instances.findIdx? fun x => x = id

/-! ### Calls that issue a handle -/

/-- Look an export up, and make a handle of it. -/
def instanceGet (s : HandleStore) (k : ItemHandle) (h : BitVec 64) (name : String) :
    Option (HandleStore × BitVec 64) := do
  let id ← s.inst h
  let index ← s.inner.exportIndex id name k.externKind
  let slot ← s.slotOf id
  let s := s.push k (slot, index)
  pure (s, pack s.tag ((s.records k).length - 1))

def instanceGetFunc (s : HandleStore) (h : BitVec 64) (name : String) : Option (HandleStore × BitVec 64) :=
  s.instanceGet .func h name

def instanceGetMemory (s : HandleStore) (h : BitVec 64) (name : String) : Option (HandleStore × BitVec 64) :=
  s.instanceGet .memory h name

def instanceGetGlobal (s : HandleStore) (h : BitVec 64) (name : String) : Option (HandleStore × BitVec 64) :=
  s.instanceGet .global h name

/-- Make a handle of an instance that the store has just made. -/
def addInstance (s : HandleStore) (inner : Store) (id : InstanceId) : HandleStore × BitVec 64 :=
  let s := { s with inner := inner, instances := s.instances ++ [id] }
  (s, pack s.tag (s.instances.length - 1))

/-! ### Places in a table -/

/-- How many places the table of a kind has. -/
def size (s : HandleStore) : HandleKind → ℕ
  | .inst => s.instances.length
  | .item k => (s.records k).length

/-- What a place in the table of a kind stands for. -/
def entity? (s : HandleStore) (kind : HandleKind) (slot : ℕ) : Option Entity :=
  match kind with
  | .inst => s.instances[slot]?.map (·, none)
  | .item k => do
    let p ← (s.records k)[slot]?
    let id ← s.instances[p.1]?
    pure (id, some p.2)

/-- The records point at instances of the store. -/
def Sound (s : HandleStore) : Prop := ∀ k, ∀ r ∈ s.records k, r.1 < s.instances.length

section Places

variable {s : HandleStore} {kind : HandleKind} {h : BitVec 64} {e : Entity} {slot : ℕ}

theorem entity?_inst_eq_some_iff :
    s.entity? .inst slot = some e ↔ ∃ id, s.instances[slot]? = some id ∧ (id, none) = e := by
  simp only [entity?, Option.map_eq_some_iff]

theorem entity?_item_eq_some_iff {k : ItemHandle} :
    s.entity? (.item k) slot = some e ↔
      ∃ r, (s.records k)[slot]? = some r ∧ ∃ id, s.instances[r.1]? = some id ∧ (id, some r.2) = e := by
  simp only [entity?, Option.bind_eq_bind, Option.bind_eq_some_iff, Option.pure_def, Option.some.injEq]

/-- A lookup unpacks the number and reads the table. -/
theorem resolve_eq (s : HandleStore) (kind : HandleKind) (h : BitVec 64) :
    s.resolve kind h = (unpack h s.tag).bind (s.entity? kind) := by
  cases kind with
  | inst => simp only [resolve, inst, Option.bind_eq_bind, Option.map_bind]; rfl
  | item k =>
    cases k <;>
      simp only [resolve, CStore.func, memory, global, Option.bind_eq_bind, Option.map_bind, Function.comp_def,
        Option.pure_def, Option.map_some, Prod.map] <;>
      rfl

theorem resolve_eq_some_iff :
    s.resolve kind h = some e ↔ ∃ slot, slot + 1 < 2 ^ 32 ∧ h = pack s.tag slot ∧ s.entity? kind slot = some e := by
  simp only [resolve_eq, Option.bind_eq_some_iff, unpack_eq_some_iff, and_assoc]

/-- A number with another tag names nothing. -/
theorem resolve_pack_of_ne {tag : BitVec 32} (hslot : slot + 1 < 2 ^ 32) (htag : tag ≠ s.tag) :
    s.resolve kind (pack tag slot) = none := by
  rw [Option.eq_none_iff_forall_ne_some]
  intro e he
  obtain ⟨slot', hslot', hpack, -⟩ := resolve_eq_some_iff.mp he
  exact htag (pack_inj hslot hslot' hpack).1

theorem resolve_zero : s.resolve kind 0 = none := by
  rw [resolve_eq, unpack_zero, Option.bind_none]

end Places

/-! ### One more handle -/

/-- A store after a handle was issued: its table has one more place, and everything else is where it was. -/
structure Adds (s : HandleStore) (kind : HandleKind) (e : Entity) (s' : HandleStore) : Prop where
  tag : s'.tag = s.tag
  sound : s'.Sound
  entity_iff : ∀ kind' slot e', s'.entity? kind' slot = some e' ↔
    s.entity? kind' slot = some e' ∨ kind' = kind ∧ slot = s.size kind ∧ e' = e
  id : s'.inner.id = s.inner.id
  code : s.inner.code <+: s'.inner.code

section Adds

variable {s s' : HandleStore}

@[simp]
theorem tag_push (s : HandleStore) (k : ItemHandle) (r : ℕ × ℕ) : (s.push k r).tag = s.tag := by cases k <;> rfl

@[simp]
theorem inner_push (s : HandleStore) (k : ItemHandle) (r : ℕ × ℕ) : (s.push k r).inner = s.inner := by cases k <;> rfl

@[simp]
theorem instances_push (s : HandleStore) (k : ItemHandle) (r : ℕ × ℕ) : (s.push k r).instances = s.instances := by
  cases k <;> rfl

theorem records_push_self (s : HandleStore) (k : ItemHandle) (r : ℕ × ℕ) :
    (s.push k r).records k = s.records k ++ [r] := by
  cases k <;> rfl

theorem records_push_of_ne {k k' : ItemHandle} (s : HandleStore) (r : ℕ × ℕ) (hk : k' ≠ k) :
    (s.push k r).records k' = s.records k' := by
  cases k <;> cases k' <;> first | rfl | exact absurd rfl hk

theorem getElem?_append_one_eq_some_iff {α : Type*} {l : List α} {a b : α} {i : ℕ} :
    (l ++ [a])[i]? = some b ↔ l[i]? = some b ∨ i = l.length ∧ b = a := by
  rcases lt_trichotomy i l.length with h | rfl | h
  · rw [List.getElem?_append_left h, or_iff_left fun h' => h.ne h'.1]
  · rw [List.getElem?_concat_length, List.getElem?_eq_none le_rfl, Option.some.injEq]
    simp [eq_comm]
  · have hout : (l ++ [a])[i]? = none := List.getElem?_eq_none (by rw [List.length_append]; exact h)
    rw [hout, List.getElem?_eq_none h.le]
    exact iff_of_false nofun fun h' => h'.elim nofun fun h' => h.ne' h'.1

theorem sound_new (tag : BitVec 32) (inner : Store) : (new tag inner).Sound := by
  intro k r hr
  cases k <;> exact absurd hr List.not_mem_nil

theorem entity?_new (tag : BitVec 32) (inner : Store) (kind : HandleKind) (slot : ℕ) :
    (new tag inner).entity? kind slot = none := by
  cases kind with
  | inst => rfl
  | item k => cases k <;> rfl

/-- A new instance takes the next place, and no record points there. -/
theorem adds_addInstance (hs : s.Sound) {inner : Store} (hid : inner.id = s.inner.id)
    (hcode : s.inner.code <+: inner.code) (id : InstanceId) :
    s.Adds .inst (id, none) (s.addInstance inner id).1 where
  tag := rfl
  id := hid
  code := hcode
  sound k r hr := by
    have := hs k r (by cases k <;> exact hr)
    simp only [addInstance, List.length_append, List.length_singleton]
    omega
  entity_iff kind' slot e' := by
    cases kind' with
    | inst =>
      simp only [entity?_inst_eq_some_iff, addInstance, getElem?_append_one_eq_some_iff, size, true_and, or_and_right,
        exists_or, and_assoc, exists_and_left, exists_eq_left]
      exact or_congr_right (and_congr_right fun _ => eq_comm)
    | item k =>
      have hrecords : (s.addInstance inner id).1.records k = s.records k := by cases k <;> rfl
      simp only [entity?_item_eq_some_iff, hrecords, reduceCtorEq, false_and, or_false]
      refine exists_congr fun r => and_congr_right fun hr => ?_
      have hlt : r.1 < s.instances.length := hs k r (List.mem_of_getElem? hr)
      simp only [addInstance, List.getElem?_append_left hlt]

/-- A new record takes the next place of its kind. -/
theorem adds_push (hs : s.Sound) (k : ItemHandle) {i : ℕ} {id : InstanceId} (hi : s.instances[i]? = some id)
    (index : ℕ) : s.Adds (.item k) (id, some index) (s.push k (i, index)) where
  tag := s.tag_push k _
  id := by rw [inner_push]
  code := by simp only [inner_push, List.prefix_rfl]
  sound k' r hr := by
    rw [instances_push]
    by_cases hk : k' = k
    · subst hk
      rw [records_push_self, List.mem_append, List.mem_singleton] at hr
      obtain hr | rfl := hr
      · exact hs k' r hr
      · exact (List.getElem?_eq_some_iff.mp hi).1
    · rw [records_push_of_ne _ _ hk] at hr
      exact hs k' r hr
  entity_iff kind' slot e' := by
    cases kind' with
    | inst => simp only [entity?_inst_eq_some_iff, instances_push, reduceCtorEq, false_and, or_false]
    | item k' =>
      by_cases hk : k' = k
      · subst hk
        simp only [entity?_item_eq_some_iff, records_push_self, instances_push, getElem?_append_one_eq_some_iff, size,
          true_and, or_and_right, exists_or, and_assoc, exists_and_left, exists_eq_left, hi, Option.some.injEq,
          exists_eq_left']
        exact or_congr_right (and_congr_right fun _ => eq_comm)
      · simp only [entity?_item_eq_some_iff, records_push_of_ne _ _ hk, instances_push, HandleKind.item.injEq, hk,
          false_and, or_false]

theorem getElem?_slotOf {id : InstanceId} {slot : ℕ} (h : s.slotOf id = some slot) : s.instances[slot]? = some id := by
  obtain ⟨hlt, heq, -⟩ := List.findIdx?_eq_some_iff_getElem.mp h
  rw [List.getElem?_eq_getElem hlt, of_decide_eq_true heq]

theorem addInstance_snd (s : HandleStore) (inner : Store) (id : InstanceId) :
    (s.addInstance inner id).2 = pack s.tag (s.size .inst) := by
  simp only [addInstance, size, List.length_append, List.length_singleton, Nat.add_sub_cancel]

/-- A lookup adds a record, and makes its handle. -/
theorem instanceGet_spec (hs : s.Sound) {k : ItemHandle} {h h' : BitVec 64} {name : String} {id : InstanceId}
    {index : ℕ} (hid : s.inst h = some id) (hindex : s.inner.exportIndex id name k.externKind = some index)
    (hget : s.instanceGet k h name = some (s', h')) :
    s.Adds (.item k) (id, some index) s' ∧ h' = pack s.tag (s.size (.item k)) ∧ s'.inner = s.inner := by
  simp only [instanceGet, hid, hindex, Option.bind_eq_bind, Option.bind_some, Option.bind_eq_some_iff, Option.pure_def,
    Option.some.injEq, Prod.mk.injEq] at hget
  obtain ⟨slot, hslot, rfl, rfl⟩ := hget
  refine ⟨adds_push hs k (getElem?_slotOf hslot) index, ?_, inner_push s k _⟩
  simp only [tag_push, records_push_self, size, List.length_append, List.length_singleton, Nat.add_sub_cancel]

end Adds

end HandleStore

end Wasmrt.Capi
