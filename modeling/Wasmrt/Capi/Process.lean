import Wasmrt.Capi.Handles
import Wasmrt.Store.Step

/-!
# The stores of a process

A store draws its tag from a counter of the process that every new store advances. The counter has 32 bits and wraps,
and so does the place of a handle within the half of the word that is left for it.

## Main definitions

* `Process`, `Process.Step`, `Process.Run`: the stores of a process and what they have issued, over calls in any order.
* `Process.Named`: a handle names what it was issued for, in the store that issued it and in no other.
* `Process.Fits`: neither half of the word overflows in a step.
* `Process.Counted`: what the counter and the tables have to do with the handles that were issued.

## Main results

* `Process.named_of_run`: handles are named as long as both halves fit.
* `Process.not_named_run`: a tag that is issued again brings the handles of a deleted store back.
-/

namespace Wasmrt

/-- An export stays where it is while instances join. -/
theorem Store.exportIndex_of_prefix {s s' : Store} {id : InstanceId} {name : String} {kind : ExternKind} {index : ℕ}
    (hid : s'.id = s.id) (hcode : s.code <+: s'.code) (h : s.exportIndex id name kind = some index) :
    s'.exportIndex id name kind = some index := by
  simp only [exportIndex, slot, Option.bind_eq_bind, Option.bind_eq_some_iff, Option.ite_none_right_eq_some,
    Option.some.injEq] at h ⊢
  obtain ⟨k, ⟨⟨hstore, hlt⟩, rfl⟩, d, hd, hfind⟩ := h
  exact ⟨_, ⟨⟨hstore.trans hid.symm, hlt.trans_le hcode.length_le⟩, rfl⟩, d, getElem?_of_prefix hcode hd, hfind⟩

namespace Capi

/-- A handle that a store has issued, and what for. `source` is the export behind a handle that was looked up. -/
structure Issue where
  store : ℕ
  kind : HandleKind
  source : Option (InstanceId × String)
  id : BitVec 64
  entity : Entity

/-- The stores of a process, in the order of their creation; a deleted one is `none`. -/
structure Process where
  nextTag : BitVec 32 := 1
  nextStoreId : BitVec 64 := 1
  stores : List (Option HandleStore) := []
  issued : List Issue := []

/-- What a call does, as far as handles go. -/
inductive Effect
  | create
  | issue (store : ℕ) (kind : HandleKind)
  | quiet

namespace Process

/-- A store that was created and not deleted. -/
def Live (p : Process) (i : ℕ) (s : HandleStore) : Prop := p.stores[i]? = some (some s)

/-- Create a store. Both counters wrap. -/
def storeNew (p : Process) (limits : ResourceLimits) : Process :=
  { p with
    nextTag := p.nextTag + 1
    nextStoreId := p.nextStoreId + 1
    stores := p.stores ++ [some (.new p.nextTag { id := p.nextStoreId.toNat, pools := { limits } })] }

def storeDelete (p : Process) (i : ℕ) : Process := { p with stores := p.stores.set i none }

def update (p : Process) (i : ℕ) (s : HandleStore) : Process := { p with stores := p.stores.set i (some s) }

/-- A call that issues a handle. It has issued it also where the caller passes NULL for the result. -/
def issue (p : Process) (i : ℕ) (s : HandleStore) (x : Issue) : Process :=
  { p.update i s with issued := x :: p.issued }

/-- One call of the C interface. -/
inductive Step : Process → Effect → Process → Prop
  | storeNew (p : Process) (limits : ResourceLimits) : Step p .create (p.storeNew limits)
  | storeDelete (p : Process) (i : ℕ) : Step p .quiet (p.storeDelete i)
  /-- The start function may have run in the store that the instance was added to. -/
  | instantiate {p : Process} {i : ℕ} {s : HandleStore} {l : Linker HostFn} {md : Module} {r : Linker.Resolved HostFn}
      {id : InstanceId} {added inner : Store} (hs : p.Live i s) (hresolve : l.resolve s.inner md = .ok r)
      (hadd : Store.instantiate md r.imports s.inner = .ok id added) (hid : inner.id = added.id)
      (hcode : inner.code = added.code) :
      Step p (.issue i .inst) (p.issue i (s.addInstance inner id).1
        { store := i, kind := .inst, source := none, id := (s.addInstance inner id).2, entity := (id, none) })
  | instanceGet {p : Process} {i : ℕ} {s s' : HandleStore} {k : ItemHandle} {h h' : BitVec 64} {name : String}
      {id : InstanceId} {index : ℕ} (hs : p.Live i s) (hid : s.inst h = some id)
      (hindex : s.inner.exportIndex id name k.externKind = some index) (hget : s.instanceGet k h name = some (s', h')) :
      Step p (.issue i (.item k)) (p.issue i s'
        { store := i, kind := .item k, source := some (id, name), id := h', entity := (id, some index) })
  /-- Any other call on a store, and one that fails: its instances stay. -/
  | other {p : Process} {i : ℕ} {s : HandleStore} {inner : Store} (hs : p.Live i s) (hid : inner.id = s.inner.id)
      (hcode : s.inner.code <+: inner.code) : Step p .quiet (p.update i { s with inner := inner })

/-- The processes that calls lead to, from a start where no store was created, when each of them meets a condition. -/
inductive Run (C : Process → Effect → Prop) : Process → Prop
  | start : Run C {}
  | step {p p' : Process} {e : Effect} (h : Run C p) (hC : C p e) (hstep : p.Step e p') : Run C p'

/-- Handles name what they were issued for: a number names something in a store exactly if the store has issued it as a
handle of that kind, and then what it was issued for; so no handle of another store does, nor does zero, and handles
of the same export name the same. -/
structure Named (p : Process) : Prop where
  resolve_iff : ∀ i s, p.Live i s → ∀ kind h e,
    s.resolve kind h = some e ↔ ∃ x ∈ p.issued, x.store = i ∧ x.kind = kind ∧ x.id = h ∧ x.entity = e
  foreign : ∀ i s, p.Live i s → ∀ x ∈ p.issued, x.store ≠ i → ∀ kind, s.resolve kind x.id = none
  zero : ∀ i s, p.Live i s → ∀ kind, s.resolve kind 0 = none
  lookups : ∀ i s, p.Live i s → ∀ x ∈ p.issued, ∀ y ∈ p.issued, x.store = i → y.store = i → x.kind = y.kind →
    x.source = y.source → x.source ≠ none → s.resolve x.kind x.id = s.resolve y.kind y.id

/-- Neither half of a handle overflows: there is a tag left for a new store, and a place for a new handle. -/
def Fits (p : Process) : Effect → Prop
  | .create => p.stores.length < 2 ^ 32
  | .issue i kind => ∀ s, p.Live i s → s.size kind + 1 < 2 ^ 32
  | .quiet => True

/-! ## What the counter has given out -/

/-- The tag of the store that was created after `i` others. -/
def tagOf (i : ℕ) : BitVec 32 := BitVec.ofNat 32 (i + 1)

theorem tagOf_succ (i : ℕ) : tagOf (i + 1) = tagOf i + 1 := BitVec.ofNat_add (i + 1) 1

theorem tagOf_inj {i j : ℕ} (hi : i < 2 ^ 32) (hj : j < 2 ^ 32) (h : tagOf i = tagOf j) : i = j := by
  have hnat := congrArg BitVec.toNat h
  simp only [tagOf, BitVec.toNat_ofNat] at hnat
  omega

/-- The tags are those of the places in the order of creation, and the tables hold what was issued, as far as their
places fit in a handle. -/
structure Counted (p : Process) : Prop where
  length_le : p.stores.length ≤ 2 ^ 32
  nextTag : p.nextTag = tagOf p.stores.length
  tag : ∀ i s, p.Live i s → s.tag = tagOf i
  sound : ∀ i s, p.Live i s → s.Sound
  issued : ∀ x ∈ p.issued, x.store < p.stores.length ∧ ∃ slot, slot + 1 < 2 ^ 32 ∧ x.id = pack (tagOf x.store) slot
  entity_iff : ∀ i s, p.Live i s → ∀ kind slot e, slot + 1 < 2 ^ 32 → (s.entity? kind slot = some e ↔
    ∃ x ∈ p.issued, x.store = i ∧ x.kind = kind ∧ x.id = pack (tagOf i) slot ∧ x.entity = e)
  source : ∀ i s, p.Live i s → ∀ x ∈ p.issued, x.store = i → ∀ id name, x.source = some (id, name) → ∃ k index,
    x.kind = .item k ∧ s.inner.exportIndex id name k.externKind = some index ∧ x.entity = (id, some index)

section Live

variable {p : Process} {i j : ℕ} {s s' : HandleStore}

theorem Live.lt_length (h : p.Live i s) : i < p.stores.length := (List.getElem?_eq_some_iff.mp h).1

theorem live_storeNew {limits : ResourceLimits} :
    (p.storeNew limits).Live i s ↔ p.Live i s ∨ i = p.stores.length ∧
      s = .new p.nextTag { id := p.nextStoreId.toNat, pools := { limits } } := by
  rw [Live, storeNew, HandleStore.getElem?_append_one_eq_some_iff, Option.some.injEq, Live]

theorem Live.of_storeDelete (h : (p.storeDelete j).Live i s) : p.Live i s := by
  rw [Live, storeDelete, List.getElem?_set] at h
  split_ifs at h
  · exact absurd (Option.some.inj h) nofun
  · exact h

theorem live_update (hj : p.Live j s) :
    (p.update j s').Live i t ↔ i = j ∧ t = s' ∨ i ≠ j ∧ p.Live i t := by
  rw [Live, update, List.getElem?_set]
  split_ifs with h hlt
  · subst h
    simp [eq_comm]
  · exact absurd hj.lt_length hlt
  · simp [Ne.symm h, Live]

end Live

/-! ## What a step keeps -/

section Counted

variable {p : Process} {i : ℕ} {s s' : HandleStore}

theorem counted_empty : Counted {} where
  length_le := Nat.zero_le _
  nextTag := rfl
  tag _ _ h := nomatch h
  sound _ _ h := nomatch h
  issued _ h := nomatch h
  entity_iff _ _ h := nomatch h
  source _ _ h := nomatch h

/-- A new store has the next tag, and has issued nothing. -/
theorem Counted.storeNew (h : p.Counted) (hlt : p.stores.length < 2 ^ 32) (limits : ResourceLimits) :
    (p.storeNew limits).Counted where
  length_le := by rw [Process.storeNew, List.length_append]; exact hlt
  nextTag := by
    rw [Process.storeNew, h.nextTag, List.length_append, List.length_singleton, tagOf_succ]
  tag i s hs := by
    obtain hs | ⟨rfl, rfl⟩ := live_storeNew.mp hs
    · exact h.tag i s hs
    · exact h.nextTag
  sound i s hs := by
    obtain hs | ⟨rfl, rfl⟩ := live_storeNew.mp hs
    · exact h.sound i s hs
    · exact HandleStore.sound_new _ _
  issued x hx := by
    obtain ⟨hstore, hslot⟩ := h.issued x hx
    exact ⟨by rw [Process.storeNew, List.length_append]; exact hstore.trans_le (Nat.le_add_right _ _), hslot⟩
  entity_iff i s hs kind slot e hslot := by
    obtain hs | ⟨rfl, rfl⟩ := live_storeNew.mp hs
    · exact h.entity_iff i s hs kind slot e hslot
    · rw [HandleStore.entity?_new]
      exact iff_of_false nofun fun ⟨x, hx, hstore, _⟩ => (h.issued x hx).1.ne hstore
  source i s hs x hx hstore := by
    obtain hs | ⟨rfl, rfl⟩ := live_storeNew.mp hs
    · exact h.source i s hs x hx hstore
    · exact absurd hstore (h.issued x hx).1.ne

theorem Counted.storeDelete (h : p.Counted) (i : ℕ) : (p.storeDelete i).Counted where
  length_le := by rw [Process.storeDelete, List.length_set]; exact h.length_le
  nextTag := by rw [Process.storeDelete, List.length_set]; exact h.nextTag
  tag i s hs := h.tag i s hs.of_storeDelete
  sound i s hs := h.sound i s hs.of_storeDelete
  issued x hx := by rw [Process.storeDelete, List.length_set]; exact h.issued x hx
  entity_iff i s hs := h.entity_iff i s hs.of_storeDelete
  source i s hs := h.source i s hs.of_storeDelete

/-- The calls on one store: with what they do to its tables, and with what they issue. -/
theorem Counted.issue (h : p.Counted) (hs : p.Live i s) {kind : HandleKind} {e : Entity} (hadds : s.Adds kind e s')
    (hfit : s.size kind + 1 < 2 ^ 32) {source : Option (InstanceId × String)}
    (hsource : ∀ id name, source = some (id, name) → ∃ k index,
      kind = .item k ∧ s'.inner.exportIndex id name k.externKind = some index ∧ e = (id, some index)) :
    (p.issue i s' ⟨i, kind, source, pack s.tag (s.size kind), e⟩).Counted where
  length_le := by rw [Process.issue, update, List.length_set]; exact h.length_le
  nextTag := by rw [Process.issue, update, List.length_set]; exact h.nextTag
  tag j t ht := by
    obtain ⟨rfl, rfl⟩ | ⟨-, ht⟩ := (live_update hs).mp ht
    · exact hadds.tag.trans (h.tag j s hs)
    · exact h.tag j t ht
  sound j t ht := by
    obtain ⟨rfl, rfl⟩ | ⟨-, ht⟩ := (live_update hs).mp ht
    · exact hadds.sound
    · exact h.sound j t ht
  issued x hx := by
    rw [Process.issue, update, List.length_set]
    obtain rfl | hx := List.mem_cons.mp hx
    · exact ⟨hs.lt_length, _, hfit, by rw [h.tag i s hs]⟩
    · exact h.issued x hx
  entity_iff j t ht kind' slot e' hslot := by
    simp only [Process.issue, List.mem_cons, exists_eq_or_imp]
    obtain ⟨rfl, rfl⟩ | ⟨hj, ht⟩ := (live_update hs).mp ht
    · rw [hadds.entity_iff, h.entity_iff j s hs kind' slot e' hslot, or_comm]
      refine or_congr_left ?_
      rw [h.tag j s hs]
      constructor
      · rintro ⟨rfl, rfl, rfl⟩
        exact ⟨rfl, rfl, rfl, rfl⟩
      · rintro ⟨-, rfl, hpack, rfl⟩
        exact ⟨rfl, (pack_inj hfit hslot hpack).2.symm, rfl⟩
    · rw [h.entity_iff j t ht kind' slot e' hslot, or_iff_right fun h' => hj h'.1.symm]
  source j t ht x hx hstore id name hx' := by
    obtain ⟨rfl, rfl⟩ | ⟨hj, ht⟩ := (live_update hs).mp ht
    · obtain rfl | hx := List.mem_cons.mp hx
      · exact hsource id name hx'
      · obtain ⟨k, index, hkind, hindex, he⟩ := h.source j s hs x hx hstore id name hx'
        exact ⟨k, index, hkind, Store.exportIndex_of_prefix hadds.id hadds.code hindex, he⟩
    · obtain rfl | hx := List.mem_cons.mp hx
      · exact absurd hstore.symm hj
      · exact h.source j t ht x hx hstore id name hx'

/-- A call that leaves the instances of a store where they are. -/
theorem Counted.other (h : p.Counted) (hs : p.Live i s) {inner : Store} (hid : inner.id = s.inner.id)
    (hcode : s.inner.code <+: inner.code) : (p.update i { s with inner := inner }).Counted where
  length_le := by rw [update, List.length_set]; exact h.length_le
  nextTag := by rw [update, List.length_set]; exact h.nextTag
  tag j t ht := by
    obtain ⟨rfl, rfl⟩ | ⟨-, ht⟩ := (live_update hs).mp ht
    · exact h.tag j s hs
    · exact h.tag j t ht
  sound j t ht := by
    obtain ⟨rfl, rfl⟩ | ⟨-, ht⟩ := (live_update hs).mp ht
    · exact fun k r hr => h.sound j s hs k r (by cases k <;> exact hr)
    · exact h.sound j t ht
  issued x hx := by rw [update, List.length_set]; exact h.issued x hx
  entity_iff j t ht kind slot e hslot := by
    obtain ⟨rfl, rfl⟩ | ⟨-, ht⟩ := (live_update hs).mp ht
    · refine Iff.trans ?_ (h.entity_iff j s hs kind slot e hslot)
      cases kind with
      | inst => rfl
      | item k => cases k <;> rfl
    · exact h.entity_iff j t ht kind slot e hslot
  source j t ht x hx hstore id name hx' := by
    obtain ⟨rfl, rfl⟩ | ⟨-, ht⟩ := (live_update hs).mp ht
    · obtain ⟨k, index, hkind, hindex, he⟩ := h.source j s hs x hx hstore id name hx'
      exact ⟨k, index, hkind, Store.exportIndex_of_prefix hid hcode hindex, he⟩
    · exact h.source j t ht x hx hstore id name hx'

/-- One case for each kind of call. -/
theorem Counted.step {p' : Process} {e : Effect} (h : p.Counted) (hfit : p.Fits e) (hstep : p.Step e p') :
    p'.Counted := by
  cases hstep with
  | storeNew limits => exact h.storeNew hfit limits
  | storeDelete i => exact h.storeDelete i
  | @instantiate i s l md r id added inner hs hresolve hadd hid hcode =>
    have hadded := (keeps_instantiate md r.imports).of_eq_ok hadd
    have hadds := HandleStore.adds_addInstance (h.sound i s hs) (hid.trans hadded.id) (hcode ▸ hadded.code) id
    rw [HandleStore.addInstance_snd]
    exact h.issue hs hadds (hfit s hs) nofun
  | @instanceGet i s s' k _ h' name id index hs hid hindex hget =>
    obtain ⟨hadds, rfl, hinner⟩ := HandleStore.instanceGet_spec (h.sound i s hs) hid hindex hget
    refine h.issue hs hadds (hfit s hs) fun id' name' hsource => ?_
    obtain ⟨rfl, rfl⟩ := Prod.mk.inj (Option.some.inj hsource)
    exact ⟨k, index, rfl, hinner ▸ hindex, rfl⟩
  | other hs hid hcode => exact h.other hs hid hcode

theorem counted_of_run (h : Run Fits p) : p.Counted := by
  induction h with
  | start => exact counted_empty
  | step _ hfit hstep ih => exact ih.step hfit hstep

end Counted

/-! ## A store with an instance -/

/-- A new store, and an instance of the empty module in it. -/
def withInstance (p : Process) : Process :=
  let s := HandleStore.new p.nextTag { id := p.nextStoreId.toNat }
  let id : InstanceId := ⟨s.inner.id, 0⟩
  let added := s.addInstance (Store.instantiate {} {} s.inner).state id
  (p.storeNew .defaults).issue p.stores.length added.1
    { store := p.stores.length, kind := .inst, source := none, id := added.2, entity := (id, none) }

theorem live_storeNew_self (p : Process) :
    (p.storeNew .defaults).Live p.stores.length (.new p.nextTag { id := p.nextStoreId.toNat }) :=
  live_storeNew.mpr (.inr ⟨rfl, rfl⟩)

theorem run_withInstance {C : Process → Effect → Prop} {p : Process} (h : Run C p) (hcreate : C p .create)
    (hissue : C (p.storeNew .defaults) (.issue p.stores.length .inst)) : Run C p.withInstance := by
  have hresolve : ({} : Linker HostFn).resolve { id := p.nextStoreId.toNat } {} = .ok {} := rfl
  exact .step (.step h hcreate (.storeNew p .defaults)) hissue (.instantiate p.live_storeNew_self hresolve rfl rfl rfl)

/-- The instance has the first place in a store with the tag that was next. -/
theorem exists_resolve_withInstance (p : Process) :
    ∃ s e, p.withInstance.Live p.stores.length s ∧ s.resolve .inst (pack p.nextTag 0) = some e :=
  ⟨_, _, (live_update p.live_storeNew_self).mpr (.inl ⟨rfl, rfl⟩),
    HandleStore.resolve_eq_some_iff.mpr ⟨0, by decide, rfl, rfl⟩⟩

/-! ## Handles name what they were issued for -/

section Named

variable {p : Process} {i : ℕ} {s : HandleStore}

theorem Counted.resolve_iff (h : p.Counted) (hs : p.Live i s) (kind : HandleKind) (n : BitVec 64) (e : Entity) :
    s.resolve kind n = some e ↔ ∃ x ∈ p.issued, x.store = i ∧ x.kind = kind ∧ x.id = n ∧ x.entity = e := by
  rw [HandleStore.resolve_eq_some_iff, h.tag i s hs]
  constructor
  · rintro ⟨slot, hslot, rfl, he⟩
    exact (h.entity_iff i s hs kind slot e hslot).mp he
  · rintro ⟨x, hx, rfl, rfl, rfl, rfl⟩
    obtain ⟨-, slot, hslot, hid⟩ := h.issued x hx
    exact ⟨slot, hslot, hid, (h.entity_iff _ s hs _ slot _ hslot).mpr ⟨x, hx, rfl, rfl, hid, rfl⟩⟩

theorem Counted.named (h : p.Counted) : p.Named where
  resolve_iff i s hs := h.resolve_iff hs
  foreign i s hs x hx hne kind := by
    obtain ⟨hlt, slot, hslot, hid⟩ := h.issued x hx
    rw [hid]
    refine HandleStore.resolve_pack_of_ne hslot fun heq => hne ?_
    rw [h.tag i s hs] at heq
    exact tagOf_inj (hlt.trans_le h.length_le) (hs.lt_length.trans_le h.length_le) heq
  zero _ _ _ _ := HandleStore.resolve_zero
  lookups i s hs x hx y hy hxi hyi hkind hsource hne := by
    obtain ⟨⟨id, name⟩, hid⟩ := Option.ne_none_iff_exists'.mp hne
    obtain ⟨k, index, hk, hindex, hex⟩ := h.source i s hs x hx hxi id name hid
    obtain ⟨k', index', hk', hindex', hey⟩ := h.source i s hs y hy hyi id name (hsource.symm.trans hid)
    obtain rfl : k = k' := HandleKind.item.inj ((hk.symm.trans hkind).trans hk')
    obtain rfl : index = index' := Option.some.inj (hindex.symm.trans hindex')
    rw [(h.resolve_iff hs x.kind x.id _).mpr ⟨x, hx, hxi, rfl, rfl, hex⟩,
      (h.resolve_iff hs y.kind y.id _).mpr ⟨y, hy, hyi, rfl, rfl, hey⟩]

/-- In every run in which neither half of a handle overflows, handles name what they were issued for. -/
theorem named_of_run (h : Run Fits p) : p.Named := (counted_of_run h).named

theorem named_withInstance : (withInstance {}).Named := by
  have hcreate : Fits {} .create := (by decide : 0 < 2 ^ 32)
  refine named_of_run (run_withInstance .start hcreate fun s hs => ?_)
  obtain h | ⟨-, rfl⟩ := live_storeNew.mp hs
  · exact nomatch h
  · exact (by decide : 0 + 1 < 2 ^ 32)

end Named

/-! ## A tag that is issued again -/

/-- A store comes and goes, and takes a tag with it. -/
theorem exists_run_cycled (n : ℕ) : ∃ p, Run (fun _ _ => True) p ∧ p.stores.length = n + 1 ∧ p.nextTag = tagOf (n + 1) ∧
    ∃ x ∈ p.issued, x.store = 0 ∧ x.kind = .inst ∧ x.id = pack (tagOf 0) 0 := by
  induction n with
  | zero =>
    have hrun : Run (fun _ _ => True) (withInstance {}) := run_withInstance .start trivial trivial
    refine ⟨(withInstance {}).storeDelete 0, .step hrun trivial (.storeDelete _ 0), rfl, rfl, ?_⟩
    exact ⟨_, List.mem_cons_self, rfl, rfl, rfl⟩
  | succ n ih =>
    obtain ⟨p, hrun, hlength, htag, hissued⟩ := ih
    refine ⟨(p.storeNew .defaults).storeDelete (n + 1), ?_, ?_, ?_, hissued⟩
    · exact .step (.step hrun trivial (.storeNew p _)) trivial (.storeDelete _ _)
    · rw [Process.storeDelete, List.length_set, Process.storeNew, List.length_append, hlength]
      rfl
    · rw [Process.storeDelete, Process.storeNew, htag, tagOf_succ (n + 1)]

theorem tagOf_wraps : tagOf (2 ^ 32) = tagOf 0 := by decide

/-- After as many stores as there are tags, the handle of an instance in a store that is long gone names an instance in
a new one. -/
theorem not_named_run : ¬ ∀ p, Run (fun _ _ => True) p → p.Named := by
  intro hnamed
  obtain ⟨p, hrun, hlength, htag, x, hx, hstore, -, hid⟩ := exists_run_cycled (2 ^ 32 - 1)
  have hlength : p.stores.length = 2 ^ 32 := hlength
  obtain ⟨s, e, hs, he⟩ := p.exists_resolve_withInstance
  have htag : p.nextTag = tagOf 0 := htag.trans tagOf_wraps
  have hnone := (hnamed _ (run_withInstance hrun trivial trivial)).foreign _ s hs x (List.mem_cons_of_mem _ hx)
    (by rw [hstore, hlength]; decide) .inst
  rw [hid, ← htag, he] at hnone
  exact absurd hnone nofun

end Process

end Capi

end Wasmrt
