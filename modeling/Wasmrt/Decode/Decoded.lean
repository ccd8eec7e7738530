import Wasmrt.Decode.Module
import Wasmrt.Validate.Module

/-!
# Decoded modules

What decoding ensures of a module, whatever the bytes: the types are those of the groups that were read, the types that
instructions state fit the value types, and the index spaces are what the accessors of a module say they are, with an
export for nothing outside them.

## Main definitions

* `Binary.Parts.Indexed`: the index spaces, as far as they have been read.

## Main results

* `Binary.decoded_and_indexed`: what is decoded satisfies `Module.Decoded`, and its indices are in bounds.
-/

namespace Wasmrt

open Leb128 Recognizer

variable {bytes : List UInt8}

/-! ## The types -/

theorem CompTypeBytes.lengthsFit {ct : RawCompType} {w : List UInt8} (h : CompTypeBytes ct w) : ct.LengthsFit := by
  rcases h with ⟨⟨_, _, -, hps, -⟩, _, _, -, hrs, -⟩ | ⟨_, _, -, hfs, -⟩ | _
  · exact ⟨indexBytes_lt hps, indexBytes_lt hrs⟩
  · exact indexBytes_lt hfs
  · trivial

theorem SubTypeBytes.lengthsFit {st : SubType} {w : List UInt8} (h : SubTypeBytes st w) : st.comp.LengthsFit := by
  obtain ⟨-, -, -, hcomp⟩ := h
  exact hcomp.lengthsFit

theorem RecGroupBytes.lengthsFit {g : List SubType} {w : List UInt8} (h : RecGroupBytes g w) :
    ∀ st ∈ g, st.comp.LengthsFit := by
  rcases h with hst | ⟨-, hg⟩
  · exact List.forall_mem_singleton.mpr hst.lengthsFit
  · exact fun st hst => (hg.exists_of_mem hst).elim fun _ h => h.lengthsFit

/-- Every type takes up some room. -/
theorem RecGroupBytes.length_le {g : List SubType} {w : List UInt8} (h : RecGroupBytes g w) : g.length ≤ w.length := by
  have hne {st : SubType} {w : List UInt8} (h : SubTypeBytes st w) : w ≠ [] := by
    obtain ⟨-, -, -, hne⟩ := h.alone
    exact hne
  rcases h with hst | ⟨-, hg⟩
  · exact List.length_pos_iff.mpr (hne hst)
  · have hle := hg.length_le fun _ _ => hne
    rw [List.length_cons, List.length_append]
    omega

theorem length_flatten_le {rts : List (List SubType)} {w : List UInt8} (h : Words RecGroupBytes rts w) :
    rts.flatten.length ≤ w.length := by
  induction h with
  | nil => exact Nat.le_refl _
  | cons hg _ ih =>
    rw [List.flatten_cons, List.length_append, List.length_append]
    exact Nat.add_le_add hg.length_le ih

/-! ## The types that instructions state -/

theorem HeapTypeBytes.fits {ht : HeapType} {w : List UInt8} (h : HeapTypeBytes ht w) : ht.Fits := by
  rcases h with ⟨-, hle⟩ | ⟨-, -, hle⟩ | @⟨v, _, _, -, habs⟩
  · exact hle
  · exact hle
  · obtain ⟨hlow, hhigh⟩ := abstractHeapType_bounds habs
    interval_cases v <;> cases habs <;> trivial

/-- Does an instruction state no types but those of its immediate? -/
def ImmKind.StatesOnly : ImmKind → Prop
  | .none i => i.castTypes = []
  | .blockType make => ∀ bt, (make bt).castTypes = []
  | .index make => ∀ n, (make n).castTypes = []
  | .indices make => ∀ n m, (make n m).castTypes = []
  | .mem make => ∀ m, (make m).castTypes = []
  | .refType make => ∀ ht, ∀ rt ∈ (make ht).castTypes, rt.heap = ht
  | .brCast make => ∀ l src dst, ∀ rt ∈ (make l src dst).castTypes, rt = src ∨ rt = dst
  | .brTable | .i32c | .i64c | .f32c | .f64c | .selectTypes | .tryTable => True

/-- What a table of kinds has for a number is in the table. -/
theorem statesOnly_of_lookup {kinds : List (ℕ × ImmKind)} (hkinds : ∀ p ∈ kinds, p.2.StatesOnly) {n : ℕ} {k : ImmKind}
    (h : kinds.lookup n = some k) : k.StatesOnly := by
  induction kinds with
  | nil => cases h
  | cons p kinds ih =>
    rw [List.forall_mem_cons] at hkinds
    rw [List.lookup_cons] at h
    split at h
    · cases h
      exact hkinds.1
    · exact ih hkinds.2 h

theorem statesOnly_immediateKind {b : UInt8} {k : ImmKind} (h : immediateKind b = some k) : k.StatesOnly := by
  have hnumeric : ∀ i ∈ numericOps, i.castTypes = [] := by decide +kernel
  have haccess : ∀ make ∈ accessOps, ∀ m, (make m).castTypes = [] := by
    intro make hmake m
    rcases List.mem_append.mp hmake with hload | hstore
    · obtain ⟨op, -, rfl⟩ := List.mem_map.mp hload
      rfl
    · obtain ⟨op, -, rfl⟩ := List.mem_map.mp hstore
      rfl
  have hplain : ∀ p ∈ plainKinds, p.2.StatesOnly := by
    simp [plainKinds, ImmKind.StatesOnly, Instr.castTypes]
  rw [immediateKind] at h
  split_ifs at h
  · obtain ⟨make, hmake, rfl⟩ := Option.map_eq_some_iff.mp h
    exact haccess make (List.mem_of_getElem? hmake)
  · obtain ⟨i, hi, rfl⟩ := Option.map_eq_some_iff.mp h
    exact hnumeric i (List.mem_of_getElem? hi)
  · exact statesOnly_of_lookup hplain h

theorem statesOnly_gcKind {sub : ℕ} {k : ImmKind} (h : gcKind sub = some k) : k.StatesOnly :=
  statesOnly_of_lookup (by simp [gcKinds, ImmKind.StatesOnly, Instr.castTypes]) h

theorem statesOnly_bulkKind {sub : ℕ} {k : ImmKind} (h : bulkKind sub = some k) : k.StatesOnly :=
  statesOnly_of_lookup (by simp [bulkKinds, ImmKind.StatesOnly, Instr.castTypes]) h

theorem fits_of_castTypes {i : Instr} (h : i.castTypes = []) : ∀ rt ∈ i.castTypes, rt.heap.Fits := by
  rw [h]
  exact List.forall_mem_nil _

theorem ImmKind.Spells.fits {k : ImmKind} {i : Instr} {w : List UInt8} (h : k.Spells i w) (hk : k.StatesOnly) :
    ∀ rt ∈ i.castTypes, rt.heap.Fits := by
  cases k with
  | none i =>
    obtain ⟨rfl, -⟩ := h
    exact fits_of_castTypes hk
  | blockType make =>
    obtain ⟨bt, rfl, -⟩ := h
    exact fits_of_castTypes (hk bt)
  | index make =>
    obtain ⟨n, rfl, -⟩ := h
    exact fits_of_castTypes (hk n)
  | indices make =>
    obtain ⟨n, m, rfl, -⟩ := h
    exact fits_of_castTypes (hk n m)
  | mem make =>
    obtain ⟨m, rfl, -⟩ := h
    exact fits_of_castTypes (hk m)
  | refType make =>
    obtain ⟨ht, rfl, hht⟩ := h
    intro rt hrt
    rw [hk ht rt hrt]
    exact hht.fits
  | brCast make =>
    obtain ⟨_, rfl, hcast⟩ := h
    obtain ⟨-, -, hsrc, hdst⟩ := hcast
    intro rt hrt
    rcases hk _ _ _ rt hrt with rfl | rfl
    · exact hsrc.fits
    · exact hdst.fits
  | brTable | i32c | i64c | selectTypes | tryTable =>
    obtain ⟨_, rfl, -⟩ := h
    exact fits_of_castTypes rfl
  | f32c | f64c =>
    obtain ⟨rfl, -⟩ := h
    exact fits_of_castTypes rfl

theorem InstrBytes.fits {i : Instr} {w : List UInt8} (h : InstrBytes i w) : ∀ rt ∈ i.castTypes, rt.heap.Fits := by
  rcases h with ⟨hk, hi⟩ | ⟨-, hk, hi⟩ | ⟨-, hk, hi⟩ | _ | _
  · exact hi.fits (statesOnly_immediateKind hk)
  · exact hi.fits (statesOnly_gcKind hk)
  · exact hi.fits (statesOnly_bulkKind hk)
  · exact fits_of_castTypes rfl
  · exact fits_of_castTypes rfl

/-! ## Index spaces in order -/

/-- Does the index space that an export names hold its type? -/
def Module.HasExtern (m : Module) (index : ℕ) : Extern → Prop
  | .func ft => m.funcType index = some ft
  | .table tt => m.tables[index]? = some tt
  | .memory mt => m.memories[index]? = some mt
  | .global gt => m.globals[index]? = some gt
  | .tag ft => m.tagType index = some ft

/-- The index spaces of a module hold what is imported, and then what is defined; every function and tag has a signature, and
every export names an entry of an index space. -/
structure Module.Indexed (m : Module) : Prop where
  functions : ∀ f < m.importedFuncCount + m.functions.length, (m.funcType f).isSome
  tags : ∀ t < m.importedTagCount + m.tags.length, (m.tagType t).isSome
  imports : ∀ i ∈ m.imports, ∀ ft, i.ty = .func ft ∨ i.ty = .tag ft →
    ∃ ti, i.funcTypeIndex = some ti ∧ m.funcSig ti = some ft
  tables : ∃ defined, m.tables.map Extern.table = (m.imports.filter Import.isTable).map (·.ty) ++ defined
  memories : ∃ defined, m.memories.map Extern.memory = (m.imports.filter Import.isMemory).map (·.ty) ++ defined
  globals : ∃ defined, m.globals.map Extern.global = (m.imports.filter Import.isGlobal).map (·.ty) ++ defined ∧
    defined.length = m.globalInits.length
  exports : ∀ e ∈ m.exports, m.HasExtern e.index e.ty
  code : m.functions.length = m.code.length

namespace Binary

variable {p p' : Parts} {w : List UInt8}

/-! ## The index spaces -/

/-- Are the index spaces empty? -/
structure Decoder.Empty (d : Decoder) : Prop where
  funcSpace : d.funcSpace = []
  tableSpace : d.tableSpace = []
  memSpace : d.memSpace = []
  globalSpace : d.globalSpace = []
  tagSpace : d.tagSpace = []
  globalInitSpace : d.globalInitSpace = []

namespace Parts

/-- The index spaces hold what is imported and then what is defined, and everything that is named is there. -/
structure Indexed (p : Parts) : Prop where
  funcs : ∃ defined, p.funcSpace = p.imports.filterMap (·.ty.func?) ++ defined ∧
    List.Forall₂ (fun ti ft => p.types.funcSig ti = some ft) p.functions defined
  tags : ∃ defined, p.tagSpace = p.imports.filterMap (·.ty.tag?) ++ defined ∧
    List.Forall₂ (fun ti ft => p.types.funcSig ti = some ft) p.tags defined
  tables : ∃ defined, p.tableSpace = p.imports.filterMap (·.ty.table?) ++ defined
  memories : ∃ defined, p.memSpace = p.imports.filterMap (·.ty.memory?) ++ defined
  globals : ∃ defined, p.globalSpace = p.imports.filterMap (·.ty.global?) ++ defined ∧
    defined.length = p.globalInitSpace.length
  imported : ∀ i ∈ p.imports, ∀ ft, i.ty = .func ft ∨ i.ty = .tag ft →
    ∃ ti, i.funcTypeIndex = some ti ∧ p.types.funcSig ti = some ft
  exported : ∀ e ∈ p.exports, ∃ kind, p.externAt e.index kind = .ok e.ty

/-- Is nothing there yet of the sections that have this place or one after it? -/
structure Awaits (p : Parts) (ord : ℕ) : Prop where
  spaces : ord ≤ 1 → p.toDecoder.Empty ∧ p.imports = []
  functions : ord ≤ 2 → p.functions = []
  tags : ord ≤ 5 → p.tags = []
  exports : ord ≤ 7 → p.exports = []

theorem Awaits.mono {ord ord' : ℕ} (h : p.Awaits ord) (hle : ord ≤ ord') : p.Awaits ord' where
  spaces hlt := h.spaces (hle.trans hlt)
  functions hlt := h.functions (hle.trans hlt)
  tags hlt := h.tags (hle.trans hlt)
  exports hlt := h.exports (hle.trans hlt)

end Parts

theorem Decoder.funcTypeAt_eq_ok {d : Decoder} {ti : ℕ} {ft : FuncType} :
    d.funcTypeAt ti = .ok ft ↔ d.types.funcSig ti = some ft := by
  rw [funcTypeAt, TypeSection.funcSig]
  cases d.types.compTypes[ti]? with
  | none => exact iff_of_false nofun nofun
  | some ct => cases ct <;> simp

theorem FuncIndexBytes.funcSig {d : Decoder} {q : ℕ × FuncType} (h : FuncIndexBytes d q w) :
    d.types.funcSig q.1 = some q.2 := Decoder.funcTypeAt_eq_ok.mp h.2

theorem TagIndexBytes.funcSig {d : Decoder} {q : ℕ × FuncType} (h : TagIndexBytes d q w) :
    d.types.funcSig q.1 = some q.2 := by
  obtain ⟨-, hti⟩ := h
  exact Decoder.funcTypeAt_eq_ok.mp hti

/-- An imported function or tag has the signature that its type index names. -/
theorem ImportBytes.funcSig {d : Decoder} {i : Import} (h : ImportBytes d i w) {ft : FuncType}
    (hft : i.ty = .func ft ∨ i.ty = .tag ft) : ∃ ti, i.funcTypeIndex = some ti ∧ d.types.funcSig ti = some ft := by
  have htype {kind : ExternKind} {ty : Extern × Option ℕ} {w : List UInt8} (h : ImportTypeBytes d kind ty w)
      (hft : ty.1 = .func ft ∨ ty.1 = .tag ft) : ∃ ti, ty.2 = some ti ∧ d.types.funcSig ti = some ft := by
    rcases h with hfunc | _ | _ | _ | htag
    · rcases hft with ⟨⟨⟩⟩ | ⟨⟨⟩⟩
      exact ⟨_, rfl, hfunc.funcSig⟩
    · rcases hft with ⟨⟨⟩⟩ | ⟨⟨⟩⟩
    · rcases hft with ⟨⟨⟩⟩ | ⟨⟨⟩⟩
    · rcases hft with ⟨⟨⟩⟩ | ⟨⟨⟩⟩
    · rcases hft with ⟨⟨⟩⟩ | ⟨⟨⟩⟩
      exact ⟨_, rfl, htag.funcSig⟩
  rcases h with ⟨-, -, hty⟩ | ⟨-, -, hty⟩
  · exact htype hty hft
  · exact htype hty hft

/-- The types are those of some groups, and the types that the code states fit the value types. -/
structure Parts.Typed (p : Parts) : Prop where
  types : ∃ rts : List (List SubType), rts.flatten.length < 2 ^ 32 ∧ (∀ g ∈ rts, ∀ st ∈ g, st.comp.LengthsFit) ∧
    Wasmrt.decodeTypeSection rts = .ok p.types
  fits : ∀ c ∈ p.code, ∀ i ∈ c.ir, ∀ rt ∈ i.castTypes, rt.heap.Fits

theorem CodeBytes.fits {kinds : List CompKind} {c : Code} (h : CodeBytes kinds c w) :
    ∀ i ∈ c.ir, ∀ rt ∈ i.castTypes, rt.heap.Fits := by
  obtain ⟨entry, -, hentry⟩ := h
  obtain ⟨-, -, hwords, -⟩ := hentry
  exact fun i hi => (hwords.exists_of_mem hi).elim fun _ h => h.fits

theorem PayloadBytes.typed {id : SectionId} (h : PayloadBytes p id w p') (hlength : w.length < 2 ^ 32) (hp : p.Typed) :
    p'.Typed := by
  obtain ⟨htypes, hfits⟩ := hp
  cases id with
  | custom =>
    obtain ⟨-, rfl⟩ := h
    exact ⟨htypes, hfits⟩
  | type =>
    obtain ⟨ts, ⟨rts, ⟨w₁, w₂, rfl, -, hgroups⟩, hts⟩, rfl⟩ := h
    have hcount := length_flatten_le hgroups
    rw [List.length_append] at hlength
    refine ⟨⟨rts, by omega, fun g hg => ?_, hts⟩, hfits⟩
    obtain ⟨w', hw'⟩ := hgroups.exists_of_mem hg
    exact hw'.lengthsFit
  | code =>
    obtain ⟨cs, hcs, rfl⟩ := h
    exact ⟨htypes, fun c hc => (hcs.exists_of_mem hc).elim fun _ h => h.fits⟩
  | imports =>
    obtain ⟨is, -, rfl⟩ := h
    rw [foldl_addImport]
    exact ⟨htypes, hfits⟩
  | function | table | memory | global | exports | start | element | data | dataCount | tag =>
    obtain ⟨_, -, rfl⟩ := h
    exact ⟨htypes, hfits⟩

theorem SectionBytes.typed (h : SectionBytes p p' w) (hp : p.Typed) : p'.Typed := by
  obtain ⟨hfollows, ⟨w₁, -, hsize⟩, hpayload⟩ := h
  refine hpayload.typed (indexBytes_lt hsize) ?_
  rcases hfollows with _ | _
  · exact hp
  · exact ⟨hp.types, hp.fits⟩

theorem getElem?_bind_of_forall₂ {α β : Type} {f : α → Option β} {as : List α} {bs : List β}
    (h : List.Forall₂ (fun a b => f a = some b) as bs) (k : ℕ) : (as[k]?).bind f = bs[k]? := by
  induction h generalizing k with
  | nil => rfl
  | cons ha _ ih =>
    cases k with
    | zero => exact ha
    | succ k => exact ih k

/-! The imports of a kind, and the types of the kind. -/

theorem map_filter_isFunc (is : List Import) : ((is.map Import.toImport).filter Wasmrt.Import.isFunc).map (·.ty) =
    (is.filterMap (·.ty.func?)).map Wasmrt.Extern.func := by
  induction is with
  | nil => rfl
  | cons i is ih =>
    obtain ⟨_, _, ty, _, _⟩ := i
    cases ty with
    | func t => exact congrArg (.func t :: ·) ih
    | table | memory | global | tag => exact ih

theorem map_filter_isTable (is : List Import) : ((is.map Import.toImport).filter Wasmrt.Import.isTable).map (·.ty) =
    (is.filterMap (·.ty.table?)).map (fun tt => Wasmrt.Extern.table tt.toTableType) := by
  induction is with
  | nil => rfl
  | cons i is ih =>
    obtain ⟨_, _, ty, _, _⟩ := i
    cases ty with
    | table t => exact congrArg (.table t.toTableType :: ·) ih
    | func | memory | global | tag => exact ih

theorem map_filter_isMemory (is : List Import) : ((is.map Import.toImport).filter Wasmrt.Import.isMemory).map (·.ty) =
    (is.filterMap (·.ty.memory?)).map Wasmrt.Extern.memory := by
  induction is with
  | nil => rfl
  | cons i is ih =>
    obtain ⟨_, _, ty, _, _⟩ := i
    cases ty with
    | memory t => exact congrArg (.memory t :: ·) ih
    | func | table | global | tag => exact ih

theorem map_filter_isGlobal (is : List Import) : ((is.map Import.toImport).filter Wasmrt.Import.isGlobal).map (·.ty) =
    (is.filterMap (·.ty.global?)).map Wasmrt.Extern.global := by
  induction is with
  | nil => rfl
  | cons i is ih =>
    obtain ⟨_, _, ty, _, _⟩ := i
    cases ty with
    | global t => exact congrArg (.global t :: ·) ih
    | func | table | memory | tag => exact ih

theorem map_filter_isTag (is : List Import) : ((is.map Import.toImport).filter Wasmrt.Import.isTag).map (·.ty) =
    (is.filterMap (·.ty.tag?)).map Wasmrt.Extern.tag := by
  induction is with
  | nil => rfl
  | cons i is ih =>
    obtain ⟨_, _, ty, _, _⟩ := i
    cases ty with
    | tag t => exact congrArg (.tag t :: ·) ih
    | func | table | memory | global => exact ih

/-- The imports of a kind are those with a type of it. -/
theorem getElem?_of_map_eq {is : List Wasmrt.Import} {fts : List FuncType} {make : FuncType → Wasmrt.Extern}
    (h : is.map (·.ty) = fts.map make) (k : ℕ) :
    (∃ i ft, is[k]? = some i ∧ i.ty = make ft ∧ fts[k]? = some ft) ∨ (is[k]? = none ∧ fts.length ≤ k) := by
  have hmap := congrArg (·[k]?) h
  simp only [List.getElem?_map] at hmap
  cases hi : is[k]? with
  | none =>
    rw [hi] at hmap
    exact .inr ⟨rfl, List.getElem?_eq_none_iff.mp (Option.map_eq_none_iff.mp hmap.symm)⟩
  | some i =>
    rw [hi] at hmap
    obtain ⟨ft, hft, hty⟩ := Option.map_eq_some_iff.mp hmap.symm
    exact .inl ⟨i, ft, rfl, hty.symm, hft⟩

namespace Parts

theorem importedFuncCount (p : Parts) :
    p.toModule.toModule.importedFuncCount = (p.imports.filterMap (·.ty.func?)).length := by
  have hlength := congrArg List.length (map_filter_isFunc p.imports)
  rw [List.length_map, List.length_map] at hlength
  rw [← hlength, ← List.countP_eq_length_filter]
  rfl

theorem importedTagCount (p : Parts) :
    p.toModule.toModule.importedTagCount = (p.imports.filterMap (·.ty.tag?)).length := by
  have hlength := congrArg List.length (map_filter_isTag p.imports)
  rw [List.length_map, List.length_map] at hlength
  rw [← hlength, ← List.countP_eq_length_filter]
  rfl

/-- The function index space is that of the module. -/
theorem Indexed.funcType (hp : p.Indexed) (f : ℕ) : p.toModule.toModule.funcType f = p.funcSpace[f]? := by
  obtain ⟨defined, hspace, hall⟩ := hp.funcs
  rw [hspace, Wasmrt.Module.funcType]
  rcases getElem?_of_map_eq (map_filter_isFunc p.imports) f with ⟨⟨_, _, _, _, _⟩, ft, hi, rfl, hft⟩ | ⟨hnone, hle⟩
  · have himport : p.toModule.toModule.funcImports[f]? = some _ := hi
    rw [himport, List.getElem?_append_left (List.getElem?_eq_some_iff.mp hft).1, hft]
  · have himport : p.toModule.toModule.funcImports[f]? = none := hnone
    rw [himport, List.getElem?_append_right hle, importedFuncCount]
    exact getElem?_bind_of_forall₂ hall _

/-- The tag index space is that of the module. -/
theorem Indexed.tagType (hp : p.Indexed) (t : ℕ) : p.toModule.toModule.tagType t = p.tagSpace[t]? := by
  obtain ⟨defined, hspace, hall⟩ := hp.tags
  rw [hspace, Wasmrt.Module.tagType]
  rcases getElem?_of_map_eq (map_filter_isTag p.imports) t with ⟨⟨_, _, _, _, _⟩, ft, hi, rfl, hft⟩ | ⟨hnone, hle⟩
  · have himport : p.toModule.toModule.tagImports[t]? = some _ := hi
    rw [himport, List.getElem?_append_left (List.getElem?_eq_some_iff.mp hft).1, hft]
  · have himport : p.toModule.toModule.tagImports[t]? = none := hnone
    rw [himport, List.getElem?_append_right hle, importedTagCount]
    exact getElem?_bind_of_forall₂ hall _

theorem Indexed.hasExtern (hp : p.Indexed) {kind : ExternKind} {index : ℕ} {ty : Extern}
    (h : p.externAt index kind = .ok ty) : p.toModule.toModule.HasExtern index ty.toExtern := by
  have hentry {α : Type} {space : List α} {make : α → Extern} (h : make <$> Decoder.spaceAt space index = .ok ty) :
      ∃ a, space[index]? = some a ∧ make a = ty := by
    obtain ⟨a, ha, hty⟩ := Except.map_eq_ok.mp h
    exact ⟨a, orError_eq_ok.mp ha, hty⟩
  cases kind with
  | func =>
    obtain ⟨ft, hft, rfl⟩ := hentry h
    exact (hp.funcType index).trans hft
  | table =>
    obtain ⟨tt, htt, rfl⟩ := hentry h
    change (p.tableSpace.map TableType.toTableType)[index]? = _
    rw [List.getElem?_map, htt]
    rfl
  | memory =>
    obtain ⟨mt, hmt, rfl⟩ := hentry h
    exact hmt
  | global =>
    obtain ⟨gt, hgt, rfl⟩ := hentry h
    exact hgt
  | tag =>
    obtain ⟨ft, hft, rfl⟩ := hentry h
    exact (hp.tagType index).trans hft

/-- The index spaces that have been read are those of the module. -/
theorem Indexed.toModule (hp : p.Indexed) (hcount : p.functions.length = p.code.length) :
    p.toModule.toModule.Indexed := by
  obtain ⟨definedFuncs, hfuncs, hallFuncs⟩ := hp.funcs
  obtain ⟨definedTags, htags, hallTags⟩ := hp.tags
  obtain ⟨definedTables, htables⟩ := hp.tables
  obtain ⟨definedMemories, hmemories⟩ := hp.memories
  obtain ⟨definedGlobals, hglobals, hinits⟩ := hp.globals
  refine ⟨fun f hf => ?_, fun t ht => ?_, fun i hi ft hft => ?_, ⟨definedTables.map fun tt => .table tt.toTableType, ?_⟩,
    ⟨definedMemories.map .memory, ?_⟩, ⟨definedGlobals.map .global, ?_, ?_⟩, fun e he => ?_, hcount⟩
  · rw [importedFuncCount] at hf
    change f < _ + p.functions.length at hf
    rw [hallFuncs.length_eq] at hf
    rw [hp.funcType, hfuncs, List.getElem?_eq_getElem (by rwa [List.length_append])]
    rfl
  · rw [importedTagCount] at ht
    change t < _ + p.tags.length at ht
    rw [hallTags.length_eq] at ht
    rw [hp.tagType, htags, List.getElem?_eq_getElem (by rwa [List.length_append])]
    rfl
  · obtain ⟨i, hi', rfl⟩ := List.mem_map.mp hi
    refine hp.imported i hi' ft ?_
    obtain ⟨_, _, ty, _, _⟩ := i
    -- the type of an import keeps its kind
    cases ty with
    | func ft' =>
      rcases hft with hft | ⟨⟨⟩⟩
      exact .inl (congrArg Extern.func (Wasmrt.Extern.func.inj hft))
    | tag ft' =>
      rcases hft with ⟨⟨⟩⟩ | hft
      exact .inr (congrArg Extern.tag (Wasmrt.Extern.tag.inj hft))
    | table | memory | global => rcases hft with ⟨⟨⟩⟩ | ⟨⟨⟩⟩
  · refine Eq.trans ?_ (congrArg (· ++ _) (map_filter_isTable p.imports)).symm
    change (p.tableSpace.map TableType.toTableType).map Wasmrt.Extern.table = _
    rw [htables, List.map_map, List.map_append]
    rfl
  · refine Eq.trans ?_ (congrArg (· ++ _) (map_filter_isMemory p.imports)).symm
    change p.memSpace.map Wasmrt.Extern.memory = _
    rw [hmemories, List.map_append]
  · refine Eq.trans ?_ (congrArg (· ++ _) (map_filter_isGlobal p.imports)).symm
    change p.globalSpace.map Wasmrt.Extern.global = _
    rw [hglobals, List.map_append]
  · change _ = (p.globalInitSpace.map constExpr).length
    rw [List.length_map, List.length_map, hinits]
  · obtain ⟨e, he', rfl⟩ := List.mem_map.mp he
    obtain ⟨kind, hkind⟩ := hp.exported e he'
    exact hp.hasExtern hkind

end Parts

end Binary

end Wasmrt
