import Wasmrt.Decode.Sections
import Wasmrt.Decode.TypeGrammar
import Mathlib.Tactic.IntervalCases

/-!
# The bytes of the sections of a module

The entries of the sections behind the type section as the binary spells them. The readers of `Binary` read exactly these
bytes, whatever follows.

## Main definitions

* `NameBytes`, `LimitsBytes`, `TableTypeBytes`, `MemoryTypeBytes`, `GlobalTypeBytes`: the bytes of the parts of entries.
* `ImportBytes`, `ExportBytes`, `TableBytes`, `GlobalBytes`, `ElementBytes`, `DataBytes`, `CodeBytes`: the bytes of the
  entries.

## Main results

* `reads_decodeImport`, `reads_decodeExport`, `reads_decodeTable`, `reads_decodeGlobal`, `reads_decodeElement`,
  `reads_decodeDataSegment`, `reads_decodeCode`: the readers of the entries.
-/

namespace Wasmrt

open Leb128 Recognizer

variable {bytes : List UInt8} {α β : Type}

namespace Binary

/-! ## Counted and optional parts -/

theorem reads_readCounted {p : Decoding bytes α} {L : α → List UInt8 → Prop} (hp : ReadsAs p L) :
    ReadsAs (readCounted p) (VecBytes L) := by
  refine (reads_readU32.bind fun n => reads_readMany hp n).congr fun as w => ?_
  constructor
  · rintro ⟨n, w₁, w₂, rfl, hn, rfl, has⟩
    exact ⟨w₁, w₂, rfl, hn, has⟩
  · rintro ⟨w₁, w₂, rfl, hn, has⟩
    exact ⟨as.length, w₁, w₂, rfl, hn, rfl, has⟩

/-- The bytes of something that may be missing. -/
def OptBytes (L : α → List UInt8 → Prop) : Option α → List UInt8 → Prop
  | none, w => w = []
  | some a, w => L a w

theorem reads_readIf {p : Decoding bytes α} {L : α → List UInt8 → Prop} (hp : ReadsAs p L) (there : Bool) :
    ReadsAs (readIf there p) fun o w => there = o.isSome ∧ OptBytes L o w := by
  cases there
  · refine (Consumes.pure none).congr fun o w => ?_
    constructor
    · rintro ⟨rfl, rfl⟩
      exact ⟨rfl, rfl⟩
    · rintro ⟨hnone, hw⟩
      obtain rfl := Option.isNone_iff_eq_none.mp (Option.isSome_eq_false_iff.mp hnone.symm)
      exact ⟨rfl, hw⟩
  · refine hp.map.congr fun o w => ?_
    constructor
    · rintro ⟨a, rfl, ha⟩
      exact ⟨rfl, ha⟩
    · rintro ⟨hsome, hw⟩
      obtain ⟨a, rfl⟩ := Option.isSome_iff_exists.mp hsome.symm
      exact ⟨a, rfl, hw⟩

/-- A reader that is run over some bytes and stops at their end has read a word of its language. -/
theorem reads_whole {w : List UInt8} {p : Decoding w α} {L : α → List UInt8 → Prop} (hp : ReadsAs p L) {a : α} :
    (∃ r, p (Reader.new w) = .ok (a, r) ∧ r.atEnd = true) ↔ L a w := by
  constructor
  · rintro ⟨r, hok, hend⟩
    obtain ⟨w', hinput, ha⟩ := (hp _).sound a r hok
    rw [Reader.rest_new, Reader.atEnd_iff.mp hend, List.append_nil] at hinput
    rwa [hinput]
  · intro ha
    obtain ⟨r, hok, hrest⟩ := (hp (Reader.new w)).complete a w [] (by rw [Reader.rest_new, List.append_nil]) ha
    exact ⟨r, hok, Reader.atEnd_iff.mpr hrest⟩

/-! ## Names and blobs -/

/-- The bytes of some bytes, with their number in front. -/
def BlobBytes (bs w : List UInt8) : Prop := ∃ w₁, w = w₁ ++ bs ∧ IndexBytes bs.length w₁

theorem BlobBytes.ne_nil {bs w : List UInt8} (h : BlobBytes bs w) : w ≠ [] := by
  obtain ⟨w₁, rfl, hn⟩ := h
  exact List.append_ne_nil_of_left_ne_nil (encodes_ne_nil hn) bs

theorem reads_readByteVec : ReadsAs (@readByteVec bytes) BlobBytes := by
  refine Consumes.congr (reads_readU32.bind fun n => exact_readBytes n) fun bs w => ?_
  constructor
  · rintro ⟨n, w₁, w₂, rfl, hn, rfl, rfl⟩
    exact ⟨w₁, rfl, hn⟩
  · rintro ⟨w₁, rfl, hn⟩
    exact ⟨_, w₁, bs, rfl, hn, rfl, rfl⟩

/-- A text is what its bytes stand for, and they stand for no other. -/
theorem fromUtf8_eq_some {src : List UInt8} {s : String} : fromUtf8 src = some s ↔ src = utf8Bytes s := by
  rw [fromUtf8, String.fromUTF8?]
  constructor
  · intro h
    split at h
    · obtain rfl := Option.some.inj h
      rfl
    · cases h
  · rintro rfl
    have hbytes : (⟨(utf8Bytes s).toArray⟩ : ByteArray) = s.toByteArray := rfl
    rw [hbytes, dif_pos s.isValidUTF8]
    rfl

/-- The bytes of a name. -/
def NameBytes (s : String) (w : List UInt8) : Prop := BlobBytes (utf8Bytes s) w

theorem reads_readName : ReadsAs (@readName bytes) NameBytes := by
  refine (reads_bind_checked reads_readByteVec fun src => orError .invalidUtf8 (fromUtf8 src)).congr fun s w => ?_
  constructor
  · rintro ⟨src, hsrc, hs⟩
    obtain rfl := fromUtf8_eq_some.mp (orError_eq_ok.mp hs)
    exact hsrc
  · intro h
    exact ⟨_, h, orError_eq_ok.mpr (fromUtf8_eq_some.mpr rfl)⟩

/-! ## Limits and types -/

/-- The flags of limits: a maximum, sharing, 64-bit indices, and a page size. -/
def limitsFlag (max shared is64 page : Bool) : UInt8 :=
  max.toUInt8 ||| (shared.toUInt8 <<< 1) ||| (is64.toUInt8 <<< 2) ||| (page.toUInt8 <<< 3)

/-- The bytes of the exponent of a page size. -/
def PageBytes (e : ℕ) (w : List UInt8) : Prop := IndexBytes e w ∧ e < 64

/-- The bytes of limits, and of the exponent of a page size if there is one. -/
inductive LimitsBytes : Limits × Option ℕ → List UInt8 → Prop
  | mk {l page flag w₁ w₂ w₃} : flag = limitsFlag l.max.isSome l.shared l.is64 page.isSome → OffsetBytes l.min w₁ →
      OptBytes OffsetBytes l.max w₂ → OptBytes PageBytes page w₃ → LimitsBytes (l, page) (flag :: (w₁ ++ (w₂ ++ w₃)))

theorem LimitsBytes.ne_nil {l : Limits × Option ℕ} {w : List UInt8} (h : LimitsBytes l w) : w ≠ [] := by
  obtain ⟨-⟩ := h
  exact List.cons_ne_nil _ _

/-- A byte of four flags is what its flags say. -/
theorem limitsFlag_iff (b : UInt8) (m s i p : Bool) :
    (b ≤ 0x0f ∧ decide (b &&& 0x01 ≠ 0) = m ∧ decide (b &&& 0x02 ≠ 0) = s ∧ decide (b &&& 0x04 ≠ 0) = i ∧
      decide (b &&& 0x08 ≠ 0) = p) ↔ b = limitsFlag m s i p := by
  have hall : ∀ (n : Fin 256) (m s i p : Bool), (UInt8.ofFin n ≤ 0x0f ∧ decide (UInt8.ofFin n &&& 0x01 ≠ 0) = m ∧
      decide (UInt8.ofFin n &&& 0x02 ≠ 0) = s ∧ decide (UInt8.ofFin n &&& 0x04 ≠ 0) = i ∧
      decide (UInt8.ofFin n &&& 0x08 ≠ 0) = p) ↔ UInt8.ofFin n = limitsFlag m s i p := by decide +kernel
  exact hall b.toFin m s i p

theorem reads_readPageSize : ReadsAs (@readPageSize bytes) PageBytes := by
  refine (reads_readU32.bind fun e => reads_ensure fun _ => .pure e).congr fun e w => ?_
  constructor
  · rintro ⟨e, w₁, w₂, rfl, he, hlt, rfl, rfl⟩
    rw [List.append_nil]
    exact ⟨he, of_decide_eq_true hlt⟩
  · rintro ⟨he, hlt⟩
    exact ⟨e, w, [], (List.append_nil w).symm, he, decide_eq_true hlt, rfl, rfl⟩

theorem reads_readLimitsFlagged : ReadsAs (@readLimitsFlagged bytes) LimitsBytes := by
  have hrest (flag : UInt8) := @reads_ensure bytes _ (decide (flag ≤ 0x0f)) .malformedFlag _ _ fun _ =>
    reads_offset.bind fun min => (reads_readIf reads_offset (decide (flag &&& 0x01 ≠ 0))).bind fun max =>
      (reads_readIf reads_readPageSize (decide (flag &&& 0x08 ≠ 0))).bind_pure (f := fun page =>
        (Limits.mk min max (decide (flag &&& 0x02 ≠ 0)) (decide (flag &&& 0x04 ≠ 0)), page))
  refine (reads_readByte.bind hrest).congr fun p w => ?_
  constructor
  · rintro ⟨flag, _, _, rfl, rfl, hle, min, w₁, _, rfl, hmin, max, w₂, w₃, rfl, ⟨hsome, hmax⟩, page, rfl, hpage, hw₃⟩
    rw [List.singleton_append]
    exact .mk ((limitsFlag_iff _ _ _ _ _).mp ⟨of_decide_eq_true hle, hsome, rfl, rfl, hpage⟩) hmin hmax hw₃
  · rintro ⟨hflag, hmin, hmax, hpage⟩
    obtain ⟨hle, hm, hs, hi, hp⟩ := (limitsFlag_iff _ _ _ _ _).mpr hflag
    refine ⟨_, [_], _, rfl, rfl, decide_eq_true hle, _, _, _, rfl, hmin, _, _, _, rfl, ⟨hm, hmax⟩, _, ?_, hp, hpage⟩
    rw [hs, hi]

/-- The bytes of a memory type. -/
def MemoryTypeBytes (mt : MemoryType) (w : List UInt8) : Prop := LimitsBytes (mt.limits, mt.statedPageSizeLog2) w

theorem reads_readMemoryType : ReadsAs (@readMemoryType bytes) MemoryTypeBytes := by
  refine reads_readLimitsFlagged.bind_pure.congr fun mt w => ?_
  constructor
  · rintro ⟨p, rfl, h⟩
    exact h
  · intro h
    exact ⟨_, rfl, h⟩

variable (kinds : List CompKind)

/-- The bytes of a table type: its limits have no page size and are not shared. -/
inductive TableTypeBytes : TableType → List UInt8 → Prop
  | mk {element limits w w'} : ValTypeBytes kinds element w → element.isRef = true → LimitsBytes (limits, none) w' →
      limits.shared = false → TableTypeBytes { element, limits } (w ++ w')

theorem reads_readLimits : ReadsAs (@readLimits bytes) fun l w => LimitsBytes (l, none) w := by
  refine (reads_readLimitsFlagged.bind fun p => reads_ensure fun _ => .pure p.1).congr fun l w => ?_
  constructor
  · rintro ⟨⟨l, page⟩, w₁, w₂, rfl, h, hnone, rfl, rfl⟩
    obtain rfl := Option.isNone_iff_eq_none.mp hnone
    rwa [List.append_nil]
  · intro h
    exact ⟨_, w, [], (List.append_nil w).symm, h, rfl, rfl, rfl⟩

theorem reads_readTableType : ReadsAs (@readTableType bytes kinds) (TableTypeBytes kinds) := by
  refine ((reads_readValType kinds).bind fun element => reads_ensure fun _ => reads_readLimits.bind fun limits =>
    reads_ensure fun _ => .pure _).congr fun tt w => ?_
  constructor
  · rintro ⟨element, w₁, _, rfl, helement, href, limits, w₂, _, rfl, hlimits, hshared, rfl, rfl⟩
    rw [List.append_nil]
    exact .mk helement href hlimits (Bool.not_eq_true' _ ▸ hshared)
  · rintro ⟨helement, href, hlimits, hshared⟩
    exact ⟨_, _, _, rfl, helement, href, _, _, [], (List.append_nil _).symm, hlimits, by rw [hshared]; rfl, rfl, rfl⟩

/-- The bytes of a global type. -/
inductive GlobalTypeBytes : GlobalType → List UInt8 → Prop
  | mk {content mutable w} : ValTypeBytes kinds content w → GlobalTypeBytes ⟨content, mutable⟩ (w ++ [mutByte mutable])

theorem reads_readGlobalType : ReadsAs (@readGlobalType bytes kinds) (GlobalTypeBytes kinds) := by
  refine ((reads_readValType kinds).bind fun content => reads_readMutability.bind_pure).congr fun gt w => ?_
  constructor
  · rintro ⟨content, w₁, _, rfl, hcontent, m, rfl, rfl⟩
    exact .mk hcontent
  · rintro ⟨hcontent⟩
    exact ⟨_, _, _, rfl, hcontent, _, rfl, rfl⟩

/-! ## Constant expressions -/

/-- The bytes of a constant expression, which is kept as it is. -/
def ConstExprBytes (e w : List UInt8) : Prop := w = e ∧ ∃ ir, ExprBytes ir e

theorem ConstExprBytes.ne_nil {e w : List UInt8} (h : ConstExprBytes e w) : w ≠ [] := by
  obtain ⟨rfl, ir, hir⟩ := h
  exact hir.ne_nil

theorem reads_readConstExprBytes : ReadsAs (@readConstExprBytes bytes) ConstExprBytes := by
  intro s
  -- what is taken are the bytes the decoder of expressions has moved past
  have hinner (s' : Reader bytes) : ExactAt Reader.rest none (do
      let r ← cursor
      pure (s.rest.take (r.pos - s.pos)) : Decoding bytes ConstBytes)
      (fun e w _ => e = s.rest.take (s'.pos - s.pos) ∧ w = []) s' := exactAt_cursor (.pure _)
  refine exactAt_cursor (f := fun start => do
    let _ ← decodeExpr
    let r ← cursor
    pure (start.rest.take (r.pos - start.pos))) ?_
  refine ⟨fun e s' hok => ?_, fun e w r hinput h => ?_, fun hfail => ?_⟩
  · obtain ⟨ir, s₁, hexpr, hrest⟩ := bind_eq_ok.mp hok
    obtain ⟨w, hinput, hir⟩ := (reads_decodeExpr s).sound ir s₁ hexpr
    cases hrest
    have hpos := Reader.pos_eq_of_rest hinput
    rw [hpos, Nat.add_sub_cancel_left, hinput, List.take_left]
    exact ⟨w, rfl, rfl, ir, hir⟩
  · obtain ⟨rfl, ir, hir⟩ := h
    obtain ⟨s₁, hexpr, rfl⟩ := (reads_decodeExpr s).complete ir w r hinput hir
    refine ⟨s₁, bind_eq_ok.mpr ⟨ir, s₁, hexpr, ?_⟩, rfl⟩
    have hpos := Reader.pos_eq_of_rest hinput
    have htake : s.rest.take (s₁.pos - s.pos) = w := by rw [hpos, Nat.add_sub_cancel_left, hinput, List.take_left]
    exact congrArg (fun e => Except.ok (e, s₁)) htake
  · rcases bind_eq_error.mp hfail with hexpr | ⟨ir, s₁, -, hrest⟩
    · exact (reads_decodeExpr s).ends hexpr
    · exact (hinner s₁).ends hrest

/-! ## Imports and exports -/

/-- The byte of the kind of an import or an export. -/
def externByte : ExternKind → UInt8
  | .func => 0x00
  | .table => 0x01
  | .memory => 0x02
  | .global => 0x03
  | .tag => 0x04

theorem externKind_eq_some {b : UInt8} {kind : ExternKind} : externKind b = some kind ↔ b = externByte kind := by
  constructor
  · intro h
    rw [externKind] at h
    split_ifs at h <;> cases h <;> assumption
  · rintro rfl
    cases kind <;> rfl

/-- The bytes of a type index that names a signature. -/
def FuncIndexBytes (d : Decoder) (p : ℕ × FuncType) (w : List UInt8) : Prop :=
  IndexBytes p.1 w ∧ d.funcTypeAt p.1 = .ok p.2

/-- The bytes of the type of a tag. -/
inductive TagIndexBytes (d : Decoder) : ℕ × FuncType → List UInt8 → Prop
  | mk {p w} : FuncIndexBytes d p w → TagIndexBytes d p (0x00 :: w)

variable (d : Decoder)

theorem reads_readFuncIndex : ReadsAs (@readFuncIndex bytes d) (FuncIndexBytes d) := by
  refine (reads_readU32.bind fun ti => (reads_checked (d.funcTypeAt ti)).bind_pure).congr fun p w => ?_
  constructor
  · rintro ⟨ti, w₁, w₂, rfl, hti, ft, rfl, rfl, hft⟩
    rw [List.append_nil]
    exact ⟨hti, hft⟩
  · rintro ⟨hti, hft⟩
    exact ⟨p.1, w, [], (List.append_nil w).symm, hti, p.2, rfl, rfl, hft⟩

theorem reads_readTagIndex : ReadsAs (@readTagIndex bytes d) (TagIndexBytes d) := by
  refine (reads_readByte.bind fun b => reads_ensure fun _ => reads_readFuncIndex d).congr fun p w => ?_
  constructor
  · rintro ⟨b, _, w, rfl, rfl, hb, hp⟩
    obtain rfl := of_decide_eq_true hb
    exact .mk hp
  · rintro ⟨hp⟩
    exact ⟨0x00, [0x00], _, rfl, rfl, rfl, hp⟩

theorem FuncIndexBytes.ne_nil {p : ℕ × FuncType} {w : List UInt8} (h : FuncIndexBytes d p w) : w ≠ [] :=
  encodes_ne_nil h.1

theorem TagIndexBytes.ne_nil {p : ℕ × FuncType} {w : List UInt8} (h : TagIndexBytes d p w) : w ≠ [] := by
  obtain ⟨-⟩ := h
  exact List.cons_ne_nil _ _

/-- The bytes of the type of an import, behind the byte of its kind. A function and a tag keep their type indices. -/
inductive ImportTypeBytes : ExternKind → Extern × Option ℕ → List UInt8 → Prop
  | func {ti ft w} : FuncIndexBytes d (ti, ft) w → ImportTypeBytes .func (.func ft, some ti) w
  | table {tt w} : TableTypeBytes d.typeKinds tt w → ImportTypeBytes .table (.table tt, none) w
  | memory {mt w} : MemoryTypeBytes mt w → ImportTypeBytes .memory (.memory mt, none) w
  | global {gt w} : GlobalTypeBytes d.typeKinds gt w → ImportTypeBytes .global (.global gt, none) w
  | tag {ti ft w} : TagIndexBytes d (ti, ft) w → ImportTypeBytes .tag (.tag ft, some ti) w

theorem reads_readImportType (kind : ExternKind) :
    ReadsAs (@readImportType bytes d kind) (ImportTypeBytes d kind) := by
  cases kind with
  | func =>
    refine (reads_readFuncIndex d).map.congr fun ty w => ?_
    constructor
    · rintro ⟨_, rfl, h⟩
      exact .func h
    · rintro (h | _)
      exact ⟨_, rfl, h⟩
  | table =>
    refine (reads_readTableType d.typeKinds).map.congr fun ty w => ?_
    constructor
    · rintro ⟨_, rfl, h⟩
      exact .table h
    · rintro (_ | h)
      exact ⟨_, rfl, h⟩
  | memory =>
    refine reads_readMemoryType.map.congr fun ty w => ?_
    constructor
    · rintro ⟨_, rfl, h⟩
      exact .memory h
    · rintro (_ | _ | h)
      exact ⟨_, rfl, h⟩
  | global =>
    refine (reads_readGlobalType d.typeKinds).map.congr fun ty w => ?_
    constructor
    · rintro ⟨_, rfl, h⟩
      exact .global h
    · rintro (_ | _ | _ | h)
      exact ⟨_, rfl, h⟩
  | tag =>
    refine (reads_readTagIndex d).map.congr fun ty w => ?_
    constructor
    · rintro ⟨_, rfl, h⟩
      exact .tag h
    · rintro (_ | _ | _ | _ | h)
      exact ⟨_, rfl, h⟩

/-- The bytes of an import. A function whose type must be met exactly has a byte of its own. -/
inductive ImportBytes : Import → List UInt8 → Prop
  | mk {module name kind ty w₁ w₂ w₃} : NameBytes module w₁ → NameBytes name w₂ → ImportTypeBytes d kind ty w₃ →
      ImportBytes ⟨module, name, ty.1, ty.2, false⟩ (w₁ ++ (w₂ ++ externByte kind :: w₃))
  | exact {module name ty w₁ w₂ w₃} : NameBytes module w₁ → NameBytes name w₂ → ImportTypeBytes d .func ty w₃ →
      ImportBytes ⟨module, name, ty.1, ty.2, true⟩ (w₁ ++ (w₂ ++ exactFunc :: w₃))

theorem ImportBytes.ne_nil {i : Import} {w : List UInt8} (h : ImportBytes d i w) : w ≠ [] := by
  rcases h with ⟨hmodule, -⟩ | ⟨hmodule, -⟩ <;> exact List.append_ne_nil_of_left_ne_nil (BlobBytes.ne_nil hmodule) _

theorem reads_decodeImport : ReadsAs (@decodeImport bytes d) (ImportBytes d) := by
  refine (reads_readName.bind fun module => reads_readName.bind fun name => reads_readByte.bind fun byte =>
    (reads_checked _).bind fun kind => (reads_readImportType d kind).bind_pure).congr fun i w => ?_
  constructor
  · rintro ⟨module, w₁, _, rfl, hmodule, name, w₂, _, rfl, hname, byte, _, _, rfl, rfl, kind, _, w₃, rfl, ⟨rfl, hkind⟩,
      ty, rfl, hty⟩
    rw [orError_eq_ok] at hkind
    by_cases hexact : byte = exactFunc
    · rw [if_pos hexact] at hkind
      obtain rfl := Option.some.inj hkind
      rw [decide_eq_true hexact, hexact]
      exact .exact hmodule hname hty
    · rw [if_neg hexact] at hkind
      obtain rfl := externKind_eq_some.mp hkind
      rw [decide_eq_false hexact]
      exact .mk hmodule hname hty
  · rintro (@⟨_, _, kind, _, _, _, _, hmodule, hname, hty⟩ | ⟨hmodule, hname, hty⟩)
    · have hexact : externByte kind ≠ exactFunc := by cases kind <;> decide
      refine ⟨_, _, _, rfl, hmodule, _, _, _, rfl, hname, externByte kind, [_], _, rfl, rfl, kind, [], _, rfl,
        ⟨rfl, orError_eq_ok.mpr ?_⟩, _, ?_, hty⟩
      · rw [if_neg hexact]
        exact externKind_eq_some.mpr rfl
      · rw [decide_eq_false hexact]
    · exact ⟨_, _, _, rfl, hmodule, _, _, _, rfl, hname, exactFunc, [_], _, rfl, rfl, .func, [], _, rfl,
        ⟨rfl, rfl⟩, _, rfl, hty⟩

/-- The bytes of an export. What it names is in an index space. -/
inductive ExportBytes : Export → List UInt8 → Prop
  | mk {name kind index ty w₁ w₂} : NameBytes name w₁ → IndexBytes index w₂ → d.externAt index kind = .ok ty →
      ExportBytes ⟨name, index, ty⟩ (w₁ ++ externByte kind :: w₂)

theorem ExportBytes.ne_nil {e : Export} {w : List UInt8} (h : ExportBytes d e w) : w ≠ [] := by
  obtain ⟨hname, -⟩ := h
  exact List.append_ne_nil_of_left_ne_nil (BlobBytes.ne_nil hname) _

theorem reads_decodeExport : ReadsAs (@decodeExport bytes d) (ExportBytes d) := by
  refine (reads_readName.bind fun name => reads_readByte.bind fun byte => (reads_checked _).bind fun kind =>
    reads_readU32.bind fun index => (reads_checked (d.externAt index kind)).bind_pure).congr fun e w => ?_
  constructor
  · rintro ⟨name, w₁, _, rfl, hname, byte, _, _, rfl, rfl, kind, _, _, rfl, ⟨rfl, hkind⟩, index, w₂, _, rfl, hindex, ty,
      rfl, rfl, hty⟩
    obtain rfl := externKind_eq_some.mp (orError_eq_ok.mp hkind)
    rw [List.append_nil]
    exact .mk hname hindex hty
  · rintro ⟨hname, hindex, hty⟩
    exact ⟨_, _, _, rfl, hname, _, [_], _, rfl, rfl, _, [], _, rfl, ⟨rfl, orError_eq_ok.mpr (externKind_eq_some.mpr rfl)⟩,
      _, _, [], (List.append_nil _).symm, hindex, _, rfl, rfl, hty⟩

/-! ## Tables and globals -/

/-- The bytes of a table. Without an initialiser, its type has a default value. -/
inductive TableBytes : TableType → List UInt8 → Prop
  | plain {tt w} : TableTypeBytes kinds tt w → tt.element.isNonNullRef = false → TableBytes tt w
  | init {tt e w w'} : TableTypeBytes kinds tt w → ConstExprBytes e w' →
      TableBytes { tt with init := some e } (0x40 :: 0x00 :: (w ++ w'))

/-- A table type does not begin as a table with an initialiser does. -/
theorem TableTypeBytes.head {tt : TableType} {w : List UInt8} (h : TableTypeBytes kinds tt w) :
    tt.init = none ∧ tt.limits.shared = false ∧ w ≠ [] ∧ w.head? ≠ some 0x40 := by
  obtain ⟨helement, -, -, hshared⟩ := h
  refine ⟨rfl, hshared, List.append_ne_nil_of_left_ne_nil helement.ne_nil _, ?_⟩
  rw [List.head?_append_of_ne_nil _ helement.ne_nil]
  obtain ⟨raw, hv | _ | _, -⟩ := helement
  · intro hhead
    obtain rfl := Option.some.inj hhead
    cases hv
  · exact nofun
  · exact nofun

theorem TableBytes.ne_nil {tt : TableType} {w : List UInt8} (h : TableBytes kinds tt w) : w ≠ [] := by
  rcases h with ⟨htt, -⟩ | ⟨-, -⟩
  · exact (TableTypeBytes.head kinds htt).2.2.1
  · exact List.cons_ne_nil _ _

theorem reads_readTable : ReadsAs (@readTable bytes kinds) fun tt w => TableTypeBytes kinds tt w ∨
    ∃ tt' e w₁ w₂, tt = { tt' with init := some e } ∧ w = 0x40 :: 0x00 :: (w₁ ++ w₂) ∧ TableTypeBytes kinds tt' w₁ ∧
      ConstExprBytes e w₂ := by
  have hinit : ReadsAs (do
      let _ ← readByte
      let reserved ← readByte
      checked (ensure (decide (reserved = 0x00)) .malformedFlag)
      let tt ← readTableType kinds
      let init ← readConstExprBytes
      pure { tt with init := some init } : Decoding bytes TableType) fun tt w => ∃ tt' e b w₁ w₂,
        tt = { tt' with init := some e } ∧ w = b :: 0x00 :: (w₁ ++ w₂) ∧ TableTypeBytes kinds tt' w₁ ∧
          ConstExprBytes e w₂ := by
    refine (reads_readByte.bind fun _ => reads_readByte.bind fun reserved => reads_ensure fun _ =>
      (reads_readTableType kinds).bind fun tt => reads_readConstExprBytes.bind_pure).congr fun tt w => ?_
    constructor
    · rintro ⟨b, _, _, rfl, rfl, reserved, _, _, rfl, rfl, hreserved, tt', w₁, w₂, rfl, htt, e, rfl, he⟩
      obtain rfl := of_decide_eq_true hreserved
      exact ⟨tt', e, b, w₁, w₂, rfl, rfl, htt, he⟩
    · rintro ⟨tt', e, b, w₁, w₂, rfl, rfl, htt, he⟩
      exact ⟨b, [b], _, rfl, rfl, 0x00, [0x00], _, rfl, rfl, rfl, tt', w₁, w₂, rfl, htt, e, rfl, he⟩
  refine (reads_peekByte (fun b => .ite hinit (reads_readTableType kinds)) fun b tt w h => ?_).congr fun tt w => ?_
  · split_ifs at h
    · obtain ⟨tt', e, b, w₁, w₂, rfl, rfl, -⟩ := h
      exact List.cons_ne_nil _ _
    · obtain ⟨-, -, hne, -⟩ := TableTypeBytes.head kinds h
      exact hne
  · constructor
    · rintro ⟨b, hb, h⟩
      split_ifs at h with htagged
      · obtain ⟨tt', e, b, w₁, w₂, rfl, rfl, htt, he⟩ := h
        obtain rfl := Option.some.inj hb
        exact .inr ⟨tt', e, w₁, w₂, rfl, by rw [htagged], htt, he⟩
      · exact .inl h
    · rintro (htt | ⟨tt', e, w₁, w₂, rfl, rfl, htt, he⟩)
      · obtain ⟨-, -, hne, hhead⟩ := TableTypeBytes.head kinds htt
        obtain ⟨b, w, rfl⟩ := List.exists_cons_of_ne_nil hne
        exact ⟨b, rfl, (if_neg fun h => hhead (congrArg some h)).mpr htt⟩
      · exact ⟨0x40, rfl, (if_pos rfl).mpr ⟨tt', e, 0x40, w₁, w₂, rfl, rfl, htt, he⟩⟩

theorem reads_decodeTable : ReadsAs (@decodeTable bytes kinds) (TableBytes kinds) := by
  refine ((reads_readTable kinds).bind fun tt => reads_ensure fun _ => .pure _).congr fun tt w => ?_
  constructor
  · rintro ⟨tt', w₁, _, rfl, h, hdefault, rfl, rfl⟩
    rw [List.append_nil]
    rcases h with htt | ⟨tt, e, w₁, w₂, rfl, rfl, htt, he⟩
    · obtain ⟨hinit, hshared, -⟩ := TableTypeBytes.head kinds htt
      have hplain : tt'.element.isNonNullRef = false :=
        Bool.eq_false_iff.mpr fun h => of_decide_eq_true hdefault ⟨hinit, h⟩
      rw [← hshared]
      exact .plain htt hplain
    · obtain ⟨-, hshared, -⟩ := TableTypeBytes.head kinds htt
      have htable := TableBytes.init htt he
      rw [← hshared]
      exact htable
  · rintro (⟨htt, hplain⟩ | ⟨htt, he⟩)
    · obtain ⟨-, hshared, -⟩ := TableTypeBytes.head kinds htt
      refine ⟨tt, w, [], (List.append_nil w).symm, .inl htt, decide_eq_true ?_, ?_, rfl⟩
      · rw [hplain]
        exact fun h => nomatch h.2
      · rw [← hshared]
    · obtain ⟨-, hshared, -⟩ := TableTypeBytes.head kinds htt
      refine ⟨_, _, [], (List.append_nil _).symm, .inr ⟨_, _, _, _, rfl, rfl, htt, he⟩, rfl, ?_, rfl⟩
      rw [← hshared]

/-- The bytes of a global. -/
inductive GlobalBytes : GlobalType × ConstBytes → List UInt8 → Prop
  | mk {gt e w w'} : GlobalTypeBytes kinds gt w → ConstExprBytes e w' → GlobalBytes (gt, e) (w ++ w')

theorem GlobalBytes.ne_nil {p : GlobalType × ConstBytes} {w : List UInt8} (h : GlobalBytes kinds p w) : w ≠ [] := by
  obtain ⟨-, hexpr⟩ := h
  exact List.append_ne_nil_of_right_ne_nil _ hexpr.ne_nil

theorem reads_decodeGlobal : ReadsAs (@decodeGlobal bytes kinds) (GlobalBytes kinds) := by
  refine ((reads_readGlobalType kinds).bind fun gt => reads_readConstExprBytes.bind_pure).congr fun p w => ?_
  constructor
  · rintro ⟨gt, w₁, w₂, rfl, hgt, e, rfl, he⟩
    exact .mk hgt he
  · rintro ⟨hgt, he⟩
    exact ⟨_, _, _, rfl, hgt, _, rfl, he⟩

/-! ## Segments -/

/-- The bytes of the type of the elements of a segment of expressions. -/
def ElemTypeBytes (v : ValType) (w : List UInt8) : Prop := ValTypeBytes kinds v w ∧ v.isRef = true

/-- The bytes of an element segment: a number for its form, and what the form has. -/
inductive ElementBytes : Element → List UInt8 → Prop
  | active {offset funcs w w₁ w₂} : IndexBytes 0 w → ConstExprBytes offset w₁ → VecBytes IndexBytes funcs w₂ →
      ElementBytes ⟨.active, 0, offset, funcs, [], .ref .func false⟩ (w ++ (w₁ ++ w₂))
  | passive {funcs w w₁} : IndexBytes 1 w → VecBytes IndexBytes funcs w₁ →
      ElementBytes ⟨.passive, 0, [], funcs, [], .ref .func false⟩ (w ++ 0x00 :: w₁)
  | explicit {table offset funcs w w₁ w₂ w₃} : IndexBytes 2 w → IndexBytes table w₁ → ConstExprBytes offset w₂ →
      VecBytes IndexBytes funcs w₃ →
      ElementBytes ⟨.active, table, offset, funcs, [], .ref .func false⟩ (w ++ (w₁ ++ (w₂ ++ 0x00 :: w₃)))
  | declarative {funcs w w₁} : IndexBytes 3 w → VecBytes IndexBytes funcs w₁ →
      ElementBytes ⟨.declarative, 0, [], funcs, [], .ref .func false⟩ (w ++ 0x00 :: w₁)
  | activeExprs {offset exprs w w₁ w₂} : IndexBytes 4 w → ConstExprBytes offset w₁ → VecBytes ConstExprBytes exprs w₂ →
      ElementBytes ⟨.active, 0, offset, [], exprs, .ref .func true⟩ (w ++ (w₁ ++ w₂))
  | passiveExprs {exprs ty w w₁ w₂} : IndexBytes 5 w → ElemTypeBytes kinds ty w₁ → VecBytes ConstExprBytes exprs w₂ →
      ElementBytes ⟨.passive, 0, [], [], exprs, ty⟩ (w ++ (w₁ ++ w₂))
  | explicitExprs {table offset exprs ty w w₁ w₂ w₃ w₄} : IndexBytes 6 w → IndexBytes table w₁ →
      ConstExprBytes offset w₂ → ElemTypeBytes kinds ty w₃ → VecBytes ConstExprBytes exprs w₄ →
      ElementBytes ⟨.active, table, offset, [], exprs, ty⟩ (w ++ (w₁ ++ (w₂ ++ (w₃ ++ w₄))))
  | declarativeExprs {exprs ty w w₁ w₂} : IndexBytes 7 w → ElemTypeBytes kinds ty w₁ →
      VecBytes ConstExprBytes exprs w₂ → ElementBytes ⟨.declarative, 0, [], [], exprs, ty⟩ (w ++ (w₁ ++ w₂))

theorem ElementBytes.ne_nil {e : Element} {w : List UInt8} (h : ElementBytes kinds e w) : w ≠ [] := by
  rcases h with ⟨hn, -⟩ | ⟨hn, -⟩ | ⟨hn, -⟩ | ⟨hn, -⟩ | ⟨hn, -⟩ | ⟨hn, -⟩ | ⟨hn, -⟩ | ⟨hn, -⟩ <;>
    exact List.append_ne_nil_of_left_ne_nil (encodes_ne_nil hn) _

/-- The byte in front of a list of functions, which the first form leaves out. -/
theorem reads_readElemKind (flags : ℕ) :
    ReadsAs (@readElemKind bytes flags) fun _ w => w = if flags = 0 then [] else [0x00] := by
  rw [readElemKind]
  by_cases hzero : flags = 0
  · rw [if_neg (not_not.mpr hzero), if_pos hzero]
    exact (Consumes.pure ()).congr fun _ w => and_iff_right rfl
  · rw [if_pos hzero, if_neg hzero]
    refine (reads_readByte.bind fun b => reads_ensure fun _ => .pure ()).congr fun u w => ?_
    constructor
    · rintro ⟨b, _, _, rfl, rfl, hb, rfl, rfl⟩
      obtain rfl := of_decide_eq_true hb
      rfl
    · rintro rfl
      exact ⟨0x00, [0x00], [], rfl, rfl, rfl, rfl, rfl⟩

theorem reads_readElemType (flags : ℕ) : ReadsAs (@readElemType bytes kinds flags) fun v w =>
    if flags = 4 then v = .ref .func true ∧ w = [] else ElemTypeBytes kinds v w := by
  rw [readElemType]
  by_cases hfour : flags = 4
  · rw [if_neg (not_not.mpr hfour)]
    exact (Consumes.pure _).congr fun v w => (if_pos hfour).to_iff.symm
  · rw [if_pos hfour]
    refine ((reads_readValType kinds).bind fun v => reads_ensure fun _ => .pure v).congr fun v w => ?_
    rw [if_neg hfour]
    constructor
    · rintro ⟨v, w, _, rfl, hv, href, rfl, rfl⟩
      rw [List.append_nil]
      exact ⟨hv, href⟩
    · rintro ⟨hv, href⟩
      exact ⟨v, w, [], (List.append_nil w).symm, hv, href, rfl, rfl⟩

theorem reads_readFuncVec : ReadsAs (readVec (@readU32 bytes)) (VecBytes IndexBytes) :=
  reads_readVec reads_readU32 fun _ _ => encodes_ne_nil

theorem reads_readExprVec : ReadsAs (readVec (@readConstExprBytes bytes)) (VecBytes ConstExprBytes) :=
  reads_readVec reads_readConstExprBytes fun _ _ => ConstExprBytes.ne_nil

theorem reads_decodeElement : ReadsAs (@decodeElement bytes kinds) (ElementBytes kinds) := by
  refine (reads_readU32.bind fun flags => reads_ensure fun _ =>
    (Consumes.ite (reads_readU32.map (f := some)) (.pure none)).bind fun table =>
      (Consumes.ite (reads_readConstExprBytes.map (f := some)) (.pure none)).bind fun offset =>
        .ite ((reads_readElemKind flags).bind fun _ => reads_readFuncVec.bind_pure)
          ((reads_readElemType kinds flags).bind fun elemType => reads_readExprVec.bind_pure)).congr fun e w => ?_
  constructor
  · rintro ⟨flags, w₀, _, rfl, hflags, hle, table, w₁, _, rfl, htable, offset, w₂, _, rfl, hoffset, h⟩
    replace hle := of_decide_eq_true hle
    -- one case for each form
    interval_cases flags <;> simp only [elementMode, Nat.reduceAnd, Nat.reduceEqDiff, reduceCtorEq, ne_eq, not_true,
      not_false_eq_true, and_true, and_false, decide_true, decide_false, if_true, if_false, Bool.false_eq_true]
      at htable hoffset h
    · obtain ⟨⟨rfl, rfl⟩, offset, rfl, hoffset⟩ := htable, hoffset
      obtain ⟨_, _, w₃, rfl, rfl, funcs, rfl, hfuncs⟩ := h
      simp only [List.nil_append]
      exact .active hflags hoffset hfuncs
    · obtain ⟨⟨rfl, rfl⟩, rfl, rfl⟩ := htable, hoffset
      obtain ⟨_, _, w₃, rfl, rfl, funcs, rfl, hfuncs⟩ := h
      exact .passive hflags hfuncs
    · obtain ⟨⟨table, rfl, htable⟩, offset, rfl, hoffset⟩ := htable, hoffset
      obtain ⟨_, _, w₃, rfl, rfl, funcs, rfl, hfuncs⟩ := h
      exact .explicit hflags htable hoffset hfuncs
    · obtain ⟨⟨rfl, rfl⟩, rfl, rfl⟩ := htable, hoffset
      obtain ⟨_, _, w₃, rfl, rfl, funcs, rfl, hfuncs⟩ := h
      exact .declarative hflags hfuncs
    · obtain ⟨⟨rfl, rfl⟩, offset, rfl, hoffset⟩ := htable, hoffset
      obtain ⟨_, _, w₃, rfl, ⟨rfl, rfl⟩, exprs, rfl, hexprs⟩ := h
      simp only [List.nil_append]
      exact .activeExprs hflags hoffset hexprs
    · obtain ⟨⟨rfl, rfl⟩, rfl, rfl⟩ := htable, hoffset
      obtain ⟨ty, w₃, w₄, rfl, hty, exprs, rfl, hexprs⟩ := h
      simp only [List.nil_append]
      exact .passiveExprs hflags hty hexprs
    · obtain ⟨⟨table, rfl, htable⟩, offset, rfl, hoffset⟩ := htable, hoffset
      obtain ⟨ty, w₃, w₄, rfl, hty, exprs, rfl, hexprs⟩ := h
      exact .explicitExprs hflags htable hoffset hty hexprs
    · obtain ⟨⟨rfl, rfl⟩, rfl, rfl⟩ := htable, hoffset
      obtain ⟨ty, w₃, w₄, rfl, hty, exprs, rfl, hexprs⟩ := h
      simp only [List.nil_append]
      exact .declarativeExprs hflags hty hexprs
  · have hnone {γ : Type} {L : γ → List UInt8 → Prop} {c : Bool} (hc : c = false) : if c = true then
        ∃ a, none = some a ∧ L a [] else (none : Option γ) = none ∧ ([] : List UInt8) = [] := by
      rw [if_neg (Bool.eq_false_iff.mp hc)]
      exact ⟨rfl, rfl⟩
    have hsome {γ : Type} {L : γ → List UInt8 → Prop} {c : Bool} {a : γ} {w : List UInt8} (hc : c = true) (ha : L a w) :
        if c = true then ∃ a', some a = some a' ∧ L a' w else some a = none ∧ w = [] := by
      rw [if_pos hc]
      exact ⟨a, rfl, ha⟩
    rintro (⟨hflags, hoffset, hfuncs⟩ | ⟨hflags, hfuncs⟩ | ⟨hflags, htable, hoffset, hfuncs⟩ | ⟨hflags, hfuncs⟩ |
      ⟨hflags, hoffset, hexprs⟩ | ⟨hflags, hty, hexprs⟩ | ⟨hflags, htable, hoffset, hty, hexprs⟩ | ⟨hflags, hty, hexprs⟩)
    · exact ⟨0, _, _, rfl, hflags, rfl, none, [], _, rfl, hnone rfl, some _, _, _, rfl, hsome rfl hoffset,
        (if_pos rfl).mpr ⟨(), [], _, rfl, rfl, _, rfl, hfuncs⟩⟩
    · exact ⟨1, _, _, rfl, hflags, rfl, none, [], _, rfl, hnone rfl, none, [], _, rfl, hnone rfl,
        (if_pos rfl).mpr ⟨(), [0x00], _, rfl, rfl, _, rfl, hfuncs⟩⟩
    · exact ⟨2, _, _, rfl, hflags, rfl, some _, _, _, rfl, hsome rfl htable, some _, _, _, rfl, hsome rfl hoffset,
        (if_pos rfl).mpr ⟨(), [0x00], _, rfl, rfl, _, rfl, hfuncs⟩⟩
    · exact ⟨3, _, _, rfl, hflags, rfl, none, [], _, rfl, hnone rfl, none, [], _, rfl, hnone rfl,
        (if_pos rfl).mpr ⟨(), [0x00], _, rfl, rfl, _, rfl, hfuncs⟩⟩
    · exact ⟨4, _, _, rfl, hflags, rfl, none, [], _, rfl, hnone rfl, some _, _, _, rfl, hsome rfl hoffset,
        (if_neg (by decide)).mpr ⟨_, [], _, rfl, ⟨rfl, rfl⟩, _, rfl, hexprs⟩⟩
    · exact ⟨5, _, _, rfl, hflags, rfl, none, [], _, rfl, hnone rfl, none, [], _, rfl, hnone rfl,
        (if_neg (by decide)).mpr ⟨_, _, _, rfl, hty, _, rfl, hexprs⟩⟩
    · exact ⟨6, _, _, rfl, hflags, rfl, some _, _, _, rfl, hsome rfl htable, some _, _, _, rfl, hsome rfl hoffset,
        (if_neg (by decide)).mpr ⟨_, _, _, rfl, hty, _, rfl, hexprs⟩⟩
    · exact ⟨7, _, _, rfl, hflags, rfl, none, [], _, rfl, hnone rfl, none, [], _, rfl, hnone rfl,
        (if_neg (by decide)).mpr ⟨_, _, _, rfl, hty, _, rfl, hexprs⟩⟩

/-- The bytes of a data segment: a number for its form, and what the form has. -/
inductive DataBytes : DataSegment → List UInt8 → Prop
  | active {offset bs w w₁ w₂} : IndexBytes 0 w → ConstExprBytes offset w₁ → BlobBytes bs w₂ →
      DataBytes ⟨true, 0, offset, bs⟩ (w ++ (w₁ ++ w₂))
  | passive {bs w w₁} : IndexBytes 1 w → BlobBytes bs w₁ → DataBytes ⟨false, 0, [], bs⟩ (w ++ w₁)
  | explicit {mem offset bs w w₁ w₂ w₃} : IndexBytes 2 w → IndexBytes mem w₁ → ConstExprBytes offset w₂ →
      BlobBytes bs w₃ → DataBytes ⟨true, mem, offset, bs⟩ (w ++ (w₁ ++ (w₂ ++ w₃)))

theorem DataBytes.ne_nil {seg : DataSegment} {w : List UInt8} (h : DataBytes seg w) : w ≠ [] := by
  rcases h with ⟨hn, -⟩ | ⟨hn, -⟩ | ⟨hn, -⟩ <;> exact List.append_ne_nil_of_left_ne_nil (encodes_ne_nil hn) _

theorem reads_decodeDataSegment : ReadsAs (@decodeDataSegment bytes) DataBytes := by
  refine (reads_readU32.bind fun flags => .ite (reads_readConstExprBytes.bind fun offset =>
    reads_readByteVec.bind_pure) (.ite reads_readByteVec.bind_pure (.ite (reads_readU32.bind fun mem =>
      reads_readConstExprBytes.bind fun offset => reads_readByteVec.bind_pure) (reads_failWith _)))).congr
    fun seg w => ?_
  constructor
  · rintro ⟨flags, w₀, _, rfl, hflags, h⟩
    split_ifs at h with hactive hpassive hexplicit
    · obtain ⟨offset, w₁, w₂, rfl, hoffset, bs, rfl, hbs⟩ := h
      exact .active (hactive ▸ hflags) hoffset hbs
    · obtain ⟨bs, rfl, hbs⟩ := h
      exact .passive (hpassive ▸ hflags) hbs
    · obtain ⟨mem, w₁, _, rfl, hmem, offset, w₂, w₃, rfl, hoffset, bs, rfl, hbs⟩ := h
      exact .explicit (hexplicit ▸ hflags) hmem hoffset hbs
  · rintro (⟨hflags, hoffset, hbs⟩ | ⟨hflags, hbs⟩ | ⟨hflags, hmem, hoffset, hbs⟩)
    · exact ⟨0, _, _, rfl, hflags, (if_pos rfl).mpr ⟨_, _, _, rfl, hoffset, _, rfl, hbs⟩⟩
    · refine ⟨1, _, _, rfl, hflags, ?_⟩
      beta_reduce
      rw [if_neg Nat.one_ne_zero, if_pos rfl]
      exact ⟨_, rfl, hbs⟩
    · refine ⟨2, _, _, rfl, hflags, ?_⟩
      beta_reduce
      have hne : (2 : ℕ) ≠ 0 ∧ (2 : ℕ) ≠ 1 := by decide
      rw [if_neg hne.1, if_neg hne.2, if_pos rfl]
      exact ⟨_, _, _, rfl, hmem, _, _, _, rfl, hoffset, _, rfl, hbs⟩

/-! ## Code -/

/-- The bytes of a run of locals. -/
inductive LocalBytes : Local → List UInt8 → Prop
  | mk {count ty w w'} : IndexBytes count w → ValTypeBytes kinds ty w' → LocalBytes ⟨count, ty⟩ (w ++ w')

theorem LocalBytes.ne_nil {l : Local} {w : List UInt8} (h : LocalBytes kinds l w) : w ≠ [] := by
  obtain ⟨hcount, -⟩ := h
  exact List.append_ne_nil_of_left_ne_nil (encodes_ne_nil hcount) _

theorem reads_readLocal : ReadsAs (@readLocal bytes kinds) (LocalBytes kinds) := by
  refine (reads_readU32.bind fun count => (reads_readValType kinds).bind_pure).congr fun l w => ?_
  constructor
  · rintro ⟨count, w₁, w₂, rfl, hcount, ty, rfl, hty⟩
    exact .mk hcount hty
  · rintro ⟨hcount, hty⟩
    exact ⟨_, _, _, rfl, hcount, _, rfl, hty⟩

/-- The bytes of a function: not too many locals, and a body. -/
inductive EntryBytes : Code → List UInt8 → Prop
  | mk {locals ir w w'} : VecBytes (LocalBytes kinds) locals w → (locals.map (·.count)).sum ≤ maxDeclaredLocals →
      ExprBytes ir w' → EntryBytes ⟨locals, ir⟩ (w ++ w')

theorem reads_readLocals : ReadsAs (readVec (@readLocal bytes kinds)) (VecBytes (LocalBytes kinds)) :=
  reads_readVec (reads_readLocal kinds) fun _ _ => LocalBytes.ne_nil kinds

theorem decides_decodeEntry (entry : List UInt8) :
    Decides none (decodeEntry kinds entry) fun c => EntryBytes kinds c entry := by
  have hlocals := @reads_readLocals entry kinds (Reader.new entry)
  rw [decodeEntry]
  refine ⟨fun c => ⟨fun h => ?_, ?_⟩, fun h => ?_⟩
  · split at h
    · cases h
    · next locals r hok =>
      split_ifs at h with hcount
      split at h
      · next ir hbody =>
        cases h
        obtain ⟨w, hinput, hw⟩ := hlocals.sound locals r hok
        rw [Reader.rest_new] at hinput
        rw [hinput]
        exact .mk hw hcount (decodeBody_eq_ok.mp hbody)
      · cases h
  · rintro ⟨hw, hcount, hbody⟩
    obtain ⟨r, hok, hrest⟩ := hlocals.complete _ _ _ rfl hw
    rw [hok]
    simp only [if_pos hcount, hrest, decodeBody_eq_ok.mpr hbody]
  · split at h
    · next e hfail =>
      cases h
      exact hlocals.ends hfail
    · split_ifs at h
      · split at h
        · cases h
        · next e hbody =>
          cases h
          exact decodeBody_ne_none _ hbody
      · cases h

/-- The bytes of an entry of the code section: the bytes of a function, with their number in front. -/
def CodeBytes (c : Code) (w : List UInt8) : Prop := ∃ entry, BlobBytes entry w ∧ EntryBytes kinds c entry

theorem CodeBytes.ne_nil {c : Code} {w : List UInt8} (h : CodeBytes kinds c w) : w ≠ [] := by
  obtain ⟨entry, hentry, -⟩ := h
  exact hentry.ne_nil

theorem reads_decodeCode : ReadsAs (@decodeCode bytes kinds) (CodeBytes kinds) := by
  refine (reads_readByteVec.bind fun entry => (decides_decodeEntry kinds entry).reads).congr fun c w => ?_
  constructor
  · rintro ⟨entry, w, _, rfl, hw, rfl, hc⟩
    rw [List.append_nil]
    exact ⟨entry, hw, hc⟩
  · rintro ⟨entry, hw, hc⟩
    exact ⟨entry, w, [], (List.append_nil w).symm, hw, rfl, hc⟩

end Binary

end Wasmrt
