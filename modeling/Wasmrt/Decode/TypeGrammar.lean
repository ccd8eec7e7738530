import Wasmrt.Decode.Immediates
import Wasmrt.Decode.Prescan

/-!
# The bytes of a type section

The types of a section as the binary spells them, and what the decoder makes of them. The decoder resolves the types while
it reads; the bytes it reads do not depend on that, and what it returns is what the section comes to when it is resolved
after it has been read.

## Main definitions

* `RawValTypeBytes`, `CompTypeBytes`, `SubTypeBytes`, `RecGroupBytes`: the bytes of the entries of a section.

## Main results

* `reads_decodeTypeSection`: the decoder of the type section reads the bytes of some rec groups, and returns what
  `decodeTypeSection` makes of them.
-/

namespace Wasmrt

open Leb128 Recognizer

variable {bytes : List UInt8} {α β σ : Type}

/-! ## Looking ahead -/

/-- A reader that looks at the next byte and goes on by what it is, where every word takes up some room. -/
theorem reads_peekByte {f : UInt8 → Decoding bytes α} {L : UInt8 → α → List UInt8 → Prop} (hf : ∀ b, ReadsAs (f b) (L b))
    (hne : ∀ b a w, L b a w → w ≠ []) :
    ReadsAs (peekByte >>= f) fun a w => ∃ b, w.head? = some b ∧ L b a w := by
  intro s
  refine ((exact_peekByte s).bind fun b s' _ => hf b s').congr fun a w r _ => ?_
  constructor
  · rintro ⟨b, _, w, rfl, ⟨rfl, hb⟩, ha⟩
    rw [List.head?_append_of_ne_nil _ (hne b a w ha)] at hb
    exact ⟨b, hb, ha⟩
  · rintro ⟨b, hb, ha⟩
    refine ⟨b, [], w, rfl, ⟨rfl, ?_⟩, ha⟩
    rw [List.head?_append_of_ne_nil _ (hne b a w ha)]
    exact hb

/-- A reader that raises another error for one of its own reads the same. -/
theorem reads_asValType {p : Decoding bytes α} {L : α → List UInt8 → Prop} (hp : ReadsAs p L) :
    ReadsAs (asValType p) L := by
  intro s
  have hok (x : α × Reader bytes) : asValType p s = .ok x ↔ p s = .ok x := by
    unfold asValType
    split
    · next h => rw [h]; exact iff_of_false nofun nofun
    · exact Iff.rfl
  refine ⟨fun a s' h => (hp s).sound a s' ((hok _).mp h), fun a w r hinput ha => ?_, fun h => ?_⟩
  · obtain ⟨s', hs', hrest⟩ := (hp s).complete a w r hinput ha
    exact ⟨s', (hok _).mpr hs', hrest⟩
  · unfold asValType at h
    split at h
    · cases h
    · exact (hp s).ends h

/-! ## What is read and then resolved -/

/-- What is read entry by entry and resolved is read as a list and then resolved. -/
theorem words_resolved {ε : Type} {L : α → List UInt8 → Prop} {f : α → Except ε β} {bs : List β} {w : List UInt8} :
    Words (fun b w => ∃ a, L a w ∧ f a = .ok b) bs w ↔ ∃ as, Words L as w ∧ as.mapM f = .ok bs := by
  constructor
  · intro h
    induction h with
    | nil => exact ⟨[], .nil, rfl⟩
    | cons ha _ ih =>
      obtain ⟨a, ha, hb⟩ := ha
      obtain ⟨as, has, hbs⟩ := ih
      refine ⟨a :: as, .cons ha has, ?_⟩
      rw [mapM_eq_ok] at hbs ⊢
      exact .cons hb hbs
  · rintro ⟨as, has, hbs⟩
    induction has generalizing bs with
    | nil =>
      cases hbs
      exact .nil
    | cons ha _ ih =>
      rw [mapM_eq_ok] at hbs
      rcases hbs with _ | ⟨hb, hbs⟩
      exact .cons ⟨_, ha, hb⟩ (ih (mapM_eq_ok.mpr hbs))

theorem length_of_mapM {ε : Type} {f : α → Except ε β} {as : List α} {bs : List β} (h : as.mapM f = .ok bs) :
    as.length = bs.length := (mapM_eq_ok.mp h).length_eq

/-- A vector that is resolved entry by entry. -/
theorem vecBytes_resolved {ε : Type} {L : α → List UInt8 → Prop} {f : α → Except ε β} {bs : List β} {w : List UInt8} :
    VecBytes (fun b w => ∃ a, L a w ∧ f a = .ok b) bs w ↔ ∃ as, VecBytes L as w ∧ as.mapM f = .ok bs := by
  constructor
  · rintro ⟨w₁, w₂, rfl, hlength, h⟩
    obtain ⟨as, has, hbs⟩ := words_resolved.mp h
    exact ⟨as, ⟨w₁, w₂, rfl, length_of_mapM hbs ▸ hlength, has⟩, hbs⟩
  · rintro ⟨as, ⟨w₁, w₂, rfl, hlength, has⟩, hbs⟩
    exact ⟨w₁, w₂, rfl, length_of_mapM hbs ▸ hlength, words_resolved.mpr ⟨as, has, hbs⟩⟩

/-- A step that is taken some times over reads one word each time. -/
theorem reads_times {step : σ → Decoding bytes σ} {L : α → List UInt8 → Prop} {f : σ → α → Except DecodeError σ}
    (h : ∀ s, ReadsAs (step s) fun s' w => ∃ a, L a w ∧ f s a = .ok s') (n : ℕ) (s : σ) :
    ReadsAs (times step n s) fun s' w => ∃ as, as.length = n ∧ Words L as w ∧ as.foldlM f s = .ok s' := by
  induction n generalizing s with
  | zero =>
    refine (Consumes.pure s).congr fun s' w => ?_
    constructor
    · rintro ⟨rfl, rfl⟩
      exact ⟨[], rfl, .nil, rfl⟩
    · rintro ⟨as, hlength, hw, hfold⟩
      obtain rfl := List.eq_nil_of_length_eq_zero hlength
      cases hfold
      exact ⟨rfl, Words.nil_iff.mp hw⟩
  | succ n ih =>
    refine ((h s).bind fun s₁ => ih s₁).congr fun s' w => ?_
    constructor
    · rintro ⟨s₁, w₁, w₂, rfl, ⟨a, ha, hone⟩, as, rfl, has, hrest⟩
      exact ⟨a :: as, rfl, .cons ha has, by rw [List.foldlM_cons, hone]; exact hrest⟩
    · rintro ⟨as, hlength, hw, hfold⟩
      rcases hw with _ | ⟨ha, has⟩
      · cases hlength
      · rw [List.foldlM_cons, Except.bind_eq_ok] at hfold
        obtain ⟨s₁, hone, hrest⟩ := hfold
        exact ⟨s₁, _, _, rfl, ⟨_, ha, hone⟩, _, Nat.succ.inj hlength, has, hrest⟩

/-! ## Value types -/

/-- The bytes of a value type. -/
inductive RawValTypeBytes : RawValType → List UInt8 → Prop
  | short {b v} : shortValType b = some v → RawValTypeBytes v [b]
  | null {ht w} : HeapTypeBytes ht w → RawValTypeBytes (.ref true ht) (0x63 :: w)
  | nonNull {ht w} : HeapTypeBytes ht w → RawValTypeBytes (.ref false ht) (0x64 :: w)

theorem RawValTypeBytes.ne_nil {v : RawValType} {w : List UInt8} (h : RawValTypeBytes v w) : w ≠ [] := by
  rcases h with _ | _ | _ <;> exact List.cons_ne_nil _ _

theorem reads_readRawValType : ReadsAs (@readRawValType bytes) RawValTypeBytes := by
  refine (reads_readByte.bind fun b => .ite (reads_asValType reads_readHeapType).map
    (.ite (reads_asValType reads_readHeapType).map (reads_checked _))).congr fun v w => ?_
  constructor
  · rintro ⟨b, w₁, w, rfl, rfl, h⟩
    rw [List.singleton_append]
    split_ifs at h with hnull hnonNull
    · obtain ⟨ht, rfl, hw⟩ := h
      exact hnull ▸ .null hw
    · obtain ⟨ht, rfl, hw⟩ := h
      exact hnonNull ▸ .nonNull hw
    · obtain ⟨rfl, hv⟩ := h
      exact .short (orError_eq_ok.mp hv)
  · rintro (@⟨b, _, hv⟩ | hw | hw)
    · -- the prefixes are not value types of one byte
      have hnull : b ≠ 0x63 := by
        rintro rfl
        cases hv
      have hnonNull : b ≠ 0x64 := by
        rintro rfl
        cases hv
      refine ⟨b, [b], [], rfl, rfl, ?_⟩
      beta_reduce
      rw [if_neg hnull, if_neg hnonNull]
      exact ⟨rfl, orError_eq_ok.mpr hv⟩
    · exact ⟨0x63, [0x63], _, rfl, rfl, _, rfl, hw⟩
    · exact ⟨0x64, [0x64], _, rfl, rfl, _, rfl, hw⟩

/-- What a reader returns after a check of what another has read. -/
theorem reads_bind_checked {p : Decoding bytes α} {L : α → List UInt8 → Prop} (hp : ReadsAs p L)
    (f : α → Except DecodeError β) :
    ReadsAs (p >>= fun a => checked (f a)) fun b w => ∃ a, L a w ∧ f a = .ok b := by
  refine (hp.bind fun a => reads_checked (f a)).congr fun b w => ?_
  constructor
  · rintro ⟨a, w₁, w₂, rfl, ha, rfl, hb⟩
    rw [List.append_nil]
    exact ⟨a, ha, hb⟩
  · rintro ⟨a, ha, hb⟩
    exact ⟨a, w, [], (List.append_nil w).symm, ha, rfl, hb⟩

/-- The bytes of a value type that resolves to a value type of the module. -/
def ValTypeBytes (kinds : List CompKind) (v : ValType) (w : List UInt8) : Prop :=
  ∃ raw, RawValTypeBytes raw w ∧ readValType kinds raw = .ok v

theorem ValTypeBytes.ne_nil {kinds : List CompKind} {v : ValType} {w : List UInt8} (h : ValTypeBytes kinds v w) :
    w ≠ [] := by
  obtain ⟨raw, hraw, -⟩ := h
  exact hraw.ne_nil

variable (kinds : List CompKind)

theorem reads_readValType : ReadsAs (@Binary.readValType bytes kinds) (ValTypeBytes kinds) :=
  reads_bind_checked reads_readRawValType _

theorem reads_readValTypes : ReadsAs (@Binary.readValTypes bytes kinds) (VecBytes (ValTypeBytes kinds)) :=
  reads_readVec (reads_readValType kinds) fun _ _ => ValTypeBytes.ne_nil

/-! ## Composite types -/

/-- The byte of a mutability. -/
def mutByte (mutable : Bool) : UInt8 := mutable.toUInt8

theorem reads_readMutability : ReadsAs (@Binary.readMutability bytes) fun m w => w = [mutByte m] := by
  refine (reads_readByte.bind fun b => reads_ensure fun _ => .pure (b != 0)).congr fun m w => ?_
  have hall : ∀ (i : Fin 256) (m : Bool),
      (UInt8.ofFin i ≤ 0x01 ∧ m = (UInt8.ofFin i != 0)) ↔ UInt8.ofFin i = mutByte m := by decide +kernel
  constructor
  · rintro ⟨b, w₁, w₂, rfl, rfl, hb, rfl, rfl⟩
    exact congrArg (fun b => [b]) ((hall b.toFin _).mp ⟨of_decide_eq_true hb, rfl⟩)
  · rintro rfl
    obtain ⟨hle, hm⟩ := (hall (mutByte m).toFin m).mpr rfl
    exact ⟨mutByte m, [mutByte m], [], rfl, rfl, decide_eq_true hle, hm, rfl⟩

/-- The bytes of a storage type. -/
inductive StorageBytes : RawStorageType → List UInt8 → Prop
  | i8 : StorageBytes .i8 [0x78]
  | i16 : StorageBytes .i16 [0x77]
  | val {v w} : RawValTypeBytes v w → StorageBytes (.val v) w

/-- The bytes of a field. -/
inductive FieldBytes : RawFieldType → List UInt8 → Prop
  | mk {st m w} : StorageBytes st w → FieldBytes ⟨st, m⟩ (w ++ [mutByte m])

theorem FieldBytes.ne_nil {f : RawFieldType} {w : List UInt8} (h : FieldBytes f w) : w ≠ [] := by
  obtain ⟨_⟩ := h
  exact List.append_ne_nil_of_right_ne_nil _ (List.cons_ne_nil _ _)

/-- A value type does not begin as a packed type does. -/
theorem RawValTypeBytes.head {v : RawValType} {w : List UInt8} (h : RawValTypeBytes v w) :
    w.head? ≠ some 0x78 ∧ w.head? ≠ some 0x77 := by
  rcases h with hv | _ | _
  · constructor <;>
    · intro hb
      obtain rfl := Option.some.inj hb
      cases hv
  · exact ⟨nofun, nofun⟩
  · exact ⟨nofun, nofun⟩

theorem reads_readFieldType : ReadsAs (@Binary.readFieldType bytes kinds)
    fun f w => ∃ raw, FieldBytes raw w ∧ readFieldType kinds raw = .ok f := by
  have hstorage : ReadsAs (@Binary.readStorageType bytes kinds) fun st w => (st = .i8 ∧ w = [0x78]) ∨
      (st = .i16 ∧ w = [0x77]) ∨ ∃ v, st = .val v ∧ ValTypeBytes kinds v w := by
    have hpacked (st : StorageType) : ReadsAs (do let _ ← readByte; pure st : Decoding bytes StorageType)
        fun st' w => st' = st ∧ ∃ b, w = [b] := by
      refine reads_readByte.bind_pure.congr fun st' w => ?_
      exact ⟨fun ⟨b, hst, hw⟩ => ⟨hst, b, hw⟩, fun ⟨hst, b, hw⟩ => ⟨b, hst, hw⟩⟩
    refine (reads_peekByte (fun b => .ite (hpacked .i8) (.ite (hpacked .i16) (reads_readValType kinds).map))
      fun b st w h => ?_).congr fun st w => ?_
    · split_ifs at h
      · obtain ⟨-, b, rfl⟩ := h
        exact List.cons_ne_nil _ _
      · obtain ⟨-, b, rfl⟩ := h
        exact List.cons_ne_nil _ _
      · obtain ⟨v, -, hv⟩ := h
        exact hv.ne_nil
    · constructor
      · rintro ⟨b, hb, h⟩
        split_ifs at h with h78 h77
        · obtain ⟨rfl, b', rfl⟩ := h
          obtain rfl := Option.some.inj hb
          exact .inl ⟨rfl, by rw [h78]⟩
        · obtain ⟨rfl, b', rfl⟩ := h
          obtain rfl := Option.some.inj hb
          exact .inr (.inl ⟨rfl, by rw [h77]⟩)
        · exact .inr (.inr h)
      · rintro (⟨rfl, rfl⟩ | ⟨rfl, rfl⟩ | ⟨v, rfl, hv⟩)
        · exact ⟨0x78, rfl, rfl, _, rfl⟩
        · exact ⟨0x77, rfl, rfl, _, rfl⟩
        · obtain ⟨b, w, rfl⟩ := List.exists_cons_of_ne_nil hv.ne_nil
          obtain ⟨raw, hraw, -⟩ := id hv
          refine ⟨b, rfl, ?_⟩
          have h78 : b ≠ 0x78 := fun h => hraw.head.1 (congrArg some h)
          have h77 : b ≠ 0x77 := fun h => hraw.head.2 (congrArg some h)
          rw [if_neg h78, if_neg h77]
          exact ⟨v, rfl, hv⟩
  refine (hstorage.bind fun st => reads_readMutability.bind_pure).congr fun f w => ?_
  constructor
  · rintro ⟨st, w₁, w₂, rfl, ⟨rfl, rfl⟩ | ⟨rfl, rfl⟩ | ⟨v, rfl, raw, hraw, hv⟩, m, rfl, rfl⟩
    · exact ⟨⟨.i8, m⟩, .mk .i8, rfl⟩
    · exact ⟨⟨.i16, m⟩, .mk .i16, rfl⟩
    · exact ⟨⟨.val raw, m⟩, .mk (.val hraw), Except.bind_eq_ok.mpr ⟨v, hv, rfl⟩⟩
  · rintro ⟨_, ⟨_ | _ | hraw⟩, hf⟩
    · cases hf
      exact ⟨_, [0x78], _, rfl, .inl ⟨rfl, rfl⟩, _, rfl, rfl⟩
    · cases hf
      exact ⟨_, [0x77], _, rfl, .inr (.inl ⟨rfl, rfl⟩), _, rfl, rfl⟩
    · obtain ⟨v, hv, hf⟩ := Except.bind_eq_ok.mp hf
      cases hf
      exact ⟨_, _, _, rfl, .inr (.inr ⟨v, rfl, _, hraw, hv⟩), _, rfl, rfl⟩

/-- The bytes of a composite type. -/
inductive CompTypeBytes : RawCompType → List UInt8 → Prop
  | func {ps rs w w'} : VecBytes RawValTypeBytes ps w → VecBytes RawValTypeBytes rs w' →
      CompTypeBytes (.func ps rs) (0x60 :: (w ++ w'))
  | struct {fs w} : VecBytes FieldBytes fs w → CompTypeBytes (.struct fs) (0x5f :: w)
  | array {f w} : FieldBytes f w → CompTypeBytes (.array f) (0x5e :: w)

theorem CompTypeBytes.head {ct : RawCompType} {w : List UInt8} (h : CompTypeBytes ct w) :
    ∃ b ∈ [0x60, 0x5f, 0x5e], w.head? = some b := by
  rcases h with _ | _ | _
  · exact ⟨0x60, by decide, rfl⟩
  · exact ⟨0x5f, by decide, rfl⟩
  · exact ⟨0x5e, by decide, rfl⟩

theorem reads_decodeCompType : ReadsAs (@Binary.decodeCompType bytes kinds)
    fun ct w => ∃ raw, CompTypeBytes raw w ∧ decodeCompType kinds raw = .ok ct := by
  have hfields : ReadsAs (do let n ← readVecLen; let fs ← readMany (Binary.readFieldType kinds) n; pure (.struct fs) :
      Decoding bytes CompType) fun ct w => ∃ fs, ct = .struct fs ∧
        ∃ raws, VecBytes FieldBytes raws w ∧ raws.mapM (readFieldType kinds) = .ok fs := by
    rw [← bind_assoc]
    refine (reads_readVec (reads_readFieldType kinds) fun f w h => ?_).bind_pure.congr fun ct w => ?_
    · obtain ⟨raw, hraw, -⟩ := h
      exact hraw.ne_nil
    · exact exists_congr fun fs => and_congr_right fun _ => vecBytes_resolved
  refine (reads_readByte.bind fun b => .ite ((reads_readValTypes kinds).bind fun params =>
    (reads_readValTypes kinds).bind_pure) (.ite hfields (.ite (reads_readFieldType kinds).bind_pure
      (reads_failWith _)))).congr fun ct w => ?_
  constructor
  · rintro ⟨b, w₁, w, rfl, rfl, h⟩
    rw [List.singleton_append]
    split_ifs at h with hfunc hstruct harray
    · obtain ⟨params, w₁, w₂, rfl, hparams, results, rfl, hresults⟩ := h
      obtain ⟨ps, hps, hparams⟩ := vecBytes_resolved.mp hparams
      obtain ⟨rs, hrs, hresults⟩ := vecBytes_resolved.mp hresults
      refine ⟨.func ps rs, hfunc ▸ .func hps hrs, ?_⟩
      exact Except.bind_eq_ok.mpr ⟨params, hparams, Except.bind_eq_ok.mpr ⟨results, hresults, rfl⟩⟩
    · obtain ⟨fs, rfl, raws, hraws, hfs⟩ := h
      exact ⟨.struct raws, hstruct ▸ .struct hraws, Except.bind_eq_ok.mpr ⟨fs, hfs, rfl⟩⟩
    · obtain ⟨f, rfl, raw, hraw, hf⟩ := h
      exact ⟨.array raw, harray ▸ .array hraw, Except.bind_eq_ok.mpr ⟨f, hf, rfl⟩⟩
  · rintro ⟨_, hps | hfs | hf, hct⟩
    · next hrs =>
      obtain ⟨params, hparams, hct⟩ := Except.bind_eq_ok.mp hct
      obtain ⟨results, hresults, hct⟩ := Except.bind_eq_ok.mp hct
      cases hct
      exact ⟨0x60, [0x60], _, rfl, rfl, params, _, _, rfl, vecBytes_resolved.mpr ⟨_, hps, hparams⟩, results, rfl,
        vecBytes_resolved.mpr ⟨_, hrs, hresults⟩⟩
    · obtain ⟨fs, hfields, hct⟩ := Except.bind_eq_ok.mp hct
      cases hct
      exact ⟨0x5f, [0x5f], _, rfl, rfl, fs, rfl, _, hfs, hfields⟩
    · obtain ⟨f, hfield, hct⟩ := Except.bind_eq_ok.mp hct
      cases hct
      exact ⟨0x5e, [0x5e], _, rfl, rfl, f, rfl, _, hf, hfield⟩

/-! ## Sub types -/

/-- The bytes of a list of at most one supertype. -/
inductive SuperBytes : Option ℕ → List UInt8 → Prop
  | none {w} : IndexBytes 0 w → SuperBytes none w
  | some {n w w'} : IndexBytes 1 w → IndexBytes n w' → SuperBytes (some n) (w ++ w')

/-- The bytes in front of the links of a sub type, which say whether the type is final. -/
inductive WrapperBytes : Bool → Option ℕ → List UInt8 → Prop
  | bare : WrapperBytes true none []
  | final {s w} : SuperBytes s w → WrapperBytes true s (0x4f :: w)
  | opened {s w} : SuperBytes s w → WrapperBytes false s (0x50 :: w)

/-- The bytes of a link, if there is one. -/
inductive LinkBytes (tag : UInt8) : Option ℕ → List UInt8 → Prop
  | none : LinkBytes tag none []
  | some {n w} : IndexBytes n w → LinkBytes tag (some n) (tag :: w)

/-- The bytes of a sub type. -/
inductive SubTypeBytes : SubType → List UInt8 → Prop
  | mk {isFinal super describes descriptor comp w w₁ w₂ w₃} : WrapperBytes isFinal super w →
      LinkBytes 0x4c describes w₁ → LinkBytes 0x4d descriptor w₂ → CompTypeBytes comp w₃ →
      SubTypeBytes ⟨isFinal, super, ⟨describes, descriptor⟩, comp⟩ (w ++ (w₁ ++ (w₂ ++ w₃)))

theorem reads_superList : ReadsAs (do
    let ns ← readU32
    checked (ensure (decide (ns ≤ 1)) .badType)
    if ns = 1 then some <$> readU32 else pure none : Decoding bytes (Option ℕ)) SuperBytes := by
  refine (reads_readU32.bind fun ns => reads_ensure fun _ => .ite reads_readU32.map (.pure none)).congr fun s w => ?_
  constructor
  · rintro ⟨ns, w₁, w₂, rfl, hns, hle, h⟩
    split_ifs at h with hone
    · obtain ⟨n, rfl, hn⟩ := h
      exact .some (hone ▸ hns) hn
    · obtain ⟨rfl, rfl⟩ := h
      obtain rfl : ns = 0 := by
        have := of_decide_eq_true hle
        omega
      rw [List.append_nil]
      exact .none hns
  · rintro (hns | ⟨hns, hn⟩)
    · exact ⟨0, w, [], (List.append_nil w).symm, hns, rfl, rfl, rfl⟩
    · exact ⟨1, _, _, rfl, hns, rfl, _, rfl, hn⟩

theorem exact_readSuper (tag : UInt8) : ReadsAs (@readSuper bytes tag) fun s w =>
    if tag = 0x50 ∨ tag = 0x4f then ∃ b w', w = b :: w' ∧ SuperBytes s w' else s = none ∧ w = [] := by
  refine Consumes.congr (.ite (reads_readByte.bind fun _ => reads_superList) (.pure none)) fun s w => ?_
  split_ifs
  · constructor
    · rintro ⟨b, _, w', rfl, rfl, h⟩
      exact ⟨b, w', rfl, h⟩
    · rintro ⟨b, w', rfl, h⟩
      exact ⟨b, [b], w', rfl, rfl, h⟩
  · exact Iff.rfl

/-- A link is there just in case its tag is next. -/
theorem exact_readLink (tag : UInt8) : ReadsExactly (@readLink bytes tag) fun n w r =>
    LinkBytes tag n w ∧ ∃ b, (w ++ r).head? = some b ∧ (n = none → b ≠ tag) := by
  intro s
  refine ((exact_peekByte s).bind fun b s' _ => Consumes.ite (c := b = tag) (reads_readByte.bind fun _ =>
    reads_readU32.map (f := some)) (.pure none) s').congr fun n w r _ => ?_
  constructor
  · rintro ⟨b, _, w, rfl, ⟨rfl, hb⟩, h⟩
    split_ifs at h with htag
    · obtain ⟨b', _, w', rfl, rfl, n, rfl, hn⟩ := h
      obtain rfl := Option.some.inj hb
      exact ⟨htag ▸ .some hn, _, rfl, nofun⟩
    · obtain ⟨rfl, rfl⟩ := h
      exact ⟨.none, b, hb, fun _ => htag⟩
  · rintro ⟨_ | hn, b, hb, htag⟩
    · exact ⟨b, [], [], rfl, ⟨rfl, hb⟩, (if_neg (htag rfl)).mpr ⟨rfl, rfl⟩⟩
    · obtain rfl := Option.some.inj hb
      exact ⟨tag, [], _, rfl, ⟨rfl, rfl⟩, (if_pos rfl).mpr ⟨tag, [tag], _, rfl, rfl, _, rfl, hn⟩⟩

/-- The parts in front of a composite type are told by their first bytes: what is left out is not next. -/
structure PrefixBytes (p : SubPrefix) (w₁ w₂ w₃ r : List UInt8) : Prop where
  wrapper : WrapperBytes p.isFinal p.superIdx w₁
  describes : LinkBytes 0x4c p.links.describes w₂
  descriptor : LinkBytes 0x4d p.links.descriptor w₃
  bare : ∃ b, (w₁ ++ (w₂ ++ (w₃ ++ r))).head? = some b ∧ (w₁ = [] → b ≠ 0x50 ∧ b ≠ 0x4f)
  describesNext : ∃ b, (w₂ ++ (w₃ ++ r)).head? = some b ∧ (p.links.describes = none → b ≠ 0x4c)
  descriptorNext : ∃ b, (w₃ ++ r).head? = some b ∧ (p.links.descriptor = none → b ≠ 0x4d)

/-- What the first byte says of a wrapper. -/
theorem WrapperBytes.of_head {isFinal : Bool} {superIdx : Option ℕ} {w r : List UInt8} {tag : UInt8}
    (h : WrapperBytes isFinal superIdx w) (htag : (w ++ r).head? = some tag) (hbare : w = [] → tag ≠ 0x50 ∧ tag ≠ 0x4f) :
    (if tag = 0x50 ∨ tag = 0x4f then ∃ b w', w = b :: w' ∧ SuperBytes superIdx w' else superIdx = none ∧ w = []) ∧
      isFinal = (tag != 0x50) := by
  rcases h with _ | hsuper | hsuper
  · obtain ⟨hopened, hfinal⟩ := hbare rfl
    rw [if_neg (not_or.mpr ⟨hopened, hfinal⟩)]
    exact ⟨⟨rfl, rfl⟩, (bne_iff_ne.mpr hopened).symm⟩
  · obtain rfl := Option.some.inj htag
    exact ⟨⟨_, _, rfl, hsuper⟩, rfl⟩
  · obtain rfl := Option.some.inj htag
    exact ⟨⟨_, _, rfl, hsuper⟩, rfl⟩

theorem exact_readSubPrefix : ReadsExactly (@readSubPrefix bytes) fun p w r =>
    ∃ w₁ w₂ w₃, w = w₁ ++ (w₂ ++ w₃) ∧ PrefixBytes p w₁ w₂ w₃ r := by
  intro s
  refine ((exact_peekByte s).bind fun tag s₁ _ => (exact_readSuper tag s₁).bind fun superIdx s₂ _ =>
    (exact_readLink 0x4c s₂).bind fun describes s₃ _ => (exact_readLink 0x4d s₃).bind fun descriptor s₄ _ =>
      .pure _).congr fun p w r _ => ?_
  constructor
  · rintro ⟨tag, _, _, rfl, ⟨rfl, htag⟩, superIdx, w₁, _, rfl, hsuper, describes, w₂, _, rfl, ⟨hdescribes, hnext⟩,
      descriptor, w₃, _, rfl, ⟨hdescriptor, hnext'⟩, rfl, rfl⟩
    simp only [List.nil_append, List.append_nil, List.append_assoc] at htag hnext hnext'
    refine ⟨w₁, w₂, w₃, by simp only [List.nil_append, List.append_nil], ?_, hdescribes, hdescriptor, ⟨tag, htag, ?_⟩,
      hnext, hnext'⟩
    · split_ifs at hsuper with hwrapped
      · obtain ⟨b, w', rfl, hsuper⟩ := hsuper
        obtain rfl := Option.some.inj htag
        rcases hwrapped with rfl | rfl
        · exact .opened hsuper
        · exact .final hsuper
      · obtain ⟨rfl, rfl⟩ := hsuper
        have hfinal : (tag != 0x50) = true := bne_iff_ne.mpr fun h => hwrapped (.inl h)
        change WrapperBytes (tag != 0x50) none []
        rw [hfinal]
        exact .bare
    · rintro rfl
      split_ifs at hsuper with hwrapped
      · obtain ⟨b, w', h, -⟩ := hsuper
        cases h
      · exact not_or.mp hwrapped
  · rintro ⟨w₁, w₂, w₃, rfl, h⟩
    obtain ⟨tag, htag, hbare⟩ := h.bare
    obtain ⟨hsuper, hfinal⟩ := h.wrapper.of_head htag hbare
    refine ⟨tag, [], _, rfl, ⟨rfl, ?_⟩, p.superIdx, w₁, _, rfl, hsuper, p.links.describes, w₂, _, rfl,
      ⟨h.describes, ?_⟩, p.links.descriptor, w₃, [], (List.append_nil w₃).symm, ⟨h.descriptor, h.descriptorNext⟩, ?_, rfl⟩
    · change (w₁ ++ (w₂ ++ w₃) ++ r).head? = some tag
      simpa only [List.append_assoc] using htag
    · simpa only [List.append_assoc] using h.describesNext
    · rw [← hfinal]

/-- A composite type follows its links, and is told from them by its first byte. -/
theorem head?_link {tag : UInt8} {n : Option ℕ} {w w' : List UInt8} (h : LinkBytes tag n w) {bs : List UInt8}
    (hhead : ∃ b ∈ bs, w'.head? = some b) :
    ∃ b ∈ tag :: bs, (w ++ w').head? = some b ∧ (n = none → b ∈ bs) := by
  rcases h with _ | _
  · obtain ⟨b, hb, hhead⟩ := hhead
    exact ⟨b, List.mem_cons_of_mem _ hb, hhead, fun _ => hb⟩
  · exact ⟨tag, List.mem_cons_self, rfl, nofun⟩

/-- In front of a composite type, the parts are told by their first bytes. -/
theorem PrefixBytes.of_compType {p : SubPrefix} {w₁ w₂ w₃ w₄ r : List UInt8} {comp : RawCompType}
    (hwrapper : WrapperBytes p.isFinal p.superIdx w₁) (hdescribes : LinkBytes 0x4c p.links.describes w₂)
    (hdescriptor : LinkBytes 0x4d p.links.descriptor w₃) (hcomp : CompTypeBytes comp w₄) :
    PrefixBytes p w₁ w₂ w₃ (w₄ ++ r) := by
  have hhead₀ : ∃ b ∈ [0x60, 0x5f, 0x5e], (w₄ ++ r).head? = some b := by
    obtain ⟨b, hb, hhead⟩ := hcomp.head
    exact ⟨b, hb, by rw [List.head?_append, hhead]; rfl⟩
  obtain ⟨b, hb, hhead, hnone⟩ := head?_link hdescriptor hhead₀
  obtain ⟨b', hb', hhead', hnone'⟩ := head?_link hdescribes ⟨b, hb, hhead⟩
  refine ⟨hwrapper, hdescribes, hdescriptor, ?_, ⟨b', hhead', fun h => ?_⟩, ⟨b, hhead, fun h => ?_⟩⟩
  · generalize p.isFinal = isFinal, p.superIdx = superIdx at hwrapper
    rcases hwrapper with _ | _ | _
    · refine ⟨b', hhead', fun _ => ?_⟩
      constructor <;>
      · rintro rfl
        exact absurd hb' (by decide)
    · exact ⟨0x4f, rfl, nofun⟩
    · exact ⟨0x50, rfl, nofun⟩
  · rintro rfl
    exact absurd (hnone' h) (by decide)
  · rintro rfl
    exact absurd (hnone h) (by decide)

theorem reads_decodeSubType (ts : TypeSection) : ReadsAs (@Binary.decodeSubType bytes kinds ts)
    fun ts' w => ∃ st, SubTypeBytes st w ∧ decodeSubType kinds ts st = .ok ts' := by
  have hrest (p : SubPrefix) := @reads_ensure bytes _
    (p.superIdx.all fun s => decide (s < ts.compTypes.length)) .badType _ _ fun _ =>
      (@reads_decodeCompType bytes kinds).bind_pure (f := fun comp => { ts with
        compTypes := ts.compTypes ++ [comp]
        supertypes := ts.supertypes ++ [p.superIdx]
        typeFinals := ts.typeFinals ++ [p.isFinal]
        typeLinks := ts.typeLinks ++ [p.links] })
  intro s
  refine ((exact_readSubPrefix s).bind fun p s' _ => hrest p s').congr fun ts' w r _ => ?_
  constructor
  · rintro ⟨p, _, w₄, rfl, ⟨w₁, w₂, w₃, rfl, h⟩, hsuper, comp, rfl, raw, hraw, hcomp⟩
    refine ⟨⟨p.isFinal, p.superIdx, p.links, raw⟩, ?_, ?_⟩
    · simp only [List.append_assoc]
      exact .mk h.wrapper h.describes h.descriptor hraw
    · exact Except.bind_eq_ok.mpr ⟨⟨⟩, ensure_eq_ok.mpr hsuper, Except.bind_eq_ok.mpr ⟨comp, hcomp, rfl⟩⟩
  · rintro ⟨_, ⟨hwrapper, hdescribes, hdescriptor, hraw⟩, hts⟩
    obtain ⟨_, hsuper, hts⟩ := Except.bind_eq_ok.mp hts
    obtain ⟨comp, hcomp, hts⟩ := Except.bind_eq_ok.mp hts
    cases hts
    refine ⟨⟨_, _, ⟨_, _⟩⟩, _ ++ (_ ++ _), _, ?_, ⟨_, _, _, rfl, .of_compType hwrapper hdescribes hdescriptor hraw⟩,
      ensure_eq_ok.mp hsuper, comp, rfl, _, hraw, hcomp⟩
    simp only [List.append_assoc]

/-! ## The section -/

/-- The bytes of a rec group: a type alone, or a number and as many types. -/
inductive RecGroupBytes : List SubType → List UInt8 → Prop
  | alone {st w} : SubTypeBytes st w → RecGroupBytes [st] w
  | group {g w w'} : IndexBytes g.length w → Words SubTypeBytes g w' → RecGroupBytes g (0x4e :: (w ++ w'))

/-- The bytes of a type section. -/
def TypeSectionBytes (rts : List (List SubType)) (w : List UInt8) : Prop :=
  ∃ w₁ w₂, w = w₁ ++ w₂ ∧ IndexBytes rts.length w₁ ∧ Words RecGroupBytes rts w₂

theorem SubTypeBytes.head {st : SubType} {w : List UInt8} (h : SubTypeBytes st w) :
    ∃ b ∈ [0x50, 0x4f, 0x4c, 0x4d, 0x60, 0x5f, 0x5e], w.head? = some b := by
  obtain ⟨hwrapper, hdescribes, hdescriptor, hcomp⟩ := h
  obtain ⟨b, hb, hhead, -⟩ := head?_link hdescriptor hcomp.head
  obtain ⟨b', hb', hhead', -⟩ := head?_link hdescribes ⟨b, hb, hhead⟩
  rcases hwrapper with _ | _ | _
  · exact ⟨b', List.mem_cons_of_mem _ (List.mem_cons_of_mem _ hb'), hhead'⟩
  · exact ⟨0x4f, by decide, rfl⟩
  · exact ⟨0x50, by decide, rfl⟩

/-- A type alone does not begin as a group does. -/
theorem SubTypeBytes.alone {st : SubType} {w : List UInt8} (h : SubTypeBytes st w) :
    ∃ b, w.head? = some b ∧ b ≠ 0x4e ∧ w ≠ [] := by
  obtain ⟨b, hb, hhead⟩ := h.head
  refine ⟨b, hhead, ?_, ?_⟩
  · rintro rfl
    exact absurd hb (by decide)
  · rintro rfl
    cases hhead

theorem reads_decodeGroupTypes (ts : TypeSection) : ReadsAs (@Binary.decodeGroupTypes bytes kinds ts)
    fun ts' w => ∃ g, RecGroupBytes g w ∧ g.foldlM (decodeSubType kinds) ts = .ok ts' := by
  have hgroup : ReadsAs (do let _ ← readByte; let k ← readU32; times (Binary.decodeSubType kinds) k ts :
      Decoding bytes TypeSection) fun ts' w => ∃ b w₁ g w₂, w = b :: (w₁ ++ w₂) ∧ IndexBytes g.length w₁ ∧
        Words SubTypeBytes g w₂ ∧ g.foldlM (decodeSubType kinds) ts = .ok ts' := by
    refine (reads_readByte.bind fun _ => reads_readU32.bind fun k => reads_times (reads_decodeSubType kinds) k ts).congr
      fun ts' w => ?_
    constructor
    · rintro ⟨b, _, _, rfl, rfl, _, w₁, w₂, rfl, hk, g, rfl, hg, hts⟩
      exact ⟨b, w₁, g, w₂, rfl, hk, hg, hts⟩
    · rintro ⟨b, w₁, g, w₂, rfl, hk, hg, hts⟩
      exact ⟨b, [b], _, rfl, rfl, _, w₁, w₂, rfl, hk, g, rfl, hg, hts⟩
  refine (reads_peekByte (fun b => .ite hgroup (reads_decodeSubType kinds ts)) fun b ts' w h => ?_).congr fun ts' w => ?_
  · split_ifs at h
    · obtain ⟨b, w₁, g, w₂, rfl, -⟩ := h
      exact List.cons_ne_nil _ _
    · obtain ⟨st, hst, -⟩ := h
      obtain ⟨-, -, -, hne⟩ := hst.alone
      exact hne
  · constructor
    · rintro ⟨b, hb, h⟩
      split_ifs at h with hmany
      · obtain ⟨b, w₁, g, w₂, rfl, hk, hg, hts⟩ := h
        obtain rfl := Option.some.inj hb
        exact ⟨g, hmany ▸ .group hk hg, hts⟩
      · obtain ⟨st, hst, hts⟩ := h
        exact ⟨[st], .alone hst, by rw [List.foldlM_cons, hts]; rfl⟩
    · rintro ⟨_, hst | ⟨hk, hg⟩, hts⟩
      · obtain ⟨b, hb, hne, -⟩ := hst.alone
        rw [List.foldlM_cons, Except.bind_eq_ok] at hts
        obtain ⟨ts₁, hts, hnil⟩ := hts
        cases hnil
        exact ⟨b, hb, (if_neg hne).mpr ⟨_, hst, hts⟩⟩
      · exact ⟨0x4e, rfl, (if_pos rfl).mpr ⟨0x4e, _, _, _, rfl, hk, hg, hts⟩⟩

theorem reads_decodeRecGroup (ts : TypeSection) : ReadsAs (@Binary.decodeRecGroup bytes kinds ts)
    fun ts' w => ∃ g, RecGroupBytes g w ∧ decodeRecGroup kinds ts g = .ok ts' := by
  refine (reads_decodeGroupTypes kinds ts).bind_pure.congr fun ts' w => ?_
  constructor
  · rintro ⟨ts₁, rfl, g, hg, hts⟩
    exact ⟨g, hg, Except.bind_eq_ok.mpr ⟨ts₁, hts, rfl⟩⟩
  · rintro ⟨g, hg, hts⟩
    obtain ⟨ts₁, hfold, hpure⟩ := Except.bind_eq_ok.mp hts
    cases hpure
    exact ⟨ts₁, rfl, g, hg, hfold⟩

variable {kinds}

/-- A composite type that is resolved keeps its kind. -/
theorem kind_of_decodeCompType {raw : RawCompType} {ct : CompType} (h : decodeCompType kinds raw = .ok ct) :
    ct.kind = raw.kind := by
  cases raw with
  | func ps rs =>
    obtain ⟨_, -, h⟩ := Except.bind_eq_ok.mp h
    obtain ⟨_, -, h⟩ := Except.bind_eq_ok.mp h
    cases h
    rfl
  | struct fs =>
    obtain ⟨_, -, h⟩ := Except.bind_eq_ok.mp h
    cases h
    rfl
  | array f =>
    obtain ⟨_, -, h⟩ := Except.bind_eq_ok.mp h
    cases h
    rfl

theorem kinds_of_decodeSubTypes {g : List SubType} {ts ts' : TypeSection}
    (h : g.foldlM (decodeSubType kinds) ts = .ok ts') :
    ts'.compTypes.map CompType.kind = ts.compTypes.map CompType.kind ++ g.map (·.comp.kind) := by
  induction g generalizing ts with
  | nil =>
    cases h
    exact (List.append_nil _).symm
  | cons st g ih =>
    rw [List.foldlM_cons, Except.bind_eq_ok] at h
    obtain ⟨ts₁, hone, hrest⟩ := h
    obtain ⟨_, -, hone⟩ := Except.bind_eq_ok.mp hone
    obtain ⟨comp, hcomp, hone⟩ := Except.bind_eq_ok.mp hone
    cases hone
    rw [ih hrest, List.map_append, List.map_singleton, kind_of_decodeCompType hcomp, List.append_assoc]
    rfl

theorem kinds_of_decodeRecGroups {rts : List (List SubType)} {ts ts' : TypeSection}
    (h : rts.foldlM (decodeRecGroup kinds) ts = .ok ts') :
    ts'.compTypes.map CompType.kind = ts.compTypes.map CompType.kind ++ rts.flatten.map (·.comp.kind) := by
  induction rts generalizing ts with
  | nil =>
    cases h
    exact (List.append_nil _).symm
  | cons g rts ih =>
    rw [List.foldlM_cons, Except.bind_eq_ok] at h
    obtain ⟨ts₁, hone, hrest⟩ := h
    obtain ⟨ts₂, hg, hpure⟩ := Except.bind_eq_ok.mp hone
    cases hpure
    have hgroup := kinds_of_decodeSubTypes hg
    rw [ih hrest, List.flatten_cons, List.map_append, ← List.append_assoc]
    exact congrArg (· ++ _) hgroup

/-- Reading ahead with success reads nothing. -/
theorem readAhead_eq_ok {p : Decoding bytes α} {a : α} {s s' : Reader bytes} :
    readAhead p s = .ok (a, s') ↔ s' = s ∧ ∃ s'', p s = .ok (a, s'') := by
  unfold readAhead
  split
  · next b s'' h =>
    rw [h]
    constructor
    · rintro ⟨⟩
      exact ⟨rfl, s'', rfl⟩
    · rintro ⟨rfl, _, ⟨⟩⟩
      rfl
  · next e h =>
    rw [h]
    exact iff_of_false nofun fun ⟨_, _, h⟩ => nomatch h

theorem ends_readAhead : Ends none (@readAhead bytes _ prescanTypeKinds) := by
  intro s hfail
  unfold readAhead at hfail
  split at hfail
  · cases hfail
  · next e h =>
    cases hfail
    exact ends_prescanTypeKinds s h

/-- The section after the pass before. -/
theorem reads_recGroups (kinds : List CompKind) : ReadsAs (do
    let nrec ← readU32
    let ts ← times (Binary.decodeRecGroup kinds) nrec {}
    pure { ts with typeCanon := canonicalize ts } : Decoding bytes TypeSection) fun ts w =>
      ∃ rts ts', TypeSectionBytes rts w ∧ rts.foldlM (decodeRecGroup kinds) {} = .ok ts' ∧
        ts = { ts' with typeCanon := canonicalize ts' } := by
  refine (reads_readU32.bind fun n => (reads_times (reads_decodeRecGroup kinds) n {}).bind_pure).congr fun ts w => ?_
  constructor
  · rintro ⟨n, w₁, w₂, rfl, hn, ts', rfl, rts, rfl, hrts, hts⟩
    exact ⟨rts, ts', ⟨w₁, w₂, rfl, hn, hrts⟩, hts, rfl⟩
  · rintro ⟨rts, ts', ⟨w₁, w₂, rfl, hn, hrts⟩, hts, rfl⟩
    exact ⟨rts.length, w₁, w₂, rfl, hn, ts', rfl, rts, rfl, hrts, hts⟩

/-- The decoder of the type section reads the bytes of some rec groups, and returns what they come to. -/
theorem reads_decodeTypeSection : ReadsAs (@Binary.decodeTypeSection bytes)
    fun ts w => ∃ rts, TypeSectionBytes rts w ∧ decodeTypeSection rts = .ok ts := by
  have hends : Ends none (@Binary.decodeTypeSection bytes) :=
    ends_readAhead.bind fun kinds => .of_exact (reads_recGroups kinds)
  intro s
  refine ⟨?_, ?_, hends s⟩
  · intro ts s' hok
    obtain ⟨kinds, s₁, hahead, hrest⟩ := bind_eq_ok.mp hok
    obtain ⟨heq, s₂, hscan⟩ := readAhead_eq_ok.mp hahead
    rw [heq] at hrest
    obtain ⟨w, hinput, rts, ts', hrts, hts, rfl⟩ := (reads_recGroups kinds s).sound _ _ hrest
    refine ⟨w, hinput, rts, hrts, Except.bind_eq_ok.mpr ⟨ts', ?_, rfl⟩⟩
    -- the pass before has recorded the kinds of the types that were decoded
    obtain ⟨ks, hscan', hks⟩ := follows_prescanTypeKinds s _ _ hok
    obtain ⟨rfl, -⟩ := Prod.mk.inj (Except.ok.inj (hscan.symm.trans hscan'))
    have hkinds := kinds_of_decodeRecGroups hts
    rw [List.map_nil, List.nil_append] at hkinds
    rwa [← hkinds, ← hks]
  · rintro ts w r hinput ⟨rts, hrts, hts⟩
    obtain ⟨ts', hfold, hpure⟩ := Except.bind_eq_ok.mp hts
    rw [Except.pure_eq_ok] at hpure
    have hread := (reads_recGroups (rts.flatten.map (·.comp.kind)) s).complete ts w r hinput
    beta_reduce at hread
    obtain ⟨s', hrest, hs'⟩ := hread ⟨rts, ts', hrts, hfold, hpure.symm⟩
    refine ⟨s', bind_eq_ok.mpr ⟨_, s, readAhead_eq_ok.mpr ⟨rfl, s', ?_⟩, hrest⟩, hs'⟩
    -- with the kinds of the section the decoder succeeds, and the pass before follows it
    obtain ⟨n, s₁, hn, hrest⟩ := bind_eq_ok.mp hrest
    obtain ⟨ts₁, s₂, htimes, hrest⟩ := bind_eq_ok.mp hrest
    obtain ⟨heq, rfl⟩ := pure_eq_ok.mp hrest
    obtain ⟨ks, hscan, hks⟩ := follows_times (follows_scanRecGroup _) n (s := {}) (t := []) rfl s₁ ts₁ s₂ htimes
    have hcomp : ts₁.compTypes = ts'.compTypes := congrArg (·.compTypes) (heq.trans hpure.symm)
    have hkinds := kinds_of_decodeRecGroups hfold
    rw [List.map_nil, List.nil_append] at hkinds
    rw [KindsOf, hcomp, hkinds] at hks
    exact hks ▸ bind_eq_ok.mpr ⟨n, s₁, hn, hscan⟩

end Wasmrt
