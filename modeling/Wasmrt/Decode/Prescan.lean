import Wasmrt.Decode.TypeBytes

/-!
# The two passes over the type section

The decoder of the type section runs a pass before, which records the kind of each type so that a reference may be read
before the type it names. The pass skips what the decoder reads, by readers of its own.

## Main results

* `follows_scanCompType`, `follows_scanSubType`, `follows_scanRecGroup`: where the decoder reads a part of the section,
  the pass before skips the same bytes.
* `passes_agree`: so it does for the whole section, with the kinds of the types that are decoded.
-/

namespace Wasmrt

open Recognizer

variable {bytes : List UInt8} {α : Type}

/-! ## Loops and checks -/

theorem follows_times {σ τ : Type} {rel : σ → τ → Prop} {f : σ → Decoding bytes σ} {g : τ → Decoding bytes τ}
    (h : ∀ s t, rel s t → Follows (f s) (g t) rel) (n : ℕ) {s : σ} {t : τ} (hst : rel s t) :
    Follows (times f n s) (times g n t) rel := by
  induction n generalizing s t with
  | zero => exact .pure hst
  | succ n ih => exact (h s t hst).bind fun s' t' hst' => ih hst'

/-- A vector is skipped entry by entry. -/
theorem follows_readMany {p : Decoding bytes α} {q : Decoding bytes Unit} (h : Follows p q fun _ _ => True) (n : ℕ) :
    Follows (readMany p n) (times (fun _ => q) n ()) fun _ _ => True := by
  induction n with
  | zero => exact .pure trivial
  | succ n ih => exact h.bind fun _ _ _ => ih.bind_pure fun _ _ _ => trivial

theorem checked_still (x : Except DecodeError α) (r : Reader bytes) (a : α) (r' : Reader bytes)
    (h : checked x r = .ok (a, r')) : r' = r := by
  cases x <;> cases h
  rfl

theorem cursor_still (r : Reader bytes) (a r' : Reader bytes) (h : cursor r = .ok (a, r')) : r' = r := by
  cases h
  rfl

/-- The decoder checks what the pass before does not. -/
theorem follows_checked {β : Type} {x : Except DecodeError α} {f : α → Decoding bytes β} {γ : Type} {q : Decoding bytes γ}
    {out : β → γ → Prop} (h : ∀ a, Follows (f a) q out) : Follows (checked x >>= f) q out :=
  .of_still (checked_still x) fun a _ => h a

/-- The length of a vector is read as a number. -/
theorem follows_readVecLen : Follows (@readVecLen bytes) readU32 Eq := by
  refine (Follows.refl readU32).bind_still ?_
  rintro n _ r n' r' rfl hok
  obtain ⟨_, r₁, hcursor, hok⟩ := bind_eq_ok.mp hok
  obtain ⟨_, r₂, hcheck, hok⟩ := bind_eq_ok.mp hok
  obtain ⟨rfl, rfl⟩ := pure_eq_ok.mp hok
  exact ⟨(checked_still _ _ _ _ hcheck).trans (cursor_still _ _ _ hcursor), rfl⟩

/-! ## Types -/

theorem follows_skipRawValType : Follows (@readRawValType bytes) skipValType fun _ _ => True := by
  refine (Follows.refl readByte).bind ?_
  rintro b _ rfl
  have hheap (n : Bool) : Follows (RawValType.ref n <$> asValType readHeapType)
      (do let _ ← asValType readHeapType; pure () : Decoding bytes Unit) fun _ _ => True := by
    have hskip : Follows (asValType readHeapType) (do let _ ← asValType readHeapType; pure () : Decoding bytes Unit)
      fun _ _ => True := (Follows.refl _).bind_pure_right fun _ _ _ => trivial
    exact hskip.map fun _ _ _ => trivial
  by_cases h63 : b = 0x63
  · rw [if_pos h63, if_pos (.inl h63)]
    exact hheap true
  · rw [if_neg h63]
    by_cases h64 : b = 0x64
    · rw [if_pos h64, if_pos (.inr h64)]
      exact hheap false
    · rw [if_neg h64, if_neg (not_or.mpr ⟨h63, h64⟩)]
      intro r raw r' hok
      obtain rfl := checked_still _ _ _ _ hok
      exact ⟨(), rfl, trivial⟩

theorem follows_skipValType (kinds : List CompKind) :
    Follows (@Binary.readValType bytes kinds) skipValType fun _ _ => True :=
  follows_skipRawValType.bind_still fun _ _ r _ _ _ h => ⟨checked_still _ r _ _ h, trivial⟩

theorem follows_skipValTypeVec (kinds : List CompKind) :
    Follows (@Binary.readValTypes bytes kinds) skipValTypeVec fun _ _ => True := by
  refine follows_readVecLen.bind ?_
  rintro n _ rfl
  exact follows_readMany (follows_skipValType kinds) n

theorem follows_skipStorageType (kinds : List CompKind) :
    Follows (@Binary.readStorageType bytes kinds) skipStorageType fun _ _ => True := by
  refine (Follows.refl peekByte).bind ?_
  rintro b _ rfl
  have hpacked (st : StorageType) : Follows (do let _ ← readByte; pure st : Decoding bytes StorageType)
      (do let _ ← readByte; pure ()) fun _ _ => True :=
    (Follows.refl readByte).bind fun _ _ _ => .pure trivial
  by_cases h78 : b = 0x78
  · rw [if_pos h78, if_pos (.inr h78)]
    exact hpacked .i8
  · rw [if_neg h78]
    by_cases h77 : b = 0x77
    · rw [if_pos h77, if_pos (.inl h77)]
      exact hpacked .i16
    · rw [if_neg h77, if_neg (not_or.mpr ⟨h77, h78⟩)]
      exact (follows_skipValType kinds).map fun _ _ _ => trivial

theorem follows_skipFieldType (kinds : List CompKind) :
    Follows (@Binary.readFieldType bytes kinds) skipFieldType fun _ _ => True := by
  refine (follows_skipStorageType kinds).bind fun storage _ _ => ?_
  have hmutable : Follows (@Binary.readMutability bytes) readByte fun _ _ => True := by
    rw [← bind_pure readByte]
    exact (Follows.refl readByte).bind fun _ _ _ => follows_checked fun _ => .pure trivial
  have hskip : Follows (@Binary.readMutability bytes) (do let _ ← readByte; pure ()) fun _ _ => True :=
    hmutable.bind_pure_right fun _ _ _ => trivial
  exact hskip.bind_pure fun _ _ _ => trivial

theorem follows_scanCompType (kinds ks : List CompKind) :
    Follows (@Binary.decodeCompType bytes kinds) (scanCompType ks) fun ct ks' => ks' = ks ++ [ct.kind] := by
  refine (Follows.refl readByte).bind ?_
  rintro b _ rfl
  refine .ite ?_ (.ite ?_ (.ite ?_ .fail))
  · refine (follows_skipValTypeVec kinds).bind fun _ _ _ => (follows_skipValTypeVec kinds).bind fun _ _ _ => ?_
    exact .pure rfl
  · refine follows_readVecLen.bind ?_
    rintro n _ rfl
    exact (follows_readMany (follows_skipFieldType kinds) n).bind fun _ _ _ => .pure rfl
  · exact (follows_skipFieldType kinds).bind fun _ _ _ => .pure rfl

/-! ## The section -/

/-- The kinds that the pass before has recorded are those of the types decoded so far. -/
def KindsOf (ts : TypeSection) (ks : List CompKind) : Prop := ks = ts.compTypes.map CompType.kind

theorem follows_scanSubType (kinds : List CompKind) (ts : TypeSection) (ks : List CompKind) (h : KindsOf ts ks) :
    Follows (@Binary.decodeSubType bytes kinds ts) (scanSubType ks) KindsOf := by
  refine (Follows.refl readSubPrefix).bind fun p _ _ => follows_checked fun _ => ?_
  refine (follows_scanCompType kinds ks).bind_pure ?_
  rintro ct _ rfl
  rw [KindsOf, List.map_append, ← h]
  rfl

theorem follows_scanRecGroup (kinds : List CompKind) (ts : TypeSection) (ks : List CompKind) (h : KindsOf ts ks) :
    Follows (@Binary.decodeRecGroup bytes kinds ts) (scanRecGroup ks) KindsOf := by
  have htypes : Follows (@Binary.decodeGroupTypes bytes kinds ts) (scanRecGroup ks) KindsOf := by
    refine (Follows.refl peekByte).bind ?_
    rintro b _ rfl
    refine .ite ?_ (follows_scanSubType kinds ts ks h)
    refine (Follows.refl readByte).bind fun _ _ _ => (Follows.refl readU32).bind ?_
    rintro k _ rfl
    exact follows_times (follows_scanSubType kinds) k h
  exact htypes.bind_pure fun _ _ hkinds => hkinds

theorem readAhead_still {p : Decoding bytes α} (r : Reader bytes) (a : α) (r' : Reader bytes)
    (h : readAhead p r = .ok (a, r')) : r' = r := by
  unfold readAhead at h
  split at h <;> cases h
  rfl

theorem follows_prescanTypeKinds : Follows (@Binary.decodeTypeSection bytes) prescanTypeKinds KindsOf := by
  refine .of_still readAhead_still fun kinds _ => (Follows.refl readU32).bind ?_
  rintro nrec _ rfl
  exact (follows_times (follows_scanRecGroup kinds) nrec rfl).bind_pure fun _ _ hkinds => hkinds

/-! ## The pass before ends -/

theorem ends_checked (x : Except DecodeError α) : Ends none (@checked bytes α x) := .of_exact (exact_checked x)

theorem ends_readByte : Ends none (@readByte bytes) := .of_exact exact_readByte

theorem ends_peekByte : Ends none (@peekByte bytes) := .of_exact exact_peekByte

theorem ends_readU32 : Ends none (@readU32 bytes) := (Ends.of_exact exact_readVarU32).map

theorem ends_times {σ : Type} {step : σ → Decoding bytes σ} (h : ∀ s, Ends none (step s)) (n : ℕ) (s : σ) :
    Ends none (times step n s) := by
  induction n generalizing s with
  | zero => exact .pure s
  | succ n ih => exact (h s).bind ih

theorem ends_readHeapType : Ends none (@readHeapType bytes) := by
  refine (Ends.of_exact exact_readVarS33).map.bind fun v => .ite ?_ (.ite ?_ (ends_checked _))
  · exact (ends_checked _).bind fun _ => .pure _
  · exact ends_readU32.bind fun ti => (ends_checked _).bind fun _ => .pure _

theorem ends_asValType {p : Decoding bytes α} (h : Ends none p) : Ends none (asValType p) := by
  intro r hfail
  unfold asValType at hfail
  split at hfail
  · cases hfail
  · exact h r hfail

theorem ends_skipValType : Ends none (@skipValType bytes) :=
  ends_readByte.bind fun _ => .ite ((ends_asValType ends_readHeapType).bind fun _ => .pure _) (.pure _)

theorem ends_skipValTypeVec : Ends none (@skipValTypeVec bytes) :=
  ends_readU32.bind fun n => ends_times (fun _ => ends_skipValType) n ()

theorem ends_skipFieldType : Ends none (@skipFieldType bytes) := by
  refine Ends.bind ?_ fun _ => ends_readByte.bind fun _ => .pure _
  exact ends_peekByte.bind fun b => .ite (ends_readByte.bind fun _ => .pure _) ends_skipValType

theorem ends_scanCompType (ks : List CompKind) : Ends none (@scanCompType bytes ks) := by
  refine ends_readByte.bind fun b => .ite ?_ (.ite ?_ (.ite ?_ ?_))
  · exact ends_skipValTypeVec.bind fun _ => ends_skipValTypeVec.bind fun _ => .pure _
  · exact ends_readU32.bind fun n => (ends_times (fun _ => ends_skipFieldType) n ()).bind fun _ => .pure _
  · exact ends_skipFieldType.bind fun _ => .pure _
  · exact nofun

theorem ends_readSubPrefix : Ends none (@readSubPrefix bytes) := by
  have hlink (tag : UInt8) : Ends none (@readLink bytes tag) :=
    ends_peekByte.bind fun b => .ite (ends_readByte.bind fun _ => ends_readU32.map) (.pure _)
  have hsuper (tag : UInt8) : Ends none (@readSuper bytes tag) := by
    refine .ite (ends_readByte.bind fun _ => ends_readU32.bind fun ns => (ends_checked _).bind fun _ => ?_) (.pure _)
    exact .ite ends_readU32.map (.pure _)
  exact ends_peekByte.bind fun tag => (hsuper tag).bind fun _ => (hlink _).bind fun _ => (hlink _).bind fun _ => .pure _

theorem ends_scanSubType (ks : List CompKind) : Ends none (@scanSubType bytes ks) :=
  ends_readSubPrefix.bind fun _ => ends_scanCompType ks

theorem ends_prescanTypeKinds : Ends none (@prescanTypeKinds bytes) := by
  refine ends_readU32.bind fun n => ends_times (fun ks => ?_) n []
  refine ends_peekByte.bind fun b => .ite ?_ (ends_scanSubType ks)
  exact ends_readByte.bind fun _ => ends_readU32.bind fun k => ends_times ends_scanSubType k ks

/-! ## Both passes -/

/-- Where the decoder reads a composite type, a sub type, a rec group or the section, the pass before skips the same bytes,
and adds the kinds of the types that are decoded; and it ends on any bytes, with the kinds or an error. -/
theorem passes_agree (bytes : List UInt8) :
    (∀ kinds ks (r r' : Reader bytes) ct, Binary.decodeCompType kinds r = .ok (ct, r') →
      scanCompType ks r = .ok (ks ++ [ct.kind], r')) ∧
    (∀ kinds ts (r r' : Reader bytes) ts', Binary.decodeSubType kinds ts r = .ok (ts', r') →
      scanSubType (ts.compTypes.map CompType.kind) r = .ok (ts'.compTypes.map CompType.kind, r')) ∧
    (∀ kinds ts (r r' : Reader bytes) ts', Binary.decodeRecGroup kinds ts r = .ok (ts', r') →
      scanRecGroup (ts.compTypes.map CompType.kind) r = .ok (ts'.compTypes.map CompType.kind, r')) ∧
    (∀ (r r' : Reader bytes) ts, Binary.decodeTypeSection r = .ok (ts, r') →
      prescanTypeKinds r = .ok (ts.compTypes.map CompType.kind, r')) ∧
    ∀ r : Reader bytes, (∃ x, prescanTypeKinds r = .ok x) ∨ ∃ e, prescanTypeKinds r = .error (some e) := by
  refine ⟨?_, ?_, ?_, ?_, ?_⟩
  · intro kinds ks r r' ct hok
    obtain ⟨_, hscan, rfl⟩ := follows_scanCompType kinds ks r ct r' hok
    exact hscan
  · intro kinds ts r r' ts' hok
    obtain ⟨_, hscan, rfl⟩ := follows_scanSubType kinds ts _ rfl r ts' r' hok
    exact hscan
  · intro kinds ts r r' ts' hok
    obtain ⟨_, hscan, rfl⟩ := follows_scanRecGroup kinds ts _ rfl r ts' r' hok
    exact hscan
  · intro r r' ts hok
    obtain ⟨_, hscan, rfl⟩ := follows_prescanTypeKinds r ts r' hok
    exact hscan
  · intro r
    cases hscan : prescanTypeKinds r with
    | ok x => exact .inl ⟨x, rfl⟩
    | error e =>
      cases e with
      | none => exact absurd hscan (ends_prescanTypeKinds r)
      | some e => exact .inr ⟨e, rfl⟩

end Wasmrt
