import Mathlib.Data.BitVec
import Mathlib.Data.FinEnum
import Mathlib.Tactic.Common
import Wasmrt.Module

/-!
# Types up to their references

What a member of a rec group looks like once the type indices it mentions are abstracted: the same
data over an arbitrary type `ρ` of references. Type identity is equality of such shapes for a
suitable reading of the references, and two readings are related place by place.

## Main definitions

* `ValShape`, `StorageShape`, `FieldShape`, `CompShape`, `MemberShape`: shapes over references `ρ`.
* `MemberShape.map`, `MemberShape.refs`, `MemberShape.Rel`: rename the references, list them, relate
  two shapes that differ in their references only.
* `TypeSection.member`: the shape of a type, its references being type indices.

## Main results

* `MemberShape.map_eq_map_iff_rel`: renamed shapes are equal iff the originals are related, when
  renamed references are equal iff the originals are.
-/

namespace Wasmrt

universe u

/-- Entrywise equality of two mapped lists. -/
theorem map_eq_map_iff_forall₂ {α β γ : Type*} {f : α → γ} {g : β → γ} {R : α → β → Prop}
    {xs : List α} {ys : List β} (h : ∀ x ∈ xs, ∀ y ∈ ys, f x = g y ↔ R x y) :
    xs.map f = ys.map g ↔ List.Forall₂ R xs ys := by
  induction xs generalizing ys with
  | nil => cases ys <;> simp
  | cons x xs ih =>
    cases ys with
    | nil => simp
    | cons y ys =>
      rw [List.map_cons, List.map_cons, List.cons.injEq, List.forall₂_cons,
        h x (by simp) y (by simp),
        ih (fun a ha b hb => h a (by simp [ha]) b (by simp [hb]))]

/-- Equality of two mapped options. -/
theorem map_eq_map_iff_rel {α β γ : Type*} {f : α → γ} {g : β → γ} {R : α → β → Prop}
    {x : Option α} {y : Option β} (h : ∀ a ∈ x, ∀ b ∈ y, f a = g b ↔ R a b) :
    x.map f = y.map g ↔ Option.Rel R x y := by
  cases x <;> cases y <;> simp_all [Option.rel_some_some]

/-- A value type: a plain one, or a concrete reference with its nullability, exactness and
target. -/
inductive ValShape (ρ : Type u)
  | plain (v : ValType)
  | concrete (isNonNull exact : Bool) (target : ρ)
  deriving DecidableEq, Repr

/-- A storage type. -/
inductive StorageShape (ρ : Type u)
  | i8
  | i16
  | val (v : ValShape ρ)
  deriving DecidableEq, Repr

/-- A field: mutability and storage type. -/
structure FieldShape (ρ : Type u) where
  mutable : Bool
  storage : StorageShape ρ
  deriving DecidableEq, Repr

/-- A composite type; `missing` stands for an index with no type. -/
inductive CompShape (ρ : Type u)
  | func (params results : List (ValShape ρ))
  | struct (fields : List (FieldShape ρ))
  | array (elem : FieldShape ρ)
  | missing
  deriving DecidableEq, Repr

/-- A member of a rec group with everything its identity depends on. -/
structure MemberShape (ρ : Type u) where
  isFinal : Bool
  super : Option ρ
  describes : Option ρ
  descriptor : Option ρ
  comp : CompShape ρ
  deriving DecidableEq, Repr

variable {ρ σ τ : Type u}

namespace ValShape

/-- Rename the references. -/
def map (f : ρ → τ) : ValShape ρ → ValShape τ
  | plain v => plain v
  | concrete n e r => concrete n e (f r)

/-- The references mentioned. -/
def refs : ValShape ρ → List ρ
  | plain _ => []
  | concrete _ _ r => [r]

/-- Equal but for the references, which are related. -/
def Rel (R : ρ → σ → Prop) : ValShape ρ → ValShape σ → Prop
  | plain v, plain w => v = w
  | concrete n e r, concrete n' e' s => n = n' ∧ e = e' ∧ R r s
  | _, _ => False

theorem map_eq_map_iff_rel {f : ρ → τ} {g : σ → τ} {R : ρ → σ → Prop} {x : ValShape ρ}
    {y : ValShape σ} (h : ∀ r ∈ x.refs, ∀ s ∈ y.refs, f r = g s ↔ R r s) :
    x.map f = y.map g ↔ Rel R x y := by
  cases x <;> cases y <;> simp_all [map, Rel, refs]

theorem map_map {υ : Type u} (f : ρ → σ) (g : σ → υ) (x : ValShape ρ) :
    (x.map f).map g = x.map (g ∘ f) := by
  cases x <;> rfl

theorem map_congr {f g : ρ → τ} {x : ValShape ρ} (h : ∀ r ∈ x.refs, f r = g r) :
    x.map f = x.map g := by
  cases x <;> simp_all [map, refs]

end ValShape

namespace StorageShape

/-- Rename the references. -/
def map (f : ρ → τ) : StorageShape ρ → StorageShape τ
  | i8 => i8
  | i16 => i16
  | val v => val (v.map f)

/-- The references mentioned. -/
def refs : StorageShape ρ → List ρ
  | val v => v.refs
  | _ => []

/-- Equal but for the references, which are related. -/
def Rel (R : ρ → σ → Prop) : StorageShape ρ → StorageShape σ → Prop
  | i8, i8 => True
  | i16, i16 => True
  | val v, val w => v.Rel R w
  | _, _ => False

theorem map_eq_map_iff_rel {f : ρ → τ} {g : σ → τ} {R : ρ → σ → Prop} {x : StorageShape ρ}
    {y : StorageShape σ} (h : ∀ r ∈ x.refs, ∀ s ∈ y.refs, f r = g s ↔ R r s) :
    x.map f = y.map g ↔ Rel R x y := by
  cases x <;> cases y <;> simp [map, Rel]
  exact ValShape.map_eq_map_iff_rel h

theorem map_map {υ : Type u} (f : ρ → σ) (g : σ → υ) (x : StorageShape ρ) :
    (x.map f).map g = x.map (g ∘ f) := by
  cases x <;> simp [map, ValShape.map_map]

theorem map_congr {f g : ρ → τ} {x : StorageShape ρ} (h : ∀ r ∈ x.refs, f r = g r) :
    x.map f = x.map g := by
  cases x <;> simp only [map]
  rw [ValShape.map_congr h]

end StorageShape

namespace FieldShape

/-- Rename the references. -/
def map (f : ρ → τ) (x : FieldShape ρ) : FieldShape τ := ⟨x.mutable, x.storage.map f⟩

/-- The references mentioned. -/
def refs (x : FieldShape ρ) : List ρ := x.storage.refs

/-- Equal but for the references, which are related. -/
def Rel (R : ρ → σ → Prop) (x : FieldShape ρ) (y : FieldShape σ) : Prop :=
  x.mutable = y.mutable ∧ x.storage.Rel R y.storage

theorem map_eq_map_iff_rel {f : ρ → τ} {g : σ → τ} {R : ρ → σ → Prop} {x : FieldShape ρ}
    {y : FieldShape σ} (h : ∀ r ∈ x.refs, ∀ s ∈ y.refs, f r = g s ↔ R r s) :
    x.map f = y.map g ↔ Rel R x y := by
  rw [map, map, FieldShape.mk.injEq, StorageShape.map_eq_map_iff_rel h, Rel]

theorem map_map {υ : Type u} (f : ρ → σ) (g : σ → υ) (x : FieldShape ρ) :
    (x.map f).map g = x.map (g ∘ f) := by
  simp [map, StorageShape.map_map]

theorem map_congr {f g : ρ → τ} {x : FieldShape ρ} (h : ∀ r ∈ x.refs, f r = g r) :
    x.map f = x.map g := by
  rw [map, map, StorageShape.map_congr h]

end FieldShape

namespace CompShape

/-- Rename the references. -/
def map (f : ρ → τ) : CompShape ρ → CompShape τ
  | func ps rs => func (ps.map (·.map f)) (rs.map (·.map f))
  | struct fs => struct (fs.map (·.map f))
  | array e => array (e.map f)
  | missing => missing

/-- The references mentioned. -/
def refs : CompShape ρ → List ρ
  | func ps rs => ps.flatMap ValShape.refs ++ rs.flatMap ValShape.refs
  | struct fs => fs.flatMap FieldShape.refs
  | array e => e.refs
  | missing => []

/-- Equal but for the references, which are related. -/
def Rel (R : ρ → σ → Prop) : CompShape ρ → CompShape σ → Prop
  | func ps rs, func ps' rs' => List.Forall₂ (ValShape.Rel R) ps ps' ∧
      List.Forall₂ (ValShape.Rel R) rs rs'
  | struct fs, struct fs' => List.Forall₂ (FieldShape.Rel R) fs fs'
  | array e, array e' => e.Rel R e'
  | missing, missing => True
  | _, _ => False

theorem map_eq_map_iff_rel {f : ρ → τ} {g : σ → τ} {R : ρ → σ → Prop} {x : CompShape ρ}
    {y : CompShape σ} (h : ∀ r ∈ x.refs, ∀ s ∈ y.refs, f r = g s ↔ R r s) :
    x.map f = y.map g ↔ Rel R x y := by
  -- only the diagonal cases have anything to show
  cases x <;> cases y <;> simp only [map, Rel, reduceCtorEq, CompShape.func.injEq,
    CompShape.struct.injEq, CompShape.array.injEq]
  case func.func ps rs ps' rs' =>
    simp only [refs, List.mem_append, List.mem_flatMap] at h
    refine and_congr (map_eq_map_iff_forall₂ ?_) (map_eq_map_iff_forall₂ ?_)
    · exact fun v hv w hw => ValShape.map_eq_map_iff_rel fun r hr s hs =>
        h r (.inl ⟨v, hv, hr⟩) s (.inl ⟨w, hw, hs⟩)
    · exact fun v hv w hw => ValShape.map_eq_map_iff_rel fun r hr s hs =>
        h r (.inr ⟨v, hv, hr⟩) s (.inr ⟨w, hw, hs⟩)
  case struct.struct fs fs' =>
    simp only [refs, List.mem_flatMap] at h
    exact map_eq_map_iff_forall₂ fun v hv w hw => FieldShape.map_eq_map_iff_rel fun r hr s hs =>
      h r ⟨v, hv, hr⟩ s ⟨w, hw, hs⟩
  case array.array e e' => exact FieldShape.map_eq_map_iff_rel h

theorem map_map {υ : Type u} (f : ρ → σ) (g : σ → υ) (x : CompShape ρ) :
    (x.map f).map g = x.map (g ∘ f) := by
  cases x <;> simp [map, Function.comp_def, ValShape.map_map, FieldShape.map_map]

theorem map_congr {f g : ρ → τ} {x : CompShape ρ} (h : ∀ r ∈ x.refs, f r = g r) :
    x.map f = x.map g := by
  cases x with
  | func ps rs =>
    simp only [refs, List.mem_append, List.mem_flatMap] at h
    rw [map, map,
      List.map_congr_left fun v hv => ValShape.map_congr fun r hr => h r (.inl ⟨v, hv, hr⟩),
      List.map_congr_left fun v hv => ValShape.map_congr fun r hr => h r (.inr ⟨v, hv, hr⟩)]
  | struct fs =>
    simp only [refs, List.mem_flatMap] at h
    rw [map, map,
      List.map_congr_left fun v hv => FieldShape.map_congr fun r hr => h r ⟨v, hv, hr⟩]
  | array e => rw [map, map, FieldShape.map_congr h]
  | missing => rfl

end CompShape

namespace MemberShape

/-- Rename the references. -/
def map (f : ρ → τ) (x : MemberShape ρ) : MemberShape τ where
  isFinal := x.isFinal
  super := x.super.map f
  describes := x.describes.map f
  descriptor := x.descriptor.map f
  comp := x.comp.map f

/-- The references mentioned. -/
def refs (x : MemberShape ρ) : List ρ :=
  x.super.toList ++ x.describes.toList ++ x.descriptor.toList ++ x.comp.refs

/-- Equal but for the references, which are related: finality, the presence of a supertype and of
each link, and the composite type all agree. -/
structure Rel (R : ρ → σ → Prop) (x : MemberShape ρ) (y : MemberShape σ) : Prop where
  isFinal : x.isFinal = y.isFinal
  super : Option.Rel R x.super y.super
  describes : Option.Rel R x.describes y.describes
  descriptor : Option.Rel R x.descriptor y.descriptor
  comp : x.comp.Rel R y.comp

/-- Renamed members are equal iff the originals are related. -/
theorem map_eq_map_iff_rel {f : ρ → τ} {g : σ → τ} {R : ρ → σ → Prop} {x : MemberShape ρ}
    {y : MemberShape σ} (h : ∀ r ∈ x.refs, ∀ s ∈ y.refs, f r = g s ↔ R r s) :
    x.map f = y.map g ↔ Rel R x y := by
  simp only [refs, List.mem_append, Option.mem_toList] at h
  rw [map, map, MemberShape.mk.injEq,
    Wasmrt.map_eq_map_iff_rel (R := R) fun a ha b hb =>
      h a (.inl (.inl (.inl ha))) b (.inl (.inl (.inl hb))),
    Wasmrt.map_eq_map_iff_rel (R := R) fun a ha b hb =>
      h a (.inl (.inl (.inr ha))) b (.inl (.inl (.inr hb))),
    Wasmrt.map_eq_map_iff_rel (R := R) fun a ha b hb =>
      h a (.inl (.inr ha)) b (.inl (.inr hb)),
    CompShape.map_eq_map_iff_rel (R := R) fun a ha b hb => h a (.inr ha) b (.inr hb)]
  exact ⟨fun ⟨h₁, h₂, h₃, h₄, h₅⟩ => ⟨h₁, h₂, h₃, h₄, h₅⟩,
    fun h => ⟨h.isFinal, h.super, h.describes, h.descriptor, h.comp⟩⟩

/-- Renaming twice. -/
theorem map_map {υ : Type u} (f : ρ → σ) (g : σ → υ) (x : MemberShape ρ) :
    (x.map f).map g = x.map (g ∘ f) := by
  simp [map, CompShape.map_map]

/-- A renaming matters only at the references mentioned. -/
theorem map_congr {f g : ρ → τ} {x : MemberShape ρ} (h : ∀ r ∈ x.refs, f r = g r) :
    x.map f = x.map g := by
  simp only [refs, List.mem_append, Option.mem_toList] at h
  rw [map, map,
    Option.map_congr fun r hr => h r (.inl (.inl (.inl hr))),
    Option.map_congr fun r hr => h r (.inl (.inl (.inr hr))),
    Option.map_congr fun r hr => h r (.inl (.inr hr)),
    CompShape.map_congr fun r hr => h r (.inr hr)]

end MemberShape

/-! ## The shapes of a type section -/

/-- The shape of a value type. -/
def ValType.shape : ValType → ValShape ℕ
  | .concrete n e _ i => .concrete (!n) e i
  | v => .plain v

/-- The shape of a storage type. -/
def StorageType.shape : StorageType → StorageShape ℕ
  | i8 => .i8
  | i16 => .i16
  | val v => .val v.shape

/-- The shape of a field. -/
def FieldType.shape (f : FieldType) : FieldShape ℕ := ⟨f.mutable, f.storage.shape⟩

/-- The shape of a composite type. -/
def CompType.shape : CompType → CompShape ℕ
  | func ft => .func (ft.params.map ValType.shape) (ft.results.map ValType.shape)
  | struct fs => .struct (fs.map FieldType.shape)
  | array f => .array f.shape

namespace TypeSection

variable (ts : TypeSection)

/-- The shape of type `t`, its references being type indices. -/
def member (t : ℕ) : MemberShape ℕ where
  isFinal := ts.isFinal t
  super := ts.supertype t
  describes := (ts.links t).describes
  descriptor := (ts.links t).descriptor
  comp := (ts.compTypes[t]?).elim .missing CompType.shape

/-- The members of a rec group, in order. -/
def groupMembers (g : RecGroup) : List (MemberShape ℕ) :=
  (List.range g.len).map fun i => ts.member (g.start + i)

end TypeSection

end Wasmrt
