import Mathlib.Data.BitVec
import Mathlib.Data.FinEnum
import Mathlib.Tactic.Common

/-!
# Moving a run of slots

Operations that write a run of consecutive slots of a list in place: at once, from another list, or slot
by slot. An operation outside the list does not write at all.

## Main definitions

* `slice`, `overwrite`, `copyWithin`, `storeAt`: the operations, undefined outside the list.
* `Moved before after dst n source`: `after` is `before` with `n` slots from `dst` taken from `source`.

## Main results

* `moved_overwrite`: overwriting moves the run it writes.
* `copyWithin_eq`: a copy within a list writes what the list held before it.
* `forM_moved`: a loop that writes slot by slot moves the run.
-/

universe u

namespace BlockMove

variable {α : Type u}

/-- The slots `[start, start + n)` of a list. -/
def slice (l : List α) (start n : ℕ) : Option (List α) :=
  if start + n ≤ l.length then some ((l.drop start).take n) else none

/-- The slots from `start` on replaced by `vals`. -/
def overwrite (l : List α) (start : ℕ) (vals : List α) : Option (List α) :=
  if start + vals.length ≤ l.length then some (l.take start ++ vals ++ l.drop (start + vals.length))
  else none

/-- The slots `[src, src + n)` copied to `dst` in the same list. -/
def copyWithin (l : List α) (src n dst : ℕ) : Option (List α) := do
  let vals ← slice l src n
  overwrite l dst vals

/-- One slot replaced. -/
def storeAt (l : List α) (i : ℕ) (v : α) : Option (List α) :=
  if i < l.length then some (l.set i v) else none

/-- The `n` slots from `dst` on have taken the values of `source`, and every other slot is kept. -/
structure Moved (before after : List α) (dst n : ℕ) (source : ℕ → Option α) : Prop where
  length_eq : after.length = before.length
  inside : ∀ k < n, after[dst + k]? = source k
  outside : ∀ j, ¬(dst ≤ j ∧ j < dst + n) → after[j]? = before[j]?

theorem slice_of_le {l : List α} {start n : ℕ} (h : start + n ≤ l.length) :
    slice l start n = some ((l.drop start).take n) := if_pos h

theorem length_slice {l : List α} {start n : ℕ} (h : start + n ≤ l.length) :
    ((l.drop start).take n).length = n := by
  rw [List.length_take, List.length_drop]
  omega

theorem getElem?_slice {l : List α} {start n k : ℕ} (h : k < n) :
    ((l.drop start).take n)[k]? = l[start + k]? := by
  rw [List.getElem?_take_of_lt h, List.getElem?_drop]

/-- Overwriting within the list moves the run. -/
theorem moved_overwrite {l vals : List α} {dst : ℕ} (h : dst + vals.length ≤ l.length) :
    ∃ l', overwrite l dst vals = some l' ∧ Moved l l' dst vals.length fun k => vals[k]? := by
  have htake : (l.take dst).length = dst := by
    rw [List.length_take]
    omega
  refine ⟨_, if_pos h, ?_, fun k hk => ?_, fun j hj => ?_⟩
  · simp only [List.length_append, List.length_take, List.length_drop]
    omega
  · rw [List.append_assoc, List.getElem?_append_right (by omega), htake, Nat.add_sub_cancel_left,
      List.getElem?_append_left hk]
  · rw [List.append_assoc]
    by_cases hlt : j < dst
    · rw [List.getElem?_append_left (by omega), List.getElem?_take_of_lt hlt]
    · have hge : dst + vals.length ≤ j := by omega
      rw [List.getElem?_append_right (by omega), htake, List.getElem?_append_right (by omega),
        List.getElem?_drop]
      congr 1
      omega

/-- What is moved may be described another way. -/
theorem Moved.congr {before after : List α} {dst n : ℕ} {source source' : ℕ → Option α}
    (h : Moved before after dst n source) (hs : ∀ k < n, source k = source' k) :
    Moved before after dst n source' where
  length_eq := h.length_eq
  inside k hk := (h.inside k hk).trans (hs k hk)
  outside := h.outside

/-- What was moved in is read back. -/
theorem Moved.slice_inside {before after vals : List α} {dst : ℕ}
    (h : Moved before after dst vals.length fun k => vals[k]?) : (after.drop dst).take vals.length = vals := by
  apply List.ext_getElem?
  intro k
  by_cases hk : k < vals.length
  · rw [getElem?_slice hk, h.inside k hk]
  · rw [List.getElem?_eq_none (by rw [List.length_take]; omega), List.getElem?_eq_none (by omega)]

/-- What is read elsewhere is as it was. -/
theorem Moved.slice_outside {before after : List α} {dst n : ℕ} {source : ℕ → Option α}
    (h : Moved before after dst n source) {j k : ℕ} (hj : j + k ≤ dst ∨ dst + n ≤ j) :
    (after.drop j).take k = (before.drop j).take k := by
  apply List.ext_getElem?
  intro i
  by_cases hi : i < k
  · rw [getElem?_slice hi, getElem?_slice hi, h.outside (j + i) (by omega)]
  · rw [List.getElem?_eq_none (by rw [List.length_take]; omega),
      List.getElem?_eq_none (by rw [List.length_take]; omega)]

/-- Overwriting with a slice moves the slice. -/
theorem moved_slice {l from' : List α} {src dst n : ℕ} (hs : src + n ≤ from'.length)
    (hd : dst + n ≤ l.length) :
    ∃ l', overwrite l dst ((from'.drop src).take n) = some l' ∧
      Moved l l' dst n fun k => from'[src + k]? := by
  have hlen := length_slice hs
  obtain ⟨l', hl', hmoved⟩ := moved_overwrite (hlen.symm ▸ hd)
  rw [hlen] at hmoved
  exact ⟨l', hl', hmoved.congr fun k hk => getElem?_slice hk⟩

/-- Filling a range moves one value into each of its slots. -/
theorem moved_replicate {l : List α} {dst n : ℕ} (v : α) (hd : dst + n ≤ l.length) :
    ∃ l', overwrite l dst (List.replicate n v) = some l' ∧ Moved l l' dst n fun _ => some v := by
  have hlen : (List.replicate n v).length = n := List.length_replicate
  obtain ⟨l', hl', hmoved⟩ := moved_overwrite (hlen.symm ▸ hd)
  rw [hlen] at hmoved
  exact ⟨l', hl', hmoved.congr fun k hk => by rw [List.getElem?_replicate, if_pos hk]⟩

/-- What is moved determines the list after the move. -/
theorem Moved.unique {before after after' : List α} {dst n : ℕ} {source : ℕ → Option α}
    (h : Moved before after dst n source) (h' : Moved before after' dst n source) :
    after = after' := by
  refine List.ext_getElem? fun j => ?_
  by_cases hj : dst ≤ j ∧ j < dst + n
  · obtain ⟨k, rfl⟩ := Nat.exists_eq_add_of_le hj.1
    have hk : k < n := by omega
    rw [h.inside k hk, h'.inside k hk]
  · rw [h.outside j hj, h'.outside j hj]

/-- A copy within a list writes what the list held, where the two runs overlap too. -/
theorem copyWithin_eq {l : List α} {src n dst : ℕ} (hs : src + n ≤ l.length) :
    copyWithin l src n dst = overwrite l dst ((l.drop src).take n) := by
  rw [copyWithin, slice_of_le hs]
  rfl

/-- One more slot moved. -/
theorem Moved.snoc {before after : List α} {dst n : ℕ} {source : ℕ → Option α} {v : α}
    (h : Moved before after dst n source) (hv : source n = some v) (hlt : dst + n < before.length) :
    Moved before (after.set (dst + n) v) dst (n + 1) source where
  length_eq := by rw [List.length_set, h.length_eq]
  inside k hk := by
    by_cases hkn : k = n
    · rw [hkn, List.getElem?_set_self (h.length_eq ▸ hlt), hv]
    · rw [List.getElem?_set_ne (by omega), h.inside k (by omega)]
  outside j hj := by
    rw [List.getElem?_set_ne (by omega), h.outside j (by omega)]

/-- A loop whose `k`-th turn writes slot `dst + k` moves a run. `put` is the state in terms of the list
that is written. -/
theorem forM_moved {ε σ β : Type u} {put : List α → σ} {turn : β → EStateM ε σ PUnit} {value : β → α}
    {l : List α} {dst : ℕ} (items : List β)
    (hturn : ∀ k b, items[k]? = some b → ∀ l', l'.length = l.length →
      turn b (put l') = .ok ⟨⟩ (put (l'.set (dst + k) (value b))))
    (hfits : dst + items.length ≤ l.length) :
    ∃ l', items.forM turn (put l) = .ok ⟨⟩ (put l') ∧
      Moved l l' dst items.length fun k => items[k]?.map value := by
  induction items using List.reverseRecOn with
  | nil => exact ⟨l, rfl, rfl, fun k hk => absurd hk (Nat.not_lt_zero k), fun _ _ => rfl⟩
  | append_singleton items b ih =>
    rw [List.length_append, List.length_singleton] at hfits
    have hinit : ∀ k, k < items.length → (items ++ [b])[k]? = items[k]? := fun k hk =>
      List.getElem?_append_left hk
    have hlast : (items ++ [b])[items.length]? = some b := List.getElem?_concat_length
    obtain ⟨l', hrun, hmoved⟩ := ih (fun k c hc => hturn k c (by
      rw [hinit k (List.getElem?_eq_some_iff.mp hc).1, hc])) (by omega)
    refine ⟨l'.set (dst + items.length) (value b), ?_, ?_⟩
    · have hstep := hturn items.length b hlast l' hmoved.length_eq
      rw [List.forM_eq_forM] at hrun ⊢
      simp only [List.forM_append, List.forM_cons, List.forM_nil, bind, EStateM.bind,
        hrun, hstep]
      rfl
    · rw [List.length_append, List.length_singleton]
      refine Moved.snoc (hmoved.congr fun k hk => ?_) ?_ (by omega)
      · rw [hinit k hk]
      · rw [hlast]
        rfl

/-- A loop that collects results and writes nothing. -/
theorem mapM_of_ok {ε σ β : Type u} {turn : β → EStateM ε σ α} {value : β → α} {s : σ} (items : List β)
    (hturn : ∀ b ∈ items, turn b s = .ok (value b) s) : items.mapM turn s = .ok (items.map value) s := by
  induction items with
  | nil => rfl
  | cons b items ih =>
    have hrest := ih fun c hc => hturn c (List.mem_cons_of_mem b hc)
    simp only [List.mapM_cons, bind, EStateM.bind, hturn b List.mem_cons_self, hrest]
    rfl

end BlockMove
