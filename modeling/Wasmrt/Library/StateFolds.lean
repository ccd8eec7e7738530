import Wasmrt.Library.StateChecks

/-!
# Folds whose steps meet a condition

A fold over a state keeps a property of the state when each of its steps does. Some steps do so only when
the state they start from meets a condition, so the condition is one on the steps the fold takes, each from
the state the earlier ones left.

## Main definitions

* `FoldMeets f P l b s`: every step the fold takes from `b` and `s` starts where `P` holds.

## Main results

* `estate_foldlM_invariant`: what every step keeps of the accumulator, the fold keeps.
* `FoldMeets.foldlM`: steps that keep a property where `P` holds keep it along the fold.
-/

universe u w

variable {ε σ α β : Type u} {γ : Type w}

/-- A property of the state that a computation starts from holds of the state it leaves. -/
theorem EStateM.Result.state_bind {x : EStateM ε σ α} {f : α → EStateM ε σ β} {I : σ → Prop} {s : σ}
    (hx : I (x s).state) (hf : ∀ ⦃a s'⦄, x s = .ok a s' → I s' → I (f a s').state) : I ((x >>= f) s).state := by
  cases h : x s with
  | ok a s' =>
    rw [estate_bind_of_ok h]
    rw [h] at hx
    exact hf h hx
  | error e s' =>
    rw [estate_bind_of_error h]
    rwa [h] at hx

/-- A check leaves the state alone. -/
theorem EStateM.Result.state_ofExcept_bind {e : Except ε α} {f : α → EStateM ε σ β} {I : σ → Prop} {s : σ} (hs : I s)
    (hf : ∀ ⦃a⦄, e = .ok a → I (f a s).state) : I ((ofExcept e >>= f) s).state := by
  cases e with
  | ok a => exact hf rfl
  | error t => exact hs

/-- What every step keeps of the accumulator holds at the end of a fold that succeeds. -/
theorem estate_foldlM_invariant {f : β → γ → EStateM ε σ β} {J : β → Prop} {l : List γ}
    (hstep : ∀ ⦃b c b' s s'⦄, c ∈ l → J b → f b c s = .ok b' s' → J b') {b b' : β} {s s' : σ} (hb : J b)
    (h : l.foldlM f b s = .ok b' s') : J b' := by
  induction l generalizing b s with
  | nil =>
    obtain ⟨rfl, -⟩ := estate_pure_eq_ok.mp h
    exact hb
  | cons c l ih =>
    rw [List.foldlM_cons] at h
    obtain ⟨b₁, s₁, hone, hrest⟩ := estate_bind_eq_ok.mp h
    exact ih (fun b c b' s s' hc => hstep (List.mem_cons_of_mem _ hc)) (hstep List.mem_cons_self hb hone) hrest

/-- Every step that a fold takes starts from an accumulator, an entry and a state of which `P` holds. -/
def FoldMeets (f : β → γ → EStateM ε σ β) (P : β → γ → σ → Prop) : List γ → β → σ → Prop
  | [], _, _ => True
  | c :: l, b, s => P b c s ∧ ∀ ⦃b' s'⦄, f b c s = .ok b' s' → FoldMeets f P l b' s'

namespace FoldMeets

variable {f : β → γ → EStateM ε σ β} {P : β → γ → σ → Prop} {I : σ → Prop}

/-- What every step keeps where the condition holds, the fold keeps. -/
theorem foldlM {l : List γ} (hstep : ∀ ⦃b c s⦄, c ∈ l → P b c s → I s → I (f b c s).state) {b : β} {s : σ}
    (h : FoldMeets f P l b s) (hs : I s) : I (l.foldlM f b s).state := by
  induction l generalizing b s with
  | nil => exact hs
  | cons c l ih =>
    obtain ⟨hone, hrest⟩ := h
    rw [List.foldlM_cons]
    apply EStateM.Result.state_bind
    · exact hstep List.mem_cons_self hone hs
    · intro b' s' hok hs'
      exact ih (fun b c s hc => hstep (List.mem_cons_of_mem _ hc)) (hrest hok) hs'

/-- A condition that holds everywhere. -/
theorem of_forall {l : List γ} (h : ∀ b, ∀ c ∈ l, ∀ s, P b c s) (b : β) (s : σ) : FoldMeets f P l b s := by
  induction l generalizing b s with
  | nil => trivial
  | cons c l ih =>
    refine ⟨h b c List.mem_cons_self s, fun b' s' _ => ?_⟩
    exact ih (fun b c hc s => h b c (List.mem_cons_of_mem _ hc) s) b' s'

end FoldMeets
