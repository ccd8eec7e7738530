import Wasmrt.Library.Checks

/-!
# Checks over a state

A fallible computation over a state that is not rolled back when it fails: `EStateM` as core defines
it. A successful run is read backwards through the combinators, and a relation that every step keeps
is kept by the whole computation, however it ends. One computation simulates another when it succeeds
wherever the other does and leaves a related state.

## Main definitions

* `Keeps R x`: every outcome of `x`, success or error, leaves a state `R`-related to its start.
* `Simulates rel out x y`: from related states, a success of `x` is one of `y`.

## Main results

* `estate_bind_eq_ok`, `ofExcept_eq_ok`: what a successful run did.
* `Keeps.bind`, `Keeps.mapM`, `Keeps.forM`, `Keeps.foldlM`: a relation kept by the parts is kept by
  the whole.
* `Simulates.bind`, `Simulates.forM`: a simulation of the parts is one of the whole.
-/

universe u v w

variable {ε σ α β : Type u}

/-- The state an outcome leaves. -/
def EStateM.Result.state : EStateM.Result ε σ α → σ
  | .ok _ s => s
  | .error _ s => s

@[simp] theorem EStateM.Result.state_ok (a : α) (s : σ) :
    (EStateM.Result.ok a s : EStateM.Result ε σ α).state = s := rfl

@[simp] theorem EStateM.Result.state_error (e : ε) (s : σ) :
    (EStateM.Result.error e s : EStateM.Result ε σ α).state = s := rfl

/-! ## Successful runs -/

theorem estate_bind_apply (x : EStateM ε σ α) (f : α → EStateM ε σ β) (s : σ) :
    (x >>= f) s = match x s with
      | .ok a s' => f a s'
      | .error e s' => .error e s' := rfl

theorem estate_pure_apply (a : α) (s : σ) : (pure a : EStateM ε σ α) s = .ok a s := rfl

theorem estate_get_apply (s : σ) : (get : EStateM ε σ σ) s = .ok s s := rfl

theorem estate_modify_apply (f : σ → σ) (s : σ) : (modify f : EStateM ε σ PUnit) s = .ok ⟨⟩ (f s) := rfl

theorem estate_get_bind (f : σ → EStateM ε σ β) (s : σ) : ((get : EStateM ε σ σ) >>= f) s = f s s := rfl

theorem estate_bind_of_ok {x : EStateM ε σ α} {s s' : σ} {a : α} (h : x s = .ok a s') (f : α → EStateM ε σ β) :
    (x >>= f) s = f a s' := by
  rw [estate_bind_apply, h]

theorem estate_bind_of_error {x : EStateM ε σ α} {s s' : σ} {e : ε} (h : x s = .error e s')
    (f : α → EStateM ε σ β) : (x >>= f) s = .error e s' := by
  rw [estate_bind_apply, h]

theorem estate_bind_eq_ok {x : EStateM ε σ α} {f : α → EStateM ε σ β} {s s' : σ} {b : β} :
    (x >>= f) s = .ok b s' ↔ ∃ a s₁, x s = .ok a s₁ ∧ f a s₁ = .ok b s' := by
  cases hx : x s with
  | ok a s₁ => simp [estate_bind_of_ok hx]
  | error e s₁ => simp [estate_bind_of_error hx]

/-- Two continuations that agree where a computation succeeds. -/
theorem estate_bind_congr {x : EStateM ε σ α} {f g : α → EStateM ε σ β} {s : σ}
    (h : ∀ a s', x s = .ok a s' → f a s' = g a s') : (x >>= f) s = (x >>= g) s := by
  cases hx : x s with
  | ok a s' => rw [estate_bind_of_ok hx, estate_bind_of_ok hx, h a s' hx]
  | error e s' => rw [estate_bind_of_error hx, estate_bind_of_error hx]

theorem estate_pure_eq_ok {s s' : σ} {a b : α} :
    (pure a : EStateM ε σ α) s = .ok b s' ↔ a = b ∧ s = s' :=
  Iff.of_eq (EStateM.Result.ok.injEq a s b s')

theorem ofExcept_eq_ok {x : Except ε α} {s s' : σ} {a : α} :
    (ofExcept x : EStateM ε σ α) s = .ok a s' ↔ x = .ok a ∧ s = s' := by
  cases x with
  | ok b => exact estate_pure_eq_ok.trans (and_congr_left fun _ => (Except.ok.injEq b a).symm.to_iff)
  | error e => exact iff_of_false nofun fun h => nomatch h.1

/-- A check passes on its value and leaves the state. -/
theorem ofExcept_bind_eq_ok {x : Except ε α} {f : α → EStateM ε σ β} {s s' : σ} {b : β} :
    ((ofExcept x : EStateM ε σ α) >>= f) s = .ok b s' ↔ ∃ a, x = .ok a ∧ f a s = .ok b s' := by
  rw [estate_bind_eq_ok]
  constructor
  · rintro ⟨a, _, hrun, hf⟩
    obtain ⟨hx, rfl⟩ := ofExcept_eq_ok.mp hrun
    exact ⟨a, hx, hf⟩
  · rintro ⟨a, hx, hf⟩
    exact ⟨a, s, ofExcept_eq_ok.mpr ⟨hx, rfl⟩, hf⟩

theorem estate_get_eq_ok {s s' a : σ} : (get : EStateM ε σ σ) s = .ok a s' ↔ s = a ∧ s = s' :=
  estate_pure_eq_ok

theorem estate_set_eq_ok {s s' t : σ} {u : PUnit} :
    (set t : EStateM ε σ PUnit) s = .ok u s' ↔ t = s' :=
  estate_pure_eq_ok.trans (and_iff_right rfl)

theorem estate_throw_ne_ok {e : ε} {s s' : σ} {a : α} :
    (throw e : EStateM ε σ α) s ≠ .ok a s' :=
  nofun

theorem estate_modify_eq_ok {f : σ → σ} {s s' : σ} {u : PUnit} :
    (modify f : EStateM ε σ PUnit) s = .ok u s' ↔ f s = s' :=
  estate_pure_eq_ok.trans (and_iff_right rfl)

/-- A traversal that succeeds does so at every entry. -/
theorem estate_forM_mem {γ : Type w} {f : γ → EStateM ε σ PUnit} {l : List γ} {s s' : σ} {u : PUnit}
    (h : l.forM f s = .ok u s') {c : γ} (hc : c ∈ l) : ∃ t t', f c t = .ok ⟨⟩ t' := by
  induction l generalizing s with
  | nil => cases hc
  | cons b l ih =>
    obtain ⟨_, s₁, hone, hrest⟩ := estate_bind_eq_ok.mp (show (f b >>= fun _ => l.forM f) s = _ from h)
    rcases List.mem_cons.mp hc with rfl | hc
    · exact ⟨s, s₁, hone⟩
    · exact ih hrest hc

/-- A fold each of whose steps counts one counts its entries. -/
theorem estate_foldlM_count {γ : Type w} {f : β → γ → EStateM ε σ β} {μ : β → ℕ}
    (hf : ∀ ⦃b c b' s s'⦄, f b c s = .ok b' s' → μ b' = μ b + 1) {l : List γ} {b b' : β} {s s' : σ}
    (h : l.foldlM f b s = .ok b' s') : μ b' = μ b + l.length := by
  induction l generalizing b s with
  | nil =>
    obtain ⟨rfl, -⟩ := estate_pure_eq_ok.mp h
    rfl
  | cons c l ih =>
    rw [List.foldlM_cons] at h
    obtain ⟨b₁, s₁, hone, hrest⟩ := estate_bind_eq_ok.mp h
    rw [ih hrest, hf hone, List.length_cons]
    omega

/-! ## Relations a computation keeps -/

/-- Every outcome of `x`, success or error, leaves a state related to its start. -/
def Keeps (R : σ → σ → Prop) (x : EStateM ε σ α) : Prop := ∀ s, R s (x s).state

namespace Keeps

variable {R : σ → σ → Prop}

/-- The relation on a successful run. -/
theorem of_eq_ok {x : EStateM ε σ α} (h : Keeps R x) {s s' : σ} {a : α} (hx : x s = .ok a s') :
    R s s' := by
  have := h s
  rwa [hx] at this

theorem mono {S : σ → σ → Prop} {x : EStateM ε σ α} (h : Keeps R x) (hRS : ∀ s s', R s s' → S s s') :
    Keeps S x := fun s => hRS _ _ (h s)

theorem pure (hR : ∀ s, R s s) (a : α) : Keeps R (Pure.pure a : EStateM ε σ α) := hR

theorem throw (hR : ∀ s, R s s) (e : ε) : Keeps R (MonadExcept.throw e : EStateM ε σ α) := hR

theorem get (hR : ∀ s, R s s) : Keeps R (MonadState.get : EStateM ε σ σ) := hR

theorem modify {f : σ → σ} (h : ∀ s, R s (f s)) :
    Keeps R (modify f : EStateM ε σ PUnit) := h

theorem ofExcept (hR : ∀ s, R s s) (x : Except ε α) :
    Keeps R (MonadExcept.ofExcept x : EStateM ε σ α) := by
  cases x with
  | ok a => exact hR
  | error e => exact hR

theorem bind (hR : ∀ ⦃s t u⦄, R s t → R t u → R s u) {x : EStateM ε σ α} {f : α → EStateM ε σ β}
    (hx : Keeps R x) (hf : ∀ a, Keeps R (f a)) : Keeps R (x >>= f) := by
  intro s
  have hs := hx s
  simp only [Bind.bind, EStateM.bind]
  cases h : x s with
  | ok a s₁ =>
    rw [h] at hs
    exact hR hs (hf a s₁)
  | error e s₁ =>
    rw [h] at hs
    exact hs

theorem foldlM (hR : ∀ s, R s s) (hT : ∀ ⦃s t u⦄, R s t → R t u → R s u) {γ : Type w}
    {f : β → γ → EStateM ε σ β} (hf : ∀ b c, Keeps R (f b c)) (l : List γ) (b : β) :
    Keeps R (l.foldlM f b) := by
  induction l generalizing b with
  | nil => exact pure hR b
  | cons c l ih => exact bind hT (hf b c) ih

theorem mapM (hR : ∀ s, R s s) (hT : ∀ ⦃s t u⦄, R s t → R t u → R s u) {γ : Type u}
    {f : γ → EStateM ε σ β} (hf : ∀ c, Keeps R (f c)) (l : List γ) : Keeps R (l.mapM f) := by
  rw [← List.mapM'_eq_mapM]
  induction l with
  | nil => exact pure hR _
  | cons c l ih => exact bind hT (hf c) fun _ => bind hT ih fun _ => pure hR _

theorem forM (hR : ∀ s, R s s) (hT : ∀ ⦃s t u⦄, R s t → R t u → R s u) {γ : Type w}
    {f : γ → EStateM ε σ PUnit} (hf : ∀ c, Keeps R (f c)) (l : List γ) : Keeps R (l.forM f) := by
  induction l with
  | nil => exact pure hR _
  | cons c l ih => exact bind hT (hf c) fun _ => ih

end Keeps

/-! ## Simulation -/

/-- From related states, a success of `x` is a success of `y` with related results and states. -/
def Simulates {ε' τ γ δ : Type u} (rel : σ → τ → Prop) (out : γ → δ → Prop) (x : EStateM ε σ γ)
    (y : EStateM ε' τ δ) : Prop :=
  ∀ ⦃s t a s'⦄, rel s t → x s = .ok a s' → ∃ b t', y t = .ok b t' ∧ rel s' t' ∧ out a b

namespace Simulates

variable {ε' τ γ δ : Type u} {rel : σ → τ → Prop}

theorem refl (x : EStateM ε σ γ) : Simulates Eq Eq x x := by
  rintro s _ a s' rfl hx
  exact ⟨a, s', hx, rfl, rfl⟩

/-- A computation that succeeds with the same result wherever another does simulates it. -/
theorem of_eq_ok {x y : EStateM ε σ γ} (h : ∀ ⦃s a s'⦄, x s = .ok a s' → y s = .ok a s') :
    Simulates Eq Eq x y := by
  rintro s _ a s' rfl hx
  exact ⟨a, s', h hx, rfl, rfl⟩

theorem pure {out : γ → δ → Prop} {c : γ} {d : δ} (h : out c d) :
    Simulates rel out (Pure.pure c : EStateM ε σ γ) (Pure.pure d : EStateM ε' τ δ) := by
  intro s t a s' hst hx
  obtain ⟨rfl, rfl⟩ := estate_pure_eq_ok.mp hx
  exact ⟨d, t, rfl, hst, h⟩

theorem bind {out : α → β → Prop} {out' : γ → δ → Prop} {x : EStateM ε σ α} {y : EStateM ε' τ β}
    {f : α → EStateM ε σ γ} {g : β → EStateM ε' τ δ} (hxy : Simulates rel out x y)
    (hfg : ∀ a b, out a b → Simulates rel out' (f a) (g b)) :
    Simulates rel out' (x >>= f) (y >>= g) := by
  intro s t c s' hst hx
  obtain ⟨a, s₁, hx, hf⟩ := estate_bind_eq_ok.mp hx
  obtain ⟨b, t₁, hy, hst₁, hab⟩ := hxy hst hx
  obtain ⟨d, t', hg, hst', hcd⟩ := hfg a b hab hst₁ hf
  exact ⟨d, t', estate_bind_eq_ok.mpr ⟨b, t₁, hy, hg⟩, hst', hcd⟩

/-- What `x` does from a start state, `y` does. -/
theorem eq_ok {x y : EStateM ε σ α} (h : Simulates Eq Eq x y) {s s' : σ} {a : α}
    (hx : x s = .ok a s') : y s = .ok a s' := by
  obtain ⟨_, _, hy, rfl, rfl⟩ := h rfl hx
  exact hy

/-- A check made on both sides. -/
theorem ofExcept {e : Except ε γ} {e' : Except ε' γ} (h : ∀ c, e = .ok c → e' = .ok c) :
    Simulates rel Eq (MonadExcept.ofExcept e : EStateM ε σ γ)
      (MonadExcept.ofExcept e' : EStateM ε' τ γ) := by
  intro s t a s' hst hx
  obtain ⟨he, rfl⟩ := ofExcept_eq_ok.mp hx
  exact ⟨a, t, ofExcept_eq_ok.mpr ⟨h a he, rfl⟩, hst, rfl⟩

/-- A check made on both sides, with what it passed known of the rest. -/
theorem ofExcept_passed {e : Except ε γ} {e' : Except ε' γ} (h : ∀ c, e = .ok c → e' = .ok c) :
    Simulates rel (fun c d => c = d ∧ e = .ok c) (MonadExcept.ofExcept e : EStateM ε σ γ)
      (MonadExcept.ofExcept e' : EStateM ε' τ γ) := by
  intro s t a s' hst hx
  obtain ⟨he, rfl⟩ := ofExcept_eq_ok.mp hx
  exact ⟨a, t, ofExcept_eq_ok.mpr ⟨h a he, rfl⟩, hst, rfl, he⟩

/-- A check made by the simulated side alone: what it passed is known of the rest. -/
theorem of_check {out : γ → δ → Prop} {e : Except ε α} {f : α → EStateM ε σ γ}
    {y : EStateM ε' τ δ} (h : ∀ a, e = .ok a → Simulates rel out (f a) y) :
    Simulates rel out (MonadExcept.ofExcept e >>= f) y := by
  intro s t c s' hst hx
  obtain ⟨a, s₁, hx, hf⟩ := estate_bind_eq_ok.mp hx
  obtain ⟨he, rfl⟩ := ofExcept_eq_ok.mp hx
  exact h a he hst hf

theorem forM {f : γ → EStateM ε σ PUnit} {g : γ → EStateM ε' τ PUnit} {l : List γ}
    (hfg : ∀ c ∈ l, Simulates rel Eq (f c) (g c)) : Simulates rel Eq (l.forM f) (l.forM g) := by
  induction l with
  | nil => exact pure rfl
  | cons c l ih =>
    rw [List.forall_mem_cons] at hfg
    exact bind hfg.1 fun _ _ _ => ih hfg.2

end Simulates
