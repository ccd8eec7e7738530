import Wasmrt.Library.Grammar

/-!
# Writers

A writer that may fail, and the words that it writes. An encoder writes the length of a word in front of it, in a field of some
width, so that what it writes is a word only where there is room for it.

## Main definitions

* `inTurn`: some writers, one after another.
* `Writes`: a writer comes to its end, and where there is room, it has written one of some words.

## Main results

* `Writes.cons`, `Writes.words`: writers in turn write words in turn.
* `Writes.mapM`: the words can be written first, and put together later.
-/

namespace Recognizer

variable {ε τ α β : Type}

/-- What some writers write, one after another. -/
def inTurn : List (Except ε (List τ)) → Except ε (List τ)
  | [] => .ok []
  | x :: xs => do
    let w ← x
    let w' ← inTurn xs
    pure (w ++ w')

/-- A writer comes to its end, and if there is room for what it has written, then that has a property. -/
def Writes (room : ℕ) (x : Except ε (List τ)) (P : List τ → Prop) : Prop := ∃ w, x = .ok w ∧ (w.length < room → P w)

namespace Writes

variable {room : ℕ} {x : Except ε (List τ)} {xs : List (Except ε (List τ))} {P Q : List τ → Prop}

theorem of_ok {w : List τ} (h : w.length < room → P w) : Writes room (.ok w : Except ε (List τ)) P := ⟨w, rfl, h⟩

theorem mono (h : Writes room x P) (hPQ : ∀ w, w.length < room → P w → Q w) : Writes room x Q := by
  obtain ⟨w, hw, hP⟩ := h
  exact ⟨w, hw, fun hroom => hPQ w hroom (hP hroom)⟩

theorem nil : Writes room (inTurn [] : Except ε (List τ)) fun w => w = [] := .of_ok fun _ => rfl

/-- There is room for the parts of a word where there is room for the word. -/
theorem cons (hx : Writes room x P) (hxs : Writes room (inTurn xs) Q) :
    Writes room (inTurn (x :: xs)) fun v => ∃ w w', v = w ++ w' ∧ P w ∧ Q w' := by
  obtain ⟨w, hw, hP⟩ := hx
  obtain ⟨w', hw', hQ⟩ := hxs
  refine ⟨w ++ w', by rw [inTurn, hw, hw']; rfl, fun hroom => ⟨w, w', rfl, hP ?_, hQ ?_⟩⟩
  all_goals
    rw [List.length_append] at hroom
    omega

theorem singleton (hx : Writes room x P) : Writes room (inTurn [x]) P := by
  refine (hx.cons .nil).mono ?_
  rintro _ - ⟨w, _, rfl, hw, rfl⟩
  rwa [List.append_nil]

/-- What is written for every entry of a list is a word for every entry. -/
theorem words {write : β → Except ε (List τ)} {L : α → List τ → Prop} {bs : List β} {as : List α}
    (h : List.Forall₂ (fun b a => Writes room (write b) (L a)) bs as) :
    Writes room (inTurn (bs.map write)) (Words L as) := by
  induction h with
  | nil => exact Writes.nil.mono fun _ _ hw => Words.nil_iff.mpr hw
  | cons hb _ ih =>
    rw [List.map_cons]
    refine (hb.cons ih).mono ?_
    rintro _ - ⟨w, w', rfl, hw, hw'⟩
    exact .cons hw hw'

/-- What is written for every entry of a list can be kept, and put together later. -/
theorem mapM {write : β → Except ε (List τ)} {L : α → List τ → Prop} {bs : List β} {as : List α}
    (h : List.Forall₂ (fun b a => Writes room (write b) (L a)) bs as) :
    ∃ ws, bs.mapM write = .ok ws ∧
      List.Forall₂ (fun w a => Writes room (.ok w : Except ε (List τ)) (L a)) ws as := by
  induction h with
  | nil => exact ⟨[], rfl, .nil⟩
  | cons hb _ ih =>
    obtain ⟨w, hw, hP⟩ := hb
    obtain ⟨ws, hws, hall⟩ := ih
    exact ⟨w :: ws, by rw [List.mapM_cons, hw, hws]; rfl, .cons ⟨w, rfl, hP⟩ hall⟩

end Writes

end Recognizer
