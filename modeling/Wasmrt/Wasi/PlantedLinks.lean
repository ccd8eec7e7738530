import Wasmrt.Wasi.Attenuation
import Wasmrt.Wasi.Resolution

/-!
# Links that a guest makes

A guest may only ask for links whose targets, as their names tell, do not leave the directory that holds the link. A
reader on the host who follows one ends below that directory, wherever the link was moved, unless it comes back by `..`
from another link on the way.

## Main definitions

* `Planted`: the links that are asked for.
* `hostReader`: how a host reads a path.

## Main results

* `below_of_planted`: a link that a guest made, followed at the end of a run.
-/

namespace Wasmrt.Wasi

open DirectoryTree (Node Step Place Resolves Stays LinksStay)

variable {σ : Type} {H : Host σ}

/-! ## What is asked for -/

/-- A target that does not leave the directory of its link. -/
structure Planted (t : Bytes) : Prop where
  text : isUtf8 t = true
  relative : isAbsoluteTarget t = false
  stays : escapesRelative t = false

/-- A request that makes no other links. -/
def Plants : HostOp → Prop
  | .symlink t _ _ => Planted t
  | _ => True

theorem plants_of_not_mutates (op : HostOp) (h : op.mutates = false) : Plants op := by
  cases op with
  | symlink _ _ _ => cases h
  | _ => trivial

theorem bytesToOs_eq_ok {b b' : Bytes} {w w' : World σ} (h : bytesToOs b w = .ok b' w') : isUtf8 b = true ∧ b' = b := by
  rw [bytesToOs] at h
  split_ifs at h with hutf
  · exact ⟨hutf, (estate_pure_eq_ok.mp h).1.symm⟩
  · exact absurd h estate_throw_ne_ok

theorem asks_plants_pathSymlink (args : List Value) (w : World σ) : Asks Plants w (pathSymlink H args w).state := by
  refine Asks.bind (Asks.keeps_guestRead _ _ w) fun target w₁ _ => ?_
  refine Asks.bind (Asks.keeps_refuseIf _ _ w₁) fun _ w₂ h₂ => ?_
  obtain ⟨hgood, -⟩ := refuseIf_eq_ok.mp h₂
  obtain ⟨hrelative, hstays⟩ := Bool.or_eq_false_iff.mp hgood
  refine Asks.bind (Asks.keeps_resolve plants_of_not_mutates _ _ _ _ _ w₂) fun walked w₃ _ => ?_
  refine Asks.bind (Asks.keeps_bytesToOs _ w₃) fun t w₄ h₄ => ?_
  obtain ⟨htext, rfl⟩ := bytesToOs_eq_ok h₄
  have hplanted : ∀ isDir, Plants (.symlink t walked.path isDir) := fun _ => ⟨htext, hrelative, hstays⟩
  exact Asks.keeps_bind (Asks.keeps_request (plants_of_not_mutates _ rfl)) (fun m =>
    Asks.keeps_bind (Asks.keeps_request (hplanted _)) Asks.keeps_orErrno) w₄

/-- A call asks for no other links. -/
theorem exists_ops_plants (f : WasiFunc) (args : List Value) (w : World σ) :
    ∃ ops, (dispatch H f args w).2.log = w.log ++ ops ∧ ∀ op ∈ ops, Plants op := by
  by_cases hf : f = .pathSymlink
  · rw [hf, dispatch_eq (by simp), finish_snd]
    exact (asks_plants_pathSymlink args w).exists_ops
  · obtain ⟨ops, hlog, hops⟩ := exists_ops_dispatch H f args w
    refine ⟨ops, hlog, fun op hop => ?_⟩
    have hlicensed := hops op hop
    cases op with
    | symlink t link isDir => exact absurd hlicensed.1 hf
    | _ => trivial

/-- A guest asks for no other links. -/
theorem plants_runCalls {w : World σ} (hw : ∀ op ∈ w.log, Plants op) (L : Lineage) (calls : List GuestCall) :
    ∀ op ∈ (runCalls H w L calls).1.log, Plants op := by
  induction calls generalizing w L with
  | nil => exact hw
  | cons c calls ih =>
    refine ih ?_ _
    obtain ⟨ops, hlog, hops⟩ := exists_ops_plants (H := H) c.func c.args (c.start w)
    rw [hlog]
    intro op hop
    exact (List.mem_append.mp hop).elim (hw op) (hops op)

/-! ## A reader on the host -/

/-- What a name in a path stands for on a host. -/
def hostPiece (c : Bytes) : Step Bytes :=
  if c.isEmpty || c = dot then .stay
  else if c = dotDot then .up
  else .name c

/-- How a host reads a path, where `separates` tells what divides it. Nothing is above the root, and every link is
followed. -/
def hostReader (separates : UInt8 → Bool) : DirectoryTree.Rules Bytes Bytes where
  root := []
  clamps := true
  follows := true
  read t := some (t.head?.any separates, (t.splitOnP separates).map hostPiece)

/-- Names that do not climb, as they are checked, do not. -/
theorem stays_of_escapesFrom {d : ℕ} {names : List Bytes} (h : escapesFrom d names = false) :
    Stays ∅ d (names.map hostPiece) := by
  induction names generalizing d with
  | nil => trivial
  | cons c names ih =>
    rw [escapesFrom.eq_def] at h
    dsimp only at h
    rw [List.map_cons, hostPiece]
    split_ifs at h ⊢ with hskip hup
    · exact ih h
    · cases d with
      | zero => cases h
      | succ d => exact ⟨Nat.succ_pos d, ih h⟩
    · exact ⟨nofun, fun _ => ih h⟩

theorem splitOnP_congr {p q : UInt8 → Bool} {t : Bytes} (h : ∀ b ∈ t, p b = q b) : t.splitOnP p = t.splitOnP q := by
  induction t with
  | nil => rfl
  | cons b t ih =>
    rw [List.splitOnP_cons_eq_if_modifyHead, List.splitOnP_cons_eq_if_modifyHead, h b List.mem_cons_self,
      ih fun b' hb' => h b' (List.mem_cons_of_mem _ hb')]

/-- Such a target is read as one from the directory of its link that does not climb. -/
theorem Planted.read {t : Bytes} (h : Planted t) {separates : UInt8 → Bool}
    (hsep : ∀ b ∈ t, separates b = isSeparator b) :
    ∃ steps, (hostReader separates).read t = some (false, steps) ∧ Stays ∅ 0 steps := by
  refine ⟨(splitPath t).map hostPiece, ?_, stays_of_escapesFrom h.stays⟩
  have hrelative : t.head?.any separates = false := by
    cases t with
    | nil => rfl
    | cons b t =>
      show separates b = false
      rw [hsep b List.mem_cons_self]
      exact (Bool.or_eq_false_iff.mp h.relative).1
  show some (t.head?.any separates, (t.splitOnP separates).map hostPiece) = _
  rw [hrelative, splitOnP_congr hsep]
  rfl

/-- A reader who follows such a link ends below the directory that holds it, if nothing else is followed or all links
that may be stay below where they stand. -/
theorem Planted.below {T : HostTree} {t c : Bytes} (h : Planted t) {D : Path}
    (hlink : T.node (D ++ [c]) = some (.link t)) {separates : UInt8 → Bool}
    (hsep : ∀ b ∈ t, separates b = isSeparator b) {n : ℕ} {x : Place Bytes}
    (hx : Resolves T (hostReader separates) D [.name c] n x)
    (hlinks : n = 1 ∨ ∃ L, LinksStay T (hostReader separates) L D) : D <+: x.path := by
  rcases hlinks with rfl | ⟨L, hlinks⟩
  · obtain ⟨steps, hread, hstays⟩ := h.read hsep
    obtain ⟨absolute, steps', k, hread', hx, hk⟩ := (DirectoryTree.resolves_link_iff hlink (.inr rfl)).mp hx
    obtain ⟨rfl, rfl⟩ := Prod.mk.inj (Option.some.inj (hread.symm.trans hread'))
    rw [List.append_nil] at hx
    exact hx.prefix_of_stays (.inl (by omega)) List.prefix_rfl le_rfl hstays
  · have hstays : Stays L 0 [Step.name c] := ⟨fun _ => trivial, fun _ => trivial⟩
    exact hx.prefix_of_stays (.inr hlinks) List.prefix_rfl le_rfl hstays

/-! ## Every run -/

/-- A link that a guest made in some run: its target does not leave the directory of the link, and neither does a
reader who follows it where it stands in the end. -/
theorem below_of_planted (V : TreeView H) {w : World σ} (hstart : w.log = []) (L : Lineage) (calls : List GuestCall)
    {t link : Bytes} {path : Path} {isDir : Bool} (hmade : .symlink t path isDir ∈ (runCalls H w L calls).1.log)
    {D : Path} (hlink : (V.tree (runCalls H w L calls).1.host).node (D ++ [link]) = some (.link t)) :
    Planted t ∧ ∀ (separates : UInt8 → Bool), (∀ b ∈ t, separates b = isSeparator b) → ∀ (n : ℕ) (x : Place Bytes),
      Resolves (V.tree (runCalls H w L calls).1.host) (hostReader separates) D [.name link] n x →
      (n = 1 ∨ ∃ names, LinksStay (V.tree (runCalls H w L calls).1.host) (hostReader separates) names D) →
      D <+: x.path := by
  have hplanted : Planted t := plants_runCalls (by rw [hstart]; nofun) L calls _ hmade
  exact ⟨hplanted, fun separates hsep n x hx hlinks => hplanted.below hlink hsep hx hlinks⟩

/-- A guest that makes a link `s` to the directory itself, and a link `l` to `s/..`. -/
def plantPair : List GuestCall :=
  [⟨.pathSymlink, [0, 1, 3, 1, 1], some [46, 115]⟩, ⟨.pathSymlink, [0, 4, 3, 4, 1], some [115, 47, 46, 46, 108]⟩]

/-- What the directory holds then. -/
def pairLinks : List (Bytes × Bytes) := [([108], [115, 47, 46, 46]), ([115], [46])]

theorem below_of_planted_pair : Planted [46] ∧ ∀ (separates : UInt8 → Bool),
    (∀ b ∈ ([46] : Bytes), separates b = isSeparator b) → ∀ (n : ℕ) (x : Place Bytes),
      Resolves (linkTree pairLinks) (hostReader separates) [[114]] [.name [115]] n x →
      (n = 1 ∨ ∃ names, LinksStay (linkTree pairLinks) (hostReader separates) names [[114]]) → [[114]] <+: x.path :=
  below_of_planted linkView rfl (Lineage.start []) plantPair
    (show .symlink [46] [[114], [115]] true ∈ (runCalls linkHost linkProcess (Lineage.start []) plantPair).1.log by
      decide) rfl

/-- Behind `s` the name `..` is above the directory. -/
theorem not_below_planted_pair :
    ¬ ∀ (t link : Bytes) (path : Path) (isDir : Bool) (D : Path) (n : ℕ) (x : Place Bytes),
      .symlink t path isDir ∈ (runCalls linkHost linkProcess (Lineage.start []) plantPair).1.log →
      (linkTree (runCalls linkHost linkProcess (Lineage.start []) plantPair).1.host).node (D ++ [link]) =
        some (.link t) → [[114]] <+: D →
      Resolves (linkTree (runCalls linkHost linkProcess (Lineage.start []) plantPair).1.host) (hostReader (· == 47)) D
        [.name link] n x → [[114]] <+: x.path := by
  intro h
  have hnode : (linkTree pairLinks).node ([[114]] ++ [[115]]) = some (.link [46]) := rfl
  have hread : (hostReader (· == 47)).read [46] = some (false, [.stay]) := rfl
  have hup : ([[114]] : Path) ≠ (hostReader (· == 47)).root := List.cons_ne_nil _ _
  have hself : Resolves (linkTree pairLinks) (hostReader (· == 47)) [[114]] [.name [115], .up] 1 (.here []) :=
    .link (List.cons_ne_nil _ _) hnode hread (.stay (.nil [[114]])) (.up hup (.nil []))
  have hnode' : (linkTree pairLinks).node ([[114]] ++ [[108]]) = some (.link [115, 47, 46, 46]) := rfl
  have hread' : (hostReader (· == 47)).read [115, 47, 46, 46] = some (false, [.name [115], .up]) := rfl
  have hlink : Resolves (linkTree pairLinks) (hostReader (· == 47)) [[114]] [.name [108]] 2 (.here []) :=
    .followed rfl hnode' hread' hself
  have hbelow := h [115, 47, 46, 46] [108] [[114], [108]] false [[114]] 2 (.here []) (by decide) (by rfl)
    List.prefix_rfl hlink
  exact absurd hbelow (by decide)

end Wasmrt.Wasi
