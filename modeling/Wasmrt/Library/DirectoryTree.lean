import Mathlib.Data.BitVec
import Mathlib.Data.FinEnum
import Mathlib.Tactic.Common

/-!
# Directory trees

Files, directories and symbolic links, and what a path means among them. The pieces of a path are looked up one after
the other, and a link is resolved on its own, from where it stands or from the root, before the pieces after it. The
root may be the root of the tree or a directory that cannot be left.

## Main definitions

* `Tree`: what stands at each place.
* `Rules`: how paths are read: from which root, and how the texts of links are.
* `Leads`, `Resolves`: a path leads to a directory, or to a place that may be anything or nothing yet.

## Main results

* `resolves_append_iff`: a path is resolved through the directory that its first part leads to.
* `resolves_link_iff`: so a link may be replaced by the pieces of its text.
* `Resolves.prefix_dir`: what is resolved stays below the root.
* `Resolves.prefix_of_stays`: a path that never climbs above its start stays below it, if links do not.
-/

namespace DirectoryTree

variable {ν τ : Type*}

/-- What stands at a place. A link has a text. -/
inductive Node (τ : Type*)
  | file
  | dir
  | link (target : τ)
  deriving DecidableEq

/-- What stands at each place, given by the names that lead there. -/
structure Tree (ν τ : Type*) where
  node : List ν → Option (Node τ)
  root_dir : node [] = some .dir
  parent_dir {p : List ν} {c : ν} (h : node (p ++ [c]) ≠ none) : node p = some .dir

/-- A piece of a path. -/
inductive Step (ν : Type*)
  | stay
  | up
  | name (c : ν)
  | refused
  deriving DecidableEq

/-- How paths are read. -/
structure Rules (ν τ : Type*) where
  root : List ν
  /-- Whether the directory above the root is the root. Otherwise it cannot be named. -/
  clamps : Bool
  /-- Whether a link at the end is followed. -/
  follows : Bool
  /-- Whether the text of a link starts at the root, and its pieces. -/
  read : τ → Option (Bool × List (Step ν))

/-- Where the text of a link in `p` starts. -/
def Rules.base (R : Rules ν τ) (absolute : Bool) (p : List ν) : List ν := if absolute then R.root else p

/-- Where a path ends: at a directory itself, or at a name in one. -/
inductive Place (ν : Type*)
  | here (p : List ν)
  | entry (p : List ν) (c : ν)
  deriving DecidableEq

/-- The directory that contains the end of a path. -/
def Place.dir : Place ν → List ν
  | here p => p
  | entry p _ => p

def Place.path : Place ν → List ν
  | here p => p
  | entry p c => p ++ [c]

section Resolution

variable (T : Tree ν τ) (R : Rules ν τ)

/-- A path leads from one directory to another by following so many links. -/
inductive Leads : List ν → List (Step ν) → ℕ → List ν → Prop
  | nil (p : List ν) : Leads p [] 0 p
  | stay {p q : List ν} {rest : List (Step ν)} {n : ℕ} (h : Leads p rest n q) : Leads p (.stay :: rest) n q
  | up {p q : List ν} {rest : List (Step ν)} {n : ℕ} (hp : p ≠ R.root) (h : Leads p.dropLast rest n q) :
      Leads p (.up :: rest) n q
  | clamp {q : List ν} {rest : List (Step ν)} {n : ℕ} (hclamps : R.clamps = true) (h : Leads R.root rest n q) :
      Leads R.root (.up :: rest) n q
  | down {p q : List ν} {c : ν} {rest : List (Step ν)} {n : ℕ} (hnode : T.node (p ++ [c]) = some .dir)
      (h : Leads (p ++ [c]) rest n q) : Leads p (.name c :: rest) n q
  | link {p q r : List ν} {c : ν} {t : τ} {absolute : Bool} {steps rest : List (Step ν)} {m n : ℕ}
      (hnode : T.node (p ++ [c]) = some (.link t)) (hread : R.read t = some (absolute, steps))
      (ht : Leads (R.base absolute p) steps m r) (h : Leads r rest n q) : Leads p (.name c :: rest) (m + n + 1) q

/-- A path resolves, from a directory, to a place by following so many links. All names but the last are of
directories or of links to them. -/
inductive Resolves : List ν → List (Step ν) → ℕ → Place ν → Prop
  | nil (p : List ν) : Resolves p [] 0 (.here p)
  | stay {p : List ν} {x : Place ν} {rest : List (Step ν)} {n : ℕ} (h : Resolves p rest n x) :
      Resolves p (.stay :: rest) n x
  | up {p : List ν} {x : Place ν} {rest : List (Step ν)} {n : ℕ} (hp : p ≠ R.root) (h : Resolves p.dropLast rest n x) :
      Resolves p (.up :: rest) n x
  | clamp {x : Place ν} {rest : List (Step ν)} {n : ℕ} (hclamps : R.clamps = true) (h : Resolves R.root rest n x) :
      Resolves R.root (.up :: rest) n x
  | down {p : List ν} {x : Place ν} {c : ν} {rest : List (Step ν)} {n : ℕ} (hrest : rest ≠ [])
      (hnode : T.node (p ++ [c]) = some .dir) (h : Resolves (p ++ [c]) rest n x) : Resolves p (.name c :: rest) n x
  | link {p r : List ν} {x : Place ν} {c : ν} {t : τ} {absolute : Bool} {steps rest : List (Step ν)} {m n : ℕ}
      (hrest : rest ≠ []) (hnode : T.node (p ++ [c]) = some (.link t)) (hread : R.read t = some (absolute, steps))
      (ht : Leads T R (R.base absolute p) steps m r) (h : Resolves r rest n x) :
      Resolves p (.name c :: rest) (m + n + 1) x
  | last {p : List ν} {c : ν} (hlink : ∀ t, T.node (p ++ [c]) ≠ some (.link t)) :
      Resolves p [.name c] 0 (.entry p c)
  | unfollowed {p : List ν} {c : ν} {t : τ} (hfollows : R.follows = false)
      (hnode : T.node (p ++ [c]) = some (.link t)) : Resolves p [.name c] 0 (.entry p c)
  | followed {p : List ν} {x : Place ν} {c : ν} {t : τ} {absolute : Bool} {steps : List (Step ν)} {n : ℕ}
      (hfollows : R.follows = true) (hnode : T.node (p ++ [c]) = some (.link t))
      (hread : R.read t = some (absolute, steps)) (h : Resolves (R.base absolute p) steps n x) :
      Resolves p [.name c] (n + 1) x

variable {T R}

/-! ## Piece by piece -/

section Pieces

variable {p : List ν} {c : ν} {rest : List (Step ν)} {n : ℕ} {x : Place ν}

theorem resolves_nil_iff : Resolves T R p [] n x ↔ n = 0 ∧ x = .here p := by
  constructor
  · rintro ⟨⟩
    exact ⟨rfl, rfl⟩
  · rintro ⟨rfl, rfl⟩
    exact .nil p

theorem resolves_stay_iff : Resolves T R p (.stay :: rest) n x ↔ Resolves T R p rest n x := by
  constructor
  · rintro ⟨⟩
    assumption
  · exact .stay

theorem resolves_up_iff (hclamps : R.clamps = false) :
    Resolves T R p (.up :: rest) n x ↔ p ≠ R.root ∧ Resolves T R p.dropLast rest n x := by
  constructor
  · intro h
    cases h with
    | up hp h => exact ⟨hp, h⟩
    | clamp h _ => rw [hclamps] at h; cases h
  · rintro ⟨hp, h⟩
    exact .up hp h

theorem not_resolves_refused : ¬Resolves T R p (.refused :: rest) n x := nofun

theorem resolves_dir_iff (hnode : T.node (p ++ [c]) = some .dir) (hrest : rest ≠ []) :
    Resolves T R p (.name c :: rest) n x ↔ Resolves T R (p ++ [c]) rest n x := by
  constructor
  · intro h
    cases h with
    | down _ _ h => exact h
    | link _ hlink _ _ _ => rw [hnode] at hlink; cases hlink
    | last | unfollowed | followed => exact absurd rfl hrest
  · exact .down hrest hnode

/-- The last name is what the path ends at, unless it is of a link that is followed. -/
theorem resolves_last_iff (hlast : (∀ t, T.node (p ++ [c]) ≠ some (.link t)) ∨ R.follows = false) :
    Resolves T R p [.name c] n x ↔ n = 0 ∧ x = .entry p c := by
  constructor
  · intro h
    cases h with
    | down hrest _ _ => exact absurd rfl hrest
    | link hrest _ _ _ _ => exact absurd rfl hrest
    | last | unfollowed => exact ⟨rfl, rfl⟩
    | followed hfollows hlink _ _ =>
      rcases hlast with hlast | hlast
      · exact absurd hlink (hlast _)
      · rw [hlast] at hfollows; cases hfollows
  · rintro ⟨rfl, rfl⟩
    by_cases hlink : ∃ t, T.node (p ++ [c]) = some (.link t)
    · obtain ⟨t, ht⟩ := hlink
      rcases hlast with hlast | hlast
      · exact absurd ht (hlast t)
      · exact .unfollowed hlast ht
    · exact .last fun t ht => hlink ⟨t, ht⟩

/-- Nothing is below what is neither a directory nor a link. -/
theorem not_resolves_name (hdir : T.node (p ++ [c]) ≠ some .dir) (hlink : ∀ t, T.node (p ++ [c]) ≠ some (.link t))
    (hrest : rest ≠ []) : ¬Resolves T R p (.name c :: rest) n x := by
  intro h
  cases h with
  | down _ hnode _ => exact hdir hnode
  | link _ hnode _ _ _ => exact hlink _ hnode
  | last | unfollowed | followed => exact hrest rfl

end Pieces

/-! ## A path in two parts -/

/-- A path goes on from the directory that its first part leads to. -/
theorem Leads.append {p r : List ν} {a b : List (Step ν)} {m n : ℕ} {x : Place ν} (h : Leads T R p a m r)
    (hb : b ≠ []) (hx : Resolves T R r b n x) : Resolves T R p (a ++ b) (m + n) x := by
  induction h with
  | nil p =>
    rw [Nat.zero_add]
    exact hx
  | stay _ ih => exact .stay (ih hx)
  | up hp _ ih => exact .up hp (ih hx)
  | clamp hclamps _ ih => exact .clamp hclamps (ih hx)
  | down hnode _ ih => exact .down (List.append_ne_nil_of_right_ne_nil _ hb) hnode (ih hx)
  | @link p q r c t absolute steps rest m k hnode hread ht _ _ ih =>
    have hlink := Resolves.link (List.append_ne_nil_of_right_ne_nil _ hb) hnode hread ht (ih hx)
    have hcount : m + (k + n) + 1 = m + k + 1 + n := by omega
    rw [hcount] at hlink
    exact hlink

/-- A path is resolved through the directory that its first part leads to. -/
theorem resolves_append_iff {p : List ν} {a b : List (Step ν)} {n : ℕ} {x : Place ν} (hb : b ≠ []) :
    Resolves T R p (a ++ b) n x ↔ ∃ m k r, Leads T R p a m r ∧ Resolves T R r b k x ∧ n = m + k := by
  constructor
  · intro h
    induction a generalizing p n with
    | nil => exact ⟨0, n, p, .nil p, h, (Nat.zero_add n).symm⟩
    | cons s a ih =>
      have hrest : a ++ b ≠ [] := List.append_ne_nil_of_right_ne_nil _ hb
      rw [List.cons_append] at h
      generalize hl : a ++ b = rest at h
      cases h with
      | stay h =>
        obtain ⟨m, k, r, hlead, hx, hn⟩ := ih (hl ▸ h)
        exact ⟨m, k, r, .stay hlead, hx, hn⟩
      | up hp h =>
        obtain ⟨m, k, r, hlead, hx, hn⟩ := ih (hl ▸ h)
        exact ⟨m, k, r, .up hp hlead, hx, hn⟩
      | clamp hclamps h =>
        obtain ⟨m, k, r, hlead, hx, hn⟩ := ih (hl ▸ h)
        exact ⟨m, k, r, .clamp hclamps hlead, hx, hn⟩
      | down _ hnode h =>
        obtain ⟨m, k, r, hlead, hx, hn⟩ := ih (hl ▸ h)
        exact ⟨m, k, r, .down hnode hlead, hx, hn⟩
      | @link _ q _ _ _ _ _ _ j i _ hnode hread ht h =>
        obtain ⟨m, k, r, hlead, hx, hn⟩ := ih (hl ▸ h)
        exact ⟨j + m + 1, k, r, .link hnode hread ht hlead, hx, by omega⟩
      | last _ => exact absurd hl hrest
      | unfollowed _ _ => exact absurd hl hrest
      | followed _ _ _ _ => exact absurd hl hrest
  · rintro ⟨m, k, r, hlead, hx, rfl⟩
    exact hlead.append hb hx

/-- A link may be replaced by the pieces of its text. -/
theorem resolves_link_iff {p : List ν} {c : ν} {t : τ} {rest : List (Step ν)} {n : ℕ} {x : Place ν}
    (hnode : T.node (p ++ [c]) = some (.link t)) (hfollow : rest ≠ [] ∨ R.follows = true) :
    Resolves T R p (.name c :: rest) n x ↔
      ∃ absolute steps k, R.read t = some (absolute, steps) ∧ Resolves T R (R.base absolute p) (steps ++ rest) k x ∧
        n = k + 1 := by
  constructor
  · intro h
    cases h with
    | down _ hdir _ => rw [hnode] at hdir; cases hdir
    | @link _ r _ _ t' absolute steps _ m k hrest hnode' hread ht h =>
      rw [hnode, Option.some.injEq, Node.link.injEq] at hnode'
      exact ⟨absolute, steps, m + k, hnode' ▸ hread, ht.append hrest h, rfl⟩
    | last hlink => exact absurd hnode (hlink t)
    | unfollowed hfollows _ => simp [hfollows] at hfollow
    | @followed _ _ _ t' absolute steps k _ hnode' hread h =>
      rw [hnode, Option.some.injEq, Node.link.injEq] at hnode'
      rw [← List.append_nil steps] at h
      exact ⟨absolute, steps, k, hnode' ▸ hread, h, rfl⟩
  · rintro ⟨absolute, steps, k, hread, h, rfl⟩
    by_cases hrest : rest = []
    · subst hrest
      rw [List.append_nil] at h
      exact .followed (by simpa using hfollow) hnode hread h
    · obtain ⟨m, i, r, hlead, hx, rfl⟩ := (resolves_append_iff hrest).mp h
      exact .link hrest hnode hread hlead hx

/-- A path that resolves has no piece that is refused. -/
theorem Resolves.refused_notMem {p : List ν} {steps : List (Step ν)} {n : ℕ} {x : Place ν}
    (h : Resolves T R p steps n x) : .refused ∉ steps := by
  induction h with
  | nil p => exact List.not_mem_nil
  | stay _ ih | up _ _ ih | clamp _ _ ih | down _ _ _ ih | link _ _ _ _ _ ih => simpa using ih
  | last | unfollowed | followed => simp

/-- The name at the end of a path is one of its pieces, or of the text of a link. -/
theorem Resolves.name_of {P : ν → Prop} {p : List ν} {steps : List (Step ν)} {n : ℕ} {x : Place ν}
    (h : Resolves T R p steps n x) (hsteps : ∀ c, .name c ∈ steps → P c)
    (hread : ∀ t absolute steps, R.read t = some (absolute, steps) → ∀ c, .name c ∈ steps → P c) {q : List ν} {c : ν}
    (hx : x = .entry q c) : P c := by
  induction h with
  | nil p => cases hx
  | stay _ ih | up _ _ ih | clamp _ _ ih | down _ _ _ ih | link _ _ _ _ _ ih =>
    exact ih (fun c hc => hsteps c (List.mem_cons_of_mem _ hc)) hx
  | last _ | unfollowed _ _ =>
    cases hx
    exact hsteps _ List.mem_cons_self
  | followed _ _ ht _ ih => exact ih (hread _ _ _ ht) hx

/-- A link is at the end of a path only if it is not followed. -/
theorem Resolves.not_link (hfollows : R.follows = true) {p : List ν} {steps : List (Step ν)} {n : ℕ} {x : Place ν}
    (h : Resolves T R p steps n x) {q : List ν} {c : ν} (hx : x = .entry q c) (t : τ) :
    T.node (q ++ [c]) ≠ some (.link t) := by
  induction h with
  | nil p => cases hx
  | stay _ ih | up _ _ ih | clamp _ _ ih | down _ _ _ ih | link _ _ _ _ _ ih => exact ih hx
  | last hlink =>
    cases hx
    exact hlink t
  | unfollowed hunfollowed _ =>
    rw [hfollows] at hunfollowed
    cases hunfollowed
  | followed _ _ _ _ ih => exact ih hx

/-! ## Below the root -/

theorem Tree.dir_dropLast {p : List ν} (h : T.node p = some .dir) : T.node p.dropLast = some .dir := by
  rcases List.eq_nil_or_concat p with rfl | ⟨p, c, rfl⟩
  · exact h
  · rw [List.concat_eq_append] at h ⊢
    rw [List.dropLast_concat]
    exact T.parent_dir (by rw [h]; simp)

/-- Everything on the way to a directory is one. -/
theorem Tree.dir_of_prefix {p q : List ν} (h : T.node p = some .dir) (hq : q <+: p) : T.node q = some .dir := by
  induction p using List.reverseRecOn with
  | nil => rwa [List.prefix_nil.mp hq]
  | append_singleton p c ih =>
    rcases List.prefix_concat_iff.mp hq with rfl | hq
    · exact h
    · exact ih (T.parent_dir (by rw [h]; simp)) hq

theorem prefix_dropLast {root p : List ν} (hp : root <+: p) (hne : p ≠ root) : root <+: p.dropLast := by
  rcases List.eq_nil_or_concat p with rfl | ⟨p, c, rfl⟩
  · exact absurd (List.prefix_nil.mp hp).symm hne
  · rw [List.concat_eq_append] at hp hne ⊢
    rw [List.dropLast_concat]
    rcases List.prefix_concat_iff.mp hp with h | h
    · exact absurd h.symm hne
    · exact h

theorem prefix_base {p : List ν} (hp : R.root <+: p) (absolute : Bool) : R.root <+: R.base absolute p := by
  rw [Rules.base]
  split_ifs
  · exact List.prefix_rfl
  · exact hp

theorem Leads.below_root {p q : List ν} {steps : List (Step ν)} {n : ℕ} (h : Leads T R p steps n q) (hp : R.root <+: p) :
    R.root <+: q := by
  induction h with
  | nil p => exact hp
  | stay _ ih => exact ih hp
  | up hne _ ih => exact ih (prefix_dropLast hp hne)
  | clamp _ _ ih => exact ih hp
  | down _ _ ih => exact ih (hp.trans (List.prefix_append _ _))
  | link _ _ _ _ iht ih => exact ih (iht (prefix_base hp _))

theorem Tree.dir_base {p : List ν} (hroot : T.node R.root = some .dir) (hp : T.node p = some .dir) (absolute : Bool) :
    T.node (R.base absolute p) = some .dir := by
  rw [Rules.base]
  split_ifs
  · exact hroot
  · exact hp

theorem Leads.dir {p q : List ν} {steps : List (Step ν)} {n : ℕ} (h : Leads T R p steps n q)
    (hroot : T.node R.root = some .dir) (hp : T.node p = some .dir) : T.node q = some .dir := by
  induction h with
  | nil p => exact hp
  | stay _ ih => exact ih hp
  | up _ _ ih => exact ih (Tree.dir_dropLast hp)
  | clamp _ _ ih => exact ih hp
  | down hnode _ ih => exact ih hnode
  | link _ _ _ _ iht ih => exact ih (iht (Tree.dir_base hroot hp _))

/-- What contains the end of a path is a directory. -/
theorem Resolves.dir {p : List ν} {steps : List (Step ν)} {n : ℕ} {x : Place ν} (h : Resolves T R p steps n x)
    (hroot : T.node R.root = some .dir) (hp : T.node p = some .dir) : T.node x.dir = some .dir := by
  induction h with
  | nil p => exact hp
  | stay _ ih => exact ih hp
  | up _ _ ih => exact ih (Tree.dir_dropLast hp)
  | clamp _ _ ih => exact ih hp
  | down _ hnode _ ih => exact ih hnode
  | link _ _ _ ht _ ih => exact ih (ht.dir hroot (Tree.dir_base hroot hp _))
  | last _ => exact hp
  | unfollowed _ _ => exact hp
  | followed _ _ _ _ ih => exact ih (Tree.dir_base hroot hp _)

/-- What is resolved stays below the root. -/
theorem Resolves.prefix_dir {p : List ν} {steps : List (Step ν)} {n : ℕ} {x : Place ν} (h : Resolves T R p steps n x)
    (hp : R.root <+: p) : R.root <+: x.dir := by
  induction h with
  | nil p => exact hp
  | stay _ ih => exact ih hp
  | up hne _ ih => exact ih (prefix_dropLast hp hne)
  | clamp _ _ ih => exact ih hp
  | down _ _ _ ih => exact ih (hp.trans (List.prefix_append _ _))
  | link _ _ _ ht _ ih => exact ih (ht.below_root (prefix_base hp _))
  | last _ => exact hp
  | unfollowed _ _ => exact hp
  | followed _ _ _ _ ih => exact ih (prefix_base hp _)

/-! ## Paths that do not climb -/

/-- From `depth` below its start, a path never names anything above it, as far as its pieces tell. What has a name in
`L` may be a link, which leads to any depth. -/
def Stays (L : Set ν) : ℕ → List (Step ν) → Prop
  | _, [] => True
  | d, .stay :: rest => Stays L d rest
  | d, .up :: rest => 0 < d ∧ Stays L (d - 1) rest
  | d, .name c :: rest => (c ∈ L → Stays L d rest) ∧ (c ∉ L → Stays L (d + 1) rest)
  | d, .refused :: rest => Stays L d rest

/-- Below `start` all links have a name in `L`, and their texts stay below where the links stand. -/
def LinksStay (T : Tree ν τ) (R : Rules ν τ) (L : Set ν) (start : List ν) : Prop :=
  ∀ p c t, start <+: p → T.node (p ++ [c]) = some (.link t) →
    c ∈ L ∧ ∀ absolute steps, R.read t = some (absolute, steps) → absolute = false ∧ Stays L 0 steps

theorem LinksStay.mono {L : Set ν} {start p : List ν} (h : LinksStay T R L start) (hp : start <+: p) :
    LinksStay T R L p :=
  fun q c t hq => h q c t (hp.trans hq)

section Staying

variable {L : Set ν} {start p : List ν} {rest : List (Step ν)} {d : ℕ}

/-- One level up stays below the start, if the path does. -/
theorem Stays.up (hstays : Stays L d (.up :: rest)) (hp : start <+: p) (hd : start.length + d ≤ p.length) :
    start <+: p.dropLast ∧ start.length + (d - 1) ≤ p.dropLast.length ∧ Stays L (d - 1) rest := by
  obtain ⟨hpos, hrest⟩ := hstays
  have hne : p ≠ start := by
    rintro rfl
    omega
  refine ⟨prefix_dropLast hp hne, ?_, hrest⟩
  rw [List.length_dropLast]
  omega

/-- A name leads one level down. -/
theorem Stays.name {c : ν} (hstays : Stays L d (.name c :: rest)) (hp : start <+: p)
    (hd : start.length + d ≤ p.length) :
    ∃ d', start <+: p ++ [c] ∧ start.length + d' ≤ (p ++ [c]).length ∧ Stays L d' rest := by
  have hdown : start <+: p ++ [c] := hp.trans (List.prefix_append _ _)
  rw [List.length_append, List.length_singleton]
  by_cases hc : c ∈ L
  · exact ⟨d, hdown, by omega, hstays.1 hc⟩
  · exact ⟨d + 1, hdown, by omega, hstays.2 hc⟩

/-- Where a link leads is below the link, and no deeper than is counted. -/
theorem LinksStay.link {r : List ν} {c : ν} {t : τ} {absolute : Bool} {steps : List (Step ν)}
    (h : LinksStay T R L start) (hp : start <+: p) (hd : start.length + d ≤ p.length)
    (hstays : Stays L d (.name c :: rest)) (hnode : T.node (p ++ [c]) = some (.link t))
    (hread : R.read t = some (absolute, steps))
    (ht : p <+: R.base absolute p → p.length + 0 ≤ (R.base absolute p).length → Stays L 0 steps → p <+: r) :
    start <+: r ∧ start.length + d ≤ r.length ∧ Stays L d rest := by
  obtain ⟨hc, htext⟩ := h p c t hp hnode
  obtain ⟨rfl, hsteps⟩ := htext _ _ hread
  have hr : p <+: r := ht List.prefix_rfl le_rfl hsteps
  exact ⟨hp.trans hr, hd.trans hr.length_le, hstays.1 hc⟩

theorem Leads.prefix_of_stays {q : List ν} {steps : List (Step ν)} {n : ℕ} (h : Leads T R p steps n q)
    (hlinks : n = 0 ∨ LinksStay T R L start) (hp : start <+: p) (hd : start.length + d ≤ p.length)
    (hstays : Stays L d steps) : start <+: q := by
  induction h generalizing start d with
  | nil p => exact hp
  | stay _ ih => exact ih hlinks hp hd hstays
  | up _ _ ih =>
    obtain ⟨hp', hd', hrest⟩ := hstays.up hp hd
    exact ih hlinks hp' hd' hrest
  | clamp _ _ ih => exact ih hlinks hp (by omega) hstays.2
  | down _ _ ih =>
    obtain ⟨d', hp', hd', hrest⟩ := hstays.name hp hd
    exact ih hlinks hp' hd' hrest
  | link hnode hread _ _ iht ih =>
    have hbelow := hlinks.resolve_left (by omega)
    obtain ⟨hp', hd', hrest⟩ := hbelow.link hp hd hstays hnode hread (iht (.inr (hbelow.mono hp)))
    exact ih (.inr hbelow) hp' hd' hrest

/-- A path that never climbs above its start stays below it, if no link is followed or all links stay. -/
theorem Resolves.prefix_of_stays {steps : List (Step ν)} {n : ℕ} {x : Place ν} (h : Resolves T R p steps n x)
    (hlinks : n = 0 ∨ LinksStay T R L start) (hp : start <+: p) (hd : start.length + d ≤ p.length)
    (hstays : Stays L d steps) : start <+: x.path := by
  induction h generalizing start d with
  | nil p => exact hp
  | stay _ ih => exact ih hlinks hp hd hstays
  | up _ _ ih =>
    obtain ⟨hp', hd', hrest⟩ := hstays.up hp hd
    exact ih hlinks hp' hd' hrest
  | clamp _ _ ih => exact ih hlinks hp (by omega) hstays.2
  | down _ _ _ ih =>
    obtain ⟨d', hp', hd', hrest⟩ := hstays.name hp hd
    exact ih hlinks hp' hd' hrest
  | link _ hnode hread ht _ ih =>
    have hbelow := hlinks.resolve_left (by omega)
    obtain ⟨hp', hd', hrest⟩ := hbelow.link hp hd hstays hnode hread (ht.prefix_of_stays (.inr (hbelow.mono hp)))
    exact ih (.inr hbelow) hp' hd' hrest
  | last _ => exact hp.trans (List.prefix_append _ _)
  | unfollowed _ _ => exact hp.trans (List.prefix_append _ _)
  | @followed p _ c t absolute steps n _ hnode hread _ ih =>
    have hbelow := hlinks.resolve_left (by omega)
    obtain ⟨-, htext⟩ := hbelow p c t hp hnode
    obtain ⟨rfl, hsteps⟩ := htext _ _ hread
    exact hp.trans (ih (.inr (hbelow.mono hp)) List.prefix_rfl le_rfl hsteps)

end Staying

end Resolution

end DirectoryTree
