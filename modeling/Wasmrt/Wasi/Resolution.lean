import Wasmrt.Library.DirectoryTree
import Wasmrt.Wasi.Requests

/-!
# What the resolver resolves

The resolver keeps one list of the names that are left, into which the target of a link is spliced. It ends where the
path leads in the directory tree of the host, read as one that cannot leave the root.

## Main definitions

* `TreeView`: the directory tree that a host shows.
* `pieces`, `jail`: how the resolver reads paths.
* `walkOf`: how it says where a path ends.

## Main results

* `endsAsResolved_walkLinks`: the names that are left resolve to where the walk ends.
* `walk_refines`: so does a path, and no link is on the way there.
-/

namespace Wasmrt.Wasi

open DirectoryTree (Node Step Place Resolves)

variable {σ : Type}

/-! ## Host and tree -/

/-- The directory tree of a host. -/
abbrev HostTree := DirectoryTree.Tree Bytes Bytes

/-- A name that can stand in a directory. -/
structure IsName (c : Bytes) : Prop where
  ne_nil : c ≠ []
  ne_dot : c ≠ dot
  ne_dotDot : c ≠ dotDot
  noNul : 0 ∉ c
  noSeparator : ∀ b ∈ c, isSeparator b = false

/-- The directory tree that a host shows in each of its states. It does not change while it is only looked at. -/
structure TreeView (H : Host σ) where
  tree : σ → HostTree
  looks_eq {op : HostOp} {s : σ} (h : op.looks = true) : tree (H.answer op s).2 = tree s
  stat_none {s : σ} {p : Path} {c : Bytes} (hp : (tree s).node p = some .dir) (hc : IsName c)
    (h : (tree s).node (p ++ [c]) = none) : (H.answer (.symlinkMetadata (p ++ [c])) s).1 = .error .notFound
  stat_some {s : σ} {p : Path} {c : Bytes} {n : Node Bytes} (hp : (tree s).node p = some .dir) (hc : IsName c)
    (h : (tree s).node (p ++ [c]) = some n) : ∃ m, (H.answer (.symlinkMetadata (p ++ [c])) s).1 = .ok m ∧
      (m.isDir = true ↔ n = .dir) ∧ (m.isSymlink = true ↔ ∃ t, n = .link t)
  readLink {s : σ} {p : Path} {t : Bytes} (h : (tree s).node p = some (.link t)) :
    (H.answer (.readLink p) s).1 = .ok t
  canonicalize {s : σ} {p : Path} (h : (tree s).node p = some .dir) : (H.answer (.canonicalize p) s).1 = .ok p

/-! ## Paths -/

/-- What a piece of a path stands for. `text` tells which pieces the host has as names. -/
def piece (text : Bytes → Bool) (c : Bytes) : Step Bytes :=
  if c.isEmpty || c = dot then .stay
  else if c = dotDot then .up
  else if componentIsForbidden c || !text c then .refused
  else .name c

/-- The pieces of a path. -/
def pieces (text : Bytes → Bool) (path : Bytes) : List (Step Bytes) := (splitPath path).map (piece text)

/-- How the target of a link is read. -/
def readTarget (text : Bytes → Bool) (t : Bytes) : Option (Bool × List (Step Bytes)) :=
  if text t then
    some (isAbsoluteTarget t, pieces text (if isAbsoluteTarget t then stripAbsolute t else t))
  else none

/-- The directory `root` as one that cannot be left. -/
def jail (text : Bytes → Bool) (root : Path) (followFinal : Bool) : DirectoryTree.Rules Bytes Bytes where
  root := root
  clamps := false
  follows := followFinal
  read := readTarget text

/-- Where a walk says that a path ends. -/
def walkOf (T : HostTree) : Place Bytes → Walk
  | .here p => ⟨p, dot, false⟩
  | .entry p c => ⟨p, c, match T.node (p ++ [c]) with | some (.link _) => true | _ => false⟩

/-- Names without separators, as the pieces of a path are. -/
def Split (names : List Bytes) : Prop := ∀ c ∈ names, ∀ b ∈ c, isSeparator b = false

theorem split_splitPath (path : Bytes) : Split (splitPath path) := by
  rw [splitPath]
  induction path with
  | nil =>
    rw [List.splitOnP_nil]
    intro c hc b hb
    rw [List.mem_singleton.mp hc] at hb
    cases hb
  | cons b path ih =>
    rw [List.splitOnP_cons_eq_if_modifyHead]
    split_ifs with hb
    · intro c hc
      rcases List.mem_cons.mp hc with rfl | hc
      · exact nofun
      · exact ih c hc
    · cases hsplit : path.splitOnP isSeparator with
      | nil => exact absurd hsplit (List.splitOnP_ne_nil _ _)
      | cons c rest =>
        rw [hsplit] at ih
        intro c' hc' b' hb'
        rcases List.mem_cons.mp hc' with rfl | hc'
        · rcases List.mem_cons.mp hb' with rfl | hb'
          · exact Bool.eq_false_iff.mpr hb
          · exact ih c List.mem_cons_self b' hb'
        · exact ih c' (List.mem_cons_of_mem _ hc') b' hb'

theorem exists_mem_splitPath {path : Bytes} {b : UInt8} (hb : b ∈ path) (hsep : isSeparator b = false) :
    ∃ c ∈ splitPath path, b ∈ c := by
  rw [splitPath]
  induction path with
  | nil => cases hb
  | cons b' path ih =>
    rw [List.splitOnP_cons_eq_if_modifyHead]
    split_ifs with hsep'
    · rcases List.mem_cons.mp hb with rfl | hb
      · rw [hsep] at hsep'
        cases hsep'
      · obtain ⟨c, hc, hbc⟩ := ih hb
        exact ⟨c, List.mem_cons_of_mem _ hc, hbc⟩
    · cases hsplit : path.splitOnP isSeparator with
      | nil => exact absurd hsplit (List.splitOnP_ne_nil _ _)
      | cons c rest =>
        rw [hsplit] at ih
        rcases List.mem_cons.mp hb with rfl | hb
        · exact ⟨b :: c, List.mem_cons_self, List.mem_cons_self⟩
        · obtain ⟨c', hc', hbc⟩ := ih hb
          rcases List.mem_cons.mp hc' with rfl | hc'
          · exact ⟨b' :: c', List.mem_cons_self, List.mem_cons_of_mem _ hbc⟩
          · exact ⟨c', List.mem_cons_of_mem _ hc', hbc⟩

section Pieces

variable {text : Bytes → Bool} {c : Bytes}

theorem piece_stay (h : (c.isEmpty || c = dot) = true) : piece text c = .stay := if_pos h

theorem piece_up (h : ¬(c.isEmpty || c = dot) = true) (hup : c = dotDot) : piece text c = .up := by
  rw [piece, if_neg h, if_pos hup]

theorem piece_refused (h : ¬(c.isEmpty || c = dot) = true) (hup : c ≠ dotDot)
    (hbad : componentIsForbidden c = true ∨ text c = false) : piece text c = .refused := by
  rw [piece, if_neg h, if_neg hup, if_pos]
  rcases hbad with hbad | hbad <;> simp [hbad]

theorem piece_name (h : ¬(c.isEmpty || c = dot) = true) (hup : c ≠ dotDot) (hgood : componentIsForbidden c = false)
    (htext : text c = true) : piece text c = .name c := by
  rw [piece, if_neg h, if_neg hup, if_neg]
  simp [hgood, htext]

/-- A piece that is not refused has nothing that is forbidden. -/
theorem componentIsForbidden_of_piece (h : piece text c ≠ .refused) : componentIsForbidden c = false := by
  by_cases hskip : (c.isEmpty || c = dot) = true
  · rcases Bool.or_eq_true_iff.mp hskip with hnil | hdot
    · rw [List.isEmpty_iff.mp hnil]
      rfl
    · rw [of_decide_eq_true hdot]
      decide
  by_cases hup : c = dotDot
  · rw [hup]
    decide
  by_contra hbad
  exact h (piece_refused hskip hup (.inl (by simpa using hbad)))

/-- A piece that is a name is no `.`. -/
theorem ne_dot_of_piece {c' : Bytes} (h : piece text c = .name c') : c' ≠ dot := by
  by_cases hskip : (c.isEmpty || c = dot) = true
  · rw [piece_stay hskip] at h
    cases h
  by_cases hup : c = dotDot
  · rw [piece_up hskip hup] at h
    cases h
  by_cases hgood : componentIsForbidden c = true ∨ text c = false
  · rw [piece_refused hskip hup hgood] at h
    cases h
  push Not at hgood
  rw [piece_name hskip hup (Bool.eq_false_iff.mpr hgood.1) (by simpa using hgood.2),
    Step.name.injEq] at h
  rintro rfl
  exact hskip (by simp [h])

theorem ne_dot_of_mem_pieces {path : Bytes} (h : .name c ∈ pieces text path) : c ≠ dot := by
  obtain ⟨c', -, hc'⟩ := List.mem_map.mp h
  exact ne_dot_of_piece hc'

theorem isName_of_good (h : ¬(c.isEmpty || c = dot) = true) (hup : c ≠ dotDot) (hgood : componentIsForbidden c = false)
    (hc : ∀ b ∈ c, isSeparator b = false) : IsName c where
  ne_nil := by
    rintro rfl
    exact h rfl
  ne_dot := by
    rintro rfl
    exact h (by decide)
  ne_dotDot := hup
  noNul hmem := by
    rw [componentIsForbidden, List.contains_iff_mem.mpr hmem] at hgood
    cases hgood
  noSeparator := hc

end Pieces

/-! ## The walk -/

section Walking

variable {H : Host σ} (V : TreeView H) {root : Path} {followFinal : Bool}

/-- Looking at the tree leaves it. -/
theorem TreeView.tree_request (op : HostOp) (hop : op.looks = true) (w : World σ) :
    ∃ w', request H op w = .ok (H.answer op w.host).1 w' ∧ V.tree w'.host = V.tree w.host :=
  ⟨_, rfl, V.looks_eq hop⟩

include V

/-- The check at the end of a walk succeeds. -/
theorem verifyBeneath_ok {stack : Path} {w : World σ} (hroot : (V.tree w.host).node root = some .dir)
    (hdir : (V.tree w.host).node (root ++ stack) = some .dir) :
    ∃ w', verifyBeneath H root (root ++ stack) w = .ok () w' := by
  obtain ⟨w₁, hask₁, htree₁⟩ := V.tree_request (.canonicalize root) rfl w
  obtain ⟨w₂, hask₂, -⟩ := V.tree_request (.canonicalize (root ++ stack)) rfl w₁
  rw [V.canonicalize hroot] at hask₁
  rw [← htree₁] at hdir
  rw [V.canonicalize hdir] at hask₂
  refine ⟨w₂, ?_⟩
  rw [verifyBeneath, estate_bind_of_ok (show (request H (.canonicalize root) >>= orErrno) w = .ok root w₁ by
    rw [estate_bind_of_ok hask₁]; rfl)]
  rw [estate_bind_of_ok (show (request H (.canonicalize (root ++ stack)) >>= orErrno) w₁ = .ok (root ++ stack) w₂ by
    rw [estate_bind_of_ok hask₂]; rfl)]
  have hprefix : root.isPrefixOf (root ++ stack) = true := List.isPrefixOf_iff_prefix.mpr (List.prefix_append _ _)
  rw [if_pos hprefix]
  rfl

/-- A walk that ends succeeds with where it ends. -/
theorem ends_iff {stack : Path} {w : World σ} (hroot : (V.tree w.host).node root = some .dir)
    (hdir : (V.tree w.host).node (root ++ stack) = some .dir) (a W : Walk) :
    (∃ w', (verifyBeneath H root (root ++ stack) >>= fun _ => pure a : WasiM σ Walk) w = .ok W w') ↔ W = a := by
  obtain ⟨w₁, hverify⟩ := verifyBeneath_ok V hroot hdir
  rw [estate_bind_of_ok hverify]
  constructor
  · rintro ⟨w', h⟩
    cases h
    rfl
  · rintro rfl
    exact ⟨w₁, rfl⟩

/-- What a walk with `budget` links left, at `stack` below the root, ends with for each world that shows the tree. -/
def EndsAsResolved (T : HostTree) (root : Path) (followFinal : Bool) (budget : ℕ)
    (walker : List Bytes → Path → WasiM σ Walk) : Prop :=
  ∀ (names : List Bytes) (stack : Path) (w : World σ), V.tree w.host = T → T.node (root ++ stack) = some .dir →
    Split names → ∀ W, (∃ w', walker names stack w = .ok W w') ↔
      ∃ n x, n ≤ budget ∧ Resolves T (jail isUtf8 root followFinal) (root ++ stack) (names.map (piece isUtf8)) n x ∧
        W = walkOf T x

/-- The links that may still be followed: none, or one more than `next` may follow. -/
def Allows (T : HostTree) (root : Path) (followFinal : Bool) (budget : ℕ) :
    Option (List Bytes → Path → WasiM σ Walk) → Prop
  | none => budget = 0
  | some next => ∃ b, budget = b + 1 ∧ EndsAsResolved V T root followFinal b next

omit V in
/-- A last name that is not followed is what the path ends at. -/
theorem last_iff {T : HostTree} {p : Path} {c : Bytes} {budget : ℕ} {W : Walk}
    (hlast : (∀ t, T.node (p ++ [c]) ≠ some (.link t)) ∨ followFinal = false) :
    W = walkOf T (.entry p c) ↔ ∃ n x, n ≤ budget ∧
      Resolves T (jail isUtf8 root followFinal) p (.name c :: [].map (piece isUtf8)) n x ∧ W = walkOf T x := by
  constructor
  · intro h
    exact ⟨0, _, Nat.zero_le _, (DirectoryTree.resolves_last_iff hlast).mpr ⟨rfl, rfl⟩, h⟩
  · rintro ⟨n, x, -, hx, h⟩
    obtain ⟨-, rfl⟩ := (DirectoryTree.resolves_last_iff hlast).mp hx
    exact h

/-- A link that is followed: its target is spliced into the names that are left. -/
theorem followed_iff {T : HostTree} {budget : ℕ} {follow : Option (List Bytes → Path → WasiM σ Walk)}
    (hroot : T.node root = some .dir) (hfollow : Allows V T root followFinal budget follow) {c t : Bytes}
    {pending : List Bytes} {stack : Path} {w : World σ} (hw : V.tree w.host = T)
    (hdir : T.node (root ++ stack) = some .dir) (hsplit : Split pending)
    (hnode : T.node (root ++ stack ++ [c]) = some (.link t)) (hfollowed : pending ≠ [] ∨ followFinal = true)
    (W : Walk) :
    (∃ w', (match follow with
      | none => throw .loop
      | some next => do
        let target ← request H (.readLink (root ++ stack ++ [c])) >>= orErrno
        let t ← osToBytes target
        if isAbsoluteTarget t then next (splitPath (stripAbsolute t) ++ pending) []
        else next (splitPath t ++ pending) stack : WasiM σ Walk) w = .ok W w') ↔
      ∃ n x, n ≤ budget ∧ Resolves T (jail isUtf8 root followFinal) (root ++ stack)
        (.name c :: pending.map (piece isUtf8)) n x ∧ W = walkOf T x := by
  have hfollowed' : pending.map (piece isUtf8) ≠ [] ∨ (jail isUtf8 root followFinal).follows = true := by
    rcases hfollowed with h | h
    · exact .inl fun hnil => h (List.map_eq_nil_iff.mp hnil)
    · exact .inr h
  have hresolves := fun n x => DirectoryTree.resolves_link_iff (n := n) (x := x) hnode hfollowed'
  simp only [hresolves]
  cases follow with
  | none =>
    obtain rfl : budget = 0 := hfollow
    refine iff_of_false (fun h => by obtain ⟨_, h⟩ := h; cases h) ?_
    rintro ⟨n, x, hn, ⟨_, _, k, -, -, rfl⟩, -⟩
    omega
  | some next =>
    obtain ⟨b, rfl, hnext⟩ := hfollow
    obtain ⟨w₁, hask, htree⟩ := V.tree_request (.readLink (root ++ stack ++ [c])) rfl w
    have hw₁ : V.tree w₁.host = T := htree.trans hw
    rw [← hw] at hnode
    rw [V.readLink hnode] at hask
    have htarget : (request H (.readLink (root ++ stack ++ [c])) >>= orErrno) w = .ok t w₁ := by
      rw [estate_bind_of_ok hask]
      rfl
    dsimp only
    rw [estate_bind_of_ok htarget]
    by_cases htext : isUtf8 t = true
    · have hutf : (osToBytes t : WasiM σ Bytes) w₁ = .ok t w₁ := by
        rw [osToBytes, if_pos htext]
        rfl
      rw [estate_bind_of_ok hutf]
      have hread : (jail isUtf8 root followFinal).read t =
          some (isAbsoluteTarget t, pieces isUtf8 (if isAbsoluteTarget t then stripAbsolute t else t)) := if_pos htext
      -- Where the target starts, and the names with it.
      have hspliced : ∀ u stack', T.node (root ++ stack') = some .dir →
          (jail isUtf8 root followFinal).base (isAbsoluteTarget t) (root ++ stack) = root ++ stack' →
          (if isAbsoluteTarget t then stripAbsolute t else t) = u →
          ((∃ w', next (splitPath u ++ pending) stack' w₁ = .ok W w') ↔ ∃ n x, n ≤ b + 1 ∧
            (∃ absolute steps k, (jail isUtf8 root followFinal).read t = some (absolute, steps) ∧
              Resolves T (jail isUtf8 root followFinal) ((jail isUtf8 root followFinal).base absolute (root ++ stack))
                (steps ++ pending.map (piece isUtf8)) k x ∧ n = k + 1) ∧ W = walkOf T x) := by
        intro u stack' hdir' hbase hu
        have hsplit' : Split (splitPath u ++ pending) := by
          intro c' hc'
          exact (List.mem_append.mp hc').elim (split_splitPath u c') (hsplit c')
        rw [hnext _ stack' w₁ hw₁ hdir' hsplit' W, List.map_append]
        constructor
        · rintro ⟨n, x, hn, hx, hW⟩
          refine ⟨n + 1, x, by omega, ⟨_, _, n, hread, ?_, rfl⟩, hW⟩
          rw [hbase, hu]
          exact hx
        · rintro ⟨n, x, hn, ⟨absolute, steps, k, hread', hx, rfl⟩, hW⟩
          rw [hread, Option.some.injEq, Prod.mk.injEq] at hread'
          obtain ⟨rfl, rfl⟩ := hread'
          rw [hbase, hu] at hx
          exact ⟨k, x, by omega, hx, hW⟩
      by_cases habs : isAbsoluteTarget t = true
      · rw [if_pos habs]
        refine hspliced _ [] ?_ ?_ (if_pos habs)
        · rwa [List.append_nil]
        · rw [habs, List.append_nil]
          rfl
      · rw [if_neg habs]
        refine hspliced _ stack hdir ?_ (if_neg habs)
        rw [Bool.eq_false_iff.mpr habs]
        rfl
    · have hutf : (osToBytes t : WasiM σ Bytes) w₁ = .error .inval w₁ := by
        rw [osToBytes, if_neg htext]
        rfl
      rw [estate_bind_of_error hutf]
      refine iff_of_false (fun h => by obtain ⟨_, h⟩ := h; cases h) ?_
      rintro ⟨n, x, -, ⟨_, _, _, hread, -⟩, -⟩
      have hnone : (jail isUtf8 root followFinal).read t = none := if_neg htext
      rw [hnone] at hread
      cases hread

/-- A name that is looked up: the walk goes on, ends or fails as the resolution does. -/
theorem walkNames_name_iff {T : HostTree} {budget : ℕ} {follow : Option (List Bytes → Path → WasiM σ Walk)}
    (hroot : T.node root = some .dir) (hfollow : Allows V T root followFinal budget follow) {c : Bytes}
    {pending : List Bytes} {stack : Path} {w : World σ} (hw : V.tree w.host = T)
    (hdir : T.node (root ++ stack) = some .dir) (hsplit : Split (c :: pending))
    (hskip : ¬(c.isEmpty || c = dot) = true) (hup : c ≠ dotDot) (hgood : componentIsForbidden c = false)
    (htext : isUtf8 c = true)
    (ih : ∀ stack w, V.tree w.host = T → T.node (root ++ stack) = some .dir → ∀ W,
      (∃ w', walkNames H root followFinal follow pending stack w = .ok W w') ↔
        ∃ n x, n ≤ budget ∧ Resolves T (jail isUtf8 root followFinal) (root ++ stack) (pending.map (piece isUtf8)) n x ∧
          W = walkOf T x) (W : Walk) :
    (∃ w', walkNames H root followFinal follow (c :: pending) stack w = .ok W w') ↔
      ∃ n x, n ≤ budget ∧ Resolves T (jail isUtf8 root followFinal) (root ++ stack)
        (.name c :: pending.map (piece isUtf8)) n x ∧ W = walkOf T x := by
  have hname : IsName c := isName_of_good hskip hup hgood (hsplit c List.mem_cons_self)
  have hutf : (bytesToOs c : WasiM σ Bytes) w = .ok c w := by
    rw [bytesToOs, if_pos htext]
    rfl
  obtain ⟨w₁, hask, htree⟩ := V.tree_request (.symlinkMetadata (root ++ stack ++ [c])) rfl w
  have hw₁ : V.tree w₁.host = T := htree.trans hw
  rw [walkNames, if_neg hskip, if_neg hup, if_neg (by rw [hgood]; exact Bool.false_ne_true), estate_bind_of_ok hutf]
  subst hw
  rw [← hw₁] at hroot hdir
  have hends := fun a => ends_iff V hroot hdir a W
  rw [hw₁] at hroot hdir
  show (∃ w', (request H (.symlinkMetadata (root ++ stack ++ [c])) >>= _) w = .ok W w') ↔ _
  rw [estate_bind_of_ok hask]
  cases hnode : (V.tree w.host).node (root ++ stack ++ [c]) with
  | none =>
    rw [V.stat_none hdir hname hnode]
    have hnolink : ∀ t, (V.tree w.host).node (root ++ stack ++ [c]) ≠ some (.link t) := by
      intro t h
      cases hnode.symm.trans h
    cases pending with
    | nil =>
      have hwalk : walkOf (V.tree w.host) (.entry (root ++ stack) c) = ⟨root ++ stack, c, false⟩ := by
        rw [walkOf, hnode]
      refine (hends ⟨root ++ stack, c, false⟩).trans ?_
      rw [← hwalk]
      exact last_iff (.inl hnolink)
    | cons c' pending =>
      refine iff_of_false (fun h => by obtain ⟨_, h⟩ := h; cases h) ?_
      rintro ⟨n, x, -, h, -⟩
      exact DirectoryTree.not_resolves_name (fun h => by cases hnode.symm.trans h) hnolink (by simp) h
  | some node =>
    obtain ⟨m, hans, hisDir, hisLink⟩ := V.stat_some hdir hname hnode
    rw [hans]
    show (∃ w', (if (m.isSymlink && !(pending.isEmpty && !followFinal)) = true then _ else _ : WasiM σ Walk) w₁ =
      .ok W w') ↔ _
    by_cases hlink : ∃ t, node = .link t
    · obtain ⟨t, rfl⟩ := hlink
      have hsym : m.isSymlink = true := hisLink.mpr ⟨t, rfl⟩
      by_cases hfollowed : pending ≠ [] ∨ followFinal = true
      · -- The link is followed.
        have hcond : (m.isSymlink && !(pending.isEmpty && !followFinal)) = true := by
          rcases hfollowed with h | h <;> simp [hsym, h]
        rw [if_pos hcond]
        exact followed_iff V hroot hfollow hw₁ hdir (fun c' hc' => hsplit c' (List.mem_cons_of_mem _ hc')) hnode
          hfollowed W
      · obtain ⟨rfl, rfl⟩ : pending = [] ∧ followFinal = false := by simpa using hfollowed
        have hwalk : walkOf (V.tree w.host) (.entry (root ++ stack) c) = ⟨root ++ stack, c, m.isSymlink⟩ := by
          rw [walkOf, hnode, hsym]
        rw [if_neg (by simp)]
        refine (hends ⟨root ++ stack, c, m.isSymlink⟩).trans ?_
        rw [← hwalk]
        exact last_iff (.inr rfl)
    · have hsym : m.isSymlink = false := Bool.eq_false_iff.mpr fun h => hlink (hisLink.mp h)
      have hnolink : ∀ t, (V.tree w.host).node (root ++ stack ++ [c]) ≠ some (.link t) := by
        intro t ht
        rw [hnode, Option.some.injEq] at ht
        exact hlink ⟨t, ht⟩
      rw [if_neg (by simp [hsym])]
      cases pending with
      | nil =>
        have hwalk : walkOf (V.tree w.host) (.entry (root ++ stack) c) = ⟨root ++ stack, c, m.isSymlink⟩ := by
          rw [walkOf, hnode, hsym]
          cases node with
          | file | dir => rfl
          | link t => exact absurd ⟨t, rfl⟩ hlink
        refine (hends ⟨root ++ stack, c, m.isSymlink⟩).trans ?_
        rw [← hwalk]
        exact last_iff (.inl hnolink)
      | cons c' pending =>
        show (∃ w', (if (!m.isDir) = true then throw .notdir else _ : WasiM σ Walk) w₁ = .ok W w') ↔ _
        by_cases hisdir : node = .dir
        · subst hisdir
          rw [if_neg (by simp [hisDir.mpr rfl])]
          have hbelow := ih (stack ++ [c]) w₁ hw₁ (by rw [← List.append_assoc]; exact hnode) W
          rw [← List.append_assoc] at hbelow
          have hresolves := fun n x => DirectoryTree.resolves_dir_iff (n := n) (x := x)
            (R := jail isUtf8 root followFinal) hnode (by simp : (c' :: pending).map (piece isUtf8) ≠ [])
          simp only [hresolves]
          exact hbelow
        · rw [if_pos (by simpa using fun h => hisdir (hisDir.mp h))]
          refine iff_of_false (fun h => by obtain ⟨_, h⟩ := h; cases h) ?_
          rintro ⟨n, x, -, h, -⟩
          refine DirectoryTree.not_resolves_name (fun h => ?_) hnolink (by simp) h
          rw [hnode, Option.some.injEq] at h
          exact hisdir h

/-- The names that are left resolve to where the walk ends. -/
theorem endsAsResolved_walkNames {T : HostTree} {budget : ℕ} {follow : Option (List Bytes → Path → WasiM σ Walk)}
    (hroot : T.node root = some .dir) (hfollow : Allows V T root followFinal budget follow) :
    EndsAsResolved V T root followFinal budget (walkNames H root followFinal follow) := by
  intro names
  induction names with
  | nil =>
    intro stack w hw hdir _ W
    subst hw
    rw [walkNames]
    refine (ends_iff V hroot hdir ⟨root ++ stack, dot, false⟩ W).trans ?_
    rw [List.map_nil]
    simp only [DirectoryTree.resolves_nil_iff]
    constructor
    · rintro rfl
      exact ⟨0, _, Nat.zero_le _, ⟨rfl, rfl⟩, rfl⟩
    · rintro ⟨_, _, -, ⟨rfl, rfl⟩, h⟩
      exact h
  | cons c pending ih =>
    intro stack w hw hdir hsplit W
    have hpending : Split pending := fun c' hc' => hsplit c' (List.mem_cons_of_mem _ hc')
    rw [List.map_cons]
    by_cases hskip : (c.isEmpty || c = dot) = true
    · rw [walkNames, if_pos hskip, piece_stay hskip]
      simp only [DirectoryTree.resolves_stay_iff]
      exact ih stack w hw hdir hpending W
    by_cases hup : c = dotDot
    · rw [walkNames, if_neg hskip, if_pos hup, piece_up hskip hup]
      simp only [DirectoryTree.resolves_up_iff (show (jail isUtf8 root followFinal).clamps = false from rfl)]
      by_cases hstack : stack = []
      · rw [hstack, if_pos List.isEmpty_nil]
        refine iff_of_false (fun h => by obtain ⟨_, h⟩ := h; cases h) ?_
        rintro ⟨_, _, -, ⟨hne, -⟩, -⟩
        exact hne (List.append_nil root)
      · have hlast : (root ++ stack).dropLast = root ++ stack.dropLast := List.dropLast_append_of_ne_nil hstack
        have hne : root ++ stack ≠ root := fun h => hstack (List.append_right_eq_self.mp h)
        have hdir' : T.node (root ++ stack.dropLast) = some .dir := hlast ▸ DirectoryTree.Tree.dir_dropLast hdir
        rw [if_neg (by simpa using hstack), hlast]
        simp only [ne_eq, show (jail isUtf8 root followFinal).root = root from rfl, hne, not_false_eq_true, true_and]
        exact ih stack.dropLast w hw hdir' hpending W
    by_cases hgood : componentIsForbidden c = true
    · rw [walkNames, if_neg hskip, if_neg hup, if_pos hgood, piece_refused hskip hup (.inl hgood)]
      refine iff_of_false (fun h => by obtain ⟨_, h⟩ := h; cases h) ?_
      rintro ⟨_, _, -, h, -⟩
      exact DirectoryTree.not_resolves_refused h
    by_cases htext : isUtf8 c = true
    · rw [piece_name hskip hup (Bool.eq_false_iff.mpr hgood) htext]
      exact walkNames_name_iff V hroot hfollow hw hdir hsplit hskip hup (Bool.eq_false_iff.mpr hgood) htext
        (fun stack w hw hdir W => ih stack w hw hdir hpending W) W
    · have hutf : (bytesToOs c : WasiM σ Bytes) w = .error .inval w := by
        rw [bytesToOs, if_neg htext]
        rfl
      rw [walkNames, if_neg hskip, if_neg hup, if_neg hgood, estate_bind_of_error hutf,
        piece_refused hskip hup (.inr (Bool.eq_false_iff.mpr htext))]
      refine iff_of_false (fun h => by obtain ⟨_, h⟩ := h; cases h) ?_
      rintro ⟨_, _, -, h, -⟩
      exact DirectoryTree.not_resolves_refused h

theorem endsAsResolved_walkLinks {T : HostTree} (hroot : T.node root = some .dir) (budget : ℕ) :
    EndsAsResolved V T root followFinal budget (walkLinks H root followFinal budget) := by
  induction budget with
  | zero => exact endsAsResolved_walkNames V hroot (show Allows V T root followFinal 0 none from rfl)
  | succ budget ih => exact endsAsResolved_walkNames V hroot ⟨budget, rfl, ih⟩

/-- The names of a path resolve to where the walk ends. -/
theorem walk_iff {w : World σ} (hroot : (V.tree w.host).node root = some .dir) (path : Bytes) (W : Walk) :
    (∃ w', walk H root path followFinal w = .ok W w') ↔ ∃ n x, n ≤ symlinkMax ∧
      Resolves (V.tree w.host) (jail isUtf8 root followFinal) root (pieces isUtf8 path) n x ∧
        W = walkOf (V.tree w.host) x := by
  have hends : EndsAsResolved V (V.tree w.host) root followFinal symlinkMax (walkLinks H root followFinal symlinkMax) :=
    endsAsResolved_walkLinks V hroot symlinkMax
  have hlinks := hends (splitPath path) [] w rfl (by rwa [List.append_nil]) (split_splitPath path) W
  rw [List.append_nil] at hlinks
  by_cases hbad : path.contains 0 = true ∨ (splitPath path).any componentIsForbidden = true
  · -- What is refused before the walk starts has a piece that is refused.
    have hrefused : .refused ∈ pieces isUtf8 path := by
      have hforbidden : ∃ c ∈ splitPath path, componentIsForbidden c = true := by
        rcases hbad with hnul | hforbidden
        · obtain ⟨c, hc, hmem⟩ := exists_mem_splitPath (List.contains_iff_mem.mp hnul) (by decide)
          exact ⟨c, hc, by rw [componentIsForbidden, List.contains_iff_mem.mpr hmem]; rfl⟩
        · exact List.any_eq_true.mp hforbidden
      obtain ⟨c, hc, hforbidden⟩ := hforbidden
      refine List.mem_map.mpr ⟨c, hc, ?_⟩
      by_contra hne
      rw [componentIsForbidden_of_piece hne] at hforbidden
      cases hforbidden
    refine iff_of_false ?_ fun ⟨n, x, _, h, _⟩ => h.refused_notMem hrefused
    rintro ⟨w', h⟩
    rw [walk] at h
    split_ifs at h with hnul hforbidden
    · cases h
    · cases h
    · exact hbad.elim hnul hforbidden
  · push Not at hbad
    rw [walk, if_neg hbad.1, if_neg hbad.2]
    exact hlinks

omit V in
/-- Where a path ends is said by a directory, a name and whether the name is of a link. -/
theorem walkOf_spec {T : HostTree} {path : Bytes} {n : ℕ} {x : Place Bytes} (hroot : T.node root = some .dir)
    (h : Resolves T (jail isUtf8 root followFinal) root (pieces isUtf8 path) n x) :
    (walkOf T x).path = x.path ∧
      ((walkOf T x).finalIsSymlink = true ↔ followFinal = false ∧ ∃ t, T.node x.path = some (.link t)) := by
  cases x with
  | here p =>
    refine ⟨if_pos rfl, iff_of_false Bool.false_ne_true ?_⟩
    rintro ⟨-, t, ht⟩
    have hdir : T.node p = some .dir := h.dir hroot hroot
    rw [DirectoryTree.Place.path, hdir] at ht
    cases ht
  | entry p c =>
    have hne : c ≠ dot := by
      refine h.name_of (fun c hc => ne_dot_of_mem_pieces hc) ?_ rfl
      intro t absolute steps hread c hc
      rw [show (jail isUtf8 root followFinal).read t = readTarget isUtf8 t from rfl, readTarget] at hread
      split_ifs at hread <;>
      · rw [Option.some.injEq, Prod.mk.injEq] at hread
        rw [← hread.2] at hc
        exact ne_dot_of_mem_pieces hc
    refine ⟨if_neg hne, ?_⟩
    have hlink := fun hfollows t => h.not_link hfollows rfl t
    show (match T.node (p ++ [c]) with | some (.link _) => true | _ => false) = true ↔
      followFinal = false ∧ ∃ t, T.node (p ++ [c]) = some (.link t)
    cases hnode : T.node (p ++ [c]) with
    | none => simp
    | some node =>
      cases node with
      | file | dir => simp
      | link t =>
        have hunfollowed : followFinal = false := Bool.eq_false_iff.mpr fun hfollows => hlink hfollows t hnode
        simp [hunfollowed]

/-- A walk ends where the path leads in a directory that cannot be left. No link is on the way there. -/
theorem walk_refines {w : World σ} (hroot : (V.tree w.host).node root = some .dir) (path : Bytes) (W : Walk) :
    ((∃ w', walk H root path followFinal w = .ok W w') ↔ ∃ n x, n ≤ symlinkMax ∧
      Resolves (V.tree w.host) (jail isUtf8 root followFinal) root (pieces isUtf8 path) n x ∧
        W.dir = x.dir ∧ W.path = x.path ∧ W = walkOf (V.tree w.host) x) ∧
    ((∃ w', walk H root path followFinal w = .ok W w') → root <+: W.dir ∧
      (∀ p, p <+: W.dir → (V.tree w.host).node p = some .dir) ∧
      (W.finalIsSymlink = true ↔ followFinal = false ∧ ∃ t, (V.tree w.host).node W.path = some (.link t))) := by
  have hdir : ∀ x : Place Bytes, (walkOf (V.tree w.host) x).dir = x.dir := by
    intro x
    cases x <;> rfl
  rw [walk_iff V hroot]
  constructor
  · constructor
    · rintro ⟨n, x, hn, hx, rfl⟩
      exact ⟨n, x, hn, hx, hdir x, (walkOf_spec hroot hx).1, rfl⟩
    · rintro ⟨n, x, hn, hx, -, -, h⟩
      exact ⟨n, x, hn, hx, h⟩
  · rintro ⟨n, x, -, hx, rfl⟩
    obtain ⟨hpath, hlink⟩ := walkOf_spec hroot hx
    rw [hpath, hdir]
    exact ⟨hx.prefix_dir List.prefix_rfl, fun p hp => DirectoryTree.Tree.dir_of_prefix (hx.dir hroot hroot) hp, hlink⟩

end Walking

/-! ## A host of links -/

section Links

/-- A directory with some links. -/
def linkTree (links : List (Bytes × Bytes)) : HostTree where
  node
    | [] => some .dir
    | [d] => if d = [114] then some .dir else none
    | [d, c] => if d = [114] then (links.lookup c).map .link else none
    | _ => none
  root_dir := rfl
  parent_dir {p c} h := by
    match p with
    | [] => rfl
    | [d] =>
      by_cases hd : d = [114]
      · exact if_pos hd
      · exact absurd (if_neg hd) h
    | [_, _] => exact (h rfl).elim
    | _ :: _ :: _ :: _ => exact (h rfl).elim

/-- What a host says about something of a type. -/
def statOf (n : Node Bytes) : Metadata where
  isDir := n = .dir
  isSymlink := match n with | .link _ => true | _ => false
  isFile := n = .file
  len := 0
  accessed := 0
  modified := 0
  created := 0

/-- What a host says about a place in its tree. -/
def statIn (T : HostTree) (p : Path) : Except IoError Metadata :=
  match T.node p with
  | some n => .ok (statOf n)
  | none => .error .notFound

def readIn (T : HostTree) (p : Path) : Except IoError Bytes :=
  match T.node p with
  | some (.link t) => .ok t
  | _ => .error .invalidInput

def canonicalizeIn (T : HostTree) (p : Path) : Except IoError Path :=
  if T.node p = some .dir then .ok p else .error .notFound

theorem statIn_none {T : HostTree} {p : Path} (h : T.node p = none) : statIn T p = .error .notFound := by
  rw [statIn, h]

theorem statIn_some {T : HostTree} {p : Path} {n : Node Bytes} (h : T.node p = some n) :
    ∃ m, statIn T p = .ok m ∧ (m.isDir = true ↔ n = .dir) ∧ (m.isSymlink = true ↔ ∃ t, n = .link t) := by
  refine ⟨statOf n, by rw [statIn, h], decide_eq_true_iff, ?_⟩
  cases n <;> simp [statOf]

theorem readIn_eq {T : HostTree} {p : Path} {t : Bytes} (h : T.node p = some (.link t)) : readIn T p = .ok t := by
  rw [readIn, h]

/-- A host with such a directory, where a link is made whatever its target. -/
def linkHost : Host (List (Bytes × Bytes)) where
  answer
    | .symlinkMetadata p, links => (statIn (linkTree links) p, links)
    | .metadata p, links =>
      (if (linkTree links).node p = some .dir then .ok (statOf .dir) else .error .notFound, links)
    | .readLink p, links => (readIn (linkTree links) p, links)
    | .canonicalize p, links => (canonicalizeIn (linkTree links) p, links)
    | .symlink t [d, c] _, links =>
      if d = [114] ∧ links.lookup c = none then (.ok (), (c, t) :: links) else (.error .alreadyExists, links)
    | .symlink _ _ _, links | .fileMetadata _, links | .readDir _, links | .open_ _ _, links | .createDir _, links
    | .removeDir _, links | .removeFile _, links | .hardLink _ _, links | .rename _ _, links | .seek _ _, links
    | .streamPosition _, links | .read _ _, links | .write _ _, links | .setLen _ _, links | .writeStd _ _, links =>
      (.error .other, links)
    | .nowNanos, links => (0, links)
    | .fillRandom n, links => (List.replicate n 0, links)

/-- Its tree. -/
def linkView : TreeView linkHost where
  tree := linkTree
  looks_eq {op s} h := by
    cases op <;> first | rfl | cases h
  stat_none _ _ h := statIn_none h
  stat_some _ _ h := statIn_some h
  readLink h := readIn_eq h
  canonicalize h := if_pos h

/-- A process that holds the directory. -/
def linkProcess : World (List (Bytes × Bytes)) where
  args := []
  env := []
  stdin := []
  stdinPos := 0
  stdout := .inherit_
  stderr := .inherit_
  exit := none
  fds := FdTable.preopened [⟨[[114]], some [46], Rights.all, Rights.all⟩]
  mem := none
  host := []
  log := []

theorem walk_refines_links :
    ((∃ w', walk linkHost [[114]] [97] true linkProcess = .ok ⟨[[114]], [97], false⟩ w') ↔ ∃ n x, n ≤ symlinkMax ∧
      Resolves (linkTree []) (jail isUtf8 [[114]] true) [[114]] (pieces isUtf8 [97]) n x ∧
        [[114]] = x.dir ∧ [[114], [97]] = x.path ∧ ⟨[[114]], [97], false⟩ = walkOf (linkTree []) x) ∧
    ((∃ w', walk linkHost [[114]] [97] true linkProcess = .ok ⟨[[114]], [97], false⟩ w') →
      ([[114]] : Path) <+: [[114]] ∧ (∀ p : Path, p <+: [[114]] → (linkTree []).node p = some .dir) ∧
      (false = true ↔ true = false ∧ ∃ t, (linkTree []).node [[114], [97]] = some (.link t))) :=
  walk_refines linkView (by rfl) [97] ⟨[[114]], [97], false⟩

/-- A name that is no text may not be used, even for what is not there yet. -/
theorem walk_not_utf8 :
    ¬ ∀ W, (∃ w', walk linkHost [[114]] [255] true linkProcess = .ok W w') ↔ ∃ n x, n ≤ symlinkMax ∧
      Resolves (linkTree []) (jail (fun _ => true) [[114]] true) [[114]] (pieces (fun _ => true) [255]) n x ∧
        W.dir = x.dir ∧ W.path = x.path ∧ W = walkOf (linkTree []) x := by
  intro h
  have hplace : Resolves (linkTree []) (jail (fun _ => true) [[114]] true) [[114]] (pieces (fun _ => true) [255]) 0
      (.entry [[114]] [255]) := .last fun t => nofun
  obtain ⟨w', hwalk⟩ := (h ⟨[[114]], [255], false⟩).mpr ⟨0, _, Nat.zero_le _, hplace, rfl, rfl, rfl⟩
  cases hwalk

end Links

end Wasmrt.Wasi
