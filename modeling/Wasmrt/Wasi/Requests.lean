import Wasmrt.Wasi.Calls

/-!
# What a call asks of the host

Most calls leave the table of descriptors alone and ask the host for what their rights cover.

## Main definitions

* `HostOp.mutates`: the requests that change the file tree, or the content, the length or the name of a file.
* `Asks P`: from one state to the other the table is kept, and the host was asked only for what `P` allows.

## Main results

* `Asks.keeps_walk` and its companions: what the parts of a call ask for.
-/

namespace Wasmrt.Wasi

/-- Whether a request changes the file tree, or the content, the length or the name of a file. -/
def HostOp.mutates : HostOp → Bool
  | open_ _ opts => opts.create || opts.createNew || opts.truncate
  | createDir _ | removeDir _ | removeFile _ | symlink _ _ _ | hardLink _ _ | rename _ _ | write _ _ | setLen _ _ => true
  | _ => false

/-- Whether a request only looks at the file tree. -/
def HostOp.looks : HostOp → Bool
  | symlinkMetadata _ | metadata _ | readLink _ | canonicalize _ | readDir _ => true
  | _ => false

theorem HostOp.not_mutates_of_looks {op : HostOp} (h : op.looks = true) : op.mutates = false := by
  cases op <;> first | rfl | cases h

variable {σ : Type}

/-! ## Reading from guest memory -/

section Reading

variable {R : World σ → World σ → Prop} (hR : ∀ w, R w w) (hT : ∀ ⦃w w' w''⦄, R w w' → R w' w'' → R w w'')

theorem keeps_ite {α : Type} {c : Prop} [Decidable c] {x y : WasiM σ α} (hx : Keeps R x) (hy : Keeps R y) :
    Keeps R (if c then x else y) := by
  split_ifs
  · exact hx
  · exact hy

include hR

theorem keeps_checkedAdd (addr k : ℕ) : Keeps R (checkedAdd addr k : WasiM σ ℕ) :=
  keeps_ite (Keeps.pure hR _) (Keeps.throw hR _)

include hT

theorem keeps_guestRead (addr len : ℕ) : Keeps R (guestRead addr len : WasiM σ Bytes) := by
  refine Keeps.bind hT (Keeps.get hR) fun w => ?_
  cases w.mem with
  | some bytes => exact keeps_ite (Keeps.pure hR _) (Keeps.throw hR _)
  | none => exact Keeps.throw hR _

theorem keeps_readIovecs (ptr count : ℕ) : Keeps R (readIovecs ptr count : WasiM σ (List (ℕ × ℕ))) := by
  have hread : ∀ addr, Keeps R (readU32 addr : WasiM σ ℕ) := fun addr =>
    Keeps.bind hT (keeps_guestRead hR hT addr 4) fun _ => Keeps.pure hR _
  refine Keeps.bind hT (keeps_guestRead hR hT _ _) fun _ => Keeps.mapM hR hT (fun i => ?_) _
  exact Keeps.bind hT (keeps_checkedAdd hR _ _) fun _ => Keeps.bind hT (hread _) fun _ =>
    Keeps.bind hT (keeps_checkedAdd hR _ _) fun _ => Keeps.bind hT (hread _) fun _ => Keeps.pure hR _

theorem keeps_gather (vecs : List (ℕ × ℕ)) : Keeps R (gather vecs : WasiM σ Bytes) :=
  Keeps.bind hT (Keeps.mapM hR hT (fun _ => keeps_guestRead hR hT _ _) _) fun _ => Keeps.pure hR _

/-- What only the memory may differ in is written to it. -/
theorem keeps_guestWrite (hmem : ∀ w m, R w { w with mem := m }) (addr : ℕ) (data : Bytes) :
    Keeps R (guestWrite addr data : WasiM σ Unit) := by
  refine Keeps.bind hT (Keeps.get hR) fun w => ?_
  cases w.mem with
  | some bytes => exact keeps_ite (Keeps.modify fun w => hmem w _) (Keeps.throw hR _)
  | none => exact Keeps.throw hR _

/-! ## The resolver -/

section Resolving

variable {H : Host σ} (hlook : ∀ op : HostOp, op.looks = true → Keeps R (request H op))

omit hT in
theorem keeps_orErrno {α : Type} (x : Except IoError α) : Keeps R (orErrno x : WasiM σ α) := by
  cases x with
  | ok a => exact Keeps.pure hR a
  | error e => exact Keeps.throw hR _

omit hT in
theorem keeps_bytesToOs (b : Bytes) : Keeps R (bytesToOs b : WasiM σ Bytes) :=
  keeps_ite (Keeps.pure hR _) (Keeps.throw hR _)

include hlook

theorem keeps_verifyBeneath (root dir : Path) : Keeps R (verifyBeneath H root dir) := by
  have hcanonicalize : ∀ p, Keeps R (request H (.canonicalize p) >>= orErrno) := fun p =>
    Keeps.bind hT (hlook _ rfl) fun x => keeps_orErrno hR x
  exact Keeps.bind hT (hcanonicalize root) fun _ => Keeps.bind hT (hcanonicalize dir) fun _ =>
    keeps_ite (Keeps.pure hR _) (Keeps.throw hR _)

theorem keeps_walkNames {root : Path} {followFinal : Bool} {follow : Option (List Bytes → Path → WasiM σ Walk)}
    (hfollow : ∀ next ∈ follow, ∀ names stack, Keeps R (next names stack)) (names : List Bytes) (stack : Path) :
    Keeps R (walkNames H root followFinal follow names stack) := by
  have hend : ∀ dir name final, Keeps R (verifyBeneath H root dir >>= fun _ => pure (Walk.mk dir name final)) :=
    fun dir _ _ => Keeps.bind hT (keeps_verifyBeneath hR hT hlook root dir) fun _ => Keeps.pure hR _
  induction names generalizing stack with
  | nil => exact hend _ _ _
  | cons c pending ih =>
    rw [walkNames]
    refine keeps_ite (ih _) (keeps_ite (keeps_ite (Keeps.throw hR _) (ih _)) (keeps_ite (Keeps.throw hR _) ?_))
    refine Keeps.bind hT (keeps_bytesToOs hR c) fun name => Keeps.bind hT (hlook _ rfl) fun r => ?_
    cases r with
    | error e => exact keeps_ite (hend _ _ _) (Keeps.throw hR _)
    | ok stat =>
      refine keeps_ite ?_ (keeps_ite (hend _ _ _) (keeps_ite (Keeps.throw hR _) (ih _)))
      cases follow with
      | none => exact Keeps.throw hR _
      | some next =>
        refine Keeps.bind hT (Keeps.bind hT (hlook _ rfl) (keeps_orErrno hR)) fun target =>
          Keeps.bind hT (keeps_bytesToOs hR target) fun t => ?_
        exact keeps_ite (hfollow next rfl _ _) (hfollow next rfl _ _)

theorem keeps_walkLinks (root : Path) (followFinal : Bool) (budget : ℕ) (names : List Bytes) (stack : Path) :
    Keeps R (walkLinks H root followFinal budget names stack) := by
  induction budget generalizing names stack with
  | zero => exact keeps_walkNames hR hT hlook (fun _ h => by cases h) names stack
  | succ budget ih =>
    refine keeps_walkNames hR hT hlook ?_ names stack
    intro next hnext
    cases hnext
    exact ih

theorem keeps_walk (root : Path) (guestPath : Bytes) (followFinal : Bool) :
    Keeps R (walk H root guestPath followFinal) :=
  keeps_ite (Keeps.throw hR _) (keeps_ite (Keeps.throw hR _) (keeps_walkLinks hR hT hlook _ _ _ _ _))

theorem keeps_resolve (fd : BitVec 32) (need : Rights) (ptr len : ℕ) (followFinal : Bool) :
    Keeps R (resolve H fd need ptr len followFinal) := by
  refine Keeps.bind hT (Keeps.get hR) fun w => ?_
  cases w.fds.get fd with
  | none => exact Keeps.throw hR _
  | some e =>
    cases e with
    | dir d =>
      exact Keeps.bind hT (keeps_ite (Keeps.throw hR _) (Keeps.pure hR ())) fun _ =>
        Keeps.bind hT (keeps_guestRead hR hT _ _) fun _ => keeps_walk hR hT hlook _ _ _
    | stdin | stdout | stderr | file f => exact Keeps.throw hR _

end Resolving

end Reading

/-- What is read from guest memory leaves the world as it was. -/
theorem world_of_keeps {α : Type} {x : WasiM σ α} (hx : ∀ {R : World σ → World σ → Prop}, (∀ w, R w w) →
    (∀ ⦃w w' w''⦄, R w w' → R w' w'' → R w w'') → Keeps R x) {w w' : World σ} {a : α} (h : x w = .ok a w') : w' = w :=
  ((hx (fun _ => rfl) fun _ _ _ h h' => h.trans h' : Keeps Eq x).of_eq_ok h).symm

/-- The table is kept, and the host was asked only for what `P` allows. -/
structure Asks (P : HostOp → Prop) (w w' : World σ) : Prop where
  fds_eq : w'.fds = w.fds
  exists_ops : ∃ ops, w'.log = w.log ++ ops ∧ ∀ op ∈ ops, P op

namespace Asks

variable {P : HostOp → Prop} {H : Host σ}

theorem refl (w : World σ) : Asks P w w := ⟨rfl, [], (List.append_nil _).symm, nofun⟩

theorem trans ⦃w w' w'' : World σ⦄ (h : Asks P w w') (h' : Asks P w' w'') : Asks P w w'' := by
  obtain ⟨ops, hlog, hops⟩ := h.exists_ops
  obtain ⟨ops', hlog', hops'⟩ := h'.exists_ops
  refine ⟨h'.fds_eq.trans h.fds_eq, ops ++ ops', by rw [hlog', hlog, List.append_assoc], ?_⟩
  intro op hop
  exact (List.mem_append.mp hop).elim (hops op) (hops' op)

/-- What leaves the table and the log alone. -/
theorem of_eq {w w' : World σ} (hfds : w'.fds = w.fds) (hlog : w'.log = w.log) : Asks P w w' :=
  ⟨hfds, [], by rw [hlog, List.append_nil], nofun⟩

/-! ## The parts of a computation -/

theorem keeps_pure {α : Type} (a : α) : Keeps (Asks P) (pure a : WasiM σ α) := Keeps.pure refl a

theorem keeps_throw {α : Type} (e : Errno) : Keeps (Asks P) (throw e : WasiM σ α) := Keeps.throw refl e

theorem keeps_get : Keeps (Asks P) (get : WasiM σ (World σ)) := Keeps.get refl

theorem keeps_bind {α β : Type} {x : WasiM σ α} {f : α → WasiM σ β} (hx : Keeps (Asks P) x)
    (hf : ∀ a, Keeps (Asks P) (f a)) : Keeps (Asks P) (x >>= f) := Keeps.bind trans hx hf

theorem keeps_ite {α : Type} {c : Prop} [Decidable c] {x y : WasiM σ α} (hx : Keeps (Asks P) x)
    (hy : Keeps (Asks P) y) : Keeps (Asks P) (if c then x else y) := Wasi.keeps_ite hx hy

theorem keeps_refuseIf (bad : Bool) (e : Errno) : Keeps (Asks P) (refuseIf bad e : WasiM σ Unit) :=
  keeps_ite (keeps_throw e) (keeps_pure ())

theorem keeps_request {op : HostOp} (h : P op) : Keeps (Asks P) (request H op) :=
  fun _ => ⟨rfl, [op], rfl, fun _ hop => List.mem_singleton.mp hop ▸ h⟩

theorem keeps_orErrno {α : Type} (x : Except IoError α) : Keeps (Asks P) (orErrno x : WasiM σ α) :=
  Wasi.keeps_orErrno refl x

theorem keeps_bytesToOs (b : Bytes) : Keeps (Asks P) (bytesToOs b : WasiM σ Bytes) := Wasi.keeps_bytesToOs refl b

/-! ## Guest memory -/

theorem keeps_guestRead (addr len : ℕ) : Keeps (Asks P) (guestRead addr len : WasiM σ Bytes) :=
  Wasi.keeps_guestRead refl trans addr len

theorem keeps_guestWrite (addr : ℕ) (data : Bytes) : Keeps (Asks P) (guestWrite addr data : WasiM σ Unit) :=
  Wasi.keeps_guestWrite refl trans (fun _ _ => of_eq rfl rfl) addr data

theorem keeps_writeU32 (addr v : ℕ) : Keeps (Asks P) (writeU32 addr v : WasiM σ Unit) := keeps_guestWrite _ _

theorem keeps_writeU64 (addr v : ℕ) : Keeps (Asks P) (writeU64 addr v : WasiM σ Unit) := keeps_guestWrite _ _

theorem keeps_createFirst {host : Path} {needed : Bool}
    (h : needed = true → P (.open_ host ⟨false, true, true, false, false⟩)) :
    Keeps (Asks P) (createFirst H host needed) := by
  cases needed with
  | false => exact keeps_pure _
  | true => exact keeps_bind (keeps_bind (keeps_request (h rfl)) keeps_orErrno) fun _ => keeps_pure _

theorem keeps_checkedAdd (addr k : ℕ) : Keeps (Asks P) (checkedAdd addr k : WasiM σ ℕ) :=
  keeps_ite (keeps_pure _) (keeps_throw _)

theorem keeps_readIovecs (ptr count : ℕ) : Keeps (Asks P) (readIovecs ptr count : WasiM σ (List (ℕ × ℕ))) :=
  Wasi.keeps_readIovecs refl trans ptr count

theorem keeps_gather (vecs : List (ℕ × ℕ)) : Keeps (Asks P) (gather vecs : WasiM σ Bytes) :=
  Wasi.keeps_gather refl trans vecs

/-! ## The process -/

theorem keeps_sinkWrite (hP : ∀ op : HostOp, op.mutates = false → P op) (stderr : Bool) (data : Bytes) :
    Keeps (Asks P) (sinkWrite H stderr data) := by
  intro w
  rw [sinkWrite, estate_get_bind]
  cases (if stderr then w.stderr else w.stdout) with
  | inherit_ => exact keeps_request (hP _ rfl) w
  | capture buf => cases stderr <;> exact of_eq rfl rfl

theorem keeps_writeVecs (hP : ∀ op : HostOp, op.mutates = false → P op) (stderr : Bool) (nwritten total : ℕ)
    (vecs : List (ℕ × ℕ)) : Keeps (Asks P) (writeVecs H stderr nwritten total vecs) := by
  induction vecs generalizing total with
  | nil => exact keeps_pure _
  | cons v vecs ih =>
    refine keeps_bind (keeps_guestRead _ _) fun chunk => keeps_bind (keeps_sinkWrite hP stderr chunk) fun r => ?_
    cases r with
    | error e => exact keeps_bind (keeps_writeU32 _ _) fun _ => keeps_throw _
    | ok u => exact ih _

theorem keeps_readVecs (total : ℕ) (vecs : List (ℕ × ℕ)) : Keeps (Asks P) (readVecs total vecs : WasiM σ ℕ) := by
  induction vecs generalizing total with
  | nil => exact keeps_pure _
  | cons v vecs ih =>
    rw [readVecs]
    refine keeps_ite (ih _) (keeps_bind keeps_get fun w => ?_)
    exact keeps_ite (keeps_pure _) <| keeps_bind (keeps_guestWrite _ _) fun _ =>
      keeps_bind (Keeps.modify fun _ => of_eq rfl rfl) fun _ => ih _

theorem keeps_fdWrite (hP : ∀ op : HostOp, op.mutates = false → P op) (args : List Value) :
    Keeps (Asks P) (fdWrite H args) :=
  keeps_bind (keeps_refuseIf _ _) fun _ => keeps_bind (keeps_readIovecs _ _) fun _ =>
    keeps_bind (keeps_writeVecs hP _ _ _ _) fun _ => keeps_writeU32 _ _

theorem keeps_fdRead (args : List Value) : Keeps (Asks P) (fdRead args : WasiM σ Unit) :=
  keeps_bind (keeps_refuseIf _ _) fun _ => keeps_bind (keeps_readIovecs _ _) fun _ =>
    keeps_bind (keeps_readVecs _ _) fun _ => keeps_writeU32 _ _

theorem keeps_sizesGet (items : List Bytes) (args : List Value) :
    Keeps (Asks P) (sizesGet items args : WasiM σ Unit) :=
  keeps_bind (keeps_writeU32 _ _) fun _ => keeps_writeU32 _ _

theorem keeps_stringsGet (items : List Bytes) (args : List Value) :
    Keeps (Asks P) (stringsGet items args : WasiM σ Unit) := by
  rw [stringsGet]
  generalize argU args 0 = slot
  generalize argU args 1 = cursor
  induction items generalizing slot cursor with
  | nil => exact keeps_pure _
  | cons item items ih =>
    exact keeps_bind (keeps_checkedAdd _ _) fun _ => keeps_bind (keeps_writeU32 _ _) fun _ =>
      keeps_bind (keeps_guestWrite _ _) fun _ => keeps_bind (keeps_checkedAdd _ _) fun _ => ih _ _

/-! ## Calls that ask nothing of the host -/

theorem keeps_fdPrestatGet (args : List Value) : Keeps (Asks P) (fdPrestatGet args : WasiM σ Unit) := by
  refine keeps_bind keeps_get fun w => ?_
  split
  · exact keeps_guestWrite _ _
  · exact keeps_throw _

theorem keeps_fdPrestatDirName (args : List Value) : Keeps (Asks P) (fdPrestatDirName args : WasiM σ Unit) := by
  refine keeps_bind keeps_get fun w => ?_
  split
  · exact keeps_bind (keeps_refuseIf _ _) fun _ => keeps_guestWrite _ _
  · exact keeps_throw _

theorem keeps_fdFdstatGet (args : List Value) : Keeps (Asks P) (fdFdstatGet args : WasiM σ Unit) := by
  refine keeps_bind keeps_get fun w => ?_
  split
  · exact keeps_throw _
  · exact keeps_guestWrite _ _

section Reading

variable (hP : ∀ op : HostOp, op.mutates = false → P op)

include hP

theorem keeps_resolve (fd : BitVec 32) (need : Rights) (ptr len : ℕ) (followFinal : Bool) :
    Keeps (Asks P) (resolve H fd need ptr len followFinal) :=
  Wasi.keeps_resolve refl trans (fun op h => keeps_request (hP op (HostOp.not_mutates_of_looks h))) fd need ptr len
    followFinal

/-! ## Calls that change nothing -/

theorem keeps_fdFilestatGet (args : List Value) : Keeps (Asks P) (fdFilestatGet H args) := by
  refine keeps_bind keeps_get fun w => ?_
  split
  · exact keeps_bind (keeps_refuseIf _ _) fun _ => keeps_bind (keeps_bind (keeps_request (hP _ rfl))
      keeps_orErrno) fun _ => keeps_guestWrite _ _
  · exact keeps_bind (keeps_refuseIf _ _) fun _ => keeps_bind (keeps_bind (keeps_request (hP _ rfl))
      keeps_orErrno) fun _ => keeps_guestWrite _ _
  · exact keeps_guestWrite _ _
  · exact keeps_throw _

theorem keeps_seekFile (f : FileFd) (args : List Value) : Keeps (Asks P) (seekFile H f args) := by
  refine keeps_bind (keeps_refuseIf _ _) fun _ => ?_
  cases seekFrom ((arg args 2).setWidth 8) (arg64 args 1) with
  | none => exact keeps_throw _
  | some from_ => exact keeps_bind (keeps_bind (keeps_request (hP _ rfl)) keeps_orErrno) fun _ => keeps_writeU64 _ _

theorem keeps_fdSeek (args : List Value) : Keeps (Asks P) (fdSeek H args) := by
  refine keeps_bind keeps_get fun w => ?_
  split
  · exact keeps_seekFile hP _ _
  · exact keeps_throw _

theorem keeps_fdTell (args : List Value) : Keeps (Asks P) (fdTell H args) := by
  refine keeps_bind keeps_get fun w => ?_
  split
  · exact keeps_bind (keeps_refuseIf _ _) fun _ =>
      keeps_bind (keeps_bind (keeps_request (hP _ rfl)) keeps_orErrno) fun _ => keeps_writeU64 _ _
  · exact keeps_throw _

theorem keeps_readChunks (file : Handle) (vecs : List (ℕ × ℕ)) : Keeps (Asks P) (readChunks H file vecs) := by
  induction vecs with
  | nil => exact keeps_pure _
  | cons v vecs ih =>
    rw [readChunks]
    refine keeps_ite ih (keeps_bind (keeps_request (hP _ rfl)) fun r => ?_)
    cases r with
    | error e => exact keeps_pure _
    | ok buf => exact keeps_ite (keeps_pure _) (keeps_ite (keeps_pure _) (keeps_bind ih fun _ => keeps_pure _))

theorem keeps_seekFor (f : FileFd) (at_ : Option (BitVec 64)) : Keeps (Asks P) (seekFor H f at_) := by
  cases at_ with
  | none => exact keeps_pure _
  | some off =>
    exact keeps_bind (keeps_bind (keeps_request (hP _ rfl)) keeps_orErrno) fun _ =>
      keeps_bind (keeps_bind (keeps_request (hP _ rfl)) keeps_orErrno) fun _ => keeps_pure _

theorem keeps_seekBack (f : FileFd) (at_ : Option (BitVec 64)) : Keeps (Asks P) (seekBack H f at_) := by
  cases at_ with
  | none => exact keeps_pure _
  | some p => exact keeps_bind (keeps_request (hP _ rfl)) fun _ => keeps_pure _

theorem keeps_readFile (f : FileFd) (vecs : List (ℕ × ℕ)) (out : ℕ) (at_ : Option (BitVec 64)) :
    Keeps (Asks P) (readFile H f vecs out at_) := by
  refine keeps_bind (keeps_refuseIf _ _) fun _ => keeps_bind (keeps_seekFor hP f at_) fun saved =>
    keeps_bind (keeps_readChunks hP f.file vecs) fun r => keeps_bind (keeps_seekBack hP f saved) fun _ => ?_
  obtain ⟨chunks, failed⟩ := r
  cases failed with
  | some e => exact keeps_throw _
  | none => exact keeps_bind (Keeps.forM refl trans (fun _ => keeps_guestWrite _ _) _) fun _ => keeps_writeU32 _ _

theorem keeps_fdReadFile (args : List Value) (at_ : Option (BitVec 64)) : Keeps (Asks P) (fdReadFile H args at_) := by
  refine keeps_bind (keeps_readIovecs _ _) fun _ => keeps_bind keeps_get fun w => ?_
  split
  · exact keeps_readFile hP _ _ _ _
  · exact keeps_throw _

theorem keeps_fdReaddir (args : List Value) : Keeps (Asks P) (fdReaddir H args) := by
  refine keeps_bind keeps_get fun w => ?_
  split
  · exact keeps_bind (keeps_refuseIf _ _) fun _ =>
      keeps_bind (keeps_bind (keeps_request (hP _ rfl)) keeps_orErrno) fun _ =>
        keeps_bind (keeps_guestWrite _ _) fun _ => keeps_writeU32 _ _
  · exact keeps_throw _

theorem keeps_pathFilestatGet (args : List Value) : Keeps (Asks P) (pathFilestatGet H args) := by
  have hstat : ∀ follow p, Keeps (Asks P) (statPath H follow p) := fun _ _ =>
    keeps_ite (keeps_request (hP _ rfl)) (keeps_request (hP _ rfl))
  exact keeps_bind (keeps_resolve hP _ _ _ _ _) fun _ => keeps_bind (keeps_bind (hstat _ _) keeps_orErrno) fun _ =>
    keeps_guestWrite _ _

theorem keeps_pathReadlink (args : List Value) : Keeps (Asks P) (pathReadlink H args) :=
  keeps_bind (keeps_resolve hP _ _ _ _ _) fun _ =>
    keeps_bind (keeps_bind (keeps_request (hP _ rfl)) keeps_orErrno) fun _ =>
      keeps_bind (keeps_bytesToOs _) fun _ => keeps_bind (keeps_guestWrite _ _) fun _ => keeps_writeU32 _ _

/-! ## Calls that change the host -/

theorem keeps_seekEnd (f : FileFd) (append : Bool) : Keeps (Asks P) (seekEnd H f append) :=
  keeps_ite (keeps_bind (keeps_bind (keeps_request (hP _ rfl)) keeps_orErrno) fun _ => keeps_pure _) (keeps_pure _)

/-- The rest of a write, its right being checked. -/
theorem keeps_writeRest (f : FileFd) {data : Bytes} (hdata : P (.write f.file data)) (out : ℕ)
    (at_ : Option (BitVec 64)) :
    Keeps (Asks P) (do
      let saved ← seekFor H f at_
      seekEnd H f (at_.isNone && f.append)
      let written ← request H (.write f.file data)
      seekBack H f saved
      let k ← orErrno written
      writeU32 out k) :=
  keeps_bind (keeps_seekFor hP f at_) fun saved =>
    keeps_bind (keeps_seekEnd hP f _) fun _ => keeps_bind (keeps_request hdata) fun r =>
      keeps_bind (keeps_seekBack hP f saved) fun _ => keeps_bind (keeps_orErrno r) fun _ => keeps_writeU32 _ _

end Reading

/-! ## From one state -/

/-- The parts of a computation from a given state. -/
theorem bind {α β : Type} {x : WasiM σ α} {f : α → WasiM σ β} {w : World σ} (hx : Asks P w (x w).state)
    (hf : ∀ a w', x w = .ok a w' → Asks P w' (f a w').state) : Asks P w ((x >>= f) w).state := by
  cases h : x w with
  | ok a w' =>
    rw [h] at hx
    rw [estate_bind_of_ok h]
    exact trans hx (hf a w' h)
  | error e w' =>
    rw [h] at hx
    rw [estate_bind_of_error h]
    exact hx

end Asks

/-! ## Rights that are checked -/

theorem refuseIf_eq_ok {bad : Bool} {e : Errno} {w w' : World σ} {u : Unit} :
    refuseIf bad e w = .ok u w' ↔ bad = false ∧ w = w' := by
  cases bad with
  | true => exact iff_of_false estate_throw_ne_ok (by simp)
  | false => exact ⟨fun h => ⟨rfl, (estate_pure_eq_ok.mp h).2⟩, fun h => estate_pure_eq_ok.mpr ⟨rfl, h.2⟩⟩

namespace FdTable

/-- A number that means a directory which carries some rights. -/
def Carries (t : FdTable) (fd : BitVec 32) (need : Rights) : Prop :=
  ∃ d, t.get fd = some (.dir d) ∧ d.rightsBase.Carries need

end FdTable

/-- The path of a call is resolved beneath a directory that carries the rights in need. -/
theorem carries_of_resolve {H : Host σ} {fd : BitVec 32} {need : Rights} {ptr len : ℕ} {followFinal : Bool}
    {w w' : World σ} {walked : Walk} (h : resolve H fd need ptr len followFinal w = .ok walked w') :
    ∃ d, w.fds.get fd = some (.dir d) ∧ d.rightsBase.Carries need := by
  obtain ⟨w₁, _, hget, h⟩ := estate_bind_eq_ok.mp h
  obtain ⟨rfl, rfl⟩ := estate_get_eq_ok.mp hget
  cases hentry : w.fds.get fd with
  | none =>
    rw [hentry] at h
    exact absurd h estate_throw_ne_ok
  | some e =>
    rw [hentry] at h
    cases e with
    | stdin | stdout | stderr | file f => exact absurd h estate_throw_ne_ok
    | dir d =>
      refine ⟨d, rfl, ?_⟩
      obtain ⟨_, _, hcheck, -⟩ := estate_bind_eq_ok.mp h
      by_cases hneed : need = 0
      · rw [hneed]
        exact BitVec.and_zero ..
      · have hheld : need ≠ 0 → d.rightsBase &&& need = need := by simpa using (refuseIf_eq_ok.mp hcheck).1
        exact hheld hneed

/-- A right of one bit is carried or missing. -/
theorem carries_twoPow {rights : Rights} {k : ℕ} (h : rights &&& .twoPow 64 k ≠ 0) : rights.Carries (.twoPow 64 k) := by
  rw [BitVec.and_twoPow] at h
  rw [Rights.Carries, BitVec.and_twoPow]
  split_ifs at h ⊢ with hbit
  · rfl
  · exact absurd rfl h

/-- What a call may ask of the host for the rights of the descriptors that it names. -/
def Licensed (t : FdTable) (f : WasiFunc) (args : List Value) : HostOp → Prop
  | .open_ _ opts => (opts.create || opts.createNew || opts.truncate) = true → f = .pathOpen ∧
      ∃ d, t.get (arg args 0) = some (.dir d) ∧ d.rightsInheriting.Carries Rights.pathCreateFile ∧
        (opts.truncate = true → d.rightsInheriting &&& (Rights.fdWrite ||| Rights.fdAllocate) ≠ 0)
  | .createDir _ => f = .pathCreateDirectory ∧ t.Carries (arg args 0) Rights.pathCreateDirectory
  | .removeDir _ => f = .pathRemoveDirectory ∧ t.Carries (arg args 0) Rights.pathRemoveDirectory
  | .removeFile _ => f = .pathUnlinkFile ∧ t.Carries (arg args 0) Rights.pathUnlinkFile
  | .symlink _ _ _ => f = .pathSymlink ∧ t.Carries (arg args 2) Rights.pathSymlink
  | .hardLink _ _ =>
    f = .pathLink ∧ t.Carries (arg args 0) Rights.pathLinkSource ∧ t.Carries (arg args 4) Rights.pathLinkTarget
  | .rename _ _ =>
    f = .pathRename ∧ t.Carries (arg args 0) Rights.pathRenameSource ∧ t.Carries (arg args 3) Rights.pathRenameTarget
  | .write file _ => (f = .fdWrite ∨ f = .fdPwrite) ∧
      ∃ fd, t.get (arg args 0) = some (.file fd) ∧ fd.file = file ∧ fd.rightsBase.Carries Rights.fdWrite
  | .setLen file _ => f = .fdFilestatSetSize ∧
      ∃ fd, t.get (arg args 0) = some (.file fd) ∧ fd.file = file ∧ fd.rightsBase.Carries Rights.fdFilestatSetSize
  | _ => True

theorem licensed_of_not_mutates {t : FdTable} {f : WasiFunc} {args : List Value} (op : HostOp)
    (h : op.mutates = false) : Licensed t f args op := by
  cases op with
  | open_ p opts => exact fun hopts => absurd (hopts.symm.trans h) (by decide)
  | createDir | removeDir | removeFile | symlink | hardLink | rename | write | setLen => cases h
  | _ => trivial

section Licensed

variable {H : Host σ} {args : List Value} {w : World σ}

/-- A request made where a path of the call was resolved. -/
theorem asks_of_resolve {f' : WasiFunc} {fd : BitVec 32} {need : Rights} {ptr len : ℕ} {f : Walk → WasiM σ Unit}
    (hf : ∀ d, w.fds.get fd = some (.dir d) → d.rightsBase.Carries need → ∀ walked w', w'.fds = w.fds →
      Asks (Licensed w.fds f' args) w' (f walked w').state) :
    Asks (Licensed w.fds f' args) w ((resolve H fd need ptr len false >>= f) w).state := by
  have hresolve : Asks (Licensed w.fds f' args) w (resolve H fd need ptr len false w).state :=
    Asks.keeps_resolve licensed_of_not_mutates fd need ptr len false w
  refine Asks.bind hresolve fun walked w' h => ?_
  obtain ⟨d, hd, hcarries⟩ := carries_of_resolve h
  rw [h] at hresolve
  exact hf d hd hcarries walked w' hresolve.fds_eq

theorem asks_pathCreateDirectory : Asks (Licensed w.fds .pathCreateDirectory args) w (pathCreateDirectory H args w).state := by
  refine asks_of_resolve fun d hd hcarries walked w' _ => ?_
  exact Asks.keeps_bind (Asks.keeps_request ⟨rfl, _, hd, hcarries⟩) Asks.keeps_orErrno w'

theorem asks_pathRemoveDirectory : Asks (Licensed w.fds .pathRemoveDirectory args) w (pathRemoveDirectory H args w).state := by
  refine asks_of_resolve fun d hd hcarries walked w' _ => ?_
  exact Asks.keeps_bind (Asks.keeps_request ⟨rfl, _, hd, hcarries⟩) Asks.keeps_orErrno w'

theorem asks_pathUnlinkFile : Asks (Licensed w.fds .pathUnlinkFile args) w (pathUnlinkFile H args w).state := by
  refine asks_of_resolve fun d hd hcarries walked w' _ => ?_
  have hop : Licensed w.fds .pathUnlinkFile args (.removeFile walked.path) := ⟨rfl, _, hd, hcarries⟩
  exact Asks.keeps_bind (Asks.keeps_request (licensed_of_not_mutates _ rfl))
    (fun _ => Asks.keeps_bind (Asks.keeps_refuseIf _ _) fun _ =>
      Asks.keeps_bind (Asks.keeps_request hop) Asks.keeps_orErrno) w'

theorem asks_pathSymlink : Asks (Licensed w.fds .pathSymlink args) w (pathSymlink H args w).state := by
  have hread : Asks (Licensed w.fds .pathSymlink args) w (guestRead (argU args 0) (argU args 1) w).state :=
    Asks.keeps_guestRead _ _ w
  refine Asks.bind hread fun target w₁ h₁ => ?_
  rw [h₁] at hread
  have hfds : w₁.fds = w.fds := hread.fds_eq
  refine Asks.bind (Asks.keeps_refuseIf _ _ w₁) fun _ w₂ h₂ => ?_
  obtain ⟨-, rfl⟩ := refuseIf_eq_ok.mp h₂
  rw [← hfds]
  refine asks_of_resolve fun d hd hcarries walked w' _ => ?_
  have hop : ∀ t isDir, Licensed w₁.fds .pathSymlink args (.symlink t walked.path isDir) := fun _ _ => ⟨rfl, _, hd, hcarries⟩
  exact Asks.keeps_bind (Asks.keeps_bytesToOs _) (fun t =>
    Asks.keeps_bind (Asks.keeps_request (licensed_of_not_mutates _ rfl)) fun m =>
      Asks.keeps_bind (Asks.keeps_request (hop t _)) Asks.keeps_orErrno) w'

theorem asks_pathRenameOrLink (link : Bool) :
    Asks (Licensed w.fds (if link then .pathLink else .pathRename) args) w (pathRenameOrLink H args link w).state := by
  cases link with
  | false =>
    refine asks_of_resolve fun d hd hcarries old w₁ hfds => ?_
    rw [← hfds] at hd ⊢
    refine asks_of_resolve fun d' hd' hcarries' new w₂ _ => ?_
    exact Asks.keeps_bind (Asks.keeps_request ⟨rfl, ⟨_, hd, hcarries⟩, ⟨_, hd', hcarries'⟩⟩) Asks.keeps_orErrno w₂
  | true =>
    refine asks_of_resolve fun d hd hcarries old w₁ hfds => ?_
    rw [← hfds] at hd ⊢
    refine asks_of_resolve fun d' hd' hcarries' new w₂ _ => ?_
    exact Asks.keeps_bind (Asks.keeps_request ⟨rfl, ⟨_, hd, hcarries⟩, ⟨_, hd', hcarries'⟩⟩) Asks.keeps_orErrno w₂

theorem asks_fdFilestatSetSize : Asks (Licensed w.fds .fdFilestatSetSize args) w (fdFilestatSetSize H args w).state := by
  refine Asks.bind (Asks.keeps_get w) fun w₁ w' h => ?_
  obtain ⟨rfl, rfl⟩ := estate_get_eq_ok.mp h
  cases hentry : w.fds.get (arg args 0) with
  | none => exact Asks.keeps_throw _ w
  | some e =>
    cases e with
    | stdin | stdout | stderr | dir d => exact Asks.keeps_throw _ w
    | file f =>
      refine Asks.bind (Asks.keeps_refuseIf _ _ w) fun _ w₂ h₂ => ?_
      obtain ⟨hheld, rfl⟩ := refuseIf_eq_ok.mp h₂
      have hcarries : f.rightsBase.Carries Rights.fdFilestatSetSize := carries_twoPow (of_decide_eq_false hheld)
      exact Asks.keeps_bind (Asks.keeps_request ⟨rfl, f, hentry, rfl, hcarries⟩) Asks.keeps_orErrno w

/-- The part of a write that is about the file. -/
theorem asks_writeFile {w₀ : World σ} {f' : WasiFunc} (hf' : f' = .fdWrite ∨ f' = .fdPwrite) {f : FileFd}
    (hentry : w₀.fds.get (arg args 0) = some (.file f)) {data : Bytes}
    {out : ℕ} {at_ : Option (BitVec 64)} : Asks (Licensed w₀.fds f' args) w (writeFile H f data out at_ w).state := by
  refine Asks.bind (Asks.keeps_refuseIf _ _ w) fun _ w₂ h₂ => ?_
  obtain ⟨hheld, rfl⟩ := refuseIf_eq_ok.mp h₂
  have hcarries : f.rightsBase.Carries Rights.fdWrite := carries_twoPow (of_decide_eq_false hheld)
  exact Asks.keeps_writeRest licensed_of_not_mutates f ⟨hf', f, hentry, rfl, hcarries⟩ out at_ w

theorem asks_fdWriteFile {f' : WasiFunc} (hf' : f' = .fdWrite ∨ f' = .fdPwrite) (at_ : Option (BitVec 64)) :
    Asks (Licensed w.fds f' args) w (fdWriteFile H args at_ w).state := by
  have hiovecs : Asks (Licensed w.fds f' args) w (readIovecs (argU args 1) (argU args 2) w).state :=
    Asks.keeps_readIovecs _ _ w
  refine Asks.bind hiovecs fun vecs w₁ h₁ => ?_
  rw [h₁] at hiovecs
  have hgather : Asks (Licensed w.fds f' args) w₁ (gather vecs w₁).state := Asks.keeps_gather _ w₁
  refine Asks.bind hgather fun data w₂ h₂ => ?_
  rw [h₂] at hgather
  refine Asks.bind (Asks.keeps_get w₂) fun _ _ h => ?_
  obtain ⟨rfl, rfl⟩ := estate_get_eq_ok.mp h
  have hfds : w₂.fds = w.fds := hgather.fds_eq.trans hiovecs.fds_eq
  cases hentry : w₂.fds.get (arg args 0) with
  | none => exact Asks.keeps_throw _ w₂
  | some e =>
    cases e with
    | stdin | stdout | stderr | dir d => exact Asks.keeps_throw _ w₂
    | file f => exact asks_writeFile hf' (hfds ▸ hentry)

end Licensed

/-! ## What is opened -/

/-- The rights that a descriptor passes down. A file has them as it was opened with. -/
def FdEntry.rightsInheriting : FdEntry → Rights
  | .dir d => d.rightsInheriting
  | .file f => f.rightsInheriting
  | _ => Rights.all

/-- A directory or a file that holds no more than a directory passes down. -/
structure PassedDown (d : DirFd) (e : FdEntry) : Prop where
  notStream : ¬ e.IsStream
  base : e.rightsBase.Within d.rightsInheriting
  inheriting : e.rightsInheriting.Within d.rightsInheriting

/-- A computation that fails, or comes down to the installation of an entry for which `Q` holds. -/
def Installs (P : HostOp → Prop) (Q : FdEntry → Prop) (out : ℕ) (x : WasiM σ Unit) (w : World σ) : Prop :=
  (∃ e w', x w = .error e w' ∧ Asks P w w') ∨ ∃ e w₁, Asks P w w₁ ∧ Q e ∧ x w = install e out w₁

namespace Installs

variable {P : HostOp → Prop} {Q : FdEntry → Prop} {out : ℕ} {w : World σ}

theorem throw (e : Errno) : Installs P Q out (MonadExcept.throw e) w := .inl ⟨e, w, rfl, Asks.refl w⟩

theorem install {e : FdEntry} (he : Q e) : Installs P Q out (Wasi.install e out) w := .inr ⟨e, w, Asks.refl w, he, rfl⟩

theorem bind {α : Type} {y : WasiM σ α} {f : α → WasiM σ Unit} (hy : Asks P w (y w).state)
    (hf : ∀ a w', y w = .ok a w' → Installs P Q out (f a) w') : Installs P Q out (y >>= f) w := by
  cases h : y w with
  | error e w' =>
    rw [h] at hy
    exact .inl ⟨e, w', estate_bind_of_error h f, hy⟩
  | ok a w' =>
    rw [h] at hy
    have hbind := estate_bind_of_ok h f
    rcases hf a w' h with ⟨e, w'', hx, hasks⟩ | ⟨e, w₁, hasks, hQ, hx⟩
    · exact .inl ⟨e, w'', hbind.trans hx, Asks.trans hy hasks⟩
    · exact .inr ⟨e, w₁, Asks.trans hy hasks, hQ, hbind.trans hx⟩

theorem mono {Q' : FdEntry → Prop} {x : WasiM σ Unit} (h : Installs P Q out x w) (hQ : ∀ e, Q e → Q' e) :
    Installs P Q' out x w := by
  rcases h with h | ⟨e, w₁, hasks, he, hx⟩
  · exact .inl h
  · exact .inr ⟨e, w₁, hasks, hQ e he, hx⟩

theorem ite {c : Prop} [Decidable c] {x y : WasiM σ Unit} (hx : c → Installs P Q out x w)
    (hy : ¬ c → Installs P Q out y w) : Installs P Q out (if c then x else y) w := by
  split_ifs with hc
  · exact hx hc
  · exact hy hc

end Installs

section Opening

variable {H : Host σ} {args : List Value} {w w₀ : World σ}

theorem within_and {r s : Rights} : (r &&& s).Within s := by
  rw [Rights.Within, BitVec.and_assoc, BitVec.and_self]

/-- What a directory does not pass down, nothing opened from it has. -/
theorem ne_zero_of_and {r s need : Rights} (h : r &&& s &&& need ≠ 0) : s &&& need ≠ 0 := by
  intro hzero
  rw [BitVec.and_assoc, hzero] at h
  exact h (BitVec.and_zero ..)

/-- A file is created or cut only under the rights of the directory. -/
theorem licensed_open {d : DirFd} (hd : w₀.fds.get (arg args 0) = some (.dir d)) {creat trunc : Bool}
    (hcreate : ((creat || trunc) && decide (d.rightsInheriting &&& Rights.pathCreateFile = 0)) = false) (host : Path)
    {opts : OpenOptions} (hopts : (opts.create || opts.createNew || opts.truncate) = true → (creat || trunc) = true)
    (htrunc : opts.truncate = true → d.rightsInheriting &&& (Rights.fdWrite ||| Rights.fdAllocate) ≠ 0) :
    Licensed w₀.fds .pathOpen args (.open_ host opts) := by
  intro hmutates
  rw [hopts hmutates, Bool.true_and] at hcreate
  exact ⟨rfl, d, hd, carries_twoPow (of_decide_eq_false hcreate), htrunc⟩

/-- What is opened from a directory holds no more than it passes down, and the host was asked only for what the rights
of the directory cover. -/
theorem installs_openAt {d : DirFd} (hd : w₀.fds.get (arg args 0) = some (.dir d)) (host : Path) :
    Installs (Licensed w₀.fds .pathOpen args) (PassedDown d) (argU args 8) (openAt H d host args) w := by
  have hread : ∀ op : HostOp, op.mutates = false → Licensed w₀.fds .pathOpen args op := licensed_of_not_mutates
  refine Installs.bind (Asks.keeps_refuseIf _ _ w) fun _ w₁ h₁ => ?_
  obtain ⟨hcreate, rfl⟩ := refuseIf_eq_ok.mp h₁
  refine Installs.bind (Asks.keeps_request (hread _ rfl) w) fun existing w₂ _ => Installs.ite (fun _ => ?_) fun _ => ?_
  · -- A directory is wanted.
    cases existing.toOption with
    | none => exact Installs.throw _
    | some m =>
      exact Installs.ite (fun _ => Installs.install ⟨by simp [FdEntry.IsStream], within_and, within_and⟩)
        fun _ => Installs.throw _
  refine Installs.ite (fun _ => Installs.install ⟨by simp [FdEntry.IsStream], within_and, within_and⟩) fun _ => ?_
  refine Installs.bind (Asks.keeps_refuseIf _ _ w₂) fun _ w₃ _ => ?_
  refine Installs.bind (Asks.keeps_refuseIf _ _ w₃) fun _ w₄ _ => ?_
  refine Installs.bind (Asks.keeps_createFirst (fun hneeded => licensed_open hd hcreate host (fun _ => ?_) nofun) w₄)
    fun _ w₅ _ => ?_
  · simp only [Bool.and_eq_true] at hneeded
    rw [hneeded.1.1, Bool.true_or]
  refine Installs.bind (Asks.keeps_bind (Asks.keeps_request (licensed_open hd hcreate host ?_ ?_))
    Asks.keeps_orErrno w₅) fun file w₆ _ => Installs.install ⟨by simp [FdEntry.IsStream], within_and, within_and⟩
  · simp only [Bool.or_eq_true, Bool.and_eq_true]
    tauto
  · intro htrunc
    simp only [Bool.and_eq_true] at htrunc
    exact ne_zero_of_and (of_decide_eq_true htrunc.2)

theorem installs_pathOpen (H : Host σ) (args : List Value) (w : World σ) :
    Installs (Licensed w.fds .pathOpen args) (fun e => ∃ d, w.fds.get (arg args 0) = some (.dir d) ∧ PassedDown d e)
      (argU args 8) (pathOpen H args) w := by
  have hresolve : ∀ follow, Asks (Licensed w.fds .pathOpen args) w
      (resolve H (arg args 0) Rights.pathOpen (argU args 2) (argU args 3) follow w).state :=
    fun follow => Asks.keeps_resolve licensed_of_not_mutates _ _ _ _ follow w
  refine Installs.bind (hresolve _) fun walked w₁ h₁ => ?_
  have hasks := hresolve (arg args 1 &&& lookupSymlinkFollow ≠ 0)
  rw [h₁] at hasks
  have hfds : w₁.fds = w.fds := hasks.fds_eq
  refine Installs.bind (Asks.keeps_refuseIf _ _ w₁) fun _ w₂ h₂ => ?_
  obtain ⟨-, rfl⟩ := refuseIf_eq_ok.mp h₂
  refine Installs.bind (Asks.keeps_get w₁) fun _ _ h => ?_
  obtain ⟨rfl, rfl⟩ := estate_get_eq_ok.mp h
  cases hentry : w₁.fds.get (arg args 0) with
  | none => exact Installs.throw _
  | some e =>
    cases e with
    | stdin | stdout | stderr | file f => exact Installs.throw _
    | dir d =>
      rw [hfds] at hentry
      exact (installs_openAt hentry walked.path).mono fun e he => ⟨d, hentry, he⟩

end Opening

/-! ## Every call -/

/-- The calls that change the table of descriptors. -/
def WasiFunc.onTable : WasiFunc → Bool
  | fdClose | fdRenumber | fdFdstatSetFlags | pathOpen => true
  | _ => false

/-- Every other call keeps the table, and asks the host for nothing that its descriptors do not cover. -/
theorem asks_dispatchFunc {H : Host σ} {args : List Value} {w : World σ} {f : WasiFunc} (hf : f.onTable = false) :
    Asks (Licensed w.fds f args) w (dispatchFunc H args f w).state := by
  have hread : ∀ op : HostOp, op.mutates = false → Licensed w.fds f args op := licensed_of_not_mutates
  cases f with
  | fdClose | fdRenumber | fdFdstatSetFlags | pathOpen => cases hf
  | fdWrite =>
    rw [dispatchFunc]
    split_ifs
    · exact Asks.keeps_fdWrite hread args w
    · exact asks_fdWriteFile (.inl rfl) none
  | fdRead =>
    rw [dispatchFunc]
    split_ifs
    · exact Asks.keeps_fdRead args w
    · exact Asks.keeps_fdReadFile hread args none w
  | fdPwrite => exact asks_fdWriteFile (.inr rfl) _
  | fdPread => exact Asks.keeps_fdReadFile hread args _ w
  | fdSeek => exact Asks.keeps_fdSeek hread args w
  | fdTell => exact Asks.keeps_fdTell hread args w
  | fdFdstatGet => exact Asks.keeps_fdFdstatGet args w
  | fdFilestatGet => exact Asks.keeps_fdFilestatGet hread args w
  | fdFilestatSetSize => exact asks_fdFilestatSetSize
  | fdReaddir => exact Asks.keeps_fdReaddir hread args w
  | fdPrestatGet => exact Asks.keeps_fdPrestatGet args w
  | fdPrestatDirName => exact Asks.keeps_fdPrestatDirName args w
  | pathCreateDirectory => exact asks_pathCreateDirectory
  | pathRemoveDirectory => exact asks_pathRemoveDirectory
  | pathUnlinkFile => exact asks_pathUnlinkFile
  | pathFilestatGet => exact Asks.keeps_pathFilestatGet hread args w
  | pathReadlink => exact Asks.keeps_pathReadlink hread args w
  | pathSymlink => exact asks_pathSymlink
  | pathRename => exact asks_pathRenameOrLink false
  | pathLink => exact asks_pathRenameOrLink true
  | schedYield | fdAdvise | fdSync | fdDatasync => exact Asks.keeps_pure () w
  | argsSizesGet => exact Asks.keeps_bind Asks.keeps_get (fun _ => Asks.keeps_sizesGet _ _) w
  | argsGet => exact Asks.keeps_bind Asks.keeps_get (fun _ => Asks.keeps_stringsGet _ _) w
  | environSizesGet => exact Asks.keeps_bind Asks.keeps_get (fun _ => Asks.keeps_sizesGet _ _) w
  | environGet => exact Asks.keeps_bind Asks.keeps_get (fun _ => Asks.keeps_stringsGet _ _) w
  | clockTimeGet => exact Asks.keeps_bind (Asks.keeps_request (hread _ rfl)) (fun _ => Asks.keeps_writeU64 _ _) w
  | clockResGet => exact Asks.keeps_writeU64 _ _ w
  | randomGet =>
    exact Asks.keeps_bind (Asks.keeps_guestRead _ _) (fun _ =>
      Asks.keeps_bind (Asks.keeps_request (hread _ rfl)) fun _ => Asks.keeps_guestWrite _ _) w
  | fdAllocate | fdFilestatSetTimes | pathFilestatSetTimes | procExit | unknown => exact Asks.keeps_throw _ w

/-! ## How a call ends -/

theorem finish_snd (x : WasiM σ Unit) (w : World σ) : (finish x w).2 = (x w).state := by
  rw [finish]
  cases x w <;> rfl

theorem finish_fst {x : WasiM σ Unit} {w : World σ} :
    (finish x w).1 = .success ↔ ∃ w', x w = .ok () w' := by
  rw [finish]
  cases x w <;> simp

theorem dispatch_eq {H : Host σ} {f : WasiFunc} (hf : f ≠ .procExit) (args : List Value) (w : World σ) :
    dispatch H f args w = finish (dispatchFunc H args f) w := by
  cases f with
  | procExit => exact absurd rfl hf
  | _ => rfl

theorem dispatch_fds_eq {H : Host σ} {f : WasiFunc} (hf : f.onTable = false) (args : List Value) (w : World σ) :
    (dispatch H f args w).2.fds = w.fds := by
  by_cases hexit : f = .procExit
  · rw [hexit]
    rfl
  · rw [dispatch_eq hexit, finish_snd]
    exact (asks_dispatchFunc hf).fds_eq

/-- What a change of the table comes to. -/
theorem finish_onTable (w : World σ) (f : FdTable → Bool × FdTable) :
    finish (onTable f) w = (if (f w.fds).1 then .success else .failed .badf, { w with fds := (f w.fds).2 }) := by
  have hrun : onTable f w =
      (if (f w.fds).1 then pure () else throw .badf : WasiM σ Unit) { w with fds := (f w.fds).2 } := rfl
  rw [finish, hrun]
  cases (f w.fds).1 <;> rfl

/-! ## What a write leaves -/

theorem length_leBytes (n x : ℕ) : (leBytes n x).length = n := by rw [leBytes, List.length_map, List.length_range]

theorem guestWrite_of_le {addr : ℕ} {data m : Bytes} {w : World σ} (hmem : w.mem = some m)
    (hlen : addr + data.length ≤ m.length) :
    guestWrite addr data w = .ok () { w with mem := some (m.take addr ++ data ++ m.drop (addr + data.length)) } := by
  rw [guestWrite, estate_bind_of_ok (estate_get_eq_ok.mpr ⟨rfl, rfl⟩), hmem]
  dsimp only
  rw [if_pos hlen]
  rfl

/-- What was written to guest memory is there. -/
theorem guestRead_of_guestWrite {addr : ℕ} {data : Bytes} {w w' : World σ} {u : Unit}
    (h : guestWrite addr data w = .ok u w') : guestRead addr data.length w' = .ok data w' := by
  obtain ⟨w₁, _, hget, h⟩ := estate_bind_eq_ok.mp h
  obtain ⟨rfl, rfl⟩ := estate_get_eq_ok.mp hget
  cases hmem : w.mem with
  | none =>
    rw [hmem] at h
    exact absurd h estate_throw_ne_ok
  | some bytes =>
    rw [hmem] at h
    dsimp only at h
    split_ifs at h with hlen
    · obtain rfl := estate_modify_eq_ok.mp h
      rw [guestRead, estate_bind_of_ok (estate_get_eq_ok.mpr ⟨rfl, rfl⟩)]
      have htake : (bytes.take addr).length = addr := List.length_take_of_le (by omega)
      dsimp only
      rw [if_pos (by simp; omega), List.append_assoc, List.drop_left' htake, List.take_left]
      rfl
    · exact absurd h estate_throw_ne_ok

/-- A new entry is in the table whether or not the guest can be told its number. -/
theorem install_cases (e : FdEntry) (out : ℕ) (w : World σ) :
    ((install e out w).state.fds = (w.fds.insert e).2 ∧ (install e out w).state.log = w.log) ∧
      ∀ u w', install e out w = .ok u w' → guestRead out 4 w' = .ok (leBytes 4 (w.fds.insert e).1) w' := by
  have hinstall : install e out w = writeU32 out (w.fds.insert e).1 { w with fds := (w.fds.insert e).2 } := rfl
  rw [hinstall]
  have hkept : Asks (fun _ => False) { w with fds := (w.fds.insert e).2 }
      (writeU32 out (w.fds.insert e).1 { w with fds := (w.fds.insert e).2 }).state := Asks.keeps_writeU32 _ _ _
  obtain ⟨ops, hlog, hops⟩ := hkept.exists_ops
  refine ⟨⟨hkept.fds_eq, ?_⟩, fun u w' h => guestRead_of_guestWrite h⟩
  rw [hlog, List.eq_nil_iff_forall_not_mem.mpr hops, List.append_nil]

end Wasmrt.Wasi
