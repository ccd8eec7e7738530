import Wasmrt.Wasi.Requests

/-!
# Rights only shrink

Every descriptor comes from a preopened directory by a chain of openings, and holds no more than that directory does.
What a call asks of the host is covered by the rights of the descriptors it names.

## Main definitions

* `Preopen`: what the embedder grants.
* `Lineage`: the preopen that each entry comes from, with `Lineage.after` how a call passes it on.
* `Attenuated`: what the calls of a process may do.

## Main results

* `rights_shrink`: after every run.
-/

namespace Wasmrt.Wasi

variable {σ : Type}

/-- A directory that the guest is given, and the rights to everything beneath it. -/
structure Preopen where
  host : Path
  guestName : Bytes
  rights : Rights

/-- The entry of a preopen. -/
def Preopen.dirFd (p : Preopen) : DirFd := ⟨p.host, some p.guestName, p.rights, p.rights⟩

/-- The table of a process with some preopens. -/
def FdTable.granted (ps : List Preopen) : FdTable := FdTable.preopened (ps.map Preopen.dirFd)

/-- The preopen that the entry at each number comes from. -/
abbrev Lineage := ℕ → Option Preopen

namespace Lineage

/-- The preopens come from themselves, in their order after the standard streams. -/
def start (ps : List Preopen) : Lineage := fun n => if n < 3 then none else ps[n - 3]?

/-- An entry that is opened comes from where the directory does, and an entry that is moved stays what it is. -/
def after (L : Lineage) (f : WasiFunc) (args : List Value) (w w' : World σ) : Lineage :=
  match f with
  | .pathOpen => fun j =>
    if w.fds.slot j = none ∧ w'.fds.slot j ≠ none then (fdIndex (arg args 0)).bind L else L j
  | .fdRenumber => fun j =>
    if (w.fds.renumber (arg args 0) (arg args 1)).1 then
      if fdIndex (arg args 1) = some j then (fdIndex (arg args 0)).bind L
      else if fdIndex (arg args 0) = some j then none
      else L j
    else L j
  | _ => L

end Lineage

/-- The world and the lineage after some calls. -/
def runCalls (H : Host σ) : World σ → Lineage → List GuestCall → World σ × Lineage
  | w, L, [] => (w, L)
  | w, L, c :: calls =>
    let w' := (dispatch H c.func c.args (c.start w)).2
    runCalls H w' (L.after c.func c.args (c.start w) w') calls

/-- The descriptors that a call names. -/
def descriptors (f : WasiFunc) (args : List Value) : List (BitVec 32) :=
  match f with
  | .pathSymlink => [arg args 2]
  | .pathRename => [arg args 0, arg args 3]
  | .pathLink => [arg args 0, arg args 4]
  | _ => [arg args 0]

/-! ## What is held -/

theorem within_trans {r s t : Rights} (h : r.Within s) (h' : s.Within t) : r.Within t := by
  rw [Rights.Within] at *
  rw [← h, BitVec.and_assoc, h']

/-- An entry that holds no more than a preopen grants. -/
structure HeldBy (p : Preopen) (e : FdEntry) : Prop where
  base : e.rightsBase.Within p.rights
  inheriting : e.rightsInheriting.Within p.rights

/-- Every entry that is no standard stream comes from a preopen and holds no more. -/
def Held (ps : List Preopen) (L : Lineage) (t : FdTable) : Prop :=
  ∀ n e, t.slot n = some e → e.IsStream ∨ ∃ p ∈ ps, L n = some p ∧ HeldBy p e

theorem within_self (r : Rights) : r.Within r := BitVec.and_self

theorem held_granted (ps : List Preopen) : Held ps (Lineage.start ps) (FdTable.granted ps) := by
  intro n e hslot
  rw [FdTable.slot, FdTable.granted, FdTable.slots_preopened] at hslot
  rcases n with _ | _ | _ | n
  · cases hslot
    exact .inl (.inl rfl)
  · cases hslot
    exact .inl (.inr (.inl rfl))
  · cases hslot
    exact .inl (.inr (.inr rfl))
  · right
    have hidx : n + 1 + 1 + 1 - FdTable.new.slots.length = n := by simp [FdTable.new]
    rw [List.getElem?_append_right (by simp [FdTable.new]), hidx, List.map_map, List.getElem?_map] at hslot
    cases hp : ps[n]? with
    | none =>
      rw [hp] at hslot
      cases hslot
    | some p =>
      rw [hp] at hslot
      cases hslot
      refine ⟨p, List.mem_of_getElem? hp, ?_, within_self _, within_self _⟩
      rw [Lineage.start, if_neg (by omega)]
      exact hp

/-- What comes from a directory held by a preopen is held by it. -/
theorem HeldBy.passedDown {p : Preopen} {d : DirFd} {e : FdEntry} (h : HeldBy p (.dir d)) (he : PassedDown d e) :
    HeldBy p e :=
  ⟨within_trans he.base h.inheriting, within_trans he.inheriting h.inheriting⟩

section Step

variable {H : Host σ} {ps : List Preopen} {L : Lineage} {args : List Value} {w : World σ}

/-- An opening fails and leaves the table, or installs what the directory passes down. -/
theorem pathOpen_cases (H : Host σ) (args : List Value) (w : World σ) :
    Asks (Licensed w.fds .pathOpen args) w (pathOpen H args w).state ∨
    ∃ d e, w.fds.get (arg args 0) = some (.dir d) ∧ PassedDown d e ∧
      (pathOpen H args w).state.fds = (w.fds.insert e).2 ∧ ∃ ops, (pathOpen H args w).state.log = w.log ++ ops ∧
        ∀ op ∈ ops, Licensed w.fds .pathOpen args op := by
  rcases installs_pathOpen H args w with ⟨e, w₁, hx, hasks⟩ | ⟨e, w₁, hasks, ⟨d, hd, hpassed⟩, hx⟩
  · rw [hx]
    exact .inl hasks
  · obtain ⟨⟨hfds, hlog⟩, -⟩ := install_cases e (argU args 8) w₁
    obtain ⟨ops, hops⟩ := hasks.exists_ops
    rw [hx, hfds, hlog, hasks.fds_eq]
    exact .inr ⟨d, e, hd, hpassed, rfl, ops, hops⟩

/-- What a call asks of the host is covered by the rights of the descriptors it names. -/
theorem exists_ops_dispatch (H : Host σ) (f : WasiFunc) (args : List Value) (w : World σ) :
    ∃ ops, (dispatch H f args w).2.log = w.log ++ ops ∧ ∀ op ∈ ops, Licensed w.fds f args op := by
  by_cases hexit : f = .procExit
  · rw [hexit]
    exact ⟨[], (List.append_nil _).symm, nofun⟩
  rw [dispatch_eq hexit, finish_snd]
  cases htable : f.onTable with
  | false => exact (asks_dispatchFunc htable).exists_ops
  | true =>
    cases f with
    | fdClose =>
      rw [dispatchFunc]
      split_ifs
      · exact ⟨[], (List.append_nil _).symm, nofun⟩
      · rw [← finish_snd, finish_onTable]
        exact ⟨[], (List.append_nil _).symm, nofun⟩
    | fdRenumber | fdFdstatSetFlags =>
      rw [dispatchFunc, ← finish_snd, finish_onTable]
      exact ⟨[], (List.append_nil _).symm, nofun⟩
    | pathOpen =>
      rcases pathOpen_cases H args w with hasks | ⟨-, -, -, -, -, hops⟩
      · exact hasks.exists_ops
      · exact hops
    | _ => cases htable

theorem HeldBy.setFlags {p : Preopen} {e : FdEntry} (h : HeldBy p e) (flags : BitVec 16) :
    HeldBy p (e.setFlags flags) := by
  cases e with
  | file f => exact ⟨h.base, h.inheriting⟩
  | stdin | stdout | stderr | dir d => exact h

theorem Held.fdRenumber (h : Held ps L w.fds) {w' : World σ} :
    Held ps (L.after .fdRenumber args w w') (w.fds.renumber (arg args 0) (arg args 1)).2 := by
  intro j e hslot
  cases hmoved : (w.fds.renumber (arg args 0) (arg args 1)).1 with
  | false =>
    rw [FdTable.renumber_eq_of_false hmoved] at hslot
    simp only [Lineage.after, hmoved, Bool.false_eq_true, if_false]
    exact h j e hslot
  | true =>
    obtain ⟨n, i, hn, hi, hmove⟩ := FdTable.renumber_fst.mp hmoved
    rw [FdTable.slot_renumber hn hi hmove] at hslot
    simp only [Lineage.after, hmoved, if_true, hn, hi, Option.some.injEq, Option.bind_some]
    by_cases hji : j = i
    · rw [if_pos hji] at hslot
      rw [if_pos hji.symm]
      exact h n e hslot
    · rw [if_neg hji] at hslot
      rw [if_neg (Ne.symm hji)]
      split_ifs at hslot with hjn
      rw [if_neg (Ne.symm hjn)]
      exact h j e hslot

theorem Held.pathOpen (h : Held ps L w.fds) :
    Held ps (L.after .pathOpen args w (pathOpen H args w).state) (pathOpen H args w).state.fds := by
  intro j e hslot
  simp only [Lineage.after]
  rcases pathOpen_cases H args w with hasks | ⟨d, e', hd, hpassed, hfds, -⟩
  · rw [hasks.fds_eq] at hslot
    rw [if_neg (by rw [hslot]; simp)]
    exact h j e hslot
  · obtain ⟨hfree, -, hslots⟩ := FdTable.slot_insert w.fds e'
    rw [hfds] at hslot ⊢
    rw [hslots] at hslot ⊢
    by_cases hj : j = (w.fds.insert e').1
    · rw [if_pos hj] at hslot ⊢
      obtain rfl := Option.some.inj hslot
      rw [if_pos ⟨hj ▸ hfree, nofun⟩]
      obtain ⟨n, hn, hdir⟩ := Option.bind_eq_some_iff.mp hd
      rcases h n _ hdir with hstream | ⟨p, hp, hL, hheld⟩
      · rcases hstream with hs | hs | hs <;> cases hs
      · exact .inr ⟨p, hp, by rw [hn, Option.bind_some, hL], hheld.passedDown hpassed⟩
    · rw [if_neg hj] at hslot ⊢
      rw [if_neg (by rw [hslot]; simp)]
      exact h j e hslot

/-- After every call what is held is held by the preopen it comes from. -/
theorem Held.dispatch (h : Held ps L w.fds) (f : WasiFunc) :
    Held ps (L.after f args w (dispatch H f args w).2) (dispatch H f args w).2.fds := by
  cases htable : f.onTable with
  | false =>
    rw [dispatch_fds_eq htable]
    cases f with
    | fdClose | fdRenumber | fdFdstatSetFlags | pathOpen => cases htable
    | _ => exact h
  | true =>
    rw [dispatch_eq (by rintro rfl; cases htable), finish_snd]
    cases f with
    | fdClose =>
      intro n e hslot
      rw [dispatchFunc] at hslot
      split_ifs at hslot
      · exact h n e hslot
      · rw [← finish_snd, finish_onTable] at hslot
        dsimp only at hslot
        rw [FdTable.slot_close] at hslot
        split_ifs at hslot
        exact h n e hslot
    | fdRenumber =>
      rw [dispatchFunc, ← finish_snd, finish_onTable]
      exact h.fdRenumber
    | fdFdstatSetFlags =>
      intro n e hslot
      rw [dispatchFunc, ← finish_snd, finish_onTable] at hslot
      dsimp only at hslot
      rw [FdTable.slot_setFlags] at hslot
      split_ifs at hslot
      · obtain ⟨e, he, rfl⟩ := Option.map_eq_some_iff.mp hslot
        rcases h n e he with hstream | ⟨p, hp, hL, hheld⟩
        · rcases hstream with rfl | rfl | rfl
          · exact .inl (.inl rfl)
          · exact .inl (.inr (.inl rfl))
          · exact .inl (.inr (.inr rfl))
        · exact .inr ⟨p, hp, hL, hheld.setFlags _⟩
      · exact h n e hslot
    | pathOpen => exact h.pathOpen
    | _ => cases htable

end Step

/-! ## What changes the host -/

/-- A right among others is carried only by rights that meet them. -/
theorem Rights.Carries.and_ne_zero {r need mask : Rights} (h : r.Carries need) (hmask : need &&& mask ≠ 0) :
    r &&& mask ≠ 0 := by
  intro hzero
  apply hmask
  rw [← h, BitVec.and_assoc, BitVec.and_comm need, ← BitVec.and_assoc, hzero]
  exact BitVec.zero_and

theorem Rights.Within.and_ne_zero {r s mask : Rights} (h : r.Within s) (hmask : r &&& mask ≠ 0) : s &&& mask ≠ 0 := by
  intro hzero
  apply hmask
  rw [← h, BitVec.and_assoc, hzero]
  exact BitVec.and_zero

/-- An entry with a right to change something. -/
structure FdEntry.Writable (e : FdEntry) : Prop where
  notStream : ¬ e.IsStream
  right : e.rightsBase &&& Rights.writeMask ≠ 0 ∨ e.rightsInheriting &&& Rights.writeMask ≠ 0

theorem FdTable.Carries.writable {t : FdTable} {fd : BitVec 32} {need : Rights} (h : t.Carries fd need)
    (hneed : need &&& Rights.writeMask ≠ 0) : ∃ e, t.get fd = some e ∧ e.Writable := by
  obtain ⟨d, hd, hcarries⟩ := h
  exact ⟨_, hd, by simp [FdEntry.IsStream], .inl (hcarries.and_ne_zero hneed)⟩

/-- Each descriptor of a call that may change something holds a right to. -/
theorem writable_of_licensed {t : FdTable} {f : WasiFunc} {args : List Value} {op : HostOp}
    (h : Licensed t f args op) (hop : op.mutates = true) {fd : BitVec 32} (hfd : fd ∈ descriptors f args) :
    ∃ e, t.get fd = some e ∧ e.Writable := by
  cases op with
  | open_ host opts =>
    obtain ⟨rfl, d, hd, hcarries, -⟩ := h hop
    obtain rfl := List.mem_singleton.mp hfd
    exact ⟨_, hd, by simp [FdEntry.IsStream], .inr (hcarries.and_ne_zero (by decide))⟩
  | createDir _ | removeDir _ | removeFile _ | symlink _ _ _ =>
    obtain ⟨rfl, hcarries⟩ := h
    obtain rfl := List.mem_singleton.mp hfd
    exact hcarries.writable (by decide)
  | hardLink _ _ | rename _ _ =>
    obtain ⟨rfl, hfrom, hto⟩ := h
    rcases List.mem_pair.mp hfd with rfl | rfl
    · exact hfrom.writable (by decide)
    · exact hto.writable (by decide)
  | write file data =>
    obtain ⟨hf, fd', hentry, -, hcarries⟩ := h
    have hargs : descriptors f args = [arg args 0] := by rcases hf with rfl | rfl <;> rfl
    obtain rfl := List.mem_singleton.mp (hargs ▸ hfd)
    exact ⟨_, hentry, by simp [FdEntry.IsStream], .inl (hcarries.and_ne_zero (by decide))⟩
  | setLen file len =>
    obtain ⟨rfl, fd', hentry, -, hcarries⟩ := h
    obtain rfl := List.mem_singleton.mp hfd
    exact ⟨_, hentry, by simp [FdEntry.IsStream], .inl (hcarries.and_ne_zero (by decide))⟩
  | _ => cases hop

/-- What is writable comes from a preopen that grants a right to change something. -/
theorem Held.of_writable {ps : List Preopen} {L : Lineage} {t : FdTable} (h : Held ps L t) {fd : BitVec 32}
    {e : FdEntry} (hentry : t.get fd = some e) (he : e.Writable) :
    ∃ p ∈ ps, (fdIndex fd).bind L = some p ∧ p.rights &&& Rights.writeMask ≠ 0 := by
  obtain ⟨n, hn, hslot⟩ := Option.bind_eq_some_iff.mp hentry
  rcases h n e hslot with hstream | ⟨p, hp, hL, hheld⟩
  · exact absurd hstream he.notStream
  · refine ⟨p, hp, by rw [hn, Option.bind_some, hL], ?_⟩
    exact he.right.elim hheld.base.and_ne_zero hheld.inheriting.and_ne_zero

/-! ## Every run -/

/-- After every run what is held is held by the preopen it comes from. -/
theorem Held.runCalls {H : Host σ} {ps : List Preopen} {L : Lineage} {w : World σ} (h : Held ps L w.fds)
    (calls : List GuestCall) : Held ps (Wasi.runCalls H w L calls).2 (Wasi.runCalls H w L calls).1.fds := by
  induction calls generalizing w L with
  | nil => exact h
  | cons c calls ih =>
    have hstart : Held ps L (c.start w).fds := h
    exact ih (hstart.dispatch c.func)

/-- What the calls of a process may do, where it holds what some preopens grant. -/
structure Attenuated (H : Host σ) (ps : List Preopen) (w : World σ) (L : Lineage) : Prop where
  /-- Each descriptor comes from a preopen and holds no more. -/
  held : Held ps L w.fds
  /-- What a call asks of the host is covered by the rights of its descriptors. -/
  licensed : ∀ c : GuestCall, ∃ ops, (dispatch H c.func c.args (c.start w)).2.log = w.log ++ ops ∧
    ∀ op ∈ ops, Licensed w.fds c.func c.args op
  /-- A call that names a descriptor from a read-only preopen changes nothing. -/
  kept : ∀ c : GuestCall, ∀ fd ∈ descriptors c.func c.args, ∀ p, (fdIndex fd).bind L = some p →
    p.rights.Within Rights.readOnly → ∃ ops, (dispatch H c.func c.args (c.start w)).2.log = w.log ++ ops ∧
      ∀ op ∈ ops, op.mutates = false

theorem Held.attenuated {H : Host σ} {ps : List Preopen} {L : Lineage} {w : World σ} (h : Held ps L w.fds) :
    Attenuated H ps w L where
  held := h
  licensed c := exists_ops_dispatch H c.func c.args (c.start w)
  kept c fd hfd p hp hrights := by
    obtain ⟨ops, hlog, hops⟩ := exists_ops_dispatch H c.func c.args (c.start w)
    refine ⟨ops, hlog, fun op hop => ?_⟩
    by_contra hmutates
    obtain ⟨e, hentry, he⟩ := writable_of_licensed (hops op hop) (Bool.not_eq_false _ ▸ hmutates) hfd
    obtain ⟨p', -, hp', hwrites⟩ := h.of_writable hentry he
    obtain rfl := Option.some.inj (hp.symm.trans hp')
    exact hrights.and_ne_zero hwrites (by decide)

/-- From every state that a guest reaches, with whatever preopens it was given and whatever the host answers, no
descriptor holds more than its preopen grants and no call does more than its descriptors allow. -/
theorem rights_shrink (H : Host σ) (ps : List Preopen) (w : World σ) (calls : List GuestCall) :
    let r := runCalls H { w with fds := FdTable.granted ps } (Lineage.start ps) calls
    Attenuated H ps r.1 r.2 :=
  ((held_granted ps).runCalls calls).attenuated

end Wasmrt.Wasi
