import Mathlib.Data.BitVec
import Mathlib.Data.FinEnum
import Mathlib.Tactic.Common
import Wasmrt.Wasi.Abi

/-!
# The table of file descriptors

The number of a descriptor is the index of its slot. A closed number leaves a hole that the next entry takes, the
lowest hole first.

## Main definitions

* `FdEntry`: what a descriptor stands for.
* `FdTable.insert`, `FdTable.close`, `FdTable.renumber`, `FdTable.setFlags`: what changes a table.

## Main results

* `FdTable.slot_insert`, `FdTable.slot_close`, `FdTable.slot_renumber`, `FdTable.slot_setFlags`: the slots after each
  of them.
-/

namespace Wasmrt.Wasi

/-- A directory that is open. It is held by its path. -/
structure DirFd where
  host : Path
  /-- The name under which the guest sees a preopen. -/
  preopenName : Option Bytes
  rightsBase : Rights
  rightsInheriting : Rights
  deriving DecidableEq

/-- A file that is open. -/
structure FileFd where
  file : Handle
  rightsBase : Rights
  rightsInheriting : Rights
  append : Bool
  deriving DecidableEq

/-- What a descriptor stands for. -/
inductive FdEntry
  | stdin
  | stdout
  | stderr
  | dir (d : DirFd)
  | file (f : FileFd)
  deriving DecidableEq

/-- The three entries that stand for a standard stream. -/
def FdEntry.IsStream (e : FdEntry) : Prop := e = .stdin ∨ e = .stdout ∨ e = .stderr

/-- The rights an entry carries. The streams are not held to any. -/
def FdEntry.rightsBase : FdEntry → Rights
  | dir d => d.rightsBase
  | file f => f.rightsBase
  | _ => Rights.all

/-- What `fd_fdstat_set_flags` leaves of an entry. Only a file has a flag that can be set. -/
def FdEntry.setFlags (flags : BitVec 16) : FdEntry → FdEntry
  | file f => file { f with append := flags &&& fdflagsAppend ≠ 0 }
  | e => e

/-- The highest number a guest may name. -/
def maxFd : ℕ := 1 <<< 16

/-- The slot that a number of the guest names. -/
def fdIndex (fd : BitVec 32) : Option ℕ := if fd.msb then none else some fd.toNat

/-- The descriptors of a guest. -/
structure FdTable where
  slots : List (Option FdEntry)
  deriving DecidableEq

namespace FdTable

/-- A table with the three standard streams. -/
def new : FdTable := ⟨[some .stdin, some .stdout, some .stderr]⟩

/-- What a slot holds. -/
def slot (t : FdTable) (i : ℕ) : Option FdEntry := t.slots[i]?.join

def get (t : FdTable) (fd : BitVec 32) : Option FdEntry := (fdIndex fd).bind t.slot

/-- Install an entry at the lowest free number. -/
def insert (t : FdTable) (e : FdEntry) : ℕ × FdTable :=
  match t.slots.findIdx? (·.isNone) with
  | some i => (i, ⟨t.slots.set i (some e)⟩)
  | none => (t.slots.length, ⟨t.slots ++ [some e]⟩)

/-- Close a number, and whether it was open. -/
def close (t : FdTable) (fd : BitVec 32) : Bool × FdTable :=
  match fdIndex fd with
  | some i => if (t.slot i).isSome then (true, ⟨t.slots.set i none⟩) else (false, t)
  | none => (false, t)

/-- `fd_fdstat_set_flags`, and whether the number is open. -/
def setFlags (t : FdTable) (fd : BitVec 32) (flags : BitVec 16) : Bool × FdTable :=
  match fdIndex fd with
  | some i =>
    match t.slot i with
    | some e => (true, ⟨t.slots.set i (some (e.setFlags flags))⟩)
    | none => (false, t)
  | none => (false, t)

/-- Move `from_` onto `to_`, and whether that was done. -/
def renumber (t : FdTable) (from_ to_ : BitVec 32) : Bool × FdTable :=
  match fdIndex from_, fdIndex to_ with
  | some f, some i =>
    if (t.slot f).isNone then (false, t)
    else if maxFd < i then (false, t)
    else
      let slots := t.slots ++ List.replicate (i + 1 - t.slots.length) none
      (true, ⟨(slots.set f none).set i (t.slot f)⟩)
  | _, _ => (false, t)

/-- The table of a process with some preopened directories. -/
def preopened (ds : List DirFd) : FdTable := ds.foldl (fun t d => (t.insert (.dir d)).2) new

/-! ## The slots afterwards -/

variable {t : FdTable}

theorem lt_of_slot {i : ℕ} {e : FdEntry} (h : t.slot i = some e) : i < t.slots.length := by
  by_contra hge
  rw [slot, List.getElem?_eq_none (not_lt.mp hge)] at h
  cases h

theorem slot_set {i : ℕ} (hi : i < t.slots.length) (e : Option FdEntry) (j : ℕ) :
    slot ⟨t.slots.set i e⟩ j = if j = i then e else t.slot j := by
  rw [slot, slot, List.getElem?_set]
  split_ifs with h h' h'
  · rfl
  · exact absurd h.symm h'
  · exact absurd h'.symm h
  · rfl

/-- An entry is installed at the lowest number that has none. -/
theorem slot_insert (t : FdTable) (e : FdEntry) :
    t.slot (t.insert e).1 = none ∧ (∀ j < (t.insert e).1, t.slot j ≠ none) ∧
      ∀ j, (t.insert e).2.slot j = if j = (t.insert e).1 then some e else t.slot j := by
  rw [insert]
  cases h : t.slots.findIdx? (·.isNone) with
  | some i =>
    obtain ⟨hi, hnone, hbefore⟩ := List.findIdx?_eq_some_iff_getElem.mp h
    refine ⟨?_, fun j hj => ?_, slot_set hi _⟩
    · rw [slot, List.getElem?_eq_getElem hi, Option.isNone_iff_eq_none.mp hnone]
      rfl
    · have := hbefore j hj
      rw [slot, List.getElem?_eq_getElem (lt_trans hj hi)]
      intro hslot
      exact this (Option.isNone_iff_eq_none.mpr hslot)
  | none =>
    refine ⟨?_, fun j hj => ?_, fun j => ?_⟩
    · rw [slot, List.getElem?_eq_none le_rfl]
      rfl
    · have hsome := List.findIdx?_eq_none_iff.mp h _ (List.getElem_mem hj)
      rw [slot, List.getElem?_eq_getElem hj]
      intro hslot
      rw [Option.join_some] at hslot
      rw [hslot] at hsome
      cases hsome
    · rw [slot, slot]
      split_ifs with hj
      · rw [hj, List.getElem?_concat_length]
        rfl
      · rcases lt_or_gt_of_ne hj with hlt | hgt
        · rw [List.getElem?_append_left hlt]
        · have hgt : t.slots.length < j := hgt
          rw [List.getElem?_eq_none (by simp; omega), List.getElem?_eq_none (by omega)]

/-- A table without holes grows at its end. -/
theorem insert_of_full (h : ∀ s ∈ t.slots, s ≠ none) (e : FdEntry) :
    t.insert e = (t.slots.length, ⟨t.slots ++ [some e]⟩) := by
  have hnone : t.slots.findIdx? (·.isNone) = none := List.findIdx?_eq_none_iff.mpr fun s hs => by
    simpa [Option.isSome_iff_ne_none] using h s hs
  rw [insert, hnone]

theorem slots_preopened (ds : List DirFd) : (preopened ds).slots = new.slots ++ ds.map fun d => some (.dir d) := by
  induction ds using List.reverseRecOn with
  | nil => rfl
  | append_singleton ds d ih =>
    have hfull : ∀ s ∈ (preopened ds).slots, s ≠ none := by
      intro s hs
      rw [ih] at hs
      rcases List.mem_append.mp hs with hs | hs
      · rintro rfl
        simp [new] at hs
      · obtain ⟨d, -, rfl⟩ := List.mem_map.mp hs
        exact nofun
    rw [preopened, List.foldl_append, List.foldl_cons, List.foldl_nil]
    show ((preopened ds).insert (.dir d)).2.slots = _
    rw [insert_of_full hfull, ih, List.map_append, List.append_assoc]
    rfl

/-- A number is closed exactly if it was open. -/
theorem close_fst {fd : BitVec 32} : (t.close fd).1 = (t.get fd).isSome := by
  rw [close, get]
  cases fdIndex fd with
  | none => rfl
  | some i =>
    rw [Option.bind_some]
    dsimp only
    split_ifs with h
    · exact h.symm
    · exact (Bool.eq_false_iff.mpr h).symm

/-- Closing a number that is not open changes nothing. -/
theorem close_of_none {fd : BitVec 32} (h : t.get fd = none) : t.close fd = (false, t) := by
  rw [close]
  rw [get] at h
  cases hfd : fdIndex fd with
  | none => rfl
  | some i =>
    rw [hfd, Option.bind_some] at h
    dsimp only
    rw [if_neg (by rw [h]; simp)]

theorem slot_close (t : FdTable) (fd : BitVec 32) (j : ℕ) :
    (t.close fd).2.slot j = if fdIndex fd = some j then none else t.slot j := by
  rw [close]
  cases fdIndex fd with
  | none => rfl
  | some i =>
    dsimp only
    cases hslot : t.slot i with
    | none =>
      rw [if_neg (by simp)]
      split_ifs with h
      · cases h
        exact hslot
      · rfl
    | some e =>
      rw [if_pos (by rfl), slot_set (lt_of_slot hslot)]
      simp only [Option.some.injEq, eq_comm]

theorem setFlags_fst {fd : BitVec 32} {flags : BitVec 16} : (t.setFlags fd flags).1 = (t.get fd).isSome := by
  rw [setFlags, get]
  cases fdIndex fd with
  | none => rfl
  | some i => cases hslot : t.slot i <;> simp [hslot]

theorem slot_setFlags (t : FdTable) (fd : BitVec 32) (flags : BitVec 16) (j : ℕ) :
    (t.setFlags fd flags).2.slot j =
      if fdIndex fd = some j then (t.slot j).map (FdEntry.setFlags flags) else t.slot j := by
  rw [setFlags]
  cases fdIndex fd with
  | none => rfl
  | some i =>
    dsimp only
    cases hslot : t.slot i with
    | none =>
      dsimp only
      split_ifs with h
      · cases h
        rw [hslot]
        rfl
      · rfl
    | some e =>
      dsimp only
      rw [slot_set (lt_of_slot hslot)]
      by_cases hj : j = i
      · rw [if_pos hj, if_pos (by rw [hj]), hj, hslot]
        rfl
      · rw [if_neg hj, if_neg (by simpa [eq_comm] using hj)]

/-- Where a number can be moved: it is open, and the other is one that a guest may name. -/
def Movable (t : FdTable) (f i : ℕ) : Prop := t.slot f ≠ none ∧ i ≤ maxFd

theorem renumber_fst {from_ to_ : BitVec 32} :
    (t.renumber from_ to_).1 = true ↔ ∃ f i, fdIndex from_ = some f ∧ fdIndex to_ = some i ∧ t.Movable f i := by
  rw [renumber]
  cases fdIndex from_ with
  | none => simp
  | some f =>
    cases fdIndex to_ with
    | none => simp
    | some i =>
      dsimp only
      split_ifs with hnone hmax
      · simp [Movable, Option.isNone_iff_eq_none.mp hnone]
      · simp [Movable, hmax]
      · simp [Movable, not_lt.mp hmax, Option.isNone_iff_eq_none.not.mp hnone]

/-- A move that is refused changes nothing. -/
theorem renumber_eq_of_false {from_ to_ : BitVec 32} (h : (t.renumber from_ to_).1 = false) :
    (t.renumber from_ to_).2 = t := by
  rw [renumber] at h ⊢
  split <;> rename_i hf hi
  · rw [hf, hi] at h
    dsimp only at h
    split_ifs at h ⊢ <;> rfl
  · rfl

/-- A move takes the entry from one number to the other. -/
theorem slot_renumber {from_ to_ : BitVec 32} {f i : ℕ} (hf : fdIndex from_ = some f) (hi : fdIndex to_ = some i)
    (hmove : t.Movable f i) (j : ℕ) :
    (t.renumber from_ to_).2.slot j = if j = i then t.slot f else if j = f then none else t.slot j := by
  obtain ⟨hopen, hmax⟩ := hmove
  obtain ⟨e, he⟩ := Option.ne_none_iff_exists'.mp hopen
  have hlen := lt_of_slot he
  rw [renumber, hf, hi]
  dsimp only
  rw [if_neg (by rw [he]; simp), if_neg (not_lt.mpr hmax)]
  set t' : FdTable := ⟨t.slots ++ List.replicate (i + 1 - t.slots.length) none⟩ with ht'
  have hslot' : ∀ j, t'.slot j = t.slot j := by
    intro j
    rw [slot, slot, ht']
    rcases Nat.lt_or_ge j t.slots.length with hj | hj
    · rw [List.getElem?_append_left hj]
    · rw [List.getElem?_append_right hj, List.getElem?_replicate, List.getElem?_eq_none hj]
      split_ifs <;> rfl
  have hf' : f < t'.slots.length := by
    rw [ht', List.length_append]
    omega
  have hi' : i < (t'.slots.set f none).length := by
    rw [List.length_set, ht', List.length_append, List.length_replicate]
    omega
  have hset : ∀ e, slot ⟨(t'.slots.set f none).set i e⟩ j = if j = i then e else slot ⟨t'.slots.set f none⟩ j :=
    fun e => FdTable.slot_set hi' e j
  rw [hset, slot_set hf', hslot']

end FdTable

end Wasmrt.Wasi
