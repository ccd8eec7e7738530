import Mathlib.Data.BitVec
import Mathlib.Data.FinEnum
import Mathlib.Tactic.Common
import Wasmrt.Library.Ledger
import Wasmrt.Wasi.Requests

/-!
# What the numbers of descriptors mean

A number means the entry that was last installed at it by opening, closing and renumbering, the standard streams being
there from the start. The calls that look at the table agree with that; those that go by the number alone do as long
as the streams stay where they are.

## Main definitions

* `Specified`: what a call does in terms of the entries that the numbers mean.
* `Meets`: the calls that keep to it.

## Main results

* `exists_traced`: every run of such calls is one that the entries explain.
-/

namespace Wasmrt.Wasi

variable {σ : Type}

/-- The entry at each number of the guest. -/
abbrev FdLedger := Ledger ℕ FdEntry

/-! ## What is specified -/

/-- `fd_read` on an entry. -/
def FdEntry.read (H : Host σ) (args : List Value) : FdEntry → WasiM σ Unit
  | .stdin => do
    let vecs ← readIovecs (argU args 1) (argU args 2)
    let total ← readVecs 0 vecs
    writeU32 (argU args 3) total
  | .stdout | .stderr => throw .badf
  | .dir _ => do
    let _ ← readIovecs (argU args 1) (argU args 2)
    throw .badf
  | .file f => do
    let vecs ← readIovecs (argU args 1) (argU args 2)
    readFile H f vecs (argU args 3) none

/-- `fd_write` to a standard stream. -/
def writeStream (H : Host σ) (args : List Value) (stderr : Bool) : WasiM σ Unit := do
  let vecs ← readIovecs (argU args 1) (argU args 2)
  let total ← writeVecs H stderr (argU args 3) 0 vecs
  writeU32 (argU args 3) total

/-- `fd_write` on an entry. -/
def FdEntry.write (H : Host σ) (args : List Value) : FdEntry → WasiM σ Unit
  | .stdin => throw .badf
  | .stdout => writeStream H args false
  | .stderr => writeStream H args true
  | .dir _ => do
    let vecs ← readIovecs (argU args 1) (argU args 2)
    let _ ← gather vecs
    throw .badf
  | .file f => do
    let vecs ← readIovecs (argU args 1) (argU args 2)
    let data ← gather vecs
    writeFile H f data (argU args 3) none

/-- `fd_seek` on an entry. -/
def FdEntry.seek (H : Host σ) (args : List Value) : FdEntry → WasiM σ Unit
  | .file f => seekFile H f args
  | _ => throw .spipe

/-- The entry that a number of the guest means. -/
def meaning (l : FdLedger) (fd : BitVec 32) : Option FdEntry := (fdIndex fd).bind l.get

/-- A call acts on the entry that a number means, and answers `BADF` if there is none. -/
def ActsOn (l : FdLedger) (fd : BitVec 32) (act : FdEntry → WasiM σ Unit) (w : World σ) (o : Outcome) (w' : World σ) :
    Prop :=
  (o, w') = match meaning l fd with
    | none => (.failed .badf, w)
    | some e => finish (act e) w

/-- The lowest number without an entry. -/
def IsLowestFree (l : FdLedger) (n : ℕ) : Prop := l.get n = none ∧ ∀ m < n, l.get m ≠ none

/-- What a call does, from `w` with the entries `l` to `w'` with the entries `l'`. -/
def Specified (H : Host σ) (f : WasiFunc) (args : List Value) (l : FdLedger) (w : World σ) (o : Outcome)
    (w' : World σ) (l' : FdLedger) : Prop :=
  match f with
  | .fdRead => ActsOn l (arg args 0) (FdEntry.read H args) w o w' ∧ l' = l
  | .fdWrite => ActsOn l (arg args 0) (FdEntry.write H args) w o w' ∧ l' = l
  | .fdSeek => ActsOn l (arg args 0) (FdEntry.seek H args) w o w' ∧ l' = l
  | .fdFdstatGet => ActsOn l (arg args 0) (fun e => guestWrite (argU args 1) e.fdstat) w o w' ∧ l' = l
  | .fdClose =>
    (∃ fds, w' = { w with fds }) ∧
      ((meaning l (arg args 0) = none ∧ o = .failed .badf ∧ l' = l) ∨
        ∃ n, fdIndex (arg args 0) = some n ∧ l.get n ≠ none ∧ o = .success ∧ l' = l.remove n)
  | .fdRenumber =>
    (∃ fds, w' = { w with fds }) ∧
      ((o ≠ .success ∧ l' = l) ∨
        ∃ n i, fdIndex (arg args 0) = some n ∧ fdIndex (arg args 1) = some i ∧ l.get n ≠ none ∧ o = .success ∧
          l' = l.move n i)
  | .pathOpen =>
    (o ≠ .success ∧ l' = l) ∨
      -- The number of a new entry is written to the guest. Where that fails the entry is there all the same.
      ∃ n e, IsLowestFree l n ∧ l' = l.install n e ∧
        (o = .success → guestRead (argU args 8) 4 w' = .ok (leBytes 4 n) w')
  | .fdFdstatSetFlags =>
    l' = l.modifyAt (fun n => fdIndex (arg args 0) = some n) (FdEntry.setFlags ((arg args 1).setWidth 16))
  | _ => l' = l

/-! ## Where the code keeps to it -/

/-- The standard streams are where they were at the start, and nowhere else. -/
structure InPlace (t : FdTable) : Prop where
  stdin : ∀ {n}, t.slot n = some .stdin ↔ n = 0
  stdout : ∀ {n}, t.slot n = some .stdout ↔ n = 1
  stderr : ∀ {n}, t.slot n = some .stderr ↔ n = 2

/-- A call that closes no standard stream and moves nothing from or to one, and where no entry has the number, neither
seeks nor passes vectors that cannot be read. -/
def Meets (w : World σ) (f : WasiFunc) (args : List Value) : Prop :=
  match f with
  | .fdClose => isStdio (arg args 0) = false
  | .fdRenumber => ∀ n i, fdIndex (arg args 0) = some n → fdIndex (arg args 1) = some i → w.fds.Movable n i →
      n = i ∨ 2 < n ∧ 2 < i
  | .fdSeek => w.fds.get (arg args 0) ≠ none
  | .fdRead => w.fds.get (arg args 0) ≠ none ∨ ∃ vecs, readIovecs (argU args 1) (argU args 2) w = .ok vecs w
  | .fdWrite =>
    w.fds.get (arg args 0) ≠ none ∨
      ∃ vecs data, readIovecs (argU args 1) (argU args 2) w = .ok vecs w ∧ gather vecs w = .ok data w
  | _ => True

/-- The entries are those of the table. -/
def Agrees (l : FdLedger) (t : FdTable) : Prop := ∀ n, t.slot n = l.get n

theorem Agrees.meaning_eq {l : FdLedger} {t : FdTable} (h : Agrees l t) (fd : BitVec 32) : meaning l fd = t.get fd := by
  rw [meaning, FdTable.get]
  exact congrArg _ (funext fun n => (h n).symm)

/-! ## Numbers of the streams -/

theorem isStdio_iff {fd : BitVec 32} : isStdio fd = true ↔ ∃ n ≤ 2, fdIndex fd = some n := by
  constructor
  · intro h
    simp only [isStdio, Bool.or_eq_true, decide_eq_true_eq] at h
    rcases h with (rfl | rfl) | rfl
    · exact ⟨0, by omega, rfl⟩
    · exact ⟨1, by omega, rfl⟩
    · exact ⟨2, le_rfl, rfl⟩
  · rintro ⟨n, hn, h⟩
    rw [fdIndex] at h
    split_ifs at h
    obtain rfl : fd = BitVec.ofNat 32 n := by
      rw [← Option.some.inj h, BitVec.ofNat_toNat, BitVec.setWidth_eq]
    rcases n with _ | _ | _ | n
    · rfl
    · rfl
    · rfl
    · omega

namespace InPlace

variable {t : FdTable} (h : InPlace t) {fd : BitVec 32}

include h

/-- A number of a stream means that stream. -/
theorem get_of_isStdio (hfd : isStdio fd = true) :
    (fd = 0 ∧ t.get fd = some .stdin) ∨ (fd = 1 ∧ t.get fd = some .stdout) ∨ fd = 2 ∧ t.get fd = some .stderr := by
  simp only [isStdio, Bool.or_eq_true, decide_eq_true_eq] at hfd
  rcases hfd with (rfl | rfl) | rfl
  · exact .inl ⟨rfl, h.stdin.mpr rfl⟩
  · exact .inr (.inl ⟨rfl, h.stdout.mpr rfl⟩)
  · exact .inr (.inr ⟨rfl, h.stderr.mpr rfl⟩)

/-- Any other number means none. -/
theorem get_of_not_isStdio (hfd : isStdio fd = false) :
    t.get fd ≠ some .stdin ∧ t.get fd ≠ some .stdout ∧ t.get fd ≠ some .stderr := by
  have hlarge : ∀ {n}, fdIndex fd = some n → ¬ n ≤ 2 := fun hn hle => by
    rw [isStdio_iff.mpr ⟨_, hle, hn⟩] at hfd
    cases hfd
  rw [FdTable.get]
  cases hn : fdIndex fd with
  | none => refine ⟨fun h => ?_, fun h => ?_, fun h => ?_⟩ <;> cases h
  | some n =>
    have hgt := hlarge hn
    refine ⟨fun hslot => hgt ?_, fun hslot => hgt ?_, fun hslot => hgt ?_⟩
    · rw [h.stdin.mp hslot]
      omega
    · rw [h.stdout.mp hslot]
      omega
    · rw [h.stderr.mp hslot]

end InPlace

/-! ## Reading and writing by number -/

section Routing

variable {H : Host σ} {args : List Value} {w : World σ}

/-- The vectors leave the world as it was. -/
theorem world_of_readIovecs {ptr count : ℕ} {vecs : List (ℕ × ℕ)} {w' : World σ}
    (h : readIovecs ptr count w = .ok vecs w') : w' = w :=
  world_of_keeps (fun hR hT => keeps_readIovecs hR hT ptr count) h

theorem world_of_gather {vecs : List (ℕ × ℕ)} {data : Bytes} {w' : World σ} (h : gather vecs w = .ok data w') :
    w' = w :=
  world_of_keeps (fun hR hT => keeps_gather hR hT vecs) h

/-- What a read does to what the number means, if anything. -/
theorem fdReadFile_eq : fdReadFile H args none w =
    (readIovecs (argU args 1) (argU args 2) >>= fun vecs =>
      (match w.fds.get (arg args 0) with
        | some (.file f) => readFile H f vecs (argU args 3) none
        | _ => throw .badf : WasiM σ Unit)) w := by
  refine estate_bind_congr fun vecs w' hvecs => ?_
  obtain rfl := world_of_readIovecs hvecs
  rfl

theorem fdWriteFile_eq : fdWriteFile H args none w =
    (readIovecs (argU args 1) (argU args 2) >>= fun vecs => gather vecs >>= fun data =>
      (match w.fds.get (arg args 0) with
        | some (.file f) => writeFile H f data (argU args 3) none
        | _ => throw .badf : WasiM σ Unit)) w := by
  refine estate_bind_congr fun vecs w' hvecs => ?_
  obtain rfl := world_of_readIovecs hvecs
  refine estate_bind_congr fun data w'' hdata => ?_
  obtain rfl := world_of_gather hdata
  rfl

/-- A read by number acts on the entry that the number means. -/
theorem fdRead_eq (h : InPlace w.fds)
    (hvecs : w.fds.get (arg args 0) ≠ none ∨ ∃ vecs, readIovecs (argU args 1) (argU args 2) w = .ok vecs w) :
    finish (dispatchFunc H args .fdRead) w =
      match w.fds.get (arg args 0) with
      | none => (.failed .badf, w)
      | some e => finish (e.read H args) w := by
  rw [finish, dispatchFunc]
  split_ifs with hstd
  · rcases h.get_of_isStdio hstd with ⟨hfd, hentry⟩ | ⟨hfd, hentry⟩ | ⟨hfd, hentry⟩ <;> rw [hentry, fdRead, hfd] <;> rfl
  · obtain ⟨hin, hout, herr⟩ := h.get_of_not_isStdio (Bool.eq_false_iff.mpr hstd)
    rw [fdReadFile_eq]
    cases hget : w.fds.get (arg args 0) with
    | none =>
      obtain ⟨vecs, hvecs⟩ := hvecs.resolve_left (absurd hget)
      rw [estate_bind_of_ok hvecs]
      rfl
    | some e =>
      cases e with
      | stdin => exact absurd hget hin
      | stdout => exact absurd hget hout
      | stderr => exact absurd hget herr
      | dir d => rfl
      | file f => rfl

/-- A write by number acts on the entry that the number means. -/
theorem fdWrite_eq (h : InPlace w.fds)
    (hvecs : w.fds.get (arg args 0) ≠ none ∨
      ∃ vecs data, readIovecs (argU args 1) (argU args 2) w = .ok vecs w ∧ gather vecs w = .ok data w) :
    finish (dispatchFunc H args .fdWrite) w =
      match w.fds.get (arg args 0) with
      | none => (.failed .badf, w)
      | some e => finish (e.write H args) w := by
  rw [finish, dispatchFunc]
  split_ifs with hstd
  · rcases h.get_of_isStdio hstd with ⟨hfd, hentry⟩ | ⟨hfd, hentry⟩ | ⟨hfd, hentry⟩ <;> rw [hentry, fdWrite, hfd] <;> rfl
  · obtain ⟨hin, hout, herr⟩ := h.get_of_not_isStdio (Bool.eq_false_iff.mpr hstd)
    rw [fdWriteFile_eq]
    cases hget : w.fds.get (arg args 0) with
    | none =>
      obtain ⟨vecs, data, hvecs, hdata⟩ := hvecs.resolve_left (absurd hget)
      rw [estate_bind_of_ok hvecs, estate_bind_of_ok hdata]
      rfl
    | some e =>
      cases e with
      | stdin => exact absurd hget hin
      | stdout => exact absurd hget hout
      | stderr => exact absurd hget herr
      | dir d => rfl
      | file f => rfl

theorem fdSeek_eq (hget : w.fds.get (arg args 0) ≠ none) :
    finish (dispatchFunc H args .fdSeek) w =
      match w.fds.get (arg args 0) with
      | none => (.failed .badf, w)
      | some e => finish (e.seek H args) w := by
  obtain ⟨e, he⟩ := Option.ne_none_iff_exists'.mp hget
  show finish (fdSeek H args) w = _
  rw [he, finish, fdSeek, estate_bind_of_ok (estate_get_eq_ok.mpr ⟨rfl, rfl⟩), he]
  cases e <;> rfl

theorem fdFdstatGet_eq :
    finish (dispatchFunc H args .fdFdstatGet) w =
      match w.fds.get (arg args 0) with
      | none => (.failed .badf, w)
      | some e => finish (guestWrite (argU args 1) e.fdstat) w := by
  show finish (fdFdstatGet args) w = _
  rw [finish, fdFdstatGet, estate_bind_of_ok (estate_get_eq_ok.mpr ⟨rfl, rfl⟩)]
  cases w.fds.get (arg args 0) <;> rfl

end Routing

/-! ## The entries after a change of the table -/

namespace InPlace

variable {t t' : FdTable}

/-- The streams stay in place where no slot gains or loses one. -/
theorem congr (h : InPlace t) (hsame : ∀ s, s.IsStream → ∀ n, t'.slot n = some s ↔ t.slot n = some s) : InPlace t' where
  stdin := (hsame _ (.inl rfl) _).trans h.stdin
  stdout := (hsame _ (.inr (.inl rfl)) _).trans h.stdout
  stderr := (hsame _ (.inr (.inr rfl)) _).trans h.stderr

theorem le_of_isStream (h : InPlace t) {s : FdEntry} (hs : s.IsStream) {n : ℕ} (hn : t.slot n = some s) : n ≤ 2 := by
  rcases hs with rfl | rfl | rfl
  · rw [h.stdin.mp hn]
    omega
  · rw [h.stdout.mp hn]
    omega
  · rw [h.stderr.mp hn]

theorem close (h : InPlace t) {fd : BitVec 32} (hfd : isStdio fd = false) : InPlace (t.close fd).2 := by
  refine h.congr fun s hs n => ?_
  rw [FdTable.slot_close]
  split_ifs with hn
  · refine iff_of_false nofun fun hslot => ?_
    rw [isStdio_iff.mpr ⟨n, h.le_of_isStream hs hslot, hn⟩] at hfd
    cases hfd
  · rfl

theorem setFlags (h : InPlace t) (fd : BitVec 32) (flags : BitVec 16) : InPlace (t.setFlags fd flags).2 := by
  refine h.congr fun s hs n => ?_
  rw [FdTable.slot_setFlags]
  split_ifs
  · cases hslot : t.slot n with
    | none => simp
    | some e => rcases hs with rfl | rfl | rfl <;> cases e <;> simp [FdEntry.setFlags]
  · rfl

theorem insert (h : InPlace t) {e : FdEntry} (he : ¬ e.IsStream) : InPlace (t.insert e).2 := by
  obtain ⟨hfree, -, hslots⟩ := FdTable.slot_insert t e
  refine h.congr fun s hs n => ?_
  rw [hslots]
  split_ifs with hn
  · rw [hn, hfree]
    refine iff_of_false (fun hes => he ?_) nofun
    rw [Option.some.inj hes]
    exact hs
  · rfl

theorem renumber (h : InPlace t) {from_ to_ : BitVec 32} {n i : ℕ} (hn : fdIndex from_ = some n)
    (hi : fdIndex to_ = some i) (hmove : t.Movable n i) (hni : n = i ∨ 2 < n ∧ 2 < i) :
    InPlace (t.renumber from_ to_).2 := by
  refine h.congr fun s hs j => ?_
  rw [FdTable.slot_renumber hn hi hmove]
  rcases hni with rfl | ⟨hn2, hi2⟩
  · split_ifs with hj
    · rw [hj]
    · rfl
  · have hout : ∀ {k}, 2 < k → t.slot k ≠ some s := fun hk hslot => absurd (h.le_of_isStream hs hslot) (not_le.mpr hk)
    split_ifs with hji hjn
    · rw [hji]
      exact iff_of_false (hout hn2) (hout hi2)
    · rw [hjn]
      exact iff_of_false nofun (hout hn2)
    · rfl

end InPlace

namespace Agrees

variable {l : FdLedger} {t : FdTable} (h : Agrees l t)

include h

theorem close {fd : BitVec 32} {n : ℕ} (hn : fdIndex fd = some n) : Agrees (l.remove n) (t.close fd).2 := by
  intro j
  rw [FdTable.slot_close, Ledger.get_remove, hn, h j]
  simp only [Option.some.injEq, eq_comm]

theorem setFlags (fd : BitVec 32) (flags : BitVec 16) :
    Agrees (l.modifyAt (fun n => fdIndex fd = some n) (FdEntry.setFlags flags)) (t.setFlags fd flags).2 := by
  intro j
  rw [FdTable.slot_setFlags, Ledger.get_modifyAt, h j]

theorem insert (e : FdEntry) : Agrees (l.install (t.insert e).1 e) (t.insert e).2 := by
  intro j
  rw [(FdTable.slot_insert t e).2.2, Ledger.get_install, h j]

theorem renumber {from_ to_ : BitVec 32} {n i : ℕ} (hn : fdIndex from_ = some n) (hi : fdIndex to_ = some i)
    (hmove : t.Movable n i) : Agrees (l.move n i) (t.renumber from_ to_).2 := by
  intro j
  rw [FdTable.slot_renumber hn hi hmove, Ledger.get_move, h n, h j]

theorem isLowestFree (e : FdEntry) : IsLowestFree l (t.insert e).1 := by
  obtain ⟨hfree, hbelow, -⟩ := FdTable.slot_insert t e
  refine ⟨(h _).symm.trans hfree, fun m hm hnone => hbelow m hm ((h m).trans hnone)⟩

end Agrees

/-! ## Every call -/

theorem ActsOn.of_eq {l : FdLedger} {fd : BitVec 32} {act : FdEntry → WasiM σ Unit} {w w' : World σ} {o : Outcome}
    {x : WasiM σ Unit} (h : Agrees l w.fds) (hx : finish x w = match w.fds.get fd with
      | none => (.failed .badf, w)
      | some e => finish (act e) w) (hfinish : finish x w = (o, w')) : ActsOn l fd act w o w' := by
  rw [ActsOn, h.meaning_eq, ← hfinish, hx]

section Step

variable {H : Host σ} {args : List Value} {l : FdLedger} {w w' : World σ} {o : Outcome}

theorem exists_specified_fdClose (hagrees : Agrees l w.fds) (hsound : l.Sound) (hplace : InPlace w.fds)
    (hmeets : isStdio (arg args 0) = false) (h : dispatch H .fdClose args w = (o, w')) :
    ∃ l', Specified H .fdClose args l w o w' l' ∧ Agrees l' w'.fds ∧ l'.Sound ∧ InPlace w'.fds := by
  have hcall : dispatch H .fdClose args w = finish (onTable (·.close (arg args 0))) w := by
    show finish (if isStdio (arg args 0) then pure () else onTable (·.close (arg args 0))) w = _
    rw [hmeets]
    rfl
  rw [hcall, finish_onTable, FdTable.close_fst] at h
  cases hget : w.fds.get (arg args 0) with
  | none =>
    rw [hget, FdTable.close_of_none hget] at h
    cases h
    exact ⟨l, ⟨⟨_, rfl⟩, .inl ⟨(hagrees.meaning_eq _).trans hget, rfl, rfl⟩⟩, hagrees, hsound, hplace⟩
  | some e =>
    obtain ⟨n, hn, hslot⟩ := Option.bind_eq_some_iff.mp hget
    rw [hget] at h
    cases h
    refine ⟨l.remove n, ⟨⟨_, rfl⟩, .inr ⟨n, hn, ?_, rfl, rfl⟩⟩, hagrees.close hn, hsound.remove n, hplace.close hmeets⟩
    rw [← hagrees n, hslot]
    exact nofun

theorem exists_specified_fdRenumber (hagrees : Agrees l w.fds) (hsound : l.Sound) (hplace : InPlace w.fds)
    (hmeets : Meets w .fdRenumber args) (h : dispatch H .fdRenumber args w = (o, w')) :
    ∃ l', Specified H .fdRenumber args l w o w' l' ∧ Agrees l' w'.fds ∧ l'.Sound ∧ InPlace w'.fds := by
  rw [show dispatch H .fdRenumber args w = finish (onTable (·.renumber (arg args 0) (arg args 1))) w from rfl,
    finish_onTable] at h
  cases hmoved : (w.fds.renumber (arg args 0) (arg args 1)).1 with
  | false =>
    rw [hmoved, FdTable.renumber_eq_of_false hmoved] at h
    cases h
    exact ⟨l, ⟨⟨_, rfl⟩, .inl ⟨nofun, rfl⟩⟩, hagrees, hsound, hplace⟩
  | true =>
    obtain ⟨n, i, hn, hi, hmove⟩ := FdTable.renumber_fst.mp hmoved
    rw [hmoved] at h
    cases h
    refine ⟨l.move n i, ⟨⟨_, rfl⟩, .inr ⟨n, i, hn, hi, ?_, rfl, rfl⟩⟩, hagrees.renumber hn hi hmove, hsound.move n i,
      hplace.renumber hn hi hmove (hmeets n i hn hi hmove)⟩
    rw [← hagrees n]
    exact hmove.1

theorem exists_specified_fdFdstatSetFlags (hagrees : Agrees l w.fds) (hsound : l.Sound) (hplace : InPlace w.fds)
    (h : dispatch H .fdFdstatSetFlags args w = (o, w')) :
    ∃ l', Specified H .fdFdstatSetFlags args l w o w' l' ∧ Agrees l' w'.fds ∧ l'.Sound ∧ InPlace w'.fds := by
  rw [show dispatch H .fdFdstatSetFlags args w =
    finish (onTable (·.setFlags (arg args 0) ((arg args 1).setWidth 16))) w from rfl, finish_onTable] at h
  cases h
  exact ⟨_, rfl, hagrees.setFlags _ _, hsound.modifyAt _ _, hplace.setFlags _ _⟩

theorem exists_specified_pathOpen (hagrees : Agrees l w.fds) (hsound : l.Sound) (hplace : InPlace w.fds)
    (h : dispatch H .pathOpen args w = (o, w')) :
    ∃ l', Specified H .pathOpen args l w o w' l' ∧ Agrees l' w'.fds ∧ l'.Sound ∧ InPlace w'.fds := by
  replace h : finish (pathOpen H args) w = (o, w') := h
  have ho : (finish (pathOpen H args) w).1 = o := by rw [h]
  have hw' : (pathOpen H args w).state = w' := by rw [← finish_snd, h]
  rcases installs_pathOpen H args w with ⟨e, w₁, hx, hasks⟩ | ⟨e, w₁, hasks, ⟨d, -, hpassed⟩, hx⟩
  · rw [hx] at hw'
    obtain rfl : w₁ = w' := hw'
    refine ⟨l, .inl ⟨?_, rfl⟩, hasks.fds_eq ▸ hagrees, hsound, hasks.fds_eq ▸ hplace⟩
    rintro rfl
    obtain ⟨w₂, hok⟩ := finish_fst.mp ho
    rw [hx] at hok
    cases hok
  · obtain ⟨⟨hfds, -⟩, htold⟩ := install_cases e (argU args 8) w₁
    rw [hx] at hw'
    rw [hw', hasks.fds_eq] at hfds
    have hfree := hagrees.isLowestFree e
    refine ⟨l.install (w.fds.insert e).1 e, .inr ⟨_, e, hfree, rfl, ?_⟩, hfds ▸ hagrees.insert e,
      hsound.install (by rw [Ledger.place, Option.map_eq_none_iff.mp hfree.1]; rfl) e, hfds ▸ hplace.insert hpassed.notStream⟩
    rintro rfl
    obtain ⟨w₂, hok⟩ := finish_fst.mp ho
    rw [hx] at hok
    rw [hok] at hw'
    obtain rfl : w₂ = w' := hw'
    rw [← hasks.fds_eq]
    exact htold () w₂ hok

/-- A call that keeps to it does to the entries what is specified, and leaves the streams in place. -/
theorem exists_specified {f : WasiFunc} (hagrees : Agrees l w.fds) (hsound : l.Sound) (hplace : InPlace w.fds)
    (hmeets : Meets w f args) (h : dispatch H f args w = (o, w')) :
    ∃ l', Specified H f args l w o w' l' ∧ Agrees l' w'.fds ∧ l'.Sound ∧ InPlace w'.fds := by
  by_cases htable : f.onTable = false
  · have hfds : w'.fds = w.fds := by
      rw [← dispatch_fds_eq htable args w, h]
    refine ⟨l, ?_, hfds ▸ hagrees, hsound, hfds ▸ hplace⟩
    cases f with
    | fdClose | fdRenumber | fdFdstatSetFlags | pathOpen => cases htable
    | fdRead => exact ⟨.of_eq hagrees (fdRead_eq hplace hmeets) h, rfl⟩
    | fdWrite => exact ⟨.of_eq hagrees (fdWrite_eq hplace hmeets) h, rfl⟩
    | fdSeek => exact ⟨.of_eq hagrees (fdSeek_eq hmeets) h, rfl⟩
    | fdFdstatGet => exact ⟨.of_eq hagrees fdFdstatGet_eq h, rfl⟩
    | _ => rfl
  · cases f with
    | fdClose => exact exists_specified_fdClose hagrees hsound hplace hmeets h
    | fdRenumber => exact exists_specified_fdRenumber hagrees hsound hplace hmeets h
    | fdFdstatSetFlags => exact exists_specified_fdFdstatSetFlags hagrees hsound hplace h
    | pathOpen => exact exists_specified_pathOpen hagrees hsound hplace h
    | _ => exact absurd rfl htable

end Step

/-! ## Every run -/

/-- The three standard streams. -/
def streams : FdLedger := ((Ledger.empty.install 0 .stdin).install 1 .stdout).install 2 .stderr

/-- The entries of a process at its start: the streams, and each preopen at the lowest free number. -/
inductive AtStart : List DirFd → FdLedger → Prop
  | nil : AtStart [] streams
  | snoc {ds : List DirFd} {l : FdLedger} {n : ℕ} (d : DirFd) (h : AtStart ds l) (hn : IsLowestFree l n) :
    AtStart (ds ++ [d]) (l.install n (.dir d))

/-- A run each of whose calls does what is specified of the entries, no entry being at two numbers or lost. -/
inductive Traced (H : Host σ) : World σ → FdLedger → List GuestCall → World σ → FdLedger → Prop
  | nil (w : World σ) (l : FdLedger) : Traced H w l [] w l
  | cons {w w₁ w' : World σ} {l l₁ l' : FdLedger} {c : GuestCall} {calls : List GuestCall} {o : Outcome}
    (hcall : dispatch H c.func c.args (c.start w) = (o, w₁))
    (hspec : Specified H c.func c.args l (c.start w) o w₁ l₁) (hsound : l₁.Sound) (hrest : Traced H w₁ l₁ calls w' l') :
    Traced H w l (c :: calls) w' l'

/-- Every call of a run keeps to it. -/
def MeetsAll (H : Host σ) : World σ → List GuestCall → Prop
  | _, [] => True
  | w, c :: calls => Meets (c.start w) c.func c.args ∧ MeetsAll H (dispatch H c.func c.args (c.start w)).2 calls

theorem inPlace_new : InPlace FdTable.new := by
  constructor <;> intro n <;> rcases n with _ | _ | _ | n <;> simp [FdTable.slot, FdTable.new]

theorem agrees_streams : Agrees streams FdTable.new := by
  intro n
  rcases n with _ | _ | _ | n
  · rfl
  · rfl
  · rfl
  · rw [streams, Ledger.get_install, if_neg (by omega), Ledger.get_install, if_neg (by omega), Ledger.get_install,
      if_neg (by omega)]
    rfl

theorem sound_streams : streams.Sound :=
  ((Ledger.sound_empty.install rfl _).install rfl _).install rfl _

/-- The start of a process is one that the entries explain. -/
theorem exists_atStart (ds : List DirFd) :
    ∃ l, AtStart ds l ∧ Agrees l (FdTable.preopened ds) ∧ l.Sound ∧ InPlace (FdTable.preopened ds) := by
  induction ds using List.reverseRecOn with
  | nil => exact ⟨streams, .nil, agrees_streams, sound_streams, inPlace_new⟩
  | append_singleton ds d ih =>
    obtain ⟨l, hstart, hagrees, hsound, hplace⟩ := ih
    have hfree := hagrees.isLowestFree (.dir d)
    rw [FdTable.preopened, List.foldl_concat]
    refine ⟨_, .snoc d hstart hfree, hagrees.insert (.dir d), ?_, hplace.insert (by simp [FdEntry.IsStream])⟩
    exact hsound.install (by rw [Ledger.place, Option.map_eq_none_iff.mp hfree.1]; rfl) _

theorem exists_traced_of_agrees {H : Host σ} {w : World σ} {l : FdLedger} (hagrees : Agrees l w.fds) (hsound : l.Sound)
    (hplace : InPlace w.fds) {calls : List GuestCall} (hmeets : MeetsAll H w calls) :
    ∃ w' l', Traced H w l calls w' l' ∧ Agrees l' w'.fds := by
  induction calls generalizing w l with
  | nil => exact ⟨w, l, .nil w l, hagrees⟩
  | cons c calls ih =>
    obtain ⟨hmeets, hrest⟩ := hmeets
    obtain ⟨l₁, hspec, hagrees₁, hsound₁, hplace₁⟩ := exists_specified (w := c.start w) hagrees hsound hplace hmeets rfl
    obtain ⟨w', l', htraced, hagrees'⟩ := ih hagrees₁ hsound₁ hplace₁ hrest
    exact ⟨w', l', .cons rfl hspec hsound₁ htraced, hagrees'⟩

/-- In every run of a process whose calls leave the standard streams where they are, and name no number without an entry
in a seek or along with vectors that cannot be read, each call does what is specified of the entry last installed at its
number. -/
theorem exists_traced {H : Host σ} {w : World σ} {ds : List DirFd} (hfds : w.fds = FdTable.preopened ds)
    {calls : List GuestCall} (hmeets : MeetsAll H w calls) :
    ∃ l w' l', AtStart ds l ∧ Traced H w l calls w' l' ∧ Agrees l' w'.fds := by
  obtain ⟨l, hstart, hagrees, hsound, hplace⟩ := exists_atStart ds
  rw [← hfds] at hagrees hplace
  obtain ⟨w', l', htraced, hagrees'⟩ := exists_traced_of_agrees hagrees hsound hplace hmeets
  exact ⟨l, w', l', hstart, htraced, hagrees'⟩

/-- A host without files. -/
def emptyHost : Host Unit where
  answer op s := (match op with
    | .symlinkMetadata _ | .metadata _ | .fileMetadata _ => .error .notFound
    | .readLink _ => .error .notFound
    | .canonicalize p => .ok p
    | .readDir _ => .ok []
    | .open_ _ _ => .error .notFound
    | .createDir _ | .removeDir _ | .removeFile _ | .symlink _ _ _ | .hardLink _ _ | .rename _ _ | .setLen _ _ =>
      .error .permissionDenied
    | .writeStd _ _ => .ok ()
    | .seek _ _ | .streamPosition _ => .error .other
    | .read _ _ => .ok []
    | .write _ _ => .ok 0
    | .nowNanos => 0
    | .fillRandom len => List.replicate len 0, s)

/-- A process with a preopened directory and 16 bytes of memory. -/
def sampleWorld : World Unit where
  args := []
  env := []
  stdin := []
  stdinPos := 0
  stdout := .capture []
  stderr := .capture []
  exit := none
  fds := FdTable.preopened [⟨[], some [47], Rights.all, Rights.all⟩]
  mem := some (List.replicate 16 0)
  host := ()
  log := []

/-- The preopen is moved to 9 and then asked about there. -/
theorem exists_traced_sample : ∃ l w' l', AtStart [⟨[], some [47], Rights.all, Rights.all⟩] l ∧
    Traced emptyHost sampleWorld l [⟨.fdRenumber, [3, 9], sampleWorld.mem⟩, ⟨.fdTell, [9, 0], sampleWorld.mem⟩,
      ⟨.fdClose, [9], sampleWorld.mem⟩] w' l' ∧ Agrees l' w'.fds := by
  refine exists_traced rfl ⟨?_, trivial, rfl, trivial⟩
  rintro n i ⟨⟩ ⟨⟩ -
  exact .inr ⟨by decide, by decide⟩

/-- Standard output moved from 1 to 5: a close of 1 succeeds although no entry has that number, a write to 5 is refused
although it means standard output, and no entries explain the two steps. -/
theorem renumber_stdout_untraced :
    (dispatch emptyHost .fdClose [1] (dispatch emptyHost .fdRenumber [1, 5] sampleWorld).2).1 = .success ∧
      (dispatch emptyHost .fdWrite [5, 0, 0, 8] (dispatch emptyHost .fdRenumber [1, 5] sampleWorld).2).1 =
        .failed .badf ∧
      ¬ ∃ l w' l', Traced emptyHost sampleWorld l
        [⟨.fdRenumber, [1, 5], sampleWorld.mem⟩, ⟨.fdClose, [1], sampleWorld.mem⟩] w' l' := by
  refine ⟨rfl, rfl, ?_⟩
  rintro ⟨l, w', l', htraced⟩
  obtain ⟨⟩ | ⟨hcall, hspec, -, hrest⟩ := htraced
  cases hcall
  obtain ⟨-, ⟨hfailed, -⟩ | ⟨n, i, hn, hi, -, -, rfl⟩⟩ := hspec
  · exact hfailed rfl
  cases hn
  cases hi
  obtain ⟨⟩ | ⟨hcall, hspec, -, -⟩ := hrest
  cases hcall
  obtain ⟨-, ⟨-, hfailed, -⟩ | ⟨n, hn, hopen, -⟩⟩ := hspec
  · cases hfailed
  · cases hn
    apply hopen
    rw [Ledger.get_move, if_neg (by decide)]
    exact if_pos (by decide)

end Wasmrt.Wasi
