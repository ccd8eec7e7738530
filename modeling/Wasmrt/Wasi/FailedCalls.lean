import Wasmrt.Wasi.Requests

/-!
# What a call that fails leaves behind

A call that fails should leave the guest where it was: no entry gained or lost, no file moved, and no byte of the
standard input taken that did not arrive. The calls that act first and then find no room in guest memory do not.

## Main definitions

* `FilePositions`: where the open files of a host stand.
* `NothingLost`: what a call that fails should leave.
* `Slips`: the calls that act and then fail.

## Main results

* `nothingLost_iff`: every other one leaves what it should.
-/

namespace Wasmrt.Wasi

variable {σ : Type}

/-! ## Where files stand -/

/-- Whether a request may move an open file. -/
def HostOp.moves (file : Handle) : HostOp → Bool
  | seek f _ | read f _ | write f _ => f == file
  | _ => false

/-- Where the open files of a host stand. -/
structure FilePositions (H : Host σ) where
  /-- The position of a file, if it is open. -/
  pos : σ → Handle → Option ℕ
  /-- A file whose position can be asked can be sought below this. -/
  limit : Handle → ℕ
  /-- A file is moved by what names it only. -/
  frame {op : HostOp} {s : σ} {file : Handle} {p : ℕ} (h : op.moves file = false) (hp : pos s file = some p) :
    pos (H.answer op s).2 file = some p
  /-- A read moves a file by the bytes it delivers. -/
  read_ok {s : σ} {file : Handle} {n : ℕ} {b : Bytes} (h : (H.answer (.read file n) s).1 = .ok b) :
    ∃ p, pos s file = some p ∧ pos (H.answer (.read file n) s).2 file = some (p + b.length)
  read_error {s : σ} {file : Handle} {n : ℕ} {e : IoError} (h : (H.answer (.read file n) s).1 = .error e) :
    pos (H.answer (.read file n) s).2 file = pos s file
  /-- A seek leaves a file where it says. -/
  seek_ok {s : σ} {file : Handle} {from_ : SeekFrom} {q : BitVec 64} (h : (H.answer (.seek file from_) s).1 = .ok q) :
    (∃ p, pos s file = some p) ∧ pos (H.answer (.seek file from_) s).2 file = some q.toNat
  seek_error {s : σ} {file : Handle} {from_ : SeekFrom} {e : IoError}
    (h : (H.answer (.seek file from_) s).1 = .error e) : pos (H.answer (.seek file from_) s).2 file = pos s file
  seek_start {s : σ} {file : Handle} {p : ℕ} {off : BitVec 64} (hp : pos s file = some p)
    (hoff : off.toNat < limit file) :
    (H.answer (.seek file (.start off)) s).1 = .ok off
  position_ok {s : σ} {file : Handle} {q : BitVec 64} (h : (H.answer (.streamPosition file) s).1 = .ok q) :
    pos s file = some q.toNat ∧ q.toNat < limit file

/-! ## What should be left -/

/-- Some chunks were written to guest memory, one after the other. -/
inductive Written : List (ℕ × Bytes) → Option Bytes → Option Bytes → Prop
  | nil (mem : Option Bytes) : Written [] mem mem
  | cons {addr : ℕ} {data m : Bytes} {chunks : List (ℕ × Bytes)} {mem : Option Bytes}
      (h : addr + data.length ≤ m.length)
      (rest : Written chunks (some (m.take addr ++ data ++ m.drop (addr + data.length))) mem) :
      Written ((addr, data) :: chunks) (some m) mem

/-- What was taken from the standard input was written to guest memory. -/
def Arrived (w w' : World σ) : Prop :=
  w.stdinPos ≤ w'.stdinPos ∧ ∃ chunks, Written chunks w.mem w'.mem ∧
    chunks.flatMap (·.2) = (w.stdin.drop w.stdinPos).take (w'.stdinPos - w.stdinPos)

variable {H : Host σ}

/-- The entries are the same at the same numbers, no file was moved, and what was taken from the standard input
arrived. -/
structure NothingLost (P : FilePositions H) (w w' : World σ) : Prop where
  entries : ∀ n, w'.fds.slot n = w.fds.slot n
  positions : ∀ file p, P.pos w.host file = some p → P.pos w'.host file = some p
  input : w'.stdinPos = w.stdinPos ∨ Arrived w w'

/-! ## The calls that slip -/

/-- Whether some bytes of guest memory can be written. -/
def HasRoom (mem : Option Bytes) (addr len : ℕ) : Prop := ∃ bytes, mem = some bytes ∧ addr + len ≤ bytes.length

/-- What the host delivers when a file is read into some vectors, up to its end, and the first failure. -/
def deliveries (H : Host σ) (file : Handle) : List (ℕ × ℕ) → σ → List (ℕ × Bytes) × Option IoError
  | [], _ => ([], none)
  | (ptr, len) :: rest, s =>
    if len = 0 then deliveries H file rest s
    else
      match H.answer (.read file len) s with
      | (.error e, _) => ([], some e)
      | (.ok b, s') =>
        if b.isEmpty then ([], none)
        else if b.length < len then ([(ptr, b)], none)
        else
          let more := deliveries H file rest s'
          ((ptr, b) :: more.1, more.2)

/-- A file delivers something that does not all arrive, or whose count does not. -/
def Drops (H : Host σ) (file : Handle) (vecs : List (ℕ × ℕ)) (out : ℕ) (w : World σ) : Prop :=
  let (chunks, failed) := deliveries H file vecs w.host
  chunks ≠ [] ∧ (failed.isSome ∨ (∃ c ∈ chunks, ¬ HasRoom w.mem c.1 c.2.length) ∨ ¬ HasRoom w.mem out 4)

/-- What the path of `path_open` opens. -/
def entryAt (H : Host σ) (d : DirFd) (host : Path) (args : List Value) : WasiM σ FdEntry := do
  let oflag : BitVec 16 := (arg args 4).setWidth 16
  let fdflag : BitVec 16 := (arg args 7).setWidth 16
  let base := arg64 args 5 &&& d.rightsInheriting
  let inheriting := arg64 args 6 &&& d.rightsInheriting
  let creat : Bool := oflag &&& OFlags.creat ≠ 0
  let excl : Bool := oflag &&& OFlags.excl ≠ 0
  let trunc : Bool := oflag &&& OFlags.trunc ≠ 0
  let wantDir : Bool := oflag &&& OFlags.directory ≠ 0
  refuseIf ((creat || trunc) && d.rightsInheriting &&& Rights.pathCreateFile = 0) .notcapable
  let existing ← request H (.symlinkMetadata host)
  let asDir := FdEntry.dir ⟨host, none, base, inheriting⟩
  if wantDir then
    match existing.toOption with
    | some m => if m.isDir then pure asDir else throw .notdir
    | none => throw .noent
  else if existing.toOption.any (·.isDir) then pure asDir
  else do
    refuseIf (excl && existing.toOption.isSome) .exist
    let writable : Bool := base &&& (Rights.fdWrite ||| Rights.fdAllocate) ≠ 0
    refuseIf (trunc && !writable) .inval
    createFirst H host (creat && !writable && existing.toOption.isNone)
    let file ← request H (.open_ host {
      read := base &&& Rights.fdRead ≠ 0 || !writable
      write := writable
      create := creat && writable
      createNew := creat && excl && writable
      truncate := trunc && writable }) >>= orErrno
    pure (.file ⟨file, base, inheriting, fdflag &&& fdflagsAppend ≠ 0⟩)

theorem openAt_eq (d : DirFd) (host : Path) (args : List Value) :
    openAt H d host args = entryAt H d host args >>= fun e => install e (argU args 8) := by
  rw [openAt, entryAt]
  simp only [bind_assoc]
  refine bind_congr fun _ => bind_congr fun existing => ?_
  split_ifs
  · cases existing.toOption with
    | none => rfl
    | some m =>
      dsimp only
      split_ifs <;> rfl
  · rfl
  · simp only [bind_assoc, pure_bind]

/-- What `path_open` opens. -/
def pathEntry (H : Host σ) (args : List Value) : WasiM σ FdEntry := do
  let dirfd := arg args 0
  let follow : Bool := arg args 1 &&& lookupSymlinkFollow ≠ 0
  let w ← resolve H dirfd Rights.pathOpen (argU args 2) (argU args 3) follow
  refuseIf (!follow && w.finalIsSymlink) .loop
  match (← get).fds.get dirfd with
  | some (.dir d) => entryAt H d w.path args
  | _ => throw .badf

theorem pathOpen_eq (args : List Value) :
    pathOpen H args = pathEntry H args >>= fun e => install e (argU args 8) := by
  rw [pathOpen, pathEntry]
  simp only [bind_assoc]
  refine bind_congr fun walked => bind_congr fun _ => bind_congr fun w => ?_
  cases w.fds.get (arg args 0) with
  | none => rfl
  | some e =>
    cases e with
    | dir d => exact openAt_eq _ _ _
    | stdin | stdout | stderr | file f => rfl

/-- The calls that act and then fail: a read whose bytes or count find no room, a seek or an opening that cannot say
what it did. -/
def Slips (P : FilePositions H) (f : WasiFunc) (args : List Value) (w : World σ) : Prop :=
  match f with
  | .fdRead => isStdio (arg args 0) = false ∧ ∃ f vecs, w.fds.get (arg args 0) = some (.file f) ∧
      f.rightsBase &&& Rights.fdRead ≠ 0 ∧ readIovecs (argU args 1) (argU args 2) w = .ok vecs w ∧
      Drops H f.file vecs (argU args 3) w
  | .fdSeek => ∃ f from_ q, w.fds.get (arg args 0) = some (.file f) ∧ f.rightsBase &&& Rights.fdSeek ≠ 0 ∧
      seekFrom ((arg args 2).setWidth 8) (arg64 args 1) = some from_ ∧
      (H.answer (.seek f.file from_) w.host).1 = .ok q ∧ P.pos w.host f.file ≠ some q.toNat ∧
      ¬ HasRoom w.mem (argU args 3) 8
  | .pathOpen => (∃ e w', pathEntry H args w = .ok e w') ∧ ¬ HasRoom w.mem (argU args 8) 4
  | _ => False

/-- The calls that read, open, close, renumber, seek and list. -/
def heldCalls : List WasiFunc := [.fdRead, .fdPread, .pathOpen, .fdClose, .fdRenumber, .fdSeek, .fdReaddir]

/-! ## What leaves everything where it was -/

/-- The world after a request. -/
def asked (H : Host σ) (op : HostOp) (w : World σ) : World σ :=
  { w with host := (H.answer op w.host).2, log := w.log ++ [op] }

/-- The table, the files and the standard input are as they were. -/
structure Still (P : FilePositions H) (w w' : World σ) : Prop where
  fds_eq : w'.fds = w.fds
  pos_eq : ∀ {file p}, P.pos w.host file = some p → P.pos w'.host file = some p
  stdin_eq : w'.stdin = w.stdin
  stdinPos_eq : w'.stdinPos = w.stdinPos

namespace Still

variable {P : FilePositions H}

theorem refl (w : World σ) : Still P w w := ⟨rfl, id, rfl, rfl⟩

theorem trans ⦃w w' w'' : World σ⦄ (h : Still P w w') (h' : Still P w' w'') : Still P w w'' where
  fds_eq := h'.fds_eq.trans h.fds_eq
  pos_eq hp := h'.pos_eq (h.pos_eq hp)
  stdin_eq := h'.stdin_eq.trans h.stdin_eq
  stdinPos_eq := h'.stdinPos_eq.trans h.stdinPos_eq

theorem nothingLost {w w' : World σ} (h : Still P w w') : NothingLost P w w' where
  entries n := by rw [h.fds_eq]
  positions _ _ := h.pos_eq
  input := .inl h.stdinPos_eq

theorem keeps_request {op : HostOp} (h : ∀ file, op.moves file = false) : Keeps (Still P) (request H op) :=
  fun _ => ⟨rfl, fun hp => P.frame (h _) hp, rfl, rfl⟩

theorem keeps_guestWrite (addr : ℕ) (data : Bytes) : Keeps (Still P) (guestWrite addr data : WasiM σ Unit) :=
  Wasi.keeps_guestWrite refl trans (fun _ _ => ⟨rfl, id, rfl, rfl⟩) addr data

/-- A request that does not move a file leaves it, and so do all that name another one. -/
structure But (P : FilePositions H) (file : Handle) (w w' : World σ) : Prop where
  fds_eq : w'.fds = w.fds
  pos_eq : ∀ {g p}, g ≠ file → P.pos w.host g = some p → P.pos w'.host g = some p
  stdin_eq : w'.stdin = w.stdin
  stdinPos_eq : w'.stdinPos = w.stdinPos
  mem_eq : w'.mem = w.mem

namespace But

variable {file : Handle}

theorem refl (w : World σ) : But P file w w := ⟨rfl, fun _ hp => hp, rfl, rfl, rfl⟩

theorem trans ⦃w w' w'' : World σ⦄ (h : But P file w w') (h' : But P file w' w'') : But P file w w'' where
  fds_eq := h'.fds_eq.trans h.fds_eq
  pos_eq hg hp := h'.pos_eq hg (h.pos_eq hg hp)
  stdin_eq := h'.stdin_eq.trans h.stdin_eq
  stdinPos_eq := h'.stdinPos_eq.trans h.stdinPos_eq
  mem_eq := h'.mem_eq.trans h.mem_eq

/-- All is as it was if the file is back. -/
theorem still {w w' : World σ} (h : But P file w w')
    (hpos : ∀ p, P.pos w.host file = some p → P.pos w'.host file = some p) : Still P w w' where
  fds_eq := h.fds_eq
  pos_eq {g p} hp := by
    by_cases hg : g = file
    · rw [hg] at hp ⊢
      exact hpos p hp
    · exact h.pos_eq hg hp
  stdin_eq := h.stdin_eq
  stdinPos_eq := h.stdinPos_eq

theorem asked {op : HostOp} (h : ∀ g, g ≠ file → op.moves g = false) (w : World σ) :
    But P file w (Wasi.asked H op w) :=
  ⟨rfl, fun hg hp => P.frame (h _ hg) hp, rfl, rfl, rfl⟩

end But

end Still

/-! ## Room in guest memory -/

theorem guestWrite_of_room {addr : ℕ} {data : Bytes} {w : World σ} (h : HasRoom w.mem addr data.length) :
    ∃ mem, guestWrite addr data w = .ok () { w with mem } ∧ ∀ a n, HasRoom mem a n ↔ HasRoom w.mem a n := by
  obtain ⟨m, hmem, hlen⟩ := h
  refine ⟨_, guestWrite_of_le hmem hlen, fun a n => ?_⟩
  have hsize : (m.take addr ++ data ++ m.drop (addr + data.length)).length = m.length := by
    simp
    omega
  simp only [HasRoom, hmem, Option.some.injEq, exists_eq_left', hsize]

theorem guestWrite_of_not_room {addr : ℕ} {data : Bytes} {w : World σ} (h : ¬ HasRoom w.mem addr data.length) :
    guestWrite addr data w = .error .fault w := by
  rw [guestWrite, estate_bind_of_ok (estate_get_eq_ok.mpr ⟨rfl, rfl⟩)]
  cases hmem : w.mem with
  | none => rfl
  | some bytes =>
    dsimp only
    rw [if_neg fun hlen => h ⟨bytes, hmem, hlen⟩]
    rfl

/-- Write some chunks to guest memory. -/
def writeChunks (chunks : List (ℕ × Bytes)) : WasiM σ Unit := chunks.forM fun c => guestWrite c.1 c.2

theorem writeChunks_cons (c : ℕ × Bytes) (chunks : List (ℕ × Bytes)) :
    (writeChunks (c :: chunks) : WasiM σ Unit) = guestWrite c.1 c.2 >>= fun _ => writeChunks chunks := rfl

/-- Some chunks are written if all of them have room. -/
theorem writeChunks_of_room {chunks : List (ℕ × Bytes)} {w : World σ} (h : ∀ c ∈ chunks, HasRoom w.mem c.1 c.2.length) :
    ∃ mem, writeChunks chunks w = .ok () { w with mem } ∧ ∀ a n, HasRoom mem a n ↔ HasRoom w.mem a n := by
  induction chunks generalizing w with
  | nil => exact ⟨w.mem, rfl, fun _ _ => Iff.rfl⟩
  | cons c chunks ih =>
    obtain ⟨mem, hwrite, hsame⟩ := guestWrite_of_room (h c List.mem_cons_self)
    have hrest : ∀ c ∈ chunks, HasRoom mem c.1 c.2.length := fun c hc =>
      (hsame _ _).mpr (h c (List.mem_cons_of_mem _ hc))
    obtain ⟨mem', hok, hsame'⟩ := ih (w := { w with mem }) hrest
    refine ⟨mem', ?_, fun a n => (hsame' a n).trans (hsame a n)⟩
    rw [writeChunks_cons, estate_bind_of_ok hwrite, hok]

theorem writeChunks_of_not_room {chunks : List (ℕ × Bytes)} {w : World σ}
    (h : ∃ c ∈ chunks, ¬ HasRoom w.mem c.1 c.2.length) : ∃ e w', writeChunks chunks w = .error e w' := by
  induction chunks generalizing w with
  | nil => simp at h
  | cons c chunks ih =>
    rw [writeChunks_cons]
    by_cases hroom : HasRoom w.mem c.1 c.2.length
    · obtain ⟨mem, hwrite, hsame⟩ := guestWrite_of_room hroom
      obtain ⟨c', hc', hno⟩ := h
      rw [estate_bind_of_ok hwrite]
      rcases List.mem_cons.mp hc' with rfl | hc'
      · exact absurd hroom hno
      · exact ih ⟨c', hc', fun h => hno ((hsame _ _).mp h)⟩
    · exact ⟨_, _, estate_bind_of_error (guestWrite_of_not_room hroom) _⟩

/-! ## Reads -/

section Reads

variable {P : FilePositions H} {file : Handle}

/-- How many bytes some chunks hold. -/
def chunkBytes (chunks : List (ℕ × Bytes)) : ℕ := (chunks.map (·.2.length)).sum

/-- The chunks are what the host delivers, and the file is moved by as many bytes. -/
theorem readChunks_eq (P : FilePositions H) (file : Handle) (vecs : List (ℕ × ℕ)) (w : World σ) :
    ∃ w', readChunks H file vecs w =
        .ok ((deliveries H file vecs w.host).1, (deliveries H file vecs w.host).2.map errnoFor) w' ∧
      Still.But P file w w' ∧
      (∀ p, P.pos w.host file = some p →
        P.pos w'.host file = some (p + chunkBytes (deliveries H file vecs w.host).1)) ∧
      ((deliveries H file vecs w.host).1 ≠ [] → (∃ p, P.pos w.host file = some p) ∧
        0 < chunkBytes (deliveries H file vecs w.host).1) := by
  induction vecs generalizing w with
  | nil => exact ⟨w, rfl, Still.But.refl w, fun p hp => hp, fun h => absurd rfl h⟩
  | cons v vecs ih =>
    obtain ⟨ptr, len⟩ := v
    rw [readChunks, deliveries]
    by_cases hlen : len = 0
    · rw [if_pos hlen, if_pos hlen]
      exact ih w
    rw [if_neg hlen, if_neg hlen]
    set w₁ := asked H (.read file len) w
    have hbut : Still.But P file w w₁ := Still.But.asked (fun g hg => beq_false_of_ne hg.symm) w
    have hrequest : request H (.read file len) w = .ok (H.answer (.read file len) w.host).1 w₁ := rfl
    rw [estate_bind_of_ok hrequest]
    have hfst : H.answer (.read file len) w.host =
        ((H.answer (.read file len) w.host).1, (H.answer (.read file len) w.host).2) := rfl
    rw [hfst]
    cases hans : (H.answer (.read file len) w.host).1 with
    | error e =>
      exact ⟨w₁, rfl, hbut, fun p hp => (P.read_error hans).trans hp, fun h => absurd rfl h⟩
    | ok b =>
      obtain ⟨p, hp, hp'⟩ := P.read_ok hans
      have hmoved : ∀ q, P.pos w.host file = some q → P.pos w₁.host file = some (q + b.length) := by
        intro q hq
        rw [hp] at hq
        cases hq
        exact hp'
      dsimp only
      by_cases hempty : b.isEmpty = true
      · rw [if_pos hempty, if_pos hempty]
        have hzero : b.length = 0 := by simpa using hempty
        refine ⟨w₁, rfl, hbut, fun q hq => ?_, fun h => absurd rfl h⟩
        rw [hmoved q hq, hzero]
        rfl
      rw [if_neg hempty, if_neg hempty]
      have hpos : 0 < b.length := by
        rw [List.length_pos_iff]
        simpa using hempty
      by_cases hshort : b.length < len
      · rw [if_pos hshort, if_pos hshort]
        exact ⟨w₁, rfl, hbut, hmoved, fun _ => ⟨⟨p, hp⟩, hpos⟩⟩
      rw [if_neg hshort, if_neg hshort]
      obtain ⟨w', hrest, hbut', hmoved', -⟩ := ih w₁
      rw [estate_bind_of_ok hrest]
      refine ⟨w', rfl, hbut.trans hbut', fun q hq => ?_, fun _ => ⟨⟨p, hp⟩, ?_⟩⟩
      · rw [hmoved' _ (hmoved q hq), chunkBytes, chunkBytes, List.map_cons, List.sum_cons, Nat.add_assoc]
        rfl
      · rw [chunkBytes, List.map_cons, List.sum_cons]
        exact Nat.add_pos_left hpos _

/-- What is left of a read fails if the file did, or something has no room. -/
theorem deliver_fails (chunks : List (ℕ × Bytes)) (failed : Option IoError) (out : ℕ) (w : World σ) :
    (∃ e w', (match failed.map errnoFor with
      | some e => throw e
      | none => do
        chunks.forM fun c => guestWrite c.1 c.2
        writeU32 out (chunks.foldl (fun total c => saturatingAdd total c.2.length) 0) : WasiM σ Unit) w = .error e w') ↔
      failed.isSome ∨ (∃ c ∈ chunks, ¬ HasRoom w.mem c.1 c.2.length) ∨ ¬ HasRoom w.mem out 4 := by
  cases failed with
  | some e => exact iff_of_true ⟨_, _, rfl⟩ (.inl rfl)
  | none =>
    show (∃ e w', (writeChunks chunks >>= fun _ => writeU32 out _) w = .error e w') ↔ _
    by_cases hroom : ∃ c ∈ chunks, ¬ HasRoom w.mem c.1 c.2.length
    · obtain ⟨e, w', hfail⟩ := writeChunks_of_not_room hroom
      exact iff_of_true ⟨e, w', estate_bind_of_error hfail _⟩ (.inr (.inl hroom))
    · have hall : ∀ c ∈ chunks, HasRoom w.mem c.1 c.2.length := by
        intro c hc
        by_contra hno
        exact hroom ⟨c, hc, hno⟩
      obtain ⟨mem, hok, hsame⟩ := writeChunks_of_room hall
      rw [estate_bind_of_ok hok]
      by_cases hout : HasRoom w.mem out 4
      · have hout' := (hsame out 4).mpr hout
        rw [← length_leBytes 4] at hout'
        obtain ⟨mem', hwrite, -⟩ := guestWrite_of_room (w := { w with mem }) hout'
        refine iff_of_false ?_ (by simp [hroom, hout])
        rintro ⟨e, w', h⟩
        rw [writeU32, hwrite] at h
        cases h
      · have hout' := fun h => hout ((hsame out 4).mp h)
        rw [← length_leBytes 4] at hout'
        exact iff_of_true ⟨_, _, guestWrite_of_not_room (w := { w with mem }) hout'⟩ (.inr (.inr hout))

end Reads

/-! ## The calls one by one -/

/-- If a call fails, nothing is lost. -/
def FailsSafely (P : FilePositions H) (x : WasiM σ Unit) (w : World σ) : Prop :=
  ∀ e w', x w = .error e w' → NothingLost P w w'

section Calls

variable {P : FilePositions H} {args : List Value} {w : World σ}

theorem failsSafely_of_still {x : WasiM σ Unit} (h : Still P w (x w).state) : FailsSafely P x w := by
  intro e w' hx
  rw [hx] at h
  exact h.nothingLost

theorem keeps_still_deliver (chunks : List (ℕ × Bytes)) (failed : Option Errno) (out total : ℕ) :
    Keeps (Still P) (match failed with
      | some e => throw e
      | none => do
        chunks.forM fun c => guestWrite c.1 c.2
        writeU32 out total : WasiM σ Unit) := by
  cases failed with
  | some e => exact Keeps.throw Still.refl _
  | none =>
    exact Keeps.bind Still.trans (Keeps.forM Still.refl Still.trans (fun c => Still.keeps_guestWrite c.1 c.2) chunks)
      fun _ => Still.keeps_guestWrite _ _

/-- A read that does not come back leaves nothing lost unless it drops what it read. -/
theorem failsSafely_readFile (f : FileFd) (hright : f.rightsBase &&& Rights.fdRead ≠ 0) (vecs : List (ℕ × ℕ))
    (out : ℕ) :
    FailsSafely P (readFile H f vecs out none) w ↔ ¬ Drops H f.file vecs out w := by
  obtain ⟨w₁, hread, hbut, hmoved, hpos⟩ := readChunks_eq P f.file vecs w
  rw [Drops]
  set chunks := (deliveries H f.file vecs w.host).1
  set failed := (deliveries H f.file vecs w.host).2
  have hrun : readFile H f vecs out none w = (match failed.map errnoFor with
      | some e => throw e
      | none => do
        chunks.forM fun c => guestWrite c.1 c.2
        writeU32 out (chunks.foldl (fun total c => saturatingAdd total c.2.length) 0) : WasiM σ Unit) w₁ := by
    have hok : refuseIf (f.rightsBase &&& Rights.fdRead = 0) .notcapable w = .ok () w := by
      rw [decide_eq_false hright]
      rfl
    rw [readFile, estate_bind_of_ok hok]
    show (readChunks H f.file vecs >>= _) w = _
    rw [estate_bind_of_ok hread]
    rfl
  have hfails := deliver_fails chunks failed out w₁
  rw [hbut.mem_eq] at hfails
  have hstill := keeps_still_deliver (P := P) chunks (failed.map errnoFor) out
    (chunks.foldl (fun total c => saturatingAdd total c.2.length) 0) w₁
  constructor
  · rintro hsafe ⟨hne, hfail⟩
    obtain ⟨e, w', h⟩ := hfails.mpr hfail
    obtain ⟨⟨p, hp⟩, hbytes⟩ := hpos hne
    rw [h] at hstill
    have hkept := (hsafe e w' (hrun.trans h)).positions _ _ hp
    have hgone := hstill.pos_eq (hmoved p hp)
    rw [EStateM.Result.state_error, hkept, Option.some.injEq] at hgone
    omega
  · intro hdrops e w' h
    rw [hrun] at h
    have hnil : chunks = [] := by
      by_contra hne
      exact hdrops ⟨hne, hfails.mp ⟨e, w', h⟩⟩
    rw [h] at hstill
    refine (Still.trans (hbut.still fun p hp => ?_) hstill).nothingLost
    rw [hmoved p hp, hnil]
    rfl

/-- A read from a given place puts the file back. -/
theorem still_readFile_at (f : FileFd) (vecs : List (ℕ × ℕ)) (out : ℕ) (off : BitVec 64) :
    Still P w (readFile H f vecs out (some off) w).state := by
  have hother : ∀ g : Handle, g ≠ f.file → (f.file == g) = false := fun g hg => beq_false_of_ne hg.symm
  rw [readFile]
  by_cases hright : f.rightsBase &&& Rights.fdRead = 0
  · rw [refuseIf, decide_eq_true hright]
    exact Still.refl w
  rw [refuseIf, decide_eq_false hright]
  -- The position is asked.
  set w₁ := asked H (.streamPosition f.file) w
  have hw₁ : Still P w w₁ := ⟨rfl, fun hp => P.frame rfl hp, rfl, rfl⟩
  show Still P w (((orErrno (H.answer (.streamPosition f.file) w.host).1 >>= fun p => _) >>= _) w₁).state
  cases hask : (H.answer (.streamPosition f.file) w.host).1 with
  | error e => exact hw₁
  | ok p =>
    obtain ⟨hp, hlimit⟩ := P.position_ok hask
    have hp₁ := hw₁.pos_eq hp
    -- The file is moved to the place.
    set w₂ := asked H (.seek f.file (.start off)) w₁
    have hbut₂ : Still.But P f.file w₁ w₂ := Still.But.asked hother w₁
    show Still P w (((orErrno (H.answer (.seek f.file (.start off)) w₁.host).1 >>= fun _ => _) >>= _) w₂).state
    cases hseek : (H.answer (.seek f.file (.start off)) w₁.host).1 with
    | error e =>
      refine Still.trans hw₁ (hbut₂.still fun q hq => ?_)
      rw [← hq]
      exact P.seek_error hseek
    | ok q =>
      obtain ⟨-, hp₂⟩ := P.seek_ok hseek
      -- It is read, and moved back.
      obtain ⟨w₃, hread, hbut₃, hmoved, -⟩ := readChunks_eq P f.file vecs w₂
      show Still P w ((readChunks H f.file vecs >>= _) w₂).state
      rw [estate_bind_of_ok hread]
      have hback := P.seek_start (hmoved _ hp₂) hlimit
      obtain ⟨-, hp₄⟩ := P.seek_ok hback
      set w₄ := asked H (.seek f.file (.start p)) w₃
      have hbut₄ : Still.But P f.file w₃ w₄ := Still.But.asked hother w₃
      have hthere : Still P w₁ w₄ := by
        refine ((hbut₂.trans hbut₃).trans hbut₄).still fun p' hp' => ?_
        rw [← hp', hp₁]
        exact hp₄
      exact Still.trans (Still.trans hw₁ hthere) (keeps_still_deliver _ _ _ _ w₄)

theorem failsSafely_fdReadFile :
    FailsSafely P (fdReadFile H args none) w ↔
      ¬ ∃ f vecs, w.fds.get (arg args 0) = some (.file f) ∧ f.rightsBase &&& Rights.fdRead ≠ 0 ∧
        readIovecs (argU args 1) (argU args 2) w = .ok vecs w ∧ Drops H f.file vecs (argU args 3) w := by
  have hiovecs : w = (readIovecs (argU args 1) (argU args 2) w).state :=
    keeps_readIovecs (R := Eq) (fun _ => rfl) (fun _ _ _ h h' => h.trans h') _ _ w
  cases hread : readIovecs (argU args 1) (argU args 2) w with
  | error e w' =>
    rw [hread] at hiovecs
    refine iff_of_true (failsSafely_of_still ?_) (by rintro ⟨f, vecs, -, -, h, -⟩; cases h)
    rw [fdReadFile, estate_bind_of_error hread]
    rw [EStateM.Result.state_error] at hiovecs ⊢
    rw [← hiovecs]
    exact Still.refl w
  | ok vecs w' =>
    rw [hread] at hiovecs
    obtain rfl : w = w' := hiovecs
    rw [FailsSafely, fdReadFile, estate_bind_of_ok hread, estate_get_bind, ← FailsSafely]
    cases hentry : w.fds.get (arg args 0) with
    | none => exact iff_of_true (failsSafely_of_still (Still.refl w)) (by rintro ⟨f, -, h, -⟩; cases h)
    | some e =>
      cases e with
      | file f =>
        dsimp only
        by_cases hright : f.rightsBase &&& Rights.fdRead = 0
        · refine iff_of_true (failsSafely_of_still ?_) ?_
          · rw [readFile, refuseIf, decide_eq_true hright]
            exact Still.refl w
          · rintro ⟨_, _, h, h', -⟩
            cases h
            exact h' hright
        · rw [failsSafely_readFile f hright]
          refine not_congr ⟨fun h => ⟨f, vecs, rfl, hright, rfl, h⟩, ?_⟩
          rintro ⟨_, _, h, -, h', hdrops⟩
          cases h
          cases h'
          exact hdrops
      | stdin | stdout | stderr | dir d =>
        exact iff_of_true (failsSafely_of_still (Still.refl w)) (by rintro ⟨f, -, h, -⟩; cases h)

theorem still_fdReadFile_at (off : BitVec 64) : Still P w (fdReadFile H args (some off) w).state := by
  have hiovecs : w = (readIovecs (argU args 1) (argU args 2) w).state :=
    keeps_readIovecs (R := Eq) (fun _ => rfl) (fun _ _ _ h h' => h.trans h') _ _ w
  rw [fdReadFile]
  cases hread : readIovecs (argU args 1) (argU args 2) w with
  | error e w' =>
    rw [hread] at hiovecs
    rw [estate_bind_of_error hread, hiovecs]
    exact Still.refl _
  | ok vecs w' =>
    rw [hread] at hiovecs
    obtain rfl : w = w' := hiovecs
    rw [estate_bind_of_ok hread, estate_bind_of_ok (estate_get_eq_ok.mpr ⟨rfl, rfl⟩)]
    cases w.fds.get (arg args 0) with
    | none => exact Still.refl w
    | some e =>
      cases e with
      | file f => exact still_readFile_at f vecs _ off
      | stdin | stdout | stderr | dir d => exact Still.refl w

/-- A number is written if it has room. -/
theorem writeU64_cases (addr v : ℕ) (w : World σ) :
    (HasRoom w.mem addr 8 ∧ ∃ w', writeU64 addr v w = .ok () w') ∨
      (¬ HasRoom w.mem addr 8 ∧ writeU64 addr v w = .error .fault w) := by
  rw [← length_leBytes 8 v]
  by_cases hroom : HasRoom w.mem addr (leBytes 8 v).length
  · obtain ⟨mem, hwrite, -⟩ := guestWrite_of_room hroom
    exact .inl ⟨hroom, _, hwrite⟩
  · exact .inr ⟨hroom, guestWrite_of_not_room hroom⟩

theorem failsSafely_fdSeek :
    FailsSafely P (fdSeek H args) w ↔
      ¬ ∃ f from_ q, w.fds.get (arg args 0) = some (.file f) ∧ f.rightsBase &&& Rights.fdSeek ≠ 0 ∧
        seekFrom ((arg args 2).setWidth 8) (arg64 args 1) = some from_ ∧
        (H.answer (.seek f.file from_) w.host).1 = .ok q ∧ P.pos w.host f.file ≠ some q.toNat ∧
        ¬ HasRoom w.mem (argU args 3) 8 := by
  rw [FailsSafely, fdSeek, estate_get_bind, ← FailsSafely]
  cases hentry : w.fds.get (arg args 0) with
  | none => exact iff_of_true (failsSafely_of_still (Still.refl w)) (by rintro ⟨f, -, -, h, -⟩; cases h)
  | some e =>
    cases e with
    | stdin | stdout | stderr | dir d =>
      exact iff_of_true (failsSafely_of_still (Still.refl w)) (by rintro ⟨f, -, -, h, -⟩; cases h)
    | file f =>
      dsimp only
      by_cases hright : f.rightsBase &&& Rights.fdSeek = 0
      · refine iff_of_true (failsSafely_of_still ?_) ?_
        · rw [seekFile, refuseIf, decide_eq_true hright]
          exact Still.refl w
        · rintro ⟨_, _, _, h, h', -⟩
          cases h
          exact h' hright
      rw [FailsSafely, seekFile, refuseIf, decide_eq_false hright]
      cases hfrom : seekFrom ((arg args 2).setWidth 8) (arg64 args 1) with
      | none => exact iff_of_true (failsSafely_of_still (Still.refl w)) (by rintro ⟨_, _, _, -, -, h, -⟩; cases h)
      | some from_ =>
        set w₁ := asked H (.seek f.file from_) w
        have hbut : Still.But P f.file w w₁ := Still.But.asked (fun g hg => beq_false_of_ne hg.symm) w
        show (∀ e w', (orErrno (H.answer (.seek f.file from_) w.host).1 >>= fun pos => _) w₁ = _ → _) ↔ _
        cases hans : (H.answer (.seek f.file from_) w.host).1 with
        | error e =>
          refine iff_of_true ?_ ?_
          · intro e' w' h
            cases h
            exact (hbut.still fun p hp => (P.seek_error hans).trans hp).nothingLost
          · rintro ⟨_, _, _, h, -, h', hans', -⟩
            cases h
            cases h'
            rw [hans] at hans'
            cases hans'
        | ok q =>
          obtain ⟨⟨p, hp⟩, hp'⟩ := P.seek_ok hans
          rcases writeU64_cases (argU args 3) q.toNat w₁ with ⟨hroom, w', hok⟩ | ⟨hroom, hfault⟩
          · refine iff_of_true ?_ ?_
            · intro e' w'' h
              cases hok.symm.trans h
            · rintro ⟨_, _, _, -, -, -, -, -, hno⟩
              exact hno hroom
          · constructor
            · rintro hsafe ⟨_, _, q', h, -, h', hans', hne, -⟩
              cases h
              cases h'
              rw [hans] at hans'
              cases hans'
              have hkept := (hsafe _ _ hfault).positions _ _ hp
              rw [hp, ← hkept] at hne
              exact hne hp'
            · intro hnot e' w' h
              cases hfault.symm.trans h
              have hsame : P.pos w.host f.file = some q.toNat := by
                by_contra hne
                exact hnot ⟨f, from_, q, rfl, hright, rfl, hans, hne, hroom⟩
              refine (hbut.still fun p' hp'' => ?_).nothingLost
              rw [← hp'', hsame]
              exact hp'

/-- What `path_open` does before it installs an entry leaves everything where it was. -/
theorem keeps_pathEntry :
    Keeps (fun w w' : World σ => Still P w w' ∧ w'.mem = w.mem) (pathEntry H args) := by
  have hR : ∀ w : World σ, Still P w w ∧ w.mem = w.mem := fun w => ⟨Still.refl w, rfl⟩
  have hT : ∀ ⦃w w' w'' : World σ⦄, Still P w w' ∧ w'.mem = w.mem → Still P w' w'' ∧ w''.mem = w'.mem →
      Still P w w'' ∧ w''.mem = w.mem := fun _ _ _ h h' => ⟨Still.trans h.1 h'.1, h'.2.trans h.2⟩
  have hrequest : ∀ op : HostOp, (∀ file, op.moves file = false) →
      Keeps (fun w w' : World σ => Still P w w' ∧ w'.mem = w.mem) (request H op) :=
    fun op h w => ⟨Still.keeps_request h w, rfl⟩
  have hlook : ∀ op : HostOp, op.looks = true →
      Keeps (fun w w' : World σ => Still P w w' ∧ w'.mem = w.mem) (request H op) := by
    intro op h
    refine hrequest op fun file => ?_
    cases op <;> first | rfl | cases h
  have hrefuse : ∀ bad e, Keeps (fun w w' : World σ => Still P w w' ∧ w'.mem = w.mem) (refuseIf bad e : WasiM σ Unit) :=
    fun _ _ => keeps_ite (Keeps.throw hR _) (Keeps.pure hR ())
  refine Keeps.bind hT (keeps_resolve hR hT hlook _ _ _ _ _) fun walked => Keeps.bind hT (hrefuse _ _) fun _ =>
    Keeps.bind hT (Keeps.get hR) fun w => ?_
  split
  · refine Keeps.bind hT (hrefuse _ _) fun _ => Keeps.bind hT (hlook _ rfl) fun existing => keeps_ite ?_ ?_
    · cases existing.toOption with
      | none => exact Keeps.throw hR _
      | some m => exact keeps_ite (Keeps.pure hR _) (Keeps.throw hR _)
    · refine keeps_ite (Keeps.pure hR _) ?_
      refine Keeps.bind hT (hrefuse _ _) fun _ => Keeps.bind hT (hrefuse _ _) fun _ => ?_
      have hopen : ∀ opts, Keeps (fun w w' : World σ => Still P w w' ∧ w'.mem = w.mem)
          (request H (.open_ walked.path opts) >>= orErrno) :=
        fun opts => Keeps.bind hT (hrequest _ fun _ => rfl) (keeps_orErrno hR)
      refine Keeps.bind hT ?_ fun _ => Keeps.bind hT (hopen _) fun _ => Keeps.pure hR _
      exact keeps_ite (Keeps.bind hT (hopen _) fun _ => Keeps.pure hR ()) (Keeps.pure hR ())
  · exact Keeps.throw hR _

theorem failsSafely_pathOpen :
    FailsSafely P (pathOpen H args) w ↔
      ¬ ((∃ e w', pathEntry H args w = .ok e w') ∧ ¬ HasRoom w.mem (argU args 8) 4) := by
  have hkeeps := (keeps_pathEntry : Keeps (fun w w' : World σ => Still P w w' ∧ w'.mem = w.mem) (pathEntry H args)) w
  rw [pathOpen_eq]
  cases hentry : pathEntry H args w with
  | error e w' =>
    rw [hentry] at hkeeps
    refine iff_of_true (failsSafely_of_still ?_) (by rintro ⟨⟨e, w', h⟩, -⟩; cases h)
    rw [estate_bind_of_error hentry]
    exact hkeeps.1
  | ok e w₁ =>
    rw [hentry] at hkeeps
    have hmem : w₁.mem = w.mem := hkeeps.2
    obtain ⟨hfree, -, hslots⟩ := FdTable.slot_insert w₁.fds e
    rw [FailsSafely, estate_bind_of_ok hentry]
    have hrun : install e (argU args 8) w₁ =
        guestWrite (argU args 8) (leBytes 4 (w₁.fds.insert e).1) { w₁ with fds := (w₁.fds.insert e).2 } := rfl
    have hlen := length_leBytes 4 (w₁.fds.insert e).1
    rw [hrun, ← hmem]
    by_cases hroom : HasRoom w₁.mem (argU args 8) 4
    · have hroom' := hroom
      rw [← hlen] at hroom'
      obtain ⟨mem, hwrite, -⟩ := guestWrite_of_room (w := { w₁ with fds := (w₁.fds.insert e).2 }) hroom'
      refine iff_of_true ?_ fun h => h.2 hroom
      intro e' w' h
      cases hwrite.symm.trans h
    · have hroom' := hroom
      rw [← hlen] at hroom'
      have hfault := guestWrite_of_not_room (w := { w₁ with fds := (w₁.fds.insert e).2 }) hroom'
      refine iff_of_false (fun hsafe => ?_) fun h => h ⟨⟨e, w₁, rfl⟩, hroom⟩
      -- The new entry is in the table.
      have hsame := (hsafe _ _ hfault).entries (w₁.fds.insert e).1
      rw [hslots, if_pos rfl, ← hkeeps.1.fds_eq] at hsame
      rw [EStateM.Result.state_ok, hfree] at hsame
      cases hsame

theorem Written.append {chunks chunks' : List (ℕ × Bytes)} {mem mem' mem'' : Option Bytes}
    (h : Written chunks mem mem') (h' : Written chunks' mem' mem'') : Written (chunks ++ chunks') mem mem'' := by
  induction h with
  | nil mem => exact h'
  | cons hfits rest ih => exact .cons hfits (ih h')

/-- What a read of the standard input takes arrives, and nothing else is touched. -/
structure TakenIn (w w' : World σ) : Prop where
  fds_eq : w'.fds = w.fds
  host_eq : w'.host = w.host
  stdin_eq : w'.stdin = w.stdin
  arrived : Arrived w w'

theorem TakenIn.refl (w : World σ) : TakenIn w w :=
  ⟨rfl, rfl, rfl, le_rfl, [], .nil _, by rw [Nat.sub_self]; rfl⟩

theorem TakenIn.trans {w w' w'' : World σ} (h : TakenIn w w') (h' : TakenIn w' w'') : TakenIn w w'' := by
  obtain ⟨hle, chunks, hwritten, hbytes⟩ := h.arrived
  obtain ⟨hle', chunks', hwritten', hbytes'⟩ := h'.arrived
  refine ⟨h'.fds_eq.trans h.fds_eq, h'.host_eq.trans h.host_eq, h'.stdin_eq.trans h.stdin_eq, le_trans hle hle',
    chunks ++ chunks', hwritten.append hwritten', ?_⟩
  have hsplit : w''.stdinPos - w.stdinPos = (w'.stdinPos - w.stdinPos) + (w''.stdinPos - w'.stdinPos) := by omega
  rw [List.flatMap_append, hbytes, hbytes', h.stdin_eq, hsplit, List.take_add, List.drop_drop,
    Nat.add_sub_cancel' hle]

theorem TakenIn.nothingLost {w w' : World σ} (h : TakenIn w w') : NothingLost P w w' where
  entries n := by rw [h.fds_eq]
  positions file p hp := by rw [h.host_eq]; exact hp
  input := .inr h.arrived

theorem takenIn_readVecs (total : ℕ) (vecs : List (ℕ × ℕ)) (w : World σ) :
    TakenIn w (readVecs total vecs w).state := by
  induction vecs generalizing total w with
  | nil => exact TakenIn.refl w
  | cons v vecs ih =>
    obtain ⟨ptr, len⟩ := v
    rw [readVecs]
    split_ifs with hlen
    · exact ih total w
    rw [estate_bind_of_ok (estate_get_eq_ok.mpr ⟨rfl, rfl⟩)]
    set chunk := (w.stdin.drop w.stdinPos).take len with hchunk
    by_cases hempty : chunk.isEmpty = true
    · rw [if_pos hempty]
      exact TakenIn.refl w
    rw [if_neg hempty]
    by_cases hroom : HasRoom w.mem ptr chunk.length
    · obtain ⟨m, hmem, hfits⟩ := hroom
      rw [estate_bind_of_ok (guestWrite_of_le hmem hfits)]
      set w₁ : World σ := { w with
        mem := some (m.take ptr ++ chunk ++ m.drop (ptr + chunk.length)), stdinPos := w.stdinPos + chunk.length }
      have hstep : TakenIn w w₁ := by
        refine ⟨rfl, rfl, rfl, Nat.le_add_right _ _, [(ptr, chunk)], ?_, ?_⟩
        · rw [hmem]
          exact .cons hfits (.nil _)
        · rw [List.flatMap_singleton, Nat.add_sub_cancel_left, hchunk, List.take_eq_take_iff, List.length_take]
          omega
      exact hstep.trans (ih _ w₁)
    · rw [estate_bind_of_error (guestWrite_of_not_room hroom)]
      exact TakenIn.refl w

theorem failsSafely_fdRead : FailsSafely P (fdRead args) w := by
  have hiovecs : w = (readIovecs (argU args 1) (argU args 2) w).state :=
    keeps_readIovecs (R := Eq) (fun _ => rfl) (fun _ _ _ h h' => h.trans h') _ _ w
  intro e w' h
  rw [fdRead] at h
  cases hrefuse : decide (arg args 0 ≠ 0) with
  | true =>
    rw [refuseIf, hrefuse] at h
    cases h
    exact (Still.refl w).nothingLost
  | false =>
    rw [refuseIf, hrefuse] at h
    have h : (readIovecs (argU args 1) (argU args 2) >>= fun vecs =>
        readVecs 0 vecs >>= fun total => writeU32 (argU args 3) total) w = .error e w' := h
    cases hread : readIovecs (argU args 1) (argU args 2) w with
    | error e₁ w₁ =>
      rw [estate_bind_of_error hread] at h
      rw [hread] at hiovecs
      cases h
      rw [hiovecs]
      exact (Still.refl _).nothingLost
    | ok vecs w₁ =>
      rw [hread] at hiovecs
      obtain rfl : w = w₁ := hiovecs
      rw [estate_bind_of_ok hread] at h
      have htaken := takenIn_readVecs 0 vecs w
      cases hvecs : readVecs 0 vecs w with
      | error e₂ w₂ =>
        rw [estate_bind_of_error hvecs] at h
        rw [hvecs] at htaken
        cases h
        exact htaken.nothingLost
      | ok total w₂ =>
        rw [estate_bind_of_ok hvecs, writeU32] at h
        rw [hvecs] at htaken
        by_cases hroom : HasRoom w₂.mem (argU args 3) (leBytes 4 total).length
        · obtain ⟨mem, hwrite, -⟩ := guestWrite_of_room hroom
          cases hwrite.symm.trans h
        · cases (guestWrite_of_not_room hroom).symm.trans h
          exact htaken.nothingLost

theorem still_fdReaddir : Still P w (fdReaddir H args w).state := by
  have hkeeps : Keeps (Still P) (fdReaddir H args) := by
    refine Keeps.bind Still.trans (Keeps.get Still.refl) fun w => ?_
    split
    · refine Keeps.bind Still.trans (keeps_ite (Keeps.throw Still.refl _) (Keeps.pure Still.refl ())) fun _ => ?_
      refine Keeps.bind Still.trans (Keeps.bind Still.trans (Still.keeps_request fun _ => rfl)
        (keeps_orErrno Still.refl)) fun _ => ?_
      exact Keeps.bind Still.trans (Still.keeps_guestWrite _ _) fun _ => Still.keeps_guestWrite _ _
    · exact Keeps.throw Still.refl _
  exact hkeeps w

theorem failsSafely_onTable {f : FdTable → Bool × FdTable} (hf : (f w.fds).1 = false → (f w.fds).2 = w.fds) :
    FailsSafely P (onTable f) w := by
  intro e w' h
  have hrun : onTable f w =
      (if (f w.fds).1 then pure () else throw .badf : WasiM σ Unit) { w with fds := (f w.fds).2 } := rfl
  rw [hrun] at h
  cases hfst : (f w.fds).1 with
  | true =>
    rw [hfst] at h
    cases h
  | false =>
    rw [hfst, hf hfst] at h
    cases h
    exact (Still.refl w).nothingLost

end Calls

/-! ## Every call -/

/-- A call that fails leaves the table, the files and the standard input as they should be, except where it acts first
and then finds no room for what it did. -/
theorem nothingLost_iff (P : FilePositions H) {f : WasiFunc} (hf : f ∈ heldCalls) (args : List Value) (w : World σ) :
    (∀ e w', dispatch H f args w = (.failed e, w') → NothingLost P w w') ↔ ¬ Slips P f args w := by
  have hdispatch : (∀ e w', dispatch H f args w = (.failed e, w') → NothingLost P w w') ↔
      FailsSafely P (dispatchFunc H args f) w := by
    have hexit : f ≠ .procExit := by
      rintro rfl
      simp [heldCalls] at hf
    rw [dispatch_eq hexit, finish, FailsSafely]
    cases dispatchFunc H args f w <;> simp
  rw [hdispatch]
  simp only [heldCalls, List.mem_cons, List.not_mem_nil, or_false] at hf
  rcases hf with rfl | rfl | rfl | rfl | rfl | rfl | rfl
  · -- `fd_read`
    rw [dispatchFunc]
    split_ifs with hstdio
    · exact iff_of_true failsSafely_fdRead fun h => by simp [h.1] at hstdio
    · rw [failsSafely_fdReadFile, Slips]
      exact not_congr (and_iff_right (Bool.eq_false_iff.mpr hstdio)).symm
  · -- `fd_pread`
    exact iff_of_true (failsSafely_of_still (still_fdReadFile_at (arg64 args 3))) id
  · exact failsSafely_pathOpen
  · -- `fd_close`
    refine iff_of_true ?_ id
    show FailsSafely P (if isStdio (arg args 0) then pure () else onTable (·.close (arg args 0))) w
    split_ifs
    · exact failsSafely_of_still (Still.refl w)
    · refine failsSafely_onTable fun h => ?_
      rw [FdTable.close_fst, Option.isSome_eq_false_iff, Option.isNone_iff_eq_none] at h
      rw [FdTable.close_of_none h]
  · -- `fd_renumber`
    refine iff_of_true ?_ id
    show FailsSafely P (onTable (·.renumber (arg args 0) (arg args 1))) w
    exact failsSafely_onTable FdTable.renumber_eq_of_false
  · exact failsSafely_fdSeek
  · -- `fd_readdir`
    exact iff_of_true (failsSafely_of_still still_fdReaddir) id

/-! ## A host with one file -/

/-- A host whose only file is open. Its state is where the file stands. -/
def oneFile (content : Bytes) : Host ℕ where
  answer
    | .read 0 n, p => (.ok ((content.drop p).take n), p + ((content.drop p).take n).length)
    | .seek 0 (.start off), _ => (.ok off, off.toNat)
    | .streamPosition 0, p => (if p < 2 ^ 63 then .ok (.ofNat 64 p) else .error .other, p)
    | .read _ _, p | .seek _ _, p | .streamPosition _, p | .symlinkMetadata _, p | .metadata _, p | .fileMetadata _, p
    | .readLink _, p | .canonicalize _, p | .readDir _, p | .open_ _ _, p | .createDir _, p | .removeDir _, p
    | .removeFile _, p | .symlink _ _ _, p | .hardLink _ _, p | .rename _ _, p | .setLen _ _, p | .writeStd _ _, p
    | .write _ _, p => (.error .other, p)
    | .nowNanos, p => (0, p)
    | .fillRandom n, p => (List.replicate n 0, p)

/-- Where its file stands. -/
def onePosition (content : Bytes) : FilePositions (oneFile content) where
  pos
    | p, 0 => some p
    | _, _ + 1 => none
  limit _ := 2 ^ 63
  frame {op s file p} h hp := by
    cases file with
    | succ file => cases hp
    | zero =>
      cases op with
      | read f n | seek f from_ | write f data =>
        cases f with
        | zero => cases h
        | succ f => exact hp
      | streamPosition f => cases f <;> exact hp
      | _ => exact hp
  read_ok {s file n b} h := by
    cases file with
    | succ file => cases h
    | zero =>
      cases h
      exact ⟨s, rfl, rfl⟩
  read_error {s file n e} h := by
    cases file with
    | succ file => rfl
    | zero => cases h
  seek_ok {s file from_ q} h := by
    cases file with
    | succ file => cases h
    | zero =>
      cases from_ with
      | start off =>
        cases h
        exact ⟨⟨s, rfl⟩, rfl⟩
      | current off | end_ off => cases h
  seek_error {s file from_ e} h := by
    cases file with
    | succ file => rfl
    | zero =>
      cases from_ with
      | start off => cases h
      | current off | end_ off => rfl
  seek_start {s file p off} hp _ := by
    cases file with
    | succ file => cases hp
    | zero => rfl
  position_ok {s file q} h := by
    cases file with
    | succ file => cases h
    | zero =>
      have hlimit : s < 2 ^ 63 := by
        by_contra hge
        have h : (if s < 2 ^ 63 then .ok (.ofNat 64 s) else .error .other : Except IoError (BitVec 64)) = .ok q := h
        rw [if_neg hge] at h
        cases h
      have h : (if s < 2 ^ 63 then .ok (.ofNat 64 s) else .error .other : Except IoError (BitVec 64)) = .ok q := h
      rw [if_pos hlimit] at h
      cases h
      have hmod : s % 2 ^ 64 = s := Nat.mod_eq_of_lt (by omega)
      rw [BitVec.toNat_ofNat, hmod]
      exact ⟨rfl, hlimit⟩

/-- A process that reads its file into a vector outside of its memory. -/
def readAstray : World ℕ where
  args := []
  env := []
  stdin := []
  stdinPos := 0
  stdout := .inherit_
  stderr := .inherit_
  exit := none
  fds := ⟨FdTable.new.slots ++ [some (.file ⟨0, Rights.all, Rights.all, false⟩)]⟩
  mem := some [100, 0, 0, 0, 1, 0, 0, 0, 0, 0, 0, 0]
  host := 0
  log := []

theorem nothingLost_iff_read_astray :
    (∀ e w', dispatch (oneFile [7]) .fdRead [3, 0, 1, 8] readAstray = (.failed e, w') →
      NothingLost (onePosition [7]) readAstray w') ↔ ¬ Slips (onePosition [7]) .fdRead [3, 0, 1, 8] readAstray :=
  nothingLost_iff (onePosition [7]) (by decide) [3, 0, 1, 8] readAstray

/-- The byte that is read is gone. -/
theorem not_nothingLost_read_astray :
    ¬ ∀ e w', dispatch (oneFile [7]) .fdRead [3, 0, 1, 8] readAstray = (.failed e, w') →
      NothingLost (onePosition [7]) readAstray w' := by
  intro h
  have hmoved := (h .fault { readAstray with host := 1, log := [.read 0 1] } rfl).positions 0 0 rfl
  cases hmoved

end Wasmrt.Wasi
