import Wasmrt.Library.BlockMove
import Wasmrt.Library.Framing
import Wasmrt.Library.Lanes
import Wasmrt.Wasi.Resolution

/-!
# Reading a directory page by page

A guest reads a directory into a buffer that may hold only some of its entries, the last of them cut off, and asks again
from behind the last one that is complete.

## Main definitions

* `DirView`: how a host lists the directories of the tree that it shows.
* `Dirent`: an entry as it stands in the buffer, and `direntFraming`: how it is written.
* `readPages`: what a guest receives.

## Main results

* `listing_usable`: every entry is received once, and its name names it.
-/

namespace Wasmrt.Wasi

open BlockMove (Moved)
open DirectoryTree (Node)

variable {σ : Type}

/-! ## Entries in a buffer -/

theorem leNat_eq (b : Bytes) : leNat b = Nat.ofDigits 256 (b.map UInt8.toNat) := by
  induction b with
  | nil => rfl
  | cons x b ih =>
    rw [List.map_cons, Nat.ofDigits_cons, ← ih]
    rfl

/-- A number is read back as far as it fits. -/
theorem leNat_leBytes (n x : ℕ) : leNat (leBytes n x) = x % 256 ^ n := by
  rw [leNat_eq, leBytes, List.map_map, ← Lanes.ofDigits_digit]
  congr 1

/-- An entry of a directory, with the number to go on from. -/
structure Dirent where
  next : ℕ
  name : Bytes
  type : UInt8
  deriving DecidableEq

/-- How many bytes come before the name. -/
def direntLen : ℕ := 24

def Dirent.encode (e : Dirent) : Bytes :=
  leBytes 8 e.next ++ leBytes 8 0 ++ leBytes 4 e.name.length ++ e.type :: leBytes 3 0 ++ e.name

/-- Take an entry off the front of a buffer. -/
def parseDirent (b : Bytes) : Option (Dirent × Bytes) :=
  let n := leNat ((b.drop 16).take 4)
  if b.length < direntLen + n then none
  else some (⟨leNat (b.take 8), (b.drop direntLen).take n, b.getD 20 0⟩, b.drop (direntLen + n))

theorem Dirent.length_encode (e : Dirent) : e.encode.length = direntLen + e.name.length := by
  simp only [encode, List.length_append, List.length_cons, length_leBytes, direntLen]

/-- An entry that can be written. -/
structure Dirent.Valid (e : Dirent) : Prop where
  next : e.next < 2 ^ 64
  name : e.name.length < 2 ^ 32

namespace Dirent

variable {e : Dirent} (h : e.Valid)

/-- The first sixteen bytes, and what follows them. -/
theorem encode_append (e : Dirent) (rest : Bytes) :
    e.encode ++ rest = (leBytes 8 e.next ++ leBytes 8 0) ++
      (leBytes 4 e.name.length ++ (e.type :: (leBytes 3 0 ++ (e.name ++ rest)))) := by
  simp only [encode, List.append_assoc, List.cons_append]

include h

theorem leNat_length (rest : Bytes) : leNat (((e.encode ++ rest).drop 16).take 4) = e.name.length := by
  have hhead : (leBytes 8 e.next ++ leBytes 8 0).length = 16 := by
    rw [List.length_append, length_leBytes, length_leBytes]
  rw [encode_append, List.drop_left' hhead, List.take_left' (length_leBytes 4 _), leNat_leBytes]
  exact Nat.mod_eq_of_lt h.name

theorem leNat_next (rest : Bytes) : leNat ((e.encode ++ rest).take 8) = e.next := by
  rw [encode_append, List.append_assoc, List.take_left' (length_leBytes 8 _), leNat_leBytes]
  exact Nat.mod_eq_of_lt h.next

omit h in
theorem drop_direntLen (e : Dirent) (rest : Bytes) : (e.encode ++ rest).drop direntLen = e.name ++ rest := by
  have hhead : (leBytes 8 e.next ++ leBytes 8 0 ++ leBytes 4 e.name.length ++ e.type :: leBytes 3 0).length =
      direntLen := by
    simp only [List.length_append, List.length_cons, length_leBytes, direntLen]
  rw [encode, List.append_assoc, List.drop_left' hhead]

omit h in
theorem type_eq (e : Dirent) (rest : Bytes) : (e.encode ++ rest).getD 20 0 = e.type := by
  have hhead : (leBytes 8 e.next ++ leBytes 8 0 ++ leBytes 4 e.name.length).length = 20 := by
    simp only [List.length_append, length_leBytes]
  rw [encode_append, ← List.append_assoc, List.getD_eq_getElem?_getD, List.getElem?_append_right (by omega), hhead]
  rfl

theorem Valid.parse_append (rest : Bytes) : parseDirent (e.encode ++ rest) = some (e, rest) := by
  have hlen : ¬(e.encode ++ rest).length < direntLen + e.name.length := by
    rw [List.length_append, length_encode]
    omega
  rw [parseDirent, leNat_length h]
  rw [if_neg hlen, leNat_next h, type_eq, drop_direntLen, List.take_left, ← List.drop_drop, drop_direntLen,
    List.drop_left]

/-- An entry that is cut off is none. -/
theorem Valid.parse_take {n : ℕ} (hn : n < e.encode.length) : parseDirent (e.encode.take n) = none := by
  rw [length_encode] at hn
  have hlen : (e.encode.take n).length = n := List.length_take_of_le (by rw [length_encode]; omega)
  rw [parseDirent, hlen, if_pos]
  by_cases hhead : n < direntLen
  · omega
  · have hsize := leNat_length h []
    rw [List.append_nil] at hsize
    rw [List.drop_take, List.take_take, Nat.min_eq_left (by rw [direntLen] at hhead; omega), hsize]
    exact hn

end Dirent

/-- How the entries of a directory stand in a buffer. -/
def direntFraming : Framing Dirent UInt8 where
  encode := Dirent.encode
  parse := parseDirent
  Valid := Dirent.Valid
  parse_append h rest := h.parse_append rest
  parse_take h n hn := h.parse_take hn
  length_lt {l rest a} h := by
    rw [parseDirent] at h
    split_ifs at h with hlen
    cases h
    rw [List.length_drop]
    rw [direntLen] at hlen ⊢
    omega

/-! ## One page -/

/-- What stands in a buffer for an entry and its number. -/
def dirent (e : ℕ × Bytes × FileType) : Dirent := ⟨e.1 + 1, e.2.1, e.2.2.code⟩

/-- What stands in a buffer that holds all of some entries. -/
def dirents (entries : List (Bytes × FileType)) : List Dirent :=
  ((List.range entries.length).zip entries).map dirent

theorem length_dirents (entries : List (Bytes × FileType)) : (dirents entries).length = entries.length := by
  rw [dirents, List.length_map, List.length_zip, List.length_range, Nat.min_self]

theorem getElem?_dirents {entries : List (Bytes × FileType)} {k : ℕ} {e : Dirent}
    (h : (dirents entries)[k]? = some e) : ∃ z ∈ entries, e = dirent (k, z) := by
  rw [dirents, List.getElem?_map, Option.map_eq_some_iff] at h
  obtain ⟨⟨i, z⟩, hz, rfl⟩ := h
  obtain ⟨hnumber, hentry⟩ := List.getElem?_zip_eq_some.mp hz
  obtain ⟨hlt, hnumber⟩ := List.getElem?_eq_some_iff.mp hnumber
  rw [List.getElem_range] at hnumber
  exact ⟨z, List.mem_of_getElem? hentry, by rw [hnumber]⟩

/-- The names stand in a buffer in the order of the entries. -/
theorem map_name_dirents (entries : List (Bytes × FileType)) :
    (dirents entries).map (·.name) = entries.map Prod.fst := by
  have hnames : (dirents entries).map (·.name) =
      (((List.range entries.length).zip entries).map Prod.snd).map Prod.fst := by
    rw [dirents, List.map_map, List.map_map]
    rfl
  rw [hnames, List.map_snd_zip (by rw [List.length_range])]

/-- The entries that are written are a part of all of them. -/
theorem take_direntBytes (n : ℕ) (blob : Bytes) (l : List (ℕ × Bytes × FileType)) :
    (direntBytes n blob l).take n = (blob ++ (l.map dirent).flatMap Dirent.encode).take n := by
  induction l generalizing blob with
  | nil => rw [direntBytes, List.map_nil, List.flatMap_nil, List.append_nil]
  | cons e l ih =>
    obtain ⟨i, name, ft⟩ := e
    rw [direntBytes]
    split_ifs with hfull
    · rw [List.take_append_of_le_length hfull]
    · rw [ih, List.map_cons, List.flatMap_cons]
      simp only [Dirent.encode, dirent, List.append_assoc]

/-- A buffer in guest memory for some entries, and where their size goes. -/
structure Page where
  mem : Bytes
  buf : BitVec 32
  len : BitVec 32
  out : BitVec 32

namespace Page

/-- The buffer and the size lie apart in memory. -/
structure Fits (p : Page) : Prop where
  buf : p.buf.toNat + p.len.toNat ≤ p.mem.length
  out : p.out.toNat + 4 ≤ p.mem.length
  apart : p.out.toNat + 4 ≤ p.buf.toNat ∨ p.buf.toNat + p.len.toNat ≤ p.out.toNat

/-- The arguments of a call for the entries from `cookie` on. -/
def args (p : Page) (fd : BitVec 32) (cookie : ℕ) : List Value :=
  [fd.setWidth 128, p.buf.setWidth 128, p.len.setWidth 128, .ofNat 128 cookie, p.out.setWidth 128]

/-- What a guest finds in the buffer afterwards. -/
def received (p : Page) : Option Bytes → List Dirent
  | none => []
  | some mem => direntFraming.complete
      ((mem.drop p.buf.toNat).take (leNat ((mem.drop p.out.toNat).take 4)))

end Page

/-- The number to go on from after some entries. -/
def nextCookie (cookie : ℕ) (es : List Dirent) : ℕ := (es.getLast?.map (·.next)).getD cookie

/-- What a guest receives in a page from `cookie` on. -/
def readPage (H : Host σ) (fd : BitVec 32) (cookie : ℕ) (w : World σ) (p : Page) : List Dirent × World σ :=
  match dispatch H .fdReaddir (p.args fd cookie) { w with mem := some p.mem } with
  | (.success, w') => (p.received w'.mem, w')
  | (_, w') => ([], w')

/-- What a guest receives that goes on each time from behind the last entry that was complete. -/
def readPages (H : Host σ) (fd : BitVec 32) : ℕ → World σ → List Page → List Dirent
  | _, _, [] => []
  | cookie, w, p :: ps =>
    let r := readPage H fd cookie w p
    r.1 ++ readPages H fd (nextCookie cookie r.1) r.2 ps

section Reading

variable {H : Host σ} {fd : BitVec 32} {d : DirFd} {w : World σ} {listed : List (Bytes × Option FileType)}

/-- What a write leaves in memory. -/
theorem guestWrite_moved {addr : ℕ} {data m : Bytes} (hmem : w.mem = some m) (hlen : addr + data.length ≤ m.length) :
    ∃ m', guestWrite addr data w = .ok () { w with mem := some m' } ∧
      Moved m m' addr data.length fun k => data[k]? := by
  obtain ⟨m', hm', hmoved⟩ := BlockMove.moved_overwrite hlen
  rw [BlockMove.overwrite, if_pos hlen, Option.some.injEq] at hm'
  exact ⟨m', hm' ▸ guestWrite_of_le hmem hlen, hmoved⟩

/-- The names that a directory has for itself and the one above, and the entries that the host lists. -/
def allEntries (listed : List (Bytes × Option FileType)) : List (Bytes × FileType) :=
  (dot, .directory) :: (dotDot, .directory) :: listed.map fun e => (e.1, e.2.getD .unknown)

/-- A page from `cookie` on is filled with what fits of the entries from there on. -/
theorem fdReaddir_fills {p : Page} (hfits : p.Fits) (hmem : w.mem = some p.mem)
    (hfd : w.fds.get fd = some (.dir d)) (hright : d.rightsBase &&& Rights.fdReaddir ≠ 0)
    (hlisted : (H.answer (.readDir d.host) w.host).1 = .ok listed) {cookie : ℕ} (hcookie : cookie < 2 ^ 64) :
    ∃ w' : World σ, fdReaddir H (p.args fd cookie) w = .ok () w' ∧ w'.fds = w.fds ∧
      w'.host = (H.answer (.readDir d.host) w.host).2 ∧
      p.received w'.mem = direntFraming.complete
        ((((dirents (allEntries listed)).drop cookie).flatMap Dirent.encode).take p.len.toNat) := by
  have hargs : arg (p.args fd cookie) 0 = fd ∧ argU (p.args fd cookie) 1 = p.buf.toNat ∧
      argU (p.args fd cookie) 2 = p.len.toNat ∧ (arg64 (p.args fd cookie) 3).toNat = cookie ∧
      argU (p.args fd cookie) 4 = p.out.toNat := by
    simp [arg, argU, arg64, Page.args, asI32, asI64]
    omega
  obtain ⟨hfd', hbuf, hlen, hnumber, hout⟩ := hargs
  let all := allEntries listed
  let blob := (direntBytes p.len.toNat [] (((List.range all.length).zip all).drop cookie)).take p.len.toNat
  have hblob : blob = (((dirents all).drop cookie).flatMap Dirent.encode).take p.len.toNat := by
    show (direntBytes p.len.toNat [] (((List.range all.length).zip all).drop cookie)).take p.len.toNat = _
    rw [take_direntBytes, List.nil_append, dirents, List.map_drop]
  have hsize : blob.length ≤ p.len.toNat := List.length_take_le _ _
  let w₁ : World σ :=
    { w with host := (H.answer (.readDir d.host) w.host).2, log := w.log ++ [.readDir d.host] }
  have hask : (request H (.readDir d.host) >>= orErrno) w = .ok listed w₁ := by
    rw [estate_bind_of_ok (show request H (.readDir d.host) w = .ok (.ok listed) w₁ by rw [← hlisted]; rfl)]
    rfl
  have hallowed : refuseIf (d.rightsBase &&& Rights.fdReaddir = 0) .notcapable w = .ok () w :=
    refuseIf_eq_ok.mpr ⟨decide_eq_false hright, rfl⟩
  have hbuf₁ : p.buf.toNat + blob.length ≤ p.mem.length := by
    have hroom := hfits.buf
    omega
  obtain ⟨m₁, hwrite₁, hmoved₁⟩ := guestWrite_moved (w := w₁) hmem hbuf₁
  have hout₁ : p.out.toNat + (leBytes 4 blob.length).length ≤ m₁.length := by
    rw [length_leBytes, hmoved₁.length_eq]
    exact hfits.out
  obtain ⟨m₂, hwrite₂, hmoved₂⟩ := guestWrite_moved (w := { w₁ with mem := some m₁ }) rfl hout₁
  refine ⟨{ w₁ with mem := some m₂ }, ?_, rfl, rfl, ?_⟩
  · rw [fdReaddir, estate_bind_of_ok (estate_get_eq_ok.mpr ⟨rfl, rfl⟩), hfd', hfd, hbuf, hlen, hnumber, hout]
    dsimp only
    rw [estate_bind_of_ok hallowed, estate_bind_of_ok hask]
    show (guestWrite p.buf.toNat blob >>= fun _ => writeU32 p.out.toNat blob.length) w₁ = _
    rw [estate_bind_of_ok hwrite₁]
    exact hwrite₂
  · have hcount : leNat ((m₂.drop p.out.toNat).take 4) = blob.length := by
      have hread := hmoved₂.slice_inside
      rw [length_leBytes] at hread
      rw [hread, leNat_leBytes]
      exact Nat.mod_eq_of_lt (by have := p.len.isLt; omega)
    have hread : (m₂.drop p.buf.toNat).take blob.length = blob := by
      rw [hmoved₂.slice_outside (by rw [length_leBytes]; have := hfits.apart; omega)]
      exact hmoved₁.slice_inside
    rw [← hblob]
    show direntFraming.complete ((m₂.drop p.buf.toNat).take (leNat ((m₂.drop p.out.toNat).take 4))) = _
    rw [hcount, hread]

/-- A page from `cookie` on holds the next entries, and at least one if it has room for one. -/
theorem readPage_eq {p : Page} (hfits : p.Fits) (hfd : w.fds.get fd = some (.dir d))
    (hright : d.rightsBase &&& Rights.fdReaddir ≠ 0)
    (hlisted : (H.answer (.readDir d.host) w.host).1 = .ok listed)
    (hvalid : ∀ e ∈ dirents (allEntries listed), e.Valid) {cookie : ℕ} (hcookie : cookie < 2 ^ 64) :
    ∃ j ≤ (dirents (allEntries listed)).length - cookie,
      (readPage H fd cookie w p).1 = ((dirents (allEntries listed)).drop cookie).take j ∧
      (∀ e ∈ (dirents (allEntries listed))[cookie]?, e.encode.length ≤ p.len.toNat → 0 < j) ∧
      (readPage H fd cookie w p).2.fds = w.fds ∧
      (readPage H fd cookie w p).2.host = (H.answer (.readDir d.host) w.host).2 := by
  obtain ⟨w', hread, hfds, hhost, hreceived⟩ :=
    fdReaddir_fills (w := { w with mem := some p.mem }) hfits rfl hfd hright hlisted hcookie
  have hpage : readPage H fd cookie w p = (p.received w'.mem, w') := by
    rw [readPage, dispatch_eq (by simp), finish, dispatchFunc, hread]
  obtain ⟨j, hj, hcomplete, hpos⟩ := direntFraming.complete_take
    (fun e he => hvalid e (List.mem_of_mem_drop he)) p.len.toNat
  rw [List.length_drop] at hj
  rw [hpage]
  refine ⟨j, hj, hreceived.trans hcomplete, fun e he => hpos e ?_, hfds, hhost⟩
  rw [List.head?_drop]
  exact he

/-- Where to go on from after the next entries. -/
theorem nextCookie_take {all : List (Bytes × FileType)} {cookie j : ℕ} (hj : j ≤ (dirents all).length - cookie) :
    nextCookie cookie (((dirents all).drop cookie).take j) = cookie + j := by
  cases j with
  | zero => rfl
  | succ j =>
    have hlast : (((dirents all).drop cookie).take (j + 1)).getLast? = (dirents all)[cookie + j]? := by
      rw [List.getLast?_eq_getElem?, List.length_take_of_le (by rw [List.length_drop]; omega), Nat.add_sub_cancel,
        List.getElem?_take_of_lt (Nat.lt_succ_self j), List.getElem?_drop]
    obtain ⟨e, he⟩ : ∃ e, (dirents all)[cookie + j]? = some e := ⟨_, List.getElem?_eq_getElem (by omega)⟩
    obtain ⟨z, -, rfl⟩ := getElem?_dirents he
    rw [nextCookie, hlast, he]
    rfl

end Reading

/-! ## All pages -/

/-- How a host lists the directories of the tree that it shows. A directory that does not change is listed in one
order. A name comes as text, which is the name itself if that is one. -/
structure DirView (H : Host σ) extends TreeView H where
  entries : HostTree → Path → List (Bytes × Option FileType)
  text : Bytes → Bytes
  text_eq {c : Bytes} (hc : isUtf8 c = true) : text c = c
  nodup (s : σ) (p : Path) : ((entries (tree s) p).map Prod.fst).Nodup
  mem_iff {s : σ} {p : Path} (hp : (tree s).node p = some .dir) {c : Bytes} :
    c ∈ (entries (tree s) p).map Prod.fst ↔ (tree s).node (p ++ [c]) ≠ none
  ne_dot {s : σ} {p : Path} {c : Bytes} (hc : c ∈ (entries (tree s) p).map Prod.fst) : c ≠ [] ∧ c ≠ dot ∧ c ≠ dotDot
  readDir {s : σ} {p : Path} (hp : (tree s).node p = some .dir) :
    (H.answer (.readDir p) s).1 = .ok ((entries (tree s) p).map fun e => (text e.1, e.2))
  /-- A directory is listed within the address space of the host, and so are the names. -/
  length_lt (s : σ) (p : Path) : (entries (tree s) p).length + 2 < 2 ^ 64
  name_lt {s : σ} {p : Path} {e : Bytes × Option FileType} (he : e ∈ entries (tree s) p) : (text e.1).length < 2 ^ 32

namespace DirView

variable {H : Host σ} (V : DirView H)

/-- What the host lists. -/
def listed (T : HostTree) (p : Path) : List (Bytes × Option FileType) := (V.entries T p).map fun e => (V.text e.1, e.2)

/-- All that a guest may read of a directory, from first to last. -/
def dirents (T : HostTree) (p : Path) : List Dirent := Wasi.dirents (allEntries (V.listed T p))

theorem length_dirents (T : HostTree) (p : Path) : (V.dirents T p).length = (V.entries T p).length + 2 := by
  rw [dirents, Wasi.length_dirents, allEntries, List.length_cons, List.length_cons, List.length_map, listed,
    List.length_map]

theorem valid {s : σ} {p : Path} {e : Dirent} (he : e ∈ V.dirents (V.tree s) p) : e.Valid := by
  obtain ⟨k, hk, hget⟩ := List.mem_iff_getElem.mp he
  obtain ⟨z, hz, rfl⟩ := getElem?_dirents (List.getElem?_eq_some_iff.mpr ⟨hk, hget⟩)
  refine ⟨?_, ?_⟩
  · have hlength := V.length_lt s p
    rw [V.length_dirents] at hk
    show k + 1 < 2 ^ 64
    omega
  · show z.1.length < 2 ^ 32
    rcases List.mem_cons.mp hz with rfl | hz
    · decide
    rcases List.mem_cons.mp hz with rfl | hz
    · decide
    obtain ⟨e', he', rfl⟩ := List.mem_map.mp hz
    obtain ⟨e'', he'', rfl⟩ := List.mem_map.mp he'
    exact V.name_lt he''

end DirView

section Pages

variable {H : Host σ} (V : DirView H) {fd : BitVec 32} {d : DirFd}

/-- Each page lies in memory, and has room for the entry that it starts with. -/
def Roomy (H : Host σ) (fd : BitVec 32) (all : List Dirent) : ℕ → World σ → List Page → Prop
  | _, _, [] => True
  | cookie, w, p :: ps =>
    p.Fits ∧ (∀ e ∈ all[cookie]?, e.encode.length ≤ p.len.toNat) ∧
      Roomy H fd all (nextCookie cookie (readPage H fd cookie w p).1) (readPage H fd cookie w p).2 ps

/-- From `cookie` on a guest receives the entries one after the other, at least one in each page. -/
theorem readPages_eq {T : HostTree} (hright : d.rightsBase &&& Rights.fdReaddir ≠ 0) (hdir : T.node d.host = some .dir)
    {w : World σ} (hw : V.tree w.host = T) (hfd : w.fds.get fd = some (.dir d)) {pages : List Page} {cookie : ℕ}
    (hcookie : cookie ≤ (V.dirents T d.host).length)
    (hroom : Roomy H fd (V.dirents T d.host) cookie w pages) :
    ∃ m, min pages.length ((V.dirents T d.host).length - cookie) ≤ m ∧
      readPages H fd cookie w pages = ((V.dirents T d.host).drop cookie).take m := by
  induction pages generalizing w cookie with
  | nil => exact ⟨0, Nat.min_le_left .., rfl⟩
  | cons p pages ih =>
    obtain ⟨hfits, hnext, hrest⟩ := hroom
    subst hw
    have hlength := V.length_lt w.host d.host
    have hcount := V.length_dirents (V.tree w.host) d.host
    obtain ⟨j, hj, hpage, hpos, hfds, hhost⟩ :=
      readPage_eq hfits hfd hright (V.readDir hdir) (fun e he => V.valid he) (show cookie < 2 ^ 64 by omega)
    have htree : V.tree (readPage H fd cookie w p).2.host = V.tree w.host := by
      rw [hhost, V.looks_eq rfl]
    have hcookie' : nextCookie cookie (readPage H fd cookie w p).1 = cookie + j := by
      rw [hpage]
      exact nextCookie_take hj
    rw [hcookie'] at hrest
    have hj' : j ≤ (V.dirents (V.tree w.host) d.host).length - cookie := hj
    obtain ⟨m, hm, hreceived⟩ := ih htree (hfds ▸ hfd) (by omega) hrest
    refine ⟨j + m, ?_, ?_⟩
    · -- A page that starts with an entry holds it.
      have hprogress : cookie < (V.dirents (V.tree w.host) d.host).length → 0 < j := by
        intro hlt
        have hget := List.getElem?_eq_getElem hlt
        exact hpos _ hget (hnext _ hget)
      rw [List.length_cons]
      omega
    · rw [readPages, hcookie', hpage, hreceived, List.take_add, List.drop_drop]
      rfl

end Pages

/-! ## The names -/

section Names

variable {H : Host σ} {fd : BitVec 32} {d : DirFd}

/-- A name that can be written in a path names the entry of the directory. -/
theorem resolve_name (V : TreeView H) {w : World σ} (hfd : w.fds.get fd = some (.dir d))
    (hdir : (V.tree w.host).node d.host = some .dir) {c : Bytes} (hname : c ≠ [] ∧ c ≠ dot ∧ c ≠ dotDot)
    (hutf : isUtf8 c = true) (hsep : ∀ b ∈ c, isSeparator b = false) (hgood : componentIsForbidden c = false)
    {need : Rights} (hneed : d.rightsBase.Carries need) {ptr : ℕ} (hread : guestRead ptr c.length w = .ok c w) :
    ∃ w', resolve H fd need ptr c.length false w = .ok (walkOf (V.tree w.host) (.entry d.host c)) w' := by
  have hpieces : pieces isUtf8 c = [.name c] := by
    have hsplit : splitPath c = [c] := List.splitOnP_eq_singleton (by simpa using hsep)
    rw [pieces, hsplit, List.map_singleton, piece_name (by simp [hname]) hname.2.2 hgood hutf]
  have hwalk : ∃ w', walk H d.host c false w = .ok (walkOf (V.tree w.host) (.entry d.host c)) w' := by
    rw [walk_iff V hdir, hpieces]
    exact ⟨0, _, Nat.zero_le _, (DirectoryTree.resolves_last_iff (.inr rfl)).mpr ⟨rfl, rfl⟩, rfl⟩
  have hallowed : refuseIf (need ≠ 0 && d.rightsBase &&& need ≠ need) .notcapable w = .ok () w := by
    have hcarries : d.rightsBase &&& need = need := hneed
    exact refuseIf_eq_ok.mpr ⟨by simp [hcarries], rfl⟩
  rw [resolve, estate_bind_of_ok (estate_get_eq_ok.mpr ⟨rfl, rfl⟩), hfd]
  dsimp only
  rw [estate_bind_of_ok hallowed, estate_bind_of_ok hread]
  exact hwalk

/-- A guest that pages through a directory receives each entry once, and can name it by what it receives. -/
theorem listing_usable (V : DirView H) {w : World σ} (hfd : w.fds.get fd = some (.dir d))
    (hright : d.rightsBase &&& Rights.fdReaddir ≠ 0) (hdir : (V.tree w.host).node d.host = some .dir)
    {pages : List Page} (hroom : Roomy H fd (V.dirents (V.tree w.host) d.host) 0 w pages) :
    (∃ m, min pages.length (V.dirents (V.tree w.host) d.host).length ≤ m ∧
      readPages H fd 0 w pages = (V.dirents (V.tree w.host) d.host).take m) ∧
    ∀ c, (V.tree w.host).node (d.host ++ [c]) ≠ none → isUtf8 c = true → (∀ b ∈ c, isSeparator b = false) →
      componentIsForbidden c = false → (∃ e ∈ V.dirents (V.tree w.host) d.host, e.name = c) ∧
        ∀ (w₁ : World σ) (need : Rights) (ptr : ℕ), w₁.fds.get fd = some (.dir d) → V.tree w₁.host = V.tree w.host →
          d.rightsBase.Carries need → guestRead ptr c.length w₁ = .ok c w₁ →
          ∃ w', resolve H fd need ptr c.length false w₁ = .ok (walkOf (V.tree w.host) (.entry d.host c)) w' := by
  refine ⟨readPages_eq V hright hdir rfl hfd (Nat.zero_le _) hroom, fun c hnode hutf hsep hgood => ?_⟩
  have hmem : c ∈ (V.entries (V.tree w.host) d.host).map Prod.fst := (V.mem_iff hdir).mpr hnode
  constructor
  · have hlisted : c ∈ (allEntries (V.listed (V.tree w.host) d.host)).map Prod.fst := by
      obtain ⟨e, he, rfl⟩ := List.mem_map.mp hmem
      refine List.mem_map.mpr ⟨(V.text e.1, e.2.getD .unknown), ?_, V.text_eq hutf⟩
      exact List.mem_cons_of_mem _ (List.mem_cons_of_mem _
        (List.mem_map.mpr ⟨(V.text e.1, e.2), List.mem_map.mpr ⟨e, he, rfl⟩, rfl⟩))
    rw [← map_name_dirents] at hlisted
    exact List.mem_map.mp hlisted
  · intro w₁ need ptr hfd₁ htree hneed hread
    rw [← htree] at hdir ⊢
    exact resolve_name V.toTreeView hfd₁ hdir (V.ne_dot hmem) hutf hsep hgood hneed hread

/-! ### A directory of two files -/

/-- A directory with a file `a` and a file `:`. -/
def twoTree : HostTree where
  node
    | [] => some .dir
    | [c] => if c = [97] ∨ c = [58] then some .file else none
    | _ => none
  root_dir := rfl
  parent_dir {p c} h := by
    match p with
    | [] => rfl
    | [_] => exact (h rfl).elim
    | _ :: _ :: _ => exact (h rfl).elim

/-- A host with nothing else. -/
def twoHost : Host Unit where
  answer
    | .symlinkMetadata p, _ | .metadata p, _ => (statIn twoTree p, ())
    | .readLink p, _ => (readIn twoTree p, ())
    | .canonicalize p, _ => (canonicalizeIn twoTree p, ())
    | .readDir p, _ =>
      (if p = [] then .ok [([97], some .regularFile), ([58], some .regularFile)] else .error .notDir, ())
    | .fileMetadata _, _ | .open_ _ _, _ | .createDir _, _ | .removeDir _, _ | .removeFile _, _ | .symlink _ _ _, _
    | .hardLink _ _, _ | .rename _ _, _ | .seek _ _, _ | .streamPosition _, _ | .read _ _, _ | .write _ _, _
    | .setLen _ _, _ | .writeStd _ _, _ => (.error .other, ())
    | .nowNanos, _ => (0, ())
    | .fillRandom n, _ => (List.replicate n 0, ())

theorem twoTree_dir {p : Path} : twoTree.node p = some .dir ↔ p = [] := by
  constructor
  · intro h
    match p with
    | [] => rfl
    | [c] =>
      have hfile : (if c = [97] ∨ c = [58] then some Node.file else none) = some .dir := h
      split_ifs at hfile
      cases hfile
    | _ :: _ :: _ => cases h
  · rintro rfl
    rfl

/-- How it lists its directory. -/
def twoView : DirView twoHost where
  tree _ := twoTree
  looks_eq _ := rfl
  stat_none _ _ h := statIn_none h
  stat_some _ _ h := statIn_some h
  readLink h := readIn_eq h
  canonicalize h := if_pos h
  entries _ p := if p = [] then [([97], some .regularFile), ([58], some .regularFile)] else []
  text c := c
  text_eq _ := rfl
  nodup _ p := by
    split_ifs <;> decide
  mem_iff {_ p} hp c := by
    obtain rfl := twoTree_dir.mp hp
    show c ∈ [[97], [58]] ↔ (if c = [97] ∨ c = [58] then some Node.file else none) ≠ (none : Option (Node Bytes))
    split_ifs with hc <;> simp [hc]
  ne_dot {_ p c} hc := by
    split_ifs at hc
    · have hmem : c = [97] ∨ c = [58] := by simpa using hc
      rcases hmem with rfl | rfl <;> decide
    · cases hc
  readDir {_ p} hp := by
    obtain rfl := twoTree_dir.mp hp
    rfl
  length_lt _ p := by
    split_ifs <;> decide
  name_lt {_ p e} he := by
    split_ifs at he
    · have hmem : e = ([97], some .regularFile) ∨ e = ([58], some .regularFile) := by simpa using he
      rcases hmem with rfl | rfl <;> decide
    · cases he

/-- A process that holds the directory. -/
def twoProcess : World Unit where
  args := []
  env := []
  stdin := []
  stdinPos := 0
  stdout := .inherit_
  stderr := .inherit_
  exit := none
  fds := FdTable.preopened [⟨[], some [46], Rights.all, Rights.all⟩]
  mem := none
  host := ()
  log := []

/-- A page with room for two entries and a part of the third. -/
def samplePage : Page := ⟨List.replicate 64 0, 0, 60, 60⟩

theorem roomy_sample : Roomy twoHost 3 (twoView.dirents twoTree []) 0 twoProcess [samplePage, samplePage] :=
  ⟨⟨by decide, by decide, by decide⟩, fun e he => by cases he; decide, ⟨by decide, by decide, by decide⟩,
    fun e he => by cases he; decide, trivial⟩

example : (readPages twoHost 3 0 twoProcess [samplePage, samplePage]).map (·.name) = [[46], [46, 46], [97], [58]] := by
  decide

theorem listing_usable_sample :
    (∃ m, min [samplePage, samplePage].length (twoView.dirents twoTree []).length ≤ m ∧
      readPages twoHost 3 0 twoProcess [samplePage, samplePage] = (twoView.dirents twoTree []).take m) ∧
    ∀ c, twoTree.node ([] ++ [c]) ≠ none → isUtf8 c = true → (∀ b ∈ c, isSeparator b = false) →
      componentIsForbidden c = false → (∃ e ∈ twoView.dirents twoTree [], e.name = c) ∧
        ∀ (w₁ : World Unit) (need : Rights) (ptr : ℕ),
          w₁.fds.get 3 = some (.dir ⟨[], some [46], Rights.all, Rights.all⟩) → twoTree = twoTree →
          Rights.all.Carries need → guestRead ptr c.length w₁ = .ok c w₁ →
          ∃ w', resolve twoHost 3 need ptr c.length false w₁ = .ok (walkOf twoTree (.entry [] c)) w' :=
  listing_usable twoView (w := twoProcess) (d := ⟨[], some [46], Rights.all, Rights.all⟩) (by rfl) (by decide) (by rfl)
    roomy_sample

/-- The name `:` is read, and is refused as a path. -/
theorem not_listing_usable_colon :
    ¬ ∀ e ∈ readPages twoHost 3 0 twoProcess [samplePage, samplePage], twoTree.node ([] ++ [e.name]) ≠ none →
      ∃ w', resolve twoHost 3 Rights.pathFilestatGet 0 e.name.length false { twoProcess with mem := some e.name } =
        .ok (walkOf twoTree (.entry [] e.name)) w' := by
  intro h
  obtain ⟨w', hresolve⟩ := h ⟨4, [58], 4⟩ (by decide) (by decide)
  cases hresolve

end Names

end Wasmrt.Wasi
