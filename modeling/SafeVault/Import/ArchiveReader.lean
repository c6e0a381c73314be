import SafeVault.Import.SevenZipReader

/-!
# The reader of archives

Archives that are neither ZIP files nor read by the decoder of 7z are streams: the headers come one
after another, and the data of an entry can be read before the next header is. The entries are listed in
one pass when the archive is opened. To extract one, the stream is kept that the last request has left
behind its entry, if the entry is not before that; else another stream is opened.

The library that reads the stream is a parameter. Its calls depend on where the stream is, and on
nothing else.
-/

namespace SafeVault

/-- What a header says. -/
structure ArchiveHeader where
  pathname : Option Bytes
  /-- The wide name, if the library can give one. -/
  pathnameW : Option (List ℕ)
  isDir : Bool
  /-- The size, if it is set. -/
  size : Option ℤ

/-- The library with an archive and a passphrase; `σ` is where a stream is. -/
structure LibArchive (σ : Type) where
  /-- `open_stream`, or `open_stream_files` for an archive in volumes. -/
  openStream : Option σ
  /-- What `archive_read_next_header` returns, and the header. -/
  nextHeader : σ → ℤ × ArchiveHeader × σ
  dataSkip : σ → σ
  /-- The bytes that `archive_read_data` has read, or the message of the error. -/
  readData : σ → ℕ → Except Bytes Bytes × σ
  /-- A wide name as a path, in UTF-8. -/
  pathToUtf8 : List ℕ → Bytes

structure ArchiveReader (σ τ : Type) where
  entries : List ZipEntry
  stream : Option σ := none
  streamNext : ℕ := 0
  streamOpens : ℕ := 0
  needsPassword : Bool := false
  sevenzip : Option (SevenZipReader τ) := none
  /-- How many headers the requests have read so far. -/
  headers : ℕ := 0

namespace ArchiveReader

open ZipEncoding (isValidUtf8)

def maxEntryBytes : ℤ := 4 * 1024 * 1024 * 1024

def maxEntries : ℕ := 100000

def archiveOk : ℤ := 0

def archiveEof : ℤ := 1

def archiveWarn : ℤ := -20

def archiveFatal : ℤ := -30

def assphrase : Bytes := [0x61, 0x73, 0x73, 0x70, 0x68, 0x72, 0x61, 0x73, 0x65]

def archiveErrorIsPassphraseIssue (msg : Bytes) : Bool := assphrase <:+: msg

variable {σ τ : Type} (L : LibArchive σ) (Z : SevenZip τ)

/-! ## Opening -/

def entryNameUtf8 (h : ArchiveHeader) : Bytes :=
  match h.pathname, h.pathnameW with
  | some n, w => if isValidUtf8 n then n else (w.map L.pathToUtf8).getD n
  | none, w => (w.map L.pathToUtf8).getD []

def entryOf (h : ArchiveHeader) : ZipEntry := ⟨entryNameUtf8 L h, h.isDir⟩

/-- The loop of `scan_entries`, with room for so many more entries. -/
def scanEntries : ℕ → σ → Option (List ZipEntry)
  | room, s =>
    match L.nextHeader s with
    | (r, h, s') =>
      if r = archiveEof then some []
      else if r = archiveFatal ∨ r < archiveWarn then none
      else
        match room with
        | 0 => none
        | room + 1 => (scanEntries room (L.dataSkip s')).map (entryOf L h :: ·)

/-- `open` and `open_files`, with the first bytes of the archive. -/
def openReader (magic : Bytes) : Option (ArchiveReader σ τ) :=
  if SevenZip.handles magic then
    Z.openArchive.map fun sevenzip ↦ { entries := sevenzip.entries, sevenzip := some sevenzip }
  else do
    let s ← L.openStream
    let entries ← scanEntries L maxEntries s
    return { entries }

/-! ## Extraction -/

/-- The loop that goes on to the entry, from the header `next` on: how many headers it reads, and where
it ends if it finds the entry. -/
def seekEntry (index : ℕ) (next : ℕ) (s : σ) : ℕ × Option (ArchiveHeader × σ) :=
  if next ≤ index then
    match L.nextHeader s with
    | (r, h, s') =>
      if r = archiveEof ∨ r ≠ archiveOk ∧ r < archiveWarn then (1, none)
      else if next = index then (1, some (h, s'))
      else
        let (headers, found) := seekEntry index (next + 1) (L.dataSkip s')
        (headers + 1, found)
  else (0, none)
termination_by index + 1 - next

def validateAndResizeEntry (e : Resources) (h : ArchiveHeader) : Option ℕ :=
  match h.size with
  | none => none
  | some declared =>
    if declared < 0 ∨ maxEntryBytes < declared then none
    else if e.resizes then some declared.toNat
    else none

/-- The loop of `read_entry_data`; `out` is what has been read. A failure is `needs_password`. -/
def readEntryData (size : ℕ) (out : Bytes) (s : σ) : Except Bool (Bytes × σ) :=
  if out.length < size then
    match L.readData s (size - out.length) with
    | (.error msg, _) => .error (archiveErrorIsPassphraseIssue msg)
    | (.ok [], _) => .error false
    | (.ok (b :: bs), s') => readEntryData size (out ++ b :: bs) s'
  else if out.length = size then .ok (out, s)
  else .error false
termination_by size - out.length
decreasing_by simp only [List.length_append, List.length_cons]; omega

def finalizeEntry (s : σ) : Except Bool σ :=
  match L.readData s 1 with
  | (.error msg, _) => .error (archiveErrorIsPassphraseIssue msg)
  | (.ok _, s') => .ok s'

/-- The data of the entry whose header has been read. -/
def readEntry (e : Resources) (h : ArchiveHeader) (s : σ) : Except Bool (Bytes × σ) :=
  match validateAndResizeEntry e h with
  | none => .error false
  | some size => do
    let (out, s') ← readEntryData L size [] s
    let s'' ← finalizeEntry L s'
    return (out, s'')

/-- A request with what it may not get, and with whether an error that the decoder of 7z leaves asks for a
password. -/
structure Call where
  resources : Resources
  index : ℕ
  passwordError : Bool := false

/-- `reset_stream`. -/
def resetStream (reader : ArchiveReader σ τ) : ArchiveReader σ τ := { reader with stream := none, streamNext := 0 }

/-- The part of `extract` that reads a stream. -/
def extractFrom (reader : ArchiveReader σ τ) (e : Resources) (index : ℕ) (s : σ) :
    Option Bytes × ArchiveReader σ τ :=
  let (headers, found) := seekEntry L index reader.streamNext s
  let reader := { reader with headers := reader.headers + headers }
  match found with
  | none => (none, resetStream reader)
  | some (h, s') =>
    match readEntry L e h s' with
    | .error needsPassword => (none, { resetStream reader with needsPassword })
    | .ok (out, s'') => (some out, { reader with stream := some s'', streamNext := index + 1 })

def extract (reader : ArchiveReader σ τ) (c : Call) : Option Bytes × ArchiveReader σ τ :=
  let reader := { reader with needsPassword := false }
  match reader.sevenzip with
  | some sevenzip =>
    let (out, sevenzip) := Z.extract sevenzip c.resources c.index
    (out, { reader with sevenzip := some sevenzip, needsPassword := sevenzip.failed && c.passwordError })
  | none =>
    if reader.entries.length ≤ c.index ∨ (reader.entries.getD c.index ⟨[], false⟩).isDir then (none, reader)
    else
      match reader.stream.filter fun _ ↦ reader.streamNext ≤ c.index with
      | some s => extractFrom L reader c.resources c.index s
      | none =>
        let reader := resetStream reader
        match if c.resources.starts then L.openStream else none with
        | none => (none, reader)
        | some s =>
          extractFrom L { reader with streamOpens := reader.streamOpens + 1 } c.resources c.index s

/-- The reader after a sequence of requests. -/
def extracts (reader : ArchiveReader σ τ) (calls : List Call) : ArchiveReader σ τ :=
  calls.foldl (fun reader c ↦ (extract L Z reader c).2) reader

/-! ## A stream as a pass that goes forward -/

/-- What the library documents of its streams: the next header comes after the unread rest of the entry,
whether that is skipped or not. -/
structure Discards (L : LibArchive σ) : Prop where
  skip_read : ∀ {s n bytes s'}, L.readData s n = (.ok bytes, s') →
    L.nextHeader (L.dataSkip s') = L.nextHeader (L.dataSkip s)
  header_read : ∀ {s n bytes s'}, L.readData s n = (.ok bytes, s') →
    L.nextHeader s' = L.nextHeader (L.dataSkip s')

/-- A stream, with the number of the next header. -/
def pass : ForwardPass (σ × ℕ) (ℕ × ArchiveHeader) Resources Bool Bytes where
  start e := if e.starts then L.openStream.map fun s ↦ (s, 0) else none
  next x :=
    match L.nextHeader x.1 with
    | (r, h, s') =>
      if r = archiveEof ∨ r ≠ archiveOk ∧ r < archiveWarn then none else some ((x.2, h), (s', x.2 + 1))
  skip _ x := (L.dataSkip x.1, x.2)
  take e h x := (readEntry L e h.2 x.1).map fun y ↦ (y.1, (y.2, x.2))

open ForwardPass (Search Verdict)

def search : Search (σ × ℕ) (ℕ × ArchiveHeader) where
  verdict target h := if h.1 < target then .before else if h.1 = target then .wanted else .beyond
  turns target x := target - x.2

variable {L} {s s' : σ} {size : ℕ} {out : Bytes}

theorem skip_readEntryData (hL : Discards L) {filled : Bytes} (h : readEntryData L size filled s = .ok (out, s')) :
    L.nextHeader (L.dataSkip s') = L.nextHeader (L.dataSkip s) := by
  fun_induction readEntryData L size filled s with
  | case1 => cases h
  | case2 => cases h
  | case3 filled s _ b bs s₁ hread ih => rw [ih h, hL.skip_read hread]
  | case4 => cases h; rfl
  | case5 => cases h

theorem readEntry_eq_ok {e : Resources} {h : ArchiveHeader} {s'' : σ} :
    readEntry L e h s = .ok (out, s'') ↔ ∃ size s', validateAndResizeEntry e h = some size ∧
      readEntryData L size [] s = .ok (out, s') ∧ finalizeEntry L s' = .ok s'' := by
  rw [readEntry]
  cases validateAndResizeEntry e h with
  | none => simp
  | some size =>
    cases hdata : readEntryData L size [] s with
    | error => simp [hdata, bind, Except.bind]
    | ok x =>
      obtain ⟨out', s'⟩ := x
      cases hfinal : finalizeEntry L s' with
      | error =>
        simp only [hdata, hfinal, bind, Except.bind, reduceCtorEq, false_iff]
        rintro ⟨size', s₂, hsize, hdata', hfinal'⟩
        obtain rfl := Option.some.inj hsize
        obtain ⟨-, rfl⟩ := Prod.mk.inj (Except.ok.inj (hdata.symm.trans hdata'))
        cases hfinal.symm.trans hfinal'
      | ok s₁ =>
        simp only [hdata, hfinal, bind, Except.bind, pure, Except.pure, Except.ok.injEq, Prod.mk.injEq]
        constructor
        · rintro ⟨rfl, rfl⟩
          exact ⟨size, s', rfl, by rw [hdata], hfinal⟩
        · rintro ⟨size', s₂, hsize, hdata', hfinal'⟩
          obtain rfl := Option.some.inj hsize
          obtain ⟨rfl, rfl⟩ := Prod.mk.inj (Except.ok.inj (hdata.symm.trans hdata'))
          exact ⟨rfl, Except.ok.inj (hfinal.symm.trans hfinal')⟩

theorem next_readEntry (hL : Discards L) {e : Resources} {h : ArchiveHeader}
    (hread : readEntry L e h s = .ok (out, s')) : L.nextHeader s' = L.nextHeader (L.dataSkip s) := by
  obtain ⟨size, s₁, -, hdata, hfinal⟩ := readEntry_eq_ok.mp hread
  rw [finalizeEntry] at hfinal
  split at hfinal
  · cases hfinal
  · rename_i hlast
    obtain rfl := Except.ok.inj hfinal
    rw [hL.header_read hlast, hL.skip_read hlast, skip_readEntryData hL hdata]

theorem validateAndResizeEntry_plenty {e : Resources} {h : ArchiveHeader}
    (hsize : validateAndResizeEntry e h = some size) : validateAndResizeEntry .plenty h = some size := by
  rw [validateAndResizeEntry] at hsize ⊢
  split at hsize
  · cases hsize
  · split at hsize
    · cases hsize
    · rename_i hdeclared
      rw [if_neg hdeclared]
      split at hsize
      · exact hsize
      · cases hsize

theorem readEntry_plenty {e : Resources} {h : ArchiveHeader} {x : Bytes × σ} (hread : readEntry L e h s = .ok x) :
    readEntry L .plenty h s = .ok x := by
  obtain ⟨size, s', hsize, hdata, hfinal⟩ := readEntry_eq_ok.mp hread
  exact readEntry_eq_ok.mpr ⟨size, s', validateAndResizeEntry_plenty hsize, hdata, hfinal⟩

theorem next_eq_some {x x' : σ × ℕ} {h : ℕ × ArchiveHeader} (hnext : (pass L).next x = some (h, x')) :
    h.1 = x.2 ∧ x'.2 = x.2 + 1 := by
  simp only [pass] at hnext
  split at hnext
  · cases hnext
  · obtain ⟨rfl, rfl⟩ := Prod.mk.inj (Option.some.inj hnext)
    exact ⟨rfl, rfl⟩

theorem take_eq_ok {e : Resources} {h : ℕ × ArchiveHeader} {x x' : σ × ℕ} :
    (pass L).take e h x = .ok (out, x') ↔ readEntry L e h.2 x.1 = .ok (out, x'.1) ∧ x'.2 = x.2 := by
  simp only [pass]
  cases readEntry L e h.2 x.1 with
  | error => simp [Except.map]
  | ok y =>
    obtain ⟨out', s'⟩ := y
    obtain ⟨s, n⟩ := x'
    simp [Except.map, and_assoc, eq_comm]

theorem lawful (hL : Discards L) : (pass L).Lawful search .plenty where
  next_take := by
    intro e h x out x' htake
    obtain ⟨hread, hnumber⟩ := take_eq_ok.mp htake
    simp only [pass, hnumber, next_readEntry hL hread]
  take_good := by
    intro e h x y htake
    obtain ⟨hread, hnumber⟩ := take_eq_ok.mp htake
    exact take_eq_ok.mpr ⟨readEntry_plenty hread, hnumber⟩
  start_good := by
    intro e s hstart
    simp only [pass] at hstart ⊢
    split at hstart
    · exact hstart
    · cases hstart
  gone_by := by
    intro target later h hpassed hlater
    simp only [search] at hpassed hlater ⊢
    grind
  turns_lt := by
    intro target x h x' hnext hbefore
    obtain ⟨hnumber, hbehind⟩ := next_eq_some hnext
    have hlt : h.1 < target := by
      simp only [search] at hbefore
      grind
    simp only [search, pass]
    omega

/-- The header that is read, if the return value is good. -/
theorem seek_pass {index next n : ℕ} (hn : index < next + n) (hle : next ≤ index) :
    (pass L).seek ((@search σ).verdict index) n (s, next) =
      (seekEntry L index next s).2.map fun x ↦ ((index, x.1), (x.2, index + 1)) := by
  induction n generalizing next s with
  | zero => omega
  | succ n ih =>
    rw [seekEntry, if_pos hle]
    generalize hheader : L.nextHeader s = header
    obtain ⟨r, h, s'⟩ := header
    dsimp only
    by_cases hend : r = archiveEof ∨ r ≠ archiveOk ∧ r < archiveWarn
    · have hnext : (pass L).next (s, next) = none := by
        simp only [pass, hheader]
        exact if_pos hend
      rw [ForwardPass.seek_of_end _ hnext, if_pos hend]
      rfl
    · have hnext : (pass L).next (s, next) = some ((next, h), (s', next + 1)) := by
        simp only [pass, hheader]
        exact if_neg hend
      rw [ForwardPass.seek_of_next _ hnext, if_neg hend]
      by_cases hfound : next = index
      · subst hfound
        simp [search]
      · have hlt : next < index := lt_of_le_of_ne hle hfound
        rw [if_neg hfound]
        simp only [search, if_pos hlt]
        exact ih (by omega) hlt

/-- A request reads no more headers than there are up to its entry. -/
theorem headers_seekEntry (index next : ℕ) (s : σ) : (seekEntry L index next s).1 ≤ index + 1 - next := by
  fun_induction seekEntry L index next s with
  | case1 next s hle => omega
  | case2 => omega
  | case3 next s hle r h s' hheader hend hfound headers found hrest ih =>
    rw [hrest] at ih
    dsimp only at ih ⊢
    omega
  | case4 => exact Nat.zero_le _

/-- The stream that is there. -/
def cursorOf (reader : ArchiveReader σ τ) : ForwardPass.Cursor (σ × ℕ) :=
  reader.stream.map fun s ↦ ((s, reader.streamNext), reader.streamNext)

/-- What the stream gives from a header on that is not behind the entry. -/
theorem extractFrom_eq (reader : ArchiveReader σ τ) (e : Resources) {index : ℕ} (s : σ)
    (hle : reader.streamNext ≤ index) :
    let got := ((pass L).seek ((@search σ).verdict index) (search.turns index (s, reader.streamNext) + 1)
      (s, reader.streamNext)).bind fun x ↦ ((pass L).take e x.1 x.2).toOption
    (extractFrom L reader e index s).1 = got.map Prod.fst ∧
      cursorOf (extractFrom L reader e index s).2 = got.map fun x ↦ (x.2, index + 1) := by
  rw [seek_pass (by simp only [search]; omega) hle, extractFrom]
  generalize seekEntry L index reader.streamNext s = sought
  obtain ⟨headers, found⟩ := sought
  cases found with
  | none => exact ⟨rfl, rfl⟩
  | some x =>
    dsimp only [Option.map_some, Option.bind_some, pass]
    generalize readEntry L e x.1 x.2 = result
    cases result <;> exact ⟨rfl, rfl⟩

/-- What a request for a file of the archive returns, and the stream that is there afterwards. -/
theorem extract_eq {reader : ArchiveReader σ τ} (hreader : reader.sevenzip = none) {c : Call}
    (hindex : c.index < reader.entries.length)
    (hfile : (reader.entries.getD c.index ⟨[], false⟩).isDir = false) :
    let fetched := (pass L).fetch search false false c.resources (cursorOf reader) c.index
    (extract L Z reader c).1 = fetched.1.toOption ∧ cursorOf (extract L Z reader c).2 = fetched.2 := by
  have hpresent : ¬(reader.entries.length ≤ c.index ∨
      (reader.entries.getD c.index ⟨[], false⟩).isDir = true) := by
    rw [hfile]
    simpa using hindex
  rw [extract]
  dsimp only
  rw [hreader]
  dsimp only
  rw [if_neg hpresent]
  have hcursor : ((cursorOf reader).filter fun c' ↦ c'.2 ≤ c.index).map Prod.fst =
      (reader.stream.filter fun _ ↦ reader.streamNext ≤ c.index).map fun s ↦ (s, reader.streamNext) := by
    rw [cursorOf]
    cases reader.stream with
    | none => rfl
    | some s =>
      rw [Option.map_some, Option.filter_some, Option.filter_some]
      split <;> rfl
  split
  · rename_i s hkept
    rw [hkept] at hcursor
    have hle : reader.streamNext ≤ c.index := of_decide_eq_true (Option.filter_eq_some_iff.mp hkept).2
    have hs : (((cursorOf reader).filter fun c' ↦ c'.2 ≤ c.index).map Prod.fst).or
        ((pass L).start c.resources) = some (s, reader.streamNext) := by rw [hcursor]; rfl
    obtain ⟨hresult, hafter⟩ := ForwardPass.fetch_toOption (S := search) false false hs
    rw [hresult, hafter]
    exact extractFrom_eq (L := L) _ c.resources s hle
  · rename_i hkept
    rw [hkept] at hcursor
    split
    · rename_i hopen
      have hs : (((cursorOf reader).filter fun c' ↦ c'.2 ≤ c.index).map Prod.fst).or
          ((pass L).start c.resources) = none := by
        rw [hcursor]
        simp only [pass]
        cases hstarts : c.resources.starts <;> simp [hstarts] at hopen ⊢
        exact hopen
      rw [ForwardPass.fetch_of_none _ _ hs]
      exact ⟨rfl, rfl⟩
    · rename_i s hopen
      have hs : (((cursorOf reader).filter fun c' ↦ c'.2 ≤ c.index).map Prod.fst).or
          ((pass L).start c.resources) = some (s, 0) := by
        rw [hcursor]
        simp only [pass]
        cases hstarts : c.resources.starts <;> simp [hstarts] at hopen ⊢
        exact hopen
      obtain ⟨hresult, hafter⟩ := ForwardPass.fetch_toOption (S := search) false false hs
      rw [hresult, hafter]
      exact extractFrom_eq (L := L) _ c.resources s (Nat.zero_le c.index)

/-! ## Requests in any order -/

/-- The same archive, freshly opened. -/
def fresh (reader : ArchiveReader σ τ) : ArchiveReader σ τ :=
  { entries := reader.entries, sevenzip := reader.sevenzip.map SevenZip.fresh }

/-- What is there of a stream or a pass goes on like a new one. -/
def Valid (L : LibArchive σ) (Z : SevenZip τ) (reader : ArchiveReader σ τ) : Prop :=
  match reader.sevenzip with
  | some sevenzip => Z.Valid sevenzip
  | none => (cursorOf reader).Valid (pass L) search .plenty

variable {Z}

theorem valid_fresh (reader : ArchiveReader σ τ) : Valid L Z (fresh reader) := by
  rw [Valid, fresh]
  cases reader.sevenzip with
  | none => exact ForwardPass.Cursor.valid_none
  | some sevenzip => exact SevenZip.valid_fresh sevenzip

theorem fresh_openReader {magic : Bytes} {reader : ArchiveReader σ τ}
    (hopen : openReader L Z magic = some reader) : fresh reader = reader := by
  rw [openReader] at hopen
  split at hopen
  · obtain ⟨sevenzip, hsevenzip, rfl⟩ := Option.map_eq_some_iff.mp hopen
    simp only [SevenZip.openArchive, Option.bind_eq_bind, Option.bind_eq_some_iff] at hsevenzip
    obtain ⟨_, _, _, _, x, -, hpure⟩ := hsevenzip
    obtain rfl := Option.some.inj hpure
    rfl
  · simp only [Option.bind_eq_bind, Option.bind_eq_some_iff] at hopen
    obtain ⟨_, _, entries, -, hpure⟩ := hopen
    obtain rfl := Option.some.inj hpure
    rfl

theorem extractFrom_frame (reader : ArchiveReader σ τ) (e : Resources) (index : ℕ) (s : σ) :
    fresh (extractFrom L reader e index s).2 = fresh reader ∧
      (extractFrom L reader e index s).2.headers ≤ reader.headers + (index + 1) := by
  have hheaders := headers_seekEntry (L := L) index reader.streamNext s
  rw [extractFrom]
  generalize seekEntry L index reader.streamNext s = sought at hheaders ⊢
  obtain ⟨headers, found⟩ := sought
  have hle : reader.headers + headers ≤ reader.headers + (index + 1) := by
    dsimp only at hheaders
    omega
  cases found with
  | none => exact ⟨rfl, hle⟩
  | some x =>
    dsimp only
    generalize readEntry L e x.1 x.2 = result
    cases result <;> exact ⟨rfl, hle⟩

/-- A request keeps the archive, and reads no more headers than there are up to its entry. -/
theorem extract_frame (reader : ArchiveReader σ τ) (c : Call) :
    fresh (extract L Z reader c).2 = fresh reader ∧
      (extract L Z reader c).2.headers ≤ reader.headers + (c.index + 1) := by
  obtain ⟨entries, stream, streamNext, streamOpens, needsPassword, sevenzip, headers⟩ := reader
  rw [extract]
  cases sevenzip with
  | some sevenzip =>
    refine ⟨?_, Nat.le_add_right _ _⟩
    simp only [fresh, Option.map_some]
    rw [SevenZip.fresh_extract]
  | none =>
    dsimp only
    split
    · exact ⟨rfl, Nat.le_add_right _ _⟩
    split
    · exact extractFrom_frame _ c.resources c.index _
    split
    · exact ⟨rfl, Nat.le_add_right _ _⟩
    · exact extractFrom_frame _ c.resources c.index _

/-- One request. -/
theorem extract_spec (hL : Discards L) (hZ : Z.GoesOn) {reader : ArchiveReader σ τ}
    (hreader : Valid L Z reader) (c : Call) :
    Valid L Z (extract L Z reader c).2 ∧
      (∀ bytes, (extract L Z reader c).1 = some bytes →
        (extract L Z (fresh reader) ⟨.plenty, c.index, false⟩).1 = some bytes) ∧
      (c.resources = .plenty →
        (extract L Z reader c).1 = (extract L Z (fresh reader) ⟨.plenty, c.index, false⟩).1) := by
  have hframe := extract_frame (L := L) (Z := Z) reader c
  cases hsevenzip : reader.sevenzip with
  | some sevenzip =>
    rw [Valid, hsevenzip] at hreader
    obtain ⟨hvalid, hok, hplenty⟩ := SevenZip.extract_spec hZ hreader c.resources c.index
    have hextract : (extract L Z reader c).1 = (Z.extract sevenzip c.resources c.index).1 ∧
        (extract L Z reader c).2.sevenzip = some (Z.extract sevenzip c.resources c.index).2 := by
      simp only [extract, hsevenzip, and_self]
    have hfresh : (extract L Z (fresh reader) ⟨.plenty, c.index, false⟩).1 =
        (Z.extract (SevenZip.fresh sevenzip) .plenty c.index).1 := by
      simp only [extract, fresh, hsevenzip, Option.map_some]
    rw [Valid, hextract.1, hextract.2, hfresh]
    exact ⟨hvalid, hok, hplenty⟩
  | none =>
    rw [Valid, hsevenzip] at hreader
    have hsame : (extract L Z reader c).2.sevenzip = none := by
      have hsevenzip' : (fresh (extract L Z reader c).2).sevenzip = (fresh reader).sevenzip := by rw [hframe.1]
      rw [fresh, fresh, hsevenzip] at hsevenzip'
      exact Option.map_eq_none_iff.mp hsevenzip'
    by_cases habsent : reader.entries.length ≤ c.index ∨
        (reader.entries.getD c.index ⟨[], false⟩).isDir = true
    · have hrefused : extract L Z reader c = (none, { reader with needsPassword := false }) := by
        simp only [extract, hsevenzip, if_pos habsent]
      have hrefused' : (extract L Z (fresh reader) ⟨.plenty, c.index, false⟩).1 = none := by
        simp only [extract, fresh, hsevenzip, Option.map_none, if_pos habsent]
      rw [hrefused, hrefused', Valid]
      simp only [hsevenzip]
      exact ⟨hreader, nofun, fun _ ↦ trivial⟩
    · obtain ⟨hindex, hfile⟩ := not_or.mp habsent
      rw [Nat.not_le] at hindex
      rw [Bool.not_eq_true] at hfile
      obtain ⟨hresult, hcursor⟩ := extract_eq (Z := Z) hsevenzip hindex hfile
      have hfresh' : (fresh reader).sevenzip = none := by rw [fresh, hsevenzip]; rfl
      obtain ⟨hfresh, -⟩ := extract_eq (Z := Z) (L := L) (c := ⟨.plenty, c.index, false⟩) hfresh' hindex hfile
      obtain ⟨hvalid, hok, hplenty⟩ :=
        ForwardPass.fetch_spec false false (lawful hL) hreader c.resources c.index
      refine ⟨?_, fun bytes h ↦ ?_, fun h ↦ ?_⟩
      · rw [Valid, hsame, hcursor]
        exact hvalid
      · rw [hresult, ForwardPass.toOption_eq_some] at h
        rw [hfresh, ForwardPass.toOption_eq_some]
        exact hok bytes h
      · rw [hresult, hfresh, hplenty h]
        rfl

theorem extracts_spec (hL : Discards L) (hZ : Z.GoesOn) (calls : List Call) {reader : ArchiveReader σ τ}
    (hreader : Valid L Z reader) :
    Valid L Z (extracts L Z reader calls) ∧ fresh (extracts L Z reader calls) = fresh reader := by
  induction calls generalizing reader with
  | nil => exact ⟨hreader, rfl⟩
  | cons c calls ih =>
    obtain ⟨hvalid, -⟩ := extract_spec hL hZ hreader c
    obtain ⟨hrest, hsame⟩ := ih hvalid
    exact ⟨hrest, hsame.trans (extract_frame reader c).1⟩

/-- **A reader that only goes forward.** After any requests, what is extracted is what is extracted from the
archive when it is freshly opened; a request fails on its own account only, if it does not get what it
needs; and it reads no more headers than there are up to its entry. -/
theorem forward_cursor (hL : Discards L) (hZ : Z.GoesOn) {magic : Bytes} {reader : ArchiveReader σ τ}
    (hopen : openReader L Z magic = some reader) (calls : List Call) (c : Call) :
    let after := extracts L Z reader calls
    (∀ bytes, (extract L Z after c).1 = some bytes →
      (extract L Z reader ⟨.plenty, c.index, false⟩).1 = some bytes) ∧
    (c.resources = .plenty → (extract L Z after c).1 = (extract L Z reader ⟨.plenty, c.index, false⟩).1) ∧
    (extract L Z after c).2.headers ≤ after.headers + (c.index + 1) := by
  have hfresh : fresh reader = reader := fresh_openReader hopen
  have hreader : Valid L Z reader := hfresh ▸ valid_fresh reader
  obtain ⟨hvalid, hsame⟩ := extracts_spec hL hZ calls hreader
  obtain ⟨-, hok, hplenty⟩ := extract_spec hL hZ hvalid c
  rw [hsame, hfresh] at hok hplenty
  exact ⟨hok, hplenty, (extract_frame _ c).2⟩

/-- A library for files in memory; the state is the unread rest of an entry, and the files behind it. -/
def ofFiles (files : List (ArchiveHeader × Bytes)) : LibArchive (Bytes × List (ArchiveHeader × Bytes)) where
  openStream := some ([], files)
  nextHeader s :=
    match s.2 with
    | [] => (archiveEof, ⟨none, none, false, none⟩, ([], []))
    | (h, bytes) :: files => (archiveOk, h, (bytes, files))
  dataSkip s := ([], s.2)
  readData s n := (.ok (s.1.take n), (s.1.drop n, s.2))
  pathToUtf8 wide := Bstr.bstrUtf8 wide

theorem discards_ofFiles (files : List (ArchiveHeader × Bytes)) : Discards (ofFiles files) where
  skip_read := by intro s n bytes s' hread; cases hread; rfl
  header_read := by
    intro s n bytes s' hread
    cases hread
    obtain ⟨rest, files⟩ := s
    cases files <;> rfl

theorem scanEntries_ofFiles (all files : List (ArchiveHeader × Bytes)) (room : ℕ) (rest : Bytes)
    (hroom : files.length ≤ room) :
    scanEntries (ofFiles all) room (rest, files) = some (files.map fun x ↦ entryOf (ofFiles all) x.1) := by
  induction files generalizing room rest with
  | nil =>
    rw [scanEntries]
    rfl
  | cons x files ih =>
    obtain ⟨room, rfl⟩ := Nat.exists_eq_add_one_of_ne_zero (Nat.ne_zero_of_lt (Nat.lt_of_succ_le hroom))
    have hnext : (ofFiles all).nextHeader (rest, x :: files) = (archiveOk, x.1, (x.2, files)) := rfl
    have hskip : (ofFiles all).dataSkip (x.2, files) = ([], files) := rfl
    rw [scanEntries, hnext]
    dsimp only
    rw [if_neg (by decide), if_neg (by decide), hskip, ih room [] (Nat.le_of_succ_le_succ hroom)]
    rfl

/-- Two files `a` and `b`. -/
def twoFiles : List (ArchiveHeader × Bytes) :=
  [(⟨some [0x61], none, false, some 2⟩, [1, 2]), (⟨some [0x62], none, false, some 1⟩, [3])]

def twoFilesReader : ArchiveReader (Bytes × List (ArchiveHeader × Bytes)) (List (ℕ × Bytes)) :=
  { entries := [⟨[0x61], false⟩, ⟨[0x62], false⟩] }

theorem openReader_twoFiles :
    openReader (ofFiles twoFiles) (SevenZip.ofItems []) [] = some twoFilesReader := by
  have hnames : isValidUtf8 [0x61] = true ∧ isValidUtf8 [0x62] = true := by simp [isValidUtf8]
  have hscan := scanEntries_ofFiles twoFiles twoFiles maxEntries [] (by decide)
  have hstream : (ofFiles twoFiles).openStream = some ([], twoFiles) := rfl
  rw [openReader, if_neg (by decide), hstream]
  simp only [Option.bind_eq_bind, Option.bind_some, hscan]
  simp [twoFiles, entryOf, entryNameUtf8, hnames, twoFilesReader]

theorem forward_cursor_back :
    let L := ofFiles twoFiles
    let Z := SevenZip.ofItems []
    (extract L Z (extracts L Z twoFilesReader [⟨.plenty, 1, false⟩, ⟨⟨true, false⟩, 0, false⟩])
        ⟨.plenty, 0, false⟩).1 = (extract L Z twoFilesReader ⟨.plenty, 0, false⟩).1 :=
  (forward_cursor (discards_ofFiles twoFiles) (SevenZip.goesOn_ofItems []) openReader_twoFiles
    [⟨.plenty, 1, false⟩, ⟨⟨true, false⟩, 0, false⟩] ⟨.plenty, 0, false⟩).2.1 rfl

end ArchiveReader

end SafeVault
