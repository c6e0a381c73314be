import SafeVault.Import.ArchiveReader

/-!
# The numbers of entries

A plan names the entries of an archive by their positions in its listing, and an entry is extracted by
that number. For the readers of streams and of 7z archives the positions are the numbers in the archive.
ZIP files are listed by a loop that leaves out an entry if nothing can be found out about it; extraction
takes the number as it is. A position is the number of its entry as long as nothing was left out before.

That extraction looks at an entry is told by the bytes that it hands out: they are those of the entry,
whatever the entries hold. The library that reads ZIP files is a parameter, its directory apart from the
data.
-/

namespace SafeVault

/-- What the central directory says of an entry. -/
structure ZipFileStat where
  filename : Bytes
  bitFlag : ℕ
  compSize : ℕ
  uncompSize : ℕ

/-- The library that reads ZIP files, with the directory of a file that it has accepted. -/
structure Miniz where
  numFiles : ℕ
  /-- The number is an `mz_uint`. -/
  numFiles_lt : numFiles < 2 ^ 32
  fileStat : ℕ → Option ZipFileStat
  isFileADirectory : ℕ → Bool

/-- What the library gets out of the data of a file, for an entry and a buffer of a size. -/
structure ZipData where
  extractToMem : ℕ → ℕ → Option Bytes
  length_extractToMem : ∀ {i size : ℕ} {bytes : Bytes}, extractToMem i size = some bytes → bytes.length = size

namespace EntryNumbers

open ZipEncoding (decodeZipEntryName)

/-! ## ZIP files -/

/-- `kZipUtf8BitFlag`. -/
def zipUtf8BitFlag : ℕ := 1 <<< 11

variable (Z : Miniz)

/-- The entry that is listed. -/
def zipEntryOf (i : ℕ) (st : ZipFileStat) : ZipEntry :=
  ⟨decodeZipEntryName st.filename (st.bitFlag &&& zipUtf8BitFlag ≠ 0), Z.isFileADirectory i⟩

/-- The loop over the central directory, with so many entries to go. -/
def entriesFrom : ℕ → ℕ → List ZipEntry
  | 0, _ => []
  | left + 1, i =>
    match Z.fileStat i with
    | none => entriesFrom left (i + 1)
    | some st => zipEntryOf Z i st :: entriesFrom left (i + 1)

/-- The entries of an archive in an archive. -/
def zipList : List ZipEntry := entriesFrom Z Z.numFiles 0

/-- The entries of an archive that is imported. -/
def readEntryList : List ZipEntry := entriesFrom Z Z.numFiles 0

/-- `static_cast<mz_uint>`. -/
def mzUint (index : ℕ) : ℕ := index % 2 ^ 32

variable (D : ZipData)

/-- `zip_extract`, where the buffer can be resized or not. -/
def zipExtract (resizes : Bool) (index : ℕ) : Option Bytes :=
  match Z.fileStat (mzUint index) with
  | none => none
  | some st =>
    if !resizes then none
    else if st.uncompSize = 0 then some []
    else D.extractToMem (mzUint index) st.uncompSize

def zipEntrySizePlausible (compSize uncompSize : ℕ) : Bool :=
  if uncompSize = 0 then true
  else if compSize = 0 then false
  else uncompSize ≤ 4096 || uncompSize / 1033 ≤ compSize

/-- The bytes that `import_one` gives away. -/
def importOne (index : ℕ) : Option Bytes :=
  match Z.fileStat (mzUint index) with
  | none => none
  | some st =>
    if !zipEntrySizePlausible st.compSize st.uncompSize then none
    else D.extractToMem (mzUint index) st.uncompSize

/-- `kMaxMetaJsonBytes`. -/
def maxMetaJsonBytes : ℕ := 1 <<< 20

/-- The bytes that `load_archive_meta` parses. -/
def loadArchiveMeta (index : ℕ) : Option Bytes :=
  match Z.fileStat (mzUint index) with
  | none => none
  | some st =>
    if st.uncompSize = 0 ∨ maxMetaJsonBytes < st.uncompSize then none
    else D.extractToMem (mzUint index) st.uncompSize

/-! ### What is listed under a position -/

/-- The entries of which something can be found out, with their numbers. -/
def readable : List ℕ := (List.range Z.numFiles).filter fun i ↦ (Z.fileStat i).isSome

/-- What is handed out for a position are the bytes of the entry `i`, as many as its directory says, and
they are handed out whenever the checks let them pass and the library gets them. -/
structure Selects (j i : ℕ) (st : ZipFileStat) : Prop where
  zipExtract : ∀ resizes bytes, zipExtract Z D resizes j = some bytes ↔ resizes = true ∧
    bytes.length = st.uncompSize ∧ (bytes = [] ∨ D.extractToMem i st.uncompSize = some bytes)
  importOne : ∀ bytes, importOne Z D j = some bytes ↔
    zipEntrySizePlausible st.compSize st.uncompSize = true ∧ D.extractToMem i st.uncompSize = some bytes
  loadArchiveMeta : ∀ bytes, loadArchiveMeta Z D j = some bytes ↔
    bytes ≠ [] ∧ bytes.length ≤ maxMetaJsonBytes ∧ D.extractToMem i st.uncompSize = some bytes

/-- The entry that stands under a position of the two listings is the one whose bytes are handed out for it,
whatever the entries hold. -/
def ZipAgrees : Prop :=
  ∀ j i, (readable Z)[j]? = some i → ∃ st, Z.fileStat i = some st ∧
    (zipList Z)[j]? = some (zipEntryOf Z i st) ∧ (readEntryList Z)[j]? = some (zipEntryOf Z i st) ∧
    ∀ D, Selects Z D j i st

/-- Behind an entry that cannot be read, there is none that can. -/
def ReadableFirst : Prop :=
  ∀ i k, k < i → i < Z.numFiles → (Z.fileStat i).isSome → (Z.fileStat k).isSome

theorem entriesFrom_eq (left i : ℕ) : entriesFrom Z left i =
    (List.range' i left).filterMap fun i ↦ (Z.fileStat i).map (zipEntryOf Z i) := by
  induction left generalizing i with
  | zero => rfl
  | succ left ih =>
    rw [entriesFrom, List.range'_succ, List.filterMap_cons, ih]
    cases Z.fileStat i <;> rfl

/-- What stands under a position of a list that leaves some out. -/
theorem getElem?_filterMap_of_filter {α β : Type} {f : α → Option β} {l : List α} {j : ℕ} {a : α}
    (h : (l.filter fun a ↦ (f a).isSome)[j]? = some a) :
    ∃ b, f a = some b ∧ (l.filterMap f)[j]? = some b := by
  induction l generalizing j with
  | nil => simp at h
  | cons x l ih =>
    cases hx : f x with
    | none =>
      rw [List.filter_cons_of_neg (by simp [hx])] at h
      rw [List.filterMap_cons_none hx]
      exact ih h
    | some b =>
      rw [List.filter_cons_of_pos (by simp [hx])] at h
      rw [List.filterMap_cons_some hx]
      cases j with
      | zero =>
        obtain rfl := Option.some.inj h
        exact ⟨b, hx, rfl⟩
      | succ j => exact ih h

theorem zipList_of_readable {j i : ℕ} (h : (readable Z)[j]? = some i) :
    ∃ st, Z.fileStat i = some st ∧ (zipList Z)[j]? = some (zipEntryOf Z i st) := by
  have hlisted : (List.range Z.numFiles).filter
      (fun i ↦ ((Z.fileStat i).map (zipEntryOf Z i)).isSome) = readable Z := by
    simp only [Option.isSome_map]
    rfl
  obtain ⟨entry, hentry, hposition⟩ := getElem?_filterMap_of_filter (hlisted ▸ h)
  obtain ⟨st, hst, rfl⟩ := Option.map_eq_some_iff.mp hentry
  refine ⟨st, hst, ?_⟩
  rw [zipList, entriesFrom_eq, ← List.range_eq_range']
  exact hposition

/-- The positions of the numbers that are kept are these numbers, if none is kept behind one that is
left out. -/
theorem positions_filter_range (p : ℕ → Bool) (n : ℕ) :
    (∀ j i : ℕ, ((List.range n).filter p)[j]? = some i → j = i) ↔ ∀ i k : ℕ, k < i → i < n → p i → p k := by
  constructor
  · intro h i k hk hi hp
    obtain ⟨j, hj⟩ := List.getElem?_of_mem (List.mem_filter.mpr ⟨List.mem_range.mpr hi, hp⟩)
    obtain rfl := h j i hj
    obtain ⟨hlt, -⟩ := List.getElem?_eq_some_iff.mp hj
    -- What stands under `k` is `k`.
    have hstands := List.getElem?_eq_getElem (hk.trans hlt)
    have hkept := List.getElem_mem (hk.trans hlt)
    rw [← h k _ hstands] at hkept
    exact (List.mem_filter.mp hkept).2
  · intro h
    induction n with
    | zero => intro j i hj; simp at hj
    | succ n ih =>
      intro j i hj
      rw [List.range_succ, List.filter_append] at hj
      by_cases hp : p n = true
      · have hall : (List.range n).filter p = List.range n :=
          List.filter_eq_self.mpr fun k hk ↦ h n k (List.mem_range.mp hk) (Nat.lt_succ_self n) hp
        rw [hall, List.filter_cons_of_pos hp, List.filter_nil, ← List.range_succ] at hj
        obtain ⟨hlt, hji⟩ := List.getElem?_eq_some_iff.mp hj
        rwa [List.getElem_range] at hji
      · rw [List.filter_cons_of_neg hp, List.filter_nil, List.append_nil] at hj
        exact ih (fun i k hk hi ↦ h i k hk (Nat.lt_succ_of_lt hi)) j i hj

/-- A position that is the number of its entry selects this entry. -/
theorem selects_of_eq {j i : ℕ} {st : ZipFileStat} (hst : Z.fileStat i = some st) (hj : mzUint j = i) :
    Selects Z D j i st := by
  refine ⟨fun resizes bytes ↦ ?_, fun bytes ↦ ?_, fun bytes ↦ ?_⟩
  · rw [EntryNumbers.zipExtract, hj, hst]
    dsimp only
    cases resizes with
    | false => simp
    | true =>
      by_cases hsize : st.uncompSize = 0
      · simp only [Bool.not_true, Bool.false_eq_true, if_false, if_pos hsize, Option.some_inj, true_and]
        rw [hsize, List.length_eq_zero_iff]
        exact ⟨fun h ↦ ⟨h.symm, .inl h.symm⟩, fun h ↦ h.1.symm⟩
      · simp only [Bool.not_true, Bool.false_eq_true, if_false, if_neg hsize, true_and]
        constructor
        · exact fun h ↦ ⟨D.length_extractToMem h, .inr h⟩
        · rintro ⟨hlength, rfl | h⟩
          · exact absurd hlength.symm hsize
          · exact h
  · rw [EntryNumbers.importOne, hj, hst]
    dsimp only
    cases zipEntrySizePlausible st.compSize st.uncompSize <;> simp
  · rw [EntryNumbers.loadArchiveMeta, hj, hst]
    dsimp only
    split_ifs with hsize
    · refine iff_of_false nofun fun ⟨hne, hle, h⟩ ↦ ?_
      rw [D.length_extractToMem h] at hle
      rcases hsize with hzero | hlarge
      · exact hne (List.length_eq_zero_iff.mp ((D.length_extractToMem h).trans hzero))
      · exact absurd hle (not_le.mpr hlarge)
    · rw [not_or, not_lt] at hsize
      constructor
      · intro h
        have hlength := D.length_extractToMem h
        exact ⟨fun hnil ↦ hsize.1 (by rw [← hlength, hnil, List.length_nil]), hlength.trans_le hsize.2, h⟩
      · exact fun h ↦ h.2.2

/-- Only one entry holds something, and that is zeros. -/
def onlyEntry (i : ℕ) : ZipData where
  extractToMem k size := if k = i then some (List.replicate size 0) else none
  length_extractToMem h := by
    split_ifs at h
    rw [← Option.some.inj h, List.length_replicate]

/-- A position selects no entry but the one whose number it is. -/
theorem eq_of_selects {j i : ℕ} {st : ZipFileStat} (h : ∀ D, Selects Z D j i st) : mzUint j = i := by
  by_contra hne
  obtain ⟨hzip, himport, -⟩ := h (onlyEntry i)
  have hother : ∀ size, (onlyEntry i).extractToMem (mzUint j) size = none := fun size ↦ if_neg hne
  have hthis : (onlyEntry i).extractToMem i st.uncompSize = some (List.replicate st.uncompSize 0) := if_pos rfl
  -- Nothing is imported for the position.
  have hnone : EntryNumbers.importOne Z (onlyEntry i) j = none := by
    rw [EntryNumbers.importOne]
    cases Z.fileStat (mzUint j) with
    | none => rfl
    | some st' =>
      dsimp only
      rw [hother, ite_self]
  cases hcredible : zipEntrySizePlausible st.compSize st.uncompSize with
  | true => cases hnone.symm.trans ((himport _).mpr ⟨hcredible, hthis⟩)
  | false =>
    -- An entry whose size is not plausible is not empty, and extraction gives at most nothing.
    have hsize : st.uncompSize ≠ 0 := by
      intro hzero
      rw [zipEntrySizePlausible, if_pos hzero] at hcredible
      cases hcredible
    have hextract := (hzip true _).mpr ⟨rfl, List.length_replicate, .inr hthis⟩
    rw [EntryNumbers.zipExtract] at hextract
    split at hextract
    · cases hextract
    · rw [if_neg (by decide), hother] at hextract
      split_ifs at hextract
      have hlength := congrArg List.length (Option.some.inj hextract)
      rw [List.length_nil, List.length_replicate] at hlength
      exact hsize hlength.symm

/-- Listing and extraction agree on a ZIP file if and only if it can be read up to some entry. -/
theorem zipAgrees_iff : ZipAgrees Z ↔ ReadableFirst Z := by
  rw [ReadableFirst, ← positions_filter_range]
  have hnumber : ∀ j i, (readable Z)[j]? = some i → mzUint j = j := by
    intro j i hj
    obtain ⟨hlt, -⟩ := List.getElem?_eq_some_iff.mp hj
    have hle : (readable Z).length ≤ Z.numFiles :=
      (List.length_filter_le _ _).trans List.length_range.le
    exact Nat.mod_eq_of_lt (hlt.trans_le hle |>.trans Z.numFiles_lt)
  constructor
  · intro h j i hj
    obtain ⟨st, -, -, -, hselects⟩ := h j i hj
    rw [← hnumber j i hj]
    exact eq_of_selects Z hselects
  · intro h j i hj
    obtain ⟨st, hst, hlisted⟩ := zipList_of_readable Z hj
    have hsame : mzUint j = i := (hnumber j i hj).trans (h j i hj)
    exact ⟨st, hst, hlisted, hlisted, fun D ↦ selects_of_eq Z D hst hsame⟩

/-! ## Streams -/

section Stream

open ArchiveReader

variable {σ : Type} (L : LibArchive σ)

/-- The next header, if there is one. -/
def header (s : σ) : Option (ArchiveHeader × σ) :=
  match L.nextHeader s with
  | (r, h, s') => if r = archiveEof ∨ r ≠ archiveOk ∧ r < archiveWarn then none else some (h, s')

/-- The header with a number, when the data of those before are skipped. -/
def headerAt : ℕ → σ → Option (ArchiveHeader × σ)
  | 0, s => header L s
  | n + 1, s => (header L s).bind fun x ↦ headerAt n (L.dataSkip x.2)

/-- The bytes are those of the entry with this number, which has this path and this size. -/
def IsFile (index : ℕ) (entry : ZipEntry) (bytes : Bytes) : Prop :=
  ∃ s₀ h s s', L.openStream = some s₀ ∧ headerAt L index s₀ = some (h, s) ∧ entryOf L h = entry ∧
    h.size = some (bytes.length : ℤ) ∧ readEntry L .plenty h s = .ok (bytes, s')

variable {L} {s s' : σ}

theorem header_eq {r : ℤ} {h : ArchiveHeader} (hheader : L.nextHeader s = (r, h, s')) : header L s =
    if r = archiveEof ∨ r ≠ archiveOk ∧ r < archiveWarn then none else some (h, s') := by
  rw [header, hheader]

theorem headerAt_of_none (h : header L s = none) (n : ℕ) : headerAt L n s = none := by
  cases n with
  | zero => exact h
  | succ n => rw [headerAt, h, Option.bind_none]

/-- The loop of `extract` goes to the header with a number. -/
theorem seekEntry_eq {index next : ℕ} (hle : next ≤ index) (s : σ) :
    (seekEntry L index next s).2 = headerAt L (index - next) s := by
  fun_induction seekEntry L index next s with
  | case1 next s _ r h s' hheader hend =>
    have hnone : header L s = none := by rw [header_eq hheader, if_pos hend]
    rw [headerAt_of_none hnone]
  | case2 s r h s' hheader hend =>
    rw [Nat.sub_self, headerAt, header_eq hheader, if_neg hend]
  | case3 next s _ r h s' hheader hend hother headers found hrest ih =>
    have hlt : next < index := lt_of_le_of_ne hle hother
    rw [hrest] at ih
    obtain ⟨n, hn⟩ : ∃ n, index - next = n + 1 := ⟨index - (next + 1), by omega⟩
    rw [hn, headerAt, header_eq hheader, if_neg hend, Option.bind_some, ih hlt]
    congr 1
    omega
  | case4 => contradiction

theorem scanEntries_step {room : ℕ} {entries : List ZipEntry} (hscan : scanEntries L room s = some entries) :
    entries = [] ∨ ∃ room' h s' rest, room = room' + 1 ∧ header L s = some (h, s') ∧
      scanEntries L room' (L.dataSkip s') = some rest ∧ entries = entryOf L h :: rest := by
  unfold scanEntries at hscan
  generalize hheader : L.nextHeader s = x at hscan
  obtain ⟨r, h, s'⟩ := x
  dsimp only at hscan
  split at hscan
  · exact .inl (Option.some.inj hscan).symm
  rename_i heof
  split at hscan
  · cases hscan
  rename_i hgood
  have hnext : header L s = some (h, s') := by
    rw [header_eq hheader, if_neg]
    rintro (h | h)
    · exact heof h
    · exact hgood (.inr h.2)
  split at hscan
  · cases hscan
  · rename_i room'
    obtain ⟨rest, hrest, rfl⟩ := Option.map_eq_some_iff.mp hscan
    exact .inr ⟨room', h, s', rest, rfl, hnext, hrest, rfl⟩

/-- The loop of `scan_entries` lists the headers under their numbers. -/
theorem headerAt_of_scanEntries {room : ℕ} {entries : List ZipEntry} {j : ℕ} {entry : ZipEntry}
    (hscan : scanEntries L room s = some entries) (hentry : entries[j]? = some entry) :
    ∃ h s', headerAt L j s = some (h, s') ∧ entryOf L h = entry := by
  induction j generalizing room entries s with
  | zero =>
    obtain rfl | ⟨_, h, s', _, -, hnext, -, rfl⟩ := scanEntries_step hscan
    · cases hentry
    · exact ⟨h, s', hnext, Option.some.inj hentry⟩
  | succ j ih =>
    obtain rfl | ⟨_, h, s', rest, -, hnext, hrest, rfl⟩ := scanEntries_step hscan
    · cases hentry
    · rw [headerAt, hnext]
      exact ih hrest hentry

theorem length_readEntryData {size : ℕ} {filled bytes : Bytes}
    (hread : readEntryData L size filled s = .ok (bytes, s')) : bytes.length = size := by
  fun_induction readEntryData L size filled s with
  | case1 => cases hread
  | case2 => cases hread
  | case3 filled s _ b bs s₁ _ ih => exact ih hread
  | case4 filled s _ hfull =>
    obtain ⟨rfl, -⟩ := Prod.mk.inj (Except.ok.inj hread)
    exact hfull
  | case5 => cases hread

theorem size_of_readEntry {e : Resources} {h : ArchiveHeader} {bytes : Bytes}
    (hread : readEntry L e h s = .ok (bytes, s')) : h.size = some (bytes.length : ℤ) := by
  obtain ⟨size, s₁, hsize, hdata, -⟩ := readEntry_eq_ok.mp hread
  rw [length_readEntryData hdata]
  rw [validateAndResizeEntry] at hsize
  split at hsize
  · cases hsize
  rename_i declared hdeclared
  split at hsize
  · cases hsize
  rename_i hrange
  split at hsize
  · obtain rfl := Option.some.inj hsize
    rw [hdeclared, Int.toNat_of_nonneg (by omega)]
  · cases hsize

end Stream

/-! ## 7z archives -/

section SevenZip

open SevenZip

variable {τ : Type} (Z : SevenZip τ)

/-- A pass asks for the stream of an item when it has got none for other ones. -/
inductive Visits : τ → ℕ → τ → Prop
  | here {s i s'} (h : Z.visit s = some (i, s')) : Visits s i s'
  | later {s k s₁ i s'} (h : Z.visit s = some (k, s₁)) (hrest : Visits (Z.skip s₁) i s') : Visits s i s'

/-- The bytes are those of the item with this number, which has this path and this size. -/
def IsItem (index : ℕ) (entry : ZipEntry) (bytes : Bytes) : Prop :=
  ∃ p s s', Z.getProperties index = some p ∧ entryOf p = entry ∧ p.size = some bytes.length ∧
    Visits Z Z.begin index s ∧ Z.decodeItem bytes.length s = some (bytes, s')

variable {Z} {s s' : τ}

theorem of_getStream {reader : SevenZipReader τ} {e : Resources} {target index : ℕ}
    (h : getStream reader e target index = .stream) :
    index = target ∧ (reader.info.getD index {}).size ≤ maxEntryBytes := by
  rw [getStream] at h
  grind

theorem visits_of_runTo {reader : SevenZipReader τ} {e : Resources} {target active : ℕ}
    (h : Z.runTo reader e target s = some (active, s')) :
    active = target ∧ (reader.info.getD target {}).size ≤ maxEntryBytes ∧ Visits Z s target s' := by
  fun_induction SevenZip.runTo Z reader e target s with
  | case1 => cases h
  | case2 => cases h
  | case3 s k s₁ hvisit _ ih =>
    obtain ⟨hactive, hsize, hrest⟩ := ih h
    exact ⟨hactive, hsize, .later hvisit hrest⟩
  | case4 s k s₁ hvisit hanswer =>
    obtain ⟨rfl, rfl⟩ := Prod.mk.inj (Option.some.inj h)
    obtain ⟨rfl, hsize⟩ := of_getStream hanswer
    exact ⟨rfl, hsize, .here hvisit⟩

theorem length_decodeItem {size : ℕ} {bytes : Bytes} (h : Z.decodeItem size s = some (bytes, s')) :
    bytes.length = size := by
  simp only [decodeItem, Option.bind_eq_bind, Option.bind_eq_some_iff] at h
  obtain ⟨w, -, ⟨result, s''⟩, hresult, u, hguard, hpure⟩ := h
  obtain ⟨rfl, -⟩ := Prod.mk.inj (Option.some.inj hpure)
  obtain ⟨-, hlength⟩ : result = kOK ∧ w.length = size := by simpa [guard] using hguard
  exact hlength

theorem getElem?_of_mapM {α β : Type} {f : α → Option β} {l : List α} {l' : List β} (h : l.mapM f = some l')
    {j : ℕ} {b : β} (hb : l'[j]? = some b) : ∃ a, l[j]? = some a ∧ f a = some b := by
  induction l generalizing l' j with
  | nil =>
    obtain rfl := Option.some.inj h
    cases hb
  | cons x l ih =>
    rw [List.mapM_cons] at h
    simp only [Option.bind_eq_bind, Option.bind_eq_some_iff] at h
    obtain ⟨y, hy, ys, hys, hpure⟩ := h
    obtain rfl := Option.some.inj hpure
    cases j with
    | zero => exact ⟨x, rfl, hb ▸ hy⟩
    | succ j => exact ih hys hb

/-- What is listed under a position comes from the item with this number. -/
theorem properties_of_openArchive {reader : SevenZipReader τ} (hopen : Z.openArchive = some reader) {j : ℕ}
    {entry : ZipEntry} (hentry : reader.entries[j]? = some entry) :
    ∃ p, Z.getProperties j = some p ∧ SevenZip.entryOf p = entry ∧ reader.info.getD j {} = infoOf p := by
  simp only [openArchive, Option.bind_eq_bind, Option.bind_eq_some_iff] at hopen
  obtain ⟨_, _, _, _, x, hlist, hpure⟩ := hopen
  obtain rfl := Option.some.inj hpure
  simp only [listEntries, Option.bind_eq_bind, Option.bind_eq_some_iff] at hlist
  obtain ⟨count, _, _, _, properties, hproperties, hpure'⟩ := hlist
  obtain rfl := Option.some.inj hpure'
  dsimp only at hentry ⊢
  rw [List.getElem?_map] at hentry
  obtain ⟨p, hp, hpath⟩ := Option.map_eq_some_iff.mp hentry
  obtain ⟨i, hi, hfound⟩ := getElem?_of_mapM hproperties hp
  obtain ⟨_, hij⟩ := List.getElem?_eq_some_iff.mp hi
  rw [List.getElem_range] at hij
  subst hij
  refine ⟨p, hfound, hpath, ?_⟩
  rw [List.getD_eq_getElem?_getD, List.getElem?_map, hp]
  rfl

theorem openArchive_fresh {reader : SevenZipReader τ} (hopen : Z.openArchive = some reader) :
    reader.producer = none ∧ reader.failed = false := by
  simp only [openArchive, Option.bind_eq_bind, Option.bind_eq_some_iff] at hopen
  obtain ⟨_, _, _, _, x, -, hpure⟩ := hopen
  obtain rfl := Option.some.inj hpure
  exact ⟨rfl, rfl⟩

theorem isItem_of_extract {reader : SevenZipReader τ} (hopen : Z.openArchive = some reader) {index : ℕ}
    {entry : ZipEntry} {bytes : Bytes} (hentry : reader.entries[index]? = some entry)
    (hextract : (Z.extract reader .plenty index).1 = some bytes) : IsItem Z index entry bytes := by
  obtain ⟨p, hp, hpath, hinfo⟩ := properties_of_openArchive hopen hentry
  obtain ⟨hproducer, -⟩ := openArchive_fresh hopen
  have hrequest : ∃ s', Z.request reader .plenty index Z.begin = some (bytes, s') := by
    rw [SevenZip.extract] at hextract
    split at hextract
    · cases hextract
    rw [hproducer] at hextract
    simp only [ite_self, Resources.plenty, Option.getD_none, Bool.not_true, Bool.false_eq_true, and_false,
      if_false] at hextract
    split at hextract
    · cases hextract
    · rename_i output s' houtput
      obtain rfl := Option.some.inj hextract
      exact ⟨s', houtput⟩
  obtain ⟨s', hrequest⟩ := hrequest
  obtain ⟨⟨active, s⟩, hrun, hdecode⟩ := Option.bind_eq_some_iff.mp hrequest
  obtain ⟨rfl, hsize, hvisits⟩ := visits_of_runTo hrun
  have hlength := length_decodeItem hdecode
  refine ⟨p, s, s', hp, hpath, ?_, hvisits, by rw [hlength]; exact hdecode⟩
  rw [hlength, hinfo, infoOf]
  rw [hinfo, infoOf] at hsize
  cases hp' : p.size with
  | none =>
    rw [hp'] at hsize
    exact absurd hsize (Nat.not_succ_le_self maxEntryBytes)
  | some size => rfl

end SevenZip

/-! ## All archives -/

section All

open ArchiveReader

variable {σ τ : Type} {L : LibArchive σ} {Z : SevenZip τ}

theorem isFile_of_extract {magic : Bytes} {reader : ArchiveReader σ τ} (hmagic : SevenZip.handles magic = false)
    (hopen : openReader L Z magic = some reader) {index : ℕ} {entry : ZipEntry} {bytes : Bytes}
    (hentry : reader.entries[index]? = some entry)
    (hextract : (extract L Z reader ⟨.plenty, index, false⟩).1 = some bytes) : IsFile L index entry bytes := by
  rw [openReader, hmagic, if_neg Bool.false_ne_true] at hopen
  simp only [Option.bind_eq_bind, Option.bind_eq_some_iff] at hopen
  obtain ⟨s₀, hstream, entries, hscan, hpure⟩ := hopen
  obtain rfl := Option.some.inj hpure
  obtain ⟨h, s, hheader, hpath⟩ := headerAt_of_scanEntries hscan hentry
  simp only [extract] at hextract
  split at hextract
  · cases hextract
  simp only [Option.filter_none, Resources.plenty, if_true, hstream, extractFrom, resetStream] at hextract
  have hfound := seekEntry_eq (L := L) (Nat.zero_le index) s₀
  rw [Nat.sub_zero, hheader] at hfound
  rw [hfound] at hextract
  dsimp only at hextract
  split at hextract
  · cases hextract
  · rename_i out s' hread
    obtain rfl := Option.some.inj hextract
    exact ⟨s₀, h, s, s', hstream, hheader, hpath, size_of_readEntry hread, hread⟩

/-- Under each position of the listing of an opened archive, the entry is listed that a request for it
extracts, whatever was requested before. -/
def ReaderAgrees (L : LibArchive σ) (Z : SevenZip τ) (magic : Bytes) : Prop :=
  ∀ reader calls c entry bytes, openReader L Z magic = some reader → reader.entries[c.index]? = some entry →
    (extract L Z (extracts L Z reader calls) c).1 = some bytes →
    if SevenZip.handles magic then IsItem Z c.index entry bytes else IsFile L c.index entry bytes

theorem readerAgrees (hL : Discards L) (hZ : Z.GoesOn) (magic : Bytes) : ReaderAgrees L Z magic := by
  intro reader calls c entry bytes hopen hentry hextract
  have hfresh : fresh reader = reader := fresh_openReader hopen
  obtain ⟨hvalid, hsame⟩ := extracts_spec hL hZ calls (hfresh ▸ valid_fresh (L := L) (Z := Z) reader)
  obtain ⟨-, hok, -⟩ := extract_spec hL hZ hvalid c
  rw [hsame, hfresh] at hok
  -- A freshly opened archive extracts the same.
  have hextract' := hok bytes hextract
  cases hmagic : SevenZip.handles magic with
  | false =>
    rw [if_neg Bool.false_ne_true]
    exact isFile_of_extract hmagic hopen hentry hextract'
  | true =>
    rw [if_pos rfl]
    rw [openReader, if_pos hmagic] at hopen
    obtain ⟨sevenzip, hsevenzip, rfl⟩ := Option.map_eq_some_iff.mp hopen
    exact isItem_of_extract hsevenzip hentry hextract'

/-- An archive, at the root or in another one, and the libraries that may read it. -/
structure Archive (σ τ : Type) where
  kind : ArchiveKind
  passwordEmpty : Bool
  magic : Bytes
  miniz : Miniz
  lib : LibArchive σ
  sevenZip : SevenZip τ

def kindIsZip (k : ArchiveKind) : Bool := k = .zip || k = .cbz

namespace Archive

variable (A : Archive σ τ)

/-- The archive is listed and extracted by the library for ZIP files. -/
def byMiniz : Bool := kindIsZip A.kind && A.passwordEmpty

/-- Listing and extraction agree. -/
def Agrees : Prop := if A.byMiniz then ZipAgrees A.miniz else ReaderAgrees A.lib A.sevenZip A.magic

end Archive

/-- **Listing and extraction agree** on the numbers of entries for every archive but a ZIP file without a
password in which an entry that can be read comes behind one that cannot. -/
theorem agrees_iff (A : Archive σ τ) (hL : Discards A.lib) (hZ : A.sevenZip.GoesOn) :
    A.Agrees ↔ (A.byMiniz = true → ReadableFirst A.miniz) := by
  rw [Archive.Agrees]
  cases A.byMiniz with
  | true => simpa using zipAgrees_iff A.miniz
  | false => simpa using readerAgrees hL hZ A.magic

/-- Three entries, and nothing can be found out about the first one. -/
def leftOut : Miniz where
  numFiles := 3
  numFiles_lt := by decide
  fileStat i :=
    match i with
    | 1 => some ⟨[0x61], zipUtf8BitFlag, 1, 1⟩
    | 2 => some ⟨[0x62], zipUtf8BitFlag, 1, 1⟩
    | _ => none
  isFileADirectory _ := false

/-- An entry holds its number. -/
def leftOutData : ZipData where
  extractToMem i size := some (List.replicate size (UInt8.ofNat i))
  length_extractToMem h := by rw [← Option.some.inj h, List.length_replicate]

def leftOutArchive : Archive (Bytes × List (ArchiveHeader × Bytes)) (List (ℕ × Bytes)) :=
  ⟨.zip, true, [], leftOut, ofFiles [], SevenZip.ofItems []⟩

/-- The second file is listed under the number of the first one, whose contents it gets. -/
theorem leftOut_not_agrees : ¬leftOutArchive.Agrees ∧
    (zipList leftOut)[1]? = some ⟨[0x62], false⟩ ∧ zipExtract leftOut leftOutData true 1 = some [1] ∧
    importOne leftOut leftOutData 1 = some [1] ∧ leftOutData.extractToMem 2 1 = some [2] := by
  refine ⟨?_, rfl, rfl, rfl, rfl⟩
  intro h
  have hfirst : ReadableFirst leftOut := (zipAgrees_iff leftOut).mp h
  cases hfirst 1 0 (by decide) (by decide) rfl

theorem agrees_iff_leftOut :
    leftOutArchive.Agrees ↔ (leftOutArchive.byMiniz = true → ReadableFirst leftOutArchive.miniz) :=
  agrees_iff leftOutArchive (discards_ofFiles []) (SevenZip.goesOn_ofItems [])

end All

end EntryNumbers

end SafeVault
