import SafeVault.Import.ZipPlan
import SafeVault.Lib.ForwardPass
import SafeVault.Ui.Bstr

/-!
# The reader of 7z and RAR archives

The decoder goes through the archive once and asks, for one item after another, for a stream to write
to. It does so in a thread that waits until an item is requested; items before the requested one get no
stream, an item behind it ends the pass. A pass that has gone by the requested item, or that has failed,
is stopped, and another one is started.

The decoder is a parameter. Which of the two threads is the first to look at the state when a pass ends
does not change what is extracted, but it changes which error is reported; of the error it is only kept
whether there is one.
-/

namespace SafeVault

/-- The properties of an item that are asked for. A property of another type than expected is `none`. -/
structure ItemProperties where
  path : Option (List ℕ)
  isDir : Option Bool
  size : Option ℕ
  encrypted : Option Bool

structure EntryInfo where
  size : ℕ := 0
  encrypted : Bool := false

/-- What a request may not get. -/
structure Resources where
  /-- A stream or a pass can be started. -/
  starts : Bool
  /-- The output can be given its size. -/
  resizes : Bool

namespace Resources

def plenty : Resources := ⟨true, true⟩

end Resources

/-- The decoder with an archive; `τ` is where a pass is. -/
structure SevenZip (τ : Type) where
  /-- `Open` is successful. -/
  opens : Bool
  /-- There are error flags. -/
  damaged : Bool
  numberOfItems : Option ℕ
  getProperties : ℕ → Option ItemProperties
  begin : τ
  /-- The pass asks for the stream of an item, or it ends. -/
  visit : τ → Option (ℕ × τ)
  /-- It has got no stream. -/
  skip : τ → τ
  /-- It has got a stream: what it writes, and the result of the operation unless the pass ends first. -/
  decode : τ → List Bytes × Option (ℕ × τ)
  /-- How many items it may still ask for. -/
  left : τ → ℕ
  left_skip : ∀ {s i s'}, visit s = some (i, s') → left (skip s') < left s

/-- The reader with an opened archive. -/
structure SevenZipReader (τ : Type) where
  entries : List ZipEntry
  info : List EntryInfo
  /-- The pass that is there. -/
  producer : Option τ := none
  next : ℕ := 0
  /-- The last request has left an error. -/
  failed : Bool := false
  opens : ℕ := 0

namespace SevenZip

def maxEntryBytes : ℕ := 4 <<< 30

def maxEntries : ℕ := 100000

/-- `NOperationResult::kOK`. -/
def kOK : ℕ := 0

/-- `SevenZipReader::handles`. -/
def handles (bytes : Bytes) : Bool :=
  7 ≤ bytes.length && (bytes.take 6 = [0x37, 0x7A, 0xBC, 0xAF, 0x27, 0x1C] ||
    bytes.take 6 = [0x52, 0x61, 0x72, 0x21, 0x1A, 7])

variable {τ : Type} (Z : SevenZip τ)

/-! ## Opening -/

def entryOf (p : ItemProperties) : ZipEntry := ⟨(p.path.map Bstr.bstrUtf8).getD [], p.isDir.getD false⟩

/-- An item without a size has one that is refused. -/
def infoOf (p : ItemProperties) : EntryInfo := ⟨p.size.getD (maxEntryBytes + 1), p.encrypted.getD false⟩

def listEntries : Option (List ZipEntry × List EntryInfo) := do
  let count ← Z.numberOfItems
  guard (count ≤ maxEntries)
  let properties ← (List.range count).mapM Z.getProperties
  return (properties.map entryOf, properties.map infoOf)

def openArchive : Option (SevenZipReader τ) := do
  guard Z.opens
  guard (!Z.damaged)
  let (entries, info) ← Z.listEntries
  return { entries, info }

/-! ## A pass -/

/-- What the pass is told when it asks for a stream. -/
inductive Answer where
  | noStream | stream | fail
  deriving DecidableEq

/-- `ExtractCallback::GetStream`. -/
def getStream (reader : SevenZipReader τ) (e : Resources) (target index : ℕ) : Answer :=
  if reader.info.length ≤ index then .fail
  else if (reader.entries.getD index ⟨[], false⟩).isDir then .noStream
  else if index < target then .noStream
  else if target < index then .fail
  else if maxEntryBytes < (reader.info.getD index {}).size ∨ !e.resizes then .fail
  else .stream

/-- `Output::Write`. -/
def write (size : ℕ) (written data : Bytes) : Option Bytes :=
  if size - written.length < data.length then none else some (written ++ data)

/-- What the pass writes for an item, until `SetOperationResult` finds it complete. -/
def decodeItem (size : ℕ) (s : τ) : Option (Bytes × τ) := do
  let written ← (Z.decode s).1.foldlM (write size) []
  let (result, s') ← (Z.decode s).2
  guard (result = kOK ∧ written.length = size)
  return (written, s')

/-- The pass until it has got a stream. -/
def runTo (reader : SevenZipReader τ) (e : Resources) (target : ℕ) (s : τ) : Option (ℕ × τ) :=
  match _h : Z.visit s with
  | none => none
  | some (index, s') =>
    match getStream reader e target index with
    | .fail => none
    | .noStream => runTo reader e target (Z.skip s')
    | .stream => some (index, s')
termination_by Z.left s
decreasing_by exact Z.left_skip _h

/-- The output for the requested item, if the pass gets so far. -/
def request (reader : SevenZipReader τ) (e : Resources) (target : ℕ) (s : τ) : Option (Bytes × τ) := do
  let (active, s') ← Z.runTo reader e target s
  Z.decodeItem (reader.info.getD active {}).size s'

/-- `SevenZipReader::extract`. A pass that has failed is not used again, wherever it is. -/
def extract (reader : SevenZipReader τ) (e : Resources) (index : ℕ) : Option Bytes × SevenZipReader τ :=
  if reader.entries.length ≤ index ∨ (reader.entries.getD index ⟨[], false⟩).isDir then (none, reader)
  else
    -- The other pass is stopped and its thread is joined.
    let kept := if index < reader.next ∨ reader.failed then none else reader.producer
    let opens := if kept.isSome then reader.opens else reader.opens + 1
    let s := kept.getD Z.begin
    match if kept.isNone ∧ !e.starts then none else Z.request reader e index s with
    | none => (none, { reader with producer := some s, next := index + 1, failed := true, opens })
    | some (output, s') =>
      (some output, { reader with producer := some s', next := index + 1, failed := false, opens })

/-! ## As a pass that goes forward -/

/-- An item that was written leaves the pass like one that has got no stream. -/
def GoesOn : Prop := ∀ s chunks s', Z.decode s = (chunks, some (kOK, s')) → Z.visit s' = Z.visit (Z.skip s)

def take (info : List EntryInfo) (e : Resources) (index : ℕ) (s : τ) : Except Unit (Bytes × τ) :=
  if maxEntryBytes < (info.getD index {}).size ∨ !e.resizes then .error ()
  else
    match Z.decodeItem (info.getD index {}).size s with
    | none => .error ()
    | some x => .ok x

def pass (info : List EntryInfo) : ForwardPass τ ℕ Resources Unit Bytes where
  start e := if e.starts then some Z.begin else none
  next := Z.visit
  skip _ := Z.skip
  take := Z.take info

open ForwardPass (Search Verdict)

/-- Where an item is, as the answers tell it; the size is looked at later. -/
def verdict (entries : List ZipEntry) (info : List EntryInfo) (target index : ℕ) : Verdict :=
  if info.length ≤ index then .beyond
  else if (entries.getD index ⟨[], false⟩).isDir then .before
  else if index < target then .before
  else if target < index then .beyond
  else .wanted

def search (entries : List ZipEntry) (info : List EntryInfo) : Search τ ℕ :=
  ⟨verdict entries info, fun _ ↦ Z.left⟩

variable {Z} {entries : List ZipEntry} {info : List EntryInfo} {s s' : τ} {size : ℕ} {written : Bytes}

theorem exists_decode (h : Z.decodeItem size s = some (written, s')) :
    ∃ chunks, Z.decode s = (chunks, some (kOK, s')) := by
  simp only [decodeItem, Option.bind_eq_bind, Option.bind_eq_some_iff] at h
  obtain ⟨w, -, ⟨result, s''⟩, hresult, u, hguard, hpure⟩ := h
  obtain ⟨-, rfl⟩ := Prod.mk.inj (Option.some.inj hpure)
  obtain ⟨hok, -⟩ : result = kOK ∧ w.length = size := by simpa [guard] using hguard
  exact ⟨(Z.decode s).1, by rw [← hok, ← hresult]⟩

theorem take_eq_ok {e : Resources} {index : ℕ} {x : Bytes × τ} : Z.take info e index s = .ok x ↔
    (info.getD index {}).size ≤ maxEntryBytes ∧ e.resizes = true ∧
      Z.decodeItem (info.getD index {}).size s = some x := by
  rw [take]
  generalize (info.getD index {}).size = size
  split
  · rename_i hrefused
    refine ⟨nofun, fun h ↦ ?_⟩
    rcases hrefused with hlarge | hresizes
    · exact absurd h.1 (Nat.not_le_of_lt hlarge)
    · simp [h.2.1] at hresizes
  · rename_i hfits
    simp only [not_or, Bool.not_eq_true, Bool.not_eq_false', Nat.not_lt] at hfits
    cases Z.decodeItem size s <;> simp [hfits]

theorem lawful (hZ : Z.GoesOn) : (Z.pass info).Lawful (Z.search entries info) .plenty where
  next_take := by
    intro e index s r s' htake
    obtain ⟨-, -, hdecode⟩ := take_eq_ok.mp htake
    obtain ⟨chunks, hd⟩ := exists_decode hdecode
    exact hZ s chunks s' hd
  take_good := by
    intro e index s x htake
    obtain ⟨hfits, -, hdecode⟩ := take_eq_ok.mp htake
    exact take_eq_ok.mpr ⟨hfits, rfl, hdecode⟩
  start_good := by
    intro e s hstart
    simp only [pass] at hstart ⊢
    split at hstart
    · exact hstart
    · cases hstart
  gone_by := by
    intro target later index hpassed hlater
    simp only [search, verdict] at hpassed hlater ⊢
    grind
  turns_lt := by
    intro target s index s' hnext _
    exact Z.left_skip hnext

/-- The pass that is there, unless it has failed. -/
def cursorOf (reader : SevenZipReader τ) : ForwardPass.Cursor τ :=
  if reader.failed then none else reader.producer.map fun s ↦ (s, reader.next)

theorem getStream_eq (reader : SevenZipReader τ) (e : Resources) (target index : ℕ) :
    getStream reader e target index =
      match verdict reader.entries reader.info target index with
      | .before => .noStream
      | .wanted => if maxEntryBytes < (reader.info.getD index {}).size ∨ !e.resizes then .fail else .stream
      | .beyond => .fail := by
  rw [getStream, verdict]
  grind

/-- What is requested is what a search finds and takes. -/
theorem request_eq (reader : SevenZipReader τ) (e : Resources) (target n : ℕ)
    (hn : (Z.search reader.entries reader.info).turns target s < n) : Z.request reader e target s =
      ((Z.pass reader.info).seek ((Z.search reader.entries reader.info).verdict target) n s).bind
        fun x ↦ ((Z.pass reader.info).take e x.1 x.2).toOption := by
  change (Z.runTo reader e target s).bind (fun x ↦ Z.decodeItem (reader.info.getD x.1 {}).size x.2) = _
  induction n generalizing s with
  | zero => exact absurd hn (Nat.not_lt_zero _)
  | succ n ih =>
    rw [runTo]
    split
    · rename_i hvisit
      have hnext : (Z.pass reader.info).next s = none := hvisit
      rw [ForwardPass.seek_of_end _ hnext]
      rfl
    · rename_i index s' hvisit
      have hnext : (Z.pass reader.info).next s = some (index, s') := hvisit
      rw [ForwardPass.seek_of_next _ hnext, getStream_eq]
      dsimp only [search]
      cases verdict reader.entries reader.info target index with
      | before => exact ih ((Z.left_skip hvisit).trans_le (Nat.le_of_lt_succ hn))
      | beyond => rfl
      | wanted =>
        by_cases hrefused : maxEntryBytes < (reader.info.getD index {}).size ∨ (!e.resizes) = true
        · simp only [if_pos hrefused, Option.bind_some, pass, take]
          rfl
        · simp only [if_neg hrefused, Option.bind_some, pass, take]
          cases Z.decodeItem (reader.info.getD index {}).size s' <;> rfl

/-- What a request for a file of the archive returns, and the pass that is there afterwards. -/
theorem extract_eq (reader : SevenZipReader τ) (e : Resources) (index : ℕ)
    (hindex : index < reader.entries.length) (hfile : (reader.entries.getD index ⟨[], false⟩).isDir = false) :
    let fetched := (Z.pass reader.info).fetch (Z.search reader.entries reader.info) () () e
      (cursorOf reader) index
    (Z.extract reader e index).1 = fetched.1.toOption ∧ cursorOf (Z.extract reader e index).2 = fetched.2 := by
  have hpresent : ¬(reader.entries.length ≤ index ∨ (reader.entries.getD index ⟨[], false⟩).isDir = true) := by
    rw [hfile]
    simpa using hindex
  have hkept : ((cursorOf reader).filter fun c ↦ c.2 ≤ index).map Prod.fst =
      if index < reader.next ∨ reader.failed = true then none else reader.producer := by
    rw [cursorOf]
    cases reader.failed with
    | true => simp
    | false =>
      cases reader.producer with
      | none => simp
      | some s =>
        by_cases hbehind : index < reader.next
        · simp [hbehind]
        · simp [hbehind, Nat.le_of_not_lt hbehind]
  rw [extract, if_neg hpresent]
  dsimp only
  generalize hk : (if index < reader.next ∨ reader.failed = true then none else reader.producer) = kept
    at hkept ⊢
  by_cases hstarts : kept.isNone = true ∧ (!e.starts) = true
  · have hs : (((cursorOf reader).filter fun c ↦ c.2 ≤ index).map Prod.fst).or
        ((Z.pass reader.info).start e) = none := by
      rw [hkept, Option.isNone_iff_eq_none.mp hstarts.1, Option.none_or]
      simpa [pass] using hstarts.2
    rw [ForwardPass.fetch_of_none _ _ hs, if_pos hstarts]
    exact ⟨rfl, rfl⟩
  · have hs : (((cursorOf reader).filter fun c ↦ c.2 ≤ index).map Prod.fst).or
        ((Z.pass reader.info).start e) = some (kept.getD Z.begin) := by
      rw [hkept]
      cases kept with
      | none => simpa [pass] using hstarts
      | some s => rfl
    obtain ⟨hresult, hcursor⟩ := ForwardPass.fetch_toOption (S := Z.search reader.entries reader.info) () () hs
    rw [hresult, hcursor, if_neg hstarts, ← request_eq reader e index _ (Nat.lt_add_one _)]
    cases Z.request reader e index (kept.getD Z.begin) <;> exact ⟨rfl, rfl⟩

/-- The same archive, freshly opened. -/
def fresh (reader : SevenZipReader τ) : SevenZipReader τ := { entries := reader.entries, info := reader.info }

/-- The pass that is there goes on like a new one. -/
def Valid (Z : SevenZip τ) (reader : SevenZipReader τ) : Prop :=
  (cursorOf reader).Valid (Z.pass reader.info) (Z.search reader.entries reader.info) .plenty

theorem valid_fresh (reader : SevenZipReader τ) : Z.Valid (fresh reader) := ForwardPass.Cursor.valid_none

theorem entries_extract (reader : SevenZipReader τ) (e : Resources) (index : ℕ) :
    (Z.extract reader e index).2.entries = reader.entries ∧
      (Z.extract reader e index).2.info = reader.info := by
  rw [extract]
  split
  · exact ⟨rfl, rfl⟩
  · dsimp only
    split <;> exact ⟨rfl, rfl⟩

theorem fresh_extract (reader : SevenZipReader τ) (e : Resources) (index : ℕ) :
    fresh (Z.extract reader e index).2 = fresh reader := by
  obtain ⟨hentries, hinfo⟩ := entries_extract (Z := Z) reader e index
  rw [fresh, hentries, hinfo, fresh]

/-- One request. -/
theorem extract_spec (hZ : Z.GoesOn) {reader : SevenZipReader τ} (hreader : Z.Valid reader) (e : Resources)
    (index : ℕ) :
    Z.Valid (Z.extract reader e index).2 ∧
      (∀ bytes, (Z.extract reader e index).1 = some bytes →
        (Z.extract (fresh reader) .plenty index).1 = some bytes) ∧
      (e = .plenty → (Z.extract reader e index).1 = (Z.extract (fresh reader) .plenty index).1) := by
  by_cases habsent : reader.entries.length ≤ index ∨ (reader.entries.getD index ⟨[], false⟩).isDir = true
  · have hrefused : Z.extract reader e index = (none, reader) := by rw [extract, if_pos habsent]
    have hrefused' : Z.extract (fresh reader) .plenty index = (none, fresh reader) := by
      rw [extract]
      exact if_pos habsent
    rw [hrefused, hrefused']
    exact ⟨hreader, nofun, fun _ ↦ rfl⟩
  · obtain ⟨hindex, hfile⟩ := not_or.mp habsent
    rw [Nat.not_le] at hindex
    rw [Bool.not_eq_true] at hfile
    obtain ⟨hresult, hcursor⟩ := extract_eq (Z := Z) reader e index hindex hfile
    obtain ⟨hfresh, -⟩ := extract_eq (Z := Z) (fresh reader) .plenty index hindex hfile
    obtain ⟨hvalid, hok, hplenty⟩ := ForwardPass.fetch_spec () () (lawful hZ) hreader e index
    refine ⟨?_, fun bytes h ↦ ?_, fun h ↦ ?_⟩
    · obtain ⟨hentries, hinfo⟩ := entries_extract (Z := Z) reader e index
      rw [Valid, hcursor, hentries, hinfo]
      exact hvalid
    · rw [hresult, ForwardPass.toOption_eq_some] at h
      rw [hfresh, ForwardPass.toOption_eq_some]
      exact hok bytes h
    · rw [hresult, hfresh, hplenty h]
      rfl

/-- A decoder of items in memory. -/
def ofItems (items : List (ItemProperties × Bytes)) : SevenZip (List (ℕ × Bytes)) where
  opens := true
  damaged := false
  numberOfItems := some items.length
  getProperties i := items[i]?.map Prod.fst
  begin := items.zipIdx.map fun x ↦ (x.2, x.1.2)
  visit s := s.head?.map fun x ↦ (x.1, s)
  skip := List.tail
  decode s := (s.head?.toList.map Prod.snd, s.head?.map fun _ ↦ (kOK, s.tail))
  left := List.length
  left_skip := by
    intro s i s' hvisit
    obtain ⟨x, hx, hs⟩ := Option.map_eq_some_iff.mp hvisit
    obtain ⟨-, rfl⟩ := Prod.mk.inj hs
    rw [List.length_tail]
    exact Nat.sub_lt (List.length_pos_of_ne_nil (fun h ↦ by rw [h] at hx; cases hx)) Nat.one_pos

theorem goesOn_ofItems (items : List (ItemProperties × Bytes)) : (ofItems items).GoesOn := by
  intro s chunks s' hdecode
  cases s with
  | nil => cases hdecode
  | cons x s => cases hdecode; rfl

end SevenZip

end SafeVault
