import SafeVault.Index.ByteIo

/-!
# The index blob

The whole index is one blob: a version byte, the tree in pre-order, the saved searches and the
settings. The writer always writes version `13`. The reader accepts versions `1` to `13`; each later
version added fields at fixed places, and a field absent from an older blob gets a default.

The writer clamps: a string too long for its field is cut, a list too long loses its tail. The
reader rejects: a length, count or enumeration byte beyond its limit ends the parse. Tag bundles and
tag provenance are not part of this format at all.

## Depth

The reader bounds its recursion. Here `readNode` recurses on the number of levels left, so the call
with `left + 1` is the source's call at depth `indexMaxDepth - left`, and the call with `0` is the
one beyond the limit that returns at once.
-/

namespace SafeVault

/-! ## Writing -/

namespace ByteWriter

/-- A length-prefixed string, cut at `cap` bytes. -/
def str (cap : ℕ) (s : Bytes) : Bytes :=
  u16 (UInt16.ofNat (min s.length cap)) ++ s.take cap

/-- A counted list of at most `cap` entries, each written by `w`. -/
def list {α : Type} (cap : ℕ) (w : α → Bytes) (xs : List α) : Bytes :=
  u16 (UInt16.ofNat (min xs.length cap)) ++ (xs.take cap).flatMap w

end ByteWriter

open ByteWriter in
/-- The part of `write_node` common to all node types, after the type byte. -/
def writeHeader (h : NodeHeader) : Bytes :=
  str 0xFFFF h.name ++ list indexMaxTags (str 0xFFFF) h.tags ++ flag h.favorite ++
    u8 h.sortKey.toByte ++ ByteWriter.id h.nodeId

open ByteWriter in
/-- The image branch of `write_node`. -/
def writeImageMeta (m : ImageMeta) : Bytes :=
  u8 m.format.toByte ++ u32 m.width ++ u32 m.height ++ u64 m.origSize ++ u64 m.createdTs ++
    u64 m.dataOffset ++ u64 m.dataLength ++ u64 m.thumbOffset ++ u64 m.thumbLength ++
    flag m.animated ++ flag m.contextBound ++ ByteWriter.id m.dataId ++ ByteWriter.id m.thumbId

open ByteWriter in
def writeVideoChunk (c : VideoChunk) : Bytes :=
  u64 c.offset ++ u64 c.length ++ u32 c.sequence ++ ByteWriter.id c.id

open ByteWriter in
/-- The video branch of `write_node`. -/
def writeVideoMeta (m : VideoMeta) : Bytes :=
  u8 m.container.toByte ++ u8 m.codec.toByte ++ u32 m.width ++ u32 m.height ++
    u64 m.durationUs ++ u64 m.origSize ++ u64 m.createdTs ++ u32 m.chunkSize ++
    u32 (UInt32.ofNat (min m.chunks.length indexMaxVideoChunks)) ++
    (m.chunks.take indexMaxVideoChunks).flatMap writeVideoChunk ++
    u64 m.posterOffset ++ u64 m.posterLength ++ flag m.contextBound ++ ByteWriter.id m.posterId

open ByteWriter in
def writeNode : IndexNode → Bytes :=
  LeafTree.fold
    (fun h cs ↦ u8 0 ++ writeHeader h ++ u32 (UInt32.ofNat cs.length) ++ cs.flatten)
    (fun h m ↦ match m with
      | .image img => u8 1 ++ writeHeader h ++ writeImageMeta img
      | .video vid => u8 2 ++ writeHeader h ++ writeVideoMeta vid)

open ByteWriter in
def writeSavedSearch (s : SavedSearch) : Bytes :=
  str 0xFFFF s.name ++ u32 (UInt32.ofNat (min s.query.length indexMaxSavedQueryBytes)) ++
    s.query.take indexMaxSavedQueryBytes

def writeSavedSearches (searches : List SavedSearch) : Bytes :=
  ByteWriter.list indexMaxSavedSearches writeSavedSearch searches

open ByteWriter in
/-- One entry of `write_categories_block`. An unknown colour is written as `0`. -/
def writeCategory (c : TagCategory) : Bytes :=
  str indexMaxCategoryBytes c.name ++ u8 (if c.swatch.toNat < tagSwatchCount then c.swatch else 0) ++
    u8 (UInt8.ofNat (min c.fields.length indexMaxTemplateFields)) ++
    (c.fields.take indexMaxTemplateFields).flatMap (str indexMaxFieldBytes)

def writeCategoriesBlock (categories : List TagCategory) : Bytes :=
  ByteWriter.list indexMaxTagCategories writeCategory categories

def writeDescription (d : TagDescription) : Bytes :=
  ByteWriter.str 0xFFFF d.tag ++ ByteWriter.str indexMaxTagDescBytes d.text

def writeDescriptionsBlock (descriptions : List TagDescription) : Bytes :=
  ByteWriter.list indexMaxTagDescriptions writeDescription descriptions

def writeFieldValue (e : TagFieldValue) : Bytes :=
  ByteWriter.str 0xFFFF e.tag ++ ByteWriter.str indexMaxFieldBytes e.field ++
    ByteWriter.str indexMaxFieldValueBytes e.value

def writeFieldValuesBlock (values : List TagFieldValue) : Bytes :=
  ByteWriter.list indexMaxTagFieldValues writeFieldValue values

open ByteWriter in
def writeSettings (s : VaultSettings) : Bytes :=
  u8 s.defaultSort.toByte ++ flag s.tilesShowTags ++ writeCategoriesBlock s.categories ++
    writeDescriptionsBlock s.tagDescriptions ++
    u8 (if s.migratedIndexVersion > indexVersion then 0 else s.migratedIndexVersion) ++
    u16 s.migratedProbeCaps ++ writeFieldValuesBlock s.tagFieldValues ++ u16 s.migratedThumbSide

/-- The blob of an index. -/
def serializeIndex (root : IndexNode) (searches : List SavedSearch) (settings : VaultSettings) :
    Bytes :=
  ByteWriter.u8 indexVersion ++ writeNode root ++ writeSavedSearches searches ++
    writeSettings settings

/-! ## Reading -/

open Read

/-- A length-prefixed string. -/
def readString : ByteReader Bytes := do
  let len ← ByteReader.u16
  check true
  if 0 < len.toNat then do
    let s ← ByteReader.bytes len.toNat
    check true
    pure s
  else pure []

/-- A length-prefixed string within a byte cap, checked before anything is allocated. -/
def readFieldStr (cap : ℕ) : ByteReader Bytes := do
  let len ← ByteReader.u16
  check (len.toNat ≤ cap)
  if 0 < len.toNat then do
    let s ← ByteReader.bytes len.toNat
    check true
    pure s
  else pure []

/-- A counted list of at most `cap` entries, the count checked before anything is allocated. -/
def readList {α : Type} (cap : ℕ) (same : α → α → Bool) (m : ByteReader α) :
    ByteReader (List α) := do
  let count ← ByteReader.u16
  check (count.toNat ≤ cap)
  collect same m count.toNat []

/-- A field that blobs have since version `first`; older ones read as the default. -/
def since {α : Type} (first version : UInt8) (m : ByteReader α) (dflt : α) : ByteReader α :=
  if version ≥ first then m else pure dflt

def readTags : ByteReader (List Bytes) := readList indexMaxTags (fun _ _ ↦ false) readString

/-- A byte that must be `0` or `1`. -/
def readFlag : ByteReader Bool := do
  let b ← ByteReader.u8
  check (b ≤ 1)
  pure (b == 1)

def readImageMeta (version : UInt8) : ByteReader ImageMeta := do
  let format ← ByteReader.u8
  let width ← ByteReader.u32
  let height ← ByteReader.u32
  let origSize ← ByteReader.u64
  let createdTs ← ByteReader.u64
  let dataOffset ← ByteReader.u64
  let dataLength ← ByteReader.u64
  let thumbOffset ← ByteReader.u64
  let thumbLength ← ByteReader.u64
  check true
  let animated ← since 7 version readFlag false
  let m : ImageMeta :=
    { format := ⟨format⟩, width, height, origSize, createdTs, dataOffset, dataLength, thumbOffset,
      thumbLength, animated }
  if version ≥ 13 then do
    let contextBound ← readFlag
    let dataId ← ByteReader.id
    let thumbId ← ByteReader.id
    check true
    pure { m with contextBound, dataId, thumbId }
  else pure m

def readVideoChunk (version : UInt8) : ByteReader VideoChunk := do
  let offset ← ByteReader.u64
  let length ← ByteReader.u64
  if version ≥ 13 then do
    let sequence ← ByteReader.u32
    let id ← ByteReader.id
    check true
    pure { offset, length, sequence, id }
  else do
    check true
    pure { offset, length }

def readVideoMeta (version : UInt8) : ByteReader VideoMeta := do
  let container ← ByteReader.u8
  let codec ← ByteReader.u8
  let width ← ByteReader.u32
  let height ← ByteReader.u32
  let durationUs ← ByteReader.u64
  let origSize ← ByteReader.u64
  let createdTs ← ByteReader.u64
  let chunkSize ← ByteReader.u32
  let n ← ByteReader.u32
  check (n.toNat ≤ indexMaxVideoChunks)
  let chunks ← collect (fun _ _ ↦ false) (readVideoChunk version) n.toNat []
  let posterOffset ← ByteReader.u64
  let posterLength ← ByteReader.u64
  let m : VideoMeta :=
    { container := ⟨container⟩, codec := ⟨codec⟩, width, height, durationUs, origSize, createdTs,
      chunkSize, chunks, posterOffset, posterLength }
  if version ≥ 13 then do
    let contextBound ← readFlag
    let posterId ← ByteReader.id
    check true
    pure { m with contextBound, posterId }
  else do
    check true
    pure m

/-- Versions `6` and `7` knew the orders up to `sizeDesc`; version `8` added `insertion`. -/
def readSortKey (version : UInt8) : ByteReader SortKey := do
  let sk ← ByteReader.u8
  check (sk ≤ if version ≥ 8 then SortKey.insertion.toByte else SortKey.sizeDesc.toByte)
  pure (.ofByte sk)

/-- Any byte but `0` marks a favorite. -/
def readFavorite : ByteReader Bool := do
  let fav ← ByteReader.u8
  check true
  pure (fav != 0)

def readNodeId : ByteReader NodeId := do
  let id ← ByteReader.id
  check true
  pure id

/-- Everything in a node between its type and its payload. -/
def readHeader (version : UInt8) : ByteReader NodeHeader := do
  let name ← readString
  let tags ← since 2 version readTags []
  let favorite ← since 3 version readFavorite false
  let sortKey ← since 6 version (readSortKey version) .default
  let nodeId ← since 13 version readNodeId .zero
  pure { name, tags, favorite, sortKey, nodeId }

/-- A node and everything below it, with `left` levels of nesting still allowed. -/
def readNode (version : UInt8) (left : ℕ) : ByteReader IndexNode :=
  match left with
  | 0 => do
    allocate
    refuse
  | left + 1 => node (indexMaxDepth - left) ByteReader.u8 fun type ↦ do
    check (type == 0 || type == 1 || (type == 2 && version ≥ 4))
    let h ← readHeader version
    if type = 1 then do
      let m ← readImageMeta version
      pure (.leaf h (.image m))
    else if type = 2 then do
      let m ← readVideoMeta version
      pure (.leaf h (.video m))
    else do
      let childCount ← ByteReader.u32
      check true
      let children ← collect (fun _ _ ↦ false)
        (check true >>= fun _ ↦ readNode version left) childCount.toNat []
      pure (.branch h children)

def readSavedSearch : ByteReader SavedSearch := do
  let name ← readString
  let qLen ← ByteReader.u32
  check (qLen.toNat ≤ indexMaxSavedQueryBytes)
  if 0 < qLen.toNat then do
    let query ← ByteReader.bytes qLen.toNat
    check true
    pure { name, query }
  else pure { name, query := [] }

def readSavedSearches : ByteReader (List SavedSearch) :=
  readList indexMaxSavedSearches (fun _ _ ↦ false) readSavedSearch

/-- The template of a category; a field repeated up to case is dropped. -/
def readCategoryFieldsV11 : ByteReader (List Bytes) := do
  let fieldCount ← ByteReader.u8
  check (fieldCount.toNat ≤ indexMaxTemplateFields)
  collect categoryNameEq (readFieldStr indexMaxFieldBytes) fieldCount.toNat []

def readCategory (version : UInt8) : ByteReader TagCategory := do
  let name ← readFieldStr indexMaxCategoryBytes
  let swatch ← ByteReader.u8
  check (swatch.toNat < tagSwatchCount)
  let fields ← since 11 version readCategoryFieldsV11 []
  pure { name, swatch, fields }

/-- A category repeated up to case is dropped, with its colour and template. -/
def readCategories (version : UInt8) : ByteReader (List TagCategory) :=
  readList indexMaxTagCategories (fun e c ↦ categoryNameEq e.name c.name) (readCategory version)

def readDescription : ByteReader TagDescription := do
  let tag ← readString
  let text ← readFieldStr indexMaxTagDescBytes
  pure { tag, text }

def readDescriptions : ByteReader (List TagDescription) :=
  readList indexMaxTagDescriptions (fun e d ↦ categoryNameEq e.tag d.tag) readDescription

def readFieldValue : ByteReader TagFieldValue := do
  let tag ← readFieldStr 0xFFFF
  let field ← readFieldStr indexMaxFieldBytes
  let value ← readFieldStr indexMaxFieldValueBytes
  pure { tag, field, value }

def readFieldValues : ByteReader (List TagFieldValue) :=
  readList indexMaxTagFieldValues
    (fun x e ↦ categoryNameEq x.tag e.tag && categoryNameEq x.field e.field) readFieldValue

/-- The settings block. Versions `8` to `11` end it early, each after its own last field. -/
def readSettings (version : UInt8) : ByteReader VaultSettings := do
  let sort ← ByteReader.u8
  check (sort ≤ SortKey.insertion.toByte)
  let tilesShowTags ← readFlag
  let categories ← readCategories version
  let s : VaultSettings := { defaultSort := .ofByte sort, tilesShowTags, categories }
  if version < 9 then pure s else do
  let tagDescriptions ← readDescriptions
  let s := { s with tagDescriptions }
  if version < 10 then pure s else do
  let migratedIndexVersion ← ByteReader.u8
  check (migratedIndexVersion ≤ indexVersion)
  let migratedProbeCaps ← ByteReader.u16
  check true
  let s := { s with migratedIndexVersion, migratedProbeCaps }
  if version < 11 then pure s else do
  let tagFieldValues ← readFieldValues
  let s := { s with tagFieldValues }
  if version < 12 then pure s else do
  let migratedThumbSide ← ByteReader.u16
  check true
  pure { s with migratedThumbSide }

/-- What one blob carries. -/
structure Index where
  root : IndexNode
  searches : List SavedSearch
  settings : VaultSettings

/-- The blob up to the test that nothing follows. -/
def readIndex : ByteReader Index := do
  let version ← ByteReader.u8
  check (1 ≤ version && version ≤ indexVersion)
  let root ← readNode version (indexMaxDepth + 1)
  let searches ← since 5 version readSavedSearches []
  let settings ← since 8 version (readSettings version) .seeded
  pure { root, searches, settings }

/-- The cursor and the result after a whole blob was read. -/
def runIndex (blob : Bytes) : Option Index × Cursor UInt8 := whole readIndex (start blob)

/-- Decode a blob, or reject it. -/
def deserializeIndex (blob : Bytes) : Option Index := (runIndex blob).1

end SafeVault
