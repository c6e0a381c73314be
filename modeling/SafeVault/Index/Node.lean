import SafeVault.Lib.AsciiFold
import SafeVault.Lib.LeafTree

/-!
# The in-memory index

A vault is a tree of nodes with a list of saved searches and one record of vault-wide settings. A
gallery node holds child nodes; an image or a video is a leaf. In the source the three kinds share
one struct with a type byte and room for every payload; here the kind is the constructor, so a medium
with children or a gallery with a chunk location cannot be written down.

Enumerations whose byte is read from a blob without a range check (`ImageFormat`, `VideoContainer`,
`VideoCodec`) are the raw byte with names for the values that matter. `SortKey` is range-checked
wherever it is read, and is an enumeration proper.
-/

namespace SafeVault

/-! ## Limits -/

/-- The size of every random identifier. -/
def nodeIdSize : ℕ := 16

/-- A stable random identity: sixteen bytes. -/
@[ext] structure NodeId where
  bytes : Bytes
  size : bytes.length = nodeIdSize
  deriving DecidableEq

namespace NodeId

/-- The identity a record has before one was ever assigned. -/
def zero : NodeId := ⟨List.replicate nodeIdSize 0, List.length_replicate⟩

/-- Sixteen bytes as an identity. -/
def ofBytes (bs : Bytes) : NodeId := if h : bs.length = nodeIdSize then ⟨bs, h⟩ else zero

@[simp] theorem ofBytes_bytes (v : NodeId) : ofBytes v.bytes = v := by
  rw [ofBytes, dif_pos v.size]

end NodeId

def indexVersion : UInt8 := 13

/-- The deepest level of a tree that the reader accepts; the root is at level `0`. -/
def indexMaxDepth : ℕ := 128

def indexMaxTags : ℕ := 4096

def indexMaxVideoChunks : ℕ := 2 ^ 20

def indexMaxSavedSearches : ℕ := 4096

def indexMaxSavedQueryBytes : ℕ := 2 ^ 20

def indexMaxTagCategories : ℕ := 256

def indexMaxCategoryBytes : ℕ := 64

def indexMaxTagDescriptions : ℕ := 4096

def indexMaxTagDescBytes : ℕ := 512

def indexMaxTemplateFields : ℕ := 16

def indexMaxFieldBytes : ℕ := 64

def indexMaxFieldValueBytes : ℕ := 256

def indexMaxTagFieldValues : ℕ := 16384

/-- The number of colours a tag category can have. -/
def tagSwatchCount : ℕ := 16

/-! ## Enumerations -/

/-- The format tag of a stored image, as the raw byte. -/
structure ImageFormat where
  toByte : UInt8
  deriving DecidableEq

def ImageFormat.unknown : ImageFormat := ⟨255⟩

/-- The container tag of a stored video, as the raw byte. -/
structure VideoContainer where
  toByte : UInt8
  deriving DecidableEq

def VideoContainer.unknown : VideoContainer := ⟨255⟩

/-- The codec tag of a stored video, as the raw byte. -/
structure VideoCodec where
  toByte : UInt8
  deriving DecidableEq

def VideoCodec.unknown : VideoCodec := ⟨255⟩

/-- The order of a gallery's children. `default` defers to the vault-wide setting; `insertion` is
the order of import. -/
inductive SortKey where
  | default | nameAsc | nameDesc | dateAsc | dateDesc | sizeAsc | sizeDesc | insertion
  deriving DecidableEq

namespace SortKey

def toByte : SortKey → UInt8
  | default => 0
  | nameAsc => 1
  | nameDesc => 2
  | dateAsc => 3
  | dateDesc => 4
  | sizeAsc => 5
  | sizeDesc => 6
  | insertion => 7

/-- The cast from a byte; only used below the range checks of the reader. -/
def ofByte (b : UInt8) : SortKey :=
  if b = 1 then nameAsc
  else if b = 2 then nameDesc
  else if b = 3 then dateAsc
  else if b = 4 then dateDesc
  else if b = 5 then sizeAsc
  else if b = 6 then sizeDesc
  else if b = 7 then insertion
  else default

@[simp] theorem ofByte_toByte (k : SortKey) : ofByte k.toByte = k := by
  cases k <;> rfl

theorem toByte_le (k : SortKey) : k.toByte ≤ insertion.toByte := by
  cases k <;> decide

end SortKey

/-! ## Media -/

/-- What is stored for one image: properties and the locations of its two chunks. A thumbnail of
length `0` is absent. -/
structure ImageMeta where
  format : ImageFormat := .unknown
  width : UInt32 := 0
  height : UInt32 := 0
  origSize : UInt64 := 0
  createdTs : UInt64 := 0
  dataOffset : UInt64 := 0
  dataLength : UInt64 := 0
  thumbOffset : UInt64 := 0
  thumbLength : UInt64 := 0
  animated : Bool := false
  dataId : NodeId := .zero
  thumbId : NodeId := .zero
  contextBound : Bool := false
  deriving DecidableEq

/-- The location of one encrypted piece of a video. -/
structure VideoChunk where
  offset : UInt64 := 0
  length : UInt64 := 0
  sequence : UInt32 := 0
  id : NodeId := .zero
  deriving DecidableEq

/-- What is stored for one video: properties, the ordered chunks and the poster. A poster of length
`0` is absent. -/
structure VideoMeta where
  container : VideoContainer := .unknown
  codec : VideoCodec := .unknown
  width : UInt32 := 0
  height : UInt32 := 0
  durationUs : UInt64 := 0
  origSize : UInt64 := 0
  createdTs : UInt64 := 0
  chunkSize : UInt32 := 0
  chunks : List VideoChunk := []
  posterOffset : UInt64 := 0
  posterLength : UInt64 := 0
  posterId : NodeId := .zero
  contextBound : Bool := false
  deriving DecidableEq

/-- The payload of a leaf. -/
inductive Media where
  | image (img : ImageMeta)
  | video (vid : VideoMeta)
  deriving DecidableEq

/-! ## Nodes -/

/-- What every node carries. Without `tagProvenance` all tags count as explicit. -/
structure NodeHeader where
  name : Bytes
  tags : List Bytes := []
  tagProvenance : Bool := false
  explicitTags : List Bytes := []
  tagBundles : List NodeId := []
  favorite : Bool := false
  sortKey : SortKey := .default
  nodeId : NodeId := .zero
  deriving DecidableEq

instance : Inhabited NodeHeader := ⟨{ name := [] }⟩

instance : Inhabited Media := ⟨.image {}⟩

/-- A tree of galleries with some payload at the leaves. What only concerns names, tags and the
shape of the tree is written for any payload. -/
abbrev Node (μ : Type) := LeafTree NodeHeader μ

/-- The tree of galleries and media. -/
abbrev IndexNode := Node Media

namespace LeafTree

variable {μ : Type}

/-- A gallery is a branch; a medium is a leaf. -/
def isGallery : Node μ → Bool
  | branch _ _ => true
  | leaf _ _ => false

/-- Whether a node has the given name. -/
def named (name : Bytes) (t : Node μ) : Bool := t.label.name == name

/-- A new gallery: only the name is set. -/
def gallery (name : Bytes) : Node μ := branch { name := name } []

end LeafTree

/-! ## Searches and settings -/

/-- A saved search: a name and an opaque query. -/
structure SavedSearch where
  name : Bytes
  query : Bytes
  deriving DecidableEq

/-- A tag category: the colour of the tags with its prefix and an optional template of fields. -/
structure TagCategory where
  name : Bytes
  swatch : UInt8 := 0
  fields : List Bytes := []
  deriving DecidableEq

/-- The free text describing a tag. -/
structure TagDescription where
  tag : Bytes
  text : Bytes
  deriving DecidableEq

/-- The value of one template field of one tag. -/
structure TagFieldValue where
  tag : Bytes
  field : Bytes
  value : Bytes
  deriving DecidableEq

/-- A named set of tags that is applied as a whole. -/
structure TagBundle where
  id : NodeId := .zero
  name : Bytes
  tags : List Bytes
  deriving DecidableEq

/-- Vault-wide settings. The defaults are those of a value-initialised record. -/
structure VaultSettings where
  tagBundles : List TagBundle := []
  defaultSort : SortKey := .insertion
  tilesShowTags : Bool := true
  categories : List TagCategory := []
  tagDescriptions : List TagDescription := []
  tagFieldValues : List TagFieldValue := []
  migratedIndexVersion : UInt8 := 0
  migratedProbeCaps : UInt16 := 0
  migratedThumbSide : UInt16 := 0
  deriving DecidableEq

/-- The ASCII bytes of a literal. -/
def ascii (s : String) : Bytes := s.toList.map fun c ↦ UInt8.ofNat c.toNat

/-- The categories of a vault that has never stored any. -/
def VaultSettings.seeded : VaultSettings where
  categories :=
    [⟨ascii "artist", 0, []⟩, ⟨ascii "character", 1, []⟩, ⟨ascii "parody", 2, []⟩,
      ⟨ascii "group", 3, []⟩, ⟨ascii "language", 4, []⟩, ⟨ascii "series", 5, []⟩,
      ⟨ascii "male", 6, []⟩, ⟨ascii "female", 7, []⟩]

/-- Two spellings of one tag. -/
def tagCiEqual (a b : Bytes) : Bool := AsciiFold.equal a b

/-- Two spellings of one category name; the same test as `tagCiEqual`. -/
def categoryNameEq (a b : Bytes) : Bool := AsciiFold.equal a b

end SafeVault
