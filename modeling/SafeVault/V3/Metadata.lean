import SafeVault.Lib.Table
import SafeVault.Tags.Runs

/-!
# The metadata tables

Everything a commit writes besides nodes and objects: tags and their assignments, bundles, categories
with their templates, descriptions, field values, the settings row and the saved searches. The commit
empties these tables and fills them again, so what is modelled here is the filling, with the
constraints of the schema. Two spellings of a name are compared by the collation of the database,
which is a parameter; the program itself folds ASCII case.

An empty string is bound as a null pointer, and no column takes a null.
-/

namespace SafeVault

namespace V3

/-- `DbStatus`. -/
inductive DbStatus where
  | ok | invalidArgument | ioError | wrongKeyOrCorrupt | busy | diskFull | constraint
  | unsupportedVersion
  deriving DecidableEq

/-! ## Rows -/

structure TagRow where
  tagId : ℕ
  displayName : Bytes
  canonicalName : Bytes
  deriving DecidableEq

structure NodeTagRow where
  nodeId : NodeId
  tagId : ℕ
  displayName : Bytes
  tagOrder : ℕ
  explicitAssignment : Bool
  deriving DecidableEq

structure BundleTagRow where
  bundleId : NodeId
  tag : Bytes
  position : ℕ
  deriving DecidableEq

structure BundleRow where
  bundleId : NodeId
  name : Bytes
  deriving DecidableEq

structure NodeBundleRow where
  nodeId : NodeId
  bundleId : NodeId
  position : ℕ
  deriving DecidableEq

structure CategoryRow where
  categoryId : ℕ
  displayName : Bytes
  swatch : UInt8
  deriving DecidableEq

structure CategoryFieldRow where
  categoryId : ℕ
  fieldOrder : ℕ
  displayName : Bytes
  deriving DecidableEq

structure DescriptionRow where
  tagId : ℕ
  displayTag : Bytes
  descriptionOrder : ℕ
  description : Bytes
  deriving DecidableEq

structure FieldValueRow where
  tagId : ℕ
  categoryId : ℕ
  fieldOrder : ℕ
  displayTag : Bytes
  displayField : Bytes
  valueOrder : ℕ
  value : Bytes
  deriving DecidableEq

/-- The columns of `vault_meta` that a commit writes. -/
structure SettingsRecord where
  appGeneration : ℕ := 0
  defaultSort : UInt8 := 7
  tilesShowTags : Bool := true
  migratedIndexVersion : UInt8 := 0
  migratedProbeCaps : UInt16 := 0
  migratedThumbSide : UInt16 := 0
  deriving DecidableEq

structure SavedSearchRecord where
  searchId : ℕ
  displayName : Bytes
  query : Bytes
  deriving DecidableEq

/-- The tables a commit empties and fills again, and the settings row. -/
structure Metadata where
  tags : List TagRow := []
  nodeTags : List NodeTagRow := []
  bundles : List BundleRow := []
  bundleTags : List BundleTagRow := []
  nodeBundles : List NodeBundleRow := []
  categories : List CategoryRow := []
  categoryFields : List CategoryFieldRow := []
  descriptions : List DescriptionRow := []
  fieldValues : List FieldValueRow := []
  settings : SettingsRecord := {}
  savedSearches : List SavedSearchRecord := []
  deriving DecidableEq

/-- A value is acceptable or gets the given answer. -/
def require {ε : Type} (ok : Bool) (status : ε) : Except ε Unit :=
  if ok then .ok () else .error status

@[simp] theorem require_eq_ok_iff {ε : Type} {ok : Bool} {status : ε} :
    require ok status = .ok () ↔ ok = true := by
  rw [require]
  split_ifs with h
  · simp [h]
  · simp [h]

theorem require_bind_eq_ok_iff {ε α : Type} {ok : Bool} {status : ε} {f : Unit → Except ε α} {a : α} :
    require ok status >>= f = .ok a ↔ ok = true ∧ f () = .ok a := by
  rw [bind_eq_ok_iff]
  constructor
  · rintro ⟨⟨⟩, h, hf⟩
    exact ⟨require_eq_ok_iff.mp h, hf⟩
  · rintro ⟨h, hf⟩
    exact ⟨(), require_eq_ok_iff.mpr h, hf⟩

theorem honest_require {ok : Bool} {status : DbStatus} (h : status ≠ .ok) :
    Honest .ok (require ok status) := by
  rw [require]
  split_ifs
  exacts [honest_ok, honest_error.mpr h]

theorem honest_invalid {ok : Bool} : Honest .ok (require ok DbStatus.invalidArgument) :=
  honest_require nofun

theorem honest_constraint {ok : Bool} : Honest .ok (require ok DbStatus.constraint) :=
  honest_require nofun

/-- Within the bounds of a `BETWEEN` on the length of a text. -/
def within (low high : ℕ) (text : Bytes) : Bool := low ≤ text.length && text.length ≤ high

section Write

variable {μ : Type} (nocase : Bytes → Bytes → Bool)

/-! ## Tags -/

/-- `add_tag`. -/
def tagRule : Table.Rule TagRow DbStatus where
  check r := do
    require (within 1 65535 r.displayName && within 1 65535 r.canonicalName && 0 < r.tagId)
      .invalidArgument
  room _ := .ok ()
  clash a b := a.tagId == b.tagId || nocase a.canonicalName b.canonicalName
  clashes := .constraint

/-- The tags of the nodes, of the descriptions and of the field values, each once. -/
def registerTags (root : Node μ) (settings : VaultSettings) : List Bytes :=
  KeyedUnion.union tagCiEqual []
    (root.labels.flatMap (·.tags) ++ settings.tagDescriptions.map (·.tag) ++
      settings.tagFieldValues.map (·.tag))

/-- The row of each registered tag. -/
def tagRows (tags : List Bytes) : List TagRow :=
  tags.zipIdx.map fun p ↦ ⟨p.2 + 1, p.1, p.1⟩

/-- The identity of a tag; `0` for one that is not registered. -/
def tagId (tags : List Bytes) (tag : Bytes) : ℕ :=
  match tags.findIdx? (tagCiEqual · tag) with
  | some i => i + 1
  | none => 0

/-- `insert_node_tag`, into a table with a row for every tag of the tree. -/
def nodeTagRule : Table.Rule NodeTagRow DbStatus where
  check _ := .ok ()
  room _ := .ok ()
  clash a b := a.nodeId == b.nodeId && a.tagId == b.tagId
  clashes := .constraint

def nodeTagRows (tags : List Bytes) (node : NodeHeader) : List NodeTagRow :=
  node.tags.zipIdx.map fun p ↦
    ⟨node.nodeId, tagId tags p.1, p.1, p.2, explicitAssignment node p.1⟩

/-- The tables `tags` and `node_tags`. A node with too many tags ends the commit. -/
def writeTags (root : Node μ) (settings : VaultSettings) (m : Metadata) :
    Except DbStatus Metadata := do
  require (root.labels.all fun node ↦ node.tags.length ≤ indexMaxTags) .constraint
  let registered := registerTags root settings
  let tags ← Table.insertAll (tagRule nocase) [] (tagRows registered)
  let nodeTags ← Table.insertAll nodeTagRule [] (root.labels.flatMap (nodeTagRows registered))
  pure { m with tags, nodeTags }

/-! ## Bundles -/

def bundleRule : Table.Rule BundleRow DbStatus where
  check r := require (r.bundleId ≠ .zero && within 1 255 r.name) .constraint
  room _ := .ok ()
  clash a b := a.bundleId == b.bundleId || nocase a.name b.name
  clashes := .constraint

def bundleTagRule : Table.Rule BundleTagRow DbStatus where
  check r := require (within 1 65535 r.tag) .constraint
  room _ := .ok ()
  clash a b := a.bundleId == b.bundleId && (a.position == b.position || nocase a.tag b.tag)
  clashes := .constraint

def writeBundleDefinition (m : Metadata) (bundle : TagBundle) : Except DbStatus Metadata := do
  let bundles ← Table.insert (bundleRule nocase) m.bundles ⟨bundle.id, bundle.name⟩
  require (bundle.tags.length ≤ indexMaxTags) .constraint
  let bundleTags ← Table.insertAll (bundleTagRule nocase) m.bundleTags
    (bundle.tags.zipIdx.map fun p ↦ ⟨bundle.id, p.1, p.2⟩)
  pure { m with bundles, bundleTags }

/-- The rows of `node_bundles`; a bundle has to exist. -/
def nodeBundleRule (bundles : List BundleRow) : Table.Rule NodeBundleRow DbStatus where
  check r := require (bundles.any (·.bundleId == r.bundleId)) .constraint
  room _ := .ok ()
  clash a b := a.nodeId == b.nodeId && a.bundleId == b.bundleId
  clashes := .constraint

/-- `write_bundles`. -/
def writeBundles (root : Node μ) (settings : VaultSettings) (m : Metadata) :
    Except DbStatus Metadata := do
  require (settings.tagBundles.length ≤ indexMaxTags) .constraint
  let m ← settings.tagBundles.foldlM (writeBundleDefinition nocase) m
  let nodeBundles ← Table.insertAll (nodeBundleRule m.bundles) m.nodeBundles
    (root.labels.flatMap fun node ↦ node.tagBundles.zipIdx.map fun p ↦ ⟨node.nodeId, p.1, p.2⟩)
  pure { m with nodeBundles }

/-! ## Categories and templates -/

def categoryRule : Table.Rule CategoryRow DbStatus where
  check r := require (within 1 64 r.displayName && r.swatch ≤ 15) .constraint
  room _ := .ok ()
  clash a b := a.categoryId == b.categoryId || nocase a.displayName b.displayName
  clashes := .constraint

def categoryFieldRule : Table.Rule CategoryFieldRow DbStatus where
  check r := require (within 1 64 r.displayName) .constraint
  room _ := .ok ()
  clash a b :=
    a.categoryId == b.categoryId && (a.fieldOrder == b.fieldOrder || nocase a.displayName b.displayName)
  clashes := .constraint

/-- A category and its template; `i` is its place among the categories. -/
def writeCategory (m : Metadata) (category : TagCategory × ℕ) : Except DbStatus Metadata := do
  let (c, i) := category
  let categories ← Table.insert (categoryRule nocase) m.categories ⟨i + 1, c.name, c.swatch⟩
  let categoryFields ← Table.insertAll (categoryFieldRule nocase) m.categoryFields
    (c.fields.zipIdx.map fun p ↦ ⟨i + 1, p.2, p.1⟩)
  pure { m with categories, categoryFields }

def writeCategories (settings : VaultSettings) (m : Metadata) : Except DbStatus Metadata :=
  settings.categories.zipIdx.foldlM (writeCategory nocase) m

/-! ## Descriptions and field values

A row with the key of one that is there takes its place. -/

/-- `set_tag_description` and the update after it. -/
def writeDescription (tags : List Bytes) (m : Metadata) (description : TagDescription × ℕ) :
    Except DbStatus Metadata := do
  let (d, i) := description
  let id := tagId tags d.tag
  require (0 < id && d.text.length ≤ 512) .invalidArgument
  require (!d.text.isEmpty) .constraint
  pure { m with descriptions :=
    Table.upsert (·.tagId == ·.tagId) m.descriptions ⟨id, d.tag, i, d.text⟩ }

def writeDescriptions (tags : List Bytes) (settings : VaultSettings) (m : Metadata) :
    Except DbStatus Metadata :=
  settings.tagDescriptions.zipIdx.foldlM (writeDescription tags) m

/-- The text before the first colon of a tag, if it has one. -/
def valueCategory (tag : Bytes) : Option Bytes := (tag.findIdx? (· == colon)).map tag.take

/-- Where a field value belongs: the places of the category and of the field. -/
def valuePlace (settings : VaultSettings) (x : TagFieldValue) : Option (ℕ × ℕ) := do
  let name ← valueCategory x.tag
  let c ← settings.categories.findIdx? fun c ↦ categoryNameEq c.name name
  let category ← settings.categories[c]?
  let f ← category.fields.findIdx? (categoryNameEq · x.field)
  pure (c, f)

def sameValueKey (a b : FieldValueRow) : Bool :=
  a.tagId == b.tagId && a.categoryId == b.categoryId && a.fieldOrder == b.fieldOrder

/-- The loop over the field values: `set_tag_field_value` and the update after it. -/
def writeFieldValue (tags : List Bytes) (settings : VaultSettings) (m : Metadata)
    (value : TagFieldValue × ℕ) : Except DbStatus Metadata := do
  let (x, i) := value
  match valuePlace settings x with
  | none => .error .constraint
  | some (c, f) => do
    let id := tagId tags x.tag
    require (0 < id && f ≤ 15 && x.value.length ≤ 256) .invalidArgument
    require (m.fieldValues.length < indexMaxTagFieldValues) .constraint
    require (!x.value.isEmpty) .constraint
    pure { m with fieldValues :=
      Table.upsert sameValueKey m.fieldValues ⟨id, c + 1, f, x.tag, x.field, i, x.value⟩ }

def writeFieldValues (tags : List Bytes) (settings : VaultSettings) (m : Metadata) :
    Except DbStatus Metadata :=
  settings.tagFieldValues.zipIdx.foldlM (writeFieldValue tags settings) m

/-! ## The settings row and the saved searches -/

/-- `set_settings`. The generation is stored as a signed integer. -/
def setSettings (settings : VaultSettings) (generation : ℕ) (m : Metadata) :
    Except DbStatus Metadata := do
  require (settings.defaultSort.toByte ≤ 7 && settings.migratedIndexVersion ≤ 13) .invalidArgument
  require (generation < 2 ^ 63) .constraint
  pure { m with settings :=
    { appGeneration := generation
      defaultSort := settings.defaultSort.toByte
      tilesShowTags := settings.tilesShowTags
      migratedIndexVersion := settings.migratedIndexVersion
      migratedProbeCaps := settings.migratedProbeCaps
      migratedThumbSide := settings.migratedThumbSide } }

/-- `add_saved_search`. -/
def savedSearchRule : Table.Rule SavedSearchRecord DbStatus where
  check r := do
    require (0 < r.searchId && within 1 255 r.displayName && r.query.length ≤ 1048576)
      .invalidArgument
    require (!r.query.isEmpty) .constraint
  room n := require (n < 4096) .constraint
  clash a b := a.searchId == b.searchId || nocase a.displayName b.displayName
  clashes := .constraint

def savedSearchRows (searches : List SavedSearch) : List SavedSearchRecord :=
  searches.zipIdx.map fun p ↦ ⟨p.2 + 1, p.1.name, p.1.query⟩

def writeSavedSearches (searches : List SavedSearch) (m : Metadata) :
    Except DbStatus Metadata := do
  let savedSearches ← Table.insertAll (savedSearchRule nocase) [] (savedSearchRows searches)
  pure { m with savedSearches }

/-- The saved searches as they are read at the next unlock, in the order of their identities. -/
def readSavedSearches (m : Metadata) : List SavedSearch :=
  m.savedSearches.map fun r ↦ ⟨r.displayName, r.query⟩

/-! ## No refusal is answered with `ok` -/

variable {nocase}

theorem honest_writeTags {root : Node μ} {settings : VaultSettings} {m : Metadata} :
    Honest .ok (writeTags nocase root settings m) := by
  refine honest_constraint.bind fun _ ↦ (Table.honest_insertAll ?_).bind fun _ ↦
    (Table.honest_insertAll ?_).bind fun _ ↦ honest_pure
  exacts [⟨fun _ ↦ honest_invalid, fun _ ↦ honest_ok, nofun⟩,
    ⟨fun _ ↦ honest_ok, fun _ ↦ honest_ok, nofun⟩]

theorem honest_writeBundles {root : Node μ} {settings : VaultSettings} {m : Metadata} :
    Honest .ok (writeBundles nocase root settings m) := by
  refine honest_constraint.bind fun _ ↦ (Honest.foldlM (fun m bundle ↦ ?_) _ _).bind fun _ ↦
    (Table.honest_insertAll ?_).bind fun _ ↦ honest_pure
  · refine (Table.honest_insert ?_).bind fun _ ↦ honest_constraint.bind fun _ ↦
      (Table.honest_insertAll ?_).bind fun _ ↦ honest_pure
    exacts [⟨fun _ ↦ honest_constraint, fun _ ↦ honest_ok, nofun⟩,
      ⟨fun _ ↦ honest_constraint, fun _ ↦ honest_ok, nofun⟩]
  · exact ⟨fun _ ↦ honest_constraint, fun _ ↦ honest_ok, nofun⟩

theorem honest_writeCategories {settings : VaultSettings} {m : Metadata} :
    Honest .ok (writeCategories nocase settings m) := by
  refine Honest.foldlM (fun m category ↦ (Table.honest_insert ?_).bind fun _ ↦
    (Table.honest_insertAll ?_).bind fun _ ↦ honest_pure) _ _
  exacts [⟨fun _ ↦ honest_constraint, fun _ ↦ honest_ok, nofun⟩,
    ⟨fun _ ↦ honest_constraint, fun _ ↦ honest_ok, nofun⟩]

theorem honest_writeDescriptions {tags : List Bytes} {settings : VaultSettings} {m : Metadata} :
    Honest .ok (writeDescriptions tags settings m) :=
  Honest.foldlM (fun _ _ ↦ honest_invalid.bind fun _ ↦ honest_constraint.bind
    fun _ ↦ honest_pure) _ _

theorem honest_writeFieldValues {tags : List Bytes} {settings : VaultSettings} {m : Metadata} :
    Honest .ok (writeFieldValues tags settings m) := by
  refine Honest.foldlM (fun m value ↦ ?_) _ _
  rw [writeFieldValue]
  split
  · exact honest_error.mpr nofun
  · exact honest_invalid.bind fun _ ↦ honest_constraint.bind fun _ ↦
      honest_constraint.bind fun _ ↦ honest_pure

theorem honest_setSettings {settings : VaultSettings} {generation : ℕ} {m : Metadata} :
    Honest .ok (setSettings settings generation m) :=
  honest_invalid.bind fun _ ↦ honest_constraint.bind fun _ ↦ honest_pure

theorem honest_savedSearchRule : (savedSearchRule nocase).Honest .ok where
  check _ := honest_invalid.bind fun _ ↦ honest_constraint
  room _ := honest_constraint
  clashes := nofun

theorem honest_writeSavedSearches {searches : List SavedSearch} {m : Metadata} :
    Honest .ok (writeSavedSearches nocase searches m) :=
  (Table.honest_insertAll honest_savedSearchRule).bind fun _ ↦ honest_pure

end Write

end V3

end SafeVault
