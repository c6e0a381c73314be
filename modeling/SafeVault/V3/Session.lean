import SafeVault.V3.Objects
import SafeVault.Vault.Structure

/-!
# A session with a database

`sync_metadata` writes tree, settings, saved searches and staged objects in one transaction. Besides
the constraints of the tables any of its statements can fail, which is taken from outside: a status
for each phase, `ok` when nothing but a constraint stands in the way. The rows of the nodes are
represented by the tree they hold, and a refusal by one of their constraints counts as such a status.

After the transaction the session reads the object rows again. When that fails, the commit is
reported as failed although the database has it.
-/

namespace SafeVault

namespace V3

/-! ## Statuses -/

/-- `ReadStatus`. -/
inductive ReadStatus where
  | ok | ioError | badFormat | authenticationFailed | busy | unsupportedVersion | alreadyExists
  deriving DecidableEq

def mapDb : DbStatus → ReadStatus
  | .ok => .ok
  | .busy => .busy
  | .unsupportedVersion => .unsupportedVersion
  | .wrongKeyOrCorrupt => .badFormat
  | _ => .ioError

def mapV3ReadStatus : ReadStatus → VaultResult
  | .ok => .ok
  | .authenticationFailed => .authFailed
  | .busy => .busy
  | .unsupportedVersion => .unsupportedVersion
  | .ioError => .ioError
  | _ => .badFormat

theorem mapDb_eq_ok_iff {status : DbStatus} : mapDb status = .ok ↔ status = .ok := by
  cases status <;> simp [mapDb]

/-! ## The transaction -/

/-- The parts of the transaction that can fail for reasons of their own. -/
inductive Phase where
  | begin | priorSettings | nodes | objects | tags | bundles | categories | descriptions
  | fieldValues | settings | savedSearches | commit
  deriving DecidableEq

/-- What the database holds. -/
structure Database where
  nodes : IndexNode
  objects : List ObjectRecord
  metadata : Metadata

/-- Go on if a phase was not stopped from outside. -/
def proceed (status : DbStatus) : Except DbStatus Unit := require (status = .ok) status

/-- The nodes a tree makes live. -/
def liveNodes (root : IndexNode) : List NodeId := root.labels.map (·.nodeId)

section Sync

variable (nocase : Bytes → Bytes → Bool) (status : Phase → DbStatus)

/-- The part of `sync_metadata` between the objects and the saved searches: the tables of tags, of
bundles and of everything the settings hold. -/
def syncSettings (root : IndexNode) (settings : VaultSettings) (generation : ℕ) :
    Except DbStatus Metadata := do
  proceed (status .tags)
  let m ← writeTags nocase root settings {}
  proceed (status .bundles)
  let m ← writeBundles nocase root settings m
  proceed (status .categories)
  let m ← writeCategories nocase settings m
  proceed (status .descriptions)
  let m ← writeDescriptions (registerTags root settings) settings m
  proceed (status .fieldValues)
  let m ← writeFieldValues (registerTags root settings) settings m
  proceed (status .settings)
  setSettings settings generation m

/-- `sync_metadata` up to the saved searches. -/
def syncTables (root : IndexNode) (settings : VaultSettings) (staged : List ObjectRecord)
    (db : Database) : Except DbStatus Database := do
  require (root.label.nodeId ≠ .zero && root.isGallery) .invalidArgument
  proceed (status .begin)
  proceed (status .priorSettings)
  let generation := db.metadata.settings.appGeneration + 1
  proceed (status .nodes)
  require (NodeId.zero ∉ liveNodes root) .invalidArgument
  require (liveNodes root).Nodup .constraint
  proceed (status .objects)
  let objects ← syncObjects generation (liveNodes root) staged db.objects
  let metadata ← syncSettings nocase status root settings generation
  pure { nodes := root, objects, metadata }

/-- `sync_metadata`: everything up to the saved searches, those, and the end of the transaction. -/
def syncMetadata (root : IndexNode) (settings : VaultSettings) (searches : List SavedSearch)
    (staged : List ObjectRecord) (db : Database) : Except DbStatus Database := do
  let db ← syncTables nocase status root settings staged db
  proceed (status .savedSearches)
  let metadata ← writeSavedSearches nocase searches db.metadata
  proceed (status .commit)
  pure { db with metadata }

variable {nocase status} {root : IndexNode} {settings : VaultSettings}
  {searches : List SavedSearch} {staged : List ObjectRecord} {db db' : Database}

theorem proceed_bind_eq_ok_iff {α : Type} {status : DbStatus} {f : Unit → Except DbStatus α} {a : α} :
    proceed status >>= f = .ok a ↔ status = .ok ∧ f () = .ok a := by
  rw [proceed, require_bind_eq_ok_iff, decide_eq_true_iff]

theorem honest_proceed {status : DbStatus} : Honest .ok (proceed status) := by
  rw [proceed, require]
  split_ifs with h
  · exact honest_ok
  · exact honest_error.mpr (by simpa using h)

theorem honest_syncSettings {generation : ℕ} :
    Honest .ok (syncSettings nocase status root settings generation) :=
  honest_proceed.bind fun _ ↦ honest_writeTags.bind fun _ ↦
    honest_proceed.bind fun _ ↦ honest_writeBundles.bind fun _ ↦
    honest_proceed.bind fun _ ↦ honest_writeCategories.bind fun _ ↦
    honest_proceed.bind fun _ ↦ honest_writeDescriptions.bind fun _ ↦
    honest_proceed.bind fun _ ↦ honest_writeFieldValues.bind fun _ ↦
    honest_proceed.bind fun _ ↦ honest_setSettings

theorem honest_syncTables : Honest .ok (syncTables nocase status root settings staged db) :=
  honest_invalid.bind fun _ ↦ honest_proceed.bind fun _ ↦ honest_proceed.bind fun _ ↦
    honest_proceed.bind fun _ ↦ honest_invalid.bind fun _ ↦
    honest_constraint.bind fun _ ↦ honest_proceed.bind fun _ ↦
    honest_syncObjects.bind fun _ ↦ honest_syncSettings.bind fun _ ↦ honest_pure

/-- A transaction that failed has a status that says so. -/
theorem honest_syncMetadata :
    Honest .ok (syncMetadata nocase status root settings searches staged db) :=
  honest_syncTables.bind fun _ ↦ honest_proceed.bind fun _ ↦
    honest_writeSavedSearches.bind fun _ ↦ honest_proceed.bind fun _ ↦ honest_pure

theorem metadata_of_syncTables (h : syncTables nocase status root settings staged db = .ok db') :
    db'.nodes = root ∧
      syncObjects (db.metadata.settings.appGeneration + 1) (liveNodes root) staged db.objects =
        .ok db'.objects ∧
      syncSettings nocase status root settings (db.metadata.settings.appGeneration + 1) =
        .ok db'.metadata := by
  rw [syncTables, require_bind_eq_ok_iff] at h
  simp only [↓require_bind_eq_ok_iff, ↓proceed_bind_eq_ok_iff, bind_eq_ok_iff] at h
  obtain ⟨-, -, -, -, -, -, -, objects, hobjects, metadata, hmetadata, h⟩ := h
  cases h
  exact ⟨rfl, hobjects, hmetadata⟩

/-- Up to the saved searches, the settings matter only for their own tables. -/
theorem syncTables_of_syncTables {settings' : VaultSettings} {out : Metadata}
    (h : syncTables nocase status root settings staged db = .ok db')
    (hsettings : syncSettings nocase status root settings'
      (db.metadata.settings.appGeneration + 1) = .ok out) :
    ∃ db'', syncTables nocase status root settings' staged db = .ok db'' := by
  rw [syncTables, require_bind_eq_ok_iff] at h
  simp only [↓require_bind_eq_ok_iff, ↓proceed_bind_eq_ok_iff, bind_eq_ok_iff] at h
  obtain ⟨h₁, h₂, h₃, h₄, h₅, h₆, h₇, objects, hobjects, -⟩ := h
  refine ⟨⟨root, objects, out⟩, ?_⟩
  rw [syncTables, require_bind_eq_ok_iff]
  simp only [↓require_bind_eq_ok_iff, ↓proceed_bind_eq_ok_iff, bind_eq_ok_iff]
  exact ⟨h₁, h₂, h₃, h₄, h₅, h₆, h₇, objects, hobjects, out, hsettings, rfl⟩

/-- The transaction goes through when the tables do and the searches do. -/
theorem syncMetadata_eq_ok_iff :
    syncMetadata nocase status root settings searches staged db = .ok db' ↔
      ∃ mid, syncTables nocase status root settings staged db = .ok mid ∧
        status .savedSearches = .ok ∧ status .commit = .ok ∧
        ∃ metadata, writeSavedSearches nocase searches mid.metadata = .ok metadata ∧
          db' = { mid with metadata } := by
  simp only [syncMetadata, ↓proceed_bind_eq_ok_iff, bind_eq_ok_iff]
  constructor
  · rintro ⟨mid, hmid, hsearches, metadata, hmetadata, hcommit, h⟩
    cases h
    exact ⟨mid, hmid, hsearches, hcommit, metadata, hmetadata, rfl⟩
  · rintro ⟨mid, hmid, hsearches, hcommit, metadata, hmetadata, rfl⟩
    exact ⟨mid, hmid, hsearches, metadata, hmetadata, hcommit, rfl⟩

/-- The rows of a transaction that went through. -/
theorem objects_of_syncMetadata
    (h : syncMetadata nocase status root settings searches staged db = .ok db') :
    syncObjects (db.metadata.settings.appGeneration + 1) (liveNodes root) staged db.objects =
      .ok db'.objects := by
  obtain ⟨mid, hmid, -, -, metadata, -, rfl⟩ := syncMetadata_eq_ok_iff.mp h
  exact (metadata_of_syncTables hmid).2.1

end Sync

/-! ## The session -/

/-- An index of objects by the pair they belong to. -/
abbrev ObjectIndex := ObjectKey → Option ObjectInfo

structure ReadSession where
  /-- The identity of the vault, from its header. -/
  vaultId : NodeId
  unlocked : Bool
  db : Database
  root : IndexNode
  settings : VaultSettings
  searches : List SavedSearch
  objects : List ObjectRecord
  objectIndex : ObjectIndex
  stagedObjects : List ObjectRecord := []
  stagedIndex : ObjectIndex := fun _ ↦ none

/-- The format byte that goes with the objects of each node. A gallery has the one of the video
record it does not use. -/
def formats : IndexNode → List (NodeId × UInt8) :=
  LeafTree.fold (fun h cs ↦ (h.nodeId, VideoContainer.unknown.toByte) :: cs.flatten)
    fun h m ↦ match m with
      | .image img => [(h.nodeId, img.format.toByte)]
      | .video vid => [(h.nodeId, vid.container.toByte)]

/-- The part of `rebuild_object_index` about committed objects. -/
def rebuildObjectIndex (vaultId : NodeId) (root : IndexNode) (objects : List ObjectRecord) :
    ObjectIndex := fun key ↦
  (objects.find? (·.key = key)).bind fun r ↦
    ((formats root).find? (·.1 = r.nodeId)).map fun f ↦
      { objectId := r.objectId
        vaultId
        ownerNodeId := r.nodeId
        role := r.role
        mediaFormat := f.2
        plaintextLength := r.plaintextLength
        encryptedLength := r.encryptedLength
        framePlainLimit := r.framePlainLimit
        frameCount := r.frameCount }

namespace ReadSession

/-- `object_for`: a staged object comes before a committed one. -/
def objectFor (s : ReadSession) (key : ObjectKey) : Option ObjectInfo :=
  (s.stagedIndex key).or (s.objectIndex key)

/-- `stage_object`, where the object file was written if `written`. -/
def stageObject (info : ObjectInfo) (written : Bool) (s : ReadSession) :
    ReadStatus × ReadSession :=
  if !s.unlocked || !written then (.ioError, s)
  else
    (.ok, { s with
      stagedObjects := s.stagedObjects ++ [info.record]
      stagedIndex := fun key ↦ if key = info.key then some info else s.stagedIndex key })

/-- The end of `rebuild_object_index`: staged objects are kept until their owner is in the tree. -/
def rebuild (s : ReadSession) : ReadSession :=
  { s with
    objectIndex := rebuildObjectIndex s.vaultId s.root s.objects
    stagedObjects := s.stagedObjects.filter (·.nodeId ∉ liveNodes s.root)
    stagedIndex := fun key ↦ if key.1 ∈ liveNodes s.root then none else s.stagedIndex key }

/-- `commit_metadata`. `references` is the status of reading the object rows back. -/
def commitMetadata (nocase : Bytes → Bytes → Bool) (status : Phase → DbStatus)
    (references : DbStatus) (root : IndexNode) (settings : VaultSettings)
    (searches : List SavedSearch) (s : ReadSession) : ReadStatus × ReadSession :=
  if !s.unlocked then (.ioError, s)
  else
    match syncMetadata nocase status root settings searches s.stagedObjects s.db with
    | .error status => (mapDb status, s)
    | .ok db =>
      let s := { s with db, root, settings, searches }
      if references = .ok then (.ok, rebuild { s with objects := db.objects })
      else (mapDb references, s)

/-- `lock`. -/
def lock (s : ReadSession) : ReadSession :=
  { vaultId := s.vaultId
    unlocked := false
    db := s.db
    root := .gallery []
    settings := {}
    searches := []
    objects := []
    objectIndex := fun _ ↦ none }

/-- `unlock`, which reads everything back, if nothing stands in the way. -/
def unlock (status : ReadStatus) (settings : VaultSettings) (s : ReadSession) :
    ReadStatus × ReadSession :=
  if s.unlocked then (.ok, s)
  else if status ≠ .ok then (status, s)
  else
    (.ok, rebuild { s with
      unlocked := true
      root := s.db.nodes
      settings
      searches := readSavedSearches s.db.metadata
      objects := s.db.objects })

end ReadSession

/-- What a commit can do: nothing, or write the transaction and fail to read it back, or all of it. -/
theorem commitMetadata_cases (nocase : Bytes → Bytes → Bool) (status : Phase → DbStatus)
    (references : DbStatus) (root : IndexNode) (settings : VaultSettings)
    (searches : List SavedSearch) (s : ReadSession) :
    let sync := syncMetadata nocase status root settings searches s.stagedObjects s.db
    let out := s.commitMetadata nocase status references root settings searches
    (out.1 ≠ .ok ∧ out.2 = s ∧ (s.unlocked = false ∨ ∃ e, sync = .error e)) ∨
    (out.1 ≠ .ok ∧ references ≠ .ok ∧ ∃ db, sync = .ok db ∧
      out.2 = { s with db, root, settings, searches }) ∨
    (out.1 = .ok ∧ s.unlocked = true ∧ references = .ok ∧ ∃ db, sync = .ok db ∧
      out.2 = ReadSession.rebuild { s with db, root, settings, searches, objects := db.objects }) := by
  intro sync out
  have hout : out = s.commitMetadata nocase status references root settings searches := rfl
  rw [ReadSession.commitMetadata] at hout
  by_cases hopen : s.unlocked = true
  · rw [if_neg (by simpa using hopen)] at hout
    rcases hsync : syncMetadata nocase status root settings searches s.stagedObjects s.db with e | db
    · rw [hsync] at hout
      refine .inl ?_
      rw [hout]
      exact ⟨mapDb_eq_ok_iff.not.mpr fun he ↦ honest_syncMetadata (he ▸ hsync), rfl, .inr ⟨e, hsync⟩⟩
    · rw [hsync] at hout
      dsimp only at hout
      refine .inr ?_
      split_ifs at hout with href
      · rw [hout]
        exact .inr ⟨rfl, hopen, href, db, hsync, rfl⟩
      · rw [hout]
        exact .inl ⟨mapDb_eq_ok_iff.not.mpr href, href, db, hsync, rfl⟩
  · rw [if_pos (by simpa using hopen)] at hout
    rw [hout]
    exact .inl ⟨nofun, rfl, .inl (by simpa using hopen)⟩

end V3

end SafeVault
