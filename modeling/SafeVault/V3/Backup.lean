import Mathlib.Logic.Function.Basic
import SafeVault.V3.Credentials
import SafeVault.V3.Verification

/-!
# Backups

A backup verifies the vault, copies the header, the objects of all rows and the database into a fresh
directory beside the destination, verifies the copy, and renames it. The directory is not the vault's
before it is whole: what goes wrong leaves the destination alone, up to the last synchronisation of the
directory it is in. A restore is a backup of a vault that was opened for it.
-/

namespace SafeVault

namespace V3

/-! ## Space -/

/-- `backup_space_required` -/
def backupSpaceRequired (databaseBytes objectBytes : UInt64) : Option UInt64 :=
  let slack : UInt64 := 1024 * 1024
  let uint64Max : UInt64 := 0xffffffffffffffff
  if uint64Max - slack < objectBytes then none
  else if (uint64Max - objectBytes - slack) / 2 < databaseBytes then none
  else some (databaseBytes * 2 + objectBytes + slack)

/-- **The space that is asked for** is not cut off. -/
theorem backupSpaceRequired_eq_some_iff {databaseBytes objectBytes required : UInt64} :
    backupSpaceRequired databaseBytes objectBytes = some required ↔
      required.toNat = databaseBytes.toNat * 2 + objectBytes.toNat + 2 ^ 20 := by
  have hdatabase := databaseBytes.toNat_lt
  have hobjects := objectBytes.toNat_lt
  have hrequired := required.toNat_lt
  rw [backupSpaceRequired]
  split_ifs with hslack hhalf
  · simp only [UInt64.lt_iff_toNat_lt, UInt64.toNat_sub, UInt64.toNat_mul, UInt64.reduceToNat] at hslack
    constructor
    · rintro ⟨⟩
    · intro h
      omega
  · simp only [UInt64.lt_iff_toNat_lt, UInt64.toNat_sub, UInt64.toNat_mul, UInt64.toNat_div,
      UInt64.reduceToNat] at hslack hhalf
    constructor
    · rintro ⟨⟩
    · intro h
      omega
  · simp only [UInt64.lt_iff_toNat_lt, UInt64.toNat_sub, UInt64.toNat_mul, UInt64.toNat_div,
      UInt64.reduceToNat] at hslack hhalf
    rw [Option.some_inj, ← UInt64.toNat_inj]
    simp only [UInt64.toNat_add, UInt64.toNat_mul, UInt64.reduceToNat]
    omega

/-! ## Directories -/

/-- A directory vault: the file of the header, the database with its key, and the objects. -/
structure VaultDirectory where
  header : Bytes
  database : Option (Block 32 × Database)
  disk : ObjectDisk

/-- What a name stands for: a directory laid out as a vault, or anything else. -/
inductive Place where
  | vault (directory : VaultDirectory)
  | other

/-- The identity in a header. -/
def V3Header.id (header : V3Header) : NodeId := ⟨header.vaultId.bytes, header.vaultId.size⟩

/-- The directory a vault is in. -/
abbrev Parent := Bytes → Option Place

/-- What `VaultRoot::create` leaves. -/
def freshVault : VaultDirectory where
  header := []
  database := none
  disk :=
    { dir := { shards := [], opens := true, readsToEnd := true, nodup := List.nodup_nil }
      contents _ := ⟨[], Nat.two_pow_pos 63⟩
      size_eq := by
        rintro id stat ⟨⟩ }

/-- `plain_staging_name` -/
def plainStagingName (name : Bytes) : Bool :=
  name ≠ [] && name.length ≤ 64 && name ≠ ascii "." && name ≠ ascii ".." && !name.contains 47 &&
    !name.contains 92 && !name.contains 0

/-- `temporary_path_for`, below the directory of the destination. -/
def temporaryName (random : Block 8) : Bytes := ascii ".osv-backup-" ++ hexEncode random.bytes

/-! ## Copying an object -/

/-- What copying an object meets. -/
structure CopyEnv where
  opensInput : Bool := true
  staging : Bool := true
  read : ℕ → Bool := fun _ ↦ true
  write : ℕ → Bool := fun _ ↦ true
  synced : Bool := true
  publication : Publication := .done
  time : ℤ := 0

/-- As much as is copied at once. -/
def copyPiece : ℕ := 1024 * 1024

/-- The loop of `copy_object` from an offset, for some rounds. -/
def copyPieces (env : CopyEnv) (file : ObjectFile) (length : ℕ) : ℕ → ℕ → Option Bytes
  | 0, _ => some []
  | rounds + 1, offset =>
    if offset < length then do
      let count := min copyPiece (length - offset)
      guard (env.read offset)
      let chunk ← file.readAt offset count
      guard (env.write offset)
      let rest ← copyPieces env file length rounds (offset + count)
      return chunk ++ rest
    else some []

/-- `copy_object` -/
def copyObject (env : CopyEnv) (source : ObjectDisk) (object : ObjectRecord) (destination : ObjectDisk) :
    Bool × ObjectDisk :=
  match (if env.opensInput then source.dir.openObject object.objectId else none) with
  | none => (false, destination)
  | some _ =>
    if !env.staging then (false, destination)
    else
      match copyPieces env (source.contents object.objectId) object.encryptedLength object.encryptedLength
        0 with
      | none => (false, destination)
      | some bytes =>
        if h : bytes.length < 2 ^ 63 then
          if !env.synced then (false, destination)
          else
            ((destination.publish env.publication object.objectId ⟨bytes, h⟩ env.time).1.toBool,
              (destination.publish env.publication object.objectId ⟨bytes, h⟩ env.time).2)
        else (false, destination)

/-! ## Backing up -/

inductive BackupStatus where
  | ok | invalidArgument | alreadyExists | sourceCorrupt | insufficientSpace | ioError
  deriving DecidableEq

structure BackupResult where
  status : BackupStatus := .ioError
  copiedBytes : UInt64 := 0
  copiedObjects : ℕ := 0
  requiredBytes : UInt64 := 0
  availableBytes : UInt64 := 0
  deriving DecidableEq

/-- How far `rollback_creation` gets: it does not begin, it takes some of the entries away, or all of
them, with the directory if nothing else is in it. -/
inductive RollbackOutcome where
  | kept | broken | removed
  deriving DecidableEq

/-- What a backup meets. -/
structure BackupEnv where
  /-- Whether the destination can be looked for, in the beginning and in the end. -/
  looks : Bool := true
  looksAgain : Bool := true
  source : VerifyEnv := {}
  databaseSize : Option UInt64
  available : Option UInt64
  random : Option (Block 8)
  created : Bool := true
  /-- Whether a creation that fails leaves something. -/
  leaves : Bool := false
  headerWritten : Bool := true
  references : Bool := true
  copy : NodeId → CopyEnv := fun _ ↦ {}
  backedUp : Bool := true
  opensCopy : Bool := true
  verify : VerifyEnv := {}
  renames : Bool := true
  synced : Bool := true
  unlinks : NodeId → Bool := fun _ ↦ true
  rollback : RollbackOutcome := .removed

/-- The loop over the rows. -/
def copyObjects (env : BackupEnv) (source : ObjectDisk) :
    List ObjectRecord → BackupResult → ObjectDisk → Bool × BackupResult × ObjectDisk
  | [], result, destination => (true, result, destination)
  | object :: references, result, destination =>
    let copied := copyObject (env.copy object.objectId) source object destination
    if !copied.1 then (false, result, copied.2)
    else
      copyObjects env source references
        { result with
          copiedObjects := result.copiedObjects + 1
          copiedBytes := result.copiedBytes + .ofNat object.encryptedLength }
        copied.2

section Backup

variable (D : Deflate) (C : ObjectCrypto) (databaseKey masterKey : Block 32) (header : V3Header)
  (env : BackupEnv) (db : Database) (source : ObjectDisk)

/-- `populate_backup`, into a fresh directory. -/
def populateBackup (result : BackupResult) : Bool × BackupResult × VaultDirectory :=
  if !env.headerWritten then (false, result, freshVault)
  else
    let backup := { freshVault with header := header.serialize.bytes }
    if !env.references then (false, result, backup)
    else
      let copied := copyObjects env source db.objects result backup.disk
      let backup := { backup with disk := copied.2.2 }
      if !copied.1 || !env.backedUp then (false, copied.2.1, backup)
      else
        let backup := { backup with database := some (databaseKey, db) }
        (env.opensCopy && (verifyVault D C masterKey header.id env.verify db backup.disk .deep).status = .ok,
          copied.2.1, backup)

/-- The objects of a directory that is given up are unlinked. -/
def unlinkObjects (disk : ObjectDisk) : ObjectDisk :=
  ((listObjects disk.dir).getD []).foldl
    (fun disk entry ↦ if env.unlinks entry.id then disk.unlink entry.id else disk) disk

/-- The rollback of the directory that a name stands for. -/
def rollBack (name : Bytes) (backup : VaultDirectory) (parent : Parent) : Parent :=
  Function.update parent name <|
    match env.rollback with
    | .kept => some (.vault { backup with disk := unlinkObjects env backup.disk })
    | .broken => some .other
    | .removed => if backup.disk.dir.shards.isEmpty then none else some .other

/-- The status when the directory could not be published. -/
def failedStatus (destination : Bytes) (left : Parent) : BackupStatus :=
  if env.looksAgain && (left destination).isSome then .alreadyExists else .ioError

/-- The end of `backup_vault`, with a temporary directory that was created: `publish_directory` and the
rollbacks. -/
def publishBackup (destination temporary : Bytes) (parent : Parent)
    (populated : Bool × BackupResult × VaultDirectory) :
    BackupResult × Parent :=
  let backup := populated.2.2
  let held := Function.update parent temporary (some (.vault backup))
  let published := Function.update (Function.update held temporary none) destination (some (.vault backup))
  if !populated.1 then (populated.2.1, rollBack env temporary backup held)
  else if !plainStagingName destination || !env.renames || (held destination).isSome then
    ({ populated.2.1 with status := failedStatus env destination (rollBack env temporary backup held) },
      rollBack env temporary backup held)
  else if !env.synced then
    -- The directory has its new name, and it is this name that is rolled back.
    ({ populated.2.1 with status := failedStatus env destination (rollBack env destination backup published) },
      rollBack env destination backup published)
  else ({ populated.2.1 with status := .ok }, published)

/-- `backup_vault` from the temporary directory on. -/
def createBackup (destination : Bytes) (parent : Parent) (result : BackupResult) : BackupResult × Parent :=
  match env.random.map temporaryName with
  | none => (result, parent)
  | some temporary =>
    if (parent temporary).isSome then (result, parent)
    else if !env.created then
      (result, if env.leaves then Function.update parent temporary (some .other) else parent)
    else
      publishBackup env destination temporary parent
        (populateBackup D C databaseKey masterKey header env db source result)

/-- `backup_vault`, to a name in a directory. -/
def backupVault (destination : Bytes) (parent : Parent) : BackupResult × Parent :=
  if destination = [] then ({ status := .invalidArgument }, parent)
  else if !env.looks then ({ status := .ioError }, parent)
  else if (parent destination).isSome then ({ status := .alreadyExists }, parent)
  else
    let sourceHealth := verifyVault D C masterKey header.id env.source db source .deep
    if sourceHealth.status ≠ .ok then ({ status := .sourceCorrupt }, parent)
    else
      match env.databaseSize.bind (backupSpaceRequired · sourceHealth.referencedBytes), env.available with
      | some required, some available =>
        if available < required then
          ({ status := .insufficientSpace, requiredBytes := required, availableBytes := available }, parent)
        else
          createBackup D C databaseKey masterKey header env db source destination parent
            { requiredBytes := required, availableBytes := available }
      | _, _ => ({}, parent)

end Backup

/-! ## Restoring -/

/-- What a restore meets, before it backs up. -/
structure RestoreEnv where
  opens : Bool := true
  locks : Bool := true
  readsHeader : Bool := true
  opensDatabase : Bool := true

section Restore

variable (D : Deflate) (C : ObjectCrypto) (keys : KeyCrypto) (deriveDatabaseKey : Block 32 → NodeId → Block 32)
  (renv : RestoreEnv) (env : BackupEnv) (c : Credentials) (destination : Bytes) (parent : Parent)

/-- `restore_vault` from the header on. -/
def restoreWith (header : V3Header) (source : VaultDirectory) : BackupResult × Parent :=
  match unwrapV3MasterKey keys header c with
  | .error _ => ({ status := .sourceCorrupt }, parent)
  | .ok master =>
    match source.database with
    | none => ({ status := .sourceCorrupt }, parent)
    | some (key, db) =>
      if renv.opensDatabase ∧ key = deriveDatabaseKey master header.id then
        backupVault D C key master header env db source.disk destination parent
      else ({ status := .sourceCorrupt }, parent)

/-- `restore_vault`, where the key of a database is derived by `deriveDatabaseKey`. -/
def restoreVault (source : Option Place) : BackupResult × Parent :=
  match source with
  | some (.vault directory) =>
    if !renv.opens then ({ status := .sourceCorrupt }, parent)
    else if !renv.locks then ({ status := .ioError }, parent)
    else if hsize : renv.readsHeader = true ∧ directory.header.length = v3HeaderSize then
      match V3Header.parse ⟨directory.header, hsize.2⟩ with
      | .error _ => ({ status := .sourceCorrupt }, parent)
      | .ok header => restoreWith D C keys deriveDatabaseKey renv env c destination parent header directory
    else ({ status := .sourceCorrupt }, parent)
  | _ => ({ status := .sourceCorrupt }, parent)

end Restore

/-! ## What is copied -/

section Copies

variable {env : CopyEnv} {file : ObjectFile} {source destination before after d : ObjectDisk}
  {object r : ObjectRecord} {rows : List ObjectRecord} {bytes : Bytes} {length rounds offset : ℕ}
  {C : ObjectCrypto} {D : Deflate} {masterKey : Block 32} {info : ObjectInfo} {db : Database}
  {vaultId id : NodeId}

/-- The pieces are the file from the offset to the length. -/
theorem copyPieces_eq_some (hrounds : length - offset ≤ rounds)
    (h : copyPieces env file length rounds offset = some bytes) :
    bytes = Layout.slice offset (length - offset) file.bytes ∧ (length ≤ offset ∨ length ≤ file.size) := by
  induction rounds generalizing offset bytes with
  | zero =>
    obtain rfl := Option.some.inj h
    rw [Nat.le_zero.mp hrounds, Layout.slice_eq_nil (.inl rfl)]
    exact ⟨rfl, .inl (Nat.sub_eq_zero_iff_le.mp (Nat.le_zero.mp hrounds))⟩
  | succ rounds ih =>
    rw [copyPieces] at h
    split_ifs at h with hmore
    swap
    · obtain rfl := Option.some.inj h
      rw [Nat.sub_eq_zero_of_le (Nat.not_lt.mp hmore), Layout.slice_eq_nil (.inl rfl)]
      exact ⟨rfl, .inl (Nat.not_lt.mp hmore)⟩
    have hpos : 0 < min copyPiece (length - offset) := lt_min (by decide) (Nat.sub_pos_of_lt hmore)
    have hle : min copyPiece (length - offset) ≤ length - offset := min_le_right _ _
    simp only [Option.bind_eq_bind, Option.bind_eq_some_iff, Option.guard_eq_some'] at h
    generalize min copyPiece (length - offset) = count at h hpos hle
    obtain ⟨-, -, chunk, hchunk, -, -, rest, hrest, hbytes⟩ := h
    obtain rfl := Option.some.inj hbytes
    rw [ObjectFile.readAt] at hchunk
    split_ifs at hchunk with hin
    obtain rfl := Option.some.inj hchunk
    obtain ⟨rfl, hlength⟩ := ih (by omega) hrest
    have hsize : offset + count ≤ file.size := hin.2.resolve_left hpos.ne'
    refine ⟨?_, .inr ?_⟩
    · rw [Layout.slice, Layout.slice, Layout.slice, ← List.drop_drop]
      have hsplit : length - offset = count + (length - (offset + count)) := by omega
      rw [hsplit, List.take_add]
    · rcases hlength with hlength | hlength
      · exact hlength.trans hsize
      · exact hlength

/-- What a copy that goes through has done: the file is published, with the bytes of the row. -/
theorem copyObject_eq_true (h : copyObject env source object destination = (true, d)) :
    ∃ stat file, source.dir.openObject object.objectId = some stat ∧
      file.bytes = (source.contents object.objectId).bytes.take object.encryptedLength ∧
      ∃ haccepts : destination.dir.accepts object.objectId = true,
        d = destination.withObject object.objectId file env.time haccepts := by
  rw [copyObject] at h
  rcases hopen : (if env.opensInput then source.dir.openObject object.objectId else none) with _ | stat
  · rw [hopen] at h
    cases h
  rw [hopen] at h
  dsimp only at h
  have hopen : source.dir.openObject object.objectId = some stat := by
    split_ifs at hopen
    exact hopen
  by_cases hstaging : (!env.staging) = true
  · rw [if_pos hstaging] at h
    cases h
  rw [if_neg hstaging] at h
  rcases hpieces : copyPieces env (source.contents object.objectId) object.encryptedLength
    object.encryptedLength 0 with _ | bytes
  · rw [hpieces] at h
    cases h
  rw [hpieces] at h
  dsimp only at h
  obtain ⟨rfl, -⟩ := copyPieces_eq_some (Nat.sub_le _ _) hpieces
  split_ifs at h with hlt hsynced
  · cases h
  swap
  · cases h
  obtain hrefused | ⟨haccepts, -, hpublished⟩ := ObjectDisk.publish_cases env.publication object.objectId
    ⟨_, hlt⟩ env.time destination
  · rw [hrefused] at h
    cases h
  · rw [hpublished] at h
    exact ⟨stat, ⟨_, hlt⟩, hopen, rfl, haccepts, (Prod.mk.inj h).2.symm⟩

/-- What the loop over the rows adds. -/
structure Copies (source : ObjectDisk) (rows : List ObjectRecord) (before after : ObjectDisk) : Prop where
  present : ∀ id, (after.dir.fileOf id).isSome = true ↔
    (before.dir.fileOf id).isSome = true ∨ ∃ r ∈ rows, r.objectId = id
  contents : ∀ r ∈ rows, after.contents r.objectId = source.contents r.objectId
  kept : ∀ id, (∀ r ∈ rows, r.objectId ≠ id) → after.contents id = before.contents id

theorem bytes_of_matched (hmatched : matched source.dir r = true) :
    (source.contents r.objectId).bytes.length = r.encryptedLength := by
  rw [matched, Option.any_eq_true] at hmatched
  obtain ⟨stat, hstat, hsize⟩ := hmatched
  rw [decide_eq_true_iff] at hsize
  rw [← hsize, source.size_eq _ _ hstat]
  rfl

theorem Copies.cons (hfile : file = source.contents object.objectId)
    (haccepts : before.dir.accepts object.objectId = true) {time : ℤ}
    (h : Copies source rows (before.withObject object.objectId file time haccepts) after) :
    Copies source (object :: rows) before after := by
  constructor
  · intro id
    have hmid : ((before.withObject object.objectId file time haccepts).dir.fileOf id).isSome = true ↔
        (before.dir.fileOf id).isSome = true ∨ object.objectId = id := by
      rw [ObjectDisk.withObject]
      dsimp only
      rw [fileOf_publishObject haccepts]
      split_ifs with hid
      · simp [hid]
      · rw [or_iff_left (Ne.symm hid)]
    rw [h.present, hmid, List.exists_mem_cons_iff, or_assoc]
  · intro r hr
    by_cases hlater : ∃ other ∈ rows, other.objectId = r.objectId
    · obtain ⟨other, hother, heq⟩ := hlater
      rw [← heq]
      exact h.contents other hother
    · rcases List.mem_cons.mp hr with rfl | hr
      · rw [h.kept _ fun other hother heq ↦ hlater ⟨other, hother, heq⟩, ObjectDisk.withObject]
        dsimp only
        rw [if_pos rfl, hfile]
      · exact absurd ⟨r, hr, rfl⟩ hlater
  · intro id hid
    obtain ⟨hne, hid⟩ := List.forall_mem_cons.mp hid
    rw [h.kept id hid, ObjectDisk.withObject]
    dsimp only
    rw [if_neg (Ne.symm hne)]

/-- **The loop over the rows**, when it goes through. -/
theorem copies_copyObjects {env : BackupEnv} {result out : BackupResult}
    (hmatched : ∀ r ∈ rows, matched source.dir r = true)
    (h : copyObjects env source rows result before = (true, out, after)) :
    Copies source rows before after ∧
      out = { result with
        copiedObjects := result.copiedObjects + rows.length
        copiedBytes := result.copiedBytes + (rows.map fun r ↦ UInt64.ofNat r.encryptedLength).sum } := by
  induction rows generalizing result before with
  | nil =>
    obtain ⟨hout, rfl⟩ := Prod.mk.inj (Prod.mk.inj h).2
    refine ⟨⟨by simp, by simp, fun _ _ ↦ rfl⟩, ?_⟩
    rw [← hout, List.map_nil, List.sum_nil, List.length_nil, add_zero, add_zero]
  | cons object rows ih =>
    rw [copyObjects] at h
    rcases hcopy : copyObject (env.copy object.objectId) source object before with ⟨copied, d⟩
    rw [hcopy] at h
    dsimp only at h
    rcases copied
    · cases h
    rw [Bool.not_true, if_neg Bool.false_ne_true] at h
    obtain ⟨hhead, htail⟩ := List.forall_mem_cons.mp hmatched
    obtain ⟨hrest, hout⟩ := ih htail h
    obtain ⟨stat, file, -, hbytes, haccepts, rfl⟩ := copyObject_eq_true hcopy
    have hfile : file = source.contents object.objectId := by
      rw [← bytes_of_matched hhead, List.take_length] at hbytes
      rcases file with ⟨fileBytes, hlt⟩
      rcases hsource : source.contents object.objectId with ⟨sourceBytes, hlt'⟩
      rw [hsource] at hbytes
      congr
    refine ⟨hrest.cons hfile haccepts, ?_⟩
    rw [hout, List.length_cons, List.map_cons, List.sum_cons, add_assoc, add_assoc, Nat.add_comm 1]

/-! ## What is read from a copy -/

/-- A copy of the objects of some rows: the same bytes under the same names, and no other file. -/
structure Mirrors (rows : List ObjectRecord) (source copy : ObjectDisk) : Prop where
  present : ∀ id, (copy.dir.fileOf id).isSome = true ↔ ∃ r ∈ rows, r.objectId = id
  contents : ∀ r ∈ rows, copy.contents r.objectId = source.contents r.objectId

theorem openObject_congr {objects objects' : Objects} (h : objects info.objectId = objects' info.objectId) :
    openObject C objects masterKey info = openObject C objects' masterKey info := by
  rw [openObject, openObject, h]

theorem load_congr (h : source.objects info.objectId = d.objects info.objectId) :
    source.load D C masterKey info = d.load D C masterKey info := by
  rw [ObjectDisk.load, ObjectDisk.load, openObject_congr h]

theorem authentic_congr (h : source.objects r.objectId = d.objects r.objectId) :
    authentic D C masterKey vaultId db source r = authentic D C masterKey vaultId db d r := by
  rw [authentic, authentic]
  congr 1
  funext mediaFormat
  rw [@openObject_congr C masterKey (r.expected vaultId mediaFormat) _ _ h]

theorem objectId_ne_of_authentic (h : authentic D C masterKey vaultId db d r = true) : r.objectId ≠ .zero := by
  rw [authentic, Option.any_eq_true] at h
  obtain ⟨mediaFormat, -, h⟩ := h
  rcases hopen : openObject C d.objects masterKey (r.expected vaultId mediaFormat) with status | reader
  · rw [hopen] at h
    cases h
  have hvalid := (openObject_eq_ok_iff.mp hopen).1
  simp only [validExpectedInfo, Bool.and_eq_true, decide_eq_true_eq] at hvalid
  exact hvalid.1.1.1.1.1

/-- An object that a row refers to is found in a directory that can be listed. -/
theorem objects_of_matched {entries : List ObjectEntry} (hlist : listObjects d.dir = some entries)
    (hid : r.objectId ≠ .zero) (hmatched : matched d.dir r = true) :
    d.objects r.objectId = some (d.contents r.objectId) := by
  rw [matched, Option.any_eq_true] at hmatched
  obtain ⟨stat, hstat, -⟩ := hmatched
  rw [ObjectDisk.objects, openObject_of_listObjects hlist hid hstat, Option.map_some]

end Copies

/-! ## Directories that can be listed -/

section Clean

variable {dir : ObjectsDir} {id : NodeId} {stat : FileStat}

/-- A directory with nothing but files of objects, all in their places. -/
structure ObjectsDir.Clean (dir : ObjectsDir) : Prop where
  opens : dir.opens = true
  readsToEnd : dir.readsToEnd = true
  shards : ∀ shard ∈ dir.shards, shard.opens = true ∧ shard.readsToEnd = true ∧
    (∃ id, shard.name = shardOf id) ∧
    ∀ file ∈ shard.files, ∃ id stat, shardOf id = shard.name ∧ file = ⟨nameOf id, some stat⟩

/-- Such a directory takes every object that it does not have. -/
theorem ObjectsDir.Clean.accepts (h : dir.Clean) (hnone : dir.fileOf id = none) : dir.accepts id = true := by
  rw [ObjectsDir.accepts, h.opens, Bool.true_and, List.all_eq_true]
  intro shard hshard
  by_cases hname : shard.name = shardOf id
  swap
  · rw [decide_eq_true hname, Bool.true_or]
  obtain ⟨hopens, -, -, hfiles⟩ := h.shards shard hshard
  rw [hopens, Bool.true_and, Bool.or_eq_true, Bool.not_eq_true', ← Bool.not_eq_true, Shard.has_iff,
    List.mem_map]
  refine .inr ?_
  rintro ⟨file, hfile, hfileName⟩
  obtain ⟨other, stat, -, rfl⟩ := hfiles file hfile
  have hsome := fileOf_eq_some_iff.mpr ⟨shard, hshard, hname, _, hfile, hfileName, rfl⟩
  rw [hnone] at hsome
  cases hsome

theorem ObjectsDir.Clean.publishObject (h : dir.Clean) : (dir.publishObject id stat).Clean := by
  constructor
  · exact h.opens
  · exact h.readsToEnd
  · intro shard hshard
    rw [ObjectsDir.publishObject] at hshard
    dsimp only at hshard
    split_ifs at hshard with hthere
    · obtain ⟨old, hold, rfl⟩ := List.mem_map.mp hshard
      obtain ⟨hopens, hreads, hid, hfiles⟩ := h.shards old hold
      split_ifs with hname
      swap
      · exact ⟨hopens, hreads, hid, hfiles⟩
      refine ⟨hopens, hreads, hid, ?_⟩
      intro file hfile
      rw [Shard.withFile] at hfile
      dsimp only at hfile
      split_ifs at hfile
      · exact hfiles file hfile
      · rcases List.mem_append.mp hfile with hfile | hfile
        · exact hfiles file hfile
        · exact ⟨id, stat, hname.symm, List.mem_singleton.mp hfile⟩
    · rcases List.mem_append.mp hshard with hshard | hshard
      · exact h.shards shard hshard
      · obtain rfl := List.mem_singleton.mp hshard
        refine ⟨rfl, rfl, ⟨id, rfl⟩, ?_⟩
        intro file hfile
        exact ⟨id, stat, rfl, List.mem_singleton.mp hfile⟩

/-- A loop whose rounds all go through goes through. -/
theorem exists_foldlM_of_forall {α β : Type} {f : β → α → Option β} {as : List α}
    (h : ∀ a ∈ as, ∀ acc, ∃ out, f acc a = some out) (acc : β) : ∃ out, as.foldlM f acc = some out := by
  induction as generalizing acc with
  | nil => exact ⟨acc, rfl⟩
  | cons a as ih =>
    obtain ⟨mid, hmid⟩ := h a List.mem_cons_self acc
    obtain ⟨out, hout⟩ := ih (fun b hb ↦ h b (List.mem_cons_of_mem _ hb)) mid
    refine ⟨out, ?_⟩
    rw [List.foldlM_cons, hmid]
    exact hout

theorem exists_listObjects_of_clean (h : dir.Clean) : ∃ entries, listObjects dir = some entries := by
  have hshard : ∀ shard ∈ dir.shards, ∀ acc, ∃ out, scanShard acc shard = some out := by
    intro shard hshard acc
    obtain ⟨hopens, hreads, ⟨id, hname⟩, hfiles⟩ := h.shards shard hshard
    have hfile : ∀ file ∈ shard.files, ∀ acc, ∃ out, scanFile shard.name acc file = some out := by
      intro file hfile acc
      obtain ⟨other, stat, hother, rfl⟩ := hfiles file hfile
      refine ⟨acc ++ [⟨other, stat⟩], ?_⟩
      rw [scanFile, isDots_nameOf, if_neg Bool.false_ne_true, ← hother]
      rw [show pathIn (shardOf other) (nameOf other) = objectRelativePath other from
        pathIn_objectRelativePath other, parse_objectRelativePath]
      rfl
    obtain ⟨out, hout⟩ := exists_foldlM_of_forall hfile acc
    refine ⟨out, ?_⟩
    rw [scanShard, hname, isDots_shardOf, if_neg Bool.false_ne_true, scanObjectShard, hopens, hreads, hout]
    have hdigit : ∀ i < 2, (hexValue (shard.name.getD i 0)).isSome := by
      intro i hi
      have hlength : i < (shardOf id).length := length_shardOf id ▸ hi
      rw [hname, List.getD_eq_getElem _ _ hlength]
      have hmem : (shardOf id)[i] ∈ (hexEncode id.bytes).take 2 := by
        rw [← shardOf_eq]
        exact List.getElem_mem hlength
      exact isSome_hexValue_of_mem (List.mem_of_mem_take hmem)
    have hdigits := And.intro (hdigit 0 (by decide)) (hdigit 1 (by decide))
    rw [guard, if_pos ⟨hname ▸ length_shardOf id, hdigits⟩]
    rfl
  obtain ⟨entries, hentries⟩ := exists_foldlM_of_forall hshard []
  refine ⟨entries, ?_⟩
  rw [listObjects, h.opens, h.readsToEnd, hentries]
  rfl

end Clean

/-! ## What a backup comes to -/

section Outcome

variable {D : Deflate} {C : ObjectCrypto} {databaseKey masterKey : Block 32} {header : V3Header}
  {env : BackupEnv} {db : Database} {source : ObjectDisk} {result : BackupResult} {destination name : Bytes}
  {parent : Parent} {copy : VaultDirectory} {vaultId : NodeId} {r : ObjectRecord}

/-- A complete copy of a vault. -/
structure BackupOf (D : Deflate) (C : ObjectCrypto) (databaseKey masterKey : Block 32) (header : V3Header)
    (db : Database) (source : ObjectDisk) (copy : VaultDirectory) : Prop where
  serialized : copy.header = header.serialize.bytes
  database : copy.database = some (databaseKey, db)
  mirrors : Mirrors db.objects source copy.disk
  listed : ∃ entries, listObjects copy.disk.dir = some entries
  flawless : Flawless D C masterKey header.id db copy.disk .deep
  /-- Every object is read as in the source. -/
  reads : ∀ r ∈ db.objects, ∃ mediaFormat plain, mediaFormatOf db.nodes r.nodeId = some mediaFormat ∧
    source.load D C masterKey (r.expected header.id mediaFormat) = .ok plain ∧
    copy.disk.load D C masterKey (r.expected header.id mediaFormat) = .ok plain ∧
    plain.length = r.plaintextLength

/-- The store finds the same objects in a copy. -/
theorem objects_of_mirrors {rows : List ObjectRecord} {d : ObjectDisk} {entries entries' : List ObjectEntry}
    (hlist : listObjects source.dir = some entries) (hlist' : listObjects d.dir = some entries')
    (hmirrors : Mirrors rows source d) (hr : r ∈ rows) (hid : r.objectId ≠ .zero)
    (hmatched : matched source.dir r = true) (hmatched' : matched d.dir r = true) :
    source.objects r.objectId = d.objects r.objectId := by
  rw [objects_of_matched hlist hid hmatched, objects_of_matched hlist' hid hmatched', hmirrors.contents r hr]

/-- A directory that is populated is a complete copy. -/
theorem backupOf_of_populateBackup (hrows : (db.objects.map (·.objectId)).Nodup)
    (hsource : Flawless D C masterKey header.id db source .deep)
    (hlist : ∃ entries, listObjects source.dir = some entries) {out : BackupResult}
    (h : populateBackup D C databaseKey masterKey header env db source result = (true, out, copy)) :
    BackupOf D C databaseKey masterKey header db source copy ∧
      out = { result with
        copiedObjects := result.copiedObjects + db.objects.length
        copiedBytes := result.copiedBytes + (db.objects.map fun r ↦ UInt64.ofNat r.encryptedLength).sum } := by
  rw [populateBackup] at h
  by_cases hheader : (!env.headerWritten) = true
  · rw [if_pos hheader] at h
    cases h
  rw [if_neg hheader] at h
  dsimp only at h
  by_cases hreferences : (!env.references) = true
  · rw [if_pos hreferences] at h
    cases h
  rw [if_neg hreferences] at h
  rcases hcopied : copyObjects env source db.objects result freshVault.disk with ⟨copied, counted, disk⟩
  rw [hcopied] at h
  dsimp only at h
  by_cases hstop : (!copied || !env.backedUp) = true
  · rw [if_pos hstop] at h
    cases h
  rw [if_neg hstop] at h
  obtain ⟨hverified, hrest⟩ := Prod.mk.inj h
  obtain ⟨rfl, rfl⟩ := Prod.mk.inj hrest
  obtain rfl : copied = true := by
    rcases copied
    · exact absurd rfl hstop
    · rfl
  rw [Bool.and_eq_true, decide_eq_true_iff] at hverified
  obtain ⟨hcopies, rfl⟩ := copies_copyObjects hsource.matched hcopied
  obtain ⟨hflawless, ⟨entries', hlist'⟩, -⟩ := flawless_of_verifyVault hrows hverified.2
  obtain ⟨entries, hlist⟩ := hlist
  have hmirrors : Mirrors db.objects source disk := by
    refine ⟨fun id ↦ ?_, hcopies.contents⟩
    rw [hcopies.present]
    refine or_iff_right ?_
    rintro ⟨⟩
  refine ⟨⟨rfl, rfl, hmirrors, ⟨entries', hlist'⟩, hflawless, fun r hr ↦ ?_⟩, rfl⟩
  obtain ⟨mediaFormat, plain, hformat, hload, hlength⟩ := load_of_authentic (hsource.authentic rfl r hr)
  have hsame := objects_of_mirrors hlist hlist' hmirrors hr
    (objectId_ne_of_authentic (hsource.authentic rfl r hr)) (hsource.matched r hr) (hflawless.matched r hr)
  refine ⟨mediaFormat, plain, hformat, hload, ?_, hlength⟩
  rw [← hload]
  exact (@load_congr source disk C D masterKey (r.expected header.id mediaFormat) hsame).symm

/-- What a backup that does not go through leaves: the names it has used itself, and nothing that opens
as a vault unless the rollback failed. -/
structure Abandoned (env : BackupEnv) (destination : Bytes) (parent left : Parent) : Prop where
  names : ∀ name, left name ≠ parent name → env.random.map temporaryName = some name ∨
    name = destination ∧ env.renames = true ∧ env.synced = false
  vaults : ∀ name copy, left name = some (.vault copy) → parent name = some (.vault copy) ∨ env.rollback = .kept

theorem Abandoned.refl (env : BackupEnv) (destination : Bytes) (parent : Parent) :
    Abandoned env destination parent parent :=
  ⟨fun _ hne ↦ absurd rfl hne, fun _ _ ↦ .inl⟩

/-- A rollback changes one name, and leaves no vault there if it goes through. -/
theorem rollBack_cases {backup : VaultDirectory} {held : Parent} :
    (∀ other, other ≠ name → rollBack env name backup held other = held other) ∧
      ∀ copy, rollBack env name backup held name = some (.vault copy) → env.rollback = .kept := by
  rw [rollBack]
  refine ⟨fun other hne ↦ Function.update_of_ne hne _ _, fun copy hcopy ↦ ?_⟩
  rw [Function.update_self] at hcopy
  rcases hrollback : env.rollback
  · rfl
  · rw [hrollback] at hcopy
    cases hcopy
  · rw [hrollback] at hcopy
    dsimp only at hcopy
    split_ifs at hcopy
    cases hcopy

theorem Abandoned.rollBack {backup : VaultDirectory} {held : Parent}
    (hname : env.random.map temporaryName = some name ∨
      name = destination ∧ env.renames = true ∧ env.synced = false)
    (hheld : ∀ other, other ≠ name → held other = parent other) :
    Abandoned env destination parent (V3.rollBack env name backup held) := by
  obtain ⟨hother, hkept⟩ := @rollBack_cases env name backup held
  refine ⟨fun other hne ↦ ?_, fun other copy hcopy ↦ ?_⟩
  · by_cases heq : other = name
    · exact heq ▸ hname
    · rw [hother other heq, hheld other heq] at hne
      exact absurd rfl hne
  · by_cases heq : other = name
    · exact .inr (hkept copy (heq ▸ hcopy))
    · rw [hother other heq, hheld other heq] at hcopy
      exact .inl hcopy

/-- The published directory, under its name. -/
theorem published_apply {backup : VaultDirectory} {temporary : Bytes} (hused : parent temporary = none)
    (name : Bytes) :
    Function.update (Function.update (Function.update parent temporary (some (.vault backup))) temporary none)
      destination (some (.vault backup)) name =
        if name = destination then some (.vault backup) else parent name := by
  rw [Function.update_apply, Function.update_idem, Function.update_apply]
  split_ifs with hname htemporary
  · rfl
  · rw [htemporary, hused]
  · rfl

theorem failedStatus_ne (env : BackupEnv) (destination : Bytes) (left : Parent) :
    failedStatus env destination left ≠ .ok := by
  rw [failedStatus]
  split_ifs
  · rintro ⟨⟩
  · rintro ⟨⟩

/-- The end of a backup: the directory that was populated gets its name, or is given up. -/
theorem publishBackup_cases {temporary : Bytes} {populated : Bool} {counted : BackupResult}
    (htemporary : env.random.map temporaryName = some temporary) (hused : parent temporary = none)
    (hcounted : counted.status ≠ .ok) :
    (populated = true ∧ publishBackup env destination temporary parent (populated, counted, copy) =
      ({ counted with status := .ok },
        fun name ↦ if name = destination then some (.vault copy) else parent name)) ∨
    ((publishBackup env destination temporary parent (populated, counted, copy)).1.status ≠ .ok ∧
      Abandoned env destination parent
        (publishBackup env destination temporary parent (populated, counted, copy)).2) := by
  have hheld : ∀ other, other ≠ temporary →
      Function.update parent temporary (some (.vault copy)) other = parent other :=
    fun other hne ↦ Function.update_of_ne hne _ _
  rw [publishBackup]
  dsimp only
  by_cases hpopulated : (!populated) = true
  · rw [if_pos hpopulated]
    exact .inr ⟨hcounted, .rollBack (.inl htemporary) hheld⟩
  rw [if_neg hpopulated]
  by_cases hrenames : (!plainStagingName destination || !env.renames ||
      (Function.update parent temporary (some (.vault copy)) destination).isSome) = true
  · rw [if_pos hrenames]
    exact .inr ⟨failedStatus_ne _ _ _, .rollBack (.inl htemporary) hheld⟩
  rw [if_neg hrenames]
  by_cases hsynced : (!env.synced) = true
  · rw [if_pos hsynced]
    refine .inr ⟨failedStatus_ne _ _ _, .rollBack (.inr ⟨rfl, ?_, ?_⟩) fun other hne ↦ ?_⟩
    · rw [Bool.or_eq_true, Bool.or_eq_true, not_or, not_or] at hrenames
      exact Bool.not_eq_false _ ▸ fun h ↦ hrenames.1.2 (by rw [h]; rfl)
    · exact Bool.not_eq_true' _ ▸ hsynced
    · rw [published_apply hused, if_neg hne]
  rw [if_neg hsynced]
  refine .inl ⟨?_, ?_⟩
  · rcases populated
    · exact absurd rfl hpopulated
    · rfl
  · rw [Prod.mk.injEq]
    exact ⟨rfl, funext (published_apply hused)⟩

/-- A backup that went through. -/
structure BackedUp (D : Deflate) (C : ObjectCrypto) (databaseKey masterKey : Block 32) (header : V3Header)
    (env : BackupEnv) (db : Database) (source : ObjectDisk) (destination : Bytes) (parent : Parent)
    (result : BackupResult) (left : Parent) (copy : VaultDirectory) : Prop where
  free : parent destination = none
  left : ∀ name, left name = if name = destination then some (.vault copy) else parent name
  backup : BackupOf D C databaseKey masterKey header db source copy
  copiedObjects : result.copiedObjects = db.objects.length
  copiedBytes : result.copiedBytes = (db.objects.map fun r ↦ UInt64.ofNat r.encryptedLength).sum
  /-- Two images of the database, the objects and a mebibyte were free. -/
  required : ∃ size, env.databaseSize = some size ∧
    result.requiredBytes.toNat = size.toNat * 2 + result.copiedBytes.toNat + 2 ^ 20
  available : env.available = some result.availableBytes ∧ result.requiredBytes ≤ result.availableBytes

/-- Copying counts, and leaves the status alone. -/
theorem status_copyObjects (rows : List ObjectRecord) (result : BackupResult) (d : ObjectDisk) :
    (copyObjects env source rows result d).2.1.status = result.status := by
  induction rows generalizing result d with
  | nil => rfl
  | cons object rows ih =>
    rw [copyObjects]
    split_ifs
    · rfl
    · exact ih _ _

theorem status_populateBackup :
    (populateBackup D C databaseKey masterKey header env db source result).2.1.status = result.status := by
  rw [populateBackup]
  split_ifs
  · rfl
  · rfl
  · dsimp only
    split_ifs
    · exact status_copyObjects _ _ _
    · exact status_copyObjects _ _ _

/-- Every backup is complete or given up. -/
theorem backupVault_cases (hrows : (db.objects.map (·.objectId)).Nodup) {left : Parent}
    (h : backupVault D C databaseKey masterKey header env db source destination parent = (result, left)) :
    (result.status = .ok ∧ ∃ copy, BackedUp D C databaseKey masterKey header env db source destination parent
      result left copy) ∨
    (result.status ≠ .ok ∧ Abandoned env destination parent left) := by
  have hrefused : ∀ refused : BackupResult, refused.status ≠ .ok → (refused, parent) = (result, left) →
      (result.status = .ok ∧ ∃ copy, BackedUp D C databaseKey masterKey header env db source destination parent
        result left copy) ∨ (result.status ≠ .ok ∧ Abandoned env destination parent left) := by
    intro refused hstatus heq
    obtain ⟨rfl, rfl⟩ := Prod.mk.inj heq
    exact .inr ⟨hstatus, .refl env destination parent⟩
  rw [backupVault] at h
  by_cases hempty : destination = []
  · rw [if_pos hempty] at h
    exact hrefused _ (by rintro ⟨⟩) h
  rw [if_neg hempty] at h
  by_cases hlooks : (!env.looks) = true
  · rw [if_pos hlooks] at h
    exact hrefused _ (by rintro ⟨⟩) h
  rw [if_neg hlooks] at h
  by_cases hthere : (parent destination).isSome = true
  · rw [if_pos hthere] at h
    exact hrefused _ (by rintro ⟨⟩) h
  rw [if_neg hthere] at h
  dsimp only at h
  by_cases hhealth : (verifyVault D C masterKey header.id env.source db source .deep).status ≠ .ok
  · rw [if_pos hhealth] at h
    exact hrefused _ (by rintro ⟨⟩) h
  rw [if_neg hhealth] at h
  obtain ⟨hflawless, hlist, hreferenced⟩ := flawless_of_verifyVault hrows (not_not.mp hhealth)
  rw [hreferenced] at h
  rcases hspace : env.databaseSize.bind (backupSpaceRequired · _) with _ | required
  · rw [hspace] at h
    exact hrefused _ (by rintro ⟨⟩) h
  rw [hspace] at h
  rcases havailable : env.available with _ | available
  · rw [havailable] at h
    exact hrefused _ (by rintro ⟨⟩) h
  rw [havailable] at h
  dsimp only at h
  by_cases hshort : available < required
  · rw [if_pos hshort] at h
    exact hrefused _ (by rintro ⟨⟩) h
  rw [if_neg hshort, createBackup] at h
  rcases htemporary : env.random.map temporaryName with _ | temporary
  · rw [htemporary] at h
    exact hrefused _ (by rintro ⟨⟩) h
  rw [htemporary] at h
  dsimp only at h
  by_cases hused : (parent temporary).isSome = true
  · rw [if_pos hused] at h
    exact hrefused _ (by rintro ⟨⟩) h
  rw [if_neg hused] at h
  by_cases hcreated : (!env.created) = true
  · rw [if_pos hcreated] at h
    obtain ⟨rfl, rfl⟩ := Prod.mk.inj h
    refine .inr ⟨by rintro ⟨⟩, fun name hne ↦ .inl ?_, fun name copy hcopy ↦ .inl ?_⟩
    · by_cases hname : name = temporary
      · rw [hname, htemporary]
      · split_ifs at hne
        · exact absurd (Function.update_of_ne hname _ _) hne
        · exact absurd rfl hne
    · split_ifs at hcopy
      · by_cases hname : name = temporary
        · rw [hname, Function.update_self] at hcopy
          cases hcopy
        · rw [Function.update_of_ne hname] at hcopy
          exact hcopy
      · exact hcopy
  rw [if_neg hcreated] at h
  rcases hpopulate : populateBackup D C databaseKey masterKey header env db source
    { requiredBytes := required, availableBytes := available } with ⟨populated, counted, copy⟩
  rw [hpopulate] at h
  have hstatus : counted.status = .ioError := by
    have hstatus := @status_populateBackup D C databaseKey masterKey header env db source
      { requiredBytes := required, availableBytes := available }
    rw [hpopulate] at hstatus
    exact hstatus
  have hcounted : counted.status ≠ .ok := by
    rw [hstatus]
    rintro ⟨⟩
  obtain ⟨hpopulated, hpublished⟩ | ⟨hfailed, habandoned⟩ := @publishBackup_cases env destination parent copy
    temporary populated counted htemporary (Option.not_isSome_iff_eq_none.mp hused) hcounted
  · rw [hpublished] at h
    obtain ⟨rfl, rfl⟩ := Prod.mk.inj h
    rw [hpopulated] at hpopulate
    obtain ⟨hbackup, rfl⟩ := backupOf_of_populateBackup hrows hflawless hlist hpopulate
    obtain ⟨size, hsize, hrequired⟩ := Option.bind_eq_some_iff.mp hspace
    refine .inl ⟨rfl, copy, Option.not_isSome_iff_eq_none.mp hthere, fun _ ↦ rfl, hbackup, ?_, ?_, ?_, ?_⟩
    · exact Nat.zero_add _
    · exact zero_add _
    · refine ⟨size, hsize, ?_⟩
      rw [backupSpaceRequired_eq_some_iff] at hrequired
      rw [zero_add]
      exact hrequired
    · exact ⟨havailable, UInt64.not_lt.mp hshort⟩
  · rw [h] at hfailed habandoned
    exact .inr ⟨hfailed, habandoned⟩

end Outcome

/-! ## When nothing goes wrong -/

section Calm

variable {D : Deflate} {C : ObjectCrypto} {databaseKey masterKey : Block 32} {header : V3Header}
  {env : BackupEnv} {db : Database} {source before d : ObjectDisk} {result : BackupResult}
  {file : ObjectFile} {object r : ObjectRecord} {rows : List ObjectRecord} {length : ℕ}
  {destination : Bytes} {parent : Parent} {random : Block 8} {size available : UInt64}

/-- A file that is long enough is copied. -/
theorem exists_copyPieces (h : length ≤ file.size) (rounds offset : ℕ) :
    ∃ bytes, copyPieces {} file length rounds offset = some bytes := by
  induction rounds generalizing offset with
  | zero => exact ⟨[], rfl⟩
  | succ rounds ih =>
    rw [copyPieces]
    split_ifs with hmore
    swap
    · exact ⟨[], rfl⟩
    have hsize := file.length_lt
    have hle : min copyPiece (length - offset) ≤ length - offset := min_le_right _ _
    generalize min copyPiece (length - offset) = count at hle
    have hin : offset < 2 ^ 63 ∧ (count = 0 ∨ offset + count ≤ file.size) := by
      refine ⟨?_, .inr ?_⟩
      · rw [ObjectFile.size] at h
        omega
      · omega
    obtain ⟨rest, hrest⟩ := ih (offset + count)
    refine ⟨Layout.slice offset count file.bytes ++ rest, ?_⟩
    have hread : file.readAt offset count = some (Layout.slice offset count file.bytes) := by
      rw [ObjectFile.readAt, if_pos hin]
    dsimp only
    rw [hread, hrest]
    rfl

theorem copyObject_calm {stat : FileStat} (hopen : source.dir.openObject object.objectId = some stat)
    (hmatched : matched source.dir object = true) (haccepts : d.dir.accepts object.objectId = true) :
    copyObject {} source object d =
      (true, d.withObject object.objectId (source.contents object.objectId) 0 haccepts) := by
  have hlength := bytes_of_matched hmatched
  obtain ⟨bytes, hpieces⟩ := exists_copyPieces (hlength ▸ le_rfl : object.encryptedLength ≤
    (source.contents object.objectId).size) object.encryptedLength 0
  obtain ⟨hbytes, -⟩ := copyPieces_eq_some (Nat.sub_le _ _) hpieces
  have hwhole : bytes = (source.contents object.objectId).bytes := by
    rw [hbytes, Nat.sub_zero, ← hlength]
    exact Layout.slice_zero_length
  rw [copyObject, if_pos rfl, hopen]
  dsimp only
  rw [Bool.not_true, if_neg Bool.false_ne_true, hpieces]
  dsimp only
  subst hwhole
  rw [dif_pos (source.contents object.objectId).length_lt, if_neg (by decide), ObjectDisk.publish,
    if_neg (by decide), dif_pos haccepts]
  rfl

theorem exists_copyObjects {entries : List ObjectEntry} (hcopy : ∀ id, env.copy id = {})
    (hlist : listObjects source.dir = some entries) (hrows : (rows.map (·.objectId)).Nodup)
    (hids : ∀ r ∈ rows, r.objectId ≠ .zero) (hmatched : ∀ r ∈ rows, matched source.dir r = true)
    (hclean : before.dir.Clean) (hfree : ∀ r ∈ rows, before.dir.fileOf r.objectId = none)
    (result : BackupResult) :
    ∃ out after, copyObjects env source rows result before = (true, out, after) ∧ after.dir.Clean := by
  induction rows generalizing before result with
  | nil => exact ⟨result, before, rfl, hclean⟩
  | cons object rows ih =>
    rw [List.map_cons, List.nodup_cons] at hrows
    obtain ⟨hid, hids⟩ := List.forall_mem_cons.mp hids
    obtain ⟨hobject, hmatched⟩ := List.forall_mem_cons.mp hmatched
    obtain ⟨hnone, hfree⟩ := List.forall_mem_cons.mp hfree
    have haccepts := hclean.accepts hnone
    obtain ⟨stat, hstat, -⟩ := Option.any_eq_true _ _ |>.mp hobject
    have hopen := openObject_of_listObjects hlist hid hstat
    rw [copyObjects, hcopy, copyObject_calm hopen hobject haccepts]
    dsimp only
    rw [Bool.not_true, if_neg Bool.false_ne_true]
    refine ih hrows.2 hids hmatched hclean.publishObject ?_ _
    intro r hr
    rw [ObjectDisk.withObject]
    dsimp only
    rw [fileOf_publishObject haccepts, if_neg, hfree r hr]
    intro heq
    exact hrows.1 (List.mem_map.mpr ⟨r, hr, heq⟩)

/-- A copy of a flawless vault is flawless. -/
theorem flawless_of_mirrors {vaultId : NodeId} {entries entries' : List ObjectEntry}
    (hlist : listObjects source.dir = some entries) (hlist' : listObjects d.dir = some entries')
    (hsource : Flawless D C masterKey vaultId db source .deep) (hmirrors : Mirrors db.objects source d) :
    Flawless D C masterKey vaultId db d .deep := by
  have hmatched : ∀ r ∈ db.objects, matched d.dir r = true := by
    intro r hr
    obtain ⟨stat, hstat⟩ := Option.isSome_iff_exists.mp ((hmirrors.present r.objectId).mpr ⟨r, hr, rfl⟩)
    rw [matched, hstat, Option.any_some, decide_eq_true_iff, d.size_eq _ _ hstat, hmirrors.contents r hr]
    exact bytes_of_matched (hsource.matched r hr)
  refine ⟨hsource.complete, hmatched, fun _ r hr ↦ ?_⟩
  have hgood := hsource.authentic rfl r hr
  have hsame := objects_of_mirrors hlist hlist' hmirrors hr (objectId_ne_of_authentic hgood)
    (hsource.matched r hr) (hmatched r hr)
  rw [← authentic_congr hsame]
  exact hgood

theorem exists_populateBackup (hheader : env.headerWritten = true) (hreferences : env.references = true)
    (hcopy : ∀ id, env.copy id = {}) (hbackedUp : env.backedUp = true) (hopens : env.opensCopy = true)
    (hverify : env.verify = {}) (hrows : (db.objects.map (·.objectId)).Nodup)
    (hsource : Flawless D C masterKey header.id db source .deep) {entries : List ObjectEntry}
    (hlist : listObjects source.dir = some entries) (result : BackupResult) :
    ∃ out copy, populateBackup D C databaseKey masterKey header env db source result = (true, out, copy) := by
  have hempty : freshVault.disk.dir.Clean := by
    refine ⟨rfl, rfl, ?_⟩
    rintro shard ⟨⟩
  obtain ⟨out, after, hcopied, hclean⟩ := exists_copyObjects hcopy hlist hrows
    (fun r hr ↦ objectId_ne_of_authentic (hsource.authentic rfl r hr)) hsource.matched hempty
    (fun _ _ ↦ rfl) result
  obtain ⟨hcopies, -⟩ := copies_copyObjects hsource.matched hcopied
  have hmirrors : Mirrors db.objects source after := by
    refine ⟨fun id ↦ ?_, hcopies.contents⟩
    rw [hcopies.present]
    refine or_iff_right ?_
    rintro ⟨⟩
  obtain ⟨entries', hlist'⟩ := exists_listObjects_of_clean hclean
  have hflawless := flawless_of_mirrors hlist hlist' hsource hmirrors
  have hverified : (verifyVault D C masterKey header.id {} db after .deep).status = .ok := by
    obtain ⟨-, hok⟩ | ⟨hnot, -⟩ := @status_verifyVault D C db after entries' masterKey header.id hrows hlist'
      .deep
    · exact hok
    · exact absurd hflawless hnot
  refine ⟨out, ⟨header.serialize.bytes, some (databaseKey, db), after⟩, ?_⟩
  rw [populateBackup, hheader, hreferences, hbackedUp, hopens, hverify, Bool.not_true,
    if_neg Bool.false_ne_true]
  dsimp only
  rw [if_neg Bool.false_ne_true, hcopied]
  dsimp only
  rw [hverified]
  rfl

/-- Nothing goes wrong, and there is so much space. -/
def BackupEnv.calm (size available : UInt64) (random : Block 8) : BackupEnv where
  databaseSize := some size
  available := some available
  random := some random

/-- A name a backup can have: it is plain, and neither it nor the temporary one is taken. -/
structure Usable (random : Block 8) (destination : Bytes) (parent : Parent) : Prop where
  plain : plainStagingName destination = true
  free : parent destination = none
  unused : parent (temporaryName random) = none
  apart : destination ≠ temporaryName random

/-- **A flawless vault is backed up**, when there is enough space and nothing fails. -/
theorem status_backupVault_calm (hrows : (db.objects.map (·.objectId)).Nodup)
    (hsource : Flawless D C masterKey header.id db source .deep) {entries : List ObjectEntry}
    (hlist : listObjects source.dir = some entries) (husable : Usable random destination parent)
    (hspace : size.toNat * 2 + (db.objects.map fun r ↦ UInt64.ofNat r.encryptedLength).sum.toNat + 2 ^ 20 ≤
      available.toNat) :
    (backupVault D C databaseKey masterKey header (.calm size available random) db source destination
      parent).1.status = .ok := by
  have hplain := husable.plain
  have hname : destination ≠ [] := by
    rintro rfl
    cases hplain
  have hhealth : (verifyVault D C masterKey header.id {} db source .deep).status = .ok := by
    obtain ⟨-, hok⟩ | ⟨hnot, -⟩ := @status_verifyVault D C db source entries masterKey header.id hrows hlist
      .deep
    · exact hok
    · exact absurd hsource hnot
  obtain ⟨-, -, hreferenced⟩ := flawless_of_verifyVault hrows hhealth
  have hlt := available.toNat_lt
  have hrequired : backupSpaceRequired size (db.objects.map fun r ↦ UInt64.ofNat r.encryptedLength).sum =
      some (.ofNat (size.toNat * 2 + (db.objects.map fun r ↦ UInt64.ofNat r.encryptedLength).sum.toNat +
        2 ^ 20)) := by
    rw [backupSpaceRequired_eq_some_iff, UInt64.toNat_ofNat']
    exact Nat.mod_eq_of_lt (hspace.trans_lt hlt)
  have hshort : ¬ available < .ofNat (size.toNat * 2 +
      (db.objects.map fun r ↦ UInt64.ofNat r.encryptedLength).sum.toNat + 2 ^ 20) := by
    rw [UInt64.lt_iff_toNat_lt, UInt64.toNat_ofNat', Nat.mod_eq_of_lt (hspace.trans_lt hlt)]
    exact Nat.not_lt.mpr hspace
  rw [backupVault, if_neg hname, if_neg (by rintro ⟨⟩), husable.free, if_neg (by rintro ⟨⟩)]
  dsimp only [BackupEnv.calm]
  rw [hhealth, if_neg (not_not_intro rfl), hreferenced, Option.bind_some, hrequired]
  dsimp only
  rw [if_neg hshort, createBackup]
  dsimp only [Option.map]
  rw [husable.unused, if_neg (by rintro ⟨⟩), if_neg (by rintro ⟨⟩)]
  obtain ⟨out, copy, hpopulate⟩ := @exists_populateBackup D C databaseKey masterKey header
    (.calm size available random) db source rfl rfl (fun _ ↦ rfl) rfl rfl rfl hrows hsource entries hlist _
  rw [BackupEnv.calm] at hpopulate
  rw [hpopulate, publishBackup]
  dsimp only
  rw [if_neg (by rintro ⟨⟩), hplain, Function.update_of_ne husable.apart, husable.free, if_neg (by rintro ⟨⟩),
    if_neg (by rintro ⟨⟩)]

end Calm

/-! ## Backups and restores -/

section Restore

variable {D : Deflate} {C : ObjectCrypto} {databaseKey masterKey : Block 32} {header : V3Header}
  {env : BackupEnv} {db : Database} {source : ObjectDisk} {copy third : VaultDirectory} {destination : Bytes}
  {parent left : Parent} {keys : KeyCrypto} {c : Credentials} {deriveDatabaseKey : Block 32 → NodeId → Block 32}

/-- A copy of a copy is a copy. -/
theorem BackupOf.trans (h : BackupOf D C databaseKey masterKey header db source copy)
    (h' : BackupOf D C databaseKey masterKey header db copy.disk third) :
    BackupOf D C databaseKey masterKey header db source third where
  serialized := h'.serialized
  database := h'.database
  mirrors :=
    { present := h'.mirrors.present
      contents := fun r hr ↦ (h'.mirrors.contents r hr).trans (h.mirrors.contents r hr) }
  listed := h'.listed
  flawless := h'.flawless
  reads := by
    intro r hr
    obtain ⟨mediaFormat, plain, hformat, hsource, hcopy, hlength⟩ := h.reads r hr
    obtain ⟨mediaFormat', plain', hformat', hcopy', hthird, -⟩ := h'.reads r hr
    obtain rfl : mediaFormat = mediaFormat' := Option.some.inj (hformat.symm.trans hformat')
    obtain rfl : plain = plain' := Except.ok.inj (hcopy.symm.trans hcopy')
    exact ⟨mediaFormat, plain, hformat, hsource, hthird, hlength⟩

/-- A restore reads the header that was written, or is refused. -/
theorem restoreVault_cases (hvalid : header.Valid) (hserialized : copy.header = header.serialize.bytes)
    (renv : RestoreEnv) :
    (renv.opens = true ∧ renv.locks = true ∧ renv.readsHeader = true ∧
      restoreVault D C keys deriveDatabaseKey renv env c destination parent (some (.vault copy)) =
        restoreWith D C keys deriveDatabaseKey renv env c destination parent header copy) ∨
    (¬ (renv.opens = true ∧ renv.locks = true ∧ renv.readsHeader = true) ∧ ∃ refused : BackupResult,
      refused.status ≠ .ok ∧
        restoreVault D C keys deriveDatabaseKey renv env c destination parent (some (.vault copy)) =
          (refused, parent)) := by
  rcases copy with ⟨bytes, database, disk⟩
  obtain rfl : bytes = header.serialize.bytes := hserialized
  have hparse : V3Header.parse ⟨header.serialize.bytes, header.serialize.size⟩ = .ok header :=
    V3Header.parse_serialize hvalid
  rw [restoreVault]
  by_cases hopens : renv.opens = true
  swap
  · rw [if_pos (by rw [Bool.not_eq_true', ← Bool.not_eq_true]; exact hopens)]
    exact .inr ⟨fun h ↦ hopens h.1, _, by rintro ⟨⟩, rfl⟩
  rw [if_neg (by rw [hopens]; rintro ⟨⟩)]
  by_cases hlocks : renv.locks = true
  swap
  · rw [if_pos (by rw [Bool.not_eq_true', ← Bool.not_eq_true]; exact hlocks)]
    exact .inr ⟨fun h ↦ hlocks h.2.1, _, by rintro ⟨⟩, rfl⟩
  rw [if_neg (by rw [hlocks]; rintro ⟨⟩)]
  by_cases hreads : renv.readsHeader = true
  swap
  · rw [dif_neg fun h ↦ hreads h.1]
    exact .inr ⟨fun h ↦ hreads h.2.2, _, by rintro ⟨⟩, rfl⟩
  rw [dif_pos ⟨hreads, header.serialize.size⟩]
  dsimp only
  rw [hparse]
  exact .inl ⟨hopens, hlocks, hreads, rfl⟩

/-- With the credentials of the vault, a restore of a copy is a backup of it. -/
theorem restoreWith_eq (hunwrap : unwrapV3MasterKey keys header c = .ok masterKey)
    (hcopy : BackupOf D C (deriveDatabaseKey masterKey header.id) masterKey header db source copy)
    (renv : RestoreEnv) :
    restoreWith D C keys deriveDatabaseKey renv env c destination parent header copy =
      if renv.opensDatabase then
        backupVault D C (deriveDatabaseKey masterKey header.id) masterKey header env db copy.disk destination
          parent
      else ({ status := .sourceCorrupt }, parent) := by
  rw [restoreWith, hunwrap, hcopy.database]
  dsimp only
  by_cases hopens : renv.opensDatabase = true
  · rw [if_pos ⟨hopens, rfl⟩, if_pos hopens]
  · rw [if_neg fun h ↦ hopens h.1, if_neg hopens]

/-- With others there is none. -/
theorem restoreVault_of_not_unwrap (hvalid : header.Valid)
    (hunwrap : ∀ master, unwrapV3MasterKey keys header c ≠ .ok master) (renv : RestoreEnv)
    (hserialized : copy.header = header.serialize.bytes) :
    ∃ refused : BackupResult, refused.status ≠ .ok ∧
      restoreVault D C keys deriveDatabaseKey renv env c destination parent (some (.vault copy)) =
        (refused, parent) := by
  obtain ⟨-, -, -, heq⟩ | ⟨-, hrefused⟩ := @restoreVault_cases D C header env copy destination parent keys c
    deriveDatabaseKey hvalid hserialized renv
  swap
  · exact hrefused
  rw [heq, restoreWith]
  rcases hmaster : unwrapV3MasterKey keys header c with status | master
  · exact ⟨_, by rintro ⟨⟩, rfl⟩
  · exact absurd hmaster (hunwrap master)

end Restore

/-- **A backup is complete or absent.** -/
theorem backup_complete_or_absent (D : Deflate) (C : ObjectCrypto) (databaseKey masterKey : Block 32)
    (header : V3Header) (db : Database) (source : ObjectDisk) (destination : Bytes) (parent : Parent)
    (hrows : (db.objects.map (·.objectId)).Nodup) :
    (∀ env result left,
      backupVault D C databaseKey masterKey header env db source destination parent = (result, left) →
      (result.status = .ok ∧ ∃ copy, BackedUp D C databaseKey masterKey header env db source destination parent
        result left copy) ∨
      (result.status ≠ .ok ∧ Abandoned env destination parent left)) ∧
    ∀ entries size available random, Flawless D C masterKey header.id db source .deep →
      listObjects source.dir = some entries → Usable random destination parent →
      size.toNat * 2 + (db.objects.map fun r ↦ UInt64.ofNat r.encryptedLength).sum.toNat + 2 ^ 20 ≤
        available.toNat →
      (backupVault D C databaseKey masterKey header (.calm size available random) db source destination
        parent).1.status = .ok :=
  ⟨fun _ _ _ h ↦ backupVault_cases hrows h,
    fun _ _ _ _ hsource hlist husable hspace ↦ status_backupVault_calm hrows hsource hlist husable hspace⟩

/-- **A restored backup is the vault**, with its header, its rows and the bytes of its objects. -/
theorem restore_of_backup (D : Deflate) (C : ObjectCrypto) (keys : KeyCrypto)
    (deriveDatabaseKey : Block 32 → NodeId → Block 32) (c : Credentials) (masterKey : Block 32)
    (header : V3Header) (env : BackupEnv) (db : Database) (source : ObjectDisk) (destination : Bytes)
    (parent left : Parent) (result : BackupResult) (hrows : (db.objects.map (·.objectId)).Nodup)
    (hvalid : header.Valid) (hunwrap : unwrapV3MasterKey keys header c = .ok masterKey)
    (hbackup : backupVault D C (deriveDatabaseKey masterKey header.id) masterKey header env db source destination
      parent = (result, left))
    (hok : result.status = .ok) :
    (∀ renv env' destination' parent' result' left', restoreVault D C keys deriveDatabaseKey renv env' c
        destination' parent' (left destination) = (result', left') →
      (result'.status = .ok ∧ ∃ third, left' destination' = some (.vault third) ∧
        BackupOf D C (deriveDatabaseKey masterKey header.id) masterKey header db source third) ∨
      (result'.status ≠ .ok ∧ Abandoned env' destination' parent' left')) ∧
    (∀ size available random destination' parent', Usable random destination' parent' →
      size.toNat * 2 + (db.objects.map fun r ↦ UInt64.ofNat r.encryptedLength).sum.toNat + 2 ^ 20 ≤
        available.toNat →
      (restoreVault D C keys deriveDatabaseKey {} (.calm size available random) c destination' parent'
        (left destination)).1.status = .ok) ∧
    ∀ c' renv env' destination' parent', (∀ master, unwrapV3MasterKey keys header c' ≠ .ok master) →
      ∃ refused : BackupResult, refused.status ≠ .ok ∧
        restoreVault D C keys deriveDatabaseKey renv env' c' destination' parent' (left destination) =
          (refused, parent') := by
  obtain ⟨-, copy, hcopy⟩ | ⟨hnot, -⟩ := backupVault_cases hrows hbackup
  swap
  · exact absurd hok hnot
  have hthere : left destination = some (.vault copy) := by
    rw [hcopy.left, if_pos rfl]
  rw [hthere]
  refine ⟨?_, ?_, ?_⟩
  · intro renv env' destination' parent' result' left' hrestore
    have hrefused : ∀ refused : BackupResult, refused.status ≠ .ok → (refused, parent') = (result', left') →
        result'.status ≠ .ok ∧ Abandoned env' destination' parent' left' := by
      intro refused hstatus heq
      obtain ⟨rfl, rfl⟩ := Prod.mk.inj heq
      exact ⟨hstatus, .refl env' destination' parent'⟩
    obtain ⟨-, -, -, heq⟩ | ⟨-, refused, hstatus, heq⟩ := @restoreVault_cases D C header env' copy destination'
      parent' keys c deriveDatabaseKey hvalid hcopy.backup.serialized renv
    swap
    · exact .inr (hrefused refused hstatus (heq.symm.trans hrestore))
    rw [heq, restoreWith_eq hunwrap hcopy.backup] at hrestore
    by_cases hopens : renv.opensDatabase = true
    swap
    · rw [if_neg hopens] at hrestore
      exact .inr (hrefused _ (by rintro ⟨⟩) hrestore)
    rw [if_pos hopens] at hrestore
    obtain ⟨hok', third, hthird⟩ | hnot := backupVault_cases hrows hrestore
    · refine .inl ⟨hok', third, ?_, hcopy.backup.trans hthird.backup⟩
      rw [hthird.left, if_pos rfl]
    · exact .inr hnot
  · intro size available random destination' parent' husable hspace
    obtain ⟨-, -, -, heq⟩ | ⟨hnot, -⟩ := @restoreVault_cases D C header (.calm size available random) copy
      destination' parent' keys c deriveDatabaseKey hvalid hcopy.backup.serialized {}
    swap
    · exact absurd ⟨rfl, rfl, rfl⟩ hnot
    rw [heq, restoreWith_eq hunwrap hcopy.backup, if_pos rfl]
    obtain ⟨entries, hlist⟩ := hcopy.backup.listed
    exact status_backupVault_calm hrows hcopy.backup.flawless hlist husable hspace
  · intro c' renv env' destination' parent' hunwrap'
    exact restoreVault_of_not_unwrap hvalid hunwrap' renv hcopy.backup.serialized

/-! ## An image of five bytes -/

def smallDisk : ObjectDisk :=
  (freshVault.disk.writeObjectStream idleDeflate plainCrypto (.zero 32) countingEnv smallRequest 5 0).2

/-- The row of the image. -/
def smallRow : ObjectRecord := smallInfo.record.commit 1

def smallDatabase : Database where
  nodes := .branch { name := [], nodeId := .ofBytes [9] }
    [.leaf { name := [97], nodeId := smallRequest.ownerNodeId } (.image { format := ⟨0⟩, origSize := 5 })]
  objects := [smallRow]
  metadata := {}

/-- The header of the credentials `a`. -/
def smallHeader : V3Header :=
  (createV3Header .sample sampleDraws ⟨ascii "a", []⟩ {}).toOption.elim (V3Header.parseFields []) (·.1)

theorem flawless_small :
    Flawless idleDeflate plainCrypto (.zero 32) smallHeader.id smallDatabase smallDisk .deep :=
  ⟨by decide +kernel, by decide +kernel, fun _ ↦ by decide +kernel⟩

theorem usable_small : Usable (.zero 8) (ascii "b") fun _ ↦ none :=
  ⟨by decide, rfl, rfl, by decide⟩

/-- The image is in the backup. -/
theorem backup_complete_or_absent_small : ∃ left copy,
    (backupVault idleDeflate plainCrypto (.zero 32) (.zero 32) smallHeader (.calm 4096 (2 ^ 30) (.zero 8))
      smallDatabase smallDisk (ascii "b") fun _ ↦ none).2 = left ∧
    left (ascii "b") = some (.vault copy) ∧
    copy.disk.contents smallRow.objectId = smallDisk.contents smallRow.objectId := by
  obtain ⟨hcases, hcalm⟩ := backup_complete_or_absent idleDeflate plainCrypto (.zero 32) (.zero 32) smallHeader
    smallDatabase smallDisk (ascii "b") (fun _ ↦ none) (by decide +kernel)
  have hok := hcalm [⟨smallRow.objectId, ⟨520, 0⟩⟩] 4096 (2 ^ 30) (.zero 8) flawless_small (by decide +kernel)
    usable_small (by decide +kernel)
  rcases hrun : backupVault idleDeflate plainCrypto (.zero 32) (.zero 32) smallHeader
    (.calm 4096 (2 ^ 30) (.zero 8)) smallDatabase smallDisk (ascii "b") (fun _ ↦ none) with ⟨result, left⟩
  rw [hrun] at hok
  obtain ⟨-, copy, hcopy⟩ | ⟨hnot, -⟩ := hcases _ _ _ hrun
  · refine ⟨left, copy, rfl, ?_, hcopy.backup.mirrors.contents smallRow List.mem_cons_self⟩
    rw [hcopy.left, if_pos rfl]
  · exact absurd hok hnot

/-- The image is in what is restored from it. -/
theorem restore_of_backup_small : ∃ left left' third,
    (backupVault idleDeflate plainCrypto (.zero 32) (.zero 32) smallHeader (.calm 4096 (2 ^ 30) (.zero 8))
      smallDatabase smallDisk (ascii "b") fun _ ↦ none).2 = left ∧
    (restoreVault idleDeflate plainCrypto .sample (fun _ _ ↦ .zero 32) {} (.calm 4096 (2 ^ 30) (.zero 8))
      ⟨ascii "a", []⟩ (ascii "b") (fun _ ↦ none) (left (ascii "b"))).2 = left' ∧
    left' (ascii "b") = some (.vault third) ∧
    third.disk.contents smallRow.objectId = smallDisk.contents smallRow.objectId := by
  have hrows : (smallDatabase.objects.map (·.objectId)).Nodup := by decide +kernel
  have hok := @status_backupVault_calm idleDeflate plainCrypto (.zero 32) (.zero 32) smallHeader smallDatabase
    smallDisk (ascii "b") (fun _ ↦ none) (.zero 8) 4096 (2 ^ 30) hrows flawless_small
    [⟨smallRow.objectId, ⟨520, 0⟩⟩] (by decide +kernel) usable_small (by decide +kernel)
  rcases hrun : backupVault idleDeflate plainCrypto (.zero 32) (.zero 32) smallHeader
    (.calm 4096 (2 ^ 30) (.zero 8)) smallDatabase smallDisk (ascii "b") (fun _ ↦ none) with ⟨result, left⟩
  rw [hrun] at hok
  obtain ⟨hrestore, hcalm, -⟩ := restore_of_backup idleDeflate plainCrypto .sample (fun _ _ ↦ .zero 32)
    ⟨ascii "a", []⟩ (.zero 32) smallHeader (.calm 4096 (2 ^ 30) (.zero 8)) smallDatabase smallDisk (ascii "b")
    (fun _ ↦ none) left result hrows ⟨by decide +kernel, by decide +kernel, by decide +kernel⟩ rfl hrun hok
  have hok' := hcalm 4096 (2 ^ 30) (.zero 8) (ascii "b") (fun _ ↦ none) usable_small (by decide +kernel)
  rcases hrun' : restoreVault idleDeflate plainCrypto .sample (fun _ _ ↦ .zero 32) {}
    (.calm 4096 (2 ^ 30) (.zero 8)) ⟨ascii "a", []⟩ (ascii "b") (fun _ ↦ none) (left (ascii "b")) with
    ⟨result', left'⟩
  rw [hrun'] at hok'
  obtain ⟨-, third, hthere, hthird⟩ | ⟨hnot, -⟩ := hrestore _ _ _ _ _ _ hrun'
  · exact ⟨left, left', third, rfl, congrArg Prod.snd hrun', hthere,
      hthird.mirrors.contents smallRow List.mem_cons_self⟩
  · exact absurd hok' hnot

end V3

end SafeVault
