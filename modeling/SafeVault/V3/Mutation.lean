import SafeVault.V3.ObjectDisk
import SafeVault.V3.Session

/-!
# Changing one object at a time

Without a session, a coordinator that holds the lock of the vault creates, replaces and removes the
object of a pair. The file comes first and the row after it; a file that no row refers to any more goes
last. So when a step fails, what is left over is a file without a row.
-/

namespace SafeVault

namespace V3

/-! ## The rows -/

namespace Database

/-- The generation after the next commit, if there is one. -/
def nextGeneration (db : Database) : Except DbStatus ℕ := do
  require (db.metadata.settings.appGeneration ≠ 2 ^ 63 - 1) .constraint
  pure (db.metadata.settings.appGeneration + 1)

/-- The database with other rows, as of a generation. -/
def withObjects (db : Database) (objects : List ObjectRecord) (generation : ℕ) : Database :=
  { db with
    objects
    metadata := { db.metadata with
      settings := { db.metadata.settings with appGeneration := generation } } }

/-- `insert_object`, for a node that is there. -/
def insertObject (db : Database) (rows : List ObjectRecord) (object : ObjectRecord) :
    Except DbStatus (List ObjectRecord) := do
  let rows ← Table.insert objectRule rows object
  require (object.nodeId ∈ liveNodes db.nodes) .constraint
  pure rows

/-- The object of a pair. -/
def objectOf (db : Database) (key : ObjectKey) : Option NodeId :=
  (db.objects.find? (·.key = key)).map (·.objectId)

/-- `commit_object_create`; `begin` and `commit` stand for what can fail for reasons of its own. -/
def commitObjectCreate (begin commit : DbStatus) (object : ObjectRecord) (db : Database) :
    Except DbStatus Database := do
  proceed begin
  let generation ← db.nextGeneration
  let rows ← db.insertObject db.objects (object.commit generation)
  proceed commit
  pure (db.withObjects rows generation)

/-- `commit_object_replace`, with the object that was there before. -/
def commitObjectReplace (begin commit : DbStatus) (object : ObjectRecord) (db : Database) :
    Except DbStatus (Option NodeId × Database) := do
  require (object.nodeId ≠ .zero) .invalidArgument
  proceed begin
  let old := db.objectOf object.key
  let generation ← db.nextGeneration
  let rows ← db.insertObject (db.objects.filter fun r ↦ some r.objectId ≠ old) (object.commit generation)
  proceed commit
  pure (old, db.withObjects rows generation)

/-- `commit_object_delete`, with the object that was there before. -/
def commitObjectDelete (begin commit : DbStatus) (key : ObjectKey) (db : Database) :
    Except DbStatus (Option NodeId × Database) := do
  require (key.1 ≠ .zero) .invalidArgument
  proceed begin
  match db.objectOf key with
  | none =>
    proceed commit
    pure (none, db)
  | some old =>
    proceed commit
    pure (some old, db.withObjects (db.objects.filter fun r ↦ r.objectId ≠ old)
      (db.metadata.settings.appGeneration + 1))

end Database

/-! ## The coordinator -/

inductive MutationStatus where
  | ok | objectWriteFailed | databaseFailed | cleanupPending
  deriving DecidableEq

/-- What a mutation meets. -/
structure MutationEnv where
  write : WriteEnv
  time : ℤ
  begin : DbStatus
  commit : DbStatus
  unlink : UnlinkOutcome

/-- A vault without a session: the rows and the files. -/
structure Coordinator where
  db : Database
  disk : ObjectDisk

namespace Coordinator

/-- `unlink_object`, which fails for a file that is not there. -/
def unlinkObject (outcome : UnlinkOutcome) (id : NodeId) (disk : ObjectDisk) : Bool × ObjectDisk :=
  if outcome = .refused ∨ (disk.dir.fileOf id).isNone then (false, disk)
  else (outcome = .done, disk.unlink id)

section Write

variable (D : Deflate) (C : ObjectCrypto) (masterKey : Block 32) (env : MutationEnv)

def create (request : ObjectWriteRequest) (plaintextLength : ℕ) (v : Coordinator) :
    MutationStatus × Coordinator :=
  match v.disk.writeObjectStream D C masterKey env.write request plaintextLength env.time with
  | (.error _, disk) => (.objectWriteFailed, { v with disk })
  | (.ok info, disk) =>
    match v.db.commitObjectCreate env.begin env.commit info.record with
    | .error _ => (.databaseFailed, { v with disk })
    | .ok db => (.ok, { db, disk })

def replace (request : ObjectWriteRequest) (plaintextLength : ℕ) (v : Coordinator) :
    MutationStatus × Coordinator :=
  match v.disk.writeObjectStream D C masterKey env.write request plaintextLength env.time with
  | (.error _, disk) => (.objectWriteFailed, { v with disk })
  | (.ok info, disk) =>
    match v.db.commitObjectReplace env.begin env.commit info.record with
    | .error _ => (.databaseFailed, { v with disk })
    | .ok (none, db) => (.ok, { db, disk })
    | .ok (some old, db) =>
      let (gone, disk) := unlinkObject env.unlink old disk
      (if gone then .ok else .cleanupPending, { db, disk })

end Write

def remove (env : MutationEnv) (key : ObjectKey) (v : Coordinator) : MutationStatus × Coordinator :=
  match v.db.commitObjectDelete env.begin env.commit key with
  | .error _ => (.databaseFailed, v)
  | .ok (none, db) => (.ok, { v with db })
  | .ok (some old, db) =>
    let (gone, disk) := unlinkObject env.unlink old v.disk
    (if gone then .ok else .cleanupPending, { db, disk })

end Coordinator

/-! ## What a commit does to the rows -/

section Rows

variable {db db' : Database} {begin commit : DbStatus} {object r : ObjectRecord} {key : ObjectKey}
  {old : Option NodeId} {rows out : List ObjectRecord}

theorem insertObject_eq_ok (h : db.insertObject rows object = .ok out) (hrows : Apart rows) :
    Apart out ∧ ∀ r, r ∈ out ↔ r ∈ rows ∨ r = object := by
  rw [Database.insertObject, bind_eq_ok_iff] at h
  obtain ⟨out', hinsert, h⟩ := h
  rw [require_bind_eq_ok_iff] at h
  obtain rfl := Except.ok.inj h.2
  obtain ⟨-, -, hclash, rfl⟩ := Table.insert_eq_ok_iff.mp hinsert
  constructor
  · refine List.pairwise_append.mpr ⟨hrows, List.pairwise_singleton _ _, fun a ha b hb ↦ ?_⟩
    rw [List.mem_singleton.mp hb]
    exact hclash a ha
  · intro r
    rw [List.mem_append, List.mem_singleton]

theorem commitObjectCreate_eq_ok (hrows : Apart db.objects)
    (h : db.commitObjectCreate begin commit object = .ok db') :
    Apart db'.objects ∧ ∃ generation, ∀ r, r ∈ db'.objects ↔ r ∈ db.objects ∨ r = object.commit generation := by
  rw [Database.commitObjectCreate, proceed_bind_eq_ok_iff] at h
  simp only [↓proceed_bind_eq_ok_iff, bind_eq_ok_iff] at h
  obtain ⟨-, generation, -, out, hinsert, -, h⟩ := h
  obtain rfl := Except.ok.inj h
  obtain ⟨hout, hmem⟩ := insertObject_eq_ok hinsert hrows
  exact ⟨hout, generation, hmem⟩

theorem mem_of_objectOf {id : NodeId} (h : db.objectOf key = some id) : ∃ r ∈ db.objects, r.objectId = id := by
  obtain ⟨r, hr, rfl⟩ := Option.map_eq_some_iff.mp h
  exact ⟨r, List.mem_of_find?_eq_some hr, rfl⟩

/-- The row that goes is the one of the old object. -/
theorem commitObjectReplace_eq_ok (hrows : Apart db.objects)
    (h : db.commitObjectReplace begin commit object = .ok (old, db')) :
    Apart db'.objects ∧ (∀ id, old = some id → ∃ r ∈ db.objects, r.objectId = id) ∧
      ∃ generation, ∀ r, r ∈ db'.objects ↔
        r ∈ db.objects ∧ some r.objectId ≠ old ∨ r = object.commit generation := by
  rw [Database.commitObjectReplace, require_bind_eq_ok_iff] at h
  simp only [↓proceed_bind_eq_ok_iff, bind_eq_ok_iff] at h
  obtain ⟨-, -, generation, -, out, hinsert, -, h⟩ := h
  obtain ⟨rfl, rfl⟩ := Prod.mk.inj (Except.ok.inj h)
  obtain ⟨hout, hmem⟩ := insertObject_eq_ok hinsert (hrows.sublist List.filter_sublist)
  refine ⟨hout, fun id ↦ mem_of_objectOf, generation, fun r ↦ ?_⟩
  rw [Database.withObjects, hmem, List.mem_filter, decide_eq_true_iff]

theorem commitObjectDelete_eq_ok (hrows : Apart db.objects)
    (h : db.commitObjectDelete begin commit key = .ok (old, db')) :
    Apart db'.objects ∧ ∀ r, r ∈ db'.objects ↔ r ∈ db.objects ∧ some r.objectId ≠ old := by
  rw [Database.commitObjectDelete, require_bind_eq_ok_iff] at h
  rw [proceed_bind_eq_ok_iff] at h
  obtain ⟨-, -, h⟩ := h
  rcases hold : db.objectOf key with _ | id
  · rw [hold] at h
    dsimp only at h
    rw [proceed_bind_eq_ok_iff] at h
    obtain ⟨rfl, rfl⟩ := Prod.mk.inj (Except.ok.inj h.2)
    exact ⟨hrows, fun r ↦ by simp⟩
  · rw [hold] at h
    dsimp only at h
    rw [proceed_bind_eq_ok_iff] at h
    obtain ⟨rfl, rfl⟩ := Prod.mk.inj (Except.ok.inj h.2)
    refine ⟨hrows.sublist List.filter_sublist, fun r ↦ ?_⟩
    rw [Database.withObjects, List.mem_filter, decide_eq_true_iff, ne_eq, ne_eq, Option.some_inj]

end Rows

/-- A removal takes away at most the one file. -/
theorem unlinkObject_cases (outcome : UnlinkOutcome) (id : NodeId) (disk : ObjectDisk) :
    (Coordinator.unlinkObject outcome id disk).2.contents = disk.contents ∧
    (∀ id', id' ≠ id →
      (Coordinator.unlinkObject outcome id disk).2.dir.fileOf id' = disk.dir.fileOf id') ∧
    ∀ id', disk.dir.fileOf id' = none →
      (Coordinator.unlinkObject outcome id disk).2.dir.fileOf id' = none := by
  rw [Coordinator.unlinkObject]
  split_ifs
  · exact ⟨rfl, fun id' _ ↦ rfl, fun id' hnone ↦ hnone⟩
  · refine ⟨rfl, fun id' hne ↦ ?_, fun id' hnone ↦ ?_⟩
    · rw [ObjectDisk.unlink]
      dsimp only
      rw [fileOf_unlinkObject, if_neg hne]
    · rw [ObjectDisk.unlink]
      dsimp only
      rw [fileOf_unlinkObject, hnone, ite_self]

end V3

end SafeVault
