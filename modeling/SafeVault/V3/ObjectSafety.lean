import SafeVault.V3.GarbageCollection
import SafeVault.V3.Mutation
import SafeVault.V3.StagedObjects

/-!
# No object is lost

A vault is its database, the files of its objects and, while it is open, a session with staged objects.
Files and rows change in different steps, each of which can fail; a crash ends the session, and takes
with it every file whose directory was not synchronised, or brings such a file back.

The order of the steps is what makes this safe. A file is synchronised before a row or a staged object
refers to it, and it is unlinked only when none does any more. So after any calls, failures and crashes,
every row and every staged object has its file, of the recorded length, and reading it gives the bytes
that were handed out when it was written.
-/

namespace SafeVault

namespace V3

def videoObjectFramePlain : ℕ := 1024 * 1024

/-- What is asked of the store for an object of a node. -/
def ReadSession.writeRequest (s : ReadSession) (nodeId : NodeId) (role : ObjectRole) (mediaFormat : UInt8) :
    ObjectWriteRequest where
  vaultId := s.vaultId
  ownerNodeId := nodeId
  role
  mediaFormat
  framePlainLimit := if role = .originalVideo then videoObjectFramePlain else objectMaxFramePlain

section Session

variable (D : Deflate) (C : ObjectCrypto) (masterKey : Block 32)

/-- `stage_object_stream`; `noted` is whether there is memory to note the written object. The plain
bytes of an object are at hand in `stage_object`, which is the same otherwise. -/
def ReadSession.stageObjectStream (env : WriteEnv) (nodeId : NodeId) (role : ObjectRole)
    (mediaFormat : UInt8) (plaintextLength : ℕ) (time : ℤ) (noted : Bool) (s : ReadSession)
    (d : ObjectDisk) : Option ObjectInfo × ReadSession × ObjectDisk :=
  if !s.unlocked || plaintextLength = 0 then (none, s, d)
  else
    match d.writeObjectStream D C masterKey env (s.writeRequest nodeId role mediaFormat)
      plaintextLength time with
    | (.error _, d) => (none, s, d)
    | (.ok info, d) =>
      match s.stageObject info noted with
      | (.ok, s) => (some info, s, d)
      -- The file stays, and nothing refers to it.
      | (_, s) => (none, s, d)

end Session

/-! ## A vault and what happens to it -/

/-- A vault, and what an observer knows of its files: what was handed out for the object in a place, and
which places are on the disk as they are seen. -/
structure Store where
  session : ReadSession
  disk : ObjectDisk
  written : NodeId → Option (ObjectInfo × Bytes) := fun _ ↦ none
  settled : NodeId → Bool := fun _ ↦ true

/-- What is asked of a vault, with what the outside world answers, and what befalls it. -/
inductive StoreCall
  | stageObject (env : WriteEnv) (nodeId : NodeId) (role : ObjectRole) (mediaFormat : UInt8)
      (plaintextLength : ℕ) (time : ℤ) (noted : Bool)
  | commitMetadata (status : Phase → DbStatus) (references : DbStatus) (root : IndexNode)
      (settings : VaultSettings) (searches : List SavedSearch)
  | garbageCollect (env : SessionCollectEnv)
  | lock
  | unlock (status : ReadStatus) (settings : VaultSettings)
  | create (env : MutationEnv) (request : ObjectWriteRequest) (plaintextLength : ℕ)
  | replace (env : MutationEnv) (request : ObjectWriteRequest) (plaintextLength : ℕ)
  | remove (env : MutationEnv) (key : ObjectKey)
  /-- The directories of objects do or do not open, and are or are not read to the end. -/
  | disturb (opens readsToEnd : Bool) (shardOpens shardReads : Bytes → Bool)
  /-- The session is gone, files that were not settled are gone, and others are back. -/
  | crash (gone : List NodeId) (back : List (NodeId × ℤ))

/-- The directory with other answers to opening and reading. -/
def ObjectsDir.disturbed (opens readsToEnd : Bool) (shardOpens shardReads : Bytes → Bool)
    (dir : ObjectsDir) : ObjectsDir where
  shards := dir.shards.map fun shard ↦
    { shard with opens := shardOpens shard.name, readsToEnd := shardReads shard.name }
  opens := opens
  readsToEnd := readsToEnd
  nodup := by
    rw [List.map_map]
    exact dir.nodup

variable {dir : ObjectsDir} {id : NodeId}

theorem fileOf_disturbed (dir : ObjectsDir) (id : NodeId) {opens readsToEnd : Bool}
    {shardOpens shardReads : Bytes → Bool} :
    (dir.disturbed opens readsToEnd shardOpens shardReads).fileOf id = dir.fileOf id := by
  ext stat
  rw [fileOf_eq_some_iff, fileOf_eq_some_iff]
  constructor
  · rintro ⟨shard, hshard, hrest⟩
    obtain ⟨old, hold, rfl⟩ := List.mem_map.mp hshard
    exact ⟨old, hold, hrest⟩
  · rintro ⟨shard, hshard, hrest⟩
    exact ⟨_, List.mem_map_of_mem hshard, hrest⟩

namespace ObjectDisk

def disturbed (opens readsToEnd : Bool) (shardOpens shardReads : Bytes → Bool) (d : ObjectDisk) :
    ObjectDisk where
  dir := d.dir.disturbed opens readsToEnd shardOpens shardReads
  contents := d.contents
  size_eq id stat hstat := d.size_eq id stat ((fileOf_disturbed d.dir id).symm.trans hstat)

/-- A file comes back as it was. -/
def restored (d : ObjectDisk) (id : NodeId) (time : ℤ) : ObjectDisk :=
  if h : d.dir.accepts id = true then d.withObject id (d.contents id) time h else d

/-- What a crash leaves of the files. -/
def crashed (settled : NodeId → Bool) (gone : List NodeId) (back : List (NodeId × ℤ)) (d : ObjectDisk) :
    ObjectDisk :=
  (back.filter fun place ↦ !settled place.1).foldl (fun d place ↦ d.restored place.1 place.2)
    ((gone.filter fun id ↦ !settled id).foldl (fun d id ↦ d.unlink id) d)

end ObjectDisk

namespace Store

/-- The vault with other files. A file that appeared was written, as far as the writer said so, and
is settled then; one that disappeared is settled if its removal was said to be. -/
def observe (disk : ObjectDisk) (wrote : Option (ObjectInfo × Bytes)) (unlinked : NodeId → Bool)
    (w : Store) : Store :=
  { w with
    disk
    written := fun id ↦
      if (w.disk.dir.fileOf id).isNone && (disk.dir.fileOf id).isSome then wrote else w.written id
    settled := fun id ↦
      if (w.disk.dir.fileOf id).isNone && (disk.dir.fileOf id).isSome then wrote.isSome
      else if (w.disk.dir.fileOf id).isSome && (disk.dir.fileOf id).isNone then unlinked id
      else w.settled id }

section Calls

variable (nocase : Bytes → Bytes → Bool) (D : Deflate) (C : ObjectCrypto) (masterKey : Block 32)

/-- What a write hands over, if it goes through. -/
def handed (env : WriteEnv) (request : ObjectWriteRequest) (plaintextLength : ℕ) (time : ℤ) (w : Store) :
    Option (ObjectInfo × Bytes) :=
  match (w.disk.writeObjectStream D C masterKey env request plaintextLength time).1 with
  | .ok info => some (info, ObjectDisk.handedOut env info)
  | .error _ => none

/-- The vault of a coordinator, which needs the lock that a session holds. -/
def coordinate (f : Coordinator → MutationStatus × Coordinator) (wrote : Option (ObjectInfo × Bytes))
    (unlink : UnlinkOutcome) (w : Store) : Store :=
  if w.session.unlocked then w
  else
    let out := (f ⟨w.session.db, w.disk⟩).2
    { w.observe out.disk wrote fun _ ↦ unlink = .done with session := { w.session with db := out.db } }

/-- A call is always possible. -/
def call (w : Store) : StoreCall → Option Store
  | .stageObject env nodeId role mediaFormat plaintextLength time noted =>
    let out := w.session.stageObjectStream D C masterKey env nodeId role mediaFormat plaintextLength
      time noted w.disk
    let wrote := w.handed D C masterKey env (w.session.writeRequest nodeId role mediaFormat)
      plaintextLength time
    some { w.observe out.2.2 wrote fun _ ↦ false with session := out.2.1 }
  | .commitMetadata status references root settings searches =>
    some { w with
      session := (w.session.commitMetadata nocase status references root settings searches).2 }
  | .garbageCollect env =>
    some (w.observe (w.session.garbageCollect env w.disk).2 none fun id ↦ env.unlinkObject id = .done)
  | .lock => some { w with session := w.session.lock }
  | .unlock status settings => some { w with session := (w.session.unlock status settings).2 }
  | .create env request plaintextLength =>
    some (w.coordinate (Coordinator.create D C masterKey env request plaintextLength)
      (w.handed D C masterKey env.write request plaintextLength env.time) env.unlink)
  | .replace env request plaintextLength =>
    some (w.coordinate (Coordinator.replace D C masterKey env request plaintextLength)
      (w.handed D C masterKey env.write request plaintextLength env.time) env.unlink)
  | .remove env key => some (w.coordinate (Coordinator.remove env key) none env.unlink)
  | .disturb opens readsToEnd shardOpens shardReads =>
    some { w with disk := w.disk.disturbed opens readsToEnd shardOpens shardReads }
  | .crash gone back =>
    some
      { session := w.session.lock
        disk := w.disk.crashed w.settled gone back
        written := w.written }

end Calls

/-! ## The invariant -/

/-- A row or a staged record has its file: it is settled, in its place, and what was written for it is
what the record says. -/
structure Backed (w : Store) (r : ObjectRecord) : Prop where
  settled : w.settled r.objectId = true
  present : (w.disk.dir.fileOf r.objectId).isSome = true
  written : ∃ info plain, w.written r.objectId = some (info, plain) ∧
    info.record.commit r.creationGeneration = r

/-- Every file for which something was handed out has it in it. -/
def Intact (D : Deflate) (C : ObjectCrypto) (masterKey : Block 32) (w : Store) : Prop :=
  ∀ id info plain, w.written id = some (info, plain) → info.objectId = id ∧
    info.encryptedLength = (w.disk.contents id).size ∧
    ObjectDisk.Encloses D C masterKey (w.disk.contents id) info plain

structure Safe (D : Deflate) (C : ObjectCrypto) (masterKey : Block 32) (w : Store) : Prop where
  apart : Apart w.session.db.objects
  rows : ∀ r ∈ w.session.db.objects, w.Backed r
  staged : ∀ r ∈ w.session.stagedObjects, w.Backed r
  idle : w.session.unlocked = false → w.session.stagedObjects = []
  intact : w.Intact D C masterKey

variable {nocase : Bytes → Bytes → Bool} {D : Deflate} {C : ObjectCrypto} {masterKey : Block 32}
  {w w' : Store} {r : ObjectRecord} {disk : ObjectDisk} {wrote : Option (ObjectInfo × Bytes)}
  {unlinked : NodeId → Bool} {env : WriteEnv} {request : ObjectWriteRequest} {plaintextLength : ℕ}
  {time : ℤ} {info : ObjectInfo}

/-- Another commit of a record has the same file. -/
theorem Backed.commit (h : w.Backed r) (generation : ℕ) : w.Backed (r.commit generation) where
  settled := h.settled
  present := h.present
  written := by
    obtain ⟨info, plain, hwritten, hr⟩ := h.written
    exact ⟨info, plain, hwritten, by rw [← hr]; rfl⟩

/-- What has its file still has it when other files come and go. -/
theorem Backed.observe (h : w.Backed r) (hpresent : (disk.dir.fileOf r.objectId).isSome = true) :
    (w.observe disk wrote unlinked).Backed r := by
  have hthere := Option.isSome_iff_ne_none.mp h.present
  have hstay := Option.isSome_iff_ne_none.mp hpresent
  constructor
  · rw [Store.observe]
    simp [hthere, hstay, h.settled]
  · exact hpresent
  · rw [Store.observe]
    simp only [Option.isNone_iff_eq_none, hthere, Bool.and_eq_true, false_and, if_false]
    exact h.written

/-- Where no file appears and none is written to, what is in the files is still there. -/
theorem Intact.observe (h : w.Intact D C masterKey) (wrote : Option (ObjectInfo × Bytes))
    (unlinked : NodeId → Bool) (hcontents : disk.contents = w.disk.contents)
    (hfiles : ∀ id, (w.disk.dir.fileOf id).isNone = true → (disk.dir.fileOf id).isNone = true) :
    (w.observe disk wrote unlinked).Intact D C masterKey := by
  intro id info plain hwritten
  rw [Store.observe] at hwritten ⊢
  dsimp only at hwritten ⊢
  rw [hcontents]
  by_cases hnone : (w.disk.dir.fileOf id).isNone = true
  · have hgone := Option.isNone_iff_eq_none.mp (hfiles id hnone)
    rw [hgone, Option.isSome_none, Bool.and_false, if_neg Bool.false_ne_true] at hwritten
    exact h id info plain hwritten
  · rw [Bool.not_eq_true] at hnone
    rw [hnone, Bool.false_and, if_neg Bool.false_ne_true] at hwritten
    exact h id info plain hwritten

/-! ## Writing -/

section Write

variable {d' : ObjectDisk} {result : Except ObjectStatus ObjectInfo}

/-- A write changes nothing that is there. -/
theorem fileOf_of_writeObjectStream
    (h : w.disk.writeObjectStream D C masterKey env request plaintextLength time = (result, d')) {id : NodeId}
    (hthere : (w.disk.dir.fileOf id).isSome = true) : d'.dir.fileOf id = w.disk.dir.fileOf id := by
  obtain ⟨status, hout⟩ | ⟨info, file, haccepts, -, ⟨-, hout⟩ | ⟨-, hout⟩⟩ :=
    ObjectDisk.writeObjectStream_cases D C masterKey env request plaintextLength time w.disk
  · rw [show d' = w.disk from congrArg Prod.snd (h.symm.trans hout)]
  all_goals
    rw [show d' = _ from congrArg Prod.snd (h.symm.trans hout), ObjectDisk.withObject]
    dsimp only
    rw [fileOf_publishObject haccepts, if_neg]
    rintro rfl
    rw [fileOf_of_accepts haccepts] at hthere
    cases hthere

theorem handed_eq_some
    (h : w.disk.writeObjectStream D C masterKey env request plaintextLength time = (.ok info, d')) :
    w.handed D C masterKey env request plaintextLength time =
      some (info, ObjectDisk.handedOut env info) := by
  rw [handed, h]

/-- What was handed out for a new file is in it, and what was in a file is still there, whatever else
happens to files that were there before. -/
theorem Intact.write (h : w.Intact D C masterKey) (unlinked : NodeId → Bool)
    (hwrite : w.disk.writeObjectStream D C masterKey env request plaintextLength time = (result, d'))
    (hcontents : disk.contents = d'.contents)
    (hkeep : ∀ id, w.disk.dir.fileOf id = none → disk.dir.fileOf id = d'.dir.fileOf id) :
    (w.observe disk (w.handed D C masterKey env request plaintextLength time) unlinked).Intact
      D C masterKey := by
  obtain ⟨status, hout⟩ | ⟨info, file, haccepts, hstage, hout⟩ :=
    ObjectDisk.writeObjectStream_cases D C masterKey env request plaintextLength time w.disk
  · -- Nothing was written.
    obtain rfl : d' = w.disk := congrArg Prod.snd (hwrite.symm.trans hout)
    refine h.observe _ _ hcontents fun id hnone ↦ ?_
    rw [hkeep id (Option.isNone_iff_eq_none.mp hnone)]
    exact hnone
  have hd : d' = w.disk.withObject info.objectId file time haccepts := by
    obtain ⟨-, hout⟩ | ⟨-, hout⟩ := hout
    · exact congrArg Prod.snd (hwrite.symm.trans hout)
    · exact congrArg Prod.snd (hwrite.symm.trans hout)
  have hbefore := fileOf_of_accepts haccepts
  have hafter : disk.dir.fileOf info.objectId = some ⟨file.size, time⟩ := by
    rw [hkeep _ hbefore, hd, ObjectDisk.withObject]
    dsimp only
    rw [fileOf_publishObject haccepts, if_pos rfl]
  intro id info' plain hwritten
  rw [Store.observe] at hwritten ⊢
  dsimp only at hwritten ⊢
  by_cases hid : id = info.objectId
  · subst hid
    rw [hbefore, hafter] at hwritten
    have hwritten : w.handed D C masterKey env request plaintextLength time = some (info', plain) := hwritten
    obtain ⟨-, hout⟩ | ⟨-, hout⟩ := hout
    · rw [handed, hout] at hwritten
      cases hwritten
    · rw [handed_eq_some hout, Option.some_inj, Prod.mk.injEq] at hwritten
      obtain ⟨rfl, rfl⟩ := hwritten
      rw [hout, Prod.mk.injEq] at hwrite
      have hencloses := ObjectDisk.encloses_of_writeObjectStream hout
      rw [hcontents, ← hwrite.2]
      refine ⟨rfl, ?_, hencloses⟩
      rw [ObjectDisk.encryptedLength_of_stageObjectFile hstage, ObjectDisk.withObject]
      dsimp only
      rw [if_pos rfl]
  · have hsame : disk.contents id = w.disk.contents id := by
      rw [hcontents, hd, ObjectDisk.withObject]
      dsimp only
      rw [if_neg hid]
    have hnew : ((w.disk.dir.fileOf id).isNone && (disk.dir.fileOf id).isSome) = false := by
      rcases hfile : w.disk.dir.fileOf id with _ | stat
      · rw [hkeep id hfile, hd, ObjectDisk.withObject]
        dsimp only
        rw [fileOf_publishObject haccepts, if_neg hid, hfile]
        rfl
      · rfl
    rw [hnew, if_neg Bool.false_ne_true] at hwritten
    rw [hsame]
    exact h id info' plain hwritten

/-- **A written object** has its file. -/
theorem backed_of_writeObjectStream
    (h : w.disk.writeObjectStream D C masterKey env request plaintextLength time = (.ok info, d'))
    (hkeep : disk.dir.fileOf info.objectId = d'.dir.fileOf info.objectId) :
    (w.observe disk (w.handed D C masterKey env request plaintextLength time) unlinked).Backed
      info.record := by
  obtain ⟨-, file, haccepts, -, hd⟩ := ObjectDisk.withObject_of_writeObjectStream h
  have hbefore := fileOf_of_accepts haccepts
  have hafter : disk.dir.fileOf info.objectId = some ⟨file.size, time⟩ := by
    rw [hkeep, hd, ObjectDisk.withObject]
    dsimp only
    rw [fileOf_publishObject haccepts, if_pos rfl]
  constructor
  · show (if (w.disk.dir.fileOf info.objectId).isNone && (disk.dir.fileOf info.objectId).isSome then _
      else _) = true
    rw [hbefore, hafter, handed_eq_some h]
    rfl
  · exact hafter ▸ rfl
  · refine ⟨info, ObjectDisk.handedOut env info, ?_, rfl⟩
    show (if (w.disk.dir.fileOf info.objectId).isNone && (disk.dir.fileOf info.objectId).isSome then _
      else _) = _
    rw [hbefore, hafter, handed_eq_some h]
    rfl

end Write

/-! ## Calls -/

theorem Backed.withSession (h : w.Backed r) (s : ReadSession) : Backed { w with session := s } r :=
  ⟨h.settled, h.present, h.written⟩

/-- The invariant of a vault with another session and other files. -/
theorem safe_observe {s : ReadSession} (hapart : Apart s.db.objects)
    (hrows : ∀ r ∈ s.db.objects, (w.observe disk wrote unlinked).Backed r)
    (hstaged : ∀ r ∈ s.stagedObjects, (w.observe disk wrote unlinked).Backed r)
    (hidle : s.unlocked = false → s.stagedObjects = [])
    (hintact : (w.observe disk wrote unlinked).Intact D C masterKey) :
    Safe D C masterKey { w.observe disk wrote unlinked with session := s } where
  apart := hapart
  rows r hr := (hrows r hr).withSession s
  staged r hr := (hstaged r hr).withSession s
  idle := hidle
  intact := hintact

section Step

variable {nodeId : NodeId} {role : ObjectRole} {mediaFormat : UInt8} {noted : Bool}

theorem safe_stageObject (h : w.Safe D C masterKey)
    (hcall : w.call nocase D C masterKey (.stageObject env nodeId role mediaFormat plaintextLength time noted) =
      some w') : w'.Safe D C masterKey := by
  obtain rfl := Option.some.inj hcall
  dsimp only
  rw [ReadSession.stageObjectStream]
  split
  · -- Nothing is written.
    apply safe_observe h.apart _ _ h.idle
    · exact h.intact.observe _ _ rfl fun id hnone ↦ hnone
    · exact fun r hr ↦ (h.rows r hr).observe (h.rows r hr).present
    · exact fun r hr ↦ (h.staged r hr).observe (h.staged r hr).present
  rcases hwrite : w.disk.writeObjectStream D C masterKey env (w.session.writeRequest nodeId role mediaFormat)
    plaintextLength time with ⟨result, d⟩
  have hold : ∀ {r}, w.Backed r → (w.observe d
      (w.handed D C masterKey env (w.session.writeRequest nodeId role mediaFormat) plaintextLength time)
      fun _ ↦ false).Backed r := by
    intro r hr
    exact hr.observe (fileOf_of_writeObjectStream hwrite hr.present ▸ hr.present)
  have hintact := h.intact.write (fun _ ↦ false) hwrite rfl fun _ _ ↦ rfl
  rcases result with status | info
  · exact safe_observe h.apart (fun r hr ↦ hold (h.rows r hr)) (fun r hr ↦ hold (h.staged r hr)) h.idle hintact
  dsimp only
  rw [ReadSession.stageObject]
  by_cases hguard : (!w.session.unlocked || !noted) = true
  · rw [if_pos hguard]
    exact safe_observe h.apart (fun r hr ↦ hold (h.rows r hr)) (fun r hr ↦ hold (h.staged r hr)) h.idle hintact
  rw [if_neg hguard]
  dsimp only
  have hopen : w.session.unlocked = true := by
    rw [Bool.or_eq_true, not_or, Bool.not_eq_true', Bool.not_eq_false] at hguard
    exact hguard.1
  apply safe_observe
  · exact h.apart
  · exact fun r hr ↦ hold (h.rows r hr)
  · intro r hr
    obtain hr | hr := List.mem_append.mp hr
    · exact hold (h.staged r hr)
    · obtain rfl := List.mem_singleton.mp hr
      exact backed_of_writeObjectStream hwrite rfl
  · intro hlocked
    exact absurd (hopen.symm.trans hlocked) (by decide)
  · exact hintact

variable {status : Phase → DbStatus} {references : DbStatus} {root : IndexNode} {settings : VaultSettings}
  {searches : List SavedSearch}

theorem backed_syncObjects {generation : ℕ} {live : List NodeId} {staged rows out : List ObjectRecord}
    (hstaged : ∀ r ∈ staged, w.Backed r) (hrows : ∀ r ∈ rows, w.Backed r)
    (hsync : syncObjects generation live staged rows = .ok out) : ∀ r ∈ out, w.Backed r := by
  intro r hr
  obtain ⟨-, ⟨object, hlast, rfl⟩ | ⟨hr, -⟩⟩ := (mem_syncObjects hsync).mp hr
  · refine (hstaged object ?_).commit generation
    exact (List.mem_filter.mp (List.mem_of_getLast? hlast)).1
  · exact hrows r hr

theorem safe_commitMetadata (h : w.Safe D C masterKey)
    (hcall : w.call nocase D C masterKey (.commitMetadata status references root settings searches) =
      some w') : w'.Safe D C masterKey := by
  obtain rfl := Option.some.inj hcall
  have hsafe : ∀ s : ReadSession, Apart s.db.objects → (∀ r ∈ s.db.objects, w.Backed r) →
      (∀ r ∈ s.stagedObjects, r ∈ w.session.stagedObjects) → s.unlocked = w.session.unlocked →
      Safe D C masterKey { w with session := s } := by
    intro s hapart hrows hstaged hunlocked
    refine ⟨hapart, fun r hr ↦ (hrows r hr).withSession s,
      fun r hr ↦ (h.staged r (hstaged r hr)).withSession s, fun hlocked ↦ ?_, h.intact⟩
    have hnil := h.idle (hunlocked ▸ hlocked)
    rw [hnil] at hstaged
    exact List.eq_nil_iff_forall_not_mem.mpr fun r hr ↦ List.not_mem_nil (hstaged r hr)
  obtain ⟨-, hout, -⟩ | ⟨-, -, db, hsync, hout⟩ | ⟨-, hopen, -, db, hsync, hout⟩ :=
    commitMetadata_cases nocase status references root settings searches w.session
  · rw [hout]
    exact h
  · have hobjects := objects_of_syncMetadata hsync
    rw [hout]
    exact hsafe _ (apart_syncObjects h.apart hobjects) (backed_syncObjects h.staged h.rows hobjects)
      (fun r hr ↦ hr) rfl
  · have hobjects := objects_of_syncMetadata hsync
    rw [hout]
    exact hsafe _ (apart_syncObjects h.apart hobjects) (backed_syncObjects h.staged h.rows hobjects)
      (fun r hr ↦ (List.mem_filter.mp hr).1) rfl

theorem nodup_objectId {rows : List ObjectRecord} (h : Apart rows) : (rows.map (·.objectId)).Nodup := by
  rw [List.nodup_iff_pairwise_ne, List.pairwise_map]
  refine h.imp fun {a b} hab heq ↦ ?_
  rw [objectRule, Bool.or_eq_false_iff, beq_eq_false_iff_ne] at hab
  exact hab.1 heq

theorem safe_garbageCollect {senv : SessionCollectEnv} (h : w.Safe D C masterKey)
    (hcall : w.call nocase D C masterKey (.garbageCollect senv) = some w') : w'.Safe D C masterKey := by
  obtain rfl := Option.some.inj hcall
  obtain ⟨hcontents, hfiles⟩ := spared_garbageCollect senv w.session w.disk (nodup_objectId h.apart)
  -- What has its file, and is in a row or staged, is not stale.
  have hkept : ∀ r, w.Backed r → r ∈ w.session.db.objects ∨ r ∈ w.session.stagedObjects →
      (w.observe (w.session.garbageCollect senv w.disk).2 none
        fun id ↦ senv.unlinkObject id = .done).Backed r := by
    intro r hr hmem
    apply hr.observe
    obtain hsame | ⟨-, stat, -, hstale⟩ := hfiles r.objectId
    · rw [hsame]
      exact hr.present
    · rw [stale, Bool.and_eq_true, Bool.and_eq_true, decide_eq_true_iff, decide_eq_true_iff] at hstale
      obtain hmem | hmem := hmem
      · exact absurd (List.mem_map_of_mem hmem) hstale.1.2
      · exact absurd (List.mem_map_of_mem hmem) hstale.2
  apply safe_observe h.apart (fun r hr ↦ hkept r (h.rows r hr) (.inl hr))
    (fun r hr ↦ hkept r (h.staged r hr) (.inr hr)) h.idle
  apply h.intact.observe _ _ hcontents
  intro id hnone
  rw [Option.isNone_iff_eq_none] at hnone ⊢
  obtain hsame | ⟨hgone, -⟩ := hfiles id
  · exact hsame.trans hnone
  · exact hgone

theorem safe_lock (h : w.Safe D C masterKey) : Safe D C masterKey { w with session := w.session.lock } where
  apart := h.apart
  rows r hr := (h.rows r hr).withSession _
  staged r hr := by cases hr
  idle _ := rfl
  intact := h.intact

theorem safe_unlock {status : ReadStatus} (h : w.Safe D C masterKey) :
    Safe D C masterKey { w with session := (w.session.unlock status settings).2 } := by
  rw [ReadSession.unlock]
  split_ifs with hopen hstatus
  · exact h
  · exact h
  -- Nothing is staged in a locked session.
  have hnil := h.idle (by simpa using hopen)
  constructor
  · exact h.apart
  · exact fun r hr ↦ (h.rows r hr).withSession _
  · intro r hr
    have hr := (List.mem_filter.mp hr).1
    rw [hnil] at hr
    cases hr
  · rintro ⟨⟩
  · exact h.intact

/-! ## The coordinator -/

section Coordinate

variable {menv : MutationEnv} {key : ObjectKey} {unlink : UnlinkOutcome} {db : Database}

/-- A mutation is safe if its rows have their files, and the files what was handed out for them. -/
theorem safe_coordinate {f : Coordinator → MutationStatus × Coordinator} (h : w.Safe D C masterKey)
    (hf : Apart (f ⟨w.session.db, w.disk⟩).2.db.objects ∧
      (∀ r ∈ (f ⟨w.session.db, w.disk⟩).2.db.objects,
        (w.observe (f ⟨w.session.db, w.disk⟩).2.disk wrote fun _ ↦ unlink = .done).Backed r) ∧
      (w.observe (f ⟨w.session.db, w.disk⟩).2.disk wrote fun _ ↦ unlink = .done).Intact D C masterKey) :
    Safe D C masterKey (w.coordinate f wrote unlink) := by
  rw [coordinate]
  split_ifs with hopen
  · exact h
  have hnil := h.idle (by simpa using hopen)
  apply safe_observe
  · exact hf.1
  · exact hf.2.1
  · intro r hr
    rw [hnil] at hr
    cases hr
  · exact fun _ ↦ hnil
  · exact hf.2.2

variable {d : ObjectDisk} {result : Except ObjectStatus ObjectInfo}

/-- After a write, the rows have their files as before. -/
theorem backed_rows_of_write (h : w.Safe D C masterKey)
    (hwrite : w.disk.writeObjectStream D C masterKey menv.write request plaintextLength menv.time =
      (result, d)) : ∀ r ∈ w.session.db.objects, (w.observe d wrote unlinked).Backed r := by
  intro r hr
  have hr := h.rows r hr
  exact hr.observe (fileOf_of_writeObjectStream hwrite hr.present ▸ hr.present)

theorem safe_create (h : w.Safe D C masterKey)
    (hcall : w.call nocase D C masterKey (.create menv request plaintextLength) = some w') :
    w'.Safe D C masterKey := by
  obtain rfl := Option.some.inj hcall
  apply safe_coordinate h
  rw [Coordinator.create]
  dsimp only
  rcases hwrite : w.disk.writeObjectStream D C masterKey menv.write request plaintextLength menv.time with
    ⟨status | info, d⟩
  · exact ⟨h.apart, backed_rows_of_write h hwrite, h.intact.write _ hwrite rfl fun _ _ ↦ rfl⟩
  dsimp only
  rcases hcommit : w.session.db.commitObjectCreate menv.begin menv.commit info.record with status | db
  · exact ⟨h.apart, backed_rows_of_write h hwrite, h.intact.write _ hwrite rfl fun _ _ ↦ rfl⟩
  · obtain ⟨hapart, generation, hmem⟩ := commitObjectCreate_eq_ok h.apart hcommit
    refine ⟨hapart, fun r hr ↦ ?_, h.intact.write _ hwrite rfl fun _ _ ↦ rfl⟩
    obtain hr | rfl := (hmem r).mp hr
    · exact backed_rows_of_write h hwrite r hr
    · exact (backed_of_writeObjectStream hwrite rfl).commit generation

theorem safe_replace (h : w.Safe D C masterKey)
    (hcall : w.call nocase D C masterKey (.replace menv request plaintextLength) = some w') :
    w'.Safe D C masterKey := by
  obtain rfl := Option.some.inj hcall
  apply safe_coordinate h
  rw [Coordinator.replace]
  dsimp only
  rcases hwrite : w.disk.writeObjectStream D C masterKey menv.write request plaintextLength menv.time with
    ⟨status | info, d⟩
  · exact ⟨h.apart, backed_rows_of_write h hwrite, h.intact.write _ hwrite rfl fun _ _ ↦ rfl⟩
  dsimp only
  rcases hcommit : w.session.db.commitObjectReplace menv.begin menv.commit info.record with status | ⟨old, db⟩
  · exact ⟨h.apart, backed_rows_of_write h hwrite, h.intact.write _ hwrite rfl fun _ _ ↦ rfl⟩
  obtain ⟨hapart, hold, generation, hmem⟩ := commitObjectReplace_eq_ok h.apart hcommit
  rcases old with _ | old
  · refine ⟨hapart, fun r hr ↦ ?_, h.intact.write _ hwrite rfl fun _ _ ↦ rfl⟩
    obtain ⟨hr, -⟩ | rfl := (hmem r).mp hr
    · exact backed_rows_of_write h hwrite r hr
    · exact (backed_of_writeObjectStream hwrite rfl).commit generation
  -- The old file was there before, so it is not the new one.
  obtain ⟨hcontents, hfiles, -⟩ := unlinkObject_cases menv.unlink old d
  obtain ⟨row, hrow, hrowOld⟩ := hold old rfl
  have hpresent := hrowOld ▸ (h.rows row hrow).present
  have hne : info.objectId ≠ old := by
    rintro rfl
    obtain ⟨-, file, haccepts, -⟩ := ObjectDisk.withObject_of_writeObjectStream hwrite
    rw [fileOf_of_accepts haccepts] at hpresent
    cases hpresent
  dsimp only
  refine ⟨hapart, fun r hr ↦ ?_, h.intact.write _ hwrite hcontents fun id hnone ↦ hfiles id ?_⟩
  · obtain ⟨hr, hkeep⟩ | rfl := (hmem r).mp hr
    · have hr := h.rows r hr
      apply hr.observe
      rw [hfiles r.objectId fun heq ↦ hkeep (congrArg some heq),
        fileOf_of_writeObjectStream hwrite hr.present]
      exact hr.present
    · exact (backed_of_writeObjectStream hwrite (hfiles _ hne)).commit generation
  · rintro rfl
    rw [hnone] at hpresent
    cases hpresent

theorem safe_remove (h : w.Safe D C masterKey)
    (hcall : w.call nocase D C masterKey (.remove menv key) = some w') : w'.Safe D C masterKey := by
  obtain rfl := Option.some.inj hcall
  apply safe_coordinate h
  rw [Coordinator.remove]
  dsimp only
  have hsame : ∀ r, w.Backed r → (w.observe w.disk none fun _ ↦ menv.unlink = .done).Backed r :=
    fun r hr ↦ hr.observe hr.present
  have hintact := h.intact.observe none (fun _ ↦ menv.unlink = .done) rfl fun _ hnone ↦ hnone
  rcases hcommit : w.session.db.commitObjectDelete menv.begin menv.commit key with status | ⟨old, db⟩
  · exact ⟨h.apart, fun r hr ↦ hsame r (h.rows r hr), hintact⟩
  obtain ⟨hapart, hmem⟩ := commitObjectDelete_eq_ok h.apart hcommit
  rcases old with _ | old
  · exact ⟨hapart, fun r hr ↦ hsame r (h.rows r ((hmem r).mp hr).1), hintact⟩
  obtain ⟨hcontents, hfiles, hnone⟩ := unlinkObject_cases menv.unlink old w.disk
  dsimp only
  refine ⟨hapart, fun r hr ↦ ?_, h.intact.observe _ _ hcontents fun id hid ↦ ?_⟩
  · obtain ⟨hr, hkeep⟩ := (hmem r).mp hr
    have hr := h.rows r hr
    apply hr.observe
    rw [hfiles r.objectId fun heq ↦ hkeep (congrArg some heq)]
    exact hr.present
  · rw [Option.isNone_iff_eq_none] at hid ⊢
    exact hnone id hid

end Coordinate

/-! ## What befalls a vault -/

theorem safe_disturb {opens readsToEnd : Bool} {shardOpens shardReads : Bytes → Bool}
    (h : w.Safe D C masterKey) : Safe D C masterKey
      { w with disk := w.disk.disturbed opens readsToEnd shardOpens shardReads } := by
  have hbacked : ∀ r, w.Backed r →
      Backed { w with disk := w.disk.disturbed opens readsToEnd shardOpens shardReads } r := by
    intro r hr
    refine ⟨hr.settled, ?_, hr.written⟩
    rw [ObjectDisk.disturbed]
    dsimp only
    rw [fileOf_disturbed]
    exact hr.present
  exact ⟨h.apart, fun r hr ↦ hbacked r (h.rows r hr), fun r hr ↦ hbacked r (h.staged r hr), h.idle, h.intact⟩

theorem contents_restored (d : ObjectDisk) (id : NodeId) : (d.restored id time).contents = d.contents := by
  rw [ObjectDisk.restored]
  split_ifs
  · rw [ObjectDisk.withObject]
    funext id'
    dsimp only
    split_ifs with hid
    · rw [hid]
    · rfl
  · rfl

/-- A crash leaves settled files in their places, and what is in the files. -/
theorem crashed_keeps (settled : NodeId → Bool) (gone : List NodeId) (back : List (NodeId × ℤ))
    (d : ObjectDisk) : (d.crashed settled gone back).contents = d.contents ∧ ∀ id, settled id = true →
      (d.crashed settled gone back).dir.fileOf id = d.dir.fileOf id := by
  rw [ObjectDisk.crashed]
  have hgone : ∀ d : ObjectDisk, ∀ gone : List NodeId, (∀ id ∈ gone, settled id = false) →
      (gone.foldl (fun d id ↦ d.unlink id) d).contents = d.contents ∧ ∀ id, settled id = true →
        (gone.foldl (fun d id ↦ d.unlink id) d).dir.fileOf id = d.dir.fileOf id := by
    intro d gone hunsettled
    induction gone generalizing d with
    | nil => exact ⟨rfl, fun id _ ↦ rfl⟩
    | cons lost gone ih =>
      obtain ⟨hlost, hgone⟩ := List.forall_mem_cons.mp hunsettled
      obtain ⟨hcontents, hfiles⟩ := ih (d.unlink lost) hgone
      refine ⟨hcontents, fun id hid ↦ (hfiles id hid).trans ?_⟩
      rw [ObjectDisk.unlink]
      dsimp only
      rw [fileOf_unlinkObject, if_neg]
      rintro rfl
      rw [hlost] at hid
      cases hid
  have hback : ∀ d : ObjectDisk, ∀ back : List (NodeId × ℤ), (∀ place ∈ back, settled place.1 = false) →
      (back.foldl (fun d place ↦ d.restored place.1 place.2) d).contents = d.contents ∧
        ∀ id, settled id = true →
          (back.foldl (fun d place ↦ d.restored place.1 place.2) d).dir.fileOf id = d.dir.fileOf id := by
    intro d back hunsettled
    induction back generalizing d with
    | nil => exact ⟨rfl, fun id _ ↦ rfl⟩
    | cons place back ih =>
      obtain ⟨hplace, hback⟩ := List.forall_mem_cons.mp hunsettled
      obtain ⟨hcontents, hfiles⟩ := ih (d.restored place.1 place.2) hback
      refine ⟨hcontents.trans (contents_restored d place.1), fun id hid ↦ (hfiles id hid).trans ?_⟩
      rw [ObjectDisk.restored]
      split_ifs with haccepts
      · rw [ObjectDisk.withObject]
        dsimp only
        rw [fileOf_publishObject haccepts, if_neg]
        rintro rfl
        rw [hplace] at hid
        cases hid
      · rfl
  obtain ⟨hcontents, hfiles⟩ := hgone d (gone.filter fun id ↦ !settled id) (by simp)
  obtain ⟨hcontents', hfiles'⟩ := hback
    ((gone.filter fun id ↦ !settled id).foldl (fun d id ↦ d.unlink id) d)
    (back.filter fun place ↦ !settled place.1) (by simp)
  exact ⟨hcontents'.trans hcontents, fun id hid ↦ (hfiles' id hid).trans (hfiles id hid)⟩

theorem safe_crash {gone : List NodeId} {back : List (NodeId × ℤ)} (h : w.Safe D C masterKey)
    (hcall : w.call nocase D C masterKey (.crash gone back) = some w') : w'.Safe D C masterKey := by
  obtain rfl := Option.some.inj hcall
  obtain ⟨hcontents, hfiles⟩ := crashed_keeps w.settled gone back w.disk
  constructor
  · exact h.apart
  · intro r hr
    have hr := h.rows r hr
    exact ⟨rfl, (hfiles r.objectId hr.settled).symm ▸ hr.present, hr.written⟩
  · intro r hr
    cases hr
  · exact fun _ ↦ rfl
  · intro id info plain hwritten
    show info.objectId = id ∧ info.encryptedLength = ((w.disk.crashed w.settled gone back).contents id).size ∧
      ObjectDisk.Encloses D C masterKey ((w.disk.crashed w.settled gone back).contents id) info plain
    rw [hcontents]
    exact h.intact id info plain hwritten

/-- **A step.** -/
theorem safe_call {c : StoreCall} (h : w.Safe D C masterKey)
    (hcall : w.call nocase D C masterKey c = some w') : w'.Safe D C masterKey := by
  cases c with
  | stageObject env nodeId role mediaFormat plaintextLength time noted => exact safe_stageObject h hcall
  | commitMetadata status references root settings searches => exact safe_commitMetadata h hcall
  | garbageCollect env => exact safe_garbageCollect h hcall
  | lock =>
    obtain rfl := Option.some.inj hcall
    exact safe_lock h
  | unlock status settings =>
    obtain rfl := Option.some.inj hcall
    exact safe_unlock h
  | create env request plaintextLength => exact safe_create h hcall
  | replace env request plaintextLength => exact safe_replace h hcall
  | remove env key => exact safe_remove h hcall
  | disturb opens readsToEnd shardOpens shardReads =>
    obtain rfl := Option.some.inj hcall
    exact safe_disturb h
  | crash gone back => exact safe_crash h hcall

end Step

/-! ## Runs -/

/-- A vault without objects; its directories may hold files of others. -/
def created (vaultId : NodeId) (root : IndexNode) (metadata : Metadata) (disk : ObjectDisk) : Store where
  session := (closed vaultId ⟨root, [], metadata⟩).session
  disk

variable {vaultId : NodeId} {root : IndexNode} {metadata : Metadata} {calls : List StoreCall}

theorem safe_created : Safe D C masterKey (created vaultId root metadata disk) where
  apart := .nil
  rows r hr := by cases hr
  staged r hr := by cases hr
  idle _ := rfl
  intact id info plain hwritten := by cases hwritten

theorem safe_run (hrun : Run.run (call nocase D C masterKey) (created vaultId root metadata disk) calls =
    some w) : w.Safe D C masterKey :=
  Run.invariant (C := fun _ _ ↦ True) (fun h _ hcall ↦ safe_call h hcall) safe_created
    (Run.meets_of_forall fun _ _ ↦ trivial) hrun

/-- **No object is lost.** After any calls, failures and crashes, every row and every staged record has
its file, of the recorded length, and what was handed out when it was written is read from it as soon as
directories can be opened. A reconciliation never finds a file missing, or of another length. -/
theorem no_object_lost
    (hrun : Run.run (call nocase D C masterKey) (created vaultId root metadata disk) calls = some w) :
    (∀ r, r ∈ w.session.db.objects ∨ r ∈ w.session.stagedObjects →
      ∃ info plain stat, w.written r.objectId = some (info, plain) ∧
        info.record.commit r.creationGeneration = r ∧ w.disk.dir.fileOf r.objectId = some stat ∧
        stat.size = r.encryptedLength ∧
        (w.disk.dir.Opens → w.disk.load D C masterKey info = .ok plain)) ∧
    ∀ entries, listObjects w.disk.dir = some entries →
      (reconcileObjects w.disk.dir (some w.session.db.objects)).missing = [] ∧
      (reconcileObjects w.disk.dir (some w.session.db.objects)).sizeMismatches = [] := by
  have h := safe_run hrun
  have hfiles : ∀ r, w.Backed r → ∃ info plain stat, w.written r.objectId = some (info, plain) ∧
      info.record.commit r.creationGeneration = r ∧ w.disk.dir.fileOf r.objectId = some stat ∧
      stat.size = r.encryptedLength ∧
      (w.disk.dir.Opens → w.disk.load D C masterKey info = .ok plain) := by
    intro r hr
    obtain ⟨info, plain, hwritten, hrecord⟩ := hr.written
    obtain ⟨stat, hstat⟩ := Option.isSome_iff_exists.mp hr.present
    obtain ⟨hid, hlength, hencloses⟩ := h.intact _ _ _ hwritten
    have hsize : stat.size = r.encryptedLength := by
      rw [w.disk.size_eq _ _ hstat, ← hlength, ← hrecord]
      rfl
    refine ⟨info, plain, stat, hwritten, hrecord, hstat, hsize, fun hopens ↦ ?_⟩
    rw [← hid] at hstat hencloses
    refine ObjectDisk.load_of_encloses hencloses (openObject_of_fileOf hopens ?_ hstat)
    obtain ⟨reader, hreader, -⟩ := hencloses
    have hvalid := (openObject_eq_ok_iff.mp hreader).1
    simp only [validExpectedInfo, Bool.and_eq_true, decide_eq_true_eq] at hvalid
    exact hvalid.1.1.1.1.1
  refine ⟨?_, fun entries hlist ↦ ?_⟩
  · rintro r (hr | hr)
    · exact hfiles r (h.rows r hr)
    · exact hfiles r (h.staged r hr)
  · have hreport := reconciled_reconcileObjects (nodup_objectId h.apart) hlist
    rw [hreport.missing, hreport.sizeMismatches, List.map_eq_nil_iff, List.map_eq_nil_iff,
      List.filter_eq_nil_iff, List.filter_eq_nil_iff]
    refine ⟨fun r hr ↦ ?_, fun r hr ↦ ?_⟩
    · obtain ⟨-, -, stat, -, -, hstat, -⟩ := hfiles r (h.rows r hr)
      rw [lost, hstat]
      exact Bool.false_ne_true
    · obtain ⟨-, -, stat, -, -, hstat, hsize, -⟩ := hfiles r (h.rows r hr)
      rw [mismatched, hstat, Option.any_some, hsize]
      simp

/-- No files at all. -/
def emptyDisk : ObjectDisk where
  dir := { shards := [], opens := true, readsToEnd := true, nodup := List.nodup_nil }
  contents _ := ⟨[], by decide⟩
  size_eq := by
    intro id stat hstat
    cases hstat

/-- An image is staged and committed, its commit is followed by a collection and a crash, and the image
is still there. -/
theorem no_object_lost_image :
    let id (n : UInt8) : NodeId := .ofBytes (List.replicate 16 n)
    let root : IndexNode := .branch { name := [], nodeId := id 1 } []
    let next : IndexNode := .branch { name := [], nodeId := id 1 }
      [.leaf { name := [97], nodeId := id 2 } (.image {})]
    ∃ w, Run.run (call tagCiEqual idleDeflate plainCrypto (.zero 32)) (created (id 9) root {} emptyDisk)
      [.unlock .ok {}, .stageObject countingEnv (id 2) .originalImage 0 5 10 true,
        .commitMetadata (fun _ ↦ .ok) .ok next {} [],
        .garbageCollect ⟨100, 0, some ⟨0, 0, 0⟩, true, fun _ ↦ true, fun _ ↦ .done⟩,
        .crash [id 3] []] = some w ∧
      ∃ r ∈ w.session.db.objects, ∃ info plain, w.written r.objectId = some (info, plain) ∧
        w.disk.load idleDeflate plainCrypto (.zero 32) info = .ok plain := by
  intro id root next
  refine ⟨_, rfl, ?_⟩
  have h := (no_object_lost (show Run.run (call tagCiEqual idleDeflate plainCrypto (.zero 32))
      (created (id 9) root {} emptyDisk) [.unlock .ok {},
        .stageObject countingEnv (id 2) .originalImage 0 5 10 true,
        .commitMetadata (fun _ ↦ .ok) .ok next {} [],
        .garbageCollect ⟨100, 0, some ⟨0, 0, 0⟩, true, fun _ ↦ true, fun _ ↦ .done⟩,
        .crash [id 3] []] = some _ from rfl)).1
  refine Exists.imp (fun r hr ↦ ⟨hr, ?_⟩) (List.exists_mem_of_ne_nil _ ?_)
  · obtain ⟨info, plain, stat, hwritten, -, -, -, hload⟩ := h r (.inl hr)
    exact ⟨info, plain, hwritten, hload ⟨by decide +kernel, by decide +kernel⟩⟩
  · decide +kernel

end Store

end V3

end SafeVault
