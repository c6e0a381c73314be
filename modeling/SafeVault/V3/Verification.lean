import SafeVault.V3.GarbageCollection
import SafeVault.V3.Session

/-!
# What a verification says of a vault

A verification checks the database, compares the rows with the files, asks for media without their
originals, and, when it goes deep, opens every object and reads all of its frames. Everything that is
wrong becomes a finding with the identity of an object or a node; files without a row are findings too,
but no corruption.

A deep verification that finds nothing means that every object can be read as a whole, and has the
length its row says. Quick or deep, the findings are exactly what is wrong.
-/

namespace SafeVault

namespace V3

/-! ## Nodes and their objects -/

/-- The nodes with their media; a gallery has none. -/
def mediaRows : IndexNode → List (NodeId × Option Media) :=
  LeafTree.fold (fun h cs ↦ (h.nodeId, none) :: cs.flatten) fun h m ↦ [(h.nodeId, some m)]

/-- The format in the row of a node. -/
def mediaFormatOf (root : IndexNode) (id : NodeId) : Option UInt8 := do
  guard (id ≠ .zero)
  let row ← (mediaRows root).find? (·.1 = id)
  match ← row.2 with
  | .image img => some img.format.toByte
  | .video vid => some vid.container.toByte

/-- The roles that objects of a medium can have, the original first. -/
def rolesOf : Media → ObjectRole × ObjectRole
  | .image _ => (.originalImage, .thumbnail)
  | .video _ => (.originalVideo, .poster)

def origSizeOf : Media → UInt64
  | .image img => img.origSize
  | .video vid => vid.origSize

/-- A medium has its original, of the size that is said, and no object of a role of another kind; a
gallery has no objects. -/
def hasItsObjects (rows : List ObjectRecord) (id : NodeId) (media : Option Media) : Bool :=
  match media with
  | none => rows.all fun r ↦ r.nodeId ≠ id
  | some m =>
    (rows.any fun r ↦ r.nodeId = id && r.role = (rolesOf m).1 && r.plaintextLength = (origSizeOf m).toNat) &&
      rows.all fun r ↦ r.nodeId ≠ id || r.role = (rolesOf m).1 || r.role = (rolesOf m).2

/-- `incomplete_media_nodes`; the order is up to the database. -/
def incompleteMediaNodes (db : Database) : List NodeId :=
  ((mediaRows db.nodes).filter fun row ↦ !hasItsObjects db.objects row.1 row.2).map (·.1)

/-! ## Reports -/

/-- `RecoveryStatus`, with the one only a verification has. -/
inductive VerifyStatus where
  | ok | databaseError | filesystemError | corrupt | cancelled
  deriving DecidableEq

def RecoveryStatus.toVerify : RecoveryStatus → VerifyStatus
  | .ok => .ok
  | .databaseError => .databaseError
  | .filesystemError => .filesystemError
  | .corrupt => .corrupt

inductive VerifyDepth where
  | quick | deep
  deriving DecidableEq

inductive IntegrityFindingKind where
  | missingReferencedObject | referencedObjectSizeMismatch | unauthenticObject | malformedObject
  | unreferencedGarbage | invalidMediaReferences
  deriving DecidableEq

structure IntegrityFinding where
  kind : IntegrityFindingKind
  objectId : NodeId
  deriving DecidableEq

structure VerificationReport where
  status : VerifyStatus := .filesystemError
  depth : VerifyDepth := .quick
  referencedBytes : UInt64 := 0
  authenticatedBytes : UInt64 := 0
  garbageBytes : UInt64 := 0
  objectsChecked : ℕ := 0
  garbageObjects : ℕ := 0
  findings : List IntegrityFinding := []
  deriving DecidableEq

def VerificationReport.hasCorruption (report : VerificationReport) : Bool :=
  report.findings.any fun f ↦ f.kind ≠ .unreferencedGarbage

def VerificationReport.found (report : VerificationReport) (kind : IntegrityFindingKind) (id : NodeId) :
    VerificationReport :=
  { report with findings := report.findings ++ [⟨kind, id⟩] }

def findingFor : ObjectStatus → IntegrityFindingKind
  | .authenticationFailed => .unauthenticObject
  | _ => .malformedObject

/-! ## Verifying -/

/-- What a verification meets. -/
structure VerifyEnv where
  /-- The checks of the database, for the depth. -/
  healthy : Bool := true
  /-- Whether the rows can be read to be compared, and again to be authenticated. -/
  references : Bool := true
  referencesAgain : Bool := true
  incomplete : Bool := true
  findNode : NodeId → Bool := fun _ ↦ true
  /-- What the token says, each time it is asked. -/
  cancel : ℕ → Bool := fun _ ↦ false

/-- The report so far, and how often the token was asked. -/
structure VerifyState where
  report : VerificationReport
  polls : ℕ := 0

/-- The info of a row, for a format. -/
def ObjectRecord.expected (object : ObjectRecord) (vaultId : NodeId) (mediaFormat : UInt8) : ObjectInfo where
  objectId := object.objectId
  vaultId
  ownerNodeId := object.nodeId
  role := object.role
  mediaFormat
  plaintextLength := object.plaintextLength
  encryptedLength := object.encryptedLength
  framePlainLimit := object.framePlainLimit
  frameCount := object.frameCount

section Verify

variable (D : Deflate) (C : ObjectCrypto) (masterKey : Block 32) (vaultId : NodeId) (env : VerifyEnv)
  (db : Database) (disk : ObjectDisk)

/-- A round of the loop over the frames; `.error` is a return. -/
def authenticateFrame (reader : ObjectReader) (id : NodeId) (state : VerifyState) (frame : ℕ) :
    Except VerifyState VerifyState :=
  if env.cancel state.polls then
    .error { report := { state.report with status := .cancelled }, polls := state.polls + 1 }
  else
    match readFrame D C reader frame with
    | .error status =>
      .error { report := state.report.found (findingFor status) id, polls := state.polls + 1 }
    | .ok plain =>
      .ok
        { report := { state.report with
            authenticatedBytes := state.report.authenticatedBytes + .ofNat plain.length }
          polls := state.polls + 1 }

def authenticateObject (state : VerifyState) (object : ObjectRecord) : VerifyState :=
  match if env.findNode object.nodeId then mediaFormatOf db.nodes object.nodeId else none with
  | none => { state with report := state.report.found .malformedObject object.objectId }
  | some mediaFormat =>
    match openObject C disk.objects masterKey (object.expected vaultId mediaFormat) with
    | .error status => { state with report := state.report.found (findingFor status) object.objectId }
    | .ok reader =>
      match (List.range object.frameCount).foldlM (authenticateFrame D C env reader object.objectId)
        state with
      | .error state => state
      | .ok state =>
        { state with report := { state.report with objectsChecked := state.report.objectsChecked + 1 } }

def isUnreadable (reconciled : ReconciliationReport) (id : NodeId) : Bool :=
  id ∈ reconciled.missing || id ∈ reconciled.sizeMismatches

def authenticateReferences (reconciled : ReconciliationReport) :
    List ObjectRecord → VerifyState → VerifyState
  | [], state => state
  | object :: references, state =>
    if isUnreadable reconciled object.objectId then authenticateReferences reconciled references state
    else
      let state := authenticateObject D C masterKey vaultId env db disk state object
      if state.report.status = .cancelled then state
      else authenticateReferences reconciled references state

/-- The findings of a reconciliation, after those about media. -/
def reconciledFindings (incomplete : List NodeId) (reconciled : ReconciliationReport) :
    List IntegrityFinding :=
  incomplete.map (⟨.invalidMediaReferences, ·⟩) ++
    reconciled.missing.map (⟨.missingReferencedObject, ·⟩) ++
    reconciled.sizeMismatches.map (⟨.referencedObjectSizeMismatch, ·⟩) ++
    reconciled.garbage.map (⟨.unreferencedGarbage, ·.id⟩)

/-- The end of a verification. -/
def concluded (report : VerificationReport) : VerificationReport :=
  if report.hasCorruption then { report with status := .corrupt } else report

def verifyVault (depth : VerifyDepth) : VerificationReport :=
  if !env.healthy then { status := .databaseError, depth }
  else
    let reconciled := reconcileObjects disk.dir (if env.references then some db.objects else none)
    if reconciled.status ≠ .ok then { status := reconciled.status.toVerify, depth }
    else if !env.incomplete then
      { status := .databaseError, depth, referencedBytes := reconciled.referencedBytes }
    else
      let report : VerificationReport :=
        { status := .ok
          depth
          referencedBytes := reconciled.referencedBytes
          garbageBytes := reconciled.garbageBytes
          garbageObjects := reconciled.garbage.length
          findings := reconciledFindings (incompleteMediaNodes db) reconciled }
      if depth = .quick then concluded report
      else if !env.referencesAgain then { report with status := .databaseError }
      else
        concluded (authenticateReferences D C masterKey vaultId env db disk reconciled db.objects
          { report }).report

end Verify

/-! ## An object -/

section Object

variable {D : Deflate} {C : ObjectCrypto} {masterKey : Block 32} {vaultId : NodeId} {env : VerifyEnv}
  {db : Database} {disk : ObjectDisk} {reader : ObjectReader} {info : ObjectInfo} {object : ObjectRecord}
  {state : VerifyState} {id : NodeId} {plains : List Bytes}

/-- The frame of an index is read. -/
def frameReads (D : Deflate) (C : ObjectCrypto) (reader : ObjectReader) (frame : ℕ) : Bool :=
  (readFrame D C reader frame).toBool

/-- An object is authentic: it opens for the format of its node, and all of its frames are read. -/
def authentic (D : Deflate) (C : ObjectCrypto) (masterKey : Block 32) (vaultId : NodeId) (db : Database)
    (disk : ObjectDisk) (object : ObjectRecord) : Bool :=
  (mediaFormatOf db.nodes object.nodeId).any fun mediaFormat ↦
    match openObject C disk.objects masterKey (object.expected vaultId mediaFormat) with
    | .error _ => false
    | .ok reader => (List.range object.frameCount).all (frameReads D C reader)

/-- **Where every frame is read, the object is read.** -/
theorem reads_of_frameReads {objects : Objects} (hopen : openObject C objects masterKey info = .ok reader)
    (hframes : ∀ frame < info.frameCount, frameReads D C reader frame = true) :
    ∃ plains, Reads D C reader plains ∧ plains.length = info.frameCount := by
  obtain ⟨tableOffset, -, -, hcount, htotal, hlt⟩ := directory_of_openObject hopen
  obtain ⟨-, -, -, hinfo, -⟩ := openObject_eq_ok_iff.mp hopen
  have hplain : ∀ frame < info.frameCount, ∃ plain, readFrame D C reader frame = .ok plain := by
    intro frame hframe
    have hframe := hframes frame hframe
    rw [frameReads] at hframe
    rcases hread : readFrame D C reader frame with status | plain
    · rw [hread] at hframe
      cases hframe
    · exact ⟨plain, rfl⟩
  let plains := (List.range info.frameCount).map fun frame ↦
    ((readFrame D C reader frame).toOption).getD []
  have hlength : plains.length = info.frameCount := by
    rw [List.length_map, List.length_range]
  have hget : ∀ frame < info.frameCount, ∃ plain, plains[frame]? = some plain ∧
      readFrame D C reader frame = .ok plain := by
    intro frame hframe
    obtain ⟨plain, hread⟩ := hplain frame hframe
    refine ⟨plain, ?_, hread⟩
    rw [List.getElem?_map, List.getElem?_range hframe, Option.map_some, hread]
    rfl
  have hlengths : reader.entries.map (·.plainLength) = plains.map List.length := by
    refine List.ext_getElem? fun frame ↦ ?_
    rw [List.getElem?_map, List.getElem?_map]
    by_cases hframe : frame < info.frameCount
    · obtain ⟨plain, hplain, hread⟩ := hget frame hframe
      obtain ⟨entry, hentry, hlen⟩ := length_of_readFrame hread
      rw [hplain, hentry, Option.map_some, Option.map_some, hlen]
    · rw [List.getElem?_eq_none (by omega), List.getElem?_eq_none (by omega)]
      rfl
  have hsum : plains.flatten.length = plainTotal reader.entries := by
    rw [List.length_flatten, plainTotal, hlengths]
  refine ⟨plains, ⟨fun frame ↦ ?_, hlengths, ?_, ?_⟩, hlength⟩
  · by_cases hframe : frame < info.frameCount
    · obtain ⟨plain, hplain, hread⟩ := hget frame hframe
      rw [hplain, hread]
      rfl
    · rw [List.getElem?_eq_none (by omega), readFrame, List.getElem?_eq_none (by omega)]
      rfl
  · rw [hinfo, hsum, htotal]
  · rw [hsum]
    exact hlt

/-- What is wrong with the bytes of an object. -/
def IntegrityFindingKind.OfBytes (kind : IntegrityFindingKind) : Prop :=
  kind = .unauthenticObject ∨ kind = .malformedObject

instance (kind : IntegrityFindingKind) : Decidable kind.OfBytes := inferInstanceAs (Decidable (_ ∨ _))

theorem ofBytes_findingFor (status : ObjectStatus) : (findingFor status).OfBytes := by
  rcases status
  · exact .inr rfl
  · exact .inr rfl
  · exact .inr rfl
  · exact .inl rfl

/-- The report when an object is not authentic. -/
def Faults (id : NodeId) (before after : VerificationReport) : Prop :=
  ∃ (kind : IntegrityFindingKind) (bytes : UInt64), kind.OfBytes ∧
    after = { before with authenticatedBytes := bytes, findings := before.findings ++ [⟨kind, id⟩] }

/-- The report when the token was asked and said so. -/
def Cancels (env : VerifyEnv) (before after : VerificationReport) : Prop :=
  (∃ k, env.cancel k = true) ∧
    ∃ bytes : UInt64, after = { before with status := .cancelled, authenticatedBytes := bytes }

/-- The loop over the frames: all of them are read, or one of them is the last and a finding, or it is
cancelled. -/
theorem foldlM_authenticateFrame (reader : ObjectReader) (id : NodeId) (frames : List ℕ)
    (state : VerifyState) :
    ((∀ frame ∈ frames, frameReads D C reader frame = true) ∧ ∃ polls,
      frames.foldlM (authenticateFrame D C env reader id) state = .ok
        { report := { state.report with authenticatedBytes := state.report.authenticatedBytes +
            (frames.map fun frame ↦ UInt64.ofNat ((readFrame D C reader frame).toOption.getD []).length).sum }
          polls }) ∨
    (¬ (∀ frame ∈ frames, frameReads D C reader frame = true) ∧ ∃ after,
      frames.foldlM (authenticateFrame D C env reader id) state = .error after ∧
        Faults id state.report after.report) ∨
    ∃ after, frames.foldlM (authenticateFrame D C env reader id) state = .error after ∧
      Cancels env state.report after.report := by
  induction frames generalizing state with
  | nil =>
    refine .inl ⟨by simp, state.polls, ?_⟩
    rw [List.map_nil, List.sum_nil, add_zero]
    rfl
  | cons frame frames ih =>
    rw [List.foldlM_cons, authenticateFrame]
    by_cases hcancel : env.cancel state.polls = true
    · rw [if_pos hcancel]
      exact .inr (.inr ⟨_, rfl, ⟨_, hcancel⟩, _, rfl⟩)
    rw [if_neg hcancel]
    rcases hread : readFrame D C reader frame with status | plain
    · refine .inr (.inl ⟨fun hall ↦ ?_, _, rfl, findingFor status, state.report.authenticatedBytes,
        ofBytes_findingFor status, rfl⟩)
      have hframe := hall frame List.mem_cons_self
      rw [frameReads, hread] at hframe
      cases hframe
    have hframe : frameReads D C reader frame = true := by
      rw [frameReads, hread]
      rfl
    obtain ⟨hall, polls, hrest⟩ | ⟨hnot, after, hrest, kind, bytes, hkind, hafter⟩ |
        ⟨after, hrest, hcancel, bytes, hafter⟩ := ih
      { report := { state.report with
          authenticatedBytes := state.report.authenticatedBytes + .ofNat plain.length }
        polls := state.polls + 1 }
    · refine .inl ⟨List.forall_mem_cons.mpr ⟨hframe, hall⟩, polls, hrest.trans ?_⟩
      rw [List.map_cons, List.sum_cons, hread, ← add_assoc]
      rfl
    · exact .inr (.inl ⟨fun h ↦ hnot (List.forall_mem_cons.mp h).2, after, hrest, kind, bytes, hkind, hafter⟩)
    · exact .inr (.inr ⟨after, hrest, hcancel, bytes, hafter⟩)

theorem sum_ofNat_length (plains : List Bytes) :
    (plains.map fun plain ↦ UInt64.ofNat plain.length).sum = .ofNat plains.flatten.length := by
  induction plains with
  | nil => rfl
  | cons plain plains ih =>
    rw [List.map_cons, List.sum_cons, ih, List.flatten_cons, List.length_append, UInt64.ofNat_add]

/-- The frames of a reader hold as much as its object. -/
theorem sum_frames (h : Reads D C reader plains) :
    ((List.range plains.length).map fun frame ↦
      UInt64.ofNat ((readFrame D C reader frame).toOption.getD []).length).sum =
      .ofNat reader.info.plaintextLength := by
  have hframes : ((List.range plains.length).map fun frame ↦
      UInt64.ofNat ((readFrame D C reader frame).toOption.getD []).length) =
      plains.map fun plain ↦ UInt64.ofNat plain.length := by
    refine List.ext_getElem (by simp) fun frame hframe hframe' ↦ ?_
    rw [List.length_map] at hframe'
    rw [List.getElem_map, List.getElem_map, List.getElem_range, h.frames, List.getElem?_eq_getElem hframe']
    rfl
  rw [hframes, sum_ofNat_length, h.total]

/-- **An object** is authentic, and its bytes are counted, or there is one finding, or the verification
is cancelled. -/
theorem authenticateObject_cases (masterKey : Block 32) (vaultId : NodeId) (db : Database)
    (disk : ObjectDisk) (env : VerifyEnv) (state : VerifyState) (object : ObjectRecord) :
    (authentic D C masterKey vaultId db disk object = true ∧
      (authenticateObject D C masterKey vaultId env db disk state object).report =
        { state.report with
          authenticatedBytes := state.report.authenticatedBytes + .ofNat object.plaintextLength
          objectsChecked := state.report.objectsChecked + 1 }) ∨
    ((env.findNode object.nodeId = true → authentic D C masterKey vaultId db disk object = false) ∧
      Faults object.objectId state.report
        (authenticateObject D C masterKey vaultId env db disk state object).report) ∨
    Cancels env state.report (authenticateObject D C masterKey vaultId env db disk state object).report := by
  rw [authenticateObject, authentic]
  by_cases hfind : env.findNode object.nodeId = true
  swap
  · rw [if_neg hfind]
    exact .inr (.inl ⟨fun h ↦ absurd h hfind, .malformedObject, _, .inr rfl, rfl⟩)
  rw [if_pos hfind]
  rcases mediaFormatOf db.nodes object.nodeId with _ | mediaFormat
  · exact .inr (.inl ⟨fun _ ↦ rfl, .malformedObject, state.report.authenticatedBytes, .inr rfl, rfl⟩)
  dsimp only
  rw [Option.any_some]
  rcases hopen : openObject C disk.objects masterKey (object.expected vaultId mediaFormat) with
    status | reader
  · exact .inr (.inl ⟨fun _ ↦ rfl, findingFor status, state.report.authenticatedBytes,
      ofBytes_findingFor status, rfl⟩)
  dsimp only
  obtain ⟨hall, polls, hloop⟩ | ⟨hnot, after, hloop, hfaults⟩ | ⟨after, hloop, hcancels⟩ :=
    @foldlM_authenticateFrame D C env reader object.objectId (List.range object.frameCount) state
  · refine .inl ⟨List.all_eq_true.mpr hall, ?_⟩
    obtain ⟨plains, hreads, hcount⟩ := reads_of_frameReads hopen fun frame hframe ↦
      hall frame (List.mem_range.mpr hframe)
    have hsum := sum_frames hreads
    obtain ⟨-, -, -, hinfo, -⟩ := openObject_eq_ok_iff.mp hopen
    rw [hcount, hinfo] at hsum
    rw [ObjectRecord.expected] at hsum
    dsimp only at hsum
    rw [hloop]
    dsimp only
    rw [hsum]
  · refine .inr (.inl ⟨fun _ ↦ ?_, ?_⟩)
    · rw [← Bool.not_eq_true, List.all_eq_true]
      exact hnot
    · rw [hloop]
      exact hfaults
  · refine .inr (.inr ?_)
    rw [hloop]
    exact hcancels

/-- What the loop over the rows comes to: a finding for each object that is not authentic. -/
structure Authenticated (good bad : List ObjectRecord) (before after : VerificationReport) : Prop where
  status : after.status = before.status
  objectsChecked : after.objectsChecked = before.objectsChecked + good.length
  findings : ∃ l, after.findings = before.findings ++ l ∧ l.map (·.objectId) = bad.map (·.objectId) ∧
    ∀ f ∈ l, f.kind.OfBytes
  authenticatedBytes : bad = [] → after.authenticatedBytes = before.authenticatedBytes +
    (good.map fun r ↦ UInt64.ofNat r.plaintextLength).sum
  rest : after.referencedBytes = before.referencedBytes ∧ after.garbageBytes = before.garbageBytes ∧
    after.garbageObjects = before.garbageObjects ∧ after.depth = before.depth

theorem Authenticated.cons_good {good bad : List ObjectRecord} {before mid after : VerificationReport}
    (hmid : mid = { before with
      authenticatedBytes := before.authenticatedBytes + .ofNat object.plaintextLength
      objectsChecked := before.objectsChecked + 1 })
    (h : Authenticated good bad mid after) : Authenticated (object :: good) bad before after := by
  subst hmid
  refine ⟨h.status, ?_, h.findings, fun hbad ↦ ?_, h.rest⟩
  · rw [h.objectsChecked, List.length_cons, Nat.add_assoc, Nat.add_comm 1]
  · rw [h.authenticatedBytes hbad, List.map_cons, List.sum_cons, add_assoc]

theorem Authenticated.cons_bad {good bad : List ObjectRecord} {before mid after : VerificationReport}
    (hmid : Faults object.objectId before mid) (h : Authenticated good bad mid after) :
    Authenticated good (object :: bad) before after := by
  obtain ⟨kind, bytes, hkind, rfl⟩ := hmid
  refine ⟨h.status, h.objectsChecked, ?_, fun hbad ↦ absurd hbad (List.cons_ne_nil _ _), h.rest⟩
  obtain ⟨l, hfindings, hids, hkinds⟩ := h.findings
  refine ⟨⟨kind, object.objectId⟩ :: l, ?_, ?_, List.forall_mem_cons.mpr ⟨hkind, hkinds⟩⟩
  · rw [hfindings, List.append_assoc, List.singleton_append]
  · rw [List.map_cons, List.map_cons, hids]

/-- **The loop over the rows.** -/
theorem authenticated_authenticateReferences (masterKey : Block 32) (vaultId : NodeId) (db : Database)
    (disk : ObjectDisk) (hcancel : ∀ k, env.cancel k = false)
    (hfind : ∀ id, env.findNode id = true) (reconciled : ReconciliationReport)
    (references : List ObjectRecord) (state : VerifyState) (hstatus : state.report.status = .ok) :
    Authenticated
      (references.filter fun r ↦ !isUnreadable reconciled r.objectId &&
        authentic D C masterKey vaultId db disk r)
      (references.filter fun r ↦ !isUnreadable reconciled r.objectId &&
        !authentic D C masterKey vaultId db disk r)
      state.report
      (authenticateReferences D C masterKey vaultId env db disk reconciled references state).report := by
  induction references generalizing state with
  | nil =>
    rw [authenticateReferences]
    exact ⟨rfl, rfl, ⟨[], (List.append_nil _).symm, rfl, by simp⟩, fun _ ↦ (add_zero _).symm, rfl, rfl, rfl, rfl⟩
  | cons object references ih =>
    rw [authenticateReferences, List.filter_cons, List.filter_cons]
    by_cases hskip : isUnreadable reconciled object.objectId = true
    · rw [if_pos hskip, hskip, Bool.not_true, Bool.false_and, Bool.false_and, if_neg Bool.false_ne_true,
        if_neg Bool.false_ne_true]
      exact ih state hstatus
    rw [if_neg hskip, (Bool.not_eq_true _).mp hskip, Bool.not_false, Bool.true_and, Bool.true_and]
    dsimp only
    obtain ⟨hgood, hmid⟩ | ⟨hbad, hmid⟩ | ⟨⟨k, hk⟩, -⟩ :=
      @authenticateObject_cases D C masterKey vaultId db disk env state object
    · have hnext : (authenticateObject D C masterKey vaultId env db disk state object).report.status = .ok := by
        rw [hmid]
        exact hstatus
      rw [hgood, if_pos rfl, Bool.not_true, if_neg Bool.false_ne_true, hnext, if_neg (by decide)]
      exact (ih _ hnext).cons_good hmid
    · have hnext : (authenticateObject D C masterKey vaultId env db disk state object).report.status = .ok := by
        obtain ⟨kind, bytes, -, hmid⟩ := hmid
        rw [hmid]
        exact hstatus
      rw [hbad (hfind _), if_neg Bool.false_ne_true, Bool.not_false, if_pos rfl, hnext, if_neg (by decide)]
      exact (ih _ hnext).cons_bad hmid
    · rw [hcancel k] at hk
      cases hk

/-! ## The findings -/

variable {rows : List ObjectRecord} {reconciled : ReconciliationReport} {dir : ObjectsDir} {r : ObjectRecord}
  {entries : List ObjectEntry}

theorem eq_of_objectId (hrows : (rows.map (·.objectId)).Nodup) {a b : ObjectRecord} (ha : a ∈ rows)
    (hb : b ∈ rows) (h : a.objectId = b.objectId) : a = b :=
  List.inj_on_of_nodup_map hrows ha hb h

/-- The objects that are opened are those whose file is as the row says. -/
theorem isUnreadable_eq (hrows : (rows.map (·.objectId)).Nodup) (h : Reconciled dir rows reconciled)
    (hr : r ∈ rows) : isUnreadable reconciled r.objectId = !matched dir r := by
  have hmem : ∀ p : ObjectRecord → Bool, r.objectId ∈ (rows.filter p).map (·.objectId) ↔ p r = true := by
    intro p
    rw [List.mem_map]
    constructor
    · rintro ⟨other, hother, heq⟩
      obtain ⟨hother, hp⟩ := List.mem_filter.mp hother
      rw [← eq_of_objectId hrows hother hr heq]
      exact hp
    · exact fun hp ↦ ⟨r, List.mem_filter.mpr ⟨hr, hp⟩, rfl⟩
  rw [isUnreadable, h.missing, h.sizeMismatches, Bool.eq_iff_iff, Bool.or_eq_true, decide_eq_true_iff,
    decide_eq_true_iff, hmem, hmem, lost, mismatched, matched]
  rcases dir.fileOf r.objectId with _ | stat
  · simp
  · simp

/-- A report before anything is opened. -/
def reconciledReport (depth : VerifyDepth) (db : Database) (reconciled : ReconciliationReport) :
    VerificationReport where
  status := .ok
  depth
  referencedBytes := reconciled.referencedBytes
  garbageBytes := reconciled.garbageBytes
  garbageObjects := reconciled.garbage.length
  findings := reconciledFindings (incompleteMediaNodes db) reconciled

/-- The rows whose objects are read and are or are not authentic. -/
def opened (C : ObjectCrypto) (D : Deflate) (masterKey : Block 32) (vaultId : NodeId) (db : Database)
    (disk : ObjectDisk) (good : Bool) : List ObjectRecord :=
  db.objects.filter fun r ↦ matched disk.dir r && authentic D C masterKey vaultId db disk r == good

/-- What a verification that is not disturbed comes to, before its end. -/
theorem exists_verifyVault (masterKey : Block 32) (vaultId : NodeId)
    (hrows : (db.objects.map (·.objectId)).Nodup)
    (hlist : listObjects disk.dir = some entries) (depth : VerifyDepth) :
    ∃ reconciled report, Reconciled disk.dir db.objects reconciled ∧
      verifyVault D C masterKey vaultId {} db disk depth = concluded report ∧
      (depth = .quick ∧ report = reconciledReport depth db reconciled ∨
        depth = .deep ∧ Authenticated (opened C D masterKey vaultId db disk true)
          (opened C D masterKey vaultId db disk false) (reconciledReport depth db reconciled) report) := by
  have hreconciled := reconciled_reconcileObjects hrows hlist
  refine ⟨reconcileObjects disk.dir (some db.objects), ?_⟩
  rw [verifyVault]
  dsimp only
  rw [if_pos rfl, hreconciled.status]
  rcases depth
  · exact ⟨_, hreconciled, rfl, .inl ⟨rfl, rfl⟩⟩
  · refine ⟨_, hreconciled, rfl, .inr ⟨rfl, ?_⟩⟩
    have hloop := @authenticated_authenticateReferences D C {} masterKey vaultId db disk (fun _ ↦ rfl) (fun _ ↦ rfl)
      (reconcileObjects disk.dir (some db.objects)) db.objects
      { report := reconciledReport .deep db (reconcileObjects disk.dir (some db.objects)) } rfl
    have hgood : db.objects.filter (fun r ↦ !isUnreadable (reconcileObjects disk.dir (some db.objects))
        r.objectId && authentic D C masterKey vaultId db disk r) = opened C D masterKey vaultId db disk true :=
      List.filter_congr fun r hr ↦ by rw [isUnreadable_eq hrows hreconciled hr, Bool.not_not, beq_true]
    have hbad : db.objects.filter (fun r ↦ !isUnreadable (reconcileObjects disk.dir (some db.objects))
        r.objectId && !authentic D C masterKey vaultId db disk r) = opened C D masterKey vaultId db disk false :=
      List.filter_congr fun r hr ↦ by rw [isUnreadable_eq hrows hreconciled hr, Bool.not_not, beq_false]
    rw [hgood, hbad] at hloop
    exact hloop

theorem concluded_eq (report : VerificationReport) : (concluded report).findings = report.findings ∧
    (concluded report).objectsChecked = report.objectsChecked ∧
    (concluded report).authenticatedBytes = report.authenticatedBytes ∧
    (concluded report).referencedBytes = report.referencedBytes ∧
    (concluded report).status = if report.hasCorruption then .corrupt else report.status := by
  rw [concluded]
  split_ifs
  · exact ⟨rfl, rfl, rfl, rfl, rfl⟩
  · exact ⟨rfl, rfl, rfl, rfl, rfl⟩

theorem mem_reconciledFindings {incomplete : List NodeId} {kind : IntegrityFindingKind} :
    ⟨kind, id⟩ ∈ reconciledFindings incomplete reconciled ↔
      kind = .invalidMediaReferences ∧ id ∈ incomplete ∨
      kind = .missingReferencedObject ∧ id ∈ reconciled.missing ∨
      kind = .referencedObjectSizeMismatch ∧ id ∈ reconciled.sizeMismatches ∨
      kind = .unreferencedGarbage ∧ id ∈ reconciled.garbage.map (·.id) := by
  have hmap : ∀ (k : IntegrityFindingKind) (ids : List NodeId),
      ⟨kind, id⟩ ∈ ids.map (IntegrityFinding.mk k) ↔ kind = k ∧ id ∈ ids := by
    intro k ids
    rw [List.mem_map]
    constructor
    · rintro ⟨other, hother, heq⟩
      rw [IntegrityFinding.mk.injEq] at heq
      exact ⟨heq.1.symm, heq.2 ▸ hother⟩
    · rintro ⟨rfl, hid⟩
      exact ⟨id, hid, rfl⟩
  have hgarbage : reconciled.garbage.map (fun g ↦ IntegrityFinding.mk .unreferencedGarbage g.id) =
      (reconciled.garbage.map (·.id)).map (IntegrityFinding.mk .unreferencedGarbage) := by
    rw [List.map_map]
    rfl
  rw [reconciledFindings, hgarbage, List.mem_append, List.mem_append, List.mem_append, hmap, hmap, hmap,
    hmap, or_assoc, or_assoc]

/-- The identities of the rows with a property. -/
theorem mem_map_filter {p : ObjectRecord → Bool} :
    id ∈ (rows.filter p).map (·.objectId) ↔ ∃ r ∈ rows, r.objectId = id ∧ p r = true := by
  rw [List.mem_map]
  constructor
  · rintro ⟨r, hr, heq⟩
    obtain ⟨hr, hp⟩ := List.mem_filter.mp hr
    exact ⟨r, hr, heq, hp⟩
  · rintro ⟨r, hr, heq, hp⟩
    exact ⟨r, List.mem_filter.mpr ⟨hr, hp⟩, heq⟩

/-- What is wrong with a vault, other than files without a row. -/
structure Flawless (D : Deflate) (C : ObjectCrypto) (masterKey : Block 32) (vaultId : NodeId) (db : Database)
    (disk : ObjectDisk) (depth : VerifyDepth) : Prop where
  complete : incompleteMediaNodes db = []
  matched : ∀ r ∈ db.objects, matched disk.dir r = true
  authentic : depth = .deep → ∀ r ∈ db.objects, authentic D C masterKey vaultId db disk r = true

/-- The findings of a verification: those of the reconciliation, and one for each object that is opened
and not authentic. -/
theorem exists_findings (masterKey : Block 32) (vaultId : NodeId)
    (hrows : (db.objects.map (·.objectId)).Nodup)
    (hlist : listObjects disk.dir = some entries) (depth : VerifyDepth) :
    ∃ reconciled l, Reconciled disk.dir db.objects reconciled ∧
      (verifyVault D C masterKey vaultId {} db disk depth).findings =
        reconciledFindings (incompleteMediaNodes db) reconciled ++ l ∧
      l.map (·.objectId) = (if depth = .deep then opened C D masterKey vaultId db disk false else []).map
        (·.objectId) ∧ (∀ f ∈ l, f.kind.OfBytes) ∧
      (verifyVault D C masterKey vaultId {} db disk depth).status =
        if (verifyVault D C masterKey vaultId {} db disk depth).hasCorruption then .corrupt else .ok := by
  obtain ⟨reconciled, report, hreconciled, hverify, ⟨rfl, rfl⟩ | ⟨rfl, hauthenticated⟩⟩ :=
    exists_verifyVault (D := D) (C := C) masterKey vaultId hrows hlist depth
  · obtain ⟨hfindings, -, -, -, hstatus⟩ := concluded_eq (reconciledReport .quick db reconciled)
    refine ⟨reconciled, [], hreconciled, ?_, rfl, by simp, ?_⟩
    · rw [hverify, hfindings, List.append_nil]
      rfl
    · rw [hverify, VerificationReport.hasCorruption, hfindings, hstatus]
      rfl
  · obtain ⟨hfindings, -, -, -, hstatus⟩ := concluded_eq report
    obtain ⟨l, hl, hids, hkinds⟩ := hauthenticated.findings
    refine ⟨reconciled, l, hreconciled, ?_, ?_, hkinds, ?_⟩
    · rw [hverify, hfindings, hl]
      rfl
    · rw [if_pos rfl]
      exact hids
    · rw [hverify, VerificationReport.hasCorruption, hfindings, hstatus, hauthenticated.status]
      rfl

/-- A finding about bytes is not one of a reconciliation. -/
theorem IntegrityFindingKind.OfBytes.notMem {incomplete : List NodeId} {kind : IntegrityFindingKind}
    (h : kind.OfBytes) : ⟨kind, id⟩ ∉ reconciledFindings incomplete reconciled := by
  rw [mem_reconciledFindings]
  obtain rfl | rfl := h
  · rintro (⟨h, -⟩ | ⟨h, -⟩ | ⟨h, -⟩ | ⟨h, -⟩) <;> cases h
  · rintro (⟨h, -⟩ | ⟨h, -⟩ | ⟨h, -⟩ | ⟨h, -⟩) <;> cases h

theorem hasCorruption_eq_false_iff {report : VerificationReport} :
    report.hasCorruption = false ↔ ∀ f ∈ report.findings, f.kind = .unreferencedGarbage := by
  rw [VerificationReport.hasCorruption, List.any_eq_false]
  exact forall₂_congr fun f _ ↦ by rw [decide_eq_true_iff, not_not]

/-- An authentic object is read as a whole. -/
theorem load_of_authentic (h : authentic D C masterKey vaultId db disk r = true) :
    ∃ mediaFormat plain, mediaFormatOf db.nodes r.nodeId = some mediaFormat ∧
      disk.load D C masterKey (r.expected vaultId mediaFormat) = .ok plain ∧
      plain.length = r.plaintextLength := by
  rw [authentic, Option.any_eq_true] at h
  obtain ⟨mediaFormat, hformat, h⟩ := h
  rcases hopen : openObject C disk.objects masterKey (r.expected vaultId mediaFormat) with status | reader
  · rw [hopen] at h
    cases h
  rw [hopen] at h
  obtain ⟨plains, hreads, -⟩ := reads_of_frameReads hopen fun frame hframe ↦
    List.all_eq_true.mp h frame (List.mem_range.mpr hframe)
  obtain ⟨-, -, -, hinfo, -⟩ := openObject_eq_ok_iff.mp hopen
  refine ⟨mediaFormat, plains.flatten, hformat, ?_, ?_⟩
  · rw [ObjectDisk.load, hopen]
    exact readAll_eq hreads
  · rw [← hreads.total, hinfo]
    rfl

/-- A reconciliation finds only garbage when all media have their objects and all rows their files. -/
theorem onlyGarbage_iff (hrows : (rows.map (·.objectId)).Nodup) (hreconciled : Reconciled dir rows reconciled)
    (incomplete : List NodeId) :
    (∀ f ∈ reconciledFindings incomplete reconciled, f.kind = .unreferencedGarbage) ↔
      incomplete = [] ∧ ∀ r ∈ rows, matched dir r = true := by
  constructor
  · intro hall
    have hnone : ∀ kind id, kind ≠ .unreferencedGarbage →
        ⟨kind, id⟩ ∉ reconciledFindings incomplete reconciled :=
      fun kind id hne hmem ↦ hne (hall _ hmem)
    refine ⟨?_, fun r hr ↦ ?_⟩
    · rw [List.eq_nil_iff_forall_not_mem]
      intro id hid
      exact hnone .invalidMediaReferences id (by rintro ⟨⟩) (mem_reconciledFindings.mpr (.inl ⟨rfl, hid⟩))
    · rcases hbad : matched dir r with _ | _
      · have hunreadable := isUnreadable_eq hrows hreconciled hr
        rw [hbad, Bool.not_false, isUnreadable, Bool.or_eq_true, decide_eq_true_iff,
          decide_eq_true_iff] at hunreadable
        obtain hmissing | hmismatch := hunreadable
        · exact absurd (mem_reconciledFindings.mpr (.inr (.inl ⟨rfl, hmissing⟩)))
            (hnone _ _ (by rintro ⟨⟩))
        · exact absurd (mem_reconciledFindings.mpr (.inr (.inr (.inl ⟨rfl, hmismatch⟩))))
            (hnone _ _ (by rintro ⟨⟩))
      · rfl
  · rintro ⟨rfl, hmatched⟩ f hf
    obtain ⟨-, hid⟩ | ⟨-, hid⟩ | ⟨-, hid⟩ | ⟨hkind, -⟩ := mem_reconciledFindings.mp hf
    · cases hid
    · rw [hreconciled.missing] at hid
      obtain ⟨r, hr, -, hlost⟩ := mem_map_filter.mp hid
      have hgood := hmatched r hr
      rw [matched, Option.isNone_iff_eq_none.mp hlost] at hgood
      cases hgood
    · rw [hreconciled.sizeMismatches] at hid
      obtain ⟨r, hr, -, hbad⟩ := mem_map_filter.mp hid
      have hgood := hmatched r hr
      rw [mismatched] at hbad
      rw [matched] at hgood
      rcases hfile : dir.fileOf r.objectId with _ | stat
      · rw [hfile] at hgood
        cases hgood
      · rw [hfile, Option.any_some, decide_eq_true_iff] at hbad hgood
        exact absurd hgood hbad
    · exact hkind

/-- Nothing but garbage is found exactly when nothing is wrong. -/
theorem status_verifyVault (masterKey : Block 32) (vaultId : NodeId)
    (hrows : (db.objects.map (·.objectId)).Nodup)
    (hlist : listObjects disk.dir = some entries) (depth : VerifyDepth) :
    (Flawless D C masterKey vaultId db disk depth ∧
      (verifyVault D C masterKey vaultId {} db disk depth).status = .ok) ∨
    (¬ Flawless D C masterKey vaultId db disk depth ∧
      (verifyVault D C masterKey vaultId {} db disk depth).status = .corrupt) := by
  obtain ⟨reconciled, l, hreconciled, hfindings, hids, hkinds, hstatus⟩ :=
    exists_findings (D := D) (C := C) masterKey vaultId hrows hlist depth
  have hclean : (verifyVault D C masterKey vaultId {} db disk depth).hasCorruption = false ↔
      Flawless D C masterKey vaultId db disk depth := by
    rw [hasCorruption_eq_false_iff, hfindings]
    rw [List.forall_mem_append, onlyGarbage_iff hrows hreconciled]
    constructor
    · rintro ⟨⟨hcomplete, hmatched⟩, hrest⟩
      refine ⟨hcomplete, hmatched, ?_⟩
      rintro rfl r hr
      have hnil : l = [] := by
        rw [List.eq_nil_iff_forall_not_mem]
        intro f hf
        have hgarbage := hrest f hf
        obtain hkind | hkind := hkinds f hf
        · rw [hkind] at hgarbage
          cases hgarbage
        · rw [hkind] at hgarbage
          cases hgarbage
      rw [hnil, if_pos rfl, List.map_nil, eq_comm, List.map_eq_nil_iff, opened,
        List.filter_eq_nil_iff] at hids
      have hbad := hids r hr
      rw [hmatched r hr, Bool.true_and, beq_false, Bool.not_eq_true', Bool.not_eq_false] at hbad
      exact hbad
    · intro hflawless
      refine ⟨⟨hflawless.complete, hflawless.matched⟩, fun f hf ↦ ?_⟩
      rcases depth
      · rw [if_neg (by rintro ⟨⟩), List.map_nil, List.map_eq_nil_iff] at hids
        rw [hids] at hf
        cases hf
      · rw [if_pos rfl] at hids
        have hmem : f.objectId ∈ l.map (·.objectId) := List.mem_map_of_mem hf
        rw [hids, opened] at hmem
        obtain ⟨r, hr, -, hbad⟩ := mem_map_filter.mp hmem
        rw [hflawless.authentic rfl r hr, Bool.and_eq_true] at hbad
        cases hbad.2
  rcases hcorrupt : (verifyVault D C masterKey vaultId {} db disk depth).hasCorruption with _ | _
  · rw [hcorrupt, if_neg Bool.false_ne_true] at hstatus
    exact .inl ⟨hclean.mp hcorrupt, hstatus⟩
  · rw [hcorrupt, if_pos rfl] at hstatus
    refine .inr ⟨fun h ↦ ?_, hstatus⟩
    rw [hclean.mpr h] at hcorrupt
    cases hcorrupt

/-- The loop over the rows never loses a finding, and passes no object over that is not authentic. -/
theorem authentic_of_authenticateReferences (references : List ObjectRecord) (state : VerifyState)
    (hok : (authenticateReferences D C masterKey vaultId env db disk reconciled references state).report.status
      = .ok)
    (hclean : (authenticateReferences D C masterKey vaultId env db disk reconciled references
      state).report.hasCorruption = false) :
    (∀ f ∈ state.report.findings, f.kind = .unreferencedGarbage) ∧
      ∀ r ∈ references, isUnreadable reconciled r.objectId = false →
        authentic D C masterKey vaultId db disk r = true := by
  induction references generalizing state with
  | nil => exact ⟨hasCorruption_eq_false_iff.mp hclean, by simp⟩
  | cons object references ih =>
    rw [authenticateReferences] at hok hclean
    by_cases hskip : isUnreadable reconciled object.objectId = true
    · rw [if_pos hskip] at hok hclean
      obtain ⟨hfindings, hrest⟩ := ih state hok hclean
      refine ⟨hfindings, List.forall_mem_cons.mpr ⟨fun hread ↦ ?_, hrest⟩⟩
      rw [hskip] at hread
      cases hread
    rw [if_neg hskip] at hok hclean
    dsimp only at hok hclean
    by_cases hcancelled :
        (authenticateObject D C masterKey vaultId env db disk state object).report.status = .cancelled
    · rw [if_pos hcancelled, hcancelled] at hok
      cases hok
    rw [if_neg hcancelled] at hok hclean
    obtain ⟨hfindings, hrest⟩ := ih _ hok hclean
    obtain ⟨hgood, hmid⟩ | ⟨-, kind, bytes, hkind, hmid⟩ | ⟨-, bytes, hmid⟩ :=
      @authenticateObject_cases D C masterKey vaultId db disk env state object
    · rw [hmid] at hfindings
      exact ⟨hfindings, List.forall_mem_cons.mpr ⟨fun _ ↦ hgood, hrest⟩⟩
    · -- What was found stays found.
      have hgarbage := hfindings ⟨kind, object.objectId⟩ (by rw [hmid]; simp)
      obtain rfl | rfl := hkind <;> cases hgarbage
    · rw [hmid] at hcancelled
      exact absurd rfl hcancelled

theorem referencedBytes_authenticateReferences (references : List ObjectRecord) (state : VerifyState) :
    (authenticateReferences D C masterKey vaultId env db disk reconciled references
      state).report.referencedBytes = state.report.referencedBytes := by
  induction references generalizing state with
  | nil => rfl
  | cons object references ih =>
    rw [authenticateReferences]
    split_ifs
    · exact ih state
    dsimp only
    have hobject : (authenticateObject D C masterKey vaultId env db disk state object).report.referencedBytes =
        state.report.referencedBytes := by
      obtain ⟨-, hmid⟩ | ⟨-, kind, bytes, -, hmid⟩ | ⟨-, bytes, hmid⟩ :=
        @authenticateObject_cases D C masterKey vaultId db disk env state object
      · rw [hmid]
      · rw [hmid]
      · rw [hmid]
    split_ifs
    · exact hobject
    · rw [ih, hobject]

theorem status_of_concluded {report : VerificationReport} (h : (concluded report).status = .ok) :
    report.status = .ok ∧ report.hasCorruption = false := by
  rw [concluded] at h
  split_ifs at h with hcorrupt
  exact ⟨h, (Bool.not_eq_true _).mp hcorrupt⟩

/-- A deep verification with status Ok went through to its end. -/
theorem verifyVault_of_ok (hok : (verifyVault D C masterKey vaultId env db disk .deep).status = .ok) :
    (∃ entries, listObjects disk.dir = some entries) ∧
      verifyVault D C masterKey vaultId env db disk .deep =
        concluded (authenticateReferences D C masterKey vaultId env db disk
          (reconcileObjects disk.dir (some db.objects)) db.objects
          { report := reconciledReport .deep db (reconcileObjects disk.dir (some db.objects)) }).report := by
  rw [verifyVault] at hok ⊢
  by_cases hhealthy : (!env.healthy) = true
  · rw [if_pos hhealthy] at hok
    cases hok
  rw [if_neg hhealthy] at hok ⊢
  dsimp only at hok ⊢
  by_cases hreferences : env.references = true
  swap
  · rw [if_neg hreferences] at hok
    cases hok
  rw [if_pos hreferences] at hok ⊢
  have hlist : ∃ entries, listObjects disk.dir = some entries := by
    rcases hlist : listObjects disk.dir with _ | entries
    · rw [reconcileObjects, hlist] at hok
      cases hok
    · exact ⟨entries, rfl⟩
  refine ⟨hlist, ?_⟩
  obtain ⟨entries, hlist⟩ := hlist
  have hstatus : (reconcileObjects disk.dir (some db.objects)).status = .ok :=
    (@mem_garbage_iff _ _ db.objects hlist).1
  rw [hstatus, if_neg (not_not_intro rfl)] at hok ⊢
  by_cases hincomplete : (!env.incomplete) = true
  · rw [if_pos hincomplete] at hok
    cases hok
  rw [if_neg hincomplete, if_neg (by decide)] at hok ⊢
  by_cases hagain : (!env.referencesAgain) = true
  · rw [if_pos hagain] at hok
    cases hok
  rw [if_neg hagain]
  rfl

/-- **A deep Ok is never wrong**, whatever failed on the way. -/
theorem flawless_of_verifyVault (hrows : (db.objects.map (·.objectId)).Nodup)
    (hok : (verifyVault D C masterKey vaultId env db disk .deep).status = .ok) :
    Flawless D C masterKey vaultId db disk .deep ∧ (∃ entries, listObjects disk.dir = some entries) ∧
      (verifyVault D C masterKey vaultId env db disk .deep).referencedBytes =
        (db.objects.map fun r ↦ UInt64.ofNat r.encryptedLength).sum := by
  obtain ⟨⟨entries, hlist⟩, heq⟩ := verifyVault_of_ok hok
  rw [heq] at hok ⊢
  obtain ⟨hstatus, hclean⟩ := status_of_concluded hok
  obtain ⟨hfindings, hauthentic⟩ := authentic_of_authenticateReferences _ _ hstatus hclean
  have hreconciled := reconciled_reconcileObjects hrows hlist
  obtain ⟨hcomplete, hmatched⟩ :=
    (onlyGarbage_iff hrows hreconciled (incompleteMediaNodes db)).mp hfindings
  refine ⟨⟨hcomplete, hmatched, fun _ r hr ↦ hauthentic r hr ?_⟩, ⟨entries, hlist⟩, ?_⟩
  · rw [isUnreadable_eq hrows hreconciled hr, hmatched r hr]
    rfl
  · have hall : db.objects.filter (V3.matched disk.dir) = db.objects := List.filter_eq_self.mpr hmatched
    obtain ⟨-, -, -, hreferenced, -⟩ := concluded_eq (authenticateReferences D C masterKey vaultId env db disk
      (reconcileObjects disk.dir (some db.objects)) db.objects
      { report := reconciledReport .deep db (reconcileObjects disk.dir (some db.objects)) }).report
    rw [hreferenced, referencedBytes_authenticateReferences]
    exact hreconciled.referencedBytes.trans (by rw [hall])

theorem depth_verifyVault (masterKey : Block 32) (vaultId : NodeId)
    (hrows : (db.objects.map (·.objectId)).Nodup) (hlist : listObjects disk.dir = some entries)
    (depth : VerifyDepth) : (verifyVault D C masterKey vaultId {} db disk depth).depth = depth := by
  obtain ⟨reconciled, report, -, hverify, hreport⟩ :=
    exists_verifyVault (D := D) (C := C) masterKey vaultId hrows hlist depth
  have hdepth : report.depth = depth := by
    obtain ⟨-, rfl⟩ | ⟨-, hauthenticated⟩ := hreport
    · rfl
    · exact hauthenticated.rest.2.2.2
  rw [hverify, concluded]
  split_ifs
  · exact hdepth
  · exact hdepth

/-- What a deep verification without findings has read. -/
theorem whole_verifyVault (masterKey : Block 32) (vaultId : NodeId)
    (hrows : (db.objects.map (·.objectId)).Nodup) (hlist : listObjects disk.dir = some entries)
    (hok : (verifyVault D C masterKey vaultId {} db disk .deep).status = .ok) :
    (verifyVault D C masterKey vaultId {} db disk .deep).objectsChecked = db.objects.length ∧
    (verifyVault D C masterKey vaultId {} db disk .deep).authenticatedBytes =
      (db.objects.map fun r ↦ UInt64.ofNat r.plaintextLength).sum ∧
    (verifyVault D C masterKey vaultId {} db disk .deep).referencedBytes =
      (db.objects.map fun r ↦ UInt64.ofNat r.encryptedLength).sum ∧
    ∀ r ∈ db.objects, ∃ mediaFormat plain, mediaFormatOf db.nodes r.nodeId = some mediaFormat ∧
      disk.load D C masterKey (r.expected vaultId mediaFormat) = .ok plain ∧
      plain.length = r.plaintextLength := by
  have hflawless : Flawless D C masterKey vaultId db disk .deep := by
    obtain ⟨hflawless, -⟩ | ⟨-, hcorrupt⟩ :=
      status_verifyVault (D := D) (C := C) masterKey vaultId hrows hlist .deep
    · exact hflawless
    · rw [hcorrupt] at hok
      cases hok
  have hauthentic := hflawless.authentic rfl
  have hall : opened C D masterKey vaultId db disk true = db.objects := by
    rw [opened, List.filter_eq_self]
    intro r hr
    rw [hflawless.matched r hr, hauthentic r hr]
    rfl
  have hnone : opened C D masterKey vaultId db disk false = [] := by
    rw [opened, List.filter_eq_nil_iff]
    intro r hr
    rw [hauthentic r hr, Bool.and_eq_true]
    rintro ⟨-, ⟨⟩⟩
  obtain ⟨reconciled, report, hreconciled, hverify, ⟨⟨⟩, -⟩ | ⟨-, hauthenticated⟩⟩ :=
    exists_verifyVault (D := D) (C := C) masterKey vaultId hrows hlist .deep
  obtain ⟨-, hchecked, hauthenticatedBytes, hreferencedBytes, -⟩ := concluded_eq report
  rw [hall, hnone] at hauthenticated
  refine ⟨?_, ?_, ?_, fun r hr ↦ load_of_authentic (hauthentic r hr)⟩
  · rw [hverify, hchecked, hauthenticated.objectsChecked]
    exact Nat.zero_add _
  · rw [hverify, hauthenticatedBytes, hauthenticated.authenticatedBytes rfl]
    exact zero_add _
  · have hmatched : db.objects.filter (V3.matched disk.dir) = db.objects :=
      List.filter_eq_self.mpr hflawless.matched
    rw [hverify, hreferencedBytes, hauthenticated.rest.1]
    exact hreconciled.referencedBytes.trans (by rw [hmatched])

/-- A report says exactly what is wrong. -/
structure VerificationReport.Exact (D : Deflate) (C : ObjectCrypto) (masterKey : Block 32) (vaultId : NodeId)
    (db : Database) (disk : ObjectDisk) (report : VerificationReport) : Prop where
  media : ∀ id, ⟨.invalidMediaReferences, id⟩ ∈ report.findings ↔ id ∈ incompleteMediaNodes db
  missing : ∀ id, ⟨.missingReferencedObject, id⟩ ∈ report.findings ↔
    ∃ r ∈ db.objects, r.objectId = id ∧ disk.dir.fileOf id = none
  sizes : ∀ id, ⟨.referencedObjectSizeMismatch, id⟩ ∈ report.findings ↔
    ∃ r ∈ db.objects, r.objectId = id ∧ ∃ stat, disk.dir.fileOf id = some stat ∧ stat.size ≠ r.encryptedLength
  garbage : ∀ id, ⟨.unreferencedGarbage, id⟩ ∈ report.findings ↔
    (disk.dir.fileOf id).isSome ∧ ∀ r ∈ db.objects, r.objectId ≠ id
  bytes : ∀ id, (∃ kind : IntegrityFindingKind, kind.OfBytes ∧ ⟨kind, id⟩ ∈ report.findings) ↔
    report.depth = .deep ∧ ∃ r ∈ db.objects, r.objectId = id ∧ V3.matched disk.dir r = true ∧
      V3.authentic D C masterKey vaultId db disk r = false
  /-- There is at most one finding about the bytes of an object. -/
  once : ((report.findings.filter fun f ↦ f.kind.OfBytes).map (·.objectId)).Nodup
  status : report.status = if report.hasCorruption then .corrupt else .ok
  /-- What a deep verification has read when it found nothing. -/
  whole : report.depth = .deep → report.status = .ok →
    report.objectsChecked = db.objects.length ∧
    report.authenticatedBytes = (db.objects.map fun r ↦ UInt64.ofNat r.plaintextLength).sum ∧
    report.referencedBytes = (db.objects.map fun r ↦ UInt64.ofNat r.encryptedLength).sum ∧
    ∀ r ∈ db.objects, ∃ mediaFormat plain, mediaFormatOf db.nodes r.nodeId = some mediaFormat ∧
      disk.load D C masterKey (r.expected vaultId mediaFormat) = .ok plain ∧
      plain.length = r.plaintextLength

/-- A finding of a reconciliation is not about bytes. -/
theorem mem_findings_iff {l : List IntegrityFinding} {incomplete : List NodeId} {kind : IntegrityFindingKind}
    (hl : ∀ f ∈ l, f.kind.OfBytes) (hkind : ¬ kind.OfBytes) :
    ⟨kind, id⟩ ∈ reconciledFindings incomplete reconciled ++ l ↔
      ⟨kind, id⟩ ∈ reconciledFindings incomplete reconciled := by
  rw [List.mem_append]
  exact or_iff_left fun hmem ↦ hkind (hl _ hmem)

theorem mem_findings_ofBytes_iff {l : List IntegrityFinding} {incomplete : List NodeId}
    (hl : ∀ f ∈ l, f.kind.OfBytes) :
    (∃ kind : IntegrityFindingKind, kind.OfBytes ∧
        ⟨kind, id⟩ ∈ reconciledFindings incomplete reconciled ++ l) ↔ id ∈ l.map (·.objectId) := by
  rw [List.mem_map]
  constructor
  · rintro ⟨kind, hkind, hmem⟩
    obtain hmem | hmem := List.mem_append.mp hmem
    · exact absurd hmem hkind.notMem
    · exact ⟨_, hmem, rfl⟩
  · rintro ⟨f, hf, rfl⟩
    exact ⟨f.kind, hl f hf, List.mem_append_right _ hf⟩

theorem filter_findings_ofBytes {l : List IntegrityFinding} {incomplete : List NodeId}
    (hl : ∀ f ∈ l, f.kind.OfBytes) :
    (reconciledFindings incomplete reconciled ++ l).filter (fun f ↦ f.kind.OfBytes) = l := by
  have hnone : (reconciledFindings incomplete reconciled).filter (fun f ↦ f.kind.OfBytes) = [] :=
    List.filter_eq_nil_iff.mpr fun f hf hkind ↦ (of_decide_eq_true hkind).notMem hf
  have hall : l.filter (fun f ↦ f.kind.OfBytes) = l :=
    List.filter_eq_self.mpr fun f hf ↦ decide_eq_true (hl f hf)
  rw [List.filter_append, hnone, hall, List.nil_append]

/-- **A verification is exact.** -/
theorem verification_exact (D : Deflate) (C : ObjectCrypto) (masterKey : Block 32) (vaultId : NodeId)
    (db : Database) (disk : ObjectDisk) (depth : VerifyDepth) (hrows : (db.objects.map (·.objectId)).Nodup)
    (hlist : listObjects disk.dir = some entries) :
    (verifyVault D C masterKey vaultId {} db disk depth).depth = depth ∧
      (verifyVault D C masterKey vaultId {} db disk depth).Exact D C masterKey vaultId db disk := by
  have hdepth := depth_verifyVault (D := D) (C := C) masterKey vaultId hrows hlist depth
  have hwhole := whole_verifyVault (D := D) (C := C) masterKey vaultId hrows hlist
  obtain ⟨reconciled, l, hreconciled, hfindings, hids, hl, hstatus⟩ :=
    exists_findings (D := D) (C := C) masterKey vaultId hrows hlist depth
  refine ⟨hdepth, ?_, ?_, ?_, ?_, ?_, ?_, hstatus, ?_⟩
  · intro id
    rw [hfindings, mem_findings_iff hl (by decide), mem_reconciledFindings]
    simp
  · intro id
    rw [hfindings, mem_findings_iff hl (by decide), mem_reconciledFindings, hreconciled.missing]
    simp only [reduceCtorEq, false_and, true_and, false_or, or_false, mem_map_filter]
    refine exists_congr fun r ↦ and_congr_right fun _ ↦ and_congr_right ?_
    rintro rfl
    rw [lost, Option.isNone_iff_eq_none]
  · intro id
    rw [hfindings, mem_findings_iff hl (by decide), mem_reconciledFindings, hreconciled.sizeMismatches]
    simp only [reduceCtorEq, false_and, true_and, false_or, or_false, mem_map_filter]
    refine exists_congr fun r ↦ and_congr_right fun _ ↦ and_congr_right ?_
    rintro rfl
    rw [mismatched, Option.any_eq_true]
    simp only [decide_eq_true_iff]
  · intro id
    rw [hfindings, mem_findings_iff hl (by decide), mem_reconciledFindings]
    simp only [reduceCtorEq, false_and, true_and, false_or, List.mem_map]
    constructor
    · rintro ⟨g, hg, rfl⟩
      obtain ⟨hfile, hfresh⟩ := (hreconciled.garbage g).mp hg
      refine ⟨?_, fun r hr heq ↦ hfresh (List.mem_map.mpr ⟨r, hr, heq⟩)⟩
      rw [hfile]
      rfl
    · rintro ⟨hfile, hfresh⟩
      obtain ⟨stat, hstat⟩ := Option.isSome_iff_exists.mp hfile
      refine ⟨⟨id, stat.size, stat.modifiedSeconds⟩, (hreconciled.garbage _).mpr ⟨hstat, ?_⟩, rfl⟩
      intro hmem
      obtain ⟨r, hr, heq⟩ := List.mem_map.mp hmem
      exact hfresh r hr heq
  · intro id
    rw [hfindings, mem_findings_ofBytes_iff hl, hids, hdepth]
    split_ifs with hdeep
    · rw [opened, mem_map_filter]
      simp only [hdeep, true_and, Bool.and_eq_true, beq_false, Bool.not_eq_true']
    · simp [hdeep]
  · rw [hfindings, filter_findings_ofBytes hl, hids]
    split_ifs
    · exact hrows.sublist (List.filter_sublist.map _)
    · exact List.nodup_nil
  · rw [hdepth]
    rintro rfl
    exact hwhole

/-- An image without its file, and a file of five bytes that is no object. -/
def damagedDatabase : Database where
  nodes := .branch { name := [], nodeId := .ofBytes [1] }
    [.leaf { name := [97], nodeId := .ofBytes [2] } (.image {})]
  objects := [⟨leftover.id, .ofBytes [2], .thumbnail, 5, 1, 1, 1, 1⟩,
    ⟨.ofBytes [7], .ofBytes [2], .originalImage, 5, 1, 1, 1, 1⟩]
  metadata := {}

/-- Both are found. -/
theorem verification_exact_damaged :
    (verifyVault idleDeflate plainCrypto (.zero 32) (.ofBytes [9]) {} damagedDatabase leftoverDisk
        .deep).depth = .deep ∧
      ⟨.missingReferencedObject, .ofBytes [7]⟩ ∈ (verifyVault idleDeflate plainCrypto (.zero 32)
        (.ofBytes [9]) {} damagedDatabase leftoverDisk .deep).findings ∧
      ∃ kind : IntegrityFindingKind, kind.OfBytes ∧ ⟨kind, leftover.id⟩ ∈ (verifyVault idleDeflate plainCrypto
        (.zero 32) (.ofBytes [9]) {} damagedDatabase leftoverDisk .deep).findings := by
  have hlist : listObjects leftoverDisk.dir = some [⟨leftover.id, ⟨5, 0⟩⟩] := by decide +kernel
  obtain ⟨hdepth, hexact⟩ := verification_exact idleDeflate plainCrypto (.zero 32) (.ofBytes [9])
    damagedDatabase leftoverDisk .deep (by decide +kernel) hlist
  refine ⟨hdepth, (hexact.missing _).mpr ?_, (hexact.bytes _).mpr ⟨hdepth, ?_⟩⟩
  · exact ⟨_, List.mem_cons_of_mem _ List.mem_cons_self, rfl, by decide +kernel⟩
  · exact ⟨_, List.mem_cons_self, rfl, by decide +kernel, by decide +kernel⟩

end Object

end V3

end SafeVault
