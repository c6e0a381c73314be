import SafeVault.Legacy.ContextRewrite
import SafeVault.V3.ObjectRoundTrip
import SafeVault.V3.Session

/-!
# Storing thumbnails and posters

A single-file vault appends a preview to the file and the node remembers the place. A vault with a
database writes an object file and stages it for the pair of the node and the role; the node remembers
a number made of the identity of the object, and the preview is found through the pair.

Both can fail at any step. What has been stored is read back as it was handed in.
-/

namespace SafeVault

open ChunkStore IndexIo

/-! ## The two layouts -/

inductive Preview where
  | thumb | poster
  deriving DecidableEq

def Preview.domain : Preview → ChunkDomain
  | thumb => .thumb
  | poster => .poster

def Preview.role : Preview → V3.ObjectRole
  | thumb => .thumbnail
  | poster => .poster

/-- What storing rests on. The outcome of the steps on object files is given for each call. -/
structure PreviewEnv where
  chunk : ChunkEnv
  crypto : V3.ObjectCrypto
  masterKey : Block 32
  write : ℕ → V3.WriteEnv
  /-- Whether there is memory to note a written object. -/
  noted : ℕ → Bool

/-- A session with a database, and the object files. -/
structure ObjectVault where
  session : V3.ReadSession
  objects : V3.Objects
  clock : ℕ := 0

/-- How a vault is stored. -/
inductive Storage where
  | file (session : Session)
  | objects (vault : ObjectVault)

/-- Where a preview is. A staged object has no record identity of its own. -/
structure Place where
  offset : UInt64
  length : UInt64
  id : Option NodeId := none

/-- The place with an identity, where there was another one before. -/
def Place.over (old : NodeId) (place : Place) : Place := { place with id := some (place.id.getD old) }

/-- The node a preview belongs to: its identity, the format byte of its medium, and how its chunks are
read. -/
structure Owner where
  nodeId : NodeId
  format : UInt8
  contextBound : Bool

/-- `object_cache_identity` -/
def objectCacheIdentity (id : NodeId) (role : UInt8) : UInt64 :=
  let value := id.bytes.foldl (fun value byte ↦ (value ^^^ byte.toUInt64) * 1099511628211)
    (1469598103934665603 ^^^ role.toUInt64)
  if value = 0 then role.toUInt64 else value

section Store

variable (E : PreviewEnv)

/-- Append a preview as a chunk of the node. -/
def appendPreview (kind : Preview) (owner : Owner) (jpeg : Bytes) (syncs : Bool) :
    Proc Session VaultResult Place := do
  let (tag, span) ← appendChunk E.chunk jpeg owner.contextBound
    { domain := kind.domain, owner := owner.nodeId.toBlock }
  (if syncs then sync E.chunk.toEnv else pure ())
  pure { offset := span.offset, length := span.length, id := some (.ofBytes tag.record.bytes) }

/-- `ReadSession::stage_object` -/
def ObjectVault.stageObject (nodeId : NodeId) (role : V3.ObjectRole) (mediaFormat : UInt8)
    (plaintext : Bytes) (v : ObjectVault) : Option V3.ObjectInfo × ObjectVault :=
  if !v.session.unlocked || plaintext.isEmpty then (none, v)
  else
    let next := { v with clock := v.clock + 1 }
    match V3.writeObject E.chunk.deflate E.crypto (E.write v.clock) E.masterKey
      { vaultId := v.session.vaultId, ownerNodeId := nodeId, role, mediaFormat } plaintext
      v.objects with
    | (.error _, objects) => (none, { next with objects })
    | (.ok info, objects) =>
      match v.session.stageObject info (E.noted v.clock) with
      | (.ok, session) => (some info, { next with objects, session })
      -- The file stays, and nothing refers to it.
      | (_, session) => (none, { next with objects, session })

/-- Store a preview, if nothing fails. -/
def Storage.store (kind : Preview) (owner : Owner) (jpeg : Bytes) (syncs : Bool) :
    Storage → Option Place × Storage
  | .file s =>
    let run := appendPreview E kind owner jpeg syncs
    ((run.outcome s).toOption, .file (run.final s))
  | .objects v =>
    let (info, v) := v.stageObject E owner.nodeId kind.role owner.format jpeg
    (info.map fun info ↦
      { offset := objectCacheIdentity info.objectId kind.role.toByte
        length := .ofNat info.encryptedLength }, .objects v)

/-- What the failure to open or to read an object is to the caller. -/
def readFailure : V3.ObjectStatus → V3.ReadStatus
  | .authenticationFailed => .authenticationFailed
  | _ => .badFormat

/-- `ReadSession::read_id` -/
def ObjectVault.readId (key : V3.ObjectKey) (v : ObjectVault) : Except V3.ReadStatus Bytes :=
  if !v.session.unlocked then .error .ioError
  else
    match v.session.objectFor key with
    | none => .error .badFormat
    | some info =>
      match V3.openObject E.crypto v.objects E.masterKey info with
      | .error status => .error (readFailure status)
      | .ok reader =>
        match V3.readAll E.chunk.deflate E.crypto reader with
        | .error status => .error (readFailure status)
        | .ok plain => .ok plain

/-- The end of `Vault::read_thumbnail`, for a preview at a place. -/
def Storage.load (kind : Preview) (owner : Owner) (place : Place) :
    Storage → Except VaultResult Bytes
  | .file s =>
    match readChunk E.chunk s.header s.disk ⟨place.offset, place.length⟩ owner.contextBound
      { domain := kind.domain
        owner := owner.nodeId.toBlock
        record := (place.id.getD .zero).toBlock } with
    | some plain => .ok plain
    | none => .error .authFailed
  | .objects v =>
    match v.readId E (owner.nodeId, kind.role) with
    | .error status => .error (V3.mapV3ReadStatus status)
    | .ok plain => .ok plain

end Store

/-! ## Storing and loading -/

variable {E : PreviewEnv} {kind kind' : Preview} {owner owner' : Owner} {jpeg plain : Bytes}
  {syncs : Bool} {place : Place} {s t : Session} {v : ObjectVault} {storage storage' : Storage}

section File

theorem extends_of_sync (hheader : t.header = s.header) (hdisk : t.disk = s.disk.sync) :
    Extends s t :=
  ⟨hheader, fun _ _ _ hread ↦ hdisk ▸ hread⟩

/-- An append, bound to its context or not. -/
theorem wp_appendChunk_any {contextBound : Bool} {tag : ChunkTag}
    {Q : ChunkTag × ChunkSpan → Session → Prop} {Er : VaultResult → Session → Prop}
    (hdone : ∀ t record span, Extends s t →
      Written E.chunk t span (chunkAd contextBound { tag with record }) plain →
      Q ({ tag with record }, span) t)
    (hfail : ∀ t, Extends s t → Er .ioError t) :
    Proc.wp (fun _ ↦ True) (appendChunk E.chunk plain contextBound tag) Q Er s := by
  rcases contextBound with _ | _
  · rw [appendChunk, if_neg Bool.false_ne_true, Proc.wp_bind, Proc.wp_pure, Proc.wp_bind]
    refine wp_compute (fun t hdisk hheader ↦ ⟨trivial, ?_⟩)
      fun t hdisk hheader ↦ ⟨trivial, hfail t (extends_of_eq hheader hdisk)⟩
    have hst := extends_of_eq hheader hdisk
    rw [Proc.wp_bind, Proc.wp_look, Proc.wp_bind]
    refine wp_appendRaw (fun w hfit hheader' hdisk' ↦ ⟨trivial, ?_⟩)
      (fun w k _ hheader' hdisk' ↦
        ⟨trivial, hfail w (hst.trans (extends_of_append hheader' hdisk'))⟩) (hfail t hst)
    rw [Proc.wp_pure]
    have hpayload : payload E.chunk t.header plain = payload E.chunk w.header plain := by rw [hheader']
    rw [hpayload] at hfit hdisk' ⊢
    exact hdone w tag.record _ (hst.trans (extends_of_append hheader' hdisk'))
      (written_of_append rfl hfit hdisk')
  · exact wp_appendChunk (fun t record span hst hw ↦ hdone t record span hst hw) hfail

/-- What an append leaves behind. -/
theorem wp_appendPreview :
    Proc.wp (fun _ ↦ True) (appendPreview E kind owner jpeg syncs)
      (fun place t ↦ Extends s t ∧ place.length ≠ 0 ∧
        ∀ old, (Storage.file t).load E kind owner (place.over old) = .ok jpeg)
      (fun _ ↦ Extends s) s := by
  rw [appendPreview, Proc.wp_bind]
  refine wp_appendChunk_any (fun t record span hst hw ↦ ?_) fun t hst ↦ hst
  have hdone : ∀ u, Extends t u → Extends s u ∧ span.length ≠ 0 ∧
      ∀ old, (Storage.file u).load E kind owner
        (Place.over old ⟨span.offset, span.length, some (.ofBytes record.bytes)⟩) = .ok jpeg := by
    intro u htu
    have hread := (hw.extends htu).readChunk
    refine ⟨hst.trans htu, hw.nonempty, fun old ↦ ?_⟩
    rw [Storage.load, Place.over]
    dsimp only
    rw [Option.getD_some, Option.getD_some, ContextRewrite.toBlock_ofBytes, hread]
  rcases syncs with _ | _
  · exact Proc.wp_bind.mpr (Proc.wp_pure.mpr (Proc.wp_pure.mpr (hdone t (.refl t))))
  · refine Proc.wp_bind.mpr ?_
    exact wp_sync
      (fun u hheader hdisk ↦ ⟨trivial, Proc.wp_pure.mpr (hdone u (extends_of_sync hheader hdisk))⟩)
      fun u hheader hdisk ↦ ⟨trivial, hst.trans (extends_of_eq hheader hdisk)⟩

end File

section Objects

open V3

variable {D : Deflate} {C : ObjectCrypto} {env : WriteEnv} {masterKey : Block 32}
  {request : ObjectWriteRequest} {objects objects' : Objects} {info : ObjectInfo} {key : ObjectKey}
  {file : ObjectFile} {nodeId : NodeId} {role : ObjectRole} {format : UInt8}

/-- Publishing replaces nothing. -/
theorem publish_of_isSome {publication : Publication} {id id' : NodeId} {file' : ObjectFile}
    (h : objects id' = some file') : (publish publication id file objects).2 id' = some file' := by
  rw [publish]
  split_ifs with hrefused
  · exact h
  · rw [not_or] at hrefused
    refine (if_neg ?_).trans h
    rintro rfl
    exact hrefused.2 (h ▸ rfl)

/-- A write keeps every file that is there. -/
theorem writeObject_of_isSome {plaintext : Bytes} {id : NodeId} (h : objects id = some file) :
    (writeObject D C env masterKey request plaintext objects).2 id = some file := by
  rw [writeObject, writeObjectStream]
  split
  · exact h
  · exact publish_of_isSome h

/-- What a write records belongs to the pair it was asked for, and the file has a length. -/
theorem key_of_writeObject {plaintext : Bytes}
    (h : writeObject D C env masterKey request plaintext objects = (.ok info, objects')) :
    info.key = (request.ownerNodeId, request.role) ∧ 0 < info.encryptedLength ∧
      info.encryptedLength < 2 ^ 63 := by
  obtain ⟨file, hstage, -⟩ := writeObjectStream_eq_ok h
  constructor
  · rw [stageObjectFile, require_bind_eq_ok_iff] at hstage
    simp only [↓require_bind_eq_ok_iff, ↓demand_bind_eq_ok_iff, bind_eq_ok_iff, Prod.exists] at hstage
    obtain ⟨-, frameCount, -, id, -, -, -, bytes, encryptedLength, -, -, hstage⟩ := hstage
    split_ifs at hstage with hlt
    cases hstage
    rfl
  · obtain ⟨-, -, -, -, info', encryptedLength, rfl, hw⟩ := stageObjectFile_eq_ok hstage
    obtain ⟨_, _, _, _, staged, -, -, hbytes, hlength⟩ := writeFile_eq_ok hw
    have hlt := file.length_lt
    rw [hbytes] at hlt hlength
    simp only [List.length_append, length_encryptRecord, recordOverhead] at hlt hlength
    dsimp only
    omega

/-- What could be opened can be opened after a write. -/
theorem openObject_writeObject {plaintext : Bytes} {reader : ObjectReader}
    (h : openObject C objects masterKey info = .ok reader) :
    openObject C (writeObject D C env masterKey request plaintext objects).2 masterKey info =
      .ok reader := by
  rw [openObject_eq_ok_iff] at h ⊢
  exact ⟨h.1, writeObject_of_isSome h.2.1, h.2.2⟩

end Objects

/-- A pair that has an object which can be read in full. -/
theorem readId_eq_ok_iff {key : V3.ObjectKey} : v.readId E key = .ok plain ↔
    v.session.unlocked = true ∧ ∃ info reader, v.session.objectFor key = some info ∧
      V3.openObject E.crypto v.objects E.masterKey info = .ok reader ∧
      V3.readAll E.chunk.deflate E.crypto reader = .ok plain := by
  rw [ObjectVault.readId]
  rcases hopen : v.session.unlocked
  · simp
  rcases hfor : v.session.objectFor key with _ | info
  · simp
  rcases hreader : V3.openObject E.crypto v.objects E.masterKey info with status | reader
  · simp [hreader]
  rcases hall : V3.readAll E.chunk.deflate E.crypto reader with status | bytes <;> simp [hreader, hall]

/-- A write leaves every other object where it can be read. -/
theorem readId_writeObject {env : V3.WriteEnv} {request : V3.ObjectWriteRequest} {key : V3.ObjectKey}
    {session : V3.ReadSession} {objects : V3.Objects} {clock : ℕ}
    (hobjects : objects = (V3.writeObject E.chunk.deflate E.crypto env E.masterKey request jpeg
      v.objects).2)
    (hopen : session.unlocked = v.session.unlocked)
    (hfor : session.objectFor key = v.session.objectFor key) (h : v.readId E key = .ok plain) :
    (ObjectVault.mk session objects clock).readId E key = .ok plain := by
  rw [readId_eq_ok_iff] at h ⊢
  obtain ⟨hunlocked, info, reader, hinfo, hreader, hall⟩ := h
  exact ⟨hopen.trans hunlocked, info, reader, hfor.trans hinfo,
    hobjects ▸ openObject_writeObject hreader, hall⟩

/-- What staging an object leaves behind. -/
theorem stageObject_spec {nodeId : NodeId} {role : V3.ObjectRole} {format : UInt8} :
    let out := v.stageObject E nodeId role format jpeg
    (∀ info, out.1 = some info → 0 < info.encryptedLength ∧ info.encryptedLength < 2 ^ 63 ∧
      out.2.readId E (nodeId, role) = .ok jpeg) ∧
    ∀ key plain, (key ≠ (nodeId, role) ∨ out.1 = none) → v.readId E key = .ok plain →
      out.2.readId E key = .ok plain := by
  intro out
  have hout : out = v.stageObject E nodeId role format jpeg := rfl
  rw [ObjectVault.stageObject] at hout
  split_ifs at hout with hguard
  · rw [hout]
    exact ⟨nofun, fun _ _ _ h ↦ h⟩
  rw [Bool.or_eq_true, not_or, Bool.not_eq_true, Bool.not_eq_false'] at hguard
  dsimp only at hout
  set request : V3.ObjectWriteRequest :=
    { vaultId := v.session.vaultId, ownerNodeId := nodeId, role, mediaFormat := format }
  rcases hw : V3.writeObject E.chunk.deflate E.crypto (E.write v.clock) E.masterKey request jpeg
    v.objects with ⟨status | info, objects⟩
  · rw [hw] at hout
    rw [hout]
    refine ⟨nofun, fun key plain _ hread ↦ ?_⟩
    exact readId_writeObject (congrArg Prod.snd hw).symm rfl rfl hread
  rw [hw] at hout
  dsimp only at hout
  rcases hnoted : E.noted v.clock
  · rw [hnoted, V3.ReadSession.stageObject, Bool.not_false, Bool.or_true, if_pos rfl] at hout
    rw [hout]
    refine ⟨nofun, fun key plain _ hread ↦ ?_⟩
    exact readId_writeObject (congrArg Prod.snd hw).symm rfl rfl hread
  · rw [hnoted, V3.ReadSession.stageObject, if_neg (by rw [hguard.1]; decide)] at hout
    obtain ⟨hkey, hpos, hlt⟩ := key_of_writeObject hw
    obtain ⟨reader, hreader, hall⟩ := V3.readAll_of_writeObject hw
    rw [hout]
    refine ⟨fun info' hinfo ↦ ?_, fun key plain hne hread ↦ ?_⟩
    · obtain rfl : info = info' := Option.some.inj hinfo
      refine ⟨hpos, hlt, readId_eq_ok_iff.mpr ⟨hguard.1, info, reader, ?_, hreader, hall⟩⟩
      rw [V3.ReadSession.objectFor]
      dsimp only
      rw [hkey, if_pos rfl, Option.some_or]
    · refine readId_writeObject (congrArg Prod.snd hw).symm rfl ?_ hread
      have hother : key ≠ info.key := by
        rw [hkey]
        exact hne.resolve_right (Option.some_ne_none _)
      rw [V3.ReadSession.objectFor, V3.ReadSession.objectFor]
      dsimp only
      rw [if_neg hother]

/-! ## Storing a preview -/

theorem load_objects_eq_ok_iff : (Storage.objects v).load E kind owner place = .ok plain ↔
    v.readId E (owner.nodeId, kind.role) = .ok plain := by
  rw [Storage.load]
  rcases v.readId E (owner.nodeId, kind.role) with status | bytes <;> simp

/-- **A stored preview is read back.** -/
theorem load_of_store (h : (storage.store E kind owner jpeg syncs).1 = some place) :
    place.length ≠ 0 ∧ ∀ old,
      (storage.store E kind owner jpeg syncs).2.load E kind owner (place.over old) = .ok jpeg := by
  rcases storage with s | v
  · rw [Storage.store] at h ⊢
    dsimp only at h ⊢
    rcases hrun : (appendPreview E kind owner jpeg syncs).outcome s with r | place'
    · rw [hrun] at h
      exact nomatch h
    · rw [hrun] at h
      obtain rfl : place' = place := Option.some.inj h
      exact (Proc.of_outcome_ok wp_appendPreview hrun).2
  · rw [Storage.store] at h ⊢
    dsimp only at h ⊢
    obtain ⟨info, hinfo, rfl⟩ := Option.map_eq_some_iff.mp h
    obtain ⟨hpos, hlt, hread⟩ := (stageObject_spec (E := E)).1 info hinfo
    constructor
    · intro hzero
      have hnat : (UInt64.ofNat info.encryptedLength).toNat = info.encryptedLength :=
        UInt64.toNat_ofNat_of_lt' (by rw [UInt64.size]; omega)
      have hzero' := congrArg UInt64.toNat hzero
      rw [hnat] at hzero'
      exact absurd hzero' (by rw [UInt64.toNat_zero]; omega)
    · exact fun old ↦ load_objects_eq_ok_iff.mpr hread

end SafeVault
