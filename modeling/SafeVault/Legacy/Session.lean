import SafeVault.Index.Codec
import SafeVault.Legacy.ChunkCodec
import SafeVault.Legacy.Header
import SafeVault.Lib.Disk
import SafeVault.Lib.Proc
import SafeVault.Vault.Structure

/-!
# Committing and loading the index of a single-file vault

A session holds the file, the header as it is in memory, and a clock. A commit seals the index,
writes the blob, and then writes the header twice: once with the inactive slot pointing at the new
blob, and once with that slot active. The header in memory is changed before each write and stays
changed when the write fails, so it can be ahead of the file. Opening a vault reads the header back
and tries the active slot before the other one.

Every step that touches the file, draws random bytes or seals asks the environment whether it fails,
and how far it got before it did. A header is written as a whole; a write that is reported as failed
may have reached the file all the same. A write that succeeds also synchronises the file.

The cipher and the compressor are libraries and enter as parameters.
-/

namespace SafeVault

/-! ## The environment -/

/-- The cipher under the master key of the vault: a nonce, associated data, and a text. -/
structure Aead where
  sealTo : Block 24 → Bytes → Bytes → Bytes
  openTo : Block 24 → Bytes → Bytes → Option Bytes
  openTo_sealTo : ∀ nonce ad plain, openTo nonce ad (sealTo nonce ad plain) = some plain
  /-- A sealed text is longer by the tag. -/
  length_sealTo : ∀ nonce ad plain, (sealTo nonce ad plain).length = plain.length + 16

/-- The size of the authentication tag. -/
def tagSize : ℕ := 16

/-- Whether a step fails. A failing step has got some way, which matters where it can be done in
part. -/
inductive Fault where
  | none
  | after (progress : ℕ)
  deriving DecidableEq

/-- The libraries, the random source, and what goes wrong when. -/
structure Env where
  aead : Aead
  deflate : Deflate
  nonce : ℕ → Block 24
  fault : ℕ → Fault

/-- An open vault file. -/
structure Session where
  disk : Disk
  header : Header
  clock : ℕ := 0

namespace Session

def tick (s : Session) : Session := { s with clock := s.clock + 1 }

end Session

/-- The size no file can exceed: positions are signed 64-bit integers. -/
def maxFileSize : ℕ := 2 ^ 63 - 1

namespace IndexIo

/-! ## Steps -/

variable (E : Env)

/-- A step that may fail. `done` is what it does, and `partly` what is left of it when it fails. -/
def attempt {α : Type} (error : VaultResult) (done : Session → α × Session)
    (partly : ℕ → Session → Session) : Proc Session VaultResult α :=
  .step fun s ↦
    match E.fault s.clock with
    | .none => (.ok (done s.tick).1, (done s.tick).2)
    | .after progress => (.error error, partly progress s.tick)

/-- A change of the session in memory. -/
def update (f : Session → Session) : Proc Session VaultResult Unit := .step fun s ↦ (.ok (), f s)

/-- `fill_random` for a nonce. -/
def fillNonce : Proc Session VaultResult (Block 24) :=
  attempt E .cryptoError (fun s ↦ (E.nonce s.clock, s)) fun _ s ↦ s

/-- `crypto::seal`; it only fails for want of memory. -/
def sealBlob (nonce : Block 24) (ad plain : Bytes) : Proc Session VaultResult Bytes :=
  attempt E .cryptoError (fun s ↦ (E.aead.sealTo nonce ad plain, s)) fun _ s ↦ s

/-- `ChunkStore::append_raw`: write at the end of the file and return the place. What does not fit
the largest file is not written. -/
def appendRaw (bytes : Bytes) : Proc Session VaultResult ℕ := do
  let size ← .look fun s ↦ s.disk.size
  if size + bytes.length ≤ maxFileSize then
    attempt E .ioError (fun s ↦ (s.disk.size, { s with disk := s.disk.append bytes }))
      fun progress s ↦ { s with disk := s.disk.append (bytes.take progress) }
  else
    .stop .ioError

/-- `fileutil::sync`. -/
def sync : Proc Session VaultResult Unit :=
  attempt E .ioError (fun s ↦ ((), { s with disk := s.disk.sync })) fun _ s ↦ s

/-- Put the header in memory at the head of the file. -/
def putHeader (s : Session) : Session :=
  { s with disk := { s.disk with head := s.header.serialize } }

/-- `write_header`, which also synchronises. -/
def writeHeader : Proc Session VaultResult Unit :=
  attempt E .ioError (fun s ↦ ((), { putHeader s with disk := (putHeader s).disk.sync }))
    fun progress s ↦ if progress = 0 then s else putHeader s

/-! ## Sealing -/

/-- The domains that separate the uses of the cipher. -/
inductive ChunkDomain where
  | data | thumb | poster | video | index | mkWrap
  deriving DecidableEq

def ChunkDomain.toByte : ChunkDomain → UInt8
  | data => 0
  | thumb => 1
  | poster => 2
  | video => 3
  | index => 4
  | mkWrap => 5

/-- The identity of a sealed record. -/
structure ChunkTag where
  domain : ChunkDomain
  owner : Block 16 := .zero 16
  record : Block 16 := .zero 16
  sequence : ℕ := 0

/-- `build_chunk_ad`. -/
def buildChunkAd (t : ChunkTag) : Bytes :=
  [t.domain.toByte, 1] ++ t.owner.bytes ++ t.record.bytes ++ LittleEndian.encode 4 t.sequence

/-- `header_record_ad`: what binds a record to the vault. -/
def headerRecordAd (domain : ChunkDomain) (h : Header) : Bytes :=
  if h.contextBoundChunks then buildChunkAd { domain, owner := h.vaultId } else []

/-- `index_blob_ad`, with which the writer seals. -/
def indexBlobAd (h : Header) (contextBound : Bool) : Bytes :=
  if contextBound then buildChunkAd { domain := .index, owner := h.vaultId } else []

/-- What the reader passes to the cipher for a slot in a mode. -/
def slotAd (h : Header) (contextBound : Bool) : Bytes :=
  if contextBound then headerRecordAd .index h else []

theorem slotAd_contextBoundChunks (h : Header) :
    slotAd h h.contextBoundChunks = indexBlobAd h h.contextBoundChunks := by
  rw [slotAd, indexBlobAd, headerRecordAd]
  split_ifs <;> rfl

/-! ## Committing -/

/-- `swap_slots`: point the inactive slot at the blob, then make it the active one. -/
def swapSlots (offset sealedLen : ℕ) (nonce : Block 24) : Proc Session VaultResult Unit := do
  let inactive ← .look fun s ↦ !s.header.activeSlot
  update fun s ↦ { s with
    header := s.header.setSlot inactive
      ⟨offset, sealedLen, nonce, s.header.contextBoundChunks⟩ }
  writeHeader E
  update fun s ↦ { s with header := s.header.activate inactive }
  -- The commit point.
  writeHeader E

/-- `serialize_plain_index`. -/
def serializePlainIndex (h : Header) (x : Index) : Bytes :=
  let plain := serializeIndex x.root x.searches x.settings
  if h.framedChunks then ChunkCodec.encodeFrame E.deflate plain else plain

/-- `commit_plain_blob`. -/
def commitPlainBlob (plain : Bytes) : Proc Session VaultResult Unit := do
  let nonce ← fillNonce E
  let ad ← .look fun s ↦ indexBlobAd s.header s.header.contextBoundChunks
  let blob ← sealBlob E nonce ad plain
  let offset ← appendRaw E blob
  sync E
  swapSlots E offset blob.length nonce

/-- `commit_index`. Building the blob only fails for want of memory. -/
def commitIndex (x : Index) : Proc Session VaultResult Unit := do
  let plain ← attempt E .cryptoError (fun s ↦ (serializePlainIndex E s.header x, s)) fun _ s ↦ s
  commitPlainBlob E plain

/-! ## Loading -/

/-- `try_load_slot`. -/
def tryLoadSlot (d : Disk) (h : Header) (slot contextBound : Bool) : Option Index := do
  let s := h.slot slot
  if s.length = 0 then none else
  let onDisk ← d.read s.offset s.length
  if onDisk.length < tagSize then none else
  let blob ← E.aead.openTo s.nonce (slotAd h contextBound) onDisk
  let plain ← if h.framedChunks then ChunkCodec.decodeFrame E.deflate blob else some blob
  deserializeIndex plain

/-- A loaded index, and whether its slot was not bound to the vault although it should be, or the
other way round. -/
structure LoadedSlot where
  index : Index
  legacy : Bool

/-- `load_slot_with_recovery`: first in the mode the header declares, then in the other one. The
mode that worked is noted in the header. -/
def loadSlotWithRecovery (d : Disk) (h : Header) (slot : Bool) : Option (LoadedSlot × Header) :=
  let declared := h.indexSlotContextBound slot
  match tryLoadSlot E d h slot declared with
  | some index => some (⟨index, !declared⟩, h)
  | none =>
    match tryLoadSlot E d h slot !declared with
    | some index =>
      some (⟨index, declared⟩, h.setSlot slot { h.slot slot with contextBound := !declared })
    | none => none

/-- What an unlocked vault starts with. -/
structure Unlocked where
  index : Index
  header : Header
  recoveredLegacyIndex : Bool

/-- `Vault::unlock`, once the master key is known: the active slot, or else the other one. -/
def unlock (d : Disk) (h : Header) : Option Unlocked :=
  let loaded :=
    match loadSlotWithRecovery E d h h.activeSlot with
    | some loaded => some loaded
    | none => loadSlotWithRecovery E d h !h.activeSlot
  loaded.map fun (l, h') ↦ ⟨l.index, h', l.legacy && h'.contextBoundChunks⟩

/-- `Vault::open` and `Vault::unlock` on a file. -/
def openVault (d : Disk) : Option Unlocked := do
  let h ← Header.parse d.head
  unlock E d h

end IndexIo

end SafeVault
