import SafeVault.Legacy.ChunkCodec
import SafeVault.Legacy.Session
import SafeVault.V3.Objects

/-!
# The files of objects

An object file is a preamble in the clear and encrypted records: a header, the frames, the table of
the frames and a footer. The header repeats what the caller has to know about the object, the table
says where each frame is and how much it holds, and the footer where the table is, with a digest of
header and table.

A file is written under a temporary name and published whole. Opening it takes nothing on trust: all
of the parts are checked against what the caller expects and against each other, and the arithmetic
on offsets and sums is that of unsigned 64-bit integers.

The key of an object is derived from the master key; the derivation, the cipher for each key and the
digest are parameters.
-/

namespace SafeVault

namespace V3

open Header (getAt byteAt)

/-! ## What the store rests on -/

structure ObjectCrypto where
  deriveObjectKey : Block 32 → NodeId → NodeId → Block 32
  aead : Block 32 → Aead
  digest : Block 32 → Bytes → Block 32

inductive ObjectStatus where
  | invalidArgument | ioError | corrupt | authenticationFailed
  deriving DecidableEq

/-- The value of a call that may have none. -/
def demand {α : Type} (a : Option α) (status : ObjectStatus) : Except ObjectStatus α :=
  a.elim (.error status) .ok

/-- A file on disk; its length is a signed 64-bit integer. -/
structure ObjectFile where
  bytes : Bytes
  length_lt : bytes.length < 2 ^ 63

/-- The published object files. -/
abbrev Objects := NodeId → Option ObjectFile

def ObjectFile.size (file : ObjectFile) : ℕ := file.bytes.length

/-- `ObjectFile::read_at`, which fails where there are not as many bytes. -/
def ObjectFile.readAt (file : ObjectFile) (offset length : ℕ) : Option Bytes :=
  if offset < 2 ^ 63 ∧ (length = 0 ∨ offset + length ≤ file.size) then
    some (Layout.slice offset length file.bytes)
  else none

def add64 (a b : ℕ) : ℕ := (a + b) % 2 ^ 64

def sub64 (a b : ℕ) : ℕ := (a + 2 ^ 64 - b) % 2 ^ 64

/-! ## Constants -/

def objectFormatVersion : ℕ := 1

def objectMaxFramePlain : ℕ := 1024 * 1024

def objectMaxFrames : ℕ := 1024 * 1024

def objectPreambleSize : ℕ := 64

/-- `OSVOBJ` and two zero bytes. -/
def objectMagic : Bytes := [79, 83, 86, 79, 66, 74, 0, 0]

def headerIndex : ℕ := 0xffffffff

def tableIndex : ℕ := 0xfffffffe

def footerIndex : ℕ := 0xfffffffd

/-- A record is longer than what it holds by a nonce and a tag. -/
def recordOverhead : ℕ := 24 + tagSize

def headerRecordSize : ℕ := 64 + recordOverhead

def footerRecordSize : ℕ := 64 + recordOverhead

def entrySize : ℕ := 24

def ObjectRole.toByte : ObjectRole → UInt8
  | .originalImage => 1
  | .thumbnail => 2
  | .poster => 3
  | .originalVideo => 4

/-! ## Records -/

/-- `build_object_frame_ad`, of a record of an object. -/
def frameAd (info : ObjectInfo) (index : ℕ) : Bytes :=
  [info.role.toByte, 1] ++ info.vaultId.bytes ++ info.objectId.bytes ++ info.ownerNodeId.bytes ++
    LittleEndian.encode 4 index ++ LittleEndian.encode 4 info.frameCount ++
    LittleEndian.encode 8 info.plaintextLength

section Records

variable (C : ObjectCrypto) (key : Block 32) (info : ObjectInfo)

/-- `encrypt_record`, with a given nonce. -/
def encryptRecord (nonce : Block 24) (index : ℕ) (plain : Bytes) : Bytes :=
  nonce.bytes ++ (C.aead key).sealTo nonce (frameAd info index) plain

def decryptRecord (file : ObjectFile) (index offset length : ℕ) : Except ObjectStatus Bytes := do
  require (recordOverhead ≤ length) .corrupt
  let encrypted ← demand (file.readAt offset length) .ioError
  demand ((C.aead key).openTo (.ofSlice 24 (encrypted.take 24)) (frameAd info index)
    (encrypted.drop 24)) .authenticationFailed

end Records

/-- An entry of the table of frames. -/
structure Entry where
  offset : ℕ
  length : ℕ
  plainLength : ℕ
  compression : UInt8
  deriving DecidableEq

def Entry.span (e : Entry) : ℕ × ℕ := (e.offset, e.length)

/-! ## Writing -/

/-- `object_frame_count`. -/
def objectFrameCount (plaintextLength framePlainLimit : ℕ) : Option ℕ :=
  if framePlainLimit = 0 ∨ objectMaxFramePlain < framePlainLimit then none
  else
    let count := if plaintextLength = 0 then 0 else 1 + (plaintextLength - 1) / framePlainLimit
    if objectMaxFrames < count then none else some count

def preambleFields (info : ObjectInfo) : List Layout.Field :=
  [(0, objectMagic),
    (8, LittleEndian.encode 2 objectFormatVersion),
    (10, LittleEndian.encode 2 objectPreambleSize),
    (16, info.vaultId.bytes),
    (32, info.objectId.bytes),
    (48, LittleEndian.encode 4 info.framePlainLimit)]

/-- `build_object_preamble`. -/
def buildPreamble (info : ObjectInfo) : Bytes :=
  Layout.fill (preambleFields info) (List.replicate objectPreambleSize 0)

def headerFields (info : ObjectInfo) : List Layout.Field :=
  [(0, [0]),
    (1, [info.role.toByte]),
    (2, [info.mediaFormat]),
    (4, info.ownerNodeId.bytes),
    (20, LittleEndian.encode 8 info.plaintextLength),
    (28, LittleEndian.encode 4 info.framePlainLimit),
    (32, LittleEndian.encode 4 info.frameCount)]

def buildHeader (info : ObjectInfo) : Bytes :=
  Layout.fill (headerFields info) (List.replicate 64 0)

def Entry.fields (e : Entry) : List Layout.Field :=
  [(0, LittleEndian.encode 8 e.offset),
    (8, LittleEndian.encode 8 e.length),
    (16, LittleEndian.encode 4 e.plainLength),
    (20, [e.compression])]

def Entry.row (e : Entry) : Bytes := Layout.fill e.fields (List.replicate entrySize 0)

/-- The table; the row of each entry begins where the one before it ends. -/
def buildTable (frameCount : ℕ) (entries : List Entry) : Bytes :=
  LittleEndian.encode 2 1 ++ LittleEndian.encode 2 entrySize ++ LittleEndian.encode 4 frameCount ++
    (entries.map Entry.row).flatten

/-- `table_digest`. -/
def tableDigest (C : ObjectCrypto) (key : Block 32) (header table : Bytes) : Block 32 :=
  -- `OSV-V3-OBJECT-TABLE` and a zero byte
  C.digest key ([79, 83, 86, 45, 86, 51, 45, 79, 66, 74, 69, 67, 84, 45, 84, 65, 66, 76, 69, 0] ++
    header ++ table)

def footerFields (info : ObjectInfo) (tableOffset tableLength total : ℕ) (digest : Block 32) :
    List Layout.Field :=
  [(0, [2]),
    (1, [info.role.toByte]),
    (2, LittleEndian.encode 2 1),
    (4, LittleEndian.encode 4 info.frameCount),
    (8, LittleEndian.encode 8 tableOffset),
    (16, LittleEndian.encode 8 tableLength),
    (24, LittleEndian.encode 8 total),
    (32, digest.bytes)]

def buildFooter (info : ObjectInfo) (tableOffset tableLength total : ℕ) (digest : Block 32) : Bytes :=
  Layout.fill (footerFields info tableOffset tableLength total digest) (List.replicate 64 0)

/-- How the publication of a file ends. It can be in its place and still be reported as failed. -/
inductive Publication where
  | refused | unsynced | done
  deriving DecidableEq

/-- What a write meets outside. -/
structure WriteEnv where
  /-- The random identity, if there is one. -/
  randomId : Option NodeId
  staging : Bool
  preambleWritten : Bool
  /-- The nonce of a record, if it can be encrypted and written. -/
  nonce : ℕ → Option (Block 24)
  /-- What the caller hands out for an offset and a length. -/
  read : ℕ → (length : ℕ) → Option (Block length)
  synced : Bool
  publication : Publication

structure ObjectWriteRequest where
  vaultId : NodeId
  ownerNodeId : NodeId
  role : ObjectRole
  mediaFormat : UInt8 := 0
  framePlainLimit : ℕ := objectMaxFramePlain

def validWriteRequest (request : ObjectWriteRequest) : Bool :=
  request.vaultId ≠ .zero && request.ownerNodeId ≠ .zero && request.framePlainLimit ≠ 0 &&
    request.framePlainLimit ≤ objectMaxFramePlain

/-- The staging file, and the entries of the frames written to it. -/
structure Staged where
  file : Bytes
  fileOffset : ℕ
  entries : List Entry

section Write

variable (D : Deflate) (C : ObjectCrypto) (env : WriteEnv) (key : Block 32) (info : ObjectInfo)

/-- Encrypt a record and write it at the end. -/
def writeRecord (index : ℕ) (plain : Bytes) : Except ObjectStatus Bytes :=
  (demand (env.nonce index) .ioError).map fun nonce ↦ encryptRecord C key info nonce index plain

/-- The length of a frame. -/
def frameLength (frame : ℕ) : ℕ :=
  min info.framePlainLimit (info.plaintextLength - frame * info.framePlainLimit)

/-- What the caller hands out for a frame. -/
def readPlain (frame : ℕ) : Option Bytes :=
  (env.read (frame * info.framePlainLimit) (frameLength info frame)).map (·.bytes)

/-- One round of the loop over the frames. -/
def writeFrame (staged : Staged) (frame : ℕ) : Except ObjectStatus Staged := do
  let plain ← demand (readPlain env info frame) .ioError
  let framed := ChunkCodec.encodeFrame D plain
  let record ← writeRecord C env key info frame framed
  pure
    { file := staged.file ++ record
      fileOffset := staged.fileOffset + record.length
      entries := staged.entries ++
        [⟨staged.fileOffset, record.length, frameLength info frame, framed.headD 0⟩] }

/-- The file up to the synchronisation, and the length recorded for it. -/
def writeFile : Except ObjectStatus (Bytes × ℕ) := do
  require env.preambleWritten .ioError
  let header := buildHeader info
  let headerRecord ← writeRecord C env key info headerIndex header
  let staged ← (List.range info.frameCount).foldlM (writeFrame D C env key info)
    { file := buildPreamble info ++ headerRecord
      fileOffset := objectPreambleSize + headerRecordSize
      entries := [] }
  let table := buildTable info.frameCount staged.entries
  let tableRecord ← writeRecord C env key info tableIndex table
  let footer := buildFooter info staged.fileOffset tableRecord.length
    (staged.fileOffset + tableRecord.length + footerRecordSize) (tableDigest C key header table)
  let footerRecord ← writeRecord C env key info footerIndex footer
  pure (staged.file ++ tableRecord ++ footerRecord,
    staged.fileOffset + tableRecord.length + footerRecord.length)

end Write

/-- `VaultRoot::publish`, which replaces nothing. -/
def publish (publication : Publication) (id : NodeId) (file : ObjectFile) (objects : Objects) :
    Except ObjectStatus Unit × Objects :=
  if publication = .refused ∨ (objects id).isSome then (.error .ioError, objects)
  else
    (require (publication = .done) .ioError,
      fun id' ↦ if id' = id then some file else objects id')

/-- `write_object_stream` up to the publication: the file and what is recorded about it. -/
def stageObjectFile (D : Deflate) (C : ObjectCrypto) (env : WriteEnv) (masterKey : Block 32)
    (request : ObjectWriteRequest) (plaintextLength : ℕ) :
    Except ObjectStatus (ObjectInfo × ObjectFile) := do
  require (validWriteRequest request) .invalidArgument
  let frameCount ← demand (objectFrameCount plaintextLength request.framePlainLimit) .invalidArgument
  let id ← demand env.randomId .ioError
  require (id ≠ .zero) .ioError
  require env.staging .ioError
  let info : ObjectInfo :=
    { objectId := id
      vaultId := request.vaultId
      ownerNodeId := request.ownerNodeId
      role := request.role
      mediaFormat := request.mediaFormat
      plaintextLength
      encryptedLength := 0
      framePlainLimit := request.framePlainLimit
      frameCount }
  let key := C.deriveObjectKey masterKey request.vaultId id
  let (bytes, encryptedLength) ← writeFile D C env key info
  require env.synced .ioError
  -- No file grows beyond what an offset can address.
  if h : bytes.length < 2 ^ 63 then
    pure ({ info with encryptedLength }, ⟨bytes, h⟩)
  else .error .ioError

def writeObjectStream (D : Deflate) (C : ObjectCrypto) (env : WriteEnv) (masterKey : Block 32)
    (request : ObjectWriteRequest) (plaintextLength : ℕ) (objects : Objects) :
    Except ObjectStatus ObjectInfo × Objects :=
  match stageObjectFile D C env masterKey request plaintextLength with
  | .error status => (.error status, objects)
  | .ok (info, file) =>
    ((publish env.publication info.objectId file objects).1.map fun _ ↦ info,
      (publish env.publication info.objectId file objects).2)

/-- Reading from a buffer. -/
def readSpan (plaintext : Bytes) (offset length : ℕ) : Option (Block length) :=
  if h : offset + length ≤ plaintext.length then
    some ⟨Layout.slice offset length plaintext, Layout.length_slice h⟩
  else none

def writeObject (D : Deflate) (C : ObjectCrypto) (env : WriteEnv) (masterKey : Block 32)
    (request : ObjectWriteRequest) (plaintext : Bytes) (objects : Objects) :
    Except ObjectStatus ObjectInfo × Objects :=
  writeObjectStream D C { env with read := readSpan plaintext } masterKey request plaintext.length
    objects

/-! ## Opening -/

def validExpectedInfo (expected : ObjectInfo) : Bool :=
  expected.objectId ≠ .zero && expected.vaultId ≠ .zero && expected.ownerNodeId ≠ .zero &&
    expected.framePlainLimit ≠ 0 && expected.framePlainLimit ≤ objectMaxFramePlain &&
    expected.frameCount ≤ objectMaxFrames

def acceptsPreamble (expected : ObjectInfo) (preamble : Bytes) : Bool :=
  Layout.slice 0 8 preamble == objectMagic && getAt preamble 8 2 == objectFormatVersion &&
    getAt preamble 10 2 == 64 && getAt preamble 12 4 == 0 &&
    Layout.slice 16 16 preamble == expected.vaultId.bytes &&
    Layout.slice 32 16 preamble == expected.objectId.bytes &&
    getAt preamble 48 4 == expected.framePlainLimit &&
    (Layout.slice 52 12 preamble).all (· == 0)

def acceptsHeader (expected : ObjectInfo) (header : Bytes) : Bool :=
  byteAt header 0 == 0 && byteAt header 1 == expected.role.toByte &&
    byteAt header 2 == expected.mediaFormat && byteAt header 3 == 0 &&
    Layout.slice 4 16 header == expected.ownerNodeId.bytes &&
    getAt header 20 8 == expected.plaintextLength && getAt header 28 4 == expected.framePlainLimit &&
    getAt header 32 4 == expected.frameCount && (Layout.slice 36 28 header).all (· == 0)

def acceptsFooter (expected : ObjectInfo) (size : ℕ) (footer : Bytes) : Bool :=
  byteAt footer 0 == 2 && byteAt footer 1 == expected.role.toByte && getAt footer 2 2 == 1 &&
    getAt footer 4 4 == expected.frameCount && getAt footer 24 8 == size &&
    64 + headerRecordSize ≤ getAt footer 8 8 &&
    getAt footer 16 8 == recordOverhead + 8 + expected.frameCount * entrySize &&
    getAt footer 8 8 ≤ size - footerRecordSize &&
    getAt footer 16 8 == size - footerRecordSize - getAt footer 8 8

def acceptsTable (expected : ObjectInfo) (table : Bytes) : Bool :=
  table.length == 8 + expected.frameCount * entrySize && getAt table 0 2 == 1 &&
    getAt table 2 2 == entrySize && getAt table 4 4 == expected.frameCount

/-- The entry in a row. -/
def Entry.ofRow (row : Bytes) : Entry where
  offset := getAt row 0 8
  length := getAt row 8 8
  plainLength := getAt row 16 4
  compression := byteAt row 20

/-- The entries accepted so far, where the last of them ends, and how much they hold. -/
structure Directory where
  priorEnd : ℕ := 64 + headerRecordSize
  plainSum : ℕ := 0
  entries : List Entry := []

/-- One round of the loop over the rows. -/
def acceptRow (framePlainLimit tableOffset : ℕ) (directory : Directory) (row : Bytes) :
    Except ObjectStatus Directory :=
  let entry := Entry.ofRow row
  if entry.offset ≠ directory.priorEnd ∨ entry.length < recordOverhead + 1 ∨
      framePlainLimit + recordOverhead + ChunkCodec.deflateHdr + 64 < entry.length ∨
      framePlainLimit < entry.plainLength ∨ 1 < entry.compression ∨
      ¬ (Layout.slice 21 3 row).all (· == 0) ∨ sub64 tableOffset entry.offset < entry.length then
    .error .corrupt
  else
    .ok
      { priorEnd := add64 entry.offset entry.length
        plainSum := add64 directory.plainSum entry.plainLength
        entries := directory.entries ++ [entry] }

structure ObjectReader where
  file : ObjectFile
  key : Block 32
  info : ObjectInfo
  entries : List Entry

/-- The entries of a table. -/
def readDirectory (expected : ObjectInfo) (tableOffset : ℕ) (table : Bytes) :
    Except ObjectStatus (List Entry) := do
  let directory ← (List.range expected.frameCount).foldlM
    (fun directory i ↦ acceptRow expected.framePlainLimit tableOffset directory
      (Layout.slice (8 + i * entrySize) entrySize table)) {}
  require (directory.priorEnd == tableOffset && directory.plainSum == expected.plaintextLength)
    .corrupt
  pure directory.entries

/-- `ObjectReader::open`. -/
def openObject (C : ObjectCrypto) (objects : Objects) (masterKey : Block 32) (expected : ObjectInfo) :
    Except ObjectStatus ObjectReader := do
  require (validExpectedInfo expected) .invalidArgument
  let file ← demand (objects expected.objectId) .ioError
  require (objectPreambleSize + headerRecordSize + footerRecordSize ≤ file.size &&
    (expected.encryptedLength == 0 || file.size == expected.encryptedLength)) .corrupt
  let preamble ← demand (file.readAt 0 objectPreambleSize) .ioError
  require (acceptsPreamble expected preamble) .corrupt
  let key := C.deriveObjectKey masterKey expected.vaultId expected.objectId
  let header ← decryptRecord C key expected file headerIndex 64 headerRecordSize
  require (acceptsHeader expected header) .corrupt
  let footer ← decryptRecord C key expected file footerIndex (file.size - footerRecordSize)
    footerRecordSize
  require (acceptsFooter expected file.size footer) .corrupt
  let tableOffset := getAt footer 8 8
  let table ← decryptRecord C key expected file tableIndex tableOffset (getAt footer 16 8)
  require (acceptsTable expected table) .corrupt
  require ((tableDigest C key header table).bytes == Layout.slice 32 32 footer) .corrupt
  let entries ← readDirectory expected tableOffset table
  pure ⟨file, key, expected, entries⟩

/-! ## Reading -/

section Read

variable (D : Deflate) (C : ObjectCrypto) (reader : ObjectReader)

def readFrame (index : ℕ) : Except ObjectStatus Bytes := do
  let entry ← demand reader.entries[index]? .invalidArgument
  let framed ← decryptRecord C reader.key reader.info reader.file index entry.offset entry.length
  require (framed.head? == some entry.compression) .corrupt
  let out ← demand (ChunkCodec.decodeFrame D framed) .corrupt
  require (out.length == entry.plainLength) .corrupt
  pure out

/-- The loop of `read_range`, from a frame on. -/
def readRangeFrom (offset length : ℕ) : List Entry → ℕ → ℕ → Bytes → Except ObjectStatus Bytes
  | [], _, _, out => .ok out
  | e :: entries, index, frameStart, out =>
    if length ≤ out.length then .ok out
    else
      let frameEnd := add64 frameStart e.plainLength
      let wantedEnd := add64 offset length
      if offset < frameEnd ∧ frameStart < wantedEnd then do
        let frame ← readFrame D C reader index
        let first := max offset frameStart - frameStart
        let last := min wantedEnd frameEnd - frameStart
        readRangeFrom offset length entries (index + 1) frameEnd
          (out ++ Layout.slice first (last - first) frame)
      else readRangeFrom offset length entries (index + 1) frameEnd out

def readRange (offset length : ℕ) : Except ObjectStatus Bytes := do
  require (offset ≤ reader.info.plaintextLength && length ≤ reader.info.plaintextLength - offset)
    .invalidArgument
  let out ← readRangeFrom D C reader offset length reader.entries 0 0 []
  require (out.length == length) .corrupt
  pure out

def readAll : Except ObjectStatus Bytes := readRange D C reader 0 reader.info.plaintextLength

end Read

end V3

end SafeVault
