import SafeVault.Index.Node
import SafeVault.Lib.Layout
import SafeVault.Lib.LittleEndian

/-!
# The header of a single-file vault

The first 4096 bytes of a vault file, the only ones that are not encrypted. They hold what is needed
to derive the key, two slots that can point at an index blob, and which of the two is active. The
header is written as a whole, so a commit that prepares the other slot first and then switches is
atomic.

A header that was written is read back the same; the mode of a slot is stored only when the header
says so, and is that of the whole header otherwise.
-/

namespace SafeVault

/-- Some number of bytes. -/
@[ext] structure Block (n : ℕ) where
  bytes : Bytes
  size : bytes.length = n
  deriving DecidableEq

namespace Block

def zero (n : ℕ) : Block n := ⟨List.replicate n 0, List.length_replicate⟩

/-- A cut of a long enough buffer as a block. -/
def ofSlice (n : ℕ) (bytes : Bytes) : Block n :=
  if h : bytes.length = n then ⟨bytes, h⟩ else zero n

@[simp] theorem ofSlice_bytes {n : ℕ} (b : Block n) : ofSlice n b.bytes = b := by
  rw [ofSlice, dif_pos b.size]

end Block

/-! ## Constants -/

def headerSize : ℕ := 4096

def formatVersion : ℕ := 1

/-- `OSVAULT` and a zero byte. -/
def headerMagic : Bytes := [79, 83, 86, 65, 85, 76, 84, 0]

/-- Set when blobs are framed by the chunk codec. -/
def flagFramedChunks : ℕ := 0

/-- Set when blobs are bound to the identity of the vault. -/
def flagContextBoundChunks : ℕ := 2

/-- Set when the header stores the mode of each slot. -/
def flagIndexSlotModes : ℕ := 3

def maxKdfTCost : ℕ := 10

def maxKdfMCostKib : ℕ := 256 * 1024

def maxKdfParallelism : ℕ := 16

/-! ## The record -/

/-- The place of an index blob, with the nonce it was sealed with and its mode. -/
structure IndexSlot where
  offset : ℕ := 0
  length : ℕ := 0
  nonce : Block 24 := .zero 24
  contextBound : Bool := false
  deriving DecidableEq

/-- The parameters of the key derivation. -/
structure KdfParams where
  tCost : ℕ := 3
  mCostKib : ℕ := 65536
  parallelism : ℕ := 1
  deriving DecidableEq

structure Header where
  version : ℕ := formatVersion
  headerSizeField : ℕ := headerSize
  flags : ℕ := 0
  kdfAlgo : UInt8 := 0
  kdf : KdfParams := {}
  salt : Block 16 := .zero 16
  keyfileRequired : UInt8 := 0
  vaultId : Block 16 := .zero 16
  mkNonce : Block 24 := .zero 24
  wrappedMasterKey : Block 32 := .zero 32
  mkTag : Block 16 := .zero 16
  slotA : IndexSlot := {}
  slotB : IndexSlot := {}
  /-- Whether slot B is the active one. -/
  activeSlot : Bool := false
  deriving DecidableEq

namespace Header

def framedChunks (h : Header) : Bool := h.flags.testBit flagFramedChunks

def contextBoundChunks (h : Header) : Bool := h.flags.testBit flagContextBoundChunks

def hasIndexSlotModes (h : Header) : Bool := h.flags.testBit flagIndexSlotModes

/-- One of the two slots. -/
def slot (h : Header) (i : Bool) : IndexSlot := if i then h.slotB else h.slotA

def setSlot (h : Header) (i : Bool) (s : IndexSlot) : Header :=
  if i then { h with slotB := s } else { h with slotA := s }

/-- Make a slot the active one. -/
def activate (h : Header) (i : Bool) : Header := { h with activeSlot := i }

/-- The mode in which the blob of a slot is first tried. -/
def indexSlotContextBound (h : Header) (i : Bool) : Bool :=
  if h.hasIndexSlotModes then (h.slot i).contextBound else h.contextBoundChunks

/-! ## Writing -/

/-- A flag byte. -/
def modeByte (b : Bool) : UInt8 := if b then 1 else 0

/-- The fields in the order of their offsets. -/
def fields (h : Header) : List Layout.Field :=
  [(0, headerMagic),
    (8, LittleEndian.encode 2 h.version),
    (10, LittleEndian.encode 2 headerSize),
    (12, LittleEndian.encode 4 h.flags),
    (16, [h.kdfAlgo]),
    (17, LittleEndian.encode 4 h.kdf.tCost),
    (21, LittleEndian.encode 4 h.kdf.mCostKib),
    (25, LittleEndian.encode 4 h.kdf.parallelism),
    (29, h.salt.bytes),
    (45, [h.keyfileRequired]),
    (46, h.mkNonce.bytes),
    (70, h.wrappedMasterKey.bytes),
    (102, h.mkTag.bytes),
    (118, LittleEndian.encode 8 h.slotA.offset),
    (126, LittleEndian.encode 8 h.slotA.length),
    (134, h.slotA.nonce.bytes),
    -- Eight reserved bytes follow.
    (166, LittleEndian.encode 8 h.slotB.offset),
    (174, LittleEndian.encode 8 h.slotB.length),
    (182, h.slotB.nonce.bytes),
    (206, [modeByte h.activeSlot]),
    (208, h.vaultId.bytes)] ++
  if h.hasIndexSlotModes then
    [(224, [modeByte h.slotA.contextBound]), (225, [modeByte h.slotB.contextBound])]
  else []

/-- `Header::serialize`. -/
def serialize (h : Header) : Bytes := Layout.fill h.fields (List.replicate headerSize 0)

/-! ## Reading -/

/-- The window of accepted parameters; a header outside it could exhaust memory. -/
def kdfParamsSane (algo : UInt8) (p : KdfParams) : Bool :=
  algo == 0 && 1 ≤ p.tCost && p.tCost ≤ maxKdfTCost && 1 ≤ p.parallelism &&
    p.parallelism ≤ maxKdfParallelism && 8 * p.parallelism ≤ p.mCostKib &&
    p.mCostKib ≤ maxKdfMCostKib

section Parse

variable (raw : Bytes)

/-- A little-endian integer at an offset. -/
def getAt (offset width : ℕ) : ℕ := LittleEndian.decode (Layout.slice offset width raw)

/-- A byte at an offset. -/
def byteAt (offset : ℕ) : UInt8 := (Layout.slice offset 1 raw).headD 0

def blockAt (n offset : ℕ) : Block n := .ofSlice n (Layout.slice offset n raw)

/-- A slot at an offset, without its mode. -/
def slotAt (offset : ℕ) : IndexSlot where
  offset := getAt raw offset 8
  length := getAt raw (offset + 8) 8
  nonce := blockAt raw 24 (offset + 16)

/-- The fields as they stand, before the modes of the slots are known. -/
def parseFields : Header where
  version := getAt raw 8 2
  headerSizeField := getAt raw 10 2
  flags := getAt raw 12 4
  kdfAlgo := byteAt raw 16
  kdf := ⟨getAt raw 17 4, getAt raw 21 4, getAt raw 25 4⟩
  salt := blockAt raw 16 29
  keyfileRequired := byteAt raw 45
  mkNonce := blockAt raw 24 46
  wrappedMasterKey := blockAt raw 32 70
  mkTag := blockAt raw 16 102
  slotA := slotAt raw 118
  slotB := slotAt raw 166
  activeSlot := byteAt raw 206 == 1
  vaultId := blockAt raw 16 208

/-- Set the modes of both slots. -/
def withModes (h : Header) (a b : Bool) : Header :=
  { h with slotA := { h.slotA with contextBound := a }, slotB := { h.slotB with contextBound := b } }

/-- `Header::parse`. -/
def parse : Option Header :=
  let h := parseFields raw
  if raw.length < headerSize then none
  else if Layout.slice 0 headerMagic.length raw ≠ headerMagic then none
  else if h.version ≠ formatVersion then none
  else if !kdfParamsSane h.kdfAlgo h.kdf then none
  else if 1 < byteAt raw 206 then none
  else if h.hasIndexSlotModes then
    if 1 < byteAt raw 224 || 1 < byteAt raw 225 then none
    else some (withModes h (byteAt raw 224 != 0) (byteAt raw 225 != 0))
  else some (withModes h h.contextBoundChunks h.contextBoundChunks)

end Parse

/-! ## Reading what was written -/

/-- The header fits its fields and would be accepted. -/
structure Valid (h : Header) : Prop where
  version : h.version = formatVersion
  size : h.headerSizeField = headerSize
  flags : h.flags < 2 ^ 32
  sane : kdfParamsSane h.kdfAlgo h.kdf = true
  slots : ∀ i, (h.slot i).offset < 2 ^ 64 ∧ (h.slot i).length < 2 ^ 64
  modes : h.hasIndexSlotModes = false → ∀ i, (h.slot i).contextBound = h.contextBoundChunks

section Fill

variable {fields : List Layout.Field} {size offset : ℕ}

/-- An integer is read back from a buffer of fields. -/
theorem getAt_fill (h : Layout.Fits fields size) {width v : ℕ}
    (hf : (offset, LittleEndian.encode width v) ∈ fields) (hv : v < 256 ^ width) :
    getAt (Layout.fill fields (List.replicate size 0)) offset width = v := by
  have hslice := h.slice_fill hf
  rw [LittleEndian.length_encode] at hslice
  rw [getAt, hslice, LittleEndian.decode_encode, Nat.mod_eq_of_lt hv]

theorem byteAt_fill (h : Layout.Fits fields size) {b : UInt8} (hf : (offset, [b]) ∈ fields) :
    byteAt (Layout.fill fields (List.replicate size 0)) offset = b := by
  have hslice := h.slice_fill hf
  rw [List.length_singleton] at hslice
  rw [byteAt, hslice, List.headD_cons]

end Fill

theorem length_fields_le (h : Header) : ∀ f ∈ h.fields, f.1 + f.2.length ≤ headerSize := by
  have hsizes := (⟨h.salt.size, h.mkNonce.size, h.wrappedMasterKey.size, h.mkTag.size,
    h.slotA.nonce.size, h.slotB.nonce.size, h.vaultId.size⟩ : _ ∧ _ ∧ _ ∧ _ ∧ _ ∧ _ ∧ _)
  rw [fields]
  split_ifs <;> simp [hsizes, headerMagic, headerSize]

theorem pairwise_fields (h : Header) : h.fields.Pairwise Layout.Before := by
  rw [← List.isChain_iff_pairwise, fields]
  have hsizes := (⟨h.salt.size, h.mkNonce.size, h.wrappedMasterKey.size, h.mkTag.size,
    h.slotA.nonce.size, h.slotB.nonce.size, h.vaultId.size⟩ : _ ∧ _ ∧ _ ∧ _ ∧ _ ∧ _ ∧ _)
  split_ifs <;> simp [Layout.Before, hsizes, headerMagic]

theorem fits_fields (h : Header) : Layout.Fits h.fields headerSize :=
  ⟨h.length_fields_le, h.pairwise_fields⟩

/-- A field of the header is found at its offset. -/
theorem slice_serialize {h : Header} {offset : ℕ} {bytes : Bytes}
    (hf : (offset, bytes) ∈ h.fields) :
    Layout.slice offset bytes.length h.serialize = bytes :=
  h.fits_fields.slice_fill hf

section Serialized

variable {h : Header} {offset : ℕ}

theorem length_serialize (h : Header) : h.serialize.length = headerSize :=
  h.fits_fields.length_fill

theorem getAt_serialize {width v : ℕ} (hf : (offset, LittleEndian.encode width v) ∈ h.fields)
    (hv : v < 256 ^ width) : getAt h.serialize offset width = v :=
  getAt_fill h.fits_fields hf hv

theorem byteAt_serialize {b : UInt8} (hf : (offset, [b]) ∈ h.fields) :
    byteAt h.serialize offset = b :=
  byteAt_fill h.fits_fields hf

theorem blockAt_serialize {n : ℕ} {b : Block n} (hf : (offset, b.bytes) ∈ h.fields) :
    blockAt h.serialize n offset = b := by
  have hslice := slice_serialize hf
  rw [b.size] at hslice
  rw [blockAt, hslice, Block.ofSlice_bytes]

theorem slotAt_serialize {s : IndexSlot}
    (hoffset : (offset, LittleEndian.encode 8 s.offset) ∈ h.fields)
    (hlength : (offset + 8, LittleEndian.encode 8 s.length) ∈ h.fields)
    (hnonce : (offset + 16, s.nonce.bytes) ∈ h.fields) (hs : s.offset < 2 ^ 64 ∧ s.length < 2 ^ 64) :
    slotAt h.serialize offset = { s with contextBound := false } := by
  rw [slotAt, getAt_serialize hoffset hs.1, getAt_serialize hlength hs.2, blockAt_serialize hnonce]

/-- Before the modes are set, everything else has been read back. -/
theorem parseFields_serialize (hv : h.Valid) :
    parseFields h.serialize = withModes h false false := by
  have hsane := hv.sane
  simp only [kdfParamsSane, Bool.and_eq_true, decide_eq_true_eq, beq_iff_eq] at hsane
  simp only [maxKdfTCost, maxKdfParallelism, maxKdfMCostKib] at hsane
  have hversion : getAt h.serialize 8 2 = h.version :=
    getAt_serialize (List.mem_append_left _ (by simp)) (by rw [hv.version]; decide)
  have hsize : getAt h.serialize 10 2 = headerSize :=
    getAt_serialize (List.mem_append_left _ (by simp)) (by decide)
  have hflags : getAt h.serialize 12 4 = h.flags :=
    getAt_serialize (List.mem_append_left _ (by simp)) hv.flags
  have hcost : getAt h.serialize 17 4 = h.kdf.tCost :=
    getAt_serialize (List.mem_append_left _ (by simp)) (by omega)
  have hmem : getAt h.serialize 21 4 = h.kdf.mCostKib :=
    getAt_serialize (List.mem_append_left _ (by simp)) (by omega)
  have hlanes : getAt h.serialize 25 4 = h.kdf.parallelism :=
    getAt_serialize (List.mem_append_left _ (by simp)) (by omega)
  have halgo : byteAt h.serialize 16 = h.kdfAlgo :=
    byteAt_serialize (List.mem_append_left _ (by simp))
  have hkeyfile : byteAt h.serialize 45 = h.keyfileRequired :=
    byteAt_serialize (List.mem_append_left _ (by simp))
  have hactive : byteAt h.serialize 206 = modeByte h.activeSlot :=
    byteAt_serialize (List.mem_append_left _ (by simp))
  have hsalt : blockAt h.serialize 16 29 = h.salt :=
    blockAt_serialize (List.mem_append_left _ (by simp))
  have hnonce : blockAt h.serialize 24 46 = h.mkNonce :=
    blockAt_serialize (List.mem_append_left _ (by simp))
  have hkey : blockAt h.serialize 32 70 = h.wrappedMasterKey :=
    blockAt_serialize (List.mem_append_left _ (by simp))
  have htag : blockAt h.serialize 16 102 = h.mkTag :=
    blockAt_serialize (List.mem_append_left _ (by simp))
  have hvault : blockAt h.serialize 16 208 = h.vaultId :=
    blockAt_serialize (List.mem_append_left _ (by simp))
  have hslotA : slotAt h.serialize 118 = { h.slotA with contextBound := false } :=
    slotAt_serialize (List.mem_append_left _ (by simp)) (List.mem_append_left _ (by simp))
      (List.mem_append_left _ (by simp)) (hv.slots false)
  have hslotB : slotAt h.serialize 166 = { h.slotB with contextBound := false } :=
    slotAt_serialize (List.mem_append_left _ (by simp)) (List.mem_append_left _ (by simp))
      (List.mem_append_left _ (by simp)) (hv.slots true)
  have hbyte : (modeByte h.activeSlot == 1) = h.activeSlot := by
    cases h.activeSlot <;> rfl
  rw [parseFields, hversion, hsize, hflags, hcost, hmem, hlanes, halgo, hkeyfile, hactive, hsalt,
    hnonce, hkey, htag, hvault, hslotA, hslotB, hbyte, withModes, ← hv.size]

/-- **Round trip.** A valid header is read back as it was written. -/
theorem parse_serialize (hv : h.Valid) : parse h.serialize = some h := by
  have hmagic : Layout.slice 0 headerMagic.length h.serialize = headerMagic :=
    slice_serialize (List.mem_append_left _ (by simp))
  have hactive : ¬1 < byteAt h.serialize 206 := by
    have hbyte : byteAt h.serialize 206 = modeByte h.activeSlot :=
      byteAt_serialize (List.mem_append_left _ (by simp))
    rw [hbyte]
    cases h.activeSlot <;> decide
  have hlen : ¬h.serialize.length < headerSize := by
    rw [length_serialize]
    exact lt_irrefl _
  have hsane : ¬(!kdfParamsSane (withModes h false false).kdfAlgo (withModes h false false).kdf) =
      true := by
    change ¬(!kdfParamsSane h.kdfAlgo h.kdf) = true
    rw [hv.sane]
    decide
  have hversion : ¬(withModes h false false).version ≠ formatVersion := not_not.mpr hv.version
  rw [parse, parseFields_serialize hv]
  rw [if_neg hlen, if_neg (not_not.mpr hmagic), if_neg hversion, if_neg hsane, if_neg hactive]
  by_cases hmodes : h.hasIndexSlotModes = true
  · have hmem : ∀ f ∈ [((224 : ℕ), [modeByte h.slotA.contextBound]),
        (225, [modeByte h.slotB.contextBound])], f ∈ h.fields := by
      intro f hf
      rw [fields, if_pos hmodes]
      exact List.mem_append_right _ hf
    have hA : byteAt h.serialize 224 = modeByte h.slotA.contextBound :=
      byteAt_serialize (hmem _ (by simp))
    have hB : byteAt h.serialize 225 = modeByte h.slotB.contextBound :=
      byteAt_serialize (hmem _ (by simp))
    have hbyte (b : Bool) : (modeByte b != 0) = b := by cases b <;> rfl
    have hsmall (b : Bool) : ¬1 < modeByte b := by cases b <;> decide
    rw [if_pos (by exact hmodes), hA, hB, if_neg (by simp [hsmall]), hbyte, hbyte]
    rfl
  · -- Without stored modes both slots have the mode of the header.
    rw [Bool.not_eq_true] at hmodes
    have hA : h.slotA.contextBound = h.contextBoundChunks := hv.modes hmodes false
    have hB : h.slotB.contextBound = h.contextBoundChunks := hv.modes hmodes true
    have hfalse : ¬(withModes h false false).hasIndexSlotModes = true := by
      change ¬h.hasIndexSlotModes = true
      rw [hmodes]
      decide
    rw [if_neg hfalse, Option.some_inj]
    change withModes h h.contextBoundChunks h.contextBoundChunks = h
    conv_lhs => rw [withModes]
    nth_rewrite 1 [← hA]
    rw [← hB]

end Serialized

attribute [irreducible] serialize

end Header

end SafeVault
