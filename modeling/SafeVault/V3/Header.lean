import SafeVault.Crypto.Kdf

/-!
# The header of a directory vault

256 bytes that are not encrypted: the parameters of the key derivation, the salt, the master key
wrapped under the derived key, and the identity of the vault. Every byte is accounted for. What is not
a field has to be zero, so an accepted header is written back byte by byte.

The parser checks the parameters of the key derivation on its own and asks for eight blocks of memory,
where the key derivation asks for eight blocks for each lane.

A header opens for the credentials it was made with and for no others, since no two pairs of
credentials lead to the same key.
-/

namespace SafeVault

namespace V3

open Header (getAt byteAt blockAt)

/-! ## Constants -/

def v3HeaderSize : ℕ := 256

def v3FormatVersion : ℕ := 3

/-- `OSV3DIR` and a zero byte. -/
def v3HeaderMagic : Bytes := [79, 83, 86, 51, 68, 73, 82, 0]

inductive HeaderStatus where
  | invalid | unsupportedVersion | authenticationFailed | cryptoError
  deriving DecidableEq

/-- A value, or a status if there is none. -/
def given {α : Type} (status : HeaderStatus) : Option α → Except HeaderStatus α
  | some a => .ok a
  | none => .error status

theorem given_eq_ok_iff {α : Type} {status : HeaderStatus} {a : Option α} {b : α} :
    given status a = .ok b ↔ a = some b := by
  rcases a with _ | a
  · exact iff_of_false (by exact nofun) (by exact nofun)
  · rw [given, Except.ok.injEq, Option.some_inj]

theorem given_bind_eq_ok_iff {α β : Type} {status : HeaderStatus} {a : Option α}
    {f : α → Except HeaderStatus β} {b : β} :
    given status a >>= f = .ok b ↔ ∃ x, a = some x ∧ f x = .ok b := by
  rcases a with _ | a
  · exact iff_of_false (by exact nofun) (by exact nofun)
  · simp only [Option.some.injEq, exists_eq_left']
    rfl

/-! ## The record -/

@[ext] structure V3Header where
  flags : ℕ := 0
  kdf : KdfParams
  salt : Block 16
  keyfileRequired : Bool
  nonce : Block 24
  wrappedMasterKey : Block 32
  tag : Block 16
  vaultId : Block 16
  deriving DecidableEq

namespace V3Header

variable {h : V3Header} {raw : Block v3HeaderSize}

/-- The fields in the order of their offsets. Zeros follow. -/
def fields (h : V3Header) : List Layout.Field :=
  [(0, v3HeaderMagic),
    (8, LittleEndian.encode 2 v3FormatVersion),
    (10, LittleEndian.encode 2 v3HeaderSize),
    (12, LittleEndian.encode 4 h.flags),
    -- Argon2id
    (16, [0]),
    (17, LittleEndian.encode 4 h.kdf.tCost),
    (21, LittleEndian.encode 4 h.kdf.mCostKib),
    (25, LittleEndian.encode 4 h.kdf.parallelism),
    (29, h.salt.bytes),
    (45, [Header.modeByte h.keyfileRequired]),
    (46, h.nonce.bytes),
    (70, h.wrappedMasterKey.bytes),
    (102, h.tag.bytes),
    (118, h.vaultId.bytes)]

theorem fits_fields (h : V3Header) : Layout.Fits h.fields v3HeaderSize where
  fit := by
    simp [fields, v3HeaderMagic, v3HeaderSize, h.salt.size, h.nonce.size, h.wrappedMasterKey.size,
      h.tag.size, h.vaultId.size]
  sorted := by
    rw [← List.isChain_iff_pairwise]
    simp [fields, Layout.Before, v3HeaderMagic, h.salt.size, h.nonce.size, h.wrappedMasterKey.size,
      h.tag.size]

/-- `serialize_v3_header`. -/
def serialize (h : V3Header) : Block v3HeaderSize :=
  ⟨Layout.fill h.fields (List.replicate v3HeaderSize 0), h.fits_fields.length_fill⟩

/-- The window of accepted parameters. -/
def acceptsKdf (p : KdfParams) : Bool :=
  !(p.tCost == 0 || maxKdfTCost < p.tCost || p.mCostKib < 8 || maxKdfMCostKib < p.mCostKib ||
    p.parallelism == 0 || maxKdfParallelism < p.parallelism)

/-- The fields as they stand. -/
def parseFields (raw : Bytes) : V3Header where
  flags := getAt raw 12 4
  kdf := ⟨getAt raw 17 4, getAt raw 21 4, getAt raw 25 4⟩
  salt := blockAt raw 16 29
  keyfileRequired := byteAt raw 45 != 0
  nonce := blockAt raw 24 46
  wrappedMasterKey := blockAt raw 32 70
  tag := blockAt raw 16 102
  vaultId := blockAt raw 16 118

/-- `parse_v3_header`. -/
def parse (raw : Block v3HeaderSize) : Except HeaderStatus V3Header :=
  let h := parseFields raw.bytes
  if Layout.slice 0 8 raw.bytes ≠ v3HeaderMagic then .error .invalid
  else if getAt raw.bytes 8 2 ≠ v3FormatVersion then .error .unsupportedVersion
  else if getAt raw.bytes 10 2 ≠ v3HeaderSize then .error .invalid
  else if h.flags ≠ 0 then .error .unsupportedVersion
  else if byteAt raw.bytes 16 ≠ 0 ∨ 1 < byteAt raw.bytes 45 then .error .invalid
  else if !acceptsKdf h.kdf then .error .invalid
  else if (raw.bytes.drop 134).any (· != 0) then .error .invalid
  else if h.vaultId = .zero 16 then .error .invalid
  else .ok h

/-! ## The checks -/

/-- What a parsed header has passed. -/
structure Accepted (raw : Block v3HeaderSize) (h : V3Header) : Prop where
  magic : Layout.slice 0 8 raw.bytes = v3HeaderMagic
  version : getAt raw.bytes 8 2 = v3FormatVersion
  size : getAt raw.bytes 10 2 = v3HeaderSize
  flags : h.flags = 0
  algorithm : byteAt raw.bytes 16 = 0
  keyfile : ¬1 < byteAt raw.bytes 45
  kdf : acceptsKdf h.kdf = true
  padding : (raw.bytes.drop 134).any (· != 0) = false
  vaultId : h.vaultId ≠ .zero 16
  read : parseFields raw.bytes = h

theorem parse_eq_ok_iff : parse raw = .ok h ↔ Accepted raw h := by
  constructor
  · intro hparse
    rw [parse] at hparse
    split_ifs at hparse with hmagic hversion hsize hflags hbytes hkdf hpadding hvault
    obtain rfl := Except.ok.inj hparse
    rw [not_or] at hbytes
    exact ⟨not_not.mp hmagic, not_not.mp hversion, not_not.mp hsize, not_not.mp hflags,
      not_not.mp hbytes.1, hbytes.2, by simpa using hkdf, by simpa using hpadding, hvault, rfl⟩
  · rintro ⟨hmagic, hversion, hsize, hflags, halgo, hkeyfile, hkdf, hpadding, hvault, rfl⟩
    rw [parse, if_neg (not_not.mpr hmagic), if_neg (not_not.mpr hversion), if_neg (not_not.mpr hsize),
      if_neg (not_not.mpr hflags), if_neg (not_or.mpr ⟨not_not.mpr halgo, hkeyfile⟩),
      if_neg (by simp [hkdf]), if_neg (by simp [hpadding]), if_neg hvault]

/-! ## Reading what was written -/

/-- The parser accepts what the header says. -/
structure Valid (h : V3Header) : Prop where
  flags : h.flags = 0
  kdf : acceptsKdf h.kdf = true
  vaultId : h.vaultId ≠ .zero 16

theorem Accepted.valid (h' : Accepted raw h) : h.Valid := ⟨h'.flags, h'.kdf, h'.vaultId⟩

theorem acceptsKdf_iff {p : KdfParams} : acceptsKdf p = true ↔
    (1 ≤ p.tCost ∧ p.tCost ≤ maxKdfTCost) ∧ (8 ≤ p.mCostKib ∧ p.mCostKib ≤ maxKdfMCostKib) ∧
      1 ≤ p.parallelism ∧ p.parallelism ≤ maxKdfParallelism := by
  simp only [acceptsKdf, Bool.not_eq_true', Bool.or_eq_false_iff, decide_eq_false_iff_not, not_lt,
    beq_eq_false_iff_ne]
  omega

theorem blockAt_serialize {n offset : ℕ} {b : Block n} (hf : (offset, b.bytes) ∈ h.fields) :
    blockAt h.serialize.bytes n offset = b := by
  have hslice := h.fits_fields.slice_fill hf
  rw [b.size] at hslice
  rw [blockAt, serialize, hslice, Block.ofSlice_bytes]

theorem getAt_serialize {width offset v : ℕ} (hf : (offset, LittleEndian.encode width v) ∈ h.fields)
    (hv : v < 256 ^ width) : getAt h.serialize.bytes offset width = v :=
  Header.getAt_fill h.fits_fields hf hv

theorem byteAt_serialize {offset : ℕ} {b : UInt8} (hf : (offset, [b]) ∈ h.fields) :
    byteAt h.serialize.bytes offset = b := Header.byteAt_fill h.fits_fields hf

theorem parseFields_serialize (hv : h.Valid) : parseFields h.serialize.bytes = h := by
  have hkdf := acceptsKdf_iff.mp hv.kdf
  simp only [maxKdfTCost, maxKdfMCostKib, maxKdfParallelism] at hkdf
  have hflags : getAt h.serialize.bytes 12 4 = h.flags :=
    getAt_serialize (by simp [fields]) (by rw [hv.flags]; decide)
  have htCost : getAt h.serialize.bytes 17 4 = h.kdf.tCost :=
    getAt_serialize (by simp [fields]) (by omega)
  have hmCost : getAt h.serialize.bytes 21 4 = h.kdf.mCostKib :=
    getAt_serialize (by simp [fields]) (by omega)
  have hlanes : getAt h.serialize.bytes 25 4 = h.kdf.parallelism :=
    getAt_serialize (by simp [fields]) (by omega)
  have hsalt : blockAt h.serialize.bytes 16 29 = h.salt := blockAt_serialize (by simp [fields])
  have hkeyfile : byteAt h.serialize.bytes 45 = Header.modeByte h.keyfileRequired :=
    byteAt_serialize (by simp [fields])
  have hnonce : blockAt h.serialize.bytes 24 46 = h.nonce := blockAt_serialize (by simp [fields])
  have hkey : blockAt h.serialize.bytes 32 70 = h.wrappedMasterKey :=
    blockAt_serialize (by simp [fields])
  have htag : blockAt h.serialize.bytes 16 102 = h.tag := blockAt_serialize (by simp [fields])
  have hvault : blockAt h.serialize.bytes 16 118 = h.vaultId := blockAt_serialize (by simp [fields])
  have hbool : (Header.modeByte h.keyfileRequired != 0) = h.keyfileRequired := by
    cases h.keyfileRequired <;> rfl
  rw [parseFields, hflags, htCost, hmCost, hlanes, hsalt, hkeyfile, hnonce, hkey, htag, hvault, hbool]

/-- **Round trip from a header.** -/
theorem parse_serialize (hv : h.Valid) : parse h.serialize = .ok h := by
  have hpadding : Layout.slice 134 122 h.serialize.bytes = List.replicate 122 0 :=
    h.fits_fields.slice_gap (by decide) (by simp [fields, v3HeaderMagic, h.salt.size, h.nonce.size,
      h.wrappedMasterKey.size, h.tag.size, h.vaultId.size])
  rw [Layout.slice_of_le (by rw [h.serialize.size]; decide)] at hpadding
  refine parse_eq_ok_iff.mpr ⟨?_, ?_, ?_, hv.flags, ?_, ?_, hv.kdf, ?_, hv.vaultId,
    parseFields_serialize hv⟩
  · exact h.fits_fields.slice_fill (f := (0, v3HeaderMagic)) (by simp [fields])
  · exact getAt_serialize (by simp [fields]) (by decide)
  · exact getAt_serialize (by simp [fields]) (by decide)
  · exact byteAt_serialize (by simp [fields])
  · rw [byteAt_serialize (b := Header.modeByte h.keyfileRequired) (by simp [fields])]
    cases h.keyfileRequired <;> decide
  · rw [hpadding]
    decide

theorem vaultId_of_parse_serialize {parsed : V3Header} (hparse : parse h.serialize = .ok parsed) :
    parsed.vaultId = h.vaultId := by
  have hvault : blockAt h.serialize.bytes 16 118 = h.vaultId := blockAt_serialize (by simp [fields])
  rw [← (parse_eq_ok_iff.mp hparse).read, parseFields, hvault]

/-- Only a valid header comes back. -/
theorem parse_serialize_iff : parse h.serialize = .ok h ↔ h.Valid :=
  ⟨fun hparse ↦ (parse_eq_ok_iff.mp hparse).valid, parse_serialize⟩

/-! ## Writing what was read -/

theorem encode_getAt (raw : Block v3HeaderSize) (offset width : ℕ) (hin : offset + width ≤ v3HeaderSize) :
    Layout.slice offset (LittleEndian.encode width (getAt raw.bytes offset width)).length raw.bytes =
      LittleEndian.encode width (getAt raw.bytes offset width) := by
  have hlen : (Layout.slice offset width raw.bytes).length = width :=
    Layout.length_slice (by rw [raw.size]; exact hin)
  have hbytes := LittleEndian.encode_decode (Layout.slice offset width raw.bytes)
  rw [hlen] at hbytes
  rw [LittleEndian.length_encode, getAt, hbytes]

theorem bytes_blockAt (raw : Block v3HeaderSize) (n offset : ℕ) (hin : offset + n ≤ v3HeaderSize) :
    Layout.slice offset (blockAt raw.bytes n offset).bytes.length raw.bytes =
      (blockAt raw.bytes n offset).bytes := by
  have hlen : (Layout.slice offset n raw.bytes).length = n :=
    Layout.length_slice (by rw [raw.size]; exact hin)
  rw [(blockAt raw.bytes n offset).size, blockAt, Block.ofSlice, dif_pos hlen]

theorem slice_byteAt (raw : Block v3HeaderSize) (offset : ℕ) (hin : offset < v3HeaderSize) :
    Layout.slice offset 1 raw.bytes = [byteAt raw.bytes offset] := by
  have hlen : (Layout.slice offset 1 raw.bytes).length = 1 :=
    Layout.length_slice (by rw [raw.size]; exact hin)
  obtain ⟨b, hb⟩ := List.length_eq_one_iff.mp hlen
  rw [byteAt, hb, List.headD_cons]

section Accepted

variable (hraw : Accepted raw h)

include hraw

/-- Every field is what stands at its offset. -/
theorem slice_of_mem_fields : ∀ f ∈ h.fields, Layout.slice f.1 f.2.length raw.bytes = f.2 := by
  obtain rfl := hraw.read
  have hkeyfile : Header.modeByte (byteAt raw.bytes 45 != 0) = byteAt raw.bytes 45 := by
    have hle : (byteAt raw.bytes 45).toNat ≤ 1 := by
      have := hraw.keyfile
      rwa [UInt8.lt_iff_toNat_lt, not_lt] at this
    rcases Nat.le_one_iff_eq_zero_or_eq_one.mp hle with hzero | hone
    · rw [show byteAt raw.bytes 45 = 0 from UInt8.toNat_inj.mp hzero]
      rfl
    · rw [show byteAt raw.bytes 45 = 1 from UInt8.toNat_inj.mp hone]
      rfl
  simp only [fields, List.forall_mem_cons, parseFields]
  refine ⟨hraw.magic, ?_, ?_, ?_, ?_, ?_, ?_, ?_, ?_, ?_, ?_, ?_, ?_, ?_,
    fun f hf ↦ absurd hf List.not_mem_nil⟩
  · rw [← hraw.version]
    exact encode_getAt raw 8 2 (by decide)
  · have hsize := encode_getAt raw 10 2 (by decide)
    rwa [hraw.size] at hsize
  · exact encode_getAt raw 12 4 (by decide)
  · rw [← hraw.algorithm]
    exact slice_byteAt raw 16 (by decide)
  · exact encode_getAt raw 17 4 (by decide)
  · exact encode_getAt raw 21 4 (by decide)
  · exact encode_getAt raw 25 4 (by decide)
  · exact bytes_blockAt raw 16 29 (by decide)
  · rw [hkeyfile]
    exact slice_byteAt raw 45 (by decide)
  · exact bytes_blockAt raw 24 46 (by decide)
  · exact bytes_blockAt raw 32 70 (by decide)
  · exact bytes_blockAt raw 16 102 (by decide)
  · exact bytes_blockAt raw 16 118 (by decide)

/-- Between the fields there is nothing, and behind them there are zeros. -/
theorem eq_zero_of_outside {i : ℕ} (hi : i < v3HeaderSize)
    (hout : ∀ f ∈ h.fields, i < f.1 ∨ f.1 + f.2.length ≤ i) : raw.bytes[i]? = some 0 := by
  have hlow : 134 ≤ i := by
    simp only [fields, List.forall_mem_cons, v3HeaderMagic, LittleEndian.length_encode,
      List.length_cons, List.length_nil, h.salt.size, h.nonce.size, h.wrappedMasterKey.size,
      h.tag.size, h.vaultId.size] at hout
    omega
  have hlen : i < raw.bytes.length := by rwa [raw.size]
  have hmem : raw.bytes[i] ∈ raw.bytes.drop 134 := by
    refine List.mem_of_getElem? (i := i - 134) ?_
    rw [List.getElem?_drop, Nat.add_sub_cancel' hlow, List.getElem?_eq_getElem hlen]
  have hzero : (raw.bytes[i] != 0) = false := by
    simpa using List.any_eq_false.mp hraw.padding _ hmem
  rw [List.getElem?_eq_getElem hlen, show raw.bytes[i] = 0 by simpa using hzero]

/-- **Round trip from the bytes.** -/
theorem serialize_of_accepted : h.serialize = raw :=
  Block.ext (h.fits_fields.fill_eq raw.size (slice_of_mem_fields hraw) fun _ hi hout ↦
    eq_zero_of_outside hraw hi hout)

end Accepted

attribute [irreducible] serialize

end V3Header

end V3

end SafeVault
