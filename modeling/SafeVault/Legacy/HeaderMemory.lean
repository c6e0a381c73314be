import SafeVault.Legacy.Password

/-!
# The headers a session has in memory

A header comes from creating a vault or from the head of a file. A session then changes it: a commit
points a slot at a new blob and switches to it, unlocking notes the mode in which a slot could be read,
a change of the password wraps the master key again, and the migration to bound blobs wraps it for
the last time.

Reading back what was written gives the same header exactly when the header is valid. All headers in
memory are in range; what can be missing is that the size field is that of the format, and that a mode
which is not stored is that of the whole header.
-/

namespace SafeVault

/-! ## Making and changing headers -/

namespace Header

/-- What the random source gives, if anything, and whether there is memory to seal. -/
structure Draws where
  salt : Option (Block 16)
  vaultId : Option (Block 16)
  masterKey : Option (Block 32)
  nonce : Option (Block 24)
  seals : Bool

/-- The header that `Vault::create` writes, with the master key in it. -/
def create (C : KeyCrypto) (draws : Draws) (c : Credentials) (params : KdfParams) :
    Option (Header × Block 32) := do
  let salt ← draws.salt
  let vaultId ← draws.vaultId
  let master ← draws.masterKey
  let mkNonce ← draws.nonce
  let kek ← C.deriveKey c salt params
  if !draws.seals then none
  else
    -- Framed, with the newer encoding of the credentials, bound to the vault, with modes.
    let h : Header := { flags := 15, kdf := params, salt, vaultId, mkNonce }
    some (h.withWrap (C.sealTo kek mkNonce (IndexIo.mkWrapAd h) master) c, master)

/-- The master key wrapped under the key of the session and bound to the vault, with modes that keep what
the slots have been sealed with. -/
def bindContext (C : KeyCrypto) (kek master : Block 32) (mkNonce : Block 24) (h : Header) : Header :=
  let ad := IndexIo.buildChunkAd { domain := .mkWrap, owner := h.vaultId }
  let sealed := C.sealTo kek mkNonce ad master
  let slots := if h.hasIndexSlotModes then h else h.withModes false false
  { slots with
    wrappedMasterKey := sealed.1
    mkTag := sealed.2
    mkNonce
    flags := h.flags ||| 2 ^ flagContextBoundChunks ||| 2 ^ flagIndexSlotModes }

/-- The header after `finalize_context_migration`, which may also fail half-way: then an identity may
have been drawn. The key is that of the session, if there is one. -/
def finalizeContext (C : KeyCrypto) (draws : Draws) (kek : Option (Block 32)) (master : Block 32)
    (recoveredLegacyIndex : Bool) (h : Header) : Header :=
  if h.contextBoundChunks then
    if recoveredLegacyIndex then { h with flags := h.flags ||| 2 ^ flagIndexSlotModes } else h
  else
    match kek, if h.vaultId = .zero 16 then draws.vaultId else some h.vaultId with
    | some kek, some vaultId =>
      match draws.nonce, draws.seals with
      | some mkNonce, true => bindContext C kek master mkNonce { h with vaultId }
      | _, _ => { h with vaultId }
    | _, _ => h

/-- The header that a commit writes first: the other slot points at the new blob, and is not yet the
active one. -/
def prepare (h : Header) (offset length : ℕ) (nonce : Block 24) : Header :=
  h.setSlot (!h.activeSlot) ⟨offset, length, nonce, h.contextBoundChunks⟩

/-- The header after a commit. -/
def swap (h : Header) (offset length : ℕ) (nonce : Block 24) : Header :=
  (h.prepare offset length nonce).activate !h.activeSlot

/-- The header after a slot has been read in some mode. -/
def noteMode (h : Header) (i contextBound : Bool) : Header :=
  h.setSlot i { h.slot i with contextBound }

/-- The headers that a session can have in memory. -/
inductive InMemory (C : KeyCrypto) : Header → Prop
  | create {draws : Draws} {c : Credentials} {params : KdfParams} {h : Header} {master : Block 32}
      (h' : create C draws c params = some (h, master)) : InMemory C h
  | parse {raw : Bytes} {h : Header} (h' : parse raw = some h) : InMemory C h
  | prepare {h : Header} {offset length : ℕ} (nonce : Block 24) (hh : InMemory C h)
      (hfit : offset < 2 ^ 64 ∧ length < 2 ^ 64) : InMemory C (h.prepare offset length nonce)
  | swap {h : Header} {offset length : ℕ} (nonce : Block 24) (hh : InMemory C h)
      (hfit : offset < 2 ^ 64 ∧ length < 2 ^ 64) : InMemory C (h.swap offset length nonce)
  | noteMode {h : Header} (i contextBound : Bool) (hh : InMemory C h) :
      InMemory C (h.noteMode i contextBound)
  | changePassword {h : Header} (salt : Block 16) (mkNonce : Block 24) (sealed : Block 32 × Block 16)
      (c : Credentials) (hh : InMemory C h) : InMemory C ((h.freshWrap salt mkNonce).withWrap sealed c)
  | finalizeContext {h : Header} (draws : Draws) (kek : Option (Block 32)) (master : Block 32)
      (recovered : Bool) (hh : InMemory C h) :
      InMemory C (h.finalizeContext C draws kek master recovered)

/-! ## In range -/

/-- What holds of every header in memory. -/
structure InRange (h : Header) : Prop where
  version : h.version = formatVersion
  flags : h.flags < 2 ^ 32
  sane : kdfParamsSane h.kdfAlgo h.kdf = true
  slots : ∀ i, (h.slot i).offset < 2 ^ 64 ∧ (h.slot i).length < 2 ^ 64

/-- A mode that is not stored is that of the whole header. -/
def ModesImplied (h : Header) : Prop :=
  h.hasIndexSlotModes = false → ∀ i, (h.slot i).contextBound = h.contextBoundChunks

variable {C : KeyCrypto} {draws : Draws} {c : Credentials} {h h' : Header} {raw : Bytes}
  {kek : Option (Block 32)} {master : Block 32} {recovered : Bool}

theorem valid_iff : h.Valid ↔ h.InRange ∧ h.headerSizeField = headerSize ∧ h.ModesImplied :=
  ⟨fun hv ↦ ⟨⟨hv.version, hv.flags, hv.sane, hv.slots⟩, hv.size, hv.modes⟩,
    fun ⟨hr, hsize, hmodes⟩ ↦ ⟨hr.version, hsize, hr.flags, hr.sane, hr.slots, hmodes⟩⟩

/-- The parameters of a header are those the key derivation works with. -/
theorem kdfParamsSane_iff {algo : UInt8} {p : KdfParams} :
    kdfParamsSane algo p = true ↔ algo = 0 ∧ Kdf.acceptsParams p = true := by
  rw [Kdf.acceptsParams_iff]
  simp only [kdfParamsSane, Bool.and_eq_true, decide_eq_true_eq, beq_iff_eq]
  tauto

section Parsed

theorem getAt_lt (raw : Bytes) (offset width : ℕ) : getAt raw offset width < 256 ^ width := by
  refine (LittleEndian.decode_lt _).trans_le (Nat.pow_le_pow_right (by decide) ?_)
  exact (List.length_take ..).trans_le (Nat.min_le_left _ _)

theorem slot_withModes (h : Header) (a b i : Bool) :
    (h.withModes a b).slot i = { h.slot i with contextBound := if i then b else a } := by
  cases i <;> rfl

/-- What the parser accepts, and what comes out. -/
theorem parse_eq_some (hparse : parse raw = some h) : ∃ a b, h = (parseFields raw).withModes a b ∧
    (parseFields raw).version = formatVersion ∧
    kdfParamsSane (parseFields raw).kdfAlgo (parseFields raw).kdf = true ∧
    ((parseFields raw).hasIndexSlotModes = false →
      a = (parseFields raw).contextBoundChunks ∧ b = (parseFields raw).contextBoundChunks) := by
  rw [parse] at hparse
  split_ifs at hparse with hlen hmagic hversion hsane hactive hmodes hbytes
  · refine ⟨_, _, (Option.some.inj hparse).symm, not_not.mp hversion, by simpa using hsane, fun hno ↦ ?_⟩
    exact absurd (hmodes.symm.trans hno) (by decide)
  · exact ⟨_, _, (Option.some.inj hparse).symm, not_not.mp hversion, by simpa using hsane, fun _ ↦ ⟨rfl, rfl⟩⟩

theorem inRange_of_parse (hparse : parse raw = some h) : h.InRange := by
  obtain ⟨a, b, rfl, hversion, hsane, -⟩ := parse_eq_some hparse
  refine ⟨hversion, (getAt_lt raw 12 4).trans_eq (by decide), hsane, fun i ↦ ?_⟩
  rw [slot_withModes]
  cases i
  · exact ⟨(getAt_lt raw 118 8).trans_eq (by decide), (getAt_lt raw 126 8).trans_eq (by decide)⟩
  · exact ⟨(getAt_lt raw 166 8).trans_eq (by decide), (getAt_lt raw 174 8).trans_eq (by decide)⟩

theorem modesImplied_of_parse (hparse : parse raw = some h) : h.ModesImplied := by
  obtain ⟨a, b, rfl, -, -, hmodes⟩ := parse_eq_some hparse
  intro hno i
  obtain ⟨rfl, rfl⟩ := hmodes hno
  rw [slot_withModes]
  cases i <;> rfl

theorem headerSizeField_of_parse (hparse : parse raw = some h) : h.headerSizeField = getAt raw 10 2 := by
  obtain ⟨a, b, rfl, -⟩ := parse_eq_some hparse
  rfl

/-- **Exactly the valid headers are read back as they were written.** -/
theorem parse_serialize_iff : parse h.serialize = some h ↔ h.Valid := by
  refine ⟨fun hparse ↦ ?_, parse_serialize⟩
  refine valid_iff.mpr ⟨inRange_of_parse hparse, ?_, modesImplied_of_parse hparse⟩
  rw [headerSizeField_of_parse hparse]
  exact getAt_serialize (List.mem_append_left _ (by simp)) (by decide)

/-- **Every header that was read**, and its bytes. -/
theorem parse_serialize_of_parse (hparse : parse raw = some h) :
    parse h.serialize = some h ↔ getAt raw 10 2 = headerSize := by
  rw [parse_serialize_iff, valid_iff, headerSizeField_of_parse hparse]
  exact ⟨fun hv ↦ hv.2.1, fun hsize ↦ ⟨inRange_of_parse hparse, hsize, modesImplied_of_parse hparse⟩⟩

end Parsed

/-! ## Headers in memory -/

section Memory

theorem valid_of_create {params : KdfParams} (hcreate : create C draws c params = some (h, master)) :
    h.Valid := by
  simp only [create, Option.bind_eq_bind, Option.bind_eq_some_iff] at hcreate
  obtain ⟨salt, -, vaultId, -, key, -, mkNonce, -, kek, hkek, hcreate⟩ := hcreate
  split_ifs at hcreate
  obtain ⟨rfl, rfl⟩ := Prod.mk.inj (Option.some.inj hcreate)
  have hparams := (Kdf.deriveKey_eq_some_iff.mp hkek).1
  exact ⟨rfl, rfl, (by decide : 15 < 2 ^ 32), kdfParamsSane_iff.mpr ⟨rfl, hparams⟩,
    fun i ↦ by cases i <;> exact ⟨Nat.two_pow_pos 64, Nat.two_pow_pos 64⟩,
    fun hno ↦ absurd hno (by exact (by decide : Nat.testBit 15 3 ≠ false))⟩

theorem InRange.setSlot (hr : h.InRange) (i : Bool) {s : IndexSlot}
    (hs : s.offset < 2 ^ 64 ∧ s.length < 2 ^ 64) : (h.setSlot i s).InRange := by
  obtain ⟨a, b, k, hh⟩ := sameVault_setSlot h i s
  refine ⟨?_, ?_, ?_, fun j ↦ ?_⟩
  · rw [hh]
    exact hr.version
  · rw [hh]
    exact hr.flags
  · rw [hh]
    exact hr.sane
  · by_cases hij : j = i
    · rwa [hij, slot_setSlot_self]
    · rw [slot_setSlot_of_ne hij]
      exact hr.slots j

theorem InRange.prepare (hr : h.InRange) {offset length : ℕ} (nonce : Block 24)
    (hfit : offset < 2 ^ 64 ∧ length < 2 ^ 64) : (h.prepare offset length nonce).InRange :=
  hr.setSlot _ hfit

theorem InRange.withModes (hr : h.InRange) (a b : Bool) : (h.withModes a b).InRange where
  version := hr.version
  flags := hr.flags
  sane := hr.sane
  slots i := by
    rw [slot_withModes]
    exact hr.slots i

/-- Setting flags that the format has. -/
theorem InRange.setFlag (hr : h.InRange) {i : ℕ} (hi : i < 32) :
    ({ h with flags := h.flags ||| 2 ^ i } : Header).InRange where
  version := hr.version
  flags := Nat.or_lt_two_pow hr.flags (Nat.pow_lt_pow_right (by decide) hi)
  sane := hr.sane
  slots := hr.slots

theorem InRange.bindContext (hr : h.InRange) (kek master : Block 32) (mkNonce : Block 24) :
    (h.bindContext C kek master mkNonce).InRange := by
  have hflags : (h.flags ||| 2 ^ flagContextBoundChunks ||| 2 ^ flagIndexSlotModes) < 2 ^ 32 :=
    Nat.or_lt_two_pow (Nat.or_lt_two_pow hr.flags (by decide)) (by decide)
  rw [Header.bindContext]
  split_ifs
  · exact ⟨hr.version, hflags, hr.sane, hr.slots⟩
  · exact ⟨hr.version, hflags, hr.sane, (hr.withModes false false).slots⟩

theorem InRange.finalizeContext (hr : h.InRange) (draws : Draws) (kek : Option (Block 32))
    (master : Block 32) (recovered : Bool) : (h.finalizeContext C draws kek master recovered).InRange := by
  have hminted (vaultId : Block 16) : ({ h with vaultId } : Header).InRange :=
    ⟨hr.version, hr.flags, hr.sane, hr.slots⟩
  unfold Header.finalizeContext
  by_cases hbound : h.contextBoundChunks = true
  · rw [if_pos hbound]
    split_ifs
    · exact hr.setFlag (by decide)
    · exact hr
  · rw [if_neg hbound]
    generalize (if h.vaultId = .zero 16 then draws.vaultId else some h.vaultId) = vaultId
    rcases kek with _ | kek
    · exact hr
    rcases vaultId with _ | vaultId
    · exact hr
    -- An identity has been found, and stays when the rest fails.
    generalize draws.nonce = mkNonce, draws.seals = seals
    rcases mkNonce with _ | mkNonce
    · exact hminted vaultId
    rcases seals with _ | _
    · exact hminted vaultId
    · exact (hminted vaultId).bindContext _ _ _

/-- **Every header in memory is in range.** -/
theorem InMemory.inRange (hh : InMemory C h) : h.InRange := by
  induction hh with
  | create hcreate => exact (valid_iff.mp (valid_of_create hcreate)).1
  | parse hparse => exact inRange_of_parse hparse
  | prepare nonce _ hfit ih => exact ih.prepare nonce hfit
  | swap nonce _ hfit ih =>
    obtain ⟨hversion, hflags, hsane, hslots⟩ := ih.prepare nonce hfit
    exact ⟨hversion, hflags, hsane, hslots⟩
  | noteMode i b _ ih => exact ih.setSlot i (ih.slots i)
  | changePassword salt mkNonce sealed c _ ih =>
    obtain ⟨hversion, hflags, hsane, hslots⟩ := ih.setFlag (by decide : flagDomainSeparatedKdf < 32)
    exact ⟨hversion, hflags, hsane, hslots⟩
  | finalizeContext draws kek master recovered _ ih => exact ih.finalizeContext draws kek master recovered

/-- Every header in memory is read back as it was written, if its size field is that of the format and a
mode that is not stored is implied. -/
theorem InMemory.parse_serialize_iff (hh : InMemory C h) : Header.parse h.serialize = some h ↔
    h.headerSizeField = headerSize ∧ h.ModesImplied := by
  rw [Header.parse_serialize_iff, valid_iff, and_iff_right hh.inRange]

end Memory

end Header

end SafeVault
