import SafeVault.Legacy.HeaderMemory
import SafeVault.V3.Credentials

/-!
# The two formats of a header

Both formats have a writer and a parser, and both parsers check the parameters of the key derivation on
their own. The parser of the single-file format does not look at the size field, which the writer sets;
the parser of the directory format asks for less memory than the key derivation does when there is more
than one lane.
-/

namespace SafeVault

open Header (getAt)

/-- **The codecs of both headers.** -/
theorem headerCodecs (C : KeyCrypto) (c : Credentials) :
    (∀ raw h, Header.parse raw = some h → Kdf.acceptsParams h.kdf = true ∧
      (Header.parse h.serialize = some h ↔ getAt raw 10 2 = headerSize)) ∧
    (∀ h : Header, h.InMemory C →
      (Header.parse h.serialize = some h ↔ h.headerSizeField = headerSize ∧ h.ModesImplied)) ∧
    (∀ draws params h master, Header.create C draws c params = some (h, master) →
      Header.parse h.serialize = some h) ∧
    (∀ raw h, V3.V3Header.parse raw = .ok h → h.serialize = raw ∧ V3.V3Header.parse h.serialize = .ok h ∧
      (Kdf.acceptsParams h.kdf = true ↔ 8 * getAt raw.bytes 25 4 ≤ getAt raw.bytes 21 4)) ∧
    (∀ draws params h master, V3.createV3Header C draws c params = .ok (h, master) →
      Kdf.acceptsParams h.kdf = true ∧
      (V3.V3Header.parse h.serialize = .ok h ↔ draws.vaultId ≠ some (.zero 16))) ∧
    ∀ draws raw current master h, V3.V3Header.parse raw = .ok current →
      V3.rewrapV3Header C draws current master c = .ok h →
      Kdf.acceptsParams h.kdf = true ∧ V3.V3Header.parse h.serialize = .ok h := by
  refine ⟨fun raw h hparse ↦ ?_, fun h hh ↦ hh.parse_serialize_iff,
    fun draws params h master hcreate ↦ Header.parse_serialize (Header.valid_of_create hcreate),
    fun raw h hparse ↦ ?_, fun draws params h master hcreate ↦ ?_,
    fun draws raw current master h hparse hrewrap ↦ ?_⟩
  · exact ⟨(Header.kdfParamsSane_iff.mp (Header.inRange_of_parse hparse).sane).2,
      Header.parse_serialize_of_parse hparse⟩
  · have haccepted := V3.V3Header.parse_eq_ok_iff.mp hparse
    refine ⟨V3.V3Header.serialize_of_accepted haccepted, V3.V3Header.parse_serialize haccepted.valid, ?_⟩
    have hkdf := V3.V3Header.acceptsKdf_iff.mp haccepted.kdf
    obtain rfl := haccepted.read
    change _ ↔ 8 * (V3.V3Header.parseFields raw.bytes).kdf.parallelism ≤
      (V3.V3Header.parseFields raw.bytes).kdf.mCostKib
    rw [Kdf.acceptsParams_iff]
    omega
  · obtain ⟨hwraps, hflags, -, hvault⟩ := V3.wraps_of_createV3Header hcreate
    have hkdf := hwraps.acceptsParams
    rw [V3.V3Header.parse_serialize_iff, hvault, ne_eq, Option.some_inj]
    exact ⟨hkdf, fun hv ↦ hv.vaultId, fun hne ↦ ⟨hflags, V3.acceptsKdf_of_acceptsParams hkdf, hne⟩⟩
  · obtain ⟨hwraps, hflags, hkdf, hvault⟩ := V3.wraps_of_rewrapV3Header hrewrap
    have hcurrent := (V3.V3Header.parse_eq_ok_iff.mp hparse).valid
    exact ⟨hwraps.acceptsParams, V3.V3Header.parse_serialize ⟨hflags.trans hcurrent.flags,
      hkdf ▸ hcurrent.kdf, hvault ▸ hcurrent.vaultId⟩⟩

/-- A directory header that asks for 16 lanes and 8 blocks of memory. -/
def crampedHeader : V3.V3Header where
  kdf := ⟨1, 8, 16⟩
  salt := .zero 16
  keyfileRequired := false
  nonce := .zero 24
  wrappedMasterKey := .zero 32
  tag := .zero 16
  vaultId := .ofSlice 16 (List.replicate 16 1)

theorem headerCodecs_cramped : V3.V3Header.parse crampedHeader.serialize = .ok crampedHeader ∧
    (Kdf.acceptsParams crampedHeader.kdf = true ↔
      8 * getAt crampedHeader.serialize.bytes 25 4 ≤ getAt crampedHeader.serialize.bytes 21 4) :=
  ((headerCodecs .sample ⟨ascii "a", []⟩).2.2.2.1 _ _ (V3.V3Header.parse_serialize ⟨rfl, by decide, by decide⟩)).2

/-- A file header whose size field is zero. -/
def unsizedHeader : Bytes := Layout.put 10 [0, 0] IndexIo.newHeader.serialize

/-- **Neither codec does all of it**: a directory header is accepted whose parameters the key derivation
refuses, and a file header is accepted that is not read back from what is written for it. -/
theorem headers_accepted_in_vain :
    (V3.V3Header.parse crampedHeader.serialize = .ok crampedHeader ∧
      ∀ C : KeyCrypto, C.deriveKey ⟨ascii "a", []⟩ crampedHeader.salt crampedHeader.kdf = none) ∧
    ∃ h, Header.parse unsizedHeader = some h ∧ Header.parse h.serialize ≠ some h := by
  refine ⟨⟨V3.V3Header.parse_serialize ⟨rfl, by decide, by decide⟩, fun C ↦ rfl⟩, ?_⟩
  obtain ⟨h, hparse⟩ := Option.isSome_iff_exists.mp
    (show (Header.parse unsizedHeader).isSome = true by decide +kernel)
  refine ⟨h, hparse, fun hback ↦ ?_⟩
  have hsize := (Header.parse_serialize_of_parse hparse).mp hback
  exact absurd hsize (by decide +kernel)

end SafeVault
