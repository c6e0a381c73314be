import SafeVault.V3.Header

/-!
# The master key of a directory vault

The master key is drawn once and stored under a key derived from the credentials. Changing the
credentials wraps the same master key again, with a fresh salt and nonce.
-/

namespace SafeVault

namespace V3

variable {C : KeyCrypto} {c c' : Credentials} {h h' current next : V3Header} {kdf : KdfParams}
  {master key : Block 32}

/-! ## Wrapping -/

/-- What the random source gives, if anything, and whether there is memory to seal. -/
structure Draws where
  salt : Option (Block 16)
  nonce : Option (Block 24)
  vaultId : Option (Block 16)
  masterKey : Option (Block 32)
  seals : Bool

/-- `master_wrap_ad`: the wrap is bound to the vault and to its format. -/
def masterWrapAd (h : V3Header) : Bytes :=
  [0x10, 1] ++ LittleEndian.encode 2 v3FormatVersion ++ h.vaultId.bytes ++
    LittleEndian.encode 2 v3HeaderSize ++ LittleEndian.encode 4 h.flags

section Wrap

variable (C)

/-- The end of creating or changing a header: derive the key and wrap the master key. -/
def wrapMasterKey (seals : Bool) (h : V3Header) (master : Block 32) (c : Credentials) :
    Except HeaderStatus V3Header := do
  let kek ← given .cryptoError (C.deriveKey c h.salt h.kdf)
  let sealed ← given .cryptoError
    (if seals then some (C.sealTo kek h.nonce (masterWrapAd h) master) else none)
  .ok { h with wrappedMasterKey := sealed.1, tag := sealed.2 }

/-- `create_v3_header`. -/
def createV3Header (draws : Draws) (c : Credentials) (kdf : KdfParams) :
    Except HeaderStatus (V3Header × Block 32) := do
  let salt ← given .cryptoError draws.salt
  let nonce ← given .cryptoError draws.nonce
  let vaultId ← given .cryptoError draws.vaultId
  let master ← given .cryptoError draws.masterKey
  let h ← wrapMasterKey C draws.seals
    { kdf, salt, keyfileRequired := !c.keyfile.isEmpty, nonce, wrappedMasterKey := .zero 32,
      tag := .zero 16, vaultId } master c
  .ok (h, master)

/-- `rewrap_v3_header`. -/
def rewrapV3Header (draws : Draws) (current : V3Header) (master : Block 32) (c : Credentials) :
    Except HeaderStatus V3Header := do
  let salt ← given .cryptoError draws.salt
  let nonce ← given .cryptoError draws.nonce
  wrapMasterKey C draws.seals
    { current with keyfileRequired := !c.keyfile.isEmpty, salt, nonce } master c

/-- `unwrap_v3_master_key`. -/
def unwrapV3MasterKey (h : V3Header) (c : Credentials) : Except HeaderStatus (Block 32) :=
  if h.keyfileRequired && c.keyfile.isEmpty then .error .authenticationFailed
  else do
    let kek ← given .cryptoError (C.deriveKey c h.salt h.kdf)
    given .authenticationFailed (C.openTo kek h.nonce (masterWrapAd h) (h.wrappedMasterKey, h.tag))

end Wrap

/-! ## What a header is wrapped for -/

/-- The header holds a master key under the key of some credentials. -/
structure Wraps (C : KeyCrypto) (h : V3Header) (c : Credentials) (master : Block 32) : Prop where
  derives : ∃ kek, C.deriveKey c h.salt h.kdf = some kek ∧
    C.sealTo kek h.nonce (masterWrapAd h) master = (h.wrappedMasterKey, h.tag)
  keyfile : h.keyfileRequired = !c.keyfile.isEmpty

theorem wraps_of_wrapMasterKey {seals : Bool} (hkeyfile : h.keyfileRequired = !c.keyfile.isEmpty)
    (hwrap : wrapMasterKey C seals h master c = .ok next) :
    Wraps C next c master ∧ ∃ wrapped tag, next = { h with wrappedMasterKey := wrapped, tag } := by
  simp only [wrapMasterKey, given_bind_eq_ok_iff] at hwrap
  obtain ⟨kek, hkek, sealed, hsealed, hnext⟩ := hwrap
  obtain rfl := Except.ok.inj hnext
  split_ifs at hsealed
  obtain rfl := Option.some.inj hsealed
  exact ⟨⟨⟨kek, hkek, rfl⟩, hkeyfile⟩, _, _, rfl⟩

theorem wraps_of_createV3Header {draws : Draws} (h' : createV3Header C draws c kdf = .ok (h, master)) :
    Wraps C h c master ∧ h.flags = 0 ∧ h.kdf = kdf ∧ draws.vaultId = some h.vaultId := by
  simp only [createV3Header, given_bind_eq_ok_iff] at h'
  obtain ⟨salt, -, nonce, -, vaultId, hvault, key, -, h'⟩ := h'
  rcases hwrap : wrapMasterKey C draws.seals _ key c with e | made
  · rw [hwrap] at h'
    exact nomatch h'
  · rw [hwrap] at h'
    obtain ⟨rfl, rfl⟩ := Prod.mk.inj (Except.ok.inj h')
    obtain ⟨hwraps, wrapped, tag, rfl⟩ := wraps_of_wrapMasterKey rfl hwrap
    exact ⟨hwraps, rfl, rfl, hvault⟩

theorem wraps_of_rewrapV3Header {draws : Draws}
    (h' : rewrapV3Header C draws current master c = .ok next) :
    Wraps C next c master ∧ next.flags = current.flags ∧ next.kdf = current.kdf ∧
      next.vaultId = current.vaultId := by
  simp only [rewrapV3Header, given_bind_eq_ok_iff] at h'
  obtain ⟨salt, -, nonce, -, hwrap⟩ := h'
  obtain ⟨hwraps, wrapped, tag, rfl⟩ := wraps_of_wrapMasterKey (by rfl) hwrap
  exact ⟨hwraps, rfl, rfl, rfl⟩

/-- The parser of the header is satisfied with the parameters that a key was derived with. -/
theorem acceptsKdf_of_acceptsParams (hp : Kdf.acceptsParams kdf = true) :
    V3Header.acceptsKdf kdf = true := by
  have := Kdf.acceptsParams_iff.mp hp
  rw [V3Header.acceptsKdf_iff]
  omega

theorem Wraps.acceptsParams (hw : Wraps C h c master) : Kdf.acceptsParams h.kdf = true := by
  obtain ⟨kek, hkek, -⟩ := hw.derives
  exact (Kdf.deriveKey_eq_some_iff.mp hkek).1

/-- **Its own credentials open it.** -/
theorem Wraps.unwrap (hw : Wraps C h c master) : unwrapV3MasterKey C h c = .ok master := by
  obtain ⟨kek, hkek, hsealed⟩ := hw.derives
  have hkeyfile : (h.keyfileRequired && c.keyfile.isEmpty) = false := by
    rw [hw.keyfile]
    cases c.keyfile.isEmpty <;> rfl
  rw [unwrapV3MasterKey, hkeyfile, if_neg Bool.false_ne_true, given_bind_eq_ok_iff]
  refine ⟨kek, hkek, given_eq_ok_iff.mpr ?_⟩
  rw [← hsealed, C.openTo_sealTo]

/-- **No other credentials open it.** -/
theorem Wraps.unwrap_iff (hw : Wraps C h c master)
    (hC : C.Ideal {Kdf.secret .domainSeparatedV2 c, Kdf.secret .domainSeparatedV2 c'}) :
    unwrapV3MasterKey C h c' = .ok key ↔ c' = c ∧ key = master := by
  constructor
  · intro hopen
    rw [unwrapV3MasterKey] at hopen
    split_ifs at hopen
    obtain ⟨kek', hkek', hopen⟩ := given_bind_eq_ok_iff.mp hopen
    obtain ⟨kek, hkek, hsealed⟩ := hw.derives
    rw [given_eq_ok_iff, ← hsealed, KeyCrypto.openTo_sealTo_iff hC hkek hkek'] at hopen
    have hfits := (Kdf.deriveKey_eq_some_iff.mp hkek).2.1
    have hfits' := (Kdf.deriveKey_eq_some_iff.mp hkek').2.1
    exact ⟨Kdf.secret_inj hfits' hfits hopen.1, hopen.2⟩
  · rintro ⟨rfl, rfl⟩
    exact hw.unwrap

/-! ## Exactly the credentials -/

/-- **The credentials are exact.** A header that was made for some credentials, or changed for them,
comes back from its bytes unless its identity is zero; and it gives the master key to these
credentials and nothing to any others. -/
theorem unwrapV3MasterKey_exact (draws : Draws)
    (hC : C.Ideal {Kdf.secret .domainSeparatedV2 c, Kdf.secret .domainSeparatedV2 c'}) :
    (∀ kdf h master, createV3Header C draws c kdf = .ok (h, master) →
      (h.vaultId ≠ .zero 16 → V3Header.parse h.serialize = .ok h) ∧
      ∀ parsed, V3Header.parse h.serialize = .ok parsed →
        ∀ key, unwrapV3MasterKey C parsed c' = .ok key ↔ c' = c ∧ key = master) ∧
    (∀ raw current master h, V3Header.parse raw = .ok current →
      rewrapV3Header C draws current master c = .ok h →
      V3Header.parse h.serialize = .ok h ∧
        ∀ key, unwrapV3MasterKey C h c' = .ok key ↔ c' = c ∧ key = master) := by
  constructor
  · intro kdf h master hcreate
    obtain ⟨hwraps, hflags, -, -⟩ := wraps_of_createV3Header hcreate
    have hkdf := acceptsKdf_of_acceptsParams hwraps.acceptsParams
    refine ⟨fun hvault ↦ V3Header.parse_serialize ⟨hflags, hkdf, hvault⟩, fun parsed hparsed ↦ ?_⟩
    -- An identity of zeros is refused, so the header that was parsed is the one that was made.
    have hvault : h.vaultId ≠ .zero 16 := by
      rw [← V3Header.vaultId_of_parse_serialize hparsed]
      exact (V3Header.parse_eq_ok_iff.mp hparsed).vaultId
    rw [V3Header.parse_serialize ⟨hflags, hkdf, hvault⟩] at hparsed
    obtain rfl := Except.ok.inj hparsed
    exact fun key ↦ hwraps.unwrap_iff hC
  · intro raw current master h hparse hrewrap
    obtain ⟨hwraps, hflags, hkdf, hvault⟩ := wraps_of_rewrapV3Header hrewrap
    have hcurrent := (V3Header.parse_eq_ok_iff.mp hparse).valid
    exact ⟨V3Header.parse_serialize ⟨hflags.trans hcurrent.flags, hkdf ▸ hcurrent.kdf,
      hvault ▸ hcurrent.vaultId⟩, fun key ↦ hwraps.unwrap_iff hC⟩

/-- Every draw succeeds. -/
def sampleDraws : Draws where
  salt := some (.zero 16)
  nonce := some (.zero 24)
  vaultId := some ⟨List.replicate 16 1, rfl⟩
  masterKey := some (.zero 32)
  seals := true

theorem unwrapV3MasterKey_exact_letters : ∃ h master,
    createV3Header .sample sampleDraws ⟨ascii "a", []⟩ {} = .ok (h, master) ∧
      V3Header.parse h.serialize = .ok h ∧ unwrapV3MasterKey .sample h ⟨ascii "a", []⟩ = .ok master ∧
      ∀ key, unwrapV3MasterKey .sample h ⟨ascii "b", []⟩ ≠ .ok key := by
  obtain ⟨⟨h, master⟩, hcreate⟩ : ∃ made,
      createV3Header .sample sampleDraws ⟨ascii "a", []⟩ {} = .ok made := ⟨_, rfl⟩
  have hideal : KeyCrypto.sample.Ideal {Kdf.secret .domainSeparatedV2 ⟨ascii "a", []⟩,
      Kdf.secret .domainSeparatedV2 ⟨ascii "b", []⟩} := KeyCrypto.ideal_sample (by decide)
  obtain ⟨hparse, hopen⟩ := (unwrapV3MasterKey_exact sampleDraws hideal).1 {} h master hcreate
  obtain ⟨hwraps, -, -, hvault⟩ := wraps_of_createV3Header hcreate
  have hne : h.vaultId ≠ .zero 16 := by
    rw [← Option.some.inj hvault]
    decide
  refine ⟨h, master, hcreate, hparse hne, hwraps.unwrap, fun key hkey ↦ ?_⟩
  exact absurd ((hopen h (hparse hne) key).mp hkey).1 (by decide)

end V3

end SafeVault
