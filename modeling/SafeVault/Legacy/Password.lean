import SafeVault.Crypto.Access
import SafeVault.Legacy.CommitSafety
import Mathlib.Tactic.IntervalCases

/-!
# Changing the password of a single-file vault

The master key is unwrapped with the old credentials and wrapped again for the new ones. The header in
memory is replaced first and written to the file after that. When the write fails, the change is
reported as failed, but the header in memory stays replaced, and the next commit writes it.

Between the calls there is one holder of the vault: the credentials of the last change that was
reported as done. As long as no write of a changed header fails, the holder opens the header in the
file, and so does the holder or its successor at every moment of a call.
-/

namespace SafeVault

/-! ## The header -/

/-- Set when the key derivation takes the newer encoding of the credentials. -/
def flagDomainSeparatedKdf : ℕ := 1

namespace Header

def domainSeparatedKdf (h : Header) : Bool := h.flags.testBit flagDomainSeparatedKdf

def kdfInputFormat (h : Header) : KdfInputFormat :=
  if h.domainSeparatedKdf then .domainSeparatedV2 else .legacyConcat

/-- A header that is about to get a new wrap: fresh salt and nonce, and the newer encoding. -/
def freshWrap (h : Header) (salt : Block 16) (mkNonce : Block 24) : Header :=
  { h with flags := h.flags ||| 2 ^ flagDomainSeparatedKdf, salt, mkNonce }

/-- Put a wrap in. -/
def withWrap (h : Header) (sealed : Block 32 × Block 16) (c : Credentials) : Header :=
  { h with
    wrappedMasterKey := sealed.1
    mkTag := sealed.2
    keyfileRequired := if c.keyfile.isEmpty then 0 else 1 }

end Header

namespace IndexIo

/-- What the master key is bound to. -/
def mkWrapAd (h : Header) : Bytes := headerRecordAd .mkWrap h

/-- The part of `Vault::unlock` and `Vault::change_password` that gives the master key. -/
def unwrapMasterKey (C : KeyCrypto) (h : Header) (c : Credentials) : Except VaultResult (Block 32) :=
  match C.deriveKey c h.salt h.kdf h.kdfInputFormat with
  | none => .error .cryptoError
  | some kek =>
    match C.openTo kek h.mkNonce (mkWrapAd h) (h.wrappedMasterKey, h.mkTag) with
    | none => .error .authFailed
    | some master => .ok master

/-- The header holds a master key under the key of some credentials. -/
def Wraps (C : KeyCrypto) (h : Header) (c : Credentials) (master : Block 32) : Prop :=
  ∃ kek, C.deriveKey c h.salt h.kdf h.kdfInputFormat = some kek ∧
    C.sealTo kek h.mkNonce (mkWrapAd h) master = (h.wrappedMasterKey, h.mkTag)

/-! ## The change -/

/-- Libraries and random source, with what a change of the password needs. -/
structure PasswordEnv extends Env where
  crypto : KeyCrypto
  salt : ℕ → Block 16

section Change

variable (E : PasswordEnv)

/-- `derive_key`, which also fails for want of memory. -/
def deriveStep (c : Credentials) (salt : Block 16) (kdf : KdfParams) (format : KdfInputFormat) :
    Proc Session VaultResult (Block 32) :=
  match E.crypto.deriveKey c salt kdf format with
  | none => .stop .cryptoError
  | some kek => attempt E.toEnv .cryptoError (fun s ↦ (kek, s)) fun _ s ↦ s

/-- `Vault::change_password`, on a writable vault. -/
def changePassword (old new : Credentials) : Proc Session VaultResult Unit := do
  let h ← .look (·.header)
  let kek ← deriveStep E old h.salt h.kdf h.kdfInputFormat
  match E.crypto.openTo kek h.mkNonce (mkWrapAd h) (h.wrappedMasterKey, h.mkTag) with
  | none => .stop .authFailed
  | some master => do
    let salt ← attempt E.toEnv .cryptoError (fun s ↦ (E.salt s.clock, s)) fun _ s ↦ s
    let mkNonce ← fillNonce E.toEnv
    let next := h.freshWrap salt mkNonce
    let kek ← deriveStep E new salt h.kdf .domainSeparatedV2
    let sealed ← attempt E.toEnv .cryptoError
      (fun s ↦ (E.crypto.sealTo kek mkNonce (mkWrapAd next) master, s)) fun _ s ↦ s
    -- The header in memory is replaced whether it can be written or not.
    update fun s ↦ { s with header := next.withWrap sealed new }
    writeHeader E.toEnv

end Change

/-! ## What a header is wrapped for -/

variable {E : PasswordEnv} {C : KeyCrypto} {h h' next : Header}
  {c c' old new : Credentials} {master key : Block 32} {s t : Session}

theorem unwrapMasterKey_eq_ok_iff : unwrapMasterKey C h c = .ok key ↔
    ∃ kek, C.deriveKey c h.salt h.kdf h.kdfInputFormat = some kek ∧
      C.openTo kek h.mkNonce (mkWrapAd h) (h.wrappedMasterKey, h.mkTag) = some key := by
  rw [unwrapMasterKey]
  rcases C.deriveKey c h.salt h.kdf h.kdfInputFormat with _ | kek
  · exact iff_of_false (by exact nofun) (by simp)
  · rcases hopen : C.openTo kek h.mkNonce (mkWrapAd h) (h.wrappedMasterKey, h.mkTag) with _ | master
    · exact iff_of_false (by simp [hopen]) (by simp [hopen])
    · simp [hopen]

/-- **Its holder opens it.** -/
theorem Wraps.unwrap (hw : Wraps C h c master) : unwrapMasterKey C h c = .ok master := by
  obtain ⟨kek, hkek, hsealed⟩ := hw
  refine unwrapMasterKey_eq_ok_iff.mpr ⟨kek, hkek, ?_⟩
  rw [← hsealed, C.openTo_sealTo]

/-- **Only an equal input opens it.** -/
theorem Wraps.unwrap_iff (hw : Wraps C h c master)
    (hC : C.Ideal {Kdf.secret h.kdfInputFormat c, Kdf.secret h.kdfInputFormat c'})
    (hfits : Kdf.acceptsSizes h.kdfInputFormat c' = true) :
    unwrapMasterKey C h c' = .ok key ↔
      Kdf.secret h.kdfInputFormat c' = Kdf.secret h.kdfInputFormat c ∧ key = master := by
  obtain ⟨kek, hkek, hsealed⟩ := hw
  obtain ⟨hparams, -, -⟩ := Kdf.deriveKey_eq_some_iff.mp hkek
  have hkek' : C.deriveKey c' h.salt h.kdf h.kdfInputFormat =
      some (C.argon2 h.kdf h.salt (Kdf.secret h.kdfInputFormat c')) :=
    Kdf.deriveKey_eq_some_iff.mpr ⟨hparams, hfits, rfl⟩
  rw [unwrapMasterKey_eq_ok_iff]
  simp only [hkek', Option.some.injEq, exists_eq_left']
  rw [← hsealed]
  exact KeyCrypto.openTo_sealTo_iff hC hkek hkek'

/-- The slots have nothing to do with the master key. -/
theorem Wraps.sameVault (hw : Wraps C h c master) (hh : h.SameVault h') : Wraps C h' c master := by
  obtain ⟨a, b, i, rfl⟩ := hh
  exact hw

/-! ## The new header -/

theorem testBit_freshWrap (h : Header) (salt : Block 16) (mkNonce : Block 24) {i : ℕ}
    (hi : i ≠ flagDomainSeparatedKdf) : (h.freshWrap salt mkNonce).flags.testBit i = h.flags.testBit i := by
  rw [Header.freshWrap, Nat.testBit_or, Nat.testBit_two_pow_of_ne hi.symm, Bool.or_false]

theorem kdfInputFormat_freshWrap (h : Header) (salt : Block 16) (mkNonce : Block 24) :
    (h.freshWrap salt mkNonce).kdfInputFormat = .domainSeparatedV2 := by
  have hbit : (h.freshWrap salt mkNonce).domainSeparatedKdf = true := by
    rw [Header.domainSeparatedKdf, Header.freshWrap, Nat.testBit_or, Nat.testBit_two_pow_self,
      Bool.or_true]
  rw [Header.kdfInputFormat, hbit, if_pos rfl]

theorem kdfInputFormat_withWrap (h : Header) (salt : Block 16) (mkNonce : Block 24)
    (sealed : Block 32 × Block 16) (c : Credentials) :
    ((h.freshWrap salt mkNonce).withWrap sealed c).kdfInputFormat = .domainSeparatedV2 :=
  kdfInputFormat_freshWrap h salt mkNonce

/-- A changed header is as valid as the one before. -/
theorem valid_withWrap (hv : h.Valid) (salt : Block 16) (mkNonce : Block 24) (sealed : Block 32 × Block 16)
    (c : Credentials) : ((h.freshWrap salt mkNonce).withWrap sealed c).Valid where
  version := hv.version
  size := hv.size
  flags := Nat.or_lt_two_pow hv.flags (by decide)
  sane := hv.sane
  slots := hv.slots
  modes := by
    have hmodes : ((h.freshWrap salt mkNonce).withWrap sealed c).hasIndexSlotModes = h.hasIndexSlotModes :=
      testBit_freshWrap h salt mkNonce (by decide)
    have hbound : ((h.freshWrap salt mkNonce).withWrap sealed c).contextBoundChunks = h.contextBoundChunks :=
      testBit_freshWrap h salt mkNonce (by decide)
    rw [hmodes, hbound]
    exact hv.modes

theorem wraps_withWrap {salt : Block 16} {mkNonce : Block 24} {kek : Block 32}
    (hkek : C.deriveKey c salt h.kdf .domainSeparatedV2 = some kek) :
    Wraps C ((h.freshWrap salt mkNonce).withWrap
      (C.sealTo kek mkNonce (mkWrapAd (h.freshWrap salt mkNonce)) master) c) c master := by
  refine ⟨kek, ?_, rfl⟩
  change C.deriveKey c salt h.kdf (h.freshWrap salt mkNonce).kdfInputFormat = some kek
  rw [kdfInputFormat_freshWrap, hkek]

/-! ## Calls -/

/-- What a session does to its header: changing the password, or committing an index. -/
inductive HeaderOp where
  | change (old new : Credentials)
  | commit (x : Index)

/-- What the credentials give on a file. -/
def fileKey (C : KeyCrypto) (d : Disk) (c : Credentials) : Option (Block 32) := do
  let h ← Header.parse d.head
  (unwrapMasterKey C h c).toOption

/-- A vault file, as it may be found after a crash. -/
def fileMedium (C : KeyCrypto) : Medium Session Disk where
  found s d := s.disk.Survives d
  key := fileKey C

/-- The calls of a session on a file. -/
def fileInterface (E : PasswordEnv) : Interface Session VaultResult HeaderOp where
  run
    | .change old new => changePassword E old new
    | .commit x => commitIndex E.toEnv x
  change
    | .change old new => some (old, new)
    | .commit _ => none

/-- The write of a changed header is reached, five steps after the beginning. -/
structure ReachesWrite (E : PasswordEnv) (s : Session) (old new : Credentials) : Prop where
  verified : ∃ key, unwrapMasterKey E.crypto s.header old = .ok key
  sizes : Kdf.acceptsSizes .domainSeparatedV2 new = true
  faults : ∀ i < 5, E.fault (s.clock + i) = .none

/-- The write of a changed header fails. -/
def WriteFails (E : PasswordEnv) (s : Session) : HeaderOp → Prop
  | .change old new => ReachesWrite E s old new ∧ E.fault (s.clock + 5) ≠ .none
  | .commit _ => False

/-- **The invariant.** The headers in memory and in the file are wrapped for the holder and differ in
their slots only. -/
structure HeldBy (C : KeyCrypto) (master : Block 32) (c : Credentials) (s : Session) : Prop where
  valid : s.header.Valid
  room : s.disk.size ≤ maxFileSize
  wraps : Wraps C s.header c master
  onDisk : ∃ h, s.disk.head = h.serialize ∧ h.Valid ∧ s.header.SameVault h

/-- Neither the header in memory nor the file has been touched. -/
theorem HeldBy.of_same (hs : HeldBy C master c s) (hdisk : t.disk = s.disk) (hheader : t.header = s.header) :
    HeldBy C master c t := by
  refine ⟨hheader ▸ hs.valid, hdisk ▸ hs.room, hheader ▸ hs.wraps, ?_⟩
  rw [hdisk, hheader]
  exact hs.onDisk

theorem fileKey_of_head {d : Disk} (hhead : d.head = h.serialize) (hv : h.Valid) :
    fileKey C d c = (unwrapMasterKey C h c).toOption := by
  rw [fileKey, hhead, Header.parse_serialize hv]
  rfl

/-- The holder opens what is found. -/
theorem HeldBy.opensFor (hs : HeldBy C master c s) : (fileMedium C).OpensFor master s {c} := by
  intro d hd
  obtain ⟨h, hhead, hv, hsame⟩ := hs.onDisk
  refine ⟨c, rfl, (fileKey_of_head (hd.head.trans hhead) hv).trans ?_⟩
  rw [(hs.wraps.sameVault hsame).unwrap]
  rfl

/-- What is found depends on the file alone. -/
theorem opensFor_of_disk {cs : Set Credentials} (h : (fileMedium C).OpensFor master s cs)
    (hdisk : t.disk = s.disk) : (fileMedium C).OpensFor master t cs := by
  intro d hd
  change t.disk.Survives d at hd
  rw [hdisk] at hd
  exact h d hd

/-- Nobody else does, when the credentials are encoded in the newer way. -/
theorem HeldBy.closedFor {S : Set Credentials} (hs : HeldBy C master c s)
    (hformat : s.header.kdfInputFormat = .domainSeparatedV2) (hC : C.IdealFor S) (hc : c ∈ S) :
    (fileMedium C).ClosedFor s (S \ {c}) := by
  intro d hd c' hc'
  obtain ⟨h, hhead, hv, hsame⟩ := hs.onDisk
  have hw : Wraps C h c master := hs.wraps.sameVault hsame
  have hformat' : h.kdfInputFormat = .domainSeparatedV2 := by
    obtain ⟨a, b, i, rfl⟩ := hsame
    exact hformat
  refine (fileKey_of_head (hd.head.trans hhead) hv).trans ?_
  rcases hunwrap : unwrapMasterKey C h c' with e | key
  · rfl
  -- A key would come from an equal encoding, and the newer encoding is injective.
  · obtain ⟨kek', hkek', -⟩ := unwrapMasterKey_eq_ok_iff.mp hunwrap
    obtain ⟨kek, hkek, -⟩ := hw
    rw [hformat'] at hkek hkek'
    have hfits := (Kdf.deriveKey_eq_some_iff.mp hkek).2.1
    have hfits' := (Kdf.deriveKey_eq_some_iff.mp hkek').2.1
    have hsecret := ((hs.wraps.sameVault hsame).unwrap_iff (hC.pair hc hc'.1 h.kdfInputFormat)
      (by rwa [hformat'])).mp hunwrap
    rw [hformat'] at hsecret
    exact absurd (Kdf.secret_inj hfits' hfits hsecret.1) hc'.2

/-! ## One call -/

section Call

variable {I : Session → Prop} {Er : VaultResult → Session → Prop}

theorem wp_deriveStep {salt : Block 16} {kdf : KdfParams} {format : KdfInputFormat}
    {Q : Block 32 → Session → Prop}
    (hdone : ∀ kek, E.crypto.deriveKey c salt kdf format = some kek → E.fault s.clock = .none →
      I s.tick ∧ Q kek s.tick)
    (hfail : E.fault s.clock ≠ .none → I s.tick ∧ Er .cryptoError s.tick)
    (hstop : E.crypto.deriveKey c salt kdf format = none → Er .cryptoError s) :
    Proc.wp I (deriveStep E c salt kdf format) Q Er s := by
  rw [deriveStep]
  rcases hkek : E.crypto.deriveKey c salt kdf format with _ | kek
  · exact Proc.wp_stop.mpr (hstop hkek)
  · exact wp_attempt_of_fault (hdone kek hkek) fun h _ ↦ hfail h

/-- The moment before a changed header is written. -/
structure Changed (E : PasswordEnv) (s : Session) (old new : Credentials) (master : Block 32) (t : Session) :
    Prop where
  disk : t.disk = s.disk
  clock : t.clock = s.clock + 5
  valid : t.header.Valid
  wraps : Wraps E.crypto t.header new master
  format : t.header.kdfInputFormat = .domainSeparatedV2
  reached : ReachesWrite E s old new

/-- **Up to the write** nothing changes in the file, and what stops the change is that the write is not
reached. -/
theorem wp_changePassword_until {S : Set Credentials} {Q : Unit → Session → Prop}
    (hs : HeldBy E.crypto master c s) (hC : E.crypto.IdealFor S) (hc : c ∈ S) (hold : old ∈ S)
    (hkeep : ∀ n, I { s with clock := n } ∧ (¬ReachesWrite E s old new → ∀ e, Er e { s with clock := n }))
    (hwrite : ∀ t, Changed E s old new master t → I t ∧ Proc.wp I (writeHeader E.toEnv) Q Er t) :
    Proc.wp I (changePassword E old new) Q Er s := by
  -- A step that fails among the first five is a reason not to reach the write.
  have hfail (n i : ℕ) (e : VaultResult) (hi : i < 5) (hfault : E.fault (s.clock + i) ≠ .none) :
      I { s with clock := n } ∧ Er e { s with clock := n } :=
    ⟨(hkeep n).1, (hkeep n).2 (fun h ↦ hfault (h.faults i hi)) e⟩
  rw [changePassword, Proc.wp_bind, Proc.wp_look, Proc.wp_bind]
  refine wp_deriveStep (fun kek hkek h₀ ↦ ⟨(hkeep (s.clock + 1)).1, ?_⟩) (hfail _ 0 _ (by decide))
    fun hkek ↦ (hkeep s.clock).2 (fun h ↦ ?_) _
  rotate_left
  · obtain ⟨key, hkey⟩ := h.verified
    obtain ⟨kek, hkek', -⟩ := unwrapMasterKey_eq_ok_iff.mp hkey
    exact absurd (hkek.symm.trans hkek') (by rintro ⟨⟩)
  rcases hopen : E.crypto.openTo kek s.header.mkNonce (mkWrapAd s.header)
    (s.header.wrappedMasterKey, s.header.mkTag) with _ | found
  · refine Proc.wp_stop.mpr ((hkeep (s.clock + 1)).2 (fun h ↦ ?_) _)
    obtain ⟨key, hkey⟩ := h.verified
    obtain ⟨kek', hkek', hopen'⟩ := unwrapMasterKey_eq_ok_iff.mp hkey
    rw [hkek, Option.some_inj] at hkek'
    exact absurd (hopen.symm.trans (hkek' ▸ hopen')) (by rintro ⟨⟩)
  -- What the old credentials give is the master key.
  have hunwrap : unwrapMasterKey E.crypto s.header old = .ok found :=
    unwrapMasterKey_eq_ok_iff.mpr ⟨kek, hkek, hopen⟩
  obtain ⟨hparams, hfits, -⟩ := Kdf.deriveKey_eq_some_iff.mp hkek
  obtain ⟨-, rfl⟩ := (hs.wraps.unwrap_iff (hC.pair hc hold _) hfits).mp hunwrap
  rw [Proc.wp_bind]
  refine wp_attempt_of_fault (fun h₁ ↦ ⟨(hkeep (s.clock + 2)).1, ?_⟩) fun h _ ↦ hfail _ 1 _ (by decide) h
  rw [Proc.wp_bind]
  refine wp_attempt_of_fault (fun h₂ ↦ ⟨(hkeep (s.clock + 3)).1, ?_⟩) fun h _ ↦ hfail _ 2 _ (by decide) h
  rw [Proc.wp_bind]
  refine wp_deriveStep (fun kek' hkek' h₃ ↦ ⟨(hkeep (s.clock + 4)).1, ?_⟩) (hfail _ 3 _ (by decide))
    fun hkek' ↦ (hkeep (s.clock + 3)).2 (fun h ↦ ?_) _
  rotate_left
  · rw [KeyCrypto.deriveKey, if_neg (by simp [hparams]), if_neg (by simp [h.sizes])] at hkek'
    exact absurd hkek' (Option.some_ne_none _)
  rw [Proc.wp_bind]
  refine wp_attempt_of_fault (fun h₄ ↦ ⟨(hkeep (s.clock + 5)).1, ?_⟩) fun h _ ↦ hfail _ 4 _ (by decide) h
  rw [Proc.wp_bind, wp_update]
  refine hwrite _ ⟨rfl, rfl, valid_withWrap hs.valid _ _ _ _, wraps_withWrap hkek',
    kdfInputFormat_withWrap _ _ _ _ _, ⟨_, hunwrap⟩, (Kdf.deriveKey_eq_some_iff.mp hkek').2.1, fun i hi ↦ ?_⟩
  interval_cases i
  exacts [h₀, h₁, h₂, h₃, h₄]

/-- **A change of the password** whose header can be written. At every moment the file opens for the
holder or for the new credentials. -/
theorem wp_changePassword {S : Set Credentials} (hs : HeldBy E.crypto master c s) (hC : E.crypto.IdealFor S)
    (hc : c ∈ S) (hold : old ∈ S) (hwrite : ¬WriteFails E s (.change old new)) :
    Proc.wp ((fileMedium E.crypto).OpensFor master · {c, new}) (changePassword E old new)
      (fun _ t ↦ HeldBy E.crypto master new t ∧ t.header.kdfInputFormat = .domainSeparatedV2)
      (fun _ t ↦ HeldBy E.crypto master c t) s := by
  have hfile (t : Session) (hdisk : t.disk = s.disk) :
      (fileMedium E.crypto).OpensFor master t {c, new} :=
    (opensFor_of_disk hs.opensFor hdisk).mono (by simp)
  refine wp_changePassword_until hs hC hc hold (fun n ↦ ⟨hfile _ rfl, fun _ _ ↦ hs.of_same rfl rfl⟩)
    fun t ht ↦ ⟨hfile t ht.disk, ?_⟩
  refine wp_attempt_of_fault (fun _ ↦ ?_) fun h ↦ absurd ⟨ht.reached, ht.clock ▸ h⟩ hwrite
  -- The new header is in memory and in the file.
  have hnew : HeldBy E.crypto master new { putHeader t.tick with disk := (putHeader t.tick).disk.sync } :=
    ⟨ht.valid, (congrArg Disk.size ht.disk).trans_le hs.room, ht.wraps, t.header, rfl, ht.valid, .refl _⟩
  exact ⟨hnew.opensFor.mono (by simp), hnew, ht.format⟩

/-- A session whose header in memory is wrapped for other credentials than the one in the file. -/
structure Ahead (C : KeyCrypto) (master : Block 32) (new : Credentials) (s : Session) : Prop where
  valid : s.header.Valid
  room : s.disk.size ≤ maxFileSize
  wraps : Wraps C s.header new master
  format : s.header.kdfInputFormat = .domainSeparatedV2

/-- **When the write fails**, the change is reported as failed, and the changed header stays in memory. -/
theorem wp_changePassword_of_writeFails {S : Set Credentials} (hs : HeldBy E.crypto master c s)
    (hC : E.crypto.IdealFor S) (hc : c ∈ S) (hold : old ∈ S) (hwrite : WriteFails E s (.change old new)) :
    Proc.wp (fun _ ↦ True) (changePassword E old new) (fun _ _ ↦ False)
      (fun e t ↦ e = .ioError ∧ t.clock = s.clock + 6 ∧ t.disk.size = s.disk.size ∧
        Ahead E.crypto master new t) s := by
  refine wp_changePassword_until hs hC hc hold (fun n ↦ ⟨trivial, fun h ↦ absurd hwrite.1 h⟩)
    fun t ht ↦ ⟨trivial, wp_attempt_of_fault (fun h ↦ absurd h (ht.clock ▸ hwrite.2)) fun _ k ↦ ⟨trivial, rfl, ?_⟩⟩
  have hsize : t.disk.size = s.disk.size := congrArg Disk.size ht.disk
  have hclock : t.clock + 1 = s.clock + 6 := by rw [ht.clock]
  -- The header may have reached the file or not.
  split_ifs
  · exact ⟨hclock, hsize, ht.valid, hsize.trans_le hs.room, ht.wraps, ht.format⟩
  · exact ⟨hclock, hsize, ht.valid, hsize.trans_le hs.room, ht.wraps, ht.format⟩

/-- **The next commit** that is completed writes the changed header. -/
theorem Ahead.commit {S : Set Credentials} (hs : Ahead E.crypto master new s) (hC : E.crypto.IdealFor S)
    (hnew : new ∈ S) (x : Index) (hok : (commitIndex E.toEnv x).outcome s = .ok ()) :
    (fileMedium E.crypto).ClosedFor ((commitIndex E.toEnv x).final s) (S \ {new}) := by
  obtain ⟨hm, hcompleted⟩ := Proc.of_outcome_ok (wp_commitIndex (x := ⟨x, s.disk⟩) hs.valid hs.room
    fun c hc ↦ Attempt.holds_chunks hc) hok
  have hheld : HeldBy E.crypto master new ((commitIndex E.toEnv x).final s) :=
    ⟨hm.memory.valid, hm.kept.room, hs.wraps.sameVault hm.memory.sameVault, _, hcompleted.onDisk,
      hm.memory.valid, .refl _⟩
  refine hheld.closedFor ?_ hC hnew
  obtain ⟨a, b, i, hheader⟩ := hm.memory.sameVault
  rw [hheader]
  exact hs.format

/-- A commit changes the slots of the header only. -/
theorem wp_commitIndex_heldBy (hs : HeldBy E.crypto master c s) (x : Index) :
    Proc.wp (HeldBy E.crypto master c) (commitIndex E.toEnv x) (fun _ ↦ HeldBy E.crypto master c)
      (fun _ ↦ HeldBy E.crypto master c) s := by
  have hmoment (t : Session) (hm : Moment E.toEnv (· < s.disk.size) s ⟨x, s.disk⟩ t) :
      HeldBy E.crypto master c t := by
    refine ⟨hm.memory.valid, hm.kept.room, hs.wraps.sameVault hm.memory.sameVault, ?_⟩
    rcases hm.onDisk with hhead | ⟨h, hhead, hf⟩
    · obtain ⟨h, hserialize, hv, hsame⟩ := hs.onDisk
      exact ⟨h, hhead.trans hserialize, hv, hm.memory.sameVault.symm.trans hsame⟩
    · exact ⟨h, hhead, hf.valid, hm.memory.sameVault.symm.trans hf.sameVault⟩
  exact Proc.wp_mono (wp_commitIndex (x := ⟨x, s.disk⟩) hs.valid hs.room
    fun c hc ↦ Attempt.holds_chunks hc) hmoment (fun _ t ht ↦ hmoment t ht.1) fun _ ↦ hmoment

end Call

/-- **All calls** of a session on a file keep the access to the vault. -/
theorem keeps_fileInterface {S : Set Credentials} (hC : E.crypto.IdealFor S) :
    (fileInterface E).Keeps (fileMedium E.crypto) S master (WriteFails E) (HeldBy E.crypto master) where
  opens hs := hs.opensFor
  change := by
    intro op old new c s hchange hs hc hold hnew hfine
    cases op with
    | change old' new' =>
      obtain ⟨rfl, rfl⟩ := Prod.mk.inj (Option.some.inj hchange)
      exact Proc.wp_imp (wp_changePassword hs hC hc hold hfine)
        (fun _ _ h ↦ ⟨h.1, h.1.closedFor h.2 hC hnew⟩) fun _ _ h ↦ h
    | commit x => exact nomatch hchange
  call := by
    intro op c s hchange hs
    cases op with
    | change old new => exact nomatch hchange
    | commit x => exact wp_commitIndex_heldBy hs x

end IndexIo

end SafeVault
