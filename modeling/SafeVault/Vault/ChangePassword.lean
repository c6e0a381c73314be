import SafeVault.Legacy.Password
import SafeVault.V3.Password

/-!
# Changing the password of a vault

For both formats: as long as the header can be written, whoever was last reported to hold the vault
opens it, at every moment and after every call. In a single-file vault a changed header that could not
be written stays in memory, and the next commit writes it; the credentials that the change was reported
to have left alone are then lost.
-/

namespace SafeVault

/-- **Access to a vault is kept**: in a file when the write of a changed header does not fail, and in a
directory when it can be synchronised after the rename. -/
theorem changePassword_keepsAccess (S : Set Credentials) (master : Block 32) :
    (∀ (E : IndexIo.PasswordEnv) (v : Held Session), E.crypto.IdealFor S → v.holder ∈ S →
      IndexIo.HeldBy E.crypto master v.holder v.session →
      (IndexIo.fileInterface E).KeepsAccess (IndexIo.fileMedium E.crypto) S master (IndexIo.WriteFails E) v) ∧
    ∀ (E : V3.RootEnv) (v : Held V3.RootSession), E.crypto.IdealFor S → v.holder ∈ S →
      V3.RootHeldBy E.crypto master v.holder v.session →
      (V3.rootInterface E).KeepsAccess (V3.rootMedium E.crypto) S master (V3.SyncFails E) v :=
  ⟨fun _ _ hC hholder hv ↦ (IndexIo.keeps_fileInterface hC).keepsAccess hv hholder,
    fun _ _ hC hholder hv ↦ (V3.keeps_rootInterface hC).keepsAccess hv hholder⟩

/-! ## A sample -/

namespace PasswordSample

/-- Two people with the same keyfile. -/
def alice : Credentials := ⟨ascii "a", ascii "k"⟩

def bob : Credentials := ⟨ascii "b", ascii "k"⟩

def master : Block 32 := .zero 32

theorem idealFor_sample : KeyCrypto.sample.IdealFor {alice, bob} := by
  refine KeyCrypto.ideal_sample_of_injOn ?_
  rintro _ ⟨c, hc, format, rfl⟩ _ ⟨d, hd, format', rfl⟩ htag
  rcases hc with rfl | rfl <;> rcases hd with rfl | rfl <;> cases format <;> cases format' <;>
    first | rfl | exact absurd htag (by decide)

/-- A header that is wrapped for the first of them. -/
def header : Header :=
  let fresh := IndexIo.newHeader.freshWrap (.zero 16) (.zero 24)
  fresh.withWrap (KeyCrypto.sample.sealTo
    (KeyCrypto.sample.argon2 fresh.kdf (.zero 16) (Kdf.secret .domainSeparatedV2 alice)) (.zero 24)
    (IndexIo.mkWrapAd fresh) master) alice

/-- A file with this header. -/
def session : Session where
  disk := ⟨List.replicate headerSize 0, fun _ ↦ false, header.serialize⟩
  header := header

/-- Steps may fail, in one way or another. -/
def env (fault : ℕ → Fault) : IndexIo.PasswordEnv where
  toEnv := { IndexIo.calmEnv with fault }
  crypto := .sample
  salt _ := .zero 16

theorem heldBy_session : IndexIo.HeldBy .sample master alice session where
  valid := IndexIo.valid_withWrap IndexIo.valid_newHeader _ _ _ _
  room := by
    change (List.replicate headerSize (0 : UInt8)).length ≤ _
    rw [List.length_replicate]
    decide
  wraps := IndexIo.wraps_withWrap rfl
  onDisk := ⟨header, rfl, IndexIo.valid_withWrap IndexIo.valid_newHeader _ _ _ _, .refl _⟩

/-- The write of the header fails, and nothing else does. -/
def writeFails : IndexIo.PasswordEnv := env fun n ↦ if n = 5 then .after 0 else .none

theorem writeFails_session : IndexIo.WriteFails writeFails session (.change alice bob) :=
  ⟨⟨⟨master, heldBy_session.wraps.unwrap⟩, rfl, fun i hi ↦ if_neg (by change 0 + i ≠ 5; omega)⟩, by decide⟩

/-- The plain text of an empty index is short. -/
theorem length_emptyIndex_le (h : Header) :
    (IndexIo.serializePlainIndex writeFails.toEnv h IndexIo.emptyIndex).length ≤ 2 ^ 19 := by
  have hplain : (serializeIndex IndexIo.emptyIndex.root IndexIo.emptyIndex.searches
      IndexIo.emptyIndex.settings).length ≤ 2 ^ 18 := by decide +kernel
  have hlen := IndexIo.length_serializePlainIndex_le h IndexIo.emptyIndex
  change (IndexIo.serializePlainIndex IndexIo.calmEnv h IndexIo.emptyIndex).length ≤ _
  omega

/-- A directory with a header that is wrapped for the first of them. -/
def rootSession : V3.RootSession :=
  match V3.createV3Header .sample V3.sampleDraws alice {} with
  | .ok (h, _) => ⟨⟨h.serialize, []⟩, h, none, true, 0⟩
  | .error _ => ⟨⟨.zero _, []⟩, ⟨0, {}, .zero 16, false, .zero 24, .zero 32, .zero 16, .zero 16⟩, none, true, 0⟩

/-- Steps may fail. -/
def rootEnv (fails : ℕ → Bool) : V3.RootEnv where
  crypto := .sample
  draws _ := V3.sampleDraws
  fails

theorem rootHeldBy_rootSession : V3.RootHeldBy .sample master alice rootSession := by
  obtain ⟨h, hcreate⟩ : ∃ h, V3.createV3Header .sample V3.sampleDraws alice {} = .ok (h, master) := ⟨_, rfl⟩
  obtain ⟨hwraps, hflags, hkdf, hvault⟩ := V3.wraps_of_createV3Header hcreate
  refine ⟨h, ?_, ⟨hflags, V3.acceptsKdf_of_acceptsParams hwraps.acceptsParams, ?_⟩, hwraps⟩
  · rw [rootSession, hcreate]
  · rw [← Option.some.inj hvault]
    decide

/-- The directory is not synchronised after the rename. -/
def syncFails : V3.RootEnv := rootEnv (· == 7)

end PasswordSample

open PasswordSample in
/-- **A change that was reported as failed locks its holder out.** In a file, nothing fails but one write
of the header, and the next commit publishes the changed one. In a directory, nothing fails but the
synchronisation after the rename. -/
theorem failed_change_locks_out :
    (IndexIo.changePassword writeFails alice bob).outcome session = .error .ioError ∧
    (IndexIo.commitIndex writeFails.toEnv IndexIo.emptyIndex).outcome
      ((IndexIo.changePassword writeFails alice bob).final session) = .ok () ∧
    (IndexIo.fileMedium .sample).ClosedFor ((IndexIo.commitIndex writeFails.toEnv IndexIo.emptyIndex).final
      ((IndexIo.changePassword writeFails alice bob).final session)) {alice} ∧
    (V3.changePassword syncFails alice bob).outcome rootSession = .error .ioError ∧
    V3.headerKey .sample ((V3.changePassword syncFails alice bob).final rootSession).file.visible alice = none := by
  have hwp := IndexIo.wp_changePassword_of_writeFails (E := writeFails) heldBy_session idealFor_sample
    (.inl rfl) (.inl rfl) writeFails_session
  rcases hout : (IndexIo.changePassword writeFails alice bob).outcome session with e | ⟨⟩
  · obtain ⟨rfl, hclock, hsize, hahead⟩ := Proc.of_outcome_error hwp hout
    have hlen := length_emptyIndex_le ((IndexIo.changePassword writeFails alice bob).final session).header
    have hdisk : session.disk.size = headerSize := List.length_replicate
    have hfine : ∀ n, ((IndexIo.changePassword writeFails alice bob).final session).clock ≤ n →
        writeFails.fault n = .none := fun n hn ↦ if_neg fun hn5 ↦ by
      rw [hclock, hn5] at hn
      exact absurd hn (by decide)
    have hcommit := IndexIo.commitIndex_ok (fun k _ ↦ hfine _ (Nat.le_add_right _ k)) IndexIo.emptyIndex (by
      rw [hsize, hdisk, headerSize, maxFileSize]
      omega)
    refine ⟨rfl, hcommit.1, fun d hd c hc ↦ ?_, by decide +kernel, by decide +kernel⟩
    obtain rfl := Set.mem_singleton_iff.mp hc
    exact hahead.commit idealFor_sample (.inr rfl) IndexIo.emptyIndex hcommit.1 d hd alice
      ⟨.inl rfl, by decide⟩
  · exact (Proc.of_outcome_ok hwp hout).elim

open PasswordSample in
/-- Both formats, when nothing fails. -/
theorem changePassword_keepsAccess_sample :
    (IndexIo.fileMedium .sample).SafeChange master (IndexIo.changePassword (env fun _ ↦ .none) alice bob)
      session alice bob {alice, bob} ∧
    (V3.rootMedium .sample).SafeChange master (V3.changePassword (rootEnv fun _ ↦ false) alice bob) rootSession alice bob
      {alice, bob} := by
  have hwithin : ∀ p ∈ some (alice, bob), p.1 ∈ ({alice, bob} : Set Credentials) ∧ p.2 ∈ ({alice, bob} : Set Credentials) := by
    rintro p ⟨⟩
    exact ⟨.inl rfl, .inr rfl⟩
  constructor
  · exact (changePassword_keepsAccess {alice, bob} master).1 (env fun _ ↦ .none) ⟨session, alice⟩ idealFor_sample
      (.inl rfl) heldBy_session [] _ (.change alice bob) trivial rfl hwithin fun h ↦ h.2 rfl
  · refine (changePassword_keepsAccess {alice, bob} master).2 (rootEnv fun _ ↦ false) ⟨rootSession, alice⟩ idealFor_sample
      (.inl rfl) rootHeldBy_rootSession [] _ (.change alice bob) trivial rfl hwithin fun h ↦ ?_
    obtain ⟨-, -, k, -, -, hfault⟩ := h
    exact Bool.false_ne_true hfault

end SafeVault
