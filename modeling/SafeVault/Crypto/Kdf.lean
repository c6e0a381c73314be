import SafeVault.Legacy.Header

/-!
# From credentials to the key that wraps the master key

A password and a keyfile are joined to one input for Argon2. The older encoding is their
concatenation, which forgets where the one ends and the other begins; the newer one starts with a
domain tag and both lengths, and no two pairs of credentials share an encoding. Argon2 and the cipher
are libraries and enter as parameters. What is assumed of them is assumed for the inputs at hand only.
-/

namespace SafeVault

/-! ## Credentials -/

/-- A password and a keyfile, which is empty if there is none. -/
@[ext] structure Credentials where
  password : Bytes
  keyfile : Bytes := []
  deriving DecidableEq

inductive KdfInputFormat where
  | legacyConcat
  | domainSeparatedV2
  deriving DecidableEq

namespace Kdf

/-- `OSV-KDF-INPUT-2` and a zero byte. -/
def domain : Bytes := [79, 83, 86, 45, 75, 68, 70, 45, 73, 78, 80, 85, 84, 45, 50, 0]

/-- The bytes before the credentials. -/
def prefixSize : KdfInputFormat → ℕ
  | .legacyConcat => 0
  | .domainSeparatedV2 => domain.length + 8 * 2

/-- The input of Argon2. -/
def secret (format : KdfInputFormat) (c : Credentials) : Bytes :=
  (match format with
    | .legacyConcat => []
    | .domainSeparatedV2 =>
      domain ++ LittleEndian.encode 8 c.password.length ++ LittleEndian.encode 8 c.keyfile.length) ++
    c.password ++ c.keyfile

/-- The parameters that `derive_key` works with. -/
def acceptsParams (p : KdfParams) : Bool :=
  !(p.tCost == 0 || maxKdfTCost < p.tCost || p.parallelism == 0 || maxKdfParallelism < p.parallelism ||
    p.mCostKib < 8 * p.parallelism || maxKdfMCostKib < p.mCostKib)

/-- The sizes are counted in 32 bits. -/
def maxArgonInput : ℕ := 2 ^ 32 - 1

def acceptsSizes (format : KdfInputFormat) (c : Credentials) : Bool :=
  !(maxArgonInput < c.password.length || maxArgonInput < c.keyfile.length ||
    maxArgonInput - c.password.length < prefixSize format ||
    maxArgonInput - prefixSize format - c.password.length < c.keyfile.length)

end Kdf

/-! ## The libraries -/

/-- Argon2, and the cipher with a key, a nonce and associated data, on texts of the size of a key. -/
structure KeyCrypto where
  argon2 : KdfParams → Block 16 → Bytes → Block 32
  sealTo : Block 32 → Block 24 → Bytes → Block 32 → Block 32 × Block 16
  openTo : Block 32 → Block 24 → Bytes → Block 32 × Block 16 → Option (Block 32)
  openTo_sealTo : ∀ key nonce ad plain, openTo key nonce ad (sealTo key nonce ad plain) = some plain

namespace KeyCrypto

/-- On these inputs Argon2 is injective, and what is sealed under the key of one of them cannot be
opened under a different key of another one. -/
structure Ideal (C : KeyCrypto) (inputs : Set Bytes) : Prop where
  argon2 : ∀ params salt, Set.InjOn (C.argon2 params salt) inputs
  openTo : ∀ params salt, ∀ x ∈ inputs, ∀ y ∈ inputs, C.argon2 params salt x ≠ C.argon2 params salt y →
    ∀ nonce ad plain, C.openTo (C.argon2 params salt y) nonce ad
      (C.sealTo (C.argon2 params salt x) nonce ad plain) = none

theorem Ideal.mono {C : KeyCrypto} {inputs inputs' : Set Bytes} (h : C.Ideal inputs)
    (hsub : inputs' ⊆ inputs) : C.Ideal inputs' :=
  ⟨fun params salt ↦ (h.argon2 params salt).mono hsub,
    fun params salt x hx y hy ↦ h.openTo params salt x (hsub hx) y (hsub hy)⟩

/-- `derive_key`. -/
def deriveKey (C : KeyCrypto) (c : Credentials) (salt : Block 16) (params : KdfParams)
    (format : KdfInputFormat := .domainSeparatedV2) : Option (Block 32) :=
  if !Kdf.acceptsParams params then none
  else if !Kdf.acceptsSizes format c then none
  else some (C.argon2 params salt (Kdf.secret format c))

end KeyCrypto

namespace Kdf

variable {C : KeyCrypto} {c d : Credentials} {salt : Block 16} {params : KdfParams}
  {format : KdfInputFormat} {key : Block 32}

theorem acceptsSizes_iff : acceptsSizes format c = true ↔
    prefixSize format + c.password.length + c.keyfile.length ≤ maxArgonInput := by
  have hprefix : prefixSize format ≤ maxArgonInput := by
    cases format <;> decide
  simp only [acceptsSizes, Bool.not_eq_true', Bool.or_eq_false_iff, decide_eq_false_iff_not, not_lt]
  omega

/-- The parameters of a legacy header are checked in the same way. -/
theorem acceptsParams_iff {p : KdfParams} : acceptsParams p = true ↔
    (1 ≤ p.tCost ∧ p.tCost ≤ maxKdfTCost) ∧ (1 ≤ p.parallelism ∧ p.parallelism ≤ maxKdfParallelism) ∧
      8 * p.parallelism ≤ p.mCostKib ∧ p.mCostKib ≤ maxKdfMCostKib := by
  simp only [acceptsParams, Bool.not_eq_true', Bool.or_eq_false_iff, decide_eq_false_iff_not, not_lt,
    beq_eq_false_iff_ne]
  omega

theorem deriveKey_eq_some_iff : C.deriveKey c salt params format = some key ↔
    acceptsParams params = true ∧ acceptsSizes format c = true ∧
      C.argon2 params salt (secret format c) = key := by
  rw [KeyCrypto.deriveKey]
  rcases hparams : acceptsParams params with _ | _
  · simp
  rcases hsizes : acceptsSizes format c with _ | _
  · simp
  · simp

/-- **No two pairs of credentials share an input.** The lengths at the front say where the password
ends. -/
theorem secret_inj (hc : acceptsSizes .domainSeparatedV2 c = true)
    (hd : acceptsSizes .domainSeparatedV2 d = true)
    (h : secret .domainSeparatedV2 c = secret .domainSeparatedV2 d) : c = d := by
  rw [acceptsSizes_iff, maxArgonInput] at hc hd
  simp only [secret, List.append_assoc, List.append_cancel_left_eq] at h
  obtain ⟨hpassword, h⟩ := List.append_inj h (by simp)
  obtain ⟨-, h⟩ := List.append_inj h (by simp)
  -- A length below `2 ^ 64` is read back from its eight bytes.
  have hlen : c.password.length = d.password.length := by
    have hdecode := congrArg LittleEndian.decode hpassword
    rwa [LittleEndian.decode_encode, LittleEndian.decode_encode, Nat.mod_eq_of_lt (by omega),
      Nat.mod_eq_of_lt (by omega)] at hdecode
  obtain ⟨hp, hk⟩ := List.append_inj h hlen
  exact Credentials.ext hp hk

end Kdf

namespace KeyCrypto

variable {C : KeyCrypto} {c d : Credentials} {salt : Block 16} {params : KdfParams}
  {format format' : KdfInputFormat} {key key' : Block 32} {nonce : Block 24} {ad : Bytes}
  {plain : Block 32}

/-- **A wrap opens for its own input only.** -/
theorem openTo_sealTo_iff (h : C.Ideal {Kdf.secret format c, Kdf.secret format' d})
    (hkey : C.deriveKey c salt params format = some key)
    (hkey' : C.deriveKey d salt params format' = some key') {out : Block 32} :
    C.openTo key' nonce ad (C.sealTo key nonce ad plain) = some out ↔
      Kdf.secret format' d = Kdf.secret format c ∧ out = plain := by
  obtain ⟨-, -, rfl⟩ := Kdf.deriveKey_eq_some_iff.mp hkey
  obtain ⟨-, -, rfl⟩ := Kdf.deriveKey_eq_some_iff.mp hkey'
  by_cases hsecret : Kdf.secret format' d = Kdf.secret format c
  · rw [hsecret, C.openTo_sealTo, Option.some_inj, and_iff_right rfl]
    exact eq_comm
  · have hne : C.argon2 params salt (Kdf.secret format c) ≠ C.argon2 params salt (Kdf.secret format' d) :=
      fun heq ↦ hsecret (h.argon2 params salt (by simp) (by simp) heq).symm
    rw [h.openTo params salt _ (by simp) _ (by simp) hne]
    exact iff_of_false (by exact nofun) fun hsame ↦ hsecret hsame.1

/-- A derivation that keeps the last bytes of its input, and a cipher that puts half of the key behind
the text. -/
def sample : KeyCrypto where
  argon2 _ _ x := .ofSlice 32 ((x.reverse ++ List.replicate 32 0).take 32)
  sealTo key _ _ plain := (plain, .ofSlice 16 (key.bytes.take 16))
  openTo key _ _ sealed := if sealed.2 = .ofSlice 16 (key.bytes.take 16) then some sealed.1 else none
  openTo_sealTo _ _ _ _ := if_pos rfl

/-- The tag that the sample puts behind what is sealed for an input. -/
def sampleTag (x : Bytes) : Block 16 := .ofSlice 16 ((sample.argon2 {} (.zero 16) x).bytes.take 16)

/-- The sample is good enough for inputs that differ in what it keeps. -/
theorem ideal_sample_of_injOn {inputs : Set Bytes} (h : Set.InjOn sampleTag inputs) : sample.Ideal inputs where
  argon2 _ _ _ hx _ hy hxy := h hx hy (congrArg (fun key : Block 32 ↦ Block.ofSlice 16 (key.bytes.take 16)) hxy)
  openTo _ _ x hx y hy hxy _ _ _ :=
    if_neg fun htag : sampleTag x = sampleTag y ↦ hxy (congrArg (sample.argon2 {} (.zero 16)) (h hx hy htag))

/-- The sample is good enough for two inputs that differ in what it keeps. -/
theorem ideal_sample {x y : Bytes} (h : sampleTag x ≠ sampleTag y) : sample.Ideal {x, y} := by
  refine ideal_sample_of_injOn fun a ha b hb hab ↦ ?_
  rcases ha with rfl | rfl <;> rcases hb with rfl | rfl
  · rfl
  · exact absurd hab h
  · exact absurd hab.symm h
  · rfl

end KeyCrypto

end SafeVault
