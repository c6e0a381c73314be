import SafeVault.Vault.Structure

/-!
# An open vault

The state of a session: the live tree, settings and saved searches, and what was last committed. An
operation works on the live state and then commits it; whether the commit succeeds is up to the
storage, so every operation here takes that outcome as an argument. A failed commit leaves the
committed state alone, and what becomes of the live state is the operation's own business.
-/

namespace SafeVault

/-- Everything a commit makes durable. -/
structure Snapshot (μ : Type) where
  root : Node μ
  settings : VaultSettings
  searches : List SavedSearch

/-- A session: flags fixed at unlock, the live state and the committed one. -/
structure Vault (μ : Type) where
  unlocked : Bool
  /-- Whether the vault is a directory with a database, rather than a single file. -/
  v3 : Bool
  legacyReadOnly : Bool
  root : Node μ
  settings : VaultSettings
  searches : List SavedSearch
  committed : Snapshot μ

namespace Vault

variable {μ : Type}

/-- The live state, as a commit would make it durable. -/
def live (v : Vault μ) : Snapshot μ := ⟨v.root, v.settings, v.searches⟩

/-- The checks at the head of an operation that edits the vault. -/
def writable (v : Vault μ) : VaultResult :=
  if !v.unlocked then .locked else if v.legacyReadOnly then .invalidArg else .ok

/-- `commit_index`, with the outcome of the storage given. -/
def commitIndex (outcome : VaultResult) (v : Vault μ) : VaultResult × Vault μ :=
  if !v.v3 && v.legacyReadOnly then (.invalidArg, v)
  else (outcome, if outcome = .ok then { v with committed := v.live } else v)

/-- A commit changes nothing but the committed state, and that only to the live one. -/
theorem commitIndex_snd (outcome : VaultResult) (v : Vault μ) :
    (v.commitIndex outcome).2 = v ∨ (v.commitIndex outcome).2 = { v with committed := v.live } := by
  rw [commitIndex]
  split_ifs
  · exact Or.inl rfl
  · exact Or.inr rfl
  · exact Or.inl rfl

end Vault

end SafeVault
