import SafeVault.V3.Session

/-!
# An open vault with a database

Every operation edits the live state of the vault and then commits all of it. Whether the commit goes
through depends on the outside world and on the live state: the parts an operation does not touch
have to be storable as well. The saved searches go in last, so a commit goes through when everything
before them does and the list of searches is admissible.
-/

namespace SafeVault

namespace V3

/-- What the outside world answers to the parts of a commit. -/
structure Storage where
  status : Phase → DbStatus
  references : DbStatus

/-- Nothing outside stands in the way. -/
def Storage.fine : Storage := ⟨fun _ ↦ .ok, .ok⟩

structure OpenVault where
  unlocked : Bool
  legacyReadOnly : Bool
  root : IndexNode
  settings : VaultSettings
  searches : List SavedSearch
  session : ReadSession

namespace OpenVault

/-- The checks at the head of an operation that edits the vault. -/
def writable (v : OpenVault) : VaultResult :=
  if !v.unlocked then .locked else if v.legacyReadOnly then .invalidArg else .ok

/-- A new vault: an empty gallery on an empty database. One identity does for the vault and its
root. -/
def fresh (id : NodeId) : OpenVault :=
  let root : IndexNode := .branch { name := [], nodeId := id } []
  { unlocked := true
    legacyReadOnly := false
    root
    settings := {}
    searches := []
    session :=
      { vaultId := id
        unlocked := true
        db := ⟨root, [], {}⟩
        root
        settings := {}
        searches := []
        objects := []
        objectIndex := fun _ ↦ none } }

section Commit

variable (nocase : Bytes → Bytes → Bool) (storage : Storage)

/-- `commit_index`. -/
def commitIndex (v : OpenVault) : VaultResult × OpenVault :=
  let out := v.session.commitMetadata nocase storage.status storage.references v.root v.settings
    v.searches
  (mapV3ReadStatus out.1, { v with session := out.2 })

/-- Everything in a commit but the saved searches goes through. -/
structure RestStores (v : OpenVault) : Prop where
  opened : v.session.unlocked = true
  tables : ∃ db, syncTables nocase storage.status v.root v.settings v.session.stagedObjects
    v.session.db = .ok db
  searches : storage.status .savedSearches = .ok
  commit : storage.status .commit = .ok
  references : storage.references = .ok

end Commit

end OpenVault

/-! ## Admissible lists of searches -/

/-- The lists of saved searches that the table takes. -/
structure AdmissibleSearches (nocase : Bytes → Bytes → Bool) (searches : List SavedSearch) :
    Prop where
  count : searches.length ≤ 4096
  fits : ∀ s ∈ searches, within 1 255 s.name = true ∧ within 1 1048576 s.query = true
  apart : searches.Pairwise fun s t ↦ nocase s.name t.name = false

variable {nocase : Bytes → Bytes → Bool} {storage : Storage} {searches : List SavedSearch}
  {v : OpenVault}

theorem within_iff {low high : ℕ} {text : Bytes} :
    within low high text = true ↔ low ≤ text.length ∧ text.length ≤ high := by
  rw [within, Bool.and_eq_true, decide_eq_true_iff, decide_eq_true_iff]

theorem check_savedSearchRule_iff {r : SavedSearchRecord} :
    (savedSearchRule nocase).check r = .ok () ↔
      0 < r.searchId ∧ within 1 255 r.displayName = true ∧ within 1 1048576 r.query = true := by
  simp only [savedSearchRule, require_bind_eq_ok_iff, require_eq_ok_iff, Bool.and_eq_true,
    decide_eq_true_iff, Bool.not_eq_true', List.isEmpty_eq_false_iff, within_iff,
    ← List.length_pos_iff, Nat.succ_le_iff]
  constructor
  · rintro ⟨⟨⟨hid, hname⟩, hquery⟩, hpos⟩
    exact ⟨hid, hname, hpos, hquery⟩
  · rintro ⟨hid, hname, hpos, hquery⟩
    exact ⟨⟨⟨hid, hname⟩, hquery⟩, hpos⟩

theorem length_savedSearchRows : (savedSearchRows searches).length = searches.length := by
  rw [savedSearchRows, List.length_map, List.length_zipIdx]

theorem getElem_savedSearchRows {i : ℕ} (h : i < (savedSearchRows searches).length)
    (hi : i < searches.length) :
    (savedSearchRows searches)[i] = ⟨i + 1, searches[i].name, searches[i].query⟩ := by
  simp [savedSearchRows]

/-- Reading the rows back gives the list. -/
theorem readSavedSearches_savedSearchRows (m : Metadata) :
    readSavedSearches { m with savedSearches := savedSearchRows searches } = searches := by
  rw [readSavedSearches, savedSearchRows, List.map_map]
  exact List.zipIdx_map_fst 0 searches

/-- The rows of a list go in exactly when the list is admissible. -/
theorem admits_savedSearchRows_iff :
    Table.Admits (savedSearchRule nocase) [] (savedSearchRows searches) ↔
      AdmissibleSearches nocase searches := by
  constructor
  · rintro ⟨hcheck, hroom, -, hdistinct⟩
    rw [length_savedSearchRows] at hroom
    refine ⟨?_, fun s hs ↦ ?_, ?_⟩
    · by_contra hlong
      have h := hroom 4096 (Nat.lt_of_not_le hlong)
      simp [savedSearchRule] at h
    · obtain ⟨i, hi, rfl⟩ := List.getElem_of_mem hs
      have h := hcheck _ (List.getElem_mem (length_savedSearchRows.symm ▸ hi))
      rw [getElem_savedSearchRows _ hi, check_savedSearchRule_iff] at h
      exact h.2
    · rw [List.pairwise_iff_getElem] at hdistinct ⊢
      intro i j hi hj hij
      have h := hdistinct i j (length_savedSearchRows.symm ▸ hi) (length_savedSearchRows.symm ▸ hj) hij
      rw [getElem_savedSearchRows _ hi, getElem_savedSearchRows _ hj] at h
      exact (Bool.or_eq_false_iff.mp h).2
  · rintro ⟨hcount, hfits, hapart⟩
    refine ⟨fun r hr ↦ ?_, fun n hn ↦ ?_, fun _ hr ↦ absurd hr List.not_mem_nil, ?_⟩
    · obtain ⟨i, hi, rfl⟩ := List.getElem_of_mem hr
      rw [getElem_savedSearchRows _ (length_savedSearchRows ▸ hi), check_savedSearchRule_iff]
      exact ⟨Nat.succ_pos i, hfits _ (List.getElem_mem _)⟩
    · rw [length_savedSearchRows] at hn
      simpa [savedSearchRule] using Nat.lt_of_lt_of_le hn hcount
    · rw [List.pairwise_iff_getElem] at hapart ⊢
      intro i j hi hj hij
      rw [getElem_savedSearchRows hi (length_savedSearchRows ▸ hi),
        getElem_savedSearchRows hj (length_savedSearchRows ▸ hj)]
      refine Bool.or_eq_false_iff.mpr ⟨?_, ?_⟩
      · simpa using Nat.ne_of_lt hij
      · exact hapart i j _ _ hij

theorem writeSavedSearches_eq_ok_iff {m m' : Metadata} :
    writeSavedSearches nocase searches m = .ok m' ↔
      AdmissibleSearches nocase searches ∧
        m' = { m with savedSearches := savedSearchRows searches } := by
  rw [writeSavedSearches, bind_eq_ok_iff]
  simp only [Table.insertAll_eq_ok_iff, admits_savedSearchRows_iff, List.nil_append]
  constructor
  · rintro ⟨rows, ⟨hadm, rfl⟩, h⟩
    cases h
    exact ⟨hadm, rfl⟩
  · rintro ⟨hadm, rfl⟩
    exact ⟨_, ⟨hadm, rfl⟩, rfl⟩

theorem mapV3ReadStatus_eq_ok_iff {r : ReadStatus} : mapV3ReadStatus r = .ok ↔ r = .ok := by
  cases r <;> simp [mapV3ReadStatus]

/-- **When a commit goes through**: the rest has to, and the searches have to be admissible. -/
theorem commitIndex_eq_ok_iff : (v.commitIndex nocase storage).1 = .ok ↔
    v.RestStores nocase storage ∧ AdmissibleSearches nocase v.searches := by
  rw [OpenVault.commitIndex, mapV3ReadStatus_eq_ok_iff]
  rcases commitMetadata_cases nocase storage.status storage.references v.root v.settings v.searches
    v.session with ⟨hr, -, hfail⟩ | ⟨hr, href, -⟩ | ⟨hr, hopen, href, db, hsync, -⟩
  · refine iff_of_false hr ?_
    rintro ⟨h, hadm⟩
    rcases hfail with hclosed | ⟨e, hsync⟩
    · rw [h.opened] at hclosed
      cases hclosed
    · obtain ⟨mid, hmid⟩ := h.tables
      have hdone := syncMetadata_eq_ok_iff.mpr ⟨mid, hmid, h.searches, h.commit, _,
        writeSavedSearches_eq_ok_iff.mpr ⟨hadm, rfl⟩, rfl⟩
      rw [hsync] at hdone
      cases hdone
  · exact iff_of_false hr fun h ↦ href h.1.references
  · obtain ⟨mid, hmid, hsearches, hcommit, metadata, hwrite, -⟩ := syncMetadata_eq_ok_iff.mp hsync
    exact iff_of_true hr ⟨⟨hopen, ⟨mid, hmid⟩, hsearches, hcommit, href⟩,
      (writeSavedSearches_eq_ok_iff.mp hwrite).1⟩

/-- A commit leaves the live state as it is. -/
@[simp] theorem commitIndex_searches : (v.commitIndex nocase storage).2.searches = v.searches := rfl

/-- After a commit that went through, the database has the live searches. -/
theorem readSavedSearches_of_commitIndex (h : (v.commitIndex nocase storage).1 = .ok) :
    readSavedSearches (v.commitIndex nocase storage).2.session.db.metadata = v.searches := by
  rw [OpenVault.commitIndex, mapV3ReadStatus_eq_ok_iff] at h
  rcases commitMetadata_cases nocase storage.status storage.references v.root v.settings v.searches
    v.session with ⟨hr, -⟩ | ⟨hr, -⟩ | ⟨-, -, -, db, hsync, hout⟩
  · exact absurd h hr
  · exact absurd h hr
  obtain ⟨mid, -, -, -, metadata, hwrite, hdb⟩ := syncMetadata_eq_ok_iff.mp hsync
  obtain ⟨-, rfl⟩ := writeSavedSearches_eq_ok_iff.mp hwrite
  rw [OpenVault.commitIndex, show _ = _ from hout, ReadSession.rebuild, hdb]
  exact readSavedSearches_savedSearchRows mid.metadata

end V3

end SafeVault
