import SafeVault.Index.RoundTrip
import SafeVault.V3.SavedSearches

/-!
# Saved queries

A query that is saved is a blob inside the record of a saved search. The database either takes the
record as it is or refuses the commit. The single file cuts names, blobs and the list to the limits
of its format, so there a record comes back as it was exactly when it is within them.
-/

open SafeVault.Read

namespace SafeVault

/-! ## What the single file keeps of a search -/

/-- A saved search as it is written to a single file. -/
def SavedSearch.clamp (s : SavedSearch) : SavedSearch :=
  ⟨s.name.take 0xFFFF, s.query.take indexMaxSavedQueryBytes⟩

def clampSearches (searches : List SavedSearch) : List SavedSearch :=
  (searches.take indexMaxSavedSearches).map SavedSearch.clamp

variable {s : SavedSearch} {searches : List SavedSearch}

theorem fits_clamp : s.clamp.Fits where
  name := List.length_take_le _ _
  query := List.length_take_le _ _

theorem clamp_eq_self_iff : s.clamp = s ↔ s.Fits := by
  constructor
  · intro h
    exact h ▸ fits_clamp
  · rintro ⟨hname, hquery⟩
    rw [SavedSearch.clamp, List.take_of_length_le hname, List.take_of_length_le hquery]

theorem writeSavedSearch_clamp : writeSavedSearch s.clamp = writeSavedSearch s := by
  rw [writeSavedSearch, writeSavedSearch, SavedSearch.clamp, ByteWriter.str, ByteWriter.str]
  simp only [List.take_take, List.length_take, min_self, min_comm _ s.name.length,
    min_comm _ s.query.length, min_assoc]

theorem storable_clampSearches : SavedSearch.Storable (clampSearches searches) where
  count := by
    rw [clampSearches, List.length_map]
    exact List.length_take_le _ _
  fits s hs := by
    obtain ⟨t, -, rfl⟩ := List.mem_map.mp hs
    exact fits_clamp

theorem clampSearches_eq_self_iff :
    clampSearches searches = searches ↔ SavedSearch.Storable searches := by
  constructor
  · intro h
    exact h ▸ storable_clampSearches
  · rintro ⟨hcount, hfits⟩
    rw [clampSearches, List.take_of_length_le hcount]
    exact (List.map_congr_left fun s hs ↦ clamp_eq_self_iff.mpr (hfits s hs)).trans
      (List.map_id searches)

theorem writeSavedSearches_clampSearches :
    writeSavedSearches (clampSearches searches) = writeSavedSearches searches := by
  rw [writeSavedSearches, writeSavedSearches, ByteWriter.list, ByteWriter.list, clampSearches,
    List.length_map, List.length_take, min_comm _ searches.length, min_assoc, min_self,
    ← List.map_take, List.take_take, min_self, List.flatMap_map]
  simp only [writeSavedSearch_clamp]

/-- The block of saved searches reads as the clamped list. -/
theorem frames_clampSearches :
    Frames readSavedSearches (writeSavedSearches searches) (clampSearches searches) :=
  writeSavedSearches_clampSearches ▸ frames_savedSearches storable_clampSearches

/-! ## Saving and reading back -/

/-- A search is stored under its name. -/
theorem mem_setQuery {name blob : Bytes} (h : searches.any (·.name == name) = true) :
    ⟨name, blob⟩ ∈ V3.setQuery name blob searches := by
  induction searches with
  | nil => cases h
  | cons s rest ih =>
    rw [V3.setQuery]
    split_ifs with hname
    · rw [hname]
      exact List.mem_cons_self
    · rw [List.any_cons, Bool.or_eq_true, beq_iff_eq] at h
      exact List.mem_cons_of_mem _ (ih (h.resolve_left hname))

theorem mem_edited {v : V3.OpenVault} {name : Bytes} {q : AdvancedQuery} {l : List SavedSearch}
    (h : (V3.SearchEdit.save name q).edited v = some l) : ⟨name, serializeQuery q⟩ ∈ l := by
  simp only [V3.SearchEdit.edited] at h
  split_ifs at h with hwritable hempty hold hfull
  · exact Option.some.inj h ▸ mem_setQuery hold
  · exact Option.some.inj h ▸ List.mem_append_right _ List.mem_cons_self

/-- What a successful call stores is read back at the next unlock. -/
theorem mem_readSavedSearches_of_saveSearch {nocase : Bytes → Bytes → Bool} {storage : V3.Storage}
    {v : V3.OpenVault} {name : Bytes} {q : AdvancedQuery}
    (h : (V3.saveSearch nocase storage name q v).1 = .ok) :
    let out := V3.saveSearch nocase storage name q v
    V3.readSavedSearches out.2.session.db.metadata = out.2.searches ∧
      ⟨name, serializeQuery q⟩ ∈ out.2.searches := by
  rcases hedit : (V3.SearchEdit.save name q).edited v with _ | l
  · exact absurd h (V3.apply_of_refused (c := ⟨.save name q, storage⟩) hedit).1
  · have hout : V3.saveSearch nocase storage name q v = _ :=
      V3.apply_of_edited (c := ⟨.save name q, storage⟩) hedit
    rw [hout] at h ⊢
    exact ⟨V3.readSavedSearches_of_commitIndex h, mem_edited hedit⟩

/-- **The codec of saved queries.** A query within the limits is read back from its blob. A blob that
is accepted is the blob of its query up to the bytes of enumerations, hence exactly that blob when
these are in range. A database has a saved query as it was, or the call fails. A single file has
every saved search cut to its limits, hence as it was when it is within them. -/
theorem savedQuery_read_back (nocase : Bytes → Bytes → Bool) :
    (∀ q : AdvancedQuery, q.Fits → deserializeQuery (serializeQuery q) = some q) ∧
    (∀ blob q, deserializeQuery blob = some q → q.Fits ∧ ∃ cs j s, Query.Reads cs j s q ∧
      blob = Query.serializeQueryAs cs j s q ∧
      ((∀ c ∈ cs, c ≤ 1) → j ≤ 1 → s ≤ 2 → serializeQuery q = blob)) ∧
    (∀ (storage : V3.Storage) (v : V3.OpenVault) (name : Bytes) (q : AdvancedQuery), q.Fits →
      let out := V3.saveSearch nocase storage name q v
      out.1 = .ok → ∃ s ∈ V3.readSavedSearches out.2.session.db.metadata,
        s.name = name ∧ deserializeQuery s.query = some q) ∧
    (∀ searches, Frames readSavedSearches (writeSavedSearches searches) (clampSearches searches) ∧
      (clampSearches searches = searches ↔ SavedSearch.Storable searches)) := by
  refine ⟨fun q ↦ deserializeQuery_serializeQuery, fun blob q h ↦ ?_, fun storage v name q hq ↦ ?_,
    fun searches ↦ ⟨frames_clampSearches, clampSearches_eq_self_iff⟩⟩
  · obtain ⟨hfits, cs, j, s, hreads, rfl⟩ := spelled_of_deserializeQuery h
    refine ⟨hfits, cs, j, s, hreads, rfl, fun hcs hj hs ↦ ?_⟩
    obtain ⟨rfl, rfl, rfl⟩ := hreads.eq_of_le hcs hj hs
    exact Query.serializeQuery_eq hfits.groupCount
  · intro out hok
    obtain ⟨hread, hmem⟩ := mem_readSavedSearches_of_saveSearch hok
    refine ⟨⟨name, serializeQuery q⟩, ?_, rfl, deserializeQuery_serializeQuery hq⟩
    rw [hread]
    exact hmem

/-- A query with a term of each kind, saved in a new vault. -/
theorem savedQuery_read_back_one :
    let q : AdvancedQuery :=
      { includes := [⟨[97], -2⟩], excludes := [[98]], groups := [⟨[99], .and, [[100]]⟩],
        nameQuery := [101], scope := .images }
    let v := V3.OpenVault.fresh (.ofBytes (List.replicate 16 1))
    deserializeQuery (serializeQuery q) = some q ∧
      ∃ s ∈ V3.readSavedSearches (V3.saveSearch tagCiEqual .fine [97] q v).2.session.db.metadata,
        s.name = [97] ∧ deserializeQuery s.query = some q := by
  intro q v
  have hq : q.Fits := ⟨by decide, by decide, by decide, by decide, by decide,
    fun g hg ↦ List.mem_singleton.mp hg ▸ ⟨by decide, by decide, by decide⟩, by decide⟩
  have h := savedQuery_read_back tagCiEqual
  exact ⟨h.1 q hq, h.2.2.1 .fine v [97] q hq (by decide +kernel)⟩

/-- A query can have a blob of any length. -/
theorem mul_le_length_serializeQuery {n : ℕ} {t : Bytes} (hn : n ≤ Query.maxList)
    (ht : t.length ≤ Query.maxStrlen) :
    n * t.length ≤ (serializeQuery { excludes := List.replicate n t }).length := by
  have hstring : (Query.writeString t).length = 2 + t.length := by
    rw [Query.writeString, ByteWriter.str, List.length_append, List.take_of_length_le ht]
    rfl
  have hlist : (ByteWriter.list Query.maxList Query.writeString (List.replicate n t)).length =
      2 + n * (2 + t.length) := by
    rw [ByteWriter.list, List.length_append, List.take_of_length_le (List.length_replicate ▸ hn),
      List.flatMap_replicate, List.length_flatten, List.map_replicate, List.sum_replicate, hstring]
    rfl
  simp only [serializeQuery, List.length_append, hlist, Nat.mul_add]
  omega

/-- A blob with a scope of no meaning is accepted, and its query has another blob; a query within the
limits whose blob is too long for a single file comes back cut. -/
theorem savedQuery_not_read_back :
    (∃ blob q, deserializeQuery blob = some q ∧ serializeQuery q ≠ blob) ∧
    ∃ q : AdvancedQuery, q.Fits ∧ ∃ s, s ≠ ⟨[97], serializeQuery q⟩ ∧
      Frames readSavedSearches (writeSavedSearches [⟨[97], serializeQuery q⟩]) [s] := by
  refine ⟨⟨[1, 0, 0, 0, 0, 0, 0, 0, 0, 0, 7], {}, by decide +kernel, by decide +kernel⟩, ?_⟩
  let q : AdvancedQuery := { excludes := List.replicate 17 (List.replicate 65535 97) }
  have hlong : ¬ SavedSearch.Fits ⟨[97], serializeQuery q⟩ := by
    intro h
    have hblob := mul_le_length_serializeQuery (n := 17) (t := List.replicate 65535 97)
      (by decide) (Nat.le_of_eq List.length_replicate)
    rw [List.length_replicate] at hblob
    have hquery := Nat.le_trans hblob h.query
    exact absurd hquery (by decide)
  refine ⟨q, ⟨Nat.zero_le _, nofun, ?_, fun t ht ↦ ?_, Nat.zero_le _, nofun, Nat.zero_le _⟩, _,
    clamp_eq_self_iff.not.mpr hlong, frames_clampSearches⟩
  · exact Nat.le_trans (Nat.le_of_eq List.length_replicate) (by decide)
  · rw [List.eq_of_mem_replicate ht]
    exact Nat.le_of_eq List.length_replicate

end SafeVault
