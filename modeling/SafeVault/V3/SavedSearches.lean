import SafeVault.Lib.History
import SafeVault.Search.QueryCodec
import SafeVault.V3.OpenVault

/-!
# Saving and deleting searches

`save_search` compares names byte by byte, the table by its collation, and the table has limits on
lengths the call does not look at. The call edits the live list and commits; when the commit fails
the edit stays. So a call is atomic when it is refused before the edit, or when its commit goes
through, or when it edits nothing, and in no other case. While every call is of the first two kinds
the live list stays admissible, and then what decides about a commit is only the search that is
saved.
-/

namespace SafeVault

namespace V3

/-! ## The calls -/

/-- Give the first search of this name a new query. -/
def setQuery (name blob : Bytes) : List SavedSearch → List SavedSearch
  | [] => []
  | s :: rest => if s.name = name then ⟨s.name, blob⟩ :: rest else s :: setQuery name blob rest

section Calls

variable (nocase : Bytes → Bytes → Bool) (storage : Storage)

/-- `save_search`. -/
def saveSearch (name : Bytes) (query : AdvancedQuery) (v : OpenVault) : VaultResult × OpenVault :=
  if !v.unlocked then (.locked, v)
  else if v.legacyReadOnly then (.invalidArg, v)
  else if name.isEmpty then (.invalidArg, v)
  else
    let blob := serializeQuery query
    if v.searches.any (·.name == name) then
      OpenVault.commitIndex nocase storage { v with searches := setQuery name blob v.searches }
    else if indexMaxSavedSearches ≤ v.searches.length then (.invalidArg, v)
    else OpenVault.commitIndex nocase storage { v with searches := v.searches ++ [⟨name, blob⟩] }

/-- `delete_saved_search`. -/
def deleteSavedSearch (name : Bytes) (v : OpenVault) : VaultResult × OpenVault :=
  if !v.unlocked then (.locked, v)
  else if v.legacyReadOnly then (.invalidArg, v)
  else if v.searches.any (·.name == name) then
    OpenVault.commitIndex nocase storage { v with searches := v.searches.eraseP (·.name == name) }
  else (.notFound, v)

end Calls

inductive SearchEdit
  | save (name : Bytes) (query : AdvancedQuery)
  | delete (name : Bytes)

/-- A call, with what the outside world answers to its commit. -/
structure SearchCall where
  edit : SearchEdit
  storage : Storage

def SearchCall.apply (nocase : Bytes → Bytes → Bool) (c : SearchCall) (v : OpenVault) :
    VaultResult × OpenVault :=
  match c.edit with
  | .save name query => saveSearch nocase c.storage name query v
  | .delete name => deleteSavedSearch nocase c.storage name v

/-- The list a call wants to commit; none when the call is refused before. -/
def SearchEdit.edited (v : OpenVault) (e : SearchEdit) : Option (List SavedSearch) :=
  if v.writable ≠ .ok then none
  else
    match e with
    | .save name query =>
      if name.isEmpty then none
      else if v.searches.any (·.name == name) then
        some (setQuery name (serializeQuery query) v.searches)
      else if indexMaxSavedSearches ≤ v.searches.length then none
      else some (v.searches ++ [⟨name, serializeQuery query⟩])
    | .delete name =>
      if v.searches.any (·.name == name) then some (v.searches.eraseP (·.name == name)) else none

/-- The search a call saves fits into the table beside the searches that are there. -/
def SearchEdit.Fits (nocase : Bytes → Bytes → Bool) (searches : List SavedSearch) :
    SearchEdit → Prop
  | .save name query =>
    (serializeQuery query).length ≤ 1048576 ∧
      (searches.any (·.name == name) = true ∨
        name.length ≤ 255 ∧ ∀ s ∈ searches, nocase s.name name = false)
  | .delete _ => True

/-- A call that is refused before its edit, or whose edit fits while the rest of the vault can be
stored. -/
def SearchCall.Accepted (nocase : Bytes → Bytes → Bool) (v : OpenVault) (c : SearchCall) : Prop :=
  c.edit.edited v = none ∨ v.RestStores nocase c.storage ∧ c.edit.Fits nocase v.searches

variable {nocase : Bytes → Bytes → Bool} {storage : Storage} {v w : OpenVault} {c : SearchCall}
  {e : SearchEdit} {name blob : Bytes} {query : AdvancedQuery} {searches l : List SavedSearch}

theorem length_serializeQuery_pos : 0 < (serializeQuery query).length := by
  rw [serializeQuery]
  simp [ByteWriter.u8]

/-! ## What a call does -/

/-- A call that is refused changes nothing. -/
theorem apply_of_refused (h : c.edit.edited v = none) :
    (c.apply nocase v).1 ≠ .ok ∧ (c.apply nocase v).2 = v := by
  obtain ⟨edit, storage⟩ := c
  rcases edit with ⟨name, query⟩ | ⟨name⟩
  · simp only [SearchEdit.edited, OpenVault.writable] at h
    simp only [SearchCall.apply, saveSearch]
    split_ifs at h ⊢ <;> simp_all
  · simp only [SearchEdit.edited, OpenVault.writable] at h
    simp only [SearchCall.apply, deleteSavedSearch]
    split_ifs at h ⊢ <;> simp_all

/-- Any other call commits its edit. -/
theorem apply_of_edited (h : c.edit.edited v = some l) :
    c.apply nocase v = OpenVault.commitIndex nocase c.storage { v with searches := l } := by
  obtain ⟨edit, storage⟩ := c
  rcases edit with ⟨name, query⟩ | ⟨name⟩
  · simp only [SearchEdit.edited, OpenVault.writable] at h
    simp only [SearchCall.apply, saveSearch]
    split_ifs at h ⊢ <;> simp_all
  · simp only [SearchEdit.edited, OpenVault.writable] at h
    simp only [SearchCall.apply, deleteSavedSearch]
    split_ifs at h ⊢ <;> simp_all

/-! ## When the edited list is admissible -/

theorem AdmissibleSearches.sublist (h : AdmissibleSearches nocase searches)
    (hl : l.Sublist searches) : AdmissibleSearches nocase l where
  count := Nat.le_trans hl.length_le h.count
  fits s hs := h.fits s (hl.subset hs)
  apart := h.apart.sublist hl

theorem length_setQuery : (setQuery name blob searches).length = searches.length := by
  induction searches with
  | nil => rfl
  | cons s rest ih =>
    rw [setQuery]
    split_ifs
    · rfl
    · rw [List.length_cons, List.length_cons, ih]

theorem map_name_setQuery :
    (setQuery name blob searches).map (·.name) = searches.map (·.name) := by
  induction searches with
  | nil => rfl
  | cons s rest ih =>
    rw [setQuery]
    split_ifs
    · rfl
    · rw [List.map_cons, List.map_cons, ih]

/-- The queries of the edited list: the new one, and old ones. -/
theorem forall_setQuery_iff {P : Bytes → Prop} (h : searches.any (·.name == name) = true)
    (hP : ∀ s ∈ searches, P s.query) : (∀ s ∈ setQuery name blob searches, P s.query) ↔ P blob := by
  induction searches with
  | nil => cases h
  | cons s rest ih =>
    rw [List.forall_mem_cons] at hP
    rw [setQuery]
    split_ifs with hname
    · rw [List.forall_mem_cons]
      exact ⟨fun h ↦ h.1, fun h ↦ ⟨h, hP.2⟩⟩
    · rw [List.any_cons, Bool.or_eq_true, beq_iff_eq] at h
      rw [List.forall_mem_cons, ih (h.resolve_left hname) hP.2]
      exact ⟨fun h ↦ h.2, fun h ↦ ⟨hP.1, h⟩⟩

theorem apart_iff_map_name : searches.Pairwise (fun s t ↦ nocase s.name t.name = false) ↔
    (searches.map (·.name)).Pairwise fun a b ↦ nocase a b = false := by
  rw [List.pairwise_map]

/-- An old name keeps the names as they are, so only the query matters. -/
theorem admissible_setQuery_iff (hadm : AdmissibleSearches nocase searches)
    (h : searches.any (·.name == name) = true) (hblob : 0 < blob.length) :
    AdmissibleSearches nocase (setQuery name blob searches) ↔ blob.length ≤ 1048576 := by
  have hfits : blob.length ≤ 1048576 ↔ within 1 1048576 blob = true := by
    rw [within_iff]
    exact ⟨fun h ↦ ⟨hblob, h⟩, fun h ↦ h.2⟩
  rw [hfits, ← forall_setQuery_iff (P := fun q ↦ within 1 1048576 q = true) h
    fun s hs ↦ (hadm.fits s hs).2]
  constructor
  · exact fun h s hs ↦ (h.fits s hs).2
  · intro hall
    refine ⟨?_, fun s hs ↦ ⟨?_, hall s hs⟩, ?_⟩
    · rw [length_setQuery]
      exact hadm.count
    · have hmem : s.name ∈ (setQuery name blob searches).map (·.name) := List.mem_map_of_mem hs
      rw [map_name_setQuery] at hmem
      obtain ⟨t, ht, hts⟩ := List.mem_map.mp hmem
      exact hts ▸ (hadm.fits t ht).1
    · rw [apart_iff_map_name, map_name_setQuery, ← apart_iff_map_name]
      exact hadm.apart

/-- A new name has to be short and different from the others for the collation too. -/
theorem admissible_concat_iff (hadm : AdmissibleSearches nocase searches)
    (hroom : searches.length < 4096) (hname : 0 < name.length) (hblob : 0 < blob.length) :
    AdmissibleSearches nocase (searches ++ [⟨name, blob⟩]) ↔
      blob.length ≤ 1048576 ∧ name.length ≤ 255 ∧ ∀ s ∈ searches, nocase s.name name = false := by
  constructor
  · rintro ⟨-, hfits, hapart⟩
    have hnew := hfits ⟨name, blob⟩ (List.mem_append_right _ List.mem_cons_self)
    rw [within_iff, within_iff] at hnew
    exact ⟨hnew.2.2, hnew.1.2, fun s hs ↦
      (List.pairwise_append.mp hapart).2.2 s hs _ List.mem_cons_self⟩
  · rintro ⟨hquery, hlong, hapart⟩
    refine ⟨?_, fun s hs ↦ ?_, List.pairwise_append.mpr
      ⟨hadm.apart, List.pairwise_singleton _ _, fun s hs t ht ↦ ?_⟩⟩
    · rw [List.length_append, List.length_singleton]
      exact hroom
    · rcases List.mem_append.mp hs with hs | hs
      · exact hadm.fits s hs
      · rw [List.mem_singleton.mp hs, within_iff, within_iff]
        exact ⟨⟨hname, hlong⟩, hblob, hquery⟩
    · rw [List.mem_singleton.mp ht]
      exact hapart s hs

/-- The edited list of a call is admissible exactly when the edit fits. -/
theorem admissible_edited_iff (hadm : AdmissibleSearches nocase v.searches)
    (h : e.edited v = some l) : AdmissibleSearches nocase l ↔ e.Fits nocase v.searches := by
  rcases e with ⟨name, query⟩ | ⟨name⟩
  · simp only [SearchEdit.edited] at h
    split_ifs at h with hwritable hempty hold hfull
    · obtain rfl := Option.some.inj h
      rw [admissible_setQuery_iff hadm hold length_serializeQuery_pos, SearchEdit.Fits]
      exact ⟨fun h ↦ ⟨h, .inl hold⟩, fun h ↦ h.1⟩
    · obtain rfl := Option.some.inj h
      have hname : 0 < name.length := List.length_pos_iff.mpr (by simpa using hempty)
      rw [admissible_concat_iff hadm (Nat.lt_of_not_le hfull) hname length_serializeQuery_pos,
        SearchEdit.Fits, or_iff_right hold]
  · simp only [SearchEdit.edited] at h
    split_ifs at h
    obtain rfl := Option.some.inj h
    exact iff_of_true (hadm.sublist List.eraseP_sublist) trivial

/-! ## Atomicity -/

/-- An error leaves the list as it was, and every operation that would have succeeded before the call
succeeds after it. -/
def Atomic (v : OpenVault) (out : VaultResult × OpenVault) : Prop :=
  out.1 ≠ .ok → out.2.searches = v.searches ∧
    ∀ op : OpenVault → VaultResult × OpenVault, (op v).1 = .ok → (op out.2).1 = .ok

/-- The commit of an edit goes through exactly when the call is accepted. -/
theorem apply_eq_ok_iff (hadm : AdmissibleSearches nocase v.searches)
    (h : c.edit.edited v = some l) :
    (c.apply nocase v).1 = .ok ↔ v.RestStores nocase c.storage ∧ c.edit.Fits nocase v.searches := by
  rw [apply_of_edited h, commitIndex_eq_ok_iff, admissible_edited_iff hadm h]
  refine and_congr_left fun _ ↦ ?_
  constructor
  · rintro ⟨hopen, htables, hsearches, hcommit, href⟩
    exact ⟨hopen, htables, hsearches, hcommit, href⟩
  · rintro ⟨hopen, htables, hsearches, hcommit, href⟩
    exact ⟨hopen, htables, hsearches, hcommit, href⟩

/-- An accepted call succeeds or changes nothing. -/
theorem eq_of_accepted (hadm : AdmissibleSearches nocase v.searches) (hc : c.Accepted nocase v)
    (hr : (c.apply nocase v).1 ≠ .ok) : (c.apply nocase v).2 = v := by
  rcases hedit : c.edit.edited v with _ | l
  · exact (apply_of_refused hedit).2
  · rw [SearchCall.Accepted, hedit] at hc
    exact absurd ((apply_eq_ok_iff hadm hedit).mpr (hc.resolve_left nofun)) hr

/-- When an error leaves the list as it was. -/
theorem unchanged_iff (hadm : AdmissibleSearches nocase v.searches) :
    ((c.apply nocase v).1 ≠ .ok → (c.apply nocase v).2.searches = v.searches) ↔
      c.Accepted nocase v ∨ c.edit.edited v = some v.searches := by
  constructor
  · intro h
    rcases hedit : c.edit.edited v with _ | l
    · exact .inl (.inl hedit)
    by_cases hr : (c.apply nocase v).1 = .ok
    · exact .inl (.inr ((apply_eq_ok_iff hadm hedit).mp hr))
    · have hl := h hr
      rw [apply_of_edited hedit, commitIndex_searches] at hl
      exact .inr (hl ▸ rfl)
  · rintro (hc | hsame) hr
    · rw [eq_of_accepted hadm hc hr]
    · rw [apply_of_edited hsame, commitIndex_searches]

/-- The calls on a vault, as a system. -/
def callSearch (nocase : Bytes → Bytes → Bool) (v : OpenVault) (c : SearchCall) :
    Option OpenVault := some (c.apply nocase v).2

/-- An accepted call keeps the list admissible. -/
theorem admissible_callSearch (hadm : AdmissibleSearches nocase v.searches)
    (hc : c.Accepted nocase v) (h : callSearch nocase v c = some w) :
    AdmissibleSearches nocase w.searches := by
  obtain rfl := Option.some.inj h
  by_cases hr : (c.apply nocase v).1 = .ok
  · rcases hedit : c.edit.edited v with _ | l
    · exact absurd hr (apply_of_refused hedit).1
    · rw [apply_of_edited hedit] at hr ⊢
      exact (commitIndex_eq_ok_iff.mp hr).2
  · rw [eq_of_accepted hadm hc hr]
    exact hadm

/-- **Atomic calls.** In every state that accepted calls lead to, a call that is accepted there is
atomic, and an error of any other leaves an edited list behind, unless its edit was none. -/
theorem atomic_of_accepted {calls : List SearchCall}
    (hadm : AdmissibleSearches nocase v.searches)
    (hcalls : Run.Meets (callSearch nocase) (fun v c ↦ c.Accepted nocase v) v calls)
    (hrun : Run.run (callSearch nocase) v calls = some w) (c : SearchCall) :
    (c.Accepted nocase w → Atomic w (c.apply nocase w)) ∧
    (((c.apply nocase w).1 ≠ .ok → (c.apply nocase w).2.searches = w.searches) ↔
      c.Accepted nocase w ∨ c.edit.edited w = some w.searches) := by
  have h : AdmissibleSearches nocase w.searches := Run.invariant
    (I := fun v ↦ AdmissibleSearches nocase v.searches)
    (fun hadm hc hstep ↦ admissible_callSearch hadm hc hstep) hadm hcalls hrun
  refine ⟨fun hc hr ↦ ?_, unchanged_iff h⟩
  rw [eq_of_accepted h hc hr]
  exact ⟨rfl, fun _ hop ↦ hop⟩

/-- A second search beside one with another name. -/
theorem atomic_of_accepted_two :
    let v := OpenVault.fresh (.ofBytes (List.replicate 16 1))
    let w := (saveSearch tagCiEqual .fine [97] {} v).2
    Atomic w (saveSearch tagCiEqual .fine [98] {} w) := by
  intro v w
  have hcalls : Run.Meets (callSearch tagCiEqual) (fun v c ↦ c.Accepted tagCiEqual v) v
      [⟨.save [97] {}, .fine⟩] :=
    ⟨.inr ⟨⟨rfl, ⟨_, rfl⟩, rfl, rfl, rfl⟩, by decide, .inr ⟨by decide, nofun⟩⟩, trivial⟩
  have hadm : AdmissibleSearches tagCiEqual v.searches := ⟨by decide, nofun, .nil⟩
  exact (atomic_of_accepted hadm hcalls rfl ⟨.save [98] {}, .fine⟩).1
    (.inr ⟨⟨rfl, ⟨_, rfl⟩, rfl, rfl, rfl⟩, by decide +kernel, .inr ⟨by decide, by decide +kernel⟩⟩)

/-- A second search with the name of the first in the other case: the call fails, the list has both,
and no commit goes through any more. -/
theorem not_atomic_of_other_case :
    let v := OpenVault.fresh (.ofBytes (List.replicate 16 1))
    let w := (saveSearch tagCiEqual .fine [97] {} v).2
    let out := saveSearch tagCiEqual .fine [65] {} w
    out.1 ≠ .ok ∧ out.2.searches.length = w.searches.length + 1 ∧
      (w.commitIndex tagCiEqual .fine).1 = .ok ∧ (out.2.commitIndex tagCiEqual .fine).1 ≠ .ok ∧
      ¬ Atomic w out := by
  intro v w out
  have hr : out.1 ≠ .ok := by decide +kernel
  have hlength : out.2.searches.length = w.searches.length + 1 := by decide +kernel
  refine ⟨hr, hlength, by decide +kernel, by decide +kernel, fun h ↦ ?_⟩
  have hsame := congrArg List.length (h hr).1
  omega

end V3

end SafeVault
