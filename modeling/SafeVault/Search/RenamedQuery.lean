import SafeVault.Search.Evaluate
import SafeVault.Search.QueryCodec

/-!
# Respelling the tags of saved queries

A renaming of tags reaches into the blobs of saved searches: each blob is decoded, the tags in it are
respelled, and a query in which a tag was met is encoded again. Evaluating a respelled query is
evaluating the query on the tags whose new spellings are there.

Nothing looks at the other tags of a query. So a list with the old and the new tag ends up with the
new one twice, unless the renaming objects to the new one, as that of a category does.
-/

namespace SafeVault

open AsciiFold (fold)
open Search (Spelled Matches Holds)

namespace AdvancedQuery

/-- The lists of a query in which every tag should stand once. Include and exclude terms are mutually
exclusive, so they count as one list. -/
def lists (q : AdvancedQuery) : List (List Bytes) :=
  (q.includes.map (·.tag) ++ q.excludes) :: q.groups.map (·.tags)

/-- The tags of a query, in the order in which a renaming looks at them. -/
def terms (q : AdvancedQuery) : List Bytes := q.lists.flatten

/-- A query with every tag respelled. -/
def mapTags (f : Bytes → Bytes) (q : AdvancedQuery) : AdvancedQuery :=
  { q with
    includes := q.includes.map fun t ↦ { t with tag := f t.tag }
    excludes := q.excludes.map f
    groups := q.groups.map fun g ↦ { g with tags := g.tags.map f } }

/-- No list has a tag twice, and no tag is both included and excluded. -/
def Tidy (q : AdvancedQuery) : Prop := ∀ l ∈ q.lists, (tagKeys l).Nodup

instance (q : AdvancedQuery) : Decidable q.Tidy :=
  inferInstanceAs (Decidable (∀ l ∈ q.lists, (tagKeys l).Nodup))

variable {q : AdvancedQuery} {f g : Bytes → Bytes}

theorem lists_mapTags : (q.mapTags f).lists = q.lists.map (List.map f) := by
  simp [lists, mapTags, Function.comp_def]

theorem terms_mapTags : (q.mapTags f).terms = q.terms.map f := by
  rw [terms, terms, lists_mapTags, List.map_flatten]

theorem mem_terms {t : Bytes} :
    t ∈ q.terms ↔ t ∈ q.includes.map (·.tag) ∨ t ∈ q.excludes ∨ ∃ g ∈ q.groups, t ∈ g.tags := by
  simp only [terms, lists, List.flatten_cons, List.mem_append, List.mem_flatten, List.mem_map,
    exists_exists_and_eq_and, or_assoc]

/-- Respellings that agree on the tags of a query respell it alike. -/
theorem mapTags_congr (h : ∀ t ∈ q.terms, f t = g t) : q.mapTags f = q.mapTags g := by
  have hinc : ∀ t ∈ q.includes, f t.tag = g t.tag := fun t ht ↦
    h _ (mem_terms.mpr (.inl (List.mem_map_of_mem ht)))
  have hexc : ∀ t ∈ q.excludes, f t = g t := fun t ht ↦ h t (mem_terms.mpr (.inr (.inl ht)))
  have hgroups : ∀ x ∈ q.groups, ∀ t ∈ x.tags, f t = g t := fun x hx t ht ↦
    h t (mem_terms.mpr (.inr (.inr ⟨x, hx, ht⟩)))
  have hgroup : ∀ x ∈ q.groups, ({ x with tags := x.tags.map f } : TagGroup) =
      { x with tags := x.tags.map g } := fun x hx ↦ by rw [List.map_congr_left (hgroups x hx)]
  have hweighted : ∀ t ∈ q.includes, ({ t with tag := f t.tag } : WeightedTag) =
      { t with tag := g t.tag } := fun t ht ↦ by rw [hinc t ht]
  rw [mapTags, mapTags, List.map_congr_left hexc, List.map_congr_left hweighted,
    List.map_congr_left hgroup]

theorem mapTags_id : q.mapTags id = q := by
  simp [mapTags]

theorem mapTags_eq_self (h : ∀ t ∈ q.terms, f t = t) : q.mapTags f = q :=
  (mapTags_congr h).trans mapTags_id

theorem eq_of_mapTags_eq_self (h : q.mapTags f = q) : ∀ t ∈ q.terms, f t = t := by
  have hterms : q.terms.map f = q.terms.map id := by
    rw [← terms_mapTags, h, List.map_id]
  exact List.map_inj_left.mp hterms

/-- A respelling is decoded again if no tag has become too long. -/
theorem Fits.mapTags (h : q.Fits) (hf : ∀ t ∈ q.terms, (f t).length ≤ Query.maxStrlen) :
    (q.mapTags f).Fits := by
  obtain ⟨hinc, -, hexc, -, hgroups, hgroup, hname⟩ := h
  refine ⟨(List.length_map _).trans_le hinc, ?_, (List.length_map _).trans_le hexc, ?_,
    (List.length_map _).trans_le hgroups, ?_, hname⟩
  · intro t ht
    obtain ⟨s, hs, rfl⟩ := List.mem_map.mp ht
    exact hf s.tag (mem_terms.mpr (.inl (List.mem_map_of_mem hs)))
  · intro t ht
    obtain ⟨s, hs, rfl⟩ := List.mem_map.mp ht
    exact hf s (mem_terms.mpr (.inr (.inl hs)))
  · intro x hx
    obtain ⟨y, hy, rfl⟩ := List.mem_map.mp hx
    refine ⟨(hgroup y hy).name, (List.length_map _).trans_le (hgroup y hy).count, fun t ht ↦ ?_⟩
    obtain ⟨s, hs, rfl⟩ := List.mem_map.mp ht
    exact hf s (mem_terms.mpr (.inr (.inr ⟨y, hy, hs⟩)))

/-! ## What a respelled query says -/

/-- A group of respelled tags holds of a set when the group holds of the tags respelled into it. -/
theorem holds_map {x : TagGroup} {T : Bytes → Prop} :
    Holds { x with tags := x.tags.map f } T ↔ Holds x (T ∘ f) := by
  rw [Holds, Holds, List.map_eq_nil_iff]
  rcases x.combinator with _ | _ <;> simp

theorem matches_mapTags {name : Bytes} {T : Bytes → Prop} :
    Matches (q.mapTags f) name T ↔ Matches q name (T ∘ f) := by
  constructor
  · rintro ⟨hexc, hinc, hname, hgroups⟩
    refine ⟨fun t ht ↦ hexc (f t) (List.mem_map_of_mem ht), ?_, hname, ?_⟩
    · simpa [mapTags] using hinc
    · rcases hjoin : q.groupJoin with _ | _ <;>
        simpa [mapTags, hjoin, holds_map] using hgroups
  · rintro ⟨hexc, hinc, hname, hgroups⟩
    refine ⟨fun t ht ↦ ?_, ?_, hname, ?_⟩
    · obtain ⟨s, hs, rfl⟩ := List.mem_map.mp ht
      exact hexc s hs
    · simpa [mapTags] using hinc
    · rcases hjoin : q.groupJoin with _ | _ <;>
        simpa [mapTags, hjoin, holds_map] using hgroups

/-- Sets that agree on the tags of a query are alike to it. -/
theorem matches_congr {name : Bytes} {T U : Bytes → Prop} (h : ∀ t ∈ q.terms, (T t ↔ U t)) :
    Matches q name T ↔ Matches q name U := by
  suffices himp : ∀ {T U : Bytes → Prop}, (∀ t ∈ q.terms, (T t ↔ U t)) →
      Matches q name T → Matches q name U from ⟨himp h, himp fun t ht ↦ (h t ht).symm⟩
  intro T U h
  have hgroup : ∀ x ∈ q.groups, (Holds x T ↔ Holds x U) := by
    intro x hx
    have htag : ∀ t ∈ x.tags, (T t ↔ U t) := fun t ht ↦
      h t (mem_terms.mpr (.inr (.inr ⟨x, hx, ht⟩)))
    rw [Holds, Holds]
    refine or_congr_right ?_
    rcases x.combinator with _ | _
    · exact forall₂_congr htag
    · exact exists_congr fun t ↦ and_congr_right (htag t)
  rintro ⟨hexc, hinc, hname, hgroups⟩
  refine ⟨fun t ht ↦ (h t (mem_terms.mpr (.inr (.inl ht)))).not.mp (hexc t ht), ?_, hname, ?_⟩
  · refine hinc.imp_right ?_
    rintro ⟨t, ht, hT⟩
    exact ⟨t, ht, (h _ (mem_terms.mpr (.inl (List.mem_map_of_mem ht)))).mp hT⟩
  · refine hgroups.imp_right ?_
    rcases q.groupJoin with _ | _
    · exact fun hall x hx ↦ (hgroup x hx).mp (hall x hx)
    · rintro ⟨x, hx, hholds⟩
      exact ⟨x, hx, (hgroup x hx).mp hholds⟩

end AdvancedQuery

/-! ## The searches that mention a tag -/

/-- What a renaming makes of a saved search. Its query is respelled; a blob without a tag of concern,
or without a meaning, stays as it is. -/
structure SavedSearch.Respelled (f : Bytes → Bytes) (Concerns : Bytes → Prop) (s s' : SavedSearch) :
    Prop where
  name : s'.name = s.name
  query : ∀ q, deserializeQuery s.query = some q → deserializeQuery s'.query = some (q.mapTags f)
  frame : (∀ q, deserializeQuery s.query = some q → ∀ t ∈ q.terms, ¬ Concerns t) → s' = s

namespace SavedSearch.Respelled

variable {f : Bytes → Bytes} {Concerns : Bytes → Prop} {s s' : SavedSearch} {q : AdvancedQuery}

/-- A blob of no concern is left alone. -/
theorem refl (h : ∀ q, deserializeQuery s.query = some q → q.mapTags f = q) :
    s.Respelled f Concerns s :=
  ⟨rfl, fun q hq ↦ by rw [h q hq, hq], fun _ ↦ rfl⟩

/-- A query that was encoded again. -/
theorem of_serialize (hq : deserializeQuery s.query = some q)
    (hfits : ∀ t ∈ q.terms, (f t).length ≤ Query.maxStrlen) (hmet : ∃ t ∈ q.terms, Concerns t) :
    s.Respelled f Concerns { s with query := serializeQuery (q.mapTags f) } := by
  refine ⟨rfl, fun r hr ↦ ?_, fun hnone ↦ ?_⟩
  · obtain rfl : q = r := Option.some.inj (hq.symm.trans hr)
    exact deserializeQuery_serializeQuery ((spelled_of_deserializeQuery hq).1.mapTags hfits)
  · obtain ⟨t, ht, hconcern⟩ := hmet
    exact absurd hconcern (hnone q hq t ht)

end SavedSearch.Respelled

/-- The tags of a decoded query are short. -/
theorem length_le_of_mem_terms {blob : Bytes} {q : AdvancedQuery}
    (h : deserializeQuery blob = some q) : ∀ t ∈ q.terms, t.length ≤ Query.maxStrlen := by
  obtain ⟨hfits, -⟩ := spelled_of_deserializeQuery h
  intro t ht
  rcases AdvancedQuery.mem_terms.mp ht with ht | ht | ⟨g, hg, ht⟩
  · obtain ⟨w, hw, rfl⟩ := List.mem_map.mp ht
    exact hfits.includes w hw
  · exact hfits.excludes t ht
  · exact (hfits.groups g hg).tags t ht

/-! ## The renaming of one tag -/

/-- The loop body of `rename_tag` over the saved searches, `rename_query_tags` included. A blob that
cannot be decoded is passed over. -/
def renameSearch (oldTag newTag : Bytes) (s : SavedSearch) : SavedSearch :=
  match deserializeQuery s.query with
  | none => s
  | some q =>
    if q.terms.any (tagCiEqual · oldTag) then
      { s with query := serializeQuery (q.mapTags (renamedTag oldTag newTag)) }
    else s

theorem respelled_renameSearch {oldTag newTag : Bytes} (hnew : newTag.length ≤ maxTagBytes)
    (s : SavedSearch) : s.Respelled (renamedTag oldTag newTag) (fun t ↦ tagCiEqual t oldTag = true)
      (renameSearch oldTag newTag s) := by
  rw [renameSearch]
  rcases hq : deserializeQuery s.query with _ | q
  · exact .refl fun q hq' ↦ absurd (hq.symm.trans hq') nofun
  dsimp only
  split_ifs with hmet
  · refine .of_serialize hq (fun t ht ↦ ?_) (List.any_eq_true.mp hmet)
    rw [renamedTag]
    split_ifs
    · exact hnew
    · exact length_le_of_mem_terms hq t ht
  · refine .refl fun r hr ↦ AdvancedQuery.mapTags_eq_self fun t ht ↦ ?_
    obtain rfl : q = r := Option.some.inj (hq.symm.trans hr)
    exact if_neg fun hold ↦ hmet (List.any_eq_true.mpr ⟨t, ht, hold⟩)

/-- A tidy query stays tidy unless one of its lists has the old tag and, apart from it, the new. -/
theorem tidy_mapTags_renamedTag_iff {oldTag newTag : Bytes} {q : AdvancedQuery} (hq : q.Tidy) :
    (q.mapTags (renamedTag oldTag newTag)).Tidy ↔
      tagCiEqual oldTag newTag = true ∨
        ∀ l ∈ q.lists, ¬ (Spelled l oldTag ∧ Spelled l newTag) := by
  have hkey (t : Bytes) : fold (renamedTag oldTag newTag t) =
      if fold t = fold oldTag then fold newTag else fold t := by
    rw [renamedTag, tagCiEqual, AsciiFold.equal_eq_decide]
    by_cases h : fold t = fold oldTag <;> simp [h]
  have hkeys (l : List Bytes) : tagKeys (l.map (renamedTag oldTag newTag)) =
      (tagKeys l).map fun k ↦ if k = fold oldTag then fold newTag else k := by
    simp [tagKeys, hkey, Function.comp_def]
  have hlist : ∀ l ∈ q.lists, ((tagKeys (l.map (renamedTag oldTag newTag))).Nodup ↔
      fold oldTag = fold newTag ∨ ¬ (Spelled l oldTag ∧ Spelled l newTag)) := by
    intro l hl
    rw [hkeys, List.nodup_map_iff_inj_on (hq l hl)]
    constructor
    · intro hinj
      by_contra hno
      rw [not_or, not_not] at hno
      obtain ⟨hne, hold, hnew⟩ := hno
      exact hne (hinj _ hold _ hnew (by rw [if_pos rfl, if_neg (Ne.symm hne)]))
    · intro hcase k hk k' hk' heq
      split_ifs at heq with h h' h'
      · rw [h, h']
      · rcases hcase with hsame | hno
        · rw [h, hsame, heq]
        · have hold : fold oldTag ∈ tagKeys l := h ▸ hk
          have hnew : fold newTag ∈ tagKeys l := heq ▸ hk'
          exact absurd ⟨hold, hnew⟩ hno
      · rcases hcase with hsame | hno
        · rw [h', hsame, heq]
        · have hold : fold oldTag ∈ tagKeys l := h' ▸ hk'
          have hnew : fold newTag ∈ tagKeys l := heq ▸ hk
          exact absurd ⟨hold, hnew⟩ hno
      · exact heq
  rw [AdvancedQuery.Tidy, AdvancedQuery.lists_mapTags, List.forall_mem_map, tagCiEqual,
    AsciiFold.equal_iff, forall₂_congr hlist]
  by_cases hsame : fold oldTag = fold newTag <;> simp [hsame]

/-! ## The renaming of a category -/

/-- The loop body of `prepare_category_queries`. -/
def prepareCategoryQuery (oldName newName : Bytes) (s : SavedSearch) :
    Except VaultResult SavedSearch :=
  match deserializeQuery s.query with
  | none => .error .badFormat
  | some q =>
    if categoryRenameStatus oldName newName q.terms ≠ .ok then
      .error (categoryRenameStatus oldName newName q.terms)
    else if q.terms.any fun t ↦ tagCiEqual (tagCategoryPrefix t) oldName then
      .ok { s with query := serializeQuery (q.mapTags (recategorisedTag oldName newName)) }
    else .ok s

def prepareCategoryQueries (oldName newName : Bytes) (searches : List SavedSearch) :
    Except VaultResult (List SavedSearch) := searches.mapM (prepareCategoryQuery oldName newName)

/-- A tag that a renaming of a category has no objection to does not become too long. -/
theorem length_recategorisedTag_le {oldName newName tag : Bytes}
    (h : Recategorisable oldName newName tag) (htag : tag.length ≤ maxTagBytes) :
    (recategorisedTag oldName newName tag).length ≤ maxTagBytes := by
  obtain ⟨next, hnext⟩ := h
  rw [recategorisedTag, hnext]
  rw [categoryReplacement] at hnext
  split_ifs at hnext with hmem hlong hnew
  · cases hnext
    rw [not_lt] at hlong
    rw [List.length_append, List.length_drop]
    have hpre : oldName.length ≤ tag.length := by
      rw [← AsciiFold.length_fold, ← (decides_tagCiEqual _ _).mp hmem, AsciiFold.length_fold,
        tagCategoryPrefix]
      split
      · split_ifs
        · exact Nat.zero_le _
        · exact List.length_take_le' _ _
      · exact Nat.zero_le _
    omega
  · cases hnext
    exact htag

variable {oldName newName : Bytes} {s s' : SavedSearch}

/-- A query that was prepared had no objectionable tag, and is respelled. -/
theorem respelled_of_prepareCategoryQuery (h : prepareCategoryQuery oldName newName s = .ok s') :
    (∃ q, deserializeQuery s.query = some q ∧
      ∀ t ∈ q.terms, Recategorisable oldName newName t) ∧
    s.Respelled (recategorisedTag oldName newName)
      (fun t ↦ tagCiEqual (tagCategoryPrefix t) oldName = true) s' := by
  rw [prepareCategoryQuery] at h
  rcases hq : deserializeQuery s.query with _ | q
  · rw [hq] at h
    cases h
  rw [hq] at h
  dsimp only at h
  split_ifs at h with hstatus hmet
  · have hall := recategorisable_of_categoryRenameStatus (not_not.mp hstatus)
    cases h
    refine ⟨⟨q, rfl, hall⟩, .of_serialize hq (fun t ht ↦ ?_) (List.any_eq_true.mp hmet)⟩
    exact length_recategorisedTag_le (hall t ht) (length_le_of_mem_terms hq t ht)
  · have hall := recategorisable_of_categoryRenameStatus (not_not.mp hstatus)
    cases h
    refine ⟨⟨q, rfl, hall⟩, .refl fun r hr ↦ AdvancedQuery.mapTags_eq_self fun t ht ↦ ?_⟩
    obtain rfl : q = r := Option.some.inj (hq.symm.trans hr)
    refine (recategorisedTag_of_not_mem (hall t ht) fun hcat ↦ hmet ?_).1
    exact List.any_eq_true.mpr ⟨t, ht, (decides_tagCiEqual _ _).mpr hcat⟩

theorem respelled_of_prepareCategoryQueries {searches searches' : List SavedSearch}
    (h : prepareCategoryQueries oldName newName searches = .ok searches') :
    (∀ s ∈ searches, ∃ q, deserializeQuery s.query = some q ∧
      ∀ t ∈ q.terms, Recategorisable oldName newName t) ∧
    List.Forall₂ (SavedSearch.Respelled (recategorisedTag oldName newName)
      fun t ↦ tagCiEqual (tagCategoryPrefix t) oldName = true) searches searches' := by
  rw [prepareCategoryQueries] at h
  induction searches generalizing searches' with
  | nil =>
    cases h
    exact ⟨fun s hs ↦ absurd hs List.not_mem_nil, .nil⟩
  | cons s rest ih =>
    rw [List.mapM_cons] at h
    rcases hs : prepareCategoryQuery oldName newName s with r | s'
    · rw [hs] at h
      cases h
    rcases hrest : rest.mapM (prepareCategoryQuery oldName newName) with r | rest'
    · rw [hs, hrest] at h
      cases h
    rw [hs, hrest] at h
    cases h
    obtain ⟨hdecoded, hrespelled⟩ := respelled_of_prepareCategoryQuery hs
    obtain ⟨hdecodeds, hrespelleds⟩ := ih hrest
    exact ⟨List.forall_mem_cons.mpr ⟨hdecoded, hdecodeds⟩, .cons hrespelled hrespelleds⟩

theorem ne_ok_of_prepareCategoryQueries {searches : List SavedSearch} {r : VaultResult}
    (h : prepareCategoryQueries oldName newName searches = .error r) : r ≠ .ok := by
  rw [prepareCategoryQueries] at h
  induction searches with
  | nil => cases h
  | cons s rest ih =>
    rw [List.mapM_cons] at h
    rcases hs : prepareCategoryQuery oldName newName s with r' | s'
    · rw [hs] at h
      obtain rfl : r' = r := Except.error.inj h
      rw [prepareCategoryQuery] at hs
      split at hs
      · cases hs
        exact nofun
      · split_ifs at hs with hstatus
        cases hs
        exact hstatus
    rcases hrest : rest.mapM (prepareCategoryQuery oldName newName) with r' | rest'
    · rw [hs, hrest] at h
      obtain rfl : r' = r := Except.error.inj h
      exact ih hrest
    · rw [hs, hrest] at h
      cases h

end SafeVault
