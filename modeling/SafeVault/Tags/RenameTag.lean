import SafeVault.Search.RenamedQuery
import SafeVault.Search.Results
import SafeVault.Tags.Invariant

/-!
# What a renaming of a tag does

The tree and the settings are safe: a renaming is refused when the new tag is another tag there, so no
two tags become one. The saved queries are not looked at before the renaming, and three things go
wrong with them. A query that mentions both tags ends up with one of them twice. A renaming that only
changes the spelling stops early if nodes and settings are spelled as asked, whatever the queries
are. And a query that meant the values of a field by the old tag does not mean them any more.
-/

namespace SafeVault

open AsciiFold (fold)
open Search (Spelled Searchable Carries Matches inScope virtualTag)

variable {μ : Type}

namespace Vault

/-- `rename_tag`, its renaming of the queries included. -/
def respellTag (oldTag newTag : Bytes) (outcome : VaultResult) (v : Vault μ) :
    VaultResult × Vault μ :=
  v.renameTag oldTag newTag
    (fun searches ↦ .ok (searches.map (renameSearch (normaliseTag oldTag) (normaliseTag newTag))))
    outcome

/-- What a renaming of a tag promises, about the state before and the result and state after it. -/
structure TagRenamed (oldTag newTag : Bytes) (v : Vault μ) (out : VaultResult × Vault μ) : Prop where
  undone : out.1 ≠ .ok → out.2 = v
  /-- The tag is respelled everywhere, and nothing else is changed. -/
  everywhere : out.1 = .ok → ∃ searches,
    List.Forall₂ (SavedSearch.Respelled (renamedTag oldTag newTag)
      fun t ↦ tagCiEqual t oldTag = true) v.searches searches ∧
    out.2.live = (v.renameTags (renamedTag oldTag newTag) searches).live
  /-- No list of tags gets a tag twice. -/
  merged : out.1 = .ok → ∀ l : List Bytes, (∀ t ∈ l, t ∈ v.tagReferences) → (tagKeys l).Nodup →
    (tagKeys (l.map (renamedTag oldTag newTag))).Nodup
  /-- Nor does a saved query. -/
  tidy : out.1 = .ok → List.Forall₂ (fun s s' ↦ ∀ q q', deserializeQuery s.query = some q →
    deserializeQuery s'.query = some q' → q.Tidy → q'.Tidy) v.searches out.2.searches
  /-- A saved query that did not mention the new tag finds what it found, if the tag was new. -/
  results : out.1 = .ok → (∀ t ∈ v.tagReferences, tagCiEqual t newTag = false) →
    List.Forall₂ (fun s s' ↦ ∀ q q', deserializeQuery s.query = some q →
      deserializeQuery s'.query = some q' → (∀ t ∈ q.terms, tagCiEqual t newTag = false) →
      ∀ p, p ∈ (out.2.runSearch q').map (·.node) ↔ p ∈ (v.runSearch q).map (·.node))
      v.searches out.2.searches

/-! ## When the promise is kept -/

/-- The tests that a renaming passes before it looks at spellings. -/
structure TagRenameAccepted (oldTag newTag : Bytes) (v : Vault μ) : Prop where
  writable : v.writable = .ok
  names : (oldTag.isEmpty || newTag.isEmpty || tagUnstorable newTag) = false
  found : v.tagReferences.any (tagCiEqual · oldTag) = true
  free : (v.tagReferences.any fun t ↦ !tagCiEqual t oldTag && tagCiEqual t newTag) = false

/-- Every reference to the tag outside the queries is spelled as asked. -/
def SpelledAsAsked (oldTag newTag : Bytes) (v : Vault μ) : Prop :=
  (v.tagReferences.all fun t ↦ !tagCiEqual t oldTag || t == newTag) = true

/-- A renaming that has something to do and may do it. -/
structure TagRenameDue (oldTag newTag : Bytes) (outcome : VaultResult) (v : Vault μ) : Prop where
  accepted : v.TagRenameAccepted oldTag newTag
  due : ¬ v.SpelledAsAsked oldTag newTag
  fields : renamePreservesTagFields v.settings oldTag newTag = true
  committed : outcome = .ok

/-- The tags a position is searched by, when values of fields that spell the old tag do not count for
it, and those that spell the new tag do. -/
def SearchableAs (oldTag newTag : Bytes) (v : Vault μ) (p : List ℕ) (tag : Bytes) : Prop :=
  if tagCiEqual tag oldTag then
    Carries v.root p oldTag ∨ ∃ x ∈ v.settings.tagFieldValues, Carries v.root p x.tag ∧
      fold (virtualTag x) = fold newTag
  else Searchable v.root v.settings p tag

/-- The condition under which a renaming keeps its promise. -/
structure TagRenameSafe (oldTag newTag : Bytes) (outcome : VaultResult) (v : Vault μ) : Prop where
  /-- If only the queries can be spelled otherwise, they are not. -/
  spelled : v.TagRenameAccepted oldTag newTag → v.SpelledAsAsked oldTag newTag →
    ∀ s ∈ v.searches, ∀ q, deserializeQuery s.query = some q →
      ∀ t ∈ q.terms, tagCiEqual t oldTag = true → t = newTag
  /-- No list of a tidy query has both tags. -/
  apart : v.TagRenameDue oldTag newTag outcome → tagCiEqual oldTag newTag = false →
    ∀ s ∈ v.searches, ∀ q, deserializeQuery s.query = some q → q.Tidy →
      ∀ l ∈ q.lists, ¬ (Spelled l oldTag ∧ Spelled l newTag)
  /-- No query that does not mention the new tag tells the old one from the values of fields. -/
  values : v.TagRenameDue oldTag newTag outcome → tagCiEqual oldTag newTag = false →
    ∀ s ∈ v.searches, ∀ q, deserializeQuery s.query = some q →
      (∀ t ∈ q.terms, tagCiEqual t newTag = false) →
      ∀ p u, p ≠ [] → v.root.get? p = some u → inScope u.isGallery q.scope = true →
        (Matches q u.label.name (v.SearchableAs oldTag newTag p) ↔
          Matches q u.label.name (Searchable v.root v.settings p))

/-! ## What can happen -/

variable {oldTag newTag : Bytes} {outcome : VaultResult} {v : Vault μ} {out : VaultResult × Vault μ}

/-- A call is refused, or has nothing to do, or is carried out. -/
theorem respellTag_cases (hout : v.respellTag oldTag newTag outcome = out) :
    let old := normaliseTag oldTag
    let new := normaliseTag newTag
    (out.2 = v ∧ out.1 ≠ .ok ∧ ¬ v.TagRenameDue old new outcome ∧
      ¬ (v.TagRenameAccepted old new ∧ v.SpelledAsAsked old new)) ∨
    (out = (.ok, v) ∧ v.TagRenameAccepted old new ∧ v.SpelledAsAsked old new) ∨
    (v.TagRenameDue old new outcome ∧ ∃ v', out = (.ok, v') ∧ v'.unlocked = v.unlocked ∧
      v'.live = (v.renameTags (renamedTag old new)
        (v.searches.map (renameSearch old new))).live) := by
  intro old new
  -- What ends the call before the commit, for want of a test that is passed.
  have hrefused : ∀ {r}, (r, v) = out → r ≠ .ok →
      ¬ (v.TagRenameAccepted old new ∧ renamePreservesTagFields v.settings old new = true) →
      ¬ (v.TagRenameAccepted old new ∧ v.SpelledAsAsked old new) →
      out.2 = v ∧ out.1 ≠ .ok ∧ ¬ v.TagRenameDue old new outcome ∧
        ¬ (v.TagRenameAccepted old new ∧ v.SpelledAsAsked old new) := by
    rintro r rfl hr hfields hspelled
    exact ⟨rfl, hr, fun h ↦ hfields ⟨h.accepted, h.fields⟩, hspelled⟩
  have hunaccepted : ∀ {r}, (r, v) = out → r ≠ .ok → ¬ v.TagRenameAccepted old new →
      out.2 = v ∧ out.1 ≠ .ok ∧ ¬ v.TagRenameDue old new outcome ∧
        ¬ (v.TagRenameAccepted old new ∧ v.SpelledAsAsked old new) := fun hr hne h ↦
    hrefused hr hne (fun h' ↦ h h'.1) fun h' ↦ h h'.1
  unfold respellTag renameTag planRenameTag at hout
  change v.carryOut outcome (if v.writable ≠ .ok then _
    else if (old.isEmpty || new.isEmpty || tagUnstorable new) = true then _ else _) = out at hout
  by_cases hwritable : v.writable ≠ .ok
  · rw [if_pos hwritable] at hout
    exact .inl (hunaccepted hout hwritable fun h ↦ hwritable h.writable)
  rw [if_neg hwritable] at hout
  by_cases hnames : (old.isEmpty || new.isEmpty || tagUnstorable new) = true
  · rw [if_pos hnames] at hout
    exact .inl (hunaccepted hout nofun fun h ↦ absurd (hnames.symm.trans h.names) nofun)
  rw [if_neg hnames] at hout
  by_cases hfound : (!v.tagReferences.any (tagCiEqual · old)) = true
  · rw [if_pos hfound] at hout
    exact .inl (hunaccepted hout nofun fun h ↦ by simp [h.found] at hfound)
  rw [if_neg hfound] at hout
  by_cases hfree : (v.tagReferences.any fun t ↦ !tagCiEqual t old && tagCiEqual t new) = true
  · rw [if_pos hfree] at hout
    exact .inl (hunaccepted hout nofun fun h ↦ absurd (hfree.symm.trans h.free) nofun)
  rw [if_neg hfree] at hout
  have haccepted : v.TagRenameAccepted old new :=
    ⟨not_not.mp hwritable, by simpa using hnames, by simpa using hfound, by simpa using hfree⟩
  by_cases hspelled : (v.tagReferences.all fun t ↦ !tagCiEqual t old || t == new) = true
  · rw [if_pos hspelled] at hout
    exact .inr (.inl ⟨hout.symm, haccepted, hspelled⟩)
  rw [if_neg hspelled] at hout
  by_cases hfields : (!renamePreservesTagFields v.settings old new) = true
  · rw [if_pos hfields] at hout
    refine .inl (hrefused hout nofun ?_ fun h ↦ hspelled h.2)
    rintro ⟨-, h⟩
    simp [h] at hfields
  rw [if_neg hfields] at hout
  dsimp only at hout
  have hresult : out.1 = outcome := by
    rw [← hout]
    exact transact_fst haccepted.writable
  rcases transact_cases outcome v (v.renameTags (renamedTag old new)
    (v.searches.map (renameSearch old new))) with ⟨hok, hdone⟩ | ⟨hfailed, hundone⟩
  · have hok' : out.1 = .ok := (congrArg Prod.fst hout.symm).trans hok
    have hdue : v.TagRenameDue old new outcome :=
      ⟨haccepted, hspelled, by simpa using hfields, hresult.symm.trans hok'⟩
    exact .inr (.inr ⟨hdue, _,
      Prod.ext hok' ((congrArg Prod.snd hout.symm).trans hdone), rfl, rfl⟩)
  · have hne : out.1 ≠ .ok := by
      rw [← hout]
      exact hfailed
    exact .inl ⟨(congrArg Prod.snd hout.symm).trans hundone, hne,
      fun h ↦ hne (hresult.trans h.committed), fun h ↦ hspelled h.2⟩

/-! ## The references -/

/-- Nothing is written to the references of a state that is spelled as asked. -/
theorem renamedTag_eq_self (h : v.SpelledAsAsked oldTag newTag) {t : Bytes}
    (ht : t ∈ v.tagReferences) : renamedTag oldTag newTag t = t := by
  have hspelled := List.all_eq_true.mp h t ht
  rw [Bool.or_eq_true, Bool.not_eq_true', beq_iff_eq] at hspelled
  rw [renamedTag]
  split_ifs with hold
  · exact (hspelled.resolve_left (by rw [hold]; rintro ⟨⟩)).symm
  · rfl

/-- A respelling that leaves every reference alone leaves the state alone. -/
theorem live_renameTags_eq_self {f : Bytes → Bytes} (h : ∀ t ∈ v.tagReferences, f t = t) :
    (v.renameTags f v.searches).live = v.live := by
  have hmap : ∀ l : List Bytes, (∀ t ∈ l, f t = t) → l.map f = l := fun l hl ↦
    (List.map_congr_left hl).trans (List.map_id l)
  have hroot : v.root.mapLabel (renameNodeTags f) = v.root := by
    refine LeafTree.mapLabel_eq_self fun n hn ↦ ?_
    have htags : n.tags.map f = n.tags := hmap _ fun t ht ↦
      h t (mem_tagReferences (.inl ⟨n, hn, .inl ht⟩))
    have hexplicit : n.explicitTags.map f = n.explicitTags := hmap _ fun t ht ↦
      h t (mem_tagReferences (.inl ⟨n, hn, .inr ht⟩))
    rw [renameNodeTags, htags, hexplicit]
  have hbundles : v.settings.tagBundles.map (TagBundle.rename f) = v.settings.tagBundles := by
    refine (List.map_congr_left fun b hb ↦ ?_).trans (List.map_id _)
    rw [TagBundle.rename, hmap _ fun t ht ↦ h t (mem_tagReferences (.inr ⟨b, hb, ht⟩))]
    rfl
  have hdescriptions : (v.settings.tagDescriptions.map fun d ↦ { d with tag := f d.tag }) =
      v.settings.tagDescriptions := by
    refine (List.map_congr_left fun d hd ↦ ?_).trans (List.map_id _)
    rw [h d.tag (List.mem_append_left _ (List.mem_append_right _ (List.mem_map_of_mem hd)))]
    rfl
  have hvalues : (v.settings.tagFieldValues.map fun x ↦ { x with tag := f x.tag }) =
      v.settings.tagFieldValues := by
    refine (List.map_congr_left fun x hx ↦ ?_).trans (List.map_id _)
    rw [h x.tag (List.mem_append_right _ (List.mem_map_of_mem hx))]
    rfl
  rw [renameTags, live, hroot, hbundles, hdescriptions, hvalues]
  rfl

/-- A list of references does not get a tag twice. -/
theorem nodup_renamedTag (h : v.TagRenameAccepted oldTag newTag) {l : List Bytes}
    (hl : ∀ t ∈ l, t ∈ v.tagReferences) (hnodup : (tagKeys l).Nodup) :
    (tagKeys (l.map (renamedTag oldTag newTag))).Nodup := by
  refine KeyedUnion.nodup_map decides_tagCiEqual (TagsKept.respects_renamedTag oldTag newTag)
    (fun t ht ↦ ?_) hnodup
  exact Bool.eq_false_iff.mpr (List.any_eq_false.mp h.free t (hl t ht))

/-- The new tag is not in use, unless it is the old one. -/
theorem fold_ne_of_accepted (h : v.TagRenameAccepted oldTag newTag)
    (hne : tagCiEqual oldTag newTag = false) {t : Bytes} (ht : t ∈ v.tagReferences) :
    fold t ≠ fold newTag := by
  intro heq
  have hfree := List.any_eq_false.mp h.free t ht
  rw [(decides_tagCiEqual t newTag).mpr heq, Bool.and_true, Bool.not_eq_true', Bool.not_eq_false]
    at hfree
  have hold : fold t = fold oldTag := (decides_tagCiEqual _ _).mp hfree
  exact absurd ((decides_tagCiEqual oldTag newTag).mpr (hold.symm.trans heq)) (by rw [hne]; nofun)

/-! ## The results of a search -/

theorem fold_renamedTag (t : Bytes) : fold (renamedTag oldTag newTag t) =
    if fold t = fold oldTag then fold newTag else fold t := by
  rw [renamedTag, tagCiEqual, AsciiFold.equal_eq_decide]
  by_cases h : fold t = fold oldTag <;> simp [h]

section Search

variable {searches : List SavedSearch} {p : List ℕ} {t : Bytes}

/-- What a position carries afterwards. -/
theorem carries_renameTags {f : Bytes → Bytes} : Carries (v.renameTags f searches).root p t ↔
    ∃ s, (∃ r u, (r <+: p ∨ p <+: r) ∧ v.root.get? r = some u ∧ s ∈ u.label.tags) ∧
      fold (f s) = fold t := by
  have hroot : (v.renameTags f searches).root = v.root.mapLabel (renameNodeTags f) := rfl
  simp only [Carries, hroot, LeafTree.get?_mapLabel, Option.map_eq_some_iff]
  constructor
  · rintro ⟨r, -, hline, ⟨u, hget, rfl⟩, hspelled⟩
    rw [LeafTree.label_mapLabel, renameNodeTags, Spelled, List.map_map, List.mem_map] at hspelled
    obtain ⟨s, hs, hkey⟩ := hspelled
    exact ⟨s, ⟨r, u, hline, hget, hs⟩, hkey⟩
  · rintro ⟨s, ⟨r, u, hline, hget, hs⟩, hkey⟩
    refine ⟨r, _, hline, ⟨u, hget, rfl⟩, ?_⟩
    rw [LeafTree.label_mapLabel, renameNodeTags, Spelled, List.map_map]
    exact List.mem_map.mpr ⟨s, hs, hkey⟩

theorem carries_iff : Carries v.root p t ↔
    ∃ s, (∃ r u, (r <+: p ∨ p <+: r) ∧ v.root.get? r = some u ∧ s ∈ u.label.tags) ∧
      fold s = fold t := by
  constructor
  · rintro ⟨r, u, hline, hget, hspelled⟩
    obtain ⟨s, hs, hkey⟩ := List.mem_map.mp hspelled
    exact ⟨s, ⟨r, u, hline, hget, hs⟩, hkey⟩
  · rintro ⟨s, ⟨r, u, hline, hget, hs⟩, hkey⟩
    exact ⟨r, u, hline, hget, List.mem_map.mpr ⟨s, hs, hkey⟩⟩

/-- The new tag is carried where the old one was. -/
theorem carries_newTag (h : v.TagRenameAccepted oldTag newTag)
    (hne : tagCiEqual oldTag newTag = false) :
    Carries (v.renameTags (renamedTag oldTag newTag) searches).root p newTag ↔
      Carries v.root p oldTag := by
  rw [carries_renameTags, carries_iff]
  refine exists_congr fun s ↦ and_congr_right fun ⟨r, u, _, hget, hs⟩ ↦ ?_
  have hreference : s ∈ v.tagReferences :=
    mem_tagReferences (.inl ⟨u.label, LeafTree.mem_labels.mpr ⟨r, u, hget, rfl⟩, .inl hs⟩)
  rw [fold_renamedTag]
  split_ifs with hold
  · exact iff_of_true rfl hold
  · exact iff_of_false (fold_ne_of_accepted h hne hreference) hold

/-- Other tags are carried where they were. -/
theorem carries_otherTag (hold : fold t ≠ fold oldTag) (hnew : fold t ≠ fold newTag) :
    Carries (v.renameTags (renamedTag oldTag newTag) searches).root p t ↔ Carries v.root p t := by
  rw [carries_renameTags, carries_iff]
  refine exists_congr fun s ↦ and_congr_right fun _ ↦ ?_
  rw [fold_renamedTag]
  split_ifs with hs
  · exact iff_of_false (Ne.symm hnew) fun heq ↦ hold (heq.symm.trans hs)
  · exact Iff.rfl

/-- A position is searched afterwards by the respelled tags it was searched by, but for the values of
fields. -/
theorem searchable_renamedTag (h : v.TagRenameAccepted oldTag newTag)
    (hne : tagCiEqual oldTag newTag = false) (ht : fold t ≠ fold newTag) :
    Searchable (v.renameTags (renamedTag oldTag newTag) searches).root
        (v.renameTags (renamedTag oldTag newTag) searches).settings p (renamedTag oldTag newTag t) ↔
      v.SearchableAs oldTag newTag p t := by
  -- A field value is carried on by its tag.
  have hvalue : ∀ x ∈ v.settings.tagFieldValues,
      (Carries (v.renameTags (renamedTag oldTag newTag) searches).root p
        (renamedTag oldTag newTag x.tag) ↔ Carries v.root p x.tag) := by
    intro x hx
    have hx' : x.tag ∈ v.tagReferences := List.mem_append_right _ (List.mem_map_of_mem hx)
    by_cases hold : fold x.tag = fold oldTag
    · rw [renamedTag, if_pos ((decides_tagCiEqual _ _).mpr hold), carries_newTag h hne]
      simp only [Carries, Spelled, hold]
    · rw [renamedTag, if_neg fun heq ↦ hold ((decides_tagCiEqual _ _).mp heq)]
      exact carries_otherTag hold (fold_ne_of_accepted h hne hx')
  have hvalues : (∃ x ∈ (v.renameTags (renamedTag oldTag newTag) searches).settings.tagFieldValues,
      Carries (v.renameTags (renamedTag oldTag newTag) searches).root p x.tag ∧
        fold (virtualTag x) = fold (renamedTag oldTag newTag t)) ↔
      ∃ x ∈ v.settings.tagFieldValues, Carries v.root p x.tag ∧
        fold (virtualTag x) = fold (renamedTag oldTag newTag t) := by
    change (∃ x ∈ v.settings.tagFieldValues.map fun x ↦
      ({ x with tag := renamedTag oldTag newTag x.tag } : TagFieldValue), _) ↔ _
    simp only [List.mem_map, exists_exists_and_eq_and]
    refine exists_congr fun x ↦ and_congr_right fun hx ↦ ?_
    exact and_congr_left' (hvalue x hx)
  rw [Searchable, hvalues, SearchableAs]
  by_cases hold : tagCiEqual t oldTag = true
  · rw [if_pos hold, renamedTag, if_pos hold, carries_newTag h hne]
  · have hold' : fold t ≠ fold oldTag := fun heq ↦ hold ((decides_tagCiEqual _ _).mpr heq)
    rw [if_neg hold, renamedTag, if_neg hold, carries_otherTag hold' ht]
    rfl

/-- What a respelled query finds afterwards. -/
theorem mem_runSearch_renamedTag (h : v.TagRenameAccepted oldTag newTag)
    (hne : tagCiEqual oldTag newTag = false) {v' : Vault μ}
    (hlive : v'.live = (v.renameTags (renamedTag oldTag newTag) searches).live)
    (hopen : v'.unlocked = true) {q : AdvancedQuery}
    (hq : ∀ t ∈ q.terms, tagCiEqual t newTag = false) :
    p ∈ (v'.runSearch (q.mapTags (renamedTag oldTag newTag))).map (·.node) ↔
      p ≠ [] ∧ ∃ u, v.root.get? p = some u ∧ inScope u.isGallery q.scope = true ∧
        Matches q u.label.name (v.SearchableAs oldTag newTag p) := by
  have hroot : v'.root = v.root.mapLabel (renameNodeTags (renamedTag oldTag newTag)) :=
    congrArg Snapshot.root hlive
  have hsettings : v'.settings = (v.renameTags (renamedTag oldTag newTag) searches).settings :=
    congrArg Snapshot.settings hlive
  have hmatches (u : Node μ) : Matches (q.mapTags (renamedTag oldTag newTag)) u.label.name
      (Searchable v'.root v'.settings p) ↔
      Matches q u.label.name (v.SearchableAs oldTag newTag p) := by
    rw [AdvancedQuery.matches_mapTags, hroot, hsettings]
    refine AdvancedQuery.matches_congr fun t ht ↦ searchable_renamedTag h hne fun heq ↦ ?_
    exact absurd ((decides_tagCiEqual _ _).mpr heq) (by rw [hq t ht]; nofun)
  have hgallery (u : Node μ) :
      (u.mapLabel (renameNodeTags (renamedTag oldTag newTag))).isGallery = u.isGallery := by
    cases u <;> rfl
  rw [mem_runSearch hopen, hroot]
  refine and_congr_right fun _ ↦ ?_
  simp only [LeafTree.get?_mapLabel, Option.map_eq_some_iff]
  constructor
  · rintro ⟨-, ⟨u, hget, rfl⟩, hscope, hm⟩
    rw [hgallery] at hscope
    rw [LeafTree.label_mapLabel] at hm
    refine ⟨u, hget, hscope, (hmatches u).mp ?_⟩
    rw [hroot]
    exact hm
  · rintro ⟨u, hget, hscope, hm⟩
    refine ⟨_, ⟨u, hget, rfl⟩, (hgallery u).symm ▸ hscope, ?_⟩
    rw [LeafTree.label_mapLabel, ← hroot]
    exact (hmatches u).mpr hm

end Search

/-! ## The promise and its condition -/

/-- A state that is spelled as asked keeps the promise when its queries are, too. -/
theorem tagRenamed_self_iff (haccepted : v.TagRenameAccepted oldTag newTag)
    (hspelled : v.SpelledAsAsked oldTag newTag) :
    TagRenamed oldTag newTag v (.ok, v) ↔
      ∀ s ∈ v.searches, ∀ q, deserializeQuery s.query = some q →
        ∀ t ∈ q.terms, tagCiEqual t oldTag = true → t = newTag := by
  constructor
  · intro h s hs q hq t ht hold
    obtain ⟨searches, hrespelled, hlive⟩ := h.everywhere rfl
    obtain rfl : v.searches = searches := congrArg Snapshot.searches hlive
    have hsame := (List.forall₂_same.mp hrespelled s hs).query q hq
    have hfix := AdvancedQuery.eq_of_mapTags_eq_self (Option.some.inj (hsame.symm.trans hq)) t ht
    rwa [renamedTag, if_pos hold, eq_comm] at hfix
  · intro h
    have hfix : ∀ s ∈ v.searches, ∀ q, deserializeQuery s.query = some q →
        q.mapTags (renamedTag oldTag newTag) = q := by
      intro s hs q hq
      refine AdvancedQuery.mapTags_eq_self fun t ht ↦ ?_
      rw [renamedTag]
      split_ifs with hold
      · exact (h s hs q hq t ht hold).symm
      · rfl
    refine ⟨fun hne ↦ absurd rfl hne, fun _ ↦ ⟨v.searches, ?_, ?_⟩, fun _ l ↦
      nodup_renamedTag haccepted, fun _ ↦ ?_, fun _ _ ↦ ?_⟩
    · exact List.forall₂_same.mpr fun s hs ↦ .refl (hfix s hs)
    · exact (live_renameTags_eq_self fun t ↦ renamedTag_eq_self hspelled).symm
    · refine List.forall₂_same.mpr fun s _ q q' hq hq' htidy ↦ ?_
      rwa [← Option.some.inj (hq.symm.trans hq')]
    · refine List.forall₂_same.mpr fun s _ q q' hq hq' _ p ↦ ?_
      rw [Option.some.inj (hq.symm.trans hq')]

/-- A renaming that is carried out keeps the promise when the queries do not mention both tags, nor
the values of fields by the old one. -/
theorem tagRenamed_due_iff {v' : Vault μ} (haccepted : v.TagRenameAccepted oldTag newTag)
    (hlive : v'.live = (v.renameTags (renamedTag oldTag newTag)
      (v.searches.map (renameSearch oldTag newTag))).live)
    (hopen : v'.unlocked = v.unlocked) :
    TagRenamed oldTag newTag v (.ok, v') ↔
      (tagCiEqual oldTag newTag = false → ∀ s ∈ v.searches, ∀ q,
        deserializeQuery s.query = some q → q.Tidy →
          ∀ l ∈ q.lists, ¬ (Spelled l oldTag ∧ Spelled l newTag)) ∧
      (tagCiEqual oldTag newTag = false → ∀ s ∈ v.searches, ∀ q,
        deserializeQuery s.query = some q → (∀ t ∈ q.terms, tagCiEqual t newTag = false) →
          ∀ p u, p ≠ [] → v.root.get? p = some u → inScope u.isGallery q.scope = true →
            (Matches q u.label.name (v.SearchableAs oldTag newTag p) ↔
              Matches q u.label.name (Searchable v.root v.settings p))) := by
  have hunlocked : v.unlocked = true := by
    have h := haccepted.writable
    rw [writable] at h
    split_ifs at h with hlocked
    simpa using hlocked
  have hlength : newTag.length ≤ maxTagBytes := by
    have h := haccepted.names
    simp only [Bool.or_eq_false_iff, tagUnstorable, decide_eq_false_iff_not, not_lt] at h
    exact h.2.1
  have hsearches : v'.searches = v.searches.map (renameSearch oldTag newTag) :=
    congrArg Snapshot.searches hlive
  have hrespelled := @respelled_renameSearch oldTag _ hlength
  -- The promises about queries speak of each query and its respelling.
  have hforall {P : AdvancedQuery → AdvancedQuery → Prop} : List.Forall₂ (fun s s' ↦ ∀ q q',
      deserializeQuery s.query = some q → deserializeQuery s'.query = some q' → P q q')
      v.searches v'.searches ↔ ∀ s ∈ v.searches, ∀ q, deserializeQuery s.query = some q →
        P q (q.mapTags (renamedTag oldTag newTag)) := by
    rw [hsearches, List.forall₂_map_right_iff, List.forall₂_same]
    refine forall₂_congr fun s _ ↦ ?_
    constructor
    · exact fun h q hq ↦ h q _ hq ((hrespelled s).query q hq)
    · intro h q q' hq hq'
      rw [(hrespelled s).query q hq] at hq'
      exact Option.some.inj hq' ▸ h q hq
  have hfound : ∀ {q : AdvancedQuery} {p : List ℕ}, p ∈ (v.runSearch q).map (·.node) ↔
      p ≠ [] ∧ ∃ u, v.root.get? p = some u ∧ inScope u.isGallery q.scope = true ∧
        Matches q u.label.name (Searchable v.root v.settings p) := mem_runSearch hunlocked
  constructor
  · intro h
    refine ⟨fun hne s hs q hq htidy ↦ ?_, fun hne s hs q hq hnone p u hp hget hscope ↦ ?_⟩
    · have htidy' := hforall.mp (h.tidy rfl) s hs q hq htidy
      exact ((tidy_mapTags_renamedTag_iff htidy).mp htidy').resolve_left (by rw [hne]; rintro ⟨⟩)
    · have hunused : ∀ t ∈ v.tagReferences, tagCiEqual t newTag = false := fun t ht ↦
        Bool.eq_false_iff.mpr fun heq ↦
          fold_ne_of_accepted haccepted hne ht ((decides_tagCiEqual _ _).mp heq)
      have hresults := hforall.mp (h.results rfl hunused) s hs q hq hnone p
      rw [mem_runSearch_renamedTag haccepted hne hlive (hopen.trans hunlocked) hnone, hfound]
        at hresults
      simpa [hp, hget, hscope] using hresults
  · rintro ⟨hapart, hvalues⟩
    refine ⟨fun hne ↦ absurd rfl hne, fun _ ↦ ⟨_, ?_, hlive⟩, fun _ l ↦ nodup_renamedTag haccepted,
      fun _ ↦ hforall.mpr fun s hs q hq htidy ↦ ?_, fun _ hunused ↦
      hforall.mpr fun s hs q hq hnone p ↦ ?_⟩
    · rw [List.forall₂_map_right_iff, List.forall₂_same]
      exact fun s _ ↦ hrespelled s
    · refine (tidy_mapTags_renamedTag_iff htidy).mpr ?_
      rcases hsame : tagCiEqual oldTag newTag with _ | _
      · exact .inr (hapart hsame s hs q hq htidy)
      · exact .inl rfl
    · -- Were both spellings of one tag, the new one would be in use.
      have hne : tagCiEqual oldTag newTag = false := by
        obtain ⟨t, ht, hold⟩ := List.any_eq_true.mp haccepted.found
        refine Bool.eq_false_iff.mpr fun heq ↦ ?_
        have hnew : tagCiEqual t newTag = true := (decides_tagCiEqual _ _).mpr
          (((decides_tagCiEqual _ _).mp hold).trans ((decides_tagCiEqual _ _).mp heq))
        exact absurd (hnew.symm.trans (hunused t ht)) (by rintro ⟨⟩)
      rw [mem_runSearch_renamedTag haccepted hne hlive (hopen.trans hunlocked) hnone, hfound]
      refine and_congr_right fun hp ↦ exists_congr fun u ↦ and_congr_right fun hget ↦
        and_congr_right fun hscope ↦ hvalues hne s hs q hq hnone p u hp hget hscope

/-- **Renaming a tag.** The promise is kept exactly under the condition. -/
theorem respellTag_sound_iff (oldTag newTag : Bytes) (outcome : VaultResult) (v : Vault μ) :
    let old := normaliseTag oldTag
    let new := normaliseTag newTag
    TagRenamed old new v (v.respellTag oldTag newTag outcome) ↔ v.TagRenameSafe old new outcome := by
  intro old new
  rcases respellTag_cases (show _ = v.respellTag oldTag newTag outcome from rfl) with
    ⟨hsame, hne, hdue, hasked⟩ | ⟨hout, haccepted, hasked⟩ | ⟨hdue, v', hout, hopen, hlive⟩
  · refine iff_of_true ?_ ?_
    · exact ⟨fun _ ↦ hsame, fun h ↦ absurd h hne, fun h ↦ absurd h hne, fun h ↦ absurd h hne,
        fun h ↦ absurd h hne⟩
    · exact ⟨fun h h' ↦ absurd ⟨h, h'⟩ hasked, fun h ↦ absurd h hdue, fun h ↦ absurd h hdue⟩
  · rw [hout, tagRenamed_self_iff haccepted hasked]
    have hdue : ¬ v.TagRenameDue old new outcome := fun h ↦ h.due hasked
    exact ⟨fun h ↦ ⟨fun _ _ ↦ h, fun h' ↦ absurd h' hdue, fun h' ↦ absurd h' hdue⟩, fun h ↦
      h.spelled haccepted hasked⟩
  · rw [hout, tagRenamed_due_iff hdue.accepted hlive hopen]
    exact ⟨fun h ↦ ⟨fun _ h' ↦ absurd h' hdue.due, fun _ ↦ h.1, fun _ ↦ h.2⟩, fun h ↦
      ⟨h.apart hdue, h.values hdue⟩⟩

/-- A query that includes the old tag and excludes the new one includes and excludes it afterwards. -/
theorem respellTag_untidy :
    let q : AdvancedQuery := { includes := [⟨[97], 1⟩], excludes := [[98]] }
    let q' : AdvancedQuery := { includes := [⟨[98], 1⟩], excludes := [[98]] }
    let root : Node Unit := .branch { name := [], tags := [[97]] } []
    let v : Vault Unit :=
      ⟨true, true, false, root, {}, [⟨[113], serializeQuery q⟩], ⟨root, {}, []⟩⟩
    let out := v.respellTag [97] [98] .ok
    q.Tidy ∧ ¬ q'.Tidy ∧ out.1 = .ok ∧ out.2.searches = [⟨[113], serializeQuery q'⟩] ∧
      ¬ TagRenamed [97] [98] v out := by
  intro q q' root v out
  have htidy : q.Tidy := by decide
  have huntidy : ¬ q'.Tidy := by decide
  have hok : out.1 = .ok := by decide +kernel
  have hsearches : out.2.searches = [⟨[113], serializeQuery q'⟩] := by decide +kernel
  refine ⟨htidy, huntidy, hok, hsearches, fun h ↦ huntidy ?_⟩
  have hkept := h.tidy hok
  rw [hsearches] at hkept
  obtain ⟨hkept, -⟩ := List.forall₂_cons.mp hkept
  exact hkept q q' (by decide +kernel) (by decide +kernel) htidy

end Vault

end SafeVault
