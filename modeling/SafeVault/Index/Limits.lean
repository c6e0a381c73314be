import SafeVault.Index.Codec

/-!
# What a blob can hold

The writer clamps and the reader rejects, each with limits of its own. An index is *storable* when it
is within all of them, so that the writer cuts nothing and the reader has nothing to object to. The
limits are stated here once; `Storable` is neither the writer's nor the reader's condition but what
the two must agree on.

Three of them are not lengths. The tree has a bounded height, because the reader bounds its
recursion and the writer does not. Lists with a key hold each key once up to case, because the
reader drops repetitions. And the migration watermark and the swatches name things this version
knows.

Tag bundles and tag provenance are not in the format. `carried` is the part of an index that is.
-/

namespace SafeVault

/-! ## The part of an index that a blob carries -/

/-- A header without provenance. -/
def NodeHeader.carried (h : NodeHeader) : NodeHeader :=
  { h with tagProvenance := false, explicitTags := [], tagBundles := [] }

def IndexNode.carried (t : IndexNode) : IndexNode := t.mapLabel NodeHeader.carried

def VaultSettings.carried (s : VaultSettings) : VaultSettings := { s with tagBundles := [] }

def Index.carried (x : Index) : Index :=
  { x with root := x.root.carried, settings := x.settings.carried }

/-! ## The limits -/

/-- Name and tags fit their length fields. -/
structure NodeHeader.Fits (h : NodeHeader) : Prop where
  name : h.name.length ≤ 0xFFFF
  tagCount : h.tags.length ≤ indexMaxTags
  tags : ∀ t ∈ h.tags, t.length ≤ 0xFFFF

/-- A video has no more chunks than the reader accepts. -/
def Media.Fits : Media → Prop
  | .image _ => True
  | .video vid => vid.chunks.length ≤ indexMaxVideoChunks

/-- The header of every node and the payload of every leaf fit, and child counts fit a word. -/
def IndexNode.Fits (t : IndexNode) : Prop :=
  t.All (fun h cs ↦ h.Fits ∧ cs.length < 2 ^ 32) (fun h m ↦ h.Fits ∧ m.Fits)

structure IndexNode.Storable (t : IndexNode) : Prop where
  height : t.height ≤ indexMaxDepth
  fits : t.Fits

structure SavedSearch.Fits (s : SavedSearch) : Prop where
  name : s.name.length ≤ 0xFFFF
  query : s.query.length ≤ indexMaxSavedQueryBytes

structure SavedSearch.Storable (searches : List SavedSearch) : Prop where
  count : searches.length ≤ indexMaxSavedSearches
  fits : ∀ s ∈ searches, s.Fits

/-- No two entries of a list are the same up to the test the reader drops repetitions by. -/
def Distinct {α : Type} (same : α → α → Bool) (xs : List α) : Prop :=
  xs.Pairwise fun a b ↦ same a b = false

structure TagCategory.Fits (c : TagCategory) : Prop where
  name : c.name.length ≤ indexMaxCategoryBytes
  swatch : c.swatch.toNat < tagSwatchCount
  fieldCount : c.fields.length ≤ indexMaxTemplateFields
  fields : ∀ f ∈ c.fields, f.length ≤ indexMaxFieldBytes
  distinct : Distinct categoryNameEq c.fields

structure TagDescription.Fits (d : TagDescription) : Prop where
  tag : d.tag.length ≤ 0xFFFF
  text : d.text.length ≤ indexMaxTagDescBytes

structure TagFieldValue.Fits (e : TagFieldValue) : Prop where
  tag : e.tag.length ≤ 0xFFFF
  field : e.field.length ≤ indexMaxFieldBytes
  value : e.value.length ≤ indexMaxFieldValueBytes

structure VaultSettings.Storable (s : VaultSettings) : Prop where
  categoryCount : s.categories.length ≤ indexMaxTagCategories
  categories : ∀ c ∈ s.categories, c.Fits
  categoriesDistinct : Distinct (fun e c ↦ categoryNameEq e.name c.name) s.categories
  descriptionCount : s.tagDescriptions.length ≤ indexMaxTagDescriptions
  descriptions : ∀ d ∈ s.tagDescriptions, d.Fits
  descriptionsDistinct : Distinct (fun e d ↦ categoryNameEq e.tag d.tag) s.tagDescriptions
  valueCount : s.tagFieldValues.length ≤ indexMaxTagFieldValues
  values : ∀ e ∈ s.tagFieldValues, e.Fits
  valuesDistinct : Distinct
    (fun x e ↦ categoryNameEq x.tag e.tag && categoryNameEq x.field e.field) s.tagFieldValues
  migrated : s.migratedIndexVersion ≤ indexVersion

/-- Everything about the index is within the limits of the format. -/
structure Index.Storable (x : Index) : Prop where
  root : x.root.Storable
  searches : SavedSearch.Storable x.searches
  settings : x.settings.Storable

/-! ## The limits only see what is carried -/

theorem NodeHeader.fits_carried {h : NodeHeader} : h.carried.Fits ↔ h.Fits :=
  ⟨fun ⟨hn, hc, ht⟩ ↦ ⟨hn, hc, ht⟩, fun ⟨hn, hc, ht⟩ ↦ ⟨hn, hc, ht⟩⟩

theorem IndexNode.storable_carried {t : IndexNode} : t.carried.Storable ↔ t.Storable := by
  have hfits : t.carried.Fits ↔ t.Fits := by
    rw [IndexNode.Fits, IndexNode.carried, LeafTree.all_mapLabel]
    simp only [NodeHeader.fits_carried, List.length_map]
    rfl
  have hheight : t.carried.height = t.height := LeafTree.height_mapLabel _ t
  exact ⟨fun ⟨hh, hf⟩ ↦ ⟨hheight ▸ hh, hfits.mp hf⟩,
    fun ⟨hh, hf⟩ ↦ ⟨hheight.symm ▸ hh, hfits.mpr hf⟩⟩

theorem VaultSettings.storable_carried {s : VaultSettings} : s.carried.Storable ↔ s.Storable :=
  ⟨fun h ↦ ⟨h.1, h.2, h.3, h.4, h.5, h.6, h.7, h.8, h.9, h.10⟩,
    fun h ↦ ⟨h.1, h.2, h.3, h.4, h.5, h.6, h.7, h.8, h.9, h.10⟩⟩

theorem Index.storable_carried {x : Index} : x.carried.Storable ↔ x.Storable :=
  ⟨fun ⟨hr, hs, hv⟩ ↦
      ⟨IndexNode.storable_carried.mp hr, hs, VaultSettings.storable_carried.mp hv⟩,
    fun ⟨hr, hs, hv⟩ ↦
      ⟨IndexNode.storable_carried.mpr hr, hs, VaultSettings.storable_carried.mpr hv⟩⟩

end SafeVault
