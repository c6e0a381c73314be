import SafeVault.Tags.DictParse
import SafeVault.V3.SettingsEdits

/-!
# Importing a tag dictionary

The entries are applied to the settings one after another: the category of an entry is registered
unless there is one of that name or no room, and its description is set unless it is empty or there is
no room. As no two entries describe the same tag, what one of them did is not undone by the others, and
importing the same dictionary once more finds nothing to do.
-/

namespace SafeVault

open KeyedList (lookup lookup_put lookup_put_of_ne any_of_lookup_ne prefix_map_put)
open V3 (setTagDescription)

namespace TagDict

/-! ## The import -/

/-- `find_category`, of the settings. -/
def findCategory (s : VaultSettings) (name : Bytes) : Option TagCategory :=
  s.categories.find? (tagCiEqual ·.name name)

/-- `find_tag_description` -/
def findTagDescription (s : VaultSettings) (tag : Bytes) : Bytes :=
  lookup (·.text) [] (categoryNameEq ·.tag tag) s.tagDescriptions

/-- `next_swatch` -/
def nextSwatch (s : VaultSettings) : UInt8 :=
  match (List.range tagSwatchCount).find? fun i ↦ s.categories.all (·.swatch.toNat ≠ i) with
  | some i => .ofNat i
  | none => .ofNat (s.categories.length % tagSwatchCount)

end TagDict

structure TagDictImportSummary where
  categoriesAdded : ℕ := 0
  descriptionsAdded : ℕ := 0
  descriptionsUpdated : ℕ := 0
  entriesSkippedMalformed : ℕ := 0
  fieldsTruncated : ℕ := 0
  entriesSkippedOverCap : ℕ := 0
  categoriesSkippedOverCap : ℕ := 0
  deriving DecidableEq

namespace TagDict

/-- The settings on the way, and the summary. -/
abbrev Progress := VaultSettings × TagDictImportSummary

def registerCategory (e : TagDictEntry) (st : Progress) : Progress :=
  let (s, sum) := st
  if e.category.isEmpty then st
  else if (findCategory s e.category).isSome then st
  else if indexMaxTagCategories ≤ s.categories.length then
    (s, { sum with categoriesSkippedOverCap := sum.categoriesSkippedOverCap + 1 })
  else
    ({ s with categories := s.categories ++ [⟨e.category, nextSwatch s, []⟩] },
      { sum with categoriesAdded := sum.categoriesAdded + 1 })

def upsertDescription (e : TagDictEntry) (st : Progress) : Progress :=
  let (s, sum) := st
  if e.description.isEmpty then st
  else
    let existing := findTagDescription s e.key
    if existing.isEmpty then
      -- Only a new key needs a free place.
      if indexMaxTagDescriptions ≤ s.tagDescriptions.length then
        (s, { sum with entriesSkippedOverCap := sum.entriesSkippedOverCap + 1 })
      else
        (setTagDescription e.key e.description s,
          { sum with descriptionsAdded := sum.descriptionsAdded + 1 })
    else if existing = e.description then st
    else
      (setTagDescription e.key e.description s,
        { sum with descriptionsUpdated := sum.descriptionsUpdated + 1 })

def applyEntry (st : Progress) (e : TagDictEntry) : Progress :=
  upsertDescription e (registerCategory e st)

end TagDict

/-- `apply_tag_dict` -/
def applyTagDict (s : VaultSettings) (parsed : TagDictParseResult) :
    VaultSettings × TagDictImportSummary :=
  parsed.entries.foldl TagDict.applyEntry
    (s, { entriesSkippedMalformed := parsed.malformedSkipped
          fieldsTruncated := parsed.fieldsTruncated
          entriesSkippedOverCap := parsed.overCapSkipped })

namespace TagDict

/-! ## One entry -/

section Step

variable {s t : VaultSettings} {sum : TagDictImportSummary} {st : Progress} {e e' : TagDictEntry}
  {tag text : Bytes}

/-- The category of an entry needs nothing more. -/
def Registered (s : VaultSettings) (e : TagDictEntry) : Prop :=
  e.category = [] ∨ (findCategory s e.category).isSome ∨ indexMaxTagCategories ≤ s.categories.length

/-- The description of an entry needs nothing more. -/
def Described (s : VaultSettings) (e : TagDictEntry) : Prop :=
  e.description = [] ∨ findTagDescription s e.key = e.description ∨
    findTagDescription s e.key = [] ∧ indexMaxTagDescriptions ≤ s.tagDescriptions.length

/-- The counts of changes. -/
def changes (sum : TagDictImportSummary) : ℕ × ℕ × ℕ :=
  (sum.categoriesAdded, sum.descriptionsAdded, sum.descriptionsUpdated)

/-- **A category** is there already, or there is no room, or it is added at the end. -/
theorem registerCategory_cases (e : TagDictEntry) (s : VaultSettings) (sum : TagDictImportSummary) :
    let out := registerCategory e (s, sum)
    (Registered s e ∧ out.1 = s ∧ changes out.2 = changes sum) ∨
    (e.category ≠ [] ∧ findCategory s e.category = none ∧
      s.categories.length < indexMaxTagCategories ∧
      out.1 = { s with categories := s.categories ++ [⟨e.category, nextSwatch s, []⟩] } ∧
      changes out.2 = (sum.categoriesAdded + 1, sum.descriptionsAdded, sum.descriptionsUpdated)) := by
  rw [registerCategory]
  dsimp only
  split_ifs with hempty hthere hfull
  · exact .inl ⟨.inl (List.isEmpty_iff.mp hempty), rfl, rfl⟩
  · exact .inl ⟨.inr (.inl hthere), rfl, rfl⟩
  · exact .inl ⟨.inr (.inr hfull), rfl, rfl⟩
  · rw [Bool.not_eq_true, Option.isSome_eq_false_iff, Option.isNone_iff_eq_none] at hthere
    exact .inr ⟨by rwa [List.isEmpty_iff] at hempty, hthere, Nat.lt_of_not_le hfull, rfl, rfl⟩

/-- **A description** is there already, or there is nothing to set or no room, or it is set. -/
theorem upsertDescription_cases (e : TagDictEntry) (s : VaultSettings) (sum : TagDictImportSummary) :
    let out := upsertDescription e (s, sum)
    (Described s e ∧ out.1 = s ∧ changes out.2 = changes sum) ∨
    (e.description ≠ [] ∧ findTagDescription s e.key ≠ e.description ∧
      (s.tagDescriptions.length < indexMaxTagDescriptions ∨ findTagDescription s e.key ≠ []) ∧
      out.1 = setTagDescription e.key e.description s ∧
      changes out.2 = if findTagDescription s e.key = [] then
          (sum.categoriesAdded, sum.descriptionsAdded + 1, sum.descriptionsUpdated)
        else (sum.categoriesAdded, sum.descriptionsAdded, sum.descriptionsUpdated + 1)) := by
  rw [upsertDescription]
  dsimp only
  by_cases hempty : e.description.isEmpty = true
  · rw [if_pos hempty]
    exact .inl ⟨.inl (List.isEmpty_iff.mp hempty), rfl, rfl⟩
  rw [if_neg hempty]
  rw [List.isEmpty_iff] at hempty
  by_cases hnew : (findTagDescription s e.key).isEmpty = true
  · rw [if_pos hnew]
    rw [List.isEmpty_iff] at hnew
    by_cases hfull : indexMaxTagDescriptions ≤ s.tagDescriptions.length
    · rw [if_pos hfull]
      exact .inl ⟨.inr (.inr ⟨hnew, hfull⟩), rfl, rfl⟩
    · rw [if_neg hfull, if_pos hnew]
      exact .inr ⟨hempty, hnew ▸ Ne.symm hempty, .inl (Nat.lt_of_not_le hfull), rfl, rfl⟩
  · rw [if_neg hnew]
    rw [List.isEmpty_iff] at hnew
    by_cases hsame : findTagDescription s e.key = e.description
    · rw [if_pos hsame]
      exact .inl ⟨.inr (.inl hsame), rfl, rfl⟩
    · rw [if_neg hsame, if_neg hnew]
      exact .inr ⟨hempty, hsame, .inr hnew, rfl, rfl⟩

/-! ## Descriptions -/

theorem categoryNameEq_iff_fold {a b : Bytes} :
    categoryNameEq a b = true ↔ AsciiFold.fold a = AsciiFold.fold b := AsciiFold.equal_iff

/-- A description that was set is found. -/
theorem findTagDescription_set (htext : text ≠ [])
    (hroom : s.tagDescriptions.length < indexMaxTagDescriptions ∨ findTagDescription s tag ≠ []) :
    findTagDescription (setTagDescription tag text s) tag = text := by
  rw [findTagDescription, setTagDescription]
  dsimp only
  rw [List.isEmpty_eq_false_iff.mpr htext]
  have hchange : ∀ d : TagDescription, categoryNameEq d.tag tag = true →
      categoryNameEq ({ d with text } : TagDescription).tag tag = true := fun _ h ↦ h
  have hfresh : categoryNameEq (TagDescription.mk tag text).tag tag = true := AsciiFold.equal_self tag
  exact lookup_put (hroom.imp_right any_of_lookup_ne) hchange hfresh (fun _ ↦ rfl) rfl

/-- **The others are found as before.** -/
theorem findTagDescription_set_of_ne {other : Bytes} (htext : text ≠ [])
    (hne : AsciiFold.fold tag ≠ AsciiFold.fold other) :
    findTagDescription (setTagDescription tag text s) other = findTagDescription s other := by
  rw [findTagDescription, findTagDescription, setTagDescription]
  dsimp only
  rw [List.isEmpty_eq_false_iff.mpr htext]
  refine lookup_put_of_ne (fun d hd ↦ ?_) (AsciiFold.equal_eq_false_iff.mpr hne)
  have hother : categoryNameEq d.tag other = false :=
    AsciiFold.equal_eq_false_iff.mpr (AsciiFold.equal_iff.mp hd ▸ hne)
  exact ⟨hother, hother⟩

/-! ## What an import keeps -/

/-- Nothing is lost: categories stay as they are, tags stay described, and everything else is the
same. -/
structure Grows (s t : VaultSettings) : Prop where
  rest : t = { s with categories := t.categories, tagDescriptions := t.tagDescriptions }
  categories : s.categories <+: t.categories
  tags : s.tagDescriptions.map (·.tag) <+: t.tagDescriptions.map (·.tag)
  described : ∀ tag, findTagDescription s tag ≠ [] → findTagDescription t tag ≠ []

/-- What an import asks of the settings it leaves, if it is asked of those it finds. -/
structure Keeps (s t : VaultSettings) : Prop where
  unique : (s.categories.map fun c ↦ AsciiFold.fold c.name).Nodup →
    (t.categories.map fun c ↦ AsciiFold.fold c.name).Nodup
  categories_le : s.categories.length ≤ indexMaxTagCategories →
    t.categories.length ≤ indexMaxTagCategories
  names_le : (∀ c ∈ s.categories, c.name.length ≤ indexMaxCategoryBytes) →
    ∀ c ∈ t.categories, c.name.length ≤ indexMaxCategoryBytes
  descriptions_le : s.tagDescriptions.length ≤ indexMaxTagDescriptions →
    t.tagDescriptions.length ≤ indexMaxTagDescriptions
  texts_le : (∀ d ∈ s.tagDescriptions, d.text.length ≤ indexMaxTagDescBytes) →
    ∀ d ∈ t.tagDescriptions, d.text.length ≤ indexMaxTagDescBytes

theorem Grows.refl (s : VaultSettings) : Grows s s :=
  ⟨rfl, List.prefix_rfl, List.prefix_rfl, fun _ h ↦ h⟩

theorem Grows.trans {u : VaultSettings} (h : Grows s t) (h' : Grows t u) : Grows s u := by
  refine ⟨?_, h.categories.trans h'.categories, h.tags.trans h'.tags,
    fun tag hne ↦ h'.described tag (h.described tag hne)⟩
  rw [h'.rest, h.rest]

theorem Keeps.refl (s : VaultSettings) : Keeps s s :=
  ⟨fun h ↦ h, fun h ↦ h, fun h ↦ h, fun h ↦ h, fun h ↦ h⟩

theorem Keeps.trans {u : VaultSettings} (h : Keeps s t) (h' : Keeps t u) : Keeps s u :=
  ⟨fun hs ↦ h'.unique (h.unique hs), fun hs ↦ h'.categories_le (h.categories_le hs),
    fun hs ↦ h'.names_le (h.names_le hs), fun hs ↦ h'.descriptions_le (h.descriptions_le hs),
    fun hs ↦ h'.texts_le (h.texts_le hs)⟩

theorem grows_registerCategory : Grows s (registerCategory e (s, sum)).1 := by
  rcases registerCategory_cases e s sum with ⟨-, hout, -⟩ | ⟨-, -, -, hout, -⟩
  · rw [hout]
    exact .refl s
  · rw [hout]
    exact ⟨rfl, List.prefix_append _ _, List.prefix_rfl, fun _ h ↦ h⟩

theorem keeps_registerCategory (he : Sound e) : Keeps s (registerCategory e (s, sum)).1 := by
  rcases registerCategory_cases e s sum with ⟨-, hout, -⟩ | ⟨-, hnone, hroom, hout, -⟩
  · rw [hout]
    exact .refl s
  rw [hout]
  refine ⟨fun hunique ↦ ?_, fun _ ↦ ?_, fun hnames c hc ↦ ?_, fun h ↦ h, fun h ↦ h⟩
  · dsimp only
    rw [List.map_append, List.map_singleton, List.nodup_append]
    refine ⟨hunique, List.nodup_singleton _, fun k hk k' hk' ↦ ?_⟩
    rw [List.mem_singleton.mp hk']
    rintro rfl
    obtain ⟨c, hc, hkey⟩ := List.mem_map.mp hk
    have hne := List.find?_eq_none.mp hnone c hc
    exact hne (AsciiFold.equal_iff.mpr hkey)
  · dsimp only
    rw [List.length_append, List.length_singleton]
    exact hroom
  · rcases List.mem_append.mp hc with hc | hc
    · exact hnames c hc
    · rw [List.mem_singleton.mp hc]
      exact he.category_le

theorem grows_upsertDescription : Grows s (upsertDescription e (s, sum)).1 := by
  rcases upsertDescription_cases e s sum with ⟨-, hout, -⟩ | ⟨htext, -, hroom, hout, -⟩
  · rw [hout]
    exact .refl s
  rw [hout]
  refine ⟨rfl, List.prefix_rfl, ?_, fun tag hne ↦ ?_⟩
  · rw [setTagDescription, List.isEmpty_eq_false_iff.mpr htext]
    exact prefix_map_put fun _ ↦ rfl
  · by_cases hkey : AsciiFold.fold e.key = AsciiFold.fold tag
    · -- The two spellings find the same entry.
      have hsame : ∀ u, findTagDescription u tag = findTagDescription u e.key := by
        intro u
        rw [findTagDescription, findTagDescription]
        refine congrArg (fun p ↦ lookup _ _ p u.tagDescriptions) (funext fun d ↦ ?_)
        rw [Bool.eq_iff_iff, categoryNameEq_iff_fold, categoryNameEq_iff_fold, hkey]
      rw [hsame, findTagDescription_set htext hroom]
      exact htext
    · rwa [findTagDescription_set_of_ne htext hkey]

theorem keeps_upsertDescription (he : Sound e) : Keeps s (upsertDescription e (s, sum)).1 := by
  rcases upsertDescription_cases e s sum with ⟨-, hout, -⟩ | ⟨htext, -, -, hout, -⟩
  · rw [hout]
    exact .refl s
  rw [hout]
  refine ⟨fun h ↦ h, fun h ↦ h, fun h ↦ h, KeyedList.length_put_le, fun htexts d hd ↦ ?_⟩
  rcases KeyedList.mem_put hd with hd | ⟨-, -, b, -, -, rfl⟩ | ⟨-, -, -, rfl⟩
  · exact htexts d hd
  · exact he.description_le
  · exact he.description_le

/-! ## What one entry comes to -/

theorem grows_applyEntry : Grows s (applyEntry (s, sum) e).1 := by
  rw [applyEntry]
  exact grows_registerCategory.trans grows_upsertDescription

theorem keeps_applyEntry (he : Sound e) : Keeps s (applyEntry (s, sum) e).1 := by
  rw [applyEntry]
  exact (keeps_registerCategory he).trans (keeps_upsertDescription he)

theorem Grows.registered (h : Grows s t) (hs : Registered s e) : Registered t e := by
  obtain ⟨more, hmore⟩ := h.categories
  rcases hs with hempty | hthere | hfull
  · exact .inl hempty
  · refine .inr (.inl ?_)
    rw [findCategory, ← hmore, List.find?_append, Option.isSome_or]
    exact Bool.or_eq_true_iff.mpr (.inl hthere)
  · exact .inr (.inr (hfull.trans h.categories.length_le))

theorem Grows.length_le (h : Grows s t) : s.tagDescriptions.length ≤ t.tagDescriptions.length := by
  have hle := h.tags.length_le
  rwa [List.length_map, List.length_map] at hle

/-- The category is registered then, and a description that can be stored is. -/
theorem settled_applyEntry :
    Registered (applyEntry (s, sum) e).1 e ∧ Described (applyEntry (s, sum) e).1 e := by
  rw [applyEntry]
  have hregistered : Registered (registerCategory e (s, sum)).1 e := by
    rcases registerCategory_cases e s sum with ⟨hs, hout, -⟩ | ⟨-, -, -, hout, -⟩
    · rwa [hout]
    · refine .inr (.inl ?_)
      rw [hout, findCategory, List.find?_append, Option.isSome_or, Bool.or_eq_true]
      right
      have hself : tagCiEqual e.category e.category = true := AsciiFold.equal_self _
      simp [hself]
  refine ⟨grows_upsertDescription.registered hregistered, ?_⟩
  set mid := registerCategory e (s, sum)
  rcases upsertDescription_cases e mid.1 mid.2 with ⟨hs, hout, -⟩ | ⟨htext, -, hroom, hout, -⟩
  · rwa [hout]
  · rw [hout]
    exact .inr (.inl (findTagDescription_set htext hroom))

theorem findTagDescription_registerCategory :
    findTagDescription (registerCategory e (s, sum)).1 tag = findTagDescription s tag := by
  rcases registerCategory_cases e s sum with ⟨-, hout, -⟩ | ⟨-, -, -, hout, -⟩
  · rw [hout]
  · rw [hout]
    rfl

/-- **Another tag** keeps its description. -/
theorem findTagDescription_applyEntry (hne : AsciiFold.fold e.key ≠ AsciiFold.fold tag) :
    findTagDescription (applyEntry (s, sum) e).1 tag = findTagDescription s tag := by
  rw [applyEntry, ← @findTagDescription_registerCategory s sum e tag]
  set mid := registerCategory e (s, sum)
  rcases upsertDescription_cases e mid.1 mid.2 with ⟨-, hout, -⟩ | ⟨htext, -, -, hout, -⟩
  · rw [hout]
  · rw [hout, findTagDescription_set_of_ne htext hne]

/-- What is counted for a category. -/
theorem changes_registerCategory : changes (registerCategory e (s, sum)).2 =
    (sum.categoriesAdded +
        ((registerCategory e (s, sum)).1.categories.length - s.categories.length),
      sum.descriptionsAdded, sum.descriptionsUpdated) := by
  rcases registerCategory_cases e s sum with ⟨-, hout, hsum⟩ | ⟨-, -, -, hout, hsum⟩
  · rw [hsum, hout, Nat.sub_self]
    rfl
  · rw [hsum, hout]
    simp

theorem categories_upsertDescription :
    (upsertDescription e (s, sum)).1.categories = s.categories := by
  rcases upsertDescription_cases e s sum with ⟨-, hout, -⟩ | ⟨-, -, -, hout, -⟩
  · rw [hout]
  · rw [hout]
    rfl

/-- What is counted for a description. -/
theorem changes_upsertDescription :
    let t := (upsertDescription e (s, sum)).1
    changes (upsertDescription e (s, sum)).2 =
      (sum.categoriesAdded,
        sum.descriptionsAdded +
          (decide (findTagDescription s e.key = [] ∧ findTagDescription t e.key ≠ [])).toNat,
        sum.descriptionsUpdated + (decide (findTagDescription s e.key ≠ [] ∧
          findTagDescription t e.key ≠ findTagDescription s e.key)).toNat) := by
  rcases upsertDescription_cases e s sum with ⟨-, hout, hsum⟩ | ⟨htext, hne, hroom, hout, hsum⟩
  · rw [hsum, hout]
    dsimp only
    rw [decide_eq_false fun h ↦ h.2 h.1, decide_eq_false fun h ↦ h.2 rfl]
    rfl
  · have hset := findTagDescription_set htext hroom
    rw [hsum, hout]
    dsimp only
    rw [hset]
    by_cases hnone : findTagDescription s e.key = []
    · rw [if_pos hnone, decide_eq_true ⟨hnone, htext⟩, decide_eq_false fun h ↦ h.1 hnone]
      rfl
    · rw [if_neg hnone, decide_eq_false fun h ↦ hnone h.1, decide_eq_true ⟨hnone, Ne.symm hne⟩]
      rfl

/-- What is counted for an entry. -/
theorem changes_applyEntry :
    let t := (applyEntry (s, sum) e).1
    changes (applyEntry (s, sum) e).2 =
      (sum.categoriesAdded + (t.categories.length - s.categories.length),
        sum.descriptionsAdded +
          (decide (findTagDescription s e.key = [] ∧ findTagDescription t e.key ≠ [])).toNat,
        sum.descriptionsUpdated + (decide (findTagDescription s e.key ≠ [] ∧
          findTagDescription t e.key ≠ findTagDescription s e.key)).toNat) := by
  rw [applyEntry, ← @findTagDescription_registerCategory s sum e e.key]
  have hregister := @changes_registerCategory s sum e
  generalize registerCategory e (s, sum) = mid at hregister ⊢
  obtain ⟨mid, midSum⟩ := mid
  obtain ⟨hcategories, hrest⟩ := Prod.mk.inj hregister
  obtain ⟨hadded, hupdated⟩ := Prod.mk.inj hrest
  dsimp only at hcategories hadded hupdated ⊢
  rw [changes_upsertDescription, categories_upsertDescription, hcategories, hadded, hupdated]

end Step

/-! ## All entries -/

section Run

variable {s : VaultSettings} {sum : TagDictImportSummary} {es : List TagDictEntry} {e : TagDictEntry}
  {tag : Bytes}

/-- The settings after some entries. -/
def applyAll (es : List TagDictEntry) (st : Progress) : Progress := es.foldl applyEntry st

theorem applyAll_cons {st : Progress} :
    applyAll (e :: es) st = applyAll es (applyEntry st e) := rfl

theorem grows_applyAll : Grows s (applyAll es (s, sum)).1 := by
  induction es generalizing s sum with
  | nil => exact .refl s
  | cons e es ih =>
    rw [applyAll_cons]
    exact grows_applyEntry.trans ih

theorem keeps_applyAll (hes : ∀ e ∈ es, Sound e) : Keeps s (applyAll es (s, sum)).1 := by
  induction es generalizing s sum with
  | nil => exact .refl s
  | cons e es ih =>
    obtain ⟨he, hes⟩ := List.forall_mem_cons.mp hes
    rw [applyAll_cons]
    exact (keeps_applyEntry he).trans (ih hes)

/-- **A tag that no entry is about** keeps its description. -/
theorem findTagDescription_applyAll
    (hne : ∀ e ∈ es, AsciiFold.fold e.key ≠ AsciiFold.fold tag) :
    findTagDescription (applyAll es (s, sum)).1 tag = findTagDescription s tag := by
  induction es generalizing s sum with
  | nil => rfl
  | cons e es ih =>
    obtain ⟨he, hes⟩ := List.forall_mem_cons.mp hne
    rw [applyAll_cons]
    exact (ih hes).trans (findTagDescription_applyEntry he)

/-- No two entries are about the same tag. -/
def Distinct (es : List TagDictEntry) : Prop := (es.map fun e ↦ AsciiFold.fold e.key).Nodup

theorem Distinct.ne (h : Distinct (e :: es)) :
    ∀ e' ∈ es, AsciiFold.fold e'.key ≠ AsciiFold.fold e.key := by
  intro e' he' heq
  rw [Distinct, List.map_cons, List.nodup_cons] at h
  exact h.1 (heq ▸ List.mem_map_of_mem he')

theorem Distinct.tail (h : Distinct (e :: es)) : Distinct es := by
  rw [Distinct, List.map_cons, List.nodup_cons] at h
  exact h.2

/-- **What is settled stays settled.** -/
theorem settled_applyAll (hdistinct : Distinct es) :
    ∀ e ∈ es, Registered (applyAll es (s, sum)).1 e ∧ Described (applyAll es (s, sum)).1 e := by
  induction es generalizing s sum with
  | nil => exact fun e he ↦ absurd he List.not_mem_nil
  | cons e es ih =>
    rw [applyAll_cons]
    refine List.forall_mem_cons.mpr ⟨?_, ih hdistinct.tail⟩
    obtain ⟨hregistered, hdescribed⟩ := @settled_applyEntry s sum e
    have hgrows : Grows (applyEntry (s, sum) e).1 (applyAll es (applyEntry (s, sum) e)).1 :=
      grows_applyAll
    have hfind := @findTagDescription_applyAll (applyEntry (s, sum) e).1 (applyEntry (s, sum) e).2 es
      e.key hdistinct.ne
    refine ⟨hgrows.registered hregistered, ?_⟩
    rcases hdescribed with hempty | hsame | ⟨hnone, hfull⟩
    · exact .inl hempty
    · exact .inr (.inl (hfind.trans hsame))
    · exact .inr (.inr ⟨hfind.trans hnone, hfull.trans hgrows.length_le⟩)

/-- An entry with nothing to do. -/
theorem applyEntry_of_settled (hregistered : Registered s e) (hdescribed : Described s e) :
    (applyEntry (s, sum) e).1 = s ∧ changes (applyEntry (s, sum) e).2 = changes sum := by
  have hmid : (registerCategory e (s, sum)).1 = s ∧
      changes (registerCategory e (s, sum)).2 = changes sum := by
    rcases registerCategory_cases e s sum with ⟨-, hout, hsum⟩ | ⟨hne, hnone, hroom, -, -⟩
    · exact ⟨hout, hsum⟩
    · rcases hregistered with hempty | hthere | hfull
      · exact absurd hempty hne
      · rw [hnone] at hthere
        exact absurd hthere Bool.false_ne_true
      · exact absurd hroom (Nat.not_lt_of_le hfull)
  rw [applyEntry]
  generalize registerCategory e (s, sum) = mid at hmid ⊢
  obtain ⟨mid, midSum⟩ := mid
  obtain ⟨hsame, hsum⟩ := hmid
  obtain rfl : mid = s := hsame
  rcases upsertDescription_cases e mid midSum with ⟨-, hout, hsum'⟩ | ⟨hne, hnot, hroom, -, -⟩
  · exact ⟨hout, hsum'.trans hsum⟩
  · rcases hdescribed with hempty | hsame | ⟨hnone, hfull⟩
    · exact absurd hempty hne
    · exact absurd hsame hnot
    · rcases hroom with hroom | hthere
      · exact absurd hroom (Nat.not_lt_of_le hfull)
      · exact absurd hnone hthere

theorem applyAll_of_settled (h : ∀ e ∈ es, Registered s e ∧ Described s e) :
    (applyAll es (s, sum)).1 = s ∧ changes (applyAll es (s, sum)).2 = changes sum := by
  induction es generalizing sum with
  | nil => exact ⟨rfl, rfl⟩
  | cons e es ih =>
    obtain ⟨⟨hregistered, hdescribed⟩, hes⟩ := List.forall_mem_cons.mp h
    obtain ⟨hsame, hsum⟩ := @applyEntry_of_settled s sum e hregistered hdescribed
    rw [applyAll_cons]
    generalize applyEntry (s, sum) e = st at hsame hsum
    obtain ⟨u, sum'⟩ := st
    obtain rfl : u = s := hsame
    obtain ⟨hrest, hrest'⟩ := @ih sum' hes
    exact ⟨hrest, hrest'.trans hsum⟩

/-- **The counts** are what the settings differ in. -/
theorem changes_applyAll (hdistinct : Distinct es) :
    let t := (applyAll es (s, sum)).1
    changes (applyAll es (s, sum)).2 =
      (sum.categoriesAdded + (t.categories.length - s.categories.length),
        sum.descriptionsAdded + es.countP (fun e ↦
          findTagDescription s e.key = [] ∧ findTagDescription t e.key ≠ []),
        sum.descriptionsUpdated + es.countP (fun e ↦ findTagDescription s e.key ≠ [] ∧
          findTagDescription t e.key ≠ findTagDescription s e.key)) := by
  induction es generalizing s sum with
  | nil => simp [applyAll, changes]
  | cons e es ih =>
    intro t
    have ht : t = (applyAll es (applyEntry (s, sum) e)).1 := rfl
    have hone := @changes_applyEntry s sum e
    have hgrows := @grows_applyEntry s sum e
    have hothers : ∀ e' ∈ es, findTagDescription (applyEntry (s, sum) e).1 e'.key =
        findTagDescription s e'.key :=
      fun e' he' ↦ findTagDescription_applyEntry (Ne.symm (hdistinct.ne e' he'))
    -- What the entry leaves for its own tag is what is there in the end.
    have hself : findTagDescription t e.key = findTagDescription (applyEntry (s, sum) e).1 e.key :=
      findTagDescription_applyAll hdistinct.ne
    have hlater : (applyEntry (s, sum) e).1.categories.length ≤ t.categories.length :=
      (show Grows (applyEntry (s, sum) e).1 t from grows_applyAll).categories.length_le
    have hearlier := hgrows.categories.length_le
    have hih := @ih (applyEntry (s, sum) e).1 (applyEntry (s, sum) e).2 hdistinct.tail
    obtain ⟨hcategories, hrest⟩ := Prod.mk.inj hone
    obtain ⟨hadded, hupdated⟩ := Prod.mk.inj hrest
    have hadds : es.countP (fun e' ↦ findTagDescription (applyEntry (s, sum) e).1 e'.key = [] ∧
          findTagDescription t e'.key ≠ []) = es.countP (fun e' ↦
          findTagDescription s e'.key = [] ∧ findTagDescription t e'.key ≠ []) :=
      List.countP_congr fun e' he' ↦ by rw [hothers e' he']
    have hupdates : es.countP (fun e' ↦ findTagDescription (applyEntry (s, sum) e).1 e'.key ≠ [] ∧
          findTagDescription t e'.key ≠ findTagDescription (applyEntry (s, sum) e).1 e'.key) =
        es.countP (fun e' ↦ findTagDescription s e'.key ≠ [] ∧
          findTagDescription t e'.key ≠ findTagDescription s e'.key) :=
      List.countP_congr fun e' he' ↦ by rw [hothers e' he']
    rw [applyAll_cons, hih, ← ht, hadds, hupdates, hcategories, hadded, hupdated, ← hself,
      List.countP_cons, List.countP_cons]
    refine Prod.ext ?_ (Prod.ext ?_ ?_)
    · dsimp only
      omega
    · dsimp only
      rw [Nat.add_assoc, Nat.add_comm (Bool.toNat _), Bool.toNat, Bool.cond_eq_ite]
    · dsimp only
      rw [Nat.add_assoc, Nat.add_comm (Bool.toNat _), Bool.toNat, Bool.cond_eq_ite]

end Run

/-! ## The dictionary -/

section Dictionary

variable {doc : Option Json} {s : VaultSettings} {parsed : TagDictParseResult}

/-- What reading and importing a dictionary come to. -/
structure Holds (doc : Option Json) (s : VaultSettings) : Prop where
  length_le : (parseTagDictJson doc).entries.length ≤ indexMaxTagDescriptions
  distinct : Distinct (parseTagDictJson doc).entries
  sound : ∀ e ∈ (parseTagDictJson doc).entries, Sound e
  resolves : ∀ e ∈ (parseTagDictJson doc).entries, e.category ≠ [] → ∀ categories c,
    categories.find? (tagCiEqual ·.name e.category) = some c →
      resolveTag e.key categories = ⟨e.name, c.swatch.toNat⟩
  again : let t := (applyTagDict s (parseTagDictJson doc)).1
    (applyTagDict t (parseTagDictJson doc)).1 = t ∧
      changes (applyTagDict t (parseTagDictJson doc)).2 = (0, 0, 0)
  grows : Grows s (applyTagDict s (parseTagDictJson doc)).1
  keeps : Keeps s (applyTagDict s (parseTagDictJson doc)).1
  others : ∀ tag,
    (∀ e ∈ (parseTagDictJson doc).entries, AsciiFold.fold e.key ≠ AsciiFold.fold tag) →
      findTagDescription (applyTagDict s (parseTagDictJson doc)).1 tag = findTagDescription s tag
  counts : let t := (applyTagDict s (parseTagDictJson doc)).1
    changes (applyTagDict s (parseTagDictJson doc)).2 =
      (t.categories.length - s.categories.length,
        (parseTagDictJson doc).entries.countP (fun e ↦
          findTagDescription s e.key = [] ∧ findTagDescription t e.key ≠ []),
        (parseTagDictJson doc).entries.countP (fun e ↦ findTagDescription s e.key ≠ [] ∧
          findTagDescription t e.key ≠ findTagDescription s e.key))

/-- The entries of a dictionary are those of the list in the document, if there is one. -/
theorem entries_parseTagDictJson : (parseTagDictJson doc).entries =
    (((doc.bind entryArray).getD []).foldl parseElement {}).entries := by
  rw [parseTagDictJson]
  rcases doc.bind entryArray with _ | items <;> rfl

theorem distinct_parseTagDictJson : Distinct (parseTagDictJson doc).entries := by
  rw [entries_parseTagDictJson, entries_parse, Distinct, List.map_take]
  have hnil : (([] : List TagDictEntry).map fun e ↦ AsciiFold.fold e.key).Nodup := List.nodup_nil
  exact (KeyedUnion.nodup_union decides_sameKey hnil).sublist (List.take_sublist _ _)

/-- What is counted for a whole dictionary. -/
theorem changes_applyTagDict (h : Distinct parsed.entries) :
    let t := (applyTagDict s parsed).1
    changes (applyTagDict s parsed).2 =
      (t.categories.length - s.categories.length,
        parsed.entries.countP (fun e ↦
          findTagDescription s e.key = [] ∧ findTagDescription t e.key ≠ []),
        parsed.entries.countP (fun e ↦ findTagDescription s e.key ≠ [] ∧
          findTagDescription t e.key ≠ findTagDescription s e.key)) := by
  have hcounts := @changes_applyAll s ⟨0, 0, 0, parsed.malformedSkipped, parsed.fieldsTruncated,
    parsed.overCapSkipped, 0⟩ parsed.entries h
  simp only [Nat.zero_add] at hcounts
  exact hcounts

/-- **Importing again** changes nothing. -/
theorem applyTagDict_again (h : Distinct parsed.entries) :
    let t := (applyTagDict s parsed).1
    (applyTagDict t parsed).1 = t ∧ changes (applyTagDict t parsed).2 = (0, 0, 0) :=
  applyAll_of_settled (settled_applyAll h)

theorem colon_of_resolves {categories : List TagCategory} {c : TagCategory} {e : TagDictEntry}
    (h : resolveTag e.key categories = ⟨e.name, c.swatch.toNat⟩) : colon ∉ e.category :=
  fun hcolon ↦ resolveTag_key_of_colon hcolon (congrArg TagDisplay.text h)

/-- **A dictionary is read and imported as it should be** as long as no category has a colon. -/
theorem holds_iff (doc : Option Json) (s : VaultSettings) :
    Holds doc s ↔ ∀ items, doc.bind entryArray = some items → ¬ ColonReaches items := by
  constructor
  · intro h items hitems hreaches
    obtain ⟨e, he, hcolon⟩ := colon_kept_iff.mpr hreaches
    have hmem : e ∈ (parseTagDictJson doc).entries := by
      rwa [entries_parseTagDictJson, hitems]
    have hfind : [TagCategory.mk e.category 0 []].find? (tagCiEqual ·.name e.category) =
        some ⟨e.category, 0, []⟩ := List.find?_cons_of_pos (AsciiFold.equal_self _)
    exact colon_of_resolves (h.resolves e hmem (List.ne_nil_of_mem hcolon) _ _ hfind) hcolon
  · intro h
    have hsound : ∀ e ∈ (parseTagDictJson doc).entries, Sound e := by
      intro e he
      rw [entries_parseTagDictJson] at he
      exact sound_of_mem_entries he
    have hcolon : ∀ e ∈ (parseTagDictJson doc).entries, colon ∉ e.category := by
      intro e he hmem
      rw [entries_parseTagDictJson] at he
      rcases hitems : doc.bind entryArray with _ | items
      · rw [hitems] at he
        exact absurd he List.not_mem_nil
      · rw [hitems] at he
        exact h items hitems (colon_kept_iff.mp ⟨e, he, hmem⟩)
    refine ⟨?_, distinct_parseTagDictJson, hsound, ?_, applyTagDict_again distinct_parseTagDictJson,
      grows_applyAll, keeps_applyAll hsound, ?_, changes_applyTagDict distinct_parseTagDictJson⟩
    · rw [entries_parseTagDictJson, entries_parse]
      exact List.length_take_le _ _
    · intro e he hne categories c hfind
      exact resolveTag_key hne (hsound e he).name_ne (hcolon e he) hfind
    · intro tag hne
      exact findTagDescription_applyAll hne

/-- A document with one entry. -/
def oneEntry (category name : List Char) : Json :=
  .array [.object [("name".toList, .string name), ("category".toList, .string category)]]

/-- The settings of a new vault. -/
theorem holds_iff_artist : Holds (some (oneEntry "artist".toList "monet".toList)) {} := by
  refine (holds_iff _ _).mpr fun items hitems hreaches ↦ ?_
  obtain rfl := Option.some.inj hitems
  obtain ⟨e, he, hcolon⟩ := colon_kept_iff.mpr hreaches
  revert e
  decide +kernel

/-- **A colon in the category**: the tag is shown with a part of its category. -/
theorem not_holds_colon :
    resolveTag (ascii "a:b:c") [⟨ascii "a:b", 0, []⟩] = ⟨ascii "a:b:c", -1⟩ ∧
    (parseTagDictJson (some (oneEntry "a:b".toList "c".toList))).entries =
      [⟨ascii "a:b", ascii "c", []⟩] ∧
    ¬ Holds (some (oneEntry "a:b".toList "c".toList)) {} := by
  have hentries : (parseTagDictJson (some (oneEntry "a:b".toList "c".toList))).entries =
      [⟨ascii "a:b", ascii "c", []⟩] := by decide +kernel
  refine ⟨by decide +kernel, hentries, fun h ↦ ?_⟩
  have hmem : (⟨ascii "a:b", ascii "c", []⟩ : TagDictEntry) ∈
      (parseTagDictJson (some (oneEntry "a:b".toList "c".toList))).entries := by
    rw [hentries]
    exact List.mem_cons_self
  have hresolve := h.resolves _ hmem (by decide +kernel) [⟨ascii "a:b", 0, []⟩] ⟨ascii "a:b", 0, []⟩
    (by decide +kernel)
  exact colon_of_resolves hresolve (by decide +kernel)

end Dictionary

end TagDict

end SafeVault
