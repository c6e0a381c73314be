import SafeVault.Lib.KeyedList
import SafeVault.V3.StorableSettings

/-!
# Edits of the settings

The edits work on a copy of the settings, which is stored afterwards. None of them looks at all of
what the tables ask for. For each edit there is a condition under which it leaves settings that can
be stored, if they could before: a text is not too long, a value has a place, and no stored value
loses its place in a template.
-/

namespace SafeVault

open KeyedList (replaceFirst put)

namespace V3

/-! ## The edits -/

/-- `set_tag_description`. -/
def setTagDescription (tag text : Bytes) (s : VaultSettings) : VaultSettings :=
  { s with
    tagDescriptions := put (categoryNameEq ·.tag tag) ({ · with text }) ⟨tag, text⟩ text.isEmpty
      indexMaxTagDescriptions s.tagDescriptions }

/-- `set_tag_field_value`. Only a new value is cut. -/
def setTagFieldValue (tag field value : Bytes) (s : VaultSettings) : VaultSettings :=
  { s with
    tagFieldValues := put (fun x ↦ categoryNameEq x.tag tag && categoryNameEq x.field field)
      ({ · with value }) ⟨tag, field, value.take indexMaxFieldValueBytes⟩ value.isEmpty
      indexMaxTagFieldValues s.tagFieldValues }

/-- `find_category`. -/
def findCategory (s : VaultSettings) (category : Bytes) : Option TagCategory :=
  s.categories.find? (categoryNameEq ·.name category)

/-- Change the template of a category. -/
def withTemplate (category : Bytes) (fields : List Bytes) (s : VaultSettings) : VaultSettings :=
  { s with categories := replaceFirst (categoryNameEq ·.name category) ({ · with fields }) s.categories }

/-- The loop of `set_category_template`, with the fields that were taken so far. -/
def cleanFields : List Bytes → List Bytes → List Bytes
  | cleaned, [] => cleaned
  | cleaned, f :: fs =>
    if f.isEmpty then cleanFields cleaned fs
    else
      let cleaned := KeyedUnion.insert categoryNameEq cleaned (f.take indexMaxFieldBytes)
      if indexMaxTemplateFields ≤ cleaned.length then cleaned else cleanFields cleaned fs

/-- `set_category_template`. -/
def setCategoryTemplate (category : Bytes) (fields : List Bytes) (s : VaultSettings) :
    Option VaultSettings :=
  match findCategory s category with
  | none => none
  | some _ => some (withTemplate category (cleanFields [] fields) s)

/-- `tag_in_category`. -/
def tagInCategory (tag category : Bytes) : Bool := categoryNameEq (tagCategoryPrefix tag) category

/-- The values of a field of a category. -/
def valueOf (category field : Bytes) (x : TagFieldValue) : Bool :=
  tagInCategory x.tag category && categoryNameEq x.field field

/-- A value of the old field becomes one of the new. -/
def renamedValue (category oldField newField : Bytes) (x : TagFieldValue) : TagFieldValue :=
  if valueOf category oldField x then { x with field := newField } else x

/-- `rename_template_field`. -/
def renameTemplateField (category oldField newField : Bytes) (s : VaultSettings) :
    Option VaultSettings :=
  if newField.isEmpty || indexMaxFieldBytes < newField.length then none
  else
    match findCategory s category with
    | none => none
    | some c =>
      match c.fields.findIdx? (categoryNameEq · oldField) with
      | none => none
      | some i =>
        if c.fields.zipIdx.any fun p ↦ p.2 != i && categoryNameEq p.1 newField then none
        else
          let s := withTemplate category (c.fields.set i newField) s
          some { s with
            tagFieldValues := s.tagFieldValues.map (renamedValue category oldField newField) }

/-- `remove_template_field`. -/
def removeTemplateField (category field : Bytes) (s : VaultSettings) : Option VaultSettings :=
  match findCategory s category with
  | none => none
  | some c =>
    if !c.fields.any (categoryNameEq · field) then none
    else
      let s := withTemplate category (c.fields.filter fun f ↦ !categoryNameEq f field) s
      some { s with tagFieldValues := s.tagFieldValues.filter fun x ↦ !valueOf category field x }

/-- `settings_remove_category`, which only removes the row. -/
def settingsRemoveCategory (row : ℤ) (s : VaultSettings) : VaultSettings :=
  if row < 0 ∨ s.categories.length ≤ row then s
  else { s with categories := s.categories.eraseIdx row.toNat }

inductive SettingsEdit
  | describe (tag text : Bytes)
  | template (category : Bytes) (fields : List Bytes)
  | value (tag field value : Bytes)
  | renameField (category oldField newField : Bytes)
  | removeField (category field : Bytes)
  | removeCategory (row : ℤ)

/-- The settings an edit wants to store; none when it refuses. -/
def SettingsEdit.edited (s : VaultSettings) : SettingsEdit → Option VaultSettings
  | .describe tag text => some (setTagDescription tag text s)
  | .template category fields => setCategoryTemplate category fields s
  | .value tag field text => some (setTagFieldValue tag field text s)
  | .renameField category oldField newField => renameTemplateField category oldField newField s
  | .removeField category field => removeTemplateField category field s
  | .removeCategory row => some (settingsRemoveCategory row s)

/-! ## What fits -/

/-- A tag can share the table with these. -/
def TagFits (nocase : Bytes → Bytes → Bool) (tags : List Bytes) (tag : Bytes) : Prop :=
  within 1 65535 tag = true ∧ ∀ t ∈ tags, nocase t tag = true → tagCiEqual t tag = true

/-- The value is stored under a category of this name: that of the text before its first colon. -/
def storedUnder (category : Bytes) (x : TagFieldValue) : Bool :=
  (valueCategory x.tag).any (categoryNameEq · category)

/-- The fields a template gets: the first different names, cut to length. -/
def templateOf (fields : List Bytes) : List Bytes :=
  (KeyedUnion.union categoryNameEq [] ((fields.filter fun f ↦ !f.isEmpty).map
    (·.take indexMaxFieldBytes))).take indexMaxTemplateFields

/-- The edit leaves settings that can be stored, given that they can be stored before. -/
def SettingsEdit.Fits {μ : Type} (nocase : Bytes → Bytes → Bool) (root : Node μ)
    (s : VaultSettings) : SettingsEdit → Prop
  | .describe tag text =>
    text.isEmpty = true ∨
      if s.tagDescriptions.any (categoryNameEq ·.tag tag) then text.length ≤ 512
      else indexMaxTagDescriptions ≤ s.tagDescriptions.length ∨
        text.length ≤ 512 ∧ TagFits nocase (tagRefs root s) tag
  | .template category fields =>
    (templateOf fields).Pairwise (fun f g ↦ nocase f g = false) ∧
      ∀ x ∈ s.tagFieldValues, storedUnder category x = true →
        (templateOf fields).any (categoryNameEq · x.field) = true
  | .value tag field text =>
    text.isEmpty = true ∨
      if s.tagFieldValues.any fun x ↦ categoryNameEq x.tag tag && categoryNameEq x.field field then
        text.length ≤ 256
      else indexMaxTagFieldValues ≤ s.tagFieldValues.length ∨
        (valuePlace s ⟨tag, field, text⟩).isSome = true ∧ TagFits nocase (tagRefs root s) tag
  | .renameField category oldField newField =>
    (∀ f ∈ categoryTemplate s category,
      categoryNameEq f oldField = true ∨ nocase f newField = false) ∧
      (categoryNameEq newField oldField = true ∨ ∀ x ∈ s.tagFieldValues, storedUnder category x = true →
        categoryNameEq x.field oldField = true → tagInCategory x.tag category = true)
  | .removeField category field =>
    ∀ x ∈ s.tagFieldValues, storedUnder category x = true → categoryNameEq x.field field = true →
      tagInCategory x.tag category = true
  | .removeCategory row =>
    0 ≤ row → ∀ c, s.categories[row.toNat]? = some c →
      ∀ x ∈ s.tagFieldValues, storedUnder c.name x = false

variable {μ : Type} {nocase : Bytes → Bytes → Bool} {root : Node μ} {s s' : VaultSettings}
  {x : TagFieldValue} {category field tag text : Bytes} {fields : List Bytes} {c : TagCategory}

/-! ## Places -/

/-- There is a category of the value's tag whose template has the field. -/
def HasPlace (categories : List TagCategory) (x : TagFieldValue) : Prop :=
  ∃ c ∈ categories, storedUnder c.name x = true ∧ c.fields.any (categoryNameEq · x.field) = true

theorem storedUnder_congr {name : Bytes} (h : categoryNameEq name category = true) :
    storedUnder name x = storedUnder category x := by
  rw [categoryNameEq_iff] at h
  rw [storedUnder, storedUnder]
  congr 1
  funext n
  rw [Bool.eq_iff_iff, categoryNameEq_iff, categoryNameEq_iff, h]

/-- A value is stored under one name, up to case. -/
theorem categoryNameEq_of_storedUnder {name : Bytes} (h : storedUnder name x = true)
    (h' : storedUnder category x = true) : categoryNameEq name category = true := by
  rw [storedUnder, Option.any_eq_true] at h h'
  obtain ⟨n, hn, hname⟩ := h
  obtain ⟨n', hn', hcategory⟩ := h'
  obtain rfl := Option.some.inj (hn.symm.trans hn')
  rw [categoryNameEq_iff, ← categoryNameEq_iff.mp hname, categoryNameEq_iff.mp hcategory]

/-- A category is the one with its name. -/
theorem findCategory_eq_some_iff (hn : (s.categories.map fun c ↦ AsciiFold.fold c.name).Nodup) :
    findCategory s category = some c ↔ c ∈ s.categories ∧ categoryNameEq c.name category = true := by
  constructor
  · intro h
    exact ⟨List.mem_of_find?_eq_some h, by simpa using List.find?_some h⟩
  · rintro ⟨hmem, hname⟩
    obtain ⟨d, hd⟩ : ∃ d, findCategory s category = some d := by
      rw [← Option.isSome_iff_exists, findCategory, List.find?_isSome]
      exact ⟨c, hmem, hname⟩
    have hdname : categoryNameEq d.name category = true := by simpa using List.find?_some hd
    rw [hd, Option.some_inj]
    refine List.inj_on_of_nodup_map hn (List.mem_of_find?_eq_some hd) hmem ?_
    rw [categoryNameEq_iff.mp hdname, categoryNameEq_iff.mp hname]

theorem isSome_valuePlace_iff (hn : (s.categories.map fun c ↦ AsciiFold.fold c.name).Nodup) :
    (valuePlace s x).isSome = true ↔ HasPlace s.categories x := by
  rw [Option.isSome_iff_exists]
  constructor
  · rintro ⟨⟨i, f⟩, h⟩
    obtain ⟨name, c, hname, hi, hc, hf⟩ := valuePlace_eq_some_iff.mp h
    obtain ⟨hlt, hmatch, -⟩ := List.findIdx?_eq_some_iff_getElem.mp hi
    rw [List.getElem?_eq_getElem hlt, Option.some_inj] at hc
    refine ⟨c, hc ▸ List.getElem_mem hlt, ?_, ?_⟩
    · rw [storedUnder, hname, Option.any_some, categoryNameEq, AsciiFold.equal_comm, ← hc]
      exact hmatch
    · rw [← List.findIdx?_isSome, hf, Option.isSome_some]
  · rintro ⟨c, hmem, hstored, hany⟩
    rw [storedUnder, Option.any_eq_true] at hstored
    obtain ⟨name, hname, heq⟩ := hstored
    rw [categoryNameEq, AsciiFold.equal_comm] at heq
    have hfind := (findCategory_eq_some_iff hn).mpr ⟨hmem, heq⟩
    obtain ⟨i, hi⟩ : ∃ i, s.categories.findIdx? (categoryNameEq ·.name name) = some i := by
      rw [← Option.isSome_iff_exists, List.findIdx?_isSome, List.any_eq_true]
      exact ⟨c, hmem, heq⟩
    have hget : s.categories[i]? = some c := by
      obtain ⟨hlt, hmatch, -⟩ := List.findIdx?_eq_some_iff_getElem.mp hi
      rw [List.getElem?_eq_getElem hlt, ← hfind, eq_comm, findCategory_eq_some_iff hn]
      exact ⟨List.getElem_mem hlt, hmatch⟩
    obtain ⟨f, hf⟩ : ∃ f, c.fields.findIdx? (categoryNameEq · x.field) = some f := by
      rwa [← Option.isSome_iff_exists, List.findIdx?_isSome]
    exact ⟨(i, f), valuePlace_eq_some_iff.mpr ⟨name, c, hname, hi, hget, hf⟩⟩

theorem AdmittedSettings.nodup_names (hc : Collates nocase) (hs : AdmittedSettings nocase s) :
    (s.categories.map fun c ↦ AsciiFold.fold c.name).Nodup := by
  rw [List.Nodup, List.pairwise_map]
  exact hs.categoriesApart.imp hc.fold_ne

/-- A value keeps its place if the new template has its field. It can have another field then. -/
theorem HasPlace.withTemplate {x' : TagFieldValue}
    (hn : (s.categories.map fun c ↦ AsciiFold.fold c.name).Nodup) (hx : HasPlace s.categories x)
    (htag : x'.tag = x.tag) (hother : storedUnder category x = false → x'.field = x.field)
    (h : storedUnder category x = true → fields.any (categoryNameEq · x'.field) = true) :
    HasPlace (withTemplate category fields s).categories x' := by
  obtain ⟨c, hmem, hstored, hany⟩ := hx
  have hmap : (V3.withTemplate category fields s).categories =
      s.categories.map fun c ↦ if categoryNameEq c.name category then { c with fields } else c :=
    KeyedList.replaceFirst_eq_map (fun _ ↦ categoryNameEq_iff) hn
  have hstored' : storedUnder c.name x' = true := by rwa [storedUnder, htag]
  rw [hmap]
  by_cases hname : categoryNameEq c.name category = true
  · refine ⟨{ c with fields }, List.mem_map.mpr ⟨c, hmem, if_pos hname⟩, hstored', h ?_⟩
    rwa [← storedUnder_congr hname]
  · have hnot : storedUnder category x = false := by
      rw [← Bool.not_eq_true]
      exact fun h ↦ hname (categoryNameEq_of_storedUnder hstored h)
    rw [← hother hnot] at hany
    exact ⟨c, List.mem_map.mpr ⟨c, hmem, if_neg hname⟩, hstored', hany⟩

/-- A template the tables take. -/
structure StorableTemplate (nocase : Bytes → Bytes → Bool) (fields : List Bytes) : Prop where
  fits : ∀ f ∈ fields, within 1 64 f = true
  apart : fields.Pairwise fun f g ↦ nocase f g = false
  count : fields.length ≤ indexMaxTemplateFields

theorem StorableSettings.template (hs : StorableSettings nocase s) (hc : c ∈ s.categories) :
    StorableTemplate nocase c.fields :=
  ⟨(hs.categories c hc).fields, (hs.categories c hc).fieldsApart, hs.fieldCount c hc⟩

/-- Settings with another template for a category, and other values that all have a place. -/
theorem StorableSettings.withTemplate {xs : List TagFieldValue} (hc : Collates nocase)
    (hs : StorableSettings nocase s) (hfields : StorableTemplate nocase fields)
    (hvalues : ∀ x ∈ xs, within 1 256 x.value = true ∧
      HasPlace (withTemplate category fields s).categories x)
    (hcount : xs.length ≤ indexMaxTagFieldValues) (hkeys : (xs.map valueKey).Nodup) :
    StorableSettings nocase { V3.withTemplate category fields s with tagFieldValues := xs } := by
  have hmem : ∀ c' ∈ (V3.withTemplate category fields s).categories,
      ∃ c ∈ s.categories, c' = c ∨ c' = { c with fields } := by
    intro c' hc'
    rcases KeyedList.mem_replaceFirst hc' with h | ⟨c, h, -, rfl⟩
    exacts [⟨c', h, .inl rfl⟩, ⟨c, h, .inr rfl⟩]
  have hnames : (V3.withTemplate category fields s).categories.map (·.name) =
      s.categories.map (·.name) := KeyedList.map_replaceFirst fun _ ↦ rfl
  have hnodup : ((V3.withTemplate category fields s).categories.map
      fun c ↦ AsciiFold.fold c.name).Nodup := by
    have h : (V3.withTemplate category fields s).categories.map (fun c ↦ AsciiFold.fold c.name) =
        s.categories.map fun c ↦ AsciiFold.fold c.name := KeyedList.map_replaceFirst fun _ ↦ rfl
    rw [h]
    exact hs.nodup_names hc
  refine { hs with
    categories := fun c' hc' ↦ ?_
    categoriesApart := ?_
    fieldCount := fun c' hc' ↦ ?_
    values := fun x hx ↦ (hvalues x hx).1
    places := fun x hx ↦ (isSome_valuePlace_iff hnodup).mpr (hvalues x hx).2
    valueCount := hcount
    valueKeys := hkeys }
  · obtain ⟨c, hmem, rfl | rfl⟩ := hmem c' hc'
    · exact hs.categories c' hmem
    · exact { hs.categories c hmem with fields := hfields.fits, fieldsApart := hfields.apart }
  · have h := hs.categoriesApart
    rw [← List.pairwise_map (f := TagCategory.name) (R := fun a b ↦ nocase a b = false)] at h ⊢
    exact hnames ▸ h
  · obtain ⟨c, hmem, rfl | rfl⟩ := hmem c' hc'
    exacts [hs.fieldCount c' hmem, hfields.count]

/-! ## The cleaning of a template -/

theorem cleanFields_eq {cleaned : List Bytes} (h : cleaned.length < indexMaxTemplateFields) :
    cleanFields cleaned fields =
      (KeyedUnion.union categoryNameEq cleaned ((fields.filter fun f ↦ !f.isEmpty).map
        (·.take indexMaxFieldBytes))).take indexMaxTemplateFields := by
  induction fields generalizing cleaned with
  | nil => exact (List.take_of_length_le (Nat.le_of_lt h)).symm
  | cons f fs ih =>
    rw [cleanFields]
    by_cases hf : f.isEmpty = true
    · rw [if_pos hf, ih h, List.filter_cons_of_neg (by simp [hf])]
    · rw [if_neg hf, List.filter_cons_of_pos (by simpa using hf), List.map_cons,
        KeyedUnion.union_cons]
      dsimp only
      split_ifs with hfull
      · -- The loop ends with sixteen fields; the union goes on behind them.
        have hlen : (KeyedUnion.insert categoryNameEq cleaned (f.take indexMaxFieldBytes)).length =
            indexMaxTemplateFields := by
          refine Nat.le_antisymm ?_ hfull
          rw [KeyedUnion.insert]
          split_ifs
          · exact Nat.le_of_lt h
          · rw [List.length_append, List.length_singleton]
            exact h
        obtain ⟨more, hmore⟩ :
            KeyedUnion.insert categoryNameEq cleaned (f.take indexMaxFieldBytes) <+:
              KeyedUnion.union categoryNameEq
                (KeyedUnion.insert categoryNameEq cleaned (f.take indexMaxFieldBytes))
                ((fs.filter fun f ↦ !f.isEmpty).map (·.take indexMaxFieldBytes)) :=
          KeyedUnion.prefix_union
        rw [← hmore, ← hlen, List.take_left]
      · exact ih (Nat.lt_of_not_le hfull)

/-- **Cleaning.** `set_category_template` takes the first sixteen different names. -/
theorem cleanFields_nil : cleanFields [] fields = templateOf fields := cleanFields_eq (by decide)

theorem storableTemplate_templateOf
    (h : (templateOf fields).Pairwise fun f g ↦ nocase f g = false) :
    StorableTemplate nocase (templateOf fields) := by
  refine ⟨fun f hf ↦ ?_, h, List.length_take_le _ _⟩
  have hmem := KeyedUnion.forall_mem_union (P := fun f ↦ f ∈ (fields.filter fun f ↦ !f.isEmpty).map
    (·.take indexMaxFieldBytes)) (fun _ h ↦ absurd h List.not_mem_nil) (fun _ h ↦ h) f
    (List.mem_of_mem_take hf)
  obtain ⟨g, hg, rfl⟩ := List.mem_map.mp hmem
  have hpos : 0 < g.length := List.length_pos_iff.mpr (by simpa using (List.mem_filter.mp hg).2)
  rw [within_iff, List.length_take, indexMaxFieldBytes]
  omega

/-! ## Tags of edited settings -/

theorem mem_tagRefs_iff {t : Bytes} : t ∈ tagRefs root s ↔ t ∈ root.labels.flatMap (·.tags) ∨
    (∃ d ∈ s.tagDescriptions, d.tag = t) ∨ ∃ x ∈ s.tagFieldValues, x.tag = t := by
  rw [tagRefs, List.mem_append, List.mem_append, List.mem_map, List.mem_map, or_assoc]

/-- Edited settings name tags that were named before, and perhaps one that fits. -/
theorem StorableTags.edited (tag : Bytes) (hc : Collates nocase)
    (h : StorableTags nocase (tagRefs root s))
    (hd : ∀ d ∈ s'.tagDescriptions,
      d.tag ∈ tagRefs root s ∨ d.tag = tag ∧ TagFits nocase (tagRefs root s) tag)
    (hx : ∀ x ∈ s'.tagFieldValues,
      x.tag ∈ tagRefs root s ∨ x.tag = tag ∧ TagFits nocase (tagRefs root s) tag) :
    StorableTags nocase (tagRefs root s') := by
  have hsub : ∀ t ∈ tagRefs root s',
      t ∈ tagRefs root s ∨ t = tag ∧ TagFits nocase (tagRefs root s) tag := by
    intro t ht
    rcases mem_tagRefs_iff.mp ht with ht | ⟨d, hmem, rfl⟩ | ⟨x, hmem, rfl⟩
    exacts [.inl (mem_tagRefs_iff.mpr (.inl ht)), hd d hmem, hx x hmem]
  by_cases hfits : TagFits nocase (tagRefs root s) tag
  · refine (h.cons hc hfits.1 hfits.2).mono fun t ht ↦ ?_
    rcases hsub t ht with ht | ⟨rfl, -⟩
    exacts [List.mem_cons_of_mem _ ht, List.mem_cons_self]
  · exact h.mono fun t ht ↦ (hsub t ht).resolve_right fun h ↦ hfits h.2

/-! ## Edits that fit -/

/-- Settings that can be stored, with tags that go with those of the nodes, and the same bundles. -/
structure StoresLike (nocase : Bytes → Bytes → Bool) (root : Node μ) (s s' : VaultSettings) : Prop where
  settings : StorableSettings nocase s'
  tags : StorableTags nocase (tagRefs root s')
  bundles : s.tagBundles = s'.tagBundles

theorem storesLike_describe (hc : Collates nocase) (hs : StorableSettings nocase s)
    (htags : StorableTags nocase (tagRefs root s))
    (hfit : (SettingsEdit.describe tag text).Fits nocase root s) :
    StoresLike nocase root s (setTagDescription tag text s) := by
  rw [SettingsEdit.Fits] at hfit
  have hmem (d : TagDescription) (hd : d ∈ (setTagDescription tag text s).tagDescriptions) :
      d.tag ∈ tagRefs root s ∧ within 1 512 d.text = true ∨
        d.tag = tag ∧ TagFits nocase (tagRefs root s) tag ∧ within 1 512 d.text = true := by
    rcases KeyedList.mem_put hd with hd | ⟨htext, hany, b, hb, -, rfl⟩ | ⟨htext, hany, hroom, rfl⟩
    · exact .inl ⟨mem_tagRefs_description hd, hs.texts d hd⟩
    · rw [if_pos hany] at hfit
      have hpos := List.length_pos_iff.mpr (List.isEmpty_eq_false_iff.mp htext)
      have hlong := hfit.resolve_left (by simp [htext])
      have htag : b.tag ∈ tagRefs root s := mem_tagRefs_description hb
      exact .inl ⟨htag, within_iff.mpr ⟨hpos, hlong⟩⟩
    · rw [if_neg (by simp [hany])] at hfit
      have hpos := List.length_pos_iff.mpr (List.isEmpty_eq_false_iff.mp htext)
      obtain ⟨hlong, hfits⟩ := (hfit.resolve_left (by simp [htext])).resolve_left
        (Nat.not_le_of_lt hroom)
      exact .inr ⟨rfl, hfits, within_iff.mpr ⟨hpos, hlong⟩⟩
  refine ⟨{ hs with texts := fun d hd ↦ ?_, descriptionKeys := ?_ }, htags.edited tag hc (fun d hd ↦ ?_)
    (fun x hx ↦ .inl (mem_tagRefs_value hx)), rfl⟩
  · rcases hmem d hd with ⟨-, h⟩ | ⟨-, -, h⟩
    exacts [h, h]
  · exact KeyedList.nodup_put (fun _ ↦ categoryNameEq_iff) (fun _ ↦ rfl) hs.descriptionKeys
  · exact (hmem d hd).imp (fun h ↦ h.1) fun h ↦ ⟨h.1, h.2.1⟩

theorem storesLike_value (hc : Collates nocase) (hs : StorableSettings nocase s)
    (htags : StorableTags nocase (tagRefs root s))
    (hfit : (SettingsEdit.value tag field text).Fits nocase root s) :
    StoresLike nocase root s (setTagFieldValue tag field text s) := by
  rw [SettingsEdit.Fits] at hfit
  have hmem (x : TagFieldValue) (hx : x ∈ (setTagFieldValue tag field text s).tagFieldValues) :
      (within 1 256 x.value = true ∧ (valuePlace s x).isSome = true) ∧
      (x.tag ∈ tagRefs root s ∨ x.tag = tag ∧ TagFits nocase (tagRefs root s) tag) := by
    rcases KeyedList.mem_put hx with hx | ⟨htext, hany, b, hb, -, rfl⟩ | ⟨htext, hany, hroom, rfl⟩
    · exact ⟨⟨hs.values x hx, hs.places x hx⟩, .inl (mem_tagRefs_value hx)⟩
    · rw [if_pos hany] at hfit
      have hpos := List.length_pos_iff.mpr (List.isEmpty_eq_false_iff.mp htext)
      have hlong := hfit.resolve_left (by simp [htext])
      have htag : b.tag ∈ tagRefs root s := mem_tagRefs_value hb
      exact ⟨⟨within_iff.mpr ⟨hpos, hlong⟩, hs.places b hb⟩, .inl htag⟩
    · rw [if_neg (by simp [hany])] at hfit
      have hpos := List.length_pos_iff.mpr (List.isEmpty_eq_false_iff.mp htext)
      obtain ⟨hplace, hfits⟩ := (hfit.resolve_left (by simp [htext])).resolve_left
        (Nat.not_le_of_lt hroom)
      refine ⟨⟨?_, hplace⟩, .inr ⟨rfl, hfits⟩⟩
      rw [within_iff, List.length_take, indexMaxFieldValueBytes]
      omega
  have hkey (x : TagFieldValue) : (categoryNameEq x.tag tag && categoryNameEq x.field field) = true ↔
      valueKey x = valueKey ⟨tag, field, text.take indexMaxFieldValueBytes⟩ := by
    rw [Bool.and_eq_true, categoryNameEq_iff, categoryNameEq_iff, valueKey, valueKey, Prod.mk.injEq]
  refine ⟨{ hs with
    values := fun x hx ↦ (hmem x hx).1.1
    places := fun x hx ↦ (hmem x hx).1.2
    valueCount := KeyedList.length_put_le hs.valueCount
    valueKeys := KeyedList.nodup_put hkey (fun _ ↦ rfl) hs.valueKeys },
    htags.edited tag hc (fun d hd ↦ .inl (mem_tagRefs_description hd)) fun x hx ↦ (hmem x hx).2, rfl⟩

theorem storesLike_template (hc : Collates nocase) (hs : StorableSettings nocase s)
    (htags : StorableTags nocase (tagRefs root s))
    (hfit : (SettingsEdit.template category fields).Fits nocase root s) :
    StoresLike nocase root s (withTemplate category (cleanFields [] fields) s) := by
  obtain ⟨hapart, hplaces⟩ := hfit
  rw [cleanFields_nil]
  have hn := hs.nodup_names hc
  refine ⟨hs.withTemplate hc (storableTemplate_templateOf hapart) (fun x hx ↦ ⟨hs.values x hx, ?_⟩)
    hs.valueCount hs.valueKeys, htags, rfl⟩
  exact ((isSome_valuePlace_iff hn).mp (hs.places x hx)).withTemplate hn rfl
    (fun _ ↦ rfl) (hplaces x hx)

/-! ## Fields of a template -/

/-- What precedes the colon of a tag with a category, also where the values are stored. -/
theorem valueCategory_eq_some {t : Bytes} (h : tagCategoryPrefix t ≠ []) :
    valueCategory t = some (tagCategoryPrefix t) := by
  rw [tagCategoryPrefix] at h ⊢
  rw [valueCategory]
  rcases hidx : t.findIdx? (· == colon) with _ | i
  · rw [hidx] at h
    exact absurd rfl h
  · rw [hidx] at h
    dsimp only at h ⊢
    split_ifs at h ⊢ with hempty
    · exact absurd rfl h
    · rfl

/-- A category that exists, found by name, has the values whose tags are in it. -/
theorem storedUnder_of_tagInCategory (hs : StorableSettings nocase s)
    (hfound : findCategory s category = some c) (h : tagInCategory x.tag category = true) :
    storedUnder category x = true := by
  have hname : categoryNameEq c.name category = true := by
    have h := List.find?_some hfound
    exact h
  have hne : tagCategoryPrefix x.tag ≠ [] := by
    intro hnil
    rw [tagInCategory, hnil, categoryNameEq_iff, AsciiFold.fold_nil, ← categoryNameEq_iff.mp hname,
      eq_comm, AsciiFold.fold_eq_nil_iff] at h
    have hfits := (within_iff.mp (hs.categories c (List.mem_of_find?_eq_some hfound)).name).1
    rw [h] at hfits
    exact absurd hfits (by decide)
  rw [storedUnder, valueCategory_eq_some hne, Option.any_some]
  exact h

/-- The category of a value is the one it is stored under. -/
theorem HasPlace.any_field (hn : (s.categories.map fun c ↦ AsciiFold.fold c.name).Nodup)
    (hfound : findCategory s category = some c) (hx : HasPlace s.categories x)
    (h : storedUnder category x = true) : c.fields.any (categoryNameEq · x.field) = true := by
  obtain ⟨d, hmem, hstored, hany⟩ := hx
  obtain ⟨hc, hname⟩ := (findCategory_eq_some_iff hn).mp hfound
  have hdname := categoryNameEq_of_storedUnder hstored h
  have heq : d = c := by
    refine List.inj_on_of_nodup_map hn hmem hc ?_
    rw [categoryNameEq_iff.mp hdname, categoryNameEq_iff.mp hname]
  rwa [heq] at hany

theorem storesLike_removeField (hc : Collates nocase) (hs : StorableSettings nocase s)
    (htags : StorableTags nocase (tagRefs root s))
    (hfit : (SettingsEdit.removeField category field).Fits nocase root s)
    (h : removeTemplateField category field s = some s') : StoresLike nocase root s s' := by
  rw [removeTemplateField] at h
  rcases hfound : findCategory s category with _ | c
  · rw [hfound] at h
    exact nomatch h
  rw [hfound] at h
  dsimp only at h
  split_ifs at h
  obtain rfl := Option.some.inj h
  have hn := hs.nodup_names hc
  have htemplate := hs.template ((findCategory_eq_some_iff hn).mp hfound).1
  have hsub : (c.fields.filter fun f ↦ !categoryNameEq f field).Sublist c.fields :=
    List.filter_sublist
  have hkept : (s.tagFieldValues.filter fun x ↦ !valueOf category field x).Sublist s.tagFieldValues :=
    List.filter_sublist
  refine ⟨hs.withTemplate hc ⟨fun f hf ↦ htemplate.fits f (hsub.subset hf),
    htemplate.apart.sublist hsub, Nat.le_trans hsub.length_le htemplate.count⟩ (fun x hx ↦ ?_)
    (Nat.le_trans hkept.length_le hs.valueCount) (hs.valueKeys.sublist (hkept.map _)),
    htags.edited [] hc (fun d hd ↦ .inl (mem_tagRefs_description hd))
      (fun x hx ↦ .inl (mem_tagRefs_value (hkept.subset hx))), rfl⟩
  obtain ⟨hmem, hnot⟩ := List.mem_filter.mp hx
  have hplace := (isSome_valuePlace_iff hn).mp (hs.places x hmem)
  refine ⟨hs.values x hmem, hplace.withTemplate hn rfl (fun _ ↦ rfl) fun hstored ↦ ?_⟩
  have hany := hplace.any_field hn hfound hstored
  rw [List.any_eq_true] at hany ⊢
  obtain ⟨f, hf, hfx⟩ := hany
  refine ⟨f, List.mem_filter.mpr ⟨hf, ?_⟩, hfx⟩
  -- A value of the removed field would have been removed with it.
  by_contra heq
  rw [Bool.not_eq_true, Bool.not_eq_false'] at heq
  have hxfield : categoryNameEq x.field field = true := by
    rw [categoryNameEq_iff, ← categoryNameEq_iff.mp hfx, categoryNameEq_iff.mp heq]
  simp [valueOf, hfit x hmem hstored hxfield, hxfield] at hnot

/-- The changed template of a renamed field. -/
theorem storableTemplate_set {oldField newField : Bytes} {i : ℕ} (hc : Collates nocase)
    (h : StorableTemplate nocase fields) (hi : fields.findIdx? (categoryNameEq · oldField) = some i)
    (hnew : within 1 64 newField = true)
    (hfit : ∀ f ∈ fields, categoryNameEq f oldField = true ∨ nocase f newField = false) :
    StorableTemplate nocase (fields.set i newField) := by
  obtain ⟨hlt, hold, -⟩ := List.findIdx?_eq_some_iff_getElem.mp hi
  -- The other fields are not the old one, so they differ from the new one.
  have hother (j : ℕ) (hj : j < fields.length) (hne : i ≠ j) : nocase fields[j] newField = false := by
    refine (hfit _ (List.getElem_mem hj)).resolve_left fun hjold ↦ ?_
    have hsame : AsciiFold.fold fields[i] = AsciiFold.fold fields[j] := by
      rw [categoryNameEq_iff.mp hold, categoryNameEq_iff.mp hjold]
    have hpair := List.pairwise_iff_getElem.mp h.apart
    rcases Nat.lt_or_gt_of_ne hne with hij | hij
    exacts [hc.fold_ne (hpair i j hlt hj hij) hsame, hc.fold_ne (hpair j i hj hlt hij) hsame.symm]
  refine ⟨fun f hf ↦ ?_, ?_, ?_⟩
  · rcases List.mem_or_eq_of_mem_set hf with hf | rfl
    exacts [h.fits f hf, hnew]
  · rw [List.pairwise_iff_getElem]
    intro j k hj hk hjk
    rw [List.length_set] at hj hk
    rw [List.getElem_set, List.getElem_set]
    split_ifs with hji hki hki
    · omega
    · rw [hc.symm]
      exact hother k hk hki
    · exact hother j hj hji
    · exact List.pairwise_iff_getElem.mp h.apart j k hj hk hjk
  · rw [List.length_set]
    exact h.count

theorem storesLike_renameField {oldField newField : Bytes} (hc : Collates nocase)
    (hs : StorableSettings nocase s) (htags : StorableTags nocase (tagRefs root s))
    (hfit : (SettingsEdit.renameField category oldField newField).Fits nocase root s)
    (h : renameTemplateField category oldField newField s = some s') :
    StoresLike nocase root s s' := by
  rw [renameTemplateField] at h
  split_ifs at h with hnew
  rcases hfound : findCategory s category with _ | c
  · rw [hfound] at h
    exact nomatch h
  rw [hfound] at h
  dsimp only at h
  rcases hi : c.fields.findIdx? (categoryNameEq · oldField) with _ | i
  · rw [hi] at h
    exact nomatch h
  rw [hi] at h
  dsimp only at h
  split_ifs at h with hclash
  obtain rfl := Option.some.inj h
  have hn := hs.nodup_names hc
  have htemplate := hs.template ((findCategory_eq_some_iff hn).mp hfound).1
  have hnewFits : within 1 64 newField = true := by
    simp only [indexMaxFieldBytes, Bool.or_eq_true, List.isEmpty_iff, not_or] at hnew
    rw [within_iff]
    exact ⟨List.length_pos_iff.mpr hnew.1, Nat.le_of_not_lt fun h ↦ hnew.2 (decide_eq_true h)⟩
  obtain ⟨hapart, hstray⟩ := hfit
  rw [show categoryTemplate s category = c.fields by
    rw [categoryTemplate, show s.categories.find? _ = some c from hfound]] at hapart
  obtain ⟨hlt, hold, hfirst⟩ := List.findIdx?_eq_some_iff_getElem.mp hi
  -- A field with the name of the new one is the renamed field.
  have hsame (j : ℕ) (hj : j < c.fields.length) (hjnew : categoryNameEq c.fields[j] newField = true) :
      j = i := by
    by_contra hne
    refine hclash (List.any_eq_true.mpr ⟨(c.fields[j], j), ?_, by simp [hne, hjnew]⟩)
    rw [List.mem_zipIdx_iff_getElem?]
    exact List.getElem?_eq_getElem hj
  have hmoved : newField ∈ c.fields.set i newField := List.mem_set hlt newField
  have hplaces (x : TagFieldValue) (hx : x ∈ s.tagFieldValues) :
      HasPlace (withTemplate category (c.fields.set i newField) s).categories
        (renamedValue category oldField newField x) := by
    have hplace := (isSome_valuePlace_iff hn).mp (hs.places x hx)
    rw [renamedValue]
    by_cases hvalue : valueOf category oldField x = true
    · have hstored := storedUnder_of_tagInCategory hs hfound (Bool.and_eq_true_iff.mp hvalue).1
      rw [if_pos hvalue]
      refine hplace.withTemplate hn rfl (fun hnot ↦ ?_) fun _ ↦ ?_
      · rw [hstored] at hnot
        exact nomatch hnot
      · exact List.any_eq_true.mpr ⟨newField, hmoved, categoryNameEq_iff.mpr rfl⟩
    · rw [if_neg hvalue]
      refine hplace.withTemplate hn rfl (fun _ ↦ rfl) fun hstored ↦ ?_
      obtain ⟨f, hf, hfx⟩ := List.any_eq_true.mp (hplace.any_field hn hfound hstored)
      obtain ⟨j, hj, rfl⟩ := List.getElem_of_mem hf
      by_cases hji : j = i
      · -- The value is of the renamed field, but its tag is not in the category.
        subst hji
        have hxold : categoryNameEq x.field oldField = true := by
          rw [categoryNameEq_iff, ← categoryNameEq_iff.mp hfx, categoryNameEq_iff.mp hold]
        rcases hstray with hagain | hall
        · refine List.any_eq_true.mpr ⟨newField, hmoved, ?_⟩
          rw [categoryNameEq_iff, categoryNameEq_iff.mp hagain, categoryNameEq_iff.mp hxold]
        · exact absurd (Bool.and_eq_true_iff.mpr ⟨hall x hx hstored hxold, hxold⟩) hvalue
      · refine List.any_eq_true.mpr ⟨c.fields[j], List.mem_of_getElem? (i := j) ?_, hfx⟩
        rw [List.getElem?_set_ne (Ne.symm hji), List.getElem?_eq_getElem hj]
  -- A value that stays has another field than one that is renamed, or another tag.
  have hmixed (x : TagFieldValue) (y : TagFieldValue) (hy : y ∈ s.tagFieldValues)
      (hvx : valueOf category oldField x = true) (hvy : ¬valueOf category oldField y = true) :
      valueKey { x with field := newField } ≠ valueKey y := by
    intro hkey
    rw [valueKey, valueKey, Prod.mk.injEq] at hkey
    have htag : tagInCategory y.tag category = true := by
      have hx := (Bool.and_eq_true_iff.mp hvx).1
      rw [tagInCategory, categoryNameEq_iff, fold_tagCategoryPrefix] at hx ⊢
      rw [← hkey.1, hx]
    have hplace := (isSome_valuePlace_iff hn).mp (hs.places y hy)
    obtain ⟨f, hf, hfy⟩ := List.any_eq_true.mp
      (hplace.any_field hn hfound (storedUnder_of_tagInCategory hs hfound htag))
    obtain ⟨j, hj, rfl⟩ := List.getElem_of_mem hf
    have hji := hsame j hj (categoryNameEq_iff.mpr ((categoryNameEq_iff.mp hfy).trans hkey.2.symm))
    subst hji
    refine hvy (Bool.and_eq_true_iff.mpr ⟨htag, ?_⟩)
    rw [categoryNameEq_iff, ← categoryNameEq_iff.mp hfy, categoryNameEq_iff.mp hold]
  refine ⟨hs.withTemplate hc (storableTemplate_set hc htemplate hi hnewFits hapart) ?_ ?_ ?_,
    htags.edited [] hc (fun d hd ↦ .inl (mem_tagRefs_description hd)) ?_, rfl⟩
  · intro x' hx'
    obtain ⟨x, hx, rfl⟩ := List.mem_map.mp hx'
    refine ⟨?_, hplaces x hx⟩
    rw [renamedValue]
    split_ifs
    exacts [hs.values x hx, hs.values x hx]
  · rw [List.length_map]
    exact hs.valueCount
  · have hkeys := hs.valueKeys
    rw [List.Nodup, List.pairwise_map] at hkeys
    rw [List.Nodup, List.pairwise_map, List.pairwise_map]
    refine hkeys.imp_of_mem fun {x y} hx hy hne ↦ ?_
    rw [renamedValue, renamedValue]
    split_ifs with hvx hvy hvy
    · intro hkey
      rw [valueKey, valueKey, Prod.mk.injEq] at hkey
      refine hne ?_
      rw [valueKey, valueKey, hkey.1, categoryNameEq_iff.mp (Bool.and_eq_true_iff.mp hvx).2,
        categoryNameEq_iff.mp (Bool.and_eq_true_iff.mp hvy).2]
    · exact hmixed x y hy hvx hvy
    · exact (hmixed y x hx hvy hvx).symm
    · exact hne
  · intro x' hx'
    obtain ⟨x, hx, rfl⟩ := List.mem_map.mp hx'
    have htag : x.tag ∈ tagRefs root s := mem_tagRefs_value hx
    refine .inl ?_
    rw [renamedValue]
    split_ifs
    exacts [htag, htag]

theorem storesLike_removeCategory {row : ℤ} (hc : Collates nocase) (hs : StorableSettings nocase s)
    (htags : StorableTags nocase (tagRefs root s))
    (hfit : (SettingsEdit.removeCategory row).Fits nocase root s) :
    StoresLike nocase root s (settingsRemoveCategory row s) := by
  rw [settingsRemoveCategory]
  split_ifs with hrow
  · exact ⟨hs, htags, rfl⟩
  rw [not_or, not_lt, not_le] at hrow
  have hlt : row.toNat < s.categories.length := by omega
  have hsub : (s.categories.eraseIdx row.toNat).Sublist s.categories := List.eraseIdx_sublist _ _
  have hn := hs.nodup_names hc
  refine ⟨{ hs with
    categories := fun c hc ↦ hs.categories c (hsub.subset hc)
    categoriesApart := hs.categoriesApart.sublist hsub
    fieldCount := fun c hc ↦ hs.fieldCount c (hsub.subset hc)
    places := fun x hx ↦ ?_ }, htags, rfl⟩
  obtain ⟨c, hmem, hstored, hany⟩ := (isSome_valuePlace_iff hn).mp (hs.places x hx)
  refine (isSome_valuePlace_iff (hn.sublist (hsub.map _))).mpr ⟨c, ?_, hstored, hany⟩
  obtain ⟨i, hi, rfl⟩ := List.getElem_of_mem hmem
  rw [List.mem_eraseIdx_iff_getElem]
  refine ⟨i, hi, fun heq ↦ ?_, rfl⟩
  -- The removed category has no values.
  have hnone := hfit hrow.1 _ (List.getElem?_eq_getElem hlt) x hx
  simp [heq, hnone] at hstored

end V3

end SafeVault
