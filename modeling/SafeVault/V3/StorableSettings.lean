import SafeVault.V3.SettingsTables

/-!
# Settings a commit takes

The constraints of all tables together. A commit that goes through shows that its settings meet them,
and what a commit asks of the rest of the vault does not depend on the settings. So in a vault whose
commit goes through, the settings can be exchanged for any others that meet the constraints.
-/

namespace SafeVault

namespace V3

/-- A bundle the tables take. -/
structure StorableBundle (nocase : Bytes → Bytes → Bool) (b : TagBundle) : Prop where
  id : b.id ≠ .zero
  name : within 1 255 b.name = true
  count : b.tags.length ≤ indexMaxTags
  tags : ∀ t ∈ b.tags, within 1 65535 t = true
  tagsApart : b.tags.Pairwise fun t u ↦ nocase t u = false

/-- What the tables ask of the settings by themselves. -/
structure AdmittedSettings (nocase : Bytes → Bytes → Bool) (s : VaultSettings) : Prop where
  bundleCount : s.tagBundles.length ≤ indexMaxTags
  bundles : ∀ b ∈ s.tagBundles, StorableBundle nocase b
  bundlesApart : s.tagBundles.Pairwise fun a b ↦ a.id ≠ b.id ∧ nocase a.name b.name = false
  categories : ∀ c ∈ s.categories, StorableCategory nocase c
  categoriesApart : s.categories.Pairwise fun c d ↦ nocase c.name d.name = false
  texts : ∀ d ∈ s.tagDescriptions, within 1 512 d.text = true
  values : ∀ x ∈ s.tagFieldValues, within 1 256 x.value = true
  places : ∀ x ∈ s.tagFieldValues, (valuePlace s x).isSome = true
  migrated : s.migratedIndexVersion ≤ 13

/-- The key of a description: the tag, up to case. -/
def descriptionKey (d : TagDescription) : Bytes := AsciiFold.fold d.tag

/-- The key of a value: the tag and the field, up to case. -/
def valueKey (x : TagFieldValue) : Bytes × Bytes := (AsciiFold.fold x.tag, AsciiFold.fold x.field)

/-- Settings that meet every constraint, those of the program included. -/
structure StorableSettings (nocase : Bytes → Bytes → Bool) (s : VaultSettings) : Prop extends
    AdmittedSettings nocase s where
  fieldCount : ∀ c ∈ s.categories, c.fields.length ≤ indexMaxTemplateFields
  valueCount : s.tagFieldValues.length ≤ indexMaxTagFieldValues
  descriptionKeys : (s.tagDescriptions.map descriptionKey).Nodup
  valueKeys : (s.tagFieldValues.map valueKey).Nodup

variable {nocase : Bytes → Bytes → Bool}

/-! ## One part after another -/

section Parts

variable {μ : Type} {root : Node μ} {tags : List Bytes} {s : VaultSettings} {m out : Metadata}

theorem bundles_of_foldlM {bs : List TagBundle}
    (hm : m.bundles.Pairwise fun r t ↦ (bundleRule nocase).clash r t = false)
    (h : bs.foldlM (writeBundleDefinition nocase) m = .ok out) :
    (m.bundles ++ bs.map fun b ↦ (⟨b.id, b.name⟩ : BundleRow)).Pairwise
      fun r t ↦ (bundleRule nocase).clash r t = false := by
  induction bs generalizing m with
  | nil => rwa [List.map_nil, List.append_nil]
  | cons b bs ih =>
    rw [List.foldlM_cons, bind_eq_ok_iff] at h
    obtain ⟨next, hb, hrest⟩ := h
    obtain ⟨bundles, bundleTags, hbundles, -, -, rfl⟩ := writeBundleDefinition_eq_ok_iff.mp hb
    obtain ⟨-, -, hapart, rfl⟩ := Table.insert_eq_ok_iff.mp hbundles
    have hnext := ih (List.pairwise_append.mpr ⟨hm, List.pairwise_singleton _ _, fun r hr t ht ↦ by
      rw [List.mem_singleton.mp ht]
      exact hapart r hr⟩) hrest
    rw [List.map_cons]
    rwa [List.append_assoc, List.singleton_append] at hnext

theorem storableBundle_of_writeBundleDefinition {b : TagBundle}
    (h : writeBundleDefinition nocase m b = .ok out) : StorableBundle nocase b := by
  obtain ⟨bundles, bundleTags, hbundles, hcount, htags, -⟩ := writeBundleDefinition_eq_ok_iff.mp h
  obtain ⟨hcheck, -⟩ := Table.insert_eq_ok_iff.mp hbundles
  obtain ⟨hadmits, -⟩ := Table.insertAll_eq_ok_iff.mp htags
  rw [Table.admits_zipIdx_iff (P := fun t ↦ within 1 65535 t = true) (c := nocase)] at hadmits
  · simp only [bundleRule, require_eq_ok_iff, Bool.and_eq_true, decide_eq_true_iff] at hcheck
    exact ⟨hcheck.1, hcheck.2, hcount, hadmits.1, hadmits.2.2.2⟩
  · intro t i
    simp [bundleTagRule]
  · intro t u i j hij
    simp [bundleTagRule, hij]

/-- What the tables of bundles ask for. -/
theorem bundles_of_writeBundles (hm : m.bundles = []) (h : writeBundles nocase root s m = .ok out) :
    s.tagBundles.length ≤ indexMaxTags ∧ (∀ b ∈ s.tagBundles, StorableBundle nocase b) ∧
      s.tagBundles.Pairwise fun a b ↦ a.id ≠ b.id ∧ nocase a.name b.name = false := by
  rw [writeBundles, require_bind_eq_ok_iff, decide_eq_true_iff, bind_eq_ok_iff] at h
  obtain ⟨hcount, mid, hloop, -⟩ := h
  refine ⟨hcount, forall_of_foldlM (fun _ _ _ ↦ storableBundle_of_writeBundleDefinition) hloop, ?_⟩
  have hpair := bundles_of_foldlM (by rw [hm]; exact .nil) hloop
  rw [hm, List.nil_append, List.pairwise_map] at hpair
  refine hpair.imp fun {a b} hab ↦ ?_
  simpa [bundleRule] using hab

theorem sameRest_of_writeBundles (h : writeBundles nocase root s m = .ok out) : SameRest m out := by
  obtain ⟨out', h', hsame⟩ := writeBundles_congr h rfl ⟨rfl, rfl, rfl⟩
  exact Except.ok.inj (h.symm.trans h') ▸ hsame

/-- **Descriptions.** Their table asks for texts within bounds, if the tags are registered. -/
theorem exists_writeDescriptions_iff (htags : ∀ d ∈ s.tagDescriptions, 0 < tagId tags d.tag) :
    (∃ out, writeDescriptions tags s m = .ok out ∧ out.fieldValues = m.fieldValues) ↔
      ∀ d ∈ s.tagDescriptions, within 1 512 d.text = true := by
  constructor
  · rintro ⟨out, h, -⟩
    exact forall_mem_zipIdx_iff.mp (forall_of_foldlM
      (P := fun p : TagDescription × ℕ ↦ within 1 512 p.1.text = true) (fun _ _ _ h ↦ (writeDescription_eq_ok_iff.mp h).2.1) h)
  · intro h
    have hstep (n : ℕ) (m' : Metadata) (p : TagDescription × ℕ) (hm' : m'.fieldValues = m.fieldValues)
        (hp : 0 < tagId tags p.1.tag ∧ within 1 512 p.1.text = true) :
        ∃ out, writeDescription tags m' p = .ok out ∧ out.fieldValues = m.fieldValues :=
      ⟨_, writeDescription_eq_ok_iff.mpr ⟨hp.1, hp.2, rfl⟩, hm'⟩
    refine exists_foldlM (I := fun _ (out : Metadata) ↦ out.fieldValues = m.fieldValues) hstep rfl ?_
    intro p hp
    have hd := List.fst_mem_of_mem_zipIdx hp
    exact ⟨htags p.1 hd, h p.1 hd⟩

theorem fieldValues_of_writeDescriptions (h : writeDescriptions tags s m = .ok out) :
    out.fieldValues = m.fieldValues :=
  eq_of_foldlM (g := Metadata.fieldValues) (fun m' p out' h ↦ by
    rw [(writeDescription_eq_ok_iff.mp h).2.2]) h

/-- What the table of field values asks for. -/
theorem values_of_writeFieldValues (h : writeFieldValues tags s m = .ok out) :
    ∀ x ∈ s.tagFieldValues, within 1 256 x.value = true ∧ (valuePlace s x).isSome = true := by
  refine forall_mem_zipIdx_iff.mp (forall_of_foldlM
    (P := fun p : TagFieldValue × ℕ ↦
      within 1 256 p.1.value = true ∧ (valuePlace s p.1).isSome = true)
    (fun _ p _ h ↦ ?_) h)
  obtain ⟨c, f, hplace, -, -, hvalue, -⟩ := writeFieldValue_eq_ok_iff.mp h
  exact ⟨hvalue, hplace ▸ rfl⟩

/-- **Field values.** The table takes values that have a place in a template, if there are not too
many of them. -/
theorem exists_writeFieldValues (hm : m.fieldValues = [])
    (htags : ∀ x ∈ s.tagFieldValues, 0 < tagId tags x.tag) (hs : StorableSettings nocase s) :
    ∃ out, writeFieldValues tags s m = .ok out := by
  have hstep (n : ℕ) (m' : Metadata) (p : TagFieldValue × ℕ)
      (hm' : m'.fieldValues.length + (n + 1) ≤ indexMaxTagFieldValues) (hp : p.1 ∈ s.tagFieldValues) :
      ∃ out, writeFieldValue tags s m' p = .ok out ∧
        out.fieldValues.length + n ≤ indexMaxTagFieldValues := by
    obtain ⟨⟨c, f⟩, hplace⟩ := Option.isSome_iff_exists.mp (hs.places p.1 hp)
    have hf : f ≤ 15 := by
      obtain ⟨-, category, -, -, hcategory, hfield⟩ := valuePlace_eq_some_iff.mp hplace
      have hcount := hs.fieldCount category (List.mem_of_getElem? hcategory)
      have hlt := (List.findIdx?_eq_some_iff_getElem.mp hfield).1
      rw [indexMaxTemplateFields] at hcount
      omega
    refine ⟨_, writeFieldValue_eq_ok_iff.mpr ⟨c, f, hplace, htags p.1 hp, hf, hs.values p.1 hp, ?_, rfl⟩,
      ?_⟩
    · omega
    · have hlen : (Table.upsert sameValueKey m'.fieldValues
          ⟨tagId tags p.1.tag, c + 1, f, p.1.tag, p.1.field, p.2, p.1.value⟩).length ≤
          m'.fieldValues.length + 1 := Table.length_upsert_le
      dsimp only
      omega
  have hroom : m.fieldValues.length + s.tagFieldValues.zipIdx.length ≤ indexMaxTagFieldValues := by
    rw [hm, List.length_zipIdx, List.length_nil, Nat.zero_add]
    exact hs.valueCount
  obtain ⟨out, hout, -⟩ := exists_foldlM
    (I := fun n (out : Metadata) ↦ out.fieldValues.length + n ≤ indexMaxTagFieldValues) hstep hroom
    fun _ ↦ List.fst_mem_of_mem_zipIdx
  exact ⟨out, hout⟩

end Parts

/-! ## The whole commit -/

section Commit

variable {root : IndexNode} {s s' : VaultSettings} {status : Phase → DbStatus} {generation : ℕ}
  {out : Metadata}

theorem setSettings_eq_ok_iff {m : Metadata} : (∃ out, setSettings s generation m = .ok out) ↔
    s.migratedIndexVersion ≤ 13 ∧ generation < 2 ^ 63 := by
  have hsort : s.defaultSort.toByte ≤ 7 := s.defaultSort.toByte_le
  simp only [setSettings, ↓require_bind_eq_ok_iff, Bool.and_eq_true, decide_eq_true_iff, hsort,
    true_and]
  constructor
  · rintro ⟨out, hmigrated, hgeneration, -⟩
    exact ⟨hmigrated, hgeneration⟩
  · rintro ⟨hmigrated, hgeneration⟩
    exact ⟨_, hmigrated, hgeneration, rfl⟩

/-- Settings that were committed meet the constraints, and the tags they name go with those of the
nodes. -/
theorem admitted_of_syncSettings (hc : Collates nocase)
    (h : syncSettings nocase status root s generation = .ok out) :
    StorableTags nocase (tagRefs root s) ∧ AdmittedSettings nocase s := by
  rw [syncSettings, proceed_bind_eq_ok_iff] at h
  simp only [↓proceed_bind_eq_ok_iff, bind_eq_ok_iff] at h
  obtain ⟨-, m₁, htags, -, m₂, hbundles, -, m₃, hcategories, -, m₄, htexts, -, m₅, hvalues, -, hset⟩ := h
  obtain ⟨-, hstorable, rfl⟩ := (writeTags_eq_ok_iff hc).mp htags
  obtain ⟨hcount, hall, hapart⟩ := bundles_of_writeBundles rfl hbundles
  have hrest := sameRest_of_writeBundles hbundles
  obtain ⟨⟨hcats, hcatsApart⟩, -⟩ :=
    (writeCategories_eq_ok_iff hrest.categories.symm hrest.categoryFields.symm).mp hcategories
  have hvalues' := values_of_writeFieldValues hvalues
  have hdescribed := fieldValues_of_writeDescriptions htexts
  exact ⟨hstorable, hcount, hall, hapart, hcats, hcatsApart,
    (exists_writeDescriptions_iff fun d hd ↦ tagId_pos (mem_tagRefs_description hd)).mp
      ⟨m₄, htexts, hdescribed⟩,
    fun x hx ↦ (hvalues' x hx).1, fun x hx ↦ (hvalues' x hx).2,
    (setSettings_eq_ok_iff.mp ⟨_, hset⟩).1⟩

/-- **Other settings.** Where some settings can be committed, so can any storable ones with the same
bundles, as long as the tags they name go with those of the nodes. -/
theorem syncSettings_of_syncSettings (hc : Collates nocase)
    (h : syncSettings nocase status root s generation = .ok out)
    (hbundles : s.tagBundles = s'.tagBundles) (htags : StorableTags nocase (tagRefs root s'))
    (hs : StorableSettings nocase s') :
    ∃ out', syncSettings nocase status root s' generation = .ok out' := by
  rw [syncSettings, proceed_bind_eq_ok_iff] at h
  simp only [↓proceed_bind_eq_ok_iff, bind_eq_ok_iff] at h
  obtain ⟨h₁, m₁, hwriteTags, h₂, m₂, hwriteBundles, h₃, m₃, -, h₄, m₄, -, h₅, m₅, -, h₆, hset⟩ := h
  obtain ⟨hnodes, -, rfl⟩ := (writeTags_eq_ok_iff hc).mp hwriteTags
  have htags' := (writeTags_eq_ok_iff (m := {}) hc).mpr ⟨hnodes, htags, rfl⟩
  obtain ⟨m₂', hbundles', hrest⟩ := writeBundles_congr (n := {
    tags := tagRows (registerTags root s')
    nodeTags := root.labels.flatMap (nodeTagRows (registerTags root s')) }) hwriteBundles hbundles
    ⟨rfl, rfl, rfl⟩
  have hcategories' := (writeCategories_eq_ok_iff hrest.categories.symm hrest.categoryFields.symm).mpr
    ⟨⟨hs.categories, hs.categoriesApart⟩, rfl⟩
  obtain ⟨m₄', htexts', hvalues⟩ := (exists_writeDescriptions_iff
    (m := withCategories s'.categories 0 m₂') fun d hd ↦ tagId_pos (mem_tagRefs_description hd)).mpr
    hs.texts
  obtain ⟨m₅', hvalues'⟩ := exists_writeFieldValues (hvalues.trans hrest.fieldValues.symm)
    (fun x hx ↦ tagId_pos (mem_tagRefs_value hx)) hs
  obtain ⟨out', hset'⟩ := (setSettings_eq_ok_iff (m := m₅')).mpr
    ⟨hs.migrated, (setSettings_eq_ok_iff.mp ⟨_, hset⟩).2⟩
  refine ⟨out', ?_⟩
  rw [syncSettings, proceed_bind_eq_ok_iff]
  simp only [↓proceed_bind_eq_ok_iff, bind_eq_ok_iff]
  exact ⟨h₁, _, htags', h₂, m₂', hbundles', h₃, _, hcategories', h₄, m₄', htexts', h₅, m₅',
    hvalues', h₆, hset'⟩

variable {storage : Storage} {v : OpenVault}

theorem admitted_of_commitIndex (hc : Collates nocase) (h : (v.commitIndex nocase storage).1 = .ok) :
    StorableTags nocase (tagRefs v.root v.settings) ∧ AdmittedSettings nocase v.settings := by
  obtain ⟨db, hdb⟩ := (commitIndex_eq_ok_iff.mp h).1.tables
  exact admitted_of_syncSettings hc (metadata_of_syncTables hdb).2.2

/-- The same for a commit of the vault. -/
theorem commitIndex_of_commitIndex (hc : Collates nocase)
    (h : (v.commitIndex nocase storage).1 = .ok) (hbundles : v.settings.tagBundles = s'.tagBundles)
    (htags : StorableTags nocase (tagRefs v.root s')) (hs : StorableSettings nocase s') :
    (OpenVault.commitIndex nocase storage { v with settings := s' }).1 = .ok := by
  obtain ⟨hrest, hsearches⟩ := commitIndex_eq_ok_iff.mp h
  obtain ⟨db, hdb⟩ := hrest.tables
  obtain ⟨out, hout⟩ :=
    syncSettings_of_syncSettings hc (metadata_of_syncTables hdb).2.2 hbundles htags hs
  obtain ⟨db', hdb'⟩ := syncTables_of_syncTables hdb hout
  exact commitIndex_eq_ok_iff.mpr ⟨⟨hrest.opened, ⟨db', hdb'⟩, hrest.searches, hrest.commit,
    hrest.references⟩, hsearches⟩

end Commit

end V3

end SafeVault
