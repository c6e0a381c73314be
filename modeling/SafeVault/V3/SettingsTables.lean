import SafeVault.V3.OpenVault

/-!
# Settings the tables take

What a commit asks of the settings: names within their bounds and different for the collation of the
database, texts within their bounds, and a place for every field value in the template of a category.
The keys of descriptions and of values are also different up to case, which the tables do not ask
for, as a later row takes the place of an earlier one.

Everything else a commit asks for does not depend on the settings, apart from the tags they name:
these share a table with the tags of the nodes.
-/

namespace SafeVault

namespace V3

/-- What is relied on of the collation: it is a symmetric comparison that finds every text equal to
itself and cannot tell spellings apart that differ in the case of ASCII letters only. -/
structure Collates (nocase : Bytes → Bytes → Bool) : Prop where
  refl : ∀ a, nocase a a = true
  symm : ∀ a b, nocase a b = nocase b a
  ci : ∀ a a' b, tagCiEqual a a' = true → nocase a b = nocase a' b

theorem tagCiEqual_iff {a b : Bytes} :
    tagCiEqual a b = true ↔ AsciiFold.fold a = AsciiFold.fold b := AsciiFold.equal_iff

theorem categoryNameEq_iff {a b : Bytes} :
    categoryNameEq a b = true ↔ AsciiFold.fold a = AsciiFold.fold b := AsciiFold.equal_iff

theorem collates_tagCiEqual : Collates tagCiEqual where
  refl a := tagCiEqual_iff.mpr rfl
  symm a b := AsciiFold.equal_comm a b
  ci a a' b h := by
    rw [Bool.eq_iff_iff, tagCiEqual_iff, tagCiEqual_iff, tagCiEqual_iff.mp h]

/-- Different for the collation, so different up to case. -/
theorem Collates.fold_ne {nocase : Bytes → Bytes → Bool} (hc : Collates nocase) {a b : Bytes}
    (h : nocase a b = false) : AsciiFold.fold a ≠ AsciiFold.fold b := by
  intro hfold
  rw [hc.ci a b b (tagCiEqual_iff.mpr hfold), hc.refl] at h
  exact nomatch h

theorem Collates.congr {nocase : Bytes → Bytes → Bool} (hc : Collates nocase) {a a' b b' : Bytes}
    (ha : AsciiFold.fold a = AsciiFold.fold a') (hb : AsciiFold.fold b = AsciiFold.fold b') :
    nocase a b = nocase a' b' := by
  rw [hc.ci a a' b (tagCiEqual_iff.mpr ha), hc.symm, hc.ci b b' a' (tagCiEqual_iff.mpr hb), hc.symm]

section Tags

variable {μ : Type} {nocase : Bytes → Bytes → Bool} {root : Node μ} {s s' : VaultSettings}
  {m n out : Metadata}

/-! ## The tags -/

/-- The tags of the nodes and those the settings name. -/
def tagRefs (root : Node μ) (s : VaultSettings) : List Bytes :=
  root.labels.flatMap (·.tags) ++ s.tagDescriptions.map (·.tag) ++ s.tagFieldValues.map (·.tag)

/-- These tags can share a table. -/
structure StorableTags (nocase : Bytes → Bytes → Bool) (tags : List Bytes) : Prop where
  fits : ∀ t ∈ tags, within 1 65535 t = true
  apart : ∀ t ∈ tags, ∀ u ∈ tags, nocase t u = true → tagCiEqual t u = true

theorem StorableTags.mono {tags tags' : List Bytes} (h : StorableTags nocase tags)
    (hsub : ∀ t ∈ tags', t ∈ tags) : StorableTags nocase tags' :=
  ⟨fun t ht ↦ h.fits t (hsub t ht), fun t ht u hu ↦ h.apart t (hsub t ht) u (hsub u hu)⟩

theorem StorableTags.cons {tags : List Bytes} {tag : Bytes} (hc : Collates nocase)
    (h : StorableTags nocase tags) (hfits : within 1 65535 tag = true)
    (hapart : ∀ t ∈ tags, nocase t tag = true → tagCiEqual t tag = true) :
    StorableTags nocase (tag :: tags) where
  fits := List.forall_mem_cons.mpr ⟨hfits, h.fits⟩
  apart t ht u hu htu := by
    by_cases htag : t = tag
    · rcases List.mem_cons.mp hu with rfl | hu
      · exact htag ▸ tagCiEqual_iff.mpr rfl
      · rw [htag, hc.symm] at htu
        rw [htag]
        exact tagCiEqual_iff.mpr (tagCiEqual_iff.mp (hapart u hu htu)).symm
    · have ht' := (List.mem_cons.mp ht).resolve_left htag
      rcases List.mem_cons.mp hu with rfl | hu
      exacts [hapart t ht' htu, h.apart t ht' u hu htu]

/-- Other spellings of the same tags. -/
theorem StorableTags.respell {tags tags' : List Bytes} (hc : Collates nocase)
    (h : StorableTags nocase tags)
    (hkeys : ∀ t ∈ tags', ∃ u ∈ tags, AsciiFold.fold t = AsciiFold.fold u) :
    StorableTags nocase tags' where
  fits t ht := by
    obtain ⟨u, hu, htu⟩ := hkeys t ht
    have hlen := congrArg List.length htu
    rw [AsciiFold.length_fold, AsciiFold.length_fold] at hlen
    have hfits := h.fits u hu
    rwa [within, ← hlen] at hfits
  apart t ht u hu htu := by
    obtain ⟨t', ht', htt'⟩ := hkeys t ht
    obtain ⟨u', hu', huu'⟩ := hkeys u hu
    rw [hc.congr htt' huu'] at htu
    rw [tagCiEqual_iff, htt', huu']
    exact tagCiEqual_iff.mp (h.apart t' ht' u' hu' htu)

theorem mem_tagRefs_description {d : TagDescription} (h : d ∈ s.tagDescriptions) :
    d.tag ∈ tagRefs root s :=
  List.mem_append_left _ (List.mem_append_right _ (List.mem_map_of_mem h))

theorem mem_tagRefs_value {x : TagFieldValue} (h : x ∈ s.tagFieldValues) : x.tag ∈ tagRefs root s :=
  List.mem_append_right _ (List.mem_map_of_mem h)

theorem mem_registerTags {t : Bytes} (h : t ∈ registerTags root s) : t ∈ tagRefs root s :=
  KeyedUnion.forall_mem_union (fun _ h ↦ absurd h List.not_mem_nil) (fun _ h ↦ h) t h

/-- Every tag is registered in some spelling. -/
theorem exists_mem_registerTags {t : Bytes} (h : t ∈ tagRefs root s) :
    ∃ u ∈ registerTags root s, AsciiFold.fold t = AsciiFold.fold u := by
  have hkey : AsciiFold.fold t ∈ (registerTags root s).map AsciiFold.fold :=
    (KeyedUnion.mem_keys_union decides_tagCiEqual).mpr (.inr (List.mem_map_of_mem h))
  obtain ⟨u, hu, hut⟩ := List.mem_map.mp hkey
  exact ⟨u, hu, hut.symm⟩

/-- **The table of tags** takes the registered tags exactly when the tags can share a table. -/
theorem admits_tagRows_iff (hc : Collates nocase) :
    Table.Admits (tagRule nocase) [] (tagRows (registerTags root s)) ↔
      StorableTags nocase (tagRefs root s) := by
  have hnodup : ((registerTags root s).map AsciiFold.fold).Nodup :=
    KeyedUnion.nodup_union decides_tagCiEqual List.nodup_nil
  rw [tagRows, Table.admits_zipIdx_iff (P := fun t ↦ within 1 65535 t = true) (c := nocase)]
  · constructor
    · rintro ⟨hfits, -, -, hapart⟩
      have hstorable : StorableTags nocase (registerTags root s) := by
        refine ⟨hfits, fun t ht u hu htu ↦ ?_⟩
        by_contra hne
        have hsymm : Std.Symm fun a b ↦ nocase a b = false := ⟨fun a b hab ↦ (hc.symm b a).trans hab⟩
        have hpair := hapart.forall ht hu fun h ↦ hne (h ▸ tagCiEqual_iff.mpr rfl)
        rw [htu] at hpair
        exact nomatch hpair
      exact hstorable.respell hc fun t ht ↦ exists_mem_registerTags ht
    · intro h
      refine ⟨fun t ht ↦ h.fits t (mem_registerTags ht), fun _ _ ↦ rfl, nofun, ?_⟩
      rw [List.Nodup, List.pairwise_map] at hnodup
      refine hnodup.imp_of_mem fun {t u} ht hu hne ↦ ?_
      rw [← Bool.not_eq_true]
      exact fun htu ↦ hne
        (tagCiEqual_iff.mp (h.apart t (mem_registerTags ht) u (mem_registerTags hu) htu))
  · intro t i
    simp [tagRule]
  · intro t u i j hij
    simp [tagRule, hij]

/-- The identities of the tags of the nodes do not depend on the settings. -/
theorem tagId_registerTags {t : Bytes} (ht : t ∈ root.labels.flatMap (·.tags)) :
    tagId (registerTags root s) t =
      tagId (KeyedUnion.union tagCiEqual [] (root.labels.flatMap (·.tags))) t := by
  rw [registerTags, List.append_assoc, KeyedUnion.union_append]
  obtain ⟨more, hmore⟩ : KeyedUnion.union tagCiEqual [] (root.labels.flatMap (·.tags)) <+:
      KeyedUnion.union tagCiEqual (KeyedUnion.union tagCiEqual [] (root.labels.flatMap (·.tags)))
        (s.tagDescriptions.map (·.tag) ++ s.tagFieldValues.map (·.tag)) := KeyedUnion.prefix_union
  have hkey : AsciiFold.fold t ∈ (KeyedUnion.union tagCiEqual []
      (root.labels.flatMap (·.tags))).map AsciiFold.fold :=
    (KeyedUnion.mem_keys_union decides_tagCiEqual).mpr (.inr (List.mem_map_of_mem ht))
  obtain ⟨u, hu, hut⟩ := List.mem_map.mp hkey
  have hfound : ((KeyedUnion.union tagCiEqual [] (root.labels.flatMap (·.tags))).findIdx?
      (tagCiEqual · t)).isSome = true := by
    rw [List.findIdx?_isSome, List.any_eq_true]
    exact ⟨u, hu, tagCiEqual_iff.mpr hut⟩
  obtain ⟨i, hi⟩ := Option.isSome_iff_exists.mp hfound
  rw [← hmore, tagId, tagId, List.findIdx?_append, hi, Option.some_or]

/-- What the table of assignments asks of the nodes. -/
structure StorableNodeTags (root : Node μ) : Prop where
  count : ∀ node ∈ root.labels, node.tags.length ≤ indexMaxTags
  rows : Table.Admits nodeTagRule [] (root.labels.flatMap
    (nodeTagRows (KeyedUnion.union tagCiEqual [] (root.labels.flatMap (·.tags)))))

theorem nodeTagRows_registerTags : root.labels.flatMap (nodeTagRows (registerTags root s)) =
    root.labels.flatMap
      (nodeTagRows (KeyedUnion.union tagCiEqual [] (root.labels.flatMap (·.tags)))) := by
  refine List.flatMap_congr fun node hnode ↦ ?_
  rw [nodeTagRows, nodeTagRows]
  refine List.map_congr_left fun p hp ↦ ?_
  rw [tagId_registerTags (List.mem_flatMap.mpr ⟨node, hnode, List.fst_mem_of_mem_zipIdx hp⟩)]

/-- **Tags.** The tables of tags depend on the settings only in the tags these name. -/
theorem writeTags_eq_ok_iff (hc : Collates nocase) : writeTags nocase root s m = .ok out ↔
    StorableNodeTags root ∧ StorableTags nocase (tagRefs root s) ∧
      out = { m with
        tags := tagRows (registerTags root s)
        nodeTags := root.labels.flatMap (nodeTagRows (registerTags root s)) } := by
  rw [writeTags, require_bind_eq_ok_iff]
  simp only [bind_eq_ok_iff, Table.insertAll_eq_ok_iff, List.nil_append, List.all_eq_true,
    decide_eq_true_iff]
  constructor
  · rintro ⟨hcount, tags, ⟨htags, rfl⟩, nodeTags, ⟨hnodes, rfl⟩, h⟩
    cases h
    refine ⟨⟨hcount, ?_⟩, (admits_tagRows_iff hc).mp htags, rfl⟩
    rwa [nodeTagRows_registerTags] at hnodes
  · rintro ⟨⟨hcount, hnodes⟩, htags, rfl⟩
    refine ⟨hcount, _, ⟨(admits_tagRows_iff hc).mpr htags, rfl⟩, _, ⟨?_, rfl⟩, rfl⟩
    rwa [nodeTagRows_registerTags]

/-! ## Bundles -/

/-- The tables of bundles agree. -/
structure SameBundles (m n : Metadata) : Prop where
  bundles : m.bundles = n.bundles
  bundleTags : m.bundleTags = n.bundleTags
  nodeBundles : m.nodeBundles = n.nodeBundles

/-- The tables that later parts look at agree. -/
structure SameRest (m n : Metadata) : Prop where
  categories : m.categories = n.categories
  categoryFields : m.categoryFields = n.categoryFields
  fieldValues : m.fieldValues = n.fieldValues

theorem writeBundleDefinition_eq_ok_iff {b : TagBundle} :
    writeBundleDefinition nocase m b = .ok out ↔ ∃ bundles bundleTags,
      Table.insert (bundleRule nocase) m.bundles ⟨b.id, b.name⟩ = .ok bundles ∧
      b.tags.length ≤ indexMaxTags ∧
      Table.insertAll (bundleTagRule nocase) m.bundleTags
        (b.tags.zipIdx.map fun p ↦ ⟨b.id, p.1, p.2⟩) = .ok bundleTags ∧
      out = { m with bundles, bundleTags } := by
  simp only [writeBundleDefinition, ↓require_bind_eq_ok_iff, bind_eq_ok_iff, decide_eq_true_iff]
  constructor
  · rintro ⟨bundles, hbundles, hcount, bundleTags, htags, h⟩
    exact ⟨bundles, bundleTags, hbundles, hcount, htags, (Except.ok.inj h).symm⟩
  · rintro ⟨bundles, bundleTags, hbundles, hcount, htags, rfl⟩
    exact ⟨bundles, hbundles, hcount, bundleTags, htags, rfl⟩

/-- **Bundles.** Their tables do not depend on the other settings, and leave the other tables alone. -/
theorem writeBundles_congr (h : writeBundles nocase root s m = .ok out)
    (hs : s.tagBundles = s'.tagBundles) (hm : SameBundles m n) :
    ∃ out', writeBundles nocase root s' n = .ok out' ∧ SameRest n out' := by
  rw [writeBundles, require_bind_eq_ok_iff] at h
  simp only [bind_eq_ok_iff] at h
  obtain ⟨hcount, mid, hloop, nodeBundles, hnodes, -⟩ := h
  obtain ⟨mid', hloop', hsame, hrest⟩ : ∃ mid', s'.tagBundles.foldlM (writeBundleDefinition nocase) n =
      .ok mid' ∧ SameBundles mid mid' ∧ SameRest n mid' := by
    rw [hs] at hloop
    generalize s'.tagBundles = bs at hloop
    induction bs generalizing m n with
    | nil =>
      cases hloop
      exact ⟨n, rfl, hm, rfl, rfl, rfl⟩
    | cons b bs ih =>
      rw [List.foldlM_cons, bind_eq_ok_iff] at hloop
      obtain ⟨next, hb, hloop⟩ := hloop
      obtain ⟨bundles, bundleTags, hbundles, hsize, htags, rfl⟩ :=
        writeBundleDefinition_eq_ok_iff.mp hb
      rw [hm.bundles] at hbundles
      rw [hm.bundleTags] at htags
      have hb' := writeBundleDefinition_eq_ok_iff.mpr ⟨bundles, bundleTags, hbundles, hsize, htags, rfl⟩
      have hnext : SameBundles { m with bundles, bundleTags } { n with bundles, bundleTags } :=
        ⟨rfl, rfl, hm.nodeBundles⟩
      obtain ⟨mid', hloop', hsame, hrest⟩ := ih hnext hloop
      refine ⟨mid', ?_, hsame, hrest.categories, hrest.categoryFields, hrest.fieldValues⟩
      rw [List.foldlM_cons, bind_eq_ok_iff]
      exact ⟨_, hb', hloop'⟩
  rw [hsame.bundles, hsame.nodeBundles] at hnodes
  rw [hs] at hcount
  refine ⟨{ mid' with nodeBundles }, ?_, hrest.categories, hrest.categoryFields, hrest.fieldValues⟩
  rw [writeBundles, require_bind_eq_ok_iff]
  simp only [bind_eq_ok_iff]
  exact ⟨hcount, mid', hloop', nodeBundles, hnodes, rfl⟩

end Tags

/-! ## Categories -/

section Categories

variable {nocase : Bytes → Bytes → Bool} {s : VaultSettings} {m out : Metadata}
  {cs : List TagCategory} {c : TagCategory}

/-- A category the tables take. -/
structure StorableCategory (nocase : Bytes → Bytes → Bool) (c : TagCategory) : Prop where
  name : within 1 64 c.name = true
  swatch : c.swatch ≤ 15
  fields : ∀ f ∈ c.fields, within 1 64 f = true
  fieldsApart : c.fields.Pairwise fun f g ↦ nocase f g = false

theorem writeCategory_eq_ok_iff {i : ℕ} (hids : ∀ r ∈ m.categories, r.categoryId ≤ i)
    (hfields : ∀ r ∈ m.categoryFields, r.categoryId ≤ i) :
    writeCategory nocase m (c, i) = .ok out ↔ StorableCategory nocase c ∧
      (∀ r ∈ m.categories, nocase r.displayName c.name = false) ∧
      out = { m with
        categories := m.categories ++ [⟨i + 1, c.name, c.swatch⟩]
        categoryFields := m.categoryFields ++ c.fields.zipIdx.map fun p ↦ ⟨i + 1, p.2, p.1⟩ } := by
  have hadmits : Table.Admits (categoryFieldRule nocase) m.categoryFields
      (c.fields.zipIdx.map fun p ↦ ⟨i + 1, p.2, p.1⟩) ↔
      (∀ f ∈ c.fields, within 1 64 f = true) ∧ c.fields.Pairwise fun f g ↦ nocase f g = false := by
    rw [Table.admits_zipIdx_iff (P := fun f ↦ within 1 64 f = true) (c := nocase)]
    · refine and_congr_right fun _ ↦ ⟨fun h ↦ h.2.2, fun h ↦ ⟨fun _ _ ↦ rfl, fun r hr p _ ↦ ?_, h⟩⟩
      -- The fields of the earlier categories have other identities.
      have hne : (r.categoryId == i + 1) = false := by
        have := hfields r hr
        exact beq_false_of_ne (by omega)
      simp [categoryFieldRule, hne]
    · intro f k
      simp [categoryFieldRule]
    · intro f g k l hkl
      simp [categoryFieldRule, hkl]
  have hclash : ∀ r ∈ m.categories, (categoryRule nocase).clash r ⟨i + 1, c.name, c.swatch⟩ =
      nocase r.displayName c.name := by
    intro r hr
    have hne : (r.categoryId == i + 1) = false := by
      have := hids r hr
      exact beq_false_of_ne (by omega)
    simp [categoryRule, hne]
  simp only [writeCategory, bind_eq_ok_iff, Table.insert_eq_ok_iff, Table.insertAll_eq_ok_iff, hadmits]
  constructor
  · rintro ⟨categories, ⟨hcheck, -, hapart, rfl⟩, fields, ⟨⟨hfits, hpair⟩, rfl⟩, h⟩
    rw [categoryRule, require_eq_ok_iff, Bool.and_eq_true, decide_eq_true_iff] at hcheck
    exact ⟨⟨hcheck.1, hcheck.2, hfits, hpair⟩, fun r hr ↦ (hclash r hr).symm.trans (hapart r hr),
      (Except.ok.inj h).symm⟩
  · rintro ⟨h, hapart, rfl⟩
    refine ⟨_, ⟨?_, rfl, fun r hr ↦ (hclash r hr).trans (hapart r hr), rfl⟩, _,
      ⟨⟨h.fields, h.fieldsApart⟩, rfl⟩, rfl⟩
    rw [categoryRule, require_eq_ok_iff, Bool.and_eq_true, decide_eq_true_iff]
    exact ⟨h.name, h.swatch⟩

/-- The rows of the categories, and of their fields, from a place on. -/
def withCategories (cs : List TagCategory) (i : ℕ) (m : Metadata) : Metadata :=
  { m with
    categories := m.categories ++ (cs.zipIdx i).map fun p ↦ ⟨p.2 + 1, p.1.name, p.1.swatch⟩
    categoryFields := m.categoryFields ++
      (cs.zipIdx i).flatMap fun p ↦ p.1.fields.zipIdx.map fun q ↦ ⟨p.2 + 1, q.2, q.1⟩ }

theorem foldlM_writeCategory_iff {i : ℕ} (hids : ∀ r ∈ m.categories, r.categoryId ≤ i)
    (hfields : ∀ r ∈ m.categoryFields, r.categoryId ≤ i) :
    (cs.zipIdx i).foldlM (writeCategory nocase) m = .ok out ↔
      ((∀ c ∈ cs, StorableCategory nocase c) ∧
        (∀ r ∈ m.categories, ∀ c ∈ cs, nocase r.displayName c.name = false) ∧
        cs.Pairwise fun c d ↦ nocase c.name d.name = false) ∧ out = withCategories cs i m := by
  induction cs generalizing i m with
  | nil =>
    simp only [List.zipIdx_nil, List.foldlM_nil, withCategories, List.map_nil, List.flatMap_nil,
      List.append_nil]
    refine ⟨fun h ↦ ⟨⟨nofun, fun _ _ ↦ nofun, .nil⟩, (Except.ok.inj h).symm⟩, ?_⟩
    rintro ⟨-, rfl⟩
    rfl
  | cons c cs ih =>
    have hstep {out : Metadata} : writeCategory nocase m (c, i) = .ok out ↔ _ :=
      writeCategory_eq_ok_iff hids hfields
    set next : Metadata := { m with
      categories := m.categories ++ [⟨i + 1, c.name, c.swatch⟩]
      categoryFields := m.categoryFields ++ c.fields.zipIdx.map fun p ↦ ⟨i + 1, p.2, p.1⟩ } with hnext
    have hids' : ∀ r ∈ next.categories, r.categoryId ≤ i + 1 := by
      intro r hr
      rcases List.mem_append.mp hr with hr | hr
      · exact Nat.le_succ_of_le (hids r hr)
      · rw [List.mem_singleton.mp hr]
    have hfields' : ∀ r ∈ next.categoryFields, r.categoryId ≤ i + 1 := by
      intro r hr
      rcases List.mem_append.mp hr with hr | hr
      · exact Nat.le_succ_of_le (hfields r hr)
      · obtain ⟨p, -, rfl⟩ := List.mem_map.mp hr
        exact le_rfl
    have hrest := ih hids' hfields'
    have hwith : withCategories cs (i + 1) next = withCategories (c :: cs) i m := by
      simp [withCategories, hnext]
    simp only [List.zipIdx_cons, List.foldlM_cons, bind_eq_ok_iff, hstep]
    constructor
    · rintro ⟨_, ⟨hstorable, hapart, rfl⟩, hloop⟩
      obtain ⟨⟨hall, hold, hpair⟩, rfl⟩ := hrest.mp hloop
      refine ⟨⟨List.forall_mem_cons.mpr ⟨hstorable, hall⟩, fun r hr ↦ List.forall_mem_cons.mpr
        ⟨hapart r hr, hold r (List.mem_append_left _ hr)⟩, List.pairwise_cons.mpr ⟨?_, hpair⟩⟩, hwith⟩
      exact hold ⟨i + 1, c.name, c.swatch⟩ (List.mem_append_right _ List.mem_cons_self)
    · rintro ⟨⟨hall, hold, hpair⟩, rfl⟩
      obtain ⟨hstorable, hall⟩ := List.forall_mem_cons.mp hall
      obtain ⟨hnew, hpair⟩ := List.pairwise_cons.mp hpair
      have hold' : ∀ r ∈ next.categories, ∀ d ∈ cs, nocase r.displayName d.name = false := by
        intro r hr d hd
        rcases List.mem_append.mp hr with hr | hr
        · exact hold r hr d (List.mem_cons_of_mem _ hd)
        · rw [List.mem_singleton.mp hr]
          exact hnew d hd
      refine ⟨next, ⟨hstorable, fun r hr ↦ hold r hr c List.mem_cons_self, rfl⟩, ?_⟩
      rw [hrest, hwith]
      exact ⟨⟨hall, hold', hpair⟩, rfl⟩

/-- **Categories.** Their tables ask for names and fields within bounds and different. -/
theorem writeCategories_eq_ok_iff (hm : m.categories = []) (hf : m.categoryFields = []) :
    writeCategories nocase s m = .ok out ↔
      ((∀ c ∈ s.categories, StorableCategory nocase c) ∧
        s.categories.Pairwise fun c d ↦ nocase c.name d.name = false) ∧
      out = withCategories s.categories 0 m := by
  rw [writeCategories, foldlM_writeCategory_iff (by rw [hm]; exact nofun) (by rw [hf]; exact nofun), hm]
  refine and_congr_left fun _ ↦ and_congr_right fun _ ↦ ?_
  exact ⟨fun h ↦ h.2, fun h ↦ ⟨nofun, h⟩⟩

end Categories

/-! ## Descriptions and field values -/

section Values

variable {μ : Type} {root : Node μ} {tags : List Bytes} {s : VaultSettings} {m out : Metadata}
  {x : TagFieldValue} {c f : ℕ}

/-- A registered tag has an identity. -/
theorem tagId_pos {t : Bytes} (h : t ∈ tagRefs root s) : 0 < tagId (registerTags root s) t := by
  obtain ⟨u, hu, htu⟩ := exists_mem_registerTags h
  have hsome : ((registerTags root s).findIdx? (tagCiEqual · t)).isSome = true := by
    rw [List.findIdx?_isSome, List.any_eq_true]
    exact ⟨u, hu, tagCiEqual_iff.mpr htu.symm⟩
  obtain ⟨i, hi⟩ := Option.isSome_iff_exists.mp hsome
  rw [tagId, hi]
  exact Nat.succ_pos i

theorem forall_mem_zipIdx_iff {α : Type} {P : α → Prop} {xs : List α} :
    (∀ p ∈ xs.zipIdx, P p.1) ↔ ∀ a ∈ xs, P a := by
  conv_rhs => rw [← List.zipIdx_map_fst 0 xs, List.forall_mem_map]

theorem writeDescription_eq_ok_iff {d : TagDescription} {i : ℕ} :
    writeDescription tags m (d, i) = .ok out ↔ 0 < tagId tags d.tag ∧ within 1 512 d.text = true ∧
      out = { m with
        descriptions :=
          Table.upsert (·.tagId == ·.tagId) m.descriptions ⟨tagId tags d.tag, d.tag, i, d.text⟩ } := by
  rw [writeDescription, require_bind_eq_ok_iff]
  simp only [↓require_bind_eq_ok_iff, Bool.and_eq_true, decide_eq_true_iff, Bool.not_eq_true',
    List.isEmpty_eq_false_iff, within_iff, ← List.length_pos_iff, Nat.succ_le_iff]
  constructor
  · rintro ⟨⟨hid, hlong⟩, hpos, h⟩
    exact ⟨hid, ⟨hpos, hlong⟩, (Except.ok.inj h).symm⟩
  · rintro ⟨hid, ⟨hpos, hlong⟩, rfl⟩
    exact ⟨⟨hid, hlong⟩, hpos, rfl⟩

/-- Where a value belongs: in the first category with the name before its first colon. -/
theorem valuePlace_eq_some_iff : valuePlace s x = some (c, f) ↔
    ∃ name category, valueCategory x.tag = some name ∧
      s.categories.findIdx? (categoryNameEq ·.name name) = some c ∧
      s.categories[c]? = some category ∧
      category.fields.findIdx? (categoryNameEq · x.field) = some f := by
  simp [valuePlace, Option.bind_eq_some_iff]

theorem writeFieldValue_eq_ok_iff {i : ℕ} :
    writeFieldValue tags s m (x, i) = .ok out ↔ ∃ c f, valuePlace s x = some (c, f) ∧
      0 < tagId tags x.tag ∧ f ≤ 15 ∧ within 1 256 x.value = true ∧
      m.fieldValues.length < indexMaxTagFieldValues ∧
      out = { m with
        fieldValues := Table.upsert sameValueKey m.fieldValues
          ⟨tagId tags x.tag, c + 1, f, x.tag, x.field, i, x.value⟩ } := by
  rw [writeFieldValue]
  rcases hplace : valuePlace s x with _ | ⟨c, f⟩
  · simp
  · simp only [↓require_bind_eq_ok_iff, decide_eq_true_iff, Bool.and_eq_true, Bool.not_eq_true',
      List.isEmpty_eq_false_iff, within_iff, ← List.length_pos_iff, Nat.succ_le_iff,
      Option.some.injEq, Prod.mk.injEq]
    constructor
    · rintro ⟨⟨⟨hid, hf⟩, hlong⟩, hroom, hpos, h⟩
      exact ⟨c, f, ⟨rfl, rfl⟩, hid, hf, ⟨hpos, hlong⟩, hroom, (Except.ok.inj h).symm⟩
    · rintro ⟨_, _, ⟨rfl, rfl⟩, hid, hf, ⟨hpos, hlong⟩, hroom, rfl⟩
      exact ⟨⟨⟨hid, hf⟩, hlong⟩, hroom, hpos, rfl⟩

end Values

end V3

end SafeVault
