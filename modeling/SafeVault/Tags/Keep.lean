import SafeVault.Tags.Edit

/-!
# Edits keep the provenance invariant

One lemma for each edit of a node: if the node's tags were those of its provenance, they still are.
Adding bundle definitions at the end does not disturb nodes that know only the older ones, and a
change of spelling that neither merges nor splits tags commutes with the recomputation.
-/

namespace SafeVault

open KeyedUnion (union)

variable {bundles : List TagBundle} {node node' : NodeHeader}

/-! ## Distinct explicit tags -/

theorem tagKeys_append (xs ys : List Bytes) : tagKeys (xs ++ ys) = tagKeys xs ++ tagKeys ys :=
  List.map_append

theorem nodup_tagKeys_filter {tags : List Bytes} (h : (tagKeys tags).Nodup) (p : Bytes → Bool) :
    (tagKeys (tags.filter p)).Nodup :=
  h.sublist (List.filter_sublist.map _)

/-- A node recomputed from a filtered list of bundles and tags has no more tags than before. -/
theorem isSome_rebuildBundleTags_filter (h : node.TagsKept bundles)
    (hp : node.tagProvenance = true) (keep : Bytes → Bool) :
    (rebuildBundleTags bundles
      { node with explicitTags := node.explicitTags.filter keep }).isSome := by
  obtain ⟨members, hmem, hlen, htags⟩ := (rebuildBundleTags_eq_some_iff hp).mp h.rebuilt
  have hman := h.manual
  rw [if_pos hp] at hman
  have hnodup : (tagKeys (union tagCiEqual (node.explicitTags.filter keep) members)).Nodup :=
    KeyedUnion.nodup_union decides_tagCiEqual (nodup_tagKeys_filter hman keep)
  have hle : (union tagCiEqual (node.explicitTags.filter keep) members).length ≤
      (union tagCiEqual node.explicitTags members).length := by
    refine KeyedUnion.length_le_of_keys_subset hnodup fun k hk ↦ ?_
    rw [KeyedUnion.mem_keys_union decides_tagCiEqual] at hk ⊢
    exact hk.imp_left fun hk ↦ List.Sublist.subset (List.filter_sublist.map _) hk
  rw [Option.isSome_iff_exists]
  simp only [rebuildBundleTags_eq_some_iff (show ({ node with
    explicitTags := node.explicitTags.filter keep } : NodeHeader).tagProvenance = true from hp)]
  exact ⟨_, members, hmem, hle.trans hlen, rfl⟩

/-! ## Assigning and removing -/

theorem tagsKept_setNodeTags {input : List Bytes}
    (h : setNodeTags bundles (normaliseTags input) node = .ok (some node')) :
    node'.TagsKept bundles := by
  rw [setNodeTags] at h
  split_ifs at h
  · cases h
  · split at h
    · next r hr =>
      cases h
      exact tagsKept_of_rebuild hr rfl (nodup_normaliseTags input)
    · cases h

theorem tagsKept_applyTag {tag : Bytes} {remove : Bool} (hk : node.TagsKept bundles)
    (h : applyTag bundles tag remove node = .ok (some node')) : node'.TagsKept bundles := by
  obtain ⟨hp, hnodup, -, hman⟩ := nodup_initializeTagProvenance hk
  rw [applyTag] at h
  by_cases hany : ((manualTags node).any (tagCiEqual · tag) != remove) = true
  · rw [if_pos hany] at h
    cases h
  rw [if_neg hany] at h
  dsimp only at h
  split at h
  · next r hr =>
    cases h
    refine tagsKept_of_rebuild hr hp ?_
    dsimp only
    split_ifs with hremove
    · exact nodup_tagKeys_filter hnodup _
    · have hfresh : ((manualTags node).any (tagCiEqual · tag)) = false := by
        simpa [hremove] using hany
      have hinsert : (initializeTagProvenance node).explicitTags ++ [tag] =
          KeyedUnion.insert tagCiEqual (initializeTagProvenance node).explicitTags tag := by
        rw [KeyedUnion.insert, hman, hfresh]
        rfl
      rw [hinsert]
      exact KeyedUnion.nodup_insert decides_tagCiEqual hnodup
  · cases h

theorem tagsKept_applyBundle {id : NodeId} {remove : Bool} (hk : node.TagsKept bundles)
    (h : applyBundle bundles id remove node = .ok (some node')) : node'.TagsKept bundles := by
  obtain ⟨hp, hnodup, -, -⟩ := nodup_initializeTagProvenance hk
  rw [applyBundle] at h
  by_cases happlied : (node.tagBundles.contains id != remove) = true
  · rw [if_pos happlied] at h
    cases h
  rw [if_neg happlied] at h
  dsimp only at h
  split at h
  · next r hr =>
    cases h
    exact tagsKept_of_rebuild hr hp hnodup
  · cases h

theorem tagsKept_pruneNode (hk : node.TagsKept bundles) (keep : Bytes → Bool) :
    (pruneNode bundles keep node).TagsKept bundles := by
  obtain ⟨hp, hnodup, -, -⟩ := nodup_initializeTagProvenance hk
  have hsome := isSome_rebuildBundleTags_filter (tagsKept_initializeTagProvenance hk) hp keep
  obtain ⟨node', hnode'⟩ := Option.isSome_iff_exists.mp hsome
  rw [pruneNode, hnode', Option.getD_some]
  exact tagsKept_of_rebuild hnode' hp (nodup_tagKeys_filter hnodup keep)

/-- Whatever the bundles have become, a node that could be recomputed satisfies the invariant. -/
theorem tagsKept_refreshNode {bundles' : List TagBundle} {removed : Option NodeId}
    (hk : node.TagsKept bundles) (h : refreshNode bundles' removed node = some node') :
    node'.TagsKept bundles' := by
  have hman := hk.manual
  cases hp : node.tagProvenance with
  | true =>
    rw [if_pos hp] at hman
    rw [refreshNode] at h
    exact tagsKept_of_rebuild h hp hman
  | false =>
    rw [hp] at hman
    rw [refreshNode, rebuildBundleTags_of_not (by exact hp), Option.some_inj] at h
    rw [← h]
    refine tagsKept_of_not hp ?_ hman hk.count
    rw [hk.bare hp]
    rfl

/-! ## More bundles -/

theorem findBundle_append {id : NodeId} {b : TagBundle} (h : findBundle bundles id = some b)
    (extra : List TagBundle) : findBundle (bundles ++ extra) id = some b := by
  rw [findBundle, List.find?_append] at *
  rw [h]
  rfl

theorem bundleMembers_append {ids : List NodeId} {members : List Bytes}
    (h : bundleMembers bundles ids = some members) (extra : List TagBundle) :
    bundleMembers (bundles ++ extra) ids = some members := by
  induction ids generalizing members with
  | nil => exact h
  | cons id ids ih =>
    obtain ⟨b, hb, rest, hrest, rfl⟩ : ∃ b, findBundle bundles id = some b ∧
        ∃ rest, bundleMembers bundles ids = some rest ∧ b.tags ++ rest = members := by
      simpa [bundleMembers, Option.bind_eq_some_iff] using h
    rw [bundleMembers, findBundle_append hb, ih hrest]
    rfl

/-- Definitions added at the end leave every node as it is. -/
theorem NodeHeader.TagsKept.append (h : node.TagsKept bundles) (extra : List TagBundle) :
    node.TagsKept (bundles ++ extra) := by
  refine ⟨?_, h.manual, h.count, h.bare⟩
  cases hp : node.tagProvenance with
  | false => exact rebuildBundleTags_of_not hp
  | true =>
    obtain ⟨members, hmem, hlen, htags⟩ := (rebuildBundleTags_eq_some_iff hp).mp h.rebuilt
    exact (rebuildBundleTags_eq_some_iff hp).mpr
      ⟨members, bundleMembers_append hmem extra, hlen, htags⟩

/-! ## Copying -/

theorem importBundleDefinition_append {random : ℕ → Option NodeId} {definition : TagBundle}
    {bundles' : List TagBundle} {id : NodeId}
    (h : importBundleDefinition bundles random definition = .ok (bundles', id)) :
    ∃ extra, bundles' = bundles ++ extra := by
  rw [importBundleDefinition] at h
  dsimp only at h
  split at h
  · cases h
    exact ⟨[], (List.append_nil _).symm⟩
  · split_ifs at h
    · split at h
      · cases h
        exact ⟨_, rfl⟩
      · cases h
    · cases h
      exact ⟨_, rfl⟩

theorem importBundles_append {random : ℕ → Option NodeId} {sourceBundles bundles' : List TagBundle}
    {ids applied applied' : List NodeId}
    (h : importBundles random sourceBundles ids bundles applied = .ok (bundles', applied')) :
    ∃ extra, bundles' = bundles ++ extra := by
  induction ids generalizing bundles applied with
  | nil =>
    cases h
    exact ⟨[], (List.append_nil _).symm⟩
  | cons id ids ih =>
    rw [importBundles] at h
    split at h
    · cases h
    · split at h
      · cases h
      · next hdef =>
        obtain ⟨extra, rfl⟩ := importBundleDefinition_append hdef
        obtain ⟨extra', rfl⟩ := ih h
        exact ⟨extra ++ extra', List.append_assoc _ _ _⟩

/-- A copy only adds definitions. -/
theorem copyTagProvenance_append {access : VaultResult} {random : ℕ → Option NodeId}
    {source destination : NodeHeader} {sourceBundles bundles' : List TagBundle}
    (h : copyTagProvenance bundles access random source sourceBundles destination =
      .ok (node', bundles')) : ∃ extra, bundles' = bundles ++ extra := by
  rw [copyTagProvenance] at h
  split_ifs at h
  · cases h
    exact ⟨[], (List.append_nil _).symm⟩
  · dsimp only at h
    split at h
    · cases h
    · next himport =>
      split at h
      · cases h
        exact importBundles_append himport
      · cases h

/-- The copy has provenance, and satisfies the invariant if the destination did. -/
theorem tagsKept_copyTagProvenance {access : VaultResult} {random : ℕ → Option NodeId}
    {source destination : NodeHeader} {sourceBundles bundles' : List TagBundle}
    (hk : destination.TagsKept bundles)
    (h : copyTagProvenance bundles access random source sourceBundles destination =
      .ok (node', bundles')) : node'.tagProvenance = true ∧ node'.TagsKept bundles' := by
  obtain ⟨hp, hnodup, -, -⟩ := nodup_initializeTagProvenance hk
  rw [copyTagProvenance] at h
  split_ifs at h
  · cases h
    exact ⟨hp, tagsKept_initializeTagProvenance hk⟩
  · dsimp only at h
    split at h
    · cases h
    · split at h
      · next hrebuild =>
        cases h
        have hp' := (rebuildBundleTags_eq_some_iff (by exact hp)).mp hrebuild
        obtain ⟨members, -, -, rfl⟩ := hp'
        exact ⟨hp, tagsKept_of_rebuild hrebuild hp (nodup_tagKeys_filter hnodup _)⟩
      · cases h

theorem nodup_ownTags (hk : node.TagsKept bundles) : (tagKeys (ownTags node)).Nodup := hk.manual

/-- The tags are the union of the explicit tags and the members of the bundles. -/
theorem NodeHeader.TagsKept.exists_members (hk : node.TagsKept bundles) :
    ∃ members, bundleMembers bundles node.tagBundles = some members ∧
      ∀ key, key ∈ tagKeys node.tags ↔ key ∈ tagKeys (ownTags node) ∨ key ∈ tagKeys members := by
  rw [ownTags]
  by_cases hp : node.tagProvenance = true
  · rw [if_pos hp]
    obtain ⟨members, hmem, -, htags⟩ := (rebuildBundleTags_eq_some_iff hp).mp hk.rebuilt
    refine ⟨members, hmem, fun key ↦ ?_⟩
    rw [congrArg NodeHeader.tags htags]
    exact KeyedUnion.mem_keys_union decides_tagCiEqual
  · rw [if_neg hp]
    refine ⟨[], ?_, fun key ↦ ?_⟩
    · rw [hk.bare (Bool.not_eq_true _ ▸ hp), bundleMembers]
    · exact ⟨Or.inl, fun h ↦ h.resolve_right List.not_mem_nil⟩

theorem nodup_mergedTags {source target : NodeHeader} (hk : target.TagsKept bundles)
    (inherited : List Bytes) : (tagKeys (mergedTags source target inherited)).Nodup :=
  KeyedUnion.nodup_union decides_tagCiEqual
    (KeyedUnion.nodup_union decides_tagCiEqual (nodup_ownTags hk))

/-- A merge adds definitions and leaves a node that satisfies the invariant. -/
theorem tagsKept_mergeNodeProvenance {random : ℕ → Option NodeId} {source target : NodeHeader}
    {sourceBundles bundles' : List TagBundle} {inherited : List Bytes}
    (hk : target.TagsKept bundles)
    (h : mergeNodeProvenance bundles random source sourceBundles target inherited =
      .ok (node', bundles')) :
    (∃ extra, bundles' = bundles ++ extra) ∧ node'.TagsKept bundles' := by
  rw [mergeNodeProvenance] at h
  split at h
  · cases h
  · next hcopy =>
    split at h
    · next hrebuild =>
      cases h
      exact ⟨copyTagProvenance_append hcopy,
        tagsKept_of_rebuild hrebuild rfl (nodup_mergedTags hk inherited)⟩
    · cases h

theorem tagsKept_addInherited {inherited : List Bytes} (hk : node.TagsKept bundles)
    (hp : node.tagProvenance = true) (h : addInherited bundles inherited node = some node') :
    node'.TagsKept bundles := by
  have hman := hk.manual
  rw [if_pos hp] at hman
  rw [addInherited] at h
  exact tagsKept_of_rebuild h hp (KeyedUnion.nodup_union decides_tagCiEqual hman)

/-! ## Renaming -/

theorem findBundle_rename (f : Bytes → Bytes) (id : NodeId) :
    findBundle (bundles.map (TagBundle.rename f)) id =
      (findBundle bundles id).map (TagBundle.rename f) := by
  rw [findBundle, List.find?_map, findBundle]
  rfl

theorem bundleMembers_rename (f : Bytes → Bytes) (ids : List NodeId) :
    bundleMembers (bundles.map (TagBundle.rename f)) ids =
      (bundleMembers bundles ids).map (List.map f) := by
  induction ids with
  | nil => rfl
  | cons id ids ih =>
    rw [bundleMembers, bundleMembers, findBundle_rename, ih]
    cases findBundle bundles id with
    | none => rfl
    | some b =>
      cases bundleMembers bundles ids with
      | none => rfl
      | some rest => simp [TagBundle.rename]

theorem mem_bundleMembers {ids : List NodeId} {members : List Bytes} {t : Bytes}
    (h : bundleMembers bundles ids = some members) (ht : t ∈ members) :
    ∃ b ∈ bundles, t ∈ b.tags := by
  induction ids generalizing members with
  | nil =>
    cases h
    exact absurd ht List.not_mem_nil
  | cons id ids ih =>
    obtain ⟨b, hb, rest, hrest, rfl⟩ : ∃ b, findBundle bundles id = some b ∧
        ∃ rest, bundleMembers bundles ids = some rest ∧ b.tags ++ rest = members := by
      simpa [bundleMembers, Option.bind_eq_some_iff] using h
    rcases List.mem_append.mp ht with ht | ht
    · exact ⟨b, List.mem_of_find?_eq_some hb, ht⟩
    · exact ih hrest ht

theorem nodup_tagKeys_map {P : Bytes → Prop} {f : Bytes → Bytes} {tags : List Bytes}
    (hf : KeyedUnion.Respects tagCiEqual P f) (hP : ∀ t ∈ tags, P t) (h : (tagKeys tags).Nodup) :
    (tagKeys (tags.map f)).Nodup :=
  KeyedUnion.nodup_map decides_tagCiEqual hf hP h

/-- A change of spelling that respects the tags of a node and the members of the bundles. -/
theorem NodeHeader.TagsKept.rename {P : Bytes → Prop} {f : Bytes → Bytes}
    (h : node.TagsKept bundles) (hf : KeyedUnion.Respects tagCiEqual P f)
    (htags : ∀ t ∈ node.tags, P t) (hexplicit : ∀ t ∈ node.explicitTags, P t)
    (hmembers : ∀ b ∈ bundles, ∀ t ∈ b.tags, P t) :
    (renameNodeTags f node).TagsKept (bundles.map (TagBundle.rename f)) := by
  have hman := h.manual
  cases hp : node.tagProvenance with
  | false =>
    rw [hp] at hman
    refine tagsKept_of_not hp (h.bare hp) (nodup_tagKeys_map hf htags hman) ?_
    rw [renameNodeTags, List.length_map]
    exact h.count
  | true =>
    rw [if_pos hp] at hman
    obtain ⟨members, hmem, hlen, htags'⟩ := (rebuildBundleTags_eq_some_iff hp).mp h.rebuilt
    have hunion := KeyedUnion.union_map hf hexplicit
      fun t ht ↦ let ⟨b, hb, htb⟩ := mem_bundleMembers hmem ht; hmembers b hb t htb
    have hrebuild : rebuildBundleTags (bundles.map (TagBundle.rename f)) (renameNodeTags f node) =
        some (renameNodeTags f node) := by
      refine (rebuildBundleTags_eq_some_iff (by exact hp)).mpr ⟨members.map f, ?_, ?_, ?_⟩
      · rw [bundleMembers_rename]
        exact congrArg _ hmem
      · change (union tagCiEqual (node.explicitTags.map f) (members.map f)).length ≤ _
        rw [hunion, List.length_map]
        exact hlen
      · have hnode : node.tags.map f = union tagCiEqual (node.explicitTags.map f) (members.map f) :=
          (congrArg (fun n ↦ n.tags.map f) htags').trans hunion.symm
        exact congrArg (fun tags ↦ { renameNodeTags f node with tags }) hnode
    exact tagsKept_of_rebuild hrebuild hp (nodup_tagKeys_map hf hexplicit hman)

end SafeVault
