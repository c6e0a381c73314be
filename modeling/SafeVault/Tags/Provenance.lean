import SafeVault.Index.Node
import SafeVault.Lib.KeyedUnion

/-!
# The provenance of a node's tags

A node's tags come from two sources: some were assigned to it, others are members of a bundle that
was applied to it. The node keeps all three lists, the tags, the explicit ones and the identities of
the bundles, and `rebuildBundleTags` recomputes the first from the other two. A node that was never
touched has no provenance; all its tags count as explicit.

## The invariant

`TagsKept` says that recomputing would change nothing. Stated so, it is immediate for every operation
that ends with a successful recomputation, because the recomputation does not look at the tags it
replaces. That the tags are the union of explicit tags and members, each once, is read off from it.
-/

namespace SafeVault

open KeyedUnion (union)

theorem decides_tagCiEqual : KeyedUnion.Decides tagCiEqual AsciiFold.fold :=
  fun _ _ ↦ AsciiFold.equal_iff

/-- The tags up to case, as folded strings. -/
def tagKeys (tags : List Bytes) : List Bytes := tags.map AsciiFold.fold

/-! ## Recomputing the tags -/

/-- The first bundle with an identity. -/
def findBundle (bundles : List TagBundle) (id : NodeId) : Option TagBundle :=
  bundles.find? fun b ↦ b.id == id

/-- The members of all the bundles named, or nothing if one is unknown. -/
def bundleMembers (bundles : List TagBundle) : List NodeId → Option (List Bytes)
  | [] => some []
  | id :: ids => do
    let b ← findBundle bundles id
    let rest ← bundleMembers bundles ids
    some (b.tags ++ rest)

/-- The loop of `rebuild_bundle_tags` over the bundles of the node. -/
def addBundles (bundles : List TagBundle) : List NodeId → List Bytes → Option (List Bytes)
  | [], tags => some tags
  | id :: ids, tags => do
    let b ← findBundle bundles id
    addBundles bundles ids (union tagCiEqual tags b.tags)

/-- Recompute the tags of a node with provenance. Fails when a bundle is unknown or there would be
too many tags. -/
def rebuildBundleTags (bundles : List TagBundle) (node : NodeHeader) : Option NodeHeader :=
  if node.tagProvenance then do
    let tags ← addBundles bundles node.tagBundles node.explicitTags
    if indexMaxTags < tags.length then none else some { node with tags }
  else some node

/-- Give a node provenance; without bundles all its tags become explicit. -/
def initializeTagProvenance (node : NodeHeader) : NodeHeader :=
  if node.tagProvenance && !node.tagBundles.isEmpty then node
  else { node with explicitTags := node.tags, tagProvenance := true }

/-- The tags that count as assigned: what the editing operations compare with. -/
def manualTags (node : NodeHeader) : List Bytes :=
  if node.tagProvenance && !node.tagBundles.isEmpty then node.explicitTags else node.tags

theorem addBundles_eq (bundles : List TagBundle) (ids : List NodeId) (tags : List Bytes) :
    addBundles bundles ids tags =
      (bundleMembers bundles ids).map fun members ↦ union tagCiEqual tags members := by
  induction ids generalizing tags with
  | nil => rfl
  | cons id ids ih =>
    rw [addBundles, bundleMembers]
    cases findBundle bundles id with
    | none => rfl
    | some b =>
      change addBundles bundles ids (union tagCiEqual tags b.tags) = _
      rw [ih]
      cases bundleMembers bundles ids with
      | none => rfl
      | some rest => simp [KeyedUnion.union_append]

/-- What a successful recomputation of a node with provenance means. -/
theorem rebuildBundleTags_eq_some_iff {bundles : List TagBundle} {node node' : NodeHeader}
    (hp : node.tagProvenance = true) :
    rebuildBundleTags bundles node = some node' ↔
      ∃ members, bundleMembers bundles node.tagBundles = some members ∧
        (union tagCiEqual node.explicitTags members).length ≤ indexMaxTags ∧
        node' = { node with tags := union tagCiEqual node.explicitTags members } := by
  rw [rebuildBundleTags, if_pos hp, addBundles_eq]
  cases bundleMembers bundles node.tagBundles with
  | none => simp
  | some members =>
    change (if indexMaxTags < (union tagCiEqual node.explicitTags members).length then none
      else some { node with tags := union tagCiEqual node.explicitTags members }) = some node' ↔ _
    constructor
    · intro h
      split_ifs at h with hlen
      exact ⟨members, rfl, not_lt.mp hlen, (Option.some_inj.mp h).symm⟩
    · rintro ⟨members', hmem, hlen, rfl⟩
      rw [Option.some_inj] at hmem
      rw [hmem, if_neg (not_lt.mpr hlen)]

theorem rebuildBundleTags_of_not {bundles : List TagBundle} {node : NodeHeader}
    (hp : node.tagProvenance = false) : rebuildBundleTags bundles node = some node := by
  rw [rebuildBundleTags, hp]
  rfl

/-- Without bundles the recomputation yields the explicit tags. -/
theorem rebuildBundleTags_of_bare {bundles : List TagBundle} {node : NodeHeader}
    (hb : node.tagBundles = []) (htags : node.tags = node.explicitTags)
    (hlen : node.tags.length ≤ indexMaxTags) : rebuildBundleTags bundles node = some node := by
  by_cases hp : node.tagProvenance = true
  · rw [rebuildBundleTags_eq_some_iff hp]
    rw [htags] at hlen
    refine ⟨[], by rw [hb, bundleMembers], hlen, ?_⟩
    rw [KeyedUnion.union_nil]
    exact congrArg (fun tags ↦ { node with tags }) htags
  · exact rebuildBundleTags_of_not (Bool.not_eq_true _ ▸ hp)

/-! ## The invariant -/

/-- The tags of a node are those its provenance yields. -/
structure NodeHeader.TagsKept (bundles : List TagBundle) (node : NodeHeader) : Prop where
  /-- Recomputing the tags changes nothing. -/
  rebuilt : rebuildBundleTags bundles node = some node
  /-- No explicit tag occurs twice, up to case; without provenance all tags are explicit. -/
  manual : (tagKeys (if node.tagProvenance then node.explicitTags else node.tags)).Nodup
  count : node.tags.length ≤ indexMaxTags
  /-- Only a node with provenance has bundles. -/
  bare : node.tagProvenance = false → node.tagBundles = []

namespace NodeHeader.TagsKept

variable {bundles : List TagBundle} {node : NodeHeader}

theorem nodup (h : node.TagsKept bundles) : (tagKeys node.tags).Nodup := by
  have hm := h.manual
  cases hp : node.tagProvenance with
  | false => rwa [hp] at hm
  | true =>
    rw [hp] at hm
    obtain ⟨members, -, -, htags⟩ := (rebuildBundleTags_eq_some_iff hp).mp h.rebuilt
    rw [congrArg NodeHeader.tags htags]
    exact KeyedUnion.nodup_union decides_tagCiEqual hm

/-- The manual tags hold each key once. -/
theorem nodup_manualTags (h : node.TagsKept bundles) : (tagKeys (manualTags node)).Nodup := by
  rw [manualTags]
  split_ifs with hp
  · have hm := h.manual
    rwa [if_pos (Bool.and_eq_true _ _ ▸ hp).1] at hm
  · exact h.nodup

/-- Without bundles the tags are exactly the explicit ones. -/
theorem explicitTags_eq (h : node.TagsKept bundles) (hp : node.tagProvenance = true)
    (hb : node.tagBundles = []) : node.tags = node.explicitTags := by
  obtain ⟨members, hmem, -, htags⟩ := (rebuildBundleTags_eq_some_iff hp).mp h.rebuilt
  rw [hb, bundleMembers, Option.some_inj] at hmem
  rw [congrArg NodeHeader.tags htags, ← hmem, KeyedUnion.union_nil]

end NodeHeader.TagsKept

/-- A node recomputed from distinct explicit tags satisfies the invariant. -/
theorem tagsKept_of_rebuild {bundles : List TagBundle} {node node' : NodeHeader}
    (h : rebuildBundleTags bundles node = some node') (hp : node.tagProvenance = true)
    (hm : (tagKeys node.explicitTags).Nodup) : node'.TagsKept bundles := by
  obtain ⟨members, hmem, hlen, rfl⟩ := (rebuildBundleTags_eq_some_iff hp).mp h
  refine ⟨(rebuildBundleTags_eq_some_iff (by exact hp)).mpr ⟨members, hmem, hlen, rfl⟩, ?_, hlen,
    ?_⟩
  · rwa [if_pos hp]
  · exact fun hp' ↦ absurd hp (by simpa using hp')

/-- A node without provenance, bundles or repeated tags satisfies the invariant. -/
theorem tagsKept_of_not {bundles : List TagBundle} {node : NodeHeader}
    (hp : node.tagProvenance = false) (hb : node.tagBundles = [])
    (hm : (tagKeys node.tags).Nodup) (hlen : node.tags.length ≤ indexMaxTags) :
    node.TagsKept bundles :=
  ⟨rebuildBundleTags_of_not hp, by rwa [hp], hlen, fun _ ↦ hb⟩

/-- Giving a node provenance keeps its explicit tags distinct. -/
theorem nodup_initializeTagProvenance {bundles : List TagBundle} {node : NodeHeader}
    (h : node.TagsKept bundles) :
    (initializeTagProvenance node).tagProvenance = true ∧
      (tagKeys (initializeTagProvenance node).explicitTags).Nodup ∧
      (initializeTagProvenance node).tagBundles = node.tagBundles ∧
      (initializeTagProvenance node).explicitTags = manualTags node := by
  have hman := h.nodup_manualTags
  rw [manualTags] at hman ⊢
  rw [initializeTagProvenance]
  split_ifs at hman ⊢ with hp
  · exact ⟨(Bool.and_eq_true _ _ ▸ hp).1, hman, rfl, rfl⟩
  · exact ⟨rfl, hman, rfl, rfl⟩

theorem tagsKept_initializeTagProvenance {bundles : List TagBundle} {node : NodeHeader}
    (h : node.TagsKept bundles) : (initializeTagProvenance node).TagsKept bundles := by
  obtain ⟨hp', hnodup, -, -⟩ := nodup_initializeTagProvenance h
  refine tagsKept_of_rebuild ?_ hp' hnodup
  rw [initializeTagProvenance]
  split_ifs with hp
  · exact h.rebuilt
  · have hb : node.tagBundles = [] := by
      rw [Bool.and_eq_true, not_and] at hp
      cases hprov : node.tagProvenance with
      | false => exact h.bare hprov
      | true => simpa using hp hprov
    exact rebuildBundleTags_of_bare hb rfl h.count

end SafeVault
