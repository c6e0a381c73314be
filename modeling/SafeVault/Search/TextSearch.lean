import SafeVault.Search.Results

/-!
# The plain search

A query is looked for in the name of a node and in the tags it is matched by: its own, those of the
galleries above it, for a gallery those of everything below, and the virtual tags of all of these. A hit
shows the first two kinds only.
-/

namespace SafeVault

namespace Search

open AsciiFold (fold)
open LeafTree (Place placesAll labelsAbove)

variable {μ : Type} {query name : Bytes} {scope : SearchScope} {settings : VaultSettings} {tags : List Bytes}

/-- The text is in the name or in a tag; `ci_contains` is the test that the advanced search makes. -/
def nodeMatches (name query : Bytes) (effective : List Bytes) : Bool :=
  containsCi name query || effective.any (containsCi · query)

/-- The body of the loop of `search_dfs`. -/
def textHitAt (query : Bytes) (scope : SearchScope) (fmap : FieldTagMap) : Visit μ SearchHit :=
  fun child fullPath node effective childSubtree ↦
    let matchTags := if child.isGallery then computeEffectiveTags childSubtree effective else effective
    if inScope child.isGallery scope &&
        nodeMatches child.label.name query (if fmap.isEmpty then matchTags else fmap.expand matchTags) then
      some ⟨fullPath, child.isGallery, child.label.name, effective, node⟩
    else none

/-- `search_dfs` -/
def searchDfs (query : Bytes) (scope : SearchScope) (fmap : FieldTagMap) :
    Bytes → List ℕ → List Bytes → Node μ → List SearchHit × List Bytes :=
  cascade (textHitAt query scope fmap)

/-! ## What it finds -/

theorem nodeMatches_congr {other : List Bytes} (h : ∀ tag, Spelled tags tag ↔ Spelled other tag) :
    nodeMatches name query tags = nodeMatches name query other := by
  have hany (xs : List Bytes) : xs.any (containsCi · query) = true ↔
      ∃ k ∈ xs.map fold, fold query <:+: k := by
    simp only [List.any_eq_true, containsCi_iff, List.mem_map, exists_exists_and_eq_and]
  have hkeys : ∀ k, k ∈ tags.map fold ↔ k ∈ other.map fold := by
    intro k
    constructor
    · intro hk
      obtain ⟨t, ht, rfl⟩ := List.mem_map.mp hk
      exact (h t).mp (List.mem_map_of_mem ht)
    · intro hk
      obtain ⟨t, ht, rfl⟩ := List.mem_map.mp hk
      exact (h t).mpr (List.mem_map_of_mem ht)
  rw [nodeMatches, nodeMatches]
  refine congrArg _ (Bool.eq_iff_iff.mpr ?_)
  rw [hany, hany]
  exact exists_congr fun k ↦ and_congr_left fun _ ↦ hkeys k

/-- A text is found in the tags that are spelled, and in their virtual tags. -/
theorem nodeMatches_expand_congr {other : List Bytes} (h : ∀ tag, Spelled tags tag ↔ Spelled other tag) :
    nodeMatches name query (FieldTagMap.expand (.build settings) tags) =
      nodeMatches name query (FieldTagMap.expand (.build settings) other) := by
  refine nodeMatches_congr fun tag ↦ ?_
  simp only [spelled_expand, h]

theorem congr_textHitAt : Visit.Congr (textHitAt (μ := μ) query scope (.build settings)) := by
  intro t path position effective subtree subtree' hsame
  rw [textHitAt, textHitAt, expand_of_isEmpty, expand_of_isEmpty]
  rw [nodeMatches_expand_congr fun tag ↦ spelled_matched_congr hsame]

variable {root u : Node μ} {p : List ℕ}

theorem at_textHitAt (x : Place NodeHeader μ) : Visit.at (textHitAt query scope (.build settings)) x =
    if inScope x.node.isGallery scope &&
        nodeMatches x.node.label.name query (FieldTagMap.expand (.build settings) (lineTags x)) then
      some ⟨joinChildPath (galleryPath x.above) x.node.label.name, x.node.isGallery, x.node.label.name,
        computeEffectiveTags x.node.label.tags (inheritedTags x.above), x.position⟩
    else none := by
  rw [Visit.at, textHitAt, expand_of_isEmpty]
  have hline (tag : Bytes) : Spelled (if x.node.isGallery then
      computeEffectiveTags ((x.node.children.flatMap LeafTree.labels).flatMap (·.tags))
        (computeEffectiveTags x.node.label.tags (inheritedTags x.above))
      else computeEffectiveTags x.node.label.tags (inheritedTags x.above)) tag ↔
      Spelled (lineTags x) tag := spelled_line fun _ ↦ Iff.rfl
  rw [nodeMatches_expand_congr hline]

end Search

open Search in
/-- `Vault::search` -/
def Vault.search {μ : Type} (query : Bytes) (scope : SearchScope) (v : Vault μ) : List SearchHit :=
  if !v.unlocked then []
  else (searchDfs query scope (.build v.settings) [] [] v.root.label.tags v.root).1

namespace Search

variable {μ : Type} {query : Bytes} {scope : SearchScope} {v : Vault μ} {hit : SearchHit}

/-- **The hits** are the nodes below the root in scope that match. -/
theorem mem_search (hopen : v.unlocked = true) : hit ∈ v.search query scope ↔
    ∃ p u, p ≠ [] ∧ v.root.get? p = some u ∧ inScope u.isGallery scope = true ∧
      nodeMatches u.label.name query (FieldTagMap.expand (.build v.settings)
        (lineTags ⟨p, LeafTree.labelsAbove v.root p, u⟩)) = true ∧
      hit = ⟨pathAt v.root p u, u.isGallery, u.label.name,
        computeEffectiveTags u.label.tags (inheritedTags (LeafTree.labelsAbove v.root p)), p⟩ := by
  rw [Vault.search, if_neg (by rw [hopen]; exact Bool.false_ne_true), searchDfs,
    cascade_root congr_textHitAt, List.mem_filterMap]
  constructor
  · rintro ⟨x, hx, hhit⟩
    obtain ⟨p, u, hne, hget, rfl⟩ := mem_placesBelow.mp hx
    rw [at_textHitAt] at hhit
    split_ifs at hhit with hmatch
    obtain ⟨hscope, hmatch⟩ := Bool.and_eq_true_iff.mp hmatch
    exact ⟨p, u, hne, hget, hscope, hmatch, (Option.some.inj hhit).symm⟩
  · rintro ⟨p, u, hne, hget, hscope, hmatch, rfl⟩
    refine ⟨_, mem_placesBelow.mpr ⟨p, u, hne, hget, rfl⟩, ?_⟩
    rw [at_textHitAt, if_pos (Bool.and_eq_true_iff.mpr ⟨hscope, hmatch⟩)]
    rfl

end Search

end SafeVault
