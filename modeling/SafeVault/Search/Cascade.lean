import SafeVault.Search.Evaluate

/-!
# The cascade of a search

Both searches walk the tree in one way: the tags above a node are carried down to it and the tags below a
gallery are carried up, and then the node is visited with both. The walk visits the places of the tree below
its root, and what it has at a place spells the tags of the nodes on the line through it, from the root down
to everything below. So the hits are a function of the places, for every visit to which only the spelled tags
matter.
-/

namespace SafeVault

namespace Search

open AsciiFold (fold)
open LeafTree (Place places placesAll)

variable {α μ : Type} {tags inherited : List Bytes} {tag : Bytes}

/-! ## The walk -/

/-- What a search does at a child: with its path, its position, its effective tags and the tags gathered
below it. -/
abbrev Visit (μ α : Type) := Node μ → Bytes → List ℕ → List Bytes → List Bytes → Option α

mutual

/-- The walk on a node at a path and position, with the tags its children inherit. -/
def cascade (visit : Visit μ α) (path : Bytes) (position : List ℕ) (inherited : List Bytes) :
    Node μ → List α × List Bytes
  | .branch _ cs => cascadeChildren visit path position inherited 0 [] cs
  | .leaf _ _ => ([], [])

/-- The loop over the children, from the `i`-th on, with the tags gathered so far. -/
def cascadeChildren (visit : Visit μ α) (path : Bytes) (position : List ℕ) (inherited : List Bytes) :
    ℕ → List Bytes → List (Node μ) → List α × List Bytes
  | _, subtree, [] => ([], subtree)
  | i, subtree, child :: rest =>
    let effective := computeEffectiveTags child.label.tags inherited
    let fullPath := joinChildPath path child.label.name
    let below := cascade visit fullPath (position ++ [i]) effective child
    let hit := visit child fullPath (position ++ [i]) effective below.2
    let after := cascadeChildren visit path position inherited (i + 1)
      (accumulateSubtreeUnion subtree child below.2) rest
    (below.1 ++ hit.toList ++ after.1, after.2)

end

/-! ## Lists of tags -/

theorem spelled_append {other : List Bytes} :
    Spelled (tags ++ other) tag ↔ Spelled tags tag ∨ Spelled other tag := by
  rw [Spelled, List.map_append, List.mem_append, Spelled, Spelled]

theorem spelled_computeEffectiveTags :
    Spelled (computeEffectiveTags tags inherited) tag ↔ Spelled tags tag ∨ Spelled inherited tag := by
  rw [computeEffectiveTags, spelled_append]
  constructor
  · rintro (h | h)
    · exact .inl h
    · obtain ⟨t, ht, hkey⟩ := List.mem_map.mp h
      exact .inr (List.mem_map.mpr ⟨t, (List.mem_filter.mp ht).1, hkey⟩)
  · rintro (h | h)
    · exact .inl h
    · by_cases hown : Spelled tags tag
      · exact .inl hown
      · obtain ⟨t, ht, hkey⟩ := List.mem_map.mp h
        refine .inr (List.mem_map.mpr ⟨t, List.mem_filter.mpr ⟨ht, ?_⟩, hkey⟩)
        rw [Bool.not_eq_true', List.any_eq_false]
        intro s hs hsame
        exact hown (List.mem_map.mpr ⟨s, hs, ((decides_tagCiEqual s t).mp hsame).trans hkey⟩)

theorem spelled_accumulate {subtree childSubtree : List Bytes} {child : Node μ} :
    Spelled (accumulateSubtreeUnion subtree child childSubtree) tag ↔ Spelled subtree tag ∨
      Spelled child.label.tags tag ∨ (child.isGallery = true ∧ Spelled childSubtree tag) := by
  rw [accumulateSubtreeUnion, Spelled, KeyedUnion.mem_keys_union decides_tagCiEqual]
  refine or_congr_right ?_
  split_ifs with h
  · change Spelled _ _ ↔ _
    rw [spelled_computeEffectiveTags, or_comm, and_iff_right h]
  · exact (or_iff_left fun h' ↦ h h'.1).symm

/-! ## What is carried to a place -/

/-- What the children of a node with these labels inherit. -/
def inheritedTags (above : List NodeHeader) : List Bytes :=
  above.foldl (fun inherited h ↦ computeEffectiveTags h.tags inherited) []

/-- The path of the gallery with these labels above and at it, the root's first. -/
def galleryPath (above : List NodeHeader) : Bytes :=
  (above.drop 1).foldl (fun path h ↦ joinChildPath path h.name) []

/-- The tags of the nodes on the line through a place. -/
def lineTags (x : Place NodeHeader μ) : List Bytes :=
  (x.above ++ x.node.labels).flatMap (·.tags)

variable {above : List NodeHeader} {position : List ℕ} {h : NodeHeader} {i : ℕ}
  {subtree : List Bytes} {t : Node μ} {cs : List (Node μ)}

theorem inheritedTags_concat :
    inheritedTags (above ++ [h]) = computeEffectiveTags h.tags (inheritedTags above) := by
  rw [inheritedTags, List.foldl_append, List.foldl_cons, List.foldl_nil, inheritedTags]

theorem galleryPath_concat (habove : above ≠ []) :
    galleryPath (above ++ [h]) = joinChildPath (galleryPath above) h.name := by
  rw [galleryPath, List.drop_append_of_le_length (List.length_pos_iff.mpr habove),
    List.foldl_append, List.foldl_cons, List.foldl_nil, galleryPath]

theorem spelled_inheritedTags :
    Spelled (inheritedTags above) tag ↔ Spelled (above.flatMap (·.tags)) tag := by
  induction above using List.reverseRecOn with
  | nil => rfl
  | append_singleton above h ih =>
    rw [inheritedTags_concat, spelled_computeEffectiveTags, ih, List.flatMap_append, spelled_append,
      List.flatMap_singleton, or_comm]

/-- The tags gathered below a node, its own and the inherited ones are those of the line. -/
theorem spelled_line
    (hbelow : ∀ tag, Spelled subtree tag ↔
      Spelled ((t.children.flatMap LeafTree.labels).flatMap (·.tags)) tag) :
    Spelled (if t.isGallery then
      computeEffectiveTags subtree (computeEffectiveTags t.label.tags (inheritedTags above))
      else computeEffectiveTags t.label.tags (inheritedTags above)) tag ↔
    Spelled (lineTags ⟨position, above, t⟩) tag := by
  rw [lineTags, List.flatMap_append, spelled_append]
  rcases t with ⟨n, cs⟩ | ⟨n, m⟩
  · rw [LeafTree.isGallery, if_pos rfl, spelled_computeEffectiveTags, spelled_computeEffectiveTags,
      hbelow, spelled_inheritedTags, LeafTree.labels_branch, List.flatMap_cons, spelled_append]
    exact or_comm.trans (by rw [or_assoc, or_left_comm]; rfl)
  · rw [LeafTree.isGallery, if_neg Bool.false_ne_true, spelled_computeEffectiveTags,
      spelled_inheritedTags, LeafTree.labels_leaf, List.flatMap_singleton, or_comm]
    rfl

/-- The tags of a tree: those of its root, and for a gallery those below. -/
theorem spelled_labels : Spelled (t.labels.flatMap (·.tags)) tag ↔ Spelled t.label.tags tag ∨
    (t.isGallery = true ∧ Spelled ((t.children.flatMap LeafTree.labels).flatMap (·.tags)) tag) := by
  rcases t with ⟨n, cs⟩ | ⟨n, m⟩
  · rw [LeafTree.labels_branch, List.flatMap_cons, spelled_append, LeafTree.isGallery,
      and_iff_right rfl]
    rfl
  · rw [LeafTree.labels_leaf, List.flatMap_singleton, LeafTree.isGallery]
    simp

/-- The tags a node is matched by are spelled as those gathered below it are. -/
theorem spelled_matched_congr {effective subtree' : List Bytes}
    (hsame : ∀ tag, Spelled subtree tag ↔ Spelled subtree' tag) :
    Spelled (if t.isGallery then computeEffectiveTags subtree effective else effective) tag ↔
      Spelled (if t.isGallery then computeEffectiveTags subtree' effective else effective) tag := by
  split_ifs
  · rw [spelled_computeEffectiveTags, spelled_computeEffectiveTags, hsame]
  · exact Iff.rfl

/-! ## The walk visits the places -/

/-- Only which tags are gathered below a node matters. -/
def Visit.Congr (visit : Visit μ α) : Prop :=
  ∀ t path position effective subtree subtree', (∀ tag, Spelled subtree tag ↔ Spelled subtree' tag) →
    visit t path position effective subtree = visit t path position effective subtree'

/-- What becomes of a place. -/
def Visit.at (visit : Visit μ α) (x : Place NodeHeader μ) : Option α :=
  visit x.node (joinChildPath (galleryPath x.above) x.node.label.name) x.position
    (computeEffectiveTags x.node.label.tags (inheritedTags x.above))
    ((x.node.children.flatMap LeafTree.labels).flatMap (·.tags))

/-- What is to be shown of a tree: the hits at and below it are those of its places, and the tags gathered
below it are those of the nodes below it. -/
def Cascaded (visit : Visit μ α) (t : Node μ) : Prop :=
  ∀ (above : List NodeHeader) (position : List ℕ), above ≠ [] →
    let path := joinChildPath (galleryPath above) t.label.name
    let effective := computeEffectiveTags t.label.tags (inheritedTags above)
    let below := cascade visit path position effective t
    (∀ tag, Spelled below.2 tag ↔ Spelled ((t.children.flatMap LeafTree.labels).flatMap (·.tags)) tag) ∧
    below.1 ++ (visit t path position effective below.2).toList = (places above position t).filterMap visit.at

variable {visit : Visit μ α}

theorem cascadeChildren_cons {path : Bytes} {c : Node μ} :
    cascadeChildren visit path position inherited i subtree (c :: cs) =
      let fullPath := joinChildPath path c.label.name
      let effective := computeEffectiveTags c.label.tags inherited
      let below := cascade visit fullPath (position ++ [i]) effective c
      let after := cascadeChildren visit path position inherited (i + 1)
        (accumulateSubtreeUnion subtree c below.2) cs
      (below.1 ++ (visit c fullPath (position ++ [i]) effective below.2).toList ++ after.1, after.2) := by
  rw [cascadeChildren]

theorem cascaded_children (position : List ℕ) (i : ℕ) (subtree : List Bytes)
    (hcs : ∀ c ∈ cs, Cascaded visit c) (habove : above ≠ []) :
    (∀ tag, Spelled (cascadeChildren visit (galleryPath above) position (inheritedTags above) i subtree cs).2
        tag ↔ Spelled subtree tag ∨ Spelled ((cs.flatMap LeafTree.labels).flatMap (·.tags)) tag) ∧
    (cascadeChildren visit (galleryPath above) position (inheritedTags above) i subtree cs).1 =
      (placesAll above position i cs).filterMap visit.at := by
  induction cs generalizing i subtree with
  | nil => exact ⟨fun tag ↦ (or_iff_left fun h ↦ by cases h).symm, rfl⟩
  | cons c cs ih =>
    obtain ⟨htags, hhits⟩ := hcs c List.mem_cons_self above (position ++ [i]) habove
    rw [cascadeChildren_cons]
    dsimp only at htags hhits ⊢
    generalize cascade visit (joinChildPath (galleryPath above) c.label.name)
      (position ++ [i]) (computeEffectiveTags c.label.tags (inheritedTags above)) c = below
      at htags hhits ⊢
    obtain ⟨htagsRest, hhitsRest⟩ := ih (i + 1) (accumulateSubtreeUnion subtree c below.2)
      fun d hd ↦ hcs d (List.mem_cons_of_mem _ hd)
    refine ⟨fun tag ↦ ?_, ?_⟩
    · rw [htagsRest, spelled_accumulate, htags, ← spelled_labels, or_assoc, List.flatMap_cons,
        List.flatMap_append, spelled_append]
    · rw [placesAll, List.filterMap_append, ← hhits, hhitsRest]

theorem cascaded (hvisit : visit.Congr) (t : Node μ) : Cascaded visit t := by
  induction t using LeafTree.ind with
  | leaf n m =>
    intro above position habove path effective below
    refine ⟨fun tag ↦ Iff.rfl, ?_⟩
    change [] ++ (visit.at ⟨position, above, .leaf n m⟩).toList = [_].filterMap visit.at
    rcases hhit : visit.at ⟨position, above, .leaf n m⟩ with _ | hit
    · rw [List.filterMap_cons_none hhit]
      rfl
    · rw [List.filterMap_cons_some hhit]
      rfl
  | branch n cs ih =>
    intro above position habove path effective below
    have hpath : path = galleryPath (above ++ [n]) := (galleryPath_concat habove).symm
    have heffective : effective = inheritedTags (above ++ [n]) := inheritedTags_concat.symm
    have hbelow : below = cascadeChildren visit (galleryPath (above ++ [n]))
        position (inheritedTags (above ++ [n])) 0 [] cs := by
      rw [← hpath, ← heffective]
      exact cascade.eq_def _ _ _ _ _
    obtain ⟨htags, hhits⟩ := cascaded_children position 0 [] ih
      (List.append_ne_nil_of_right_ne_nil above (List.cons_ne_nil n []))
    have htagsBelow (tag : Bytes) : Spelled below.2 tag ↔ Spelled
        (((LeafTree.branch n cs : Node μ).children.flatMap LeafTree.labels).flatMap (·.tags)) tag := by
      rw [hbelow, htags]
      exact or_iff_right fun h ↦ by cases h
    refine ⟨htagsBelow, ?_⟩
    -- The tags gathered below are as good as those of the place.
    have hvisited : visit (.branch n cs) path position effective below.2 =
        visit.at ⟨position, above, .branch n cs⟩ := hvisit _ _ _ _ _ _ htagsBelow
    rw [hvisited, hbelow, hhits, places, List.filterMap_append]
    rcases hhit : visit.at ⟨position, above, .branch n cs⟩ with _ | hit
    · rw [List.filterMap_cons_none hhit]
      rfl
    · rw [List.filterMap_cons_some hhit]
      rfl

/-- **The hits of the walk** are those of the places below the root. -/
theorem cascade_root (hvisit : visit.Congr) (root : Node μ) :
    (cascade visit [] [] root.label.tags root).1 =
      (placesAll [root.label] [] 0 root.children).filterMap visit.at := by
  have hseed : inheritedTags [root.label] = root.label.tags := List.append_nil _
  rcases root with ⟨n, cs⟩ | ⟨n, m⟩
  · have hne : [n] ≠ [] := List.cons_ne_nil n []
    rw [← hseed, cascade]
    exact (cascaded_children [] 0 [] (fun c _ ↦ cascaded hvisit c) hne).2
  · rfl

end Search

end SafeVault
