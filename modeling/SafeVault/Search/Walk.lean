import SafeVault.Search.Cascade

/-!
# What an advanced search returns

The walk visits the places of the tree below its root. What it carries down is the tags above a place
and what it carries up is the tags below, so the list a query is evaluated on spells the tags of the
nodes on the line through the place, from the root down to everything below it, and the virtual tags
of those. Hence the hits are the places in scope at which the formula holds, once each; sorting them
by score and path changes nothing but the order.
-/

namespace SafeVault

namespace Search

open AsciiFold (fold)
open LeafTree (Place places placesAll labelsAbove)

variable {μ : Type} {q : AdvancedQuery} {settings : VaultSettings} {tags inherited : List Bytes}
  {k tag : Bytes}

/-! ## Virtual tags -/

/-- A map has a virtual tag for the tags of a key. -/
def Has (byTag : FieldTagMap) (k v : Bytes) : Prop := ∃ e ∈ byTag, fold e.1 = k ∧ v ∈ e.2

theorem has_append {m m' : FieldTagMap} {v : Bytes} : Has (m ++ m') k v ↔ Has m k v ∨ Has m' k v := by
  simp only [Has, List.mem_append, or_and_right, exists_or]

theorem has_cons {e : Bytes × List Bytes} {m : FieldTagMap} {v : Bytes} :
    Has (e :: m) k v ↔ (fold e.1 = k ∧ v ∈ e.2) ∨ Has m k v := by
  simp only [Has, List.mem_cons, or_and_right, exists_or, exists_eq_left]

theorem has_addFieldValue {byTag : FieldTagMap} {x : TagFieldValue} {v : Bytes} :
    Has (addFieldValue byTag x) k v ↔ Has byTag k v ∨ (fold x.tag = k ∧ v = virtualTag x) := by
  rw [addFieldValue]
  rcases hfind : byTag.findIdx? fun e ↦ tagCiEqual e.1 x.tag with _ | i
  · rw [hfind, has_append, has_cons, List.mem_singleton]
    exact or_congr_right (or_iff_left fun ⟨_, he, _⟩ ↦ absurd he List.not_mem_nil)
  · obtain ⟨hi, hsame, -⟩ := List.findIdx?_eq_some_iff_getElem.mp hfind
    have hkey : fold byTag[i].1 = fold x.tag := (decides_tagCiEqual _ _).mp hsame
    have hsplit : byTag = byTag.take i ++ byTag[i] :: byTag.drop (i + 1) := by simp
    rw [hfind]
    dsimp only
    rw [List.modify_eq_take_cons_drop hi, has_append, has_cons, List.mem_append,
      List.mem_singleton, hkey, and_or_left]
    have hbefore : Has byTag k v ↔ Has (byTag.take i) k v ∨ (fold x.tag = k ∧ v ∈ byTag[i].2) ∨
        Has (byTag.drop (i + 1)) k v := by
      rw [← hkey, ← has_cons, ← has_append, ← hsplit]
    rw [hbefore]
    tauto

theorem has_build {v : Bytes} : Has (.build settings) k v ↔
    ∃ x ∈ settings.tagFieldValues, fold x.tag = k ∧ v = virtualTag x := by
  have hfold (xs : List TagFieldValue) (byTag : FieldTagMap) :
      Has (xs.foldl addFieldValue byTag) k v ↔
        Has byTag k v ∨ ∃ x ∈ xs, fold x.tag = k ∧ v = virtualTag x := by
    induction xs generalizing byTag with
    | nil => simp
    | cons x xs ih =>
      rw [List.foldl_cons, ih, has_addFieldValue, or_assoc]
      simp only [List.mem_cons, or_and_right, exists_or, exists_eq_left]
  rw [FieldTagMap.build, hfold]
  simp [Has]

/-- The tags a node is matched against: those it carries, and the virtual tags of those. -/
theorem spelled_expand : Spelled (FieldTagMap.expand (.build settings) tags) tag ↔
    Spelled tags tag ∨ ∃ x ∈ settings.tagFieldValues, Spelled tags x.tag ∧
      fold (virtualTag x) = fold tag := by
  rw [FieldTagMap.expand, spelled_append]
  refine or_congr_right ?_
  constructor
  · intro h
    obtain ⟨v, hv, hkey⟩ := List.mem_map.mp h
    obtain ⟨t, ht, hv⟩ := List.mem_flatMap.mp hv
    obtain ⟨e, he, hv⟩ := List.mem_flatMap.mp hv
    split_ifs at hv with hsame
    · obtain ⟨x, hx, hxt, rfl⟩ :=
        has_build.mp ⟨e, he, (decides_tagCiEqual _ _).mp hsame, hv⟩
      exact ⟨x, hx, List.mem_map.mpr ⟨t, ht, hxt.symm⟩, hkey⟩
    · cases hv
  · rintro ⟨x, hx, hcarried, hkey⟩
    obtain ⟨t, ht, hxt⟩ := List.mem_map.mp hcarried
    obtain ⟨e, he, het, hv⟩ := has_build.mpr ⟨x, hx, hxt.symm, rfl⟩
    refine List.mem_map.mpr ⟨virtualTag x, List.mem_flatMap.mpr ⟨t, ht,
      List.mem_flatMap.mpr ⟨e, he, ?_⟩⟩, hkey⟩
    rwa [if_pos ((decides_tagCiEqual _ _).mpr het)]

theorem expand_of_isEmpty {byTag : FieldTagMap} :
    (if byTag.isEmpty then tags else byTag.expand tags) = byTag.expand tags := by
  split_ifs with h
  · rw [List.isEmpty_iff.mp h, FieldTagMap.expand]
    simp
  · rfl

theorem evaluate_congr {name : Bytes} {other : List Bytes}
    (h : ∀ tag, Spelled tags tag ↔ Spelled other tag) : evaluate q name tags = evaluate q name other := by
  have hsame : Spelled tags = Spelled other := funext fun tag ↦ propext (h tag)
  refine Option.ext fun score ↦ ?_
  rw [evaluate_eq_some_iff, evaluate_eq_some_iff, hsame]

/-! ## The hits -/

/-- The hit at a place, if it is one. -/
def hitOf (q : AdvancedQuery) (settings : VaultSettings) (x : Place NodeHeader μ) :
    Option (Int32 × SearchHit) :=
  if inScope x.node.isGallery q.scope then
    (evaluate q x.node.label.name (FieldTagMap.expand (.build settings) (lineTags x))).map
      fun score ↦ (score,
        { path := joinChildPath (galleryPath x.above) x.node.label.name
          isGallery := x.node.isGallery
          name := x.node.label.name
          effectiveTags := computeEffectiveTags x.node.label.tags (inheritedTags x.above)
          node := x.position })
  else none

/-- What an advanced search does at a node depends on the tags gathered below it by what they spell. -/
theorem congr_hitAt : Visit.Congr (hitAt (μ := μ) q (.build settings)) := by
  intro t path position effective subtree subtree' hsame
  rw [hitAt, hitAt]
  refine if_congr Iff.rfl ?_ rfl
  dsimp only
  rw [expand_of_isEmpty, expand_of_isEmpty]
  refine congrArg _ (evaluate_congr fun tag ↦ ?_)
  simp only [spelled_expand, spelled_matched_congr hsame]

theorem at_hitAt (x : Place NodeHeader μ) : Visit.at (hitAt q (.build settings)) x = hitOf q settings x := by
  rw [Visit.at, hitAt, hitOf]
  refine if_congr Iff.rfl ?_ rfl
  dsimp only
  rw [expand_of_isEmpty]
  refine congrArg _ (evaluate_congr fun tag ↦ ?_)
  have hline (tag : Bytes) : Spelled (if x.node.isGallery then
      computeEffectiveTags ((x.node.children.flatMap LeafTree.labels).flatMap (·.tags))
        (computeEffectiveTags x.node.label.tags (inheritedTags x.above))
      else computeEffectiveTags x.node.label.tags (inheritedTags x.above)) tag ↔
      Spelled (lineTags ⟨x.position, x.above, x.node⟩) tag := spelled_line fun _ ↦ Iff.rfl
  simp only [spelled_expand, hline]

/-- The advanced search is such a walk. -/
theorem advSearchDfs_eq_cascade {fmap : FieldTagMap} (t : Node μ) (path : Bytes) (position : List ℕ)
    (inherited : List Bytes) :
    advSearchDfs q fmap path position inherited t = cascade (hitAt q fmap) path position inherited t := by
  induction t using LeafTree.ind generalizing path position inherited with
  | leaf n m => rfl
  | branch n cs ih =>
    rw [advSearchDfs, cascade]
    generalize ([] : List Bytes) = subtree
    generalize 0 = i
    induction cs generalizing i subtree with
    | nil => rfl
    | cons c cs ihcs =>
      rw [advSearchChildren, cascadeChildren, ih c List.mem_cons_self,
        ihcs fun d hd ↦ ih d (List.mem_cons_of_mem c hd)]

/-! ## The results -/

/-- A tag is carried to a position by a node on the line through it. -/
def Carries (root : Node μ) (p : List ℕ) (tag : Bytes) : Prop :=
  ∃ r u, (r <+: p ∨ p <+: r) ∧ root.get? r = some u ∧ Spelled u.label.tags tag

/-- The tags a position is searched by: those carried to it and the virtual tags of those. -/
def Searchable (root : Node μ) (settings : VaultSettings) (p : List ℕ) (tag : Bytes) : Prop :=
  Carries root p tag ∨
    ∃ x ∈ settings.tagFieldValues, Carries root p x.tag ∧ fold (virtualTag x) = fold tag

/-- The path of a position. -/
def pathAt (root : Node μ) (p : List ℕ) (u : Node μ) : Bytes :=
  joinChildPath (galleryPath (labelsAbove root p)) u.label.name

variable {root : Node μ} {p : List ℕ} {u : Node μ}

theorem spelled_flatMap {labels : List NodeHeader} :
    Spelled (labels.flatMap (·.tags)) tag ↔ ∃ n ∈ labels, Spelled n.tags tag := by
  simp only [Spelled, List.mem_map, List.mem_flatMap]
  constructor
  · rintro ⟨t, ⟨n, hn, ht⟩, hkey⟩
    exact ⟨n, hn, t, ht, hkey⟩
  · rintro ⟨n, hn, t, ht, hkey⟩
    exact ⟨t, ⟨n, hn, ht⟩, hkey⟩

theorem spelled_lineTags (hget : root.get? p = some u) :
    Spelled (lineTags ⟨p, labelsAbove root p, u⟩) tag ↔ Carries root p tag := by
  rw [lineTags, spelled_flatMap]
  constructor
  · rintro ⟨n, hn, hspelled⟩
    rcases List.mem_append.mp hn with hn | hn
    · obtain ⟨r, w, hr, -, hw, rfl⟩ := (LeafTree.mem_labelsAbove hget).mp hn
      exact ⟨r, w, .inl hr, hw, hspelled⟩
    · obtain ⟨r, w, hw, rfl⟩ := LeafTree.mem_labels.mp hn
      refine ⟨p ++ r, w, .inr (List.prefix_append _ _), ?_, hspelled⟩
      rw [LeafTree.get?_append, hget, Option.bind_some, hw]
  · rintro ⟨r, w, hline, hw, hspelled⟩
    refine ⟨w.label, List.mem_append.mpr ?_, hspelled⟩
    -- a node on the line is above the position unless it is at or below it
    by_cases hbelow : p <+: r
    · obtain ⟨s, rfl⟩ := hbelow
      rw [LeafTree.get?_append, hget, Option.bind_some] at hw
      exact .inr (LeafTree.mem_labels.mpr ⟨s, w, hw, rfl⟩)
    · have habove := hline.resolve_right hbelow
      refine .inl ((LeafTree.mem_labelsAbove hget).mpr ⟨r, w, habove, ?_, hw, rfl⟩)
      rintro rfl
      exact hbelow (List.prefix_refl r)

theorem spelled_searchable (hget : root.get? p = some u) :
    Spelled (FieldTagMap.expand (.build settings) (lineTags ⟨p, labelsAbove root p, u⟩)) =
      Searchable root settings p := by
  funext tag
  rw [spelled_expand, Searchable]
  simp only [spelled_lineTags hget]

/-- The hit at a position, when there is one. -/
theorem hitOf_eq_some_iff {score : Int32} {hit : SearchHit} (hget : root.get? p = some u) :
    hitOf q settings ⟨p, labelsAbove root p, u⟩ = some (score, hit) ↔
      inScope u.isGallery q.scope = true ∧ Matches q u.label.name (Searchable root settings p) ∧
      score = Int32.ofInt (rank q (Searchable root settings p)) ∧
      hit =
        { path := pathAt root p u
          isGallery := u.isGallery
          name := u.label.name
          effectiveTags := computeEffectiveTags u.label.tags (inheritedTags (labelsAbove root p))
          node := p } := by
  rw [hitOf]
  dsimp only
  split_ifs with hscope
  · rw [Option.map_eq_some_iff, and_iff_right hscope]
    simp only [evaluate_eq_some_iff, spelled_searchable hget, Prod.mk.injEq, pathAt]
    constructor
    · rintro ⟨_, ⟨hmatches, rfl⟩, rfl, rfl⟩
      exact ⟨hmatches, rfl, rfl⟩
    · rintro ⟨hmatches, rfl, rfl⟩
      exact ⟨_, ⟨hmatches, rfl⟩, rfl, rfl⟩
  · exact iff_of_false nofun fun h ↦ hscope h.1

/-- The hits of the walk are those of the places below the root. -/
theorem advSearchDfs_root : (advSearchDfs q (.build settings) [] [] root.label.tags root).1 =
    (placesAll [root.label] [] 0 root.children).filterMap (hitOf q settings) := by
  rw [advSearchDfs_eq_cascade, cascade_root congr_hitAt]
  exact congrArg (List.filterMap · _) (funext at_hitAt)

end Search

end SafeVault
