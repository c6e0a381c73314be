import SafeVault.Tags.Category

/-!
# Tag operations on a vault

Each operation checks its arguments, edits nodes of the live state and commits. Two things are taken
from outside: the outcome of the commit, and whether a progress object asks to cancel, as a function
of how often it was asked. An edit that fails, is cancelled or is not committed is undone; only
`pruneTags` and the staging half of a merge leave the live state changed without a commit.
-/

namespace SafeVault

open KeyedUnion (union)

namespace Vault

variable {μ : Type}

/-- The end of an edit that is undone unless its commit succeeds. -/
def transact (outcome : VaultResult) (v edited : Vault μ) : VaultResult × Vault μ :=
  let (r, committed) := edited.commitIndex outcome
  (r, if r = .ok then committed else v)

/-- An edit is carried out and committed, or undone. -/
theorem transact_cases (outcome : VaultResult) (v edited : Vault μ) :
    (v.transact outcome edited).1 = .ok ∧
      (v.transact outcome edited).2 = { edited with committed := edited.live } ∨
    (v.transact outcome edited).1 ≠ .ok ∧ (v.transact outcome edited).2 = v := by
  rw [transact, commitIndex]
  split_ifs with hlegacy hok
  · exact .inr ⟨by rintro ⟨⟩, rfl⟩
  · exact .inl ⟨hok, if_pos hok⟩
  · exact .inr ⟨hok, if_neg hok⟩

/-- An edit that may be written has the outcome of the storage. -/
theorem transact_fst {outcome : VaultResult} {v edited : Vault μ} (h : edited.writable = .ok) :
    (v.transact outcome edited).1 = outcome := by
  rw [writable] at h
  split_ifs at h with hlocked hlegacy
  rw [transact, commitIndex, if_neg]
  simp [hlegacy]

/-- `BundleAccess::check`: only a vault with a database has bundles. -/
def bundleAccess (v : Vault μ) : VaultResult :=
  if !v.unlocked then .locked else if v.v3 then .ok else .invalidArg

/-! ## Editing selected nodes -/

/-- Edit the nodes at some positions, one after another, and report whether any edit had something
to do. An error is an early return with that result; a cancelled run returns `ok`. -/
def editSelection (edit : NodeHeader → Except VaultResult (Option NodeHeader)) :
    (ℕ → Bool) → List (Option (List ℕ)) → Node μ → Bool → Except VaultResult (Node μ × Bool)
  | cancel, [], root, changed => if cancel 0 then .error .ok else .ok (root, changed)
  | cancel, position :: rest, root, changed =>
    if cancel 0 then .error .ok
    else
      match position.bind fun p ↦ (root.get? p).map fun t ↦ (p, t.label) with
      | none => editSelection edit (fun k ↦ cancel (k + 1)) rest root changed
      | some (p, node) =>
        match edit node with
        | .error r => .error r
        | .ok none => editSelection edit (fun k ↦ cancel (k + 1)) rest root changed
        | .ok (some node') =>
          editSelection edit (fun k ↦ cancel (k + 1)) rest
            (root.modifyAt (LeafTree.setLabel fun _ ↦ node') p) true

/-- Edit the nodes at some positions and commit if there was anything to do. -/
def editNodes (edit : NodeHeader → Except VaultResult (Option NodeHeader)) (cancel : ℕ → Bool)
    (positions : List (Option (List ℕ))) (outcome : VaultResult) (v : Vault μ) :
    VaultResult × Vault μ :=
  match editSelection edit cancel positions v.root false with
  | .error r => (r, v)
  | .ok (_, false) => (.ok, v)
  | .ok (root, true) => v.transact outcome { v with root }

/-- `Vault::set_tags`. -/
def setTags (nodePath : Bytes) (tags : List Bytes) (outcome : VaultResult) (v : Vault μ) :
    VaultResult × Vault μ :=
  if v.writable ≠ .ok then (v.writable, v)
  else
    match resolveNode v.root nodePath with
    | none => (.notFound, v)
    | some p =>
      v.editNodes (setNodeTags v.settings.tagBundles (normaliseTags tags)) (fun _ ↦ false) [some p]
        outcome

/-- `mutate_tags_batch`. The first question to `cancel` comes before the paths are resolved. -/
def mutateTagsBatch (paths : List Bytes) (tag : Bytes) (remove : Bool) (cancel : ℕ → Bool)
    (outcome : VaultResult) (v : Vault μ) : VaultResult × Vault μ :=
  if v.writable ≠ .ok then (v.writable, v)
  else if (normaliseTag tag).isEmpty then (if remove then .ok else .invalidArg, v)
  else if tagUnstorable (normaliseTag tag) then (.invalidArg, v)
  else if cancel 0 then (.ok, v)
  else
    v.editNodes (applyTag v.settings.tagBundles (normaliseTag tag) remove) (fun k ↦ cancel (k + 1))
      (paths.map (resolveSelection v.root)) outcome

/-- `Vault::add_tag` and `Vault::remove_tag`: one path, without a progress object. -/
def mutateTag (nodePath tag : Bytes) (remove : Bool) (outcome : VaultResult) (v : Vault μ) :
    VaultResult × Vault μ :=
  if v.writable ≠ .ok then (v.writable, v)
  else if (normaliseTag tag).isEmpty then (if remove then .ok else .invalidArg, v)
  else if (resolveNode v.root nodePath).isNone then (.notFound, v)
  else v.mutateTagsBatch [nodePath] (normaliseTag tag) remove (fun _ ↦ false) outcome

def addTag (nodePath tag : Bytes) : VaultResult → Vault μ → VaultResult × Vault μ :=
  mutateTag nodePath tag false

def removeTag (nodePath tag : Bytes) : VaultResult → Vault μ → VaultResult × Vault μ :=
  mutateTag nodePath tag true

/-! ## Bundles -/

/-- Recompute the whole tree for a changed list of bundles, and commit. -/
def refresh (bundles : List TagBundle) (removed : Option NodeId) (outcome : VaultResult)
    (v : Vault μ) : VaultResult × Vault μ :=
  match v.root.mapLabel? (refreshNode bundles removed) with
  | none => (.invalidArg, v)
  | some root =>
    v.transact outcome { v with root, settings := { v.settings with tagBundles := bundles } }

def findBundleNamed (bundles : List TagBundle) (name : Bytes) : Option ℕ :=
  bundles.findIdx? fun b ↦ tagCiEqual b.name name

/-- `save_tag_bundle`. `newId` is the identity drawn for a new bundle, if the random source works. -/
def saveTagBundle (name : Bytes) (tags : List Bytes) (originalName : Bytes) (newId : Option NodeId)
    (outcome : VaultResult) (v : Vault μ) : VaultResult × Vault μ :=
  let bundles := v.settings.tagBundles
  let members := normaliseTags tags
  let found := findBundleNamed bundles (if originalName.isEmpty then name else originalName)
  if v.bundleAccess ≠ .ok then (v.bundleAccess, v)
  else if name.isEmpty || 255 < name.length || name.contains 0 || indexMaxTags < members.length then
    (.invalidArg, v)
  else if members.any tagUnstorable then (.invalidArg, v)
  else if !originalName.isEmpty && found.isNone then (.notFound, v)
  else if bundles.zipIdx.any fun p ↦ found != some p.2 && tagCiEqual p.1.name name then
    (.alreadyExists, v)
  else
    match found with
    | some i => v.refresh (bundles.modify i fun b ↦ ⟨b.id, name, members⟩) none outcome
    | none =>
      if indexMaxTags ≤ bundles.length then (.invalidArg, v)
      else
        match newId with
        | none => (.invalidArg, v)
        | some id => v.refresh (bundles ++ [⟨id, name, members⟩]) none outcome

/-- `delete_tag_bundle`. -/
def deleteTagBundle (name : Bytes) (outcome : VaultResult) (v : Vault μ) : VaultResult × Vault μ :=
  if v.bundleAccess ≠ .ok then (v.bundleAccess, v)
  else
    match findBundleNamed v.settings.tagBundles name with
    | none => (.notFound, v)
    | some i =>
      v.refresh (v.settings.tagBundles.eraseIdx i) (v.settings.tagBundles[i]?.map (·.id)) outcome

/-- `apply_tag_bundle`. -/
def applyTagBundle (paths : List Bytes) (name : Bytes) (remove : Bool) (cancel : ℕ → Bool)
    (outcome : VaultResult) (v : Vault μ) : VaultResult × Vault μ :=
  if v.bundleAccess ≠ .ok then (v.bundleAccess, v)
  else
    match v.settings.tagBundles.find? fun b ↦ tagCiEqual b.name name with
    | none => (.notFound, v)
    | some b =>
      v.editNodes (applyBundle v.settings.tagBundles b.id remove) cancel
        (paths.map (resolveSelection v.root)) outcome

/-! ## Pruning -/

/-- `Vault::prune_tags`. The tree is edited in place; without a removed tag nothing is committed. -/
def pruneTags (keep : Option (Bytes → Bool)) (outcome : VaultResult) (v : Vault μ) :
    VaultResult × Vault μ :=
  if v.writable ≠ .ok then (v.writable, v)
  else
    match keep with
    | none => (.invalidArg, v)
    | some keep =>
      let pruned := { v with root := v.root.mapLabel (pruneNode v.settings.tagBundles keep) }
      if (v.root.labels.map (prunedTags keep)).sum = 0 then (.ok, pruned)
      else pruned.commitIndex outcome

/-! ## Renaming -/

/-- Every tag of the live state: those of the nodes, and those that bundles, descriptions and field
values refer to. -/
def tagReferences (v : Vault μ) : List Bytes :=
  v.root.labels.flatMap (·.tags) ++ v.root.labels.flatMap (·.explicitTags) ++
    v.settings.tagBundles.flatMap (·.tags) ++ v.settings.tagDescriptions.map (·.tag) ++
    v.settings.tagFieldValues.map (·.tag)

/-- The live state with every reference to a tag rewritten, and other saved searches. -/
def renameTags (f : Bytes → Bytes) (searches : List SavedSearch) (v : Vault μ) : Vault μ :=
  { v with
    root := v.root.mapLabel (renameNodeTags f)
    settings := { v.settings with
      tagBundles := v.settings.tagBundles.map (TagBundle.rename f)
      tagDescriptions := v.settings.tagDescriptions.map fun d ↦ { d with tag := f d.tag }
      tagFieldValues := v.settings.tagFieldValues.map fun x ↦ { x with tag := f x.tag } }
    searches }

/-- What `rename_tag` does before its commit: an error, nothing to do, or an edited state. `rewrite`
stands for the change of the tags in the queries of saved searches. -/
def planRenameTag (oldTag newTag : Bytes)
    (rewrite : List SavedSearch → Except VaultResult (List SavedSearch)) (v : Vault μ) :
    Except VaultResult (Option (Vault μ)) :=
  let oldTag := normaliseTag oldTag
  let newTag := normaliseTag newTag
  if v.writable ≠ .ok then .error v.writable
  else if oldTag.isEmpty || newTag.isEmpty || tagUnstorable newTag then .error .invalidArg
  else if !v.tagReferences.any (tagCiEqual · oldTag) then .error .notFound
  else if v.tagReferences.any fun t ↦ !tagCiEqual t oldTag && tagCiEqual t newTag then
    .error .alreadyExists
  else if v.tagReferences.all fun t ↦ !tagCiEqual t oldTag || t == newTag then .ok none
  else if !renamePreservesTagFields v.settings oldTag newTag then .error .invalidArg
  else (rewrite v.searches).map fun searches ↦ some (v.renameTags (renamedTag oldTag newTag) searches)

/-- What `rename_tag_category` does before its commit. Here, too, `rewrite` changes the queries of
saved searches. -/
def planRenameTagCategory (oldName newName : Bytes)
    (rewrite : List SavedSearch → Except VaultResult (List SavedSearch)) (v : Vault μ) :
    Except VaultResult (Option (Vault μ)) :=
  let oldName := normaliseTag oldName
  let newName := normaliseTag newName
  if v.writable ≠ .ok then .error v.writable
  else if oldName.isEmpty || newName.isEmpty || indexMaxCategoryBytes < newName.length ||
      newName.contains colon || newName.contains 0 then .error .invalidArg
  else
    match v.settings.categories.findIdx? fun c ↦ tagCiEqual c.name oldName with
    | none => .error .notFound
    | some i =>
      if (v.settings.categories[i]?.map (·.name)) == some newName then .ok none
      else if v.settings.categories.zipIdx.any fun p ↦ p.2 != i && tagCiEqual p.1.name newName then
        .error .alreadyExists
      else if categoryRenameStatus oldName newName v.tagReferences ≠ .ok then
        .error (categoryRenameStatus oldName newName v.tagReferences)
      else
        (rewrite v.searches).map fun searches ↦
          let renamed := v.renameTags (recategorisedTag oldName newName) searches
          some { renamed with
            settings := { renamed.settings with
              categories := renamed.settings.categories.modify i ({ · with name := newName }) } }

/-- The end of a planned operation, with the outcome of its commit. -/
def carryOut (outcome : VaultResult) (v : Vault μ) (plan : Except VaultResult (Option (Vault μ))) :
    VaultResult × Vault μ :=
  match plan with
  | .error r => (r, v)
  | .ok none => (.ok, v)
  | .ok (some edited) => v.transact outcome edited

/-- `rename_tag` -/
def renameTag (oldTag newTag : Bytes)
    (rewrite : List SavedSearch → Except VaultResult (List SavedSearch)) (outcome : VaultResult)
    (v : Vault μ) : VaultResult × Vault μ :=
  v.carryOut outcome (v.planRenameTag oldTag newTag rewrite)

/-- `rename_tag_category` -/
def renameTagCategory (oldName newName : Bytes)
    (rewrite : List SavedSearch → Except VaultResult (List SavedSearch)) (outcome : VaultResult)
    (v : Vault μ) : VaultResult × Vault μ :=
  v.carryOut outcome (v.planRenameTagCategory oldName newName rewrite)

section Planned

variable {v edited : Vault μ} {rewrite : List SavedSearch → Except VaultResult (List SavedSearch)}

/-- An edited state of `rename_tag`, and what was checked: the new tag is no other tag. -/
theorem of_planRenameTag {oldTag newTag : Bytes}
    (h : v.planRenameTag oldTag newTag rewrite = .ok (some edited)) :
    (∀ t ∈ v.tagReferences,
      (!tagCiEqual t (normaliseTag oldTag) && tagCiEqual t (normaliseTag newTag)) = false) ∧
    ∃ searches, edited =
      v.renameTags (renamedTag (normaliseTag oldTag) (normaliseTag newTag)) searches := by
  simp only [planRenameTag] at h
  split_ifs at h with _ _ _ hcollision
  · exact nomatch Except.ok.inj h
  rcases hrewrite : rewrite v.searches with r | searches
  · rw [hrewrite] at h
    exact nomatch h
  rw [hrewrite] at h
  refine ⟨fun t ht ↦ ?_, searches, (Option.some.inj (Except.ok.inj h)).symm⟩
  rw [← Bool.not_eq_true]
  exact fun h ↦ hcollision (List.any_eq_true.mpr ⟨t, ht, h⟩)

/-- An edited state of `rename_tag_category`. The names have been checked, and what they make of the
tags has been accepted. -/
theorem of_planRenameTagCategory {oldName newName : Bytes}
    (h : v.planRenameTagCategory oldName newName rewrite = .ok (some edited)) :
    normaliseTag oldName ≠ [] ∧ normaliseTag newName ≠ [] ∧ colon ∉ normaliseTag newName ∧
    categoryRenameStatus (normaliseTag oldName) (normaliseTag newName) v.tagReferences = .ok ∧
    ∃ i searches renamed,
      renamed = v.renameTags (recategorisedTag (normaliseTag oldName) (normaliseTag newName)) searches ∧
      edited = { renamed with
        settings := { renamed.settings with
          categories := v.settings.categories.modify i ({ · with name := normaliseTag newName }) } } := by
  simp only [planRenameTagCategory] at h
  generalize List.findIdx? _ v.settings.categories = found at h
  rcases found with _ | i
  · split_ifs at h
  dsimp only at h
  split_ifs at h with _ hnames _ _ hstatus
  · exact nomatch Except.ok.inj h
  rcases hrewrite : rewrite v.searches with r | searches
  · rw [hrewrite] at h
    exact nomatch h
  rw [hrewrite] at h
  simp only [Bool.or_eq_true, List.isEmpty_iff, decide_eq_true_eq, not_or,
    List.contains_iff_mem] at hnames
  obtain ⟨⟨⟨⟨hold, hnew⟩, -⟩, hcolon⟩, -⟩ := hnames
  exact ⟨hold, hnew, hcolon, not_not.mp hstatus, i, searches, _, rfl,
    (Option.some.inj (Except.ok.inj h)).symm⟩

end Planned

/-! ## Transfer -/

/-- The paths of the ancestors of a node, as the text before each slash spells them. -/
def ancestorPaths (nodePath : Bytes) : List Bytes :=
  ((nodePath.splitOn slash).dropLast.scanl (fun pre seg ↦
    if pre.isEmpty then seg else pre ++ slash :: seg) []).tail

/-- `effective_tags`: the node's own tags, then those of the root and of each ancestor gallery. -/
def effectiveTags (v : Vault μ) (nodePath : Bytes) : List Bytes :=
  match (resolveNode v.root nodePath).bind v.root.get? with
  | none => []
  | some node =>
    (ancestorPaths nodePath).foldl (fun out path ↦
      match (resolveNode v.root path).bind v.root.get? with
      | some g => if g.isGallery then union tagCiEqual out g.label.tags else out
      | none => out)
    (union tagCiEqual node.label.tags v.root.label.tags)

/-- `child_path`. -/
def childPath (gallery name : Bytes) : Bytes :=
  (if gallery.isEmpty then [] else gallery ++ [slash]) ++ name

/-- `find_image_node`: the medium with a name in the gallery at a path. -/
def findMedium (v : Vault μ) (gallery name : Bytes) : Option (NodeHeader × μ) := do
  let p ← resolveGallery v.root gallery
  let g ← v.root.get? p
  g.children.findSome? fun c ↦
    match c with
    | .leaf h m => if h.name == name then some (h, m) else none
    | .branch _ _ => none

/-- Append a child to the gallery at a position. -/
def pushChild (child : Node μ) (p : List ℕ) (v : Vault μ) : Vault μ :=
  { v with root := v.root.modifyAt (fun g ↦ .branch g.label (g.children ++ [child])) p }

/-- `discard_copied_media`: drop the children with a name from the gallery at a path. -/
def discardCopiedMedia (gallery name : Bytes) (v : Vault μ) : Vault μ :=
  match resolveNode v.root gallery with
  | none => v
  | some p =>
    { v with root := v.root.modifyAt (fun g ↦
        match g with
        | .branch h cs => .branch h (cs.filter fun c ↦ !c.named name)
        | .leaf h m => .leaf h m) p }

/-- `attach_copied_provenance`, after the medium was attached. -/
def attachCopiedProvenance (provenance : NodeHeader) (sourceBundles : List TagBundle)
    (random : ℕ → Option NodeId) (gallery name : Bytes) (inherited : List Bytes) (dst : Vault μ) :
    VaultResult × Vault μ :=
  match (resolveNode dst.root (childPath gallery name)).bind fun p ↦
      (dst.root.get? p).map fun t ↦ (p, t.label) with
  | none => (.notFound, dst)
  | some (p, target) =>
    match copyTagProvenance dst.settings.tagBundles dst.bundleAccess random provenance
        sourceBundles target with
    | .error r => (r, dst.discardCopiedMedia gallery name)
    | .ok (node, bundles) =>
      let dst := { dst with settings := { dst.settings with tagBundles := bundles } }
      match addInherited bundles inherited node with
      | some node' =>
        (.ok, { dst with root := dst.root.modifyAt (LeafTree.setLabel fun _ ↦ node') p })
      | none => (.invalidArg, dst.discardCopiedMedia gallery name)

/-- What storing a copied medium yields: the results of reading it at the source and of staging it at
the destination, the payload it has there and the identity of its node. -/
structure StagedMedium (μ : Type) where
  read : VaultResult
  stage : VaultResult
  payload : μ
  nodeId : NodeId

/-- `copy_one_media`: copy one medium with its tags into a gallery of another vault, or of the same
one. The live state of the destination changes; nothing is committed. -/
def copyOneMedium (src : Vault μ) (srcGallery name : Bytes) (dstGallery : Bytes)
    (materializeInheritance : Bool) (staged : StagedMedium μ) (random : ℕ → Option NodeId)
    (dst : Vault μ) : VaultResult × Vault μ :=
  match src.findMedium srcGallery name with
  | none => (.notFound, dst)
  | some (node, _) =>
    -- Without a database the copy flattens the tags of the ancestors into its own.
    let materialize := !dst.v3 || materializeInheritance
    let tags := if materialize then src.effectiveTags (childPath srcGallery name) else node.tags
    let inherited := if materialize then src.effectiveTags srcGallery else []
    if !node.tagBundles.isEmpty && !dst.v3 then (.invalidArg, dst)
    else if staged.read ≠ .ok then (staged.read, dst)
    else if !dst.unlocked then (.locked, dst)
    else if !isSafeNodeName name then (.invalidArg, dst)
    else
      match (resolveGallery dst.root dstGallery).bind fun p ↦
          (dst.root.get? p).map fun g ↦ (p, g) with
      | none => (.notFound, dst)
      | some (p, g) =>
        if (childNamed g name).isSome then (.alreadyExists, dst)
        else if staged.stage ≠ .ok then (staged.stage, dst)
        else if dst.legacyReadOnly then (.invalidArg, dst)
        else
          let medium := .leaf
            { name, tags := tags.take indexMaxTags, favorite := node.favorite,
              nodeId := staged.nodeId } staged.payload
          (dst.pushChild medium p).attachCopiedProvenance node src.settings.tagBundles random
            dstGallery name inherited

/-- `merge_tag_provenance`: merge the tags of a gallery into one of the destination. Without `commit`
the merge is staged for a later commit. -/
def mergeTagProvenance (source : NodeHeader) (sourceBundles : List TagBundle) (path : Bytes)
    (inherited : List Bytes) (commit : Bool) (random : ℕ → Option NodeId) (outcome : VaultResult)
    (v : Vault μ) : VaultResult × Vault μ :=
  if v.writable ≠ .ok then (v.writable, v)
  else
    match (resolveNode v.root path).bind fun p ↦ (v.root.get? p).map fun t ↦ (p, t.label) with
    | none => (.notFound, v)
    | some (p, target) =>
      let manual := mergedTags source target inherited
      if indexMaxTags < manual.length then (.invalidArg, v)
      else if !v.v3 then
        if !source.tagBundles.isEmpty then (.invalidArg, v)
        else if commit then v.setTags path manual outcome
        else
          let node := { target with tags := manual, explicitTags := manual, tagProvenance := true }
          (.ok, { v with root := v.root.modifyAt (LeafTree.setLabel fun _ ↦ node) p })
      else
        match mergeNodeProvenance v.settings.tagBundles random source sourceBundles target
            inherited with
        | .error r => (r, v)
        | .ok (node, bundles) =>
          let merged := { v with
            root := v.root.modifyAt (LeafTree.setLabel fun _ ↦ node) p
            settings := { v.settings with tagBundles := bundles } }
          if commit then v.transact outcome merged else (.ok, merged)

end Vault

end SafeVault
