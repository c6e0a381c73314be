import SafeVault.Tags.Invariant

/-!
# Runs of tag operations

A vault is reachable when tag operations, operations that do not touch tags, and reopening lead to it
from an empty vault. In a transfer the source is a reachable vault itself, possibly the same one.
The invariant of every reachable vault makes its tags the union they should be, and makes the check at
the next reading of a committed state succeed.

## Reading a committed state

A database stores the tags of a node with a flag for the explicit ones, and the identities of its
bundles. The reader takes all flagged tags as explicit and compares what they yield with the tags
stored.
-/

namespace SafeVault

variable {μ : Type}

/-! ## The reload check -/

/-- The flag of a stored tag, from `insert_node_tag`. -/
def explicitAssignment (node : NodeHeader) (tag : Bytes) : Bool :=
  node.tagBundles.isEmpty || !node.tagProvenance || node.explicitTags.any (tagCiEqual · tag)

/-- `read_node_assignments` after the node was stored. -/
def readNodeAssignments (node : NodeHeader) : NodeHeader :=
  { node with tagProvenance := true, explicitTags := node.tags.filter (explicitAssignment node) }

/-- `verify_bundle_tags`. -/
def verifyBundleTags (bundles : List TagBundle) (node : NodeHeader) : Bool :=
  match rebuildBundleTags bundles node with
  | none => false
  | some rebuilt =>
    node.tags.length == rebuilt.tags.length &&
      node.tags.all fun tag ↦ rebuilt.tags.any (tagCiEqual · tag)

/-- Reading a node back gives provenance that yields the same tags. -/
theorem tagsKept_readNodeAssignments {bundles : List TagBundle} {node : NodeHeader}
    (h : node.TagsKept bundles) : (readNodeAssignments node).TagsKept bundles := by
  by_cases hbare : (node.tagBundles.isEmpty || !node.tagProvenance) = true
  · -- All tags are flagged.
    have hb : node.tagBundles = [] := by
      rcases Bool.or_eq_true _ _ ▸ hbare with hb | hp
      · exact List.isEmpty_iff.mp hb
      · exact h.bare (Bool.not_eq_true' _ ▸ hp)
    have hall : node.tags.filter (explicitAssignment node) = node.tags :=
      List.filter_eq_self.mpr fun t _ ↦ by rw [explicitAssignment, hbare, Bool.true_or]
    refine tagsKept_of_rebuild (rebuildBundleTags_of_bare hb hall.symm h.count) rfl ?_
    change (tagKeys (node.tags.filter (explicitAssignment node))).Nodup
    rw [hall]
    exact h.nodup
  · -- The flagged tags are the explicit ones, so nothing changes.
    have hp : node.tagProvenance = true := by
      rw [Bool.or_eq_true, not_or, Bool.not_eq_true', Bool.not_eq_false] at hbare
      exact hbare.2
    have hflag : explicitAssignment node = fun t ↦ node.explicitTags.any (tagCiEqual · t) := by
      funext t
      rw [explicitAssignment, Bool.eq_false_iff.mpr hbare, Bool.false_or]
    have hman := h.manual
    rw [if_pos hp] at hman
    obtain ⟨members, -, -, htags⟩ := (rebuildBundleTags_eq_some_iff hp).mp h.rebuilt
    have hexplicit : node.tags.filter (explicitAssignment node) = node.explicitTags := by
      rw [hflag, congrArg NodeHeader.tags htags]
      exact KeyedUnion.filter_union decides_tagCiEqual hman
    have hread : readNodeAssignments node = node := by
      rw [readNodeAssignments, hexplicit, ← hp]
    rw [hread]
    exact h

theorem verifyBundleTags_of_tagsKept {bundles : List TagBundle} {node : NodeHeader}
    (h : node.TagsKept bundles) : verifyBundleTags bundles node = true := by
  rw [verifyBundleTags, h.rebuilt, Bool.and_eq_true, beq_iff_eq, List.all_eq_true]
  exact ⟨rfl, fun t ht ↦ List.any_eq_true.mpr ⟨t, ht, AsciiFold.equal_self t⟩⟩

/-! ## Operations -/

/-- The operations that change tags, with their arguments and the outcome of their commit. -/
inductive TagOp (μ : Type) where
  | setTags (path : Bytes) (tags : List Bytes) (outcome : VaultResult)
  | addTag (path tag : Bytes) (outcome : VaultResult)
  | removeTag (path tag : Bytes) (outcome : VaultResult)
  | mutateTagsBatch (paths : List Bytes) (tag : Bytes) (remove : Bool) (cancel : ℕ → Bool)
    (outcome : VaultResult)
  | saveTagBundle (name : Bytes) (tags : List Bytes) (originalName : Bytes) (newId : Option NodeId)
    (outcome : VaultResult)
  | deleteTagBundle (name : Bytes) (outcome : VaultResult)
  | applyTagBundle (paths : List Bytes) (name : Bytes) (remove : Bool) (cancel : ℕ → Bool)
    (outcome : VaultResult)
  | pruneTags (keep : Option (Bytes → Bool)) (outcome : VaultResult)
  | renameTag (oldTag newTag : Bytes)
    (rewrite : List SavedSearch → Except VaultResult (List SavedSearch)) (outcome : VaultResult)
  | renameTagCategory (oldName newName : Bytes)
    (rewrite : List SavedSearch → Except VaultResult (List SavedSearch)) (outcome : VaultResult)
  | copyOneMedium (src : Vault μ) (srcGallery name dstGallery : Bytes) (materialize : Bool)
    (staged : Vault.StagedMedium μ) (random : ℕ → Option NodeId)
  | mergeTagProvenance (source : NodeHeader) (sourceBundles : List TagBundle) (path : Bytes)
    (inherited : List Bytes) (commit : Bool) (random : ℕ → Option NodeId) (outcome : VaultResult)
  | commitStaged (outcome : VaultResult)

namespace TagOp

/-- Run an operation on a vault. -/
def apply : TagOp μ → Vault μ → VaultResult × Vault μ
  | setTags path tags outcome, v => v.setTags path tags outcome
  | addTag path tag outcome, v => Vault.addTag path tag outcome v
  | removeTag path tag outcome, v => Vault.removeTag path tag outcome v
  | mutateTagsBatch paths tag remove cancel outcome, v =>
    v.mutateTagsBatch paths tag remove cancel outcome
  | saveTagBundle name tags originalName newId outcome, v =>
    v.saveTagBundle name tags originalName newId outcome
  | deleteTagBundle name outcome, v => v.deleteTagBundle name outcome
  | applyTagBundle paths name remove cancel outcome, v =>
    v.applyTagBundle paths name remove cancel outcome
  | pruneTags keep outcome, v => v.pruneTags keep outcome
  | renameTag oldTag newTag rewrite outcome, v => v.renameTag oldTag newTag rewrite outcome
  | renameTagCategory oldName newName rewrite outcome, v =>
    v.renameTagCategory oldName newName rewrite outcome
  | copyOneMedium src srcGallery name dstGallery materialize staged random, v =>
    src.copyOneMedium srcGallery name dstGallery materialize staged random v
  | mergeTagProvenance source sourceBundles path inherited commit random outcome, v =>
    v.mergeTagProvenance source sourceBundles path inherited commit random outcome
  | commitStaged outcome, v => v.commitIndex outcome

/-- The vault that an operation reads from. -/
def source? : TagOp μ → Option (Vault μ)
  | copyOneMedium src _ _ _ _ _ _ => some src
  | _ => none

end TagOp

namespace Vault

/-- **One step.** Every operation keeps the invariant of its vault, given that of its source. -/
theorem TagsKept.apply {v : Vault μ} (hv : v.TagsKept) (op : TagOp μ)
    (hsrc : ∀ s, op.source? = some s → s.TagsKept) : (op.apply v).2.TagsKept := by
  cases op with
  | setTags => exact hv.setTags
  | addTag => exact hv.mutateTag
  | removeTag => exact hv.mutateTag
  | mutateTagsBatch => exact hv.mutateTagsBatch
  | saveTagBundle => exact hv.saveTagBundle
  | deleteTagBundle => exact hv.deleteTagBundle
  | applyTagBundle => exact hv.applyTagBundle
  | pruneTags => exact hv.pruneTags
  | renameTag => exact hv.renameTag
  | renameTagCategory => exact hv.renameTagCategory
  | copyOneMedium src => exact TagsKept.copyOneMedium (hsrc src rfl) hv
  | mergeTagProvenance => exact hv.mergeTagProvenance
  | commitStaged outcome => exact hv.commitIndex outcome

/-! ## Reachable vaults -/

/-- A vault as it is created. -/
def fresh (v3 : Bool) (rootId : NodeId) : Vault μ where
  unlocked := true
  v3
  legacyReadOnly := false
  root := .branch { name := [], nodeId := rootId } []
  settings := .seeded
  searches := []
  committed := ⟨.branch { name := [], nodeId := rootId } [], .seeded, []⟩

end Vault

/-- Two nodes with the same tags, from the same sources. -/
structure NodeHeader.SameTags (n m : NodeHeader) : Prop where
  tags : n.tags = m.tags
  tagProvenance : n.tagProvenance = m.tagProvenance
  explicitTags : n.explicitTags = m.explicitTags
  tagBundles : n.tagBundles = m.tagBundles

namespace Vault

/-- The effect of an operation that does not touch tags: it may create untagged nodes and move,
rename, change or drop others, edit the rest of the settings, and commit. -/
structure Restructured (v v' : Vault μ) : Prop where
  v3 : v'.v3 = v.v3
  bundles : v'.settings.tagBundles = v.settings.tagBundles
  nodes : ∀ n ∈ v'.root.labels, n.SameTags { name := [] } ∨ ∃ m ∈ v.root.labels, n.SameTags m
  committed : v'.committed = v.committed ∨ v'.committed = v'.live

/-- Creating a gallery is such an operation, whether its commit succeeds or not. -/
theorem restructured_createGallery {v : Vault μ} {ids : ℕ → NodeId} {path : Bytes}
    {root : Node μ} (h : createGallery ids v.root path = .ok root) (outcome : VaultResult) :
    v.Restructured (({ v with root } : Vault μ).commitIndex outcome).2 := by
  have hnodes : root.AllLabel fun n ↦
      n.SameTags { name := [] } ∨ ∃ m ∈ v.root.labels, n.SameTags m := by
    refine allLabel_createGallery (fun _ _ ↦ Or.inl ⟨rfl, rfl, rfl, rfl⟩) ?_ h
    exact LeafTree.allLabel_iff_forall_mem_labels.mpr fun n hn ↦ Or.inr ⟨n, hn, rfl, rfl, rfl, rfl⟩
  have hlabels := LeafTree.allLabel_iff_forall_mem_labels.mp hnodes
  rcases ({ v with root } : Vault μ).commitIndex_snd outcome with hc | hc
  · rw [hc]
    exact ⟨rfl, rfl, hlabels, Or.inl rfl⟩
  · rw [hc]
    exact ⟨rfl, rfl, hlabels, Or.inr rfl⟩

/-- Close the vault and open it again: the live state is what was committed, read back. -/
def reopen (v : Vault μ) : Vault μ :=
  let s := v.committed
  let read : Snapshot μ :=
    if v.v3 then { s with root := s.root.mapLabel readNodeAssignments }
    else { s with root := s.root.mapLabel NodeHeader.carried, settings := s.settings.carried }
  { v with root := read.root, settings := read.settings, searches := read.searches,
           committed := read }

/-- The vaults that some run leads to. -/
inductive Reachable : Vault μ → Prop
  | fresh (v3 : Bool) (rootId : NodeId) : Reachable (fresh v3 rootId)
  | step {v : Vault μ} (op : TagOp μ) (hsrc : ∀ s, op.source? = some s → Reachable s) :
      Reachable v → Reachable (op.apply v).2
  | restructure {v v' : Vault μ} : v.Restructured v' → Reachable v → Reachable v'
  | reopen {v : Vault μ} : Reachable v → Reachable v.reopen

end Vault

theorem NodeHeader.SameTags.tagsKept {n m : NodeHeader} {bundles : List TagBundle}
    (h : n.SameTags m) (hm : m.TagsKept bundles) : n.TagsKept bundles := by
  obtain ⟨htags, hprov, hexplicit, hbundles⟩ := h
  refine ⟨?_, ?_, ?_, ?_⟩
  · cases hp : m.tagProvenance with
    | false => exact rebuildBundleTags_of_not (hprov.trans hp)
    | true =>
      obtain ⟨members, hmem, hlen, heq⟩ := (rebuildBundleTags_eq_some_iff hp).mp hm.rebuilt
      refine (rebuildBundleTags_eq_some_iff (hprov.trans hp)).mpr ⟨members, ?_, ?_, ?_⟩
      · rwa [hbundles]
      · rwa [hexplicit]
      · have htags' : n.tags = KeyedUnion.union tagCiEqual n.explicitTags members := by
          rw [hexplicit]
          exact htags.trans (congrArg NodeHeader.tags heq)
        exact congrArg (fun tags ↦ { n with tags }) htags'
  · rw [hprov, hexplicit, htags]
    exact hm.manual
  · rw [htags]
    exact hm.count
  · rw [hprov, hbundles]
    exact hm.bare

namespace Vault

theorem tagsKept_fresh (v3 : Bool) (rootId : NodeId) : (fresh v3 rootId : Vault μ).TagsKept := by
  have hroot : (LeafTree.branch { name := [], nodeId := rootId } [] : Node μ).AllLabel
      (NodeHeader.Kept v3 []) :=
    LeafTree.allLabel_branch.mpr ⟨kept_untagged rfl rfl rfl, fun c hc ↦ absurd hc List.not_mem_nil⟩
  exact ⟨hroot, hroot⟩

theorem TagsKept.restructure {v v' : Vault μ} (hv : v.TagsKept) (h : v.Restructured v') :
    v'.TagsKept := by
  have hlive : v'.live.TagsKept v'.v3 := by
    refine LeafTree.allLabel_iff_forall_mem_labels.mpr fun n hn ↦ ?_
    rw [h.v3]
    change n.Kept v.v3 v'.settings.tagBundles
    rw [h.bundles]
    rcases h.nodes n hn with hsame | ⟨m, hm, hsame⟩
    · have hempty : NodeHeader.Kept v.v3 v.settings.tagBundles { name := [] } :=
        kept_untagged rfl rfl rfl
      exact ⟨hsame.tagsKept hempty.tags, fun _ ↦ hsame.tagBundles⟩
    · obtain ⟨htags, hbare⟩ := LeafTree.allLabel_iff_forall_mem_labels.mp hv.live m hm
      exact ⟨hsame.tagsKept htags, fun hv3 ↦ hsame.tagBundles.trans (hbare hv3)⟩
  refine ⟨hlive, ?_⟩
  rcases h.committed with hc | hc
  · rw [hc, h.v3]
    exact hv.committed
  · rwa [hc]

theorem TagsKept.reopen {v : Vault μ} (hv : v.TagsKept) : v.reopen.TagsKept := by
  have hread : v.reopen.committed.TagsKept v.v3 := by
    rw [Vault.reopen]
    by_cases hv3 : v.v3 = true
    · rw [if_pos hv3]
      refine (LeafTree.allLabel_mapLabel _).mpr (hv.committed.imp fun n hn ↦ ?_)
      exact ⟨tagsKept_readNodeAssignments hn.tags, hn.bare⟩
    · rw [if_neg hv3]
      refine (LeafTree.allLabel_mapLabel _).mpr (hv.committed.imp fun n hn ↦ ?_)
      exact ⟨tagsKept_of_not rfl rfl hn.tags.nodup hn.tags.count, fun _ ↦ rfl⟩
  exact ⟨hread, hread⟩

/-- **Every run.** The invariant holds in every reachable vault. -/
theorem Reachable.tagsKept {v : Vault μ} (hv : v.Reachable) : v.TagsKept := by
  induction hv with
  | fresh v3 rootId => exact tagsKept_fresh v3 rootId
  | step op hsrc _ ihsrc ih => exact ih.apply op ihsrc
  | restructure h _ ih => exact ih.restructure h
  | reopen _ ih => exact ih.reopen

/-- In every reachable vault the tags of each node are, up to case, its explicit tags together with
the members of its bundles, each once; and reading the node back from the committed state passes the
check. -/
theorem Reachable.tags_eq_union {v : Vault μ} (hv : v.Reachable) {s : Snapshot μ}
    (hs : s = v.live ∨ s = v.committed) {node : NodeHeader} (hnode : node ∈ s.root.labels) :
    ∃ members, bundleMembers s.settings.tagBundles node.tagBundles = some members ∧
      (∀ key, key ∈ tagKeys node.tags ↔ key ∈ tagKeys (ownTags node) ∨ key ∈ tagKeys members) ∧
      (tagKeys node.tags).Nodup ∧
      verifyBundleTags s.settings.tagBundles (readNodeAssignments node) = true := by
  have hsnap : s.TagsKept v.v3 := by
    rcases hs with rfl | rfl
    · exact hv.tagsKept.live
    · exact hv.tagsKept.committed
  have hkept := (LeafTree.allLabel_iff_forall_mem_labels.mp hsnap node hnode).tags
  obtain ⟨members, hmembers, hunion⟩ := hkept.exists_members
  exact ⟨members, hmembers, hunion, hkept.nodup,
    verifyBundleTags_of_tagsKept (tagsKept_readNodeAssignments hkept)⟩

/-- A vault with the root tagged and a bundle to apply. -/
def bundled : Vault Unit :=
  ((TagOp.saveTagBundle (ascii "x") [ascii "b"] [] (some .zero) .ok).apply
    ((TagOp.setTags [] [ascii "a"] .ok).apply (fresh true .zero)).2).2

theorem reachable_bundled : bundled.Reachable :=
  .step _ (fun _ h ↦ nomatch h) (.step _ (fun _ h ↦ nomatch h) (.fresh true .zero))

/-- The vault with the bundle applied to the root. -/
def bundledOnce : Vault Unit :=
  (bundled.applyTagBundle [[]] (ascii "x") false (fun _ ↦ false) .ok).2

theorem reachable_bundledOnce : bundledOnce.Reachable :=
  .step (.applyTagBundle [[]] (ascii "x") false (fun _ ↦ false) .ok) (fun _ h ↦ nomatch h)
    reachable_bundled

/-- The vault with a gallery in its root. -/
def bundledGallery : Vault Unit :=
  match createGallery (fun _ ↦ .zero) bundledOnce.root (ascii "g") with
  | .ok root => (({ bundledOnce with root } : Vault Unit).commitIndex .ok).2
  | .error _ => bundledOnce

theorem reachable_bundledGallery : bundledGallery.Reachable := by
  rw [bundledGallery]
  split
  · next root hroot => exact .restructure (restructured_createGallery hroot .ok) reachable_bundledOnce
  · exact reachable_bundledOnce

/-- A bundle is applied, a gallery is created, the member of the bundle is assigned in another case, a
commit of an edited bundle fails, and the vault is read again. -/
theorem tags_eq_union_bundledGallery :
    let v : Vault Unit :=
      ((TagOp.saveTagBundle (ascii "x") [ascii "c"] (ascii "x") none .ioError).apply
        ((TagOp.setTags [] [ascii "a", ascii "B"] .ok).apply bundledGallery).2).2.reopen
    let node : NodeHeader :=
      { name := [], tags := [ascii "a", ascii "B"], tagProvenance := true,
        explicitTags := [ascii "a", ascii "B"], tagBundles := [.zero] }
    v.live.root.labels.length = 2 ∧
      bundleMembers v.live.settings.tagBundles node.tagBundles = some [ascii "b"] ∧
      ∃ members, bundleMembers v.live.settings.tagBundles node.tagBundles = some members ∧
        (∀ key, key ∈ tagKeys node.tags ↔ key ∈ tagKeys (ownTags node) ∨ key ∈ tagKeys members) ∧
        (tagKeys node.tags).Nodup ∧
        verifyBundleTags v.live.settings.tagBundles (readNodeAssignments node) = true := by
  intro v node
  have hv : v.Reachable :=
    .reopen (.step _ (fun _ h ↦ nomatch h) (.step _ (fun _ h ↦ nomatch h) reachable_bundledGallery))
  exact ⟨by decide +kernel, by decide +kernel, hv.tags_eq_union (.inl rfl) (by decide +kernel)⟩

end Vault

end SafeVault
