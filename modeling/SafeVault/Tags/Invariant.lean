import SafeVault.Tags.Keep
import SafeVault.Tags.Operations

/-!
# Every tag operation keeps the provenance of all nodes

The invariant of a vault: at every node of the live and of the committed tree, the tags are those
the provenance yields, with the bundles of the same state. Each operation is covered by one of three
facts: the edits of single nodes by `TagsKept.editNodes`, the edits of bundles by `TagsKept.refresh`,
the renamings by `TagsKept.renameTags`. The operations of a transfer also read a source vault, which
has to satisfy the invariant too.
-/

namespace SafeVault

open KeyedUnion (union)

variable {μ : Type} {bundles : List TagBundle} {node node' : NodeHeader}

/-! ## The invariant of a vault -/

/-- The invariant of a node; without a database there are no bundles. -/
structure NodeHeader.Kept (v3 : Bool) (bundles : List TagBundle) (node : NodeHeader) : Prop where
  tags : node.TagsKept bundles
  bare : v3 = false → node.tagBundles = []

/-- The invariant of a committed or live state. -/
def Snapshot.TagsKept (v3 : Bool) (s : Snapshot μ) : Prop :=
  s.root.AllLabel (NodeHeader.Kept v3 s.settings.tagBundles)

/-- The invariant of a vault. -/
structure Vault.TagsKept (v : Vault μ) : Prop where
  live : v.live.TagsKept v.v3
  committed : v.committed.TagsKept v.v3

theorem tagBundles_of_rebuild (h : rebuildBundleTags bundles node = some node') :
    node'.tagBundles = node.tagBundles := by
  cases hp : node.tagProvenance with
  | false =>
    rw [rebuildBundleTags_of_not hp, Option.some_inj] at h
    rw [h]
  | true =>
    obtain ⟨members, -, -, rfl⟩ := (rebuildBundleTags_eq_some_iff hp).mp h
    rfl

@[simp] theorem tagBundles_initializeTagProvenance :
    (initializeTagProvenance node).tagBundles = node.tagBundles := by
  rw [initializeTagProvenance]
  split_ifs <;> rfl

/-! ## Edits of one node -/

section Node

variable {v3 : Bool}

theorem kept_setNodeTags {input : List Bytes} (hk : node.Kept v3 bundles)
    (h : setNodeTags bundles (normaliseTags input) node = .ok (some node')) :
    node'.Kept v3 bundles := by
  refine ⟨tagsKept_setNodeTags h, fun hv ↦ ?_⟩
  rw [setNodeTags] at h
  split_ifs at h
  · cases h
  · split at h
    · next r hr =>
      cases h
      exact (tagBundles_of_rebuild hr).trans (hk.bare hv)
    · cases h

theorem kept_applyTag {tag : Bytes} {remove : Bool} (hk : node.Kept v3 bundles)
    (h : applyTag bundles tag remove node = .ok (some node')) : node'.Kept v3 bundles := by
  refine ⟨tagsKept_applyTag hk.tags h, fun hv ↦ ?_⟩
  rw [applyTag] at h
  by_cases hany : ((manualTags node).any (tagCiEqual · tag) != remove) = true
  · rw [if_pos hany] at h
    cases h
  rw [if_neg hany] at h
  dsimp only at h
  split at h
  · next r hr =>
    cases h
    rw [tagBundles_of_rebuild hr]
    exact tagBundles_initializeTagProvenance.trans (hk.bare hv)
  · cases h

theorem kept_applyBundle {id : NodeId} {remove : Bool} (hk : node.Kept true bundles)
    (h : applyBundle bundles id remove node = .ok (some node')) : node'.Kept true bundles :=
  ⟨tagsKept_applyBundle hk.tags h, fun hv ↦ absurd hv (by decide)⟩

theorem kept_pruneNode (hk : node.Kept v3 bundles) (keep : Bytes → Bool) :
    (pruneNode bundles keep node).Kept v3 bundles := by
  refine ⟨tagsKept_pruneNode hk.tags keep, fun hv ↦ ?_⟩
  rw [pruneNode]
  cases hr : rebuildBundleTags bundles { initializeTagProvenance node with
      explicitTags := (initializeTagProvenance node).explicitTags.filter keep } with
  | none => exact tagBundles_initializeTagProvenance.trans (hk.bare hv)
  | some r =>
    rw [Option.getD_some, tagBundles_of_rebuild hr]
    exact tagBundles_initializeTagProvenance.trans (hk.bare hv)

/-- A gallery or a medium that was never tagged. -/
theorem kept_untagged (hp : node.tagProvenance = false) (hb : node.tagBundles = [])
    (ht : node.tags = []) : node.Kept v3 bundles := by
  refine ⟨tagsKept_of_not hp hb ?_ ?_, fun _ ↦ hb⟩
  · rw [ht]
    exact List.nodup_nil
  · rw [ht]
    exact Nat.zero_le _

end Node

/-- Where the tags of the live state occur, as far as the invariant looks at them. -/
theorem mem_tagReferences {v : Vault μ} {t : Bytes} (h : (∃ n ∈ v.root.labels,
    t ∈ n.tags ∨ t ∈ n.explicitTags) ∨ ∃ b ∈ v.settings.tagBundles, t ∈ b.tags) :
    t ∈ v.tagReferences := by
  rw [Vault.tagReferences]
  simp only [List.mem_append, List.mem_flatMap]
  rcases h with ⟨n, hn, ht | ht⟩ | hb
  · exact Or.inl (Or.inl (Or.inl (Or.inl ⟨n, hn, ht⟩)))
  · exact Or.inl (Or.inl (Or.inl (Or.inr ⟨n, hn, ht⟩)))
  · exact Or.inl (Or.inl (Or.inr hb))

/-! ## The frame of the operations -/

namespace Vault.TagsKept

variable {v : Vault μ}

/-- The invariant of the live state is all that an undone or committed edit has to establish. -/
theorem transact {edited : Vault μ} {outcome : VaultResult} (hv : v.TagsKept)
    (hv3 : edited.v3 = v.v3) (hcommitted : edited.committed = v.committed)
    (hlive : edited.live.TagsKept v.v3) : (v.transact outcome edited).2.TagsKept := by
  have hedited : edited.TagsKept := ⟨hv3 ▸ hlive, by rw [hv3, hcommitted]; exact hv.committed⟩
  rw [Vault.transact]
  dsimp only
  split_ifs
  · rcases edited.commitIndex_snd outcome with h | h
    · rw [h]
      exact hedited
    · rw [h]
      exact ⟨hedited.live, hedited.live⟩
  · exact hv

/-- An early return leaves the vault as it was. -/
theorem guard {c : Prop} [Decidable c] {r : VaultResult} {x : VaultResult × Vault μ}
    (hv : v.TagsKept) (hx : ¬c → x.2.TagsKept) : (if c then (r, v) else x).2.TagsKept := by
  by_cases hc : c
  · rwa [if_pos hc]
  · rw [if_neg hc]
    exact hx hc

/-- A commit makes the live state the committed one, or changes nothing. -/
theorem commitIndex (hv : v.TagsKept) (outcome : VaultResult) :
    (v.commitIndex outcome).2.TagsKept := by
  rcases v.commitIndex_snd outcome with h | h
  · rwa [h]
  · rw [h]
    exact ⟨hv.live, hv.live⟩

end Vault.TagsKept

/-- What every edit of one node preserves, an edit of selected nodes preserves everywhere. -/
theorem allLabel_editSelection {P : NodeHeader → Prop}
    {edit : NodeHeader → Except VaultResult (Option NodeHeader)}
    (hedit : ∀ n n', P n → edit n = .ok (some n') → P n') {cancel : ℕ → Bool}
    {positions : List (Option (List ℕ))} {root root' : Node μ} {changed changed' : Bool}
    (hroot : root.AllLabel P)
    (h : Vault.editSelection edit cancel positions root changed = .ok (root', changed')) :
    root'.AllLabel P := by
  induction positions generalizing cancel root changed with
  | nil =>
    rw [Vault.editSelection] at h
    split_ifs at h
    · cases h
      exact hroot
  | cons position rest ih =>
    rw [Vault.editSelection] at h
    split_ifs at h
    split at h
    · exact ih hroot h
    · next p n hn =>
      split at h
      · cases h
      · exact ih hroot h
      · next n' hn' =>
        refine ih (hroot.modifyAt fun u hu hPu ↦ hPu.setLabel ?_) h
        obtain ⟨q, -, hq⟩ := Option.bind_eq_some_iff.mp hn
        obtain ⟨t, ht, hpt⟩ := Option.map_eq_some_iff.mp hq
        obtain ⟨rfl, rfl⟩ := Prod.mk.inj hpt
        exact hedit _ _ (hroot.get? ht).label hn'

namespace Vault.TagsKept

variable {v : Vault μ}

theorem editNodes {edit : NodeHeader → Except VaultResult (Option NodeHeader)}
    (hedit : ∀ n n', n.Kept v.v3 v.settings.tagBundles → edit n = .ok (some n') →
      n'.Kept v.v3 v.settings.tagBundles)
    {cancel : ℕ → Bool} {positions : List (Option (List ℕ))} {outcome : VaultResult}
    (hv : v.TagsKept) : (v.editNodes edit cancel positions outcome).2.TagsKept := by
  rw [Vault.editNodes]
  split
  · exact hv
  · exact hv
  · next root hroot =>
    exact hv.transact rfl rfl (allLabel_editSelection hedit hv.live hroot)

theorem refresh {bundles : List TagBundle} {removed : Option NodeId} {outcome : VaultResult}
    (hv : v.TagsKept) : (v.refresh bundles removed outcome).2.TagsKept := by
  rw [Vault.refresh]
  split
  · exact hv
  · next root hroot =>
    refine hv.transact rfl rfl (hv.live.mapLabel? (fun n n' hn hn' ↦ ?_) hroot)
    refine ⟨tagsKept_refreshNode hn.tags hn', fun hv3 ↦ ?_⟩
    rw [refreshNode] at hn'
    rw [tagBundles_of_rebuild hn', hn.bare hv3]
    rfl

/-! ## Assigning, bundles, pruning -/

theorem setTags {path : Bytes} {tags : List Bytes} {outcome : VaultResult} (hv : v.TagsKept) :
    (v.setTags path tags outcome).2.TagsKept := by
  rw [Vault.setTags]
  refine hv.guard fun _ ↦ ?_
  split
  · exact hv
  · exact hv.editNodes fun n n' hn ↦ kept_setNodeTags hn

theorem mutateTagsBatch {paths : List Bytes} {tag : Bytes} {remove : Bool} {cancel : ℕ → Bool}
    {outcome : VaultResult} (hv : v.TagsKept) :
    (v.mutateTagsBatch paths tag remove cancel outcome).2.TagsKept := by
  rw [Vault.mutateTagsBatch]
  refine hv.guard fun _ ↦ hv.guard fun _ ↦ hv.guard fun _ ↦ hv.guard fun _ ↦ ?_
  exact hv.editNodes fun n n' hn ↦ kept_applyTag hn

theorem mutateTag {path tag : Bytes} {remove : Bool} {outcome : VaultResult} (hv : v.TagsKept) :
    (v.mutateTag path tag remove outcome).2.TagsKept := by
  rw [Vault.mutateTag]
  exact hv.guard fun _ ↦ hv.guard fun _ ↦ hv.guard fun _ ↦ hv.mutateTagsBatch

theorem saveTagBundle {name originalName : Bytes} {tags : List Bytes} {newId : Option NodeId}
    {outcome : VaultResult} (hv : v.TagsKept) :
    (v.saveTagBundle name tags originalName newId outcome).2.TagsKept := by
  unfold Vault.saveTagBundle
  refine hv.guard fun _ ↦ hv.guard fun _ ↦ hv.guard fun _ ↦ hv.guard fun _ ↦ hv.guard fun _ ↦ ?_
  split
  · exact hv.refresh
  · refine hv.guard fun _ ↦ ?_
    cases newId with
    | none => exact hv
    | some id => exact hv.refresh

theorem deleteTagBundle {name : Bytes} {outcome : VaultResult} (hv : v.TagsKept) :
    (v.deleteTagBundle name outcome).2.TagsKept := by
  rw [Vault.deleteTagBundle]
  refine hv.guard fun _ ↦ ?_
  split
  · exact hv
  · exact hv.refresh

theorem v3_of_bundleAccess (h : v.bundleAccess = .ok) : v.v3 = true := by
  rw [Vault.bundleAccess] at h
  split_ifs at h with hunlocked hv3
  exact hv3

theorem applyTagBundle {paths : List Bytes} {name : Bytes} {remove : Bool} {cancel : ℕ → Bool}
    {outcome : VaultResult} (hv : v.TagsKept) :
    (v.applyTagBundle paths name remove cancel outcome).2.TagsKept := by
  rw [Vault.applyTagBundle]
  refine hv.guard fun haccess ↦ ?_
  have hv3 := v3_of_bundleAccess (not_not.mp haccess)
  split
  · exact hv
  · refine hv.editNodes fun n n' hn hn' ↦ ?_
    rw [hv3] at hn ⊢
    exact kept_applyBundle hn hn'

theorem pruneTags {keep : Option (Bytes → Bool)} {outcome : VaultResult} (hv : v.TagsKept) :
    (v.pruneTags keep outcome).2.TagsKept := by
  unfold Vault.pruneTags
  refine hv.guard fun _ ↦ ?_
  cases keep with
  | none => exact hv
  | some keep =>
    have hpruned : ({ v with
        root := v.root.mapLabel (pruneNode v.settings.tagBundles keep) } : Vault μ).TagsKept :=
      ⟨(LeafTree.allLabel_mapLabel _).mpr (hv.live.imp fun n hn ↦ kept_pruneNode hn keep),
        hv.committed⟩
    exact hpruned.guard fun _ ↦ hpruned.commitIndex outcome

/-! ## Renaming -/

/-- A renaming that keeps apart what differs, and together what agrees, on every tag of the live
state. -/
theorem renameTags {P : Bytes → Prop} {f : Bytes → Bytes} (hv : v.TagsKept)
    (hf : KeyedUnion.Respects tagCiEqual P f) (hP : ∀ t ∈ v.tagReferences, P t)
    (searches : List SavedSearch) : (v.renameTags f searches).live.TagsKept v.v3 := by
  have hnode : ∀ n ∈ v.root.labels,
      (renameNodeTags f n).Kept v.v3 (v.settings.tagBundles.map (TagBundle.rename f)) := by
    intro n hn
    obtain ⟨htags, hbare⟩ := LeafTree.allLabel_iff_forall_mem_labels.mp hv.live n hn
    refine ⟨htags.rename hf (fun t ht ↦ hP t ?_) (fun t ht ↦ hP t ?_) fun b hb t ht ↦ hP t ?_,
      hbare⟩
    · exact mem_tagReferences (Or.inl ⟨n, hn, Or.inl ht⟩)
    · exact mem_tagReferences (Or.inl ⟨n, hn, Or.inr ht⟩)
    · exact mem_tagReferences (Or.inr ⟨b, hb, ht⟩)
  exact (LeafTree.allLabel_mapLabel _).mpr (LeafTree.allLabel_iff_forall_mem_labels.mpr hnode)

/-- Without a collision `rename_tag` keeps apart what differs. -/
theorem respects_renamedTag (oldTag newTag : Bytes) :
    KeyedUnion.Respects tagCiEqual
      (fun t ↦ (!tagCiEqual t oldTag && tagCiEqual t newTag) = false)
      (renamedTag oldTag newTag) := by
  intro a b ha hb
  rw [renamedTag, renamedTag, Bool.eq_iff_iff]
  simp only [tagCiEqual, Bool.and_eq_false_iff, Bool.not_eq_false', AsciiFold.equal_iff,
    AsciiFold.equal_eq_false_iff] at ha hb ⊢
  split_ifs with hao hbo hbo
  · exact ⟨fun _ ↦ hao.trans hbo.symm, fun _ ↦ rfl⟩
  · refine ⟨fun h ↦ absurd h.symm (hb.resolve_left hbo), fun h ↦ absurd (h ▸ hao) hbo⟩
  · refine ⟨fun h ↦ absurd h (ha.resolve_left hao), fun h ↦ absurd (h.trans hbo) hao⟩
  · exact Iff.rfl

theorem carryOut {plan : Except VaultResult (Option (Vault μ))} {outcome : VaultResult}
    (hv : v.TagsKept) (hplan : ∀ edited, plan = .ok (some edited) →
      edited.v3 = v.v3 ∧ edited.committed = v.committed ∧ edited.live.TagsKept v.v3) :
    (v.carryOut outcome plan).2.TagsKept := by
  rcases plan with r | _ | edited
  · exact hv
  · exact hv
  · obtain ⟨hv3, hcommitted, hlive⟩ := hplan edited rfl
    exact hv.transact hv3 hcommitted hlive

theorem renameTag {oldTag newTag : Bytes}
    {rewrite : List SavedSearch → Except VaultResult (List SavedSearch)} {outcome : VaultResult}
    (hv : v.TagsKept) : (v.renameTag oldTag newTag rewrite outcome).2.TagsKept := by
  refine hv.carryOut fun edited h ↦ ?_
  obtain ⟨hcollision, searches, rfl⟩ := Vault.of_planRenameTag h
  exact ⟨rfl, rfl, hv.renameTags (respects_renamedTag _ _) hcollision searches⟩

theorem renameTagCategory {oldName newName : Bytes}
    {rewrite : List SavedSearch → Except VaultResult (List SavedSearch)} {outcome : VaultResult}
    (hv : v.TagsKept) : (v.renameTagCategory oldName newName rewrite outcome).2.TagsKept := by
  refine hv.carryOut fun edited h ↦ ?_
  obtain ⟨hold, hnew, hcolon, hstatus, i, searches, _, rfl, rfl⟩ := Vault.of_planRenameTagCategory h
  exact ⟨rfl, rfl, hv.renameTags (respects_recategorisedTag hold hnew hcolon)
    (recategorisable_of_categoryRenameStatus hstatus) searches⟩

end Vault.TagsKept

/-! ## Transfer -/

/-- Effective tags hold each key once, because the tags of the node do. -/
theorem nodup_effectiveTags {v : Vault μ} (hv : v.TagsKept) (path : Bytes) :
    (tagKeys (v.effectiveTags path)).Nodup := by
  rw [Vault.effectiveTags]
  split
  · exact List.nodup_nil
  · next t ht =>
    obtain ⟨p, -, hp⟩ := Option.bind_eq_some_iff.mp ht
    have hfirst : (tagKeys (union tagCiEqual t.label.tags v.root.label.tags)).Nodup :=
      KeyedUnion.nodup_union decides_tagCiEqual (hv.live.get? hp).label.tags.nodup
    generalize union tagCiEqual t.label.tags v.root.label.tags = out at hfirst
    induction Vault.ancestorPaths path generalizing out with
    | nil => exact hfirst
    | cons q paths ih =>
      refine ih _ ?_
      dsimp only
      split
      · split_ifs
        · exact KeyedUnion.nodup_union decides_tagCiEqual hfirst
        · exact hfirst
      · exact hfirst

theorem kept_of_findMedium {v : Vault μ} {gallery name : Bytes} {m : μ} (hv : v.TagsKept)
    (h : v.findMedium gallery name = some (node, m)) : node.Kept v.v3 v.settings.tagBundles := by
  obtain ⟨p, -, hp⟩ := Option.bind_eq_some_iff.mp h
  obtain ⟨g, hg, hfind⟩ := Option.bind_eq_some_iff.mp hp
  obtain ⟨c, hc, hcnode⟩ := List.exists_of_findSome?_eq_some hfind
  have hkept := (hv.live.get? hg).child hc
  cases c with
  | branch n cs => cases hcnode
  | leaf n m' =>
    dsimp only at hcnode
    split_ifs at hcnode
    obtain ⟨rfl, -⟩ := Prod.mk.inj (Option.some_inj.mp hcnode)
    exact hkept.label

/-- A copy of provenance keeps the invariant of a node, under the bundles it leaves. -/
theorem kept_copyTagProvenance {v3 : Bool} {access : VaultResult} {random : ℕ → Option NodeId}
    {source destination : NodeHeader} {sourceBundles bundles' : List TagBundle}
    (hsource : v3 = false → source.tagBundles = []) (hk : destination.Kept v3 bundles)
    (h : copyTagProvenance bundles access random source sourceBundles destination =
      .ok (node', bundles')) : node'.tagProvenance = true ∧ node'.Kept v3 bundles' := by
  obtain ⟨hp, htags⟩ := tagsKept_copyTagProvenance hk.tags h
  refine ⟨hp, htags, fun hv ↦ ?_⟩
  rw [copyTagProvenance, hsource hv, List.isEmpty_nil, if_pos rfl] at h
  cases h
  exact tagBundles_initializeTagProvenance.trans (hk.bare hv)

theorem kept_addInherited {v3 : Bool} {inherited : List Bytes} (hk : node.Kept v3 bundles)
    (hp : node.tagProvenance = true) (h : addInherited bundles inherited node = some node') :
    node'.Kept v3 bundles :=
  ⟨tagsKept_addInherited hk.tags hp h, fun hv ↦ (tagBundles_of_rebuild h).trans (hk.bare hv)⟩

namespace Vault.TagsKept

variable {v : Vault μ}

/-- Imported definitions come at the end, and disturb no node. -/
theorem appendBundles (hv : v.TagsKept) (extra : List TagBundle) :
    ({ v with settings := { v.settings with
      tagBundles := v.settings.tagBundles ++ extra } } : Vault μ).TagsKept :=
  ⟨hv.live.imp fun _ hn ↦ ⟨hn.tags.append extra, hn.bare⟩, hv.committed⟩

theorem setNode (hv : v.TagsKept) (p : List ℕ) (hnode : node.Kept v.v3 v.settings.tagBundles) :
    ({ v with root := v.root.modifyAt (LeafTree.setLabel fun _ ↦ node) p } : Vault μ).TagsKept :=
  ⟨hv.live.modifyAt fun _ _ hu ↦ hu.setLabel hnode, hv.committed⟩

theorem pushChild {child : Node μ} (hv : v.TagsKept) (p : List ℕ)
    (hchild : child.AllLabel (NodeHeader.Kept v.v3 v.settings.tagBundles)) :
    (v.pushChild child p).TagsKept := by
  refine ⟨hv.live.modifyAt fun u _ hu ↦ ?_, hv.committed⟩
  refine LeafTree.allLabel_branch.mpr ⟨hu.label, fun c hc ↦ ?_⟩
  rcases List.mem_append.mp hc with hc | hc
  · exact hu.child hc
  · rwa [List.mem_singleton.mp hc]

theorem discardCopiedMedia {gallery name : Bytes} (hv : v.TagsKept) :
    (v.discardCopiedMedia gallery name).TagsKept := by
  rw [Vault.discardCopiedMedia]
  split
  · exact hv
  · refine ⟨hv.live.modifyAt fun u _ hu ↦ ?_, hv.committed⟩
    cases u with
    | leaf h m => exact hu
    | branch h cs =>
      obtain ⟨hh, hcs⟩ := LeafTree.allLabel_branch.mp hu
      exact LeafTree.allLabel_branch.mpr ⟨hh, fun c hc ↦ hcs c (List.mem_of_mem_filter hc)⟩

theorem attachCopiedProvenance {provenance : NodeHeader} {sourceBundles : List TagBundle}
    {random : ℕ → Option NodeId} {gallery name : Bytes} {inherited : List Bytes}
    (hsource : v.v3 = false → provenance.tagBundles = []) (hv : v.TagsKept) :
    (v.attachCopiedProvenance provenance sourceBundles random gallery name
      inherited).2.TagsKept := by
  rw [Vault.attachCopiedProvenance]
  split
  · exact hv
  · next p target htarget =>
    obtain ⟨q, -, hq⟩ := Option.bind_eq_some_iff.mp htarget
    obtain ⟨t, ht, hpt⟩ := Option.map_eq_some_iff.mp hq
    obtain ⟨rfl, rfl⟩ := Prod.mk.inj hpt
    split
    · exact hv.discardCopiedMedia
    · next node bundles hcopy =>
      obtain ⟨extra, rfl⟩ := copyTagProvenance_append hcopy
      obtain ⟨hp, hnode⟩ := kept_copyTagProvenance hsource (hv.live.get? ht).label hcopy
      have hdst := hv.appendBundles extra
      dsimp only
      split
      · next node' hnode' =>
        exact hdst.setNode q (kept_addInherited hnode hp hnode')
      · exact hdst.discardCopiedMedia

/-- A copied medium satisfies the invariant; for its tags that needs the invariant of the source. -/
theorem copyOneMedium {src : Vault μ} {srcGallery name dstGallery : Bytes}
    {materializeInheritance : Bool} {staged : StagedMedium μ} {random : ℕ → Option NodeId}
    (hsrc : src.TagsKept) (hv : v.TagsKept) :
    (src.copyOneMedium srcGallery name dstGallery materializeInheritance staged random
      v).2.TagsKept := by
  rw [Vault.copyOneMedium]
  split
  · exact hv
  · next node m hfind =>
    refine hv.guard fun hbundles ↦ hv.guard fun _ ↦ hv.guard fun _ ↦ hv.guard fun _ ↦ ?_
    split
    · exact hv
    refine hv.guard fun _ ↦ hv.guard fun _ ↦ hv.guard fun _ ↦ ?_
    refine attachCopiedProvenance (fun hv3 ↦ ?_) (hv.pushChild _ ?_)
    · simpa [show v.v3 = false from hv3] using hbundles
    · refine LeafTree.allLabel_leaf.mpr ⟨tagsKept_of_not rfl rfl ?_ ?_, fun _ ↦ rfl⟩
      · refine List.Nodup.sublist ((List.take_sublist _ _).map _) ?_
        split_ifs
        · exact nodup_effectiveTags hsrc _
        · exact (kept_of_findMedium hsrc hfind).tags.nodup
      · rw [List.length_take]
        exact Nat.min_le_left _ _

/-- A merge satisfies the invariant whatever the source node is. -/
theorem mergeTagProvenance {source : NodeHeader} {sourceBundles : List TagBundle} {path : Bytes}
    {inherited : List Bytes} {commit : Bool} {random : ℕ → Option NodeId} {outcome : VaultResult}
    (hv : v.TagsKept) : (v.mergeTagProvenance source sourceBundles path inherited commit random
      outcome).2.TagsKept := by
  rw [Vault.mergeTagProvenance]
  refine hv.guard fun _ ↦ ?_
  split
  · exact hv
  · next p target htarget =>
    obtain ⟨q, -, hq⟩ := Option.bind_eq_some_iff.mp htarget
    obtain ⟨t, ht, hpt⟩ := Option.map_eq_some_iff.mp hq
    obtain ⟨rfl, rfl⟩ := Prod.mk.inj hpt
    have hnode := (hv.live.get? ht).label
    have hmanual : (tagKeys (mergedTags source t.label inherited)).Nodup :=
      nodup_mergedTags hnode.tags inherited
    refine hv.guard fun hcount ↦ ?_
    by_cases hv3 : v.v3 = true
    · rw [if_neg (by rw [hv3]; decide)]
      split
      · exact hv
      · next node bundles hmerge =>
        obtain ⟨⟨extra, rfl⟩, htags⟩ := tagsKept_mergeNodeProvenance hnode.tags hmerge
        have hmerged := (hv.appendBundles extra).setNode q
          ⟨htags, fun h ↦ absurd hv3 (by rw [h]; decide)⟩
        by_cases hcommit : commit = true
        · rw [if_pos hcommit]
          exact hv.transact rfl rfl hmerged.live
        · rw [if_neg hcommit]
          exact hmerged
    · rw [Bool.not_eq_true] at hv3
      have hbare := hnode.bare hv3
      rw [if_pos (by rw [hv3]; rfl)]
      refine hv.guard fun _ ↦ ?_
      by_cases hcommit : commit = true
      · rw [if_pos hcommit]
        exact hv.setTags
      · rw [if_neg hcommit]
        refine hv.setNode q ⟨?_, fun _ ↦ hbare⟩
        -- Without bundles the recomputation yields the explicit tags.
        exact tagsKept_of_rebuild (rebuildBundleTags_of_bare (by exact hbare) rfl
          (not_lt.mp hcount)) rfl hmanual

end Vault.TagsKept

end SafeVault
