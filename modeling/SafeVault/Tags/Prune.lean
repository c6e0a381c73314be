import SafeVault.Lib.Places
import SafeVault.Tags.BundleUndo

/-!
# Pruning tags

Pruning takes the explicit tags that a predicate rejects from every node and recomputes the tags. A
rejected tag that an applied bundle supplies comes back that way, and is counted as removed if it was
explicit as well. So the tags left are those the predicate accepts exactly if no bundle of a node
supplies, in any spelling, a rejected tag of the node.
-/

namespace SafeVault

open KeyedUnion (union)

variable {bundles : List TagBundle} {node : NodeHeader} {keep : Bytes → Bool}

/-! ## The counts -/

/-- `PruneTagsStats`. -/
structure PruneTagsStats where
  tagsRemoved : ℕ := 0
  nodesTouched : ℕ := 0
  deriving DecidableEq

/-- What `prune_node_tags` adds to the counts at one node. -/
def PruneTagsStats.note (keep : Bytes → Bool) (stats : PruneTagsStats) (node : NodeHeader) :
    PruneTagsStats :=
  if 0 < prunedTags keep node then
    ⟨stats.tagsRemoved + prunedTags keep node, stats.nodesTouched + 1⟩
  else stats

namespace Vault

variable {μ : Type}

/-- The counts that `Vault::prune_tags` reports. -/
def pruneTagsStats (keep : Option (Bytes → Bool)) (v : Vault μ) : PruneTagsStats :=
  if v.writable ≠ .ok then {}
  else
    match keep with
    | none => {}
    | some keep => v.root.labels.foldl (PruneTagsStats.note keep) {}

end Vault

theorem foldl_note (nodes : List NodeHeader) (stats : PruneTagsStats) :
    nodes.foldl (PruneTagsStats.note keep) stats =
      ⟨stats.tagsRemoved + (nodes.map (prunedTags keep)).sum,
        stats.nodesTouched + nodes.countP fun n ↦ decide (0 < prunedTags keep n)⟩ := by
  induction nodes generalizing stats with
  | nil => rfl
  | cons n nodes ih =>
    rw [List.foldl_cons, ih, PruneTagsStats.note, List.map_cons, List.sum_cons, List.countP_cons]
    split_ifs with h hd
    · simp only [PruneTagsStats.mk.injEq]
      omega
    · exact absurd (decide_eq_true h) hd
    · exact absurd (of_decide_eq_true ‹_›) h
    · simp only [PruneTagsStats.mk.injEq]
      omega

/-! ## One node -/

/-- The tags of a node before and after, by the tags that count as assigned and the members of the
bundles. -/
theorem tags_pruneNode (hk : node.TagsKept bundles) (keep : Bytes → Bool) :
    ∃ members, bundleMembers bundles node.tagBundles = some members ∧
      node.tags = union tagCiEqual (manualTags node) members ∧
      (pruneNode bundles keep node).tags =
        union tagCiEqual ((manualTags node).filter keep) members := by
  have hk' := tagsKept_initializeTagProvenance hk
  obtain ⟨hp, -, hbundles, hmanual⟩ := nodup_initializeTagProvenance hk
  obtain ⟨members, hmem, -, htags⟩ := (rebuildBundleTags_eq_some_iff hp).mp hk'.rebuilt
  have hsame : (initializeTagProvenance node).tags = node.tags := by
    rw [initializeTagProvenance]
    split_ifs <;> rfl
  obtain ⟨node', hnode'⟩ := Option.isSome_iff_exists.mp (isSome_rebuildBundleTags_filter hk' hp keep)
  obtain ⟨members', hmem', -, htags'⟩ := (rebuildBundleTags_eq_some_iff (by exact hp)).mp hnode'
  obtain rfl := Option.some_inj.mp (hmem.symm.trans hmem')
  refine ⟨members, hbundles ▸ hmem, ?_, ?_⟩
  · rw [← hsame, ← hmanual]
    exact congrArg NodeHeader.tags htags
  · rw [pruneNode, hnode', Option.getD_some, htags', ← hmanual]

/-- No bundle of the node supplies a rejected tag of the node, in any spelling. -/
def PruneClear (bundles : List TagBundle) (keep : Bytes → Bool) (node : NodeHeader) : Prop :=
  ∀ t ∈ node.tags, keep t = false → ∀ id ∈ node.tagBundles, ∀ b, findBundle bundles id = some b →
    AsciiFold.fold t ∉ tagKeys b.tags

theorem pruneClear_iff {members : List Bytes}
    (hmem : bundleMembers bundles node.tagBundles = some members) :
    PruneClear bundles keep node ↔
      ∀ t ∈ node.tags, keep t = false → AsciiFold.fold t ∉ members.map AsciiFold.fold := by
  refine forall₃_congr fun t _ _ ↦ ?_
  change _ ↔ AsciiFold.fold t ∉ tagKeys members
  rw [mem_tagKeys_bundleMembers hmem]
  push Not
  rfl

theorem prunedTags_eq_countP (hk : node.TagsKept bundles) :
    prunedTags keep node = (manualTags node).countP fun t ↦ !keep t := by
  obtain ⟨-, -, -, hmanual⟩ := nodup_initializeTagProvenance hk
  rw [prunedTags, hmanual, ← List.countP_eq_length_filter]

/-- **A node that is clear** keeps exactly the accepted tags, in order. -/
theorem tags_pruneNode_of_clear (hk : node.TagsKept bundles) (h : PruneClear bundles keep node) :
    (pruneNode bundles keep node).tags = node.tags.filter keep ∧
      prunedTags keep node = node.tags.countP fun t ↦ !keep t := by
  obtain ⟨members, hmem, htags, hpruned⟩ := tags_pruneNode hk keep
  have hclear := (pruneClear_iff hmem).mp h
  rw [htags] at hclear
  constructor
  · rw [hpruned, htags, KeyedUnion.union_filter decides_tagCiEqual hclear]
  · rw [prunedTags_eq_countP hk, htags, KeyedUnion.countP_union decides_tagCiEqual
      hk.nodup_manualTags fun t ht hrejected ↦ hclear t ht (Bool.not_eq_true' _ ▸ hrejected)]

/-- A node that is not clear has a rejected tag left, or an accepted one that it did not have. -/
theorem pruneClear_of_tags (hk : node.TagsKept bundles)
    (hrejected : ∀ t ∈ (pruneNode bundles keep node).tags, keep t = true)
    (haccepted : ∀ t, keep t = true → t ∈ (pruneNode bundles keep node).tags → t ∈ node.tags) :
    PruneClear bundles keep node := by
  obtain ⟨members, hmem, htags, hpruned⟩ := tags_pruneNode hk keep
  rw [pruneClear_iff hmem]
  intro t ht hreject hsupplied
  have hback : AsciiFold.fold t ∈ tagKeys (pruneNode bundles keep node).tags := by
    rw [hpruned]
    exact (KeyedUnion.mem_keys_union decides_tagCiEqual).mpr (.inr hsupplied)
  obtain ⟨t', ht', hkey⟩ := List.mem_map.mp hback
  have hkeep := hrejected t' ht'
  -- The two spellings are one tag of the node, so they are the same.
  have hsame := List.inj_on_of_nodup_map hk.nodup (haccepted t' hkeep ht') ht hkey
  rw [hsame, hreject] at hkeep
  exact Bool.false_ne_true hkeep

/-! ## The whole tree -/

namespace Vault

variable {μ : Type} {v v' : Vault μ} {outcome : VaultResult}

/-- What pruning should do: no rejected tag is left, the accepted ones are where they were, and the
counts are those of the tags that went and of the nodes that lost one. -/
structure Pruned (keep : Bytes → Bool) (v v' : Vault μ) (stats : PruneTagsStats) : Prop where
  rejected : ∀ n ∈ v'.root.labels, ∀ t ∈ n.tags, keep t = true
  accepted : ∀ p u, v.root.get? p = some u → ∃ u', v'.root.get? p = some u' ∧
    ∀ t, keep t = true → (t ∈ u'.label.tags ↔ t ∈ u.label.tags)
  tagsRemoved : (v'.root.labels.map (·.tags.length)).sum + stats.tagsRemoved =
    (v.root.labels.map (·.tags.length)).sum
  nodesTouched : stats.nodesTouched =
    (v.root.labels.zip v'.root.labels).countP fun p ↦ p.1.tags != p.2.tags

/-- A pruning that reports success has pruned every node. -/
theorem root_pruneTags (h : v.pruneTags (some keep) outcome = (.ok, v')) :
    v'.root = v.root.mapLabel (pruneNode v.settings.tagBundles keep) ∧
      v.pruneTagsStats (some keep) = v.root.labels.foldl (PruneTagsStats.note keep) {} := by
  rw [pruneTags] at h
  rw [pruneTagsStats]
  split_ifs at h ⊢ with hwritable hnothing
  · exact absurd (congrArg Prod.fst h) hwritable
  · exact ⟨(congrArg (fun r ↦ r.2.root) h).symm, rfl⟩
  · refine ⟨(congrArg (fun r ↦ r.2.root) h).symm.trans ?_, rfl⟩
    rcases commitIndex_snd outcome
      { v with root := v.root.mapLabel (pruneNode v.settings.tagBundles keep) } with hc | hc
    · exact congrArg Vault.root hc
    · exact congrArg Vault.root hc

/-- Counting over all nodes what goes at each. -/
theorem sum_length_filter {nodes : List NodeHeader} {f : NodeHeader → NodeHeader}
    (h : ∀ n ∈ nodes, (f n).tags.length + prunedTags keep n = n.tags.length) :
    ((nodes.map f).map (·.tags.length)).sum + (nodes.map (prunedTags keep)).sum =
      (nodes.map (·.tags.length)).sum := by
  induction nodes with
  | nil => rfl
  | cons n nodes ih =>
    obtain ⟨hn, hnodes⟩ := List.forall_mem_cons.mp h
    have hrest := ih hnodes
    simp only [List.map_cons, List.sum_cons]
    omega

theorem countP_changed {nodes : List NodeHeader} {f : NodeHeader → NodeHeader}
    (h : ∀ n ∈ nodes, (n.tags != (f n).tags) = decide (0 < prunedTags keep n)) :
    (nodes.countP fun n ↦ decide (0 < prunedTags keep n)) =
      (nodes.zip (nodes.map f)).countP fun p ↦ p.1.tags != p.2.tags := by
  induction nodes with
  | nil => rfl
  | cons n nodes ih =>
    obtain ⟨hn, hnodes⟩ := List.forall_mem_cons.mp h
    rw [List.map_cons, List.zip_cons_cons, List.countP_cons, List.countP_cons, ih hnodes, hn]

/-- **What pruning achieves.** A pruning of a reachable vault that reports success does what it should
exactly if no node has a rejected tag that one of its bundles supplies, in any spelling. -/
theorem pruned_iff (hv : v.Reachable) (h : v.pruneTags (some keep) outcome = (.ok, v')) :
    Pruned keep v v' (v.pruneTagsStats (some keep)) ↔
      ∀ n ∈ v.root.labels, PruneClear v.settings.tagBundles keep n := by
  obtain ⟨hroot, hstats⟩ := root_pruneTags h
  have hkept : ∀ n ∈ v.root.labels, n.TagsKept v.settings.tagBundles := fun n hn ↦
    (LeafTree.allLabel_iff_forall_mem_labels.mp hv.tagsKept.live n hn).tags
  have hlabels : v'.root.labels = v.root.labels.map (pruneNode v.settings.tagBundles keep) := by
    rw [hroot, LeafTree.labels_mapLabel]
  constructor
  · intro hpruned n hn
    obtain ⟨p, u, hu, rfl⟩ := LeafTree.mem_labels.mp hn
    obtain ⟨u', hu', hsame⟩ := hpruned.accepted p u hu
    have hlabel : u'.label = pruneNode v.settings.tagBundles keep u.label := by
      rw [hroot, LeafTree.get?_mapLabel, hu, Option.map_some, Option.some_inj] at hu'
      rw [← hu', LeafTree.label_mapLabel]
    refine pruneClear_of_tags (hkept _ hn) (fun t ht ↦ ?_) fun t hkeep ht ↦ ?_
    · exact hpruned.rejected _ (hlabels ▸ List.mem_map_of_mem hn) t ht
    · exact (hsame t hkeep).mp (hlabel ▸ ht)
  · intro hclear
    have htags := fun n hn ↦ tags_pruneNode_of_clear (hkept n hn) (hclear n hn)
    refine ⟨?_, fun p u hu ↦ ?_, ?_, ?_⟩
    · rw [hlabels]
      intro m hm t ht
      obtain ⟨n, hn, rfl⟩ := List.mem_map.mp hm
      rw [(htags n hn).1] at ht
      exact (List.mem_filter.mp ht).2
    · refine ⟨u.mapLabel (pruneNode v.settings.tagBundles keep), ?_, fun t hkeep ↦ ?_⟩
      · rw [hroot, LeafTree.get?_mapLabel, hu, Option.map_some]
      · rw [LeafTree.label_mapLabel, (htags _ (LeafTree.mem_labels.mpr ⟨p, u, hu, rfl⟩)).1,
          List.mem_filter, and_iff_left hkeep]
    · rw [hlabels, hstats, foldl_note, Nat.zero_add]
      refine sum_length_filter fun n hn ↦ ?_
      rw [(htags n hn).1, (htags n hn).2, ← List.countP_eq_length_filter]
      simpa using (List.length_eq_countP_add_countP keep (l := n.tags)).symm
    · rw [hlabels, hstats, foldl_note]
      refine (Nat.zero_add _).trans (countP_changed fun n hn ↦ ?_)
      rw [(htags n hn).1, (htags n hn).2, Bool.eq_iff_iff, bne_iff_ne, decide_eq_true_iff,
        List.countP_pos_iff, ne_comm, Ne, List.filter_eq_self]
      simp

/-- The root has tags of its own and those of a bundle, which supplies nothing that is rejected. -/
theorem pruned_bundledOnce :
    let v : Vault Unit := ((TagOp.setTags [] [ascii "a", ascii "c"] .ok).apply bundledOnce).2
    let keep : Bytes → Bool := fun t ↦ t != ascii "a"
    Pruned keep v (v.pruneTags (some keep) .ok).2 (v.pruneTagsStats (some keep)) ∧
      (v.pruneTags (some keep) .ok).2.root.label.tags = [ascii "c", ascii "b"] ∧
      v.pruneTagsStats (some keep) = ⟨1, 1⟩ := by
  intro v keep
  have hv : v.Reachable := .step _ (fun _ h ↦ nomatch h) reachable_bundledOnce
  have hpruned : v.pruneTags (some keep) .ok = (.ok, (v.pruneTags (some keep) .ok).2) :=
    Prod.ext (by decide +kernel) rfl
  have hnodes : ∀ n ∈ v.root.labels,
      bundleMembers v.settings.tagBundles n.tagBundles = some [ascii "b"] ∧
      ∀ t ∈ n.tags, keep t = false → AsciiFold.fold t ∉ [ascii "b"].map AsciiFold.fold := by
    decide +kernel
  have hclear : ∀ n ∈ v.root.labels, PruneClear v.settings.tagBundles keep n := by
    intro n hn
    obtain ⟨hmembers, hrejected⟩ := hnodes n hn
    exact (pruneClear_iff hmembers).mpr hrejected
  exact ⟨(pruned_iff hv hpruned).mpr hclear, by decide +kernel, by decide +kernel⟩

/-- A rejected tag that a bundle supplies stays, and so does an explicit one, which is counted. -/
theorem pruned_bundled :
    let v : Vault Unit := ((TagOp.setTags [] [ascii "a", ascii "b"] .ok).apply bundledOnce).2
    let keep : Bytes → Bool := fun t ↦ t != ascii "b"
    (v.pruneTags (some keep) .ok).1 = .ok ∧
      (v.pruneTags (some keep) .ok).2.root.label.tags = [ascii "a", ascii "b"] ∧
      v.pruneTagsStats (some keep) = ⟨1, 1⟩ ∧
      ¬Pruned keep v (v.pruneTags (some keep) .ok).2 (v.pruneTagsStats (some keep)) := by
  intro v keep
  refine ⟨by decide +kernel, by decide +kernel, by decide +kernel, fun h ↦ ?_⟩
  have hleft : ¬∀ n ∈ (v.pruneTags (some keep) .ok).2.root.labels, ∀ t ∈ n.tags, keep t = true := by
    decide +kernel
  exact hleft h.rejected

end Vault

end SafeVault
