import SafeVault.Tags.BundleUndo
import SafeVault.Tags.ImportDefinition
import SafeVault.Lib.UndoLog

/-!
# Importing bundles with a node

A node that comes from another vault brings the bundles it has applied. Their definitions are imported,
and the node at the destination applies what they were imported as. Nothing that the destination has is
changed, so the members are the same on both sides and the tags of the node are a union.

A merge works on the live tree and puts everything back unless it ends well. `mergeTagProvenanceLive`
has these steps; that it does what `mergeTagProvenance` does is `mergeTagProvenanceLive_eq`.
-/

namespace SafeVault

open KeyedUnion (union)

variable {μ : Type} {bundles bundles' sourceBundles : List TagBundle} {b definition : TagBundle}
  {id : NodeId} {ids : List NodeId} {source destination node node' : NodeHeader} {key : Bytes}
  {members : List Bytes} {random : ℕ → Option NodeId} {access : VaultResult}

/-! ## Members -/

theorem findBundle_of_mem (hids : (bundles.map (·.id)).Nodup) (hb : b ∈ bundles) :
    findBundle bundles b.id = some b := by
  rw [findBundle, List.find?_eq_some_iff_append]
  obtain ⟨before, after, rfl⟩ := List.append_of_mem hb
  refine ⟨beq_self_eq_true _, before, after, rfl, fun a ha ↦ ?_⟩
  rw [List.map_append, List.map_cons] at hids
  have hne : a.id ≠ b.id := by
    rintro heq
    refine (List.nodup_append.mp hids).2.2 a.id (List.mem_map_of_mem ha) b.id List.mem_cons_self heq
  rw [beq_eq_false_iff_ne.mpr hne]
  rfl

/-- Bundles with the same members have the same tags up to case. -/
theorem tagKeys_eq_of_sameBundleMembers (h : sameBundleMembers b definition = true) :
    tagKeys b.tags = tagKeys definition.tags := by
  rw [sameBundleMembers, Bool.and_eq_true, beq_iff_eq, List.all_eq_true] at h
  obtain ⟨hlen, hall⟩ := h
  refine List.ext_get (by rw [tagKeys, tagKeys, List.length_map, List.length_map, hlen])
    fun i hi hi' ↦ ?_
  rw [tagKeys, List.length_map] at hi hi'
  have hpair : (b.tags.get ⟨i, hi⟩, definition.tags.get ⟨i, hi'⟩) ∈ b.tags.zip definition.tags :=
    List.mem_iff_get.mpr ⟨⟨i, by rw [List.length_zip]; exact lt_min hi hi'⟩, by simp⟩
  simpa [tagKeys] using (decides_tagCiEqual _ _).mp (hall _ hpair)

theorem mem_keys_bundleMembers (h : bundleMembers bundles ids = some members) :
    key ∈ tagKeys members ↔
      ∃ id ∈ ids, ∃ b, findBundle bundles id = some b ∧ key ∈ tagKeys b.tags := by
  induction ids generalizing members with
  | nil =>
    cases h
    simp [tagKeys]
  | cons id ids ih =>
    obtain ⟨b, hb, rest, hrest, rfl⟩ : ∃ b, findBundle bundles id = some b ∧
        ∃ rest, bundleMembers bundles ids = some rest ∧ b.tags ++ rest = members := by
      simpa [bundleMembers, Option.bind_eq_some_iff] using h
    rw [tagKeys_append, List.mem_append, ih hrest]
    simp [hb]

theorem exists_bundleMembers (h : ∀ id ∈ ids, ∃ b, findBundle bundles id = some b) :
    ∃ members, bundleMembers bundles ids = some members := by
  induction ids with
  | nil => exact ⟨[], rfl⟩
  | cons id ids ih =>
    obtain ⟨b, hb⟩ := h id List.mem_cons_self
    obtain ⟨rest, hrest⟩ := ih fun id hid ↦ h id (List.mem_cons_of_mem _ hid)
    exact ⟨b.tags ++ rest, by rw [bundleMembers, hb, hrest]; rfl⟩

theorem exists_findBundle (h : bundleMembers bundles ids = some members) (hid : id ∈ ids) :
    ∃ b, findBundle bundles id = some b := by
  induction ids generalizing members with
  | nil => exact absurd hid List.not_mem_nil
  | cons id' ids ih =>
    obtain ⟨b, hb, rest, hrest, -⟩ : ∃ b, findBundle bundles id' = some b ∧
        ∃ rest, bundleMembers bundles ids = some rest ∧ b.tags ++ rest = members := by
      simpa [bundleMembers, Option.bind_eq_some_iff] using h
    rcases List.mem_cons.mp hid with rfl | hid
    · exact ⟨b, hb⟩
    · exact ih hrest hid

/-! ## What an import comes to -/

/-- An import of the bundles of a source node: the definitions that were there stay as they are, what is
added keeps identities and names apart, every bundle of the source node has a bundle with the same
members that the node now applies, and a second import would add nothing, whatever happens between. -/
structure Imported (bundles sourceBundles bundles' : List TagBundle) (source node' : NodeHeader) :
    Prop where
  kept : bundles <+: bundles'
  valid : BundlesKept bundles'
  applied : ∀ id ∈ source.tagBundles, ∃ definition b,
    findBundle sourceBundles id = some definition ∧ b.id ∈ node'.tagBundles ∧
    findBundle bundles' b.id = some b ∧ sameBundleMembers b definition = true
  again : ∀ later added random' access' destination' node'', bundles' <+: later →
    copyTagProvenance later access' random' source sourceBundles destination' = .ok (node'', added) →
    added = later

/-- The bundles that an import applies, beside those that were applied, have the members of the source
bundles. -/
theorem members_of_import {applied applied' : List NodeId} {extra : List TagBundle} {m₀ m₁ : List Bytes}
    (hk : BundlesKept (bundles ++ extra)) (hm₀ : bundleMembers bundles applied = some m₀)
    (hm₁ : bundleMembers sourceBundles ids = some m₁) (hsub : applied ⊆ applied')
    (hall : ∀ id ∈ ids, ∃ definition, findBundle sourceBundles id = some definition ∧
      ∃ b ∈ bundles ++ extra, b.id ∈ applied' ∧ sameBundleMembers b definition = true)
    (honly : ∀ id' ∈ applied', id' ∈ applied ∨ ∃ id ∈ ids, ∃ definition,
      findBundle sourceBundles id = some definition ∧
      ∃ b ∈ bundles ++ extra, b.id = id' ∧ sameBundleMembers b definition = true) :
    ∃ m, bundleMembers (bundles ++ extra) applied' = some m ∧
      ∀ key, key ∈ tagKeys m ↔ key ∈ tagKeys m₀ ∨ key ∈ tagKeys m₁ := by
  obtain ⟨m, hm⟩ : ∃ m, bundleMembers (bundles ++ extra) applied' = some m := by
    refine exists_bundleMembers fun id' hid' ↦ ?_
    rcases honly id' hid' with hid' | ⟨id, -, definition, -, b, hb, rfl, -⟩
    · obtain ⟨b, hb⟩ := exists_findBundle hm₀ hid'
      exact ⟨b, findBundle_append hb extra⟩
    · exact ⟨b, findBundle_of_mem hk.ids hb⟩
  refine ⟨m, hm, fun key ↦ ?_⟩
  rw [mem_keys_bundleMembers hm, mem_keys_bundleMembers hm₀, mem_keys_bundleMembers hm₁]
  constructor
  · rintro ⟨id', hid', b, hb, hkey⟩
    rcases honly id' hid' with hid' | ⟨id, hid, definition, hdefinition, b', hb', rfl, hsame⟩
    · obtain ⟨b₀, hb₀⟩ := exists_findBundle hm₀ hid'
      obtain rfl : b₀ = b := Option.some_inj.mp ((findBundle_append hb₀ extra).symm.trans hb)
      exact .inl ⟨id', hid', b₀, hb₀, hkey⟩
    · obtain rfl : b' = b := Option.some_inj.mp ((findBundle_of_mem hk.ids hb').symm.trans hb)
      rw [tagKeys_eq_of_sameBundleMembers hsame] at hkey
      exact .inr ⟨id, hid, definition, hdefinition, hkey⟩
  · rintro (⟨id', hid', b, hb, hkey⟩ | ⟨id, hid, definition, hdefinition, hkey⟩)
    · exact ⟨id', hsub hid', b, findBundle_append hb extra, hkey⟩
    · obtain ⟨d, hd, b, hb, happlied, hsame⟩ := hall id hid
      obtain rfl : d = definition := Option.some_inj.mp (hd.symm.trans hdefinition)
      rw [← tagKeys_eq_of_sameBundleMembers hsame] at hkey
      exact ⟨b.id, happlied, b, findBundle_of_mem hk.ids hb, hkey⟩

/-- The explicit tags of a node that are not those of a source node only by its bundles. -/
def keptExplicit (source candidate : NodeHeader) : List Bytes :=
  candidate.explicitTags.filter fun t ↦
    !(source.tags.filter fun tag ↦ !isManual source tag).any fun tag ↦ tagCiEqual t tag

/-- Either the source has no bundles, or they were imported and the tags recomputed. -/
theorem copyTagProvenance_cases
    (h : copyTagProvenance bundles access random source sourceBundles destination =
      .ok (node', bundles')) :
    (source.tagBundles = [] ∧ node' = initializeTagProvenance destination ∧ bundles' = bundles) ∨
    ∃ applied, importBundles random sourceBundles source.tagBundles bundles destination.tagBundles =
        .ok (bundles', applied) ∧
      rebuildBundleTags bundles' { initializeTagProvenance destination with
        explicitTags := keptExplicit source (initializeTagProvenance destination)
        tagBundles := applied } = some node' := by
  rw [copyTagProvenance] at h
  split_ifs at h with hempty
  · cases h
    exact .inl ⟨List.isEmpty_iff.mp hempty, rfl, rfl⟩
  dsimp only at h
  rw [tagBundles_initializeTagProvenance] at h
  split at h
  · cases h
  next bundles₁ applied himport =>
  split at h
  · next hrebuild =>
    cases h
    exact .inr ⟨applied, himport, hrebuild⟩
  · cases h

/-- A copy from a node whose definitions are settled adds nothing. -/
theorem copyTagProvenance_of_settled {later added : List TagBundle}
    (hsettled : ∀ id ∈ source.tagBundles, ∀ definition,
      findBundle sourceBundles id = some definition → Settled later definition)
    (h : copyTagProvenance later access random source sourceBundles destination = .ok (node', added)) :
    added = later := by
  rcases copyTagProvenance_cases h with ⟨-, -, hadded⟩ | ⟨applied, himport, -⟩
  · exact hadded
  · exact importBundles_of_settled hsettled himport

/-- **A copy of provenance** imports, and applies the bundles of both nodes. -/
theorem copyTagProvenance_spec {m₀ m₁ : List Bytes} (hb : BundlesKept bundles)
    (hsource : BundlesKept sourceBundles)
    (hfresh : DrawsFresh random (bundles.map (·.id) ++ sourceBundles.map (·.id)))
    (hm₀ : bundleMembers bundles destination.tagBundles = some m₀)
    (hm₁ : bundleMembers sourceBundles source.tagBundles = some m₁)
    (h : copyTagProvenance bundles access random source sourceBundles destination =
      .ok (node', bundles')) :
    Imported bundles sourceBundles bundles' source node' ∧
      ∃ m, bundleMembers bundles' node'.tagBundles = some m ∧
        ∀ key, key ∈ tagKeys m ↔ key ∈ tagKeys m₀ ∨ key ∈ tagKeys m₁ := by
  rcases copyTagProvenance_cases h with ⟨hnone, rfl, rfl⟩ | ⟨applied, himport, hrebuild⟩
  · rw [hnone, bundleMembers, Option.some_inj] at hm₁
    subst hm₁
    refine ⟨⟨List.prefix_rfl, hb, ?_, fun later added random' access' destination' node'' hpre hagain ↦
      copyTagProvenance_of_settled ?_ hagain⟩, m₀, ?_, fun key ↦ by simp [tagKeys]⟩
    · rw [hnone]
      exact fun id hid ↦ absurd hid List.not_mem_nil
    · rw [hnone]
      exact fun id hid ↦ absurd hid List.not_mem_nil
    · rw [tagBundles_initializeTagProvenance]
      exact hm₀
  · obtain ⟨hk, hsub, hall, honly⟩ := hb.importBundles hsource.lengths
      ⟨fun k id hid hmem ↦ hfresh.unused k id hid (List.mem_append_right _ hmem), hfresh.once⟩
      (fun k _ id hid hmem ↦ hfresh.unused k id hid (List.mem_append_left _ hmem)) himport
    obtain ⟨extra, rfl⟩ := importBundles_append himport
    have happlied : node'.tagBundles = applied := tagBundles_of_rebuild hrebuild
    rw [happlied]
    refine ⟨⟨List.prefix_append _ _, hk, fun id hid ↦ ?_,
      fun later added random' access' destination' node'' hpre hagain ↦
        copyTagProvenance_of_settled (fun id hid definition hdefinition ↦ ?_) hagain⟩, ?_⟩
    · obtain ⟨definition, hdefinition, -, b, hmem, hid', hsame⟩ := hall id hid
      rw [happlied]
      exact ⟨definition, b, hdefinition, hid', findBundle_of_mem hk.ids hmem, hsame⟩
    · obtain ⟨d, hd, hsettled, -⟩ := hall id hid
      obtain rfl := Option.some_inj.mp (hd.symm.trans hdefinition)
      exact hsettled.mono hpre
    · refine members_of_import hk hm₀ hm₁ hsub (fun id hid ↦ ?_) honly
      obtain ⟨definition, hdefinition, -, hfound⟩ := hall id hid
      exact ⟨definition, hdefinition, hfound⟩

/-- What a source node has only by its bundles is a member of one of them. -/
theorem mem_members_of_not_isManual (hs : source.TagsKept sourceBundles)
    (hm : bundleMembers sourceBundles source.tagBundles = some members) {tag : Bytes}
    (htag : tag ∈ source.tags) (hmanual : isManual source tag = false) :
    AsciiFold.fold tag ∈ tagKeys members := by
  rw [isManual, Bool.or_eq_false_iff, Bool.not_eq_false'] at hmanual
  obtain ⟨hp, hnot⟩ := hmanual
  obtain ⟨m, hm', htags⟩ := hs.exists_members
  obtain rfl := Option.some_inj.mp (hm'.symm.trans hm)
  refine ((htags _).mp (List.mem_map_of_mem htag)).resolve_left fun hown ↦ ?_
  rw [ownTags, if_pos hp] at hown
  exact Bool.eq_false_iff.mp hnot ((KeyedUnion.any_same_iff decides_tagCiEqual).mpr hown)

theorem mem_tagKeys_iff_manualTags {m₀ : List Bytes} (hk : node.TagsKept bundles)
    (hm₀ : bundleMembers bundles node.tagBundles = some m₀) :
    key ∈ tagKeys node.tags ↔ key ∈ tagKeys (manualTags node) ∨ key ∈ tagKeys m₀ := by
  obtain ⟨m, hm, htags⟩ := hk.exists_members
  obtain rfl := Option.some_inj.mp (hm.symm.trans hm₀)
  rw [manualTags]
  split_ifs with hp
  · rw [htags, ownTags, if_pos (Bool.and_eq_true _ _ ▸ hp).1]
  · exact ⟨Or.inl, fun h ↦ h.elim id fun h ↦ (htags key).mpr (.inr h)⟩

/-- **The tags of a copy** are those the destination has and the members of the source's bundles. What
is no longer explicit comes back as a member. -/
theorem mem_tagKeys_copyTagProvenance (hb : BundlesKept bundles) (hsource : BundlesKept sourceBundles)
    (hfresh : DrawsFresh random (bundles.map (·.id) ++ sourceBundles.map (·.id)))
    (hk : destination.TagsKept bundles) (hs : source.TagsKept sourceBundles)
    (hm : bundleMembers sourceBundles source.tagBundles = some members)
    (h : copyTagProvenance bundles access random source sourceBundles destination =
      .ok (node', bundles')) :
    key ∈ tagKeys node'.tags ↔ key ∈ tagKeys destination.tags ∨ key ∈ tagKeys members := by
  obtain ⟨m₀, hm₀, -⟩ := hk.exists_members
  obtain ⟨-, m, hmembers, hmem⟩ := copyTagProvenance_spec hb hsource hfresh hm₀ hm h
  obtain ⟨hp, -, -, hexplicit⟩ := nodup_initializeTagProvenance hk
  rcases copyTagProvenance_cases h with ⟨hnone, rfl, -⟩ | ⟨applied, -, hrebuild⟩
  · have htags : (initializeTagProvenance destination).tags = destination.tags := by
      rw [initializeTagProvenance]
      split_ifs <;> rfl
    rw [hnone, bundleMembers, Option.some_inj] at hm
    rw [htags, ← hm]
    simp [tagKeys]
  · obtain ⟨m', hm', -, rfl⟩ := (rebuildBundleTags_eq_some_iff (by exact hp)).mp hrebuild
    obtain rfl := Option.some_inj.mp (hm'.symm.trans hmembers)
    have hunion : key ∈ tagKeys (union tagCiEqual
        (keptExplicit source (initializeTagProvenance destination)) m') ↔ _ :=
      KeyedUnion.mem_keys_union decides_tagCiEqual
    refine hunion.trans ?_
    change _ ∨ key ∈ tagKeys m' ↔ _
    rw [hmem, mem_tagKeys_iff_manualTags hk hm₀, keptExplicit, hexplicit]
    constructor
    · rintro (hkept | hkey | hkey)
      · obtain ⟨t, ht, rfl⟩ := List.mem_map.mp hkept
        exact .inl (.inl (List.mem_map_of_mem (List.mem_filter.mp ht).1))
      · exact .inl (.inr hkey)
      · exact .inr hkey
    · rintro ((hkey | hkey) | hkey)
      · obtain ⟨t, ht, rfl⟩ := List.mem_map.mp hkey
        rcases hdrop : (source.tags.filter fun tag ↦ !isManual source tag).any (tagCiEqual t ·) with
          _ | _
        · exact .inl (List.mem_map_of_mem (List.mem_filter.mpr ⟨ht, by rw [hdrop]; rfl⟩))
        · obtain ⟨tag, htag, hsame⟩ := List.any_eq_true.mp hdrop
          obtain ⟨htag, hmanual⟩ := List.mem_filter.mp htag
          rw [(decides_tagCiEqual _ _).mp hsame]
          exact .inr (.inr (mem_members_of_not_isManual hs hm htag
            (Bool.not_eq_true' _ ▸ hmanual)))
      · exact .inr (.inl hkey)
      · exact .inr (.inr hkey)

/-! ## A merge -/

/-- What `BundleAccess` puts back into a node. -/
def backBundles (old node : NodeHeader) : NodeHeader :=
  { node with tags := old.tags, explicitTags := old.explicitTags, tagBundles := old.tagBundles,
              tagProvenance := old.tagProvenance }

namespace Vault

/-- Write the node at a position. -/
def putNode (p : List ℕ) (node : NodeHeader) (v : Vault μ) : Vault μ :=
  { v with root := v.root.modifyAt (LeafTree.setLabel fun _ ↦ node) p }

def putBundles (bundles : List TagBundle) (v : Vault μ) : Vault μ :=
  { v with settings := { v.settings with tagBundles := bundles } }

@[simp] theorem settings_putNode (p : List ℕ) (node : NodeHeader) (v : Vault μ) :
    (v.putNode p node).settings = v.settings := rfl

@[simp] theorem bundleAccess_putNode (p : List ℕ) (node : NodeHeader) (v : Vault μ) :
    (v.putNode p node).bundleAccess = v.bundleAccess := rfl

@[simp] theorem tagBundles_putBundles (bundles : List TagBundle) (v : Vault μ) :
    (v.putBundles bundles).settings.tagBundles = bundles := rfl

/-- The destructor of `BundleAccess`: the settings, then the nodes on the log. -/
def undoBundles (settings : VaultSettings) (log : List (List ℕ × NodeHeader)) (v : Vault μ) : Vault μ :=
  { v with settings, root := LeafTree.restore backBundles log v.root }

/-- `merge_tag_provenance` on a vault with bundles, in place, after the checks of its arguments. -/
def mergeBundlesLive (p : List ℕ) (target source : NodeHeader) (sourceBundles : List TagBundle)
    (manual : List Bytes) (commit : Bool) (random : ℕ → Option NodeId) (outcome : VaultResult)
    (v : Vault μ) : VaultResult × Vault μ :=
  let undo := undoBundles v.settings [(p, target)]
  let draft := { target with tags := union tagCiEqual target.tags source.tags }
  let v := v.putNode p draft
  match copyTagProvenance v.settings.tagBundles v.bundleAccess random source sourceBundles draft with
  | .error r => (r, undo v)
  | .ok (copied, bundles) =>
    let node := { copied with explicitTags := manual, tagProvenance := true }
    let v := ((v.putBundles bundles).putNode p copied).putNode p node
    match rebuildBundleTags v.settings.tagBundles node with
    | none => (.invalidArg, undo v)
    | some rebuilt =>
      let v := v.putNode p rebuilt
      if commit then
        let (r, w) := v.commitIndex outcome
        (r, if r = .ok then w else undo w)
      else (.ok, v)

/-- `merge_tag_provenance`, in place. -/
def mergeTagProvenanceLive (source : NodeHeader) (sourceBundles : List TagBundle) (path : Bytes)
    (inherited : List Bytes) (commit : Bool) (random : ℕ → Option NodeId) (outcome : VaultResult)
    (v : Vault μ) : VaultResult × Vault μ :=
  if v.writable ≠ .ok then (v.writable, v)
  else
    match (resolveNode v.root path).bind fun p ↦ (v.root.get? p).map fun t ↦ (p, t.label) with
    | none => (.notFound, v)
    | some (p, target) =>
      let manual := mergedTags source target inherited
      if indexMaxTags < manual.length then (.invalidArg, v)
      else if !v.v3 then
        if !source.tagBundles.isEmpty then (.invalidArg, v)
        else if commit then v.setTags path manual outcome
        else
          (.ok, v.putNode p
            { target with tags := manual, explicitTags := manual, tagProvenance := true })
      else v.mergeBundlesLive p target source sourceBundles manual commit random outcome

/-! ### In place and not -/

section Undo

variable {v : Vault μ} {p : List ℕ} {target : NodeHeader}

theorem putNode_putNode (n m : NodeHeader) : (v.putNode p n).putNode p m = v.putNode p m := by
  rw [putNode, putNode, putNode]
  dsimp only
  rw [LeafTree.modifyAt_setLabel_twice]

theorem putBundles_putNode (bundles : List TagBundle) :
    (v.putNode p node).putBundles bundles = (v.putBundles bundles).putNode p node := rfl

theorem undoBundles_putNode {t : Node μ} (ht : v.root.get? p = some t)
    (hback : backBundles t.label node = t.label) (bundles : List TagBundle) :
    undoBundles v.settings [(p, t.label)] ((v.putBundles bundles).putNode p node) = v := by
  rw [undoBundles, putNode, putBundles]
  dsimp only
  rw [LeafTree.restore_cons_modifyAt ht hback]
  rfl

end Undo

end Vault

theorem backBundles_of_rebuild {old : NodeHeader} (h : rebuildBundleTags bundles node = some node') :
    backBundles old node' = backBundles old node := by
  rcases hp : node.tagProvenance with _ | _
  · rw [rebuildBundleTags_of_not hp, Option.some_inj] at h
    rw [h]
  · obtain ⟨members, -, -, rfl⟩ := (rebuildBundleTags_eq_some_iff hp).mp h
    rfl

theorem backBundles_initializeTagProvenance (old node : NodeHeader) :
    backBundles old (initializeTagProvenance node) = backBundles old node := by
  rw [initializeTagProvenance]
  split_ifs <;> rfl

/-- A copy touches only what is put back. -/
theorem backBundles_of_copy {old : NodeHeader}
    (h : copyTagProvenance bundles access random source sourceBundles destination =
      .ok (node', bundles')) : backBundles old node' = backBundles old destination := by
  rcases copyTagProvenance_cases h with ⟨-, rfl, -⟩ | ⟨applied, -, hrebuild⟩
  · exact backBundles_initializeTagProvenance old destination
  · exact (backBundles_of_rebuild hrebuild).trans (backBundles_initializeTagProvenance old destination)

namespace Vault

variable {v : Vault μ} {p : List ℕ} {t : Node μ} {inherited : List Bytes} {commit : Bool}
  {outcome : VaultResult}

/-- **In place and not**, on a vault with bundles: the steps in place do what the functions do, or
everything is put back. -/
theorem mergeBundlesLive_eq (haccess : v.bundleAccess = .ok) (ht : v.root.get? p = some t) :
    v.mergeBundlesLive p t.label source sourceBundles (mergedTags source t.label inherited) commit
      random outcome =
    match mergeNodeProvenance v.settings.tagBundles random source sourceBundles t.label inherited with
    | .error r => (r, v)
    | .ok (node, bundles) =>
      let merged := (v.putBundles bundles).putNode p node
      if commit then v.transact outcome merged else (.ok, merged) := by
  have hdraft : backBundles t.label
      { t.label with tags := union tagCiEqual t.label.tags source.tags } = t.label := rfl
  rw [mergeBundlesLive, mergeNodeProvenance]
  simp only [settings_putNode, bundleAccess_putNode, haccess]
  rcases hcopy : copyTagProvenance v.settings.tagBundles .ok random source sourceBundles
    { t.label with tags := union tagCiEqual t.label.tags source.tags } with r | ⟨copied, bundles⟩
  · exact Prod.ext rfl (undoBundles_putNode ht hdraft v.settings.tagBundles)
  have hcopied : backBundles t.label copied = t.label := (backBundles_of_copy hcopy).trans hdraft
  simp only [putBundles_putNode, putNode_putNode, settings_putNode, tagBundles_putBundles]
  rcases hrebuild : rebuildBundleTags bundles { copied with
      explicitTags := mergedTags source t.label inherited, tagProvenance := true } with _ | rebuilt
  · refine Prod.ext rfl (undoBundles_putNode ht ?_ bundles)
    exact hcopied
  have hrebuilt : backBundles t.label rebuilt = t.label :=
    (backBundles_of_rebuild hrebuild).trans hcopied
  dsimp only
  -- What is left is that a commit that fails is put back, and `transact` forgets it.
  by_cases hcommit : commit = true
  · rw [if_pos hcommit, if_pos hcommit, transact]
    refine Prod.ext rfl ?_
    dsimp only
    split_ifs with hok
    · rfl
    · have hfailed : (((v.putBundles bundles).putNode p rebuilt).commitIndex outcome).2 =
          (v.putBundles bundles).putNode p rebuilt := by
        rw [commitIndex] at hok ⊢
        split_ifs at hok ⊢ with hlegacy houtcome
        · rfl
        · exact absurd houtcome hok
        · rfl
      rw [hfailed]
      exact undoBundles_putNode ht hrebuilt bundles
  · rw [if_neg hcommit, if_neg hcommit]

/-- **In place and not.** The merge in place does what the merge does. -/
theorem mergeTagProvenanceLive_eq (source : NodeHeader) (sourceBundles : List TagBundle) (path : Bytes)
    (inherited : List Bytes) (commit : Bool) (random : ℕ → Option NodeId) (outcome : VaultResult)
    (v : Vault μ) :
    v.mergeTagProvenanceLive source sourceBundles path inherited commit random outcome =
      v.mergeTagProvenance source sourceBundles path inherited commit random outcome := by
  rw [mergeTagProvenanceLive, mergeTagProvenance]
  refine ite_congr rfl (fun _ ↦ rfl) fun hwritable ↦ ?_
  rw [not_not] at hwritable
  rcases htarget : (resolveNode v.root path).bind fun p ↦
    (v.root.get? p).map fun t ↦ (p, t.label) with _ | ⟨p, target⟩
  · simp only [htarget]
  obtain ⟨q, -, hq⟩ := Option.bind_eq_some_iff.mp htarget
  obtain ⟨t, ht, hpt⟩ := Option.map_eq_some_iff.mp hq
  obtain ⟨rfl, rfl⟩ := Prod.mk.inj hpt
  simp only [htarget]
  refine ite_congr rfl (fun _ ↦ rfl) fun _ ↦ ite_congr rfl (fun _ ↦ rfl) fun hv3 ↦ ?_
  have haccess : v.bundleAccess = .ok := by
    rw [writable] at hwritable
    rw [bundleAccess]
    split_ifs at hwritable ⊢ <;> simp_all
  rw [mergeBundlesLive_eq haccess ht]
  rfl

end Vault

/-! ### What a merge comes to -/

theorem importBundleDefinition_ne_ok :
    importBundleDefinition bundles random definition ≠ .error .ok := by
  rw [importBundleDefinition]
  dsimp only
  split
  · rintro ⟨⟩
  · split_ifs
    · rintro ⟨⟩
    · split
      · rintro ⟨⟩
      · rintro ⟨⟩
    · rintro ⟨⟩

theorem importBundles_ne_ok {applied : List NodeId} :
    importBundles random sourceBundles ids bundles applied ≠ .error .ok := by
  induction ids generalizing bundles applied with
  | nil => rintro ⟨⟩
  | cons id ids ih =>
    rw [importBundles]
    split
    · rintro ⟨⟩
    split
    · next r himport =>
      rintro ⟨⟩
      exact importBundleDefinition_ne_ok himport
    · exact ih

/-- An error of a merge is not reported as success. -/
theorem mergeNodeProvenance_ne_ok {target : NodeHeader} {inherited : List Bytes} :
    mergeNodeProvenance bundles random source sourceBundles target inherited ≠ .error .ok := by
  rw [mergeNodeProvenance]
  split
  · next r hcopy =>
    rintro ⟨⟩
    rw [copyTagProvenance] at hcopy
    split_ifs at hcopy with hempty haccess
    · exact haccess rfl
    dsimp only at hcopy
    split at hcopy
    · next himport =>
      cases hcopy
      exact importBundles_ne_ok himport
    · split at hcopy
      · cases hcopy
      · cases hcopy
  · split
    · rintro ⟨⟩
    · rintro ⟨⟩

/-- The bundles after a merge are those after its copy. -/
theorem exists_copy_of_merge {target : NodeHeader} {inherited : List Bytes}
    (h : mergeNodeProvenance bundles random source sourceBundles target inherited =
      .ok (node', bundles')) :
    ∃ copied, copyTagProvenance bundles .ok random source sourceBundles
        { target with tags := union tagCiEqual target.tags source.tags } = .ok (copied, bundles') ∧
      rebuildBundleTags bundles' { copied with
        explicitTags := mergedTags source target inherited, tagProvenance := true } = some node' := by
  rw [mergeNodeProvenance] at h
  split at h
  · cases h
  next copied bundles₁ hcopy =>
  split at h
  · next rebuilt hrebuild =>
    cases h
    exact ⟨copied, hcopy, hrebuild⟩
  · cases h

/-- **A merge** imports, and the tags of the node are those of the target, of the source and the
inherited ones. -/
theorem mergeNodeProvenance_spec {target : NodeHeader} {inherited : List Bytes}
    (hb : BundlesKept bundles) (hsource : BundlesKept sourceBundles)
    (hfresh : DrawsFresh random (bundles.map (·.id) ++ sourceBundles.map (·.id)))
    (hk : target.TagsKept bundles) (hs : source.TagsKept sourceBundles)
    (h : mergeNodeProvenance bundles random source sourceBundles target inherited =
      .ok (node', bundles')) :
    Imported bundles sourceBundles bundles' source node' ∧
      ∀ key, key ∈ tagKeys node'.tags ↔
        key ∈ tagKeys target.tags ∨ key ∈ tagKeys source.tags ∨ key ∈ tagKeys inherited := by
  obtain ⟨m₀, hm₀, htarget⟩ := hk.exists_members
  obtain ⟨m₁, hm₁, hsourceTags⟩ := hs.exists_members
  obtain ⟨copied, hcopy, hrebuild⟩ := exists_copy_of_merge h
  obtain ⟨himported, m, hm, hmem⟩ := copyTagProvenance_spec hb hsource hfresh (by exact hm₀) hm₁ hcopy
  obtain ⟨m', hm', -, rfl⟩ := (rebuildBundleTags_eq_some_iff rfl).mp hrebuild
  obtain rfl : m' = m := Option.some_inj.mp (hm'.symm.trans hm)
  refine ⟨⟨himported.kept, himported.valid, himported.applied, himported.again⟩, fun key ↦ ?_⟩
  have hunion : key ∈ tagKeys (union tagCiEqual (mergedTags source target inherited) m') ↔ _ :=
    KeyedUnion.mem_keys_union decides_tagCiEqual
  have hmerged : key ∈ tagKeys (mergedTags source target inherited) ↔
      (key ∈ tagKeys (ownTags target) ∨ key ∈ tagKeys (ownTags source)) ∨
        key ∈ tagKeys inherited := by
    rw [mergedTags, tagKeys, KeyedUnion.mem_keys_union decides_tagCiEqual,
      KeyedUnion.mem_keys_union decides_tagCiEqual]
    rfl
  refine hunion.trans ?_
  change key ∈ tagKeys (mergedTags source target inherited) ∨ key ∈ tagKeys m' ↔ _
  rw [hmerged, hmem, htarget, hsourceTags]
  tauto

namespace Vault

variable {v : Vault μ} {path : Bytes} {inherited : List Bytes} {commit : Bool}
  {outcome : VaultResult}

/-- What a merge does is nothing, or a merge of the node at the path. -/
theorem mergeTagProvenance_cases (hv3 : v.v3 = true ∨ v.legacyReadOnly = true) :
    let run := v.mergeTagProvenance source sourceBundles path inherited commit random outcome
    run.1 ≠ .ok ∧ run.2 = v ∨
    run.1 = .ok ∧ ∃ p t node' bundles', resolveNode v.root path = some p ∧ v.root.get? p = some t ∧
      mergeNodeProvenance v.settings.tagBundles random source sourceBundles t.label inherited =
        .ok (node', bundles') ∧
      run.2.settings.tagBundles = bundles' ∧
      run.2.root = v.root.modifyAt (LeafTree.setLabel fun _ ↦ node') p := by
  dsimp only
  rw [mergeTagProvenance]
  by_cases hwritable : v.writable = .ok
  swap
  · rw [if_pos hwritable]
    exact .inl ⟨hwritable, rfl⟩
  have hdatabase : v.v3 = true := by
    rw [writable] at hwritable
    refine hv3.resolve_right fun hlegacy ↦ ?_
    rw [if_pos hlegacy] at hwritable
    split_ifs at hwritable
  rw [if_neg (not_not.mpr hwritable)]
  split
  · exact .inl ⟨by rintro ⟨⟩, rfl⟩
  next p target htarget =>
  obtain ⟨q, hpath, hq⟩ := Option.bind_eq_some_iff.mp htarget
  obtain ⟨t, ht, hpt⟩ := Option.map_eq_some_iff.mp hq
  obtain ⟨rfl, rfl⟩ := Prod.mk.inj hpt
  dsimp only
  by_cases hcount : indexMaxTags < (mergedTags source t.label inherited).length
  · rw [if_pos hcount]
    exact .inl ⟨by rintro ⟨⟩, rfl⟩
  rw [if_neg hcount, if_neg (by rw [hdatabase]; exact Bool.false_ne_true)]
  split
  · next r hmerge =>
    refine .inl ⟨?_, rfl⟩
    rintro rfl
    exact mergeNodeProvenance_ne_ok hmerge
  · next node' bundles' hmerge =>
    by_cases hcommit : commit = true
    · rw [if_pos hcommit]
      rcases transact_cases outcome v { v with
          root := v.root.modifyAt (LeafTree.setLabel fun _ ↦ node') q
          settings := { v.settings with tagBundles := bundles' } } with ⟨hok, hedited⟩ | hfailed
      · refine .inr ⟨hok, q, t, node', bundles', hpath, ht, hmerge, ?_, ?_⟩
        · rw [hedited]
        · rw [hedited]
      · exact .inl hfailed
    · rw [if_neg hcommit]
      exact .inr ⟨rfl, q, t, node', bundles', hpath, ht, hmerge, rfl, rfl⟩

/-- **Importing bundles.** Copying the provenance of a node of another vault, or merging it into a node,
adds definitions behind those that are there and keeps identities and names apart; each bundle of the
source node is applied as a bundle with the same members; and the node has the tags it had, those of the
source and the inherited ones. Importing the source again, at any later time, adds no bundle. A merge
that fails leaves the vault as it was.

The source and the destination are vaults, and a single file is open for reading only. The random
source draws identities that are not in use. -/
theorem bundleImport_spec (hv : v.TagsKept) (hb : BundlesKept v.settings.tagBundles)
    (hv3 : v.v3 = true ∨ v.legacyReadOnly = true) (hs : source.TagsKept sourceBundles)
    (hsource : BundlesKept sourceBundles)
    (hfresh : DrawsFresh random
      (v.settings.tagBundles.map (·.id) ++ sourceBundles.map (·.id))) :
    (∀ destination node' bundles', destination.TagsKept v.settings.tagBundles →
      copyTagProvenance v.settings.tagBundles v.bundleAccess random source sourceBundles destination =
        .ok (node', bundles') →
      Imported v.settings.tagBundles sourceBundles bundles' source node' ∧
        ((∀ key ∈ tagKeys source.tags, key ∈ tagKeys destination.tags) →
          ∀ key, key ∈ tagKeys node'.tags ↔
            key ∈ tagKeys destination.tags ∨ key ∈ tagKeys source.tags)) ∧
    ∀ path inherited commit outcome,
      let run := v.mergeTagProvenanceLive source sourceBundles path inherited commit random outcome
      (run.1 ≠ .ok → run.2 = v) ∧
      (run.1 = .ok →
        (∃ p t t', resolveNode v.root path = some p ∧ v.root.get? p = some t ∧
          run.2.root.get? p = some t' ∧
          Imported v.settings.tagBundles sourceBundles run.2.settings.tagBundles source t'.label ∧
          ∀ key, key ∈ tagKeys t'.label.tags ↔
            key ∈ tagKeys t.label.tags ∨ key ∈ tagKeys source.tags ∨ key ∈ tagKeys inherited) ∧
        ∀ (w : Vault μ) path' inherited' commit' random' outcome',
          (w.v3 = true ∨ w.legacyReadOnly = true) →
          run.2.settings.tagBundles <+: w.settings.tagBundles →
          (w.mergeTagProvenanceLive source sourceBundles path' inherited' commit' random'
            outcome').2.settings.tagBundles = w.settings.tagBundles) := by
  refine ⟨fun destination node' bundles' hk h ↦ ?_, fun path inherited commit outcome ↦ ?_⟩
  · obtain ⟨m₀, hm₀, -⟩ := hk.exists_members
    obtain ⟨m₁, hm₁, htags⟩ := hs.exists_members
    refine ⟨(copyTagProvenance_spec hb hsource hfresh hm₀ hm₁ h).1, fun hheld key ↦ ?_⟩
    rw [mem_tagKeys_copyTagProvenance hb hsource hfresh hk hs hm₁ h]
    constructor
    · exact fun hkey ↦ hkey.imp_right fun hkey ↦ (htags key).mpr (.inr hkey)
    · exact fun hkey ↦ .inl (hkey.elim id (hheld key))
  · dsimp only
    rw [mergeTagProvenanceLive_eq]
    rcases @mergeTagProvenance_cases μ sourceBundles source random v path inherited commit outcome hv3
      with ⟨hfailed, hsame⟩ | ⟨hok, p, t, node', bundles', hpath, ht, hmerge, hbundles, hroot⟩
    · exact ⟨fun _ ↦ hsame, fun hok ↦ absurd hok hfailed⟩
    refine ⟨fun hfailed ↦ absurd hok hfailed, fun _ ↦ ?_⟩
    obtain ⟨himported, htags⟩ :=
      mergeNodeProvenance_spec hb hsource hfresh (hv.live.get? ht).label.tags hs hmerge
    rw [hbundles, hroot]
    refine ⟨⟨p, t, LeafTree.setLabel (fun _ ↦ node') t, hpath, ht, LeafTree.get?_modifyAt_self ht, ?_,
      ?_⟩, fun w path' inherited' commit' random' outcome' hw hpre ↦ ?_⟩
    · rw [LeafTree.label_setLabel]
      exact himported
    · rw [LeafTree.label_setLabel]
      exact htags
    · rw [mergeTagProvenanceLive_eq]
      rcases @mergeTagProvenance_cases μ sourceBundles source random' w path' inherited' commit'
        outcome' hw with ⟨-, hsame⟩ | ⟨-, p', t', node'', added, -, -, hmerge', hadded, -⟩
      · rw [hsame]
      · obtain ⟨copied, hcopy, -⟩ := exists_copy_of_merge hmerge'
        rw [hadded]
        exact himported.again _ _ _ _ _ _ hpre hcopy

/-- A node that applies a bundle with the identity and the name of another vault's. -/
def strangeSource : NodeHeader where
  name := []
  tags := [ascii "c", ascii "d"]
  tagProvenance := true
  explicitTags := [ascii "c"]
  tagBundles := [.zero]

/-- The bundle is added under a numbered name with a drawn identity, and once. -/
theorem bundleImport_bundledOnce :
    let sourceBundles := [⟨.zero, ascii "X", [ascii "d"]⟩]
    let random := fun k ↦ if k = 1 then some ⟨1 :: List.replicate 15 0, rfl⟩ else none
    let run := bundledOnce.mergeTagProvenanceLive strangeSource sourceBundles [] [ascii "A", ascii "e"]
      true random .ok
    run.2.settings.tagBundles.map (·.name) = [ascii "x", ascii "X (import 2)"] ∧
      run.2.root.label.tags = [ascii "a", ascii "c", ascii "e", ascii "b", ascii "d"] ∧
      (run.2.mergeTagProvenanceLive strangeSource sourceBundles [] [] true (fun _ ↦ none)
        .ok).2.settings.tagBundles = run.2.settings.tagBundles := by
  intro sourceBundles random run
  have hfresh : DrawsFresh random
      (bundledOnce.settings.tagBundles.map (·.id) ++ sourceBundles.map (·.id)) := by
    refine ⟨fun k id hdraw ↦ ?_, fun j k id hj hk ↦ ?_⟩
    · obtain ⟨-, rfl⟩ : k = 1 ∧ _ = id := by simpa [random, Option.ite_none_right_eq_some] using hdraw
      decide +kernel
    · have hj : j = 1 := (Option.ite_none_right_eq_some.mp hj).1
      have hk : k = 1 := (Option.ite_none_right_eq_some.mp hk).1
      rw [hj, hk]
  have hkept : bundledOnce.TagsKept := reachable_bundledOnce.tagsKept
  have hsource : strangeSource.TagsKept sourceBundles :=
    ⟨by decide +kernel, by decide +kernel, by decide +kernel, nofun⟩
  have hspec := (@bundleImport_spec Unit sourceBundles strangeSource random bundledOnce hkept
    ⟨by decide +kernel, by decide +kernel, by decide +kernel, by decide +kernel⟩ (.inl rfl) hsource
    ⟨by decide +kernel, by decide +kernel, by decide +kernel, by decide +kernel⟩ hfresh).2 []
      [ascii "A", ascii "e"] true .ok
  refine ⟨by decide +kernel, by decide +kernel, ?_⟩
  exact (hspec.2 (by decide +kernel)).2 run.2 [] [] true (fun _ ↦ none) .ok (.inl rfl) List.prefix_rfl

end Vault

end SafeVault
