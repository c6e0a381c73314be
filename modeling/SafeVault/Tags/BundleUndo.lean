import SafeVault.Tags.EditedNodes
import SafeVault.Tags.Runs

/-!
# Taking a bundle off a node

Applying a bundle puts its identity at the end of a node's list and recomputes the tags; removing it
takes the identity off again. The tags are a function of the explicit ones and the list, so nothing of
the bundle stays behind. With other bundles applied, what goes is what only the removed one supplies.
-/

namespace SafeVault

open KeyedUnion (union)

variable {bundles : List TagBundle} {node node' : NodeHeader} {id : NodeId}

/-! ## One node -/

theorem initializeTagProvenance_eq (hk : node.TagsKept bundles) (hp : node.tagProvenance = true) :
    initializeTagProvenance node = node := by
  rw [initializeTagProvenance]
  split_ifs with hb
  · rfl
  · rw [hp, Bool.true_and, Bool.not_eq_true', Bool.not_eq_false, List.isEmpty_iff] at hb
    have hexplicit := hk.explicitTags_eq hp hb
    cases node
    simp_all

theorem initializeTagProvenance_of_applied (hp : node.tagProvenance = true)
    (hid : id ∈ node.tagBundles) : initializeTagProvenance node = node := by
  rw [initializeTagProvenance, if_pos]
  rw [hp, Bool.true_and, Bool.not_eq_true', List.isEmpty_eq_false_iff]
  exact List.ne_nil_of_mem hid

/-- Recomputing does not look at the tags it replaces. -/
theorem rebuildBundleTags_congr (bundles : List TagBundle) (tags : List Bytes) (hp : node.tagProvenance = true) :
    rebuildBundleTags bundles { node with tags } = rebuildBundleTags bundles node := by
  rw [rebuildBundleTags, rebuildBundleTags, if_pos (by exact hp), if_pos hp]

/-- **Removing undoes applying**, on a node that did not have the bundle. -/
theorem applyBundle_undo (hk : node.TagsKept bundles) (hp : node.tagProvenance = true)
    (hid : id ∉ node.tagBundles) (h : applyBundle bundles id false node = .ok (some node')) :
    applyBundle bundles id true node' = .ok (some node) := by
  have hcontains : node.tagBundles.contains id = false := by simpa using hid
  rw [applyBundle, hcontains, if_neg (by decide), initializeTagProvenance_eq hk hp] at h
  dsimp only at h
  split at h
  swap
  · cases h
  next r hr =>
    cases h
    obtain ⟨members, -, -, rfl⟩ := (rebuildBundleTags_eq_some_iff (by exact hp)).mp hr
    have hmem : id ∈ node.tagBundles ++ [id] := List.mem_append_right _ (List.mem_singleton_self id)
    have happlied : (node.tagBundles ++ [id]).contains id = true := List.contains_iff_mem.mpr hmem
    have hfilter : (node.tagBundles ++ [id]).filter (fun b ↦ b != id) = node.tagBundles := by
      have hkeep : node.tagBundles.filter (fun b ↦ b != id) = node.tagBundles := by
        refine List.filter_eq_self.mpr fun b hb ↦ bne_iff_ne.mpr ?_
        rintro rfl
        exact hid hb
      rw [List.filter_append, hkeep]
      simp
    rw [applyBundle]
    dsimp only
    rw [if_neg (by rw [if_neg Bool.false_ne_true, happlied]; decide),
      initializeTagProvenance_of_applied (by exact hp) (show id ∈ node.tagBundles ++ [id] from hmem)]
    simp only [Bool.false_eq_true, if_false, if_true, hfilter]
    have hsame := rebuildBundleTags_congr bundles (union tagCiEqual node.explicitTags members) hp
    rw [hk.rebuilt] at hsame
    rw [hsame]

/-- A bundle that is applied already is not applied again. -/
theorem applyBundle_of_applied (bundles : List TagBundle) (hid : id ∈ node.tagBundles) :
    applyBundle bundles id false node = .ok none := by
  have hcontains : node.tagBundles.contains id = true := List.contains_iff_mem.mpr hid
  rw [applyBundle, hcontains]
  exact if_pos (by decide)

/-- A bundle that is not applied is not removed. -/
theorem applyBundle_of_not_applied (bundles : List TagBundle) (hid : id ∉ node.tagBundles) :
    applyBundle bundles id true node = .ok none := by
  have hcontains : node.tagBundles.contains id = false := by simpa using hid
  rw [applyBundle, hcontains]
  exact if_pos (by decide)

theorem mem_tagBundles_applyBundle (h : applyBundle bundles id false node = .ok (some node')) :
    id ∈ node'.tagBundles := by
  rw [applyBundle] at h
  by_cases happlied : (node.tagBundles.contains id != false) = true
  · rw [if_pos happlied] at h
    cases h
  rw [if_neg happlied] at h
  dsimp only at h
  split at h
  · next r hr =>
    cases h
    rw [tagBundles_of_rebuild hr]
    exact List.mem_append_right _ (List.mem_singleton_self id)
  · cases h

theorem applyBundle_ne_error_ok {remove : Bool} (node : NodeHeader) :
    applyBundle bundles id remove node ≠ .error .ok := by
  rw [applyBundle]
  split_ifs
  · rintro ⟨⟩
  all_goals
    dsimp only
    split
    · rintro ⟨⟩
    · rintro ⟨⟩

/-! ### What is left of the tags -/

theorem mem_tagKeys_bundleMembers {ids : List NodeId} {members : List Bytes} {key : Bytes}
    (h : bundleMembers bundles ids = some members) : key ∈ tagKeys members ↔
      ∃ id ∈ ids, ∃ b, findBundle bundles id = some b ∧ key ∈ tagKeys b.tags := by
  induction ids generalizing members with
  | nil =>
    cases h
    simp [tagKeys]
  | cons id ids ih =>
    obtain ⟨b, hb, rest, hrest, rfl⟩ : ∃ b, findBundle bundles id = some b ∧
        ∃ rest, bundleMembers bundles ids = some rest ∧ b.tags ++ rest = members := by
      simpa [bundleMembers, Option.bind_eq_some_iff] using h
    rw [tagKeys_append, List.mem_append, ih hrest, List.exists_mem_cons_iff]
    refine or_congr_left ?_
    rw [hb]
    simp

/-- Fewer bundles are all known, too. -/
theorem exists_bundleMembers_filter {ids : List NodeId} {members : List Bytes}
    (h : bundleMembers bundles ids = some members) (p : NodeId → Bool) :
    ∃ members', bundleMembers bundles (ids.filter p) = some members' := by
  induction ids generalizing members with
  | nil => exact ⟨[], rfl⟩
  | cons id ids ih =>
    obtain ⟨b, hb, rest, hrest, -⟩ : ∃ b, findBundle bundles id = some b ∧
        ∃ rest, bundleMembers bundles ids = some rest ∧ b.tags ++ rest = members := by
      simpa [bundleMembers, Option.bind_eq_some_iff] using h
    obtain ⟨members', hmembers'⟩ := ih hrest
    rw [List.filter_cons]
    split_ifs
    · exact ⟨b.tags ++ members', by rw [bundleMembers, hb, hmembers']; rfl⟩
    · exact ⟨members', hmembers'⟩

/-- A tag that an explicit one or a bundle other than the one named supplies. -/
def SuppliedWithout (bundles : List TagBundle) (id : NodeId) (node : NodeHeader) (key : Bytes) :
    Prop :=
  key ∈ tagKeys node.explicitTags ∨ ∃ other ∈ node.tagBundles, other ≠ id ∧
    ∃ b, findBundle bundles other = some b ∧ key ∈ tagKeys b.tags

/-- **What a removal takes.** The explicit tags and the other bundles stay, and so does exactly what
they supply. -/
theorem applyBundle_remove (hk : node.TagsKept bundles) (hid : id ∈ node.tagBundles) :
    ∃ node', applyBundle bundles id true node = .ok (some node') ∧
      node'.explicitTags = node.explicitTags ∧
      node'.tagBundles = node.tagBundles.filter (fun b ↦ b != id) ∧
      ∀ key, key ∈ tagKeys node'.tags ↔
        key ∈ tagKeys node.tags ∧ SuppliedWithout bundles id node key := by
  have hp : node.tagProvenance = true := by
    by_contra hp
    rw [hk.bare (Bool.not_eq_true _ ▸ hp)] at hid
    exact absurd hid List.not_mem_nil
  have hcontains : node.tagBundles.contains id = true := List.contains_iff_mem.mpr hid
  obtain ⟨members, hmem, hlen, htags⟩ := (rebuildBundleTags_eq_some_iff hp).mp hk.rebuilt
  obtain ⟨members', hmem'⟩ := exists_bundleMembers_filter hmem fun b ↦ b != id
  have hman := hk.manual
  rw [if_pos hp] at hman
  have hkeys (key : Bytes) : key ∈ tagKeys members' ↔
      ∃ other ∈ node.tagBundles, other ≠ id ∧
        ∃ b, findBundle bundles other = some b ∧ key ∈ tagKeys b.tags := by
    simp only [mem_tagKeys_bundleMembers hmem', List.mem_filter, bne_iff_ne, and_assoc]
  have hunion (key : Bytes) : key ∈ tagKeys (union tagCiEqual node.explicitTags members') ↔
      SuppliedWithout bundles id node key := by
    rw [SuppliedWithout, ← hkeys]
    exact KeyedUnion.mem_keys_union decides_tagCiEqual
  -- What is left was there before.
  have hsub (key : Bytes) (hkey : SuppliedWithout bundles id node key) : key ∈ tagKeys node.tags := by
    rw [congrArg NodeHeader.tags htags]
    refine (KeyedUnion.mem_keys_union decides_tagCiEqual).mpr (hkey.imp_right ?_)
    rintro ⟨other, hother, -, b, hb, hkey⟩
    exact (mem_tagKeys_bundleMembers hmem).mpr ⟨other, hother, b, hb, hkey⟩
  have hfew : (union tagCiEqual node.explicitTags members').length ≤ indexMaxTags := by
    refine le_trans ?_ hk.count
    refine KeyedUnion.length_le_of_keys_subset
      (KeyedUnion.nodup_union decides_tagCiEqual hman) fun key hkey ↦ ?_
    exact hsub key ((hunion key).mp hkey)
  have hrebuild := (@rebuildBundleTags_eq_some_iff bundles
    { node with tagBundles := node.tagBundles.filter fun b ↦ b != id } _ hp).mpr
      ⟨members', hmem', hfew, rfl⟩
  refine ⟨{ node with
    tags := union tagCiEqual node.explicitTags members'
    tagBundles := node.tagBundles.filter fun b ↦ b != id }, ?_, rfl, rfl, fun key ↦ ?_⟩
  · rw [applyBundle, hcontains, if_neg (by decide), initializeTagProvenance_of_applied hp hid]
    dsimp only
    rw [if_pos rfl, hrebuild]
  · exact (hunion key).trans (iff_and_self.mpr (hsub key))

/-! ## Nodes of a vault -/

theorem name_of_rebuild (h : rebuildBundleTags bundles node = some node') :
    node'.name = node.name := by
  cases hp : node.tagProvenance with
  | false =>
    rw [rebuildBundleTags_of_not hp, Option.some_inj] at h
    rw [h]
  | true =>
    obtain ⟨members, -, -, rfl⟩ := (rebuildBundleTags_eq_some_iff hp).mp h
    rfl

@[simp] theorem name_initializeTagProvenance : (initializeTagProvenance node).name = node.name := by
  rw [initializeTagProvenance]
  split_ifs <;> rfl

theorem name_applyBundle {remove : Bool}
    (h : applyBundle bundles id remove node = .ok (some node')) : node'.name = node.name := by
  rw [applyBundle] at h
  by_cases happlied : (node.tagBundles.contains id != remove) = true
  · rw [if_pos happlied] at h
    cases h
  rw [if_neg happlied] at h
  dsimp only at h
  split at h
  · next r hr =>
    cases h
    exact (name_of_rebuild hr).trans name_initializeTagProvenance
  · cases h

/-- Applying a bundle as often as one likes, and then removing it. -/
theorem iterate_applyBundle_undo (hk : node.TagsKept bundles) (hp : node.tagProvenance = true)
    (hid : id ∉ node.tagBundles) (k : ℕ) :
    (editStep (applyBundle bundles id true))^[k]
      ((editStep (applyBundle bundles id false))^[k] node) = node := by
  have hremoved : editStep (applyBundle bundles id true) node = node :=
    editStep_of_none (applyBundle_of_not_applied bundles hid)
  rcases k with _ | k
  · rfl
  rw [Function.iterate_succ_apply (editStep (applyBundle bundles id false))]
  rcases happly : applyBundle bundles id false node with r | _ | node'
  · -- An application that fails leaves the node as it is.
    have hfixed : editStep (applyBundle bundles id false) node = node := by rw [editStep, happly]
    rw [hfixed, Function.iterate_fixed hfixed, Function.iterate_fixed hremoved]
  · have hfixed := editStep_of_none happly
    rw [hfixed, Function.iterate_fixed hfixed, Function.iterate_fixed hremoved]
  · have happlied := applyBundle_of_applied bundles (mem_tagBundles_applyBundle happly)
    rw [editStep_of_some happly, Function.iterate_fixed (editStep_of_none happlied),
      Function.iterate_succ_apply, editStep_of_some (applyBundle_undo hk hp hid happly),
      Function.iterate_fixed hremoved]

namespace Vault

variable {μ : Type} {v v' : Vault μ} {paths : List Bytes} {name : Bytes} {remove : Bool}
  {cancel : ℕ → Bool} {outcome : VaultResult} {b : TagBundle} {p : List ℕ} {t : Node μ}

/-- What applying or removing a bundle, with success, makes of the tree. -/
theorem root_applyTagBundle
    (hb : v.settings.tagBundles.find? (fun b ↦ tagCiEqual b.name name) = some b)
    (h : v.applyTagBundle paths name remove cancel outcome = (.ok, v')) :
    v'.settings = v.settings ∧
      (v'.root = editedTree (applyBundle v.settings.tagBundles b.id remove)
          (paths.map (resolveSelection v.root)) v.root ∨
        v'.root = v.root ∧ ∃ k, cancel k = true) := by
  rw [applyTagBundle, hb] at h
  split_ifs at h with haccess
  · exact absurd (congrArg Prod.fst h) haccess
  · obtain ⟨hok, rfl⟩ := Prod.ext_iff.mp h
    dsimp only at hok ⊢
    refine ⟨sameButTree_editNodes.settings, ?_⟩
    rcases root_editNodes hok with hroot | ⟨herror, hsame⟩
    · exact .inl hroot
    · refine .inr ⟨congrArg Vault.root hsame, ?_⟩
      by_contra hcancel
      push Not at hcancel
      exact editSelection_ne_error_ok (fun k ↦ Bool.eq_false_iff.mpr (hcancel k))
        applyBundle_ne_error_ok herror

theorem resolveSelection_editedTree_applyBundle {bundles : List TagBundle} {id : NodeId}
    {positions : List (Option (List ℕ))} {root : Node μ} (path : Bytes) :
    resolveSelection (editedTree (applyBundle bundles id remove) positions root) path =
      resolveSelection root path :=
  resolveSelection_mapAt (fun _ _ ↦ name_iterate_editStep (fun _ _ ↦ name_applyBundle) _ _) path

/-- **Bundles come off again.** Take any node of a reachable vault and any bundle. Applying the bundle
to a selection changes nothing at the node if it has the bundle already; if it does not, removing the
bundle from the same selection gives the node as it was. Removing an applied bundle from the node
keeps the explicit tags and the other bundles, and of the tags exactly what these supply. -/
theorem bundle_comes_off (hv : v.Reachable) (name : Bytes) {b : TagBundle}
    (hb : v.settings.tagBundles.find? (fun b ↦ tagCiEqual b.name name) = some b)
    (ht : v.root.get? p = some t) :
    (∀ paths cancel outcome v₁, v.applyTagBundle paths name false cancel outcome = (.ok, v₁) →
      (b.id ∈ t.label.tagBundles → (v₁.root.get? p).map (·.label) = some t.label) ∧
      (t.label.tagProvenance = true → b.id ∉ t.label.tagBundles → ∀ outcome v₂,
        v₁.applyTagBundle paths name true (fun _ ↦ false) outcome = (.ok, v₂) →
        (v₂.root.get? p).map (·.label) = some t.label)) ∧
    (∀ paths outcome v₁, v.applyTagBundle paths name true (fun _ ↦ false) outcome = (.ok, v₁) →
      some p ∈ paths.map (resolveSelection v.root) → b.id ∈ t.label.tagBundles →
      ∃ n, (v₁.root.get? p).map (·.label) = some n ∧ n.explicitTags = t.label.explicitTags ∧
        n.tagBundles = t.label.tagBundles.filter (fun id ↦ id != b.id) ∧
        ∀ key, key ∈ tagKeys n.tags ↔ key ∈ tagKeys t.label.tags ∧
          SuppliedWithout v.settings.tagBundles b.id t.label key) := by
  have hk : t.label.TagsKept v.settings.tagBundles := (hv.tagsKept.live.get? ht).label.tags
  refine ⟨fun paths cancel outcome v₁ happly ↦ ?_, fun paths outcome v₁ hremove hsel hid ↦ ?_⟩
  · obtain ⟨hsettings, hroot⟩ := root_applyTagBundle hb happly
    refine ⟨fun hid ↦ ?_, fun hp hid outcome' v₂ hremove ↦ ?_⟩
    · rcases hroot with hroot | ⟨hroot, -⟩
      · have hfixed := editStep_of_none (applyBundle_of_applied v.settings.tagBundles hid)
        rw [hroot, get?_editedTree, ht, Option.map_some, Function.iterate_fixed hfixed]
      · rw [hroot, ht, Option.map_some]
    · have hb₁ : v₁.settings.tagBundles.find? (fun b ↦ tagCiEqual b.name name) = some b := by
        rw [hsettings, hb]
      obtain ⟨-, hroot₂⟩ := root_applyTagBundle hb₁ hremove
      have hroot₂ := hroot₂.resolve_right fun h ↦ by simp at h
      rw [hroot₂, get?_editedTree, hsettings]
      rcases hroot with hroot | ⟨hroot, -⟩
      · have hpaths : paths.map (resolveSelection v₁.root) = paths.map (resolveSelection v.root) := by
          refine List.map_congr_left fun path _ ↦ ?_
          rw [hroot, resolveSelection_editedTree_applyBundle]
        rw [hpaths, hroot]
        refine (Option.map_map _ (fun t : Node μ ↦ t.label) _).symm.trans ?_
        rw [get?_editedTree, ht, Option.map_some, Option.map_some, iterate_applyBundle_undo hk hp hid]
      · have hfixed := editStep_of_none
          (applyBundle_of_not_applied v.settings.tagBundles hid)
        rw [hroot, ht, Option.map_some, Function.iterate_fixed hfixed]
  · obtain ⟨-, hroot⟩ := root_applyTagBundle hb hremove
    have hroot := hroot.resolve_right fun h ↦ by simp at h
    obtain ⟨n, hn, hexplicit, hbundles, hkeys⟩ := applyBundle_remove hk hid
    refine ⟨n, ?_, hexplicit, hbundles, hkeys⟩
    obtain ⟨k, hcount⟩ := Nat.exists_eq_succ_of_ne_zero (List.count_pos_iff.mpr hsel).ne'
    have hgone : b.id ∉ n.tagBundles := by
      rw [hbundles, List.mem_filter]
      simp
    have hfixed := editStep_of_none
      (applyBundle_of_not_applied v.settings.tagBundles hgone)
    rw [hroot, get?_editedTree, ht, Option.map_some, hcount, Function.iterate_succ_apply,
      editStep_of_some hn, Function.iterate_fixed hfixed]

theorem bundle_comes_off_root :
    bundledOnce.root.label.tags = [ascii "a", ascii "b"] ∧
    ((bundledOnce.applyTagBundle [[]] (ascii "x") true (fun _ ↦ false) .ok).2.root.get? []).map
      (·.label) = some bundled.root.label :=
  ⟨by decide +kernel,
    (((bundle_comes_off reachable_bundled (ascii "x") (b := ⟨.zero, ascii "x", [ascii "b"]⟩)
      (by decide +kernel) (LeafTree.get?_nil _)).1 [[]] (fun _ ↦ false) .ok bundledOnce
        (Prod.ext (by decide +kernel) rfl)).2 (by decide +kernel) (by decide +kernel) .ok _
          (Prod.ext (by decide +kernel) rfl))⟩

/-- Applying a bundle that is applied does nothing, so removing it does not lead back. -/
theorem bundle_applied_before :
    bundledOnce.Reachable ∧
    (bundledOnce.applyTagBundle [[]] (ascii "x") false (fun _ ↦ false) .ok).1 = .ok ∧
    ((bundledOnce.applyTagBundle [[]] (ascii "x") false (fun _ ↦ false) .ok).2.applyTagBundle [[]]
      (ascii "x") true (fun _ ↦ false) .ok).1 = .ok ∧
    ((bundledOnce.applyTagBundle [[]] (ascii "x") false (fun _ ↦ false) .ok).2.applyTagBundle [[]]
      (ascii "x") true (fun _ ↦ false) .ok).2.root.label.tagBundles = [] ∧
    bundledOnce.root.label.tagBundles = [.zero] :=
  ⟨reachable_bundledOnce, by decide +kernel, by decide +kernel, by decide +kernel,
    by decide +kernel⟩

end Vault

end SafeVault
