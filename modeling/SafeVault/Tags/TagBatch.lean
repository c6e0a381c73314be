import Mathlib.Data.List.DropRight
import SafeVault.Lib.UndoLog
import SafeVault.Tags.Prune
import SafeVault.Vault.RemoveMedia

/-!
# A batch of edits and its undoing

A batch edits the live tree in place. Before a node is changed its position and header go on a log,
and unless the commit succeeds the log is gone through backwards at the end. So a batch that fails or
is cancelled leaves the tree as it was, and what it does is an edit of selected nodes that is committed
or dropped. With that, adding or removing a tag on a selection does the same as doing so on one path
after the other.
-/

namespace SafeVault

open LeafTree (restore)

variable {μ : Type} {bundles : List TagBundle} {node node' : NodeHeader}

/-! ## The paths of a selection -/

/-- `index_selection_children`: where the children of a gallery are, by name. -/
def indexSelectionChildren (root : Node μ) (parent : Option (List ℕ)) : List (Bytes × List ℕ) :=
  match parent.bind fun p ↦ (root.get? p).map fun t ↦ (p, t) with
  | some (p, .branch _ cs) => cs.zipIdx.map fun c ↦ (c.1.label.name, p ++ [c.2])
  | _ => []

/-- `resolve_node_selection`, with the children that were indexed for the parents so far. -/
def resolveNodeSelection (root : Node μ) :
    List (Bytes × List (Bytes × List ℕ)) → List Bytes → List (Option (List ℕ))
  | _, [] => []
  | parents, path :: paths =>
    if path.isEmpty then resolveNode root [] :: resolveNodeSelection root parents paths
    else
      match parents.lookup (parentOf path) with
      | some children => children.lookup (leafOf path) :: resolveNodeSelection root parents paths
      | none =>
        let children := indexSelectionChildren root (resolveNode root (parentOf path))
        children.lookup (leafOf path) ::
          resolveNodeSelection root ((parentOf path, children) :: parents) paths

section Selection

variable {root : Node μ} {path : Bytes}

/-- The name of a child leads to the first child that has it. -/
theorem lookup_zipIdx_children (cs : List (Node μ)) (p : List ℕ) (name : Bytes) (i : ℕ) :
    ((cs.zipIdx i).map fun c ↦ (c.1.label.name, p ++ [c.2])).lookup name =
      (cs.findIdx? (·.named name)).map fun j ↦ p ++ [i + j] := by
  induction cs generalizing i with
  | nil => rfl
  | cons c cs ih =>
    rw [List.zipIdx_cons, List.map_cons, List.lookup_cons, List.findIdx?_cons, LeafTree.named,
      Bool.beq_comm (a := name)]
    rcases c.label.name == name with _ | _
    · simp only [Bool.false_eq_true, if_false]
      rw [ih, Option.map_map]
      refine Option.map_congr fun j _ ↦ ?_
      rw [Function.comp_apply, Nat.add_right_comm, Nat.add_assoc]
    · rfl

theorem lookup_indexSelectionChildren (hpath : path.isEmpty = false) :
    (indexSelectionChildren root (resolveNode root (parentOf path))).lookup (leafOf path) =
      resolveSelection root path := by
  rw [resolveSelection, if_neg (hpath ▸ Bool.false_ne_true), indexSelectionChildren]
  rcases resolveNode root (parentOf path) with _ | p
  · rfl
  rcases hg : root.get? p with _ | ⟨h, cs⟩ | ⟨h, m⟩
  · simp [hg]
  · simp only [Option.bind_some, hg, Option.map_some]
    rw [lookup_zipIdx_children]
    simp [LeafTree.isGallery, hg, Option.map_eq_bind]
  · simp [hg, LeafTree.isGallery]

theorem mem_of_lookup_eq_some {β : Type} {xs : List (Bytes × β)} {k : Bytes} {b : β}
    (h : xs.lookup k = some b) : (k, b) ∈ xs := by
  obtain ⟨before, after, rfl, -⟩ := List.lookup_eq_some_iff.mp h
  exact List.mem_append_right _ List.mem_cons_self

/-- **One walk for all paths** finds what looking up each path finds: an entry of the cache is what
would be computed again. -/
theorem resolveNodeSelection_eq {parents : List (Bytes × List (Bytes × List ℕ))}
    (hparents : ∀ e ∈ parents, e.2 = indexSelectionChildren root (resolveNode root e.1))
    (paths : List Bytes) :
    resolveNodeSelection root parents paths = paths.map (resolveSelection root) := by
  induction paths generalizing parents with
  | nil => rfl
  | cons path paths ih =>
    rw [resolveNodeSelection, List.map_cons]
    split_ifs with hpath
    · rw [ih hparents, resolveSelection, if_pos hpath]
    · have hpath := Bool.eq_false_iff.mpr hpath
      split
      · next children hchildren =>
        have hcached : children = _ := hparents _ (mem_of_lookup_eq_some hchildren)
        rw [ih hparents, ← lookup_indexSelectionChildren hpath, hcached]
      · dsimp only
        rw [lookup_indexSelectionChildren hpath, ih (List.forall_mem_cons.mpr ⟨rfl, hparents⟩)]

/-- The child of a gallery is found by the path that has its name behind that of the gallery. -/
theorem nodeAt_append_singleton {t g : Node μ} {segs : List Bytes} (h : nodeAt t segs = some g)
    (hg : g.isGallery = true) (leaf : Bytes) :
    nodeAt t (segs ++ [leaf]) = g.children.find? (·.named leaf) := by
  induction segs generalizing t with
  | nil =>
    obtain rfl := Option.some_inj.mp h
    rfl
  | cons seg segs ih =>
    rcases segs with _ | ⟨next, segs⟩
    · rw [nodeAt] at h
      have hfirst : t.children.find? (fun c ↦ c.isGallery && c.named seg) = some g := by
        rw [List.find?_eq_some_iff_append] at h ⊢
        obtain ⟨hname, before, after, heq, hbefore⟩ := h
        refine ⟨by rw [hg, hname, Bool.true_and], before, after, heq, fun c hc ↦ ?_⟩
        rw [Bool.not_and, hbefore c hc, Bool.or_true]
      rw [List.singleton_append, nodeAt, hfirst]
      rfl
    · rw [nodeAt] at h
      obtain ⟨c, hc, hrest⟩ := Option.bind_eq_some_iff.mp h
      rw [List.cons_append, List.cons_append, nodeAt, hc]
      exact ih hrest

/-- What a selection finds, the lookup of a single path finds. -/
theorem isSome_resolveNode_of_resolveSelection {q : List ℕ}
    (h : resolveSelection root path = some q) : (resolveNode root path).isSome := by
  rw [resolveSelection] at h
  split_ifs at h with hpath
  · rw [List.isEmpty_iff.mp hpath, h]
    rfl
  obtain ⟨p, hp, h⟩ := Option.bind_eq_some_iff.mp h
  obtain ⟨g, hget, h⟩ := Option.bind_eq_some_iff.mp h
  dsimp only at h
  obtain ⟨hgallery, i, hi, -⟩ : g.isGallery = true ∧
      ∃ i, g.children.findIdx? (·.named (leafOf path)) = some i ∧ some (p ++ [i]) = some q := by
    split_ifs at h with hgallery
    · exact ⟨hgallery, Option.bind_eq_some_iff.mp h⟩
    · cases h
  by_cases hleaf : leafOf path = []
  · -- Behind the last slash is nothing, so the single lookup stops at the parent.
    have hsplit : splitPath path = splitPath (parentOf path) := by
      rcases parentOf_leafOf path with heq | ⟨-, heq⟩
      · conv_lhs => rw [heq, hleaf, splitPath_append_slash]
        exact List.append_nil _
      · exact absurd (heq ▸ hleaf) (by simpa using hpath)
    rw [resolveNode, hsplit, ← resolveNode, hp]
    rfl
  · have hnode : nodeAt root (splitPath (parentOf path)) = some g := by
      rw [← resolveNode_bind_get?, hp]
      exact hget
    have hfind : ((resolveNode root path).bind root.get?).isSome := by
      rw [resolveNode_bind_get?, splitPath_parentOf_leafOf hleaf,
        nodeAt_append_singleton hnode hgallery, List.find?_isSome]
      obtain ⟨hlt, hname, -⟩ := List.findIdx?_eq_some_iff_getElem.mp hi
      exact ⟨_, List.getElem_mem hlt, hname⟩
    rcases hr : resolveNode root path with _ | r
    · rw [hr] at hfind
      exact absurd hfind Bool.false_ne_true
    · rfl

end Selection

/-! ## Editing in place -/

/-- The change of a node by `TagBatchChanges::apply` up to the recomputation, if there is one. -/
def draftTag (tag : Bytes) (remove : Bool) (node : NodeHeader) : Option NodeHeader :=
  if (manualTags node).any (tagCiEqual · tag) != remove then none
  else
    let node := initializeTagProvenance node
    let explicitTags := if remove then node.explicitTags.filter fun t ↦ !tagCiEqual t tag
      else node.explicitTags ++ [tag]
    some { node with explicitTags }

/-- The edit that a draft and a recomputation make. -/
def editOf (bundles : List TagBundle) (draft : NodeHeader → Option NodeHeader) (node : NodeHeader) :
    Except VaultResult (Option NodeHeader) :=
  match draft node with
  | none => .ok none
  | some edited =>
    match rebuildBundleTags bundles edited with
    | some node' => .ok (some node')
    | none => .error .invalidArg

theorem applyTag_eq_editOf (tag : Bytes) (remove : Bool) :
    applyTag bundles tag remove = editOf bundles (draftTag tag remove) := by
  funext node
  rw [applyTag, editOf, draftTag]
  split_ifs
  · rfl
  · rfl
  · rfl

/-- A tree that is being edited, and the log of what it was, newest first. -/
structure LiveEdit (μ : Type) where
  root : Node μ
  log : List (List ℕ × NodeHeader)

/-- Edit the nodes at some positions in place. Reports the result if the loop is left early. A failed
recomputation leaves the draft in the tree. -/
def runLive (bundles : List TagBundle) (draft : NodeHeader → Option NodeHeader) :
    (ℕ → Bool) → List (Option (List ℕ)) → LiveEdit μ → Option VaultResult × LiveEdit μ
  | cancel, [], s => (if cancel 0 then some .ok else none, s)
  | cancel, position :: rest, s =>
    if cancel 0 then (some .ok, s)
    else
      match position.bind fun p ↦ (s.root.get? p).map fun t ↦ (p, t.label) with
      | none => runLive bundles draft (fun k ↦ cancel (k + 1)) rest s
      | some (p, node) =>
        match draft node with
        | none => runLive bundles draft (fun k ↦ cancel (k + 1)) rest s
        | some edited =>
          match rebuildBundleTags bundles edited with
          | some node' =>
            runLive bundles draft (fun k ↦ cancel (k + 1)) rest
              ⟨s.root.modifyAt (LeafTree.setLabel fun _ ↦ node') p, (p, node) :: s.log⟩
          | none =>
            (some .invalidArg,
              ⟨s.root.modifyAt (LeafTree.setLabel fun _ ↦ edited) p, (p, node) :: s.log⟩)

/-- What an entry of `TagBatchChanges` puts back. -/
def backTags (old node : NodeHeader) : NodeHeader :=
  { node with tags := old.tags, explicitTags := old.explicitTags,
              tagProvenance := old.tagProvenance }

namespace Vault

/-- Edit in place and commit if there was anything to do; undo everything unless the commit
succeeds. -/
def editNodesLive (back : NodeHeader → NodeHeader → NodeHeader) (bundles : List TagBundle)
    (draft : NodeHeader → Option NodeHeader) (cancel : ℕ → Bool)
    (positions : List (Option (List ℕ))) (outcome : VaultResult) (v : Vault μ) :
    VaultResult × Vault μ :=
  match runLive bundles draft cancel positions ⟨v.root, []⟩ with
  | (some early, s) => (early, { v with root := restore back s.log s.root })
  | (none, s) =>
    if s.log.isEmpty then (.ok, { v with root := s.root })
    else
      let (r, w) := ({ v with root := s.root } : Vault μ).commitIndex outcome
      (r, if r = .ok then w else { w with root := restore back s.log w.root })

/-- `mutate_tags_batch`, in place. -/
def mutateTagsBatchLive (paths : List Bytes) (tag : Bytes) (remove : Bool) (cancel : ℕ → Bool)
    (outcome : VaultResult) (v : Vault μ) : VaultResult × Vault μ :=
  if v.writable ≠ .ok then (v.writable, v)
  else if (normaliseTag tag).isEmpty then (if remove then .ok else .invalidArg, v)
  else if tagUnstorable (normaliseTag tag) then (.invalidArg, v)
  else if cancel 0 then (.ok, v)
  else
    v.editNodesLive backTags v.settings.tagBundles (draftTag (normaliseTag tag) remove)
      (fun k ↦ cancel (k + 1)) (resolveNodeSelection v.root [] paths) outcome

end Vault

/-! ### The log leads back -/

/-- The changes of a draft and of the recomputation are taken back by an entry. -/
structure TakenBack (back : NodeHeader → NodeHeader → NodeHeader) (bundles : List TagBundle)
    (draft : NodeHeader → Option NodeHeader) : Prop where
  ofDraft : ∀ n e, draft n = some e → back n e = n
  ofRebuilt : ∀ n e n', draft n = some e → rebuildBundleTags bundles e = some n' → back n n' = n

section Run

variable {back : NodeHeader → NodeHeader → NodeHeader} {draft : NodeHeader → Option NodeHeader}

theorem restore_set {s : LiveEdit μ} {p : List ℕ} {t : Node μ} (ht : s.root.get? p = some t)
    (hback : back t.label node' = t.label) :
    restore back ((p, t.label) :: s.log) (s.root.modifyAt (LeafTree.setLabel fun _ ↦ node') p) =
      restore back s.log s.root :=
  LeafTree.restore_cons_modifyAt ht hback

/-- **A run in place** ends like the edit that it stands for, and whatever its end, its log leads back
to where the log before led. -/
theorem runLive_spec (hback : TakenBack back bundles draft) (cancel : ℕ → Bool)
    (positions : List (Option (List ℕ))) (s : LiveEdit μ) :
    let run := runLive bundles draft cancel positions s
    restore back run.2.log run.2.root = restore back s.log s.root ∧
      match Vault.editSelection (editOf bundles draft) cancel positions s.root (!s.log.isEmpty) with
      | .error r => run.1 = some r
      | .ok (root, changed) => run.1 = none ∧ run.2.root = root ∧ (!run.2.log.isEmpty) = changed := by
  induction positions generalizing cancel s with
  | nil =>
    rw [runLive, Vault.editSelection]
    split_ifs
    · exact ⟨rfl, rfl⟩
    · exact ⟨rfl, rfl, rfl, rfl⟩
  | cons position rest ih =>
    rw [runLive, Vault.editSelection]
    split_ifs
    · exact ⟨rfl, rfl⟩
    rcases hat : position.bind fun p ↦ (s.root.get? p).map fun t ↦ (p, t.label) with _ | ⟨p, n⟩
    · simp only [hat]
      exact ih _ s
    simp only [hat]
    obtain ⟨q, -, hq⟩ := Option.bind_eq_some_iff.mp hat
    obtain ⟨t, ht, hpt⟩ := Option.map_eq_some_iff.mp hq
    obtain ⟨rfl, rfl⟩ := Prod.mk.inj hpt
    rcases hdraft : draft t.label with _ | edited
    · have hidle : editOf bundles draft t.label = .ok none := by rw [editOf, hdraft]
      rw [hidle]
      exact ih _ s
    · rcases hrebuild : rebuildBundleTags bundles edited with _ | n'
      · have hfail : editOf bundles draft t.label = .error .invalidArg := by
          rw [editOf, hdraft]
          dsimp only
          rw [hrebuild]
        rw [hfail]
        dsimp only
        rw [hrebuild]
        exact ⟨restore_set ht (hback.ofDraft _ _ hdraft), rfl⟩
      · have hdone : editOf bundles draft t.label = .ok (some n') := by
          rw [editOf, hdraft]
          dsimp only
          rw [hrebuild]
        rw [hdone]
        dsimp only
        rw [hrebuild]
        dsimp only
        have hnext := ih (fun k ↦ cancel (k + 1))
          ⟨s.root.modifyAt (LeafTree.setLabel fun _ ↦ n') q, (q, t.label) :: s.log⟩
        rwa [restore_set ht (hback.ofRebuilt _ _ _ hdraft hrebuild)] at hnext

/-- **In place and not.** Editing in place with a log does what editing a copy does. -/
theorem Vault.editNodesLive_eq (hback : TakenBack back bundles draft) (cancel : ℕ → Bool)
    (positions : List (Option (List ℕ))) (outcome : VaultResult) (v : Vault μ) :
    v.editNodesLive back bundles draft cancel positions outcome =
      v.editNodes (editOf bundles draft) cancel positions outcome := by
  obtain ⟨hrestore, hrun⟩ := runLive_spec hback cancel positions ⟨v.root, []⟩
  rw [Vault.editNodesLive, Vault.editNodes]
  rcases hs : runLive bundles draft cancel positions ⟨v.root, []⟩ with ⟨early, s⟩
  rw [hs] at hrestore hrun
  change restore back s.log s.root = v.root at hrestore
  change match Vault.editSelection (editOf bundles draft) cancel positions v.root false with
    | .error r => early = some r
    | .ok (root, changed) => early = none ∧ s.root = root ∧ (!s.log.isEmpty) = changed at hrun
  rcases hsel : Vault.editSelection (editOf bundles draft) cancel positions v.root false with
    r | ⟨root, changed⟩
  · rw [hsel] at hrun
    obtain rfl := hrun
    dsimp only
    rw [hrestore]
  · rw [hsel] at hrun
    obtain ⟨rfl, rfl, rfl⟩ := hrun
    dsimp only
    rcases hlog : s.log with _ | ⟨e, log⟩
    · have hsame := ((editSelection_eq hsel).2 (by rw [hlog]; rfl)).1
      rw [hsame]
      rfl
    · rw [hlog] at hrestore
      rw [List.isEmpty_cons, Bool.not_false, if_neg Bool.false_ne_true]
      by_cases hlegacy : (!v.v3 && v.legacyReadOnly) = true
      · simp [Vault.transact, Vault.commitIndex, hlegacy, hrestore]
      · by_cases hok : outcome = .ok
        · simp [Vault.transact, Vault.commitIndex, hlegacy, hok]
        · simp [Vault.transact, Vault.commitIndex, hlegacy, hok, hrestore]

end Run

theorem takenBack_draftTag (tag : Bytes) (remove : Bool) :
    TakenBack backTags bundles (draftTag tag remove) := by
  have hinit (n : NodeHeader) : backTags n (initializeTagProvenance n) = n := by
    rw [initializeTagProvenance]
    split_ifs <;> rfl
  have hdraft (n e : NodeHeader) (h : draftTag tag remove n = some e) : backTags n e = n := by
    rw [draftTag] at h
    split_ifs at h
    all_goals
      cases h
      exact hinit n
  refine ⟨hdraft, fun n e n' h hr ↦ ?_⟩
  rcases hp : e.tagProvenance with _ | _
  · rw [rebuildBundleTags_of_not hp, Option.some_inj] at hr
    subst hr
    exact hdraft n e h
  · obtain ⟨members, -, -, rfl⟩ := (rebuildBundleTags_eq_some_iff hp).mp hr
    exact hdraft n e h

/-! ## A batch and its members -/

theorem normaliseTag_idem (tag : Bytes) : normaliseTag (normaliseTag tag) = normaliseTag tag := by
  have hfront : (normaliseTag tag).dropWhile isBlank = normaliseTag tag := by
    rw [List.dropWhile_eq_self_iff]
    intro hlt
    have hpre : normaliseTag tag <+: tag.dropWhile isBlank := List.rdropWhile_prefix isBlank _
    rw [hpre.getElem hlt]
    exact List.dropWhile_get_zero_not isBlank tag _
  rw [normaliseTag, hfront]
  exact List.rdropWhile_idempotent isBlank _

section Edited

variable {edit : NodeHeader → Except VaultResult (Option NodeHeader)} {root : Node μ}

/-- Editing at one position after the other. -/
theorem editedTree_cons (position : Option (List ℕ)) (positions : List (Option (List ℕ))) :
    editedTree edit (position :: positions) root =
      editedTree edit positions (editedTree edit [position] root) := by
  rw [editedTree, editedTree, editedTree, LeafTree.mapAt_mapAt]
  refine LeafTree.mapAt_congr fun q u _ ↦ ?_
  rw [List.count_cons, List.count_cons, List.count_nil, Nat.zero_add, Function.iterate_add_apply]

theorem editedTree_none (positions : List (Option (List ℕ))) :
    editedTree edit (none :: positions) root = editedTree edit positions root :=
  editedTree_cons_of_idle fun _ _ h ↦ absurd h (Option.some_ne_none _).symm

theorem resolveSelection_editedTree
    (hname : ∀ n n', edit n = .ok (some n') → n'.name = n.name)
    (positions : List (Option (List ℕ))) (path : Bytes) :
    resolveSelection (editedTree edit positions root) path = resolveSelection root path :=
  resolveSelection_mapAt (fun _ _ ↦ name_iterate_editStep hname _ _) path

end Edited

theorem name_of_applyTag {tag : Bytes} {remove : Bool}
    (h : applyTag bundles tag remove node = .ok (some node')) : node'.name = node.name := by
  rw [applyTag_eq_editOf, editOf] at h
  rcases hdraft : draftTag tag remove node with _ | edited
  · rw [hdraft] at h
    cases h
  · rw [hdraft] at h
    dsimp only at h
    rcases hrebuild : rebuildBundleTags bundles edited with _ | n'
    · rw [hrebuild] at h
      cases h
    · rw [hrebuild, Except.ok.injEq, Option.some_inj] at h
      have hback := (takenBack_draftTag tag remove).ofRebuilt node edited n' hdraft hrebuild
      rw [← h]
      change (backTags node n').name = node.name
      rw [hback]

theorem applyTag_ne_error_ok (tag : Bytes) (remove : Bool) (node : NodeHeader) :
    applyTag bundles tag remove node ≠ .error .ok := by
  rw [applyTag_eq_editOf, editOf]
  split
  · exact nofun
  · split
    · exact nofun
    · exact nofun

namespace Vault

variable {v : Vault μ} {tag : Bytes} {remove : Bool}

/-- **The batch in place** does what the batch on a copy does. -/
theorem mutateTagsBatchLive_eq (paths : List Bytes) (tag : Bytes) (remove : Bool)
    (cancel : ℕ → Bool) (outcome : VaultResult) (v : Vault μ) :
    v.mutateTagsBatchLive paths tag remove cancel outcome =
      v.mutateTagsBatch paths tag remove cancel outcome := by
  rw [mutateTagsBatchLive, mutateTagsBatch, editNodesLive_eq (takenBack_draftTag _ _),
    resolveNodeSelection_eq fun _ h ↦ absurd h List.not_mem_nil, applyTag_eq_editOf]

/-- Without a cancellation, one edit makes the edited tree, or leaves the tree as it is when the edit
fails. -/
theorem root_editNodes_one {edit : NodeHeader → Except VaultResult (Option NodeHeader)}
    (hw : v.writable = .ok) (hedit : ∀ n, edit n ≠ .error .ok) (position : Option (List ℕ)) :
    (v.editNodes edit (fun _ ↦ false) [position] .ok).2.root = editedTree edit [position] v.root := by
  by_cases hok : (v.editNodes edit (fun _ ↦ false) [position] .ok).1 = .ok
  · exact root_editNodes_of_uncancelled (fun _ ↦ rfl) hedit hok
  rw [editNodes] at hok ⊢
  rcases hsel : editSelection edit (fun _ ↦ false) [position] v.root false with r | ⟨root, changed⟩
  · dsimp only
    rw [editSelection, if_neg Bool.false_ne_true] at hsel
    split at hsel
    · cases hsel
    · next p n hat =>
      split at hsel
      · next r' hr' =>
        rw [editedTree_cons_of_idle fun q t hq ht ↦ ?_, editedTree_nil]
        rw [hq, Option.bind_some, ht, Option.map_some, Option.some_inj, Prod.mk.injEq] at hat
        rw [editStep, hat.2, hr']
      · cases hsel
      · cases hsel
  · rw [hsel] at hok
    rcases changed with _ | _
    · exact absurd rfl hok
    · exact absurd (transact_fst (show ({ v with root } : Vault μ).writable = .ok from hw)) hok

/-- A single edit makes the edited tree, or leaves the tree as it is when the edit fails. -/
theorem root_mutateTag (hw : v.writable = .ok) (htag : (normaliseTag tag).isEmpty = false)
    (hstorable : tagUnstorable (normaliseTag tag) = false) (path : Bytes) :
    (v.mutateTag path tag remove .ok).2.root =
      editedTree (applyTag v.settings.tagBundles (normaliseTag tag) remove)
        [resolveSelection v.root path] v.root := by
  rw [mutateTag, if_neg (not_not_intro hw), if_neg (htag ▸ Bool.false_ne_true)]
  split_ifs with hnone
  · rcases hsel : resolveSelection v.root path with _ | q
    · rw [editedTree_none, editedTree_nil]
    · have := isSome_resolveNode_of_resolveSelection hsel
      rw [Option.isNone_iff_eq_none.mp hnone] at this
      exact absurd this Bool.false_ne_true
  · rw [mutateTagsBatch, if_neg (not_not_intro hw), normaliseTag_idem,
      if_neg (htag ▸ Bool.false_ne_true), if_neg (hstorable ▸ Bool.false_ne_true),
      if_neg Bool.false_ne_true, List.map_singleton]
    exact root_editNodes_one hw (applyTag_ne_error_ok _ _) _

theorem sameButTree_mutateTag (path : Bytes) (outcome : VaultResult) :
    v.SameButTree (v.mutateTag path tag remove outcome).2 := by
  rw [mutateTag]
  split_ifs
  · exact ⟨rfl, rfl, rfl, rfl⟩
  · exact ⟨rfl, rfl, rfl, rfl⟩
  · exact ⟨rfl, rfl, rfl, rfl⟩
  · exact ⟨rfl, rfl, rfl, rfl⟩
  · unfold mutateTagsBatch
    split_ifs
    · exact ⟨rfl, rfl, rfl, rfl⟩
    · exact ⟨rfl, rfl, rfl, rfl⟩
    · exact ⟨rfl, rfl, rfl, rfl⟩
    · exact ⟨rfl, rfl, rfl, rfl⟩
    · exact sameButTree_editNodes

theorem SameButTree.writable {v' : Vault μ} (h : v.SameButTree v') : v'.writable = v.writable := by
  rw [Vault.writable, Vault.writable, h.unlocked, h.legacyReadOnly]

/-- **One after the other.** Single edits of the paths make the edited tree. -/
theorem root_foldl_mutateTag (hw : v.writable = .ok) (htag : (normaliseTag tag).isEmpty = false)
    (hstorable : tagUnstorable (normaliseTag tag) = false) (paths : List Bytes) :
    (paths.foldl (fun w path ↦ (w.mutateTag path tag remove .ok).2) v).root =
      editedTree (applyTag v.settings.tagBundles (normaliseTag tag) remove)
        (paths.map (resolveSelection v.root)) v.root := by
  induction paths generalizing v with
  | nil => exact editedTree_nil.symm
  | cons path paths ih =>
    have hsame : v.SameButTree (v.mutateTag path tag remove .ok).2 := sameButTree_mutateTag path .ok
    rw [List.foldl_cons, ih (hsame.writable.trans hw), hsame.settings, root_mutateTag hw htag hstorable,
      List.map_cons, editedTree_cons _ (paths.map _)]
    refine congrArg (editedTree _ · _) (List.map_congr_left fun p _ ↦ ?_)
    exact resolveSelection_editedTree (fun n n' ↦ name_of_applyTag) _ p

/-- A cancellation that is asked for before the commit breaks an edit off. -/
theorem editSelection_of_cancelled
    {edit : NodeHeader → Except VaultResult (Option NodeHeader)} {cancel : ℕ → Bool}
    {positions : List (Option (List ℕ))} {k : ℕ} (hk : k ≤ positions.length)
    (hcancel : cancel k = true) (root : Node μ) (changed : Bool) :
    ∃ r, editSelection edit cancel positions root changed = .error r := by
  induction positions generalizing cancel k root changed with
  | nil =>
    obtain rfl := Nat.le_zero.mp hk
    exact ⟨.ok, by rw [editSelection, if_pos hcancel]⟩
  | cons position rest ih =>
    rw [editSelection]
    by_cases hnow : cancel 0 = true
    · exact ⟨.ok, if_pos hnow⟩
    rw [if_neg hnow]
    have hlater : ∃ j ≤ rest.length, cancel (j + 1) = true := by
      rcases k with _ | j
      · exact absurd hcancel hnow
      · exact ⟨j, Nat.le_of_succ_le_succ hk, hcancel⟩
    obtain ⟨j, hj, hcancel⟩ := hlater
    split
    · exact ih hj hcancel root changed
    · split
      · next r _ => exact ⟨r, rfl⟩
      · exact ih hj hcancel root changed
      · exact ih hj hcancel _ true

/-- An edit that fails or is cancelled leaves the vault as it is. -/
theorem editNodes_snd_of_not_done
    {edit : NodeHeader → Except VaultResult (Option NodeHeader)} {cancel : ℕ → Bool}
    {positions : List (Option (List ℕ))} {outcome : VaultResult}
    (h : (v.editNodes edit cancel positions outcome).1 ≠ .ok ∨
      ∃ k ≤ positions.length, cancel k = true) :
    (v.editNodes edit cancel positions outcome).2 = v := by
  rcases h with hfail | ⟨k, hk, hcancel⟩
  · rw [editNodes] at hfail ⊢
    split at hfail
    · rfl
    · rfl
    · next root _ =>
      rcases transact_cases outcome v { v with root } with ⟨hok, -⟩ | ⟨-, h⟩
      · exact absurd hok hfail
      · exact h
  · obtain ⟨r, hr⟩ := show ∃ r, editSelection edit cancel positions v.root false = .error r from
      editSelection_of_cancelled hk hcancel v.root false
    rw [editNodes, hr]

/-- **A batch agrees with its members.** If it is not cancelled and reports success, the tree is the
one that the single operations leave when they are applied to one path after the other. If it fails or
is cancelled before the commit, the vault is as it was. -/
theorem batch_agrees (v : Vault μ) (paths : List Bytes) (tag : Bytes) (remove : Bool)
    (cancel : ℕ → Bool) (outcome : VaultResult) :
    ((∀ k, cancel k = false) → (v.mutateTagsBatchLive paths tag remove cancel outcome).1 = .ok →
      (v.mutateTagsBatchLive paths tag remove cancel outcome).2.root =
        (paths.foldl (fun w path ↦
          ((if remove then removeTag path tag else addTag path tag) .ok w).2) v).root) ∧
    ((v.mutateTagsBatchLive paths tag remove cancel outcome).1 ≠ .ok ∨
        (∃ k ≤ paths.length + 1, cancel k = true) →
      (v.mutateTagsBatchLive paths tag remove cancel outcome).2 = v) := by
  have hsingle : (fun (w : Vault μ) path ↦
      ((if remove then removeTag path tag else addTag path tag) .ok w).2) =
      fun w path ↦ (w.mutateTag path tag remove .ok).2 := by
    funext w path
    rcases remove with _ | _
    · rfl
    · rfl
  rw [mutateTagsBatchLive_eq, hsingle, mutateTagsBatch]
  have hidle (hskip : ∀ w : Vault μ, w.writable = v.writable → ∀ path,
      (w.mutateTag path tag remove .ok).2 = w) :
      paths.foldl (fun w path ↦ (w.mutateTag path tag remove .ok).2) v = v := by
    induction paths with
    | nil => rfl
    | cons path paths ih => rw [List.foldl_cons, hskip v rfl, ih]
  by_cases hw : v.writable = .ok
  swap
  · rw [if_pos hw]
    exact ⟨fun _ hok ↦ absurd hok hw, fun _ ↦ rfl⟩
  rw [if_neg (not_not_intro hw)]
  rcases htag : (normaliseTag tag).isEmpty with _ | _
  swap
  · rw [if_pos rfl, hidle fun w hww path ↦ by
      rw [mutateTag, if_neg (not_not_intro (hww.trans hw)), if_pos htag]]
    exact ⟨fun _ _ ↦ rfl, fun _ ↦ rfl⟩
  rw [if_neg Bool.false_ne_true]
  rcases hstorable : tagUnstorable (normaliseTag tag) with _ | _
  swap
  · exact ⟨fun _ ↦ by rintro ⟨⟩, fun _ ↦ rfl⟩
  rw [if_neg Bool.false_ne_true]
  constructor
  · intro hcancel
    rw [hcancel 0, if_neg Bool.false_ne_true, root_foldl_mutateTag hw htag hstorable]
    exact root_editNodes_of_uncancelled (fun k ↦ hcancel (k + 1)) (applyTag_ne_error_ok _ _)
  · intro h
    by_cases hnow : cancel 0 = true
    · rw [if_pos hnow]
    rw [if_neg hnow] at h ⊢
    refine editNodes_snd_of_not_done (h.imp_right ?_)
    rintro ⟨k, hk, hcancel⟩
    rcases k with _ | k
    · exact absurd hcancel hnow
    · exact ⟨k, by simpa using hk, hcancel⟩

/-- The root twice and a path that leads nowhere, with a bundle applied to the root. -/
theorem batch_agrees_bundledOnce :
    let paths := [[], ascii "nowhere", []]
    (bundledOnce.mutateTagsBatchLive paths (ascii " c") false (fun _ ↦ false) .ok).2.root.label.tags =
        [ascii "a", ascii "c", ascii "b"] ∧
      (bundledOnce.mutateTagsBatchLive paths (ascii " c") false (fun _ ↦ false) .ok).2.root =
        (paths.foldl (fun w path ↦ (addTag path (ascii " c") .ok w).2) bundledOnce).root ∧
      (bundledOnce.mutateTagsBatchLive paths (ascii " c") false (fun k ↦ k == 4) .ok).2 =
        bundledOnce :=
  ⟨by decide +kernel,
    (batch_agrees bundledOnce _ (ascii " c") false (fun _ ↦ false) .ok).1 (fun _ ↦ rfl)
      (by decide +kernel),
    (batch_agrees bundledOnce _ (ascii " c") false (fun k ↦ k == 4) .ok).2
      (.inr ⟨4, by decide +kernel, rfl⟩)⟩

end Vault

end SafeVault
