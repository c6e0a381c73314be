import SafeVault.Legacy.Ledger
import SafeVault.Lib.TreeWithout
import SafeVault.Vault.MoveNode

/-!
# Removing a batch of nodes

Every path is looked up in the tree that the paths before it have left. Where no two siblings have the
same name, the order does not matter all the same: what remains is the tree without the subtrees that the
paths name. The number of removed nodes does depend on the order, since a node may go with a gallery above
it and is then missing.

The paths inside another one are dropped beforehand by comparing spellings. That is sound for paths
without a slash at either end.
-/

namespace SafeVault

open LeafTree (modifyAt without withoutAll only Covers)

variable {μ : Type}

/-! ## The operation -/

/-- Stats of a batch removal. -/
structure RemoveBatchStats where
  removed : ℕ := 0
  missing : ℕ := 0
  deriving DecidableEq

/-- Whether `erase_any_child` finds the node of a path. -/
def hasNode (root : Node μ) (path : Bytes) : Bool :=
  !path.isEmpty && ((resolveGallery root (parentOf path)).bind root.get?).any fun g ↦
    g.children.any (·.named (leafOf path))

/-- A turn of the loop of `remove_nodes_batch`, with the counts. -/
def removeCounted (s : Node μ × RemoveBatchStats) (path : Bytes) : Node μ × RemoveBatchStats :=
  (removeNode s.1 path,
    if hasNode s.1 path then { s.2 with removed := s.2.removed + 1 }
    else { s.2 with missing := s.2.missing + 1 })

/-- What a batch removal returns. -/
structure RemoveBatch (μ : Type) where
  result : VaultResult
  stats : RemoveBatchStats := {}
  vault : Vault μ

/-- `remove_nodes_batch`; reclaiming space does not concern the tree. -/
def Vault.removeNodesBatch (outcome : VaultResult) (nodePaths : List Bytes) (v : Vault μ) : RemoveBatch μ :=
  if v.writable ≠ .ok then ⟨v.writable, {}, v⟩
  else
    let (root, stats) := nodePaths.foldl removeCounted (v.root, {})
    if 0 < stats.removed then
      let (result, v') := Vault.commitIndex outcome { v with root }
      if result ≠ .ok then ⟨result, {}, v'⟩ else ⟨.ok, stats, v'⟩
    else ⟨.ok, stats, { v with root }⟩

/-- `prune_descendant_paths`. A path is longer than itself by nothing, so it is not inside itself. -/
def pruneDescendantPaths (paths : List Bytes) : List Bytes :=
  paths.filter fun p ↦ !paths.any fun q ↦
    decide (q.length + 1 < p.length) && p[q.length]? == some slash && q.isPrefixOf p

/-! ## What a path names -/

/-- The name a path is looked up by; the root has none. -/
def nameOf (path : Bytes) : List Bytes := splitPath (parentOf path) ++ [leafOf path]

/-- The names of the nodes to remove. -/
def namesOf (nodePaths : List Bytes) : List Bytes → Bool :=
  fun p ↦ nodePaths.any fun path ↦ !path.isEmpty && decide (p = nameOf path)

section Step

variable {root t : Node μ} {path leaf : Bytes} {segs : List Bytes}

/-- No two siblings have the same name. -/
abbrev SiblingsDiffer (t : Node μ) : Prop := LeafTree.Distinct NodeHeader.name t

theorem named_iff {c : Node μ} {name : Bytes} : c.named name = true ↔ c.label.name = name := beq_iff_eq

/-- **One path.** -/
theorem eraseAnyChild_eq_without (ht : SiblingsDiffer t) :
    (match resolveSegments t segs with
      | some p => modifyAt (eraseAnyChild leaf) p t
      | none => t) = without NodeHeader.name (only (segs ++ [leaf])) t := by
  induction segs generalizing t with
  | nil =>
    rw [resolveSegments]
    dsimp only
    rw [LeafTree.modifyAt_nil]
    rcases t with ⟨n, cs⟩ | ⟨n, a⟩
    · obtain ⟨hnodup, -⟩ := LeafTree.distinct_branch.mp ht
      exact congrArg _ (LeafTree.eraseP_eq_withoutAll (fun c ↦ named_iff) hnodup)
    · rfl
  | cons seg segs ih =>
    rcases t with ⟨n, cs⟩ | ⟨n, a⟩
    rotate_left
    · rfl
    have hne : segs ++ [leaf] ≠ [] := by simp
    obtain ⟨hnodup, hcs⟩ := LeafTree.distinct_branch.mp ht
    rw [List.cons_append, without]
    rcases hi : cs.findIdx? fun c ↦ c.isGallery && c.named seg with _ | i
    -- No gallery has the name; a medium may, but nothing is below it.
    · have hnone : resolveSegments (.branch n cs) (seg :: segs) = none := by
        rw [resolveSegments, LeafTree.children_branch, hi]
        rfl
      rw [hnone, LeafTree.withoutAll_only_cons hne]
      refine congrArg _ ((List.map_congr_left fun c hc ↦ ?_).trans (List.map_id cs)).symm
      split_ifs with hname
      · rcases c with ⟨m, ds⟩ | ⟨m, a⟩
        · have hnot := List.findIdx?_eq_none_iff.mp hi _ hc
          rw [named_iff.mpr hname] at hnot
          exact absurd hnot Bool.true_eq_false.mp
        · rfl
      · rfl
    · obtain ⟨hlt, hmatch, -⟩ := List.findIdx?_eq_some_iff_getElem.mp hi
      obtain ⟨-, hname⟩ := Bool.and_eq_true_iff.mp hmatch
      have hc : cs[i]? = some cs[i] := List.getElem?_eq_getElem hlt
      have hsome : resolveSegments (.branch n cs) (seg :: segs) =
          (resolveSegments cs[i] segs).map (i :: ·) := by
        simp only [resolveSegments, LeafTree.children_branch, hi, Option.bind_eq_bind, Option.bind_some, hc,
          Option.map_eq_bind, Function.comp_def]
      have hrest := ih (hcs _ (List.getElem_mem hlt))
      rw [hsome, ← LeafTree.modify_eq_withoutAll hnodup hne hc (named_iff.mp hname)]
      -- The rest of the path is looked up in the one child of that name.
      rcases hp : resolveSegments cs[i] segs with _ | p
      · rw [hp] at hrest
        exact congrArg _ ((List.modify_id i cs).symm.trans (LeafTree.modify_congr hc hrest))
      · rw [hp] at hrest
        exact congrArg _ (LeafTree.modify_congr hc hrest)

theorem removeNode_eq_without (ht : SiblingsDiffer root) :
    removeNode root path = without NodeHeader.name (namesOf [path]) root := by
  rw [removeNode]
  split_ifs with hempty
  · have hnone : namesOf [path] = fun _ ↦ false := by
      funext p
      rw [namesOf, List.any_cons, hempty, List.any_nil]
      rfl
    rw [hnone, LeafTree.without_empty]
  · have hone : namesOf [path] = only (nameOf path) := by
      funext p
      rw [namesOf, List.any_cons, Bool.eq_false_of_not_eq_true hempty, List.any_nil, Bool.or_false]
      rfl
    rw [hone]
    exact eraseAnyChild_eq_without ht

/-- **The loop.** -/
theorem removeNodesBatch_eq_without {nodePaths : List Bytes} (ht : SiblingsDiffer root) :
    removeNodesBatch root nodePaths = without NodeHeader.name (namesOf nodePaths) root := by
  induction nodePaths generalizing root with
  | nil => exact LeafTree.without_empty.symm
  | cons path nodePaths ih =>
    have hstep : removeNode root path = _ := removeNode_eq_without ht
    calc removeNodesBatch (removeNode root path) nodePaths
        = without NodeHeader.name (namesOf nodePaths) (removeNode root path) :=
          ih (hstep ▸ LeafTree.Distinct.without ht)
      _ = without NodeHeader.name (namesOf nodePaths) (without NodeHeader.name (namesOf [path]) root) := by
          rw [hstep]
      _ = without NodeHeader.name (fun p ↦ namesOf nodePaths p || namesOf [path] p) root :=
          LeafTree.without_without
      _ = without NodeHeader.name (namesOf (path :: nodePaths)) root := by
          refine congrArg (without NodeHeader.name · root) (funext fun p ↦ ?_)
          rw [namesOf, namesOf, namesOf, List.any_cons, List.any_cons, List.any_nil, Bool.or_false, Bool.or_comm]

end Step

/-! ## The counts -/

section Counts

variable {root : Node μ} {path : Bytes} {nodePaths : List Bytes} {s : Node μ × RemoveBatchStats}

theorem removeNode_of_not_hasNode (h : hasNode root path = false) : removeNode root path = root := by
  rw [removeNode]
  split_ifs with hempty
  · rfl
  · rcases hp : resolveGallery root (parentOf path) with _ | p
    · rfl
    · obtain ⟨g, hg, -⟩ := get?_resolveSegments hp
      rw [hasNode, Bool.eq_false_of_not_eq_true hempty, hp, Option.bind_some, hg, Option.any_some,
        Bool.not_false, Bool.true_and, List.any_eq_false] at h
      refine LeafTree.modifyAt_eq_self hg ?_
      rcases g with ⟨n, cs⟩ | ⟨n, a⟩
      · exact congrArg _ (List.eraseP_of_forall_not h)
      · rfl

theorem size_removeNode_lt (h : hasNode root path = true) : (removeNode root path).size < root.size := by
  obtain ⟨hne, hfound⟩ := Bool.and_eq_true_iff.mp h
  rw [removeNode, if_neg (by simpa using hne)]
  rcases hp : resolveGallery root (parentOf path) with _ | p
  · rw [hp] at hfound
    exact absurd hfound Bool.false_ne_true
  · rw [hp, Option.bind_some] at hfound
    obtain ⟨g, hg, -⟩ := get?_resolveSegments hp
    rw [hg, Option.any_some] at hfound
    obtain ⟨c, hc, hname⟩ := List.any_eq_true.mp hfound
    refine LeafTree.size_modifyAt_lt hg ?_
    rcases g with ⟨n, cs⟩ | ⟨n, a⟩
    · exact LeafTree.size_eraseP_lt hc hname
    · exact absurd hc List.not_mem_nil

/-- What the loop does to the tree and the counts. -/
theorem foldl_removeCounted :
    (nodePaths.foldl removeCounted s).1 = removeNodesBatch s.1 nodePaths ∧
    (nodePaths.foldl removeCounted s).2.removed + (nodePaths.foldl removeCounted s).2.missing =
      s.2.removed + s.2.missing + nodePaths.length ∧
    ((nodePaths.foldl removeCounted s).2.removed = s.2.removed ∧ (nodePaths.foldl removeCounted s).1 = s.1 ∨
      s.2.removed < (nodePaths.foldl removeCounted s).2.removed ∧
        (nodePaths.foldl removeCounted s).1.size < s.1.size) := by
  induction nodePaths generalizing s with
  | nil => exact ⟨rfl, rfl, .inl ⟨rfl, rfl⟩⟩
  | cons path nodePaths ih =>
    rw [List.foldl_cons, List.length_cons]
    obtain ⟨hroot, hcounts, hchange⟩ := @ih (removeCounted s path)
    refine ⟨hroot, ?_, ?_⟩
    · rw [hcounts, removeCounted]
      split_ifs <;> dsimp only <;> omega
    · by_cases h : hasNode s.1 path = true
      · have hlt := size_removeNode_lt h
        have hremoved : (removeCounted s path).2.removed = s.2.removed + 1 := by
          rw [removeCounted, if_pos h]
        have hfst : (removeCounted s path).1 = removeNode s.1 path := rfl
        right
        rcases hchange with ⟨hsame, htree⟩ | ⟨hmore, hsize⟩
        · rw [hsame, htree, hremoved, hfst]
          exact ⟨Nat.lt_succ_self _, hlt⟩
        · rw [hremoved] at hmore
          rw [hfst] at hsize
          exact ⟨Nat.lt_of_succ_lt hmore, hsize.trans hlt⟩
      · have hstep : removeCounted s path = (s.1, { s.2 with missing := s.2.missing + 1 }) := by
          rw [removeCounted, if_neg h, removeNode_of_not_hasNode (Bool.eq_false_of_not_eq_true h)]
        rw [hstep] at hchange ⊢
        exact hchange

/-- Something has been removed exactly when the tree has changed. -/
theorem removed_pos_iff :
    0 < (nodePaths.foldl removeCounted (root, {})).2.removed ↔ removeNodesBatch root nodePaths ≠ root := by
  obtain ⟨hroot, -, hchange⟩ := @foldl_removeCounted _ nodePaths (root, {})
  rw [← hroot]
  rcases hchange with ⟨hsame, htree⟩ | ⟨hmore, hsize⟩
  · rw [hsame, htree]
    exact iff_of_false (Nat.lt_irrefl 0) (not_not.mpr rfl)
  · exact iff_of_true hmore fun h ↦ absurd hsize (by rw [h]; exact Nat.lt_irrefl _)

end Counts

/-! ## Inside another path -/

section Pruning

variable {path p q : Bytes} {paths : List Bytes}

/-- The path neither starts nor ends with a slash. -/
def NoOuterSlash (path : Bytes) : Prop := path.head? ≠ some slash ∧ path.getLast? ≠ some slash

theorem nameOf_of_noOuterSlash (h : NoOuterSlash path) (hne : path ≠ []) : nameOf path = splitPath path := by
  refine (splitPath_parentOf_leafOf fun hleaf ↦ ?_).symm
  rcases parentOf_leafOf path with heq | ⟨-, heq⟩
  · rw [hleaf] at heq
    exact h.2 (heq ▸ List.getLast?_concat)
  · exact hne (heq.symm.trans hleaf)

/-- What is inside another path, by its spelling, is below it. -/
theorem nameOf_of_inside (hp : NoOuterSlash p) (hq : NoOuterSlash q) (hlen : q.length + 1 < p.length)
    (hslash : p[q.length]? = some slash) (hpre : q <+: p) : q ≠ [] ∧ nameOf q <+: nameOf p := by
  obtain ⟨rest, rfl⟩ := hpre
  rw [List.getElem?_append_right (Nat.le_refl _), Nat.sub_self] at hslash
  rcases rest with _ | ⟨c, rest⟩
  · exact nomatch hslash
  obtain rfl := Option.some.inj hslash
  have hqne : q ≠ [] := by
    rintro rfl
    exact hp.1 rfl
  refine ⟨hqne, ?_⟩
  rw [nameOf_of_noOuterSlash hq hqne, nameOf_of_noOuterSlash hp (by simp), splitPath_append_slash]
  exact List.prefix_append _ _

/-- A path that is dropped is covered by one that is not. -/
theorem covered_by_kept (hends : ∀ path ∈ paths, NoOuterSlash path) (hp : p ∈ paths) (hne : p ≠ []) :
    ∃ q ∈ pruneDescendantPaths paths, q ≠ [] ∧ nameOf q <+: nameOf p := by
  induction hlen : p.length using Nat.strong_induction_on generalizing p with
  | _ n ih =>
    by_cases hinside : paths.any (fun q ↦ decide (q.length + 1 < p.length) && p[q.length]? == some slash &&
        q.isPrefixOf p) = true
    · obtain ⟨q, hq, h⟩ := List.any_eq_true.mp hinside
      obtain ⟨h, hpre⟩ := Bool.and_eq_true_iff.mp h
      obtain ⟨hlt, hslash⟩ := Bool.and_eq_true_iff.mp h
      have hlt := of_decide_eq_true hlt
      obtain ⟨hqne, hbelow⟩ := nameOf_of_inside (hends p hp) (hends q hq) hlt (beq_iff_eq.mp hslash)
        (List.isPrefixOf_iff_prefix.mp hpre)
      obtain ⟨r, hr, hrne, habove⟩ := ih q.length (by omega) hq hqne rfl
      exact ⟨r, hr, hrne, habove.trans hbelow⟩
    · exact ⟨p, List.mem_filter.mpr ⟨hp, by simpa using hinside⟩, hne, List.prefix_rfl⟩

theorem covers_namesOf {name : List Bytes} :
    Covers (namesOf paths) name ↔ ∃ p ∈ paths, p ≠ [] ∧ nameOf p <+: name := by
  constructor
  · rintro ⟨r, -, hpre, hr⟩
    obtain ⟨p, hp, h⟩ := List.any_eq_true.mp hr
    obtain ⟨hne, heq⟩ := Bool.and_eq_true_iff.mp h
    refine ⟨p, hp, by simpa using hne, ?_⟩
    rwa [← of_decide_eq_true heq]
  · rintro ⟨p, hp, hne, hpre⟩
    refine ⟨nameOf p, by simp [nameOf], hpre, List.any_eq_true.mpr ⟨p, hp, ?_⟩⟩
    simpa using hne

theorem covers_pruneDescendantPaths (hends : ∀ path ∈ paths, NoOuterSlash path) (name : List Bytes) :
    Covers (namesOf (pruneDescendantPaths paths)) name ↔ Covers (namesOf paths) name := by
  rw [covers_namesOf, covers_namesOf]
  constructor
  · rintro ⟨p, hp, h⟩
    exact ⟨p, List.mem_of_mem_filter hp, h⟩
  · rintro ⟨p, hp, hne, hpre⟩
    obtain ⟨q, hq, hqne, hbelow⟩ := covered_by_kept hends hp hne
    exact ⟨q, hq, hqne, hbelow.trans hpre⟩

end Pruning

/-! ## The batch -/

section Batch

variable {outcome : VaultResult} {nodePaths nodePaths' : List Bytes} {v : Vault μ}

theorem writable_of_removeNodesBatch (hok : (v.removeNodesBatch outcome nodePaths).result = .ok) :
    v.writable = .ok := by
  by_contra hw
  rw [Vault.removeNodesBatch, if_pos hw] at hok
  exact hw hok

/-- Whether there is a commit depends on the tree that the loop leaves. -/
theorem removeNodesBatch_vault (hw : v.writable = .ok) (root : Node μ)
    (hroot : SafeVault.removeNodesBatch v.root nodePaths = root) :
    let out := v.removeNodesBatch outcome nodePaths
    (out.result = .ok → out.stats = (nodePaths.foldl removeCounted (v.root, {})).2) ∧
    (root = v.root ∧ out.result = .ok ∧ out.vault = v ∨ root ≠ v.root ∧
      out.result = (Vault.commitIndex outcome { v with root }).1 ∧
      out.vault = (Vault.commitIndex outcome { v with root }).2) := by
  have hpos := @removed_pos_iff _ v.root nodePaths
  obtain ⟨htree, -⟩ := @foldl_removeCounted _ nodePaths (v.root, {})
  rw [Vault.removeNodesBatch, if_neg (not_not.mpr hw)]
  rcases hfold : nodePaths.foldl removeCounted (v.root, {}) with ⟨root', stats⟩
  rw [hfold] at hpos htree
  rw [hroot] at hpos htree
  obtain rfl : root' = root := htree
  dsimp only at hpos ⊢
  by_cases hsame : root' = v.root
  · rw [if_neg fun h ↦ hpos.mp h hsame, hsame]
    exact ⟨fun _ ↦ rfl, .inl ⟨rfl, rfl, rfl⟩⟩
  · rw [if_pos (hpos.mpr hsame)]
    rcases hcommit : Vault.commitIndex outcome { v with root := root' } with ⟨result, v'⟩
    by_cases hok : result = .ok
    · rw [if_neg (not_not.mpr hok), hok]
      exact ⟨fun _ ↦ rfl, .inr ⟨hsame, rfl, rfl⟩⟩
    · rw [if_pos hok]
      exact ⟨fun h ↦ absurd h hok, .inr ⟨hsame, rfl, rfl⟩⟩

/-- So the result and the vault depend on it alone. -/
theorem removeNodesBatch_congr
    (h : SafeVault.removeNodesBatch v.root nodePaths' = SafeVault.removeNodesBatch v.root nodePaths) :
    (v.removeNodesBatch outcome nodePaths').result = (v.removeNodesBatch outcome nodePaths).result ∧
    (v.removeNodesBatch outcome nodePaths').vault = (v.removeNodesBatch outcome nodePaths).vault := by
  by_cases hw : v.writable = .ok
  · obtain ⟨-, hout⟩ := @removeNodesBatch_vault _ outcome nodePaths v hw _ rfl
    obtain ⟨-, hout'⟩ := @removeNodesBatch_vault _ outcome nodePaths' v hw _ h
    rcases hout with ⟨hsame, hresult, hvault⟩ | ⟨hne, hresult, hvault⟩
    · rcases hout' with ⟨-, hresult', hvault'⟩ | ⟨hne', -⟩
      · exact ⟨hresult'.trans hresult.symm, hvault'.trans hvault.symm⟩
      · exact absurd hsame hne'
    · rcases hout' with ⟨hsame', -⟩ | ⟨-, hresult', hvault'⟩
      · exact absurd hsame' hne
      · exact ⟨hresult'.trans hresult.symm, hvault'.trans hvault.symm⟩
  · rw [Vault.removeNodesBatch, Vault.removeNodesBatch, if_pos hw, if_pos hw]
    exact ⟨rfl, rfl⟩

/-- **Removing a batch.** All paths are counted. Where siblings differ, the subtrees that the paths name
are left out and nothing else changes, in any order; the paths inside others may be dropped before, if no
path has a slash at an end. -/
theorem removeNodesBatch_exact (outcome : VaultResult) (nodePaths : List Bytes) (v : Vault μ) :
    let out := v.removeNodesBatch outcome nodePaths
    (out.result = .ok → out.stats.removed + out.stats.missing = nodePaths.length) ∧
    (SiblingsDiffer v.root →
      (out.result = .ok → out.vault.root = without NodeHeader.name (namesOf nodePaths) v.root ∧
        out.vault.settings = v.settings ∧ out.vault.searches = v.searches ∧
        (out.vault.committed = v.committed ∨ out.vault.committed = out.vault.live)) ∧
      (∀ nodePaths', nodePaths'.Perm nodePaths →
        (v.removeNodesBatch outcome nodePaths').result = out.result ∧
        (v.removeNodesBatch outcome nodePaths').vault = out.vault) ∧
      ((∀ path ∈ nodePaths, NoOuterSlash path) →
        (v.removeNodesBatch outcome (pruneDescendantPaths nodePaths)).result = out.result ∧
        (v.removeNodesBatch outcome (pruneDescendantPaths nodePaths)).vault = out.vault)) := by
  intro out
  refine ⟨fun hok ↦ ?_, fun hdiffer ↦ ⟨fun hok ↦ ?_, fun nodePaths' hperm ↦ ?_, fun hends ↦ ?_⟩⟩
  · obtain ⟨hstats, -⟩ := @removeNodesBatch_vault _ outcome nodePaths v (writable_of_removeNodesBatch hok) _ rfl
    obtain ⟨-, hcounts, -⟩ := @foldl_removeCounted _ nodePaths (v.root, {})
    rw [hstats hok, hcounts]
    exact Nat.zero_add _
  · obtain ⟨-, hout⟩ := @removeNodesBatch_vault _ outcome nodePaths v (writable_of_removeNodesBatch hok) _
      (removeNodesBatch_eq_without hdiffer)
    rcases hout with ⟨hsame, -, hvault⟩ | ⟨-, -, hvault⟩
    · rw [show out.vault = v from hvault]
      exact ⟨hsame.symm, rfl, rfl, .inl rfl⟩
    · rw [show out.vault = _ from hvault]
      rcases Vault.commitIndex_snd outcome
        { v with root := without NodeHeader.name (namesOf nodePaths) v.root } with h | h
      · rw [h]
        exact ⟨rfl, rfl, rfl, .inl rfl⟩
      · rw [h]
        exact ⟨rfl, rfl, rfl, .inr rfl⟩
  · refine removeNodesBatch_congr ?_
    rw [removeNodesBatch_eq_without hdiffer, removeNodesBatch_eq_without hdiffer]
    refine congrArg (without NodeHeader.name · v.root) (funext fun name ↦ ?_)
    exact hperm.any_eq
  · refine removeNodesBatch_congr ?_
    rw [removeNodesBatch_eq_without hdiffer, removeNodesBatch_eq_without hdiffer]
    exact LeafTree.without_congr (covers_pruneDescendantPaths hends)

end Batch

/-- Of two galleries with one name the second is looked into once the first is gone, and a path with a slash
at its end names nothing but has paths inside it. -/
theorem removal_depends_on_order :
    let medium (name : String) : Node Unit := .leaf { name := ascii name } ()
    let gallery (name : String) (cs : List (Node Unit)) : Node Unit := .branch { name := ascii name } cs
    let twins := gallery "" [gallery "a" [medium "x"], gallery "a" [medium "x"]]
    let album := gallery "" [gallery "x" [medium "y"]]
    let vault (root : Node Unit) : Vault Unit := ⟨true, true, false, root, .seeded, [], ⟨root, .seeded, []⟩⟩
    let left (root : Node Unit) (nodePaths : List Bytes) : ℕ :=
      ((vault root).removeNodesBatch .ok nodePaths).vault.root.size
    left twins [ascii "a", ascii "a/x"] ≠ left twins [ascii "a/x", ascii "a"] ∧
      left album [ascii "x/", ascii "x//y"] ≠
        left album (pruneDescendantPaths [ascii "x/", ascii "x//y"]) := by
  decide +kernel

/-- A medium and the gallery around it are removed, in either order and also without naming the medium. -/
theorem removeNodesBatch_exact_album :
    let album : Node Unit := .branch { name := [] }
      [.branch { name := ascii "g" } [.leaf { name := ascii "x" } ()], .leaf { name := ascii "z" } ()]
    let v : Vault Unit := ⟨true, true, false, album, .seeded, [], ⟨album, .seeded, []⟩⟩
    let nodePaths := [ascii "g/x", ascii "g"]
    let out := v.removeNodesBatch .ok nodePaths
    out.stats.removed + out.stats.missing = 2 ∧
      out.vault.root = without NodeHeader.name (namesOf nodePaths) album ∧
      (v.removeNodesBatch .ok [ascii "g", ascii "g/x"]).vault = out.vault ∧
      (v.removeNodesBatch .ok (pruneDescendantPaths nodePaths)).vault = out.vault := by
  intro album v nodePaths out
  obtain ⟨hcounts, htree⟩ := removeNodesBatch_exact .ok nodePaths v
  have hdiffer : SiblingsDiffer album := by
    refine LeafTree.distinct_branch.mpr ⟨by decide, List.forall_mem_cons.mpr ⟨?_, List.forall_mem_singleton.mpr ?_⟩⟩
    · exact LeafTree.distinct_branch.mpr ⟨by decide, List.forall_mem_singleton.mpr (LeafTree.all_leaf.mpr trivial)⟩
    · exact LeafTree.all_leaf.mpr trivial
  obtain ⟨hroot, hperm, hprune⟩ := htree hdiffer
  have hok : out.result = .ok := by decide +kernel
  have hends : ∀ path ∈ nodePaths, NoOuterSlash path :=
    List.forall_mem_cons.mpr ⟨⟨by decide, by decide⟩, List.forall_mem_singleton.mpr ⟨by decide, by decide⟩⟩
  exact ⟨hcounts hok, (hroot hok).1, (hperm _ (List.Perm.swap _ _ _)).2, (hprune hends).2⟩

end SafeVault
