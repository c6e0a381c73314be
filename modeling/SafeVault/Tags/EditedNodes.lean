import SafeVault.Tags.Operations

/-!
# Editing the labels of selected nodes

An edit of selected nodes changes labels only, and never a name. So the paths of nodes mean the same
before and after, and the tree afterwards is the one before with each label edited as often as its
position was selected.
-/

namespace SafeVault

open LeafTree (mapAt mapAtAll)

variable {μ : Type}

/-! ## Paths and changes of labels -/

section Relabel

variable {f : List ℕ → NodeHeader → NodeHeader} {t : Node μ} {p : List ℕ}

theorem isGallery_mapAt : (mapAt f p t : Node μ).isGallery = t.isGallery := by
  rcases t with _ | _
  · rw [mapAt]
    rfl
  · rw [mapAt]
    rfl

/-- A test of children that the changes do not affect finds the same child. -/
theorem findIdx?_mapAtAll {test : Node μ → Bool} (htest : ∀ q c, test (mapAt f q c) = test c)
    (i : ℕ) (cs : List (Node μ)) : (mapAtAll f p i cs).findIdx? test = cs.findIdx? test := by
  induction cs generalizing i with
  | nil => rw [mapAtAll]
  | cons c cs ih => rw [mapAtAll, List.findIdx?_cons, List.findIdx?_cons, htest, ih]

theorem findIdx?_children_mapAt {test : Node μ → Bool}
    (htest : ∀ q c, test (mapAt f q c) = test c) :
    (mapAt f p t).children.findIdx? test = t.children.findIdx? test := by
  rcases t with ⟨n, cs⟩ | ⟨n, m⟩
  · rw [mapAt]
    exact findIdx?_mapAtAll htest 0 cs
  · rw [mapAt]
    rfl

variable (hname : ∀ q n, (f q n).name = n.name)
include hname

theorem named_mapAt (name : Bytes) : (mapAt f p t : Node μ).named name = t.named name := by
  rw [LeafTree.named, LeafTree.label_mapAt, hname, LeafTree.named]

theorem resolveSegments_mapAt (segs : List Bytes) :
    resolveSegments (mapAt f p t) segs = resolveSegments t segs := by
  induction segs generalizing t p with
  | nil => rfl
  | cons seg segs ih =>
    rw [resolveSegments, resolveSegments, findIdx?_children_mapAt fun q c ↦ by
      rw [isGallery_mapAt, named_mapAt hname]]
    refine bind_congr fun i ↦ ?_
    rw [LeafTree.children_mapAt]
    rcases t.children[i]? with _ | c
    · rfl
    · exact congrArg (· >>= fun p ↦ some (i :: p)) ih

theorem resolveNode_mapAt (path : Bytes) :
    resolveNode (mapAt f p t) path = resolveNode t path := by
  rw [resolveNode, resolveNode, resolveSegments_mapAt hname]
  rcases (splitPath path).getLast? with _ | last
  · rfl
  · refine bind_congr fun q ↦ ?_
    rw [LeafTree.get?_mapAt]
    rcases t.get? q with _ | g
    · rfl
    · exact congrArg (· >>= fun i ↦ some (q ++ [i]))
        (findIdx?_children_mapAt fun q c ↦ named_mapAt hname last)

theorem resolveSelection_mapAt (path : Bytes) :
    resolveSelection (mapAt f p t) path = resolveSelection t path := by
  rw [resolveSelection, resolveSelection, resolveNode_mapAt hname, resolveNode_mapAt hname]
  split_ifs
  · rfl
  · refine bind_congr fun q ↦ ?_
    rw [LeafTree.get?_mapAt]
    rcases t.get? q with _ | g
    · rfl
    · rw [Option.map_some]
      dsimp only [Option.bind_eq_bind, Option.bind_some]
      rw [isGallery_mapAt, findIdx?_children_mapAt fun q c ↦ named_mapAt hname _]

end Relabel

/-! ## The tree after an edit -/

/-- The header that an edit leaves: the one it makes, or the one there was. -/
def editStep (edit : NodeHeader → Except VaultResult (Option NodeHeader)) (n : NodeHeader) :
    NodeHeader :=
  match edit n with
  | .ok (some n') => n'
  | _ => n

section Edit

variable {edit : NodeHeader → Except VaultResult (Option NodeHeader)} {n n' : NodeHeader}

theorem editStep_of_some (h : edit n = .ok (some n')) : editStep edit n = n' := by
  rw [editStep, h]

theorem editStep_of_none (h : edit n = .ok none) : editStep edit n = n := by
  rw [editStep, h]

theorem name_editStep (hedit : ∀ n n', edit n = .ok (some n') → n'.name = n.name) (n : NodeHeader) :
    (editStep edit n).name = n.name := by
  rw [editStep]
  split
  · next n' hn' => exact hedit n n' hn'
  · rfl

theorem name_iterate_editStep (hedit : ∀ n n', edit n = .ok (some n') → n'.name = n.name) (k : ℕ)
    (n : NodeHeader) : ((editStep edit)^[k] n).name = n.name := by
  induction k generalizing n with
  | zero => rfl
  | succ k ih => rw [Function.iterate_succ_apply, ih, name_editStep hedit]

/-- The tree with the nodes at some positions edited, each as often as its position occurs. -/
def editedTree (edit : NodeHeader → Except VaultResult (Option NodeHeader))
    (positions : List (Option (List ℕ))) (root : Node μ) : Node μ :=
  mapAt (fun q n ↦ (editStep edit)^[positions.count (some q)] n) [] root

variable {cancel : ℕ → Bool} {positions : List (Option (List ℕ))} {root root' : Node μ}
  {changed changed' : Bool}

theorem editedTree_nil : editedTree edit [] root = root := LeafTree.mapAt_id

/-- A position where there is no node, or nothing to do, counts for nothing. -/
theorem editedTree_cons_of_idle {position : Option (List ℕ)}
    (h : ∀ p t, position = some p → root.get? p = some t → editStep edit t.label = t.label) :
    editedTree edit (position :: positions) root = editedTree edit positions root := by
  refine LeafTree.mapAt_congr fun q u hu ↦ ?_
  rw [List.nil_append, List.count_cons]
  split_ifs with hq
  · rw [Function.iterate_succ_apply, h q u (eq_of_beq hq) hu]
  · rfl

theorem editedTree_cons_of_some {p : List ℕ} {t : Node μ} (hget : root.get? p = some t)
    (h : edit t.label = .ok (some n')) :
    editedTree edit (some p :: positions) root =
      editedTree edit positions (root.modifyAt (LeafTree.setLabel fun _ ↦ n') p) := by
  rw [editedTree, editedTree, LeafTree.modifyAt_setLabel (p := []), LeafTree.mapAt_mapAt]
  refine LeafTree.mapAt_congr fun q u hu ↦ ?_
  rw [List.nil_append, List.count_cons]
  by_cases hq : q = p
  · subst hq
    obtain rfl := Option.some_inj.mp (hget.symm.trans hu)
    rw [if_pos (beq_self_eq_true _), if_pos (List.nil_append q).symm, Function.iterate_succ_apply,
      editStep_of_some h]
  · rw [if_neg (by simpa using fun h ↦ hq h.symm), if_neg (by simpa using hq)]
    rfl

/-- **An edit of selected nodes** that is not broken off makes the edited tree, and reports no change
only if that is the tree there was. -/
theorem editSelection_eq
    (h : Vault.editSelection edit cancel positions root changed = .ok (root', changed')) :
    root' = editedTree edit positions root ∧ (changed' = false → root' = root ∧ changed = false) := by
  induction positions generalizing cancel root changed with
  | nil =>
    rw [Vault.editSelection] at h
    split_ifs at h
    cases h
    exact ⟨editedTree_nil.symm, fun hchanged ↦ ⟨rfl, hchanged⟩⟩
  | cons position rest ih =>
    rw [Vault.editSelection] at h
    split_ifs at h
    split at h
    · next hnone =>
      rw [editedTree_cons_of_idle fun p t hp ht ↦ by simp [hp, ht] at hnone]
      exact ih h
    · next p n hsome =>
      obtain ⟨q, rfl, hq⟩ := Option.bind_eq_some_iff.mp hsome
      obtain ⟨t, ht, hpt⟩ := Option.map_eq_some_iff.mp hq
      obtain ⟨rfl, rfl⟩ := Prod.mk.inj hpt
      split at h
      · cases h
      · next hidle =>
        rw [editedTree_cons_of_idle fun p u hp hu ↦ ?_]
        · exact ih h
        · obtain rfl := Option.some_inj.mp hp
          obtain rfl := Option.some_inj.mp (ht.symm.trans hu)
          exact editStep_of_none hidle
      · next n' hn' =>
        rw [editedTree_cons_of_some ht hn']
        obtain ⟨heq, hchanged⟩ := ih h
        exact ⟨heq, fun hfalse ↦ absurd (hchanged hfalse).2 (by decide)⟩

/-- The label at a position of the edited tree. -/
theorem get?_editedTree (q : List ℕ) : ((editedTree edit positions root).get? q).map (·.label) =
    (root.get? q).map fun t ↦ (editStep edit)^[positions.count (some q)] t.label := by
  rw [editedTree, LeafTree.get?_mapAt, Option.map_map]
  refine Option.map_congr fun t _ ↦ ?_
  rw [Function.comp_apply, LeafTree.label_mapAt, List.nil_append]

end Edit

/-! ## Edits of a vault -/

namespace Vault

variable {edit : NodeHeader → Except VaultResult (Option NodeHeader)} {cancel : ℕ → Bool}
  {positions : List (Option (List ℕ))} {outcome : VaultResult} {v : Vault μ}

/-- What an edit of selected nodes leaves alone. -/
structure SameButTree (v v' : Vault μ) : Prop where
  unlocked : v'.unlocked = v.unlocked
  v3 : v'.v3 = v.v3
  legacyReadOnly : v'.legacyReadOnly = v.legacyReadOnly
  settings : v'.settings = v.settings

theorem sameButTree_editNodes : v.SameButTree (v.editNodes edit cancel positions outcome).2 := by
  rw [editNodes]
  split
  · exact ⟨rfl, rfl, rfl, rfl⟩
  · exact ⟨rfl, rfl, rfl, rfl⟩
  · next root _ =>
    rcases transact_cases outcome v { v with root } with ⟨-, h⟩ | ⟨-, h⟩
    · rw [h]
      exact ⟨rfl, rfl, rfl, rfl⟩
    · rw [h]
      exact ⟨rfl, rfl, rfl, rfl⟩

/-- An edit that reports success has made the edited tree, or was cancelled. -/
theorem root_editNodes (hok : (v.editNodes edit cancel positions outcome).1 = .ok) :
    (v.editNodes edit cancel positions outcome).2.root = editedTree edit positions v.root ∨
      editSelection edit cancel positions v.root false = .error .ok ∧
        (v.editNodes edit cancel positions outcome).2 = v := by
  rw [editNodes] at hok ⊢
  split at hok
  · next r hr =>
    rw [show r = .ok from hok] at hr
    exact .inr ⟨hr, rfl⟩
  · next root hroot =>
    obtain ⟨heq, hsame⟩ := editSelection_eq hroot
    exact .inl ((hsame rfl).1.symm.trans heq)
  · next root hroot =>
    rcases transact_cases outcome v { v with root } with ⟨-, h⟩ | ⟨hfail, -⟩
    · exact .inl ((congrArg Vault.root h).trans (editSelection_eq hroot).1)
    · exact absurd hok hfail

/-- Without a cancellation an edit is broken off only by an error. -/
theorem editSelection_ne_error_ok {root : Node μ} {changed : Bool}
    (hcancel : ∀ k, cancel k = false) (hedit : ∀ n, edit n ≠ .error .ok) :
    editSelection edit cancel positions root changed ≠ .error .ok := by
  induction positions generalizing cancel root changed with
  | nil =>
    rw [editSelection, hcancel 0]
    exact nofun
  | cons position rest ih =>
    rw [editSelection, hcancel 0, if_neg Bool.false_ne_true]
    have hlater : ∀ k, cancel (k + 1) = false := fun k ↦ hcancel (k + 1)
    split
    · exact ih hlater
    · next p n _ =>
      split
      · next r hr =>
        intro h
        rw [Except.error.injEq] at h
        exact hedit n (h ▸ hr)
      · exact ih hlater
      · exact ih hlater

/-- An edit that is not cancelled and reports success has made the edited tree. -/
theorem root_editNodes_of_uncancelled (hcancel : ∀ k, cancel k = false)
    (hedit : ∀ n, edit n ≠ .error .ok)
    (hok : (v.editNodes edit cancel positions outcome).1 = .ok) :
    (v.editNodes edit cancel positions outcome).2.root = editedTree edit positions v.root :=
  (root_editNodes hok).resolve_right fun h ↦ editSelection_ne_error_ok hcancel hedit h.1

end Vault

end SafeVault
