import SafeVault.Vault.Structure

/-!
# Removing media

A batch of paths is removed one by one: the part of a path before its last slash is looked up as a
gallery, and the first medium with the name after that slash is erased there. A path that is not found
is left out. What is at any other path stays.
-/

namespace SafeVault

variable {μ : Type} {t c u : Node μ} {path leaf : Bytes} {segs at' : List Bytes} {p : List ℕ}

/-! ## Looking at a node -/

/-- The node at a path of segments: galleries all the way, then any node. -/
def nodeAt (t : Node μ) : List Bytes → Option (Node μ)
  | [] => some t
  | [seg] => t.children.find? (·.named seg)
  | seg :: next :: segs => do
    let c ← t.children.find? fun c ↦ c.isGallery && c.named seg
    nodeAt c (next :: segs)

theorem resolveNode_bind_get? (t : Node μ) (path : Bytes) :
    (resolveNode t path).bind t.get? = nodeAt t (splitPath path) := by
  have hlast (seg : Bytes) (t : Node μ) :
      (t.children.findIdx? (·.named seg)).bind (fun i ↦ t.get? [i]) = nodeAt t [seg] := by
    rw [nodeAt, List.find?_eq_bind_findIdx?_getElem?]
    refine congrArg _ (funext fun i ↦ ?_)
    rw [LeafTree.get?]
    rcases t.children[i]? with _ | c
    · rfl
    · exact LeafTree.get?_nil c
  suffices h : ∀ (init : List Bytes) (last : Bytes) (t : Node μ),
      ((resolveSegments t init).bind fun p ↦ (t.get? p).bind fun g ↦
        (g.children.findIdx? (·.named last)).bind fun i ↦ t.get? (p ++ [i])) =
      nodeAt t (init ++ [last]) by
    rw [resolveNode]
    rcases hsplit : (splitPath path).getLast? with _ | last
    · rw [List.getLast?_eq_none_iff.mp hsplit]
      exact LeafTree.get?_nil t
    · have := h (splitPath path).dropLast last t
      rw [List.dropLast_append_getLast? last hsplit] at this
      rw [← this]
      simp only [Option.bind_eq_bind, Option.bind_assoc, Option.bind_some]
  intro init last
  induction init with
  | nil =>
    intro t
    rw [resolveSegments, Option.bind_some, LeafTree.get?_nil, Option.bind_some]
    exact hlast last t
  | cons seg init ih =>
    intro t
    have hnext : ∃ next rest, init ++ [last] = next :: rest := by
      rcases init with _ | ⟨next, rest⟩
      · exact ⟨last, [], rfl⟩
      · exact ⟨next, rest ++ [last], rfl⟩
    obtain ⟨next, rest, hnext⟩ := hnext
    rw [List.cons_append, hnext, nodeAt, ← hnext, resolveSegments,
      List.find?_eq_bind_findIdx?_getElem?]
    simp only [Option.bind_eq_bind, Option.bind_assoc, Option.bind_some]
    refine congrArg _ (funext fun i ↦ ?_)
    rcases hc : t.children[i]? with _ | c
    · rfl
    · rw [Option.bind_some, Option.bind_some, ← ih c]
      refine congrArg _ (funext fun p ↦ ?_)
      rw [LeafTree.get?_cons hc]
      refine congrArg _ (funext fun g ↦ congrArg _ (funext fun j ↦ ?_))
      rw [List.cons_append, LeafTree.get?_cons hc]

/-! ## Erasing a medium -/

/-- `erase_media_child` -/
def eraseMediaChild (leaf : Bytes) : Node μ → Node μ
  | .branch label cs => .branch label (cs.eraseP fun c ↦ !c.isGallery && c.named leaf)
  | .leaf label medium => .leaf label medium

/-- A turn of the loop of `remove_media_batch`. -/
def removeMedium (root : Node μ) (path : Bytes) : Node μ :=
  match resolveGallery root (parentOf path) with
  | some p => root.modifyAt (eraseMediaChild (leafOf path)) p
  | none => root

/-- The tree that `remove_media_batch` commits. -/
def removeMediaBatch (root : Node μ) (nodePaths : List Bytes) : Node μ :=
  nodePaths.foldl removeMedium root

theorem find?_eraseP_of_disjoint {α : Type} {q r : α → Bool} {xs : List α}
    (h : ∀ x, q x = true → r x = false) : (xs.eraseP q).find? r = xs.find? r := by
  induction xs with
  | nil => rfl
  | cons x xs ih =>
    by_cases hq : q x
    · rw [List.eraseP_cons_of_pos hq, List.find?_cons_of_neg (by rw [h x hq]; exact Bool.false_ne_true)]
    · rw [List.eraseP_cons_of_neg hq, List.find?_cons, List.find?_cons, ih]

/-- Looking for an element in a list where one was replaced by a similar one. -/
theorem find?_modify {α : Type} {f : α → α} {r : α → Bool} {xs : List α} {i : ℕ}
    (h : ∀ x, xs[i]? = some x → r (f x) = r x) :
    (xs.modify i f).find? r =
      (xs.findIdx? r).bind fun j ↦ if i = j then xs[j]?.map f else xs[j]? := by
  induction xs generalizing i with
  | nil => rw [List.modify_nil, List.findIdx?_nil, Option.bind_none, List.find?_nil]
  | cons x xs ih =>
    rcases i with _ | i
    · have hx := h x rfl
      rw [List.modify_zero_cons, List.find?_cons, List.findIdx?_cons, hx]
      rcases r x with _ | _
      · rw [List.find?_eq_bind_findIdx?_getElem?]
        rcases xs.findIdx? r with _ | j
        · rfl
        · rfl
      · rfl
    · rw [List.modify_succ_cons, List.find?_cons, List.findIdx?_cons]
      rcases r x with _ | _
      · rw [ih fun y hy ↦ h y hy]
        rcases xs.findIdx? r with _ | j
        · rfl
        · simp
      · rfl

theorem label_modifyAt_eraseMediaChild :
    (t.modifyAt (eraseMediaChild leaf) p).label = t.label ∧
      (t.modifyAt (eraseMediaChild leaf) p).isGallery = t.isGallery := by
  rcases t with ⟨label, cs⟩ | ⟨label, medium⟩ <;> rcases p with _ | ⟨i, p⟩ <;>
    simp [LeafTree.modifyAt, eraseMediaChild, LeafTree.isGallery]

/-- **Erasing a medium** leaves what is at any other path. -/
theorem nodeAt_modifyAt (hp : resolveSegments t segs = some p) (hne : at' ≠ segs ++ [leaf])
    (hu : nodeAt t at' = some u) (hmedium : u.isGallery = false) :
    nodeAt (t.modifyAt (eraseMediaChild leaf) p) at' = some u := by
  induction segs generalizing t p at' with
  | nil =>
    obtain rfl := Option.some.inj hp
    rw [LeafTree.modifyAt_nil]
    rcases t with ⟨label, cs⟩ | ⟨label, medium⟩
    · rcases at' with _ | ⟨seg, _ | ⟨next, rest⟩⟩
      · obtain rfl := Option.some.inj hu
        exact absurd hmedium Bool.true_eq_false.mp
      · refine Eq.trans (find?_eraseP_of_disjoint fun c hc ↦ ?_) hu
        obtain ⟨-, hleaf⟩ := Bool.and_eq_true_iff.mp hc
        refine Bool.eq_false_iff.mpr fun hseg ↦ hne ?_
        rw [← beq_iff_eq.mp hseg, ← beq_iff_eq.mp hleaf]
        rfl
      · have hgallery : (cs.eraseP fun c ↦ !c.isGallery && c.named leaf).find?
            (fun c ↦ c.isGallery && c.named seg) =
              cs.find? fun c ↦ c.isGallery && c.named seg := by
          refine find?_eraseP_of_disjoint fun c hc ↦ ?_
          rw [(Bool.not_eq_true' _).mp (Bool.and_eq_true_iff.mp hc).1, Bool.false_and]
        refine Eq.trans ?_ hu
        rw [nodeAt, nodeAt]
        exact congrArg (fun o ↦ o.bind fun c ↦ nodeAt c (next :: rest)) hgallery
    · exact hu
  | cons seg segs ih =>
    obtain ⟨i, hi, hp⟩ := Option.bind_eq_some_iff.mp hp
    obtain ⟨c, hc, hp⟩ := Option.bind_eq_some_iff.mp hp
    obtain ⟨q, hq, hp⟩ := Option.bind_eq_some_iff.mp hp
    obtain rfl := Option.some.inj hp
    obtain ⟨_, hmatch, -⟩ := List.findIdx?_eq_some_iff_getElem.mp hi
    obtain ⟨hlt, rfl⟩ := List.getElem?_eq_some_iff.mp hc
    obtain ⟨hgallery, hseg⟩ := Bool.and_eq_true_iff.mp hmatch
    rcases t with ⟨label, cs⟩ | ⟨label, medium⟩
    · rw [LeafTree.modifyAt]
      have hsame (r : Node μ → Bool)
          (hr : ∀ c d : Node μ, c.label = d.label → c.isGallery = d.isGallery → r c = r d) :
          (cs.modify i (LeafTree.modifyAt (eraseMediaChild leaf) q)).find? r =
            (cs.findIdx? r).bind fun j ↦
              if i = j then cs[j]?.map (LeafTree.modifyAt (eraseMediaChild leaf) q) else cs[j]? :=
        find?_modify fun c _ ↦ hr _ _ label_modifyAt_eraseMediaChild.1 label_modifyAt_eraseMediaChild.2
      rcases at' with _ | ⟨seg', _ | ⟨next, rest⟩⟩
      · obtain rfl := Option.some.inj hu
        exact absurd hmedium Bool.true_eq_false.mp
      · obtain ⟨j, hj, hu⟩ :=
          Option.bind_eq_some_iff.mp (List.find?_eq_bind_findIdx?_getElem?.symm.trans hu)
        refine (hsame (·.named seg') fun c d h _ ↦ congrArg (· == seg') (congrArg _ h)).trans ?_
        refine Option.bind_eq_some_iff.mpr ⟨j, hj, ?_⟩
        -- the medium is not the gallery on the way
        have hij : i ≠ j := fun hij ↦ by
          obtain rfl := Option.some.inj (hc.symm.trans (hij ▸ hu))
          exact Bool.false_ne_true (hmedium.symm.trans hgallery)
        rw [if_neg hij]
        exact hu
      · obtain ⟨d, hd, hbelow⟩ := Option.bind_eq_some_iff.mp hu
        obtain ⟨j, hj, hd⟩ :=
          Option.bind_eq_some_iff.mp (List.find?_eq_bind_findIdx?_getElem?.symm.trans hd)
        have hfind := hsame (fun c ↦ c.isGallery && c.named seg') fun c d h h' ↦ by
          rw [h', LeafTree.named, LeafTree.named, h]
        refine Option.bind_eq_some_iff.mpr
          ⟨if i = j then LeafTree.modifyAt (eraseMediaChild leaf) q d else d, hfind.trans ?_, ?_⟩
        · refine Option.bind_eq_some_iff.mpr ⟨j, hj, ?_⟩
          rw [LeafTree.children_branch] at hd
          rw [hd]
          split_ifs
          · rfl
          · rfl
        · split_ifs with hij
          · obtain rfl := Option.some.inj (hc.symm.trans (hij ▸ hd))
            obtain ⟨_, hmatch', -⟩ := List.findIdx?_eq_some_iff_getElem.mp (hij ▸ hj)
            have hseg' := (Bool.and_eq_true_iff.mp hmatch').2
            obtain rfl : seg = seg' := (beq_iff_eq.mp hseg).symm.trans (beq_iff_eq.mp hseg')
            exact ih hq (fun h ↦ hne (by rw [h, List.cons_append])) hbelow
          · exact hbelow
    · exact absurd hlt (Nat.not_lt_zero _)

/-! ## Paths -/

theorem mem_splitPathFrom_ne_nil {cur q s : Bytes} (h : s ∈ splitPathFrom cur q) : s ≠ [] := by
  have hseg (cur : Bytes) (h : s ∈ if cur.isEmpty then [] else [cur]) : s ≠ [] := by
    split_ifs at h with hempty
    · exact absurd h List.not_mem_nil
    · rw [List.mem_singleton.mp h]
      exact fun hnil ↦ hempty (List.isEmpty_iff.mpr hnil)
  induction q generalizing cur with
  | nil => exact hseg cur h
  | cons c q ih =>
    rw [splitPathFrom] at h
    by_cases hc : c = slash
    · rw [if_pos hc] at h
      rcases List.mem_append.mp h with h | h
      · exact hseg cur h
      · exact ih h
    · rw [if_neg hc] at h
      exact ih h

theorem ne_nil_of_mem_splitPath {q s : Bytes} (h : s ∈ splitPath q) : s ≠ [] :=
  mem_splitPathFrom_ne_nil h

/-- A path is its parent, a slash and its leaf, or it has no slash. -/
theorem parentOf_leafOf (path : Bytes) :
    path = parentOf path ++ slash :: leafOf path ∨ parentOf path = [] ∧ leafOf path = path := by
  have hsplit := List.takeWhile_append_dropWhile (p := (· != slash)) (l := path.reverse)
  rcases hdrop : path.reverse.dropWhile (· != slash) with _ | ⟨c, rest⟩
  · right
    rw [hdrop, List.append_nil] at hsplit
    rw [parentOf, leafOf, hdrop, hsplit, List.reverse_reverse]
    exact ⟨rfl, rfl⟩
  · left
    have hc : c = slash := by
      have hne : path.reverse.dropWhile (· != slash) ≠ [] := hdrop ▸ List.cons_ne_nil _ _
      simpa [hdrop] using List.head_dropWhile_not (· != slash) hne
    rw [hdrop, hc] at hsplit
    have := congrArg List.reverse hsplit
    rw [List.reverse_append, List.reverse_cons, List.reverse_reverse, List.append_assoc,
      List.singleton_append] at this
    rw [parentOf, leafOf, hdrop, List.drop_one, List.tail_cons]
    exact this.symm

theorem slash_not_mem_leafOf (path : Bytes) : slash ∉ leafOf path := fun h ↦ by
  rw [leafOf, List.mem_reverse] at h
  exact absurd (List.mem_takeWhile_imp h) (by simp)

/-- Where the medium of a path is looked up. -/
theorem splitPath_parentOf_leafOf (h : leafOf path ≠ []) :
    splitPath path = splitPath (parentOf path) ++ [leafOf path] := by
  have hleaf := splitPath_of_slash_not_mem (slash_not_mem_leafOf path) h
  rcases parentOf_leafOf path with heq | ⟨hparent, heq⟩
  · rw [← hleaf, ← splitPath_append_slash, ← heq]
  · rw [hparent, ← hleaf, heq]
    rfl

/-! ## The media that stay -/

/-- There is a medium at a path. -/
def HasMedium (root : Node μ) (path : Bytes) : Prop :=
  ∃ u, (resolveNode root path).bind root.get? = some u ∧ u.isGallery = false

theorem hasMedium_iff {root : Node μ} :
    HasMedium root path ↔ ∃ u, nodeAt root (splitPath path) = some u ∧ u.isGallery = false := by
  rw [HasMedium, resolveNode_bind_get?]

/-- **Removing a path** leaves the media at other places. -/
theorem HasMedium.removeMedium {root : Node μ} {path' : Bytes} (h : HasMedium root path)
    (hne : splitPath path ≠ splitPath path') : HasMedium (removeMedium root path') path := by
  rw [SafeVault.removeMedium]
  rcases hp : resolveGallery root (parentOf path') with _ | p
  · exact h
  · obtain ⟨u, hu, hmedium⟩ := hasMedium_iff.mp h
    refine hasMedium_iff.mpr ⟨u, nodeAt_modifyAt hp (fun heq ↦ ?_) hu hmedium, hmedium⟩
    have hleaf : leafOf path' ≠ [] := by
      refine ne_nil_of_mem_splitPath (q := path) ?_
      rw [heq]
      exact List.mem_append_right _ (List.mem_singleton_self _)
    exact hne (heq.trans (splitPath_parentOf_leafOf hleaf).symm)

/-- **Removing a batch** leaves the media at other places. -/
theorem HasMedium.removeMediaBatch {root : Node μ} {nodePaths : List Bytes}
    (h : HasMedium root path) (hne : splitPath path ∉ nodePaths.map splitPath) :
    HasMedium (removeMediaBatch root nodePaths) path := by
  induction nodePaths generalizing root with
  | nil => exact h
  | cons path' nodePaths ih =>
    rw [List.map_cons, List.mem_cons, not_or] at hne
    exact ih (h.removeMedium hne.1) hne.2

end SafeVault
