import SafeVault.Lib.LeafTree

/-!
# Trees whose leaves change

Another payload at a leaf changes neither the labels of a tree nor its shape. What can be told from
these two is told of the tree with all payloads forgotten, and two trees that are equal then agree on
it.
-/

namespace SafeVault

namespace LeafTree

variable {ν μ γ : Type} {t u : LeafTree ν μ} {p q : List ℕ} {a : μ} {f : μ → γ} {n : ν}

/-! ## Mapping the payloads -/

/-- Apply a function to every payload. -/
def mapLeaf (f : μ → γ) : LeafTree ν μ → LeafTree ν γ :=
  fold (fun n cs ↦ branch n cs) (fun n p ↦ leaf n (f p))

@[simp] theorem mapLeaf_leaf (f : μ → γ) (n : ν) (p : μ) : mapLeaf f (leaf n p) = leaf n (f p) :=
  rfl

@[simp] theorem mapLeaf_branch (f : μ → γ) (n : ν) (cs : List (LeafTree ν μ)) :
    mapLeaf f (branch n cs) = branch n (cs.map (mapLeaf f)) := fold_branch _ _ _ _

@[simp] theorem label_mapLeaf : (mapLeaf f t).label = t.label := by
  rcases t with ⟨n, cs⟩ | ⟨n, b⟩
  · rw [mapLeaf_branch, label_branch, label_branch]
  · rw [mapLeaf_leaf, label_leaf, label_leaf]

theorem children_mapLeaf : (mapLeaf f t).children = t.children.map (mapLeaf f) := by
  rcases t with ⟨n, cs⟩ | ⟨n, b⟩
  · rw [mapLeaf_branch, children_branch, children_branch]
  · rfl

theorem get?_mapLeaf : (mapLeaf f t).get? p = (t.get? p).map (mapLeaf f) := by
  induction p generalizing t with
  | nil => rw [get?_nil, get?_nil, Option.map_some]
  | cons i p ih =>
    rw [get?, get?, children_mapLeaf, List.getElem?_map]
    rcases t.children[i]? with _ | c
    · rfl
    · exact ih

/-! ## Changing one payload -/

/-- A leaf with another payload. -/
def setPayload (a : μ) : LeafTree ν μ → LeafTree ν μ
  | leaf n _ => leaf n a
  | branch n cs => branch n cs

@[simp] theorem setPayload_leaf {b : μ} : setPayload a (leaf n b) = leaf n a := rfl

/-- What is left when all payloads are forgotten. -/
def shape (t : LeafTree ν μ) : LeafTree ν Unit := t.mapLeaf fun _ ↦ ()

theorem shape_setPayload : (setPayload a t).shape = t.shape := by
  rcases t with ⟨n, cs⟩ | ⟨n, b⟩
  · rfl
  · rw [setPayload_leaf, shape, shape, mapLeaf_leaf, mapLeaf_leaf]

/-- **Another payload leaves the shape.** -/
theorem shape_modifyAt_setPayload : (modifyAt (setPayload a) p t).shape = t.shape := by
  induction p generalizing t with
  | nil => rw [modifyAt_nil, shape_setPayload]
  | cons i p ih =>
    rcases t with ⟨n, cs⟩ | ⟨n, b⟩
    · rw [modifyAt, shape, shape, mapLeaf_branch, mapLeaf_branch]
      refine congrArg _ (List.ext_getElem? fun j ↦ ?_)
      rw [List.getElem?_map, List.getElem?_map, List.getElem?_modify]
      rcases cs[j]? with _ | c
      · rfl
      · rw [Option.map_eq_map, Option.map_some, Option.map_some, Option.map_some]
        split_ifs
        · exact congrArg some ih
        · rfl
    · rfl

/-- The changed payload is found at its position. -/
theorem get?_modifyAt_setPayload {b : μ} (h : t.get? p = some (leaf n b)) :
    (modifyAt (setPayload a) p t).get? p = some (leaf n a) := get?_modifyAt_self h

end LeafTree

end SafeVault
