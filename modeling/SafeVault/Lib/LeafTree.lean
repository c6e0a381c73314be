import Mathlib.Algebra.GroupWithZero.Nat
import Mathlib.Data.List.Basic
import Mathlib.Algebra.Order.BigOperators.Group.List
import Mathlib.Order.Lattice

/-!
# Trees whose leaves carry a payload

A *leaf tree* is a finite ordered tree with two kinds of node: a branch holds a label and a list of
subtrees, a leaf holds a label and a payload. A leaf has no children by construction, so a predicate
on such a tree never has to exclude a leaf with something below it.

## One recursion

The type is a nested inductive, and a definition by recursion on it needs a companion on lists of
trees. That companion is written once, in `fold`; height, size, relabelling and the quantifier `All`
are instances of it, and each gets the pair of equations one would write down for it. Induction is
likewise packaged once, in `LeafTree.ind`, whose branch case offers the hypothesis for every member
of the child list.
-/

namespace SafeVault

/-- A finite ordered tree with labels `ν` everywhere and payloads `μ` at the leaves. -/
inductive LeafTree (ν μ : Type*) where
  /-- An inner node: a label over a list of subtrees, possibly empty. -/
  | branch (label : ν) (children : List (LeafTree ν μ))
  /-- A leaf: a label with a payload. -/
  | leaf (label : ν) (payload : μ)
  deriving Inhabited

namespace LeafTree

variable {ν μ ν' β : Type*}

/-! ## Recursion and induction -/

mutual

/-- The recursor of leaf trees for results that do not depend on the tree. -/
def fold (b : ν → List β → β) (l : ν → μ → β) : LeafTree ν μ → β
  | branch n cs => b n (foldAll b l cs)
  | leaf n p => l n p

/-- `fold` along a list of trees; `foldAll_eq_map` replaces it by `List.map`. -/
def foldAll (b : ν → List β → β) (l : ν → μ → β) : List (LeafTree ν μ) → List β
  | [] => []
  | c :: cs => fold b l c :: foldAll b l cs

end

theorem foldAll_eq_map (b : ν → List β → β) (l : ν → μ → β) (cs : List (LeafTree ν μ)) :
    foldAll b l cs = cs.map (fold b l) := by
  induction cs with
  | nil => rfl
  | cons c cs ih => rw [foldAll, ih, List.map_cons]

@[simp] theorem fold_branch (b : ν → List β → β) (l : ν → μ → β) (n : ν)
    (cs : List (LeafTree ν μ)) : fold b l (branch n cs) = b n (cs.map (fold b l)) := by
  rw [fold, foldAll_eq_map]

@[simp] theorem fold_leaf (b : ν → List β → β) (l : ν → μ → β) (n : ν) (p : μ) :
    fold b l (leaf n p) = l n p := rfl

/-- Induction on a leaf tree. In the branch case the hypothesis holds of every child. -/
@[elab_as_elim, induction_eliminator]
theorem ind {P : LeafTree ν μ → Prop}
    (branch : ∀ n cs, (∀ c ∈ cs, P c) → P (branch n cs))
    (leaf : ∀ n p, P (leaf n p)) (t : LeafTree ν μ) : P t := by
  refine @LeafTree.rec ν μ P (fun cs ↦ ∀ c ∈ cs, P c) (fun n cs h ↦ branch n cs h) leaf ?_ ?_ t
  · intro c hc
    exact absurd hc List.not_mem_nil
  · intro c cs hc hcs d hd
    rcases List.mem_cons.mp hd with rfl | hd
    · exact hc
    · exact hcs d hd

/-! ## Labels -/

/-- The label of the root. -/
def label : LeafTree ν μ → ν
  | branch n _ => n
  | leaf n _ => n

/-- The subtrees directly below the root; a leaf has none. -/
def children : LeafTree ν μ → List (LeafTree ν μ)
  | branch _ cs => cs
  | leaf _ _ => []

@[simp] theorem label_branch (n : ν) (cs : List (LeafTree ν μ)) : (branch n cs).label = n := rfl

@[simp] theorem label_leaf (n : ν) (p : μ) : (leaf n p).label = n := rfl

@[simp] theorem children_branch (n : ν) (cs : List (LeafTree ν μ)) :
    (branch n cs).children = cs := rfl

/-- Apply a function to every label, keeping the shape and the payloads. -/
def mapLabel (f : ν → ν') : LeafTree ν μ → LeafTree ν' μ :=
  fold (fun n cs ↦ branch (f n) cs) (fun n p ↦ leaf (f n) p)

@[simp] theorem mapLabel_branch (f : ν → ν') (n : ν) (cs : List (LeafTree ν μ)) :
    mapLabel f (branch n cs) = branch (f n) (cs.map (mapLabel f)) := fold_branch _ _ _ _

@[simp] theorem mapLabel_leaf (f : ν → ν') (n : ν) (p : μ) :
    mapLabel f (leaf n p) = leaf (f n) p := rfl

@[simp] theorem label_mapLabel (f : ν → ν') (t : LeafTree ν μ) :
    (mapLabel f t).label = f t.label := by
  cases t with
  | branch n cs => rw [mapLabel_branch, label_branch, label_branch]
  | leaf n p => rfl

/-! ## What the leaves hold -/

/-- What all payloads yield, from left to right. -/
def slotsAt (slots : μ → List β) : LeafTree ν μ → List β :=
  fold (fun _ ss ↦ ss.flatten) (fun _ p ↦ slots p)

@[simp] theorem slotsAt_branch (slots : μ → List β) (n : ν) (cs : List (LeafTree ν μ)) :
    slotsAt slots (branch n cs) = cs.flatMap (slotsAt slots) := by
  rw [slotsAt, fold_branch, List.flatMap]

/-! ## Height -/

/-- The number of edges on a longest path down from the root. -/
def height : LeafTree ν μ → ℕ :=
  fold (fun _ hs ↦ hs.foldr (fun h m ↦ max (h + 1) m) 0) (fun _ _ ↦ 0)

private theorem foldr_max_succ_le_iff (hs : List ℕ) (k : ℕ) :
    hs.foldr (fun h m ↦ max (h + 1) m) 0 ≤ k ↔ ∀ h ∈ hs, h < k := by
  induction hs with
  | nil => simp
  | cons h hs ih =>
    rw [List.foldr_cons, max_le_iff, ih, List.forall_mem_cons, Nat.succ_le_iff]

/-- A branch is at most `k` high exactly when each child is lower than `k`. -/
theorem height_branch_le_iff {n : ν} {cs : List (LeafTree ν μ)} {k : ℕ} :
    (branch n cs).height ≤ k ↔ ∀ c ∈ cs, c.height < k := by
  rw [height, fold_branch, foldr_max_succ_le_iff]
  simp only [List.forall_mem_map]

@[simp] theorem height_mapLabel (f : ν → ν') (t : LeafTree ν μ) :
    (mapLabel f t).height = t.height := by
  induction t with
  | leaf n p => rfl
  | branch n cs ih =>
    refine eq_of_forall_ge_iff fun k ↦ ?_
    rw [mapLabel_branch, height_branch_le_iff, height_branch_le_iff, List.forall_mem_map]
    exact forall₂_congr fun c hc ↦ by rw [ih c hc]

/-! ## Size -/

/-- The number of nodes. -/
def size : LeafTree ν μ → ℕ :=
  fold (fun _ ss ↦ ss.sum + 1) (fun _ _ ↦ 1)

@[simp] theorem size_branch (n : ν) (cs : List (LeafTree ν μ)) :
    (branch n cs).size = (cs.map size).sum + 1 := fold_branch _ _ _ _

@[simp] theorem size_leaf (n : ν) (p : μ) : (leaf n p : LeafTree ν μ).size = 1 := rfl

theorem size_pos (t : LeafTree ν μ) : 0 < t.size := by
  cases t with
  | branch n cs => rw [size_branch]; exact Nat.succ_pos _
  | leaf n p => exact Nat.one_pos

/-! ## A predicate at every node -/

/-- `B` holds of the label and the children of every branch, and `L` of the label and the payload
of every leaf. -/
inductive All (B : ν → List (LeafTree ν μ) → Prop) (L : ν → μ → Prop) : LeafTree ν μ → Prop
  | branch {n : ν} {cs : List (LeafTree ν μ)} :
      B n cs → (∀ c ∈ cs, All B L c) → All B L (branch n cs)
  | leaf {n : ν} {p : μ} : L n p → All B L (leaf n p)

variable {B B' : ν → List (LeafTree ν μ) → Prop} {L L' : ν → μ → Prop}

@[simp] theorem all_leaf {n : ν} {p : μ} : All B L (leaf n p) ↔ L n p :=
  ⟨fun h ↦ by cases h with | leaf h => exact h, All.leaf⟩

@[simp] theorem all_branch {n : ν} {cs : List (LeafTree ν μ)} :
    All B L (branch n cs) ↔ B n cs ∧ ∀ c ∈ cs, All B L c :=
  ⟨fun h ↦ by cases h with | branch h hs => exact ⟨h, hs⟩, fun h ↦ All.branch h.1 h.2⟩

theorem All.imp (hB : ∀ n cs, B n cs → B' n cs) (hL : ∀ n p, L n p → L' n p)
    {t : LeafTree ν μ} (h : All B L t) : All B' L' t := by
  induction t with
  | leaf n p => exact all_leaf.mpr (hL n p (all_leaf.mp h))
  | branch n cs ih =>
    rw [all_branch] at h ⊢
    exact ⟨hB n cs h.1, fun c hc ↦ ih c hc (h.2 c hc)⟩

theorem all_mapLabel {B : ν' → List (LeafTree ν' μ) → Prop} {L : ν' → μ → Prop} (f : ν → ν')
    {t : LeafTree ν μ} :
    All B L (mapLabel f t) ↔
      All (fun n cs ↦ B (f n) (cs.map (mapLabel f))) (fun n p ↦ L (f n) p) t := by
  induction t with
  | leaf n p => rw [mapLabel_leaf, all_leaf, all_leaf]
  | branch n cs ih =>
    rw [mapLabel_branch, all_branch, all_branch, List.forall_mem_map]
    exact and_congr_right fun _ ↦ forall₂_congr fun c hc ↦ ih c hc

/-- `P` holds of every label. -/
def AllLabel (P : ν → Prop) (t : LeafTree ν μ) : Prop := All (fun n _ ↦ P n) (fun n _ ↦ P n) t

variable {P Q : ν → Prop}

@[simp] theorem allLabel_leaf {n : ν} {p : μ} : AllLabel P (leaf n p) ↔ P n := all_leaf

@[simp] theorem allLabel_branch {n : ν} {cs : List (LeafTree ν μ)} :
    AllLabel P (branch n cs) ↔ P n ∧ ∀ c ∈ cs, AllLabel P c := all_branch

theorem AllLabel.imp (h : ∀ n, P n → Q n) {t : LeafTree ν μ} (ht : AllLabel P t) :
    AllLabel Q t := All.imp (fun n _ ↦ h n) (fun n _ ↦ h n) ht

theorem AllLabel.label {t : LeafTree ν μ} (h : AllLabel P t) : P t.label := by
  cases t with
  | branch n cs => exact (allLabel_branch.mp h).1
  | leaf n p => exact allLabel_leaf.mp h

theorem All.child {t c : LeafTree ν μ} (h : All B L t) (hc : c ∈ t.children) : All B L c := by
  cases t with
  | branch n cs => exact (all_branch.mp h).2 c hc
  | leaf n p => exact absurd hc List.not_mem_nil

theorem AllLabel.child {t c : LeafTree ν μ} (h : AllLabel P t) (hc : c ∈ t.children) :
    AllLabel P c := All.child h hc

theorem allLabel_mapLabel {P : ν' → Prop} (f : ν → ν') {t : LeafTree ν μ} :
    AllLabel P (mapLabel f t) ↔ AllLabel (fun n ↦ P (f n)) t := all_mapLabel f

/-- The labels on a walk from the root, parents before children. -/
def labels : LeafTree ν μ → List ν := fold (fun n ls ↦ n :: ls.flatten) (fun n _ ↦ [n])

@[simp] theorem labels_branch (n : ν) (cs : List (LeafTree ν μ)) :
    (branch n cs).labels = n :: cs.flatMap labels := by
  rw [labels, fold_branch, ← List.flatMap_def]

@[simp] theorem labels_leaf (n : ν) (p : μ) : (leaf n p : LeafTree ν μ).labels = [n] := rfl

theorem allLabel_iff_forall_mem_labels {t : LeafTree ν μ} :
    AllLabel P t ↔ ∀ n ∈ t.labels, P n := by
  induction t with
  | leaf n p => rw [allLabel_leaf, labels_leaf, List.forall_mem_singleton]
  | branch n cs ih =>
    rw [allLabel_branch, labels_branch, List.forall_mem_cons, List.forall_mem_flatMap]
    exact and_congr_right fun _ ↦ forall₂_congr ih

/-- The values of a list of options, if all are present. -/
def allSome : List (Option β) → Option (List β)
  | [] => some []
  | none :: _ => none
  | some b :: os => (allSome os).map (b :: ·)

theorem some_mem_of_allSome {os : List (Option β)} {bs : List β} (h : allSome os = some bs) {b : β}
    (hb : b ∈ bs) : some b ∈ os := by
  induction os generalizing bs with
  | nil =>
    cases h
    exact absurd hb List.not_mem_nil
  | cons o os ih =>
    cases o with
    | none => cases h
    | some a =>
      obtain ⟨as, has, rfl⟩ := Option.map_eq_some_iff.mp h
      rcases List.mem_cons.mp hb with rfl | hb
      · exact List.mem_cons_self
      · exact List.mem_cons_of_mem _ (ih has hb)

/-- Apply a function that may fail to every label. Fails when it fails somewhere. -/
def mapLabel? (f : ν → Option ν') : LeafTree ν μ → Option (LeafTree ν' μ) :=
  fold (fun n cs ↦ (f n).bind fun n' ↦ (allSome cs).map (branch n'))
    (fun n p ↦ (f n).map fun n' ↦ leaf n' p)

/-- What a successful map turns every label into holds of the result. -/
theorem AllLabel.mapLabel? {Q : ν' → Prop} {f : ν → Option ν'} {t : LeafTree ν μ}
    {t' : LeafTree ν' μ} (h : AllLabel P t) (hf : ∀ n n', P n → f n = some n' → Q n')
    (ht : LeafTree.mapLabel? f t = some t') : AllLabel Q t' := by
  induction t generalizing t' with
  | leaf n p =>
    rw [LeafTree.mapLabel?, fold_leaf, Option.map_eq_some_iff] at ht
    obtain ⟨n', hn', rfl⟩ := ht
    exact allLabel_leaf.mpr (hf n n' (allLabel_leaf.mp h) hn')
  | branch n cs ih =>
    obtain ⟨hn, hcs⟩ := allLabel_branch.mp h
    rw [LeafTree.mapLabel?, fold_branch, Option.bind_eq_some_iff] at ht
    obtain ⟨n', hn', ht⟩ := ht
    obtain ⟨cs', hcs', rfl⟩ := Option.map_eq_some_iff.mp ht
    refine allLabel_branch.mpr ⟨hf n n' hn hn', fun c' hc' ↦ ?_⟩
    obtain ⟨c, hc, hcc'⟩ := List.mem_map.mp (some_mem_of_allSome hcs' hc')
    exact ih c hc (hcs c hc) hcc'

@[simp] theorem labels_mapLabel (f : ν → ν') (t : LeafTree ν μ) :
    (mapLabel f t).labels = t.labels.map f := by
  induction t with
  | leaf n p => rfl
  | branch n cs ih =>
    rw [mapLabel_branch, labels_branch, labels_branch, List.map_cons, List.flatMap_map,
      List.map_flatMap]
    exact congrArg _ (List.flatMap_congr ih)

/-! ## Positions

A node is addressed by the list of child indices on the way down from the root. -/

/-- The subtree at a position. -/
def get? : LeafTree ν μ → List ℕ → Option (LeafTree ν μ)
  | t, [] => some t
  | t, i :: p =>
    match t.children[i]? with
    | some c => get? c p
    | none => none

/-- Replace the subtree at a position by its image; nothing happens where there is none. -/
def modifyAt (f : LeafTree ν μ → LeafTree ν μ) : List ℕ → LeafTree ν μ → LeafTree ν μ
  | [], t => f t
  | _ :: _, leaf n p => leaf n p
  | i :: p, branch n cs => branch n (cs.modify i (modifyAt f p))

@[simp] theorem get?_nil (t : LeafTree ν μ) : get? t [] = some t := by rw [get?]

@[simp] theorem modifyAt_nil (f : LeafTree ν μ → LeafTree ν μ) (t : LeafTree ν μ) :
    modifyAt f [] t = f t := by rw [modifyAt]

@[simp] theorem children_mapLabel (f : ν → ν') (t : LeafTree ν μ) :
    (mapLabel f t).children = t.children.map (mapLabel f) := by
  cases t with
  | leaf n p => rfl
  | branch n cs => rw [mapLabel_branch, children_branch, children_branch]

theorem get?_mapLabel (f : ν → ν') (t : LeafTree ν μ) (p : List ℕ) :
    (mapLabel f t).get? p = (t.get? p).map (mapLabel f) := by
  induction p generalizing t with
  | nil => rw [get?, get?, Option.map_some]
  | cons i p ih =>
    rw [get?, get?, children_mapLabel, List.getElem?_map]
    rcases t.children[i]? with _ | c
    · rfl
    · exact ih c

/-- A relabelling that leaves every label alone. -/
theorem mapLabel_eq_self {f : ν → ν} {t : LeafTree ν μ} (h : ∀ n ∈ t.labels, f n = n) :
    mapLabel f t = t := by
  induction t with
  | leaf n p => rw [mapLabel_leaf, h n (List.mem_singleton.mpr rfl)]
  | branch n cs ih =>
    rw [labels_branch, List.forall_mem_cons] at h
    rw [mapLabel_branch, h.1]
    refine congrArg _ ((List.map_congr_left fun c hc ↦ ih c hc fun m hm ↦ ?_).trans (List.map_id cs))
    exact h.2 m (List.mem_flatMap.mpr ⟨c, hc, hm⟩)

theorem All.get? {t u : LeafTree ν μ} {p : List ℕ} (h : All B L t)
    (hu : LeafTree.get? t p = some u) : All B L u := by
  induction p generalizing t with
  | nil =>
    rw [get?_nil, Option.some_inj] at hu
    exact hu ▸ h
  | cons i p ih =>
    rw [LeafTree.get?] at hu
    rcases hc : t.children[i]? with _ | c
    · rw [hc] at hu
      cases hu
    · rw [hc] at hu
      exact ih (h.child (List.mem_of_getElem? hc)) hu

theorem AllLabel.get? {t u : LeafTree ν μ} {p : List ℕ} (h : AllLabel P t)
    (hu : LeafTree.get? t p = some u) : AllLabel P u := All.get? h hu

theorem get?_cons {t c : LeafTree ν μ} {i : ℕ} {p : List ℕ} (h : t.children[i]? = some c) :
    get? t (i :: p) = get? c p := by
  rw [get?, h]

/-- A node below the root is below one of its children. -/
theorem get?_cons_eq_some_iff {t u : LeafTree ν μ} {i : ℕ} {p : List ℕ} :
    get? t (i :: p) = some u ↔ ∃ c, t.children[i]? = some c ∧ get? c p = some u := by
  rw [get?]
  rcases t.children[i]? with _ | c <;> simp

/-- What is at the position of a change. -/
theorem get?_modifyAt_self {f : LeafTree ν μ → LeafTree ν μ} {t u : LeafTree ν μ} {p : List ℕ}
    (h : get? t p = some u) : get? (modifyAt f p t) p = some (f u) := by
  induction p generalizing t with
  | nil =>
    obtain rfl : t = u := Option.some.inj ((get?_nil t).symm.trans h)
    rw [modifyAt_nil, get?_nil]
  | cons i p ih =>
    obtain ⟨c, hc, hu⟩ := get?_cons_eq_some_iff.mp h
    rcases t with ⟨n, cs⟩ | ⟨n, q⟩
    · rw [children_branch] at hc
      have hi : (branch n (cs.modify i (modifyAt f p))).children[i]? = some (modifyAt f p c) := by
        rw [children_branch, List.getElem?_modify_eq, hc]
        rfl
      rw [modifyAt, get?_cons hi]
      exact ih hu
    · exact nomatch hc

/-- A change of a leaf leaves every other leaf where it is. -/
theorem get?_modifyAt_leaf {f : LeafTree ν μ → LeafTree ν μ} {t : LeafTree ν μ} {p q : List ℕ}
    {n n' : ν} {a a' : μ} (hp : get? t p = some (leaf n a)) (hq : get? t q = some (leaf n' a'))
    (hne : q ≠ p) : get? (modifyAt f p t) q = some (leaf n' a') := by
  induction p generalizing t q with
  | nil =>
    obtain rfl : t = leaf n a := Option.some.inj ((get?_nil t).symm.trans hp)
    rcases q with _ | ⟨j, q⟩
    · exact absurd rfl hne
    · obtain ⟨c, hc, -⟩ := get?_cons_eq_some_iff.mp hq
      exact nomatch hc
  | cons i p ih =>
    obtain ⟨c, hc, hleaf⟩ := get?_cons_eq_some_iff.mp hp
    rcases t with ⟨m, cs⟩ | ⟨m, b⟩
    · rcases q with _ | ⟨j, q⟩
      · exact nomatch (get?_nil _).symm.trans hq
      obtain ⟨d, hd, hleaf'⟩ := get?_cons_eq_some_iff.mp hq
      rw [children_branch] at hc hd
      rw [modifyAt]
      by_cases hij : i = j
      · subst hij
        obtain rfl : c = d := Option.some.inj (hc.symm.trans hd)
        have hi : (branch m (cs.modify i (modifyAt f p))).children[i]? = some (modifyAt f p c) := by
          rw [children_branch, List.getElem?_modify_eq, hd]
          rfl
        rw [get?_cons hi]
        exact ih hleaf hleaf' fun heq ↦ hne (congrArg _ heq)
      · have hj : (branch m (cs.modify i (modifyAt f p))).children[j]? = some d := by
          rw [children_branch, List.getElem?_modify_ne _ _ hij, hd]
        rw [get?_cons hj]
        exact hleaf'
    · exact nomatch hc

/-- A predicate on labels survives a change at one position that respects it. -/
theorem AllLabel.modifyAt {f : LeafTree ν μ → LeafTree ν μ} {t : LeafTree ν μ} {p : List ℕ}
    (h : AllLabel P t) (hf : ∀ u, LeafTree.get? t p = some u → AllLabel P u → AllLabel P (f u)) :
    AllLabel P (LeafTree.modifyAt f p t) := by
  induction p generalizing t with
  | nil =>
    rw [modifyAt_nil]
    exact hf t (get?_nil t) h
  | cons i p ih =>
    cases t with
    | leaf n q => exact h
    | branch n cs =>
      obtain ⟨hn, hcs⟩ := allLabel_branch.mp h
      refine allLabel_branch.mpr ⟨hn, ?_⟩
      intro c hc
      obtain ⟨j, hj⟩ := List.mem_iff_getElem?.mp hc
      rw [List.getElem?_modify] at hj
      obtain ⟨b, hb, rfl⟩ := Option.map_eq_some_iff.mp hj
      have hb' : AllLabel P b := hcs b (List.mem_of_getElem? hb)
      split_ifs with hij
      · refine ih hb' fun u hu ↦ hf u ?_
        rw [LeafTree.get?, children_branch, hij, hb]
        exact hu
      · exact hb'

/-- Change the label of a tree's root. -/
def setLabel (f : ν → ν) : LeafTree ν μ → LeafTree ν μ
  | branch n cs => branch (f n) cs
  | leaf n p => leaf (f n) p

@[simp] theorem label_setLabel (f : ν → ν) (t : LeafTree ν μ) :
    (setLabel f t).label = f t.label := by
  cases t <;> rfl

theorem AllLabel.setLabel {f : ν → ν} {t : LeafTree ν μ} (h : AllLabel P t)
    (hf : P (f t.label)) : AllLabel P (LeafTree.setLabel f t) := by
  cases t with
  | leaf n p => exact allLabel_leaf.mpr hf
  | branch n cs => exact allLabel_branch.mpr ⟨hf, (allLabel_branch.mp h).2⟩

/-! ## Labels by position -/

mutual

/-- Apply a function of position and label to every label of a tree that is at a position. -/
def mapAt (f : List ℕ → ν → ν) (p : List ℕ) : LeafTree ν μ → LeafTree ν μ
  | branch n cs => branch (f p n) (mapAtAll f p 0 cs)
  | leaf n a => leaf (f p n) a

/-- `mapAt` along the children from the `i`-th on. -/
def mapAtAll (f : List ℕ → ν → ν) (p : List ℕ) : ℕ → List (LeafTree ν μ) → List (LeafTree ν μ)
  | _, [] => []
  | i, c :: cs => mapAt f (p ++ [i]) c :: mapAtAll f p (i + 1) cs

end

variable {f g : List ℕ → ν → ν} {p q : List ℕ} {t u : LeafTree ν μ}

theorem getElem?_mapAtAll (cs : List (LeafTree ν μ)) (i j : ℕ) :
    (mapAtAll f p i cs)[j]? = cs[j]?.map (mapAt f (p ++ [i + j])) := by
  induction cs generalizing i j with
  | nil => rfl
  | cons c cs ih =>
    rw [mapAtAll]
    cases j with
    | zero => rfl
    | succ j => rw [List.getElem?_cons_succ, ih, List.getElem?_cons_succ, Nat.add_right_comm, Nat.add_assoc]

@[simp] theorem label_mapAt : (mapAt f p t).label = f p t.label := by
  cases t <;> rw [mapAt] <;> rfl

theorem children_mapAt (j : ℕ) :
    (mapAt f p t).children[j]? = t.children[j]?.map (mapAt f (p ++ [j])) := by
  cases t with
  | leaf n a => rw [mapAt]; rfl
  | branch n cs => rw [mapAt, children_branch, getElem?_mapAtAll, Nat.zero_add, children_branch]

theorem get?_mapAt : get? (mapAt f p t) q = (get? t q).map (mapAt f (p ++ q)) := by
  induction q generalizing p t with
  | nil => rw [get?_nil, get?_nil, List.append_nil, Option.map_some]
  | cons i q ih =>
    rw [get?, get?, children_mapAt]
    rcases t.children[i]? with _ | c
    · rfl
    · rw [Option.map_some]
      dsimp only
      rw [ih, List.append_assoc, List.singleton_append]

/-- Only the labels that the tree has at the positions it has matter. -/
theorem mapAt_congr (h : ∀ q u, get? t q = some u → f (p ++ q) u.label = g (p ++ q) u.label) :
    mapAt f p t = mapAt g p t := by
  induction t generalizing p with
  | leaf n a =>
    have hroot := h [] (leaf n a) (get?_nil _)
    rw [List.append_nil] at hroot
    rw [mapAt, mapAt]
    exact congrArg (leaf · a) hroot
  | branch n cs ih =>
    have hroot := h [] (branch n cs) (get?_nil _)
    rw [List.append_nil] at hroot
    rw [mapAt, mapAt]
    refine congr (congrArg branch hroot) (List.ext_getElem? fun j ↦ ?_)
    rw [getElem?_mapAtAll, getElem?_mapAtAll, Nat.zero_add]
    refine Option.map_congr fun c hc ↦ ?_
    refine ih c (List.mem_of_getElem? hc) fun q u hu ↦ ?_
    rw [List.append_assoc, List.singleton_append]
    exact h (j :: q) u ((get?_cons hc).trans hu)

theorem mapAt_id : mapAt (fun _ n ↦ n) p t = t := by
  induction t generalizing p with
  | leaf n a => rw [mapAt]
  | branch n cs ih =>
    rw [mapAt]
    refine congrArg (branch n) (List.ext_getElem? fun j ↦ ?_)
    rw [getElem?_mapAtAll]
    rcases hc : cs[j]? with _ | c
    · rfl
    · rw [Option.map_some, ih c (List.mem_of_getElem? hc)]

theorem mapAt_mapAt : mapAt f p (mapAt g p t) = mapAt (fun q n ↦ f q (g q n)) p t := by
  induction t generalizing p with
  | leaf n a => rw [mapAt, mapAt, mapAt]
  | branch n cs ih =>
    rw [mapAt, mapAt, mapAt]
    refine congrArg (branch _) (List.ext_getElem? fun j ↦ ?_)
    rw [getElem?_mapAtAll, getElem?_mapAtAll, getElem?_mapAtAll]
    rcases hc : cs[j]? with _ | c
    · rfl
    · rw [Option.map_some, Option.map_some, Option.map_some, ih c (List.mem_of_getElem? hc)]

/-- A change of one label. -/
theorem modifyAt_setLabel (k : ν → ν) :
    modifyAt (setLabel k) q t = mapAt (fun r n ↦ if r = p ++ q then k n else n) p t := by
  induction q generalizing p t with
  | nil =>
    rw [modifyAt_nil, List.append_nil]
    cases t with
    | leaf n a => rw [mapAt, if_pos rfl, setLabel]
    | branch n cs =>
      rw [mapAt, if_pos rfl, setLabel]
      refine congrArg (branch _) (List.ext_getElem? fun j ↦ ?_)
      rw [getElem?_mapAtAll, Nat.zero_add]
      rcases hc : cs[j]? with _ | c
      · rfl
      · have hsame : mapAt (fun r n ↦ if r = p then k n else n) (p ++ [j]) c =
            mapAt (fun _ n ↦ n) (p ++ [j]) c := by
          refine mapAt_congr fun r u _ ↦ if_neg fun h ↦ ?_
          have hlength := congrArg List.length h
          simp at hlength
        rw [Option.map_some, hsame, mapAt_id]
  | cons i q ih =>
    cases t with
    | leaf n a =>
      rw [modifyAt, mapAt, if_neg fun h ↦ ?_]
      have hlength := congrArg List.length h
      simp at hlength
    | branch n cs =>
      rw [modifyAt, mapAt, if_neg fun h ↦ ?_]
      · refine congrArg (branch _) (List.ext_getElem? fun j ↦ ?_)
        rw [List.getElem?_modify, getElem?_mapAtAll, Nat.zero_add]
        refine Option.map_congr fun c _ ↦ ?_
        split_ifs with hij
        · rw [hij, ih (p := p ++ [j]), List.append_assoc, List.singleton_append]
        · have hsame : mapAt (fun r n ↦ if r = p ++ i :: q then k n else n) (p ++ [j]) c =
              mapAt (fun _ n ↦ n) (p ++ [j]) c := by
            refine mapAt_congr fun r u _ ↦ if_neg fun h ↦ ?_
            rw [List.append_assoc, List.singleton_append] at h
            exact hij (List.cons.inj (List.append_cancel_left h)).1.symm
          rw [hsame, mapAt_id]
      · have hlength := congrArg List.length h
        simp at hlength

end LeafTree

end SafeVault
