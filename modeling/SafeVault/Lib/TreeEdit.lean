import Mathlib.Data.List.Perm.Basic
import SafeVault.Lib.Places

/-!
# Moving a subtree

A subtree is moved by taking it out and putting it in as the last child of a branch. Whoever puts the copy
in first and takes the original out afterwards gets the same tree, as long as the branch is not in the
subtree itself: then the copy goes with the original.

The multiset of nodes is what `contents` lists, and taking out and putting in change it by the contents of
the subtree.
-/

namespace SafeVault

namespace LeafTree

variable {ν μ κ : Type*} {t u c : LeafTree ν μ} {cs : List (LeafTree ν μ)} {p q : List ℕ} {i : ℕ} {n : ν}

/-! ## Taking out and putting in -/

def eraseChild (i : ℕ) : LeafTree ν μ → LeafTree ν μ
  | branch n cs => branch n (cs.eraseIdx i)
  | leaf n a => leaf n a

def pushChild (u : LeafTree ν μ) : LeafTree ν μ → LeafTree ν μ
  | branch n cs => branch n (cs ++ [u])
  | leaf n a => leaf n a

/-- The tree without the `i`-th child of the node at a position. -/
def takeOut (p : List ℕ) (i : ℕ) (t : LeafTree ν μ) : LeafTree ν μ := modifyAt (eraseChild i) p t

/-- The tree with one more child of the node at a position. -/
def putIn (u : LeafTree ν μ) (q : List ℕ) (t : LeafTree ν μ) : LeafTree ν μ := modifyAt (pushChild u) q t

/-- The position of a node after the `i`-th child of the node at `p` was taken out. -/
def shift : List ℕ → ℕ → List ℕ → List ℕ
  | [], i, j :: q => (if i < j then j - 1 else j) :: q
  | a :: p, i, b :: q => if a = b then b :: shift p i q else b :: q
  | _, _, [] => []

@[simp] theorem label_eraseChild : (eraseChild i t).label = t.label := by cases t <;> rfl

@[simp] theorem label_pushChild : (pushChild u t).label = t.label := by cases t <;> rfl

/-- **Putting in and then taking out** is taking out and then putting in. -/
theorem takeOut_putIn (hu : get? t (p ++ [i]) = some c) (hapart : ¬ p ++ [i] <+: q) :
    takeOut p i (putIn u q t) = putIn u (shift p i q) (takeOut p i t) := by
  induction p generalizing t q with
  | nil =>
    obtain ⟨c', hc', -⟩ := get?_cons_eq_some_iff.mp hu
    rcases t with ⟨n, cs⟩ | ⟨n, a⟩
    · rw [children_branch] at hc'
      obtain ⟨hi, -⟩ := List.getElem?_eq_some_iff.mp hc'
      rcases q with _ | ⟨j, q⟩
      · simp only [takeOut, putIn, shift, modifyAt_nil, pushChild, eraseChild]
        rw [List.eraseIdx_append_of_lt_length hi]
      · have hij : j ≠ i := by
          rintro rfl
          exact hapart ⟨q, rfl⟩
        simp only [takeOut, putIn, shift, modifyAt, eraseChild]
        rcases Nat.lt_or_gt_of_ne hij with hlt | hgt
        · rw [List.eraseIdx_modify_of_gt _ _ _ _ (by exact hlt), if_neg (by omega)]
        · rw [List.eraseIdx_modify_of_lt _ _ _ _ (by exact hgt), if_pos hgt]
    · exact absurd hc' (Option.some_ne_none _).symm
  | cons a p ih =>
    obtain ⟨c', hc', hrest⟩ := get?_cons_eq_some_iff.mp hu
    rcases t with ⟨n, cs⟩ | ⟨n, b⟩
    · rw [children_branch] at hc'
      obtain ⟨ha, -⟩ := List.getElem?_eq_some_iff.mp hc'
      rcases q with _ | ⟨b, q⟩
      · simp only [takeOut, putIn, shift, modifyAt_nil, modifyAt, pushChild]
        refine congrArg (branch n) (List.ext_getElem? fun j ↦ ?_)
        rw [List.getElem?_modify, List.getElem?_append, List.getElem?_append, List.length_modify,
          List.getElem?_modify]
        by_cases hj : j < cs.length
        · rw [if_pos hj, if_pos hj]
        · have haj : a ≠ j := by omega
          simp only [if_neg hj, if_neg haj]
          exact Option.map_id'
      · rw [takeOut, putIn, takeOut, putIn, shift, modifyAt, modifyAt, modifyAt]
        by_cases hab : a = b
        · subst hab
          rw [if_pos rfl, modifyAt, List.modify_modify_eq, List.modify_modify_eq]
          refine congrArg (branch n) (List.ext_getElem? fun j ↦ ?_)
          rw [List.getElem?_modify, List.getElem?_modify]
          refine Option.map_congr fun d hd ↦ ?_
          split_ifs with haj
          · subst haj
            obtain rfl : c' = d := Option.some.inj (hc'.symm.trans hd)
            refine ih hrest fun hprefix ↦ hapart ?_
            exact List.cons_prefix_cons.mpr ⟨rfl, hprefix⟩
          · rfl
        · rw [if_neg hab, modifyAt, List.modify_modify_ne _ _ _ (Ne.symm hab)]
    · exact absurd hc' (Option.some_ne_none _).symm

/-- A branch that is not in the subtree is still there. -/
theorem get?_takeOut (hq : get? t q = some (branch n cs)) (hapart : ¬ p ++ [i] <+: q) :
    ∃ cs', get? (takeOut p i t) (shift p i q) = some (branch n cs') := by
  induction p generalizing t q with
  | nil =>
    rcases q with _ | ⟨j, q⟩
    · obtain rfl := Option.some.inj ((get?_nil t).symm.trans hq)
      refine ⟨cs.eraseIdx i, ?_⟩
      rw [shift, takeOut, modifyAt_nil, get?_nil, eraseChild]
    · obtain ⟨c, hc, hrest⟩ := get?_cons_eq_some_iff.mp hq
      rcases t with ⟨m, ds⟩ | ⟨m, a⟩
      · have hij : j ≠ i := by
          rintro rfl
          exact hapart ⟨q, rfl⟩
        refine ⟨cs, ?_⟩
        have hchild : (takeOut [] i (branch m ds)).children[if i < j then j - 1 else j]? = some c := by
          rw [takeOut, modifyAt_nil, eraseChild, children_branch, List.getElem?_eraseIdx]
          rw [children_branch] at hc
          split_ifs with hlt hlt' hlt'
          · omega
          · rw [Nat.sub_add_cancel (by omega), hc]
          · exact hc
          · omega
        rw [shift, get?_cons hchild]
        exact hrest
      · exact nomatch hc
  | cons a p ih =>
    rcases q with _ | ⟨b, q⟩
    · obtain rfl := Option.some.inj ((get?_nil t).symm.trans hq)
      refine ⟨cs.modify a (takeOut p i), ?_⟩
      rw [shift, takeOut, modifyAt, get?_nil]
      rfl
    · obtain ⟨c, hc, hrest⟩ := get?_cons_eq_some_iff.mp hq
      rcases t with ⟨m, ds⟩ | ⟨m, d⟩
      · rw [children_branch] at hc
        have hchild : (takeOut (a :: p) i (branch m ds)).children[b]? =
            some (if a = b then takeOut p i c else c) := by
          rw [takeOut, modifyAt, children_branch, List.getElem?_modify, hc]
          rfl
        rw [shift]
        by_cases hab : a = b
        · rw [if_pos hab, get?_cons hchild, if_pos hab]
          refine ih hrest fun hprefix ↦ hapart ?_
          exact List.cons_prefix_cons.mpr ⟨hab, hprefix⟩
        · rw [if_neg hab, get?_cons hchild, if_neg hab]
          exact ⟨cs, hrest⟩
      · exact nomatch hc

/-- A change below a node is a change of that node. -/
theorem modifyAt_append {f : LeafTree ν μ → LeafTree ν μ} {r : List ℕ} :
    modifyAt f (p ++ r) t = modifyAt (modifyAt f r) p t := by
  induction p generalizing t with
  | nil => rw [List.nil_append, modifyAt_nil]
  | cons i p ih =>
    cases t with
    | branch n cs =>
      rw [List.cons_append, modifyAt, modifyAt]
      refine congrArg (fun g ↦ branch n (cs.modify i g)) (funext fun c ↦ ih)
    | leaf n a => rw [List.cons_append, modifyAt, modifyAt]

/-! ## What the tree holds -/

/-- The labels of all nodes, with the payloads of the leaves. -/
def contents : LeafTree ν μ → List (ν × Option μ) :=
  fold (fun n ls ↦ (n, none) :: ls.flatten) (fun n a ↦ [(n, some a)])

@[simp] theorem contents_branch : (branch n cs).contents = (n, none) :: cs.flatMap contents := by
  rw [contents, fold_branch, ← List.flatMap_def]

/-- Where one child changes by some contents, so does the whole. -/
theorem flatMap_modify_perm {f : LeafTree ν μ → LeafTree ν μ} {j : ℕ} {more less : List (ν × Option μ)}
    (hc : cs[j]? = some c) (h : (more ++ (f c).contents).Perm (less ++ c.contents)) :
    (more ++ (cs.modify j f).flatMap contents).Perm (less ++ cs.flatMap contents) := by
  obtain ⟨hj, rfl⟩ := List.getElem?_eq_some_iff.mp hc
  have hbefore : cs.Perm (cs[j] :: cs.eraseIdx j) := (List.getElem_cons_eraseIdx_perm hj).symm
  have hafter : (cs.modify j f).Perm (f cs[j] :: cs.eraseIdx j) := by
    rw [List.modify_eq_set_getElem?, List.getElem?_eq_getElem hj]
    exact List.set_perm_cons_eraseIdx hj _
  have hl := (hafter.flatMap_right contents).append_left more
  have hr := (hbefore.flatMap_right contents).append_left less
  rw [List.flatMap_cons, ← List.append_assoc] at hl hr
  exact hl.trans ((h.append_right _).trans hr.symm)

theorem contents_modifyAt_perm {f : LeafTree ν μ → LeafTree ν μ} {more less : List (ν × Option μ)}
    (hu : get? t p = some u) (h : (more ++ (f u).contents).Perm (less ++ u.contents)) :
    (more ++ (modifyAt f p t).contents).Perm (less ++ t.contents) := by
  induction p generalizing t with
  | nil =>
    obtain rfl : t = u := Option.some.inj ((get?_nil t).symm.trans hu)
    rw [modifyAt_nil]
    exact h
  | cons i p ih =>
    obtain ⟨c, hc, hrest⟩ := get?_cons_eq_some_iff.mp hu
    rcases t with ⟨n, cs⟩ | ⟨n, a⟩
    · rw [children_branch] at hc
      rw [modifyAt, contents_branch, contents_branch]
      have hperm := flatMap_modify_perm hc (ih hrest)
      exact List.perm_middle.trans ((hperm.cons _).trans List.perm_middle.symm)
    · exact absurd hc (Option.some_ne_none _).symm

/-- What was taken out, and what is left. -/
theorem contents_takeOut (hu : get? t (p ++ [i]) = some u) :
    (u.contents ++ (takeOut p i t).contents).Perm t.contents := by
  rw [get?_append, Option.bind_eq_some_iff] at hu
  obtain ⟨g, hg, hu⟩ := hu
  obtain ⟨u', hu', hroot⟩ := get?_cons_eq_some_iff.mp hu
  obtain rfl : u' = u := Option.some.inj ((get?_nil u').symm.trans hroot)
  have hlocal : (u'.contents ++ (eraseChild i g).contents).Perm ([] ++ g.contents) := by
    rcases g with ⟨n, cs⟩ | ⟨n, a⟩
    · rw [children_branch] at hu'
      obtain ⟨hi, rfl⟩ := List.getElem?_eq_some_iff.mp hu'
      rw [eraseChild, contents_branch, contents_branch, List.nil_append]
      refine List.perm_middle.trans (List.Perm.cons _ ?_)
      rw [← List.flatMap_cons]
      exact (List.getElem_cons_eraseIdx_perm hi).flatMap_right _
    · exact nomatch hu'
  exact contents_modifyAt_perm hg hlocal

theorem contents_putIn (hg : get? t q = some (branch n cs)) :
    (putIn u q t).contents.Perm (u.contents ++ t.contents) := by
  refine @contents_modifyAt_perm _ _ _ _ _ _ [] _ hg ?_
  rw [List.nil_append, pushChild, contents_branch, contents_branch, List.flatMap_append,
    List.flatMap_singleton]
  exact (List.perm_append_comm.cons _).trans List.perm_middle.symm

/-- Another branch keeps the number of its children. -/
theorem length_children_putIn {g : LeafTree ν μ} (hne : p ≠ q) (hg : get? t p = some g) :
    ∃ g', get? (putIn u q t) p = some g' ∧ g'.children.length = g.children.length := by
  induction p generalizing q t with
  | nil =>
    obtain rfl : t = g := Option.some.inj ((get?_nil t).symm.trans hg)
    refine ⟨_, get?_nil _, ?_⟩
    rcases q with _ | ⟨b, q⟩
    · exact absurd rfl hne
    · rcases t with ⟨n, cs⟩ | ⟨n, a⟩
      · rw [putIn, modifyAt, children_branch, children_branch, List.length_modify]
      · rw [putIn, modifyAt]
  | cons a p ih =>
    obtain ⟨c, hc, hrest⟩ := get?_cons_eq_some_iff.mp hg
    rcases t with ⟨n, cs⟩ | ⟨n, b⟩
    · rw [children_branch] at hc
      obtain ⟨ha, -⟩ := List.getElem?_eq_some_iff.mp hc
      rcases q with _ | ⟨b, q⟩
      · refine ⟨g, ?_, rfl⟩
        have hchild : (putIn u [] (branch n cs)).children[a]? = some c := by
          rw [putIn, modifyAt_nil, pushChild, children_branch, List.getElem?_append_left ha, hc]
        rw [get?_cons hchild]
        exact hrest
      · have hchild : (putIn u (b :: q) (branch n cs)).children[a]? =
            some (if b = a then putIn u q c else c) := by
          rw [putIn, modifyAt, children_branch, List.getElem?_modify, hc]
          rfl
        rw [get?_cons hchild]
        split_ifs with hba
        · subst hba
          exact ih (fun heq ↦ hne (congrArg _ heq)) hrest
        · exact ⟨g, hrest, rfl⟩
    · exact absurd hc (Option.some_ne_none _).symm

/-! ## Siblings that differ -/

/-- No two siblings have the same key. -/
def Distinct (key : ν → κ) (t : LeafTree ν μ) : Prop :=
  All (fun _ cs ↦ (cs.map fun c ↦ key c.label).Nodup) (fun _ _ ↦ True) t

variable {key : ν → κ}

theorem distinct_branch : Distinct key (branch n cs) ↔
    (cs.map fun c ↦ key c.label).Nodup ∧ ∀ c ∈ cs, Distinct key c := all_branch

theorem label_modifyAt {f : LeafTree ν μ → LeafTree ν μ} (hf : ∀ u, (f u).label = u.label) :
    (modifyAt f p t).label = t.label := by
  cases p with
  | nil => rw [modifyAt_nil, hf]
  | cons i p =>
    cases t with
    | branch n cs => rw [modifyAt, label_branch, label_branch]
    | leaf n a => rw [modifyAt]

/-- A change that keeps the label of the node is seen by its siblings no more than by the others. -/
theorem Distinct.modifyAt {f : LeafTree ν μ → LeafTree ν μ} (h : Distinct key t)
    (hlabel : ∀ u, (f u).label = u.label)
    (hf : ∀ u, LeafTree.get? t p = some u → Distinct key u → Distinct key (f u)) :
    Distinct key (LeafTree.modifyAt f p t) := by
  induction p generalizing t with
  | nil =>
    rw [modifyAt_nil]
    exact hf t (get?_nil t) h
  | cons i p ih =>
    cases t with
    | leaf n a => exact h
    | branch n cs =>
      obtain ⟨hnodup, hcs⟩ := distinct_branch.mp h
      rw [LeafTree.modifyAt]
      refine distinct_branch.mpr ⟨?_, fun c hc ↦ ?_⟩
      · have hsame : (cs.modify i (LeafTree.modifyAt f p)).map (fun c ↦ key c.label) =
            cs.map fun c ↦ key c.label := by
          refine List.ext_getElem? fun j ↦ ?_
          rw [List.getElem?_map, List.getElem?_modify, List.getElem?_map]
          rcases cs[j]? with _ | c
          · rfl
          · refine congrArg some ?_
            split_ifs
            · exact congrArg key (label_modifyAt hlabel)
            · rfl
        rw [hsame]
        exact hnodup
      · obtain ⟨j, hj⟩ := List.mem_iff_getElem?.mp hc
        rw [List.getElem?_modify] at hj
        obtain ⟨b, hb, rfl⟩ := Option.map_eq_some_iff.mp hj
        have hb' : Distinct key b := hcs b (List.mem_of_getElem? hb)
        split_ifs with hij
        · refine ih hb' fun u hu ↦ hf u ?_
          rw [LeafTree.get?, children_branch, hij, hb]
          exact hu
        · exact hb'

theorem Distinct.takeOut (h : Distinct key t) : Distinct key (LeafTree.takeOut p i t) := by
  refine h.modifyAt (fun u ↦ label_eraseChild) fun u _ hu ↦ ?_
  cases u with
  | leaf n a => exact hu
  | branch n cs =>
    obtain ⟨hnodup, hcs⟩ := distinct_branch.mp hu
    rw [eraseChild]
    refine distinct_branch.mpr ⟨?_, fun c hc ↦ hcs c (List.mem_of_mem_eraseIdx hc)⟩
    exact hnodup.sublist ((List.eraseIdx_sublist cs i).map _)

theorem Distinct.putIn (h : Distinct key t) (hu : Distinct key u)
    (hnew : ∀ g, LeafTree.get? t q = some g → key u.label ∉ g.children.map fun c ↦ key c.label) :
    Distinct key (LeafTree.putIn u q t) := by
  refine h.modifyAt (fun u ↦ label_pushChild) fun g hg hdistinct ↦ ?_
  cases g with
  | leaf n a => exact hdistinct
  | branch n cs =>
    obtain ⟨hnodup, hcs⟩ := distinct_branch.mp hdistinct
    rw [pushChild]
    refine distinct_branch.mpr ⟨?_, List.forall_mem_append.mpr ⟨hcs, List.forall_mem_singleton.mpr hu⟩⟩
    rw [List.map_append, List.map_singleton]
    exact List.nodup_append.mpr ⟨hnodup, List.nodup_singleton _, fun k hk l hl hkl ↦
      hnew _ hg (List.mem_singleton.mp hl ▸ hkl ▸ hk)⟩

theorem Distinct.get? (h : Distinct key t) (hu : LeafTree.get? t p = some u) : Distinct key u := All.get? h hu

end LeafTree

end SafeVault
