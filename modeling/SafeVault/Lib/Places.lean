import SafeVault.Lib.LeafTree
import Mathlib.Data.List.Nodup

/-!
# The places of a tree

A traversal meets every node once, with something accumulated from the nodes above it. A *place* is
a node together with its position and the labels above it, from the top down; `places` lists them in
the order of a walk that goes into the children of a node before it comes to the node itself. What
such a walk collects is a function of the list of places, and about the list there are two facts: no
position occurs twice, and the places are the positions at which the tree has a node.
-/

namespace SafeVault

namespace LeafTree

variable {ν μ : Type*}

/-- A node of a tree, where it is, and the labels above it. -/
structure Place (ν μ : Type*) where
  position : List ℕ
  above : List ν
  node : LeafTree ν μ

mutual

/-- The places of a tree that is at a position below some labels, children first. -/
def places (above : List ν) (position : List ℕ) : LeafTree ν μ → List (Place ν μ)
  | branch n cs => placesAll (above ++ [n]) position 0 cs ++ [⟨position, above, branch n cs⟩]
  | leaf n p => [⟨position, above, leaf n p⟩]

/-- The places of the children from the `i`-th on. -/
def placesAll (above : List ν) (position : List ℕ) : ℕ → List (LeafTree ν μ) → List (Place ν μ)
  | _, [] => []
  | i, c :: cs => places above (position ++ [i]) c ++ placesAll above position (i + 1) cs

end

/-- The labels above a position, from the root on. -/
def labelsAbove : LeafTree ν μ → List ℕ → List ν
  | _, [] => []
  | t, i :: p => t.label :: match t.children[i]? with
    | some c => labelsAbove c p
    | none => []

variable {above : List ν} {position p : List ℕ} {t c u : LeafTree ν μ} {cs : List (LeafTree ν μ)}
  {n : ν} {i : ℕ}

@[simp] theorem labelsAbove_nil : labelsAbove t [] = [] := by rw [labelsAbove]

theorem labelsAbove_cons (h : t.children[i]? = some c) :
    labelsAbove t (i :: p) = t.label :: labelsAbove c p := by rw [labelsAbove, h]

theorem get?_append {r : List ℕ} : get? t (p ++ r) = (get? t p).bind (get? · r) := by
  induction p generalizing t with
  | nil => rw [List.nil_append, get?_nil, Option.bind_some]
  | cons i p ih =>
    rw [List.cons_append, get?, get?]
    rcases t.children[i]? with _ | c
    · rfl
    · exact ih

/-- The labels above a node are those of the nodes before it on the way down. -/
theorem mem_labelsAbove (h : get? t p = some u) :
    n ∈ labelsAbove t p ↔ ∃ r w, r <+: p ∧ r ≠ p ∧ get? t r = some w ∧ w.label = n := by
  induction p generalizing t with
  | nil =>
    rw [labelsAbove_nil]
    refine iff_of_false List.not_mem_nil ?_
    rintro ⟨r, w, hr, hne, -⟩
    exact hne (List.prefix_nil.mp hr)
  | cons i p ih =>
    obtain ⟨c, hc, hget⟩ := get?_cons_eq_some_iff.mp h
    rw [labelsAbove_cons hc, List.mem_cons, ih hget]
    constructor
    · rintro (rfl | ⟨r, w, hr, hne, hw, rfl⟩)
      · exact ⟨[], t, List.nil_prefix, nofun, get?_nil t, rfl⟩
      · exact ⟨i :: r, w, List.cons_prefix_cons.mpr ⟨rfl, hr⟩, fun he ↦ hne (List.cons.inj he).2,
          (get?_cons hc).trans hw, rfl⟩
    · rintro ⟨_ | ⟨j, r⟩, w, hr, hne, hw, rfl⟩
      · rw [get?_nil, Option.some_inj] at hw
        exact .inl (hw ▸ rfl)
      · obtain ⟨rfl, hprefix⟩ := List.cons_prefix_cons.mp hr
        exact .inr ⟨r, w, hprefix, fun he ↦ hne (he ▸ rfl), (get?_cons hc).symm.trans hw, rfl⟩

/-- The labels of a tree are those of its nodes. -/
theorem mem_labels : n ∈ t.labels ↔ ∃ r w, get? t r = some w ∧ w.label = n := by
  induction t generalizing n with
  | leaf m p =>
    rw [labels_leaf, List.mem_singleton]
    constructor
    · rintro rfl
      exact ⟨[], _, get?_nil _, rfl⟩
    · rintro ⟨_ | ⟨i, r⟩, w, hw, rfl⟩
      · rw [get?_nil, Option.some_inj] at hw
        rw [← hw, label_leaf]
      · obtain ⟨c, hc, -⟩ := get?_cons_eq_some_iff.mp hw
        cases hc
  | branch m cs ih =>
    rw [labels_branch, List.mem_cons, List.mem_flatMap]
    constructor
    · rintro (rfl | ⟨c, hc, hn⟩)
      · exact ⟨[], _, get?_nil _, rfl⟩
      · obtain ⟨i, hi⟩ := List.mem_iff_getElem?.mp hc
        obtain ⟨r, w, hw, rfl⟩ := (ih c hc).mp hn
        exact ⟨i :: r, w, (get?_cons hi).trans hw, rfl⟩
    · rintro ⟨_ | ⟨i, r⟩, w, hw, rfl⟩
      · rw [get?_nil, Option.some_inj] at hw
        exact .inl (by rw [← hw, label_branch])
      · obtain ⟨c, hc, hw⟩ := get?_cons_eq_some_iff.mp hw
        have hmem : c ∈ cs := List.mem_of_getElem? hc
        exact .inr ⟨c, hmem, (ih c hmem).mpr ⟨r, w, hw, rfl⟩⟩

/-- What is said of the places of one tree. -/
def Placed (above : List ν) (position : List ℕ) (t : LeafTree ν μ) (x : Place ν μ) : Prop :=
  ∃ p, x.position = position ++ p ∧ get? t p = some x.node ∧ x.above = above ++ labelsAbove t p

theorem mem_placesAll (h : ∀ c ∈ cs, ∀ above position x,
    x ∈ places above position c ↔ Placed above position c x) {x : Place ν μ} :
    x ∈ placesAll above position i cs ↔
      ∃ j c, cs[j]? = some c ∧ Placed above (position ++ [i + j]) c x := by
  induction cs generalizing i with
  | nil => simp [placesAll]
  | cons c cs ih =>
    rw [placesAll, List.mem_append, h c List.mem_cons_self,
      ih fun d hd ↦ h d (List.mem_cons_of_mem _ hd)]
    constructor
    · rintro (hx | ⟨j, d, hd, hx⟩)
      · exact ⟨0, c, rfl, hx⟩
      · refine ⟨j + 1, d, hd, ?_⟩
        rwa [Nat.add_comm j 1, ← Nat.add_assoc]
    · rintro ⟨_ | j, d, hd, hx⟩
      · obtain rfl := Option.some.inj hd
        exact .inl hx
      · refine .inr ⟨j, d, hd, ?_⟩
        rwa [Nat.add_comm j 1, ← Nat.add_assoc] at hx

/-- **The places of a tree** are the positions at which it has a node. -/
theorem mem_places {x : Place ν μ} : x ∈ places above position t ↔ Placed above position t x := by
  induction t generalizing above position x with
  | leaf n p =>
    rw [places, List.mem_singleton]
    constructor
    · rintro rfl
      exact ⟨[], (List.append_nil _).symm, get?_nil _, by simp⟩
    · rintro ⟨_ | ⟨i, p⟩, hpos, hget, habove⟩
      · rw [get?_nil, Option.some_inj] at hget
        rw [labelsAbove_nil, List.append_nil] at habove
        rw [List.append_nil] at hpos
        rcases x with ⟨_, _, _⟩
        simp_all
      · obtain ⟨c, hc, -⟩ := get?_cons_eq_some_iff.mp hget
        cases hc
  | branch n cs ih =>
    rw [places, List.mem_append, mem_placesAll fun c hc above position x ↦ ih c hc,
      List.mem_singleton]
    constructor
    · rintro (⟨j, c, hc, p, hpos, hget, habove⟩ | rfl)
      · refine ⟨j :: p, ?_, (get?_cons hc).trans hget, ?_⟩
        · rw [hpos, Nat.zero_add, List.append_assoc, List.singleton_append]
        · rw [habove, labelsAbove_cons hc, List.append_assoc, List.singleton_append, label_branch]
      · exact ⟨[], (List.append_nil _).symm, get?_nil _, by simp⟩
    · rintro ⟨_ | ⟨i, p⟩, hpos, hget, habove⟩
      · rw [get?_nil, Option.some_inj] at hget
        rw [labelsAbove_nil, List.append_nil] at habove
        rw [List.append_nil] at hpos
        rcases x with ⟨_, _, _⟩
        simp_all
      · obtain ⟨c, hc, hget⟩ := get?_cons_eq_some_iff.mp hget
        refine .inl ⟨i, c, hc, p, ?_, hget, ?_⟩
        · rw [hpos, Nat.zero_add, List.append_assoc, List.singleton_append]
        · rw [habove, labelsAbove_cons hc, List.append_assoc, List.singleton_append, label_branch]

theorem nodup_placesAll
    (h : ∀ c ∈ cs, ∀ position, ((places above position c).map (·.position)).Nodup) :
    ((placesAll above position i cs).map (·.position)).Nodup := by
  induction cs generalizing i with
  | nil => simp [placesAll]
  | cons c cs ih =>
    rw [placesAll, List.map_append]
    refine List.nodup_append.mpr ⟨h c List.mem_cons_self _,
      ih fun d hd ↦ h d (List.mem_cons_of_mem _ hd), ?_⟩
    -- the children are told apart by the index that follows the position of their parent
    intro p hp q hq
    obtain ⟨x, hx, rfl⟩ := List.mem_map.mp hp
    obtain ⟨y, hy, rfl⟩ := List.mem_map.mp hq
    obtain ⟨r, hr, -⟩ := mem_places.mp hx
    obtain ⟨j, d, -, s, hs, -⟩ := (mem_placesAll fun _ _ _ _ _ ↦ mem_places).mp hy
    rw [hr, hs, List.append_assoc, List.append_assoc]
    intro heq
    have hindex := (List.cons.inj (List.append_cancel_left heq)).1
    omega

/-- No position occurs twice. -/
theorem nodup_places : ((places above position t).map (·.position)).Nodup := by
  induction t generalizing above position with
  | leaf n p => exact List.nodup_singleton _
  | branch n cs ih =>
    rw [places, List.map_append]
    refine List.nodup_append.mpr ⟨nodup_placesAll fun c hc _ ↦ ih c hc, List.nodup_singleton _, ?_⟩
    intro p hp q hq
    obtain ⟨x, hx, rfl⟩ := List.mem_map.mp hp
    obtain ⟨j, c, -, r, hr, -⟩ := (mem_placesAll fun _ _ _ _ _ ↦ mem_places).mp hx
    rw [List.mem_singleton.mp hq, hr, List.append_assoc]
    intro heq
    simp at heq

/-! ## The way to a node -/

section Keys

variable {κ : Type*} {key : ν → κ} {q : List ℕ}

/-- The keys on the way down to a position, that of the root left out. -/
def keysTo (key : ν → κ) : LeafTree ν μ → List ℕ → List κ
  | _, [] => []
  | t, i :: p => match t.children[i]? with
    | some c => key c.label :: keysTo key c p
    | none => []

@[simp] theorem keysTo_nil : keysTo key t [] = [] := by rw [keysTo]

theorem keysTo_cons (h : t.children[i]? = some c) : keysTo key t (i :: p) = key c.label :: keysTo key c p := by
  rw [keysTo, h]

theorem keysTo_append (h : get? t p = some u) : keysTo key t (p ++ q) = keysTo key t p ++ keysTo key u q := by
  induction p generalizing t with
  | nil =>
    obtain rfl := Option.some.inj ((get?_nil t).symm.trans h)
    rw [List.nil_append, keysTo_nil, List.nil_append]
  | cons i p ih =>
    obtain ⟨c, hc, hget⟩ := get?_cons_eq_some_iff.mp h
    rw [List.cons_append, keysTo_cons hc, keysTo_cons hc, ih hget, List.cons_append]

theorem length_keysTo (h : get? t p = some u) : (keysTo key t p).length = p.length := by
  induction p generalizing t with
  | nil => rw [keysTo_nil, List.length_nil, List.length_nil]
  | cons i p ih =>
    obtain ⟨c, hc, hget⟩ := get?_cons_eq_some_iff.mp h
    rw [keysTo_cons hc, List.length_cons, List.length_cons, ih hget]

theorem get?_take (h : get? t p = some u) (k : ℕ) : ∃ w, get? t (p.take k) = some w := by
  rw [← List.take_append_drop k p, get?_append] at h
  obtain ⟨w, hw, -⟩ := Option.bind_eq_some_iff.mp h
  exact ⟨w, hw⟩

theorem keysTo_take (h : get? t p = some u) (k : ℕ) : keysTo key t (p.take k) = (keysTo key t p).take k := by
  obtain ⟨w, hw⟩ := get?_take h k
  have hsplit : keysTo key t p = keysTo key t (p.take k) ++ keysTo key w (p.drop k) := by
    rw [← keysTo_append hw, List.take_append_drop]
  have hlen : (keysTo key t (p.take k)).length = (p.take k).length := length_keysTo hw
  rw [List.length_take] at hlen
  rcases Nat.le_total k p.length with hk | hk
  · rw [hsplit, List.take_left' (by rw [hlen, min_eq_left hk])]
  · rw [List.take_of_length_le hk, List.take_of_length_le (by rw [length_keysTo h]; exact hk)]

/-- The labels above a node are those of the nodes on the way. -/
theorem labelsAbove_eq_map (h : get? t p = some u) :
    labelsAbove t p = (List.range p.length).map fun k ↦ ((get? t (p.take k)).map label).getD t.label := by
  induction p generalizing t with
  | nil => rw [labelsAbove_nil, List.length_nil, List.range_zero, List.map_nil]
  | cons i p ih =>
    obtain ⟨c, hc, hget⟩ := get?_cons_eq_some_iff.mp h
    rw [labelsAbove_cons hc, List.length_cons, List.range_succ_eq_map, List.map_cons, List.map_map, ih hget]
    refine congrArg₂ List.cons ?_ (List.map_congr_left fun k _ ↦ ?_)
    · rw [List.take_zero, get?_nil]
      rfl
    · obtain ⟨w, hw⟩ := get?_take hget k
      rw [Function.comp_apply, List.take_succ_cons, get?_cons hc, hw]
      rfl

end Keys

end LeafTree

end SafeVault
