import SafeVault.Lib.Loop
import Mathlib.Algebra.BigOperators.Group.Finset.Basic
import Mathlib.Algebra.Order.BigOperators.Group.Finset
import Mathlib.Logic.Function.Basic

/-!
# Union-find with path halving

The elements below `n` have a parent each; a root is its own parent. Looking for the root of an
element redirects the elements on the way to their grandparents. The elements with a common root are
the classes.

## Why the search ends

There is a rank that grows from every element to its parent, and it is bounded. Redirecting an element
to its grandparent keeps this, and linking a root below another one keeps it if the rank of that one
is raised.
-/

namespace SafeVault

namespace UnionFind

variable {parent parent' : ℕ → ℕ} {n i j r turns : ℕ} {close : ℕ → ℕ → Bool}

/-- A turn of the search for a root. -/
def findStep (s : (ℕ → ℕ) × ℕ) : ((ℕ → ℕ) × ℕ) ⊕ ((ℕ → ℕ) × ℕ) :=
  if s.1 s.2 = s.2 then .inr s
  else .inl (Function.update s.1 s.2 (s.1 (s.1 s.2)), s.1 (s.1 s.2))

/-- The root of an element, and the parents after the search. -/
def find (turns : ℕ) (parent : ℕ → ℕ) (i : ℕ) : Option ((ℕ → ℕ) × ℕ) :=
  Loop.run findStep turns (parent, i)

/-- Unite the classes of two elements if they are close. -/
def unite (turns : ℕ) (close : ℕ → ℕ → Bool) (parent : ℕ → ℕ) (ij : ℕ × ℕ) : Option (ℕ → ℕ) :=
  if close ij.1 ij.2 then do
    let (parent, rj) ← find turns parent ij.2
    let (parent, ri) ← find turns parent ij.1
    some (Function.update parent ri rj)
  else some parent

def pairs (n : ℕ) : List (ℕ × ℕ) :=
  (List.range n).flatMap fun i ↦ (List.range' (i + 1) (n - (i + 1))).map fun j ↦ (i, j)

/-- Elements, each with its root. -/
def withRoots (turns : ℕ) : (ℕ → ℕ) → List ℕ → Option (List (ℕ × ℕ))
  | _, [] => some []
  | parent, i :: is => do
    let (parent, r) ← find turns parent i
    let rest ← withRoots turns parent is
    some ((i, r) :: rest)

/-- The elements with a given root. -/
def classOf (roots : List (ℕ × ℕ)) (r : ℕ) : List ℕ :=
  ((roots.filter (·.2 = r)).map Prod.fst).mergeSort

/-- The classes of at least two elements, when all elements that are close are united. -/
def clusters (turns n : ℕ) (close : ℕ → ℕ → Bool) : Option (List (List ℕ)) := do
  let parent ← (pairs n).foldlM (unite turns close) id
  let roots ← withRoots turns parent (List.range n)
  some (((List.range n).map (classOf roots)).filter (2 ≤ ·.length))

/-! ## Forests -/

variable {rank : ℕ → ℕ}

/-- A rank grows from every element below `n` to its parent. -/
structure Ranked (n : ℕ) (rank parent : ℕ → ℕ) : Prop where
  lt : ∀ i < n, parent i < n
  rank_lt : ∀ i < n, parent i ≠ i → rank i < rank (parent i)

/-- The parents form a forest on the elements below `n`. -/
def Forest (n : ℕ) (parent : ℕ → ℕ) : Prop := ∃ rank, Ranked n rank parent

theorem forest_id (n : ℕ) : Forest n id := ⟨id, fun _ h ↦ h, fun _ _ h ↦ absurd rfl h⟩

/-- Redirect an element to its grandparent. -/
theorem Ranked.halve (h : Ranked n rank parent) (hi : i < n) :
    Ranked n rank (Function.update parent i (parent (parent i))) := by
  refine ⟨fun j hj ↦ ?_, fun j hj hne ↦ ?_⟩
  · by_cases hij : j = i
    · rw [hij, Function.update_self]
      exact h.lt _ (h.lt i hi)
    · rw [Function.update_of_ne hij]
      exact h.lt j hj
  · by_cases hij : j = i
    · rw [hij, Function.update_self] at hne ⊢
      have hparent : parent i ≠ i := fun heq ↦ hne (by rw [heq, heq])
      by_cases hroot : parent (parent i) = parent i
      · rw [hroot]
        exact h.rank_lt i hi hparent
      · exact (h.rank_lt i hi hparent).trans (h.rank_lt _ (h.lt i hi) hroot)
    · rw [Function.update_of_ne hij] at hne ⊢
      exact h.rank_lt j hj hne

/-- Link a root below another one. -/
theorem Forest.link (h : Forest n parent) (hj : j < n) (hroot : parent j = j) :
    Forest n (Function.update parent i j) := by
  obtain ⟨rank, h⟩ := h
  refine ⟨Function.update rank j (max (rank j) (rank i + 1)), fun k hk ↦ ?_, fun k hk hne ↦ ?_⟩
  · by_cases hki : k = i
    · rw [hki, Function.update_self]
      exact hj
    · rw [Function.update_of_ne hki]
      exact h.lt k hk
  · by_cases hki : k = i
    · rw [hki, Function.update_self] at hne ⊢
      rw [Function.update_self, Function.update_of_ne (Ne.symm hne)]
      exact lt_max_of_lt_right (Nat.lt_succ_self _)
    · rw [Function.update_of_ne hki] at hne ⊢
      have hkj : k ≠ j := fun heq ↦ hne (by rw [heq, hroot])
      have hlt := h.rank_lt k hk hne
      rw [Function.update_of_ne hkj]
      by_cases hparent : parent k = j
      · rw [hparent, Function.update_self]
        exact lt_max_of_lt_left (hparent ▸ hlt)
      · rwa [Function.update_of_ne hparent]

/-! ## Searching -/

/-- A search is at an element of a forest, and has left the roots as they were. -/
def Searching (n : ℕ) (rank parent : ℕ → ℕ) (s : (ℕ → ℕ) × ℕ) : Prop :=
  Ranked n rank s.1 ∧ s.2 < n ∧ ∀ r, parent r = r → s.1 r = r

theorem searching_step {s t : (ℕ → ℕ) × ℕ} (hs : Searching n rank parent s)
    (hstep : findStep s = .inl t) : Searching n rank parent t ∧ rank s.2 < rank t.2 := by
  obtain ⟨hranked, hlt, hroots⟩ := hs
  rw [findStep] at hstep
  split_ifs at hstep with hroot
  obtain rfl := Sum.inl.inj hstep
  have hparent := hranked.lt _ hlt
  have hrank := hranked.rank_lt _ hlt hroot
  refine ⟨⟨hranked.halve hlt, hranked.lt _ hparent, fun r hr ↦ ?_⟩, ?_⟩
  · have hne : r ≠ s.2 := fun heq ↦ hroot (heq ▸ hroots r hr)
    exact (Function.update_of_ne hne _ _).trans (hroots r hr)
  · by_cases hgrand : s.1 (s.1 s.2) = s.1 s.2
    · rwa [hgrand]
    · exact hrank.trans (hranked.rank_lt _ hparent hgrand)

/-- **The root of an element** of a forest: what a search gives is a root, and the other roots stay. -/
theorem Forest.of_find (h : Forest n parent) (hi : i < n)
    (hfind : find turns parent i = some (parent', r)) :
    Forest n parent' ∧ r < n ∧ parent' r = r ∧ ∀ k, parent k = k → parent' k = k := by
  obtain ⟨rank, h⟩ := h
  have hfound : Searching n rank parent (parent', r) ∧ parent' r = r := by
    refine Loop.of_run (I := Searching n rank parent)
      (Q := fun s : (ℕ → ℕ) × ℕ ↦ Searching n rank parent s ∧ s.1 s.2 = s.2)
      (fun s t hs hstep ↦ (searching_step hs hstep).1) (fun s b hs hstep ↦ ?_)
      ⟨h, hi, fun _ hr ↦ hr⟩ hfind
    rw [findStep] at hstep
    split_ifs at hstep with hroot
    obtain rfl := Sum.inr.inj hstep
    exact ⟨hs, hroot⟩
  obtain ⟨⟨hranked, hlt, hroots⟩, hroot⟩ := hfound
  exact ⟨⟨rank, hranked⟩, hlt, hroot, hroots⟩

/-- **Every search ends.** -/
theorem Forest.find_ends (h : Forest n parent) (hi : i < n) : Loop.Ends findStep (parent, i) := by
  obtain ⟨rank, h⟩ := h
  have hbound (k : ℕ) (hk : k < n) : rank k ≤ ∑ l ∈ Finset.range n, rank l :=
    Finset.single_le_sum (f := rank) (fun _ _ ↦ Nat.zero_le _) (Finset.mem_range.mpr hk)
  refine Loop.ends_of_measure (I := Searching n rank parent)
    (fun s ↦ (∑ l ∈ Finset.range n, rank l) - rank s.2) (fun s t hs hstep ↦ ?_)
    ⟨h, hi, fun _ hr ↦ hr⟩
  obtain ⟨ht, hlt⟩ := searching_step hs hstep
  have hle := hbound t.2 ht.2.1
  exact ⟨ht, by omega⟩

/-! ## Enough turns -/

theorem find_mono {m : ℕ} {s : (ℕ → ℕ) × ℕ} (h : find turns parent i = some s) (hle : turns ≤ m) :
    find m parent i = some s := Loop.run_mono h hle

/-- **Uniting two elements** ends, and keeps the forest. -/
theorem Forest.unite (close : ℕ → ℕ → Bool) (h : Forest n parent) (hi : i < n) (hj : j < n) :
    ∃ parent' turns, Forest n parent' ∧ ∀ m ≥ turns,
      UnionFind.unite m close parent (i, j) = some parent' := by
  by_cases hclose : close i j
  · obtain ⟨k, ⟨p, rj⟩, hfindj⟩ := h.find_ends hj
    obtain ⟨hp, hrj, hroot, -⟩ := h.of_find hj hfindj
    obtain ⟨l, ⟨q, ri⟩, hfindi⟩ := hp.find_ends hi
    obtain ⟨hq, -, -, hroots⟩ := hp.of_find hi hfindi
    refine ⟨Function.update q ri rj, max k l, hq.link hrj (hroots rj hroot), fun m hm ↦ ?_⟩
    rw [UnionFind.unite, if_pos hclose]
    refine Option.bind_eq_some_iff.mpr ⟨(p, rj), find_mono hfindj (le_of_max_le_left hm), ?_⟩
    exact Option.bind_eq_some_iff.mpr ⟨(q, ri), find_mono hfindi (le_of_max_le_right hm), rfl⟩
  · refine ⟨parent, 0, h, fun m _ ↦ ?_⟩
    rw [UnionFind.unite, if_neg hclose]

theorem lt_of_mem_pairs {ij : ℕ × ℕ} (h : ij ∈ pairs n) : ij.1 < n ∧ ij.2 < n := by
  obtain ⟨i, hi, hmem⟩ := List.mem_flatMap.mp h
  obtain ⟨j, hj, rfl⟩ := List.mem_map.mp hmem
  have hlt := List.mem_range.mp hi
  have hj' := List.mem_range'_1.mp hj
  exact ⟨hlt, by omega⟩

theorem Forest.foldlM_unite (close : ℕ → ℕ → Bool) (h : Forest n parent) (ps : List (ℕ × ℕ))
    (hps : ∀ ij ∈ ps, ij.1 < n ∧ ij.2 < n) :
    ∃ parent' turns, Forest n parent' ∧ ∀ m ≥ turns,
      ps.foldlM (UnionFind.unite m close) parent = some parent' := by
  induction ps generalizing parent with
  | nil => exact ⟨parent, 0, h, fun _ _ ↦ rfl⟩
  | cons ij ps ih =>
    obtain ⟨⟨hi, hj⟩, hrest⟩ := List.forall_mem_cons.mp hps
    obtain ⟨p, k, hp, hunite⟩ := h.unite close hi hj
    obtain ⟨q, l, hq, hfold⟩ := ih hp hrest
    refine ⟨q, max k l, hq, fun m hm ↦ ?_⟩
    rw [List.foldlM_cons]
    exact Option.bind_eq_some_iff.mpr
      ⟨p, hunite m (le_of_max_le_left hm), hfold m (le_of_max_le_right hm)⟩

theorem Forest.withRoots (h : Forest n parent) (is : List ℕ) (his : ∀ i ∈ is, i < n) :
    ∃ roots turns, ∀ m ≥ turns, UnionFind.withRoots m parent is = some roots := by
  induction is generalizing parent with
  | nil => exact ⟨[], 0, fun _ _ ↦ rfl⟩
  | cons i is ih =>
    obtain ⟨hi, hrest⟩ := List.forall_mem_cons.mp his
    obtain ⟨k, ⟨p, r⟩, hfind⟩ := h.find_ends hi
    obtain ⟨roots, l, hroots⟩ := ih (h.of_find hi hfind).1 hrest
    refine ⟨(i, r) :: roots, max k l, fun m hm ↦ ?_⟩
    rw [UnionFind.withRoots]
    refine Option.bind_eq_some_iff.mpr ⟨(p, r), find_mono hfind (le_of_max_le_left hm), ?_⟩
    exact Option.bind_eq_some_iff.mpr ⟨roots, hroots m (le_of_max_le_right hm), rfl⟩

/-- **Enough turns give the classes.** -/
theorem clusters_ends (n : ℕ) (close : ℕ → ℕ → Bool) :
    ∃ cs turns, ∀ m ≥ turns, clusters m n close = some cs := by
  obtain ⟨p, k, hp, hfold⟩ := (forest_id n).foldlM_unite close (pairs n)
    fun _ h ↦ lt_of_mem_pairs h
  obtain ⟨roots, l, hroots⟩ := hp.withRoots (List.range n) fun _ h ↦ List.mem_range.mp h
  refine ⟨((List.range n).map (classOf roots)).filter (2 ≤ ·.length), max k l, fun m hm ↦ ?_⟩
  rw [clusters]
  refine Option.bind_eq_some_iff.mpr ⟨p, hfold m (le_of_max_le_left hm), ?_⟩
  exact Option.bind_eq_some_iff.mpr ⟨roots, hroots m (le_of_max_le_right hm), rfl⟩

/-! ## The classes are apart -/

theorem map_fst_withRoots {is : List ℕ} {roots : List (ℕ × ℕ)}
    (h : withRoots turns parent is = some roots) : roots.map Prod.fst = is := by
  induction is generalizing parent roots with
  | nil =>
    obtain rfl := Option.some.inj h
    rfl
  | cons i is ih =>
    obtain ⟨⟨p, r⟩, -, h⟩ := Option.bind_eq_some_iff.mp h
    obtain ⟨rest, hrest, h⟩ := Option.bind_eq_some_iff.mp h
    obtain rfl := Option.some.inj h
    rw [List.map_cons, ih hrest]

/-- **No element is in two classes**, and a class has at least two elements. -/
theorem nodup_clusters {cs : List (List ℕ)} (h : clusters turns n close = some cs) :
    cs.flatten.Nodup ∧ ∀ c ∈ cs, 2 ≤ c.length ∧ ∀ i ∈ c, i < n := by
  obtain ⟨p, -, h⟩ := Option.bind_eq_some_iff.mp h
  obtain ⟨roots, hroots, h⟩ := Option.bind_eq_some_iff.mp h
  obtain rfl := Option.some.inj h
  have hfst := map_fst_withRoots hroots
  have hnodup : (roots.map Prod.fst).Nodup := hfst ▸ List.nodup_range
  have hmem {r i : ℕ} (hi : i ∈ classOf roots r) : (i, r) ∈ roots := by
    rw [classOf, List.mem_mergeSort] at hi
    obtain ⟨⟨i', r'⟩, hfilter, rfl⟩ := List.mem_map.mp hi
    obtain ⟨hroot, hr⟩ := List.mem_filter.mp hfilter
    obtain rfl : r' = r := of_decide_eq_true hr
    exact hroot
  constructor
  · refine List.Nodup.sublist (List.filter_sublist.flatten) (List.nodup_flatten.mpr ⟨?_, ?_⟩)
    · intro c hc
      obtain ⟨r, -, rfl⟩ := List.mem_map.mp hc
      exact ((List.mergeSort_perm _ _).nodup_iff).mpr (hnodup.sublist (List.filter_sublist.map _))
    · rw [List.pairwise_map]
      refine List.nodup_range.imp fun {r r'} hne i hi hi' ↦ hne ?_
      exact List.inj_on_of_nodup_map hnodup (hmem hi) (hmem hi') rfl |> congrArg Prod.snd
  · intro c hc
    obtain ⟨hc, hlen⟩ := List.mem_filter.mp hc
    obtain ⟨r, -, rfl⟩ := List.mem_map.mp hc
    refine ⟨of_decide_eq_true hlen, fun i hi ↦ ?_⟩
    exact List.mem_range.mp (hfst ▸ List.mem_map_of_mem (hmem hi))

end UnionFind

end SafeVault
