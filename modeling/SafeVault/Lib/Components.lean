import SafeVault.Lib.UnionFind
import Mathlib.Combinatorics.SimpleGraph.Connectivity.Connected
import Mathlib.Logic.Relation

/-!
# The classes of a union-find are the connected components

Elements are linked if one can go from the one to the other along parents, in either direction. Halving a
path leaves the links as they are, and hanging a root below another element adds one. So the links are
at all times those that the edges seen so far give, and in the end two elements have one root if and only
if the graph connects them.

Nothing of this depends on the order of the elements: a renaming that keeps the edges carries the classes
of the one graph to those of the other.
-/

namespace SafeVault

namespace UnionFind

open Relation (EqvGen)

variable {parent parent' : ℕ → ℕ} {n i j r ri rj turns : ℕ} {close : ℕ → ℕ → Bool} {edge : ℕ → ℕ → Prop}

/-! ## Links -/

/-- Parents lead from the one to the other, up or down. -/
def Linked (parent : ℕ → ℕ) : ℕ → ℕ → Prop := EqvGen fun i j ↦ parent i = j

instance : IsEquiv ℕ (Linked parent) := inferInstanceAs (IsEquiv ℕ (EqvGen _))

theorem linked_parent (parent : ℕ → ℕ) (i : ℕ) : Linked parent i (parent i) := .rel _ _ rfl

theorem Linked.refl (i : ℕ) : Linked parent i i := EqvGen.refl i

theorem Linked.symm (h : Linked parent i j) : Linked parent j i := EqvGen.symm _ _ h

theorem Linked.trans (hij : Linked parent i j) (hjr : Linked parent j r) : Linked parent i r :=
  EqvGen.trans _ _ _ hij hjr

/-- One set of links is in another one if every parent is linked there. -/
theorem linked_le (h : ∀ k, EqvGen edge k (parent k)) : Linked parent ≤ EqvGen edge := by
  intro k l hkl
  refine EqvGen.eqvGen_le (fun a b hab ↦ ?_) k l hkl
  rw [← hab]
  exact h a

/-- Redirecting an element to its grandparent keeps the links. -/
theorem linked_halve (hi : parent i ≠ i) :
    Linked (Function.update parent i (parent (parent i))) = Linked parent := by
  have hup (k : ℕ) : Linked (Function.update parent i (parent (parent i))) k
      (Function.update parent i (parent (parent i)) k) := linked_parent _ k
  refine le_antisymm (linked_le fun k ↦ ?_) (linked_le fun k ↦ ?_)
  · by_cases hk : k = i
    · rw [hk, Function.update_self]
      exact (linked_parent parent i).trans (linked_parent parent (parent i))
    · rw [Function.update_of_ne hk]
      exact linked_parent parent k
  · by_cases hk : k = i
    · -- Both the element and its parent are linked to the grandparent.
      have hself := hup i
      have hparent := hup (parent i)
      rw [Function.update_self] at hself
      rw [Function.update_of_ne hi] at hparent
      rw [hk]
      exact hself.trans hparent.symm
    · have hother := hup k
      rwa [Function.update_of_ne hk] at hother

/-- Hanging a root below an element links what is linked to the one and to the other. -/
theorem linked_link (hroot : parent ri = ri) (hedge : Linked parent = EqvGen edge)
    (hi : Linked parent i ri) (hj : Linked parent j rj) :
    Linked (Function.update parent ri rj) = EqvGen fun a b ↦ edge a b ∨ a = i ∧ b = j := by
  have hold : EqvGen edge ≤ EqvGen fun a b ↦ edge a b ∨ a = i ∧ b = j := EqvGen.mono fun a b h ↦ .inl h
  have hkept : Linked parent ≤ Linked (Function.update parent ri rj) := by
    refine linked_le fun k ↦ ?_
    by_cases hk : k = ri
    · rw [hk, hroot]
      exact Linked.refl ri
    · have hother := linked_parent (Function.update parent ri rj) k
      rwa [Function.update_of_ne hk] at hother
  refine le_antisymm (linked_le fun k ↦ ?_) (EqvGen.eqvGen_le fun a b hab ↦ ?_)
  · by_cases hk : k = ri
    · rw [hk, Function.update_self]
      rw [hedge] at hi hj
      have hnew : EqvGen (fun a b ↦ edge a b ∨ a = i ∧ b = j) i j := .rel _ _ (.inr ⟨rfl, rfl⟩)
      exact ((hold _ _ hi).symm _ _).trans _ _ _ (hnew.trans _ _ _ (hold _ _ hj))
    · rw [Function.update_of_ne hk]
      exact hold _ _ (hedge ▸ linked_parent parent k)
  · rcases hab with hab | ⟨rfl, rfl⟩
    · exact hkept _ _ (hedge ▸ EqvGen.rel _ _ hab)
    · have hup := linked_parent (Function.update parent ri rj) ri
      rw [Function.update_self] at hup
      exact (hkept _ _ hi).trans (hup.trans (hkept _ _ hj).symm)

/-- From linked elements one comes to one and the same element. -/
theorem Linked.iterate (h : Linked parent i j) : ∃ k l, parent^[k] i = parent^[l] j := by
  induction h with
  | rel a b hab => exact ⟨1, 0, hab⟩
  | refl a => exact ⟨0, 0, rfl⟩
  | symm a b _ ih =>
    obtain ⟨k, l, h⟩ := ih
    exact ⟨l, k, h.symm⟩
  | trans a b c _ _ ihab ihbc =>
    obtain ⟨k, l, hab⟩ := ihab
    obtain ⟨m, o, hbc⟩ := ihbc
    refine ⟨m + k, l + o, ?_⟩
    calc parent^[m + k] a = parent^[m] (parent^[k] a) := Function.iterate_add_apply ..
      _ = parent^[m] (parent^[l] b) := by rw [hab]
      _ = parent^[l] (parent^[m] b) := by rw [← Function.iterate_add_apply, ← Function.iterate_add_apply, add_comm]
      _ = parent^[l + o] c := by rw [hbc, ← Function.iterate_add_apply]

/-- Linked roots are equal. -/
theorem Linked.eq_of_roots (h : Linked parent ri rj) (hi : parent ri = ri) (hj : parent rj = rj) : ri = rj := by
  obtain ⟨k, l, h⟩ := h.iterate
  rwa [Function.iterate_fixed hi, Function.iterate_fixed hj] at h

/-! ## Searching and uniting -/

/-- A search keeps the links and gives a root that is linked to where it started. -/
theorem linked_find (h : find turns parent i = some (parent', r)) :
    Linked parent' = Linked parent ∧ Linked parent i r := by
  refine Loop.of_run (I := fun s : (ℕ → ℕ) × ℕ ↦ Linked s.1 = Linked parent ∧ Linked parent i s.2)
    (Q := fun s : (ℕ → ℕ) × ℕ ↦ Linked s.1 = Linked parent ∧ Linked parent i s.2)
    (fun s t hs hstep ↦ ?_) (fun s b hs hstep ↦ ?_) ⟨rfl, Linked.refl i⟩ h
  · rw [findStep] at hstep
    split_ifs at hstep with hroot
    obtain rfl := Sum.inl.inj hstep
    obtain ⟨hsame, hlinked⟩ := hs
    have hgrand : Linked s.1 s.2 (s.1 (s.1 s.2)) :=
      (linked_parent s.1 s.2).trans (linked_parent s.1 (s.1 s.2))
    rw [hsame] at hgrand
    exact ⟨(linked_halve hroot).trans hsame, hlinked.trans hgrand⟩
  · rw [findStep] at hstep
    split_ifs at hstep with hroot
    obtain rfl := Sum.inr.inj hstep
    exact hs

/-- A forest whose links are those of some edges. -/
structure Spans (n : ℕ) (parent : ℕ → ℕ) (edge : ℕ → ℕ → Prop) : Prop where
  forest : Forest n parent
  linked : Linked parent = EqvGen edge

theorem Spans.unite (h : Spans n parent edge) (hi : i < n) (hj : j < n)
    (hunite : UnionFind.unite turns close parent (i, j) = some parent') :
    Spans n parent' fun a b ↦ edge a b ∨ (a, b) = (i, j) ∧ close a b = true := by
  rw [UnionFind.unite] at hunite
  split_ifs at hunite with hclose
  · obtain ⟨⟨p, rj⟩, hfindj, hunite⟩ := Option.bind_eq_some_iff.mp hunite
    obtain ⟨⟨q, ri⟩, hfindi, hunite⟩ := Option.bind_eq_some_iff.mp hunite
    obtain rfl := Option.some.inj hunite
    obtain ⟨hp, hrj, hrootj, -⟩ := h.forest.of_find hj hfindj
    obtain ⟨hq, -, hrooti, hroots⟩ := hp.of_find hi hfindi
    obtain ⟨hlinkp, hlinkj⟩ := linked_find hfindj
    obtain ⟨hlinkq, hlinki⟩ := linked_find hfindi
    refine ⟨hq.link hrj (hroots rj hrootj), ?_⟩
    rw [linked_link hrooti ((hlinkq.trans hlinkp).trans h.linked) (hlinkq ▸ hlinki)
      ((hlinkq.trans hlinkp) ▸ hlinkj)]
    refine congrArg EqvGen (funext₂ fun a b ↦ propext (or_congr_right ?_))
    rw [Prod.mk.injEq]
    refine ⟨fun hab ↦ ⟨hab, ?_⟩, And.left⟩
    rw [hab.1, hab.2]
    exact hclose
  · obtain rfl := Option.some.inj hunite
    refine ⟨h.forest, h.linked.trans (congrArg EqvGen (funext₂ fun a b ↦ propext (or_iff_left ?_).symm))⟩
    rintro ⟨hab, hc⟩
    obtain ⟨rfl, rfl⟩ := Prod.mk.inj hab
    exact hclose hc

/-- The loop over pairs: all that are close are edges. -/
theorem Spans.foldlM_unite {ps : List (ℕ × ℕ)} (h : Spans n parent edge) (hps : ∀ ij ∈ ps, ij.1 < n ∧ ij.2 < n)
    (hfold : ps.foldlM (UnionFind.unite turns close) parent = some parent') :
    Spans n parent' fun a b ↦ edge a b ∨ (a, b) ∈ ps ∧ close a b = true := by
  induction ps generalizing parent edge with
  | nil =>
    obtain rfl := Option.some.inj hfold
    refine ⟨h.forest, h.linked.trans (congrArg EqvGen (funext₂ fun a b ↦ propext (or_iff_left ?_).symm))⟩
    exact fun hab ↦ absurd hab.1 List.not_mem_nil
  | cons ij ps ih =>
    obtain ⟨⟨hi, hj⟩, hrest⟩ := List.forall_mem_cons.mp hps
    rw [List.foldlM_cons] at hfold
    obtain ⟨p, hunite, hfold⟩ := Option.bind_eq_some_iff.mp hfold
    obtain ⟨hforest, hlinked⟩ := ih (h.unite hi hj hunite) hrest hfold
    refine ⟨hforest, hlinked.trans (congrArg EqvGen (funext₂ fun a b ↦ propext ?_))⟩
    rw [List.mem_cons, or_assoc, or_and_right]

theorem spans_id (n : ℕ) : Spans n id fun _ _ ↦ False := by
  exact ⟨forest_id n, le_antisymm (linked_le fun k ↦ EqvGen.refl k) (EqvGen.mono fun a b h ↦ h.elim)⟩

/-- The roots that are found are roots of one and the same forest. -/
theorem Forest.roots_withRoots {is : List ℕ} {roots : List (ℕ × ℕ)} (h : Forest n parent) (his : ∀ i ∈ is, i < n)
    (hroots : UnionFind.withRoots turns parent is = some roots) :
    ∃ parent', Linked parent' = Linked parent ∧ (∀ k, parent k = k → parent' k = k) ∧
      ∀ e ∈ roots, e.2 < n ∧ parent' e.2 = e.2 ∧ Linked parent e.1 e.2 := by
  induction is generalizing parent roots with
  | nil =>
    obtain rfl := Option.some.inj hroots
    exact ⟨parent, rfl, fun _ hk ↦ hk, fun e he ↦ absurd he List.not_mem_nil⟩
  | cons i is ih =>
    obtain ⟨hi, hrest⟩ := List.forall_mem_cons.mp his
    obtain ⟨⟨p, r⟩, hfind, hroots⟩ := Option.bind_eq_some_iff.mp hroots
    obtain ⟨rest, hwith, hroots⟩ := Option.bind_eq_some_iff.mp hroots
    obtain rfl := Option.some.inj hroots
    obtain ⟨hp, hr, hroot, hkept⟩ := h.of_find hi hfind
    obtain ⟨hlinkp, hlinki⟩ := linked_find hfind
    obtain ⟨q, hlinkq, hkeptq, hall⟩ := ih hp hrest hwith
    refine ⟨q, hlinkq.trans hlinkp, fun k hk ↦ hkeptq k (hkept k hk), List.forall_mem_cons.mpr ⟨?_, fun e he ↦ ?_⟩⟩
    · exact ⟨hr, hkeptq r hroot, hlinki⟩
    · obtain ⟨hlt, hroote, hlinke⟩ := hall e he
      exact ⟨hlt, hroote, hlinkp ▸ hlinke⟩

/-- Pairs of elements that are close, the smaller one first. -/
def closePairs (n : ℕ) (close : ℕ → ℕ → Bool) (i j : ℕ) : Prop := (i, j) ∈ pairs n ∧ close i j = true

/-- **The roots**: two elements have the same one if and only if close pairs lead from one to the other. -/
theorem clusters_roots {cs : List (List ℕ)} (h : clusters turns n close = some cs) :
    ∃ roots : List (ℕ × ℕ), cs = ((List.range n).map (classOf roots)).filter (2 ≤ ·.length) ∧
      roots.map Prod.fst = List.range n ∧ (∀ e ∈ roots, e.2 < n) ∧
      ∀ e ∈ roots, ∀ e' ∈ roots, e.2 = e'.2 ↔ EqvGen (closePairs n close) e.1 e'.1 := by
  obtain ⟨p, hfold, h⟩ := Option.bind_eq_some_iff.mp h
  obtain ⟨roots, hroots, h⟩ := Option.bind_eq_some_iff.mp h
  obtain ⟨hforest, hlinked⟩ := (spans_id n).foldlM_unite (fun _ h ↦ lt_of_mem_pairs h) hfold
  obtain ⟨q, hlinkq, -, hall⟩ := hforest.roots_withRoots (fun _ h ↦ List.mem_range.mp h) hroots
  have hedges : Linked p = EqvGen (closePairs n close) :=
    hlinked.trans (congrArg EqvGen (funext₂ fun a b ↦ propext (or_iff_right not_false)))
  refine ⟨roots, (Option.some.inj h).symm, map_fst_withRoots hroots, fun e he ↦ (hall e he).1, fun e he e' he' ↦ ?_⟩
  obtain ⟨-, hroot, hlink⟩ := hall e he
  obtain ⟨-, hroot', hlink'⟩ := hall e' he'
  rw [← hedges]
  constructor
  · intro heq
    exact hlink.trans (heq ▸ hlink'.symm)
  · intro hee
    have hboth : Linked p e.2 e'.2 := hlink.symm.trans (Linked.trans hee hlink')
    rw [← hlinkq] at hboth
    exact hboth.eq_of_roots hroot hroot'

/-! ## Components -/

/-- The graph of the elements that are close. -/
def closeGraph (n : ℕ) (close : ℕ → ℕ → Bool) : SimpleGraph (Fin n) := .fromRel fun i j ↦ close i j = true

/-- The vertices in a list of numbers. -/
def vertices (n : ℕ) (c : List ℕ) : Set (Fin n) := {i | (i : ℕ) ∈ c}

/-- Lists of numbers, each sorted and none with a number of another one, that are the components of more
than one vertex. -/
structure AreComponents (G : SimpleGraph (Fin n)) (cs : List (List ℕ)) : Prop where
  sorted : ∀ c ∈ cs, c.Pairwise (· < ·)
  lt : ∀ c ∈ cs, ∀ i ∈ c, i < n
  apart : cs.flatten.Nodup
  exact : ∀ s : Set (Fin n),
    (∃ c ∈ cs, vertices n c = s) ↔ ∃ C : G.ConnectedComponent, C.supp = s ∧ s.Nontrivial

/-- From some number of turns on, a search for classes gives the components of a graph. -/
def Finds (run : ℕ → Option (List (List ℕ))) (G : SimpleGraph (Fin n)) (cs : List (List ℕ)) : Prop :=
  (∃ turns, ∀ m ≥ turns, run m = some cs) ∧ AreComponents G cs

/-- The classes of the one are those of the other, by other numbers. -/
def CarriedBy {m : ℕ} (σ : Fin n ≃ Fin m) (cs ds : List (List ℕ)) : Prop :=
  ∀ s : Set (Fin n), (∃ c ∈ cs, vertices n c = s) ↔ ∃ d ∈ ds, vertices m d = σ '' s

theorem mem_pairs : (i, j) ∈ pairs n ↔ i < j ∧ j < n := by
  rw [pairs, List.mem_flatMap]
  constructor
  · rintro ⟨k, hk, hmem⟩
    obtain ⟨l, hl, heq⟩ := List.mem_map.mp hmem
    obtain ⟨rfl, rfl⟩ := Prod.mk.inj heq
    have hlt := List.mem_range.mp hk
    have hl' := List.mem_range'_1.mp hl
    omega
  · rintro ⟨hij, hj⟩
    refine ⟨i, List.mem_range.mpr (hij.trans hj), List.mem_map.mpr ⟨j, List.mem_range'_1.mpr ?_, rfl⟩⟩
    omega

/-- Close pairs lead from one element to another if and only if the graph connects them. -/
theorem eqvGen_closePairs_iff (hsymm : ∀ i j, close i j = close j i) (i j : Fin n) :
    EqvGen (closePairs n close) i j ↔ (closeGraph n close).Reachable i j := by
  constructor
  · intro h
    have key (a b : ℕ) (hab : EqvGen (closePairs n close) a b) :
        a = b ∨ ∃ (ha : a < n) (hb : b < n), (closeGraph n close).Reachable ⟨a, ha⟩ ⟨b, hb⟩ := by
      induction hab with
      | rel a b hab =>
        obtain ⟨hlt, hb⟩ := mem_pairs.mp hab.1
        refine .inr ⟨hlt.trans hb, hb, SimpleGraph.Adj.reachable ?_⟩
        rw [closeGraph, SimpleGraph.fromRel_adj]
        exact ⟨fun heq ↦ hlt.ne (Fin.mk.inj heq), .inl hab.2⟩
      | refl a => exact .inl rfl
      | symm a b _ ih =>
        rcases ih with rfl | ⟨ha, hb, hreach⟩
        · exact .inl rfl
        · exact .inr ⟨hb, ha, hreach.symm⟩
      | trans a b c _ _ ihab ihbc =>
        rcases ihab with rfl | ⟨ha, hb, hab⟩
        · exact ihbc
        · rcases ihbc with rfl | ⟨_, hc, hbc⟩
          · exact .inr ⟨ha, hb, hab⟩
          · exact .inr ⟨ha, hc, hab.trans hbc⟩
    rcases key i j h with heq | ⟨_, _, hreach⟩
    · rw [Fin.ext heq]
    · exact hreach
  · intro h
    rw [SimpleGraph.reachable_iff_reflTransGen] at h
    induction h with
    | refl => exact .refl _
    | @tail b c _ hadj ih =>
      rw [closeGraph, SimpleGraph.fromRel_adj] at hadj
      obtain ⟨hne, hclose⟩ := hadj
      have hbc : close b c = true := hclose.elim id fun h ↦ (hsymm b c).trans h
      refine ih.trans _ _ _ ?_
      -- The loop has looked at the pair with the smaller element first.
      rcases Nat.lt_or_gt_of_ne (Fin.val_ne_of_ne hne) with hlt | hlt
      · exact .rel _ _ ⟨mem_pairs.mpr ⟨hlt, c.isLt⟩, hbc⟩
      · exact .symm _ _ (.rel _ _ ⟨mem_pairs.mpr ⟨hlt, b.isLt⟩, (hsymm c b).trans hbc⟩)

theorem mem_classOf {roots : List (ℕ × ℕ)} : i ∈ classOf roots r ↔ (i, r) ∈ roots := by
  rw [classOf, List.mem_mergeSort, List.mem_map]
  constructor
  · rintro ⟨⟨i', r'⟩, hmem, rfl⟩
    obtain ⟨hroot, hr⟩ := List.mem_filter.mp hmem
    obtain rfl : r' = r := of_decide_eq_true hr
    exact hroot
  · intro h
    exact ⟨(i, r), List.mem_filter.mpr ⟨h, decide_eq_true rfl⟩, rfl⟩

theorem pairwise_classOf {roots : List (ℕ × ℕ)} (h : (roots.map Prod.fst).Nodup) (r : ℕ) :
    (classOf roots r).Pairwise (· < ·) := by
  have hnodup : (classOf roots r).Nodup :=
    (List.mergeSort_perm _ _).nodup_iff.mpr (h.sublist (List.filter_sublist.map _))
  have hle : (classOf roots r).Pairwise (· ≤ ·) := List.pairwise_mergeSort' (· ≤ ·) _
  exact (hle.and hnodup).imp fun h ↦ lt_of_le_of_ne h.1 h.2

theorem two_le_length_iff {c : List ℕ} (h : c.Nodup) : 2 ≤ c.length ↔ ∃ a ∈ c, ∃ b ∈ c, a ≠ b := by
  rw [← List.toFinset_card_of_nodup h, Nat.succ_le_iff, Finset.one_lt_card]
  simp only [List.mem_toFinset]

/-- **The classes are the components** of at least two elements. -/
theorem areComponents_clusters (hsymm : ∀ i j, close i j = close j i) {cs : List (List ℕ)}
    (h : clusters turns n close = some cs) : AreComponents (closeGraph n close) cs := by
  obtain ⟨hapart, hsize⟩ := nodup_clusters h
  obtain ⟨roots, rfl, hfst, hlt, hroots⟩ := clusters_roots h
  have hnodup : (roots.map Prod.fst).Nodup := hfst ▸ List.nodup_range
  -- Every vertex has a root, and its class is its component.
  have hroot (i : Fin n) : ∃ r < n, (↑i, r) ∈ roots := by
    have hi : (i : ℕ) ∈ roots.map Prod.fst := hfst ▸ List.mem_range.mpr i.isLt
    obtain ⟨⟨i', r⟩, he, rfl⟩ := List.mem_map.mp hi
    exact ⟨r, hlt _ he, he⟩
  have hclass {i : Fin n} {r : ℕ} (hi : (↑i, r) ∈ roots) :
      vertices n (classOf roots r) = ((closeGraph n close).connectedComponentMk i).supp := by
    ext j
    obtain ⟨r', -, hj⟩ := hroot j
    have hsame := (hroots _ hj _ hi).trans (eqvGen_closePairs_iff hsymm j i)
    rw [SimpleGraph.ConnectedComponent.mem_supp_iff, SimpleGraph.ConnectedComponent.eq, ← hsame]
    refine mem_classOf.trans ⟨fun hjr ↦ ?_, fun heq ↦ ?_⟩
    · have heq : ((j : ℕ), r') = (↑j, r) := List.inj_on_of_nodup_map hnodup hj hjr rfl
      exact (Prod.mk.inj heq).2
    · obtain rfl : r' = r := heq
      exact hj
  refine ⟨fun c hc ↦ ?_, fun c hc ↦ (hsize c hc).2, hapart, fun s ↦ ⟨?_, ?_⟩⟩
  · obtain ⟨r, -, rfl⟩ := List.mem_map.mp (List.mem_filter.mp hc).1
    exact pairwise_classOf hnodup r
  · rintro ⟨c, hc, rfl⟩
    obtain ⟨hlen, hin⟩ := hsize c hc
    obtain ⟨r, -, rfl⟩ := List.mem_map.mp (List.mem_filter.mp hc).1
    obtain ⟨a, ha, b, hb, hab⟩ := (two_le_length_iff (pairwise_classOf hnodup r).nodup).mp hlen
    refine ⟨_, (hclass (i := ⟨a, hin a ha⟩) (mem_classOf.mp ha)).symm, ⟨a, hin a ha⟩, ha, ⟨b, hin b hb⟩, hb, ?_⟩
    exact fun heq ↦ hab (Fin.mk.inj heq)
  · rintro ⟨C, rfl, i, hi, j, hj, hij⟩
    obtain ⟨r, hr, hmem⟩ := hroot i
    have hC : vertices n (classOf roots r) = C.supp := by
      rw [hclass hmem, SimpleGraph.ConnectedComponent.supp_inj]
      exact hi
    refine ⟨classOf roots r, List.mem_filter.mpr ⟨List.mem_map.mpr ⟨r, List.mem_range.mpr hr, rfl⟩, ?_⟩, hC⟩
    rw [← hC] at hi hj
    refine decide_eq_true ((two_le_length_iff (pairwise_classOf hnodup r).nodup).mpr ?_)
    exact ⟨i, hi, j, hj, Fin.val_ne_of_ne hij⟩

/-- **Enough turns give the components.** -/
theorem finds_clusters (hsymm : ∀ i j, close i j = close j i) :
    ∃ cs, Finds (clusters · n close) (closeGraph n close) cs := by
  obtain ⟨cs, turns, h⟩ := clusters_ends n close
  exact ⟨cs, ⟨turns, h⟩, areComponents_clusters hsymm (h turns le_rfl)⟩

/-! ## Other numbers for the elements -/

/-- **A renaming that keeps the edges** carries the classes of one graph to those of the other. -/
theorem AreComponents.rename {m : ℕ} {G : SimpleGraph (Fin n)} {H : SimpleGraph (Fin m)} {cs ds : List (List ℕ)}
    (hcs : AreComponents G cs) (hds : AreComponents H ds) (φ : G ≃g H) : CarriedBy φ.toEquiv cs ds := by
  intro s
  have himage (C : G.ConnectedComponent) : φ '' C.supp = (φ.connectedComponentEquiv C).supp := by
    ext v
    rw [SimpleGraph.ConnectedComponent.mem_supp_iff]
    constructor
    · rintro ⟨u, hu, rfl⟩
      exact SimpleGraph.ConnectedComponent.iso_image_comp_eq_map_iff_eq_comp.mpr hu
    · intro hv
      exact ⟨φ.symm v, SimpleGraph.ConnectedComponent.iso_inv_image_comp_eq_iff_eq_map.mpr hv, φ.apply_symm_apply v⟩
  rw [hcs.exact, hds.exact]
  constructor
  · rintro ⟨C, rfl, hC⟩
    exact ⟨φ.connectedComponentEquiv C, (himage C).symm, hC.image φ.injective⟩
  · rintro ⟨D, hD, hs⟩
    obtain ⟨C, rfl⟩ := φ.connectedComponentEquiv.surjective D
    rw [← himage] at hD
    have hsupp : C.supp = s := φ.injective.image_injective hD
    exact ⟨C, hsupp, (Set.image_nontrivial φ.injective).mp hs⟩

end UnionFind

end SafeVault
