import Mathlib.Data.List.TakeDrop
import Mathlib.Data.List.TakeWhile
import Mathlib.Logic.Relation

/-!
# Walks through a forest, as lists with depths

A forest that is gone through from the top down, each node before what is below it, gives a list of nodes
with depths. Where the walk is, is told by the nodes from a root down to the one that came last: a node
of depth `d` comes below the first `d` of them.

What is below a node can be left out of a walk: it is what comes next, as long as the depths are larger.
-/

namespace SafeVault

/-- `below p c`: `c` is a child of `p`. -/
abbrev WalkStep (α : Type*) := α × ℕ

section

variable {α : Type*} (below : α → α → Prop)

/-- What may come after the nodes `above`. -/
def ComesBelow (above : List α) (x : WalkStep α) : Prop :=
  x.2 = 0 ∨ ∃ p, above[x.2 - 1]? = some p ∧ below p x.1

/-- A walk that goes on after the nodes `above`. -/
inductive DepthWalk : List α → List (WalkStep α) → Prop
  | nil {above : List α} : DepthWalk above []
  | cons {above : List α} {x : WalkStep α} {xs : List (WalkStep α)} (hfits : ComesBelow below above x)
      (hrest : DepthWalk (above.take x.2 ++ [x.1]) xs) : DepthWalk above (x :: xs)

/-- What is still to be gone through: the next one first, and none deeper than one before it. -/
def Ready (above : List α) (stack : List (WalkStep α)) : Prop :=
  (∀ x ∈ stack, ComesBelow below above x) ∧ stack.Pairwise fun x y ↦ y.2 ≤ x.2

variable {below} {above : List α} {x y : WalkStep α} {xs stack : List (WalkStep α)} {d : ℕ}

theorem ComesBelow.depth_le (h : ComesBelow below above x) : x.2 ≤ above.length := by
  rcases h with hroot | ⟨p, hp, -⟩
  · exact hroot ▸ Nat.zero_le _
  · have hlt := (List.getElem?_eq_some_iff.mp hp).1
    omega

/-- What comes below the first nodes of a list only depends on these. -/
theorem ComesBelow.of_take_eq {above' : List α} (h : ComesBelow below above x) (hd : x.2 ≤ d)
    (htake : above.take d = above'.take d) : ComesBelow below above' x := by
  rcases h with hroot | ⟨p, hp, hbelow⟩
  · exact .inl hroot
  · by_cases hroot : x.2 = 0
    · exact .inl hroot
    · refine .inr ⟨p, ?_, hbelow⟩
      have hlt : x.2 - 1 < d := by omega
      rw [← List.getElem?_take_of_lt hlt] at hp ⊢
      rw [← htake]
      exact hp

theorem take_step (hd : d ≤ above.length) (a : α) : (above.take d ++ [a]).take d = above.take d := by
  rw [List.take_append_of_le_length (by rw [List.length_take]; omega), List.take_take, Nat.min_self]

theorem getElem?_step (hd : d ≤ above.length) (a : α) : (above.take d ++ [a])[d]? = some a := by
  rw [List.getElem?_append_right (by rw [List.length_take]; omega), List.length_take, Nat.min_eq_left hd,
    Nat.sub_self]
  rfl

/-- Without what is below the node that came last. -/
theorem DepthWalk.dropWhile (h : DepthWalk below above xs) (d : ℕ) :
    DepthWalk below (above.take d) (xs.dropWhile fun x ↦ d < x.2) := by
  induction h with
  | nil => exact .nil
  | @cons above x xs hfits hrest ih =>
    by_cases hdeep : d < x.2
    · rw [List.dropWhile_cons_of_pos (by simpa using hdeep)]
      have htake : (above.take x.2 ++ [x.1]).take d = above.take d := by
        have hle := hfits.depth_le
        rw [List.take_append_of_le_length (by rw [List.length_take]; omega), List.take_take,
          Nat.min_eq_left hdeep.le]
      rw [← htake]
      exact ih
    · rw [List.dropWhile_cons_of_neg (by simpa using hdeep)]
      have hle : x.2 ≤ d := Nat.le_of_not_lt hdeep
      refine .cons (hfits.of_take_eq hle (by rw [List.take_take, Nat.min_self])) ?_
      rwa [List.take_take, Nat.min_eq_left hle]

/-- What comes next with larger depths is below one of the nodes from that depth on. -/
theorem DepthWalk.below_of_mem_takeWhile (h : DepthWalk below above xs) (d : ℕ) {a : α}
    (hinner : ∀ p ∈ above.drop d, Relation.ReflTransGen below a p) :
    ∀ x ∈ xs.takeWhile fun x ↦ d < x.2, Relation.ReflTransGen below a x.1 := by
  induction h with
  | nil => exact fun x hx ↦ absurd hx List.not_mem_nil
  | @cons above x xs hfits hrest ih =>
    intro y hy
    by_cases hdeep : d < x.2
    · rw [List.takeWhile_cons_of_pos (by simpa using hdeep)] at hy
      have hx : Relation.ReflTransGen below a x.1 := by
        rcases hfits with hroot | ⟨p, hp, hbelow⟩
        · omega
        · refine (hinner p ?_).tail hbelow
          exact List.mem_iff_getElem?.mpr ⟨x.2 - 1 - d, by rw [List.getElem?_drop, ← hp]; congr 1; omega⟩
      rcases List.mem_cons.mp hy with rfl | hy
      · exact hx
      · refine ih (fun p hp ↦ ?_) y hy
        rcases List.mem_append.mp (List.drop_append ▸ hp) with hold | hnew
        · exact hinner p (((List.take_sublist _ _).drop d).subset hold)
        · rw [List.mem_singleton.mp (List.mem_of_mem_drop hnew)]
          exact hx
    · rw [List.takeWhile_cons_of_neg (by simpa using hdeep)] at hy
      exact absurd hy List.not_mem_nil

/-- The next one goes, and what is below it comes before the others. -/
theorem Ready.push {children : List α} (h : Ready below above (x :: stack))
    (hchildren : ∀ c ∈ children, below x.1 c) :
    Ready below (above.take x.2 ++ [x.1]) (children.map (·, x.2 + 1) ++ stack) := by
  obtain ⟨hfits, hdepths⟩ := h
  obtain ⟨hfirst, hrest⟩ := List.forall_mem_cons.mp hfits
  obtain ⟨hdeepest, hdepths⟩ := List.pairwise_cons.mp hdepths
  have hle := hfirst.depth_le
  constructor
  · intro y hy
    rcases List.mem_append.mp hy with hchild | hold
    · obtain ⟨c, hc, rfl⟩ := List.mem_map.mp hchild
      exact .inr ⟨x.1, getElem?_step hle x.1, hchildren c hc⟩
    · exact (hrest y hold).of_take_eq (hdeepest y hold) (take_step hle x.1).symm
  · refine List.pairwise_append.mpr ⟨?_, hdepths, ?_⟩
    · refine List.pairwise_map.mpr (List.pairwise_of_forall fun c c' ↦ le_rfl)
    · intro y hy z hz
      obtain ⟨c, -, rfl⟩ := List.mem_map.mp hy
      exact (hdeepest z hz).trans (Nat.le_succ _)

theorem ready_roots (roots : List α) : Ready below [] (roots.map (·, 0)) := by
  constructor
  · intro x hx
    obtain ⟨a, -, rfl⟩ := List.mem_map.mp hx
    exact .inl rfl
  · exact List.pairwise_map.mpr (List.pairwise_of_forall fun c c' ↦ le_rfl)

end

end SafeVault
