import Mathlib.Data.List.Basic

/-!
# Claiming while scanning

A list is scanned, and an element that is kept claims a list of elements, itself among them. An element that
is claimed already is passed over. So of the elements that are kept no earlier one claims a later one, and
every element of the list is claimed by one that is kept.

What is kept depends on the order of the list, unless claiming is symmetric and transitive: then one element
of every class is kept.
-/

namespace SafeVault

namespace Claiming

variable {α : Type} [DecidableEq α] {claims : α → List α} {claimed xs : List α} {x y : α}

/-- The elements that are kept, where some have been claimed before. -/
def keep (claims : α → List α) : List α → List α → List α
  | _, [] => []
  | claimed, x :: xs => if x ∈ claimed then keep claims claimed xs else x :: keep claims (claims x ++ claimed) xs

theorem keep_cons_of_mem (h : x ∈ claimed) : keep claims claimed (x :: xs) = keep claims claimed xs := if_pos h

theorem keep_cons_of_not_mem (h : x ∉ claimed) :
    keep claims claimed (x :: xs) = x :: keep claims (claims x ++ claimed) xs := if_neg h

theorem mem_of_mem_keep (h : y ∈ keep claims claimed xs) : y ∈ xs ∧ y ∉ claimed := by
  induction xs generalizing claimed with
  | nil => exact absurd h List.not_mem_nil
  | cons x xs ih =>
    by_cases hx : x ∈ claimed
    · rw [keep_cons_of_mem hx] at h
      exact ⟨List.mem_cons_of_mem _ (ih h).1, (ih h).2⟩
    · rw [keep_cons_of_not_mem hx] at h
      rcases List.mem_cons.mp h with rfl | h
      · exact ⟨List.mem_cons_self, hx⟩
      · obtain ⟨hxs, hnot⟩ := ih h
        exact ⟨List.mem_cons_of_mem _ hxs, fun hclaimed ↦ hnot (List.mem_append_right _ hclaimed)⟩

/-- No element that is kept claims a later one. -/
theorem pairwise_keep (claims : α → List α) (claimed xs : List α) :
    (keep claims claimed xs).Pairwise fun x y ↦ y ∉ claims x := by
  induction xs generalizing claimed with
  | nil => exact List.Pairwise.nil
  | cons x xs ih =>
    by_cases hx : x ∈ claimed
    · rw [keep_cons_of_mem hx]
      exact ih claimed
    · rw [keep_cons_of_not_mem hx]
      refine List.pairwise_cons.mpr ⟨fun y hy hclaims ↦ ?_, ih _⟩
      exact (mem_of_mem_keep hy).2 (List.mem_append_left _ hclaims)

/-- Every element was claimed before or is claimed by one that is kept. -/
theorem exists_claims_of_mem (hself : ∀ x, x ∈ claims x) (hx : x ∈ xs) :
    x ∈ claimed ∨ ∃ y ∈ keep claims claimed xs, x ∈ claims y := by
  induction xs generalizing claimed with
  | nil => exact absurd hx List.not_mem_nil
  | cons z xs ih =>
    by_cases hz : z ∈ claimed
    · rw [keep_cons_of_mem hz]
      rcases List.mem_cons.mp hx with rfl | hx
      · exact .inl hz
      · exact ih hx
    · rw [keep_cons_of_not_mem hz]
      rcases List.mem_cons.mp hx with rfl | hx
      · exact .inr ⟨x, List.mem_cons_self, hself x⟩
      · rcases @ih (claims z ++ claimed) hx with hclaimed | ⟨y, hy, hclaims⟩
        · rcases List.mem_append.mp hclaimed with hclaims | hclaimed
          · exact .inr ⟨z, List.mem_cons_self, hclaims⟩
          · exact .inl hclaimed
        · exact .inr ⟨y, List.mem_cons_of_mem _ hy, hclaims⟩

end Claiming

end SafeVault
