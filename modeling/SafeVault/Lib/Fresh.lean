import Mathlib.Data.List.Perm.Subperm
import Mathlib.Data.List.Nodup
import Mathlib.Order.Nat

/-!
# The first candidate that is not taken

A loop tries a candidate and then numbered ones until it meets one that is not in a list. If the
numbered candidates differ, one turn more than the list is long is enough.
-/

namespace SafeVault

namespace Fresh

variable {α : Type*} [DecidableEq α] {next : ℕ → α} {taken : List α} {cand : α} {k n : ℕ}

/-- The loop, for at most `k` turns: `cand` is the candidate and `n` the next number. -/
def search (next : ℕ → α) (taken : List α) : ℕ → α → ℕ → α
  | 0, cand, _ => cand
  | k + 1, cand, n => if cand ∈ taken then search next taken k (next n) (n + 1) else cand

/-- What the loop tries, in turn. -/
def tried (next : ℕ → α) (cand : α) (n : ℕ) : ℕ → α
  | 0 => cand
  | i + 1 => next (n + i)

omit [DecidableEq α] in
theorem tried_succ (i : ℕ) : tried next cand n (i + 1) = tried next (next n) (n + 1) i := by
  rcases i with _ | i
  · rfl
  · exact congrArg next (Nat.add_right_comm n i 1)

/-- **What the loop gives** is something it tries, with everything before it taken. -/
theorem exists_search_eq (next : ℕ → α) (taken : List α) (k : ℕ) (cand : α) (n : ℕ) :
    ∃ i, search next taken k cand n = tried next cand n i ∧
      ∀ j < i, tried next cand n j ∈ taken := by
  induction k generalizing cand n with
  | zero => exact ⟨0, rfl, fun j hj ↦ absurd hj (Nat.not_lt_zero j)⟩
  | succ k ih =>
    rw [search]
    split_ifs with hcand
    · obtain ⟨i, hi, hbefore⟩ := ih (next n) (n + 1)
      refine ⟨i + 1, hi.trans (tried_succ i).symm, ?_⟩
      rintro (_ | j) hj
      · exact hcand
      · rw [tried_succ]
        exact hbefore j (Nat.lt_of_succ_lt_succ hj)
    · exact ⟨0, rfl, fun j hj ↦ absurd hj (Nat.not_lt_zero j)⟩

/-- If the loop gives something that is taken, so is everything it tried. -/
theorem mem_of_search_mem (h : search next taken k cand n ∈ taken) :
    cand ∈ taken ∧ ∀ i < k, next (n + i) ∈ taken := by
  induction k generalizing cand n with
  | zero => exact ⟨h, fun i hi ↦ absurd hi (Nat.not_lt_zero i)⟩
  | succ k ih =>
    rw [search] at h
    split_ifs at h with hcand
    · obtain ⟨hnext, htried⟩ := ih h
      refine ⟨hcand, ?_⟩
      rintro (_ | i) hi
      · exact hnext
      · rw [← Nat.add_assoc, Nat.add_right_comm n i 1]
        exact htried i (Nat.lt_of_succ_lt_succ hi)
    · exact absurd h hcand

omit [DecidableEq α] in
/-- Candidates that differ and are all taken are at most as many as what is taken. -/
theorem card_le_of_forall_mem (hinj : ∀ i < k, ∀ j < k, next (n + i) = next (n + j) → i = j)
    (h : ∀ i < k, next (n + i) ∈ taken) : k ≤ taken.length := by
  have hnodup : ((List.range k).map fun i ↦ next (n + i)).Nodup := by
    refine List.nodup_range.map_on fun i hi j hj heq ↦ hinj i ?_ j ?_ heq
    · exact List.mem_range.mp hi
    · exact List.mem_range.mp hj
  have hsub : ((List.range k).map fun i ↦ next (n + i)) ⊆ taken := by
    intro c hc
    obtain ⟨i, hi, rfl⟩ := List.mem_map.mp hc
    exact h i (List.mem_range.mp hi)
  have hle := (List.subperm_of_subset hnodup hsub).length_le
  rwa [List.length_map, List.length_range] at hle

/-- **Enough turns.** -/
theorem search_not_mem (hinj : ∀ i ≤ taken.length, ∀ j ≤ taken.length,
    next (n + i) = next (n + j) → i = j) : search next taken (taken.length + 1) cand n ∉ taken := by
  intro h
  refine absurd (card_le_of_forall_mem (fun i hi j hj ↦ ?_) (mem_of_search_mem h).2) (by omega)
  exact hinj i (Nat.lt_succ_iff.mp hi) j (Nat.lt_succ_iff.mp hj)

end Fresh

end SafeVault
