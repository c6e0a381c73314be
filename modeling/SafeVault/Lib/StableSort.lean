import Mathlib.Data.List.Basic
import Mathlib.Order.Lattice

/-!
# Sorting with a comparison

A sort takes a comparison that says whether one element has to stand before another. It may rely on that
being a strict weak order: neither an element before itself nor a circle, and being indifferent is an
equivalence. Comparing the values of a function in a linear order is one.

What a stable sort returns is determined by three facts: it is a permutation, nothing stands behind what it
has to stand before, and what is in order already stays in order.
-/

namespace SafeVault

variable {α κ : Type} {less : α → α → Bool}

/-- `std::stable_sort` -/
def stableSort (less : α → α → Bool) (xs : List α) : List α := xs.mergeSort fun a b ↦ !less b a

/-- `std::stable_partition` -/
def stablePartition (p : α → Bool) (xs : List α) : List α := xs.filter p ++ xs.filter (!p ·)

/-- What a sort needs of its comparison. -/
structure StrictWeakOrder (less : α → α → Bool) : Prop where
  irrefl : ∀ a, less a a = false
  trans : ∀ a b c, less a b = true → less b c = true → less a c = true
  indifferent : ∀ a b c, less a b = false → less b a = false → less b c = false → less c b = false →
    less a c = false ∧ less c a = false

/-- What a stable sort does. -/
structure StablySorted (less : α → α → Bool) (xs out : List α) : Prop where
  perm : out.Perm xs
  ordered : out.Pairwise fun a b ↦ less b a = false
  stable : ∀ ys : List α, ys.Sublist xs → (ys.Pairwise fun a b ↦ less b a = false) → ys.Sublist out

section Keyed

variable [LinearOrder κ] {f : α → κ}

/-- Comparing by a key. -/
theorem strictWeakOrder_of_key (h : ∀ a b, less a b = true ↔ f a < f b) : StrictWeakOrder less := by
  have hnot (a b : α) : less a b = false ↔ f b ≤ f a := by
    rw [Bool.eq_false_iff, Ne, h, not_lt]
  refine ⟨fun a ↦ (hnot a a).mpr le_rfl, fun a b c hab hbc ↦ ?_, fun a b c hab hba hbc hcb ↦ ?_⟩
  · exact (h a c).mpr (((h a b).mp hab).trans ((h b c).mp hbc))
  · rw [hnot] at hab hba hbc hcb
    exact ⟨(hnot a c).mpr (hbc.trans hab), (hnot c a).mpr (hba.trans hcb)⟩

theorem stablySorted_stableSort (h : ∀ a b, less a b = true ↔ f a < f b) (xs : List α) :
    StablySorted less xs (stableSort less xs) := by
  have hle (a b : α) : (!less b a) = true ↔ f a ≤ f b := by
    rw [Bool.not_eq_true', Bool.eq_false_iff, Ne, h, not_lt]
  have htrans (a b c : α) (hab : (!less b a) = true) (hbc : (!less c b) = true) : (!less c a) = true :=
    (hle a c).mpr (((hle a b).mp hab).trans ((hle b c).mp hbc))
  have htotal (a b : α) : (!less b a || !less a b) = true := by
    rw [Bool.or_eq_true, hle, hle]
    exact le_total _ _
  refine ⟨List.mergeSort_perm _ _, ?_, fun ys hys hordered ↦ ?_⟩
  · exact (List.pairwise_mergeSort htrans htotal xs).imp fun hab ↦ (Bool.not_eq_true' _).mp hab
  · exact List.sublist_mergeSort htrans htotal (hordered.imp fun hab ↦ (Bool.not_eq_true' _).mpr hab) hys

end Keyed

end SafeVault
