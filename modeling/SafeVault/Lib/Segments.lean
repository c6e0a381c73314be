import Mathlib.Algebra.GroupWithZero.Nat
import Mathlib.Algebra.BigOperators.Group.List.Basic

/-!
# Segments one after another

A segment is an offset and a length. A list of them is contiguous from one offset to another when
the first begins at the one, each begins where the one before it ends, and the last ends at the
other, so that together they cover everything between the two offsets, once.
-/

namespace SafeVault

namespace Segments

/-- Each segment begins where the one before it ends. -/
def Contiguous : ℕ → List (ℕ × ℕ) → ℕ → Prop
  | start, [], stop => start = stop
  | start, s :: segments, stop => s.1 = start ∧ Contiguous (start + s.2) segments stop

variable {start middle stop offset length : ℕ} {s : ℕ × ℕ} {segments more : List (ℕ × ℕ)}

@[simp] theorem contiguous_nil : Contiguous start [] stop ↔ start = stop := Iff.rfl

theorem Contiguous.append (h : Contiguous start segments middle)
    (hmore : Contiguous middle more stop) : Contiguous start (segments ++ more) stop := by
  induction segments generalizing start with
  | nil =>
    rw [contiguous_nil.mp h]
    exact hmore
  | cons s segments ih => exact ⟨h.1, ih h.2⟩

theorem Contiguous.concat (h : Contiguous start segments middle) (hs : s.1 = middle) :
    Contiguous start (segments ++ [s]) (middle + s.2) :=
  h.append ⟨hs, rfl⟩

/-- The segments cover as much as they are long. -/
theorem Contiguous.add_sum (h : Contiguous start segments stop) :
    start + (segments.map Prod.snd).sum = stop := by
  induction segments generalizing start with
  | nil => simpa using h
  | cons s segments ih => rw [List.map_cons, List.sum_cons, ← Nat.add_assoc, ih h.2]

theorem Contiguous.le (h : Contiguous start segments stop) : start ≤ stop := by
  rw [← h.add_sum]
  exact Nat.le_add_right _ _

/-- Every segment is between the two offsets. -/
theorem Contiguous.bounds (h : Contiguous start segments stop) (hs : s ∈ segments) :
    start ≤ s.1 ∧ s.1 + s.2 ≤ stop := by
  induction segments generalizing start with
  | nil => exact absurd hs List.not_mem_nil
  | cons r segments ih =>
    rcases List.mem_cons.mp hs with rfl | hs
    · have hle := h.2.le
      have hstart := h.1
      omega
    · have := ih h.2 hs
      omega

end Segments

end SafeVault
