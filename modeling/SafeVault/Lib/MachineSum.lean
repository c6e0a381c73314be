import Mathlib.Algebra.GroupWithZero.Nat
import Mathlib.Algebra.Ring.Int.Defs
import Mathlib.Algebra.BigOperators.Group.List.Basic
import Mathlib.Data.Int.Order.Basic
import Mathlib.Data.Nat.Cast.Basic

/-!
# Sums in 32-bit integers

A loop adds integers to an accumulator of 32 bits. Its additions are listed with their operands as
the machine has them; the sum is exact when none of them overflows, and that is a statement about the
exact sums of the first summands.
-/

namespace SafeVault

namespace MachineSum

/-- A 32-bit integer can be `z`. -/
def Fits (z : ℤ) : Prop := -2 ^ 31 ≤ z ∧ z < 2 ^ 31

instance (z : ℤ) : Decidable (Fits z) := inferInstanceAs (Decidable (_ ∧ _))

/-- An addition of these operands does not overflow. -/
def Exact (s : Int32 × Int32) : Prop := Fits (s.1.toInt + s.2.toInt)

instance (s : Int32 × Int32) : Decidable (Exact s) := inferInstanceAs (Decidable (Fits _))

/-- The operands of the additions of a loop. -/
def steps (acc : Int32) : List Int32 → List (Int32 × Int32)
  | [] => []
  | w :: ws => (acc, w) :: steps (acc + w) ws

theorem fits_toInt (w : Int32) : Fits w.toInt := ⟨w.le_toInt, w.toInt_lt⟩

theorem toInt_ofInt {z : ℤ} (h : Fits z) : (Int32.ofInt z).toInt = z :=
  Int32.toInt_ofInt_of_le h.1 h.2

theorem toInt_add {a b : Int32} (h : Exact (a, b)) : (a + b).toInt = a.toInt + b.toInt := by
  rw [← toInt_ofInt h, Int32.ofInt_add, Int32.ofInt_toInt, Int32.ofInt_toInt]

/-- **No addition overflows** exactly if the sum of the first summands fits, however many. -/
theorem exact_steps_iff {acc : Int32} {ws : List Int32} : (∀ s ∈ steps acc ws, Exact s) ↔
    ∀ k, Fits (acc.toInt + ((ws.take k).map Int32.toInt).sum) := by
  induction ws generalizing acc with
  | nil => simpa [steps] using fits_toInt acc
  | cons w ws ih =>
    rw [steps, List.forall_mem_cons, ih]
    constructor
    · rintro ⟨hexact, hrest⟩ (_ | k)
      · simpa using fits_toInt acc
      · have hk := hrest k
        rw [toInt_add hexact, Int.add_assoc] at hk
        rwa [List.take_succ_cons, List.map_cons, List.sum_cons]
    · intro h
      have hexact : Exact (acc, w) := by simpa [Exact] using h 1
      refine ⟨hexact, fun k ↦ ?_⟩
      have hk := h (k + 1)
      rw [List.take_succ_cons, List.map_cons, List.sum_cons, ← Int.add_assoc] at hk
      rwa [toInt_add hexact]

/-- Repeating one small summand never overflows. -/
theorem fits_sum_replicate_one {n k : ℕ} (h : n < 2 ^ 31) :
    Fits (((List.replicate n (1 : Int32)).take k).map Int32.toInt).sum := by
  have hsum : (((List.replicate n (1 : Int32)).take k).map Int32.toInt).sum = min k n := by
    simp [List.take_replicate, List.map_replicate]
  rw [hsum, Fits]
  omega

end MachineSum

end SafeVault
