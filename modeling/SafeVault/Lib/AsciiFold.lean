import Mathlib.Data.List.Basic
import Mathlib.Data.UInt

/-!
# Equality up to ASCII case

Byte strings compared with the letters `A`–`Z` folded onto `a`–`z`. Bytes outside ASCII are compared
as they are, so the relation is an equality of folded strings and inherits everything from there: it
is an equivalence, it fixes the length, and it is decided by one pass.
-/

namespace SafeVault

/-- A byte string. -/
abbrev Bytes := List UInt8

namespace AsciiFold

/-- Fold an ASCII capital onto the small letter; other bytes stay. -/
def lower (c : UInt8) : UInt8 := if 65 ≤ c ∧ c ≤ 90 then c + 32 else c

/-- The folded string, a normal form for equality up to ASCII case. -/
def fold (a : Bytes) : Bytes := a.map lower

/-- Same length and the same folded byte at each position. -/
def equal (a b : Bytes) : Bool :=
  a.length == b.length && (a.zip b).all fun p ↦ lower p.1 == lower p.2

@[simp] theorem length_fold (a : Bytes) : (fold a).length = a.length := List.length_map _

@[simp] theorem fold_nil : fold [] = [] := rfl

@[simp] theorem fold_cons (c : UInt8) (a : Bytes) : fold (c :: a) = lower c :: fold a := rfl

@[simp] theorem fold_append (a b : Bytes) : fold (a ++ b) = fold a ++ fold b := List.map_append

@[simp] theorem fold_eq_nil_iff {a : Bytes} : fold a = [] ↔ a = [] := List.map_eq_nil_iff

theorem equal_iff {a b : Bytes} : equal a b = true ↔ fold a = fold b := by
  induction a generalizing b with
  | nil =>
    cases b with
    | nil => simp [equal]
    | cons d b => simp [equal, fold]
  | cons c a ih =>
    cases b with
    | nil => simp [equal, fold]
    | cons d b =>
      rw [fold_cons, fold_cons, List.cons.injEq, ← ih]
      simp only [equal, List.length_cons, List.zip_cons_cons, List.all_cons, Bool.and_eq_true,
        beq_iff_eq, Nat.add_right_cancel_iff]
      exact and_left_comm

theorem equal_eq_false_iff {a b : Bytes} : equal a b = false ↔ fold a ≠ fold b := by
  rw [← Bool.not_eq_true, equal_iff]

theorem equal_eq_decide (a b : Bytes) : equal a b = decide (fold a = fold b) := by
  rw [Bool.eq_iff_iff, equal_iff, decide_eq_true_iff]

@[simp] theorem equal_self (a : Bytes) : equal a a = true := equal_iff.mpr rfl

theorem equal_comm (a b : Bytes) : equal a b = equal b a := by
  rw [equal_eq_decide, equal_eq_decide]
  exact decide_eq_decide.mpr eq_comm

end AsciiFold

end SafeVault
