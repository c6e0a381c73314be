import Mathlib.Order.Nat

/-!
# Loops that may not end

A turn of a loop leads to another state or leaves the loop with a result. `run` makes at most a given
number of turns. A loop ends when some number of turns suffices, and the result does not depend on
the number.

## The rules

What every turn keeps holds when the loop is left, and a measure that every turn lowers makes the loop
end.
-/

namespace SafeVault

namespace Loop

variable {σ β : Type*} {body : σ → σ ⊕ β} {I : σ → Prop} {s : σ} {b b' : β} {n m : ℕ}

/-- The result of a loop within a number of turns. -/
def run (body : σ → σ ⊕ β) : ℕ → σ → Option β
  | 0, _ => none
  | n + 1, s =>
    match body s with
    | .inl t => run body n t
    | .inr b => some b

/-- The loop is left sooner or later. -/
def Ends (body : σ → σ ⊕ β) (s : σ) : Prop := ∃ n b, run body n s = some b

theorem run_of_inl {t : σ} (h : body s = .inl t) : run body (n + 1) s = run body n t := by
  rw [run, h]

theorem run_of_inr (h : body s = .inr b) : run body (n + 1) s = some b := by
  rw [run, h]

/-- More turns do not change the result. -/
theorem run_mono (h : run body n s = some b) (hle : n ≤ m) : run body m s = some b := by
  induction n generalizing s m with
  | zero => exact nomatch h
  | succ n ih =>
    obtain ⟨m, rfl⟩ := Nat.exists_eq_add_of_lt (Nat.lt_of_succ_le hle)
    rcases hbody : body s with t | c
    · rw [run_of_inl hbody] at h ⊢
      exact ih h (Nat.le_add_right n m)
    · rw [run_of_inr hbody] at h ⊢
      exact h

theorem run_unique (h : run body n s = some b) (h' : run body m s = some b') : b = b' :=
  Option.some.inj ((run_mono h (le_max_left n m)).symm.trans (run_mono h' (le_max_right n m)))

/-- **The rule for the result.** -/
theorem of_run {Q : β → Prop} (hnext : ∀ s t, I s → body s = .inl t → I t)
    (hlast : ∀ s b, I s → body s = .inr b → Q b) (hs : I s) (h : run body n s = some b) : Q b := by
  induction n generalizing s with
  | zero => exact nomatch h
  | succ n ih =>
    rcases hbody : body s with t | c
    · rw [run_of_inl hbody] at h
      exact ih (hnext s t hs hbody) h
    · rw [run_of_inr hbody] at h
      exact hlast s b hs (hbody.trans (congrArg _ (Option.some.inj h)))

/-- **The rule for termination.** -/
theorem ends_of_measure (measure : σ → ℕ)
    (hnext : ∀ s t, I s → body s = .inl t → I t ∧ measure t < measure s) (hs : I s) :
    Ends body s := by
  induction hk : measure s using Nat.strong_induction_on generalizing s with
  | h k ih =>
    rcases hbody : body s with t | c
    · obtain ⟨ht, hlt⟩ := hnext s t hs hbody
      obtain ⟨n, b, hrun⟩ := ih (measure t) (hk ▸ hlt) ht rfl
      exact ⟨n + 1, b, (run_of_inl hbody).trans hrun⟩
    · exact ⟨1, c, run_of_inr hbody⟩

end Loop

end SafeVault
