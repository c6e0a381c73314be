import Mathlib.Data.List.Range
import Mathlib.Order.Basic

/-!
# Handling flagged positions in runs

A loop looks at consecutive positions. It remembers where the current run of flagged positions has
begun, hands a run over as soon as it has ended, and hands over the last one after the loop. Zero stands
for "no run", so no position may be zero.

Looking at a position and handing a run over can change a state, and handing over can fail. The rule is
in terms of two bounds: everything before the first was handled, and everything before the second was
looked at.
-/

namespace SafeVault

namespace Coalesce

variable {σ ε : Type}

/-- The loop, from position `p` on, with so many positions to go. -/
def sweep (look : ℕ → σ → Bool × σ) (hand : ℕ → ℕ → σ → Except ε σ) :
    (p count first : ℕ) → σ → Except ε σ
  | p, 0, first, s => if first = 0 then .ok s else hand first (p - first) s
  | p, count + 1, first, s =>
    let (flagged, s) := look p s
    if flagged then sweep look hand (p + 1) count (if first = 0 then p else first) s
    else if first ≠ 0 then do
      let s ← hand first (p - first) s
      sweep look hand (p + 1) count 0 s
    else sweep look hand (p + 1) count 0 s

/-- What a loop leaves: a state of one kind, or a failure of another. -/
def Yields (ok : σ → Prop) (failed : ε → Prop) : Except ε σ → Prop
  | .ok s => ok s
  | .error e => failed e

variable {look : ℕ → σ → Bool × σ} {hand : ℕ → ℕ → σ → Except ε σ} {flag : ℕ → Bool}
  {K : ℕ → ℕ → σ → Prop} {failed : ε → Prop}

/-- Where the positions that are not handled yet begin. -/
def openFrom (p first : ℕ) : ℕ := if first = 0 then p else first

/-- **The rule.** `K a q s` says that everything before `a` was handled and everything before `q` was
looked at. -/
theorem sweep_rule {stop : ℕ}
    (hlook : ∀ a p s, p < stop → K a p s → (look p s).1 = flag p ∧ K a (p + 1) (look p s).2)
    (hskip : ∀ p s, p < stop → K p (p + 1) s → flag p = false → K (p + 1) (p + 1) s)
    (hhand : ∀ a q q' s, K a q' s → a < q → q ≤ q' → (∀ p, a ≤ p → p < q → flag p = true) →
      Yields (K q q') failed (hand a (q - a) s))
    {p count first : ℕ} {s : σ} (hpos : 0 < p) (hfirst : first ≤ p)
    (hflagged : ∀ i, openFrom p first ≤ i → i < p → flag i = true) (h : K (openFrom p first) p s)
    (hrun : first ≠ 0 → first < p) (hstop : p + count = stop) :
    Yields (K stop stop) failed (sweep look hand p count first s) := by
  induction count generalizing p first s with
  | zero =>
    obtain rfl : p = stop := hstop
    rw [sweep]
    by_cases hzero : first = 0
    · rw [if_pos hzero]
      rwa [openFrom, if_pos hzero] at h
    · rw [openFrom, if_neg hzero] at h hflagged
      rw [if_neg hzero]
      exact hhand first p p s h (hrun hzero) le_rfl hflagged
  | succ count ih =>
    have hlt : p < stop := by omega
    obtain ⟨hflag, hlooked⟩ := hlook _ p s hlt h
    rw [sweep]
    rcases hseen : look p s with ⟨flagged, t⟩
    rw [hseen] at hflag hlooked
    dsimp only at hflag hlooked ⊢
    by_cases hset : flagged = true
    · -- The run goes on, or begins here.
      rw [if_pos hset]
      have hopen : openFrom (p + 1) (if first = 0 then p else first) = openFrom p first := by
        rw [openFrom, openFrom]
        split_ifs <;> omega
      refine ih (Nat.succ_pos p) (by split_ifs <;> omega) (fun i hi hlt ↦ ?_) (hopen ▸ hlooked) ?_
        (by omega)
      · rcases Nat.lt_succ_iff_lt_or_eq.mp hlt with hlt | rfl
        · exact hflagged i (hopen ▸ hi) hlt
        · exact hflag.symm.trans hset
      · intro _
        split_ifs <;> omega
    · rw [if_neg hset]
      have hclear : flag p = false := hflag ▸ Bool.eq_false_iff.mpr hset
      by_cases hzero : first = 0
      · rw [if_neg (not_not.mpr hzero)]
        rw [openFrom, if_pos hzero] at hlooked
        refine ih (Nat.succ_pos p) (Nat.zero_le _) (fun i hi hlt ↦ ?_) ?_ (absurd rfl) (by omega)
        · rw [openFrom, if_pos rfl] at hi
          omega
        · rw [openFrom, if_pos rfl]
          exact hskip p t hlt hlooked hclear
      · -- The run has ended before this position.
        rw [if_pos hzero]
        rw [openFrom, if_neg hzero] at hlooked hflagged
        have hhanded := hhand first p (p + 1) t hlooked (hrun hzero) (Nat.le_succ p) hflagged
        rcases hresult : hand first (p - first) t with e | u
        all_goals rw [hresult] at hhanded
        · exact hhanded
        · refine ih (Nat.succ_pos p) (Nat.zero_le _) (fun i hi hlt ↦ ?_) ?_ (absurd rfl) (by omega)
          · rw [openFrom, if_pos rfl] at hi
            omega
          · rw [openFrom, if_pos rfl]
            exact hskip p u hlt hhanded hclear

/-- The rule for a whole loop. -/
theorem sweep_from {stop : ℕ}
    (hlook : ∀ a p s, p < stop → K a p s → (look p s).1 = flag p ∧ K a (p + 1) (look p s).2)
    (hskip : ∀ p s, p < stop → K p (p + 1) s → flag p = false → K (p + 1) (p + 1) s)
    (hhand : ∀ a q q' s, K a q' s → a < q → q ≤ q' → (∀ p, a ≤ p → p < q → flag p = true) →
      Yields (K q q') failed (hand a (q - a) s))
    {p count : ℕ} {s : σ} (hpos : 0 < p) (h : K p p s) (hstop : p + count = stop) :
    Yields (K stop stop) failed (sweep look hand p count 0 s) :=
  sweep_rule hlook hskip hhand hpos (Nat.zero_le _) (fun _ hle hlt ↦ absurd hle (not_le.mpr hlt)) h
    (absurd rfl) hstop

end Coalesce

end SafeVault
