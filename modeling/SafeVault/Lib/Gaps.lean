import Mathlib.Data.List.Sort
import Mathlib.Order.Lattice.Nat

/-!
# Gaps between spans

A span is an offset with a length. The gaps of a list of spans in ascending order are found by sweeping
a cursor over it: the cursor is behind everything seen so far, and whenever the next span begins after
it there is a gap. The spans may overlap and may begin before the cursor.

Every gap keeps clear of every span, gaps come in ascending order, and each of them ends where some
span begins. Whatever keeps clear of the spans and has one of them behind it lies in a gap.
-/

namespace SafeVault

/-- An offset and a length. -/
abbrev Span := ℕ × ℕ

namespace Span

/-- The end of a span. -/
def stop (s : Span) : ℕ := s.1 + s.2

/-- Two spans have no position in common. -/
def Apart (s t : Span) : Prop := s.stop ≤ t.1 ∨ t.stop ≤ s.1

theorem Apart.symm {s t : Span} (h : Apart s t) : Apart t s := Or.symm h

/-- Sorting is by offset, then by length. -/
def Le (s t : Span) : Prop := s.1 < t.1 ∨ s.1 = t.1 ∧ s.2 ≤ t.2

instance : DecidableRel Le := fun _ _ ↦ inferInstanceAs (Decidable (_ ∨ _ ∧ _))

instance : Std.Total Le := ⟨fun s t ↦ by rw [Le, Le]; omega⟩

instance : IsTrans Span Le := ⟨fun s t u hst htu ↦ by rw [Le] at *; omega⟩

theorem Le.fst_le {s t : Span} (h : Le s t) : s.1 ≤ t.1 := by
  rw [Le] at h
  omega

/-- A part of a span keeps clear of what the span keeps clear of. -/
theorem Apart.mono {s t u : Span} (h : Apart s u) (hstart : s.1 ≤ t.1) (hstop : t.stop ≤ s.stop) :
    Apart t u := by
  rw [Apart] at *
  omega

end Span

namespace Gaps

open SafeVault.Span

/-- The gaps that a cursor finds between spans in ascending order. -/
def sweep (cursor : ℕ) : List Span → List Span
  | [] => []
  | s :: ss =>
    (if cursor < s.1 then [(cursor, s.1 - cursor)] else []) ++ sweep (max cursor s.stop) ss

variable {cursor : ℕ} {spans : List Span} {g : Span}

/-- The cases of a gap. -/
theorem mem_sweep_cons {s : Span} {ss : List Span} : g ∈ sweep cursor (s :: ss) ↔
    (cursor < s.1 ∧ g = (cursor, s.1 - cursor)) ∨ g ∈ sweep (max cursor s.stop) ss := by
  rw [sweep, List.mem_append]
  split_ifs with h
  · simp [h]
  · simp [h]

theorem cursor_le (h : g ∈ sweep cursor spans) : cursor ≤ g.1 := by
  induction spans generalizing cursor with
  | nil => exact absurd h List.not_mem_nil
  | cons s ss ih =>
    rcases mem_sweep_cons.mp h with ⟨-, rfl⟩ | h
    · exact le_rfl
    · exact (le_max_left _ _).trans (ih h)

/-- A gap ends where a span begins. -/
theorem exists_stop_eq (h : g ∈ sweep cursor spans) : ∃ s ∈ spans, g.stop = s.1 := by
  induction spans generalizing cursor with
  | nil => exact absurd h List.not_mem_nil
  | cons s ss ih =>
    rcases mem_sweep_cons.mp h with ⟨hlt, rfl⟩ | h
    · refine ⟨s, List.mem_cons_self, ?_⟩
      rw [stop]
      dsimp only
      omega
    · obtain ⟨t, ht, hstop⟩ := ih h
      exact ⟨t, List.mem_cons_of_mem s ht, hstop⟩

/-- **Gaps keep clear of the spans.** -/
theorem apart_of_mem_sweep (hsorted : spans.Pairwise Le) (h : g ∈ sweep cursor spans) {t : Span}
    (ht : t ∈ spans) : Apart g t := by
  induction spans generalizing cursor with
  | nil => exact absurd h List.not_mem_nil
  | cons s ss ih =>
    obtain ⟨hle, hsorted⟩ := List.pairwise_cons.mp hsorted
    rcases mem_sweep_cons.mp h with ⟨hlt, rfl⟩ | h
    · -- The gap before the first span ends before all of them.
      have hfirst : s.1 ≤ t.1 := by
        rcases List.mem_cons.mp ht with rfl | ht
        · exact le_rfl
        · exact (hle t ht).fst_le
      refine Or.inl ?_
      rw [stop]
      dsimp only
      omega
    · rcases List.mem_cons.mp ht with rfl | ht
      · exact Or.inr ((le_max_right _ _).trans (cursor_le h))
      · exact ih hsorted h ht

/-- **Nothing is missed.** What keeps clear of the spans, and has one of them behind it, lies in a gap. -/
theorem exists_mem_sweep {t : Span} (hpos : 0 < t.2) (hcursor : cursor ≤ t.1)
    (hclear : ∀ s ∈ spans, Apart t s) (hbehind : ∃ s ∈ spans, t.stop ≤ s.1) :
    ∃ g ∈ sweep cursor spans, g.1 ≤ t.1 ∧ t.stop ≤ g.stop := by
  have hstop : t.stop = t.1 + t.2 := rfl
  induction spans generalizing cursor with
  | nil =>
    obtain ⟨s, hs, -⟩ := hbehind
    exact absurd hs List.not_mem_nil
  | cons s ss ih =>
    obtain ⟨hs, hss⟩ := List.forall_mem_cons.mp hclear
    rcases hs with hbefore | hafter
    · -- It ends before the first span, so it lies in the gap before that.
      refine ⟨(cursor, s.1 - cursor), mem_sweep_cons.mpr (.inl ⟨by omega, rfl⟩), hcursor, ?_⟩
      rw [stop, stop]
      dsimp only
      omega
    · obtain ⟨u, hu, hle⟩ := hbehind
      have hlate : u ∈ ss := by
        refine (List.mem_cons.mp hu).resolve_left ?_
        rintro rfl
        rw [stop] at hafter
        omega
      obtain ⟨g, hg, hgap⟩ := ih (max_le hcursor hafter) hss ⟨u, hlate, hle⟩
      exact ⟨g, mem_sweep_cons.mpr (.inr hg), hgap⟩

/-- Gaps are in ascending order. -/
theorem pairwise_sweep : (sweep cursor spans).Pairwise fun g g' ↦ g.stop ≤ g'.1 := by
  induction spans generalizing cursor with
  | nil => exact .nil
  | cons s ss ih =>
    rw [sweep, List.pairwise_append]
    refine ⟨?_, ih, fun g hg g' hg' ↦ ?_⟩
    · split_ifs
      · exact List.pairwise_singleton _ _
      · exact .nil
    · split_ifs at hg with hlt
      · rw [List.mem_singleton.mp hg]
        refine le_trans ?_ (cursor_le hg')
        rw [stop, stop]
        dsimp only
        omega
      · exact absurd hg List.not_mem_nil

end Gaps

end SafeVault
