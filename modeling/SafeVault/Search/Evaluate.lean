import SafeVault.Search.Advanced
import Mathlib.Data.List.Infix

/-!
# What a query says

The formula of a query, over the set of tags that a node has for a search. The evaluation of the
query on a list of tags decides the formula for the set of tags that the list spells, whatever the
spelling, the order and the repetitions, and its score is the rank of the match as a machine integer.
-/

namespace SafeVault

namespace Search

open AsciiFold (fold lower equal)

/-! ## The formula -/

/-- A group holds of a set of tags; an empty group of every set. -/
def Holds (g : TagGroup) (T : Bytes → Prop) : Prop :=
  g.tags = [] ∨
    match g.combinator with
    | .and => ∀ t ∈ g.tags, T t
    | .or => ∃ t ∈ g.tags, T t

/-- The formula of a query, for a node with a name and a set of tags. -/
structure Matches (q : AdvancedQuery) (name : Bytes) (T : Bytes → Prop) : Prop where
  excludes : ∀ t ∈ q.excludes, ¬ T t
  includes : q.includes = [] ∨ ∃ t ∈ q.includes, T t.tag
  name : q.nameQuery = [] ∨ fold q.nameQuery <:+: fold name
  groups : q.groups = [] ∨
    match q.groupJoin with
    | .and => ∀ g ∈ q.groups, Holds g T
    | .or => ∃ g ∈ q.groups, Holds g T

open Classical in
/-- The relevance of a match: the weights of the include terms the set has, one for each of the
group tags it has, and two for a name. -/
noncomputable def rank (q : AdvancedQuery) (T : Bytes → Prop) : ℤ :=
  ((q.includes.filter fun t ↦ T t.tag).map (·.weight.toInt)).sum +
    ((q.groups.flatMap (·.tags)).filter fun t ↦ T t).length +
    if q.nameQuery = [] then 0 else 2

/-- The tags that a list spells. -/
def Spelled (tags : List Bytes) (tag : Bytes) : Prop := fold tag ∈ tags.map fold

variable {q : AdvancedQuery} {name tag : Bytes} {tags inherited : List Bytes} {k : Bytes}

/-! ## The parts of the evaluation -/

theorem tagPresent_iff : tagPresent tags tag = true ↔ Spelled tags tag := by
  simp only [tagPresent, List.any_eq_true, AsciiFold.equal_iff, Spelled, List.mem_map]

/-- A folded needle stands in a folded text at the place where the needle does. -/
theorem containsCi_iff {haystack needle : Bytes} :
    containsCi haystack needle = true ↔ fold needle <:+: fold haystack := by
  rw [containsCi, Bool.or_eq_true, Bool.and_eq_true, decide_eq_true_iff, List.any_eq_true,
    List.isEmpty_iff]
  constructor
  · rintro (rfl | ⟨-, i, -, hi⟩)
    · exact List.nil_infix
    · rw [AsciiFold.equal_iff] at hi
      rw [← hi]
      exact ((List.take_prefix _ _).isInfix.trans (List.drop_suffix _ _).isInfix).map lower
  · rintro ⟨front, back, h⟩
    have hlen := congrArg List.length h
    simp only [List.length_append, AsciiFold.length_fold] at hlen
    refine .inr ⟨by omega, front.length, List.mem_range.mpr (by omega), ?_⟩
    rw [AsciiFold.equal_iff, fold, List.map_take, List.map_drop, ← AsciiFold.length_fold needle]
    change ((fold haystack).drop _).take _ = _
    rw [← h, List.append_assoc, List.drop_left, List.take_left]

theorem groupHolds_iff {g : TagGroup} : groupHolds g tags = true ↔ Holds g (Spelled tags) := by
  rw [groupHolds, Holds]
  by_cases h : g.tags = []
  · simp [h]
  · rw [if_neg (by simpa using h)]
    rcases g.combinator with _ | _ <;> simp [h, tagPresent_iff]

theorem groupsPass_iff : groupsPass q tags = true ↔ q.groups = [] ∨
    match q.groupJoin with
    | .and => ∀ g ∈ q.groups, Holds g (Spelled tags)
    | .or => ∃ g ∈ q.groups, Holds g (Spelled tags) := by
  rw [groupsPass]
  by_cases h : q.groups = []
  · simp [h]
  · rw [if_neg (by simpa using h)]
    rcases q.groupJoin with _ | _ <;> simp [h, groupHolds_iff]

theorem excluded_iff : excluded q tags = true ↔ ∃ t ∈ q.excludes, Spelled tags t := by
  simp only [excluded, List.any_eq_true, tagPresent_iff]

/-- The loop over the include terms, from any score. -/
theorem foldl_addInclude {acc : Int32 × Bool} (terms : List WeightedTag) :
    terms.foldl (addInclude tags) acc =
    (acc.1 + Int32.ofInt ((terms.filter fun t ↦ tagPresent tags t.tag).map (·.weight.toInt)).sum,
      acc.2 || terms.any fun t ↦ tagPresent tags t.tag) := by
  induction terms generalizing acc with
  | nil => simp
  | cons t terms ih =>
    rw [List.foldl_cons, ih, addInclude, List.any_cons]
    by_cases h : tagPresent tags t.tag = true
    · have hfilter := List.filter_cons_of_pos (p := fun t : WeightedTag ↦ tagPresent tags t.tag)
        (l := terms) h
      rw [if_pos h, hfilter, List.map_cons, List.sum_cons, h, Int32.ofInt_add, Int32.ofInt_toInt,
        Int32.add_assoc, Bool.true_or, Bool.or_true]
    · have hfilter := List.filter_cons_of_neg (p := fun t : WeightedTag ↦ tagPresent tags t.tag)
        (l := terms) h
      rw [if_neg h, hfilter, Bool.eq_false_iff.mpr h, Bool.false_or]

theorem foldl_groupScore {score : Int32} (terms : List Bytes) :
    terms.foldl (fun score t ↦ if tagPresent tags t then score + groupTagScore else score) score =
      score + Int32.ofInt (terms.filter (tagPresent tags)).length := by
  induction terms generalizing score with
  | nil => simp
  | cons t terms ih =>
    rw [List.foldl_cons]
    by_cases h : tagPresent tags t = true
    · rw [if_pos h, ih, List.filter_cons_of_pos h, List.length_cons, Nat.cast_succ, Int.add_comm,
        Int32.ofInt_add, Int32.add_assoc, show Int32.ofInt 1 = groupTagScore from rfl]
    · rw [if_neg h, ih, List.filter_cons_of_neg h]

open Classical in
theorem rank_spelled : rank q (Spelled tags) =
    ((q.includes.filter fun t ↦ tagPresent tags t.tag).map (·.weight.toInt)).sum +
      ((q.groups.flatMap (·.tags)).filter (tagPresent tags)).length +
      if q.nameQuery = [] then 0 else 2 := by
  have hdecide (t : Bytes) : decide (Spelled tags t) = tagPresent tags t := by
    rw [Bool.eq_iff_iff, decide_eq_true_iff, tagPresent_iff]
  simp only [rank, hdecide]

/-- **Evaluation.** A list of tags is a match exactly when the formula holds of what it spells, and
then the score is the rank. -/
theorem evaluate_eq_some_iff {score : Int32} : evaluate q name tags = some score ↔
    Matches q name (Spelled tags) ∧ score = Int32.ofInt (rank q (Spelled tags)) := by
  have hinclude : (q.includes.isEmpty || q.includes.any fun t ↦ tagPresent tags t.tag) = true ↔
      q.includes = [] ∨ ∃ t ∈ q.includes, Spelled tags t.tag := by
    rw [Bool.or_eq_true, List.isEmpty_iff, List.any_eq_true]
    simp only [tagPresent_iff]
  have hname : (!q.nameQuery.isEmpty && !(!q.nameQuery.isEmpty && containsCi name q.nameQuery)) =
      true ↔ ¬ (q.nameQuery = [] ∨ fold q.nameQuery <:+: fold name) := by
    rw [← containsCi_iff]
    rcases q.nameQuery with _ | ⟨c, s⟩ <;> simp
  rw [evaluate, includeScore, foldl_addInclude, groupScore, foldl_groupScore, rank_spelled]
  by_cases hexcluded : excluded q tags = true
  · rw [if_pos hexcluded]
    refine iff_of_false nofun ?_
    rintro ⟨h, -⟩
    obtain ⟨t, ht, hpresent⟩ := excluded_iff.mp hexcluded
    exact h.excludes t ht hpresent
  rw [if_neg hexcluded]
  dsimp only
  by_cases hnamed : q.nameQuery = [] ∨ fold q.nameQuery <:+: fold name
  swap
  · rw [if_pos (hname.mpr hnamed)]
    exact iff_of_false nofun fun h ↦ hnamed h.1.name
  rw [if_neg fun h ↦ hname.mp h hnamed]
  by_cases hincluded : q.includes = [] ∨ ∃ t ∈ q.includes, Spelled tags t.tag
  swap
  · rw [if_pos (by rw [Bool.not_eq_true', Bool.eq_false_iff]; exact hinclude.not.mpr hincluded)]
    exact iff_of_false nofun fun h ↦ hincluded h.1.includes
  rw [hinclude.mpr hincluded, if_neg (by decide)]
  by_cases hgroups : groupsPass q tags = true
  swap
  · rw [if_pos (by simpa using hgroups)]
    exact iff_of_false nofun fun h ↦ hgroups (groupsPass_iff.mpr h.1.groups)
  rw [if_neg (by simpa using hgroups), Option.some_inj, eq_comm]
  have hmatches : Matches q name (Spelled tags) :=
    ⟨fun t ht hpresent ↦ hexcluded (excluded_iff.mpr ⟨t, ht, hpresent⟩), hincluded, hnamed,
      groupsPass_iff.mp hgroups⟩
  rw [and_iff_right hmatches, Int32.zero_add, Int32.zero_add]
  by_cases hempty : q.nameQuery = []
  · rw [if_neg (by simp [hempty]), if_pos hempty, Int.add_zero, Int32.ofInt_add]
  · have hhit : (!q.nameQuery.isEmpty && containsCi name q.nameQuery) = true := by
      simpa [hempty, containsCi_iff] using hnamed
    rw [if_pos hhit, if_neg hempty, Int32.ofInt_add, Int32.ofInt_add]
    rfl

end Search

end SafeVault
