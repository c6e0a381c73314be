import SafeVault.Lib.MachineSum
import SafeVault.Search.QueryCodec
import SafeVault.Search.Results

/-!
# Scores and the integers that hold them

The score of a match is the sum of the weights of the include terms that are present, and a little for
groups and names. A blob may give a term any weight of 32 bits, and the sums are made in an integer of
32 bits; nothing looks whether they fit. Here the additions of an evaluation are listed, and it is
said for which weights and tags none of them overflows. Then the score is the rank, and a search
whose terms fit at every node is ordered by rank.
-/

namespace SafeVault

namespace Search

open AsciiFold (fold)
open MachineSum (Fits Exact steps)

/-- The additions that `evaluate` makes, with their operands. The weights are added up before the
groups are looked at. -/
def additions (q : AdvancedQuery) (name : Bytes) (effective : List Bytes) : List (Int32 × Int32) :=
  if excluded q effective then []
  else
    let nameHit := !q.nameQuery.isEmpty && containsCi name q.nameQuery
    if !q.nameQuery.isEmpty && !nameHit then []
    else
      let included := includeScore q effective q.includes.isEmpty
      steps 0 ((q.includes.filter fun t ↦ tagPresent effective t.tag).map (·.weight)) ++
      if !included.2 then []
      else if !groupsPass q effective then []
      else
        let present := (q.groups.flatMap (·.tags)).filter (tagPresent effective)
        let groups := groupScore q effective
        steps 0 (present.map fun _ ↦ groupTagScore) ++ [(included.1, groups)] ++
          if nameHit then [(included.1 + groups, nameMatchScore)] else []

/-- No addition overflows, and the score is the rank. -/
structure ScoreExact (q : AdvancedQuery) (name : Bytes) (tags : List Bytes) : Prop where
  noOverflow : ∀ s ∈ additions q name tags, Exact s
  score : ∀ score, evaluate q name tags = some score → score.toInt = rank q (Spelled tags)

open Classical in
/-- The weights fit, for a node with a name and a set of tags: the sum of the first of the weights
that count, however many, and the rank of a match. A node that is excluded or has the wrong name is
not scored. -/
structure WeightsFit (q : AdvancedQuery) (name : Bytes) (T : Bytes → Prop) : Prop where
  weights : (∀ t ∈ q.excludes, ¬T t) → (q.nameQuery = [] ∨ fold q.nameQuery <:+: fold name) →
    ∀ k, Fits (((q.includes.filter fun t ↦ T t.tag).map (·.weight.toInt)).take k).sum
  rank : Matches q name T → rank q T < 2 ^ 31

variable {q : AdvancedQuery} {name : Bytes} {tags : List Bytes}

/-! ## The additions -/

/-- The weights that count, in the order of the terms. -/
def presentWeights (q : AdvancedQuery) (effective : List Bytes) : List Int32 :=
  (q.includes.filter fun t ↦ tagPresent effective t.tag).map (·.weight)

/-- How many group tags are present. -/
def presentGroupTags (q : AdvancedQuery) (effective : List Bytes) : ℕ :=
  ((q.groups.flatMap (·.tags)).filter (tagPresent effective)).length

theorem includeScore_eq (any : Bool) : includeScore q tags any =
    (Int32.ofInt ((presentWeights q tags).map (·.toInt)).sum,
      any || q.includes.any fun t ↦ tagPresent tags t.tag) := by
  rw [includeScore, foldl_addInclude, Int32.zero_add, presentWeights, List.map_map]
  rfl

theorem groupScore_eq : groupScore q tags = Int32.ofInt (presentGroupTags q tags) := by
  rw [groupScore, foldl_groupScore, Int32.zero_add, presentGroupTags]

theorem rank_eq : rank q (Spelled tags) = ((presentWeights q tags).map (·.toInt)).sum +
    presentGroupTags q tags + if q.nameQuery = [] then 0 else 2 := by
  rw [rank_spelled, presentWeights, List.map_map]
  rfl

/-- Whether an evaluation comes to the weights. -/
def Scored (q : AdvancedQuery) (name : Bytes) (T : Bytes → Prop) : Prop :=
  (∀ t ∈ q.excludes, ¬T t) ∧ (q.nameQuery = [] ∨ fold q.nameQuery <:+: fold name)

theorem additions_of_not_scored (h : ¬Scored q name (Spelled tags)) : additions q name tags = [] := by
  rw [additions]
  by_cases hexcluded : excluded q tags = true
  · exact if_pos hexcluded
  · rw [if_neg hexcluded]
    refine if_pos ?_
    have hclear : ∀ t ∈ q.excludes, ¬Spelled tags t :=
      fun t ht hpresent ↦ hexcluded (excluded_iff.mpr ⟨t, ht, hpresent⟩)
    have hname := fun hname ↦ h ⟨hclear, hname⟩
    rw [← containsCi_iff] at hname
    rcases hq : q.nameQuery with _ | ⟨c, s⟩
    · exact absurd (.inl hq) hname
    · have hmiss : containsCi name q.nameQuery = false := Bool.eq_false_iff.mpr fun h ↦ hname (.inr h)
      rw [hq] at hmiss
      simp [hmiss]

/-- The additions of an evaluation that comes to the weights. -/
theorem additions_of_scored (h : Scored q name (Spelled tags)) :
    additions q name tags = steps 0 (presentWeights q tags) ++
      if (q.includes.isEmpty || q.includes.any fun t ↦ tagPresent tags t.tag) && groupsPass q tags then
        steps 0 (List.replicate (presentGroupTags q tags) 1) ++
          [(Int32.ofInt ((presentWeights q tags).map (·.toInt)).sum,
            Int32.ofInt (presentGroupTags q tags))] ++
          if q.nameQuery = [] then [] else
            [(Int32.ofInt ((presentWeights q tags).map (·.toInt)).sum +
              Int32.ofInt (presentGroupTags q tags), 2)]
      else [] := by
  obtain ⟨hclear, hname⟩ := h
  have hexcluded : ¬excluded q tags = true := by
    rw [excluded_iff]
    rintro ⟨t, ht, hpresent⟩
    exact hclear t ht hpresent
  have hhit : (!q.nameQuery.isEmpty && containsCi name q.nameQuery) = !q.nameQuery.isEmpty := by
    rw [← containsCi_iff] at hname
    rcases hname with hname | hname
    · rw [hname]
      rfl
    · rw [hname, Bool.and_true]
  rw [additions, if_neg hexcluded]
  dsimp only
  rw [hhit, if_neg (by simp), includeScore_eq, groupScore_eq]
  have hones : ((q.groups.flatMap (·.tags)).filter (tagPresent tags)).map (fun _ ↦ groupTagScore) =
      List.replicate (presentGroupTags q tags) 1 := List.map_const'
  rw [hones, ← presentWeights]
  congr 1
  cases (q.includes.isEmpty || q.includes.any fun t ↦ tagPresent tags t.tag) with
  | false => rfl
  | true =>
    cases groupsPass q tags with
    | false => rfl
    | true =>
      rcases q.nameQuery with _ | ⟨c, s⟩
      · rfl
      · rfl

theorem matches_iff : Matches q name (Spelled tags) ↔ Scored q name (Spelled tags) ∧
    ((q.includes.isEmpty || q.includes.any fun t ↦ tagPresent tags t.tag) && groupsPass q tags) =
      true := by
  have hinclude : (q.includes.isEmpty || q.includes.any fun t ↦ tagPresent tags t.tag) = true ↔
      q.includes = [] ∨ ∃ t ∈ q.includes, Spelled tags t.tag := by
    rw [Bool.or_eq_true, List.isEmpty_iff, List.any_eq_true]
    simp only [tagPresent_iff]
  rw [Bool.and_eq_true, hinclude, groupsPass_iff]
  constructor
  · exact fun h ↦ ⟨⟨h.excludes, h.name⟩, h.includes, h.groups⟩
  · exact fun ⟨⟨hexcludes, hname⟩, hincludes, hgroups⟩ ↦ ⟨hexcludes, hincludes, hname, hgroups⟩

/-! ## When they are exact -/

/-- A query that can be saved has too few group tags for their number to overflow. -/
theorem presentGroupTags_lt (hq : q.Fits) : presentGroupTags q tags < 2 ^ 31 := by
  have hcount : (q.groups.map fun g ↦ g.tags.length).sum ≤ q.groups.length • Query.maxList := by
    rw [← List.length_map fun g : TagGroup ↦ g.tags.length]
    refine List.sum_le_card_nsmul _ _ fun n hn ↦ ?_
    obtain ⟨g, hg, rfl⟩ := List.mem_map.mp hn
    exact (hq.groups g hg).count
  have hpresent : presentGroupTags q tags ≤ (q.groups.map fun g ↦ g.tags.length).sum := by
    rw [presentGroupTags, ← List.length_flatMap]
    exact List.length_filter_le _ _
  have hgroups := hq.groupCount
  rw [Query.maxList] at *
  change _ ≤ q.groups.length * 4096 at hcount
  omega

open Classical in
theorem map_presentWeights_eq : (presentWeights q tags).map (·.toInt) =
    (q.includes.filter fun t ↦ Spelled tags t.tag).map (·.weight.toInt) := by
  have hdecide (t : WeightedTag) : decide (Spelled tags t.tag) = tagPresent tags t.tag := by
    rw [Bool.eq_iff_iff, decide_eq_true_iff, tagPresent_iff]
  rw [presentWeights, List.map_map]
  simp only [hdecide]
  rfl

/-- The additions of the weights are exact if all the sums of the first of them fit. -/
theorem exact_weights_iff : (∀ s ∈ steps 0 (presentWeights q tags), Exact s) ↔
    ∀ k, Fits (((presentWeights q tags).map (·.toInt)).take k).sum := by
  rw [MachineSum.exact_steps_iff]
  refine forall_congr' fun k ↦ ?_
  rw [Int32.toInt_zero, Int.zero_add, List.map_take]

/-- The sum of all the weights fits if those of the first ones do. -/
theorem fits_sum_weights (h : ∀ k, Fits (((presentWeights q tags).map (·.toInt)).take k).sum) :
    Fits ((presentWeights q tags).map (·.toInt)).sum := by
  have hall := h ((presentWeights q tags).map (·.toInt)).length
  rwa [List.take_length] at hall

/-- The additions after the weights are exact if the rank of the match fits. -/
theorem exact_rest_iff (hq : q.Fits)
    (hsum : Fits ((presentWeights q tags).map (·.toInt)).sum) :
    (∀ s ∈ steps 0 (List.replicate (presentGroupTags q tags) 1) ++
        [(Int32.ofInt ((presentWeights q tags).map (·.toInt)).sum,
          Int32.ofInt (presentGroupTags q tags))] ++
        if q.nameQuery = [] then [] else
          [(Int32.ofInt ((presentWeights q tags).map (·.toInt)).sum +
            Int32.ofInt (presentGroupTags q tags), 2)], Exact s) ↔
      rank q (Spelled tags) < 2 ^ 31 := by
  have hfew := @presentGroupTags_lt _ tags hq
  rw [rank_eq]
  generalize ((presentWeights q tags).map (·.toInt)).sum = z at *
  generalize presentGroupTags q tags = n at *
  have hn : Fits n := ⟨by omega, by omega⟩
  have hones : ∀ s ∈ steps 0 (List.replicate n 1), Exact s := by
    rw [MachineSum.exact_steps_iff]
    intro k
    rw [Int32.toInt_zero, Int.zero_add]
    exact MachineSum.fits_sum_replicate_one hfew
  have hmiddle : Exact (Int32.ofInt z, Int32.ofInt n) ↔ z + n < 2 ^ 31 := by
    rw [Exact, MachineSum.toInt_ofInt hsum, MachineSum.toInt_ofInt hn]
    exact ⟨And.right, fun h ↦ ⟨by have := hsum.1; omega, h⟩⟩
  simp only [List.forall_mem_append, List.forall_mem_singleton, hmiddle, and_iff_right hones]
  by_cases hname : q.nameQuery = []
  · simp [hname]
  · rw [if_neg hname, if_neg hname, List.forall_mem_singleton]
    have hlast (h : z + n < 2 ^ 31) : Exact (Int32.ofInt z + Int32.ofInt n, 2) ↔
        z + n + 2 < 2 ^ 31 := by
      have hfits : Fits (z + n) := ⟨by have := hsum.1; omega, h⟩
      rw [Exact, ← Int32.ofInt_add, MachineSum.toInt_ofInt hfits, show Int32.toInt 2 = 2 from rfl]
      exact ⟨And.right, fun h ↦ ⟨by have := hfits.1; omega, h⟩⟩
    constructor
    · rintro ⟨h, hexact⟩
      exact (hlast h).mp hexact
    · intro h
      have hless : z + n < 2 ^ 31 := by omega
      exact ⟨hless, (hlast hless).mpr h⟩

/-- **No addition overflows** exactly if the weights fit. -/
theorem forall_exact_iff (hq : q.Fits) :
    (∀ s ∈ additions q name tags, Exact s) ↔ WeightsFit q name (Spelled tags) := by
  by_cases hscored : Scored q name (Spelled tags)
  swap
  · rw [additions_of_not_scored hscored]
    refine iff_of_true nofun ⟨fun hclear hname ↦ absurd ⟨hclear, hname⟩ hscored, fun h ↦ ?_⟩
    exact absurd (matches_iff.mp h).1 hscored
  have hweights : WeightsFit q name (Spelled tags) ↔
      (∀ k, Fits (((presentWeights q tags).map (·.toInt)).take k).sum) ∧
        (Matches q name (Spelled tags) → rank q (Spelled tags) < 2 ^ 31) := by
    rw [map_presentWeights_eq]
    exact ⟨fun h ↦ ⟨h.weights hscored.1 hscored.2, h.rank⟩, fun h ↦ ⟨fun _ _ ↦ h.1, h.2⟩⟩
  rw [hweights, additions_of_scored hscored, List.forall_mem_append, exact_weights_iff]
  refine and_congr_right fun hfit ↦ ?_
  rw [matches_iff, and_iff_right hscored]
  by_cases hmatch : ((q.includes.isEmpty || q.includes.any fun t ↦ tagPresent tags t.tag) &&
    groupsPass q tags) = true
  · rw [if_pos hmatch, exact_rest_iff hq (fits_sum_weights hfit)]
    exact (imp_iff_right hmatch).symm
  · rw [if_neg hmatch]
    exact iff_of_true (by exact nofun) fun h ↦ absurd h hmatch

/-- A rank within the weights that fit is an integer of 32 bits. -/
theorem fits_rank (h : WeightsFit q name (Spelled tags)) (hm : Matches q name (Spelled tags)) :
    Fits (rank q (Spelled tags)) := by
  have hweights := h.weights hm.excludes hm.name
  rw [← map_presentWeights_eq] at hweights
  have hlow := (fits_sum_weights hweights).1
  refine ⟨?_, h.rank hm⟩
  rw [rank_eq]
  split_ifs <;> omega

/-- **A score is exact** exactly if the weights fit. -/
theorem scoreExact_iff (hq : q.Fits) :
    ScoreExact q name tags ↔ WeightsFit q name (Spelled tags) := by
  constructor
  · exact fun h ↦ (forall_exact_iff hq).mp h.noOverflow
  · intro h
    refine ⟨(forall_exact_iff hq).mpr h, fun score hscore ↦ ?_⟩
    obtain ⟨hm, rfl⟩ := evaluate_eq_some_iff.mp hscore
    exact MachineSum.toInt_ofInt (fits_rank h hm)

/-! ## The order of the results -/

/-- Where the weights fit at every node, the results are ordered by rank. -/
theorem pairwise_rank {μ : Type} {v : Vault μ} (hopen : v.unlocked = true)
    (hfit : ∀ p u, v.root.get? p = some u →
      WeightsFit q u.label.name (Searchable v.root v.settings p)) :
    (v.runSearch q).Pairwise fun a b ↦
      rank q (Searchable v.root v.settings b.node) < rank q (Searchable v.root v.settings a.node) ∨
      rank q (Searchable v.root v.settings a.node) = rank q (Searchable v.root v.settings b.node) ∧
        a.path ≤ b.path := by
  have hresults : v.runSearch q = (rankedHits q v.settings v.root).map (·.2) := by
    rw [Vault.runSearch, hopen]
    rfl
  have hint (hit : SearchHit) (hmem : hit ∈ (rankedHits q v.settings v.root).map (·.2)) :
      (Int32.ofInt (rank q (Searchable v.root v.settings hit.node))).toInt =
        rank q (Searchable v.root v.settings hit.node) := by
    obtain ⟨p, u, -, hget, -, hmatches, rfl⟩ := mem_map_rankedHits.mp hmem
    -- the tags that are searched are those of some list, which is what is evaluated
    have hspelled : _ = Searchable v.root v.settings p := spelled_searchable hget
    have hfits := hfit p u hget
    rw [← hspelled] at hfits hmatches ⊢
    exact MachineSum.toInt_ofInt (fits_rank hfits hmatches)
  rw [hresults]
  refine pairwise_rankedHits.imp_of_mem fun {a b} ha hb hab ↦ ?_
  rwa [← Int32.toInt_inj, Int32.lt_iff_toInt_lt, hint a ha, hint b hb] at hab

/-- **The score of an accepted query.** No addition of its evaluation overflows and the score is the
rank exactly if the weights fit; and a search whose weights fit at every node is ordered by rank. -/
theorem score_is_rank_iff {blob : Bytes} (hq : deserializeQuery blob = some q) :
    (∀ name tags, ScoreExact q name tags ↔ WeightsFit q name (Spelled tags)) ∧
    ∀ {μ : Type} (v : Vault μ), v.unlocked = true →
      (∀ p u, v.root.get? p = some u →
        WeightsFit q u.label.name (Searchable v.root v.settings p)) →
      (v.runSearch q).Pairwise fun a b ↦
        rank q (Searchable v.root v.settings b.node) <
          rank q (Searchable v.root v.settings a.node) ∨
        rank q (Searchable v.root v.settings a.node) =
          rank q (Searchable v.root v.settings b.node) ∧ a.path ≤ b.path :=
  ⟨fun _ _ ↦ scoreExact_iff (spelled_of_deserializeQuery hq).1,
    fun _ hopen hfit ↦ pairwise_rank hopen hfit⟩

/-- Two terms of the largest weight. -/
def heavyQuery : AdvancedQuery := { includes := [⟨[97], 0x7fffffff⟩, ⟨[98], 0x7fffffff⟩] }

theorem score_is_rank_heavy :
    ScoreExact heavyQuery [] [[97]] ↔ WeightsFit heavyQuery [] (Spelled [[97]]) :=
  (score_is_rank_iff (show deserializeQuery (serializeQuery heavyQuery) = some heavyQuery by
    decide +kernel)).1 [] [[97]]

/-- A node with both tags has a smaller score than one with one of them. -/
theorem score_overflows :
    deserializeQuery (serializeQuery heavyQuery) = some heavyQuery ∧
    evaluate heavyQuery [] [[97], [98]] = some (-2) ∧
    evaluate heavyQuery [] [[97]] = some 0x7fffffff ∧ ¬ScoreExact heavyQuery [] [[97], [98]] := by
  refine ⟨by decide +kernel, by decide +kernel, by decide +kernel, fun h ↦ ?_⟩
  have hexact : ∀ s ∈ additions heavyQuery [] [[97], [98]], Exact s := h.noOverflow
  exact absurd (hexact (0x7fffffff, 0x7fffffff) (by decide +kernel)) (by decide +kernel)

end Search

end SafeVault
