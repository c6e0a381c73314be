import SafeVault.Search.Walk

/-!
# The results of an advanced search

Which nodes a search returns, how often, and in what order.
-/

namespace SafeVault

namespace Search

open LeafTree (Place places placesAll labelsAbove Placed mem_placesAll mem_places)

variable {μ : Type} {q : AdvancedQuery} {settings : VaultSettings} {root u : Node μ} {p : List ℕ}

/-! ## The order -/

theorem ranksBefore_iff {a b : Int32 × SearchHit} : ranksBefore a b = true ↔
    b.1.toInt < a.1.toInt ∨ a.1 = b.1 ∧ a.2.path ≤ b.2.path := by
  rw [ranksBefore]
  split_ifs with h
  · rw [decide_eq_true_iff, Int32.lt_iff_toInt_lt]
    exact (or_iff_left fun h' ↦ h h'.1).symm
  · rw [not_ne_iff] at h
    rw [decide_eq_true_iff, and_iff_right h, h]
    exact (or_iff_right (Int.lt_irrefl _)).symm

theorem ranksBefore_trans (a b c : Int32 × SearchHit) (hab : ranksBefore a b = true)
    (hbc : ranksBefore b c = true) : ranksBefore a c = true := by
  rw [ranksBefore_iff] at hab hbc ⊢
  rcases hab with hab | ⟨hab, hpath⟩
  · rcases hbc with hbc | ⟨hbc, -⟩
    · exact .inl (Int.lt_trans hbc hab)
    · exact .inl (hbc ▸ hab)
  · rcases hbc with hbc | ⟨hbc, hpath'⟩
    · exact .inl (hab ▸ hbc)
    · exact .inr ⟨hab.trans hbc, List.le_trans hpath hpath'⟩

theorem ranksBefore_total (a b : Int32 × SearchHit) :
    (ranksBefore a b || ranksBefore b a) = true := by
  rw [Bool.or_eq_true, ranksBefore_iff, ranksBefore_iff]
  rcases Int.lt_trichotomy a.1.toInt b.1.toInt with h | h | h
  · exact .inr (.inl h)
  · have heq := Int32.toInt_inj.mp h
    rcases List.le_total a.2.path b.2.path with hpath | hpath
    · exact .inl (.inr ⟨heq, hpath⟩)
    · exact .inr (.inr ⟨heq.symm, hpath⟩)
  · exact .inl (.inl h)

/-! ## The hits -/

theorem mem_placesBelow {x : Place NodeHeader μ} :
    x ∈ placesAll [root.label] [] 0 root.children ↔
      ∃ p u, p ≠ [] ∧ root.get? p = some u ∧ x = ⟨p, labelsAbove root p, u⟩ := by
  rw [mem_placesAll fun _ _ _ _ _ ↦ mem_places]
  constructor
  · rintro ⟨j, c, hc, r, hpos, hget, habove⟩
    refine ⟨j :: r, x.node, nofun, (LeafTree.get?_cons hc).trans hget, ?_⟩
    rw [LeafTree.labelsAbove_cons hc, ← List.singleton_append (l := labelsAbove c r), ← habove]
    rw [Nat.zero_add, List.nil_append, List.singleton_append] at hpos
    rw [← hpos]
  · rintro ⟨_ | ⟨j, r⟩, u, hne, hget, rfl⟩
    · exact absurd rfl hne
    · obtain ⟨c, hc, hget⟩ := LeafTree.get?_cons_eq_some_iff.mp hget
      refine ⟨j, c, hc, r, ?_, hget, LeafTree.labelsAbove_cons hc⟩
      rw [Nat.zero_add, List.nil_append, List.singleton_append]

/-- What is a hit, with its score. -/
theorem mem_rankedHits {x : Int32 × SearchHit} : x ∈ rankedHits q settings root ↔
    ∃ p u, p ≠ [] ∧ root.get? p = some u ∧
      hitOf q settings ⟨p, labelsAbove root p, u⟩ = some x := by
  rw [rankedHits, List.mem_mergeSort, advSearchDfs_root, List.mem_filterMap]
  simp only [mem_placesBelow]
  constructor
  · rintro ⟨_, ⟨p, u, hne, hget, rfl⟩, hx⟩
    exact ⟨p, u, hne, hget, hx⟩
  · rintro ⟨p, u, hne, hget, hx⟩
    exact ⟨_, ⟨p, u, hne, hget, rfl⟩, hx⟩

theorem node_of_hitOf {x : Place NodeHeader μ} {hit : Int32 × SearchHit}
    (h : hitOf q settings x = some hit) : hit.2.node = x.position := by
  rw [hitOf] at h
  split_ifs at h
  obtain ⟨score, -, rfl⟩ := Option.map_eq_some_iff.mp h
  rfl

/-- No node is hit twice. -/
theorem nodup_rankedHits : ((rankedHits q settings root).map (·.2.node)).Nodup := by
  have hplaces : ((placesAll [root.label] [] 0 root.children).map (·.position)).Nodup :=
    LeafTree.nodup_placesAll fun _ _ _ ↦ LeafTree.nodup_places
  rw [rankedHits, advSearchDfs_root, ((List.mergeSort_perm _ _).map _).nodup_iff, List.Nodup,
    List.pairwise_map]
  rw [List.Nodup, List.pairwise_map] at hplaces
  refine hplaces.filterMap _ fun x y hne a ha b hb ↦ ?_
  rw [node_of_hitOf ha, node_of_hitOf hb]
  exact hne

/-- What is a result, whatever its place in the order. -/
theorem mem_map_rankedHits {hit : SearchHit} :
    hit ∈ (rankedHits q settings root).map (·.2) ↔ ∃ p u, p ≠ [] ∧ root.get? p = some u ∧
      inScope u.isGallery q.scope = true ∧ Matches q u.label.name (Searchable root settings p) ∧
      hit =
        { path := pathAt root p u
          isGallery := u.isGallery
          name := u.label.name
          effectiveTags := computeEffectiveTags u.label.tags (inheritedTags (labelsAbove root p))
          node := p } := by
  rw [List.mem_map]
  constructor
  · rintro ⟨⟨score, hit⟩, hmem, rfl⟩
    obtain ⟨p, u, hne, hget, hhit⟩ := mem_rankedHits.mp hmem
    obtain ⟨hscope, hmatches, -, rfl⟩ := (hitOf_eq_some_iff hget).mp hhit
    exact ⟨p, u, hne, hget, hscope, hmatches, rfl⟩
  · rintro ⟨p, u, hne, hget, hscope, hmatches, rfl⟩
    exact ⟨_, mem_rankedHits.mpr ⟨p, u, hne, hget,
      (hitOf_eq_some_iff hget).mpr ⟨hscope, hmatches, rfl, rfl⟩⟩, rfl⟩

/-- The score of a result is its rank. -/
theorem score_of_mem_rankedHits {x : Int32 × SearchHit} (h : x ∈ rankedHits q settings root) :
    x.1 = Int32.ofInt (rank q (Searchable root settings x.2.node)) := by
  obtain ⟨p, u, -, hget, hhit⟩ := mem_rankedHits.mp h
  obtain ⟨score, hit⟩ := x
  obtain ⟨-, -, rfl, rfl⟩ := (hitOf_eq_some_iff hget).mp hhit
  rfl

/-- Results are in order. -/
theorem pairwise_rankedHits : ((rankedHits q settings root).map (·.2)).Pairwise fun a b ↦
    Int32.ofInt (rank q (Searchable root settings b.node)) <
      Int32.ofInt (rank q (Searchable root settings a.node)) ∨
    Int32.ofInt (rank q (Searchable root settings a.node)) =
      Int32.ofInt (rank q (Searchable root settings b.node)) ∧ a.path ≤ b.path := by
  have hsorted : (rankedHits q settings root).Pairwise fun a b ↦ ranksBefore a b = true :=
    List.pairwise_mergeSort ranksBefore_trans ranksBefore_total _
  rw [List.pairwise_map]
  refine hsorted.imp_of_mem fun {a b} ha hb hab ↦ ?_
  rw [← score_of_mem_rankedHits ha, ← score_of_mem_rankedHits hb, Int32.lt_iff_toInt_lt]
  exact ranksBefore_iff.mp hab

end Search

/-! ## What a search returns -/

open Search in
/-- A node is a result when it is in scope and the formula of the query holds at it. -/
theorem Vault.mem_runSearch {μ : Type} {q : AdvancedQuery} {v : Vault μ} (hopen : v.unlocked = true)
    {p : List ℕ} : p ∈ (v.runSearch q).map (·.node) ↔ p ≠ [] ∧ ∃ u, v.root.get? p = some u ∧
      inScope u.isGallery q.scope = true ∧
      Matches q u.label.name (Searchable v.root v.settings p) := by
  have hresults : v.runSearch q = (rankedHits q v.settings v.root).map (·.2) := by
    rw [Vault.runSearch, hopen]
    rfl
  rw [hresults, List.mem_map]
  constructor
  · rintro ⟨hit, hmem, rfl⟩
    obtain ⟨p, u, hne, hget, hscope, hmatches, rfl⟩ := mem_map_rankedHits.mp hmem
    exact ⟨hne, u, hget, hscope, hmatches⟩
  · rintro ⟨hne, u, hget, hscope, hmatches⟩
    exact ⟨_, mem_map_rankedHits.mpr ⟨p, u, hne, hget, hscope, hmatches, rfl⟩, rfl⟩

open Search in
/-- **The results of an advanced search.** A node below the root is a result exactly when it is in
scope and the formula of the query holds of its searchable tags, and then it is one once, under its
own path and name. The results are ordered by descending score, a rank as a machine integer, and by
ascending path where the score is the same; so they are ordered by rank if the ranks fit. -/
theorem Vault.runSearch_exact {μ : Type} (q : AdvancedQuery) (v : Vault μ)
    (hopen : v.unlocked = true) :
    let results := v.runSearch q
    let rankOf (hit : SearchHit) := rank q (Searchable v.root v.settings hit.node)
    (results.map (·.node)).Nodup ∧
    (∀ p, p ∈ results.map (·.node) ↔ p ≠ [] ∧ ∃ u, v.root.get? p = some u ∧
      inScope u.isGallery q.scope = true ∧
      Matches q u.label.name (Searchable v.root v.settings p)) ∧
    (∀ hit ∈ results, ∃ u, v.root.get? hit.node = some u ∧ hit.isGallery = u.isGallery ∧
      hit.name = u.label.name ∧ hit.path = pathAt v.root hit.node u) ∧
    results.Pairwise (fun a b ↦ Int32.ofInt (rankOf b) < Int32.ofInt (rankOf a) ∨
      Int32.ofInt (rankOf a) = Int32.ofInt (rankOf b) ∧ a.path ≤ b.path) ∧
    ((∀ hit ∈ results, -2 ^ 31 ≤ rankOf hit ∧ rankOf hit < 2 ^ 31) →
      results.Pairwise fun a b ↦ rankOf b < rankOf a ∨ rankOf a = rankOf b ∧ a.path ≤ b.path) := by
  intro results rankOf
  have hresults : results = (rankedHits q v.settings v.root).map (·.2) := by
    rw [show results = v.runSearch q from rfl, Vault.runSearch, hopen]
    rfl
  refine ⟨?_, fun p ↦ Vault.mem_runSearch hopen, ?_⟩
  · rw [hresults, List.map_map]
    exact nodup_rankedHits
  rw [hresults]
  refine ⟨fun hit hmem ↦ ?_, pairwise_rankedHits, fun hfit ↦ ?_⟩
  · obtain ⟨p, u, -, hget, -, -, rfl⟩ := mem_map_rankedHits.mp hmem
    exact ⟨u, hget, rfl, rfl, rfl⟩
  · refine pairwise_rankedHits.imp_of_mem fun {a b} ha hb hab ↦ ?_
    have hint (hit : SearchHit) (hmem : hit ∈ (rankedHits q v.settings v.root).map (·.2)) :
        (Int32.ofInt (rankOf hit)).toInt = rankOf hit :=
      Int32.toInt_ofInt_of_le (hfit hit hmem).1 (hfit hit hmem).2
    rw [← Int32.toInt_inj, Int32.lt_iff_toInt_lt] at hab
    rwa [hint a ha, hint b hb] at hab

/-- A gallery is found by a tag of a picture in it, in the other case. -/
theorem Vault.runSearch_exact_one :
    let picture : Node Unit := .leaf { name := [112], tags := [[65]] } ()
    let root : Node Unit := .branch { name := [] } [.branch { name := [103] } [picture]]
    let v : Vault Unit := ⟨true, true, false, root, {}, [], ⟨root, {}, []⟩⟩
    [0] ∈ (v.runSearch { includes := [⟨[97], 3⟩] }).map (·.node) := by
  intro picture root v
  refine ((runSearch_exact { includes := [⟨[97], 3⟩] } v rfl).2.1 [0]).mpr
    ⟨nofun, .branch { name := [103] } [picture], rfl, rfl, nofun, .inr ?_, .inl rfl, .inl rfl⟩
  exact ⟨⟨[97], 3⟩, List.mem_cons_self, .inl ⟨[0, 0], picture, .inr ⟨[0], rfl⟩, rfl,
    List.mem_singleton.mpr (by decide)⟩⟩

end SafeVault
