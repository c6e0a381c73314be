import SafeVault.Duplicates.Scan
import SafeVault.Lib.Components

/-!
# What is alike

Two images are alike if few bits of their hashes differ, two videos if their lengths are close and enough of
their frames match, or their posters where too few frames are there to compare. What is alike, also by way
of others, is put into one cluster.

The clusters are the connected components of at least two elements of the graph of what is alike. So they
do not depend on the order in which images and videos come, but for the numbers that they have by it.
-/

namespace SafeVault

namespace Duplicates

open UnionFind (AreComponents CarriedBy Finds closeGraph)

variable {α : Type} {xs ys : List α} {alike : α → α → Bool}

/-- `cluster_similar` -/
def clusterSimilar (turns : ℕ) (hashes : List UInt64) (maxBits : ℤ) : Option (List (List ℕ)) :=
  UnionFind.clusters turns hashes.length fun i j ↦
    (hamming64 (hashes.getD i 0) (hashes.getD j 0) : ℤ) ≤ maxBits

/-- `cluster_video_sigs`, where every signature has a duration. -/
def clusterVideoSigs (E : ScanEnv) (turns : ℕ) (sigs : List VideoSig) (durationUs : List UInt64) :
    Option (List (List ℕ)) :=
  UnionFind.clusters turns sigs.length fun i j ↦
    durationClose E (durationUs.getD i 0) (durationUs.getD j 0) &&
      videoSigMatch (sigs.getD i {}) (sigs.getD j {})

/-! ## Alike is alike in both directions -/

theorem hamming64_comm (a b : UInt64) : hamming64 a b = hamming64 b a := by
  rw [hamming64, hamming64, UInt64.xor_comm]

theorem durationClose_comm (E : ScanEnv) (a b : UInt64) : durationClose E a b = durationClose E b a := by
  have hmax : max a b = max b a := by
    change (if a ≤ b then b else a) = if b ≤ a then a else b
    split_ifs with hab hba hba
    · exact UInt64.le_antisymm hba hab
    · rfl
    · rfl
    · exact absurd ((UInt64.le_total a b).resolve_left hab) hba
  have hmin : min a b = min b a := by
    change (if a ≤ b then a else b) = if b ≤ a then b else a
    split_ifs with hab hba hba
    · exact UInt64.le_antisymm hab hba
    · rfl
    · rfl
    · exact absurd ((UInt64.le_total a b).resolve_left hab) hba
  rw [durationClose, durationClose, hmax, hmin]

theorem videoSigMatch_comm (a b : VideoSig) : videoSigMatch a b = videoSigMatch b a := by
  rw [videoSigMatch, videoSigMatch, UInt32.and_comm]
  simp only [hamming64_comm a.posterHash, Bool.and_comm a.posterOk, hamming64_comm (a.frameHash.getD _ 0)]

/-! ## The graph of what is alike -/

/-- The places in a list, with an edge between two where what is there is alike. -/
def matchGraph (xs : List α) (alike : α → α → Bool) : SimpleGraph (Fin xs.length) :=
  .fromRel fun i j ↦ alike (xs.get i) (xs.get j) = true

/-- The pairs that a clustering looks at are the places in the list. -/
theorem closeGraph_eq_matchGraph (close : ℕ → ℕ → Bool) (xs : List α) (alike : α → α → Bool)
    (h : ∀ i j (hi : i < xs.length) (hj : j < xs.length), close i j = alike xs[i] xs[j]) :
    closeGraph xs.length close = matchGraph xs alike := by
  ext i j
  rw [closeGraph, matchGraph, SimpleGraph.fromRel_adj, SimpleGraph.fromRel_adj, h i j i.isLt j.isLt,
    h j i j.isLt i.isLt]
  rfl

/-- A renaming of the places that keeps what is there keeps the edges. -/
def renameIso (σ : Fin xs.length ≃ Fin ys.length) (h : ∀ i, ys.get (σ i) = xs.get i) (alike : α → α → Bool) :
    matchGraph xs alike ≃g matchGraph ys alike where
  toEquiv := σ
  map_rel_iff' := by
    intro i j
    rw [matchGraph, matchGraph, SimpleGraph.fromRel_adj, SimpleGraph.fromRel_adj, h i, h j, σ.injective.ne_iff]

/-- The hashes differ in so few bits. -/
def similar (maxBits : ℤ) (a b : UInt64) : Bool := (hamming64 a b : ℤ) ≤ maxBits

/-- The durations are close and the signatures match. -/
def sameVideo (E : ScanEnv) (a b : VideoSig × UInt64) : Bool := durationClose E a.2 b.2 && videoSigMatch a.1 b.1

theorem finds_clusterSimilar (hashes : List UInt64) (maxBits : ℤ) :
    ∃ cs, Finds (clusterSimilar · hashes maxBits) (matchGraph hashes (similar maxBits)) cs := by
  rw [← closeGraph_eq_matchGraph (fun i j ↦ (hamming64 (hashes.getD i 0) (hashes.getD j 0) : ℤ) ≤ maxBits)]
  · refine UnionFind.finds_clusters fun i j ↦ ?_
    rw [hamming64_comm]
  · intro i j hi hj
    rw [List.getD_eq_getElem _ _ hi, List.getD_eq_getElem _ _ hj, similar]

theorem finds_clusterVideoSigs (E : ScanEnv) (videos : List (VideoSig × UInt64)) :
    ∃ cs, Finds (clusterVideoSigs E · (videos.map Prod.fst) (videos.map Prod.snd))
      (matchGraph videos (sameVideo E)) cs := by
  rw [← closeGraph_eq_matchGraph fun i j ↦
    durationClose E ((videos.map Prod.snd).getD i 0) ((videos.map Prod.snd).getD j 0) &&
      videoSigMatch ((videos.map Prod.fst).getD i {}) ((videos.map Prod.fst).getD j {})]
  · simp only [clusterVideoSigs, List.length_map]
    refine UnionFind.finds_clusters fun i j ↦ ?_
    rw [durationClose_comm, videoSigMatch_comm]
  · intro i j hi hj
    have hlen {β : Type} (f : VideoSig × UInt64 → β) {k : ℕ} (hk : k < videos.length) :
        k < (videos.map f).length := by rwa [List.length_map]
    rw [List.getD_eq_getElem _ _ (hlen _ hi), List.getD_eq_getElem _ _ (hlen _ hj),
      List.getD_eq_getElem _ _ (hlen _ hi), List.getD_eq_getElem _ _ (hlen _ hj)]
    simp only [List.getElem_map, sameVideo]

/-- What is found in a list is found in every list of the same elements, by their numbers there. -/
theorem carriedBy_of_finds {run run' : ℕ → Option (List (List ℕ))} {cs ds : List (List ℕ)}
    (σ : Fin xs.length ≃ Fin ys.length) (h : ∀ i, ys.get (σ i) = xs.get i)
    (hcs : Finds run (matchGraph xs alike) cs) (hds : Finds run' (matchGraph ys alike) ds) : CarriedBy σ cs ds :=
  hcs.2.rename hds.2 (renameIso σ h alike)

/-- **Clusters are connected components.** Both searches end with the components of at least two elements,
each sorted and none with an element of another, and in another order they find the same ones. -/
theorem clusters_components (E : ScanEnv) :
    (∀ hashes maxBits, ∃ cs, Finds (clusterSimilar · hashes maxBits) (matchGraph hashes (similar maxBits)) cs ∧
      ∀ hashes' (σ : Fin hashes.length ≃ Fin hashes'.length), (∀ i, hashes'.get (σ i) = hashes.get i) →
        ∃ ds, Finds (clusterSimilar · hashes' maxBits) (matchGraph hashes' (similar maxBits)) ds ∧
          CarriedBy σ cs ds) ∧
    ∀ videos : List (VideoSig × UInt64), ∃ cs,
      Finds (clusterVideoSigs E · (videos.map Prod.fst) (videos.map Prod.snd)) (matchGraph videos (sameVideo E)) cs ∧
      ∀ videos' (σ : Fin videos.length ≃ Fin videos'.length), (∀ i, videos'.get (σ i) = videos.get i) →
        ∃ ds, Finds (clusterVideoSigs E · (videos'.map Prod.fst) (videos'.map Prod.snd))
          (matchGraph videos' (sameVideo E)) ds ∧ CarriedBy σ cs ds := by
  refine ⟨fun hashes maxBits ↦ ?_, fun videos ↦ ?_⟩
  · obtain ⟨cs, hcs⟩ := finds_clusterSimilar hashes maxBits
    refine ⟨cs, hcs, fun hashes' σ h ↦ ?_⟩
    obtain ⟨ds, hds⟩ := finds_clusterSimilar hashes' maxBits
    exact ⟨ds, hds, carriedBy_of_finds σ h hcs hds⟩
  · obtain ⟨cs, hcs⟩ := finds_clusterVideoSigs E videos
    refine ⟨cs, hcs, fun videos' σ h ↦ ?_⟩
    obtain ⟨ds, hds⟩ := finds_clusterVideoSigs E videos'
    exact ⟨ds, hds, carriedBy_of_finds σ h hcs hds⟩

/-- Three hashes and the same ones backwards. -/
theorem clusters_components_backwards :
    let E : ScanEnv := ⟨fun _ ↦ false, fun _ ↦ .failed, fun _ ↦ .failed, fun _ ↦ .failed, fun _ ↦ none, (· / 50)⟩
    ∃ cs ds, Finds (clusterSimilar · [0, 1, 255] 5) (matchGraph [0, 1, 255] (similar 5)) cs ∧
      Finds (clusterSimilar · [255, 1, 0] 5) (matchGraph [255, 1, 0] (similar 5)) ds ∧
      CarriedBy (Fin.revPerm : Fin 3 ≃ Fin 3) cs ds ∧
      ∃ es, Finds (clusterVideoSigs E · [] []) (matchGraph [] (sameVideo E)) es := by
  intro E
  obtain ⟨hsimilar, hvideos⟩ := clusters_components E
  obtain ⟨cs, hcs, hother⟩ := hsimilar [0, 1, 255] 5
  obtain ⟨ds, hds, hcarried⟩ := hother [255, 1, 0] Fin.revPerm (by decide)
  obtain ⟨es, hes, -⟩ := hvideos []
  exact ⟨cs, ds, hcs, hds, hcarried, es, hes⟩

end Duplicates

end SafeVault
