import SafeVault.Duplicates.Scan

/-!
# The groups of a scan are apart

An item is in at most one group. The buckets of one pass are apart because they are selected by
different keys or by different roots, from a list of places without repetitions; the groups of
different passes are apart because the later passes leave out what is in a group of the first one, and
one of them takes images only and the other one videos only.

In a vault where the children of every gallery have different names, different items have different
paths, also when slashes that do not count are left out.
-/

namespace SafeVault

namespace Duplicates

variable {before : IndexNode → IndexNode → Bool} {root : IndexNode} {E : ScanEnv}
  {items : List DupScanItem} {P Q : ℕ → Prop} {groups groups' : List DupGroup}
  {turns looks looks' : ℕ} {perceptual : Bool} {inExact : List ℕ} {out out' : DupScanOutcome}

/-! ## The paths of the items -/

/-- The children of every gallery have different names that can be segments of a path. -/
def WellNamed (t : IndexNode) : Prop :=
  t.All (fun _ cs ↦ (cs.map fun c ↦ c.label.name).Nodup ∧
    ∀ c ∈ cs, c.label.name ≠ [] ∧ slash ∉ c.label.name) fun _ _ ↦ True

theorem splitPath_childPath {path name : Bytes} (hne : name ≠ []) (hslash : slash ∉ name) :
    splitPath (childPath path name) = splitPath path ++ [name] := by
  rw [childPath]
  split_ifs with hempty
  · rw [List.isEmpty_iff.mp hempty, splitPath_of_slash_not_mem hslash hne]
    rfl
  · rw [List.append_assoc, List.singleton_append, splitPath_append_slash,
      splitPath_of_slash_not_mem hslash hne]

theorem list_wellNamed (before : IndexNode → IndexNode → Bool) (h : WellNamed root)
    (path : Bytes) :
    ((list before root path).map fun c ↦ c.label.name).Nodup ∧
      ∀ c ∈ list before root path, c.label.name ≠ [] ∧ slash ∉ c.label.name := by
  rw [list]
  rcases hg : (resolveGallery root path).bind root.get? with _ | g
  · exact ⟨List.nodup_nil, fun _ hc ↦ absurd hc List.not_mem_nil⟩
  · obtain ⟨p, -, hget⟩ := Option.bind_eq_some_iff.mp hg
    have hperm := g.children.mergeSort_perm before
    rcases g with ⟨n, cs⟩ | ⟨n, m⟩
    · obtain ⟨⟨hnodup, hnames⟩, -⟩ := LeafTree.all_branch.mp (LeafTree.All.get? h hget)
      exact ⟨((hperm.map _).nodup_iff).mpr hnodup, fun c hc ↦ hnames c (hperm.mem_iff.mp hc)⟩
    · refine ⟨((hperm.map _).nodup_iff).mpr List.nodup_nil, fun c hc ↦ ?_⟩
      exact absurd (hperm.mem_iff.mp hc) List.not_mem_nil

/-- The segments on the way to an item. -/
def segments (it : DupScanItem) : List Bytes := splitPath it.nodePath

theorem segments_itemOf (path : Bytes) (label : NodeHeader) (media : Media) :
    segments (itemOf path label media) = splitPath (childPath path label.name) := by
  rcases media with img | vid
  · rfl
  · rfl

/-- **Every item of a gallery** is below it. -/
theorem prefix_segments_of_mem_walk (h : WellNamed root) {fuel : ℕ} {path : Bytes}
    {it : DupScanItem} (hit : it ∈ walk before root fuel path) :
    splitPath path <+: segments it := by
  induction fuel generalizing path with
  | zero => exact absurd hit List.not_mem_nil
  | succ fuel ih =>
    obtain ⟨c, hc, hit⟩ := List.mem_flatMap.mp hit
    obtain ⟨hne, hslash⟩ := (list_wellNamed before h path).2 c hc
    have hchild : splitPath path <+: splitPath (childPath path c.label.name) := by
      rw [splitPath_childPath hne hslash]
      exact List.prefix_append _ _
    rcases c with ⟨label, cs⟩ | ⟨label, media⟩
    · exact hchild.trans (ih hit)
    · obtain rfl := List.mem_singleton.mp hit
      rwa [segments_itemOf]

/-- What a walk finds at and below a child. -/
def walkChild (before : IndexNode → IndexNode → Bool) (root : IndexNode) (fuel : ℕ) (path : Bytes)
    (c : IndexNode) : List DupScanItem :=
  match c with
  | .branch label _ => walk before root fuel (childPath path label.name)
  | .leaf label media => [itemOf path label media]

/-- **Different items** have different segments. -/
theorem nodup_segments_walk (h : WellNamed root) (fuel : ℕ) (path : Bytes) :
    ((walk before root fuel path).map segments).Nodup := by
  induction fuel generalizing path with
  | zero => exact List.nodup_nil
  | succ fuel ih =>
    obtain ⟨hnodup, hnames⟩ := list_wellNamed before h path
    rw [walk, List.map_flatMap]
    refine List.nodup_flatMap.mpr ⟨fun c _ ↦ ?_, ?_⟩
    · rcases c with ⟨label, cs⟩ | ⟨label, media⟩
      · exact ih _
      · exact List.nodup_singleton _
    · -- what is below a child starts with the name of the child
      have hbelow : ∀ c ∈ list before root path,
          ∀ segs ∈ (walkChild before root fuel path c).map segments, splitPath path ++ [c.label.name] <+: segs := by
        intro c hc segs hsegs
        obtain ⟨hne, hslash⟩ := hnames c hc
        rw [← splitPath_childPath hne hslash]
        obtain ⟨it, hit, rfl⟩ := List.mem_map.mp hsegs
        rcases c with ⟨label, cs⟩ | ⟨label, media⟩
        · exact prefix_segments_of_mem_walk h hit
        · obtain rfl := List.mem_singleton.mp hit
          rw [segments_itemOf]
          exact List.prefix_refl _
      refine (List.pairwise_map.mp hnodup).imp_of_mem fun {c d} hc hd hne segs hsegs hsegs' ↦ hne ?_
      have heq := List.prefix_of_prefix_length_le (hbelow c hc segs hsegs) (hbelow d hd segs hsegs')
        (by simp)
      have := heq.eq_of_length (by simp)
      exact List.singleton_inj.mp (List.append_cancel_left this)

theorem nodup_segments (h : WellNamed root) (scopePath : Bytes) :
    ((collectScanItems before root scopePath).map segments).Nodup := nodup_segments_walk h _ _

/-! ## Groups of places -/

/-- The groups have the members at some lists of places, none of them twice, and `P` holds of the
places. -/
def Grouped (items : List DupScanItem) (P : ℕ → Prop) (groups : List DupGroup) : Prop :=
  ∃ iss : List (List ℕ), groups.map DupGroup.members = iss.map (membersAt items) ∧
    iss.flatten.Nodup ∧ ∀ is ∈ iss, 2 ≤ is.length ∧ ∀ i ∈ is, i < items.length ∧ P i

theorem Grouped.nil (items : List DupScanItem) (P : ℕ → Prop) : Grouped items P [] :=
  ⟨[], rfl, List.nodup_nil, fun _ h ↦ absurd h List.not_mem_nil⟩

theorem Grouped.imp (h : Grouped items P groups) (hPQ : ∀ i, P i → Q i) :
    Grouped items Q groups := by
  obtain ⟨iss, hmem, hnodup, hall⟩ := h
  exact ⟨iss, hmem, hnodup, fun is his ↦ ⟨(hall is his).1, fun i hi ↦
    ⟨((hall is his).2 i hi).1, hPQ i ((hall is his).2 i hi).2⟩⟩⟩

/-- Groups of places of different kinds. -/
theorem Grouped.append (h : Grouped items P groups) (h' : Grouped items Q groups')
    (hPQ : ∀ i, P i → ¬ Q i) : Grouped items (fun i ↦ P i ∨ Q i) (groups ++ groups') := by
  obtain ⟨iss, hmem, hnodup, hall⟩ := h
  obtain ⟨jss, hmem', hnodup', hall'⟩ := h'
  refine ⟨iss ++ jss, ?_, ?_, fun is his ↦ ?_⟩
  · rw [List.map_append, List.map_append, hmem, hmem']
  · rw [List.flatten_append]
    refine List.Nodup.append hnodup hnodup' fun i hi hi' ↦ ?_
    obtain ⟨is, his, hi⟩ := List.mem_flatten.mp hi
    obtain ⟨js, hjs, hi'⟩ := List.mem_flatten.mp hi'
    exact hPQ i ((hall is his).2 i hi).2 ((hall' js hjs).2 i hi').2
  · rcases List.mem_append.mp his with his | his
    · exact ⟨(hall is his).1, fun i hi ↦ ⟨((hall is his).2 i hi).1, Or.inl ((hall is his).2 i hi).2⟩⟩
    · exact ⟨(hall' is his).1, fun i hi ↦
        ⟨((hall' is his).2 i hi).1, Or.inr ((hall' is his).2 i hi).2⟩⟩

/-- Groups of classes, where the places of the elements are given by a list without repetitions. -/
theorem grouped_clusters {places : List ℕ} {n : ℕ} {close : ℕ → ℕ → Bool} {cs : List (List ℕ)}
    (mk : List ℕ → DupGroup) (hmk : ∀ c, (mk c).members = membersAt items (Selection.pick places c))
    (hplaces : places.Nodup) (hP : ∀ i ∈ places, i < items.length ∧ P i)
    (hn : n = places.length) (hcs : UnionFind.clusters turns n close = some cs) :
    Grouped items P (cs.map mk) := by
  subst hn
  obtain ⟨hnodup, hall⟩ := UnionFind.nodup_clusters hcs
  refine ⟨cs.map (Selection.pick places), ?_, ?_, fun is his ↦ ?_⟩
  · rw [List.map_map, List.map_map]
    exact List.map_congr_left fun c _ ↦ hmk c
  · rw [Selection.flatten_map_pick]
    exact Selection.nodup_pick hplaces hnodup
  · obtain ⟨c, hc, rfl⟩ := List.mem_map.mp his
    obtain ⟨hlen, hlt⟩ := hall c hc
    exact ⟨(Selection.length_pick hlt).symm ▸ hlen, fun i hi ↦ hP i (Selection.mem_of_mem_pick hi)⟩

/-! ## The passes -/

/-- What a pass reads, it reads in order. -/
theorem sublist_passOver {α : Type} (E : ScanEnv) (read : ℕ → Outcome α) (is : List ℕ)
    (looks : ℕ) :
    ((passOver E read is looks).read.map Prod.fst).Sublist is := by
  induction is generalizing looks with
  | nil => exact List.Sublist.refl _
  | cons i is ih =>
    rw [passOver]
    split_ifs
    · exact List.nil_sublist _
    · rcases read i with _ | _ | a
      · exact List.nil_sublist _
      · exact (ih _).cons i
      · exact (ih _).cons_cons i

theorem map_fst_zipIdx (items : List DupScanItem) :
    ((items.zipIdx.map fun e ↦ (e.2, (e.1.isVideo, e.1.bytes))).map Prod.fst) =
      List.range items.length := by
  rw [List.map_map, List.range_eq_range', ← List.zipIdx_map_snd 0 items]
  rfl

/-- The candidates of the first pass. -/
theorem nodup_sizeBuckets (items : List DupScanItem) :
    (((sizeBuckets items).filter (2 ≤ ·.length)).flatten).Nodup ∧
      ∀ i ∈ ((sizeBuckets items).filter (2 ≤ ·.length)).flatten, i < items.length := by
  have hfst := map_fst_zipIdx items
  constructor
  · refine (Selection.nodup_flatten_buckets ?_).sublist List.filter_sublist.flatten
    exact hfst ▸ List.nodup_range
  · intro i hi
    obtain ⟨b, hb, hi⟩ := List.mem_flatten.mp hi
    have hmem := Selection.mem_of_mem_buckets (List.mem_of_mem_filter hb) hi
    exact List.mem_range.mp (hfst ▸ hmem)

/-- **The first pass** makes groups of the places that it marks. -/
theorem grouped_exactPass (E : ScanEnv) (items : List DupScanItem) (looks : ℕ) :
    Grouped items (· ∈ (exactPass E items looks).2.1) (exactPass E items looks).1.groups := by
  obtain ⟨hnodup, hlt⟩ := nodup_sizeBuckets items
  have hread := sublist_passOver E (atItem items (hashItem E))
    ((sizeBuckets items).filter (2 ≤ ·.length)).flatten looks
  rw [exactPass]
  dsimp only
  split_ifs
  · exact Grouped.nil _ _
  · refine ⟨_, by rw [List.map_map]; rfl, ?_, fun is his ↦ ?_⟩
    · exact (Selection.nodup_flatten_buckets (hnodup.sublist hread)).sublist
        List.filter_sublist.flatten
    · obtain ⟨hmem, hlen⟩ := List.mem_filter.mp his
      refine ⟨of_decide_eq_true hlen, fun i hi ↦ ⟨?_, List.mem_flatten_of_mem his hi⟩⟩
      exact hlt i (hread.subset (Selection.mem_of_mem_buckets hmem hi))

/-- The item at a place is not in a group yet and is a video, or not. -/
def Left (items : List DupScanItem) (inExact : List ℕ) (video : Bool) (i : ℕ) : Prop :=
  i ∉ inExact ∧ ∃ it, items[i]? = some it ∧ it.isVideo = video

theorem Left.lt {video : Bool} {i : ℕ} (h : Left items inExact video i) : i < items.length := by
  obtain ⟨-, it, hit, -⟩ := h
  exact (List.getElem?_eq_some_iff.mp hit).1

theorem left_of_mem_filter {video : Bool} {p : DupScanItem → Bool}
    (hp : ∀ it, p it = true → it.isVideo = video) {i : ℕ} {is : List ℕ}
    (hi : i ∈ is.filter fun i ↦ items[i]?.any p && !inExact.contains i) :
    Left items inExact video i := by
  obtain ⟨-, hi⟩ := List.mem_filter.mp hi
  obtain ⟨hkind, hfree⟩ := Bool.and_eq_true_iff.mp hi
  obtain ⟨it, hit, hkind⟩ := (Option.any_eq_true _ _).mp hkind
  refine ⟨fun hmem ↦ ?_, it, hit, hp it hkind⟩
  rw [List.contains_iff_mem.mpr hmem] at hfree
  exact Bool.false_ne_true hfree

/-- The outcome of a later pass is the outcome so far, and groups of places that are left. -/
def Adds (items : List DupScanItem) (inExact : List ℕ) (video : Bool) (out out' : DupScanOutcome) :
    Prop :=
  ∃ groups, out'.groups = out.groups ++ groups ∧ Grouped items (Left items inExact video) groups

theorem Adds.of_eq {video : Bool} (h : out'.groups = out.groups) :
    Adds items inExact video out out' :=
  ⟨[], by rw [h, List.append_nil], Grouped.nil _ _⟩

/-- **The pass over images** ends, and adds groups of images. -/
theorem perceptualPass_adds (E : ScanEnv) (items : List DupScanItem) (inExact : List ℕ)
    (perceptual : Bool) (out : DupScanOutcome) (looks : ℕ) :
    ∃ r, (∃ k, ∀ turns ≥ k, perceptualPass E items turns inExact perceptual out looks = some r) ∧
      Adds items inExact false out r.1 := by
  by_cases hperc : (!perceptual) = true
  · exact ⟨(out, looks), ⟨0, fun _ _ ↦ if_pos hperc⟩, Adds.of_eq rfl⟩
  · let candidates := (List.range items.length).filter fun i ↦
      (items[i]?.any fun it ↦ !it.isVideo && it.thumb.length != 0) && !inExact.contains i
    let pass := passOver E (atItem items E.thumbHash) candidates looks
    have hread : (pass.read.map Prod.fst).Sublist candidates := sublist_passOver _ _ _ _
    have hleft : ∀ i ∈ pass.read.map Prod.fst, Left items inExact false i := fun i hi ↦
      left_of_mem_filter (fun it hit ↦ (Bool.not_eq_true' _).mp (Bool.and_eq_true_iff.mp hit).1)
        (hread.subset hi)
    by_cases hcancel : pass.cancelled = true
    · refine ⟨({ out with skipped := out.skipped + pass.skipped, cancelled := pass.cancelled },
        pass.looks), ⟨0, fun _ _ ↦ ?_⟩, Adds.of_eq rfl⟩
      rw [perceptualPass, if_neg hperc]
      exact if_pos hcancel
    · obtain ⟨cs, k, hcs⟩ := UnionFind.clusters_ends (pass.read.map Prod.snd).length fun i j ↦
        hamming64 ((pass.read.map Prod.snd).getD i 0) ((pass.read.map Prod.snd).getD j 0) ≤
          dupSimilarMaxBits
      let groups := cs.map fun c ↦
        ({ kind := .similar
           distanceBits := maxDistance (pass.read.map Prod.snd) c
           members := membersAt items (Selection.pick (pass.read.map Prod.fst) c) } : DupGroup)
      refine ⟨({ out with
        groups := out.groups ++ groups, skipped := out.skipped + pass.skipped
        cancelled := pass.cancelled }, pass.looks), ⟨k, fun m hm ↦ ?_⟩, groups, rfl,
        grouped_clusters _ (fun _ ↦ rfl) ((List.nodup_range.filter _).sublist hread)
          (fun i hi ↦ ⟨(hleft i hi).lt, hleft i hi⟩) (by rw [List.length_map, List.length_map])
          (hcs k le_rfl)⟩
      rw [perceptualPass, if_neg hperc]
      refine (if_neg hcancel).trans ?_
      exact Option.bind_eq_some_iff.mpr ⟨cs, hcs m hm, rfl⟩

/-- Nothing is moved over what has still to be looked at. -/
theorem sublist_eraseIf (drop : List ℕ → ℕ → Bool) {k r w : ℕ} {v : List ℕ} (hwr : w ≤ r) :
    (eraseIf drop k r w v).Sublist (v.take w ++ v.drop r) := by
  induction k generalizing r w v with
  | zero => exact List.sublist_append_left _ _
  | succ k ih =>
    rw [eraseIf]
    rcases hx : v[r]? with _ | x
    · exact List.sublist_append_left _ _
    · obtain ⟨hr, hx⟩ := List.getElem?_eq_some_iff.mp hx
      have hdrop : v.drop r = x :: v.drop (r + 1) := by rw [List.drop_eq_getElem_cons hr, hx]
      dsimp only
      split_ifs
      · refine (ih (Nat.le_succ_of_le hwr)).trans ?_
        rw [hdrop]
        exact (List.Sublist.refl _).append (List.sublist_cons_self _ _)
      · have hw : w < v.length := hwr.trans_lt hr
        refine (ih (Nat.succ_le_succ hwr)).trans ?_
        rw [hdrop, List.drop_set_of_lt (Nat.lt_succ_of_le hwr), List.take_add_one,
          List.take_set_of_le le_rfl, List.getElem?_set_self hw]
        simp

theorem map_fst_frameStage {wants : ℕ → Bool} {xs : List ((ℕ × VideoSig) × ℕ)}
    {sigs : List (ℕ × VideoSig)} (h : frameStage E items wants xs looks = some sigs) :
    sigs.map Prod.fst = xs.map fun e ↦ e.1.1 := by
  induction xs generalizing looks sigs with
  | nil =>
    obtain rfl := Option.some.inj h
    rfl
  | cons x xs ih =>
    obtain ⟨⟨i, sig⟩, k⟩ := x
    rw [frameStage] at h
    split_ifs at h
    · obtain ⟨rest, hrest, rfl⟩ := Option.map_eq_some_iff.mp h
      rw [List.map_cons, ih hrest, List.map_cons]
    · obtain ⟨⟨hash, valid⟩, -, h⟩ := Option.bind_eq_some_iff.mp h
      obtain ⟨rest, hrest, h⟩ := Option.bind_eq_some_iff.mp h
      obtain rfl := Option.some.inj h
      rw [List.map_cons, ih hrest, List.map_cons]

/-- Two videos belong together. -/
def videosMatch (E : ScanEnv) (items : List DupScanItem) (sigs : List (ℕ × VideoSig)) (i j : ℕ) : Bool :=
  match sigs[i]?, sigs[j]? with
  | some a, some b =>
    durationClose E (durationOf items a.1) (durationOf items b.1) && videoSigMatch a.2 b.2
  | _, _ => false

/-- **The pass over videos** ends, and adds groups of videos. -/
theorem videoPerceptualPass_adds (E : ScanEnv) (items : List DupScanItem) (inExact : List ℕ)
    (perceptual : Bool) (out : DupScanOutcome) (looks : ℕ) :
    ∃ r, (∃ k, ∀ turns ≥ k,
        videoPerceptualPass E items turns inExact perceptual out looks = some r) ∧
      Adds items inExact true out r := by
  by_cases hperc : (!perceptual) = true
  · exact ⟨out, ⟨0, fun _ _ ↦ if_pos hperc⟩, Adds.of_eq rfl⟩
  by_cases hfew : (videoCandidates E items inExact).length < 2
  · refine ⟨out, ⟨0, fun _ _ ↦ ?_⟩, Adds.of_eq rfl⟩
    rw [videoPerceptualPass, if_neg hperc]
    exact if_pos hfew
  let posters := passOver E (atItem items (posterSig E)) (videoCandidates E items inExact) looks
  by_cases hcancel : posters.cancelled = true
  · refine ⟨{ out with cancelled := true }, ⟨0, fun _ _ ↦ ?_⟩, Adds.of_eq rfl⟩
    rw [videoPerceptualPass, if_neg hperc]
    exact (if_neg hfew).trans (if_pos hcancel)
  rcases hsigs : frameStage E items (wantsFrames E items posters.read) posters.read.zipIdx
      posters.looks with _ | sigs
  · refine ⟨{ out with cancelled := true }, ⟨0, fun m _ ↦ ?_⟩, Adds.of_eq rfl⟩
    rw [videoPerceptualPass, if_neg hperc]
    refine (if_neg hfew).trans ((if_neg hcancel).trans ?_)
    rw [hsigs]
  · -- the places of the candidates are those of videos that are left, in order
    have hplaces : (sigs.map Prod.fst).Sublist (videoCandidates E items inExact) := by
      have hmap : (posters.read.zipIdx.map fun e ↦ e.1.1) = posters.read.map Prod.fst := by
        rw [← List.zipIdx_map_fst 0 posters.read, List.map_map, List.zipIdx_map_fst]
        rfl
      rw [map_fst_frameStage hsigs, hmap]
      exact sublist_passOver _ _ _ _
    let cand := (List.range items.length).filter fun i ↦
      (items[i]?.any (·.isVideo)) && !inExact.contains i
    have hcand : (sigs.map Prod.fst).Sublist cand := hplaces.trans (sublist_eraseIf _ le_rfl)
    have hleft : ∀ i ∈ sigs.map Prod.fst, Left items inExact true i := fun i hi ↦
      left_of_mem_filter (fun _ hit ↦ hit) (hcand.subset hi)
    obtain ⟨cs, k, hcs⟩ := UnionFind.clusters_ends sigs.length (videosMatch E items sigs)
    let groups := cs.map fun c ↦
      ({ kind := .similarVideo
         members := membersAt items (Selection.pick (sigs.map Prod.fst) c) } : DupGroup)
    refine ⟨{ out with groups := out.groups ++ groups }, ⟨k, fun m hm ↦ ?_⟩, groups, rfl,
      grouped_clusters _ (fun _ ↦ rfl) ((List.nodup_range.filter _).sublist hcand)
        (fun i hi ↦ ⟨(hleft i hi).lt, hleft i hi⟩) (List.length_map _).symm (hcs k le_rfl)⟩
    rw [videoPerceptualPass, if_neg hperc]
    refine (if_neg hfew).trans ((if_neg hcancel).trans ?_)
    rw [hsigs]
    exact Option.bind_eq_some_iff.mpr ⟨cs, hcs m hm, rfl⟩

/-! ## The scan -/

/-- **Every scan ends**, and its groups are of different places, at least two each. -/
theorem runScan_ends (E : ScanEnv) (items : List DupScanItem) (perceptual : Bool) :
    ∃ out, (∃ k, ∀ turns ≥ k, runScan E items turns perceptual = some out) ∧
      Grouped items (fun _ ↦ True) out.groups := by
  obtain ⟨⟨out, inExact, looks⟩, hexact⟩ : ∃ r, exactPass E items 0 = r := ⟨_, rfl⟩
  have hfirst : Grouped items (· ∈ inExact) out.groups := by
    have := grouped_exactPass E items 0
    rwa [hexact] at this
  have htrue {P : ℕ → Prop} {groups : List DupGroup} (h : Grouped items P groups) :
      Grouped items (fun _ ↦ True) groups := h.imp fun _ _ ↦ trivial
  by_cases hcancel : out.cancelled = true
  · refine ⟨out, ⟨0, fun _ _ ↦ ?_⟩, htrue hfirst⟩
    rw [runScan, hexact]
    exact if_pos hcancel
  obtain ⟨⟨out', looks'⟩, ⟨k, hk⟩, gs, hgs, hgrouped⟩ :=
    perceptualPass_adds E items inExact perceptual out looks
  have hsecond := hfirst.append hgrouped fun i hi hleft ↦ hleft.1 hi
  rw [← hgs] at hsecond
  by_cases hcancel' : out'.cancelled = true
  · refine ⟨out', ⟨k, fun m hm ↦ ?_⟩, htrue hsecond⟩
    rw [runScan, hexact]
    refine (if_neg hcancel).trans (Option.bind_eq_some_iff.mpr ⟨_, hk m hm, ?_⟩)
    exact if_pos hcancel'
  obtain ⟨out'', ⟨l, hl⟩, gs', hgs', hgrouped'⟩ :=
    videoPerceptualPass_adds E items inExact perceptual out' looks'
  have hthird := hsecond.append hgrouped' fun i hi hleft ↦ by
    rcases hi with hi | ⟨-, it, hit, himage⟩
    · exact hleft.1 hi
    · obtain ⟨-, it', hit', hvideo⟩ := hleft
      obtain rfl := Option.some.inj (hit.symm.trans hit')
      exact Bool.false_ne_true (himage.symm.trans hvideo)
  rw [← hgs'] at hthird
  refine ⟨out'', ⟨max k l, fun m hm ↦ ?_⟩, htrue hthird⟩
  rw [runScan, hexact]
  refine (if_neg hcancel).trans
    (Option.bind_eq_some_iff.mpr ⟨_, hk m (le_of_max_le_left hm), ?_⟩)
  exact (if_neg hcancel').trans (hl m (le_of_max_le_right hm))

/-- The segments on the way to a member. -/
def DupMember.segments (m : DupMember) : List Bytes := splitPath m.nodePath

/-- No two members of the groups are at the same place in the vault, and every group has at least two
members. -/
structure Apart (groups : List DupGroup) : Prop where
  nodup : ((groups.flatMap DupGroup.members).map DupMember.segments).Nodup
  two_le : ∀ g ∈ groups, 2 ≤ g.members.length

/-- Every group has a duplicate. -/
theorem Grouped.two_le (h : Grouped items P groups) {g : DupGroup} (hg : g ∈ groups) :
    2 ≤ g.members.length := by
  obtain ⟨iss, hmem, -, hall⟩ := h
  have hg' : g.members ∈ iss.map (membersAt items) := hmem ▸ List.mem_map_of_mem hg
  obtain ⟨is, his, hg'⟩ := List.mem_map.mp hg'
  obtain ⟨hlen, hlt⟩ := hall is his
  rw [← hg', membersAt, List.length_map, Selection.length_pick fun i hi ↦ (hlt i hi).1]
  exact hlen

/-- **Different members of the groups** are at different places in the vault. -/
theorem Grouped.apart (h : Grouped items P groups) (hitems : (items.map segments).Nodup) :
    Apart groups := by
  obtain ⟨iss, hmem, hnodup, hall⟩ := h
  constructor
  · have hmap : (groups.flatMap DupGroup.members).map DupMember.segments =
        Selection.pick (items.map segments) iss.flatten := by
      rw [List.flatMap_def, hmem, ← Selection.map_pick, ← Selection.flatten_map_pick,
        List.map_flatten, List.map_flatten, List.map_map, List.map_map]
      exact congrArg List.flatten (List.map_congr_left fun is _ ↦ List.map_map ..)
    rw [hmap]
    exact Selection.nodup_pick hitems hnodup
  · exact fun g hg ↦ Grouped.two_le ⟨iss, hmem, hnodup, hall⟩ hg

end Duplicates

end SafeVault
