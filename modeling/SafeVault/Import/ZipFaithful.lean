import SafeVault.Import.ZipPlan
import Mathlib.Order.Lattice.Nat

/-!
# Faithful plans

A plan for the tree of an archive is faithful if it creates parents first, has a gallery for whatever
it places and for all that is above, places the supported entries once each and nothing else, under
safe names, and no two of them at the same place. The repair of names decides: it is not injective,
and its cut may leave the name of a device. Everything else holds of every plan.
-/

namespace SafeVault

namespace ZipPlan

variable {entries : List ZipEntry} {root dir g h cur : Bytes} {segs parts : List Bytes}

/-! ## Names with an extension -/

theorem dot_mem_of_extIn {name : Bytes} {exts : List Bytes} (h : extIn name exts = true) :
    46 ∈ name := by
  rw [extIn, Bool.and_eq_true, Bool.and_eq_true] at h
  exact List.contains_iff_mem.mp h.1.1

theorem dot_mem_of_isArchiveName {name : Bytes} (h : ArchiveNames.isArchiveName name = true) :
    46 ∈ name := by
  rw [ArchiveNames.isArchiveName, ArchiveNames.archiveExtensionOf] at h
  rcases hfind : ArchiveNames.archiveExts.find? (ArchiveNames.extensionIs (AsciiFold.fold name)) with
    _ | ext
  · rw [hfind] at h
    exact absurd h (by decide)
  · have hdot : ∀ ext ∈ ArchiveNames.archiveExts, 46 ∈ ext := by decide +kernel
    have his := List.find?_some hfind
    rw [ArchiveNames.extensionIs, Bool.and_eq_true, List.isSuffixOf_iff_suffix] at his
    obtain ⟨c, hc, hlower⟩ := List.mem_map.mp (his.2.subset (hdot ext (List.mem_of_find?_eq_some hfind)))
    -- Only a dot is folded to a dot.
    obtain rfl : c = 46 := by
      rw [AsciiFold.lower] at hlower
      split_ifs at hlower with hupper
      · have hnat := congrArg UInt8.toNat hlower
        simp only [UInt8.le_iff_toNat_le, UInt8.toNat_add, UInt8.reduceToNat] at hupper hnat
        omega
      · exact hlower
    exact hc

/-- A file that is placed, or may be an archive, has a safe name. -/
theorem isSafeNodeName_basenameOf {path : Bytes} (h : classify (basenameOf path) ≠ .unsupported) :
    isSafeNodeName (basenameOf path) = true := by
  have hdot : 46 ∈ basenameOf path := by
    rw [classify] at h
    split_ifs at h with hmedia harchive
    · rw [isSupportedMediaName, Bool.or_eq_true] at hmedia
      exact hmedia.elim dot_mem_of_extIn dot_mem_of_extIn
    · exact dot_mem_of_isArchiveName harchive
    · exact absurd rfl h
  rw [basenameOf, isSafeNodeName_sanitizeNodeName_iff, Bool.eq_false_iff]
  exact fun hdevice ↦ dot_not_mem_sanitizeNodeName hdevice hdot

/-! ## Folders above folders -/

theorem length_appendSegment (cur seg : Bytes) :
    (appendSegment cur seg).length = (if cur.isEmpty then 0 else cur.length + 1) + seg.length := by
  rw [appendSegment, List.length_append]
  split_ifs
  · rfl
  · rw [List.length_append, List.length_singleton]

theorem splitPath_appendSegment_isPrefix {seg : Bytes} (cur : Bytes) (hseg : slash ∉ seg) :
    splitPath cur <+: splitPath (appendSegment cur seg) := by
  rw [splitPath_appendSegment cur hseg]
  exact List.prefix_append _ _

/-- The folders added from one on are below it. -/
theorem below_of_mem_ancestorsFrom (hparts : ∀ s ∈ parts, slash ∉ s)
    (hg : g ∈ folder cur ++ ancestorsFrom cur parts) :
    cur.length ≤ g.length ∧ splitPath cur <+: splitPath g := by
  induction parts generalizing cur with
  | nil =>
    rw [ancestorsFrom, List.append_nil, folder] at hg
    split_ifs at hg
    · exact absurd hg List.not_mem_nil
    · obtain rfl := List.mem_singleton.mp hg
      exact ⟨le_rfl, List.prefix_rfl⟩
  | cons seg parts ih =>
    obtain ⟨hseg, hparts⟩ := List.forall_mem_cons.mp hparts
    rcases List.mem_append.mp hg with hg | hg
    · rw [folder] at hg
      split_ifs at hg
      · exact absurd hg List.not_mem_nil
      · obtain rfl := List.mem_singleton.mp hg
        exact ⟨le_rfl, List.prefix_rfl⟩
    · obtain ⟨hlen, hpre⟩ := ih hparts hg
      refine ⟨le_trans ?_ hlen, (splitPath_appendSegment_isPrefix cur hseg).trans hpre⟩
      rw [length_appendSegment]
      split_ifs with hempty
      · rw [List.isEmpty_iff.mp hempty]
        exact Nat.zero_le _
      · omega

/-- One folder is above another. -/
def Above (a b : Bytes) : Prop := a.length < b.length ∧ splitPath a <+: splitPath b

/-- **Longer and longer**: every folder added for a path is above those added after it. -/
theorem pairwise_ancestorsFrom (hparts : ∀ s ∈ parts, slash ∉ s) :
    (folder cur ++ ancestorsFrom cur parts).Pairwise Above := by
  induction parts generalizing cur with
  | nil =>
    rw [ancestorsFrom, List.append_nil, folder]
    split_ifs
    · exact .nil
    · exact List.pairwise_singleton _ _
  | cons seg parts ih =>
    obtain ⟨hseg, hparts⟩ := List.forall_mem_cons.mp hparts
    rw [ancestorsFrom, folder]
    split_ifs with hempty
    · exact ih hparts
    · refine List.pairwise_cons.mpr ⟨fun b hb ↦ ?_, ih hparts⟩
      obtain ⟨hlen, hpre⟩ := below_of_mem_ancestorsFrom hparts hb
      refine ⟨lt_of_lt_of_le ?_ hlen, (splitPath_appendSegment_isPrefix cur hseg).trans hpre⟩
      rw [length_appendSegment, if_neg hempty]
      omega

theorem slash_not_mem_of_mem_parts (dir : Bytes) : ∀ s ∈ slashPartsFrom [] dir, slash ∉ s :=
  fun _ hs ↦ slash_not_mem_of_mem_slashPartsFrom List.not_mem_nil hs

theorem below_or_above (hg : g ∈ ancestors dir) (hh : h ∈ ancestors dir) (hne : g ≠ h) :
    Above g h ∨ Above h g := by
  have hpairs : (ancestors dir).Pairwise fun a b ↦ Above a b ∨ Above b a :=
    (@pairwise_ancestorsFrom [] _ (slash_not_mem_of_mem_parts dir)).imp Or.inl
  have : Std.Symm fun a b ↦ Above a b ∨ Above b a := ⟨fun _ _ ↦ Or.symm⟩
  exact hpairs.forall hg hh hne

/-- What is above a folder that is added for a path is added, too, and is shorter. -/
theorem exists_shorter_ancestor (hg : g ∈ ancestors dir) (hne : segs ≠ [])
    (hpre : segs <+: splitPath g) (hproper : segs ≠ splitPath g) :
    ∃ h ∈ ancestors dir, splitPath h = segs ∧ h.length < g.length := by
  have hwhole := (exists_mem_ancestors_iff.mp ⟨g, hg, rfl⟩).2
  obtain ⟨h, hh, rfl⟩ := exists_mem_ancestors_iff.mpr ⟨hne, hpre.trans hwhole⟩
  refine ⟨h, hh, rfl, ?_⟩
  rcases below_or_above hh hg (fun heq ↦ hproper (congrArg splitPath heq)) with hbelow | habove
  · exact hbelow.1
  · exact absurd (hpre.eq_of_length_le habove.2.length_le) hproper

/-! ### The folders of the root -/

theorem slashPartsFrom_append (cur a b : Bytes) :
    slashPartsFrom cur (a ++ slash :: b) = slashPartsFrom cur a ++ slashPartsFrom [] b := by
  induction a generalizing cur with
  | nil => simp [slashPartsFrom]
  | cons c a ih =>
    rw [List.cons_append, slashPartsFrom, slashPartsFrom]
    split_ifs
    · rw [ih, List.cons_append]
    · exact ih _

theorem ancestorsFrom_append (cur : Bytes) (xs ys : List Bytes) :
    ancestorsFrom cur (xs ++ ys) = ancestorsFrom cur xs ++ ancestorsFrom (xs.foldl appendSegment cur) ys := by
  induction xs generalizing cur with
  | nil => rfl
  | cons x xs ih =>
    rw [List.cons_append, ancestorsFrom, ancestorsFrom, ih, List.append_assoc, List.foldl_cons]

theorem ancestors_subset (a b : Bytes) : ancestors a ⊆ ancestors (a ++ slash :: b) := by
  rw [ancestors, ancestors, slashPartsFrom_append, ancestorsFrom_append]
  exact List.subset_append_left _ _

/-- The length of a folder, with a slash behind it. -/
def room (cur : Bytes) : ℕ := if cur.isEmpty then 0 else cur.length + 1

theorem length_lt_of_mem_ancestorsFrom (hg : g ∈ folder cur ++ ancestorsFrom cur parts) :
    g.length < room cur + (parts.map (·.length + 1)).sum := by
  induction parts generalizing cur with
  | nil =>
    rw [ancestorsFrom, List.append_nil, folder] at hg
    rw [room]
    split_ifs at hg ⊢
    · exact absurd hg List.not_mem_nil
    · rw [List.mem_singleton.mp hg]
      exact Nat.lt_succ_self _
  | cons seg parts ih =>
    rw [List.map_cons, List.sum_cons]
    have hroom : room (appendSegment cur seg) ≤ room cur + (seg.length + 1) := by
      rw [room, room, length_appendSegment]
      split_ifs
      all_goals omega
    rcases List.mem_append.mp hg with hg | hg
    · rw [folder] at hg
      split_ifs at hg with hempty
      · exact absurd hg List.not_mem_nil
      · rw [List.mem_singleton.mp hg, room, if_neg hempty]
        omega
    · have := ih hg
      omega

theorem sum_slashPartsFrom (cur p : Bytes) :
    ((slashPartsFrom cur p).map (·.length + 1)).sum = cur.length + p.length + 1 := by
  induction p generalizing cur with
  | nil => rfl
  | cons c p ih =>
    rw [slashPartsFrom]
    split_ifs
    · rw [List.map_cons, List.sum_cons, ih, List.length_nil, List.length_cons]
      omega
    · rw [ih, List.length_append, List.length_singleton, List.length_cons]
      omega

theorem length_le_of_mem_ancestors (hg : g ∈ ancestors dir) : g.length ≤ dir.length := by
  have hlt := @length_lt_of_mem_ancestorsFrom g [] (slashPartsFrom [] dir) hg
  rw [sum_slashPartsFrom, room, List.length_nil] at hlt
  exact Nat.lt_succ_iff.mp (by simpa using hlt)

/-- What is above the root is shorter than the root as it is given. -/
theorem exists_shorter_of_root (hne : segs ≠ []) (hpre : segs <+: splitPath root)
    (hproper : segs ≠ splitPath root) :
    ∃ h ∈ ancestors root, splitPath h = segs ∧ h.length < root.length := by
  have hroot : splitPath root ≠ [] := fun hnil ↦ hne (List.prefix_nil.mp (hnil ▸ hpre))
  obtain ⟨r, hr, hsegs⟩ := exists_mem_ancestors_iff.mpr ⟨hroot, List.prefix_rfl⟩
  obtain ⟨h, hh, hsplit, hlt⟩ := exists_shorter_ancestor hr hne (hsegs ▸ hpre) (hsegs ▸ hproper)
  exact ⟨h, hh, hsplit, hlt.trans_le (length_le_of_mem_ancestors hr)⟩

/-! ## The order of the galleries -/

theorem galleryLe_total (a b : Bytes) : (galleryLe a b || galleryLe b a) = true := by
  rw [galleryLe, galleryLe]
  rcases lt_trichotomy a.length b.length with hlt | heq | hlt
  · simp [hlt]
  · rcases List.le_total a b with hab | hba
    · simp [heq, List.not_lt.mpr hab]
    · simp [heq, List.not_lt.mpr hba]
  · simp [hlt]

theorem length_le_of_galleryLe (h : galleryLe g k = true) : g.length ≤ k.length := by
  rw [galleryLe, Bool.or_eq_true, Bool.and_eq_true, decide_eq_true_iff, beq_iff_eq] at h
  exact h.elim Nat.le_of_lt fun h ↦ h.1.le

theorem galleryLe_trans (a b c : Bytes) (hab : galleryLe a b = true) (hbc : galleryLe b c = true) :
    galleryLe a c = true := by
  have hle := (length_le_of_galleryLe hab).trans (length_le_of_galleryLe hbc)
  rcases hle.lt_or_eq with hlt | heq
  · rw [galleryLe, decide_eq_true hlt, Bool.true_or]
  · have hab' : a.length = b.length :=
      le_antisymm (length_le_of_galleryLe hab) (heq ▸ length_le_of_galleryLe hbc)
    have hbc' : b.length = c.length := hab'.symm.trans heq
    simp only [galleryLe, hab', hbc', lt_irrefl, decide_false, Bool.false_or, beq_self_eq_true,
      Bool.true_and, Bool.not_eq_true', decide_eq_false_iff_not] at hab hbc ⊢
    exact List.not_lt.mpr (List.le_trans (List.not_lt.mp hab) (List.not_lt.mp hbc))

/-- A shorter gallery comes first. -/
theorem mem_before_of_length_lt {xs before after : List Bytes}
    (hsplit : xs.mergeSort galleryLe = before ++ g :: after) (hh : h ∈ xs)
    (hlt : h.length < g.length) : h ∈ before := by
  have hsorted := List.pairwise_mergeSort galleryLe_trans galleryLe_total xs
  rw [hsplit] at hsorted
  have hmem : h ∈ before ++ g :: after := hsplit ▸ List.mem_mergeSort.mpr hh
  rcases List.mem_append.mp hmem with hbefore | hrest
  · exact hbefore
  · rcases List.mem_cons.mp hrest with rfl | hafter
    · exact absurd hlt (lt_irrefl _)
    · have hle := (List.pairwise_cons.mp (List.pairwise_append.mp hsorted).2.1).1 h hafter
      exact absurd (length_le_of_galleryLe hle) (not_le.mpr hlt)

/-! ## Faithful plans -/

/-- An entry that the importer supports: a file other than the description of the archive, whose
repaired name has the extension of an image or of a video. -/
def Supported (entries : List ZipEntry) (i : ℕ) : Prop :=
  ∃ e, entries[i]? = some e ∧ entryIsDir e = false ∧ findMetaEntry entries ≠ some i ∧
    isSupportedMediaName (basenameOf e.path) = true

/-- A plan is faithful to a listing. Galleries are compared by the segments of their paths. -/
structure Faithful (entries : List ZipEntry) (plan : ZipPlan) : Prop where
  parentsFirst : ∀ before g after, plan.galleries = before ++ g :: after →
    ∀ segs ≠ [], segs <+: splitPath g → segs ≠ splitPath g → ∃ h ∈ before, splitPath h = segs
  present : ∀ p ∈ plan.placements ++ plan.nested, ∀ segs ≠ [], segs <+: splitPath p.galleryPath →
    ∃ g ∈ plan.galleries, splitPath g = segs
  once : (plan.placements.map (·.entryIndex)).Nodup
  placed : ∀ i, i ∈ plan.placements.map (·.entryIndex) ↔ Supported entries i
  safeGalleries : ∀ g ∈ plan.galleries, ∀ s ∈ splitPath g, isSafeNodeName s = true
  safeNames : ∀ p ∈ plan.placements ++ plan.nested, isSafeNodeName p.filename = true
  apart : (plan.placements.map fun p ↦ (splitPath p.galleryPath, p.filename)).Nodup

/-- Where an entry goes after the repair of its path, below the gallery of the archive. -/
def repairedPlace (e : ZipEntry × ℕ) : List Bytes × Bytes :=
  ((splitPath (dirnameOf e.1.path)).map sanitizeNodeName, basenameOf e.1.path)

/-- The files that are placed or may be archives. -/
def plannedFiles (entries : List ZipEntry) : List (ZipEntry × ℕ) :=
  filesOf .media entries ++ filesOf .nested entries

section Plan

variable (base name : Bytes)

theorem placements_append_nested (entries : List ZipEntry) :
    (buildZipPlan entries base name).placements ++ (buildZipPlan entries base name).nested =
      (plannedFiles entries).map (placementOf (joinPath base name)) :=
  (List.map_append ..).symm

/-- What is created: the galleries of what is placed with all above them, and the root. -/
def unsortedGalleries (entries : List ZipEntry) (root : Bytes) : List Bytes :=
  ((plannedFiles entries).map (placementOf root)).flatMap (fun p ↦ ancestors p.galleryPath) ++
    if !root.isEmpty && !(plannedFiles entries).isEmpty then [root] else []

theorem galleries_eq (entries : List ZipEntry) : (buildZipPlan entries base name).galleries =
    (unsortedGalleries entries (joinPath base name)).dedup.mergeSort galleryLe := by
  rw [unsortedGalleries, ← placements_append_nested]
  have hempty : (plannedFiles entries).isEmpty =
      (((filesOf .media entries).map (placementOf (joinPath base name))).isEmpty &&
        ((filesOf .nested entries).map (placementOf (joinPath base name))).isEmpty) := by
    rw [plannedFiles, List.isEmpty_map, List.isEmpty_map]
    rcases filesOf .media entries with _ | _
    · rfl
    · rfl
  rw [hempty]
  rfl

theorem mem_unsortedGalleries_iff : g ∈ unsortedGalleries entries root ↔
    (∃ e ∈ plannedFiles entries, g ∈ ancestors (placementOf root e).galleryPath) ∨
      root ≠ [] ∧ plannedFiles entries ≠ [] ∧ g = root := by
  rw [unsortedGalleries, List.mem_append, List.flatMap_map, List.mem_flatMap]
  refine or_congr Iff.rfl ?_
  split_ifs with hsome
  · rw [Bool.and_eq_true, Bool.not_eq_true', Bool.not_eq_true', List.isEmpty_eq_false_iff,
      List.isEmpty_eq_false_iff] at hsome
    rw [List.mem_singleton]
    exact ⟨fun h ↦ ⟨hsome.1, hsome.2, h⟩, fun h ↦ h.2.2⟩
  · refine iff_of_false List.not_mem_nil fun h ↦ hsome ?_
    rw [Bool.and_eq_true, Bool.not_eq_true', Bool.not_eq_true', List.isEmpty_eq_false_iff,
      List.isEmpty_eq_false_iff]
    exact ⟨h.1, h.2.1⟩

/-- The folders of the root are among those of whatever is placed below it. -/
theorem ancestors_root_subset (root : Bytes) (e : ZipEntry × ℕ) :
    ancestors root ⊆ ancestors (placementOf root e).galleryPath := by
  rw [placementOf]
  dsimp only
  split_ifs with hdir
  · exact List.Subset.refl _
  · rw [joinPath]
    split_ifs with hroot
    · rw [List.isEmpty_iff.mp hroot]
      exact List.nil_subset _
    · rw [List.append_assoc, List.singleton_append]
      exact ancestors_subset root _

/-- **Parents first**: what is above a gallery is created before it. -/
theorem parentsFirst_buildZipPlan {before after : List Bytes}
    (hsplit : (buildZipPlan entries base name).galleries = before ++ g :: after) (hne : segs ≠ [])
    (hpre : segs <+: splitPath g) (hproper : segs ≠ splitPath g) :
    ∃ h ∈ before, splitPath h = segs := by
  rw [galleries_eq] at hsplit
  have hg : g ∈ unsortedGalleries entries (joinPath base name) := by
    rw [← List.mem_dedup, ← (List.mergeSort_perm _ galleryLe).mem_iff, hsplit]
    exact List.mem_append_right _ List.mem_cons_self
  obtain ⟨h, hh, hsegs, hlt⟩ : ∃ h ∈ unsortedGalleries entries (joinPath base name),
      splitPath h = segs ∧ h.length < g.length := by
    rcases mem_unsortedGalleries_iff.mp hg with ⟨e, he, hg⟩ | ⟨-, hsome, rfl⟩
    · obtain ⟨h, hh, hsegs, hlt⟩ := exists_shorter_ancestor hg hne hpre hproper
      exact ⟨h, mem_unsortedGalleries_iff.mpr (.inl ⟨e, he, hh⟩), hsegs, hlt⟩
    · obtain ⟨e, he⟩ := List.exists_mem_of_ne_nil _ hsome
      obtain ⟨h, hh, hsegs, hlt⟩ := exists_shorter_of_root hne hpre hproper
      exact ⟨h, mem_unsortedGalleries_iff.mpr (.inl ⟨e, he, ancestors_root_subset _ e hh⟩), hsegs, hlt⟩
  exact ⟨h, mem_before_of_length_lt hsplit (List.mem_dedup.mpr hh) hlt, hsegs⟩

theorem mem_galleries_iff : g ∈ (buildZipPlan entries base name).galleries ↔
    g ∈ unsortedGalleries entries (joinPath base name) := by
  rw [galleries_eq, List.mem_mergeSort, List.mem_dedup]

/-- Whatever is placed has its gallery, and all above it. -/
theorem present_buildZipPlan {p : ZipPlacement}
    (hp : p ∈ (buildZipPlan entries base name).placements ++ (buildZipPlan entries base name).nested)
    (hne : segs ≠ []) (hpre : segs <+: splitPath p.galleryPath) :
    ∃ g ∈ (buildZipPlan entries base name).galleries, splitPath g = segs := by
  rw [placements_append_nested] at hp
  obtain ⟨e, he, rfl⟩ := List.mem_map.mp hp
  obtain ⟨g, hg, hsegs⟩ := exists_mem_ancestors_iff.mpr ⟨hne, hpre⟩
  exact ⟨g, (mem_galleries_iff base name).mpr (mem_unsortedGalleries_iff.mpr (.inl ⟨e, he, hg⟩)), hsegs⟩

theorem map_snd_fileEntries_sublist (entries : List ZipEntry) :
    ((fileEntries entries).map (·.2)).Sublist (List.range entries.length) := by
  have hrange : entries.zipIdx.map (·.2) = List.range entries.length := by
    rw [List.zipIdx_map_snd, List.range_eq_range']
  rw [← hrange]
  exact List.filter_sublist.map _

theorem mem_fileEntries_iff {e : ZipEntry × ℕ} : e ∈ fileEntries entries ↔
    entries[e.2]? = some e.1 ∧ entryIsDir e.1 = false ∧ findMetaEntry entries ≠ some e.2 := by
  rw [fileEntries, List.mem_filter, List.mem_zipIdx_iff_getElem?, Bool.not_eq_true',
    Bool.or_eq_false_iff, beq_eq_false_iff_ne]

theorem mem_filesOf_iff {c : FileClass} {e : ZipEntry × ℕ} :
    e ∈ filesOf c entries ↔ e ∈ fileEntries entries ∧ classify (basenameOf e.1.path) = c := by
  rw [filesOf, List.mem_filter, beq_iff_eq]

theorem classify_eq_media_iff {name : Bytes} :
    classify name = .media ↔ isSupportedMediaName name = true := by
  rw [classify]
  split_ifs with hmedia
  · exact iff_of_true rfl hmedia
  · exact iff_of_false (by exact nofun) hmedia
  · exact iff_of_false (by exact nofun) hmedia

/-- The supported entries are placed once each, and nothing else is. -/
theorem entryIndex_placements :
    (((buildZipPlan entries base name).placements).map (·.entryIndex)).Nodup ∧
      ∀ i, i ∈ ((buildZipPlan entries base name).placements).map (·.entryIndex) ↔
        Supported entries i := by
  have hindices : ((buildZipPlan entries base name).placements).map (·.entryIndex) =
      (filesOf .media entries).map (·.2) := by
    rw [buildZipPlan, List.map_map]
    rfl
  rw [hindices]
  constructor
  · exact ((List.filter_sublist.map _).trans (map_snd_fileEntries_sublist entries)).nodup
      List.nodup_range
  · intro i
    rw [List.mem_map]
    constructor
    · rintro ⟨⟨e, i⟩, he, rfl⟩
      obtain ⟨hfile, hclass⟩ := mem_filesOf_iff.mp he
      obtain ⟨hget, hdir, hmeta⟩ := mem_fileEntries_iff.mp hfile
      exact ⟨e, hget, hdir, hmeta, classify_eq_media_iff.mp hclass⟩
    · rintro ⟨e, hget, hdir, hmeta, hsupported⟩
      exact ⟨(e, i), mem_filesOf_iff.mpr ⟨mem_fileEntries_iff.mpr ⟨hget, hdir, hmeta⟩,
        classify_eq_media_iff.mpr hsupported⟩, rfl⟩

theorem classify_ne_unsupported {e : ZipEntry × ℕ} (he : e ∈ plannedFiles entries) :
    classify (basenameOf e.1.path) ≠ .unsupported := by
  rcases List.mem_append.mp he with he | he
  · rw [(mem_filesOf_iff.mp he).2]
    exact nofun
  · rw [(mem_filesOf_iff.mp he).2]
    exact nofun

/-- Every gallery is safe exactly if the segments of the root are, and no folder of the archive is cut
to the name of a device. -/
theorem safeGalleries_iff :
    (∀ g ∈ (buildZipPlan entries base name).galleries, ∀ s ∈ splitPath g, isSafeNodeName s = true) ↔
      (plannedFiles entries ≠ [] → ∀ s ∈ splitPath (joinPath base name), isSafeNodeName s = true) ∧
      ∀ e ∈ plannedFiles entries, ∀ s ∈ splitPath (dirnameOf e.1.path), ¬CutsToDevice s := by
  constructor
  · intro h
    have hplace : ∀ e ∈ plannedFiles entries, ∀ s ∈ splitPath (joinPath base name) ++
        (splitPath (dirnameOf e.1.path)).map sanitizeNodeName, isSafeNodeName s = true := by
      intro e he s hs
      rw [← splitPath_placementOf] at hs
      obtain ⟨g, hg, hsegs⟩ := present_buildZipPlan base name
        (placements_append_nested base name entries ▸ List.mem_map_of_mem he)
        (List.ne_nil_of_mem hs) List.prefix_rfl
      exact h g hg s (hsegs ▸ hs)
    constructor
    · intro hsome s hs
      obtain ⟨e, he⟩ := List.exists_mem_of_ne_nil _ hsome
      exact hplace e he s (List.mem_append_left _ hs)
    · intro e he s hs
      exact (isSafeNodeName_sanitizeNodeName_iff_not_cutsToDevice s).mp
        (hplace e he _ (List.mem_append_right _ (List.mem_map_of_mem hs)))
  · rintro ⟨hroot, hdirs⟩ g hg s hs
    rcases mem_unsortedGalleries_iff.mp ((mem_galleries_iff base name).mp hg) with
      ⟨e, he, hg⟩ | ⟨-, hsome, rfl⟩
    · have hpre := (exists_mem_ancestors_iff.mp ⟨g, hg, rfl⟩).2
      rw [splitPath_placementOf] at hpre
      rcases List.mem_append.mp (hpre.subset hs) with hs | hs
      · exact hroot (List.ne_nil_of_mem he) s hs
      · obtain ⟨t, ht, rfl⟩ := List.mem_map.mp hs
        exact (isSafeNodeName_sanitizeNodeName_iff_not_cutsToDevice t).mpr (hdirs e he t ht)
    · exact hroot hsome s hs

/-- No two placements are at one place exactly if no two supported entries are after the repair. -/
theorem apart_iff :
    (((buildZipPlan entries base name).placements).map
      fun p ↦ (splitPath p.galleryPath, p.filename)).Nodup ↔
      ((filesOf .media entries).map repairedPlace).Nodup := by
  have hplaces : ((buildZipPlan entries base name).placements).map
      (fun p ↦ (splitPath p.galleryPath, p.filename)) =
      ((filesOf .media entries).map repairedPlace).map
        fun q ↦ (splitPath (joinPath base name) ++ q.1, q.2) := by
    rw [buildZipPlan, List.map_map, List.map_map]
    refine List.map_congr_left fun e _ ↦ ?_
    exact Prod.ext (splitPath_placementOf _ e) rfl
  rw [hplaces, List.nodup_map_iff]
  rintro ⟨a, x⟩ ⟨b, y⟩ heq
  obtain ⟨hdirs, hnames⟩ := Prod.mk.inj heq
  exact Prod.ext (List.append_cancel_left hdirs) hnames

/-- **A plan is faithful** exactly if what is planned goes below a safe root, no folder of it is cut to
the name of a device, and the repair leaves the supported entries apart. -/
theorem faithful_buildZipPlan_iff (entries : List ZipEntry) (base name : Bytes) :
    Faithful entries (buildZipPlan entries base name) ↔
      (plannedFiles entries ≠ [] → ∀ s ∈ splitPath (joinPath base name), isSafeNodeName s = true) ∧
      (∀ e ∈ plannedFiles entries, ∀ s ∈ splitPath (dirnameOf e.1.path), ¬CutsToDevice s) ∧
      ((filesOf .media entries).map repairedPlace).Nodup := by
  rw [← and_assoc, ← safeGalleries_iff base name, ← apart_iff base name]
  refine ⟨fun h ↦ ⟨h.safeGalleries, h.apart⟩, fun ⟨hsafe, hapart⟩ ↦ ?_⟩
  obtain ⟨honce, hplaced⟩ := @entryIndex_placements entries base name
  refine ⟨fun before g after hsplit segs ↦ parentsFirst_buildZipPlan base name hsplit,
    fun p hp segs ↦ present_buildZipPlan base name hp, honce, hplaced, hsafe, fun p hp ↦ ?_, hapart⟩
  rw [placements_append_nested] at hp
  obtain ⟨e, he, rfl⟩ := List.mem_map.mp hp
  rw [filename_placementOf]
  exact isSafeNodeName_basenameOf (classify_ne_unsupported he)

end Plan

/-- Two pages whose names differ in a byte that is replaced. -/
def clashingEntries : List ZipEntry := [⟨ascii "a?.jpg", false⟩, ⟨ascii "a_.jpg", false⟩]

/-- The two pages are placed at one place. -/
theorem faithful_clashingEntries :
    (buildZipPlan clashingEntries [] (ascii "x")).placements =
      [⟨ascii "x", ascii "a_.jpg", 0⟩, ⟨ascii "x", ascii "a_.jpg", 1⟩] ∧
    ¬Faithful clashingEntries (buildZipPlan clashingEntries [] (ascii "x")) := by
  have hplaced : (buildZipPlan clashingEntries [] (ascii "x")).placements =
      [⟨ascii "x", ascii "a_.jpg", 0⟩, ⟨ascii "x", ascii "a_.jpg", 1⟩] := by
    decide +kernel
  refine ⟨hplaced, fun h ↦ ?_⟩
  have hapart := h.apart
  rw [hplaced] at hapart
  exact absurd hapart (by decide +kernel)

end ZipPlan

end SafeVault
