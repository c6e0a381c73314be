import SafeVault.Import.NaturalOrder
import SafeVault.Import.ZipFaithful

/-!
# Faithful plans for comics

All pages of a comic go to one gallery, in the order in which they are read. A page whose name is used
already is named after its folder, or gets a number in front. The names differ, and the loop that
looks for a free one ends. They are safe unless the name made from a folder is cut to the name of a
device; the numbered ones always are.
-/

namespace SafeVault

namespace ZipPlan

variable {entries : List ZipEntry} {used : List Bytes} {p : Page} {ps : List Page} {n : ℕ}

/-! ## Candidates -/

/-- The folders of a page as a piece of a name. -/
def pagePre (p : Page) : Bytes := (dirnameOf p.path).map fun c ↦ if c = slash then 95 else c

/-- The name of a page after its folders, before the repair. -/
def joinedName (p : Page) : Bytes :=
  if (pagePre p).isEmpty then p.name else pagePre p ++ ascii "_" ++ p.name

/-- The names that are tried for a page whose own is used. -/
def pageCandidate (p : Page) : ℕ → Bytes
  | 0 => sanitizeNodeName (joinedName p)
  | n + 1 => counted (pagePre p) p.name (n + 1)

theorem pageName_of_not_mem (h : p.name ∉ used) : pageName used p = p.name := if_neg h

theorem pageName_of_mem (h : p.name ∈ used) : pageName used p =
    Fresh.search (counted (pagePre p) p.name) used (used.length + 1) (pageCandidate p 0) 1 := if_pos h

/-- A name that begins with a digit is not that of a device. -/
theorem isReservedDevice_of_isDigit {c : UInt8} (hc : isDigit c = true) (rest : Bytes) :
    isReservedDevice (c :: rest) = false := by
  have hrange := (isDigit_iff_lower c).mp hc
  have hletter (d : UInt8) (hd : 57 < d.toNat) : AsciiFold.lower c ≠ d := by
    rintro rfl
    omega
  have hstem : (c :: rest).takeWhile (· != 46) = c :: rest.takeWhile (· != 46) := by
    refine List.takeWhile_cons_of_pos ?_
    rw [bne_iff_ne]
    rintro rfl
    exact absurd hrange (by decide)
  rw [isReservedDevice, hstem, AsciiFold.fold, List.map_cons,
    show ascii "con" = [99, 111, 110] from rfl, show ascii "prn" = [112, 114, 110] from rfl,
    show ascii "aux" = [97, 117, 120] from rfl, show ascii "nul" = [110, 117, 108] from rfl,
    show ascii "com" = [99, 111, 109] from rfl, show ascii "lpt" = [108, 112, 116] from rfl]
  simp [hletter]

/-- **Numbered names are safe**, whatever follows the number. -/
theorem isSafeNodeName_counted (hn : n ≠ 0) (hlen : (ArchiveNames.decimal n).length ≤ maxNodeNameBytes)
    (pre fname : Bytes) : isSafeNodeName (counted pre fname n) = true := by
  have hne := ArchiveNames.decimal_ne_nil hn
  have hdigits := @takeWhile_counted pre fname n hn hlen
  rw [counted, isSafeNodeName_sanitizeNodeName_iff, ← counted]
  rcases hname : counted pre fname n with _ | ⟨c, rest⟩
  · rw [hname] at hdigits
    exact absurd hdigits.symm hne
  · refine isReservedDevice_of_isDigit ?_ rest
    by_contra hc
    rw [hname, List.takeWhile_cons_of_neg hc] at hdigits
    exact hne hdigits.symm

/-- The limit on the number of pages: that of the size of a vector. -/
theorem length_decimal_le (h : n ≤ 2 ^ 64) : (ArchiveNames.decimal n).length ≤ maxNodeNameBytes := by
  rw [ArchiveNames.decimal, List.length_map, List.length_reverse]
  refine (Nat.digits_length_le_iff (by norm_num) _).mpr (h.trans_lt ?_)
  norm_num [maxNodeNameBytes]

/-! ## The loop -/

/-- What the loop that looks for a free name has tried, and where it stops. -/
theorem search_pageCandidate (k n : ℕ) :
    ∃ j, Fresh.search (counted (pagePre p) p.name) used k (pageCandidate p n) (n + 1) =
        pageCandidate p (n + j) ∧ ∀ i < j, pageCandidate p (n + i) ∈ used := by
  induction k generalizing n with
  | zero => exact ⟨0, rfl, fun i hi ↦ absurd hi (Nat.not_lt_zero i)⟩
  | succ k ih =>
    rw [Fresh.search]
    split_ifs with hmem
    · obtain ⟨j, heq, htried⟩ := ih (n + 1)
      refine ⟨j + 1, heq.trans (congrArg _ (by omega)), ?_⟩
      rintro (_ | i) hi
      · exact hmem
      · rw [← Nat.add_assoc, Nat.add_right_comm]
        exact htried i (Nat.lt_of_succ_lt_succ hi)
    · exact ⟨0, rfl, fun i hi ↦ absurd hi (Nat.not_lt_zero i)⟩

theorem length_lt_of_le (h : used.length ≤ 2 ^ 64) : used.length < 10 ^ maxNodeNameBytes - 1 :=
  h.trans_lt (by norm_num [maxNodeNameBytes])

/-- The candidates from the first number on differ, as far as they are needed. -/
theorem pageCandidate_inj {i j : ℕ} (hi : i < 2 ^ 64) (hj : j < 2 ^ 64)
    (h : pageCandidate p (i + 1) = pageCandidate p (j + 1)) : i = j := by
  have hnumber := congrArg (List.takeWhile isDigit) h
  rw [pageCandidate, pageCandidate, takeWhile_counted (by omega) (length_decimal_le hi),
    takeWhile_counted (by omega) (length_decimal_le hj)] at hnumber
  exact Nat.succ_injective (ArchiveNames.decimal_injective hnumber)

/-- **The loop ends.** It stops at the first candidate that is not used, after hardly more turns than
there are names in use. -/
theorem exists_pageName_eq (hlen : used.length < 2 ^ 64) (hmem : p.name ∈ used) :
    ∃ j ≤ used.length + 1, pageName used p = pageCandidate p j ∧ pageCandidate p j ∉ used ∧
      ∀ i < j, pageCandidate p i ∈ used := by
  obtain ⟨j, heq, htried⟩ := @search_pageCandidate used p (used.length + 1) 0
  simp only [Nat.zero_add] at heq htried
  have hfree : pageCandidate p j ∉ used := by
    rw [← heq, ← pageName_of_mem hmem]
    exact pageName_not_mem (length_lt_of_le hlen.le)
  refine ⟨j, ?_, (pageName_of_mem hmem).trans heq, hfree, htried⟩
  by_contra hlt
  -- More numbered candidates than there are names in use would be in use.
  have hle := @Fresh.card_le_of_forall_mem _ (fun i ↦ pageCandidate p (i + 1)) used
    (used.length + 1) 0 (fun i hi k hk h ↦ ?_) fun i hi ↦ ?_
  · exact absurd hle (Nat.not_succ_le_self _)
  · simp only [Nat.zero_add] at h
    exact pageCandidate_inj (by omega) (by omega) h
  · rw [Nat.zero_add]
    exact htried (i + 1) (by omega)

/-- The name of a page is its own, or a candidate. -/
theorem pageName_cases (hlen : used.length < 2 ^ 64) :
    (p.name ∉ used ∧ pageName used p = p.name) ∨
      (p.name ∈ used ∧ ∃ j ≤ used.length + 1, pageName used p = pageCandidate p j ∧
        ∀ i < j, pageCandidate p i ∈ used) := by
  by_cases hmem : p.name ∈ used
  · obtain ⟨j, hj, heq, -, htried⟩ := exists_pageName_eq hlen hmem
    exact .inr ⟨hmem, j, hj, heq, htried⟩
  · exact .inl ⟨hmem, pageName_of_not_mem hmem⟩

theorem isSafeNodeName_pageCandidate_succ {j : ℕ} (hj : j < 2 ^ 64) :
    isSafeNodeName (pageCandidate p (j + 1)) = true :=
  isSafeNodeName_counted (Nat.succ_ne_zero j) (length_decimal_le hj) _ _

/-! ## All pages in turn -/

theorem length_pageNames (used : List Bytes) (ps : List Page) :
    (pageNames used ps).length = ps.length := by
  induction ps generalizing used with
  | nil => rfl
  | cons p ps ih => exact congrArg (· + 1) (ih _)

/-- **The names of the pages differ**, and none of them was used before. -/
theorem nodup_pageNames (hlen : used.length + ps.length ≤ 2 ^ 64) :
    (pageNames used ps).Nodup ∧ ∀ name ∈ pageNames used ps, name ∉ used := by
  induction ps generalizing used with
  | nil => exact ⟨List.nodup_nil, fun _ h ↦ absurd h List.not_mem_nil⟩
  | cons p ps ih =>
    rw [List.length_cons] at hlen
    obtain ⟨hnodup, hfresh⟩ := @ih (pageName used p :: used) (by rw [List.length_cons]; omega)
    have hhead : pageName used p ∉ used := pageName_not_mem (length_lt_of_le (by omega))
    rw [pageNames]
    refine ⟨List.nodup_cons.mpr ⟨fun hmem ↦ hfresh _ hmem List.mem_cons_self, hnodup⟩, ?_⟩
    rintro name (_ | ⟨_, hname⟩)
    · exact hhead
    · exact fun hused ↦ hfresh _ hname (List.mem_cons_of_mem _ hused)

/-- At no page whose name is used already does the cut of the name made from its folder leave the name
of a device. -/
def ClearOfCuts (used : List Bytes) : List Page → Prop
  | [] => True
  | p :: ps => ¬(p.name ∈ used ∧ CutsToDevice (joinedName p)) ∧ ClearOfCuts (pageName used p :: used) ps

/-- **The names are safe** exactly if no cut gets in the way. -/
theorem isSafeNodeName_pageNames_iff (hlen : used.length + ps.length ≤ 2 ^ 64)
    (hown : ∀ p ∈ ps, isSafeNodeName p.name = true) (hused : ∀ name ∈ used, isSafeNodeName name = true) :
    (∀ name ∈ pageNames used ps, isSafeNodeName name = true) ↔ ClearOfCuts used ps := by
  induction ps generalizing used with
  | nil => exact iff_of_true (fun _ h ↦ absurd h List.not_mem_nil) trivial
  | cons p ps ih =>
    rw [List.length_cons] at hlen
    obtain ⟨hp, hps⟩ := List.forall_mem_cons.mp hown
    have hhead : isSafeNodeName (pageName used p) = true ↔
        ¬(p.name ∈ used ∧ CutsToDevice (joinedName p)) := by
      rcases @pageName_cases used p (by omega) with ⟨hfree, heq⟩ | ⟨hmem, j, hj, heq, htried⟩
      · rw [heq]
        exact iff_of_true hp fun h ↦ hfree h.1
      · rw [heq, ← not_congr (and_iff_right hmem).symm,
          ← isSafeNodeName_sanitizeNodeName_iff_not_cutsToDevice]
        rcases j with _ | j
        · exact Iff.rfl
        · -- The first candidate is in use, so it is safe as well.
          refine iff_of_true (isSafeNodeName_pageCandidate_succ (by omega)) ?_
          exact hused _ (htried 0 (Nat.zero_lt_succ j))
    rw [pageNames, List.forall_mem_cons, ClearOfCuts, hhead]
    refine and_congr_right fun hclear ↦ ih (by rw [List.length_cons]; omega) hps ?_
    exact List.forall_mem_cons.mpr ⟨hhead.mpr hclear, hused⟩

/-! ## Faithful plans -/

/-- A page that the importer supports: a file other than the description of the archive, whose repaired
name has the extension of an image. -/
def SupportedPage (entries : List ZipEntry) (i : ℕ) : Prop :=
  ∃ e, entries[i]? = some e ∧ entryIsDir e = false ∧ findMetaEntry entries ≠ some i ∧
    isSupportedImageName (basenameOf e.path) = true

/-- A plan for a comic is faithful to a listing. -/
structure FaithfulComic (entries : List ZipEntry) (plan : ZipPlan) : Prop where
  distinct : (plan.placements.map (·.filename)).Nodup
  safe : ∀ p ∈ plan.placements, isSafeNodeName p.filename = true
  once : (plan.placements.map (·.entryIndex)).Nodup
  placed : ∀ i, i ∈ plan.placements.map (·.entryIndex) ↔ SupportedPage entries i
  natural : (plan.placements.map (·.entryIndex)).Pairwise fun i j ↦ ∀ d e, entries[i]? = some d →
    entries[j]? = some e → naturalCompare e.path d.path ≠ .lt

/-- The pages in the order of the listing. -/
def listedPages (entries : List ZipEntry) : List Page :=
  ((fileEntries entries).filter isPage).map fun e ↦ ⟨e.1.path, basenameOf e.1.path, e.2⟩

theorem pagesOf_perm (entries : List ZipEntry) : (pagesOf entries).Perm (listedPages entries) :=
  List.mergeSort_perm _ _

theorem mem_pagesOf_iff : p ∈ pagesOf entries ↔
    ∃ e, entries[p.index]? = some e ∧ entryIsDir e = false ∧ findMetaEntry entries ≠ some p.index ∧
      isSupportedImageName (basenameOf e.path) = true ∧ p = ⟨e.path, basenameOf e.path, p.index⟩ := by
  rw [(pagesOf_perm entries).mem_iff, listedPages, List.mem_map]
  constructor
  · rintro ⟨e, he, rfl⟩
    obtain ⟨hfile, hpage⟩ := List.mem_filter.mp he
    obtain ⟨hget, hdir, hmeta⟩ := mem_fileEntries_iff.mp hfile
    exact ⟨e.1, hget, hdir, hmeta, hpage, rfl⟩
  · rintro ⟨e, hget, hdir, hmeta, hpage, heq⟩
    exact ⟨(e, p.index), List.mem_filter.mpr ⟨mem_fileEntries_iff.mpr ⟨hget, hdir, hmeta⟩, hpage⟩,
      heq.symm⟩

/-- The pages are in natural order. -/
theorem pairwise_pagesOf (entries : List ZipEntry) :
    (pagesOf entries).Pairwise fun p q ↦ naturalLe p.path q.path = true :=
  @List.pairwise_mergeSort Page (fun p q ↦ naturalLe p.path q.path) (fun _ _ _ ↦ naturalLe_trans)
    (fun p q ↦ naturalLe_total p.path q.path) _

/-- Pages that are listed in natural order are read in that order. -/
theorem pagesOf_of_pairwise
    (h : (listedPages entries).Pairwise fun p q ↦ naturalLe p.path q.path = true) :
    pagesOf entries = listedPages entries := List.mergeSort_of_pairwise h

theorem nodup_index_pagesOf (entries : List ZipEntry) : ((pagesOf entries).map (·.index)).Nodup := by
  rw [((pagesOf_perm entries).map _).nodup_iff, listedPages, List.map_map]
  exact ((List.filter_sublist.map _).trans (map_snd_fileEntries_sublist entries)).nodup
    List.nodup_range

theorem length_pagesOf_le (entries : List ZipEntry) : (pagesOf entries).length ≤ entries.length := by
  rw [(pagesOf_perm entries).length_eq, listedPages, List.length_map]
  refine (List.length_filter_le _ _).trans ((List.length_filter_le _ _).trans ?_)
  rw [List.length_zipIdx]

theorem isSafeNodeName_of_mem_pagesOf (h : p ∈ pagesOf entries) : isSafeNodeName p.name = true := by
  obtain ⟨e, -, -, -, hpage, heq⟩ := mem_pagesOf_iff.mp h
  rw [heq]
  dsimp only
  refine isSafeNodeName_basenameOf fun hclass ↦ ?_
  rw [classify, if_pos (by rw [isSupportedMediaName, Bool.or_eq_true]; exact .inl hpage)] at hclass
  cases hclass

section Comic

variable (base name : Bytes)

theorem placements_buildCbzPlan (entries : List ZipEntry) :
    (buildCbzPlan entries base name).placements =
      ((pagesOf entries).zip (pageNames [] (pagesOf entries))).map fun p ↦
        ⟨joinPath base name, p.2, p.1.index⟩ :=
  (List.map_uncurry_zip_eq_zipWith ..).symm

theorem map_filename_buildCbzPlan (entries : List ZipEntry) :
    (buildCbzPlan entries base name).placements.map (·.filename) = pageNames [] (pagesOf entries) := by
  rw [placements_buildCbzPlan, List.map_map]
  exact List.map_snd_zip (length_pageNames _ _).le

theorem map_entryIndex_buildCbzPlan (entries : List ZipEntry) :
    (buildCbzPlan entries base name).placements.map (·.entryIndex) = (pagesOf entries).map (·.index) := by
  have hzip : ((pagesOf entries).zip (pageNames [] (pagesOf entries))).map Prod.fst = pagesOf entries :=
    List.map_fst_zip (length_pageNames _ _).ge
  rw [placements_buildCbzPlan, List.map_map]
  conv_rhs => rw [← hzip, List.map_map]
  rfl

/-- **A plan for a comic is faithful** exactly if no cut of the name made from a folder leaves the name
of a device at a page whose own name is used; and the loop that looks for a free name always ends. -/
theorem faithful_buildCbzPlan_iff (hlen : entries.length < 2 ^ 64) :
    (FaithfulComic entries (buildCbzPlan entries base name) ↔ ClearOfCuts [] (pagesOf entries)) ∧
    ∀ used p, used.length < 2 ^ 64 → p.name ∈ used → ∃ j ≤ used.length + 1,
      pageName used p = pageCandidate p j ∧ pageCandidate p j ∉ used ∧
        ∀ i < j, pageCandidate p i ∈ used := by
  refine ⟨?_, fun used p ↦ exists_pageName_eq⟩
  have hpages : ([] : List Bytes).length + (pagesOf entries).length ≤ 2 ^ 64 := by
    rw [List.length_nil, Nat.zero_add]
    exact (length_pagesOf_le entries).trans hlen.le
  have hsafe := isSafeNodeName_pageNames_iff hpages (fun p ↦ isSafeNodeName_of_mem_pagesOf)
    fun _ h ↦ absurd h List.not_mem_nil
  rw [← hsafe, ← map_filename_buildCbzPlan base name, List.forall_mem_map]
  refine ⟨FaithfulComic.safe, fun h ↦ ⟨?_, h, ?_, fun i ↦ ?_, ?_⟩⟩
  · rw [map_filename_buildCbzPlan]
    exact (nodup_pageNames hpages).1
  · rw [map_entryIndex_buildCbzPlan]
    exact nodup_index_pagesOf entries
  · rw [map_entryIndex_buildCbzPlan, List.mem_map]
    constructor
    · rintro ⟨p, hp, rfl⟩
      obtain ⟨e, hget, hdir, hmeta, hpage, -⟩ := mem_pagesOf_iff.mp hp
      exact ⟨e, hget, hdir, hmeta, hpage⟩
    · rintro ⟨e, hget, hdir, hmeta, hpage⟩
      exact ⟨⟨e.path, basenameOf e.path, i⟩,
        mem_pagesOf_iff.mpr ⟨e, hget, hdir, hmeta, hpage, rfl⟩, rfl⟩
  · rw [map_entryIndex_buildCbzPlan, List.pairwise_map]
    refine (pairwise_pagesOf entries).imp_of_mem fun {p q} hp hq hle d e hd he ↦ ?_
    obtain ⟨d', hd', -, -, -, hpd⟩ := mem_pagesOf_iff.mp hp
    obtain ⟨e', he', -, -, -, hqe⟩ := mem_pagesOf_iff.mp hq
    obtain rfl := Option.some_inj.mp (hd'.symm.trans hd)
    obtain rfl := Option.some_inj.mp (he'.symm.trans he)
    rw [hpd, hqe] at hle
    exact bne_iff_ne.mp hle

end Comic

/-- Two pages of one name. -/
def twoPages (dir : Bytes) : List ZipEntry := [⟨ascii "1.jpg", false⟩, ⟨dir ++ ascii "/1.jpg", false⟩]

/-- The second page is named after its folder. -/
theorem faithful_twoPages :
    (buildCbzPlan (twoPages (ascii "b")) [] (ascii "x")).placements.map (·.filename) =
      [ascii "1.jpg", ascii "b_1.jpg"] ∧
    FaithfulComic (twoPages (ascii "b")) (buildCbzPlan (twoPages (ascii "b")) [] (ascii "x")) := by
  have hpages : pagesOf (twoPages (ascii "b")) =
      [⟨ascii "1.jpg", ascii "1.jpg", 0⟩, ⟨ascii "b/1.jpg", ascii "1.jpg", 1⟩] := by
    rw [pagesOf_of_pairwise (by decide +kernel)]
    decide +kernel
  refine ⟨by rw [map_filename_buildCbzPlan, hpages]; decide +kernel,
    (faithful_buildCbzPlan_iff [] (ascii "x") (by decide +kernel)).1.mpr ?_⟩
  rw [hpages]
  exact ⟨by decide +kernel, by decide +kernel, trivial⟩

/-- A folder whose name begins like that of a device and goes on with spaces. -/
def cutFolder : Bytes := ascii "con" ++ List.replicate 252 32

/-- The cut leaves the name of the device. -/
theorem faithful_cutFolder :
    (buildCbzPlan (twoPages cutFolder) [] (ascii "x")).placements.map (·.filename) =
      [ascii "1.jpg", ascii "con"] ∧
    ¬FaithfulComic (twoPages cutFolder) (buildCbzPlan (twoPages cutFolder) [] (ascii "x")) := by
  have hnames : (buildCbzPlan (twoPages cutFolder) [] (ascii "x")).placements.map (·.filename) =
      [ascii "1.jpg", ascii "con"] := by
    rw [map_filename_buildCbzPlan, pagesOf_of_pairwise (by decide +kernel)]
    decide +kernel
  refine ⟨hnames, fun h ↦ ?_⟩
  have hcon : ascii "con" ∈ (buildCbzPlan (twoPages cutFolder) [] (ascii "x")).placements.map
      (·.filename) := by
    rw [hnames]
    decide +kernel
  obtain ⟨p, hp, hname⟩ := List.mem_map.mp hcon
  have hsafe := h.safe p hp
  rw [hname] at hsafe
  exact absurd hsafe (by decide +kernel)

end ZipPlan

end SafeVault
