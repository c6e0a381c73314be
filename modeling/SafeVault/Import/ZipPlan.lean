import SafeVault.Import.ArchiveNames
import SafeVault.Vault.Structure

/-!
# What to do with the entries of an archive

A plan says which galleries to create, which entry to put where, and which entries may be archives
themselves. The tree of an archive is mirrored under a gallery; a comic is one gallery of pages, in
the order in which they are read. Every name that comes from an archive is repaired first.
-/

namespace SafeVault

structure ZipEntry where
  path : Bytes
  isDir : Bool := false
  deriving DecidableEq

structure ZipPlacement where
  galleryPath : Bytes
  filename : Bytes
  entryIndex : ℕ
  deriving DecidableEq

structure ZipPlan where
  galleries : List Bytes := []
  placements : List ZipPlacement := []
  nested : List ZipPlacement := []
  skippedUnsupported : ℕ := 0
  deriving DecidableEq

namespace ZipPlan

/-! ## Names and paths -/

def basenameOf (path : Bytes) : Bytes := sanitizeNodeName (leafOf path)

def dirnameOf (path : Bytes) : Bytes := parentOf path

/-- One more segment of a path. -/
def appendSegment (out seg : Bytes) : Bytes := (if out.isEmpty then [] else out ++ [slash]) ++ seg

/-- `sanitize_dir_path`. -/
def sanitizeDirPath (dir : Bytes) : Bytes :=
  (splitPath dir).foldl (fun out seg ↦ appendSegment out (sanitizeNodeName seg)) []

def joinPath (a b : Bytes) : Bytes :=
  if a.isEmpty then b else if b.isEmpty then a else a ++ [slash] ++ b

/-- What is between the slashes; `cur` is the part being read. -/
def slashPartsFrom (cur : Bytes) : Bytes → List Bytes
  | [] => [cur]
  | c :: p => if c = slash then cur :: slashPartsFrom [] p else slashPartsFrom (cur ++ [c]) p

/-- A path, if it is not empty. -/
def folder (cur : Bytes) : List Bytes := if cur.isEmpty then [] else [cur]

/-- The loop of `add_with_ancestors`, over what is between the slashes. -/
def ancestorsFrom (cur : Bytes) : List Bytes → List Bytes
  | [] => []
  | seg :: segs => folder (appendSegment cur seg) ++ ancestorsFrom (appendSegment cur seg) segs

/-- What `add_with_ancestors` adds to a set. -/
def ancestors (dir : Bytes) : List Bytes := ancestorsFrom [] (slashPartsFrom [] dir)

def entryIsDir (e : ZipEntry) : Bool := e.isDir || e.path.getLast? == some slash

/-- The extension of a name is one of these, up to case. -/
def extIn (name : Bytes) (exts : List Bytes) : Bool :=
  let ext := (name.reverse.takeWhile (· != 46)).reverse
  name.contains 46 && !ext.isEmpty && exts.contains (AsciiFold.fold ext)

def imageExts : List Bytes :=
  ["jpg", "jpeg", "png", "gif", "bmp", "tga", "hdr", "webp", "heic", "avif"].map ascii

def videoExts : List Bytes :=
  ["mp4", "mkv", "webm", "mov", "m4v", "avi", "mpg", "mpeg", "wmv", "asf", "flv", "ts", "m2ts",
    "ogv", "rm", "rmvb"].map ascii

def isSupportedImageName (name : Bytes) : Bool := extIn name imageExts

def isSupportedMediaName (name : Bytes) : Bool := extIn name imageExts || extIn name videoExts

def findMetaEntry (entries : List ZipEntry) : Option ℕ :=
  entries.findIdx? fun e ↦ !entryIsDir e && AsciiFold.fold e.path == ascii "meta.json"

/-- The entries that are looked at, each with its index. -/
def fileEntries (entries : List ZipEntry) : List (ZipEntry × ℕ) :=
  entries.zipIdx.filter fun e ↦ !(entryIsDir e.1 || findMetaEntry entries == some e.2)

/-! ## The tree of an archive -/

/-- What `collect_media` makes of a file: something to place, maybe an archive, or nothing. -/
inductive FileClass where
  | media | nested | unsupported
  deriving DecidableEq

def classify (name : Bytes) : FileClass :=
  if isSupportedMediaName name then .media
  else if ArchiveNames.isArchiveName name then .nested
  else .unsupported

/-- Where a file goes, below the gallery for the archive. -/
def placementOf (root : Bytes) (e : ZipEntry × ℕ) : ZipPlacement :=
  let dir := sanitizeDirPath (dirnameOf e.1.path)
  ⟨if dir.isEmpty then root else joinPath root dir, basenameOf e.1.path, e.2⟩

@[simp] theorem filename_placementOf (root : Bytes) (e : ZipEntry × ℕ) :
    (placementOf root e).filename = basenameOf e.1.path := by
  rw [placementOf]

/-- The files of one class, in the order of the entries. -/
def filesOf (c : FileClass) (entries : List ZipEntry) : List (ZipEntry × ℕ) :=
  (fileEntries entries).filter fun e ↦ classify (basenameOf e.1.path) == c

/-- Shorter paths first, and among paths of a length the smaller. -/
def galleryLe (a b : Bytes) : Bool :=
  a.length < b.length || (a.length == b.length && !decide (b < a))

def buildZipPlan (entries : List ZipEntry) (baseGallery newGalleryName : Bytes) : ZipPlan :=
  let root := joinPath baseGallery newGalleryName
  let placements := (filesOf .media entries).map (placementOf root)
  let nested := (filesOf .nested entries).map (placementOf root)
  let paths := (placements ++ nested).flatMap fun p ↦ ancestors p.galleryPath
  let own := if !root.isEmpty && !(placements.isEmpty && nested.isEmpty) then [root] else []
  { galleries := (paths ++ own).dedup.mergeSort galleryLe
    placements, nested
    skippedUnsupported := (filesOf .unsupported entries).length }

variable {entries : List ZipEntry} {root dir : Bytes} {segs : List Bytes} {p : ZipPlacement}

/-! ### The folders of a plan -/

theorem joinPath_nil (a : Bytes) : joinPath a [] = a := by
  rw [joinPath]
  split_ifs with ha hb
  · exact (List.isEmpty_iff.mp ha).symm
  · rfl
  · exact absurd rfl hb

theorem splitPath_joinPath (a b : Bytes) :
    splitPath (joinPath a b) = splitPath a ++ splitPath b := by
  rw [joinPath]
  split_ifs with ha hb
  · rw [List.isEmpty_iff.mp ha]
    rfl
  · rw [List.isEmpty_iff.mp hb]
    exact (List.append_nil _).symm
  · rw [List.append_assoc, List.singleton_append, splitPath_append_slash]

theorem splitPath_appendSegment (out : Bytes) {seg : Bytes} (hs : slash ∉ seg) :
    splitPath (appendSegment out seg) = splitPath out ++ if seg = [] then [] else [seg] := by
  have hseg : splitPath seg = if seg = [] then [] else [seg] := by
    split_ifs with h
    · rw [h]
      rfl
    · exact splitPath_of_slash_not_mem hs h
  rw [appendSegment]
  split_ifs at hseg ⊢ with hout h h
  · rw [List.isEmpty_iff.mp hout]
    exact hseg
  · rw [List.isEmpty_iff.mp hout]
    exact hseg
  · rw [List.append_assoc, List.singleton_append, splitPath_append_slash, hseg]
  · rw [List.append_assoc, List.singleton_append, splitPath_append_slash, hseg]

/-- The segments of a folder are repaired one by one. -/
theorem splitPath_sanitizeDirPath (dir : Bytes) :
    splitPath (sanitizeDirPath dir) = (splitPath dir).map sanitizeNodeName := by
  suffices h : ∀ out, splitPath ((splitPath dir).foldl
      (fun out seg ↦ appendSegment out (sanitizeNodeName seg)) out) =
        splitPath out ++ (splitPath dir).map sanitizeNodeName from h []
  generalize splitPath dir = segs
  induction segs with
  | nil => exact fun out ↦ (List.append_nil _).symm
  | cons seg segs ih =>
    intro out
    have hrep := repaired_sanitizeNodeName seg
    rw [List.foldl_cons, ih, splitPath_appendSegment out hrep.clean.slash_not_mem,
      if_neg hrep.nonempty, List.append_assoc, List.map_cons, List.singleton_append]

theorem splitPath_placementOf (root : Bytes) (e : ZipEntry × ℕ) :
    splitPath (placementOf root e).galleryPath =
      splitPath root ++ (splitPath (dirnameOf e.1.path)).map sanitizeNodeName := by
  rw [← splitPath_sanitizeDirPath, placementOf]
  dsimp only
  split_ifs with hdir
  · rw [List.isEmpty_iff.mp hdir]
    exact (List.append_nil _).symm
  · exact splitPath_joinPath _ _

theorem slash_not_mem_of_mem_slashPartsFrom {cur p s : Bytes} (hcur : slash ∉ cur)
    (hs : s ∈ slashPartsFrom cur p) : slash ∉ s := by
  induction p generalizing cur with
  | nil =>
    obtain rfl := List.mem_singleton.mp hs
    exact hcur
  | cons c p ih =>
    rw [slashPartsFrom] at hs
    split_ifs at hs with hc
    · rcases List.mem_cons.mp hs with rfl | hs
      · exact hcur
      · exact ih List.not_mem_nil hs
    · refine ih (fun hmem ↦ ?_) hs
      rcases List.mem_append.mp hmem with hmem | hmem
      · exact hcur hmem
      · exact hc (List.mem_singleton.mp hmem).symm

/-- Splitting a path leaves out the parts that are empty. -/
theorem splitPathFrom_eq (cur p : Bytes) :
    splitPathFrom cur p = (slashPartsFrom cur p).filter (!·.isEmpty) := by
  induction p generalizing cur with
  | nil =>
    rw [splitPathFrom, slashPartsFrom]
    rcases cur with _ | ⟨c, cur⟩ <;> rfl
  | cons c p ih =>
    rw [splitPathFrom, slashPartsFrom]
    split_ifs with hc hcur
    · rw [List.filter_cons_of_neg (by simp [hcur]), ih, List.nil_append]
    · rw [List.filter_cons_of_pos (by simp [hcur]), ih, List.singleton_append]
    · exact ih _

/-- A path is not empty exactly if it has a segment. -/
theorem exists_mem_folder_iff {cur : Bytes} (hcur : cur ≠ [] → splitPath cur ≠ []) :
    (∃ g ∈ folder cur, splitPath g = segs) ↔ segs ≠ [] ∧ segs = splitPath cur := by
  by_cases hempty : cur = []
  · rw [hempty]
    constructor
    · rintro ⟨g, hg, -⟩
      exact absurd hg List.not_mem_nil
    · rintro ⟨hne, heq⟩
      exact absurd heq hne
  · rw [folder, if_neg (mt List.isEmpty_iff.mp hempty)]
    constructor
    · rintro ⟨g, hg, rfl⟩
      obtain rfl := List.mem_singleton.mp hg
      exact ⟨hcur hempty, rfl⟩
    · rintro ⟨-, heq⟩
      exact ⟨cur, List.mem_singleton_self cur, heq.symm⟩

/-- The folders added for a path, with the folder one starts from: as lists of segments they are the
prefixes. -/
theorem exists_mem_ancestorsFrom_iff (segs : List Bytes) {parts : List Bytes}
    (hparts : ∀ s ∈ parts, slash ∉ s) {cur : Bytes} (hcur : cur ≠ [] → splitPath cur ≠ []) :
    (∃ g ∈ folder cur ++ ancestorsFrom cur parts, splitPath g = segs) ↔
      segs ≠ [] ∧ ∃ front, front <+: parts.filter (!·.isEmpty) ∧ segs = splitPath cur ++ front := by
  induction parts generalizing cur with
  | nil =>
    rw [ancestorsFrom, List.append_nil, exists_mem_folder_iff hcur, List.filter_nil]
    refine and_congr_right fun _ ↦ ?_
    constructor
    · exact fun heq ↦ ⟨[], List.prefix_rfl, heq.trans (List.append_nil _).symm⟩
    · rintro ⟨front, hfront, heq⟩
      rw [heq, List.prefix_nil.mp hfront, List.append_nil]
  | cons seg rest ih =>
    obtain ⟨hseg, hrest⟩ := List.forall_mem_cons.mp hparts
    have hsplit := splitPath_appendSegment cur hseg
    have hnext : appendSegment cur seg ≠ [] → splitPath (appendSegment cur seg) ≠ [] := by
      intro hne
      rw [hsplit]
      by_cases hempty : cur = []
      · have hne' : seg ≠ [] := by
          rintro rfl
          exact hne (by rw [hempty]; rfl)
        rw [if_neg hne']
        exact List.append_ne_nil_of_right_ne_nil _ (List.cons_ne_nil _ _)
      · exact List.append_ne_nil_of_left_ne_nil (hcur hempty) _
    have hor : (∃ g ∈ folder cur ++ ancestorsFrom cur (seg :: rest), splitPath g = segs) ↔
        (∃ g ∈ folder cur, splitPath g = segs) ∨
        (∃ g ∈ folder (appendSegment cur seg) ++ ancestorsFrom (appendSegment cur seg) rest,
          splitPath g = segs) := by
      simp only [ancestorsFrom, List.mem_append, or_and_right, exists_or]
    rw [hor, exists_mem_folder_iff hcur, ih hrest hnext, hsplit, ← and_or_left]
    refine and_congr_right fun _ ↦ ?_
    by_cases hempty : seg = []
    · -- An empty part adds no segment.
      rw [if_pos hempty, List.append_nil, List.filter_cons_of_neg (by simp [hempty])]
      exact or_iff_right_of_imp fun heq ↦ ⟨[], List.nil_prefix, heq.trans (List.append_nil _).symm⟩
    · rw [if_neg hempty, List.filter_cons_of_pos (by simpa using hempty)]
      constructor
      · rintro (heq | ⟨front, hfront, heq⟩)
        · exact ⟨[], List.nil_prefix, heq.trans (List.append_nil _).symm⟩
        · refine ⟨seg :: front, List.prefix_cons_inj _ |>.mpr hfront, ?_⟩
          rw [heq, List.append_assoc, List.singleton_append]
      · rintro ⟨_ | ⟨part, front⟩, hfront, rfl⟩
        · exact .inl (List.append_nil _)
        · obtain ⟨rfl, hrest'⟩ := List.cons_prefix_cons.mp hfront
          exact .inr ⟨front, hrest', by rw [List.append_assoc, List.singleton_append]⟩

/-- **The folders added for a path** are its prefixes, as lists of segments. -/
theorem exists_mem_ancestors_iff :
    (∃ g ∈ ancestors dir, splitPath g = segs) ↔ segs ≠ [] ∧ segs <+: splitPath dir := by
  have h := exists_mem_ancestorsFrom_iff segs
    (fun s hs ↦ slash_not_mem_of_mem_slashPartsFrom (p := dir) List.not_mem_nil hs)
    (show ([] : Bytes) ≠ [] → splitPath [] ≠ [] from absurd rfl)
  rw [← splitPathFrom_eq] at h
  refine h.trans (and_congr_right fun _ ↦ ?_)
  constructor
  · rintro ⟨front, hfront, rfl⟩
    exact hfront
  · exact fun hprefix ↦ ⟨segs, hprefix, rfl⟩

/-- **The folders planned for an archive.** A path below the root is planned exactly if something is
placed there or below. -/
theorem exists_mem_galleries_iff (hroot : segs ≠ splitPath root) (hne : segs ≠ []) :
    (∃ g ∈ (buildZipPlan entries root []).galleries, splitPath g = segs) ↔
      ∃ p ∈ (buildZipPlan entries root []).placements ++ (buildZipPlan entries root []).nested,
        segs <+: splitPath p.galleryPath := by
  generalize hplan : buildZipPlan entries root [] = plan
  have hmem (g : Bytes) : g ∈ plan.galleries ↔
      (∃ p ∈ plan.placements ++ plan.nested, g ∈ ancestors p.galleryPath) ∨
        g ∈ if !root.isEmpty && !(plan.placements.isEmpty && plan.nested.isEmpty)
          then [root] else [] := by
    rw [← hplan, buildZipPlan, List.mem_mergeSort, List.mem_dedup, List.mem_append,
      List.mem_flatMap, joinPath_nil]
  constructor
  · rintro ⟨g, hg, hsegs⟩
    rcases (hmem g).mp hg with ⟨p, hp, hancestor⟩ | hown
    · exact ⟨p, hp, (exists_mem_ancestors_iff.mp ⟨g, hancestor, hsegs⟩).2⟩
    · split_ifs at hown
      · rw [← hsegs, List.mem_singleton.mp hown] at hroot
        exact absurd rfl hroot
      · exact absurd hown List.not_mem_nil
  · rintro ⟨p, hp, hprefix⟩
    obtain ⟨g, hg, hsegs⟩ := exists_mem_ancestors_iff.mpr ⟨hne, hprefix⟩
    exact ⟨g, (hmem g).mpr (.inl ⟨p, hp, hg⟩), hsegs⟩

/-! ## A comic -/

def isDigit (c : UInt8) : Bool := 48 ≤ c && c ≤ 57

/-- A run of digits without leading zeros. -/
def significant (r : Bytes) : Bytes :=
  match r.dropWhile (· == 48) with
  | [] => r.drop (r.length - 1)
  | s => s

def compareNumeric (ra rb : Bytes) : Ordering :=
  let sa := significant ra
  let sb := significant rb
  (compare sa.length sb.length).then
    ((if sa < sb then Ordering.lt else if sb < sa then Ordering.gt else Ordering.eq).then
      (compare ra.length rb.length))

/-- `natural_compare`, on at most as many characters as given. -/
def naturalCompareFrom : ℕ → Bytes → Bytes → Ordering
  | _, [], [] => .eq
  | _, [], _ :: _ => .lt
  | _, _ :: _, [] => .gt
  | 0, _ :: _, _ :: _ => .eq
  | n + 1, ca :: a, cb :: b =>
    if isDigit ca && isDigit cb then
      (compareNumeric ((ca :: a).takeWhile isDigit) ((cb :: b).takeWhile isDigit)).then
        (naturalCompareFrom n (a.dropWhile isDigit) (b.dropWhile isDigit))
    else
      (compare (AsciiFold.lower ca) (AsciiFold.lower cb)).then (naturalCompareFrom n a b)

def naturalCompare (a b : Bytes) : Ordering := naturalCompareFrom a.length a b

structure Page where
  path : Bytes
  name : Bytes
  index : ℕ
  deriving DecidableEq

/-- A name with a number before it. The number comes first, so that no cut reaches it. -/
def counted (pre fname : Bytes) (n : ℕ) : Bytes :=
  sanitizeNodeName (ArchiveNames.decimal n ++ ascii "_" ++ pre ++ ascii "_" ++ fname)

/-- The name of a page, next to those used. -/
def pageName (used : List Bytes) (p : Page) : Bytes :=
  if p.name ∈ used then
    let pre := (dirnameOf p.path).map fun c ↦ if c = slash then 95 else c
    let cand := sanitizeNodeName (if pre.isEmpty then p.name else pre ++ ascii "_" ++ p.name)
    Fresh.search (counted pre p.name) used (used.length + 1) cand 1
  else p.name

/-- The names of pages in turn. -/
def pageNames (used : List Bytes) : List Page → List Bytes
  | [] => []
  | p :: ps => pageName used p :: pageNames (pageName used p :: used) ps

def isPage (e : ZipEntry × ℕ) : Bool := isSupportedImageName (basenameOf e.1.path)

/-- The pages, in the order in which they are read. -/
def pagesOf (entries : List ZipEntry) : List Page :=
  (((fileEntries entries).filter isPage).map fun e ↦
    (⟨e.1.path, basenameOf e.1.path, e.2⟩ : Page)).mergeSort fun a b ↦
      naturalCompare b.path a.path != .lt

def buildCbzPlan (entries : List ZipEntry) (baseGallery galleryName : Bytes) : ZipPlan :=
  let gallery := joinPath baseGallery galleryName
  let pages := pagesOf entries
  let placements := List.zipWith (fun (p : Page) name ↦ (⟨gallery, name, p.index⟩ : ZipPlacement))
    pages (pageNames [] pages)
  { galleries := if !gallery.isEmpty && !placements.isEmpty then [gallery] else []
    placements
    skippedUnsupported := ((fileEntries entries).filter fun e ↦ !isPage e).length }

/-! ### The names of the pages differ -/

section Counted

variable {pre fname : Bytes} {used : List Bytes} {n m : ℕ}

/-- No cut and no repair reaches the number. -/
theorem takeWhile_counted (hn : n ≠ 0) (hlen : (ArchiveNames.decimal n).length ≤ maxNodeNameBytes) :
    (counted pre fname n).takeWhile isDigit = ArchiveNames.decimal n := by
  have hplain : Plain (ArchiveNames.decimal n) := by
    intro c hc
    obtain ⟨d, hd, rfl⟩ := ArchiveNames.mem_decimal hc
    interval_cases d <;> decide
  have hdigit (c : UInt8) (hc : c ∈ ArchiveNames.decimal n) : isDigit c = true := by
    obtain ⟨d, hd, rfl⟩ := ArchiveNames.mem_decimal hc
    interval_cases d <;> decide
  have hne := ArchiveNames.decimal_ne_nil hn
  rw [counted, List.append_assoc, List.append_assoc, List.append_assoc]
  rcases sanitizeNodeName_plain hplain hne hlen (pre ++ (ascii "_" ++ fname)) with h | ⟨y, h⟩
  · exact (congrArg _ h).trans (List.takeWhile_eq_self_iff.mpr hdigit)
  · refine (congrArg _ h).trans ?_
    rw [List.takeWhile_append_of_pos hdigit]
    exact List.append_nil _

/-- **The name of a page is free**: the loop has found one when it stops. -/
theorem pageName_not_mem {p : Page} (hused : used.length < 10 ^ maxNodeNameBytes - 1) :
    pageName used p ∉ used := by
  rw [pageName]
  split_ifs with hmem
  · refine Fresh.search_not_mem fun i hi j hj heq ↦ ?_
    have hlen (k : ℕ) (hk : k ≤ used.length) :
        (ArchiveNames.decimal (1 + k)).length ≤ maxNodeNameBytes := by
      rw [ArchiveNames.decimal, List.length_map, List.length_reverse]
      exact Nat.digits_length_le_iff (by norm_num) _ |>.mpr (by omega)
    have hnumber := congrArg (List.takeWhile isDigit) heq
    rw [takeWhile_counted (by omega) (hlen i hi), takeWhile_counted (by omega) (hlen j hj)] at hnumber
    exact Nat.add_left_cancel (ArchiveNames.decimal_injective hnumber)
  · exact hmem

end Counted

/-! ## What every plan is like -/

/-- There is a gallery to create only if there is something to put there. -/
theorem planned_of_galleries_ne_nil (base name : Bytes)
    (h : (buildZipPlan entries base name).galleries ≠ []) :
    (buildZipPlan entries base name).placements ≠ [] ∨
      (buildZipPlan entries base name).nested ≠ [] := by
  rw [buildZipPlan] at h ⊢
  dsimp only at h ⊢
  by_contra hnone
  obtain ⟨hplacements, hnested⟩ := not_or.mp hnone
  refine h ?_
  rw [not_not] at hplacements hnested
  rw [hplacements, hnested]
  simp

theorem placements_of_galleries_ne_nil (base name : Bytes)
    (h : (buildCbzPlan entries base name).galleries ≠ []) :
    (buildCbzPlan entries base name).placements ≠ [] := by
  rw [buildCbzPlan] at h ⊢
  dsimp only at h ⊢
  split_ifs at h with hsome
  · rw [Bool.and_eq_true, Bool.not_eq_true', Bool.not_eq_true', List.isEmpty_eq_false_iff] at hsome
    exact List.isEmpty_eq_false_iff.mp hsome.2
  · exact absurd rfl h

end ZipPlan

end SafeVault
