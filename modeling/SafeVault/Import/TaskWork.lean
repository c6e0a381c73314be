import SafeVault.Import.FilesTask
import SafeVault.Import.NestedTally
import SafeVault.Import.Queue

/-!
# What processing a task comes to

A list of files, a folder, a flat archive and an archive with archives in it are each imported by a
loop of its own. All but the first hand their files to a sink that stages and posts them, and count a
file that the sink refuses.

What is read, extracted and decoded, and what staging returns at each call, are parameters. No task is
cancelled here.
-/

namespace SafeVault

namespace ImportQueue

variable {ν ω : Type}

/-! ## The sink -/

/-- Where an import goes, and what the `k`-th call of staging returns: a result, and a node that counts
if the result is `ok`. -/
structure StagingSink (ν : Type) where
  destGallery : Bytes
  /-- Whether the bytes are those of an image. -/
  detectFormat : Bytes → Bool
  stageImage : ℕ → Bytes → Bytes → VaultResult × ν
  stageVideo : ℕ → Bytes → Bytes → VaultResult × ν

/-- What was posted so far, and how often something was staged. -/
structure Posted (ν : Type) where
  posts : List (Post ν) := []
  calls : ℕ := 0

namespace StagingSink

variable (S : StagingSink ν)

/-- The path of a gallery that is given relative to the destination. -/
def path (relGallery : Bytes) : Bytes :=
  if S.destGallery.isEmpty then relGallery else S.destGallery ++ [slash] ++ relGallery

def ensureGallery (relGallery : Bytes) (x : Posted ν) : VaultResult × Posted ν :=
  (.ok, { x with posts := x.posts ++ [{ galleryPath := S.path relGallery }] })

def tagGallery (relGallery tag : Bytes) (x : Posted ν) : Posted ν :=
  { x with posts := x.posts ++ [{ galleryPath := S.path relGallery, tag }] }

/-- Post a node if staging it worked. -/
def placeStaged (relGallery : Bytes) (staged : VaultResult × ν) (x : Posted ν) :
    VaultResult × Posted ν :=
  if staged.1 = .ok then
    (.ok, { x with
      posts := x.posts ++ [{ galleryPath := S.path relGallery, node := some staged.2 }]
      calls := x.calls + 1 })
  else (staged.1, { x with calls := x.calls + 1 })

def placeImage (relGallery data name : Bytes) (x : Posted ν) : VaultResult × Posted ν :=
  S.placeStaged relGallery (S.stageImage x.calls data name) x

def placeVideo (relGallery data name : Bytes) (x : Posted ν) : VaultResult × Posted ν :=
  S.placeStaged relGallery (S.stageVideo x.calls data name) x

/-- An image or a video, by its bytes. -/
def place (relGallery data name : Bytes) (x : Posted ν) : VaultResult × Posted ν :=
  if S.detectFormat data then S.placeImage relGallery data name x
  else S.placeVideo relGallery data name x

end StagingSink

/-! ## Files -/

/-- `process_files_task`, from the state of the worker at its end; what it attempted is every file that
the loop has come to. -/
def filesWork (destGallery : Bytes) (s : FilesTask.Worker ν) : Work ν where
  posts := s.posted.map fun e ↦ { galleryPath := destGallery, node := some e.2 }
  skipped := s.skipped
  failed := s.failed
  attempted := s.tried

/-! ## Folders -/

structure FolderTask where
  /-- What `scan_folder` has found. -/
  entries : List ZipEntry
  galleryName : Bytes
  /-- The bytes of a file below the folder, if it can be read. -/
  readFile : Bytes → Option Bytes
  /-- The bytes of a `meta.json`, if it can be read. -/
  readMeta : Bytes → Option Bytes
  metaGalleryTags : Bytes → List Bytes

section Folder

variable (S : StagingSink ν) (F : FolderTask)

def collectFolderTags (x : Posted ν) : Posted ν :=
  match (ZipPlan.findMetaEntry F.entries).bind (F.entries[·]?) with
  | none => x
  | some e =>
    match F.readMeta e.path with
    | none => x
    | some bytes => (F.metaGalleryTags bytes).foldl (fun x tag ↦ S.tagGallery F.galleryName tag x) x

/-- `place_folder_file`; the number is how many files were skipped. -/
def placeFolderFile (p : ZipPlacement) (e : ZipEntry) (x : Posted ν × ℕ) : Posted ν × ℕ :=
  match F.readFile e.path with
  | none => (x.1, x.2 + 1)
  | some data =>
    if ZipPlan.isSupportedImageName p.filename then
      let (r, posted) := S.placeImage p.galleryPath data p.filename x.1
      (posted, if r = .ok then x.2 else x.2 + 1)
    else if ZipPlan.isSupportedMediaName p.filename then
      let (r, posted) := S.placeVideo p.galleryPath data p.filename x.1
      (posted, if r = .ok then x.2 else x.2 + 1)
    else (x.1, x.2 + 1)

/-- A turn of the loop over the placements. Folders are left out. -/
def placeFolderEntry (x : Posted ν × ℕ) (p : ZipPlacement) : Posted ν × ℕ :=
  match F.entries[p.entryIndex]? with
  | none => x
  | some e => if e.isDir then x else placeFolderFile S F p e x

def processFolderTask : Work ν :=
  let plan := ZipPlan.buildZipPlan F.entries [] F.galleryName
  let x := plan.galleries.foldl (fun x g ↦ (S.ensureGallery g x).2) ({} : Posted ν)
  let (posted, skipped) := plan.placements.foldl (placeFolderEntry S F) (collectFolderTags S F x, 0)
  { posts := posted.posts
    skipped := skipped + plan.skippedUnsupported
    attempted := plan.placements.length + plan.skippedUnsupported }

end Folder

/-! ## Flat archives -/

/-- What extracting an entry comes to. -/
inductive Extracted where
  | ok (data : Bytes)
  /-- It fails; the reader may say that the archive is at fault. -/
  | failed (readError : Bool)

structure FlatTask where
  /-- The entries, if the archive can be opened. -/
  entries : Option (List ZipEntry)
  galleryName : Bytes
  /-- A comic is one gallery of pages. -/
  comic : Bool
  /-- The tags of a comic. -/
  tags : List Bytes := []
  extract : ℕ → Extracted
  /-- The importer gives up at the first error. -/
  stopsOnError : Bool

structure ZipImportOutcome where
  imported : ℕ := 0
  skipped : ℕ := 0
  error : Bool := false

/-- `tally_import_result` -/
def tallyImportResult (r : VaultResult) (out : ZipImportOutcome) : ZipImportOutcome :=
  match r with
  | .ok => { out with imported := out.imported + 1 }
  | .alreadyExists | .invalidArg | .badFormat => { out with skipped := out.skipped + 1 }
  | _ => { out with skipped := out.skipped + 1, error := true }

section Flat

variable (S : StagingSink ν) (A : FlatTask)

/-- `import_one` -/
def importOne (p : ZipPlacement) (x : Posted ν × ZipImportOutcome) : Posted ν × ZipImportOutcome :=
  match A.extract p.entryIndex with
  | .failed readError =>
    (x.1, { x.2 with skipped := x.2.skipped + 1, error := x.2.error || readError })
  | .ok data =>
    let (r, posted) := S.place p.galleryPath data p.filename x.1
    (posted, tallyImportResult r x.2)

/-- `run_placements`; the number is how many files were attempted. -/
def runPlacements : List ZipPlacement → ℕ → Posted ν × ZipImportOutcome →
    ℕ × Posted ν × ZipImportOutcome
  | [], attempted, x => (attempted, x)
  | p :: ps, attempted, x =>
    let x := importOne S A p x
    if A.stopsOnError && x.2.error then (attempted + 1, x)
    else runPlacements ps (attempted + 1) x

/-- `import_cbz`, `import_archive_cbz` and `import_archive_volumes`. -/
def processFlatTask : Work ν :=
  match A.entries with
  | none => { posts := [], failed := true }
  | some entries =>
    let plan := if A.comic then ZipPlan.buildCbzPlan entries [] A.galleryName
      else ZipPlan.buildZipPlan entries [] A.galleryName
    let x := plan.galleries.foldl (fun x g ↦ (S.ensureGallery g x).2) ({} : Posted ν)
    let x := if plan.placements.isEmpty then x
      else A.tags.foldl (fun x tag ↦ S.tagGallery A.galleryName tag x) x
    let (attempted, posted, out) :=
      runPlacements S A plan.placements plan.skippedUnsupported (x, { skipped := plan.skippedUnsupported })
    { posts := posted.posts, skipped := out.skipped, failed := A.stopsOnError && out.error, attempted }

end Flat

/-! ## Archives in archives -/

/-- An archive with what reading it comes to, over a state of its readers. -/
structure NestedTask (ω : Type) where
  rootBytes : Bytes
  rootKind : ArchiveKind
  galleryName : Bytes
  limits : NestedWalk.RecursionLimits
  listEntries : Bytes → ArchiveKind → ω → Option (List ZipEntry) × ω
  extractEntry : Bytes → ArchiveKind → ℕ → ω → Option Bytes × ω
  /-- Reading the archive itself has failed, and the walk is to stop. -/
  rootError : ω → Bool
  archiveDone : Bytes → ω → ω
  metaGalleryTags : Bytes → List Bytes
  start : ω

section Nested

variable (S : StagingSink ν) (N : NestedTask ω)

/-- `make_recursive_hooks` with a staging sink, as wrapped by `import_archive_bytes_recursive`. -/
def nestedHooks : NestedWalk.Hooks (Posted ν × ω) where
  listEntries bytes kind x :=
    let (entries, w) := N.listEntries bytes kind x.2
    (entries, x.1, w)
  extractEntry bytes kind i x :=
    let (data, w) := N.extractEntry bytes kind i x.2
    (data, x.1, w)
  createGallery path x :=
    let (r, posted) := S.ensureGallery path x.1
    (r = .ok || r = .alreadyExists, posted, x.2)
  placeMedia gallery filename data x :=
    let (r, posted) := S.place gallery data filename x.1
    (r = .ok, posted, x.2)
  tagGallery gallery tag x := (S.tagGallery gallery tag x.1, x.2)
  cancelled x := (N.rootError x.2, x)
  archiveDone bytes x := (x.1, N.archiveDone bytes x.2)
  metaGalleryTags := N.metaGalleryTags

/-- What an archive counts as skipped. -/
def skippedOf (y : NestedWalk.RecursiveTally) : ℕ :=
  y.skippedUnsupported + y.notAnArchive + y.unreadable + y.depthCapped + y.budgetStopped

/-- What was attempted of an archive: the files whose turn has come, the entries left out as unsupported,
and each archive in it whose turn has come and that was not entered. One that could not be listed counts
as a file itself. -/
def attemptedOf {σ : Type} (a : NestedWalk.Account σ) : ℕ :=
  a.media.length + a.leftOut + (if a.entries.isNone then 1 else 0) +
    a.nested.countP fun c ↦ !c.fate.isEntered

/-- `import_archive_bytes_recursive`. -/
def processNestedTask (fuel : ℕ) : Option (Work ν) := do
  let s ← NestedWalk.walkArchive fuel N.rootBytes N.rootKind N.galleryName (some (nestedHooks S N))
    N.limits (({} : Posted ν), N.start)
  some { posts := s.hooked.1.posts
         skipped := skippedOf s.tally
         failed := s.tally.rootUnreadable || N.rootError s.hooked.2
         attempted := (s.accounts.map attemptedOf).sum }

end Nested

/-! ## What is counted -/

/-- A post with a node to attach. -/
def Post.isNode (p : Post ν) : Bool := p.tag.isEmpty && p.node.isSome

/-- Every file that was attempted is posted, or counted as skipped. -/
def Work.Counted (w : Work ν) : Prop := w.posts.countP Post.isNode + w.skipped = w.attempted

def Posted.nodes (x : Posted ν) : ℕ := x.posts.countP Post.isNode

variable {S : StagingSink ν} {x : Posted ν}

/-- Staging posts one node or none. -/
theorem nodes_placeStaged (g : Bytes) (staged : VaultResult × ν) :
    (S.placeStaged g staged x).2.nodes =
      x.nodes + if (S.placeStaged g staged x).1 = .ok then 1 else 0 := by
  rw [StagingSink.placeStaged]
  by_cases hok : staged.1 = .ok
  · rw [if_pos hok, if_pos rfl, Posted.nodes, List.countP_append]
    rfl
  · rw [if_neg hok, if_neg hok]
    rfl

theorem nodes_place (g data name : Bytes) :
    (S.place g data name x).2.nodes =
      x.nodes + if (S.place g data name x).1 = .ok then 1 else 0 := by
  rw [StagingSink.place]
  split_ifs
  all_goals simp_all [StagingSink.placeImage, StagingSink.placeVideo, nodes_placeStaged]

theorem nodes_ensureGallery (g : Bytes) : (S.ensureGallery g x).2.nodes = x.nodes := by
  rw [StagingSink.ensureGallery, Posted.nodes, List.countP_append]
  rfl

theorem nodes_tagGallery (g tag : Bytes) : (S.tagGallery g tag x).nodes = x.nodes := by
  rw [StagingSink.tagGallery, Posted.nodes, List.countP_append]
  simp [Post.isNode, Posted.nodes]

/-- What every turn of a loop keeps, the loop keeps. -/
theorem nodes_foldl {β : Type} {f : Posted ν → β → Posted ν}
    (hf : ∀ x b, (f x b).nodes = x.nodes) (bs : List β) : (bs.foldl f x).nodes = x.nodes := by
  induction bs generalizing x with
  | nil => rfl
  | cons b bs ih => exact ih.trans (hf x b)

/-! ### Files -/

theorem countP_filesWork (destGallery : Bytes) (s : FilesTask.Worker ν) :
    (filesWork destGallery s).posts.countP Post.isNode = s.posted.length := by
  rw [filesWork, List.countP_map, List.countP_eq_length.mpr]
  exact fun _ _ ↦ rfl

/-- **A list of files** is counted just when no test for a regular file threw and every file that was
read could be staged. -/
theorem counted_filesWork_iff {τ : Type} {E : FilesTask.Task τ ν} {s : FilesTask.Worker ν}
    {turns : ℕ} (hcancel : ∀ k, E.cancel k = false)
    (hrun : FilesTask.processFilesTask E turns = some s) (destGallery : Bytes) :
    (filesWork destGallery s).Counted ↔ (∀ f ∈ E.files, ¬f.Throws) ∧
      ∀ i, (FilesTask.pending? E i).isSome → (FilesTask.outcome E i).isSome := by
  rw [Work.Counted, countP_filesWork]
  exact (FilesTask.counted_iff hcancel hrun).1

/-! ### Folders -/

theorem counted_placeFolderFile (F : FolderTask) (p : ZipPlacement) (e : ZipEntry)
    (x : Posted ν × ℕ) :
    (placeFolderFile S F p e x).1.nodes + (placeFolderFile S F p e x).2 = x.1.nodes + x.2 + 1 := by
  have hplaced (r : VaultResult) (posted : Posted ν)
      (h : posted.nodes = x.1.nodes + if r = .ok then 1 else 0) :
      posted.nodes + (if r = .ok then x.2 else x.2 + 1) = x.1.nodes + x.2 + 1 := by
    rw [h]
    split_ifs <;> omega
  rw [placeFolderFile]
  rcases F.readFile e.path with _ | data
  · exact rfl
  · dsimp only
    by_cases himage : ZipPlan.isSupportedImageName p.filename
    · rw [if_pos himage]
      exact hplaced _ _ (nodes_placeStaged _ _)
    by_cases hmedia : ZipPlan.isSupportedMediaName p.filename
    · rw [if_neg himage, if_pos hmedia]
      exact hplaced _ _ (nodes_placeStaged _ _)
    · rw [if_neg himage, if_neg hmedia]
      rfl

/-- The entry of a placement is a file. -/
theorem isDir_of_mem_placements {entries : List ZipEntry} {base name : Bytes} {p : ZipPlacement}
    (h : p ∈ (ZipPlan.buildZipPlan entries base name).placements) :
    ∃ e, entries[p.entryIndex]? = some e ∧ e.isDir = false := by
  obtain ⟨⟨e, i⟩, he, rfl⟩ := List.mem_map.mp h
  obtain ⟨hmem, hfile⟩ := List.mem_filter.mp (List.mem_of_mem_filter he)
  refine ⟨e, (List.mem_zipIdx_iff_getElem?.mp hmem), ?_⟩
  rw [Bool.not_eq_true', Bool.or_eq_false_iff, ZipPlan.entryIsDir, Bool.or_eq_false_iff] at hfile
  exact hfile.1.1

theorem counted_placeFolderEntries (F : FolderTask) (ps : List ZipPlacement)
    (hps : ∀ p ∈ ps, ∃ e, F.entries[p.entryIndex]? = some e ∧ e.isDir = false) (x : Posted ν × ℕ) :
    (ps.foldl (placeFolderEntry S F) x).1.nodes + (ps.foldl (placeFolderEntry S F) x).2 =
      x.1.nodes + x.2 + ps.length := by
  induction ps generalizing x with
  | nil => rfl
  | cons p ps ih =>
    obtain ⟨⟨e, he, hfile⟩, hrest⟩ := List.forall_mem_cons.mp hps
    have hone : placeFolderEntry S F x p = placeFolderFile S F p e x := by
      rw [placeFolderEntry, he]
      exact if_neg (by rw [hfile]; exact Bool.false_ne_true)
    rw [List.foldl_cons, ih hrest, hone, counted_placeFolderFile, List.length_cons]
    omega

theorem nodes_collectFolderTags (F : FolderTask) : (collectFolderTags S F x).nodes = x.nodes := by
  rw [collectFolderTags]
  split
  · rfl
  · split
    · rfl
    · exact nodes_foldl (fun x tag ↦ nodes_tagGallery _ _) _

/-- **A folder** is counted. -/
theorem counted_processFolderTask (S : StagingSink ν) (F : FolderTask) :
    (processFolderTask S F).Counted := by
  have hfold := counted_placeFolderEntries (S := S) F
    (ZipPlan.buildZipPlan F.entries [] F.galleryName).placements
    (fun p hp ↦ isDir_of_mem_placements hp)
    (collectFolderTags S F ((ZipPlan.buildZipPlan F.entries [] F.galleryName).galleries.foldl
      (fun x g ↦ (S.ensureGallery g x).2) {}), 0)
  rw [nodes_collectFolderTags, nodes_foldl fun x g ↦ nodes_ensureGallery g] at hfold
  have hstart : ({} : Posted ν).nodes = 0 := rfl
  rw [hstart] at hfold
  change Posted.nodes _ + (_ + _) = _ + _
  omega

/-! ### Flat archives -/

theorem skipped_tallyImportResult (r : VaultResult) (out : ZipImportOutcome) :
    (tallyImportResult r out).skipped = if r = .ok then out.skipped else out.skipped + 1 := by
  rcases r <;> rfl

theorem counted_importOne (A : FlatTask) (p : ZipPlacement) (x : Posted ν × ZipImportOutcome) :
    (importOne S A p x).1.nodes + (importOne S A p x).2.skipped = x.1.nodes + x.2.skipped + 1 := by
  rw [importOne]
  rcases A.extract p.entryIndex with data | readError
  · dsimp only
    rw [skipped_tallyImportResult, nodes_place]
    split_ifs <;> omega
  · exact rfl

theorem counted_runPlacements (A : FlatTask) (ps : List ZipPlacement) (attempted : ℕ)
    (x : Posted ν × ZipImportOutcome) :
    (runPlacements S A ps attempted x).2.1.nodes + (runPlacements S A ps attempted x).2.2.skipped +
        attempted =
      x.1.nodes + x.2.skipped + (runPlacements S A ps attempted x).1 := by
  induction ps generalizing attempted x with
  | nil => rfl
  | cons p ps ih =>
    have hone := counted_importOne (S := S) A p x
    rw [runPlacements]
    split_ifs
    · dsimp only
      omega
    · have hrest := ih (attempted + 1) (importOne S A p x)
      omega

/-- **A flat archive** is counted, as far as the importer gets. -/
theorem counted_processFlatTask (S : StagingSink ν) (A : FlatTask) : (processFlatTask S A).Counted := by
  rw [processFlatTask]
  rcases A.entries with _ | entries
  · rfl
  · dsimp only
    generalize (if A.comic then ZipPlan.buildCbzPlan entries [] A.galleryName
      else ZipPlan.buildZipPlan entries [] A.galleryName) = plan
    generalize hy : (if plan.placements.isEmpty then
      plan.galleries.foldl (fun x g ↦ (S.ensureGallery g x).2) ({} : Posted ν)
      else A.tags.foldl (fun x tag ↦ S.tagGallery A.galleryName tag x)
        (plan.galleries.foldl (fun x g ↦ (S.ensureGallery g x).2) {})) = y
    have hnodes : y.nodes = 0 := by
      have hgalleries : (plan.galleries.foldl (fun x g ↦ (S.ensureGallery g x).2)
          ({} : Posted ν)).nodes = 0 := nodes_foldl (fun x g ↦ nodes_ensureGallery g) _
      rw [← hy]
      split_ifs
      · exact hgalleries
      · rw [nodes_foldl fun x tag ↦ nodes_tagGallery _ tag]
        exact hgalleries
    have hrun := counted_runPlacements (S := S) A plan.placements plan.skippedUnsupported
      (y, { skipped := plan.skippedUnsupported })
    rw [hnodes] at hrun
    -- What was attempted before the first file is what the plan leaves out.
    exact Nat.add_right_cancel (hrun.trans (by dsimp only; omega))

/-! ### Archives in archives -/

section Balanced

open NestedWalk

variable {N : NestedTask ω} {s t : Walk (Posted ν × ω)} {f : Frame} {a : Account (Posted ν × ω)}

/-- As many nodes were posted as media counted as placed. -/
def Balanced (s : Walk (Posted ν × ω)) : Prop := s.hooked.1.nodes = s.tally.mediaPlaced

theorem balanced_ask (h : Balanced s) (path : Bytes) :
    Balanced (ask (nestedHooks S N) path s).2 := (nodes_ensureGallery path).trans h

theorem balanced_askAll (h : Balanced s) (gs : List Bytes) :
    Balanced (askAll (nestedHooks S N) gs s).2 := by
  induction gs generalizing s with
  | nil => exact h
  | cons g gs ih =>
    have hask := balanced_ask (S := S) (N := N) h g
    rw [askAll]
    rcases hmade : ask (nestedHooks S N) g s with ⟨_ | _, u⟩
    all_goals rw [hmade] at hask
    · exact hask
    · exact ih hask

theorem balanced_applyOwnMeta (h : Balanced s) (entries : List ZipEntry) :
    Balanced (applyOwnMeta (nestedHooks S N) f entries s) := by
  rw [applyOwnMeta]
  split
  · exact h
  · next i _ =>
    have htags (tags : List Bytes) (y : Posted ν × ω) :
        (tags.foldl (fun x tag ↦ (nestedHooks S N).tagGallery f.gallery tag x) y).1.nodes =
          y.1.nodes := by
      induction tags generalizing y with
      | nil => rfl
      | cons tag tags ih => exact (ih _).trans (nodes_tagGallery _ _)
    split
    · next x hx =>
      obtain ⟨-, rfl⟩ := Prod.mk.inj hx
      exact h
    · next bytes x hx =>
      obtain ⟨-, rfl⟩ := Prod.mk.inj hx
      exact (htags _ _).trans h

theorem nodes_hookPlaceMedia (gallery filename data : Bytes) (y : Posted ν × ω) :
    ((nestedHooks S N).placeMedia gallery filename data y).2.1.nodes =
      y.1.nodes + if ((nestedHooks S N).placeMedia gallery filename data y).1 then 1 else 0 := by
  have hplace := nodes_place (S := S) (x := y.1) gallery data filename
  rw [nestedHooks]
  dsimp only
  rw [hplace]
  by_cases hok : (S.place gallery data filename y.1).1 = .ok
  · rw [if_pos hok, if_pos (decide_eq_true hok)]
  · rw [if_neg hok, if_neg (by rw [decide_eq_true_eq]; exact hok)]

/-- Every medium that is posted is counted. -/
theorem balanced_placeMedia (h : Balanced s) (ps : List ZipPlacement)
    (done : List (MediumTurn (Posted ν × ω))) :
    Balanced (placeMedia (nestedHooks S N) f ps done s).2.2 := by
  induction ps generalizing done s with
  | nil => exact h
  | cons p ps ih =>
    rw [placeMedia]
    rcases hpoll : poll (nestedHooks S N) s with ⟨_ | _, u⟩
    all_goals
      obtain ⟨-, rfl⟩ := Prod.mk.inj hpoll
      dsimp only
    · rcases hex : (nestedHooks S N).extractEntry f.bytes f.kind p.entryIndex
        (s.setHooked ((nestedHooks S N).cancelled s.hooked).2).hooked with ⟨_ | payload, x⟩
      all_goals
        obtain ⟨-, rfl⟩ := Prod.mk.inj hex
        dsimp only
      · refine ih ?_ _
        exact h
      · generalize hu : ((s.setHooked _).setHooked _).expand payload = u
        have hbalanced : Balanced u := hu ▸ h
        have hplace := nodes_hookPlaceMedia (S := S) (N := N) p.galleryPath p.filename payload u.hooked
        rcases hput : (nestedHooks S N).placeMedia p.galleryPath p.filename payload u.hooked with
          ⟨_ | _, y⟩
        all_goals
          rw [hput] at hplace
          dsimp only
        · refine ih ?_ _
          exact hplace.trans hbalanced
        · refine ih ?_ _
          exact hplace.trans (congrArg (· + 1) hbalanced)
    · exact h

theorem balanced_vetNested (h : Balanced s) (p : ZipPlacement) :
    Balanced (vetNested (nestedHooks S N) f p s).2 := by
  rw [vetNested]
  split
  · next x hx =>
    obtain ⟨-, rfl⟩ := Prod.mk.inj hx
    exact h
  · next child x hx =>
    obtain ⟨-, rfl⟩ := Prod.mk.inj hx
    dsimp only
    split
    · exact h
    · split <;> exact h

theorem balanced_openArchive (h : Balanced s) :
    Balanced (openArchive (nestedHooks S N) f s).2 := by
  rw [openArchive]
  rcases hl : (nestedHooks S N).listEntries f.bytes f.kind s.hooked with ⟨_ | entries, x⟩
  all_goals
    have hx : x.1 = s.hooked.1 := (congrArg (fun y ↦ y.2.1) hl).symm
    dsimp only
  · exact (congrArg Posted.nodes hx).trans h
  · have hlisted : Balanced (s.setHooked x) := (congrArg Posted.nodes hx).trans h
    have hasked := balanced_askAll (S := S) (N := N) hlisted (planOf f entries).galleries
    rcases hmade : askAll (nestedHooks S N) (planOf f entries).galleries (s.setHooked x) with
      ⟨_ | _, u⟩
    all_goals
      rw [hmade] at hasked
      dsimp only
    · exact hasked
    · generalize hv : Walk.setHooked (Walk.setTally (applyOwnMeta (nestedHooks S N) f entries u) _) _ = v
      have hplaced := balanced_placeMedia (S := S) (N := N) (f := f) (s := v)
        (hv ▸ balanced_applyOwnMeta (f := f) hasked entries) (planOf f entries).placements []
      rcases hplace : placeMedia (nestedHooks S N) f (planOf f entries).placements [] v with
        ⟨_ | _, media, w⟩
      all_goals
        rw [hplace] at hplaced
        exact hplaced

theorem balanced_pick (h : Balanced s) (p : ZipPlacement) (taken : List Bytes) :
    match pick (nestedHooks S N) f p taken s with
    | .cancelled t | .refused _ t | .unmade _ t | .picked _ _ _ t => Balanced t := by
  rw [pick]
  rcases hpoll : poll (nestedHooks S N) s with ⟨_ | _, u⟩
  all_goals
    obtain ⟨-, rfl⟩ := Prod.mk.inj hpoll
    dsimp only
  · have hvetted := balanced_vetNested (S := S) (N := N) (f := f)
      (s := s.setHooked ((nestedHooks S N).cancelled s.hooked).2) h p
    rcases hvet : vetNested (nestedHooks S N) f p
      (s.setHooked ((nestedHooks S N).cancelled s.hooked).2) with ⟨fate | ⟨kind, child⟩, v⟩
    all_goals
      rw [hvet] at hvetted
      dsimp only
    · exact hvetted
    · have hasked := balanced_ask (S := S) (N := N) hvetted
        (subGallery p.galleryPath (ArchiveNames.uniqueGalleryName (ArchiveNames.baseName p.filename)
          taken))
      rcases hmade : ask (nestedHooks S N) (subGallery p.galleryPath
        (ArchiveNames.uniqueGalleryName (ArchiveNames.baseName p.filename) taken)) v with ⟨_ | _, w⟩
      all_goals
        rw [hmade] at hasked
        exact hasked
  · exact h

theorem balanced_descend {walk : Frame → Walk (Posted ν × ω) → Option (Walk (Posted ν × ω))}
    (hwalk : ∀ f s t, walk f s = some t → Balanced s → Balanced t)
    {ps : List ZipPlacement} {taken : List Bytes}
    (hend : descend (nestedHooks S N) walk ps taken a s = some t) (h : Balanced s) :
    Balanced t := by
  induction ps generalizing taken a s with
  | nil => exact Option.some.inj hend ▸ h
  | cons p ps ih =>
    have hpick := balanced_pick (S := S) (N := N) (f := a.frame) h p taken
    rw [descend] at hend
    rcases hpicked : pick (nestedHooks S N) a.frame p taken s with
      u | ⟨fate, u⟩ | ⟨name, u⟩ | ⟨name, kind, child, u⟩
    all_goals
      rw [hpicked] at hpick hend
      dsimp only at hpick hend
    · exact Option.some.inj hend ▸ hpick
    · exact ih hend hpick
    · exact ih hend hpick
    · obtain ⟨v, hv, hend⟩ := Option.bind_eq_some_iff.mp hend
      have hchild : Balanced v := hwalk _ _ _ hv hpick
      exact ih hend hchild

theorem balanced_walkOne {n : ℕ} (hend : walkOne (nestedHooks S N) n f s = some t)
    (h : Balanced s) : Balanced t := by
  induction n generalizing f s t with
  | zero => exact absurd hend nofun
  | succ n ih =>
    have hopened := balanced_openArchive (S := S) (N := N) (f := f) h
    rw [walkOne] at hend
    rcases hopen : openArchive (nestedHooks S N) f s with ⟨_ | ⟨plan, a⟩, u⟩
    all_goals
      rw [hopen] at hopened hend
      dsimp only at hopened hend
    · exact Option.some.inj hend ▸ hopened
    · exact balanced_descend (fun _ _ _ hv hs ↦ ih hv hs) hend hopened

/-- The files that are in a tally. -/
def filesOf : RecursiveTally →+ ℕ where
  toFun y := y.mediaPlaced + skippedOf y
  map_zero' := rfl
  map_add' y z := by
    change y.mediaPlaced + z.mediaPlaced + (y.skippedUnsupported + z.skippedUnsupported +
      (y.notAnArchive + z.notAnArchive) + (y.unreadable + z.unreadable) +
      (y.depthCapped + z.depthCapped) + (y.budgetStopped + z.budgetStopped)) =
      y.mediaPlaced + (y.skippedUnsupported + y.notAnArchive + y.unreadable + y.depthCapped +
        y.budgetStopped) + (z.mediaPlaced + (z.skippedUnsupported + z.notAnArchive + z.unreadable +
        z.depthCapped + z.budgetStopped))
    omega

/-- **What was attempted of an archive** is in its tally. -/
theorem filesOf_tally {σ : Type} (a : Account σ) : filesOf a.tally = attemptedOf a := by
  have hmedia : filesOf (mediaTally a.media) = a.media.length := by
    have hone (m : MediumTurn σ) : filesOf m.tally = 1 := by
      rcases m with ⟨p, x, _ | _⟩ <;> rfl
    have hones : a.media.map (filesOf ∘ MediumTurn.tally) = a.media.map fun _ ↦ 1 :=
      List.map_congr_left fun m _ ↦ hone m
    rw [mediaTally, map_list_sum, List.map_map, hones, List.map_const',
      List.sum_replicate_nat, Nat.mul_one]
  have hnested : filesOf (a.nested.map fun c ↦ c.fate.tally).sum =
      a.nested.countP fun c ↦ !c.fate.isEntered := by
    induction a.nested with
    | nil => rfl
    | cons c cs ih =>
      have hone : filesOf c.fate.tally = if (!c.fate.isEntered) = true then 1 else 0 := by
        rcases c.fate with _ | _ | _ | _ | name <;> rfl
      rw [List.map_cons, List.sum_cons, map_add, ih, hone, List.countP_cons, Nat.add_comm]
  have hleftOut : filesOf { skippedUnsupported := a.leftOut } = a.leftOut := by
    change 0 + (a.leftOut + 0 + 0 + 0 + 0) = a.leftOut
    omega
  have hlisted : filesOf (if a.entries.isNone then
      { unreadable := 1, rootUnreadable := a.frame.depth == 0 } else 0) =
      if a.entries.isNone then 1 else 0 := by
    split_ifs <;> rfl
  rw [Account.tally, map_add, map_add, map_add, hmedia, hnested, hleftOut, hlisted, attemptedOf]

end Balanced

/-- **An archive with archives in it** is counted, as far as the walk gets. -/
theorem counted_processNestedTask {N : NestedTask ω} {fuel : ℕ} {w : Work ν}
    (h : processNestedTask S N fuel = some w) : w.Counted := by
  obtain ⟨s, hs, h⟩ := Option.bind_eq_some_iff.mp h
  obtain rfl := Option.some.inj h
  obtain ⟨t, ht, hs⟩ := Option.bind_eq_some_iff.mp hs
  obtain rfl := Option.some.inj hs
  have hbalanced : Balanced t := balanced_walkOne ht rfl
  have hbooked := NestedWalk.booked_walkOne ht (NestedWalk.booked_start N.rootBytes N.limits _)
  have hattempted : (t.accounts.map attemptedOf).sum = filesOf t.tally := by
    rw [hbooked.tally, zero_add, map_list_sum, List.map_map]
    exact congrArg List.sum (List.map_congr_left fun a _ ↦ (filesOf_tally a).symm)
  exact (congrArg (· + skippedOf t.tally) hbalanced).trans hattempted.symm

/-! ### Any task -/

/-- What processing a task can come to, with what it takes for it to be counted: in a list of files one
that cannot be staged is left out of the count, and so is one whose test for a regular file throws. -/
inductive Processed : Work ν → Prop → Prop
  | files {τ : Type} (destGallery : Bytes) (E : FilesTask.Task τ ν) (s : FilesTask.Worker ν)
      (turns : ℕ) (hcancel : ∀ k, E.cancel k = false)
      (hrun : FilesTask.processFilesTask E turns = some s) :
      Processed (filesWork destGallery s) ((∀ f ∈ E.files, ¬f.Throws) ∧
        ∀ i, (FilesTask.pending? E i).isSome → (FilesTask.outcome E i).isSome)
  | folder (S : StagingSink ν) (F : FolderTask) : Processed (processFolderTask S F) True
  | flat (S : StagingSink ν) (A : FlatTask) : Processed (processFlatTask S A) True
  | nested {ω : Type} (S : StagingSink ν) (N : NestedTask ω) (fuel : ℕ) (w : Work ν)
      (h : processNestedTask S N fuel = some w) : Processed w True

/-- **A task is counted** just when its staging does that. -/
theorem Processed.counted_iff {w : Work ν} {staged : Prop} (h : Processed w staged) :
    w.Counted ↔ staged := by
  rcases h with ⟨destGallery, E, s, turns, hcancel, hrun⟩ | ⟨S, F⟩ | ⟨S, A⟩ | ⟨S, N, fuel, w, h⟩
  · exact counted_filesWork_iff hcancel hrun destGallery
  · exact iff_true_intro (counted_processFolderTask S F)
  · exact iff_true_intro (counted_processFlatTask S A)
  · exact iff_true_intro (counted_processNestedTask h)

end ImportQueue

end SafeVault
