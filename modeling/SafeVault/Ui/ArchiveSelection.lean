import SafeVault.Lib.Claiming
import SafeVault.Ui.VolumeSetExact

/-!
# Planning which archives to import

The selected files are gone through in order. A file that no earlier one has claimed becomes a source, and
claims itself and the volumes of its set, which are looked for in the listing of its directory.

Whether each file ends up in one source does not depend on the order if the sets of any two selected files
are the same one or have no file in common. They need not be: a file can be a volume under both styles of
RAR, and a file that is not in the listing of its directory is in no set but finds one.
-/

namespace SafeVault

namespace Volumes

variable {ρ δ κ : Type}

/-- A normalised path: its parent and its file name. -/
structure FilePath (δ : Type) where
  parent : δ
  filename : Bytes
  deriving DecidableEq

structure ArchiveSelection (δ : Type) where
  path : FilePath δ
  volumes : VolumeSet
  deriving DecidableEq

/-- What the planning asks of the file system: `lexically_normal`, and the names in a directory. A name in a
listing is one component, so that joined to its directory it is normal already. -/
structure FileSystem (ρ δ : Type) where
  lexicallyNormal : ρ → FilePath δ
  listing : δ → List Bytes

variable {fs : FileSystem ρ δ} {sort : MemberSort} {p q f : FilePath δ} {set : VolumeSet}

/-- The paths of the volumes of a source. -/
def ArchiveSelection.volumeFiles (s : ArchiveSelection δ) : List (FilePath δ) :=
  s.volumes.volumes.map fun name ↦ ⟨s.path.parent, name⟩

section Plan

variable [DecidableEq δ]

/-- The loop over the paths, with what is claimed. -/
def planFrom (sort : MemberSort) (fs : FileSystem ρ δ) :
    List (FilePath δ) → List ρ → Option (List (ArchiveSelection δ))
  | _, [] => some []
  | claimed, path :: paths =>
    let picked := fs.lexicallyNormal path
    if picked ∈ claimed then planFrom sort fs claimed paths
    else do
      let volumes ← detectVolumeSet sort picked.filename (fs.listing picked.parent)
      let source : ArchiveSelection δ := ⟨picked, volumes⟩
      let sources ← planFrom sort fs (picked :: source.volumeFiles ++ claimed) paths
      some (source :: sources)

/-- `plan_archive_selection` -/
def planArchiveSelection (sort : MemberSort) (fs : FileSystem ρ δ) (paths : List ρ) :
    Option (List (ArchiveSelection δ)) := planFrom sort fs [] paths

end Plan

/-! ## What a plan should be -/

/-- A file is the picked one of a source or a volume of its set. -/
def ArchiveSelection.Covers (s : ArchiveSelection δ) (f : FilePath δ) : Prop := f = s.path ∨ f ∈ s.volumeFiles

/-- A file is in exactly one of the sources. -/
def InOne (sources : List (ArchiveSelection δ)) (f : FilePath δ) : Prop :=
  ∃ pre s post, sources = pre ++ s :: post ∧ s.Covers f ∧ ∀ t ∈ pre ++ post, ¬t.Covers f

/-- What a source stands for: a file on its own, or a set in a directory whichever volume was picked. -/
def ArchiveSelection.content (s : ArchiveSelection δ) : Option (FilePath δ) × δ × VolumeSet :=
  (if s.volumes.style = .none then some s.path else none, s.path.parent, s.volumes)

/-- In every order of the selected paths there is a plan, every selected file is in one source, no two sources
share a volume, and the sources are the same ones, as far as `what` tells them apart. -/
def PlansOnce [DecidableEq δ] (what : ArchiveSelection δ → κ) (sort : MemberSort) (fs : FileSystem ρ δ) (paths : List ρ) : Prop :=
  ∃ planned, planArchiveSelection sort fs paths = some planned ∧ ∀ order, order.Perm paths →
    ∃ sources, planArchiveSelection sort fs order = some sources ∧
      (∀ path ∈ order, InOne sources (fs.lexicallyNormal path)) ∧
      sources.Pairwise (fun s t ↦ ∀ f ∈ s.volumeFiles, f ∉ t.volumeFiles) ∧
      (sources.map what).Perm (planned.map what)

/-- The style and the stem of the first two files that a picked file has a set with. -/
def FoundAt (fs : FileSystem ρ δ) (style : VolumeStyle) (stem : Bytes) (p : FilePath δ) : Prop :=
  Found style stem p.filename (fs.listing p.parent)

/-- A file is the picked one or claims a place in the set that is found for it. -/
def CoveredBy (fs : FileSystem ρ δ) (p f : FilePath δ) : Prop :=
  f = p ∨ ∃ style stem, FoundAt fs style stem p ∧ f.parent = p.parent ∧
    ∃ ordinal, ⟨f.filename, ordinal⟩ ∈ claimants style stem (fs.listing p.parent)

/-- No ordinal that is read for a picked file is too large. -/
def Readable (fs : FileSystem ρ δ) (p : FilePath δ) : Prop :=
  NoOverflow p.filename (fs.listing p.parent) ∧
    ∀ style stem, FoundAt fs style stem p → Below style stem (fs.listing p.parent)

/-- Two files of one directory that find one set and are in it. -/
def SameSet (fs : FileSystem ρ δ) (p q : FilePath δ) : Prop :=
  p.parent = q.parent ∧ p.filename ∈ fs.listing p.parent ∧ q.filename ∈ fs.listing q.parent ∧
    ∃ style stem, FoundAt fs style stem p ∧ FoundAt fs style stem q

/-- Two different selected files that have a file in common stand in some relation. -/
def Meeting (rel : FilePath δ → FilePath δ → Prop) (fs : FileSystem ρ δ) (paths : List ρ) : Prop :=
  (∀ path ∈ paths, Readable fs (fs.lexicallyNormal path)) ∧
    ∀ a ∈ paths, ∀ b ∈ paths, fs.lexicallyNormal a ≠ fs.lexicallyNormal b →
      (∃ f, CoveredBy fs (fs.lexicallyNormal a) f ∧ CoveredBy fs (fs.lexicallyNormal b) f) →
        rel (fs.lexicallyNormal a) (fs.lexicallyNormal b)

/-! ## One picked file -/

/-- The source of a picked file, where there is a value. -/
def sourceOf (sort : MemberSort) (fs : FileSystem ρ δ) (p : FilePath δ) : ArchiveSelection δ :=
  ⟨p, (detectVolumeSet sort p.filename (fs.listing p.parent)).getD {}⟩

/-- What a picked file claims. -/
def filesOf (sort : MemberSort) (fs : FileSystem ρ δ) (p : FilePath δ) : List (FilePath δ) :=
  p :: (sourceOf sort fs p).volumeFiles

theorem readable_iff (sort : MemberSort) :
    Readable fs p ↔ ∃ set, detectVolumeSet sort p.filename (fs.listing p.parent) = some set := by
  constructor
  · rintro ⟨hno, hbelow⟩
    rcases found_or_passed p.filename (fs.listing p.parent) with ⟨style, stem, hfound⟩ | hpassed
    · exact ⟨_, (detect_of_found hfound).mpr ⟨⟨hno, hbelow style stem hfound⟩, rfl⟩⟩
    · exact ⟨_, (detect_of_passed hpassed).mpr ⟨hno, rfl⟩⟩
  · rintro ⟨set, hset⟩
    refine ⟨?_, fun style stem hfound ↦ ((detect_of_found hfound).mp hset).1.2⟩
    rcases found_or_passed p.filename (fs.listing p.parent) with ⟨style, stem, hfound⟩ | hpassed
    · exact ((detect_of_found hfound).mp hset).1.1
    · exact ((detect_of_passed hpassed).mp hset).1

theorem Readable.detect (sort : MemberSort) (h : Readable fs p) :
    detectVolumeSet sort p.filename (fs.listing p.parent) = some (sourceOf sort fs p).volumes := by
  obtain ⟨set, hset⟩ := (readable_iff sort).mp h
  rw [sourceOf, hset]
  rfl

/-- The set that is found, or none. -/
theorem Readable.volumes (sort : MemberSort) (h : Readable fs p) : (∃ style stem, FoundAt fs style stem p ∧
      (sourceOf sort fs p).volumes = assembled sort style stem (fs.listing p.parent)) ∨
    (∀ style stem, ¬FoundAt fs style stem p) ∧ (sourceOf sort fs p).volumes = {} := by
  rcases found_or_passed p.filename (fs.listing p.parent) with ⟨style, stem, hfound⟩ | hpassed
  · exact .inl ⟨style, stem, hfound, ((detect_of_found hfound).mp (h.detect sort)).2⟩
  · refine .inr ⟨fun style stem hfound ↦ ?_, ((detect_of_passed hpassed).mp (h.detect sort)).2⟩
    obtain ⟨ordinal, hclaim⟩ := hfound.claimed
    exact hfound.not_passed (hpassed style (mem_candidates (by rw [hclaim]; rfl)))

theorem mem_filesOf (sort : MemberSort) (h : Readable fs p) : f ∈ filesOf sort fs p ↔ CoveredBy fs p f := by
  rw [filesOf, List.mem_cons, CoveredBy, ArchiveSelection.volumeFiles, List.mem_map]
  refine or_congr_right ?_
  rcases h.volumes sort with ⟨style, stem, hfound, hvolumes⟩ | ⟨hnone, hvolumes⟩
  · rw [hvolumes]
    simp only [perm_volumes_assembled.mem_iff, List.mem_map]
    constructor
    · rintro ⟨name, ⟨m, hm, rfl⟩, rfl⟩
      exact ⟨style, stem, hfound, rfl, m.ordinal, hm⟩
    · rintro ⟨style', stem', hfound', hparent, ordinal, hm⟩
      obtain ⟨rfl, rfl⟩ := hfound.unique hfound'
      refine ⟨f.filename, ⟨_, hm, rfl⟩, ?_⟩
      rw [sourceOf, ← hparent]
  · rw [hvolumes]
    refine iff_of_false ?_ ?_
    · rintro ⟨name, hname, -⟩
      exact absurd hname List.not_mem_nil
    · rintro ⟨style, stem, hfound, -⟩
      exact hnone style stem hfound

theorem covers_iff (sort : MemberSort) (h : Readable fs p) : (sourceOf sort fs p).Covers f ↔ CoveredBy fs p f := by
  rw [← mem_filesOf sort h, filesOf, List.mem_cons]
  rfl

theorem coveredBy_self (fs : FileSystem ρ δ) (p : FilePath δ) : CoveredBy fs p p := .inl rfl

/-- A file in one set with another one is covered by it. -/
theorem SameSet.coveredBy (h : SameSet fs p q) : CoveredBy fs p q := by
  obtain ⟨hparent, -, hlisted, style, stem, hp, hq⟩ := h
  obtain ⟨ordinal, hclaim⟩ := hq.claimed
  rw [← hparent] at hlisted
  exact .inr ⟨style, stem, hp, hparent.symm, ordinal, mem_claimants.mpr ⟨hlisted, hclaim⟩⟩

/-- Files that find one set have the same content. -/
theorem content_eq (hp : Readable fs p) (hq : Readable fs q) (h : SameSet fs p q) :
    (sourceOf sort fs p).content = (sourceOf sort fs q).content := by
  obtain ⟨hparent, -, -, style, stem, hpfound, hqfound⟩ := h
  obtain ⟨ordinal, hclaim⟩ := hpfound.claimed
  have hset {r : FilePath δ} (hr : Readable fs r) (hfound : FoundAt fs style stem r) :
      (sourceOf sort fs r).volumes = assembled sort style stem (fs.listing r.parent) := by
    rcases hr.volumes sort with ⟨style', stem', hfound', hvolumes⟩ | ⟨hnone, -⟩
    · obtain ⟨rfl, rfl⟩ := Found.unique hfound hfound'
      exact hvolumes
    · exact absurd hfound (hnone style stem)
  have hstyle (listing : List Bytes) : (assembled sort style stem listing).style ≠ .none := by
    intro h
    obtain rfl : style = .none := h
    exact absurd hclaim (Option.some_ne_none _).symm
  rw [ArchiveSelection.content, ArchiveSelection.content, hset hp hpfound, hset hq hqfound, if_neg (hstyle _),
    if_neg (hstyle _), sourceOf, sourceOf, hparent]

/-- Files with the same content are one file or find one set. -/
theorem found_of_content_eq (hp : Readable fs p) (hq : Readable fs q)
    (h : (sourceOf sort fs p).content = (sourceOf sort fs q).content) :
    p = q ∨ p.parent = q.parent ∧ ∃ style stem, FoundAt fs style stem p ∧ FoundAt fs style stem q := by
  obtain ⟨hpath, hrest⟩ := Prod.mk.inj h
  obtain ⟨hparent, hvolumes⟩ := Prod.mk.inj hrest
  rw [hvolumes] at hpath
  rcases hq.volumes sort with ⟨style, stem, hfound, hset⟩ | ⟨-, hset⟩
  · right
    refine ⟨hparent, style, stem, ?_, hfound⟩
    rcases hp.volumes sort with ⟨style', stem', hfound', hset'⟩ | ⟨-, hset'⟩
    · have heq := hset'.symm.trans (hvolumes.trans hset)
      obtain rfl : style' = style := congrArg VolumeSet.style heq
      obtain rfl : stem' = stem := congrArg VolumeSet.stem heq
      exact hfound'
    · have heq := hset'.symm.trans (hvolumes.trans hset)
      obtain ⟨ordinal, hclaim⟩ := hfound.claimed
      obtain rfl : VolumeStyle.none = style := congrArg VolumeSet.style heq
      exact absurd hclaim (Option.some_ne_none _).symm
  · left
    rw [hset, if_pos rfl, if_pos rfl] at hpath
    exact Option.some.inj hpath

/-! ## Plans -/

section Plans

variable [DecidableEq δ] {paths order : List ρ} {claimed : List (FilePath δ)} {sources : List (ArchiveSelection δ)}

/-- **The plan** is made of the sources of the files that are kept. -/
theorem planFrom_eq (h : ∀ path ∈ paths, Readable fs (fs.lexicallyNormal path)) : planFrom sort fs claimed paths =
    some ((Claiming.keep (filesOf sort fs) claimed (paths.map fs.lexicallyNormal)).map (sourceOf sort fs)) := by
  induction paths generalizing claimed with
  | nil => rfl
  | cons path paths ih =>
    obtain ⟨hpath, hrest⟩ := List.forall_mem_cons.mp h
    rw [planFrom, List.map_cons]
    dsimp only
    by_cases hclaimed : fs.lexicallyNormal path ∈ claimed
    · rw [if_pos hclaimed, Claiming.keep_cons_of_mem hclaimed, ih hrest]
    · rw [if_neg hclaimed, Claiming.keep_cons_of_not_mem hclaimed, hpath.detect sort, Option.bind_eq_bind,
        Option.bind_some, ih hrest]
      rfl

/-- The first file of a plan is looked at. -/
theorem readable_of_plan {path : ρ} (h : planArchiveSelection sort fs (path :: paths) = some sources) :
    Readable fs (fs.lexicallyNormal path) := by
  rw [planArchiveSelection, planFrom] at h
  dsimp only at h
  rw [if_neg List.not_mem_nil] at h
  obtain ⟨set, hset, -⟩ := Option.bind_eq_some_iff.mp h
  exact (readable_iff sort).mpr ⟨set, hset⟩

omit [DecidableEq δ] in
theorem InOne.pairwise (h : InOne sources f) : sources.Pairwise fun s t ↦ ¬(s.Covers f ∧ t.Covers f) := by
  obtain ⟨pre, s, post, rfl, -, hnone⟩ := h
  obtain ⟨hpre, hpost⟩ := List.forall_mem_append.mp hnone
  refine List.pairwise_append.mpr ⟨?_, List.pairwise_cons.mpr ⟨fun t ht hboth ↦ hpost t ht hboth.2, ?_⟩, ?_⟩
  · exact List.pairwise_of_forall_mem_list fun s hs t _ hboth ↦ hpre s hs hboth.1
  · exact List.pairwise_of_forall_mem_list fun s hs t _ hboth ↦ hpost s hs hboth.1
  · exact fun s hs t _ hboth ↦ hpre s hs hboth.1

/-- The files of which the sources are, in an order of the selection. -/
def keptOf (sort : MemberSort) (fs : FileSystem ρ δ) (order : List ρ) : List (FilePath δ) :=
  Claiming.keep (filesOf sort fs) [] (order.map fs.lexicallyNormal)

theorem mem_keptOf (h : p ∈ keptOf sort fs order) : ∃ a ∈ order, fs.lexicallyNormal a = p :=
  List.mem_map.mp (Claiming.mem_of_mem_keep h).1

theorem readable_keptOf (h : Meeting (CoveredBy fs) fs paths) (hperm : order.Perm paths)
    (hp : p ∈ keptOf sort fs order) : Readable fs p := by
  obtain ⟨a, ha, rfl⟩ := mem_keptOf hp
  exact h.1 a (hperm.mem_iff.mp ha)

/-- Every selected file is covered by one that is kept. -/
theorem exists_keptOf (sort : MemberSort) (h : Meeting (CoveredBy fs) fs paths) (hperm : order.Perm paths) {path : ρ}
    (hpath : path ∈ order) : ∃ y ∈ keptOf sort fs order, CoveredBy fs y (fs.lexicallyNormal path) := by
  have hself : ∀ p : FilePath δ, p ∈ filesOf sort fs p := fun p ↦ List.mem_cons_self
  obtain ⟨y, hy, hcovered⟩ := (Claiming.exists_claims_of_mem hself
    (List.mem_map_of_mem hpath)).resolve_left List.not_mem_nil
  exact ⟨y, hy, (mem_filesOf sort (readable_keptOf h hperm hy)).mp hcovered⟩

/-- Where selected files that have a file in common cover each other, files that are kept have none. -/
theorem apart_keptOf (h : Meeting (CoveredBy fs) fs paths) (hperm : order.Perm paths) :
    (keptOf sort fs order).Pairwise fun p q ↦ ¬∃ f, CoveredBy fs p f ∧ CoveredBy fs q f := by
  refine (Claiming.pairwise_keep (filesOf sort fs) [] _).imp_of_mem fun {p q} hp hq hnot hmeets ↦ hnot ?_
  refine (mem_filesOf sort (readable_keptOf h hperm hp)).mpr ?_
  obtain ⟨a, ha, rfl⟩ := mem_keptOf hp
  obtain ⟨b, hb, rfl⟩ := mem_keptOf hq
  by_cases heq : fs.lexicallyNormal a = fs.lexicallyNormal b
  · rw [heq]
    exact coveredBy_self fs _
  · exact h.2 a (hperm.mem_iff.mp ha) b (hperm.mem_iff.mp hb) heq hmeets

/-- Every selected file is in one source. -/
theorem inOne_keptOf (h : Meeting (CoveredBy fs) fs paths) (hperm : order.Perm paths) {path : ρ}
    (hpath : path ∈ order) : InOne ((keptOf sort fs order).map (sourceOf sort fs)) (fs.lexicallyNormal path) := by
  obtain ⟨y, hy, hcovered⟩ := exists_keptOf sort h hperm hpath
  have hapart : (keptOf sort fs order).Pairwise _ := apart_keptOf h hperm
  have hread : ∀ p ∈ keptOf sort fs order, Readable fs p := fun p hp ↦ readable_keptOf h hperm hp
  obtain ⟨pre, post, hsplit⟩ := List.append_of_mem hy
  rw [hsplit] at hapart hread ⊢
  obtain ⟨-, hpost, hpre⟩ := List.pairwise_append.mp hapart
  refine ⟨pre.map (sourceOf sort fs), sourceOf sort fs y, post.map (sourceOf sort fs), ?_, ?_, ?_⟩
  · rw [List.map_append, List.map_cons]
  · exact (covers_iff sort (hread y (List.mem_append_right _ List.mem_cons_self))).mpr hcovered
  · intro t ht hcovers
    rw [← List.map_append] at ht
    obtain ⟨z, hz, rfl⟩ := List.mem_map.mp ht
    rcases List.mem_append.mp hz with hz | hz
    · have hzcovers := (covers_iff sort (hread z (List.mem_append_left _ hz))).mp hcovers
      exact hpre z hz y List.mem_cons_self ⟨_, hzcovers, hcovered⟩
    · have hzread := hread z (List.mem_append_right _ (List.mem_cons_of_mem _ hz))
      exact (List.pairwise_cons.mp hpost).1 z hz ⟨_, hcovered, (covers_iff sort hzread).mp hcovers⟩

/-- No two sources share a volume. -/
theorem disjoint_keptOf (h : Meeting (CoveredBy fs) fs paths) (hperm : order.Perm paths) :
    ((keptOf sort fs order).map (sourceOf sort fs)).Pairwise fun s t ↦ ∀ f ∈ s.volumeFiles, f ∉ t.volumeFiles := by
  refine List.pairwise_map.mpr ((apart_keptOf h hperm).imp_of_mem fun {p q} hp hq hnot f hf hf' ↦ hnot ⟨f, ?_, ?_⟩)
  · exact (mem_filesOf sort (readable_keptOf h hperm hp)).mp (List.mem_cons_of_mem _ hf)
  · exact (mem_filesOf sort (readable_keptOf h hperm hq)).mp (List.mem_cons_of_mem _ hf')

/-- Two orders have the same sources, where one covers the other if and only if they are told to be the same. -/
theorem perm_keptOf {what : ArchiveSelection δ → κ} (h : Meeting (CoveredBy fs) fs paths) (hperm : order.Perm paths)
    (hsame : ∀ a ∈ paths, ∀ b ∈ paths, CoveredBy fs (fs.lexicallyNormal a) (fs.lexicallyNormal b) ↔
      what (sourceOf sort fs (fs.lexicallyNormal a)) = what (sourceOf sort fs (fs.lexicallyNormal b))) :
    (((keptOf sort fs order).map (sourceOf sort fs)).map what).Perm
      (((keptOf sort fs paths).map (sourceOf sort fs)).map what) := by
  have hnodup {order : List ρ} (hperm : order.Perm paths) :
      (((keptOf sort fs order).map (sourceOf sort fs)).map what).Nodup := by
    rw [List.map_map]
    refine List.pairwise_map.mpr ((apart_keptOf h hperm).imp_of_mem fun {p q} hp hq hnot heq ↦ hnot ⟨q, ?_, ?_⟩)
    · obtain ⟨a, ha, rfl⟩ := mem_keptOf hp
      obtain ⟨b, hb, rfl⟩ := mem_keptOf hq
      exact (hsame a (hperm.mem_iff.mp ha) b (hperm.mem_iff.mp hb)).mpr heq
    · exact coveredBy_self fs q
  have hsub {order order' : List ρ} (hperm : order.Perm paths) (hperm' : order'.Perm paths) (x : κ)
      (hx : x ∈ ((keptOf sort fs order).map (sourceOf sort fs)).map what) :
      x ∈ ((keptOf sort fs order').map (sourceOf sort fs)).map what := by
    rw [List.map_map] at hx ⊢
    obtain ⟨p, hp, rfl⟩ := List.mem_map.mp hx
    obtain ⟨a, ha, rfl⟩ := mem_keptOf hp
    obtain ⟨y, hy, hcovered⟩ := exists_keptOf sort h hperm' (hperm'.mem_iff.mpr (hperm.mem_iff.mp ha))
    obtain ⟨b, hb, rfl⟩ := mem_keptOf hy
    refine List.mem_map.mpr ⟨_, hy, ?_⟩
    exact (hsame b (hperm'.mem_iff.mp hb) a (hperm.mem_iff.mp ha)).mp hcovered
  refine (List.perm_ext_iff_of_nodup (hnodup hperm) (hnodup (List.Perm.refl _))).mpr fun x ↦ ⟨?_, ?_⟩
  · exact hsub hperm (List.Perm.refl _) x
  · exact hsub (List.Perm.refl _) hperm x

/-- **Where it is enough.** -/
theorem plansOnce_of_meeting {what : ArchiveSelection δ → κ} (h : Meeting (CoveredBy fs) fs paths)
    (hsame : ∀ a ∈ paths, ∀ b ∈ paths, CoveredBy fs (fs.lexicallyNormal a) (fs.lexicallyNormal b) ↔
      what (sourceOf sort fs (fs.lexicallyNormal a)) = what (sourceOf sort fs (fs.lexicallyNormal b))) :
    PlansOnce what sort fs paths := by
  have hplan {order : List ρ} (hperm : order.Perm paths) :
      planArchiveSelection sort fs order = some ((keptOf sort fs order).map (sourceOf sort fs)) :=
    planFrom_eq fun path hpath ↦ h.1 path (hperm.mem_iff.mp hpath)
  refine ⟨_, hplan (List.Perm.refl _), fun order hperm ↦ ⟨_, hplan hperm, fun path hpath ↦ ?_, ?_, ?_⟩⟩
  · exact inOne_keptOf h hperm hpath
  · exact disjoint_keptOf h hperm
  · exact perm_keptOf h hperm hsame

/-! ## What a plan needs -/

/-- The plan of an order that begins with two different files. -/
theorem plan_two (sort : MemberSort) {a b : ρ} {rest : List ρ}
    (hread : ∀ path ∈ a :: b :: rest, Readable fs (fs.lexicallyNormal path)) :
    ∃ tail, planArchiveSelection sort fs (a :: b :: rest) =
      some (sourceOf sort fs (fs.lexicallyNormal a) :: tail) ∧
      (fs.lexicallyNormal b ∉ filesOf sort fs (fs.lexicallyNormal a) →
        sourceOf sort fs (fs.lexicallyNormal b) ∈ tail) := by
  have hplan : planArchiveSelection sort fs (a :: b :: rest) = _ := planFrom_eq hread
  rw [List.map_cons, Claiming.keep_cons_of_not_mem List.not_mem_nil, List.map_cons] at hplan
  refine ⟨_, hplan, fun hnot ↦ ?_⟩
  rw [List.append_nil, List.map_cons, Claiming.keep_cons_of_not_mem hnot]
  exact List.mem_cons_self

/-- Two different elements can come first. -/
theorem exists_order {a b : ρ} (ha : a ∈ paths) (hb : b ∈ paths) (hne : a ≠ b) :
    ∃ rest, (a :: b :: rest).Perm paths := by
  obtain ⟨pre, post, rfl⟩ := List.append_of_mem ha
  have hb' : b ∈ pre ++ post := by
    rcases List.mem_append.mp hb with hb | hb
    · exact List.mem_append_left _ hb
    · exact List.mem_append_right _ ((List.mem_cons.mp hb).resolve_left (Ne.symm hne))
  obtain ⟨pre', post', hsplit⟩ := List.append_of_mem hb'
  refine ⟨pre' ++ post', ?_⟩
  refine (List.Perm.cons a ?_).trans List.perm_middle.symm
  rw [hsplit]
  exact List.perm_middle.symm

variable {what : ArchiveSelection δ → κ}

theorem PlansOnce.readable (h : PlansOnce what sort fs paths) {path : ρ} (hpath : path ∈ paths) :
    Readable fs (fs.lexicallyNormal path) := by
  obtain ⟨planned, -, hall⟩ := h
  obtain ⟨pre, post, rfl⟩ := List.append_of_mem hpath
  obtain ⟨sources, hsources, -⟩ := hall (path :: (pre ++ post)) List.perm_middle.symm
  exact readable_of_plan hsources

/-- Of two files that have a file in common the first one claims the second. -/
theorem PlansOnce.coveredBy (h : PlansOnce what sort fs paths) {a b : ρ} (ha : a ∈ paths) (hb : b ∈ paths)
    (hne : fs.lexicallyNormal a ≠ fs.lexicallyNormal b)
    (hmeet : ∃ f, CoveredBy fs (fs.lexicallyNormal a) f ∧ CoveredBy fs (fs.lexicallyNormal b) f) :
    CoveredBy fs (fs.lexicallyNormal a) (fs.lexicallyNormal b) := by
  have hread {path : ρ} (hpath : path ∈ paths) := h.readable hpath
  obtain ⟨planned, -, hall⟩ := h
  obtain ⟨rest, hperm⟩ := exists_order ha hb fun heq ↦ hne (congrArg _ heq)
  obtain ⟨sources, hsources, hone, hdisjoint, -⟩ := hall _ hperm
  obtain ⟨tail, hplan, htail⟩ := plan_two sort fun path hpath ↦ hread (hperm.mem_iff.mp hpath)
  obtain rfl := Option.some.inj (hsources.symm.trans hplan)
  refine (mem_filesOf sort (hread ha)).mp (by_contra fun hnot ↦ ?_)
  have hsecond := htail hnot
  obtain ⟨f, hfa, hfb⟩ := hmeet
  -- The common file would be in two sources, or a volume of two.
  rcases List.mem_cons.mp ((mem_filesOf sort (hread ha)).mpr hfa) with rfl | hfa'
  · have hpair := (List.pairwise_cons.mp (hone a List.mem_cons_self).pairwise).1 _ hsecond
    exact hpair ⟨.inl rfl, (covers_iff sort (hread hb)).mpr hfb⟩
  · rcases List.mem_cons.mp ((mem_filesOf sort (hread hb)).mpr hfb) with rfl | hfb'
    · exact hnot (List.mem_cons_of_mem _ hfa')
    · exact (List.pairwise_cons.mp hdisjoint).1 _ hsecond f hfa' hfb'

omit [DecidableEq δ] in
/-- A file that another one covers is in the listing of the directory, and that one has found a set. -/
theorem CoveredBy.found (h : CoveredBy fs p q) (hne : p ≠ q) :
    p.parent = q.parent ∧ q.filename ∈ fs.listing q.parent ∧ ∃ style stem, FoundAt fs style stem p := by
  rcases h with rfl | ⟨style, stem, hfound, hparent, ordinal, hmem⟩
  · exact absurd rfl hne
  · exact ⟨hparent.symm, hparent ▸ (mem_claimants.mp hmem).1, style, stem, hfound⟩

/-- Two files that have a file in common are told to be the same. -/
theorem PlansOnce.what_eq (h : PlansOnce what sort fs paths)
    (hwhat : ∀ s t : ArchiveSelection δ, what s = what t → s.path.parent = t.path.parent ∧ s.volumes = t.volumes)
    {a b : ρ} (ha : a ∈ paths) (hb : b ∈ paths) (hne : fs.lexicallyNormal a ≠ fs.lexicallyNormal b)
    (hab : CoveredBy fs (fs.lexicallyNormal a) (fs.lexicallyNormal b))
    (hba : CoveredBy fs (fs.lexicallyNormal b) (fs.lexicallyNormal a)) :
    what (sourceOf sort fs (fs.lexicallyNormal a)) = what (sourceOf sort fs (fs.lexicallyNormal b)) := by
  have hread {path : ρ} (hpath : path ∈ paths) := h.readable hpath
  obtain ⟨planned, -, hall⟩ := h
  obtain ⟨rest, hperm⟩ := exists_order ha hb fun heq ↦ hne (congrArg _ heq)
  obtain ⟨rest', hperm'⟩ := exists_order hb ha fun heq ↦ hne (congrArg _ heq).symm
  obtain ⟨sources, hsources, hone, -, hsame⟩ := hall _ hperm
  obtain ⟨sources', hsources', -, -, hsame'⟩ := hall _ hperm'
  obtain ⟨tail, hplan, -⟩ := plan_two sort fun path hpath ↦ hread (hperm.mem_iff.mp hpath)
  obtain ⟨tail', hplan', -⟩ := plan_two sort fun path hpath ↦ hread (hperm'.mem_iff.mp hpath)
  obtain rfl := Option.some.inj (hsources.symm.trans hplan)
  obtain rfl := Option.some.inj (hsources'.symm.trans hplan')
  have hmem : what (sourceOf sort fs (fs.lexicallyNormal b)) ∈ (_ :: tail).map what :=
    (hsame.trans hsame'.symm).mem_iff.mpr List.mem_cons_self
  obtain ⟨s, hs, heq⟩ := List.mem_map.mp hmem
  rcases List.mem_cons.mp hs with rfl | hs
  · exact heq
  · -- Another source with the set of the second file has this file as a volume, as the first source has.
    exfalso
    obtain ⟨-, hlisted, -⟩ := hab.found hne
    obtain ⟨-, -, style, stem, hfound⟩ := hba.found hne.symm
    obtain ⟨ordinal, hclaim⟩ := Found.claimed hfound
    obtain ⟨hparent, hvolumes⟩ := hwhat _ _ heq
    have hvolume : fs.lexicallyNormal b ∈ s.volumeFiles := by
      rcases (hread hb).volumes sort with ⟨style', stem', hfound', hset⟩ | ⟨hnone, -⟩
      · obtain ⟨rfl, rfl⟩ := Found.unique hfound hfound'
        rw [ArchiveSelection.volumeFiles, hvolumes, hset, hparent]
        refine List.mem_map.mpr ⟨(fs.lexicallyNormal b).filename, perm_volumes_assembled.mem_iff.mpr ?_, rfl⟩
        have hmember : ⟨(fs.lexicallyNormal b).filename, ordinal⟩ ∈
            claimants style stem (fs.listing (fs.lexicallyNormal b).parent) := mem_claimants.mpr ⟨hlisted, hclaim⟩
        exact List.mem_map_of_mem hmember
      · exact absurd hfound (hnone style stem)
    have hpair := (List.pairwise_cons.mp (hone b (List.mem_cons_of_mem _ List.mem_cons_self)).pairwise).1 s hs
    exact hpair ⟨(covers_iff sort (hread ha)).mpr hab, .inr hvolume⟩

end Plans

/-- **When a plan does not depend on the order**: where any two different selected files that have a file in
common find one set and are in it. The picked files that the sources come with are the same ones too where
no two selected files have a file in common. -/
theorem plansOnce_iff [DecidableEq δ] (sort : MemberSort) (fs : FileSystem ρ δ) (paths : List ρ) :
    (PlansOnce ArchiveSelection.content sort fs paths ↔ Meeting (SameSet fs) fs paths) ∧
      (PlansOnce id sort fs paths ↔ Meeting (fun _ _ ↦ False) fs paths) := by
  have hself {a b : ρ} (hab : CoveredBy fs (fs.lexicallyNormal a) (fs.lexicallyNormal b)) :
      ∃ f, CoveredBy fs (fs.lexicallyNormal a) f ∧ CoveredBy fs (fs.lexicallyNormal b) f :=
    ⟨_, hab, coveredBy_self fs _⟩
  refine ⟨⟨fun h ↦ ⟨fun path hpath ↦ h.readable hpath, fun a ha b hb hne hmeet ↦ ?_⟩, fun h ↦ ?_⟩,
    ⟨fun h ↦ ⟨fun path hpath ↦ h.readable hpath, fun a ha b hb hne hmeet ↦ ?_⟩, fun h ↦ ?_⟩⟩
  · have hab := h.coveredBy ha hb hne hmeet
    have hba := h.coveredBy hb ha hne.symm (hmeet.imp fun f hf ↦ hf.symm)
    have hcontent := h.what_eq (fun s t hst ↦ Prod.mk.inj (Prod.mk.inj hst).2) ha hb hne hab hba
    obtain ⟨-, hb', -⟩ := hab.found hne
    obtain ⟨-, ha', -⟩ := hba.found hne.symm
    obtain ⟨hparent, hfound⟩ := (found_of_content_eq (h.readable ha) (h.readable hb) hcontent).resolve_left hne
    exact ⟨hparent, ha', hb', hfound⟩
  · have hmeeting : Meeting (CoveredBy fs) fs paths :=
      ⟨h.1, fun a ha b hb hne hmeet ↦ (h.2 a ha b hb hne hmeet).coveredBy⟩
    refine plansOnce_of_meeting hmeeting fun a ha b hb ↦ ?_
    by_cases heq : fs.lexicallyNormal a = fs.lexicallyNormal b
    · rw [heq]
      exact iff_of_true (coveredBy_self fs _) rfl
    constructor
    · intro hab
      exact content_eq (h.1 a ha) (h.1 b hb) (h.2 a ha b hb heq (hself hab))
    · intro hcontent
      obtain ⟨hparent, style, stem, hfound, hfound'⟩ :=
        (found_of_content_eq (h.1 a ha) (h.1 b hb) hcontent).resolve_left heq
      -- The set that both have found has volumes, so that they have a file in common.
      obtain ⟨m, hm⟩ := List.exists_mem_of_length_pos (Nat.zero_lt_two.trans_le hfound.many)
      refine (h.2 a ha b hb heq ⟨⟨(fs.lexicallyNormal a).parent, m.name⟩, ?_, ?_⟩).coveredBy
      · exact .inr ⟨style, stem, hfound, rfl, m.ordinal, hm⟩
      · exact .inr ⟨style, stem, hfound', hparent, m.ordinal, hparent ▸ hm⟩
  · have hab := h.coveredBy ha hb hne hmeet
    have hba := h.coveredBy hb ha hne.symm (hmeet.imp fun f hf ↦ hf.symm)
    have hsource := h.what_eq (fun s t hst ↦ ⟨congrArg (·.path.parent) hst, congrArg (·.volumes) hst⟩) ha hb hne hab hba
    exact hne (congrArg (·.path) hsource)
  · have hmeeting : Meeting (CoveredBy fs) fs paths :=
      ⟨h.1, fun a ha b hb hne hmeet ↦ (h.2 a ha b hb hne hmeet).elim⟩
    refine plansOnce_of_meeting hmeeting fun a ha b hb ↦ ?_
    by_cases heq : fs.lexicallyNormal a = fs.lexicallyNormal b
    · rw [heq]
      exact iff_of_true (coveredBy_self fs _) rfl
    · exact iff_of_false (fun hab ↦ h.2 a ha b hb heq (hself hab)) fun hsource ↦ heq (congrArg (·.path) hsource)

/-- A part of a RAR set that is picked before an old volume beside it leaves that one to become a source of
its own, which has the first part as a volume too. -/
theorem parts_and_old_volumes :
    let names := [ascii "a.part1.rar", ascii "a.part2.rar", ascii "a.part1.r00"]
    let fs : FileSystem (FilePath Unit) Unit := ⟨id, fun _ ↦ names⟩
    ¬PlansOnce ArchiveSelection.content .insertion fs [⟨(), ascii "a.part1.rar"⟩, ⟨(), ascii "a.part1.r00"⟩] := by
  intro names fs
  rintro ⟨planned, -, hall⟩
  obtain ⟨sources, hsources, -, hdisjoint, -⟩ := hall _ (List.Perm.refl _)
  obtain rfl : (planArchiveSelection .insertion fs
      [⟨(), ascii "a.part1.rar"⟩, ⟨(), ascii "a.part1.r00"⟩]).getD [] = sources := by
    rw [hsources]
    rfl
  exact absurd hdisjoint (by decide +kernel)

end Volumes

end SafeVault
