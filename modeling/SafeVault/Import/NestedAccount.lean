import SafeVault.Import.NestedTally
import Mathlib.Logic.Relation

/-!
# Where a walk puts things

Everything that is planned for an archive has its turn once, unless a gallery is refused: then what was
to go there has none. The archives in an archive get galleries of different names, but nothing compares
these with the folders that are planned beside them; and a name may get too long by the number after it,
or a folder may be cut to the name of a device.

## The points of a walk

A walk comes to a point before it opens an archive and before each archive in it. What has to hold for
everything to be settled is asked of these points, and so of the hooks, the plan and the names taken
there.
-/

namespace SafeVault

namespace NestedWalk

variable {σ : Type} {H : Hooks σ} {s t u : Walk σ} {f : Frame} {a : Account σ}
  {ps : List ZipPlacement} {p : ZipPlacement} {taken : List Bytes} {dest : Bytes} {n : ℕ}

/-! ## Where the walk comes -/

section Points

/-- A point of a walk: before an archive is opened, or before what is left of the archives in it. -/
inductive Point (σ : Type) where
  | archive (f : Frame) (s : Walk σ)
  | turn (a : Account σ) (ps : List ZipPlacement) (taken : List Bytes) (s : Walk σ)

/-- The points to which a point leads. -/
inductive Next (H : Hooks σ) : Point σ → Point σ → Prop
  | opened {f : Frame} {s t : Walk σ} {plan : ZipPlan} {a : Account σ}
      (h : openArchive H f s = (some (plan, a), t)) :
      Next H (.archive f s) (.turn a plan.nested [] t)
  | refused {a : Account σ} {p : ZipPlacement} {ps : List ZipPlacement} {taken : List Bytes}
      {s t : Walk σ} {fate : Fate} (h : pick H a.frame p taken s = .refused fate t) :
      Next H (.turn a (p :: ps) taken s) (.turn (a.note p s fate) ps taken t)
  | unmade {a : Account σ} {p : ZipPlacement} {ps : List ZipPlacement} {taken : List Bytes}
      {s t : Walk σ} {name : Bytes} (h : pick H a.frame p taken s = .unmade name t) :
      Next H (.turn a (p :: ps) taken s) (.turn a ps (taken ++ [name]) t)
  | entered {a : Account σ} {p : ZipPlacement} {ps : List ZipPlacement} {taken : List Bytes}
      {s t : Walk σ} {name child : Bytes} {kind : ArchiveKind}
      (h : pick H a.frame p taken s = .picked name kind child t) :
      Next H (.turn a (p :: ps) taken s)
        (.archive ⟨child, kind, subGallery p.galleryPath name, a.frame.depth + 1⟩
          (t.enter (a.frame.depth + 1) child))
  | left {a : Account σ} {p : ZipPlacement} {ps : List ZipPlacement} {taken : List Bytes}
      {s t u : Walk σ} {name child : Bytes} {kind : ArchiveKind} {n : ℕ}
      (h : pick H a.frame p taken s = .picked name kind child t)
      (hwalk : walkOne H n ⟨child, kind, subGallery p.galleryPath name, a.frame.depth + 1⟩
        (t.enter (a.frame.depth + 1) child) = some u) :
      Next H (.turn a (p :: ps) taken s)
        (.turn (a.note p s (.entered name)) ps (taken ++ [name])
          ((u.leave child).setHooked (H.archiveDone child (u.leave child).hooked)))

/-- The galleries are made in turn. -/
def Makes (H : Hooks σ) : List Bytes → σ → Prop
  | [], _ => True
  | g :: gs, x => (H.createGallery g x).1 = true ∧ Makes H gs (H.createGallery g x).2

/-- What is asked of an archive that is let in under a name: its gallery is made, nothing is planned in
it or below it, the name is not too long, and no folder it is in is cut to the name of a device. -/
structure Welcome (H : Hooks σ) (f : Frame) (entries : List ZipEntry) (p : ZipPlacement)
    (name : Bytes) (x : σ) : Prop where
  made : (H.createGallery (subGallery p.galleryPath name) x).1 = true
  outside : ∀ q ∈ (planOf f entries).placements ++ (planOf f entries).nested,
    ¬splitPath (subGallery p.galleryPath name) <+: splitPath q.galleryPath
  short : name.length ≤ maxNodeNameBytes
  folders : ∀ e, entries[p.entryIndex]? = some e →
    ∀ seg ∈ splitPath (ZipPlan.dirnameOf e.path), ¬CutsToDevice seg

/-- What is asked of a point: that the galleries planned for an archive are made, and that the next
archive in it is welcome, if the budget lets it in, under the first name that is free. -/
def Point.Clear (H : Hooks σ) : Point σ → Prop
  | .archive f s => ∀ entries x, H.listEntries f.bytes f.kind s.hooked = (some entries, x) →
    Makes H (planOf f entries).galleries x
  | .turn _ [] _ _ => True
  | .turn a (p :: _) taken s => ∀ entries child x k, a.entries = some entries →
    Admitted H a.frame p s.hooked s.budget child x →
    ArchiveNames.FirstFree (ArchiveNames.baseName p.filename) taken k →
    Welcome H a.frame entries p (ArchiveNames.nameTried (ArchiveNames.baseName p.filename) k) x

/-- Every point to which this one leads is clear. -/
def Clears (H : Hooks σ) (q : Point σ) : Prop :=
  ∀ q', Relation.ReflTransGen (Next H) q q' → q'.Clear H

theorem clears_iff {q : Point σ} :
    Clears H q ↔ q.Clear H ∧ ∀ q', Next H q q' → Clears H q' := by
  constructor
  · intro h
    exact ⟨h q .refl, fun q' hnext q'' hreach ↦ h q'' (.head hnext hreach)⟩
  · rintro ⟨hclear, hnext⟩ q' hreach
    rcases Relation.ReflTransGen.cases_head hreach with rfl | ⟨q'', hstep, hrest⟩
    · exact hclear
    · exact hnext q'' hstep q' hrest

/-- Nothing is asked once all archives were looked at. -/
theorem clears_turn_nil (a : Account σ) (taken : List Bytes) (s : Walk σ) :
    Clears H (.turn a [] taken s) := by
  refine clears_iff.mpr ⟨trivial, fun q' hnext ↦ ?_⟩
  cases hnext

theorem clears_of_refused {fate : Fate} (h : pick H a.frame p taken s = .refused fate t) :
    Clears H (.turn a (p :: ps) taken s) ↔ Clears H (.turn (a.note p s fate) ps taken t) := by
  have hpick := pick_cases H a.frame p taken s
  rw [h] at hpick
  obtain ⟨-, -, hmeets, hfate⟩ := hpick
  rw [clears_iff]
  constructor
  · exact fun hclear ↦ hclear.2 _ (.refused h)
  · intro hrest
    refine ⟨fun entries child x k _ hadmitted ↦ ?_, fun q' hnext ↦ ?_⟩
    · exact absurd hadmitted (not_admitted_of_meets hmeets hfate child x)
    · rcases hnext with _ | h' | h' | h' | h'
      · obtain ⟨rfl, rfl⟩ := Pick.refused.inj (h.symm.trans h')
        exact hrest
      all_goals exact nomatch h.symm.trans h'

/-- Where no gallery is made the point is not clear. -/
theorem not_clears_of_unmade {name : Bytes} {entries : List ZipEntry} (ha : a.entries = some entries)
    (h : pick H a.frame p taken s = .unmade name t) : ¬Clears H (.turn a (p :: ps) taken s) := by
  have hpick := pick_cases H a.frame p taken s
  rw [h] at hpick
  obtain ⟨-, hname, child, x, hadmitted, hmade⟩ := hpick
  intro hclears
  obtain ⟨k, hfirst, hk⟩ := ArchiveNames.exists_firstFree (ArchiveNames.baseName p.filename) taken
  have hwelcome := (clears_iff.mp hclears).1 entries child x k ha hadmitted hfirst
  rw [hname, hk, hwelcome.made] at hmade
  exact Bool.false_ne_true hmade.symm

/-- Where the archive is entered, it is welcome, and the points in it and after it are clear. -/
theorem clears_of_picked (ps : List ZipPlacement) {name child : Bytes} {kind : ArchiveKind}
    {entries : List ZipEntry}
    (ha : a.entries = some entries) (h : pick H a.frame p taken s = .picked name kind child t)
    (hwalk : walkOne H n ⟨child, kind, subGallery p.galleryPath name, a.frame.depth + 1⟩
      (t.enter (a.frame.depth + 1) child) = some u) :
    ∃ x, (H.createGallery (subGallery p.galleryPath name) x).1 = true ∧
      (Clears H (.turn a (p :: ps) taken s) ↔
        Welcome H a.frame entries p name x ∧
        Clears H (.archive ⟨child, kind, subGallery p.galleryPath name, a.frame.depth + 1⟩
          (t.enter (a.frame.depth + 1) child)) ∧
        Clears H (.turn (a.note p s (.entered name)) ps (taken ++ [name])
          ((u.leave child).setHooked (H.archiveDone child (u.leave child).hooked)))) := by
  have hpick := pick_cases H a.frame p taken s
  rw [h] at hpick
  obtain ⟨-, hname, x, hadmitted, hmade⟩ := hpick
  obtain ⟨k, hfirst, hk⟩ := ArchiveNames.exists_firstFree (ArchiveNames.baseName p.filename) taken
  rw [hk] at hname
  refine ⟨x, hmade, ?_⟩
  rw [clears_iff]
  constructor
  · rintro ⟨hclear, hnext⟩
    exact ⟨hname ▸ hclear entries child x k ha hadmitted hfirst, hnext _ (.entered h),
      hnext _ (.left h hwalk)⟩
  · rintro ⟨hwelcome, hchild, hrest⟩
    refine ⟨fun entries' child' x' k' ha' hadmitted' hfirst' ↦ ?_, fun q' hnext ↦ ?_⟩
    · obtain rfl := Option.some.inj (ha.symm.trans ha')
      obtain ⟨-, rfl⟩ := Prod.mk.inj (hadmitted.1.symm.trans hadmitted'.1)
      rw [← hfirst.unique hfirst', ← hname]
      exact hwelcome
    · rcases hnext with _ | h' | h' | h' | ⟨h', hwalk'⟩
      case entered =>
        obtain ⟨rfl, rfl, rfl, rfl⟩ := Pick.picked.inj (h.symm.trans h')
        exact hchild
      case left =>
        obtain ⟨rfl, rfl, rfl, rfl⟩ := Pick.picked.inj (h.symm.trans h')
        obtain rfl := walkOne_unique hwalk hwalk'
        exact hrest
      all_goals exact nomatch h.symm.trans h'

end Points

/-! ## Galleries for archives -/

section Galleries

variable {entries : List ZipEntry}

/-- Below `dest` a path has safe names only. -/
def SafeBelow (dest path : Bytes) : Prop :=
  ∀ seg ∈ (splitPath path).drop (splitPath dest).length, isSafeNodeName seg = true

/-- A gallery for an archive is none of the folders that are planned beside it, and its names are safe. -/
structure Fits (dest : Bytes) (plan : ZipPlan) (g : Bytes) : Prop where
  beside : ∀ path ∈ plan.galleries, splitPath path ≠ splitPath g
  safe : SafeBelow dest g

theorem splitPath_subGallery (galleryPath : Bytes) {name : Bytes} (hs : slash ∉ name)
    (hne : name ≠ []) : splitPath (subGallery galleryPath name) = splitPath galleryPath ++ [name] := by
  rw [subGallery]
  split_ifs with hempty
  · rw [List.isEmpty_iff.mp hempty]
    exact splitPath_of_slash_not_mem hs hne
  · rw [List.append_assoc, List.singleton_append, splitPath_append_slash,
      splitPath_of_slash_not_mem hs hne]

theorem splitPath_subGallery_nameTried (p : ZipPlacement) (k : ℕ) :
    splitPath (subGallery p.galleryPath
      (ArchiveNames.nameTried (ArchiveNames.baseName p.filename) k)) =
      splitPath p.galleryPath ++ [ArchiveNames.nameTried (ArchiveNames.baseName p.filename) k] :=
  splitPath_subGallery _ (ArchiveNames.clean_nameTried p.filename k).slash_not_mem
    (ArchiveNames.nameTried_ne_nil p.filename k)

/-- There is a gallery to ask for only if something is planned. -/
theorem planned_of_galleries (f : Frame) (entries : List ZipEntry)
    (h : (planOf f entries).galleries ≠ []) :
    (planOf f entries).placements ≠ [] ∨ (planOf f entries).nested ≠ [] := by
  rw [planOf] at h ⊢
  split_ifs at h ⊢
  · exact .inl (ZipPlan.placements_of_galleries_ne_nil f.gallery [] h)
  · exact ZipPlan.planned_of_galleries_ne_nil f.gallery [] h

theorem length_filename_le (root : Bytes) (e : ZipEntry × ℕ) :
    (ZipPlan.placementOf root e).filename.length ≤ maxNodeNameBytes := by
  rw [ZipPlan.filename_placementOf, ZipPlan.basenameOf]
  exact (repaired_sanitizeNodeName _).length

/-- An archive in an archive is an entry of it that lies in repaired folders below its gallery. -/
theorem planOf_of_mem_nested (hp : p ∈ (planOf f entries).nested) :
    planOf f entries = ZipPlan.buildZipPlan entries f.gallery [] ∧
      p.filename.length ≤ maxNodeNameBytes ∧ ∃ e, entries[p.entryIndex]? = some e ∧
        splitPath p.galleryPath =
          splitPath f.gallery ++ (splitPath (ZipPlan.dirnameOf e.path)).map sanitizeNodeName := by
  rw [planOf] at hp ⊢
  split_ifs at hp ⊢
  · exact absurd hp List.not_mem_nil
  · obtain ⟨⟨e, i⟩, he, rfl⟩ := List.mem_map.mp hp
    refine ⟨rfl, length_filename_le _ (e, i), e, ?_, ?_⟩
    · exact List.mem_zipIdx_iff_getElem?.mp (List.mem_of_mem_filter (List.mem_of_mem_filter he))
    · rw [ZipPlan.joinPath_nil]
      exact ZipPlan.splitPath_placementOf f.gallery (e, i)

/-- The gallery for an archive lies below that of the archive it is in. -/
theorem below_subGallery (hp : p ∈ (planOf f entries).nested)
    (hbelow : splitPath dest <+: splitPath f.gallery) {name : Bytes}
    (hname : name = ArchiveNames.uniqueGalleryName (ArchiveNames.baseName p.filename) taken) :
    splitPath dest <+: splitPath (subGallery p.galleryPath name) := by
  obtain ⟨k, -, hk⟩ := ArchiveNames.exists_firstFree (ArchiveNames.baseName p.filename) taken
  obtain ⟨-, -, e, -, hpath⟩ := planOf_of_mem_nested hp
  rw [hname, hk, splitPath_subGallery_nameTried, hpath, List.append_assoc]
  exact hbelow.trans (List.prefix_append _ _)

/-- **A gallery for an archive fits** exactly if nothing is planned in it or below it, the name is not too
long, and no folder above it is cut to the name of a device. -/
theorem fits_iff (hp : p ∈ (planOf f entries).nested) (hbelow : splitPath dest <+: splitPath f.gallery)
    (hsafe : SafeBelow dest f.gallery) (k : ℕ) {name : Bytes}
    (hname : name = ArchiveNames.nameTried (ArchiveNames.baseName p.filename) k) :
    Fits dest (planOf f entries) (subGallery p.galleryPath name) ↔
      (∀ q ∈ (planOf f entries).placements ++ (planOf f entries).nested,
        ¬splitPath (subGallery p.galleryPath name) <+: splitPath q.galleryPath) ∧
      name.length ≤ maxNodeNameBytes ∧
      ∀ e, entries[p.entryIndex]? = some e →
        ∀ seg ∈ splitPath (ZipPlan.dirnameOf e.path), ¬CutsToDevice seg := by
  obtain ⟨hplan, hlen, e, he, hpath⟩ := planOf_of_mem_nested hp
  have hsub : splitPath (subGallery p.galleryPath name) = splitPath f.gallery ++
      (splitPath (ZipPlan.dirnameOf e.path)).map sanitizeNodeName ++ [name] := by
    rw [hname, splitPath_subGallery_nameTried, hpath]
  have hclash := @ZipPlan.exists_mem_galleries_iff entries f.gallery
    (splitPath (subGallery p.galleryPath name)) (fun heq ↦ by
      have hlength := congrArg List.length heq
      rw [hsub, List.append_assoc, List.length_append, List.length_append,
        List.length_singleton] at hlength
      omega) (by
      rw [hsub]
      exact List.append_ne_nil_of_right_ne_nil _ (List.cons_ne_nil _ _))
  rw [← hplan] at hclash
  have hbeside : (∀ path ∈ (planOf f entries).galleries,
      splitPath path ≠ splitPath (subGallery p.galleryPath name)) ↔
      ∀ q ∈ (planOf f entries).placements ++ (planOf f entries).nested,
        ¬splitPath (subGallery p.galleryPath name) <+: splitPath q.galleryPath := by
    have hnot := not_congr hclash
    push Not at hnot
    exact hnot
  have hnames : SafeBelow dest (subGallery p.galleryPath name) ↔
      name.length ≤ maxNodeNameBytes ∧
        ∀ seg ∈ splitPath (ZipPlan.dirnameOf e.path), ¬CutsToDevice seg := by
    have hdrop : (splitPath (subGallery p.galleryPath name)).drop (splitPath dest).length =
        (splitPath f.gallery).drop (splitPath dest).length ++
          ((splitPath (ZipPlan.dirnameOf e.path)).map sanitizeNodeName ++ [name]) := by
      rw [hsub, List.append_assoc, List.drop_append_of_le_length hbelow.length_le]
    rw [SafeBelow, hdrop, List.forall_mem_append, List.forall_mem_append, List.forall_mem_singleton,
      hname, ArchiveNames.isSafeNodeName_nameTried_iff hlen, List.forall_mem_map, and_comm (b := _ ≤ _)]
    refine (and_iff_right hsafe).trans (and_congr_right fun _ ↦ forall₂_congr fun seg _ ↦ ?_)
    exact isSafeNodeName_sanitizeNodeName_iff_not_cutsToDevice seg
  have hentry : (∀ e', entries[p.entryIndex]? = some e' →
      ∀ seg ∈ splitPath (ZipPlan.dirnameOf e'.path), ¬CutsToDevice seg) ↔
      ∀ seg ∈ splitPath (ZipPlan.dirnameOf e.path), ¬CutsToDevice seg := by
    refine ⟨fun h ↦ h e he, fun h e' he' ↦ ?_⟩
    obtain rfl := Option.some.inj (he.symm.trans he')
    exact h
  rw [hentry, ← hnames, ← hbeside]
  exact ⟨fun h ↦ ⟨h.beside, h.safe⟩, fun h ↦ ⟨h.1, h.2⟩⟩

end Galleries

/-! ## What the walk accounts for -/

/-- The gallery of an archive that was entered. -/
def Candidate.gallery? (c : Candidate σ) : Option Bytes :=
  match c.fate with
  | .entered name => some (subGallery c.placement.galleryPath name)
  | _ => none

/-- The galleries for the archives in an archive. -/
def Account.given (a : Account σ) : List Bytes := a.nested.filterMap Candidate.gallery?

/-- Everything that was planned has its turn once, in the order of the plan. -/
structure Account.Full (a : Account σ) (plan : ZipPlan) : Prop where
  media : a.media.map MediumTurn.placement = plan.placements
  leftOut : a.leftOut = plan.skippedUnsupported
  nested : a.nested.map Candidate.placement = plan.nested

/-- Of an archive that was listed, everything that was planned has had its turn, and the galleries for
the archives in it are apart from each other and fit. -/
structure Account.Settled (dest : Bytes) (a : Account σ) : Prop where
  full : ∀ entries, a.entries = some entries → a.Full (planOf a.frame entries)
  apart : (a.given.map splitPath).Nodup
  fits : ∀ entries, a.entries = some entries → ∀ g ∈ a.given, Fits dest (planOf a.frame entries) g

/-- The tallies are the sum of the accounts, and there is an account for the root and for each archive
that was entered; each agrees with the hooks, and is settled. -/
structure Settled (H : Hooks σ) (dest : Bytes) (s : Walk σ) : Prop where
  tally : s.tally = (s.accounts.map Account.tally).sum
  accounts : s.accounts.length = s.tally.nestedArchives + 1
  entered : ∀ a ∈ s.accounts, ∀ g ∈ a.given, ∃ b ∈ s.accounts, b.frame.gallery = g
  answered : ∀ a ∈ s.accounts, a.Answered H
  settled : ∀ a ∈ s.accounts, a.Settled dest

/-- What the walk of an archive adds: accounts, one of them its own, that are settled exactly if every
point from there on is clear. -/
structure Told (H : Hooks σ) (dest : Bytes) (f : Frame) (s t : Walk σ) (as : List (Account σ)) :
    Prop where
  accounts : t.accounts = s.accounts ++ as
  own : ∃ a ∈ as, a.frame.gallery = f.gallery
  entered : ∀ a ∈ as, ∀ g ∈ a.given, ∃ b ∈ as, b.frame.gallery = g
  settled : SafeBelow dest f.gallery →
    (Clears H (.archive f s) ↔ ∀ a ∈ as, a.Settled dest)

/-- What the rest of the loop over the archives in an archive adds: accounts of archives below, and the
turns of the account that it closes. -/
structure Added (H : Hooks σ) (dest : Bytes) (a : Account σ) (plan : ZipPlan) (ps : List ZipPlacement)
    (taken : List Bytes) (s t : Walk σ) (as : List (Account σ)) (cs : List (Candidate σ)) :
    Prop where
  accounts : t.accounts = s.accounts ++ as ++ [{ a with nested := a.nested ++ cs }]
  turns : (cs.map Candidate.placement).Sublist ps
  apart : ((cs.filterMap Candidate.gallery?).map splitPath).Nodup
  fresh : ∀ g ∈ cs.filterMap Candidate.gallery?,
    ∃ name, (splitPath g).getLast? = some name ∧ name ∉ taken
  own : ∀ g ∈ cs.filterMap Candidate.gallery?, ∃ b ∈ as, b.frame.gallery = g
  entered : ∀ b ∈ as, ∀ g ∈ b.given, ∃ b' ∈ as, b'.frame.gallery = g
  settled : SafeBelow dest a.frame.gallery →
    (Clears H (.turn a ps taken s) ↔ (∀ b ∈ as, b.Settled dest) ∧
      cs.map Candidate.placement = ps ∧ ∀ g ∈ cs.filterMap Candidate.gallery?, Fits dest plan g)

section Added

variable {plan : ZipPlan} {as : List (Account σ)} {cs : List (Candidate σ)}

theorem added_nil (a : Account σ) (s : Walk σ) :
    Added H dest a plan [] taken s (s.close a) [] [] := by
  refine ⟨?_, List.Sublist.refl _, List.nodup_nil, nofun, nofun, nofun, fun _ ↦ ?_⟩
  · rw [List.append_nil, List.append_nil]
    rfl
  · exact iff_of_true (clears_turn_nil a taken s) ⟨nofun, rfl, nofun⟩

/-- An archive is refused. -/
theorem Added.refused {fate : Fate} (hpick : pick H a.frame p taken s = .refused fate u)
    (h : Added H dest (a.note p s fate) plan ps taken u t as cs) :
    Added H dest a plan (p :: ps) taken s t as (⟨p, s.hooked, s.budget, fate⟩ :: cs) := by
  have hcases := pick_cases H a.frame p taken s
  rw [hpick] at hcases
  obtain ⟨haccounts, -, -, hfate⟩ := hcases
  have hnone : (⟨p, s.hooked, s.budget, fate⟩ : Candidate σ).gallery? = none := by
    rcases fate with _ | _ | _ | _ | name
    case entered => exact absurd rfl (hfate name)
    all_goals rfl
  have hgiven : (⟨p, s.hooked, s.budget, fate⟩ :: cs).filterMap Candidate.gallery? =
      cs.filterMap Candidate.gallery? := List.filterMap_cons_none hnone
  refine ⟨?_, h.turns.cons_cons p, ?_, ?_, ?_, h.entered, fun hsafe ↦ ?_⟩
  · rw [h.accounts, haccounts, Account.note, List.append_assoc a.nested, List.singleton_append]
  · rw [hgiven]
    exact h.apart
  · rw [hgiven]
    exact h.fresh
  · rw [hgiven]
    exact h.own
  · rw [clears_of_refused hpick, h.settled hsafe, hgiven, List.map_cons, List.cons_inj_right]

/-- The gallery for an archive is not made: the archive has no turn. -/
theorem Added.unmade {entries : List ZipEntry} (ha : a.entries = some entries) {name : Bytes}
    (hpick : pick H a.frame p taken s = .unmade name u)
    (h : Added H dest a plan ps (taken ++ [name]) u t as cs) :
    Added H dest a plan (p :: ps) taken s t as cs := by
  have hcases := pick_cases H a.frame p taken s
  rw [hpick] at hcases
  refine ⟨?_, h.turns.cons p, h.apart, fun g hg ↦ ?_, h.own, h.entered, fun _ ↦ ?_⟩
  · rw [h.accounts, hcases.1.accounts]
  · obtain ⟨name', hlast, hfree⟩ := h.fresh g hg
    exact ⟨name', hlast, fun hmem ↦ hfree (List.mem_append_left _ hmem)⟩
  · refine iff_of_false (not_clears_of_unmade ha hpick) ?_
    rintro ⟨-, hall, -⟩
    have hle := h.turns.length_le
    rw [hall, List.length_cons] at hle
    omega

/-- An archive is entered. -/
theorem Added.picked {entries : List ZipEntry} (ha : a.entries = some entries)
    (hp : p ∈ (planOf a.frame entries).nested) (hbelow : splitPath dest <+: splitPath a.frame.gallery)
    {name child : Bytes} {kind : ArchiveKind} {v : Walk σ} {as' : List (Account σ)}
    (hpick : pick H a.frame p taken s = .picked name kind child u)
    (hwalk : walkOne H n ⟨child, kind, subGallery p.galleryPath name, a.frame.depth + 1⟩
      (u.enter (a.frame.depth + 1) child) = some v)
    (htold : Told H dest ⟨child, kind, subGallery p.galleryPath name, a.frame.depth + 1⟩
      (u.enter (a.frame.depth + 1) child) v as')
    (h : Added H dest (a.note p s (.entered name)) (planOf a.frame entries) ps (taken ++ [name])
      ((v.leave child).setHooked (H.archiveDone child (v.leave child).hooked)) t as cs) :
    Added H dest a (planOf a.frame entries) (p :: ps) taken s t (as' ++ as)
      (⟨p, s.hooked, s.budget, .entered name⟩ :: cs) := by
  have hcases := pick_cases H a.frame p taken s
  rw [hpick] at hcases
  obtain ⟨hquiet, hname, -⟩ := hcases
  obtain ⟨k, hfirst, hk⟩ := ArchiveNames.exists_firstFree (ArchiveNames.baseName p.filename) taken
  rw [hk] at hname
  have hsub : splitPath (subGallery p.galleryPath name) = splitPath p.galleryPath ++ [name] := by
    rw [hname]
    exact splitPath_subGallery_nameTried p k
  obtain ⟨haccounts, ⟨b, hb, hown⟩, hentered, hsettled⟩ := htold
  have hlast : (splitPath (subGallery p.galleryPath name)).getLast? = some name := by
    rw [hsub, List.getLast?_concat]
  have hgiven : ((⟨p, s.hooked, s.budget, .entered name⟩ : Candidate σ) :: cs).filterMap
      Candidate.gallery? = subGallery p.galleryPath name :: cs.filterMap Candidate.gallery? :=
    List.filterMap_cons_some rfl
  refine ⟨?_, h.turns.cons_cons p, ?_, ?_, ?_, ?_, fun hsafe ↦ ?_⟩
  · have hopened : ((v.leave child).setHooked
        (H.archiveDone child (v.leave child).hooked)).accounts = s.accounts ++ as' :=
      haccounts.trans (congrArg (· ++ as') hquiet.accounts)
    rw [h.accounts, hopened, Account.note, List.append_assoc a.nested, List.singleton_append,
      List.append_assoc s.accounts]
  · -- The names given later are other names.
    rw [hgiven, List.map_cons, List.nodup_cons]
    refine ⟨fun hmem ↦ ?_, h.apart⟩
    obtain ⟨g, hg, heq⟩ := List.mem_map.mp hmem
    obtain ⟨name', hlast', hfree⟩ := h.fresh g hg
    rw [heq, hlast] at hlast'
    exact hfree (List.mem_append_right _ (List.mem_singleton.mpr (Option.some.inj hlast').symm))
  · rw [hgiven, List.forall_mem_cons]
    refine ⟨⟨name, hlast, hname ▸ hfirst.free⟩, fun g hg ↦ ?_⟩
    obtain ⟨name', hlast', hfree⟩ := h.fresh g hg
    exact ⟨name', hlast', fun hmem ↦ hfree (List.mem_append_left _ hmem)⟩
  · rw [hgiven, List.forall_mem_cons]
    refine ⟨⟨b, List.mem_append_left _ hb, hown⟩, fun g hg ↦ ?_⟩
    obtain ⟨b', hb', heq⟩ := h.own g hg
    exact ⟨b', List.mem_append_right _ hb', heq⟩
  · rw [List.forall_mem_append]
    constructor
    · intro b hb g hg
      obtain ⟨b', hb', heq⟩ := hentered b hb g hg
      exact ⟨b', List.mem_append_left _ hb', heq⟩
    · intro b hb g hg
      obtain ⟨b', hb', heq⟩ := h.entered b hb g hg
      exact ⟨b', List.mem_append_right _ hb', heq⟩
  · obtain ⟨x, hmade, hclears⟩ := clears_of_picked ps ha hpick hwalk
    have hfits := fits_iff hp hbelow hsafe k hname
    rw [hclears, h.settled hsafe, hgiven, List.map_cons, List.cons_inj_right, List.forall_mem_cons,
      List.forall_mem_append]
    constructor
    · rintro ⟨⟨-, houtside, hshort, hfolders⟩, hchild, hrest, hall, hlater⟩
      have hfit := hfits.mpr ⟨houtside, hshort, hfolders⟩
      exact ⟨⟨(hsettled hfit.safe).mp hchild, hrest⟩, hall, hfit, hlater⟩
    · rintro ⟨⟨hchild, hrest⟩, hall, hfit, hlater⟩
      obtain ⟨houtside, hshort, hfolders⟩ := hfits.mp hfit
      exact ⟨⟨hmade, houtside, hshort, hfolders⟩, (hsettled hfit.safe).mpr hchild, hrest, hall, hlater⟩

end Added

section Told

variable (hcancel : ∀ x, (H.cancelled x).1 = false)

include hcancel

/-- Every file of an archive has its turn. -/
theorem placeMedia_eq (ps : List ZipPlacement) (done : List (MediumTurn σ)) (s : Walk σ) :
    ∃ media t, placeMedia H f ps done s = (true, done ++ media, t) ∧
      media.map MediumTurn.placement = ps ∧ t.accounts = s.accounts := by
  induction ps generalizing done s with
  | nil => exact ⟨[], s, by rw [placeMedia, List.append_nil], rfl, rfl⟩
  | cons p ps ih =>
    have hturn (placed : Bool) (u : Walk σ) (haccounts : u.accounts = s.accounts) :
        ∃ media t, placeMedia H f ps (done ++ [⟨p, s.hooked, placed⟩]) u = (true, done ++ media, t) ∧
          media.map MediumTurn.placement = p :: ps ∧ t.accounts = s.accounts := by
      obtain ⟨media, t, heq, hmedia, ht⟩ := ih (done ++ [⟨p, s.hooked, placed⟩]) u
      refine ⟨⟨p, s.hooked, placed⟩ :: media, t, ?_, congrArg (p :: ·) hmedia, ht.trans haccounts⟩
      rw [heq, List.append_assoc, List.singleton_append]
    have hpoll : poll H s = (false, s.setHooked (H.cancelled s.hooked).2) := by
      rw [poll, ← hcancel s.hooked]
    rw [placeMedia, hpoll]
    dsimp only
    rcases H.extractEntry f.bytes f.kind p.entryIndex
      (s.setHooked (H.cancelled s.hooked).2).hooked with ⟨_ | payload, x⟩
    · exact hturn false _ rfl
    · dsimp only
      rcases H.placeMedia p.galleryPath p.filename payload
        (((s.setHooked (H.cancelled s.hooked).2).setHooked x).expand payload).hooked with ⟨_ | _, y⟩
      · exact hturn false _ rfl
      · exact hturn true _ rfl

/-- **Opening an archive.** It is not listed, a gallery is refused, or its files have had their turn. -/
theorem openArchive_told (f : Frame) (s : Walk σ) :
    (∃ t, openArchive H f s = (none, t) ∧
      t.accounts = s.accounts ++ [{ frame := f, before := s.hooked, entries := none }] ∧
      (H.listEntries f.bytes f.kind s.hooked).1 = none) ∨
    ∃ entries x, H.listEntries f.bytes f.kind s.hooked = (some entries, x) ∧
      ((∃ t, openArchive H f s = (none, t) ∧ ¬Makes H (planOf f entries).galleries x ∧
        t.accounts = s.accounts ++ [{ frame := f, before := s.hooked, entries := some entries }]) ∨
      ∃ a t, openArchive H f s = (some (planOf f entries, a), t) ∧
        Makes H (planOf f entries).galleries x ∧ t.accounts = s.accounts ∧ a.frame = f ∧
        a.entries = some entries ∧ a.nested = [] ∧
        a.media.map MediumTurn.placement = (planOf f entries).placements ∧
        a.leftOut = (planOf f entries).skippedUnsupported) := by
  have hasks (gs : List Bytes) (u : Walk σ) :
      (askAll H gs u).1 = true ↔ Makes H gs u.hooked := by
    induction gs generalizing u with
    | nil => exact iff_of_true rfl trivial
    | cons g gs ih =>
      have hask : ask H g u =
        ((H.createGallery g u.hooked).1, u.setHooked (H.createGallery g u.hooked).2) := rfl
      rw [askAll, Makes, hask]
      rcases H.createGallery g u.hooked with ⟨_ | _, x⟩
      · exact iff_of_false Bool.false_ne_true fun h ↦ Bool.false_ne_true h.1
      · exact (ih (u.setHooked x)).trans (and_iff_right rfl).symm
  rw [openArchive]
  rcases hlist : H.listEntries f.bytes f.kind s.hooked with ⟨_ | entries, x⟩
  · exact .inl ⟨_, rfl, rfl, rfl⟩
  · refine .inr ⟨entries, x, rfl, ?_⟩
    have hquiet : Quiet (s.setHooked x) (askAll H (planOf f entries).galleries (s.setHooked x)).2 :=
      quiet_askAll _ _
    have hmakes := hasks (planOf f entries).galleries (s.setHooked x)
    dsimp only
    rcases hask : askAll H (planOf f entries).galleries (s.setHooked x) with ⟨_ | _, u⟩
    all_goals rw [hask] at hquiet hmakes
    · refine .inl ⟨_, rfl, fun hmade ↦ Bool.false_ne_true (hmakes.mpr hmade), ?_⟩
      exact congrArg (· ++ _) hquiet.accounts
    · have hmeta := hquiet.trans (quiet_applyOwnMeta (H := H) f entries u)
      dsimp only
      generalize hready : Walk.setHooked (Walk.setTally (applyOwnMeta H f entries u) _) _ = ready
      have haccounts : ready.accounts = s.accounts := by
        rw [← hready]
        exact hmeta.accounts
      obtain ⟨media, v, hplace, hmedia, hv⟩ :=
        placeMedia_eq (f := f) hcancel (planOf f entries).placements [] ready
      rw [hplace]
      exact .inr ⟨_, _, rfl, hmakes.mp rfl, hv.trans haccounts, rfl, rfl, rfl, hmedia, rfl⟩

/-- **The loop over the archives in an archive.** -/
theorem exists_added (dest : Bytes) {entries : List ZipEntry} (ha : a.entries = some entries)
    (hwalk : ∀ g s t, walkOne H n g s = some t → splitPath dest <+: splitPath g.gallery →
      ∃ as, Told H dest g s t as)
    (hps : ∀ p ∈ ps, p ∈ (planOf a.frame entries).nested)
    (hbelow : splitPath dest <+: splitPath a.frame.gallery)
    (hend : descend H (walkOne H n) ps taken a s = some t) :
    ∃ as cs, Added H dest a (planOf a.frame entries) ps taken s t as cs := by
  induction ps generalizing taken a s with
  | nil =>
    obtain rfl := Option.some.inj hend
    exact ⟨[], [], added_nil a s⟩
  | cons p ps ih =>
    obtain ⟨hp, hrest⟩ := List.forall_mem_cons.mp hps
    have hcases := pick_cases H a.frame p taken s
    rw [descend] at hend
    rcases hpick : pick H a.frame p taken s with u | ⟨fate, u⟩ | ⟨name, u⟩ | ⟨name, kind, child, u⟩
    all_goals
      rw [hpick] at hend hcases
      dsimp only at hend hcases
    · exact absurd ((hcancel s.hooked).symm.trans hcases.2) Bool.false_ne_true
    · obtain ⟨as, cs, h⟩ := ih (a := a.note p s fate) ha hrest hbelow hend
      exact ⟨as, _, h.refused hpick⟩
    · obtain ⟨as, cs, h⟩ := ih ha hrest hbelow hend
      exact ⟨as, cs, h.unmade ha hpick⟩
    · obtain ⟨v, hv, hend⟩ := Option.bind_eq_some_iff.mp hend
      obtain ⟨as, cs, h⟩ := ih (a := a.note p s (.entered name)) ha hrest hbelow hend
      obtain ⟨as', htold⟩ := hwalk _ _ _ hv (below_subGallery hp hbelow hcases.2.1)
      exact ⟨as' ++ as, _, h.picked ha hp hbelow hpick hv htold⟩

/-- **One archive.** -/
theorem exists_told (dest : Bytes) (hend : walkOne H n f s = some t)
    (hbelow : splitPath dest <+: splitPath f.gallery) : ∃ as, Told H dest f s t as := by
  induction n generalizing f s t with
  | zero => exact nomatch hend
  | succ n ih =>
    rw [walkOne] at hend
    rcases openArchive_told hcancel f s with ⟨u, hopen, hu, hnone⟩ |
      ⟨entries, x, hlist, ⟨u, hopen, hrefused, hu⟩ |
        ⟨a, u, hopen, hmade, hu, hframe, hentries, hnested, hmedia, hleftOut⟩⟩
    all_goals
      rw [hopen] at hend
      dsimp only at hend
    · obtain rfl := Option.some.inj hend
      refine ⟨_, hu, ⟨_, List.mem_singleton_self _, rfl⟩, ?_, fun _ ↦ iff_of_true ?_ ?_⟩
      · rw [List.forall_mem_singleton]
        exact List.forall_mem_nil _
      · refine clears_iff.mpr ⟨fun entries x hlist ↦ ?_, fun q' hnext ↦ ?_⟩
        · exact absurd ((congrArg Prod.fst hlist).symm.trans hnone) (Option.some_ne_none _)
        · rcases hnext with h' | _ | _ | _ | _
          exact absurd (congrArg Prod.fst (h'.symm.trans hopen)) (Option.some_ne_none _)
      · rw [List.forall_mem_singleton]
        exact ⟨fun entries h ↦ absurd h.symm (Option.some_ne_none entries), List.nodup_nil,
          fun entries h ↦ absurd h.symm (Option.some_ne_none entries)⟩
    · obtain rfl := Option.some.inj hend
      refine ⟨_, hu, ⟨_, List.mem_singleton_self _, rfl⟩, ?_, fun _ ↦ iff_of_false ?_ ?_⟩
      · rw [List.forall_mem_singleton]
        exact List.forall_mem_nil _
      · exact fun hclears ↦ hrefused ((clears_iff.mp hclears).1 entries x hlist)
      · -- What was planned has no turn.
        intro hsettled
        obtain ⟨hmedia, -, hnested⟩ :=
          ((List.forall_mem_singleton.mp hsettled).full entries rfl : Account.Full _ (planOf f entries))
        have hgalleries : (planOf f entries).galleries ≠ [] := by
          intro hnil
          rw [hnil] at hrefused
          exact hrefused trivial
        rcases planned_of_galleries f entries hgalleries with hne | hne
        · exact hne hmedia.symm
        · exact hne hnested.symm
    · subst hframe
      obtain ⟨as, cs, h⟩ := exists_added hcancel dest hentries
        (fun g s t hwalk hstart ↦ ih hwalk hstart) (fun p hp ↦ hp) hbelow hend
      have hgiven : ({ a with nested := a.nested ++ cs } : Account σ).given =
          cs.filterMap Candidate.gallery? := by
        rw [Account.given, hnested, List.nil_append]
      have hclears : Clears H (.archive a.frame s) ↔
          Clears H (.turn a (planOf a.frame entries).nested [] u) := by
        rw [clears_iff]
        constructor
        · exact fun hclear ↦ hclear.2 _ (.opened hopen)
        · intro hrest
          refine ⟨fun entries' x' hlist' ↦ ?_, fun q' hnext ↦ ?_⟩
          · obtain ⟨hsame, rfl⟩ := Prod.mk.inj (hlist.symm.trans hlist')
            exact Option.some.inj hsame ▸ hmade
          · rcases hnext with h' | _ | _ | _ | _
            obtain ⟨hsame, rfl⟩ := Prod.mk.inj (hopen.symm.trans h')
            obtain ⟨rfl, rfl⟩ := Prod.mk.inj (Option.some.inj hsame)
            exact hrest
      refine ⟨as ++ [{ a with nested := a.nested ++ cs }], ?_, ⟨_, List.mem_append_right _
        (List.mem_singleton_self _), rfl⟩, ?_, fun hsafe ↦ ?_⟩
      · rw [h.accounts, hu, List.append_assoc]
      · intro b hb g hg
        have hbelow' : ∃ b' ∈ as, b'.frame.gallery = g := by
          rcases List.mem_append.mp hb with hb | hb
          · exact h.entered b hb g hg
          · obtain rfl := List.mem_singleton.mp hb
            exact h.own g (hgiven ▸ hg)
        obtain ⟨b', hb', heq⟩ := hbelow'
        exact ⟨b', List.mem_append_left _ hb', heq⟩
      · rw [hclears, h.settled hsafe, List.forall_mem_append, List.forall_mem_singleton]
        refine and_congr_right fun _ ↦ ?_
        constructor
        · rintro ⟨hall, hfits⟩
          refine ⟨fun entries' hentries' ↦ ?_, hgiven ▸ h.apart, fun entries' hentries' ↦ ?_⟩
          · obtain rfl := Option.some.inj (hentries.symm.trans hentries')
            refine ⟨hmedia, hleftOut, ?_⟩
            rw [hnested, List.nil_append]
            exact hall
          · obtain rfl := Option.some.inj (hentries.symm.trans hentries')
            exact hgiven ▸ hfits
        · rintro ⟨hfull, -, hfits⟩
          have hall := (hfull entries hentries).nested
          rw [hnested, List.nil_append] at hall
          exact ⟨hall, hgiven ▸ hfits entries hentries⟩

end Told

/-- Every point of a walk is clear. -/
def Clear (H : Hooks σ) (rootBytes : Bytes) (rootKind : ArchiveKind) (destGallery : Bytes)
    (L : RecursionLimits) (x : σ) : Prop :=
  Clears H (.archive ⟨rootBytes, rootKind, destGallery, 0⟩ (start rootBytes L x))

/-- **The account of a walk.** It settles everything exactly if every gallery is made, nothing is
planned inside the gallery for an archive, and the names fit. -/
theorem settled_iff_clear (H : Hooks σ) (hcancel : ∀ x, (H.cancelled x).1 = false) (rootBytes : Bytes)
    (rootKind : ArchiveKind) (destGallery : Bytes) (L : RecursionLimits) (x : σ) :
    ∃ s fuel, (∀ n ≥ fuel, walkArchive n rootBytes rootKind destGallery (some H) L x = some s) ∧
      (Settled H destGallery s ↔ Clear H rootBytes rootKind destGallery L x) := by
  obtain ⟨t, fuel, ht, hrun⟩ := exists_walkOne H rootBytes rootKind destGallery L x
  refine ⟨_, fuel, hrun, ?_⟩
  obtain ⟨htally, hlength, hanswered⟩ := booked_walkOne ht (booked_start (H := H) rootBytes L x)
  obtain ⟨as, haccounts, -, hentered, hsettled⟩ :=
    exists_told hcancel destGallery ht List.prefix_rfl
  obtain rfl : t.accounts = as := haccounts
  rw [Clear, hsettled (by rw [SafeBelow, List.drop_length]; exact nofun)]
  constructor
  · exact fun h ↦ h.settled
  · exact fun h ↦ ⟨htally.trans (zero_add _), hlength, hentered, hanswered, h⟩

/-! ### A folder with the name of an archive -/

section Bonus

/-- An archive with a folder and another archive of the same name, which has nothing in it. -/
def bonus (made : Bool) : Hooks Unit where
  listEntries bytes _ x := (some (if bytes.length ≤ 1 then
    [⟨ascii "bonus/1.jpg", false⟩, ⟨ascii "bonus.zip", false⟩] else []), x)
  extractEntry _ _ i x := (some (if i = 0 then [] else ArchiveNames.magicZip), x)
  createGallery _ x := (made, x)
  placeMedia _ _ _ x := (true, x)
  tagGallery _ _ x := x
  cancelled x := (false, x)

theorem settled_iff_clear_bonus : ∃ s fuel,
    (∀ n ≥ fuel, walkArchive n [0] .zip [] (some (bonus true)) {} () = some s) ∧
      (Settled (bonus true) [] s ↔ Clear (bonus true) [0] .zip [] {} ()) :=
  settled_iff_clear (bonus true) (fun _ ↦ rfl) [0] .zip [] {} ()

def bonusEntries : List ZipEntry := [⟨ascii "bonus/1.jpg", false⟩, ⟨ascii "bonus.zip", false⟩]

/-- The archive is imported into the folder beside it; and if that folder is refused, the image and the
archive have no turn, and are in no tally. -/
theorem not_settled_bonus :
    (∃ s, walkArchive 3 [0] .zip [] (some (bonus true)) {} () = some s ∧
      ¬Settled (bonus true) [] s) ∧
    ∃ s, walkArchive 3 [0] .zip [] (some (bonus false)) {} () = some s ∧
      s.tally = 0 ∧ ¬Settled (bonus false) [] s := by
  constructor
  · have hrun : (walkArchive 3 [0] .zip [] (some (bonus true)) {} ()).bind (fun s ↦
        s.accounts.getLast?.map fun a ↦
          (a.entries, (planOf a.frame bonusEntries).galleries, a.given)) =
        some (some bonusEntries, [ascii "bonus"], [ascii "bonus"]) := by
      decide +kernel
    obtain ⟨s, hs, hlast⟩ := Option.bind_eq_some_iff.mp hrun
    obtain ⟨a, ha, hfacts⟩ := Option.map_eq_some_iff.mp hlast
    obtain ⟨hentries, hfacts⟩ := Prod.mk.inj hfacts
    obtain ⟨hgalleries, hgiven⟩ := Prod.mk.inj hfacts
    refine ⟨s, hs, fun hsettled ↦ ?_⟩
    have hfits := (hsettled.settled a (List.mem_of_getLast? ha)).fits bonusEntries hentries
      (ascii "bonus") (hgiven ▸ List.mem_singleton_self _)
    exact hfits.beside (ascii "bonus") (hgalleries ▸ List.mem_singleton_self _) rfl
  · have hrun : (walkArchive 3 [0] .zip [] (some (bonus false)) {} ()).bind (fun s ↦
        s.accounts.getLast?.map fun a ↦
          (a.entries, (planOf a.frame bonusEntries).placements.length, a.media.length, s.tally)) =
        some (some bonusEntries, 1, 0, 0) := by
      decide +kernel
    obtain ⟨s, hs, hlast⟩ := Option.bind_eq_some_iff.mp hrun
    obtain ⟨a, ha, hfacts⟩ := Option.map_eq_some_iff.mp hlast
    obtain ⟨hentries, hfacts⟩ := Prod.mk.inj hfacts
    obtain ⟨hplacements, hfacts⟩ := Prod.mk.inj hfacts
    obtain ⟨hmedia, htally⟩ := Prod.mk.inj hfacts
    refine ⟨s, hs, htally, fun hsettled ↦ ?_⟩
    have hfull := (hsettled.settled a (List.mem_of_getLast? ha)).full bonusEntries hentries
    have hlen := congrArg List.length hfull.media
    rw [List.length_map, hmedia, hplacements] at hlen
    exact Nat.zero_ne_one hlen

end Bonus

end NestedWalk

end SafeVault
