import SafeVault.Import.ZipPlan
import SafeVault.Lib.History

/-!
# The walk through archives in archives

An archive is listed and planned; its media is placed, and each archive in it becomes a gallery below
and is walked in turn before the next one is looked at. A budget limits how deep the walk goes, how
many archives it enters, how much it expands, and how much is held on the way from the root.

What the archives contain and what placing comes to are hooks, over a state of their own.

## What is remembered

Beside what the code keeps there are a log of what was expanded, entered and left, and an account of
each archive that was opened: what was listed, and turn by turn what became of the files and archives
in it, with the state of the hooks and of the budget at that turn. They are what the statements are
about, and nothing reads them.
-/

namespace SafeVault

namespace NestedWalk

/-! ## The budget -/

structure RecursionLimits where
  maxDepth : ℤ := 16
  maxTotalExpanded : UInt64 := 8 * 1024 * 1024 * 1024
  maxLiveBytes : UInt64 := 1024 * 1024 * 1024
  maxNestedArchives : ℤ := 4096
  maxExpansionRatio : UInt64 := 1000

inductive RecursionVerdict where
  | allow | depthExceeded | totalBytesExceeded | liveBytesExceeded | countExceeded | ratioExceeded
  deriving DecidableEq

structure RecursionBudget where
  limits : RecursionLimits
  rootBytes : UInt64
  liveBytes : UInt64 := 0
  totalExpanded : UInt64 := 0
  nestedSeen : ℤ := 0

namespace RecursionBudget

def mayDescend (b : RecursionBudget) (depth : ℤ) (nestedBytes : UInt64) : RecursionVerdict :=
  if b.limits.maxDepth ≤ depth then .depthExceeded
  else if b.limits.maxNestedArchives ≤ b.nestedSeen then .countExceeded
  else if b.limits.maxTotalExpanded < b.totalExpanded then .totalBytesExceeded
  else if b.limits.maxLiveBytes < b.liveBytes + nestedBytes then .liveBytesExceeded
  else if 0 < b.rootBytes ∧ b.limits.maxExpansionRatio * b.rootBytes < b.totalExpanded then
    .ratioExceeded
  else .allow

def enter (b : RecursionBudget) (nestedBytes : UInt64) : RecursionBudget :=
  { b with liveBytes := b.liveBytes + nestedBytes, nestedSeen := b.nestedSeen + 1 }

def leave (b : RecursionBudget) (nestedBytes : UInt64) : RecursionBudget :=
  { b with liveBytes := b.liveBytes - min b.liveBytes nestedBytes }

def noteExpanded (b : RecursionBudget) (bytes : UInt64) : RecursionBudget :=
  { b with totalExpanded := b.totalExpanded + bytes }

end RecursionBudget

/-- The size of a buffer. -/
def sizeOf (bytes : Bytes) : UInt64 := UInt64.ofNat bytes.length

/-! ## The state of a walk -/

@[ext] structure RecursiveTally where
  mediaPlaced : ℕ := 0
  nestedArchives : ℕ := 0
  skippedUnsupported : ℕ := 0
  notAnArchive : ℕ := 0
  depthCapped : ℕ := 0
  budgetStopped : ℕ := 0
  unreadable : ℕ := 0
  rootUnreadable : Bool := false
  deriving DecidableEq

/-- The hooks, over a state `σ`. Two of them are optional, and do nothing if they are not set. -/
structure Hooks (σ : Type) where
  listEntries : Bytes → ArchiveKind → σ → Option (List ZipEntry) × σ
  extractEntry : Bytes → ArchiveKind → ℕ → σ → Option Bytes × σ
  createGallery : Bytes → σ → Bool × σ
  placeMedia : Bytes → Bytes → Bytes → σ → Bool × σ
  tagGallery : Bytes → Bytes → σ → σ
  notePlanned : ℤ → σ → σ := fun _ x ↦ x
  cancelled : σ → Bool × σ
  archiveDone : Bytes → σ → σ := fun _ x ↦ x
  /-- The tags in the bytes of a `meta.json`. -/
  metaGalleryTags : Bytes → List Bytes := fun _ ↦ []

/-- The gallery for an archive. -/
def subGallery (galleryPath name : Bytes) : Bytes :=
  if galleryPath.isEmpty then name else galleryPath ++ [slash] ++ name

structure Frame where
  bytes : Bytes
  kind : ArchiveKind
  gallery : Bytes
  depth : ℤ

inductive Event where
  /-- So many bytes came out of an archive. -/
  | expanded (bytes : ℕ)
  | entered (depth : ℤ) (bytes : ℕ)
  | left (bytes : ℕ)
  deriving DecidableEq

/-- A file of an archive at its turn, and whether it was placed. -/
structure MediumTurn (σ : Type) where
  placement : ZipPlacement
  before : σ
  placed : Bool

/-- What became of an archive in an archive. One that is entered has got a name. -/
inductive Fate where
  | unreadable | notAnArchive | depthCapped | budgetStopped
  | entered (name : Bytes)
  deriving DecidableEq

def Fate.isEntered : Fate → Bool
  | .entered _ => true
  | _ => false

/-- An archive in an archive at its turn. -/
structure Candidate (σ : Type) where
  placement : ZipPlacement
  before : σ
  budget : RecursionBudget
  fate : Fate

/-- The account of an archive. There are no entries if it could not be listed. -/
structure Account (σ : Type) where
  frame : Frame
  before : σ
  entries : Option (List ZipEntry)
  media : List (MediumTurn σ) := []
  /-- The entries that are left out as unsupported. -/
  leftOut : ℕ := 0
  nested : List (Candidate σ) := []

structure Walk (σ : Type) where
  hooked : σ
  budget : RecursionBudget
  tally : RecursiveTally := {}
  log : List Event := []
  accounts : List (Account σ) := []

variable {σ : Type}

namespace Walk

def record (s : Walk σ) (e : Event) : Walk σ := { s with log := s.log ++ [e] }

def setHooked (s : Walk σ) (hooked : σ) : Walk σ := { s with hooked }

def setTally (s : Walk σ) (tally : RecursiveTally) : Walk σ := { s with tally }

/-- The account of an archive is closed when the walk is done with it. -/
def close (s : Walk σ) (a : Account σ) : Walk σ := { s with accounts := s.accounts ++ [a] }

/-- `note_expanded`, for a buffer. -/
def expand (s : Walk σ) (bytes : Bytes) : Walk σ :=
  { s with budget := s.budget.noteExpanded (sizeOf bytes) }.record (.expanded bytes.length)

/-- Enter an archive at a depth. -/
def enter (s : Walk σ) (depth : ℤ) (bytes : Bytes) : Walk σ :=
  { s with
    budget := s.budget.enter (sizeOf bytes)
    tally.nestedArchives := s.tally.nestedArchives + 1 }.record (.entered depth bytes.length)

def leave (s : Walk σ) (bytes : Bytes) : Walk σ :=
  { s with budget := s.budget.leave (sizeOf bytes) }.record (.left bytes.length)

end Walk

/-- The turn of an archive in an archive: the state is that before it. -/
def Account.note (a : Account σ) (p : ZipPlacement) (s : Walk σ) (fate : Fate) : Account σ :=
  { a with nested := a.nested ++ [⟨p, s.hooked, s.budget, fate⟩] }

/-! ## The walk -/

section Walk

variable (H : Hooks σ)

def poll (s : Walk σ) : Bool × Walk σ :=
  let (cancelled, x) := H.cancelled s.hooked
  (cancelled, s.setHooked x)

def ask (path : Bytes) (s : Walk σ) : Bool × Walk σ :=
  let (made, x) := H.createGallery path s.hooked
  (made, s.setHooked x)

/-- Ask for galleries in turn, up to the first that is refused. -/
def askAll : List Bytes → Walk σ → Bool × Walk σ
  | [], s => (true, s)
  | g :: gs, s =>
    match ask H g s with
    | (true, s) => askAll gs s
    | (false, s) => (false, s)

def applyOwnMeta (f : Frame) (entries : List ZipEntry) (s : Walk σ) : Walk σ :=
  match ZipPlan.findMetaEntry entries with
  | none => s
  | some i =>
    match H.extractEntry f.bytes f.kind i s.hooked with
    | (none, x) => s.setHooked x
    | (some bytes, x) =>
      s.setHooked ((H.metaGalleryTags bytes).foldl (fun x tag ↦ H.tagGallery f.gallery tag x) x)

/-- `place_media`; the flag says that it went through. The files whose turn has come are `done`. -/
def placeMedia (f : Frame) :
    List ZipPlacement → List (MediumTurn σ) → Walk σ → Bool × List (MediumTurn σ) × Walk σ
  | [], done, s => (true, done, s)
  | p :: ps, done, s =>
    let before := s.hooked
    match poll H s with
    | (true, s) => (false, done, s)
    | (false, s) =>
      match H.extractEntry f.bytes f.kind p.entryIndex s.hooked with
      | (none, x) =>
        placeMedia f ps (done ++ [⟨p, before, false⟩]) ((s.setHooked x).setTally
          { s.tally with skippedUnsupported := s.tally.skippedUnsupported + 1 })
      | (some payload, x) =>
        let s := (s.setHooked x).expand payload
        match H.placeMedia p.galleryPath p.filename payload s.hooked with
        | (true, x) =>
          placeMedia f ps (done ++ [⟨p, before, true⟩]) ((s.setHooked x).setTally
            { s.tally with mediaPlaced := s.tally.mediaPlaced + 1 })
        | (false, x) =>
          placeMedia f ps (done ++ [⟨p, before, false⟩]) ((s.setHooked x).setTally
            { s.tally with skippedUnsupported := s.tally.skippedUnsupported + 1 })

/-- `vet_nested`; an archive that is not to be entered has met its fate. -/
def vetNested (f : Frame) (p : ZipPlacement) (s : Walk σ) :
    Except Fate (ArchiveKind × Bytes) × Walk σ :=
  match H.extractEntry f.bytes f.kind p.entryIndex s.hooked with
  | (none, x) =>
    (.error .unreadable,
      (s.setHooked x).setTally { s.tally with unreadable := s.tally.unreadable + 1 })
  | (some child, x) =>
    let s := (s.setHooked x).expand child
    match ArchiveNames.detectArchiveKind p.filename child with
    | none =>
      (.error .notAnArchive, s.setTally { s.tally with notAnArchive := s.tally.notAnArchive + 1 })
    | some kind =>
      match s.budget.mayDescend f.depth (sizeOf child) with
      | .allow => (.ok (kind, child), s)
      | .depthExceeded =>
        (.error .depthCapped, s.setTally { s.tally with depthCapped := s.tally.depthCapped + 1 })
      | _ =>
        (.error .budgetStopped,
          s.setTally { s.tally with budgetStopped := s.tally.budgetStopped + 1 })

/-- What becomes of an archive in an archive before it is walked. -/
inductive Pick (σ : Type) where
  | cancelled (s : Walk σ)
  | refused (fate : Fate) (s : Walk σ)
  /-- There is no gallery for it. -/
  | unmade (name : Bytes) (s : Walk σ)
  | picked (name : Bytes) (kind : ArchiveKind) (child : Bytes) (s : Walk σ)

/-- The body of the loop of `descend`, up to where the archive is entered. -/
def pick (f : Frame) (p : ZipPlacement) (taken : List Bytes) (s : Walk σ) : Pick σ :=
  match poll H s with
  | (true, s) => .cancelled s
  | (false, s) =>
    match vetNested H f p s with
    | (.error fate, s) => .refused fate s
    | (.ok (kind, child), s) =>
      let name := ArchiveNames.uniqueGalleryName (ArchiveNames.baseName p.filename) taken
      match ask H (subGallery p.galleryPath name) s with
      | (false, s) => .unmade name s
      | (true, s) => .picked name kind child s

/-- `descend`, from the archives that are left on. `taken` are the names of galleries so far, and `a` is
the account of the archive they are in. -/
def descend (walk : Frame → Walk σ → Option (Walk σ)) :
    List ZipPlacement → List Bytes → Account σ → Walk σ → Option (Walk σ)
  | [], _, a, s => some (s.close a)
  | p :: ps, taken, a, s =>
    match pick H a.frame p taken s with
    | .cancelled t => some (t.close a)
    | .refused fate t => descend walk ps taken (a.note p s fate) t
    | .unmade name t => descend walk ps (taken ++ [name]) a t
    | .picked name kind child t => do
      let t ← walk ⟨child, kind, subGallery p.galleryPath name, a.frame.depth + 1⟩
        (t.enter (a.frame.depth + 1) child)
      let t := t.leave child
      descend walk ps (taken ++ [name]) (a.note p s (.entered name))
        (t.setHooked (H.archiveDone child t.hooked))

def planOf (f : Frame) (entries : List ZipEntry) : ZipPlan :=
  if f.kind = .cbz then ZipPlan.buildCbzPlan entries f.gallery []
  else ZipPlan.buildZipPlan entries f.gallery []

/-- The body of `walk_one`, up to where it descends: the account to go on with, if there is one. -/
def openArchive (f : Frame) (s : Walk σ) : Option (ZipPlan × Account σ) × Walk σ :=
  match H.listEntries f.bytes f.kind s.hooked with
  | (none, x) =>
    (none, ((s.setHooked x).setTally { s.tally with
      unreadable := s.tally.unreadable + 1
      rootUnreadable := s.tally.rootUnreadable || f.depth == 0 }).close
          { frame := f, before := s.hooked, entries := none })
  | (some entries, x) =>
    let plan := planOf f entries
    let a : Account σ := { frame := f, before := s.hooked, entries := some entries }
    match askAll H plan.galleries (s.setHooked x) with
    | (false, s) => (none, s.close a)
    | (true, s) =>
      let s := applyOwnMeta H f entries s
      let s := s.setTally
        { s.tally with skippedUnsupported := s.tally.skippedUnsupported + plan.skippedUnsupported }
      let s := s.setHooked (H.notePlanned ((plan.placements.length : ℤ).bmod (2 ^ 32)) s.hooked)
      match placeMedia H f plan.placements [] s with
      | (false, media, s) => (none, s.close { a with media, leftOut := plan.skippedUnsupported })
      | (true, media, s) => (some (plan, { a with media, leftOut := plan.skippedUnsupported }), s)

/-- `walk_one`, to at most a number of archives in one another. -/
def walkOne : ℕ → Frame → Walk σ → Option (Walk σ)
  | 0, _, _ => none
  | fuel + 1, f, s =>
    match openArchive H f s with
    | (none, s) => some s
    | (some (plan, a), s) => descend H (walkOne fuel) plan.nested [] a s

/-- Where a walk starts. -/
def start (rootBytes : Bytes) (limits : RecursionLimits) (x : σ) : Walk σ :=
  { hooked := x, budget := { limits, rootBytes := sizeOf rootBytes } }

end Walk

/-- `walk_archive`. There are no hooks if one is missing that has to be there. -/
def walkArchive (fuel : ℕ) (rootBytes : Bytes) (rootKind : ArchiveKind) (destGallery : Bytes)
    (hooks : Option (Hooks σ)) (limits : RecursionLimits) (x : σ) : Option (Walk σ) :=
  match hooks with
  | none => some (start rootBytes limits x)
  | some H => do
    let s ← walkOne H fuel ⟨rootBytes, rootKind, destGallery, 0⟩ (start rootBytes limits x)
    some (s.setHooked (H.archiveDone rootBytes s.hooked))

end NestedWalk

end SafeVault
