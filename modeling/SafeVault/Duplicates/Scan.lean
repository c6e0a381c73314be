import SafeVault.Legacy.Session
import SafeVault.Lib.Selection
import SafeVault.Lib.UnionFind
import SafeVault.Vault.Structure

/-!
# Looking for duplicates

The media of a vault is collected with its paths. One pass groups the items whose contents have the
same digest; two more passes group the remaining images by a hash of their thumbnails, and the
remaining videos by their lengths, posters and some frames.

What reading, decoding and hashing an item comes to is a parameter, and so is the flag that the user
can set to cancel the scan.
-/

namespace SafeVault

namespace Duplicates

open IndexIo (ChunkDomain)

/-! ## Items, members and groups -/

structure ChunkRef where
  offset : UInt64 := 0
  length : UInt64 := 0
  domain : ChunkDomain := .thumb
  nodeId : NodeId := .zero
  record : NodeId := .zero
  sequence : UInt32 := 0
  contextBound : Bool := false

def imageDataChunkRef (label : NodeHeader) (img : ImageMeta) : ChunkRef where
  offset := img.dataOffset
  length := img.dataLength
  domain := .data
  nodeId := label.nodeId
  record := img.dataId
  contextBound := img.contextBound

def videoChunkRef (label : NodeHeader) (vid : VideoMeta) (c : VideoChunk) : ChunkRef where
  offset := c.offset
  length := c.length
  domain := .video
  nodeId := label.nodeId
  record := c.id
  sequence := c.sequence
  contextBound := vid.contextBound

def mediaThumbChunkRef (label : NodeHeader) : Media → ChunkRef
  | .image img =>
    { offset := img.thumbOffset, length := img.thumbLength, domain := .thumb, nodeId := label.nodeId,
      record := img.thumbId, contextBound := img.contextBound }
  | .video vid =>
    { offset := vid.posterOffset, length := vid.posterLength, domain := .poster,
      nodeId := label.nodeId, record := vid.posterId, contextBound := vid.contextBound }

structure DupScanItem where
  nodePath : Bytes
  name : Bytes
  parentPath : Bytes
  isVideo : Bool
  bytes : UInt64
  width : UInt32
  height : UInt32
  data : List ChunkRef
  thumb : ChunkRef
  durationUs : UInt64 := 0
  chunkSize : UInt32 := 0

structure DupMember where
  nodePath : Bytes
  name : Bytes
  parentPath : Bytes
  isVideo : Bool
  bytes : UInt64
  width : UInt32
  height : UInt32
  thumb : ChunkRef
  data : List ChunkRef
  keep : Bool := true

inductive DupGroup.Kind where
  | identical | similar | similarVideo
  deriving DecidableEq

structure DupGroup where
  kind : DupGroup.Kind := .identical
  distanceBits : ℕ := 0
  members : List DupMember

def toMember (it : DupScanItem) : DupMember :=
  ⟨it.nodePath, it.name, it.parentPath, it.isVideo, it.bytes, it.width, it.height, it.thumb, it.data,
    true⟩

/-! ## Collecting the items -/

section Collect

/-- `Vault::list`, with the order in which the children of a gallery are shown. -/
def list (before : IndexNode → IndexNode → Bool) (root : IndexNode) (galleryPath : Bytes) :
    List IndexNode :=
  match (resolveGallery root galleryPath).bind root.get? with
  | some g => g.children.mergeSort before
  | none => []

def childPath (path name : Bytes) : Bytes := if path.isEmpty then name else path ++ [slash] ++ name

def itemOf (path : Bytes) (label : NodeHeader) : Media → DupScanItem
  | .image img =>
    { nodePath := childPath path label.name, name := label.name, parentPath := path
      isVideo := false, bytes := img.origSize, width := img.width, height := img.height
      data := [imageDataChunkRef label img], thumb := mediaThumbChunkRef label (.image img) }
  | .video vid =>
    { nodePath := childPath path label.name, name := label.name, parentPath := path
      isVideo := true, bytes := vid.origSize, width := vid.width, height := vid.height
      data := vid.chunks.map (videoChunkRef label vid)
      thumb := mediaThumbChunkRef label (.video vid)
      durationUs := vid.durationUs, chunkSize := vid.chunkSize }

variable (before : IndexNode → IndexNode → Bool) (root : IndexNode)

/-- `walk`, through at most a number of galleries in one another. -/
def walk : ℕ → Bytes → List DupScanItem
  | 0, _ => []
  | fuel + 1, path => (list before root path).flatMap fun n ↦
    match n with
    | .branch label _ => walk fuel (childPath path label.name)
    | .leaf label media => [itemOf path label media]

/-- `collect_scan_items`. No gallery is deeper than the tree is high. -/
def collectScanItems (scopePath : Bytes) : List DupScanItem :=
  walk before root (root.height + 1) scopePath

end Collect

/-! ## What a scan depends on -/

/-- Reading something of an item: the vault can be locked, and reading, decoding or hashing can fail. -/
inductive Outcome (α : Type) where
  | locked
  | failed
  | ok (a : α)

structure VideoSig where
  posterHash : UInt64 := 0
  posterOk : Bool := false
  frameHash : List UInt64 := List.replicate 5 0
  frameValid : UInt32 := 0

structure ScanEnv where
  /-- The flag, at the `k`-th look. -/
  cancel : ℕ → Bool
  digest : DupScanItem → Outcome Bytes
  thumbHash : DupScanItem → Outcome UInt64
  posterHash : DupScanItem → Outcome UInt64
  /-- The hashes of frames and which of them are valid; nothing if the vault was locked. -/
  frames : DupScanItem → Option (List UInt64 × UInt32)
  /-- How much lengths may differ, from the longer one: two parts in a hundred. -/
  durationTolerance : UInt64 → UInt64

structure DupScanOutcome where
  groups : List DupGroup := []
  skipped : ℕ := 0
  cancelled : Bool := false

def hamming64 (a b : UInt64) : ℕ := ((List.range 64).filter fun k ↦ (a ^^^ b).toNat.testBit k).length

def dupSimilarMaxBits : ℕ := 5

def dupVidDurationAbsUs : UInt64 := 500000

def dupVidPosterMaxBits : ℕ := 10

def dupVidFramePositions : ℕ := 5

def dupVidFrameMaxBits : ℕ := 7

def dupVidMinMatched : ℕ := 4

def durationClose (E : ScanEnv) (aUs bUs : UInt64) : Bool :=
  let hi := max aUs bUs
  let lo := min aUs bUs
  hi - lo ≤ max (E.durationTolerance hi) dupVidDurationAbsUs

def videoSigMatch (a b : VideoSig) : Bool :=
  let shared := (List.range dupVidFramePositions).filter fun i ↦
    (a.frameValid &&& b.frameValid).toNat.testBit i
  let matched := shared.filter fun i ↦
    hamming64 (a.frameHash.getD i 0) (b.frameHash.getD i 0) ≤ dupVidFrameMaxBits
  if dupVidMinMatched ≤ shared.length then dupVidMinMatched ≤ matched.length
  else a.posterOk && b.posterOk && hamming64 a.posterHash b.posterHash ≤ dupVidPosterMaxBits

/-! ## The passes -/

/-- What a pass over items has come to. -/
structure PassResult (α : Type) where
  read : List (ℕ × α) := []
  skipped : ℕ := 0
  cancelled : Bool := false
  /-- How often the flag was looked at, from the start of the scan. -/
  looks : ℕ

/-- A loop over items that looks at the flag before each one. It stops if the flag is set or the vault
is locked; items that fail are counted. -/
def passOver {α : Type} (E : ScanEnv) (read : ℕ → Outcome α) : List ℕ → ℕ → PassResult α
  | [], looks => { looks }
  | i :: is, looks =>
    if E.cancel looks then { cancelled := true, looks := looks + 1 }
    else
      match read i with
      | .locked => { cancelled := true, looks := looks + 1 }
      | .failed =>
        let rest := passOver E read is (looks + 1)
        { rest with skipped := rest.skipped + 1 }
      | .ok a =>
        let rest := passOver E read is (looks + 1)
        { rest with read := (i, a) :: rest.read }

section Passes

variable (E : ScanEnv) (items : List DupScanItem)

/-- Something about an item; nothing is known of an index that is out of range. -/
def atItem {α : Type} (f : DupScanItem → Outcome α) (i : ℕ) : Outcome α :=
  match items[i]? with
  | some it => f it
  | none => .failed

/-- The members at some indices. -/
def membersAt (is : List ℕ) : List DupMember := (Selection.pick items is).map toMember

/-- The items of one kind and size, a bucket for each. Images come first, and smaller ones. -/
def sizeBuckets : List (List ℕ) :=
  Selection.buckets (fun a b ↦ (!a.1 && b.1) || (a.1 == b.1 && a.2 ≤ b.2))
    (items.zipIdx.map fun e ↦ (e.2, (e.1.isVideo, e.1.bytes)))

/-- `hash_item`. -/
def hashItem (it : DupScanItem) : Outcome Bytes :=
  if it.data.isEmpty then .failed else E.digest it

/-- The indices of one digest. -/
def hashGroups (hashed : List (ℕ × Bytes)) : List (List ℕ) :=
  Selection.buckets (fun a b ↦ !decide (b < a)) hashed

/-- `exact_pass`: the outcome, and the indices that are in a group. -/
def exactPass (looks : ℕ) : DupScanOutcome × List ℕ × ℕ :=
  let candidates := ((sizeBuckets items).filter (2 ≤ ·.length)).flatten
  let pass := passOver E (atItem items (hashItem E)) candidates looks
  if pass.cancelled then ({ skipped := pass.skipped, cancelled := true }, [], pass.looks)
  else
    let groups := (hashGroups pass.read).filter (2 ≤ ·.length)
    ({ groups := groups.map fun is ↦ { members := membersAt items is }, skipped := pass.skipped },
      groups.flatten, pass.looks)

/-- The largest distance of two hashes in a cluster. -/
def maxDistance (hashes : List UInt64) (cluster : List ℕ) : ℕ :=
  (cluster.flatMap fun i ↦ cluster.map fun j ↦ hamming64 (hashes.getD i 0) (hashes.getD j 0)).foldl
    max 0

/-- `perceptual_pass`. -/
def perceptualPass (turns : ℕ) (inExact : List ℕ) (perceptual : Bool) (out : DupScanOutcome)
    (looks : ℕ) : Option (DupScanOutcome × ℕ) :=
  if !perceptual then some (out, looks)
  else
    let candidates := (List.range items.length).filter fun i ↦
      (items[i]?.any fun it ↦ !it.isVideo && it.thumb.length != 0) && !inExact.contains i
    let pass := passOver E (atItem items E.thumbHash) candidates looks
    let out := { out with skipped := out.skipped + pass.skipped, cancelled := pass.cancelled }
    if pass.cancelled then some (out, pass.looks)
    else do
      let hashes := pass.read.map Prod.snd
      let clusters ← UnionFind.clusters turns hashes.length fun i j ↦
        hamming64 (hashes.getD i 0) (hashes.getD j 0) ≤ dupSimilarMaxBits
      let groups := clusters.map fun c ↦
        ({ kind := .similar
           distanceBits := maxDistance hashes c
           members := membersAt items (Selection.pick (pass.read.map Prod.fst) c) } : DupGroup)
      some ({ out with groups := out.groups ++ groups }, pass.looks)

/-- `std::erase_if` with a condition that looks at the vector itself: `v` is the vector as it is being
overwritten, `r` the place to look at and `w` the place to write to. -/
def eraseIf (drop : List ℕ → ℕ → Bool) : ℕ → ℕ → ℕ → List ℕ → List ℕ
  | 0, _, w, v => v.take w
  | k + 1, r, w, v =>
    match v[r]? with
    | none => v.take w
    | some x => if drop v x then eraseIf drop k (r + 1) w v else eraseIf drop k (r + 1) (w + 1) (v.set w x)

def durationOf (i : ℕ) : UInt64 := (items[i]?.map DupScanItem.durationUs).getD 0

/-- The videos that are left, where another one has about the same length. -/
def videoCandidates (inExact : List ℕ) : List ℕ :=
  let cand := (List.range items.length).filter fun i ↦
    (items[i]?.any (·.isVideo)) && !inExact.contains i
  eraseIf (fun v i ↦ v.all fun j ↦
    !(j != i && durationClose E (durationOf items i) (durationOf items j))) cand.length 0 0 cand

/-- `poster_hash`: what fails only leaves the poster out. -/
def posterSig (it : DupScanItem) : Outcome VideoSig :=
  if it.thumb.length = 0 then .ok {}
  else
    match E.posterHash it with
    | .locked => .locked
    | .failed => .ok {}
    | .ok h => .ok { posterHash := h, posterOk := true }

def plausiblePair (a b : ℕ × VideoSig) : Bool :=
  durationClose E (durationOf items a.1) (durationOf items b.1) &&
    (!a.2.posterOk || !b.2.posterOk ||
      hamming64 a.2.posterHash b.2.posterHash ≤ dupVidPosterMaxBits)

/-- Whether frames of the `k`-th candidate are looked at: it has a plausible partner. -/
def wantsFrames (sigs : List (ℕ × VideoSig)) (k : ℕ) : Bool :=
  (UnionFind.pairs sigs.length).any fun ij ↦ (ij.1 == k || ij.2 == k) &&
    match sigs[ij.1]?, sigs[ij.2]? with
    | some a, some b => plausiblePair E items a b
    | _, _ => false

/-- `frame_stage`, over the candidates with their places; nothing if it is cancelled. -/
def frameStage (wants : ℕ → Bool) : List ((ℕ × VideoSig) × ℕ) → ℕ → Option (List (ℕ × VideoSig))
  | [], _ => some []
  | ((i, sig), k) :: rest, looks =>
    if !wants k then (frameStage wants rest looks).map ((i, sig) :: ·)
    else if E.cancel looks then none
    else do
      let (frameHash, frameValid) ← items[i]?.bind E.frames
      let rest ← frameStage wants rest (looks + 1)
      some ((i, { sig with frameHash, frameValid }) :: rest)

/-- `video_perceptual_pass`. -/
def videoPerceptualPass (turns : ℕ) (inExact : List ℕ) (perceptual : Bool) (out : DupScanOutcome)
    (looks : ℕ) : Option DupScanOutcome :=
  if !perceptual then some out
  else
    let cand := videoCandidates E items inExact
    if cand.length < 2 then some out
    else
      let posters := passOver E (atItem items (posterSig E)) cand looks
      if posters.cancelled then some { out with cancelled := true }
      else
        match frameStage E items (wantsFrames E items posters.read) posters.read.zipIdx
          posters.looks with
        | none => some { out with cancelled := true }
        | some sigs => do
          let clusters ← UnionFind.clusters turns sigs.length fun i j ↦
            match sigs[i]?, sigs[j]? with
            | some a, some b =>
              durationClose E (durationOf items a.1) (durationOf items b.1) && videoSigMatch a.2 b.2
            | _, _ => false
          let groups := clusters.map fun c ↦
            ({ kind := .similarVideo
               members := membersAt items (Selection.pick (sigs.map Prod.fst) c) } : DupGroup)
          some { out with groups := out.groups ++ groups }

/-- `DupScanJob::run`. -/
def runScan (turns : ℕ) (perceptual : Bool) : Option DupScanOutcome := do
  let (out, inExact, looks) := exactPass E items 0
  if out.cancelled then some out
  else do
    let (out, looks) ← perceptualPass E items turns inExact perceptual out looks
    if out.cancelled then some out
    else videoPerceptualPass E items turns inExact perceptual out looks

end Passes

end Duplicates

end SafeVault
