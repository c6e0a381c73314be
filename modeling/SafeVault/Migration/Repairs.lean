import SafeVault.Lib.LeafShape
import SafeVault.Migration.Previews
import SafeVault.Ui.TagInherit

/-!
# Repairs of single media

A migration collects the media that owe something: the properties of a video, the animated flag of an
image, a thumbnail or a poster. What it has learned of a video is written on the node in one call, which
sets the properties first and then stores the poster.
-/

namespace SafeVault

open ChunkStore IndexIo LeafTree
open Duplicates (ChunkRef imageDataChunkRef videoChunkRef childPath)

/-! ## Media and their previews -/

namespace ImageFormat

def gif : ImageFormat := ⟨2⟩

def webP : ImageFormat := ⟨6⟩

/-- `format_can_animate` -/
def canAnimate (f : ImageFormat) : Bool := f == gif || f == webP

end ImageFormat

namespace Media

/-- The preview that a medium has. -/
def preview : Media → Preview
  | image _ => .thumb
  | video _ => .poster

def owner (h : NodeHeader) : Media → Owner
  | image m => ⟨h.nodeId, m.format.toByte, m.contextBound⟩
  | video m => ⟨h.nodeId, m.container.toByte, m.contextBound⟩

/-- Where the preview is; a length of `0` means that there is none. -/
def place : Media → Place
  | image m => ⟨m.thumbOffset, m.thumbLength, some m.thumbId⟩
  | video m => ⟨m.posterOffset, m.posterLength, some m.posterId⟩

/-- Set the place of the preview. -/
def setPlace (place : Place) : Media → Media
  | image m => image { m with
      thumbOffset := place.offset
      thumbLength := place.length
      thumbId := place.id.getD m.thumbId }
  | video m => video { m with
      posterOffset := place.offset
      posterLength := place.length
      posterId := place.id.getD m.posterId }

end Media

/-- An open vault with what its media are stored in. -/
structure MediaVault extends Vault Media where
  storage : Storage

/-- The medium at a path, and its position. -/
def mediaAt (root : IndexNode) (path : Bytes) : Option (List ℕ × NodeHeader × Media) :=
  match resolveNode root path with
  | none => none
  | some p =>
    match root.get? p with
    | some (.leaf h m) => some (p, h, m)
    | _ => none

namespace MediaVault

/-- Change a medium and the storage. -/
def put (p : List ℕ) (m : Media) (storage : Storage) (v : MediaVault) : MediaVault :=
  { v with root := v.root.modifyAt (setPayload m) p, storage }

end MediaVault

section Repairs

variable (E : PreviewEnv)

/-- `Vault::read_thumbnail` -/
def MediaVault.readThumbnail (h : NodeHeader) (m : Media) (v : MediaVault) :
    Except VaultResult Bytes :=
  if m.place.length = 0 then .error .notFound
  else if !v.unlocked then .error .locked
  else v.storage.load E m.preview (m.owner h) m.place

/-! ## The repairs -/

/-- `VideoProbeApply` -/
structure VideoProbeApply where
  codec : VideoCodec
  width : UInt32
  height : UInt32
  durationUs : UInt64
  posterJpeg : Bytes := []

/-- The video with the properties that were found. -/
def VideoProbeApply.describe (probe : VideoProbeApply) (m : VideoMeta) : VideoMeta :=
  { m with
    codec := probe.codec
    width := probe.width
    height := probe.height
    durationUs := probe.durationUs }

/-- `apply_video_probe` -/
def applyVideoProbe (path : Bytes) (probe : VideoProbeApply) (syncs : Bool) (v : MediaVault) :
    VaultResult × MediaVault :=
  if !v.unlocked then (.locked, v)
  else if v.legacyReadOnly then (.invalidArg, v)
  else
    match mediaAt v.root path with
    | some (p, h, .video m) =>
      if m.codec ≠ .unknown then (.ok, v)
      else if probe.codec = .unknown then (.ok, v)
      else
        let media := Media.video (probe.describe m)
        if m.posterLength = 0 && !probe.posterJpeg.isEmpty then
          match v.storage.store E .poster (media.owner h) probe.posterJpeg syncs with
          -- The properties stay set.
          | (none, storage) => (.ioError, v.put p media storage)
          | (some place, storage) => (.ok, v.put p (media.setPlace place) storage)
        else (.ok, v.put p media v.storage)
    | _ => (.notFound, v)

end Repairs

/-! ## What is owed -/

namespace Migration

inductive ItemKind where
  | videoProbe | imageAnimated | imageThumb | videoPoster
  deriving DecidableEq

structure Item where
  kind : ItemKind
  nodePath : Bytes
  refs : List ChunkRef
  bytes : UInt64
  chunkSize : UInt32 := 0
  format : UInt8 := 0
  thumbsStale : Bool := false

def collectVideoItem (kind : ItemKind) (child : Bytes) (h : NodeHeader) (m : VideoMeta)
    (thumbsStale : Bool) : Item where
  kind
  nodePath := child
  refs := m.chunks.map (videoChunkRef h m)
  bytes := m.origSize
  chunkSize := m.chunkSize
  thumbsStale

def collectImageItem (kind : ItemKind) (child : Bytes) (h : NodeHeader) (m : ImageMeta) : Item where
  kind
  nodePath := child
  refs := [imageDataChunkRef h m]
  bytes := m.origSize
  format := m.format.toByte

/-- What `collect` does with a medium. -/
def itemOf (child : Bytes) (h : NodeHeader) (thumbsStale : Bool) : Media → Option Item
  | .video m =>
    if m.codec = .unknown then some (collectVideoItem .videoProbe child h m thumbsStale)
    else if thumbsStale then some (collectVideoItem .videoPoster child h m thumbsStale)
    else none
  | .image m =>
    if thumbsStale && 0 < m.thumbLength then some (collectImageItem .imageThumb child h m)
    else if m.format.canAnimate && !m.animated then some (collectImageItem .imageAnimated child h m)
    else none

end Migration

/-! ## Paths -/

section Lookup

variable {μ : Type} {t t' : Node μ} {path : Bytes}

theorem isGallery_mapLeaf {γ : Type} {f : μ → γ} :
    (mapLeaf f t : Node γ).isGallery = t.isGallery := by
  rcases t with ⟨n, cs⟩ | ⟨n, b⟩
  · rw [mapLeaf_branch]
    rfl
  · rfl

theorem named_mapLeaf {γ : Type} {f : μ → γ} (name : Bytes) :
    (mapLeaf f t : Node γ).named name = t.named name := by
  rw [LeafTree.named, LeafTree.named, label_mapLeaf]

/-- Galleries are found by names and shape alone. -/
theorem resolveSegments_mapLeaf {γ : Type} {f : μ → γ} (segs : List Bytes) :
    resolveSegments (mapLeaf f t : Node γ) segs = resolveSegments t segs := by
  induction segs generalizing t with
  | nil => rfl
  | cons seg segs ih =>
    rw [resolveSegments, resolveSegments, children_mapLeaf, List.findIdx?_map]
    have htest : ((fun c : Node γ ↦ c.isGallery && c.named seg) ∘ mapLeaf f) =
        fun c : Node μ ↦ c.isGallery && c.named seg :=
      funext fun c ↦ by rw [Function.comp_apply, isGallery_mapLeaf, named_mapLeaf]
    rw [htest]
    refine bind_congr fun i ↦ ?_
    rw [List.getElem?_map]
    rcases t.children[i]? with _ | c
    · rfl
    · exact congrArg (· >>= fun p ↦ some (i :: p)) ih

theorem resolveNode_mapLeaf {γ : Type} {f : μ → γ} (path : Bytes) :
    resolveNode (mapLeaf f t : Node γ) path = resolveNode t path := by
  rw [resolveNode, resolveNode, resolveSegments_mapLeaf]
  rcases (splitPath path).getLast? with _ | last
  · rfl
  · refine bind_congr fun q ↦ ?_
    rw [get?_mapLeaf]
    rcases t.get? q with _ | g
    · rfl
    · refine congrArg (· >>= fun i ↦ some (q ++ [i])) ?_
      rw [children_mapLeaf, List.findIdx?_map]
      exact congrArg (fun test ↦ g.children.findIdx? test) (funext fun c ↦ named_mapLeaf last)

/-- **A path leads to the same position** in trees of one shape. -/
theorem resolveNode_of_shape (h : t.shape = t'.shape) :
    resolveNode t path = resolveNode t' path := by
  have hboth := congrArg (fun u : Node Unit ↦ resolveNode u path) h
  rwa [shape, shape, resolveNode_mapLeaf, resolveNode_mapLeaf] at hboth

end Lookup

section Put

variable {v : MediaVault} {path : Bytes} {p : List ℕ} {h : NodeHeader} {m m' : Media}
  {storage : Storage}

theorem mediaAt_eq_some_iff {root : IndexNode} : mediaAt root path = some (p, h, m) ↔
    resolveNode root path = some p ∧ root.get? p = some (.leaf h m) := by
  rw [mediaAt]
  constructor
  · intro hat
    rcases hr : resolveNode root path with _ | q
    · rw [hr] at hat
      exact nomatch hat
    rw [hr] at hat
    dsimp only at hat
    rcases hq : root.get? q with _ | (⟨h', cs⟩ | ⟨h', m'⟩)
    · rw [hq] at hat
      exact nomatch hat
    · rw [hq] at hat
      exact nomatch hat
    · rw [hq] at hat
      obtain ⟨rfl, hrest⟩ := Prod.mk.inj (Option.some.inj hat)
      obtain ⟨rfl, rfl⟩ := Prod.mk.inj hrest
      exact ⟨rfl, hq⟩
  · rintro ⟨hr, hq⟩
    rw [hr]
    dsimp only
    rw [hq]

/-- The place of a medium after it has been set. -/
theorem place_setPlace {place : Place} :
    (m.setPlace place).place = place.over (m.place.id.getD .zero) := by
  rcases m with m | m <;> rfl

@[simp] theorem preview_setPlace {place : Place} : (m.setPlace place).preview = m.preview := by
  rcases m with m | m <;> rfl

@[simp] theorem owner_setPlace {place : Place} : (m.setPlace place).owner h = m.owner h := by
  rcases m with m | m <;> rfl

/-- **A preview that was stored is shown.** -/
theorem readThumbnail_put {E : PreviewEnv} {place : Place} {jpeg : Bytes} {syncs : Bool}
    (hopen : v.unlocked = true)
    (hstore : v.storage.store E m.preview (m.owner h) jpeg syncs = (some place, storage)) :
    (v.put p (m.setPlace place) storage).readThumbnail E h (m.setPlace place) = .ok jpeg := by
  obtain ⟨hlen, hload⟩ := load_of_store (congrArg Prod.fst hstore)
  rw [hstore] at hload
  have hunlocked : (v.put p (m.setPlace place) storage).unlocked = true := hopen
  rw [MediaVault.readThumbnail, place_setPlace, preview_setPlace, owner_setPlace, hunlocked]
  exact (if_neg hlen).trans (hload _)

/-- The changed medium is found under the same path. -/
theorem mediaAt_put (hat : mediaAt v.root path = some (p, h, m)) :
    mediaAt (v.put p m' storage).root path = some (p, h, m') := by
  rw [mediaAt_eq_some_iff] at hat ⊢
  exact ⟨(resolveNode_of_shape shape_modifyAt_setPayload).trans hat.1,
    get?_modifyAt_setPayload hat.2⟩

end Put

end SafeVault
