import SafeVault.Legacy.ChunkStore
import SafeVault.Legacy.CommitSafety
import SafeVault.Lib.History

/-!
# Binding the media of an older vault to their context

A migration reads every chunk of a medium without associated data and appends it again under the
identity of the node. The places in the tree and the flag of the medium, which says how all its
chunks are read, are then set. The chunks of an image are both written before the first place is set;
the list of chunks of a video is replaced before the poster is read.
-/

namespace SafeVault

/-- The flag that says how the chunks of a medium are read. -/
def Media.contextBound : Media → Bool
  | .image m => m.contextBound
  | .video m => m.contextBound

/-- What an unlocked vault holds. -/
structure LegacyVault where
  unlocked : Bool := true
  v3 : Bool := false
  root : IndexNode
  session : Session

namespace ContextRewrite

open IndexIo ChunkStore

/-! ## The rewrite -/

section Rewrite

variable (E : ChunkEnv)

/-- The lambda `reencode`. When there is nothing to read the identity stays what it is. -/
def reencode (owner : NodeId) (span : ChunkSpan) (domain : ChunkDomain) (sequence : UInt32)
    (record : NodeId) : Proc Session VaultResult (NodeId × ChunkSpan) :=
  if span.length = 0 then pure (record, ⟨0, 0⟩)
  else do
    let plain ← readStep E span false { domain, sequence := sequence.toNat }
    let (tag, fresh) ← appendChunk E plain true
      { domain, owner := owner.toBlock, sequence := sequence.toNat }
    pure (.ofBytes tag.record.bytes, fresh)

/-- The loop over the chunks of a video, from the chunk with index `i` on. -/
def reencodeChunks (owner : NodeId) : ℕ → List VideoChunk →
    Proc Session VaultResult (List VideoChunk)
  | _, [] => pure []
  | i, c :: cs => do
    let (id, span) ← reencode E owner ⟨c.offset, c.length⟩ .video (UInt32.ofNat i) .zero
    let fresh ← reencodeChunks owner (i + 1) cs
    pure (⟨span.offset, span.length, UInt32.ofNat i, id⟩ :: fresh)

def rewriteImage (owner : NodeId) (m : ImageMeta) (s : Session) :
    VaultResult × ImageMeta × Session :=
  let first := reencode E owner ⟨m.dataOffset, m.dataLength⟩ .data 0 m.dataId
  match first.outcome s with
  | .error r => (r, m, first.final s)
  | .ok (dataId, data) =>
    -- The identity is stored at once; it does not matter as long as the flag is not set.
    let m := { m with dataId }
    let second := reencode E owner ⟨m.thumbOffset, m.thumbLength⟩ .thumb 0 m.thumbId
    match second.outcome (first.final s) with
    | .error r => (r, m, second.final (first.final s))
    | .ok (thumbId, thumb) =>
      (.ok, { m with
        thumbId
        dataOffset := data.offset
        dataLength := data.length
        thumbOffset := thumb.offset
        thumbLength := thumb.length
        contextBound := true }, second.final (first.final s))

def rewriteVideo (owner : NodeId) (m : VideoMeta) (s : Session) :
    VaultResult × VideoMeta × Session :=
  let first := reencodeChunks E owner 0 m.chunks
  match first.outcome s with
  | .error r => (r, m, first.final s)
  | .ok fresh =>
    -- The chunks are replaced here, whatever becomes of the poster.
    let m := { m with chunks := fresh }
    let second := reencode E owner ⟨m.posterOffset, m.posterLength⟩ .poster 0 .zero
    match second.outcome (first.final s) with
    | .error r => (r, m, second.final (first.final s))
    | .ok (posterId, poster) =>
      (.ok, { m with
        posterOffset := poster.offset
        posterLength := poster.length
        posterId
        contextBound := true }, second.final (first.final s))

def rewriteMedia (owner : NodeId) (m : Media) (s : Session) : VaultResult × Media × Session :=
  match m with
  | .image m =>
    let (r, m, s) := rewriteImage E owner m s
    (r, .image m, s)
  | .video m =>
    let (r, m, s) := rewriteVideo E owner m s
    (r, .video m, s)

/-- A node of an older vault has no identity and is given one. -/
def mint (h : NodeHeader) : Proc Session VaultResult NodeHeader :=
  if h.nodeId = .zero then
    attempt E.toEnv .cryptoError (fun s ↦ ({ h with nodeId := E.id s.clock }, s)) fun _ s ↦ s
  else pure h

def rewriteLeaf (h : NodeHeader) (m : Media) (s : Session) :
    VaultResult × (NodeHeader × Media) × Session :=
  let minted := mint E h
  match minted.outcome s with
  | .error r => (r, (h, m), minted.final s)
  | .ok h =>
    let (r, m, s) := rewriteMedia E h.nodeId m (minted.final s)
    (r, (h, m), s)

/-- `apply_context_rewrite`. -/
def applyContextRewrite (path : Bytes) (v : LegacyVault) : VaultResult × LegacyVault :=
  if !v.unlocked then (.locked, v)
  else if v.v3 then (.invalidArg, v)
  else
    match resolveNode v.root path with
    | none => (.notFound, v)
    | some p =>
      match v.root.get? p with
      | some (.leaf h m) =>
        if m.contextBound then (.ok, v)
        else
          let (r, (h, m), session) := rewriteLeaf E h m v.session
          (r, { v with root := v.root.modifyAt (fun _ ↦ .leaf h m) p, session })
      | _ => (.ok, v)

end Rewrite

/-! ## What can be read -/

section Contents

variable (E : ChunkEnv)

/-- One record of a medium, as the readers ask for it. -/
def record (s : Session) (owner : NodeId) (contextBound : Bool) (offset length : UInt64)
    (domain : ChunkDomain) (id : NodeId) (sequence : UInt32) : Option Bytes :=
  readChunk E s.header s.disk ⟨offset, length⟩ contextBound
    { domain, owner := owner.toBlock, record := id.toBlock, sequence := sequence.toNat }

/-- What the records of a medium decrypt to, under the flag it carries. -/
def contents (s : Session) (owner : NodeId) : Media → List (Option Bytes)
  | .image m =>
    [record E s owner m.contextBound m.dataOffset m.dataLength .data m.dataId 0,
      record E s owner m.contextBound m.thumbOffset m.thumbLength .thumb m.thumbId 0]
  | .video m =>
    m.chunks.map (fun c ↦
      record E s owner m.contextBound c.offset c.length .video c.id c.sequence) ++
    [record E s owner m.contextBound m.posterOffset m.posterLength .poster m.posterId 0]

/-- Every record that could be read is read the same. -/
def Keeps (before after : List (Option Bytes)) : Prop :=
  List.Forall₂ (fun a b ↦ ∀ plain, a = some plain → b = some plain) before after

/-- Every record in the tree still decrypts to what it did. -/
def Kept (v w : LegacyVault) : Prop :=
  ∀ p h m, v.root.get? p = some (.leaf h m) → ∃ h' m', w.root.get? p = some (.leaf h' m') ∧
    Keeps (contents E v.session h.nodeId m) (contents E w.session h'.nodeId m')

/-- The chunks of the video have been written again and its poster is not. -/
def PosterFails (owner : NodeId) (m : VideoMeta) (s : Session) : Prop :=
  ∃ fresh r, (reencodeChunks E owner 0 m.chunks).outcome s = .ok fresh ∧
    (reencode E owner ⟨m.posterOffset, m.posterLength⟩ .poster 0 .zero).outcome
      ((reencodeChunks E owner 0 m.chunks).final s) = .error r

/-- The rewrite of a leaf reaches the poster of a video and fails there, and a chunk of the video
could be read. -/
def LeafLost (h : NodeHeader) (m : Media) (s : Session) : Prop :=
  ∃ vid h', m = .video vid ∧ (mint E h).outcome s = .ok h' ∧
    PosterFails E h'.nodeId vid ((mint E h).final s) ∧
    ∃ c ∈ vid.chunks, record E s h.nodeId false c.offset c.length .video c.id c.sequence ≠ none

/-- A call comes to such a leaf. -/
def PosterLost (v : LegacyVault) (path : Bytes) : Prop :=
  v.unlocked = true ∧ v.v3 = false ∧ ∃ p h m, resolveNode v.root path = some p ∧
    v.root.get? p = some (.leaf h m) ∧ m.contextBound = false ∧ LeafLost E h m v.session

end Contents

/-! ### Whether a poster is lost can be computed -/

section Decidable

variable (E : ChunkEnv)

instance (owner : NodeId) (m : VideoMeta) (s : Session) : Decidable (PosterFails E owner m s) :=
  match hchunks : (reencodeChunks E owner 0 m.chunks).outcome s with
  | .error _ => .isFalse fun ⟨_, _, hok, _⟩ ↦ nomatch hchunks.symm.trans hok
  | .ok fresh =>
    match hposter : (reencode E owner ⟨m.posterOffset, m.posterLength⟩ .poster 0 .zero).outcome
      ((reencodeChunks E owner 0 m.chunks).final s) with
    | .error r => .isTrue ⟨fresh, r, hchunks, hposter⟩
    | .ok _ => .isFalse fun ⟨_, _, _, herr⟩ ↦ nomatch hposter.symm.trans herr

instance (h : NodeHeader) (m : Media) (s : Session) : Decidable (LeafLost E h m s) :=
  match m with
  | .image _ => .isFalse fun ⟨_, _, hvid, _⟩ ↦ nomatch hvid
  | .video vid =>
    match hmint : (mint E h).outcome s with
    | .error _ => .isFalse fun ⟨_, _, _, hok, _⟩ ↦ nomatch hmint.symm.trans hok
    | .ok h' =>
      decidable_of_iff (PosterFails E h'.nodeId vid ((mint E h).final s) ∧ ∃ c ∈ vid.chunks,
        record E s h.nodeId false c.offset c.length .video c.id c.sequence ≠ none)
        ⟨fun hboth ↦ ⟨vid, h', rfl, hmint, hboth⟩, by
          rintro ⟨vid', h'', hvid, hok, hboth⟩
          obtain rfl : vid = vid' := Media.video.inj hvid
          obtain rfl : h' = h'' := Except.ok.inj (hmint.symm.trans hok)
          exact hboth⟩

instance (v : LegacyVault) (path : Bytes) : Decidable (PosterLost E v path) :=
  match hp : resolveNode v.root path with
  | none => .isFalse fun ⟨_, _, _, _, _, hq, _⟩ ↦ nomatch hp.symm.trans hq
  | some p =>
    match hget : v.root.get? p with
    | some (.leaf h m) =>
      decidable_of_iff (v.unlocked = true ∧ v.v3 = false ∧ m.contextBound = false ∧
        LeafLost E h m v.session)
        ⟨fun ⟨hunlocked, hv3, hm, hlost⟩ ↦ ⟨hunlocked, hv3, p, h, m, hp, hget, hm, hlost⟩, by
          rintro ⟨hunlocked, hv3, q, h', m', hq, hget', hrest⟩
          obtain rfl : p = q := Option.some.inj (hp.symm.trans hq)
          obtain ⟨rfl, rfl⟩ := LeafTree.leaf.inj (Option.some.inj (hget.symm.trans hget'))
          exact ⟨hunlocked, hv3, hrest⟩⟩
    | some (.branch _ _) => .isFalse fun ⟨_, _, _, _, _, hq, hleaf, _⟩ ↦ by
        obtain rfl := Option.some.inj (hp.symm.trans hq)
        exact nomatch hget.symm.trans hleaf
    | none => .isFalse fun ⟨_, _, _, _, _, hq, hleaf, _⟩ ↦ by
        obtain rfl := Option.some.inj (hp.symm.trans hq)
        exact nomatch hget.symm.trans hleaf

end Decidable

variable {E : ChunkEnv} {v w u : LegacyVault} {s t : Session} {h : NodeHeader} {m : Media}
  {owner : NodeId} {path : Bytes}

theorem Keeps.refl (as : List (Option Bytes)) : Keeps as as :=
  List.forall₂_same.mpr fun _ _ _ ha ↦ ha

theorem Keeps.trans {as bs cs : List (Option Bytes)} (h : Keeps as bs) (h' : Keeps bs cs) :
    Keeps as cs := by
  rw [Keeps, List.forall₂_iff_get] at *
  obtain ⟨hlen, hget⟩ := h
  obtain ⟨hlen', hget'⟩ := h'
  exact ⟨hlen.trans hlen', fun i ha hc plain hi ↦
    hget' i (hlen ▸ ha) hc plain (hget i ha (hlen ▸ ha) plain hi)⟩

theorem Kept.refl (v : LegacyVault) : Kept E v v :=
  fun _ h m hget ↦ ⟨h, m, hget, .refl _⟩

theorem Kept.trans (h : Kept E v w) (h' : Kept E w u) : Kept E v u := by
  intro p hd m hget
  obtain ⟨hd', m', hget', hkeeps⟩ := h p hd m hget
  obtain ⟨hd'', m'', hget'', hkeeps'⟩ := h' p hd' m' hget'
  exact ⟨hd'', m'', hget'', hkeeps.trans hkeeps'⟩

/-! ## One record -/

theorem toBlock_ofBytes (b : Block 16) : (NodeId.ofBytes b.bytes).toBlock = b := by
  rw [NodeId.ofBytes, dif_pos (show b.bytes.length = nodeIdSize from b.size)]
  rfl

/-- A record with nothing in it cannot be read. -/
theorem readChunk_of_length_eq_zero {span : ChunkSpan} {contextBound : Bool} {tag : ChunkTag}
    {d : Disk} {hd : Header} (hlen : span.length = 0) :
    readChunk E hd d span contextBound tag = none := by
  rw [readChunk, hlen, Option.bind_eq_bind, Option.bind_eq_none_iff]
  intro disk hdisk
  have hnil : disk.length = 0 := (Disk.holds_of_read hdisk).1
  rw [decryptChunk, if_pos (by rw [hnil]; decide)]
  rfl

/-- What could be read at `old` as a record that is not bound has been written at `new`, bound to the
node and the fresh identity. -/
def Reencoded (E : ChunkEnv) (owner : NodeId) (domain : ChunkDomain) (sequence : UInt32)
    (s t : Session) (old : ChunkSpan) (id : NodeId) (new : ChunkSpan) : Prop :=
  ∀ plain tag, readChunk E s.header s.disk old false tag = some plain → Written E t new
    (buildChunkAd
      { domain, owner := owner.toBlock, record := id.toBlock, sequence := sequence.toNat }) plain

section One

variable {domain : ChunkDomain} {sequence : UInt32} {old new : ChunkSpan} {id : NodeId}

theorem Reencoded.extends {s₀ t₁ : Session}
    (hr : Reencoded E owner domain sequence s t old id new) (hs : Extends s₀ s)
    (ht : Extends t t₁) : Reencoded E owner domain sequence s₀ t₁ old id new :=
  fun plain tag hread ↦ (hr plain tag (hs.readChunk hread)).extends ht

/-- It is read back as a bound record. -/
theorem Reencoded.keeps (hr : Reencoded E owner domain sequence s t old id new)
    {owner' id' : NodeId} {sequence' : UInt32} :
    ∀ plain, record E s owner' false old.offset old.length domain id' sequence' = some plain →
      record E t owner true new.offset new.length domain id sequence = some plain :=
  fun plain hread ↦ (hr plain _ hread).readChunk

/-- **A call of `reencode`.** -/
theorem wp_reencode {Q : NodeId × ChunkSpan → Session → Prop} {Er : VaultResult → Session → Prop}
    {record : NodeId}
    (hdone : ∀ t id new, Extends s t → Reencoded E owner domain sequence s t old id new →
      Q (id, new) t)
    (hfail : ∀ t r, Extends s t → Er r t) :
    Proc.wp (fun _ ↦ True) (reencode E owner old domain sequence record) Q Er s := by
  rw [reencode]
  split_ifs with hlen
  · refine Proc.wp_pure.mpr (hdone s record _ (.refl s) fun plain tag hread ↦ ?_)
    rw [readChunk_of_length_eq_zero hlen] at hread
    exact nomatch hread
  rw [Proc.wp_bind]
  refine wp_readStep (fun t plain hst hread ↦ ?_) fun t hst ↦ hfail t _ hst
  rw [Proc.wp_bind]
  refine wp_appendChunk (fun w id new htw hwritten ↦ ?_) fun w htw ↦ hfail w _ (hst.trans htw)
  rw [Proc.wp_pure]
  refine hdone w _ new (hst.trans htw) fun plain' tag hread' ↦ ?_
  -- A record that is not bound is read the same under every tag.
  obtain rfl : plain = plain' := Option.some.inj (hread.symm.trans hread')
  rw [toBlock_ofBytes]
  exact hwritten

end One

/-! ## The chunks of a video -/

/-- What the loop does to one chunk. -/
def ChunkReencoded (E : ChunkEnv) (owner : NodeId) (s t : Session) (c c' : VideoChunk) : Prop :=
  Reencoded E owner .video c'.sequence s t ⟨c.offset, c.length⟩ c'.id ⟨c'.offset, c'.length⟩

theorem wp_reencodeChunks {Q : List VideoChunk → Session → Prop}
    {Er : VaultResult → Session → Prop} {i : ℕ} {chunks : List VideoChunk}
    (hdone : ∀ t fresh, Extends s t → List.Forall₂ (ChunkReencoded E owner s t) chunks fresh →
      Q fresh t)
    (hfail : ∀ t r, Extends s t → Er r t) :
    Proc.wp (fun _ ↦ True) (reencodeChunks E owner i chunks) Q Er s := by
  induction chunks generalizing i s Q with
  | nil => exact Proc.wp_pure.mpr (hdone s [] (.refl s) .nil)
  | cons c cs ih =>
    rw [reencodeChunks, Proc.wp_bind]
    refine wp_reencode (fun t id new hst hc ↦ ?_) hfail
    rw [Proc.wp_bind]
    refine ih (fun u fresh htu hcs ↦ ?_) fun u r htu ↦ hfail u r (hst.trans htu)
    refine Proc.wp_pure.mpr (hdone u _ (hst.trans htu) (.cons (hc.extends (.refl s) htu) ?_))
    exact hcs.imp fun _ _ hold ↦ hold.extends hst (.refl u)

/-! ## One medium -/

theorem keeps_of_extends (hst : Extends s t) (owner : NodeId) (m : Media) :
    Keeps (contents E s owner m) (contents E t owner m) := by
  have hrecord (contextBound : Bool) (offset length : UInt64) (domain : ChunkDomain) (id : NodeId)
      (sequence : UInt32) (plain : Bytes)
      (hread : record E s owner contextBound offset length domain id sequence = some plain) :
      record E t owner contextBound offset length domain id sequence = some plain :=
    hst.readChunk hread
  rcases m with m | m
  · exact .cons (hrecord _ _ _ _ _ _) (.cons (hrecord _ _ _ _ _ _) .nil)
  · refine List.rel_append ?_ (.cons (hrecord _ _ _ _ _ _) .nil)
    rw [List.forall₂_map_left_iff, List.forall₂_map_right_iff]
    exact List.forall₂_same.mpr fun c _ ↦ hrecord _ _ _ _ _ _

/-- Identities do not matter as long as the flag is not set. -/
theorem contents_owner (hm : m.contextBound = false) (owner' : NodeId) :
    contents E s owner m = contents E s owner' m := by
  rcases m with m | m
  all_goals
    change m.contextBound = false at hm
    simp only [contents, hm]
    rfl

/-- What a rewrite of a medium leaves. -/
structure Rewritten (E : ChunkEnv) (owner : NodeId) (m : Media) (s : Session)
    (out : VaultResult × Media × Session) : Prop where
  grows : Extends s out.2.2
  keeps : Keeps (contents E s owner m) (contents E out.2.2 owner out.2.1)

theorem rewritten_of_extends (hst : Extends s t) (r : VaultResult) :
    Rewritten E owner m s (r, m, t) := ⟨hst, keeps_of_extends hst owner m⟩

/-- **An image.** Nothing that could be read is lost. -/
theorem rewritten_rewriteImage {m : ImageMeta} (hm : m.contextBound = false) :
    Rewritten E owner (.image m) s (rewriteMedia E owner (.image m) s) := by
  rw [rewriteMedia, rewriteImage]
  dsimp only
  set first := reencode E owner ⟨m.dataOffset, m.dataLength⟩ .data 0 m.dataId with hfirst
  have hwp : Proc.wp (fun _ ↦ True) first (fun a t ↦ Extends s t ∧
      Reencoded E owner .data 0 s t ⟨m.dataOffset, m.dataLength⟩ a.1 a.2) (fun _ ↦ Extends s) s :=
    wp_reencode (fun t id new hst hr ↦ ⟨hst, hr⟩) fun t r hst ↦ hst
  rcases hrun : first.outcome s with r | ⟨dataId, data⟩
  · have hst : Extends s (first.final s) := Proc.of_outcome_error hwp hrun
    exact rewritten_of_extends hst r
  obtain ⟨hst, hdata⟩ := Proc.of_outcome_ok hwp hrun
  dsimp only at hdata ⊢
  set second := reencode E owner ⟨m.thumbOffset, m.thumbLength⟩ .thumb 0 m.thumbId
  have hwp' : Proc.wp (fun _ ↦ True) second (fun a t ↦ Extends (first.final s) t ∧
      Reencoded E owner .thumb 0 (first.final s) t ⟨m.thumbOffset, m.thumbLength⟩ a.1 a.2)
      (fun _ ↦ Extends (first.final s)) (first.final s) :=
    wp_reencode (fun t id new hst hr ↦ ⟨hst, hr⟩) fun t r hst ↦ hst
  rcases hrun' : second.outcome (first.final s) with r | ⟨thumbId, thumb⟩
  · have htu : Extends (first.final s) (second.final (first.final s)) :=
      Proc.of_outcome_error hwp' hrun'
    have hext := hst.trans htu
    refine ⟨hext, ?_⟩
    have hsame : contents E s owner (.image m) = contents E s owner (.image { m with dataId }) := by
      simp only [contents, hm]
      rfl
    rw [hsame]
    exact keeps_of_extends hext owner _
  · obtain ⟨htu, hthumb⟩ := Proc.of_outcome_ok hwp' hrun'
    refine ⟨hst.trans htu, ?_⟩
    simp only [contents, hm]
    exact .cons (hdata.extends (.refl s) htu).keeps (.cons (hthumb.extends hst (.refl _)).keeps .nil)

section Video

variable {m : VideoMeta}

/-- **A video.** Nothing that could be read is lost, unless the poster is not reached or fails. -/
theorem rewritten_rewriteVideo (owner : NodeId) (hm : m.contextBound = false) :
    Extends s (rewriteMedia E owner (.video m) s).2.2 ∧
      (¬PosterFails E owner m s → Rewritten E owner (.video m) s
        (rewriteMedia E owner (.video m) s)) ∧
      (PosterFails E owner m s → ∃ fresh,
        (rewriteMedia E owner (.video m) s).2.1 = .video { m with chunks := fresh } ∧
        List.Forall₂ (ChunkReencoded E owner s (rewriteMedia E owner (.video m) s).2.2) m.chunks
          fresh) := by
  rw [rewriteMedia, rewriteVideo, PosterFails]
  dsimp only
  set first := reencodeChunks E owner 0 m.chunks
  have hwp : Proc.wp (fun _ ↦ True) first (fun fresh t ↦ Extends s t ∧
      List.Forall₂ (ChunkReencoded E owner s t) m.chunks fresh) (fun _ ↦ Extends s) s :=
    wp_reencodeChunks (fun t fresh hst hr ↦ ⟨hst, hr⟩) fun t r hst ↦ hst
  rcases hrun : first.outcome s with r | fresh
  · have hext : Extends s (first.final s) := Proc.of_outcome_error hwp hrun
    refine ⟨hext, fun _ ↦ rewritten_of_extends hext r, ?_⟩
    rintro ⟨fresh, r', hok, -⟩
    exact nomatch hok
  obtain ⟨hst, hchunks⟩ := Proc.of_outcome_ok hwp hrun
  dsimp only
  set second := reencode E owner ⟨m.posterOffset, m.posterLength⟩ .poster 0 .zero
  have hwp' : Proc.wp (fun _ ↦ True) second (fun a t ↦ Extends (first.final s) t ∧
      Reencoded E owner .poster 0 (first.final s) t ⟨m.posterOffset, m.posterLength⟩ a.1 a.2)
      (fun _ ↦ Extends (first.final s)) (first.final s) :=
    wp_reencode (fun t id new hst hr ↦ ⟨hst, hr⟩) fun t r hst ↦ hst
  rcases hrun' : second.outcome (first.final s) with r | ⟨posterId, poster⟩
  · have htu : Extends (first.final s) (second.final (first.final s)) :=
      Proc.of_outcome_error hwp' hrun'
    refine ⟨hst.trans htu, fun hnot ↦ absurd ⟨fresh, r, rfl, rfl⟩ hnot, fun _ ↦
      ⟨fresh, rfl, hchunks.imp fun _ _ hold ↦ hold.extends (.refl s) htu⟩⟩
  · obtain ⟨htu, hposter⟩ := Proc.of_outcome_ok hwp' hrun'
    refine ⟨hst.trans htu, fun _ ↦ ⟨hst.trans htu, ?_⟩, ?_⟩
    · simp only [contents, hm]
      refine List.rel_append ?_ (.cons (hposter.extends hst (.refl _)).keeps .nil)
      rw [List.forall₂_map_left_iff, List.forall₂_map_right_iff]
      exact hchunks.imp fun _ _ hold ↦ (hold.extends (.refl s) htu).keeps
    · rintro ⟨fresh', r, -, herr⟩
      exact nomatch herr

/-- What could not be read does not stand in the way of anything. -/
theorem keeps_replaced {chunks fresh : List VideoChunk} {owner' : NodeId} (hst : Extends s t)
    (hchunks : List.Forall₂ (ChunkReencoded E owner s t) chunks fresh)
    (hm : m.contextBound = false)
    (hunread : ∀ c ∈ chunks,
      record E s owner' false c.offset c.length .video c.id c.sequence = none) :
    Keeps (contents E s owner' (.video { m with chunks }))
      (contents E t owner (.video { m with chunks := fresh })) := by
  simp only [contents, hm]
  refine List.rel_append ?_ (.cons (fun plain hread ↦ hst.readChunk hread) .nil)
  rw [List.forall₂_map_left_iff, List.forall₂_map_right_iff]
  induction hchunks with
  | nil => exact .nil
  | cons _ _ ih =>
    obtain ⟨hc, hcs⟩ := List.forall_mem_cons.mp hunread
    exact .cons (fun plain hread ↦ nomatch hc.symm.trans hread) (ih hcs)

theorem unread_of_keeps_replaced (hbinds : Binds E) {chunks fresh : List VideoChunk}
    {owner' : NodeId} (hchunks : List.Forall₂ (ChunkReencoded E owner s t) chunks fresh)
    (hm : m.contextBound = false)
    (hkeeps : Keeps (contents E s owner' (.video { m with chunks }))
      (contents E t owner (.video { m with chunks := fresh }))) :
    ∀ c ∈ chunks, record E s owner' false c.offset c.length .video c.id c.sequence = none := by
  simp only [contents, hm] at hkeeps
  induction hchunks with
  | nil => exact fun c hc ↦ absurd hc List.not_mem_nil
  | cons hc _ ih =>
    obtain ⟨hkeep, hkeeps⟩ := List.forall₂_cons.mp hkeeps
    refine List.forall_mem_cons.mpr ⟨?_, ih hkeeps⟩
    by_contra hne
    obtain ⟨plain, hread⟩ := Option.ne_none_iff_exists'.mp hne
    have hgone : ∀ id sequence, record E t owner false _ _ .video id sequence = none :=
      fun id sequence ↦ (hc plain _ hread).readChunk_unbound hbinds
    exact nomatch (hgone _ _).symm.trans (hkeep plain hread)

end Video

/-! ## One leaf -/

theorem extends_mint (h : NodeHeader) (s : Session) : Extends s ((mint E h).final s) := by
  have hwp : Proc.wp (fun _ ↦ True) (mint E h) (fun _ ↦ Extends s) (fun _ ↦ Extends s) s := by
    rw [mint]
    split_ifs
    · exact wp_compute (fun t hdisk hheader ↦ ⟨trivial, extends_of_eq hheader hdisk⟩)
        fun t hdisk hheader ↦ ⟨trivial, extends_of_eq hheader hdisk⟩
    · exact Proc.wp_pure.mpr (.refl s)
  rcases hrun : (mint E h).outcome s with r | h'
  · exact Proc.of_outcome_error hwp hrun
  · exact Proc.of_outcome_ok hwp hrun

/-- **A leaf.** What is in it is kept unless the poster of a video fails. -/
theorem rewriteLeaf_spec (hm : m.contextBound = false) :
    let out := rewriteLeaf E h m s
    Extends s out.2.2 ∧
      (¬LeafLost E h m s →
        Keeps (contents E s h.nodeId m) (contents E out.2.2 out.2.1.1.nodeId out.2.1.2)) ∧
      (Binds E → LeafLost E h m s →
        ¬Keeps (contents E s h.nodeId m) (contents E out.2.2 out.2.1.1.nodeId out.2.1.2)) := by
  have hsu := extends_mint (E := E) h s
  rw [rewriteLeaf]
  rcases hrun : (mint E h).outcome s with r | h'
  · refine ⟨hsu, fun _ ↦ keeps_of_extends hsu _ _, ?_⟩
    rintro - ⟨vid, h', -, hok, -⟩
    exact nomatch hrun.symm.trans hok
  dsimp only
  set u := (mint E h).final s with hu
  have hstart : Keeps (contents E s h.nodeId m) (contents E u h'.nodeId m) := by
    rw [contents_owner hm h'.nodeId]
    exact keeps_of_extends hsu _ _
  rcases m with img | vid
  · have hr : Rewritten E h'.nodeId (.image img) u (rewriteMedia E h'.nodeId (.image img) u) :=
      rewritten_rewriteImage hm
    refine ⟨hsu.trans hr.grows, fun _ ↦ hstart.trans hr.keeps, ?_⟩
    rintro - ⟨vid, -, hvid, -⟩
    exact nomatch hvid
  obtain ⟨hgrows, hsafe, hlost⟩ :=
    rewritten_rewriteVideo (E := E) (s := u) (m := vid) h'.nodeId hm
  refine ⟨hsu.trans hgrows, fun hnot ↦ ?_, ?_⟩
  · by_cases hposter : PosterFails E h'.nodeId vid u
    · obtain ⟨fresh, hmedia, hchunks⟩ := hlost hposter
      rw [hmedia]
      refine keeps_replaced (m := vid) (hsu.trans hgrows)
        (hchunks.imp fun _ _ hold ↦ hold.extends hsu (.refl _)) hm fun c hc ↦ ?_
      by_contra hread
      exact hnot ⟨vid, h', rfl, hrun, hposter, c, hc, hread⟩
    · exact hstart.trans (hsafe hposter).keeps
  · rintro hbinds ⟨vid', h'', hvid, hok, hposter, c, hc, hread⟩ hkeeps
    obtain rfl : vid = vid' := Media.video.inj hvid
    obtain rfl : h' = h'' := Except.ok.inj (hrun.symm.trans hok)
    obtain ⟨fresh, hmedia, hchunks⟩ := hlost hposter
    rw [hmedia] at hkeeps
    exact hread (unread_of_keeps_replaced (m := vid) hbinds
      (hchunks.imp fun _ _ hold ↦ hold.extends hsu (.refl _)) hm hkeeps c hc)

/-! ## Whole vaults -/

/-- A change of one leaf keeps everything if it keeps what is in the leaf. -/
theorem kept_modifyAt_iff {p : List ℕ} {h' : NodeHeader} {m' : Media}
    (hget : v.root.get? p = some (.leaf h m)) (hext : Extends v.session t) :
    Kept E v { v with root := v.root.modifyAt (fun _ ↦ .leaf h' m') p, session := t } ↔
      Keeps (contents E v.session h.nodeId m) (contents E t h'.nodeId m') := by
  have hself : (v.root.modifyAt (fun _ ↦ .leaf h' m') p).get? p = some (.leaf h' m') :=
    LeafTree.get?_modifyAt_self hget
  constructor
  · intro hkept
    obtain ⟨h'', m'', hget'', hkeeps⟩ := hkept p h m hget
    obtain ⟨rfl, rfl⟩ := LeafTree.leaf.inj (Option.some.inj (hself.symm.trans hget''))
    exact hkeeps
  · intro hkeeps q hd m₀ hq
    by_cases hqp : q = p
    · subst hqp
      obtain ⟨rfl, rfl⟩ := LeafTree.leaf.inj (Option.some.inj (hget.symm.trans hq))
      exact ⟨h', m', hself, hkeeps⟩
    · exact ⟨hd, m₀, LeafTree.get?_modifyAt_leaf hget hq hqp, keeps_of_extends hext _ _⟩

/-- **A call.** -/
theorem kept_applyContextRewrite (path : Bytes) (v : LegacyVault) :
    (¬PosterLost E v path → Kept E v (applyContextRewrite E path v).2) ∧
      (Binds E → PosterLost E v path → ¬Kept E v (applyContextRewrite E path v).2) := by
  rw [applyContextRewrite, PosterLost]
  split_ifs with hlocked hv3
  · refine ⟨fun _ ↦ .refl v, ?_⟩
    rintro - ⟨hunlocked, -⟩
    exact absurd hunlocked (by simpa using hlocked)
  · refine ⟨fun _ ↦ .refl v, ?_⟩
    rintro - ⟨-, hold, -⟩
    exact absurd hold (by simpa using hv3)
  rcases hresolve : resolveNode v.root path with _ | p
  · refine ⟨fun _ ↦ .refl v, ?_⟩
    rintro - ⟨-, -, p, -, -, hp, -⟩
    exact nomatch hp
  dsimp only
  rcases hget : v.root.get? p with _ | (⟨h, cs⟩ | ⟨h, m⟩)
  iterate 2
    refine ⟨fun _ ↦ .refl v, ?_⟩
    rintro - ⟨-, -, q, h', m, hq, hleaf, -⟩
    obtain rfl : p = q := Option.some.inj hq
    exact nomatch hget.symm.trans hleaf
  dsimp only
  split_ifs with hbound
  · refine ⟨fun _ ↦ .refl v, ?_⟩
    rintro - ⟨-, -, q, h', m', hq, hleaf, hunbound, -⟩
    obtain rfl : p = q := Option.some.inj hq
    obtain ⟨rfl, rfl⟩ := LeafTree.leaf.inj (Option.some.inj (hget.symm.trans hleaf))
    exact absurd (hunbound.symm.trans hbound) Bool.false_ne_true
  rw [Bool.not_eq_true] at hbound
  obtain ⟨hext, hsafe, hlost⟩ := rewriteLeaf_spec (E := E) (h := h) (s := v.session) hbound
  rw [kept_modifyAt_iff hget hext]
  refine ⟨fun hnot ↦ hsafe fun hleaf ↦ hnot ?_, ?_⟩
  · exact ⟨by simpa using hlocked, by simpa using hv3, p, h, m, rfl, hget, hbound, hleaf⟩
  · rintro hbinds ⟨-, -, q, h', m', hq, hleaf, -, hfails⟩
    obtain rfl : p = q := Option.some.inj hq
    obtain ⟨rfl, rfl⟩ := LeafTree.leaf.inj (Option.some.inj (hget.symm.trans hleaf))
    exact hlost hbinds hfails

/-- The calls of a migration, as a system. -/
def rewriteNext (E : ChunkEnv) (v : LegacyVault) (path : Bytes) : Option LegacyVault :=
  some (applyContextRewrite E path v).2

/-- **A migration loses no record unless a poster is lost.** As long as no call fails at the poster of
a video that could be read, every record decrypts to what it did, whatever else fails; and a call
that fails there loses records. -/
theorem kept_of_posters {paths : List Bytes}
    (hpaths : Run.Meets (rewriteNext E) (fun v path ↦ ¬PosterLost E v path) v paths)
    (hrun : Run.run (rewriteNext E) v paths = some w) :
    Kept E v w ∧ (Binds E → ∀ path,
      (Kept E w (applyContextRewrite E path w).2 ↔ ¬PosterLost E w path)) := by
  refine ⟨Run.invariant (I := fun u ↦ Kept E v u) (fun {u path u'} hkept hposter hstep ↦ ?_)
    (.refl v) hpaths hrun, fun hbinds path ↦ ⟨?_, (kept_applyContextRewrite path w).1⟩⟩
  · exact Option.some.inj hstep ▸ hkept.trans ((kept_applyContextRewrite path u).1 hposter)
  · exact fun hkept hposter ↦ (kept_applyContextRewrite path w).2 hbinds hposter hkept

/-! ### A video with an unreadable poster -/

/-- A cipher that tells only whether there is associated data. -/
def markAead : Aead where
  sealTo _ ad plain := plain ++ List.replicate 16 (if ad = [] then 0 else 1)
  openTo _ ad bytes :=
    if bytes.drop (bytes.length - 16) = List.replicate 16 (if ad = [] then 0 else 1) then
      some (bytes.take (bytes.length - 16))
    else none
  openTo_sealTo _ ad plain := by simp
  length_sealTo _ ad plain := by simp

/-- Nothing fails of itself. -/
def markEnv : ChunkEnv where
  toEnv := { calmEnv with aead := markAead }
  id n := .ofBytes (List.replicate nodeIdSize (UInt8.ofNat (n + 1)))

theorem binds_markEnv : Binds markEnv := by
  intro nonce tag plain
  simp [markEnv, markAead, buildChunkAd]

/-- A record of one byte that is not bound. -/
def oldChunk (byte : UInt8) : Bytes := List.replicate 24 0 ++ byte :: List.replicate 16 0

/-- An image and a video. The last byte of the poster of the video has been damaged. -/
def album : LegacyVault where
  root := .branch { name := [] } [
    .leaf { name := ascii "still" } (.image { dataOffset := 4096, dataLength := 41 }),
    .leaf { name := ascii "clip" } (.video {
      chunks := [{ offset := 4137, length := 41 }]
      posterOffset := 4178
      posterLength := 41 })]
  session := {
    disk := {
      head := Header.serialize {}
      content := List.replicate 4096 0 ++ (oldChunk 1 ++ (oldChunk 2 ++ (oldChunk 3).set 40 9))
      dirty := fun _ ↦ false }
    header := {} }

/-- The chunk of the video after some calls, as the readers ask for it. -/
def clipRecord (v : LegacyVault) : Option Bytes :=
  match v.root.get? [1] with
  | some (.leaf h (.video m)) =>
    m.chunks.head?.bind fun c ↦
      record markEnv v.session h.nodeId m.contextBound c.offset c.length .video c.id c.sequence
  | _ => none

/-- A vault with the still image rewritten. -/
def stillBound : LegacyVault := (applyContextRewrite markEnv (ascii "still") album).2

/-- The image is bound, and then the call for the video loses its chunk. -/
theorem kept_of_posters_album :
    Kept markEnv album stillBound ∧
      ¬Kept markEnv stillBound (applyContextRewrite markEnv (ascii "clip") stillBound).2 := by
  have hstill : ¬PosterLost markEnv album (ascii "still") := by decide +kernel
  have hclip : PosterLost markEnv stillBound (ascii "clip") := by decide +kernel
  have hpaths : Run.Meets (rewriteNext markEnv) (fun v path ↦ ¬PosterLost markEnv v path) album
      [ascii "still"] := ⟨hstill, trivial⟩
  obtain ⟨hkept, hcall⟩ := kept_of_posters hpaths rfl
  exact ⟨hkept, fun hkeeps ↦ (hcall binds_markEnv _).mp hkeeps hclip⟩

/-- The poster of the video cannot be read, and the call says so; its chunk, which could be read before
the call, cannot be read after it. -/
theorem not_kept_of_poster :
    let out := applyContextRewrite markEnv (ascii "clip") album
    out.1 = .authFailed ∧ clipRecord album = some [2] ∧ clipRecord out.2 = none ∧
      ¬Kept markEnv album out.2 := by
  have hclip : PosterLost markEnv album (ascii "clip") := by decide +kernel
  exact ⟨by decide +kernel, by decide +kernel, by decide +kernel,
    (kept_applyContextRewrite _ _).2 binds_markEnv hclip⟩

end ContextRewrite

end SafeVault
