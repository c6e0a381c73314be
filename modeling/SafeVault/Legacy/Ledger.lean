import SafeVault.Index.Spans
import SafeVault.Legacy.Commit
import SafeVault.Lib.Gaps
import SafeVault.Vault.RemoveMedia

/-!
# The places of an open vault file

Which bytes of a vault file are in use while the vault is open: those the tree refers to, those that
the slots of the header point at, and those that an import worker has appended for a medium that is not
in the tree yet. Workers append one chunk at a time under the write mutex, the commit lane appends an
index blob and swaps the slots under it, and the main thread does everything else, so a run is a list of
actions in some order. What the bytes say does not matter here.

The header in memory and the one in the file differ after a header could not be written.
-/

namespace SafeVault

/-! ## A medium under construction -/

/-- The chunks of a medium. -/
inductive Part where
  | data | thumb | chunk | poster
  deriving DecidableEq

/-- Note where a chunk of a new medium was appended. -/
def Media.record (part : Part) (r : ChunkSpan) : Media → Option Media
  | .image m =>
    match part with
    | .data =>
      if m.dataLength = 0 then
        some (.image { m with dataOffset := r.offset, dataLength := r.length })
      else none
    | .thumb =>
      if m.thumbLength = 0 then
        some (.image { m with thumbOffset := r.offset, thumbLength := r.length })
      else none
    | _ => none
  | .video m =>
    match part with
    | .chunk =>
      let next : VideoChunk :=
        { offset := r.offset, length := r.length, sequence := .ofNat m.chunks.length }
      some (.video { m with chunks := m.chunks ++ [next] })
    | .poster =>
      if m.posterLength = 0 then
        some (.video { m with posterOffset := r.offset, posterLength := r.length })
      else none
    | _ => none

theorem mem_span {r : ChunkSpan} {offset length : UInt64} (h : r ∈ span offset length) :
    r = ⟨offset, length⟩ := by
  rw [span] at h
  split_ifs at h
  · exact absurd h List.not_mem_nil
  · exact List.mem_singleton.mp h

/-- A medium refers to what it referred to and to the new chunk. -/
theorem Media.mem_spans_record {m m' : Media} {part : Part} {r t : ChunkSpan}
    (h : m.record part r = some m') (ht : t ∈ m'.spans) : t ∈ m.spans ∨ t = r := by
  rcases m with m | m <;> rcases part <;> simp only [Media.record] at h <;>
    try first | cases h | split_ifs at h with hnone
  · cases h
    rcases List.mem_append.mp ht with ht | ht
    · exact .inr (mem_span ht)
    · exact .inl (List.mem_append_right _ ht)
  · cases h
    rcases List.mem_append.mp ht with ht | ht
    · exact .inl (List.mem_append_left _ ht)
    · exact .inr (mem_span ht)
  · simp only [Media.spans, List.flatMap_append, List.mem_append] at ht ⊢
    rcases ht with (ht | ht) | ht
    · exact .inl (.inl ht)
    · rw [List.flatMap_singleton] at ht
      exact .inr (mem_span ht)
    · exact .inl (.inr ht)
  · cases h
    rcases List.mem_append.mp ht with ht | ht
    · exact .inl (List.mem_append_left _ ht)
    · exact .inr (mem_span ht)

/-! ## The state -/

/-- A commit lane: a blob that waits, a blob that is being written, and whether one could not be. -/
structure Lane where
  pending : Bool := false
  inFlight : Bool := false
  failed : Bool := false
  deriving DecidableEq

/-- An open vault file. -/
structure Ledger where
  size : ℕ
  /-- The header in memory. -/
  header : Header
  /-- The header in the file. -/
  onFile : Header
  root : IndexNode
  /-- What import workers are building, or have built and not attached. -/
  staged : List Media := []
  lane : Option Lane := none
  /-- Every range that was punched. -/
  holes : List Span := []

/-- How far `commit_plain_blob` gets. A header that could not be written may be in the file all the
same. -/
inductive CommitOutcome where
  | blobTorn (written : ℕ)
  | prepareFailed (reached : Bool)
  | activateFailed (reached : Bool)
  | done
  deriving DecidableEq

/-- The sealed index: its length and its nonce. -/
structure SealedIndex where
  length : ℕ
  nonce : Block 24 := .zero 24

inductive Action where
  /-- `stage_image` or `stage_video` begins with a medium without chunks. -/
  | stageBegin (m : Media)
  /-- `append_chunk` for a medium, with the length on disk. -/
  | stageChunk (job : ℕ) (part : Part) (length : UInt64)
  /-- An `append_chunk` that fails leaves some bytes, and the medium is given up. -/
  | stageTorn (job written : ℕ)
  /-- A medium is given up. -/
  | discard (job : ℕ)
  /-- `attach_staged` -/
  | attach (job : ℕ) (galleryPath : Bytes) (label : NodeHeader)
  | removeMedia (nodePaths : List Bytes)
  | removeNodes (nodePaths : List Bytes)
  /-- Any other change of the tree: it refers to nothing new. -/
  | edit (root : IndexNode)
  | commit (blob : SealedIndex) (outcome : CommitOutcome)
  | laneStart
  | laneTake
  | laneWrite (blob : SealedIndex) (outcome : CommitOutcome)
  | laneStop
  | reclaim
  | autoReclaim

/-- The actions that may punch. -/
def Action.reclaims : Action → Bool
  | .reclaim | .autoReclaim => true
  | _ => false

/-- `erase_any_child` -/
def eraseAnyChild {μ : Type} (leaf : Bytes) : Node μ → Node μ
  | .branch label cs => .branch label (cs.eraseP (·.named leaf))
  | .leaf label medium => .leaf label medium

/-- A turn of the loop of `remove_nodes_batch`. -/
def removeNode {μ : Type} (root : Node μ) (path : Bytes) : Node μ :=
  if path.isEmpty then root
  else
    match resolveGallery root (parentOf path) with
    | some p => root.modifyAt (eraseAnyChild (leafOf path)) p
    | none => root

/-- The tree that `remove_nodes_batch` commits. -/
def removeNodesBatch {μ : Type} (root : Node μ) (nodePaths : List Bytes) : Node μ :=
  nodePaths.foldl removeNode root

/-- The bytes a reference is about, as numbers. -/
def ChunkSpan.toSpan (r : ChunkSpan) : Span := (r.offset.toNat, r.length.toNat)

namespace Ledger

/-- `attach_staged` -/
def attachStaged (job : ℕ) (galleryPath : Bytes) (label : NodeHeader) (s : Ledger) : Ledger :=
  match s.staged[job]?, resolveGallery s.root galleryPath with
  | some m, some p =>
    if ((s.root.get? p).bind (childNamed · label.name)).isSome then s
    else
      { s with
        root := s.root.modifyAt (fun g ↦ .branch g.label (g.children ++ [.leaf label m])) p
        staged := s.staged.eraseIdx job }
  | _, _ => s

/-! ## Committing -/

/-- `commit_plain_blob`: append the blob, point the inactive slot at it, and make that the active one.
The header in memory is changed before it is written. -/
def commitPlainBlob (blob : SealedIndex) (outcome : CommitOutcome) (s : Ledger) : Bool × Ledger :=
  if maxFileSize < s.size + blob.length then (false, s)
  else
    let inactive := !s.header.activeSlot
    let prepared := s.header.setSlot inactive
      ⟨s.size, blob.length, blob.nonce, s.header.contextBoundChunks⟩
    let activated := prepared.activate inactive
    let size := s.size + blob.length
    match outcome with
    | .blobTorn written => (false, { s with size := s.size + min written blob.length })
    | .prepareFailed reached =>
      (false, { s with size, header := prepared, onFile := if reached then prepared else s.onFile })
    | .activateFailed reached =>
      (false, { s with size, header := activated, onFile := if reached then activated else prepared })
    | .done => (true, { s with size, header := activated, onFile := activated })

/-- `commit_index`: at once, or by the lane if one is running. -/
def commitIndex (blob : SealedIndex) (outcome : CommitOutcome) (s : Ledger) : Ledger :=
  match s.lane with
  | some lane => if lane.failed then s else { s with lane := some { lane with pending := true } }
  | none => (s.commitPlainBlob blob outcome).2

/-- A turn of `worker_loop`: the blob that was taken. -/
def laneWrite (blob : SealedIndex) (outcome : CommitOutcome) (s : Ledger) : Ledger :=
  match s.lane with
  | some lane =>
    if lane.inFlight then
      let (ok, s) := s.commitPlainBlob blob outcome
      { s with lane := some { lane with inFlight := false, failed := lane.failed || !ok } }
    else s
  | none => s

/-! ## Reclaiming -/

/-- Whether a slot counts as live: it points at bytes of the file behind the header. -/
def slotLive (size : ℕ) (slot : IndexSlot) : Bool :=
  0 < slot.length && headerSize ≤ slot.offset && slot.offset ≤ size && slot.length ≤ size - slot.offset

/-- The live spans, as they are collected. -/
def liveSpans (s : Ledger) : List Span :=
  ([s.header.slotA, s.header.slotB].filter (slotLive s.size)).map (fun slot ↦ (slot.offset, slot.length)) ++
    (IndexNode.spans s.root).map ChunkSpan.toSpan

/-- The scan of `vault_reclaim`: the gaps before the spans, and what is left of the file behind them.
The end of a span is computed in 64 bits. -/
def scan (fsize : ℕ) : ℕ → List Span → List Span
  | cursor, [] => if cursor < fsize then [(cursor, fsize - cursor)] else []
  | cursor, span :: live =>
    (if cursor < span.1 then [(cursor, span.1 - cursor)] else []) ++
      scan fsize (max cursor ((span.1 + span.2) % 2 ^ 64)) live

/-- The ranges that `vault_reclaim` punches. -/
def punched (s : Ledger) : List Span :=
  scan s.size headerSize (s.liveSpans.insertionSort Span.Le)

/-- The lane has nothing to do, so that waiting for it ends, and has not failed. -/
def flushed (s : Ledger) : Bool :=
  match s.lane with
  | some lane => !lane.pending && !lane.inFlight && !lane.failed
  | none => true

/-- `vault_reclaim`. It waits for the lane and does nothing if that has failed. -/
def vaultReclaim (s : Ledger) : Ledger :=
  if s.flushed then { s with holes := s.holes ++ s.punched } else s

/-- `vault_wasted_bytes`, in 64 bits. -/
def wastedBytes (s : Ledger) : ℕ :=
  let live := (headerSize + (s.header.slot s.header.activeSlot).length +
    ((IndexNode.spans s.root).map fun r ↦ r.length.toNat).sum) % 2 ^ 64
  if live < s.size then s.size - live else 0

def autoCompactMinWaste : ℕ := 256 * 1024

def autoCompactWasteRatio : ℕ := 4

/-- `auto_reclaim_space`, which follows the commit of a removal. -/
def autoReclaimSpace (s : Ledger) : Ledger :=
  if s.wastedBytes < autoCompactMinWaste || s.wastedBytes * autoCompactWasteRatio % 2 ^ 64 < s.size then s
  else s.vaultReclaim

/-! ## Runs -/

/-- One action. An action that is not possible changes nothing. -/
def step (s : Ledger) : Action → Ledger
  | .stageBegin m => if m.spans.isEmpty then { s with staged := s.staged ++ [m] } else s
  | .stageChunk job part length =>
    if s.size + length.toNat ≤ maxFileSize then
      match s.staged[job]?.bind (Media.record part ⟨.ofNat s.size, length⟩) with
      | some m => { s with size := s.size + length.toNat, staged := s.staged.set job m }
      | none => s
    else { s with staged := s.staged.eraseIdx job }
  | .stageTorn job written =>
    if s.size + written ≤ maxFileSize then
      { s with size := s.size + written, staged := s.staged.eraseIdx job }
    else { s with staged := s.staged.eraseIdx job }
  | .discard job => { s with staged := s.staged.eraseIdx job }
  | .attach job galleryPath label => s.attachStaged job galleryPath label
  | .removeMedia nodePaths => { s with root := removeMediaBatch s.root nodePaths }
  | .removeNodes nodePaths => { s with root := removeNodesBatch s.root nodePaths }
  | .edit root => if ∀ r ∈ IndexNode.spans root, r ∈ IndexNode.spans s.root then { s with root } else s
  | .commit blob outcome => s.commitIndex blob outcome
  | .laneStart => if s.lane.isNone then { s with lane := some {} } else s
  | .laneTake =>
    match s.lane with
    | some lane =>
      if lane.pending && !lane.inFlight then
        { s with lane := some { lane with pending := false, inFlight := true } }
      else s
    | none => s
  | .laneWrite blob outcome => s.laneWrite blob outcome
  | .laneStop =>
    match s.lane with
    | some lane => if lane.pending || lane.inFlight then s else { s with lane := none }
    | none => s
  | .reclaim => s.vaultReclaim
  | .autoReclaim => s.autoReclaimSpace

/-- A run. -/
def run (s : Ledger) (actions : List Action) : Ledger := actions.foldl step s

end Ledger

/-! ## What an action can do -/

namespace IndexNode

variable {f : IndexNode → IndexNode} {r : ChunkSpan} {Q : ChunkSpan → Prop}

theorem mem_spans_branch {label : NodeHeader} {cs : List IndexNode} :
    r ∈ spans (.branch label cs) ↔ ∃ c ∈ cs, r ∈ spans c := by
  rw [spans, LeafTree.slotsAt_branch, List.mem_flatMap]
  rfl

/-- A change at one position brings into the tree what it brings to the node there. -/
theorem mem_spans_modifyAt (hf : ∀ u, ∀ r ∈ spans (f u), r ∈ spans u ∨ Q r) {t : IndexNode}
    {p : List ℕ} (h : r ∈ spans (t.modifyAt f p)) : r ∈ spans t ∨ Q r := by
  induction p generalizing t with
  | nil =>
    rw [LeafTree.modifyAt_nil] at h
    exact hf t r h
  | cons i p ih =>
    rcases t with ⟨label, cs⟩ | ⟨label, m⟩
    · rw [LeafTree.modifyAt, mem_spans_branch] at h
      obtain ⟨c, hc, hr⟩ := h
      obtain ⟨j, hj⟩ := List.mem_iff_getElem?.mp hc
      rw [List.getElem?_modify] at hj
      obtain ⟨b, hb, rfl⟩ := Option.map_eq_some_iff.mp hj
      have hmem : b ∈ cs := List.mem_of_getElem? hb
      rw [mem_spans_branch]
      split_ifs at hr with hij
      · exact (ih hr).imp_left fun hr ↦ ⟨b, hmem, hr⟩
      · exact .inl ⟨b, hmem, hr⟩
    · exact .inl h

theorem mem_spans_of_eraseChild {q : IndexNode → Bool} {label : NodeHeader} {cs : List IndexNode}
    (h : r ∈ spans (.branch label (cs.eraseP q))) : r ∈ spans (.branch label cs) := by
  obtain ⟨c, hc, hr⟩ := mem_spans_branch.mp h
  exact mem_spans_branch.mpr ⟨c, List.mem_of_mem_eraseP hc, hr⟩

theorem mem_spans_removeMediaBatch {root : IndexNode} {paths : List Bytes}
    (h : r ∈ spans (removeMediaBatch root paths)) : r ∈ spans root := by
  induction paths generalizing root with
  | nil => exact h
  | cons path paths ih =>
    have hnext : r ∈ spans (removeMedium root path) := ih h
    rw [removeMedium] at hnext
    split at hnext
    · refine (@mem_spans_modifyAt _ r (fun _ ↦ False) (fun u r hr ↦ .inl ?_) _ _ hnext).resolve_right id
      rcases u with ⟨label, cs⟩ | ⟨label, m⟩
      · exact mem_spans_of_eraseChild hr
      · exact hr
    · exact hnext

theorem mem_spans_removeNodesBatch {root : IndexNode} {paths : List Bytes}
    (h : r ∈ spans (removeNodesBatch root paths)) : r ∈ spans root := by
  induction paths generalizing root with
  | nil => exact h
  | cons path paths ih =>
    have hnext : r ∈ spans (removeNode root path) := ih h
    rw [removeNode] at hnext
    split_ifs at hnext
    · exact hnext
    split at hnext
    · refine (@mem_spans_modifyAt _ r (fun _ ↦ False) (fun u r hr ↦ .inl ?_) _ _ hnext).resolve_right id
      rcases u with ⟨label, cs⟩ | ⟨label, m⟩
      · exact mem_spans_of_eraseChild hr
      · exact hr
    · exact hnext

end IndexNode

namespace Ledger

variable {s : Ledger} {reclaims : Bool}

/-- What an action can do to the places. A chunk or a blob is always appended, and only an action that
reclaims makes holes. -/
inductive Change (s : Ledger) (reclaims : Bool) : Ledger → Prop
  | edit (root : IndexNode) (lane : Option Lane)
      (h : ∀ r ∈ IndexNode.spans root, r ∈ IndexNode.spans s.root) :
      Change s reclaims { s with root, lane }
  | begin (m : Media) (h : m.spans = []) : Change s reclaims { s with staged := s.staged ++ [m] }
  | chunk (job : ℕ) (m m' : Media) (length : UInt64) (hjob : s.staged[job]? = some m)
      (hfits : s.size + length.toNat ≤ maxFileSize)
      (h : ∀ r ∈ m'.spans, r ∈ m.spans ∨ r = ⟨.ofNat s.size, length⟩) :
      Change s reclaims { s with size := s.size + length.toNat, staged := s.staged.set job m' }
  | drop (job written : ℕ) (hfits : written = 0 ∨ s.size + written ≤ maxFileSize) :
      Change s reclaims { s with size := s.size + written, staged := s.staged.eraseIdx job }
  | attach (job : ℕ) (m : Media) (root : IndexNode) (hjob : s.staged[job]? = some m)
      (h : ∀ r ∈ IndexNode.spans root, r ∈ IndexNode.spans s.root ∨ r ∈ m.spans) :
      Change s reclaims { s with root, staged := s.staged.eraseIdx job }
  | commit (written : ℕ) (header onFile : Header) (lane : Option Lane)
      (hfits : written = 0 ∨ s.size + written ≤ maxFileSize)
      (h : ∀ i, header.slot i = s.header.slot i ∨
        (header.slot i).offset = s.size ∧ (header.slot i).length = written) :
      Change s reclaims { s with size := s.size + written, header, onFile, lane }
  | reclaim (h : reclaims = true) : Change s reclaims { s with holes := s.holes ++ s.punched }

theorem Change.refl (s : Ledger) (reclaims : Bool) : Change s reclaims s :=
  .edit s.root s.lane fun _ h ↦ h

/-- A commit appends, and the slots it changes point at what it appended. -/
theorem change_commitPlainBlob (blob : SealedIndex) (outcome : CommitOutcome) (lane : Option Lane) :
    Change s reclaims { (s.commitPlainBlob blob outcome).2 with lane } := by
  have hslot (i : Bool) (slot : IndexSlot) (hslot : slot.offset = s.size ∧ slot.length = blob.length) :
      (s.header.setSlot (!s.header.activeSlot) slot).slot i = s.header.slot i ∨
        ((s.header.setSlot (!s.header.activeSlot) slot).slot i).offset = s.size ∧
          ((s.header.setSlot (!s.header.activeSlot) slot).slot i).length = blob.length := by
    by_cases hi : i = !s.header.activeSlot
    · rw [hi, Header.slot_setSlot_self]
      exact .inr hslot
    · exact .inl (Header.slot_setSlot_of_ne hi)
  rw [commitPlainBlob]
  split_ifs with hfull
  · exact .edit s.root lane fun _ h ↦ h
  have hfits : s.size + blob.length ≤ maxFileSize := not_lt.mp hfull
  dsimp only
  rcases outcome with written | reached | reached | _
  · refine .commit (min written blob.length) s.header s.onFile lane (.inr ?_) fun i ↦ .inl rfl
    exact (Nat.add_le_add_left (min_le_right _ _) _).trans hfits
  · exact .commit blob.length _ _ lane (.inr hfits) fun i ↦ hslot i _ ⟨rfl, rfl⟩
  · exact .commit blob.length _ _ lane (.inr hfits) fun i ↦ hslot i _ ⟨rfl, rfl⟩
  · exact .commit blob.length _ _ lane (.inr hfits) fun i ↦ hslot i _ ⟨rfl, rfl⟩

theorem change_vaultReclaim (s : Ledger) : Change s true s.vaultReclaim := by
  rw [vaultReclaim]
  split_ifs
  · exact .reclaim rfl
  · exact .refl s true

theorem change_attachStaged (job : ℕ) (galleryPath : Bytes) (label : NodeHeader) (s : Ledger) :
    Change s reclaims (s.attachStaged job galleryPath label) := by
  rw [attachStaged]
  split
  · next m p hjob hpath =>
    split_ifs
    · exact .refl s _
    refine .attach job m _ hjob fun r hr ↦ ?_
    refine IndexNode.mem_spans_modifyAt (fun u r hr ↦ ?_) hr
    obtain ⟨c, hc, hin⟩ := IndexNode.mem_spans_branch.mp hr
    rcases List.mem_append.mp hc with hold | hnew
    · rcases u with ⟨label, cs⟩ | ⟨label, m⟩
      · exact .inl (IndexNode.mem_spans_branch.mpr ⟨c, hold, hin⟩)
      · exact absurd hold List.not_mem_nil
    · obtain rfl := List.mem_singleton.mp hnew
      exact .inr hin
  · exact .refl s _

/-- **What one action can do.** -/
theorem change_step (s : Ledger) (action : Action) : Change s action.reclaims (s.step action) := by
  have hlane (lane : Option Lane) : Change s action.reclaims { s with lane } :=
    .edit s.root lane fun _ h ↦ h
  cases action with
  | stageBegin m =>
    rw [step]
    split_ifs with hnone
    · exact .begin m (List.isEmpty_iff.mp hnone)
    · exact .refl s _
  | stageChunk job part length =>
    rw [step]
    split_ifs with hfits
    · split
      · next m' hm' =>
        obtain ⟨m, hm, hrecord⟩ := Option.bind_eq_some_iff.mp hm'
        exact .chunk job m m' length hm hfits fun r hr ↦ Media.mem_spans_record hrecord hr
      · exact .refl s _
    · exact .drop job 0 (.inl rfl)
  | stageTorn job written =>
    rw [step]
    split_ifs with hfits
    · exact .drop job written (.inr hfits)
    · exact .drop job 0 (.inl rfl)
  | discard job => exact .drop job 0 (.inl rfl)
  | attach job galleryPath label => exact change_attachStaged job galleryPath label s
  | removeMedia nodePaths => exact .edit _ s.lane fun r hr ↦ IndexNode.mem_spans_removeMediaBatch hr
  | removeNodes nodePaths => exact .edit _ s.lane fun r hr ↦ IndexNode.mem_spans_removeNodesBatch hr
  | edit root =>
    rw [step]
    split_ifs with hroot
    · exact .edit root s.lane hroot
    · exact .refl s _
  | commit blob outcome =>
    rw [step, commitIndex]
    split
    · split_ifs
      · exact .refl s _
      · exact hlane _
    · exact change_commitPlainBlob blob outcome (s.commitPlainBlob blob outcome).2.lane
  | laneStart =>
    rw [step]
    split_ifs
    · exact hlane _
    · exact .refl s _
  | laneTake =>
    rw [step]
    split
    · split_ifs
      · exact hlane _
      · exact .refl s _
    · exact .refl s _
  | laneWrite blob outcome =>
    rw [step, laneWrite]
    split
    · split_ifs
      · exact change_commitPlainBlob blob outcome _
      · exact .refl s _
    · exact .refl s _
  | laneStop =>
    rw [step]
    split
    · split_ifs
      · exact .refl s _
      · exact hlane _
    · exact .refl s _
  | reclaim => exact change_vaultReclaim s
  | autoReclaim =>
    rw [step, autoReclaimSpace]
    split_ifs
    · exact .refl s _
    · exact change_vaultReclaim s

end Ledger

end SafeVault
