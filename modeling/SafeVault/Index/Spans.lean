import SafeVault.Index.Node

/-!
# The spans of a tree

The places in the vault file that the media of a tree refer to, in the order in which the tree is
walked. A reference of length `0` is absent.
-/

namespace SafeVault

/-! ## References -/

/-- A reference to bytes in the file. -/
structure ChunkSpan where
  offset : UInt64
  length : UInt64
  deriving DecidableEq

/-- The reference as a list; it is empty when there is nothing to refer to. -/
def span (offset length : UInt64) : List ChunkSpan := if length = 0 then [] else [⟨offset, length⟩]

theorem length_ne_zero_of_mem_span {offset length : UInt64} {r : ChunkSpan}
    (h : r ∈ span offset length) : r.length ≠ 0 := by
  rw [span] at h
  split_ifs at h with hlen
  · exact absurd h List.not_mem_nil
  · rw [List.mem_singleton.mp h]
    exact hlen

/-! ## Media -/

namespace VideoChunk

def spans (c : VideoChunk) : List ChunkSpan := span c.offset c.length

end VideoChunk

namespace Media

/-- The references of a medium, in the order of `collect_units`. -/
def spans : Media → List ChunkSpan
  | image m => span m.dataOffset m.dataLength ++ span m.thumbOffset m.thumbLength
  | video m => m.chunks.flatMap VideoChunk.spans ++ span m.posterOffset m.posterLength

theorem length_ne_zero {m : Media} {r : ChunkSpan} (h : r ∈ m.spans) : r.length ≠ 0 := by
  cases m with
  | image m => exact (List.mem_append.mp h).elim length_ne_zero_of_mem_span length_ne_zero_of_mem_span
  | video m =>
    rcases List.mem_append.mp h with h | h
    · obtain ⟨c, -, hc⟩ := List.mem_flatMap.mp h
      exact length_ne_zero_of_mem_span hc
    · exact length_ne_zero_of_mem_span h

end Media

/-! ## Trees -/

namespace IndexNode

/-- The references of all media, in the order of the walk. -/
def spans (t : IndexNode) : List ChunkSpan := t.slotsAt Media.spans

theorem length_ne_zero {t : IndexNode} {r : ChunkSpan} (h : r ∈ spans t) : r.length ≠ 0 := by
  rw [spans] at h
  induction t using LeafTree.ind with
  | leaf n m => exact Media.length_ne_zero h
  | branch n cs ih =>
    rw [LeafTree.slotsAt_branch] at h
    obtain ⟨c, hc, hr⟩ := List.mem_flatMap.mp h
    exact ih c hc hr

theorem spans_mapLabel (f : NodeHeader → NodeHeader) (t : IndexNode) :
    spans (t.mapLabel f) = spans t := by
  induction t using LeafTree.ind with
  | leaf n m => rfl
  | branch n cs ih =>
    rw [LeafTree.mapLabel_branch, spans, LeafTree.slotsAt_branch, List.flatMap_map, spans,
      LeafTree.slotsAt_branch]
    exact List.flatMap_congr ih

end IndexNode

end SafeVault
