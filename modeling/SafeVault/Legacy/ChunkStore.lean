import SafeVault.Index.Spans
import SafeVault.Legacy.Commit

/-!
# Chunks of a single-file vault

A chunk is a nonce, the sealed payload and its tag, appended to the file. A chunk that is bound to its
context is sealed with the identity of its record as associated data, and every such chunk gets a
fresh identity; a chunk of an older vault is sealed without associated data.

The file only grows, so what could be read before an append can be read after it.
-/

namespace SafeVault

/-- An identity as a block of bytes. -/
def NodeId.toBlock (id : NodeId) : Block 16 := ⟨id.bytes, id.size⟩

/-- The environment of a commit, with a source of identities. -/
structure ChunkEnv extends Env where
  id : ℕ → NodeId

namespace ChunkStore

open IndexIo

/-- The size of a nonce. -/
def nonceSize : ℕ := 24

/-- The associated data of a chunk. -/
def chunkAd (contextBound : Bool) (tag : ChunkTag) : Bytes :=
  if contextBound then buildChunkAd tag else []

section Store

variable (E : ChunkEnv)

/-- The payload of a chunk; framed in vaults that do so. -/
def payload (h : Header) (plain : Bytes) : Bytes :=
  if h.framedChunks then ChunkCodec.encodeFrame E.deflate plain else plain

/-- `decrypt_chunk`. -/
def decryptChunk (ad disk : Bytes) : Option Bytes :=
  if disk.length < nonceSize + tagSize then none
  else E.aead.openTo (Block.ofSlice 24 (disk.take nonceSize)) ad (disk.drop nonceSize)

/-- `ChunkStore::read_chunk`, when nothing outside stands in the way. -/
def readChunk (h : Header) (d : Disk) (span : ChunkSpan) (contextBound : Bool) (tag : ChunkTag) :
    Option Bytes := do
  let disk ← d.read span.offset.toNat span.length.toNat
  let framed ← decryptChunk E (chunkAd contextBound tag) disk
  if h.framedChunks then ChunkCodec.decodeFrame E.deflate framed else some framed

/-- A read that answers with an error when the chunk does not open, or when the file cannot be
read. -/
def readStep (span : ChunkSpan) (contextBound : Bool) (tag : ChunkTag) :
    Proc Session VaultResult Bytes := do
  let plain ← attempt E.toEnv .authFailed
    (fun s ↦ (readChunk E s.header s.disk span contextBound tag, s)) fun _ s ↦ s
  match plain with
  | some plain => pure plain
  | none => .stop .authFailed

/-- `ChunkStore::append_chunk`: the tag with the identity of the record, and the place. -/
def appendChunk (plain : Bytes) (contextBound : Bool) (tag : ChunkTag) :
    Proc Session VaultResult (ChunkTag × ChunkSpan) := do
  let record ← if contextBound then
      attempt E.toEnv .ioError (fun s ↦ ((E.id s.clock).toBlock, s)) fun _ s ↦ s
    else pure tag.record
  let tag := { tag with record }
  let nonce ← attempt E.toEnv .ioError (fun s ↦ (E.nonce s.clock, s)) fun _ s ↦ s
  let h ← .look (·.header)
  let chunk := nonce.bytes ++ E.aead.sealTo nonce (chunkAd contextBound tag) (payload E h plain)
  let offset ← appendRaw E.toEnv chunk
  pure (tag, ⟨UInt64.ofNat offset, UInt64.ofNat chunk.length⟩)

end Store

/-! ## Growing files -/

/-- Everything that could be read can be read, and the header is the same. -/
structure Extends (s t : Session) : Prop where
  header : t.header = s.header
  read : ∀ offset length bytes, s.disk.read offset length = some bytes →
    t.disk.read offset length = some bytes

variable {E : ChunkEnv} {s t u : Session} {d : Disk} {offset length : ℕ} {bytes plain : Bytes}
  {h : Header} {span : ChunkSpan} {contextBound : Bool} {tag : ChunkTag} {ad : Bytes}
  {nonce : Block 24}

theorem Extends.refl (s : Session) : Extends s s := ⟨rfl, fun _ _ _ h ↦ h⟩

theorem Extends.trans (h : Extends s t) (h' : Extends t u) : Extends s u :=
  ⟨h'.header.trans h.header, fun _ _ _ hread ↦ h'.read _ _ _ (h.read _ _ _ hread)⟩

theorem read_append {more : Bytes} (hread : d.read offset length = some bytes) :
    (d.append more).read offset length = some bytes := by
  obtain ⟨hlen, hholds⟩ := Disk.holds_of_read hread
  have hsize : offset + length ≤ d.size := by
    rw [Disk.read] at hread
    by_contra hout
    rw [if_neg hout] at hread
    exact absurd hread (Option.some_ne_none _).symm
  rw [← hlen] at hsize ⊢
  refine Disk.Holds.read (hholds.of_untouched fun i hi ↦ Disk.untouched_append ?_) ?_
  · omega
  · rw [Disk.size_append]
    omega

theorem extends_of_append {more : Bytes} (hheader : t.header = s.header)
    (hdisk : t.disk = s.disk.append more) : Extends s t :=
  ⟨hheader, fun _ _ _ hread ↦ hdisk ▸ read_append hread⟩

theorem extends_of_eq (hheader : t.header = s.header) (hdisk : t.disk = s.disk) : Extends s t :=
  ⟨hheader, fun _ _ _ hread ↦ hdisk ▸ hread⟩

/-- A chunk that could be read is read the same. -/
theorem Extends.readChunk (hext : Extends s t)
    (hread : readChunk E s.header s.disk span contextBound tag = some plain) :
    ChunkStore.readChunk E t.header t.disk span contextBound tag = some plain := by
  rw [ChunkStore.readChunk, Option.bind_eq_bind, Option.bind_eq_some_iff] at hread ⊢
  obtain ⟨disk, hdisk, hplain⟩ := hread
  rw [hext.header]
  exact ⟨disk, hext.read _ _ _ hdisk, hplain⟩

/-! ## A chunk that was written -/

/-- The cipher does not open a text that was sealed with the identity of its record when it is given
no associated data. -/
def Binds (E : ChunkEnv) : Prop :=
  ∀ nonce tag plain, E.aead.openTo nonce [] (E.aead.sealTo nonce (buildChunkAd tag) plain) = none

theorem decryptChunk_append {ad' : Bytes} :
    decryptChunk E ad' (nonce.bytes ++ E.aead.sealTo nonce ad bytes) =
      E.aead.openTo nonce ad' (E.aead.sealTo nonce ad bytes) := by
  have hlen : ¬(nonce.bytes ++ E.aead.sealTo nonce ad bytes).length < nonceSize + tagSize := by
    rw [List.length_append, nonce.size, E.aead.length_sealTo, nonceSize, tagSize]
    omega
  have hnonce : nonce.bytes.length = nonceSize := nonce.size
  rw [decryptChunk, if_neg hlen, List.take_left' hnonce, List.drop_left' hnonce,
    Block.ofSlice_bytes]

/-- The place of a chunk that was appended. -/
structure Written (E : ChunkEnv) (t : Session) (span : ChunkSpan) (ad plain : Bytes) : Prop where
  nonempty : span.length ≠ 0
  read : ∃ nonce : Block 24, t.disk.read span.offset.toNat span.length.toNat =
    some (nonce.bytes ++ E.aead.sealTo nonce ad (payload E t.header plain))

theorem Written.extends (hw : Written E s span ad plain) (hext : Extends s t) :
    Written E t span ad plain := by
  obtain ⟨nonce, hread⟩ := hw.read
  exact ⟨hw.nonempty, nonce, by rw [hext.header]; exact hext.read _ _ _ hread⟩

theorem written_of_append {chunk : Bytes}
    (hchunk : chunk = nonce.bytes ++ E.aead.sealTo nonce ad (payload E t.header plain))
    (hfit : d.size + chunk.length ≤ maxFileSize) (hdisk : t.disk = d.append chunk) :
    Written E t ⟨UInt64.ofNat d.size, UInt64.ofNat chunk.length⟩ ad plain := by
  rw [maxFileSize] at hfit
  have hlen : chunk.length = 24 + (payload E t.header plain).length + 16 := by
    rw [hchunk, List.length_append, nonce.size, E.aead.length_sealTo, Nat.add_assoc]
  have hoffset : (UInt64.ofNat d.size).toNat = d.size :=
    UInt64.toNat_ofNat_of_lt' (by rw [UInt64.size]; omega)
  have hlength : (UInt64.ofNat chunk.length).toNat = chunk.length :=
    UInt64.toNat_ofNat_of_lt' (by rw [UInt64.size]; omega)
  refine ⟨fun hzero ↦ ?_, nonce, ?_⟩
  · change UInt64.ofNat chunk.length = 0 at hzero
    rw [hzero] at hlength
    have hnil : (0 : UInt64).toNat = 0 := rfl
    omega
  · rw [hoffset, hlength, hdisk, Disk.holds_append.read (Disk.size_append).ge, hchunk]

/-- It reads back under the tag it was written with. -/
theorem Written.readChunk (hw : Written E t span (chunkAd contextBound tag) plain) :
    ChunkStore.readChunk E t.header t.disk span contextBound tag = some plain := by
  obtain ⟨nonce, hread⟩ := hw.read
  rw [ChunkStore.readChunk, hread, Option.bind_eq_bind, Option.bind_some, decryptChunk_append,
    E.aead.openTo_sealTo, Option.bind_some, payload]
  split_ifs
  exacts [ChunkCodec.decodeFrame_encodeFrame _ _, rfl]

/-- It does not read back as a chunk that is not bound to its context. -/
theorem Written.readChunk_unbound {tag' : ChunkTag} (hbinds : Binds E)
    (hw : Written E t span (buildChunkAd tag) plain) :
    ChunkStore.readChunk E t.header t.disk span false tag' = none := by
  obtain ⟨nonce, hread⟩ := hw.read
  rw [ChunkStore.readChunk, hread, Option.bind_eq_bind, Option.bind_some, decryptChunk_append,
    chunkAd, if_neg Bool.false_ne_true, hbinds]
  rfl

/-! ## Rules -/

section Rules

variable {Q : Bytes → Session → Prop} {Er : VaultResult → Session → Prop}

theorem wp_readStep
    (hdone : ∀ t plain, Extends s t → readChunk E s.header s.disk span contextBound tag = some plain →
      Q plain t)
    (hfail : ∀ t, Extends s t → Er .authFailed t) :
    Proc.wp (fun _ ↦ True) (readStep E span contextBound tag) Q Er s := by
  rw [readStep, Proc.wp_bind]
  refine wp_compute (fun t hdisk hheader ↦ ⟨trivial, ?_⟩)
    fun t hdisk hheader ↦ ⟨trivial, hfail t (extends_of_eq hheader hdisk)⟩
  rcases hread : readChunk E s.tick.header s.tick.disk span contextBound tag with _ | plain
  · exact Proc.wp_stop.mpr (hfail t (extends_of_eq hheader hdisk))
  · exact Proc.wp_pure.mpr (hdone t plain (extends_of_eq hheader hdisk) hread)

theorem wp_appendChunk {Q : ChunkTag × ChunkSpan → Session → Prop}
    (hdone : ∀ t record span, Extends s t →
      Written E t span (buildChunkAd { tag with record }) plain → Q ({ tag with record }, span) t)
    (hfail : ∀ t, Extends s t → Er .ioError t) :
    Proc.wp (fun _ ↦ True) (appendChunk E plain true tag) Q Er s := by
  simp only [appendChunk, if_true, Proc.wp_bind]
  refine wp_compute (fun t hdisk hheader ↦ ⟨trivial, ?_⟩)
    fun t hdisk hheader ↦ ⟨trivial, hfail t (extends_of_eq hheader hdisk)⟩
  have hst := extends_of_eq hheader hdisk
  rw [Proc.wp_bind]
  refine wp_compute (fun u hdisk' hheader' ↦ ⟨trivial, ?_⟩)
    fun u hdisk' hheader' ↦ ⟨trivial, hfail u (hst.trans (extends_of_eq hheader' hdisk'))⟩
  have hsu := hst.trans (extends_of_eq hheader' hdisk')
  rw [Proc.wp_bind, Proc.wp_look, Proc.wp_bind]
  refine wp_appendRaw (fun w hfit hheader'' hdisk'' ↦ ⟨trivial, ?_⟩)
    (fun w k _ hheader'' hdisk'' ↦
      ⟨trivial, hfail w (hsu.trans (extends_of_append hheader'' hdisk''))⟩) (hfail u hsu)
  rw [Proc.wp_pure]
  have hpayload : payload E u.header plain = payload E w.header plain := by rw [hheader'']
  rw [hpayload] at hfit hdisk'' ⊢
  exact hdone w _ _ (hsu.trans (extends_of_append hheader'' hdisk''))
    (written_of_append rfl hfit hdisk'')

end Rules

end ChunkStore

end SafeVault
