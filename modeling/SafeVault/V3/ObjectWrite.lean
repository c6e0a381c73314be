import SafeVault.Lib.Segments
import SafeVault.V3.ObjectStore

/-!
# What a write leaves

The fixed parts of a written file pass the checks of the reader, because their fields are read back
and the rest of them is zero. The loop over the frames keeps the invariant that the frames so far lie
one after another where their entries say, each with the bytes the caller handed out for it.
-/

namespace SafeVault

namespace V3

open Header (getAt byteAt getAt_fill byteAt_fill)

theorem demand_bind_eq_ok_iff {α β : Type} {a : Option α} {status : ObjectStatus}
    {f : α → Except ObjectStatus β} {b : β} :
    demand a status >>= f = .ok b ↔ ∃ x, a = some x ∧ f x = .ok b := by
  rcases a with _ | x
  · exact ⟨nofun, nofun⟩
  · exact ⟨fun h ↦ ⟨x, rfl, h⟩, fun ⟨_, hx, h⟩ ↦ Option.some.inj hx ▸ h⟩

/-! ## The fixed parts -/

/-- What is recorded fits the fields it is written to. -/
structure ObjectInfo.Bounded (info : ObjectInfo) : Prop where
  plaintextLength : info.plaintextLength < 2 ^ 64
  framePlainLimit : info.framePlainLimit < 2 ^ 32
  frameCount : info.frameCount < 2 ^ 32

section Parts

variable {info : ObjectInfo}

theorem fits_preambleFields (info : ObjectInfo) :
    Layout.Fits (preambleFields info) objectPreambleSize where
  fit := by simp [preambleFields, objectMagic, objectPreambleSize, info.vaultId.size,
    info.objectId.size, nodeIdSize]
  sorted := by
    rw [← List.isChain_iff_pairwise]
    simp [preambleFields, objectMagic, Layout.Before, info.vaultId.size, info.objectId.size,
      nodeIdSize]

theorem fits_headerFields (info : ObjectInfo) : Layout.Fits (headerFields info) 64 where
  fit := by simp [headerFields, info.ownerNodeId.size, nodeIdSize]
  sorted := by
    rw [← List.isChain_iff_pairwise]
    simp [headerFields, Layout.Before, info.ownerNodeId.size, nodeIdSize]

theorem fits_footerFields (info : ObjectInfo) (tableOffset tableLength total : ℕ)
    (digest : Block 32) : Layout.Fits (footerFields info tableOffset tableLength total digest) 64 where
  fit := by simp [footerFields, digest.size]
  sorted := by
    rw [← List.isChain_iff_pairwise]
    simp [footerFields, Layout.Before]

theorem fits_entryFields (e : Entry) : Layout.Fits e.fields entrySize where
  fit := by simp [Entry.fields, entrySize]
  sorted := by
    rw [← List.isChain_iff_pairwise]
    simp [Entry.fields, Layout.Before]

theorem length_buildPreamble (info : ObjectInfo) :
    (buildPreamble info).length = objectPreambleSize :=
  (fits_preambleFields info).length_fill

theorem length_buildHeader : (buildHeader info).length = 64 := (fits_headerFields info).length_fill

theorem length_buildFooter {tableOffset tableLength total : ℕ} {digest : Block 32} :
    (buildFooter info tableOffset tableLength total digest).length = 64 :=
  (fits_footerFields info _ _ _ _).length_fill

theorem length_row (e : Entry) : e.row.length = entrySize := (fits_entryFields e).length_fill

/-- **The preamble is accepted.** -/
theorem acceptsPreamble_buildPreamble (hinfo : info.Bounded) :
    acceptsPreamble info (buildPreamble info) = true := by
  have h := fits_preambleFields info
  have hvault := h.slice_fill (f := (16, info.vaultId.bytes)) (by simp [preambleFields])
  have hobject := h.slice_fill (f := (32, info.objectId.bytes)) (by simp [preambleFields])
  rw [info.vaultId.size] at hvault
  rw [info.objectId.size] at hobject
  have hpad : getAt (buildPreamble info) 12 4 = 0 := by
    rw [getAt, buildPreamble, h.slice_gap (by decide)]
    · rfl
    · simp [preambleFields, objectMagic]
  have hrest : Layout.slice 52 12 (buildPreamble info) = List.replicate 12 0 :=
    h.slice_gap (by decide) (by simp [preambleFields, objectMagic, info.vaultId.size,
      info.objectId.size, nodeIdSize])
  have hmagic : Layout.slice 0 8 (buildPreamble info) = objectMagic :=
    h.slice_fill (f := (0, objectMagic)) (by simp [preambleFields])
  have hversion : getAt (buildPreamble info) 8 2 = objectFormatVersion :=
    getAt_fill h (by simp [preambleFields]) (by decide)
  have hsize : getAt (buildPreamble info) 10 2 = 64 :=
    getAt_fill h (by simp [preambleFields, objectPreambleSize]) (by decide)
  have hlimit : getAt (buildPreamble info) 48 4 = info.framePlainLimit :=
    getAt_fill h (by simp [preambleFields]) hinfo.framePlainLimit
  simp only [acceptsPreamble, hmagic, hversion, hsize, hpad, hlimit, hrest, Bool.and_eq_true,
    beq_iff_eq, true_and, and_true]
  exact ⟨⟨hvault, hobject⟩, by decide⟩

/-- **The header is accepted.** -/
theorem acceptsHeader_buildHeader (hinfo : info.Bounded) :
    acceptsHeader info (buildHeader info) = true := by
  have h := fits_headerFields info
  have howner := h.slice_fill (f := (4, info.ownerNodeId.bytes)) (by simp [headerFields])
  rw [info.ownerNodeId.size] at howner
  have hkind : byteAt (buildHeader info) 0 = 0 := byteAt_fill h (by simp [headerFields])
  have hrole : byteAt (buildHeader info) 1 = info.role.toByte :=
    byteAt_fill h (by simp [headerFields])
  have hformat : byteAt (buildHeader info) 2 = info.mediaFormat :=
    byteAt_fill h (by simp [headerFields])
  have hpad : byteAt (buildHeader info) 3 = 0 := by
    rw [byteAt, buildHeader, h.slice_gap (by decide)]
    · rfl
    · simp [headerFields]
  have hlength : getAt (buildHeader info) 20 8 = info.plaintextLength :=
    getAt_fill h (by simp [headerFields]) hinfo.plaintextLength
  have hlimit : getAt (buildHeader info) 28 4 = info.framePlainLimit :=
    getAt_fill h (by simp [headerFields]) hinfo.framePlainLimit
  have hcount : getAt (buildHeader info) 32 4 = info.frameCount :=
    getAt_fill h (by simp [headerFields]) hinfo.frameCount
  have hrest : Layout.slice 36 28 (buildHeader info) = List.replicate 28 0 :=
    h.slice_gap (by decide) (by simp [headerFields, info.ownerNodeId.size, nodeIdSize])
  simp only [acceptsHeader, hkind, hrole, hformat, hpad, hlength, hlimit, hcount, hrest,
    Bool.and_eq_true, beq_iff_eq, true_and, and_true]
  exact ⟨howner, by decide⟩

section Footer

variable {tableOffset tableLength total : ℕ} {digest : Block 32}

theorem getAt_buildFooter (htotal : total < 2 ^ 64) (hoffset : tableOffset ≤ total)
    (hlength : tableLength ≤ total) :
    getAt (buildFooter info tableOffset tableLength total digest) 8 8 = tableOffset ∧
    getAt (buildFooter info tableOffset tableLength total digest) 16 8 = tableLength := by
  have h := fits_footerFields info tableOffset tableLength total digest
  exact ⟨getAt_fill h (by simp [footerFields]) (by omega),
    getAt_fill h (by simp [footerFields]) (by omega)⟩

theorem slice_buildFooter :
    Layout.slice 32 32 (buildFooter info tableOffset tableLength total digest) = digest.bytes := by
  have hdigest := (fits_footerFields info tableOffset tableLength total digest).slice_fill
    (f := (32, digest.bytes)) (by simp [footerFields])
  rwa [digest.size] at hdigest

/-- **The footer is accepted** when it tells where the table is. -/
theorem acceptsFooter_buildFooter (hinfo : info.Bounded) (htotal : total < 2 ^ 64)
    (hstart : 64 + headerRecordSize ≤ tableOffset)
    (hlength : tableLength = recordOverhead + 8 + info.frameCount * entrySize)
    (hend : tableOffset + tableLength + footerRecordSize = total) :
    acceptsFooter info total (buildFooter info tableOffset tableLength total digest) = true := by
  have h := fits_footerFields info tableOffset tableLength total digest
  obtain ⟨hat, hlen⟩ :
      getAt (buildFooter info tableOffset tableLength total digest) 8 8 = tableOffset ∧
      getAt (buildFooter info tableOffset tableLength total digest) 16 8 = tableLength :=
    getAt_buildFooter htotal (by omega) (by omega)
  have hkind : byteAt (buildFooter info tableOffset tableLength total digest) 0 = 2 :=
    byteAt_fill h (by simp [footerFields])
  have hrole : byteAt (buildFooter info tableOffset tableLength total digest) 1 =
      info.role.toByte := byteAt_fill h (by simp [footerFields])
  have hversion : getAt (buildFooter info tableOffset tableLength total digest) 2 2 = 1 :=
    getAt_fill h (by simp [footerFields]) (by decide)
  have hcount : getAt (buildFooter info tableOffset tableLength total digest) 4 4 =
      info.frameCount := getAt_fill h (by simp [footerFields]) hinfo.frameCount
  have hsize : getAt (buildFooter info tableOffset tableLength total digest) 24 8 = total :=
    getAt_fill h (by simp [footerFields]) htotal
  simp only [acceptsFooter, hkind, hrole, hversion, hcount, hsize, hat, hlen, Bool.and_eq_true,
    beq_iff_eq, decide_eq_true_eq, true_and]
  exact ⟨⟨⟨hstart, hlength⟩, by omega⟩, by omega⟩

end Footer

/-! ## The table -/

variable {frameCount : ℕ} {entries : List Entry}

theorem length_buildTable : (buildTable frameCount entries).length =
    8 + entries.length * entrySize := by
  have hrows : ∀ entries : List Entry,
      (entries.map Entry.row).flatten.length = entries.length * entrySize := by
    intro entries
    induction entries with
    | nil => simp
    | cons e entries ih =>
      rw [List.map_cons, List.flatten_cons, List.length_append, ih, length_row, List.length_cons]
      ring
  simp only [buildTable, List.length_append, LittleEndian.length_encode, hrows]

theorem acceptsTable_buildTable (hinfo : info.Bounded) (hcount : entries.length = info.frameCount) :
    acceptsTable info (buildTable info.frameCount entries) = true := by
  have hdecode (width v : ℕ) (hv : v < 256 ^ width) :
      LittleEndian.decode (LittleEndian.encode width v) = v := by
    rw [LittleEndian.decode_encode, Nat.mod_eq_of_lt hv]
  have hhead : ∀ (a b c rest : Bytes), a.length = 2 → b.length = 2 → c.length = 4 →
      Layout.slice 0 2 (a ++ b ++ c ++ rest) = a ∧ Layout.slice 2 2 (a ++ b ++ c ++ rest) = b ∧
        Layout.slice 4 4 (a ++ b ++ c ++ rest) = c := by
    intro a b c rest ha hb hc
    simp [Layout.slice, List.take_append, List.drop_append, ha, hb, hc]
  obtain ⟨hfirst, hsecond, hthird⟩ := hhead (LittleEndian.encode 2 1)
    (LittleEndian.encode 2 entrySize) (LittleEndian.encode 4 info.frameCount)
    (entries.map Entry.row).flatten (by simp) (by simp) (by simp)
  simp only [acceptsTable, length_buildTable, hcount, Bool.and_eq_true, beq_iff_eq, true_and]
  refine ⟨⟨?_, ?_⟩, ?_⟩
  · rw [getAt, buildTable, hfirst, hdecode _ _ (by decide)]
  · rw [getAt, buildTable, hsecond, hdecode _ _ (by decide)]
  · rw [getAt, buildTable, hthird, hdecode _ _ hinfo.frameCount]

/-- The rows of the table, one by one. -/
theorem rows_buildTable : (List.range entries.length).map (fun i ↦
      Layout.slice (8 + i * entrySize) entrySize (buildTable frameCount entries)) =
    entries.map Entry.row := by
  have hrows : ∀ r ∈ entries.map Entry.row, r.length = entrySize := by
    intro r hr
    obtain ⟨e, -, rfl⟩ := List.mem_map.mp hr
    exact length_row e
  have hhead : (LittleEndian.encode 2 1 ++ LittleEndian.encode 2 entrySize ++
      LittleEndian.encode 4 frameCount).length = 8 := by simp
  have hmap := Layout.map_slice_flatten hrows (LittleEndian.encode 2 1 ++
    LittleEndian.encode 2 entrySize ++ LittleEndian.encode 4 frameCount)
  rwa [List.length_map, hhead] at hmap

/-- An entry fits its row. -/
structure Entry.Bounded (e : Entry) : Prop where
  offset : e.offset < 2 ^ 64
  length : e.length < 2 ^ 64
  plainLength : e.plainLength < 2 ^ 32

theorem ofRow_row {e : Entry} (he : e.Bounded) : Entry.ofRow e.row = e := by
  have h := fits_entryFields e
  have hoffset : getAt e.row 0 8 = e.offset := getAt_fill h (by simp [Entry.fields]) he.offset
  have hlength : getAt e.row 8 8 = e.length := getAt_fill h (by simp [Entry.fields]) he.length
  have hplain : getAt e.row 16 4 = e.plainLength :=
    getAt_fill h (by simp [Entry.fields]) he.plainLength
  have hcompression : byteAt e.row 20 = e.compression := byteAt_fill h (by simp [Entry.fields])
  rw [Entry.ofRow, hoffset, hlength, hplain, hcompression]

theorem slice_row (e : Entry) : Layout.slice 21 3 e.row = List.replicate 3 0 :=
  (fits_entryFields e).slice_gap (by decide) (by simp [Entry.fields])

end Parts

/-! ## Records -/

section Records

variable {C : ObjectCrypto} {key : Block 32} {info : ObjectInfo} {file : ObjectFile}
  {index offset length : ℕ} {nonce : Block 24} {plain record : Bytes}

theorem length_encryptRecord :
    (encryptRecord C key info nonce index plain).length = plain.length + recordOverhead := by
  rw [encryptRecord, List.length_append, nonce.size, Aead.length_sealTo, recordOverhead, tagSize]
  omega

theorem readAt_of_slice (hslice : Layout.slice offset length file.bytes = record)
    (hin : offset + length ≤ file.bytes.length) : file.readAt offset length = some record := by
  have hlt := file.length_lt
  rw [ObjectFile.readAt, if_pos ⟨by omega, .inr hin⟩, hslice]

/-- **A record is read back** from where it stands. -/
theorem decryptRecord_of_slice
    (hslice : Layout.slice offset length file.bytes = encryptRecord C key info nonce index plain)
    (hlength : length = plain.length + recordOverhead)
    (hin : offset + length ≤ file.bytes.length) :
    decryptRecord C key info file index offset length = .ok plain := by
  have hnonce : Block.ofSlice 24 ((encryptRecord C key info nonce index plain).take 24) = nonce := by
    rw [encryptRecord, List.take_left' nonce.size, Block.ofSlice_bytes]
  have hsealed : (encryptRecord C key info nonce index plain).drop 24 =
      (C.aead key).sealTo nonce (frameAd info index) plain := by
    rw [encryptRecord, List.drop_left' nonce.size]
  rw [decryptRecord, require_bind_eq_ok_iff]
  refine ⟨decide_eq_true (by omega), ?_⟩
  rw [demand_bind_eq_ok_iff]
  refine ⟨_, readAt_of_slice hslice hin, ?_⟩
  rw [hnonce, hsealed, Aead.openTo_sealTo]
  rfl

theorem writeRecord_eq_ok_iff {env : WriteEnv} : writeRecord C env key info index plain = .ok record ↔
    ∃ nonce, env.nonce index = some nonce ∧ encryptRecord C key info nonce index plain = record := by
  rw [writeRecord]
  rcases env.nonce index with _ | nonce
  · exact ⟨nofun, nofun⟩
  · exact ⟨fun h ↦ ⟨nonce, rfl, Except.ok.inj h⟩,
      fun ⟨_, hn, h⟩ ↦ congrArg Except.ok (Option.some.inj hn ▸ h)⟩

end Records

/-! ## The frames -/

section Frames

variable (D : Deflate) (C : ObjectCrypto) (env : WriteEnv) (key : Block 32) (info : ObjectInfo)

/-- The frame with an index is where its entry says, and holds a plaintext. -/
structure Holds (file : Bytes) (index : ℕ) (e : Entry) (plain : Bytes) : Prop where
  record : ∃ nonce, Layout.slice e.offset e.length file =
    encryptRecord C key info nonce index (ChunkCodec.encodeFrame D plain)
  length : e.length = (ChunkCodec.encodeFrame D plain).length + recordOverhead
  within : e.offset + e.length ≤ file.length
  plainLength : e.plainLength = plain.length
  compression : (ChunkCodec.encodeFrame D plain).head? = some e.compression

/-- The staging file after some frames, whose plaintexts are given. -/
structure Filled (front : Bytes) (plains : List Bytes) (staged : Staged) : Prop where
  starts : front <+: staged.file
  offset : staged.fileOffset = staged.file.length
  contiguous : Segments.Contiguous front.length (staged.entries.map Entry.span) staged.file.length
  entries : staged.entries.length = plains.length
  read : ∀ i plain, plains[i]? = some plain → readPlain env info i = some plain
  holds : ∀ i e plain, staged.entries[i]? = some e → plains[i]? = some plain →
    Holds D C key info staged.file i e plain

variable {D C env key info}

/-- Before the first frame. -/
theorem filled_nil {front : Bytes} {offset : ℕ} (h : offset = front.length) :
    Filled D C env key info front [] ⟨front, offset, []⟩ where
  starts := List.prefix_rfl
  offset := h
  contiguous := rfl
  entries := rfl
  read := fun _ _ h ↦ nomatch h
  holds := fun _ _ _ h ↦ nomatch h

theorem length_of_readPlain {frame : ℕ} {plain : Bytes}
    (h : readPlain env info frame = some plain) : plain.length = frameLength info frame := by
  obtain ⟨block, -, rfl⟩ := Option.map_eq_some_iff.mp h
  exact block.size

/-- Writing on does not disturb a frame. -/
theorem Holds.append {file : Bytes} {index : ℕ} {e : Entry} {plain : Bytes}
    (h : Holds D C key info file index e plain) (more : Bytes) :
    Holds D C key info (file ++ more) index e plain where
  record := by
    rw [Layout.slice_append_left h.within]
    exact h.record
  length := h.length
  within := by
    have := h.within
    rw [List.length_append]
    omega
  plainLength := h.plainLength
  compression := h.compression

/-- An element of a list with one more at the end. -/
theorem getElem?_concat_cases {α : Type} {as : List α} {a b : α} {i : ℕ}
    (h : (as ++ [a])[i]? = some b) : as[i]? = some b ∨ (i = as.length ∧ b = a) := by
  rw [List.getElem?_append] at h
  split_ifs at h with hi
  · exact .inl h
  · obtain ⟨hlt, hget⟩ := List.getElem?_eq_some_iff.mp h
    rw [List.length_singleton] at hlt
    exact .inr ⟨by omega, by simpa using hget.symm⟩

/-- **One frame.** -/
theorem filled_writeFrame {front : Bytes} {plains : List Bytes} {staged staged' : Staged}
    (h : Filled D C env key info front plains staged)
    (hw : writeFrame D C env key info staged plains.length = .ok staged') :
    ∃ plain, Filled D C env key info front (plains ++ [plain]) staged' := by
  rw [writeFrame, demand_bind_eq_ok_iff] at hw
  obtain ⟨plain, hread, hw⟩ := hw
  rw [bind_eq_ok_iff] at hw
  obtain ⟨record, hrecord, hw⟩ := hw
  obtain ⟨nonce, -, rfl⟩ := writeRecord_eq_ok_iff.mp hrecord
  obtain ⟨method, rest, hframe, -, -⟩ := ChunkCodec.encodeFrame_eq_cons D plain
  cases hw
  have hnew : Holds D C key info (staged.file ++
      encryptRecord C key info nonce plains.length (ChunkCodec.encodeFrame D plain)) plains.length
      ⟨staged.fileOffset, (encryptRecord C key info nonce plains.length
        (ChunkCodec.encodeFrame D plain)).length, frameLength info plains.length,
        (ChunkCodec.encodeFrame D plain).headD 0⟩ plain := by
    refine ⟨⟨nonce, ?_⟩, length_encryptRecord, ?_, (length_of_readPlain hread).symm, ?_⟩
    · rw [h.offset, Layout.slice_append_right le_rfl, Nat.sub_self, Layout.slice_zero_length]
    · rw [h.offset, List.length_append]
    · rw [hframe, List.head?_cons, List.headD_cons]
  refine ⟨plain, h.starts.trans (List.prefix_append _ _), ?_, ?_, ?_, fun i q hq ↦ ?_,
    fun i e q he hq ↦ ?_⟩
  · rw [List.length_append, h.offset]
  · rw [List.map_append, List.map_singleton, List.length_append]
    exact h.contiguous.concat h.offset
  · rw [List.length_append, List.length_append, h.entries, List.length_singleton,
      List.length_singleton]
  · rcases getElem?_concat_cases hq with hq | ⟨rfl, rfl⟩
    exacts [h.read i q hq, hread]
  · rcases getElem?_concat_cases he with he | ⟨rfl, rfl⟩
    · have hi := (List.getElem?_eq_some_iff.mp he).1
      rw [h.entries] at hi
      rw [List.getElem?_append_left hi] at hq
      exact (h.holds i e q he hq).append _
    · rw [h.entries, List.getElem?_concat_length, Option.some_inj] at hq
      rw [h.entries]
      exact hq ▸ hnew

/-- **All frames.** -/
theorem filled_foldlM {front : Bytes} {start : Staged} (h : Filled D C env key info front [] start)
    (count : ℕ) {staged : Staged}
    (hw : (List.range count).foldlM (writeFrame D C env key info) start = .ok staged) :
    ∃ plains, plains.length = count ∧ Filled D C env key info front plains staged := by
  induction count generalizing staged with
  | zero =>
    cases hw
    exact ⟨[], rfl, h⟩
  | succ count ih =>
    rw [List.range_succ, List.foldlM_append, bind_eq_ok_iff] at hw
    obtain ⟨middle, hmiddle, hw⟩ := hw
    obtain ⟨plains, rfl, hfilled⟩ := ih hmiddle
    rw [List.foldlM_cons, bind_eq_ok_iff] at hw
    obtain ⟨last, hlast, hw⟩ := hw
    cases hw
    obtain ⟨plain, hplain⟩ := filled_writeFrame hfilled hlast
    exact ⟨plains ++ [plain], by simp, hplain⟩

/-! ## How much the frames hold -/

/-- The frames cover the plaintext up to the end of the last of them. -/
theorem sum_frameLength (count : ℕ) : ((List.range count).map (frameLength info)).sum =
    min info.plaintextLength (count * info.framePlainLimit) := by
  induction count with
  | zero => simp
  | succ count ih =>
    rw [List.range_succ, List.map_append, List.sum_append, ih, List.map_singleton,
      List.sum_singleton, frameLength, Nat.succ_mul]
    omega

/-- As many frames as are counted are enough. -/
theorem objectFrameCount_eq_some {plaintextLength limit count : ℕ}
    (h : objectFrameCount plaintextLength limit = some count) :
    0 < limit ∧ limit ≤ objectMaxFramePlain ∧ count ≤ objectMaxFrames ∧
      plaintextLength ≤ count * limit := by
  rw [objectFrameCount] at h
  dsimp only at h
  split_ifs at h with hlimit hzero hmany hmany
  · cases h
    exact ⟨by omega, by omega, by omega, by omega⟩
  · cases h
    refine ⟨by omega, by omega, by omega, ?_⟩
    have hdiv := Nat.div_add_mod (plaintextLength - 1) limit
    have hmod := Nat.mod_lt (plaintextLength - 1) (show 0 < limit by omega)
    rw [Nat.add_mul, Nat.one_mul, Nat.mul_comm]
    omega

theorem Filled.length_flatten {front : Bytes} {plains : List Bytes} {staged : Staged}
    (h : Filled D C env key info front plains staged) :
    plains.flatten.length = min info.plaintextLength (plains.length * info.framePlainLimit) := by
  have hmap : plains.map List.length = (List.range plains.length).map (frameLength info) := by
    refine List.ext_getElem? fun i ↦ ?_
    rw [List.getElem?_map, List.getElem?_map]
    by_cases hi : i < plains.length
    · have hplain := List.getElem?_eq_getElem hi
      rw [hplain, List.getElem?_range hi, Option.map_some, Option.map_some,
        length_of_readPlain (h.read i _ hplain)]
    · rw [List.getElem?_eq_none (by omega), List.getElem?_eq_none (by simpa using hi)]
      rfl
  rw [List.length_flatten, hmap, sum_frameLength]

end Frames

end V3

end SafeVault
