import SafeVault.Legacy.CommitSafety
import SafeVault.V3.ObjectRead

/-!
# Reading back what was written

A written file has every part where the reader looks for it, so it opens, and its frames hold what
the caller handed out. Any range within the plaintext is read back; one that reaches beyond it is
refused. Whatever file is accepted, its directory covers it from the header to the table.
-/

namespace SafeVault

namespace V3

open Header (getAt)

section RoundTrip

variable {D : Deflate} {C : ObjectCrypto} {env : WriteEnv} {masterKey key : Block 32}
  {info : ObjectInfo} {request : ObjectWriteRequest} {plaintextLength : ℕ} {bytes : Bytes}

/-- A frame that was written has a sane entry. -/
theorem Holds.sane {file : Bytes} {index : ℕ} {e : Entry} {plain : Bytes}
    (h : Holds D C key info file index e plain) (hplain : plain.length ≤ info.framePlainLimit) :
    e.Sane info.framePlainLimit := by
  obtain ⟨method, rest, hframe, hmethod, hrest⟩ := ChunkCodec.encodeFrame_eq_cons D plain
  have hlength := h.length
  have hcompression := h.compression
  rw [hframe] at hlength hcompression
  rw [List.length_cons] at hlength
  rw [List.head?_cons, Option.some_inj] at hcompression
  refine ⟨by omega, by omega, by rw [h.plainLength]; exact hplain, ?_⟩
  rw [← hcompression]
  exact UInt8.not_lt.mpr hmethod

/-- The length of the file is recorded when the frames have been written; no record depends on it. -/
theorem Holds.recorded {file : Bytes} {index encryptedLength : ℕ} {e : Entry} {plain : Bytes}
    (h : Holds D C key info file index e plain) :
    Holds D C key { info with encryptedLength } file index e plain :=
  ⟨h.record, h.length, h.within, h.plainLength, h.compression⟩

/-- **A frame is read back.** -/
theorem Holds.readFrame {reader : ObjectReader} {index : ℕ} {e : Entry} {plain : Bytes}
    (h : Holds D C reader.key reader.info reader.file.bytes index e plain)
    (he : reader.entries[index]? = some e) : readFrame D C reader index = .ok plain := by
  obtain ⟨nonce, hslice⟩ := h.record
  rw [V3.readFrame, demand_bind_eq_ok_iff]
  refine ⟨e, he, ?_⟩
  rw [bind_eq_ok_iff]
  refine ⟨_, decryptRecord_of_slice hslice h.length h.within, ?_⟩
  rw [require_bind_eq_ok_iff, h.compression, demand_bind_eq_ok_iff]
  refine ⟨beq_self_eq_true _, plain, ChunkCodec.decodeFrame_encodeFrame D plain, ?_⟩
  rw [require_bind_eq_ok_iff, h.plainLength]
  exact ⟨beq_self_eq_true _, rfl⟩

/-- What `writeFile` leaves: the frames, and the parts around them. -/
theorem writeFile_eq_ok {encryptedLength : ℕ}
    (h : writeFile D C env key info = .ok (bytes, encryptedLength)) :
    ∃ headerNonce tableNonce footerNonce plains staged,
      plains.length = info.frameCount ∧
      Filled D C env key info (buildPreamble info ++
        encryptRecord C key info headerNonce headerIndex (buildHeader info)) plains staged ∧
      let table := buildTable info.frameCount staged.entries
      let tableRecord := encryptRecord C key info tableNonce tableIndex table
      let footerRecord := encryptRecord C key info footerNonce footerIndex
        (buildFooter info staged.file.length tableRecord.length
          (staged.file.length + tableRecord.length + footerRecordSize)
          (tableDigest C key (buildHeader info) table))
      bytes = staged.file ++ tableRecord ++ footerRecord ∧ encryptedLength = bytes.length := by
  rw [writeFile, require_bind_eq_ok_iff] at h
  simp only [bind_eq_ok_iff, writeRecord_eq_ok_iff] at h
  obtain ⟨-, headerRecord, ⟨headerNonce, -, rfl⟩, staged, hloop, tableRecord, ⟨tableNonce, -, rfl⟩,
    footerRecord, ⟨footerNonce, -, rfl⟩, hbytes⟩ := h
  have hlength : (buildPreamble info ++ encryptRecord C key info headerNonce headerIndex
      (buildHeader info)).length = objectPreambleSize + headerRecordSize := by
    rw [List.length_append, length_buildPreamble, length_encryptRecord, length_buildHeader,
      headerRecordSize]
  obtain ⟨plains, hcount, hfilled⟩ := filled_foldlM (filled_nil hlength.symm) info.frameCount hloop
  rw [hfilled.offset] at hbytes
  cases hbytes
  refine ⟨headerNonce, tableNonce, footerNonce, plains, staged, hcount, hfilled, rfl, ?_⟩
  simp only [List.length_append]

/-- The frames that were filled make a directory the reader accepts. -/
theorem readDirectory_of_filled {front : Bytes} {plains : List Bytes} {staged : Staged}
    (h : Filled D C env key info front plains staged) (hinfo : info.Bounded)
    (hfront : front.length = 64 + headerRecordSize) (hcount : plains.length = info.frameCount)
    (hcover : info.plaintextLength ≤ info.frameCount * info.framePlainLimit)
    (hfile : staged.file.length < 2 ^ 64) :
    (readDirectory info staged.file.length (buildTable info.frameCount staged.entries) =
      .ok staged.entries) ∧ plains.flatten.length = info.plaintextLength ∧
      staged.entries.map (·.plainLength) = plains.map List.length := by
  have hlengths : staged.entries.map (·.plainLength) = plains.map List.length := by
    refine List.ext_getElem? fun i ↦ ?_
    rw [List.getElem?_map, List.getElem?_map]
    by_cases hi : i < plains.length
    · have he := List.getElem?_eq_getElem (show i < staged.entries.length by rwa [h.entries])
      have hplain := List.getElem?_eq_getElem hi
      rw [he, hplain, Option.map_some, Option.map_some, (h.holds i _ _ he hplain).plainLength]
    · have hentries := h.entries
      rw [List.getElem?_eq_none (by omega), List.getElem?_eq_none (by omega)]
      rfl
  have htotal : plains.flatten.length = info.plaintextLength := by
    rw [h.length_flatten, hcount]
    exact min_eq_left hcover
  have hsane : ∀ e ∈ staged.entries,
      e.Sane info.framePlainLimit ∧ e.plainLength < 2 ^ 32 := by
    intro e he
    obtain ⟨i, hi, rfl⟩ := List.mem_iff_getElem.mp he
    obtain ⟨plain, hplain⟩ : ∃ plain, plains[i]? = some plain :=
      ⟨_, List.getElem?_eq_getElem (by rwa [← h.entries])⟩
    have hholds := h.holds i _ _ (List.getElem?_eq_getElem hi) hplain
    have hle : plain.length ≤ info.framePlainLimit := by
      rw [length_of_readPlain (h.read i _ hplain), frameLength]
      exact min_le_left _ _
    refine ⟨hholds.sane hle, ?_⟩
    have hlimit := hinfo.framePlainLimit
    rw [hholds.plainLength]
    omega
  have hsum : plainTotal staged.entries = info.plaintextLength := by
    rw [plainTotal, hlengths, ← List.length_flatten, htotal]
  have hcontiguous : Segments.Contiguous ({} : Directory).priorEnd
      (staged.entries.map Entry.span) staged.file.length := hfront ▸ h.contiguous
  have hlt : ({} : Directory).plainSum + plainTotal staged.entries < 2 ^ 64 := by
    rw [hsum]
    exact (Nat.zero_add _).trans_lt hinfo.plaintextLength
  have hloop := foldlM_acceptRow_rows hsane hcontiguous hfile hlt
  refine ⟨?_, htotal, hlengths⟩
  rw [readDirectory, ← List.foldlM_map, ← hcount, ← h.entries, rows_buildTable, bind_eq_ok_iff]
  refine ⟨_, hloop, ?_⟩
  rw [require_bind_eq_ok_iff, hsum]
  dsimp only
  rw [Nat.zero_add, beq_self_eq_true, beq_self_eq_true]
  exact ⟨rfl, rfl⟩

/-- **A written file opens.** -/
theorem opens_of_writeFile {encryptedLength : ℕ} {file : ObjectFile}
    (h : writeFile D C env key info = .ok (file.bytes, encryptedLength)) (hinfo : info.Bounded)
    (hcover : info.plaintextLength ≤ info.frameCount * info.framePlainLimit) :
    ∃ (preamble header footer table : Bytes) (entries : List Entry) (plains : List Bytes),
      Opens C key { info with encryptedLength } file preamble header footer table entries ∧
      plains.length = info.frameCount ∧ entries.length = plains.length ∧
      plains.flatten.length = info.plaintextLength ∧
      entries.map (·.plainLength) = plains.map List.length ∧
      (∀ i plain, plains[i]? = some plain → readPlain env info i = some plain) ∧
      ∀ i e plain, entries[i]? = some e → plains[i]? = some plain →
        Holds D C key info file.bytes i e plain := by
  obtain ⟨headerNonce, tableNonce, footerNonce, plains, staged, hcount, hfilled, hbytes, hlength⟩ :=
    writeFile_eq_ok h
  have hlt := file.length_lt
  generalize htable : buildTable info.frameCount staged.entries = table at hbytes
  generalize htableRecord : encryptRecord C key info tableNonce tableIndex table = tableRecord
    at hbytes
  generalize hfooter : buildFooter info staged.file.length tableRecord.length
    (staged.file.length + tableRecord.length + footerRecordSize)
    (tableDigest C key (buildHeader info) table) = footer at hbytes
  generalize hheaderRecord : encryptRecord C key info headerNonce headerIndex (buildHeader info) =
    headerRecord at hfilled
  generalize hfooterRecord : encryptRecord C key info footerNonce footerIndex footer = footerRecord
    at hbytes
  have hheaderLength : headerRecord.length = headerRecordSize := by
    rw [← hheaderRecord, length_encryptRecord, length_buildHeader, headerRecordSize]
  have htableLength : tableRecord.length = recordOverhead + 8 + info.frameCount * entrySize := by
    rw [← htableRecord, length_encryptRecord, ← htable, length_buildTable, hfilled.entries, hcount]
    omega
  have hfooterLength : footerRecord.length = footerRecordSize := by
    rw [← hfooterRecord, length_encryptRecord, ← hfooter, length_buildFooter, footerRecordSize]
  have hsize : file.size = staged.file.length + tableRecord.length + footerRecordSize := by
    rw [ObjectFile.size, hbytes, List.length_append, List.length_append, hfooterLength]
  have hfrontLength : (buildPreamble info ++ headerRecord).length = 64 + headerRecordSize := by
    rw [List.length_append, length_buildPreamble, hheaderLength, objectPreambleSize]
  rw [ObjectFile.size] at hsize
  obtain ⟨hdirectory, htotal, hlengths⟩ :=
    readDirectory_of_filled hfilled hinfo hfrontLength hcount hcover (by omega)
  obtain ⟨frames, hframes⟩ := hfilled.starts
  -- The file from its beginning, and from its end.
  have hfile : file.bytes = buildPreamble info ++ headerRecord ++
      (frames ++ tableRecord ++ footerRecord) := by
    rw [hbytes, ← hframes]
    simp only [List.append_assoc]
  have hpreamble : Layout.slice 0 objectPreambleSize file.bytes = buildPreamble info := by
    rw [hfile, ← length_buildPreamble info, List.append_assoc,
      Layout.slice_append_left (by rw [Nat.zero_add]), Layout.slice_zero_length]
  have hheader : Layout.slice 64 headerRecordSize file.bytes = headerRecord := by
    have hmiddle := Layout.slice_append_middle (buildPreamble info) headerRecord
      (frames ++ tableRecord ++ footerRecord)
    rwa [length_buildPreamble, hheaderLength, ← hfile] at hmiddle
  have htableSlice : Layout.slice staged.file.length tableRecord.length file.bytes = tableRecord := by
    rw [hbytes]
    exact Layout.slice_append_middle _ _ _
  have hfooterSlice : Layout.slice (file.size - footerRecordSize) footerRecordSize file.bytes =
      footerRecord := by
    have hmiddle := Layout.slice_append_middle (staged.file ++ tableRecord) footerRecord []
    have hat : file.size - footerRecordSize = (staged.file ++ tableRecord).length := by
      rw [ObjectFile.size, hsize, List.length_append]
      omega
    rwa [List.append_nil, ← hbytes, hfooterLength, ← hat] at hmiddle
  have hstart : 64 + headerRecordSize ≤ staged.file.length := hfrontLength ▸ hfilled.contiguous.le
  obtain ⟨hat, hlen⟩ : getAt footer 8 8 = staged.file.length ∧
      getAt footer 16 8 = tableRecord.length := by
    rw [← hfooter]
    exact getAt_buildFooter (by omega) (by omega) (by omega)
  have hrecorded : ObjectInfo.Bounded { info with encryptedLength } :=
    ⟨hinfo.plaintextLength, hinfo.framePlainLimit, hinfo.frameCount⟩
  refine ⟨buildPreamble info, buildHeader info, footer, table, staged.entries, plains, ?_, hcount,
    hfilled.entries, htotal, hlengths, hfilled.read, fun i e plain he hplain ↦ ?_⟩
  · constructor
    · exact ⟨by rw [ObjectFile.size, objectPreambleSize]; omega, .inr hlength.symm⟩
    · exact readAt_of_slice hpreamble (by rw [objectPreambleSize]; omega)
    · exact acceptsPreamble_buildPreamble hrecorded
    · rw [← hheaderRecord] at hheader
      exact decryptRecord_of_slice hheader (by rw [length_buildHeader, headerRecordSize])
        (by omega)
    · exact acceptsHeader_buildHeader hrecorded
    · rw [← hfooterRecord] at hfooterSlice
      exact decryptRecord_of_slice hfooterSlice
        (by rw [← hfooter, length_buildFooter, footerRecordSize])
        (by rw [ObjectFile.size]; omega)
    · rw [ObjectFile.size, hsize, ← hfooter]
      exact acceptsFooter_buildFooter hrecorded (by omega) hstart htableLength rfl
    · rw [hat, hlen]
      rw [← htableRecord] at htableSlice ⊢
      exact decryptRecord_of_slice htableSlice length_encryptRecord (by rw [htableRecord]; omega)
    · rw [← htable]
      exact acceptsTable_buildTable hrecorded (hfilled.entries.trans hcount)
    · rw [← hfooter, slice_buildFooter]
    · rw [hat, ← htable]
      exact hdirectory
  · rw [hbytes, List.append_assoc]
    exact (hfilled.holds i e plain he hplain).append _

/-- What is written is recorded within the bounds the reader checks. -/
theorem stageObjectFile_eq_ok {file : ObjectFile}
    (h : stageObjectFile D C env masterKey request plaintextLength = .ok (info, file)) :
    validExpectedInfo info = true ∧ info.Bounded ∧ info.plaintextLength = plaintextLength ∧
      info.plaintextLength ≤ info.frameCount * info.framePlainLimit ∧
      ∃ (info' : ObjectInfo) (encryptedLength : ℕ), info = { info' with encryptedLength } ∧
        writeFile D C env (C.deriveObjectKey masterKey info.vaultId info.objectId) info' =
          .ok (file.bytes, encryptedLength) := by
  rw [stageObjectFile, require_bind_eq_ok_iff] at h
  simp only [↓require_bind_eq_ok_iff, ↓demand_bind_eq_ok_iff, bind_eq_ok_iff, Prod.exists] at h
  obtain ⟨hvalid, frameCount, hcount, id, -, hid, -, bytes, encryptedLength, hw, -, h⟩ := h
  split_ifs at h with hlt
  cases h
  simp only [validWriteRequest, Bool.and_eq_true, decide_eq_true_eq] at hvalid
  obtain ⟨⟨⟨hvault, howner⟩, hpos⟩, -⟩ := hvalid
  obtain ⟨-, hlimit, hframes, hcover⟩ := objectFrameCount_eq_some hcount
  have hmul : frameCount * request.framePlainLimit ≤ objectMaxFrames * objectMaxFramePlain :=
    Nat.mul_le_mul hframes hlimit
  refine ⟨?_, ⟨?_, ?_, ?_⟩, rfl, hcover, _, encryptedLength, rfl, hw⟩
  · simp only [validExpectedInfo, Bool.and_eq_true, decide_eq_true_eq]
    exact ⟨⟨⟨⟨⟨of_decide_eq_true hid, hvault⟩, howner⟩, hpos⟩, hlimit⟩, hframes⟩
  all_goals
    dsimp only
    rw [objectMaxFrames, objectMaxFramePlain] at *
    omega

/-- A published object is in its place. -/
theorem writeObjectStream_eq_ok {objects objects' : Objects}
    (h : writeObjectStream D C env masterKey request plaintextLength objects = (.ok info, objects')) :
    ∃ file, stageObjectFile D C env masterKey request plaintextLength = .ok (info, file) ∧
      objects' info.objectId = some file := by
  rw [writeObjectStream] at h
  rcases hstage : stageObjectFile D C env masterKey request plaintextLength with
    status | ⟨info', file⟩
  · rw [hstage] at h
    cases h
  · rw [hstage] at h
    dsimp only at h
    rw [publish] at h
    split_ifs at h with hrefused
    · cases h
    · obtain ⟨hinfo, hobjects⟩ := Prod.mk.inj h
      rcases hp : require (env.publication = .done) ObjectStatus.ioError with status | ⟨⟩
      · rw [hp] at hinfo
        cases hinfo
      · rw [hp] at hinfo
        cases hinfo
        exact ⟨file, rfl, by rw [← hobjects]; exact if_pos rfl⟩

/-- **A published object is read.** It opens, and its frames are what the caller handed out. -/
theorem reads_of_writeObjectStream {objects objects' : Objects}
    (h : writeObjectStream D C env masterKey request plaintextLength objects = (.ok info, objects')) :
    ∃ reader plains, openObject C objects' masterKey info = .ok reader ∧ Reads D C reader plains ∧
      (List.range info.frameCount).map (readPlain env info) = plains.map some := by
  obtain ⟨file, hstage, hplace⟩ := writeObjectStream_eq_ok h
  obtain ⟨hvalid, hinfo, -, hcover, info', encryptedLength, rfl, hw⟩ :=
    stageObjectFile_eq_ok hstage
  obtain ⟨preamble, header, footer, table, entries, plains, hopens, hcount, hentries, htotal,
    hlengths, hread, hholds⟩ := opens_of_writeFile hw
      ⟨hinfo.plaintextLength, hinfo.framePlainLimit, hinfo.frameCount⟩ hcover
  refine ⟨⟨file, _, _, entries⟩, plains, openObject_eq_ok_iff.mpr ⟨hvalid, hplace, rfl, rfl,
    preamble, header, footer, table, hopens⟩, ⟨fun i ↦ ?_, hlengths, htotal.symm, ?_⟩, ?_⟩
  · rcases hplain : plains[i]? with _ | plain
    · rw [List.getElem?_eq_none_iff, ← hentries] at hplain
      have hnone : entries[i]? = none := List.getElem?_eq_none hplain
      rw [readFrame]
      dsimp only
      rw [hnone]
      rfl
    · have hi := (List.getElem?_eq_some_iff.mp hplain).1
      rw [← hentries] at hi
      have he := List.getElem?_eq_getElem hi
      exact (hholds i _ plain he hplain).recorded.readFrame he
  · rw [htotal]
    exact hinfo.plaintextLength
  · dsimp only
    rw [← hcount]
    refine List.ext_getElem? fun i ↦ ?_
    rw [List.getElem?_map, List.getElem?_map]
    by_cases hi : i < plains.length
    · have hplain := List.getElem?_eq_getElem hi
      rw [List.getElem?_range hi, hplain, Option.map_some, Option.map_some]
      exact congrArg some (hread i _ hplain)
    · rw [List.getElem?_eq_none (by simpa using hi), List.getElem?_eq_none (by omega)]
      rfl

/-- The frames of a buffer, one after another, are the buffer as far as they reach. -/
theorem flatten_of_readSpan {plaintext : Bytes} {count : ℕ} {plains : List Bytes}
    (hread : env.read = readSpan plaintext) (hlength : info.plaintextLength = plaintext.length)
    (h : (List.range count).map (readPlain env info) = plains.map some) :
    plains.flatten = plaintext.take (count * info.framePlainLimit) := by
  induction count generalizing plains with
  | zero =>
    have hnil : plains = [] := List.map_eq_nil_iff.mp h.symm
    rw [hnil, Nat.zero_mul, List.take_zero, List.flatten_nil]
  | succ count ih =>
    rw [List.range_succ, List.map_append, List.map_singleton] at h
    obtain ⟨init, last, rfl, hinit, hlast⟩ := List.map_eq_append_iff.mp h.symm
    obtain ⟨plain, rfl, hplain⟩ := List.map_eq_singleton_iff.mp hlast
    rw [readPlain, hread, readSpan, frameLength, hlength] at hplain
    have hslice : plain = Layout.slice (count * info.framePlainLimit) (min info.framePlainLimit
        (plaintext.length - count * info.framePlainLimit)) plaintext := by
      split_ifs at hplain with hin
      · exact Option.some.inj hplain
      · cases hplain
    rw [List.flatten_append, List.flatten_singleton, ih hinit.symm, hslice, Layout.slice,
      Nat.succ_mul, List.take_add, ← List.length_drop, ← List.take_eq_take_min]

/-- **A buffer is read back** as it was written. -/
theorem readAll_of_writeObject {objects objects' : Objects} {plaintext : Bytes}
    (h : writeObject D C env masterKey request plaintext objects = (.ok info, objects')) :
    ∃ reader, openObject C objects' masterKey info = .ok reader ∧
      readAll D C reader = .ok plaintext := by
  rw [writeObject] at h
  obtain ⟨reader, plains, hopen, hreads, hplains⟩ := reads_of_writeObjectStream h
  obtain ⟨file, hstage, -⟩ := writeObjectStream_eq_ok h
  obtain ⟨-, -, hlength, hcover, -⟩ := stageObjectFile_eq_ok hstage
  refine ⟨reader, hopen, ?_⟩
  rw [readAll_eq hreads, flatten_of_readSpan rfl hlength hplains,
    List.take_of_length_le (hlength ▸ hcover)]

end RoundTrip

/-! ## The result -/

/-- **Object files.** A published object opens under what was recorded of it. Reading it all gives
the frames the caller handed out, one after another; a range within them is that slice of them, and
one that reaches beyond their end is refused; a frame is what was handed out for it.

Whatever opens, its entries lie one after another from the header to the table, which the footer
follows at the end of the file, and hold as much as is expected; no sum of an offset and a length
and no sum of lengths wraps around. -/
theorem readBack_of_writeObjectStream (D : Deflate) (C : ObjectCrypto) (masterKey : Block 32) :
    (∀ env request plaintextLength objects info objects',
      writeObjectStream D C env masterKey request plaintextLength objects = (.ok info, objects') →
      ∃ (reader : ObjectReader) (plains : List Bytes),
        openObject C objects' masterKey info = .ok reader ∧
        (List.range info.frameCount).map (readPlain env info) = plains.map some ∧
        readAll D C reader = .ok plains.flatten ∧
        (∀ offset length, readRange D C reader offset length =
          if offset + length ≤ plains.flatten.length then
            .ok (Layout.slice offset length plains.flatten)
          else .error .invalidArgument) ∧
        ∀ i, readFrame D C reader i = demand plains[i]? .invalidArgument) ∧
    ∀ objects expected reader, openObject C objects masterKey expected = .ok reader →
      ∃ tableOffset, Segments.Contiguous (64 + headerRecordSize) (reader.entries.map Entry.span)
          tableOffset ∧
        tableOffset + (recordOverhead + 8 + expected.frameCount * entrySize) + footerRecordSize =
          reader.file.size ∧
        reader.entries.length = expected.frameCount ∧
        plainTotal reader.entries = expected.plaintextLength ∧
        (∀ e ∈ reader.entries, e.offset + e.length < 2 ^ 63) ∧
        plainTotal reader.entries < 2 ^ 64 := by
  refine ⟨fun env request plaintextLength objects info objects' h ↦ ?_,
    fun objects expected reader h ↦ ?_⟩
  · obtain ⟨reader, plains, hopen, hreads, hplains⟩ := reads_of_writeObjectStream h
    exact ⟨reader, plains, hopen, hplains, readAll_eq hreads, readRange_eq hreads, hreads.frames⟩
  · obtain ⟨tableOffset, hcontiguous, hend, hcount, htotal, hle⟩ := directory_of_openObject h
    refine ⟨tableOffset, hcontiguous, hend, hcount, htotal, fun e he ↦ ?_, hle⟩
    have hlt : reader.file.size < 2 ^ 63 := reader.file.length_lt
    have hspan : e.offset + e.length ≤ tableOffset :=
      (hcontiguous.bounds (List.mem_map_of_mem he)).2
    omega

section Example

/-- A compressor that never finds anything to save. -/
def idleDeflate : Deflate := IndexIo.calmEnv.deflate

/-- A cipher that hides nothing, with an empty tag. -/
def plainCrypto : ObjectCrypto where
  deriveObjectKey masterKey _ _ := masterKey
  aead _ := IndexIo.calmEnv.aead
  digest _ _ := .zero 32

/-- Everything works, and the bytes of the source count up from zero. -/
def countingEnv : WriteEnv where
  randomId := some (.ofBytes (List.replicate 16 3))
  staging := true
  preambleWritten := true
  nonce _ := some (.zero 24)
  read offset length := some ⟨(List.range length).map fun i ↦ UInt8.ofNat (offset + i), by simp⟩
  synced := true
  publication := .done

def smallRequest : ObjectWriteRequest where
  vaultId := .ofBytes (List.replicate 16 1)
  ownerNodeId := .ofBytes (List.replicate 16 2)
  role := .originalImage
  framePlainLimit := 2

/-- What is recorded of five bytes in three frames. -/
def smallInfo : ObjectInfo where
  objectId := .ofBytes (List.replicate 16 3)
  vaultId := .ofBytes (List.replicate 16 1)
  ownerNodeId := .ofBytes (List.replicate 16 2)
  role := .originalImage
  mediaFormat := 0
  plaintextLength := 5
  encryptedLength := 520
  framePlainLimit := 2
  frameCount := 3

theorem writeObjectStream_small : ∃ objects', writeObjectStream idleDeflate plainCrypto countingEnv
    (.zero 32) smallRequest 5 (fun _ ↦ none) = (.ok smallInfo, objects') := by
  have h : (writeObjectStream idleDeflate plainCrypto countingEnv (.zero 32) smallRequest 5
      (fun _ ↦ none)).1.toOption = some smallInfo := by decide +kernel
  rcases hw : writeObjectStream idleDeflate plainCrypto countingEnv (.zero 32) smallRequest 5
      (fun _ ↦ none) with ⟨status | info, objects'⟩
  · rw [hw] at h
    exact nomatch h
  · rw [hw] at h
    exact ⟨objects', by rw [Option.some.inj h]⟩

/-- Five bytes in frames of two, and the three in the middle of them. -/
theorem readBack_of_writeObjectStream_small : ∃ objects' reader,
    writeObjectStream idleDeflate plainCrypto countingEnv (.zero 32) smallRequest 5 (fun _ ↦ none) =
      (.ok smallInfo, objects') ∧
    openObject plainCrypto objects' (.zero 32) smallInfo = .ok reader ∧
    readRange idleDeflate plainCrypto reader 1 3 = .ok [1, 2, 3] ∧ reader.entries.length = 3 := by
  obtain ⟨objects', hw⟩ := writeObjectStream_small
  have h := readBack_of_writeObjectStream idleDeflate plainCrypto (.zero 32)
  obtain ⟨reader, plains, hopen, hplains, -, hrange, -⟩ := h.1 _ _ _ _ _ _ hw
  obtain ⟨-, -, -, hcount, -⟩ := h.2 _ _ _ hopen
  refine ⟨objects', reader, hw, hopen, ?_, hcount⟩
  have hread : (List.range smallInfo.frameCount).map (readPlain countingEnv smallInfo) =
      [[0, 1], [2, 3], [4]].map some := by decide +kernel
  have hplains : [[0, 1], [2, 3], [4]] = plains :=
    List.map_injective_iff.mpr (Option.some_injective _) (hread.symm.trans hplains)
  rw [hrange, ← hplains]
  rfl

/-- **A range is not clamped.** Of the same five bytes, four from the fourth on are refused. -/
theorem readRange_not_clamped : ∃ objects' reader,
    writeObjectStream idleDeflate plainCrypto countingEnv (.zero 32) smallRequest 5 (fun _ ↦ none) =
      (.ok smallInfo, objects') ∧
    openObject plainCrypto objects' (.zero 32) smallInfo = .ok reader ∧
    readAll idleDeflate plainCrypto reader = .ok [0, 1, 2, 3, 4] ∧
    readRange idleDeflate plainCrypto reader 3 4 ≠ .ok (Layout.slice 3 4 [0, 1, 2, 3, 4]) := by
  obtain ⟨objects', hw⟩ := writeObjectStream_small
  obtain ⟨reader, plains, hopen, hreads, hplains⟩ := reads_of_writeObjectStream hw
  have hread : (List.range smallInfo.frameCount).map (readPlain countingEnv smallInfo) =
      [[0, 1], [2, 3], [4]].map some := by decide +kernel
  have hplains : [[0, 1], [2, 3], [4]] = plains :=
    List.map_injective_iff.mpr (Option.some_injective _) (hread.symm.trans hplains)
  rw [← hplains] at hreads
  refine ⟨objects', reader, hw, hopen, readAll_eq hreads, ?_⟩
  rw [readRange_eq hreads]
  exact nofun

end Example

end V3

end SafeVault
