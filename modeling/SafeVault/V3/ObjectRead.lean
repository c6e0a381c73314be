import Mathlib.Algebra.Group.Action.Defs
import Mathlib.Algebra.Order.BigOperators.Group.List
import SafeVault.V3.ObjectWrite

/-!
# Reading objects

The loop over the rows of a table accepts exactly rows that continue where the last one ended, and
since each of them ends before the table, none of the sums wraps around. The loop of a range read
keeps the invariant that what was copied is the part of the range within the frames it has passed.
-/

namespace SafeVault

namespace V3

open Header (getAt)

/-! ## The directory -/

/-- What the reader asks of an entry besides its place. -/
structure Entry.Sane (framePlainLimit : ℕ) (e : Entry) : Prop where
  length_gt : recordOverhead + 1 ≤ e.length
  length_le : e.length ≤ framePlainLimit + recordOverhead + ChunkCodec.deflateHdr + 64
  plainLength_le : e.plainLength ≤ framePlainLimit
  compression_le : ¬ 1 < e.compression

/-- How much the frames of some entries hold. -/
def plainTotal (entries : List Entry) : ℕ := (entries.map (·.plainLength)).sum

section Directory

variable {limit tableOffset : ℕ} {directory directory' : Directory} {row : Bytes} {e : Entry}
  {entries : List Entry}

theorem sub64_of_le {a b : ℕ} (hle : b ≤ a) (hlt : a < 2 ^ 64) : sub64 a b = a - b := by
  rw [sub64]
  omega

theorem add64_of_lt {a b : ℕ} (hlt : a + b < 2 ^ 64) : add64 a b = a + b := Nat.mod_eq_of_lt hlt

/-- **One row.** An accepted row continues the directory, and nothing wraps around. -/
theorem acceptRow_eq_ok (h : acceptRow limit tableOffset directory row = .ok directory')
    (hprior : directory.priorEnd ≤ tableOffset) (htable : tableOffset < 2 ^ 64) :
    ∃ e : Entry, e.Sane limit ∧ e.offset = directory.priorEnd ∧
      e.offset + e.length ≤ tableOffset ∧
      directory' = ⟨e.offset + e.length, add64 directory.plainSum e.plainLength,
        directory.entries ++ [e]⟩ := by
  rw [acceptRow] at h
  split_ifs at h with hbad
  push Not at hbad
  obtain ⟨hplace, hmin, hmax, hplain, hcompression, -, hroom⟩ := hbad
  rw [sub64_of_le (by omega) htable] at hroom
  refine ⟨Entry.ofRow row, ⟨hmin, hmax, hplain, hcompression⟩, hplace, by omega, ?_⟩
  rw [← Except.ok.inj h, add64_of_lt (by omega)]

theorem acceptRow_row (he : e.Sane limit) (hplain : e.plainLength < 2 ^ 32)
    (hplace : e.offset = directory.priorEnd) (hroom : e.offset + e.length ≤ tableOffset)
    (htable : tableOffset < 2 ^ 64) (hsum : directory.plainSum + e.plainLength < 2 ^ 64) :
    acceptRow limit tableOffset directory e.row = .ok ⟨e.offset + e.length,
      directory.plainSum + e.plainLength, directory.entries ++ [e]⟩ := by
  have hrow : Entry.ofRow e.row = e := ofRow_row ⟨by omega, by omega, hplain⟩
  rw [acceptRow, hrow, slice_row, sub64_of_le (by omega) htable, add64_of_lt (by omega), add64_of_lt hsum,
    if_neg]
  have hgt := he.length_gt
  have hle := he.length_le
  have hlimit := he.plainLength_le
  push Not
  exact ⟨hplace, hgt, hle, hlimit, he.compression_le, by decide, by omega⟩

/-- The invariant of the loop over the rows. -/
structure Accepted (limit tableOffset : ℕ) (directory : Directory) : Prop where
  contiguous : Segments.Contiguous (64 + headerRecordSize) (directory.entries.map Entry.span)
    directory.priorEnd
  le_table : directory.priorEnd ≤ tableOffset
  sane : ∀ e ∈ directory.entries, e.Sane limit
  plainSum : directory.plainSum = plainTotal directory.entries

theorem plainTotal_le (h : ∀ e ∈ entries, e.Sane limit) :
    plainTotal entries ≤ entries.length * limit := by
  have hsum := List.sum_le_card_nsmul (entries.map (·.plainLength)) limit fun n hn ↦ by
    obtain ⟨e, he, rfl⟩ := List.mem_map.mp hn
    exact (h e he).plainLength_le
  rwa [List.length_map, smul_eq_mul] at hsum

theorem accepted_acceptRow (hlimit : limit ≤ objectMaxFramePlain) (htable : tableOffset < 2 ^ 64)
    (hcount : directory.entries.length ≤ objectMaxFrames)
    (h : Accepted limit tableOffset directory)
    (hrow : acceptRow limit tableOffset directory row = .ok directory') :
    Accepted limit tableOffset directory' ∧
      directory'.entries.length = directory.entries.length + 1 := by
  obtain ⟨e, he, hplace, hroom, rfl⟩ := acceptRow_eq_ok hrow h.le_table htable
  have htotal := plainTotal_le h.sane
  have hmul : directory.entries.length * limit ≤ objectMaxFrames * objectMaxFramePlain :=
    Nat.mul_le_mul hcount hlimit
  have hplain := he.plainLength_le
  -- The sum stays far below the modulus.
  have hsum : directory.plainSum + e.plainLength < 2 ^ 64 := by
    rw [h.plainSum]
    rw [objectMaxFrames, objectMaxFramePlain] at *
    omega
  refine ⟨⟨?_, hroom, ?_, ?_⟩, by simp⟩
  · rw [List.map_append, List.map_singleton]
    have hcat := h.contiguous.concat (s := e.span) hplace
    rwa [← hplace] at hcat
  · intro e' he'
    rcases List.mem_append.mp he' with hmem | hmem
    · exact h.sane e' hmem
    · exact List.mem_singleton.mp hmem ▸ he
  · rw [add64_of_lt hsum, h.plainSum, plainTotal, plainTotal, List.map_append, List.sum_append,
      List.map_singleton, List.sum_singleton]

/-- **All rows.** -/
theorem accepted_foldlM (hlimit : limit ≤ objectMaxFramePlain) (htable : tableOffset < 2 ^ 64)
    {rows : List Bytes} (h : Accepted limit tableOffset directory)
    (hcount : directory.entries.length + rows.length ≤ objectMaxFrames)
    (hrows : rows.foldlM (acceptRow limit tableOffset) directory = .ok directory') :
    Accepted limit tableOffset directory' ∧
      directory'.entries.length = directory.entries.length + rows.length := by
  induction rows generalizing directory with
  | nil =>
    cases hrows
    exact ⟨h, rfl⟩
  | cons row rows ih =>
    rw [List.foldlM_cons, bind_eq_ok_iff] at hrows
    obtain ⟨middle, hrow, hrows⟩ := hrows
    rw [List.length_cons] at hcount
    obtain ⟨hmiddle, hlen⟩ := accepted_acceptRow hlimit htable (by omega) h hrow
    obtain ⟨hlast, hlen'⟩ := ih hmiddle (by omega) hrows
    exact ⟨hlast, by rw [hlen', hlen, List.length_cons]; omega⟩

/-- Rows of contiguous sane entries are accepted. -/
theorem foldlM_acceptRow_rows (hentries : ∀ e ∈ entries, e.Sane limit ∧ e.plainLength < 2 ^ 32)
    (hcontiguous : Segments.Contiguous directory.priorEnd (entries.map Entry.span) tableOffset)
    (htable : tableOffset < 2 ^ 64) (hsum : directory.plainSum + plainTotal entries < 2 ^ 64) :
    (entries.map Entry.row).foldlM (acceptRow limit tableOffset) directory =
      .ok ⟨tableOffset, directory.plainSum + plainTotal entries, directory.entries ++ entries⟩ := by
  induction entries generalizing directory with
  | nil =>
    have hend : directory.priorEnd = tableOffset := hcontiguous
    rw [← hend, List.append_nil]
    rfl
  | cons e entries ih =>
    obtain ⟨⟨he, hplain⟩, hentries⟩ := List.forall_mem_cons.mp hentries
    obtain ⟨hplace, hrest⟩ := hcontiguous
    have hplace : e.offset = directory.priorEnd := hplace
    have htotal : plainTotal (e :: entries) = e.plainLength + plainTotal entries := rfl
    rw [htotal] at hsum ⊢
    have hle := hrest.le
    have hroom : e.offset + e.length ≤ tableOffset := by rwa [hplace]
    have hfirst := acceptRow_row he hplain hplace hroom htable (by omega)
    let next : Directory := ⟨e.offset + e.length, directory.plainSum + e.plainLength,
      directory.entries ++ [e]⟩
    have hnext : Segments.Contiguous next.priorEnd (entries.map Entry.span) tableOffset := by
      rwa [← hplace] at hrest
    have hsum' : next.plainSum + plainTotal entries < 2 ^ 64 := by
      change directory.plainSum + e.plainLength + plainTotal entries < 2 ^ 64
      omega
    have hloop := ih hentries hnext hsum'
    rw [List.map_cons, List.foldlM_cons, bind_eq_ok_iff]
    refine ⟨_, hfirst, hloop.trans ?_⟩
    rw [Nat.add_assoc, List.append_assoc, List.singleton_append]

end Directory

/-! ## Opening -/

section Open

variable {D : Deflate} {C : ObjectCrypto} {objects : Objects} {masterKey : Block 32}
  {expected : ObjectInfo} {reader : ObjectReader}

/-- The checks on the parts of a file. -/
structure Opens (C : ObjectCrypto) (key : Block 32) (expected : ObjectInfo) (file : ObjectFile)
    (preamble header footer table : Bytes) (entries : List Entry) : Prop where
  size : objectPreambleSize + headerRecordSize + footerRecordSize ≤ file.size ∧
    (expected.encryptedLength = 0 ∨ file.size = expected.encryptedLength)
  readPreamble : file.readAt 0 objectPreambleSize = some preamble
  preambleAccepted : acceptsPreamble expected preamble = true
  readHeader : decryptRecord C key expected file headerIndex 64 headerRecordSize = .ok header
  headerAccepted : acceptsHeader expected header = true
  readFooter : decryptRecord C key expected file footerIndex (file.size - footerRecordSize)
    footerRecordSize = .ok footer
  footerAccepted : acceptsFooter expected file.size footer = true
  readTable : decryptRecord C key expected file tableIndex (getAt footer 8 8) (getAt footer 16 8) =
    .ok table
  tableAccepted : acceptsTable expected table = true
  digest : (tableDigest C key header table).bytes = Layout.slice 32 32 footer
  directory : readDirectory expected (getAt footer 8 8) table = .ok entries

theorem openObject_eq_ok_iff : openObject C objects masterKey expected = .ok reader ↔
    validExpectedInfo expected = true ∧ objects expected.objectId = some reader.file ∧
      reader.key = C.deriveObjectKey masterKey expected.vaultId expected.objectId ∧
      reader.info = expected ∧
      ∃ preamble header footer table, Opens C reader.key expected reader.file preamble header footer
        table reader.entries := by
  rw [openObject, require_bind_eq_ok_iff]
  simp only [↓require_bind_eq_ok_iff, ↓demand_bind_eq_ok_iff, bind_eq_ok_iff, Bool.and_eq_true,
    Bool.or_eq_true, beq_iff_eq, decide_eq_true_eq]
  constructor
  · rintro ⟨hvalid, file, hfile, hsize, preamble, hpre, hpreamble, header, hhead, hheader, footer,
      hfoot, hfooter, table, htab, htable, hdigest, entries, hentries, hreader⟩
    cases hreader
    exact ⟨hvalid, hfile, rfl, rfl, preamble, header, footer, table, hsize, hpre, hpreamble, hhead,
      hheader, hfoot, hfooter, htab, htable, hdigest, hentries⟩
  · rintro ⟨hvalid, hfile, hkey, hinfo, preamble, header, footer, table, h⟩
    rw [hkey] at h
    refine ⟨hvalid, reader.file, hfile, h.size, preamble, h.readPreamble, h.preambleAccepted, header,
      h.readHeader, h.headerAccepted, footer, h.readFooter, h.footerAccepted, table, h.readTable, h.tableAccepted, h.digest,
      reader.entries, h.directory, ?_⟩
    rw [← hkey, ← hinfo]
    rfl

/-- Where the table of an accepted file is. -/
theorem tableOffset_of_acceptsFooter {size : ℕ} {footer : Bytes}
    (h : acceptsFooter expected size footer = true) :
    getAt footer 8 8 + (recordOverhead + 8 + expected.frameCount * entrySize) + footerRecordSize =
        size ∧ 64 + headerRecordSize ≤ getAt footer 8 8 := by
  simp only [acceptsFooter, Bool.and_eq_true, beq_iff_eq, decide_eq_true_eq] at h
  obtain ⟨⟨⟨⟨-, hstart⟩, hlength⟩, hle⟩, hend⟩ := h
  rw [recordOverhead] at *
  omega

/-- **An accepted directory** covers the file from the header to the table and holds as much as is
expected, in sums that do not wrap around. -/
theorem directory_of_openObject (h : openObject C objects masterKey expected = .ok reader) :
    ∃ tableOffset, Segments.Contiguous (64 + headerRecordSize) (reader.entries.map Entry.span)
        tableOffset ∧
      tableOffset + (recordOverhead + 8 + expected.frameCount * entrySize) + footerRecordSize =
        reader.file.size ∧
      reader.entries.length = expected.frameCount ∧
      plainTotal reader.entries = expected.plaintextLength ∧ plainTotal reader.entries < 2 ^ 64 := by
  obtain ⟨hvalid, -, -, -, preamble, header, footer, table, h⟩ := openObject_eq_ok_iff.mp h
  obtain ⟨hend, hstart⟩ := tableOffset_of_acceptsFooter h.footerAccepted
  have hsize : reader.file.size < 2 ^ 63 := reader.file.length_lt
  have hdirectory := h.directory
  rw [readDirectory, bind_eq_ok_iff] at hdirectory
  obtain ⟨directory, hloop, hcheck⟩ := hdirectory
  rw [require_bind_eq_ok_iff, Bool.and_eq_true, beq_iff_eq, beq_iff_eq] at hcheck
  obtain ⟨⟨hlast, hsum⟩, hentries⟩ := hcheck
  have hentries : directory.entries = reader.entries := Except.ok.inj hentries
  simp only [validExpectedInfo, Bool.and_eq_true, decide_eq_true_eq] at hvalid
  obtain ⟨⟨-, hlimit⟩, hframes⟩ := hvalid
  rw [← List.foldlM_map] at hloop
  have hfirst : Accepted expected.framePlainLimit (getAt footer 8 8) {} :=
    ⟨rfl, hstart, by simp, rfl⟩
  obtain ⟨haccepted, hcount⟩ := accepted_foldlM hlimit (by omega) hfirst (by simpa using hframes) hloop
  have htotal := plainTotal_le haccepted.sane
  have hmul : directory.entries.length * expected.framePlainLimit ≤
      objectMaxFrames * objectMaxFramePlain :=
    Nat.mul_le_mul (by rw [hcount]; simpa using hframes) hlimit
  rw [← hentries]
  refine ⟨getAt footer 8 8, hlast ▸ haccepted.contiguous, hend, by simpa using hcount, ?_,
    htotal.trans_lt (hmul.trans_lt (by decide))⟩
  rw [← haccepted.plainSum, hsum]

end Open

/-! ## Ranges -/

section Ranges

variable {D : Deflate} {C : ObjectCrypto} {reader : ObjectReader} {plains : List Bytes}

/-- The frames of a reader hold these plaintexts. -/
structure Reads (D : Deflate) (C : ObjectCrypto) (reader : ObjectReader) (plains : List Bytes) :
    Prop where
  frames : ∀ i, readFrame D C reader i = demand plains[i]? .invalidArgument
  lengths : reader.entries.map (·.plainLength) = plains.map List.length
  total : reader.info.plaintextLength = plains.flatten.length
  total_lt : plains.flatten.length < 2 ^ 64

/-- What a round of the loop copies out of a frame is its part of the range. -/
theorem slice_frame {offset length frameStart : ℕ} {frame : Bytes} :
    Layout.slice (max offset frameStart - frameStart)
      (min (offset + length) (frameStart + frame.length) - frameStart -
        (max offset frameStart - frameStart)) frame =
    Layout.slice (offset - frameStart) (length - (frameStart - offset)) frame := by
  have hfirst : max offset frameStart - frameStart = offset - frameStart := by omega
  rw [hfirst]
  by_cases hend : offset + length ≤ frameStart + frame.length
  · congr 1
    omega
  · -- The range goes on behind the frame, so both take all the rest of it.
    rw [Layout.slice_of_le (by omega), Layout.slice_of_le (by omega)]

/-- A frame outside the range has no part in it. -/
theorem slice_frame_outside {offset length frameStart : ℕ} {frame : Bytes}
    (h : ¬ (offset < frameStart + frame.length ∧ frameStart < offset + length)) :
    Layout.slice (offset - frameStart) (length - (frameStart - offset)) frame = [] :=
  Layout.slice_eq_nil (by omega)

/-- **The loop.** What was copied is the part of the range within the frames that were passed, and
in the end the whole range. -/
theorem readRangeFrom_eq (h : Reads D C reader plains) {offset length : ℕ}
    (hin : offset + length ≤ plains.flatten.length) {passed rest : List Bytes}
    {entries : List Entry} (hsplit : passed ++ rest = plains)
    (hlengths : entries.map (·.plainLength) = rest.map List.length) :
    readRangeFrom D C reader offset length entries passed.length passed.flatten.length
      (Layout.slice offset length passed.flatten) = .ok (Layout.slice offset length plains.flatten) := by
  induction rest generalizing passed entries with
  | nil =>
    rw [List.map_nil, List.map_eq_nil_iff] at hlengths
    rw [hlengths, ← hsplit, List.append_nil, readRangeFrom]
  | cons frame rest ih =>
    obtain ⟨e, entries, rfl, he, hlengths⟩ := List.map_eq_cons_iff.mp hlengths
    have hnext : (passed ++ [frame]) ++ rest = plains := by
      rw [List.append_assoc]
      exact hsplit
    have htotal := h.total_lt
    have hpassed : passed.flatten.length + frame.length ≤ plains.flatten.length := by
      rw [← hnext]
      simp only [List.flatten_append, List.length_append, List.flatten_singleton]
      omega
    have hend : add64 passed.flatten.length e.plainLength = passed.flatten.length + frame.length := by
      rw [he, add64_of_lt (by omega)]
    have hwanted : add64 offset length = offset + length := add64_of_lt (by omega)
    have hstep := ih hnext hlengths
    rw [List.length_append, List.length_singleton, List.flatten_append, List.flatten_singleton,
      List.length_append, Layout.slice_append] at hstep
    rw [readRangeFrom]
    by_cases hfull : length ≤ (Layout.slice offset length passed.flatten).length
    · -- The range is complete, so the frames that follow add nothing.
      have hlen : length - (passed.flatten.length - offset) = 0 := by
        rw [Layout.slice, List.length_take, List.length_drop] at hfull
        omega
      rw [if_pos hfull, ← hsplit, List.flatten_append, Layout.slice_append,
        Layout.slice_eq_nil (.inl hlen), List.append_nil]
    rw [if_neg hfull]
    dsimp only
    rw [hend, hwanted]
    by_cases hmeets : offset < passed.flatten.length + frame.length ∧
        passed.flatten.length < offset + length
    · have hread : readFrame D C reader passed.length = .ok frame := by
        rw [h.frames, ← hsplit, List.getElem?_append_right le_rfl, Nat.sub_self]
        rfl
      rw [if_pos hmeets, bind_eq_ok_iff]
      refine ⟨frame, hread, ?_⟩
      rw [slice_frame]
      exact hstep
    · rw [slice_frame_outside hmeets, List.append_nil] at hstep
      rw [if_neg hmeets]
      exact hstep

/-- **A range** is the slice of the plaintext, if it is within it. -/
theorem readRange_eq (h : Reads D C reader plains) (offset length : ℕ) :
    readRange D C reader offset length =
      if offset + length ≤ plains.flatten.length then .ok (Layout.slice offset length plains.flatten)
      else .error .invalidArgument := by
  rw [readRange, h.total]
  split_ifs with hin
  · have hguard : (decide (offset ≤ plains.flatten.length) &&
        decide (length ≤ plains.flatten.length - offset)) = true := by
      rw [Bool.and_eq_true, decide_eq_true_iff, decide_eq_true_iff]
      omega
    have hloop := readRangeFrom_eq h hin (List.nil_append plains) h.lengths
    rw [List.flatten_nil, Layout.slice_eq_nil (.inr (Nat.zero_le offset))] at hloop
    rw [hguard, require_bind_eq_ok_iff]
    refine ⟨rfl, ?_⟩
    rw [bind_eq_ok_iff]
    refine ⟨_, hloop, ?_⟩
    rw [Layout.length_slice hin, require_bind_eq_ok_iff]
    exact ⟨beq_self_eq_true length, rfl⟩
  · have hguard : (decide (offset ≤ plains.flatten.length) &&
        decide (length ≤ plains.flatten.length - offset)) = false := by
      rw [← Bool.not_eq_true, Bool.and_eq_true, decide_eq_true_iff, decide_eq_true_iff]
      omega
    rw [hguard]
    rfl

theorem readAll_eq (h : Reads D C reader plains) : readAll D C reader = .ok plains.flatten := by
  have hle : 0 + plains.flatten.length ≤ plains.flatten.length := by rw [Nat.zero_add]
  rw [readAll, readRange_eq h, h.total, if_pos hle, Layout.slice_zero_length]

end Ranges

/-- A frame is as long as its entry says. -/
theorem length_of_readFrame {D : Deflate} {C : ObjectCrypto} {reader : ObjectReader} {frame : ℕ} {plain : Bytes}
    (h : readFrame D C reader frame = .ok plain) :
    ∃ entry, reader.entries[frame]? = some entry ∧ plain.length = entry.plainLength := by
  rw [readFrame, demand_bind_eq_ok_iff] at h
  obtain ⟨entry, hentry, h⟩ := h
  rw [bind_eq_ok_iff] at h
  obtain ⟨framed, -, h⟩ := h
  rw [require_bind_eq_ok_iff, demand_bind_eq_ok_iff] at h
  obtain ⟨-, out, -, h⟩ := h
  rw [require_bind_eq_ok_iff, beq_iff_eq] at h
  obtain ⟨hlength, hout⟩ := h
  exact ⟨entry, hentry, Except.ok.inj hout ▸ hlength⟩

end V3

end SafeVault
