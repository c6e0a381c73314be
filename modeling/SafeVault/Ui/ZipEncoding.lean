import SafeVault.Lib.Hex
import SafeVault.Lib.Utf8Digits

/-!
# Names of entries

The name of an entry of a zip archive is in UTF-8 if the entry says so. If it does not, the name may be
in UTF-8 nevertheless, and is taken to be if its bytes can be read in that way; otherwise each of its
bytes is a character of code page 437. What the entry says is not checked.
-/

namespace SafeVault

namespace ZipEncoding

open Utf8

/-! ## The validator -/

/-- What the first byte of more than one says: how many follow, what it holds, and the smallest character
that needs so many. -/
def leadByte (b0 : UInt8) : Option (ℕ × ℕ × ℕ) :=
  if b0 &&& 0xE0 = 0xC0 then some (1, (b0 &&& 0x1F).toNat, 0x80)
  else if b0 &&& 0xF0 = 0xE0 then some (2, (b0 &&& 0x0F).toNat, 0x800)
  else if b0 &&& 0xF8 = 0xF0 then some (3, (b0 &&& 0x07).toNat, 0x10000)
  else none

/-- The bits of a continuation byte put behind those of a character. -/
def addBits (cp : ℕ) (bk : UInt8) : ℕ := cp <<< 6 ||| (bk &&& 0x3F).toNat

/-- The character from `i` on, and the test of the rest. -/
def isValidUtf8 : Bytes → Bool
  | [] => true
  | b0 :: rest =>
    if b0 ≤ 0x7F then isValidUtf8 rest
    else
      match leadByte b0 with
      | none => false
      | some (extra, bits, minCp) =>
        if rest.length < extra then false
        else if !(rest.take extra).all (· &&& 0xC0 = 0x80) then false
        else
          let cp := (rest.take extra).foldl addBits bits
          if cp < minCp then false                        -- overlong encoding
          else if 0xD800 ≤ cp ∧ cp ≤ 0xDFFF then false    -- surrogate half
          else if 0x10FFFF < cp then false
          else isValidUtf8 (rest.drop extra)
  termination_by s => s.length
  decreasing_by
  all_goals simp only [List.length_cons, List.length_drop]
  all_goals omega

theorem leadByte_eq (b : UInt8) : leadByte b =
    if b.toNat < 0xC0 then none
    else if b.toNat < 0xE0 then some (1, b.toNat - 0xC0, 0x80)
    else if b.toNat < 0xF0 then some (2, b.toNat - 0xE0, 0x800)
    else if b.toNat < 0xF8 then some (3, b.toNat - 0xF0, 0x10000)
    else none :=
  forall_byte (P := fun b ↦ leadByte b =
    if b.toNat < 0xC0 then none
    else if b.toNat < 0xE0 then some (1, b.toNat - 0xC0, 0x80)
    else if b.toNat < 0xF0 then some (2, b.toNat - 0xE0, 0x800)
    else if b.toNat < 0xF8 then some (3, b.toNat - 0xF0, 0x10000)
    else none) (by decide +kernel) b

/-- The first byte with so many behind it, in the terms of digits. -/
theorem leadByte_iff {b : UInt8} {extra bits minCp : ℕ} : leadByte b = some (extra, bits, minCp) ↔
    (1 ≤ extra ∧ extra ≤ 3) ∧ bits < leadRoom extra ∧ minCp = leastWith extra ∧
      b.toNat = leadOffset extra + bits := by
  rw [leadByte_eq]
  constructor
  · intro h
    split_ifs at h <;>
    · obtain ⟨rfl, rfl, rfl⟩ : _ = extra ∧ _ = bits ∧ _ = minCp := by simpa using h
      simp [leadRoom, leastWith, leadOffset]
      omega
  · rintro ⟨⟨hpos, hle⟩, hbits, rfl, hb⟩
    interval_cases extra <;> simp only [leadRoom, leadOffset] at hbits hb
    · rw [if_neg (by omega), if_pos (by omega), hb, Nat.add_sub_cancel_left]
      rfl
    · rw [if_neg (by omega), if_neg (by omega), if_pos (by omega), hb, Nat.add_sub_cancel_left]
      rfl
    · rw [if_neg (by omega), if_neg (by omega), if_neg (by omega), if_pos (by omega), hb,
        Nat.add_sub_cancel_left]
      rfl

theorem addBits_eq (cp : ℕ) (b : UInt8) : addBits cp b = cp * 64 + b.toNat % 64 := by
  have hbits : (b &&& 0x3F).toNat = b.toNat % 64 :=
    forall_byte (P := fun b ↦ (b &&& 0x3F).toNat = b.toNat % 64) (by decide +kernel) b
  rw [addBits, hbits, ← Nat.shiftLeft_add_eq_or_of_lt (Nat.mod_lt _ (by decide)), Nat.shiftLeft_eq]

theorem foldl_addBits (ts : Bytes) (u : ℕ) : ts.foldl addBits u = readTails u ts := by
  rw [readTails]
  exact congrArg (fun f ↦ ts.foldl f u) (funext₂ addBits_eq)

theorem isValidUtf8_ascii {b : UInt8} (h : b.toNat < 0x80) (rest : Bytes) :
    isValidUtf8 (b :: rest) = isValidUtf8 rest := by
  rw [isValidUtf8, if_pos (UInt8.le_iff_toNat_le.mpr (Nat.le_of_lt_succ h))]

theorem all_isCont (ts : Bytes) : ts.all (· &&& 0xC0 = 0x80) = true ↔ ∀ b ∈ ts, isCont b = true := by
  simp only [List.all_eq_true, decide_eq_true_eq, isCont, beq_iff_eq]

/-- A character is stepped over. -/
theorem isValidUtf8_char (c : Char) (rest : Bytes) :
    isValidUtf8 (String.utf8EncodeChar c ++ rest) = isValidUtf8 rest := by
  have hroom := lead_lt (toNat_lt c)
  have hcount := tailCount_le c.toNat
  have hread := readTails_encodeNat c.toNat
  have hlength := length_tailBytes (tailCount c.toNat) c.toNat
  have hlead := toNat_lead hcount hroom
  rw [utf8EncodeChar_eq, encodeNat]
  rcases Nat.eq_zero_or_pos (tailCount c.toNat) with hzero | hpos
  · rw [hzero, pow_zero, Nat.div_one] at hroom hlead ⊢
    refine isValidUtf8_ascii ?_ rest
    rw [hlead]
    exact (Nat.zero_add c.toNat).trans_lt hroom
  · have hbyte := leadByte_iff.mpr ⟨⟨hpos, hcount⟩, hroom, rfl, hlead⟩
    have hhigh : ¬UInt8.ofNat (leadOffset (tailCount c.toNat) + c.toNat / 64 ^ tailCount c.toNat) ≤ 0x7F := by
      intro h
      have hle : leadOffset (tailCount c.toNat) + c.toNat / 64 ^ tailCount c.toNat ≤ 0x7F :=
        hlead ▸ UInt8.le_iff_toNat_le.mp h
      exact absurd (((le_leadOffset hpos).trans (Nat.le_add_right _ _)).trans hle) (by decide)
    have hconts : (tailBytes (tailCount c.toNat) c.toNat).all (· &&& 0xC0 = 0x80) = true :=
      (all_isCont _).mpr fun b ↦ isCont_of_mem_tailBytes
    have hrange := isValidChar_toNat c
    have hleast := leastWith_le c.toNat
    rw [List.cons_append, isValidUtf8, if_neg hhigh, hbyte]
    simp only [List.take_left' hlength, List.drop_left' hlength, hconts, foldl_addBits, hread]
    rw [if_neg (by rw [List.length_append, hlength]; omega), if_neg (by decide), if_neg (by omega),
      if_neg (by omega), if_neg (by omega)]

/-- A string that is accepted begins with a character. -/
theorem exists_char_of_isValidUtf8 {b0 : UInt8} {rest : Bytes} (h : isValidUtf8 (b0 :: rest) = true) :
    ∃ c tail, b0 :: rest = String.utf8EncodeChar c ++ tail ∧ isValidUtf8 tail = true := by
  -- The bytes taken off are the encoding of their number, and that is in the range of characters.
  have hchar : ∀ {u : ℕ} {ts tail : Bytes}, (∀ b ∈ ts, isCont b = true) → ts.length ≤ 3 →
      u < leadRoom ts.length → leastWith ts.length ≤ readTails u ts →
      b0.toNat = leadOffset ts.length + u → (readTails u ts).isValidChar → b0 :: rest = b0 :: (ts ++ tail) →
      isValidUtf8 tail = true →
      ∃ c tail, b0 :: rest = String.utf8EncodeChar c ++ tail ∧ isValidUtf8 tail = true := by
    intro u ts tail hts hlength hu hleast hb hvalid heq htail
    refine ⟨Char.ofNatAux _ hvalid, tail, ?_, htail⟩
    rw [heq, utf8EncodeChar_eq]
    change _ = encodeNat (readTails u ts) ++ tail
    rw [encodeNat_readTails hts hlength hu hleast, ← hb, UInt8.ofNat_toNat, List.cons_append]
  rw [isValidUtf8] at h
  split_ifs at h with hascii
  · have hlt : b0.toNat < 0x80 := Nat.lt_succ_of_le (UInt8.le_iff_toNat_le.mp hascii)
    exact @hchar b0.toNat [] rest nofun (by decide) hlt (Nat.zero_le _) (Nat.zero_add _).symm
      (.inl (Nat.lt_trans hlt (by decide))) rfl h
  · split at h
    · cases h
    rename_i extra bits minCp hlead
    simp only [foldl_addBits, Bool.not_eq_true'] at h
    split_ifs at h with hshort hconts hleast hsurrogate hmax
    obtain ⟨⟨hpos, hle⟩, hbits, rfl, hb⟩ := leadByte_iff.mp hlead
    have htake : (rest.take extra).length = extra := by
      rw [List.length_take]
      omega
    have hall := (all_isCont (rest.take extra)).mp (Bool.not_eq_false _ ▸ hconts)
    refine @hchar bits (rest.take extra) (rest.drop extra) hall ?_ ?_ ?_ ?_ ?_ ?_ h
    · rwa [htake]
    · rwa [htake]
    · rw [htake]
      exact Nat.le_of_not_lt hleast
    · rwa [htake]
    · simp only [Nat.isValidChar]
      omega
    · rw [List.take_append_drop]

/-- **The validator accepts the strings of characters**, and nothing else. -/
theorem isValidUtf8_iff (s : Bytes) : isValidUtf8 s = true ↔ WellFormed s := by
  constructor
  · intro h
    induction hlength : s.length using Nat.strong_induction_on generalizing s with
    | _ n ih =>
    match s with
    | [] => exact wellFormed_nil
    | b0 :: rest =>
      obtain ⟨c, tail, heq, htail⟩ := exists_char_of_isValidUtf8 h
      obtain ⟨x, xs, hx, -⟩ := utf8EncodeChar_eq_cons c
      have hlt : tail.length < n := by
        rw [← hlength, heq, hx, List.length_append, List.length_cons]
        omega
      rw [heq]
      exact (wellFormed_char c).append (ih _ hlt tail htail rfl)
  · rintro ⟨cs, rfl⟩
    induction cs with
    | nil => rw [encode_nil, isValidUtf8]
    | cons c cs ih => rw [encode_cons, isValidUtf8_char, ih]

/-! ## Code page 437 -/

/-- The characters of the bytes from `0x80` on. -/
def cp437High : List ℕ := [
  0x00C7, 0x00FC, 0x00E9, 0x00E2, 0x00E4, 0x00E0, 0x00E5, 0x00E7,
  0x00EA, 0x00EB, 0x00E8, 0x00EF, 0x00EE, 0x00EC, 0x00C4, 0x00C5,
  0x00C9, 0x00E6, 0x00C6, 0x00F4, 0x00F6, 0x00F2, 0x00FB, 0x00F9,
  0x00FF, 0x00D6, 0x00DC, 0x00A2, 0x00A3, 0x00A5, 0x20A7, 0x0192,
  0x00E1, 0x00ED, 0x00F3, 0x00FA, 0x00F1, 0x00D1, 0x00AA, 0x00BA,
  0x00BF, 0x2310, 0x00AC, 0x00BD, 0x00BC, 0x00A1, 0x00AB, 0x00BB,
  0x2591, 0x2592, 0x2593, 0x2502, 0x2524, 0x2561, 0x2562, 0x2556,
  0x2555, 0x2563, 0x2551, 0x2557, 0x255D, 0x255C, 0x255B, 0x2510,
  0x2514, 0x2534, 0x252C, 0x251C, 0x2500, 0x253C, 0x255E, 0x255F,
  0x255A, 0x2554, 0x2569, 0x2566, 0x2560, 0x2550, 0x256C, 0x2567,
  0x2568, 0x2564, 0x2565, 0x2559, 0x2558, 0x2552, 0x2553, 0x256B,
  0x256A, 0x2518, 0x250C, 0x2588, 0x2584, 0x258C, 0x2590, 0x2580,
  0x03B1, 0x00DF, 0x0393, 0x03C0, 0x03A3, 0x03C3, 0x00B5, 0x03C4,
  0x03A6, 0x0398, 0x03A9, 0x03B4, 0x221E, 0x03C6, 0x03B5, 0x2229,
  0x2261, 0x00B1, 0x2265, 0x2264, 0x2320, 0x2321, 0x00F7, 0x2248,
  0x00B0, 0x2219, 0x00B7, 0x221A, 0x207F, 0x00B2, 0x25A0, 0x00A0]

/-- `append_utf8` of the encoder, for characters below `0x10000`. -/
def appendUtf8 (out : Bytes) (cp : ℕ) : Bytes :=
  if cp ≤ 0x7F then out ++ [.ofNat cp]
  else if cp ≤ 0x7FF then out ++ [.ofNat (0xC0 ||| cp >>> 6), .ofNat (0x80 ||| cp &&& 0x3F)]
  else out ++ [.ofNat (0xE0 ||| cp >>> 12), .ofNat (0x80 ||| cp >>> 6 &&& 0x3F),
    .ofNat (0x80 ||| cp &&& 0x3F)]

def cp437 (b : UInt8) : ℕ := if b < 0x80 then b.toNat else cp437High.getD (b - 0x80).toNat 0

def decodeCp437 (raw : Bytes) : Bytes := raw.foldl (fun out b ↦ appendUtf8 out (cp437 b)) []

def decodeZipEntryName (raw : Bytes) (utf8Flag : Bool) : Bytes :=
  if utf8Flag || isValidUtf8 raw then raw else decodeCp437 raw

/-- Each byte has a character. -/
theorem appendUtf8_cp437 (b : UInt8) : (cp437 b).isValidChar ∧ appendUtf8 [] (cp437 b) = encodeNat (cp437 b) :=
  forall_byte (P := fun b ↦ (cp437 b).isValidChar ∧ appendUtf8 [] (cp437 b) = encodeNat (cp437 b))
    (by decide +kernel) b

theorem appendUtf8_eq (out : Bytes) (cp : ℕ) : appendUtf8 out cp = out ++ appendUtf8 [] cp := by
  rw [appendUtf8, appendUtf8]
  split_ifs <;> rfl

theorem wellFormed_decodeCp437 (raw : Bytes) : WellFormed (decodeCp437 raw) := by
  have hfrom : ∀ out, WellFormed out → WellFormed (raw.foldl (fun out b ↦ appendUtf8 out (cp437 b)) out) := by
    induction raw with
    | nil => exact fun out h ↦ h
    | cons b raw ih =>
      intro out h
      obtain ⟨hvalid, hchar⟩ := appendUtf8_cp437 b
      refine ih _ ?_
      change WellFormed (appendUtf8 out (cp437 b))
      rw [appendUtf8_eq, hchar]
      exact h.append (wellFormed_encodeNat hvalid)
  exact hfrom [] wellFormed_nil

end ZipEncoding

end SafeVault
