import SafeVault.Ui.ZipEncoding

/-!
# Strings for the decoder of 7z archives

The decoder takes its strings in UTF-16, in a buffer with its length in front. The text is gone through
twice: the code units are counted, a buffer is allocated for so many, and they are written into it. The
other way there is one pass, which joins the two halves of a character outside the basic plane.

The allocator is a parameter; what it returns has room for as many code units as were asked for. The
contents of new memory are not known. A read beyond the text or a write beyond the buffer is `none`.
-/

namespace SafeVault

namespace Bstr

open Utf8 ZipEncoding

/-- The largest `UINT`. -/
def uintMax : ℕ := 2 ^ 32 - 1

/-! ## From UTF-8 -/

def countByte (count : UInt32) (byte : UInt8) : UInt32 :=
  let count := if byte &&& 0xC0 ≠ 0x80 then count + 1 else count
  if 0xF0 ≤ byte then count + 1 else count

/-- What a first byte holds, and how many bytes follow. -/
def firstByte (first : UInt8) : ℕ × ℕ :=
  if 0xF0 ≤ first then ((first &&& 7).toNat, 3)
  else if 0xE0 ≤ first then ((first &&& 15).toNat, 2)
  else if 0xC0 ≤ first then ((first &&& 31).toNat, 1)
  else (first.toNat, 0)

/-- `result[out] = unit`. -/
def put (result : List ℕ) (out unit : ℕ) : Option (List ℕ) :=
  if out < result.length then some (result.set out unit) else none

/-- The second pass, from the rest of the text on. -/
def writeUnits : Bytes → ℕ → List ℕ → Option (List ℕ)
  | [], _, result => some result
  | first :: rest, out, result =>
    if rest.length < (firstByte first).2 then none
    else
      let cp := (rest.take (firstByte first).2).foldl addBits (firstByte first).1
      if 0x10000 ≤ cp then do
        let result ← put result out (0xD800 + (cp - 0x10000) >>> 10)
        let result ← put result (out + 1) (0xDC00 + ((cp - 0x10000) &&& 0x3FF))
        writeUnits (rest.drop (firstByte first).2) (out + 2) result
      else do
        let result ← put result out cp
        writeUnits (rest.drop (firstByte first).2) (out + 1) result
  termination_by text => text.length
  decreasing_by all_goals rw [List.length_drop, List.length_cons]; omega

/-- `utf8_bstr`; without a buffer there is no string. -/
def utf8Bstr (sysAllocStringLen : ℕ → Option (List ℕ)) (text : Bytes) : Option (Option (List ℕ)) :=
  if !isValidUtf8 text || text.length > uintMax then some none
  else
    match sysAllocStringLen (text.foldl countByte 0).toNat with
    | none => some none
    | some result => (writeUnits text 0 result).map some

/-! ## To UTF-8 -/

def tailsOf : ℕ → ℕ → Bytes
  | 0, _ => []
  | tails + 1, cp => .ofNat (0x80 ||| cp >>> (6 * tails) &&& 63) :: tailsOf tails cp

/-- `append_utf8` of the reader. -/
def appendUtf8 (cp : ℕ) : Bytes :=
  if cp < 0x80 then [.ofNat cp]
  else
    let (tails, lead) := if 0x10000 ≤ cp then (3, 0xF0) else if 0x800 ≤ cp then (2, 0xE0) else (1, 0xC0)
    .ofNat (lead ||| cp >>> (6 * tails)) :: tailsOf tails cp

def bstrUtf8 : List ℕ → Bytes
  | [] => []
  | [cp] => appendUtf8 cp
  | cp :: low :: text =>
    if (0xD800 ≤ cp ∧ cp ≤ 0xDBFF) ∧ (0xDC00 ≤ low ∧ low ≤ 0xDFFF) then
      appendUtf8 (0x10000 + (cp - 0xD800) <<< 10 + low - 0xDC00) ++ bstrUtf8 text
    else appendUtf8 cp ++ bstrUtf8 (low :: text)

/-! ## Counting -/

theorem countByte_eq (count : UInt32) (b : UInt8) : countByte count b =
    count + UInt32.ofNat ((if isCont b then 0 else 1) + if 0xF0 ≤ b.toNat then 1 else 0) := by
  have hcont : (b &&& 0xC0 = 0x80) ↔ isCont b = true := by rw [isCont, beq_iff_eq]
  have hhigh : (0xF0 ≤ b) ↔ 0xF0 ≤ b.toNat := UInt8.le_iff_toNat_le
  simp only [countByte, ne_eq, hcont, hhigh, ite_not]
  split_ifs <;> simp [UInt32.add_assoc]

theorem firstByte_eq (b : UInt8) : firstByte b =
    if 0xF0 ≤ b.toNat then (b.toNat % 8, 3)
    else if 0xE0 ≤ b.toNat then (b.toNat % 16, 2)
    else if 0xC0 ≤ b.toNat then (b.toNat % 32, 1)
    else (b.toNat, 0) :=
  forall_byte (P := fun b ↦ firstByte b =
    if 0xF0 ≤ b.toNat then (b.toNat % 8, 3)
    else if 0xE0 ≤ b.toNat then (b.toNat % 16, 2)
    else if 0xC0 ≤ b.toNat then (b.toNat % 32, 1)
    else (b.toNat, 0)) (by decide +kernel) b

/-- What the first byte of a character says. -/
theorem lead_spec {t u : ℕ} {b : UInt8} (ht : t ≤ 3) (hu : u < leadRoom t) (hb : b.toNat = leadOffset t + u) :
    isCont b = false ∧ (0xF0 ≤ b.toNat ↔ t = 3) ∧ firstByte b = (u, t) := by
  rw [firstByte_eq, Bool.eq_false_iff, ne_eq, isCont_iff]
  interval_cases t <;> simp only [leadOffset, leadRoom] at hu hb
  · rw [if_neg (by omega), if_neg (by omega), if_neg (by omega)]
    exact ⟨by omega, by omega, by rw [hb, Nat.zero_add]⟩
  · rw [if_neg (by omega), if_neg (by omega), if_pos (by omega)]
    exact ⟨by omega, by omega, by rw [show b.toNat % 32 = u by omega]⟩
  · rw [if_neg (by omega), if_pos (by omega)]
    exact ⟨by omega, by omega, by rw [show b.toNat % 16 = u by omega]⟩
  · rw [if_pos (by omega)]
    exact ⟨by omega, by omega, by rw [show b.toNat % 8 = u by omega]⟩

/-- The bytes of a character count for its code units. -/
theorem foldl_countByte_char (c : Char) (count : UInt32) :
    (String.utf8EncodeChar c).foldl countByte count = count + UInt32.ofNat (codeUnits c.toNat).length := by
  have htails : ∀ (ts : Bytes) (count : UInt32), (∀ b ∈ ts, isCont b = true) →
      ts.foldl countByte count = count := by
    intro ts
    induction ts with
    | nil => exact fun _ _ ↦ rfl
    | cons b ts ih =>
      intro count h
      obtain ⟨hb, hts⟩ := List.forall_mem_cons.mp h
      have hlow := (isCont_iff.mp hb).2
      rw [List.foldl_cons, countByte_eq, if_pos hb, if_neg (by omega), ih _ hts]
      exact UInt32.add_zero count
  have hcount := tailCount_le c.toNat
  have hroom := lead_lt (toNat_lt c)
  obtain ⟨hcont, hhigh, -⟩ := lead_spec hcount hroom (toNat_lead hcount hroom)
  rw [utf8EncodeChar_eq, encodeNat, List.foldl_cons, htails _ _ fun b ↦ isCont_of_mem_tailBytes,
    countByte_eq, if_neg (by rw [hcont]; decide), codeUnits]
  by_cases h : 0x10000 ≤ c.toNat
  · rw [if_pos ((hhigh.trans tailCount_eq_three).mpr h), if_pos h]
    rfl
  · rw [if_neg (fun hle ↦ h ((hhigh.trans tailCount_eq_three).mp hle)), if_neg h]
    rfl

theorem foldl_countByte (cs : List Char) (count : UInt32) : (encode cs).foldl countByte count =
    count + UInt32.ofNat (cs.flatMap fun c ↦ codeUnits c.toNat).length := by
  induction cs generalizing count with
  | nil => exact (UInt32.add_zero count).symm
  | cons c cs ih =>
    rw [encode_cons, List.foldl_append, foldl_countByte_char, ih, List.flatMap_cons, List.length_append,
      UInt32.ofNat_add, UInt32.add_assoc]

theorem length_units_le (cs : List Char) :
    (cs.flatMap fun c ↦ codeUnits c.toNat).length ≤ (encode cs).length := by
  induction cs with
  | nil => exact Nat.le_refl 0
  | cons c cs ih =>
    rw [List.flatMap_cons, encode_cons, List.length_append, List.length_append, utf8EncodeChar_eq]
    exact Nat.add_le_add (length_codeUnits_le _) ih

/-! ## Writing -/

variable {done olds slack : List ℕ}

theorem put_append (done slack : List ℕ) (unit old : ℕ) :
    put (done ++ old :: slack) done.length unit = some (done ++ unit :: slack) := by
  rw [put, if_pos (by rw [List.length_append, List.length_cons]; omega), List.set_append_right _ _ le_rfl,
    Nat.sub_self, List.set_cons_zero]

/-- The code units of a character take the place of what was there. -/
theorem writeUnits_char (c : Char) (rest : Bytes) (h : olds.length = (codeUnits c.toNat).length) :
    writeUnits (String.utf8EncodeChar c ++ rest) done.length (done ++ (olds ++ slack)) =
      writeUnits rest (done ++ codeUnits c.toNat).length (done ++ codeUnits c.toNat ++ slack) := by
  have hcount := tailCount_le c.toNat
  have hroom := lead_lt (toNat_lt c)
  obtain ⟨-, -, hfirst⟩ := lead_spec hcount hroom (toNat_lead hcount hroom)
  have hlength := length_tailBytes (tailCount c.toNat) c.toNat
  rw [utf8EncodeChar_eq, encodeNat, List.cons_append, writeUnits, hfirst]
  simp only [List.take_left' hlength, List.drop_left' hlength, foldl_addBits, readTails_encodeNat]
  rw [if_neg (by rw [List.length_append, hlength]; omega)]
  rw [codeUnits] at h ⊢
  split_ifs at h ⊢ with hhigh
  · obtain ⟨old, old', rfl⟩ := List.length_eq_two.mp h
    have hhalf : (c.toNat - 0x10000) >>> 10 = (c.toNat - 0x10000) / 0x400 := Nat.shiftRight_eq_div_pow _ 10
    have hlow : (c.toNat - 0x10000) &&& 0x3FF = (c.toNat - 0x10000) % 0x400 :=
      Nat.and_two_pow_sub_one_eq_mod _ 10
    rw [hhalf, hlow]
    generalize 0xD800 + (c.toNat - 0x10000) / 0x400 = high, 0xDC00 + (c.toNat - 0x10000) % 0x400 = low
    have hsecond := put_append (done ++ [high]) slack low old'
    simp only [List.length_append, List.length_singleton, List.append_assoc, List.cons_append,
      List.nil_append] at hsecond
    simp only [List.cons_append, List.nil_append, put_append, Option.bind_eq_bind, Option.bind_some, hsecond,
      List.append_assoc, List.length_append, List.length_cons, List.length_nil, Nat.zero_add]
  · obtain ⟨old, rfl⟩ := List.length_eq_one_iff.mp h
    simp only [List.cons_append, List.nil_append, put_append, Option.bind_eq_bind, Option.bind_some,
      List.append_assoc, List.length_append, List.length_cons, List.length_nil, Nat.zero_add]

/-- Where there is room for just so many, all of the buffer is written, and nothing beyond. -/
theorem writeUnits_encode (cs : List Char) (h : olds.length = (cs.flatMap fun c ↦ codeUnits c.toNat).length) :
    writeUnits (encode cs) done.length (done ++ olds) =
      some (done ++ cs.flatMap fun c ↦ codeUnits c.toNat) := by
  induction cs generalizing done olds with
  | nil =>
    rw [List.eq_nil_of_length_eq_zero h, encode_nil, writeUnits]
    rfl
  | cons c cs ih =>
    rw [List.flatMap_cons, List.length_append] at h
    have htake : (olds.take (codeUnits c.toNat).length).length = (codeUnits c.toNat).length := by
      rw [List.length_take]
      omega
    have hdrop : (olds.drop (codeUnits c.toNat).length).length =
        (cs.flatMap fun c ↦ codeUnits c.toNat).length := by
      rw [List.length_drop]
      omega
    rw [← List.take_append_drop (codeUnits c.toNat).length olds, encode_cons, writeUnits_char c _ htake,
      ih hdrop, List.flatMap_cons, List.append_assoc]

/-! ## Reading -/

theorem tailsOf_eq (t v : ℕ) : tailsOf t v = tailBytes t v := by
  induction t with
  | zero => rfl
  | succ t ih =>
    have hpow : v >>> (6 * t) = v / 64 ^ t := by rw [Nat.shiftRight_eq_div_pow, Nat.pow_mul]
    have hmod : v / 64 ^ t &&& 63 = v / 64 ^ t % 64 := Nat.and_two_pow_sub_one_eq_mod _ 6
    have hor : ∀ x < 64, 0x80 ||| x = 0x80 + x := by decide
    rw [tailsOf, tailBytes, ih, hpow, hmod, hor _ (Nat.mod_lt _ (by decide))]

theorem appendUtf8_eq {v : ℕ} (h : v < 0x110000) : appendUtf8 v = encodeNat v := by
  have hroom := lead_lt h
  have hor : ∀ x < 32, 0xC0 ||| x = 0xC0 + x := by decide
  have hor' : ∀ x < 16, 0xE0 ||| x = 0xE0 + x := by decide
  have hor'' : ∀ x < 8, 0xF0 ||| x = 0xF0 + x := by decide
  have hpow : ∀ t, v >>> (6 * t) = v / 64 ^ t := fun t ↦ by rw [Nat.shiftRight_eq_div_pow, Nat.pow_mul]
  rcases Nat.lt_or_ge v 0x80 with h1 | h1
  · have hcount : tailCount v = 0 := by rw [tailCount, if_pos h1]
    rw [appendUtf8, if_pos h1, encodeNat, hcount, pow_zero, Nat.div_one, leadOffset, Nat.zero_add, tailBytes]
  rw [appendUtf8, if_neg (Nat.not_lt.mpr h1), encodeNat]
  simp only [tailsOf_eq, hpow]
  rcases Nat.lt_or_ge v 0x800 with h2 | h2
  · have hcount : tailCount v = 1 := by rw [tailCount, if_neg (by omega), if_pos h2]
    rw [hcount] at hroom ⊢
    rw [if_neg (by omega), if_neg (by omega), hor _ hroom, leadOffset]
  rcases Nat.lt_or_ge v 0x10000 with h3 | h3
  · have hcount : tailCount v = 2 := by rw [tailCount, if_neg (by omega), if_neg (by omega), if_pos h3]
    rw [hcount] at hroom ⊢
    rw [if_neg (by omega), if_pos h2, hor' _ hroom, leadOffset]
  · rw [tailCount_eq_three.mpr h3] at hroom ⊢
    rw [if_pos h3, hor'' _ hroom]
    rfl

theorem bstrUtf8_cons {cp : ℕ} (h : cp < 0xD800 ∨ 0xDBFF < cp) (text : List ℕ) :
    bstrUtf8 (cp :: text) = appendUtf8 cp ++ bstrUtf8 text := by
  match text with
  | [] => rw [bstrUtf8, bstrUtf8, List.append_nil]
  | low :: text => rw [bstrUtf8, if_neg (by omega)]

/-- The code units of a character are read back. -/
theorem bstrUtf8_char (c : Char) (text : List ℕ) :
    bstrUtf8 (codeUnits c.toNat ++ text) = String.utf8EncodeChar c ++ bstrUtf8 text := by
  have hmax := toNat_lt c
  have hrange := isValidChar_toNat c
  rw [utf8EncodeChar_eq, ← appendUtf8_eq hmax, codeUnits]
  split_ifs with hhigh
  · have hjoin : 0x10000 + (0xD800 + (c.toNat - 0x10000) / 0x400 - 0xD800) <<< 10 +
        (0xDC00 + (c.toNat - 0x10000) % 0x400) - 0xDC00 = c.toNat := by
      rw [Nat.shiftLeft_eq]
      omega
    rw [List.cons_append, List.cons_append, List.nil_append, bstrUtf8, if_pos (by omega), hjoin]
  · exact bstrUtf8_cons (by omega) text

theorem bstrUtf8_units (cs : List Char) :
    bstrUtf8 (cs.flatMap fun c ↦ codeUnits c.toNat) = encode cs := by
  induction cs with
  | nil => rfl
  | cons c cs ih => rw [List.flatMap_cons, bstrUtf8_char, ih, encode_cons]

/-! ## The conversions -/

variable {sysAllocStringLen : ℕ → Option (List ℕ)}

/-- What comes of a text that is not too long: its code units, if there is a buffer. -/
theorem utf8Bstr_encode (halloc : ∀ n buffer, sysAllocStringLen n = some buffer → buffer.length = n)
    (cs : List Char) (hlong : (encode cs).length ≤ uintMax) : utf8Bstr sysAllocStringLen (encode cs) =
      some ((sysAllocStringLen (cs.flatMap fun c ↦ codeUnits c.toNat).length).map fun _ ↦
        cs.flatMap fun c ↦ codeUnits c.toNat) := by
  have hcount : ((encode cs).foldl countByte 0).toNat = (cs.flatMap fun c ↦ codeUnits c.toNat).length := by
    have hlt : (cs.flatMap fun c ↦ codeUnits c.toNat).length < UInt32.size :=
      Nat.lt_of_le_of_lt ((length_units_le cs).trans hlong) (by decide)
    rw [foldl_countByte, UInt32.zero_add, UInt32.toNat_ofNat_of_lt' hlt]
  rw [utf8Bstr, (isValidUtf8_iff _).mpr ⟨cs, rfl⟩, if_neg (by simpa using hlong), hcount]
  cases hbuffer : sysAllocStringLen (cs.flatMap fun c ↦ codeUnits c.toNat).length with
  | none => rfl
  | some buffer =>
    have hwritten := @writeUnits_encode [] buffer cs (halloc _ _ hbuffer)
    rw [List.nil_append, List.nil_append, List.length_nil] at hwritten
    exact congrArg (Option.map some) hwritten

/-- **The conversions between encodings.** The validator accepts the strings of characters; a name comes
out unchanged if it is one or if the entry says so, and is a string of characters unless the entry says so; a
string for the decoder has the code units of the text and is as long as there are, no place beyond it is
written, and reading it gives the text. -/
theorem conversions (halloc : ∀ n buffer, sysAllocStringLen n = some buffer → buffer.length = n) :
    (∀ s, isValidUtf8 s = true ↔ WellFormed s) ∧
    (∀ raw utf8Flag, WellFormed raw → decodeZipEntryName raw utf8Flag = raw) ∧
    (∀ raw, WellFormed (decodeZipEntryName raw false) ∧ decodeZipEntryName raw true = raw) ∧
    ∀ text, (¬WellFormed text ∨ uintMax < text.length → utf8Bstr sysAllocStringLen text = some none) ∧
      ∀ cs, text = encode cs → text.length ≤ uintMax →
        utf8Bstr sysAllocStringLen text =
          some ((sysAllocStringLen (cs.flatMap fun c ↦ codeUnits c.toNat).length).map fun _ ↦
            cs.flatMap fun c ↦ codeUnits c.toNat) ∧
        bstrUtf8 (cs.flatMap fun c ↦ codeUnits c.toNat) = text := by
  refine ⟨isValidUtf8_iff, ?_, fun raw ↦ ⟨?_, rfl⟩, fun text ↦ ⟨?_, ?_⟩⟩
  · intro raw utf8Flag h
    rw [decodeZipEntryName, (isValidUtf8_iff raw).mpr h, Bool.or_true, if_pos rfl]
  · rw [decodeZipEntryName, Bool.false_or]
    split_ifs with h
    · exact (isValidUtf8_iff raw).mp h
    · exact wellFormed_decodeCp437 raw
  · intro h
    rw [utf8Bstr, if_pos]
    rw [Bool.or_eq_true, Bool.not_eq_true', decide_eq_true_eq]
    exact h.imp (fun hnot ↦ Bool.eq_false_iff.mpr fun hok ↦ hnot ((isValidUtf8_iff text).mp hok)) id
  · rintro cs rfl hlong
    exact ⟨utf8Bstr_encode halloc cs hlong, bstrUtf8_units cs⟩

theorem conversions_emoji :
    utf8Bstr (fun n ↦ some (List.replicate n 0)) [0x61, 0xC3, 0xA9, 0xF0, 0x9F, 0x98, 0x80] =
      some (some [0x61, 0xE9, 0xD83D, 0xDE00]) ∧
    bstrUtf8 [0x61, 0xE9, 0xD83D, 0xDE00] = [0x61, 0xC3, 0xA9, 0xF0, 0x9F, 0x98, 0x80] := by
  have halloc : ∀ n (buffer : List ℕ), some (List.replicate n 0) = some buffer → buffer.length = n := by
    rintro n buffer ⟨⟩
    exact List.length_replicate
  obtain ⟨-, -, -, h⟩ := conversions halloc
  exact (h _).2 ['a', 'é', '😀'] (by decide) (by decide)

/-- A name that the entry calls UTF-8 comes out as it is. -/
theorem name_not_text : ¬∀ raw utf8Flag, WellFormed (decodeZipEntryName raw utf8Flag) := by
  intro h
  have hvalid := (isValidUtf8_iff _).mpr (h [0xFF] true)
  rw [decodeZipEntryName, Bool.true_or, if_pos rfl, isValidUtf8] at hvalid
  revert hvalid
  decide

end Bstr

end SafeVault
