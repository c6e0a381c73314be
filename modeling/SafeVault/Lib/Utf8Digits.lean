import Mathlib.Tactic.IntervalCases
import Mathlib.Tactic.Ring
import SafeVault.Lib.Utf8

/-!
# The encoding by digits

Behind the first byte of a character stand the lower digits of its number to the base `64`, one in each
continuation byte, and the first byte holds what is left and says how many digits follow. A number has
as many digits as it needs and no more; together with the range of characters this makes the encoding
of a character the only string of this form with its number.
-/

namespace SafeVault

namespace Utf8

/-- A string of characters. -/
def WellFormed (b : List UInt8) : Prop := ∃ cs : List Char, b = encode cs

theorem wellFormed_nil : WellFormed [] := ⟨[], rfl⟩

theorem WellFormed.append {a b : List UInt8} (ha : WellFormed a) (hb : WellFormed b) :
    WellFormed (a ++ b) := by
  obtain ⟨cs, rfl⟩ := ha
  obtain ⟨ds, rfl⟩ := hb
  exact ⟨cs ++ ds, (encode_append cs ds).symm⟩

theorem wellFormed_char (c : Char) : WellFormed (String.utf8EncodeChar c) :=
  ⟨[c], (List.append_nil _).symm⟩

/-! ## Digits -/

/-- The number of digits behind the first byte. -/
def tailCount (v : ℕ) : ℕ := if v < 0x80 then 0 else if v < 0x800 then 1 else if v < 0x10000 then 2 else 3

/-- What the first byte adds to what it holds. -/
def leadOffset : ℕ → ℕ
  | 0 => 0
  | 1 => 0xC0
  | 2 => 0xE0
  | _ => 0xF0

/-- The lower digits of a number, the highest of them first. -/
def tailBytes : ℕ → ℕ → List UInt8
  | 0, _ => []
  | t + 1, v => UInt8.ofNat (0x80 + v / 64 ^ t % 64) :: tailBytes t v

/-- A number with its digits. -/
def encodeNat (v : ℕ) : List UInt8 :=
  UInt8.ofNat (leadOffset (tailCount v) + v / 64 ^ tailCount v) :: tailBytes (tailCount v) v

/-- The number that the digits add to what the first byte holds. -/
def readTails (u : ℕ) (ts : List UInt8) : ℕ := ts.foldl (fun v b ↦ v * 64 + b.toNat % 64) u

variable {t u v : ℕ} {ts : List UInt8}

@[simp] theorem length_tailBytes (t v : ℕ) : (tailBytes t v).length = t := by
  induction t with
  | zero => rfl
  | succ t ih => rw [tailBytes, List.length_cons, ih]

theorem isCont_of_mem_tailBytes {b : UInt8} (h : b ∈ tailBytes t v) : isCont b = true := by
  induction t with
  | zero => exact absurd h List.not_mem_nil
  | succ t ih =>
    rcases List.mem_cons.mp h with rfl | h
    · have hlt : 0x80 + v / 64 ^ t % 64 < UInt8.size := show _ < 256 by omega
      rw [isCont_iff, UInt8.toNat_ofNat_of_lt' hlt]
      omega
    · exact ih h

theorem readTails_cons {b : UInt8} : readTails u (b :: ts) = readTails (u * 64 + b.toNat % 64) ts := rfl

/-- Reading puts the digits behind what is there. -/
theorem readTails_div : readTails u ts / 64 ^ ts.length = u := by
  induction ts generalizing u with
  | nil => exact Nat.div_one u
  | cons b ts ih =>
    rw [readTails_cons, List.length_cons, pow_succ, ← Nat.div_div_eq_div_mul, ih]
    omega

theorem readTails_tailBytes (t u v : ℕ) : readTails u (tailBytes t v) = u * 64 ^ t + v % 64 ^ t := by
  induction t generalizing u with
  | zero => rw [tailBytes, pow_zero, Nat.mod_one, mul_one, add_zero]; rfl
  | succ t ih =>
    have hlt : 0x80 + v / 64 ^ t % 64 < UInt8.size := show _ < 256 by omega
    have hdigit : (0x80 + v / 64 ^ t % 64) % 64 = v / 64 ^ t % 64 := by omega
    rw [tailBytes, readTails_cons, UInt8.toNat_ofNat_of_lt' hlt, hdigit, ih, pow_succ, Nat.mod_mul]
    ring

/-- The digits that have been read are the digits of the number. -/
theorem tailBytes_readTails (h : ∀ b ∈ ts, isCont b = true) : tailBytes ts.length (readTails u ts) = ts := by
  induction ts generalizing u with
  | nil => rfl
  | cons b ts ih =>
    obtain ⟨hb, hts⟩ := List.forall_mem_cons.mp h
    rw [List.length_cons, readTails_cons, tailBytes, ih hts, readTails_div]
    rw [isCont_iff] at hb
    have hdigit : 0x80 + (u * 64 + b.toNat % 64) % 64 = b.toNat := by omega
    rw [hdigit, UInt8.ofNat_toNat]

/-! ## Characters -/

theorem toNat_lt (c : Char) : c.toNat < 0x110000 := by
  rcases c.valid with h | ⟨-, h⟩
  · exact Nat.lt_trans h (by decide)
  · exact h

theorem tailBytes_eq (v : ℕ) : tailBytes 1 v = [UInt8.ofNat (0x80 + v % 64)] ∧
    tailBytes 2 v = [UInt8.ofNat (0x80 + v / 64 % 64), UInt8.ofNat (0x80 + v % 64)] ∧
    tailBytes 3 v = [UInt8.ofNat (0x80 + v / 4096 % 64), UInt8.ofNat (0x80 + v / 64 % 64),
      UInt8.ofNat (0x80 + v % 64)] := by
  simp [tailBytes]

theorem tailCount_le (v : ℕ) : tailCount v ≤ 3 := by
  rw [tailCount]
  split_ifs <;> decide

/-- The smallest number with so many digits. -/
def leastWith : ℕ → ℕ
  | 0 => 0
  | 1 => 0x80
  | 2 => 0x800
  | _ => 0x10000

theorem leastWith_le (v : ℕ) : leastWith (tailCount v) ≤ v := by
  rw [tailCount]
  split_ifs with h1 h2 h3
  · exact Nat.zero_le v
  · exact Nat.le_of_not_lt h1
  · exact Nat.le_of_not_lt h2
  · exact Nat.le_of_not_lt h3

/-- What the first byte can hold when so many digits follow. -/
def leadRoom : ℕ → ℕ
  | 0 => 0x80
  | 1 => 32
  | 2 => 16
  | _ => 8

theorem lead_lt (h : v < 0x110000) : v / 64 ^ tailCount v < leadRoom (tailCount v) := by
  rw [tailCount]
  split_ifs with h1 h2 h3
  · rwa [pow_zero, Nat.div_one]
  · exact (Nat.div_lt_iff_lt_mul (by decide)).mpr h2
  · exact (Nat.div_lt_iff_lt_mul (by decide)).mpr h3
  · exact (Nat.div_lt_iff_lt_mul (by decide)).mpr (Nat.lt_trans h (by decide))

/-- The number of digits that a number has is the one with which it is in the range. -/
theorem tailCount_eq (ht : t ≤ 3) (hleast : leastWith t ≤ v) (hroom : v / 64 ^ t < leadRoom t) :
    tailCount v = t := by
  rw [tailCount]
  have hpow : 0 < 64 ^ t := Nat.pow_pos (by decide)
  rw [Nat.div_lt_iff_lt_mul hpow] at hroom
  match t, ht with
  | 0, _ => exact if_pos hroom
  | 1, _ =>
    have hleast' : 0x80 ≤ v := hleast
    have hroom' : v < 0x800 := hroom
    rw [if_neg (by omega), if_pos hroom']
  | 2, _ =>
    have hleast' : 0x800 ≤ v := hleast
    have hroom' : v < 0x10000 := hroom
    rw [if_neg (by omega), if_neg (by omega), if_pos hroom']
  | 3, _ =>
    have hleast' : 0x10000 ≤ v := hleast
    rw [if_neg (by omega), if_neg (by omega), if_neg (by omega)]

/-- The encoding of a character is its number with its digits. -/
theorem utf8EncodeChar_eq (c : Char) : String.utf8EncodeChar c = encodeNat c.toNat := by
  have hmax := toNat_lt c
  obtain ⟨hone, htwo, hthree⟩ := tailBytes_eq c.toNat
  rw [String.utf8EncodeChar, encodeNat]
  simp only [Char.toNat] at hmax hone htwo hthree ⊢
  split_ifs with h1 h2 h3
  · rw [tailCount_eq (t := 0) (by decide) (Nat.zero_le _) (by rw [pow_zero, Nat.div_one]; exact Nat.lt_succ_of_le h1)]
    simp [leadOffset, tailBytes]
  · have hlead : c.val.toNat / 64 % 0x20 + 0xC0 = 0xC0 + c.val.toNat / 64 ^ 1 := by omega
    rw [tailCount_eq (t := 1) (by decide) (Nat.lt_of_not_le h1) (show _ < _ from by simp only [leadRoom]; omega),
      hone, leadOffset, hlead, Nat.add_comm (_ % 0x40)]
  · have hlead : c.val.toNat / 4096 % 0x10 + 0xE0 = 0xE0 + c.val.toNat / 64 ^ 2 := by omega
    rw [tailCount_eq (t := 2) (by decide) (Nat.lt_of_not_le h2) (show _ < _ from by simp only [leadRoom]; omega),
      htwo, leadOffset, hlead, Nat.add_comm (c.val.toNat / 64 % 0x40), Nat.add_comm (c.val.toNat % 0x40)]
  · have hlead : c.val.toNat / 262144 % 0x08 + 0xF0 = leadOffset 3 + c.val.toNat / 64 ^ 3 := by
      simp only [leadOffset]
      omega
    rw [tailCount_eq (t := 3) (by decide) (Nat.lt_of_not_le h3) (show _ < 8 by omega),
      hthree, hlead, Nat.add_comm (c.val.toNat / 4096 % 0x40),
      Nat.add_comm (c.val.toNat / 64 % 0x40), Nat.add_comm (c.val.toNat % 0x40)]

/-- A number that is in the range of characters. -/
theorem wellFormed_encodeNat (h : v.isValidChar) : WellFormed (encodeNat v) := by
  have hc := utf8EncodeChar_eq (Char.ofNatAux v h)
  rw [show (Char.ofNatAux v h).toNat = v from rfl] at hc
  exact hc ▸ wellFormed_char _

/-- What has the form of an encoding, and not too many digits, is the encoding of its number. -/
theorem encodeNat_readTails (h : ∀ b ∈ ts, isCont b = true) (ht : ts.length ≤ 3)
    (hu : u < leadRoom ts.length) (hleast : leastWith ts.length ≤ readTails u ts) :
    encodeNat (readTails u ts) = UInt8.ofNat (leadOffset ts.length + u) :: ts := by
  have hcount := tailCount_eq ht hleast (by rwa [readTails_div])
  rw [encodeNat, hcount, readTails_div, tailBytes_readTails h]

theorem toNat_lead (ht : t ≤ 3) (hu : u < leadRoom t) :
    (UInt8.ofNat (leadOffset t + u)).toNat = leadOffset t + u := by
  refine UInt8.toNat_ofNat_of_lt' (show _ < 256 from ?_)
  interval_cases t <;> simp [leadOffset, leadRoom] at hu ⊢ <;> omega

theorem le_leadOffset (ht : 1 ≤ t) : 0xC0 ≤ leadOffset t := by
  match t with
  | 1 | 2 | _ + 3 => simp [leadOffset]

/-- What is read behind the first byte makes up the number. -/
theorem readTails_encodeNat (v : ℕ) :
    readTails (v / 64 ^ tailCount v) (tailBytes (tailCount v) v) = v := by
  rw [readTails_tailBytes, Nat.mul_comm, Nat.div_add_mod]

theorem isValidChar_toNat (c : Char) : c.toNat < 0xD800 ∨ 0xDFFF < c.toNat ∧ c.toNat < 0x110000 := c.valid

/-! ## Code units -/

/-- A character in UTF-16. -/
def codeUnits (v : ℕ) : List ℕ :=
  if 0x10000 ≤ v then [0xD800 + (v - 0x10000) / 0x400, 0xDC00 + (v - 0x10000) % 0x400] else [v]

theorem tailCount_eq_three : tailCount v = 3 ↔ 0x10000 ≤ v := by
  rw [tailCount]
  split_ifs with h1 h2 h3
  · exact iff_of_false (by decide) (by omega)
  · exact iff_of_false (by decide) (by omega)
  · exact iff_of_false (by decide) (by omega)
  · exact iff_of_true rfl (Nat.le_of_not_lt h3)

/-- No character takes more code units than bytes. -/
theorem length_codeUnits_le (v : ℕ) : (codeUnits v).length ≤ (encodeNat v).length := by
  rw [codeUnits, encodeNat, List.length_cons, length_tailBytes]
  split_ifs with h
  · rw [tailCount_eq_three.mpr h, List.length_cons, List.length_singleton]
    decide
  · exact Nat.le_add_left _ _

end Utf8

end SafeVault
