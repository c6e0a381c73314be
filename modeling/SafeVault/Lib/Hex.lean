import SafeVault.Lib.AsciiFold

/-!
# Bytes in hexadecimal

A byte is written as two digits, the high half first, with letters in lower case. Reading takes these
digits only, so that a text in hexadecimal stands for one string of bytes and has one spelling.
-/

namespace SafeVault

/-- The digit of the low half of a byte. -/
def hexDigit (n : UInt8) : UInt8 :=
  [48, 49, 50, 51, 52, 53, 54, 55, 56, 57, 97, 98, 99, 100, 101, 102].getD (n &&& 15).toNat 0

/-- What a digit stands for; upper-case letters are no digits. -/
def hexValue (c : UInt8) : Option UInt8 :=
  if 48 ≤ c ∧ c ≤ 57 then some (c - 48)
  else if 97 ≤ c ∧ c ≤ 102 then some (c - 97 + 10)
  else none

def hexEncode (bs : Bytes) : Bytes := List.flatMap (fun b : UInt8 ↦ [hexDigit (b >>> 4), hexDigit b]) bs

def hexDecode : Bytes → Option Bytes
  | [] => some []
  | [_] => none
  | c :: d :: cs => do
    let hi ← hexValue c
    let lo ← hexValue d
    let rest ← hexDecode cs
    return (hi <<< 4 ||| lo) :: rest

@[simp] theorem hexEncode_nil : hexEncode [] = [] := rfl

@[simp] theorem hexEncode_cons (b : UInt8) (bs : Bytes) :
    hexEncode (b :: bs) = hexDigit (b >>> 4) :: hexDigit b :: hexEncode bs := rfl

@[simp] theorem length_hexEncode (bs : Bytes) : (hexEncode bs).length = 2 * bs.length := by
  induction bs with
  | nil => rfl
  | cons b bs ih =>
    rw [hexEncode_cons, List.length_cons, List.length_cons, ih, List.length_cons]
    omega

/-! ## Digits -/

/-- What holds of all bytes can be tried out. -/
theorem forall_byte {P : UInt8 → Prop} (h : ∀ n : Fin 256, P (UInt8.ofNat n)) (b : UInt8) : P b := by
  have hb := h ⟨b.toNat, b.toNat_lt⟩
  rwa [UInt8.ofNat_toNat] at hb

theorem hexValue_hexDigit (b : UInt8) : hexValue (hexDigit b) = some (b &&& 15) :=
  forall_byte (P := fun b ↦ hexValue (hexDigit b) = some (b &&& 15)) (by decide +kernel) b

theorem shift_or_and (b : UInt8) : (b >>> 4 &&& 15) <<< 4 ||| b &&& 15 = b :=
  forall_byte (P := fun b ↦ (b >>> 4 &&& 15) <<< 4 ||| b &&& 15 = b) (by decide +kernel) b

theorem hexDigit_of_hexValue (c : UInt8) : ∀ v ∈ hexValue c, v < 16 ∧ hexDigit v = c :=
  forall_byte (P := fun c ↦ ∀ v ∈ hexValue c, v < 16 ∧ hexDigit v = c) (by decide +kernel) c

theorem hexDigit_pair {v w : UInt8} (hv : v < 16) (hw : w < 16) :
    hexDigit ((v <<< 4 ||| w) >>> 4) = hexDigit v ∧ hexDigit (v <<< 4 ||| w) = hexDigit w := by
  have hall : ∀ m n : Fin 16, let v := UInt8.ofNat m; let w := UInt8.ofNat n
      hexDigit ((v <<< 4 ||| w) >>> 4) = hexDigit v ∧ hexDigit (v <<< 4 ||| w) = hexDigit w := by
    decide +kernel
  have h := hall ⟨v.toNat, hv⟩ ⟨w.toNat, hw⟩
  simp only [UInt8.ofNat_toNat] at h
  exact h

/-! ## Texts -/

/-- Reading gives back what was written. -/
@[simp] theorem hexDecode_hexEncode (bs : Bytes) : hexDecode (hexEncode bs) = some bs := by
  induction bs with
  | nil => rfl
  | cons b bs ih =>
    rw [hexEncode_cons, hexDecode, hexValue_hexDigit, hexValue_hexDigit, ih]
    change some (((b >>> 4 &&& 15) <<< 4 ||| b &&& 15) :: bs) = _
    rw [shift_or_and]

/-- A text has digits only. -/
theorem isSome_hexValue_of_mem {c : UInt8} {bs : Bytes} (h : c ∈ hexEncode bs) : (hexValue c).isSome := by
  obtain ⟨b, -, hc⟩ := List.mem_flatMap.mp h
  rw [List.mem_cons, List.mem_singleton] at hc
  obtain rfl | rfl := hc <;>
  · rw [hexValue_hexDigit]
    rfl

/-- What can be read is what would be written. -/
theorem hexEncode_of_hexDecode {cs bs : Bytes} (h : hexDecode cs = some bs) : hexEncode bs = cs := by
  induction cs using hexDecode.induct generalizing bs with
  | case1 => rw [← Option.some.inj h, hexEncode_nil]
  | case2 => cases h
  | case3 c d cs ih =>
    simp only [hexDecode, Option.bind_eq_bind, Option.bind_eq_some_iff] at h
    obtain ⟨hi, hhi, lo, hlo, rest, hrest, hbs⟩ := h
    obtain ⟨hhi16, hc⟩ := hexDigit_of_hexValue c hi hhi
    obtain ⟨hlo16, hd⟩ := hexDigit_of_hexValue d lo hlo
    obtain ⟨hhigh, hlow⟩ := hexDigit_pair hhi16 hlo16
    rw [← Option.some.inj hbs, hexEncode_cons, ih hrest, hhigh, hlow, hc, hd]

end SafeVault
