import Mathlib.Data.List.Basic
import Mathlib.Tactic.Ring
import Mathlib.Algebra.Order.Group.Nat
import Mathlib.Data.Nat.Bitwise

/-!
# Little-endian bytes

Fixed-width unsigned integers as lists of bytes, least significant byte first. The encoder emits the
bytes `v >> 8i` for `i` below the width, and the decoder ors `b << 8i` back together, as a program
without native unaligned access does. Both are described by one recursion on the width: the first
byte is the value modulo `256` and the rest encodes the quotient.

The two maps are inverse to each other below `256 ^ n`, and that is the only fact about them that a
codec built on top needs.
-/

namespace SafeVault

namespace LittleEndian

/-- The `n` low bytes of `v`, least significant first. -/
def encode (n v : ℕ) : List UInt8 := (List.range n).map fun i ↦ UInt8.ofNat (v >>> (8 * i))

/-- The value of a byte list, least significant byte first. The bytes are shifted into place and
combined with a bitwise or. -/
def decode (bs : List UInt8) : ℕ :=
  bs.zipIdx.foldl (fun v p ↦ v ||| (p.1.toNat <<< (8 * p.2))) 0

/-! ## The recursion on the width -/

@[simp] theorem length_encode (n v : ℕ) : (encode n v).length = n := by
  rw [encode, List.length_map, List.length_range]

@[simp] theorem encode_zero (v : ℕ) : encode 0 v = [] := rfl

theorem encode_succ (n v : ℕ) : encode (n + 1) v = UInt8.ofNat v :: encode n (v / 256) := by
  have hshift (i : ℕ) : v >>> (8 * (i + 1)) = (v / 256) >>> (8 * i) := by
    rw [Nat.mul_add, Nat.add_comm, Nat.shiftRight_add, Nat.mul_one, Nat.shiftRight_eq_div_pow v 8]
  rw [encode, List.range_succ_eq_map, List.map_cons, List.map_map, encode]
  simp only [Function.comp_def, Nat.succ_eq_add_one, hshift, Nat.mul_zero, Nat.shiftRight_zero]

@[simp] theorem decode_nil : decode [] = 0 := rfl

/-- A loop invariant for `decode`: the bytes still to come only touch bits above those read. -/
private theorem foldl_or_eq (bs : List UInt8) (k v : ℕ) (hv : v < 256 ^ k) :
    (bs.zipIdx k).foldl (fun v p ↦ v ||| (p.1.toNat <<< (8 * p.2))) v =
      v + 256 ^ k * (bs.zipIdx.foldl (fun v p ↦ v ||| (p.1.toNat <<< (8 * p.2))) 0) := by
  induction bs generalizing k v with
  | nil => simp
  | cons b bs ih =>
    have hpow : (256 : ℕ) ^ k = 2 ^ (8 * k) := by
      rw [pow_mul]
      rfl
    have hor : v ||| (b.toNat <<< (8 * k)) = v + 256 ^ k * b.toNat := by
      rw [Nat.lor_comm, ← Nat.shiftLeft_add_eq_or_of_lt (by rwa [← hpow]), Nat.shiftLeft_eq,
        hpow, Nat.mul_comm, Nat.add_comm]
    have hb : b.toNat < 256 := b.toNat_lt
    have hlt : v + 256 ^ k * b.toNat < 256 ^ (k + 1) := by
      calc v + 256 ^ k * b.toNat < 256 ^ k + 256 ^ k * b.toNat := by omega
        _ = 256 ^ k * (b.toNat + 1) := by ring
        _ ≤ 256 ^ k * 256 := Nat.mul_le_mul_left _ hb
        _ = 256 ^ (k + 1) := (pow_succ _ _).symm
    rw [List.zipIdx_cons, List.foldl_cons, hor, ih _ _ hlt, List.zipIdx_cons, List.foldl_cons,
      ih (0 + 1) _ (by simpa using hb)]
    simp only [Nat.zero_or, Nat.mul_zero, Nat.shiftLeft_zero, zero_add, pow_one]
    ring

theorem decode_cons (b : UInt8) (bs : List UInt8) :
    decode (b :: bs) = b.toNat + 256 * decode bs := by
  rw [decode, List.zipIdx_cons, List.foldl_cons, foldl_or_eq _ _ _ (by simpa using b.toNat_lt)]
  simp [decode]

/-! ## The two maps are inverse -/

theorem decode_lt (bs : List UInt8) : decode bs < 256 ^ bs.length := by
  induction bs with
  | nil => simp
  | cons b bs ih =>
    have hb : b.toNat < 256 := b.toNat_lt
    rw [decode_cons, List.length_cons, pow_succ]
    omega

theorem decode_encode (n v : ℕ) : decode (encode n v) = v % 256 ^ n := by
  induction n generalizing v with
  | zero => rw [encode_zero, decode_nil, pow_zero, Nat.mod_one]
  | succ n ih =>
    rw [encode_succ, decode_cons, ih, UInt8.toNat_ofNat', pow_succ' 256, Nat.mod_mul]

/-- Decoding and encoding again at the same width gives the bytes back. -/
theorem encode_decode (bs : List UInt8) : encode bs.length (decode bs) = bs := by
  induction bs with
  | nil => rfl
  | cons b bs ih =>
    have hb : b.toNat < 256 := b.toNat_lt
    have hdiv : decode (b :: bs) / 256 = decode bs := by rw [decode_cons]; omega
    have hbyte : UInt8.ofNat (decode (b :: bs)) = b := by
      rw [← UInt8.toNat_inj, UInt8.toNat_ofNat', decode_cons]
      omega
    rw [List.length_cons, encode_succ, hdiv, hbyte, ih]

end LittleEndian

end SafeVault
