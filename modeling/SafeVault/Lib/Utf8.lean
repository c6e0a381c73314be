import Mathlib.Data.List.GetD
import Mathlib.Data.UInt

/-!
# Texts as bytes

A text is the encoding of a list of characters, all of which have some property. A boundary of a text
is a place between two of its characters: what is before it is a text, and what is after it is one.
Within a text the boundaries are the places at which no continuation byte stands.
-/

namespace SafeVault

namespace Utf8

/-- A byte that does not start a character. -/
def isCont (b : UInt8) : Bool := b &&& 0xC0 == 0x80

theorem isCont_iff {b : UInt8} : isCont b = true ↔ 0x80 ≤ b.toNat ∧ b.toNat < 0xC0 := by
  have hall : ∀ n : Fin 256, isCont (UInt8.ofNat n) = true ↔ 0x80 ≤ n.1 ∧ n.1 < 0xC0 := by
    decide +kernel
  have h := hall ⟨b.toNat, b.toNat_lt⟩
  rwa [UInt8.ofNat_toNat] at h

/-- The bytes of a list of characters. -/
def encode (cs : List Char) : List UInt8 := cs.flatMap String.utf8EncodeChar

@[simp] theorem encode_nil : encode [] = [] := rfl

@[simp] theorem encode_cons (c : Char) (cs : List Char) :
    encode (c :: cs) = String.utf8EncodeChar c ++ encode cs := rfl

theorem encode_append (cs ds : List Char) : encode (cs ++ ds) = encode cs ++ encode ds :=
  List.flatMap_append

/-- A character is a byte that starts it and bytes that continue it. -/
theorem utf8EncodeChar_eq_cons (c : Char) : ∃ b bs, String.utf8EncodeChar c = b :: bs ∧
    isCont b = false ∧ ∀ x ∈ bs, isCont x = true := by
  have hstart : ∀ {n : ℕ}, n < 0x80 ∨ 0xC0 ≤ n ∧ n < 0x100 → isCont (UInt8.ofNat n) = false := by
    intro n hn
    have hlt : n < UInt8.size := show n < 256 by omega
    rw [Bool.eq_false_iff, ne_eq, isCont_iff, UInt8.toNat_ofNat_of_lt' hlt]
    omega
  have hcont : ∀ n : ℕ, isCont (UInt8.ofNat (n % 0x40 + 0x80)) = true := by
    intro n
    have hlt : n % 0x40 + 0x80 < UInt8.size := show n % 0x40 + 0x80 < 256 by omega
    rw [isCont_iff, UInt8.toNat_ofNat_of_lt' hlt]
    omega
  rw [String.utf8EncodeChar]
  split_ifs with h1 h2 h3
  · exact ⟨_, _, rfl, hstart (by omega), nofun⟩
  · refine ⟨_, _, rfl, hstart (by omega), fun x hx ↦ ?_⟩
    rw [List.mem_singleton.mp hx]
    exact hcont _
  · refine ⟨_, _, rfl, hstart (by omega), fun x hx ↦ ?_⟩
    simp only [List.mem_cons, List.not_mem_nil, or_false] at hx
    rcases hx with rfl | rfl <;> exact hcont _
  · refine ⟨_, _, rfl, hstart (by omega), fun x hx ↦ ?_⟩
    simp only [List.mem_cons, List.not_mem_nil, or_false] at hx
    rcases hx with rfl | rfl | rfl <;> exact hcont _

/-! ## Texts -/

/-- The encoding of characters with a property. -/
def Text (P : Char → Prop) (b : List UInt8) : Prop := ∃ cs : List Char, (∀ c ∈ cs, P c) ∧ b = encode cs

variable {P : Char → Prop} {a b : List UInt8} {i j : ℕ}

theorem text_nil : Text P [] := ⟨[], nofun, rfl⟩

theorem text_char {c : Char} (h : P c) : Text P (String.utf8EncodeChar c) :=
  ⟨[c], by simpa using h, (List.append_nil _).symm⟩

theorem Text.append (ha : Text P a) (hb : Text P b) : Text P (a ++ b) := by
  obtain ⟨cs, hcs, rfl⟩ := ha
  obtain ⟨ds, hds, rfl⟩ := hb
  refine ⟨cs ++ ds, fun c hc ↦ ?_, (encode_append cs ds).symm⟩
  exact (List.mem_append.mp hc).elim (hcs c) (hds c)

/-- A text does not begin within a character. -/
theorem Text.isCont_head (h : Text P b) {x : UInt8} (hx : b.head? = some x) : isCont x = false := by
  obtain ⟨cs, -, rfl⟩ := h
  cases cs with
  | nil => cases hx
  | cons c cs =>
    obtain ⟨y, ys, hc, hy, -⟩ := utf8EncodeChar_eq_cons c
    rw [encode_cons, hc, List.cons_append, List.head?_cons, Option.some_inj] at hx
    exact hx ▸ hy

/-! ## Boundaries -/

/-- A place between two characters, or at an end. -/
structure Boundary (P : Char → Prop) (b : List UInt8) (i : ℕ) : Prop where
  le : i ≤ b.length
  before : Text P (b.take i)
  after : Text P (b.drop i)

theorem Boundary.text (h : Boundary P b i) : Text P b := by
  rw [← List.take_append_drop i b]
  exact h.before.append h.after

theorem Text.boundary_zero (h : Text P b) : Boundary P b 0 :=
  ⟨Nat.zero_le _, text_nil, h⟩

theorem Text.boundary_length (h : Text P b) : Boundary P b b.length := by
  refine ⟨le_rfl, ?_, ?_⟩
  · rwa [List.take_length]
  · rw [List.drop_length]
    exact text_nil

theorem boundary_append (ha : Text P a) (hb : Text P b) : Boundary P (a ++ b) a.length := by
  refine ⟨by rw [List.length_append]; exact Nat.le_add_right _ _, ?_, ?_⟩
  · rwa [List.take_left]
  · rwa [List.drop_left]

/-- No continuation byte stands at a boundary. -/
theorem Boundary.isCont_getD (h : Boundary P b i) : isCont (b.getD i 0) = false := by
  rcases Nat.lt_or_ge i b.length with hi | hi
  · refine h.after.isCont_head ?_
    rw [List.head?_drop, List.getElem?_eq_getElem hi, List.getD_eq_getElem _ _ hi]
  · rw [List.getD_eq_default _ _ hi]
    rfl

/-- A place of a text at which no continuation byte stands is a boundary. -/
theorem Text.boundary (h : Text P b) (hi : i ≤ b.length) (hcont : isCont (b.getD i 0) = false) :
    Boundary P b i := by
  obtain ⟨cs, hcs, rfl⟩ := h
  -- Whole characters are taken off until the place is within one, and then it is at its start.
  induction cs generalizing i with
  | nil =>
    rw [Nat.le_zero.mp hi]
    exact (text_nil).boundary_zero
  | cons c cs ih =>
    obtain ⟨hc, hcs⟩ := List.forall_mem_cons.mp hcs
    have hrest : Text P (encode cs) := ⟨cs, hcs, rfl⟩
    rw [encode_cons] at hi hcont ⊢
    rcases Nat.lt_or_ge i (String.utf8EncodeChar c).length with hlt | hge
    · obtain ⟨x, xs, hx, -, hxs⟩ := utf8EncodeChar_eq_cons c
      cases i with
      | zero => exact ((text_char hc).append hrest).boundary_zero
      | succ i =>
        rw [List.getD_append _ _ _ _ hlt, hx, List.getD_cons_succ] at hcont
        rw [hx, List.length_cons, Nat.add_lt_add_iff_right] at hlt
        rw [List.getD_eq_getElem _ _ hlt, hxs _ (List.getElem_mem hlt)] at hcont
        cases hcont
    · obtain ⟨j, rfl⟩ := Nat.exists_eq_add_of_le hge
      rw [List.length_append, Nat.add_le_add_iff_left] at hi
      rw [List.getD_append_right _ _ _ _ hge, Nat.add_sub_cancel_left] at hcont
      obtain ⟨-, hbefore, hafter⟩ := ih hcs hi hcont
      refine ⟨by rw [List.length_append]; omega, ?_, ?_⟩
      · rw [List.take_length_add_append]
        exact (text_char hc).append hbefore
      · rwa [List.drop_length_add_append]

/-- The end of the new text is a boundary. -/
theorem boundary_replace (hi : Boundary P b i) (hj : Boundary P b j) (ha : Text P a) :
    Boundary P (b.take i ++ a ++ b.drop j) (i + a.length) := by
  have h := boundary_append (hi.before.append ha) hj.after
  rwa [List.length_append, List.length_take, min_eq_left hi.le] at h

end Utf8

end SafeVault
