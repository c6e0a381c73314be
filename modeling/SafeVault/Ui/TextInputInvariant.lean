import SafeVault.Ui.TextInput

/-!
# The text of a field

Whatever is typed, pasted, selected and deleted, the bytes of a field are a text of acceptable
characters that fits its limit, with the caret and the anchor on boundaries. A place that the editing
finds by stepping over bytes is a boundary because it stops where no continuation byte stands; what
it inserts is a text because only acceptable characters are taken.
-/

namespace SafeVault

open Utf8 (isCont isCont_iff Text Boundary)

namespace TextInput

/-- Neither a control nor `DEL`. -/
def FieldChar (c : Char) : Prop := 0x20 ≤ c.toNat ∧ c.toNat ≠ 0x7F

/-! ## Acceptable characters -/

theorem exists_char {v : ℕ} (h : v.isValidChar) : ∃ c : Char, c.val.toNat = v := by
  refine ⟨Char.ofNatAux v h, ?_⟩
  rfl

section Sequences

variable {b0 b1 b2 b3 : UInt8}

theorem exists_char_one (h0 : 0x20 ≤ b0.toNat) (h0' : b0.toNat < 0x7F) :
    ∃ c : Char, FieldChar c ∧ String.utf8EncodeChar c = [b0] := by
  obtain ⟨c, hc⟩ := exists_char (v := b0.toNat) (by left; omega)
  have hfield : FieldChar c := by
    rw [FieldChar, Char.toNat, hc]
    omega
  refine ⟨c, hfield, ?_⟩
  rw [String.utf8EncodeChar, hc, if_pos (by omega), UInt8.ofNat_toNat]

theorem exists_char_two (h0 : 0xC2 ≤ b0.toNat) (h0' : b0.toNat ≤ 0xDF) (h1 : isCont b1 = true) :
    ∃ c : Char, FieldChar c ∧ String.utf8EncodeChar c = [b0, b1] := by
  rw [isCont_iff] at h1
  obtain ⟨c, hc⟩ := exists_char (v := (b0.toNat - 0xC0) * 64 + (b1.toNat - 0x80)) (by left; omega)
  have hfield : FieldChar c := by
    rw [FieldChar, Char.toNat, hc]
    omega
  refine ⟨c, hfield, ?_⟩
  rw [String.utf8EncodeChar, hc, if_neg (by omega), if_pos (by omega)]
  have e0 : ((b0.toNat - 0xC0) * 64 + (b1.toNat - 0x80)) / 64 % 0x20 + 0xC0 = b0.toNat := by omega
  have e1 : ((b0.toNat - 0xC0) * 64 + (b1.toNat - 0x80)) % 0x40 + 0x80 = b1.toNat := by omega
  rw [e0, e1, UInt8.ofNat_toNat, UInt8.ofNat_toNat]

/-- The second byte keeps overlong forms and surrogates out. -/
theorem exists_char_three (h0 : 0xE0 ≤ b0.toNat) (h0' : b0.toNat ≤ 0xEF) (h1 : isCont b1 = true)
    (h2 : isCont b2 = true) (hlong : b0.toNat = 0xE0 → 0xA0 ≤ b1.toNat)
    (hsurrogate : b0.toNat = 0xED → b1.toNat < 0xA0) :
    ∃ c : Char, FieldChar c ∧ String.utf8EncodeChar c = [b0, b1, b2] := by
  rw [isCont_iff] at h1 h2
  obtain ⟨v, hv⟩ : ∃ v, v = (b0.toNat - 0xE0) * 4096 + (b1.toNat - 0x80) * 64 + (b2.toNat - 0x80) :=
    ⟨_, rfl⟩
  have hrange : 0x800 ≤ v ∧ v ≤ 0xFFFF ∧ (v < 0xD800 ∨ 0xDFFF < v) := by omega
  obtain ⟨c, hc⟩ := exists_char (v := v) (by
    rcases hrange.2.2 with hlow | hhigh
    · exact .inl hlow
    · exact .inr ⟨hhigh, by omega⟩)
  have hfield : FieldChar c := by
    rw [FieldChar, Char.toNat, hc]
    omega
  refine ⟨c, hfield, ?_⟩
  rw [String.utf8EncodeChar, hc, if_neg (by omega), if_neg (by omega), if_pos (by omega)]
  have e0 : v / 4096 % 0x10 + 0xE0 = b0.toNat := by omega
  have e1 : v / 64 % 0x40 + 0x80 = b1.toNat := by omega
  have e2 : v % 0x40 + 0x80 = b2.toNat := by omega
  rw [e0, e1, e2, UInt8.ofNat_toNat, UInt8.ofNat_toNat, UInt8.ofNat_toNat]

/-- The second byte keeps overlong forms and what is beyond Unicode out. -/
theorem exists_char_four (h0 : 0xF0 ≤ b0.toNat) (h0' : b0.toNat ≤ 0xF4) (h1 : isCont b1 = true)
    (h2 : isCont b2 = true) (h3 : isCont b3 = true) (hlong : b0.toNat = 0xF0 → 0x90 ≤ b1.toNat)
    (hbeyond : b0.toNat = 0xF4 → b1.toNat < 0x90) :
    ∃ c : Char, FieldChar c ∧ String.utf8EncodeChar c = [b0, b1, b2, b3] := by
  rw [isCont_iff] at h1 h2 h3
  obtain ⟨v, hv⟩ : ∃ v, v = (b0.toNat - 0xF0) * 262144 + (b1.toNat - 0x80) * 4096 +
      (b2.toNat - 0x80) * 64 + (b3.toNat - 0x80) := ⟨_, rfl⟩
  have hrange : 0x10000 ≤ v ∧ v < 0x110000 := by omega
  obtain ⟨c, hc⟩ := exists_char (v := v) (.inr ⟨by omega, hrange.2⟩)
  have hfield : FieldChar c := by
    rw [FieldChar, Char.toNat, hc]
    omega
  refine ⟨c, hfield, ?_⟩
  rw [String.utf8EncodeChar, hc, if_neg (by omega), if_neg (by omega), if_neg (by omega)]
  have e0 : v / 262144 % 0x08 + 0xF0 = b0.toNat := by omega
  have e1 : v / 4096 % 0x40 + 0x80 = b1.toNat := by omega
  have e2 : v / 64 % 0x40 + 0x80 = b2.toNat := by omega
  have e3 : v % 0x40 + 0x80 = b3.toNat := by omega
  rw [e0, e1, e2, e3, UInt8.ofNat_toNat, UInt8.ofNat_toNat, UInt8.ofNat_toNat, UInt8.ofNat_toNat]

end Sequences

theorem sequenceLength_cases (b : UInt8) :
    sequenceLength b = 0 ∨ sequenceLength b = 1 ∧ b.toNat < 0x80 ∨
    sequenceLength b = 2 ∧ 0xC2 ≤ b.toNat ∧ b.toNat ≤ 0xDF ∨
    sequenceLength b = 3 ∧ 0xE0 ≤ b.toNat ∧ b.toNat ≤ 0xEF ∨
    sequenceLength b = 4 ∧ 0xF0 ≤ b.toNat ∧ b.toNat ≤ 0xF4 := by
  rw [sequenceLength]
  split_ifs with h1 h2 h3 h4
  · exact .inr (.inl ⟨rfl, UInt8.lt_iff_toNat_lt.mp h1⟩)
  · exact .inr (.inr (.inl ⟨rfl, UInt8.le_iff_toNat_le.mp h2.1, UInt8.le_iff_toNat_le.mp h2.2⟩))
  · exact .inr (.inr (.inr (.inl
      ⟨rfl, UInt8.le_iff_toNat_le.mp h3.1, UInt8.le_iff_toNat_le.mp h3.2⟩)))
  · exact .inr (.inr (.inr (.inr
      ⟨rfl, UInt8.le_iff_toNat_le.mp h4.1, UInt8.le_iff_toNat_le.mp h4.2⟩)))
  · exact .inl rfl

/-- What the tests of a sequence establish. -/
theorem of_sequenceIsValid {p : Bytes} {len : ℕ} (h : sequenceIsValid p len = true) :
    len ≤ p.length ∧ (len ≠ 1 → (∀ x ∈ (p.take len).drop 1, isCont x = true) ∧
      ((p.getD 0 0).toNat = 0xE0 → 0xA0 ≤ (p.getD 1 0).toNat) ∧
      ((p.getD 0 0).toNat = 0xED → (p.getD 1 0).toNat < 0xA0) ∧
      ((p.getD 0 0).toNat = 0xF0 → 0x90 ≤ (p.getD 1 0).toNat) ∧
      ((p.getD 0 0).toNat = 0xF4 → (p.getD 1 0).toNat < 0x90)) := by
  have hbyte : ∀ {b : UInt8} {n : ℕ}, b.toNat = n → b = UInt8.ofNat n := by
    rintro b n rfl
    exact UInt8.ofNat_toNat.symm
  rw [sequenceIsValid] at h
  dsimp only at h
  split_ifs at h with hlen hone hcont hE0 hED hF0 hF4
  · exact ⟨by omega, fun hne ↦ absurd hone hne⟩
  · refine ⟨by omega, fun _ ↦ ⟨?_, fun hb ↦ ?_, fun hb ↦ ?_, fun hb ↦ ?_, fun hb ↦ ?_⟩⟩
    · simpa using hcont
    · rw [not_and, UInt8.not_lt] at hE0
      exact UInt8.le_iff_toNat_le.mp (hE0 (hbyte hb))
    · rw [not_and, UInt8.not_le] at hED
      exact UInt8.lt_iff_toNat_lt.mp (hED (hbyte hb))
    · rw [not_and, UInt8.not_lt] at hF0
      exact UInt8.le_iff_toNat_le.mp (hF0 (hbyte hb))
    · rw [not_and, UInt8.not_le] at hF4
      exact UInt8.lt_iff_toNat_lt.mp (hF4 (hbyte hb))

/-- An acceptable character is the encoding of one. -/
theorem exists_char_of_acceptableAt {text : Bytes} (h : acceptableAt text ≠ 0) :
    acceptableAt text ≤ text.length ∧
      ∃ c, FieldChar c ∧ String.utf8EncodeChar c = text.take (acceptableAt text) := by
  rw [acceptableAt] at h ⊢
  split_ifs at h ⊢ with hvalid hcontrol
  · exact absurd rfl h
  · exact absurd rfl h
  rw [Bool.not_eq_true', Bool.not_eq_false] at hvalid
  obtain ⟨hlen, htests⟩ := of_sequenceIsValid hvalid
  refine ⟨hlen, ?_⟩
  rcases sequenceLength_cases (text.getD 0 0) with h0 | ⟨h1, hb⟩ | ⟨h2, hb⟩ | ⟨h3, hb⟩ | ⟨h4, hb⟩
  · exact absurd h0 h
  · rw [h1] at hlen hcontrol ⊢
    obtain _ | ⟨b0, rest⟩ := text
    · exact absurd hlen (by simp)
    rw [not_and_or, not_or, UInt8.not_lt] at hcontrol
    obtain ⟨hspace, hdel⟩ := hcontrol.resolve_left (not_not.mpr rfl)
    rw [List.getD_cons_zero] at hb hspace hdel
    have hspace' : 0x20 ≤ b0.toNat := UInt8.le_iff_toNat_le.mp hspace
    have hdel' : b0.toNat ≠ 0x7F := fun heq ↦ hdel (UInt8.toNat_inj.mp heq)
    exact exists_char_one hspace' (by omega)
  · rw [h2] at hlen htests ⊢
    obtain _ | ⟨b0, _ | ⟨b1, rest⟩⟩ := text
    · exact absurd hlen (by simp)
    · exact absurd hlen (by simp)
    obtain ⟨hcont, -⟩ := htests (by decide)
    exact exists_char_two hb.1 hb.2 (hcont b1 (by simp))
  · rw [h3] at hlen htests ⊢
    obtain _ | ⟨b0, _ | ⟨b1, _ | ⟨b2, rest⟩⟩⟩ := text
    · exact absurd hlen (by simp)
    · exact absurd hlen (by simp)
    · exact absurd hlen (by simp)
    obtain ⟨hcont, hlong, hsurrogate, -⟩ := htests (by decide)
    exact exists_char_three hb.1 hb.2 (hcont b1 (by simp)) (hcont b2 (by simp)) hlong hsurrogate
  · rw [h4] at hlen htests ⊢
    obtain _ | ⟨b0, _ | ⟨b1, _ | ⟨b2, _ | ⟨b3, rest⟩⟩⟩⟩ := text
    · exact absurd hlen (by simp)
    · exact absurd hlen (by simp)
    · exact absurd hlen (by simp)
    · exact absurd hlen (by simp)
    obtain ⟨hcont, -, -, hlong, hbeyond⟩ := htests (by decide)
    exact exists_char_four hb.1 hb.2 (hcont b1 (by simp)) (hcont b2 (by simp)) (hcont b3 (by simp))
      hlong hbeyond

/-- A run of acceptable characters is a text. -/
theorem text_acceptableInputRun (text : Bytes) :
    acceptableInputRun text ≤ text.length ∧
      Text FieldChar (text.take (acceptableInputRun text)) := by
  induction text using acceptableInputRun.induct with
  | case1 text h ih =>
    obtain ⟨hle, c, hc, hencode⟩ := exists_char_of_acceptableAt h.2
    rw [acceptableInputRun, if_pos h]
    rw [List.length_drop] at ih
    refine ⟨by omega, ?_⟩
    rw [List.take_add, ← hencode]
    exact (Utf8.text_char hc).append ih.2
  | case2 text h =>
    rw [acceptableInputRun, if_neg h]
    exact ⟨Nat.zero_le _, Utf8.text_nil⟩

/-! ## Places -/

section Places

variable {buf run : Bytes} {i n : ℕ}

theorem boundary_stepBack (h : Text FieldChar buf) (hn : n ≤ buf.length) :
    Boundary FieldChar buf (stepBack buf n) := by
  induction n with
  | zero => exact h.boundary_zero
  | succ n ih =>
    rw [stepBack]
    split_ifs with hcont
    · exact ih (Nat.le_of_succ_le hn)
    · exact h.boundary hn (Bool.eq_false_iff.mpr hcont)

theorem boundary_utf8PrevBoundary (h : Text FieldChar buf) :
    Boundary FieldChar buf (utf8PrevBoundary buf i) := by
  rw [utf8PrevBoundary]
  split_ifs
  · exact h.boundary_zero
  · exact boundary_stepBack h (by omega)

theorem boundary_utf8NextBoundary (h : Text FieldChar buf) :
    Boundary FieldChar buf (utf8NextBoundary buf i) := by
  rw [utf8NextBoundary]
  split_ifs with hi
  · exact h.boundary_length
  rw [not_le] at hi
  -- The loop stops at the end, or before a byte that does not continue.
  obtain ⟨rest, hrest, hsplit⟩ : ∃ rest, (∀ x, rest.head? = some x → isCont x = false) ∧
      buf.drop (i + 1) = (buf.drop (i + 1)).takeWhile isCont ++ rest := by
    refine ⟨(buf.drop (i + 1)).dropWhile isCont, fun x hx ↦ ?_, List.takeWhile_append_dropWhile.symm⟩
    have hne : (buf.drop (i + 1)).dropWhile isCont ≠ [] := by
      rintro heq
      rw [heq] at hx
      cases hx
    have hhead := List.head_dropWhile_not isCont hne
    rw [List.head?_eq_some_head hne, Option.some_inj] at hx
    exact hx ▸ hhead
  have hlen := congrArg List.length hsplit
  rw [List.length_append, List.length_drop] at hlen
  refine h.boundary (by omega) ?_
  generalize (buf.drop (i + 1)).takeWhile isCont = cont at hsplit hlen ⊢
  have hget : buf.getD (i + 1 + cont.length) 0 = rest.getD 0 0 := by
    rw [List.getD_eq_getElem?_getD, ← List.getElem?_drop, hsplit,
      List.getElem?_append_right le_rfl, Nat.sub_self, ← List.getD_eq_getElem?_getD]
  rw [hget]
  cases rest with
  | nil => decide
  | cons x rest => exact hrest x rfl

theorem boundary_skipLeft (cls : CharClass) (h : Boundary FieldChar buf i) :
    Boundary FieldChar buf (skipLeft buf cls i) := by
  induction i using skipLeft.induct buf cls with
  | case1 i hi ih =>
    rw [skipLeft, if_pos hi]
    exact ih (boundary_utf8PrevBoundary h.text)
  | case2 i hi =>
    rw [skipLeft, if_neg hi]
    exact h

theorem boundary_skipRight (cls : CharClass) (h : Boundary FieldChar buf i) :
    Boundary FieldChar buf (skipRight buf cls i) := by
  induction i using skipRight.induct buf cls with
  | case1 i hi ih =>
    rw [skipRight, if_pos hi]
    exact ih (boundary_utf8NextBoundary h.text)
  | case2 i hi =>
    rw [skipRight, if_neg hi]
    exact h

theorem boundary_wordBoundaryLeft (h : Boundary FieldChar buf i) :
    Boundary FieldChar buf (wordBoundaryLeft buf i) := by
  have hspace := boundary_skipLeft .space h
  rw [wordBoundaryLeft, min_eq_left h.le]
  split_ifs
  · exact h.text.boundary_zero
  · exact boundary_skipLeft _ hspace

theorem boundary_wordBoundaryRight (h : Boundary FieldChar buf i) :
    Boundary FieldChar buf (wordBoundaryRight buf i) := by
  have hspace := boundary_skipRight .space h
  rw [wordBoundaryRight, min_eq_left h.le]
  split_ifs
  · exact h.text.boundary_length
  · exact boundary_skipRight _ hspace

/-- What is taken of a run is a text, and there is room for it. -/
theorem boundary_takeOfRun (h : Text FieldChar run) (room : ℕ) :
    Boundary FieldChar run (takeOfRun run room) ∧ takeOfRun run room ≤ room := by
  rw [takeOfRun]
  split_ifs with hroom
  · exact ⟨boundary_stepBack h hroom.le, stepBack_le _ _⟩
  · exact ⟨h.boundary_length, not_lt.mp hroom⟩

end Places

/-! ## The invariant -/

variable {σ : Type} [TextStorage σ]

/-- The bytes are a text that fits the limit, with the caret and the anchor on boundaries. -/
structure Valid (cap : ℕ) (m : TextInput σ) : Prop where
  limit : m.byteCap = cap
  fits : m.size ≤ cap
  caret : Boundary FieldChar m.bytes m.caret
  anchor : Boundary FieldChar m.bytes m.anchor

/-- The field as it is when its bytes are kept in a string. -/
def plain (m : TextInput σ) : TextInput PlainText :=
  ⟨⟨m.bytes, m.byteCap⟩, m.caret, m.anchor, m.revision⟩

end TextInput

/-- A storage that does to its bytes what a string does, as long as something holds of it and it is
used within its limit. -/
structure TextStorage.Lawful {σ : Type} [TextStorage σ] (Inv : σ → Prop) : Prop where
  splice : ∀ {s start stop ins}, Inv s → start ≤ stop → stop ≤ (bytes s).length →
    (bytes s).length - (stop - start) + ins.length ≤ byteCap s →
    Inv (splice start stop ins s) ∧ byteCap (splice start stop ins s) = byteCap s ∧
      bytes (splice start stop ins s) = (bytes s).take start ++ ins ++ (bytes s).drop stop
  clear : ∀ {s}, Inv s → Inv (clear s) ∧ byteCap (clear s) = byteCap s ∧ bytes (clear s) = []

namespace TextInput

/-- What an operation establishes: the invariant, and that a string would have led to the same
field. -/
structure Follows {σ : Type} [TextStorage σ] (Inv : σ → Prop) (cap : ℕ) (m : TextInput σ)
    (n : TextInput PlainText) : Prop where
  inv : Inv m.store
  valid : m.Valid cap
  plain : m.plain = n

section Operations

variable {σ : Type} [TextStorage σ] {Inv : σ → Prop} {cap : ℕ}
  {m : TextInput σ}

theorem boundary_selBegin (h : m.Valid cap) : Boundary FieldChar m.bytes m.selBegin := by
  rw [selBegin]
  rcases min_choice m.caret m.anchor with hmin | hmin <;> rw [hmin]
  exacts [h.caret, h.anchor]

theorem boundary_selEnd (h : m.Valid cap) : Boundary FieldChar m.bytes m.selEnd := by
  rw [selEnd]
  rcases max_choice m.caret m.anchor with hmax | hmax <;> rw [hmax]
  exacts [h.caret, h.anchor]

omit [TextStorage σ] in
theorem selBegin_le_selEnd (m : TextInput σ) : m.selBegin ≤ m.selEnd :=
  (min_le_left _ _).trans (le_max_left _ _)

variable (hlaw : TextStorage.Lawful Inv)

/-- Nothing happens. -/
theorem follows_self (hinv : Inv m.store) (h : m.Valid cap) : Follows Inv cap m m.plain := ⟨hinv, h, rfl⟩

include hlaw in
/-- The bytes between two boundaries are replaced, and the caret is put behind the new ones. -/
theorem follows_splice {start stop pos : ℕ} {ins : Bytes} (hinv : Inv m.store)
    (hm : m.byteCap = cap)
    (hstart : Boundary FieldChar m.bytes start) (hstop : Boundary FieldChar m.bytes stop)
    (hle : start ≤ stop) (hins : Text FieldChar ins)
    (hfits : m.size - (stop - start) + ins.length ≤ cap) (hpos : pos = start + ins.length) :
    Follows Inv cap { m.applySplice start stop ins with caret := pos, anchor := pos }
      { m.plain.applySplice start stop ins with caret := pos, anchor := pos } := by
  obtain ⟨hinv', hcap, hbytes⟩ := hlaw.splice hinv hle hstop.le (hfits.trans_eq hm.symm)
  have hboundary : Boundary FieldChar (TextStorage.bytes (TextStorage.splice start stop ins m.store))
      pos := by
    rw [hbytes, hpos]
    exact Utf8.boundary_replace hstart hstop hins
  refine ⟨hinv', ⟨hcap.trans hm, ?_, hboundary, hboundary⟩, ?_⟩
  · have hsize : (TextStorage.bytes (TextStorage.splice start stop ins m.store)).length =
        m.size - (stop - start) + ins.length := by
      have hstart' := hstart.le
      have hstop' := hstop.le
      rw [hbytes, List.length_append, List.length_append, List.length_take, List.length_drop]
      change _ = m.bytes.length - (stop - start) + ins.length
      rw [show TextStorage.bytes m.store = m.bytes from rfl]
      omega
    exact hsize.trans_le hfits
  · have hstore : (⟨TextStorage.bytes (TextStorage.splice start stop ins m.store),
        TextStorage.byteCap (TextStorage.splice start stop ins m.store)⟩ : PlainText) =
        TextStorage.splice start stop ins ⟨m.bytes, m.byteCap⟩ := by
      rw [hbytes, hcap]
      rfl
    exact congrArg (TextInput.mk · pos pos (m.revision + 1)) hstore

/-- The caret is moved to a boundary. -/
theorem follows_placeCaret {pos : ℕ} {extend : Bool} (hinv : Inv m.store) (h : m.Valid cap)
    (hpos : Boundary FieldChar m.bytes pos) :
    Follows Inv cap (m.placeCaret pos extend) (m.plain.placeCaret pos extend) := by
  have hmin : min pos m.size = pos := min_eq_left hpos.le
  refine ⟨hinv, ⟨h.limit, h.fits, ?_, ?_⟩, rfl⟩
  · change Boundary FieldChar m.bytes (min pos m.size)
    rwa [hmin]
  · change Boundary FieldChar m.bytes (if extend then m.anchor else min pos m.size)
    split_ifs
    · exact h.anchor
    · rwa [hmin]

include hlaw in
theorem follows_insertRun {run : Bytes} (hinv : Inv m.store) (h : m.Valid cap)
    (hrun : Text FieldChar run) : Follows Inv cap (m.insertRun run) (m.plain.insertRun run) := by
  have hle := selBegin_le_selEnd m
  have hstop := (boundary_selEnd h).le
  have hfits := h.fits
  have hlimit := h.limit
  -- Both fields make room for as much, and take as much of the run.
  obtain ⟨room, hroom⟩ : ∃ room, room = m.byteCap - min m.byteCap (m.size - (m.selEnd - m.selBegin)) :=
    ⟨_, rfl⟩
  have hm : m.insertRun run = if takeOfRun run room = 0 ∧ m.selBegin = m.selEnd then m
      else { m.applySplice m.selBegin m.selEnd (run.take (takeOfRun run room)) with
        caret := m.selBegin + takeOfRun run room, anchor := m.selBegin + takeOfRun run room } := by
    rw [hroom]
    rfl
  have hplain : m.plain.insertRun run =
      if takeOfRun run room = 0 ∧ m.selBegin = m.selEnd then m.plain
      else { m.plain.applySplice m.selBegin m.selEnd (run.take (takeOfRun run room)) with
        caret := m.selBegin + takeOfRun run room, anchor := m.selBegin + takeOfRun run room } := by
    rw [hroom]
    rfl
  obtain ⟨htake, hle'⟩ := boundary_takeOfRun hrun room
  rw [hm, hplain]
  split_ifs with hnone
  · exact follows_self hinv h
  have hlen : (run.take (takeOfRun run room)).length = takeOfRun run room :=
    List.length_take_of_le htake.le
  refine follows_splice hlaw hinv h.limit (boundary_selBegin h) (boundary_selEnd h) hle htake.before ?_
    (by rw [hlen])
  rw [hlen]
  change m.selEnd ≤ m.size at hstop
  omega

include hlaw in
theorem follows_insertRuns (text : Bytes) (hinv : Inv m.store) (h : m.Valid cap) :
    Follows Inv cap (m.insertRuns text) (m.plain.insertRuns text) := by
  induction text, m using insertRuns.induct with
  | case1 text m hrun rest ih =>
    obtain ⟨hinv', hvalid', hplain'⟩ :=
      follows_insertRun hlaw hinv h (text_acceptableInputRun text).2
    have hm : m.insertRuns text = insertRuns (rest.drop (skipUnacceptable rest))
        (m.insertRun (text.take (acceptableInputRun text))) := by rw [insertRuns, if_pos hrun]
    have hplain : m.plain.insertRuns text = insertRuns (rest.drop (skipUnacceptable rest))
        (m.plain.insertRun (text.take (acceptableInputRun text))) := by
      rw [insertRuns, if_pos hrun]
    rw [hm, hplain, ← hplain']
    exact ih hinv' hvalid'
  | case2 text m hrun =>
    have hm : m.insertRuns text = m := by rw [insertRuns, if_neg hrun]
    have hplain : m.plain.insertRuns text = m.plain := by rw [insertRuns, if_neg hrun]
    rw [hm, hplain]
    exact follows_self hinv h

include hlaw in
theorem follows_deleteSelection (hinv : Inv m.store) (h : m.Valid cap) :
    Follows Inv cap m.deleteSelection m.plain.deleteSelection := by
  have hle := selBegin_le_selEnd m
  have hstop : m.selEnd ≤ m.size := (boundary_selEnd h).le
  have hfits := h.fits
  rw [deleteSelection, deleteSelection]
  change Follows Inv cap (if !m.hasSelection then m else _) (if !m.hasSelection then m.plain else _)
  split_ifs
  · exact follows_self hinv h
  · refine follows_splice hlaw hinv h.limit (boundary_selBegin h) (boundary_selEnd h) hle Utf8.text_nil ?_
      rfl
    rw [List.length_nil]
    omega

include hlaw in
theorem follows_backspace (hinv : Inv m.store) (h : m.Valid cap) :
    Follows Inv cap m.backspace m.plain.backspace := by
  have hcaret : m.caret ≤ m.size := h.caret.le
  have hfits := h.fits
  rw [backspace, backspace]
  change Follows Inv cap (if m.hasSelection then m.deleteSelection else if m.caret = 0 then m else _)
    (if m.hasSelection then m.plain.deleteSelection else if m.caret = 0 then m.plain else _)
  split_ifs with hselection hzero
  · exact follows_deleteSelection hlaw hinv h
  · exact follows_self hinv h
  · have hlt := @utf8PrevBoundary_lt m.bytes _ (Nat.pos_of_ne_zero hzero)
    refine follows_splice hlaw hinv h.limit (boundary_utf8PrevBoundary h.caret.text) h.caret hlt.le
      Utf8.text_nil ?_ rfl
    rw [List.length_nil]
    omega

include hlaw in
theorem follows_del (hinv : Inv m.store) (h : m.Valid cap) : Follows Inv cap m.del m.plain.del := by
  have hfits := h.fits
  rw [del, del]
  change Follows Inv cap (if m.hasSelection then m.deleteSelection else if m.size ≤ m.caret then m else _)
    (if m.hasSelection then m.plain.deleteSelection else if m.size ≤ m.caret then m.plain else _)
  split_ifs with hselection hend
  · exact follows_deleteSelection hlaw hinv h
  · exact follows_self hinv h
  · have hlt := @lt_utf8NextBoundary m.bytes _ (not_le.mp hend)
    have hnext := boundary_utf8NextBoundary (i := m.caret) h.caret.text
    have hle : utf8NextBoundary m.bytes m.caret ≤ m.size := hnext.le
    refine follows_splice hlaw hinv h.limit h.caret hnext hlt.le Utf8.text_nil ?_ rfl
    rw [List.length_nil]
    omega

theorem follows_moveLeft {byWord extend : Bool} (hinv : Inv m.store) (h : m.Valid cap) :
    Follows Inv cap (m.moveLeft byWord extend) (m.plain.moveLeft byWord extend) := by
  rw [moveLeft, moveLeft]
  change Follows Inv cap (if !extend && m.hasSelection && !byWord then _ else _)
    (if !extend && m.hasSelection && !byWord then _ else _)
  split_ifs
  · exact follows_placeCaret hinv h (boundary_selBegin h)
  · exact follows_placeCaret hinv h (boundary_wordBoundaryLeft h.caret)
  · exact follows_placeCaret hinv h (boundary_utf8PrevBoundary h.caret.text)

theorem follows_moveRight {byWord extend : Bool} (hinv : Inv m.store) (h : m.Valid cap) :
    Follows Inv cap (m.moveRight byWord extend) (m.plain.moveRight byWord extend) := by
  rw [moveRight, moveRight]
  change Follows Inv cap (if !extend && m.hasSelection && !byWord then _ else _)
    (if !extend && m.hasSelection && !byWord then _ else _)
  split_ifs
  · exact follows_placeCaret hinv h (boundary_selEnd h)
  · exact follows_placeCaret hinv h (boundary_wordBoundaryRight h.caret)
  · exact follows_placeCaret hinv h (boundary_utf8NextBoundary h.caret.text)

include hlaw in
theorem follows_clear (hinv : Inv m.store) (h : m.Valid cap) : Follows Inv cap m.clear m.plain.clear := by
  obtain ⟨hinv', hcap, hbytes⟩ := hlaw.clear hinv
  have hzero : Boundary FieldChar (TextStorage.bytes (TextStorage.clear m.store)) 0 := by
    rw [hbytes]
    exact Utf8.text_nil.boundary_zero
  refine ⟨hinv', ⟨hcap.trans h.limit, ?_, hzero, hzero⟩, ?_⟩
  · change (TextStorage.bytes (TextStorage.clear m.store)).length ≤ cap
    rw [hbytes]
    exact Nat.zero_le _
  · have hstore : (⟨TextStorage.bytes (TextStorage.clear m.store),
        TextStorage.byteCap (TextStorage.clear m.store)⟩ : PlainText) = ⟨[], m.byteCap⟩ := by
      rw [hbytes, hcap]
      rfl
    exact congrArg (TextInput.mk · 0 0 (m.revision + 1)) hstore

include hlaw in
/-- **One operation.** -/
theorem follows_apply (op : Op) (hinv : Inv m.store) (h : m.Valid cap) :
    Follows Inv cap (m.apply op) (m.plain.apply op) := by
  cases op with
  | insert text => exact follows_insertRuns hlaw _ hinv h
  | setText text =>
    obtain ⟨hinv', hvalid', hplain'⟩ := follows_clear hlaw hinv h
    change Follows Inv cap (m.clear.insert text) (m.plain.clear.insert text)
    rw [← hplain']
    exact follows_insertRuns hlaw _ hinv' hvalid'
  | backspace => exact follows_backspace hlaw hinv h
  | del => exact follows_del hlaw hinv h
  | deleteSelection => exact follows_deleteSelection hlaw hinv h
  | moveLeft byWord extend => exact follows_moveLeft hinv h
  | moveRight byWord extend => exact follows_moveRight hinv h
  | moveHome extend => exact follows_placeCaret hinv h h.caret.text.boundary_zero
  | moveEnd extend => exact follows_placeCaret hinv h h.caret.text.boundary_length
  | selectAll =>
    exact ⟨hinv, ⟨h.limit, h.fits, h.caret.text.boundary_length, h.caret.text.boundary_zero⟩, rfl⟩
  | clear => exact follows_clear hlaw hinv h

include hlaw in
/-- **A run of operations.** The storage makes no difference to what it leads to. -/
theorem follows_run (ops : List Op) (hinv : Inv m.store) (h : m.Valid cap) :
    Follows Inv cap (m.run ops) (m.plain.run ops) := by
  induction ops generalizing m with
  | nil => exact follows_self hinv h
  | cons op ops ih =>
    obtain ⟨hinv', hvalid', hplain'⟩ := follows_apply hlaw op hinv h
    have hrest := ih hinv' hvalid'
    rwa [hplain'] at hrest

end Operations

end TextInput

end SafeVault
