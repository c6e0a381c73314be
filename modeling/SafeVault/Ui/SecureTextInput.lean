import SafeVault.Ui.TextInputInvariant

/-!
# Password fields

The locked buffer of a password field has a fixed size. A splice moves the tail to where it belongs,
lays the new bytes into the gap and wipes what is left behind, so that the bytes of the text are those
a string would have, and all others are zero. With that, a password field and an ordinary one with
the same limit never differ, whatever is done to both.
-/

namespace SafeVault

open Utf8 (Boundary encode)

namespace SecureText

/-- The buffer is as long as the limit, and beyond the text it is zero. -/
structure Wiped (s : SecureText) : Prop where
  size : s.buf.length = s.cap
  len : s.len ≤ s.cap
  zero : ∀ i, s.len ≤ i → i < s.cap → s.buf[i]? = some 0

variable {buf src : Bytes} {pos i : ℕ} {s : SecureText}

theorem length_overwrite (h : pos + src.length ≤ buf.length) :
    (overwrite buf pos src).length = buf.length := by
  rw [overwrite, List.length_append, List.length_append, List.length_take, List.length_drop]
  omega

theorem getElem?_overwrite (h : pos + src.length ≤ buf.length) : (overwrite buf pos src)[i]? =
    if pos ≤ i ∧ i < pos + src.length then src[i - pos]? else buf[i]? := by
  have htake : (buf.take pos).length = pos := List.length_take_of_le (by omega)
  rw [overwrite, List.append_assoc]
  rcases Nat.lt_or_ge i pos with hlt | hge
  · rw [List.getElem?_append_left (by rwa [htake]), List.getElem?_take_of_lt hlt, if_neg (by omega)]
  rw [List.getElem?_append_right (by rwa [htake]), htake]
  rcases Nat.lt_or_ge i (pos + src.length) with hlt | hge'
  · rw [List.getElem?_append_left (by omega), if_pos ⟨hge, hlt⟩]
  · rw [List.getElem?_append_right (by omega), List.getElem?_drop, if_neg (by omega)]
    congr 1
    omega

/-- Nothing is overwritten with nothing. -/
theorem overwrite_nil : overwrite buf pos [] = buf := by
  rw [overwrite, List.append_nil, List.length_nil, Nat.add_zero, List.take_append_drop]

/-- The steps of a splice, without the tests that skip those with nothing to do. -/
theorem splice_eq {start stop : ℕ} {ins : Bytes} (hcap : s.cap ≠ 0) :
    splice start stop ins s = { s with
      buf := overwrite (overwrite (overwrite s.buf (start + ins.length)
          ((s.buf.drop stop).take (s.len - stop))) start ins)
        (s.len - (stop - start) + ins.length)
        (List.replicate (s.len - (s.len - (stop - start) + ins.length)) 0)
      len := s.len - (stop - start) + ins.length } := by
  have htail : (if 0 < s.len - stop then overwrite s.buf (start + ins.length)
      ((s.buf.drop stop).take (s.len - stop)) else s.buf) =
      overwrite s.buf (start + ins.length) ((s.buf.drop stop).take (s.len - stop)) := by
    split_ifs with h
    · rfl
    · rw [Nat.eq_zero_of_not_pos h, List.take_zero, overwrite_nil]
  have hfill (b : Bytes) : (if ins.isEmpty then b else overwrite b start ins) =
      overwrite b start ins := by
    split_ifs with h
    · rw [List.isEmpty_iff.mp h, overwrite_nil]
    · rfl
  have hwipe (b : Bytes) (n : ℕ) : (if n < s.len then
      overwrite b n (List.replicate (s.len - n) 0) else b) =
      overwrite b n (List.replicate (s.len - n) 0) := by
    split_ifs with h
    · rfl
    · rw [Nat.sub_eq_zero_of_le (not_lt.mp h), List.replicate_zero, overwrite_nil]
  rw [splice, if_neg hcap]
  dsimp only
  rw [htail, hfill, hwipe]

section Splice

variable {start stop : ℕ} {ins : Bytes}

/-- Every step of a splice stays within the buffer. -/
theorem splice_bounds (h : s.Wiped) (hle : start ≤ stop) (hstop : stop ≤ s.len)
    (hfits : s.len - (stop - start) + ins.length ≤ s.cap) :
    let moved := (s.buf.drop stop).take (s.len - stop)
    let newLen := s.len - (stop - start) + ins.length
    moved.length = s.len - stop ∧ start + ins.length + moved.length ≤ s.buf.length ∧
      start + ins.length ≤ (overwrite s.buf (start + ins.length) moved).length ∧
      newLen + (List.replicate (s.len - newLen) (0 : UInt8)).length ≤
        (overwrite (overwrite s.buf (start + ins.length) moved) start ins).length := by
  intro moved newLen
  obtain ⟨hsize, hlen, -⟩ := h
  have hmoved : moved.length = s.len - stop :=
    List.length_take_of_le (by rw [List.length_drop]; omega)
  have hfirst : start + ins.length + moved.length ≤ s.buf.length := by omega
  have hsecond : start + ins.length ≤ (overwrite s.buf (start + ins.length) moved).length := by
    rw [length_overwrite hfirst]
    omega
  refine ⟨hmoved, hfirst, hsecond, ?_⟩
  rw [length_overwrite hsecond, length_overwrite hfirst, List.length_replicate]
  omega

theorem length_splice (hcap : s.cap ≠ 0) (h : s.Wiped) (hle : start ≤ stop) (hstop : stop ≤ s.len)
    (hfits : s.len - (stop - start) + ins.length ≤ s.cap) :
    (splice start stop ins s).buf.length = s.cap := by
  obtain ⟨-, hfirst, hsecond, hthird⟩ := splice_bounds h hle hstop hfits
  rw [splice_eq hcap]
  dsimp only
  rw [length_overwrite hthird, length_overwrite hsecond, length_overwrite hfirst, h.size]

/-- Where every byte of the buffer comes from. -/
theorem getElem?_splice (hcap : s.cap ≠ 0) (h : s.Wiped) (hle : start ≤ stop) (hstop : stop ≤ s.len)
    (hfits : s.len - (stop - start) + ins.length ≤ s.cap) (hi : i < s.cap) :
    (splice start stop ins s).buf[i]? =
      if i < start then s.buf[i]?
      else if i < start + ins.length then ins[i - start]?
      else if i < s.len - (stop - start) + ins.length then s.buf[stop + (i - (start + ins.length))]?
      else some 0 := by
  obtain ⟨hmoved, hfirst, hsecond, hthird⟩ := splice_bounds h hle hstop hfits
  obtain ⟨hsize, hlen, hzero⟩ := h
  rw [splice_eq hcap]
  dsimp only
  rw [getElem?_overwrite hthird, getElem?_overwrite hsecond, getElem?_overwrite hfirst, hmoved,
    List.length_replicate]
  rcases Nat.lt_or_ge i start with h1 | h1
  · rw [if_neg (by omega), if_neg (by omega), if_neg (by omega), if_pos h1]
  rw [if_neg (Nat.not_lt.mpr h1)]
  rcases Nat.lt_or_ge i (start + ins.length) with h2 | h2
  · rw [if_neg (by omega), if_pos ⟨h1, h2⟩, if_pos h2]
  rw [if_neg (Nat.not_lt.mpr h2)]
  rcases Nat.lt_or_ge i (s.len - (stop - start) + ins.length) with h3 | h3
  · rw [if_neg (by omega), if_neg (by omega), if_pos (by omega), if_pos h3,
      List.getElem?_take_of_lt (by omega), List.getElem?_drop]
  rw [if_neg (Nat.not_lt.mpr h3)]
  -- Beyond the text it is what was wiped, or has been zero before.
  rcases Nat.lt_or_ge i s.len with h4 | h4
  · rw [if_pos (by omega), List.getElem?_replicate, if_pos (by omega)]
  · rw [if_neg (by omega), if_neg (by omega), if_neg (by omega)]
    exact hzero i h4 hi

end Splice

/-- A password buffer does to its text what a string does. -/
theorem lawful : TextStorage.Lawful Wiped where
  splice := by
    intro s start stop ins h hle hstop hfits
    have hbytes : (s.buf.take s.len).length = s.len := List.length_take_of_le (by
      rw [h.size]
      exact h.len)
    change stop ≤ (s.buf.take s.len).length at hstop
    change (s.buf.take s.len).length - (stop - start) + ins.length ≤ s.cap at hfits
    rw [hbytes] at hstop hfits
    by_cases hcap : s.cap = 0
    · -- Without a buffer there is no text, and nothing fits.
      have hlen : s.len = 0 := Nat.le_zero.mp (hcap ▸ h.len)
      have hins : ins = [] := List.length_eq_zero_iff.mp (by omega)
      have hsame : splice start stop ins s = s := if_pos hcap
      refine ⟨?_, congrArg SecureText.cap hsame, ?_⟩
      · change (splice start stop ins s).Wiped
        rwa [hsame]
      · change (splice start stop ins s).buf.take (splice start stop ins s).len = _
        rw [hsame, hins, List.append_nil]
        change s.buf.take s.len = (s.buf.take s.len).take start ++ (s.buf.take s.len).drop stop
        rw [hlen, List.take_zero, List.take_nil, List.drop_nil, List.append_nil]
    have hlen' : (splice start stop ins s).len = s.len - (stop - start) + ins.length := by
      rw [splice_eq hcap]
    have hcap' : (splice start stop ins s).cap = s.cap := by
      rw [splice_eq hcap]
    refine ⟨⟨?_, ?_, fun i hi hi' ↦ ?_⟩, hcap', ?_⟩
    · exact (length_splice hcap h hle hstop hfits).trans hcap'.symm
    · exact hlen'.trans_le (hfits.trans_eq hcap'.symm)
    · change (splice start stop ins s).len ≤ i at hi
      change i < (splice start stop ins s).cap at hi'
      change (splice start stop ins s).buf[i]? = some 0
      rw [hlen'] at hi
      rw [hcap'] at hi'
      rw [getElem?_splice hcap h hle hstop hfits hi', if_neg (by omega), if_neg (by omega),
        if_neg (by omega)]
    · change (splice start stop ins s).buf.take (splice start stop ins s).len =
        (s.buf.take s.len).take start ++ ins ++ (s.buf.take s.len).drop stop
      have htake : ((s.buf.take s.len).take start).length = start :=
        List.length_take_of_le (by omega)
      rw [hlen']
      refine List.ext_getElem? fun i ↦ ?_
      rcases Nat.lt_or_ge i (s.len - (stop - start) + ins.length) with hi | hi
      · rw [List.getElem?_take_of_lt hi, getElem?_splice hcap h hle hstop hfits (by omega),
          List.append_assoc]
        rcases Nat.lt_or_ge i start with h1 | h1
        · rw [if_pos h1, List.getElem?_append_left (by omega), List.getElem?_take_of_lt h1,
            List.getElem?_take_of_lt (by omega)]
        rw [if_neg (Nat.not_lt.mpr h1), List.getElem?_append_right (by omega), htake]
        rcases Nat.lt_or_ge i (start + ins.length) with h2 | h2
        · rw [if_pos h2, List.getElem?_append_left (by omega)]
        rw [if_neg (Nat.not_lt.mpr h2), if_pos hi, List.getElem?_append_right (by omega),
          List.getElem?_drop, List.getElem?_take_of_lt (by omega), Nat.sub_sub]
      · rw [List.getElem?_eq_none (by rw [List.length_take]; omega), List.getElem?_eq_none]
        rw [List.length_append, List.length_append, htake, List.length_drop, hbytes]
        omega
  clear := by
    intro s h
    refine ⟨⟨?_, Nat.zero_le _, fun i _ hi ↦ ?_⟩, rfl, rfl⟩
    · exact List.length_replicate.trans h.size
    · change (List.replicate s.buf.length 0)[i]? = some 0
      rw [List.getElem?_replicate, if_pos (by rw [h.size]; exact hi)]

theorem wiped_new (cap : ℕ) : (secureTextInput cap).store.Wiped where
  size := List.length_replicate
  len := Nat.zero_le _
  zero i _ hi := by
    change i < cap at hi
    change (List.replicate cap 0)[i]? = some 0
    rw [List.getElem?_replicate, if_pos hi]

end SecureText

/-- A string does what a string does. -/
theorem PlainText.lawful : TextStorage.Lawful fun _ : PlainText ↦ True where
  splice _ _ _ _ := ⟨trivial, rfl, rfl⟩
  clear _ := ⟨trivial, rfl, rfl⟩

namespace TextInput

/-- The bytes are well-formed UTF-8 without controls, fit the limit, and have the caret and the
anchor on boundaries. -/
structure Sound {σ : Type} [TextStorage σ] (cap : ℕ) (m : TextInput σ) : Prop where
  text : ∃ cs : List Char, (∀ c ∈ cs, 0x20 ≤ c.toNat ∧ c.toNat ≠ 0x7F) ∧ m.bytes = encode cs
  fits : m.bytes.length ≤ cap
  caret : Boundary FieldChar m.bytes m.caret
  anchor : Boundary FieldChar m.bytes m.anchor

theorem sound_of_valid {σ : Type} [TextStorage σ] {cap : ℕ} {m : TextInput σ} (h : m.Valid cap) :
    m.Sound cap := ⟨h.caret.text, h.fits, h.caret, h.anchor⟩

/-- **Text fields.** After any operations a field holds well-formed text within its limit, with the
caret and the anchor between characters; a password field and an ordinary one have the same text,
caret and anchor, and the buffer of the former is zero beyond the text. -/
theorem sound_run (cap : ℕ) (ops : List Op) :
    let ordinary := (textInputModel cap).run ops
    let secure := (secureTextInput cap).run ops
    ordinary.Sound cap ∧ secure.Sound cap ∧ secure.bytes = ordinary.bytes ∧
      secure.caret = ordinary.caret ∧ secure.anchor = ordinary.anchor ∧
      secure.store.buf.length = cap ∧
      ∀ i, secure.bytes.length ≤ i → i < cap → secure.store.buf[i]? = some 0 := by
  intro ordinary secure
  have hempty : Boundary FieldChar [] 0 := Utf8.text_nil.boundary_zero
  have hvalid : (textInputModel cap).Valid cap := ⟨rfl, Nat.zero_le _, hempty, hempty⟩
  have hvalid' : (secureTextInput cap).Valid cap := ⟨rfl, Nat.zero_le _, hempty, hempty⟩
  have hordinary := follows_run PlainText.lawful ops trivial hvalid
  have hsecure := follows_run SecureText.lawful ops (SecureText.wiped_new cap) hvalid'
  -- Both new fields are the same string, so both runs lead to the same field.
  have hstart : (secureTextInput cap).plain = (textInputModel cap).plain := rfl
  have hsame : secure.plain = ordinary.plain := by
    rw [hsecure.plain, hordinary.plain, hstart]
  have hbytes : secure.bytes = ordinary.bytes := congrArg (fun m ↦ m.store.buf) hsame
  have hcap : secure.byteCap = cap := hsecure.valid.limit
  refine ⟨sound_of_valid hordinary.valid, sound_of_valid hsecure.valid, hbytes,
    congrArg TextInput.caret hsame, congrArg TextInput.anchor hsame,
    hsecure.inv.size.trans hcap, fun i hi hi' ↦ ?_⟩
  have hlen : secure.bytes.length = secure.store.len := List.length_take_of_le (by
    rw [hsecure.inv.size]
    exact hsecure.inv.len)
  exact hsecure.inv.zero i (hlen ▸ hi) (hi'.trans_eq hcap.symm)

end TextInput

end SafeVault
