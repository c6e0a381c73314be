import SafeVault.Lib.AsciiFold
import SafeVault.Lib.Utf8

/-!
# Editable text

A single-line text field: bytes with a caret and an anchor, the selection being what is between the
two. The editing is written once over a storage that can show its bytes, replace a range of them and
be cleared; ordinary fields keep a string, password fields a locked buffer of a fixed size.

What is typed or pasted is taken in runs of acceptable characters, and everything else is dropped: a
character is acceptable if it is well-formed UTF-8 and neither a control nor `DEL`. A run that does
not fit is cut between two characters.
-/

namespace SafeVault

open Utf8 (isCont)

namespace TextInput

/-! ## Characters -/

/-- The length of the sequence that a byte leads, or `0` if it leads none. -/
def sequenceLength (b : UInt8) : ℕ :=
  if b < 0x80 then 1
  else if 0xC2 ≤ b ∧ b ≤ 0xDF then 2
  else if 0xE0 ≤ b ∧ b ≤ 0xEF then 3
  else if 0xF0 ≤ b ∧ b ≤ 0xF4 then 4
  else 0

/-- Whether the first `len` bytes are a well-formed sequence, given the length the first one calls
for. Overlong forms, surrogates and what is beyond Unicode are told by the second byte. -/
def sequenceIsValid (p : Bytes) (len : ℕ) : Bool :=
  if len = 0 ∨ p.length < len then false
  else if len = 1 then true
  else if ((p.take len).drop 1).any (!isCont ·) then false
  else
    let b0 := p.getD 0 0
    let b1 := p.getD 1 0
    if b0 = 0xE0 ∧ b1 < 0xA0 then false
    else if b0 = 0xED ∧ 0xA0 ≤ b1 then false
    else if b0 = 0xF0 ∧ b1 < 0x90 then false
    else if b0 = 0xF4 ∧ 0x90 ≤ b1 then false
    else true

/-- The length of the acceptable character at the head of a text, or `0` if there is none. -/
def acceptableAt (text : Bytes) : ℕ :=
  let b := text.getD 0 0
  let len := sequenceLength b
  if !sequenceIsValid text len then 0
  else if len = 1 ∧ (b < 0x20 ∨ b = 0x7F) then 0
  else len

/-- The length of the longest acceptable beginning. -/
def acceptableInputRun (text : Bytes) : ℕ :=
  if text ≠ [] ∧ acceptableAt text ≠ 0 then
    acceptableAt text + acceptableInputRun (text.drop (acceptableAt text))
  else 0
termination_by text.length
decreasing_by
  rename_i h
  rw [List.length_drop]
  have := List.length_pos_of_ne_nil h.1
  omega

/-- How many bytes to skip before the next acceptable character. -/
def skipUnacceptable : Bytes → ℕ
  | [] => 0
  | b :: text => if acceptableAt (b :: text) = 0 then skipUnacceptable text + 1 else 0

/-! ## Boundaries -/

/-- The last place up to `n`, and not at the end, where no continuation byte stands. -/
def stepBack (buf : Bytes) : ℕ → ℕ
  | 0 => 0
  | n + 1 => if isCont (buf.getD (n + 1) 0) then stepBack buf n else n + 1

/-- The place before the character before `pos`. -/
def utf8PrevBoundary (buf : Bytes) (pos : ℕ) : ℕ :=
  if pos = 0 then 0 else stepBack buf (min pos buf.length - 1)

/-- The place after the character after `pos`. -/
def utf8NextBoundary (buf : Bytes) (pos : ℕ) : ℕ :=
  if buf.length ≤ pos then buf.length
  else pos + 1 + ((buf.drop (pos + 1)).takeWhile isCont).length

inductive CharClass where
  | space | word | punct
  deriving DecidableEq

/-- The class of a character by its first byte. -/
def classify (lead : UInt8) : CharClass :=
  if 0x80 ≤ lead then .word
  else if lead = 32 ∨ lead = 9 ∨ lead = 10 ∨ lead = 13 ∨ lead = 11 ∨ lead = 12 then .space
  else if (48 ≤ lead ∧ lead ≤ 57) ∨ (65 ≤ lead ∧ lead ≤ 90) ∨ (97 ≤ lead ∧ lead ≤ 122) ∨ lead = 95
    then .word
  else .punct

def classAt (buf : Bytes) (pos : ℕ) : CharClass := classify (buf.getD pos 0)

def classBefore (buf : Bytes) (pos : ℕ) : CharClass :=
  classify (buf.getD (utf8PrevBoundary buf pos) 0)

theorem stepBack_le (buf : Bytes) (n : ℕ) : stepBack buf n ≤ n := by
  induction n with
  | zero => exact le_rfl
  | succ n ih =>
    rw [stepBack]
    split_ifs
    · exact ih.trans (Nat.le_succ n)
    · exact le_rfl

theorem utf8PrevBoundary_lt {buf : Bytes} {pos : ℕ} (h : 0 < pos) :
    utf8PrevBoundary buf pos < pos := by
  have := stepBack_le buf (min pos buf.length - 1)
  rw [utf8PrevBoundary, if_neg (Nat.ne_of_gt h)]
  omega

theorem lt_utf8NextBoundary {buf : Bytes} {pos : ℕ} (h : pos < buf.length) :
    pos < utf8NextBoundary buf pos := by
  rw [utf8NextBoundary, if_neg (Nat.not_le_of_lt h)]
  omega

/-- A loop of `word_boundary_left`: step back over characters of one class. -/
def skipLeft (buf : Bytes) (cls : CharClass) (i : ℕ) : ℕ :=
  if 0 < i ∧ classBefore buf i = cls then skipLeft buf cls (utf8PrevBoundary buf i) else i
termination_by i
decreasing_by
  rename_i h
  exact utf8PrevBoundary_lt h.1

/-- A loop of `word_boundary_right`. -/
def skipRight (buf : Bytes) (cls : CharClass) (i : ℕ) : ℕ :=
  if i < buf.length ∧ classAt buf i = cls then skipRight buf cls (utf8NextBoundary buf i) else i
termination_by buf.length - i
decreasing_by
  rename_i h
  have := lt_utf8NextBoundary h.1
  omega

def wordBoundaryLeft (buf : Bytes) (pos : ℕ) : ℕ :=
  let i := skipLeft buf .space (min pos buf.length)
  if i = 0 then 0 else skipLeft buf (classBefore buf i) i

def wordBoundaryRight (buf : Bytes) (pos : ℕ) : ℕ :=
  let i := skipRight buf .space (min pos buf.length)
  if buf.length ≤ i then buf.length else skipRight buf (classAt buf i) i

end TextInput

/-! ## The field -/

/-- What the editing needs of a storage. -/
class TextStorage (σ : Type) where
  bytes : σ → Bytes
  byteCap : σ → ℕ
  /-- Replace the bytes from the first place up to the second. -/
  splice : ℕ → ℕ → Bytes → σ → σ
  clear : σ → σ

/-- `TextInputBase`, over a storage. -/
structure TextInput (σ : Type) where
  store : σ
  caret : ℕ := 0
  anchor : ℕ := 0
  revision : UInt64 := 0

namespace TextInput

variable {σ : Type} [TextStorage σ]

def bytes (m : TextInput σ) : Bytes := TextStorage.bytes m.store

def byteCap (m : TextInput σ) : ℕ := TextStorage.byteCap m.store

def size (m : TextInput σ) : ℕ := m.bytes.length

def selBegin (m : TextInput σ) : ℕ := min m.caret m.anchor

def selEnd (m : TextInput σ) : ℕ := max m.caret m.anchor

def hasSelection (m : TextInput σ) : Bool := m.selBegin != m.selEnd

def applySplice (start stop : ℕ) (ins : Bytes) (m : TextInput σ) : TextInput σ :=
  { m with store := TextStorage.splice start stop ins m.store, revision := m.revision + 1 }

def placeCaret (pos : ℕ) (extend : Bool) (m : TextInput σ) : TextInput σ :=
  let caret := min pos m.size
  { m with caret, anchor := if extend then m.anchor else caret }

/-- How much of a run is taken: what there is room for, cut at a boundary. -/
def takeOfRun (run : Bytes) (room : ℕ) : ℕ :=
  if room < run.length then stepBack run room else run.length

def insertRun (run : Bytes) (m : TextInput σ) : TextInput σ :=
  let start := m.selBegin
  let stop := m.selEnd
  let room := m.byteCap - min m.byteCap (m.size - (stop - start))
  let take := takeOfRun run room
  if take = 0 ∧ start = stop then m
  else
    { m.applySplice start stop (run.take take) with caret := start + take, anchor := start + take }

/-- The loop of `insert`, from an acceptable character or the end on. -/
def insertRuns (text : Bytes) (m : TextInput σ) : TextInput σ :=
  if text ≠ [] ∧ acceptableInputRun text ≠ 0 then
    let rest := text.drop (acceptableInputRun text)
    insertRuns (rest.drop (skipUnacceptable rest)) (m.insertRun (text.take (acceptableInputRun text)))
  else m
termination_by text.length
decreasing_by
  rename_i h
  rw [List.length_drop, List.length_drop]
  have := List.length_pos_of_ne_nil h.1
  omega

def insert (text : Bytes) (m : TextInput σ) : TextInput σ :=
  m.insertRuns (text.drop (skipUnacceptable text))

def deleteSelection (m : TextInput σ) : TextInput σ :=
  if !m.hasSelection then m
  else
    { m.applySplice m.selBegin m.selEnd [] with caret := m.selBegin, anchor := m.selBegin }

def backspace (m : TextInput σ) : TextInput σ :=
  if m.hasSelection then m.deleteSelection
  else if m.caret = 0 then m
  else
    let start := utf8PrevBoundary m.bytes m.caret
    { m.applySplice start m.caret [] with caret := start, anchor := start }

def del (m : TextInput σ) : TextInput σ :=
  if m.hasSelection then m.deleteSelection
  else if m.size ≤ m.caret then m
  else { m.applySplice m.caret (utf8NextBoundary m.bytes m.caret) [] with anchor := m.caret }

/-- Without `extend` a selection collapses to its near edge, and the caret does not step. -/
def moveLeft (byWord extend : Bool) (m : TextInput σ) : TextInput σ :=
  if !extend && m.hasSelection && !byWord then m.placeCaret m.selBegin false
  else
    m.placeCaret (if byWord then wordBoundaryLeft m.bytes m.caret
      else utf8PrevBoundary m.bytes m.caret) extend

def moveRight (byWord extend : Bool) (m : TextInput σ) : TextInput σ :=
  if !extend && m.hasSelection && !byWord then m.placeCaret m.selEnd false
  else
    m.placeCaret (if byWord then wordBoundaryRight m.bytes m.caret
      else utf8NextBoundary m.bytes m.caret) extend

def moveHome (extend : Bool) (m : TextInput σ) : TextInput σ := m.placeCaret 0 extend

def moveEnd (extend : Bool) (m : TextInput σ) : TextInput σ := m.placeCaret m.size extend

def selectAll (m : TextInput σ) : TextInput σ := { m with anchor := 0, caret := m.size }

def clear (m : TextInput σ) : TextInput σ :=
  ⟨TextStorage.clear m.store, 0, 0, m.revision + 1⟩

def setText (text : Bytes) (m : TextInput σ) : TextInput σ := m.clear.insert text

/-- The operations of a field. -/
inductive Op where
  | insert (text : Bytes)
  | setText (text : Bytes)
  | backspace | del | deleteSelection
  | moveLeft (byWord extend : Bool)
  | moveRight (byWord extend : Bool)
  | moveHome (extend : Bool)
  | moveEnd (extend : Bool)
  | selectAll | clear

def apply (op : Op) (m : TextInput σ) : TextInput σ :=
  match op with
  | .insert text => m.insert text
  | .setText text => m.setText text
  | .backspace => m.backspace
  | .del => m.del
  | .deleteSelection => m.deleteSelection
  | .moveLeft byWord extend => m.moveLeft byWord extend
  | .moveRight byWord extend => m.moveRight byWord extend
  | .moveHome extend => m.moveHome extend
  | .moveEnd extend => m.moveEnd extend
  | .selectAll => m.selectAll
  | .clear => m.clear

/-- A sequence of operations, the first one first. -/
def run (ops : List Op) (m : TextInput σ) : TextInput σ := ops.foldl (fun m op ↦ m.apply op) m

end TextInput

/-! ## The two storages -/

/-- `TextInputModel`: a string and its limit. -/
structure PlainText where
  buf : Bytes := []
  cap : ℕ

/-- `std::string::replace`. -/
instance : TextStorage PlainText where
  bytes s := s.buf
  byteCap s := s.cap
  splice start stop ins s := { s with buf := s.buf.take start ++ ins ++ s.buf.drop stop }
  clear s := { s with buf := [] }

/-- `SecureTextInput`: a buffer of a fixed size, of which the first `len` bytes are the text. -/
structure SecureText where
  buf : Bytes
  cap : ℕ
  len : ℕ := 0

namespace SecureText

/-- Write bytes over those of a buffer from a place on. -/
def overwrite (buf : Bytes) (pos : ℕ) (src : Bytes) : Bytes :=
  buf.take pos ++ src ++ buf.drop (pos + src.length)

/-- `SecureTextInput::splice`: the tail is moved, the new bytes are laid into the gap, and what the
tail leaves behind is wiped. -/
def splice (start stop : ℕ) (ins : Bytes) (s : SecureText) : SecureText :=
  if s.cap = 0 then s
  else
    let tail := s.len - stop
    let newLen := s.len - (stop - start) + ins.length
    let moved := if 0 < tail then
        overwrite s.buf (start + ins.length) ((s.buf.drop stop).take tail)
      else s.buf
    let filled := if ins.isEmpty then moved else overwrite moved start ins
    let wiped := if newLen < s.len then
        overwrite filled newLen (List.replicate (s.len - newLen) 0)
      else filled
    { s with buf := wiped, len := newLen }

end SecureText

instance : TextStorage SecureText where
  bytes s := s.buf.take s.len
  byteCap s := s.cap
  splice := SecureText.splice
  clear s := { s with buf := List.replicate s.buf.length 0, len := 0 }

/-- A new field for ordinary text. -/
def textInputModel (cap : ℕ) : TextInput PlainText := { store := { cap } }

/-- A new field for a password, when its buffer could be allocated. -/
def secureTextInput (cap : ℕ) : TextInput SecureText :=
  { store := { buf := List.replicate cap 0, cap } }

end SafeVault
