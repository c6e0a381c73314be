import SafeVault.Index.Node
import SafeVault.Lib.LittleEndian
import SafeVault.Lib.Reader

/-!
# Fixed-width byte I/O

The byte writer appends, so each of its operations is the list of bytes it appends. The byte reader
is the latched cursor of the reader library over bytes with filler `0`: a word read past the end is
`0`, an array read past the end keeps its zero fill, and in both cases the latch is set.

Every reader here comes with three facts: it reads back what the writer wrote, it is a parser in the
sense of the library, and, where a node starts with it, it is a token.
-/

namespace SafeVault

open Read

/-! ## ByteWriter -/

namespace ByteWriter

def u8 (v : UInt8) : Bytes := [v]

def u16 (v : UInt16) : Bytes := LittleEndian.encode 2 v.toNat

def u32 (v : UInt32) : Bytes := LittleEndian.encode 4 v.toNat

def u64 (v : UInt64) : Bytes := LittleEndian.encode 8 v.toNat

/-- An identifier, as its sixteen bytes. -/
def id (v : NodeId) : Bytes := v.bytes

/-- A flag, as the byte `0` or `1`. -/
def flag (b : Bool) : Bytes := u8 (if b then 1 else 0)

end ByteWriter

/-! ## ByteReader -/

/-- A reader of bytes. -/
abbrev ByteReader (α : Type) := Read UInt8 α

namespace ByteReader

variable {α : Type}

/-- An `n`-byte little-endian word, converted by `f`. -/
def word (n : ℕ) (f : ℕ → α) : ByteReader α := do
  let bs ← take 0 n
  pure (f (LittleEndian.decode bs))

def u8 : ByteReader UInt8 := do
  let bs ← take 0 1
  pure (bs.headD 0)

def u16 : ByteReader UInt16 := word 2 UInt16.ofNat

def u32 : ByteReader UInt32 := word 4 UInt32.ofNat

def u64 : ByteReader UInt64 := word 8 UInt64.ofNat

/-- Read into a caller's array of `n` zeros. -/
def bytes (n : ℕ) : ByteReader Bytes := take 0 n

/-- Read into an identifier. -/
def id : ByteReader NodeId := do
  let bs ← take 0 nodeIdSize
  pure (NodeId.ofBytes bs)

end ByteReader

/-! ## Reading back -/

section Frames

theorem frames_word {α : Type} {n v : ℕ} (f : ℕ → α) (h : v < 256 ^ n) :
    Frames (ByteReader.word n f) (LittleEndian.encode n v) (f v) := by
  have hread := (frames_take 0 (LittleEndian.length_encode n v)).bind_pure
    (fun bs ↦ f (LittleEndian.decode bs))
  rwa [LittleEndian.decode_encode, Nat.mod_eq_of_lt h] at hread

theorem frames_u8 (v : UInt8) : Frames ByteReader.u8 (ByteWriter.u8 v) v := by
  have h : Frames (take 0 1) [v] [v] := frames_take 0 rfl
  exact h.bind_pure fun bs ↦ bs.headD 0

theorem frames_u16 (v : UInt16) : Frames ByteReader.u16 (ByteWriter.u16 v) v := by
  have h := frames_word (n := 2) UInt16.ofNat v.toNat_lt
  rwa [UInt16.ofNat_toNat] at h

theorem frames_u32 (v : UInt32) : Frames ByteReader.u32 (ByteWriter.u32 v) v := by
  have h := frames_word (n := 4) UInt32.ofNat v.toNat_lt
  rwa [UInt32.ofNat_toNat] at h

theorem frames_u64 (v : UInt64) : Frames ByteReader.u64 (ByteWriter.u64 v) v := by
  have h := frames_word (n := 8) UInt64.ofNat v.toNat_lt
  rwa [UInt64.ofNat_toNat] at h

theorem frames_bytes (bs : Bytes) : Frames (ByteReader.bytes bs.length) bs bs :=
  frames_take 0 rfl

theorem frames_id (v : NodeId) : Frames ByteReader.id (ByteWriter.id v) v := by
  have h := (frames_take 0 v.size).bind_pure NodeId.ofBytes
  rwa [NodeId.ofBytes_bytes] at h

end Frames

/-! ## Every input -/

section Parses

variable {D : ℕ}

theorem parses_word {α : Type} (n : ℕ) (f : ℕ → α) :
    Parses D (fun _ ↦ True) (ByteReader.word n f) :=
  (parses_take 0 n).map _ fun _ _ ↦ trivial

theorem parses_u8 : Parses D (fun _ ↦ True) ByteReader.u8 :=
  (parses_take 0 1).map _ fun _ _ ↦ trivial

theorem parses_u16 : Parses D (fun _ ↦ True) ByteReader.u16 := parses_word 2 _

theorem parses_u32 : Parses D (fun _ ↦ True) ByteReader.u32 := parses_word 4 _

theorem parses_u64 : Parses D (fun _ ↦ True) ByteReader.u64 := parses_word 8 _

theorem parses_bytes (n : ℕ) : Parses D (fun bs ↦ bs.length = n) (ByteReader.bytes n) :=
  parses_take 0 n

theorem parses_id : Parses D (fun _ ↦ True) ByteReader.id :=
  (parses_take 0 nodeIdSize).map _ fun _ _ ↦ trivial

theorem token_u8 : Token ByteReader.u8 := (token_take 0 Nat.one_pos).map _

end Parses

end SafeVault
