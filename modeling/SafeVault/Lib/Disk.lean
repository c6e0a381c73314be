import Mathlib.Data.List.Basic
import Mathlib.Order.Lattice.Nat

/-!
# A file that can lose writes

A file as the program that writes it sees it, together with what the medium is not yet known to
hold. A byte is *dirty* from a write that touches it until the next successful sync; after a loss of
power dirty bytes are arbitrary, or missing, and all others are as they were. The head of the file is
apart: it is replaced as a whole, and a replacement either reaches the medium or does not.

All facts are about single bytes: an operation leaves a byte *untouched* when its value stays and it
does not become dirty. Facts about spans of bytes follow.
-/

namespace SafeVault

/-- A file with its head. Positions count from the start of the file; those below the size of the head
are not looked at. -/
structure Disk where
  content : List UInt8
  dirty : ℕ → Bool
  head : List UInt8

namespace Disk

/-- The file size. -/
def size (d : Disk) : ℕ := d.content.length

/-! ## Operations -/

/-- Overwrite bytes; writing past the end first fills the gap with zeros. -/
def write (offset : ℕ) (bytes : List UInt8) (d : Disk) : Disk :=
  { d with
    content := d.content.take offset ++ List.replicate (offset - d.size) 0 ++ bytes ++
      d.content.drop (offset + bytes.length)
    dirty := fun p ↦ d.dirty p || (min offset d.size ≤ p && p < offset + bytes.length) }

/-- Write at the end. -/
def append (bytes : List UInt8) (d : Disk) : Disk := d.write d.size bytes

/-- All bytes reach the medium. -/
def sync (d : Disk) : Disk := { d with dirty := fun _ ↦ false }

/-- Read a span that lies inside the file. -/
def read (offset length : ℕ) (d : Disk) : Option (List UInt8) :=
  if offset + length ≤ d.size then some ((d.content.drop offset).take length) else none

/-! ## Single bytes -/

/-- A byte keeps its value and does not become dirty. -/
structure Untouched (p : ℕ) (d d' : Disk) : Prop where
  value : d'.content[p]? = d.content[p]?
  clean : d.dirty p = false → d'.dirty p = false

/-- The file as it may be found after a crash. Dirty bytes may also be as they were, and still dirty:
that is what is left when only the program dies. -/
structure Survives (d found : Disk) : Prop where
  head : found.head = d.head
  clean : ∀ p, d.dirty p = false → Untouched p d found

variable {d d' d'' : Disk} {p offset length : ℕ} {bytes : List UInt8}

theorem Untouched.refl (p : ℕ) (d : Disk) : Untouched p d d := ⟨rfl, id⟩

theorem Untouched.trans (h : Untouched p d d') (h' : Untouched p d' d'') : Untouched p d d'' :=
  ⟨h'.value.trans h.value, fun hp ↦ h'.clean (h.clean hp)⟩

theorem size_write (h : offset ≤ d.size) :
    (d.write offset bytes).size = max d.size (offset + bytes.length) := by
  simp only [size, write] at h ⊢
  simp only [List.length_append, List.length_take, List.length_replicate, List.length_drop]
  omega

theorem getElem?_write (h : offset ≤ d.size) :
    (d.write offset bytes).content[p]? =
      if offset ≤ p ∧ p < offset + bytes.length then bytes[p - offset]? else d.content[p]? := by
  have htake : (d.content.take offset).length = offset := by
    rw [List.length_take]
    exact min_eq_left h
  have hgap : offset - d.size = 0 := by omega
  simp only [write, hgap, List.replicate_zero, List.append_nil]
  rcases lt_or_ge p offset with hlow | hhigh
  · rw [if_neg (by omega), List.append_assoc, List.getElem?_append_left (by omega),
      List.getElem?_take_of_lt hlow]
  · rcases lt_or_ge p (offset + bytes.length) with hin | hout
    · rw [if_pos ⟨hhigh, hin⟩, List.append_assoc, List.getElem?_append_right (by omega), htake,
        List.getElem?_append_left (by omega)]
    · rw [if_neg (by omega), List.getElem?_append_right (by rw [List.length_append]; omega),
        List.length_append, htake, List.getElem?_drop]
      congr 1
      omega

theorem untouched_write (h : offset ≤ d.size) (hp : p < offset ∨ offset + bytes.length ≤ p) :
    Untouched p d (d.write offset bytes) := by
  refine ⟨?_, fun hclean ↦ ?_⟩
  · rw [getElem?_write h, if_neg (by omega)]
  · simp only [write, hclean, Bool.false_or, Bool.and_eq_false_iff, decide_eq_false_iff_not]
    omega

theorem size_append : (d.append bytes).size = d.size + bytes.length := by
  rw [append, size_write le_rfl]
  omega

theorem untouched_append (hp : p < d.size) : Untouched p d (d.append bytes) :=
  untouched_write le_rfl (Or.inl hp)

@[simp] theorem size_sync : d.sync.size = d.size := rfl

theorem untouched_sync : Untouched p d d.sync := ⟨rfl, fun _ ↦ rfl⟩

/-- What is appended may be lost with the power, all of it. -/
theorem survives_append : (d.append bytes).Survives d := by
  refine ⟨rfl, fun p hp ↦ ?_⟩
  simp only [append, write, Bool.or_eq_false_iff, Bool.and_eq_false_iff, decide_eq_false_iff_not] at hp
  refine ⟨?_, fun _ ↦ hp.1⟩
  rw [append, getElem?_write le_rfl, if_neg (by omega)]

/-! ## Spans -/

/-- The file holds these bytes at an offset. -/
def Holds (d : Disk) (offset : ℕ) (bytes : List UInt8) : Prop :=
  ∀ i < bytes.length, d.content[offset + i]? = bytes[i]?

/-- The medium holds these bytes at an offset. -/
structure Durable (d : Disk) (offset : ℕ) (bytes : List UInt8) : Prop where
  holds : d.Holds offset bytes
  clean : ∀ i < bytes.length, d.dirty (offset + i) = false

theorem Holds.of_untouched (h : d.Holds offset bytes)
    (hp : ∀ i < bytes.length, Untouched (offset + i) d d') : d'.Holds offset bytes :=
  fun i hi ↦ (hp i hi).value.trans (h i hi)

theorem Durable.of_untouched (h : d.Durable offset bytes)
    (hp : ∀ i < bytes.length, Untouched (offset + i) d d') : d'.Durable offset bytes :=
  ⟨h.holds.of_untouched hp, fun i hi ↦ (hp i hi).clean (h.clean i hi)⟩

theorem Durable.survives (h : d.Durable offset bytes) (hd : d.Survives d') :
    d'.Durable offset bytes :=
  h.of_untouched fun i hi ↦ hd.clean _ (h.clean i hi)

theorem Holds.durable_sync (h : d.Holds offset bytes) : d.sync.Durable offset bytes :=
  ⟨h, fun _ _ ↦ rfl⟩

theorem holds_write (h : offset ≤ d.size) : (d.write offset bytes).Holds offset bytes := by
  intro i hi
  rw [getElem?_write h, if_pos (by omega), Nat.add_sub_cancel_left]

theorem holds_append : (d.append bytes).Holds d.size bytes := holds_write le_rfl

theorem Holds.lt_size (h : d.Holds offset bytes) {i : ℕ} (hi : i < bytes.length) :
    offset + i < d.size := by
  have hvalue := h i hi
  rw [List.getElem?_eq_getElem hi] at hvalue
  exact (List.getElem?_eq_some_iff.mp hvalue).1

/-- A span that is held lies inside the file. -/
theorem Holds.le_size (h : d.Holds offset bytes) (hne : bytes ≠ []) :
    offset + bytes.length ≤ d.size := by
  have hlen := List.length_pos_of_ne_nil hne
  have hlast := h.lt_size (i := bytes.length - 1) (by omega)
  omega

theorem Holds.read (h : d.Holds offset bytes) (hsize : offset + bytes.length ≤ d.size) :
    d.read offset bytes.length = some bytes := by
  rw [Disk.read, if_pos hsize, Option.some_inj]
  refine List.ext_getElem? fun i ↦ ?_
  rcases lt_or_ge i bytes.length with hi | hi
  · rw [List.getElem?_take_of_lt hi, List.getElem?_drop]
    exact h i hi
  · rw [List.getElem?_eq_none hi, List.getElem?_eq_none]
    rw [List.length_take]
    exact (Nat.min_le_left _ _).trans hi

theorem holds_of_read (h : d.read offset length = some bytes) :
    bytes.length = length ∧ d.Holds offset bytes := by
  rw [Disk.read] at h
  split_ifs at h with hsize
  cases h
  have hlen : ((d.content.drop offset).take length).length = length := by
    rw [List.length_take, List.length_drop]
    rw [size] at hsize
    omega
  refine ⟨hlen, fun i hi ↦ ?_⟩
  rw [hlen] at hi
  rw [List.getElem?_take_of_lt hi, List.getElem?_drop]

end Disk

end SafeVault
