import Mathlib.Data.List.Basic
import Mathlib.Data.List.Chain
import Mathlib.Tactic.Ring

/-!
# Records at fixed offsets

A buffer filled by writing fields at fixed offsets, and read by cutting them out again. Fields that
are listed in the order of their offsets and do not overlap are found where they were put, whatever
the order of the writes and whatever the gaps hold.
-/

namespace SafeVault

namespace Layout

/-- Overwrite the bytes from an offset on. -/
def put (offset : ℕ) (bytes out : List UInt8) : List UInt8 :=
  out.take offset ++ bytes ++ out.drop (offset + bytes.length)

/-- The bytes at an offset. -/
def slice (offset length : ℕ) (out : List UInt8) : List UInt8 := (out.drop offset).take length

/-- A field: an offset and the bytes that go there. -/
abbrev Field := ℕ × List UInt8

/-- Write all fields. -/
def fill (fields : List Field) (out : List UInt8) : List UInt8 :=
  fields.foldl (fun out f ↦ put f.1 f.2 out) out

variable {offset offset' length : ℕ} {bytes bytes' out : List UInt8} {fields : List Field}

theorem length_put (h : offset + bytes.length ≤ out.length) :
    (put offset bytes out).length = out.length := by
  simp only [put, List.length_append, List.length_take, List.length_drop]
  omega

theorem slice_put_self (h : offset ≤ out.length) :
    slice offset bytes.length (put offset bytes out) = bytes := by
  have htake : (out.take offset).length = offset := by
    rw [List.length_take]
    exact min_eq_left h
  rw [slice, put, List.append_assoc, List.drop_left' htake, List.take_left]

/-- Disjoint fields do not disturb each other. -/
theorem slice_put_of_disjoint (hfit : offset + bytes.length ≤ out.length)
    (hdisj : offset' + length ≤ offset ∨ offset + bytes.length ≤ offset') :
    slice offset' length (put offset bytes out) = slice offset' length out := by
  have htake : (out.take offset).length = offset := by
    rw [List.length_take]
    exact min_eq_left (by omega)
  refine List.ext_getElem? fun i ↦ ?_
  simp only [slice, List.getElem?_take, List.getElem?_drop]
  split_ifs with hi
  · rw [put]
    rcases hdisj with hlow | hhigh
    · rw [List.append_assoc, List.getElem?_append_left (by omega),
        List.getElem?_take_of_lt (by omega)]
    · rw [List.getElem?_append_right (by rw [List.length_append]; omega), List.length_append,
        htake, List.getElem?_drop]
      congr 1
      omega
  · rfl

theorem length_fill (hfit : ∀ f ∈ fields, f.1 + f.2.length ≤ out.length) :
    (fill fields out).length = out.length := by
  induction fields generalizing out with
  | nil => rfl
  | cons f fields ih =>
    obtain ⟨hf, hfields⟩ := List.forall_mem_cons.mp hfit
    have hlen := length_put hf
    exact (ih (by rwa [hlen])).trans hlen

/-- What no field touches stays as it was. -/
theorem slice_fill_of_disjoint (hfit : ∀ f ∈ fields, f.1 + f.2.length ≤ out.length)
    (hdisj : ∀ f ∈ fields, offset + length ≤ f.1 ∨ f.1 + f.2.length ≤ offset) :
    slice offset length (fill fields out) = slice offset length out := by
  induction fields generalizing out with
  | nil => rfl
  | cons f fields ih =>
    obtain ⟨hf, hfit⟩ := List.forall_mem_cons.mp hfit
    obtain ⟨hdf, hdisj⟩ := List.forall_mem_cons.mp hdisj
    exact (ih (by rwa [length_put hf]) hdisj).trans (slice_put_of_disjoint hf hdf)

/-- One field ends before the other begins. -/
def Before (f g : Field) : Prop := f.1 + f.2.length ≤ g.1

theorem Before.trans {f g h : Field} (hfg : Before f g) (hgh : Before g h) : Before f h := by
  rw [Before] at *
  omega

instance : Trans Before Before Before := ⟨Before.trans⟩

/-- Every field is found where it was put. -/
theorem slice_fill (hfit : ∀ f ∈ fields, f.1 + f.2.length ≤ out.length)
    (hsorted : fields.Pairwise Before) {f : Field} (hf : f ∈ fields) :
    slice f.1 f.2.length (fill fields out) = f.2 := by
  induction fields generalizing out with
  | nil => exact absurd hf List.not_mem_nil
  | cons g fields ih =>
    obtain ⟨hg, hfields⟩ := List.forall_mem_cons.mp hfit
    obtain ⟨hbefore, hsorted⟩ := List.pairwise_cons.mp hsorted
    have hlen := length_put hg
    rcases List.mem_cons.mp hf with rfl | hf
    · -- The fields written later begin after this one.
      have hlater : slice f.1 f.2.length (fill fields (put f.1 f.2 out)) =
          slice f.1 f.2.length (put f.1 f.2 out) :=
        slice_fill_of_disjoint (by rwa [hlen]) fun g hg ↦ .inl (hbefore g hg)
      exact hlater.trans (slice_put_self (by omega))
    · exact ih (by rwa [hlen]) hsorted hf

/-- The fields are in the order of their offsets and within a buffer of some size. -/
structure Fits (fields : List Field) (size : ℕ) : Prop where
  fit : ∀ f ∈ fields, f.1 + f.2.length ≤ size
  sorted : fields.Pairwise Before

section Fits

variable {size : ℕ} (h : Fits fields size)

include h

theorem Fits.fit_replicate : ∀ f ∈ fields,
    f.1 + f.2.length ≤ (List.replicate size (0 : UInt8)).length := by
  rw [List.length_replicate]
  exact h.fit

theorem Fits.length_fill : (fill fields (List.replicate size 0)).length = size := by
  rw [Layout.length_fill h.fit_replicate, List.length_replicate]

theorem Fits.slice_fill {f : Field} (hf : f ∈ fields) :
    slice f.1 f.2.length (fill fields (List.replicate size 0)) = f.2 :=
  Layout.slice_fill h.fit_replicate h.sorted hf

/-- Between the fields there are zeros. -/
theorem Fits.slice_gap (hin : offset + length ≤ size)
    (hgap : ∀ f ∈ fields, offset + length ≤ f.1 ∨ f.1 + f.2.length ≤ offset) :
    slice offset length (fill fields (List.replicate size 0)) = List.replicate length 0 := by
  have hlen : min length (size - offset) = length := by omega
  rw [slice_fill_of_disjoint h.fit_replicate hgap, slice, List.drop_replicate, List.take_replicate,
    hlen]

/-- **A buffer is its fields.** A buffer that has every field at its offset, and zeros elsewhere, is the
one that is filled with the fields. -/
theorem Fits.fill_eq (hlen : out.length = size)
    (hfields : ∀ f ∈ fields, slice f.1 f.2.length out = f.2)
    (hgap : ∀ i < size, (∀ f ∈ fields, i < f.1 ∨ f.1 + f.2.length ≤ i) → out[i]? = some 0) :
    fill fields (List.replicate size 0) = out := by
  have hat {offset length i : ℕ} {a b : List UInt8} (hslice : slice offset length a = slice offset length b)
      (hi : offset ≤ i ∧ i < offset + length) : a[i]? = b[i]? := by
    have hget := congrArg (·[i - offset]?) hslice
    simp only [slice, List.getElem?_take, List.getElem?_drop] at hget
    rw [if_pos (by omega), if_pos (by omega)] at hget
    rwa [Nat.add_sub_cancel' hi.1] at hget
  refine List.ext_getElem? fun i ↦ ?_
  by_cases hi : i < size
  · by_cases hcovered : ∃ f ∈ fields, f.1 ≤ i ∧ i < f.1 + f.2.length
    · obtain ⟨f, hf, hin⟩ := hcovered
      exact hat ((h.slice_fill hf).trans (hfields f hf).symm) hin
    · have houtside : ∀ f ∈ fields, i < f.1 ∨ f.1 + f.2.length ≤ i := fun f hf ↦ by
        by_contra hcon
        exact hcovered ⟨f, hf, by omega, by omega⟩
      have hzero : slice i 1 (fill fields (List.replicate size 0)) = slice i 1 (List.replicate size 0) := by
        rw [h.slice_gap hi fun f hf ↦ (houtside f hf).imp_left Nat.succ_le_of_lt, slice,
          List.drop_replicate, List.take_replicate, min_eq_left (by omega)]
      rw [hat hzero ⟨le_rfl, Nat.lt_succ_self i⟩, hgap i hi houtside, List.getElem?_replicate, if_pos hi]
  · rw [List.getElem?_eq_none (h.length_fill.le.trans (not_lt.mp hi)),
      List.getElem?_eq_none (hlen.le.trans (not_lt.mp hi))]

end Fits

/-! ## Buffers laid end to end -/

theorem length_slice (h : offset + length ≤ out.length) : (slice offset length out).length = length := by
  rw [slice, List.length_take, List.length_drop]
  omega

theorem slice_zero_length : slice 0 out.length out = out := by
  rw [slice, List.drop_zero, List.take_length]

/-- **A cut through two buffers** is a cut of the first and a cut of the second. -/
theorem slice_append : slice offset length (out ++ bytes) =
    slice offset length out ++ slice (offset - out.length) (length - (out.length - offset)) bytes := by
  simp only [slice, List.drop_append, List.take_append, List.length_drop]

theorem slice_append_left (h : offset + length ≤ out.length) :
    slice offset length (out ++ bytes) = slice offset length out := by
  have hrest : length - (out.length - offset) = 0 := by omega
  rw [slice_append, hrest, slice, slice, List.take_zero, List.append_nil]

theorem slice_append_right (h : out.length ≤ offset) :
    slice offset length (out ++ bytes) = slice (offset - out.length) length bytes := by
  have hpast : out.length - offset = 0 := by omega
  rw [slice_append, hpast, Nat.sub_zero, slice, List.drop_eq_nil_of_le h, List.take_nil,
    List.nil_append]

/-- A buffer in the middle of others. -/
theorem slice_append_middle (head middle tail : List UInt8) :
    slice head.length middle.length (head ++ middle ++ tail) = middle := by
  rw [slice_append_left (by rw [List.length_append]), slice_append_right le_rfl, Nat.sub_self,
    slice_zero_length]

theorem slice_eq_nil (h : length = 0 ∨ out.length ≤ offset) : slice offset length out = [] := by
  rcases h with rfl | h
  · rw [slice, List.take_zero]
  · rw [slice, List.drop_eq_nil_of_le h, List.take_nil]

/-- The bytes up to the end of a buffer. -/
theorem slice_of_le (h : out.length ≤ offset + length) : slice offset length out = out.drop offset :=
  List.take_of_length_le (by rw [List.length_drop]; omega)

/-- **A table of rows of one width** is read back row by row. -/
theorem map_slice_flatten {width : ℕ} {rows : List (List UInt8)} (hrows : ∀ r ∈ rows, r.length = width)
    (head : List UInt8) : (List.range rows.length).map
      (fun i ↦ slice (head.length + i * width) width (head ++ rows.flatten)) = rows := by
  induction rows generalizing head with
  | nil => rfl
  | cons r rows ih =>
    obtain ⟨hr, hrows⟩ := List.forall_mem_cons.mp hrows
    rw [List.length_cons, List.range_succ_eq_map, List.map_cons, List.map_map, List.flatten_cons,
      ← List.append_assoc]
    have hfirst : slice (head.length + 0 * width) width (head ++ r ++ rows.flatten) = r := by
      rw [Nat.zero_mul, Nat.add_zero, ← hr]
      exact slice_append_middle _ _ _
    refine congrArg₂ List.cons hfirst ?_
    refine (List.map_congr_left fun i _ ↦ ?_).trans (ih hrows (head ++ r))
    have hat : head.length + (i + 1) * width = (head ++ r).length + i * width := by
      rw [List.length_append, hr]
      ring
    rw [Function.comp_apply, Nat.succ_eq_add_one, hat]

end Layout

end SafeVault
