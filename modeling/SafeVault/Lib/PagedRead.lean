import Mathlib.Data.List.Basic
import Mathlib.Tactic.SplitIfs

/-!
# Reading in pages

A text is kept in pages of one size, the last of which may be shorter, and some of which may not be
there. A reader collects what it is asked for page by page. What it has collected so far agrees with the
pages it came from, and goes on to do so when the rest of the page at its end is added.
-/

namespace SafeVault

namespace PagedRead

variable {α : Type} {page : ℕ → Option (List α)} {size offset amount : ℕ} {out p text : List α}

/-- What was collected from an offset on is what the pages say there. -/
def Holds (page : ℕ → Option (List α)) (size offset : ℕ) (out : List α) : Prop :=
  ∀ j < out.length, ∃ p, page ((offset + j) / size) = some p ∧ p[(offset + j) % size]? = out[j]?

/-- The part of a page that a reader at an offset takes from it. -/
def piece (size offset amount : ℕ) (p : List α) : List α := (p.drop (offset % size)).take amount

theorem holds_nil : Holds page size offset [] := by
  rintro j ⟨⟩

/-- **One page more.** -/
theorem Holds.append_piece (h : Holds page size offset out)
    (hpage : page ((offset + out.length) / size) = some p) (hsize : p.length ≤ size) (amount : ℕ) :
    Holds page size offset (out ++ piece size (offset + out.length) amount p) := by
  intro j hj
  rcases Nat.lt_or_ge j out.length with hold | hnew
  · obtain ⟨q, hq, hget⟩ := h j hold
    exact ⟨q, hq, hget.trans (List.getElem?_append_left hold).symm⟩
  obtain ⟨k, rfl⟩ := Nat.exists_eq_add_of_le hnew
  have hk : k < amount ∧ (offset + out.length) % size + k < p.length := by
    rw [List.length_append, piece, List.length_take, List.length_drop] at hj
    omega
  have hpos : 0 < size := by omega
  have hdiv := Nat.div_add_mod (offset + out.length) size
  -- The position is still on the page.
  have hplace : offset + (out.length + k) =
      (offset + out.length) % size + k + size * ((offset + out.length) / size) := by omega
  have hquot : (offset + (out.length + k)) / size = (offset + out.length) / size := by
    rw [hplace, Nat.add_mul_div_left _ _ hpos, Nat.div_eq_of_lt (by omega), Nat.zero_add]
  have hrest : (offset + (out.length + k)) % size = (offset + out.length) % size + k := by
    rw [hplace, Nat.add_mul_mod_self_left, Nat.mod_eq_of_lt (by omega)]
  refine ⟨p, hquot ▸ hpage, ?_⟩
  rw [hrest, List.getElem?_append_right hnew, Nat.add_sub_cancel_left, piece,
    List.getElem?_take_of_lt hk.1, List.getElem?_drop]

/-- The pages that are there are those of a text. -/
def PagesOf (page : ℕ → Option (List α)) (size : ℕ) (text : List α) : Prop :=
  ∀ i p, page i = some p → p = (text.drop (i * size)).take size

/-- **What was collected is a part of the text.** -/
theorem Holds.eq_slice (hpages : PagesOf page size text) (h : Holds page size offset out) (hsize : 0 < size) :
    out = (text.drop offset).take out.length := by
  refine List.ext_getElem? fun j ↦ ?_
  rcases Nat.lt_or_ge j out.length with hj | hj
  · obtain ⟨p, hp, hget⟩ := h j hj
    rw [← hget, hpages _ p hp, List.getElem?_take_of_lt (Nat.mod_lt _ hsize), List.getElem?_drop,
      Nat.mul_comm, Nat.div_add_mod, List.getElem?_take_of_lt hj, List.getElem?_drop]
  · rw [List.getElem?_eq_none hj, List.getElem?_take_eq_none hj]

/-- Pages that are all full, up to the end of the text, are those of the text they make up. -/
theorem pagesOf_flatten {pages : List (List α)}
    (h : ∀ i p, pages[i]? = some p → p.length = min size (pages.flatten.length - i * size)) :
    PagesOf (fun i ↦ pages[i]?) size pages.flatten := by
  induction pages with
  | nil => rintro i p ⟨⟩
  | cons head pages ih =>
    rw [List.flatten_cons, List.length_append] at h
    have hhead := h 0 head rfl
    rw [Nat.zero_mul, Nat.sub_zero] at hhead
    have hrest : ∀ i p, pages[i]? = some p → p.length = min size (pages.flatten.length - i * size) := by
      intro i p hp
      rw [h (i + 1) p hp, Nat.add_mul, Nat.one_mul]
      omega
    intro i p hp
    rw [List.flatten_cons]
    rcases i with _ | i
    · obtain rfl := Option.some.inj hp
      rw [Nat.zero_mul, List.drop_zero]
      rcases Nat.lt_or_ge head.length size with hshort | hfull
      · have hnil : pages.flatten = [] := List.eq_nil_of_length_eq_zero (by omega)
        rw [hnil, List.append_nil, List.take_of_length_le (Nat.le_of_lt hshort)]
      · rw [List.take_left' (by omega)]
    · have hp : pages[i]? = some p := hp
      have hskip : head.drop (i * size + size) = [] := List.drop_eq_nil_of_le (by omega)
      rw [ih hrest i p hp, Nat.add_mul, Nat.one_mul, List.drop_append, hskip, List.nil_append]
      rcases Nat.lt_or_ge head.length size with hshort | hfull
      · have hnil : pages.flatten = [] := List.eq_nil_of_length_eq_zero (by omega)
        rw [hnil, List.drop_nil, List.drop_nil]
      · congr 2
        omega

/-- Something is taken from a page as long as there is something at the position. -/
theorem length_piece_pos (hp : offset % size < p.length) (hamount : 0 < amount) :
    0 < (piece size offset amount p).length := by
  rw [piece, List.length_take, List.length_drop]
  omega

theorem length_piece_le : (piece size offset amount p).length ≤ amount := by
  rw [piece, List.length_take]
  exact Nat.min_le_left _ _

end PagedRead

end SafeVault
