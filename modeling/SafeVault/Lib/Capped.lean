import Mathlib.Data.List.Induction
import SafeVault.Lib.KeyedList
import SafeVault.Lib.KeyedUnion

/-!
# Lists with room for so many entries

A list that is filled up to a limit by adding entries with new keys holds the beginning of the union
of all of them. A list that is used as a map answers, after an entry was set, as before for all other
keys, and with the new value for that one if there was room or the key was there.
-/

namespace SafeVault

namespace KeyedUnion

variable {α κ : Type*} {same : α → α → Bool} {key : α → κ} {xs ys pre post : List α} {a : α} {cap : ℕ}

/-- Add an entry unless one with its key is there, or the list is full. -/
def insertWithin (same : α → α → Bool) (cap : ℕ) (xs : List α) (a : α) : List α :=
  if cap ≤ xs.length then xs else insert same xs a

theorem length_insert_le : (insert same xs a).length ≤ xs.length + 1 := by
  rw [insert]
  split_ifs
  · exact Nat.le_succ _
  · exact Nat.le_of_eq (List.length_append.trans (congrArg (xs.length + ·) List.length_singleton))

/-- One more entry. -/
theorem insertWithin_take :
    insertWithin same cap (xs.take cap) a = (insert same xs a).take cap := by
  rw [insertWithin, List.length_take]
  split_ifs with hfull
  · obtain ⟨rest, hrest⟩ : xs <+: insert same xs a := prefix_insert
    rw [← hrest, List.take_append_of_le_length (by omega)]
  · have hshort : xs.length < cap := by omega
    have hle := @length_insert_le _ same xs a
    rw [List.take_of_length_le (Nat.le_of_lt hshort), List.take_of_length_le (by omega)]

/-- **Filling a list up** gives the beginning of the union. -/
theorem foldl_insertWithin :
    ys.foldl (insertWithin same cap) (xs.take cap) = (union same xs ys).take cap := by
  induction ys generalizing xs with
  | nil => rfl
  | cons y ys ih => rw [List.foldl_cons, insertWithin_take, ih, union_cons]

/-- An entry of a union is new when it is added. -/
theorem exists_of_mem_take_union (ha : a ∈ (union same xs ys).take cap) :
    a ∈ xs ∨ ∃ pre post, ys = pre ++ a :: post ∧ (union same xs pre).length < cap := by
  induction ys using List.reverseRecOn with
  | nil => exact .inl (List.mem_of_mem_take ha)
  | append_singleton ys y ih =>
    rw [union_append, union_cons, union_nil, insert] at ha
    split_ifs at ha with hany
    · obtain hxs | ⟨pre, post, rfl, hlt⟩ := ih ha
      · exact .inl hxs
      · exact .inr ⟨pre, post ++ [y], by simp, hlt⟩
    · rw [List.take_append, List.mem_append] at ha
      rcases ha with ha | ha
      · obtain hxs | ⟨pre, post, rfl, hlt⟩ := ih ha
        · exact .inl hxs
        · exact .inr ⟨pre, post ++ [y], by simp, hlt⟩
      · have hmem := List.mem_of_mem_take ha
        obtain rfl := List.mem_singleton.mp hmem
        have hpos : 0 < cap - (union same xs ys).length := by
          by_contra hnot
          rw [Nat.eq_zero_of_not_pos hnot, List.take_zero] at ha
          exact absurd ha List.not_mem_nil
        exact .inr ⟨ys, [], rfl, by omega⟩

/-- The key of an entry that came while there was room is there in the end. -/
theorem mem_keys_take_union (h : Decides same key) (hlt : (union same xs pre).length < cap) :
    key a ∈ ((union same xs (pre ++ a :: post)).take cap).map key := by
  rw [union_append, union_cons]
  have hmem : key a ∈ (insert same (union same xs pre) a).map key :=
    (mem_keys_insert h).mpr (.inr rfl)
  obtain ⟨b, hb, hkey⟩ := List.mem_map.mp hmem
  have hle := @length_insert_le _ same (union same xs pre) a
  obtain ⟨rest, hrest⟩ := @prefix_union _ same (insert same (union same xs pre) a) post
  refine List.mem_map.mpr ⟨b, ?_, hkey⟩
  rw [← hrest, List.take_append, List.take_of_length_le (by omega)]
  exact List.mem_append_left _ hb

end KeyedUnion

namespace KeyedList

variable {α β κ : Type} {key : α → κ} {value : α → β} {none' : β} {k : κ} {l : List α} {a fresh : α}
  {f : α → α} {p q : α → Bool} {remove : Bool} {limit : ℕ}

/-- The value of the first entry that passes a test. -/
def lookup (value : α → β) (default : β) (p : α → Bool) (l : List α) : β :=
  ((l.find? p).map value).getD default

/-- Another entry is found as before. -/
theorem lookup_replaceFirst_of_ne (hf : ∀ a, p a = true → q a = false ∧ q (f a) = false) :
    lookup value none' q (replaceFirst p f l) = lookup value none' q l := by
  induction l with
  | nil => rfl
  | cons b l ih =>
    rw [replaceFirst]
    split_ifs with hb
    · obtain ⟨hq, hqf⟩ := hf b hb
      rw [lookup, lookup, List.find?_cons_of_neg (by rw [hqf]; exact Bool.false_ne_true),
        List.find?_cons_of_neg (by rw [hq]; exact Bool.false_ne_true)]
    · rw [lookup, lookup, List.find?_cons, List.find?_cons]
      rcases q b
      · exact ih
      · rfl

/-- The changed entry is the one that is found. -/
theorem lookup_replaceFirst (hany : l.any p = true) (hf : ∀ a, p a = true → p (f a) = true) {b : β}
    (hvalue : ∀ a, value (f a) = b) : lookup value none' p (replaceFirst p f l) = b := by
  induction l with
  | nil => exact absurd hany (by simp)
  | cons c l ih =>
    rw [replaceFirst]
    split_ifs with hc
    · rw [lookup, List.find?_cons_of_pos (hf c hc), Option.map_some, Option.getD_some, hvalue]
    · rw [lookup, List.find?_cons_of_neg hc]
      rw [List.any_cons, Bool.eq_false_iff.mpr hc, Bool.false_or] at hany
      exact ih hany

/-- A value was found, so there is an entry. -/
theorem any_of_lookup_ne (h : lookup value none' p l ≠ none') : l.any p = true := by
  by_contra hany
  rw [Bool.not_eq_true, List.any_eq_false] at hany
  refine h ?_
  rw [lookup, List.find?_eq_none.mpr hany]
  rfl

/-- Setting an entry to something. -/
theorem put_false : put p f fresh false limit l =
    if l.any p then replaceFirst p f l else if limit ≤ l.length then l else l ++ [fresh] := by
  rw [put, if_neg Bool.false_ne_true, if_neg Bool.false_ne_true]

/-- The answers after an entry was set that was there or for which there was room. -/
theorem lookup_put (hroom : l.length < limit ∨ l.any p = true)
    (hf : ∀ a, p a = true → p (f a) = true) (hfresh : p fresh = true) {b : β}
    (hvalue : ∀ a, value (f a) = b) (hnew : value fresh = b) :
    lookup value none' p (put p f fresh false limit l) = b := by
  rw [put_false]
  split_ifs with hany hfull
  · exact lookup_replaceFirst hany hf hvalue
  · exact absurd hroom (not_or.mpr ⟨Nat.not_lt_of_le hfull, hany⟩)
  · rw [Bool.not_eq_true, List.any_eq_false] at hany
    rw [lookup, List.find?_append, List.find?_eq_none.mpr hany, Option.none_or,
      List.find?_cons_of_pos hfresh, Option.map_some, Option.getD_some, hnew]

theorem lookup_put_of_ne (hp : ∀ a, p a = true → q a = false ∧ q (f a) = false)
    (hfresh : q fresh = false) :
    lookup value none' q (put p f fresh false limit l) = lookup value none' q l := by
  rw [put_false]
  split_ifs with hany hfull
  · exact lookup_replaceFirst_of_ne hp
  · rfl
  · rw [lookup, lookup, List.find?_append,
      List.find?_cons_of_neg (by rw [hfresh]; exact Bool.false_ne_true), List.find?_nil, Option.or_none]

/-- The keys that were there stay, in their places. -/
theorem prefix_map_put (hf : ∀ a, key (f a) = key a) :
    l.map key <+: (put p f fresh false limit l).map key := by
  rw [put_false]
  split_ifs with hany hfull
  · exact map_replaceFirst hf ▸ List.prefix_rfl
  · exact List.prefix_rfl
  · rw [List.map_append]
    exact List.prefix_append _ _

end KeyedList

end SafeVault
