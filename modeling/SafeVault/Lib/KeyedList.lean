import Mathlib.Data.List.Nodup
import Mathlib.Tactic.SplitIfs
import Mathlib.Tactic.Basic

/-!
# Lists with at most one entry for a key

A list that is used as a map: an operation looks for the first entry that passes a test and changes
or removes it. Where the test decides whether an entry has a certain key, and no key is there twice,
the first entry is the only one, so looking for the first is the same as looking at all.
-/

namespace SafeVault

namespace KeyedList

variable {α κ : Type}

/-- Change the first entry that passes a test. -/
def replaceFirst (p : α → Bool) (f : α → α) : List α → List α
  | [] => []
  | a :: as => if p a then f a :: as else a :: replaceFirst p f as

/-- Set the entry that passes a test: remove it, change it, or put a new one at the end unless the
list is full. -/
def put (p : α → Bool) (f : α → α) (fresh : α) (remove : Bool) (limit : ℕ) (l : List α) : List α :=
  if l.any p then if remove then l.eraseP p else replaceFirst p f l
  else if remove then l
  else if limit ≤ l.length then l
  else l ++ [fresh]

variable {p : α → Bool} {f : α → α} {key : α → κ} {k : κ} {l : List α} {a fresh : α} {remove : Bool}
  {limit : ℕ}

theorem mem_replaceFirst (h : a ∈ replaceFirst p f l) : a ∈ l ∨ ∃ b ∈ l, p b = true ∧ a = f b := by
  induction l with
  | nil => exact absurd h List.not_mem_nil
  | cons b l ih =>
    rw [replaceFirst] at h
    split_ifs at h with hb
    · rcases List.mem_cons.mp h with rfl | h
      · exact .inr ⟨b, List.mem_cons_self, hb, rfl⟩
      · exact .inl (List.mem_cons_of_mem _ h)
    · rcases List.mem_cons.mp h with rfl | h
      · exact .inl List.mem_cons_self
      · rcases ih h with h | ⟨c, hc, h⟩
        · exact .inl (List.mem_cons_of_mem _ h)
        · exact .inr ⟨c, List.mem_cons_of_mem _ hc, h⟩

@[simp] theorem length_replaceFirst : (replaceFirst p f l).length = l.length := by
  induction l with
  | nil => rfl
  | cons b l ih =>
    rw [replaceFirst]
    split_ifs
    · rfl
    · rw [List.length_cons, List.length_cons, ih]

/-- A change that keeps the keys of the entries keeps the list of keys. -/
theorem map_replaceFirst (hf : ∀ a, key (f a) = key a) :
    (replaceFirst p f l).map key = l.map key := by
  induction l with
  | nil => rfl
  | cons b l ih =>
    rw [replaceFirst]
    split_ifs
    · rw [List.map_cons, List.map_cons, hf]
    · rw [List.map_cons, List.map_cons, ih]

/-! ## Where the first is the only one -/

/-- Behind the entry with a key no other entry has it. -/
theorem eq_false_of_nodup (hp : ∀ a, p a = true ↔ key a = k) {b : α}
    (h : ((b :: l).map key).Nodup) (hb : p b = true) : ∀ a ∈ l, p a = false := by
  intro a ha
  rw [← Bool.not_eq_true, hp]
  intro hkey
  rw [List.map_cons, List.nodup_cons, (hp b).mp hb, ← hkey] at h
  exact h.1 (List.mem_map_of_mem ha)

theorem replaceFirst_eq_map (hp : ∀ a, p a = true ↔ key a = k) (h : (l.map key).Nodup) :
    replaceFirst p f l = l.map fun a ↦ if p a then f a else a := by
  induction l with
  | nil => rfl
  | cons b l ih =>
    rw [replaceFirst, List.map_cons]
    split_ifs with hb
    · have hrest := eq_false_of_nodup hp h hb
      rw [List.map_congr_left (g := id) fun a ha ↦ by rw [hrest a ha]; rfl, List.map_id]
    · rw [ih (List.nodup_cons.mp (List.map_cons ▸ h)).2]

theorem eraseP_eq_filter (hp : ∀ a, p a = true ↔ key a = k) (h : (l.map key).Nodup) :
    l.eraseP p = l.filter fun a ↦ !p a := by
  induction l with
  | nil => rfl
  | cons b l ih =>
    rw [List.eraseP_cons, List.filter_cons]
    by_cases hb : p b = true
    · have hrest := eq_false_of_nodup hp h hb
      rw [hb, Bool.cond_true, Bool.not_true, if_neg Bool.false_ne_true, List.filter_eq_self.mpr]
      intro a ha
      rw [hrest a ha, Bool.not_false]
    · rw [Bool.not_eq_true] at hb
      rw [hb, Bool.cond_false, Bool.not_false, if_pos rfl,
        ih (List.nodup_cons.mp (List.map_cons ▸ h)).2]

/-- The first entry with a key is any entry with it. -/
theorem find?_eq_some_iff (hp : ∀ a, p a = true ↔ key a = k) (h : (l.map key).Nodup) :
    l.find? p = some a ↔ a ∈ l ∧ key a = k := by
  constructor
  · intro hfind
    exact ⟨List.mem_of_find?_eq_some hfind, (hp a).mp (List.find?_some hfind)⟩
  · rintro ⟨hmem, hkey⟩
    obtain ⟨b, hb⟩ : ∃ b, l.find? p = some b :=
      Option.isSome_iff_exists.mp (List.find?_isSome.mpr ⟨a, hmem, (hp a).mpr hkey⟩)
    have hsame := List.inj_on_of_nodup_map h (List.mem_of_find?_eq_some hb) hmem
      (((hp b).mp (List.find?_some hb)).trans hkey.symm)
    rw [hb, hsame]

/-! ## Setting an entry -/

/-- An entry of the new list is an old one, the changed one or the new one. -/
theorem mem_put (h : a ∈ put p f fresh remove limit l) :
    a ∈ l ∨ (remove = false ∧ l.any p = true ∧ ∃ b ∈ l, p b = true ∧ a = f b) ∨
      (remove = false ∧ l.any p = false ∧ l.length < limit ∧ a = fresh) := by
  rw [put] at h
  split_ifs at h with hany hremove hremove hfull
  · exact .inl (List.mem_of_mem_eraseP h)
  · rcases mem_replaceFirst h with h | h
    · exact .inl h
    · exact .inr (.inl ⟨by simpa using hremove, hany, h⟩)
  · exact .inl h
  · exact .inl h
  · rcases List.mem_append.mp h with h | h
    · exact .inl h
    · exact .inr (.inr ⟨by simpa using hremove, by simpa using hany, Nat.lt_of_not_le hfull,
        List.mem_singleton.mp h⟩)

theorem length_put_le (h : l.length ≤ limit) : (put p f fresh remove limit l).length ≤ limit := by
  rw [put]
  split_ifs with hany hremove hremove hfull
  · exact Nat.le_trans List.eraseP_sublist.length_le h
  · rwa [length_replaceFirst]
  · exact h
  · exact h
  · rw [List.length_append, List.length_singleton]
    omega

theorem nodup_put (hp : ∀ a, p a = true ↔ key a = key fresh) (hf : ∀ a, key (f a) = key a)
    (h : (l.map key).Nodup) : ((put p f fresh remove limit l).map key).Nodup := by
  rw [put]
  split_ifs with hany hremove hremove hfull
  · exact h.sublist (List.eraseP_sublist.map key)
  · rwa [map_replaceFirst hf]
  · exact h
  · exact h
  · rw [List.map_append, List.map_singleton, List.nodup_append]
    refine ⟨h, List.nodup_singleton _, fun k hk k' hk' heq ↦ hany ?_⟩
    obtain ⟨a, ha, rfl⟩ := List.mem_map.mp hk
    rw [List.any_eq_true]
    exact ⟨a, ha, (hp a).mpr (heq.trans (List.mem_singleton.mp hk'))⟩

end KeyedList

end SafeVault
