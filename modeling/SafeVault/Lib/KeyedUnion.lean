import Mathlib.Data.List.Basic
import Mathlib.Data.List.Nodup
import Mathlib.Data.List.Perm.Subperm

/-!
# Unions of lists modulo a key

Lists used as sets up to an equivalence: an entry is added only when no entry with the same key is
present, so the first spelling of a key wins and the order of arrival is kept. The equivalence is
given by a Boolean test, which is what a program calls, together with a key function that decides
it; all facts are stated about the lists of keys, where the union is the union of sets.
-/

namespace SafeVault

namespace KeyedUnion

variable {α κ : Type*}

/-- The test decides equality of keys. -/
def Decides (same : α → α → Bool) (key : α → κ) : Prop :=
  ∀ a b, same a b = true ↔ key a = key b

/-- Add an entry unless one with its key is there. -/
def insert (same : α → α → Bool) (xs : List α) (a : α) : List α :=
  if xs.any fun x ↦ same x a then xs else xs ++ [a]

/-- Add the entries of a second list one after another. -/
def union (same : α → α → Bool) (xs ys : List α) : List α := ys.foldl (insert same) xs

variable {same : α → α → Bool} {key : α → κ} {xs ys zs : List α} {a : α}

@[simp] theorem union_nil : union same xs [] = xs := rfl

@[simp] theorem union_cons : union same xs (a :: ys) = union same (insert same xs a) ys := rfl

theorem union_append : union same xs (ys ++ zs) = union same (union same xs ys) zs :=
  List.foldl_append

/-! ## Membership of keys -/

theorem any_same_iff (h : Decides same key) :
    (xs.any fun x ↦ same x a) = true ↔ key a ∈ xs.map key := by
  simp only [List.any_eq_true, List.mem_map, h _ _]

theorem insert_of_mem (h : Decides same key) (ha : key a ∈ xs.map key) :
    insert same xs a = xs := if_pos ((any_same_iff h).mpr ha)

theorem insert_of_not_mem (h : Decides same key) (ha : key a ∉ xs.map key) :
    insert same xs a = xs ++ [a] := if_neg fun hany ↦ ha ((any_same_iff h).mp hany)

theorem mem_keys_insert (h : Decides same key) {k : κ} :
    k ∈ (insert same xs a).map key ↔ k ∈ xs.map key ∨ k = key a := by
  by_cases ha : key a ∈ xs.map key
  · rw [insert_of_mem h ha]
    exact ⟨Or.inl, fun hk ↦ hk.elim id fun hk ↦ hk ▸ ha⟩
  · rw [insert_of_not_mem h ha, List.map_append, List.mem_append, List.map_singleton,
      List.mem_singleton]

theorem mem_keys_union (h : Decides same key) {k : κ} :
    k ∈ (union same xs ys).map key ↔ k ∈ xs.map key ∨ k ∈ ys.map key := by
  induction ys generalizing xs with
  | nil => simp
  | cons y ys ih =>
    rw [union_cons, ih, mem_keys_insert h, List.map_cons, List.mem_cons, or_assoc]

/-! ## No key twice -/

theorem nodup_insert (h : Decides same key) (hxs : (xs.map key).Nodup) :
    ((insert same xs a).map key).Nodup := by
  by_cases ha : key a ∈ xs.map key
  · rwa [insert_of_mem h ha]
  · rw [insert_of_not_mem h ha, List.map_append, List.map_singleton]
    refine List.nodup_append.mpr ⟨hxs, List.nodup_singleton _, ?_⟩
    intro k hk l hl
    rw [List.mem_singleton.mp hl]
    rintro rfl
    exact ha hk

theorem nodup_union (h : Decides same key) (hxs : (xs.map key).Nodup) :
    ((union same xs ys).map key).Nodup := by
  induction ys generalizing xs with
  | nil => exact hxs
  | cons y ys ih => exact ih (nodup_insert h hxs)

/-- Distinct keys taken from another list are no more than that list has entries. -/
theorem length_le_of_keys_subset (hxs : (xs.map key).Nodup)
    (hsub : ∀ k ∈ xs.map key, k ∈ ys.map key) : xs.length ≤ ys.length := by
  have h := (List.Nodup.subperm hxs hsub).length_le
  rwa [List.length_map, List.length_map] at h

/-! ## Order -/

theorem prefix_insert : xs <+: insert same xs a := by
  rw [insert]
  split_ifs
  · exact List.prefix_rfl
  · exact List.prefix_append xs [a]

theorem prefix_union : xs <+: union same xs ys := by
  induction ys generalizing xs with
  | nil => exact List.prefix_rfl
  | cons y ys ih => exact prefix_insert.trans ih

/-- The entries of a union whose keys are in the first list are those of the first list. -/
theorem filter_union (h : Decides same key) (hxs : (xs.map key).Nodup) :
    (union same xs ys).filter (fun y ↦ xs.any fun x ↦ same x y) = xs := by
  have hnodup : ((union same xs ys).map key).Nodup := nodup_union h hxs
  obtain ⟨extra, hextra⟩ : xs <+: union same xs ys := prefix_union
  rw [← hextra, List.map_append] at hnodup
  rw [← hextra, List.filter_append, List.filter_eq_self.mpr, List.filter_eq_nil_iff.mpr,
    List.append_nil]
  · intro y hy hany
    have hkey := (any_same_iff h).mp hany
    exact List.disjoint_of_nodup_append hnodup hkey (List.mem_map_of_mem hy)
  · exact fun x hx ↦ (any_same_iff h).mpr (List.mem_map_of_mem hx)

/-! ## Renaming

A renaming that keeps equal keys equal and different keys different commutes with the union. It only
has to do so on the entries at hand. -/

/-- On the entries satisfying `P`, the renaming respects and reflects the test. -/
def Respects (same : α → α → Bool) (P : α → Prop) (f : α → α) : Prop :=
  ∀ a b, P a → P b → same (f a) (f b) = same a b

variable {P : α → Prop} {f : α → α}

theorem insert_map (hf : Respects same P f) (hxs : ∀ x ∈ xs, P x) (ha : P a) :
    insert same (xs.map f) (f a) = (insert same xs a).map f := by
  have hany : ((xs.map f).any fun x ↦ same x (f a)) = xs.any fun x ↦ same x a := by
    rw [List.any_map, Bool.eq_iff_iff, List.any_eq_true, List.any_eq_true]
    exact exists_congr fun x ↦ and_congr_right fun hx ↦ by
      rw [Function.comp_apply, hf x a (hxs x hx) ha]
  rw [insert, insert, hany]
  split_ifs
  · rfl
  · rw [List.map_append, List.map_singleton]

/-- Distinct keys stay distinct. -/
theorem nodup_map (h : Decides same key) (hf : Respects same P f) (hxs : ∀ x ∈ xs, P x)
    (hnodup : (xs.map key).Nodup) : ((xs.map f).map key).Nodup := by
  rw [List.Nodup, List.pairwise_map] at hnodup
  rw [List.Nodup, List.pairwise_map, List.pairwise_map]
  refine hnodup.imp_of_mem fun {x y} hx hy hne heq ↦ hne ?_
  have hsame : same (f x) (f y) = true := (h _ _).mpr heq
  rw [hf x y (hxs x hx) (hxs y hy)] at hsame
  exact (h x y).mp hsame

theorem forall_mem_insert (hxs : ∀ x ∈ xs, P x) (ha : P a) : ∀ x ∈ insert same xs a, P x := by
  rw [insert]
  split_ifs
  · exact hxs
  · intro x hx
    rcases List.mem_append.mp hx with hx | hx
    · exact hxs x hx
    · rwa [List.mem_singleton.mp hx]

theorem forall_mem_union (hxs : ∀ x ∈ xs, P x) (hys : ∀ y ∈ ys, P y) :
    ∀ x ∈ union same xs ys, P x := by
  induction ys generalizing xs with
  | nil => exact hxs
  | cons y ys ih =>
    obtain ⟨hy, hys⟩ := List.forall_mem_cons.mp hys
    exact ih (forall_mem_insert hxs hy) hys

theorem union_map (hf : Respects same P f) (hxs : ∀ x ∈ xs, P x) (hys : ∀ y ∈ ys, P y) :
    union same (xs.map f) (ys.map f) = (union same xs ys).map f := by
  induction ys generalizing xs with
  | nil => rfl
  | cons y ys ih =>
    obtain ⟨hy, hys⟩ := List.forall_mem_cons.mp hys
    rw [List.map_cons, union_cons, union_cons, insert_map hf hxs hy]
    exact ih (forall_mem_insert hxs hy) hys

/-! ## Leaving entries out -/

/-- Entries may be left out before or after, if none that is left out has a key of the second list. -/
theorem union_filter (h : Decides same key) {p : α → Bool}
    (hp : ∀ z ∈ union same xs ys, p z = false → key z ∉ ys.map key) :
    union same (xs.filter p) ys = (union same xs ys).filter p := by
  induction ys generalizing xs with
  | nil => rfl
  | cons y ys ih =>
    have hinsert : insert same (xs.filter p) y = (insert same xs y).filter p := by
      by_cases hy : key y ∈ xs.map key
      · -- The entry with this key stays, for its key is in the second list.
        obtain ⟨x, hx, hkey⟩ := List.mem_map.mp hy
        have hkeep : p x = true := by
          by_contra hpx
          have hmem : x ∈ union same xs (y :: ys) := prefix_union.subset hx
          refine hp x hmem (Bool.not_eq_true _ ▸ hpx) ?_
          exact hkey ▸ List.mem_map_of_mem List.mem_cons_self
        rw [insert_of_mem h hy, insert_of_mem h]
        exact hkey ▸ List.mem_map_of_mem (List.mem_filter.mpr ⟨hx, hkeep⟩)
      · have hkeep : p y = true := by
          by_contra hpy
          have hmem : y ∈ union same xs (y :: ys) := by
            rw [union_cons, insert_of_not_mem h hy]
            exact prefix_union.subset (List.mem_append_right _ (List.mem_singleton_self y))
          exact hp y hmem (Bool.not_eq_true _ ▸ hpy) (List.mem_map_of_mem List.mem_cons_self)
        have hfresh : key y ∉ (xs.filter p).map key :=
          fun hmem ↦ hy ((List.filter_sublist.map key).subset hmem)
        rw [insert_of_not_mem h hy, insert_of_not_mem h hfresh, List.filter_append,
          List.filter_singleton, hkeep, cond_true]
    rw [union_cons, union_cons, hinsert]
    refine ih fun z hz hpz hmem ↦ hp z hz hpz ?_
    rw [List.map_cons]
    exact List.mem_cons_of_mem _ hmem

/-- Whatever is left out then is left out of the first list. -/
theorem countP_union (h : Decides same key) (hxs : (xs.map key).Nodup) {p : α → Bool}
    (hp : ∀ z ∈ union same xs ys, p z = true → key z ∉ ys.map key) :
    (union same xs ys).countP p = xs.countP p := by
  have hnodup : ((union same xs ys).map key).Nodup := nodup_union h hxs
  obtain ⟨extra, hextra⟩ : xs <+: union same xs ys := prefix_union
  have hmem : ∀ z ∈ union same xs ys, z ∈ xs ∨ z ∈ ys :=
    forall_mem_union (fun x hx ↦ .inl hx) fun y hy ↦ .inr hy
  rw [← hextra] at hp hmem hnodup ⊢
  rw [List.map_append] at hnodup
  rw [List.countP_append, Nat.add_eq_left, List.countP_eq_zero]
  intro z hz hpz
  have hz' : z ∈ xs ++ extra := List.mem_append_right _ hz
  rcases hmem z hz' with hx | hy
  · exact List.disjoint_of_nodup_append hnodup (List.mem_map_of_mem hx) (List.mem_map_of_mem hz)
  · exact hp z hz' hpz (List.mem_map_of_mem hy)

end KeyedUnion

end SafeVault
