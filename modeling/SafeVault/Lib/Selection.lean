import Mathlib.Data.List.Dedup
import Mathlib.Data.List.Nodup

/-!
# Selecting from a list by place and by key

Places that are different select different elements of a list without repetitions, and the buckets of
a list by a key have no element in common.
-/

namespace SafeVault

namespace Selection

variable {α β κ : Type*} {xs : List α} {is : List ℕ} {a : α}

/-! ## By place -/

/-- The elements at some places; places out of range select nothing. -/
def pick (xs : List α) (is : List ℕ) : List α := is.filterMap fun i ↦ xs[i]?

theorem mem_pick : a ∈ pick xs is ↔ ∃ i ∈ is, xs[i]? = some a := List.mem_filterMap

theorem mem_of_mem_pick (h : a ∈ pick xs is) : a ∈ xs := by
  obtain ⟨i, -, hi⟩ := mem_pick.mp h
  exact List.mem_of_getElem? hi

theorem map_pick (f : α → β) (xs : List α) (is : List ℕ) :
    (pick xs is).map f = pick (xs.map f) is := by
  rw [pick, pick, List.map_filterMap]
  exact congrArg (List.filterMap · is) (funext fun i ↦ List.getElem?_map.symm)

theorem flatten_map_pick (xs : List α) (iss : List (List ℕ)) :
    (iss.map (pick xs)).flatten = pick xs iss.flatten := by
  rw [pick, List.filterMap_flatten]
  rfl

theorem length_pick (h : ∀ i ∈ is, i < xs.length) : (pick xs is).length = is.length := by
  rw [pick, List.filterMap_length_eq_length.mpr]
  exact fun i hi ↦ by rw [List.getElem?_eq_getElem (h i hi)]; rfl

theorem nodup_pick (hxs : xs.Nodup) (his : is.Nodup) : (pick xs is).Nodup := by
  refine his.filterMap fun i j b hi hj ↦ ?_
  rw [Option.mem_def] at hi hj
  obtain ⟨hlt, -⟩ := List.getElem?_eq_some_iff.mp hi
  exact (List.getElem?_inj hlt hxs).mp (hi.trans hj.symm)

/-! ## By key -/

variable [DecidableEq κ] {ys : List (α × κ)} {keys : List κ} {k : κ} {le : κ → κ → Bool}

/-- The elements with a key. -/
def bucket (ys : List (α × κ)) (k : κ) : List α := (ys.filter (·.2 = k)).map Prod.fst

/-- The buckets, in the order of the keys. -/
def buckets (le : κ → κ → Bool) (ys : List (α × κ)) : List (List α) :=
  (((ys.map Prod.snd).dedup).mergeSort le).map (bucket ys)

theorem mem_bucket : a ∈ bucket ys k ↔ (a, k) ∈ ys := by
  rw [bucket, List.mem_map]
  constructor
  · rintro ⟨⟨a, k'⟩, hmem, rfl⟩
    obtain ⟨hmem, hk⟩ := List.mem_filter.mp hmem
    exact (of_decide_eq_true hk : k' = k) ▸ hmem
  · exact fun h ↦ ⟨(a, k), List.mem_filter.mpr ⟨h, decide_eq_true rfl⟩, rfl⟩

/-- **Buckets of different keys** have no element in common. -/
theorem nodup_flatten_map_bucket (hkeys : keys.Nodup) (hys : (ys.map Prod.fst).Nodup) :
    (keys.map (bucket ys)).flatten.Nodup := by
  refine List.nodup_flatten.mpr ⟨fun c hc ↦ ?_, ?_⟩
  · obtain ⟨k, -, rfl⟩ := List.mem_map.mp hc
    exact hys.sublist (List.filter_sublist.map _)
  · rw [List.pairwise_map]
    refine hkeys.imp fun {k k'} hne a ha ha' ↦ hne ?_
    exact congrArg Prod.snd (List.inj_on_of_nodup_map hys (mem_bucket.mp ha) (mem_bucket.mp ha') rfl)

theorem nodup_flatten_buckets (hys : (ys.map Prod.fst).Nodup) : (buckets le ys).flatten.Nodup :=
  nodup_flatten_map_bucket ((List.mergeSort_perm _ _).nodup_iff.mpr (List.nodup_dedup _)) hys

theorem mem_of_mem_buckets {c : List α} (hc : c ∈ buckets le ys) (ha : a ∈ c) :
    a ∈ ys.map Prod.fst := by
  obtain ⟨k, -, rfl⟩ := List.mem_map.mp hc
  exact List.mem_map_of_mem (mem_bucket.mp ha)

end Selection

end SafeVault
