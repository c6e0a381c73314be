import SafeVault.Lib.TreeEdit

/-!
# A tree without some of its subtrees

A node is named by the keys on the way down to it, those of the root left out. Leaving out every node
whose name is in a set leaves out what is below it, so what remains depends only on which names the set
*covers*: those that have a beginning in it. Leaving out two sets one after the other leaves out their
union, so the order does not matter.
-/

namespace SafeVault

namespace LeafTree

variable {ν μ κ : Type} {key : ν → κ} {S T : List κ → Bool} {t c : LeafTree ν μ} {n : ν}
  {cs : List (LeafTree ν μ)}

mutual

/-- The tree without the subtrees whose name is in the set; the root stays. -/
def without (key : ν → κ) : (List κ → Bool) → LeafTree ν μ → LeafTree ν μ
  | S, branch n cs => branch n (withoutAll key S cs)
  | _, leaf n a => leaf n a

/-- The children that remain, each without the subtrees below it. -/
def withoutAll (key : ν → κ) : (List κ → Bool) → List (LeafTree ν μ) → List (LeafTree ν μ)
  | _, [] => []
  | S, c :: cs =>
    if S [key c.label] then withoutAll key S cs
    else without key (fun p ↦ S (key c.label :: p)) c :: withoutAll key S cs

end

@[simp] theorem label_without : (without key S t).label = t.label := by cases t <;> rfl

theorem mem_withoutAll : c ∈ withoutAll key S cs ↔
    ∃ b ∈ cs, S [key b.label] = false ∧ c = without key (fun p ↦ S (key b.label :: p)) b := by
  induction cs with
  | nil => simp [withoutAll]
  | cons b cs ih =>
    rw [withoutAll, List.exists_mem_cons_iff]
    split_ifs with hb
    · rw [ih, hb]
      simp
    · rw [List.mem_cons, ih, Bool.eq_false_of_not_eq_true hb]
      simp

/-- **Leaving out two sets** leaves out their union. -/
theorem without_without : without key S (without key T t) = without key (fun p ↦ S p || T p) t := by
  induction t generalizing S T with
  | leaf n a => rfl
  | branch n cs ih =>
    rw [without, without, without]
    refine congrArg _ ?_
    induction cs with
    | nil => rfl
    | cons c cs ihcs =>
      have hrest := ihcs fun d hd ↦ ih d (List.mem_cons_of_mem c hd)
      rw [withoutAll, withoutAll]
      by_cases hT : T [key c.label] = true
      · rw [if_pos hT, hT, Bool.or_true, if_pos rfl, hrest]
      · rw [if_neg hT, withoutAll, label_without, Bool.eq_false_of_not_eq_true hT, Bool.or_false, hrest,
          ih c List.mem_cons_self]

/-- Nothing is left out by the empty set. -/
theorem without_empty : without key (fun _ ↦ false) t = t := by
  induction t with
  | leaf n a => rfl
  | branch n cs ih =>
    rw [without]
    refine congrArg _ ?_
    induction cs with
    | nil => rfl
    | cons c cs ihcs =>
      rw [withoutAll, if_neg Bool.false_ne_true, ih c List.mem_cons_self,
        ihcs fun d hd ↦ ih d (List.mem_cons_of_mem c hd)]

/-! ## Covered names -/

/-- The name has a beginning in the set. -/
def Covers (S : List κ → Bool) (p : List κ) : Prop := ∃ q, q ≠ [] ∧ q <+: p ∧ S q = true

theorem covers_singleton {k : κ} : Covers S [k] ↔ S [k] = true := by
  refine ⟨fun ⟨q, hne, hpre, hq⟩ ↦ ?_, fun h ↦ ⟨[k], List.cons_ne_nil _ _, List.prefix_rfl, h⟩⟩
  rcases List.prefix_cons_iff.mp hpre with rfl | ⟨r, rfl, hr⟩
  · exact absurd rfl hne
  · rwa [List.prefix_nil.mp hr] at hq

theorem covers_cons {k : κ} {p : List κ} (hk : S [k] = false) :
    Covers S (k :: p) ↔ Covers (fun q ↦ S (k :: q)) p := by
  constructor
  · rintro ⟨q, hne, hpre, hq⟩
    rcases List.prefix_cons_iff.mp hpre with rfl | ⟨r, rfl, hr⟩
    · exact absurd rfl hne
    · refine ⟨r, fun hnil ↦ ?_, hr, hq⟩
      rw [hnil, hk] at hq
      exact Bool.false_ne_true hq
  · rintro ⟨q, -, hpre, hq⟩
    exact ⟨k :: q, List.cons_ne_nil _ _, List.prefix_cons_inj k |>.mpr hpre, hq⟩

/-- What remains depends only on what is covered. -/
theorem without_congr (h : ∀ p, Covers S p ↔ Covers T p) : without key S t = without key T t := by
  induction t generalizing S T with
  | leaf n a => rfl
  | branch n cs ih =>
    rw [without, without]
    refine congrArg _ ?_
    induction cs with
    | nil => rfl
    | cons c cs ihcs =>
      have hrest := ihcs fun d hd ↦ ih d (List.mem_cons_of_mem c hd)
      have hhead : S [key c.label] = T [key c.label] :=
        Bool.eq_iff_iff.mpr (covers_singleton.symm.trans ((h _).trans covers_singleton))
      rw [withoutAll, withoutAll, hhead, hrest]
      rcases hT : T [key c.label] with _ | _
      -- The child stays, and below it the same names are covered.
      · have hbelow (p : List κ) :
            Covers (fun q ↦ S (key c.label :: q)) p ↔ Covers (fun q ↦ T (key c.label :: q)) p :=
          (covers_cons (hhead.trans hT)).symm.trans ((h _).trans (covers_cons hT))
        rw [ih c List.mem_cons_self hbelow]
      · rfl

/-! ## Siblings that differ -/

theorem Distinct.without (h : Distinct key t) : Distinct key (LeafTree.without key S t) := by
  induction t generalizing S with
  | leaf n a => exact h
  | branch n cs ih =>
    obtain ⟨hnodup, hcs⟩ := distinct_branch.mp h
    rw [LeafTree.without]
    refine distinct_branch.mpr ⟨?_, fun d hd ↦ ?_⟩
    · refine hnodup.sublist ?_
      clear ih h hnodup hcs
      induction cs with
      | nil => exact List.Sublist.slnil
      | cons c cs ihcs =>
        rw [withoutAll, List.map_cons]
        split_ifs
        · exact ihcs.cons _
        · rw [List.map_cons, label_without]
          exact ihcs.cons_cons _
    · obtain ⟨b, hb, -, rfl⟩ := mem_withoutAll.mp hd
      exact ih b hb (hcs b hb)

/-! ## One name -/

section One

variable [DecidableEq κ] {k : κ} {r : List κ} {i : ℕ}

/-- The set of one name. -/
def only (r : List κ) : List κ → Bool := fun q ↦ decide (q = r)

theorem without_of_ne {k' : κ} (h : k' ≠ k) : without key (fun q ↦ only (k :: r) (k' :: q)) t = t := by
  have hempty : (fun q ↦ only (k :: r) (k' :: q)) = fun _ : List κ ↦ false := by
    funext q
    exact decide_eq_false fun heq ↦ h (List.cons.inj heq).1
  rw [hempty, without_empty]

theorem withoutAll_only_singleton :
    withoutAll key (only [k]) cs = cs.filter fun c ↦ !decide (key c.label = k) := by
  induction cs with
  | nil => rfl
  | cons c cs ih =>
    rw [withoutAll, List.filter_cons, ih]
    by_cases hc : key c.label = k
    · rw [if_pos (by rw [hc]; exact decide_eq_true rfl), if_neg (by simp [hc])]
    · rw [if_neg (by simp [only, hc]), without_of_ne hc, if_pos (by simp [hc])]

/-- Below the children only the one with the first key changes. -/
theorem withoutAll_only_cons (hr : r ≠ []) : withoutAll key (only (k :: r)) cs =
    cs.map fun c ↦ if key c.label = k then without key (only r) c else c := by
  induction cs with
  | nil => rfl
  | cons c cs ih =>
    have hstay : only (k :: r) [key c.label] = false :=
      decide_eq_false fun h ↦ hr (List.cons.inj h).2.symm
    rw [withoutAll, hstay, if_neg Bool.false_ne_true, List.map_cons, ih]
    split_ifs with hc
    · have hbelow : (fun q ↦ only (k :: r) (key c.label :: q)) = only r := by
        funext q
        rw [hc]
        exact decide_eq_decide.mpr ⟨fun h ↦ (List.cons.inj h).2, congrArg _⟩
      rw [hbelow]
    · rw [without_of_ne hc]

/-- Among siblings that differ the first with a key is the only one. -/
theorem eraseP_eq_withoutAll {q : LeafTree ν μ → Bool} (hq : ∀ c, q c = true ↔ key c.label = k)
    (h : (cs.map fun c ↦ key c.label).Nodup) : cs.eraseP q = withoutAll key (only [k]) cs := by
  rw [withoutAll_only_singleton]
  induction cs with
  | nil => rfl
  | cons c cs ih =>
    obtain ⟨hc, hcs⟩ := List.nodup_cons.mp h
    by_cases hk : key c.label = k
    · rw [List.eraseP_cons_of_pos ((hq c).mpr hk), List.filter_cons_of_neg (by simp [hk])]
      refine (List.filter_eq_self.mpr fun d hd ↦ ?_).symm
      have hne : key d.label ≠ k := fun hdk ↦ hc (List.mem_map.mpr ⟨d, hd, hdk.trans hk.symm⟩)
      simp [hne]
    · rw [List.eraseP_cons_of_neg fun h ↦ hk ((hq c).mp h), List.filter_cons_of_pos (by simp [hk]), ih hcs]

theorem modify_congr {f g : LeafTree ν μ → LeafTree ν μ} (hi : cs[i]? = some c) (h : f c = g c) :
    cs.modify i f = cs.modify i g := by
  refine List.ext_getElem? fun j ↦ ?_
  rw [List.getElem?_modify, List.getElem?_modify]
  by_cases hij : i = j
  · rw [← hij, hi]
    simp [h]
  · simp only [hij, if_false]

theorem modify_eq_withoutAll (h : (cs.map fun c ↦ key c.label).Nodup) (hr : r ≠ []) (hi : cs[i]? = some c)
    (hk : key c.label = k) : cs.modify i (without key (only r)) = withoutAll key (only (k :: r)) cs := by
  rw [withoutAll_only_cons hr]
  refine List.ext_getElem? fun j ↦ ?_
  rw [List.getElem?_modify, List.getElem?_map]
  rcases hj : cs[j]? with _ | d
  · rfl
  · refine congrArg some ?_
    -- No other child has the key.
    have hiff : i = j ↔ key d.label = k := by
      constructor
      · rintro rfl
        obtain rfl := Option.some.inj (hi.symm.trans hj)
        exact hk
      · intro hd
        obtain ⟨hilt, hci⟩ := List.getElem?_eq_some_iff.mp hi
        obtain ⟨hjlt, hdj⟩ := List.getElem?_eq_some_iff.mp hj
        refine (@List.Nodup.getElem_inj_iff _ _ h i (by rwa [List.length_map]) j (by rwa [List.length_map])).mp ?_
        rw [List.getElem_map, List.getElem_map, hci, hdj, hk, hd]
    simp only [hiff]

end One

/-! ## Fewer nodes -/

theorem modifyAt_eq_self {f : LeafTree ν μ → LeafTree ν μ} {p : List ℕ} {u : LeafTree ν μ}
    (hu : LeafTree.get? t p = some u) (hf : f u = u) : modifyAt f p t = t := by
  induction p generalizing t with
  | nil =>
    obtain rfl : t = u := Option.some.inj ((get?_nil t).symm.trans hu)
    rwa [modifyAt_nil]
  | cons i p ih =>
    obtain ⟨c, hc, hrest⟩ := get?_cons_eq_some_iff.mp hu
    rcases t with ⟨n, cs⟩ | ⟨n, a⟩
    · rw [modifyAt]
      exact congrArg _ ((modify_congr (g := id) hc (ih hrest)).trans (List.modify_id i cs))
    · exact absurd hc (Option.some_ne_none _).symm

theorem sum_size_modify_lt {f : LeafTree ν μ → LeafTree ν μ} {i : ℕ} (hi : cs[i]? = some c)
    (hf : (f c).size < c.size) : ((cs.modify i f).map size).sum < (cs.map size).sum := by
  induction cs generalizing i with
  | nil => exact nomatch hi
  | cons d cs ih =>
    rcases i with _ | i
    · obtain rfl := Option.some.inj hi
      rw [List.modify_zero_cons, List.map_cons, List.map_cons, List.sum_cons, List.sum_cons]
      exact Nat.add_lt_add_right hf _
    · rw [List.modify_succ_cons, List.map_cons, List.map_cons, List.sum_cons, List.sum_cons]
      exact Nat.add_lt_add_left (ih hi) _

theorem size_modifyAt_lt {f : LeafTree ν μ → LeafTree ν μ} {p : List ℕ} {u : LeafTree ν μ}
    (hu : LeafTree.get? t p = some u) (hf : (f u).size < u.size) : (modifyAt f p t).size < t.size := by
  induction p generalizing t with
  | nil =>
    obtain rfl : t = u := Option.some.inj ((get?_nil t).symm.trans hu)
    rwa [modifyAt_nil]
  | cons i p ih =>
    obtain ⟨c, hc, hrest⟩ := get?_cons_eq_some_iff.mp hu
    rcases t with ⟨n, cs⟩ | ⟨n, a⟩
    · rw [modifyAt, size_branch, size_branch]
      exact Nat.add_lt_add_right (sum_size_modify_lt hc (ih hrest)) 1
    · exact absurd hc (Option.some_ne_none _).symm

theorem size_eraseP_lt {q : LeafTree ν μ → Bool} (hc : c ∈ cs) (hq : q c = true) :
    (branch n (cs.eraseP q)).size < (branch n cs).size := by
  obtain ⟨d, before, after, -, -, hcs, herase⟩ := List.exists_of_eraseP hc hq
  have hd := size_pos d
  rw [size_branch, size_branch, herase, hcs, List.map_append, List.map_append, List.map_cons, List.sum_append,
    List.sum_append, List.sum_cons]
  omega

end LeafTree

end SafeVault
