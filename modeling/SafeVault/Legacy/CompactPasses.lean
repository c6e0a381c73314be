import Mathlib.Algebra.GroupWithZero.Nat
import Mathlib.Algebra.Order.BigOperators.Group.List
import Mathlib.Algebra.Order.Group.Nat
import SafeVault.Legacy.CompactPlan

/-!
# Passes of the compaction

A pass is planned, its moves are made, the index is committed, and the next pass is planned on what the
units are then; the spans that must not be written over can be others each time. A pass that plans
nothing is the last one.

A plan leaves nothing behind that could still be placed: what keeps clear of all units and pinned spans
lies in a free range, and a plan is empty only if no range holds a unit behind it. And there is a last
pass, since each move makes the sum of the offsets smaller. For this it does not matter where the spans
end.
-/

namespace SafeVault

namespace CompactPlan

open SafeVault.Span

variable {S : OffsetSort} {floor : UInt64} {units us pinned : List PlanUnit} {free : List FreeRange}
  {moves : List (PlanUnit × UInt64)} {u v : PlanUnit}

/-! ## An empty plan -/

/-- A unit is not placed only if no range before it holds it. -/
theorem lt_length_of_place (hasc : free.Pairwise fun r r' ↦ r.start.toNat ≤ r'.start.toNat)
    (h : place u free = none) : ∀ r ∈ free, r.start < u.offset → r.length < u.length := by
  induction free with
  | nil => exact nofun
  | cons r rs ih =>
    obtain ⟨hr, hasc⟩ := List.pairwise_cons.mp hasc
    rw [place] at h
    split_ifs at h with hstart hsmall
    · -- The ranges behind this one start no earlier.
      rw [UInt64.le_iff_toNat_le] at hstart
      refine List.forall_mem_cons.mpr ⟨fun hlt ↦ ?_, fun r' hr' hlt ↦ ?_⟩
      · exact absurd (UInt64.lt_iff_toNat_lt.mp hlt) hstart.not_gt
      · exact absurd (UInt64.lt_iff_toNat_lt.mp hlt) (hstart.trans (hr r' hr')).not_gt
    · exact List.forall_mem_cons.mpr ⟨fun _ ↦ hsmall, ih hasc (Option.map_eq_none_iff.mp h)⟩

theorem le_maxLength {r : FreeRange} (hr : r ∈ free) : r.length.toNat ≤ (maxLength free).toNat := by
  have hfold (rs : List FreeRange) (m : UInt64) :
      m.toNat ≤ (rs.foldl (fun m r ↦ max m r.length) m).toNat := by
    induction rs generalizing m with
    | nil => exact le_rfl
    | cons s rs ih =>
      refine le_trans ?_ (ih _)
      rw [UInt64.toNat_max]
      exact le_max_left _ _
  rw [maxLength]
  generalize (0 : UInt64) = m
  induction free generalizing m with
  | nil => exact absurd hr List.not_mem_nil
  | cons s rs ih =>
    rcases List.mem_cons.mp hr with rfl | hr
    · refine le_trans ?_ (hfold rs _)
      rw [UInt64.toNat_max]
      exact le_max_right _ _
    · exact ih hr _

/-- The loop only adds placements. -/
theorem prefix_planLoop {total : ℕ} {maxFree : UInt64} :
    moves <+: planLoop total us free maxFree moves := by
  let I : List PlanUnit → List FreeRange → List (PlanUnit × UInt64) → Prop :=
    fun _ _ moves' ↦ moves <+: moves'
  have hstart : I us free moves := List.prefix_rfl
  obtain ⟨us', free', h⟩ := planLoop_rule total maxFree (fun _ _ _ _ h ↦ h)
    (fun _ _ _ _ _ _ h _ ↦ h.trans (List.prefix_append _ _)) hstart
  exact h

/-- A loop that places nothing has found no range for any unit. -/
theorem place_of_planLoop {total : ℕ} (htotal : us ≠ [] → total ≠ 0)
    (h : planLoop total us free (maxLength free) [] = []) (hu : u ∈ us) :
    maxLength free < u.length ∨ place u free = none := by
  induction us with
  | nil => exact absurd hu List.not_mem_nil
  | cons v us ih =>
    have hpos := htotal (List.cons_ne_nil _ _)
    rw [planLoop] at h
    by_cases hbig : maxLength free < v.length
    · rw [if_pos hbig] at h
      rcases List.mem_cons.mp hu with rfl | hu
      · exact .inl hbig
      · exact ih (fun _ ↦ hpos) h hu
    · rw [if_neg hbig] at h
      rcases hplace : place v free with _ | ⟨dest, free'⟩
      all_goals
        rw [hplace] at h
        dsimp only at h
      · rw [List.length_nil, if_neg hpos.symm] at h
        rcases List.mem_cons.mp hu with rfl | hu
        · exact .inr hplace
        · exact ih (fun _ ↦ hpos) h hu
      · -- a placement stays in the plan
        split_ifs at h
        · exact absurd h (List.append_ne_nil_of_right_ne_nil _ (List.cons_ne_nil _ _))
        · have hprefix := @prefix_planLoop us free' ([] ++ [(v, dest)]) total (maxLength free')
          rw [h, List.prefix_nil] at hprefix
          exact absurd hprefix (List.cons_ne_nil _ _)

/-- **An empty plan.** No hole before a unit holds it. -/
theorem not_fits_of_placements_eq_nil (h : placements S units floor pinned = []) (hu : u ∈ units)
    {hole : Span} (hpos : 0 < hole.2) (hfloor : floor.toNat ≤ hole.1)
    (hbefore : hole.1 < u.offset.toNat) (hclear : ∀ v ∈ units ++ pinned, Apart hole v.span) :
    hole.2 < u.length.toNat := by
  have hself : Apart hole u.span := hclear u (List.mem_append_left _ hu)
  have hstop : hole.stop ≤ u.offset.toNat := by
    rcases hself with hstop | hstop
    · exact hstop
    · have hle : u.offset.toNat ≤ u.span.stop := Nat.le_add_right _ _
      omega
  obtain ⟨r, hr, hstart, hend⟩ := exists_mem_freeRanges hpos hfloor hclear hu hstop
  rw [placements] at h
  split_ifs at h with hfree
  · rw [hfree] at hr
    exact absurd hr List.not_mem_nil
  · have hmem : u ∈ (S.sort units).reverse := List.mem_reverse.mpr ((S.perm units).mem_iff.mpr hu)
    have hlength : units.length ≠ 0 := (List.length_pos_of_mem hu).ne'
    have hlast : hole.2 ≤ r.length.toNat := by
      rw [stop, stop, FreeRange.span] at hend
      dsimp only at hend
      omega
    rcases place_of_planLoop (fun _ ↦ hlength) h hmem with hbig | hnone
    · exact (hlast.trans (le_maxLength hr)).trans_lt (UInt64.lt_iff_toNat_lt.mp hbig)
    · have hlow : r.start < u.offset := UInt64.lt_iff_toNat_lt.mpr (hstart.trans_lt hbefore)
      have hrange := lt_length_of_place pairwise_start_sweep hnone r hr hlow
      exact hlast.trans_lt (UInt64.lt_iff_toNat_lt.mp hrange)

/-! ## The moves of a pass -/

/-- A move down in a file keeps clear of the unit where it is now, so it ends before that. -/
theorem stop_spanAt_le {dest : UInt64} (hdown : dest < u.offset)
    (hclear : Apart (u.spanAt dest) u.span) : (u.spanAt dest).stop ≤ u.offset.toNat := by
  rcases hclear with hstop | hstop
  · exact hstop
  · have hle : u.offset.toNat ≤ u.span.stop := Nat.le_add_right _ _
    exact absurd (UInt64.lt_iff_toNat_lt.mp hdown) (hle.trans hstop).not_gt

theorem eq_of_id (hids : (units.map PlanUnit.id).Nodup) (hu : u ∈ units) (hv : v ∈ units)
    (h : u.id = v.id) : u = v := List.inj_on_of_nodup_map hids hu hv h

/-- What executing the moves of a plan does to the units. -/
def moved (moves : List Move) (units : List PlanUnit) : List PlanUnit :=
  units.map fun u ↦ match moves.find? (·.unitId = u.id) with
    | some m => { u with offset := m.dest }
    | none => u

/-- The units after a number of passes, with the sort and the spans that are pinned in each. -/
def passes (S : ℕ → OffsetSort) (floor : UInt64) (pinned : ℕ → List PlanUnit)
    (units : List PlanUnit) : ℕ → List PlanUnit
  | 0 => units
  | n + 1 =>
    let us := passes S floor pinned units n
    moved (planPass (S n) us floor (pinned n)) us

theorem ids_moved (moves : List Move) (units : List PlanUnit) :
    (moved moves units).map PlanUnit.id = units.map PlanUnit.id := by
  rw [moved, List.map_map]
  refine List.map_congr_left fun u _ ↦ ?_
  rw [Function.comp_apply]
  split <;> rfl

theorem ids_passes (S : ℕ → OffsetSort) (floor : UInt64) (pinned : ℕ → List PlanUnit)
    (units : List PlanUnit) (n : ℕ) :
    (passes S floor pinned units n).map PlanUnit.id = units.map PlanUnit.id := by
  induction n with
  | zero => rfl
  | succ n ih =>
    rw [passes, ids_moved]
    exact ih

/-- The sum of the offsets. -/
def height (units : List PlanUnit) : ℕ := (units.map fun u ↦ u.offset.toNat).sum

theorem exists_placement {m : Move} (hm : m ∈ planPass S units floor pinned) :
    ∃ p ∈ placements S units floor pinned, m = ⟨p.1.id, p.2⟩ := by
  obtain ⟨p, hp, rfl⟩ := List.mem_map.mp hm
  exact ⟨p, hp, rfl⟩

/-- **A pass makes the sum of the offsets smaller**, unless it plans nothing. -/
theorem height_moved_lt (hids : (units.map PlanUnit.id).Nodup)
    (hplan : planPass S units floor pinned ≠ []) :
    height (moved (planPass S units floor pinned) units) < height units := by
  obtain ⟨-, hmove⟩ := partial_placements S units floor pinned hids
  have hone : ∀ u ∈ units, ∀ m ∈ planPass S units floor pinned, m.unitId = u.id →
      m.dest.toNat < u.offset.toNat := by
    intro u hu m hm hid
    obtain ⟨p, hp, rfl⟩ := exists_placement hm
    obtain ⟨hmem, -, hdown⟩ := hmove p hp
    obtain rfl := eq_of_id hids hmem hu hid
    exact UInt64.lt_iff_toNat_lt.mp hdown
  obtain ⟨m, hm⟩ := List.exists_mem_of_ne_nil _ hplan
  obtain ⟨p, hp, rfl⟩ := exists_placement hm
  rw [height, moved, List.map_map, height]
  refine List.sum_lt_sum _ _ (fun u hu ↦ ?_) ⟨p.1, (hmove p hp).1, ?_⟩
  · rw [Function.comp_apply]
    split
    · next m hfind =>
      have hid : m.unitId = u.id := by simpa using List.find?_some hfind
      exact (hone u hu m (List.mem_of_find?_eq_some hfind) hid).le
    · exact le_rfl
  · rw [Function.comp_apply]
    split
    · next m hfind =>
      have hid : m.unitId = p.1.id := by simpa using List.find?_some hfind
      exact hone _ (hmove p hp).1 m (List.mem_of_find?_eq_some hfind) hid
    · next hnone => exact absurd (decide_eq_true rfl) (List.find?_eq_none.mp hnone _ hm)

/-- **There is a last pass**, whatever is pinned in each. -/
theorem exists_last_pass (hids : (units.map PlanUnit.id).Nodup) (S : ℕ → OffsetSort) (floor : UInt64)
    (pinned : ℕ → List PlanUnit) :
    ∃ n ≤ height units, planPass (S n) (passes S floor pinned units n) floor (pinned n) = [] := by
  by_contra hnone
  push Not at hnone
  have hfalls : ∀ n ≤ height units + 1, height (passes S floor pinned units n) + n ≤ height units := by
    intro n
    induction n with
    | zero => exact fun _ ↦ le_rfl
    | succ n ih =>
      intro hle
      have hlt := @height_moved_lt (S n) floor _ (pinned n)
        ((ids_passes S floor pinned units n).symm ▸ hids) (hnone n (by omega))
      have hbefore := ih (by omega)
      rw [passes]
      omega
  have hend := hfalls _ le_rfl
  omega

/-- **Planning a pass.** Each unit is moved at most once, strictly down and not below the floor; an empty
plan leaves no unit that fits a hole before it; and passes come to an end. For spans that end within the
words a unit is moved to a place that ends where it begins or before, and that keeps clear of all units
where they are, of the pinned spans and of the other places. -/
theorem planPass_safe_and_ends (hids : (units.map PlanUnit.id).Nodup) (floor : UInt64) :
    (∀ (S : OffsetSort) (pinned : List PlanUnit),
      ((planPass S units floor pinned).map Move.unitId).Nodup ∧
      (∀ m ∈ planPass S units floor pinned,
        ∃ u ∈ units, u.id = m.unitId ∧ floor ≤ m.dest ∧ m.dest < u.offset) ∧
      (planPass S units floor pinned = [] → ∀ u ∈ units, ∀ hole : Span, 0 < hole.2 →
        floor.toNat ≤ hole.1 → hole.1 < u.offset.toNat → (∀ v ∈ units ++ pinned, Apart hole v.span) →
        hole.2 < u.length.toNat) ∧
      ((∀ v ∈ units ++ pinned, v.Bounded) →
        (∀ m ∈ planPass S units floor pinned, ∀ u ∈ units, u.id = m.unitId →
          (u.spanAt m.dest).stop ≤ u.offset.toNat ∧
          ∀ v ∈ units ++ pinned, Apart (u.spanAt m.dest) v.span) ∧
        ∀ m ∈ planPass S units floor pinned, ∀ m' ∈ planPass S units floor pinned, m ≠ m' →
          ∀ u ∈ units, ∀ u' ∈ units, u.id = m.unitId → u'.id = m'.unitId →
            Apart (u.spanAt m.dest) (u'.spanAt m'.dest))) ∧
    ∀ (S : ℕ → OffsetSort) (pinned : ℕ → List PlanUnit),
      ∃ n, planPass (S n) (passes S floor pinned units n) floor (pinned n) = [] := by
  refine ⟨fun S pinned ↦ ?_, fun S pinned ↦ ?_⟩
  · obtain ⟨hnodup, hmove⟩ := partial_placements S units floor pinned hids
    refine ⟨?_, fun m hm ↦ ?_, fun hnil u hu hole hpos hfloor hbefore hclear ↦ ?_, fun hends ↦ ?_⟩
    · rw [planPass, List.map_map]
      exact hnodup
    · obtain ⟨p, hp, rfl⟩ := exists_placement hm
      obtain ⟨hmem, hfloor, hdown⟩ := hmove p hp
      exact ⟨p.1, hmem, rfl, hfloor, hdown⟩
    · rw [planPass, List.map_eq_nil_iff] at hnil
      exact not_fits_of_placements_eq_nil hnil hu hpos hfloor hbefore hclear
    · obtain ⟨hclear, hapart⟩ := clear_placements S floor hids hends
      refine ⟨fun m hm u hu hid ↦ ?_, fun m hm m' hm' hne u hu u' hu' hid hid' ↦ ?_⟩
      · obtain ⟨p, hp, rfl⟩ := exists_placement hm
        obtain ⟨hmem, -, hdown⟩ := hmove p hp
        obtain rfl := eq_of_id hids hu hmem hid
        exact ⟨stop_spanAt_le hdown (hclear p hp _ (List.mem_append_left _ hmem)), hclear p hp⟩
      · obtain ⟨p, hp, rfl⟩ := exists_placement hm
        obtain ⟨p', hp', rfl⟩ := exists_placement hm'
        obtain rfl := eq_of_id hids hu (hmove p hp).1 hid
        obtain rfl := eq_of_id hids hu' (hmove p' hp').1 hid'
        have : Std.Symm fun q q' : PlanUnit × UInt64 ↦ Apart (q.1.spanAt q.2) (q'.1.spanAt q'.2) :=
          ⟨fun _ _ h ↦ h.symm⟩
        exact hapart.forall hp hp' fun heq ↦ hne (by rw [heq])
  · obtain ⟨n, -, hn⟩ := exists_last_pass hids S floor pinned
    exact ⟨n, hn⟩

section Examples

def OffsetLe (u v : PlanUnit) : Prop := u.offset ≤ v.offset

instance : DecidableRel OffsetLe := fun _ _ ↦ inferInstanceAs (Decidable (_ ≤ _))

instance : Std.Total OffsetLe := ⟨fun u v ↦ by
  rw [OffsetLe, OffsetLe, UInt64.le_iff_toNat_le, UInt64.le_iff_toNat_le]
  exact Nat.le_total _ _⟩

instance : IsTrans PlanUnit OffsetLe := ⟨fun _ _ _ ↦ UInt64.le_trans⟩

/-- A sort that happens to be stable. -/
def insertionSort : OffsetSort where
  sort units := units.insertionSort OffsetLe
  perm units := List.perm_insertionSort OffsetLe units
  sorted units := List.pairwise_insertionSort OffsetLe units

/-- A hole of three bytes, a unit that is pinned behind it, and two units to move. -/
def twoUnits : List PlanUnit := [⟨6, 2, 0⟩, ⟨8, 4, 1⟩]

theorem planPass_safe_and_ends_twoUnits :
    planPass insertionSort twoUnits 1 [⟨4, 2, 2⟩] = [⟨0, 1⟩] ∧
      (∀ m ∈ planPass insertionSort twoUnits 1 [⟨4, 2, 2⟩], ∀ u ∈ twoUnits, u.id = m.unitId →
        (u.spanAt m.dest).stop ≤ u.offset.toNat ∧
        ∀ v ∈ twoUnits ++ [⟨4, 2, 2⟩], Apart (u.spanAt m.dest) v.span) ∧
      ∃ n, planPass insertionSort (passes (fun _ ↦ insertionSort) 1 (fun _ ↦ [⟨4, 2, 2⟩]) twoUnits n) 1
        [⟨4, 2, 2⟩] = [] := by
  obtain ⟨hplan, hends⟩ := @planPass_safe_and_ends twoUnits (by decide) 1
  refine ⟨by decide +kernel, ?_, hends (fun _ ↦ insertionSort) fun _ ↦ [⟨4, 2, 2⟩]⟩
  exact ((hplan insertionSort [⟨4, 2, 2⟩]).2.2.2 (by decide)).1

/-- A unit that ends behind the words, and two small ones. -/
def endless : List PlanUnit := [⟨4106, 0 - 4101, 0⟩, ⟨4900, 8, 1⟩, ⟨5000, 100, 2⟩]

/-- Both small units are moved to the floor, where they overlap each other and the large one. -/
theorem planPass_endless :
    (endless.map PlanUnit.id).Nodup ∧ planPass insertionSort endless 4096 [] = [⟨2, 4096⟩, ⟨1, 4096⟩] ∧
      ¬Apart (PlanUnit.spanAt ⟨5000, 100, 2⟩ 4096) (PlanUnit.spanAt ⟨4900, 8, 1⟩ 4096) ∧
      ¬Apart (PlanUnit.spanAt ⟨5000, 100, 2⟩ 4096) (PlanUnit.span ⟨4106, 0 - 4101, 0⟩) := by
  refine ⟨by decide, by decide +kernel, ?_, ?_⟩
  · rintro (h | h) <;> exact absurd h (by decide)
  · rintro (h | h) <;> exact absurd h (by decide)

end Examples

end CompactPlan

end SafeVault
