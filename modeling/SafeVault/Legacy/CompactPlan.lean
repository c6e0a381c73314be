import SafeVault.Lib.Gaps

/-!
# Planning a pass of the compaction

A pass moves units of the file to lower offsets. Its plan only uses the space that is free when it
is made: the gaps between all units and the pinned spans. Space that the pass itself vacates stays
unused, so what the last committed index points at is never written over. Units are placed from the
end of the file on, each into the first gap that holds it.

Offsets and lengths are words of 64 bits, and the end of a span is a sum of two of them. A span that
ends behind the largest word seems to end at a low offset, and then the gaps behind it are too wide.
Units move down all the same, each at most once; but that places are free and keep clear of each other
is known only for spans that end within the words.
-/

namespace SafeVault

namespace CompactPlan

open SafeVault.Span

/-- A movable span with its identity. -/
structure PlanUnit where
  offset : UInt64
  length : UInt64
  id : UInt32
  deriving DecidableEq

structure Move where
  unitId : UInt32
  dest : UInt64
  deriving DecidableEq

structure FreeRange where
  start : UInt64
  length : UInt64
  deriving DecidableEq

/-- An offset and a length. -/
abbrev LiveSpan := UInt64 × UInt64

/-- Pairs are compared by their first components, then by their second ones. -/
def LiveLe (s t : LiveSpan) : Prop := s.1 < t.1 ∨ s.1 = t.1 ∧ s.2 ≤ t.2

instance : DecidableRel LiveLe := fun _ _ ↦ inferInstanceAs (Decidable (_ ∨ _ ∧ _))

/-- The sweep of `free_ranges`. -/
def sweep (cursor : UInt64) : List LiveSpan → List FreeRange
  | [] => []
  | (off, len) :: live =>
    (if cursor < off then [⟨cursor, off - cursor⟩] else []) ++ sweep (max cursor (off + len)) live

/-- `free_ranges` -/
def freeRanges (units pinned : List PlanUnit) (floor : UInt64) : List FreeRange :=
  sweep floor (((units ++ pinned).map fun u ↦ (u.offset, u.length)).insertionSort LiveLe)

/-- `find_suitable_free_range`, and what the caller does to the range: the destination and the ranges
that are left. -/
def place (u : PlanUnit) : List FreeRange → Option (UInt64 × List FreeRange)
  | [] => none
  | r :: rs =>
    if u.offset ≤ r.start then none
    else if r.length < u.length then (place u rs).map fun (dest, rs') ↦ (dest, r :: rs')
    else some (r.start, ⟨r.start + u.length, r.length - u.length⟩ :: rs)

def maxLength (free : List FreeRange) : UInt64 := free.foldl (fun m r ↦ max m r.length) 0

/-- The loop of `plan_pass`, with the units still to be looked at and those already placed. -/
def planLoop (total : ℕ) : List PlanUnit → List FreeRange → UInt64 → List (PlanUnit × UInt64) →
    List (PlanUnit × UInt64)
  | [], _, _, moves => moves
  | u :: us, free, maxFree, moves =>
    if maxFree < u.length then planLoop total us free maxFree moves
    else
      match place u free with
      | some (dest, free') =>
        let moves' := moves ++ [(u, dest)]
        if moves'.length = total then moves' else planLoop total us free' (maxLength free') moves'
      | none =>
        if moves.length = total then moves else planLoop total us free (maxLength free) moves

/-- A sort by offset. It need not be stable: in which order it leaves units with the same offset is
open. -/
structure OffsetSort where
  sort : List PlanUnit → List PlanUnit
  perm : ∀ units, (sort units).Perm units
  sorted : ∀ units, (sort units).Pairwise fun u v ↦ u.offset ≤ v.offset

/-- The units of a plan with their destinations. -/
def placements (S : OffsetSort) (units : List PlanUnit) (floor : UInt64) (pinned : List PlanUnit) :
    List (PlanUnit × UInt64) :=
  let free := freeRanges units pinned floor
  if free = [] then []
  else planLoop units.length (S.sort units).reverse free (maxLength free) []

/-- `plan_pass` -/
def planPass (S : OffsetSort) (units : List PlanUnit) (floor : UInt64) (pinned : List PlanUnit) :
    List Move :=
  (placements S units floor pinned).map fun (u, dest) ↦ ⟨u.id, dest⟩

/-! ## Positions -/

def LiveSpan.span (s : LiveSpan) : Span := (s.1.toNat, s.2.toNat)

def PlanUnit.span (u : PlanUnit) : Span := (u.offset.toNat, u.length.toNat)

def FreeRange.span (r : FreeRange) : Span := (r.start.toNat, r.length.toNat)

/-- The span of a unit that is put at an offset. -/
def PlanUnit.spanAt (u : PlanUnit) (dest : UInt64) : Span := (dest.toNat, u.length.toNat)

/-- The span ends within the words. -/
def PlanUnit.Bounded (u : PlanUnit) : Prop := u.span.stop < 2 ^ 64

instance (u : PlanUnit) : Decidable u.Bounded := inferInstanceAs (Decidable (_ < _))

theorem toNat_add_of_lt {a b : UInt64} (h : a.toNat + b.toNat < 2 ^ 64) :
    (a + b).toNat = a.toNat + b.toNat := by rw [UInt64.toNat_add, Nat.mod_eq_of_lt h]

theorem toNat_sub_of_lt {a b : UInt64} (h : a < b) : (b - a).toNat = b.toNat - a.toNat :=
  UInt64.toNat_sub_of_le _ _ (UInt64.le_of_lt h)

/-! ## The free ranges -/

section Sweep

variable {cursor : UInt64} {live : List LiveSpan} {r : FreeRange}

/-- The cases of a free range. -/
theorem mem_sweep_cons {s : LiveSpan} : r ∈ sweep cursor (s :: live) ↔
    (cursor < s.1 ∧ r = ⟨cursor, s.1 - cursor⟩) ∨ r ∈ sweep (max cursor (s.1 + s.2)) live := by
  rw [sweep, List.mem_append]
  split_ifs with h
  · simp [h]
  · simp [h]

/-- A range that is found reaches from the cursor to a span. -/
theorem stop_range {off : UInt64} (h : cursor < off) :
    (FreeRange.span ⟨cursor, off - cursor⟩).stop = off.toNat := by
  rw [stop, FreeRange.span, toNat_sub_of_lt h]
  exact Nat.add_sub_cancel' (UInt64.lt_iff_toNat_lt.mp h).le

/-- A range begins at the cursor or behind it, and ends within the words. -/
theorem bounds_of_mem_sweep (h : r ∈ sweep cursor live) :
    cursor.toNat ≤ r.start.toNat ∧ r.span.stop < 2 ^ 64 := by
  induction live generalizing cursor with
  | nil => exact absurd h List.not_mem_nil
  | cons s live ih =>
    rcases mem_sweep_cons.mp h with ⟨hlt, rfl⟩ | h
    · rw [stop_range hlt]
      exact ⟨le_rfl, s.1.toNat_lt⟩
    · obtain ⟨hle, hstop⟩ := ih h
      rw [UInt64.toNat_max] at hle
      exact ⟨(le_max_left _ _).trans hle, hstop⟩

/-- The cursor never goes back. -/
theorem pairwise_start_sweep :
    (sweep cursor live).Pairwise fun r r' ↦ r.start.toNat ≤ r'.start.toNat := by
  induction live generalizing cursor with
  | nil => exact .nil
  | cons s live ih =>
    rw [sweep, List.pairwise_append]
    refine ⟨?_, ih, fun r hr r' hr' ↦ ?_⟩
    · split_ifs
      · exact List.pairwise_singleton _ _
      · exact .nil
    · split_ifs at hr
      · rw [List.mem_singleton.mp hr]
        have hle := (bounds_of_mem_sweep hr').1
        rw [UInt64.toNat_max] at hle
        exact (le_max_left _ _).trans hle
      · exact absurd hr List.not_mem_nil

/-- What keeps clear of the spans and has one of them behind it lies in a free range. A span that ends
behind the words is never before it. -/
theorem exists_mem_sweep {hole : Span} (hpos : 0 < hole.2) (hcursor : cursor.toNat ≤ hole.1)
    (hclear : ∀ s ∈ live, Apart hole s.span) (hbehind : ∃ s ∈ live, hole.stop ≤ s.1.toNat) :
    ∃ r ∈ sweep cursor live, r.start.toNat ≤ hole.1 ∧ hole.stop ≤ r.span.stop := by
  induction live generalizing cursor with
  | nil =>
    obtain ⟨s, hs, -⟩ := hbehind
    exact absurd hs List.not_mem_nil
  | cons s live ih =>
    obtain ⟨hs, hclear⟩ := List.forall_mem_cons.mp hclear
    by_cases hbefore : hole.stop ≤ s.1.toNat
    · have hlt : cursor < s.1 := by
        rw [UInt64.lt_iff_toNat_lt]
        rw [stop] at hbefore
        omega
      refine ⟨_, mem_sweep_cons.mpr (.inl ⟨hlt, rfl⟩), hcursor, ?_⟩
      rw [stop_range hlt]
      exact hbefore
    · have hafter : s.1.toNat + s.2.toNat ≤ hole.1 := hs.resolve_left hbefore
      obtain ⟨t, ht, hle⟩ := hbehind
      have hlater : t ∈ live := by
        refine (List.mem_cons.mp ht).resolve_left ?_
        rintro rfl
        exact hbefore hle
      have hsum : (s.1 + s.2).toNat ≤ hole.1 := by
        rw [UInt64.toNat_add]
        exact (Nat.mod_le _ _).trans hafter
      obtain ⟨r, hr, hin⟩ := ih (by rw [UInt64.toNat_max]; exact max_le hcursor hsum) hclear
        ⟨t, hlater, hle⟩
      exact ⟨r, mem_sweep_cons.mpr (.inr hr), hin⟩

/-- **The free ranges are the gaps** between spans that end within the words. -/
theorem map_span_sweep (hends : ∀ s ∈ live, s.span.stop < 2 ^ 64) :
    (sweep cursor live).map FreeRange.span = Gaps.sweep cursor.toNat (live.map LiveSpan.span) := by
  induction live generalizing cursor with
  | nil => rfl
  | cons s live ih =>
    obtain ⟨hs, hends⟩ := List.forall_mem_cons.mp hends
    have hsum : (max cursor (s.1 + s.2)).toNat = max cursor.toNat s.span.stop := by
      rw [UInt64.toNat_max, toNat_add_of_lt hs]
      rfl
    rw [sweep, List.map_append, ih hends, hsum, List.map_cons, Gaps.sweep]
    refine congrArg (· ++ _) ?_
    have hiff : cursor < s.1 ↔ cursor.toNat < s.span.1 := UInt64.lt_iff_toNat_lt
    by_cases hlt : cursor < s.1
    · rw [if_pos hlt, if_pos (hiff.mp hlt), List.map_singleton, FreeRange.span, toNat_sub_of_lt hlt]
      rfl
    · rw [if_neg hlt, if_neg (mt hiff.mpr hlt)]
      rfl

end Sweep

variable {S : OffsetSort} {frozen : List Span} {floor : UInt64} {units us pinned : List PlanUnit}
  {free : List FreeRange} {moves : List (PlanUnit × UInt64)} {u : PlanUnit}

instance : Std.Total LiveLe := ⟨fun s t ↦ by
  rw [LiveLe, LiveLe, UInt64.lt_iff_toNat_lt, UInt64.lt_iff_toNat_lt, UInt64.le_iff_toNat_le,
    UInt64.le_iff_toNat_le, ← UInt64.toNat_inj, ← UInt64.toNat_inj]
  omega⟩

instance : IsTrans LiveSpan LiveLe := ⟨fun s t u hst htu ↦ by
  rw [LiveLe, UInt64.lt_iff_toNat_lt, UInt64.le_iff_toNat_le, ← UInt64.toNat_inj] at *
  omega⟩

theorem span_le_of_liveLe {s t : LiveSpan} (h : LiveLe s t) : Span.Le s.span t.span := by
  rw [LiveLe, UInt64.lt_iff_toNat_lt, UInt64.le_iff_toNat_le, ← UInt64.toNat_inj] at h
  exact h

theorem mem_live {s : LiveSpan} :
    s ∈ ((units ++ pinned).map fun u ↦ (u.offset, u.length)).insertionSort LiveLe ↔
      ∃ u ∈ units ++ pinned, (u.offset, u.length) = s :=
  (List.mem_insertionSort LiveLe).trans List.mem_map

/-- Whatever the spans are. -/
theorem bounds_of_mem_freeRanges {r : FreeRange} (h : r ∈ freeRanges units pinned floor) :
    floor.toNat ≤ r.start.toNat ∧ r.span.stop < 2 ^ 64 := bounds_of_mem_sweep h

/-- A hole that a unit lies behind is in a free range. -/
theorem exists_mem_freeRanges {hole : Span} (hpos : 0 < hole.2) (hfloor : floor.toNat ≤ hole.1)
    (hclear : ∀ v ∈ units ++ pinned, Apart hole v.span) (hu : u ∈ units)
    (hbefore : hole.stop ≤ u.offset.toNat) :
    ∃ r ∈ freeRanges units pinned floor, r.start.toNat ≤ hole.1 ∧ hole.stop ≤ r.span.stop := by
  refine exists_mem_sweep hpos hfloor (fun s hs ↦ ?_)
    ⟨_, mem_live.mpr ⟨u, List.mem_append_left _ hu, rfl⟩, hbefore⟩
  obtain ⟨v, hv, rfl⟩ := mem_live.mp hs
  exact hclear v hv

/-- The ranges are in ascending order and keep clear of the spans. -/
theorem apart_freeRanges (floor : UInt64) (hends : ∀ v ∈ units ++ pinned, v.Bounded) :
    (freeRanges units pinned floor).Pairwise (fun r r' ↦ r.span.stop ≤ r'.start.toNat) ∧
      ∀ r ∈ freeRanges units pinned floor, ∀ v ∈ units ++ pinned, Apart r.span v.span := by
  rw [freeRanges]
  set live := ((units ++ pinned).map fun u ↦ (u.offset, u.length)).insertionSort LiveLe with hlive
  have hspans : (sweep floor live).map FreeRange.span =
      Gaps.sweep floor.toNat (live.map LiveSpan.span) := by
    refine map_span_sweep fun s hs ↦ ?_
    obtain ⟨v, hv, rfl⟩ := mem_live.mp hs
    exact hends v hv
  have hsorted : (live.map LiveSpan.span).Pairwise Span.Le :=
    (List.pairwise_insertionSort LiveLe _).map _ fun _ _ ↦ span_le_of_liveLe
  constructor
  · have hasc : (Gaps.sweep floor.toNat (live.map LiveSpan.span)).Pairwise fun g g' ↦
        g.stop ≤ g'.1 := Gaps.pairwise_sweep
    rw [← hspans, List.pairwise_map] at hasc
    exact hasc
  · intro r hr v hv
    have hgap : r.span ∈ Gaps.sweep floor.toNat (live.map LiveSpan.span) :=
      hspans ▸ List.mem_map_of_mem hr
    exact Gaps.apart_of_mem_sweep hsorted hgap
      (List.mem_map.mpr ⟨_, mem_live.mpr ⟨v, hv, rfl⟩, rfl⟩)

/-! ## Placing one unit -/

/-- Ranges in ascending order without overlap. -/
abbrev Ascending (free : List FreeRange) : Prop :=
  free.Pairwise fun r r' ↦ r.span.stop ≤ r'.start.toNat

/-- What placing a unit does to the ranges. -/
structure Placed (u : PlanUnit) (free : List FreeRange) (dest : UInt64) (free' : List FreeRange) :
    Prop where
  range : ∃ r ∈ free, dest = r.start ∧ (u.spanAt dest).stop ≤ r.span.stop ∧ dest < u.offset
  shrinks : ∀ r' ∈ free', ∃ r ∈ free, r.start.toNat ≤ r'.start.toNat ∧ r'.span.stop = r.span.stop
  apart : Ascending free → Ascending free' ∧ ∀ r' ∈ free', Apart (u.spanAt dest) r'.span

theorem placed_of_place {free' : List FreeRange} {dest : UInt64}
    (hends : ∀ r ∈ free, r.span.stop < 2 ^ 64) (h : place u free = some (dest, free')) :
    Placed u free dest free' := by
  induction free generalizing dest free' with
  | nil => cases h
  | cons r rs ih =>
    obtain ⟨hr, hends⟩ := List.forall_mem_cons.mp hends
    rw [place] at h
    split_ifs at h with hstart hsmall
    · -- The range is too small; the unit goes into a later one.
      obtain ⟨⟨dest', rs'⟩, hplace, heq⟩ := Option.map_eq_some_iff.mp h
      cases heq
      obtain ⟨⟨g, hg, hdest, hfit, hlow⟩, hshrinks, hapart⟩ := ih hends hplace
      refine ⟨⟨g, List.mem_cons_of_mem r hg, hdest, hfit, hlow⟩, ?_, fun hasc ↦ ?_⟩
      · refine List.forall_mem_cons.mpr ⟨⟨r, List.mem_cons_self, le_rfl, rfl⟩, fun g' hg' ↦ ?_⟩
        obtain ⟨g₀, hg₀, hle, hstop⟩ := hshrinks g' hg'
        exact ⟨g₀, List.mem_cons_of_mem r hg₀, hle, hstop⟩
      · obtain ⟨hfirst, hasc⟩ := List.pairwise_cons.mp hasc
        obtain ⟨hasc', hclear⟩ := hapart hasc
        refine ⟨List.pairwise_cons.mpr ⟨fun g' hg' ↦ ?_, hasc'⟩,
          List.forall_mem_cons.mpr ⟨Or.inr ?_, hclear⟩⟩
        · obtain ⟨g₀, hg₀, hle, -⟩ := hshrinks g' hg'
          exact (hfirst g₀ hg₀).trans hle
        · rw [hdest]
          exact hfirst g hg
    · cases h
      rw [UInt64.lt_iff_toNat_lt, not_lt] at hsmall
      rw [stop, FreeRange.span] at hr
      dsimp only at hr
      have hsum : (r.start + u.length).toNat = r.start.toNat + u.length.toNat :=
        toNat_add_of_lt (by omega)
      have hrest : (r.length - u.length).toNat = r.length.toNat - u.length.toNat :=
        UInt64.toNat_sub_of_le _ _ (UInt64.le_iff_toNat_le.mpr hsmall)
      have hstop : (FreeRange.span ⟨r.start + u.length, r.length - u.length⟩).stop = r.span.stop := by
        rw [stop, stop, FreeRange.span, FreeRange.span, hsum, hrest]
        dsimp only
        omega
      refine ⟨⟨r, List.mem_cons_self, rfl, ?_, ?_⟩, ?_, fun hasc ↦ ?_⟩
      · rw [stop, stop, PlanUnit.spanAt, FreeRange.span]
        dsimp only
        omega
      · rw [UInt64.le_iff_toNat_le, not_le] at hstart
        exact UInt64.lt_iff_toNat_lt.mpr hstart
      · refine List.forall_mem_cons.mpr ⟨⟨r, List.mem_cons_self, ?_, hstop⟩, ?_⟩
        · rw [hsum]
          exact Nat.le_add_right _ _
        · exact fun g' hg' ↦ ⟨g', List.mem_cons_of_mem r hg', le_rfl, rfl⟩
      · obtain ⟨hfirst, hasc⟩ := List.pairwise_cons.mp hasc
        refine ⟨List.pairwise_cons.mpr ⟨fun g' hg' ↦ hstop ▸ hfirst g' hg', hasc⟩,
          List.forall_mem_cons.mpr ⟨Or.inl hsum.ge, fun g' hg' ↦ Or.inl ?_⟩⟩
        have hlater := hfirst g' hg'
        rw [stop, FreeRange.span] at hlater
        rw [stop, PlanUnit.spanAt]
        dsimp only at hlater ⊢
        exact le_trans (by omega) hlater

/-! ## The whole plan -/

/-- The rule for the loop: what holds before a unit is looked at is kept when it is passed over and
when it is placed. -/
theorem planLoop_rule (total : ℕ) (maxFree : UInt64)
    {I : List PlanUnit → List FreeRange → List (PlanUnit × UInt64) → Prop}
    (hskip : ∀ u us free moves, I (u :: us) free moves → I us free moves)
    (hplace : ∀ u us free moves dest free', I (u :: us) free moves →
      place u free = some (dest, free') → I us free' (moves ++ [(u, dest)]))
    (h : I us free moves) :
    ∃ us' free', I us' free' (planLoop total us free maxFree moves) := by
  induction us generalizing free maxFree moves with
  | nil => exact ⟨[], free, h⟩
  | cons u us ih =>
    rw [planLoop]
    by_cases hbig : maxFree < u.length
    · rw [if_pos hbig]
      exact ih _ (hskip u us free moves h)
    · rw [if_neg hbig]
      cases hp : place u free with
      | none =>
        dsimp only
        have hnext := hskip u us free moves h
        split_ifs
        · exact ⟨us, free, hnext⟩
        · exact ih _ hnext
      | some p =>
        obtain ⟨dest, free'⟩ := p
        dsimp only
        have hnext := hplace u us free moves dest free' h hp
        split_ifs
        · exact ⟨us, free', hnext⟩
        · exact ih _ hnext

/-- What is known about the placements while they are being made, whatever the spans are. -/
structure Plan.Partial (floor : UInt64) (units us : List PlanUnit) (free : List FreeRange)
    (moves : List (PlanUnit × UInt64)) : Prop where
  bounds : ∀ r ∈ free, floor.toNat ≤ r.start.toNat ∧ r.span.stop < 2 ^ 64
  subset : ∀ u ∈ us, u ∈ units
  nodup : ((moves.map fun m ↦ m.1.id) ++ us.map PlanUnit.id).Nodup
  move : ∀ m ∈ moves, m.1 ∈ units ∧ floor ≤ m.2 ∧ m.2 < m.1.offset

/-- What is known besides if the ranges keep clear of the spans and of each other. -/
structure Plan.Clear (frozen : List Span) (free : List FreeRange) (moves : List (PlanUnit × UInt64)) :
    Prop where
  ascending : Ascending free
  range : ∀ r ∈ free, ∀ s ∈ frozen, Apart r.span s
  move : ∀ m ∈ moves, ∀ s ∈ frozen, Apart (m.1.spanAt m.2) s
  apartFree : ∀ m ∈ moves, ∀ r ∈ free, Apart (m.1.spanAt m.2) r.span
  apart : moves.Pairwise fun m m' ↦ Apart (m.1.spanAt m.2) (m'.1.spanAt m'.2)

/-- A unit is passed over. -/
theorem Plan.Partial.skip (h : Plan.Partial floor units (u :: us) free moves) :
    Plan.Partial floor units us free moves where
  bounds := h.bounds
  subset := fun v hv ↦ h.subset v (List.mem_cons_of_mem u hv)
  nodup := h.nodup.sublist (List.Sublist.append_left (List.sublist_cons_self _ _) _)
  move := h.move

/-- A unit is placed. -/
theorem Plan.Partial.place (h : Plan.Partial floor units (u :: us) free moves) {dest : UInt64}
    {free' : List FreeRange} (hp : Placed u free dest free') :
    Plan.Partial floor units us free' (moves ++ [(u, dest)]) := by
  refine ⟨fun r' hr' ↦ ?_, fun v hv ↦ h.subset v (List.mem_cons_of_mem u hv), ?_, fun m hm ↦ ?_⟩
  · obtain ⟨r, hr, hle, hstop⟩ := hp.shrinks r' hr'
    obtain ⟨hfloor, hend⟩ := h.bounds r hr
    exact ⟨hfloor.trans hle, hstop ▸ hend⟩
  · rw [List.map_append, List.append_assoc]
    exact h.nodup
  · rcases List.mem_append.mp hm with hm | hm
    · exact h.move m hm
    · rw [List.mem_singleton.mp hm]
      obtain ⟨r, hr, rfl, -, hlow⟩ := hp.range
      exact ⟨h.subset u List.mem_cons_self, UInt64.le_iff_toNat_le.mpr (h.bounds r hr).1, hlow⟩

theorem Plan.Clear.place (h : Plan.Clear frozen free moves) {dest : UInt64}
    {free' : List FreeRange} (hp : Placed u free dest free') :
    Plan.Clear frozen free' (moves ++ [(u, dest)]) := by
  obtain ⟨r, hr, hdest, hfit, -⟩ := hp.range
  obtain ⟨hasc, hclear⟩ := hp.apart h.ascending
  have hapart (s : Span) (hs : Apart r.span s) : Apart (u.spanAt dest) s := by
    refine hs.mono ?_ hfit
    rw [hdest]
    exact le_rfl
  refine ⟨hasc, fun r' hr' s hs ↦ ?_, fun m hm s hs ↦ ?_, fun m hm r' hr' ↦ ?_, ?_⟩
  · obtain ⟨r₀, hr₀, hle, hstop⟩ := hp.shrinks r' hr'
    exact (h.range r₀ hr₀ s hs).mono hle hstop.le
  · rcases List.mem_append.mp hm with hm | hm
    · exact h.move m hm s hs
    · rw [List.mem_singleton.mp hm]
      exact hapart s (h.range r hr s hs)
  · rcases List.mem_append.mp hm with hm | hm
    · obtain ⟨r₀, hr₀, hle, hstop⟩ := hp.shrinks r' hr'
      have hstart : r₀.span.1 ≤ r'.span.1 := hle
      exact ((h.apartFree m hm r₀ hr₀).symm.mono hstart hstop.le).symm
    · rw [List.mem_singleton.mp hm]
      exact hclear r' hr'
  · refine List.pairwise_append.mpr ⟨h.apart, List.pairwise_singleton _ _, fun m hm m' hm' ↦ ?_⟩
    rw [List.mem_singleton.mp hm']
    exact (hapart _ (h.apartFree m hm r hr).symm).symm

/-- The units are looked at in some order, each once. -/
theorem partial_start (S : OffsetSort) (pinned : List PlanUnit)
    (hids : (units.map PlanUnit.id).Nodup) :
    Plan.Partial floor units (S.sort units).reverse (freeRanges units pinned floor) [] := by
  have hperm : (S.sort units).reverse.Perm units := (List.reverse_perm _).trans (S.perm units)
  refine ⟨fun r hr ↦ bounds_of_mem_freeRanges hr, fun u hu ↦ hperm.mem_iff.mp hu, ?_, nofun⟩
  rw [List.map_nil, List.nil_append]
  exact (hperm.map PlanUnit.id).nodup_iff.mpr hids

/-- **Every plan.** Each unit is placed at most once, below where it is and not below the floor. -/
theorem partial_placements (S : OffsetSort) (units : List PlanUnit) (floor : UInt64)
    (pinned : List PlanUnit) (hids : (units.map PlanUnit.id).Nodup) :
    ((placements S units floor pinned).map fun m ↦ m.1.id).Nodup ∧
      ∀ m ∈ placements S units floor pinned, m.1 ∈ units ∧ floor ≤ m.2 ∧ m.2 < m.1.offset := by
  rw [placements]
  split_ifs with hfree
  · exact ⟨List.nodup_nil, nofun⟩
  · obtain ⟨us', free', h⟩ := planLoop_rule units.length
      (maxLength (freeRanges units pinned floor)) (I := Plan.Partial floor units) (fun _ _ _ _ h ↦ h.skip)
      (fun _ _ _ _ _ _ h hp ↦ h.place (placed_of_place (fun r hr ↦ (h.bounds r hr).2) hp))
      (partial_start S pinned hids)
    exact ⟨(List.nodup_append.mp h.nodup).1, h.move⟩

/-- **The plan is sound** for spans that end within the words. Destinations keep clear of all units and
pinned spans as they are now, and of each other. -/
theorem clear_placements (S : OffsetSort) (floor : UInt64)
    (hids : (units.map PlanUnit.id).Nodup)
    (hends : ∀ v ∈ units ++ pinned, v.Bounded) :
    (∀ m ∈ placements S units floor pinned, ∀ v ∈ units ++ pinned, Apart (m.1.spanAt m.2) v.span) ∧
      (placements S units floor pinned).Pairwise fun m m' ↦
        Apart (m.1.spanAt m.2) (m'.1.spanAt m'.2) := by
  obtain ⟨hasc, hclear⟩ := apart_freeRanges floor hends
  rw [placements]
  split_ifs with hfree
  · exact ⟨nofun, .nil⟩
  · obtain ⟨us', free', -, h⟩ := planLoop_rule units.length (maxLength (freeRanges units pinned floor))
      (I := fun us free moves ↦ Plan.Partial floor units us free moves ∧
        Plan.Clear ((units ++ pinned).map PlanUnit.span) free moves)
      (fun _ _ _ _ h ↦ ⟨h.1.skip, h.2⟩)
      (fun _ _ _ _ _ _ h hp ↦ by
        have hplaced := placed_of_place (fun r hr ↦ (h.1.bounds r hr).2) hp
        exact ⟨h.1.place hplaced, h.2.place hplaced⟩)
      ⟨partial_start S pinned hids,
        ⟨hasc, fun r hr s hs ↦ by
          obtain ⟨v, hv, rfl⟩ := List.mem_map.mp hs
          exact hclear r hr v hv, nofun, nofun, .nil⟩⟩
    exact ⟨fun m hm v hv ↦ h.move m hm _ (List.mem_map_of_mem hv), h.apart⟩

end CompactPlan

end SafeVault
