import SafeVault.Legacy.Ledger

/-!
# Reclaiming only dead bytes

`vault_reclaim` punches what neither the tree nor a slot of the header in memory refers to. What import
workers have appended for a medium that is not attached yet is not looked at, nor are the slots of the
header in the file if that could not be written. When there is nothing of the kind, the ranges keep
clear of everything, and they stay clear: whatever comes later is appended.

Chunks of a medium that is not attached lie in no span of the tree and in no slot, so whenever there is
one, its bytes are punched.
-/

namespace SafeVault

instance : DecidableRel Span.Apart := fun _ _ ↦ inferInstanceAs (Decidable (_ ∨ _))

namespace IndexSlot

/-- The bytes a slot points at. -/
def toSpan (slot : IndexSlot) : Span := (slot.offset, slot.length)

end IndexSlot

namespace Ledger

variable {s s' : Ledger} {reclaims : Bool} {g : Span} {live : List Span} {cursor fsize : ℕ}

/-! ## The scan -/

/-- As long as no end of a span wraps, the scan is a sweep up to the end of the file. -/
theorem scan_eq_sweep (h : ∀ span ∈ live, span.stop < 2 ^ 64) :
    scan fsize cursor live = Gaps.sweep cursor (live ++ [(fsize, 0)]) := by
  induction live generalizing cursor with
  | nil =>
    rw [scan, List.nil_append, Gaps.sweep, Gaps.sweep, List.append_nil]
  | cons span live ih =>
    obtain ⟨hspan, hlive⟩ := List.forall_mem_cons.mp h
    rw [scan, List.cons_append, Gaps.sweep, ih hlive]
    rw [show (span.1 + span.2) % 2 ^ 64 = span.stop from Nat.mod_eq_of_lt hspan]

/-! ## What is punched -/

/-- No chunk waits to be attached, and the slots of the header in the file are slots in memory, unless
they are dead. -/
structure Quiet (s : Ledger) : Prop where
  staged : ∀ m ∈ s.staged, m.spans = []
  written : ∀ i, slotLive s.size (s.onFile.slot i) = true →
    ∃ j, (s.header.slot j).toSpan = (s.onFile.slot i).toSpan

/-- The ranges that would be punched are disjoint, lie in the file and keep clear of everything that
is in use. -/
structure Safe (s : Ledger) : Prop where
  disjoint : s.punched.Pairwise Span.Apart
  inFile : ∀ g ∈ s.punched, g.stop ≤ s.size
  header : ∀ g ∈ s.punched, headerSize ≤ g.1
  slots : ∀ g ∈ s.punched, ∀ i, slotLive s.size (s.header.slot i) = true →
    g.Apart (s.header.slot i).toSpan
  fileSlots : ∀ g ∈ s.punched, ∀ i, slotLive s.size (s.onFile.slot i) = true →
    g.Apart (s.onFile.slot i).toSpan
  tree : ∀ g ∈ s.punched, ∀ r ∈ IndexNode.spans s.root, g.Apart r.toSpan
  staged : ∀ g ∈ s.punched, ∀ m ∈ s.staged, ∀ r ∈ m.spans, g.Apart r.toSpan

/-- Everything that is known lies in the file. -/
structure Placed (s : Ledger) : Prop where
  size : s.size ≤ maxFileSize
  tree : ∀ r ∈ IndexNode.spans s.root, r.toSpan.stop ≤ s.size
  staged : ∀ m ∈ s.staged, ∀ r ∈ m.spans, r.toSpan.stop ≤ s.size
  holes : ∀ g ∈ s.holes, g.stop ≤ s.size

theorem mem_liveSpans_slot {i : Bool} (h : slotLive s.size (s.header.slot i) = true) :
    (s.header.slot i).toSpan ∈ s.liveSpans := by
  refine List.mem_append_left _ (List.mem_map.mpr ⟨s.header.slot i, List.mem_filter.mpr ⟨?_, h⟩, rfl⟩)
  rcases i with _ | _
  · exact List.mem_cons_self
  · exact List.mem_cons_of_mem _ List.mem_cons_self

theorem mem_liveSpans_tree {r : ChunkSpan} (h : r ∈ IndexNode.spans s.root) :
    r.toSpan ∈ s.liveSpans :=
  List.mem_append_right _ (List.mem_map_of_mem h)

theorem mem_liveSpans_cases {span : Span} (h : span ∈ s.liveSpans) :
    (∃ i, slotLive s.size (s.header.slot i) = true ∧ span = (s.header.slot i).toSpan) ∨
      ∃ r ∈ IndexNode.spans s.root, span = r.toSpan := by
  rcases List.mem_append.mp h with h | h
  · obtain ⟨slot, hslot, rfl⟩ := List.mem_map.mp h
    obtain ⟨hmem, hlive⟩ := List.mem_filter.mp hslot
    rcases List.mem_cons.mp hmem with rfl | hmem
    · exact .inl ⟨false, hlive, rfl⟩
    · obtain rfl := List.mem_singleton.mp hmem
      exact .inl ⟨true, hlive, rfl⟩
  · obtain ⟨r, hr, rfl⟩ := List.mem_map.mp h
    exact .inr ⟨r, hr, rfl⟩

theorem stop_le_of_slotLive {size : ℕ} {slot : IndexSlot} (h : slotLive size slot = true) :
    slot.toSpan.stop ≤ size := by
  simp only [slotLive, Bool.and_eq_true, decide_eq_true_eq] at h
  rw [Span.stop, IndexSlot.toSpan]
  dsimp only
  omega

/-- Whether a slot is live depends on the bytes it points at. -/
theorem slotLive_congr {size : ℕ} {slot slot' : IndexSlot} (h : slot.toSpan = slot'.toSpan) :
    slotLive size slot = slotLive size slot' := by
  obtain ⟨hoffset, hlength⟩ := Prod.mk.inj h
  rw [slotLive, slotLive, hoffset, hlength]

namespace Placed

theorem stop_le (hp : s.Placed) {span : Span} (h : span ∈ s.liveSpans) : span.stop ≤ s.size := by
  rcases mem_liveSpans_cases h with ⟨i, hlive, rfl⟩ | ⟨r, hr, rfl⟩
  · exact stop_le_of_slotLive hlive
  · exact hp.tree r hr

/-- The sorted spans with the end of the file behind them. -/
theorem punched_eq (hp : s.Placed) : s.punched =
    Gaps.sweep headerSize (s.liveSpans.insertionSort Span.Le ++ [(s.size, 0)]) := by
  rw [punched]
  refine scan_eq_sweep fun span hspan ↦ ?_
  have hstop := hp.stop_le ((List.mem_insertionSort Span.Le).mp hspan)
  have hsize := hp.size
  rw [maxFileSize] at hsize
  omega

theorem sorted (hp : s.Placed) :
    (s.liveSpans.insertionSort Span.Le ++ [(s.size, 0)]).Pairwise Span.Le := by
  refine List.pairwise_append.mpr ⟨List.pairwise_insertionSort Span.Le _, List.pairwise_singleton _ _,
    fun span hspan last hlast ↦ ?_⟩
  obtain rfl := List.mem_singleton.mp hlast
  have hstop := hp.stop_le ((List.mem_insertionSort Span.Le).mp hspan)
  rw [Span.stop] at hstop
  rw [Span.Le]
  omega

theorem apart (hp : s.Placed) (hg : g ∈ s.punched) {span : Span} (h : span ∈ s.liveSpans) : g.Apart span := by
  rw [hp.punched_eq] at hg
  exact Gaps.apart_of_mem_sweep hp.sorted hg
    (List.mem_append_left _ ((List.mem_insertionSort Span.Le).mpr h))

theorem inFile (hp : s.Placed) (hg : g ∈ s.punched) : g.stop ≤ s.size := by
  rw [hp.punched_eq] at hg
  obtain ⟨span, hspan, hstop⟩ := Gaps.exists_stop_eq hg
  rcases List.mem_append.mp hspan with hspan | hspan
  · have hle := hp.stop_le ((List.mem_insertionSort Span.Le).mp hspan)
    rw [Span.stop] at hle
    omega
  · obtain rfl := List.mem_singleton.mp hspan
    exact hstop.le

/-- **When nothing waits**, only dead bytes are punched. -/
theorem safe (hp : s.Placed) (hq : s.Quiet) : s.Safe := by
  refine ⟨?_, fun g hg ↦ hp.inFile hg, fun g hg ↦ ?_, fun g hg i hlive ↦ ?_, fun g hg i hlive ↦ ?_,
    fun g hg r hr ↦ hp.apart hg (mem_liveSpans_tree hr), fun g hg m hm r hr ↦ ?_⟩
  · rw [hp.punched_eq]
    exact Gaps.pairwise_sweep.imp fun h ↦ .inl h
  · rw [hp.punched_eq] at hg
    exact Gaps.cursor_le hg
  · exact hp.apart hg (mem_liveSpans_slot hlive)
  · obtain ⟨j, hj⟩ := hq.written i hlive
    rw [← hj]
    exact hp.apart hg (mem_liveSpans_slot ((slotLive_congr hj).trans hlive))
  · rw [hq.staged m hm] at hr
    exact absurd hr List.not_mem_nil

/-! ### The invariant -/

theorem stop_appended {size : ℕ} {length : UInt64} (hfits : size + length.toNat ≤ maxFileSize) :
    (ChunkSpan.toSpan ⟨.ofNat size, length⟩) = (size, length.toNat) := by
  rw [maxFileSize] at hfits
  refine Prod.ext ?_ rfl
  exact UInt64.toNat_ofNat_of_lt (lt_of_le_of_lt (Nat.le_of_add_right_le hfits) (by decide))

theorem change (hp : s.Placed) (h : Change s reclaims s') : s'.Placed := by
  have hgrow {n : ℕ} (hn : n = 0 ∨ s.size + n ≤ maxFileSize) : s.size + n ≤ maxFileSize := by
    rcases hn with rfl | hn
    · exact hp.size
    · exact hn
  have hlater (n : ℕ) {stop : ℕ} (hstop : stop ≤ s.size) : stop ≤ s.size + n :=
    Nat.le_add_right_of_le hstop
  cases h with
  | edit root lane h => exact ⟨hp.size, fun r hr ↦ hp.tree r (h r hr), hp.staged, hp.holes⟩
  | begin m h =>
    refine ⟨hp.size, hp.tree, fun m' hm' r hr ↦ ?_, hp.holes⟩
    rcases List.mem_append.mp hm' with hm' | hm'
    · exact hp.staged m' hm' r hr
    · rw [List.mem_singleton.mp hm', h] at hr
      exact absurd hr List.not_mem_nil
  | chunk job m m' length hjob hfits h =>
    refine ⟨hfits, fun r hr ↦ hlater _ (hp.tree r hr), fun m₁ hm₁ r hr ↦ ?_,
      fun g hg ↦ hlater _ (hp.holes g hg)⟩
    rcases List.mem_or_eq_of_mem_set hm₁ with hm₁ | rfl
    · exact hlater _ (hp.staged m₁ hm₁ r hr)
    rcases h r hr with hr | rfl
    · exact hlater _ (hp.staged m (List.mem_of_getElem? hjob) r hr)
    · rw [stop_appended hfits]
      exact le_rfl
  | drop job written hfits =>
    exact ⟨hgrow hfits, fun r hr ↦ hlater _ (hp.tree r hr),
      fun m hm r hr ↦ hlater _ (hp.staged m (List.mem_of_mem_eraseIdx hm) r hr),
      fun g hg ↦ hlater _ (hp.holes g hg)⟩
  | attach job m root hjob h =>
    refine ⟨hp.size, fun r hr ↦ ?_, fun m' hm' ↦ hp.staged m' (List.mem_of_mem_eraseIdx hm'), hp.holes⟩
    rcases h r hr with hr | hr
    · exact hp.tree r hr
    · exact hp.staged m (List.mem_of_getElem? hjob) r hr
  | commit written header onFile lane hfits h =>
    exact ⟨hgrow hfits, fun r hr ↦ hlater _ (hp.tree r hr),
      fun m hm r hr ↦ hlater _ (hp.staged m hm r hr), fun g hg ↦ hlater _ (hp.holes g hg)⟩
  | reclaim =>
    refine ⟨hp.size, hp.tree, hp.staged, fun g hg ↦ ?_⟩
    rcases List.mem_append.mp hg with hg | hg
    · exact hp.holes g hg
    · exact hp.inFile hg

theorem run (hp : s.Placed) (actions : List Action) : (s.run actions).Placed := by
  induction actions generalizing s with
  | nil => exact hp
  | cons action actions ih => exact ih (hp.change (change_step s action))

end Placed

/-! ## What was punched stays dead -/

/-- Nothing that the tree refers to or a worker has appended lies in a hole. -/
structure Intact (s : Ledger) : Prop where
  tree : ∀ g ∈ s.holes, ∀ r ∈ IndexNode.spans s.root, g.Apart r.toSpan
  staged : ∀ g ∈ s.holes, ∀ m ∈ s.staged, ∀ r ∈ m.spans, g.Apart r.toSpan

/-- A hole is made by a safe reclaim, or not at all. -/
theorem Intact.change (hi : s.Intact) (hp : s.Placed) (h : Change s reclaims s')
    (hsafe : reclaims = true → s.Safe) : s'.Intact := by
  cases h with
  | edit root lane h => exact ⟨fun g hg r hr ↦ hi.tree g hg r (h r hr), hi.staged⟩
  | begin m h =>
    refine ⟨hi.tree, fun g hg m' hm' r hr ↦ ?_⟩
    rcases List.mem_append.mp hm' with hm' | hm'
    · exact hi.staged g hg m' hm' r hr
    · rw [List.mem_singleton.mp hm', h] at hr
      exact absurd hr List.not_mem_nil
  | chunk job m m' length hjob hfits h =>
    refine ⟨hi.tree, fun g hg m₁ hm₁ r hr ↦ ?_⟩
    rcases List.mem_or_eq_of_mem_set hm₁ with hm₁ | rfl
    · exact hi.staged g hg m₁ hm₁ r hr
    rcases h r hr with hr | rfl
    · exact hi.staged g hg m (List.mem_of_getElem? hjob) r hr
    · -- The new chunk begins where the file ended.
      rw [Placed.stop_appended hfits]
      exact .inl (hp.holes g hg)
  | drop job written hfits =>
    exact ⟨hi.tree, fun g hg m hm ↦ hi.staged g hg m (List.mem_of_mem_eraseIdx hm)⟩
  | attach job m root hjob h =>
    refine ⟨fun g hg r hr ↦ ?_, fun g hg m' hm' ↦ hi.staged g hg m' (List.mem_of_mem_eraseIdx hm')⟩
    rcases h r hr with hr | hr
    · exact hi.tree g hg r hr
    · exact hi.staged g hg m (List.mem_of_getElem? hjob) r hr
  | commit written header onFile lane hfits h => exact ⟨hi.tree, hi.staged⟩
  | reclaim h =>
    refine ⟨fun g hg r hr ↦ ?_, fun g hg m hm r hr ↦ ?_⟩
    · rcases List.mem_append.mp hg with hg | hg
      · exact hi.tree g hg r hr
      · exact (hsafe h).tree g hg r hr
    · rcases List.mem_append.mp hg with hg | hg
      · exact hi.staged g hg m hm r hr
      · exact (hsafe h).staged g hg m hm r hr

/-- In a run, nothing waits whenever space may be reclaimed. -/
def QuietRun : Ledger → List Action → Prop
  | _, [] => True
  | s, action :: actions => (action.reclaims = true → s.Quiet) ∧ QuietRun (s.step action) actions

theorem Intact.run (hi : s.Intact) (hp : s.Placed) {actions : List Action}
    (hq : s.QuietRun actions) : (s.run actions).Intact := by
  induction actions generalizing s with
  | nil => exact hi
  | cons action actions ih =>
    have hchange := change_step s action
    exact ih (hi.change hp hchange fun h ↦ hp.safe (hq.1 h)) (hp.change hchange) hq.2

/-! ## What waits is punched -/

/-- What a medium that waits refers to. -/
def jobSpans (staged : List Media) (job : ℕ) : List ChunkSpan := staged[job]?.elim [] Media.spans

section Jobs

variable {staged : List Media} {m : Media} {r : ChunkSpan} {i job : ℕ}

theorem mem_of_mem_jobSpans (h : r ∈ jobSpans staged i) : ∃ m ∈ staged, r ∈ m.spans := by
  rw [jobSpans] at h
  rcases hm : staged[i]? with _ | m
  · rw [hm] at h
    exact absurd h List.not_mem_nil
  · rw [hm] at h
    exact ⟨m, List.mem_of_getElem? hm, h⟩

theorem exists_mem_jobSpans (hm : m ∈ staged) (h : r ∈ m.spans) : ∃ i, r ∈ jobSpans staged i := by
  obtain ⟨i, hi⟩ := List.mem_iff_getElem?.mp hm
  refine ⟨i, ?_⟩
  rw [jobSpans, hi]
  exact h

theorem mem_jobSpans_append (hnone : m.spans = []) (h : r ∈ jobSpans (staged ++ [m]) i) :
    r ∈ jobSpans staged i := by
  rw [jobSpans, List.getElem?_append] at h
  split_ifs at h with hlt
  · exact h
  · rcases hi : i - staged.length with _ | k
    · rw [hi, List.getElem?_cons_zero, Option.elim_some, hnone] at h
      exact absurd h List.not_mem_nil
    · rw [hi, List.getElem?_cons_succ, List.getElem?_nil] at h
      exact absurd h List.not_mem_nil

theorem mem_jobSpans_set (h : r ∈ jobSpans (staged.set job m) i) :
    i = job ∧ r ∈ m.spans ∨ i ≠ job ∧ r ∈ jobSpans staged i := by
  rw [jobSpans, List.getElem?_set] at h
  split_ifs at h with heq hlt
  · exact .inl ⟨heq.symm, h⟩
  · exact absurd h List.not_mem_nil
  · exact .inr ⟨Ne.symm heq, h⟩

theorem jobSpans_eraseIdx (staged : List Media) (job i : ℕ) :
    jobSpans (staged.eraseIdx job) i = jobSpans staged (if i < job then i else i + 1) := by
  rw [jobSpans, List.getElem?_eraseIdx, jobSpans]
  split_ifs <;> rfl

end Jobs

/-- Chunks that wait lie apart from everything else, and the slots lie in the file. -/
structure Separate (s : Ledger) : Prop where
  floor : headerSize ≤ s.size
  low : ∀ i, ∀ r ∈ jobSpans s.staged i, headerSize ≤ r.toSpan.1
  tree : ∀ i, ∀ r ∈ jobSpans s.staged i, ∀ t ∈ IndexNode.spans s.root, r.toSpan.Apart t.toSpan
  jobs : ∀ i j, i ≠ j → ∀ r ∈ jobSpans s.staged i, ∀ t ∈ jobSpans s.staged j,
    r.toSpan.Apart t.toSpan
  slots : ∀ k, (s.header.slot k).length = 0 ∨ (s.header.slot k).toSpan.stop ≤ s.size ∧
    ∀ i, ∀ r ∈ jobSpans s.staged i, r.toSpan.Apart (s.header.slot k).toSpan

theorem Separate.change (hs : s.Separate) (hp : s.Placed) (h : Change s reclaims s') :
    s'.Separate := by
  cases h with
  | edit root lane h =>
    exact ⟨hs.floor, hs.low, fun i r hr t ht ↦ hs.tree i r hr t (h t ht), hs.jobs, hs.slots⟩
  | begin m h =>
    refine ⟨hs.floor, fun i r hr ↦ hs.low i r (mem_jobSpans_append h hr),
      fun i r hr ↦ hs.tree i r (mem_jobSpans_append h hr), fun i j hij r hr t ht ↦
        hs.jobs i j hij r (mem_jobSpans_append h hr) t (mem_jobSpans_append h ht), fun k ↦ ?_⟩
    exact (hs.slots k).imp_right fun h' ↦ ⟨h'.1, fun i r hr ↦ h'.2 i r (mem_jobSpans_append h hr)⟩
  | chunk job m m' length hjob hfits h =>
    have hnew : (ChunkSpan.toSpan ⟨.ofNat s.size, length⟩) = (s.size, length.toNat) :=
      Placed.stop_appended hfits
    -- A chunk of the job is old, or lies behind all that was there.
    have hchunk (r : ChunkSpan) (hr : r ∈ m'.spans) : r ∈ jobSpans s.staged job ∨
        r.toSpan = (s.size, length.toNat) := by
      rcases h r hr with hr | rfl
      · refine .inl ?_
        rw [jobSpans, hjob]
        exact hr
      · exact .inr hnew
    have hjobs (j : ℕ) (hj : j ≠ job) (r : ChunkSpan) (hr : r ∈ m'.spans) (t : ChunkSpan)
        (ht : t ∈ jobSpans s.staged j) : r.toSpan.Apart t.toSpan := by
      rcases hchunk r hr with hr | hr
      · exact hs.jobs job j hj.symm r hr t ht
      · rw [hr]
        obtain ⟨m₁, hm₁, ht⟩ := mem_of_mem_jobSpans ht
        exact .inr (hp.staged m₁ hm₁ t ht)
    refine ⟨Nat.le_add_right_of_le hs.floor, fun i r hr ↦ ?_, fun i r hr t ht ↦ ?_,
      fun i j hij r hr t ht ↦ ?_, fun k ↦ ?_⟩
    · rcases mem_jobSpans_set hr with ⟨-, hin⟩ | ⟨-, hin⟩
      · rcases hchunk r hin with hin | hin
        · exact hs.low job r hin
        · rw [hin]
          exact hs.floor
      · exact hs.low i r hin
    · rcases mem_jobSpans_set hr with ⟨-, hin⟩ | ⟨-, hin⟩
      · rcases hchunk r hin with hin | hin
        · exact hs.tree job r hin t ht
        · rw [hin]
          exact .inr (hp.tree t ht)
      · exact hs.tree i r hin t ht
    · rcases mem_jobSpans_set hr with ⟨hi, hin⟩ | ⟨hi, hin⟩
      · rcases mem_jobSpans_set ht with ⟨hj, -⟩ | ⟨hj, htin⟩
        · exact absurd (hi.trans hj.symm) hij
        · exact hjobs j hj r hin t htin
      · rcases mem_jobSpans_set ht with ⟨-, htin⟩ | ⟨-, htin⟩
        · exact (hjobs i hi t htin r hin).symm
        · exact hs.jobs i j hij r hin t htin
    · refine (hs.slots k).imp_right fun h' ↦ ⟨Nat.le_add_right_of_le h'.1, fun i r hr ↦ ?_⟩
      rcases mem_jobSpans_set hr with ⟨-, hin⟩ | ⟨-, hin⟩
      · rcases hchunk r hin with hin | hin
        · exact h'.2 job r hin
        · rw [hin]
          exact .inr h'.1
      · exact h'.2 i r hin
  | drop job written hfits =>
    refine ⟨Nat.le_add_right_of_le hs.floor, fun i ↦ ?_, fun i ↦ ?_, fun i j hij ↦ ?_, fun k ↦ ?_⟩
    · rw [jobSpans_eraseIdx]
      exact hs.low _
    · rw [jobSpans_eraseIdx]
      exact hs.tree _
    · rw [jobSpans_eraseIdx, jobSpans_eraseIdx]
      refine hs.jobs _ _ ?_
      split_ifs <;> omega
    · refine (hs.slots k).imp_right fun h' ↦ ⟨Nat.le_add_right_of_le h'.1, fun i ↦ ?_⟩
      rw [jobSpans_eraseIdx]
      exact h'.2 _
  | attach job m root hjob h =>
    refine ⟨hs.floor, fun i ↦ ?_, fun i r hr t ht ↦ ?_, fun i j hij ↦ ?_, fun k ↦ ?_⟩
    · rw [jobSpans_eraseIdx]
      exact hs.low _
    · rw [jobSpans_eraseIdx] at hr
      rcases h t ht with ht | ht
      · exact hs.tree _ r hr t ht
      · -- What is now in the tree was another medium that waits.
        refine hs.jobs _ job ?_ r hr t ?_
        · split_ifs <;> omega
        · rw [jobSpans, hjob]
          exact ht
    · rw [jobSpans_eraseIdx, jobSpans_eraseIdx]
      refine hs.jobs _ _ ?_
      split_ifs <;> omega
    · refine (hs.slots k).imp_right fun h' ↦ ⟨h'.1, fun i ↦ ?_⟩
      rw [jobSpans_eraseIdx]
      exact h'.2 _
  | commit written header onFile lane hfits h =>
    refine ⟨Nat.le_add_right_of_le hs.floor, hs.low, hs.tree, hs.jobs, fun k ↦ ?_⟩
    dsimp only
    rcases h k with hold | ⟨hoffset, hlength⟩
    · rw [hold]
      exact (hs.slots k).imp_right fun h' ↦ ⟨Nat.le_add_right_of_le h'.1, h'.2⟩
    · refine .inr ⟨?_, fun i r hr ↦ ?_⟩
      · rw [Span.stop, IndexSlot.toSpan, hoffset, hlength]
      · obtain ⟨m, hm, hr⟩ := mem_of_mem_jobSpans hr
        rw [IndexSlot.toSpan, hoffset]
        exact .inl (hp.staged m hm r hr)
  | reclaim h => exact ⟨hs.floor, hs.low, hs.tree, hs.jobs, hs.slots⟩

theorem Separate.run (hs : s.Separate) (hp : s.Placed) (actions : List Action) :
    (s.run actions).Separate := by
  induction actions generalizing s with
  | nil => exact hs
  | cons action actions ih =>
    have hchange := change_step s action
    exact ih (hs.change hp hchange) (hp.change hchange)

/-- **A chunk that waits** lies in a range that would be punched. -/
theorem Separate.exists_punched (hs : s.Separate) (hp : s.Placed) {m : Media} {r : ChunkSpan}
    (hm : m ∈ s.staged) (hr : r ∈ m.spans) :
    ∃ g ∈ s.punched, g.1 ≤ r.toSpan.1 ∧ r.toSpan.stop ≤ g.stop := by
  obtain ⟨i, hi⟩ := exists_mem_jobSpans hm hr
  have hpos : 0 < r.toSpan.2 := by
    refine Nat.pos_of_ne_zero fun hzero ↦ Media.length_ne_zero hr ?_
    exact UInt64.toNat_inj.mp hzero
  rw [hp.punched_eq]
  refine Gaps.exists_mem_sweep hpos (hs.low i r hi) (fun span hspan ↦ ?_)
    ⟨(s.size, 0), List.mem_append_right _ (List.mem_singleton.mpr rfl), hp.staged m hm r hr⟩
  rcases List.mem_append.mp hspan with hspan | hspan
  · rcases mem_liveSpans_cases ((List.mem_insertionSort Span.Le).mp hspan) with
      ⟨k, hlive, rfl⟩ | ⟨t, ht, rfl⟩
    · rcases hs.slots k with hzero | ⟨-, hapart⟩
      · rw [slotLive, hzero] at hlive
        exact absurd hlive Bool.false_ne_true
      · exact hapart i r hi
    · exact hs.tree i r hi t ht
  · rw [List.mem_singleton.mp hspan]
    exact .inl (hp.staged m hm r hr)

/-! ## Runs from an opened vault -/

/-- A vault as it is when it has been opened: what the tree refers to lies in the file, and nothing waits. -/
structure Opened (s : Ledger) : Prop where
  size : headerSize ≤ s.size ∧ s.size ≤ maxFileSize
  tree : ∀ r ∈ IndexNode.spans s.root, r.toSpan.stop ≤ s.size
  staged : s.staged = []
  holes : s.holes = []

theorem Opened.placed (ho : s.Opened) : s.Placed := by
  refine ⟨ho.size.2, ho.tree, ?_, ?_⟩
  · rw [ho.staged]
    exact fun m hm ↦ absurd hm List.not_mem_nil
  · rw [ho.holes]
    exact fun g hg ↦ absurd hg List.not_mem_nil

theorem Opened.separate (ho : s.Opened)
    (hslots : ∀ k, (s.header.slot k).length = 0 ∨ (s.header.slot k).toSpan.stop ≤ s.size) :
    s.Separate := by
  have hnone (i : ℕ) (r : ChunkSpan) : r ∉ jobSpans s.staged i := by
    rw [ho.staged]
    exact List.not_mem_nil
  exact ⟨ho.size.1, fun i r hr ↦ absurd hr (hnone i r), fun i r hr ↦ absurd hr (hnone i r),
    fun i j _ r hr ↦ absurd hr (hnone i r),
    fun k ↦ (hslots k).imp_right fun h ↦ ⟨h, fun i r hr ↦ absurd hr (hnone i r)⟩⟩

theorem Opened.intact (ho : s.Opened) : s.Intact := by
  refine ⟨?_, ?_⟩ <;> rw [ho.holes] <;> exact fun g hg ↦ absurd hg List.not_mem_nil

/-- **Reclaiming in a run.** In every state that a vault can reach, what `vault_reclaim` would punch
is dead if nothing waits. If the slots lay in the file, it is dead only if no chunk waits to be attached.
In a run in which nothing waits whenever space may be reclaimed, no byte that was punched is used in any
state. -/
theorem reclaim_run (ho : s.Opened) (actions : List Action) :
    ((s.run actions).Quiet → (s.run actions).Safe) ∧
    ((∀ k, (s.header.slot k).length = 0 ∨ (s.header.slot k).toSpan.stop ≤ s.size) →
      (s.run actions).Safe → ∀ m ∈ (s.run actions).staged, m.spans = []) ∧
    (s.QuietRun actions → (s.run actions).Intact) := by
  have hp := ho.placed.run actions
  refine ⟨fun hq ↦ hp.safe hq, fun hslots hsafe m hm ↦ ?_, fun hq ↦ ho.intact.run ho.placed hq⟩
  refine List.eq_nil_iff_forall_not_mem.mpr fun r hr ↦ ?_
  have hseparate := (ho.separate hslots).run ho.placed actions
  obtain ⟨g, hg, hstart, hstop⟩ := hseparate.exists_punched hp hm hr
  have hpos : r.toSpan.2 ≠ 0 := fun hzero ↦
    Media.length_ne_zero hr (UInt64.toNat_inj.mp hzero)
  have hapart := hsafe.staged g hg m hm r hr
  simp only [Span.Apart, Span.stop] at hapart hstop
  omega

/-- A vault with one image of a megabyte, and its index behind that. -/
def oneImage : Ledger where
  size := 1004196
  header := { slotA := { offset := 1004096, length := 100 } }
  onFile := { slotA := { offset := 1004096, length := 100 } }
  root := .branch { name := [] }
    [.leaf { name := ascii "a" } (.image { dataOffset := 4096, dataLength := 1000000 })]

theorem opened_oneImage : oneImage.Opened :=
  ⟨by decide +kernel, by decide +kernel, rfl, rfl⟩

/-- Nothing waits when the image is removed and its bytes are punched, so a later import is safe. -/
theorem reclaim_run_oneImage :
    let actions : List Action := [.removeNodes [ascii "a"], .commit { length := 90 } .done,
      .autoReclaim, .stageBegin (.image {}), .stageChunk 0 .data 5000,
      .attach 0 [] { name := ascii "b" }]
    (oneImage.run actions).holes ≠ [] ∧ (oneImage.run actions).Safe ∧
      (oneImage.run actions).Intact := by
  intro actions
  have hquiet : (oneImage.run actions).Quiet := ⟨by decide +kernel, by decide +kernel⟩
  have hrun : oneImage.QuietRun actions :=
    ⟨nofun, nofun, fun _ ↦ ⟨by decide +kernel, by decide +kernel⟩, nofun, nofun, nofun, trivial⟩
  exact ⟨by decide +kernel, (reclaim_run opened_oneImage actions).1 hquiet,
    (reclaim_run opened_oneImage actions).2.2 hrun⟩

/-- A worker has appended an image when another one is removed. What it appended is punched, and the
image that is attached then has no bytes. -/
theorem reclaim_punches_staged :
    let before : List Action := [.stageBegin (.image {}), .stageChunk 0 .data 5000,
      .removeNodes [ascii "a"], .commit { length := 90 } .done]
    let after := before ++ [.autoReclaim, .attach 0 [] { name := ascii "b" }]
    oneImage.Opened ∧ ¬(oneImage.run before).Safe ∧
      (childNamed (oneImage.run after).root (ascii "b")).isSome = true ∧
      ∃ g ∈ (oneImage.run after).holes, ∃ r ∈ IndexNode.spans (oneImage.run after).root,
        g.1 ≤ r.toSpan.1 ∧ r.toSpan.stop ≤ g.stop := by
  intro before after
  refine ⟨opened_oneImage, fun hsafe ↦ ?_, by decide +kernel, by decide +kernel⟩
  have hhit : ¬∀ g ∈ (oneImage.run before).punched, ∀ m ∈ (oneImage.run before).staged,
      ∀ r ∈ m.spans, g.Apart r.toSpan := by decide +kernel
  exact hhit hsafe.staged

end Ledger

end SafeVault
