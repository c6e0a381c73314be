import SafeVault.Vault.CommitLane

/-!
# The order in which the lane commits

What an observer may write down is said event by event: snapshots are enqueued and committed with
growing numbers, only enqueued ones are committed, and a flush that succeeds finds the newest one
committed. The invariant follows each snapshot from the slot where it waits to the worker and into
the history, so that at every point the newest one is either waiting, in the worker's hands, or
committed, unless a write has failed.

A failed write stops the lane for the snapshots that arrive after the flag is set, and not for one
that waits already.
-/

namespace SafeVault

namespace CommitLane

open History (Admits admits_concat)
open scoped List

variable {β : Type} {s t : State β} {log past : List (Event β)} {p q : Pending β} {a : Action β}

/-! ## What may be observed -/

/-- The snapshot of an event of `enqueue_snapshot`. -/
def Event.enqueued? : Event β → Option (Pending β)
  | .enqueued p => some p
  | _ => none

/-- The snapshot of an event of a commit. -/
def Event.committed? : Event β → Option (Pending β)
  | .committed p => some p
  | _ => none

/-- The snapshot that was enqueued last. -/
def newest (log : List (Event β)) : Option (Pending β) := (log.filterMap Event.enqueued?).getLast?

/-- The snapshots that were committed, in order. -/
def committed (log : List (Event β)) : List (Pending β) := log.filterMap Event.committed?

/-- What may follow a history: numbers grow, only enqueued snapshots are committed, and a flush
succeeds with the newest one committed. -/
def Ordered (past : List (Event β)) : Event β → Prop
  | .enqueued p => ∀ q, .enqueued q ∈ past → q.generation < p.generation
  | .committed p =>
    .enqueued p ∈ past ∧ ∀ q, .committed q ∈ past → q.generation < p.generation
  | .failed _ => True
  | .flushed ok => ok = true → ∀ p, newest past = some p → .committed p ∈ past

/-- Nothing is committed after a write that failed. -/
def Halted (past : List (Event β)) (e : Event β) : Prop :=
  ∀ p, e = .committed p → ∀ q, .failed q ∉ past

@[simp] theorem mem_committed : p ∈ committed log ↔ .committed p ∈ log := by
  rw [committed, List.mem_filterMap]
  constructor
  · rintro ⟨e, he, h⟩
    rcases e with _ | q | _ | _ <;> simp [Event.committed?] at h
    exact h ▸ he
  · exact fun h ↦ ⟨_, h, rfl⟩

section Concat

@[simp] theorem newest_enqueued : newest (log ++ [.enqueued p]) = some p := by
  simp [newest, Event.enqueued?]

@[simp] theorem newest_committed : newest (log ++ [.committed p]) = newest log := by
  simp [newest, Event.enqueued?]

@[simp] theorem committed_enqueued : committed (log ++ [.enqueued p]) = committed log := by
  simp [committed, Event.committed?]

@[simp] theorem committed_committed : committed (log ++ [.committed p]) = committed log ++ [p] := by
  simp [committed, Event.committed?]

@[simp] theorem committed_failed : committed (log ++ [.failed p]) = committed log := by
  simp [committed, Event.committed?]

@[simp] theorem committed_flushed {ok : Bool} :
    committed (log ++ [.flushed ok]) = committed log := by
  simp [committed, Event.committed?]

theorem mem_concat {e f : Event β} : e ∈ past ++ [f] ↔ e ∈ past ∨ e = f := by
  rw [List.mem_append, List.mem_singleton]

end Concat

/-! ## The line of snapshots -/

/-- The snapshot the worker may still commit. -/
def Worker.working : Worker β → List (Pending β)
  | .committing p => [p]
  | _ => []

/-- The committed snapshots, the one the worker is writing, and the one that waits. A snapshot moves
through the line from its end and leaves it only when it is replaced or its write fails. -/
def State.line (s : State β) : List (Pending β) :=
  committed s.log ++ (s.worker.working ++ s.pending.toList)

/-- The worker has a write behind it that failed. -/
def State.broken (s : State β) : Prop := s.failed = true ∨ ∃ p, s.worker = .failing p

/-- Which kind of vault the owner is working for. -/
def Owner.Fits (directory : Bool) : Owner β → Prop
  | .idle => True
  | .committing _ => directory = true
  | _ => directory = false

/-- The line is in order and made of enqueued snapshots, and the newest one is at its end. -/
structure Inv (s : State β) : Prop where
  ordered : Admits Ordered s.log
  owner : s.owner.Fits s.directory
  directory : s.directory = true → s.pending = none ∧ s.worker.job = none
  generation : s.directory = false → s.nextGen = s.issued + 1
  inFlight : s.inFlight = s.worker.job.isSome
  enqueued_le : ∀ p, .enqueued p ∈ s.log → p.generation ≤ s.issued
  line_enqueued : ∀ p ∈ s.line, .enqueued p ∈ s.log
  line_sorted : s.line.Pairwise (·.generation < ·.generation)
  newest_eq : ¬ s.broken → newest s.log = s.line.getLast?

theorem inv_start (directory : Bool) : Inv (start (β := β) directory) := by
  constructor <;>
    simp [start, Worker.job, Owner.Fits, State.line, committed, newest, Worker.working]

/-- The owner moves on without touching what the threads share. -/
theorem Inv.of_owner {o : Owner β} (h : Inv s) (ho : o.Fits s.directory) :
    Inv { s with owner := o } :=
  { h with owner := ho }

theorem inv_enqueueSnapshot {plain : β} (h : Inv s) (hs : enqueueSnapshot plain s = some t) :
    Inv t := by
  rw [enqueueSnapshot] at hs
  split_ifs at hs with _ _ hd
  · exact Option.some_inj.mp hs ▸ h
  · exact Option.some_inj.mp hs ▸ h
  · exact Option.some_inj.mp hs ▸ h.of_owner hd
  · exact Option.some_inj.mp hs ▸ h.of_owner (Bool.eq_false_iff.mpr hd)

theorem inv_serialize {ok : Bool} (h : Inv s) (hs : serialize ok s = some t) : Inv t := by
  rw [serialize] at hs
  split at hs
  · next plain ho =>
    have hd : s.directory = false := by simpa [ho, Owner.Fits] using h.owner
    rw [← Option.some_inj.mp hs]
    refine h.of_owner ?_
    split_ifs
    exacts [hd, trivial]
  · cases hs

theorem inv_recheck (h : Inv s) (hs : recheck s = some t) : Inv t := by
  rw [recheck] at hs
  split at hs
  · next plain ho =>
    have hd : s.directory = false := by simpa [ho, Owner.Fits] using h.owner
    rw [← Option.some_inj.mp hs]
    refine h.of_owner ?_
    split_ifs
    exacts [trivial, hd]
  · cases hs

theorem Inv.line_le (h : Inv s) (hp : p ∈ s.line) : p.generation ≤ s.issued :=
  h.enqueued_le p (h.line_enqueued p hp)

/-- A snapshot with a new number goes to the end of what the line keeps. -/
theorem Inv.sorted_concat {l : List (Pending β)} (h : Inv s) (hl : l <+ s.line)
    (hp : s.issued < p.generation) : (l ++ [p]).Pairwise (·.generation < ·.generation) := by
  refine List.pairwise_append.mpr ⟨h.line_sorted.sublist hl, List.pairwise_singleton _ _, ?_⟩
  intro q hq r hr
  rw [List.mem_singleton.mp hr]
  exact Nat.lt_of_le_of_lt (h.line_le (hl.subset hq)) hp

theorem inv_replacePending (h : Inv s) (hs : replacePending s = some t) : Inv t := by
  rw [replacePending] at hs
  split at hs
  · next plain ho =>
    have hd : s.directory = false := by simpa [ho, Owner.Fits] using h.owner
    have hg := h.generation hd
    -- What stays in the line when the snapshot that waits is replaced.
    have hkeep : committed s.log ++ s.worker.working <+ s.line :=
      List.append_sublist_append_left _ |>.mpr (List.sublist_append_left _ _)
    rw [← Option.some_inj.mp hs]
    constructor
    case ordered =>
      refine admits_concat.mpr ⟨h.ordered, fun q hq ↦ ?_⟩
      exact hg ▸ Nat.lt_succ_of_le (h.enqueued_le q hq)
    case owner => trivial
    case directory => simp [hd]
    case generation => simp [hg]
    case inFlight => exact h.inFlight
    case enqueued_le =>
      intro q hq
      rcases mem_concat.mp hq with hq | hq
      · exact Nat.le_succ_of_le (h.enqueued_le q hq)
      · cases hq
        exact Nat.le_of_eq hg
    case line_enqueued =>
      intro q hq
      simp only [State.line, committed_enqueued, Option.toList_some, ← List.append_assoc,
        mem_concat] at hq ⊢
      rcases List.mem_append.mp hq with hq | hq
      · exact .inl (h.line_enqueued q (hkeep.subset hq))
      · exact .inr (by rw [List.mem_singleton.mp hq])
    case line_sorted =>
      simp only [State.line, committed_enqueued, Option.toList_some, ← List.append_assoc]
      exact h.sorted_concat hkeep (hg ▸ Nat.lt_succ_self _)
    case newest_eq => simp [State.line, ← List.append_assoc]
  · cases hs

theorem Worker.working_of_job {w : Worker β} (h : w.job = none) : w.working = [] := by
  rcases w with _ | _ | _ | _ | _
  · rfl
  · cases h
  · rfl
  · rfl
  · rfl

theorem inv_commitDirectory {ok : Bool} (h : Inv s) (hs : commitDirectory ok s = some t) :
    Inv t := by
  rw [commitDirectory] at hs
  split at hs
  · next plain ho =>
    have hd : s.directory = true := by simpa [ho, Owner.Fits] using h.owner
    obtain ⟨hp, hj⟩ := h.directory hd
    have hw := Worker.working_of_job hj
    have hline : s.line = committed s.log := by simp [State.line, hp, hw]
    have henq := hline ▸ h.line_enqueued
    have hsorted := hline ▸ h.line_sorted
    have hnew : Admits Ordered (s.log ++ [.enqueued ⟨plain, s.issued + 1⟩]) :=
      admits_concat.mpr ⟨h.ordered, fun q hq ↦ Nat.lt_succ_of_le (h.enqueued_le q hq)⟩
    have hle : ∀ q, .enqueued q ∈ s.log ++ [.enqueued ⟨plain, s.issued + 1⟩] →
        q.generation ≤ s.issued + 1 := by
      intro q hq
      rcases mem_concat.mp hq with hq | hq
      · exact Nat.le_succ_of_le (h.enqueued_le q hq)
      · cases hq
        exact Nat.le_refl _
    rw [← Option.some_inj.mp hs]
    by_cases hok : ok = true
    · subst hok
      constructor
      case ordered =>
        refine admits_concat.mpr ⟨hnew, mem_concat.mpr (.inr rfl), fun q hq ↦ ?_⟩
        rcases mem_concat.mp hq with hq | hq
        · exact Nat.lt_succ_of_le (h.line_le (hline ▸ mem_committed.mpr hq))
        · cases hq
      case owner => trivial
      case directory => exact fun _ ↦ ⟨hp, hj⟩
      case generation => simp [hd]
      case inFlight => exact h.inFlight
      case enqueued_le =>
        intro q hq
        rcases mem_concat.mp hq with hq | hq
        · exact hle q hq
        · cases hq
      case line_enqueued =>
        intro q hq
        simp only [State.line, hp, hw, ↓reduceIte, committed_committed, committed_enqueued,
          Option.toList_none, List.append_nil] at hq ⊢
        rcases List.mem_append.mp hq with hq | hq
        · exact List.mem_append_left _ (List.mem_append_left _ (henq q hq))
        · simp [List.mem_singleton.mp hq]
      case line_sorted =>
        simp only [State.line, hp, hw, ↓reduceIte, committed_committed, committed_enqueued,
          Option.toList_none, List.append_nil]
        exact h.sorted_concat (hline ▸ List.Sublist.refl _) (Nat.lt_succ_self _)
      case newest_eq =>
        simp only [State.line, hp, hw, ↓reduceIte, newest_committed, newest_enqueued,
          committed_committed, Option.toList_none, List.append_nil, List.getLast?_concat,
          implies_true]
    · rw [Bool.not_eq_true] at hok
      subst hok
      constructor
      case ordered => exact admits_concat.mpr ⟨hnew, trivial⟩
      case owner => trivial
      case directory => exact fun _ ↦ ⟨hp, hj⟩
      case generation => simp [hd]
      case inFlight => exact h.inFlight
      case enqueued_le =>
        intro q hq
        rcases mem_concat.mp hq with hq | hq
        · exact hle q hq
        · cases hq
      case line_enqueued =>
        intro q hq
        simp only [State.line, hp, hw, Bool.false_eq_true, ↓reduceIte, committed_failed,
          committed_enqueued, Option.toList_none, List.append_nil] at hq ⊢
        exact List.mem_append_left _ (List.mem_append_left _ (henq q hq))
      case line_sorted =>
        simpa only [State.line, hp, hw, Bool.false_eq_true, ↓reduceIte, committed_failed,
          committed_enqueued, Option.toList_none, List.append_nil] using hsorted
      case newest_eq => simp [State.broken]
  · cases hs

/-- A step that moves no snapshot in or out of the line, and writes nothing down. -/
theorem Inv.of_line (h : Inv s) (hlog : t.log = s.log) (hline : t.line = s.line)
    (howner : t.owner = s.owner) (hdir : t.directory = s.directory)
    (hgen : t.nextGen = s.nextGen) (hissued : t.issued = s.issued)
    (hidle : s.directory = true → t.pending = none ∧ t.worker.job = none)
    (hfly : t.inFlight = t.worker.job.isSome) (hbroken : s.broken → t.broken) : Inv t where
  ordered := hlog ▸ h.ordered
  owner := howner ▸ hdir ▸ h.owner
  directory := fun hd ↦ hidle (hdir ▸ hd)
  generation := fun hd ↦ hgen ▸ hissued ▸ h.generation (hdir ▸ hd)
  inFlight := hfly
  enqueued_le := hlog ▸ hissued ▸ h.enqueued_le
  line_enqueued := hlog ▸ hline ▸ h.line_enqueued
  line_sorted := hline ▸ h.line_sorted
  newest_eq := fun hb ↦ hlog ▸ hline ▸ h.newest_eq (mt hbroken hb)

theorem inv_takeWork (h : Inv s) (hs : takeWork s = some t) : Inv t := by
  rw [takeWork] at hs
  split at hs
  · next p hw _ hp =>
    rw [← Option.some_inj.mp hs]
    refine h.of_line rfl ?_ rfl rfl rfl rfl (fun hd ↦ ?_) rfl ?_
    · -- The snapshot that waited is now in the worker's hands.
      simp [State.line, hp, hw, Worker.working]
    · rw [(h.directory hd).1] at hp
      cases hp
    · rintro (hf | ⟨q, hq⟩)
      · exact .inl hf
      · cases hw.symm.trans hq
  · next hw _ hp =>
    split_ifs at hs
    rw [← Option.some_inj.mp hs]
    refine h.of_line rfl ?_ rfl rfl rfl rfl (fun _ ↦ ⟨hp, rfl⟩) ?_ ?_
    · simp [State.line, hw, Worker.working]
    · simp [h.inFlight, hw, Worker.job]
    · rintro (hf | ⟨q, hq⟩)
      · exact .inl hf
      · cases hw.symm.trans hq
  · cases hs

theorem inv_storeFailed (h : Inv s) (hs : storeFailed s = some t) : Inv t := by
  rw [storeFailed] at hs
  split at hs
  · next p hw =>
    rw [← Option.some_inj.mp hs]
    refine h.of_line rfl ?_ rfl rfl rfl rfl (fun hd ↦ ?_) ?_ fun _ ↦ .inl rfl
    · simp [State.line, hw, Worker.working]
    · have hj := (h.directory hd).2
      rw [hw] at hj
      cases hj
    · simp [h.inFlight, hw, Worker.job]
  · cases hs

theorem inv_markDone (h : Inv s) (hs : markDone s = some t) : Inv t := by
  rw [markDone] at hs
  split at hs
  · next p hw _ =>
    rw [← Option.some_inj.mp hs]
    refine h.of_line rfl ?_ rfl rfl rfl rfl (fun hd ↦ ⟨(h.directory hd).1, rfl⟩) rfl ?_
    · simp [State.line, hw, Worker.working]
    · rintro (hf | ⟨q, hq⟩)
      · exact .inl hf
      · cases hw.symm.trans hq
  · cases hs

theorem inv_stop (h : Inv s) (hs : stop s = some t) : Inv t := by
  rw [stop] at hs
  split_ifs at hs
  · exact Option.some_inj.mp hs ▸ h
  · rw [← Option.some_inj.mp hs]
    exact h.of_line rfl rfl rfl rfl rfl rfl h.directory h.inFlight id

theorem inv_join (h : Inv s) (hs : join s = some t) : Inv t := by
  rw [join] at hs
  split_ifs at hs
  rw [← Option.some_inj.mp hs]
  exact h.of_line rfl rfl rfl rfl rfl rfl h.directory h.inFlight id

/-- A step that writes down an event other than an enqueued snapshot. The line may lose a snapshot
only when a write has failed. -/
theorem Inv.of_event {e : Event β} (h : Inv s) (hlog : t.log = s.log ++ [e])
    (he : Ordered s.log e) (hnew : e.enqueued? = none) (hline : t.line <+ s.line)
    (howner : t.owner = s.owner) (hdir : t.directory = s.directory)
    (hgen : t.nextGen = s.nextGen) (hissued : t.issued = s.issued)
    (hidle : s.directory = true → t.pending = none ∧ t.worker.job = none)
    (hfly : t.inFlight = t.worker.job.isSome)
    (hbroken : ¬ t.broken → ¬ s.broken ∧ t.line = s.line) : Inv t where
  ordered := hlog ▸ admits_concat.mpr ⟨h.ordered, he⟩
  owner := howner ▸ hdir ▸ h.owner
  directory := fun hd ↦ hidle (hdir ▸ hd)
  generation := fun hd ↦ hgen ▸ hissued ▸ h.generation (hdir ▸ hd)
  inFlight := hfly
  enqueued_le := by
    intro q hq
    rcases mem_concat.mp (hlog ▸ hq) with hq | rfl
    · exact hissued ▸ h.enqueued_le q hq
    · cases hnew
  line_enqueued := fun q hq ↦ hlog ▸ mem_concat.mpr (.inl (h.line_enqueued q (hline.subset hq)))
  line_sorted := h.line_sorted.sublist hline
  newest_eq := by
    intro hb
    obtain ⟨hb, hl⟩ := hbroken hb
    rw [hlog, hl, ← h.newest_eq hb, newest, List.filterMap_append, List.filterMap_cons_none hnew,
      List.filterMap_nil, List.append_nil, newest]

/-- The worker's write ends: the snapshot becomes a committed one, or leaves the line. -/
theorem inv_commitPlainBlob {ok : Bool} (h : Inv s) (hs : commitPlainBlob ok s = some t) :
    Inv t := by
  rw [commitPlainBlob] at hs
  split at hs
  · next p hw =>
    have hline : s.line = committed s.log ++ ([p] ++ s.pending.toList) := by
      rw [State.line, hw, Worker.working]
    have hjob : s.worker.job = some p := by rw [hw, Worker.job]
    have hfly : s.inFlight = true := by rw [h.inFlight, hjob, Option.isSome_some]
    have hidle : s.directory ≠ true := fun hd ↦ by simp [(h.directory hd).2] at hjob
    split_ifs at hs
    · rw [← Option.some_inj.mp hs]
      have hsorted := h.line_sorted
      rw [hline] at hsorted
      have hkeep : committed (s.log ++ [.committed p]) ++ ([] ++ s.pending.toList) = s.line := by
        rw [hline, committed_committed, List.nil_append, List.append_assoc]
      have hsub : committed (s.log ++ [.committed p]) ++ ([] ++ s.pending.toList) <+ s.line := by
        rw [hkeep]
      refine h.of_event rfl ⟨h.line_enqueued p (by simp [hline]), fun q hq ↦ ?_⟩ rfl
        hsub rfl rfl rfl rfl (fun hd ↦ absurd hd hidle) hfly
        fun hb ↦ ⟨?_, hkeep⟩
      · exact (List.pairwise_append.mp hsorted).2.2 q (mem_committed.mpr hq) p (by simp)
      · rintro (hf | ⟨q, hq⟩)
        · exact hb (.inl hf)
        · cases hw.symm.trans hq
    · rw [← Option.some_inj.mp hs]
      have hdrop : committed (s.log ++ [.failed p]) ++ ([] ++ s.pending.toList) <+ s.line := by
        rw [hline, committed_failed]
        exact (List.append_sublist_append_left _).mpr
          ((List.append_sublist_append_right _).mpr (List.nil_sublist _))
      exact h.of_event rfl trivial rfl hdrop rfl rfl rfl rfl (fun hd ↦ absurd hd hidle) hfly
        fun hb ↦ absurd (.inr ⟨p, rfl⟩) hb
  · cases hs

/-- With nothing left in the line but committed snapshots, the newest one is among them. -/
theorem Inv.newest_committed (h : Inv s) (hp : s.pending = none) (hfly : s.inFlight = false)
    (hf : s.failed = false) (hq : newest s.log = some q) : .committed q ∈ s.log := by
  have hj : s.worker.job = none := by
    rw [h.inFlight] at hfly
    exact Option.isSome_eq_false_iff.mp hfly |> Option.isNone_iff_eq_none.mp
  have hb : ¬ s.broken := by
    rintro (hf' | ⟨p, hp⟩)
    · cases hf.symm.trans hf'
    · rw [hp] at hj
      cases hj
  have hline : s.line = CommitLane.committed s.log := by
    simp [State.line, hp, Worker.working_of_job hj]
  rw [h.newest_eq hb, hline] at hq
  exact mem_committed.mp (List.mem_of_getLast? hq)

theorem inv_flush (h : Inv s) (hs : flush s = some t) : Inv t := by
  have hadd : ∀ ok, (ok = true → s.pending = none ∧ s.inFlight = false ∧ s.failed = false) →
      Inv { s with log := s.log ++ [.flushed ok] } := by
    intro ok hok
    refine h.of_event rfl (fun ht p hp ↦ ?_) rfl ?_ rfl rfl rfl rfl h.directory h.inFlight ?_
    · obtain ⟨h1, h2, h3⟩ := hok ht
      exact h.newest_committed h1 h2 h3 hp
    · simp [State.line]
    · exact fun hb ↦ ⟨hb, by simp [State.line]⟩
  rw [flush] at hs
  split_ifs at hs with _ _ hdone
  · rw [← Option.some_inj.mp hs]
    refine hadd _ fun hok ↦ ?_
    simpa [and_assoc] using hok
  · rw [← Option.some_inj.mp hs]
    refine hadd _ fun hok ↦ ?_
    rw [Bool.not_eq_true'] at hok
    simpa [hok] using hdone

theorem inv_step (h : Inv s) (hs : step s a = some t) : Inv t := by
  cases a with
  | enqueueSnapshot plain => exact inv_enqueueSnapshot h hs
  | serialize ok => exact inv_serialize h hs
  | recheck => exact inv_recheck h hs
  | replacePending => exact inv_replacePending h hs
  | commitDirectory ok => exact inv_commitDirectory h hs
  | takeWork => exact inv_takeWork h hs
  | commitPlainBlob ok => exact inv_commitPlainBlob h hs
  | storeFailed => exact inv_storeFailed h hs
  | markDone => exact inv_markDone h hs
  | flush => exact inv_flush h hs
  | stop => exact inv_stop h hs
  | join => exact inv_join h hs

/-! ## After a failed write -/

/-- No snapshot waits when a write fails, and none is stored by an owner who looked at `failed_`
before it was set. -/
def Quiet (s : State β) : Action β → Prop
  | .commitPlainBlob ok => ok = false → s.pending = none
  | .replacePending => ¬ s.broken
  | _ => True

/-- Something could still be committed. -/
def State.armed (s : State β) : Prop :=
  s.pending ≠ none ∨ (∃ p, s.worker = .committing p) ∨ ∃ plain, s.owner = .committing plain

/-- After a failed write there is nothing left that could be committed. -/
structure Halt (s : State β) : Prop where
  halted : Admits Halted s.log
  broken : ∀ p, .failed p ∈ s.log → s.broken
  idle : s.broken → ¬ s.armed

theorem halt_start (directory : Bool) : Halt (start (β := β) directory) := by
  constructor <;> simp [start, State.broken]

/-- A step that writes nothing down, and arms the lane only while no write has failed. -/
theorem Halt.of_log (hh : Halt s) (hlog : t.log = s.log) (hb : t.broken ↔ s.broken)
    (ha : t.armed → s.armed ∨ ¬ s.broken) : Halt t := by
  refine ⟨hlog ▸ hh.halted, fun p hp ↦ hb.mpr (hh.broken p (hlog ▸ hp)), fun hbt hat ↦ ?_⟩
  rcases ha hat with has | hns
  · exact hh.idle (hb.mp hbt) has
  · exact hns (hb.mp hbt)

/-- What is committed was armed, so no write can have failed before. -/
theorem Halt.of_committed (hh : Halt s) (hs : s.armed) (hlog : t.log = s.log ++ [.committed p])
    (hb : t.broken ↔ s.broken) : Halt t := by
  have hns : ¬ s.broken := fun hb ↦ hh.idle hb hs
  have hnone : ∀ q, .failed q ∉ s.log := fun q hq ↦ hns (hh.broken q hq)
  refine ⟨hlog ▸ admits_concat.mpr ⟨hh.halted, fun _ _ ↦ hnone⟩, fun q hq ↦ ?_, fun hbt ↦ ?_⟩
  · rcases mem_concat.mp (hlog ▸ hq) with hq | hq
    · exact absurd hq (hnone q)
    · cases hq
  · exact absurd (hb.mp hbt) hns

theorem Halt.of_failed (hh : Halt s) (hlog : t.log = s.log ++ [.failed p]) (hb : t.broken)
    (hidle : ¬ t.armed) : Halt t :=
  ⟨hlog ▸ admits_concat.mpr ⟨hh.halted, fun _ hq ↦ nomatch hq⟩, fun _ _ ↦ hb, fun _ ↦ hidle⟩

/-- An event that is neither kind of end of a commit. -/
theorem Halt.log_concat {e : Event β} (hh : Halt s) (hc : e.committed? = none)
    (hf : ∀ p, e ≠ .failed p) : Halt { s with log := s.log ++ [e] } := by
  refine ⟨admits_concat.mpr ⟨hh.halted, fun p hp ↦ ?_⟩, fun p hp ↦ ?_, hh.idle⟩
  · subst hp
    cases hc
  · rcases mem_concat.mp hp with hp | hp
    · exact hh.broken p hp
    · exact absurd hp.symm (hf p)

theorem halt_enqueueSnapshot {plain : β} (h : Inv s) (hh : Halt s)
    (hs : enqueueSnapshot plain s = some t) : Halt t := by
  rw [enqueueSnapshot] at hs
  split_ifs at hs with ho hout hd
  · exact Option.some_inj.mp hs ▸ hh
  · exact Option.some_inj.mp hs ▸ hh
  · rw [← Option.some_inj.mp hs]
    refine hh.of_log rfl Iff.rfl fun _ ↦ .inr ?_
    -- A directory has no worker, and with `failed_` set it was turned away above.
    rintro (hf | ⟨p, hw⟩)
    · simp [hf] at hout
    · have hj := (h.directory hd).2
      rw [hw] at hj
      cases hj
  · rw [← Option.some_inj.mp hs]
    exact hh.of_log rfl Iff.rfl fun ha ↦ .inl (by grind [State.armed])

/-- The owner moves on to a point where it does not commit. -/
theorem Halt.of_owner {o : Owner β} (hh : Halt s) (ho : ∀ plain, o ≠ .committing plain) :
    Halt { s with owner := o } :=
  hh.of_log rfl Iff.rfl fun ha ↦ .inl (by grind [State.armed])

theorem halt_step (h : Inv s) (hh : Halt s) (hq : Quiet s a) (hs : step s a = some t) : Halt t := by
  cases a with
  | enqueueSnapshot plain => exact halt_enqueueSnapshot h hh hs
  | serialize ok =>
    rw [step, serialize] at hs
    split at hs
    · exact Option.some_inj.mp hs ▸ hh.of_owner fun _ ↦ by split_ifs <;> nofun
    · cases hs
  | recheck =>
    rw [step, recheck] at hs
    split at hs
    · exact Option.some_inj.mp hs ▸ hh.of_owner fun _ ↦ by split_ifs <;> nofun
    · cases hs
  | replacePending =>
    rw [step, replacePending] at hs
    split at hs
    · next plain _ =>
      have hh' := hh.log_concat (e := .enqueued ⟨plain, s.nextGen⟩) rfl fun _ h ↦ nomatch h
      exact Option.some_inj.mp hs ▸ hh'.of_log rfl Iff.rfl fun _ ↦ .inr hq
    · cases hs
  | commitDirectory ok =>
    rw [step, commitDirectory] at hs
    split at hs
    · next plain ho =>
      have hd : s.directory = true := by simpa [ho, Owner.Fits] using h.owner
      obtain ⟨hp, hj⟩ := h.directory hd
      have hw : ∀ p, s.worker ≠ .committing p := fun p hw ↦ by simp [hw, Worker.job] at hj
      have hh' := hh.log_concat (e := .enqueued ⟨plain, s.issued + 1⟩) rfl fun _ h ↦ nomatch h
      rw [← Option.some_inj.mp hs]
      by_cases hok : ok = true
      · subst hok
        exact hh'.of_committed (.inr (.inr ⟨plain, ho⟩)) rfl (by simp [State.broken])
      · rw [Bool.not_eq_true] at hok
        subst hok
        exact hh'.of_failed rfl (.inl (by simp)) (by simp [State.armed, hp, hw])
    · cases hs
  | takeWork =>
    rw [step, takeWork] at hs
    split at hs
    · next p hw _ hp =>
      rw [← Option.some_inj.mp hs]
      refine hh.of_log rfl (by simp [State.broken, hw]) fun _ ↦ .inl (.inl ?_)
      simp [hp]
    · next hw _ hp =>
      split_ifs at hs
      rw [← Option.some_inj.mp hs]
      exact hh.of_log rfl (by simp [State.broken, hw]) fun ha ↦ .inl (by grind [State.armed])
    · cases hs
  | commitPlainBlob ok =>
    rw [step, commitPlainBlob] at hs
    split at hs
    · next p hw =>
      have ha : s.armed := .inr (.inl ⟨p, hw⟩)
      split_ifs at hs with hok
      · rw [← Option.some_inj.mp hs]
        exact hh.of_committed ha rfl (by simp [State.broken, hw])
      · rw [← Option.some_inj.mp hs]
        have hp : s.pending = none := hq (Bool.eq_false_iff.mpr hok)
        have ho : ∀ plain, s.owner ≠ .committing plain := by
          intro plain ho
          have hd : s.directory = true := by simpa [ho, Owner.Fits] using h.owner
          have hj := (h.directory hd).2
          rw [hw] at hj
          cases hj
        exact hh.of_failed rfl (.inr ⟨p, rfl⟩) (by simp [State.armed, hp, ho])
    · cases hs
  | storeFailed =>
    rw [step, storeFailed] at hs
    split at hs
    · next p hw =>
      rw [← Option.some_inj.mp hs]
      exact hh.of_log rfl (by simp [State.broken, hw]) fun ha ↦ .inl (by grind [State.armed])
    · cases hs
  | markDone =>
    rw [step, markDone] at hs
    split at hs
    · next p hw _ =>
      rw [← Option.some_inj.mp hs]
      exact hh.of_log rfl (by simp [State.broken, hw]) fun ha ↦ .inl (by grind [State.armed])
    · cases hs
  | flush =>
    rw [step, flush] at hs
    split_ifs at hs
    · exact Option.some_inj.mp hs ▸ hh.log_concat rfl fun _ h ↦ nomatch h
    · exact Option.some_inj.mp hs ▸ hh.log_concat rfl fun _ h ↦ nomatch h
  | stop =>
    rw [step, stop] at hs
    split_ifs at hs
    · exact Option.some_inj.mp hs ▸ hh
    · exact Option.some_inj.mp hs ▸ hh.of_log rfl Iff.rfl .inl
  | join =>
    rw [step, join] at hs
    split_ifs at hs
    exact Option.some_inj.mp hs ▸ hh.of_log rfl Iff.rfl .inl

/-! ## Runs of the lane -/

variable {directory : Bool} {as : List (Action β)}

/-- Every run from a started lane satisfies the invariant. -/
theorem inv_run (h : Run.run step (start directory) as = some t) : Inv t :=
  Run.invariant (C := fun _ _ ↦ True) (fun hs _ hst ↦ inv_step hs hst) (inv_start directory)
    (Run.meets_of_forall fun _ _ ↦ trivial) h

theorem halt_run (hq : Run.Meets step Quiet (start directory) as)
    (h : Run.run step (start directory) as = some t) : Halt t := by
  refine (Run.invariant (I := fun s ↦ Inv s ∧ Halt s) (fun hs hq hst ↦ ?_)
    ⟨inv_start directory, halt_start directory⟩ hq h).2
  exact ⟨inv_step hs.1 hst, halt_step hs.1 hs.2 hq hst⟩

/-- **Order and halting of the lane.** In every run the history is ordered; and if no snapshot is
there to be taken when a write fails, and none arrives late, nothing is committed after it. -/
theorem history_ordered_and_halted (h : Run.run step (start directory) as = some t) :
    Admits Ordered t.log ∧ (Run.Meets step Quiet (start directory) as → Admits Halted t.log) :=
  ⟨(inv_run h).ordered, fun hq ↦ (halt_run hq h).halted⟩

/-- The write fails with nothing behind it; the next snapshot is turned away, and so is a flush. -/
theorem history_ordered_and_halted_one :
    Admits Ordered ([.enqueued ⟨7, 1⟩, .failed ⟨7, 1⟩, .flushed false] : List (Event ℕ)) ∧
      Admits Halted ([.enqueued ⟨7, 1⟩, .failed ⟨7, 1⟩, .flushed false] : List (Event ℕ)) := by
  have h := history_ordered_and_halted (show Run.run step (start false)
    ([.enqueueSnapshot 7, .serialize true, .recheck, .replacePending, .takeWork,
      .commitPlainBlob false, .storeFailed, .markDone, .enqueueSnapshot 8, .flush] :
      List (Action ℕ)) = some _ from rfl)
  refine ⟨h.1, h.2 ⟨trivial, trivial, trivial, ?_, trivial, fun _ ↦ rfl, trivial, trivial, trivial,
    trivial, trivial⟩⟩
  rintro (hf | ⟨p, hp⟩)
  · cases hf
  · cases hp

/-- The second snapshot is stored while the first is being written. That write fails, and the worker
goes on to commit the second. -/
theorem commit_after_failed_write :
    ¬ ∀ (directory : Bool) (as : List (Action ℕ)) (t : State ℕ),
      Run.run step (start directory) as = some t →
        Admits Ordered t.log ∧ Admits Halted t.log := by
  intro h
  have hrun := (h false [.enqueueSnapshot 7, .serialize true, .recheck, .replacePending, .takeWork,
    .enqueueSnapshot 8, .serialize true, .recheck, .replacePending, .commitPlainBlob false,
    .storeFailed, .markDone, .takeWork, .commitPlainBlob true] _ rfl).2
  exact hrun [.enqueued ⟨7, 1⟩, .enqueued ⟨8, 2⟩, .failed ⟨7, 1⟩] (.committed ⟨8, 2⟩) [] rfl
    ⟨8, 2⟩ rfl ⟨7, 1⟩ (by decide)

end CommitLane

end SafeVault
