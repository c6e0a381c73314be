import SafeVault.Import.Queue

/-!
# What the saves of an import cover

The latch `batch_ended_` is set only when every task is finished and no record is left, and enqueuing
clears it; so nothing can be drained while it is set. A drain that finds the queue idle either finds it
set, and everything was covered when it was set, or sets it and asks for a save.

A drain that is turned away while the exclusive section is held does not look at the queue at all.
-/

namespace SafeVault

namespace ImportQueue

variable {ν : Type} {q q' : Queue ν} {a : Action ν} {t : Task ν} {id : ℕ} {f : Task ν → Task ν}

/-! ## Changing the tasks -/

theorem mem_of_mem_updateTask (h : t ∈ (q.updateTask id f).tasks) :
    t ∈ q.tasks ∨ ∃ u ∈ q.tasks, u.id = id ∧ f u = t := by
  rcases mem_replaceF h with h | ⟨u, hu, hf⟩
  · exact .inl h
  · split_ifs at hf with hid
    exact .inr ⟨u, hu, hid, Option.some.inj hf⟩

theorem mem_updateTask (h : t ∈ q.tasks) :
    t ∈ (q.updateTask id f).tasks ∨ t.id = id ∧ f t ∈ (q.updateTask id f).tasks := by
  rw [Queue.updateTask]
  dsimp only
  generalize q.tasks = ts at h
  induction ts with
  | nil => exact absurd h List.not_mem_nil
  | cons u ts ih =>
    rw [List.replaceF]
    by_cases hid : u.id = id
    · rw [if_pos hid]
      rcases List.mem_cons.mp h with rfl | h
      · exact .inr ⟨hid, List.mem_cons_self⟩
      · exact .inl (List.mem_cons_of_mem _ h)
    · rw [if_neg hid]
      rcases List.mem_cons.mp h with rfl | h
      · exact .inl List.mem_cons_self
      · rcases ih h with h | ⟨hid', h⟩
        · exact .inl (List.mem_cons_of_mem _ h)
        · exact .inr ⟨hid', List.mem_cons_of_mem _ h⟩

/-- The first task with an identifier is changed. -/
theorem exists_mem_updateTask (h : t ∈ q.tasks) :
    ∃ u ∈ q.tasks, u.id = t.id ∧ f u ∈ (q.updateTask t.id f).tasks := by
  rw [Queue.updateTask]
  dsimp only
  generalize hid : t.id = id
  generalize q.tasks = ts at h
  induction ts with
  | nil => exact absurd h List.not_mem_nil
  | cons u ts ih =>
    rw [List.replaceF]
    by_cases hu : u.id = id
    · rw [if_pos hu]
      exact ⟨u, List.mem_cons_self, hu, List.mem_cons_self⟩
    · rw [if_neg hu]
      rcases List.mem_cons.mp h with rfl | h
      · exact absurd hid hu
      · obtain ⟨v, hv, hvid, hmem⟩ := ih h
        exact ⟨v, List.mem_cons_of_mem _ hv, hvid, List.mem_cons_of_mem _ hmem⟩

/-- No task is taken up again, and what runs goes on. -/
structure Tamer (ts ts' : List (Task ν)) : Prop where
  unfinished : ∀ t' ∈ ts', t'.finished = false → ∃ t ∈ ts, t.finished = false
  running : ∀ t ∈ ts, t.state = .running → ∃ t' ∈ ts', t'.id = t.id ∧ t'.state = .running

theorem Tamer.of_mem_iff {ts ts' : List (Task ν)} (h : ∀ t, t ∈ ts' ↔ t ∈ ts) : Tamer ts ts' :=
  ⟨fun t' ht hf ↦ ⟨t', (h t').mp ht, hf⟩, fun t ht hrun ↦ ⟨t, (h t).mpr ht, rfl, hrun⟩⟩

theorem tamer_updateTask (hid : ∀ t, (f t).id = t.id)
    (hfin : ∀ t, (f t).finished = false → t.finished = false)
    (hrun : ∀ t, t.state = .running → (f t).state = .running) :
    Tamer q.tasks (q.updateTask id f).tasks := by
  constructor
  · intro t' ht hf
    rcases mem_of_mem_updateTask ht with ht | ⟨u, hu, -, rfl⟩
    · exact ⟨t', ht, hf⟩
    · exact ⟨u, hu, hfin u hf⟩
  · intro t ht hstate
    rcases @mem_updateTask _ _ _ id f ht with ht | ⟨-, ht⟩
    · exact ⟨t, ht, rfl, hstate⟩
    · exact ⟨f t, ht, hid t, hrun t hstate⟩

theorem tamer_cancel (id : ℕ) (q : Queue ν) : Tamer q.tasks (cancel id q).tasks := by
  refine tamer_updateTask (fun t ↦ ?_) (fun t ht ↦ ?_) fun t ht ↦ ?_
  · rcases t.state with _ | _ | _ | _ | _ <;> rfl
  · rcases hstate : t.state with _ | _ | _ | _ | _
    all_goals
      rw [hstate] at ht
      simp_all [Task.finished]
  · rw [ht]

theorem tamer_clearFinished (q : Queue ν) : Tamer q.tasks (clearFinished q).tasks := by
  constructor
  · exact fun t ht hf ↦ ⟨t, List.mem_of_mem_filter ht, hf⟩
  · intro t ht hrun
    refine ⟨t, List.mem_filter.mpr ⟨ht, ?_⟩, rfl, hrun⟩
    simp [Task.finished, hrun]

theorem perm_reorder (id : ℕ) (delta : ℤ) (q : Queue ν) : (reorder id delta q).tasks.Perm q.tasks := by
  rw [reorder]
  split
  · exact .refl _
  · next i _ =>
    dsimp only
    split
    · next a b ha hb =>
      split_ifs
      · exact .refl _
      · obtain ⟨hi, rfl⟩ := List.getElem?_eq_some_iff.mp ha
        obtain ⟨hj, rfl⟩ := List.getElem?_eq_some_iff.mp hb
        exact List.set_set_perm hi hj
    · exact .refl _

/-! ## Who owns the tree, and when the latch is set -/

/-- The main thread is in the loop of a drain, or just after it. -/
def Main.attaching : Main ν → Bool
  | .draining _ | .holding .. | .ticking => true
  | _ => false

/-- The invariant of the latch and of the tree. -/
structure Guarded (q : Queue ν) : Prop where
  ended : q.batchEnded = true → q.pending = false
  working : ∀ job, q.worker = some job → ∃ t ∈ q.tasks, t.id = job.taskId ∧ t.state = .running
  held : ∀ r n, q.main = .holding r n → q.batchEnded = false
  owned : q.main.attaching = true → q.save = .none

theorem guarded_beginSession (directory : Bool) : Guarded (beginSession ν directory) :=
  ⟨fun _ ↦ rfl, nofun, nofun, fun h ↦ absurd h Bool.false_ne_true⟩

theorem pending_of_running (ht : t ∈ q.tasks) (hrun : t.state = .running) : q.pending = true := by
  rw [Queue.pending, Bool.or_eq_true, List.any_eq_true]
  exact .inr ⟨t, ht, by simp [Task.finished, hrun]⟩

theorem Guarded.open_of_pending (h : Guarded q) (hp : q.pending = true) : q.batchEnded = false := by
  by_contra hne
  exact Bool.false_ne_true ((h.ended (Bool.eq_true_of_not_eq_false hne)).symm.trans hp)

theorem Guarded.open_of_worker (h : Guarded q) {job : Job ν} (hw : q.worker = some job) :
    q.batchEnded = false := by
  obtain ⟨t, ht, -, hrun⟩ := h.working job hw
  exact h.open_of_pending (pending_of_running ht hrun)

/-- Other tasks, with the rest as it is. -/
theorem Guarded.setTasks (h : Guarded q) {ts : List (Task ν)} (hts : Tamer q.tasks ts) :
    Guarded { q with tasks := ts } := by
  refine ⟨fun hended ↦ ?_, fun job hw ↦ ?_, h.held, h.owned⟩
  · have hpending := h.ended hended
    rw [Queue.pending, Bool.or_eq_false_iff, List.any_eq_false] at hpending ⊢
    refine ⟨hpending.1, fun t' ht' hunfinished ↦ ?_⟩
    obtain ⟨t, ht, hf⟩ := hts.unfinished t' ht' (by simpa using hunfinished)
    exact hpending.2 t ht (by simp [hf])
  · obtain ⟨t, ht, hid, hrun⟩ := h.working job hw
    obtain ⟨t', ht', hid', hrun'⟩ := hts.running t ht hrun
    exact ⟨t', ht', hid'.trans hid, hrun'⟩

/-! ## Every step keeps the invariant -/

theorem of_whenFree {next : Queue ν} (h : whenFree q next = some q') :
    q.main = .free ∧ next = q' := by
  rw [whenFree] at h
  rcases hmain : q.main with _ | _ | _ | _ | _ | _
  all_goals
    rw [hmain] at h
    simp at h
  exact ⟨rfl, h⟩

theorem Guarded.enqueue (h : Guarded q) (work : Work ν) : Guarded (enqueue work q) := by
  refine ⟨fun he ↦ absurd he Bool.false_ne_true, fun job hw ↦ ?_, fun _ _ _ ↦ rfl, h.owned⟩
  obtain ⟨t, ht, hrun⟩ := h.working job hw
  exact ⟨t, List.mem_append_left _ ht, hrun⟩

theorem reorder_eq (id : ℕ) (delta : ℤ) (q : Queue ν) :
    reorder id delta q = { q with tasks := (reorder id delta q).tasks } := by
  rw [reorder]
  split
  · rfl
  · dsimp only
    split
    · split_ifs <;> rfl
    · rfl

theorem Guarded.reorder (h : Guarded q) (id : ℕ) (delta : ℤ) : Guarded (reorder id delta q) := by
  rw [reorder_eq]
  exact h.setTasks (Tamer.of_mem_iff fun t ↦ (perm_reorder id delta q).mem_iff (a := t))

theorem pending_of_unfinished (ht : t ∈ q.tasks) (hf : t.finished = false) : q.pending = true := by
  rw [Queue.pending, Bool.or_eq_true, List.any_eq_true]
  exact .inr ⟨t, ht, by rw [hf]; rfl⟩

theorem Guarded.take (h : Guarded q) (hstep : take q = some q') : Guarded q' := by
  rw [ImportQueue.take] at hstep
  split_ifs at hstep
  obtain ⟨t, hfind, hq⟩ := Option.bind_eq_some_iff.mp hstep
  obtain rfl := Option.some.inj hq
  have ht := List.mem_of_find?_eq_some hfind
  have hunfinished : t.finished = false := by
    have := List.find?_some hfind
    rw [Bool.or_eq_true, decide_eq_true_eq, decide_eq_true_eq] at this
    rcases this with h | h <;> simp [Task.finished, h]
  have hopen := h.open_of_pending (pending_of_unfinished ht hunfinished)
  refine ⟨fun he ↦ absurd (hopen.symm.trans he) Bool.false_ne_true, ?_, h.held, h.owned⟩
  rintro job hw
  obtain rfl := Option.some.inj hw
  obtain ⟨u, -, hid, hmem⟩ := exists_mem_updateTask
    (f := fun t : Task ν ↦ { t with state := .running }) ht
  exact ⟨_, hmem, hid, rfl⟩

theorem Guarded.post (h : Guarded q) (hstep : post q = some q') : Guarded q' := by
  obtain ⟨job, hjob, hstep⟩ := Option.bind_eq_some_iff.mp hstep
  obtain ⟨t, -, hstep⟩ := Option.bind_eq_some_iff.mp hstep
  have hopen := h.open_of_worker hjob
  rcases hposts : job.posts with _ | ⟨p, posts⟩
  all_goals rw [hposts] at hstep
  · cases hstep
  · dsimp only at hstep
    split_ifs at hstep
    obtain rfl := Option.some.inj hstep
    refine ⟨fun he ↦ absurd (hopen.symm.trans he) Bool.false_ne_true, ?_, h.held, h.owned⟩
    rintro job' hw
    obtain rfl := Option.some.inj hw
    exact h.working job hjob

theorem Guarded.finish {skipped : ℕ} {failed : Bool} (h : Guarded q)
    (hstep : finish skipped failed q = some q') : Guarded q' := by
  obtain ⟨job, hjob, hstep⟩ := Option.bind_eq_some_iff.mp hstep
  obtain ⟨t, -, hstep⟩ := Option.bind_eq_some_iff.mp hstep
  have hopen := h.open_of_worker hjob
  split_ifs at hstep
  obtain rfl := Option.some.inj hstep
  exact ⟨fun he ↦ absurd (hopen.symm.trans he) Bool.false_ne_true, nofun, h.held, h.owned⟩

/-- The fields that the invariant reads are as before, and the main thread is not in a drain. -/
theorem Guarded.congr (h : Guarded q) (hended : q'.batchEnded = q.batchEnded)
    (htasks : q'.tasks = q.tasks) (hrecords : q'.records = q.records)
    (hworker : q'.worker = q.worker) (hmain : q'.main.attaching = true → q'.save = .none)
    (hheld : ∀ r n, q'.main = .holding r n → q'.batchEnded = false) : Guarded q' := by
  refine ⟨fun he ↦ ?_, fun job hw ↦ ?_, hheld, hmain⟩
  · rw [Queue.pending, htasks, hrecords]
    exact h.ended (hended ▸ he)
  · rw [htasks]
    exact h.working job (hworker ▸ hw)

theorem pollSave_fields (q : Queue ν) : (pollSave q).batchEnded = q.batchEnded ∧
    (pollSave q).tasks = q.tasks ∧ (pollSave q).records = q.records ∧
    (pollSave q).worker = q.worker ∧ (pollSave q).main = q.main ∧
    (pollSave q).drained = q.drained ∧ (pollSave q).snapshots = q.snapshots ∧
    (pollSave q).lastDrain = q.lastDrain := by
  rw [pollSave]
  split <;> exact ⟨rfl, rfl, rfl, rfl, rfl, rfl, rfl, rfl⟩

theorem requestSave_fields (launched : Bool) (q : Queue ν) :
    (requestSave launched q).batchEnded = q.batchEnded ∧
    (requestSave launched q).tasks = q.tasks ∧ (requestSave launched q).records = q.records ∧
    (requestSave launched q).worker = q.worker ∧ (requestSave launched q).main = q.main ∧
    (requestSave launched q).drained = q.drained ∧
    (requestSave launched q).lastDrain = q.lastDrain := by
  rw [requestSave]
  split_ifs <;> exact ⟨rfl, rfl, rfl, rfl, rfl, rfl, rfl⟩

theorem countAttached_fields (id : ℕ) (result : VaultResult) (q : Queue ν) :
    (countAttached id result q).batchEnded = q.batchEnded ∧
    Tamer q.tasks (countAttached id result q).tasks ∧
    (countAttached id result q).records = q.records ∧
    (countAttached id result q).worker = q.worker ∧ (countAttached id result q).main = q.main ∧
    (countAttached id result q).save = q.save := by
  have hkeep (f : Task ν → Task ν) (hid : ∀ t, (f t).id = t.id) (hf : ∀ t, (f t).state = t.state)
      (p : Queue ν) : Tamer p.tasks (p.updateTask id f).tasks :=
    tamer_updateTask hid (fun t ht ↦ by rwa [Task.finished, hf] at ht) fun t ht ↦ (hf t).trans ht
  rw [countAttached]
  split_ifs
  · exact ⟨rfl, hkeep (fun t ↦ { t with skipped := t.skipped + 1 }) (fun _ ↦ rfl) (fun _ ↦ rfl) q,
      rfl, rfl, rfl, rfl⟩
  · exact ⟨rfl, hkeep (fun t ↦ { t with imported := t.imported + 1 }) (fun _ ↦ rfl) (fun _ ↦ rfl) q,
      rfl, rfl, rfl, rfl⟩
  · exact ⟨rfl, Tamer.of_mem_iff fun _ ↦ Iff.rfl, rfl, rfl, rfl, rfl⟩

theorem Guarded.drain (h : Guarded q) (hmain : q.main = .free) : Guarded (drain q) := by
  obtain ⟨hended, htasks, hrecords, hworker, hsame, -⟩ := pollSave_fields q
  rw [ImportQueue.drain]
  split_ifs with haway
  · refine h.congr hended htasks hrecords hworker (fun hatt ↦ ?_) fun r n hheld ↦ ?_
    · change (pollSave q).main.attaching = true at hatt
      rw [hsame, hmain] at hatt
      exact absurd hatt Bool.false_ne_true
    · change (pollSave q).main = _ at hheld
      rw [hsame, hmain] at hheld
      cases hheld
  · rw [Bool.or_eq_true, Bool.or_eq_true, not_or, not_or, decide_eq_true_eq, not_not] at haway
    exact h.congr hended htasks hrecords hworker (fun _ ↦ haway.1.1) nofun

/-- Outside of a drain only the latch, the tasks, the records and the worker matter. -/
theorem Guarded.turn {timeOver : Bool} (h : Guarded q) (hstep : turn timeOver q = some q') :
    Guarded q' := by
  rw [ImportQueue.turn] at hstep
  rcases hmain : q.main with _ | n | _ | _ | _ | _
  all_goals
    rw [hmain] at hstep
    simp only [reduceCtorEq] at hstep
  have hsave := h.owned (by rw [hmain]; rfl)
  split_ifs at hstep
  · obtain rfl := Option.some.inj hstep
    exact h.congr rfl rfl rfl rfl (fun _ ↦ hsave) nofun
  · rcases hrecords : q.records with _ | ⟨r, records⟩
    all_goals
      rw [hrecords] at hstep
      obtain rfl := Option.some.inj hstep
    · exact h.congr rfl rfl hrecords.symm rfl (fun _ ↦ hsave) nofun
    · -- there is a record, so the latch is not set
      have hopen := h.open_of_pending (by rw [Queue.pending, hrecords]; rfl)
      exact ⟨fun he ↦ absurd (hopen.symm.trans he) Bool.false_ne_true, h.working,
        fun _ _ _ ↦ hopen, fun _ ↦ hsave⟩

/-- What applying a record comes to. -/
theorem apply_cases {result : VaultResult} (hstep : apply result q = some q') :
    ∃ r n, q.main = .holding r n ∧
      ((∃ pendingTags, q' = { q with
          main := .draining (n + 1), pendingTags, drained := q.drained ++ [⟨r, none⟩] }) ∧
          (r.tag ≠ [] ∨ r.node = none) ∨
        r.tag = [] ∧ r.node ≠ none ∧ q' = countAttached r.taskId result
          { q with main := .draining (n + 1), drained := q.drained ++ [⟨r, some result⟩] }) := by
  rw [apply] at hstep
  rcases hmain : q.main with _ | _ | ⟨r, n⟩ | _ | _ | _
  all_goals
    rw [hmain] at hstep
    simp only [reduceCtorEq] at hstep
  refine ⟨r, n, rfl, ?_⟩
  split_ifs at hstep with htag hnode
  · exact .inl ⟨⟨_, (Option.some.inj hstep).symm⟩, .inl (by simpa using htag)⟩
  · exact .inr ⟨by simpa using htag, Option.ne_none_iff_isSome.mpr hnode,
      (Option.some.inj hstep).symm⟩
  · exact .inl ⟨⟨q.pendingTags, (Option.some.inj hstep).symm⟩, .inr (by simpa using hnode)⟩

theorem Guarded.apply {result : VaultResult} (h : Guarded q) (hstep : apply result q = some q') :
    Guarded q' := by
  obtain ⟨r, n, hmain, hcase⟩ := apply_cases hstep
  have hsave := h.owned (by rw [hmain]; rfl)
  rcases hcase with ⟨⟨tags, rfl⟩, -⟩ | ⟨-, -, rfl⟩
  · exact h.congr rfl rfl rfl rfl (fun _ ↦ hsave) nofun
  · set p : Queue ν :=
      { q with main := .draining (n + 1), drained := q.drained ++ [⟨r, some result⟩] }
    have hp : Guarded p := h.congr rfl rfl rfl rfl (fun _ ↦ hsave) nofun
    obtain ⟨hended, htamer, hrecords, hworker, hmain', hsave'⟩ :=
      countAttached_fields r.taskId result p
    refine (hp.setTasks htamer).congr hended rfl hrecords hworker (fun _ ↦ hsave'.trans hsave) ?_
    intro r' n' hheld
    rw [hmain'] at hheld
    cases hheld

theorem Guarded.requestSave (h : Guarded q) (launched : Bool) (hmain : q.main.attaching = false) :
    Guarded (requestSave launched q) := by
  obtain ⟨hended, htasks, hrecords, hworker, hsame, -⟩ := requestSave_fields launched q
  refine h.congr hended htasks hrecords hworker (fun hatt ↦ ?_) fun r n hheld ↦ ?_
  · rw [hsame, hmain] at hatt
    exact absurd hatt Bool.false_ne_true
  · rw [hsame] at hheld
    rw [hheld] at hmain
    exact absurd hmain Bool.true_eq_false.mp

theorem Guarded.tick {dt : ℚ} {launched : Bool} (h : Guarded q)
    (hstep : tick dt launched q = some q') : Guarded q' := by
  rw [ImportQueue.tick] at hstep
  split_ifs at hstep
  set p : Queue ν := { q with policy := q.policy.tick dt, main := .ending }
  have hp : Guarded p := h.congr rfl rfl rfl rfl nofun nofun
  obtain rfl := Option.some.inj hstep
  split_ifs
  · have hr := hp.requestSave launched rfl
    exact hr.congr rfl rfl rfl rfl hr.owned hr.held
  · exact hp

theorem Guarded.endBatch (h : Guarded q) (hstep : endBatch q = some q') : Guarded q' := by
  rw [ImportQueue.endBatch] at hstep
  split_ifs at hstep with hmain hpending hended
  all_goals obtain rfl := Option.some.inj hstep
  · exact ⟨fun he ↦ absurd he Bool.false_ne_true, h.working, nofun, nofun⟩
  · exact h.congr rfl rfl rfl rfl nofun nofun
  · exact ⟨fun _ ↦ Bool.eq_false_of_not_eq_true hpending, h.working, nofun, nofun⟩

theorem Guarded.closeBatch {launched : Bool} (h : Guarded q)
    (hstep : closeBatch launched q = some q') : Guarded q' := by
  rw [ImportQueue.closeBatch] at hstep
  have hatt : q.main.attaching = false := by
    rcases hmain : q.main with _ | _ | _ | _ | _ | _
    all_goals
      rw [hmain] at hstep
      first | rfl | simp at hstep
  split_ifs at hstep
  all_goals obtain rfl := Option.some.inj hstep
  · have hr := h.requestSave launched hatt
    exact hr.congr rfl rfl rfl rfl nofun nofun
  · exact h.congr rfl rfl rfl rfl nofun nofun

/-- **Every step** keeps the latch and the tree guarded. -/
theorem guarded_step (h : Guarded q) (hstep : step q a = some q') : Guarded q' := by
  rcases a with work | id | ⟨id, delta⟩ | _ | exclusively | _ | _ | _ | ⟨skipped, failed⟩ | ok | _ |
    _ | timeOver | result | ⟨dt, launched⟩ | _ | launched
  · exact Option.some.inj hstep ▸ h.enqueue work
  · obtain ⟨-, rfl⟩ := of_whenFree hstep
    exact h.setTasks (tamer_cancel id q)
  · obtain ⟨-, rfl⟩ := of_whenFree hstep
    exact h.reorder id delta
  · obtain ⟨-, rfl⟩ := of_whenFree hstep
    exact h.setTasks (tamer_clearFinished q)
  · obtain ⟨-, rfl⟩ := of_whenFree hstep
    exact ⟨h.ended, h.working, h.held, h.owned⟩
  · obtain ⟨hmain, rfl⟩ := of_whenFree hstep
    obtain ⟨hended, htasks, hrecords, hworker, hsame, -⟩ := pollSave_fields q
    refine h.congr hended htasks hrecords hworker (fun hatt ↦ ?_) fun r n hheld ↦ ?_
    · rw [hsame, hmain] at hatt
      exact absurd hatt Bool.false_ne_true
    · rw [hsame, hmain] at hheld
      cases hheld
  · exact h.take hstep
  · exact h.post hstep
  · exact h.finish hstep
  · rw [step] at hstep
    split_ifs at hstep with hsave
    obtain rfl := Option.some.inj hstep
    refine h.congr rfl rfl rfl rfl (fun hatt ↦ ?_) h.held
    exact absurd ((h.owned hatt).symm.trans hsave) nofun
  · obtain rfl := Option.some.inj hstep
    exact ⟨h.ended, h.working, h.held, h.owned⟩
  · obtain ⟨hmain, rfl⟩ := of_whenFree hstep
    exact h.drain hmain
  · exact h.turn hstep
  · exact h.apply hstep
  · exact h.tick hstep
  · exact h.endBatch hstep
  · exact h.closeBatch hstep

/-! ## What is covered -/

/-- Everything that was drained is in a snapshot that was asked for afterwards. -/
def Covered (q : Queue ν) : Prop := ∀ e ∈ q.drained, ∃ s ∈ q.snapshots, e ∈ s

instance [DecidableEq ν] (q : Queue ν) : Decidable (Covered q) :=
  inferInstanceAs (Decidable (∀ e ∈ q.drained, ∃ s ∈ q.snapshots, e ∈ s))

/-- No save fails, and none fails to start. -/
def Action.NoFailure : Action ν → Prop
  | .saveEnds succeeded => succeeded = true
  | .laneFails => False
  | .tick _ launched => launched = true
  | .closeBatch launched => launched = true
  | _ => True

/-- The invariant of the saves, while none fails. -/
structure Saved (q : Queue ν) : Prop where
  lane : q.laneFailed = false
  succeeded : q.save ≠ .done false
  saving : q.save ≠ .none → Covered q
  latched : q.batchEnded = true → q.main ≠ .closing → Covered q
  idle : q.main = .free → q.lastDrain = some .idle → Covered q

theorem saved_beginSession (directory : Bool) : Saved (beginSession ν directory) := by
  have hcovered : Covered (beginSession ν directory) := fun _ h ↦ absurd h List.not_mem_nil
  exact ⟨rfl, nofun, fun _ ↦ hcovered, fun _ _ ↦ hcovered, fun _ _ ↦ hcovered⟩

/-- The fields that the invariant reads are as before. -/
theorem Saved.congr (h : Saved q) (hdrained : q'.drained = q.drained)
    (hsnapshots : q'.snapshots = q.snapshots) (hsave : q'.save = q.save)
    (hlane : q'.laneFailed = q.laneFailed) (hended : q'.batchEnded = true → q.batchEnded = true)
    (hmain : q'.main = q.main) (hlast : q'.lastDrain = q.lastDrain) : Saved q' := by
  have hcovered (hc : Covered q) : Covered q' := by
    rw [Covered, hdrained, hsnapshots]
    exact hc
  exact ⟨hlane.trans h.lane, hsave ▸ h.succeeded, fun hs ↦ hcovered (h.saving (hsave ▸ hs)),
    fun he hm ↦ hcovered (h.latched (hended he) (hmain ▸ hm)),
    fun hm hl ↦ hcovered (h.idle (hmain ▸ hm) (hlast ▸ hl))⟩

/-- **Asking for a save** covers what was drained, unless one is running already. -/
theorem Saved.requestSave (h : Saved q) :
    Covered (requestSave true q) ∧ (requestSave true q).laneFailed = false ∧
      (requestSave true q).save ≠ .done false := by
  have hall (snapshots : List (List (Drained ν))) : ∀ e ∈ q.drained,
      ∃ s ∈ snapshots ++ [q.drained], e ∈ s :=
    fun e he ↦ ⟨q.drained, List.mem_append_right _ (List.mem_singleton_self _), he⟩
  rw [ImportQueue.requestSave]
  split_ifs with hbusy
  · rw [Bool.or_eq_true, decide_eq_true_eq, h.lane] at hbusy
    have hsave := hbusy.resolve_right Bool.false_ne_true
    exact ⟨h.saving hsave, h.lane, h.succeeded⟩
  · exact ⟨hall _, h.lane, h.succeeded⟩
  · exact ⟨hall _, h.lane, nofun⟩
  · exact absurd rfl ‹_›

theorem Saved.pollSave (h : Saved q) : Saved (pollSave q) := by
  rw [ImportQueue.pollSave]
  split
  · next succeeded hsave =>
    have hsucceeded : succeeded = true := by
      by_contra hne
      exact h.succeeded (by rw [hsave, Bool.eq_false_of_not_eq_true hne])
    subst hsucceeded
    have hlane := h.lane
    rw [Queue.laneFailed, Bool.or_eq_false_iff] at hlane
    refine ⟨?_, nofun, fun hs ↦ absurd rfl hs, h.latched, h.idle⟩
    rw [Queue.laneFailed, hlane.2]
    rfl
  · exact h

theorem Saved.drain (h : Saved q) (hmain : q.main = .free) : Saved (drain q) := by
  have hp := h.pollSave
  obtain ⟨-, -, -, -, hsame, -⟩ := pollSave_fields q
  rw [ImportQueue.drain]
  split_ifs
  · exact ⟨hp.lane, hp.succeeded, hp.saving, hp.latched, nofun⟩
  · refine ⟨hp.lane, hp.succeeded, hp.saving, fun he _ ↦ hp.latched he ?_, nofun⟩
    rw [hsame, hmain]
    exact nofun

theorem Saved.turn {timeOver : Bool} (h : Saved q) (hstep : turn timeOver q = some q') :
    Saved q' := by
  rw [ImportQueue.turn] at hstep
  rcases hmain : q.main with _ | n | _ | _ | _ | _
  all_goals
    rw [hmain] at hstep
    simp only [reduceCtorEq] at hstep
  have hlatched (he : q.batchEnded = true) : Covered q := h.latched he (by rw [hmain]; exact nofun)
  split_ifs at hstep
  · obtain rfl := Option.some.inj hstep
    exact ⟨h.lane, h.succeeded, h.saving, fun he _ ↦ hlatched he, nofun⟩
  · rcases hrecords : q.records with _ | ⟨r, records⟩
    all_goals
      rw [hrecords] at hstep
      obtain rfl := Option.some.inj hstep
    · exact ⟨h.lane, h.succeeded, h.saving, fun he _ ↦ hlatched he, nofun⟩
    · exact ⟨h.lane, h.succeeded, h.saving, fun he _ ↦ hlatched he, nofun⟩

/-- Nothing is covered by the latch or by a save while a record is applied. -/
theorem Saved.apply {result : VaultResult} (hg : Guarded q) (h : Saved q)
    (hstep : apply result q = some q') : Saved q' := by
  obtain ⟨r, n, hmain, hcase⟩ := apply_cases hstep
  have hsave := hg.owned (by rw [hmain]; rfl)
  have hopen := hg.held r n hmain
  rcases hcase with ⟨⟨tags, rfl⟩, -⟩ | ⟨-, -, rfl⟩
  · exact ⟨h.lane, h.succeeded, fun hs ↦ absurd hsave hs,
      fun he ↦ absurd (hopen.symm.trans he) Bool.false_ne_true, nofun⟩
  · have hlane : ∀ p : Queue ν, (countAttached r.taskId result p).laneFailed = p.laneFailed := by
      intro p
      rw [countAttached]
      split_ifs <;> rfl
    obtain ⟨hended, -, -, -, hmain', hsave'⟩ := countAttached_fields r.taskId result
      { q with main := .draining (n + 1), drained := q.drained ++ [⟨r, some result⟩] }
    refine ⟨(hlane _).trans h.lane, ?_, fun hs ↦ ?_, fun he ↦ ?_, fun hm ↦ ?_⟩
    · rw [hsave']
      exact h.succeeded
    · rw [hsave'] at hs
      exact absurd hsave hs
    · rw [hended] at he
      exact absurd (hopen.symm.trans he) Bool.false_ne_true
    · rw [hmain'] at hm
      cases hm

theorem Saved.tick {dt : ℚ} (h : Saved q) (hstep : tick dt true q = some q') : Saved q' := by
  rw [ImportQueue.tick] at hstep
  rcases hmain : q.main with _ | _ | _ | _ | _ | _
  all_goals
    rw [hmain] at hstep
    simp only [reduceCtorEq, if_true, if_false] at hstep
  have hlatched (he : q.batchEnded = true) : Covered q := h.latched he (by rw [hmain]; exact nofun)
  set p : Queue ν := { q with policy := q.policy.tick dt, main := .ending }
  have hp : Saved p := ⟨h.lane, h.succeeded, h.saving, fun he _ ↦ hlatched he, nofun⟩
  obtain rfl := Option.some.inj hstep
  split_ifs
  · obtain ⟨hcovered, hlane, hsucceeded⟩ := hp.requestSave
    exact ⟨hlane, hsucceeded, fun _ ↦ hcovered, fun _ _ ↦ hcovered, fun _ _ ↦ hcovered⟩
  · exact hp

theorem Saved.endBatch (h : Saved q) (hstep : endBatch q = some q') : Saved q' := by
  rw [ImportQueue.endBatch] at hstep
  rcases hmain : q.main with _ | _ | _ | _ | _ | _
  all_goals
    rw [hmain] at hstep
    simp only [reduceCtorEq, if_true, if_false] at hstep
  split_ifs at hstep with hpending hended
  all_goals obtain rfl := Option.some.inj hstep
  · exact ⟨h.lane, h.succeeded, h.saving, fun he ↦ absurd he Bool.false_ne_true, nofun⟩
  · have hcovered := h.latched hended (by rw [hmain]; exact nofun)
    exact ⟨h.lane, h.succeeded, h.saving, fun _ _ ↦ hcovered, fun _ _ ↦ hcovered⟩
  · exact ⟨h.lane, h.succeeded, h.saving, fun _ hm ↦ absurd rfl hm, nofun⟩

/-- **The last save of a batch.** -/
theorem Saved.closeBatch (h : Saved q) (hstep : closeBatch true q = some q') : Saved q' := by
  rw [ImportQueue.closeBatch] at hstep
  split_ifs at hstep with hmain hsave
  all_goals obtain rfl := Option.some.inj hstep
  · obtain ⟨hcovered, hlane, hsucceeded⟩ := h.requestSave
    exact ⟨hlane, hsucceeded, fun _ ↦ hcovered, fun _ _ ↦ hcovered, fun _ _ ↦ hcovered⟩
  · have hcovered := h.saving hsave
    exact ⟨h.lane, h.succeeded, fun _ ↦ hcovered, fun _ _ ↦ hcovered, fun _ _ ↦ hcovered⟩

/-- **Every step** that is not a failure keeps what is known of the saves. -/
theorem saved_step (hg : Guarded q) (h : Saved q) (ha : a.NoFailure) (hstep : step q a = some q') :
    Saved q' := by
  rcases a with work | id | ⟨id, delta⟩ | _ | exclusively | _ | _ | _ | ⟨skipped, failed⟩ | ok | _ |
    _ | timeOver | result | ⟨dt, launched⟩ | _ | launched
  · obtain rfl := Option.some.inj hstep
    exact h.congr rfl rfl rfl rfl (fun he ↦ absurd he Bool.false_ne_true) rfl rfl
  · obtain ⟨-, rfl⟩ := of_whenFree hstep
    exact h.congr rfl rfl rfl rfl (fun he ↦ he) rfl rfl
  · obtain ⟨-, rfl⟩ := of_whenFree hstep
    rw [reorder]
    split
    · exact h
    · dsimp only
      split
      · split_ifs
        · exact h
        · exact h.congr rfl rfl rfl rfl (fun he ↦ he) rfl rfl
      · exact h
  · obtain ⟨-, rfl⟩ := of_whenFree hstep
    exact h.congr rfl rfl rfl rfl (fun he ↦ he) rfl rfl
  · obtain ⟨-, rfl⟩ := of_whenFree hstep
    exact h.congr rfl rfl rfl rfl (fun he ↦ he) rfl rfl
  · obtain ⟨-, rfl⟩ := of_whenFree hstep
    exact h.pollSave
  · rw [step, take] at hstep
    split_ifs at hstep
    obtain ⟨t, -, hq⟩ := Option.bind_eq_some_iff.mp hstep
    obtain rfl := Option.some.inj hq
    exact h.congr rfl rfl rfl rfl (fun he ↦ he) rfl rfl
  · obtain ⟨job, hjob, hstep⟩ := Option.bind_eq_some_iff.mp hstep
    obtain ⟨t, -, hstep⟩ := Option.bind_eq_some_iff.mp hstep
    rcases hposts : job.posts with _ | ⟨p, posts⟩
    all_goals rw [hposts] at hstep
    · cases hstep
    · dsimp only at hstep
      split_ifs at hstep
      obtain rfl := Option.some.inj hstep
      exact h.congr rfl rfl rfl rfl (fun he ↦ he) rfl rfl
  · obtain ⟨job, -, hstep⟩ := Option.bind_eq_some_iff.mp hstep
    obtain ⟨t, -, hstep⟩ := Option.bind_eq_some_iff.mp hstep
    split_ifs at hstep
    obtain rfl := Option.some.inj hstep
    exact h.congr rfl rfl rfl rfl (fun he ↦ he) rfl rfl
  · rw [step] at hstep
    split_ifs at hstep with hsave
    obtain rfl := Option.some.inj hstep
    obtain rfl : ok = true := ha
    exact ⟨h.lane, nofun, fun _ ↦ h.saving (by rw [hsave]; exact nofun), h.latched, h.idle⟩
  · exact absurd ha not_false
  · obtain ⟨hmain, rfl⟩ := of_whenFree hstep
    exact h.drain hmain
  · exact h.turn hstep
  · exact h.apply hg hstep
  · obtain rfl : launched = true := ha
    exact h.tick hstep
  · exact h.endBatch hstep
  · obtain rfl : launched = true := ha
    exact h.closeBatch hstep

/-! ## Runs -/

instance (a : Action ν) : Decidable a.NoFailure := by
  cases a <;> (unfold Action.NoFailure; infer_instance)

/-- **What the saves cover.** No record is applied while a save owns the tree. If no save fails, then
after a drain that looked at the queue and found it idle every record drained so far is in a snapshot
that was asked for afterwards. -/
theorem saves_cover (directory : Bool) (as : List (Action ν))
    (hrun : Run.run step (beginSession ν directory) as = some q) :
    (∀ result, (apply result q).isSome → q.save = .none) ∧
      ((∀ a ∈ as, a.NoFailure) → q.main = .free → q.lastDrain = some .idle → Covered q) := by
  constructor
  · intro result hsome
    have hg : Guarded q := Run.invariant (C := fun _ _ ↦ True)
      (fun h _ hstep ↦ guarded_step h hstep) (guarded_beginSession directory)
      (Run.meets_of_forall fun _ _ ↦ trivial) hrun
    obtain ⟨q', hq'⟩ := Option.isSome_iff_exists.mp hsome
    obtain ⟨r, n, hmain, -⟩ := apply_cases hq'
    exact hg.owned (by rw [hmain]; rfl)
  · intro hfine
    have hboth : Guarded q ∧ Saved q := Run.invariant (C := fun _ a ↦ a.NoFailure)
      (I := fun q ↦ Guarded q ∧ Saved q)
      (fun h ha hstep ↦ ⟨guarded_step h.1 hstep, saved_step h.1 h.2 ha hstep⟩)
      ⟨guarded_beginSession directory, saved_beginSession directory⟩
      (Run.meets_of_forall_mem hfine) hrun
    exact hboth.2.idle

/-- A task that posts one node, up to where a drain has applied it and found the task unfinished. -/
def oneNode : List (Action Unit) :=
  [.enqueue { posts := [{ galleryPath := [], node := some () }], attempted := 1 }, .take, .post,
    .drain, .turn false, .apply .ok, .turn false, .tick 0 true, .endBatch, .finish 0 false]

theorem saves_cover_oneNode :
    ∃ q, Run.run step (beginSession Unit true)
        (oneNode ++ [.drain, .turn false, .tick 0 true, .endBatch, .closeBatch true]) = some q ∧
      q.drained.length = 1 ∧ Covered q := by
  have hfacts : (Run.run step (beginSession Unit true)
      (oneNode ++ [.drain, .turn false, .tick 0 true, .endBatch, .closeBatch true])).any
        fun q ↦ q.drained.length = 1 ∧ q.main = .free ∧ q.lastDrain = some .idle := by
    decide +kernel
  obtain ⟨q, hq, hfacts⟩ := (Option.any_eq_true _ _).mp hfacts
  obtain ⟨hlength, hmain, hlast⟩ := of_decide_eq_true hfacts
  exact ⟨q, hq, hlength, (saves_cover true _ hq).2 (by decide +kernel) hmain hlast⟩

/-- How a drain ends: it is turned away, or it has looked at the queue. -/
def Action.endsDrain : Action ν → Bool
  | .drain | .endBatch | .closeBatch _ => true
  | _ => false

/-- A drain that is turned away can find nothing left to do, with a node that no save covers. -/
theorem not_covered_of_turnedAway :
    ¬ ∀ (as : List (Action Unit)) (a : Action Unit) (q : Queue Unit), a.endsDrain = true →
      Run.run step (beginSession Unit true) (as ++ [a]) = some q →
      (∀ b ∈ as ++ [a], b.NoFailure) → q.main = .free → q.pending = false → q.save = .none →
      Covered q := by
  intro h
  have hfacts : (Run.run step (beginSession Unit true)
      ((oneNode ++ [.setExclusive true]) ++ [.drain])).any
        fun q ↦ q.main = .free ∧ q.pending = false ∧ q.save = .none ∧ ¬ Covered q := by
    decide +kernel
  obtain ⟨q, hq, hfacts⟩ := (Option.any_eq_true _ _).mp hfacts
  obtain ⟨hmain, hpending, hsave, hnot⟩ := of_decide_eq_true hfacts
  exact hnot (h _ .drain q rfl hq (by decide +kernel) hmain hpending hsave)

end ImportQueue

end SafeVault
