import SafeVault.Import.QueueSaves
import SafeVault.Import.TaskWork

/-!
# What became of the files of an import

A record is posted once, taken once, and drained once; so what was drained of a task, what waits, and
what the worker has still to post make up the posts of the task, in their order. The counts of a task
follow: a drain counts a node as imported if it was attached, and as skipped if it was there already.

No other result is counted. So the counts of a task add up to the files attempted, with every node
attached or counted, just when attaching returned one of the two for every node, and the task itself was
counted.
-/

namespace SafeVault

namespace ImportQueue

variable {ν : Type} {q q' : Queue ν} {a : Action ν} {t : Task ν} {id : ℕ} {f : Task ν → Task ν}

/-! ## The account of a task -/

/-- The record between taking and applying it. -/
def Main.held : Main ν → List (StagedRecord ν)
  | .holding r _ => [r]
  | _ => []

namespace Queue

variable (q : Queue ν) (id : ℕ)

/-- What was drained of a task. -/
def drainedOf : List (Drained ν) := q.drained.filter (·.record.taskId = id)

/-- The records of a task that were not applied yet. -/
def waitingOf : List (StagedRecord ν) := (q.main.held ++ q.records).filter (·.taskId = id)

/-- Everything that was posted for a task. -/
def sent : List (Post ν) := (q.drainedOf id).map (·.record.toPost) ++ (q.waitingOf id).map (·.toPost)

/-- What the worker has still to post for a task, if it is at it. -/
def left : Option (List (Post ν)) :=
  q.worker.bind fun job ↦ if job.taskId = id then some job.posts else none

/-- How often attaching a node of a task returned a result. -/
def results (result : VaultResult) : ℕ := (q.drainedOf id).countP (·.result = some result)

end Queue

def Task.processed (t : Task ν) : Bool := t.state = .done || t.state = .failed

/-- The counts of a task, and its posts, agree with what was drained and sent. -/
structure Tallied (q : Queue ν) (t : Task ν) : Prop where
  imported : t.imported = q.results t.id .ok
  skipped : t.cancel = false →
    t.skipped = q.results t.id .alreadyExists + if t.processed then t.work.skipped else 0
  queued : t.state = .queued → q.sent t.id = []
  running : t.state = .running → ∃ posts, q.left t.id = some posts ∧
    (t.cancel = false → q.sent t.id ++ posts = t.work.posts)
  processed : t.processed = true → t.cancel = false → q.sent t.id = t.work.posts

/-- The invariant of the accounts. -/
structure Accounted (q : Queue ν) : Prop where
  nodup : (q.tasks.map Task.id).Nodup
  fresh : ∀ t ∈ q.tasks, t.id < q.nextTaskId
  unused : ∀ id, q.nextTaskId ≤ id → q.sent id = []
  attached : ∀ e ∈ q.drained, e.result.isSome = e.record.toPost.isNode
  tallied : ∀ t ∈ q.tasks, Tallied q t

theorem accounted_beginSession (directory : Bool) : Accounted (beginSession ν directory) :=
  ⟨List.nodup_nil, nofun, fun _ _ ↦ rfl, nofun, nofun⟩

/-! ## One task at a time -/

theorem tasks_updateTask (hids : (q.tasks.map Task.id).Nodup) :
    (q.updateTask id f).tasks = q.tasks.map fun t ↦ if t.id = id then f t else t := by
  rw [Queue.updateTask]
  dsimp only
  generalize q.tasks = ts at hids
  induction ts with
  | nil => rfl
  | cons u ts ih =>
    obtain ⟨hnotin, hids⟩ := List.nodup_cons.mp hids
    rw [List.replaceF, List.map_cons]
    by_cases hu : u.id = id
    · rw [if_pos hu, if_pos hu]
      have hrest : ∀ t ∈ ts, (if t.id = id then f t else t) = t := by
        intro t ht
        rw [if_neg]
        rintro hid
        exact hnotin (List.mem_map.mpr ⟨t, ht, hid.trans hu.symm⟩)
      rw [List.map_congr_left hrest, List.map_id']
    · rw [if_neg hu, if_neg hu]
      exact congrArg (u :: ·) (ih hids)

/-- Only the account of a task and the worker at it matter. -/
theorem Tallied.congr (h : Tallied q t) (hdrained : q'.drainedOf t.id = q.drainedOf t.id)
    (hsent : q'.sent t.id = q.sent t.id) (hleft : q'.left t.id = q.left t.id) : Tallied q' t := by
  have hresults (r : VaultResult) : q'.results t.id r = q.results t.id r := by
    rw [Queue.results, hdrained, Queue.results]
  refine ⟨?_, ?_, ?_, ?_, ?_⟩
  · rw [hresults]
    exact h.imported
  · rw [hresults]
    exact h.skipped
  · rw [hsent]
    exact h.queued
  · rw [hleft, hsent]
    exact h.running
  · rw [hsent]
    exact h.processed

/-- The fields that the invariant reads are as before. -/
theorem Accounted.congr (h : Accounted q) (htasks : q'.tasks = q.tasks)
    (hnext : q'.nextTaskId = q.nextTaskId) (hdrained : q'.drained = q.drained)
    (hwaiting : q'.main.held ++ q'.records = q.main.held ++ q.records)
    (hworker : q'.worker = q.worker) : Accounted q' := by
  have hof (id : ℕ) : q'.drainedOf id = q.drainedOf id := by
    rw [Queue.drainedOf, hdrained, Queue.drainedOf]
  have hsent (id : ℕ) : q'.sent id = q.sent id := by
    rw [Queue.sent, hof, Queue.waitingOf, hwaiting]
    rfl
  have hleft (id : ℕ) : q'.left id = q.left id := by rw [Queue.left, hworker, Queue.left]
  refine ⟨?_, ?_, fun id hid ↦ ?_, ?_, ?_⟩
  · rw [htasks]
    exact h.nodup
  · rw [htasks, hnext]
    exact h.fresh
  · rw [hsent]
    exact h.unused id (hnext ▸ hid)
  · rw [hdrained]
    exact h.attached
  · rw [htasks]
    exact fun t ht ↦ (h.tallied t ht).congr (hof _) (hsent _) (hleft _)

/-- **One task is changed**, with the account it has. -/
theorem Accounted.update (h : Accounted q) (htasks : q'.tasks = (q.updateTask id f).tasks)
    (hid : ∀ t, (f t).id = t.id) (hnext : q'.nextTaskId = q.nextTaskId)
    (hunused : ∀ id, q.nextTaskId ≤ id → q'.sent id = [])
    (hattached : ∀ e ∈ q'.drained, e.result.isSome = e.record.toPost.isNode)
    (hone : ∀ t ∈ q.tasks, t.id = id → Tallied q' (f t))
    (hother : ∀ t ∈ q.tasks, t.id ≠ id → Tallied q' t) : Accounted q' := by
  rw [tasks_updateTask h.nodup] at htasks
  have hids : ∀ t, (if t.id = id then f t else t).id = t.id := by
    intro t
    split_ifs
    · exact hid t
    · rfl
  refine ⟨?_, fun t' ht' ↦ ?_, fun j hj ↦ hunused j (hnext ▸ hj), hattached, fun t' ht' ↦ ?_⟩
  · rw [htasks, List.map_map, show (Task.id ∘ fun t ↦ if t.id = id then f t else t) = Task.id from
      funext hids]
    exact h.nodup
  · rw [htasks] at ht'
    obtain ⟨t, ht, rfl⟩ := List.mem_map.mp ht'
    rw [hids, hnext]
    exact h.fresh t ht
  · rw [htasks] at ht'
    obtain ⟨t, ht, rfl⟩ := List.mem_map.mp ht'
    by_cases hsame : t.id = id
    · rw [if_pos hsame]
      exact hone t ht hsame
    · rw [if_neg hsame]
      exact hother t ht hsame

/-- There is one task with an identifier. -/
theorem Accounted.eq_of_id (h : Accounted q) {u : Task ν} (ht : t ∈ q.tasks) (hu : u ∈ q.tasks)
    (hid : t.id = u.id) : t = u := List.inj_on_of_nodup_map h.nodup ht hu hid

/-! ## Every step keeps the accounts -/

theorem Accounted.enqueue (h : Accounted q) (work : Work ν) : Accounted (enqueue work q) := by
  have hnew := h.unused q.nextTaskId le_rfl
  have hnothing : q.drainedOf q.nextTaskId = [] := by
    rw [Queue.sent, List.append_eq_nil_iff] at hnew
    exact List.map_eq_nil_iff.mp hnew.1
  refine ⟨?_, fun t ht ↦ ?_, fun id hid ↦ h.unused id (Nat.le_of_succ_le hid), h.attached, fun t ht ↦ ?_⟩
  · rw [ImportQueue.enqueue, List.map_append, List.nodup_append]
    refine ⟨h.nodup, List.nodup_singleton _, ?_⟩
    rintro _ hold _ hnew rfl
    obtain ⟨t, ht, hid⟩ := List.mem_map.mp hold
    rw [List.map_singleton, List.mem_singleton] at hnew
    exact absurd (h.fresh t ht) (by rw [hid, hnew]; exact lt_irrefl _)
  · rcases List.mem_append.mp ht with ht | ht
    · exact Nat.lt_succ_of_lt (h.fresh t ht)
    · obtain rfl := List.mem_singleton.mp ht
      exact Nat.lt_succ_self _
  · rcases List.mem_append.mp ht with ht | ht
    · exact (h.tallied t ht).congr rfl rfl rfl
    · obtain rfl := List.mem_singleton.mp ht
      have hzero (r : VaultResult) : (ImportQueue.enqueue work q).results q.nextTaskId r = 0 := by
        change (q.drainedOf q.nextTaskId).countP _ = 0
        rw [hnothing]
        rfl
      exact ⟨(hzero _).symm, fun _ ↦ (hzero _).symm, fun _ ↦ hnew, nofun, nofun⟩

theorem Accounted.cancel (h : Accounted q) (id : ℕ) : Accounted (cancel id q) := by
  refine h.update rfl (fun t ↦ ?_) rfl h.unused h.attached (fun t ht _ ↦ ?_) fun t ht _ ↦
    (h.tallied t ht).congr rfl rfl rfl
  · rcases t.state with _ | _ | _ | _ | _ <;> rfl
  · have hsame : Tallied (ImportQueue.cancel id q) t := (h.tallied t ht).congr rfl rfl rfl
    rcases hstate : t.state with _ | _ | _ | _ | _
    all_goals dsimp only
    · exact ⟨hsame.imported, fun hc ↦ by simpa [Task.processed, hstate] using hsame.skipped hc,
        nofun, nofun, nofun⟩
    · refine ⟨hsame.imported, nofun, nofun, fun _ ↦ ?_, nofun⟩
      obtain ⟨posts, hposts, -⟩ := hsame.running hstate
      exact ⟨posts, hposts, nofun⟩
    · exact hsame
    · exact hsame
    · exact hsame

theorem Accounted.reorder (h : Accounted q) (id : ℕ) (delta : ℤ) : Accounted (reorder id delta q) := by
  have hperm := perm_reorder id delta q
  rw [reorder_eq] at hperm ⊢
  exact ⟨(hperm.map _).nodup_iff.mpr h.nodup, fun t ht ↦ h.fresh t (hperm.mem_iff.mp ht), h.unused,
    h.attached, fun t ht ↦ (h.tallied t (hperm.mem_iff.mp ht)).congr rfl rfl rfl⟩

theorem Accounted.clearFinished (h : Accounted q) : Accounted (clearFinished q) :=
  ⟨h.nodup.sublist (List.filter_sublist.map _), fun t ht ↦ h.fresh t (List.mem_of_mem_filter ht),
    h.unused, h.attached,
    fun t ht ↦ (h.tallied t (List.mem_of_mem_filter ht)).congr rfl rfl rfl⟩

/-- A task is running only while the worker is at it. -/
theorem Accounted.worker_of_running (h : Accounted q) (ht : t ∈ q.tasks) (hrun : t.state = .running) :
    ∃ job, q.worker = some job ∧ job.taskId = t.id := by
  obtain ⟨posts, hposts, -⟩ := (h.tallied t ht).running hrun
  obtain ⟨job, hjob, hposts⟩ := Option.bind_eq_some_iff.mp hposts
  split_ifs at hposts with hid
  exact ⟨job, hjob, hid⟩

theorem Accounted.take (h : Accounted q) (hstep : take q = some q') : Accounted q' := by
  rw [ImportQueue.take] at hstep
  split_ifs at hstep with hbusy
  obtain ⟨t, hfind, hq⟩ := Option.bind_eq_some_iff.mp hstep
  obtain rfl := Option.some.inj hq
  have ht := List.mem_of_find?_eq_some hfind
  have hidle : ∀ u ∈ q.tasks, u.state ≠ .running := by
    intro u hu hrun
    obtain ⟨job, hjob, -⟩ := h.worker_of_running hu hrun
    rw [hjob] at hbusy
    exact hbusy rfl
  have hqueued : t.state = .queued := by
    have hstate := List.find?_some hfind
    rw [Bool.or_eq_true, decide_eq_true_eq, decide_eq_true_eq] at hstate
    exact hstate.resolve_right (hidle t ht)
  have htaken (u : Task ν) (hid : u.id = t.id) : u ∈ q.tasks → u = t := fun hu ↦ h.eq_of_id hu ht hid
  refine h.update rfl (fun _ ↦ rfl) rfl h.unused h.attached
    (fun u hu (hid : u.id = t.id) ↦ ?_) fun u hu _ ↦ ?_
  · obtain rfl := htaken u hid hu
    have hbefore := h.tallied u hu
    have hsent := hbefore.queued hqueued
    refine ⟨hbefore.imported, fun hc ↦ ?_, by rintro ⟨⟩, fun _ ↦ ⟨u.work.posts, if_pos rfl, fun _ ↦ ?_⟩, by rintro ⟨⟩⟩
    · have hskipped := hbefore.skipped hc
      rw [Task.processed, hqueued] at hskipped
      exact hskipped
    · exact congrArg (· ++ u.work.posts) hsent
  · have hbefore := h.tallied u hu
    exact ⟨hbefore.imported, hbefore.skipped, hbefore.queued, fun hrun ↦ absurd hrun (hidle u hu),
      hbefore.processed⟩

/-- Tasks that the worker is not at are as before when it goes on. -/
theorem Tallied.of_ne (h : Tallied q t) {job : Job ν} (hjob : q.worker = some job)
    (hne : t.id ≠ job.taskId) (hdrained : q'.drained = q.drained)
    (hsent : q'.sent t.id = q.sent t.id) : Tallied q' t := by
  have hresults (r : VaultResult) : q'.results t.id r = q.results t.id r := by
    rw [Queue.results, Queue.drainedOf, hdrained]
    rfl
  refine ⟨(hresults _).symm ▸ h.imported, (hresults _).symm ▸ h.skipped, hsent.symm ▸ h.queued,
    fun hrun ↦ ?_, hsent.symm ▸ h.processed⟩
  obtain ⟨posts, hposts, -⟩ := h.running hrun
  rw [Queue.left, hjob, Option.bind_some, if_neg hne.symm] at hposts
  cases hposts

theorem Accounted.post (h : Accounted q) (hg : Guarded q) (hstep : post q = some q') :
    Accounted q' := by
  obtain ⟨job, hjob, hstep⟩ := Option.bind_eq_some_iff.mp hstep
  obtain ⟨t, hfind, hstep⟩ := Option.bind_eq_some_iff.mp hstep
  obtain ⟨u, hu, huid, hurun⟩ := hg.working job hjob
  rcases hposts : job.posts with _ | ⟨p, posts⟩
  all_goals rw [hposts] at hstep
  · cases hstep
  · dsimp only at hstep
    split_ifs at hstep
    obtain rfl := Option.some.inj hstep
    set q' : Queue ν := { q with
      records := q.records ++ [{ p with taskId := job.taskId }]
      worker := some { job with posts } }
    have hsent (j : ℕ) : q'.sent j = q.sent j ++ if job.taskId = j then [p] else [] := by
      have hwaiting : q'.waitingOf j =
          q.waitingOf j ++ [({ p with taskId := job.taskId } : StagedRecord ν)].filter (·.taskId = j) := by
        rw [Queue.waitingOf, ← List.append_assoc, List.filter_append]
        rfl
      rw [Queue.sent, hwaiting, List.map_append, ← List.append_assoc]
      refine congrArg (q.sent j ++ ·) ?_
      by_cases hj : job.taskId = j <;> simp [hj]
    have hold (j : ℕ) (hj : j ≠ job.taskId) : q'.sent j = q.sent j := by
      rw [hsent, if_neg hj.symm, List.append_nil]
    refine ⟨h.nodup, h.fresh, fun j hj ↦ ?_, h.attached, fun v hv ↦ ?_⟩
    · rw [hold j (by rintro rfl; exact absurd (h.fresh u hu) (by rw [huid]; exact hj.not_gt))]
      exact h.unused j hj
    by_cases hsame : v.id = job.taskId
    · -- it is the task the worker is at
      obtain rfl := h.eq_of_id hv hu (hsame.trans huid.symm)
      have hbefore := h.tallied v hv
      refine ⟨hbefore.imported, hbefore.skipped, fun hq ↦ ?_, fun _ ↦ ⟨posts, if_pos hsame.symm, ?_⟩,
        fun hp ↦ ?_⟩
      · rw [hurun] at hq
        cases hq
      · intro hc
        obtain ⟨left, hleft, hall⟩ := hbefore.running hurun
        rw [Queue.left, hjob, Option.bind_some, if_pos hsame.symm, hposts] at hleft
        rw [hsent, if_pos hsame.symm, List.append_assoc, List.singleton_append, Option.some.inj hleft]
        exact hall hc
      · rw [Task.processed, hurun] at hp
        cases hp
    · exact (h.tallied v hv).of_ne hjob hsame rfl (hold _ hsame)

theorem Accounted.finish {skipped : ℕ} {failed : Bool} (h : Accounted q) (hg : Guarded q)
    (hstep : finish skipped failed q = some q') : Accounted q' := by
  obtain ⟨job, hjob, hstep⟩ := Option.bind_eq_some_iff.mp hstep
  obtain ⟨t, hfind, hstep⟩ := Option.bind_eq_some_iff.mp hstep
  obtain ⟨u, hu, huid, hurun⟩ := hg.working job hjob
  rw [Queue.findTask] at hfind
  have htid : t.id = job.taskId := by simpa using List.find?_some hfind
  obtain rfl : t = u := h.eq_of_id (List.mem_of_find?_eq_some hfind) hu (htid.trans huid.symm)
  split_ifs at hstep with hend
  obtain rfl := Option.some.inj hstep
  have hended (failed cancelled : Bool) :
      (if failed then ImportTaskState.failed else if cancelled then .cancelled else .done) ≠ .queued ∧
      (if failed then ImportTaskState.failed else if cancelled then .cancelled else .done) ≠
        .running := by
    rcases failed <;> rcases cancelled <;> exact ⟨nofun, nofun⟩
  refine h.update (f := Task.complete skipped failed) rfl (fun v ↦ ?_) rfl h.unused h.attached
    (fun v hv hid ↦ ?_) fun v hv hne ↦ (h.tallied v hv).of_ne hjob hne rfl rfl
  · rw [Task.complete]
    split_ifs <;> rfl
  · obtain rfl := h.eq_of_id hv hu (hid.trans huid.symm)
    have hbefore := h.tallied v hv
    rw [Task.complete, if_pos hurun]
    by_cases hcancel : v.cancel = true
    · exact ⟨hbefore.imported, fun hc ↦ absurd (hcancel.symm.trans hc) nofun,
        fun hq ↦ absurd hq (hended _ _).1, fun hr ↦ absurd hr (hended _ _).2,
        fun _ hc ↦ absurd (hcancel.symm.trans hc) nofun⟩
    · have hrunning := Bool.eq_false_of_not_eq_true hcancel
      -- the worker has posted everything, and skipped what the task skips
      rw [hrunning, Bool.false_or, Bool.and_eq_true, Bool.and_eq_true, Bool.and_eq_true,
        decide_eq_true_eq, decide_eq_true_eq] at hend
      obtain ⟨⟨⟨hempty, -⟩, rfl⟩, rfl⟩ := hend
      obtain ⟨posts, hposts, hall⟩ := hbefore.running hurun
      rw [Queue.left, hjob, Option.bind_some, if_pos hid.symm, List.isEmpty_iff.mp hempty] at hposts
      obtain rfl := Option.some.inj hposts
      refine ⟨hbefore.imported, fun hc ↦ ?_, fun hq ↦ absurd hq (hended _ _).1,
        fun hr ↦ absurd hr (hended _ _).2, fun _ hc ↦ (List.append_nil _).symm.trans (hall hc)⟩
      have hskipped := hbefore.skipped hc
      rw [if_neg (by simp [Task.processed, hurun])] at hskipped
      have hprocessed (failed : Bool) : Task.processed { v with
          state := if failed then .failed else if v.cancel then .cancelled else .done
          skipped := v.skipped + v.work.skipped } = true := by
        rw [hrunning]
        rcases failed <;> rfl
      rw [if_pos (hprocessed _)]
      exact congrArg (· + v.work.skipped) hskipped

/-! ### Saving -/

theorem Accounted.pollSave (h : Accounted q) : Accounted (pollSave q) := by
  rw [ImportQueue.pollSave]
  split
  · exact h.congr rfl rfl rfl rfl rfl
  · exact h

theorem Accounted.requestSave (h : Accounted q) (launched : Bool) :
    Accounted (requestSave launched q) := by
  rw [ImportQueue.requestSave]
  split_ifs
  · exact h
  all_goals exact h.congr rfl rfl rfl rfl rfl

/-! ### Draining -/

theorem Accounted.drain (h : Accounted q) (hmain : q.main = .free) : Accounted (drain q) := by
  have hpolled := h.pollSave
  have hsame := (pollSave_fields q).2.2.2.2.1
  rw [ImportQueue.drain]
  split_ifs
  · exact hpolled.congr rfl rfl rfl rfl rfl
  · refine hpolled.congr rfl rfl rfl ?_ rfl
    rw [hsame, hmain]
    rfl

theorem Accounted.tick {dt : ℚ} {launched : Bool} (h : Accounted q)
    (hstep : tick dt launched q = some q') : Accounted q' := by
  rw [ImportQueue.tick] at hstep
  rcases hmain : q.main with _ | _ | _ | _ | _ | _
  all_goals
    rw [hmain] at hstep
    simp only [reduceCtorEq, if_true, if_false] at hstep
  obtain rfl := Option.some.inj hstep
  have hticked : Accounted { q with policy := q.policy.tick dt, main := .ending } :=
    h.congr rfl rfl rfl (by rw [hmain]; rfl) rfl
  split_ifs
  · exact (hticked.requestSave launched).congr rfl rfl rfl rfl rfl
  · exact hticked

theorem Accounted.endBatch (h : Accounted q) (hstep : endBatch q = some q') : Accounted q' := by
  rw [ImportQueue.endBatch] at hstep
  rcases hmain : q.main with _ | _ | _ | _ | _ | _
  all_goals
    rw [hmain] at hstep
    simp only [reduceCtorEq, if_true, if_false] at hstep
  split_ifs at hstep
  all_goals
    obtain rfl := Option.some.inj hstep
    exact h.congr rfl rfl rfl (by rw [hmain]; rfl) rfl

theorem Accounted.closeBatch {launched : Bool} (h : Accounted q)
    (hstep : closeBatch launched q = some q') : Accounted q' := by
  rw [ImportQueue.closeBatch] at hstep
  rcases hmain : q.main with _ | _ | _ | _ | _ | _
  all_goals
    rw [hmain] at hstep
    simp only [reduceCtorEq, if_true, if_false] at hstep
  obtain rfl := Option.some.inj hstep
  split_ifs
  · refine (h.requestSave launched).congr rfl rfl rfl ?_ rfl
    rw [(requestSave_fields launched q).2.2.2.2.1, hmain]
    rfl
  · exact h.congr rfl rfl rfl (by rw [hmain]; rfl) rfl

theorem Accounted.turn {timeOver : Bool} (h : Accounted q) (hstep : turn timeOver q = some q') :
    Accounted q' := by
  rw [ImportQueue.turn] at hstep
  rcases hmain : q.main with _ | n | _ | _ | _ | _
  all_goals
    rw [hmain] at hstep
    simp only [reduceCtorEq] at hstep
  split_ifs at hstep
  · obtain rfl := Option.some.inj hstep
    exact h.congr rfl rfl rfl (by rw [hmain]; rfl) rfl
  · rcases hrecords : q.records with _ | ⟨r, records⟩
    all_goals
      rw [hrecords] at hstep
      obtain rfl := Option.some.inj hstep
    · exact h.congr rfl rfl rfl (by rw [hmain, hrecords]; rfl) rfl
    · exact h.congr rfl rfl rfl (by rw [hmain, hrecords]; rfl) rfl

/-- The queue after a record was applied, without its counts. -/
def noted (r : StagedRecord ν) (n : ℕ) (result : Option VaultResult) (q : Queue ν) : Queue ν :=
  { q with main := .draining (n + 1), drained := q.drained ++ [⟨r, result⟩] }

variable {r : StagedRecord ν} {n : ℕ}

theorem sent_noted (hmain : q.main = .holding r n) (result : Option VaultResult) (id : ℕ) :
    (noted r n result q).sent id = q.sent id := by
  rw [Queue.sent, Queue.drainedOf, Queue.waitingOf, Queue.sent, Queue.drainedOf, Queue.waitingOf,
    hmain]
  by_cases hid : r.taskId = id <;> simp [noted, Main.held, hid]

theorem results_noted (result : Option VaultResult) (id : ℕ) (s : VaultResult) :
    (noted r n result q).results id s =
      q.results id s + if r.taskId = id ∧ result = some s then 1 else 0 := by
  rw [Queue.results, Queue.drainedOf, noted]
  dsimp only
  rw [List.filter_append, List.countP_append, Queue.results, Queue.drainedOf]
  by_cases hid : r.taskId = id <;> simp [hid, List.countP_cons]

theorem attached_noted (h : Accounted q) {result : Option VaultResult}
    (hresult : result.isSome = r.toPost.isNode) :
    ∀ e ∈ (noted r n result q).drained, e.result.isSome = e.record.toPost.isNode := by
  intro e he
  rcases List.mem_append.mp he with he | he
  · exact h.attached e he
  · obtain rfl := List.mem_singleton.mp he
    exact hresult

/-- A result that is not counted, or is of another task, changes no account. -/
theorem Tallied.noted (h : Tallied q t) (hmain : q.main = .holding r n) {result : Option VaultResult}
    (hquiet : r.taskId = t.id → result ≠ some .ok ∧ result ≠ some .alreadyExists) :
    Tallied (noted r n result q) t := by
  have hok : (ImportQueue.noted r n result q).results t.id .ok = q.results t.id .ok := by
    rw [results_noted, if_neg fun hc ↦ (hquiet hc.1).1 hc.2]
    rfl
  have hthere : (ImportQueue.noted r n result q).results t.id .alreadyExists =
      q.results t.id .alreadyExists := by
    rw [results_noted, if_neg fun hc ↦ (hquiet hc.1).2 hc.2]
    rfl
  have hsent := sent_noted hmain result t.id
  exact ⟨hok.symm ▸ h.imported, hthere.symm ▸ h.skipped, hsent.symm ▸ h.queued,
    hsent.symm ▸ h.running, hsent.symm ▸ h.processed⟩

theorem Accounted.noted (h : Accounted q) (hmain : q.main = .holding r n) {result : Option VaultResult}
    (hnode : result.isSome = r.toPost.isNode)
    (hquiet : result ≠ some .ok ∧ result ≠ some .alreadyExists) : Accounted (noted r n result q) :=
  ⟨h.nodup, h.fresh, fun id hid ↦ (sent_noted hmain result id).trans (h.unused id hid),
    attached_noted h hnode, fun t ht ↦ (h.tallied t ht).noted hmain fun _ ↦ hquiet⟩

/-- A node that was attached is counted as imported, and one that was there as skipped. -/
theorem Tallied.count (h : Tallied q t) (hmain : q.main = .holding r n) (hid : t.id = r.taskId)
    (result : VaultResult) :
    Tallied (ImportQueue.noted r n (some result) q)
      { t with
        imported := t.imported + if result = .ok then 1 else 0
        skipped := t.skipped + if result = .alreadyExists then 1 else 0 } := by
  have hresults (s : VaultResult) : (ImportQueue.noted r n (some result) q).results t.id s =
      q.results t.id s + if result = s then 1 else 0 := by
    rw [results_noted]
    simp [hid]
  have hsent := sent_noted hmain (some result) t.id
  refine ⟨?_, fun hc ↦ ?_, hsent.symm ▸ h.queued, hsent.symm ▸ h.running, hsent.symm ▸ h.processed⟩
  · exact (congrArg (· + _) h.imported).trans (hresults _).symm
  · have hskipped := h.skipped hc
    have hthere := hresults .alreadyExists
    have hprocessed : Task.processed { t with
      imported := t.imported + if result = .ok then 1 else 0
      skipped := t.skipped + if result = .alreadyExists then 1 else 0 } = t.processed := rfl
    rw [hprocessed]
    dsimp only
    omega

theorem Accounted.apply {result : VaultResult} (h : Accounted q) (hstep : apply result q = some q') :
    Accounted q' := by
  obtain ⟨r, n, hmain, ⟨⟨tags, rfl⟩, hother⟩ | ⟨htag, hnode, rfl⟩⟩ := apply_cases hstep
  · -- a tag or a gallery
    have hnone : (none : Option VaultResult).isSome = r.toPost.isNode := by
      rcases hother with htag | hnode
      · simp [Post.isNode, htag]
      · simp [Post.isNode, hnode]
    exact (h.noted hmain hnone ⟨by rintro ⟨⟩, by rintro ⟨⟩⟩).congr rfl rfl rfl rfl rfl
  have hisNode : (some result).isSome = r.toPost.isNode := by
    rw [Post.isNode, htag, List.isEmpty_nil, Option.isSome_iff_ne_none.mpr hnode]
    rfl
  have hnoted : ∀ id, q.nextTaskId ≤ id → (ImportQueue.noted r n (some result) q).sent id = [] :=
    fun id hid ↦ (sent_noted hmain _ id).trans (h.unused id hid)
  rw [countAttached]
  split_ifs with hthere hok
  · subst hthere
    refine h.update rfl (fun _ ↦ rfl) rfl hnoted (attached_noted (n := n) h hisNode)
      (fun t ht hid ↦ ?_) fun t ht hne ↦ ?_
    · have hcounted := (h.tallied t ht).count hmain hid .alreadyExists
      exact hcounted.congr rfl rfl rfl
    · exact ((h.tallied t ht).noted hmain fun hid ↦ absurd hid.symm hne).congr rfl rfl rfl
  · subst hok
    refine h.update rfl (fun _ ↦ rfl) rfl hnoted (attached_noted (n := n) h hisNode)
      (fun t ht hid ↦ ?_) fun t ht hne ↦ ?_
    · have hcounted := (h.tallied t ht).count hmain hid .ok
      exact hcounted.congr rfl rfl rfl
    · exact ((h.tallied t ht).noted hmain fun hid ↦ absurd hid.symm hne).congr rfl rfl rfl
  · exact h.noted hmain hisNode ⟨fun he ↦ hok (Option.some.inj he), fun he ↦ hthere (Option.some.inj he)⟩

/-- **Every step** keeps the accounts. -/
theorem accounted_step (hg : Guarded q) (h : Accounted q) (hstep : step q a = some q') :
    Accounted q' := by
  rcases a with work | id | ⟨id, delta⟩ | _ | exclusively | _ | _ | _ | ⟨skipped, failed⟩ | ok | _ |
    _ | timeOver | result | ⟨dt, launched⟩ | _ | launched
  · exact Option.some.inj hstep ▸ h.enqueue work
  · obtain ⟨-, rfl⟩ := of_whenFree hstep
    exact h.cancel id
  · obtain ⟨-, rfl⟩ := of_whenFree hstep
    exact h.reorder id delta
  · obtain ⟨-, rfl⟩ := of_whenFree hstep
    exact h.clearFinished
  · obtain ⟨-, rfl⟩ := of_whenFree hstep
    exact h.congr rfl rfl rfl rfl rfl
  · obtain ⟨-, rfl⟩ := of_whenFree hstep
    exact h.pollSave
  · exact h.take hstep
  · exact h.post hg hstep
  · exact h.finish hg hstep
  · rw [step] at hstep
    split_ifs at hstep
    exact Option.some.inj hstep ▸ h.congr rfl rfl rfl rfl rfl
  · exact Option.some.inj hstep ▸ h.congr rfl rfl rfl rfl rfl
  · obtain ⟨hmain, rfl⟩ := of_whenFree hstep
    exact h.drain hmain
  · exact h.turn hstep
  · exact h.apply hstep
  · exact h.tick hstep
  · exact h.endBatch hstep
  · exact h.closeBatch hstep

/-! ## Runs -/

theorem accounted_run {directory : Bool} {as : List (Action ν)}
    (hrun : Run.run step (beginSession ν directory) as = some q) : Accounted q := by
  have hboth : Guarded q ∧ Accounted q := Run.invariant (C := fun _ _ ↦ True)
    (I := fun q ↦ Guarded q ∧ Accounted q)
    (fun h _ hstep ↦ ⟨guarded_step h.1 hstep, accounted_step h.1 h.2 hstep⟩)
    ⟨guarded_beginSession directory, accounted_beginSession directory⟩
    (Run.meets_of_forall fun _ _ ↦ trivial) hrun
  exact hboth.2

/-- How many nodes of a task were drained without being attached. -/
def Queue.unattached (q : Queue ν) (id : ℕ) : ℕ :=
  (q.drainedOf id).countP fun e ↦ e.record.toPost.isNode && decide (e.result ≠ some .ok)

/-- Each drained node was attached, or it was not. -/
theorem Accounted.results_add_unattached (h : Accounted q) (id : ℕ) :
    q.results id .ok + q.unattached id =
      ((q.drainedOf id).map (·.record.toPost)).countP Post.isNode := by
  have hattached : ∀ e ∈ q.drainedOf id, e.result.isSome = e.record.toPost.isNode :=
    fun e he ↦ h.attached e (List.mem_of_mem_filter he)
  rw [Queue.results, Queue.unattached]
  generalize q.drainedOf id = es at hattached
  induction es with
  | nil => rfl
  | cons e es ih =>
    obtain ⟨he, hes⟩ := List.forall_mem_cons.mp hattached
    rw [List.map_cons, List.countP_cons, List.countP_cons, List.countP_cons, ← ih hes, ← he]
    rcases e.result with _ | result
    · simp
    · by_cases hok : result = .ok <;> simp [hok] <;> omega

/-- What is not attached was there already, or is in no count. -/
theorem Accounted.results_eq_unattached_iff (h : Accounted q) (id : ℕ) :
    q.results id .alreadyExists ≤ q.unattached id ∧
      (q.results id .alreadyExists = q.unattached id ↔
        ∀ e ∈ q.drainedOf id, ∀ result, e.result = some result →
          result = .ok ∨ result = .alreadyExists) := by
  have hattached : ∀ e ∈ q.drainedOf id, e.result.isSome = e.record.toPost.isNode :=
    fun e he ↦ h.attached e (List.mem_of_mem_filter he)
  rw [Queue.results, Queue.unattached]
  generalize q.drainedOf id = es at hattached
  induction es with
  | nil => exact ⟨le_rfl, fun _ ↦ nofun, fun _ ↦ rfl⟩
  | cons e es ih =>
    obtain ⟨he, hes⟩ := List.forall_mem_cons.mp hattached
    obtain ⟨hle, hiff⟩ := ih hes
    rw [List.countP_cons, List.countP_cons, ← he, List.forall_mem_cons, ← hiff]
    generalize es.countP (fun e ↦ decide (e.result = some .alreadyExists)) = there at hle
    generalize es.countP _ = missed at hle
    rcases e.result with _ | result
    · exact ⟨hle, ⟨fun heq ↦ ⟨nofun, heq⟩, fun heq ↦ heq.2⟩⟩
    · by_cases hok : result = .ok
      · simp [hok, hle]
      · by_cases hthere : result = .alreadyExists <;> simp [hok, hthere] <;> omega

/-- **What became of a task** that was not cancelled, once it has ended and no record of it is left. Its
posts were drained in order, each once, and the nodes that were attached are those counted as imported.
The counts add up to the files attempted, with every other node counted as skipped, if and only if
attaching returned `ok` or `alreadyExists` each time and, for a list of files, no test for a regular file
threw and every file that was read could be staged. -/
theorem accounts_iff (directory : Bool) (as : List (Action ν))
    (hrun : Run.run step (beginSession ν directory) as = some q) (ht : t ∈ q.tasks)
    (hended : t.processed = true) (hcancel : t.cancel = false)
    (hdrained : ∀ r ∈ q.main.held ++ q.records, r.taskId ≠ t.id) {staged : Prop}
    (hwork : Processed t.work staged) :
    (q.drainedOf t.id).map (·.record.toPost) = t.work.posts ∧
      t.imported = q.results t.id .ok ∧
      (t.imported + t.skipped = t.work.attempted ∧
          t.skipped = t.work.skipped + q.unattached t.id ↔
        (∀ e ∈ q.drainedOf t.id, ∀ result, e.result = some result →
          result = .ok ∨ result = .alreadyExists) ∧ staged) := by
  have h := accounted_run hrun
  have htally := h.tallied t ht
  have hnone : q.waitingOf t.id = [] := by
    refine List.filter_eq_nil_iff.mpr fun r hr ↦ ?_
    rw [decide_eq_true_eq]
    exact hdrained r hr
  have hposts : (q.drainedOf t.id).map (·.record.toPost) = t.work.posts := by
    have hsent := htally.processed hended hcancel
    rw [Queue.sent, hnone, List.map_nil, List.append_nil] at hsent
    exact hsent
  refine ⟨hposts, htally.imported, ?_⟩
  have hskipped := htally.skipped hcancel
  rw [if_pos hended] at hskipped
  have himported := htally.imported
  have hnodes := h.results_add_unattached t.id
  rw [hposts] at hnodes
  obtain ⟨-, hall⟩ := h.results_eq_unattached_iff t.id
  rw [← hall, ← hwork.counted_iff, Work.Counted]
  constructor
  · rintro ⟨hsum, hcounted⟩
    exact ⟨by omega, by omega⟩
  · rintro ⟨hthere, hcounted⟩
    exact ⟨by omega, by omega⟩

/-! ### A folder with one file -/

/-- Staging always works. -/
def readySink : StagingSink Unit where
  destGallery := []
  detectFormat _ := true
  stageImage _ _ _ := (.ok, ())
  stageVideo _ _ _ := (.ok, ())

def oneFile : FolderTask where
  entries := [{ path := [97, 46, 106, 112, 103] }]
  galleryName := [103]
  readFile _ := some [0]
  readMeta _ := none
  metaGalleryTags _ := []

/-- The folder is imported into a gallery of its own, and attaching the file returns a result. -/
def importOneFile (result : VaultResult) : List (Action Unit) :=
  [.enqueue (processFolderTask readySink oneFile), .take, .post, .post, .finish 0 false, .drain,
    .turn false, .apply .ok, .turn false, .apply result, .turn false, .tick 0 true, .endBatch]

/-- Nothing is left of the first task, and it has ended. -/
def Settled (q : Queue Unit) (t : Task Unit) : Prop :=
  q.tasks = [t] ∧ t.processed = true ∧ t.cancel = false ∧ q.main.held = [] ∧ q.records = [] ∧
    t.work = processFolderTask readySink oneFile

instance (q : Queue Unit) (t : Task Unit) : Decidable (Settled q t) :=
  inferInstanceAs (Decidable (_ ∧ _))

theorem accounts_iff_importOneFile :
    ∃ q t, Run.run step (beginSession Unit true) (importOneFile .alreadyExists) = some q ∧
      Settled q t ∧ t.imported = 0 ∧ t.imported + t.skipped = t.work.attempted := by
  have hfacts : (Run.run step (beginSession Unit true) (importOneFile .alreadyExists)).any
      fun q ↦ q.tasks.any fun t ↦ Settled q t ∧
        ∀ e ∈ q.drainedOf t.id, e.result = none ∨ e.result = some .alreadyExists := by
    decide +kernel
  obtain ⟨q, hq, hfacts⟩ := (Option.any_eq_true _ _).mp hfacts
  obtain ⟨t, ht, hfacts⟩ := List.any_eq_true.mp hfacts
  obtain ⟨hsettled, hresults⟩ := of_decide_eq_true hfacts
  have ⟨_, hended, hcancel, hheld, hrecords, hwork⟩ := hsettled
  have haccounts := accounts_iff true _ hq ht hended hcancel (by rw [hheld, hrecords]; exact nofun)
    (hwork ▸ Processed.folder readySink oneFile)
  have hall := haccounts.2.2.mpr ⟨fun e he result hresult ↦ ?_, trivial⟩
  · refine ⟨q, t, hq, hsettled, ?_, hall.1⟩
    rw [haccounts.2.1, Queue.results, List.countP_eq_zero]
    intro e he
    rw [decide_eq_true_eq]
    rcases hresults e he with h | h <;> simp [h]
  · rcases hresults e he with h | h
    · exact absurd (h.symm.trans hresult) nofun
    · exact .inr (Option.some.inj (hresult.symm.trans h))

/-- An image has the name of the gallery, so there is none when the file is attached. The file is neither
imported nor skipped. -/
theorem not_counted_of_notFound :
    ¬ ∀ (as : List (Action Unit)) (q : Queue Unit) (t : Task Unit) (staged : Prop),
      Run.run step (beginSession Unit true) as = some q → t ∈ q.tasks → t.processed = true →
      t.cancel = false → (∀ r ∈ q.main.held ++ q.records, r.taskId ≠ t.id) →
      Processed t.work staged → t.imported + t.skipped = t.work.attempted := by
  intro h
  have hfacts : (Run.run step (beginSession Unit true) (importOneFile .notFound)).any
      fun q ↦ q.tasks.any fun t ↦ Settled q t ∧ t.imported + t.skipped ≠ t.work.attempted := by
    decide +kernel
  obtain ⟨q, hq, hfacts⟩ := (Option.any_eq_true _ _).mp hfacts
  obtain ⟨t, ht, hfacts⟩ := List.any_eq_true.mp hfacts
  obtain ⟨⟨-, hended, hcancel, hheld, hrecords, hwork⟩, hne⟩ := of_decide_eq_true hfacts
  exact hne (h _ q t True hq ht hended hcancel (by rw [hheld, hrecords]; exact nofun)
    (hwork ▸ Processed.folder readySink oneFile))

end ImportQueue

end SafeVault
