import SafeVault.Lib.History
import SafeVault.Vault.Structure
import Mathlib.Data.Rat.Defs
import Mathlib.Algebra.Order.Ring.Unbundled.Rat

/-!
# The import queue

A worker takes one task after another and posts records: a node with the gallery it is for, a gallery
alone, or a tag. The main thread drains the records into the tree, counts what became of them, and
asks for the tree to be saved: every so often, and once more when nothing is left to do.

An action is one step of one thread between two points where another can get in between. The queue
itself is guarded by `mu_`; a save of a vault in a directory runs on a thread of its own, which owns
the tree until the main thread has joined it.

What processing a task comes to is part of the task: the records the worker posts if nobody cancels it,
and its counts. What attaching a node returns is a choice of the action.
-/

namespace SafeVault

namespace ImportQueue

/-! ## Records and tasks -/

/-- A record without its task. Without a node and a tag it asks for the gallery only. -/
structure Post (ν : Type) where
  galleryPath : Bytes
  node : Option ν := none
  tag : Bytes := []
deriving DecidableEq

structure StagedRecord (ν : Type) extends Post ν where
  taskId : ℕ
deriving DecidableEq

/-- What processing a task comes to if it is not cancelled. -/
structure Work (ν : Type) where
  posts : List (Post ν)
  skipped : ℕ := 0
  failed : Bool := false
  /-- Some tasks never come to an end. -/
  ends : Bool := true
  /-- How many files were attempted; nothing reads it. -/
  attempted : ℕ := 0
deriving DecidableEq

inductive ImportTaskState where
  | queued | running | done | failed | cancelled
  deriving DecidableEq

structure Task (ν : Type) where
  id : ℕ
  work : Work ν
  state : ImportTaskState := .queued
  imported : ℕ := 0
  skipped : ℕ := 0
  /-- `progress->cancel` -/
  cancel : Bool := false
deriving DecidableEq

variable {ν : Type}

def Task.finished (t : Task ν) : Bool :=
  t.state = .done || t.state = .failed || t.state = .cancelled

/-- `batch_commit_policy`, with exact time. -/
structure BatchCommitPolicy where
  filesSinceCommit : ℕ := 0
  secsSinceCommit : ℚ := 0
deriving DecidableEq

namespace BatchCommitPolicy

def filesPerCommit : ℕ := 32

def secsPerCommit : ℚ := 2

def noteAttached (n : ℕ) (p : BatchCommitPolicy) : BatchCommitPolicy :=
  { p with filesSinceCommit := p.filesSinceCommit + n }

def tick (dt : ℚ) (p : BatchCommitPolicy) : BatchCommitPolicy :=
  if 0 < p.filesSinceCommit then { p with secsSinceCommit := p.secsSinceCommit + dt } else p

def due (p : BatchCommitPolicy) : Bool :=
  filesPerCommit ≤ p.filesSinceCommit ||
    (0 < p.filesSinceCommit && secsPerCommit ≤ p.secsSinceCommit)

end BatchCommitPolicy

structure DatasetTagReview where
  taskId : ℕ
  assignments : List (Bytes × Bytes) := []
deriving DecidableEq

/-- `collect_dataset_tag` -/
def collectDatasetTag (taskId : ℕ) (gallery tag : Bytes) :
    List DatasetTagReview → List DatasetTagReview
  | [] => [⟨taskId, [(gallery, tag)]⟩]
  | r :: rs =>
    if r.taskId = taskId then { r with assignments := r.assignments ++ [(gallery, tag)] } :: rs
    else r :: collectDatasetTag taskId gallery tag rs

/-! ## The threads and what they share -/

/-- The worker at a task: what it has still to post. -/
structure Job (ν : Type) where
  taskId : ℕ
  posts : List (Post ν)
deriving DecidableEq

/-- The thread that saves the tree of a directory, if there is one. -/
inductive Save where
  | none
  | running
  /-- The main thread has not joined it yet. -/
  | done (succeeded : Bool)
deriving DecidableEq

/-- How far the main thread is in `drain`. -/
inductive Main (ν : Type) where
  | free
  /-- In the loop, after so many records. -/
  | draining (applied : ℕ)
  /-- A record was taken and not applied yet. -/
  | holding (r : StagedRecord ν) (applied : ℕ)
  /-- After the loop. -/
  | ticking
  /-- Before the look at the queue in `maybe_end_batch`. -/
  | ending
  /-- After it, when there is a last save to ask for. -/
  | closing
deriving DecidableEq

/-- How a drain has ended. -/
inductive DrainEnd where
  /-- It returned at once. -/
  | turnedAway
  /-- It found an unfinished task or a record at the end. -/
  | busy
  | idle
deriving DecidableEq

/-- A record that was drained, with what attaching its node returned. -/
structure Drained (ν : Type) where
  record : StagedRecord ν
  result : Option VaultResult
deriving DecidableEq

/-- The members of the queue and the points its threads have reached; what was drained, what was in the
tree when it was asked to be saved, and how the last drain has ended. -/
structure Queue (ν : Type) where
  directory : Bool
  tasks : List (Task ν) := []
  nextTaskId : ℕ := 1
  exclusive : Bool := false
  records : List (StagedRecord ν) := []
  pendingTags : List DatasetTagReview := []
  policy : BatchCommitPolicy := {}
  save : Save := .none
  saveFailed : Bool := false
  /-- `lane_->failed()` -/
  laneDown : Bool := false
  batchEnded : Bool := true
  worker : Option (Job ν) := none
  main : Main ν := .free
  drained : List (Drained ν) := []
  snapshots : List (List (Drained ν)) := []
  lastDrain : Option DrainEnd := none
deriving DecidableEq

/-- A queue after `begin_session`. -/
def beginSession (ν : Type) (directory : Bool) : Queue ν := { directory := directory }

namespace Queue

variable (q : Queue ν)

def laneFailed : Bool := q.saveFailed || q.laneDown

/-- Some task is not finished, or there is a record. -/
def pending : Bool := !q.records.isEmpty || q.tasks.any fun t ↦ !t.finished

/-- Change the first task with an identifier. -/
def updateTask (id : ℕ) (f : Task ν → Task ν) : Queue ν :=
  { q with tasks := q.tasks.replaceF fun t ↦ if t.id = id then some (f t) else none }

def findTask (id : ℕ) : Option (Task ν) := q.tasks.find? (·.id = id)

end Queue

/-! ## Enqueuing and controlling -/

/-- `enqueue_files`, `enqueue_archive`, `enqueue_volume_set`, `enqueue_folder` -/
def enqueue (work : Work ν) (q : Queue ν) : Queue ν :=
  { q with
    tasks := q.tasks ++ [{ id := q.nextTaskId, work }]
    nextTaskId := q.nextTaskId + 1
    batchEnded := false }

def cancel (id : ℕ) (q : Queue ν) : Queue ν :=
  q.updateTask id fun t ↦
    match t.state with
    | .queued => { t with state := .cancelled }
    | .running => { t with cancel := true }
    | _ => t

/-- `reorder_import_task` -/
def reorder (id : ℕ) (delta : ℤ) (q : Queue ν) : Queue ν :=
  match q.tasks.findIdx? (·.id = id) with
  | none => q
  | some i =>
    let j := i + delta
    match q.tasks[i]?, q.tasks[j.toNat]? with
    | some a, some b =>
      if j < 0 ∨ a.state ≠ .queued ∨ b.state ≠ .queued then q
      else { q with tasks := (q.tasks.set i b).set j.toNat a }
    | _, _ => q

def clearFinished (q : Queue ν) : Queue ν := { q with tasks := q.tasks.filter (!·.finished) }

/-! ## The worker -/

/-- `extract_task_data`: take the first task that is queued or running. -/
def take (q : Queue ν) : Option (Queue ν) :=
  if q.worker.isSome || q.exclusive then none
  else do
    let t ← q.tasks.find? fun t ↦ t.state = .queued || t.state = .running
    some { q.updateTask t.id fun t ↦ { t with state := .running } with
      worker := some ⟨t.id, t.work.posts⟩ }

def maxRecords : ℕ := 256

/-- `post_record`, for a task that is not cancelled. -/
def post (q : Queue ν) : Option (Queue ν) := do
  let job ← q.worker
  let t ← q.findTask job.taskId
  match job.posts with
  | [] => none
  | p :: posts =>
    if t.cancel || maxRecords ≤ q.records.length then none
    else some { q with
      records := q.records ++ [{ p with taskId := job.taskId }]
      worker := some { job with posts } }

/-- `mark_task_complete` -/
def Task.complete (skipped : ℕ) (failed : Bool) (t : Task ν) : Task ν :=
  if t.state = .running then
    { t with
      state := if failed then .failed else if t.cancel then .cancelled else .done
      skipped := t.skipped + skipped }
  else t

/-- The end of a task. A cancelled task can end at any point, with any counts. -/
def finish (skipped : ℕ) (failed : Bool) (q : Queue ν) : Option (Queue ν) := do
  let job ← q.worker
  let t ← q.findTask job.taskId
  if t.cancel || (job.posts.isEmpty && t.work.ends && skipped = t.work.skipped &&
      failed = t.work.failed) then
    some { q.updateTask job.taskId (Task.complete skipped failed) with worker := none }
  else none

/-! ## Saving -/

/-- `request_save`; starting the thread can fail. -/
def requestSave (launched : Bool) (q : Queue ν) : Queue ν :=
  if q.save ≠ .none || q.laneFailed then q
  else if !q.directory then { q with snapshots := q.snapshots ++ [q.drained] }
  else if launched then { q with save := .running, snapshots := q.snapshots ++ [q.drained] }
  else { q with saveFailed := true }

def pollSave (q : Queue ν) : Queue ν :=
  match q.save with
  | .done succeeded => { q with save := .none, saveFailed := !succeeded }
  | _ => q

/-! ## Draining -/

/-- The first lines of `drain`. -/
def drain (q : Queue ν) : Queue ν :=
  let q := pollSave q
  if q.save ≠ .none || q.laneFailed || q.exclusive then { q with lastDrain := some .turnedAway }
  else { q with main := .draining 0 }

def maxApplied : ℕ := 32

/-- The next turn of the loop: take a record, unless there is none or the time is over. -/
def turn (timeOver : Bool) (q : Queue ν) : Option (Queue ν) :=
  match q.main with
  | .draining n =>
    if maxApplied ≤ n || timeOver then some { q with main := .ticking }
    else
      match q.records with
      | [] => some { q with main := .ticking }
      | r :: records => some { q with records, main := .holding r n }
  | _ => none

/-- Count what attaching a node came to. -/
def countAttached (taskId : ℕ) (result : VaultResult) (q : Queue ν) : Queue ν :=
  if result = .alreadyExists then
    q.updateTask taskId fun t ↦ { t with skipped := t.skipped + 1 }
  else if result = .ok then
    { q with policy := q.policy.noteAttached 1 }.updateTask taskId fun t ↦
      { t with imported := t.imported + 1 }
  else q

/-- The body of the loop, from where a record was taken. -/
def apply (result : VaultResult) (q : Queue ν) : Option (Queue ν) :=
  match q.main with
  | .holding r n =>
    let q := { q with main := .draining (n + 1) }
    if !r.tag.isEmpty then
      some { q with
        pendingTags := collectDatasetTag r.taskId r.galleryPath r.tag q.pendingTags
        drained := q.drained ++ [⟨r, none⟩] }
    else if r.node.isSome then
      some (countAttached r.taskId result { q with drained := q.drained ++ [⟨r, some result⟩] })
    else some { q with drained := q.drained ++ [⟨r, none⟩] }
  | _ => none

/-- After the loop. -/
def tick (dt : ℚ) (launched : Bool) (q : Queue ν) : Option (Queue ν) :=
  if q.main matches .ticking then
    let q := { q with policy := q.policy.tick dt, main := .ending }
    some (if q.policy.due then { requestSave launched q with policy := {} } else q)
  else none

/-- The part of `maybe_end_batch` that holds `mu_`. -/
def endBatch (q : Queue ν) : Option (Queue ν) :=
  if q.main matches .ending then
    if q.pending then
      some { q with batchEnded := false, main := .free, lastDrain := some .busy }
    else if q.batchEnded then some { q with main := .free, lastDrain := some .idle }
    else some { q with batchEnded := true, main := .closing }
  else none

/-- The rest of it. -/
def closeBatch (launched : Bool) (q : Queue ν) : Option (Queue ν) :=
  if q.main matches .closing then
    some { (if q.save = .none then requestSave launched q else q) with
      policy := {}, main := .free, lastDrain := some .idle }
  else none

/-! ## Runs -/

inductive Action (ν : Type) where
  | enqueue (work : Work ν)
  | cancel (id : ℕ)
  | reorder (id : ℕ) (delta : ℤ)
  | clearFinished
  | setExclusive (held : Bool)
  | pollSave
  | take
  | post
  | finish (skipped : ℕ) (failed : Bool)
  | saveEnds (succeeded : Bool)
  | laneFails
  | drain
  | turn (timeOver : Bool)
  | apply (result : VaultResult)
  | tick (dt : ℚ) (launched : Bool)
  | endBatch
  | closeBatch (launched : Bool)
deriving DecidableEq

/-- What the main thread does outside of `drain`. -/
def whenFree (q next : Queue ν) : Option (Queue ν) :=
  if q.main matches .free then some next else none

def step (q : Queue ν) : Action ν → Option (Queue ν)
  | .enqueue work => some (enqueue work q)
  | .cancel id => whenFree q (cancel id q)
  | .reorder id delta => whenFree q (reorder id delta q)
  | .clearFinished => whenFree q (clearFinished q)
  | .setExclusive held => whenFree q { q with exclusive := held }
  | .pollSave => whenFree q (pollSave q)
  | .take => take q
  | .post => post q
  | .finish skipped failed => finish skipped failed q
  | .saveEnds succeeded =>
    if q.save = .running then some { q with save := .done succeeded } else none
  | .laneFails => some { q with laneDown := true }
  | .drain => whenFree q (drain q)
  | .turn timeOver => turn timeOver q
  | .apply result => apply result q
  | .tick dt launched => tick dt launched q
  | .endBatch => endBatch q
  | .closeBatch launched => closeBatch launched q

end ImportQueue

end SafeVault
