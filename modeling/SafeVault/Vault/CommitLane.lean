import SafeVault.Lib.History

/-!
# The commit lane

One worker thread writes index snapshots in the background; only the newest snapshot that waits is
kept. The state is what the three kinds of threads share, together with the point each one has
reached: the owner of the tree, who enqueues, the worker, and whoever flushes or stops the lane. An
action is one step of one thread between two points where another can get in between; `mu_` is held
over several steps only by the owner in the last part of `enqueue_snapshot`, because the worker sets
`failed_` without it.

A vault in a directory has its own transactions, and the owner commits before `enqueue_snapshot`
returns. The history records which snapshots were enqueued and committed, and what each flush said.
-/

namespace SafeVault

namespace CommitLane

/-! ## The threads and what they share -/

/-- A snapshot with its number. -/
structure Pending (β : Type) where
  plain : β
  generation : ℕ
deriving DecidableEq, Repr

/-- How far the owner of the tree is in `enqueue_snapshot`. -/
inductive Owner (β : Type)
  | idle
  /-- The lane takes work; the snapshot is being serialized. -/
  | serializing (plain : β)
  | serialized (plain : β)
  /-- Holding `mu_`, after the second look at `failed_` and `stopping_`. -/
  | checked (plain : β)
  /-- Inside the transaction of a directory. -/
  | committing (plain : β)
deriving DecidableEq, Repr

/-- How far the worker is in `worker_loop`. -/
inductive Worker (β : Type)
  | waiting
  | committing (work : Pending β)
  /-- The write has failed, and `failed_` is not set yet. -/
  | failing (work : Pending β)
  | reporting (work : Pending β)
  | exited
deriving DecidableEq, Repr

/-- What an observer of the lane could write down. -/
inductive Event (β : Type)
  | enqueued (p : Pending β)
  | committed (p : Pending β)
  | failed (p : Pending β)
  /-- A flush returned this. -/
  | flushed (ok : Bool)
deriving DecidableEq, Repr

/-- The members of the lane, the points its threads have reached, and the history. `issued` counts
the snapshots in the history, which a directory does not number. -/
structure State (β : Type) where
  directory : Bool
  attached : Bool := true
  running : Bool := true
  pending : Option (Pending β) := none
  nextGen : ℕ := 1
  lastWrittenGen : ℕ := 0
  inFlight : Bool := false
  failed : Bool := false
  stopping : Bool := false
  owner : Owner β := .idle
  worker : Worker β := .waiting
  issued : ℕ := 0
  log : List (Event β) := []
deriving DecidableEq, Repr

variable {β : Type}

/-- The lane after `start`. -/
def start (directory : Bool) : State β := { directory := directory }

/-- The owner holds `mu_` between its second check and storing the snapshot. -/
def State.locked (s : State β) : Bool :=
  match s.owner with
  | .checked _ => true
  | _ => false

/-- The snapshot the worker has taken. -/
def Worker.job : Worker β → Option (Pending β)
  | .waiting => none
  | .committing p => some p
  | .failing p => some p
  | .reporting p => some p
  | .exited => none

/-! ## The steps of each thread -/

/-- The first lines of `enqueue_snapshot`: the lane must be attached, running and not failed. -/
def enqueueSnapshot (plain : β) (s : State β) : Option (State β) :=
  if s.owner matches .idle then
    if !s.attached || !s.running || s.failed then some s
    else if s.directory then
      if s.stopping then some s else some { s with owner := .committing plain }
    else some { s with owner := .serializing plain }
  else none

/-- `serialize_plain_index` has succeeded or failed. -/
def serialize (ok : Bool) (s : State β) : Option (State β) :=
  match s.owner with
  | .serializing plain => some { s with owner := if ok then .serialized plain else .idle }
  | _ => none

/-- Taking `mu_`, and the second look at `failed_` and `stopping_`. -/
def recheck (s : State β) : Option (State β) :=
  match s.owner with
  | .serialized plain =>
    some { s with owner := if s.failed || s.stopping then .idle else .checked plain }
  | _ => none

/-- Replacing the snapshot that waits, and releasing `mu_`. -/
def replacePending (s : State β) : Option (State β) :=
  match s.owner with
  | .checked plain =>
    let p : Pending β := ⟨plain, s.nextGen⟩
    some { s with
      owner := .idle
      pending := some p
      nextGen := s.nextGen + 1
      issued := s.issued + 1
      log := s.log ++ [.enqueued p] }
  | _ => none

/-- The end of the transaction of a directory. -/
def commitDirectory (ok : Bool) (s : State β) : Option (State β) :=
  match s.owner with
  | .committing plain =>
    let p : Pending β := ⟨plain, s.issued + 1⟩
    some { s with
      owner := .idle
      failed := s.failed || !ok
      issued := s.issued + 1
      log := s.log ++ [.enqueued p] ++ [if ok then .committed p else .failed p] }
  | _ => none

/-- The worker wakes up and takes the snapshot that waits, or leaves. -/
def takeWork (s : State β) : Option (State β) :=
  match s.worker, s.locked, s.pending with
  | .waiting, false, some p =>
    some { s with worker := .committing p, pending := none, inFlight := true }
  | .waiting, false, none => if s.stopping then some { s with worker := .exited } else none
  | _, _, _ => none

/-- `commit_plain_blob` has succeeded or failed. -/
def commitPlainBlob (ok : Bool) (s : State β) : Option (State β) :=
  match s.worker with
  | .committing p =>
    if ok then some { s with worker := .reporting p, log := s.log ++ [.committed p] }
    else some { s with worker := .failing p, log := s.log ++ [.failed p] }
  | _ => none

/-- The worker sets `failed_`, outside `mu_`. -/
def storeFailed (s : State β) : Option (State β) :=
  match s.worker with
  | .failing p => some { s with worker := .reporting p, failed := true }
  | _ => none

/-- The worker marks its work as done. -/
def markDone (s : State β) : Option (State β) :=
  match s.worker, s.locked with
  | .reporting p, false =>
    some { s with worker := .waiting, inFlight := false, lastWrittenGen := p.generation }
  | _, _ => none

/-- `flush`, from the moment it decides: a lane that runs makes it wait for that. -/
def flush (s : State β) : Option (State β) :=
  if s.locked then none
  else if s.stopping then
    some { s with log := s.log ++ [.flushed (s.pending.isNone && !s.inFlight && !s.failed)] }
  else if (s.pending.isNone && !s.inFlight) || s.failed then
    some { s with log := s.log ++ [.flushed !s.failed] }
  else none

/-- The first half of `stop`. -/
def stop (s : State β) : Option (State β) :=
  if !s.running then some s
  else if s.locked then none
  else some { s with stopping := true }

/-- The second half of `stop`: the thread is joined and the vault let go. -/
def join (s : State β) : Option (State β) :=
  if s.stopping && s.worker matches .exited then
    some { s with running := false, attached := false }
  else none

/-- A step of one of the threads. -/
inductive Action (β : Type)
  | enqueueSnapshot (plain : β)
  | serialize (ok : Bool)
  | recheck
  | replacePending
  | commitDirectory (ok : Bool)
  | takeWork
  | commitPlainBlob (ok : Bool)
  | storeFailed
  | markDone
  | flush
  | stop
  | join
deriving DecidableEq, Repr

def step (s : State β) : Action β → Option (State β)
  | .enqueueSnapshot plain => enqueueSnapshot plain s
  | .serialize ok => serialize ok s
  | .recheck => recheck s
  | .replacePending => replacePending s
  | .commitDirectory ok => commitDirectory ok s
  | .takeWork => takeWork s
  | .commitPlainBlob ok => commitPlainBlob ok s
  | .storeFailed => storeFailed s
  | .markDone => markDone s
  | .flush => flush s
  | .stop => stop s
  | .join => join s

end CommitLane

end SafeVault
