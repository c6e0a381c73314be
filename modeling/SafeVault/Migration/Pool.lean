import Mathlib.Algebra.GroupWithZero.Nat
import Mathlib.Algebra.Ring.Int.Defs
import SafeVault.Lib.History

/-!
# The pool of a migration

A coordinator rewrites records, and then hands items to workers. A worker takes the next index, processes
the item and pushes its result on a bounded queue; the coordinator pops the results and applies them. The
last worker to leave closes the queue, and so does the coordinator when it leaves while there are workers.

A thread that waits sleeps until it is notified. A push notifies the coordinator, a pop one of the workers
that sleep, and closing the queue all of them. An action is one step of one thread between two points
where another can get in between; what an item comes to does not matter here.
-/

namespace SafeVault

namespace MigrationPool

/-- What is to be done: so many items and records to rewrite, and the size of the pool. -/
structure Job where
  items : ℕ
  workers : ℕ
  paths : ℕ := 0

/-- Where a worker is in its loop. -/
inductive Worker where
  /-- There is no thread yet. -/
  | unborn
  | fetching
  /-- It has an index, and has not looked whether there is such an item. -/
  | fetched (i : ℕ)
  /-- Before or after a wait in `push`. -/
  | pushing (i : ℕ)
  | sleeping (i : ℕ)
  /-- Before the notification of `push`. -/
  | pushed
  | leaving
  /-- Before `close` in the last worker. -/
  | closing
  /-- Before the notifications of `close`. -/
  | announcing
  | finished
deriving DecidableEq

/-- Where the coordinator is. -/
inductive Coordinator where
  | rewriting
  | popping
  | sleeping
  /-- Before the notification of `pop`. -/
  | popped (i : ℕ)
  | applying (i : ℕ)
  /-- Before the look at the flag in the loop. -/
  | looking
  | left
  | closing
  | announcing
  | joining
  /-- Before the second look at the flag. -/
  | stamping
  | finished (stamped : Bool)
deriving DecidableEq

structure Pool where
  cancel : Bool := false
  /-- `out.cancelled` -/
  cancelled : Bool := false
  rewritten : ℕ := 0
  next : ℕ := 0
  queue : List ℕ := []
  closed : Bool := false
  activeWorkers : ℕ
  workers : List Worker
  coordinator : Coordinator := .rewriting
  collected : ℕ := 0
  /-- The items that `apply_one` was called with. -/
  applied : List ℕ := []
  /-- The indices that a worker took and made nothing of. -/
  dropped : List ℕ := []
deriving DecidableEq

/-- The coordinator before it rewrites the first record. -/
def start (J : Job) : Pool :=
  { activeWorkers := J.workers, workers := List.replicate J.workers .unborn }

def Job.cap (J : Job) : ℕ := max 2 (J.workers * 2)

/-- `expect`, an `int`. -/
def Job.expect (J : Job) : ℤ := (J.items : ℤ).bmod 0x100000000

/-! ## Waking -/

def Worker.wake : Worker → Worker
  | .sleeping i => .pushing i
  | a => a

def Coordinator.wake : Coordinator → Coordinator
  | .sleeping => .popping
  | c => c

def Worker.asleep : Worker → Bool
  | .sleeping _ => true
  | _ => false

/-- The thread of a worker starts. -/
def Worker.birth : Worker → Worker
  | .unborn => .fetching
  | a => a

/-! ## The steps of a worker -/

section Steps

variable (J : Job)

/-- What a worker does next, with where that leaves it. -/
def advance (a : Worker) (s : Pool) : Option (Worker × Pool) :=
  match a with
  | .unborn => none
  | .fetching => some (.fetched s.next, { s with next := s.next + 1 })
  | .fetched i =>
    if J.items ≤ i || s.cancel then some (.leaving, { s with dropped := s.dropped ++ [i] })
    else some (.pushing i, s)
  | .pushing i =>
    if s.queue.length < J.cap || s.closed then some (.pushed, { s with queue := s.queue ++ [i] })
    else some (.sleeping i, s)
  | .sleeping _ => none
  | .pushed => some (.fetching, { s with coordinator := s.coordinator.wake })
  | .leaving =>
    some (if s.activeWorkers = 1 then .closing else .finished,
      { s with activeWorkers := s.activeWorkers - 1 })
  | .closing => some (.announcing, { s with closed := true })
  | .announcing =>
    some (.finished, { s with
      workers := s.workers.map Worker.wake
      coordinator := s.coordinator.wake })
  | .finished => none

/-- The next step of the `w`-th worker. -/
def work (w : ℕ) (s : Pool) : Option Pool := do
  let a ← s.workers[w]?
  let (b, s) ← advance J a s
  some { s with workers := s.workers.set w b }

/-! ## The steps of the coordinator -/

/-- `notify_one` of `not_full_`: some worker that sleeps is woken, if there is one. -/
def notifyWorker (k : ℕ) (s : Pool) : Option Pool :=
  match s.workers[k]? with
  | some (.sleeping i) => some { s with workers := s.workers.set k (.pushing i) }
  | _ => if s.workers.any Worker.asleep then none else some s

/-- The next step of the coordinator. A worker is chosen to be woken, and whether saving works. -/
def coordinate (k : ℕ) (saved : Bool) (s : Pool) : Option Pool :=
  match s.coordinator with
  | .rewriting =>
    if s.rewritten < J.paths then
      if s.cancel then some { s with cancelled := true, coordinator := .stamping }
      else some { s with rewritten := s.rewritten + 1 }
    else if J.items = 0 then some { s with coordinator := .stamping }
    else some { s with workers := s.workers.map Worker.birth, coordinator := .popping }
  | .popping =>
    if J.expect ≤ s.collected then some { s with coordinator := .left }
    else
      match s.queue with
      | i :: queue => some { s with queue, coordinator := .popped i }
      | [] => some { s with coordinator := if s.closed then .left else .sleeping }
  | .sleeping => none
  | .popped i => notifyWorker k { s with coordinator := .applying i }
  | .applying i =>
    some { s with
      applied := s.applied ++ [i]
      collected := s.collected + 1
      coordinator := .looking }
  | .looking =>
    if s.cancel then some { s with cancelled := true, coordinator := .left }
    else some { s with coordinator := .popping }
  | .left => some { s with coordinator := if 0 < s.activeWorkers then .closing else .joining }
  | .closing => some { s with closed := true, coordinator := .announcing }
  | .announcing => some { s with workers := s.workers.map Worker.wake, coordinator := .joining }
  | .joining => if s.workers.all (· = .finished) then some { s with coordinator := .stamping } else none
  | .stamping =>
    let cancelled := s.cancelled || s.cancel
    some { s with cancelled, coordinator := .finished (!cancelled && saved) }
  | .finished _ => none

/-! ## Runs -/

inductive Action where
  | work (w : ℕ)
  | coordinate (k : ℕ) (saved : Bool)
  /-- The user cancels the migration. -/
  | cancel
  /-- A thread wakes up without being notified. -/
  | wakeWorker (w : ℕ)
  | wakeCoordinator
deriving DecidableEq

def step (s : Pool) : Action → Option Pool
  | .work w => work J w s
  | .coordinate k saved => coordinate J k saved s
  | .cancel => some { s with cancel := true }
  | .wakeWorker w => do
    let a ← s.workers[w]?
    some { s with workers := s.workers.set w a.wake }
  | .wakeCoordinator => some { s with coordinator := s.coordinator.wake }

end Steps

end MigrationPool

end SafeVault
