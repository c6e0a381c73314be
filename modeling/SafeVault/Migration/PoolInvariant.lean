import Mathlib.Data.List.Perm.Basic
import SafeVault.Migration.Pool

/-!
# What the pool keeps

Every index that was taken is in one place: it was applied or dropped, the coordinator or a worker has
it, or it is in the queue. The number of active workers is that of the atomic counter, so the queue is
closed before the coordinator leaves only if no worker will push any more.

The order of the workers does not matter, so the invariant is about any list of them; a step of a worker
is then a step of the first one.
-/

namespace SafeVault

namespace MigrationPool

variable {J : Job} {s t : Pool} {a b : Worker} {ws ws' rest : List Worker}

/-! ## Where the threads are -/

namespace Worker

/-- It has not been taken off the counter. -/
def isActive : Worker → Bool
  | closing | announcing | finished => false
  | _ => true

/-- It has found no item, or the flag set. -/
def hasQuit : Worker → Bool
  | leaving | closing | announcing | finished => true
  | _ => false

/-- The index it has. -/
def held : Worker → List ℕ
  | fetched i | pushing i | sleeping i => [i]
  | _ => []

/-- The item it processes, once it has looked. -/
def accepted : Worker → List ℕ
  | pushing i | sleeping i => [i]
  | _ => []

def isPushing : Worker → Bool
  | pushing _ => true
  | _ => false

end Worker

namespace Coordinator

def held : Coordinator → List ℕ
  | popped i | applying i => [i]
  | _ => []

/-- It is out of the loop. -/
def hasLeft : Coordinator → Bool
  | left | closing | announcing | joining | stamping | finished _ => true
  | _ => false

/-- It is past the point where it closes the queue. -/
def hasClosed : Coordinator → Bool
  | announcing | joining | stamping | finished _ => true
  | _ => false

def hasJoined : Coordinator → Bool
  | stamping | finished _ => true
  | _ => false

/-- It is not in the pool. -/
def outside : Coordinator → Bool
  | rewriting | stamping | finished _ => true
  | _ => false

end Coordinator

/-! ## The invariants -/

/-- Where the indices are that were taken. -/
structure Items (J : Job) (ws : List Worker) (s : Pool) : Prop where
  account : (s.applied ++ s.coordinator.held ++ s.queue ++ ws.flatMap Worker.held ++ s.dropped).Perm
    (List.range s.next)
  dropped : ∀ i ∈ s.dropped, J.items ≤ i ∨ s.cancel = true
  within : ∀ i ∈ s.applied ++ s.coordinator.held ++ s.queue ++ ws.flatMap Worker.accepted, i < J.items
  collected : s.collected = s.applied.length

/-- How far the threads are, and when the queue is closed. -/
structure Threads (J : Job) (ws : List Worker) (s : Pool) : Prop where
  length : ws.length = J.workers
  active : s.activeWorkers = ws.countP Worker.isActive
  last : s.activeWorkers = 0 → s.closed = true ∨ Worker.closing ∈ ws
  lastCloses : Worker.closing ∈ ws → s.activeWorkers = 0
  quit : ∀ a ∈ ws, a.hasQuit = true → J.items ≤ s.next ∨ s.cancel = true
  closedBy : s.closed = true → s.activeWorkers = 0 ∨ s.coordinator.hasClosed = true
  closes : s.coordinator.hasClosed = true → s.coordinator.hasJoined = false →
    s.closed = true ∨ s.activeWorkers = 0
  exit : s.coordinator.hasLeft = true →
    J.expect ≤ s.collected ∨ s.cancelled = true ∨ s.queue = [] ∧ s.activeWorkers = 0
  cancelled : s.cancelled = true → s.cancel = true
  unborn : s.coordinator.outside = false → Worker.unborn ∉ ws
  joined : s.coordinator.hasJoined = true →
    (∀ a ∈ ws, a = .finished) ∨ s.cancelled = true ∧ ∀ a ∈ ws, a = .unborn
  atMost : s.rewritten ≤ J.paths
  rewritten : s.coordinator = .rewriting ∨ s.rewritten = J.paths ∨ s.cancelled = true
  started : s.coordinator = .rewriting → ∀ a ∈ ws, a = .unborn

theorem Items.perm (h : Items J ws s) (hp : ws.Perm ws') : Items J ws' s where
  account := by
    have hheld : (ws'.flatMap Worker.held).Perm (ws.flatMap Worker.held) := (hp.flatMap_right _).symm
    exact (((List.Perm.refl _).append hheld).append_right _).trans h.account
  dropped := h.dropped
  within i hi := by
    have haccepted : (ws'.flatMap Worker.accepted).Perm (ws.flatMap Worker.accepted) :=
      (hp.flatMap_right _).symm
    exact h.within i (((List.Perm.refl _).append haccepted).mem_iff.mp hi)
  collected := h.collected

theorem Threads.perm (h : Threads J ws s) (hp : ws.Perm ws') : Threads J ws' s where
  length := hp.length_eq.symm.trans h.length
  active := h.active.trans (hp.countP_eq _)
  last h0 := (h.last h0).imp_right hp.mem_iff.mp
  lastCloses hc := h.lastCloses (hp.mem_iff.mpr hc)
  quit a ha := h.quit a (hp.mem_iff.mpr ha)
  closedBy := h.closedBy
  closes := h.closes
  exit := h.exit
  cancelled := h.cancelled
  unborn ho ha := h.unborn ho (hp.mem_iff.mpr ha)
  joined hj := (h.joined hj).imp (fun hall a ha ↦ hall a (hp.mem_iff.mpr ha))
    fun hall ↦ ⟨hall.1, fun a ha ↦ hall.2 a (hp.mem_iff.mpr ha)⟩
  atMost := h.atMost
  rewritten := h.rewritten
  started hr a ha := h.started hr a (hp.mem_iff.mpr ha)

theorem eq_unborn_of_mem_start (ha : a ∈ (start J).workers) : a = .unborn := List.eq_of_mem_replicate ha

theorem items_start (J : Job) : Items J (start J).workers (start J) := by
  have hnothing (f : Worker → List ℕ) (hf : f .unborn = []) : (start J).workers.flatMap f = [] := by
    rw [List.flatMap_eq_nil_iff]
    exact fun a ha ↦ eq_unborn_of_mem_start ha ▸ hf
  refine ⟨?_, nofun, ?_, rfl⟩
  · rw [hnothing _ rfl]
    exact .refl _
  · rw [hnothing _ rfl]
    nofun

theorem threads_start (hW : 0 < J.workers) : Threads J (start J).workers (start J) := by
  refine ⟨List.length_replicate, ?_, fun h ↦ absurd h (Nat.pos_iff_ne_zero.mp hW),
    fun hc ↦ absurd (eq_unborn_of_mem_start hc) nofun, fun a ha hq ↦ ?_, nofun, nofun, nofun, nofun, nofun, nofun,
    Nat.zero_le _, .inl rfl, fun _ a ha ↦ eq_unborn_of_mem_start ha⟩
  · exact (List.countP_replicate.trans (if_pos rfl)).symm
  · rw [eq_unborn_of_mem_start ha] at hq
    cases hq

/-! ## A step of a worker -/

/-- A worker that is at work is inside the pool. -/
theorem Threads.inside (h : Threads J (a :: rest) s) (hunborn : a ≠ .unborn) (hfinished : a ≠ .finished) :
    s.coordinator.hasJoined = false ∧ s.coordinator ≠ .rewriting := by
  constructor
  · by_contra hj
    rcases h.joined ((Bool.not_eq_false _).mp hj) with hall | ⟨-, hall⟩
    · exact hfinished (hall a List.mem_cons_self)
    · exact hunborn (hall a List.mem_cons_self)
  · exact fun hr ↦ hunborn (h.started hr a List.mem_cons_self)

theorem Threads.active_pos (h : Threads J (a :: rest) s) (ha : a.isActive = true) :
    s.activeWorkers = rest.countP Worker.isActive + 1 := by
  rw [h.active, List.countP_cons, if_pos ha]

/-- **An active worker** goes on, and stays active. -/
theorem Threads.move (h : Threads J (a :: rest) s) (ha : a.isActive = true) (hunborn : a ≠ .unborn)
    (hb : b.isActive = true) (hborn : b ≠ .unborn) {next : ℕ} {queue dropped : List ℕ}
    (hnext : s.next ≤ next) (hquit : b.hasQuit = true → J.items ≤ next ∨ s.cancel = true) :
    Threads J (b :: rest) { s with next, queue, dropped } := by
  have hpos := h.active_pos ha
  have hfinished : a ≠ .finished := by
    rintro rfl
    cases ha
  obtain ⟨hjoined, hrewriting⟩ := h.inside hunborn hfinished
  have hlast : Worker.closing ∉ rest := fun hc ↦ by
    have h0 := h.lastCloses (List.mem_cons_of_mem _ hc)
    omega
  refine ⟨h.length, ?_, fun h0 ↦ ?_, fun hc ↦ absurd ((List.mem_cons.mp hc).resolve_left ?_) hlast,
    List.forall_mem_cons.mpr ⟨hquit, fun c hc hq ↦ ?_⟩, h.closedBy,
    h.closes, fun hl ↦ ?_, h.cancelled, fun ho hmem ↦ ?_, fun hj ↦ ?_, h.atMost,
    h.rewritten, fun hr ↦ absurd hr hrewriting⟩
  · rw [List.countP_cons, if_pos hb]
    exact hpos
  · dsimp only at h0
    omega
  · rintro rfl
    cases hb
  · exact (h.quit c (List.mem_cons_of_mem _ hc) hq).imp_left fun hle ↦ Nat.le_trans hle hnext
  · refine (h.exit hl).imp_right fun hout ↦ hout.imp_right fun hempty ↦ ?_
    omega
  · exact h.unborn ho (List.mem_cons_of_mem _ ((List.mem_cons.mp hmem).resolve_left hborn.symm))
  · exact absurd (hjoined.symm.trans hj) Bool.false_ne_true

/-- A worker leaves; the last one is still to close the queue. -/
theorem Threads.leave (h : Threads J (.leaving :: rest) s) :
    Threads J ((if s.activeWorkers = 1 then .closing else .finished) :: rest)
      { s with activeWorkers := s.activeWorkers - 1 } := by
  have hpos := h.active_pos rfl
  obtain ⟨hjoined, hrewriting⟩ := h.inside nofun nofun
  have hquitting := h.quit .leaving List.mem_cons_self rfl
  have hnot : (if s.activeWorkers = 1 then Worker.closing else .finished).isActive = false := by
    split_ifs <;> rfl
  refine ⟨h.length, ?_, fun h0 ↦ ?_, fun hc ↦ ?_, List.forall_mem_cons.mpr ⟨fun _ ↦ hquitting,
    fun c hc ↦ h.quit c (List.mem_cons_of_mem _ hc)⟩, fun hc ↦ ?_, fun hc hj ↦ ?_, fun hl ↦ ?_, h.cancelled,
    fun ho hmem ↦ ?_, fun hj ↦ ?_, h.atMost, h.rewritten, fun hr ↦ absurd hr hrewriting⟩
  · rw [List.countP_cons, if_neg (by rw [hnot]; exact Bool.false_ne_true), Nat.add_zero]
    dsimp only
    omega
  · right
    dsimp only at h0
    rw [if_pos (by omega)]
    exact List.mem_cons_self
  · dsimp only
    rcases List.mem_cons.mp hc with hc | hc
    · split_ifs at hc with h1
      omega
    · have h0 := h.lastCloses (List.mem_cons_of_mem _ hc)
      omega
  · exact (h.closedBy hc).imp_left fun h0 ↦ by omega
  · exact (h.closes hc hj).imp_right fun h0 ↦ by omega
  · refine (h.exit hl).imp_right fun hout ↦ hout.imp_right fun hempty ↦ ?_
    omega
  · refine h.unborn ho (List.mem_cons_of_mem _ ((List.mem_cons.mp hmem).resolve_left ?_))
    split_ifs <;> exact nofun
  · exact absurd (hjoined.symm.trans hj) Bool.false_ne_true

/-- The last worker closes the queue. -/
theorem Threads.close (h : Threads J (.closing :: rest) s) :
    Threads J (.announcing :: rest) { s with closed := true } := by
  have hlast := h.lastCloses List.mem_cons_self
  obtain ⟨hjoined, hrewriting⟩ := h.inside nofun nofun
  refine ⟨h.length, h.active, fun _ ↦ .inl rfl, fun _ ↦ hlast, List.forall_mem_cons.mpr
    ⟨fun _ ↦ h.quit .closing List.mem_cons_self rfl, fun c hc ↦ h.quit c (List.mem_cons_of_mem _ hc)⟩,
    fun _ ↦ .inl hlast, fun _ _ ↦ .inl rfl, h.exit, h.cancelled, fun ho hmem ↦ ?_, fun hj ↦ ?_,
    h.atMost, h.rewritten, fun hr ↦ absurd hr hrewriting⟩
  · exact h.unborn ho (List.mem_cons_of_mem _ ((List.mem_cons.mp hmem).resolve_left nofun))
  · exact absurd (hjoined.symm.trans hj) Bool.false_ne_true

theorem Threads.finish (h : Threads J (.announcing :: rest) s) : Threads J (.finished :: rest) s := by
  obtain ⟨hjoined, hrewriting⟩ := h.inside nofun nofun
  refine ⟨h.length, h.active, fun h0 ↦ ?_, fun hc ↦ ?_, List.forall_mem_cons.mpr
    ⟨fun _ ↦ h.quit .announcing List.mem_cons_self rfl,
      fun c hc ↦ h.quit c (List.mem_cons_of_mem _ hc)⟩,
    h.closedBy, h.closes, h.exit, h.cancelled, fun ho hmem ↦ ?_, fun hj ↦ ?_, h.atMost,
    h.rewritten, fun hr ↦ absurd hr hrewriting⟩
  · rcases h.last h0 with hc | hc
    · exact .inl hc
    · exact .inr (List.mem_cons_of_mem _ ((List.mem_cons.mp hc).resolve_left nofun))
  · exact h.lastCloses (List.mem_cons_of_mem _ ((List.mem_cons.mp hc).resolve_left nofun))
  · exact h.unborn ho (List.mem_cons_of_mem _ ((List.mem_cons.mp hmem).resolve_left nofun))
  · exact absurd (hjoined.symm.trans hj) Bool.false_ne_true

/-! ## Waking -/

namespace Worker

variable (a : Worker)

@[simp] theorem isActive_wake : a.wake.isActive = a.isActive := by rcases a <;> rfl

@[simp] theorem hasQuit_wake : a.wake.hasQuit = a.hasQuit := by rcases a <;> rfl

@[simp] theorem held_wake : a.wake.held = a.held := by rcases a <;> rfl

@[simp] theorem accepted_wake : a.wake.accepted = a.accepted := by rcases a <;> rfl

/-- Only a worker that sleeps is changed. -/
theorem wake_eq_of_not_pushing (hb : b.isPushing = false) : a.wake = b ↔ a = b ∧ a.asleep = false := by
  rcases a <;> rcases b <;> simp_all [wake, asleep, isPushing]

end Worker

namespace Coordinator

variable (c : Coordinator)

@[simp] theorem held_wake : c.wake.held = c.held := by rcases c <;> rfl

@[simp] theorem hasLeft_wake : c.wake.hasLeft = c.hasLeft := by rcases c <;> rfl

@[simp] theorem hasClosed_wake : c.wake.hasClosed = c.hasClosed := by rcases c <;> rfl

@[simp] theorem hasJoined_wake : c.wake.hasJoined = c.hasJoined := by rcases c <;> rfl

@[simp] theorem outside_wake : c.wake.outside = c.outside := by rcases c <;> rfl

theorem wake_eq_rewriting : c.wake = rewriting ↔ c = rewriting := by
  rcases c <;> simp [wake]

end Coordinator

theorem flatMap_map_wake {f : Worker → List ℕ} (hf : ∀ a, f a.wake = f a) :
    (ws.map Worker.wake).flatMap f = ws.flatMap f := by
  rw [List.flatMap_map]
  exact congrArg (ws.flatMap ·) (funext hf)

/-- Waking workers changes nothing that the invariants read. -/
theorem Items.wakeWorkers (h : Items J ws s) : Items J (ws.map Worker.wake) s where
  account := by
    rw [flatMap_map_wake Worker.held_wake]
    exact h.account
  dropped := h.dropped
  within := by
    rw [flatMap_map_wake Worker.accepted_wake]
    exact h.within
  collected := h.collected

theorem mem_map_wake (hb : b.isPushing = false) (hmem : b ∈ ws.map Worker.wake) : b ∈ ws := by
  obtain ⟨a, ha, hwake⟩ := List.mem_map.mp hmem
  exact ((Worker.wake_eq_of_not_pushing a hb).mp hwake).1 ▸ ha

theorem mem_map_wake_of (hb : b.asleep = false) (hmem : b ∈ ws) : b ∈ ws.map Worker.wake := by
  refine List.mem_map.mpr ⟨b, hmem, ?_⟩
  rcases b <;> first | rfl | cases hb

theorem Threads.wakeWorkers (h : Threads J ws s) : Threads J (ws.map Worker.wake) s where
  length := (List.length_map _).trans h.length
  active := by
    rw [List.countP_map, h.active]
    exact congrArg (ws.countP ·) (funext fun a ↦ (Worker.isActive_wake a).symm)
  last h0 := (h.last h0).imp_right (mem_map_wake_of rfl)
  lastCloses hc := h.lastCloses (mem_map_wake rfl hc)
  quit b hb hq := by
    obtain ⟨a, ha, rfl⟩ := List.mem_map.mp hb
    exact h.quit a ha (Worker.hasQuit_wake a ▸ hq)
  closedBy := h.closedBy
  closes := h.closes
  exit := h.exit
  cancelled := h.cancelled
  unborn ho hmem := h.unborn ho (mem_map_wake rfl hmem)
  joined hj := by
    refine (h.joined hj).imp (fun hall b hb ↦ ?_) fun ⟨hc, hall⟩ ↦ ⟨hc, fun b hb ↦ ?_⟩
    all_goals
      obtain ⟨a, ha, rfl⟩ := List.mem_map.mp hb
      rw [hall a ha]
      rfl
  atMost := h.atMost
  rewritten := h.rewritten
  started hr b hb := by
    obtain ⟨a, ha, rfl⟩ := List.mem_map.mp hb
    rw [h.started hr a ha]
    rfl

theorem Items.wakeCoordinator (h : Items J ws s) :
    Items J ws { s with coordinator := s.coordinator.wake } := by
  refine ⟨?_, h.dropped, ?_, h.collected⟩
  · rw [Coordinator.held_wake]
    exact h.account
  · rw [Coordinator.held_wake]
    exact h.within

theorem Threads.wakeCoordinator (h : Threads J ws s) :
    Threads J ws { s with coordinator := s.coordinator.wake } := by
  refine ⟨h.length, h.active, h.last, h.lastCloses, h.quit, ?_, ?_, ?_, h.cancelled, ?_, ?_, h.atMost,
    ?_, ?_⟩
  all_goals simp only [Coordinator.hasClosed_wake, Coordinator.hasLeft_wake, Coordinator.outside_wake,
    Coordinator.hasJoined_wake, Coordinator.wake_eq_rewriting]
  exacts [h.closedBy, h.closes, h.exit, h.unborn, h.joined, h.rewritten, h.started]

/-! ## The items of a worker -/

theorem Items.fetch (h : Items J (.fetching :: rest) s) :
    Items J (.fetched s.next :: rest) { s with next := s.next + 1 } := by
  refine ⟨?_, h.dropped, h.within, h.collected⟩
  have haccount := h.account
  rw [List.range_succ]
  refine List.Perm.trans ?_ (haccount.append_right [s.next])
  rw [List.flatMap_cons, List.flatMap_cons]
  simp only [Worker.held, List.nil_append, List.append_assoc, List.singleton_append]
  refine (List.Perm.refl _).append ((List.Perm.refl _).append ((List.Perm.refl _).append ?_))
  rw [← List.append_assoc]
  exact (List.perm_append_singleton _ _).symm

/-- An index with which there is no item to process. -/
theorem Items.drop {i : ℕ} (h : Items J (.fetched i :: rest) s)
    (hquit : J.items ≤ i ∨ s.cancel = true) :
    Items J (.leaving :: rest) { s with dropped := s.dropped ++ [i] } := by
  refine ⟨?_, fun k hk ↦ ?_, h.within, h.collected⟩
  · refine List.Perm.trans ?_ h.account
    rw [List.flatMap_cons, List.flatMap_cons]
    simp only [Worker.held, List.nil_append, List.append_assoc, List.singleton_append]
    refine (List.Perm.refl _).append ((List.Perm.refl _).append ((List.Perm.refl _).append ?_))
    rw [← List.append_assoc]
    exact List.perm_append_singleton _ _
  · rcases List.mem_append.mp hk with hk | hk
    · exact h.dropped k hk
    · exact List.mem_singleton.mp hk ▸ hquit

theorem Items.accept {i : ℕ} (h : Items J (.fetched i :: rest) s) (hi : i < J.items) :
    Items J (.pushing i :: rest) s := by
  refine ⟨h.account, h.dropped, fun k hk ↦ ?_, h.collected⟩
  rw [List.flatMap_cons, ← List.append_assoc, List.mem_append] at hk
  rcases hk with hk | hk
  · rcases List.mem_append.mp hk with hk | hk
    · exact h.within k (List.mem_append_left _ hk)
    · exact List.mem_singleton.mp hk ▸ hi
  · exact h.within k (List.mem_append_right _ hk)

theorem Items.push {i : ℕ} (h : Items J (.pushing i :: rest) s) :
    Items J (.pushed :: rest) { s with queue := s.queue ++ [i] } := by
  have hmoved (f : Worker → List ℕ) (hi : f (.pushing i) = [i]) (hnil : f .pushed = [])
      (xs ys : List ℕ) : xs ++ (s.queue ++ [i]) ++ (Worker.pushed :: rest).flatMap f ++ ys =
        xs ++ s.queue ++ (Worker.pushing i :: rest).flatMap f ++ ys := by
    rw [List.flatMap_cons, List.flatMap_cons, hi, hnil]
    simp only [List.append_assoc, List.nil_append]
  have hwithin := hmoved Worker.accepted rfl rfl (s.applied ++ s.coordinator.held) []
  rw [List.append_nil, List.append_nil] at hwithin
  refine ⟨?_, h.dropped, fun k hk ↦ h.within k (hwithin ▸ hk), h.collected⟩
  dsimp only
  rw [hmoved Worker.held rfl rfl]
  exact h.account

/-- A worker with the same index. -/
theorem Items.same (h : Items J (a :: rest) s) (hheld : b.held = a.held)
    (haccepted : b.accepted = a.accepted) : Items J (b :: rest) s := by
  refine ⟨?_, h.dropped, ?_, h.collected⟩
  · rw [List.flatMap_cons, hheld, ← List.flatMap_cons]
    exact h.account
  · rw [List.flatMap_cons, haccepted, ← List.flatMap_cons]
    exact h.within

/-! ## Every step of a worker -/

/-- The invariants of the pool, without those of waiting. -/
structure Inv (J : Job) (ws : List Worker) (s : Pool) : Prop where
  items : Items J ws s
  threads : Threads J ws s

theorem Inv.perm (h : Inv J ws s) (hp : ws.Perm ws') : Inv J ws' s :=
  ⟨h.items.perm hp, h.threads.perm hp⟩

theorem Items.congr (h : Items J ws s) (happlied : t.applied = s.applied)
    (hheld : t.coordinator.held = s.coordinator.held) (hqueue : t.queue = s.queue)
    (hdropped : t.dropped = s.dropped) (hnext : t.next = s.next)
    (hcancel : s.cancel = true → t.cancel = true) (hcollected : t.collected = s.collected) :
    Items J ws t := by
  refine ⟨?_, fun i hi ↦ (h.dropped i (hdropped ▸ hi)).imp_right hcancel, ?_, ?_⟩
  · rw [happlied, hheld, hqueue, hdropped, hnext]
    exact h.account
  · rw [happlied, hheld, hqueue]
    exact h.within
  · rw [happlied, hcollected]
    exact h.collected

theorem Threads.congr (h : Threads J ws s) (hactive : t.activeWorkers = s.activeWorkers)
    (hclosed : t.closed = s.closed) (hnext : t.next = s.next) (hcancel : t.cancel = s.cancel)
    (hcoordinator : t.coordinator = s.coordinator) (hcollected : t.collected = s.collected)
    (hcancelled : t.cancelled = s.cancelled) (hqueue : t.queue = s.queue)
    (hrewritten : t.rewritten = s.rewritten) : Threads J ws t := by
  obtain ⟨hlength, hrest⟩ := h
  refine ⟨hlength, ?_, ?_, ?_, ?_, ?_, ?_, ?_, ?_, ?_, ?_, ?_, ?_, ?_⟩
  all_goals simp only [hactive, hclosed, hnext, hcancel, hcoordinator, hcollected, hcancelled, hqueue,
    hrewritten]
  all_goals assumption

/-- The other workers are as they were, or they were woken. -/
theorem inv_advance (h : Inv J (a :: rest) s) (hadv : advance J a s = some (b, t)) :
    (t.workers = s.workers ∧ Inv J (b :: rest) t) ∨
      t.workers = s.workers.map Worker.wake ∧ Inv J (b :: rest.map Worker.wake) t := by
  obtain ⟨hitems, hthreads⟩ := h
  rcases a with _ | _ | i | i | i | _ | _ | _ | _ | _
  all_goals rw [advance] at hadv
  · cases hadv
  · obtain ⟨rfl, rfl⟩ := Prod.mk.inj (Option.some.inj hadv)
    exact .inl ⟨rfl, hitems.fetch, hthreads.move rfl nofun rfl (by exact nofun) (Nat.le_succ _) (by exact nofun)⟩
  · split_ifs at hadv with hquit
    all_goals obtain ⟨rfl, rfl⟩ := Prod.mk.inj (Option.some.inj hadv)
    · rw [Bool.or_eq_true, decide_eq_true_eq] at hquit
      have hi : i < s.next := by
        refine List.mem_range.mp (hitems.account.mem_iff.mp ?_)
        simp [Worker.held]
      refine .inl ⟨rfl, hitems.drop hquit, hthreads.move rfl nofun rfl (by exact nofun) le_rfl fun _ ↦ ?_⟩
      exact hquit.imp_left fun hle ↦ Nat.le_trans hle (Nat.le_of_lt hi)
    · rw [Bool.or_eq_true, decide_eq_true_eq, not_or, Nat.not_le] at hquit
      exact .inl ⟨rfl, hitems.accept hquit.1, hthreads.move rfl nofun rfl (by exact nofun) le_rfl (by exact nofun)⟩
  · split_ifs at hadv
    all_goals obtain ⟨rfl, rfl⟩ := Prod.mk.inj (Option.some.inj hadv)
    · exact .inl ⟨rfl, hitems.push, hthreads.move rfl nofun rfl (by exact nofun) le_rfl (by exact nofun)⟩
    · exact .inl ⟨rfl, hitems.same rfl rfl, hthreads.move rfl nofun rfl (by exact nofun) le_rfl (by exact nofun)⟩
  · cases hadv
  · obtain ⟨rfl, rfl⟩ := Prod.mk.inj (Option.some.inj hadv)
    have hmoved : Threads J (.fetching :: rest) s :=
      hthreads.move rfl nofun rfl (by exact nofun) le_rfl (by exact nofun)
    exact .inl ⟨rfl, (hitems.same (b := .fetching) rfl rfl).wakeCoordinator, hmoved.wakeCoordinator⟩
  · obtain ⟨rfl, rfl⟩ := Prod.mk.inj (Option.some.inj hadv)
    refine .inl ⟨rfl, ?_, hthreads.leave⟩
    exact (hitems.same (by split_ifs <;> rfl) (by split_ifs <;> rfl)).congr rfl rfl rfl rfl rfl id rfl
  · obtain ⟨rfl, rfl⟩ := Prod.mk.inj (Option.some.inj hadv)
    exact .inl ⟨rfl, (hitems.same (b := .announcing) rfl rfl).congr rfl rfl rfl rfl rfl id rfl,
      hthreads.close⟩
  · obtain ⟨rfl, rfl⟩ := Prod.mk.inj (Option.some.inj hadv)
    have hwoken := (hitems.same (b := .finished) rfl rfl).wakeWorkers.wakeCoordinator
    exact .inr ⟨rfl, hwoken.congr rfl rfl rfl rfl rfl id rfl,
      hthreads.finish.wakeWorkers.wakeCoordinator.congr rfl rfl rfl rfl rfl rfl rfl rfl rfl⟩
  · cases hadv

/-! ## The steps of the coordinator -/

/-- The coordinator goes from one point to another in the pool, or out of its loop. -/
theorem Threads.go (h : Threads J ws s) {c : Coordinator} {queue applied : List ℕ} {collected : ℕ}
    (hinside : s.coordinator.outside = false) (hout : c.outside = false)
    (hexit : c.hasLeft = true → J.expect ≤ collected ∨ s.cancelled = true ∨ queue = [] ∧ s.activeWorkers = 0)
    (hcloses : c.hasClosed = true → s.closed = true ∨ s.activeWorkers = 0)
    (hback : s.coordinator.hasClosed = true → c.hasClosed = true) :
    Threads J ws { s with coordinator := c, queue, applied, collected } := by
  have hjoined : c.hasJoined = false := by
    rcases c <;> first | rfl | cases hout
  have hrewriting : c ≠ .rewriting := by
    rintro rfl
    cases hout
  have hbefore : s.coordinator ≠ .rewriting := by
    intro hr
    rw [hr] at hinside
    cases hinside
  exact ⟨h.length, h.active, h.last, h.lastCloses, h.quit, fun hc ↦ (h.closedBy hc).imp_right hback,
    fun hc _ ↦ hcloses hc, hexit, h.cancelled, fun _ ↦ h.unborn hinside,
    fun hj ↦ absurd (hjoined.symm.trans hj) Bool.false_ne_true, h.atMost,
    .inr (h.rewritten.resolve_left hbefore), fun hr ↦ absurd hr hrewriting⟩

theorem Threads.setCancelled (h : Threads J ws s) (hcancel : s.cancel = true) :
    Threads J ws { s with cancelled := true } :=
  ⟨h.length, h.active, h.last, h.lastCloses, h.quit, h.closedBy,
    h.closes, fun _ ↦ .inr (.inl rfl), fun _ ↦ hcancel, h.unborn,
    fun hj ↦ (h.joined hj).imp_right fun hall ↦ ⟨rfl, hall.2⟩, h.atMost,
    .inr (.inr rfl), h.started⟩

theorem inv_rewriting (h : Inv J s.workers s) (hN : 0 < J.items) {k : ℕ} {saved : Bool}
    (hat : s.coordinator = .rewriting) (hstep : coordinate J k saved s = some t) : Inv J t.workers t := by
  obtain ⟨hitems, hthreads⟩ := h
  have hunborn := hthreads.started hat
  have hheld : s.coordinator.held = [] := by rw [hat]; rfl
  rw [coordinate, hat] at hstep
  dsimp only at hstep
  split_ifs at hstep with hmore hcancel hnone
  all_goals obtain rfl := Option.some.inj hstep
  · refine ⟨hitems.congr rfl hheld.symm rfl rfl rfl id rfl, ?_⟩
    have hclosed (hc : s.closed = true) : s.activeWorkers = 0 := by
      refine (hthreads.closedBy hc).resolve_right fun hc' ↦ ?_
      rw [hat] at hc'
      cases hc'
    exact ⟨hthreads.length, hthreads.active, hthreads.last, hthreads.lastCloses, hthreads.quit,
      fun hc ↦ .inl (hclosed hc), fun _ ↦ nofun, fun _ ↦ .inr (.inl rfl), fun _ ↦ hcancel,
      fun ho ↦ absurd ho nofun, fun _ ↦ .inr ⟨rfl, hunborn⟩, hthreads.atMost, .inr (.inr rfl), nofun⟩
  · rw [← hat]
    refine ⟨hitems.congr rfl rfl rfl rfl rfl id rfl, ?_⟩
    exact ⟨hthreads.length, hthreads.active, hthreads.last, hthreads.lastCloses, hthreads.quit,
      hthreads.closedBy, hthreads.closes, hthreads.exit, hthreads.cancelled, hthreads.unborn,
      hthreads.joined, hmore, .inl hat, hthreads.started⟩
  · exact absurd hnone (Nat.pos_iff_ne_zero.mp hN)
  · -- the threads of the workers start
    have hborn : ∀ b ∈ s.workers.map Worker.birth, b = .fetching := by
      intro b hb
      obtain ⟨a, ha, rfl⟩ := List.mem_map.mp hb
      rw [hunborn a ha]
      rfl
    have hsame {β : Type} (f : Worker → β) (hf : f .fetching = f .unborn) :
        (s.workers.map Worker.birth).map f = s.workers.map f := by
      rw [List.map_map]
      refine List.map_congr_left fun a ha ↦ ?_
      rw [Function.comp_apply, hunborn a ha]
      exact hf
    have hflat (f : Worker → List ℕ) (hf : f .fetching = f .unborn) :
        (s.workers.map Worker.birth).flatMap f = s.workers.flatMap f := by
      rw [List.flatMap_def, hsame f hf, List.flatMap_def]
    refine ⟨⟨?_, hitems.dropped, ?_, hitems.collected⟩, ?_⟩
    · rw [hflat _ rfl]
      have haccount := hitems.account
      rw [hheld] at haccount
      exact haccount
    · rw [hflat _ rfl]
      have hwithin := hitems.within
      rw [hheld] at hwithin
      exact hwithin
    · have hclosed (hc : s.closed = true) : s.activeWorkers = 0 := by
        refine (hthreads.closedBy hc).resolve_right fun hc' ↦ ?_
        rw [hat] at hc'
        cases hc'
      refine ⟨(List.length_map _).trans hthreads.length, ?_, fun h0 ↦ ?_, fun hc ↦ ?_, fun b hb hq ↦ ?_,
        fun hc ↦ .inl (hclosed hc), nofun, nofun, hthreads.cancelled, fun _ hb ↦ ?_, nofun,
        hthreads.atMost, .inr (.inl (Nat.le_antisymm hthreads.atMost (Nat.not_lt.mp hmore))), nofun⟩
      · rw [hthreads.active, List.countP_eq_length.mpr, List.countP_eq_length.mpr, List.length_map]
        · exact fun b hb ↦ hborn b hb ▸ rfl
        · exact fun b hb ↦ hunborn b hb ▸ rfl
      · refine (hthreads.last h0).imp_right fun hc ↦ ?_
        exact absurd (hunborn _ hc) nofun
      · exact absurd (hborn _ hc) nofun
      · rw [hborn b hb] at hq
        cases hq
      · exact absurd (hborn _ hb) nofun

theorem exists_perm_set {w : ℕ} (ha : ws[w]? = some a) :
    ∃ rest, ws.Perm (a :: rest) ∧ ∀ f : Worker → Worker, ∀ b,
      ((ws.map f).set w b).Perm (b :: rest.map f) := by
  obtain ⟨hw, rfl⟩ := List.getElem?_eq_some_iff.mp ha
  refine ⟨ws.eraseIdx w, (List.getElem_cons_eraseIdx_perm hw).symm, fun f b ↦ ?_⟩
  rw [← List.eraseIdx_map]
  exact List.set_perm_cons_eraseIdx (by rw [List.length_map]; exact hw) b

/-- The list of the workers itself is not read. -/
theorem Inv.setWorkers (h : Inv J ws s) (ws' : List Worker) : Inv J ws { s with workers := ws' } :=
  ⟨h.items.congr rfl rfl rfl rfl rfl id rfl, h.threads.congr rfl rfl rfl rfl rfl rfl rfl rfl rfl⟩

/-- A worker that sleeps is woken, or one that does not is as it was. -/
theorem inv_wake (h : Inv J s.workers s) {w : ℕ} (ha : s.workers[w]? = some a) :
    Inv J (s.workers.set w a.wake) { s with workers := s.workers.set w a.wake } := by
  obtain ⟨rest, hperm, hset⟩ := exists_perm_set ha
  have hafter := hset id a.wake
  rw [List.map_id, List.map_id] at hafter
  have hbefore := h.perm hperm
  refine Inv.setWorkers (Inv.perm ⟨?_, ?_⟩ hafter.symm) _
  · exact hbefore.items.same (Worker.held_wake a) (Worker.accepted_wake a)
  · rcases a with _ | _ | _ | _ | i | _ | _ | _ | _ | _
    case sleeping =>
      have hmoved : Threads J (.pushing i :: rest) s :=
        hbefore.threads.move rfl nofun rfl (by exact nofun) le_rfl (by exact nofun)
      exact hmoved
    all_goals exact hbefore.threads

theorem inv_notifyWorker (h : Inv J s.workers s) {k : ℕ} (hstep : notifyWorker k s = some t) :
    Inv J t.workers t := by
  rw [notifyWorker] at hstep
  split at hstep
  · next i ha =>
    obtain rfl := Option.some.inj hstep
    exact inv_wake h ha
  · split_ifs at hstep
    exact Option.some.inj hstep ▸ h

/-- A step of the coordinator in the pool. -/
theorem inv_coordinate_inside (h : Inv J s.workers s) {k : ℕ} {saved : Bool}
    (hinside : s.coordinator.outside = false) (hnot : s.coordinator ≠ .joining)
    (hstep : coordinate J k saved s = some t) : Inv J t.workers t := by
  obtain ⟨hitems, hthreads⟩ := h
  have hclosed (hc : s.closed = true) (hopen : s.coordinator.hasClosed = false) : s.activeWorkers = 0 :=
    (hthreads.closedBy hc).resolve_right fun hc' ↦ Bool.false_ne_true (hopen.symm.trans hc')
  rcases hat : s.coordinator with _ | _ | _ | i | i | _ | _ | _ | _ | _ | _ | _
  case rewriting | stamping | finished => cases hat ▸ hinside
  case joining => exact absurd hat hnot
  case sleeping =>
    rw [coordinate, hat] at hstep
    cases hstep
  case popping =>
    rw [coordinate, hat] at hstep
    dsimp only at hstep
    have hheld : s.coordinator.held = [] := by rw [hat]; rfl
    by_cases hle : J.expect ≤ s.collected
    · rw [if_pos hle] at hstep
      obtain rfl := Option.some.inj hstep
      exact ⟨hitems.congr rfl hheld.symm rfl rfl rfl id rfl,
        hthreads.go hinside rfl (fun _ ↦ .inl hle) (by exact nofun) (by rw [hat]; exact nofun)⟩
    · rw [if_neg hle] at hstep
      rcases hq : s.queue with _ | ⟨i, queue⟩
      all_goals
        rw [hq] at hstep
        obtain rfl := Option.some.inj hstep
      · rw [← hq]
        by_cases hc : s.closed = true
        · rw [if_pos hc]
          refine ⟨hitems.congr rfl hheld.symm rfl rfl rfl id rfl, hthreads.go hinside rfl
            (fun _ ↦ .inr (.inr ⟨hq, hclosed hc (by rw [hat]; rfl)⟩)) (by exact nofun)
            (by rw [hat]; exact nofun)⟩
        · rw [if_neg hc]
          exact ⟨hitems.congr rfl hheld.symm rfl rfl rfl id rfl,
            hthreads.go hinside rfl (by exact nofun) (by exact nofun) (by rw [hat]; exact nofun)⟩
      · have hmoved : s.applied ++ (Coordinator.popped i).held ++ queue =
            s.applied ++ s.coordinator.held ++ s.queue := by
          rw [hheld, hq]
          simp [Coordinator.held]
        refine ⟨⟨?_, hitems.dropped, ?_, hitems.collected⟩,
          hthreads.go hinside rfl (by exact nofun) (by exact nofun) (by rw [hat]; exact nofun)⟩
        · dsimp only
          rw [hmoved]
          exact hitems.account
        · dsimp only
          rw [hmoved]
          exact hitems.within
  case popped =>
    rw [coordinate, hat] at hstep
    dsimp only at hstep
    have happlying : Inv J s.workers { s with coordinator := .applying i } := by
      refine ⟨hitems.congr rfl ?_ rfl rfl rfl id rfl, ?_⟩
      · rw [hat]
        rfl
      · exact hthreads.go hinside rfl (by exact nofun) (by exact nofun) (by rw [hat]; exact nofun)
    exact inv_notifyWorker happlying hstep
  case applying =>
    rw [coordinate, hat] at hstep
    obtain rfl := Option.some.inj hstep
    have hmoved : s.applied ++ [i] ++ Coordinator.looking.held ++ s.queue =
        s.applied ++ s.coordinator.held ++ s.queue := by
      rw [hat]
      simp [Coordinator.held]
    refine ⟨⟨?_, hitems.dropped, ?_, ?_⟩,
      hthreads.go hinside rfl (by exact nofun) (by exact nofun) (by rw [hat]; exact nofun)⟩
    · dsimp only
      rw [hmoved]
      exact hitems.account
    · dsimp only
      rw [hmoved]
      exact hitems.within
    · dsimp only
      rw [List.length_append, hitems.collected]
      rfl
  case looking =>
    rw [coordinate, hat] at hstep
    dsimp only at hstep
    have hheld : s.coordinator.held = [] := by rw [hat]; rfl
    split_ifs at hstep with hcancel
    all_goals obtain rfl := Option.some.inj hstep
    · have hout : Threads J s.workers { s with cancelled := true, coordinator := .left } :=
        (hthreads.setCancelled hcancel).go hinside rfl (fun _ ↦ .inr (.inl rfl)) (by exact nofun)
          (by dsimp only; rw [hat]; exact nofun)
      exact ⟨hitems.congr rfl hheld.symm rfl rfl rfl id rfl, hout⟩
    · exact ⟨hitems.congr rfl hheld.symm rfl rfl rfl id rfl,
        hthreads.go hinside rfl (by exact nofun) (by exact nofun) (by rw [hat]; exact nofun)⟩
  case left =>
    rw [coordinate, hat] at hstep
    obtain rfl := Option.some.inj hstep
    have hheld : s.coordinator.held = [] := by rw [hat]; rfl
    have hexit := hthreads.exit (by rw [hat]; rfl)
    split_ifs with hpos
    · exact ⟨hitems.congr rfl hheld.symm rfl rfl rfl id rfl,
        hthreads.go hinside rfl (fun _ ↦ hexit) (by exact nofun) (by rw [hat]; exact nofun)⟩
    · exact ⟨hitems.congr rfl hheld.symm rfl rfl rfl id rfl, hthreads.go hinside rfl (fun _ ↦ hexit)
        (fun _ ↦ .inr (by omega)) (by rw [hat]; exact nofun)⟩
  case closing =>
    rw [coordinate, hat] at hstep
    obtain rfl := Option.some.inj hstep
    have hheld : s.coordinator.held = [] := by rw [hat]; rfl
    have hexit := hthreads.exit (by rw [hat]; rfl)
    refine ⟨hitems.congr rfl hheld.symm rfl rfl rfl id rfl, ?_⟩
    exact ⟨hthreads.length, hthreads.active, fun h0 ↦ .inl rfl, hthreads.lastCloses, hthreads.quit,
      fun _ ↦ .inr rfl, fun _ _ ↦ .inl rfl, fun _ ↦ hexit, hthreads.cancelled,
      fun _ ↦ hthreads.unborn hinside, nofun, hthreads.atMost,
      .inr (hthreads.rewritten.resolve_left (by rw [hat]; exact nofun)), nofun⟩
  case announcing =>
    rw [coordinate, hat] at hstep
    obtain rfl := Option.some.inj hstep
    have hheld : s.coordinator.held = [] := by rw [hat]; rfl
    have hexit := hthreads.exit (by rw [hat]; rfl)
    have hcloses := hthreads.closes (by rw [hat]; rfl) (by rw [hat]; rfl)
    have hwoken : Inv J (s.workers.map Worker.wake) { s with coordinator := .joining } :=
      ⟨hitems.wakeWorkers.congr rfl hheld.symm rfl rfl rfl id rfl,
        hthreads.wakeWorkers.go hinside rfl (fun _ ↦ hexit) (fun _ ↦ hcloses) fun _ ↦ rfl⟩
    exact hwoken.setWorkers _

/-- The coordinator has joined the workers, and is out of the pool. -/
theorem inv_joining (h : Inv J s.workers s) {k : ℕ} {saved : Bool}
    (hat : s.coordinator = .joining) (hstep : coordinate J k saved s = some t) : Inv J t.workers t := by
  obtain ⟨hitems, hthreads⟩ := h
  have hheld : s.coordinator.held = [] := by rw [hat]; rfl
  rw [coordinate, hat] at hstep
  dsimp only at hstep
  split_ifs at hstep with hall
  obtain rfl := Option.some.inj hstep
  have hfinished : ∀ a ∈ s.workers, a = .finished := by simpa using hall
  exact ⟨hitems.congr rfl hheld.symm rfl rfl rfl id rfl, hthreads.length, hthreads.active, hthreads.last,
    hthreads.lastCloses, hthreads.quit, fun hc ↦ .inr rfl, fun _ ↦ nofun,
    fun _ ↦ hthreads.exit (by rw [hat]; rfl), hthreads.cancelled, nofun, fun _ ↦ .inl hfinished,
    hthreads.atMost, .inr (hthreads.rewritten.resolve_left (by rw [hat]; exact nofun)), nofun⟩

theorem inv_stamping (h : Inv J s.workers s) {k : ℕ} {saved : Bool}
    (hat : s.coordinator = .stamping) (hstep : coordinate J k saved s = some t) : Inv J t.workers t := by
  obtain ⟨hitems, hthreads⟩ := h
  have hheld : s.coordinator.held = [] := by rw [hat]; rfl
  rw [coordinate, hat] at hstep
  obtain rfl := Option.some.inj hstep
  have hmore (hc : s.cancelled = true) : (s.cancelled || s.cancel) = true := by rw [hc]; rfl
  refine ⟨hitems.congr rfl hheld.symm rfl rfl rfl id rfl, hthreads.length, hthreads.active, hthreads.last,
    hthreads.lastCloses, hthreads.quit, fun hc ↦ .inr rfl, fun _ ↦ nofun, fun _ ↦ ?_, fun hc ↦ ?_, nofun,
    fun _ ↦ ?_, hthreads.atMost, ?_, nofun⟩
  · exact (hthreads.exit (by rw [hat]; rfl)).imp_right fun hout ↦ hout.imp_left hmore
  · exact (Bool.or_eq_true _ _ ▸ hc).elim hthreads.cancelled id
  · exact (hthreads.joined (by rw [hat]; rfl)).imp_right fun hall ↦ ⟨hmore hall.1, hall.2⟩
  · exact .inr ((hthreads.rewritten.resolve_left (by rw [hat]; exact nofun)).imp_right hmore)

theorem inv_coordinate (h : Inv J s.workers s) (hN : 0 < J.items) {k : ℕ} {saved : Bool}
    (hstep : coordinate J k saved s = some t) : Inv J t.workers t := by
  by_cases hinside : s.coordinator.outside = false
  · by_cases hjoining : s.coordinator = .joining
    · exact inv_joining h hjoining hstep
    · exact inv_coordinate_inside h hinside hjoining hstep
  · rcases hat : s.coordinator with _ | _ | _ | _ | _ | _ | _ | _ | _ | _ | _ | stamped
    case rewriting => exact inv_rewriting h hN hat hstep
    case stamping => exact inv_stamping h hat hstep
    case finished =>
      rw [coordinate, hat] at hstep
      cases hstep
    all_goals exact absurd (by rw [hat]; rfl) hinside

/-! ## Every step -/

theorem inv_work (h : Inv J s.workers s) {w : ℕ} (hstep : work J w s = some t) : Inv J t.workers t := by
  obtain ⟨a, ha, hstep⟩ := Option.bind_eq_some_iff.mp hstep
  obtain ⟨⟨b, u⟩, hadv, hstep⟩ := Option.bind_eq_some_iff.mp hstep
  obtain rfl := Option.some.inj hstep
  obtain ⟨rest, hperm, hset⟩ := exists_perm_set ha
  rcases inv_advance (h.perm hperm) hadv with ⟨hsame, hafter⟩ | ⟨hwoken, hafter⟩
  · have hset := hset id b
    rw [List.map_id, List.map_id, ← hsame] at hset
    exact (hafter.perm hset.symm).setWorkers _
  · have hset := hset Worker.wake b
    rw [← hwoken] at hset
    exact (hafter.perm hset.symm).setWorkers _

/-- **Every step** keeps the invariants. -/
theorem inv_step (hN : 0 < J.items) {a : Action} (h : Inv J s.workers s) (hstep : step J s a = some t) :
    Inv J t.workers t := by
  rcases a with w | ⟨k, saved⟩ | _ | w | _
  · exact inv_work h hstep
  · exact inv_coordinate h hN hstep
  · obtain rfl := Option.some.inj hstep
    obtain ⟨hitems, hthreads⟩ := h
    exact ⟨hitems.congr rfl rfl rfl rfl rfl (fun _ ↦ rfl) rfl, hthreads.length, hthreads.active,
      hthreads.last, hthreads.lastCloses, fun _ _ _ ↦ .inr rfl, hthreads.closedBy, hthreads.closes,
      hthreads.exit, fun _ ↦ rfl, hthreads.unborn, hthreads.joined, hthreads.atMost, hthreads.rewritten,
      hthreads.started⟩
  · obtain ⟨a, ha, hstep⟩ := Option.bind_eq_some_iff.mp hstep
    obtain rfl := Option.some.inj hstep
    exact inv_wake h ha
  · obtain rfl := Option.some.inj hstep
    exact ⟨h.items.wakeCoordinator, h.threads.wakeCoordinator⟩

end MigrationPool

end SafeVault
