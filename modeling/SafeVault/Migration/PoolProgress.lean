import Mathlib.Data.List.Perm.Subperm
import SafeVault.Migration.PoolInvariant

/-!
# The pool ends, and with all of the work done

A thread sleeps only while another one is still to wake it: the coordinator until an item is pushed, a
worker until the queue is popped, and each until the queue is closed. So some thread can go on until all
have finished, and as every step of a thread makes a measure smaller, they do finish.

The coordinator leaves its loop when it has collected as many results as there are items. It counts them
in an `int`, and that is where the pool fails: beyond the range of that type it leaves before the end, and
the pass counts as full.
-/

namespace SafeVault

namespace MigrationPool

variable {J : Job} {s t : Pool} {a b : Worker} {ws ws' rest : List Worker}

/-! ## Who wakes a thread that sleeps -/

/-- The place in the queue that was made, and of which no worker knows yet. -/
def Coordinator.freed : Coordinator → ℕ
  | popped _ => 1
  | _ => 0

structure Waiting (J : Job) (ws : List Worker) (s : Pool) : Prop where
  consumer : s.coordinator = .sleeping →
    s.queue = [] ∧ s.closed = false ∨ Worker.pushed ∈ ws ∨ Worker.announcing ∈ ws
  producers : (∃ a ∈ ws, a.asleep = true) →
    s.closed = false ∧ J.cap ≤ s.queue.length + s.coordinator.freed + ws.countP Worker.isPushing ∨
      Worker.announcing ∈ ws ∨ s.coordinator = .announcing

theorem waiting_start (J : Job) : Waiting J (start J).workers (start J) := by
  refine ⟨nofun, ?_⟩
  rintro ⟨a, ha, hasleep⟩
  rw [eq_unborn_of_mem_start ha] at hasleep
  cases hasleep

theorem Waiting.perm (h : Waiting J ws s) (hp : ws.Perm ws') : Waiting J ws' s where
  consumer hat := (h.consumer hat).imp_right (Or.imp hp.mem_iff.mp hp.mem_iff.mp)
  producers := by
    rintro ⟨a, ha, hasleep⟩
    refine (h.producers ⟨a, hp.mem_iff.mpr ha, hasleep⟩).imp (And.imp_right fun hcap ↦ ?_)
      (Or.imp_left hp.mem_iff.mp)
    rwa [← hp.countP_eq]

theorem Waiting.congr (h : Waiting J ws s) (hcoordinator : t.coordinator = s.coordinator)
    (hqueue : t.queue = s.queue) (hclosed : t.closed = s.closed) : Waiting J ws t := by
  refine ⟨?_, ?_⟩
  · rw [hcoordinator, hqueue, hclosed]
    exact h.consumer
  · rw [hcoordinator, hqueue, hclosed]
    exact h.producers

theorem not_asleep_wake (a : Worker) : a.wake.asleep = false := by rcases a <;> rfl

theorem wake_ne_sleeping (c : Coordinator) : c.wake ≠ .sleeping := by rcases c <;> nofun

@[simp] theorem freed_wake (c : Coordinator) : c.wake.freed = c.freed := by rcases c <;> rfl

/-- No worker sleeps after all were woken. -/
theorem not_asleep_of_mem_map_wake (ha : a ∈ ws.map Worker.wake) : a.asleep = false := by
  obtain ⟨b, -, rfl⟩ := List.mem_map.mp ha
  exact not_asleep_wake b

theorem mem_cons_of_ne {c : Worker} (hne : c ≠ a) (hmem : c ∈ a :: rest) : c ∈ b :: rest :=
  List.mem_cons_of_mem _ ((List.mem_cons.mp hmem).resolve_left hne)

/-- A worker that wakes nobody goes on. -/
theorem Waiting.move (h : Waiting J (a :: rest) s) (hpushed : a ≠ .pushed) (hannouncing : a ≠ .announcing)
    (hpushing : a.isPushing = false) (hb : b.asleep = false) : Waiting J (b :: rest) s := by
  refine ⟨fun hat ↦ (h.consumer hat).imp_right
    (Or.imp (mem_cons_of_ne hpushed.symm) (mem_cons_of_ne hannouncing.symm)), ?_⟩
  rintro ⟨c, hc, hasleep⟩
  have hrest : c ∈ rest := by
    refine (List.mem_cons.mp hc).resolve_left ?_
    rintro rfl
    exact Bool.false_ne_true (hb.symm.trans hasleep)
  refine (h.producers ⟨c, List.mem_cons_of_mem _ hrest, hasleep⟩).imp (And.imp_right fun hcap ↦ ?_)
    (Or.imp_left (mem_cons_of_ne hannouncing.symm))
  rw [List.countP_cons, hpushing, if_neg Bool.false_ne_true] at hcap
  rw [List.countP_cons]
  exact Nat.le_trans hcap (Nat.add_le_add_left (Nat.le_add_right _ _) _)

/-- Waking all is right for everyone. -/
theorem waiting_of_all_awake (hworkers : ∀ a ∈ ws, a.asleep = false) (hcoordinator : s.coordinator ≠ .sleeping) :
    Waiting J ws s := by
  refine ⟨fun hat ↦ absurd hat hcoordinator, ?_⟩
  rintro ⟨a, ha, hasleep⟩
  exact absurd ((hworkers a ha).symm.trans hasleep) Bool.false_ne_true

theorem Waiting.push {i : ℕ} (h : Waiting J (.pushing i :: rest) s) :
    Waiting J (.pushed :: rest) { s with queue := s.queue ++ [i] } := by
  refine ⟨fun _ ↦ .inr (.inl List.mem_cons_self), ?_⟩
  rintro ⟨a, ha, hasleep⟩
  have hrest : a ∈ rest := by
    refine (List.mem_cons.mp ha).resolve_left ?_
    rintro rfl
    cases hasleep
  refine (h.producers ⟨a, List.mem_cons_of_mem _ hrest, hasleep⟩).imp (And.imp_right fun hcap ↦ ?_)
    (Or.imp_left (mem_cons_of_ne (by exact nofun)))
  rw [List.countP_cons_of_pos (by rfl)] at hcap
  rw [List.countP_cons_of_neg (by exact nofun)]
  dsimp only
  rw [List.length_append, List.length_singleton]
  omega

/-- The queue is full. -/
theorem Waiting.wait {i : ℕ} (h : Waiting J (.pushing i :: rest) s) (hfull : J.cap ≤ s.queue.length)
    (hopen : s.closed = false) : Waiting J (.sleeping i :: rest) s := by
  refine ⟨fun hat ↦ (h.consumer hat).imp_right
    (Or.imp (mem_cons_of_ne (by exact nofun)) (mem_cons_of_ne (by exact nofun))), fun _ ↦ ?_⟩
  exact .inl ⟨hopen, Nat.le_trans hfull (by omega)⟩

/-- **A step of a worker.** -/
theorem waiting_advance (h : Waiting J (a :: rest) s) (hadv : advance J a s = some (b, t)) :
    (t.workers = s.workers ∧ Waiting J (b :: rest) t) ∨
      t.workers = s.workers.map Worker.wake ∧ Waiting J (b :: rest.map Worker.wake) t := by
  rcases a with _ | _ | i | i | i | _ | _ | _ | _ | _
  all_goals rw [advance] at hadv
  case unborn | sleeping | finished => cases hadv
  case fetching =>
    obtain ⟨rfl, rfl⟩ := Prod.mk.inj (Option.some.inj hadv)
    exact .inl ⟨rfl, (h.move (by rintro ⟨⟩) (by rintro ⟨⟩) rfl rfl).congr rfl rfl rfl⟩
  case fetched =>
    split_ifs at hadv
    all_goals
      obtain ⟨rfl, rfl⟩ := Prod.mk.inj (Option.some.inj hadv)
      exact .inl ⟨rfl, (h.move (by rintro ⟨⟩) (by rintro ⟨⟩) rfl rfl).congr rfl rfl rfl⟩
  case pushing =>
    split_ifs at hadv with hroom
    all_goals obtain ⟨rfl, rfl⟩ := Prod.mk.inj (Option.some.inj hadv)
    · exact .inl ⟨rfl, h.push⟩
    · rw [Bool.or_eq_true, decide_eq_true_eq, not_or, Nat.not_lt, Bool.not_eq_true] at hroom
      exact .inl ⟨rfl, h.wait hroom.1 hroom.2⟩
  case pushed =>
    obtain ⟨rfl, rfl⟩ := Prod.mk.inj (Option.some.inj hadv)
    refine .inl ⟨rfl, fun hat ↦ absurd hat (wake_ne_sleeping _), ?_⟩
    rintro ⟨a, ha, hasleep⟩
    have hrest : a ∈ rest := by
      refine (List.mem_cons.mp ha).resolve_left ?_
      rintro rfl
      cases hasleep
    refine (h.producers ⟨a, List.mem_cons_of_mem _ hrest, hasleep⟩).imp (And.imp_right fun hcap ↦ ?_)
      (Or.imp (mem_cons_of_ne (by rintro ⟨⟩)) fun hat ↦ ?_)
    · dsimp only
      rw [freed_wake]
      exact hcap
    · dsimp only
      rw [hat]
      rfl
  case leaving =>
    obtain ⟨rfl, rfl⟩ := Prod.mk.inj (Option.some.inj hadv)
    refine .inl ⟨rfl, (h.move (by rintro ⟨⟩) (by rintro ⟨⟩) rfl ?_).congr rfl rfl rfl⟩
    split_ifs <;> rfl
  case closing =>
    obtain ⟨rfl, rfl⟩ := Prod.mk.inj (Option.some.inj hadv)
    exact .inl ⟨rfl, fun _ ↦ .inr (.inr List.mem_cons_self), fun _ ↦ .inr (.inl List.mem_cons_self)⟩
  case announcing =>
    obtain ⟨rfl, rfl⟩ := Prod.mk.inj (Option.some.inj hadv)
    refine .inr ⟨rfl, waiting_of_all_awake ?_ (wake_ne_sleeping _)⟩
    exact List.forall_mem_cons.mpr ⟨rfl, fun a ↦ not_asleep_of_mem_map_wake⟩

/-! ## Steps of the coordinator -/

/-- One worker is woken, or as it was. -/
theorem Waiting.wakeOne (h : Waiting J ws s) {w : ℕ} (ha : ws[w]? = some a) : Waiting J (ws.set w a.wake) s := by
  obtain ⟨rest, hperm, hset⟩ := exists_perm_set ha
  have hafter := hset id a.wake
  rw [List.map_id, List.map_id] at hafter
  refine Waiting.perm ?_ hafter.symm
  have hbefore := h.perm hperm
  rcases a with _ | _ | _ | _ | i | _ | _ | _ | _ | _
  case sleeping =>
    refine ⟨fun hat ↦ (hbefore.consumer hat).imp_right
      (Or.imp (mem_cons_of_ne (by exact nofun)) (mem_cons_of_ne (by exact nofun))), fun _ ↦ ?_⟩
    refine (hbefore.producers ⟨_, List.mem_cons_self, rfl⟩).imp (And.imp_right fun hcap ↦ ?_)
      (Or.imp_left (mem_cons_of_ne (by exact nofun)))
    rw [List.countP_cons_of_neg (by exact nofun)] at hcap
    rw [List.countP_cons_of_pos (by rfl)]
    omega
  all_goals exact hbefore

theorem waiting_notifyWorker {i k : ℕ} (h : Waiting J s.workers s) (hat : s.coordinator = .popped i)
    (hstep : notifyWorker k { s with coordinator := .applying i } = some t) : Waiting J t.workers t := by
  rw [notifyWorker] at hstep
  split at hstep
  · -- the place that was made is now that of the worker that was woken
    next j hj =>
    obtain rfl := Option.some.inj hstep
    dsimp only at hj
    obtain ⟨rest, hperm, hset⟩ := exists_perm_set hj
    have hafter := hset id (.pushing j)
    rw [List.map_id, List.map_id] at hafter
    refine Waiting.perm ⟨by rintro ⟨⟩, fun _ ↦ ?_⟩ hafter.symm
    refine ((h.perm hperm).producers ⟨_, List.mem_cons_self, rfl⟩).imp (And.imp_right fun hcap ↦ ?_)
      (Or.imp (mem_cons_of_ne (by rintro ⟨⟩)) fun hnot ↦ ?_)
    · rw [hat, List.countP_cons_of_neg (by rintro ⟨⟩)] at hcap
      rw [List.countP_cons_of_pos (by rfl)]
      exact Nat.le_trans hcap (Nat.le_of_eq (by simp only [Coordinator.freed]; omega))
    · rw [hat] at hnot
      cases hnot
  · split_ifs at hstep with hany
    obtain rfl := Option.some.inj hstep
    rw [List.any_eq_true] at hany
    exact ⟨by rintro ⟨⟩, fun hasleep ↦ absurd hasleep hany⟩

/-- **A step of the coordinator.** -/
theorem waiting_coordinate (h : Waiting J s.workers s) (hthreads : Threads J s.workers s) {k : ℕ} {saved : Bool}
    (hstep : coordinate J k saved s = some t) : Waiting J t.workers t := by
  -- where it neither made a place in the queue nor closes it, the workers wait as they did
  have hgo {u : Pool} (hworkers : u.workers = s.workers) (hqueue : u.queue = s.queue)
      (hclosed : u.closed = s.closed) (hfreed : s.coordinator.freed = 0)
      (hnot : s.coordinator ≠ .announcing) (hu : u.coordinator ≠ .sleeping) : Waiting J u.workers u := by
    refine ⟨fun hat ↦ absurd hat hu, ?_⟩
    rw [hworkers, hqueue, hclosed]
    intro hasleep
    refine (h.producers hasleep).imp (And.imp_right fun hcap ↦ ?_) (Or.imp_right fun hat ↦ absurd hat hnot)
    omega
  rcases hat : s.coordinator with _ | _ | _ | i | i | _ | _ | _ | _ | _ | _ | stamped
  all_goals
    rw [coordinate, hat] at hstep
    dsimp only at hstep
  case sleeping | finished => cases hstep
  case popped => exact waiting_notifyWorker h hat hstep
  case applying | stamping =>
    obtain rfl := Option.some.inj hstep
    exact hgo rfl rfl rfl (by rw [hat]; rfl) (by rw [hat]; rintro ⟨⟩) (by rintro ⟨⟩)
  case left =>
    obtain rfl := Option.some.inj hstep
    refine hgo rfl rfl rfl (by rw [hat]; rfl) (by rw [hat]; rintro ⟨⟩) ?_
    dsimp only
    split_ifs <;> rintro ⟨⟩
  case looking =>
    split_ifs at hstep
    all_goals
      obtain rfl := Option.some.inj hstep
      exact hgo rfl rfl rfl (by rw [hat]; rfl) (by rw [hat]; rintro ⟨⟩) (by rintro ⟨⟩)
  case joining =>
    split_ifs at hstep
    obtain rfl := Option.some.inj hstep
    exact hgo rfl rfl rfl (by rw [hat]; rfl) (by rw [hat]; rintro ⟨⟩) (by rintro ⟨⟩)
  case closing =>
    obtain rfl := Option.some.inj hstep
    exact ⟨by rintro ⟨⟩, fun _ ↦ .inr (.inr rfl)⟩
  case announcing =>
    obtain rfl := Option.some.inj hstep
    exact waiting_of_all_awake (fun a ↦ not_asleep_of_mem_map_wake) (by rintro ⟨⟩)
  case rewriting =>
    split_ifs at hstep
    all_goals obtain rfl := Option.some.inj hstep
    · exact hgo rfl rfl rfl (by rw [hat]; rfl) (by rw [hat]; rintro ⟨⟩) (by rintro ⟨⟩)
    · exact hgo rfl rfl rfl (by rw [hat]; rfl) (by rw [hat]; rintro ⟨⟩) (by rintro ⟨⟩)
    · exact hgo rfl rfl rfl (by rw [hat]; rfl) (by rw [hat]; rintro ⟨⟩) (by rintro ⟨⟩)
    · refine waiting_of_all_awake (fun b hb ↦ ?_) (by rintro ⟨⟩)
      obtain ⟨a, ha, rfl⟩ := List.mem_map.mp hb
      rw [hthreads.started hat a ha]
      rfl
  case popping =>
    by_cases hle : J.expect ≤ s.collected
    · rw [if_pos hle] at hstep
      obtain rfl := Option.some.inj hstep
      exact hgo rfl rfl rfl (by rw [hat]; rfl) (by rw [hat]; rintro ⟨⟩) (by rintro ⟨⟩)
    · rw [if_neg hle] at hstep
      rcases hq : s.queue with _ | ⟨i, queue⟩
      all_goals
        rw [hq] at hstep
        obtain rfl := Option.some.inj hstep
      · by_cases hc : s.closed = true
        · rw [if_pos hc, ← hq]
          exact hgo rfl rfl rfl (by rw [hat]; rfl) (by rw [hat]; rintro ⟨⟩) (by rintro ⟨⟩)
        · rw [if_neg hc]
          refine ⟨fun _ ↦ .inl ⟨rfl, (Bool.not_eq_true _).mp hc⟩, fun hasleep ↦ ?_⟩
          refine (h.producers hasleep).imp (And.imp_right fun hcap ↦ ?_) (Or.imp_right fun hnot ↦ ?_)
          · rw [hat, hq] at hcap
            exact hcap
          · rw [hat] at hnot
            cases hnot
      · refine ⟨by rintro ⟨⟩, fun hasleep ↦ ?_⟩
        refine (h.producers hasleep).imp (And.imp_right fun hcap ↦ ?_) (Or.imp_right fun hnot ↦ ?_)
        · rw [hat, hq] at hcap
          simp only [List.length_cons, Coordinator.freed] at hcap ⊢
          omega
        · rw [hat] at hnot
          cases hnot

/-- **Every step** leaves somebody to wake a thread that sleeps. -/
theorem waiting_step {act : Action} (h : Waiting J s.workers s) (hthreads : Threads J s.workers s)
    (hstep : step J s act = some t) : Waiting J t.workers t := by
  rcases act with w | ⟨k, saved⟩ | _ | w | _
  · obtain ⟨a, ha, hstep⟩ := Option.bind_eq_some_iff.mp hstep
    obtain ⟨⟨b, u⟩, hadv, hstep⟩ := Option.bind_eq_some_iff.mp hstep
    obtain rfl := Option.some.inj hstep
    obtain ⟨rest, hperm, hset⟩ := exists_perm_set ha
    rcases waiting_advance (h.perm hperm) hadv with ⟨hsame, hafter⟩ | ⟨hwoken, hafter⟩
    · have hset := hset id b
      rw [List.map_id, List.map_id, ← hsame] at hset
      exact (hafter.perm hset.symm).congr rfl rfl rfl
    · have hset := hset Worker.wake b
      rw [← hwoken] at hset
      exact (hafter.perm hset.symm).congr rfl rfl rfl
  · exact waiting_coordinate h hthreads hstep
  · obtain rfl := Option.some.inj hstep
    exact h.congr rfl rfl rfl
  · obtain ⟨a, ha, hstep⟩ := Option.bind_eq_some_iff.mp hstep
    obtain rfl := Option.some.inj hstep
    exact (h.wakeOne ha).congr rfl rfl rfl
  · obtain rfl := Option.some.inj hstep
    refine ⟨fun hat ↦ absurd hat (wake_ne_sleeping _), fun hasleep ↦ ?_⟩
    refine (h.producers hasleep).imp (And.imp_right fun hcap ↦ ?_) (Or.imp_right fun hat ↦ ?_)
    · dsimp only
      rwa [freed_wake]
    · dsimp only
      rw [hat]
      rfl

/-! ## Some thread can go on -/

/-- A worker that is neither asleep nor without work to do. -/
def Worker.ready : Worker → Bool
  | unborn | sleeping _ | finished => false
  | _ => true

theorem isSome_advance (ha : a.ready = true) : (advance J a s).isSome = true := by
  rcases a with _ | _ | i | i | i | _ | _ | _ | _ | _
  case unborn | sleeping | finished => cases ha
  all_goals
    rw [advance]
    try split_ifs
    all_goals rfl

theorem exists_work (hmem : a ∈ s.workers) (ha : a.ready = true) : ∃ w, (work J w s).isSome = true := by
  obtain ⟨w, hw⟩ := List.mem_iff_getElem?.mp hmem
  refine ⟨w, ?_⟩
  obtain ⟨⟨b, t⟩, hadv⟩ := Option.isSome_iff_exists.mp (isSome_advance ha (J := J) (s := s))
  rw [work, hw]
  simp only [Option.bind_eq_bind, Option.bind_some, hadv, Option.isSome_some]

theorem exists_notifyWorker (s : Pool) : ∃ k, (notifyWorker k s).isSome = true := by
  by_cases hany : s.workers.any Worker.asleep = true
  · obtain ⟨a, ha, hasleep⟩ := List.any_eq_true.mp hany
    obtain ⟨k, hk⟩ := List.mem_iff_getElem?.mp ha
    rcases a with _ | _ | _ | _ | i | _ | _ | _ | _ | _
    case sleeping =>
      refine ⟨k, ?_⟩
      rw [notifyWorker, hk]
      rfl
    all_goals cases hasleep
  · refine ⟨0, ?_⟩
    rw [notifyWorker]
    split
    · rfl
    · rw [if_neg hany]
      rfl

/-- A thread that was started has not come to its end. -/
def Unfinished (s : Pool) : Prop :=
  (∀ stamped, s.coordinator ≠ .finished stamped) ∨ ∃ a ∈ s.workers, a ≠ .unborn ∧ a ≠ .finished

/-- **The pool is never stuck**: some thread can take a step. -/
theorem exists_step (hinv : Inv J s.workers s) (hwait : Waiting J s.workers s) (h : Unfinished s) :
    (∃ w, (work J w s).isSome = true) ∨ ∃ k, (coordinate J k true s).isSome = true := by
  by_cases hready : ∃ a ∈ s.workers, a.ready = true
  · obtain ⟨a, ha, hready⟩ := hready
    exact .inl (exists_work ha hready)
  have hnone {b : Worker} (hb : b.ready = true) : b ∉ s.workers := fun hmem ↦ hready ⟨b, hmem, hb⟩
  have hpushing : s.workers.countP Worker.isPushing = 0 := by
    refine List.countP_eq_zero.mpr fun a ha hp ↦ hnone ?_ ha
    rcases a <;> first | rfl | cases hp
  have hsleeps {a : Worker} (hinside : s.coordinator.outside = false) (ha : a ∈ s.workers)
      (hne : a ≠ .finished) : a.asleep = true := by
    have hborn : a ≠ .unborn := by
      rintro rfl
      exact hinv.threads.unborn hinside ha
    have hnot := mt hnone (not_not.mpr ha)
    rcases a <;> first | rfl | exact absurd rfl hborn | exact absurd rfl hne | exact absurd rfl hnot
  rcases hat : s.coordinator with _ | _ | _ | i | i | _ | _ | _ | _ | _ | _ | stamped
  case popped =>
    obtain ⟨k, hk⟩ := exists_notifyWorker { s with coordinator := .applying i }
    refine .inr ⟨k, ?_⟩
    rw [coordinate, hat]
    exact hk
  case sleeping =>
    exfalso
    have hempty : s.queue = [] ∧ s.closed = false :=
      (hwait.consumer hat).resolve_right fun hmem ↦ hmem.elim (hnone rfl) (hnone rfl)
    by_cases hasleep : ∃ a ∈ s.workers, a.asleep = true
    · -- the queue would be full
      rcases hwait.producers hasleep with ⟨-, hcap⟩ | hmem | hnot
      · rw [hempty.1, hat, hpushing] at hcap
        exact absurd (Nat.le_trans (Nat.le_max_left 2 _) hcap) (by decide)
      · exact hnone rfl hmem
      · rw [hat] at hnot
        cases hnot
    · -- the last worker would have closed it
      have hfinished : ∀ a ∈ s.workers, a = .finished := by
        intro a ha
        by_contra hne
        exact hasleep ⟨a, ha, hsleeps (by rw [hat]; rfl) ha hne⟩
      have hactive : s.activeWorkers = 0 := by
        rw [hinv.threads.active]
        refine List.countP_eq_zero.mpr fun a ha ↦ ?_
        rw [hfinished a ha]
        rintro ⟨⟩
      rcases hinv.threads.last hactive with hc | hc
      · exact Bool.false_ne_true (hempty.2.symm.trans hc)
      · exact hnone rfl hc
  case joining =>
    by_cases hall : s.workers.all (· = .finished) = true
    · refine .inr ⟨0, ?_⟩
      rw [coordinate, hat]
      dsimp only
      rw [if_pos hall]
      rfl
    · exfalso
      simp only [List.all_eq_true, not_forall] at hall
      obtain ⟨a, ha, hne⟩ := hall
      have hasleep := hsleeps (by rw [hat]; rfl) ha fun hf ↦ hne (decide_eq_true hf)
      have hactive : s.activeWorkers ≠ 0 := by
        rw [hinv.threads.active]
        refine Nat.pos_iff_ne_zero.mp (List.countP_pos_iff.mpr ⟨a, ha, ?_⟩)
        rcases a <;> first | rfl | cases hasleep
      have hclosed := (hinv.threads.closes (by rw [hat]; rfl) (by rw [hat]; rfl)).resolve_right hactive
      rcases hwait.producers ⟨a, ha, hasleep⟩ with ⟨hopen, -⟩ | hmem | hnot
      · exact Bool.false_ne_true (hopen.symm.trans hclosed)
      · exact hnone rfl hmem
      · rw [hat] at hnot
        cases hnot
  case finished =>
    exfalso
    rcases h with hnot | ⟨a, ha, hborn, hne⟩
    · exact hnot stamped hat
    · rcases hinv.threads.joined (by rw [hat]; rfl) with hall | ⟨-, hall⟩
      · exact hne (hall a ha)
      · exact hborn (hall a ha)
  case popping =>
    refine .inr ⟨0, ?_⟩
    rw [coordinate, hat]
    dsimp only
    split_ifs
    · rfl
    · rcases s.queue <;> rfl
    · rcases s.queue <;> rfl
  all_goals
    refine .inr ⟨0, ?_⟩
    rw [coordinate, hat]
    dsimp only
    try split_ifs
    all_goals rfl

/-! ## Every step of a thread makes a measure smaller -/

/-- What a worker still does before it takes the next index. Waking all of the others is paid in advance. -/
def Worker.cost (J : Job) : Worker → ℕ
  | unborn | fetching => J.workers + 6
  | fetched i => if i < J.items then J.workers + 15 else J.workers + 5
  | pushing _ => J.workers + 14
  | sleeping _ => J.workers + 13
  | pushed => J.workers + 8
  | leaving => J.workers + 4
  | closing => J.workers + 3
  | announcing => J.workers + 2
  | finished => 0

/-- What the coordinator still does before it pops the next result. -/
def Coordinator.cost (J : Job) : Coordinator → ℕ
  | rewriting => J.workers + 8
  | popping => J.workers + 7
  | sleeping => J.workers + 6
  | popped _ => J.workers + 11
  | applying _ => J.workers + 9
  | looking => J.workers + 8
  | left => J.workers + 5
  | closing => J.workers + 4
  | announcing => J.workers + 3
  | joining => 2
  | stamping => 1
  | finished _ => 0

def remaining (J : Job) (ws : List Worker) (s : Pool) : ℕ :=
  10 * (J.items - s.next) + (ws.map (Worker.cost J)).sum + 5 * s.queue.length + s.coordinator.cost J +
    (J.paths - s.rewritten)

theorem remaining_perm (hp : ws.Perm ws') : remaining J ws s = remaining J ws' s := by
  rw [remaining, remaining, (hp.map _).sum_nat]

theorem remaining_cons : remaining J (a :: rest) s = a.cost J + remaining J rest s := by
  simp only [remaining, List.map_cons, List.sum_cons]
  omega

theorem cost_wake_le (c : Coordinator) : c.wake.cost J ≤ c.cost J + 1 := by
  rcases c <;> simp [Coordinator.wake, Coordinator.cost]

/-- Waking a worker costs one step, and waking all of them one each. -/
theorem sum_cost_wake_le (J : Job) (ws : List Worker) :
    ((ws.map Worker.wake).map (Worker.cost J)).sum ≤ (ws.map (Worker.cost J)).sum + ws.length := by
  induction ws with
  | nil => exact Nat.zero_le _
  | cons a ws ih =>
    have hone : a.wake.cost J ≤ a.cost J + 1 := by rcases a <;> simp [Worker.wake, Worker.cost]
    simp only [List.map_cons, List.sum_cons, List.length_cons]
    omega

theorem remaining_advance (hlength : rest.length + 1 = J.workers) (hadv : advance J a s = some (b, t)) :
    (t.workers = s.workers ∧ remaining J (b :: rest) t < remaining J (a :: rest) s) ∨
      t.workers = s.workers.map Worker.wake ∧
        remaining J (b :: rest.map Worker.wake) t < remaining J (a :: rest) s := by
  rcases a with _ | _ | i | i | i | _ | _ | _ | _ | _
  all_goals rw [advance] at hadv
  case unborn | sleeping | finished => cases hadv
  case fetched | pushing =>
    split_ifs at hadv with hif
    all_goals
      obtain ⟨rfl, rfl⟩ := Prod.mk.inj (Option.some.inj hadv)
      refine .inl ⟨rfl, ?_⟩
      simp only [remaining, List.map_cons, List.sum_cons, Worker.cost, List.length_append,
        List.length_singleton]
      try simp only [Bool.or_eq_true, decide_eq_true_eq, not_or, Nat.not_le] at hif
      try split_ifs
      all_goals omega
  case announcing =>
    obtain ⟨rfl, rfl⟩ := Prod.mk.inj (Option.some.inj hadv)
    refine .inr ⟨rfl, ?_⟩
    have hworkers := sum_cost_wake_le J rest
    have hcoordinator := cost_wake_le s.coordinator (J := J)
    simp only [remaining, List.map_cons, List.sum_cons, Worker.cost]
    omega
  case pushed =>
    obtain ⟨rfl, rfl⟩ := Prod.mk.inj (Option.some.inj hadv)
    refine .inl ⟨rfl, ?_⟩
    have hcoordinator := cost_wake_le s.coordinator (J := J)
    simp only [remaining, List.map_cons, List.sum_cons, Worker.cost]
    omega
  case leaving =>
    obtain ⟨rfl, rfl⟩ := Prod.mk.inj (Option.some.inj hadv)
    refine .inl ⟨rfl, ?_⟩
    split_ifs
    all_goals
      simp only [remaining, List.map_cons, List.sum_cons, Worker.cost]
      omega
  all_goals
    obtain ⟨rfl, rfl⟩ := Prod.mk.inj (Option.some.inj hadv)
    refine .inl ⟨rfl, ?_⟩
    simp only [remaining, List.map_cons, List.sum_cons, Worker.cost]
    try split_ifs
    all_goals omega

theorem remaining_work (hthreads : Threads J s.workers s) {w : ℕ} (hstep : work J w s = some t) :
    remaining J t.workers t < remaining J s.workers s := by
  obtain ⟨a, ha, hstep⟩ := Option.bind_eq_some_iff.mp hstep
  obtain ⟨⟨b, u⟩, hadv, hstep⟩ := Option.bind_eq_some_iff.mp hstep
  obtain rfl := Option.some.inj hstep
  obtain ⟨rest, hperm, hset⟩ := exists_perm_set ha
  have hlength : rest.length + 1 = J.workers := by
    rw [← hthreads.length, hperm.length_eq, List.length_cons]
  rw [remaining_perm hperm]
  rcases remaining_advance hlength hadv with ⟨hsame, hlt⟩ | ⟨hwoken, hlt⟩
  · have hset := hset id b
    rw [List.map_id, List.map_id, ← hsame] at hset
    exact Nat.lt_of_le_of_lt (Nat.le_of_eq (remaining_perm hset)) hlt
  · have hset := hset Worker.wake b
    rw [← hwoken] at hset
    exact Nat.lt_of_le_of_lt (Nat.le_of_eq (remaining_perm hset)) hlt

theorem remaining_notifyWorker {k : ℕ} (hstep : notifyWorker k s = some t) :
    remaining J t.workers t ≤ remaining J s.workers s + 1 := by
  rw [notifyWorker] at hstep
  split at hstep
  · next j hj =>
    obtain rfl := Option.some.inj hstep
    obtain ⟨rest, hperm, hset⟩ := exists_perm_set hj
    have hafter := hset id (.pushing j)
    rw [List.map_id, List.map_id] at hafter
    dsimp only
    rw [remaining_perm hperm, remaining_perm hafter, remaining_cons, remaining_cons]
    simp only [Worker.cost, remaining]
    omega
  · split_ifs at hstep
    obtain rfl := Option.some.inj hstep
    exact Nat.le_succ _

theorem remaining_coordinate (hthreads : Threads J s.workers s) {k : ℕ} {saved : Bool}
    (hstep : coordinate J k saved s = some t) : remaining J t.workers t < remaining J s.workers s := by
  rcases hat : s.coordinator with _ | _ | _ | i | i | _ | _ | _ | _ | _ | _ | stamped
  all_goals
    rw [coordinate, hat] at hstep
    dsimp only at hstep
  case sleeping | finished => cases hstep
  case popped =>
    refine Nat.lt_of_le_of_lt (remaining_notifyWorker hstep) ?_
    simp only [remaining, hat, Coordinator.cost]
    omega
  case announcing =>
    obtain rfl := Option.some.inj hstep
    have hworkers := sum_cost_wake_le J s.workers
    rw [hthreads.length] at hworkers
    simp only [remaining, hat, Coordinator.cost]
    omega
  case rewriting =>
    split_ifs at hstep
    all_goals obtain rfl := Option.some.inj hstep
    · simp only [remaining, hat, Coordinator.cost]
      omega
    · simp only [remaining, hat, Coordinator.cost]
      omega
    · simp only [remaining, hat, Coordinator.cost]
      omega
    · have hborn : (s.workers.map Worker.birth).map (Worker.cost J) = s.workers.map (Worker.cost J) := by
        rw [List.map_map]
        refine List.map_congr_left fun a ha ↦ ?_
        rw [Function.comp_apply, hthreads.started hat a ha]
        rfl
      simp only [remaining, hat, Coordinator.cost, hborn]
      omega
  case popping =>
    split_ifs at hstep
    · obtain rfl := Option.some.inj hstep
      simp only [remaining, hat, Coordinator.cost]
      omega
    all_goals
      rcases hq : s.queue with _ | ⟨i, queue⟩
      all_goals
        rw [hq] at hstep
        obtain rfl := Option.some.inj hstep
        simp only [remaining, hat, hq, Coordinator.cost, List.length_cons, List.length_nil]
        omega
  case left =>
    obtain rfl := Option.some.inj hstep
    split_ifs
    all_goals
      simp only [remaining, hat, Coordinator.cost]
      omega
  case looking | joining =>
    split_ifs at hstep
    all_goals
      obtain rfl := Option.some.inj hstep
      simp only [remaining, hat, Coordinator.cost]
      omega
  all_goals
    obtain rfl := Option.some.inj hstep
    simp only [remaining, hat, Coordinator.cost]
    omega

/-! ## What the threads leave alone -/

/-- All that a worker does not change. -/
structure Apart (s t : Pool) : Prop where
  cancel : t.cancel = s.cancel
  cancelled : t.cancelled = s.cancelled
  rewritten : t.rewritten = s.rewritten
  collected : t.collected = s.collected
  applied : t.applied = s.applied
  coordinator : t.coordinator = s.coordinator ∨ t.coordinator = s.coordinator.wake

theorem apart_work {w : ℕ} (hstep : work J w s = some t) : Apart s t := by
  obtain ⟨a, -, hstep⟩ := Option.bind_eq_some_iff.mp hstep
  obtain ⟨⟨b, u⟩, hadv, hstep⟩ := Option.bind_eq_some_iff.mp hstep
  obtain rfl := Option.some.inj hstep
  rcases a with _ | _ | i | i | i | _ | _ | _ | _ | _
  all_goals rw [advance] at hadv
  case unborn | sleeping | finished => cases hadv
  case fetched | pushing =>
    split_ifs at hadv
    all_goals
      obtain ⟨rfl, rfl⟩ := Prod.mk.inj (Option.some.inj hadv)
      exact ⟨rfl, rfl, rfl, rfl, rfl, .inl rfl⟩
  case pushed | announcing =>
    obtain ⟨rfl, rfl⟩ := Prod.mk.inj (Option.some.inj hadv)
    exact ⟨rfl, rfl, rfl, rfl, rfl, .inr rfl⟩
  all_goals
    obtain ⟨rfl, rfl⟩ := Prod.mk.inj (Option.some.inj hadv)
    exact ⟨rfl, rfl, rfl, rfl, rfl, .inl rfl⟩

theorem wake_eq_finished {c : Coordinator} {stamped : Bool} (h : c.wake = .finished stamped) :
    c = .finished stamped := by
  rcases c
  case sleeping => cases h
  all_goals exact h

theorem Apart.finished (h : Apart s t) {stamped : Bool} (hat : t.coordinator = .finished stamped) :
    s.coordinator = .finished stamped := by
  rcases h.coordinator with hsame | hwoken
  · rwa [← hsame]
  · exact wake_eq_finished (hwoken ▸ hat)

theorem Apart.held (h : Apart s t) : t.coordinator.held = s.coordinator.held := by
  rcases h.coordinator with hsame | hwoken
  · rw [hsame]
  · rw [hwoken, Coordinator.held_wake]

theorem notifyWorker_eq {k : ℕ} (hstep : notifyWorker k s = some t) :
    ∃ workers, t = { s with workers } := by
  rw [notifyWorker] at hstep
  split at hstep
  · exact ⟨_, (Option.some.inj hstep).symm⟩
  · split_ifs at hstep
    exact ⟨s.workers, (Option.some.inj hstep).symm⟩

/-- The coordinator comes to its end after the second look at the flag. -/
theorem coordinate_finished {k : ℕ} {saved stamped : Bool} (hstep : coordinate J k saved s = some t)
    (hat : t.coordinator = .finished stamped) :
    s.coordinator = .stamping ∧ stamped = (!(s.cancelled || s.cancel) && saved) ∧
      t = { s with cancelled := s.cancelled || s.cancel, coordinator := .finished stamped } := by
  rcases hfrom : s.coordinator with _ | _ | _ | i | i | _ | _ | _ | _ | _ | _ | _
  all_goals
    rw [coordinate, hfrom] at hstep
    dsimp only at hstep
  case sleeping | finished => cases hstep
  case stamping =>
    obtain rfl := Option.some.inj hstep
    obtain rfl := Coordinator.finished.inj hat
    exact ⟨rfl, rfl, rfl⟩
  case popped =>
    obtain ⟨workers, rfl⟩ := notifyWorker_eq hstep
    cases hat
  case popping =>
    split_ifs at hstep
    · obtain rfl := Option.some.inj hstep
      cases hat
    all_goals
      rcases hq : s.queue with _ | ⟨i, queue⟩
      all_goals
        rw [hq] at hstep
        obtain rfl := Option.some.inj hstep
        cases hat
  case left =>
    obtain rfl := Option.some.inj hstep
    dsimp only at hat
    split_ifs at hat
  case rewriting | looking | joining =>
    split_ifs at hstep
    all_goals
      obtain rfl := Option.some.inj hstep
      cases hat
  all_goals
    obtain rfl := Option.some.inj hstep
    cases hat

/-! ## What a full pass did -/

/-- All records were rewritten, and every item was applied exactly once. -/
def Complete (J : Job) (s : Pool) : Prop :=
  s.applied.Perm (List.range J.items) ∧ s.rewritten = J.paths

theorem nodup_applied (h : Items J ws s) : s.applied.Nodup := by
  have hnodup := h.account.nodup_iff.mpr List.nodup_range
  simp only [List.append_assoc] at hnodup
  exact (List.nodup_append.mp hnodup).1

theorem Items.applied_lt (h : Items J ws s) {i : ℕ} (hi : i ∈ s.applied) : i < J.items := by
  refine h.within i ?_
  simp only [List.append_assoc]
  exact List.mem_append_left _ hi

/-- So many results were applied as there are items. -/
theorem applied_perm_of_collected (h : Items J ws s) (hcollected : J.items ≤ s.collected) :
    s.applied.Perm (List.range J.items) := by
  have hsubset : s.applied ⊆ List.range J.items := fun i hi ↦ List.mem_range.mpr (h.applied_lt hi)
  have hsubperm := List.subperm_of_subset (nodup_applied h) hsubset
  refine hsubperm.perm_of_length_le ?_
  rw [List.length_range, ← h.collected]
  exact hcollected

/-- All of the indices that were taken were applied, or there is no item for them. -/
theorem applied_perm_of_empty (h : Items J ws s) (hheld : s.coordinator.held = []) (hqueue : s.queue = [])
    (hfinished : ∀ a ∈ ws, a = .finished) (hcancel : s.cancel = false) (hnext : J.items ≤ s.next) :
    s.applied.Perm (List.range J.items) := by
  have hnothing : ws.flatMap Worker.held = [] := by
    rw [List.flatMap_eq_nil_iff]
    exact fun a ha ↦ hfinished a ha ▸ rfl
  have haccount := h.account
  rw [hheld, hqueue, hnothing, List.append_nil, List.append_nil, List.append_nil] at haccount
  refine (List.perm_ext_iff_of_nodup (nodup_applied h) List.nodup_range).mpr fun i ↦ ⟨fun hi ↦
    List.mem_range.mpr (h.applied_lt hi), fun hi ↦ ?_⟩
  rw [List.mem_range] at hi
  have hmem := haccount.mem_iff.mpr (List.mem_range.mpr (Nat.lt_of_lt_of_le hi hnext))
  refine (List.mem_append.mp hmem).resolve_right fun hdropped ↦ ?_
  rcases h.dropped i hdropped with hle | hc
  · omega
  · exact Bool.false_ne_true (hcancel.symm.trans hc)

theorem Job.expect_of_lt (h : J.items < 2 ^ 31) : J.expect = J.items :=
  Int.bmod_eq_of_le (by omega) (by omega)

theorem Job.expect_lt (J : Job) : J.expect < 2 ^ 31 := Int.bmod_lt (by decide)

theorem complete_of_stamping (h : Inv J s.workers s) (hexpect : J.expect = J.items) (hW : 0 < J.workers)
    (hat : s.coordinator = .stamping) (hcancelled : s.cancelled = false) (hcancel : s.cancel = false) :
    Complete J s := by
  obtain ⟨hitems, hthreads⟩ := h
  have hnot {p : Prop} (hc : s.cancelled = true) : p := absurd (hcancelled.symm.trans hc) Bool.false_ne_true
  have hfinished : ∀ a ∈ s.workers, a = .finished :=
    (hthreads.joined (by rw [hat]; rfl)).resolve_right fun hall ↦ hnot hall.1
  constructor
  · rcases hthreads.exit (by rw [hat]; rfl) with hle | hc | ⟨hqueue, -⟩
    · rw [hexpect, Int.ofNat_le] at hle
      exact applied_perm_of_collected hitems hle
    · exact hnot hc
    · have hsome : s.workers ≠ [] := by
        intro hnil
        have hlength := hthreads.length
        rw [hnil] at hlength
        exact absurd hlength.symm (Nat.pos_iff_ne_zero.mp hW)
      obtain ⟨a, ha⟩ := List.exists_mem_of_ne_nil _ hsome
      have hnext : J.items ≤ s.next := by
        refine (hthreads.quit a ha (by rw [hfinished a ha]; rfl)).resolve_right fun hc ↦ ?_
        exact Bool.false_ne_true (hcancel.symm.trans hc)
      exact applied_perm_of_empty hitems (by rw [hat]; rfl) hqueue hfinished hcancel hnext
  · rcases hthreads.rewritten with hr | hr | hc
    · rw [hat] at hr
      cases hr
    · exact hr
    · exact hnot hc

/-- What holds when the coordinator has finished. -/
structure Ended (J : Job) (s : Pool) : Prop where
  complete : ∀ stamped, s.coordinator = .finished stamped → s.cancelled = false → Complete J s
  stamped : s.coordinator = .finished true → s.cancelled = false

theorem ended_step {act : Action} (h : Inv J s.workers s) (hended : Ended J s) (hexpect : J.expect = J.items)
    (hW : 0 < J.workers) (hstep : step J s act = some t) : Ended J t := by
  rcases act with w | ⟨k, saved⟩ | _ | w | _
  case work =>
    have hapart := apart_work hstep
    refine ⟨fun stamped hat hc ↦ ?_, fun hat ↦ ?_⟩
    · have hcomplete := hended.complete stamped (hapart.finished hat) (hapart.cancelled ▸ hc)
      rw [Complete, hapart.applied, hapart.rewritten]
      exact hcomplete
    · rw [hapart.cancelled]
      exact hended.stamped (hapart.finished hat)
  case coordinate =>
    refine ⟨fun stamped hat hc ↦ ?_, fun hat ↦ ?_⟩
    · obtain ⟨hfrom, -, rfl⟩ := coordinate_finished hstep hat
      obtain ⟨hcancelled, hcancel⟩ := Bool.or_eq_false_iff.mp hc
      have hcomplete : Complete J s := complete_of_stamping h hexpect hW hfrom hcancelled hcancel
      exact hcomplete
    · obtain ⟨-, hstamped, rfl⟩ := coordinate_finished hstep hat
      have hnot := (Bool.and_eq_true_iff.mp hstamped.symm).1
      exact (Bool.not_eq_true' _).mp hnot
  case cancel =>
    obtain rfl := Option.some.inj hstep
    exact ⟨hended.complete, hended.stamped⟩
  case wakeWorker =>
    obtain ⟨a, -, hstep⟩ := Option.bind_eq_some_iff.mp hstep
    obtain rfl := Option.some.inj hstep
    exact ⟨hended.complete, hended.stamped⟩
  case wakeCoordinator =>
    obtain rfl := Option.some.inj hstep
    exact ⟨fun stamped hat ↦ hended.complete stamped (wake_eq_finished hat),
      fun hat ↦ hended.stamped (wake_eq_finished hat)⟩

/-! ## The count of results -/

/-- The coordinator collects no more results than it expects. -/
def Bounded (J : Job) (s : Pool) : Prop :=
  (s.collected : ℤ) + s.coordinator.held.length ≤ max J.expect 0

theorem Apart.bounded (h : Apart s t) (hbounded : Bounded J s) : Bounded J t := by
  rw [Bounded, h.collected, h.held]
  exact hbounded

theorem bounded_coordinate (h : Bounded J s) {k : ℕ} {saved : Bool}
    (hstep : coordinate J k saved s = some t) : Bounded J t ∧ t.cancel = s.cancel := by
  -- all but popping a result and counting it
  have hgo {c : Coordinator} (hheld : c.held = []) : (s.collected : ℤ) + c.held.length ≤ max J.expect 0 := by
    rw [Bounded] at h
    rw [hheld, List.length_nil]
    omega
  rcases hat : s.coordinator with _ | _ | _ | i | i | _ | _ | _ | _ | _ | _ | _
  all_goals
    rw [coordinate, hat] at hstep
    dsimp only at hstep
  case sleeping | finished => cases hstep
  case popped =>
    obtain ⟨workers, rfl⟩ := notifyWorker_eq hstep
    rw [Bounded, hat] at h
    exact ⟨h, rfl⟩
  case applying =>
    obtain rfl := Option.some.inj hstep
    rw [Bounded, hat] at h
    refine ⟨?_, rfl⟩
    simp only [Bounded, Coordinator.held, List.length_singleton, List.length_nil] at h ⊢
    omega
  case popping =>
    by_cases hle : J.expect ≤ s.collected
    · rw [if_pos hle] at hstep
      obtain rfl := Option.some.inj hstep
      exact ⟨hgo rfl, rfl⟩
    · rw [if_neg hle] at hstep
      rcases hq : s.queue with _ | ⟨i, queue⟩
      all_goals
        rw [hq] at hstep
        obtain rfl := Option.some.inj hstep
      · refine ⟨hgo ?_, rfl⟩
        split_ifs <;> rfl
      · refine ⟨?_, rfl⟩
        simp only [Bounded, Coordinator.held, List.length_singleton]
        omega
  case rewriting =>
    split_ifs at hstep
    all_goals
      obtain rfl := Option.some.inj hstep
      exact ⟨hgo rfl, rfl⟩
  case looking | joining =>
    split_ifs at hstep
    all_goals
      obtain rfl := Option.some.inj hstep
      exact ⟨hgo rfl, rfl⟩
  case left =>
    obtain rfl := Option.some.inj hstep
    refine ⟨hgo ?_, rfl⟩
    split_ifs <;> rfl
  all_goals
    obtain rfl := Option.some.inj hstep
    exact ⟨hgo rfl, rfl⟩

/-- A run without cancelling, so far. -/
structure Uncancelled (J : Job) (s : Pool) : Prop where
  inv : Inv J s.workers s
  waiting : Waiting J s.workers s
  bounded : Bounded J s
  cancel : s.cancel = false
  saved : ∀ stamped, s.coordinator = .finished stamped → stamped = true

theorem uncancelled_start (hW : 0 < J.workers) : Uncancelled J (start J) :=
  ⟨⟨items_start J, threads_start hW⟩, waiting_start J, Int.le_max_right _ _, rfl, nofun⟩

/-- Without cancelling, some thread can take a step until the coordinator has finished. -/
theorem Uncancelled.progress (h : Uncancelled J s) (hN : 0 < J.items)
    (hnot : ¬ ∃ stamped, s.coordinator = .finished stamped) :
    ∃ act t, True ∧ step J s act = some t ∧ Uncancelled J t ∧
      remaining J t.workers t < remaining J s.workers s := by
  have hunfinished : Unfinished s := .inl fun stamped hat ↦ hnot ⟨stamped, hat⟩
  rcases exists_step h.inv h.waiting hunfinished with ⟨w, hw⟩ | ⟨k, hk⟩
  · obtain ⟨t, ht⟩ := Option.isSome_iff_exists.mp hw
    have hstep : step J s (.work w) = some t := ht
    have hapart := apart_work ht
    refine ⟨.work w, t, trivial, hstep, ⟨inv_step hN h.inv hstep, waiting_step h.waiting h.inv.threads hstep,
      hapart.bounded h.bounded, hapart.cancel.trans h.cancel, fun stamped hat ↦ ?_⟩,
      remaining_work h.inv.threads ht⟩
    exact h.saved stamped (hapart.finished hat)
  · obtain ⟨t, ht⟩ := Option.isSome_iff_exists.mp hk
    have hstep : step J s (.coordinate k true) = some t := ht
    obtain ⟨hbounded, hcancel⟩ := bounded_coordinate h.bounded ht
    refine ⟨.coordinate k true, t, trivial, hstep, ⟨inv_step hN h.inv hstep,
      waiting_step h.waiting h.inv.threads hstep, hbounded, hcancel.trans h.cancel, fun stamped hat ↦ ?_⟩,
      remaining_coordinate h.inv.threads ht⟩
    obtain ⟨hfrom, hstamped, -⟩ := coordinate_finished ht hat
    have hcancelled : s.cancelled = false := by
      by_contra hc
      exact Bool.false_ne_true (h.cancel.symm.trans (h.inv.threads.cancelled ((Bool.not_eq_false _).mp hc)))
    rw [hstamped, hcancelled, h.cancel]
    rfl

/-- **A run that is not cancelled comes to its end**, if only the threads take their steps. -/
theorem exists_uncancelled_run (hN : 0 < J.items) (hW : 0 < J.workers) :
    ∃ acts t, Run.run (step J) (start J) acts = some t ∧ Uncancelled J t ∧ t.coordinator = .finished true := by
  obtain ⟨acts, t, -, hrun, hkept, stamped, hat⟩ := Run.exists_run_of_measure
    (fun s ↦ remaining J s.workers s) (fun s h ↦ h.progress hN) (uncancelled_start hW)
  exact ⟨acts, t, hrun, hkept, hkept.saved stamped hat ▸ hat⟩

/-- Fewer results were applied than there are items. -/
theorem Uncancelled.not_complete (h : Uncancelled J s) (hlt : J.expect < J.items) (hN : 0 < J.items) :
    ¬ Complete J s := by
  rintro ⟨hperm, -⟩
  have hlength := hperm.length_eq
  rw [List.length_range, ← h.inv.items.collected] at hlength
  have hbounded := h.bounded
  rw [Bounded, hlength] at hbounded
  omega

/-! ## The pool as a whole -/

/-- **What a pool is for.** No item is applied twice, some thread can go on until all have finished, and
both a pass that nobody cancelled and one that is stamped have done all of the work. -/
structure Sound (J : Job) (s : Pool) : Prop where
  once : s.applied.Nodup
  live : Unfinished s → (∃ w, (work J w s).isSome = true) ∨ ∃ k, (coordinate J k true s).isSome = true
  complete : ∀ stamped, s.coordinator = .finished stamped → s.cancel = false → Complete J s
  stamped : s.coordinator = .finished true → Complete J s

theorem inv_run (hN : 0 < J.items) (hW : 0 < J.workers) {acts : List Action}
    (hrun : Run.run (step J) (start J) acts = some s) : Inv J s.workers s ∧ Waiting J s.workers s := by
  refine Run.invariant (I := fun s ↦ Inv J s.workers s ∧ Waiting J s.workers s) (fun h _ hstep ↦
    ⟨inv_step hN h.1 hstep, waiting_step h.2 h.1.threads hstep⟩)
    ⟨⟨items_start J, threads_start hW⟩, waiting_start J⟩ (Run.meets_of_forall fun _ _ ↦ trivial) hrun

theorem ended_run (hN : 0 < J.items) (hW : 0 < J.workers) (hexpect : J.expect = J.items) {acts : List Action}
    (hrun : Run.run (step J) (start J) acts = some s) : Inv J s.workers s ∧ Ended J s := by
  refine Run.invariant (I := fun s ↦ Inv J s.workers s ∧ Ended J s) (fun h _ hstep ↦
    ⟨inv_step hN h.1 hstep, ended_step h.1 h.2 hexpect hW hstep⟩)
    ⟨⟨items_start J, threads_start hW⟩, nofun, nofun⟩ (Run.meets_of_forall fun _ _ ↦ trivial) hrun

/-- **The pool is sound in every run** if and only if an `int` counts the items. -/
theorem pool_sound_iff (hN : 0 < J.items) (hW : 0 < J.workers) :
    (∀ acts s, Run.run (step J) (start J) acts = some s → Sound J s) ↔ J.items < 2 ^ 31 := by
  constructor
  · intro hsound
    by_contra hge
    obtain ⟨acts, t, hrun, hkept, hat⟩ := exists_uncancelled_run hN hW
    have hlt := J.expect_lt
    exact hkept.not_complete (by omega) hN ((hsound acts t hrun).stamped hat)
  · intro hlt acts s hrun
    have hexpect := Job.expect_of_lt hlt
    obtain ⟨hinv, hwait⟩ := inv_run hN hW hrun
    have hended := (ended_run hN hW hexpect hrun).2
    refine ⟨nodup_applied hinv.items, exists_step hinv hwait, fun stamped hat hcancel ↦ ?_, fun hat ↦ ?_⟩
    · refine hended.complete stamped hat ?_
      by_contra hc
      exact Bool.false_ne_true (hcancel.symm.trans (hinv.threads.cancelled ((Bool.not_eq_false _).mp hc)))
    · exact hended.complete true hat (hended.stamped hat)

theorem pool_sound_iff_twoItems :
    (∀ acts s, Run.run (step ⟨2, 2, 1⟩) (start ⟨2, 2, 1⟩) acts = some s → Sound ⟨2, 2, 1⟩ s) ↔ 2 < 2 ^ 31 :=
  pool_sound_iff (J := ⟨2, 2, 1⟩) (by decide) (by decide)

/-- With one item more than an `int` counts, a pass that nobody cancelled is stamped, and left out items. -/
theorem pool_stamped_partial : ∃ acts s, Run.run (step ⟨2 ^ 31, 1, 0⟩) (start ⟨2 ^ 31, 1, 0⟩) acts = some s ∧
    s.coordinator = .finished true ∧ s.cancel = false ∧ ¬ Complete ⟨2 ^ 31, 1, 0⟩ s := by
  obtain ⟨acts, s, hrun, hkept, hat⟩ := exists_uncancelled_run (J := ⟨2 ^ 31, 1, 0⟩) (by decide) (by decide)
  exact ⟨acts, s, hrun, hat, hkept.cancel, hkept.not_complete (by decide) (by decide)⟩

end MigrationPool

end SafeVault
