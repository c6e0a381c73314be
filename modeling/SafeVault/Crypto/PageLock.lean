import Mathlib.Algebra.GroupWithZero.Nat
import SafeVault.Lib.Coalesce
import SafeVault.Lib.History

/-!
# Locked pages and their registry

Secrets are kept in locked memory. The operating system locks whole pages and does not count: unlocking
a page once undoes all locks of it. So a registry counts, for each page, the ranges over it, and the
operating system is asked only when a count becomes one or goes back to zero.

A page is given by its number, which is its address divided by the size of a page; addresses and lengths
are natural numbers, since the code checks that none of its sums passes the largest address.
-/

namespace SafeVault

namespace PageLock

/-! ## The registry and the operating system -/

/-- The counts of the registry, and the pages that are locked. -/
structure Memory where
  /-- `registry.refs` -/
  refs : ℕ → Option ℕ := fun _ ↦ none
  locked : ℕ → Bool := fun _ ↦ false

/-- What happens during one call: whether there is memory for the entry of a page, and whether the
operating system locks the run of pages that begins at a page. -/
structure Answers where
  entry : ℕ → Bool := fun _ ↦ true
  lock : ℕ → Bool := fun _ ↦ true

namespace Memory

def setRef (page : ℕ) (n : Option ℕ) (m : Memory) : Memory :=
  { m with refs := fun p ↦ if p = page then n else m.refs p }

/-- Count one range less over a page, with whether that was the last. -/
def releaseRef (page : ℕ) (m : Memory) : Bool × Memory :=
  match m.refs page with
  | none => (false, m)
  | some n => if n - 1 = 0 then (true, m.setRef page none) else (false, m.setRef page (some (n - 1)))

/-- Lock or unlock a run of pages. -/
def setLocked (value : Bool) (first count : ℕ) (m : Memory) : Memory :=
  { m with locked := fun p ↦ if first ≤ p ∧ p < first + count then value else m.locked p }

/-- `is_new_page` -/
def isNewPage (m : Memory) (page : ℕ) : Bool := m.refs page = some 1

/-- `rollback_page_refs`, over so many pages from the first on. -/
def rollbackPageRefs (first : ℕ) : ℕ → Memory → Memory
  | 0, m => m
  | count + 1, m => rollbackPageRefs (first + 1) count (m.releaseRef first).2

/-- `add_page_ref`, with whether the page was added. -/
def addPageRef (answers : Answers) (page : ℕ) (added : Bool) (m : Memory) : Option (Memory × Bool) :=
  match m.refs page with
  | some n => some (m.setRef page (some (n + 1)), added)
  | none => if answers.entry page then some (m.setRef page (some 1), true) else none

/-- The loop of `add_page_refs`, from a page on. -/
def addFrom (answers : Answers) (first : ℕ) : (page count : ℕ) → Bool → Memory →
    Except Memory (Memory × Bool)
  | _, 0, added, m => .ok (m, added)
  | page, count + 1, added, m =>
    match m.addPageRef answers page added with
    | none => .error (m.rollbackPageRefs first (page - first))
    | some (m, added) => addFrom answers first (page + 1) count added m

def addPageRefs (answers : Answers) (first count : ℕ) (m : Memory) : Except Memory (Memory × Bool) :=
  m.addFrom answers first first count false

/-- `unlock_new_pages_before` -/
def unlockNewPagesBefore (first stop : ℕ) (m : Memory) : Except Empty Memory :=
  Coalesce.sweep (fun page m ↦ (m.isNewPage page, m))
    (fun first count m ↦ .ok (m.setLocked false first count)) first (stop - first) 0 m

end Memory

/-- The value of a computation that cannot fail. -/
def value {α : Type} : Except Empty α → α
  | .ok a => a

namespace Memory

/-- `lock_new_pages` -/
def lockNewPages (answers : Answers) (first count : ℕ) (m : Memory) : Except Memory Memory :=
  Coalesce.sweep (fun page m ↦ (m.isNewPage page, m))
    (fun run count m ↦ if answers.lock run then .ok (m.setLocked true run count)
      else .error (value (m.unlockNewPagesBefore first run))) first count 0 m

/-- `release_page_refs` -/
def releasePageRefs (first count : ℕ) (m : Memory) : Except Empty Memory :=
  Coalesce.sweep releaseRef (fun run count m ↦ .ok (m.setLocked false run count)) first count 0 m

end Memory

/-! ## Locking and unlocking a range -/

/-- The largest address. -/
def maxAddress : ℕ := 2 ^ 64 - 1

section Calls

variable (pageSize : ℕ)

/-- The first page of a range. -/
def firstPage (addr : ℕ) : ℕ := addr / pageSize

def lastPage (addr n : ℕ) : ℕ := (addr + n - 1) / pageSize

/-- How many pages a range is over. -/
def pageCount (addr n : ℕ) : ℕ := lastPage pageSize addr n + 1 - firstPage pageSize addr

/-- `mem_lock` -/
def memLock (answers : Answers) (addr n : ℕ) (m : Memory) : Bool × Memory :=
  if addr = 0 ∨ n = 0 then (false, m)
  else if maxAddress - (n - 1) < addr then (false, m)
  else if maxAddress - pageSize < lastPage pageSize addr n * pageSize then (false, m)
  else
    match m.addPageRefs answers (firstPage pageSize addr) (pageCount pageSize addr n) with
    | .error m => (false, m)
    | .ok (m, false) => (true, m)
    | .ok (m, true) =>
      match m.lockNewPages answers (firstPage pageSize addr) (pageCount pageSize addr n) with
      | .ok m => (true, m)
      | .error m =>
        (false, m.rollbackPageRefs (firstPage pageSize addr) (pageCount pageSize addr n))

/-- `mem_unlock` -/
def memUnlock (addr n : ℕ) (m : Memory) : Memory :=
  if addr = 0 ∨ n = 0 then m
  else if maxAddress - (n - 1) < addr then m
  else value (m.releasePageRefs (firstPage pageSize addr) (pageCount pageSize addr n))

/-! ## Runs -/

/-- The memory with the ranges that are locked, each as often as it was locked. -/
structure State where
  memory : Memory := {}
  live : List (ℕ × ℕ) := []

inductive Action where
  | lock (addr n : ℕ) (answers : Answers)
  /-- A range is unlocked that was locked and not unlocked yet. -/
  | unlock (addr n : ℕ)

def step (s : State) : Action → Option State
  | .lock addr n answers =>
    match memLock pageSize answers addr n s.memory with
    | (true, memory) => some { memory, live := (addr, n) :: s.live }
    | (false, memory) => some { s with memory }
  | .unlock addr n =>
    if (addr, n) ∈ s.live then
      some { memory := memUnlock pageSize addr n s.memory, live := s.live.erase (addr, n) }
    else none

/-- The range is outside the first page. -/
def Action.OutsideFirst : Action → Prop
  | .lock addr _ _ => pageSize ≤ addr
  | .unlock .. => True

end Calls

/-! ## A memory by its counts -/

/-- The memory with a count for each page, and none at zero. -/
def ofCounts (c : ℕ → ℕ) (locked : ℕ → Bool) : Memory where
  refs p := if c p = 0 then none else some (c p)
  locked := locked

/-- One range more over the pages from `a` up to `b`. -/
def raise (a b : ℕ) (c : ℕ → ℕ) (p : ℕ) : ℕ := if a ≤ p ∧ p < b then c p + 1 else c p

def lower (a b : ℕ) (c : ℕ → ℕ) (p : ℕ) : ℕ := if a ≤ p ∧ p < b then c p - 1 else c p

variable {c : ℕ → ℕ} {locked : ℕ → Bool} {answers : Answers} {first page count : ℕ}

theorem setRef_ofCounts (page n : ℕ) :
    (ofCounts c locked).setRef page (if n = 0 then none else some n) =
      ofCounts (fun p ↦ if p = page then n else c p) locked := by
  rw [Memory.setRef, ofCounts, ofCounts]
  refine congrArg (fun refs ↦ (⟨refs, locked⟩ : Memory)) (funext fun p ↦ ?_)
  by_cases hp : p = page
  · rw [if_pos hp, if_pos hp]
  · rw [if_neg hp, if_neg hp]

theorem releaseRef_ofCounts (page : ℕ) :
    (ofCounts c locked).releaseRef page =
      (decide (c page = 1), ofCounts (fun p ↦ if p = page then c page - 1 else c p) locked) := by
  have hset := @setRef_ofCounts c locked page (c page - 1)
  rw [Memory.releaseRef]
  rcases hc : c page with _ | n
  · -- there is no entry
    have hsame : (fun p ↦ if p = page then 0 else c p) = c := by
      funext p
      split_ifs with hp
      · rw [hp, hc]
      · rfl
    have hentry : (ofCounts c locked).refs page = none := by simp [ofCounts, hc]
    rw [hentry]
    exact congrArg (Prod.mk false) (congrArg (ofCounts · locked) hsame.symm)
  · rw [hc] at hset
    have hentry : (ofCounts c locked).refs page = some (n + 1) := by simp [ofCounts, hc]
    rw [hentry]
    dsimp only
    rw [Nat.add_sub_cancel] at hset ⊢
    by_cases hn : n = 0
    · rw [if_pos hn] at hset ⊢
      rw [hset, hn]
      rfl
    · rw [if_neg hn] at hset ⊢
      rw [hset, decide_eq_false (by omega)]

theorem rollbackPageRefs_ofCounts (first count : ℕ) (c : ℕ → ℕ) :
    (ofCounts c locked).rollbackPageRefs first count =
      ofCounts (lower first (first + count) c) locked := by
  induction count generalizing first c with
  | zero =>
    refine congrArg (ofCounts · locked) (funext fun p ↦ ?_)
    rw [lower, if_neg (by omega)]
  | succ count ih =>
    rw [Memory.rollbackPageRefs, releaseRef_ofCounts, ih]
    refine congrArg (ofCounts · locked) (funext fun p ↦ ?_)
    rw [lower, lower]
    split_ifs <;> first | omega | (subst_vars; omega)

theorem lower_raise (a b : ℕ) (c : ℕ → ℕ) : lower a b (raise a b c) = c := by
  funext p
  rw [lower, raise]
  split_ifs <;> omega

/-! ## What each part of a call does -/

theorem addPageRef_ofCounts (page : ℕ) (added : Bool) :
    (ofCounts c locked).addPageRef answers page added =
      if c page = 0 ∧ answers.entry page = false then none
      else some (ofCounts (fun p ↦ if p = page then c page + 1 else c p) locked,
        added || decide (c page = 0)) := by
  have hset := @setRef_ofCounts c locked page (c page + 1)
  rw [if_neg (Nat.succ_ne_zero _)] at hset
  rw [Memory.addPageRef]
  by_cases hc : c page = 0
  · have hentry : (ofCounts c locked).refs page = none := by simp [ofCounts, hc]
    rw [hentry]
    rcases hroom : answers.entry page with _ | _
    · simp [hc]
    · rw [hc] at hset ⊢
      simp [hset]
  · have hentry : (ofCounts c locked).refs page = some (c page) := by simp [ofCounts, hc]
    rw [hentry]
    simp [hc, hset]

/-- **Counting a range.** It leaves everything as it was if there is no memory for an entry. -/
theorem addFrom_ofCounts (hle : first ≤ page) (added : Bool) :
    (ofCounts (raise first page c) locked).addFrom answers first page count added =
        .error (ofCounts c locked) ∨
      ∃ added', (ofCounts (raise first page c) locked).addFrom answers first page count added =
          .ok (ofCounts (raise first (page + count) c) locked, added') ∧
        (added' = false → added = false ∧ ∀ p, page ≤ p → p < page + count → c p ≠ 0) := by
  induction count generalizing page added with
  | zero => exact .inr ⟨added, rfl, fun h ↦ ⟨h, fun p _ _ ↦ by omega⟩⟩
  | succ count ih =>
    have hhere : raise first page c page = c page := by
      rw [raise, if_neg (by omega)]
    have hnext : (fun p ↦ if p = page then raise first page c page + 1 else raise first page c p) =
        raise first (page + 1) c := by
      funext p
      rw [hhere, raise, raise]
      split_ifs <;> first | omega | (subst_vars; omega)
    rw [Memory.addFrom, addPageRef_ofCounts, hnext, hhere]
    by_cases hroom : c page = 0 ∧ answers.entry page = false
    · left
      rw [if_pos hroom]
      dsimp only
      rw [rollbackPageRefs_ofCounts, Nat.add_sub_cancel' hle, lower_raise]
    · rw [if_neg hroom]
      dsimp only
      rcases ih (Nat.le_succ_of_le hle) (added || decide (c page = 0)) with herror | ⟨added', hok, hall⟩
      · exact .inl herror
      · refine .inr ⟨added', by rw [hok, Nat.succ_add_eq_add_succ], fun hnone ↦ ?_⟩
        obtain ⟨hbefore, hlater⟩ := hall hnone
        rw [Bool.or_eq_false_iff, decide_eq_false_iff_not] at hbefore
        refine ⟨hbefore.1, fun p hp hlt ↦ ?_⟩
        rcases hp.eq_or_lt with rfl | hp
        · exact hbefore.2
        · exact hlater p hp (by omega)

/-- Lock or unlock the pages from `a` up to `b`. -/
def withLocked (value : Bool) (a b : ℕ) (locked : ℕ → Bool) (p : ℕ) : Bool :=
  if a ≤ p ∧ p < b then value else locked p

theorem setLocked_ofCounts (value : Bool) {a b : ℕ} (hle : a ≤ b) :
    (ofCounts c locked).setLocked value a (b - a) = ofCounts c (withLocked value a b locked) := by
  rw [Memory.setLocked, Nat.add_sub_cancel' hle]
  rfl

theorem isNewPage_ofCounts (page : ℕ) :
    (ofCounts c locked).isNewPage page = decide (c page = 1) := by
  rw [Memory.isNewPage, ofCounts]
  by_cases hc : c page = 0
  · simp [hc]
  · simp [hc]

/-- The locks of the pages that the registry counts. -/
def counted (c : ℕ → ℕ) (p : ℕ) : Bool := decide (c p ≠ 0)

/-- What locking or unlocking runs has come to at `a`, over pages that some are of. -/
def upTo (value : Bool) (of : ℕ → Bool) (first a : ℕ) (locked : ℕ → Bool) (p : ℕ) : Bool :=
  if first ≤ p ∧ p < a ∧ of p = true then value else locked p

theorem withLocked_upTo {value : Bool} {of : ℕ → Bool} {a q : ℕ} (hle : first ≤ a) (hlt : a < q)
    (hrun : ∀ p, a ≤ p → p < q → of p = true) :
    withLocked value a q (upTo value of first a locked) = upTo value of first q locked := by
  funext p
  rw [withLocked, upTo, upTo]
  by_cases hp : a ≤ p ∧ p < q
  · rw [if_pos hp, if_pos ⟨hle.trans hp.1, hp.2, hrun p hp.1 hp.2⟩]
  · rw [if_neg hp]
    by_cases hof : of p = true
    · simp only [hof, and_true]
      split_ifs <;> first | rfl | omega
    · simp [hof]

theorem upTo_skip {value : Bool} {of : ℕ → Bool} {p : ℕ} (hof : of p = false) :
    upTo value of first (p + 1) locked = upTo value of first p locked := by
  funext i
  rw [upTo, upTo]
  by_cases hi : i = p
  · simp [hi, hof]
  · refine if_congr ?_ rfl rfl
    rw [Nat.lt_succ_iff_lt_or_eq, or_iff_left hi]

/-- **Unlocking the new pages before a run.** -/
theorem unlockNewPagesBefore_ofCounts (hpos : 0 < first) {stop : ℕ} (hle : first ≤ stop) :
    value ((ofCounts c locked).unlockNewPagesBefore first stop) =
      ofCounts c (upTo false (fun p ↦ decide (c p = 1)) first stop locked) := by
  have hrule := @Coalesce.sweep_from _ Empty (fun page (m : Memory) ↦ (m.isNewPage page, m))
    (fun first count m ↦ .ok (m.setLocked false first count)) (fun p ↦ decide (c p = 1))
    (fun a _ m ↦ first ≤ a ∧
      m = ofCounts c (upTo false (fun p ↦ decide (c p = 1)) first a locked))
    (fun _ ↦ False) stop ?_ ?_ ?_ first (stop - first) (ofCounts c locked) hpos ⟨le_rfl, ?_⟩
    (by omega)
  · rw [Memory.unlockNewPagesBefore]
    rcases hresult : Coalesce.sweep (fun page (m : Memory) ↦ (m.isNewPage page, m))
      (fun first count m ↦ Except.ok (m.setLocked false first count)) first (stop - first) 0
        (ofCounts c locked) with e | m
    all_goals rw [hresult] at hrule
    · exact e.elim
    · exact hrule.2
  · rintro a p _ _ ⟨ha, rfl⟩
    exact ⟨isNewPage_ofCounts p, ha, rfl⟩
  · rintro p _ _ ⟨hp, rfl⟩ hflag
    exact ⟨Nat.le_succ_of_le hp, by rw [upTo_skip hflag]⟩
  · rintro a q q' _ ⟨ha, rfl⟩ hlt _ hrun
    refine ⟨ha.trans hlt.le, ?_⟩
    rw [setLocked_ofCounts false hlt.le, withLocked_upTo ha hlt hrun]
  · refine congrArg (ofCounts c) (funext fun p ↦ ?_)
    rw [upTo, if_neg (by omega)]

/-- **Locking the new pages of a range.** If a run cannot be locked, the runs before it are unlocked
again, and these were not locked before. -/
theorem lockNewPages_ofCounts (hpos : 0 < first)
    (hnew : ∀ p, c p = 1 → first ≤ p → p < first + count → locked p = false) :
    Coalesce.Yields
      (· = ofCounts c (upTo true (fun p ↦ decide (c p = 1)) first (first + count) locked))
      (· = ofCounts c locked) ((ofCounts c locked).lockNewPages answers first count) := by
  have hrule := @Coalesce.sweep_from _ _ (fun page (m : Memory) ↦ (m.isNewPage page, m))
    (fun run count m ↦ if answers.lock run then .ok (m.setLocked true run count)
      else .error (value (m.unlockNewPagesBefore first run)))
    (fun p ↦ decide (c p = 1))
    (fun a q m ↦ first ≤ a ∧ q ≤ first + count ∧
      m = ofCounts c (upTo true (fun p ↦ decide (c p = 1)) first a locked))
    (· = ofCounts c locked) (first + count) ?_ ?_ ?_ first count (ofCounts c locked) hpos
    ⟨le_rfl, Nat.le_add_right _ _, ?_⟩ rfl
  · rw [Memory.lockNewPages]
    rcases hresult : Coalesce.sweep _ _ first count 0 (ofCounts c locked) with e | m
    all_goals rw [hresult] at hrule
    · exact hrule
    · exact hrule.2.2
  · rintro a p _ hlt ⟨ha, -, rfl⟩
    exact ⟨isNewPage_ofCounts p, ha, hlt, rfl⟩
  · rintro p _ hlt ⟨hp, -, rfl⟩ hflag
    exact ⟨Nat.le_succ_of_le hp, hlt, by rw [upTo_skip hflag]⟩
  · rintro a q q' _ ⟨ha, hle, rfl⟩ hlt hq hrun
    by_cases hanswer : answers.lock a
    · rw [if_pos hanswer]
      refine ⟨ha.trans hlt.le, hle, ?_⟩
      rw [setLocked_ofCounts true hlt.le, withLocked_upTo ha hlt hrun]
    · rw [if_neg hanswer]
      change value _ = _
      rw [unlockNewPagesBefore_ofCounts hpos ha]
      refine congrArg (ofCounts c) (funext fun p ↦ ?_)
      rw [upTo, upTo]
      by_cases hp : first ≤ p ∧ p < a ∧ decide (c p = 1) = true
      · rw [if_pos hp]
        exact (hnew p (of_decide_eq_true hp.2.2) hp.1 (by omega)).symm
      · rw [if_neg hp, if_neg hp]
  · refine congrArg (ofCounts c) (funext fun p ↦ ?_)
    rw [upTo, if_neg (by omega)]

/-- **Releasing a range.** The pages that it was the last over are unlocked. -/
theorem releasePageRefs_ofCounts (hpos : 0 < first) :
    value ((ofCounts c locked).releasePageRefs first count) =
      ofCounts (lower first (first + count) c)
        (upTo false (fun p ↦ decide (c p = 1)) first (first + count) locked) := by
  have hrule := @Coalesce.sweep_from _ Empty Memory.releaseRef
    (fun first count m ↦ .ok (m.setLocked false first count)) (fun p ↦ decide (c p = 1))
    (fun a q m ↦ first ≤ a ∧ a ≤ q ∧
      m = ofCounts (lower first q c) (upTo false (fun p ↦ decide (c p = 1)) first a locked))
    (fun _ ↦ False) (first + count) ?_ ?_ ?_ first count (ofCounts c locked) hpos
    ⟨le_rfl, le_rfl, ?_⟩ rfl
  · rw [Memory.releasePageRefs]
    rcases hresult : Coalesce.sweep Memory.releaseRef
      (fun first count m ↦ Except.ok (m.setLocked false first count)) first count 0
        (ofCounts c locked) with e | m
    all_goals rw [hresult] at hrule
    · exact e.elim
    · exact hrule.2.2
  · rintro a p _ _ ⟨ha, hle, rfl⟩
    have hhere : lower first p c p = c p := by rw [lower, if_neg (by omega)]
    rw [releaseRef_ofCounts, hhere]
    refine ⟨rfl, ha, Nat.le_succ_of_le hle, congrArg (ofCounts · _) (funext fun i ↦ ?_)⟩
    rw [lower, lower]
    split_ifs <;> first | omega | (subst_vars; omega)
  · rintro p _ _ ⟨hp, _, rfl⟩ hflag
    exact ⟨Nat.le_succ_of_le hp, le_rfl, by rw [upTo_skip hflag]⟩
  · rintro a q q' _ ⟨ha, _, rfl⟩ hlt hq hrun
    refine ⟨ha.trans hlt.le, hq, ?_⟩
    rw [setLocked_ofCounts false hlt.le, withLocked_upTo ha hlt hrun]
  · have hlower : lower first first c = c := funext fun p ↦ by rw [lower, if_neg (by omega)]
    have hupTo : upTo false (fun p ↦ decide (c p = 1)) first first locked = locked :=
      funext fun p ↦ by rw [upTo, if_neg (by omega)]
    rw [hlower, hupTo]

/-! ## Locking and unlocking a range -/

section Ranges

variable {pageSize addr n : ℕ} {m : Memory}

/-- The range ends before the end of the address space, and so does its last page. -/
structure Fits (pageSize addr n : ℕ) : Prop where
  nonnull : addr ≠ 0
  nonempty : n ≠ 0
  range : addr ≤ maxAddress - (n - 1)
  page : lastPage pageSize addr n * pageSize ≤ maxAddress - pageSize

theorem firstPage_le (hn : n ≠ 0) : firstPage pageSize addr ≤ lastPage pageSize addr n :=
  Nat.div_le_div_right (by omega)

theorem firstPage_add_pageCount (hn : n ≠ 0) :
    firstPage pageSize addr + pageCount pageSize addr n = lastPage pageSize addr n + 1 := by
  have hle := @firstPage_le pageSize addr n hn
  rw [pageCount]
  omega

theorem firstPage_pos (hsize : 0 < pageSize) (hout : pageSize ≤ addr) : 0 < firstPage pageSize addr :=
  Nat.div_pos hout hsize

/-- What counting the locks of a range means for the counts. -/
def raised (pageSize addr n : ℕ) (c : ℕ → ℕ) : ℕ → ℕ :=
  raise (firstPage pageSize addr) (lastPage pageSize addr n + 1) c

/-- **`mem_lock`** counts the range and locks what is new, or leaves everything as it was. -/
theorem memLock_ofCounts (hsize : 0 < pageSize) (hout : pageSize ≤ addr) :
    memLock pageSize answers addr n (ofCounts c (counted c)) = (false, ofCounts c (counted c)) ∨
      Fits pageSize addr n ∧ memLock pageSize answers addr n (ofCounts c (counted c)) =
        (true, ofCounts (raised pageSize addr n c) (counted (raised pageSize addr n c))) := by
  have hpos := firstPage_pos hsize hout
  rw [memLock]
  split_ifs with hnull hrange hpage
  · exact .inl rfl
  · exact .inl rfl
  · exact .inl rfl
  rw [not_or] at hnull
  have hfits : Fits pageSize addr n := ⟨hnull.1, hnull.2, not_lt.mp hrange, not_lt.mp hpage⟩
  have hpages := @firstPage_add_pageCount pageSize addr n hnull.2
  have hzero : raise (firstPage pageSize addr) (firstPage pageSize addr) c = c := by
    funext p
    rw [raise, if_neg (by omega)]
  have hadd := @addFrom_ofCounts c (counted c) answers _ _ (pageCount pageSize addr n)
    (le_refl (firstPage pageSize addr)) false
  rw [hzero, hpages] at hadd
  rw [Memory.addPageRefs]
  rcases hadd with hadd | ⟨added, hadd, hnone⟩
  all_goals rw [hadd]
  · exact .inl rfl
  rcases added with _ | _
  · -- every page was locked before
    obtain ⟨-, hall⟩ := hnone rfl
    refine .inr ⟨hfits, congrArg (Prod.mk true) (congrArg (ofCounts _) (funext fun p ↦ ?_))⟩
    rw [counted, counted, raised, raise]
    split_ifs with hp
    · rw [decide_eq_true (hall p hp.1 (hpages ▸ hp.2)), decide_eq_true (Nat.succ_ne_zero _)]
    · rfl
  · have hlock := @lockNewPages_ofCounts (raised pageSize addr n c) (counted c) answers _
      (pageCount pageSize addr n) hpos fun p hnew hle hlt ↦ ?_
    · change Coalesce.Yields _ _ (Memory.lockNewPages answers _ _
        (ofCounts (raise _ (lastPage pageSize addr n + 1) c) _)) at hlock
      rcases hresult : Memory.lockNewPages answers (firstPage pageSize addr) (pageCount pageSize addr n)
        (ofCounts (raise (firstPage pageSize addr) (lastPage pageSize addr n + 1) c) (counted c)) with e | m
      all_goals
        rw [hresult] at hlock
        dsimp only
        rw [hresult]
        dsimp only
      · left
        obtain rfl : e = _ := hlock
        rw [rollbackPageRefs_ofCounts, hpages, raised, lower_raise]
      · right
        obtain rfl : m = _ := hlock
        refine ⟨hfits, congrArg (Prod.mk true) (congrArg (ofCounts _) (funext fun p ↦ ?_))⟩
        rw [hpages, upTo, counted, counted, raised, raise]
        by_cases hp : firstPage pageSize addr ≤ p ∧ p < lastPage pageSize addr n + 1
        · rw [if_pos hp, decide_eq_true (Nat.succ_ne_zero _)]
          by_cases hzero : c p = 0 <;> simp [hp, hzero]
        · rw [if_neg hp, if_neg fun h ↦ hp ⟨h.1, h.2.1⟩]
    · rw [raised, raise, if_pos ⟨hle, hpages ▸ hlt⟩] at hnew
      rw [counted, decide_eq_false_iff_not, not_not]
      omega

/-- **`mem_unlock`** takes the range out of the counts, and unlocks what no other range is over. -/
theorem memUnlock_ofCounts (hsize : 0 < pageSize) (hout : pageSize ≤ addr)
    (hfits : Fits pageSize addr n) :
    memUnlock pageSize addr n (ofCounts c (counted c)) =
      ofCounts (lower (firstPage pageSize addr) (lastPage pageSize addr n + 1) c)
        (counted (lower (firstPage pageSize addr) (lastPage pageSize addr n + 1) c)) := by
  have hpages := @firstPage_add_pageCount pageSize addr n hfits.nonempty
  rw [memUnlock, if_neg (not_or.mpr ⟨hfits.nonnull, hfits.nonempty⟩),
    if_neg (not_lt.mpr hfits.range), releasePageRefs_ofCounts (firstPage_pos hsize hout), hpages]
  refine congrArg (ofCounts _) (funext fun p ↦ ?_)
  rw [upTo, counted, counted, lower]
  by_cases hp : firstPage pageSize addr ≤ p ∧ p < lastPage pageSize addr n + 1
  · rw [if_pos hp]
    by_cases hone : c p = 1
    · simp [hp, hone]
    · have hsame : (c p - 1 ≠ 0) = (c p ≠ 0) := propext (by omega)
      simp [hone, hsame]
  · rw [if_neg hp, if_neg fun h ↦ hp ⟨h.1, h.2.1⟩]

end Ranges

/-! ## Every run -/

section Runs

variable {pageSize : ℕ} {s t : State} {a : Action}

/-- A range is over a page. -/
def covers (pageSize page : ℕ) (r : ℕ × ℕ) : Bool :=
  firstPage pageSize r.1 ≤ page && page < lastPage pageSize r.1 r.2 + 1

/-- Some byte of the range is in the page. -/
theorem covers_iff (hsize : 0 < pageSize) {page : ℕ} {r : ℕ × ℕ} (hn : r.2 ≠ 0) :
    covers pageSize page r = true ↔ ∃ x, r.1 ≤ x ∧ x < r.1 + r.2 ∧ x / pageSize = page := by
  rw [covers, Bool.and_eq_true, decide_eq_true_eq, decide_eq_true_eq, Nat.lt_succ_iff]
  constructor
  · rintro ⟨hfirst, hlast⟩
    -- the first byte of the page, or of the range if that is later
    refine ⟨max r.1 (page * pageSize), le_max_left _ _, ?_, ?_⟩
    · have hle := Nat.mul_le_of_le_div _ _ _ hlast
      omega
    · rcases le_total r.1 (page * pageSize) with h | h
      · rw [max_eq_right h, Nat.mul_div_cancel _ hsize]
      · rw [max_eq_left h]
        exact le_antisymm hfirst ((Nat.le_div_iff_mul_le hsize).mpr h)
  · rintro ⟨x, hle, hlt, rfl⟩
    exact ⟨Nat.div_le_div_right hle, Nat.div_le_div_right (by omega)⟩

/-- How many locked ranges are over a page. -/
def liveOver (pageSize : ℕ) (live : List (ℕ × ℕ)) (page : ℕ) : ℕ := live.countP (covers pageSize page)

/-- The invariant of the registry. -/
structure Kept (pageSize : ℕ) (s : State) : Prop where
  memory : s.memory = ofCounts (liveOver pageSize s.live) (counted (liveOver pageSize s.live))
  live : ∀ r ∈ s.live, pageSize ≤ r.1 ∧ Fits pageSize r.1 r.2

theorem raised_liveOver (addr n : ℕ) (live : List (ℕ × ℕ)) :
    raised pageSize addr n (liveOver pageSize live) = liveOver pageSize ((addr, n) :: live) := by
  funext p
  have hcovers : covers pageSize p (addr, n) =
      decide (firstPage pageSize addr ≤ p ∧ p < lastPage pageSize addr n + 1) :=
    (Bool.decide_and _ _).symm
  rw [raised, raise, liveOver, liveOver, List.countP_cons, hcovers]
  by_cases hp : firstPage pageSize addr ≤ p ∧ p < lastPage pageSize addr n + 1
  · rw [if_pos hp, if_pos (decide_eq_true hp)]
  · rw [if_neg hp, if_neg (mt of_decide_eq_true hp), Nat.add_zero]

theorem kept_step (hsize : 0 < pageSize) (h : Kept pageSize s) (ha : a.OutsideFirst pageSize)
    (hstep : step pageSize s a = some t) : Kept pageSize t := by
  rcases a with ⟨addr, n, answers⟩ | ⟨addr, n⟩
  · rw [step, h.memory] at hstep
    rcases @memLock_ofCounts (liveOver pageSize s.live) answers _ _ n hsize ha with
      hfail | ⟨hfits, hok⟩
    · rw [hfail] at hstep
      obtain rfl := Option.some.inj hstep
      exact ⟨rfl, h.live⟩
    · rw [hok] at hstep
      obtain rfl := Option.some.inj hstep
      refine ⟨?_, List.forall_mem_cons.mpr ⟨⟨ha, hfits⟩, h.live⟩⟩
      dsimp only
      rw [raised_liveOver]
  · rw [step] at hstep
    split_ifs at hstep with hmem
    obtain rfl := Option.some.inj hstep
    obtain ⟨hout, hfits⟩ := h.live _ hmem
    refine ⟨?_, fun r hr ↦ h.live r (List.mem_of_mem_erase hr)⟩
    have hcounts : lower (firstPage pageSize addr) (lastPage pageSize addr n + 1)
        (liveOver pageSize s.live) = liveOver pageSize (s.live.erase (addr, n)) := by
      have hperm : s.live.Perm ((addr, n) :: s.live.erase (addr, n)) := List.perm_cons_erase hmem
      have hbefore : liveOver pageSize s.live =
          raised pageSize addr n (liveOver pageSize (s.live.erase (addr, n))) := by
        rw [raised_liveOver]
        exact funext fun p ↦ hperm.countP_eq _
      rw [hbefore, raised, lower_raise]
    dsimp only
    rw [h.memory, memUnlock_ofCounts hsize hout hfits, hcounts]

/-- **The registry over every run.** The count of a page is the number of locked ranges over it, and the
page is locked just when there is one. A call that fails leaves everything as it was. -/
theorem registry_exact (hsize : 0 < pageSize) (as : List Action)
    (hout : ∀ a ∈ as, a.OutsideFirst pageSize) (hrun : Run.run (step pageSize) {} as = some s) :
    (∀ page, s.memory.refs page = if s.live.countP (covers pageSize page) = 0 then none
      else some (s.live.countP (covers pageSize page))) ∧
    (∀ page, s.memory.locked page = true ↔
      ∃ r ∈ s.live, ∃ x, r.1 ≤ x ∧ x < r.1 + r.2 ∧ x / pageSize = page) ∧
    ∀ answers addr n, pageSize ≤ addr → (memLock pageSize answers addr n s.memory).1 = false →
      (memLock pageSize answers addr n s.memory).2 = s.memory := by
  have hkept : Kept pageSize s := Run.invariant (C := fun _ a ↦ a.OutsideFirst pageSize)
    (fun h ha hstep ↦ kept_step hsize h ha hstep) ⟨rfl, fun _ hr ↦ absurd hr List.not_mem_nil⟩
    (Run.meets_of_forall_mem hout) hrun
  refine ⟨fun page ↦ ?_, fun page ↦ ?_, fun answers addr n haddr hfail ↦ ?_⟩
  · rw [hkept.memory]
    rfl
  · rw [hkept.memory]
    change decide (s.live.countP (covers pageSize page) ≠ 0) = true ↔ _
    rw [decide_eq_true_eq, ← Nat.pos_iff_ne_zero, List.countP_pos_iff]
    refine exists_congr fun r ↦ and_congr_right fun hr ↦ ?_
    exact covers_iff hsize (hkept.live r hr).2.nonempty
  · rw [hkept.memory] at hfail ⊢
    rcases @memLock_ofCounts (liveOver pageSize s.live) answers _ _ n hsize haddr with
      hleft | ⟨-, hok⟩
    · rw [hleft]
    · rw [hok] at hfail
      cases hfail

/-- Two ranges share a page; a third one cannot be locked, and the first is unlocked. -/
def sharedPage : List Action :=
  [.lock 4096 10 {}, .lock 5000 4000 {}, .lock 5100 9000 { lock := fun _ ↦ false }, .unlock 4096 10]

theorem registry_exact_sharedPage :
    ∃ s, Run.run (step 4096) {} sharedPage = some s ∧ s.live = [(5000, 4000)] ∧
      s.memory.refs 1 = some 1 ∧ s.memory.locked 1 = true := by
  have hfacts : (Run.run (step 4096) {} sharedPage).any fun s ↦ s.live = [(5000, 4000)] := by
    decide +kernel
  obtain ⟨s, hs, hfacts⟩ := (Option.any_eq_true _ _).mp hfacts
  have hlive := of_decide_eq_true hfacts
  obtain ⟨hrefs, hlocked, -⟩ := registry_exact (by decide) sharedPage
    (by simp [sharedPage, Action.OutsideFirst]) hs
  refine ⟨s, hs, hlive, ?_, (hlocked 1).mpr ⟨(5000, 4000), ?_, 5000, le_rfl, by decide, by decide⟩⟩
  · rw [hrefs, hlive]
    decide
  · rw [hlive]
    exact List.mem_singleton_self _

end Runs

end PageLock

end SafeVault
