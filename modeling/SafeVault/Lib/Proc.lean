import Mathlib.Data.List.Basic

/-!
# Procedures and the states they pass through

A procedure runs on a state, may stop with an error, and passes through intermediate states on the
way. What has to hold in case the power fails is a property of all of them, not only of the last one.
A run therefore yields the list of states it has passed through, its outcome, and the final state.

## The rules

`wp I x Q E s` says that from `s` the procedure `x` passes only through states satisfying `I`, that a
result satisfies `Q` in the final state, and an error satisfies `E` there. It commutes with sequencing
exactly, so a procedure is verified by rewriting along its own text.
-/

namespace SafeVault

/-- A procedure on states `σ` with errors `ε`: the states passed through, the outcome, the final
state. -/
def Proc (σ ε α : Type*) := σ → List σ × Except ε α × σ

namespace Proc

variable {σ ε α β : Type*}

/-- Return a value without touching the state. -/
def ret (a : α) : Proc σ ε α := fun s ↦ ([], .ok a, s)

/-- Run one procedure after another; an error stops the run. -/
def seq (x : Proc σ ε α) (f : α → Proc σ ε β) : Proc σ ε β := fun s ↦
  match x s with
  | (visited, .error e, s') => (visited, .error e, s')
  | (visited, .ok a, s') =>
    let (visited', r, s'') := f a s'
    (visited ++ visited', r, s'')

instance : Monad (Proc σ ε) where
  pure := ret
  bind := seq

/-- Stop with an error. -/
def stop (e : ε) : Proc σ ε α := fun s ↦ ([], .error e, s)

/-- One step: it leads to a new state, with or without success. -/
def step (f : σ → Except ε α × σ) : Proc σ ε α := fun s ↦ ([(f s).2], (f s).1, (f s).2)

/-- Read something off the state. -/
def look (f : σ → α) : Proc σ ε α := fun s ↦ ([], .ok (f s), s)

/-! ## Runs -/

/-- The states a run passes through, the starting state included. -/
def states (x : Proc σ ε α) (s : σ) : List σ := s :: (x s).1

def outcome (x : Proc σ ε α) (s : σ) : Except ε α := (x s).2.1

def final (x : Proc σ ε α) (s : σ) : σ := (x s).2.2

/-! ## Weakest preconditions -/

/-- The starting states from which all states passed through satisfy `I`, results satisfy `Q`, and
errors satisfy `E`. -/
def wp (I : σ → Prop) (x : Proc σ ε α) (Q : α → σ → Prop) (E : ε → σ → Prop) (s : σ) : Prop :=
  (∀ t ∈ (x s).1, I t) ∧
    match (x s).2.1 with
    | .ok a => Q a (x s).2.2
    | .error e => E e (x s).2.2

variable {I : σ → Prop} {Q : α → σ → Prop} {E : ε → σ → Prop} {s : σ}

@[simp] theorem wp_pure {a : α} : wp I (pure a) Q E s ↔ Q a s := by
  change (∀ t ∈ ([] : List σ), I t) ∧ Q a s ↔ Q a s
  simp

@[simp] theorem wp_stop {e : ε} : wp I (stop e) Q E s ↔ E e s := by
  change (∀ t ∈ ([] : List σ), I t) ∧ E e s ↔ E e s
  simp

@[simp] theorem wp_look {f : σ → α} : wp I (look f) Q E s ↔ Q (f s) s := by
  change (∀ t ∈ ([] : List σ), I t) ∧ Q (f s) s ↔ Q (f s) s
  simp

theorem wp_step {f : σ → Except ε α × σ} :
    wp I (step f) Q E s ↔ I (f s).2 ∧
      match (f s).1 with
      | .ok a => Q a (f s).2
      | .error e => E e (f s).2 := by
  change (∀ t ∈ [(f s).2], I t) ∧ _ ↔ _
  rw [List.forall_mem_singleton]
  rfl

theorem wp_seq {x : Proc σ ε α} {f : α → Proc σ ε β} {Q : β → σ → Prop} :
    wp I (seq x f) Q E s ↔ wp I x (fun a ↦ wp I (f a) Q E) E s := by
  rcases hx : x s with ⟨visited, r, s'⟩
  cases r with
  | error e => simp only [wp, seq, hx]
  | ok a =>
    simp only [wp, seq, hx, List.forall_mem_append]
    exact and_assoc

@[simp] theorem wp_bind {α β : Type} {x : Proc σ ε α} {f : α → Proc σ ε β} {Q : β → σ → Prop} :
    wp I (x >>= f) Q E s ↔ wp I x (fun a ↦ wp I (f a) Q E) E s := wp_seq

/-- Weaken all three conditions. -/
theorem wp_mono {I' : σ → Prop} {Q' : α → σ → Prop} {E' : ε → σ → Prop} {x : Proc σ ε α}
    (h : wp I x Q E s) (hI : ∀ t, I t → I' t) (hQ : ∀ a t, Q a t → Q' a t)
    (hE : ∀ e t, E e t → E' e t) : wp I' x Q' E' s := by
  obtain ⟨hvisited, hend⟩ := h
  refine ⟨fun t ht ↦ hI t (hvisited t ht), ?_⟩
  cases hr : (x s).2.1 with
  | ok a =>
    rw [hr] at hend
    exact hQ a _ hend
  | error e =>
    rw [hr] at hend
    exact hE e _ hend

/-- Weaken what holds at the end. -/
theorem wp_imp {Q' : α → σ → Prop} {E' : ε → σ → Prop} {x : Proc σ ε α} (h : wp I x Q E s)
    (hQ : ∀ a t, Q a t → Q' a t) (hE : ∀ e t, E e t → E' e t) : wp I x Q' E' s :=
  wp_mono h (fun _ ht ↦ ht) hQ hE

/-! ## Reading the conclusions off -/

theorem forall_mem_states {x : Proc σ ε α} (hs : I s) (h : wp I x Q E s) :
    ∀ t ∈ x.states s, I t := List.forall_mem_cons.mpr ⟨hs, h.1⟩

theorem of_outcome_ok {x : Proc σ ε α} {a : α} (h : wp I x Q E s) (hr : x.outcome s = .ok a) :
    Q a (x.final s) := by
  have hend := h.2
  rw [outcome] at hr
  rw [hr] at hend
  exact hend

theorem of_outcome_error {x : Proc σ ε α} {e : ε} (h : wp I x Q E s)
    (hr : x.outcome s = .error e) : E e (x.final s) := by
  have hend := h.2
  rw [outcome] at hr
  rw [hr] at hend
  exact hend

/-! ## States on the way -/

section Passed

variable {α β : Type} {x : Proc σ ε α} {f : α → Proc σ ε β} {t : σ}

theorem mem_passed_bind_left (ht : t ∈ (x s).1) : t ∈ ((x >>= f) s).1 := by
  change t ∈ (seq x f s).1
  rw [seq]
  rcases hx : x s with ⟨visited, _ | a, s'⟩
  · rwa [hx] at ht
  · rw [hx] at ht
    exact List.mem_append_left _ ht

theorem mem_passed_bind {a : α} (hok : x.outcome s = .ok a) (ht : t ∈ (f a (x.final s)).1) :
    t ∈ ((x >>= f) s).1 := by
  change t ∈ (seq x f s).1
  rw [outcome] at hok
  rw [final] at ht
  rw [seq]
  rcases hx : x s with ⟨visited, r, s'⟩
  rw [hx] at hok ht
  subst hok
  exact List.mem_append_right _ ht

end Passed

end Proc

end SafeVault
