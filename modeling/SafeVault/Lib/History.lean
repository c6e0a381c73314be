import Mathlib.Data.List.Basic

/-!
# Runs of a partial step function, and what their history admits

A system is a step function `σ → α → Option σ`; a step that is not enabled gives nothing. A run is a
list of actions. A condition on steps is met by a run when every step meets it in the state it starts
from, and an invariant that every such step keeps holds at the end of the run.

A history is a list of events in the order they happened. A *past-time property* says of an event
whether it may follow a given history; a history is admitted when every event in it may follow the
events before it. Adding one event is then one step of the proof.
-/

namespace SafeVault

namespace Run

variable {σ α : Type} {step : σ → α → Option σ} {s t : σ} {a : α} {as : List α}

/-- The state after the actions of the list, if each one is enabled. -/
def run (step : σ → α → Option σ) : σ → List α → Option σ
  | s, [] => some s
  | s, a :: as => (step s a).bind (run step · as)

/-- Every step of the run meets `C` in the state it starts from. -/
def Meets (step : σ → α → Option σ) (C : σ → α → Prop) : σ → List α → Prop
  | _, [] => True
  | s, a :: as => C s a ∧ match step s a with
    | none => True
    | some t => Meets step C t as

@[simp] theorem run_nil : run step s [] = some s := rfl

theorem run_cons : run step s (a :: as) = (step s a).bind (run step · as) := rfl

theorem Meets.tail {C : σ → α → Prop} (h : Meets step C s (a :: as)) (hs : step s a = some t) :
    Meets step C t as := by
  have h2 := h.2
  rwa [hs] at h2

/-- **The run lemma.** What every step that meets the condition keeps holds at the end of a run whose
steps all meet it. -/
theorem invariant {C : σ → α → Prop} {I : σ → Prop}
    (hstep : ∀ {s a t}, I s → C s a → step s a = some t → I t) (hs : I s)
    (hC : Meets step C s as) (hrun : run step s as = some t) : I t := by
  induction as generalizing s with
  | nil =>
    rw [run_nil, Option.some_inj] at hrun
    exact hrun ▸ hs
  | cons a as ih =>
    rw [run_cons, Option.bind_eq_some_iff] at hrun
    obtain ⟨u, hu, hrun⟩ := hrun
    exact ih (hstep hs hC.1 hu) (hC.tail hu) hrun

/-- A condition on the actions alone. -/
theorem meets_of_forall_mem {C : α → Prop} (h : ∀ a ∈ as, C a) :
    Meets step (fun _ a ↦ C a) s as := by
  induction as generalizing s with
  | nil => trivial
  | cons a as ih =>
    refine ⟨h a List.mem_cons_self, ?_⟩
    split
    · trivial
    · exact ih fun b hb ↦ h b (List.mem_cons_of_mem a hb)

/-- A condition without content is met by every run. -/
theorem meets_of_forall {C : σ → α → Prop} (h : ∀ s a, C s a) : Meets step C s as := by
  induction as generalizing s with
  | nil => trivial
  | cons a as ih =>
    refine ⟨h s a, ?_⟩
    split
    exacts [trivial, ih]

/-- Where up to the end some step is enabled that keeps the invariant and makes a measure smaller, there is
a run to the end. -/
theorem exists_run_of_measure {C : α → Prop} {I E : σ → Prop} (measure : σ → ℕ)
    (hstep : ∀ s, I s → ¬ E s → ∃ a t, C a ∧ step s a = some t ∧ I t ∧ measure t < measure s)
    (hs : I s) : ∃ as t, (∀ a ∈ as, C a) ∧ run step s as = some t ∧ I t ∧ E t := by
  induction hn : measure s using Nat.strongRecOn generalizing s with
  | _ n ih =>
    by_cases hE : E s
    · exact ⟨[], s, nofun, run_nil, hs, hE⟩
    · obtain ⟨a, u, ha, hu, hI, hlt⟩ := hstep s hs hE
      obtain ⟨as, t, has, hrun, hdone⟩ := ih (measure u) (hn ▸ hlt) hI rfl
      refine ⟨a :: as, t, List.forall_mem_cons.mpr ⟨ha, has⟩, ?_, hdone⟩
      rw [run_cons, hu]
      exact hrun

end Run

namespace History

variable {ε : Type} {P Q : List ε → ε → Prop} {past : List ε} {e : ε}

/-- Every event of the history may follow the events before it. -/
def Admits (P : List ε → ε → Prop) (log : List ε) : Prop :=
  ∀ past e rest, log = past ++ e :: rest → P past e

@[simp] theorem admits_nil : Admits P [] := by
  intro past e rest h
  simp at h

/-- One more event asks for one more fact. -/
theorem admits_concat : Admits P (past ++ [e]) ↔ Admits P past ∧ P past e := by
  constructor
  · intro h
    refine ⟨fun past' e' rest hlog ↦ h past' e' (rest ++ [e]) ?_, h past e [] rfl⟩
    rw [hlog, List.append_assoc, List.cons_append]
  · rintro ⟨h, he⟩ past' e' rest hlog
    rcases List.eq_nil_or_concat rest with rfl | ⟨rest', f, rfl⟩
    · obtain ⟨rfl, h1⟩ := List.append_inj' hlog rfl
      rw [List.cons.injEq] at h1
      exact h1.1 ▸ he
    · rw [List.concat_eq_append, ← List.cons_append, ← List.append_assoc] at hlog
      exact h past' e' rest' (List.append_inj' hlog rfl).1

theorem admits_of_append {rest : List ε} (h : Admits P (past ++ rest)) : Admits P past := by
  intro past' e' rest' hlog
  refine h past' e' (rest' ++ rest) ?_
  rw [hlog, List.append_assoc, List.cons_append]

end History

end SafeVault
