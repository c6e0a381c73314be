import Mathlib.Data.List.Pairwise
import Mathlib.Tactic.SplitIfs
import Mathlib.Tactic.Basic

/-!
# Rows under constraints

A table takes its rows one after another. A row is refused when it fails a check of its own, when the
table is full, or when it clashes with a row that is there; a refused row ends the transaction, so
what a program wants to know of a list of rows is whether all of them go in. That is the case exactly
when each passes the check, they fit, and no two clash.
-/

namespace SafeVault

section Except

variable {ε α β : Type}

theorem bind_eq_ok_iff {x : Except ε α} {f : α → Except ε β} {b : β} :
    x >>= f = .ok b ↔ ∃ a, x = .ok a ∧ f a = .ok b := by
  rcases x with e | a
  · constructor
    · exact fun h ↦ by cases h
    · rintro ⟨a, h, -⟩
      cases h
  · constructor
    · exact fun h ↦ ⟨a, rfl, h⟩
    · rintro ⟨a', h, hf⟩
      cases h
      exact hf

section Loop

variable {f : β → α → Except ε β} {b out : β} {as : List α}

/-- What a step asks of its argument, a loop that went through asked of all of them. -/
theorem forall_of_foldlM {P : α → Prop} (hstep : ∀ b a b', f b a = .ok b' → P a)
    (h : as.foldlM f b = .ok out) : ∀ a ∈ as, P a := by
  induction as generalizing b with
  | nil => exact nofun
  | cons a as ih =>
    rw [List.foldlM_cons, bind_eq_ok_iff] at h
    obtain ⟨b', ha, hrest⟩ := h
    exact List.forall_mem_cons.mpr ⟨hstep b a b' ha, ih hrest⟩

/-- What every step leaves alone, the loop leaves alone. -/
theorem eq_of_foldlM {γ : Type} {g : β → γ} (hstep : ∀ b a b', f b a = .ok b' → g b' = g b)
    (h : as.foldlM f b = .ok out) : g out = g b := by
  induction as generalizing b with
  | nil => rw [← Except.ok.inj h]
  | cons a as ih =>
    rw [List.foldlM_cons, bind_eq_ok_iff] at h
    obtain ⟨b', ha, hrest⟩ := h
    rw [ih hrest, hstep b a b' ha]

/-- A loop goes through when each step does that finds an acceptable argument, as long as there is
room for the steps that are left. -/
theorem exists_foldlM {P : α → Prop} {I : ℕ → β → Prop}
    (hstep : ∀ n b a, I (n + 1) b → P a → ∃ b', f b a = .ok b' ∧ I n b')
    (hb : I as.length b) (has : ∀ a ∈ as, P a) : ∃ out, as.foldlM f b = .ok out ∧ I 0 out := by
  induction as generalizing b with
  | nil => exact ⟨b, rfl, hb⟩
  | cons a as ih =>
    obtain ⟨ha, has⟩ := List.forall_mem_cons.mp has
    obtain ⟨b', hb', hI⟩ := hstep as.length b a hb ha
    obtain ⟨out, hout, hI⟩ := ih hI has
    exact ⟨out, by rw [List.foldlM_cons, bind_eq_ok_iff]; exact ⟨b', hb', hout⟩, hI⟩

end Loop

/-- An error is a real one: never `e`, the status that stands for success. -/
def Honest (e : ε) (x : Except ε α) : Prop := x ≠ .error e

variable {e : ε}

@[simp] theorem honest_ok {a : α} : Honest e (.ok a) := nofun

@[simp] theorem honest_pure {a : α} : Honest e (pure a) := nofun

@[simp] theorem honest_error {e' : ε} : Honest e (.error e' : Except ε α) ↔ e' ≠ e := by
  rw [Honest, ne_eq, Except.error.injEq]

theorem Honest.bind {x : Except ε α} {f : α → Except ε β} (hx : Honest e x)
    (hf : ∀ a, Honest e (f a)) : Honest e (x >>= f) := by
  rcases x with e' | a
  · exact fun h ↦ hx (by cases h; rfl)
  · exact hf a

theorem Honest.foldlM {f : β → α → Except ε β} (hf : ∀ b a, Honest e (f b a)) (b : β)
    (as : List α) : Honest e (as.foldlM f b) := by
  induction as generalizing b with
  | nil => exact honest_pure
  | cons a as ih =>
    rw [List.foldlM_cons]
    exact (hf b a).bind ih

end Except

namespace Table

variable {ρ ε : Type}

/-- The constraints of a table. -/
structure Rule (ρ ε : Type) where
  /-- What is wrong with a row by itself. -/
  check : ρ → Except ε Unit
  /-- The number of rows it can hold, and the answer when it is full. -/
  room : ℕ → Except ε Unit
  /-- Whether a row of the table excludes a new one. -/
  clash : ρ → ρ → Bool
  clashes : ε

/-- One more row at the end of the table. -/
def insert (rule : Rule ρ ε) (rows : List ρ) (row : ρ) : Except ε (List ρ) := do
  rule.check row
  rule.room rows.length
  if rows.any (rule.clash · row) then .error rule.clashes else pure (rows ++ [row])

/-- Rows one after another, up to the first that is refused. -/
def insertAll (rule : Rule ρ ε) (rows : List ρ) : List ρ → Except ε (List ρ)
  | [] => pure rows
  | row :: rest => do
    let rows ← insert rule rows row
    insertAll rule rows rest

/-- A row takes the place of the one with its key, or goes to the end. -/
def upsert (same : ρ → ρ → Bool) (rows : List ρ) (row : ρ) : List ρ :=
  if rows.any (same · row) then rows.map fun r ↦ if same r row then row else r else rows ++ [row]

variable {rule : Rule ρ ε} {rows new out : List ρ} {row : ρ}

/-- A rule whose answers to a refused row are real errors. -/
structure Rule.Honest (rule : Rule ρ ε) (e : ε) : Prop where
  check : ∀ row, SafeVault.Honest e (rule.check row)
  room : ∀ n, SafeVault.Honest e (rule.room n)
  clashes : rule.clashes ≠ e

theorem honest_insert {e : ε} (h : rule.Honest e) : SafeVault.Honest e (insert rule rows row) := by
  refine (h.check row).bind fun _ ↦ (h.room _).bind fun _ ↦ ?_
  split_ifs
  exacts [honest_error.mpr h.clashes, honest_pure]

theorem honest_insertAll {e : ε} (h : rule.Honest e) :
    SafeVault.Honest e (insertAll rule rows new) := by
  induction new generalizing rows with
  | nil => exact honest_pure
  | cons row new ih => exact (honest_insert h).bind fun _ ↦ ih

theorem insert_eq_ok_iff : insert rule rows row = .ok out ↔
    rule.check row = .ok () ∧ rule.room rows.length = .ok () ∧
      (∀ r ∈ rows, rule.clash r row = false) ∧ out = rows ++ [row] := by
  rw [insert, bind_eq_ok_iff]
  constructor
  · rintro ⟨⟨⟩, h₁, h⟩
    obtain ⟨⟨⟩, h₂, h⟩ := bind_eq_ok_iff.mp h
    by_cases hany : rows.any (rule.clash · row) = true
    · rw [if_pos hany] at h
      cases h
    · rw [if_neg hany] at h
      cases h
      exact ⟨h₁, h₂, by simpa using hany, rfl⟩
  · rintro ⟨h₁, h₂, h₃, rfl⟩
    refine ⟨(), h₁, bind_eq_ok_iff.mpr ⟨(), h₂, ?_⟩⟩
    rw [if_neg (by simpa using h₃)]
    rfl

theorem length_upsert_le {same : ρ → ρ → Bool} :
    (upsert same rows row).length ≤ rows.length + 1 := by
  rw [upsert]
  split_ifs
  · rw [List.length_map]
    exact Nat.le_succ _
  · exact Nat.le_of_eq List.length_append

/-- The conditions under which all rows of a list go in. -/
structure Admits (rule : Rule ρ ε) (rows new : List ρ) : Prop where
  check : ∀ r ∈ new, rule.check r = .ok ()
  room : ∀ n < new.length, rule.room (rows.length + n) = .ok ()
  apart : ∀ r ∈ rows, ∀ s ∈ new, rule.clash r s = false
  distinct : new.Pairwise fun r s ↦ rule.clash r s = false

theorem admits_cons_iff : Admits rule rows (row :: new) ↔
    (rule.check row = .ok () ∧ rule.room rows.length = .ok () ∧
      ∀ r ∈ rows, rule.clash r row = false) ∧ Admits rule (rows ++ [row]) new := by
  constructor
  · rintro ⟨hcheck, hroom, hapart, hdistinct⟩
    rw [List.pairwise_cons] at hdistinct
    refine ⟨⟨hcheck row List.mem_cons_self, hroom 0 (Nat.succ_pos _),
      fun r hr ↦ hapart r hr row List.mem_cons_self⟩,
      fun r hr ↦ hcheck r (List.mem_cons_of_mem _ hr), fun n hn ↦ ?_, ?_, hdistinct.2⟩
    · rw [List.length_append, List.length_singleton, Nat.add_assoc, Nat.add_comm 1]
      exact hroom (n + 1) (Nat.succ_lt_succ hn)
    · intro r hr s hs
      rcases List.mem_append.mp hr with hr | hr
      · exact hapart r hr s (List.mem_cons_of_mem _ hs)
      · rw [List.mem_singleton.mp hr]
        exact hdistinct.1 s hs
  · rintro ⟨⟨hcheck, hroom, hapart⟩, hrest⟩
    refine ⟨?_, ?_, ?_, ?_⟩
    · rintro r (_ | ⟨_, hr⟩)
      exacts [hcheck, hrest.check r hr]
    · rintro (_ | n) hn
      · exact hroom
      · have h := hrest.room n (Nat.lt_of_succ_lt_succ hn)
        rwa [List.length_append, List.length_singleton, Nat.add_assoc, Nat.add_comm 1] at h
    · rintro r hr s (_ | ⟨_, hs⟩)
      exacts [hapart r hr, hrest.apart r (List.mem_append_left _ hr) s hs]
    · refine List.pairwise_cons.mpr ⟨fun s hs ↦ ?_, hrest.distinct⟩
      exact hrest.apart row (List.mem_append_right _ List.mem_cons_self) s hs

/-- **When a list of rows goes in.** -/
theorem insertAll_eq_ok_iff : insertAll rule rows new = .ok out ↔
    Admits rule rows new ∧ out = rows ++ new := by
  induction new generalizing rows with
  | nil =>
    constructor
    · intro h
      cases h
      exact ⟨⟨by simp, by simp, by simp, .nil⟩, (List.append_nil _).symm⟩
    · rintro ⟨-, rfl⟩
      rw [List.append_nil]
      rfl
  | cons row new ih =>
    rw [insertAll, bind_eq_ok_iff, admits_cons_iff]
    constructor
    · rintro ⟨rows', hrow, hrest⟩
      obtain ⟨h₁, h₂, h₃, rfl⟩ := insert_eq_ok_iff.mp hrow
      obtain ⟨hadm, rfl⟩ := ih.mp hrest
      exact ⟨⟨⟨h₁, h₂, h₃⟩, hadm⟩, by rw [List.append_assoc, List.singleton_append]⟩
    · rintro ⟨⟨⟨h₁, h₂, h₃⟩, hadm⟩, rfl⟩
      refine ⟨_, insert_eq_ok_iff.mpr ⟨h₁, h₂, h₃, rfl⟩, ih.mpr ⟨hadm, ?_⟩⟩
      rw [List.append_assoc, List.singleton_append]

/-- **Numbered rows.** Rows made of the members of a list and their places go in when the members are
acceptable and different, as far as they are compared; the places differ in any case. -/
theorem admits_zipIdx_iff {α : Type} {row : α × ℕ → ρ} {xs : List α} {P : α → Prop}
    {c : α → α → Bool} (hcheck : ∀ a i, rule.check (row (a, i)) = .ok () ↔ P a)
    (hclash : ∀ a b i j, i ≠ j → rule.clash (row (a, i)) (row (b, j)) = c a b) :
    Admits rule rows (xs.zipIdx.map row) ↔ (∀ a ∈ xs, P a) ∧
      (∀ n < xs.length, rule.room (rows.length + n) = .ok ()) ∧
      (∀ r ∈ rows, ∀ p ∈ xs.zipIdx, rule.clash r (row p) = false) ∧
      xs.Pairwise fun a b ↦ c a b = false := by
  have hdistinct : (xs.zipIdx.map row).Pairwise (fun r s ↦ rule.clash r s = false) ↔
      xs.Pairwise fun a b ↦ c a b = false := by
    rw [List.pairwise_map, List.pairwise_iff_getElem, List.pairwise_iff_getElem]
    constructor
    · intro h i j hi hj hij
      have hrow := h i j (by simpa using hi) (by simpa using hj) hij
      rw [List.getElem_zipIdx, List.getElem_zipIdx, hclash _ _ _ _ (by omega)] at hrow
      exact hrow
    · intro h i j hi hj hij
      rw [List.getElem_zipIdx, List.getElem_zipIdx, hclash _ _ _ _ (by omega)]
      exact h i j _ _ hij
  constructor
  · rintro ⟨hall, hroom, hapart, hnew⟩
    refine ⟨fun a ha ↦ ?_, ?_, fun r hr p hp ↦ hapart r hr _ (List.mem_map_of_mem hp),
      hdistinct.mp hnew⟩
    · obtain ⟨i, hi, rfl⟩ := List.getElem_of_mem ha
      refine (hcheck _ i).mp (hall _ (List.mem_map.mpr ⟨(xs[i], i), ?_, rfl⟩))
      rw [List.mem_zipIdx_iff_getElem?]
      exact List.getElem?_eq_getElem hi
    · rwa [List.length_map, List.length_zipIdx] at hroom
  · rintro ⟨hall, hroom, hapart, hnew⟩
    refine ⟨fun r hr ↦ ?_, ?_, fun r hr s hs ↦ ?_, hdistinct.mpr hnew⟩
    · obtain ⟨⟨a, i⟩, hp, rfl⟩ := List.mem_map.mp hr
      exact (hcheck a i).mpr (hall a (List.fst_mem_of_mem_zipIdx hp))
    · rwa [List.length_map, List.length_zipIdx]
    · obtain ⟨p, hp, rfl⟩ := List.mem_map.mp hs
      exact hapart r hr p hp

end Table

end SafeVault
