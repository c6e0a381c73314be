import Mathlib.Order.Nat

/-!
# Passes that only go forward

A source of items can be gone through from the start, one item after another; what an item holds is
taken when the pass is at it, or skipped. Who wants a certain item goes on with the pass that is there
if it has not gone by, and starts another one if it has.

Whether the pass that is there gives the same as a new one depends on what it has left behind: an item
that was taken has to leave the pass as it is left when the item is skipped. No more than what comes
next is asked for; the states may differ.
-/

namespace SafeVault

/-- What can be done in a pass. An item may be taken under conditions `ε`, and a pass be started. -/
structure ForwardPass (σ η ε φ ρ : Type) where
  start : ε → Option σ
  next : σ → Option (η × σ)
  skip : η → σ → σ
  take : ε → η → σ → Except φ (ρ × σ)

namespace ForwardPass

/-- Where an item is, as seen from the one that is wanted. -/
inductive Verdict where
  | before | wanted | beyond
  deriving DecidableEq

variable {σ η ε φ ρ : Type} (P : ForwardPass σ η ε φ ρ)

/-- Go on to the item that is wanted, within a number of turns. -/
def seek (verdict : η → Verdict) : ℕ → σ → Option (η × σ)
  | 0, _ => none
  | n + 1, s =>
    match P.next s with
    | none => none
    | some (h, s') =>
      match verdict h with
      | .before => seek verdict n (P.skip h s')
      | .wanted => some (h, s')
      | .beyond => none

/-- How items are sought: where they are, for each one that may be wanted, and how many turns the search
for it takes at most. -/
structure Search (σ η : Type) where
  verdict : ℕ → η → Verdict
  turns : ℕ → σ → ℕ

/-- The pass that is there, with the number of the first item that has not gone by. -/
abbrev Cursor (σ : Type) := Option (σ × ℕ)

/-- Get an item, and the cursor afterwards: without a pass after a failure, else behind the item. -/
def fetch (S : Search σ η) (noPass missing : φ) (e : ε) (cursor : Cursor σ) (target : ℕ) :
    Except φ ρ × Cursor σ :=
  match ((cursor.filter fun c ↦ c.2 ≤ target).map Prod.fst).or (P.start e) with
  | none => (.error noPass, none)
  | some s =>
    match P.seek (S.verdict target) (S.turns target s + 1) s with
    | none => (.error missing, none)
    | some (h, s') =>
      match P.take e h s' with
      | .error failure => (.error failure, none)
      | .ok (r, s'') => (.ok r, some (s'', target + 1))

/-- What a source and a search have to keep to. Conditions that are not good can only make things fail. -/
structure Lawful (S : Search σ η) (good : ε) : Prop where
  next_take : ∀ {e h s r s'}, P.take e h s = .ok (r, s') → P.next s' = P.next (P.skip h s)
  take_good : ∀ {e h s x}, P.take e h s = .ok x → P.take good h s = .ok x
  start_good : ∀ {e s}, P.start e = some s → P.start good = some s
  /-- What is before an item, or is this item, is before every later one. -/
  gone_by : ∀ {target later h}, S.verdict target h ≠ .beyond →
    (target < later ∨ S.verdict target h = .before ∧ target ≤ later) → S.verdict later h = .before
  turns_lt : ∀ {target s h s'}, P.next s = some (h, s') → S.verdict target h = .before →
    S.turns target (P.skip h s') < S.turns target s

variable {P} {S : Search σ η} {good e : ε} {target k n m : ℕ} {s t s' : σ} {h : η} {cursor : Cursor σ}
  {noPass missing : φ}

/-- A pass goes by items that are before every one from `k` on. -/
inductive Skipped (P : ForwardPass σ η ε φ ρ) (S : Search σ η) (k : ℕ) : σ → σ → Prop
  | refl {s : σ} : Skipped P S k s s
  | step {s s' t : σ} {h : η} (hnext : P.next s = some (h, s'))
      (hbefore : ∀ target, k ≤ target → S.verdict target h = .before)
      (hrest : Skipped P S k (P.skip h s') t) : Skipped P S k s t

theorem Skipped.trans {u : σ} (h : Skipped P S k s t) (h' : Skipped P S k t u) : Skipped P S k s u := by
  induction h with
  | refl => exact h'
  | step hnext hbefore _ ih => exact .step hnext hbefore (ih h')

theorem Skipped.mono (h : Skipped P S k s t) (hk : k ≤ m) : Skipped P S m s t := by
  induction h with
  | refl => exact .refl
  | step hnext hbefore _ ih => exact .step hnext (fun target hle ↦ hbefore target (hk.trans hle)) ih

theorem seek_of_next (verdict : η → Verdict) (hnext : P.next s = some (h, s')) (n : ℕ) :
    P.seek verdict (n + 1) s =
      match verdict h with
      | .before => P.seek verdict n (P.skip h s')
      | .wanted => some (h, s')
      | .beyond => none := by
  rw [seek, hnext]

theorem seek_of_end (verdict : η → Verdict) (hnext : P.next s = none) (n : ℕ) :
    P.seek verdict n s = none := by
  cases n with
  | zero => rfl
  | succ n => rw [seek, hnext]

theorem seek_congr (verdict : η → Verdict) (h : P.next s = P.next t) (n : ℕ) :
    P.seek verdict (n + 1) s = P.seek verdict (n + 1) t := by
  rw [seek, seek, h]

/-- More turns than it takes do not change what is found. -/
theorem seek_enough (hP : P.Lawful S good) (hn : S.turns target s < n) (hm : S.turns target s < m) :
    P.seek (S.verdict target) n s = P.seek (S.verdict target) m s := by
  induction n generalizing s m with
  | zero => exact absurd hn (Nat.not_lt_zero _)
  | succ n ih =>
    obtain ⟨m, rfl⟩ := Nat.exists_eq_add_one_of_ne_zero (Nat.ne_zero_of_lt hm)
    rw [seek, seek]
    split
    · rfl
    · rename_i h s' hnext
      split
      · rename_i hbefore
        have hlt := hP.turns_lt hnext hbefore
        exact ih (hlt.trans_le (Nat.le_of_lt_succ hn)) (hlt.trans_le (Nat.le_of_lt_succ hm))
      · rfl
      · rfl

/-- A search from the start finds what a search behind the items that have gone by finds. -/
theorem seek_skipped (hP : P.Lawful S good) (hst : Skipped P S k s t) (hk : k ≤ target)
    (hn : S.turns target s < n) (hm : S.turns target t < m) :
    P.seek (S.verdict target) n s = P.seek (S.verdict target) m t := by
  induction hst generalizing n with
  | refl => exact seek_enough hP hn hm
  | step hnext hbefore _ ih =>
    obtain ⟨n, rfl⟩ := Nat.exists_eq_add_one_of_ne_zero (Nat.ne_zero_of_lt hn)
    have hlt := hP.turns_lt hnext (hbefore target hk)
    rw [seek_of_next _ hnext, hbefore target hk]
    exact ih (hlt.trans_le (Nat.le_of_lt_succ hn)) hm

/-- What a search has gone by. -/
theorem exists_of_seek (hP : P.Lawful S good) (hseek : P.seek (S.verdict target) n s = some (h, s')) :
    ∃ t, Skipped P S target s t ∧ P.next t = some (h, s') ∧ S.verdict target h = .wanted := by
  induction n generalizing s with
  | zero => cases hseek
  | succ n ih =>
    rw [seek] at hseek
    split at hseek
    · cases hseek
    rename_i h' s₁ hnext
    split at hseek
    · rename_i hbefore
      obtain ⟨t, hskip, hrest⟩ := ih hseek
      refine ⟨t, .step hnext (fun later hle ↦ ?_) hskip, hrest⟩
      exact hP.gone_by (by rw [hbefore]; decide) (.inr ⟨hbefore, hle⟩)
    · rename_i hwanted
      obtain ⟨rfl, rfl⟩ := Prod.mk.inj (Option.some.inj hseek)
      exact ⟨s, .refl, hnext, hwanted⟩
    · cases hseek

/-- What comes next in the pass that is there comes next in a new one when it has skipped the items that
have gone by. -/
def Cursor.Valid (P : ForwardPass σ η ε φ ρ) (S : Search σ η) (good : ε) (cursor : Cursor σ) : Prop :=
  ∀ s k, cursor = some (s, k) → ∃ s₀ t, P.start good = some s₀ ∧ Skipped P S k s₀ t ∧ P.next s = P.next t

theorem Cursor.valid_none : Cursor.Valid P S good none := nofun

/-- Where a search starts, it finds what it finds in a new pass. -/
theorem seek_eq (hP : P.Lawful S good) (hcursor : Cursor.Valid P S good cursor)
    (hs : ((cursor.filter fun c ↦ c.2 ≤ target).map Prod.fst).or (P.start e) = some s) :
    ∃ s₀, P.start good = some s₀ ∧ P.seek (S.verdict target) (S.turns target s + 1) s =
      P.seek (S.verdict target) (S.turns target s₀ + 1) s₀ := by
  cases hkept : cursor.filter fun c ↦ c.2 ≤ target with
  | none =>
    rw [hkept] at hs
    exact ⟨s, hP.start_good hs, rfl⟩
  | some c =>
    obtain ⟨hc, hle⟩ := Option.filter_eq_some_iff.mp hkept
    rw [hkept] at hs
    obtain rfl := Option.some.inj hs
    obtain ⟨s₀, t, hstart, hskip, hnext⟩ := hcursor c.1 c.2 hc
    -- Enough turns for each of the three searches.
    let n := S.turns target c.1 + S.turns target t
    refine ⟨s₀, hstart, ?_⟩
    rw [seek_enough hP (Nat.lt_succ_self _) (show S.turns target c.1 < n + 1 by omega), seek_congr _ hnext]
    exact (seek_skipped hP hskip (of_decide_eq_true hle) (Nat.lt_succ_self _) (by omega)).symm

/-- A request with a search that has an end, which is a failure or an item. -/
theorem fetch_of_seek (hs : ((cursor.filter fun c ↦ c.2 ≤ target).map Prod.fst).or (P.start e) = some s) :
    P.fetch S noPass missing e cursor target =
      match P.seek (S.verdict target) (S.turns target s + 1) s with
      | none => (.error missing, none)
      | some (h, s') =>
        match P.take e h s' with
        | .error failure => (.error failure, none)
        | .ok (r, s'') => (.ok r, some (s'', target + 1)) := by
  rw [fetch, hs]

theorem toOption_eq_some {x : Except φ ρ} {r : ρ} : x.toOption = some r ↔ x = .ok r := by
  cases x <;> simp [Except.toOption]

/-- A request without its kind of failure. -/
theorem fetch_toOption (noPass missing : φ)
    (hs : ((cursor.filter fun c ↦ c.2 ≤ target).map Prod.fst).or (P.start e) = some s) :
    let got := (P.seek (S.verdict target) (S.turns target s + 1) s).bind fun x ↦ (P.take e x.1 x.2).toOption
    (P.fetch S noPass missing e cursor target).1.toOption = got.map Prod.fst ∧
      (P.fetch S noPass missing e cursor target).2 = got.map fun x ↦ (x.2, target + 1) := by
  rw [fetch_of_seek hs]
  cases P.seek (S.verdict target) (S.turns target s + 1) s with
  | none => exact ⟨rfl, rfl⟩
  | some x =>
    dsimp only [Option.bind_some]
    cases P.take e x.1 x.2 <;> exact ⟨rfl, rfl⟩

theorem fetch_of_none (noPass missing : φ)
    (hs : ((cursor.filter fun c ↦ c.2 ≤ target).map Prod.fst).or (P.start e) = none) :
    P.fetch S noPass missing e cursor target = (.error noPass, none) := by
  rw [fetch, hs]

/-- **One request**: what it gets is what it gets from a new pass under good conditions, unless it fails
because of its own conditions; and the cursor stays valid. -/
theorem fetch_spec (noPass missing : φ) (hP : P.Lawful S good) (hcursor : Cursor.Valid P S good cursor)
    (e : ε) (target : ℕ) :
    Cursor.Valid P S good (P.fetch S noPass missing e cursor target).2 ∧
      (∀ r, (P.fetch S noPass missing e cursor target).1 = .ok r →
        (P.fetch S noPass missing good none target).1 = .ok r) ∧
      (e = good → (P.fetch S noPass missing e cursor target).1 =
        (P.fetch S noPass missing good none target).1) := by
  cases hs : ((cursor.filter fun c ↦ c.2 ≤ target).map Prod.fst).or (P.start e) with
  | none =>
    rw [fetch_of_none _ _ hs]
    refine ⟨Cursor.valid_none, nofun, ?_⟩
    rintro rfl
    have hstart : P.start e = none := (Option.or_eq_none_iff.mp hs).2
    have hfresh : (((none : Cursor σ).filter fun c ↦ decide (c.2 ≤ target)).map Prod.fst).or (P.start e) =
        none := hstart
    rw [fetch_of_none _ _ hfresh]
  | some s =>
    obtain ⟨s₀, hstart, hseek⟩ := seek_eq hP hcursor hs
    have hfresh : (((none : Cursor σ).filter fun c ↦ decide (c.2 ≤ target)).map Prod.fst).or (P.start good) =
        some s₀ := hstart
    rw [fetch_of_seek hs, fetch_of_seek hfresh, hseek]
    cases hfound : P.seek (S.verdict target) (S.turns target s₀ + 1) s₀ with
    | none => exact ⟨Cursor.valid_none, nofun, fun _ ↦ rfl⟩
    | some x =>
      obtain ⟨h, s'⟩ := x
      cases htake : P.take e h s' with
      | error failure =>
        dsimp only
        rw [htake]
        refine ⟨Cursor.valid_none, nofun, ?_⟩
        rintro rfl
        rw [htake]
      | ok y =>
        obtain ⟨r, s''⟩ := y
        dsimp only
        rw [htake, hP.take_good htake]
        refine ⟨?_, fun r' h ↦ h, fun _ ↦ rfl⟩
        -- The item itself is the last one that has gone by.
        intro u k hcursor'
        obtain ⟨rfl, rfl⟩ := Prod.mk.inj (Option.some.inj hcursor')
        obtain ⟨t, hskip, hnext, hwanted⟩ := exists_of_seek hP hfound
        refine ⟨s₀, P.skip h s', hstart, (hskip.mono (Nat.le_succ target)).trans (.step hnext ?_ .refl),
          hP.next_take htake⟩
        intro later hlater
        exact hP.gone_by (by rw [hwanted]; decide) (.inl hlater)

end ForwardPass

end SafeVault
