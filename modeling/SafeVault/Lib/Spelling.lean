import SafeVault.Lib.Reader

/-!
# What was read, and from which tokens

A format with more than one spelling of a value is read back from each of them, so reading and then
writing need not give the input again. What can be said is which blocks spell which values. A reader
*spells* a relation when every result it returns unlatched was read from a block that stands in that
relation to the result.

The rule for a composed reader hands the block of the first part to the second as a hypothesis: what
is left to show of the second part is that the whole block is right whenever the first part of it is.
-/

namespace SafeVault

namespace Read

variable {β α γ : Type} {R R' : α → List β → Prop}

/-- Every unlatched result was read from a block related to it. -/
def Spells (m : Read β α) (R : α → List β → Prop) : Prop :=
  ∀ ⦃c a c'⦄, m c = (some a, c') → c'.ok = true →
    c.ok = true ∧ ∃ bs, c.rest = bs ++ c'.rest ∧ R a bs

theorem Spells.mono {m : Read β α} (hm : Spells m R) (h : ∀ a bs, R a bs → R' a bs) :
    Spells m R' := by
  intro c a c' hrun hok
  obtain ⟨hok₀, bs, hbs, hR⟩ := hm hrun hok
  exact ⟨hok₀, bs, hbs, h a bs hR⟩

theorem spells_pure {a : α} (h : R a []) : Spells (pure a : Read β α) R := by
  intro c b c' hrun hok
  cases hrun
  exact ⟨hok, [], rfl, h⟩

theorem Spells.bind {m : Read β α} {f : α → Read β γ} {S : γ → List β → Prop}
    (hm : Spells m R) (hf : ∀ a, Spells (f a) fun b bs' ↦ ∀ bs, R a bs → S b (bs ++ bs')) :
    Spells (m >>= f) S := by
  intro c b c₂ hrun hok
  obtain ⟨a, c₁, h₁, h₂⟩ := bind_eq_some.mp hrun
  obtain ⟨hok₁, bs', hbs', hS⟩ := hf a h₂ hok
  obtain ⟨hok₀, bs, hbs, hR⟩ := hm h₁ hok₁
  exact ⟨hok₀, bs ++ bs', by rw [hbs, hbs', List.append_assoc], hS bs hR⟩

/-- A check reads nothing, and what it checked may be used afterwards. -/
theorem spells_check_bind {p : Bool} {f : Unit → Read β γ} {S : γ → List β → Prop}
    (hf : Spells (f ()) fun b bs ↦ p = true → S b bs) : Spells (check p >>= f) S := by
  refine Spells.bind (R := fun _ bs ↦ p = true ∧ bs = []) ?_ fun _ ↦ hf.mono fun b bs' h ↦ ?_
  · intro c u c' hrun hok
    rw [check] at hrun
    split_ifs at hrun with hp
    · cases hrun
      exact ⟨hok, [], rfl, (Bool.and_eq_true _ _ ▸ hp).2, rfl⟩
    · cases hrun
  · rintro bs ⟨hp, rfl⟩
    exact h hp

theorem spells_take (filler : β) (n : ℕ) :
    Spells (take filler n) fun a bs ↦ bs = a ∧ a.length = n := by
  intro c a c' hrun hok
  by_cases hneed : c.need n = true
  · rw [take, if_pos hneed] at hrun
    cases hrun
    refine ⟨hok, c.rest.take n, ?_, rfl, ?_⟩
    · rw [Cursor.rest, Cursor.rest, ← List.drop_drop, List.take_append_drop]
    · rw [List.length_take, min_eq_left (Cursor.need_eq_true_iff.mp hneed).2]
  · rw [take, if_neg hneed] at hrun
    cases hrun
    exact absurd hok Bool.false_ne_true

/-- The loop that keeps every entry: one block for each. -/
theorem spells_collect {m : Read β α} (hm : Spells m R) (n : ℕ) (acc : List α) :
    Spells (collect (fun _ _ ↦ false) m n acc) fun as bs ↦
      ∃ new blocks, as = acc ++ new ∧ new.length = n ∧ bs = blocks.flatten ∧
        List.Forall₂ R new blocks := by
  induction n generalizing acc with
  | zero => exact spells_pure ⟨[], [], by simp⟩
  | succ n ih =>
    refine hm.bind fun a ↦ ?_
    have hnone : (acc.any fun e ↦ (fun _ _ ↦ false : α → α → Bool) e a) = false := by simp
    rw [hnone]
    refine (ih (acc ++ [a])).mono ?_
    rintro as bs' ⟨new, blocks, rfl, hlen, rfl, hall⟩ bs hR
    exact ⟨a :: new, bs :: blocks, by simp, by simp [hlen], by simp, .cons hR hall⟩

/-- An accepted input, read by a reader that looks at the latch, is one block. -/
theorem Spells.whole {m : Read β α} (hm : Spells m R) (hchk : Checked m) {input : List β} {a : α}
    (h : (whole m (start input)).1 = some a) : R a input := by
  have hw : Read.whole m (start input) = (some a, (Read.whole m (start input)).2) := by rw [← h]
  obtain ⟨hrun, hrem⟩ := whole_eq_some_iff.mp hw
  have hok := hchk hrun
  obtain ⟨-, bs, hbs, hR⟩ := hm hrun hok
  have hempty : (Read.whole m (start input)).2.rest = [] := by
    rw [Cursor.remaining, if_pos hok] at hrem
    exact List.drop_eq_nil_of_le (by omega)
  rw [hempty, List.append_nil] at hbs
  have hin : (start input).rest = input := List.drop_zero
  rwa [← hin, hbs]

/-- An input that is one block is accepted. -/
theorem Frames.whole {m : Read β α} {input : List β} {a : α} (h : Frames m input a) :
    (whole m (start input)).1 = some a := by
  obtain ⟨c', hrun, hok, hrest⟩ := h (start input) rfl []
    (by rw [List.append_nil]; exact List.drop_zero)
  have hrem : c'.remaining = 0 := by
    rw [Cursor.remaining, if_pos hok]
    have hlen := congrArg List.length hrest
    rwa [Cursor.rest, List.length_drop, List.length_nil] at hlen
  rw [whole_eq_some_iff.mpr ⟨hrun, hrem⟩]

end Read

end SafeVault
