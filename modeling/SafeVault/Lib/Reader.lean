import Mathlib.Data.List.Basic
import Mathlib.Data.List.Pairwise
import Mathlib.Order.MinMax
import Mathlib.Tactic.SplitIfs

/-!
# Readers with a latched error

A reader walks a cursor over a fixed token list. Reading past the end does not abort: the cursor
latches an error, and from then on every read returns filler and leaves the position alone. The
program asks the cursor for the latch at points of its own choosing and gives up there. So a reader
has two ways to go wrong, the latch and an explicit refusal, and a result obtained with the latch
set is only filler.

## What is proved once

For parsers built from these operations four facts are wanted of every input, including inputs on
which the parser fails half way.

* *Exactness*: an unlatched result was read from one block of tokens, and reading that block gives
  the same result whatever follows it. Prefix and extension properties of a format come from here.
* *Safety*: the input is never replaced, the position only advances, and no position at or beyond
  the end is read.
* *Thrift*: at most one value is allocated for each token consumed, with one more allowed when the
  parser fails.
* *Soundness*: whatever is returned satisfies a stated predicate, even on a latched cursor.

They are the fields of `Parses`, which is closed under the ways of composing readers. The cursor
carries three counters that no reader looks at, so that the second and third fact can be stated.
-/

namespace SafeVault

/-- A position in a token list, the error latch, and three counters that only proofs look at. -/
structure Cursor (β : Type) where
  /-- The tokens, never changed. -/
  input : List β
  /-- The index of the next token. -/
  pos : ℕ := 0
  /-- `false` once a read has run past the end. -/
  ok : Bool := true
  /-- One more than the largest index read so far. -/
  touched : ℕ := 0
  /-- How many values have been allocated. -/
  created : ℕ := 0
  /-- The deepest nesting level at which something was read. -/
  deepest : ℕ := 0

namespace Cursor

variable {β : Type}

/-- The tokens not read yet. -/
def rest (c : Cursor β) : List β := c.input.drop c.pos

/-- How many tokens are left; a latched cursor has none. -/
def remaining (c : Cursor β) : ℕ := if c.ok then c.input.length - c.pos else 0

/-- Whether `n` more tokens can be read. -/
def need (c : Cursor β) (n : ℕ) : Bool := c.ok && !(decide (c.input.length - c.pos < n))

/-- No position beyond the end has been reached or read. -/
def InRange (c : Cursor β) : Prop := c.pos ≤ c.input.length ∧ c.touched ≤ c.input.length

theorem need_eq_true_iff {c : Cursor β} {n : ℕ} :
    c.need n = true ↔ c.ok = true ∧ n ≤ c.rest.length := by
  rw [need, Bool.and_eq_true, Bool.not_eq_true', decide_eq_false_iff_not, not_lt, rest,
    List.length_drop]

end Cursor

/-- A reader may refuse (`none`), and returns the cursor in either case. -/
def Read (β α : Type) : Type := Cursor β → Option α × Cursor β

namespace Read

variable {β α γ : Type}

instance : Monad (Read β) where
  pure a := fun c ↦ (some a, c)
  bind m f := fun c ↦
    match m c with
    | (some a, c') => f a c'
    | (none, c') => (none, c')

theorem bind_apply_some {m : Read β α} {f : α → Read β γ} {c c₁ : Cursor β} {a : α}
    (h : m c = (some a, c₁)) : (m >>= f) c = f a c₁ := by
  change (match m c with | (some a, c') => f a c' | (none, c') => (none, c')) = _
  rw [h]

theorem bind_eq_some {m : Read β α} {f : α → Read β γ} {c c' : Cursor β} {b : γ} :
    (m >>= f) c = (some b, c') ↔ ∃ a c₁, m c = (some a, c₁) ∧ f a c₁ = (some b, c') := by
  change (match m c with | (some a, c') => f a c' | (none, c') => (none, c')) = _ ↔ _
  rcases m c with ⟨_ | a, c₁⟩
  · simp
  · constructor
    · exact fun h ↦ ⟨a, c₁, rfl, h⟩
    · rintro ⟨a', c₁', h, hf⟩
      cases h
      exact hf

theorem bind_eq_none {m : Read β α} {f : α → Read β γ} {c c' : Cursor β} :
    (m >>= f) c = (none, c') ↔
      m c = (none, c') ∨ ∃ a c₁, m c = (some a, c₁) ∧ f a c₁ = (none, c') := by
  change (match m c with | (some a, c') => f a c' | (none, c') => (none, c')) = _ ↔ _
  rcases m c with ⟨_ | a, c₁⟩
  · simp
  · constructor
    · exact fun h ↦ Or.inr ⟨a, c₁, rfl, h⟩
    · rintro (h | ⟨a', c₁', h, hf⟩)
      · exact absurd h (by simp)
      · cases h
        exact hf

/-! ## The operations -/

/-- Read `n` tokens. On a short input the latch is set and `n` copies of the filler come back. -/
def take (filler : β) (n : ℕ) : Read β (List β) := fun c ↦
  if c.need n then
    (some (c.rest.take n), { c with pos := c.pos + n, touched := max c.touched (c.pos + n) })
  else (some (List.replicate n filler), { c with ok := false })

/-- Give up when the latch is set or `p` is false. -/
def check (p : Bool) : Read β Unit := fun c ↦
  if c.ok && p then (some (), c) else (none, c)

/-- Give up. -/
def refuse : Read β α := fun c ↦ (none, c)

/-- Give up unless nothing remains to be read. -/
def finish : Read β Unit := fun c ↦
  if c.remaining = 0 then (some (), c) else (none, c)

/-- Count the allocation of one value. -/
def allocate : Read β Unit := fun c ↦ (some (), { c with created := c.created + 1 })

/-- Note that something is about to be read at nesting level `d`. -/
def descend (d : ℕ) : Read β Unit := fun c ↦
  (some (), { c with deepest := max c.deepest d })

/-- Read `n` values and append each to `acc` unless an entry already there is the `same`. -/
def collect (same : α → α → Bool) (m : Read β α) : ℕ → List α → Read β (List α)
  | 0, acc => pure acc
  | n + 1, acc => do
    let a ← m
    collect same m n (if acc.any fun e ↦ same e a then acc else acc ++ [a])

/-! ## Reading one block -/

/-- On an unlatched cursor standing before the block `bs`, the reader returns `a`, steps over the
block and leaves the latch alone, whatever comes after. -/
def Frames (m : Read β α) (bs : List β) (a : α) : Prop :=
  ∀ c : Cursor β, c.ok = true → ∀ r, c.rest = bs ++ r →
    ∃ c', m c = (some a, c') ∧ c'.ok = true ∧ c'.rest = r

theorem frames_pure (a : α) : Frames (pure a : Read β α) [] a :=
  fun c hok _ hr ↦ ⟨c, rfl, hok, hr⟩

theorem Frames.bind {m : Read β α} {f : α → Read β γ} {bs bs' : List β} {a : α} {b : γ}
    (hm : Frames m bs a) (hf : Frames (f a) bs' b) : Frames (m >>= f) (bs ++ bs') b := by
  intro c hok r hr
  obtain ⟨c₁, h₁, hok₁, hr₁⟩ := hm c hok (bs' ++ r) (by rw [hr, List.append_assoc])
  obtain ⟨c₂, h₂, hok₂, hr₂⟩ := hf c₁ hok₁ r hr₁
  exact ⟨c₂, bind_eq_some.mpr ⟨a, c₁, h₁, h₂⟩, hok₂, hr₂⟩

/-- A reader that consumes nothing adds nothing to the block. -/
theorem Frames.bind_nil {m : Read β α} {f : α → Read β γ} {bs : List β} {a : α} {b : γ}
    (hm : Frames m [] a) (hf : Frames (f a) bs b) : Frames (m >>= f) bs b :=
  hm.bind hf

/-- The last reader of a chain that consumes anything. -/
theorem Frames.bind_last {m : Read β α} {f : α → Read β γ} {bs : List β} {a : α} {b : γ}
    (hm : Frames m bs a) (hf : Frames (f a) [] b) : Frames (m >>= f) bs b := by
  have h := hm.bind hf
  rwa [List.append_nil] at h

theorem Frames.bind_pure {m : Read β α} (f : α → γ) {bs : List β} {a : α} (hm : Frames m bs a) :
    Frames (m >>= fun a ↦ pure (f a)) bs (f a) :=
  hm.bind_last (frames_pure (f a))

theorem frames_take (filler : β) {n : ℕ} {bs : List β} (h : bs.length = n) :
    Frames (take filler n) bs bs := by
  intro c hok r hr
  have hneed : c.need n = true := by
    rw [Cursor.need_eq_true_iff, hr, List.length_append]
    exact ⟨hok, by omega⟩
  have htake : c.rest.take n = bs := by rw [hr, ← h, List.take_left]
  rw [take, if_pos hneed, htake]
  refine ⟨_, rfl, hok, ?_⟩
  rw [Cursor.rest, ← List.drop_drop, ← Cursor.rest, hr, ← h, List.drop_left]

theorem frames_check {p : Bool} (h : p = true) : Frames (check p : Read β Unit) [] () := by
  intro c hok r hr
  rw [check, hok, h]
  exact ⟨c, rfl, hok, hr⟩

theorem frames_allocate : Frames (allocate : Read β Unit) [] () :=
  fun _ hok _ hr ↦ ⟨_, rfl, hok, hr⟩

theorem frames_descend (d : ℕ) : Frames (descend d : Read β Unit) [] () :=
  fun _ hok _ hr ↦ ⟨_, rfl, hok, hr⟩

/-- Reading back a list whose results are pairwise different keeps all of them. -/
theorem frames_collect_map {ι : Type} {same : α → α → Bool} {m : Read β α} (w : ι → List β)
    (g : ι → α) {xs : List ι} (acc : List α) (hm : ∀ x ∈ xs, Frames m (w x) (g x))
    (hsame : (acc ++ xs.map g).Pairwise fun a b ↦ same a b = false) :
    Frames (collect same m xs.length acc) (xs.flatMap w) (acc ++ xs.map g) := by
  induction xs generalizing acc with
  | nil => rw [List.map_nil, List.append_nil]; exact frames_pure acc
  | cons x xs ih =>
    have hfresh : (acc.any fun e ↦ same e (g x)) = false := by
      rw [List.any_eq_false]
      intro e he
      rw [(List.pairwise_append.mp hsame).2.2 e he (g x) List.mem_cons_self]
      exact Bool.false_ne_true
    rw [List.map_cons, List.append_cons] at hsame
    rw [List.flatMap_cons, List.map_cons, List.append_cons]
    refine (hm x List.mem_cons_self).bind ?_
    rw [hfresh]
    exact ih _ (fun y hy ↦ hm y (List.mem_cons_of_mem x hy)) hsame

theorem frames_collect {same : α → α → Bool} {m : Read β α} (w : α → List β) {as : List α}
    (hm : ∀ a ∈ as, Frames m (w a) a) (hsame : as.Pairwise fun a b ↦ same a b = false) :
    Frames (collect same m as.length []) (as.flatMap w) as := by
  have h := frames_collect_map w id [] hm (by rwa [List.map_id, List.nil_append])
  rwa [List.map_id, List.nil_append] at h

/-! ## Exactness -/

/-- An unlatched result comes from a block of the input that always reads back as that result. -/
def Exact (m : Read β α) : Prop :=
  ∀ ⦃c a c'⦄, m c = (some a, c') → c'.ok = true →
    c.ok = true ∧ ∃ bs, c.rest = bs ++ c'.rest ∧ Frames m bs a

/-- Every result, latched or not, satisfies `P`. -/
def Yields (P : α → Prop) (m : Read β α) : Prop := ∀ ⦃c a c'⦄, m c = (some a, c') → P a

theorem exact_pure (a : α) : Exact (pure a : Read β α) := by
  intro c b c' h hok
  cases h
  exact ⟨hok, [], rfl, frames_pure a⟩

theorem Exact.bind {m : Read β α} {f : α → Read β γ} {P : α → Prop} (hm : Exact m)
    (hy : Yields P m) (hf : ∀ a, P a → Exact (f a)) : Exact (m >>= f) := by
  intro c b c₂ h hok
  obtain ⟨a, c₁, h₁, h₂⟩ := bind_eq_some.mp h
  obtain ⟨hok₁, bs₂, hbs₂, hfr₂⟩ := hf a (hy h₁) h₂ hok
  obtain ⟨hok₀, bs₁, hbs₁, hfr₁⟩ := hm h₁ hok₁
  exact ⟨hok₀, bs₁ ++ bs₂, by rw [hbs₁, hbs₂, List.append_assoc], hfr₁.bind hfr₂⟩

theorem exact_take (filler : β) (n : ℕ) : Exact (take filler n) := by
  intro c a c' h hok
  by_cases hneed : c.need n = true
  · rw [take, if_pos hneed] at h
    cases h
    have hlen : (c.rest.take n).length = n := by
      rw [List.length_take, min_eq_left (Cursor.need_eq_true_iff.mp hneed).2]
    refine ⟨hok, c.rest.take n, ?_, frames_take filler hlen⟩
    rw [Cursor.rest, Cursor.rest, ← List.drop_drop, List.take_append_drop]
  · rw [take, if_neg hneed] at h
    cases h
    exact absurd hok Bool.false_ne_true

private theorem check_eq_some {p : Bool} {c c' : Cursor β} {u : Unit}
    (h : check p c = (some u, c')) : c.ok = true ∧ p = true ∧ c' = c := by
  rw [check] at h
  split_ifs at h with hp
  · cases h
    rw [Bool.and_eq_true] at hp
    exact ⟨hp.1, hp.2, rfl⟩
  · cases h

theorem exact_check (p : Bool) : Exact (check p : Read β Unit) := by
  intro c u c' h hok
  obtain ⟨hok₀, hp, rfl⟩ := check_eq_some h
  exact ⟨hok₀, [], rfl, frames_check hp⟩

theorem exact_refuse : Exact (refuse : Read β α) := fun _ _ _ h ↦ by cases h

theorem exact_allocate : Exact (allocate : Read β Unit) := by
  intro c u c' h hok
  cases h
  exact ⟨hok, [], rfl, frames_allocate⟩

theorem exact_descend (d : ℕ) : Exact (descend d : Read β Unit) := by
  intro c u c' h hok
  cases h
  exact ⟨hok, [], rfl, frames_descend d⟩

/-! ## Safety and thrift -/

/-- The reader keeps the input, only advances, stays in range, and never reads deeper than `D`. -/
def Safe (D : ℕ) (m : Read β α) : Prop :=
  ∀ c, (m c).2.input = c.input ∧ c.pos ≤ (m c).2.pos ∧ (c.InRange → (m c).2.InRange) ∧
    (m c).2.deepest ≤ max c.deepest D

/-- Allocations are paid for by consumed tokens, up to one when the reader fails. -/
def Thrifty (m : Read β α) : Prop :=
  ∀ ⦃c r c'⦄, m c = (r, c') →
    c'.created + c.pos ≤ c.created + c'.pos + if r.isSome then 0 else 1

theorem safe_pure (D : ℕ) (a : α) : Safe D (pure a : Read β α) :=
  fun _ ↦ ⟨rfl, le_refl _, id, le_max_left _ _⟩

theorem Safe.bind {D : ℕ} {m : Read β α} {f : α → Read β γ} {P : α → Prop} (hm : Safe D m)
    (hy : Yields P m) (hf : ∀ a, P a → Safe D (f a)) : Safe D (m >>= f) := by
  intro c
  obtain ⟨hin, hpos, hran, hdeep⟩ := hm c
  rcases hb : (m >>= f) c with ⟨_ | b, c₂⟩
  · rcases bind_eq_none.mp hb with h | ⟨a, c₁, h₁, h₂⟩
    · rw [h] at hin hpos hran hdeep
      exact ⟨hin, hpos, hran, hdeep⟩
    · rw [h₁] at hin hpos hran hdeep
      obtain ⟨hin₂, hpos₂, hran₂, hdeep₂⟩ := hf a (hy h₁) c₁
      rw [h₂] at hin₂ hpos₂ hran₂ hdeep₂
      exact ⟨hin₂.trans hin, hpos.trans hpos₂, hran₂ ∘ hran,
        hdeep₂.trans (max_le hdeep (le_max_right _ _))⟩
  · obtain ⟨a, c₁, h₁, h₂⟩ := bind_eq_some.mp hb
    rw [h₁] at hin hpos hran hdeep
    obtain ⟨hin₂, hpos₂, hran₂, hdeep₂⟩ := hf a (hy h₁) c₁
    rw [h₂] at hin₂ hpos₂ hran₂ hdeep₂
    exact ⟨hin₂.trans hin, hpos.trans hpos₂, hran₂ ∘ hran,
      hdeep₂.trans (max_le hdeep (le_max_right _ _))⟩

theorem safe_take (D : ℕ) (filler : β) (n : ℕ) : Safe D (take filler n) := by
  intro c
  by_cases hneed : c.need n = true
  · have hlen := (Cursor.need_eq_true_iff.mp hneed).2
    rw [Cursor.rest, List.length_drop] at hlen
    rw [take, if_pos hneed]
    refine ⟨rfl, Nat.le_add_right _ _, fun ⟨hp, ht⟩ ↦ ?_, le_max_left _ _⟩
    have hle : c.pos + n ≤ c.input.length := by omega
    exact ⟨hle, max_le ht hle⟩
  · rw [take, if_neg hneed]
    exact ⟨rfl, le_refl _, id, le_max_left _ _⟩

theorem safe_check (D : ℕ) (p : Bool) : Safe D (check p : Read β Unit) := by
  intro c
  rw [check]
  split_ifs <;> exact ⟨rfl, le_refl _, id, le_max_left _ _⟩

theorem safe_refuse (D : ℕ) : Safe D (refuse : Read β α) :=
  fun _ ↦ ⟨rfl, le_refl _, id, le_max_left _ _⟩

theorem safe_allocate (D : ℕ) : Safe D (allocate : Read β Unit) :=
  fun _ ↦ ⟨rfl, le_refl _, id, le_max_left _ _⟩

theorem safe_descend {d D : ℕ} (h : d ≤ D) : Safe D (descend d : Read β Unit) :=
  fun _ ↦ ⟨rfl, le_refl _, id, max_le_max (le_refl _) h⟩

theorem thrifty_pure (a : α) : Thrifty (pure a : Read β α) := by
  intro c r c' h
  cases h
  simp

theorem Thrifty.bind {m : Read β α} {f : α → Read β γ} {P : α → Prop} (hm : Thrifty m)
    (hy : Yields P m) (hf : ∀ a, P a → Thrifty (f a)) : Thrifty (m >>= f) := by
  intro c r c₂ h
  cases r with
  | none =>
    rcases bind_eq_none.mp h with h | ⟨a, c₁, h₁, h₂⟩
    · exact hm h
    · have h₁' := hm h₁
      have h₂' := hf a (hy h₁) h₂
      simp only [Option.isSome_some, Option.isSome_none, if_true] at h₁' h₂' ⊢
      omega
  | some b =>
    obtain ⟨a, c₁, h₁, h₂⟩ := bind_eq_some.mp h
    have h₁' := hm h₁
    have h₂' := hf a (hy h₁) h₂
    simp only [Option.isSome_some, if_true] at h₁' h₂' ⊢
    omega

theorem thrifty_take (filler : β) (n : ℕ) : Thrifty (take filler n) := by
  intro c r c' h
  rw [take] at h
  split_ifs at h
  · cases h
    simp
  · cases h
    simp

theorem thrifty_check (p : Bool) : Thrifty (check p : Read β Unit) := by
  intro c r c' h
  rw [check] at h
  split_ifs at h
  · cases h
    simp
  · cases h
    simp

/-! ## Parsers

A parser is a reader with all four properties. They are closed under composition, under a choice
made by the program, and under loops; the one place where an allocation is not yet paid for is the
start of a node, where the allocation comes first and the first token of the node pays for it. -/

/-- The four facts proved of every parser: see the head of the module. -/
structure Parses (D : ℕ) (P : α → Prop) (m : Read β α) : Prop where
  exact : Exact m
  safe : Safe D m
  thrifty : Thrifty m
  yields : Yields P m

variable {D : ℕ} {P Q : α → Prop} {R : γ → Prop}

theorem yields_bind {m : Read β α} {f : α → Read β γ} (hm : Yields P m)
    (hf : ∀ a, P a → Yields R (f a)) : Yields R (m >>= f) := by
  intro c b c' h
  obtain ⟨a, c₁, h₁, h₂⟩ := bind_eq_some.mp h
  exact hf a (hm h₁) h₂

theorem Parses.mono {m : Read β α} (hm : Parses D P m) (h : ∀ a, P a → Q a) : Parses D Q m :=
  { hm with yields := fun _ _ _ he ↦ h _ (hm.yields he) }

theorem parses_pure {a : α} (h : P a) : Parses D P (pure a : Read β α) where
  exact := exact_pure a
  safe := safe_pure D a
  thrifty := thrifty_pure a
  yields := fun _ _ _ he ↦ by cases he; exact h

theorem Parses.bind {m : Read β α} {f : α → Read β γ} (hm : Parses D P m)
    (hf : ∀ a, P a → Parses D R (f a)) : Parses D R (m >>= f) where
  exact := hm.exact.bind hm.yields fun a ha ↦ (hf a ha).exact
  safe := hm.safe.bind hm.yields fun a ha ↦ (hf a ha).safe
  thrifty := hm.thrifty.bind hm.yields fun a ha ↦ (hf a ha).thrifty
  yields := yields_bind hm.yields fun a ha ↦ (hf a ha).yields

theorem Parses.map {m : Read β α} (f : α → γ) (hm : Parses D P m) (h : ∀ a, P a → R (f a)) :
    Parses D R (m >>= fun a ↦ pure (f a)) :=
  hm.bind fun a ha ↦ parses_pure (h a ha)

theorem parses_ite {p : Prop} [Decidable p] {m m' : Read β α} (h : p → Parses D P m)
    (h' : ¬ p → Parses D P m') : Parses D P (if p then m else m') := by
  split_ifs with hp
  · exact h hp
  · exact h' hp

theorem parses_take (filler : β) (n : ℕ) :
    Parses D (fun bs : List β ↦ bs.length = n) (take filler n) where
  exact := exact_take filler n
  safe := safe_take D filler n
  thrifty := thrifty_take filler n
  yields := by
    intro c bs c' h
    rw [take] at h
    split_ifs at h with hneed
    · cases h
      rw [List.length_take, min_eq_left (Cursor.need_eq_true_iff.mp hneed).2]
    · cases h
      exact List.length_replicate

/-- After a check the program may rely on what was checked. -/
theorem parses_check (p : Bool) : Parses D (fun _ ↦ p = true) (check p : Read β Unit) where
  exact := exact_check p
  safe := safe_check D p
  thrifty := thrifty_check p
  yields := fun _ _ _ h ↦ (check_eq_some h).2.1

/-- The loop keeps an invariant of the list it has built, given that each entry extends it. -/
theorem parses_collect {same : α → α → Bool} {m : Read β α} {I : ℕ → List α → Prop}
    (hm : Parses D P m)
    (hkeep : ∀ n acc, I (n + 1) acc → I n acc)
    (hpush : ∀ n acc a, I (n + 1) acc → P a → (acc.any fun e ↦ same e a) = false →
      I n (acc ++ [a])) {n : ℕ} {acc : List α} (h : I n acc) :
    Parses D (I 0) (collect same m n acc) := by
  induction n generalizing acc with
  | zero => exact parses_pure h
  | succ n ih =>
    refine hm.bind fun a ha ↦ ?_
    split_ifs with hany
    · exact ih (hkeep n acc h)
    · exact ih (hpush n acc a h ha (Bool.eq_false_iff.mpr hany))

/-- A reader of a token: it never refuses, allocates nothing, and advances unless latched. -/
def Token (m : Read β α) : Prop :=
  ∀ c, ∃ a c', m c = (some a, c') ∧ c'.created = c.created ∧ (c'.ok = true → c.pos < c'.pos)

theorem token_take (filler : β) {n : ℕ} (hn : 0 < n) : Token (take filler n) := by
  intro c
  rw [take]
  split_ifs with hneed
  · exact ⟨_, _, rfl, rfl, fun _ ↦ Nat.lt_add_of_pos_right hn⟩
  · exact ⟨_, _, rfl, rfl, fun h ↦ absurd h Bool.false_ne_true⟩

theorem Token.map {m : Read β α} (f : α → γ) (hm : Token m) :
    Token (m >>= fun a ↦ pure (f a)) := by
  intro c
  obtain ⟨a, c', h, hrest⟩ := hm c
  exact ⟨f a, c', bind_eq_some.mpr ⟨a, c', h, rfl⟩, hrest⟩

/-- The start of a node: allocate it, note its depth, read its first token and check the latch. The
token pays for the allocation. -/
def node (d : ℕ) (m : Read β α) (f : α → Read β γ) : Read β γ := do
  allocate
  descend d
  let a ← m
  check true
  f a

theorem parses_node {d : ℕ} {m : Read β α} {f : α → Read β γ} (hd : d ≤ D) (hm : Parses D P m)
    (htok : Token m) (hf : ∀ a, P a → Parses D R (f a)) : Parses D R (node d m f) := by
  have htail (a : α) (ha : P a) : Parses D R (check true >>= fun _ ↦ f a) :=
    (parses_check true).bind fun _ _ ↦ hf a ha
  have hbody : Parses D R (m >>= fun a ↦ check true >>= fun _ ↦ f a) := hm.bind htail
  have hfree {m : Read β Unit} : Yields (fun _ ↦ True) m := fun _ _ _ _ ↦ trivial
  refine ⟨?_, ?_, ?_, ?_⟩
  · exact exact_allocate.bind hfree fun _ _ ↦ (exact_descend d).bind hfree fun _ _ ↦ hbody.exact
  · exact (safe_allocate D).bind hfree fun _ _ ↦
      (safe_descend hd).bind hfree fun _ _ ↦ hbody.safe
  · intro c r c' h
    obtain ⟨a, c₁, h₁, hcreated, hadv⟩ :=
      htok { c with created := c.created + 1, deepest := max c.deepest d }
    have hrun : node d m f c = (check true >>= fun _ ↦ f a) c₁ := bind_apply_some h₁
    have hpos : c.pos ≤ c₁.pos := by
      have h := (hm.safe { c with created := c.created + 1, deepest := max c.deepest d }).2.1
      rwa [h₁] at h
    rw [hrun] at h
    by_cases hok : c₁.ok = true
    · have hpay := (htail a (hm.yields h₁)).thrifty h
      have hlt : c.pos < c₁.pos := hadv hok
      have hc₁ : c₁.created = c.created + 1 := hcreated
      omega
    · have hcheck : (check true : Read β Unit) c₁ = (none, c₁) := by
        rw [check, Bool.and_true, if_neg hok]
      rw [show (check true >>= fun _ ↦ f a) c₁ = (none, c₁) from
        bind_eq_none.mpr (Or.inl hcheck)] at h
      cases h
      rw [hcreated]
      simp only [Option.isSome_none, Bool.false_eq_true, if_false]
      omega
  · exact yields_bind hfree fun _ _ ↦ yields_bind hfree fun _ _ ↦ hbody.yields

/-- A node allocated and refused at once; the parser's one unpaid allocation. -/
theorem parses_allocate_refuse :
    Parses D P (allocate >>= fun _ ↦ refuse : Read β α) where
  exact := exact_allocate.bind (P := fun _ ↦ True) (fun _ _ _ _ ↦ trivial) fun _ _ ↦ exact_refuse
  safe := (safe_allocate D).bind (P := fun _ ↦ True) (fun _ _ _ _ ↦ trivial)
    fun _ _ ↦ safe_refuse D
  thrifty := by
    intro c r c' h
    cases h
    simp only [Option.isSome_none, Bool.false_eq_true, if_false]
    omega
  yields := fun _ _ _ h ↦ by cases h

theorem frames_node {d : ℕ} {m : Read β α} {f : α → Read β γ} {bs bs' : List β} {a : α} {b : γ}
    (hm : Frames m bs a) (hf : Frames (f a) bs' b) : Frames (node d m f) (bs ++ bs') b :=
  frames_allocate.bind_nil ((frames_descend d).bind_nil
    (hm.bind ((frames_check rfl).bind_nil hf)))

/-! ## Results are not filler

Filler reaches the caller only if the program forgets to look at the latch. `Checked` says that a
reader looks after its last read, so its results are never filler; `Keeps` is the weaker fact that
the reader does not set the latch and then return, which is enough after a check. -/

/-- A result leaves the cursor unlatched. -/
def Checked (m : Read β α) : Prop := ∀ ⦃c a c'⦄, m c = (some a, c') → c'.ok = true

/-- A result obtained from an unlatched cursor leaves it unlatched. -/
def Keeps (m : Read β α) : Prop := ∀ ⦃c a c'⦄, c.ok = true → m c = (some a, c') → c'.ok = true

theorem Checked.keeps {m : Read β α} (h : Checked m) : Keeps m := fun _ _ _ _ he ↦ h he

theorem checked_check (p : Bool) : Checked (check p : Read β Unit) := by
  intro c u c' h
  obtain ⟨hok, -, rfl⟩ := check_eq_some h
  exact hok

/-- After a check it is enough that the rest does not spoil the latch. -/
theorem checked_check_bind {p : Bool} {f : Unit → Read β γ} (hf : Keeps (f ())) :
    Checked (check p >>= f) := by
  intro c b c' h
  obtain ⟨u, c₁, h₁, h₂⟩ := bind_eq_some.mp h
  exact hf (checked_check p h₁) h₂

theorem checked_refuse : Checked (refuse : Read β α) := fun _ _ _ h ↦ by cases h

theorem keeps_pure (a : α) : Keeps (pure a : Read β α) := by
  intro c b c' hok h
  cases h
  exact hok

/-- Whatever happened before, a checked end makes the whole checked. -/
theorem checked_bind {m : Read β α} {f : α → Read β γ} (hf : ∀ a, Checked (f a)) :
    Checked (m >>= f) := by
  intro c b c' h
  obtain ⟨a, c₁, -, h₂⟩ := bind_eq_some.mp h
  exact hf a h₂

theorem Keeps.bind {m : Read β α} {f : α → Read β γ} (hm : Keeps m) (hf : ∀ a, Keeps (f a)) :
    Keeps (m >>= f) := by
  intro c b c' hok h
  obtain ⟨a, c₁, h₁, h₂⟩ := bind_eq_some.mp h
  exact hf a (hm hok h₁) h₂

theorem keeps_collect {same : α → α → Bool} {m : Read β α} (hm : Keeps m) (n : ℕ)
    (acc : List α) : Keeps (collect same m n acc) := by
  induction n generalizing acc with
  | zero => exact keeps_pure acc
  | succ n ih => exact hm.bind fun a ↦ ih _

theorem keeps_ite {p : Prop} [Decidable p] {m m' : Read β α} (h : Keeps m) (h' : Keeps m') :
    Keeps (if p then m else m') := by
  split_ifs
  · exact h
  · exact h'

theorem checked_node {d : ℕ} {m : Read β α} {f : α → Read β γ} (hf : ∀ a, Keeps (f a)) :
    Checked (node d m f) :=
  checked_bind fun _ ↦ checked_bind fun _ ↦ checked_bind fun a ↦ checked_check_bind (hf a)

/-! ## Running a parser on a whole input -/

/-- The cursor at the start of an input. -/
def start (input : List β) : Cursor β := { input := input }

/-- Read, then give up unless nothing remains. -/
def whole (m : Read β α) : Read β α := do
  let a ← m
  finish
  pure a

theorem whole_eq_some_iff {m : Read β α} {c c' : Cursor β} {a : α} :
    whole m c = (some a, c') ↔ m c = (some a, c') ∧ c'.remaining = 0 := by
  have htail (a' : α) (c₁ : Cursor β) :
      (finish >>= fun _ ↦ pure a') c₁ = (some a, c') ↔ a' = a ∧ c₁ = c' ∧ c'.remaining = 0 := by
    rw [bind_eq_some]
    constructor
    · rintro ⟨u, c₂, h, hp⟩
      cases hp
      rw [finish] at h
      split_ifs at h with hr
      · cases h
        exact ⟨rfl, rfl, hr⟩
      · cases h
    · rintro ⟨rfl, rfl, hr⟩
      exact ⟨(), c₁, by rw [finish, if_pos hr], rfl⟩
  rw [whole, bind_eq_some]
  constructor
  · rintro ⟨a', c₁, h, ht⟩
    obtain ⟨rfl, rfl, hr⟩ := (htail a' c₁).mp ht
    exact ⟨h, hr⟩
  · rintro ⟨h, hr⟩
    exact ⟨a, c', h, (htail a c').mpr ⟨rfl, rfl, hr⟩⟩

private theorem finish_snd (c : Cursor β) : (finish c).2 = c := by
  rw [finish]
  split_ifs <;> rfl

/-- The final test moves nothing and allocates nothing. -/
theorem whole_snd {m : Read β α} (c : Cursor β) : (whole m c).2 = (m c).2 := by
  rcases hm : m c with ⟨_ | a, c₁⟩
  · rw [show whole m c = (none, c₁) from bind_eq_none.mpr (Or.inl hm)]
  · rcases hf : finish c₁ with ⟨_ | u, c₂⟩
    · have hc : c₂ = c₁ := by rw [← finish_snd c₁, hf]
      rw [show whole m c = (none, c₂) from
        bind_eq_none.mpr (Or.inr ⟨a, c₁, hm, bind_eq_none.mpr (Or.inl hf)⟩), hc]
    · have hc : c₂ = c₁ := by rw [← finish_snd c₁, hf]
      rw [show whole m c = (some a, c₂) from
        bind_eq_some.mpr ⟨a, c₁, hm, bind_eq_some.mpr ⟨u, c₂, hf, rfl⟩⟩, hc]

/-- **Acceptance is exactness on the whole input.** A checked parser accepts an input with a result
exactly when the input is one block that reads as that result. -/
theorem whole_start_eq_some_iff {m : Read β α} (hm : Parses D P m) (hchk : Checked m)
    {input : List β} {a : α} :
    (whole m (start input)).1 = some a ↔ Frames m input a := by
  constructor
  · intro h
    have hw : whole m (start input) = (some a, (whole m (start input)).2) := by rw [← h]
    obtain ⟨hrun, hrem⟩ := whole_eq_some_iff.mp hw
    have hok := hchk hrun
    obtain ⟨-, bs, hbs, hfr⟩ := hm.exact hrun hok
    have hempty : (whole m (start input)).2.rest = [] := by
      rw [Cursor.remaining, if_pos hok] at hrem
      exact List.drop_eq_nil_of_le (by omega)
    rw [hempty, List.append_nil] at hbs
    have hin : (start input).rest = input := List.drop_zero
    rwa [← hin, hbs]
  · intro h
    obtain ⟨c', hrun, hok, hrest⟩ := h (start input) rfl []
      (by rw [List.append_nil]; exact List.drop_zero)
    have hrem : c'.remaining = 0 := by
      rw [Cursor.remaining, if_pos hok]
      have hlen := congrArg List.length hrest
      rwa [Cursor.rest, List.length_drop, List.length_nil] at hlen
    rw [whole_eq_some_iff.mpr ⟨hrun, hrem⟩]

/-- An accepted input is not a proper prefix of another accepted input. -/
theorem whole_append_eq_none {m : Read β α} (hm : Parses D P m) (hchk : Checked m)
    {input ext : List β} {a : α} (h : (whole m (start input)).1 = some a) (hext : ext ≠ []) :
    (whole m (start (input ++ ext))).1 = none := by
  obtain ⟨c', hrun, hok, hrest⟩ := (whole_start_eq_some_iff hm hchk).mp h
    (start (input ++ ext)) rfl ext List.drop_zero
  rw [Option.eq_none_iff_forall_ne_some]
  intro b hb
  obtain ⟨hrun', hrem⟩ := whole_eq_some_iff.mp
    (show whole m (start (input ++ ext)) = (some b, _) from by rw [← hb])
  rw [hrun'] at hrun
  cases hrun
  rw [Cursor.remaining, if_pos hok] at hrem
  have hlen := congrArg List.length hrest
  rw [Cursor.rest, List.length_drop, hrem] at hlen
  exact hext (List.eq_nil_of_length_eq_zero hlen.symm)

end Read

end SafeVault
