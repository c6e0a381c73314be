import Mathlib.Data.Int.Notation
import Mathlib.Data.List.Basic
import Mathlib.Tactic.SplitIfs

/-!
# Streams with a position

A stream is read from a position that moves with each read, and can be set. A read may return less than
was asked for, but it returns something as long as anything is left; it may also fail, and then the
position stays. Setting the position says where it is to be in relation to the start, to where it is or
to the end, and is refused when that is before the start or cannot be expressed.

Where the contents are in several parts, a position is in the first part that ends behind it.
-/

namespace SafeVault

namespace SeekStream

variable {α : Type}

inductive Request where
  | read (amount : ℕ)
  | seek (offset : ℤ) (origin : ℕ)

inductive Answer (α : Type) where
  | data (bytes : List α)
  | failed
  | at (position : ℕ)
  | refused

/-- Where a request asks the position to be. -/
def target (size position : ℕ) (offset : ℤ) (origin : ℕ) : ℤ :=
  (if origin = 1 then (position : ℤ) else if origin = 2 then (size : ℤ) else 0) + offset

/-- What a request may do at a position, where positions up to a limit can be expressed. -/
inductive Step (content : List α) (limit : ℕ) (position : ℕ) : Request → Answer α → ℕ → Prop
  | read {amount : ℕ} {bytes rest : List α} (hbytes : content.drop position = bytes ++ rest)
      (hamount : bytes.length ≤ amount)
      (hend : bytes = [] → amount = 0 ∨ content.length ≤ position) :
      Step content limit position (.read amount) (.data bytes) (position + bytes.length)
  | failed {amount : ℕ} : Step content limit position (.read amount) .failed position
  | seek {offset : ℤ} {origin next : ℕ} (horigin : origin ≤ 2) (hlimit : next ≤ limit)
      (hnext : target content.length position offset origin = next) :
      Step content limit position (.seek offset origin) (.at next) next
  | refused {offset : ℤ} {origin : ℕ}
      (h : 2 < origin ∨ target content.length position offset origin < 0 ∨
        limit < target content.length position offset origin) :
      Step content limit position (.seek offset origin) .refused position

/-- One request after another. -/
inductive Run (content : List α) (limit : ℕ) : ℕ → List (Request × Answer α) → ℕ → Prop
  | nil {position : ℕ} : Run content limit position [] position
  | cons {position middle last : ℕ} {request : Request} {answer : Answer α}
      {events : List (Request × Answer α)} (hstep : Step content limit position request answer middle)
      (hrun : Run content limit middle events last) :
      Run content limit position ((request, answer) :: events) last

/-! ## Contents in parts -/

/-- Where parts of these sizes end, the first of them beginning at `start`. -/
def endsFrom (start : ℕ) : List ℕ → List ℕ
  | [] => []
  | n :: ns => (start + n) :: endsFrom (start + n) ns

/-- Where a part begins. -/
def beginOf (start : ℕ) (ends : List ℕ) (index : ℕ) : ℕ :=
  if index = 0 then start else ends.getD (index - 1) 0

variable {parts : List (List α)} {start p : ℕ}

theorem beginOf_succ (start stop : ℕ) (ends : List ℕ) (index : ℕ) :
    beginOf start (stop :: ends) (index + 1) = beginOf stop ends index := by
  rw [beginOf, beginOf, if_neg (Nat.succ_ne_zero index), Nat.add_sub_cancel]
  cases index with
  | zero => rfl
  | succ index => rw [if_neg (Nat.succ_ne_zero index), List.getD_cons_succ, Nat.add_sub_cancel]

theorem getLastD_endsFrom (parts : List (List α)) (start : ℕ) :
    (endsFrom start (parts.map List.length)).getLastD start = start + parts.flatten.length := by
  induction parts generalizing start with
  | nil => rfl
  | cons part parts ih =>
    rw [List.map_cons, endsFrom, List.getLastD_cons, ih, List.flatten_cons, List.length_append, Nat.add_assoc]

/-- A position is in the first part that ends behind it, and what follows it begins with the rest of
this part. -/
theorem locate (hp : start ≤ p) (hlt : p < start + parts.flatten.length) :
    let ends := endsFrom start (parts.map List.length)
    let index := ends.findIdx (p < ·)
    ∃ part stop rest, parts[index]? = some part ∧ ends[index]? = some stop ∧
      beginOf start ends index + part.length = stop ∧ beginOf start ends index ≤ p ∧ p < stop ∧
      parts.flatten.drop (p - start) = part.drop (p - beginOf start ends index) ++ rest := by
  induction parts generalizing start with
  | nil =>
    rw [List.flatten_nil, List.length_nil] at hlt
    exact absurd hlt (Nat.not_lt.mpr hp)
  | cons part parts ih =>
    rw [List.flatten_cons, List.length_append] at hlt
    rw [List.map_cons, endsFrom]
    dsimp only
    rw [List.findIdx_cons]
    rcases Nat.lt_or_ge p (start + part.length) with hin | hbehind
    · rw [decide_eq_true hin]
      refine ⟨part, start + part.length, parts.flatten, rfl, rfl, rfl, hp, hin, ?_⟩
      change _ = part.drop (p - start) ++ parts.flatten
      rw [List.flatten_cons, List.drop_append_of_le_length (by omega)]
    · obtain ⟨part', stop, rest, hpart, hstop, hbegin, hle, hin, hrest⟩ := ih hbehind (by omega)
      rw [decide_eq_false (Nat.not_lt.mpr hbehind)]
      dsimp only [cond_false]
      rw [beginOf_succ]
      refine ⟨part', stop, rest, hpart, hstop, hbegin, hle, hin, ?_⟩
      rw [← hrest, List.flatten_cons, List.drop_append, List.drop_eq_nil_of_le (by omega), List.nil_append,
        Nat.sub_sub]

end SeekStream

end SafeVault
