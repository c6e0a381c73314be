import SafeVault.Import.ZipPlan
import SafeVault.Lib.MachineSum
import Mathlib.Data.List.Fold
import Mathlib.Data.List.MinMax
import Mathlib.Data.List.Sort

/-!
# The volumes of an archive

An archive can be split over several files. Which files belong together is read off their names: each style
of naming has a parser that takes a name apart into a stem and an ordinal. The files beside a picked one that
have its stem under the same style are the volumes.

Ordinals are `int`s. Where the arithmetic on them overflows there are no rules for what happens, and the
functions here have no value.
-/

namespace SafeVault

namespace Volumes

open AsciiFold (fold)
open ZipPlan (isDigit)

inductive VolumeStyle where
  | none | numericSuffix | rarPart | rarOld | spannedZip
  deriving DecidableEq

/-- A volume's place in its set. -/
structure Parsed where
  stem : Bytes
  ordinal : ℤ
  deriving DecidableEq

structure VolumeSet where
  style : VolumeStyle := .none
  stem : Bytes := []
  volumes : List Bytes := []
  missing : List ℤ := []
  deriving DecidableEq

structure Member where
  name : Bytes
  ordinal : ℤ
  deriving DecidableEq

/-- A sort of the members, which need not be stable. -/
structure MemberSort where
  run : List Member → List Member
  perm : ∀ members, (run members).Perm members
  sorted : ∀ members, (run members).Pairwise fun a b ↦ a.ordinal ≤ b.ordinal

/-- Sorting by insertion. -/
def MemberSort.insertion : MemberSort where
  run := List.insertionSort fun a b ↦ a.ordinal ≤ b.ordinal
  perm := List.perm_insertionSort _
  sorted members := by
    have htotal : Std.Total fun a b : Member ↦ a.ordinal ≤ b.ordinal := ⟨fun a b ↦ le_total _ _⟩
    have htrans : IsTrans Member fun a b ↦ a.ordinal ≤ b.ordinal := ⟨fun a b c ↦ le_trans⟩
    exact List.pairwise_insertionSort _ members

/-- The value of an `int` operation, where there is one. -/
def int32 (v : ℤ) : Option ℤ := if MachineSum.Fits v then some v else none

/-! ## Names -/

section Parsers

-- What becomes of the exact value of an operation: `int32`, or `some` for integers of any size.
variable (int : ℤ → Option ℤ)

def allDigits (s : Bytes) : Bool := !s.isEmpty && s.all isDigit

def toInt (digits : Bytes) : Option ℤ :=
  digits.foldlM (fun v c ↦ do
    let tens ← int (v * 10)
    int (tens + (c.toNat - 48 : ℤ))) 0

/-- What is before and after the last dot; `find_last_of`. -/
def atLastDot : Bytes → Option (Bytes × Bytes)
  | [] => none
  | c :: name =>
    match atLastDot name with
    | some (stem, ext) => some (c :: stem, ext)
    | none => if c = 46 then some ([], name) else none

/-- `parse_numeric` -/
def parseNumeric (name : Bytes) : Option (Option Parsed) :=
  match atLastDot name with
  | none => some none
  | some (stem, digits) =>
    if stem.isEmpty then some none
    else if digits.length < 2 || !allDigits digits then some none
    else (toInt int digits).map fun v ↦ some ⟨stem, v⟩

/-- The ordinal of a `.zip`, until the whole set is known. -/
def spannedZipLast : ℤ := -1

/-- `parse_spanned_zip` -/
def parseSpannedZip (name : Bytes) : Option (Option Parsed) :=
  match atLastDot name with
  | none => some none
  | some (stem, ext) =>
    if stem.isEmpty then some none
    else if ext = ascii "zip" then some (some ⟨stem, spannedZipLast⟩)
    else if 2 ≤ ext.length && ext.head? == some 122 && allDigits ext.tail then
      (toInt int ext.tail).map fun v ↦ some ⟨stem, v⟩
    else some none

/-- `parse_rar_part` -/
def parseRarPart (name : Bytes) : Option (Option Parsed) :=
  if !(ascii ".rar").isSuffixOf name then some none
  else
    match atLastDot (name.take (name.length - 4)) with
    | none => some none
    | some (stem, part) =>
      if stem.isEmpty then some none
      else if !(ascii "part").isPrefixOf part || !allDigits (part.drop 4) then some none
      else (toInt int (part.drop 4)).map fun v ↦ some ⟨stem, v⟩

/-- `parse_rar_old` -/
def parseRarOld (name : Bytes) : Option (Option Parsed) :=
  match atLastDot name with
  | none => some none
  | some (stem, ext) =>
    if stem.isEmpty then some none
    else if ext = ascii "rar" then some (some ⟨stem, 1⟩)
    else if 2 ≤ ext.length && ext.head? == some 114 && allDigits ext.tail then
      ((toInt int ext.tail).bind fun v ↦ int (v + 2)).map fun v ↦ some ⟨stem, v⟩
    else some none

/-- `parser_for` -/
def parserFor : VolumeStyle → Bytes → Option (Option Parsed)
  | .numericSuffix => parseNumeric int
  | .spannedZip => parseSpannedZip int
  | .rarPart => parseRarPart int
  | .rarOld => parseRarOld int
  | .none => fun _ ↦ some none

/-! ## Sets -/

def gather (style : VolumeStyle) (stem : Bytes) : List Bytes → Option (List Member)
  | [] => some []
  | sib :: siblings => do
    let p ← parserFor int style (fold sib)
    let found ← gather style stem siblings
    match p with
    | some p => if p.stem = stem then some (⟨sib, p.ordinal⟩ :: found) else some found
    | none => some found

def highest (members : List Member) : ℤ := (members.map (·.ordinal)).foldl max 0

/-- `finalise_order` -/
def finaliseOrder (sort : MemberSort) (members : List Member) : Option (List Member) := do
  let resolved ← members.mapM fun m ↦
    if m.ordinal = spannedZipLast then (int (highest members + 1)).map fun v ↦ { m with ordinal := v }
    else some m
  some (sort.run resolved)

/-- The turns of the loop of `gaps` that are left, from an ordinal on. -/
def gapsFrom (ordered : List Member) : ℕ → ℤ → Option (List ℤ)
  | 0, _ => some []
  | turns + 1, want => do
    let next ← int (want + 1)
    let missing ← gapsFrom ordered turns next
    some (if ordered.any (·.ordinal == want) then missing else want :: missing)

def gaps (ordered : List Member) : Option (List ℤ) :=
  match ordered.head?, ordered.getLast? with
  | some front, some back => gapsFrom int ordered (back.ordinal + 1 - front.ordinal).toNat front.ordinal
  | _, _ => some []

/-- The loop over the candidates. -/
def detectFrom (sort : MemberSort) (lower : Bytes) (siblings : List Bytes) : List VolumeStyle → Option VolumeSet
  | [] => some {}
  | style :: rest => do
    match ← parserFor int style lower with
    | none => detectFrom sort lower siblings rest
    | some p =>
      let members ← gather int style p.stem siblings
      if members.length < 2 then detectFrom sort lower siblings rest
      else
        let members ← finaliseOrder int sort members
        let missing ← gaps int members
        some { style, stem := p.stem, volumes := members.map (·.name), missing }

def candidates : List VolumeStyle := [.rarPart, .spannedZip, .numericSuffix, .rarOld]

end Parsers

/-- `detect_volume_set` -/
def detectVolumeSet (sort : MemberSort) (picked : Bytes) (siblings : List Bytes) : Option VolumeSet :=
  detectFrom int32 sort (fold picked) siblings candidates

/-! ## What a name claims -/

/-- The place that a name claims under a style, with ordinals of any size. -/
def claim (style : VolumeStyle) (name : Bytes) : Option Parsed := (parserFor some style (fold name)).join

/-- The place that a name claims can be told in `int`s. -/
def Small (style : VolumeStyle) (name : Bytes) : Prop := ∀ p ∈ claim style name, p.ordinal < 2 ^ 31

instance (style : VolumeStyle) (name : Bytes) : Decidable (Small style name) :=
  inferInstanceAs (Decidable (∀ p ∈ claim style name, p.ordinal < 2 ^ 31))

/-- The number that digits denote after some others. -/
def value (v : ℤ) (digits : Bytes) : ℤ := digits.foldl (fun v c ↦ v * 10 + (c.toNat - 48 : ℤ)) v

section Numbers

variable {v : ℤ} {digits : Bytes}

theorem int32_of_lt (hv : -2 ^ 31 ≤ v) (h : v < 2 ^ 31) : int32 v = some v := if_pos ⟨hv, h⟩

theorem int32_of_le (h : 2 ^ 31 ≤ v) : int32 v = none := if_neg fun hfits ↦ absurd hfits.2 (not_lt.mpr h)

theorem value_cons (c : UInt8) : value v (c :: digits) = value (v * 10 + (c.toNat - 48 : ℤ)) digits := rfl

theorem le_toNat_of_isDigit {c : UInt8} (h : isDigit c = true) : 48 ≤ c.toNat :=
  UInt8.le_iff_toNat_le.mp (of_decide_eq_true (Bool.and_eq_true_iff.mp h).1)

theorem le_value (hv : 0 ≤ v) (h : digits.all isDigit = true) : v ≤ value v digits := by
  induction digits generalizing v with
  | nil => exact le_rfl
  | cons c digits ih =>
    rw [List.all_cons, Bool.and_eq_true] at h
    have hdigit := le_toNat_of_isDigit h.1
    have hstep : v ≤ v * 10 + (c.toNat - 48 : ℤ) := by omega
    exact hstep.trans (ih (hv.trans hstep) h.2)

theorem toInt_some : toInt some digits = some (value 0 digits) := by
  have key (v : ℤ) : digits.foldlM (fun v c ↦ do
      let tens ← some (v * 10)
      some (tens + (c.toNat - 48 : ℤ))) v = some (value v digits) := by
    induction digits generalizing v with
    | nil => rfl
    | cons c digits ih => exact ih _
  exact key 0

/-- **Reading a number** overflows if and only if the number is too large, however many digits it has. -/
theorem toInt_int32 (h : digits.all isDigit = true) : toInt int32 digits = int32 (value 0 digits) := by
  have key (v : ℤ) (hv : 0 ≤ v) (hlt : v < 2 ^ 31) : digits.foldlM (fun v c ↦ do
      let tens ← int32 (v * 10)
      int32 (tens + (c.toNat - 48 : ℤ))) v = int32 (value v digits) := by
    induction digits generalizing v with
    | nil => exact (int32_of_lt (by omega) hlt).symm
    | cons c digits ih =>
      rw [List.all_cons, Bool.and_eq_true] at h
      have hdigit := le_toNat_of_isDigit h.1
      have hnext : 0 ≤ v * 10 + (c.toNat - 48 : ℤ) := by omega
      have hle := le_value hnext h.2
      rw [List.foldlM_cons, value_cons]
      -- A step that overflows is at a number that is too large already.
      rcases lt_or_ge (v * 10) (2 ^ 31) with htens | htens
      · rw [int32_of_lt (by omega) htens, Option.bind_eq_bind, Option.bind_some]
        rcases lt_or_ge (v * 10 + (c.toNat - 48 : ℤ)) (2 ^ 31) with hsum | hsum
        · rw [int32_of_lt (by omega) hsum, Option.bind_some]
          exact ih h.2 _ hnext hsum
        · rw [int32_of_le hsum, int32_of_le (hsum.trans hle), Option.bind_none]
      · rw [int32_of_le htens, int32_of_le (by omega)]
        rfl
  exact key 0 le_rfl (by norm_num)

end Numbers

section Names

variable {name stem digits : Bytes} {style : VolumeStyle} {r : Option Parsed}

/-- A parser overflows if and only if the ordinal is too large, and else gives what it gives for integers
of any size. -/
def Agrees (parse : (ℤ → Option ℤ) → Option (Option Parsed)) : Prop :=
  ∃ r : Option Parsed, parse some = some r ∧ (∀ p ∈ r, 0 ≤ p.ordinal ∨ p.ordinal = spannedZipLast) ∧
    parse int32 = if ∀ p ∈ r, p.ordinal < 2 ^ 31 then some r else none

theorem agrees_none : Agrees fun _ ↦ some none :=
  ⟨none, rfl, fun p hp ↦ absurd hp (Option.not_mem_none p), (if_pos fun p hp ↦ absurd hp (Option.not_mem_none p)).symm⟩

theorem agrees_some {p : Parsed} (hp : 0 ≤ p.ordinal ∨ p.ordinal = spannedZipLast) (hlt : p.ordinal < 2 ^ 31) :
    Agrees fun _ ↦ some (some p) := by
  refine ⟨some p, rfl, fun q hq ↦ ?_, (if_pos fun q hq ↦ ?_).symm⟩
  · rwa [← Option.some.inj hq]
  · rwa [← Option.some.inj hq]

/-- A number that is read, and something that is added. -/
theorem agrees_add (h : allDigits digits = true) {k : ℤ} (hk : 0 ≤ k) :
    Agrees fun int ↦ ((toInt int digits).bind fun v ↦ int (v + k)).map fun v ↦ some ⟨stem, v⟩ := by
  have hall := (Bool.and_eq_true_iff.mp h).2
  have hvalue := le_value le_rfl hall
  refine ⟨some ⟨stem, value 0 digits + k⟩, ?_, fun p hp ↦ ?_, ?_⟩
  · dsimp only
    rw [toInt_some]
    rfl
  · rw [← Option.some.inj hp]
    exact .inl (add_nonneg hvalue hk)
  · dsimp only
    rw [toInt_int32 hall]
    simp only [Option.mem_def, Option.some.injEq, forall_eq']
    split_ifs with hlt
    · rw [int32_of_lt (by omega) (by omega), Option.bind_some, int32_of_lt (by omega) hlt, Option.map_some]
    · rcases lt_or_ge (value 0 digits) (2 ^ 31) with hsmall | hlarge
      · rw [int32_of_lt (by omega) hsmall, Option.bind_some, int32_of_le (by omega), Option.map_none]
      · rw [int32_of_le hlarge, Option.bind_none, Option.map_none]

theorem agrees_number (h : allDigits digits = true) :
    Agrees fun int ↦ (toInt int digits).map fun v ↦ some ⟨stem, v⟩ := by
  have hall := (Bool.and_eq_true_iff.mp h).2
  have hvalue := le_value le_rfl hall
  refine ⟨some ⟨stem, value 0 digits⟩, ?_, fun p hp ↦ ?_, ?_⟩
  · dsimp only
    rw [toInt_some, Option.map_some]
  · rw [← Option.some.inj hp]
    exact .inl hvalue
  · dsimp only
    rw [toInt_int32 hall]
    simp only [Option.mem_def, Option.some.injEq, forall_eq']
    split_ifs with hlt
    · rw [int32_of_lt (by omega) hlt, Option.map_some]
    · rw [int32_of_le (not_lt.mp hlt), Option.map_none]

theorem agrees_parserFor (style : VolumeStyle) (name : Bytes) : Agrees fun int ↦ parserFor int style name := by
  rcases style with _ | _ | _ | _ | _
  · exact agrees_none
  · simp only [parserFor, parseNumeric]
    rcases atLastDot name with _ | ⟨stem, digits⟩
    · exact agrees_none
    · dsimp only
      split_ifs with hstem hdigits
      · exact agrees_none
      · exact agrees_none
      · rw [Bool.or_eq_true, not_or, Bool.not_eq_true', Bool.not_eq_false] at hdigits
        exact agrees_number hdigits.2
  · simp only [parserFor, parseRarPart]
    split_ifs with hrar
    · exact agrees_none
    rcases atLastDot (name.take (name.length - 4)) with _ | ⟨stem, part⟩
    · exact agrees_none
    · dsimp only
      split_ifs with hstem hpart
      · exact agrees_none
      · exact agrees_none
      · rw [Bool.or_eq_true, not_or, Bool.not_eq_true', Bool.not_eq_false, Bool.not_eq_true', Bool.not_eq_false] at hpart
        exact agrees_number hpart.2
  · simp only [parserFor, parseRarOld]
    rcases atLastDot name with _ | ⟨stem, ext⟩
    · exact agrees_none
    · dsimp only
      split_ifs with hstem hrar hext
      · exact agrees_none
      · exact agrees_some (.inl (by norm_num)) (by norm_num)
      · exact agrees_add (Bool.and_eq_true_iff.mp hext).2 (by norm_num)
      · exact agrees_none
  · simp only [parserFor, parseSpannedZip]
    rcases atLastDot name with _ | ⟨stem, ext⟩
    · exact agrees_none
    · dsimp only
      split_ifs with hstem hzip hext
      · exact agrees_none
      · exact agrees_some (.inr rfl) (by norm_num [spannedZipLast])
      · exact agrees_number (Bool.and_eq_true_iff.mp hext).2
      · exact agrees_none

theorem parserFor_int32 (style : VolumeStyle) (name : Bytes) :
    parserFor int32 style (fold name) = if Small style name then some (claim style name) else none := by
  obtain ⟨r, hsome, -, hint⟩ := agrees_parserFor style (fold name)
  have hclaim : claim style name = r := congrArg Option.join hsome
  rw [← hclaim] at hint
  exact hint

theorem ordinal_of_claim {p : Parsed} (h : claim style name = some p) :
    0 ≤ p.ordinal ∨ p.ordinal = spannedZipLast := by
  obtain ⟨r, hsome, hall, -⟩ := agrees_parserFor style (fold name)
  have hclaim : claim style name = r := congrArg Option.join hsome
  exact hall p (hclaim.symm.trans h)

end Names

/-! ## The volumes of a set -/

section Sets

variable {name stem : Bytes} {style : VolumeStyle} {siblings : List Bytes} {members ordered : List Member}
  {p : Parsed} {sort : MemberSort}

/-- The files that claim a place in a set, in the order of the listing. -/
def claimants (style : VolumeStyle) (stem : Bytes) (siblings : List Bytes) : List Member :=
  siblings.filterMap fun n ↦ (claim style n).bind fun p ↦ if p.stem = stem then some ⟨n, p.ordinal⟩ else none

theorem gather_int32 : gather int32 style stem siblings =
    if ∀ n ∈ siblings, Small style n then some (claimants style stem siblings) else none := by
  induction siblings with
  | nil => exact (if_pos fun n hn ↦ absurd hn List.not_mem_nil).symm
  | cons n siblings ih =>
    rw [gather, parserFor_int32, ih]
    simp only [List.forall_mem_cons, claimants, List.filterMap_cons]
    by_cases hn : Small style n
    · by_cases hall : ∀ n ∈ siblings, Small style n
      · rw [if_pos hn, if_pos hall, if_pos ⟨hn, hall⟩]
        rcases claim style n with _ | q
        · rfl
        · by_cases hq : q.stem = stem
          · simp [hq]
          · simp [hq]
      · have hnot : ¬(Small style n ∧ ∀ n ∈ siblings, Small style n) := fun h ↦ hall h.2
        rw [if_pos hn, if_neg hall, if_neg hnot]
        rfl
    · have hnot : ¬(Small style n ∧ ∀ n ∈ siblings, Small style n) := fun h ↦ hn h.1
      rw [if_neg hn, if_neg hnot]
      rfl

theorem mem_claimants {m : Member} : m ∈ claimants style stem siblings ↔
    m.name ∈ siblings ∧ claim style m.name = some ⟨stem, m.ordinal⟩ := by
  rw [claimants, List.mem_filterMap]
  constructor
  · rintro ⟨n, hn, h⟩
    obtain ⟨p, hp, h⟩ := Option.bind_eq_some_iff.mp h
    split_ifs at h with hstem
    obtain rfl := Option.some.inj h
    exact ⟨hn, hp.trans (by rw [← hstem])⟩
  · rintro ⟨hn, h⟩
    exact ⟨m.name, hn, by rw [h, Option.bind_some, if_pos rfl]⟩

/-- The members with the ordinal of the last one told. -/
def resolve (members : List Member) : List Member :=
  members.map fun m ↦ if m.ordinal = spannedZipLast then { m with ordinal := highest members + 1 } else m

theorem le_highest {m : Member} (hm : m ∈ members) : m.ordinal ≤ highest members := by
  rw [highest, List.foldl_eq_foldr]
  exact List.le_max_of_le' 0 (List.mem_map_of_mem hm) le_rfl

theorem highest_nonneg : 0 ≤ highest members := by
  rw [highest, List.foldl_eq_foldr]
  induction members with
  | nil => exact le_rfl
  | cons m members ih => exact le_max_of_le_right ih

theorem finaliseOrder_int32 (h : ∀ m ∈ members, m.ordinal < 2 ^ 31) : finaliseOrder int32 sort members =
    if ∀ m ∈ resolve members, m.ordinal < 2 ^ 31 then some (sort.run (resolve members)) else none := by
  have hnonneg : 0 ≤ highest members := highest_nonneg
  rw [finaliseOrder, resolve]
  generalize highest members = top at hnonneg
  -- All members are resolved, or the loop ends at the first one that is not.
  have key : (members.mapM fun m ↦ if m.ordinal = spannedZipLast then
        (int32 (top + 1)).map fun v ↦ { m with ordinal := v } else some m) =
      if ∀ m ∈ members.map fun m ↦ if m.ordinal = spannedZipLast then { m with ordinal := top + 1 } else m,
        m.ordinal < 2 ^ 31 then
      some (members.map fun m ↦ if m.ordinal = spannedZipLast then { m with ordinal := top + 1 } else m)
      else none := by
    induction members with
    | nil => rfl
    | cons m members ih =>
      obtain ⟨hm, hrest⟩ := List.forall_mem_cons.mp h
      rw [List.mapM_cons, ih hrest]
      simp only [List.map_cons, List.forall_mem_cons]
      by_cases hlast : m.ordinal = spannedZipLast
      · simp only [if_pos hlast]
        rcases lt_or_ge (top + 1) (2 ^ 31) with hlt | hle
        · simp only [int32_of_lt (by omega) hlt, hlt, true_and, Option.map_some]
          split_ifs <;> rfl
        · simp only [int32_of_le hle, not_lt.mpr hle, false_and, if_false]
          rfl
      · simp only [if_neg hlast, hm, true_and]
        split_ifs <;> rfl
  rw [key]
  split_ifs <;> rfl

/-- The ordinals between the first and the last one that nobody has. -/
def absent (ordered : List Member) : List ℤ :=
  match ordered.head?, ordered.getLast? with
  | some front, some back => ((List.range (back.ordinal + 1 - front.ordinal).toNat).map fun k : ℕ ↦ front.ordinal + k).filter
      fun k ↦ !ordered.any (·.ordinal == k)
  | _, _ => []

theorem gapsFrom_int32 {turns : ℕ} {want : ℤ} (h : -2 ^ 31 ≤ want) : gapsFrom int32 ordered turns want =
    if turns = 0 ∨ want + turns < 2 ^ 31 then
      some (((List.range turns).map fun k : ℕ ↦ want + k).filter fun k ↦ !ordered.any (·.ordinal == k))
    else none := by
  induction turns generalizing want with
  | zero => rfl
  | succ turns ih =>
    have hrange : ((List.range (turns + 1)).map fun k : ℕ ↦ want + k) =
        want :: (List.range turns).map fun k : ℕ ↦ want + 1 + k := by
      rw [List.range_succ_eq_map, List.map_cons, List.map_map]
      refine congrArg₂ List.cons (add_zero want) (List.map_congr_left fun k _ ↦ ?_)
      exact (by push_cast; ring : want + ((k + 1 : ℕ) : ℤ) = want + 1 + k)
    rw [gapsFrom, hrange, List.filter_cons]
    rcases lt_or_ge (want + 1) (2 ^ 31) with hlt | hle
    · rw [int32_of_lt (by omega) hlt, Option.bind_eq_bind, Option.bind_some, ih (by omega)]
      by_cases hturns : turns = 0 ∨ want + 1 + turns < 2 ^ 31
      · rw [if_pos hturns, if_pos (by omega), Option.bind_eq_bind, Option.bind_some]
        rcases ordered.any (·.ordinal == want) with _ | _ <;> rfl
      · rw [if_neg hturns, if_neg (by omega)]
        rfl
    · rw [int32_of_le hle, if_neg (by omega)]
      rfl

/-- The first and the last one have the smallest and the largest ordinal. -/
theorem ends_of_sorted (hne : ordered ≠ []) (hsorted : ordered.Pairwise fun a b ↦ a.ordinal ≤ b.ordinal) :
    ∃ front back, ordered.head? = some front ∧ ordered.getLast? = some back ∧ front ∈ ordered ∧ back ∈ ordered ∧
      ∀ m ∈ ordered, front.ordinal ≤ m.ordinal ∧ m.ordinal ≤ back.ordinal := by
  obtain ⟨front, hfront⟩ := Option.ne_none_iff_exists'.mp (List.head?_eq_none_iff.not.mpr hne)
  obtain ⟨back, hback⟩ := Option.ne_none_iff_exists'.mp (List.getLast?_eq_none_iff.not.mpr hne)
  refine ⟨front, back, hfront, hback, List.mem_of_head? hfront, List.mem_of_getLast? hback, fun m hm ↦ ⟨?_, ?_⟩⟩
  · obtain ⟨rest, rfl⟩ := List.head?_eq_some_iff.mp hfront
    rcases List.mem_cons.mp hm with rfl | hm
    · exact le_rfl
    · exact (List.pairwise_cons.mp hsorted).1 m hm
  · obtain ⟨rest, rfl⟩ := List.getLast?_eq_some_iff.mp hback
    rcases List.mem_append.mp hm with hm | hm
    · exact (List.pairwise_append.mp hsorted).2.2 m hm back (List.mem_singleton_self back)
    · rw [List.mem_singleton.mp hm]

theorem gaps_int32 (hne : ordered ≠ []) (hsorted : ordered.Pairwise fun a b ↦ a.ordinal ≤ b.ordinal)
    (hnonneg : ∀ m ∈ ordered, 0 ≤ m.ordinal) : gaps int32 ordered =
      if ∀ m ∈ ordered, m.ordinal + 1 < 2 ^ 31 then some (absent ordered) else none := by
  obtain ⟨front, back, hfront, hback, hmemfront, hmem, hle⟩ := ends_of_sorted hne hsorted
  have hfrontle := (hle front hmemfront).2
  have hfrontnonneg := hnonneg front hmemfront
  have hiff : (∀ m ∈ ordered, m.ordinal + 1 < 2 ^ 31) ↔ back.ordinal + 1 < 2 ^ 31 :=
    ⟨fun h ↦ h back hmem, fun h m hm ↦ lt_of_le_of_lt (Int.add_le_add_right (hle m hm).2 1) h⟩
  rw [gaps, absent, hfront, hback]
  dsimp only
  rw [gapsFrom_int32 (by omega)]
  refine if_congr ?_ rfl rfl
  rw [hiff, Int.toNat_of_nonneg (by omega)]
  omega

/-- The set that the claimants make up. -/
def assembled (sort : MemberSort) (style : VolumeStyle) (stem : Bytes) (siblings : List Bytes) : VolumeSet :=
  let ordered := sort.run (resolve (claimants style stem siblings))
  { style, stem, volumes := ordered.map (·.name), missing := absent ordered }

/-- No ordinal of a set is the largest `int`: the one after it is computed. -/
def Below (style : VolumeStyle) (stem : Bytes) (siblings : List Bytes) : Prop :=
  ∀ m ∈ resolve (claimants style stem siblings), m.ordinal + 1 < 2 ^ 31

instance (style : VolumeStyle) (stem : Bytes) (siblings : List Bytes) : Decidable (Below style stem siblings) :=
  inferInstanceAs (Decidable (∀ m ∈ resolve (claimants style stem siblings), m.ordinal + 1 < 2 ^ 31))

theorem resolve_nonneg {m : Member} (hm : m ∈ resolve (claimants style stem siblings)) : 0 ≤ m.ordinal := by
  obtain ⟨c, hc, rfl⟩ := List.mem_map.mp hm
  split_ifs with hlast
  · exact add_nonneg highest_nonneg (by norm_num)
  · exact (ordinal_of_claim (mem_claimants.mp hc).2).resolve_right hlast

/-- What is done with the claimants, where their ordinals can be told. -/
theorem assemble_int32 (hsmall : ∀ n ∈ siblings, Small style n) (hne : claimants style stem siblings ≠ []) :
    (do
      let members ← finaliseOrder int32 sort (claimants style stem siblings)
      let missing ← gaps int32 members
      some ({ style, stem, volumes := members.map (·.name), missing } : VolumeSet)) =
    if Below style stem siblings then some (assembled sort style stem siblings) else none := by
  have hlt : ∀ m ∈ claimants style stem siblings, m.ordinal < 2 ^ 31 := fun m hm ↦
    hsmall m.name (mem_claimants.mp hm).1 _ (mem_claimants.mp hm).2
  have hperm := sort.perm (resolve (claimants style stem siblings))
  have hne' : sort.run (resolve (claimants style stem siblings)) ≠ [] := by
    intro h
    rw [h] at hperm
    exact hne (List.map_eq_nil_iff.mp (List.nil_perm.mp hperm))
  have hgaps := gaps_int32 hne' (sort.sorted _) fun m hm ↦ resolve_nonneg (hperm.mem_iff.mp hm)
  rw [finaliseOrder_int32 hlt]
  by_cases hbelow : Below style stem siblings
  · rw [if_pos fun m hm ↦ (lt_add_one _).trans (hbelow m hm), if_pos hbelow, Option.bind_eq_bind, Option.bind_some,
      hgaps, if_pos fun m hm ↦ hbelow m (hperm.mem_iff.mp hm)]
    rfl
  · rw [if_neg hbelow]
    split_ifs with hall
    · rw [Option.bind_eq_bind, Option.bind_some, hgaps,
        if_neg fun h ↦ hbelow fun m hm ↦ h m (hperm.mem_iff.mpr hm)]
      rfl
    · rfl

/-- The place of a name and those of the files beside it can be told. -/
def Parsable (style : VolumeStyle) (name : Bytes) (siblings : List Bytes) : Prop :=
  ∀ n ∈ name :: siblings, Small style n

instance (style : VolumeStyle) (name : Bytes) (siblings : List Bytes) : Decidable (Parsable style name siblings) :=
  inferInstanceAs (Decidable (∀ n ∈ name :: siblings, Small style n))

/-- A turn of the loop over the candidates. -/
theorem detectFrom_cons (rest : List VolumeStyle) :
    detectFrom int32 sort (fold name) siblings (style :: rest) =
      match claim style name with
      | none => detectFrom int32 sort (fold name) siblings rest
      | some p =>
        if Parsable style name siblings then
          if (claimants style p.stem siblings).length < 2 then detectFrom int32 sort (fold name) siblings rest
          else if Below style p.stem siblings then some (assembled sort style p.stem siblings) else none
        else none := by
  rw [detectFrom, parserFor_int32]
  rcases hclaim : claim style name with _ | p
  · have hsmall : Small style name := fun p hp ↦ absurd (hclaim.symm.trans hp) (Option.some_ne_none p).symm
    rw [if_pos hsmall]
    rfl
  dsimp only
  by_cases hname : Small style name
  · by_cases hall : ∀ n ∈ siblings, Small style n
    · have hparsable : Parsable style name siblings := List.forall_mem_cons.mpr ⟨hname, hall⟩
      rw [if_pos hname, if_pos hparsable, Option.bind_eq_bind, Option.bind_some]
      dsimp only
      rw [gather_int32, if_pos hall, Option.bind_eq_bind, Option.bind_some]
      by_cases hlen : (claimants style p.stem siblings).length < 2
      · rw [if_pos hlen, if_pos hlen]
      · rw [if_neg hlen, if_neg hlen]
        exact assemble_int32 hall fun h ↦ hlen (by rw [h]; exact Nat.zero_lt_two)
    · have hnot : ¬Parsable style name siblings := fun h ↦ hall (List.forall_mem_cons.mp h).2
      rw [if_pos hname, if_neg hnot, Option.bind_eq_bind, Option.bind_some]
      dsimp only
      rw [gather_int32, if_neg hall]
      rfl
  · have hnot : ¬Parsable style name siblings := fun h ↦ hname (List.forall_mem_cons.mp h).1
    rw [if_neg hname, if_neg hnot]
    rfl

end Sets

end Volumes

end SafeVault
