import SafeVault.Import.ZipPlan
import Mathlib.Data.List.DropRight
import Mathlib.Data.List.Lex
import Mathlib.Data.Prod.Lex

/-!
# The natural order

Names are compared with the runs of digits in them as numbers, and up to case. Read off as a list of
keys, one for each run and for each other character, a name has a place in the lexicographic order of
such lists. So the comparison is transitive and total, and a stable sort by it puts pages in order.
-/

namespace SafeVault

namespace ZipPlan

/-- The class and value of a part of a name. Every run of digits is in one class. -/
abbrev SortKey := ℕ ×ₗ ℕ ×ₗ List ℕ ×ₗ ℕ

def runKey (r : Bytes) : SortKey :=
  toLex (48, toLex ((significant r).length, toLex ((significant r).map (·.toNat), r.length)))

def charKey (c : UInt8) : SortKey := toLex ((AsciiFold.lower c).toNat, toLex (0, toLex ([], 0)))

/-- The keys of the parts of a name, of which at most as many as given. -/
def sortKeysFrom : ℕ → Bytes → List SortKey
  | _, [] => []
  | 0, _ :: _ => []
  | n + 1, c :: a =>
    if isDigit c then runKey ((c :: a).takeWhile isDigit) :: sortKeysFrom n (a.dropWhile isDigit)
    else charKey c :: sortKeysFrom n a

def sortKeys (a : Bytes) : List SortKey := sortKeysFrom a.length a

/-! ## Parts -/

theorem map_toNat_lt_iff (s t : Bytes) : s.map (·.toNat) < t.map (·.toNat) ↔ s < t := by
  induction s generalizing t with
  | nil =>
    rcases t with _ | ⟨d, t⟩
    · exact iff_of_false (List.lt_irrefl _) (List.lt_irrefl _)
    · exact iff_of_true (List.nil_lt_cons _ _) (List.nil_lt_cons _ _)
  | cons c s ih =>
    rcases t with _ | ⟨d, t⟩
    · exact iff_of_false (List.not_lt_nil _) (List.not_lt_nil _)
    · rw [List.map_cons, List.map_cons, List.cons_lt_cons_iff, List.cons_lt_cons_iff, ih,
        UInt8.lt_iff_toNat_lt, UInt8.toNat_inj]

theorem eq_of_not_lt {s t : Bytes} (hst : ¬s < t) (hts : ¬t < s) : s = t := by
  rw [← map_toNat_lt_iff, not_lt] at hst hts
  exact List.map_injective_iff.mpr (fun _ _ ↦ UInt8.toNat_inj.mp) (le_antisymm hts hst)

theorem runKey_lt_iff (r s : Bytes) : runKey r < runKey s ↔
    (significant r).length < (significant s).length ∨
      (significant r).length = (significant s).length ∧ (significant r < significant s ∨
        significant r = significant s ∧ r.length < s.length) := by
  rw [runKey, runKey, Prod.Lex.toLex_lt_toLex, Prod.Lex.toLex_lt_toLex, Prod.Lex.toLex_lt_toLex]
  dsimp only
  rw [map_toNat_lt_iff, (List.map_injective_iff.mpr fun _ _ ↦ UInt8.toNat_inj.mp).eq_iff,
    or_iff_right (lt_irrefl _), and_iff_right rfl]

theorem runKey_eq_iff (r s : Bytes) :
    runKey r = runKey s ↔ significant r = significant s ∧ r.length = s.length := by
  constructor
  · intro h
    have hparts := congrArg (fun k : SortKey ↦ (ofLex (ofLex (ofLex k).2).2)) h
    obtain ⟨hsig, hlen⟩ := Prod.mk.inj hparts
    exact ⟨List.map_injective_iff.mpr (fun _ _ ↦ UInt8.toNat_inj.mp) hsig, hlen⟩
  · rintro ⟨hsig, hlen⟩
    rw [runKey, runKey, hsig, hlen]

/-- Comparing runs of digits is comparing their keys. -/
theorem compareNumeric_spec (r s : Bytes) :
    (compareNumeric r s = .lt ↔ runKey r < runKey s) ∧ (compareNumeric r s = .eq ↔ runKey r = runKey s) := by
  rw [compareNumeric]
  rw [Ordering.then_eq_lt, Ordering.then_eq_lt, Ordering.then_eq_eq, Ordering.then_eq_eq,
    compare_lt_iff_lt, compare_eq_iff_eq, compare_lt_iff_lt, compare_eq_iff_eq, runKey_lt_iff,
    runKey_eq_iff]
  have hlt : (if significant r < significant s then Ordering.lt
      else if significant s < significant r then Ordering.gt else Ordering.eq) = .lt ↔
        significant r < significant s := by
    split_ifs with h
    · exact iff_of_true rfl h
    · exact iff_of_false (by exact nofun) h
    · exact iff_of_false (by exact nofun) h
  have heq : (if significant r < significant s then Ordering.lt
      else if significant s < significant r then Ordering.gt else Ordering.eq) = .eq ↔
        significant r = significant s := by
    split_ifs with h h'
    · exact iff_of_false (by exact nofun) fun heq ↦ List.lt_irrefl _ (heq ▸ h)
    · exact iff_of_false (by exact nofun) fun heq ↦ List.lt_irrefl _ (heq ▸ h')
    · exact iff_of_true rfl (eq_of_not_lt h h')
  rw [hlt, heq]
  exact ⟨Iff.rfl, ⟨fun h ↦ h.2, fun h ↦ ⟨congrArg _ h.1, h⟩⟩⟩

theorem charKey_lt_iff (c d : UInt8) :
    charKey c < charKey d ↔ (AsciiFold.lower c).toNat < (AsciiFold.lower d).toNat := by
  rw [charKey, charKey, Prod.Lex.toLex_lt_toLex]
  dsimp only
  exact or_iff_left fun h ↦ lt_irrefl _ h.2

theorem charKey_eq_iff (c d : UInt8) : charKey c = charKey d ↔ AsciiFold.lower c = AsciiFold.lower d := by
  constructor
  · exact fun h ↦ UInt8.toNat_inj.mp (congrArg (fun k : SortKey ↦ (ofLex k).1) h)
  · intro h
    rw [charKey, charKey, h]

/-- A digit is the same in lower case; another character is not in the range of the digits. -/
theorem isDigit_iff_lower (c : UInt8) :
    isDigit c = true ↔ 48 ≤ (AsciiFold.lower c).toNat ∧ (AsciiFold.lower c).toNat ≤ 57 := by
  rw [isDigit, Bool.and_eq_true, decide_eq_true_iff, decide_eq_true_iff, AsciiFold.lower]
  simp only [UInt8.le_iff_toNat_le, UInt8.reduceToNat]
  split_ifs with h
  · simp only [UInt8.toNat_add, UInt8.reduceToNat]
    have := c.toNat_lt
    omega
  · exact Iff.rfl

/-- A run of digits is never equal to another character. -/
theorem runKey_ne_charKey (r : Bytes) {d : UInt8} (hd : isDigit d = false) : runKey r ≠ charKey d := by
  intro hkey
  have h48 : 48 = (AsciiFold.lower d).toNat := congrArg (fun k : SortKey ↦ (ofLex k).1) hkey
  have := (isDigit_iff_lower d).not.mp (hd ▸ Bool.false_ne_true)
  omega

theorem runKey_lt_charKey_iff (r : Bytes) {d : UInt8} (hd : isDigit d = false) :
    runKey r < charKey d ↔ 57 < (AsciiFold.lower d).toNat := by
  rw [runKey, charKey, Prod.Lex.toLex_lt_toLex]
  dsimp only
  have := (isDigit_iff_lower d).not.mp (hd ▸ Bool.false_ne_true)
  omega

theorem charKey_lt_runKey_iff (r : Bytes) {d : UInt8} (hd : isDigit d = false) :
    charKey d < runKey r ↔ (AsciiFold.lower d).toNat < 48 := by
  rw [runKey, charKey, Prod.Lex.toLex_lt_toLex]
  dsimp only
  have := (isDigit_iff_lower d).not.mp (hd ▸ Bool.false_ne_true)
  omega

/-! ## Names -/

theorem compare_lower_lt_iff (c d : UInt8) :
    compare (AsciiFold.lower c) (AsciiFold.lower d) = .lt ↔
      (AsciiFold.lower c).toNat < (AsciiFold.lower d).toNat :=
  Std.compare_eq_lt.trans UInt8.lt_iff_toNat_lt

/-- One part of each name is compared as its key is. -/
theorem compare_lower_spec {c d : UInt8} (h : ¬(isDigit c = true ∧ isDigit d = true)) (r s : Bytes) :
    (compare (AsciiFold.lower c) (AsciiFold.lower d) = .lt ↔
      (if isDigit c then runKey r else charKey c) < if isDigit d then runKey s else charKey d) ∧
    (compare (AsciiFold.lower c) (AsciiFold.lower d) = .eq ↔
      (if isDigit c then runKey r else charKey c) = if isDigit d then runKey s else charKey d) := by
  rw [compare_lower_lt_iff, Std.compare_eq_iff_eq]
  have hc := isDigit_iff_lower c
  have hd := isDigit_iff_lower d
  rcases hcd : isDigit c with _ | _
  · rcases hdd : isDigit d with _ | _
    · rw [if_neg Bool.false_ne_true, if_neg Bool.false_ne_true, charKey_lt_iff, charKey_eq_iff]
      exact ⟨Iff.rfl, Iff.rfl⟩
    · rw [if_neg Bool.false_ne_true, if_pos rfl, charKey_lt_runKey_iff _ hcd]
      rw [hcd] at hc
      have hnot := hc.not.mp Bool.false_ne_true
      have hin := hd.mp hdd
      refine ⟨by omega, iff_of_false (fun heq ↦ ?_) (runKey_ne_charKey s hcd).symm⟩
      rw [heq] at hnot
      exact hnot hin
  · rcases hdd : isDigit d with _ | _
    · rw [if_pos rfl, if_neg Bool.false_ne_true, runKey_lt_charKey_iff _ hdd]
      rw [hdd] at hd
      have hnot := hd.not.mp Bool.false_ne_true
      have hin := hc.mp hcd
      refine ⟨by omega, iff_of_false (fun heq ↦ ?_) (runKey_ne_charKey r hdd)⟩
      rw [← heq] at hnot
      exact hnot hin
    · exact absurd ⟨hcd, hdd⟩ h

theorem length_dropWhile_le {a : Bytes} {n : ℕ} (h : a.length ≤ n) :
    (a.dropWhile isDigit).length ≤ n := (List.dropWhile_sublist _).length_le.trans h

theorem naturalCompareFrom_nil_lt_iff (n : ℕ) {m : ℕ} {b : Bytes} (hb : b.length ≤ m) :
    naturalCompareFrom n [] b = .lt ↔ sortKeysFrom n [] < sortKeysFrom m b := by
  rcases b with _ | ⟨d, b⟩
  · rw [naturalCompareFrom, sortKeysFrom, sortKeysFrom]
    exact iff_of_false (by exact nofun) (lt_irrefl _)
  · obtain ⟨m, rfl⟩ := Nat.exists_eq_add_one_of_ne_zero (Nat.ne_of_gt ((Nat.zero_lt_succ _).trans_le hb))
    rw [naturalCompareFrom, sortKeysFrom, sortKeysFrom]
    split_ifs
    · exact iff_of_true rfl (List.nil_lt_cons _ _)
    · exact iff_of_true rfl (List.nil_lt_cons _ _)

/-- **Comparing names** is comparing their keys in lexicographic order. -/
theorem naturalCompareFrom_lt_iff {n m : ℕ} {a b : Bytes} (ha : a.length ≤ n) (hb : b.length ≤ m) :
    naturalCompareFrom n a b = .lt ↔ sortKeysFrom n a < sortKeysFrom m b := by
  induction n generalizing a b m with
  | zero =>
    obtain rfl := List.eq_nil_of_length_eq_zero (Nat.le_zero.mp ha)
    exact naturalCompareFrom_nil_lt_iff 0 hb
  | succ n ih =>
    rcases a with _ | ⟨c, a⟩
    · exact naturalCompareFrom_nil_lt_iff _ hb
    rcases b with _ | ⟨d, b⟩
    · rw [naturalCompareFrom, sortKeysFrom]
      exact iff_of_false (by exact nofun) (List.not_lt_nil _)
    obtain ⟨m, rfl⟩ := Nat.exists_eq_add_one_of_ne_zero (Nat.ne_of_gt ((Nat.zero_lt_succ _).trans_le hb))
    have ha := Nat.le_of_succ_le_succ ha
    have hb := Nat.le_of_succ_le_succ hb
    rw [naturalCompareFrom]
    by_cases hdigits : isDigit c = true ∧ isDigit d = true
    · obtain ⟨hlt, heq⟩ :=
        compareNumeric_spec ((c :: a).takeWhile isDigit) ((d :: b).takeWhile isDigit)
      rw [if_pos (Bool.and_eq_true_iff.mpr hdigits), sortKeysFrom, sortKeysFrom, if_pos hdigits.1,
        if_pos hdigits.2, List.cons_lt_cons_iff, Ordering.then_eq_lt, hlt, heq,
        ih (length_dropWhile_le ha) (length_dropWhile_le hb)]
    · obtain ⟨hlt, heq⟩ :=
        compare_lower_spec hdigits ((c :: a).takeWhile isDigit) ((d :: b).takeWhile isDigit)
      rw [if_neg (mt Bool.and_eq_true_iff.mp hdigits), Ordering.then_eq_lt, hlt, heq, ih ha hb,
        sortKeysFrom, sortKeysFrom]
      rcases hc : isDigit c with _ | _
      · rcases hd : isDigit d with _ | _
        · simp [List.cons_lt_cons_iff]
        · simp [List.cons_lt_cons_iff, (runKey_ne_charKey _ hc).symm]
      · rcases hd : isDigit d with _ | _
        · simp [List.cons_lt_cons_iff, runKey_ne_charKey _ hd]
        · exact absurd ⟨hc, hd⟩ hdigits

theorem naturalCompare_lt_iff (a b : Bytes) : naturalCompare a b = .lt ↔ sortKeys a < sortKeys b :=
  naturalCompareFrom_lt_iff le_rfl le_rfl

/-! ## Equal names -/

theorem naturalCompareFrom_nil_eq_iff (n : ℕ) {m : ℕ} {b : Bytes} (hb : b.length ≤ m) :
    naturalCompareFrom n [] b = .eq ↔ sortKeysFrom n [] = sortKeysFrom m b := by
  rcases b with _ | ⟨d, b⟩
  · rw [naturalCompareFrom, sortKeysFrom, sortKeysFrom]
    exact iff_of_true rfl rfl
  · obtain ⟨m, rfl⟩ := Nat.exists_eq_add_one_of_ne_zero (Nat.ne_of_gt ((Nat.zero_lt_succ _).trans_le hb))
    rw [naturalCompareFrom, sortKeysFrom, sortKeysFrom]
    split_ifs
    · exact iff_of_false (by exact nofun) (by exact nofun)
    · exact iff_of_false (by exact nofun) (by exact nofun)

/-- Names that compare as equal are those with equal keys. -/
theorem naturalCompareFrom_eq_iff {n m : ℕ} {a b : Bytes} (ha : a.length ≤ n) (hb : b.length ≤ m) :
    naturalCompareFrom n a b = .eq ↔ sortKeysFrom n a = sortKeysFrom m b := by
  induction n generalizing a b m with
  | zero =>
    obtain rfl := List.eq_nil_of_length_eq_zero (Nat.le_zero.mp ha)
    exact naturalCompareFrom_nil_eq_iff 0 hb
  | succ n ih =>
    rcases a with _ | ⟨c, a⟩
    · exact naturalCompareFrom_nil_eq_iff _ hb
    rcases b with _ | ⟨d, b⟩
    · rw [naturalCompareFrom, sortKeysFrom, sortKeysFrom]
      split_ifs
      · exact iff_of_false (by exact nofun) (by exact nofun)
      · exact iff_of_false (by exact nofun) (by exact nofun)
    obtain ⟨m, rfl⟩ := Nat.exists_eq_add_one_of_ne_zero (Nat.ne_of_gt ((Nat.zero_lt_succ _).trans_le hb))
    have ha := Nat.le_of_succ_le_succ ha
    have hb := Nat.le_of_succ_le_succ hb
    rw [naturalCompareFrom]
    by_cases hdigits : isDigit c = true ∧ isDigit d = true
    · obtain ⟨-, heq⟩ :=
        compareNumeric_spec ((c :: a).takeWhile isDigit) ((d :: b).takeWhile isDigit)
      rw [if_pos (Bool.and_eq_true_iff.mpr hdigits), sortKeysFrom, sortKeysFrom, if_pos hdigits.1,
        if_pos hdigits.2, List.cons.injEq, Ordering.then_eq_eq, heq,
        ih (length_dropWhile_le ha) (length_dropWhile_le hb)]
    · obtain ⟨-, heq⟩ :=
        compare_lower_spec hdigits ((c :: a).takeWhile isDigit) ((d :: b).takeWhile isDigit)
      rw [if_neg (mt Bool.and_eq_true_iff.mp hdigits), Ordering.then_eq_eq, heq, ih ha hb, sortKeysFrom,
        sortKeysFrom]
      rcases hc : isDigit c with _ | _
      · rcases hd : isDigit d with _ | _
        · simp
        · simp [(runKey_ne_charKey _ hc).symm]
      · rcases hd : isDigit d with _ | _
        · simp [runKey_ne_charKey _ hd]
        · exact absurd ⟨hc, hd⟩ hdigits

theorem naturalCompare_eq_iff (a b : Bytes) : naturalCompare a b = .eq ↔ sortKeys a = sortKeys b :=
  naturalCompareFrom_eq_iff le_rfl le_rfl

/-- Comparing the other way round gives the opposite. -/
theorem naturalCompare_swap (a b : Bytes) : naturalCompare b a = (naturalCompare a b).swap := by
  have hlt := naturalCompare_lt_iff a b
  have heq := naturalCompare_eq_iff a b
  have hlt' := naturalCompare_lt_iff b a
  have heq' := naturalCompare_eq_iff b a
  rcases lt_trichotomy (sortKeys a) (sortKeys b) with h | h | h
  · rw [hlt.mpr h]
    rcases hba : naturalCompare b a with _ | _ | _
    · exact absurd (hlt'.mp hba) h.asymm
    · exact absurd (heq'.mp hba) h.ne'
    · rfl
  · rw [heq.mpr h, heq'.mpr h.symm]
    rfl
  · rw [hlt'.mpr h]
    rcases hab : naturalCompare a b with _ | _ | _
    · exact absurd (hlt.mp hab) h.asymm
    · exact absurd (heq.mp hab) h.ne'
    · rfl

/-- Leaving the leading zeros out does not touch what is behind them. -/
theorem dropWhile_significant (r : Bytes) :
    (significant r).dropWhile (· == 48) = r.dropWhile (· == 48) := by
  rw [significant]
  rcases h : r.dropWhile (· == 48) with _ | ⟨c, s⟩
  · exact List.dropWhile_eq_nil_iff.mpr fun d hd ↦ List.dropWhile_eq_nil_iff.mp h d (List.mem_of_mem_drop hd)
  · dsimp only
    rw [← h, List.dropWhile_idempotent]

/-- A run is determined by its value and its length. -/
theorem significant_inj {r s : Bytes} (hsig : significant r = significant s) (hlen : r.length = s.length) :
    r = s := by
  have hdrop : r.dropWhile (· == 48) = s.dropWhile (· == 48) := by
    rw [← dropWhile_significant r, hsig, dropWhile_significant]
  -- What is before it is zeros.
  have hzeros (t : Bytes) : t.takeWhile (· == 48) = List.replicate (t.takeWhile (· == 48)).length 48 :=
    List.eq_replicate_iff.mpr ⟨rfl, fun c hc ↦
      beq_iff_eq.mp (List.mem_takeWhile_imp (p := fun c : UInt8 ↦ c == 48) hc)⟩
  have hsum (t : Bytes) : (t.takeWhile (· == 48)).length + (t.dropWhile (· == 48)).length = t.length := by
    rw [← List.length_append, List.takeWhile_append_dropWhile]
  have htake : (r.takeWhile (· == 48)).length = (s.takeWhile (· == 48)).length := by
    have hr := hsum r
    have hs := hsum s
    rw [hdrop] at hr
    omega
  calc r = r.takeWhile (· == 48) ++ r.dropWhile (· == 48) := List.takeWhile_append_dropWhile.symm
    _ = s.takeWhile (· == 48) ++ s.dropWhile (· == 48) := by rw [hzeros r, htake, ← hzeros s, hdrop]
    _ = s := List.takeWhile_append_dropWhile

theorem isDigit_eq_of_lower {c d : UInt8} (h : AsciiFold.lower c = AsciiFold.lower d) :
    isDigit c = isDigit d := by
  rw [Bool.eq_iff_iff, isDigit_iff_lower, isDigit_iff_lower, h]

theorem lower_of_isDigit {c : UInt8} (h : isDigit c = true) : AsciiFold.lower c = c := by
  rw [isDigit, Bool.and_eq_true, decide_eq_true_iff, decide_eq_true_iff] at h
  rw [AsciiFold.lower, if_neg]
  rintro ⟨h', -⟩
  exact absurd (UInt8.le_trans h' h.2) (by decide)

/-- Folding keeps the runs of digits. -/
theorem fold_eq_iff_run {a b : Bytes} : AsciiFold.fold a = AsciiFold.fold b ↔
    a.takeWhile isDigit = b.takeWhile isDigit ∧
      AsciiFold.fold (a.dropWhile isDigit) = AsciiFold.fold (b.dropWhile isDigit) := by
  constructor
  · intro h
    induction a generalizing b with
    | nil =>
      obtain rfl := AsciiFold.fold_eq_nil_iff.mp h.symm
      exact ⟨rfl, rfl⟩
    | cons c a ih =>
      rcases b with _ | ⟨d, b⟩
      · exact absurd h (List.cons_ne_nil _ _)
      · obtain ⟨hcd, hrest⟩ := List.cons.inj h
        have hdigit := isDigit_eq_of_lower hcd
        rw [List.takeWhile_cons, List.takeWhile_cons, List.dropWhile_cons, List.dropWhile_cons, ← hdigit]
        rcases hc : isDigit c with _ | _
        · exact ⟨rfl, h⟩
        · obtain ⟨htake, hdrop⟩ := ih hrest
          have hsame : c = d := by
            rw [← lower_of_isDigit hc, hcd, lower_of_isDigit (hdigit ▸ hc)]
          exact ⟨by simp [hsame, htake], hdrop⟩
  · rintro ⟨htake, hdrop⟩
    rw [← List.takeWhile_append_dropWhile (p := isDigit) (l := a), AsciiFold.fold_append, htake, hdrop,
      ← AsciiFold.fold_append, List.takeWhile_append_dropWhile]

theorem sortKeysFrom_eq_nil_iff {n : ℕ} {a : Bytes} (ha : a.length ≤ n) : sortKeysFrom n a = [] ↔ a = [] := by
  rcases a with _ | ⟨c, a⟩
  · rw [sortKeysFrom]
    exact iff_of_true rfl rfl
  · obtain ⟨n, rfl⟩ := Nat.exists_eq_add_one_of_ne_zero (Nat.ne_of_gt ((Nat.zero_lt_succ _).trans_le ha))
    rw [sortKeysFrom]
    split_ifs
    · exact iff_of_false (by exact nofun) (by exact nofun)
    · exact iff_of_false (by exact nofun) (by exact nofun)

/-- **Equal keys** are those of names that are equal up to case. -/
theorem sortKeysFrom_eq_iff {n m : ℕ} {a b : Bytes} (ha : a.length ≤ n) (hb : b.length ≤ m) :
    sortKeysFrom n a = sortKeysFrom m b ↔ AsciiFold.fold a = AsciiFold.fold b := by
  have hnil {n m : ℕ} {b : Bytes} (hb : b.length ≤ m) :
      sortKeysFrom n [] = sortKeysFrom m b ↔ AsciiFold.fold [] = AsciiFold.fold b := by
    rw [sortKeysFrom, AsciiFold.fold_nil, eq_comm, sortKeysFrom_eq_nil_iff hb, eq_comm (a := []),
      AsciiFold.fold_eq_nil_iff]
  induction n generalizing a b m with
  | zero =>
    obtain rfl := List.eq_nil_of_length_eq_zero (Nat.le_zero.mp ha)
    exact hnil hb
  | succ n ih =>
    rcases a with _ | ⟨c, a⟩
    · exact hnil hb
    rcases b with _ | ⟨d, b⟩
    · rw [sortKeysFrom, sortKeysFrom_eq_nil_iff ha, AsciiFold.fold_nil, AsciiFold.fold_eq_nil_iff]
    obtain ⟨m, rfl⟩ := Nat.exists_eq_add_one_of_ne_zero (Nat.ne_of_gt ((Nat.zero_lt_succ _).trans_le hb))
    have ha := Nat.le_of_succ_le_succ ha
    have hb := Nat.le_of_succ_le_succ hb
    rw [sortKeysFrom, sortKeysFrom]
    rcases hc : isDigit c with _ | _
    · rcases hd : isDigit d with _ | _
      · rw [if_neg Bool.false_ne_true, if_neg Bool.false_ne_true, List.cons.injEq, charKey_eq_iff, propext (ih ha hb),
          AsciiFold.fold_cons, AsciiFold.fold_cons, List.cons.injEq]
      · rw [if_neg Bool.false_ne_true, if_pos rfl]
        refine iff_of_false (fun h ↦ runKey_ne_charKey _ hc (List.cons.inj h).1.symm) fun h ↦ ?_
        rw [isDigit_eq_of_lower (List.cons.inj h).1, hd] at hc
        exact Bool.false_ne_true hc.symm
    · rcases hd : isDigit d with _ | _
      · rw [if_pos rfl, if_neg Bool.false_ne_true]
        refine iff_of_false (fun h ↦ runKey_ne_charKey _ hd (List.cons.inj h).1) fun h ↦ ?_
        rw [isDigit_eq_of_lower (List.cons.inj h).1, hd] at hc
        exact Bool.false_ne_true hc
      · rw [if_pos rfl, if_pos rfl, List.cons.injEq, propext (ih (length_dropWhile_le ha) (length_dropWhile_le hb)),
          runKey_eq_iff, fold_eq_iff_run (a := c :: a), List.dropWhile_cons_of_pos hc, List.dropWhile_cons_of_pos hd]
        refine and_congr_left' ⟨fun h ↦ significant_inj h.1 h.2, fun h ↦ ?_⟩
        rw [h]
        exact ⟨rfl, rfl⟩

theorem naturalCompare_eq_iff_fold (a b : Bytes) :
    naturalCompare a b = .eq ↔ AsciiFold.fold a = AsciiFold.fold b :=
  (naturalCompare_eq_iff a b).trans (sortKeysFrom_eq_iff le_rfl le_rfl)

/-- A name is not after another one. -/
def naturalLe (a b : Bytes) : Bool := naturalCompare b a != .lt

theorem naturalLe_iff (a b : Bytes) : naturalLe a b = true ↔ sortKeys a ≤ sortKeys b := by
  rw [naturalLe, bne_iff_ne, Ne, naturalCompare_lt_iff, not_lt]

theorem naturalLe_trans {a b c : Bytes} (hab : naturalLe a b = true) (hbc : naturalLe b c = true) :
    naturalLe a c = true :=
  (naturalLe_iff a c).mpr (((naturalLe_iff a b).mp hab).trans ((naturalLe_iff b c).mp hbc))

theorem naturalLe_total (a b : Bytes) : (naturalLe a b || naturalLe b a) = true := by
  rw [Bool.or_eq_true, naturalLe_iff, naturalLe_iff]
  exact le_total _ _

end ZipPlan

end SafeVault
