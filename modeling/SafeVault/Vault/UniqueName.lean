import SafeVault.Import.ArchiveNames
import SafeVault.Vault.Structure

/-!
# A free name for a moved gallery

A gallery that is copied to a place where its name is taken gets a number behind its name. The name is
cut so that the number always fits, and never within a codepoint. So the candidates differ, a free one
is found unless almost ten thousand children are there already, and it is safe if the name was.
-/

namespace SafeVault

variable {μ : Type} {name cand : Bytes} {children : List (Node μ)} {i j n k : ℕ}

/-! ## The loop -/

/-- `trim_utf8`: the longest beginning of a text that fits without splitting a codepoint. -/
def trimUtf8 (s : Bytes) (maxBytes : ℕ) : Bytes :=
  if s.length ≤ maxBytes then s else s.take (utf8Floor s maxBytes)

def childSuffix (i : ℕ) : Bytes := ascii "_" ++ ArchiveNames.decimal i

/-- What is left of a name in front of a number. -/
def keptName (name : Bytes) (i : ℕ) : Bytes :=
  trimUtf8 name (maxNodeNameBytes - (childSuffix i).length)

def childCandidate (name : Bytes) (i : ℕ) : Bytes := keptName name i ++ childSuffix i

/-- The loop of `unique_child_name`, from a number on and for some more turns. -/
def uniqueChildFrom (children : List (Node μ)) (name : Bytes) : ℕ → ℕ → Option Bytes
  | 0, _ => none
  | turns + 1, i =>
    if children.any (·.named (childCandidate name i)) then uniqueChildFrom children name turns (i + 1)
    else some (childCandidate name i)

/-- The children of the gallery at a path, in some order; none without such a gallery. -/
def childrenAt (root : Node μ) (galleryPath : Bytes) : List (Node μ) :=
  match (resolveGallery root galleryPath).bind root.get? with
  | some g => g.children
  | none => []

/-- `unique_child_name`: the numbers are those from 2 to 9999. -/
def uniqueChildName (dst : Node μ) (dstParent name : Bytes) : Option Bytes :=
  uniqueChildFrom (childrenAt dst dstParent) name 9998 2

/-- What the loop returns is a free candidate. -/
theorem uniqueChildFrom_eq_some (h : uniqueChildFrom children name k i = some cand) :
    (∃ j, i ≤ j ∧ j < i + k ∧ cand = childCandidate name j) ∧
      children.any (·.named cand) = false := by
  induction k generalizing i with
  | zero => cases h
  | succ k ih =>
    rw [uniqueChildFrom] at h
    split_ifs at h with htaken
    · obtain ⟨⟨j, hle, hlt, hj⟩, hfree⟩ := ih h
      exact ⟨⟨j, by omega, by omega, hj⟩, hfree⟩
    · obtain rfl := Option.some_inj.mp h
      exact ⟨⟨i, le_rfl, by omega, rfl⟩, Bool.eq_false_iff.mpr htaken⟩

/-- If the loop returns nothing, every candidate is taken. -/
theorem uniqueChildFrom_eq_none (h : uniqueChildFrom children name k i = none) :
    ∀ j < k, childCandidate name (i + j) ∈ children.map (·.label.name) := by
  induction k generalizing i with
  | zero => exact fun j hj ↦ absurd hj (Nat.not_lt_zero j)
  | succ k ih =>
    rw [uniqueChildFrom] at h
    split_ifs at h with htaken
    rintro (_ | j) hj
    · obtain ⟨c, hc, hname⟩ := List.any_eq_true.mp htaken
      exact List.mem_map.mpr ⟨c, hc, beq_iff_eq.mp hname⟩
    · rw [← Nat.add_assoc, Nat.add_right_comm]
      exact ih h j (Nat.lt_of_succ_lt_succ hj)

/-! ## The candidates -/

/-- The number is what follows the last underscore. -/
theorem childCandidate_inj (h : childCandidate name i = childCandidate name j) : i = j := by
  have hdigits (n : ℕ) : ∀ c ∈ (ArchiveNames.decimal n).reverse, (c != 95) = true := by
    intro c hc
    obtain ⟨d, hd, rfl⟩ := ArchiveNames.mem_decimal (List.mem_reverse.mp hc)
    interval_cases d <;> decide
  have hnumber (n : ℕ) : (childCandidate name n).reverse.takeWhile (· != 95) =
      (ArchiveNames.decimal n).reverse := by
    rw [childCandidate, childSuffix, List.reverse_append, List.reverse_append, List.append_assoc,
      List.takeWhile_append_of_pos (hdigits n)]
    exact List.append_nil _
  refine ArchiveNames.decimal_injective (List.reverse_injective ?_)
  rw [← hnumber i, ← hnumber j, h]

theorem length_trimUtf8_le (s : Bytes) (m : ℕ) : (trimUtf8 s m).length ≤ m := by
  rw [trimUtf8]
  split_ifs with hfits
  · exact hfits
  · rw [List.length_take]
    exact (min_le_left _ _).trans (utf8Floor_le s m)

theorem length_childSuffix_le (hn : n < 10000) : (childSuffix n).length ≤ 5 := by
  rw [childSuffix, List.length_append, ArchiveNames.decimal, List.length_map, List.length_reverse]
  have := (Nat.digits_length_le_iff (b := 10) (k := 4) (by norm_num) n).mpr hn
  exact Nat.add_le_add_left this 1

theorem length_childCandidate_le (hn : n < 10000) :
    (childCandidate name n).length ≤ maxNodeNameBytes := by
  have hkept := length_trimUtf8_le name (maxNodeNameBytes - (childSuffix n).length)
  have hsuffix := length_childSuffix_le hn
  rw [childCandidate, keptName, List.length_append]
  rw [maxNodeNameBytes] at hkept ⊢
  omega

theorem childCandidate_eq_numbered (name : Bytes) (n : ℕ) :
    childCandidate name n = ArchiveNames.numbered (keptName name n) n :=
  (List.append_assoc ..).symm

/-- What is kept of the name is a beginning of it. -/
theorem keptName_isPrefix (name : Bytes) (n : ℕ) : keptName name n <+: name := by
  rw [keptName, trimUtf8]
  split_ifs
  · exact List.prefix_rfl
  · exact List.take_prefix _ _

theorem clean_of_isPrefix {s t : Bytes} (h : s <+: t) (ht : Clean t) : Clean s :=
  fun c hc ↦ ht c (h.subset hc)

/-- **A candidate is safe** exactly if the kept part of the name has no forbidden byte, and is no
device name with an extension. -/
theorem isSafeNodeName_childCandidate_iff (hn : n ≠ 0) (hlt : n < 10000) :
    isSafeNodeName (childCandidate name n) = true ↔
      Clean (keptName name n) ∧ (isReservedDevice (keptName name n) = true → 46 ∉ keptName name n) := by
  constructor
  · intro h
    have hpre : keptName name n <+: childCandidate name n := List.prefix_append _ _
    refine ⟨clean_of_isPrefix hpre (repaired_of_isSafeNodeName h).clean, fun hdevice hdot ↦ ?_⟩
    rw [isReservedDevice_eq_of_prefix_eq hpre hdot, isReservedDevice_of_isSafeNodeName h] at hdevice
    exact Bool.false_ne_true hdevice
  · rintro ⟨hclean, hdot⟩
    have hlen := @length_childCandidate_le name n hlt
    rw [childCandidate_eq_numbered] at hlen ⊢
    exact (ArchiveNames.isSafeNodeName_numbered_iff hclean hn hdot).mpr hlen

/-- **A safe name** has safe candidates. -/
theorem isSafeNodeName_childCandidate (h : isSafeNodeName name = true) (hn : n ≠ 0) (hlt : n < 10000) :
    isSafeNodeName (childCandidate name n) = true := by
  have hpre := keptName_isPrefix name n
  refine (isSafeNodeName_childCandidate_iff hn hlt).mpr
    ⟨clean_of_isPrefix hpre (repaired_of_isSafeNodeName h).clean, fun hdevice hdot ↦ ?_⟩
  rw [isReservedDevice_eq_of_prefix_eq hpre hdot, isReservedDevice_of_isSafeNodeName h] at hdevice
  exact Bool.false_ne_true hdevice

/-! ## The name found -/

/-- **A free name.** The loop ends after at most 9998 turns. What it returns fits, no child has it,
and it is safe if the name was; exactly if what is kept of the name has no forbidden byte and is no
device name with an extension. Without a result, 9998 children have the candidates as names. -/
theorem uniqueChildName_spec (dst : Node μ) (dstParent name : Bytes) :
    (∀ cand, uniqueChildName dst dstParent name = some cand →
      cand.length ≤ maxNodeNameBytes ∧
      (∀ c ∈ childrenAt dst dstParent, c.label.name ≠ cand) ∧
      (isSafeNodeName name = true → isSafeNodeName cand = true) ∧
      ∃ i, 2 ≤ i ∧ i ≤ 9999 ∧ cand = childCandidate name i ∧
        (isSafeNodeName cand = true ↔ Clean (keptName name i) ∧
          (isReservedDevice (keptName name i) = true → 46 ∉ keptName name i))) ∧
    (uniqueChildName dst dstParent name = none → 9998 ≤ (childrenAt dst dstParent).length) := by
  constructor
  · intro cand h
    obtain ⟨⟨i, hle, hlt, rfl⟩, hfree⟩ := uniqueChildFrom_eq_some h
    have hn : i ≠ 0 := by omega
    refine ⟨length_childCandidate_le hlt, fun c hc heq ↦ ?_,
      fun hsafe ↦ isSafeNodeName_childCandidate hsafe hn hlt,
      i, hle, by omega, rfl, isSafeNodeName_childCandidate_iff hn hlt⟩
    have htaken : (childrenAt dst dstParent).any (·.named (childCandidate name i)) = true :=
      List.any_eq_true.mpr ⟨c, hc, beq_iff_eq.mpr heq⟩
    exact Bool.false_ne_true (hfree.symm.trans htaken)
  · intro h
    rw [← List.length_map (f := fun c : Node μ ↦ c.label.name)]
    exact Fresh.card_le_of_forall_mem (fun _ _ _ _ heq ↦ Nat.add_left_cancel (childCandidate_inj heq))
      (uniqueChildFrom_eq_none h)

/-- A gallery with galleries of some names. -/
def galleryOf (names : List Bytes) : Node Unit :=
  .branch { name := [] } (names.map LeafTree.gallery)

theorem uniqueChildName_third :
    uniqueChildName (galleryOf [ascii "art", ascii "art_2"]) [] (ascii "art") = some (ascii "art_3") ∧
      isSafeNodeName (ascii "art_3") = true := by
  have hname : uniqueChildName (galleryOf [ascii "art", ascii "art_2"]) [] (ascii "art") =
      some (ascii "art_3") := by decide +kernel
  exact ⟨hname, ((uniqueChildName_spec _ _ _).1 _ hname).2.2.1 (by decide +kernel)⟩

/-- The names of a vault from elsewhere need not be safe. -/
theorem uniqueChildName_unsafe :
    uniqueChildName (galleryOf [ascii "a:b"]) [] (ascii "a:b") = some (ascii "a:b_2") ∧
      isSafeNodeName (ascii "a:b_2") = false := by
  decide +kernel

end SafeVault
