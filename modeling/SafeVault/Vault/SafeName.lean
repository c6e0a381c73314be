import SafeVault.Index.Node
import Mathlib.Data.List.TakeWhile

/-!
# Names a node may have

A node's name becomes a file name on export, on any platform. The vault therefore refuses names that
some platform would split, rewrite or resolve to a device: separators and the other bytes forbidden
in file names, the directory names `.` and `..`, a trailing dot or space, and the reserved device
names with any extension.
-/

namespace SafeVault

def maxNodeNameBytes : ℕ := 255

/-- The path separator `/`. -/
def slash : UInt8 := 47

/-- Bytes that can never appear in a node name: control bytes, both separators and `<>:"|?*`. -/
def isForbiddenByte (c : UInt8) : Bool :=
  c < 0x20 || c == 0x7F || c == slash || c == 92 || c == 60 || c == 62 || c == 58 || c == 34 ||
    c == 124 || c == 63 || c == 42

/-- Whether the part before the first dot is a device name, up to case. -/
def isReservedDevice (name : Bytes) : Bool :=
  let s := AsciiFold.fold (name.takeWhile (· != 46))
  s == ascii "con" || s == ascii "prn" || s == ascii "aux" || s == ascii "nul" ||
    (s.length == 4 && (s.take 3 == ascii "com" || s.take 3 == ascii "lpt") &&
      (s.drop 3).all fun d ↦ 49 ≤ d && d ≤ 57)

def isSafeNodeName (name : Bytes) : Bool :=
  if name.isEmpty || decide (maxNodeNameBytes < name.length) then false
  else if name == ascii "." || name == ascii ".." then false
  else if name.getLast? == some 46 || name.getLast? == some 32 then false
  else if name.any isForbiddenByte then false
  else !isReservedDevice name

theorem isSafeNodeName_ne_nil {name : Bytes} (h : isSafeNodeName name = true) : name ≠ [] := by
  rintro rfl
  exact absurd h (by decide)

theorem length_le_of_isSafeNodeName {name : Bytes} (h : isSafeNodeName name = true) :
    name.length ≤ maxNodeNameBytes := by
  by_contra hlong
  rw [isSafeNodeName, if_pos] at h
  · exact Bool.false_ne_true h
  · rw [Bool.or_eq_true, decide_eq_true_eq]
    exact Or.inr (not_le.mp hlong)

/-- A safe name is one path segment. -/
theorem slash_not_mem_of_isSafeNodeName {name : Bytes} (h : isSafeNodeName name = true) :
    slash ∉ name := by
  intro hmem
  have hany : name.any isForbiddenByte = true := List.any_eq_true.mpr ⟨slash, hmem, by decide⟩
  rw [isSafeNodeName] at h
  split_ifs at h

/-! ## Repairing a name -/

/-- A byte that continues a UTF-8 codepoint. -/
def isUtf8Continuation (c : UInt8) : Bool := c &&& 0xC0 == 0x80

/-- Go back from a length to the start of the codepoint it is in. -/
def utf8Floor (s : Bytes) : ℕ → ℕ
  | 0 => 0
  | n + 1 => if isUtf8Continuation (s.getD (n + 1) 0) then utf8Floor s n else n + 1

/-- `strip_trailing_dots_and_spaces`. -/
def stripTrailing (s : Bytes) : Bytes :=
  (s.reverse.dropWhile fun c ↦ c == 46 || c == 32).reverse

/-- The bytes of a name as far as they can stay, without what some platform would strip. -/
def disarm (name : Bytes) : Bytes :=
  (stripTrailing (name.map fun c ↦ if isForbiddenByte c then 95 else c)).dropWhile (· == 32)

/-- Cut a name to the largest length. -/
def fitName (name : Bytes) : Bytes :=
  if maxNodeNameBytes < name.length then stripTrailing (name.take (utf8Floor name maxNodeNameBytes))
  else name

/-- `sanitize_node_name`. -/
def sanitizeNodeName (name : Bytes) : Bytes :=
  let out := disarm name
  let out := if isReservedDevice out then 95 :: out else out
  let out := fitName out
  if out.isEmpty then ascii "unnamed" else out

/-- The bytes of a name that may stay, up to a trailing dot or space. -/
def Clean (name : Bytes) : Prop := ∀ c ∈ name, isForbiddenByte c = false

theorem clean_disarm (name : Bytes) : Clean (disarm name) := by
  intro c hc
  have hstrip := (List.dropWhile_sublist _).subset hc
  rw [stripTrailing, List.mem_reverse] at hstrip
  have hmap := List.mem_reverse.mp ((List.dropWhile_sublist _).subset hstrip)
  obtain ⟨d, -, rfl⟩ := List.mem_map.mp hmap
  split_ifs with hforbidden
  · decide
  · exact Bool.not_eq_true _ ▸ hforbidden

theorem utf8Floor_le (s : Bytes) (n : ℕ) : utf8Floor s n ≤ n := by
  induction n with
  | zero => exact le_rfl
  | succ n ih =>
    rw [utf8Floor]
    split_ifs
    · exact ih.trans (Nat.le_succ n)
    · exact le_rfl

/-- Nothing before a byte that stays is stripped. -/
theorem stripTrailing_append_cons (a s : Bytes) {c : UInt8} (hc : c ≠ 46 ∧ c ≠ 32) :
    stripTrailing (a ++ c :: s) = a ++ c :: stripTrailing s := by
  have hkeep : (c == 46 || c == 32) = false := by simp [hc.1, hc.2]
  rw [stripTrailing, List.reverse_append, List.reverse_cons, List.append_assoc,
    List.dropWhile_append, List.singleton_append, List.dropWhile_cons_of_neg (by simp [hkeep])]
  split_ifs with hempty
  · rw [stripTrailing, List.isEmpty_iff.mp hempty, List.reverse_cons, List.reverse_reverse,
      List.reverse_nil]
  · rw [List.reverse_append, List.reverse_cons, List.reverse_reverse, List.append_assoc,
      List.singleton_append, stripTrailing]

/-- The cut is not before the start of a codepoint in reach. -/
theorem le_utf8Floor {s : Bytes} {i n : ℕ} (hi : i ≤ n)
    (hstart : isUtf8Continuation (s.getD i 0) = false) : i ≤ utf8Floor s n := by
  induction n with
  | zero => exact hi
  | succ n ih =>
    rw [utf8Floor]
    split_ifs with hcont
    · refine ih (Nat.le_of_lt_succ (lt_of_le_of_ne hi ?_))
      rintro rfl
      exact Bool.false_ne_true (hstart.symm.trans hcont)
    · exact hi

/-- No trailing dot and no trailing space. -/
def Trimmed (name : Bytes) : Prop := name.getLast? ≠ some 46 ∧ name.getLast? ≠ some 32

theorem trimmed_stripTrailing (s : Bytes) : Trimmed (stripTrailing s) := by
  have hhead (c : UInt8) (hc : (stripTrailing s).getLast? = some c) : ¬(c = 46 ∨ c = 32) := by
    rw [stripTrailing, List.getLast?_reverse] at hc
    have hnot := List.head?_dropWhile_not (fun c ↦ c == 46 || c == 32) s.reverse
    rw [hc] at hnot
    simpa using hnot
  exact ⟨fun h ↦ hhead 46 h (.inl rfl), fun h ↦ hhead 32 h (.inr rfl)⟩

theorem trimmed_disarm (name : Bytes) : Trimmed (disarm name) := by
  have htrim := trimmed_stripTrailing (name.map fun c ↦ if isForbiddenByte c then 95 else c)
  obtain ⟨front, hfront⟩ := List.dropWhile_suffix (l := stripTrailing
    (name.map fun c ↦ if isForbiddenByte c then 95 else c)) (· == (32 : UInt8))
  rw [disarm]
  generalize List.dropWhile (· == (32 : UInt8)) _ = rest at *
  rcases List.eq_nil_or_concat rest with rfl | ⟨r, c, rfl⟩
  · exact ⟨nofun, nofun⟩
  · rw [← hfront] at htrim
    simpa [Trimmed, List.getLast?_append] using htrim

theorem clean_fitName {name : Bytes} (h : Clean name) : Clean (fitName name) := by
  rw [fitName]
  split_ifs
  · intro c hc
    rw [stripTrailing, List.mem_reverse] at hc
    exact h c (List.mem_of_mem_take (List.mem_reverse.mp ((List.dropWhile_sublist _).subset hc)))
  · exact h

theorem trimmed_fitName {name : Bytes} (h : Trimmed name) : Trimmed (fitName name) := by
  rw [fitName]
  split_ifs
  · exact trimmed_stripTrailing _
  · exact h

theorem length_fitName_le (name : Bytes) : (fitName name).length ≤ maxNodeNameBytes := by
  rw [fitName]
  split_ifs with hlong
  · rw [stripTrailing, List.length_reverse]
    refine (List.dropWhile_sublist _).length_le.trans ?_
    rw [List.length_reverse, List.length_take]
    exact (min_le_left _ _).trans (utf8Floor_le _ _)
  · exact not_lt.mp hlong

theorem isSafeNodeName_iff {name : Bytes} (hne : name ≠ []) (hlen : name.length ≤ maxNodeNameBytes)
    (hclean : Clean name) (htrim : Trimmed name) :
    isSafeNodeName name = true ↔ isReservedDevice name = false := by
  have hdots : ¬(name == ascii "." || name == ascii "..") = true := by
    rw [Bool.or_eq_true, beq_iff_eq, beq_iff_eq]
    rintro (rfl | rfl)
    · exact htrim.1 rfl
    · exact htrim.1 rfl
  have hlast : ¬(name.getLast? == some 46 || name.getLast? == some 32) = true := by
    rw [Bool.or_eq_true, beq_iff_eq, beq_iff_eq]
    exact fun h ↦ h.elim htrim.1 htrim.2
  have hany : ¬name.any isForbiddenByte = true := by
    rw [List.any_eq_true]
    rintro ⟨c, hc, hforbidden⟩
    exact Bool.false_ne_true ((hclean c hc).symm.trans hforbidden)
  have hfit : ¬(name.isEmpty || decide (maxNodeNameBytes < name.length)) = true := by
    rw [Bool.or_eq_true, List.isEmpty_iff, decide_eq_true_iff]
    exact fun h ↦ h.elim hne (not_lt.mpr hlen)
  rw [isSafeNodeName, if_neg hfit, if_neg hdots, if_neg hlast, if_neg hany, Bool.not_eq_true']

theorem trimmed_cons {c : UInt8} {name : Bytes} (hc : c ≠ 46 ∧ c ≠ 32) (h : Trimmed name) :
    Trimmed (c :: name) := by
  rcases List.eq_nil_or_concat name with rfl | ⟨front, d, rfl⟩
  · exact ⟨fun hlast ↦ hc.1 (Option.some.inj hlast), fun hlast ↦ hc.2 (Option.some.inj hlast)⟩
  · rw [Trimmed, List.concat_eq_append, List.getLast?_concat] at h
    rw [Trimmed, List.concat_eq_append, ← List.cons_append, List.getLast?_concat]
    exact h

/-- What a repaired name is like. -/
structure Repaired (name : Bytes) : Prop where
  nonempty : name ≠ []
  length : name.length ≤ maxNodeNameBytes
  clean : Clean name
  trimmed : Trimmed name

theorem repaired_sanitizeNodeName (name : Bytes) : Repaired (sanitizeNodeName name) := by
  have hclean : Clean (if isReservedDevice (disarm name) then 95 :: disarm name else disarm name) := by
    split_ifs
    · exact List.forall_mem_cons.mpr ⟨by decide, clean_disarm name⟩
    · exact clean_disarm name
  have htrim : Trimmed (if isReservedDevice (disarm name) then 95 :: disarm name else disarm name) := by
    split_ifs
    · exact trimmed_cons (by decide) (trimmed_disarm name)
    · exact trimmed_disarm name
  rw [sanitizeNodeName]
  generalize (if isReservedDevice (disarm name) then 95 :: disarm name else disarm name) = out at *
  split_ifs with hempty
  · exact ⟨by decide, by decide, by unfold Clean; decide +kernel, by unfold Trimmed; decide⟩
  · exact ⟨fun h ↦ hempty (List.isEmpty_iff.mpr h), length_fitName_le out, clean_fitName hclean,
      trimmed_fitName htrim⟩

/-- A name without forbidden bytes is one path segment. -/
theorem Clean.slash_not_mem {name : Bytes} (h : Clean name) : slash ∉ name :=
  fun hmem ↦ absurd (h slash hmem) (by decide)

/-- **A repaired name.** It is safe, unless cutting it has left the name of a device. -/
theorem isSafeNodeName_sanitizeNodeName_iff (name : Bytes) :
    isSafeNodeName (sanitizeNodeName name) = true ↔
      isReservedDevice (sanitizeNodeName name) = false := by
  obtain ⟨hne, hlen, hclean, htrim⟩ := repaired_sanitizeNodeName name
  exact isSafeNodeName_iff hne hlen hclean htrim

/-- No name of a device has an underscore. -/
theorem isReservedDevice_of_underscore {name : Bytes} (h : 95 ∈ name.takeWhile (· != 46)) :
    isReservedDevice name = false := by
  have hfold : (95 : UInt8) ∈ AsciiFold.fold (name.takeWhile (· != 46)) :=
    List.mem_map.mpr ⟨95, h, rfl⟩
  rw [isReservedDevice]
  generalize AsciiFold.fold (name.takeWhile (· != 46)) = s at hfold
  have hne (t : Bytes) (ht : (95 : UInt8) ∉ t) : (s == t) = false :=
    beq_false_of_ne fun heq ↦ ht (heq ▸ hfold)
  have hport : (s.length == 4 && (s.take 3 == ascii "com" || s.take 3 == ascii "lpt") &&
      (s.drop 3).all fun d ↦ 49 ≤ d && d ≤ 57) = false := by
    rw [Bool.eq_false_iff]
    intro hport
    simp only [Bool.and_eq_true, Bool.or_eq_true, beq_iff_eq, List.all_eq_true,
      decide_eq_true_eq] at hport
    obtain ⟨⟨-, hhead⟩, htail⟩ := hport
    rw [← List.take_append_drop 3 s, List.mem_append] at hfold
    rcases hfold with hmem | hmem
    · rcases hhead with heq | heq
      all_goals
        rw [heq] at hmem
        exact absurd hmem (by decide)
    · exact absurd (htail 95 hmem).2 (by decide)
  simp only [hport, hne _ (show (95 : UInt8) ∉ ascii "con" by decide),
    hne _ (show (95 : UInt8) ∉ ascii "prn" by decide),
    hne _ (show (95 : UInt8) ∉ ascii "aux" by decide),
    hne _ (show (95 : UInt8) ∉ ascii "nul" by decide), Bool.or_self]

/-- What decides is the part before the first dot. -/
theorem isReservedDevice_eq_of_prefix_eq {s t : Bytes} (h : s <+: t) (hdot : 46 ∈ s) :
    isReservedDevice s = isReservedDevice t := by
  obtain ⟨rest, rfl⟩ := h
  have hsame : (s ++ rest).takeWhile (· != 46) = s.takeWhile (· != 46) := by
    rw [List.takeWhile_append, if_neg]
    intro hlen
    have hall := List.takeWhile_eq_self_iff.mp ((List.takeWhile_sublist _).eq_of_length hlen)
    exact absurd (hall 46 hdot) (by decide)
  rw [isReservedDevice, isReservedDevice, hsame]

theorem fitName_isPrefix (name : Bytes) : fitName name <+: name := by
  rw [fitName]
  split_ifs
  · refine List.IsPrefix.trans ?_ (List.take_prefix (utf8Floor name maxNodeNameBytes) name)
    rw [stripTrailing, ← List.reverse_suffix, List.reverse_reverse]
    exact List.dropWhile_suffix _
  · exact List.prefix_rfl

/-- Only a cut leaves the name of a device, and then without an extension. -/
theorem dot_not_mem_sanitizeNodeName {name : Bytes}
    (h : isReservedDevice (sanitizeNodeName name) = true) : 46 ∉ sanitizeNodeName name := by
  intro hdot
  have hout : isReservedDevice
      (if isReservedDevice (disarm name) then 95 :: disarm name else disarm name) = false := by
    split_ifs with hreserved
    · exact isReservedDevice_of_underscore (List.mem_cons_self ..)
    · exact Bool.eq_false_iff.mpr hreserved
  rw [sanitizeNodeName] at h hdot
  generalize (if isReservedDevice (disarm name) then 95 :: disarm name else disarm name) = out at *
  split_ifs at h hdot with hempty
  · exact absurd hdot (by decide)
  · rw [isReservedDevice_eq_of_prefix_eq (fitName_isPrefix out) hdot, hout] at h
    exact Bool.false_ne_true h

/-- Bytes that repairing leaves as they are, wherever they stand. -/
def Plain (s : Bytes) : Prop := ∀ c ∈ s, isForbiddenByte c = false ∧ c ≠ 46 ∧ c ≠ 32

theorem disarm_plain {d : Bytes} (hd : Plain d) (x : Bytes) :
    ∃ y, disarm (d ++ 95 :: x) = d ++ 95 :: y := by
  have hmap : (d ++ 95 :: x).map (fun c ↦ if isForbiddenByte c then 95 else c) =
      d ++ 95 :: x.map fun c ↦ if isForbiddenByte c then 95 else c := by
    rw [List.map_append, List.map_cons]
    refine congrArg₂ _ ((List.map_congr_left fun c hc ↦ ?_).trans (List.map_id d)) rfl
    rw [(hd c hc).1]
    rfl
  refine ⟨stripTrailing (x.map fun c ↦ if isForbiddenByte c then 95 else c), ?_⟩
  rw [disarm, hmap, stripTrailing_append_cons _ _ (by decide)]
  rcases d with _ | ⟨c, d⟩
  · rfl
  · rw [List.cons_append, List.dropWhile_cons_of_neg]
    simpa using (hd c List.mem_cons_self).2.2

/-- **What stands before an underscore** survives a repair, up to the largest length. -/
theorem sanitizeNodeName_plain {d : Bytes} (hd : Plain d) (hne : d ≠ [])
    (hlen : d.length ≤ maxNodeNameBytes) (x : Bytes) :
    sanitizeNodeName (d ++ 95 :: x) = d ∨ ∃ y, sanitizeNodeName (d ++ 95 :: x) = d ++ 95 :: y := by
  obtain ⟨y, hy⟩ := disarm_plain hd x
  have hdevice : isReservedDevice (d ++ 95 :: y) = false := by
    refine isReservedDevice_of_underscore ?_
    rw [List.takeWhile_append_of_pos fun c hc ↦ bne_iff_ne.mpr (hd c hc).2.1]
    exact List.mem_append_right _ List.mem_cons_self
  have hfit : fitName (d ++ 95 :: y) = d ∨ ∃ z, fitName (d ++ 95 :: y) = d ++ 95 :: z := by
    rw [fitName]
    split_ifs
    · have hget : isUtf8Continuation ((d ++ 95 :: y).getD d.length 0) = false := by
        rw [List.getD_eq_getElem?_getD, List.getElem?_append_right le_rfl, Nat.sub_self]
        exact (by decide : isUtf8Continuation 95 = false)
      obtain ⟨k, hk⟩ := Nat.exists_eq_add_of_le (le_utf8Floor hlen hget)
      rw [hk, List.take_length_add_append]
      rcases k with _ | k
      · left
        obtain ⟨front, c, rfl⟩ := (List.eq_nil_or_concat d).resolve_left hne
        rw [List.concat_eq_append] at hd ⊢
        have hc := (hd c (List.mem_append_right _ List.mem_cons_self)).2
        rw [List.take_zero, List.append_nil, stripTrailing_append_cons _ _ hc]
        rfl
      · right
        exact ⟨_, stripTrailing_append_cons _ _ (by decide)⟩
    · exact .inr ⟨y, rfl⟩
  rw [sanitizeNodeName, hy, hdevice, if_neg Bool.false_ne_true, if_neg]
  · exact hfit
  · rw [List.isEmpty_iff]
    rcases hfit with h | ⟨z, h⟩
    · rwa [h]
    · rw [h]
      exact List.append_ne_nil_of_left_ne_nil hne _

/-! ## Names that are safe already -/

/-- A name with its device name, if it is one, made harmless; it may still be too long. -/
def escaped (name : Bytes) : Bytes :=
  if isReservedDevice (disarm name) then 95 :: disarm name else disarm name

/-- Cutting the name to the largest length leaves the name of a device. -/
def CutsToDevice (name : Bytes) : Prop :=
  maxNodeNameBytes < (escaped name).length ∧ isReservedDevice (fitName (escaped name)) = true

instance (name : Bytes) : Decidable (CutsToDevice name) := inferInstanceAs (Decidable (_ ∧ _))

theorem isReservedDevice_escaped (name : Bytes) : isReservedDevice (escaped name) = false := by
  rw [escaped]
  split_ifs with hreserved
  · exact isReservedDevice_of_underscore (List.mem_cons_self ..)
  · exact Bool.eq_false_iff.mpr hreserved

theorem length_disarm_le (name : Bytes) : (disarm name).length ≤ name.length := by
  let replaced := (name.map fun c ↦ if isForbiddenByte c then (95 : UInt8) else c).reverse
  have hstrip : (replaced.dropWhile fun c ↦ c == 46 || c == 32).length ≤ replaced.length :=
    (List.dropWhile_sublist _).length_le
  rw [List.length_reverse, List.length_map] at hstrip
  refine (List.dropWhile_sublist _).length_le.trans ?_
  rwa [stripTrailing, List.length_reverse]

/-- A name that is shorter than the largest is not cut. -/
theorem not_cutsToDevice_of_length_lt {name : Bytes} (h : name.length < maxNodeNameBytes) :
    ¬CutsToDevice name := by
  have hdisarm := length_disarm_le name
  rintro ⟨hlong, -⟩
  rw [escaped] at hlong
  split_ifs at hlong
  · rw [List.length_cons] at hlong
    omega
  · omega

/-- Only the cut can leave the name of a device. -/
theorem isReservedDevice_sanitizeNodeName {name : Bytes} (h : ¬CutsToDevice name) :
    isReservedDevice (sanitizeNodeName name) = false := by
  have hfit : isReservedDevice (fitName (escaped name)) = false := by
    by_cases hlong : maxNodeNameBytes < (escaped name).length
    · exact Bool.eq_false_iff.mpr fun hreserved ↦ h ⟨hlong, hreserved⟩
    · rw [fitName, if_neg hlong]
      exact isReservedDevice_escaped name
  change isReservedDevice (if (fitName (escaped name)).isEmpty then ascii "unnamed"
    else fitName (escaped name)) = false
  split_ifs
  · decide
  · exact hfit

theorem stripTrailing_of_trimmed {name : Bytes} (h : Trimmed name) : stripTrailing name = name := by
  rcases List.eq_nil_or_concat name with rfl | ⟨front, c, rfl⟩
  · rfl
  · rw [Trimmed, List.concat_eq_append, List.getLast?_concat] at h
    rw [List.concat_eq_append, stripTrailing_append_cons front []
      ⟨fun hc ↦ h.1 (congrArg some hc), fun hc ↦ h.2 (congrArg some hc)⟩]
    rfl

/-- Of a clean and trimmed name only leading spaces are lost. -/
theorem disarm_of_clean {name : Bytes} (hclean : Clean name) (htrim : Trimmed name) :
    disarm name = name.dropWhile (· == 32) := by
  have hmap : name.map (fun c ↦ if isForbiddenByte c then 95 else c) = name := by
    refine (List.map_congr_left fun c hc ↦ ?_).trans (List.map_id name)
    rw [hclean c hc]
    rfl
  rw [disarm, hmap, stripTrailing_of_trimmed htrim]

theorem repaired_of_isSafeNodeName {name : Bytes} (h : isSafeNodeName name = true) : Repaired name := by
  refine ⟨isSafeNodeName_ne_nil h, length_le_of_isSafeNodeName h, fun c hc ↦ ?_, ?_⟩
  all_goals
    rw [isSafeNodeName] at h
    split_ifs at h with _ _ hlast hany
  · exact Bool.eq_false_iff.mpr fun hforbidden ↦ hany (List.any_eq_true.mpr ⟨c, hc, hforbidden⟩)
  · rw [Bool.or_eq_true, beq_iff_eq, beq_iff_eq, not_or] at hlast
    exact hlast

theorem isReservedDevice_of_isSafeNodeName {name : Bytes} (h : isSafeNodeName name = true) :
    isReservedDevice name = false := by
  rw [isSafeNodeName] at h
  split_ifs at h
  exact Bool.not_eq_true' _ ▸ h

/-- **A safe name** comes back without its leading spaces, and with an underscore before it if only
these have kept it from being the name of a device. -/
theorem sanitizeNodeName_of_safe {name : Bytes} (h : isSafeNodeName name = true) :
    sanitizeNodeName name =
      if isReservedDevice (name.dropWhile (· == 32)) then 95 :: name.dropWhile (· == 32)
      else name.dropWhile (· == 32) := by
  obtain ⟨hne, hlen, hclean, htrim⟩ := repaired_of_isSafeNodeName h
  have hdisarm := disarm_of_clean hclean htrim
  have hlength := (List.dropWhile_sublist (· == (32 : UInt8)) (l := name)).length_le
  have hescaped : escaped name = if isReservedDevice (name.dropWhile (· == 32))
      then 95 :: name.dropWhile (· == 32) else name.dropWhile (· == 32) := by
    rw [escaped, hdisarm]
  -- what is a device without its leading spaces has had one, so the underscore fits
  have hfits : (escaped name).length ≤ maxNodeNameBytes := by
    rw [hescaped]
    split_ifs with hreserved
    · have hshorter : (name.dropWhile (· == 32)).length ≠ name.length := by
        intro heq
        rw [(List.dropWhile_sublist _).eq_of_length heq] at hreserved
        exact Bool.false_ne_true ((isReservedDevice_of_isSafeNodeName h).symm.trans hreserved)
      rw [List.length_cons]
      omega
    · exact hlength.trans hlen
  have hnonempty : escaped name ≠ [] := by
    rw [hescaped]
    split_ifs
    · exact List.cons_ne_nil _ _
    · intro hnil
      have hspaces := List.dropWhile_eq_nil_iff.mp hnil
      obtain ⟨front, c, rfl⟩ := (List.eq_nil_or_concat name).resolve_left hne
      rw [Trimmed, List.concat_eq_append, List.getLast?_concat] at htrim
      have hc := hspaces c (by simp)
      exact htrim.2 (congrArg some (beq_iff_eq.mp hc))
  rw [← hescaped]
  change (if (fitName (escaped name)).isEmpty then ascii "unnamed" else fitName (escaped name)) = _
  rw [fitName, if_neg (not_lt.mpr hfits), if_neg]
  rw [List.isEmpty_iff]
  exact hnonempty

/-- A repaired name has no leading space. -/
theorem head?_sanitizeNodeName (name : Bytes) : (sanitizeNodeName name).head? ≠ some 32 := by
  have hdisarm : (disarm name).head? ≠ some 32 := by
    intro hhead
    have hnot := List.head?_dropWhile_not (· == (32 : UInt8))
      (stripTrailing (name.map fun c ↦ if isForbiddenByte c then 95 else c))
    rw [disarm] at hhead
    rw [hhead] at hnot
    exact absurd hnot (by decide)
  have hescaped : (escaped name).head? ≠ some 32 := by
    rw [escaped]
    split_ifs
    · exact nofun
    · exact hdisarm
  have hfit : (fitName (escaped name)).head? ≠ some 32 := by
    have hprefix := fitName_isPrefix (escaped name)
    obtain ⟨rest, hrest⟩ := hprefix
    rcases hout : fitName (escaped name) with _ | ⟨c, out⟩
    · exact nofun
    · rw [hout] at hrest
      rw [← hrest] at hescaped
      exact hescaped
  change (if (fitName (escaped name)).isEmpty then ascii "unnamed" else fitName (escaped name)).head?
    ≠ some 32
  split_ifs
  · decide
  · exact hfit

/-- **Repairing a name** whose cut leaves no device name gives a safe name, and repairing that changes
nothing. A name that is safe already loses its leading spaces only. -/
theorem sanitizeNodeName_safe (name : Bytes) :
    (¬CutsToDevice name → isSafeNodeName (sanitizeNodeName name) = true ∧
      sanitizeNodeName (sanitizeNodeName name) = sanitizeNodeName name) ∧
    (isSafeNodeName name = true →
      (name.head? ≠ some 32 → sanitizeNodeName name = name) ∧
      sanitizeNodeName name =
        if isReservedDevice (name.dropWhile (· == 32)) then 95 :: name.dropWhile (· == 32)
        else name.dropWhile (· == 32)) := by
  have hkeep (out : Bytes) (h : isSafeNodeName out = true) (hhead : out.head? ≠ some 32) :
      sanitizeNodeName out = out := by
    have hsame : out.dropWhile (· == 32) = out := by
      rcases out with _ | ⟨c, out⟩
      · rfl
      · rw [List.dropWhile_cons_of_neg]
        rw [beq_iff_eq]
        exact fun hc ↦ hhead (congrArg some hc)
    rw [sanitizeNodeName_of_safe h, hsame, isReservedDevice_of_isSafeNodeName h,
      if_neg Bool.false_ne_true]
  constructor
  · intro hcut
    have hsafe := (isSafeNodeName_sanitizeNodeName_iff name).mpr (isReservedDevice_sanitizeNodeName hcut)
    exact ⟨hsafe, hkeep _ hsafe (head?_sanitizeNodeName name)⟩
  · exact fun h ↦ ⟨hkeep name h, sanitizeNodeName_of_safe h⟩

/-- Repairing a name gives a safe one unless the cut leaves the name of a device. -/
theorem isSafeNodeName_sanitizeNodeName_iff_not_cutsToDevice (name : Bytes) :
    isSafeNodeName (sanitizeNodeName name) = true ↔ ¬CutsToDevice name := by
  refine ⟨fun hsafe hcut ↦ ?_, fun h ↦ ((sanitizeNodeName_safe name).1 h).1⟩
  have hne : (fitName (escaped name)).isEmpty = false := by
    rcases hfit : fitName (escaped name) with _ | _
    · have hdevice := hcut.2
      rw [hfit] at hdevice
      exact absurd hdevice (by decide)
    · rfl
  have hsame : sanitizeNodeName name = fitName (escaped name) := by
    change (if (fitName (escaped name)).isEmpty then ascii "unnamed" else fitName (escaped name)) = _
    rw [hne, if_neg Bool.false_ne_true]
  rw [hsame] at hsafe
  exact Bool.false_ne_true ((isReservedDevice_of_isSafeNodeName hsafe).symm.trans hcut.2)

/-- A space in front is safe, and is not kept. -/
theorem sanitizeNodeName_leadingSpace :
    ¬ ∀ name : Bytes, isSafeNodeName (sanitizeNodeName name) = true ∧
      sanitizeNodeName (sanitizeNodeName name) = sanitizeNodeName name ∧
      (isSafeNodeName name = true → sanitizeNodeName name = name) :=
  fun h ↦ absurd ((h [32, 97]).2.2 (by decide +kernel)) (by decide +kernel)

end SafeVault
