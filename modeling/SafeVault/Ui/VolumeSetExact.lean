import SafeVault.Ui.VolumeSet

/-!
# When a volume set is exact

The set that is found for a picked file should not depend on which of its files is picked, nor on the order
of the listing; it should have one file for every ordinal, in their order, and tell which ordinals are absent.

This is so where no ordinal that is read is too large for an `int`, no two files claim one ordinal, and no
file of the set is taken for one of another set first. The last happens with the two styles of RAR:
`x.part1.rar` is a part of `x`, and it is volume one beside `x.part1.r00`.
-/

namespace SafeVault

namespace Volumes

open AsciiFold (fold)

variable {style : VolumeStyle} {name stem picked : Bytes} {siblings : List Bytes} {sort : MemberSort} {p : Parsed}

/-! ## Which set is found -/

/-- The candidates that are tried before a style. -/
def before (style : VolumeStyle) : List VolumeStyle := candidates.takeWhile (· ≠ style)

/-- There are not two files for a set of this style. -/
def Passed (style : VolumeStyle) (name : Bytes) (siblings : List Bytes) : Prop :=
  ∀ p ∈ claim style name, (claimants style p.stem siblings).length < 2

/-- The styles before this one have no set for the name. -/
def Reached (style : VolumeStyle) (name : Bytes) (siblings : List Bytes) : Prop :=
  ∀ other ∈ before style, Passed other name siblings

/-- The names that are read can be told in `int`s, under every style that is tried. -/
def NoOverflow (name : Bytes) (siblings : List Bytes) : Prop :=
  ∀ style, (claim style name).isSome = true → Reached style name siblings → Parsable style name siblings

/-- The first style with two files, and their stem. -/
structure Found (style : VolumeStyle) (stem name : Bytes) (siblings : List Bytes) : Prop where
  claimed : ∃ ordinal, claim style name = some ⟨stem, ordinal⟩
  reached : Reached style name siblings
  many : 2 ≤ (claimants style stem siblings).length

theorem detectFrom_of_found {pre post : List VolumeStyle} (hpre : ∀ other ∈ pre, Passed other name siblings)
    (hclaim : claim style name = some p) (hmany : 2 ≤ (claimants style p.stem siblings).length) :
    detectFrom int32 sort (fold name) siblings (pre ++ style :: post) =
      if (∀ other ∈ pre ++ [style], (claim other name).isSome = true → Parsable other name siblings) ∧
          Below style p.stem siblings then some (assembled sort style p.stem siblings) else none := by
  induction pre with
  | nil =>
    rw [List.nil_append, List.nil_append, detectFrom_cons, hclaim]
    dsimp only
    simp only [List.forall_mem_singleton, hclaim, Option.isSome_some, true_imp_iff]
    rw [if_neg (not_lt.mpr hmany)]
    split_ifs with hparsable hbelow hboth hboth hboth
    · rfl
    · exact absurd ⟨hparsable, hbelow⟩ hboth
    · exact absurd hboth.2 hbelow
    · rfl
    · exact absurd hboth.1 hparsable
    · rfl
  | cons other pre ih =>
    obtain ⟨hother, hrest⟩ := List.forall_mem_cons.mp hpre
    rw [List.cons_append, detectFrom_cons, ih hrest]
    simp only [List.cons_append, List.forall_mem_cons, and_assoc]
    rcases hq : claim other name with _ | q
    · simp only [Option.isSome_none, Bool.false_eq_true, false_imp_iff, true_and]
    · dsimp only
      rw [if_pos (hother q hq)]
      by_cases hparsable : Parsable other name siblings
      · simp only [hparsable, implies_true, true_and, if_true]
      · simp only [hparsable, Option.isSome_some, imp_false, not_true, false_and, if_false]

theorem detectFrom_of_passed {cands : List VolumeStyle} (h : ∀ other ∈ cands, Passed other name siblings) :
    detectFrom int32 sort (fold name) siblings cands =
      if ∀ other ∈ cands, (claim other name).isSome = true → Parsable other name siblings then some {} else none := by
  induction cands with
  | nil => exact (if_pos fun other hother ↦ absurd hother List.not_mem_nil).symm
  | cons other cands ih =>
    obtain ⟨hother, hrest⟩ := List.forall_mem_cons.mp h
    rw [detectFrom_cons, ih hrest]
    simp only [List.forall_mem_cons]
    rcases hq : claim other name with _ | q
    · simp only [Option.isSome_none, Bool.false_eq_true, false_imp_iff, true_and]
    · dsimp only
      rw [if_pos (hother q hq)]
      by_cases hparsable : Parsable other name siblings
      · simp only [hparsable, implies_true, true_and, if_true]
      · simp only [hparsable, Option.isSome_some, imp_false, not_true, false_and, if_false]

theorem mem_candidates (h : (claim style name).isSome = true) : style ∈ candidates := by
  rcases style with _ | _ | _ | _ | _
  · exact absurd h Bool.false_ne_true
  all_goals decide

theorem before_split (h : style ∈ candidates) : ∃ post, candidates = before style ++ style :: post := by
  rcases style with _ | _ | _ | _ | _
  · exact absurd h (by decide)
  all_goals exact ⟨_, rfl⟩

theorem before_trans {other first : VolumeStyle} (hother : other ∈ before style) (hfirst : first ∈ before other) :
    first ∈ before style := by
  revert hother hfirst
  rcases style with _ | _ | _ | _ | _ <;> rcases other with _ | _ | _ | _ | _ <;>
    rcases first with _ | _ | _ | _ | _ <;> decide

theorem mem_before {other : VolumeStyle} (hstyle : style ∈ candidates) (hother : other ∈ candidates)
    (hne : other ≠ style) : other ∈ before style ∨ style ∈ before other := by
  revert hstyle hother hne
  rcases style with _ | _ | _ | _ | _ <;> rcases other with _ | _ | _ | _ | _ <;> decide

theorem Found.not_passed (h : Found style stem name siblings) : ¬Passed style name siblings := by
  intro hpassed
  obtain ⟨ordinal, hclaim⟩ := h.claimed
  exact absurd (hpassed _ hclaim) (not_lt.mpr h.many)

/-- **A set is found**, where the arithmetic has a value. -/
theorem detect_of_found (h : Found style stem picked siblings) {set : VolumeSet} :
    detectVolumeSet sort picked siblings = some set ↔
      (NoOverflow picked siblings ∧ Below style stem siblings) ∧ set = assembled sort style stem siblings := by
  obtain ⟨ordinal, hclaim⟩ := h.claimed
  have hmem := mem_candidates (by rw [hclaim]; rfl)
  obtain ⟨post, hsplit⟩ := before_split hmem
  have htried : (∀ other ∈ before style ++ [style], (claim other picked).isSome = true → Parsable other picked siblings) ↔
      NoOverflow picked siblings := by
    constructor
    · intro hall other hother hreached
      -- A style after the one that is found is not reached.
      refine hall other ?_ hother
      by_cases heq : other = style
      · exact List.mem_append_right _ (List.mem_singleton.mpr heq)
      · rcases mem_before hmem (mem_candidates hother) heq with hbefore | hafter
        · exact List.mem_append_left _ hbefore
        · exact absurd (hreached style hafter) h.not_passed
    · intro hall other hother hsome
      refine hall other hsome ?_
      rcases List.mem_append.mp hother with hother | hother
      · exact fun first hfirst ↦ h.reached first (before_trans hother hfirst)
      · rw [List.mem_singleton.mp hother]
        exact h.reached
  rw [detectVolumeSet, hsplit, detectFrom_of_found h.reached hclaim h.many, Option.ite_none_right_eq_some, htried,
    Option.some.injEq, eq_comm (b := set)]

/-- **No set is found.** -/
theorem detect_of_passed (h : ∀ style ∈ candidates, Passed style picked siblings) {set : VolumeSet} :
    detectVolumeSet sort picked siblings = some set ↔ NoOverflow picked siblings ∧ set = {} := by
  have htried : (∀ other ∈ candidates, (claim other picked).isSome = true → Parsable other picked siblings) ↔
      NoOverflow picked siblings := by
    constructor
    · exact fun hall other hsome _ ↦ hall other (mem_candidates hsome) hsome
    · exact fun hall other _ hsome ↦ hall other hsome fun first hfirst ↦ h first (List.takeWhile_sublist _ |>.mem hfirst)
  rw [detectVolumeSet, detectFrom_of_passed h, Option.ite_none_right_eq_some, htried, Option.some.injEq,
    eq_comm (b := set)]

theorem found_or_passed (name : Bytes) (siblings : List Bytes) :
    (∃ style stem, Found style stem name siblings) ∨ ∀ style ∈ candidates, Passed style name siblings := by
  have hfound {style : VolumeStyle} (hreached : Reached style name siblings) (h : ¬Passed style name siblings) :
      ∃ style stem, Found style stem name siblings := by
    rw [Passed] at h
    push Not at h
    obtain ⟨p, hclaim, hmany⟩ := h
    exact ⟨style, p.stem, ⟨p.ordinal, hclaim⟩, hreached, hmany⟩
  refine or_iff_not_imp_left.mpr fun hnone style hmem ↦ ?_
  -- By the order of the candidates: the ones before a style have been passed already.
  have hpart : Passed .rarPart name siblings := by
    by_contra h
    exact hnone (hfound (fun other hother ↦ absurd hother List.not_mem_nil) h)
  have hzip : Passed .spannedZip name siblings := by
    by_contra h
    refine hnone (hfound (fun other hother ↦ ?_) h)
    obtain rfl : other = .rarPart := List.mem_singleton.mp hother
    exact hpart
  have hnumeric : Passed .numericSuffix name siblings := by
    by_contra h
    refine hnone (hfound (fun other hother ↦ ?_) h)
    have hother' : other ∈ [VolumeStyle.rarPart, .spannedZip] := hother
    simp only [List.mem_cons, List.not_mem_nil, or_false] at hother'
    rcases hother' with rfl | rfl
    exacts [hpart, hzip]
  have hold : Passed .rarOld name siblings := by
    by_contra h
    refine hnone (hfound (fun other hother ↦ ?_) h)
    have hother' : other ∈ [VolumeStyle.rarPart, .spannedZip, .numericSuffix] := hother
    simp only [List.mem_cons, List.not_mem_nil, or_false] at hother'
    rcases hother' with rfl | rfl | rfl
    exacts [hpart, hzip, hnumeric]
  simp only [candidates, List.mem_cons, List.not_mem_nil, or_false] at hmem
  rcases hmem with rfl | rfl | rfl | rfl
  exacts [hpart, hzip, hnumeric, hold]

/-- There is one first style. -/
theorem Found.unique {style' : VolumeStyle} {stem' : Bytes} (h : Found style stem name siblings)
    (h' : Found style' stem' name siblings) : style = style' ∧ stem = stem' := by
  obtain ⟨ordinal, hclaim⟩ := h.claimed
  obtain ⟨ordinal', hclaim'⟩ := h'.claimed
  have hstyle : style = style' := by
    by_contra hne
    rcases mem_before (mem_candidates (by rw [hclaim']; rfl)) (mem_candidates (by rw [hclaim]; rfl)) hne with hb | hb
    · exact h.not_passed (h'.reached style hb)
    · exact h'.not_passed (h.reached style' hb)
  subst hstyle
  exact ⟨rfl, (Parsed.mk.inj (Option.some.inj (hclaim.symm.trans hclaim'))).1⟩

/-! ## Sets that are exact -/

/-- The ordinals that the names of the volumes claim. -/
def VolumeSet.claimed (set : VolumeSet) : List ℤ :=
  set.volumes.map fun n ↦ ((claim set.style n).map (·.ordinal)).getD 0

/-- The ordinals of the volumes; that of a `.zip` is the one after all others. -/
def VolumeSet.ordinals (set : VolumeSet) : List ℤ :=
  set.claimed.map fun o ↦ if o = spannedZipLast then set.claimed.foldl max 0 + 1 else o

/-- The volumes are the files that claim a place in the set, in the order of their ordinals and one for
each, and the missing ordinals are those between that no file has. -/
structure VolumeSet.IsExact (set : VolumeSet) (siblings : List Bytes) : Prop where
  mem_volumes : ∀ n, n ∈ set.volumes ↔ n ∈ siblings ∧ ∃ ordinal, claim set.style n = some ⟨set.stem, ordinal⟩
  increasing : set.ordinals.Pairwise (· < ·)
  missing_increasing : set.missing.Pairwise (· < ·)
  mem_missing : ∀ k, k ∈ set.missing ↔
    k ∉ set.ordinals ∧ (∃ lowest ∈ set.ordinals, lowest ≤ k) ∧ ∃ highest ∈ set.ordinals, k ≤ highest

/-- No arithmetic overflows for a picked file, and its set is exact and is found from each of its volumes
and in every order of the listing. -/
def DetectsExactly (sort : MemberSort) (picked : Bytes) (siblings : List Bytes) : Prop :=
  ∃ set, detectVolumeSet sort picked siblings = some set ∧ set.IsExact siblings ∧
    (∀ listing, listing.Perm siblings → detectVolumeSet sort picked listing = some set) ∧
    ∀ volume ∈ set.volumes, detectVolumeSet sort volume siblings = some set

/-- No ordinal is too large, no two files claim one, and no volume is in a set of an earlier style. -/
def Sound (picked : Bytes) (siblings : List Bytes) : Prop :=
  NoOverflow picked siblings ∧ ∀ style stem, Found style stem picked siblings →
    Below style stem siblings ∧ ((claimants style stem siblings).map (·.ordinal)).Nodup ∧
      ∀ m ∈ claimants style stem siblings, Reached style m.name siblings ∧ NoOverflow m.name siblings

theorem claim_of_mem_resolve {m : Member} (hm : m ∈ resolve (claimants style stem siblings)) :
    ∃ ordinal, ⟨m.name, ordinal⟩ ∈ claimants style stem siblings ∧
      m.ordinal = if ordinal = spannedZipLast then highest (claimants style stem siblings) + 1 else ordinal := by
  obtain ⟨c, hc, rfl⟩ := List.mem_map.mp hm
  refine ⟨c.ordinal, ?_, ?_⟩
  · split_ifs <;> exact hc
  · split_ifs with h
    · rfl
    · rfl

theorem map_name_resolve (members : List Member) : (resolve members).map (·.name) = members.map (·.name) := by
  rw [resolve, List.map_map]
  refine List.map_congr_left fun m _ ↦ ?_
  rw [Function.comp_apply]
  split_ifs <;> rfl

theorem map_ordinal_resolve (members : List Member) : (resolve members).map (·.ordinal) =
    (members.map (·.ordinal)).map fun o ↦ if o = spannedZipLast then highest members + 1 else o := by
  rw [resolve, List.map_map, List.map_map]
  refine List.map_congr_left fun m _ ↦ ?_
  rw [Function.comp_apply, Function.comp_apply]
  split_ifs <;> rfl

theorem perm_volumes_assembled : (assembled sort style stem siblings).volumes.Perm
    ((claimants style stem siblings).map (·.name)) := by
  rw [← map_name_resolve]
  exact (sort.perm _).map _

/-- The ordinal that a name claims is the one it was gathered with. -/
theorem claimed_of_mem {m : Member} (hm : m ∈ claimants style stem siblings) :
    ((claim style m.name).map (·.ordinal)).getD 0 = m.ordinal := by
  rw [(mem_claimants.mp hm).2]
  rfl

theorem claimed_assembled : (assembled sort style stem siblings).claimed.Perm
    ((claimants style stem siblings).map (·.ordinal)) := by
  have hnames : (assembled sort style stem siblings).volumes.Perm _ := perm_volumes_assembled
  refine (hnames.map _).trans (List.Perm.of_eq ?_)
  rw [List.map_map]
  exact List.map_congr_left fun m hm ↦ claimed_of_mem hm

theorem ordinals_assembled : (assembled sort style stem siblings).ordinals =
    (sort.run (resolve (claimants style stem siblings))).map (·.ordinal) := by
  have htop : (assembled sort style stem siblings).claimed.foldl max 0 = highest (claimants style stem siblings) :=
    claimed_assembled.foldl_eq 0
  rw [VolumeSet.ordinals, htop, VolumeSet.claimed, List.map_map, assembled, List.map_map]
  refine List.map_congr_left fun m hm ↦ ?_
  obtain ⟨ordinal, hclaimant, hm⟩ := claim_of_mem_resolve ((sort.perm _).mem_iff.mp hm)
  have hordinal := claimed_of_mem hclaimant
  dsimp only [Function.comp_apply] at hordinal ⊢
  rw [hordinal, hm]

/-- Resolving keeps different ordinals apart. -/
theorem nodup_resolve {members : List Member} :
    ((resolve members).map (·.ordinal)).Nodup ↔ (members.map (·.ordinal)).Nodup := by
  rw [map_ordinal_resolve]
  refine ⟨List.Nodup.of_map _, fun h ↦ h.map_on fun a ha b hb heq ↦ ?_⟩
  obtain ⟨m, hm, rfl⟩ := List.mem_map.mp ha
  obtain ⟨k, hk, rfl⟩ := List.mem_map.mp hb
  have hmle := le_highest hm
  have hkle := le_highest hk
  split_ifs at heq with hmlast hklast hklast
  · exact hmlast.trans hklast.symm
  · omega
  · omega
  · exact heq

theorem mem_absent {ordered : List Member} (hsorted : ordered.Pairwise fun a b ↦ a.ordinal ≤ b.ordinal) {k : ℤ} :
    k ∈ absent ordered ↔ k ∉ ordered.map (·.ordinal) ∧
      (∃ lowest ∈ ordered.map (·.ordinal), lowest ≤ k) ∧ ∃ highest ∈ ordered.map (·.ordinal), k ≤ highest := by
  rcases eq_or_ne ordered [] with rfl | hne
  · simp [absent]
  obtain ⟨front, back, hfront, hback, hmemfront, hmemback, hle⟩ := ends_of_sorted hne hsorted
  have hfrontle := (hle front hmemfront).2
  have hany : (!ordered.any (·.ordinal == k)) = true ↔ k ∉ ordered.map (·.ordinal) := by
    rw [Bool.not_eq_true', ← Bool.not_eq_true, List.any_eq_true, List.mem_map]
    simp only [beq_iff_eq]
  rw [absent, hfront, hback]
  dsimp only
  rw [List.mem_filter, hany, and_comm]
  refine and_congr_right fun _ ↦ ?_
  constructor
  · intro hk
    obtain ⟨j, hj, rfl⟩ := List.mem_map.mp hk
    have hlt := List.mem_range.mp hj
    refine ⟨⟨front.ordinal, List.mem_map_of_mem hmemfront, by omega⟩,
      ⟨back.ordinal, List.mem_map_of_mem hmemback, by omega⟩⟩
  · rintro ⟨⟨lowest, hlowest, hlowle⟩, ⟨highest, hhighest, hlehigh⟩⟩
    obtain ⟨m, hm, rfl⟩ := List.mem_map.mp hlowest
    obtain ⟨m', hm', rfl⟩ := List.mem_map.mp hhighest
    have hlow := (hle m hm).1
    have hhigh := (hle m' hm').2
    refine List.mem_map.mpr ⟨(k - front.ordinal).toNat, List.mem_range.mpr ?_, ?_⟩
    · omega
    · omega

theorem pairwise_absent (ordered : List Member) : (absent ordered).Pairwise (· < ·) := by
  rw [absent]
  split
  · refine List.Pairwise.filter _ (List.pairwise_map.mpr (List.pairwise_lt_range.imp fun h ↦ ?_))
    omega
  · exact List.Pairwise.nil

theorem isExact_assembled (hnodup : ((claimants style stem siblings).map (·.ordinal)).Nodup) :
    (assembled sort style stem siblings).IsExact siblings := by
  have hsorted := sort.sorted (resolve (claimants style stem siblings))
  have hperm := sort.perm (resolve (claimants style stem siblings))
  refine ⟨fun n ↦ ?_, ?_, pairwise_absent _, fun k ↦ ?_⟩
  · rw [perm_volumes_assembled.mem_iff, List.mem_map]
    constructor
    · rintro ⟨m, hm, rfl⟩
      exact ⟨(mem_claimants.mp hm).1, m.ordinal, (mem_claimants.mp hm).2⟩
    · rintro ⟨hn, ordinal, hclaim⟩
      exact ⟨⟨n, ordinal⟩, mem_claimants.mpr ⟨hn, hclaim⟩, rfl⟩
  · rw [ordinals_assembled]
    have hne := (hperm.map (·.ordinal)).nodup_iff.mpr (nodup_resolve.mpr hnodup)
    exact ((List.pairwise_map.mpr hsorted).and hne).imp fun h ↦ lt_of_le_of_ne h.1 h.2
  · rw [ordinals_assembled]
    exact mem_absent hsorted

/-! ## Every order of the listing -/

section Listings

variable {listing : List Bytes}

theorem perm_claimants (h : listing.Perm siblings) :
    (claimants style stem listing).Perm (claimants style stem siblings) := h.filterMap _

theorem perm_resolve {members others : List Member} (h : members.Perm others) : (resolve members).Perm (resolve others) := by
  have htop : highest members = highest others := (h.map _).foldl_eq 0
  rw [resolve, resolve, htop]
  exact h.map _

theorem assembled_perm (h : listing.Perm siblings)
    (hnodup : ((claimants style stem siblings).map (·.ordinal)).Nodup) :
    assembled sort style stem listing = assembled sort style stem siblings := by
  have hclaimants : (claimants style stem listing).Perm (claimants style stem siblings) := perm_claimants h
  have hresolve := perm_resolve hclaimants
  have hrun : sort.run (resolve (claimants style stem listing)) = sort.run (resolve (claimants style stem siblings)) := by
    refine List.Perm.eq_of_pairwise (fun a b ha hb hab hba ↦ ?_) (sort.sorted _) (sort.sorted _)
      ((sort.perm _).trans (hresolve.trans (sort.perm _).symm))
    have ha' := hresolve.mem_iff.mp ((sort.perm _).mem_iff.mp ha)
    have hb' := (sort.perm _).mem_iff.mp hb
    exact List.inj_on_of_nodup_map (nodup_resolve.mpr hnodup) ha' hb' (le_antisymm hab hba)
  rw [assembled, assembled, hrun]

theorem passed_perm (h : listing.Perm siblings) : Passed style name listing ↔ Passed style name siblings := by
  rw [Passed, Passed]
  refine forall₂_congr fun p _ ↦ ?_
  rw [(perm_claimants h).length_eq]

theorem reached_perm (h : listing.Perm siblings) : Reached style name listing ↔ Reached style name siblings :=
  forall₂_congr fun _ _ ↦ passed_perm h

theorem noOverflow_perm (h : listing.Perm siblings) : NoOverflow name listing ↔ NoOverflow name siblings := by
  refine forall₂_congr fun style _ ↦ ?_
  rw [reached_perm h, Parsable, Parsable]
  refine imp_congr_right fun _ ↦ forall_congr' fun n ↦ ?_
  rw [List.mem_cons, List.mem_cons, h.mem_iff]

theorem below_perm (h : listing.Perm siblings) : Below style stem listing ↔ Below style stem siblings := by
  refine forall_congr' fun m ↦ ?_
  rw [(perm_resolve (perm_claimants h)).mem_iff]

theorem Found.perm (hfound : Found style stem name siblings) (h : listing.Perm siblings) :
    Found style stem name listing :=
  ⟨hfound.claimed, (reached_perm h).mpr hfound.reached, (perm_claimants h).length_eq ▸ hfound.many⟩

end Listings

/-- **When a volume set is exact**: where no ordinal is too large, no two files claim one, and no volume is
in a set of a style that is tried before. -/
theorem detectsExactly_iff (sort : MemberSort) (picked : Bytes) (siblings : List Bytes) :
    DetectsExactly sort picked siblings ↔ Sound picked siblings := by
  constructor
  · rintro ⟨set, hset, hexact, -, hvolumes⟩
    refine ⟨?_, fun style stem hfound ↦ ?_⟩
    · rcases found_or_passed picked siblings with ⟨style, stem, hfound⟩ | hpassed
      · exact ((detect_of_found hfound).mp hset).1.1
      · exact ((detect_of_passed hpassed).mp hset).1
    obtain ⟨⟨-, hbelow⟩, rfl⟩ := (detect_of_found hfound).mp hset
    refine ⟨hbelow, ?_, fun m hm ↦ ?_⟩
    · have hincreasing := hexact.increasing
      rw [ordinals_assembled] at hincreasing
      have hne : (((sort.run (resolve (claimants style stem siblings))).map (·.ordinal))).Nodup :=
        hincreasing.imp fun h ↦ ne_of_lt h
      exact nodup_resolve.mp (((sort.perm _).map _).nodup_iff.mp hne)
    · have hvolume := hvolumes m.name (perm_volumes_assembled.mem_iff.mpr (List.mem_map_of_mem hm))
      have hclaim := (mem_claimants.mp hm).2
      -- What is found for a volume has the same style, so that no other one was found before.
      rcases found_or_passed m.name siblings with ⟨style', stem', hfound'⟩ | hpassed
      · obtain ⟨⟨hno, -⟩, heq⟩ := (detect_of_found hfound').mp hvolume
        obtain rfl : style = style' := congrArg VolumeSet.style heq
        exact ⟨hfound'.reached, hno⟩
      · obtain ⟨-, heq⟩ := (detect_of_passed hpassed).mp hvolume
        obtain rfl : style = .none := congrArg VolumeSet.style heq
        exact absurd hclaim (Option.some_ne_none _).symm
  · rintro ⟨hno, hsound⟩
    rcases found_or_passed picked siblings with ⟨style, stem, hfound⟩ | hpassed
    · obtain ⟨hbelow, hnodup, hmembers⟩ := hsound style stem hfound
      refine ⟨assembled sort style stem siblings, (detect_of_found hfound).mpr ⟨⟨hno, hbelow⟩, rfl⟩,
        isExact_assembled hnodup, fun listing hperm ↦ ?_, fun volume hvolume ↦ ?_⟩
      · exact (detect_of_found (hfound.perm hperm)).mpr
          ⟨⟨(noOverflow_perm hperm).mpr hno, (below_perm hperm).mpr hbelow⟩, (assembled_perm hperm hnodup).symm⟩
      · obtain ⟨m, hm, rfl⟩ := List.mem_map.mp (perm_volumes_assembled.mem_iff.mp hvolume)
        obtain ⟨hreached, hno'⟩ := hmembers m hm
        have hfound' : Found style stem m.name siblings := ⟨⟨m.ordinal, (mem_claimants.mp hm).2⟩, hreached, hfound.many⟩
        exact (detect_of_found hfound').mpr ⟨⟨hno', hbelow⟩, rfl⟩
    · refine ⟨{}, (detect_of_passed hpassed).mpr ⟨hno, rfl⟩, ⟨fun n ↦ ?_, .nil, .nil, fun k ↦ ?_⟩,
        fun listing hperm ↦ ?_, fun volume hvolume ↦ absurd hvolume List.not_mem_nil⟩
      · refine iff_of_false List.not_mem_nil ?_
        rintro ⟨-, ordinal, hclaim⟩
        exact absurd hclaim (Option.some_ne_none _).symm
      · refine iff_of_false List.not_mem_nil ?_
        rintro ⟨-, ⟨lowest, hlowest, -⟩, -⟩
        exact absurd hlowest List.not_mem_nil
      · exact (detect_of_passed fun style hstyle ↦ (passed_perm hperm).mpr (hpassed style hstyle)).mpr
          ⟨(noOverflow_perm hperm).mpr hno, rfl⟩

/-- Two files with one ordinal are both joined, in the order of the listing; a number of ten digits overflows,
also in the name of a file of another set; and the parts of a RAR set are not all found from each other. -/
theorem volume_sets_not_exact :
    let twice := [ascii "a.01", ascii "a.001"]
    let zips := [ascii "a.z01", ascii "a.zip", ascii "A.ZIP"]
    let large := [ascii "a.01", ascii "a.02", ascii "b.2147483648"]
    let parts := [ascii "a.part1.rar", ascii "a.part2.rar", ascii "a.part1.r00"]
    ¬DetectsExactly .insertion (ascii "a.01") twice ∧ ¬DetectsExactly .insertion (ascii "a.z01") zips ∧
      ¬DetectsExactly .insertion (ascii "a.01") large ∧ ¬DetectsExactly .insertion (ascii "a.part1.r00") parts := by
  intro twice zips large parts
  refine ⟨?_, ?_, ?_, ?_⟩
  · rintro ⟨set, hset, -, hperm, -⟩
    have hswap := hperm [ascii "a.001", ascii "a.01"] (List.Perm.swap _ _ _)
    exact absurd (hset.trans hswap.symm) (by decide +kernel)
  · rintro ⟨set, hset, -, hperm, -⟩
    have hswap := hperm [ascii "a.z01", ascii "A.ZIP", ascii "a.zip"] ((List.Perm.swap _ _ _).cons _)
    exact absurd (hset.trans hswap.symm) (by decide +kernel)
  · rintro ⟨set, hset, -⟩
    have hnone : detectVolumeSet .insertion (ascii "a.01") large = none := by decide +kernel
    exact absurd (hset.symm.trans hnone) (Option.some_ne_none set)
  · rintro ⟨set, hset, -, -, hvolumes⟩
    obtain rfl : (detectVolumeSet .insertion (ascii "a.part1.r00") parts).getD {} = set := by rw [hset]; rfl
    have hpart := hvolumes (ascii "a.part1.rar") (by decide +kernel)
    exact absurd hpart (by decide +kernel)

end Volumes

end SafeVault
