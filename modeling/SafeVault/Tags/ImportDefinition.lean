import Mathlib.Tactic.IntervalCases
import SafeVault.Lib.Fresh
import SafeVault.Tags.Keep

/-!
# Importing the definition of a bundle

A definition from another vault is not added if a bundle with its identity or its name has the same
members. If its name is taken by another bundle, the loop goes through numbered names until one is free
or belongs to a bundle with the same members. So an imported definition is settled: a later import of
it, whatever was added in the meantime, takes the same turns and ends at a bundle that is there.
-/

namespace SafeVault

variable {bundles bundles' : List TagBundle} {definition b : TagBundle} {name : Bytes} {id : NodeId}
  {i j n fuel : ℕ} {random : ℕ → Option NodeId}

/-! ## The names tried -/

/-- The name of a turn of the loop. The first is the definition's own. -/
def importCandidate (name : Bytes) : ℕ → Bytes
  | 0 => name
  | n + 1 => importName name (n + 2)

/-- The names of the bundles up to case. -/
def bundleKeys (bundles : List TagBundle) : List Bytes :=
  bundles.map fun b ↦ AsciiFold.fold b.name

theorem ascii_append (s t : String) : ascii (s ++ t) = ascii s ++ ascii t := by
  rw [ascii, String.toList_append, List.map_append]
  rfl

theorem importName_eq (name : Bytes) (n : ℕ) :
    importName name n =
      name.take 220 ++ (ascii " (import " ++ ascii (toString n) ++ ascii ")") := by
  rw [importName, ← ascii_append, ← ascii_append]
  rfl

/-- A digit is the same byte after folding, and gives the character back. -/
theorem ofNat_lower_digit {c : Char} (hc : c.isDigit = true) :
    Char.ofNat (AsciiFold.lower (UInt8.ofNat c.toNat)).toNat = c := by
  rw [Char.isDigit, Bool.and_eq_true, decide_eq_true_iff, decide_eq_true_iff] at hc
  have hlow : 48 ≤ c.toNat := hc.1
  have hhigh : c.toNat ≤ 57 := hc.2
  rw [← Char.ofNat_toNat c]
  generalize c.toNat = m at hlow hhigh
  interval_cases m <;> rfl

theorem fold_ascii_toString_inj
    (h : AsciiFold.fold (ascii (toString i)) = AsciiFold.fold (ascii (toString j))) : i = j := by
  have hback (n : ℕ) : (AsciiFold.fold (ascii (toString n))).map (fun c ↦ Char.ofNat c.toNat) =
      Nat.toDigits 10 n := by
    rw [AsciiFold.fold, ascii, Nat.toString_eq_ofList_toDigits, String.toList_ofList, List.map_map,
      List.map_map]
    refine (List.map_congr_left fun c hc ↦ ?_).trans (List.map_id _)
    exact ofNat_lower_digit (Nat.isDigit_of_mem_toDigits (by norm_num) le_rfl hc)
  have hdigits : Nat.toDigits 10 i = Nat.toDigits 10 j := by rw [← hback, ← hback, h]
  rw [← @Nat.ofDigitChars_ten_toDigits i, hdigits, Nat.ofDigitChars_ten_toDigits]

/-- The numbered names differ, also up to case. -/
theorem fold_importName_inj
    (h : AsciiFold.fold (importName name i) = AsciiFold.fold (importName name j)) : i = j := by
  simp only [importName_eq, AsciiFold.fold_append, List.append_cancel_left_eq,
    List.append_cancel_right_eq] at h
  exact fold_ascii_toString_inj h

theorem length_importName_le (name : Bytes) (hn : n < 10 ^ 5) :
    (importName name n).length ≤ 255 := by
  have hdigits : (ascii (toString n)).length ≤ 5 := by
    rw [ascii, List.length_map, Nat.toString_eq_ofList_toDigits, String.toList_ofList]
    exact (Nat.length_toDigits_le_iff (by norm_num) (by norm_num)).mpr hn
  have htake : (name.take 220).length ≤ 220 := List.length_take_le _ _
  have hopen : (ascii " (import ").length = 9 := rfl
  have hclose : (ascii ")").length = 1 := rfl
  rw [importName_eq, List.length_append, List.length_append, List.length_append]
  omega

/-- A name of the loop fits if the definition's own does. -/
theorem length_importCandidate (hname : 1 ≤ name.length ∧ name.length ≤ 255)
    (hn : n ≤ indexMaxTags + 1) :
    1 ≤ (importCandidate name n).length ∧ (importCandidate name n).length ≤ 255 := by
  rcases n with _ | n
  · exact hname
  · rw [indexMaxTags] at hn
    refine ⟨?_, length_importName_le name (by omega)⟩
    rw [importCandidate, importName_eq, List.length_append]
    have hopen : (ascii " (import ").length = 9 := rfl
    rw [List.length_append, List.length_append]
    omega

theorem any_name_iff :
    (bundles.any fun b ↦ tagCiEqual b.name name) = true ↔ AsciiFold.fold name ∈ bundleKeys bundles := by
  rw [bundleKeys, List.any_eq_true, List.mem_map]
  exact exists_congr fun b ↦ and_congr_right fun _ ↦ decides_tagCiEqual _ _

/-- If all names of one turn more than there are bundles were taken, two bundles would be missing. -/
theorem importCandidate_free (h : ∀ l < bundles.length + 1,
    AsciiFold.fold (importCandidate definition.name l) ∈ bundleKeys bundles) :
    AsciiFold.fold (importCandidate definition.name (bundles.length + 1)) ∉ bundleKeys bundles := by
  intro hlast
  -- The definition's own name may be one of the numbered ones; these alone are too many.
  have hall : ∀ l < bundles.length + 1,
      AsciiFold.fold (importName definition.name (2 + l)) ∈ bundleKeys bundles := by
    intro l hl
    rw [Nat.add_comm]
    rcases Nat.lt_succ_iff_lt_or_eq.mp hl with hl | rfl
    · exact h (l + 1) (Nat.succ_lt_succ hl)
    · exact hlast
  have hcard : bundles.length + 1 ≤ (bundleKeys bundles).length :=
    @Fresh.card_le_of_forall_mem _ (fun l ↦ AsciiFold.fold (importName definition.name l)) _ _ 2
      (fun _ _ _ _ heq ↦ Nat.add_left_cancel (fold_importName_inj heq)) hall
  rw [bundleKeys, List.length_map] at hcard
  exact Nat.not_succ_le_self _ hcard

/-! ## The loop -/

/-- If the loop stops at a bundle, all names before that of the bundle were taken. -/
theorem findImportName_eq_some {current : TagBundle}
    (hcurrent : current = { definition with name := importCandidate definition.name i })
    (h : (findImportName bundles definition definition.name fuel (i + 2) current).1 = some b) :
    b ∈ bundles ∧ sameBundleMembers b definition = true ∧ ∃ j ≤ i + fuel,
      AsciiFold.fold b.name = AsciiFold.fold (importCandidate definition.name j) ∧
      ∀ l, i ≤ l → l < j → AsciiFold.fold (importCandidate definition.name l) ∈ bundleKeys bundles := by
  induction fuel generalizing i current with
  | zero => cases h
  | succ fuel ih =>
    rw [findImportName] at h
    split_ifs at h with htaken
    · rw [any_name_iff, hcurrent] at htaken
      dsimp only at h
      split at h
      · next b' hfind =>
        obtain rfl := Option.some_inj.mp h
        have hb := List.find?_some hfind
        rw [Bool.and_eq_true] at hb
        refine ⟨List.mem_of_find?_eq_some hfind, hb.2, i + 1, by omega,
          (decides_tagCiEqual _ _).mp hb.1, fun l hle hlt ↦ ?_⟩
        obtain rfl : l = i := by omega
        exact htaken
      · obtain ⟨hmem, hsame, j, hj, hname, hbefore⟩ := ih rfl h
        refine ⟨hmem, hsame, j, by omega, hname, fun l hle hlt ↦ ?_⟩
        rcases Nat.eq_or_lt_of_le hle with rfl | hle
        · exact htaken
        · exact hbefore l hle hlt

/-- If the loop stops without a bundle, it has run out of turns or the last name is free, and all names
before were taken. -/
theorem findImportName_eq_none {current : TagBundle}
    (hcurrent : current = { definition with name := importCandidate definition.name i })
    (h : (findImportName bundles definition definition.name fuel (i + 2) current).1 = none) :
    ∃ j ≤ i + fuel,
      (findImportName bundles definition definition.name fuel (i + 2) current).2 =
        { definition with name := importCandidate definition.name j } ∧
      (j < i + fuel → AsciiFold.fold (importCandidate definition.name j) ∉ bundleKeys bundles) ∧
      ∀ l, i ≤ l → l < j → AsciiFold.fold (importCandidate definition.name l) ∈ bundleKeys bundles := by
  induction fuel generalizing i current with
  | zero =>
    exact ⟨i, le_rfl, hcurrent, fun hlt ↦ absurd hlt (lt_irrefl _),
      fun l hle hlt ↦ absurd hle (not_le.mpr hlt)⟩
  | succ fuel ih =>
    rw [findImportName] at h ⊢
    split_ifs at h ⊢ with htaken
    · rw [any_name_iff, hcurrent] at htaken
      dsimp only at h ⊢
      split at h
      · cases h
      · next hfind =>
        obtain ⟨j, hj, hlast, hfree, hbefore⟩ := ih rfl h
        refine ⟨j, by omega, hlast, fun hlt ↦ hfree (by omega), fun l hle hlt ↦ ?_⟩
        rcases Nat.eq_or_lt_of_le hle with rfl | hle
        · exact htaken
        · exact hbefore l hle hlt
    · rw [any_name_iff, hcurrent] at htaken
      exact ⟨i, by omega, hcurrent, fun _ ↦ htaken, fun l hle hlt ↦ absurd hle (not_le.mpr hlt)⟩

/-- If all names before that of a bundle with the same members are taken, the loop stops at a bundle. -/
theorem isSome_findImportName {current : TagBundle}
    (hcurrent : current = { definition with name := importCandidate definition.name i })
    (hlt : i < j) (hle : j ≤ i + fuel) (hb : b ∈ bundles)
    (hname : AsciiFold.fold b.name = AsciiFold.fold (importCandidate definition.name j))
    (hsame : sameBundleMembers b definition = true)
    (hbefore : ∀ l < j, AsciiFold.fold (importCandidate definition.name l) ∈ bundleKeys bundles) :
    (findImportName bundles definition definition.name fuel (i + 2) current).1.isSome := by
  induction fuel generalizing i current with
  | zero => exact absurd hle (not_le.mpr hlt)
  | succ fuel ih =>
    have htaken : (bundles.any fun b ↦ tagCiEqual b.name current.name) = true := by
      rw [any_name_iff, hcurrent]
      exact hbefore i hlt
    rw [findImportName, if_pos htaken]
    dsimp only
    split
    · rfl
    · next hfind =>
      rcases Nat.eq_or_lt_of_le (Nat.succ_le_of_lt hlt) with rfl | hlt
      · refine absurd ?_ (List.find?_eq_none.mp hfind b hb)
        rw [Bool.and_eq_true]
        exact ⟨(decides_tagCiEqual _ _).mpr hname, hsame⟩
      · exact ih rfl hlt (by omega)

/-! ## Importing a definition -/

/-- A bundle that is there has the members of a definition, and an import of the definition comes to it
or to another such bundle: it has its identity or the name of some turn, all names before being taken. -/
def Settled (bundles : List TagBundle) (definition : TagBundle) : Prop :=
  ∃ b ∈ bundles, sameBundleMembers b definition = true ∧
    (b.id = definition.id ∨ ∃ j ≤ bundles.length + 1,
      AsciiFold.fold b.name = AsciiFold.fold (importCandidate definition.name j) ∧
      ∀ l < j, AsciiFold.fold (importCandidate definition.name l) ∈ bundleKeys bundles)

/-- Whatever is added, a settled definition stays settled. -/
theorem Settled.mono (h : Settled bundles definition) (hpre : bundles <+: bundles') :
    Settled bundles' definition := by
  obtain ⟨b, hb, hsame, hfound⟩ := h
  refine ⟨b, hpre.subset hb, hsame, hfound.imp_right ?_⟩
  rintro ⟨j, hj, hname, hbefore⟩
  exact ⟨j, hj.trans (Nat.succ_le_succ hpre.length_le), hname,
    fun l hl ↦ List.map_subset _ hpre.subset (hbefore l hl)⟩

/-- The import of a settled definition adds nothing. -/
theorem Settled.importBundleDefinition (h : Settled bundles definition) (random : ℕ → Option NodeId) :
    ∃ id, importBundleDefinition bundles random definition = .ok (bundles, id) := by
  rw [SafeVault.importBundleDefinition]
  dsimp only
  split
  · exact ⟨_, rfl⟩
  -- The loop starts only if no bundle with the identity or the name has the members.
  next hnone =>
    exfalso
    obtain ⟨b, hb, hsame, hfound⟩ := h
    split at hnone
    · cases hnone
    · next hcompatible =>
      have hskip := List.find?_eq_none.mp hcompatible b hb
      rw [Bool.and_eq_true, hsame] at hskip
      rcases hfound with hid | ⟨_ | j, hj, hname, hbefore⟩
      · exact hskip ⟨by rw [hid, beq_self_eq_true, Bool.true_or], rfl⟩
      · have hown : tagCiEqual b.name definition.name = true := (decides_tagCiEqual _ _).mpr hname
        exact hskip ⟨by rw [hown, Bool.or_true], rfl⟩
      · have hloop := @isSome_findImportName bundles definition b 0 (j + 1) (bundles.length + 1)
          definition rfl (Nat.succ_pos j) (by omega) hb hname hsame hbefore
        rw [hnone] at hloop
        cases hloop

/-- **What an import does.** It finds a bundle with the same members, or it adds the definition under
the first free name, with its own identity or, if a bundle has that, a drawn one. -/
theorem importBundleDefinition_cases
    (h : importBundleDefinition bundles random definition = .ok (bundles', id)) :
    (bundles' = bundles ∧ Settled bundles definition ∧
      ∃ b ∈ bundles, b.id = id ∧ sameBundleMembers b definition = true) ∨
    ∃ j ≤ bundles.length + 1,
      bundles' = bundles ++ [{ definition with id, name := importCandidate definition.name j }] ∧
      bundles.length < indexMaxTags ∧
      AsciiFold.fold (importCandidate definition.name j) ∉ bundleKeys bundles ∧
      (∀ l < j, AsciiFold.fold (importCandidate definition.name l) ∈ bundleKeys bundles) ∧
      (id = definition.id ∧ id ∉ bundles.map (·.id) ∨ random bundles.length = some id) := by
  rw [importBundleDefinition] at h
  dsimp only at h
  split at h
  · next b hfound =>
    cases h
    refine .inl ⟨rfl, ?_⟩
    split at hfound
    · next hcompatible =>
      obtain rfl := Option.some_inj.mp hfound
      have hb := List.find?_some hcompatible
      rw [Bool.and_eq_true, Bool.or_eq_true, beq_iff_eq] at hb
      have hmem := List.mem_of_find?_eq_some hcompatible
      refine ⟨⟨_, hmem, hb.2, hb.1.imp_right fun hname ↦ ?_⟩, _, hmem, rfl, hb.2⟩
      exact ⟨0, Nat.zero_le _, (decides_tagCiEqual _ _).mp hname, fun l hl ↦ absurd hl (Nat.not_lt_zero l)⟩
    · obtain ⟨hmem, hsame, j, hj, hname, hbefore⟩ :=
        @findImportName_eq_some bundles definition _ 0 (bundles.length + 1) definition rfl hfound
      exact ⟨⟨_, hmem, hsame, .inr ⟨j, by omega, hname, fun l hl ↦ hbefore l (Nat.zero_le l) hl⟩⟩,
        _, hmem, rfl, hsame⟩
  · next hnone =>
    split at hnone
    · cases hnone
    · next hcompatible =>
      obtain ⟨j, hj, hlast, hfree, hbefore⟩ :=
        @findImportName_eq_none bundles definition 0 (bundles.length + 1) definition rfl hnone
      rw [Nat.zero_add] at hj
      replace hbefore := fun l hl ↦ hbefore l (Nat.zero_le l) hl
      have hunused :
          AsciiFold.fold (importCandidate definition.name j) ∉ bundleKeys bundles := by
        rcases Nat.lt_or_eq_of_le hj with hlt | rfl
        · exact hfree (by omega)
        · exact importCandidate_free hbefore
      change (findImportName bundles definition definition.name (bundles.length + 1) 2 definition).2 =
        _ at hlast
      rw [hcompatible] at h
      dsimp only at h
      rw [hlast] at h
      refine .inr ⟨j, hj, ?_⟩
      split_ifs at h with hfull hid
      · split at h
        · next id' hdraw =>
          cases h
          exact ⟨rfl, not_le.mp hfull, hunused, hbefore, .inr hdraw⟩
        · cases h
      · cases h
        refine ⟨rfl, not_le.mp hfull, hunused, hbefore, .inl ⟨rfl, fun hmem ↦ hid ?_⟩⟩
        obtain ⟨b, hb, heq⟩ := List.mem_map.mp hmem
        exact List.any_eq_true.mpr ⟨b, hb, beq_iff_eq.mpr heq⟩

/-- The bundles of a vault: no identity and no name twice, and each name with a length that fits. -/
structure BundlesKept (bundles : List TagBundle) : Prop where
  ids : (bundles.map (·.id)).Nodup
  names : (bundleKeys bundles).Nodup
  lengths : ∀ b ∈ bundles, 1 ≤ b.name.length ∧ b.name.length ≤ 255
  count : bundles.length ≤ indexMaxTags

theorem sameBundleMembers_self (tags : List Bytes) (b b' : TagBundle) (hb : b.tags = tags)
    (hb' : b'.tags = tags) : sameBundleMembers b b' = true := by
  rw [sameBundleMembers, hb, hb', beq_self_eq_true, Bool.true_and, List.zip_eq_zipWith,
    List.zipWith_self, List.all_map, List.all_eq_true]
  exact fun t _ ↦ (decides_tagCiEqual _ _).mpr rfl

/-- **One definition.** The bundles stay kept, and the definition is settled at the bundle whose
identity the import gives. -/
theorem BundlesKept.importBundleDefinition (hk : BundlesKept bundles)
    (hname : 1 ≤ definition.name.length ∧ definition.name.length ≤ 255)
    (hdraw : ∀ id, random bundles.length = some id → id ∉ bundles.map (·.id))
    (h : importBundleDefinition bundles random definition = .ok (bundles', id)) :
    BundlesKept bundles' ∧ Settled bundles' definition ∧
      ∃ b ∈ bundles', b.id = id ∧ sameBundleMembers b definition = true := by
  rcases importBundleDefinition_cases h with
    ⟨rfl, hsettled, hfound⟩ | ⟨j, hj, rfl, hcount, hfree, hbefore, hid⟩
  · exact ⟨hk, hsettled, hfound⟩
  have hnew : id ∉ bundles.map (·.id) := hid.elim And.right (hdraw id)
  have hsame : sameBundleMembers
      { definition with id, name := importCandidate definition.name j } definition = true :=
    sameBundleMembers_self definition.tags _ _ rfl rfl
  have hmem : ({ definition with id, name := importCandidate definition.name j } : TagBundle) ∈
      bundles ++ [{ definition with id, name := importCandidate definition.name j }] :=
    List.mem_append_right _ (List.mem_singleton.mpr rfl)
  have hlast (l : ℕ) (hl : l < j) : AsciiFold.fold (importCandidate definition.name l) ∈
      bundleKeys (bundles ++ [{ definition with id, name := importCandidate definition.name j }]) :=
    List.map_subset _ (List.subset_append_left _ _) (hbefore l hl)
  refine ⟨⟨?_, ?_, ?_, ?_⟩, ⟨_, hmem, hsame, .inr ⟨j, ?_, rfl, hlast⟩⟩, _, hmem, rfl, hsame⟩
  · rw [List.map_append, List.map_singleton, ← List.concat_eq_append, List.nodup_concat]
    exact ⟨hnew, hk.ids⟩
  · rw [bundleKeys, List.map_append, List.map_singleton, ← List.concat_eq_append, List.nodup_concat]
    exact ⟨hfree, hk.names⟩
  · intro b hb
    rcases List.mem_append.mp hb with hb | hb
    · exact hk.lengths b hb
    · obtain rfl := List.mem_singleton.mp hb
      exact length_importCandidate hname (by omega)
  · rw [List.length_append, List.length_singleton]
    exact hcount
  · rw [List.length_append, List.length_singleton]
    exact hj.trans (Nat.le_succ _)

/-! ## Importing the definitions of a node -/

/-- What is expected of the source of random identities: it draws none that is in use, and none twice. -/
structure DrawsFresh (random : ℕ → Option NodeId) (used : List NodeId) : Prop where
  unused : ∀ k id, random k = some id → id ∉ used
  once : ∀ j k id, random j = some id → random k = some id → j = k

variable {sourceBundles : List TagBundle} {ids applied applied' : List NodeId}

/-- Import the definitions that a node has applied, one after the other. What the later ones draw is
not in use, and what the earlier ones settled stays settled. -/
theorem BundlesKept.importBundles (hk : BundlesKept bundles)
    (hnames : ∀ b ∈ sourceBundles, 1 ≤ b.name.length ∧ b.name.length ≤ 255)
    (hfresh : DrawsFresh random (sourceBundles.map (·.id)))
    (hdraw : ∀ k, bundles.length ≤ k → ∀ id, random k = some id → id ∉ bundles.map (·.id))
    (h : importBundles random sourceBundles ids bundles applied = .ok (bundles', applied')) :
    BundlesKept bundles' ∧ applied ⊆ applied' ∧
      (∀ id ∈ ids, ∃ definition, findBundle sourceBundles id = some definition ∧
        Settled bundles' definition ∧
        ∃ b ∈ bundles', b.id ∈ applied' ∧ sameBundleMembers b definition = true) ∧
      ∀ id' ∈ applied', id' ∈ applied ∨ ∃ id ∈ ids, ∃ definition,
        findBundle sourceBundles id = some definition ∧
        ∃ b ∈ bundles', b.id = id' ∧ sameBundleMembers b definition = true := by
  induction ids generalizing bundles applied with
  | nil =>
    cases h
    exact ⟨hk, List.Subset.refl _, fun id hid ↦ absurd hid List.not_mem_nil, fun id hid ↦ .inl hid⟩
  | cons id ids ih =>
    rw [SafeVault.importBundles] at h
    split at h
    · cases h
    next definition hdefinition =>
    split at h
    · cases h
    next bundles₁ id₁ himport =>
    have hsource := List.mem_of_find?_eq_some hdefinition
    obtain ⟨hk₁, hsettled, b, hb, rfl, hsame⟩ := hk.importBundleDefinition
      (hnames definition hsource) (hdraw _ le_rfl) himport
    have hdraw₁ : ∀ k, bundles₁.length ≤ k → ∀ id, random k = some id →
        id ∉ bundles₁.map (·.id) := by
      intro k hle id hid hmem
      rcases importBundleDefinition_cases himport with
        ⟨rfl, -, -⟩ | ⟨j, -, rfl, -, -, -, hnew⟩
      · exact hdraw k hle id hid hmem
      rw [List.length_append, List.length_singleton] at hle
      rw [List.map_append, List.map_singleton, List.mem_append, List.mem_singleton] at hmem
      rcases hmem with hmem | rfl
      · exact hdraw k (by omega) id hid hmem
      · rcases hnew with ⟨hown, -⟩ | hdrawn
        · exact hfresh.unused k _ hid (List.mem_map.mpr ⟨definition, hsource, hown.symm⟩)
        · exact absurd (hfresh.once _ _ _ hdrawn hid) (by omega)
    obtain ⟨hk', hsub, hall, honly⟩ := ih hk₁ hdraw₁ h
    obtain ⟨extra, rfl⟩ := importBundles_append h
    have hid₁ : b.id ∈ if applied.contains b.id then applied else applied ++ [b.id] := by
      split_ifs with hcontains
      · exact List.contains_iff_mem.mp hcontains
      · exact List.mem_append_right _ (List.mem_singleton.mpr rfl)
    have happlied : applied ⊆ if applied.contains b.id then applied else applied ++ [b.id] := by
      split_ifs
      · exact List.Subset.refl _
      · exact List.subset_append_left _ _
    refine ⟨hk', List.Subset.trans happlied hsub, fun id' hid' ↦ ?_, fun id' hid' ↦ ?_⟩
    · rcases List.mem_cons.mp hid' with rfl | hid'
      · exact ⟨definition, hdefinition, hsettled.mono (List.prefix_append _ _), b,
          List.mem_append_left _ hb, hsub hid₁, hsame⟩
      · exact hall id' hid'
    · rcases honly id' hid' with hid' | ⟨id₂, hid₂, hfound⟩
      · have hcases : id' ∈ applied ∨ id' = b.id := by
          split_ifs at hid' with hcontains
          · exact .inl hid'
          · exact (List.mem_append.mp hid').imp_right List.mem_singleton.mp
        refine hcases.imp_right ?_
        rintro rfl
        exact ⟨id, List.mem_cons_self, definition, hdefinition, b, List.mem_append_left _ hb, rfl,
          hsame⟩
      · exact .inr ⟨id₂, List.mem_cons_of_mem _ hid₂, hfound⟩

/-- **Importing again.** If all definitions of a node are settled, nothing is added. -/
theorem importBundles_of_settled {later added : List TagBundle} {random' : ℕ → Option NodeId}
    (hsettled : ∀ id ∈ ids, ∀ definition, findBundle sourceBundles id = some definition →
      Settled later definition)
    (h : importBundles random' sourceBundles ids later applied = .ok (added, applied')) :
    added = later := by
  induction ids generalizing applied with
  | nil =>
    cases h
    rfl
  | cons id ids ih =>
    rw [importBundles] at h
    split at h
    · cases h
    next definition hdefinition =>
    obtain ⟨id', himport⟩ := (hsettled id List.mem_cons_self definition
      hdefinition).importBundleDefinition random'
    rw [himport] at h
    exact ih (fun id hid ↦ hsettled id (List.mem_cons_of_mem _ hid)) h

end SafeVault
