import SafeVault.Tags.Edit

/-!
# Renaming tags and tag categories

A rename rewrites one tag, or all tags of a category, everywhere. It is planned first: a plan fails
when the new spelling is in use by another tag, so no two tags become one.

The category of a tag is the text before its first colon. Folding the case of letters neither makes
nor removes a colon, so tags that agree up to case agree in their category. A renaming of a category
replaces that text; as long as no tag is in the new category already, different tags stay different.
-/

namespace SafeVault

/-- The byte between a category and the rest of a tag. -/
def colon : UInt8 := 58

/-- The longest tag that can be stored. -/
def maxTagBytes : ℕ := 65535

/-- A tag too long, or with a byte `0`. -/
def tagUnstorable (tag : Bytes) : Bool := maxTagBytes < tag.length || tag.contains 0

/-- What precedes the colon of a tag with a category. -/
def tagCategoryPrefix (tag : Bytes) : Bytes :=
  match tag.findIdx? (· == colon) with
  | some i => if i = 0 ∨ tag.length ≤ i + 1 then [] else tag.take i
  | none => []

def categoryTemplate (settings : VaultSettings) (category : Bytes) : List Bytes :=
  match settings.categories.find? fun c ↦ categoryNameEq c.name category with
  | some c => c.fields
  | none => []

/-- Every field with a value for the old tag is in the template of the new one. -/
def renamePreservesTagFields (settings : VaultSettings) (oldTag newTag : Bytes) : Bool :=
  let fields := categoryTemplate settings (tagCategoryPrefix newTag)
  settings.tagFieldValues.all fun x ↦
    !tagCiEqual x.tag oldTag || fields.any (tagCiEqual · x.field)

/-- The change of spelling of `rename_tag`. -/
def renamedTag (oldTag newTag tag : Bytes) : Bytes := if tagCiEqual tag oldTag then newTag else tag

/-- `CategoryRenamePlan::replacement`: the new spelling of a tag of the category, if it is one. -/
def categoryReplacement (oldName newName tag : Bytes) : Except VaultResult (Option Bytes) :=
  if tagCiEqual (tagCategoryPrefix tag) oldName then
    if maxTagBytes < newName.length + tag.length - oldName.length then .error .invalidArg
    else .ok (some (newName ++ tag.drop oldName.length))
  else if tagCiEqual (tagCategoryPrefix tag) newName then .error .alreadyExists
  else .ok none

/-- The status after all references were looked at: the last objection, if there is one. -/
def categoryRenameStatus (oldName newName : Bytes) (references : List Bytes) : VaultResult :=
  references.foldl (fun status tag ↦
    match categoryReplacement oldName newName tag with
    | .error r => r
    | .ok _ => status) .ok

/-- The change of spelling of `rename_tag_category`. -/
def recategorisedTag (oldName newName tag : Bytes) : Bytes :=
  match categoryReplacement oldName newName tag with
  | .ok (some tag') => tag'
  | _ => tag

/-! ## The category of a tag -/

theorem lower_eq_colon_iff {c : UInt8} : AsciiFold.lower c = colon ↔ c = colon := by
  rw [AsciiFold.lower, colon]
  split_ifs with hc
  · obtain ⟨hlow, hhigh⟩ := hc
    have h65 : (65 : UInt8).toNat = 65 := rfl
    have h90 : (90 : UInt8).toNat = 90 := rfl
    have h32 : (32 : UInt8).toNat = 32 := rfl
    have h58 : (58 : UInt8).toNat = 58 := rfl
    rw [UInt8.le_iff_toNat_le] at hlow hhigh
    rw [← UInt8.toNat_inj, ← UInt8.toNat_inj, UInt8.toNat_add]
    omega
  · exact Iff.rfl

theorem tagCategoryPrefix_append {p rest : Bytes} (hcolon : colon ∉ p) (hp : p ≠ [])
    (hrest : rest ≠ []) : tagCategoryPrefix (p ++ colon :: rest) = p := by
  have hidx : (p ++ colon :: rest).findIdx? (· == colon) = some p.length := by
    rw [List.findIdx?_append, List.findIdx?_eq_none_iff.mpr]
    · simp [List.findIdx?_cons]
    · intro c hc
      rw [beq_eq_false_iff_ne]
      exact fun h ↦ hcolon (h ▸ hc)
  have hlong : ¬(p.length = 0 ∨ (p ++ colon :: rest).length ≤ p.length + 1) := by
    rw [List.length_append, List.length_cons, List.length_eq_zero_iff]
    have := List.length_pos_of_ne_nil hrest
    rintro (h | h)
    · exact hp h
    · omega
  rw [tagCategoryPrefix, hidx]
  dsimp only
  rw [if_neg hlong, List.take_left']
  rfl

/-- A tag with a category is that category, a colon and something more. -/
theorem exists_eq_tagCategoryPrefix_append {tag : Bytes} (h : tagCategoryPrefix tag ≠ []) :
    ∃ rest, rest ≠ [] ∧ tag = tagCategoryPrefix tag ++ colon :: rest := by
  have hmem : colon ∈ tag := by
    by_contra hno
    refine h ?_
    rw [tagCategoryPrefix, List.findIdx?_eq_none_iff.mpr]
    intro c hc
    rw [beq_eq_false_iff_ne]
    exact fun heq ↦ hno (heq ▸ hc)
  obtain ⟨p, rest, rfl, hp⟩ := List.eq_append_cons_of_mem hmem
  by_cases hne : p = [] ∨ rest = []
  · refine absurd ?_ h
    have hidx : (p ++ colon :: rest).findIdx? (· == colon) = some p.length := by
      rw [List.findIdx?_append, List.findIdx?_eq_none_iff.mpr]
      · simp [List.findIdx?_cons]
      · intro c hc
        rw [beq_eq_false_iff_ne]
        exact fun h ↦ hp (h ▸ hc)
    rw [tagCategoryPrefix, hidx]
    dsimp only
    rw [if_pos]
    rcases hne with rfl | rfl
    · exact Or.inl rfl
    · right
      rw [List.length_append, List.length_singleton]
  · rw [not_or] at hne
    exact ⟨rest, hne.2, by rw [tagCategoryPrefix_append hp hne.1 hne.2]⟩

theorem fold_tagCategoryPrefix (tag : Bytes) :
    AsciiFold.fold (tagCategoryPrefix tag) = tagCategoryPrefix (AsciiFold.fold tag) := by
  have hidx : (AsciiFold.fold tag).findIdx? (· == colon) = tag.findIdx? (· == colon) := by
    rw [AsciiFold.fold, List.findIdx?_map]
    congr 1
    funext c
    rw [Function.comp_apply, Bool.eq_iff_iff, beq_iff_eq, beq_iff_eq]
    exact lower_eq_colon_iff
  rw [tagCategoryPrefix, tagCategoryPrefix, hidx, AsciiFold.length_fold]
  cases tag.findIdx? (· == colon) with
  | none => rfl
  | some i =>
    dsimp only
    split_ifs
    · rfl
    · exact List.map_take

/-! ## The renaming -/

section Rename

variable {oldName newName tag : Bytes}

/-- The tags a renaming has no objection to. -/
def Recategorisable (oldName newName tag : Bytes) : Prop :=
  ∃ next, categoryReplacement oldName newName tag = .ok next

/-- A tag of the category gets the new name before its colon. -/
theorem recategorisedTag_of_mem (hold : oldName ≠ []) (ht : Recategorisable oldName newName tag)
    (hcat : AsciiFold.fold (tagCategoryPrefix tag) = AsciiFold.fold oldName) :
    ∃ rest, rest ≠ [] ∧ tag = tagCategoryPrefix tag ++ colon :: rest ∧
      recategorisedTag oldName newName tag = newName ++ colon :: rest := by
  have hne : tagCategoryPrefix tag ≠ [] := by
    intro hnil
    rw [hnil, AsciiFold.fold_nil] at hcat
    exact hold (AsciiFold.fold_eq_nil_iff.mp hcat.symm)
  obtain ⟨rest, hrest, htag⟩ := exists_eq_tagCategoryPrefix_append hne
  refine ⟨rest, hrest, htag, ?_⟩
  have hlen : oldName.length = (tagCategoryPrefix tag).length := by
    rw [← AsciiFold.length_fold, ← hcat, AsciiFold.length_fold]
  have hdrop : tag.drop oldName.length = colon :: rest := by
    conv_lhs => rw [htag, hlen]
    exact List.drop_left
  obtain ⟨next, hnext⟩ := ht
  rw [recategorisedTag, hnext]
  rw [categoryReplacement, if_pos ((decides_tagCiEqual _ _).mpr hcat)] at hnext
  split_ifs at hnext
  cases hnext
  rw [← hdrop]

/-- Other tags stay, and are not in the new category either. -/
theorem recategorisedTag_of_not_mem (ht : Recategorisable oldName newName tag)
    (hcat : AsciiFold.fold (tagCategoryPrefix tag) ≠ AsciiFold.fold oldName) :
    recategorisedTag oldName newName tag = tag ∧
      AsciiFold.fold (tagCategoryPrefix tag) ≠ AsciiFold.fold newName := by
  obtain ⟨next, hnext⟩ := ht
  rw [recategorisedTag, hnext]
  rw [categoryReplacement, if_neg fun h ↦ hcat ((decides_tagCiEqual _ _).mp h)] at hnext
  split_ifs at hnext with hnew
  cases hnext
  exact ⟨rfl, fun h ↦ hnew ((decides_tagCiEqual _ _).mpr h)⟩

/-- Renaming a category keeps apart what differs, and together what agrees. -/
theorem respects_recategorisedTag (hold : oldName ≠ []) (hnew : newName ≠ [])
    (hcolon : colon ∉ newName) :
    KeyedUnion.Respects tagCiEqual (Recategorisable oldName newName)
      (recategorisedTag oldName newName) := by
  -- A tag of the category, renamed, is in the new category; a tag outside it is not.
  have hmoved : ∀ {rest : Bytes}, rest ≠ [] →
      AsciiFold.fold (tagCategoryPrefix (newName ++ colon :: rest)) = AsciiFold.fold newName :=
    fun hrest ↦ by rw [tagCategoryPrefix_append hcolon hnew hrest]
  have hcongr : ∀ {s t : Bytes}, AsciiFold.fold s = AsciiFold.fold t →
      AsciiFold.fold (tagCategoryPrefix s) = AsciiFold.fold (tagCategoryPrefix t) := by
    intro s t h
    rw [fold_tagCategoryPrefix, fold_tagCategoryPrefix, h]
  intro a b ha hb
  rw [Bool.eq_iff_iff, tagCiEqual, AsciiFold.equal_iff, tagCiEqual, AsciiFold.equal_iff]
  by_cases hao : AsciiFold.fold (tagCategoryPrefix a) = AsciiFold.fold oldName
  · obtain ⟨ra, hra, hta, hna⟩ := recategorisedTag_of_mem hold ha hao
    by_cases hbo : AsciiFold.fold (tagCategoryPrefix b) = AsciiFold.fold oldName
    · obtain ⟨rb, hrb, htb, hnb⟩ := recategorisedTag_of_mem hold hb hbo
      rw [hna, hnb, AsciiFold.fold_append, AsciiFold.fold_append, List.append_right_inj]
      conv_rhs => rw [hta, htb, AsciiFold.fold_append, AsciiFold.fold_append, hao, hbo,
        List.append_right_inj]
    · obtain ⟨hnb, hbn⟩ := recategorisedTag_of_not_mem hb hbo
      rw [hna, hnb]
      constructor
      · intro h
        exact absurd ((hcongr h).symm.trans (hmoved hra)) hbn
      · intro h
        exact absurd ((hcongr h).symm.trans hao) hbo
  · obtain ⟨hna, han⟩ := recategorisedTag_of_not_mem ha hao
    by_cases hbo : AsciiFold.fold (tagCategoryPrefix b) = AsciiFold.fold oldName
    · obtain ⟨rb, hrb, htb, hnb⟩ := recategorisedTag_of_mem hold hb hbo
      rw [hna, hnb]
      constructor
      · intro h
        exact absurd ((hcongr h).trans (hmoved hrb)) han
      · intro h
        exact absurd ((hcongr h).trans hbo) hao
    · rw [hna, (recategorisedTag_of_not_mem hb hbo).1]

/-- The plan is carried out only when there was no objection to any reference. -/
theorem recategorisable_of_categoryRenameStatus {references : List Bytes}
    (h : categoryRenameStatus oldName newName references = .ok) :
    ∀ t ∈ references, Recategorisable oldName newName t := by
  suffices hgen : ∀ (refs : List Bytes) (status : VaultResult),
      refs.foldl (fun status tag ↦
        match categoryReplacement oldName newName tag with
        | .error r => r
        | .ok _ => status) status = .ok →
      status = .ok ∧ ∀ t ∈ refs, Recategorisable oldName newName t from (hgen _ _ h).2
  intro refs
  induction refs with
  | nil => exact fun status h ↦ ⟨h, fun t ht ↦ absurd ht List.not_mem_nil⟩
  | cons t refs ih =>
    intro status h
    obtain ⟨hstatus, hrefs⟩ := ih _ h
    dsimp only at hstatus
    cases hnext : categoryReplacement oldName newName t with
    | error r =>
      -- An objection is never `ok`.
      rw [hnext] at hstatus
      obtain rfl : r = .ok := hstatus
      rw [categoryReplacement] at hnext
      split_ifs at hnext <;> cases hnext
    | ok next =>
      rw [hnext] at hstatus
      exact ⟨hstatus, List.forall_mem_cons.mpr ⟨⟨next, hnext⟩, hrefs⟩⟩

end Rename

end SafeVault
