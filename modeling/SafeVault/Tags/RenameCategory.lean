import SafeVault.Search.RenamedQuery
import SafeVault.Tags.Operations

/-!
# What a renaming of a category does

The plan is made over every tag of the live state, the terms of saved queries included, and it is
given up at a single tag that is in the new category already. So a renaming that is carried out never
meets its target: tags stay as many as they were, and whatever is stored under a tag is found under
its new spelling.

A category that is spelled as asked ends the call before any tag is looked at.
-/

namespace SafeVault

open AsciiFold (fold)

variable {μ : Type}

/-- `find_tag_field_value`. -/
def findTagFieldValue (settings : VaultSettings) (tag field : Bytes) : Bytes :=
  match settings.tagFieldValues.find? fun e ↦
      categoryNameEq e.tag tag && categoryNameEq e.field field with
  | some e => e.value
  | none => []

namespace Vault

/-- `rename_tag_category`, its renaming of the queries included. -/
def renameCategory (oldName newName : Bytes) (outcome : VaultResult) (v : Vault μ) :
    VaultResult × Vault μ :=
  v.renameTagCategory oldName newName
    (prepareCategoryQueries (normaliseTag oldName) (normaliseTag newName)) outcome

/-- Every tag of the live state, the terms of saved queries included. -/
def storedTags (v : Vault μ) : List Bytes :=
  v.tagReferences ++ v.searches.flatMap fun s ↦
    match deserializeQuery s.query with
    | some q => q.terms
    | none => []

/-- The first category of a name is respelled. -/
def respellCategory (i : ℕ) (newName : Bytes) (v : Vault μ) : Vault μ :=
  { v with settings := { v.settings with
    categories := v.settings.categories.modify i ({ · with name := newName }) } }

/-- What a renaming of a category that was carried out has done. -/
structure CategoryRenamed (oldName newName : Bytes) (v v' : Vault μ) : Prop where
  /-- A tag of the category has the new name before its colon; other tags are as they were. -/
  respelled : ∀ t ∈ v.storedTags,
    if fold (tagCategoryPrefix t) = fold oldName then
      ∃ rest, rest ≠ [] ∧ t = tagCategoryPrefix t ++ colon :: rest ∧
        recategorisedTag oldName newName t = newName ++ colon :: rest
    else recategorisedTag oldName newName t = t
  /-- Every tag is respelled, and nothing else is changed but the name of one category. -/
  live : ∃ i searches,
    v.settings.categories.findIdx? (tagCiEqual ·.name oldName) = some i ∧
    List.Forall₂ (SavedSearch.Respelled (recategorisedTag oldName newName)
      fun t ↦ tagCiEqual (tagCategoryPrefix t) oldName = true) v.searches searches ∧
    v'.live = ((v.renameTags (recategorisedTag oldName newName) searches).respellCategory i
      newName).live
  /-- Different tags stay different. -/
  apart : ∀ a ∈ v.storedTags, ∀ b ∈ v.storedTags,
    tagCiEqual (recategorisedTag oldName newName a) (recategorisedTag oldName newName b) =
      tagCiEqual a b
  /-- No tag was in the new category, unless that is the old one. -/
  fresh : ∀ t ∈ v.storedTags, fold (tagCategoryPrefix t) = fold newName → fold oldName = fold newName
  template : ∀ t ∈ v.storedTags,
    categoryTemplate v'.settings (tagCategoryPrefix (recategorisedTag oldName newName t)) =
      categoryTemplate v.settings (tagCategoryPrefix t)
  fieldValue : ∀ t ∈ v.storedTags, ∀ field,
    findTagFieldValue v'.settings (recategorisedTag oldName newName t) field =
      findTagFieldValue v.settings t field

variable {v : Vault μ}

theorem mem_storedTags {t : Bytes} : t ∈ v.storedTags ↔ t ∈ v.tagReferences ∨
    ∃ s ∈ v.searches, ∃ q, deserializeQuery s.query = some q ∧ t ∈ q.terms := by
  rw [storedTags, List.mem_append, List.mem_flatMap]
  refine or_congr_right (exists_congr fun s ↦ and_congr_right fun _ ↦ ?_)
  rcases deserializeQuery s.query with _ | q <;> simp

end Vault

/-! ## What is stored under a tag -/

section Template

variable {settings : VaultSettings} {oldName newName p : Bytes} {i : ℕ}

/-- The categories before and after the one that is renamed. -/
theorem exists_split_of_findIdx?
    (hfind : settings.categories.findIdx? (tagCiEqual ·.name oldName) = some i)
    (hfree : (settings.categories.zipIdx.any fun p ↦ p.2 != i && tagCiEqual p.1.name newName) =
      false) :
    ∃ front c back, settings.categories = front ++ c :: back ∧ fold c.name = fold oldName ∧
      (∀ d ∈ front, fold d.name ≠ fold oldName) ∧
      (∀ d ∈ front ++ back, fold d.name ≠ fold newName) ∧
      settings.categories.modify i ({ · with name := newName }) =
        front ++ { c with name := newName } :: back := by
  obtain ⟨hi, hold, hbefore⟩ := List.findIdx?_eq_some_iff_getElem.mp hfind
  have hother : ∀ j (hj : j < settings.categories.length), j ≠ i →
      fold settings.categories[j].name ≠ fold newName := by
    intro j hj hne heq
    rw [List.any_eq_false] at hfree
    refine hfree (settings.categories[j], j) ?_ ?_
    · rw [List.mem_zipIdx_iff_getElem?]
      exact List.getElem?_eq_getElem hj
    · rw [Bool.and_eq_true, bne_iff_ne]
      exact ⟨hne, (decides_tagCiEqual _ _).mpr heq⟩
  refine ⟨settings.categories.take i, settings.categories[i], settings.categories.drop (i + 1),
    by simp, (decides_tagCiEqual _ _).mp hold, fun d hd ↦ ?_, fun d hd ↦ ?_,
    List.modify_eq_take_cons_drop hi⟩
  · obtain ⟨j, hj, rfl⟩ := List.mem_take_iff_getElem.mp hd
    intro heq
    exact absurd ((decides_tagCiEqual _ _).mpr heq) (by simpa using hbefore j (by omega))
  · rcases List.mem_append.mp hd with hd | hd
    · obtain ⟨j, hj, rfl⟩ := List.mem_take_iff_getElem.mp hd
      exact hother j (by omega) (by omega)
    · obtain ⟨j, hj, rfl⟩ := List.mem_drop_iff_getElem.mp hd
      exact hother _ (by omega) (by omega)

theorem find?_eq_none_of_fold_ne {l : List TagCategory} (h : ∀ d ∈ l, fold d.name ≠ fold p) :
    (l.find? fun c ↦ categoryNameEq c.name p) = none :=
  List.find?_eq_none.mpr fun d hd heq ↦ h d hd ((decides_tagCiEqual _ _).mp heq)

/-- The template is found under the new name, and no other one is disturbed. -/
theorem categoryTemplate_modify
    (hfind : settings.categories.findIdx? (tagCiEqual ·.name oldName) = some i)
    (hfree : (settings.categories.zipIdx.any fun p ↦ p.2 != i && tagCiEqual p.1.name newName) =
      false) {settings' : VaultSettings}
    (hsettings : settings'.categories =
      settings.categories.modify i ({ · with name := newName })) :
    (∀ q, fold p = fold oldName → fold q = fold newName →
      categoryTemplate settings' q = categoryTemplate settings p) ∧
    (fold p ≠ fold oldName → fold p ≠ fold newName →
      categoryTemplate settings' p = categoryTemplate settings p) := by
  obtain ⟨front, c, back, hsplit, hc, hold, hnew, hmodify⟩ := exists_split_of_findIdx? hfind hfree
  constructor
  · intro q hp hq
    have hfront : (front.find? fun c ↦ categoryNameEq c.name q) = none :=
      find?_eq_none_of_fold_ne fun d hd ↦ hq ▸ hnew d (List.mem_append_left _ hd)
    have hfront' : (front.find? fun c ↦ categoryNameEq c.name p) = none :=
      find?_eq_none_of_fold_ne fun d hd ↦ hp ▸ hold d hd
    have hhit : ((({ c with name := newName } : TagCategory) :: back).find? fun c ↦
        categoryNameEq c.name q) = some { c with name := newName } :=
      List.find?_cons_of_pos ((decides_tagCiEqual _ _).mpr hq.symm)
    have hhit' : ((c :: back).find? fun c ↦ categoryNameEq c.name p) = some c :=
      List.find?_cons_of_pos ((decides_tagCiEqual _ _).mpr (hc.trans hp.symm))
    rw [categoryTemplate, categoryTemplate, hsettings, hmodify, hsplit, List.find?_append, hfront,
      List.find?_append, hfront', hhit, hhit']
    rfl
  · intro hpold hpnew
    have hmiss : ((({ c with name := newName } : TagCategory) :: back).find? fun c ↦
        categoryNameEq c.name p) = back.find? fun c ↦ categoryNameEq c.name p :=
      List.find?_cons_of_neg fun h ↦ hpnew ((decides_tagCiEqual _ _).mp h).symm
    have hmiss' : ((c :: back).find? fun c ↦ categoryNameEq c.name p) =
        back.find? fun c ↦ categoryNameEq c.name p :=
      List.find?_cons_of_neg fun h ↦ hpold (hc ▸ ((decides_tagCiEqual _ _).mp h).symm)
    rw [categoryTemplate, categoryTemplate, hsettings, hmodify, hsplit, List.find?_append,
      List.find?_append, hmiss, hmiss']

end Template

/-- A respelling that keeps tags apart takes the field values along. -/
theorem findTagFieldValue_map {settings settings' : VaultSettings} {f : Bytes → Bytes} {t : Bytes}
    (hsettings : settings'.tagFieldValues =
      settings.tagFieldValues.map fun x ↦ { x with tag := f x.tag })
    (hapart : ∀ x ∈ settings.tagFieldValues, tagCiEqual (f x.tag) (f t) = tagCiEqual x.tag t)
    (field : Bytes) : findTagFieldValue settings' (f t) field = findTagFieldValue settings t field := by
  have hfind : (settings'.tagFieldValues.find? fun e ↦
      categoryNameEq e.tag (f t) && categoryNameEq e.field field) =
      (settings.tagFieldValues.find? fun e ↦
        categoryNameEq e.tag t && categoryNameEq e.field field).map
          fun x ↦ { x with tag := f x.tag } := by
    rw [hsettings, List.find?_map, ← List.head?_filter, ← List.head?_filter]
    refine congrArg _ (congrArg _ (List.filter_congr fun x hx ↦ ?_))
    rw [Function.comp_apply]
    exact congrArg (· && categoryNameEq x.field field) (hapart x hx)
  rw [findTagFieldValue, hfind, findTagFieldValue]
  rcases settings.tagFieldValues.find? _ with _ | e <;> rfl

/-! ## The renaming -/

namespace Vault

variable {v : Vault μ} {oldName newName : Bytes} {i : ℕ} {searches : List SavedSearch}

/-- What the plan establishes when it is accepted, in terms of the state it was made for. -/
theorem categoryRenamed_of_accepted {v' : Vault μ} (hold : oldName ≠ []) (hnew : newName ≠ [])
    (hcolon : colon ∉ newName)
    (hfind : v.settings.categories.findIdx? (tagCiEqual ·.name oldName) = some i)
    (hfree : (v.settings.categories.zipIdx.any fun p ↦ p.2 != i && tagCiEqual p.1.name newName) =
      false)
    (hstatus : categoryRenameStatus oldName newName v.tagReferences = .ok)
    (hsearches : prepareCategoryQueries oldName newName v.searches = .ok searches)
    (hlive : v'.live = ((v.renameTags (recategorisedTag oldName newName) searches).respellCategory i
      newName).live) : CategoryRenamed oldName newName v v' := by
  obtain ⟨hdecoded, hrespelled⟩ := respelled_of_prepareCategoryQueries hsearches
  have hall : ∀ t ∈ v.storedTags, Recategorisable oldName newName t := by
    intro t ht
    rcases mem_storedTags.mp ht with ht | ⟨s, hs, q, hq, ht⟩
    · exact recategorisable_of_categoryRenameStatus hstatus t ht
    · obtain ⟨r, hr, hterms⟩ := hdecoded s hs
      obtain rfl : q = r := Option.some.inj (hq.symm.trans hr)
      exact hterms t ht
  have hapart : ∀ a ∈ v.storedTags, ∀ b ∈ v.storedTags,
      tagCiEqual (recategorisedTag oldName newName a) (recategorisedTag oldName newName b) =
        tagCiEqual a b := fun a ha b hb ↦
    respects_recategorisedTag hold hnew hcolon a b (hall a ha) (hall b hb)
  have hsettings : v'.settings =
      ((v.renameTags (recategorisedTag oldName newName) searches).respellCategory i
        newName).settings := congrArg Snapshot.settings hlive
  refine ⟨fun t ht ↦ ?_, ⟨i, searches, hfind, hrespelled, hlive⟩, hapart, fun t ht heq ↦ ?_,
    fun t ht ↦ ?_, fun t ht field ↦ ?_⟩
  · split_ifs with hmem
    · exact recategorisedTag_of_mem hold (hall t ht) hmem
    · exact (recategorisedTag_of_not_mem (hall t ht) hmem).1
  · by_contra hne
    have hmem : fold (tagCategoryPrefix t) ≠ fold oldName := fun h ↦ hne (h.symm.trans heq)
    exact (recategorisedTag_of_not_mem (hall t ht) hmem).2 heq
  · have htemplate := @categoryTemplate_modify _ _ _ (tagCategoryPrefix t) _ hfind hfree v'.settings
      (by rw [hsettings]; rfl)
    by_cases hmem : fold (tagCategoryPrefix t) = fold oldName
    · obtain ⟨rest, hrest, -, hnext⟩ := recategorisedTag_of_mem hold (hall t ht) hmem
      refine htemplate.1 _ hmem ?_
      rw [hnext, tagCategoryPrefix_append hcolon hnew hrest]
    · obtain ⟨hsame, hother⟩ := recategorisedTag_of_not_mem (hall t ht) hmem
      rw [hsame]
      exact htemplate.2 hmem hother
  · refine findTagFieldValue_map (by rw [hsettings]; rfl) (fun x hx ↦ ?_) field
    have hstored : x.tag ∈ v.storedTags := mem_storedTags.mpr
      (.inl (List.mem_append_right _ (List.mem_map_of_mem hx)))
    exact hapart x.tag hstored t ht

/-- Either nothing happens, or the plan is accepted and committed. -/
theorem renameCategory_cases {oldName newName : Bytes} {outcome : VaultResult}
    {out : VaultResult × Vault μ} (hout : v.renameCategory oldName newName outcome = out) :
    let old := normaliseTag oldName
    let new := normaliseTag newName
    (out.2 = v ∧ (out.1 = .ok →
      (v.settings.categories.find? (tagCiEqual ·.name old)).map (·.name) = some new)) ∨
    ((∀ s ∈ v.searches, ∃ q, deserializeQuery s.query = some q) ∧
      CategoryRenamed old new v out.2 ∧ out.1 = .ok ∧ out.2.committed = out.2.live) := by
  intro old new
  -- What ends the call before the commit.
  have hrefused : ∀ {r}, (r, v) = out → r ≠ .ok → (out.2 = v ∧ (out.1 = .ok →
      (v.settings.categories.find? (tagCiEqual ·.name old)).map (·.name) = some new)) := by
    rintro r rfl hr
    exact ⟨rfl, fun h ↦ absurd h hr⟩
  unfold renameCategory renameTagCategory planRenameTagCategory at hout
  dsimp only at hout
  change v.carryOut outcome (if v.writable ≠ .ok then _ else if _ then _ else _) = out at hout
  by_cases hwritable : v.writable ≠ .ok
  · rw [if_pos hwritable] at hout
    exact .inl (hrefused hout hwritable)
  rw [if_neg hwritable] at hout
  by_cases hnames : (old.isEmpty || new.isEmpty || decide (indexMaxCategoryBytes < new.length) ||
      new.contains colon || new.contains 0) = true
  · rw [if_pos hnames] at hout
    exact .inl (hrefused hout nofun)
  rw [if_neg hnames] at hout
  rcases hfind : v.settings.categories.findIdx? (tagCiEqual ·.name old) with _ | i
  · rw [hfind] at hout
    exact .inl (hrefused hout nofun)
  rw [hfind] at hout
  dsimp only at hout
  by_cases hnamed : (v.settings.categories[i]?.map (·.name) == some new) = true
  · rw [if_pos hnamed] at hout
    subst hout
    refine .inl ⟨rfl, fun _ ↦ ?_⟩
    rw [← eq_of_beq hnamed, List.find?_eq_bind_findIdx?_getElem?, hfind]
    rfl
  rw [if_neg hnamed] at hout
  by_cases hfree : (v.settings.categories.zipIdx.any fun p ↦ p.2 != i && tagCiEqual p.1.name new) =
      true
  · rw [if_pos hfree] at hout
    exact .inl (hrefused hout nofun)
  rw [if_neg hfree] at hout
  by_cases hstatus : categoryRenameStatus old new v.tagReferences ≠ .ok
  · rw [if_pos hstatus] at hout
    exact .inl (hrefused hout hstatus)
  rw [if_neg hstatus] at hout
  rcases hsearches : prepareCategoryQueries old new v.searches with r | searches
  · rw [hsearches] at hout
    exact .inl (hrefused hout (ne_ok_of_prepareCategoryQueries hsearches))
  rw [hsearches] at hout
  simp only [Bool.or_eq_true, List.isEmpty_iff, decide_eq_true_eq, not_or,
    List.contains_iff_mem] at hnames
  obtain ⟨⟨⟨⟨hold, hnew⟩, -⟩, hcolon⟩, -⟩ := hnames
  rcases transact_cases outcome v
    ((v.renameTags (recategorisedTag old new) searches).respellCategory i new) with
    ⟨hok, hdone⟩ | ⟨hfailed, hundone⟩
  · have hdone' : out.2 = _ := (congrArg Prod.snd hout.symm).trans hdone
    refine .inr ⟨?_, ?_, (congrArg Prod.fst hout.symm).trans hok, ?_⟩
    · intro s hs
      obtain ⟨q, hq, -⟩ := (respelled_of_prepareCategoryQueries hsearches).1 s hs
      exact ⟨q, hq⟩
    · refine categoryRenamed_of_accepted hold hnew hcolon hfind (by simpa using hfree)
        (not_not.mp hstatus) hsearches ?_
      rw [hdone']
      rfl
    · rw [hdone']
      rfl
  · exact .inl ⟨(congrArg Prod.snd hout.symm).trans hundone, fun h ↦
      absurd ((congrArg Prod.fst hout).trans h) hfailed⟩

/-- **Renaming a category.** A call that does not succeed, or meets a saved query it cannot decode,
leaves everything as it was. A call that succeeds either finds the category spelled as asked, and
then it changes nothing; or it respells exactly the tags of the category, everywhere, keeping
different tags apart, and moves the template and the field values along. It is refused when a tag is
in the new category already. -/
theorem renameCategory_exact (oldName newName : Bytes) (outcome : VaultResult) (v : Vault μ) :
    let old := normaliseTag oldName
    let new := normaliseTag newName
    let out := v.renameCategory oldName newName outcome
    (out.1 ≠ .ok → out.2 = v) ∧
    ((∃ s ∈ v.searches, deserializeQuery s.query = none) → out.2 = v) ∧
    (out.1 = .ok →
      ((v.settings.categories.find? (tagCiEqual ·.name old)).map (·.name) = some new ∧ out.2 = v) ∨
        (CategoryRenamed old new v out.2 ∧ out.2.committed = out.2.live)) ∧
    ((∃ t ∈ v.storedTags, fold (tagCategoryPrefix t) = fold new) → fold old ≠ fold new →
      out.2 = v) := by
  intro old new out
  rcases renameCategory_cases (show _ = out from rfl) with
    ⟨hsame, hnamed⟩ | ⟨hdecoded, hrenamed, hok, hcommitted⟩
  · exact ⟨fun _ ↦ hsame, fun _ ↦ hsame, fun h ↦ .inl ⟨hnamed h, hsame⟩, fun _ _ ↦ hsame⟩
  · refine ⟨fun h ↦ absurd hok h, ?_, fun _ ↦ .inr ⟨hrenamed, hcommitted⟩, ?_⟩
    · rintro ⟨s, hs, hnone⟩
      obtain ⟨q, hq⟩ := hdecoded s hs
      exact absurd (hnone.symm.trans hq) nofun
    · rintro ⟨t, ht, heq⟩ hne
      exact absurd (hrenamed.fresh t ht heq) hne

/-- A category in capitals keeps a tag in small letters when it is renamed to what it is called; and
a category with a tag of the same rest in the target is not merged with it, but refused. -/
theorem renameCategory_keeps_spelling :
    let vault (category : Bytes) (tags : List Bytes) : Vault Unit :=
      let root : Node Unit := .branch { name := [], tags } []
      let settings : VaultSettings := { categories := [⟨category, 0, []⟩] }
      ⟨true, true, false, root, settings, [], ⟨root, settings, []⟩⟩
    (let v := vault [65] [[97, 58, 120]]
      let out := v.renameCategory [97] [65] .ok
      out.1 = .ok ∧ tagCiEqual (tagCategoryPrefix [97, 58, 120]) [97] = true ∧
        recategorisedTag [97] [65] [97, 58, 120] = [65, 58, 120] ∧
        out.2.storedTags = [[97, 58, 120]]) ∧
    (let v := vault [97] [[97, 58, 120], [98, 58, 120]]
      let out := v.renameCategory [97] [98] .ok
      recategorisedTag [97] [98] [97, 58, 120] = [98, 58, 120] ∧
        out.1 = .alreadyExists ∧ out.2.storedTags = v.storedTags) := by
  decide +kernel

end Vault

end SafeVault
