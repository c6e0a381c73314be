import SafeVault.Lib.History
import SafeVault.V3.SettingsEdits

/-!
# Storing edited settings

An edit of the settings is stored by `set_vault_settings`, which puts the settings in place and
commits. When the commit fails, the settings stay, and as every later commit writes them as well, it
fails for the same reason. The two renaming operations undo their edit instead.

So what matters is that settings that cannot be stored never get in place. As long as every edit that
is stored fits, none do: each call is refused or committed, and the settings are never what a later
commit fails for.
-/

namespace SafeVault

namespace Vault

variable {μ : Type} {oldTag newTag : Bytes}
  {rewrite : List SavedSearch → Except VaultResult (List SavedSearch)} {v edited : Vault μ}

/-! ## The settings of a plan -/

/-- Other spellings of the tags and of category names, different where they were. -/
structure Respelled (s s' : VaultSettings) : Prop where
  descriptions : (s.tagDescriptions.map V3.descriptionKey).Nodup →
    (s'.tagDescriptions.map V3.descriptionKey).Nodup
  values : (s.tagFieldValues.map V3.valueKey).Nodup → (s'.tagFieldValues.map V3.valueKey).Nodup
  valueCount : s'.tagFieldValues.length = s.tagFieldValues.length
  fields : s'.categories.map (·.fields) = s.categories.map (·.fields)

theorem map_fields_modify {categories : List TagCategory} {i : ℕ} {name : Bytes} :
    (categories.modify i ({ · with name })).map (·.fields) = categories.map (·.fields) := by
  refine List.ext_getElem? fun j ↦ ?_
  rw [List.getElem?_map, List.getElem?_map, List.getElem?_modify]
  rcases categories[j]? with _ | c
  · rfl
  · rw [Option.map_eq_map, Option.map_some]
    split_ifs <;> rfl

theorem respelled_renameTags {P : Bytes → Prop} {f : Bytes → Bytes} {categories : List TagCategory}
    (searches : List SavedSearch) (hf : KeyedUnion.Respects tagCiEqual P f)
    (hP : ∀ t ∈ v.tagReferences, P t)
    (hfields : categories.map (·.fields) = v.settings.categories.map (·.fields)) :
    Respelled v.settings { (v.renameTags f searches).settings with categories } := by
  have hfold {t u : Bytes} (ht : t ∈ v.tagReferences) (hu : u ∈ v.tagReferences) :
      AsciiFold.fold (f t) = AsciiFold.fold (f u) ↔ AsciiFold.fold t = AsciiFold.fold u := by
    rw [← V3.tagCiEqual_iff, ← V3.tagCiEqual_iff, hf t u (hP t ht) (hP u hu)]
  have hd {d : TagDescription} (h : d ∈ v.settings.tagDescriptions) : d.tag ∈ v.tagReferences :=
    List.mem_append_left _ (List.mem_append_right _ (List.mem_map_of_mem h))
  have hx {x : TagFieldValue} (h : x ∈ v.settings.tagFieldValues) : x.tag ∈ v.tagReferences :=
    List.mem_append_right _ (List.mem_map_of_mem h)
  refine ⟨fun h ↦ ?_, fun h ↦ ?_, List.length_map _, hfields⟩
  · rw [List.Nodup, List.pairwise_map] at h
    rw [List.Nodup, List.pairwise_map]
    refine List.pairwise_map.mpr (h.imp_of_mem fun {d e} hmd hme hne heq ↦ hne ?_)
    exact (hfold (hd hmd) (hd hme)).mp heq
  · rw [List.Nodup, List.pairwise_map] at h
    rw [List.Nodup, List.pairwise_map]
    refine List.pairwise_map.mpr (h.imp_of_mem fun {x y} hmx hmy hne heq ↦ hne ?_)
    obtain ⟨htag, hfield⟩ := Prod.mk.inj heq
    exact Prod.ext ((hfold (hx hmx) (hx hmy)).mp htag) hfield

theorem respelled_of_planRenameTag (h : v.planRenameTag oldTag newTag rewrite = .ok (some edited)) :
    Respelled v.settings edited.settings := by
  obtain ⟨hcollision, searches, rfl⟩ := of_planRenameTag h
  exact respelled_renameTags searches (TagsKept.respects_renamedTag _ _) hcollision rfl

theorem respelled_of_planRenameTagCategory
    (h : v.planRenameTagCategory oldTag newTag rewrite = .ok (some edited)) :
    Respelled v.settings edited.settings := by
  obtain ⟨hold, hnew, hcolon, hstatus, i, searches, _, rfl, rfl⟩ := of_planRenameTagCategory h
  exact respelled_renameTags searches (respects_recategorisedTag hold hnew hcolon)
    (recategorisable_of_categoryRenameStatus hstatus) map_fields_modify

end Vault

namespace V3

/-! ## The calls -/

namespace OpenVault

/-- The vault without what the database knows of it. -/
def toVault (v : OpenVault) : Vault Media :=
  { unlocked := v.unlocked
    v3 := true
    legacyReadOnly := v.legacyReadOnly
    root := v.root
    settings := v.settings
    searches := v.searches
    committed := ⟨v.session.root, v.session.settings, v.session.searches⟩ }

/-- Live state of a vault put in place of this one's. -/
def withLive (edited : Vault Media) (v : OpenVault) : OpenVault :=
  { v with root := edited.root, settings := edited.settings, searches := edited.searches }

/-- The end of a planned operation: a commit, undone if it fails. -/
def carryOut (nocase : Bytes → Bytes → Bool) (storage : Storage) (v : OpenVault)
    (plan : Except VaultResult (Option (Vault Media))) : VaultResult × OpenVault :=
  match plan with
  | .error r => (r, v)
  | .ok none => (.ok, v)
  | .ok (some edited) =>
    let out := commitIndex nocase storage (v.withLive edited)
    (out.1, if out.1 = .ok then out.2 else out.2.withLive v.toVault)

end OpenVault

section Calls

variable (nocase : Bytes → Bytes → Bool) (storage : Storage)

/-- `set_vault_settings`. -/
def setVaultSettings (settings : VaultSettings) (v : OpenVault) : VaultResult × OpenVault :=
  if !v.unlocked then (.locked, v)
  else if v.legacyReadOnly then (.invalidArg, v)
  else OpenVault.commitIndex nocase storage { v with settings }

end Calls

inductive SettingsAction
  | store (edit : SettingsEdit)
  | renameTag (oldTag newTag : Bytes)
      (rewrite : List SavedSearch → Except VaultResult (List SavedSearch))
  | renameTagCategory (oldName newName : Bytes)
      (rewrite : List SavedSearch → Except VaultResult (List SavedSearch))

/-- A call, with what the outside world answers to its commit. -/
structure SettingsCall where
  action : SettingsAction
  storage : Storage

/-- Whether the call succeeds, and the vault after it. An edit that refuses is not stored. -/
def SettingsCall.apply (nocase : Bytes → Bytes → Bool) (c : SettingsCall) (v : OpenVault) :
    Bool × OpenVault :=
  match c.action with
  | .store edit =>
    match edit.edited v.settings with
    | none => (false, v)
    | some settings =>
      let out := setVaultSettings nocase c.storage settings v
      (out.1 = .ok, out.2)
  | .renameTag oldTag newTag rewrite =>
    let out := v.carryOut nocase c.storage (v.toVault.planRenameTag oldTag newTag rewrite)
    (out.1 = .ok, out.2)
  | .renameTagCategory oldName newName rewrite =>
    let out := v.carryOut nocase c.storage (v.toVault.planRenameTagCategory oldName newName rewrite)
    (out.1 = .ok, out.2)

/-- A call that renames, one that is refused before it edits or edits nothing, or one whose edit fits
while the vault as it is could be committed. -/
def SettingsCall.Accepted (nocase : Bytes → Bytes → Bool) (v : OpenVault) (c : SettingsCall) : Prop :=
  match c.action with
  | .store edit => v.writable ≠ .ok ∨ edit.edited v.settings = none ∨
      edit.edited v.settings = some v.settings ∨ (v.commitIndex nocase c.storage).1 = .ok ∧ edit.Fits nocase v.root v.settings
  | _ => True

/-- A call is refused and leaves the settings, or it is committed, or there was nothing to do. -/
def Settled (v : OpenVault) (out : Bool × OpenVault) : Prop :=
  (out.1 = false ∧ out.2.settings = v.settings) ∨
    (out.1 = true ∧ (out.2.session.settings = out.2.settings ∨ out.2 = v))

/-- No commit fails for these settings: whatever else has become of the vault, if it could be
committed with bundles as its only settings, and its tags go together, it can be committed. -/
def NeverInTheWay (nocase : Bytes → Bytes → Bool) (s : VaultSettings) : Prop :=
  ∀ (storage : Storage) (v : OpenVault), v.settings = s → StorableTags nocase (tagRefs v.root s) →
    (OpenVault.commitIndex nocase storage
      { v with settings := { tagBundles := s.tagBundles } }).1 = .ok →
    (v.commitIndex nocase storage).1 = .ok

variable {nocase : Bytes → Bytes → Bool} {storage : Storage} {v w : OpenVault} {c : SettingsCall}
  {s : VaultSettings}

theorem neverInTheWay_of_storable (hc : Collates nocase) (hs : StorableSettings nocase s) :
    NeverInTheWay nocase s := by
  rintro storage v rfl htags h
  exact commitIndex_of_commitIndex
    (v := { v with settings := { tagBundles := v.settings.tagBundles } }) hc h rfl htags hs

/-- A commit that went through has the settings. -/
theorem session_settings_of_commitIndex (h : (v.commitIndex nocase storage).1 = .ok) :
    (v.commitIndex nocase storage).2.session.settings = v.settings := by
  rw [OpenVault.commitIndex, mapV3ReadStatus_eq_ok_iff] at h
  rcases commitMetadata_cases nocase storage.status storage.references v.root v.settings v.searches
    v.session with ⟨hr, -⟩ | ⟨hr, -⟩ | ⟨-, -, -, db, -, hout⟩
  · exact absurd h hr
  · exact absurd h hr
  · rw [OpenVault.commitIndex, show _ = _ from hout, ReadSession.rebuild]

/-! ## What a call does -/

/-- An edit that fits leaves settings that can be committed where the old ones can. -/
theorem storesLike_edited {μ : Type} {root : Node μ} {s s' : VaultSettings} {e : SettingsEdit}
    (hc : Collates nocase) (hs : StorableSettings nocase s)
    (htags : StorableTags nocase (tagRefs root s)) (hfit : e.Fits nocase root s)
    (h : e.edited s = some s') : StoresLike nocase root s s' := by
  rcases e with ⟨tag, text⟩ | ⟨category, fields⟩ | ⟨tag, field, text⟩ | ⟨category, old, new⟩ |
    ⟨category, field⟩ | row
  · exact Option.some.inj h ▸ storesLike_describe hc hs htags hfit
  · rw [SettingsEdit.edited, setCategoryTemplate] at h
    rcases hfound : findCategory s category with _ | c
    · rw [hfound] at h
      exact nomatch h
    · rw [hfound] at h
      exact Option.some.inj h ▸ storesLike_template hc hs htags hfit
  · exact Option.some.inj h ▸ storesLike_value hc hs htags hfit
  · exact storesLike_renameField hc hs htags hfit h
  · exact storesLike_removeField hc hs htags hfit h
  · exact Option.some.inj h ▸ storesLike_removeCategory hc hs htags hfit

/-- What a call leaves in every case: it is settled, and the settings can be stored. -/
structure Sound (nocase : Bytes → Bytes → Bool) (v : OpenVault) (out : Bool × OpenVault) : Prop where
  settled : Settled v out
  storable : StorableSettings nocase out.2.settings

/-- A planned operation commits its edit or undoes it. -/
theorem sound_carryOut {plan : Except VaultResult (Option (Vault Media))} (hc : Collates nocase)
    (hs : StorableSettings nocase v.settings)
    (hplan : ∀ edited, plan = .ok (some edited) → Vault.Respelled v.settings edited.settings) :
    Sound nocase v (decide ((v.carryOut nocase storage plan).1 = .ok),
      (v.carryOut nocase storage plan).2) := by
  rcases plan with r | _ | edited
  · refine ⟨?_, hs⟩
    by_cases hr : r = .ok
    · exact .inr ⟨decide_eq_true hr, .inr rfl⟩
    · exact .inl ⟨decide_eq_false hr, rfl⟩
  · exact ⟨.inr ⟨rfl, .inr rfl⟩, hs⟩
  have hrespelled := hplan edited rfl
  rw [OpenVault.carryOut]
  dsimp only
  split_ifs with hr
  · refine ⟨.inr ⟨decide_eq_true hr, .inl (session_settings_of_commitIndex hr)⟩, ?_⟩
    have hadmitted := (admitted_of_commitIndex hc hr).2
    refine { hadmitted with
      fieldCount := fun c hmem ↦ ?_
      valueCount := hrespelled.valueCount.trans_le hs.valueCount
      descriptionKeys := hrespelled.descriptions hs.descriptionKeys
      valueKeys := hrespelled.values hs.valueKeys }
    have hfields : c.fields ∈ v.settings.categories.map (·.fields) :=
      hrespelled.fields ▸ List.mem_map_of_mem hmem
    obtain ⟨d, hd, heq⟩ := List.mem_map.mp hfields
    exact heq ▸ hs.fieldCount d hd
  · exact ⟨.inl ⟨decide_eq_false hr, rfl⟩, hs⟩

/-- **One call.** An accepted call is settled and leaves settings that can be stored. -/
theorem sound_of_accepted (hc : Collates nocase) (hs : StorableSettings nocase v.settings)
    (ha : c.Accepted nocase v) : Sound nocase v (c.apply nocase v) := by
  obtain ⟨edit | ⟨oldTag, newTag, rewrite⟩ | ⟨oldName, newName, rewrite⟩, storage⟩ := c
  · rw [SettingsCall.apply]
    dsimp only
    rcases hedit : edit.edited v.settings with _ | settings
    · exact ⟨.inl ⟨rfl, rfl⟩, hs⟩
    dsimp only
    rw [setVaultSettings]
    dsimp only [SettingsCall.Accepted] at ha
    rw [hedit, OpenVault.writable] at ha
    by_cases hlocked : (!v.unlocked) = true
    · rw [if_pos hlocked]
      exact ⟨.inl ⟨rfl, rfl⟩, hs⟩
    by_cases hlegacy : v.legacyReadOnly = true
    · rw [if_neg hlocked, if_pos hlegacy]
      exact ⟨.inl ⟨rfl, rfl⟩, hs⟩
    rw [if_neg hlocked, if_neg hlegacy] at ha ⊢
    rcases (ha.resolve_left (not_not.mpr rfl)).resolve_left nofun with hsame | ⟨hcommit, hfit⟩
    · obtain rfl := Option.some.inj hsame
      refine ⟨?_, hs⟩
      by_cases hr : (OpenVault.commitIndex nocase storage v).1 = .ok
      · exact .inr ⟨decide_eq_true hr, .inl (session_settings_of_commitIndex hr)⟩
      · exact .inl ⟨decide_eq_false hr, rfl⟩
    have hlike := storesLike_edited hc hs (admitted_of_commitIndex hc hcommit).1 hfit hedit
    have hr := commitIndex_of_commitIndex hc hcommit hlike.bundles hlike.tags hlike.settings
    exact ⟨.inr ⟨decide_eq_true hr, .inl (session_settings_of_commitIndex hr)⟩, hlike.settings⟩
  · exact sound_carryOut hc hs fun _ h ↦ Vault.respelled_of_planRenameTag h
  · exact sound_carryOut hc hs fun _ h ↦ Vault.respelled_of_planRenameTagCategory h

/-- The calls on a vault, as a system. -/
def callSettings (nocase : Bytes → Bytes → Bool) (v : OpenVault) (c : SettingsCall) :
    Option OpenVault := some (c.apply nocase v).2

/-- **Settings are never in the way.** In every state that accepted calls lead to, the settings meet
every constraint, no commit fails for them, and an accepted call is refused with the settings as they
were, or is committed. -/
theorem storable_of_accepted {calls : List SettingsCall} (hc : Collates nocase)
    (hs : StorableSettings nocase v.settings)
    (hcalls : Run.Meets (callSettings nocase) (fun v c ↦ c.Accepted nocase v) v calls)
    (hrun : Run.run (callSettings nocase) v calls = some w) :
    StorableSettings nocase w.settings ∧ NeverInTheWay nocase w.settings ∧
      ∀ c : SettingsCall, c.Accepted nocase w → Settled w (c.apply nocase w) := by
  have h : StorableSettings nocase w.settings := Run.invariant
    (I := fun v ↦ StorableSettings nocase v.settings)
    (fun hs ha hstep ↦ Option.some.inj hstep ▸ (sound_of_accepted hc hs ha).storable) hs hcalls hrun
  exact ⟨h, neverInTheWay_of_storable hc h, fun c ha ↦ (sound_of_accepted hc h ha).settled⟩

/-- A new vault with one category, which has one field. -/
def artists : OpenVault :=
  { OpenVault.fresh (.ofBytes (List.replicate 16 1)) with
    settings := { categories := [⟨ascii "artist", 0, [ascii "style"]⟩] } }

/-- The value of the field for one tag. -/
def artistStyle : SettingsCall :=
  ⟨.store (.value (ascii "artist:a") (ascii "style") (ascii "ink")), .fine⟩

theorem storableSettings_artists : StorableSettings tagCiEqual artists.settings where
  bundleCount := by decide
  bundles := nofun
  bundlesApart := .nil
  categories c hc := by
    rw [List.mem_singleton.mp hc]
    exact ⟨by decide, by decide, by decide, List.pairwise_singleton _ _⟩
  categoriesApart := List.pairwise_singleton _ _
  texts := nofun
  values := nofun
  places := nofun
  migrated := by decide
  fieldCount c hc := by
    rw [List.mem_singleton.mp hc]
    decide
  valueCount := by decide
  descriptionKeys := List.nodup_nil
  valueKeys := List.nodup_nil

/-- A value is stored, and then the field is renamed. -/
theorem storable_of_accepted_two :
    let w := (artistStyle.apply tagCiEqual artists).2
    let rename : SettingsCall :=
      ⟨.store (.renameField (ascii "artist") (ascii "style") (ascii "medium")), .fine⟩
    w.settings.tagFieldValues ≠ [] ∧ NeverInTheWay tagCiEqual w.settings ∧
      Settled w (rename.apply tagCiEqual w) := by
  intro w rename
  have hcalls : Run.Meets (callSettings tagCiEqual) (fun v c ↦ c.Accepted tagCiEqual v) artists
      [artistStyle] :=
    ⟨.inr (.inr (.inr ⟨by decide +kernel, .inr (.inr ⟨by decide +kernel, by decide, by decide +kernel⟩)⟩)),
      trivial⟩
  obtain ⟨-, hnever, hsettled⟩ := storable_of_accepted collates_tagCiEqual storableSettings_artists
    hcalls rfl
  refine ⟨by decide +kernel, hnever,
    hsettled rename (.inr (.inr (.inr ⟨by decide +kernel, ?_, .inr ?_⟩)))⟩
  · decide +kernel
  · decide +kernel

/-- A value is stored, and then its category is removed: the call fails, the settings are without the
category and with the value, and no commit goes through any more. -/
theorem not_settled_of_removeCategory :
    let w := (artistStyle.apply tagCiEqual artists).2
    let remove : SettingsCall := ⟨.store (.removeCategory 0), .fine⟩
    let out := remove.apply tagCiEqual w
    (artistStyle.apply tagCiEqual artists).1 = true ∧ (w.commitIndex tagCiEqual .fine).1 = .ok ∧
      out.1 = false ∧ out.2.settings ≠ w.settings ∧ (out.2.commitIndex tagCiEqual .fine).1 ≠ .ok ∧
      ¬ Settled w out ∧ ¬ StorableSettings tagCiEqual out.2.settings ∧
      ¬ NeverInTheWay tagCiEqual out.2.settings := by
  intro w remove out
  have hfailed : out.1 = false := by decide +kernel
  have hchanged : out.2.settings ≠ w.settings := by decide +kernel
  have hcommit : (out.2.commitIndex tagCiEqual .fine).1 ≠ .ok := by decide +kernel
  have hnever : ¬ NeverInTheWay tagCiEqual out.2.settings := by
    refine fun h ↦ hcommit (h .fine out.2 rfl ⟨by decide +kernel, by decide +kernel⟩ ?_)
    decide +kernel
  refine ⟨by decide +kernel, by decide +kernel, hfailed, hchanged, hcommit, ?_, ?_, hnever⟩
  · rintro (h | h)
    · exact hchanged h.2
    · exact Bool.false_ne_true (hfailed.symm.trans h.1)
  · exact fun h ↦ hnever (neverInTheWay_of_storable collates_tagCiEqual h)

end V3

end SafeVault
