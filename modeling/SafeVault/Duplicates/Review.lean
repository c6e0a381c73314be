import SafeVault.Duplicates.Groups
import SafeVault.Lib.History
import SafeVault.Vault.RemoveMedia

/-!
# Reviewing duplicates

The user marks the members of the groups to be kept or removed, in waves of at most twenty groups.
After a wave its groups are dropped, and the members of the remaining groups are looked up again;
members that are gone are dropped, with the groups that they leave without a duplicate.

Every group always has a member that is kept. No two members of the groups are at the same place, so
what is marked in one group is not kept in another one, and removing what is marked leaves a member of
every group.
-/

namespace SafeVault

namespace Duplicates

variable {groups : List DupGroup} {g : DupGroup} {m : DupMember}

/-! ## Before the review -/

/-- The sum of the sizes of a group, without the largest one. -/
def groupReclaimable (g : DupGroup) : UInt64 :=
  g.members.foldl (fun sum m ↦ sum + m.bytes) 0 - g.members.foldl (fun big m ↦ max big m.bytes) 0

/-- `path` is below the gallery: a component boundary follows the path of the gallery. -/
def within (galleryPath path : Bytes) : Bool :=
  galleryPath.length + 1 < path.length && path[galleryPath.length]? == some slash &&
    path.take galleryPath.length == galleryPath

/-- `scope_filter_groups`: drop the groups that have no member in the gallery. -/
def scopeFilterGroups (galleryPath : Bytes) (groups : List DupGroup) : List DupGroup :=
  if galleryPath.isEmpty then groups
  else groups.filter fun g ↦ g.members.any fun m ↦ within galleryPath m.nodePath

/-! ## The review -/

/-- Keep one member only. -/
def keepAt (k : ℕ) (members : List DupMember) : List DupMember :=
  members.mapIdx fun i m ↦ { m with keep := i == k }

/-- The first member is kept. -/
def defaultMarks (g : DupGroup) : DupGroup := { g with members := keepAt 0 g.members }

def dupWaveGroups : ℕ := 20

structure DupReview where
  groups : List DupGroup := []
  touched : Bool := false
  wavesDone : ℕ := 0

namespace DupReview

/-- The review of some groups: the largest reclaimable sizes come first. -/
def ofGroups (groups : List DupGroup) : DupReview where
  groups := (groups.mergeSort fun a b ↦ groupReclaimable b ≤ groupReclaimable a).map defaultMarks

def waveSize (r : DupReview) : ℕ := min dupWaveGroups r.groups.length

/-- Give a member of a group another mark. -/
def setMembers (r : DupReview) (g : ℕ) (members : List DupMember) : DupReview :=
  { r with
    groups := r.groups.modify g fun grp ↦ { grp with members }
    touched := true }

/-- Change the mark of a member, unless it is the last one of its group that is kept. -/
def toggle (r : DupReview) (g m : ℕ) : DupReview × Bool :=
  if r.waveSize ≤ g then (r, false)
  else
    match r.groups[g]? with
    | none => (r, false)
    | some grp =>
      match grp.members[m]? with
      | none => (r, false)
      | some member =>
        if member.keep && grp.members.countP (·.keep) ≤ 1 then (r, false)
        else (r.setMembers g (grp.members.set m { member with keep := !member.keep }), true)

/-- Keep one member of a group. -/
def keepOnly (r : DupReview) (g m : ℕ) : DupReview :=
  if r.waveSize ≤ g then r
  else
    match r.groups[g]? with
    | none => r
    | some grp =>
      if grp.members.length ≤ m then r
      else r.setMembers g (keepAt m grp.members)

def finishWave (r : DupReview) : DupReview :=
  if r.groups.isEmpty then r
  else ⟨r.groups.drop r.waveSize, false, r.wavesDone + 1⟩

/-- `refresh_members`, with a function that changes a member or drops it. -/
def refreshMembers (fn : DupMember → Option DupMember) (r : DupReview) : DupReview :=
  { r with
    groups := ((r.groups.map fun g ↦ { g with members := g.members.filterMap fn }).filter fun g ↦
      2 ≤ g.members.length).map defaultMarks }

/-- The paths of the members of the current wave that are marked to be removed. -/
def markedPaths (r : DupReview) : List Bytes :=
  (r.groups.take r.waveSize).flatMap fun g ↦
    (g.members.filter fun m ↦ !m.keep).map DupMember.nodePath

end DupReview

/-- `refresh_member`: look a member up again. -/
def refreshMember (root : IndexNode) (m : DupMember) : Option DupMember :=
  match (resolveNode root m.nodePath).bind root.get? with
  | some (.leaf label (.image img)) =>
    if m.isVideo then none
    else some { m with
      bytes := img.origSize, data := [imageDataChunkRef label img]
      thumb := mediaThumbChunkRef label (.image img) }
  | some (.leaf label (.video vid)) =>
    if m.isVideo then
      some { m with
        bytes := vid.origSize, data := vid.chunks.map (videoChunkRef label vid)
        thumb := mediaThumbChunkRef label (.video vid) }
    else none
  | _ => none

/-- What the user and the vault do with a review. -/
inductive ReviewStep where
  | toggle (g m : ℕ)
  | keepOnly (g m : ℕ)
  | finishWave
  | refreshMembers (root : IndexNode)

def DupReview.step (r : DupReview) : ReviewStep → DupReview
  | .toggle g m => (r.toggle g m).1
  | .keepOnly g m => r.keepOnly g m
  | .finishWave => r.finishWave
  | .refreshMembers root => r.refreshMembers (refreshMember root)

def DupReview.run (r : DupReview) (steps : List ReviewStep) : DupReview :=
  steps.foldl DupReview.step r

/-! ## The places of the members -/

/-- The places of the members, group by group. -/
def places (groups : List DupGroup) : List (List (List Bytes)) :=
  groups.map fun g ↦ g.members.map DupMember.segments

/-- A member of every group is kept. -/
def KeepsOne (groups : List DupGroup) : Prop :=
  ∀ g ∈ groups, ∃ m ∈ g.members, m.keep = true

theorem map_segments_keepAt (k : ℕ) (members : List DupMember) :
    (keepAt k members).map DupMember.segments = members.map DupMember.segments := by
  refine List.ext_getElem? fun i ↦ ?_
  rw [keepAt, List.getElem?_map, List.getElem?_mapIdx, List.getElem?_map, Option.map_map]
  rfl

theorem exists_keep_keepAt {k : ℕ} {members : List DupMember} (hk : k < members.length) :
    ∃ m ∈ keepAt k members, m.keep = true :=
  ⟨{ members[k] with keep := k == k }, List.mem_mapIdx.mpr ⟨k, hk, rfl⟩, beq_self_eq_true k⟩

/-! Marking the first members. -/

theorem keepsOne_map_defaultMarks (htwo : ∀ g ∈ groups, 2 ≤ g.members.length) :
    KeepsOne (groups.map defaultMarks) := by
  rintro _ hmem
  obtain ⟨g, hg, rfl⟩ := List.mem_map.mp hmem
  exact exists_keep_keepAt (Nat.zero_lt_two.trans_le (htwo g hg))

theorem places_map_defaultMarks (groups : List DupGroup) :
    places (groups.map defaultMarks) = places groups := by
  rw [places, places, List.map_map]
  exact List.map_congr_left fun g _ ↦ map_segments_keepAt 0 g.members

theorem perm_ofGroups (groups : List DupGroup) :
    ∃ sorted : List DupGroup, sorted.Perm groups ∧ (DupReview.ofGroups groups).groups = sorted.map defaultMarks :=
  ⟨_, groups.mergeSort_perm _, rfl⟩

/-- **A review starts** with a member of every group kept. -/
theorem keepsOne_ofGroups (htwo : ∀ g ∈ groups, 2 ≤ g.members.length) :
    KeepsOne (DupReview.ofGroups groups).groups := by
  obtain ⟨sorted, hperm, heq⟩ := perm_ofGroups groups
  rw [heq]
  exact keepsOne_map_defaultMarks fun g hg ↦ htwo g (hperm.mem_iff.mp hg)

theorem Apart.nodup_places_ofGroups (h : Apart groups) :
    (places (DupReview.ofGroups groups).groups).flatten.Nodup := by
  obtain ⟨sorted, hperm, heq⟩ := perm_ofGroups groups
  have hplaces : (places groups).flatten.Nodup := by
    rw [places, ← List.flatMap_def, ← List.map_flatMap]
    exact h.nodup
  rw [heq, places_map_defaultMarks]
  exact ((hperm.map _).flatten.nodup_iff).mpr hplaces

theorem Apart.sublist {groups' : List DupGroup} (h : Apart groups) (hsub : groups'.Sublist groups) :
    Apart groups' :=
  ⟨h.nodup.sublist ((hsub.flatMap _).map _), fun g hg ↦ h.two_le g (hsub.subset hg)⟩

theorem sublist_scopeFilterGroups (galleryPath : Bytes) (groups : List DupGroup) :
    (scopeFilterGroups galleryPath groups).Sublist groups := by
  rw [scopeFilterGroups]
  split_ifs
  · exact List.Sublist.refl _
  · exact List.filter_sublist

/-! ## Changing marks -/

/-- What a change of marks may do: other marks in one group, where a member is still kept. -/
inductive Remarked (r : DupReview) : DupReview → Prop
  | same : Remarked r r
  | group {i : ℕ} {grp : DupGroup} {members : List DupMember} (hi : r.groups[i]? = some grp)
      (hplaces : members.map DupMember.segments = grp.members.map DupMember.segments)
      (hkeep : ∃ m ∈ members, m.keep = true) : Remarked r (r.setMembers i members)

theorem Remarked.places {r r' : DupReview} (h : Remarked r r') :
    places r'.groups = places r.groups := by
  cases h with
  | same => rfl
  | @group i grp members hi hplaces hkeep =>
    rw [Duplicates.places, Duplicates.places, DupReview.setMembers]
    refine List.ext_getElem? fun k ↦ ?_
    rw [List.getElem?_map, List.getElem?_map, List.getElem?_modify]
    by_cases hk : i = k
    · subst hk
      rw [hi]
      simp [hplaces]
    · simp [hk]

theorem Remarked.keepsOne {r r' : DupReview} (h : Remarked r r') (hkeeps : KeepsOne r.groups) :
    KeepsOne r'.groups := by
  cases h with
  | same => exact hkeeps
  | @group i grp members hi hplaces hkeep =>
    intro g' hg'
    obtain ⟨k, hk⟩ := List.mem_iff_getElem?.mp hg'
    rw [DupReview.setMembers, List.getElem?_modify] at hk
    by_cases hik : i = k
    · subst hik
      rw [hi] at hk
      obtain rfl := Option.some.inj (by simpa using hk)
      exact hkeep
    · exact hkeeps g' (List.mem_of_getElem? (by simpa [hik] using hk))

theorem remarked_toggle (r : DupReview) (i j : ℕ) : Remarked r (r.toggle i j).1 := by
  rw [DupReview.toggle]
  by_cases hwave : r.waveSize ≤ i
  · rw [if_pos hwave]
    exact .same
  rw [if_neg hwave]
  rcases hi : r.groups[i]? with _ | g
  · exact .same
  dsimp only
  rcases hj : g.members[j]? with _ | m
  · exact .same
  dsimp only
  split_ifs with hlast
  · exact .same
  · obtain ⟨hlt, rfl⟩ := List.getElem?_eq_some_iff.mp hj
    refine .group hi ?_ (List.countP_pos_iff.mp ?_)
    · have hself := congrArg (List.map DupMember.segments) (List.set_getElem_self hlt)
      rw [List.map_set] at hself ⊢
      exact hself
    · -- the member was not the last one that is kept, or it is kept now
      rw [List.countP_set hlt]
      rcases hkeep : g.members[j].keep with _ | _
      · exact Nat.succ_pos _
      · rw [hkeep, Bool.true_and, decide_eq_true_eq] at hlast
        have hmany : ¬ g.members.countP DupMember.keep ≤ 1 := hlast
        simp only [if_pos, Bool.not_true, Bool.false_eq_true, if_false]
        omega

theorem remarked_keepOnly (r : DupReview) (i j : ℕ) : Remarked r (r.keepOnly i j) := by
  rw [DupReview.keepOnly]
  by_cases hwave : r.waveSize ≤ i
  · rw [if_pos hwave]
    exact .same
  rw [if_neg hwave]
  rcases hi : r.groups[i]? with _ | g
  · exact .same
  dsimp only
  split_ifs with hj
  · exact .same
  · exact .group hi (map_segments_keepAt j g.members) (exists_keep_keepAt (not_le.mp hj))

/-! ## Every step keeps a member of every group -/

theorem sublist_finishWave (r : DupReview) : r.finishWave.groups.Sublist r.groups := by
  rw [DupReview.finishWave]
  split_ifs
  · exact List.Sublist.refl _
  · exact List.drop_sublist _ _

/-- Members that are looked up again are where they were. -/
theorem nodePath_of_refreshMember {root : IndexNode} {m' : DupMember}
    (h : refreshMember root m = some m') : m'.nodePath = m.nodePath := by
  rw [refreshMember] at h
  split at h
  · split_ifs at h
    exact Option.some.inj h ▸ rfl
  · split_ifs at h
    exact Option.some.inj h ▸ rfl
  · cases h

theorem sublist_map_segments_filterMap {fn : DupMember → Option DupMember}
    (hfn : ∀ m m', fn m = some m' → m'.nodePath = m.nodePath) (members : List DupMember) :
    ((members.filterMap fn).map DupMember.segments).Sublist
      (members.map DupMember.segments) := by
  induction members with
  | nil => exact List.Sublist.refl _
  | cons m members ih =>
    rw [List.filterMap_cons]
    rcases hm : fn m with _ | m'
    · exact ih.cons _
    · rw [List.map_cons, List.map_cons, DupMember.segments, hfn m m' hm]
      exact ih.cons_cons _

/-- **Refreshing the members** drops members and groups, and marks the first members. -/
theorem keepsOne_refreshMembers (r : DupReview) (fn : DupMember → Option DupMember) :
    KeepsOne (r.refreshMembers fn).groups :=
  keepsOne_map_defaultMarks fun _ hg ↦ of_decide_eq_true (List.mem_filter.mp hg).2

theorem sublist_places_refreshMembers {fn : DupMember → Option DupMember}
    (hfn : ∀ m m', fn m = some m' → m'.nodePath = m.nodePath) (r : DupReview) :
    (places (r.refreshMembers fn).groups).flatten.Sublist (places r.groups).flatten := by
  rw [DupReview.refreshMembers, places_map_defaultMarks]
  have hkept : ((r.groups.map fun g ↦ { g with members := g.members.filterMap fn }).filter fun g ↦
      2 ≤ g.members.length).Sublist _ := List.filter_sublist
  refine (hkept.map _).flatten.trans ?_
  rw [places, List.map_map, ← List.flatMap_def, ← List.flatMap_def]
  exact List.Sublist.flatMap_right _ fun g _ ↦ sublist_map_segments_filterMap hfn g.members

theorem KeepsOne.step {r : DupReview} (h : KeepsOne r.groups) (s : ReviewStep) :
    KeepsOne (r.step s).groups := by
  cases s with
  | toggle i j => exact (remarked_toggle r i j).keepsOne h
  | keepOnly i j => exact (remarked_keepOnly r i j).keepsOne h
  | finishWave => exact fun g hg ↦ h g ((sublist_finishWave r).subset hg)
  | refreshMembers root => exact keepsOne_refreshMembers r _

/-- No step moves a member. -/
theorem sublist_places_step (r : DupReview) (s : ReviewStep) :
    (places (r.step s).groups).flatten.Sublist (places r.groups).flatten := by
  cases s with
  | toggle i j => exact (remarked_toggle r i j).places ▸ List.Sublist.refl _
  | keepOnly i j => exact (remarked_keepOnly r i j).places ▸ List.Sublist.refl _
  | finishWave => exact ((sublist_finishWave r).map _).flatten
  | refreshMembers root => exact sublist_places_refreshMembers (fun _ _ ↦ nodePath_of_refreshMember) r

/-- **After any steps** a member of every group is kept. -/
theorem KeepsOne.run {r : DupReview} (h : KeepsOne r.groups) (steps : List ReviewStep) :
    KeepsOne (r.run steps).groups := by
  induction steps generalizing r with
  | nil => exact h
  | cons s steps ih => exact ih (h.step s)

theorem sublist_places_run (r : DupReview) (steps : List ReviewStep) :
    (places (r.run steps).groups).flatten.Sublist (places r.groups).flatten := by
  induction steps generalizing r with
  | nil => exact List.Sublist.refl _
  | cons s steps ih => exact (ih (r.step s)).trans (sublist_places_step r s)

/-! ## What is removed -/

/-- **What is kept is not removed**, also not for another group. -/
theorem segments_not_mem {r : DupReview} (h : (places r.groups).flatten.Nodup) (hg : g ∈ r.groups)
    (hm : m ∈ g.members) (hkeep : m.keep = true) : m.segments ∉ r.markedPaths.map splitPath := by
  have hnodup : ((r.groups.flatMap DupGroup.members).map DupMember.segments).Nodup := by
    rw [List.map_flatMap]
    exact h
  intro hmem
  obtain ⟨path, hpath, heq⟩ := List.mem_map.mp hmem
  obtain ⟨g', hg', hpath⟩ := List.mem_flatMap.mp hpath
  obtain ⟨m', hm', rfl⟩ := List.mem_map.mp hpath
  obtain ⟨hm', hmarked⟩ := List.mem_filter.mp hm'
  have hsame : m' = m := List.inj_on_of_nodup_map hnodup
    (List.mem_flatMap.mpr ⟨g', List.mem_of_mem_take hg', hm'⟩)
    (List.mem_flatMap.mpr ⟨g, hg, hm⟩) heq
  rw [hsame, hkeep] at hmarked
  exact Bool.false_ne_true hmarked

/-- Removing what is marked leaves what is kept. -/
theorem KeepsOne.hasMedium {r : DupReview} (h : KeepsOne r.groups)
    (hnodup : (places r.groups).flatten.Nodup) (hg : g ∈ r.groups) {vault : IndexNode}
    (hvault : ∀ m ∈ g.members, HasMedium vault m.nodePath) :
    ∃ m ∈ g.members, HasMedium (removeMediaBatch vault r.markedPaths) m.nodePath := by
  obtain ⟨m, hm, hkeep⟩ := h g hg
  exact ⟨m, hm, (hvault m hm).removeMediaBatch (segments_not_mem hnodup hg hm hkeep)⟩

/-- **The duplicate finder never removes a last copy.** Every scan ends, with groups of different
items, and after any steps every group has a member that is kept. If the children of every gallery have
different names, no two members are at the same place; what is marked is then kept in no group, and
removing it leaves a member of every group. -/
theorem review_keeps_a_copy (before : IndexNode → IndexNode → Bool) (root : IndexNode)
    (scopePath : Bytes) (E : ScanEnv) (perceptual : Bool) :
    ∃ out, (∃ k, ∀ turns ≥ k,
        runScan E (collectScanItems before root scopePath) turns perceptual = some out) ∧
      Grouped (collectScanItems before root scopePath) (fun _ ↦ True) out.groups ∧
      ∀ galleryPath : Bytes,
        (∀ (steps : List ReviewStep) (r : DupReview),
          r = (DupReview.ofGroups (scopeFilterGroups galleryPath out.groups)).run steps →
          ∀ g ∈ r.groups, ∃ m ∈ g.members, m.keep = true) ∧
        (WellNamed root → Apart (scopeFilterGroups galleryPath out.groups) ∧
          ∀ (steps : List ReviewStep) (r : DupReview),
            r = (DupReview.ofGroups (scopeFilterGroups galleryPath out.groups)).run steps →
            ∀ g ∈ r.groups,
              (∀ m ∈ g.members, m.keep = true → m.nodePath ∉ r.markedPaths) ∧
              ∀ vault : IndexNode, (∀ m ∈ g.members, HasMedium vault m.nodePath) →
                ∃ m ∈ g.members, HasMedium (removeMediaBatch vault r.markedPaths) m.nodePath) := by
  obtain ⟨out, hrun, hgrouped⟩ := runScan_ends E (collectScanItems before root scopePath) perceptual
  refine ⟨out, hrun, hgrouped, fun galleryPath ↦ ?_⟩
  have hkeeps : ∀ steps, KeepsOne
      ((DupReview.ofGroups (scopeFilterGroups galleryPath out.groups)).run steps).groups := by
    refine (keepsOne_ofGroups fun g hg ↦ hgrouped.two_le ?_).run
    exact (sublist_scopeFilterGroups galleryPath out.groups).subset hg
  refine ⟨?_, fun hnames ↦ ?_⟩
  · rintro steps r rfl
    exact hkeeps steps
  · have hapart : Apart (scopeFilterGroups galleryPath out.groups) :=
      (hgrouped.apart (nodup_segments hnames scopePath)).sublist
        (sublist_scopeFilterGroups galleryPath out.groups)
    refine ⟨hapart, ?_⟩
    rintro steps r rfl g hg
    have hnodup := hapart.nodup_places_ofGroups.sublist (sublist_places_run _ steps)
    refine ⟨fun m hm hkeep hmarked ↦ ?_, fun vault ↦ (hkeeps steps).hasMedium hnodup hg⟩
    exact segments_not_mem hnodup hg hm hkeep (List.mem_map_of_mem hmarked)

/-- A vault with two images. -/
def twoImages : IndexNode :=
  .branch { name := [] } [.leaf { name := ascii "a" } (.image {}), .leaf { name := ascii "b" } (.image {})]

/-- All contents are the same, and nothing is cancelled. -/
def readable : ScanEnv where
  cancel _ := false
  digest _ := .ok []
  thumbHash _ := .ok 0
  posterHash _ := .ok 0
  frames _ := some ([], 0)
  durationTolerance _ := 0

theorem review_keeps_a_copy_twoImages :
    ∃ out, (∃ k, ∀ turns ≥ k, runScan readable
        (collectScanItems (fun _ _ ↦ true) twoImages []) turns true = some out) ∧
      ∀ steps : List ReviewStep, ∀ g ∈ ((DupReview.ofGroups out.groups).run steps).groups,
        (∃ m ∈ g.members, m.keep = true) ∧
        ∀ m ∈ g.members, m.keep = true →
          m.nodePath ∉ ((DupReview.ofGroups out.groups).run steps).markedPaths := by
  have hnames : WellNamed twoImages := by
    simp [WellNamed, twoImages, ascii, slash]
  obtain ⟨out, hrun, -, h⟩ := review_keeps_a_copy (fun _ _ ↦ true) twoImages [] readable true
  obtain ⟨hkeeps, hnamed⟩ := h []
  exact ⟨out, hrun, fun steps g hg ↦
    ⟨hkeeps steps _ rfl g hg, ((hnamed hnames).2 steps _ rfl g hg).1⟩⟩

end Duplicates

end SafeVault
