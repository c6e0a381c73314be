import SafeVault.V3.Reconciliation
import SafeVault.V3.Session

/-!
# What a collection removes

A session collects garbage in three steps: it reconciles the files with the rows, takes out of the
garbage what is staged and waits for its metadata, and gives the rest to the collector, which looks at
the age, the rows and the file again before it unlinks.

The steps together are exact. A collection that goes through removes the files that are old enough, of
objects neither in a row nor staged, and no others; it counts them, and adds up their lengths.
-/

namespace SafeVault

namespace V3

variable {dir : ObjectsDir} {id id' : NodeId} {stat : FileStat} {env : CollectEnv}
  {candidate : GarbageObject} {candidates : List GarbageObject}
  {state out : GarbageCollectionResult × ObjectsDir}

/-! ## The collector -/

theorem openObject_unlinkObject :
    (dir.unlinkObject id).openObject id' = if id' = id then none else dir.openObject id' := by
  ext stat
  rw [openObject_eq_some_iff]
  constructor
  · rintro ⟨hid', hdir, shard, hshard, hname, hopens, file, hfile, hfileName, hstat⟩
    obtain ⟨old, hold, rfl⟩ := List.mem_map.mp hshard
    split_ifs at hname hfile hopens with hin
    · obtain ⟨hfile, hne⟩ := List.mem_filter.mp hfile
      have hid : id' ≠ id := by
        rintro rfl
        exact of_decide_eq_true hne hfileName
      rw [if_neg hid, openObject_eq_some_iff]
      exact ⟨hid', hdir, old, hold, hname, hopens, file, hfile, hfileName, hstat⟩
    · have hid : id' ≠ id := by
        rintro rfl
        exact hin hname
      rw [if_neg hid, openObject_eq_some_iff]
      exact ⟨hid', hdir, old, hold, hname, hopens, file, hfile, hfileName, hstat⟩
  · intro h
    split_ifs at h with hid
    obtain ⟨hid', hdir, shard, hshard, hname, hopens, file, hfile, hfileName, hstat⟩ :=
      openObject_eq_some_iff.mp h
    refine ⟨hid', hdir, _, List.mem_map_of_mem hshard, ?_⟩
    split_ifs with hin
    · refine ⟨hname, hopens, file, List.mem_filter.mpr ⟨hfile, decide_eq_true fun heq ↦ hid ?_⟩,
        hfileName, hstat⟩
      exact nameOf_injective (hfileName.symm.trans heq)
    · exact ⟨hname, hopens, file, hfile, hfileName, hstat⟩

/-- What was written at a time is old enough to go. -/
def aged (now : ℤ) (graceSeconds : ℕ) (modifiedSeconds : ℤ) : Bool :=
  modifiedSeconds ≤ now && graceSeconds ≤ (now - modifiedSeconds).toNat

/-- The file of a candidate is to go: it is old enough, no row has it, and it is as it was found. -/
def collectable (env : CollectEnv) (dir : ObjectsDir) (candidate : GarbageObject) : Bool :=
  aged env.now env.graceSeconds candidate.modifiedSeconds &&
    env.objectIsReferenced candidate.id == some false &&
    (dir.openObject candidate.id).any fun stat ↦ stat.size = candidate.encryptedLength

theorem not_aged_eq (env : CollectEnv) (candidate : GarbageObject) :
    (decide (candidate.modifiedSeconds > env.now) ||
      decide ((env.now - candidate.modifiedSeconds).toNat < env.graceSeconds)) =
      !aged env.now env.graceSeconds candidate.modifiedSeconds := by
  simp only [aged, Bool.not_and, ← decide_not, not_le, gt_iff_lt]

/-- The state of the loop when the file of a candidate is gone. -/
def removed (state : GarbageCollectionResult × ObjectsDir) (candidate : GarbageObject) :
    GarbageCollectionResult × ObjectsDir :=
  ({ state.1 with
    deleted := state.1.deleted + 1
    reclaimedBytes := state.1.reclaimedBytes + .ofNat candidate.encryptedLength },
    state.2.unlinkObject candidate.id)

/-- A round that goes on has removed a file that was to go, or left one that was not. -/
theorem collectObject_eq_ok (h : collectObject env state candidate = .ok out) :
    out = if collectable env state.2 candidate then removed state candidate else state := by
  rw [collectObject, not_aged_eq] at h
  rw [collectable]
  rcases hold : aged env.now env.graceSeconds candidate.modifiedSeconds with _ | _
  · rw [hold] at h
    exact (Except.ok.inj h).symm
  rw [hold, Bool.not_true, if_neg Bool.false_ne_true] at h
  rw [Bool.true_and]
  rcases hrow : env.objectIsReferenced candidate.id with _ | _ | _
  · rw [hrow] at h
    cases h
  swap
  · rw [hrow] at h
    exact (Except.ok.inj h).symm
  rw [hrow] at h
  rcases hfile : state.2.openObject candidate.id with _ | stat
  · rw [hfile] at h
    exact (Except.ok.inj h).symm
  rw [hfile] at h
  dsimp only at h
  by_cases hsize : stat.size = candidate.encryptedLength
  · rw [if_neg (not_not_intro hsize)] at h
    rw [Option.any_some, decide_eq_true hsize, if_pos (by rfl)]
    rcases hunlink : env.unlinkObject candidate.id
    · rw [hunlink] at h
      cases h
    · rw [hunlink] at h
      cases h
    · rw [hunlink] at h
      exact (Except.ok.inj h).symm
  · rw [if_pos hsize] at h
    rw [Option.any_some, decide_eq_false hsize, Bool.and_false, if_neg Bool.false_ne_true]
    exact (Except.ok.inj h).symm

/-- The removal of another file makes no difference to a candidate. -/
theorem collectable_removed {other : GarbageObject} (h : other.id ≠ candidate.id) :
    collectable env (removed state candidate).2 other = collectable env state.2 other := by
  rw [collectable, collectable, removed, openObject_unlinkObject, if_neg h]

/-- **A loop that goes through** removes what was to go in the beginning. -/
theorem foldlM_collectObject_eq_ok (hnodup : (candidates.map (·.id)).Nodup)
    (h : candidates.foldlM (collectObject env) state = .ok out) :
    out = (candidates.filter (collectable env state.2)).foldl removed state := by
  induction candidates generalizing state with
  | nil => exact (Except.ok.inj h).symm
  | cons candidate candidates ih =>
    rw [List.foldlM_cons, bind_eq_ok_iff] at h
    obtain ⟨mid, hround, hrest⟩ := h
    obtain ⟨hfresh, hnodup⟩ := List.nodup_cons.mp hnodup
    have hmid := collectObject_eq_ok hround
    have hsame : ∀ other ∈ candidates, collectable env mid.2 other = collectable env state.2 other := by
      intro other hother
      rw [hmid]
      split_ifs
      · apply collectable_removed
        intro heq
        exact hfresh (List.mem_map.mpr ⟨other, hother, heq⟩)
      · rfl
    rw [ih hnodup hrest, List.filter_congr hsame, List.filter_cons, hmid]
    split_ifs
    · rw [List.foldl_cons]
    · rfl

/-- What the removals amount to. -/
theorem foldl_removed (candidates : List GarbageObject) (state : GarbageCollectionResult × ObjectsDir) :
    (candidates.foldl removed state).1.status = state.1.status ∧
    (candidates.foldl removed state).1.deleted = state.1.deleted + candidates.length ∧
    (candidates.foldl removed state).1.reclaimedBytes =
      state.1.reclaimedBytes + (candidates.map fun c ↦ UInt64.ofNat c.encryptedLength).sum ∧
    ∀ id, (candidates.foldl removed state).2.fileOf id =
      if id ∈ candidates.map (·.id) then none else state.2.fileOf id := by
  induction candidates generalizing state with
  | nil => simp
  | cons candidate candidates ih =>
    obtain ⟨hstatus, hdeleted, hbytes, hfiles⟩ := ih (removed state candidate)
    rw [List.foldl_cons, List.map_cons, List.map_cons, List.sum_cons, List.length_cons]
    refine ⟨hstatus, ?_, ?_, fun id ↦ ?_⟩
    · rw [hdeleted, removed]
      dsimp only
      omega
    · rw [hbytes, removed, add_assoc]
    · rw [hfiles, removed, fileOf_unlinkObject]
      simp only [List.mem_cons]
      by_cases hrest : id ∈ candidates.map (·.id)
      · rw [if_pos hrest, if_pos (.inr hrest)]
      · simp only [hrest, or_false, if_false]

/-- A round that stops says why. -/
theorem status_of_collectObject_eq_error (h : collectObject env state candidate = .error out) :
    out.1.status ≠ .ok := by
  rw [collectObject] at h
  split at h
  · cases h
  split at h
  · cases h
    rintro ⟨⟩
  · cases h
  split at h
  · cases h
  split at h
  · cases h
  split at h <;> cases h <;> rintro ⟨⟩

/-- A round goes on if it need not ask for a row, or was answered. -/
theorem isSome_of_collectObject_eq_ok (h : collectObject env state candidate = .ok out)
    (hold : aged env.now env.graceSeconds candidate.modifiedSeconds = true) :
    (env.objectIsReferenced candidate.id).isSome := by
  rw [collectObject, not_aged_eq, hold, Bool.not_true, if_neg Bool.false_ne_true] at h
  rcases hrow : env.objectIsReferenced candidate.id with _ | referenced
  · rw [hrow] at h
    cases h
  · rfl

/-- A loop that ends well has gone through. -/
theorem foldlM_collectObject_of_status {out : GarbageCollectionResult × ObjectsDir}
    (h : leftIn (candidates.foldlM (collectObject env) state) = out) (hok : out.1.status = .ok) :
    candidates.foldlM (collectObject env) state = .ok out ∧
      ∀ candidate ∈ candidates, aged env.now env.graceSeconds candidate.modifiedSeconds = true →
        (env.objectIsReferenced candidate.id).isSome := by
  induction candidates generalizing state with
  | nil =>
    refine ⟨congrArg Except.ok h, ?_⟩
    intro candidate hmem
    cases hmem
  | cons candidate candidates ih =>
    rw [List.foldlM_cons] at h ⊢
    rcases hround : collectObject env state candidate with mid | mid
    · rw [hround] at h
      obtain rfl : mid = out := h
      exact absurd hok (status_of_collectObject_eq_error hround)
    · rw [hround] at h
      obtain ⟨hrest, hasked⟩ := ih h
      exact ⟨hrest, List.forall_mem_cons.mpr ⟨isSome_of_collectObject_eq_ok hround, hasked⟩⟩

/-- The file of an object is as before, or it was removed for a candidate that was old enough and that
no row refers to. -/
def Spared (env : CollectEnv) (candidates : List GarbageObject) (id : NodeId)
    (before after : Option FileStat) : Prop :=
  after = before ∨ after = none ∧ env.unlinkObject id ≠ .refused ∧
    env.objectIsReferenced id = some false ∧
    ∃ candidate ∈ candidates, candidate.id = id ∧
      aged env.now env.graceSeconds candidate.modifiedSeconds = true

theorem spared_collectObject (env : CollectEnv) (state : GarbageCollectionResult × ObjectsDir)
    (candidate : GarbageObject) (id : NodeId) : Spared env [candidate] id (state.2.fileOf id)
      ((leftIn (collectObject env state candidate)).2.fileOf id) := by
  obtain hsame | ⟨hold, hfree, hunlink, hgone⟩ :
      (leftIn (collectObject env state candidate)).2 = state.2 ∨
      aged env.now env.graceSeconds candidate.modifiedSeconds = true ∧
        env.objectIsReferenced candidate.id = some false ∧ env.unlinkObject candidate.id ≠ .refused ∧
        (leftIn (collectObject env state candidate)).2 = state.2.unlinkObject candidate.id := by
    rw [collectObject, not_aged_eq]
    split
    · exact .inl rfl
    rename_i hold
    rw [Bool.not_eq_true, Bool.not_eq_false'] at hold
    split
    · exact .inl rfl
    · exact .inl rfl
    rename_i hfree
    split
    · exact .inl rfl
    split
    · exact .inl rfl
    rcases hunlink : env.unlinkObject candidate.id
    · exact .inl rfl
    · exact .inr ⟨hold, hfree, by rintro ⟨⟩, rfl⟩
    · exact .inr ⟨hold, hfree, by rintro ⟨⟩, rfl⟩
  · exact .inl (by rw [hsame])
  · rw [hgone, fileOf_unlinkObject]
    split_ifs with hid
    · subst hid
      exact .inr ⟨rfl, hunlink, hfree, candidate, List.mem_singleton_self _, rfl, hold⟩
    · exact .inl rfl

theorem Spared.trans {candidate : GarbageObject} {before mid after : Option FileStat}
    (h : Spared env [candidate] id before mid) (hrest : Spared env candidates id mid after) :
    Spared env (candidate :: candidates) id before after := by
  obtain rfl | ⟨rfl, hunlink, hfree, other, hmem, hother⟩ := hrest
  · obtain rfl | ⟨rfl, hunlink, hfree, other, hmem, hother⟩ := h
    · exact .inl rfl
    · obtain rfl := List.mem_singleton.mp hmem
      exact .inr ⟨rfl, hunlink, hfree, other, List.mem_cons_self, hother⟩
  · exact .inr ⟨rfl, hunlink, hfree, other, List.mem_cons_of_mem _ hmem, hother⟩

/-- However it ends, a collection only takes files away, of candidates that no row refers to. -/
theorem spared_foldlM_collectObject (env : CollectEnv) (candidates : List GarbageObject)
    (state : GarbageCollectionResult × ObjectsDir) (id : NodeId) :
    Spared env candidates id (state.2.fileOf id)
      ((leftIn (candidates.foldlM (collectObject env) state)).2.fileOf id) := by
  induction candidates generalizing state with
  | nil => exact .inl rfl
  | cons candidate candidates ih =>
    have hround := spared_collectObject env state candidate id
    rw [List.foldlM_cons]
    rcases hout : collectObject env state candidate with out | out
    · rw [hout] at hround
      exact hround.trans (.inl rfl)
    · rw [hout] at hround
      exact hround.trans (ih out)

/-- `collect_garbage` on a disk. -/
def ObjectDisk.collectGarbage (env : CollectEnv) (candidates : List GarbageObject) (d : ObjectDisk) :
    GarbageCollectionResult × ObjectDisk where
  fst := (V3.collectGarbage env d.dir candidates).1
  snd :=
    { dir := (V3.collectGarbage env d.dir candidates).2
      contents := d.contents
      size_eq := by
        intro id stat hstat
        obtain hsame | ⟨hgone, -⟩ := spared_foldlM_collectObject env candidates
          ({ status := .ok }, d.dir) id
        · exact d.size_eq id stat (hsame ▸ hstat)
        · exact absurd (hstat.symm.trans hgone) (Option.some_ne_none stat) }

/-! ## The session -/

/-- What `cleanup_staging` counts. -/
structure StagingCleanup where
  removed : ℕ
  preservedRecent : ℕ
  quarantinedOrForeign : ℕ

/-- What the collection of a session meets. -/
structure SessionCollectEnv where
  now : ℤ
  graceSeconds : ℕ
  /-- The removal of old staging files, if it goes through. -/
  staging : Option StagingCleanup
  /-- Whether the rows can be read. -/
  references : Bool
  /-- Whether the database can be asked for a row. -/
  query : NodeId → Bool
  unlinkObject : NodeId → UnlinkOutcome

/-- `object_is_referenced`, which is for identities that can be in a row. -/
def objectIsReferenced (rows : List ObjectRecord) (query : NodeId → Bool) (id : NodeId) : Option Bool :=
  if id = .zero ∨ query id = false then none else some (decide (id ∈ rows.map (·.objectId)))

def SessionCollectEnv.collect (env : SessionCollectEnv) (rows : List ObjectRecord) : CollectEnv where
  now := env.now
  graceSeconds := env.graceSeconds
  objectIsReferenced := objectIsReferenced rows env.query
  unlinkObject := env.unlinkObject

/-- The garbage of a report without what is staged. -/
def ReadSession.unpended (s : ReadSession) (report : ReconciliationReport) : List GarbageObject :=
  report.garbage.filter fun g ↦ g.id ∉ s.stagedObjects.map (·.objectId)

/-- `garbage_collect`. The staging files are counted where they were looked at. -/
def ReadSession.garbageCollect (env : SessionCollectEnv) (s : ReadSession) (d : ObjectDisk) :
    (GarbageCollectionResult × Option StagingCleanup) × ObjectDisk :=
  if !s.unlocked then (({ status := .filesystemError }, none), d)
  else
    match env.staging with
    | none => (({ status := .filesystemError }, none), d)
    | some staging =>
      let report := reconcileObjects d.dir (if env.references then some s.db.objects else none)
      if report.status ≠ .ok then (({ status := report.status }, none), d)
      else
        let out := d.collectGarbage (env.collect s.db.objects) (s.unpended report)
        ((out.1, some staging), out.2)

/-! ## What a session removes -/

/-- The file of an object may go: it is old enough, and the object is neither in a row nor staged. -/
def stale (env : SessionCollectEnv) (s : ReadSession) (id : NodeId) (stat : FileStat) : Bool :=
  aged env.now env.graceSeconds stat.modifiedSeconds && id ∉ s.db.objects.map (·.objectId) &&
    id ∉ s.stagedObjects.map (·.objectId)

/-- The entry of a file that was called garbage. -/
def GarbageObject.entry (g : GarbageObject) : ObjectEntry := ⟨g.id, ⟨g.encryptedLength, g.modifiedSeconds⟩⟩

theorem GarbageObject.entry_injective : Function.Injective GarbageObject.entry := by
  rintro ⟨id, length, time⟩ ⟨id', length', time'⟩ h
  cases h
  rfl

variable {senv : SessionCollectEnv} {s : ReadSession} {d : ObjectDisk}

/-- What a collection of a session comes to: nothing, or the loop over the garbage that is not staged. -/
theorem garbageCollect_cases (env : SessionCollectEnv) (s : ReadSession) (d : ObjectDisk) :
    ((s.garbageCollect env d).1.1.status ≠ .ok ∧ (s.garbageCollect env d).2 = d) ∨
    ∃ entries, listObjects d.dir = some entries ∧
      ((s.garbageCollect env d).1.1, (s.garbageCollect env d).2.dir) =
        V3.collectGarbage (env.collect s.db.objects) d.dir
          (s.unpended (reconcileObjects d.dir (some s.db.objects))) ∧
      (s.garbageCollect env d).2.contents = d.contents := by
  rw [ReadSession.garbageCollect]
  by_cases hopen : s.unlocked = true
  swap
  · rw [if_pos (by simpa using hopen)]
    exact .inl ⟨by rintro ⟨⟩, rfl⟩
  rw [if_neg (by simpa using hopen)]
  rcases env.staging with _ | staging
  · exact .inl ⟨by rintro ⟨⟩, rfl⟩
  dsimp only
  by_cases hstatus : (reconcileObjects d.dir (if env.references then some s.db.objects else none)).status = .ok
  swap
  · rw [if_pos hstatus]
    exact .inl ⟨hstatus, rfl⟩
  rw [if_neg (not_not_intro hstatus)]
  by_cases hrows : env.references = true
  swap
  · rw [if_neg hrows] at hstatus
    cases hstatus
  rw [if_pos hrows] at hstatus ⊢
  rcases hlist : listObjects d.dir with _ | entries
  · rw [reconcileObjects, hlist] at hstatus
    cases hstatus
  · exact .inr ⟨entries, rfl, rfl, rfl⟩

section Exact

variable {entries : List ObjectEntry} {report : ReconciliationReport}

theorem mem_unpended (hreport : Reconciled dir s.db.objects report) {g : GarbageObject} :
    g ∈ s.unpended report ↔ dir.fileOf g.id = some ⟨g.encryptedLength, g.modifiedSeconds⟩ ∧
      g.id ∉ s.db.objects.map (·.objectId) ∧ g.id ∉ s.stagedObjects.map (·.objectId) := by
  rw [ReadSession.unpended, List.mem_filter, hreport.garbage, decide_eq_true_iff, and_assoc]

/-- Where every question was answered, what is to go of the garbage is what is stale. -/
theorem collectable_iff_stale (hreport : Reconciled dir s.db.objects report)
    (hlist : listObjects dir = some entries) {g : GarbageObject} (hg : g ∈ s.unpended report)
    (hasked : aged senv.now senv.graceSeconds g.modifiedSeconds = true →
      (objectIsReferenced s.db.objects senv.query g.id).isSome) :
    collectable (senv.collect s.db.objects) dir g = stale senv s g.id g.entry.stat := by
  obtain ⟨hfile, hrow, hstaged⟩ := (mem_unpended hreport).mp hg
  rw [collectable, stale, SessionCollectEnv.collect, GarbageObject.entry]
  dsimp only
  rw [decide_eq_true hrow, decide_eq_true hstaged, Bool.and_true, Bool.and_true]
  rcases hold : aged senv.now senv.graceSeconds g.modifiedSeconds with _ | _
  · rfl
  have hasked := hasked hold
  rw [objectIsReferenced] at hasked ⊢
  split_ifs at hasked ⊢ with hquery
  · cases hasked
  rw [not_or] at hquery
  rw [openObject_of_listObjects hlist hquery.1 hfile, Option.any_some, decide_eq_false hrow]
  simp

/-- **The files a loop removes** that goes through are the stale ones. -/
theorem perm_collectable (hreport : Reconciled dir s.db.objects report)
    (hlist : listObjects dir = some entries)
    (hasked : ∀ g ∈ s.unpended report, aged senv.now senv.graceSeconds g.modifiedSeconds = true →
      (objectIsReferenced s.db.objects senv.query g.id).isSome) :
    (((s.unpended report).filter (collectable (senv.collect s.db.objects) dir)).map
        GarbageObject.entry).Perm (entries.filter fun e ↦ stale senv s e.id e.stat) := by
  have hunpended : (s.unpended report).Nodup :=
    (List.Nodup.of_map _ hreport.nodup).filter _
  have hentries : entries.Nodup := List.Nodup.of_map _ (nodup_listObjects hlist)
  rw [List.perm_ext_iff_of_nodup ((hunpended.filter _).map GarbageObject.entry_injective)
    (hentries.filter _)]
  rintro ⟨id, stat⟩
  rw [List.mem_map, List.mem_filter, mem_listObjects_iff hlist]
  constructor
  · rintro ⟨g, hg, heq⟩
    obtain ⟨hg, hcollect⟩ := List.mem_filter.mp hg
    rw [collectable_iff_stale hreport hlist hg (hasked g hg)] at hcollect
    rw [GarbageObject.entry, ObjectEntry.mk.injEq] at heq
    obtain ⟨rfl, rfl⟩ := heq
    exact ⟨((mem_unpended hreport).mp hg).1, hcollect⟩
  · rintro ⟨hfile, hstale⟩
    have hg : (⟨id, stat.size, stat.modifiedSeconds⟩ : GarbageObject) ∈ s.unpended report := by
      rw [stale, Bool.and_eq_true, Bool.and_eq_true, decide_eq_true_iff, decide_eq_true_iff] at hstale
      exact (mem_unpended hreport).mpr ⟨hfile, hstale.1.2, hstale.2⟩
    refine ⟨_, List.mem_filter.mpr ⟨hg, ?_⟩, rfl⟩
    rw [collectable_iff_stale hreport hlist hg (hasked _ hg)]
    exact hstale

end Exact

/-- However it ends, a collection takes away stale files only, and no file changes. -/
theorem spared_garbageCollect (env : SessionCollectEnv) (s : ReadSession) (d : ObjectDisk)
    (hrows : (s.db.objects.map (·.objectId)).Nodup) :
    (s.garbageCollect env d).2.contents = d.contents ∧
    ∀ id, (s.garbageCollect env d).2.dir.fileOf id = d.dir.fileOf id ∨
      (s.garbageCollect env d).2.dir.fileOf id = none ∧
        ∃ stat, d.dir.fileOf id = some stat ∧ stale env s id stat = true := by
  obtain ⟨-, hsame⟩ | ⟨entries, hlist, hout, hcontents⟩ := garbageCollect_cases env s d
  · rw [hsame]
    exact ⟨rfl, fun id ↦ .inl rfl⟩
  have hreport := reconciled_reconcileObjects hrows hlist
  generalize reconcileObjects d.dir (some s.db.objects) = report at hreport hout
  generalize s.garbageCollect env d = result at hout hcontents ⊢
  refine ⟨hcontents, fun id ↦ ?_⟩
  have hspared := spared_foldlM_collectObject (env.collect s.db.objects) (s.unpended report)
    ({ status := .ok }, d.dir) id
  rw [← V3.collectGarbage, ← hout] at hspared
  obtain hsame | ⟨hgone, -, -, g, hg, rfl, hold⟩ := hspared
  · exact .inl hsame
  · obtain ⟨hfile, hrow, hstaged⟩ := (mem_unpended hreport).mp hg
    refine .inr ⟨hgone, _, hfile, ?_⟩
    rw [stale, decide_eq_true hrow, decide_eq_true hstaged, Bool.and_true, Bool.and_true]
    exact hold

/-- The candidates that go are the objects of stale files. -/
theorem mem_collectable_iff {entries : List ObjectEntry} (hlist : listObjects dir = some entries)
    (hperm : (candidates.map GarbageObject.entry).Perm (entries.filter fun e ↦ stale senv s e.id e.stat)) :
    id ∈ candidates.map (·.id) ↔ ∃ stat, dir.fileOf id = some stat ∧ stale senv s id stat = true := by
  have hmem := (hperm.map ObjectEntry.id).mem_iff (a := id)
  rw [List.map_map] at hmem
  refine hmem.trans ?_
  rw [List.mem_map]
  constructor
  · rintro ⟨e, he, rfl⟩
    obtain ⟨he, hstale⟩ := List.mem_filter.mp he
    exact ⟨e.stat, (mem_listObjects_iff hlist).mp he, hstale⟩
  · rintro ⟨stat, hfile, hstale⟩
    exact ⟨⟨id, stat⟩, List.mem_filter.mpr ⟨(mem_listObjects_iff hlist).mpr hfile, hstale⟩, rfl⟩

/-- **A collection is exact.** However it ends, it takes away stale files only, and no file changes. One
that goes through takes away all of them, counts them, and adds up their lengths, as far as the counter
reaches. -/
theorem collects_stale (env : SessionCollectEnv) (s : ReadSession) (d : ObjectDisk)
    (hrows : (s.db.objects.map (·.objectId)).Nodup) :
    (s.garbageCollect env d).2.contents = d.contents ∧
    (∀ id, (s.garbageCollect env d).2.dir.fileOf id = d.dir.fileOf id ∨
      (s.garbageCollect env d).2.dir.fileOf id = none ∧
        ∃ stat, d.dir.fileOf id = some stat ∧ stale env s id stat = true) ∧
    ((s.garbageCollect env d).1.1.status = .ok → ∃ entries, listObjects d.dir = some entries ∧
      (∀ id, (s.garbageCollect env d).2.dir.fileOf id =
        (d.dir.fileOf id).filter fun stat ↦ !stale env s id stat) ∧
      (s.garbageCollect env d).1.1.deleted = (entries.filter fun e ↦ stale env s e.id e.stat).length ∧
      (s.garbageCollect env d).1.1.reclaimedBytes =
        ((entries.filter fun e ↦ stale env s e.id e.stat).map fun e ↦ UInt64.ofNat e.stat.size).sum) := by
  obtain ⟨hcontents, hspared⟩ := spared_garbageCollect env s d hrows
  refine ⟨hcontents, hspared, fun hok ↦ ?_⟩
  obtain ⟨hstatus, -⟩ | ⟨entries, hlist, hout, -⟩ := garbageCollect_cases env s d
  · exact absurd hok hstatus
  refine ⟨entries, hlist, ?_⟩
  have hreport := reconciled_reconcileObjects hrows hlist
  generalize reconcileObjects d.dir (some s.db.objects) = report at hreport hout
  generalize s.garbageCollect env d = result at hout hok ⊢
  obtain ⟨hloop, hasked⟩ := foldlM_collectObject_of_status hout.symm hok
  have hperm := perm_collectable hreport hlist hasked
  have hnodup : ((s.unpended report).map (·.id)).Nodup := hreport.nodup.sublist (List.filter_sublist.map _)
  have hend := foldlM_collectObject_eq_ok hnodup hloop
  obtain ⟨-, hdeleted, hbytes, hfiles⟩ := foldl_removed
    ((s.unpended report).filter (collectable (env.collect s.db.objects) d.dir)) ({ status := .ok }, d.dir)
  rw [← hend] at hdeleted hbytes hfiles
  refine ⟨fun id ↦ ?_, ?_, ?_⟩
  · have hgone : id ∈ _ ↔ _ := mem_collectable_iff hlist hperm
    rw [hfiles]
    rcases hfile : d.dir.fileOf id with _ | stat
    · rw [ite_self, Option.filter_none]
    rw [Option.filter_some]
    rcases hstale : stale env s id stat with _ | _
    · rw [if_neg, Bool.not_false, if_pos rfl]
      intro hmem
      obtain ⟨stat', hfile', hstale'⟩ := hgone.mp hmem
      rw [hfile, Option.some_inj] at hfile'
      rw [← hfile', hstale] at hstale'
      cases hstale'
    · rw [if_pos (hgone.mpr ⟨stat, hfile, hstale⟩)]
      rfl
  · rw [hdeleted, ← hperm.length_eq, List.length_map, Nat.zero_add]
  · have hsum := (hperm.map fun e ↦ UInt64.ofNat e.stat.size).sum_eq
    rw [hbytes, ← hsum, List.map_map, zero_add]
    rfl

/-- A disk with the file of an object that no row refers to. -/
def leftoverDisk : ObjectDisk where
  dir := leftoverDir
  contents _ := ⟨[1, 2, 3, 4, 5], by decide⟩
  size_eq := by
    intro id stat hstat
    obtain ⟨shard, hshard, -, file, hfile, -, hstat⟩ := fileOf_eq_some_iff.mp hstat
    obtain rfl := List.mem_singleton.mp hshard
    obtain rfl := List.mem_singleton.mp hfile
    rw [← Option.some.inj hstat]
    rfl

/-- A file of five bytes goes. -/
theorem collects_stale_leftover :
    let s : ReadSession :=
      { vaultId := .ofBytes [9], unlocked := true, db := ⟨.gallery [], [], {}⟩, root := .gallery []
        settings := {}, searches := [], objects := [], objectIndex := fun _ ↦ none }
    let out := s.garbageCollect ⟨100, 50, some ⟨0, 0, 0⟩, true, fun _ ↦ true, fun _ ↦ .done⟩ leftoverDisk
    out.1.1 = { status := .ok, deleted := 1, reclaimedBytes := 5 } ∧
      out.2.dir.fileOf leftover.id = none := by
  intro s out
  obtain ⟨-, -, hok⟩ := collects_stale ⟨100, 50, some ⟨0, 0, 0⟩, true, fun _ ↦ true, fun _ ↦ .done⟩ s
    leftoverDisk List.nodup_nil
  obtain ⟨entries, -, hfiles, -⟩ := hok (by decide +kernel)
  exact ⟨by decide +kernel, (hfiles leftover.id).trans (by decide +kernel)⟩

end V3

end SafeVault
