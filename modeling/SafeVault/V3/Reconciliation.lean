import SafeVault.V3.ObjectDisk

/-!
# What a reconciliation reports

The loop over the rows takes out of the map of files what a row refers to, so what a row finds there
depends on the rows before it. Rows are of different objects, and then it does not: the report says of
each row whether its file is there and of which size, and lists the files of all other objects.
-/

namespace SafeVault

namespace V3

variable {dir : ObjectsDir} {references : List ObjectRecord} {entries : List ObjectEntry}
  {state : ReconciliationReport × List ObjectEntry} {physical : List ObjectEntry} {id id' : NodeId}

/-- A row's file is not there. -/
def lost (dir : ObjectsDir) (r : ObjectRecord) : Bool := (dir.fileOf r.objectId).isNone

/-- A row's file has another size. -/
def mismatched (dir : ObjectsDir) (r : ObjectRecord) : Bool :=
  (dir.fileOf r.objectId).any fun stat ↦ stat.size ≠ r.encryptedLength

/-- A row's file is as the row says. -/
def matched (dir : ObjectsDir) (r : ObjectRecord) : Bool :=
  (dir.fileOf r.objectId).any fun stat ↦ stat.size = r.encryptedLength

/-- The file of an object in the map. -/
def lookup (physical : List ObjectEntry) (id : NodeId) : Option FileStat :=
  (physical.find? (·.id = id)).map (·.stat)

theorem lookup_filter (h : id' ≠ id) : lookup (physical.filter (·.id ≠ id)) id' = lookup physical id' := by
  rw [lookup, lookup, List.find?_filter]
  congr 2
  funext entry
  rw [decide_eq_decide, decide_eq_true_iff, decide_eq_true_iff]
  refine and_iff_right_of_imp ?_
  rintro rfl
  exact h

theorem lookup_eq_fileOf (hlist : listObjects dir = some entries) (hperm : physical.Perm entries)
    (id : NodeId) : lookup physical id = dir.fileOf id := by
  have hkeys : (physical.map ObjectEntry.id).Nodup := (hperm.map _).nodup_iff.mpr (nodup_listObjects hlist)
  ext stat
  rw [← mem_listObjects_iff hlist, ← hperm.mem_iff, lookup, Option.map_eq_some_iff]
  simp only [KeyedList.find?_eq_some_iff (fun _ ↦ decide_eq_true_iff) hkeys]
  constructor
  · rintro ⟨entry, ⟨hentry, rfl⟩, rfl⟩
    exact hentry
  · intro hentry
    exact ⟨_, ⟨hentry, rfl⟩, rfl⟩

/-! ## The rows -/

/-- What the rounds for some rows add to a report, where the files are found by `file`. -/
structure Reports (file : NodeId → Option FileStat) (references : List ObjectRecord)
    (before after : ReconciliationReport) : Prop where
  missing : after.missing = before.missing ++
    (references.filter fun r ↦ (file r.objectId).isNone).map (·.objectId)
  sizeMismatches : after.sizeMismatches = before.sizeMismatches ++
    (references.filter fun r ↦ (file r.objectId).any fun stat ↦ stat.size ≠ r.encryptedLength).map
      (·.objectId)
  referencedBytes : after.referencedBytes = before.referencedBytes +
    ((references.filter fun r ↦ (file r.objectId).any fun stat ↦ stat.size = r.encryptedLength).map
      fun r ↦ UInt64.ofNat r.encryptedLength).sum
  garbageBytes : after.garbageBytes = before.garbageBytes

theorem reports_checkReference (state : ReconciliationReport × List ObjectEntry) (r : ObjectRecord) :
    Reports (lookup state.2) [r] state.1 (checkReference state r).1 := by
  rcases hfind : state.2.find? (·.id = r.objectId) with _ | found
  · have hnone : lookup state.2 r.objectId = none := by rw [lookup, hfind, Option.map_none]
    simp only [checkReference, hfind]
    constructor <;> simp [hnone]
  have hsome : lookup state.2 r.objectId = some found.stat := by rw [lookup, hfind, Option.map_some]
  simp only [checkReference, hfind]
  by_cases hsize : found.stat.size = r.encryptedLength
  · rw [if_neg (not_not_intro hsize)]
    constructor <;> simp [hsome, hsize]
  · rw [if_pos hsize]
    constructor <;> simp [hsome, hsize]

theorem Reports.cons {file : NodeId → Option FileStat} {r : ObjectRecord}
    {before mid after : ReconciliationReport} (h : Reports file [r] before mid)
    (hrest : Reports file references mid after) : Reports file (r :: references) before after := by
  constructor
  · rw [hrest.missing, h.missing, List.append_assoc, ← List.map_append, ← List.filter_append,
      List.singleton_append]
  · rw [hrest.sizeMismatches, h.sizeMismatches, List.append_assoc, ← List.map_append,
      ← List.filter_append, List.singleton_append]
  · rw [hrest.referencedBytes, h.referencedBytes, add_assoc, ← List.sum_append, ← List.map_append,
      ← List.filter_append, List.singleton_append]
  · rw [hrest.garbageBytes, h.garbageBytes]

theorem Reports.congr {file file' : NodeId → Option FileStat} {before after : ReconciliationReport}
    (hfile : ∀ r ∈ references, file r.objectId = file' r.objectId)
    (h : Reports file references before after) : Reports file' references before after := by
  constructor
  · rw [h.missing]
    congr 2
    exact List.filter_congr fun r hr ↦ by rw [hfile r hr]
  · rw [h.sizeMismatches]
    congr 2
    exact List.filter_congr fun r hr ↦ by rw [hfile r hr]
  · rw [h.referencedBytes]
    congr 3
    exact List.filter_congr fun r hr ↦ by rw [hfile r hr]
  · exact h.garbageBytes

/-- **The loop over rows of different objects.** Each of them is reported as in the beginning. -/
theorem reports_foldl_checkReference (hids : (references.map (·.objectId)).Nodup)
    (h : (state.2.map ObjectEntry.id).Nodup) :
    Reports (lookup state.2) references state.1 (references.foldl checkReference state).1 := by
  induction references generalizing state with
  | nil => constructor <;> simp
  | cons r references ih =>
    obtain ⟨hfresh, hids⟩ := List.nodup_cons.mp hids
    have hsnd := snd_checkReference h r
    have hnodup : ((checkReference state r).2.map ObjectEntry.id).Nodup := by
      rw [hsnd]
      exact h.sublist (List.filter_sublist.map _)
    refine (reports_checkReference state r).cons ((ih hids hnodup).congr ?_)
    intro other hother
    rw [hsnd]
    apply lookup_filter
    intro heq
    exact hfresh (List.mem_map.mpr ⟨other, hother, heq⟩)

/-! ## The report -/

theorem garbageBytes_foldl_addGarbage (report : ReconciliationReport) (physical : List ObjectEntry) :
    (physical.foldl addGarbage report).garbageBytes = report.garbageBytes +
      (physical.map fun entry ↦ UInt64.ofNat entry.stat.size).sum ∧
    (physical.foldl addGarbage report).missing = report.missing ∧
    (physical.foldl addGarbage report).sizeMismatches = report.sizeMismatches ∧
    (physical.foldl addGarbage report).referencedBytes = report.referencedBytes := by
  induction physical generalizing report with
  | nil => simp
  | cons entry physical ih =>
    obtain ⟨hbytes, hrest⟩ := ih (addGarbage report entry)
    refine ⟨?_, hrest⟩
    rw [List.foldl_cons, hbytes, addGarbage, List.map_cons, List.sum_cons, add_assoc]

/-- What a reconciliation of rows and files has to say. -/
structure Reconciled (dir : ObjectsDir) (rows : List ObjectRecord) (report : ReconciliationReport) :
    Prop where
  status : report.status = .ok
  missing : report.missing = (rows.filter (lost dir)).map (·.objectId)
  sizeMismatches : report.sizeMismatches = (rows.filter (mismatched dir)).map (·.objectId)
  referencedBytes : report.referencedBytes =
    ((rows.filter (matched dir)).map fun r ↦ UInt64.ofNat r.encryptedLength).sum
  garbageBytes : report.garbageBytes = (report.garbage.map fun g ↦ UInt64.ofNat g.encryptedLength).sum
  garbage : ∀ g, g ∈ report.garbage ↔
    dir.fileOf g.id = some ⟨g.encryptedLength, g.modifiedSeconds⟩ ∧ g.id ∉ rows.map (·.objectId)
  nodup : (report.garbage.map (·.id)).Nodup

/-- **A reconciliation** of rows of different objects says so, when the files can be listed. -/
theorem reconciled_reconcileObjects (hids : (references.map (·.objectId)).Nodup)
    (hlist : listObjects dir = some entries) :
    Reconciled dir references (reconcileObjects dir (some references)) := by
  have hnodup := nodup_listObjects hlist
  obtain ⟨physical, hrun, hperm⟩ :
      ∃ physical, entries.foldlM tryEmplace [] = some physical ∧ physical.Perm ([] ++ entries) :=
    exists_foldlM_tryEmplace hnodup
  rw [List.nil_append] at hperm
  have hkeys : (physical.map ObjectEntry.id).Nodup := (hperm.map _).nodup_iff.mpr hnodup
  have hreports := @reports_foldl_checkReference references ({ status := .ok }, physical) hids hkeys
  have hchecked := @foldl_checkReference ({ status := .ok }, physical) references hkeys
  have hmem := (@mem_garbage_iff _ _ references hlist).2
  have hstatus := (@mem_garbage_iff _ _ references hlist).1
  have hreports : Reports dir.fileOf references _ _ :=
    hreports.congr fun r _ ↦ lookup_eq_fileOf hlist hperm r.objectId
  simp only [reconcileObjects, hlist, hrun] at hmem hstatus ⊢
  generalize references.foldl checkReference ({ status := .ok }, physical) = checked
    at hreports hchecked hmem hstatus ⊢
  obtain ⟨hmap, -, hnone⟩ := hchecked
  obtain ⟨-, hgarbage⟩ := foldl_addGarbage checked.1 checked.2
  obtain ⟨hbytes, hmissing, hmismatches, hreferenced⟩ := garbageBytes_foldl_addGarbage checked.1 checked.2
  rw [hnone, List.nil_append] at hgarbage
  constructor
  · exact hstatus
  · rw [hmissing, hreports.missing, List.nil_append]
    rfl
  · rw [hmismatches, hreports.sizeMismatches, List.nil_append]
    rfl
  · rw [hreferenced, hreports.referencedBytes, zero_add]
    rfl
  · rw [hbytes, hreports.garbageBytes, hgarbage, zero_add, List.map_map]
    rfl
  · intro g
    rw [hmem, ← mem_listObjects_iff hlist, ← listObjects_adds hlist, List.mem_map]
    refine and_congr_left fun _ ↦ ⟨?_, fun hg ↦ ⟨_, hg, rfl⟩⟩
    rintro ⟨⟨other, found⟩, hentry, heq⟩
    obtain ⟨hpath, hstat⟩ := Prod.mk.inj heq
    obtain rfl : other = g.id := objectRelativePath_injective hpath
    obtain rfl : found = _ := Option.some.inj hstat
    exact hentry
  · rw [hgarbage, List.map_map, hmap]
    exact hkeys.sublist (List.filter_sublist.map _)

end V3

end SafeVault
