import Mathlib.Data.Option.Basic
import Mathlib.Data.List.Sort
import SafeVault.Lib.Hex
import SafeVault.Lib.KeyedList
import SafeVault.V3.Objects

/-!
# Object files by their names

The file of an object is named by the identity of the object in hexadecimal, below a directory named
by the first two digits. Recovery lists the files, reads the identities back from the names and
compares them with the rows of the database: a file without a row is garbage.

The reader of names takes a name apart by position and tests the pieces. It accepts the names that the
writer produces and no others, so a listing that goes through names every file by its object.
-/

namespace SafeVault

namespace V3

/-! ## Names -/

def objectRelativePath (id : NodeId) : Bytes :=
  let hex := hexEncode id.bytes
  ascii "objects/" ++ hex.take 2 ++ ascii "/" ++ hex ++ ascii ".osvo"

def parseObjectRelativePath (p : Bytes) : Option NodeId :=
  if p.length ≠ 8 + 2 + 1 + 32 + 5 || !(ascii "objects/").isPrefixOf p || p.getD 10 0 ≠ 47 ||
      !(ascii ".osvo").isSuffixOf p then none
  else
    let shard := (p.drop 8).take 2
    let hex := (p.drop 11).take 32
    if !shard.isPrefixOf hex then none
    else (hexDecode hex).map .ofBytes

/-- The path of a name below a directory of objects. -/
def pathIn (shard name : Bytes) : Bytes := ascii "objects/" ++ shard ++ ascii "/" ++ name

variable {id : NodeId} {p shard name : Bytes}

theorem length_hex (id : NodeId) : (hexEncode id.bytes).length = 32 := by
  rw [length_hexEncode, id.size, nodeIdSize]

theorem length_shardName (id : NodeId) : ((hexEncode id.bytes).take 2).length = 2 := by
  rw [List.length_take, length_hex]
  rfl

theorem length_objectRelativePath (id : NodeId) : (objectRelativePath id).length = 48 := by
  simp only [objectRelativePath, List.length_append, length_shardName, length_hex]
  rfl

/-- The name of the directory. -/
theorem shardName_objectRelativePath (id : NodeId) :
    ((objectRelativePath id).drop 8).take 2 = (hexEncode id.bytes).take 2 := by
  have hhead : (ascii "objects/").length = 8 := rfl
  simp only [objectRelativePath, List.append_assoc]
  rw [List.drop_left' hhead, List.take_left' (length_shardName id)]

/-- The name in the directory. -/
theorem fileName_objectRelativePath (id : NodeId) :
    (objectRelativePath id).drop 11 = hexEncode id.bytes ++ ascii ".osvo" := by
  have hbefore : (ascii "objects/" ++ (hexEncode id.bytes).take 2 ++ ascii "/").length = 11 := by
    simp only [List.length_append, length_shardName]
    rfl
  rw [objectRelativePath, List.append_assoc _ (hexEncode id.bytes), List.drop_left' hbefore]

theorem pathIn_objectRelativePath (id : NodeId) :
    pathIn (((objectRelativePath id).drop 8).take 2) ((objectRelativePath id).drop 11) =
      objectRelativePath id := by
  rw [shardName_objectRelativePath, fileName_objectRelativePath]
  exact (List.append_assoc _ _ _).symm

theorem parse_objectRelativePath (id : NodeId) :
    parseObjectRelativePath (objectRelativePath id) = some id := by
  have htwo := length_shardName id
  have hdigits : ((objectRelativePath id).drop 11).take 32 = hexEncode id.bytes := by
    rw [fileName_objectRelativePath, List.take_left' (length_hex id)]
  have hsep : (objectRelativePath id).getD 10 0 = 47 := by
    simp only [objectRelativePath, List.append_assoc]
    rw [List.getD_append_right _ _ _ _ (by decide),
      List.getD_append_right _ _ _ _ (by rw [htwo]; decide), htwo]
    rfl
  have hstart : (ascii "objects/").isPrefixOf (objectRelativePath id) = true := by
    simp only [List.isPrefixOf_iff_prefix, objectRelativePath, List.append_assoc]
    exact List.prefix_append _ _
  have hend : (ascii ".osvo").isSuffixOf (objectRelativePath id) = true := by
    rw [List.isSuffixOf_iff_suffix]
    exact List.suffix_append _ _
  have htake : ((hexEncode id.bytes).take 2).isPrefixOf (hexEncode id.bytes) = true :=
    List.isPrefixOf_iff_prefix.mpr (List.take_prefix _ _)
  simp only [parseObjectRelativePath, length_objectRelativePath, hstart, hsep, hend,
    shardName_objectRelativePath, hdigits, htake]
  simp

/-- What is accepted has been written for the object. -/
theorem objectRelativePath_of_parse (h : parseObjectRelativePath p = some id) :
    objectRelativePath id = p := by
  simp only [parseObjectRelativePath] at h
  split_ifs at h with hshape hshard
  simp only [Bool.or_eq_true, Bool.not_eq_true', decide_eq_true_eq, not_or, not_not,
    Bool.not_eq_false] at hshape hshard
  obtain ⟨⟨⟨hlength, hstart⟩, hsep⟩, hend⟩ := hshape
  obtain ⟨bytes, hbytes, rfl⟩ := Option.map_eq_some_iff.mp h
  have hhex := hexEncode_of_hexDecode hbytes
  have hsize : bytes.length = nodeIdSize := by
    have htotal := congrArg List.length hhex
    rw [length_hexEncode, List.length_take, List.length_drop, hlength] at htotal
    exact Nat.eq_of_mul_eq_mul_left two_pos htotal
  have hid : (NodeId.ofBytes bytes).bytes = bytes := by rw [NodeId.ofBytes, dif_pos hsize]
  -- The pieces, in order, make up the text.
  have hhead : p.take 8 = ascii "objects/" :=
    (List.prefix_iff_eq_take.mp (List.isPrefixOf_iff_prefix.mp hstart)).symm
  have htwo : (hexEncode bytes).take 2 = (p.drop 8).take 2 := by
    have htake := List.prefix_iff_eq_take.mp (List.isPrefixOf_iff_prefix.mp hshard)
    rw [List.length_take, List.length_drop, hlength] at htake
    rw [hhex]
    exact htake.symm
  have hslash : (p.drop 10).take 1 = ascii "/" := by
    rw [List.getD_eq_getElem _ _ (by omega)] at hsep
    rw [List.drop_eq_getElem_cons (by omega), hsep]
    rfl
  have htail : p.drop 43 = ascii ".osvo" := by
    have := List.suffix_iff_eq_drop.mp (List.isSuffixOf_iff_suffix.mp hend)
    rw [hlength] at this
    exact this.symm
  rw [objectRelativePath, hid, htwo, hhex, ← hhead, ← hslash, ← htail]
  have h8 := List.take_append_drop 8 p
  have h10 := List.take_append_drop 2 (p.drop 8)
  have h11 := List.take_append_drop 1 (p.drop 10)
  have h43 := List.take_append_drop 32 (p.drop 11)
  simp only [List.drop_drop] at h10 h11 h43
  simp only [List.append_assoc, h43, h11, h10, h8]

theorem objectRelativePath_injective : Function.Injective objectRelativePath := by
  intro a b h
  have hparse := parse_objectRelativePath a
  rw [h, parse_objectRelativePath] at hparse
  exact (Option.some.inj hparse).symm

/-- Among the directories with names of two bytes, a path says which file is meant. -/
theorem pathIn_inj {shard' name' : Bytes} (h : shard.length = 2) (h' : shard'.length = 2) :
    pathIn shard name = pathIn shard' name' ↔ shard = shard' ∧ name = name' := by
  simp only [pathIn, List.append_assoc, List.append_cancel_left_eq]
  constructor
  · intro heq
    obtain ⟨hshard, hrest⟩ := List.append_inj heq (h.trans h'.symm)
    exact ⟨hshard, List.append_cancel_left hrest⟩
  · rintro ⟨rfl, rfl⟩
    rfl

/-! ## The directory of objects -/

/-- What `fstat` says of a regular file that only its owner can read and that has one name. -/
structure FileStat where
  size : ℕ
  modifiedSeconds : ℤ
  deriving DecidableEq

/-- A name below a directory of objects; there is nothing known of what is not such a file. -/
structure ShardFile where
  name : Bytes
  stat : Option FileStat
  deriving DecidableEq

/-- A directory below `objects`, in the order in which it is read. No name is there twice. -/
structure Shard where
  name : Bytes
  files : List ShardFile
  opens : Bool
  readsToEnd : Bool
  nodup : (files.map ShardFile.name).Nodup

/-- The directory of objects, in the order in which it is read. -/
structure ObjectsDir where
  shards : List Shard
  opens : Bool
  readsToEnd : Bool
  nodup : (shards.map Shard.name).Nodup

/-- The names of a directory itself and of the one above it. -/
def isDots (name : Bytes) : Bool := name == ascii "." || name == ascii ".."

structure ObjectEntry where
  id : NodeId
  stat : FileStat
  deriving DecidableEq

/-- A round of the loop in `scan_object_shard`. -/
def scanFile (shard : Bytes) (result : List ObjectEntry) (file : ShardFile) :
    Option (List ObjectEntry) :=
  if isDots file.name then some result
  else do
    let id ← parseObjectRelativePath (pathIn shard file.name)
    let stat ← file.stat
    return result ++ [⟨id, stat⟩]

def scanObjectShard (shard : Shard) (result : List ObjectEntry) : Option (List ObjectEntry) := do
  guard (shard.name.length = 2 ∧ (hexValue (shard.name.getD 0 0)).isSome ∧
    (hexValue (shard.name.getD 1 0)).isSome)
  guard shard.opens
  let entries ← shard.files.foldlM (scanFile shard.name) result
  guard shard.readsToEnd
  return entries

/-- A round of the loop in `scan_objects`. -/
def scanShard (result : List ObjectEntry) (shard : Shard) : Option (List ObjectEntry) :=
  if isDots shard.name then some result else scanObjectShard shard result

def listObjects (dir : ObjectsDir) : Option (List ObjectEntry) := do
  guard dir.opens
  let entries ← dir.shards.foldlM scanShard []
  guard dir.readsToEnd
  return entries

/-- The files of a directory with their paths. -/
def Shard.listing (shard : Shard) : List (Bytes × Option FileStat) :=
  if isDots shard.name then []
  else shard.files.flatMap fun file ↦
    if isDots file.name then [] else [(pathIn shard.name file.name, file.stat)]

def ObjectsDir.listing (dir : ObjectsDir) : List (Bytes × Option FileStat) :=
  dir.shards.flatMap Shard.listing

/-- The file an entry says there is. -/
def ObjectEntry.file (entry : ObjectEntry) : Bytes × Option FileStat :=
  (objectRelativePath entry.id, some entry.stat)

/-! ## What a listing says -/

variable {result entries : List ObjectEntry} {file : ShardFile} {dir : ObjectsDir}

/-- A loop whose rounds add to the list what they read, has read everything in the end. -/
theorem foldlM_adds {α β γ : Type} {f : List β → α → Option (List β)} {g : β → γ} {h : α → List γ}
    {as : List α} {acc out : List β} (hstep : ∀ acc a out, f acc a = some out → out.map g = acc.map g ++ h a)
    (hrun : as.foldlM f acc = some out) : out.map g = acc.map g ++ as.flatMap h := by
  induction as generalizing acc with
  | nil => rw [← Option.some.inj hrun, List.flatMap_nil, List.append_nil]
  | cons a as ih =>
    obtain ⟨mid, hmid, hrest⟩ := Option.bind_eq_some_iff.mp hrun
    rw [ih hrest, hstep acc a mid hmid, List.append_assoc, List.flatMap_cons]

theorem scanFile_adds (h : scanFile shard result file = some entries) :
    entries.map ObjectEntry.file = result.map ObjectEntry.file ++
      if isDots file.name then [] else [(pathIn shard file.name, file.stat)] := by
  rw [scanFile] at h
  split_ifs at h ⊢
  · rw [← Option.some.inj h, List.append_nil]
  · obtain ⟨id, hid, hrest⟩ := Option.bind_eq_some_iff.mp h
    obtain ⟨stat, hstat, hout⟩ := Option.bind_eq_some_iff.mp hrest
    rw [← Option.some.inj hout, List.map_append, List.map_singleton, ObjectEntry.file,
      objectRelativePath_of_parse hid, hstat]

theorem scanShard_adds {shard : Shard} (h : scanShard result shard = some entries) :
    entries.map ObjectEntry.file = result.map ObjectEntry.file ++ shard.listing := by
  rw [scanShard] at h
  rw [Shard.listing]
  split_ifs at h ⊢ with hdots
  · rw [← Option.some.inj h, List.append_nil]
  · simp only [scanObjectShard, Option.bind_eq_bind, Option.bind_eq_some_iff] at h
    obtain ⟨-, -, -, -, out, hout, -, -, heq⟩ := h
    rw [← Option.some.inj heq]
    exact foldlM_adds (fun acc file out h ↦ scanFile_adds h) hout

theorem listObjects_adds (h : listObjects dir = some entries) :
    entries.map ObjectEntry.file = dir.listing := by
  simp only [listObjects, Option.bind_eq_bind, Option.bind_eq_some_iff] at h
  obtain ⟨-, -, out, hout, -, -, heq⟩ := h
  rw [← Option.some.inj heq, foldlM_adds (fun acc shard out h ↦ scanShard_adds h) hout]
  rfl

/-- Where the listing goes through, every directory in it has a name of two bytes. -/
theorem length_name_of_listObjects (h : listObjects dir = some entries) :
    ∀ shard ∈ dir.shards, isDots shard.name = false → shard.name.length = 2 := by
  simp only [listObjects, Option.bind_eq_bind, Option.bind_eq_some_iff] at h
  obtain ⟨-, -, out, hout, -⟩ := h
  generalize dir.shards = shards, ([] : List ObjectEntry) = acc at hout
  induction shards generalizing acc with
  | nil => exact nofun
  | cons shard shards ih =>
    obtain ⟨mid, hmid, hrest⟩ := Option.bind_eq_some_iff.mp hout
    refine List.forall_mem_cons.mpr ⟨fun hdots ↦ ?_, ih _ hrest⟩
    simp only [scanShard, hdots, Bool.false_eq_true, if_false, scanObjectShard, Option.bind_eq_bind,
      Option.bind_eq_some_iff, Option.guard_eq_some'] at hmid
    obtain ⟨-, ⟨hlength, -⟩, -⟩ := hmid
    exact hlength

theorem mem_listing {x : Bytes × Option FileStat} : x ∈ dir.listing ↔
    ∃ shard ∈ dir.shards, isDots shard.name = false ∧
      ∃ file ∈ shard.files, isDots file.name = false ∧ x = (pathIn shard.name file.name, file.stat) := by
  simp only [ObjectsDir.listing, Shard.listing, List.mem_flatMap]
  refine exists_congr fun shard ↦ and_congr_right fun _ ↦ ?_
  cases isDots shard.name with
  | true => simp
  | false =>
    simp only [Bool.false_eq_true, if_false, List.mem_flatMap, true_and]
    refine exists_congr fun file ↦ and_congr_right fun _ ↦ ?_
    cases isDots file.name <;> simp

/-- No path is listed twice. -/
theorem nodup_listing (h : ∀ shard ∈ dir.shards, isDots shard.name = false → shard.name.length = 2) :
    (dir.listing.map Prod.fst).Nodup := by
  have hpath : ∀ {x : Bytes} {shard : Shard}, x ∈ shard.listing.map Prod.fst →
      isDots shard.name = false ∧ ∃ file ∈ shard.files, x = pathIn shard.name file.name := by
    intro x shard hx
    obtain ⟨y, hy, rfl⟩ := List.mem_map.mp hx
    rw [Shard.listing] at hy
    split_ifs at hy with hdots
    · exact absurd hy List.not_mem_nil
    · obtain ⟨file, hfile, hy⟩ := List.mem_flatMap.mp hy
      split_ifs at hy
      · exact absurd hy List.not_mem_nil
      · exact ⟨Bool.not_eq_true _ ▸ hdots, file, hfile, by rw [List.mem_singleton.mp hy]⟩
  rw [ObjectsDir.listing, List.map_flatMap, List.nodup_flatMap]
  constructor
  · intro shard hshard
    by_cases hdots : isDots shard.name = true
    · rw [Shard.listing, if_pos hdots]
      exact List.nodup_nil
    have hlength := h shard hshard (Bool.not_eq_true _ ▸ hdots)
    rw [Shard.listing, if_neg hdots, List.map_flatMap, List.nodup_flatMap]
    refine ⟨fun file _ ↦ ?_, (List.pairwise_map.mp shard.nodup).imp fun hne ↦ ?_⟩
    · split_ifs
      · exact List.nodup_nil
      · exact List.nodup_singleton _
    · -- Two names in one directory make two paths.
      refine List.disjoint_left.mpr fun x hx hx' ↦ ?_
      dsimp only at hx hx'
      split_ifs at hx hx' <;> try exact absurd ‹_› List.not_mem_nil
      exact hne ((pathIn_inj hlength hlength).mp
        ((List.mem_singleton.mp hx).symm.trans (List.mem_singleton.mp hx'))).2
  · refine (List.pairwise_map.mp dir.nodup).imp_of_mem fun {a b} ha hb hne ↦ ?_
    refine List.disjoint_left.mpr fun x hx hx' ↦ ?_
    obtain ⟨hdots, file, -, rfl⟩ := hpath hx
    obtain ⟨hdots', file', -, heq⟩ := hpath hx'
    exact hne ((pathIn_inj (h a ha hdots) (h b hb hdots')).mp heq).1

/-- Two entries of a listing are of two objects. -/
theorem nodup_listObjects (h : listObjects dir = some entries) : (entries.map ObjectEntry.id).Nodup := by
  have hnodup := nodup_listing (length_name_of_listObjects h)
  rw [← listObjects_adds h, List.map_map] at hnodup
  exact List.Nodup.of_map objectRelativePath (by rwa [List.map_map])

/-! ## Reconciliation -/

inductive RecoveryStatus where
  | ok | databaseError | filesystemError | corrupt
  deriving DecidableEq

structure GarbageObject where
  id : NodeId
  encryptedLength : ℕ
  modifiedSeconds : ℤ
  deriving DecidableEq

structure ReconciliationReport where
  status : RecoveryStatus := .filesystemError
  referencedBytes : UInt64 := 0
  garbageBytes : UInt64 := 0
  missing : List NodeId := []
  sizeMismatches : List NodeId := []
  garbage : List GarbageObject := []
  deriving DecidableEq

/-- `std::map::try_emplace`; the map is kept in the order of its keys. -/
def tryEmplace (physical : List ObjectEntry) (entry : ObjectEntry) : Option (List ObjectEntry) := do
  guard (∀ other ∈ physical, other.id ≠ entry.id)
  return physical.orderedInsert (fun a b ↦ a.id.bytes ≤ b.id.bytes) entry

/-- A round of the loop over the references. -/
def checkReference (state : ReconciliationReport × List ObjectEntry) (reference : ObjectRecord) :
    ReconciliationReport × List ObjectEntry :=
  match state.2.find? (·.id = reference.objectId) with
  | none => ({ state.1 with missing := state.1.missing ++ [reference.objectId] }, state.2)
  | some found =>
    (if found.stat.size ≠ reference.encryptedLength then
      { state.1 with sizeMismatches := state.1.sizeMismatches ++ [reference.objectId] }
    else { state.1 with referencedBytes := state.1.referencedBytes + .ofNat found.stat.size },
      state.2.eraseP (·.id = reference.objectId))

/-- A round of the loop over what is left. -/
def addGarbage (report : ReconciliationReport) (entry : ObjectEntry) : ReconciliationReport :=
  { report with
    garbage := report.garbage ++ [⟨entry.id, entry.stat.size, entry.stat.modifiedSeconds⟩]
    garbageBytes := report.garbageBytes + .ofNat entry.stat.size }

def reconcileObjects (dir : ObjectsDir) (references : Option (List ObjectRecord)) :
    ReconciliationReport :=
  match references with
  | none => { status := .databaseError }
  | some references =>
    match listObjects dir with
    | none => { status := .filesystemError }
    | some entries =>
      match entries.foldlM tryEmplace [] with
      | none => { status := .corrupt }
      | some physical =>
        let checked := references.foldl checkReference ({ status := .ok }, physical)
        checked.2.foldl addGarbage checked.1

/-! ## What is garbage -/

variable {references : List ObjectRecord} {state : ReconciliationReport × List ObjectEntry}
  {physical : List ObjectEntry} {report : ReconciliationReport} {garbage : GarbageObject}

/-- Every entry of a listing gets a place of its own in the map. -/
theorem exists_foldlM_tryEmplace {acc : List ObjectEntry} (h : ((acc ++ entries).map ObjectEntry.id).Nodup) :
    ∃ physical, entries.foldlM tryEmplace acc = some physical ∧ physical.Perm (acc ++ entries) := by
  induction entries generalizing acc with
  | nil => exact ⟨acc, rfl, by rw [List.append_nil]⟩
  | cons entry entries ih =>
    have hfresh : ∀ other ∈ acc, other.id ≠ entry.id := by
      intro other hother
      rw [List.map_append, List.nodup_append] at h
      exact h.2.2 _ (List.mem_map_of_mem hother) _ (List.mem_map_of_mem List.mem_cons_self)
    have hperm : (acc.orderedInsert (fun a b ↦ a.id.bytes ≤ b.id.bytes) entry ++ entries).Perm
        (acc ++ entry :: entries) :=
      ((List.perm_orderedInsert _ _ _).append_right _).trans List.perm_middle.symm
    obtain ⟨physical, hrun, hphysical⟩ := ih ((hperm.map _).nodup_iff.mpr h)
    refine ⟨physical, ?_, hphysical.trans hperm⟩
    rw [List.foldlM_cons, tryEmplace, guard, if_pos hfresh]
    exact hrun

theorem snd_checkReference (h : (state.2.map ObjectEntry.id).Nodup) (reference : ObjectRecord) :
    (checkReference state reference).2 = state.2.filter (·.id ≠ reference.objectId) := by
  have herase : state.2.eraseP (·.id = reference.objectId) = state.2.filter (·.id ≠ reference.objectId) := by
    rw [KeyedList.eraseP_eq_filter (fun a ↦ decide_eq_true_iff) h]
    simp
  rw [checkReference]
  split
  · rename_i hnone
    exact herase ▸ (List.eraseP_of_forall_not (by simpa using hnone)).symm
  · exact herase

theorem fst_checkReference (state : ReconciliationReport × List ObjectEntry) (reference : ObjectRecord) :
    (checkReference state reference).1.status = state.1.status ∧
      (checkReference state reference).1.garbage = state.1.garbage := by
  rw [checkReference]
  split
  · exact ⟨rfl, rfl⟩
  · dsimp only
    split_ifs <;> exact ⟨rfl, rfl⟩

/-- What the references leave in the map, and what they do not touch of the report. -/
theorem foldl_checkReference (references : List ObjectRecord) (h : (state.2.map ObjectEntry.id).Nodup) :
    let checked := references.foldl checkReference state
    checked.2 = state.2.filter (fun entry ↦ entry.id ∉ references.map ObjectRecord.objectId) ∧
      checked.1.status = state.1.status ∧ checked.1.garbage = state.1.garbage := by
  induction references generalizing state with
  | nil => simp
  | cons reference references ih =>
    have hsnd := snd_checkReference h reference
    have hnodup : ((checkReference state reference).2.map ObjectEntry.id).Nodup := by
      rw [hsnd]
      exact h.sublist (List.filter_sublist.map _)
    obtain ⟨hmap, hstatus, hgarbage⟩ := ih hnodup
    obtain ⟨hstatus', hgarbage'⟩ := fst_checkReference state reference
    refine ⟨?_, hstatus.trans hstatus', hgarbage.trans hgarbage'⟩
    rw [List.foldl_cons, hmap, hsnd, List.filter_filter]
    refine List.filter_congr fun entry _ ↦ ?_
    simp only [List.map_cons, List.mem_cons, not_or, Bool.decide_and, Bool.and_comm]

theorem foldl_addGarbage (report : ReconciliationReport) (physical : List ObjectEntry) :
    (physical.foldl addGarbage report).status = report.status ∧
    (physical.foldl addGarbage report).garbage = report.garbage ++
      physical.map fun entry ↦ ⟨entry.id, entry.stat.size, entry.stat.modifiedSeconds⟩ := by
  induction physical generalizing report with
  | nil => simp
  | cons entry physical ih =>
    obtain ⟨hstatus, hgarbage⟩ := ih (addGarbage report entry)
    refine ⟨hstatus, ?_⟩
    rw [List.foldl_cons, hgarbage, addGarbage, List.map_cons, List.append_assoc, List.singleton_append]

/-- The file that is called garbage. -/
def GarbageObject.foundFile (g : GarbageObject) : Bytes × Option FileStat :=
  (objectRelativePath g.id, some ⟨g.encryptedLength, g.modifiedSeconds⟩)

/-- A reconciliation that goes through has found exactly the files without a reference to be garbage. -/
theorem mem_garbage_iff (hlist : listObjects dir = some entries) :
    (reconcileObjects dir (some references)).status = .ok ∧
    ∀ g : GarbageObject, g ∈ (reconcileObjects dir (some references)).garbage ↔
      g.foundFile ∈ dir.listing ∧ g.id ∉ references.map ObjectRecord.objectId := by
  have hnodup := nodup_listObjects hlist
  obtain ⟨physical, hrun, hperm⟩ :
      ∃ physical, entries.foldlM tryEmplace [] = some physical ∧ physical.Perm ([] ++ entries) :=
    exists_foldlM_tryEmplace hnodup
  rw [List.nil_append] at hperm
  have hkeys : (physical.map ObjectEntry.id).Nodup := (hperm.map _).nodup_iff.mpr hnodup
  have hchecked := @foldl_checkReference ({ status := .ok }, physical) references hkeys
  simp only [reconcileObjects, hlist, hrun]
  generalize references.foldl checkReference ({ status := .ok }, physical) = checked at hchecked
  obtain ⟨hmap, hstatus, hgarbage⟩ := hchecked
  obtain ⟨hstatus', hgarbage'⟩ := foldl_addGarbage checked.1 checked.2
  refine ⟨hstatus'.trans hstatus, fun g ↦ ?_⟩
  rw [hgarbage', hgarbage, List.nil_append, hmap, ← listObjects_adds hlist, List.mem_map, List.mem_map]
  constructor
  · rintro ⟨entry, hentry, rfl⟩
    obtain ⟨hentry, hfree⟩ := List.mem_filter.mp hentry
    exact ⟨⟨entry, hperm.mem_iff.mp hentry, rfl⟩, of_decide_eq_true hfree⟩
  · rintro ⟨⟨entry, hentry, heq⟩, hfree⟩
    obtain ⟨hpath, hstat⟩ := Prod.mk.inj heq
    have hid := objectRelativePath_injective hpath
    refine ⟨entry, List.mem_filter.mpr ⟨hperm.mem_iff.mpr hentry, ?_⟩, ?_⟩
    · rw [hid]
      exact decide_eq_true hfree
    · rw [hid, Option.some.inj hstat]

/-! ## Collection -/

/-- How `unlink_object` ends. -/
inductive UnlinkOutcome where
  | refused | unsynced | done
  deriving DecidableEq

/-- What a collection meets: the clock, the rows of the database and the file system. -/
structure CollectEnv where
  now : ℤ
  graceSeconds : ℕ
  objectIsReferenced : NodeId → Option Bool
  unlinkObject : NodeId → UnlinkOutcome

structure GarbageCollectionResult where
  status : RecoveryStatus := .filesystemError
  deleted : ℕ := 0
  reclaimedBytes : UInt64 := 0
  deriving DecidableEq

def ObjectsDir.openObject (dir : ObjectsDir) (id : NodeId) : Option FileStat := do
  guard (id ≠ .zero)
  let rel := objectRelativePath id
  guard dir.opens
  let shard ← dir.shards.find? (·.name = (rel.drop 8).take 2)
  guard shard.opens
  let file ← shard.files.find? (·.name = rel.drop 11)
  file.stat

def Shard.without (shard : Shard) (name : Bytes) : Shard where
  name := shard.name
  files := shard.files.filter (·.name ≠ name)
  opens := shard.opens
  readsToEnd := shard.readsToEnd
  nodup := shard.nodup.sublist (List.filter_sublist.map _)

/-- The directory when the file of an object is gone. -/
def ObjectsDir.unlinkObject (dir : ObjectsDir) (id : NodeId) : ObjectsDir where
  shards := dir.shards.map fun shard ↦
    if shard.name = ((objectRelativePath id).drop 8).take 2 then
      shard.without ((objectRelativePath id).drop 11)
    else shard
  opens := dir.opens
  readsToEnd := dir.readsToEnd
  nodup := by
    have hname : ∀ shard : Shard, (if shard.name = ((objectRelativePath id).drop 8).take 2 then
        shard.without ((objectRelativePath id).drop 11) else shard).name = shard.name := by
      intro shard
      split_ifs <;> rfl
    rw [List.map_map]
    exact (List.map_congr_left fun shard _ ↦ hname shard) ▸ dir.nodup

/-- A round of the loop in `collect_garbage`; `.error` is a return. -/
def collectObject (env : CollectEnv) (state : GarbageCollectionResult × ObjectsDir)
    (candidate : GarbageObject) :
    Except (GarbageCollectionResult × ObjectsDir) (GarbageCollectionResult × ObjectsDir) :=
  if candidate.modifiedSeconds > env.now ||
      (env.now - candidate.modifiedSeconds).toNat < env.graceSeconds then .ok state
  else
    match env.objectIsReferenced candidate.id with
    | none => .error ({ state.1 with status := .databaseError }, state.2)
    | some true => .ok state
    | some false =>
      match state.2.openObject candidate.id with
      | none => .ok state
      | some stat =>
        if stat.size ≠ candidate.encryptedLength then .ok state
        else
          match env.unlinkObject candidate.id with
          | .refused => .error ({ state.1 with status := .filesystemError }, state.2)
          | .unsynced =>
            .error ({ state.1 with status := .filesystemError }, state.2.unlinkObject candidate.id)
          | .done =>
            .ok ({ state.1 with
              deleted := state.1.deleted + 1
              reclaimedBytes := state.1.reclaimedBytes + .ofNat candidate.encryptedLength },
              state.2.unlinkObject candidate.id)

/-- The state in which a loop is left, at its end or before. -/
def leftIn {σ : Type} : Except σ σ → σ
  | .ok state => state
  | .error state => state

def collectGarbage (env : CollectEnv) (dir : ObjectsDir) (candidates : List GarbageObject) :
    GarbageCollectionResult × ObjectsDir :=
  leftIn (candidates.foldlM (collectObject env) ({ status := .ok }, dir))

variable {env : CollectEnv} {candidates : List GarbageObject}

/-- Only the file of the object is gone. -/
theorem path_of_unlinkObject {x : Bytes × Option FileStat} (hx : x ∈ dir.listing)
    (hgone : x ∉ (dir.unlinkObject id).listing) : x.1 = objectRelativePath id := by
  obtain ⟨shard, hshard, hdots, file, hfile, hdots', rfl⟩ := mem_listing.mp hx
  by_contra hother
  refine hgone (mem_listing.mpr ⟨_, List.mem_map_of_mem hshard, ?_⟩)
  split_ifs with hname
  · refine ⟨hdots, file, List.mem_filter.mpr ⟨hfile, decide_eq_true fun heq ↦ hother ?_⟩, hdots', rfl⟩
    exact (congrArg₂ pathIn hname heq).trans (pathIn_objectRelativePath id)
  · exact ⟨hdots, file, hfile, hdots', rfl⟩

/-- A round removes nothing, or the file of a candidate that no row refers to. -/
theorem collectObject_cases (env : CollectEnv) (state : GarbageCollectionResult × ObjectsDir)
    (candidate : GarbageObject) :
    (leftIn (collectObject env state candidate)).2 = state.2 ∨
      env.objectIsReferenced candidate.id = some false ∧
        (leftIn (collectObject env state candidate)).2 = state.2.unlinkObject candidate.id := by
  rw [collectObject]
  split
  · exact .inl rfl
  split
  · exact .inl rfl
  · exact .inl rfl
  rename_i hfree
  split
  · exact .inl rfl
  split
  · exact .inl rfl
  split
  · exact .inl rfl
  · exact .inr ⟨hfree, rfl⟩
  · exact .inr ⟨hfree, rfl⟩

theorem foldlM_collectObject_removes {state : GarbageCollectionResult × ObjectsDir}
    {x : Bytes × Option FileStat} (hx : x ∈ state.2.listing)
    (hgone : x ∉ (leftIn (candidates.foldlM (collectObject env) state)).2.listing) :
    ∃ candidate ∈ candidates, x.1 = objectRelativePath candidate.id ∧
      env.objectIsReferenced candidate.id = some false := by
  induction candidates generalizing state with
  | nil => exact absurd hx hgone
  | cons candidate candidates ih =>
    by_cases hround : x ∈ (leftIn (collectObject env state candidate)).2.listing
    · -- It was there after this round, so a later one has removed it.
      rw [List.foldlM_cons] at hgone
      cases hfirst : collectObject env state candidate with
      | error out =>
        rw [hfirst] at hgone hround
        exact absurd hround hgone
      | ok out =>
        rw [hfirst] at hgone hround
        obtain ⟨other, hother, h⟩ := ih hround hgone
        exact ⟨other, List.mem_cons_of_mem _ hother, h⟩
    · obtain heq | ⟨hfree, heq⟩ := collectObject_cases env state candidate
      · exact absurd (heq ▸ hx) hround
      · exact ⟨candidate, List.mem_cons_self, path_of_unlinkObject hx (heq ▸ hround), hfree⟩

/-! ## Names and objects -/

/-- **Every object has one name and every name one object**: writing and reading names are inverse to each
other, a listing has an entry for each file and no object twice, what reconciliation calls garbage are the
files of objects without a reference, and collection removes no other file than such a one. -/
theorem object_names (dir : ObjectsDir) (references : Option (List ObjectRecord)) (env : CollectEnv)
    (candidates : List GarbageObject) :
    (∀ id, parseObjectRelativePath (objectRelativePath id) = some id) ∧
    (∀ p id, parseObjectRelativePath p = some id → objectRelativePath id = p) ∧
    (∀ entries, listObjects dir = some entries →
      (entries.map ObjectEntry.id).Nodup ∧ entries.map ObjectEntry.file = dir.listing) ∧
    (reconcileObjects dir references).status ≠ .corrupt ∧
    (∀ g ∈ (reconcileObjects dir references).garbage, g.foundFile ∈ dir.listing ∧
      ∃ rows, references = some rows ∧ g.id ∉ rows.map ObjectRecord.objectId) ∧
    (∀ rows, (reconcileObjects dir references).status = .ok → references = some rows →
      ∀ x ∈ dir.listing, ∃ id stat, x = (objectRelativePath id, some stat) ∧
        (id ∈ rows.map ObjectRecord.objectId ∨
          ⟨id, stat.size, stat.modifiedSeconds⟩ ∈ (reconcileObjects dir references).garbage)) ∧
    ∀ x ∈ dir.listing, x ∉ (collectGarbage env dir candidates).2.listing →
      ∃ candidate ∈ candidates, x.1 = objectRelativePath candidate.id ∧
        env.objectIsReferenced candidate.id = some false := by
  have hreport : (reconcileObjects dir references).status ≠ .corrupt ∧
      ((reconcileObjects dir references).garbage = [] ∧ (reconcileObjects dir references).status ≠ .ok ∨
        ∃ rows entries, references = some rows ∧ listObjects dir = some entries) := by
    match references, hlist : listObjects dir with
    | none, _ => exact ⟨nofun, .inl ⟨rfl, nofun⟩⟩
    | some rows, none =>
      rw [reconcileObjects, hlist]
      exact ⟨nofun, .inl ⟨rfl, nofun⟩⟩
    | some rows, some entries =>
      rw [(mem_garbage_iff hlist).1]
      exact ⟨nofun, .inr ⟨rows, entries, rfl, rfl⟩⟩
  obtain ⟨hstatus, hcases⟩ := hreport
  refine ⟨parse_objectRelativePath, fun p id ↦ objectRelativePath_of_parse,
    fun entries h ↦ ⟨nodup_listObjects h, listObjects_adds h⟩, hstatus, ?_, ?_,
    fun x hx hgone ↦ foldlM_collectObject_removes hx hgone⟩
  · intro g hg
    obtain ⟨hnone, -⟩ | ⟨rows, entries, rfl, hlist⟩ := hcases
    · exact absurd (hnone ▸ hg) List.not_mem_nil
    · obtain ⟨hfile, hfree⟩ := ((mem_garbage_iff hlist).2 g).mp hg
      exact ⟨hfile, rows, rfl, hfree⟩
  · rintro rows hok rfl x hx
    obtain ⟨-, hnot⟩ | ⟨rows', entries, hrows, hlist⟩ := hcases
    · exact absurd hok hnot
    · obtain ⟨entry, -, rfl⟩ := List.mem_map.mp (listObjects_adds hlist ▸ hx)
      refine ⟨entry.id, entry.stat, rfl, or_iff_not_imp_left.mpr fun hfree ↦ ?_⟩
      exact ((mem_garbage_iff hlist).2 _).mpr ⟨hx, hfree⟩

/-- An object that no row refers to. -/
def leftover : GarbageObject := ⟨.ofBytes [0, 1, 2, 3, 4, 5, 6, 7, 8, 9, 10, 11, 12, 13, 14, 15], 5, 0⟩

/-- The directory with its file only. -/
def leftoverDir : ObjectsDir where
  shards := [{
    name := ascii "00"
    files := [⟨ascii "000102030405060708090a0b0c0d0e0f.osvo", some ⟨5, 0⟩⟩]
    opens := true
    readsToEnd := true
    nodup := List.nodup_singleton _ }]
  opens := true
  readsToEnd := true
  nodup := List.nodup_singleton _

theorem object_names_leftover :
    objectRelativePath leftover.id = ascii "objects/00/000102030405060708090a0b0c0d0e0f.osvo" ∧
    [ObjectEntry.file ⟨leftover.id, ⟨5, 0⟩⟩] = leftoverDir.listing ∧
    leftover.foundFile ∈ leftoverDir.listing ∧
    (∃ id stat, leftover.foundFile = (objectRelativePath id, some stat) ∧
      (id ∈ [] ∨ ⟨id, stat.size, stat.modifiedSeconds⟩ ∈ (reconcileObjects leftoverDir (some [])).garbage)) ∧
    ∃ candidate ∈ [leftover], leftover.foundFile.1 = objectRelativePath candidate.id := by
  obtain ⟨-, hread, hlist, -, hgarbage, hfiles, hcollect⟩ := object_names leftoverDir (some [])
    ⟨100, 50, fun _ ↦ some false, fun _ ↦ .done⟩ [leftover]
  obtain ⟨candidate, hmem, hpath, -⟩ := hcollect leftover.foundFile (by decide +kernel) (by decide +kernel)
  exact ⟨hread _ _ (by decide +kernel), (hlist [⟨leftover.id, ⟨5, 0⟩⟩] (by decide +kernel)).2,
    (hgarbage leftover (by decide +kernel)).1, hfiles [] (by decide +kernel) rfl _ (by decide +kernel),
    candidate, hmem, hpath⟩

end V3

end SafeVault
