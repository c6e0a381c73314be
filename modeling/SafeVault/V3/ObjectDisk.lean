import SafeVault.V3.ObjectPaths
import SafeVault.V3.ObjectRoundTrip

/-!
# Object files on a disk

The directory of objects with the bytes of its files. A file comes into its place whole, under a name
that was free, and is not written to afterwards; it goes when it is unlinked. Both can have happened
and still be reported as failed, when the directory could not be synchronised.

What the store does to its map of files is what happens on the disk, as long as directories can be
opened: this is the theorem that lets the round trip of object files be used here.
-/

namespace SafeVault

namespace V3

variable {dir : ObjectsDir} {id id' : NodeId} {stat : FileStat} {shard : Shard} {name : Bytes}

/-! ## The file of an object -/

/-- The directory an object belongs to. -/
def shardOf (id : NodeId) : Bytes := ((objectRelativePath id).drop 8).take 2

/-- The name of an object in it. -/
def nameOf (id : NodeId) : Bytes := (objectRelativePath id).drop 11

theorem shardOf_eq (id : NodeId) : shardOf id = (hexEncode id.bytes).take 2 :=
  shardName_objectRelativePath id

theorem nameOf_eq (id : NodeId) : nameOf id = hexEncode id.bytes ++ ascii ".osvo" :=
  fileName_objectRelativePath id

theorem nameOf_injective : Function.Injective nameOf := by
  intro a b h
  apply objectRelativePath_injective
  rw [nameOf_eq, nameOf_eq, List.append_cancel_right_eq] at h
  rw [objectRelativePath, objectRelativePath, h]

theorem length_shardOf (id : NodeId) : (shardOf id).length = 2 := shardOf_eq id ▸ length_shardName id

theorem isDots_shardOf (id : NodeId) : isDots (shardOf id) = false := by
  have hlen := length_shardOf id
  rw [isDots, Bool.or_eq_false_iff, beq_eq_false_iff_ne, beq_eq_false_iff_ne]
  refine ⟨fun h ↦ ?_, fun h ↦ ?_⟩
  · rw [h] at hlen
    cases hlen
  · -- A dot is not a hexadecimal digit.
    have hdot : (46 : UInt8) ∈ hexEncode id.bytes := by
      refine List.mem_of_mem_take (i := 2) ?_
      rw [← shardOf_eq, h]
      exact List.mem_cons_self
    exact absurd (isSome_hexValue_of_mem hdot) (by decide)

theorem isDots_nameOf (id : NodeId) : isDots (nameOf id) = false := by
  have hlen : 5 ≤ (nameOf id).length := by
    rw [nameOf_eq, List.length_append]
    exact Nat.le_add_left _ _
  rw [isDots, Bool.or_eq_false_iff, beq_eq_false_iff_ne, beq_eq_false_iff_ne]
  refine ⟨fun h ↦ ?_, fun h ↦ ?_⟩ <;>
  · rw [h] at hlen
    exact absurd hlen (by decide)

/-- The regular file of an object, whether or not it can be opened. -/
def ObjectsDir.fileOf (dir : ObjectsDir) (id : NodeId) : Option FileStat := do
  let shard ← dir.shards.find? (·.name = shardOf id)
  let file ← shard.files.find? (·.name = nameOf id)
  file.stat

theorem find?_shard_eq_some_iff :
    dir.shards.find? (·.name = name) = some shard ↔ shard ∈ dir.shards ∧ shard.name = name :=
  KeyedList.find?_eq_some_iff (fun _ ↦ decide_eq_true_iff) dir.nodup

theorem find?_file_eq_some_iff {file : ShardFile} :
    shard.files.find? (·.name = name) = some file ↔ file ∈ shard.files ∧ file.name = name :=
  KeyedList.find?_eq_some_iff (fun _ ↦ decide_eq_true_iff) shard.nodup

theorem fileOf_eq_some_iff : dir.fileOf id = some stat ↔
    ∃ shard ∈ dir.shards, shard.name = shardOf id ∧
      ∃ file ∈ shard.files, file.name = nameOf id ∧ file.stat = some stat := by
  rw [ObjectsDir.fileOf, Option.bind_eq_bind, Option.bind_eq_some_iff]
  simp only [Option.bind_eq_bind, Option.bind_eq_some_iff, find?_shard_eq_some_iff,
    find?_file_eq_some_iff, and_assoc]

theorem openObject_eq_some_iff : dir.openObject id = some stat ↔ id ≠ .zero ∧ dir.opens = true ∧
    ∃ shard ∈ dir.shards, shard.name = shardOf id ∧ shard.opens = true ∧
      ∃ file ∈ shard.files, file.name = nameOf id ∧ file.stat = some stat := by
  simp only [ObjectsDir.openObject, Option.bind_eq_bind, Option.bind_eq_some_iff,
    Option.guard_eq_some', find?_shard_eq_some_iff, find?_file_eq_some_iff, exists_const, and_assoc]
  rfl

/-- What can be opened is there. -/
theorem fileOf_of_openObject (h : dir.openObject id = some stat) : dir.fileOf id = some stat := by
  obtain ⟨-, -, shard, hshard, hname, -, hfile⟩ := openObject_eq_some_iff.mp h
  exact fileOf_eq_some_iff.mpr ⟨shard, hshard, hname, hfile⟩

/-- Nothing stands in the way of opening files. -/
def ObjectsDir.Opens (dir : ObjectsDir) : Prop := dir.opens = true ∧ ∀ shard ∈ dir.shards, shard.opens = true

/-- What is there can be opened. -/
theorem openObject_of_fileOf (hopens : dir.Opens) (hid : id ≠ .zero) (h : dir.fileOf id = some stat) :
    dir.openObject id = some stat := by
  obtain ⟨shard, hshard, hname, hfile⟩ := fileOf_eq_some_iff.mp h
  exact openObject_eq_some_iff.mpr ⟨hid, hopens.1, shard, hshard, hname, hopens.2 shard hshard, hfile⟩

/-- **A listing that goes through** has the files of objects. -/
theorem mem_listObjects_iff {entries : List ObjectEntry} (h : listObjects dir = some entries) :
    ⟨id, stat⟩ ∈ entries ↔ dir.fileOf id = some stat := by
  have hlength := length_name_of_listObjects h
  have hmem : ⟨id, stat⟩ ∈ entries ↔ (objectRelativePath id, some stat) ∈ dir.listing := by
    rw [← listObjects_adds h, List.mem_map]
    constructor
    · intro hentry
      exact ⟨_, hentry, rfl⟩
    · rintro ⟨⟨other, found⟩, hentry, heq⟩
      obtain ⟨hpath, hstat⟩ := Prod.mk.inj heq
      obtain rfl : other = id := objectRelativePath_injective hpath
      obtain rfl : found = stat := Option.some.inj hstat
      exact hentry
  rw [hmem, mem_listing, fileOf_eq_some_iff]
  constructor
  · rintro ⟨shard, hshard, hdots, file, hfile, -, heq⟩
    obtain ⟨hpath, hstat⟩ := Prod.mk.inj heq
    rw [← pathIn_objectRelativePath] at hpath
    obtain ⟨hname, hfileName⟩ :=
      (pathIn_inj (length_shardOf id) (hlength shard hshard hdots)).mp hpath
    exact ⟨shard, hshard, hname.symm, file, hfile, hfileName.symm, hstat.symm⟩
  · rintro ⟨shard, hshard, hname, file, hfile, hfileName, hstat⟩
    refine ⟨shard, hshard, hname ▸ isDots_shardOf id, file, hfile, hfileName ▸ isDots_nameOf id, ?_⟩
    rw [hname, hfileName, hstat]
    exact congrArg (·, some stat) (pathIn_objectRelativePath id).symm

/-- Where the listing goes through, the directories open. -/
theorem opens_of_listObjects {entries : List ObjectEntry} (h : listObjects dir = some entries) :
    dir.opens = true ∧ ∀ shard ∈ dir.shards, isDots shard.name = false → shard.opens = true := by
  simp only [listObjects, Option.bind_eq_bind, Option.bind_eq_some_iff, Option.guard_eq_some'] at h
  obtain ⟨-, hopens, out, hout, -⟩ := h
  refine ⟨hopens, ?_⟩
  generalize dir.shards = shards, ([] : List ObjectEntry) = acc at hout
  induction shards generalizing acc with
  | nil =>
    intro shard hshard
    cases hshard
  | cons shard shards ih =>
    obtain ⟨mid, hmid, hrest⟩ := Option.bind_eq_some_iff.mp hout
    refine List.forall_mem_cons.mpr ⟨?_, ih _ hrest⟩
    intro hdots
    simp only [scanShard, hdots, Bool.false_eq_true, if_false, scanObjectShard, Option.bind_eq_bind,
      Option.bind_eq_some_iff, Option.guard_eq_some'] at hmid
    obtain ⟨-, -, -, hshard, -⟩ := hmid
    exact hshard

/-- In a directory that could be listed every file can be opened. -/
theorem openObject_of_listObjects {entries : List ObjectEntry} (hlist : listObjects dir = some entries)
    (hid : id ≠ .zero) (h : dir.fileOf id = some stat) : dir.openObject id = some stat := by
  obtain ⟨shard, hshard, hname, hfile⟩ := fileOf_eq_some_iff.mp h
  obtain ⟨hdir, hopens⟩ := opens_of_listObjects hlist
  exact openObject_eq_some_iff.mpr
    ⟨hid, hdir, shard, hshard, hname, hopens shard hshard (hname ▸ isDots_shardOf id), hfile⟩

/-- Unlinking takes one file away. -/
theorem fileOf_unlinkObject :
    (dir.unlinkObject id).fileOf id' = if id' = id then none else dir.fileOf id' := by
  ext stat
  rw [fileOf_eq_some_iff]
  constructor
  · rintro ⟨shard, hshard, hname, file, hfile, hfileName, hstat⟩
    obtain ⟨old, hold, rfl⟩ := List.mem_map.mp hshard
    split_ifs at hname hfile with hin
    · obtain ⟨hfile, hne⟩ := List.mem_filter.mp hfile
      have hid : id' ≠ id := by
        rintro rfl
        exact of_decide_eq_true hne hfileName
      rw [if_neg hid, fileOf_eq_some_iff]
      exact ⟨old, hold, hname, file, hfile, hfileName, hstat⟩
    · have hid : id' ≠ id := by
        rintro rfl
        exact hin hname
      rw [if_neg hid, fileOf_eq_some_iff]
      exact ⟨old, hold, hname, file, hfile, hfileName, hstat⟩
  · intro h
    split_ifs at h with hid
    obtain ⟨shard, hshard, hname, file, hfile, hfileName, hstat⟩ := fileOf_eq_some_iff.mp h
    refine ⟨_, List.mem_map_of_mem hshard, ?_⟩
    split_ifs with hin
    · refine ⟨hname, file, List.mem_filter.mpr ⟨hfile, decide_eq_true fun heq ↦ hid ?_⟩, hfileName, hstat⟩
      exact nameOf_injective (hfileName.symm.trans heq)
    · exact ⟨hname, file, hfile, hfileName, hstat⟩

/-! ## Publication -/

/-- A name is taken. -/
def Shard.has (shard : Shard) (name : Bytes) : Bool := shard.files.any fun file ↦ file.name = name

def ObjectsDir.hasShard (dir : ObjectsDir) (name : Bytes) : Bool :=
  dir.shards.any fun shard ↦ shard.name = name

theorem Shard.has_iff {name : Bytes} : shard.has name = true ↔ name ∈ shard.files.map (·.name) := by
  rw [Shard.has, List.any_eq_true, List.mem_map]
  simp only [decide_eq_true_iff]

theorem hasShard_iff {name : Bytes} : dir.hasShard name = true ↔ name ∈ dir.shards.map (·.name) := by
  rw [ObjectsDir.hasShard, List.any_eq_true, List.mem_map]
  simp only [decide_eq_true_iff]

/-- A directory with a file more, if its name is not taken. -/
def Shard.withFile (shard : Shard) (file : ShardFile) : Shard where
  name := shard.name
  files := if shard.has file.name then shard.files else shard.files ++ [file]
  opens := shard.opens
  readsToEnd := shard.readsToEnd
  nodup := by
    split_ifs with hname
    · exact shard.nodup
    · rw [List.map_append, List.map_singleton]
      exact List.concat_eq_append ▸ shard.nodup.concat (hname ∘ Shard.has_iff.mpr)

/-- A directory made for a file. -/
def Shard.fresh (name : Bytes) (file : ShardFile) : Shard where
  name := name
  files := [file]
  opens := true
  readsToEnd := true
  nodup := List.nodup_singleton _

/-- The file of an object can be put into its place. -/
def ObjectsDir.accepts (dir : ObjectsDir) (id : NodeId) : Bool :=
  dir.opens && dir.shards.all fun shard ↦ shard.name ≠ shardOf id ||
    (shard.opens && !shard.has (nameOf id))

/-- The directory with the file of an object in its place. -/
def ObjectsDir.publishObject (dir : ObjectsDir) (id : NodeId) (stat : FileStat) : ObjectsDir where
  shards :=
    if dir.hasShard (shardOf id) then
      dir.shards.map fun shard ↦
        if shard.name = shardOf id then shard.withFile ⟨nameOf id, some stat⟩ else shard
    else dir.shards ++ [.fresh (shardOf id) ⟨nameOf id, some stat⟩]
  opens := dir.opens
  readsToEnd := dir.readsToEnd
  nodup := by
    split_ifs with hname
    · have hsame : ∀ shard : Shard, (if shard.name = shardOf id then
          shard.withFile ⟨nameOf id, some stat⟩ else shard).name = shard.name := by
        intro shard
        split_ifs <;> rfl
      rw [List.map_map]
      exact (List.map_congr_left fun shard _ ↦ hsame shard) ▸ dir.nodup
    · rw [List.map_append, List.map_singleton]
      exact List.concat_eq_append ▸ dir.nodup.concat (hname ∘ hasShard_iff.mpr)

theorem mem_withFile {file f : ShardFile} (h : file.name ∉ shard.files.map (·.name)) :
    f ∈ (shard.withFile file).files ↔ f ∈ shard.files ∨ f = file := by
  rw [Shard.withFile]
  dsimp only
  rw [if_neg (h ∘ Shard.has_iff.mp), List.mem_append, List.mem_singleton]

/-- A directory that accepts an object opens, and has no file with its name. -/
theorem free_of_accepts (h : dir.accepts id = true) (hshard : shard ∈ dir.shards)
    (hname : shard.name = shardOf id) : shard.opens = true ∧ nameOf id ∉ shard.files.map (·.name) := by
  rw [ObjectsDir.accepts, Bool.and_eq_true, List.all_eq_true] at h
  have hshard := h.2 shard hshard
  rw [Bool.or_eq_true, decide_eq_true_iff, Bool.and_eq_true, Bool.not_eq_true', ← Bool.not_eq_true,
    Shard.has_iff] at hshard
  exact hshard.resolve_left fun hne ↦ hne hname

/-- The files, with a property of their directory, that are there after a publication: the ones before
and the new one. -/
theorem exists_publishObject {R : Bool → Prop} (hR : R true) (h : dir.accepts id = true) (stat : FileStat)
    (id' : NodeId) (stat' : FileStat) :
    (∃ shard ∈ (dir.publishObject id stat).shards, shard.name = shardOf id' ∧ R shard.opens ∧
      ∃ file ∈ shard.files, file.name = nameOf id' ∧ file.stat = some stat') ↔
    (∃ shard ∈ dir.shards, shard.name = shardOf id' ∧ R shard.opens ∧
      ∃ file ∈ shard.files, file.name = nameOf id' ∧ file.stat = some stat') ∨
    id' = id ∧ stat' = stat := by
  rw [ObjectsDir.publishObject]
  dsimp only
  by_cases hthere : dir.hasShard (shardOf id) = true
  · rw [if_pos hthere]
    obtain ⟨own, hown, hownName⟩ := List.mem_map.mp (hasShard_iff.mp hthere)
    constructor
    · rintro ⟨shard, hshard, hname, hopens, file, hfile, hfileName, hstat⟩
      obtain ⟨old, hold, rfl⟩ := List.mem_map.mp hshard
      split_ifs at hname hopens hfile with hin
      · rw [mem_withFile (free_of_accepts h hold hin).2] at hfile
        obtain hfile | rfl := hfile
        · exact .inl ⟨old, hold, hname, hopens, file, hfile, hfileName, hstat⟩
        · exact .inr ⟨nameOf_injective hfileName.symm, (Option.some.inj hstat).symm⟩
      · exact .inl ⟨old, hold, hname, hopens, file, hfile, hfileName, hstat⟩
    · rintro (⟨shard, hshard, hname, hopens, file, hfile, hfileName, hstat⟩ | ⟨rfl, rfl⟩)
      · refine ⟨_, List.mem_map_of_mem hshard, ?_⟩
        split_ifs with hin
        · exact ⟨hname, hopens, file, (mem_withFile (free_of_accepts h hshard hin).2).mpr (.inl hfile),
            hfileName, hstat⟩
        · exact ⟨hname, hopens, file, hfile, hfileName, hstat⟩
      · obtain ⟨hopens, hfree⟩ := free_of_accepts h hown hownName
        refine ⟨_, List.mem_map_of_mem hown, ?_⟩
        rw [if_pos hownName]
        exact ⟨hownName, show R own.opens from hopens ▸ hR, _, (mem_withFile hfree).mpr (.inr rfl), rfl, rfl⟩
  · rw [if_neg hthere]
    constructor
    · rintro ⟨shard, hshard, hname, hopens, file, hfile, hfileName, hstat⟩
      obtain hshard | hshard := List.mem_append.mp hshard
      · exact .inl ⟨shard, hshard, hname, hopens, file, hfile, hfileName, hstat⟩
      · obtain rfl := List.mem_singleton.mp hshard
        obtain rfl := List.mem_singleton.mp hfile
        exact .inr ⟨nameOf_injective hfileName.symm, (Option.some.inj hstat).symm⟩
    · rintro (⟨shard, hshard, hrest⟩ | ⟨rfl, rfl⟩)
      · exact ⟨shard, List.mem_append_left _ hshard, hrest⟩
      · exact ⟨_, List.mem_append_right _ List.mem_cons_self, rfl, hR, _, List.mem_cons_self, rfl, rfl⟩

theorem fileOf_of_accepts (h : dir.accepts id = true) : dir.fileOf id = none := by
  by_contra hsome
  obtain ⟨stat, hstat⟩ := Option.ne_none_iff_exists'.mp hsome
  obtain ⟨shard, hshard, hname, file, hfile, hfileName, -⟩ := fileOf_eq_some_iff.mp hstat
  exact (free_of_accepts h hshard hname).2 (List.mem_map.mpr ⟨file, hfile, hfileName⟩)

theorem fileOf_publishObject (h : dir.accepts id = true) :
    (dir.publishObject id stat).fileOf id' = if id' = id then some stat else dir.fileOf id' := by
  ext stat'
  have hfiles := exists_publishObject (R := fun _ ↦ True) trivial h stat id' stat'
  simp only [true_and, ← fileOf_eq_some_iff] at hfiles
  rw [hfiles]
  split_ifs with hid
  · rw [hid, fileOf_of_accepts h, Option.some_inj]
    exact ⟨fun h ↦ h.elim (fun h ↦ by cases h) fun h ↦ h.2.symm, fun h ↦ .inr ⟨rfl, h.symm⟩⟩
  · exact or_iff_left fun h ↦ hid h.1

theorem openObject_publishObject (hid : id ≠ .zero) (h : dir.accepts id = true) :
    (dir.publishObject id stat).openObject id' = if id' = id then some stat else dir.openObject id' := by
  ext stat'
  have hopens : dir.opens = true := by
    rw [ObjectsDir.accepts, Bool.and_eq_true] at h
    exact h.1
  have hfiles := exists_publishObject (R := fun opens ↦ opens = true) rfl h stat id' stat'
  rw [openObject_eq_some_iff, hfiles]
  split_ifs with heq
  · rw [Option.some_inj]
    constructor
    · rintro ⟨-, -, ⟨shard, hshard, hname, -, file, hfile, hfileName, -⟩ | ⟨-, rfl⟩⟩
      · rw [heq] at hname hfileName
        exact absurd (List.mem_map.mpr ⟨file, hfile, hfileName⟩) (free_of_accepts h hshard hname).2
      · rfl
    · rintro rfl
      exact ⟨heq ▸ hid, hopens, .inr ⟨heq, rfl⟩⟩
  · rw [openObject_eq_some_iff]
    exact and_congr_right fun _ ↦ and_congr_right fun _ ↦ or_iff_left fun h ↦ heq h.1

/-! ## The disk -/

/-- The directory of objects, and what the files in it hold. -/
structure ObjectDisk where
  dir : ObjectsDir
  contents : NodeId → ObjectFile
  size_eq : ∀ id stat, dir.fileOf id = some stat → stat.size = (contents id).size

namespace ObjectDisk

/-- The files as the store finds them. -/
def objects (d : ObjectDisk) : Objects := fun id ↦ (d.dir.openObject id).map fun _ ↦ d.contents id

/-- The disk with one more file. -/
def withObject (d : ObjectDisk) (id : NodeId) (file : ObjectFile) (time : ℤ)
    (h : d.dir.accepts id = true) : ObjectDisk where
  dir := d.dir.publishObject id ⟨file.size, time⟩
  contents := fun id' ↦ if id' = id then file else d.contents id'
  size_eq := by
    intro id' stat hstat
    rw [fileOf_publishObject h] at hstat
    split_ifs at hstat ⊢ with hid
    · rw [← Option.some.inj hstat]
    · exact d.size_eq id' stat hstat

/-- `VaultRoot::publish`. -/
def publish (publication : Publication) (id : NodeId) (file : ObjectFile) (time : ℤ) (d : ObjectDisk) :
    Except ObjectStatus Unit × ObjectDisk :=
  if publication = .refused then (.error .ioError, d)
  else if h : d.dir.accepts id = true then
    (require (publication = .done) .ioError, d.withObject id file time h)
  else (.error .ioError, d)

/-- `unlink_object` -/
def unlink (id : NodeId) (d : ObjectDisk) : ObjectDisk where
  dir := d.dir.unlinkObject id
  contents := d.contents
  size_eq := by
    intro id' stat hstat
    rw [fileOf_unlinkObject] at hstat
    split_ifs at hstat
    exact d.size_eq id' stat hstat

section Store

variable (D : Deflate) (C : ObjectCrypto) (masterKey : Block 32)

/-- `write_object_stream`, at some time. -/
def writeObjectStream (env : WriteEnv) (request : ObjectWriteRequest) (plaintextLength : ℕ) (time : ℤ)
    (d : ObjectDisk) : Except ObjectStatus ObjectInfo × ObjectDisk :=
  match stageObjectFile D C env masterKey request plaintextLength with
  | .error status => (.error status, d)
  | .ok (info, file) =>
    ((d.publish env.publication info.objectId file time).1.map fun _ ↦ info,
      (d.publish env.publication info.objectId file time).2)

/-- Open an object and read all of it. -/
def load (info : ObjectInfo) (d : ObjectDisk) : Except ObjectStatus Bytes := do
  let reader ← openObject C d.objects masterKey info
  readAll D C reader

end Store

variable {d d' : ObjectDisk} {file : ObjectFile} {publication : Publication} {time : ℤ}
  {D : Deflate} {C : ObjectCrypto} {masterKey : Block 32} {env : WriteEnv} {request : ObjectWriteRequest}
  {plaintextLength : ℕ} {info : ObjectInfo} {plain : Bytes}

theorem objects_withObject (hid : id ≠ .zero) (h : d.dir.accepts id = true) :
    (d.withObject id file time h).objects = fun id' ↦ if id' = id then some file else d.objects id' := by
  funext id'
  rw [objects, withObject]
  dsimp only
  rw [openObject_publishObject hid h]
  split_ifs
  · rfl
  · rfl

/-- What a publication does: nothing, or one file more. -/
theorem publish_cases (publication : Publication) (id : NodeId) (file : ObjectFile) (time : ℤ)
    (d : ObjectDisk) :
    (d.publish publication id file time = (.error .ioError, d)) ∨
    ∃ h : d.dir.accepts id = true, publication ≠ .refused ∧
      d.publish publication id file time =
        (require (publication = .done) .ioError, d.withObject id file time h) := by
  rw [publish]
  split_ifs with hrefused h
  · exact .inl rfl
  · exact .inr ⟨h, hrefused, rfl⟩
  · exact .inl rfl

/-- What a write does to the disk: nothing, or one file more, under a name that was free. -/
theorem writeObjectStream_cases (D : Deflate) (C : ObjectCrypto) (masterKey : Block 32) (env : WriteEnv)
    (request : ObjectWriteRequest) (plaintextLength : ℕ) (time : ℤ) (d : ObjectDisk) :
    (∃ status, d.writeObjectStream D C masterKey env request plaintextLength time = (.error status, d)) ∨
    ∃ (info : ObjectInfo) (file : ObjectFile) (h : d.dir.accepts info.objectId = true),
      stageObjectFile D C env masterKey request plaintextLength = .ok (info, file) ∧
      (env.publication = .unsynced ∧
        d.writeObjectStream D C masterKey env request plaintextLength time =
          (.error .ioError, d.withObject info.objectId file time h) ∨
      env.publication = .done ∧
        d.writeObjectStream D C masterKey env request plaintextLength time =
          (.ok info, d.withObject info.objectId file time h)) := by
  rw [writeObjectStream]
  rcases hstage : stageObjectFile D C env masterKey request plaintextLength with status | ⟨info, file⟩
  · exact .inl ⟨status, rfl⟩
  dsimp only
  obtain hnone | ⟨h, hrefused, hsome⟩ := publish_cases env.publication info.objectId file time d
  · rw [hnone]
    exact .inl ⟨.ioError, rfl⟩
  · rw [hsome]
    refine .inr ⟨info, file, h, rfl, ?_⟩
    rcases hpublication : env.publication
    · exact absurd hpublication hrefused
    · exact .inl ⟨rfl, rfl⟩
    · exact .inr ⟨rfl, rfl⟩

theorem objectId_ne_of_stageObjectFile
    (h : stageObjectFile D C env masterKey request plaintextLength = .ok (info, file)) :
    info.objectId ≠ .zero := by
  obtain ⟨hvalid, -⟩ := stageObjectFile_eq_ok h
  simp only [validExpectedInfo, Bool.and_eq_true, decide_eq_true_eq] at hvalid
  exact hvalid.1.1.1.1.1

/-- The recorded length is that of the file. -/
theorem encryptedLength_of_stageObjectFile
    (h : stageObjectFile D C env masterKey request plaintextLength = .ok (info, file)) :
    info.encryptedLength = file.size := by
  obtain ⟨-, -, -, -, info', encryptedLength, rfl, hw⟩ := stageObjectFile_eq_ok h
  obtain ⟨-, -, -, -, -, -, -, -, hlength⟩ := writeFile_eq_ok hw
  exact hlength

/-- A write that goes through has found a free name. -/
theorem withObject_of_writeObjectStream
    (h : d.writeObjectStream D C masterKey env request plaintextLength time = (.ok info, d')) :
    env.publication = .done ∧ ∃ file, ∃ haccepts : d.dir.accepts info.objectId = true,
      stageObjectFile D C env masterKey request plaintextLength = .ok (info, file) ∧
      d' = d.withObject info.objectId file time haccepts := by
  obtain ⟨status, hout⟩ | ⟨info', file, haccepts, hstage, ⟨-, hout⟩ | ⟨hdone, hout⟩⟩ :=
    writeObjectStream_cases D C masterKey env request plaintextLength time d
  · rw [h] at hout
    cases hout
  · rw [h] at hout
    cases hout
  · rw [h] at hout
    obtain ⟨hinfo, hd⟩ := Prod.mk.inj hout
    obtain rfl : info = info' := Except.ok.inj hinfo
    exact ⟨hdone, file, haccepts, hstage, hd⟩

/-- **The disk does what the store says.** -/
theorem writeObjectStream_eq_ok
    (h : d.writeObjectStream D C masterKey env request plaintextLength time = (.ok info, d')) :
    V3.writeObjectStream D C env masterKey request plaintextLength d.objects =
      (.ok info, d'.objects) := by
  obtain ⟨hdone, file, haccepts, hstage, rfl⟩ := withObject_of_writeObjectStream h
  have hnone : d.objects info.objectId = none := by
    rw [objects, Option.map_eq_none_iff, Option.eq_none_iff_forall_ne_some]
    intro stat hstat
    have hfile := fileOf_of_openObject hstat
    rw [fileOf_of_accepts haccepts] at hfile
    cases hfile
  rw [V3.writeObjectStream, hstage]
  dsimp only
  rw [V3.publish, hdone, hnone, if_neg (by simp),
    objects_withObject (objectId_ne_of_stageObjectFile hstage) haccepts]
  rfl

/-! ## What a file holds -/

/-- The object is read from the file, wherever the file is found. -/
def Encloses (D : Deflate) (C : ObjectCrypto) (masterKey : Block 32) (file : ObjectFile) (info : ObjectInfo)
    (plain : Bytes) : Prop :=
  ∃ reader, openObject C (fun _ ↦ some file) masterKey info = .ok reader ∧ readAll D C reader = .ok plain

/-- Opening looks at one file. -/
theorem openObject_of_eq_some {objects : Objects} {reader : ObjectReader}
    (h : objects info.objectId = some file) :
    openObject C objects masterKey info = .ok reader ↔
      openObject C (fun _ ↦ some file) masterKey info = .ok reader := by
  rw [openObject_eq_ok_iff, openObject_eq_ok_iff, h]

theorem load_of_encloses (h : Encloses D C masterKey (d.contents info.objectId) info plain) {stat : FileStat}
    (hopen : d.dir.openObject info.objectId = some stat) : d.load D C masterKey info = .ok plain := by
  obtain ⟨reader, hreader, hall⟩ := h
  have hfile : d.objects info.objectId = some (d.contents info.objectId) := by
    rw [objects, hopen, Option.map_some]
  rw [load, (openObject_of_eq_some hfile).mpr hreader]
  exact hall

/-- The frames the caller handed out for an object, one after another. -/
def handedOut (env : WriteEnv) (info : ObjectInfo) : Bytes :=
  (List.range info.frameCount).flatMap fun frame ↦ (readPlain env info frame).getD []

/-- **What was written is read.** -/
theorem encloses_of_writeObjectStream
    (h : d.writeObjectStream D C masterKey env request plaintextLength time = (.ok info, d')) :
    Encloses D C masterKey (d'.contents info.objectId) info (handedOut env info) := by
  obtain ⟨reader, plains, hopen, hreads, hplains⟩ := reads_of_writeObjectStream (writeObjectStream_eq_ok h)
  obtain ⟨-, hfile, -⟩ := openObject_eq_ok_iff.mp hopen
  have hcontents : d'.objects info.objectId = some (d'.contents info.objectId) := by
    rw [objects, Option.map_eq_some_iff] at hfile
    obtain ⟨stat, hstat, -⟩ := hfile
    rw [objects, hstat, Option.map_some]
  refine ⟨reader, (openObject_of_eq_some hcontents).mp hopen, ?_⟩
  have hhanded : handedOut env info = plains.flatten := by
    have hget : (List.range info.frameCount).map (fun frame ↦ (readPlain env info frame).getD []) =
        plains := by
      have hmap := congrArg (List.map fun plain : Option Bytes ↦ plain.getD []) hplains
      rw [List.map_map, List.map_map] at hmap
      exact hmap.trans (List.map_id _)
    rw [handedOut, ← hget, List.flatMap]
  rw [hhanded]
  exact readAll_eq hreads

end ObjectDisk

end V3

end SafeVault
