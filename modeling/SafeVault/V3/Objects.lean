import SafeVault.V3.Metadata

/-!
# The object rows

An object is an encrypted file with the bytes of one role of one node. The table has one row for each
pair of a node and a role. A commit deletes the rows of nodes that are gone, and puts in the staged
objects of the nodes that are there, one after another; an object staged later for the same pair
takes the place of an earlier one. Objects staged for other nodes are passed over.
-/

namespace SafeVault

namespace V3

/-- What the bytes of an object are to its node. -/
inductive ObjectRole where
  | originalImage | thumbnail | poster | originalVideo
  deriving DecidableEq

/-- A pair that has at most one object. -/
abbrev ObjectKey := NodeId × ObjectRole

structure ObjectRecord where
  objectId : NodeId
  nodeId : NodeId
  role : ObjectRole
  encryptedLength : ℕ
  plaintextLength : ℕ
  framePlainLimit : ℕ
  frameCount : ℕ
  creationGeneration : ℕ
  deriving DecidableEq

def ObjectRecord.key (r : ObjectRecord) : ObjectKey := (r.nodeId, r.role)

/-- What is known of an object file. -/
structure ObjectInfo where
  objectId : NodeId
  vaultId : NodeId
  ownerNodeId : NodeId
  role : ObjectRole
  mediaFormat : UInt8
  plaintextLength : ℕ
  encryptedLength : ℕ
  framePlainLimit : ℕ
  frameCount : ℕ
  deriving DecidableEq

def ObjectInfo.key (info : ObjectInfo) : ObjectKey := (info.ownerNodeId, info.role)

/-- The staged record of a written object. -/
def ObjectInfo.record (info : ObjectInfo) : ObjectRecord where
  objectId := info.objectId
  nodeId := info.ownerNodeId
  role := info.role
  encryptedLength := info.encryptedLength
  plaintextLength := info.plaintextLength
  framePlainLimit := info.framePlainLimit
  frameCount := info.frameCount
  creationGeneration := 0

/-- The row a staged object gets. -/
def ObjectRecord.commit (generation : ℕ) (object : ObjectRecord) : ObjectRecord :=
  { object with creationGeneration := generation }

/-- `insert_object`. Lengths and counts are stored as signed integers, the count in 32 bits. -/
def objectRule : Table.Rule ObjectRecord DbStatus where
  check r := do
    require (r.objectId ≠ .zero && r.nodeId ≠ .zero && 0 < r.encryptedLength &&
      0 < r.framePlainLimit && r.framePlainLimit ≤ 1048576 && 0 < r.frameCount) .invalidArgument
    require (r.encryptedLength < 2 ^ 63 && r.plaintextLength < 2 ^ 63 && r.frameCount < 2 ^ 31 &&
      r.creationGeneration < 2 ^ 63) .constraint
  room _ := .ok ()
  clash a b := a.objectId == b.objectId || a.key == b.key
  clashes := .constraint

/-- One round of the loop over the staged objects. -/
def putStaged (generation : ℕ) (live : List NodeId) (rows : List ObjectRecord)
    (object : ObjectRecord) : Except DbStatus (List ObjectRecord) :=
  if object.nodeId ∈ live then
    Table.insert objectRule (rows.filter (·.key ≠ object.key)) (object.commit generation)
  else .ok rows

/-- The part of `sync_metadata` about objects. -/
def syncObjects (generation : ℕ) (live : List NodeId) (staged rows : List ObjectRecord) :
    Except DbStatus (List ObjectRecord) :=
  staged.foldlM (putStaged generation live) (rows.filter (·.nodeId ∈ live))

theorem honest_syncObjects {generation : ℕ} {live : List NodeId} {staged rows : List ObjectRecord} :
    Honest .ok (syncObjects generation live staged rows) := by
  refine Honest.foldlM (fun rows object ↦ ?_) _ _
  rw [putStaged]
  split_ifs
  · exact Table.honest_insert
      ⟨fun _ ↦ honest_invalid.bind fun _ ↦ honest_constraint, fun _ ↦ honest_ok, nofun⟩
  · exact honest_ok

/-- The object staged last for a pair. -/
def lastStaged (staged : List ObjectRecord) (key : ObjectKey) : Option ObjectRecord :=
  (staged.filter (·.key = key)).getLast?

variable {generation : ℕ} {live : List NodeId} {staged rows out : List ObjectRecord}
  {object r : ObjectRecord} {key : ObjectKey}

@[simp] theorem lastStaged_nil : lastStaged [] key = none := rfl

theorem lastStaged_cons : lastStaged (object :: staged) key =
    (lastStaged staged key).or (if object.key = key then some object else none) := by
  rw [lastStaged, List.filter_cons]
  by_cases h : object.key = key
  · rw [if_pos (by simpa using h), if_pos h, List.getLast?_cons, lastStaged]
    cases (staged.filter (·.key = key)).getLast? <;> rfl
  · rw [if_neg (by simpa using h), if_neg h, Option.or_none, lastStaged]

theorem lastStaged_concat : lastStaged (staged ++ [object]) key =
    if object.key = key then some object else lastStaged staged key := by
  rw [lastStaged, List.filter_append]
  by_cases h : object.key = key
  · simp [h]
  · simp [h, lastStaged]

theorem mem_putStaged (h : putStaged generation live rows object = .ok out) :
    r ∈ out ↔ if object.key = r.key ∧ object.nodeId ∈ live then r = object.commit generation
      else r ∈ rows := by
  rw [putStaged] at h
  by_cases hlive : object.nodeId ∈ live
  · rw [if_pos hlive] at h
    obtain ⟨-, -, -, rfl⟩ := Table.insert_eq_ok_iff.mp h
    rw [List.mem_append, List.mem_filter, List.mem_singleton]
    by_cases hkey : object.key = r.key
    · rw [if_pos ⟨hkey, hlive⟩]
      constructor
      · rintro (⟨-, hne⟩ | rfl)
        · simp [hkey] at hne
        · rfl
      · exact .inr
    · rw [if_neg fun h ↦ hkey h.1]
      constructor
      · rintro (⟨hr, -⟩ | rfl)
        · exact hr
        · exact absurd rfl hkey
      · exact fun hr ↦ .inl ⟨hr, by simpa using fun h ↦ hkey h.symm⟩
  · rw [if_neg hlive] at h
    cases h
    rw [if_neg fun h ↦ hlive h.2]

/-- **The rows after the loop.** A pair of a live node with a staged object has the one staged last;
every other pair keeps its row. -/
theorem mem_foldlM_putStaged (h : staged.foldlM (putStaged generation live) rows = .ok out) :
    r ∈ out ↔ (∃ object, lastStaged staged r.key = some object ∧ r.nodeId ∈ live ∧
      r = object.commit generation) ∨
      (r ∈ rows ∧ (r.nodeId ∈ live → lastStaged staged r.key = none)) := by
  induction staged generalizing rows with
  | nil =>
    cases h
    simp
  | cons object staged ih =>
    rw [List.foldlM_cons, bind_eq_ok_iff] at h
    obtain ⟨rows', hput, hrest⟩ := h
    rw [ih hrest, mem_putStaged hput, lastStaged_cons]
    by_cases hlive : r.nodeId ∈ live
    · rcases hlast : lastStaged staged r.key with _ | last
      · by_cases hkey : object.key = r.key
        · have hnode : object.nodeId = r.nodeId := congrArg Prod.fst hkey
          simp [hkey, hlive, hnode]
        · simp [hkey, hlive]
      · simp [hlive]
    · have hout : ¬ (object.key = r.key ∧ object.nodeId ∈ live) := by
        rintro ⟨hkey, hl⟩
        rw [show object.nodeId = r.nodeId from congrArg Prod.fst hkey] at hl
        exact hlive hl
      simp [hlive, hout]

/-- The rows after a commit. -/
theorem mem_syncObjects (h : syncObjects generation live staged rows = .ok out) :
    r ∈ out ↔ r.nodeId ∈ live ∧
      ((∃ object, lastStaged staged r.key = some object ∧ r = object.commit generation) ∨
        (r ∈ rows ∧ lastStaged staged r.key = none)) := by
  rw [mem_foldlM_putStaged h, List.mem_filter, decide_eq_true_iff]
  constructor
  · rintro (⟨object, hlast, hlive, hr⟩ | ⟨⟨hr, hlive⟩, hlast⟩)
    exacts [⟨hlive, .inl ⟨object, hlast, hr⟩⟩, ⟨hlive, .inr ⟨hr, hlast hlive⟩⟩]
  · rintro ⟨hlive, ⟨object, hlast, hr⟩ | ⟨hr, hlast⟩⟩
    exacts [.inl ⟨object, hlast, hlive, hr⟩, .inr ⟨⟨hr, hlive⟩, fun _ ↦ hlast⟩]

/-- No two rows exclude each other. -/
def Apart (rows : List ObjectRecord) : Prop := rows.Pairwise fun a b ↦ objectRule.clash a b = false

theorem apart_putStaged (hrows : Apart rows) (h : putStaged generation live rows object = .ok out) :
    Apart out := by
  rw [putStaged] at h
  split_ifs at h
  · obtain ⟨-, -, hclash, rfl⟩ := Table.insert_eq_ok_iff.mp h
    refine List.pairwise_append.mpr ⟨hrows.sublist List.filter_sublist,
      List.pairwise_singleton _ _, fun a ha b hb ↦ ?_⟩
    rw [List.mem_singleton.mp hb]
    exact hclash a ha
  · cases h
    exact hrows

theorem apart_syncObjects (hrows : Apart rows)
    (h : syncObjects generation live staged rows = .ok out) : Apart out := by
  rw [syncObjects] at h
  have hstart : Apart (rows.filter (·.nodeId ∈ live)) := hrows.sublist List.filter_sublist
  generalize rows.filter (·.nodeId ∈ live) = start at h hstart
  induction staged generalizing start with
  | nil =>
    cases h
    exact hstart
  | cons object staged ih =>
    rw [List.foldlM_cons, bind_eq_ok_iff] at h
    obtain ⟨rows', hput, hrest⟩ := h
    exact ih rows' hrest (apart_putStaged hstart hput)

end V3

end SafeVault
