import SafeVault.Index.Codec

/-!
# Advanced search queries

A query has weighted include terms, exclude terms, named groups of terms, a substring of the name and
a scope. It is saved as a blob of its own inside the record of a saved search.

The writer clamps lists and strings at the limits of their count fields. The reader rejects counts
beyond the limit and trailing bytes, and takes any byte for an enumeration: a combinator other than
`1` reads as `and`, a scope beyond `both` as `both`.
-/

namespace SafeVault

/-- How the terms of a group, or the groups, are combined. -/
inductive Combinator where
  | and | or
  deriving DecidableEq

namespace Combinator

def toByte : Combinator → UInt8
  | and => 0
  | or => 1

/-- `read_combinator`, after the byte was read. -/
def ofByte (b : UInt8) : Combinator := if b = 1 then or else and

@[simp] theorem ofByte_toByte (c : Combinator) : ofByte c.toByte = c := by
  cases c <;> rfl

theorem toByte_ofByte {b : UInt8} (h : b ≤ 1) : (ofByte b).toByte = b := by
  rw [UInt8.le_iff_toNat_le] at h
  have h1 : (1 : UInt8).toNat = 1 := rfl
  rw [ofByte]
  split_ifs with hb
  · exact hb.symm
  · have hne : b.toNat ≠ 1 := fun hn ↦ hb (UInt8.toNat_inj.mp hn)
    exact UInt8.toNat_inj.mp (show 0 = b.toNat by omega)

end Combinator

/-- Which kinds of nodes a search returns. -/
inductive SearchScope where
  | images | galleries | both
  deriving DecidableEq

namespace SearchScope

def toByte : SearchScope → UInt8
  | images => 0
  | galleries => 1
  | both => 2

/-- The scope of a byte; whatever is out of range is `both`. -/
def ofByte (b : UInt8) : SearchScope := if b = 0 then images else if b = 1 then galleries else both

@[simp] theorem ofByte_toByte (s : SearchScope) : ofByte s.toByte = s := by
  cases s <;> rfl

theorem toByte_ofByte {b : UInt8} (h : b ≤ 2) : (ofByte b).toByte = b := by
  rw [UInt8.le_iff_toNat_le] at h
  have h2 : (2 : UInt8).toNat = 2 := rfl
  rw [ofByte]
  split_ifs with h0 h1
  · exact h0.symm
  · exact h1.symm
  · have hne0 : b.toNat ≠ 0 := fun hn ↦ h0 (UInt8.toNat_inj.mp hn)
    have hne1 : b.toNat ≠ 1 := fun hn ↦ h1 (UInt8.toNat_inj.mp hn)
    exact UInt8.toNat_inj.mp (show 2 = b.toNat by omega)

end SearchScope

/-- An include term with its weight. -/
structure WeightedTag where
  tag : Bytes
  weight : Int32 := 1
  deriving DecidableEq

/-- A named group of terms. -/
structure TagGroup where
  name : Bytes
  combinator : Combinator := .or
  tags : List Bytes := []
  deriving DecidableEq

structure AdvancedQuery where
  includes : List WeightedTag := []
  excludes : List Bytes := []
  groups : List TagGroup := []
  groupJoin : Combinator := .and
  nameQuery : Bytes := []
  scope : SearchScope := .both
  deriving DecidableEq

/-! ## The blob of a query -/

namespace Query

/-- The limit of every list of a query. -/
def maxList : ℕ := 4096

def maxStrlen : ℕ := 0xFFFF

def queryVersion : UInt8 := 1

def writeString (s : Bytes) : Bytes := ByteWriter.str maxStrlen s

/-- One entry of the loop over the include terms. -/
def writeWeightedTag (t : WeightedTag) : Bytes :=
  writeString t.tag ++ ByteWriter.u32 t.weight.toUInt32

/-- One entry of the loop over the groups, with the byte of its combinator given. -/
def writeGroupAs (combinator : UInt8) (g : TagGroup) : Bytes :=
  writeString g.name ++ ByteWriter.u8 combinator ++ ByteWriter.list maxList writeString g.tags

def writeGroup (g : TagGroup) : Bytes := writeGroupAs g.combinator.toByte g

def readString : ByteReader Bytes := SafeVault.readString

def readStringList : ByteReader (List Bytes) := readList maxList (fun _ _ ↦ false) readString

def readCombinator : ByteReader Combinator := do
  let b ← ByteReader.u8
  pure (.ofByte b)

def readWeightedTag : ByteReader WeightedTag := do
  let tag ← readString
  let weight ← ByteReader.u32
  Read.check true
  pure { tag, weight := weight.toInt32 }

def readWeightedList : ByteReader (List WeightedTag) :=
  readList maxList (fun _ _ ↦ false) readWeightedTag

def readGroup : ByteReader TagGroup := do
  let name ← readString
  let combinator ← readCombinator
  Read.check true
  let tags ← readStringList
  pure { name, combinator, tags }

def readGroups : ByteReader (List TagGroup) := readList maxList (fun _ _ ↦ false) readGroup

/-- The blob up to the test that nothing follows. -/
def readQuery : ByteReader AdvancedQuery := do
  let version ← ByteReader.u8
  Read.check (version == queryVersion)
  let includes ← readWeightedList
  let excludes ← readStringList
  let groups ← readGroups
  let groupJoin ← readCombinator
  Read.check true
  let nameQuery ← readString
  let scope ← ByteReader.u8
  Read.check true
  pure { includes, excludes, groups, groupJoin, nameQuery, scope := .ofByte scope }

end Query

open Query in
def serializeQuery (query : AdvancedQuery) : Bytes :=
  ByteWriter.u8 queryVersion ++
    ByteWriter.list maxList writeWeightedTag query.includes ++
    ByteWriter.list maxList writeString query.excludes ++
    ByteWriter.list maxList writeGroup query.groups ++
    ByteWriter.u8 query.groupJoin.toByte ++ writeString query.nameQuery ++
    ByteWriter.u8 query.scope.toByte

/-- Decode a query, or reject the blob. -/
def deserializeQuery (blob : Bytes) : Option AdvancedQuery :=
  (Read.whole Query.readQuery (Read.start blob)).1

end SafeVault
