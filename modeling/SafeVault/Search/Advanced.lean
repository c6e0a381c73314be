import SafeVault.Search.Query
import SafeVault.Lib.Places
import SafeVault.Tags.Category

/-!
# The advanced search

The walk of the tree that an advanced search makes. It carries the tags of the galleries above a node
down and the tags of everything below a gallery up, adds the virtual tags that stand for field values,
and evaluates the query against what it has then. A hit names its node by the position in the tree.

The score of a hit is a machine integer: a sum of weights, taken modulo `2 ^ 32`.
-/

namespace SafeVault

variable {μ : Type}

/-! ## Evaluating a query -/

namespace Search

open AsciiFold (lower equal)

/-- `contains_ci`. -/
def containsCi (haystack needle : Bytes) : Bool :=
  needle.isEmpty || (needle.length ≤ haystack.length &&
    (List.range (haystack.length - needle.length + 1)).any fun i ↦
      equal ((haystack.drop i).take needle.length) needle)

def tagPresent (tags : List Bytes) (tag : Bytes) : Bool := tags.any (equal · tag)

/-- An empty group constrains nothing. -/
def groupHolds (g : TagGroup) (effective : List Bytes) : Bool :=
  if g.tags.isEmpty then true
  else
    match g.combinator with
    | .and => g.tags.all (tagPresent effective)
    | .or => g.tags.any (tagPresent effective)

def nameMatchScore : Int32 := 2

def groupTagScore : Int32 := 1

def excluded (q : AdvancedQuery) (effective : List Bytes) : Bool :=
  q.excludes.any (tagPresent effective)

/-- One round of the loop over the include terms. -/
def addInclude (effective : List Bytes) (acc : Int32 × Bool) (t : WeightedTag) : Int32 × Bool :=
  if tagPresent effective t.tag then (acc.1 + t.weight, true) else acc

/-- The sum of the weights of the include terms that are present, and whether one is, given whether
one was before. -/
def includeScore (q : AdvancedQuery) (effective : List Bytes) (any : Bool) : Int32 × Bool :=
  q.includes.foldl (addInclude effective) (0, any)

def groupsPass (q : AdvancedQuery) (effective : List Bytes) : Bool :=
  if q.groups.isEmpty then true
  else
    match q.groupJoin with
    | .and => q.groups.all (groupHolds · effective)
    | .or => q.groups.any (groupHolds · effective)

def groupScore (q : AdvancedQuery) (effective : List Bytes) : Int32 :=
  (q.groups.flatMap (·.tags)).foldl (fun score t ↦
    if tagPresent effective t then score + groupTagScore else score) 0

/-- `evaluate`: the score of a match. -/
def evaluate (q : AdvancedQuery) (name : Bytes) (effective : List Bytes) : Option Int32 :=
  if excluded q effective then none
  else
    let nameHit := !q.nameQuery.isEmpty && containsCi name q.nameQuery
    if !q.nameQuery.isEmpty && !nameHit then none
    else
      let included := includeScore q effective q.includes.isEmpty
      if !included.2 then none
      else if !groupsPass q effective then none
      else
        let score := included.1 + groupScore q effective
        some (if nameHit then score + nameMatchScore else score)

/-! ## Virtual tags -/

/-- `FieldTagMap`: the virtual tags of each tag that has field values. -/
abbrev FieldTagMap := List (Bytes × List Bytes)

/-- The virtual tag of a field value. -/
def virtualTag (x : TagFieldValue) : Bytes := x.field ++ colon :: x.value

/-- One round of the loop of `FieldTagMap::build`. -/
def addFieldValue (byTag : FieldTagMap) (x : TagFieldValue) : FieldTagMap :=
  match byTag.findIdx? fun e ↦ tagCiEqual e.1 x.tag with
  | some i => byTag.modify i fun e ↦ (e.1, e.2 ++ [virtualTag x])
  | none => byTag ++ [(x.tag, [virtualTag x])]

def FieldTagMap.build (s : VaultSettings) : FieldTagMap := s.tagFieldValues.foldl addFieldValue []

def FieldTagMap.expand (byTag : FieldTagMap) (tags : List Bytes) : List Bytes :=
  tags ++ tags.flatMap fun t ↦ byTag.flatMap fun e ↦ if tagCiEqual e.1 t then e.2 else []

/-! ## The walk -/

/-- A node's own tags, and the inherited ones it does not have. -/
def computeEffectiveTags (nodeTags inherited : List Bytes) : List Bytes :=
  nodeTags ++ inherited.filter fun t ↦ !nodeTags.any (tagCiEqual · t)

def joinChildPath (path name : Bytes) : Bytes :=
  if path.isEmpty then name else path ++ slash :: name

def inScope (isGallery : Bool) (scope : SearchScope) : Bool :=
  if isGallery then scope == .galleries || scope == .both else scope == .images || scope == .both

structure SearchHit where
  path : Bytes
  isGallery : Bool
  name : Bytes
  effectiveTags : List Bytes
  node : List ℕ
  deriving DecidableEq

/-- The hit at a child, if it is one. -/
def hitAt (q : AdvancedQuery) (fmap : FieldTagMap) (child : Node μ) (path : Bytes)
    (node : List ℕ) (effective childSubtree : List Bytes) : Option (Int32 × SearchHit) :=
  if inScope child.isGallery q.scope then
    let matchTags := if child.isGallery then computeEffectiveTags childSubtree effective
      else effective
    (evaluate q child.label.name (if fmap.isEmpty then matchTags else fmap.expand matchTags)).map
      fun score ↦ (score, ⟨path, child.isGallery, child.label.name, effective, node⟩)
  else none

/-- `accumulate_subtree_union`. -/
def accumulateSubtreeUnion (subtree : List Bytes) (child : Node μ) (childSubtree : List Bytes) :
    List Bytes :=
  KeyedUnion.union tagCiEqual subtree
    (if child.isGallery then computeEffectiveTags childSubtree child.label.tags
      else child.label.tags)

mutual

/-- `adv_search_dfs` on a node at a path and position, with the tags its children inherit: the hits
below the node, and the tags below it. A medium has nothing below. -/
def advSearchDfs (q : AdvancedQuery) (fmap : FieldTagMap) (path : Bytes) (position : List ℕ)
    (inherited : List Bytes) : Node μ → List (Int32 × SearchHit) × List Bytes
  | .branch _ cs => advSearchChildren q fmap path position inherited 0 [] cs
  | .leaf _ _ => ([], [])

/-- The loop over the children, from the `i`-th on, with the tags gathered so far. -/
def advSearchChildren (q : AdvancedQuery) (fmap : FieldTagMap) (path : Bytes) (position : List ℕ)
    (inherited : List Bytes) : ℕ → List Bytes → List (Node μ) →
      List (Int32 × SearchHit) × List Bytes
  | _, subtree, [] => ([], subtree)
  | i, subtree, child :: rest =>
    let effective := computeEffectiveTags child.label.tags inherited
    let fullPath := joinChildPath path child.label.name
    let below := advSearchDfs q fmap fullPath (position ++ [i]) effective child
    let hit := hitAt q fmap child fullPath (position ++ [i]) effective below.2
    let after := advSearchChildren q fmap path position inherited (i + 1)
      (accumulateSubtreeUnion subtree child below.2) rest
    (below.1 ++ hit.toList ++ after.1, after.2)

end

/-- By descending score, then by ascending path. -/
def ranksBefore (a b : Int32 × SearchHit) : Bool :=
  if a.1 ≠ b.1 then b.1 < a.1 else a.2.path ≤ b.2.path

/-- The scored hits of `run_search`, in order. -/
def rankedHits (q : AdvancedQuery) (settings : VaultSettings) (root : Node μ) :
    List (Int32 × SearchHit) :=
  (advSearchDfs q (.build settings) [] [] root.label.tags root).1.mergeSort ranksBefore

end Search

/-- `run_search`. -/
def Vault.runSearch (q : AdvancedQuery) (v : Vault μ) : List Search.SearchHit :=
  if !v.unlocked then [] else (Search.rankedHits q v.settings v.root).map (·.2)

end SafeVault
