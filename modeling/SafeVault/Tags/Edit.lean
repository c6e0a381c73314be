import SafeVault.Index.Node
import SafeVault.Tags.Provenance
import SafeVault.Vault.State

/-!
# Edits of one node's tags

The bodies of the tag operations, as functions of a node's header and the vault's bundles. Each ends
by recomputing the tags, so each either fails or leaves a node whose tags are those of its
provenance; what has to be checked in between is that no explicit tag enters twice.

An edit that finds nothing to do returns `none` inside the result. The operations use this to decide
whether anything has to be committed.
-/

namespace SafeVault

open KeyedUnion (union)

/-! ## Normal form of a tag -/

/-- Blank, tab, carriage return and line feed. -/
def isBlank (c : UInt8) : Bool := c == 32 || c == 9 || c == 13 || c == 10

/-- A tag without surrounding white space. -/
def normaliseTag (tag : Bytes) : Bytes :=
  ((tag.dropWhile isBlank).reverse.dropWhile isBlank).reverse

/-- Trimmed, without empty tags, each key once. -/
def normaliseTags (input : List Bytes) : List Bytes :=
  union tagCiEqual [] ((input.map normaliseTag).filter fun t ↦ !t.isEmpty)

theorem nodup_normaliseTags (input : List Bytes) : (tagKeys (normaliseTags input)).Nodup :=
  KeyedUnion.nodup_union decides_tagCiEqual List.nodup_nil

/-! ## Assigning tags -/

variable (bundles : List TagBundle)

/-- The edit of `set_tags`, with the tags in normal form. -/
def setNodeTags (normalised : List Bytes) (node : NodeHeader) :
    Except VaultResult (Option NodeHeader) :=
  if manualTags node == normalised then .ok none
  else
    match rebuildBundleTags bundles { node with tagProvenance := true, explicitTags := normalised }
      with
    | some node' => .ok (some node')
    | none => .error .invalidArg

/-- The edit of `TagBatchChanges::apply`: add or remove one tag in normal form. -/
def applyTag (tag : Bytes) (remove : Bool) (node : NodeHeader) :
    Except VaultResult (Option NodeHeader) :=
  if (manualTags node).any (tagCiEqual · tag) != remove then .ok none
  else
    let node := initializeTagProvenance node
    let explicitTags := if remove then node.explicitTags.filter fun t ↦ !tagCiEqual t tag
      else node.explicitTags ++ [tag]
    match rebuildBundleTags bundles { node with explicitTags } with
    | some node' => .ok (some node')
    | none => .error .invalidArg

/-- The edit of `apply_tag_bundle`: apply or remove the bundle with an identity. -/
def applyBundle (id : NodeId) (remove : Bool) (node : NodeHeader) :
    Except VaultResult (Option NodeHeader) :=
  if node.tagBundles.contains id != remove then .ok none
  else
    let node := initializeTagProvenance node
    let tagBundles := if remove then node.tagBundles.filter fun b ↦ b != id
      else node.tagBundles ++ [id]
    match rebuildBundleTags bundles { node with tagBundles } with
    | some node' => .ok (some node')
    | none => .error .invalidArg

/-- The edit of `BundleAccess::refresh`: forget a removed bundle and recompute. -/
def refreshNode (removed : Option NodeId) (node : NodeHeader) : Option NodeHeader :=
  rebuildBundleTags bundles
    { node with tagBundles := node.tagBundles.filter fun b ↦ some b != removed }

/-- The edit of `prune_node_tags`. The outcome of the recomputation is not looked at. -/
def pruneNode (keep : Bytes → Bool) (node : NodeHeader) : NodeHeader :=
  let node := initializeTagProvenance node
  let node := { node with explicitTags := node.explicitTags.filter keep }
  (rebuildBundleTags bundles node).getD node

/-- How many explicit tags `prune_node_tags` removes. -/
def prunedTags (keep : Bytes → Bool) (node : NodeHeader) : ℕ :=
  ((initializeTagProvenance node).explicitTags.filter fun t ↦ !keep t).length

/-- A change of spelling, applied to the tags and the explicit tags. -/
def renameNodeTags (f : Bytes → Bytes) (node : NodeHeader) : NodeHeader :=
  { node with tags := node.tags.map f, explicitTags := node.explicitTags.map f }

def TagBundle.rename (f : Bytes → Bytes) (b : TagBundle) : TagBundle :=
  { b with tags := b.tags.map f }

/-! ## Copying provenance to another vault -/

/-- The same members in the same order, up to case. -/
def sameBundleMembers (a b : TagBundle) : Bool :=
  a.tags.length == b.tags.length && (a.tags.zip b.tags).all fun p ↦ tagCiEqual p.1 p.2

/-- The name tried for a definition whose own name is taken. -/
def importName (name : Bytes) (suffix : ℕ) : Bytes :=
  name.take 220 ++ ascii s!" (import {suffix})"

/-- The loop of `import_bundle_definition` that looks for a free name, or for a bundle under one of
the names tried that has the same members. Each round that goes on has met a bundle of its own, so
one round more than there are bundles is enough. -/
def findImportName (definition : TagBundle) (name : Bytes) :
    ℕ → ℕ → TagBundle → Option TagBundle × TagBundle
  | 0, _, current => (none, current)
  | fuel + 1, suffix, current =>
    if bundles.any fun b ↦ tagCiEqual b.name current.name then
      let current := { definition with name := importName name suffix }
      match bundles.find? fun b ↦ tagCiEqual b.name current.name && sameBundleMembers b current with
      | some b => (some b, current)
      | none => findImportName definition name fuel (suffix + 1) current
    else (none, current)

/-- Find a bundle compatible with a definition, or add the definition under a free name. Returns the
bundles and the identity to apply. `random k` is the identity drawn when there are `k` bundles. -/
def importBundleDefinition (random : ℕ → Option NodeId) (definition : TagBundle) :
    Except VaultResult (List TagBundle × NodeId) :=
  let compatible := bundles.find? fun b ↦
    (b.id == definition.id || tagCiEqual b.name definition.name) && sameBundleMembers b definition
  let (found, current) := match compatible with
    | some b => (some b, definition)
    | none => findImportName bundles definition definition.name (bundles.length + 1) 2 definition
  match found with
  | some b => .ok (bundles, b.id)
  | none =>
    if indexMaxTags ≤ bundles.length then .error .invalidArg
    else if bundles.any fun b ↦ b.id == current.id then
      match random bundles.length with
      | some id => .ok (bundles ++ [{ current with id }], id)
      | none => .error .ioError
    else .ok (bundles ++ [current], current.id)

/-- Import the definitions of all bundles of a source node, and apply each to the candidate. -/
def importBundles (random : ℕ → Option NodeId) (sourceBundles : List TagBundle) :
    List NodeId → List TagBundle → List NodeId → Except VaultResult (List TagBundle × List NodeId)
  | [], bundles, applied => .ok (bundles, applied)
  | id :: ids, bundles, applied =>
    match findBundle sourceBundles id with
    | none => .error .invalidArg
    | some definition =>
      match importBundleDefinition bundles random definition with
      | .error r => .error r
      | .ok (bundles, id') =>
        importBundles random sourceBundles ids bundles
          (if applied.contains id' then applied else applied ++ [id'])

/-- Whether a tag of a source node was assigned to it. -/
def isManual (source : NodeHeader) (tag : Bytes) : Bool :=
  !source.tagProvenance || source.explicitTags.any (tagCiEqual · tag)

/-- `copy_tag_provenance`: give a node of a destination vault the provenance of a source node.
`access` is the result of the destination's check for bundle edits. Returns the node and the
destination's bundles. -/
def copyTagProvenance (access : VaultResult) (random : ℕ → Option NodeId) (source : NodeHeader)
    (sourceBundles : List TagBundle) (destination : NodeHeader) :
    Except VaultResult (NodeHeader × List TagBundle) :=
  if source.tagBundles.isEmpty then .ok (initializeTagProvenance destination, bundles)
  else if access ≠ .ok then .error access
  else
    let candidate := initializeTagProvenance destination
    let contributed := source.tags.filter fun tag ↦ !isManual source tag
    let explicitTags := candidate.explicitTags.filter fun t ↦
      !contributed.any fun tag ↦ tagCiEqual t tag
    match importBundles random sourceBundles source.tagBundles bundles candidate.tagBundles with
    | .error r => .error r
    | .ok (bundles', tagBundles) =>
      match rebuildBundleTags bundles' { candidate with explicitTags, tagBundles } with
      | some node => .ok (node, bundles')
      | none => .error .invalidArg

/-- The tags that count as explicit. -/
def ownTags (node : NodeHeader) : List Bytes :=
  if node.tagProvenance then node.explicitTags else node.tags

/-- The explicit tags after a merge: those of the target, of the source, and the inherited ones. -/
def mergedTags (source target : NodeHeader) (inherited : List Bytes) : List Bytes :=
  union tagCiEqual (union tagCiEqual (ownTags target) (ownTags source)) inherited

/-- `merge_tag_provenance` on a vault with bundles, after the count of the merged tags was checked. -/
def mergeNodeProvenance (random : ℕ → Option NodeId) (source : NodeHeader)
    (sourceBundles : List TagBundle) (target : NodeHeader) (inherited : List Bytes) :
    Except VaultResult (NodeHeader × List TagBundle) :=
  match copyTagProvenance bundles .ok random source sourceBundles
      { target with tags := union tagCiEqual target.tags source.tags } with
  | .error r => .error r
  | .ok (node, bundles') =>
    match rebuildBundleTags bundles'
        { node with tagProvenance := true, explicitTags := mergedTags source target inherited } with
    | some node' => .ok (node', bundles')
    | none => .error .invalidArg

/-- The end of `attach_copied_provenance`: inherited tags become explicit. -/
def addInherited (inherited : List Bytes) (node : NodeHeader) : Option NodeHeader :=
  rebuildBundleTags bundles
    { node with explicitTags := union tagCiEqual node.explicitTags inherited }

end SafeVault
