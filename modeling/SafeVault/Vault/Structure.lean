import SafeVault.Index.Decode
import SafeVault.Vault.SafeName

/-!
# Paths and galleries

A gallery is addressed by a slash-separated path from the root. Splitting ignores leading, trailing
and repeated slashes, so one gallery has many spellings. Siblings are looked up by name and the
first match counts; only the lookup for a new child asks whether a name is taken.

Creating a gallery walks the path and appends what is missing. Every segment is checked on its own,
but nothing counts the segments: the tree may become higher than the reader of the index accepts.
-/

namespace SafeVault

/-- The outcome of an operation on a vault. -/
inductive VaultResult where
  | ok | ioError | badFormat | authFailed | locked | notFound | alreadyExists | invalidArg
  | cryptoError | busy | incompleteConversion | damaged | unsupportedVersion
  deriving DecidableEq

/-! ## Paths -/

/-- The loop of `split_path`: `cur` is the segment being read. -/
def splitPathFrom (cur : Bytes) : Bytes → List Bytes
  | [] => if cur.isEmpty then [] else [cur]
  | c :: p =>
    if c = slash then (if cur.isEmpty then [] else [cur]) ++ splitPathFrom [] p
    else splitPathFrom (cur ++ [c]) p

/-- The non-empty segments of a path. -/
def splitPath (p : Bytes) : List Bytes := splitPathFrom [] p

theorem splitPathFrom_append_slash {s p : Bytes} (hs : slash ∉ s) (cur : Bytes) :
    splitPathFrom cur (s ++ slash :: p) =
      (if (cur ++ s).isEmpty then [] else [cur ++ s]) ++ splitPath p := by
  induction s generalizing cur with
  | nil => rw [List.nil_append, splitPathFrom, if_pos rfl, List.append_nil, splitPath]
  | cons c s ih =>
    have hc : c ≠ slash := fun h ↦ hs (h ▸ List.mem_cons_self)
    rw [List.cons_append, splitPathFrom, if_neg hc, ih (fun h ↦ hs (List.mem_cons_of_mem c h)),
      List.append_assoc, List.singleton_append]

/-- A slash ends a segment. -/
theorem splitPath_append_slash (a b : Bytes) :
    splitPath (a ++ slash :: b) = splitPath a ++ splitPath b := by
  suffices h : ∀ cur, splitPathFrom cur (a ++ slash :: b) = splitPathFrom cur a ++ splitPath b from
    h []
  induction a with
  | nil =>
    intro cur
    exact if_pos rfl
  | cons c a ih =>
    intro cur
    rw [List.cons_append, splitPathFrom, splitPathFrom]
    split_ifs
    · rw [ih, List.append_assoc]
    · rw [ih, List.append_assoc]
    · rw [ih]

theorem splitPath_of_slash_not_mem {s : Bytes} (hs : slash ∉ s) (hne : s ≠ []) :
    splitPath s = [s] := by
  suffices h : ∀ cur, cur ++ s ≠ [] → splitPathFrom cur s = [cur ++ s] from h [] hne
  clear hne
  induction s with
  | nil =>
    intro cur hcur
    rw [List.append_nil] at hcur ⊢
    rw [splitPathFrom, if_neg (by rwa [List.isEmpty_iff])]
  | cons c s ih =>
    intro cur _
    have hc : c ≠ slash := fun h ↦ hs (h ▸ List.mem_cons_self)
    rw [splitPathFrom, if_neg hc, ih (fun h ↦ hs (List.mem_cons_of_mem c h)), List.append_assoc,
      List.singleton_append]
    simp

/-- A path that starts with a name starts with that segment. -/
theorem splitPath_cons {s p : Bytes} (hs : slash ∉ s) (hne : s ≠ []) :
    splitPath (s ++ slash :: p) = s :: splitPath p := by
  rw [splitPath, splitPathFrom_append_slash hs, List.nil_append,
    if_neg (by rwa [List.isEmpty_iff]), List.singleton_append]

/-- Each segment followed by a slash. -/
def joinPath (segs : List Bytes) : Bytes := segs.flatMap fun s ↦ s ++ [slash]

theorem splitPath_joinPath {segs : List Bytes} (h : ∀ s ∈ segs, slash ∉ s ∧ s ≠ []) :
    splitPath (joinPath segs) = segs := by
  induction segs with
  | nil => rfl
  | cons s segs ih =>
    obtain ⟨⟨hs, hne⟩, htail⟩ := List.forall_mem_cons.mp h
    have happ : joinPath (s :: segs) = s ++ slash :: joinPath segs := by
      rw [joinPath, List.flatMap_cons, List.append_assoc, List.singleton_append, joinPath]
    rw [happ, splitPath_cons hs hne, ih htail]

/-! ## Lookup -/

section Lookup

variable {μ : Type}

/-- The first child with the given name. -/
def childNamed (t : Node μ) (name : Bytes) : Option (Node μ) := t.children.find? (·.named name)

/-- Walk down the galleries named by the segments, to a position. -/
def resolveSegments (t : Node μ) : List Bytes → Option (List ℕ)
  | [] => some []
  | seg :: segs => do
    let i ← t.children.findIdx? fun c ↦ c.isGallery && c.named seg
    let c ← t.children[i]?
    let p ← resolveSegments c segs
    some (i :: p)

/-- The position of the gallery at a path. -/
def resolveGallery (root : Node μ) (path : Bytes) : Option (List ℕ) :=
  resolveSegments root (splitPath path)

/-- The position of the node at a path: galleries all the way, then any node. -/
def resolveNode (root : Node μ) (path : Bytes) : Option (List ℕ) :=
  match (splitPath path).getLast? with
  | none => some []
  | some last => do
    let p ← resolveSegments root (splitPath path).dropLast
    let g ← root.get? p
    let i ← g.children.findIdx? (·.named last)
    some (p ++ [i])

/-- What follows the last slash of a path. -/
def leafOf (path : Bytes) : Bytes := (path.reverse.takeWhile (· != slash)).reverse

/-- What precedes the last slash of a path; empty without a slash. -/
def parentOf (path : Bytes) : Bytes := ((path.reverse.dropWhile (· != slash)).drop 1).reverse

/-- The lookup of one path in `resolve_node_selection`: the parent is resolved as a node, and the
part after the last slash is looked up among its children. -/
def resolveSelection (root : Node μ) (path : Bytes) : Option (List ℕ) :=
  if path.isEmpty then resolveNode root []
  else do
    let p ← resolveNode root (parentOf path)
    let g ← root.get? p
    let i ← if g.isGallery then g.children.findIdx? (·.named (leafOf path)) else none
    some (p ++ [i])

/-! ## Creating galleries -/

/-- The loop of `create_gallery` from one gallery down, which also reports whether anything was
created. The gallery created with `k` segments to go gets the identity `ids k`; a vault that does not
bind identities passes `NodeId.zero`. -/
def createSegments (ids : ℕ → NodeId) :
    List Bytes → Node μ → Except VaultResult (Node μ × Bool)
  | [], t => .ok (t, false)
  | seg :: segs, t =>
    match childNamed t seg with
    | some child =>
      if child.isGallery then do
        let (child', created) ← createSegments ids segs child
        .ok (.branch t.label (t.children.replaceF fun c ↦
          if c.named seg then some child' else none), created)
      else .error .invalidArg
    | none => do
      let (child, _) ← createSegments ids segs
        (.branch { name := seg, nodeId := ids segs.length } [])
      .ok (.branch t.label (t.children ++ [child]), true)

/-- The tree that `create_gallery` commits, on an unlocked writable vault. -/
def createGallery (ids : ℕ → NodeId) (root : Node μ) (galleryPath : Bytes) :
    Except VaultResult (Node μ) :=
  let segments := splitPath galleryPath
  if segments.isEmpty then .error .alreadyExists
  else if !segments.all isSafeNodeName then .error .invalidArg
  else do
    let (root', created) ← createSegments ids segments root
    if created then .ok root' else .error .alreadyExists

theorem mem_replaceF {α : Type} {f : α → Option α} {xs : List α} {y : α}
    (h : y ∈ xs.replaceF f) : y ∈ xs ∨ ∃ x ∈ xs, f x = some y := by
  induction xs with
  | nil => exact Or.inl h
  | cons x xs ih =>
    rw [List.replaceF] at h
    split at h
    · rcases List.mem_cons.mp h with rfl | h
      · exact Or.inl List.mem_cons_self
      · rcases ih h with h | ⟨z, hz, hf⟩
        · exact Or.inl (List.mem_cons_of_mem x h)
        · exact Or.inr ⟨z, List.mem_cons_of_mem x hz, hf⟩
    · next z hz =>
      rcases List.mem_cons.mp h with rfl | h
      · exact Or.inr ⟨x, List.mem_cons_self, hz⟩
      · exact Or.inl (List.mem_cons_of_mem x h)

/-- What holds of every header and of the header of a new gallery holds of every header afterwards. -/
theorem allLabel_createSegments {P : NodeHeader → Prop} {ids : ℕ → NodeId}
    (hnew : ∀ name nodeId, P { name, nodeId }) {segs : List Bytes} {t t' : Node μ}
    {created : Bool} (ht : t.AllLabel P) (h : createSegments ids segs t = .ok (t', created)) :
    t'.AllLabel P := by
  induction segs generalizing t t' created with
  | nil =>
    cases h
    exact ht
  | cons seg segs ih =>
    rw [createSegments] at h
    split at h
    · next child hchild =>
      have hmem : child ∈ t.children := List.mem_of_find?_eq_some hchild
      split_ifs at h
      cases hrun : createSegments ids segs child with
      | error r =>
        rw [hrun] at h
        cases h
      | ok p =>
        rw [hrun] at h
        cases h
        refine LeafTree.allLabel_branch.mpr ⟨ht.label, fun c hc ↦ ?_⟩
        rcases mem_replaceF hc with hc | ⟨x, -, hx⟩
        · exact ht.child hc
        · split_ifs at hx
          cases hx
          exact ih (ht.child hmem) hrun
    · cases hrun : createSegments ids segs
          (.branch { name := seg, nodeId := ids segs.length } [] : Node μ) with
      | error r =>
        rw [hrun] at h
        cases h
      | ok p =>
        rw [hrun] at h
        cases h
        refine LeafTree.allLabel_branch.mpr ⟨ht.label, fun c hc ↦ ?_⟩
        rcases List.mem_append.mp hc with hc | hc
        · exact ht.child hc
        · rw [List.mem_singleton.mp hc]
          refine ih (LeafTree.allLabel_branch.mpr ⟨hnew _ _, fun c hc ↦ ?_⟩) hrun
          exact absurd hc List.not_mem_nil

theorem allLabel_createGallery {P : NodeHeader → Prop} {ids : ℕ → NodeId}
    (hnew : ∀ name nodeId, P { name, nodeId }) {root root' : Node μ} {path : Bytes}
    (hroot : root.AllLabel P) (h : createGallery ids root path = .ok root') :
    root'.AllLabel P := by
  rw [createGallery] at h
  dsimp only at h
  split_ifs at h
  cases hrun : createSegments ids (splitPath path) root with
  | error r =>
    rw [hrun] at h
    cases h
  | ok p =>
    obtain ⟨t, created⟩ := p
    rw [hrun] at h
    change (if created then Except.ok t else Except.error VaultResult.alreadyExists) = _ at h
    split_ifs at h
    cases h
    exact allLabel_createSegments hnew hroot hrun

/-- Below a gallery without children the loop creates one gallery for each segment. -/
theorem exists_createSegments_empty (ids : ℕ → NodeId) (h : NodeHeader) (segs : List Bytes) :
    ∃ t : Node μ, createSegments ids segs (.branch h []) = .ok (t, !segs.isEmpty) ∧
      t.height = segs.length := by
  induction segs generalizing h with
  | nil => exact ⟨_, rfl, rfl⟩
  | cons seg segs ih =>
    obtain ⟨t, hrun, hheight⟩ := ih { name := seg, nodeId := ids segs.length }
    refine ⟨.branch h [t], ?_, ?_⟩
    · rw [createSegments]
      change (createSegments ids segs _ >>= _) = _
      rw [hrun]
      rfl
    · refine eq_of_forall_ge_iff fun k ↦ ?_
      rw [LeafTree.height_branch_le_iff, List.forall_mem_singleton, hheight, List.length_cons,
        Nat.succ_le_iff]

/-- **Depth is not checked.** A vault without galleries accepts every path of safe segments, and its
tree gets as high as the path is long. -/
theorem exists_createGallery_empty (ids : ℕ → NodeId) (h : NodeHeader) {segs : List Bytes}
    (hne : segs ≠ []) (hsafe : ∀ s ∈ segs, isSafeNodeName s = true) :
    ∃ t : Node μ, createGallery ids (.branch h []) (joinPath segs) = .ok t ∧
      t.height = segs.length ∧ createSegments ids segs (.branch h []) = .ok (t, true) := by
  obtain ⟨t, hrun, hheight⟩ := exists_createSegments_empty (μ := μ) ids h segs
  have hsplit : splitPath (joinPath segs) = segs := splitPath_joinPath fun s hs ↦
    ⟨slash_not_mem_of_isSafeNodeName (hsafe s hs), isSafeNodeName_ne_nil (hsafe s hs)⟩
  have hempty : segs.isEmpty = false := by rwa [List.isEmpty_eq_false_iff]
  have hall : segs.all isSafeNodeName = true := List.all_eq_true.mpr hsafe
  rw [hempty] at hrun
  refine ⟨t, ?_, hheight, hrun⟩
  simp only [createGallery, hsplit, hempty, hall, hrun]
  rfl

end Lookup

/-- A gallery path of 129 segments is created on a fresh vault, and the blob of the resulting index
does not decode to that index. -/
theorem createGallery_deep_not_roundTrip :
    ∃ t : IndexNode, createGallery (fun _ ↦ .zero) (LeafTree.gallery [])
        (joinPath (List.replicate 129 (ascii "a"))) = .ok t ∧
      deserializeIndex (serializeIndex t [] .seeded) ≠
        some ⟨t.carried, [], VaultSettings.seeded.carried⟩ := by
  have hsafe : ∀ s ∈ List.replicate 129 (ascii "a"), isSafeNodeName s = true := by
    intro s hs
    rw [List.eq_of_mem_replicate hs]
    decide
  obtain ⟨t, hrun, hheight, -⟩ := exists_createGallery_empty (fun _ ↦ .zero) { name := [] }
    (by decide) hsafe (μ := Media)
  refine ⟨t, hrun, fun h ↦ ?_⟩
  have hbound := (storable_of_deserializeIndex_serializeIndex (x := ⟨t, [], .seeded⟩) h).root.height
  rw [hheight, List.length_replicate] at hbound
  exact absurd hbound (by decide)

end SafeVault
