import SafeVault.Lib.Places
import SafeVault.Vault.RenameBatch

/-!
# Applying a batch of renames

All of the rows are checked before a name changes, and the names then change at once, so a swap or a cycle
needs no name in between. What comes out is the tree in which every node of the batch has the name of its
row. A commit that fails swaps the names back.

Names that two siblings share already are left alone, as long as neither of them is in the batch. The check
goes by the identity of the parent, and the scan lets one node have the identity of the root; in such a
tree it may also see a clash where there is none.
-/

namespace SafeVault

namespace RenameBatch

variable {μ : Type} {root : Node μ} {tree : Tree μ} {rows : List RenameRow}

/-! ## What the scan finds -/

/-- The pointers of an entry. -/
structure Found (root : Node μ) (e : Entry μ) : Prop where
  node : root.get? e.position = some e.node
  parent : ∀ p i, e.position = p ++ [i] → ∃ g, root.get? p = some g ∧ e.parent = g.label.nodeId

/-- The scan on its way: what was found, and what is on the stack. -/
structure Scanned (root : Node μ) (pending : List (Entry μ)) (tree : Tree μ) : Prop where
  found : ∀ x ∈ tree, Found root x.2 ∧ x.2.position ≠ [] ∧ x.1 = x.2.node.label.nodeId
  onStack : ∀ e ∈ pending, Found root e
  complete : ∀ q u, root.get? q = some u →
    q = [] ∨ (∃ x ∈ tree, x.2.position = q) ∨ ∃ e ∈ pending, e.position <+: q
  distinct : (tree.map (·.1)).Nodup

theorem tryEmplace_eq_some {tree' : Tree μ} {id : NodeId} {e : Entry μ}
    (h : tree.tryEmplace id e = some tree') : tree'.Perm ((id, e) :: tree) ∧ id ∉ tree.map (·.1) := by
  rw [Tree.tryEmplace] at h
  split_ifs at h with hany
  obtain rfl := Option.some.inj h
  refine ⟨List.perm_orderedInsert _ _ _, fun hmem ↦ hany ?_⟩
  obtain ⟨x, hx, rfl⟩ := List.mem_map.mp hmem
  exact List.any_eq_true.mpr ⟨x, hx, beq_self_eq_true x.1⟩

theorem mem_below {e c : Entry μ} {chosen : Bool} : c ∈ e.below chosen ↔
    ∃ i n, e.node.children[i]? = some n ∧ c = ⟨e.position ++ [i], n, e.node.label.nodeId, chosen⟩ := by
  rw [Entry.below, List.mem_reverse, List.mem_mapIdx]
  constructor
  · rintro ⟨i, hi, rfl⟩
    exact ⟨i, _, List.getElem?_eq_getElem hi, rfl⟩
  · rintro ⟨i, n, hn, rfl⟩
    obtain ⟨hi, rfl⟩ := List.getElem?_eq_some_iff.mp hn
    exact ⟨i, hi, rfl⟩

theorem found_below {e c : Entry μ} {chosen : Bool} (he : Found root e) (hc : c ∈ e.below chosen) :
    Found root c := by
  obtain ⟨i, n, hn, rfl⟩ := mem_below.mp hc
  refine ⟨?_, fun p j hp ↦ ?_⟩
  · dsimp only
    rw [LeafTree.get?_append, he.node, Option.bind_some, LeafTree.get?_cons hn, LeafTree.get?_nil]
  · obtain ⟨rfl, -⟩ := List.append_inj' hp rfl
    exact ⟨e.node, he.node, rfl⟩

/-- What is below a node on the stack is that node, or below one of its children. -/
theorem position_below {e : Entry μ} {chosen : Bool} {q : List ℕ} {u : Node μ} (he : Found root e)
    (hq : e.position <+: q) (hu : root.get? q = some u) :
    q = e.position ∨ ∃ c ∈ e.below chosen, c.position <+: q := by
  obtain ⟨r, rfl⟩ := hq
  rcases r with _ | ⟨i, r⟩
  · exact .inl (List.append_nil _)
  · rw [LeafTree.get?_append, he.node, Option.bind_some] at hu
    obtain ⟨n, hn, -⟩ := LeafTree.get?_cons_eq_some_iff.mp hu
    refine .inr ⟨_, mem_below.mpr ⟨i, n, hn, rfl⟩, r, ?_⟩
    rw [List.append_assoc, List.singleton_append]

theorem scanned_scanLoop {wanted : List NodeId} {recursive : Bool} {cancelled : ℕ → Bool} {k : ℕ}
    {pending : List (Entry μ)} {tree' : Tree μ} (h : Scanned root pending tree)
    (hscan : scanLoop wanted recursive cancelled k pending tree = some tree') : Scanned root [] tree' := by
  induction k, pending, tree using scanLoop.induct wanted recursive cancelled with
  | case1 k tree =>
    rw [scanLoop] at hscan
    exact Option.some.inj hscan ▸ h
  | case2 k e pending tree hcancel =>
    rw [scanLoop, if_pos hcancel] at hscan
    cases hscan
  | case3 k e pending tree hcancel chosen hroot ih =>
    rw [scanLoop, if_neg hcancel, if_pos hroot] at hscan
    obtain ⟨he, hpending⟩ := List.forall_mem_cons.mp h.onStack
    refine ih ⟨h.found, ?_, fun q u hu ↦ ?_, h.distinct⟩ hscan
    · exact List.forall_mem_append.mpr ⟨fun c ↦ found_below he, hpending⟩
    · rcases h.complete q u hu with hq | hx | ⟨c, hc, hprefix⟩
      · exact .inl hq
      · exact .inr (.inl hx)
      · rcases List.mem_cons.mp hc with rfl | hc
        · rcases position_below he hprefix hu with rfl | ⟨d, hd, hdq⟩
          · exact .inl (List.isEmpty_iff.mp hroot)
          · exact .inr (.inr ⟨d, List.mem_append_left _ hd, hdq⟩)
        · exact .inr (.inr ⟨c, List.mem_append_right _ hc, hprefix⟩)
  | case4 k e pending tree hcancel chosen hroot hnone =>
    rw [scanLoop, if_neg hcancel, if_neg hroot] at hscan
    rw [hnone] at hscan
    cases hscan
  | case5 k e pending tree hcancel chosen hroot grown hgrown ih =>
    rw [scanLoop, if_neg hcancel, if_neg hroot] at hscan
    rw [hgrown] at hscan
    obtain ⟨hperm, hnew⟩ := tryEmplace_eq_some hgrown
    obtain ⟨he, hpending⟩ := List.forall_mem_cons.mp h.onStack
    refine ih ⟨fun x hx ↦ ?_, ?_, fun q u hu ↦ ?_, ?_⟩ hscan
    · rcases List.mem_cons.mp (hperm.mem_iff.mp hx) with rfl | hx
      · exact ⟨⟨he.node, he.parent⟩, fun hnil ↦ hroot (List.isEmpty_iff.mpr hnil), rfl⟩
      · exact h.found x hx
    · exact List.forall_mem_append.mpr ⟨fun c ↦ found_below he, hpending⟩
    · rcases h.complete q u hu with hq | ⟨x, hx, hposition⟩ | ⟨c, hc, hprefix⟩
      · exact .inl hq
      · exact .inr (.inl ⟨x, hperm.mem_iff.mpr (List.mem_cons_of_mem _ hx), hposition⟩)
      · rcases List.mem_cons.mp hc with rfl | hc
        · rcases position_below he hprefix hu with rfl | ⟨d, hd, hdq⟩
          · exact .inr (.inl ⟨_, hperm.mem_iff.mpr List.mem_cons_self, rfl⟩)
          · exact .inr (.inr ⟨d, List.mem_append_left _ hd, hdq⟩)
        · exact .inr (.inr ⟨c, List.mem_append_right _ hc, hprefix⟩)
    · rw [(hperm.map _).nodup_iff]
      exact List.nodup_cons.mpr ⟨hnew, h.distinct⟩

/-- **The scan finds every node but the root once**, and no two with one identity. -/
theorem scanned_scan {wanted : List NodeId} {recursive : Bool} {cancelled : ℕ → Bool}
    (h : scan wanted recursive cancelled root = some tree) : Scanned root [] tree := by
  obtain ⟨tree', hloop, hsome⟩ := Option.bind_eq_some_iff.mp h
  split_ifs at hsome
  obtain rfl := Option.some.inj hsome
  have hstart : Scanned root [⟨[], root, .zero, false⟩] [] := by
    refine ⟨fun _ hx ↦ absurd hx List.not_mem_nil, ?_, fun q _ _ ↦ ?_, List.nodup_nil⟩
    · rw [List.forall_mem_singleton]
      refine ⟨LeafTree.get?_nil root, fun p i hp ↦ ?_⟩
      exact absurd hp.symm (List.append_ne_nil_of_right_ne_nil _ (List.cons_ne_nil _ _))
    · exact .inr (.inr ⟨_, List.mem_singleton_self _, List.nil_prefix⟩)
  exact scanned_scanLoop hstart hloop

/-- Two entries with one identity are one entry. -/
theorem Scanned.eq_of_id (h : Scanned root [] tree) {x y : NodeId × Entry μ} (hx : x ∈ tree) (hy : y ∈ tree)
    (hid : x.1 = y.1) : x = y := List.inj_on_of_nodup_map h.distinct hx hy hid

theorem Scanned.eq_of_position (h : Scanned root [] tree) {x y : NodeId × Entry μ} (hx : x ∈ tree)
    (hy : y ∈ tree) (hposition : x.2.position = y.2.position) : x = y := by
  refine h.eq_of_id hx hy ?_
  obtain ⟨hfx, -, hidx⟩ := h.found x hx
  obtain ⟨hfy, -, hidy⟩ := h.found y hy
  have hnode : x.2.node = y.2.node :=
    Option.some.inj (hfx.node.symm.trans (hposition ▸ hfy.node))
  rw [hidx, hidy, hnode]

/-- The entry of a node below the root. -/
theorem Scanned.entry (h : Scanned root [] tree) {q : List ℕ} {u : Node μ} (hu : root.get? q = some u)
    (hq : q ≠ []) : ∃ x ∈ tree, x.2.position = q ∧ x.2.node = u ∧ x.1 = u.label.nodeId := by
  rcases h.complete q u hu with hnil | ⟨x, hx, rfl⟩ | ⟨e, he, -⟩
  · exact absurd hnil hq
  · obtain ⟨hfound, -, hid⟩ := h.found x hx
    have hnode : x.2.node = u := Option.some.inj (hfound.node.symm.trans hu)
    exact ⟨x, hx, rfl, hnode, hnode ▸ hid⟩
  · exact absurd he List.not_mem_nil

theorem mem_of_nodeAt {id : NodeId} {e : Entry μ} (h : nodeAt tree id = some e) : (id, e) ∈ tree := by
  obtain ⟨x, hfind, rfl⟩ := Option.map_eq_some_iff.mp h
  have hid : x.1 = id := by
    have hbeq := List.find?_some hfind
    exact eq_of_beq hbeq
  exact hid ▸ List.mem_of_find?_eq_some hfind

/-! ## Clashes among siblings -/

/-- The name that a node ends up with. -/
def newName (rows : List RenameRow) (h : NodeHeader) : Bytes :=
  match rows.find? (·.id == h.nodeId) with
  | none => h.name
  | some r => r.after

/-- **A row would end in a clash**: its node gets a name that a sibling of it then has as well. -/
def EndsInClash (rows : List RenameRow) (root : Node μ) (i : ℕ) : Prop :=
  ∃ p, ∃ g c d : Node μ, ∃ j k : ℕ, root.get? p = some g ∧
    g.children[j]? = some c ∧ g.children[k]? = some d ∧ j ≠ k ∧
      rowOf rows c.label.nodeId = some i ∧ newName rows c.label = newName rows d.label

theorem finalName_eq {x : NodeId × Entry μ} (hid : x.1 = x.2.node.label.nodeId) :
    finalName rows x = newName rows x.2.node.label :=
  congrArg (fun id ↦ match rows.find? (·.id == id) with
    | none => x.2.node.label.name
    | some r => r.after) hid

theorem get?_child {p : List ℕ} {g c : Node μ} {j : ℕ} (hg : root.get? p = some g)
    (hc : g.children[j]? = some c) : root.get? (p ++ [j]) = some c := by
  rw [LeafTree.get?_append, hg, Option.bind_some, LeafTree.get?_cons hc, LeafTree.get?_nil]

theorem Scanned.child (h : Scanned root [] tree) (rows : List RenameRow) {p : List ℕ} {g c : Node μ} {j : ℕ}
    (hg : root.get? p = some g) (hc : g.children[j]? = some c) :
    ∃ x ∈ tree, x.2.position = p ++ [j] ∧ x.1 = c.label.nodeId ∧
      key rows x = (g.label.nodeId, newName rows c.label) := by
  obtain ⟨x, hx, hposition, hnode, hid⟩ := h.entry (get?_child hg hc)
    (List.append_ne_nil_of_right_ne_nil _ (List.cons_ne_nil _ _))
  obtain ⟨g', hg', hparent⟩ := (h.found x hx).1.parent p j hposition
  obtain rfl : g = g' := Option.some.inj (hg.symm.trans hg')
  refine ⟨x, hx, hposition, hid, ?_⟩
  rw [key, hparent, finalName_eq (hnode ▸ hid), hnode]

theorem clashes_of_endsInClash (h : Scanned root [] tree) {i : ℕ} (hends : EndsInClash rows root i) :
    Clashes rows tree i := by
  obtain ⟨p, g, c, d, j, k, hg, hc, hd, hjk, hrow, hname⟩ := hends
  obtain ⟨x, hx, hpx, hidx, hkx⟩ := h.child rows hg hc
  obtain ⟨y, hy, hpy, hidy, hky⟩ := h.child rows hg hd
  refine ⟨x, hx, hidx ▸ hrow, y, hy, fun hid ↦ hjk ?_, ?_⟩
  · have hsame := hpx.symm.trans ((congrArg (·.2.position) (h.eq_of_id hy hx hid)).symm.trans hpy)
    exact List.singleton_inj.mp (List.append_cancel_left hsame)
  · rw [hkx, hky, hname]

/-- The parent of an entry is a place of the tree. -/
theorem Scanned.above (h : Scanned root [] tree) {x : NodeId × Entry μ} (hx : x ∈ tree) :
    ∃ p j g, x.2.position = p ++ [j] ∧ root.get? p = some g ∧ x.2.parent = g.label.nodeId ∧
      g.children[j]? = some x.2.node := by
  obtain ⟨hfound, hne, -⟩ := h.found x hx
  rcases List.eq_nil_or_concat x.2.position with hnil | ⟨p, j, hposition⟩
  · exact absurd hnil hne
  rw [List.concat_eq_append] at hposition
  obtain ⟨g, hg, hparent⟩ := hfound.parent p j hposition
  refine ⟨p, j, g, hposition, hg, hparent, ?_⟩
  have hnode := hfound.node
  rw [hposition, LeafTree.get?_append, hg, Option.bind_some] at hnode
  obtain ⟨c, hc, hroot⟩ := LeafTree.get?_cons_eq_some_iff.mp hnode
  rw [LeafTree.get?_nil] at hroot
  exact hc.trans hroot

/-- Where no node has the identity of the root, a parent is known by its identity. -/
theorem Scanned.eq_of_parent (h : Scanned root [] tree) (hroot : root.label.nodeId ∉ tree.map (·.1))
    {p q : List ℕ} {g g' : Node μ} (hg : root.get? p = some g) (hg' : root.get? q = some g')
    (hid : g.label.nodeId = g'.label.nodeId) : p = q := by
  have hcases {r : List ℕ} {u : Node μ} (hu : root.get? r = some u) :
      (r = [] ∧ u = root) ∨ ∃ x ∈ tree, x.2.position = r ∧ x.1 = u.label.nodeId := by
    by_cases hr : r = []
    · subst hr
      rw [LeafTree.get?_nil, Option.some_inj] at hu
      exact .inl ⟨rfl, hu.symm⟩
    · obtain ⟨x, hx, hposition, -, hxid⟩ := h.entry hu hr
      exact .inr ⟨x, hx, hposition, hxid⟩
  rcases hcases hg with ⟨rfl, rfl⟩ | ⟨x, hx, rfl, hxid⟩
  · rcases hcases hg' with ⟨rfl, -⟩ | ⟨y, hy, rfl, hyid⟩
    · rfl
    · exact absurd (hid.trans hyid.symm ▸ List.mem_map_of_mem hy) hroot
  · rcases hcases hg' with ⟨rfl, rfl⟩ | ⟨y, hy, rfl, hyid⟩
    · exact absurd (hid.symm.trans hxid.symm ▸ List.mem_map_of_mem hx) hroot
    · rw [h.eq_of_id hx hy (hxid.trans (hid.trans hyid.symm))]

theorem endsInClash_of_clashes (h : Scanned root [] tree) (hroot : root.label.nodeId ∉ tree.map (·.1))
    {i : ℕ} (hclash : Clashes rows tree i) : EndsInClash rows root i := by
  obtain ⟨x, hx, hrow, y, hy, hne, hkey⟩ := hclash
  obtain ⟨p, j, g, hpx, hg, hparent, hc⟩ := h.above hx
  obtain ⟨q, k, g', hpy, hg', hparent', hd⟩ := h.above hy
  obtain ⟨hsame, hname⟩ := Prod.mk.inj hkey
  obtain rfl := h.eq_of_parent hroot hg hg' (hparent.symm.trans (hsame.symm.trans hparent'))
  obtain rfl : g = g' := Option.some.inj (hg.symm.trans hg')
  have hidx := (h.found x hx).2.2
  have hidy := (h.found y hy).2.2
  refine ⟨p, g, x.2.node, y.2.node, j, k, hg, hc, hd, fun hjk ↦ hne ?_, hidx ▸ hrow, ?_⟩
  · rw [h.eq_of_position hy hx (hpy.trans (hjk ▸ hpx.symm))]
  · rw [← finalName_eq hidx, ← finalName_eq hidy, hname]

/-! ## Swapping names -/

/-- The name that a change gives to the node at a position. -/
def changeAt (changes : List (List ℕ × Bytes)) (p : List ℕ) (h : NodeHeader) : NodeHeader :=
  match changes.find? (·.1 == p) with
  | none => h
  | some c => { h with name := c.2 }

theorem changeAt_of_mem {changes : List (List ℕ × Bytes)} (hdistinct : (changes.map (·.1)).Nodup)
    {c : List ℕ × Bytes} (hc : c ∈ changes) (h : NodeHeader) :
    changeAt changes c.1 h = { h with name := c.2 } := by
  rw [changeAt]
  rcases hfind : changes.find? (·.1 == c.1) with _ | d
  · exact absurd (beq_self_eq_true c.1) (List.find?_eq_none.mp hfind c hc)
  · have hsame : d.1 = c.1 := by
      have hbeq := List.find?_some hfind
      exact eq_of_beq hbeq
    obtain rfl := List.inj_on_of_nodup_map hdistinct (List.mem_of_find?_eq_some hfind) hc hsame
    rw [hfind]

theorem changeAt_of_not_mem {changes : List (List ℕ × Bytes)} {p : List ℕ} (hp : p ∉ changes.map (·.1))
    (h : NodeHeader) : changeAt changes p h = h := by
  have hfind : changes.find? (·.1 == p) = none := by
    refine List.find?_eq_none.mpr fun c hc hbeq ↦ hp ?_
    exact List.mem_map.mpr ⟨c, hc, eq_of_beq hbeq⟩
  rw [changeAt, hfind]

theorem changeAt_cons {c : List ℕ × Bytes} {changes : List (List ℕ × Bytes)}
    (hc : c.1 ∉ changes.map (·.1)) (p : List ℕ) (h : NodeHeader) :
    changeAt changes p (if p = c.1 then { h with name := c.2 } else h) = changeAt (c :: changes) p h := by
  by_cases hp : p = c.1
  · subst hp
    rw [if_pos rfl, changeAt_of_not_mem hc, changeAt, List.find?_cons, beq_self_eq_true]
  · rw [if_neg hp, changeAt, changeAt, List.find?_cons, beq_eq_false_iff_ne.mpr (Ne.symm hp)]

/-- All of the names change, and the ones before are kept. -/
theorem swapNames_eq {changes : List (List ℕ × Bytes)} (hdistinct : (changes.map (·.1)).Nodup)
    (hplaced : ∀ c ∈ changes, ∃ u, root.get? c.1 = some u) :
    ∃ olds, swapNames root changes = (root.mapAt (changeAt changes) [], olds) ∧
      olds.map (·.1) = changes.map (·.1) ∧ ∀ o ∈ olds, ∃ u, root.get? o.1 = some u ∧ u.label.name = o.2 := by
  induction changes generalizing root with
  | nil =>
    refine ⟨[], ?_, rfl, fun _ h ↦ absurd h List.not_mem_nil⟩
    rw [swapNames]
    exact congrArg (·, []) (LeafTree.mapAt_id).symm
  | cons c changes ih =>
    rw [List.map_cons, List.nodup_cons] at hdistinct
    obtain ⟨⟨u, hu⟩, hrest⟩ := List.forall_mem_cons.mp hplaced
    let first (p : List ℕ) (h : NodeHeader) : NodeHeader := if p = c.1 then { h with name := c.2 } else h
    have hswap : swapName root c = (root.mapAt first [], (c.1, u.label.name)) := by
      rw [swapName, hu]
      dsimp only
      rw [LeafTree.modifyAt_setLabel (p := [])]
      rfl
    have hother {p : List ℕ} (hp : p ≠ c.1) {w : Node μ} (hw : (root.mapAt first []).get? p = some w) :
        ∃ w', root.get? p = some w' ∧ w'.label.name = w.label.name := by
      rw [LeafTree.get?_mapAt, Option.map_eq_some_iff] at hw
      obtain ⟨w', hw', rfl⟩ := hw
      refine ⟨w', hw', ?_⟩
      rw [LeafTree.label_mapAt]
      exact congrArg NodeHeader.name (if_neg hp).symm
    have hstill : ∀ d ∈ changes, ∃ w, (root.mapAt first []).get? d.1 = some w := by
      intro d hd
      obtain ⟨w, hw⟩ := hrest d hd
      exact ⟨_, LeafTree.get?_mapAt.trans (congrArg _ hw)⟩
    obtain ⟨olds, hswaps, hpositions, hnames⟩ := ih hdistinct.2 hstill
    refine ⟨(c.1, u.label.name) :: olds, ?_, ?_, List.forall_mem_cons.mpr ⟨⟨u, hu, rfl⟩, fun o ho ↦ ?_⟩⟩
    · rw [swapNames, hswap]
      dsimp only
      rw [hswaps]
      dsimp only
      rw [LeafTree.mapAt_mapAt]
      refine congrArg (·, _) (LeafTree.mapAt_congr fun p w _ ↦ ?_)
      rw [List.nil_append]
      exact changeAt_cons hdistinct.1 p w.label
    · rw [List.map_cons, List.map_cons, hpositions]
    · obtain ⟨w, hw, hname⟩ := hnames o ho
      have hne : o.1 ≠ c.1 := by
        intro heq
        refine hdistinct.1 ?_
        rw [← heq, ← hpositions]
        exact List.mem_map_of_mem ho
      obtain ⟨w', hw', hname'⟩ := hother hne hw
      exact ⟨w', hw', hname'.trans hname⟩

/-- **Swapping back** gives the tree as it was. -/
theorem swapNames_swapNames {changes : List (List ℕ × Bytes)} (hdistinct : (changes.map (·.1)).Nodup)
    (hplaced : ∀ c ∈ changes, ∃ u, root.get? c.1 = some u) :
    (swapNames (swapNames root changes).1 (swapNames root changes).2).1 = root := by
  obtain ⟨olds, hswaps, hpositions, hnames⟩ := swapNames_eq hdistinct hplaced
  rw [hswaps]
  dsimp only
  have holds : (olds.map (·.1)).Nodup := hpositions ▸ hdistinct
  have hback : ∀ o ∈ olds, ∃ u, (root.mapAt (changeAt changes) []).get? o.1 = some u := by
    intro o ho
    obtain ⟨u, hu, -⟩ := hnames o ho
    exact ⟨_, LeafTree.get?_mapAt.trans (congrArg _ hu)⟩
  obtain ⟨_, hswaps', -⟩ := swapNames_eq holds hback
  rw [hswaps']
  dsimp only
  rw [LeafTree.mapAt_mapAt]
  refine Eq.trans (LeafTree.mapAt_congr fun p u hu ↦ ?_) LeafTree.mapAt_id
  rw [List.nil_append]
  by_cases hp : p ∈ changes.map (·.1)
  · obtain ⟨c, hc, rfl⟩ := List.mem_map.mp hp
    obtain ⟨o, ho, hoc⟩ := List.mem_map.mp (hpositions ▸ hp)
    obtain ⟨w, hw, hname⟩ := hnames o ho
    obtain rfl : w = u := Option.some.inj (hw.symm.trans (hoc ▸ hu))
    rw [changeAt_of_mem hdistinct hc, ← hoc, changeAt_of_mem holds ho, ← hname]
  · rw [changeAt_of_not_mem hp, changeAt_of_not_mem (hpositions ▸ hp)]

/-! ## The rows that were checked -/

/-- What `checkRows` makes sure of. -/
structure RowsChecked (tree : Tree μ) (rows : List RenameRow) : Prop where
  distinct : (rows.map (·.id)).Nodup
  found : ∀ r ∈ rows, ∃ e, nodeAt tree r.id = some e ∧ e.node.label.name = r.before
  safe : ∀ r ∈ rows, isSafeNodeName r.after = true

theorem rowsChecked_of_checkRows {seen : List NodeId} (h : checkRows tree seen rows = true) :
    RowsChecked tree rows ∧ ∀ r ∈ rows, r.id ∉ seen := by
  induction rows generalizing seen with
  | nil => exact ⟨⟨List.nodup_nil, nofun, nofun⟩, nofun⟩
  | cons r rows ih =>
    rw [checkRows] at h
    rcases hat : nodeAt tree r.id with _ | e
    · rw [hat] at h
      cases h
    · rw [hat] at h
      simp only [Bool.and_eq_true, Bool.not_eq_true', beq_iff_eq, List.contains_eq_mem,
        decide_eq_false_iff_not] at h
      obtain ⟨⟨⟨⟨hseen, -⟩, hbefore⟩, hsafe⟩, hrest⟩ := h
      obtain ⟨⟨hdistinct, hfound, hsafes⟩, hnew⟩ := ih hrest
      refine ⟨⟨?_, List.forall_mem_cons.mpr ⟨⟨e, hat, hbefore⟩, hfound⟩,
        List.forall_mem_cons.mpr ⟨hsafe, hsafes⟩⟩, List.forall_mem_cons.mpr ⟨hseen, fun q hq hmem ↦ ?_⟩⟩
      · refine List.nodup_cons.mpr ⟨fun hmem ↦ ?_, hdistinct⟩
        obtain ⟨q, hq, hid⟩ := List.mem_map.mp hmem
        exact hnew q hq (hid ▸ List.mem_cons_self)
      · exact hnew q hq (List.mem_cons_of_mem _ hmem)

theorem mem_changesOf {c : List ℕ × Bytes} : c ∈ changesOf tree rows ↔
    ∃ r ∈ rows, r.before ≠ r.after ∧ ∃ e, nodeAt tree r.id = some e ∧ (e.position, r.after) = c := by
  rw [changesOf, List.mem_filterMap]
  refine exists_congr fun r ↦ and_congr_right fun _ ↦ ?_
  by_cases hsame : r.before = r.after
  · rw [if_pos hsame]
    exact iff_of_false nofun fun h ↦ h.1 hsame
  · rw [if_neg hsame, Option.map_eq_some_iff]
    exact (and_iff_right hsame).symm

theorem nodup_changesOf (h : Scanned root [] tree) (hdistinct : (rows.map (·.id)).Nodup) :
    ((changesOf tree rows).map (·.1)).Nodup := by
  rw [List.Nodup, List.pairwise_map] at hdistinct ⊢
  refine List.pairwise_filterMap.mpr (hdistinct.imp fun {r q} hne c hc d hd heq ↦ hne ?_)
  have hat {r : RenameRow} {c : List ℕ × Bytes}
      (hc : (if r.before = r.after then none else (nodeAt tree r.id).map fun e ↦ (e.position, r.after)) = some c) :
      ∃ e, (r.id, e) ∈ tree ∧ e.position = c.1 := by
    split_ifs at hc
    obtain ⟨e, he, rfl⟩ := Option.map_eq_some_iff.mp hc
    exact ⟨e, mem_of_nodeAt he, rfl⟩
  obtain ⟨e, he, hce⟩ := hat hc
  obtain ⟨f, hf, hdf⟩ := hat hd
  exact congrArg Prod.fst (h.eq_of_position he hf (hce.trans (heq.trans hdf.symm)))

/-- The tree in which all nodes of the batch have their new names. -/
def renameTree (rows : List RenameRow) (root : Node μ) : Node μ :=
  root.mapAt (fun p h ↦ if p = [] then h else { h with name := newName rows h }) []

/-- **The changes rename the batch.** -/
theorem mapAt_changesOf (h : Scanned root [] tree) (hrows : RowsChecked tree rows) :
    root.mapAt (changeAt (changesOf tree rows)) [] = renameTree rows root := by
  refine LeafTree.mapAt_congr fun p u hu ↦ ?_
  rw [List.nil_append]
  by_cases hp : p = []
  · subst hp
    rw [if_pos rfl]
    refine changeAt_of_not_mem (fun hmem ↦ ?_) _
    obtain ⟨c, hc, hnil⟩ := List.mem_map.mp hmem
    obtain ⟨r, -, -, e, he, rfl⟩ := mem_changesOf.mp hc
    exact (h.found _ (mem_of_nodeAt he)).2.1 hnil
  rw [if_neg hp]
  obtain ⟨x, hx, hposition, hnode, hid⟩ := h.entry hu hp
  -- a row that changes this node has its identity
  have hrow {r : RenameRow} {e : Entry μ} (he : nodeAt tree r.id = some e) (hpe : e.position = p) :
      r.id = u.label.nodeId := by
    have hsame := h.eq_of_position (mem_of_nodeAt he) hx (hpe.trans hposition.symm)
    exact (congrArg Prod.fst hsame).trans hid
  rcases hfind : rows.find? (·.id == u.label.nodeId) with _ | r
  · rw [newName, hfind]
    refine changeAt_of_not_mem (fun hmem ↦ ?_) _
    obtain ⟨c, hc, hcp⟩ := List.mem_map.mp hmem
    obtain ⟨r, hr, -, e, he, rfl⟩ := mem_changesOf.mp hc
    exact List.find?_eq_none.mp hfind r hr (beq_iff_eq.mpr (hrow he hcp))
  · have hr := List.mem_of_find?_eq_some hfind
    have hrid : r.id = u.label.nodeId := by
      have hbeq := List.find?_some hfind
      exact eq_of_beq hbeq
    obtain ⟨e, he, hbefore⟩ := hrows.found r hr
    have hex : (r.id, e) = x := h.eq_of_id (mem_of_nodeAt he) hx (hrid.trans hid.symm)
    subst hex
    dsimp only at hposition hnode
    rw [newName, hfind]
    dsimp only
    by_cases hsame : r.before = r.after
    · have hname : u.label.name = r.after := by rw [← hsame, ← hbefore, hnode]
      rw [← hname]
      refine changeAt_of_not_mem (fun hmem ↦ ?_) _
      obtain ⟨c, hc, hcp⟩ := List.mem_map.mp hmem
      obtain ⟨q, hq, hne, f, hf, rfl⟩ := mem_changesOf.mp hc
      have hqr : q = r := List.inj_on_of_nodup_map hrows.distinct hq hr ((hrow hf hcp).trans hrid.symm)
      exact hne (hqr ▸ hsame)
    · have hmem : (p, r.after) ∈ changesOf tree rows :=
        mem_changesOf.mpr ⟨r, hr, hsame, e, he, congrArg (·, r.after) hposition⟩
      exact changeAt_of_mem (nodup_changesOf h hrows.distinct) hmem u.label

/-! ## What becomes of the vault -/

section Apply

variable {preview : RenamePreview} {cancelled : ℕ → Bool} {synced : Bool} {outcome : VaultResult}
  {v : Vault μ}

/-- No node of the batch has the name of a sibling. -/
def Unshared (rows : List RenameRow) (root : Node μ) : Prop :=
  ∀ p (g c d : Node μ) (j k : ℕ), root.get? p = some g → g.children[j]? = some c →
    g.children[k]? = some d → j ≠ k → c.label.name = d.label.name → c.label.nodeId ∉ rows.map (·.id)

theorem commitStaged_eq (synced : Bool) (outcome : VaultResult) (v : Vault μ) :
    (commitStaged synced outcome v).2 = v ∨
      (commitStaged synced outcome v).1 = .ok ∧ (commitStaged synced outcome v).2 =
        { v with committed := v.live } := by
  rw [commitStaged]
  split_ifs
  · exact .inl rfl
  · rw [Vault.commitIndex]
    split_ifs with _ hok
    exacts [.inl rfl, .inr ⟨hok, rfl⟩, .inl rfl]
  · exact .inl rfl
  · rw [Vault.commitIndex]
    split_ifs with _ hok
    exacts [.inl rfl, .inr ⟨hok, rfl⟩, .inl rfl]

/-- The ways `apply_rename` ends. -/
theorem applyRename_cases (preview : RenamePreview) (cancelled : ℕ → Bool) (synced : Bool)
    (outcome : VaultResult) (v : Vault μ) :
    ((applyRename preview cancelled synced outcome v).1 ≠ .ok ∧
      (applyRename preview cancelled synced outcome v).2 = v) ∨
    (applyRename preview cancelled synced outcome v).1 = .ok ∧ ∃ tree committed,
      Scanned v.root [] tree ∧ RowsChecked tree preview.rows ∧ (collisions tree preview).1 = true ∧
        (applyRename preview cancelled synced outcome v).2 =
          { v with root := renameTree preview.rows v.root, committed } := by
  rw [applyRename]
  by_cases hlocked : (!v.unlocked) = true
  · rw [if_pos hlocked]
    exact .inl ⟨nofun, rfl⟩
  rw [if_neg hlocked]
  by_cases hinvalid : (v.legacyReadOnly || !preview.valid) = true
  · rw [if_pos hinvalid]
    exact .inl ⟨nofun, rfl⟩
  rw [if_neg hinvalid]
  rcases hscan : scan [] false cancelled v.root with _ | tree
  · exact .inl ⟨nofun, rfl⟩
  dsimp only
  by_cases hchecked : (!checkRows tree [] preview.rows) = true
  · rw [if_pos hchecked]
    exact .inl ⟨nofun, rfl⟩
  rw [if_neg hchecked]
  by_cases hclash : (!(collisions tree preview).1 || cancelled v.root.size) = true
  · rw [if_pos hclash]
    exact .inl ⟨nofun, rfl⟩
  rw [if_neg hclash]
  by_cases hcancel : cancelled (v.root.size + 1) = true
  · rw [if_pos hcancel]
    exact .inl ⟨nofun, rfl⟩
  rw [if_neg hcancel]
  -- from here on the names change
  have hscanned := scanned_scan hscan
  have hrows : RowsChecked tree preview.rows := by
    refine (@rowsChecked_of_checkRows _ _ _ [] ?_).1
    simpa using hchecked
  have hok : (collisions tree preview).1 = true := by
    rw [Bool.or_eq_true, not_or] at hclash
    simpa using hclash.1
  have hrename := mapAt_changesOf hscanned hrows
  have hdistinct := nodup_changesOf hscanned hrows.distinct
  have hplaced : ∀ c ∈ changesOf tree preview.rows, ∃ u, v.root.get? c.1 = some u := by
    intro c hc
    obtain ⟨r, -, -, e, he, rfl⟩ := mem_changesOf.mp hc
    exact ⟨e.node, (hscanned.found _ (mem_of_nodeAt he)).1.node⟩
  by_cases hnothing : (changesOf tree preview.rows).isEmpty = true
  · rw [if_pos hnothing]
    rw [List.isEmpty_iff.mp hnothing] at hrename
    have hsame : v.root = renameTree preview.rows v.root :=
      (LeafTree.mapAt_id).symm.trans hrename
    refine .inr ⟨rfl, tree, v.committed, hscanned, hrows, hok, ?_⟩
    rw [← hsame]
  rw [if_neg hnothing]
  obtain ⟨olds, hswaps, -⟩ := swapNames_eq hdistinct hplaced
  have hback := swapNames_swapNames hdistinct hplaced
  rw [hswaps] at hback ⊢
  dsimp only at hback ⊢
  rcases hcommit : commitStaged synced outcome { v with root := v.root.mapAt (changeAt (changesOf tree preview.rows)) [] }
    with ⟨result, w⟩
  have hcases := commitStaged_eq synced outcome
    { v with root := v.root.mapAt (changeAt (changesOf tree preview.rows)) [] }
  rw [hcommit] at hcases
  dsimp only at hcases ⊢
  by_cases hresult : result = .ok
  · rw [if_pos hresult, ← hrename]
    rcases hcases with rfl | ⟨-, rfl⟩
    · exact .inr ⟨hresult, tree, v.committed, hscanned, hrows, hok, rfl⟩
    · exact .inr ⟨hresult, tree, _, hscanned, hrows, hok, rfl⟩
  · rw [if_neg hresult]
    obtain rfl := hcases.resolve_right fun h ↦ hresult h.1
    refine .inl ⟨hresult, ?_⟩
    dsimp only
    rw [hback]

/-- Without a clash no node of the batch ends up with the name of a sibling. -/
theorem unshared_renameTree {root : Node μ} {rows : List RenameRow} (h : ∀ i, ¬ EndsInClash rows root i) :
    Unshared rows (renameTree rows root) := by
  intro p g c d j k hg hc hd hjk hname hmem
  rw [renameTree, LeafTree.get?_mapAt, Option.map_eq_some_iff] at hg
  obtain ⟨g, hg, rfl⟩ := hg
  rw [LeafTree.children_mapAt, Option.map_eq_some_iff] at hc hd
  obtain ⟨c, hc, rfl⟩ := hc
  obtain ⟨d, hd, rfl⟩ := hd
  have hne (j : ℕ) : [] ++ p ++ [j] ≠ [] := List.append_ne_nil_of_right_ne_nil _ (List.cons_ne_nil _ _)
  simp only [LeafTree.label_mapAt, if_neg (hne _)] at hname hmem
  obtain ⟨r, hr, hid⟩ := List.mem_map.mp hmem
  rcases hrow : rowOf rows c.label.nodeId with _ | i
  · have hnot := List.findIdx?_eq_none_iff.mp hrow r hr
    rw [beq_eq_false_iff_ne] at hnot
    exact hnot hid
  · exact h i ⟨p, g, c, d, j, k, hg, hc, hd, hjk, hrow, hname⟩

theorem replace_unsafe (substitute : Bytes → Option (ℕ × Bytes)) (preserveExtensions media : Bool)
    (row : RenameRow) (hsafe : isSafeNodeName (replace substitute preserveExtensions media row).after = false) :
    (replace substitute preserveExtensions media row).state = .invalid := by
  revert hsafe
  rw [replace]
  by_cases hlong : maxNodeNameBytes < row.before.length
  · rw [if_pos hlong]
    exact fun _ ↦ rfl
  rw [if_neg hlong]
  generalize (if media && preserveExtensions then splitExtension row.before else (row.before, [])) = parts
  obtain ⟨subject, extension⟩ := parts
  dsimp only
  rcases substitute subject with _ | ⟨count, output⟩
  · exact fun _ ↦ rfl
  dsimp only
  by_cases hfit : maxNodeNameBytes < output.length + extension.length
  · rw [if_pos hfit]
    exact fun _ ↦ rfl
  · rw [if_neg hfit]
    intro hsafe
    dsimp only at hsafe ⊢
    rw [hsafe]
    rfl

theorem previewRows_unsafe (o : RenameOptions) (cancelled : ℕ → Bool) (k : ℕ) (tree : Tree μ)
    {rows : List RenameRow} (h : ∀ r ∈ rows, isSafeNodeName r.after = false → r.state = .invalid) :
    match previewRows o cancelled k tree rows with
    | .error preview => preview.error ≠ []
    | .ok rows => ∀ r ∈ rows, isSafeNodeName r.after = false → r.state = .invalid := by
  induction tree generalizing k rows with
  | nil => exact h
  | cons x tree ih =>
    obtain ⟨id, e⟩ := x
    rw [previewRows]
    by_cases hcancel : cancelled k = true
    · rw [if_pos hcancel]
      dsimp only
      decide
    · rw [if_neg hcancel]
      refine ih (k + 1) ?_
      split_ifs
      · refine List.forall_mem_append.mpr ⟨h, List.forall_mem_singleton.mpr ?_⟩
        exact replace_unsafe _ _ _ _
      · exact h

theorem previewRename_unsafe {selected : List NodeId} {o : RenameOptions}
    (hnone : (previewRename selected o cancelled v).error = []) {r : RenameRow}
    (hr : r ∈ (previewRename selected o cancelled v).rows) (hsafe : isSafeNodeName r.after = false) :
    r.state = .invalid ∨ r.state = .collision := by
  revert hnone hr
  rw [previewRename]
  by_cases hwritable : (!v.unlocked || v.legacyReadOnly) = true
  · rw [if_pos hwritable]
    exact nofun
  rw [if_neg hwritable]
  by_cases hcompiles : (!o.compiles) = true
  · rw [if_pos hcompiles]
    exact nofun
  rw [if_neg hcompiles]
  rcases hscan : scan selected o.recursive cancelled v.root with _ | tree
  · exact nofun
  have hrows := previewRows_unsafe o cancelled v.root.size tree (List.forall_mem_nil _)
  dsimp only
  rcases hout : previewRows o cancelled v.root.size tree [] with preview | rows
  all_goals rw [hout] at hrows
  · exact fun hnone ↦ absurd hnone hrows
  intro _ hr
  obtain ⟨i, hi⟩ := List.mem_iff_getElem?.mp hr
  have hmarked := (collisions_exact (scanned_scan hscan).distinct { rows }).2 i
  rw [hi] at hmarked
  obtain ⟨q, hq, hmark⟩ := Option.map_eq_some_iff.mp hmarked.symm
  by_cases hclash : Clashes rows tree i
  · rw [markIf_of hclash] at hmark
    exact .inr (hmark ▸ rfl)
  · rw [markIf_of_not hclash] at hmark
    exact .inl (hrows r (hmark ▸ List.mem_of_getElem? hq) hsafe)

end Apply

/-! ## The batch as a whole -/

/-- What a batch that was applied has done to the vault. -/
structure Applied (rows : List RenameRow) (v w : Vault μ) : Prop where
  root : w.root = renameTree rows v.root
  settings : w.settings = v.settings
  searches : w.searches = v.searches
  unshared : Unshared rows w.root
  safe : ∀ r ∈ rows, isSafeNodeName r.after = true
  placed : ∀ r ∈ rows, ∃ p u, v.root.get? p = some u ∧ p ≠ [] ∧ u.label.nodeId = r.id ∧ u.label.name = r.before
  distinct : (rows.map (·.id)).Nodup

/-- **The check marks what clashes, and a batch is applied as a whole or not at all.** -/
theorem rename_realises_preview :
    (∀ wanted recursive cancelled (root : Node μ) tree, scan wanted recursive cancelled root = some tree →
      ∀ preview, ((collisions tree preview).1 = true ↔ ∀ i, ¬ Clashes preview.rows tree i) ∧
        ∀ i, (collisions tree preview).2.rows[i]? =
            preview.rows[i]?.map (RenameRow.markIf (Clashes preview.rows tree i)) ∧
          (EndsInClash preview.rows root i → Clashes preview.rows tree i) ∧
          (root.label.nodeId ∉ tree.map (·.1) → Clashes preview.rows tree i →
            EndsInClash preview.rows root i)) ∧
    (∀ selected o cancelled (v : Vault μ), (previewRename selected o cancelled v).error = [] →
      ∀ r ∈ (previewRename selected o cancelled v).rows, isSafeNodeName r.after = false →
        r.state = .invalid ∨ r.state = .collision) ∧
    ∀ preview cancelled synced outcome (v : Vault μ),
      ((applyRename preview cancelled synced outcome v).1 ≠ .ok →
        (applyRename preview cancelled synced outcome v).2 = v) ∧
      ((applyRename preview cancelled synced outcome v).1 = .ok →
        Applied preview.rows v (applyRename preview cancelled synced outcome v).2) := by
  refine ⟨fun wanted recursive cancelled root tree hscan preview ↦ ?_,
    fun selected o cancelled v hnone r hr hsafe ↦ previewRename_unsafe hnone hr hsafe,
    fun preview cancelled synced outcome v ↦ ?_⟩
  · have hscanned := scanned_scan hscan
    have hexact := collisions_exact hscanned.distinct preview
    exact ⟨hexact.1, fun i ↦ ⟨hexact.2 i, clashes_of_endsInClash hscanned,
      fun hroot ↦ endsInClash_of_clashes hscanned hroot⟩⟩
  · rcases applyRename_cases preview cancelled synced outcome v with
      ⟨hnot, hsame⟩ | ⟨hok, tree, committed, hscanned, hrows, hcollisions, hafter⟩
    · exact ⟨fun _ ↦ hsame, fun hok ↦ absurd hok hnot⟩
    · refine ⟨fun hnot ↦ absurd hok hnot, fun _ ↦ ?_⟩
      rw [hafter]
      have hnone := (collisions_exact hscanned.distinct preview).1.mp hcollisions
      refine ⟨rfl, rfl, rfl, ?_, hrows.safe, fun r hr ↦ ?_, hrows.distinct⟩
      · exact unshared_renameTree fun i hends ↦ hnone i (clashes_of_endsInClash hscanned hends)
      · obtain ⟨e, he, hbefore⟩ := hrows.found r hr
        obtain ⟨hfound, hne, hid⟩ := hscanned.found _ (mem_of_nodeAt he)
        exact ⟨e.position, e.node, hfound.node, hne, hid.symm, hbefore⟩

/-- An identity that is the given byte throughout. -/
def idOf (b : UInt8) : NodeId := ⟨List.replicate nodeIdSize b, List.length_replicate⟩

/-- Two galleries of one name outside of the batch stay as they are. A row with an unsafe name is not
marked by the check. In a gallery with the identity of the root, a name at the root counts as taken. -/
theorem rename_clashes_outside :
    let gallery (name : String) (b : UInt8) (cs : List (Node Unit)) : Node Unit :=
      .branch { name := ascii name, nodeId := idOf b } cs
    let twins := gallery "" 0 [gallery "a" 1 [], gallery "a" 2 [], gallery "b" 3 []]
    let nested := gallery "" 0 [gallery "a" 0 [gallery "b" 1 []]]
    let vault (root : Node Unit) : Vault Unit :=
      ⟨true, true, false, root, .seeded, [], ⟨root, .seeded, []⟩⟩
    let batch (b parent : UInt8) (after : String) : RenamePreview :=
      { rows := [⟨idOf b, idOf parent, ascii "b", ascii after, .changed⟩] }
    let applied := applyRename (batch 3 0 "c") (fun _ ↦ false) true .ok (vault twins)
    (applied.1 = .ok ∧ applied.2.root.children.map (·.label.name) = [ascii "a", ascii "a", ascii "c"]) ∧
      (scan [] false (fun _ ↦ false) twins).any
        (fun tree ↦ (collisions tree (batch 3 0 "..")).2 = batch 3 0 "..") = true ∧
      (scan [] false (fun _ ↦ false) nested).any
        (fun tree ↦ (collisions tree (batch 1 0 "a")).2 ≠ batch 1 0 "a") = true := by
  decide +kernel

end RenameBatch

end SafeVault
