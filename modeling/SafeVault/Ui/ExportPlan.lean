import SafeVault.Index.Node
import SafeVault.Lib.DepthWalk
import SafeVault.Lib.Places

/-!
# What an export has to write

The nodes that are selected may be anywhere in the tree, one below another or twice. First everything is
found that is below a selected node; a selected node that is among that is not a root of what is written,
and of one that is selected twice only the first counts. From the roots on, the nodes are listed with
their depths, a gallery before what is in it.

A user may cancel; from then on the flag stays set.
-/

namespace SafeVault

/-- A pointer to a node of a tree. -/
structure NodePtr (root : IndexNode) where
  path : List ℕ
  node : IndexNode
  get : root.get? path = some node

namespace NodePtr

variable {root : IndexNode}

theorem eq_of_path {a b : NodePtr root} (h : a.path = b.path) : a = b := by
  obtain ⟨p, u, hu⟩ := a
  obtain ⟨q, w, hw⟩ := b
  obtain rfl : p = q := h
  obtain rfl : u = w := Option.some.inj (hu.symm.trans hw)
  rfl

instance : DecidableEq (NodePtr root) := fun a b ↦
  decidable_of_iff (a.path = b.path) ⟨eq_of_path, congrArg path⟩

def child (a : NodePtr root) (i : Fin a.node.children.length) : NodePtr root where
  path := a.path ++ [i.val]
  node := a.node.children.get i
  get := by
    rw [LeafTree.get?_append, a.get, Option.bind_some,
      LeafTree.get?_cons (List.getElem?_eq_getElem i.isLt), LeafTree.get?_nil]
    rfl

/-- The children in their order; there are none below an image or a video. -/
def children (a : NodePtr root) : List (NodePtr root) := (List.finRange a.node.children.length).map a.child

theorem mem_children {a c : NodePtr root} : c ∈ a.children ↔ ∃ i, c.path = a.path ++ [i] := by
  constructor
  · intro h
    obtain ⟨i, -, rfl⟩ := List.mem_map.mp h
    exact ⟨i.val, rfl⟩
  · rintro ⟨i, hi⟩
    have hget := c.get
    rw [hi, LeafTree.get?_append, a.get, Option.bind_some] at hget
    obtain ⟨u, hu, -⟩ := LeafTree.get?_cons_eq_some_iff.mp hget
    obtain ⟨hlt, -⟩ := List.getElem?_eq_some_iff.mp hu
    exact List.mem_map.mpr ⟨⟨i, hlt⟩, List.mem_finRange _, eq_of_path hi.symm⟩

theorem isGallery_of_mem_children {a c : NodePtr root} (h : c ∈ a.children) : a.node.isGallery = true := by
  obtain ⟨⟨i, hi⟩, -, -⟩ := List.mem_map.mp h
  cases hnode : a.node with
  | branch n cs => rfl
  | leaf n p =>
    rw [hnode] at hi
    exact absurd hi (Nat.not_lt_zero _)

theorem children_eq_nil {a : NodePtr root} (h : a.node.isGallery = false) : a.children = [] := by
  rw [List.eq_nil_iff_forall_not_mem]
  intro c hc
  rw [isGallery_of_mem_children hc] at h
  cases h

theorem nodup_children (a : NodePtr root) : a.children.Nodup := by
  refine (List.nodup_finRange _).map fun i j h ↦ ?_
  have hpath : a.path ++ [i.val] = a.path ++ [j.val] := congrArg path h
  exact Fin.ext (List.singleton_inj.mp (List.append_cancel_left hpath))

/-- How many nodes a subtree has is more than those below its root have together. -/
theorem sum_size_children (a : NodePtr root) :
    (a.children.map fun c ↦ c.node.size).sum < a.node.size := by
  have hsizes : (a.children.map fun c ↦ c.node.size) = a.node.children.map LeafTree.size := by
    rw [children, List.map_map]
    conv_rhs => rw [← List.map_get_finRange a.node.children, List.map_map]
    rfl
  rw [hsizes]
  cases a.node with
  | branch n cs =>
    rw [LeafTree.size_branch, LeafTree.children_branch]
    omega
  | leaf n p =>
    rw [LeafTree.size_leaf]
    exact Nat.one_pos

/-- Below, or the same. -/
def Above (a b : NodePtr root) : Prop := a.path <+: b.path

theorem exists_child {a n : NodePtr root} {i : ℕ} {q : List ℕ} (h : n.path = a.path ++ i :: q) :
    ∃ c ∈ a.children, n.path = c.path ++ q := by
  have hget := n.get
  rw [h, LeafTree.get?_append, a.get, Option.bind_some] at hget
  obtain ⟨u, hu, -⟩ := LeafTree.get?_cons_eq_some_iff.mp hget
  obtain ⟨hlt, -⟩ := List.getElem?_eq_some_iff.mp hu
  refine ⟨a.child ⟨i, hlt⟩, mem_children.mpr ⟨i, rfl⟩, ?_⟩
  rw [h, child, List.append_assoc, List.singleton_append]

theorem above_of_mem_children {a c : NodePtr root} (h : c ∈ a.children) : a.Above c := by
  obtain ⟨i, hi⟩ := mem_children.mp h
  exact ⟨[i], hi.symm⟩

/-- What is below a node is this node, or below one of its children. -/
theorem above_iff {a n : NodePtr root} : a.Above n ↔ n = a ∨ ∃ c ∈ a.children, c.Above n := by
  constructor
  · rintro ⟨q, hq⟩
    cases q with
    | nil => exact .inl (eq_of_path (by rw [← hq, List.append_nil]))
    | cons i q =>
      obtain ⟨c, hc, hpath⟩ := exists_child hq.symm
      exact .inr ⟨c, hc, q, hpath.symm⟩
  · rintro (rfl | ⟨c, hc, habove⟩)
    · exact List.prefix_rfl
    · exact (above_of_mem_children hc).trans habove

theorem Above.antisymm {a b : NodePtr root} (h : a.Above b) (h' : b.Above a) : a = b :=
  eq_of_path (h.eq_of_length_le h'.length_le)

theorem not_above_of_mem_children {a c : NodePtr root} (h : c ∈ a.children) : ¬c.Above a := by
  intro habove
  obtain ⟨i, hi⟩ := mem_children.mp h
  have hle := habove.length_le
  rw [hi, List.length_append, List.length_singleton] at hle
  exact absurd hle (Nat.not_succ_le_self _)

/-- A node below another one has a parent there. -/
theorem exists_parent {a n : NodePtr root} (h : a.Above n) (hne : a ≠ n) :
    ∃ p : NodePtr root, a.Above p ∧ n ∈ p.children := by
  obtain ⟨q, hq⟩ := h
  rcases List.eq_nil_or_concat q with rfl | ⟨q, i, rfl⟩
  · exact absurd (eq_of_path (by rw [← hq, List.append_nil])) hne
  · have hget := n.get
    rw [← hq, List.concat_eq_append, ← List.append_assoc, LeafTree.get?_append] at hget
    obtain ⟨u, hu, -⟩ := Option.bind_eq_some_iff.mp hget
    refine ⟨⟨a.path ++ q, u, hu⟩, ⟨q, rfl⟩, mem_children.mpr ⟨i, ?_⟩⟩
    rw [← hq, List.concat_eq_append, List.append_assoc]

/-- What is above a child is this child, or above its parent. -/
theorem above_child {a c n : NodePtr root} (hc : c ∈ a.children) (h : n.Above c) : n = c ∨ n.Above a := by
  obtain ⟨i, hi⟩ := mem_children.mp hc
  rw [Above, hi] at h
  rcases List.prefix_concat_iff.mp h with heq | habove
  · exact .inl (eq_of_path (heq.trans hi.symm))
  · exact .inr habove

end NodePtr

namespace Export

variable {root : IndexNode}

/-- A pointer that may be null. -/
abbrev NodeRef (root : IndexNode) := Option (NodePtr root)

/-- A node of the plan, or a null pointer, with its depth below the selection. -/
abbrev ExportEntry (root : IndexNode) := WalkStep (NodeRef root)

def sizeOf : NodeRef root → ℕ
  | none => 1
  | some a => a.node.size

theorem sizeOf_pos (a : NodeRef root) : 0 < sizeOf a := by
  cases a with
  | none => exact Nat.one_pos
  | some a => exact LeafTree.size_pos a.node

theorem sum_sizeOf_children (a : NodePtr root) : ((a.children.map some).map sizeOf).sum < sizeOf (some a) := by
  rw [List.map_map]
  exact a.sum_size_children

/-- Whether the flag is set at some test of it: it may be set after any number of tests. -/
def cancelled (after : Option ℕ) (tick : ℕ) : Bool :=
  match after with
  | none => false
  | some n => n ≤ tick

/-! ## The plan -/

/-- The loop of `covered_nodes`, with how often the flag is tested. The next node is the first one. -/
def coveredLoop (after : Option ℕ) (tick : ℕ) (seen covered : List (NodeRef root)) :
    List (NodeRef root) → List (NodeRef root) × ℕ
  | [] => (covered, tick)
  | node :: pending =>
    if cancelled after tick then ([], tick + 1)
    else
      match node with
      | none => coveredLoop after (tick + 1) seen covered pending
      | some a =>
        if some a ∈ seen then coveredLoop after (tick + 1) seen covered pending
        else if a.node.isGallery then
          coveredLoop after (tick + 1) (some a :: seen) (a.children.map some ++ covered)
            ((a.children.map some).reverse ++ pending)
        else coveredLoop after (tick + 1) (some a :: seen) covered pending
termination_by pending => (pending.map sizeOf).sum
decreasing_by
  · simp only [List.map_cons, List.sum_cons, sizeOf]; omega
  · have := sizeOf_pos (some a); simp only [List.map_cons, List.sum_cons]; omega
  · have := sum_sizeOf_children a
    simp only [List.map_cons, List.sum_cons, List.map_append, List.sum_append, List.map_reverse, List.sum_reverse]
    omega
  · have := sizeOf_pos (some a); simp only [List.map_cons, List.sum_cons]; omega

/-- Everything that is below a selected node. -/
def coveredNodes (after : Option ℕ) (selected : List (NodeRef root)) : List (NodeRef root) × ℕ :=
  coveredLoop after 0 [] [] selected.reverse

/-- The selected nodes that the export begins at. -/
def rootsFrom (covered seen : List (NodeRef root)) : List (NodeRef root) → List (NodeRef root)
  | [] => []
  | node :: selected =>
    if node ∉ covered ∧ node ∉ seen then node :: rootsFrom covered (node :: seen) selected
    else rootsFrom covered seen selected

/-- The second loop of `export_plan`. The top of the stack is the first of the list. -/
def planLoop (after : Option ℕ) (tick : ℕ) (plan : List (ExportEntry root)) :
    List (ExportEntry root) → List (ExportEntry root) × ℕ
  | [] => (plan, tick)
  | (node, depth) :: stack =>
    if cancelled after tick then ([], tick + 1)
    else
      match node with
      | none => planLoop after (tick + 1) (plan ++ [(none, depth)]) stack
      | some a =>
        if a.node.isGallery then
          planLoop after (tick + 1) (plan ++ [(some a, depth)])
            ((a.children.map some).map (·, depth + 1) ++ stack)
        else planLoop after (tick + 1) (plan ++ [(some a, depth)]) stack
termination_by stack => (stack.map fun x ↦ sizeOf x.1).sum
decreasing_by
  · simp only [List.map_cons, List.sum_cons, sizeOf]; omega
  · have := sum_sizeOf_children a
    simp only [List.map_cons, List.sum_cons, List.map_append, List.sum_append, List.map_map, Function.comp_def] at this ⊢
    omega
  · have := sizeOf_pos (some a); simp only [List.map_cons, List.sum_cons]; omega

def exportPlan (after : Option ℕ) (selected : List (NodeRef root)) : List (ExportEntry root) × ℕ :=
  let (covered, tick) := coveredNodes after selected
  planLoop after tick [] ((rootsFrom covered [] selected).map (·, 0))

/-! ## What is covered -/

/-- What the loop has found and what it still has to look at. -/
structure Explored (selected seen covered pending : List (NodeRef root)) : Prop where
  covered_iff : ∀ n : NodePtr root, some n ∈ covered ↔ ∃ a : NodePtr root, some a ∈ seen ∧ n ∈ a.children
  closed : ∀ a c : NodePtr root, some a ∈ seen → c ∈ a.children → some c ∈ seen ∨ some c ∈ pending
  begun : ∀ s : NodePtr root, some s ∈ selected → some s ∈ seen ∨ some s ∈ pending
  sound : ∀ n : NodePtr root, some n ∈ seen ∨ some n ∈ pending → ∃ s, some s ∈ selected ∧ s.Above n
  no_null : none ∉ covered

variable {selected seen covered pending : List (NodeRef root)} {node : NodeRef root} {a : NodePtr root}

theorem Explored.start (selected : List (NodeRef root)) : Explored selected [] [] selected.reverse where
  covered_iff := by simp
  closed := by simp
  begun s hs := .inr (List.mem_reverse.mpr hs)
  sound n hn := by
    rcases hn with hseen | hpending
    · cases hseen
    · exact ⟨n, List.mem_reverse.mp hpending, List.prefix_rfl⟩
  no_null := List.not_mem_nil

/-- A null pointer is passed over, and a node that has been seen. -/
theorem Explored.pass (h : Explored selected seen covered (node :: pending)) (hnode : node = none ∨ node ∈ seen) :
    Explored selected seen covered pending := by
  have hmoved : ∀ n : NodePtr root, some n ∈ seen ∨ some n ∈ node :: pending → some n ∈ seen ∨ some n ∈ pending := by
    rintro n (hseen | hnext)
    · exact .inl hseen
    · rcases List.mem_cons.mp hnext with rfl | hpending
      · exact .inl (hnode.resolve_left nofun)
      · exact .inr hpending
  refine ⟨h.covered_iff, fun a c ha hc ↦ hmoved c (h.closed a c ha hc), fun s hs ↦ hmoved s (h.begun s hs), ?_,
    h.no_null⟩
  intro n hn
  exact h.sound n (hn.imp_right (List.mem_cons_of_mem _))

/-- A node is looked at, and its children are found. -/
theorem Explored.visit (h : Explored selected seen covered (some a :: pending)) :
    Explored selected (some a :: seen) (a.children.map some ++ covered)
      ((a.children.map some).reverse ++ pending) := by
  have hchild : ∀ c : NodePtr root, some c ∈ a.children.map some ↔ c ∈ a.children := by simp
  refine ⟨fun n ↦ ?_, fun b c hb hc ↦ ?_, fun s hs ↦ ?_, fun n hn ↦ ?_, ?_⟩
  · rw [List.mem_append, hchild, h.covered_iff]
    constructor
    · rintro (hn | ⟨b, hb, hn⟩)
      · exact ⟨a, List.mem_cons_self, hn⟩
      · exact ⟨b, List.mem_cons_of_mem _ hb, hn⟩
    · rintro ⟨b, hb, hn⟩
      rcases List.mem_cons.mp hb with heq | hb
      · exact .inl (Option.some.inj heq ▸ hn)
      · exact .inr ⟨b, hb, hn⟩
  · rw [List.mem_append, List.mem_reverse, hchild]
    rcases List.mem_cons.mp hb with heq | hb
    · exact .inr (.inl (Option.some.inj heq ▸ hc))
    · rcases h.closed b c hb hc with hseen | hnext
      · exact .inl (List.mem_cons_of_mem _ hseen)
      · rcases List.mem_cons.mp hnext with heq | hpending
        · exact .inl (heq ▸ List.mem_cons_self)
        · exact .inr (.inr hpending)
  · rw [List.mem_append]
    rcases h.begun s hs with hseen | hnext
    · exact .inl (List.mem_cons_of_mem _ hseen)
    · rcases List.mem_cons.mp hnext with heq | hpending
      · exact .inl (heq ▸ List.mem_cons_self)
      · exact .inr (.inr hpending)
  · rw [List.mem_append, List.mem_reverse, hchild] at hn
    rcases hn with hseen | hchildren | hpending
    · rcases List.mem_cons.mp hseen with heq | hseen
      · exact h.sound n (.inr (heq ▸ List.mem_cons_self))
      · exact h.sound n (.inl hseen)
    · obtain ⟨s, hs, habove⟩ := h.sound a (.inr List.mem_cons_self)
      exact ⟨s, hs, habove.trans (NodePtr.above_of_mem_children hchildren)⟩
    · exact h.sound n (.inr (List.mem_cons_of_mem _ hpending))
  · rw [List.mem_append]
    rintro (hnull | hnull)
    · obtain ⟨c, -, hc⟩ := List.mem_map.mp hnull
      cases hc
    · exact h.no_null hnull

theorem Explored.visit_leaf (h : Explored selected seen covered (some a :: pending))
    (hleaf : a.node.isGallery = false) : Explored selected (some a :: seen) covered pending := by
  have hvisit := h.visit
  rwa [NodePtr.children_eq_nil hleaf] at hvisit

theorem exists_explored (tick : ℕ) (h : Explored selected seen covered pending) :
    ∃ seen', Explored selected seen' (coveredLoop none tick seen covered pending).1 [] := by
  fun_induction coveredLoop none tick seen covered pending with
  | case1 tick seen => exact ⟨seen, h⟩
  | case2 _ _ _ _ _ hcancelled => cases hcancelled
  | case3 _ _ _ _ _ ih => exact ih (h.pass (.inl rfl))
  | case4 _ _ _ _ _ a hseen ih => exact ih (h.pass (.inr hseen))
  | case5 _ _ _ _ _ a _ _ ih => exact ih h.visit
  | case6 _ _ _ _ _ a _ hleaf ih => exact ih (h.visit_leaf (Bool.not_eq_true _ ▸ hleaf))

/-- When nothing is left to look at, everything below a node that was seen was seen. -/
theorem Explored.mem_seen (h : Explored selected seen covered []) {a n : NodePtr root} (ha : some a ∈ seen)
    {q : List ℕ} (hn : n.path = a.path ++ q) : some n ∈ seen := by
  induction q generalizing a with
  | nil =>
    obtain rfl : n = a := NodePtr.eq_of_path (by rw [hn, List.append_nil])
    exact ha
  | cons i q ih =>
    obtain ⟨c, hc, hpath⟩ := NodePtr.exists_child hn
    exact ih ((h.closed a c ha hc).resolve_right List.not_mem_nil) hpath

/-- What is covered is what is below a selected node. -/
theorem mem_coveredNodes (selected : List (NodeRef root)) (n : NodePtr root) :
    some n ∈ (coveredNodes none selected).1 ↔ ∃ s, some s ∈ selected ∧ s.Above n ∧ s ≠ n := by
  obtain ⟨seen, h⟩ := exists_explored 0 (Explored.start selected)
  rw [coveredNodes, h.covered_iff]
  constructor
  · rintro ⟨a, ha, hn⟩
    obtain ⟨s, hs, habove⟩ := h.sound a (.inl ha)
    refine ⟨s, hs, habove.trans (NodePtr.above_of_mem_children hn), ?_⟩
    rintro rfl
    exact NodePtr.not_above_of_mem_children hn habove
  · rintro ⟨s, hs, habove, hne⟩
    obtain ⟨p, ⟨q, hq⟩, hp⟩ := NodePtr.exists_parent habove hne
    exact ⟨p, h.mem_seen ((h.begun s hs).resolve_right List.not_mem_nil) hq.symm, hp⟩

/-! ## The roots -/

/-- A node that is selected and not below another one that is. -/
def Top (selected : List (NodeRef root)) (n : NodePtr root) : Prop :=
  some n ∈ selected ∧ ∀ s, some s ∈ selected → s.Above n → s = n

theorem mem_rootsFrom {covered seen selected : List (NodeRef root)} {node : NodeRef root} :
    node ∈ rootsFrom covered seen selected ↔ node ∈ selected ∧ node ∉ covered ∧ node ∉ seen := by
  induction selected generalizing seen with
  | nil => simp [rootsFrom]
  | cons x selected ih =>
    rw [rootsFrom]
    split <;> grind

theorem nodup_rootsFrom (covered seen selected : List (NodeRef root)) : (rootsFrom covered seen selected).Nodup := by
  induction selected generalizing seen with
  | nil => exact List.nodup_nil
  | cons x selected ih =>
    rw [rootsFrom]
    split
    · refine List.nodup_cons.mpr ⟨fun h ↦ ?_, ih _⟩
      exact (mem_rootsFrom.mp h).2.2 List.mem_cons_self
    · exact ih _

/-- The roots of an export without cancellation. -/
def roots (selected : List (NodeRef root)) : List (NodeRef root) :=
  rootsFrom (coveredNodes none selected).1 [] selected

theorem mem_roots (selected : List (NodeRef root)) (n : NodePtr root) :
    some n ∈ roots selected ↔ Top selected n := by
  rw [roots, mem_rootsFrom, mem_coveredNodes, Top]
  constructor
  · rintro ⟨hn, hcovered, -⟩
    exact ⟨hn, fun s hs habove ↦ by_contra fun hne ↦ hcovered ⟨s, hs, habove, hne⟩⟩
  · rintro ⟨hn, htop⟩
    exact ⟨hn, fun ⟨s, hs, habove, hne⟩ ↦ hne (htop s hs habove), List.not_mem_nil⟩

/-- A selected node has a root above it. -/
theorem exists_root (selected : List (NodeRef root)) {s : NodePtr root} (hs : some s ∈ selected) :
    ∃ r, Top selected r ∧ r.Above s := by
  -- The one with the shortest path.
  induction hlength : s.path.length using Nat.strong_induction_on generalizing s with
  | _ k ih =>
    by_cases htop : Top selected s
    · exact ⟨s, htop, List.prefix_rfl⟩
    · obtain ⟨s', hs', habove, hne⟩ : ∃ s', some s' ∈ selected ∧ s'.Above s ∧ s' ≠ s := by
        by_contra hnone
        exact htop ⟨hs, fun s' hs' habove ↦ by_contra fun hne ↦ hnone ⟨s', hs', habove, hne⟩⟩
      have hshorter : s'.path.length < k := by
        refine hlength ▸ lt_of_le_of_ne habove.length_le fun heq ↦ hne ?_
        exact NodePtr.eq_of_path (habove.eq_of_length heq)
      obtain ⟨r, hr, hrabove⟩ := ih _ hshorter hs' rfl
      exact ⟨r, hr, hrabove.trans habove⟩

/-! ## The walk -/

/-- The list that the second loop makes of a stack. -/
def walkFrom : List (ExportEntry root) → List (ExportEntry root)
  | [] => []
  | (none, depth) :: stack => (none, depth) :: walkFrom stack
  | (some a, depth) :: stack =>
    (some a, depth) :: walkFrom ((a.children.map some).map (·, depth + 1) ++ stack)
termination_by stack => (stack.map fun x ↦ sizeOf x.1).sum
decreasing_by
  · simp only [List.map_cons, List.sum_cons, sizeOf]; omega
  · have := sum_sizeOf_children a
    simp only [List.map_cons, List.sum_cons, List.map_append, List.sum_append, List.map_map,
      Function.comp_def] at this ⊢
    omega

theorem planLoop_none (tick : ℕ) (plan stack : List (ExportEntry root)) :
    (planLoop none tick plan stack).1 = plan ++ walkFrom stack := by
  fun_induction planLoop none tick plan stack with
  | case1 => rw [walkFrom, List.append_nil]
  | case2 _ _ _ _ _ hcancelled => cases hcancelled
  | case3 _ _ _ _ _ ih => rw [ih, walkFrom, List.append_assoc, List.singleton_append]
  | case4 _ _ _ _ _ a _ ih => rw [ih, walkFrom, List.append_assoc, List.singleton_append]
  | case5 _ _ _ _ _ a hleaf ih =>
    rw [ih, walkFrom, NodePtr.children_eq_nil (Bool.not_eq_true _ ▸ hleaf), List.append_assoc,
      List.singleton_append]
    rfl

/-- `c` is a child of the gallery `p`. -/
def IsBelow (p c : NodeRef root) : Prop := ∃ a b : NodePtr root, p = some a ∧ c = some b ∧ b ∈ a.children

theorem depthWalk_walkFrom {above : List (NodeRef root)} {stack : List (ExportEntry root)}
    (h : Ready IsBelow above stack) : DepthWalk IsBelow above (walkFrom stack) := by
  fun_induction walkFrom stack generalizing above with
  | case1 => exact .nil
  | case2 depth stack ih =>
    refine .cons (h.1 _ List.mem_cons_self) (ih ?_)
    exact @Ready.push _ _ _ _ _ [] h (by simp)
  | case3 a depth stack ih =>
    refine .cons (h.1 _ List.mem_cons_self) (ih (h.push fun c hc ↦ ?_))
    obtain ⟨b, hb, rfl⟩ := List.mem_map.mp hc
    exact ⟨a, b, rfl, rfl, hb⟩

/-- The nodes of a walk are those below the nodes on the stack. -/
theorem mem_walkFrom (stack : List (ExportEntry root)) (n : NodePtr root) :
    some n ∈ (walkFrom stack).map Prod.fst ↔ ∃ a : NodePtr root, some a ∈ stack.map Prod.fst ∧ a.Above n := by
  fun_induction walkFrom stack with
  | case1 => simp
  | case2 depth stack ih =>
    simp only [List.map_cons, List.mem_cons, reduceCtorEq, false_or]
    exact ih
  | case3 a depth stack ih =>
    have hchildren : ((a.children.map some).map (·, depth + 1)).map Prod.fst = a.children.map some := by
      rw [List.map_map]
      exact List.map_id _
    rw [List.map_cons, List.mem_cons, ih, List.map_append, hchildren]
    constructor
    · rintro (heq | ⟨c, hc, habove⟩)
      · exact ⟨a, List.mem_cons_self, Option.some.inj heq ▸ List.prefix_rfl⟩
      · rcases List.mem_append.mp hc with hchild | hstack
        · obtain ⟨c', hc', heq⟩ := List.mem_map.mp hchild
          obtain rfl := Option.some.inj heq
          exact ⟨a, List.mem_cons_self, NodePtr.above_iff.mpr (.inr ⟨c', hc', habove⟩)⟩
        · exact ⟨c, List.mem_cons_of_mem _ hstack, habove⟩
    · rintro ⟨b, hb, habove⟩
      rcases List.mem_cons.mp hb with heq | hstack
      · obtain rfl := Option.some.inj heq
        rcases NodePtr.above_iff.mp habove with rfl | ⟨c, hc, habove⟩
        · exact .inl rfl
        · exact .inr ⟨c, List.mem_append_left _ (List.mem_map_of_mem hc), habove⟩
      · exact .inr ⟨b, List.mem_append_right _ hstack, habove⟩

/-- What is at depth zero comes from the stack. -/
theorem mem_stack_of_depth_zero {stack : List (ExportEntry root)} {node : NodeRef root}
    (h : (node, 0) ∈ walkFrom stack) : (node, 0) ∈ stack := by
  fun_induction walkFrom stack with
  | case1 => exact h
  | case2 depth stack ih =>
    rcases List.mem_cons.mp h with heq | hrest
    · exact heq ▸ List.mem_cons_self
    · exact List.mem_cons_of_mem _ (ih hrest)
  | case3 a depth stack ih =>
    rcases List.mem_cons.mp h with heq | hrest
    · exact heq ▸ List.mem_cons_self
    · rcases List.mem_append.mp (ih hrest) with hchild | hstack
      · obtain ⟨c, -, hc⟩ := List.mem_map.mp hchild
        cases hc
      · exact List.mem_cons_of_mem _ hstack

/-- Neither is above the other one. -/
def Apart (x y : NodeRef root) : Prop :=
  x ≠ y ∧ ∀ a b : NodePtr root, x = some a → y = some b → ¬a.Above b ∧ ¬b.Above a

theorem map_fst_children (a : NodePtr root) (depth : ℕ) (stack : List (ExportEntry root)) :
    ((a.children.map some).map (·, depth) ++ stack).map Prod.fst =
      a.children.map some ++ stack.map Prod.fst := by
  rw [List.map_append, List.map_map]
  exact congrArg (· ++ _) (List.map_id _)

theorem null_mem_walkFrom {stack : List (ExportEntry root)} (h : none ∈ (walkFrom stack).map Prod.fst) :
    none ∈ stack.map Prod.fst := by
  fun_induction walkFrom stack with
  | case1 => exact h
  | case2 depth stack ih => exact List.mem_cons_self
  | case3 a depth stack ih =>
    have hrest := ih ((List.mem_cons.mp h).resolve_left nofun)
    rw [map_fst_children] at hrest
    rcases List.mem_append.mp hrest with hchild | hstack
    · obtain ⟨c, -, hc⟩ := List.mem_map.mp hchild
      cases hc
    · exact List.mem_cons_of_mem _ hstack

theorem pairwise_apart_children (a : NodePtr root) : (a.children.map some).Pairwise Apart := by
  refine List.pairwise_map.mpr ((NodePtr.nodup_children a).imp_of_mem fun {c d} hc hd hne ↦ ?_)
  refine ⟨fun heq ↦ hne (Option.some.inj heq), fun x y hx hy ↦ ?_⟩
  obtain rfl := Option.some.inj hx
  obtain rfl := Option.some.inj hy
  obtain ⟨i, hi⟩ := NodePtr.mem_children.mp hc
  obtain ⟨j, hj⟩ := NodePtr.mem_children.mp hd
  have hlength : c.path.length = d.path.length := by rw [hi, hj, List.length_append, List.length_append]; rfl
  exact ⟨fun habove ↦ hne (NodePtr.eq_of_path (habove.eq_of_length hlength)),
    fun habove ↦ hne (NodePtr.eq_of_path (habove.eq_of_length hlength.symm)).symm⟩

/-- The children of a node are apart from whatever the node is apart from. -/
theorem Apart.child {a c : NodePtr root} {y : NodeRef root} (h : Apart (some a) y) (hc : c ∈ a.children) :
    Apart (some c) y := by
  obtain ⟨hne, hapart⟩ := h
  have hbelow := NodePtr.above_of_mem_children hc
  refine ⟨?_, fun x b hx hb ↦ ?_⟩
  · rintro rfl
    exact (hapart a c rfl rfl).1 hbelow
  · obtain rfl := Option.some.inj hx
    obtain ⟨hab, hba⟩ := hapart a b rfl hb
    refine ⟨fun hcb ↦ hab (hbelow.trans hcb), fun hbc ↦ ?_⟩
    rcases NodePtr.above_child hc hbc with rfl | habove
    · exact hab hbelow
    · exact hba habove

theorem nodup_walkFrom {stack : List (ExportEntry root)} (h : (stack.map Prod.fst).Pairwise Apart) :
    ((walkFrom stack).map Prod.fst).Nodup := by
  fun_induction walkFrom stack with
  | case1 => exact List.nodup_nil
  | case2 depth stack ih =>
    obtain ⟨hnull, hstack⟩ := List.pairwise_cons.mp h
    refine List.nodup_cons.mpr ⟨fun hmem ↦ ?_, ih hstack⟩
    exact (hnull none (null_mem_walkFrom hmem)).1 rfl
  | case3 a depth stack ih =>
    obtain ⟨hnode, hstack⟩ := List.pairwise_cons.mp h
    refine List.nodup_cons.mpr ⟨fun hmem ↦ ?_, ih ?_⟩
    · obtain ⟨b, hb, habove⟩ := (mem_walkFrom _ a).mp hmem
      rw [map_fst_children] at hb
      rcases List.mem_append.mp hb with hchild | hstack
      · obtain ⟨c, hc, heq⟩ := List.mem_map.mp hchild
        obtain rfl := Option.some.inj heq
        exact NodePtr.not_above_of_mem_children hc habove
      · exact ((hnode _ hstack).2 a b rfl rfl).2 habove
    · rw [map_fst_children]
      refine List.pairwise_append.mpr ⟨pairwise_apart_children a, hstack, fun x hx y hy ↦ ?_⟩
      obtain ⟨c, hc, rfl⟩ := List.mem_map.mp hx
      exact (hnode y hy).child hc

theorem pairwise_apart_roots (selected : List (NodeRef root)) : (roots selected).Pairwise Apart := by
  refine (nodup_rootsFrom _ _ _).imp_of_mem fun {x y} hx hy hne ↦ ⟨hne, fun a b ha hb ↦ ?_⟩
  subst ha hb
  have htop := (mem_roots selected a).mp hx
  have htop' := (mem_roots selected b).mp hy
  exact ⟨fun habove ↦ hne (congrArg some (htop'.2 a htop.1 habove)),
    fun habove ↦ hne (congrArg some (htop.2 b htop'.1 habove)).symm⟩

/-! ## The plan is the walk -/

/-- What is planned without cancellation. -/
def walk (selected : List (NodeRef root)) : List (ExportEntry root) := walkFrom ((roots selected).map (·, 0))

theorem cancelled_succ {after : Option ℕ} {tick : ℕ} (h : cancelled after tick = true) :
    cancelled after (tick + 1) = true := by
  cases after with
  | none => cases h
  | some n => exact decide_eq_true ((of_decide_eq_true h).trans (Nat.le_succ tick))

theorem coveredLoop_after (after : Option ℕ) (tick : ℕ) (seen covered pending : List (NodeRef root)) :
    coveredLoop after tick seen covered pending = coveredLoop none tick seen covered pending ∨
      cancelled after (coveredLoop after tick seen covered pending).2 = true := by
  have hnever (tick : ℕ) : cancelled none tick = false := rfl
  fun_induction coveredLoop after tick seen covered pending with
  | case1 tick seen covered =>
    rw [coveredLoop]
    exact .inl rfl
  | case2 tick seen covered node pending h => exact .inr (cancelled_succ h)
  | case3 tick seen covered pending _ ih => rwa [coveredLoop.eq_2 none, hnever, if_neg Bool.false_ne_true]
  | case4 tick seen covered pending _ a hseen ih =>
    rwa [coveredLoop.eq_3 none, hnever, if_neg Bool.false_ne_true, if_pos hseen]
  | case5 tick seen covered pending _ a hseen hgallery ih =>
    rwa [coveredLoop.eq_3 none, hnever, if_neg Bool.false_ne_true, if_neg hseen, if_pos hgallery]
  | case6 tick seen covered pending _ a hseen hgallery ih =>
    rwa [coveredLoop.eq_3 none, hnever, if_neg Bool.false_ne_true, if_neg hseen, if_neg hgallery]

theorem planLoop_after (after : Option ℕ) (tick : ℕ) (plan stack : List (ExportEntry root)) :
    planLoop after tick plan stack = planLoop none tick plan stack ∨
      after ≠ none ∧ (planLoop after tick plan stack).1 = [] := by
  have hnever (tick : ℕ) : cancelled none tick = false := rfl
  fun_induction planLoop after tick plan stack with
  | case1 tick plan =>
    rw [planLoop]
    exact .inl rfl
  | case2 tick plan node depth stack h =>
    refine .inr ⟨?_, rfl⟩
    rintro rfl
    cases h
  | case3 tick plan depth stack _ ih => rwa [planLoop.eq_2 none, hnever, if_neg Bool.false_ne_true]
  | case4 tick plan depth stack _ a hgallery ih =>
    rwa [planLoop.eq_3 none, hnever, if_neg Bool.false_ne_true, if_pos hgallery]
  | case5 tick plan depth stack _ a hgallery ih =>
    rwa [planLoop.eq_3 none, hnever, if_neg Bool.false_ne_true, if_neg hgallery]

/-- A plan that is cancelled is empty. -/
theorem exportPlan_eq (after : Option ℕ) (selected : List (NodeRef root)) :
    (exportPlan after selected).1 = walk selected ∨ after ≠ none ∧ (exportPlan after selected).1 = [] := by
  rw [exportPlan]
  rcases coveredLoop_after after 0 [] [] selected.reverse with hcovered | hcancelled
  · have hsame : coveredNodes after selected = coveredNodes none selected := hcovered
    rw [hsame]
    dsimp only
    rcases planLoop_after after (coveredNodes none selected).2 []
      ((rootsFrom (coveredNodes none selected).1 [] selected).map (·, 0)) with hplan | hcancelled
    · rw [hplan, planLoop_none]
      exact .inl rfl
    · exact .inr hcancelled
  · have hset : cancelled after (coveredNodes after selected).2 = true := hcancelled
    refine .inr ⟨?_, ?_⟩
    · rintro rfl
      cases hset
    · dsimp only
      -- The flag is still set when the second loop begins.
      cases (rootsFrom (coveredNodes after selected).1 [] selected).map (·, 0) with
      | nil => rw [planLoop]
      | cons x stack =>
        obtain ⟨node, depth⟩ := x
        cases node with
        | none => rw [planLoop.eq_2, if_pos hset]
        | some a => rw [planLoop.eq_3, if_pos hset]

/-! ## What the plan is -/

theorem depthWalk_walk (selected : List (NodeRef root)) : DepthWalk IsBelow [] (walk selected) :=
  depthWalk_walkFrom (ready_roots _)

theorem nodup_walk (selected : List (NodeRef root)) : ((walk selected).map Prod.fst).Nodup := by
  refine nodup_walkFrom ?_
  rw [List.map_map]
  exact (List.map_id _).symm ▸ pairwise_apart_roots selected

/-- Each node that is selected or below a selected one is planned. -/
theorem mem_walk (selected : List (NodeRef root)) (n : NodePtr root) :
    some n ∈ (walk selected).map Prod.fst ↔ ∃ s, some s ∈ selected ∧ s.Above n := by
  have hroots : ((roots selected).map (·, 0)).map Prod.fst = roots selected := by
    rw [List.map_map]
    exact List.map_id _
  rw [walk, mem_walkFrom, hroots]
  constructor
  · rintro ⟨r, hr, habove⟩
    exact ⟨r, ((mem_roots selected r).mp hr).1, habove⟩
  · rintro ⟨s, hs, habove⟩
    obtain ⟨r, hr, hrs⟩ := exists_root selected hs
    exact ⟨r, (mem_roots selected r).mpr hr, hrs.trans habove⟩

/-- What is planned at depth zero is not below another selected node. -/
theorem top_of_mem_walk {selected : List (NodeRef root)} {n : NodePtr root} (h : (some n, 0) ∈ walk selected) :
    Top selected n := by
  obtain ⟨r, hr, heq⟩ := List.mem_map.mp (mem_stack_of_depth_zero h)
  obtain rfl := (Prod.mk.inj heq).1
  exact (mem_roots selected n).mp hr

end Export

end SafeVault
