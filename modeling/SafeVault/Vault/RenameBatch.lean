import SafeVault.Vault.State

/-!
# A batch of renames

A preview is a list of rows: the identity of a node, that of its parent, the name it had and the one it is
to get. The tree is scanned once, and what is found is kept in the order of the identities; no path is
used, so a parent may be renamed in the same batch.

What an expression makes of a name is given here, with the number of replacements, or nothing where it
fails.
-/

namespace SafeVault

namespace RenameBatch

variable {μ : Type}

inductive RenameState where
  | changed | unchanged | unmatched | invalid | collision
  deriving DecidableEq

structure RenameRow where
  id : NodeId
  parent : NodeId
  before : Bytes
  after : Bytes
  state : RenameState := .unmatched
  deriving DecidableEq

structure RenamePreview where
  rows : List RenameRow := []
  error : Bytes := []
  deriving DecidableEq

def RenamePreview.valid (p : RenamePreview) : Bool :=
  p.error.isEmpty && !p.rows.isEmpty &&
    p.rows.all fun r ↦ !(r.state == .invalid || r.state == .collision)

/-! ## The scan -/

/-- A node that was found. The pointer to it is its position. -/
structure Entry (μ : Type) where
  position : List ℕ
  node : Node μ
  parent : NodeId
  selected : Bool

abbrev Tree (μ : Type) := List (NodeId × Entry μ)

/-- The order of the identities, byte by byte. -/
def idLe (a b : NodeId) : Bool := !List.lex b.bytes a.bytes (fun x y ↦ x.toNat < y.toNat)

/-- `try_emplace`, where it inserts. -/
def Tree.tryEmplace (tree : Tree μ) (id : NodeId) (e : Entry μ) : Option (Tree μ) :=
  if tree.any (·.1 == id) then none
  else some (tree.orderedInsert (fun x y ↦ idLe x.1 y.1 = true) (id, e))

/-- The children of an entry, the last one first, as they are taken off the stack. -/
def Entry.below (e : Entry μ) (chosen : Bool) : List (Entry μ) :=
  (e.node.children.mapIdx fun i c ↦ ⟨e.position ++ [i], c, e.node.label.nodeId, chosen⟩).reverse

theorem sum_size_below (e : Entry μ) (chosen : Bool) :
    ((e.below chosen).map fun c ↦ c.node.size).sum < e.node.size := by
  have hsizes : (e.below chosen).map (fun c ↦ c.node.size) = (e.node.children.map LeafTree.size).reverse := by
    rw [Entry.below, List.map_reverse]
    exact congrArg List.reverse (List.ext_getElem (by simp) (by simp))
  rw [hsizes, List.sum_reverse]
  rcases e.node with ⟨n, cs⟩ | ⟨n, p⟩
  · rw [LeafTree.children_branch, LeafTree.size_branch]
    exact Nat.lt_succ_self _
  · exact Nat.one_pos

section Scan

variable (wanted : List NodeId) (recursive : Bool) (cancelled : ℕ → Bool)

/-- The loop of `scan`, which looks at the flag once for each node. -/
def scanLoop : ℕ → List (Entry μ) → Tree μ → Option (Tree μ)
  | _, [], tree => some tree
  | k, e :: pending, tree =>
    if cancelled k then none
    else
      let chosen := wanted.contains e.node.label.nodeId || (recursive && e.selected)
      if e.position.isEmpty then scanLoop (k + 1) (e.below chosen ++ pending) tree
      else
        match tree.tryEmplace e.node.label.nodeId { e with selected := chosen } with
        | none => none
        | some tree => scanLoop (k + 1) (e.below chosen ++ pending) tree
termination_by _ pending => (pending.map fun e ↦ e.node.size).sum
decreasing_by
  all_goals
    have hlt := sum_size_below e (wanted.contains e.node.label.nodeId || (recursive && e.selected))
    simp only [List.map_append, List.sum_append, List.map_cons, List.sum_cons]
    omega

def scan (root : Node μ) : Option (Tree μ) := do
  let tree ← scanLoop wanted recursive cancelled 0 [⟨[], root, .zero, false⟩] []
  if wanted.all fun id ↦ tree.any (·.1 == id) then some tree else none

end Scan

/-! ## Collisions -/

/-- The row of a node: the first one. -/
def rowOf (rows : List RenameRow) (id : NodeId) : Option ℕ := rows.findIdx? (·.id == id)

/-- The name that a node ends up with. -/
def finalName (rows : List RenameRow) (x : NodeId × Entry μ) : Bytes :=
  match rows.find? (·.id == x.1) with
  | none => x.2.node.label.name
  | some r => r.after

/-- What has to be different for any two nodes. -/
def key (rows : List RenameRow) (x : NodeId × Entry μ) : NodeId × Bytes := (x.2.parent, finalName rows x)

def markCollision (row : Option ℕ) (rows : List RenameRow) : List RenameRow :=
  match row with
  | none => rows
  | some i => rows.modify i fun r ↦ { r with state := .collision }

structure Check where
  names : List ((NodeId × Bytes) × NodeId) := []
  ok : Bool := true
  rows : List RenameRow

def collide (rows : List RenameRow) (s : Check) (x : NodeId × Entry μ) : Check :=
  match s.names.lookup (key rows x) with
  | none => { s with names := (key rows x, x.1) :: s.names }
  | some other =>
    -- names that were the same before, and of which none is to change
    if (rowOf rows x.1).isNone && (rowOf rows other).isNone then s
    else { s with
      ok := false
      rows := markCollision (rowOf rows other) (markCollision (rowOf rows x.1) s.rows) }

def collisions (tree : Tree μ) (preview : RenamePreview) : Bool × RenamePreview :=
  let s := tree.foldl (collide preview.rows) { rows := preview.rows }
  (s.ok, { preview with rows := s.rows })

/-! ## The preview -/

/-- A name before its extension, and the extension. -/
def splitExtension (name : Bytes) : Bytes × Bytes :=
  match name.reverse.findIdx? (· == 46) with
  | none => (name, [])
  | some k =>
    let dot := name.length - 1 - k
    if dot = 0 then (name, []) else (name.take dot, name.drop dot)

def replace (substitute : Bytes → Option (ℕ × Bytes)) (preserveExtensions media : Bool)
    (row : RenameRow) : RenameRow :=
  if maxNodeNameBytes < row.before.length then { row with state := .invalid }
  else
    let (subject, extension) :=
      if media && preserveExtensions then splitExtension row.before else (row.before, [])
    match substitute subject with
    | none => { row with state := .invalid }
    | some (count, output) =>
      if maxNodeNameBytes < output.length + extension.length then { row with state := .invalid }
      else
        let after := output ++ extension
        { row with
          after
          state := if !isSafeNodeName after then .invalid
            else if count = 0 then .unmatched
            else if row.before = after then .unchanged
            else .changed }

/-- What an expression is, as far as it matters here. -/
structure RenameOptions where
  /-- Whether the expression is accepted. -/
  compiles : Bool
  substitute : NodeId → Bytes → Option (ℕ × Bytes)
  preserveExtensions : Bool := true
  recursive : Bool := false

def previewRows (o : RenameOptions) (cancelled : ℕ → Bool) :
    ℕ → Tree μ → List RenameRow → Except RenamePreview (List RenameRow)
  | _, [], rows => .ok rows
  | k, (id, e) :: tree, rows =>
    if cancelled k then .error { rows, error := ascii "Cancelled." }
    else
      let row : RenameRow := ⟨id, e.parent, e.node.label.name, e.node.label.name, .unmatched⟩
      previewRows o cancelled (k + 1) tree
        (if e.selected then
          rows ++ [replace (o.substitute id) o.preserveExtensions (!e.node.isGallery) row]
        else rows)

def previewRename (selected : List NodeId) (o : RenameOptions) (cancelled : ℕ → Bool) (v : Vault μ) :
    RenamePreview :=
  if !v.unlocked || v.legacyReadOnly then { error := ascii "Vault is not writable." }
  else if !o.compiles then { error := ascii "Invalid expression or regex compile limit exceeded." }
  else
    match scan selected o.recursive cancelled v.root with
    | none => { error := ascii "Selection is stale or cancelled." }
    | some tree =>
      match previewRows o cancelled v.root.size tree [] with
      | .error preview => preview
      | .ok rows => (collisions tree { rows }).2

/-! ## Applying it -/

/-- `tree.find`. -/
def nodeAt (tree : Tree μ) (id : NodeId) : Option (Entry μ) := (tree.find? (·.1 == id)).map (·.2)

/-- The check of every row before the first change. -/
def checkRows (tree : Tree μ) : List NodeId → List RenameRow → Bool
  | _, [] => true
  | seen, row :: rows =>
    match nodeAt tree row.id with
    | none => false
    | some e =>
      !seen.contains row.id && e.parent == row.parent && e.node.label.name == row.before &&
        isSafeNodeName row.after && checkRows tree (row.id :: seen) rows

/-- The nodes whose names change, and the new names. -/
def changesOf (tree : Tree μ) (rows : List RenameRow) : List (List ℕ × Bytes) :=
  rows.filterMap fun row ↦
    if row.before = row.after then none else (nodeAt tree row.id).map fun e ↦ (e.position, row.after)

/-- Swap the name of a node with the one that is kept beside it. -/
def swapName (root : Node μ) (c : List ℕ × Bytes) : Node μ × (List ℕ × Bytes) :=
  match root.get? c.1 with
  | none => (root, c)
  | some u =>
    (root.modifyAt (LeafTree.setLabel fun h ↦ { h with name := c.2 }) c.1, (c.1, u.label.name))

def swapNames : Node μ → List (List ℕ × Bytes) → Node μ × List (List ℕ × Bytes)
  | root, [] => (root, [])
  | root, c :: cs =>
    let (root, c) := swapName root c
    let (root, cs) := swapNames root cs
    (root, c :: cs)

/-- `commit_staged`, with what syncing the file and the commit come to. -/
def commitStaged (synced : Bool) (outcome : VaultResult) (v : Vault μ) : VaultResult × Vault μ :=
  if !v.unlocked then (.locked, v)
  else if v.v3 then v.commitIndex outcome
  else if !synced then (.ioError, v)
  else v.commitIndex outcome

def applyRename (preview : RenamePreview) (cancelled : ℕ → Bool) (synced : Bool) (outcome : VaultResult)
    (v : Vault μ) : VaultResult × Vault μ :=
  if !v.unlocked then (.locked, v)
  else if v.legacyReadOnly || !preview.valid then (.invalidArg, v)
  else
    match scan [] false cancelled v.root with
    | none => (.invalidArg, v)
    | some tree =>
      if !checkRows tree [] preview.rows then (.invalidArg, v)
      else if !(collisions tree preview).1 || cancelled v.root.size then (.invalidArg, v)
      else if cancelled (v.root.size + 1) then (.invalidArg, v)
      else if (changesOf tree preview.rows).isEmpty then (.ok, v)
      else
        let (root, changes) := swapNames v.root (changesOf tree preview.rows)
        let (result, w) := commitStaged synced outcome { v with root }
        if result = .ok then (result, w) else (result, { w with root := (swapNames w.root changes).1 })

/-! ## What is marked -/

section Collisions

variable {rows : List RenameRow} {done tree : Tree μ} {x : NodeId × Entry μ} {s : Check} {i : ℕ}

/-- Another node with the same parent ends up with the name of the node of the `i`-th row. -/
def Clashes (rows : List RenameRow) (tree : Tree μ) (i : ℕ) : Prop :=
  ∃ x ∈ tree, rowOf rows x.1 = some i ∧ ∃ y ∈ tree, y.1 ≠ x.1 ∧ key rows y = key rows x

open scoped Classical in
/-- A row is marked if something is the case. -/
noncomputable def RenameRow.markIf (p : Prop) (r : RenameRow) : RenameRow :=
  if p then { r with state := .collision } else r

theorem markIf_of {p : Prop} (hp : p) (r : RenameRow) : r.markIf p = { r with state := .collision } :=
  if_pos hp

theorem markIf_of_not {p : Prop} (hp : ¬ p) (r : RenameRow) : r.markIf p = r := if_neg hp

theorem markIf_markIf (p q : Prop) (r : RenameRow) : (r.markIf q).markIf p = r.markIf (p ∨ q) := by
  by_cases hp : p
  · rw [markIf_of hp, markIf_of (Or.inl hp)]
    by_cases hq : q
    · rw [markIf_of hq]
    · rw [markIf_of_not hq]
  · rw [markIf_of_not hp, propext (or_iff_right hp)]

/-- What was checked so far. -/
structure Checked (rows : List RenameRow) (done : Tree μ) (s : Check) : Prop where
  names : ∀ k, s.names.lookup k = (done.find? fun x ↦ key rows x == k).map (·.1)
  ok : s.ok = true ↔ ∀ i, ¬ Clashes rows done i
  rows : ∀ i, s.rows[i]? = rows[i]?.map (RenameRow.markIf (Clashes rows done i))

theorem getElem?_markCollision (row : Option ℕ) (rows : List RenameRow) (i : ℕ) :
    (markCollision row rows)[i]? = rows[i]?.map (RenameRow.markIf (row = some i)) := by
  rcases row with _ | j
  · have hid : RenameRow.markIf (none = some i) = id := funext (markIf_of_not nofun)
    rw [markCollision, hid, Option.map_id, id]
  · rw [markCollision, List.getElem?_modify]
    refine Option.map_congr fun r _ ↦ ?_
    by_cases hij : j = i
    · rw [if_pos hij, markIf_of (congrArg some hij)]
    · rw [if_neg hij, markIf_of_not fun h ↦ hij (Option.some.inj h)]

/-- One more node clashes with one that was there, or not. -/
theorem clashes_concat (hnew : ∀ y ∈ done, y.1 ≠ x.1) : Clashes rows (done ++ [x]) i ↔
    Clashes rows done i ∨ (rowOf rows x.1 = some i ∧ ∃ y ∈ done, key rows y = key rows x) ∨
      ∃ y ∈ done, rowOf rows y.1 = some i ∧ key rows y = key rows x := by
  simp only [Clashes, List.mem_append, List.mem_singleton]
  constructor
  · rintro ⟨a, ha | rfl, hrow, b, hb | rfl, hne, hkey⟩
    · exact .inl ⟨a, ha, hrow, b, hb, hne, hkey⟩
    · exact .inr (.inr ⟨a, ha, hrow, hkey.symm⟩)
    · exact .inr (.inl ⟨hrow, b, hb, hkey⟩)
    · exact absurd rfl hne
  · rintro (⟨a, ha, hrow, b, hb, hne, hkey⟩ | ⟨hrow, b, hb, hkey⟩ | ⟨a, ha, hrow, hkey⟩)
    · exact ⟨a, .inl ha, hrow, b, .inl hb, hne, hkey⟩
    · exact ⟨x, .inr rfl, hrow, b, .inl hb, hnew b hb, hkey⟩
    · exact ⟨a, .inl ha, hrow, x, .inr rfl, (hnew a ha).symm, hkey.symm⟩

theorem checked_start (rows : List RenameRow) : Checked rows ([] : Tree μ) { rows } := by
  have hnone (i : ℕ) : ¬ Clashes rows ([] : Tree μ) i := fun ⟨_, hx, _⟩ ↦ absurd hx List.not_mem_nil
  refine ⟨fun _ ↦ rfl, iff_of_true rfl hnone, fun i ↦ ?_⟩
  rcases rows[i]? with _ | r
  · rfl
  · rw [Option.map_some, markIf_of_not (hnone i)]

/-- **One node is checked.** -/
theorem checked_collide (h : Checked rows done s) (hnew : ∀ y ∈ done, y.1 ≠ x.1) :
    Checked rows (done ++ [x]) (collide rows s x) := by
  have hnames := h.names (key rows x)
  rw [collide]
  rcases hlookup : s.names.lookup (key rows x) with _ | other
  · rw [hlookup] at hnames
    have hfree : ∀ y ∈ done, key rows y ≠ key rows x := by
      intro y hy hkey
      have hfind := List.find?_eq_none.mp (Option.map_eq_none_iff.mp hnames.symm) y hy
      exact hfind (beq_iff_eq.mpr hkey)
    have hsame (i : ℕ) : Clashes rows (done ++ [x]) i ↔ Clashes rows done i := by
      rw [clashes_concat hnew]
      refine or_iff_left ?_
      rintro (⟨-, y, hy, hkey⟩ | ⟨y, hy, -, hkey⟩) <;> exact hfree y hy hkey
    refine ⟨fun k ↦ ?_, ?_, fun i ↦ ?_⟩
    · dsimp only
      rw [List.lookup_cons, List.find?_append, h.names k]
      rcases hk : k == key rows x
      · have hne : (key rows x == k) = false := by rw [beq_eq_false_iff_ne] at hk ⊢; exact hk.symm
        rw [List.find?_singleton, if_neg (by rw [hne]; exact Bool.false_ne_true), Option.or_none]
      · obtain rfl := eq_of_beq hk
        rw [List.find?_singleton, if_pos (beq_self_eq_true _), Option.map_eq_none_iff.mp hnames.symm]
        rfl
    · simp only [hsame]
      exact h.ok
    · simp only [hsame]
      exact h.rows i
  · rw [hlookup] at hnames
    obtain ⟨o, hfind, rfl⟩ := Option.map_eq_some_iff.mp hnames.symm
    have ho := List.mem_of_find?_eq_some hfind
    have hkey : key rows o = key rows x := by
      have hbeq := List.find?_some hfind
      exact eq_of_beq hbeq
    -- whatever else has this name clashes with the first that has it
    have hothers {y : NodeId × Entry μ} {i : ℕ} (hy : y ∈ done) (hrow : rowOf rows y.1 = some i)
        (hyx : key rows y = key rows x) : Clashes rows done i ∨ rowOf rows o.1 = some i := by
      by_cases hoy : o.1 = y.1
      · exact .inr (hoy ▸ hrow)
      · exact .inl ⟨y, hy, hrow, o, ho, hoy, hkey.trans hyx.symm⟩
    have hmore (i : ℕ) : Clashes rows (done ++ [x]) i ↔
        rowOf rows o.1 = some i ∨ rowOf rows x.1 = some i ∨ Clashes rows done i := by
      rw [clashes_concat hnew]
      constructor
      · rintro (h | ⟨hrow, -⟩ | ⟨y, hy, hrow, hyx⟩)
        · exact .inr (.inr h)
        · exact .inr (.inl hrow)
        · rcases hothers hy hrow hyx with h | h
          · exact .inr (.inr h)
          · exact .inl h
      · rintro (hrow | hrow | h)
        · exact .inr (.inr ⟨o, ho, hrow, hkey⟩)
        · exact .inr (.inl ⟨hrow, o, ho, hkey⟩)
        · exact .inl h
    have hfirst (k : NodeId × Bytes) : (done ++ [x]).find? (fun y ↦ key rows y == k) =
        done.find? fun y ↦ key rows y == k := by
      rw [List.find?_append]
      by_cases hk : key rows x = k
      · subst hk
        rw [hfind]
        rfl
      · rw [List.find?_singleton, if_neg (by rwa [beq_iff_eq]), Option.or_none]
    dsimp only
    by_cases hneither : (rowOf rows x.1).isNone && (rowOf rows o.1).isNone
    · rw [if_pos hneither]
      rw [Bool.and_eq_true, Option.isNone_iff_eq_none, Option.isNone_iff_eq_none] at hneither
      have hsame (i : ℕ) : Clashes rows (done ++ [x]) i ↔ Clashes rows done i := by
        rw [hmore, hneither.1, hneither.2]
        simp
      refine ⟨fun k ↦ ?_, ?_, fun i ↦ ?_⟩
      · rw [hfirst]
        exact h.names k
      · simp only [hsame]
        exact h.ok
      · simp only [hsame]
        exact h.rows i
    · rw [if_neg hneither]
      refine ⟨fun k ↦ ?_, ?_, fun i ↦ ?_⟩
      · rw [hfirst]
        exact h.names k
      · refine iff_of_false Bool.false_ne_true fun hnot ↦ hneither ?_
        have hx : rowOf rows x.1 = none :=
          Option.eq_none_iff_forall_ne_some.mpr fun i hi ↦ hnot i ((hmore i).mpr (.inr (.inl hi)))
        have ho : rowOf rows o.1 = none :=
          Option.eq_none_iff_forall_ne_some.mpr fun i hi ↦ hnot i ((hmore i).mpr (.inl hi))
        rw [hx, ho]
        rfl
      · dsimp only
        rw [getElem?_markCollision, getElem?_markCollision, h.rows i, Option.map_map, Option.map_map, hmore]
        refine Option.map_congr fun r _ ↦ ?_
        rw [Function.comp_apply, Function.comp_apply, markIf_markIf, markIf_markIf, or_assoc]

theorem checked_foldl (h : Checked rows done s) (hdistinct : ((done ++ tree).map (·.1)).Nodup) :
    Checked rows (done ++ tree) (tree.foldl (collide rows) s) := by
  induction tree generalizing done s with
  | nil =>
    rw [List.append_nil]
    exact h
  | cons x tree ih =>
    have hsplit : done ++ x :: tree = done ++ [x] ++ tree := by rw [List.append_assoc, List.singleton_append]
    have hnew : ∀ y ∈ done, y.1 ≠ x.1 := by
      intro y hy heq
      rw [List.map_append, List.map_cons] at hdistinct
      exact List.disjoint_of_nodup_append hdistinct (List.mem_map_of_mem hy)
        (heq ▸ List.mem_cons_self)
    rw [hsplit] at hdistinct ⊢
    exact ih (checked_collide h hnew) hdistinct

/-- **The check marks exactly the rows that clash**, and fails if there is one. -/
theorem collisions_exact (hdistinct : (tree.map (·.1)).Nodup) (preview : RenamePreview) :
    ((collisions tree preview).1 = true ↔ ∀ i, ¬ Clashes preview.rows tree i) ∧
      ∀ i, (collisions tree preview).2.rows[i]? =
        preview.rows[i]?.map (RenameRow.markIf (Clashes preview.rows tree i)) := by
  have h := @checked_foldl _ _ _ tree _ (checked_start preview.rows) hdistinct
  exact ⟨h.ok, h.rows⟩

end Collisions

end RenameBatch

end SafeVault
