import SafeVault.Ui.ExportPlan
import SafeVault.Vault.SafeName

/-!
# Writing an export

The plan is gone through once, with a stack of the directories that are open: the root and one for each
gallery above the entry that is next. When a directory cannot be created, everything below it has failed
as well and is passed over.

The system creates a directory or a file under a name that is free, in a directory that is open; what a
handle refers to is not modelled further. For each entry that is tried it is noted in which directory, under
which name, and how it ended.
-/

namespace SafeVault

namespace Export

variable {root : IndexNode} {δ φ : Type}

/-- What the vault and the system do at each entry of the plan. A directory that is open is a `δ`, and a
file a `φ`. -/
structure ExportEnv (root : IndexNode) (δ φ : Type) where
  /-- The directory that the user has picked. -/
  openRoot : Option δ
  createDirectory : ℕ → δ → Bytes → Option δ
  createFile : ℕ → δ → Bytes → Option φ
  /-- `read_image` or `read_video`. -/
  read : ℕ → NodePtr root → Option Bytes
  /-- How many bytes are written. -/
  fwrite : ℕ → φ → Bytes → ℕ
  fflush : ℕ → φ → Bool
  fclose : ℕ → φ → Bool

/-- How it ended with an entry. -/
inductive Outcome (δ φ : Type) where
  | failed | written (file : φ) (bytes : Bytes) | opened (directory : δ)

/-- An entry that was tried, with its place in the plan, in which directory, and under which name. -/
structure Attempt (root : IndexNode) (δ φ : Type) where
  index : ℕ
  node : NodePtr root
  directory : δ
  name : Bytes
  outcome : Outcome δ φ

structure ExportSummary (root : IndexNode) (δ φ : Type) where
  written : ℕ := 0
  failed : ℕ := 0
  trace : List (Attempt root δ φ) := []

/-! ## The run -/

/-- `export_one_media`: the bytes are read, and all of them are written. -/
def exportOneMedia (E : ExportEnv root δ φ) (i : ℕ) (a : NodePtr root) (file : φ) : Option Bytes :=
  match E.read i a with
  | none => none
  | some scratch =>
    if (scratch.isEmpty || E.fwrite i file scratch = scratch.length) && E.fflush i file && E.fclose i file then
      some scratch
    else none

/-- `export_entry`, for a node that is not null; `back` is the innermost directory. -/
def exportEntry (E : ExportEnv root δ φ) (i : ℕ) (a : NodePtr root) (back : δ) (name : Bytes) : Outcome δ φ :=
  if a.node.isGallery then
    match E.createDirectory i back name with
    | none => .failed
    | some child => .opened child
  else
    match E.createFile i back name with
    | none => .failed
    | some file =>
      match exportOneMedia E i a file with
      | none => .failed
      | some bytes => .written file bytes

/-- `export_entry` with its name, as it is noted. -/
def attempt (E : ExportEnv root δ φ) (i : ℕ) (a : NodePtr root) (back : δ) : Attempt root δ φ :=
  let name := sanitizeNodeName a.node.label.name
  ⟨i, a, back, name, exportEntry E i a back name⟩

def Outcome.directories : Outcome δ φ → List δ
  | .opened child => [child]
  | _ => []

/-- What is left of the plan when the subtree of the last entry is passed over; `subtree_end`. -/
def passSubtree (depth : ℕ) (rest : List (ExportEntry root)) : List (ExportEntry root) :=
  rest.dropWhile fun x ↦ depth < x.2

/-- The loop of `run_export_plan`, from entry `i` on. It is undefined to cut the stack of directories
behind its end. -/
def runFrom (E : ExportEnv root δ φ) (after : Option ℕ) (tick i : ℕ) (directories : List δ)
    (sum : ExportSummary root δ φ) : List (ExportEntry root) → Option (ExportSummary root δ φ)
  | [] => some sum
  | (node, depth) :: rest =>
    if cancelled after tick then some sum
    else if directories.length < depth + 1 then none
    else
      let failed := 1 + (rest.length - (passSubtree depth rest).length)
      match node, (directories.take (depth + 1)).getLast? with
      | _, none => none
      | none, some _ =>
        runFrom E after (tick + 1) (i + failed) (directories.take (depth + 1))
          { sum with failed := sum.failed + failed } (passSubtree depth rest)
      | some a, some back =>
        let tried := attempt E i a back
        match tried.outcome with
        | .failed =>
          runFrom E after (tick + 1) (i + failed) (directories.take (depth + 1))
            { sum with failed := sum.failed + failed, trace := sum.trace ++ [tried] } (passSubtree depth rest)
        | outcome =>
          runFrom E after (tick + 1) (i + 1) (directories.take (depth + 1) ++ outcome.directories)
            { sum with written := sum.written + 1, trace := sum.trace ++ [tried] } rest
termination_by entries => entries.length
decreasing_by
  · exact Nat.lt_succ_of_le (List.dropWhile_sublist _).length_le
  · exact Nat.lt_succ_of_le (List.dropWhile_sublist _).length_le
  · exact Nat.lt_succ_self _

def runExportPlan (E : ExportEnv root δ φ) (after : Option ℕ) (tick : ℕ) (plan : List (ExportEntry root))
    (top : δ) : Option (ExportSummary root δ φ) := runFrom E after tick 0 [top] {} plan

/-- `export_images`, when the user has or has not confirmed. -/
def exportImages (E : ExportEnv root δ φ) (after : Option ℕ) (confirmed : Bool)
    (selected : List (NodeRef root)) : Option (ExportSummary root δ φ) :=
  if !confirmed then some {}
  else
    let (plan, tick) := exportPlan after selected
    if plan.isEmpty || cancelled after tick then some {}
    else
      match E.openRoot with
      | none => some { failed := plan.length }
      | some top => runExportPlan E after (tick + 1) plan top

/-! ## What an attempt is -/

/-- Something was written: a file, or a directory. -/
def Attempt.ok (t : Attempt root δ φ) : Bool :=
  match t.outcome with
  | .failed => false
  | _ => true

/-- The outcome is what the vault and the system answered for the node, in the directory and under the name
of the attempt: a directory that was created for a gallery, or a file that was created, written whole with
what was read, and closed. -/
structure Attempt.Answered (E : ExportEnv root δ φ) (t : Attempt root δ φ) : Prop where
  name : t.name = sanitizeNodeName t.node.node.label.name
  opened : ∀ child, t.outcome = .opened child ↔
    t.node.node.isGallery = true ∧ E.createDirectory t.index t.directory t.name = some child
  written : ∀ file bytes, t.outcome = .written file bytes ↔
    t.node.node.isGallery = false ∧ E.createFile t.index t.directory t.name = some file ∧
      E.read t.index t.node = some bytes ∧ (bytes = [] ∨ E.fwrite t.index file bytes = bytes.length) ∧
      E.fflush t.index file = true ∧ E.fclose t.index file = true

theorem exportOneMedia_eq_some_iff {E : ExportEnv root δ φ} {i : ℕ} {a : NodePtr root} {file : φ} {bytes : Bytes} :
    exportOneMedia E i a file = some bytes ↔ E.read i a = some bytes ∧
      (bytes = [] ∨ E.fwrite i file bytes = bytes.length) ∧ E.fflush i file = true ∧ E.fclose i file = true := by
  rw [exportOneMedia]
  cases E.read i a with
  | none => simp
  | some scratch =>
    simp only [Option.ite_none_right_eq_some, Bool.and_eq_true, Bool.or_eq_true, List.isEmpty_iff,
      decide_eq_true_eq, Option.some_inj]
    constructor
    · rintro ⟨⟨⟨hwrite, hflush⟩, hclose⟩, rfl⟩
      exact ⟨rfl, hwrite, hflush, hclose⟩
    · rintro ⟨rfl, hwrite, hflush, hclose⟩
      exact ⟨⟨⟨hwrite, hflush⟩, hclose⟩, rfl⟩

theorem exportEntry_eq_opened_iff {E : ExportEnv root δ φ} {i : ℕ} {a : NodePtr root} {back child : δ}
    {name : Bytes} : exportEntry E i a back name = .opened child ↔
      a.node.isGallery = true ∧ E.createDirectory i back name = some child := by
  rw [exportEntry]
  cases a.node.isGallery with
  | true => cases E.createDirectory i back name <;> simp
  | false =>
    rw [if_neg Bool.false_ne_true]
    refine iff_of_false (fun h ↦ ?_) fun h ↦ nomatch h.1
    split at h
    · cases h
    · split at h <;> cases h

theorem exportEntry_eq_written_iff {E : ExportEnv root δ φ} {i : ℕ} {a : NodePtr root} {back : δ} {name : Bytes}
    {file : φ} {bytes : Bytes} : exportEntry E i a back name = .written file bytes ↔
      a.node.isGallery = false ∧ E.createFile i back name = some file ∧ exportOneMedia E i a file = some bytes := by
  rw [exportEntry]
  cases a.node.isGallery with
  | true => cases E.createDirectory i back name <;> simp
  | false =>
    rcases E.createFile i back name with _ | file'
    · simp
    · rcases hmedia : exportOneMedia E i a file' with _ | bytes'
      · simp only [Bool.false_eq_true, if_false, reduceCtorEq, Option.some_inj, true_and, false_iff, hmedia]
        rintro ⟨rfl, h⟩
        cases hmedia.symm.trans h
      · simp only [Bool.false_eq_true, if_false, Outcome.written.injEq, Option.some_inj, true_and, hmedia]
        refine and_congr_right fun h ↦ ?_
        rw [← h, hmedia, Option.some_inj]

theorem answered_attempt (E : ExportEnv root δ φ) (i : ℕ) (a : NodePtr root) (back : δ) :
    (attempt E i a back).Answered E where
  name := rfl
  opened _ := exportEntry_eq_opened_iff
  written _ _ := by
    rw [← exportOneMedia_eq_some_iff]
    exact exportEntry_eq_written_iff

/-! ## Where things are written -/

/-- The directory that stands for the place of a node: the picked one for a node that the export begins
at, and else the one that was created for its parent. -/
inductive Mirrors (selected : List (NodeRef root)) (top : δ) (trace : List (Attempt root δ φ)) :
    NodePtr root → δ → Prop
  | here {n : NodePtr root} (h : Top selected n) : Mirrors selected top trace n top
  | inside {t : Attempt root δ φ} {n : NodePtr root} {inner : δ}
      (h : Mirrors selected top trace t.node t.directory) (ht : t ∈ trace) (hopened : t.outcome = .opened inner)
      (hn : n ∈ t.node.children) : Mirrors selected top trace n inner

variable {selected above : List (NodeRef root)} {top back : δ} {trace : List (Attempt root δ φ)} {a : NodePtr root}
  {directories : List δ} {depth : ℕ} {E : ExportEnv root δ φ}

theorem Mirrors.append {n : NodePtr root} {d : δ} (h : Mirrors selected top trace n d)
    (later : List (Attempt root δ φ)) : Mirrors selected top (trace ++ later) n d := by
  induction h with
  | here htop => exact .here htop
  | inside _ ht hopened hn ih => exact .inside ih (List.mem_append_left _ ht) hopened hn

/-- The stack of directories belongs to the nodes above what comes next. -/
structure Open (selected : List (NodeRef root)) (top : δ) (trace : List (Attempt root δ φ))
    (above : List (NodeRef root)) (directories : List δ) : Prop where
  first : directories[0]? = some top
  opened : ∀ (j : ℕ) (a : NodePtr root), above[j]? = some (some a) → a.node.isGallery = true →
    ∃ t ∈ trace, ∃ inner, directories[j + 1]? = some inner ∧ t.node = a ∧ t.outcome = .opened inner
  mirrors : ∀ t ∈ trace, Mirrors selected top trace t.node t.directory

/-- The directory at the depth of a node stands for its place. -/
theorem Open.place (h : Open selected top trace above directories) (hfits : ComesBelow IsBelow above (some a, depth))
    (htop : depth = 0 → Top selected a) : ∃ back, directories[depth]? = some back ∧ Mirrors selected top trace a back := by
  rcases hfits with hroot | ⟨p, hp, b, c, rfl, hc, hbelow⟩
  · obtain rfl : depth = 0 := hroot
    exact ⟨top, h.first, .here (htop rfl)⟩
  · obtain rfl := Option.some.inj hc
    by_cases hroot : depth = 0
    · subst hroot
      exact ⟨top, h.first, .here (htop rfl)⟩
    · obtain ⟨t, ht, inner, hinner, rfl, hopened⟩ := h.opened _ b hp (NodePtr.isGallery_of_mem_children hbelow)
      refine ⟨inner, ?_, .inside (h.mirrors t ht) ht hopened hbelow⟩
      rw [← hinner]
      congr 1
      dsimp only
      omega

/-- There is a directory at the depth of whatever comes next; a null pointer is at depth zero. -/
theorem Open.exists_directory (h : Open selected top trace above directories) {node : NodeRef root}
    (hfits : ComesBelow IsBelow above (node, depth)) (htop : ∀ a, node = some a → depth = 0 → Top selected a) :
    ∃ back, directories[depth]? = some back ∧ ∀ a, node = some a → Mirrors selected top trace a back := by
  cases node with
  | none =>
    rcases hfits with hroot | ⟨p, -, b, c, -, hc, -⟩
    · obtain rfl : depth = 0 := hroot
      exact ⟨top, h.first, nofun⟩
    · cases hc
  | some a =>
    obtain ⟨back, hback, hplace⟩ := h.place hfits (htop a rfl)
    refine ⟨back, hback, fun b hb ↦ ?_⟩
    obtain rfl := Option.some.inj hb
    exact hplace

/-- The walk goes on behind the subtree of an entry. -/
theorem walk_passSubtree {node : NodeRef root} {rest : List (ExportEntry root)}
    (hfits : ComesBelow IsBelow above (node, depth))
    (hrest : DepthWalk IsBelow (above.take depth ++ [node]) rest) :
    DepthWalk IsBelow (above.take depth) (passSubtree depth rest) := by
  have hpassed := hrest.dropWhile depth
  rwa [take_step hfits.depth_le] at hpassed

theorem getLast?_take_succ {l : List δ} {x : δ} (h : l[depth]? = some x) :
    (l.take (depth + 1)).getLast? = some x := by
  rw [List.getLast?_take, if_neg (Nat.succ_ne_zero _), Nat.add_sub_cancel, h]
  rfl

/-- The stack is cut to the depth of an entry. -/
theorem Open.cut (h : Open selected top trace above directories) (depth : ℕ) :
    Open selected top trace (above.take depth) (directories.take (depth + 1)) := by
  refine ⟨?_, fun j a ha hgallery ↦ ?_, h.mirrors⟩
  · rw [List.getElem?_take_of_lt (Nat.succ_pos depth)]
    exact h.first
  · have hj : j < depth := by
      have hlt := (List.getElem?_eq_some_iff.mp ha).1
      rw [List.length_take] at hlt
      omega
    rw [List.getElem?_take_of_lt hj] at ha
    obtain ⟨t, ht, inner, hinner, hopened⟩ := h.opened j a ha hgallery
    exact ⟨t, ht, inner, by rwa [List.getElem?_take_of_lt (by omega)], hopened⟩

/-- An entry is tried where its place is. -/
theorem Open.attempt {t : Attempt root δ φ} (h : Open selected top trace above directories)
    (ht : Mirrors selected top trace t.node t.directory) :
    Open selected top (trace ++ [t]) above directories := by
  refine ⟨h.first, fun j b hb hgallery ↦ ?_, fun u hu ↦ ?_⟩
  · obtain ⟨u, hu, inner, hinner, hopened⟩ := h.opened j b hb hgallery
    exact ⟨u, List.mem_append_left _ hu, inner, hinner, hopened⟩
  · rcases List.mem_append.mp hu with hold | hnew
    · exact (h.mirrors u hold).append _
    · obtain rfl := List.mem_singleton.mp hnew
      exact ht.append _

/-- A directory is pushed for a gallery, and nothing for a file. -/
theorem Open.push {t : Attempt root δ φ} (h : Open selected top trace above directories)
    (hlength : directories.length = above.length + 1) (ht : t ∈ trace)
    (hopened : t.node.node.isGallery = true → ∃ child, t.outcome = .opened child) :
    Open selected top trace (above ++ [some t.node]) (directories ++ t.outcome.directories) := by
  refine ⟨?_, fun j b hb hgallery ↦ ?_, h.mirrors⟩
  · rw [List.getElem?_append_left (by omega)]
    exact h.first
  · by_cases hj : j < above.length
    · rw [List.getElem?_append_left hj] at hb
      obtain ⟨u, hu, inner, hinner, hevent⟩ := h.opened j b hb hgallery
      exact ⟨u, hu, inner, by rwa [List.getElem?_append_left (by omega)], hevent⟩
    · -- The node itself is the innermost one.
      obtain ⟨hlt, heq⟩ := List.getElem?_eq_some_iff.mp hb
      rw [List.length_append, List.length_singleton] at hlt
      obtain rfl : j = above.length := by omega
      rw [List.getElem_concat_length rfl] at heq
      obtain rfl := Option.some.inj heq
      obtain ⟨child, hchild⟩ := hopened hgallery
      refine ⟨t, ht, child, ?_, rfl, hchild⟩
      rw [List.getElem?_append_right (by omega), hlength, Nat.sub_self, hchild]
      rfl

theorem exportEntry_gallery {i : ℕ} {name : Bytes} (hgallery : a.node.isGallery = true)
    (hok : exportEntry E i a back name ≠ .failed) : ∃ child, exportEntry E i a back name = .opened child := by
  rw [exportEntry, if_pos hgallery] at hok ⊢
  split
  · rename_i hfailed
    rw [hfailed] at hok
    exact absurd rfl hok
  · exact ⟨_, rfl⟩

/-- What a run from entry `i` on has got when it comes to an end. -/
structure Ran (E : ExportEnv root δ φ) (selected : List (NodeRef root)) (top : δ) (after : Option ℕ) (i : ℕ)
    (sum : ExportSummary root δ φ) (entries : List (ExportEntry root)) (out : ExportSummary root δ φ) : Prop where
  begun : sum.trace <+: out.trace
  mirrors : ∀ t ∈ out.trace, Mirrors selected top out.trace t.node t.directory
  nodes : ((out.trace.map Attempt.node).map some).Sublist
    ((sum.trace.map Attempt.node).map some ++ entries.map Prod.fst)
  answered : ∀ t ∈ out.trace, t ∈ sum.trace ∨ t.Answered E ∧
    ∃ j depth, t.index = i + j ∧ entries[j]? = some (some t.node, depth)
  tried : after = none → ∀ n, some n ∈ entries.map Prod.fst →
    ∃ t ∈ out.trace, t.node = n ∨ t.outcome = .failed ∧ t.node.Above n
  count : after = none → out.written + out.failed = sum.written + sum.failed + entries.length
  written : sum.written = sum.trace.countP Attempt.ok → out.written = out.trace.countP Attempt.ok

/-- After an entry, with what was noted of it and with how many entries were passed over. -/
theorem Ran.cons {after : Option ℕ} {i k : ℕ} {sum sum' out : ExportSummary root δ φ} {node : NodeRef root}
    {rest : List (ExportEntry root)} {noted : List (Attempt root δ φ)}
    (h : Ran E selected top after (i + (1 + k)) sum' (rest.drop k) out) (htrace : sum'.trace = sum.trace ++ noted)
    (hnoted : noted.map (fun t ↦ some t.node) = node.toList.map some)
    (hanswered : ∀ t ∈ noted, t.Answered E ∧ t.index = i)
    (hpassed : ∀ n, some n ∈ (rest.take k).map Prod.fst → ∃ t ∈ noted, t.outcome = .failed ∧ t.node.Above n)
    (hcount : sum'.written + sum'.failed + (rest.drop k).length = sum.written + sum.failed + (rest.length + 1))
    (hwritten : sum'.written = sum.written + noted.countP Attempt.ok) :
    Ran E selected top after i sum ((node, depth) :: rest) out := by
  have hbegun : sum.trace ++ noted <+: out.trace := htrace ▸ h.begun
  have hmem : ∀ t ∈ noted, t ∈ out.trace := fun t ht ↦ hbegun.subset (List.mem_append_right _ ht)
  refine ⟨(List.prefix_append _ _).trans hbegun, h.mirrors, ?_, fun t ht ↦ ?_, fun hafter n hn ↦ ?_,
    fun hafter ↦ (h.count hafter).trans hcount, fun hsum ↦ h.written ?_⟩
  · have hnodes := h.nodes
    rw [htrace, List.map_append, List.map_append, List.append_assoc] at hnodes
    refine hnodes.trans ((List.Sublist.refl _).append ?_)
    rw [List.map_cons, ← List.singleton_append, List.map_map]
    refine List.Sublist.append ?_ ((List.drop_sublist _ _).map _)
    rw [show noted.map (some ∘ Attempt.node) = node.toList.map some from hnoted]
    cases node with
    | none => exact List.nil_sublist _
    | some a => exact List.Sublist.refl _
  · rcases h.answered t ht with hold | ⟨hanswer, j, d, hindex, hentry⟩
    · rw [htrace] at hold
      refine (List.mem_append.mp hold).imp_right fun hnew ↦ ?_
      obtain ⟨hanswer, hindex⟩ := hanswered t hnew
      have hnode : some t.node ∈ node.toList.map some := hnoted ▸ List.mem_map_of_mem hnew
      refine ⟨hanswer, 0, depth, hindex, ?_⟩
      cases node with
      | none => cases hnode
      | some a => rw [List.mem_singleton.mp hnode, List.getElem?_cons_zero]
    · refine .inr ⟨hanswer, k + j + 1, d, by omega, ?_⟩
      rw [List.getElem?_cons_succ, ← hentry, List.getElem?_drop]
  · rw [List.map_cons, List.mem_cons] at hn
    rcases hn with rfl | hn
    · have hnew : some n ∈ noted.map fun t ↦ some t.node := hnoted ▸ List.mem_singleton_self _
      obtain ⟨t, ht, heq⟩ := List.mem_map.mp hnew
      exact ⟨t, hmem t ht, .inl (Option.some.inj heq)⟩
    · rw [← List.take_append_drop k rest, List.map_append, List.mem_append] at hn
      rcases hn with hpass | hleft
      · obtain ⟨t, ht, hfailed⟩ := hpassed n hpass
        exact ⟨t, hmem t ht, .inr hfailed⟩
      · exact h.tried hafter n hleft
  · rw [hwritten, hsum, htrace, List.countP_append]

theorem passSubtree_sublist (depth : ℕ) (rest : List (ExportEntry root)) :
    (passSubtree depth rest).Sublist rest := List.dropWhile_sublist _

/-- How many entries are passed over. -/
theorem drop_eq_passSubtree (depth : ℕ) (rest : List (ExportEntry root)) :
    rest.drop (rest.length - (passSubtree depth rest).length) = passSubtree depth rest :=
  (List.suffix_iff_eq_drop.mp (List.dropWhile_suffix _)).symm

theorem take_eq_takeWhile (depth : ℕ) (rest : List (ExportEntry root)) :
    rest.take (rest.length - (passSubtree depth rest).length) = rest.takeWhile fun x ↦ depth < x.2 := by
  have hlength := congrArg List.length
    (List.takeWhile_append_dropWhile (p := fun x : ExportEntry root ↦ decide (depth < x.2)) (l := rest))
  rw [List.length_append] at hlength
  have hpassed : rest.length - (passSubtree depth rest).length =
      (rest.takeWhile fun x ↦ depth < x.2).length := by
    rw [passSubtree]
    omega
  rw [hpassed]
  exact (List.prefix_iff_eq_take.mp (List.takeWhile_prefix _)).symm

theorem above_of_reflTransGen {x y : NodeRef root} (h : Relation.ReflTransGen IsBelow x y) {n : NodePtr root}
    (hn : y = some n) : ∃ a, x = some a ∧ a.Above n := by
  induction h generalizing n with
  | refl => exact ⟨n, hn, List.prefix_rfl⟩
  | tail _ hbelow ih =>
    obtain ⟨b, c, rfl, rfl, hc⟩ := hbelow
    obtain rfl := Option.some.inj hn
    obtain ⟨a, ha, habove⟩ := ih rfl
    exact ⟨a, ha, habove.trans (NodePtr.above_of_mem_children hc)⟩

/-- What is passed over is below the entry. -/
theorem above_of_mem_passed {node : NodeRef root} {rest : List (ExportEntry root)}
    (hfits : ComesBelow IsBelow above (node, depth))
    (hrest : DepthWalk IsBelow (above.take depth ++ [node]) rest) {n : NodePtr root}
    (hn : some n ∈ (rest.take (rest.length - (passSubtree depth rest).length)).map Prod.fst) :
    ∃ a, node = some a ∧ a.Above n := by
  rw [take_eq_takeWhile] at hn
  obtain ⟨x, hx, hnode⟩ := List.mem_map.mp hn
  refine above_of_reflTransGen (hrest.below_of_mem_takeWhile depth (fun p hp ↦ ?_) x hx) hnode
  have hlength : (above.take depth).length = depth := by
    rw [List.length_take]
    exact Nat.min_eq_left hfits.depth_le
  rw [List.drop_append_of_le_length hlength.ge, List.drop_of_length_le hlength.le, List.nil_append,
    List.mem_singleton] at hp
  exact hp ▸ .refl

/-- From an entry on, a run keeps to its places. -/
theorem exists_ran (after : Option ℕ) (tick i : ℕ) (sum : ExportSummary root δ φ)
    {entries : List (ExportEntry root)} (hwalk : DepthWalk IsBelow above entries)
    (htop : ∀ a : NodePtr root, (some a, 0) ∈ entries → Top selected a)
    (hopen : Open selected top sum.trace above directories) :
    ∃ out, runFrom E after tick i directories sum entries = some out ∧
      Ran E selected top after i sum entries out := by
  fun_induction runFrom E after tick i directories sum entries generalizing above with
  | case1 tick i directories sum =>
    exact ⟨sum, rfl, List.prefix_rfl, hopen.mirrors, by rw [List.map_nil, List.append_nil], fun t ↦ .inl,
      fun _ n hn ↦ absurd hn List.not_mem_nil, fun _ ↦ rfl, id⟩
  | case2 tick i directories sum node depth rest hcancelled =>
    have hset : after ≠ none := by
      rintro rfl
      cases hcancelled
    exact ⟨sum, rfl, List.prefix_rfl, hopen.mirrors, List.sublist_append_left _ _, fun t ↦ .inl,
      fun hafter ↦ absurd hafter hset, fun hafter ↦ absurd hafter hset, id⟩
  | case3 tick i directories sum node depth rest _ hshort =>
    cases hwalk with
    | cons hfits _ =>
      obtain ⟨back, hback, -⟩ := hopen.exists_directory hfits fun a ha hd ↦ htop a (ha ▸ hd ▸ List.mem_cons_self)
      exact absurd (List.getElem?_eq_some_iff.mp hback).1 (by omega)
  | case4 tick i directories sum node depth rest _ _ hnone =>
    cases hwalk with
    | cons hfits _ =>
      obtain ⟨back, hback, -⟩ := hopen.exists_directory hfits fun a ha hd ↦ htop a (ha ▸ hd ▸ List.mem_cons_self)
      cases hnone.symm.trans (getLast?_take_succ hback)
  | case5 tick i directories sum depth rest _ _ failed back hback =>
    rename_i ih
    cases hwalk with
    | cons hfits hrest =>
      have hle := (passSubtree_sublist depth rest).length_le
      obtain ⟨out, hout, hran⟩ := ih (walk_passSubtree hfits hrest)
        (fun b hb ↦ htop b (List.mem_cons_of_mem _ ((passSubtree_sublist depth rest).subset hb)))
        (hopen.cut depth)
      rw [← drop_eq_passSubtree depth rest] at hran
      refine ⟨out, hout, @Ran.cons _ _ _ _ _ _ _ _ _ _ _ _ _ _ _ [] hran (List.append_nil _).symm rfl nofun
        (fun n hn ↦ ?_) ?_ rfl⟩
      · obtain ⟨a, ha, -⟩ := above_of_mem_passed hfits hrest hn
        cases ha
      · rw [drop_eq_passSubtree]
        dsimp only
        omega
  | case6 tick i directories sum depth rest _ _ failed a back hback tried houtcome =>
    rename_i ih
    cases hwalk with
    | cons hfits hrest =>
      have hle := (passSubtree_sublist depth rest).length_le
      obtain ⟨back', hback', hplace⟩ :=
        hopen.exists_directory hfits fun b hb hd ↦ htop b (hb ▸ hd ▸ List.mem_cons_self)
      obtain rfl : back = back' := Option.some.inj (hback.symm.trans (getLast?_take_succ hback'))
      obtain ⟨out, hout, hran⟩ := ih (walk_passSubtree hfits hrest)
        (fun b hb ↦ htop b (List.mem_cons_of_mem _ ((passSubtree_sublist depth rest).subset hb)))
        ((Open.attempt hopen (t := tried) (hplace a rfl)).cut depth)
      rw [← drop_eq_passSubtree depth rest] at hran
      refine ⟨out, hout, hran.cons rfl rfl (List.forall_mem_singleton.mpr ⟨answered_attempt E i a back, rfl⟩)
        (fun n hn ↦ ?_) ?_ ?_⟩
      · obtain ⟨b, hb, habove⟩ := above_of_mem_passed hfits hrest hn
        obtain rfl := Option.some.inj hb
        exact ⟨tried, List.mem_singleton_self _, houtcome, habove⟩
      · rw [drop_eq_passSubtree]
        dsimp only
        omega
      · have hbad : tried.ok = false := by rw [Attempt.ok, houtcome]
        rw [List.countP_singleton, hbad]
        rfl
  | case7 tick i directories sum depth rest _ _ a back hback =>
    rename_i tried houtcome ih
    cases hwalk with
    | cons hfits hrest =>
      obtain ⟨back', hback', hplace⟩ :=
        hopen.exists_directory hfits fun b hb hd ↦ htop b (hb ▸ hd ▸ List.mem_cons_self)
      obtain rfl : back = back' := Option.some.inj (hback.symm.trans (getLast?_take_succ hback'))
      have habove : (above.take depth).length = depth := by
        rw [List.length_take]
        exact Nat.min_eq_left hfits.depth_le
      have hopen' := ((Open.attempt hopen (t := tried) (hplace a rfl)).cut depth).push (t := tried) (by
          rw [habove, List.length_take]
          exact Nat.min_eq_left (List.getElem?_eq_some_iff.mp hback').1)
        (List.mem_append_right _ (List.mem_singleton_self _))
        (fun hgallery ↦ exportEntry_gallery hgallery houtcome)
      obtain ⟨out, hout, hran⟩ := ih hrest (fun b hb ↦ htop b (List.mem_cons_of_mem _ hb)) hopen'
      have hok : tried.ok = true := by
        rw [Attempt.ok]
        split
        · rename_i hfailed
          exact (houtcome hfailed).elim
        · rfl
      refine ⟨out, hout, @Ran.cons _ _ _ _ _ _ _ _ _ 0 _ _ _ _ _ [tried] hran rfl rfl
        (List.forall_mem_singleton.mpr ⟨answered_attempt E i a back, rfl⟩) nofun ?_ ?_⟩
      · rw [List.drop_zero]
        dsimp only
        omega
      · rw [List.countP_singleton, if_pos hok]

/-- Nothing is tried below a node for which no directory was created. -/
theorem not_below_failed {trace : List (Attempt root δ φ)}
    (hmirrors : ∀ t ∈ trace, Mirrors selected top trace t.node t.directory)
    (hnodup : (trace.map Attempt.node).Nodup)
    (hselected : ∀ t ∈ trace, ∃ s, some s ∈ selected ∧ s.Above t.node) {t u : Attempt root δ φ} (ht : t ∈ trace)
    (hfailed : ∀ child, t.outcome ≠ .opened child) (hu : u ∈ trace) (habove : t.node.Above u.node) :
    u.node = t.node := by
  by_contra hne
  have hnowhere : ∀ n d, Mirrors selected top trace n d → t.node.Above n → n ≠ t.node → False := by
    intro n d h habove hne
    induction h with
    | here htop =>
      obtain ⟨s, hs, hst⟩ := hselected t ht
      obtain rfl := htop.2 s hs (hst.trans habove)
      exact hne (hst.antisymm habove)
    | @inside v n inner _ hv hopened hn ih =>
      rcases NodePtr.above_child hn habove with heq | habove'
      · exact hne heq.symm
      · by_cases hp : v.node = t.node
        · -- Then this is the attempt at the node itself.
          obtain rfl := List.inj_on_of_nodup_map hnodup hv ht hp
          exact hfailed inner hopened
        · exact ih habove' hp
  exact hnowhere u.node u.directory (hmirrors u hu) habove hne

/-- What an export has done: the entries that were tried are entries of the plan, in its order; each was
tried in the directory of its place, under the name of its node, with the outcome that the vault and the
system answered; and below a node for which no directory was created nothing was tried. -/
structure InPlace (E : ExportEnv root δ φ) (selected : List (NodeRef root)) (plan : List (ExportEntry root))
    (out : ExportSummary root δ φ) : Prop where
  nodes : ((out.trace.map Attempt.node).map some).Sublist (plan.map Prod.fst)
  planned : ∀ t ∈ out.trace, ∃ depth, plan[t.index]? = some (some t.node, depth)
  answered : ∀ t ∈ out.trace, t.Answered E
  mirrors : ∀ t ∈ out.trace, ∃ top, E.openRoot = some top ∧ Mirrors selected top out.trace t.node t.directory
  notBelow : ∀ t ∈ out.trace, (∀ child, t.outcome ≠ .opened child) →
    ∀ u ∈ out.trace, t.node.Above u.node → u.node = t.node
  written : out.written = out.trace.countP Attempt.ok

/-- An export that was not cancelled: everything planned was written or has failed, and what was not tried is
below a node that failed. -/
structure Complete (E : ExportEnv root δ φ) (plan : List (ExportEntry root)) (out : ExportSummary root δ φ) :
    Prop where
  count : out.written + out.failed = plan.length
  tried : E.openRoot ≠ none → ∀ n, some n ∈ plan.map Prod.fst →
    ∃ t ∈ out.trace, t.node = n ∨ t.outcome = .failed ∧ t.node.Above n

/-- **An export writes each node once and in its place.** What is selected or below a selected node is
planned once; each node is tried at most once, in the directory that was created for its parent, or in the
picked one if no other selected node is above it, and under its name; below a node for which no directory was
created nothing is tried; and without cancellation everything else is tried, and what was written and what
failed is the whole plan. -/
theorem export_in_place (E : ExportEnv root δ φ) (after : Option ℕ) (confirmed : Bool)
    (selected : List (NodeRef root)) :
    let plan := (exportPlan after selected).1
    (plan.map Prod.fst).Nodup ∧
    (after = none → ∀ n, some n ∈ plan.map Prod.fst ↔ ∃ s, some s ∈ selected ∧ s.Above n) ∧
    ∃ out, exportImages E after confirmed selected = some out ∧ InPlace E selected plan out ∧
      (after = none → confirmed = true → Complete E plan out) := by
  dsimp only
  have hplan := exportPlan_eq after selected
  refine ⟨?_, ?_, ?_⟩
  · rcases hplan with hwalk | ⟨-, hempty⟩
    · rw [hwalk]
      exact nodup_walk selected
    · rw [hempty]
      exact List.nodup_nil
  · intro hafter n
    rw [hplan.resolve_right fun h ↦ h.1 hafter]
    exact mem_walk selected n
  · rw [exportImages]
    -- Where nothing is tried.
    have huntried : ∀ k, (after = none → confirmed = true → k = (exportPlan after selected).1.length ∧
        (E.openRoot ≠ none → (exportPlan after selected).1 = [])) →
        ∃ out : ExportSummary root δ φ, some { failed := k } = some out ∧
          InPlace E selected (exportPlan after selected).1 out ∧
          (after = none → confirmed = true → Complete E (exportPlan after selected).1 out) := by
      intro k hk
      refine ⟨_, rfl, ⟨List.nil_sublist _, nofun, nofun, nofun, nofun, rfl⟩, fun hafter hconfirmed ↦ ?_⟩
      obtain ⟨hcount, hempty⟩ := hk hafter hconfirmed
      refine ⟨(Nat.zero_add k).trans hcount, fun hroot n hn ↦ ?_⟩
      rw [hempty hroot] at hn
      cases hn
    split
    · rename_i hdenied
      exact huntried 0 fun _ hconfirmed ↦ by simp [hconfirmed] at hdenied
    dsimp only
    split
    · rename_i hdone
      refine huntried 0 fun hafter _ ↦ ?_
      rw [hafter] at hdone ⊢
      rw [show cancelled none (exportPlan none selected).2 = false from rfl, Bool.or_false,
        List.isEmpty_iff] at hdone
      exact ⟨by rw [hdone, List.length_nil], fun _ ↦ hdone⟩
    split
    · rename_i hroot
      exact huntried _ fun _ _ ↦ ⟨rfl, fun hne ↦ absurd hroot hne⟩
    · rename_i hgoes _ top htop
      have hwalk : (exportPlan after selected).1 = walk selected := by
        refine hplan.resolve_right fun hempty ↦ hgoes ?_
        rw [hempty.2]
        rfl
      rw [hwalk]
      have hopen : Open selected top ([] : List (Attempt root δ φ)) [] [top] := ⟨rfl, nofun, nofun⟩
      obtain ⟨out, hout, hran⟩ := exists_ran (E := E) after ((exportPlan after selected).2 + 1) 0 {}
        (depthWalk_walk selected) (fun a ha ↦ top_of_mem_walk ha) hopen
      have hnodes : ((out.trace.map Attempt.node).map some).Sublist ((walk selected).map Prod.fst) := hran.nodes
      have hnodup : (out.trace.map Attempt.node).Nodup :=
        List.Nodup.of_map _ ((nodup_walk selected).sublist hnodes)
      have hevent : ∀ t ∈ out.trace, t.Answered E ∧
          ∃ j depth, t.index = 0 + j ∧ (walk selected)[j]? = some (some t.node, depth) :=
        fun t ht ↦ (hran.answered t ht).resolve_left List.not_mem_nil
      refine ⟨out, hout, ⟨hnodes, fun t ht ↦ ?_, fun t ht ↦ (hevent t ht).1,
        fun t ht ↦ ⟨top, htop, hran.mirrors t ht⟩, fun t ht hfailed u hu habove ↦ ?_, hran.written rfl⟩,
        fun hafter _ ↦ ⟨(hran.count hafter).trans (Nat.zero_add _), fun _ ↦ hran.tried hafter⟩⟩
      · obtain ⟨-, j, depth, hindex, hentry⟩ := hevent t ht
        rw [Nat.zero_add] at hindex
        exact ⟨depth, hindex ▸ hentry⟩
      · refine not_below_failed hran.mirrors hnodup (fun t ht ↦ ?_) ht hfailed hu habove
        exact (mem_walk selected t.node).mp
          (hnodes.subset (List.mem_map_of_mem (List.mem_map_of_mem ht)))

/-- A gallery with one image. -/
def oneImage : IndexNode :=
  .branch { name := [] } [.branch { name := ascii "g" } [.leaf { name := ascii "a" } (.image {})]]

/-- The image, its gallery and the image again are selected, and everything can be written: a directory `1` for
the gallery in the picked directory `0`, and a file in it. -/
theorem export_in_place_overlap :
    let gallery : NodePtr oneImage := ⟨[0], _, rfl⟩
    let image : NodePtr oneImage := ⟨[0, 0], _, rfl⟩
    let E : ExportEnv oneImage ℕ Unit := ⟨some 0, fun _ d _ ↦ some (d + 1), fun _ _ _ ↦ some (), fun _ _ ↦ some [1],
      fun _ _ bytes ↦ bytes.length, fun _ _ ↦ true, fun _ _ ↦ true⟩
    let selected := [some image, some gallery, some image]
    ∃ out, exportImages E none true selected = some out ∧ InPlace E selected (exportPlan none selected).1 out ∧
      Complete E (exportPlan none selected).1 out ∧
      out.trace.map (fun t ↦ (t.node.path, t.directory, t.name)) = [([0], 0, ascii "g"), ([0, 0], 1, ascii "a")] := by
  intro gallery image E selected
  obtain ⟨-, -, out, hout, hplace, hcomplete⟩ := export_in_place E none true selected
  refine ⟨out, hout, hplace, hcomplete rfl rfl, ?_⟩
  have hrun : (exportImages E none true selected).map (fun out ↦
      out.trace.map fun t ↦ (t.node.path, t.directory, t.name)) =
        some [([0], 0, ascii "g"), ([0, 0], 1, ascii "a")] := by decide +kernel
  rw [hout] at hrun
  exact Option.some.inj hrun

end Export

end SafeVault
