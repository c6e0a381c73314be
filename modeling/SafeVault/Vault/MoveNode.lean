import SafeVault.Lib.TreeEdit
import SafeVault.Vault.State

/-!
# Moving a node within a vault

The copy is put in at the destination first, and the original is taken out afterwards through a pointer
that was looked up before. Three things are needed for this to move the node. The destination may not be in
the moved gallery, or the copy goes with the original; the check for that compares the paths as they were
spelled. The gallery that is the source may not have been relocated by the insertion, which is so when it
is a child of the destination and the vector of the children is full. And the commit may not fail, since
nothing is undone.
-/

namespace SafeVault

open LeafTree (takeOut putIn shift setLabel)

variable {μ : Type}

/-! ## The operation -/

/-- The node with another name. -/
def renameNode (name : Bytes) (u : Node μ) : Node μ := u.setLabel fun h ↦ { h with name }

/-- What is to be moved, where it is and where it is to go. -/
structure NodeMove (μ : Type) where
  source : List ℕ
  destination : List ℕ
  index : ℕ
  item : Node μ

/-- The comparison of the destination with the path of what is moved. -/
def startsAtSource (sourceGallery name destinationGallery : Bytes) : Bool :=
  let sourcePath := if sourceGallery.isEmpty then name else sourceGallery ++ [slash] ++ name
  destinationGallery == sourcePath || (sourcePath ++ [slash]).isPrefixOf destinationGallery

/-- The checks of `move_node_within`, and the look-ups. -/
def planMove (sourceGallery name destinationGallery destinationName : Bytes) (v : Vault μ) :
    Except VaultResult (NodeMove μ) :=
  if !v.v3 then .error .invalidArg
  else if !v.unlocked then .error .locked
  else
    match resolveGallery v.root sourceGallery, resolveGallery v.root destinationGallery with
    | some source, some destination =>
      if source = destination then .error .ok
      else if !isSafeNodeName destinationName then .error .invalidArg
      else
        match v.root.get? source, v.root.get? destination with
        | some s, some d =>
          if (childNamed d destinationName).isSome then .error .alreadyExists
          else
            match s.children.findIdx? (·.named name) with
            | none => .error .notFound
            | some index =>
              match s.children[index]? with
              | none => .error .notFound
              | some item =>
                if item.isGallery && startsAtSource sourceGallery name destinationGallery then
                  .error .invalidArg
                else .ok ⟨source, destination, index, item⟩
        | _, _ => .error .notFound
    | _, _ => .error .notFound

/-- The insertion moves the source gallery in memory: it is a child of the destination, whose vector is
full. -/
def NodeMove.dangles (full : Bool) (m : NodeMove μ) : Bool :=
  full && !m.source.isEmpty && m.source.dropLast == m.destination

/-- `move_node_within`, where the vector of the destination may be full, the insertion may fail, and the
commit has an outcome. There is no result where the source is used after it was freed. -/
def moveNodeWithin (sourceGallery name destinationGallery destinationName : Bytes) (full pushed : Bool)
    (outcome : VaultResult) (v : Vault μ) : Option (VaultResult × Vault μ) :=
  match planMove sourceGallery name destinationGallery destinationName v with
  | .error result => some (result, v)
  | .ok m =>
    if !pushed then some (.ioError, v)
    else if m.dangles full then none
    else
      let moved := renameNode destinationName m.item
      some (Vault.commitIndex outcome
        { v with root := takeOut m.source m.index (putIn moved m.destination v.root) })

/-! ## Look-ups -/

section Lookups

variable {root g : Node μ} {segs : List Bytes} {p : List ℕ} {path : Bytes}

theorem get?_resolveSegments (h : resolveSegments root segs = some p) :
    ∃ g, root.get? p = some g ∧ (p = [] ∨ g.isGallery = true) := by
  induction segs generalizing root p with
  | nil =>
    obtain rfl := Option.some.inj h
    exact ⟨root, LeafTree.get?_nil root, .inl rfl⟩
  | cons seg segs ih =>
    obtain ⟨i, hi, h⟩ := Option.bind_eq_some_iff.mp h
    obtain ⟨c, hc, h⟩ := Option.bind_eq_some_iff.mp h
    obtain ⟨q, hq, h⟩ := Option.bind_eq_some_iff.mp h
    obtain rfl := Option.some.inj h
    obtain ⟨g, hg, hgallery⟩ := ih hq
    refine ⟨g, (LeafTree.get?_cons hc).trans hg, .inr ?_⟩
    rcases hgallery with rfl | hgallery
    · obtain ⟨hlt, hfound, -⟩ := List.findIdx?_eq_some_iff_getElem.mp hi
      obtain rfl : c = g := Option.some.inj ((LeafTree.get?_nil c).symm.trans hg)
      obtain ⟨_, rfl⟩ := List.getElem?_eq_some_iff.mp hc
      exact (Bool.and_eq_true_iff.mp hfound).1
    · exact hgallery

/-- What the look-ups found. -/
structure NodeMove.Planned (sourceGallery name destinationGallery destinationName : Bytes) (v : Vault μ)
    (m : NodeMove μ) : Prop where
  v3 : v.v3 = true
  source : resolveGallery v.root sourceGallery = some m.source
  destination : resolveGallery v.root destinationGallery = some m.destination
  apart : m.source ≠ m.destination
  item : v.root.get? (m.source ++ [m.index]) = some m.item
  index : ∃ g, v.root.get? m.source = some g ∧ g.children.findIdx? (·.named name) = some m.index
  named : m.item.named name = true
  free : ∀ d, v.root.get? m.destination = some d → destinationName ∉ d.children.map fun c ↦ c.label.name
  branch : ∃ n cs, v.root.get? m.destination = some (.branch n cs)

theorem planned_of_planMove {sourceGallery name destinationGallery destinationName : Bytes} {v : Vault μ}
    {m : NodeMove μ} (h : planMove sourceGallery name destinationGallery destinationName v = .ok m) :
    m.Planned sourceGallery name destinationGallery destinationName v := by
  rw [planMove] at h
  by_cases hv3 : (!v.v3) = true
  · rw [if_pos hv3] at h
    cases h
  rw [if_neg hv3] at h
  by_cases hlocked : (!v.unlocked) = true
  · rw [if_pos hlocked] at h
    cases h
  rw [if_neg hlocked] at h
  rcases hs : resolveGallery v.root sourceGallery with _ | source
  · rw [hs] at h
    cases h
  rcases hd : resolveGallery v.root destinationGallery with _ | destination
  · rw [hs, hd] at h
    cases h
  rw [hs, hd] at h
  dsimp only at h
  by_cases hsame : source = destination
  · rw [if_pos hsame] at h
    cases h
  rw [if_neg hsame] at h
  by_cases hunsafe : (!isSafeNodeName destinationName) = true
  · rw [if_pos hunsafe] at h
    cases h
  rw [if_neg hunsafe] at h
  obtain ⟨s, hsource, -⟩ := get?_resolveSegments hs
  obtain ⟨d, hdestination, hgallery⟩ := get?_resolveSegments hd
  rw [hsource, hdestination] at h
  dsimp only at h
  by_cases htaken : (childNamed d destinationName).isSome = true
  · rw [if_pos htaken] at h
    cases h
  rw [if_neg htaken] at h
  rcases hindex : s.children.findIdx? (·.named name) with _ | index
  · rw [hindex] at h
    cases h
  rw [hindex] at h
  obtain ⟨hlt, hnamed, -⟩ := List.findIdx?_eq_some_iff_getElem.mp hindex
  dsimp only at h
  rw [List.getElem?_eq_getElem hlt] at h
  dsimp only at h
  by_cases hcycle : (s.children[index].isGallery && startsAtSource sourceGallery name destinationGallery) = true
  · rw [if_pos hcycle] at h
    cases h
  rw [if_neg hcycle] at h
  obtain rfl := Except.ok.inj h
  have hchild : v.root.get? (source ++ [index]) = some s.children[index] := by
    rw [LeafTree.get?_append, hsource, Option.bind_some,
      LeafTree.get?_cons (List.getElem?_eq_getElem hlt), LeafTree.get?_nil]
  refine ⟨by simpa using hv3, hs, hd, hsame, hchild, ⟨s, hsource, hindex⟩, hnamed,
    fun d' hd' hmem ↦ ?_, ?_⟩
  · obtain rfl : d = d' := Option.some.inj (hdestination.symm.trans hd')
    rw [childNamed, List.find?_isSome] at htaken
    obtain ⟨c, hc, hname⟩ := List.mem_map.mp hmem
    exact htaken ⟨c, hc, beq_iff_eq.mpr hname⟩
  · rcases d with ⟨n, cs⟩ | ⟨n, a⟩
    · exact ⟨n, cs, hdestination⟩
    · -- a vault whose root is a medium has only one place
      rcases hgallery with rfl | hgallery
      · have hroot : v.root = .leaf n a := Option.some.inj ((LeafTree.get?_nil _).symm.trans hdestination)
        rw [hroot] at hsource
        rcases source with _ | ⟨i, source⟩
        · exact absurd rfl hsame
        · obtain ⟨c, hc, -⟩ := LeafTree.get?_cons_eq_some_iff.mp hsource
          cases hc
      · cases hgallery

/-- The checks end in `Ok` only where there is nothing to move. -/
theorem planMove_eq_error_ok {sourceGallery name destinationGallery destinationName : Bytes} {v : Vault μ}
    (h : planMove sourceGallery name destinationGallery destinationName v = .error .ok) :
    ∃ p, resolveGallery v.root sourceGallery = some p ∧ resolveGallery v.root destinationGallery = some p := by
  rw [planMove] at h
  by_cases hv3 : (!v.v3) = true
  · rw [if_pos hv3] at h
    cases h
  rw [if_neg hv3] at h
  by_cases hlocked : (!v.unlocked) = true
  · rw [if_pos hlocked] at h
    cases h
  rw [if_neg hlocked] at h
  rcases hs : resolveGallery v.root sourceGallery with _ | source
  · rw [hs] at h
    cases h
  rcases hd : resolveGallery v.root destinationGallery with _ | destination
  · rw [hs, hd] at h
    cases h
  rw [hs, hd] at h
  dsimp only at h
  by_cases hsame : source = destination
  · exact ⟨source, rfl, congrArg some hsame.symm⟩
  · exfalso
    rw [if_neg hsame] at h
    by_cases hunsafe : (!isSafeNodeName destinationName) = true
    · rw [if_pos hunsafe] at h
      cases h
    rw [if_neg hunsafe] at h
    obtain ⟨s, hsource, -⟩ := get?_resolveSegments hs
    obtain ⟨d, hdestination, -⟩ := get?_resolveSegments hd
    rw [hsource, hdestination] at h
    dsimp only at h
    by_cases htaken : (childNamed d destinationName).isSome = true
    · rw [if_pos htaken] at h
      cases h
    rw [if_neg htaken] at h
    rcases hindex : s.children.findIdx? (·.named name) with _ | index
    · rw [hindex] at h
      cases h
    rw [hindex] at h
    obtain ⟨hlt, -⟩ := List.findIdx?_eq_some_iff_getElem.mp hindex
    dsimp only at h
    rw [List.getElem?_eq_getElem hlt] at h
    dsimp only at h
    split_ifs at h
    cases h

end Lookups

/-! ## What a move does to the tree -/

section Moves

variable {root root' u : Node μ} {p q : List ℕ} {i : ℕ} {name : Bytes}

/-- **A move**: a subtree is taken out, and put in under another name as the last child of a gallery that
was not in it. Its nodes and those of the rest stay as they are, and siblings that differ still do. -/
structure MovedTo (root root' : Node μ) (p : List ℕ) (i : ℕ) (u : Node μ) (q : List ℕ) (name : Bytes) :
    Prop where
  item : root.get? (p ++ [i]) = some u
  outside : ¬ p ++ [i] <+: q
  tree : root' = putIn (renameNode name u) (shift p i q) (takeOut p i root)
  contents : ∃ rest, root.contents.Perm (u.contents ++ rest) ∧
    root'.contents.Perm ((renameNode name u).contents ++ rest)
  unique : root.Distinct (·.name) → root'.Distinct (·.name)

theorem length_contents_renameNode : (renameNode name u).contents.length = u.contents.length := by
  rcases u with ⟨n, cs⟩ | ⟨n, a⟩
  · rw [renameNode, setLabel, LeafTree.contents_branch, LeafTree.contents_branch]
    rfl
  · rfl

theorem length_contents_pos : 0 < u.contents.length := by
  rcases u with ⟨n, cs⟩ | ⟨n, a⟩
  · rw [LeafTree.contents_branch]
    exact Nat.succ_pos _
  · exact Nat.one_pos

theorem MovedTo.length_contents (h : MovedTo root root' p i u q name) :
    root'.contents.length = root.contents.length := by
  obtain ⟨rest, hbefore, hafter⟩ := h.contents
  rw [hbefore.length_eq, hafter.length_eq, List.length_append, List.length_append,
    length_contents_renameNode]

/-- The copy is put in first, outside of the subtree. -/
theorem movedTo_of_outside (hu : root.get? (p ++ [i]) = some u) (hout : ¬ p ++ [i] <+: q)
    (hbranch : ∃ n cs, root.get? q = some (.branch n cs))
    (hfree : ∀ d, root.get? q = some d → name ∉ d.children.map fun c ↦ c.label.name) :
    MovedTo root (takeOut p i (putIn (renameNode name u) q root)) p i u q name := by
  have hcommute := LeafTree.takeOut_putIn (u := renameNode name u) hu hout
  refine ⟨hu, hout, hcommute, ⟨(takeOut p i root).contents, (LeafTree.contents_takeOut hu).symm, ?_⟩,
    fun hdistinct ↦ ?_⟩
  · obtain ⟨n, cs, hq⟩ := hbranch
    obtain ⟨cs', hq'⟩ := LeafTree.get?_takeOut hq hout
    rw [hcommute]
    exact LeafTree.contents_putIn hq'
  · have hname : (renameNode name u).label.name = name := by rw [renameNode, LeafTree.label_setLabel]
    have hrenamed : (renameNode name u).Distinct (·.name) := by
      have hsub : u.Distinct (·.name) := hdistinct.get? hu
      rcases u with ⟨n, cs⟩ | ⟨n, a⟩
      · exact LeafTree.distinct_branch.mpr (LeafTree.distinct_branch.mp hsub)
      · exact LeafTree.all_leaf.mpr trivial
    refine (hdistinct.putIn hrenamed fun d hd ↦ ?_).takeOut
    rw [hname]
    exact hfree d hd

/-- **The copy is put into the subtree**, and both are lost. -/
theorem length_contents_of_inside (hu : root.get? (p ++ [i]) = some u) (hin : p ++ [i] <+: q)
    (hbranch : ∃ n cs, root.get? q = some (.branch n cs)) :
    (takeOut p i (putIn (renameNode name u) q root)).contents.length < root.contents.length := by
  obtain ⟨r, rfl⟩ := hin
  obtain ⟨n, cs, hq⟩ := hbranch
  have hinside : u.get? r = some (.branch n cs) := by
    rw [LeafTree.get?_append, hu, Option.bind_some] at hq
    exact hq
  have hchild : (putIn (renameNode name u) (p ++ [i] ++ r) root).get? (p ++ [i]) =
      some (putIn (renameNode name u) r u) := by
    rw [putIn, LeafTree.modifyAt_append]
    exact LeafTree.get?_modifyAt_self hu
  have htaken := (LeafTree.contents_takeOut hchild).length_eq
  have hwhole := (LeafTree.contents_putIn (u := renameNode name u) hq).length_eq
  have hpart := (LeafTree.contents_putIn (u := renameNode name u) hinside).length_eq
  have hpos := length_contents_pos (u := u)
  rw [List.length_append] at htaken hwhole hpart
  omega

/-- The source has one child less. -/
theorem takeOut_putIn_ne (hu : root.get? (p ++ [i]) = some u) (hpq : p ≠ q) :
    takeOut p i (putIn (renameNode name u) q root) ≠ root := by
  intro heq
  rw [LeafTree.get?_append, Option.bind_eq_some_iff] at hu
  obtain ⟨g, hg, hu⟩ := hu
  obtain ⟨c, hc, -⟩ := LeafTree.get?_cons_eq_some_iff.mp hu
  obtain ⟨hi, -⟩ := List.getElem?_eq_some_iff.mp hc
  obtain ⟨g', hg', hlength⟩ := LeafTree.length_children_putIn (u := renameNode name u) hpq hg
  have hafter := LeafTree.get?_modifyAt_self (f := LeafTree.eraseChild i) hg'
  have hsource : (takeOut p i (putIn (renameNode name u) q root)).get? p = some g := by
    rw [heq]
    exact hg
  have hsame : LeafTree.eraseChild i g' = g := Option.some.inj (hafter.symm.trans hsource)
  rcases g' with ⟨n, cs⟩ | ⟨n, a⟩
  · rw [← hsame, LeafTree.eraseChild] at hlength hi
    rw [LeafTree.children_branch] at hlength hi
    rw [LeafTree.children_branch, List.length_eraseIdx] at hlength
    rw [List.length_eraseIdx] at hi
    split_ifs at hlength hi <;> omega
  · rw [← hsame, LeafTree.eraseChild] at hi
    exact absurd hi (Nat.not_lt_zero _)

end Moves

/-! ## The operation as a whole -/

section Operation

variable {sourceGallery name destinationGallery destinationName : Bytes} {full pushed : Bool}
  {outcome : VaultResult} {v : Vault μ}

/-- The paths lead to a gallery and into that gallery, however they are spelled. -/
def IntoItself (sourceGallery name destinationGallery : Bytes) (root : Node μ) : Prop :=
  ∃ p, ∃ g : Node μ, ∃ i q, resolveGallery root sourceGallery = some p ∧ root.get? p = some g ∧
    g.children.findIdx? (·.named name) = some i ∧ resolveGallery root destinationGallery = some q ∧
      p ++ [i] <+: q

/-- **What the operation is for.** The node is moved, or the tree is as it was; and no gallery is moved
into itself. -/
structure MoveSound (sourceGallery name destinationGallery destinationName : Bytes) (v : Vault μ)
    (r : VaultResult × Vault μ) : Prop where
  moved : r.1 = .ok → ∃ p q, resolveGallery v.root sourceGallery = some p ∧
    resolveGallery v.root destinationGallery = some q ∧
      ((p = q ∧ r.2.root = v.root) ∨
        ∃ i u, u.named name = true ∧ MovedTo v.root r.2.root p i u q destinationName)
  refused : r.1 ≠ .ok → r.2.root = v.root
  cycle : IntoItself sourceGallery name destinationGallery v.root → r.1 ≠ .ok ∧ r.2.root = v.root

theorem not_append_singleton_prefix {p : List ℕ} {i : ℕ} : ¬ p ++ [i] <+: p := by
  intro h
  have hlength := h.length_le
  rw [List.length_append, List.length_singleton] at hlength
  omega

/-- Refused by a check: the tree is as it was, also where a gallery would be moved into itself. -/
theorem moveSound_of_error {result : VaultResult}
    (h : planMove sourceGallery name destinationGallery destinationName v = .error result) :
    MoveSound sourceGallery name destinationGallery destinationName v (result, v) := by
  refine ⟨fun hok ↦ ?_, fun _ ↦ rfl, ?_⟩
  · obtain rfl : result = .ok := hok
    obtain ⟨p, hs, hd⟩ := planMove_eq_error_ok h
    exact ⟨p, p, hs, hd, .inl ⟨rfl, rfl⟩⟩
  · rintro ⟨p, g, i, q, hs, -, -, hd, hin⟩
    refine ⟨fun hok ↦ ?_, rfl⟩
    obtain rfl : result = .ok := hok
    obtain ⟨p', hs', hd'⟩ := planMove_eq_error_ok h
    obtain rfl : p = p' := Option.some.inj (hs.symm.trans hs')
    obtain rfl : q = p := Option.some.inj (hd.symm.trans hd')
    exact not_append_singleton_prefix hin

theorem NodeMove.Planned.not_intoItself {m : NodeMove μ}
    (h : m.Planned sourceGallery name destinationGallery destinationName v)
    (hout : ¬ m.source ++ [m.index] <+: m.destination) :
    ¬ IntoItself sourceGallery name destinationGallery v.root := by
  rintro ⟨p, g, i, q, hs, hg, hi, hd, hin⟩
  obtain rfl : p = m.source := Option.some.inj (hs.symm.trans h.source)
  obtain rfl : q = m.destination := Option.some.inj (hd.symm.trans h.destination)
  obtain ⟨g', hg', hi'⟩ := h.index
  obtain rfl : g = g' := Option.some.inj (hg.symm.trans hg')
  obtain rfl : i = m.index := Option.some.inj (hi.symm.trans hi')
  exact hout hin

/-- The commit of a directory changes nothing but what is committed. -/
theorem commitIndex_of_v3 (hv3 : v.v3 = true) :
    (v.commitIndex outcome).1 = outcome ∧ (v.commitIndex outcome).2.root = v.root := by
  rw [Vault.commitIndex, if_neg (by rw [hv3]; exact Bool.false_ne_true)]
  refine ⟨rfl, ?_⟩
  split_ifs <;> rfl

/-- **The operation is sound** if and only if, where it comes to the insertion, the destination is not in
what is moved, the source gallery stays where it is, and the commit works. -/
theorem moveNodeWithin_sound_iff :
    (∃ r, moveNodeWithin sourceGallery name destinationGallery destinationName full pushed outcome v = some r ∧
      MoveSound sourceGallery name destinationGallery destinationName v r) ↔
    ∀ m, planMove sourceGallery name destinationGallery destinationName v = .ok m → pushed = true →
      ¬ m.source ++ [m.index] <+: m.destination ∧ m.dangles full = false ∧ outcome = .ok := by
  rw [moveNodeWithin]
  rcases hplan : planMove sourceGallery name destinationGallery destinationName v with result | m
  · exact iff_of_true ⟨_, rfl, moveSound_of_error hplan⟩ nofun
  have hm := planned_of_planMove hplan
  dsimp only
  by_cases hpushed : pushed = true
  · rw [if_neg (by rw [hpushed]; exact Bool.false_ne_true)]
    obtain ⟨hresult, hroot⟩ := @commitIndex_of_v3 _ outcome ({ v with
      root := takeOut m.source m.index (putIn (renameNode destinationName m.item) m.destination v.root) }) hm.v3
    dsimp only at hroot
    constructor
    · rintro ⟨r, hr, hsound⟩ m' hm' -
      obtain rfl := Except.ok.inj hm'
      by_cases hdangles : m.dangles full = true
      · rw [if_pos hdangles] at hr
        cases hr
      rw [if_neg hdangles] at hr
      obtain rfl := Option.some.inj hr
      refine ⟨fun hin ↦ ?_, (Bool.not_eq_true _).mp hdangles, ?_⟩
      · -- the subtree is lost
        have hlost := @length_contents_of_inside _ _ _ _ _ _ destinationName hm.item hin hm.branch
        rw [← hroot] at hlost
        by_cases hok : outcome = .ok
        · obtain ⟨p, q, hs, hd, ⟨rfl, -⟩ | ⟨i, u, -, hmoved⟩⟩ := hsound.moved (hresult.trans hok)
          · exact hm.apart (Option.some.inj (hm.source.symm.trans (hs.trans (hd.symm.trans hm.destination))))
          · rw [hmoved.length_contents] at hlost
            exact Nat.lt_irrefl _ hlost
        · rw [hsound.refused fun h ↦ hok (hresult.symm.trans h)] at hlost
          exact Nat.lt_irrefl _ hlost
      · -- nothing is undone
        by_contra hnot
        have hsame := hsound.refused fun h ↦ hnot (hresult.symm.trans h)
        exact takeOut_putIn_ne hm.item hm.apart (hroot.symm.trans hsame)
    · intro h
      obtain ⟨hout, hdangles, hok⟩ := h m rfl hpushed
      rw [if_neg (by rw [hdangles]; exact Bool.false_ne_true)]
      refine ⟨_, rfl, fun _ ↦ ⟨_, _, hm.source, hm.destination, .inr ⟨m.index, m.item, hm.named, ?_⟩⟩,
        fun hnot ↦ absurd (hresult.trans hok) hnot, fun hcycle ↦ absurd hcycle (hm.not_intoItself hout)⟩
      rw [hroot]
      exact movedTo_of_outside hm.item hout hm.branch hm.free
  · rw [if_pos (by simpa using hpushed)]
    refine iff_of_true ⟨_, rfl, nofun, fun _ ↦ rfl, fun _ ↦ ⟨nofun, rfl⟩⟩ fun _ _ h ↦ absurd h hpushed

/-- A gallery that is moved to its own path, spelled with a slash before it, is lost. -/
theorem moveNodeWithin_loses_gallery :
    let nodeId (k : UInt8) : NodeId := ⟨List.replicate nodeIdSize k, rfl⟩
    let album : Node Unit := .branch { name := ascii "album", nodeId := nodeId 2 } []
    let root : Node Unit := .branch { name := [], nodeId := nodeId 1 } [album]
    let v : Vault Unit := ⟨true, true, false, root, .seeded, [], ⟨root, .seeded, []⟩⟩
    (moveNodeWithin [] (ascii "album") (ascii "/album") (ascii "b") false true .ok v).any
      (fun r ↦ r.1 = .ok ∧ r.2.root.children.isEmpty = true) = true := by
  decide +kernel

end Operation

end SafeVault
