import SafeVault.Import.NaturalOrder
import SafeVault.Index.Node
import SafeVault.Lib.StableSort

/-!
# The order of a gallery

The children of a gallery are shown galleries first, and within each of the two groups by the name, the
date or the size. Names are compared in the natural order, which orders them up to case. All of these
comparisons go by a key, so a stable sort may rely on them.
-/

namespace SafeVault

open ZipPlan (naturalCompare sortKeys)

/-! ## Sorting -/

/-- `natural_less` -/
def naturalLess (a b : Bytes) : Bool := naturalCompare a b == .lt

def createdTsOf : IndexNode → UInt64
  | .branch _ _ => 0
  | .leaf _ (.image img) => img.createdTs
  | .leaf _ (.video vid) => vid.createdTs

def origSizeOf : IndexNode → UInt64
  | .branch _ _ => 0
  | .leaf _ (.image img) => img.origSize
  | .leaf _ (.video vid) => vid.origSize

/-- The comparison for a key; two of the keys compare nothing. -/
def sortLess : SortKey → Option (IndexNode → IndexNode → Bool)
  | .default => none
  | .insertion => none
  | .nameAsc => some fun a b ↦ naturalLess a.label.name b.label.name
  | .nameDesc => some fun a b ↦ naturalLess b.label.name a.label.name
  | .dateAsc => some fun a b ↦ createdTsOf a < createdTsOf b
  | .dateDesc => some fun a b ↦ createdTsOf a > createdTsOf b
  | .sizeAsc => some fun a b ↦ origSizeOf a < origSizeOf b
  | .sizeDesc => some fun a b ↦ origSizeOf a > origSizeOf b

/-- `sort_children` -/
def sortChildren (nodes : List IndexNode) (key : SortKey) : List IndexNode :=
  let out := stablePartition LeafTree.isGallery nodes
  match sortLess key with
  | none => out
  | some less =>
    stableSort less (out.takeWhile LeafTree.isGallery) ++ stableSort less (out.dropWhile LeafTree.isGallery)

def effectiveSortKey (galleryKey vaultDefault : SortKey) : SortKey :=
  if galleryKey ≠ .default then galleryKey
  else if vaultDefault = .default then .insertion else vaultDefault

/-! ## The comparisons -/

theorem naturalLess_iff {a b : Bytes} : naturalLess a b = true ↔ sortKeys a < sortKeys b := by
  rw [naturalLess, beq_iff_eq, ZipPlan.naturalCompare_lt_iff]

theorem decide_lt_iff {f : IndexNode → UInt64} (a b : IndexNode) :
    decide (f a < f b) = true ↔ (f a).toNat < (f b).toNat :=
  decide_eq_true_iff.trans UInt64.lt_iff_toNat_lt

/-- A stable sort may rely on the comparison, and does what it should. -/
def Sortable (less : IndexNode → IndexNode → Bool) : Prop :=
  StrictWeakOrder less ∧ ∀ xs, StablySorted less xs (stableSort less xs)

theorem sortable_of_key {κ : Type} [LinearOrder κ] {f : IndexNode → κ} {less : IndexNode → IndexNode → Bool}
    (h : ∀ a b, less a b = true ↔ f a < f b) : Sortable less :=
  ⟨strictWeakOrder_of_key h, stablySorted_stableSort h⟩

/-- Every comparison goes by a key, in one direction or the other. -/
theorem sortable_sortLess {key : SortKey} {less : IndexNode → IndexNode → Bool} (h : sortLess key = some less) :
    Sortable less := by
  cases key with
  | default => exact nomatch h
  | insertion => exact nomatch h
  | nameAsc =>
    obtain rfl := Option.some.inj h
    exact sortable_of_key fun a b ↦ naturalLess_iff
  | nameDesc =>
    obtain rfl := Option.some.inj h
    exact sortable_of_key (f := fun a ↦ OrderDual.toDual (sortKeys a.label.name)) fun a b ↦ naturalLess_iff
  | dateAsc =>
    obtain rfl := Option.some.inj h
    exact sortable_of_key decide_lt_iff
  | dateDesc =>
    obtain rfl := Option.some.inj h
    exact sortable_of_key (f := fun a ↦ OrderDual.toDual (createdTsOf a).toNat) fun a b ↦ decide_lt_iff b a
  | sizeAsc =>
    obtain rfl := Option.some.inj h
    exact sortable_of_key decide_lt_iff
  | sizeDesc =>
    obtain rfl := Option.some.inj h
    exact sortable_of_key (f := fun a ↦ OrderDual.toDual (origSizeOf a).toNat) fun a b ↦ decide_lt_iff b a

/-! ## The result -/

/-- Two children of one kind are not in the wrong order. -/
def InOrder (key : SortKey) (a b : IndexNode) : Prop := ∀ less, sortLess key = some less → less b a = false

/-- What sorting the children of a gallery does. -/
structure GallerySorted (key : SortKey) (nodes out : List IndexNode) : Prop where
  perm : out.Perm nodes
  galleriesFirst : out.Pairwise fun a b ↦ b.isGallery = true → a.isGallery = true
  ordered : out.Pairwise fun a b ↦ a.isGallery = b.isGallery → InOrder key a b
  /-- Children of one kind that are in order already stay in the order they are in. -/
  stable : ∀ (ys : List IndexNode) (kind : Bool), ys.Sublist nodes → (∀ y ∈ ys, y.isGallery = kind) →
    ys.Pairwise (InOrder key) → ys.Sublist out

section Result

variable {nodes galleries media : List IndexNode} {key : SortKey}

theorem takeWhile_stablePartition {p : IndexNode → Bool} :
    (stablePartition p nodes).takeWhile p = nodes.filter p := by
  rw [stablePartition, List.takeWhile_append_of_pos fun a ha ↦ (List.mem_filter.mp ha).2]
  refine (congrArg _ ?_).trans (List.append_nil _)
  rcases hrest : nodes.filter (!p ·) with _ | ⟨b, rest⟩
  · rfl
  · have hb : b ∈ nodes.filter (!p ·) := hrest ▸ List.mem_cons_self
    exact List.takeWhile_cons_of_neg (by simpa using (List.mem_filter.mp hb).2)

theorem dropWhile_stablePartition {p : IndexNode → Bool} :
    (stablePartition p nodes).dropWhile p = nodes.filter (!p ·) := by
  refine @List.append_cancel_left _ (nodes.filter p) _ _ ?_
  rw [← takeWhile_stablePartition, List.takeWhile_append_dropWhile, takeWhile_stablePartition]
  rfl

/-- Sorting the two groups on their own sorts all. -/
theorem gallerySorted_append (hgalleries : galleries.Perm (nodes.filter LeafTree.isGallery))
    (hmedia : media.Perm (nodes.filter (!LeafTree.isGallery ·)))
    (hordered : galleries.Pairwise (InOrder key)) (hordered' : media.Pairwise (InOrder key))
    (hstable : ∀ ys : List IndexNode, ys.Sublist (nodes.filter LeafTree.isGallery) →
      ys.Pairwise (InOrder key) → ys.Sublist galleries)
    (hstable' : ∀ ys : List IndexNode, ys.Sublist (nodes.filter (!LeafTree.isGallery ·)) →
      ys.Pairwise (InOrder key) → ys.Sublist media) :
    GallerySorted key nodes (galleries ++ media) := by
  have hkind (a : IndexNode) (ha : a ∈ galleries) : a.isGallery = true :=
    (List.mem_filter.mp (hgalleries.mem_iff.mp ha)).2
  have hkind' (a : IndexNode) (ha : a ∈ media) : a.isGallery = false :=
    (Bool.not_eq_true' _).mp (List.mem_filter.mp (hmedia.mem_iff.mp ha)).2
  refine ⟨?_, ?_, ?_, fun ys kind hys hkinds hpair ↦ ?_⟩
  · exact (hgalleries.append hmedia).trans (List.filter_append_perm _ nodes)
  · refine List.pairwise_append.mpr ⟨?_, ?_, fun a ha b hb _ ↦ hkind a ha⟩
    · exact List.pairwise_of_forall_mem_list fun a ha b _ _ ↦ hkind a ha
    · refine List.pairwise_of_forall_mem_list fun a _ b hb hgallery ↦ ?_
      exact absurd ((hkind' b hb).symm.trans hgallery) Bool.false_ne_true
  · refine List.pairwise_append.mpr ⟨hordered.imp (by exact fun h _ ↦ h), hordered'.imp (by exact fun h _ ↦ h),
      fun a ha b hb hsame ↦ ?_⟩
    rw [hkind a ha, hkind' b hb] at hsame
    exact absurd hsame.symm Bool.false_ne_true
  · rcases kind with _ | _
    · have hfilter : ys.filter (!LeafTree.isGallery ·) = ys :=
        List.filter_eq_self.mpr fun y hy ↦ (Bool.not_eq_true' _).mpr (hkinds y hy)
      exact (hstable' ys (hfilter ▸ hys.filter _) hpair).trans (List.sublist_append_right _ _)
    · have hfilter : ys.filter LeafTree.isGallery = ys := List.filter_eq_self.mpr hkinds
      exact (hstable ys (hfilter ▸ hys.filter _) hpair).trans (List.sublist_append_left _ _)

theorem gallerySorted_sortChildren (nodes : List IndexNode) (key : SortKey) :
    GallerySorted key nodes (sortChildren nodes key) := by
  rw [sortChildren]
  rcases hless : sortLess key with _ | less
  -- Nothing is compared, so any order is in order.
  · have hany (a b : IndexNode) : InOrder key a b := fun less h ↦ absurd (hless.symm.trans h) (by simp)
    exact gallerySorted_append (List.Perm.refl _) (List.Perm.refl _) (List.pairwise_of_forall hany)
      (List.pairwise_of_forall hany) (fun _ h _ ↦ h) fun _ h _ ↦ h
  · have hiff (a b : IndexNode) : InOrder key a b ↔ less b a = false := by
      refine ⟨fun h ↦ h less hless, fun h less' h' ↦ ?_⟩
      rwa [← Option.some.inj (hless.symm.trans h')]
    have hsame : InOrder key = fun a b ↦ less b a = false := funext fun a ↦ funext fun b ↦ propext (hiff a b)
    obtain ⟨-, hsorted⟩ := sortable_sortLess hless
    dsimp only
    rw [takeWhile_stablePartition, dropWhile_stablePartition]
    have hgalleries := hsorted (nodes.filter LeafTree.isGallery)
    have hmedia := hsorted (nodes.filter (!LeafTree.isGallery ·))
    refine gallerySorted_append hgalleries.perm hmedia.perm ?_ ?_ ?_ ?_
    · rw [hsame]
      exact hgalleries.ordered
    · rw [hsame]
      exact hmedia.ordered
    · rw [hsame]
      exact hgalleries.stable
    · rw [hsame]
      exact hmedia.stable

end Result

/-- **The order of a gallery.** Comparing names is a total preorder in which names are equal up to case and
not otherwise, every comparison is one that a sort may rely on, and sorting keeps the children, with the
galleries first, in the order of the key, and stable. -/
theorem galleryOrder :
    (∀ a, naturalCompare a a = .eq) ∧
    (∀ a b, naturalCompare b a = (naturalCompare a b).swap) ∧
    (∀ a b c, (naturalCompare a b).isLE = true → (naturalCompare b c).isLE = true →
      (naturalCompare a c).isLE = true) ∧
    (∀ a b, naturalCompare a b = .eq ↔ AsciiFold.equal a b = true) ∧
    (∀ key less, sortLess key = some less → StrictWeakOrder less) ∧
    ∀ key nodes, GallerySorted key nodes (sortChildren nodes key) := by
  have hle (a b : Bytes) : (naturalCompare a b).isLE = true ↔ sortKeys a ≤ sortKeys b := by
    have hlt := ZipPlan.naturalCompare_lt_iff a b
    have heq := ZipPlan.naturalCompare_eq_iff a b
    rw [Ordering.isLE_iff_eq_lt_or_eq_eq, hlt, heq, le_iff_lt_or_eq]
  refine ⟨fun a ↦ ?_, ZipPlan.naturalCompare_swap, fun a b c hab hbc ↦ ?_, fun a b ↦ ?_, fun key less h ↦ ?_,
    fun key nodes ↦ gallerySorted_sortChildren nodes key⟩
  · exact (ZipPlan.naturalCompare_eq_iff a a).mpr rfl
  · exact (hle a c).mpr (((hle a b).mp hab).trans ((hle b c).mp hbc))
  · rw [ZipPlan.naturalCompare_eq_iff_fold, AsciiFold.equal_iff]
  · exact (sortable_sortLess h).1

/-- Zeros before a number and capitals do not get in the way. -/
theorem galleryOrder_pages :
    (naturalCompare (ascii "p2") (ascii "P010")).isLE = true ∧
      StrictWeakOrder fun a b : IndexNode ↦ naturalLess b.label.name a.label.name := by
  obtain ⟨-, -, htrans, -, hless, -⟩ := galleryOrder
  exact ⟨htrans _ (ascii "p10") _ (by decide +kernel) (by decide +kernel), hless .nameDesc _ rfl⟩

end SafeVault
