import SafeVault.Index.RoundTrip

/-!
# The decoder on every input

Nothing is assumed about the bytes here. Every reader of the blob is shown to be a parser in the
sense of the library, which bounds what it touches, how deep it goes and how much it allocates
whether or not it succeeds, and to return only values within the limits of the format. Acceptance is
then a property of the bytes alone, and everything accepted can be written again.
-/

namespace SafeVault

open Read

variable {D : ℕ}

/-! ## Strings and lists -/

theorem parses_fieldStr (cap : ℕ) :
    Parses D (fun s : Bytes ↦ s.length ≤ cap) (readFieldStr cap) := by
  refine parses_u16.bind fun len _ ↦ (parses_check _).bind fun _ hcap ↦ ?_
  have hle := of_decide_eq_true hcap
  refine parses_ite (fun _ ↦ ?_) (fun _ ↦ parses_pure (Nat.zero_le _))
  refine (parses_bytes _).bind fun s hs ↦ (parses_check true).bind fun _ _ ↦ parses_pure ?_
  exact hs.trans_le hle

theorem keeps_fieldStr (cap : ℕ) : Keeps (readFieldStr cap) := by
  refine Checked.keeps <| checked_bind fun len ↦ checked_check_bind (keeps_ite ?_ (keeps_pure _))
  exact Checked.keeps <| checked_bind fun s ↦ checked_check_bind (keeps_pure s)

theorem parses_string : Parses D (fun s : Bytes ↦ s.length ≤ 0xFFFF) readString := by
  rw [readString_eq]
  exact parses_fieldStr _

theorem keeps_string : Keeps readString := by
  rw [readString_eq]
  exact keeps_fieldStr _

/-- What a counted list is known to satisfy: the count, the entries, and that none repeats. -/
structure ListFits {α : Type} (cap : ℕ) (same : α → α → Bool) (P : α → Prop) (xs : List α) :
    Prop where
  count : xs.length ≤ cap
  entries : ∀ x ∈ xs, P x
  distinct : Distinct same xs

theorem parses_collect_fits {α : Type} {P : α → Prop} {cap : ℕ} {same : α → α → Bool}
    {m : ByteReader α} (hm : Parses D P m) {n : ℕ} (hn : n ≤ cap) :
    Parses D (ListFits cap same P) (collect same m n []) := by
  let I (n : ℕ) (acc : List α) : Prop := acc.length + n ≤ cap ∧ ListFits cap same P acc
  have hstart : I n [] := ⟨by simpa using hn, Nat.zero_le _, by simp, List.Pairwise.nil⟩
  suffices h : Parses D (I 0) (collect same m n []) from h.mono fun xs hxs ↦ hxs.2
  refine parses_collect hm ?_ ?_ hstart
  · intro n acc ⟨hlen, hacc⟩
    exact ⟨by omega, hacc⟩
  · intro n acc a ⟨hlen, hacc⟩ ha hany
    rw [List.any_eq_false] at hany
    have hlen' : (acc ++ [a]).length + n ≤ cap := by
      rw [List.length_append, List.length_singleton]
      omega
    refine ⟨hlen', by omega, ?_, ?_⟩
    · intro x hx
      rcases List.mem_append.mp hx with hx | hx
      · exact hacc.entries x hx
      · rw [List.mem_singleton.mp hx]
        exact ha
    · refine List.pairwise_append.mpr ⟨hacc.distinct, List.pairwise_singleton _ _, ?_⟩
      intro e he b hb
      rw [List.mem_singleton.mp hb]
      exact Bool.eq_false_iff.mpr (hany e he)

theorem parses_list {α : Type} {P : α → Prop} (cap : ℕ) (same : α → α → Bool) {m : ByteReader α}
    (hm : Parses D P m) : Parses D (ListFits cap same P) (readList cap same m) :=
  parses_u16.bind fun _ _ ↦ (parses_check _).bind fun _ hcap ↦
    parses_collect_fits hm (of_decide_eq_true hcap)

theorem keeps_list {α : Type} (cap : ℕ) (same : α → α → Bool) {m : ByteReader α} (hm : Keeps m) :
    Keeps (readList cap same m) :=
  (checked_bind fun _ ↦ checked_check_bind (keeps_collect hm _ _)).keeps

theorem parses_since {α : Type} {P : α → Prop} {first version : UInt8} {m : ByteReader α}
    {dflt : α} (hm : version ≥ first → Parses D P m) (hd : P dflt) :
    Parses D P (since first version m dflt) :=
  parses_ite hm fun _ ↦ parses_pure hd

theorem keeps_since {α : Type} (first version : UInt8) {m : ByteReader α} (dflt : α)
    (hm : Keeps m) : Keeps (since first version m dflt) :=
  keeps_ite hm (keeps_pure _)

/-! ## Nodes -/

theorem parses_flag : Parses D (fun _ ↦ True) readFlag :=
  parses_u8.bind fun _ _ ↦ (parses_check _).bind fun _ _ ↦ parses_pure trivial

theorem keeps_flag : Keeps readFlag :=
  Checked.keeps <| checked_bind fun _ ↦ checked_check_bind (keeps_pure _)

theorem parses_imageMeta (version : UInt8) : Parses D (fun _ ↦ True) (readImageMeta version) := by
  refine parses_u8.bind fun _ _ ↦ parses_u32.bind fun _ _ ↦ parses_u32.bind fun _ _ ↦
    parses_u64.bind fun _ _ ↦ parses_u64.bind fun _ _ ↦ parses_u64.bind fun _ _ ↦
    parses_u64.bind fun _ _ ↦ parses_u64.bind fun _ _ ↦ parses_u64.bind fun _ _ ↦
    (parses_check true).bind fun _ _ ↦ (parses_since (fun _ ↦ parses_flag) trivial).bind
    fun _ _ ↦ parses_ite (fun _ ↦ ?_) (fun _ ↦ parses_pure trivial)
  exact parses_flag.bind fun _ _ ↦ parses_id.bind fun _ _ ↦ parses_id.bind fun _ _ ↦
    (parses_check true).bind fun _ _ ↦ parses_pure trivial

theorem keeps_imageMeta (version : UInt8) : Keeps (readImageMeta version) := by
  refine Checked.keeps <| checked_bind fun _ ↦ checked_bind fun _ ↦ checked_bind fun _ ↦
    checked_bind fun _ ↦ checked_bind fun _ ↦ checked_bind fun _ ↦ checked_bind fun _ ↦
    checked_bind fun _ ↦ checked_bind fun _ ↦ checked_check_bind <|
    (keeps_since 7 version false keeps_flag).bind fun _ ↦ keeps_ite ?_ (keeps_pure _)
  exact Checked.keeps <| checked_bind fun _ ↦ checked_bind fun _ ↦ checked_bind fun _ ↦
    checked_check_bind (keeps_pure _)

theorem parses_videoChunk (version : UInt8) :
    Parses D (fun _ ↦ True) (readVideoChunk version) := by
  refine parses_u64.bind fun _ _ ↦ parses_u64.bind fun _ _ ↦ parses_ite (fun _ ↦ ?_) (fun _ ↦ ?_)
  · exact parses_u32.bind fun _ _ ↦ parses_id.bind fun _ _ ↦ (parses_check true).bind
      fun _ _ ↦ parses_pure trivial
  · exact (parses_check true).bind fun _ _ ↦ parses_pure trivial

theorem parses_videoMeta (version : UInt8) :
    Parses D (fun m : VideoMeta ↦ m.chunks.length ≤ indexMaxVideoChunks)
      (readVideoMeta version) := by
  refine parses_u8.bind fun _ _ ↦ parses_u8.bind fun _ _ ↦ parses_u32.bind fun _ _ ↦
    parses_u32.bind fun _ _ ↦ parses_u64.bind fun _ _ ↦ parses_u64.bind fun _ _ ↦
    parses_u64.bind fun _ _ ↦ parses_u32.bind fun _ _ ↦ parses_u32.bind fun n _ ↦
    (parses_check _).bind fun _ hn ↦
    (parses_collect_fits (parses_videoChunk version) (of_decide_eq_true hn)).bind
    fun chunks hchunks ↦ parses_u64.bind fun _ _ ↦ parses_u64.bind fun _ _ ↦
    parses_ite (fun _ ↦ ?_) (fun _ ↦ ?_)
  · exact parses_flag.bind fun _ _ ↦ parses_id.bind fun _ _ ↦ (parses_check true).bind
      fun _ _ ↦ parses_pure hchunks.count
  · exact (parses_check true).bind fun _ _ ↦ parses_pure hchunks.count

theorem keeps_videoMeta (version : UInt8) : Keeps (readVideoMeta version) := by
  -- The last read before the result is checked on both branches, so nothing before it matters.
  refine Checked.keeps <| checked_bind fun _ ↦ checked_bind fun _ ↦ checked_bind fun _ ↦
    checked_bind fun _ ↦ checked_bind fun _ ↦ checked_bind fun _ ↦ checked_bind fun _ ↦
    checked_bind fun _ ↦ checked_bind fun _ ↦ checked_bind fun _ ↦ checked_bind fun _ ↦
    checked_bind fun _ ↦ checked_bind fun _ ↦ ?_
  split_ifs
  · exact checked_bind fun _ ↦ checked_bind fun _ ↦ checked_check_bind (keeps_pure _)
  · exact checked_check_bind (keeps_pure _)

/-- A header from a blob fits, and has no provenance. -/
theorem parses_header (version : UInt8) :
    Parses D (fun h : NodeHeader ↦ h.Fits ∧ h.carried = h) (readHeader version) := by
  refine parses_string.bind fun name hname ↦ (parses_since (fun _ ↦ parses_list _ _ parses_string)
    ⟨Nat.zero_le _, by simp, List.Pairwise.nil⟩).bind fun tags htags ↦
    (parses_since (P := fun _ ↦ True) (fun _ ↦ ?_) trivial).bind fun fav _ ↦
    (parses_since (P := fun _ ↦ True) (fun _ ↦ ?_) trivial).bind fun key _ ↦
    (parses_since (P := fun _ ↦ True) (fun _ ↦ ?_) trivial).bind fun id _ ↦
    parses_pure ⟨⟨hname, htags.count, htags.entries⟩, rfl⟩
  · exact parses_u8.bind fun _ _ ↦ (parses_check _).bind fun _ _ ↦ parses_pure trivial
  · exact parses_u8.bind fun _ _ ↦ (parses_check _).bind fun _ _ ↦ parses_pure trivial
  · exact parses_id.bind fun _ _ ↦ (parses_check _).bind fun _ _ ↦ parses_pure trivial

theorem keeps_header (version : UInt8) : Keeps (readHeader version) := by
  refine keeps_string.bind fun _ ↦ (keeps_since _ _ _ (keeps_list _ _ keeps_string)).bind
    fun _ ↦ (keeps_since _ _ _ ?_).bind fun _ ↦ (keeps_since _ _ _ ?_).bind fun _ ↦
    (keeps_since _ _ _ ?_).bind fun _ ↦ keeps_pure _
  all_goals exact Checked.keeps <| checked_bind fun _ ↦ checked_check_bind (keeps_pure _)

/-- What is known of a tree read with `left` levels allowed. -/
structure IndexNode.Read (left : ℕ) (t : IndexNode) : Prop where
  height : t.height < left
  fits : t.Fits
  carried : t.carried = t

theorem parses_readNode (version : UInt8) (left : ℕ) :
    Parses indexMaxDepth (IndexNode.Read left) (readNode version left) := by
  induction left with
  | zero => exact parses_allocate_refuse
  | succ left ih =>
    refine parses_node (Nat.sub_le _ _) parses_u8 token_u8 fun type _ ↦
      (parses_check _).bind fun _ _ ↦ (parses_header version).bind fun h ⟨hh, hc⟩ ↦ ?_
    refine parses_ite (fun _ ↦ ?_) fun _ ↦ parses_ite (fun _ ↦ ?_) fun _ ↦ ?_
    · refine (parses_imageMeta version).map _ fun m _ ↦ ⟨Nat.succ_pos _, ?_, ?_⟩
      · exact LeafTree.all_leaf.mpr ⟨hh, trivial⟩
      · rw [IndexNode.carried, LeafTree.mapLabel_leaf, hc]
    · refine (parses_videoMeta version).map _ fun m hm ↦ ⟨Nat.succ_pos _, ?_, ?_⟩
      · exact LeafTree.all_leaf.mpr ⟨hh, hm⟩
      · rw [IndexNode.carried, LeafTree.mapLabel_leaf, hc]
    · refine parses_u32.bind fun n _ ↦ (parses_check true).bind fun _ _ ↦ ?_
      have hchild : Parses indexMaxDepth (IndexNode.Read left)
          (check true >>= fun _ ↦ readNode version left) := (parses_check true).bind fun _ _ ↦ ih
      refine (parses_collect_fits hchild (Nat.le_of_lt_succ n.toNat_lt)).map _ fun cs hcs ↦ ?_
      refine ⟨?_, ?_, ?_⟩
      · exact Nat.lt_succ_of_le
          (LeafTree.height_branch_le_iff.mpr fun c hc ↦ (hcs.entries c hc).height)
      · exact LeafTree.all_branch.mpr ⟨⟨hh, Nat.lt_succ_of_le hcs.count⟩,
          fun c hc ↦ (hcs.entries c hc).fits⟩
      · rw [IndexNode.carried, LeafTree.mapLabel_branch, hc]
        congr 1
        exact (List.map_congr_left fun c hc ↦ (hcs.entries c hc).carried).trans (List.map_id' cs)

theorem keeps_readNode (version : UInt8) (left : ℕ) : Keeps (readNode version left) := by
  induction left with
  | zero => exact (checked_bind fun _ ↦ checked_refuse).keeps
  | succ left ih =>
    refine (checked_node fun type ↦ Checked.keeps <| checked_check_bind <|
      (keeps_header version).bind fun h ↦ keeps_ite ?_ (keeps_ite ?_ ?_)).keeps
    · exact (keeps_imageMeta version).bind fun _ ↦ keeps_pure _
    · exact (keeps_videoMeta version).bind fun _ ↦ keeps_pure _
    · exact Checked.keeps <| checked_bind fun _ ↦ checked_check_bind <|
        (keeps_collect (checked_check_bind ih).keeps _ _).bind fun _ ↦ keeps_pure _

/-! ## Searches and settings -/

theorem parses_savedSearch : Parses D SavedSearch.Fits readSavedSearch := by
  refine parses_string.bind fun name hname ↦ parses_u32.bind fun n _ ↦
    (parses_check _).bind fun _ hn ↦ parses_ite (fun _ ↦ ?_)
    (fun _ ↦ parses_pure ⟨hname, Nat.zero_le _⟩)
  exact (parses_bytes _).bind fun q hq ↦ (parses_check true).bind fun _ _ ↦
    parses_pure ⟨hname, hq.trans_le (of_decide_eq_true hn)⟩

theorem keeps_savedSearch : Keeps readSavedSearch := by
  refine keeps_string.bind fun _ ↦ Checked.keeps <| checked_bind fun _ ↦
    checked_check_bind (keeps_ite ?_ (keeps_pure _))
  exact Checked.keeps <| checked_bind fun _ ↦ checked_check_bind (keeps_pure _)

theorem parses_savedSearches : Parses D SavedSearch.Storable readSavedSearches :=
  (parses_list _ _ parses_savedSearch).mono fun _ h ↦ ⟨h.count, h.entries⟩

theorem parses_category (version : UInt8) : Parses D TagCategory.Fits (readCategory version) := by
  refine (parses_fieldStr _).bind fun name hname ↦ parses_u8.bind fun swatch _ ↦
    (parses_check _).bind fun _ hswatch ↦ (parses_since (P := ListFits indexMaxTemplateFields
      categoryNameEq fun f ↦ f.length ≤ indexMaxFieldBytes) (fun _ ↦ ?_)
    ⟨Nat.zero_le _, by simp, List.Pairwise.nil⟩).bind fun fields hfields ↦ parses_pure
    ⟨hname, of_decide_eq_true hswatch, hfields.count, hfields.entries, hfields.distinct⟩
  exact parses_u8.bind fun _ _ ↦ (parses_check _).bind fun _ hn ↦
    parses_collect_fits (parses_fieldStr _) (of_decide_eq_true hn)

theorem keeps_category (version : UInt8) : Keeps (readCategory version) := by
  refine (keeps_fieldStr _).bind fun _ ↦ Checked.keeps <| checked_bind fun _ ↦
    checked_check_bind <| (keeps_since _ _ _ ?_).bind fun _ ↦ keeps_pure _
  exact Checked.keeps <| checked_bind fun _ ↦
    checked_check_bind (keeps_collect (keeps_fieldStr _) _ _)

theorem parses_description : Parses D TagDescription.Fits readDescription :=
  parses_string.bind fun _ htag ↦ (parses_fieldStr _).bind fun _ htext ↦ parses_pure ⟨htag, htext⟩

theorem keeps_description : Keeps readDescription :=
  keeps_string.bind fun _ ↦ (keeps_fieldStr _).bind fun _ ↦ keeps_pure _

theorem parses_fieldValue : Parses D TagFieldValue.Fits readFieldValue :=
  (parses_fieldStr _).bind fun _ htag ↦ (parses_fieldStr _).bind fun _ hfield ↦
    (parses_fieldStr _).bind fun _ hvalue ↦ parses_pure ⟨htag, hfield, hvalue⟩

theorem keeps_fieldValue : Keeps readFieldValue :=
  (keeps_fieldStr _).bind fun _ ↦ (keeps_fieldStr _).bind fun _ ↦
    (keeps_fieldStr _).bind fun _ ↦ keeps_pure _

/-- What is known of the settings of a blob, whichever version ended the block. -/
structure VaultSettings.Read (s : VaultSettings) : Prop where
  storable : s.Storable
  carried : s.carried = s

theorem parses_settings (version : UInt8) :
    Parses D VaultSettings.Read (readSettings version) := by
  refine parses_u8.bind fun sort _ ↦ (parses_check _).bind fun _ _ ↦ parses_flag.bind
    fun tiles _ ↦ (parses_list _ _ (parses_category version)).bind fun cats hcats ↦ ?_
  refine parses_ite (fun _ ↦ parses_pure ⟨⟨hcats.count, hcats.entries, hcats.distinct,
    Nat.zero_le _, by simp, List.Pairwise.nil, Nat.zero_le _, by simp, List.Pairwise.nil,
    UInt8.zero_le⟩, rfl⟩) fun _ ↦ ?_
  refine (parses_list _ _ parses_description).bind fun descs hdescs ↦ ?_
  refine parses_ite (fun _ ↦ parses_pure ⟨⟨hcats.count, hcats.entries, hcats.distinct,
    hdescs.count, hdescs.entries, hdescs.distinct, Nat.zero_le _, by simp, List.Pairwise.nil,
    UInt8.zero_le⟩, rfl⟩) fun _ ↦ ?_
  refine parses_u8.bind fun mig _ ↦ (parses_check _).bind fun _ hmig ↦ parses_u16.bind fun _ _ ↦
    (parses_check true).bind fun _ _ ↦ ?_
  have hmig := of_decide_eq_true hmig
  refine parses_ite (fun _ ↦ parses_pure ⟨⟨hcats.count, hcats.entries, hcats.distinct,
    hdescs.count, hdescs.entries, hdescs.distinct, Nat.zero_le _, by simp, List.Pairwise.nil,
    hmig⟩, rfl⟩) fun _ ↦ ?_
  refine (parses_list _ _ parses_fieldValue).bind fun vals hvals ↦ ?_
  have hall (caps side : UInt16) : VaultSettings.Read
      { defaultSort := .ofByte sort, tilesShowTags := tiles, categories := cats,
        tagDescriptions := descs, migratedIndexVersion := mig, migratedProbeCaps := caps,
        tagFieldValues := vals, migratedThumbSide := side } :=
    ⟨⟨hcats.count, hcats.entries, hcats.distinct, hdescs.count, hdescs.entries, hdescs.distinct,
      hvals.count, hvals.entries, hvals.distinct, hmig⟩, rfl⟩
  exact parses_ite (fun _ ↦ parses_pure (hall _ _)) fun _ ↦ parses_u16.bind fun _ _ ↦
    (parses_check true).bind fun _ _ ↦ parses_pure (hall _ _)

theorem keeps_settings (version : UInt8) : Keeps (readSettings version) := by
  refine Checked.keeps <| checked_bind fun _ ↦ checked_check_bind <| keeps_flag.bind fun _ ↦
    (keeps_list _ _ (keeps_category version)).bind fun _ ↦ keeps_ite (keeps_pure _) ?_
  refine (keeps_list _ _ keeps_description).bind fun _ ↦ keeps_ite (keeps_pure _) ?_
  refine Checked.keeps <| checked_bind fun _ ↦ checked_bind fun _ ↦ checked_bind fun _ ↦
    checked_check_bind <| keeps_ite (keeps_pure _) ?_
  refine (keeps_list _ _ keeps_fieldValue).bind fun _ ↦ keeps_ite (keeps_pure _) ?_
  exact Checked.keeps <| checked_bind fun _ ↦ checked_check_bind (keeps_pure _)

theorem VaultSettings.storable_seeded : VaultSettings.seeded.Storable where
  categoryCount := by decide
  categories := by
    intro c hc
    simp only [VaultSettings.seeded, List.mem_cons, List.not_mem_nil, or_false] at hc
    rcases hc with rfl | rfl | rfl | rfl | rfl | rfl | rfl | rfl <;>
      exact ⟨by decide, by decide, by decide, by simp, List.Pairwise.nil⟩
  categoriesDistinct := by
    rw [Distinct]
    decide
  descriptionCount := Nat.zero_le _
  descriptions := by simp [VaultSettings.seeded]
  descriptionsDistinct := List.Pairwise.nil
  valueCount := Nat.zero_le _
  values := by simp [VaultSettings.seeded]
  valuesDistinct := List.Pairwise.nil
  migrated := by decide

/-! ## The whole blob -/

/-- What is known of an index read from a blob. -/
structure Index.Read (x : Index) : Prop where
  storable : x.Storable
  carried : x.carried = x

/-- The blob after its version byte. -/
def readBody (version : UInt8) : ByteReader Index := do
  check (1 ≤ version && version ≤ indexVersion)
  let root ← readNode version (indexMaxDepth + 1)
  let searches ← since 5 version readSavedSearches []
  let settings ← since 8 version (readSettings version) .seeded
  pure { root, searches, settings }

theorem readIndex_eq : readIndex = ByteReader.u8 >>= readBody := rfl

theorem parses_body (version : UInt8) : Parses indexMaxDepth Index.Read (readBody version) := by
  refine (parses_check _).bind fun _ _ ↦ (parses_readNode version _).bind fun root hroot ↦
    (parses_since (fun _ ↦ parses_savedSearches) ⟨Nat.zero_le _, by simp⟩).bind
    fun searches hsearches ↦ (parses_since (fun _ ↦ parses_settings version)
    ⟨VaultSettings.storable_seeded, rfl⟩).bind fun settings hsettings ↦ parses_pure ⟨?_, ?_⟩
  · exact ⟨⟨Nat.le_of_lt_succ hroot.height, hroot.fits⟩, hsearches, hsettings.storable⟩
  · rw [Index.carried, hroot.carried, hsettings.carried]

theorem parses_index : Parses indexMaxDepth Index.Read readIndex :=
  parses_u8.bind fun version _ ↦ parses_body version

theorem checked_index : Checked readIndex :=
  checked_bind fun version ↦ checked_check_bind <| (keeps_readNode version _).bind fun _ ↦
    (keeps_since _ _ _ (keeps_list _ _ keeps_savedSearch)).bind fun _ ↦
    (keeps_since _ _ _ (keeps_settings version)).bind fun _ ↦ keeps_pure _

theorem deserializeIndex_eq_some_iff {blob : Bytes} {x : Index} :
    deserializeIndex blob = some x ↔ Frames readIndex blob x :=
  whole_start_eq_some_iff parses_index checked_index

/-- Whatever a blob decodes to can be written again without loss. -/
theorem read_of_deserializeIndex {blob : Bytes} {x : Index} (h : deserializeIndex blob = some x) :
    x.Read := by
  have hrun : runIndex blob = (some x, (runIndex blob).2) := Prod.ext h rfl
  exact parses_index.yields (whole_eq_some_iff.mp hrun).1

theorem deserializeIndex_serializeIndex {x : Index} (h : x.Storable) :
    deserializeIndex (serializeIndex x.root x.searches x.settings) = some x.carried :=
  deserializeIndex_eq_some_iff.mpr (frames_index h)

/-- Nothing beyond the limits survives: what came back is within them, and the limits only see what
the format carries. -/
theorem storable_of_deserializeIndex_serializeIndex {x : Index}
    (h : deserializeIndex (serializeIndex x.root x.searches x.settings) = some x.carried) :
    x.Storable :=
  Index.storable_carried.mp (read_of_deserializeIndex h).storable

/-- **Saving is lossless exactly on storable indexes.** The blob of an index decodes to the index,
up to what the format does not carry, if and only if the index is within the limits. -/
theorem roundTrip_iff_storable (root : IndexNode) (searches : List SavedSearch)
    (settings : VaultSettings) :
    deserializeIndex (serializeIndex root searches settings) =
        some ⟨root.carried, searches, settings.carried⟩ ↔
      Index.Storable ⟨root, searches, settings⟩ :=
  ⟨storable_of_deserializeIndex_serializeIndex (x := ⟨root, searches, settings⟩),
    deserializeIndex_serializeIndex (x := ⟨root, searches, settings⟩)⟩

/-! ## Bounds and stability -/

theorem runIndex_snd (blob : Bytes) : (runIndex blob).2 = (readIndex (start blob)).2 :=
  whole_snd _

theorem touched_runIndex_le (blob : Bytes) : (runIndex blob).2.touched ≤ blob.length := by
  obtain ⟨hin, -, hrange, -⟩ := parses_index.safe (start blob)
  have h := (hrange ⟨Nat.zero_le _, Nat.zero_le _⟩).2
  rwa [hin, ← runIndex_snd] at h

theorem deepest_runIndex_le (blob : Bytes) : (runIndex blob).2.deepest ≤ indexMaxDepth := by
  have h := (parses_index.safe (start blob)).2.2.2
  rw [← runIndex_snd] at h
  exact h.trans (max_le (Nat.zero_le _) (le_refl _))

/-- The version byte is read before any node is allocated, and pays for the node that a failing
parse may have allocated without reading anything of it. -/
theorem created_runIndex_le (blob : Bytes) : (runIndex blob).2.created ≤ blob.length := by
  obtain ⟨version, c₁, hu8, hcreated, hadv⟩ := token_u8 (start blob)
  have hrun : readIndex (start blob) = readBody version c₁ := by
    rw [readIndex_eq, bind_apply_some hu8]
  have hin : c₁.input = blob := by
    have h := (parses_u8 (D := indexMaxDepth)).safe (start blob)
    rw [hu8] at h
    exact h.1
  have hrange₁ : c₁.InRange := by
    have h := (parses_u8 (D := indexMaxDepth)).safe (start blob)
    rw [hu8] at h
    exact h.2.2.1 ⟨Nat.zero_le _, Nat.zero_le _⟩
  rw [runIndex_snd, hrun]
  by_cases hok : c₁.ok = true
  · obtain ⟨hin₂, -, hrange₂, -⟩ := (parses_body version).safe c₁
    have hpay := (parses_body version).thrifty (Prod.ext rfl rfl :
      readBody version c₁ = ((readBody version c₁).1, (readBody version c₁).2))
    have hpos : 0 < c₁.pos := hadv hok
    have hend := (hrange₂ hrange₁).1
    rw [hin₂, hin] at hend
    have hzero : c₁.created = 0 := hcreated
    split_ifs at hpay <;> omega
  · have hcheck : readBody version c₁ = (none, c₁) := by
      refine bind_eq_none.mpr (Or.inl ?_)
      rw [check, if_neg]
      rw [Bool.and_eq_true]
      exact fun h ↦ hok h.1
    rw [hcheck, hcreated]
    exact Nat.zero_le _

theorem deserializeIndex_append_eq_none {blob ext : Bytes} {x : Index}
    (h : deserializeIndex blob = some x) (hext : ext ≠ []) :
    deserializeIndex (blob ++ ext) = none :=
  whole_append_eq_none parses_index checked_index h hext

theorem deserializeIndex_prefix_eq_none {blob p : Bytes} {x : Index}
    (h : deserializeIndex blob = some x) (hp : p <+: blob) (hne : p ≠ blob) :
    deserializeIndex p = none := by
  obtain ⟨ext, rfl⟩ := hp
  rw [Option.eq_none_iff_forall_ne_some]
  intro y hy
  have hext : ext ≠ [] := by
    rintro rfl
    exact hne (List.append_nil p).symm
  rw [deserializeIndex_append_eq_none hy hext] at h
  exact absurd h (by simp)

/-- **Decoding is bounded, exact and stable.** On every byte string the decoder stays inside the
bytes, within the depth limit, and allocates at most one node a byte. An accepted string has no
accepted proper prefix or extension, and what it decodes to survives being written and read. -/
theorem decoding_bounded_and_stable (blob : Bytes) :
    (runIndex blob).2.touched ≤ blob.length ∧
    (runIndex blob).2.deepest ≤ indexMaxDepth ∧
    (runIndex blob).2.created ≤ blob.length ∧
    ∀ x, deserializeIndex blob = some x →
      (∀ p, p <+: blob → p ≠ blob → deserializeIndex p = none) ∧
      (∀ ext, ext ≠ [] → deserializeIndex (blob ++ ext) = none) ∧
      deserializeIndex (serializeIndex x.root x.searches x.settings) = some x := by
  refine ⟨touched_runIndex_le blob, deepest_runIndex_le blob, created_runIndex_le blob, ?_⟩
  intro x hx
  refine ⟨fun p ↦ deserializeIndex_prefix_eq_none hx, fun _ ↦ deserializeIndex_append_eq_none hx,
    ?_⟩
  obtain ⟨hstorable, hcarried⟩ := read_of_deserializeIndex hx
  rw [deserializeIndex_serializeIndex hstorable, hcarried]

end SafeVault
