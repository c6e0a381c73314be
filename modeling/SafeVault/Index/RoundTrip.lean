import SafeVault.Index.Limits

/-!
# Writing and reading back

A storable index is read back from its blob, up to what the format does not carry. The proof goes
through the writer and the reader side by side: for each pair of functions, the reader steps over
exactly the bytes the writer emitted and returns what was written, whatever follows. The tree is an
induction with the levels left as a parameter, so that the height of a subtree and the depth of its
call meet.
-/

namespace SafeVault

open Read

/-! ## Strings and lists -/

theorem frames_str {cap : ℕ} (hcap : cap ≤ 0xFFFF) {s : Bytes} (h : s.length ≤ cap) :
    Frames (readFieldStr cap) (ByteWriter.str cap s) s := by
  have hlen : (UInt16.ofNat s.length).toNat = s.length :=
    UInt16.toNat_ofNat_of_lt' (by simp only [UInt16.size]; omega)
  rw [ByteWriter.str, min_eq_left h, List.take_of_length_le h]
  refine (frames_u16 _).bind ((frames_check (by simpa [hlen] using h)).bind_nil ?_)
  rw [hlen]
  split_ifs with hpos
  · exact (frames_bytes s).bind_last ((frames_check rfl).bind_nil (frames_pure s))
  · rw [List.eq_nil_of_length_eq_zero (Nat.eq_zero_of_not_pos hpos)]
    exact frames_pure []

/-- A string without a cap of its own is a string with the cap of its length field. -/
theorem readString_eq : readString = readFieldStr 0xFFFF := by
  have h (len : UInt16) : decide (len.toNat ≤ 0xFFFF) = true :=
    decide_eq_true (Nat.le_of_lt_succ len.toNat_lt)
  simp only [readString, readFieldStr, h]

theorem frames_string {s : Bytes} (h : s.length ≤ 0xFFFF) :
    Frames readString (ByteWriter.str 0xFFFF s) s := by
  rw [readString_eq]
  exact frames_str (le_refl _) h

theorem frames_list {α : Type} {cap : ℕ} (hcap : cap ≤ 0xFFFF) {same : α → α → Bool}
    {m : ByteReader α} {w : α → Bytes} {xs : List α} (h : xs.length ≤ cap)
    (hm : ∀ a ∈ xs, Frames m (w a) a) (hsame : Distinct same xs) :
    Frames (readList cap same m) (ByteWriter.list cap w xs) xs := by
  have hlen : (UInt16.ofNat xs.length).toNat = xs.length :=
    UInt16.toNat_ofNat_of_lt' (by simp only [UInt16.size]; omega)
  rw [ByteWriter.list, min_eq_left h, List.take_of_length_le h]
  refine (frames_u16 _).bind ((frames_check (by simpa [hlen] using h)).bind_nil ?_)
  rw [hlen]
  exact frames_collect w hm hsame

/-- Lists whose entries are all kept are distinct in the trivial sense. -/
theorem distinct_false {α : Type} (xs : List α) : Distinct (fun _ _ ↦ false) xs :=
  List.pairwise_of_forall fun _ _ ↦ rfl

theorem since_of_le {α : Type} {first version : UInt8} (h : version ≥ first) (m : ByteReader α)
    (dflt : α) : since first version m dflt = m := if_pos h

/-! ## Nodes -/

theorem frames_flag (b : Bool) : Frames readFlag (ByteWriter.flag b) b := by
  refine (frames_u8 _).bind_last ((frames_check ?_).bind_nil ?_)
  · cases b <;> rfl
  · cases b <;> exact frames_pure _

theorem frames_imageMeta (m : ImageMeta) :
    Frames (readImageMeta indexVersion) (writeImageMeta m) m := by
  have h7 : indexVersion ≥ 7 := by decide
  have h13 : indexVersion ≥ 13 := by decide
  simp only [readImageMeta, writeImageMeta, List.append_assoc, since_of_le h7, if_pos h13]
  exact (frames_u8 _).bind <| (frames_u32 _).bind <| (frames_u32 _).bind <| (frames_u64 _).bind <|
    (frames_u64 _).bind <| (frames_u64 _).bind <| (frames_u64 _).bind <| (frames_u64 _).bind <|
    (frames_u64 _).bind <| (frames_check rfl).bind_nil <| (frames_flag _).bind <|
    (frames_flag _).bind <| (frames_id _).bind <| (frames_id _).bind_last <|
    (frames_check rfl).bind_nil <| frames_pure m

theorem frames_videoChunk (c : VideoChunk) :
    Frames (readVideoChunk indexVersion) (writeVideoChunk c) c := by
  have h13 : indexVersion ≥ 13 := by decide
  simp only [readVideoChunk, writeVideoChunk, List.append_assoc, if_pos h13]
  exact (frames_u64 _).bind <| (frames_u64 _).bind <| (frames_u32 _).bind <|
    (frames_id _).bind_last <| (frames_check rfl).bind_nil <| frames_pure c

theorem frames_videoMeta {m : VideoMeta} (h : m.chunks.length ≤ indexMaxVideoChunks) :
    Frames (readVideoMeta indexVersion) (writeVideoMeta m) m := by
  have h13 : indexVersion ≥ 13 := by decide
  have hlen : (UInt32.ofNat m.chunks.length).toNat = m.chunks.length :=
    UInt32.toNat_ofNat_of_lt' (lt_of_le_of_lt h (by decide))
  have hchunks : Frames (collect (fun _ _ ↦ false) (readVideoChunk indexVersion)
      (UInt32.ofNat m.chunks.length).toNat []) (m.chunks.flatMap writeVideoChunk) m.chunks := by
    rw [hlen]
    exact frames_collect writeVideoChunk (fun c _ ↦ frames_videoChunk c) (distinct_false _)
  simp only [readVideoMeta, writeVideoMeta, List.append_assoc, if_pos h13, min_eq_left h,
    List.take_of_length_le h]
  exact (frames_u8 _).bind <| (frames_u8 _).bind <| (frames_u32 _).bind <| (frames_u32 _).bind <|
    (frames_u64 _).bind <| (frames_u64 _).bind <| (frames_u64 _).bind <| (frames_u32 _).bind <|
    (frames_u32 _).bind <| (frames_check (by simpa [hlen] using h)).bind_nil <| hchunks.bind <|
    (frames_u64 _).bind <| (frames_u64 _).bind <| (frames_flag _).bind <|
    (frames_id _).bind_last <| (frames_check rfl).bind_nil <| frames_pure m

theorem frames_sortKey (k : SortKey) :
    Frames (readSortKey indexVersion) (ByteWriter.u8 k.toByte) k := by
  have h8 : indexVersion ≥ 8 := by decide
  simp only [readSortKey, if_pos h8]
  refine (frames_u8 _).bind_last ((frames_check (decide_eq_true k.toByte_le)).bind_nil ?_)
  rw [SortKey.ofByte_toByte]
  exact frames_pure k

theorem frames_favorite (b : Bool) : Frames readFavorite (ByteWriter.flag b) b := by
  refine (frames_u8 _).bind_last ((frames_check rfl).bind_nil ?_)
  cases b <;> exact frames_pure _

theorem frames_nodeId (v : NodeId) : Frames readNodeId (ByteWriter.id v) v :=
  (frames_id v).bind_last ((frames_check rfl).bind_nil (frames_pure v))

/-- A header reads back without its provenance. -/
theorem frames_header {h : NodeHeader} (hfit : h.Fits) :
    Frames (readHeader indexVersion) (writeHeader h) h.carried := by
  have h2 : indexVersion ≥ 2 := by decide
  have h3 : indexVersion ≥ 3 := by decide
  have h6 : indexVersion ≥ 6 := by decide
  have h13 : indexVersion ≥ 13 := by decide
  have htags : Frames readTags (ByteWriter.list indexMaxTags (ByteWriter.str 0xFFFF) h.tags)
      h.tags :=
    frames_list (by decide) hfit.tagCount (fun t ht ↦ frames_string (hfit.tags t ht))
      (distinct_false _)
  simp only [readHeader, writeHeader, List.append_assoc, since_of_le h2, since_of_le h3,
    since_of_le h6, since_of_le h13]
  exact (frames_string hfit.name).bind <| htags.bind <| (frames_favorite _).bind <|
    (frames_sortKey _).bind <| (frames_nodeId _).bind_last <| frames_pure h.carried

@[simp] theorem writeNode_branch (h : NodeHeader) (cs : List IndexNode) :
    writeNode (.branch h cs) = ByteWriter.u8 0 ++ writeHeader h ++
      ByteWriter.u32 (UInt32.ofNat cs.length) ++ cs.flatMap writeNode := by
  rw [writeNode, LeafTree.fold_branch, List.length_map, List.flatMap_def]

/-- **A tree reads back.** Any tree that fits and is no higher than the levels left below the call
is read from its own bytes. -/
theorem frames_readNode {t : IndexNode} {left : ℕ} (hfit : t.Fits) (hheight : t.height ≤ left) :
    Frames (readNode indexVersion (left + 1)) (writeNode t) t.carried := by
  induction t using LeafTree.ind generalizing left with
  | leaf h m =>
    obtain ⟨hh, hm⟩ := LeafTree.all_leaf.mp hfit
    cases m with
    | image img =>
      change Frames _ (ByteWriter.u8 1 ++ writeHeader h ++ writeImageMeta img) _
      rw [List.append_assoc, readNode]
      refine frames_node (frames_u8 1) ((frames_check rfl).bind_nil ((frames_header hh).bind ?_))
      exact (frames_imageMeta img).bind_last (frames_pure _)
    | video vid =>
      change Frames _ (ByteWriter.u8 2 ++ writeHeader h ++ writeVideoMeta vid) _
      rw [List.append_assoc, readNode]
      refine frames_node (frames_u8 2) ((frames_check rfl).bind_nil ((frames_header hh).bind ?_))
      exact (frames_videoMeta hm).bind_last (frames_pure _)
  | branch h cs ih =>
    obtain ⟨⟨hh, hcount⟩, hcs⟩ := LeafTree.all_branch.mp hfit
    have hlow := LeafTree.height_branch_le_iff.mp hheight
    have hlen : (UInt32.ofNat cs.length).toNat = cs.length := UInt32.toNat_ofNat_of_lt' hcount
    have hchildren : Frames (collect (fun _ _ ↦ false)
        (check true >>= fun _ ↦ readNode indexVersion left) (UInt32.ofNat cs.length).toNat [])
        (cs.flatMap writeNode) ([] ++ cs.map IndexNode.carried) := by
      rw [hlen]
      refine frames_collect_map writeNode IndexNode.carried [] (fun c hc ↦ ?_) (distinct_false _)
      -- A child is lower than its parent, so at least one level is left for it.
      obtain ⟨left', rfl⟩ := Nat.exists_eq_add_of_lt (Nat.zero_lt_of_lt (hlow c hc))
      rw [Nat.zero_add]
      exact (frames_check rfl).bind_nil
        (ih c hc (hcs c hc) (Nat.le_of_lt_succ (by simpa using hlow c hc)))
    rw [writeNode_branch, List.append_assoc, List.append_assoc, readNode]
    refine frames_node (frames_u8 0) ((frames_check rfl).bind_nil ((frames_header hh).bind ?_))
    refine (frames_u32 _).bind ((frames_check rfl).bind_nil (hchildren.bind_last ?_))
    rw [List.nil_append, IndexNode.carried, LeafTree.mapLabel_branch]
    exact frames_pure _

/-! ## Searches and settings -/

theorem frames_savedSearch {s : SavedSearch} (h : s.Fits) :
    Frames readSavedSearch (writeSavedSearch s) s := by
  have hlen : (UInt32.ofNat s.query.length).toNat = s.query.length :=
    UInt32.toNat_ofNat_of_lt' (lt_of_le_of_lt h.query (by decide))
  simp only [readSavedSearch, writeSavedSearch, List.append_assoc, min_eq_left h.query,
    List.take_of_length_le h.query]
  refine (frames_string h.name).bind <| (frames_u32 _).bind <|
    (frames_check (by simpa [hlen] using h.query)).bind_nil ?_
  rw [hlen]
  split_ifs with hpos
  · exact (frames_bytes s.query).bind_last <| (frames_check rfl).bind_nil <| frames_pure s
  · have hnil := List.eq_nil_of_length_eq_zero (Nat.eq_zero_of_not_pos hpos)
    have hs : s = ⟨s.name, []⟩ := by rw [← hnil]
    rw [hnil, ← hs]
    exact frames_pure s

theorem frames_savedSearches {searches : List SavedSearch}
    (h : SavedSearch.Storable searches) :
    Frames readSavedSearches (writeSavedSearches searches) searches :=
  frames_list (by decide) h.count (fun s hs ↦ frames_savedSearch (h.fits s hs)) (distinct_false _)

theorem frames_category {c : TagCategory} (h : c.Fits) :
    Frames (readCategory indexVersion) (writeCategory c) c := by
  have h11 : indexVersion ≥ 11 := by decide
  have hlen : (UInt8.ofNat c.fields.length).toNat = c.fields.length :=
    UInt8.toNat_ofNat_of_lt' (lt_of_le_of_lt h.fieldCount (by decide))
  have hfields : Frames readCategoryFieldsV11 (ByteWriter.u8 (UInt8.ofNat c.fields.length) ++
      c.fields.flatMap (ByteWriter.str indexMaxFieldBytes)) c.fields := by
    refine (frames_u8 _).bind ((frames_check (by simpa [hlen] using h.fieldCount)).bind_nil ?_)
    rw [hlen]
    exact frames_collect _ (fun f hf ↦ frames_str (by decide) (h.fields f hf)) h.distinct
  simp only [readCategory, writeCategory, List.append_assoc, since_of_le h11, if_pos h.swatch,
    min_eq_left h.fieldCount, List.take_of_length_le h.fieldCount]
  exact (frames_str (by decide) h.name).bind <| (frames_u8 _).bind <|
    (frames_check (decide_eq_true h.swatch)).bind_nil <| hfields.bind_last <| frames_pure c

theorem frames_description {d : TagDescription} (h : d.Fits) :
    Frames readDescription (writeDescription d) d :=
  (frames_string h.tag).bind <| (frames_str (by decide) h.text).bind_last <| frames_pure d

theorem frames_fieldValue {e : TagFieldValue} (h : e.Fits) :
    Frames readFieldValue (writeFieldValue e) e := by
  rw [writeFieldValue, List.append_assoc]
  exact (frames_str (le_refl _) h.tag).bind <| (frames_str (by decide) h.field).bind <|
    (frames_str (by decide) h.value).bind_last <| frames_pure e

theorem frames_settings {s : VaultSettings} (h : s.Storable) :
    Frames (readSettings indexVersion) (writeSettings s) s.carried := by
  have h9 : ¬ indexVersion < 9 := by decide
  have h10 : ¬ indexVersion < 10 := by decide
  have h11 : ¬ indexVersion < 11 := by decide
  have h12 : ¬ indexVersion < 12 := by decide
  have hmig : ¬ s.migratedIndexVersion > indexVersion := UInt8.not_lt.mpr h.migrated
  have hcats : Frames (readCategories indexVersion) (writeCategoriesBlock s.categories)
      s.categories :=
    frames_list (by decide) h.categoryCount (fun c hc ↦ frames_category (h.categories c hc))
      h.categoriesDistinct
  have hdescs : Frames readDescriptions (writeDescriptionsBlock s.tagDescriptions)
      s.tagDescriptions :=
    frames_list (by decide) h.descriptionCount
      (fun d hd ↦ frames_description (h.descriptions d hd)) h.descriptionsDistinct
  have hvals : Frames readFieldValues (writeFieldValuesBlock s.tagFieldValues)
      s.tagFieldValues :=
    frames_list (by decide) h.valueCount (fun e he ↦ frames_fieldValue (h.values e he))
      h.valuesDistinct
  simp only [readSettings, writeSettings, List.append_assoc, if_neg h9, if_neg h10, if_neg h11,
    if_neg h12, if_neg hmig]
  refine (frames_u8 _).bind <| (frames_check (decide_eq_true s.defaultSort.toByte_le)).bind_nil <|
    (frames_flag _).bind <| hcats.bind <| hdescs.bind <| (frames_u8 _).bind <|
    (frames_check (decide_eq_true h.migrated)).bind_nil <| (frames_u16 _).bind <|
    (frames_check rfl).bind_nil <| hvals.bind <| (frames_u16 _).bind_last <|
    (frames_check rfl).bind_nil ?_
  rw [SortKey.ofByte_toByte]
  exact frames_pure s.carried

/-! ## The whole blob -/

theorem frames_index {x : Index} (h : x.Storable) :
    Frames readIndex (serializeIndex x.root x.searches x.settings) x.carried := by
  have h5 : indexVersion ≥ 5 := by decide
  have h8 : indexVersion ≥ 8 := by decide
  rw [serializeIndex, List.append_assoc, List.append_assoc]
  refine (frames_u8 indexVersion).bind ((frames_check rfl).bind_nil ?_)
  rw [since_of_le h5, since_of_le h8]
  exact (frames_readNode h.root.fits h.root.height).bind <|
    (frames_savedSearches h.searches).bind <| (frames_settings h.settings).bind_last <|
    frames_pure x.carried

end SafeVault
