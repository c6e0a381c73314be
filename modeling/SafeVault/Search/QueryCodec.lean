import SafeVault.Index.Decode
import SafeVault.Lib.Spelling
import SafeVault.Search.Query

/-!
# Which blobs are queries

A query within the limits is read back from its blob. Conversely an accepted blob is that of the
query it reads as, except that the bytes of the enumerations need not be the ones the writer uses: so
writing the query again replaces exactly these bytes, and changes nothing when they are in range.
-/

namespace SafeVault

open Read

/-! ## Limits -/

structure TagGroup.Fits (g : TagGroup) : Prop where
  name : g.name.length ≤ Query.maxStrlen
  count : g.tags.length ≤ Query.maxList
  tags : ∀ t ∈ g.tags, t.length ≤ Query.maxStrlen

/-- Within the limits of the format. -/
structure AdvancedQuery.Fits (q : AdvancedQuery) : Prop where
  includeCount : q.includes.length ≤ Query.maxList
  includes : ∀ t ∈ q.includes, t.tag.length ≤ Query.maxStrlen
  excludeCount : q.excludes.length ≤ Query.maxList
  excludes : ∀ t ∈ q.excludes, t.length ≤ Query.maxStrlen
  groupCount : q.groups.length ≤ Query.maxList
  groups : ∀ g ∈ q.groups, g.Fits
  nameQuery : q.nameQuery.length ≤ Query.maxStrlen

namespace Query

/-! ## Reading back -/

theorem frames_queryString {s : Bytes} (h : s.length ≤ maxStrlen) :
    Frames readString (writeString s) s := frames_string h

theorem frames_stringList {xs : List Bytes} (hcount : xs.length ≤ maxList)
    (h : ∀ s ∈ xs, s.length ≤ maxStrlen) :
    Frames readStringList (ByteWriter.list maxList writeString xs) xs :=
  frames_list (by decide) hcount (fun s hs ↦ frames_queryString (h s hs)) (distinct_false _)

theorem frames_combinator (c : Combinator) :
    Frames readCombinator (ByteWriter.u8 c.toByte) c := by
  have h := (frames_u8 c.toByte).bind_pure Combinator.ofByte
  rwa [Combinator.ofByte_toByte] at h

theorem frames_weightedTag {t : WeightedTag} (h : t.tag.length ≤ maxStrlen) :
    Frames readWeightedTag (writeWeightedTag t) t := by
  refine (frames_queryString h).bind ((frames_u32 _).bind_last ((frames_check rfl).bind_nil ?_))
  rw [Int32.toInt32_toUInt32]
  exact frames_pure t

theorem frames_group {g : TagGroup} (h : g.Fits) : Frames readGroup (writeGroup g) g := by
  rw [writeGroup, writeGroupAs, List.append_assoc]
  exact (frames_queryString h.name).bind <| (frames_combinator _).bind <|
    (frames_check rfl).bind_nil <| (frames_stringList h.count h.tags).bind_last (frames_pure g)

theorem frames_query {q : AdvancedQuery} (h : q.Fits) :
    Frames readQuery (serializeQuery q) q := by
  have hinc : Frames readWeightedList (ByteWriter.list maxList writeWeightedTag q.includes)
      q.includes :=
    frames_list (by decide) h.includeCount (fun t ht ↦ frames_weightedTag (h.includes t ht))
      (distinct_false _)
  have hgroups : Frames readGroups (ByteWriter.list maxList writeGroup q.groups) q.groups :=
    frames_list (by decide) h.groupCount (fun g hg ↦ frames_group (h.groups g hg))
      (distinct_false _)
  simp only [serializeQuery, List.append_assoc]
  refine (frames_u8 _).bind <| (frames_check rfl).bind_nil <| hinc.bind <|
    (frames_stringList h.excludeCount h.excludes).bind <| hgroups.bind <|
    (frames_combinator _).bind <| (frames_check rfl).bind_nil <|
    (frames_queryString h.nameQuery).bind <| (frames_u8 _).bind_last <|
    (frames_check rfl).bind_nil ?_
  rw [SearchScope.ofByte_toByte]
  exact frames_pure q

/-! ## The block of a result

Each reader of the format spells what its writer writes; only the enumerations have several bytes. -/

theorem spells_u8 : Spells ByteReader.u8 fun v bs ↦ bs = ByteWriter.u8 v := by
  refine (spells_take 0 1).bind fun a ↦ spells_pure ?_
  rintro bs ⟨rfl, hlen⟩
  obtain ⟨b, rfl⟩ := List.length_eq_one_iff.mp hlen
  rfl

theorem spells_word {α : Type} {n : ℕ} {f : ℕ → α} {g : α → ℕ} (hg : ∀ v < 256 ^ n, g (f v) = v) :
    Spells (ByteReader.word n f) fun a bs ↦ bs = LittleEndian.encode n (g a) := by
  refine (spells_take 0 n).bind fun a ↦ spells_pure ?_
  rintro bs ⟨rfl, rfl⟩
  rw [List.append_nil, hg _ (LittleEndian.decode_lt bs), LittleEndian.encode_decode]

theorem spells_u16 : Spells ByteReader.u16 fun v bs ↦ bs = ByteWriter.u16 v :=
  spells_word fun v hv ↦ by rw [UInt16.toNat_ofNat_of_lt' hv]

theorem spells_u32 : Spells ByteReader.u32 fun v bs ↦ bs = ByteWriter.u32 v :=
  spells_word fun v hv ↦ by rw [UInt32.toNat_ofNat_of_lt' hv]

theorem spells_string : Spells readString fun s bs ↦
    s.length ≤ maxStrlen ∧ bs = writeString s := by
  refine spells_u16.bind fun len ↦ spells_check_bind ?_
  have hlen : len.toNat ≤ maxStrlen := Nat.le_of_lt_succ len.toNat_lt
  split_ifs with hpos
  · refine (spells_take 0 _).bind fun s ↦ spells_check_bind (spells_pure ?_)
    rintro - bs ⟨rfl, hs⟩ - bs' rfl
    refine ⟨hs ▸ hlen, ?_⟩
    rw [writeString, ByteWriter.str, hs, min_eq_left hlen, UInt16.ofNat_toNat,
      List.take_of_length_le (hs ▸ hlen), List.append_nil]
  · refine spells_pure ?_
    rintro - bs rfl
    have hzero : len = 0 := UInt16.toNat_inj.mp (Nat.eq_zero_of_not_pos hpos)
    rw [hzero]
    exact ⟨Nat.zero_le _, rfl⟩

theorem spells_list {α : Type} {cap : ℕ} {m : ByteReader α} {R : α → Bytes → Prop}
    (hm : Spells m R) : Spells (readList cap (fun _ _ ↦ false) m) fun xs bs ↦
      xs.length ≤ cap ∧ ∃ blocks, bs = ByteWriter.u16 (UInt16.ofNat xs.length) ++ blocks.flatten ∧
        List.Forall₂ R xs blocks := by
  refine spells_u16.bind fun count ↦ spells_check_bind ((spells_collect hm _ _).mono ?_)
  rintro xs bs' ⟨new, blocks, rfl, hlen, rfl, hall⟩ hcap bs rfl
  rw [hlen, UInt16.ofNat_toNat]
  exact ⟨of_decide_eq_true hcap, blocks, rfl, hall⟩

/-- Blocks that are written by one function. -/
theorem flatten_of_forall₂ {α : Type} {w : α → Bytes} {P : α → Prop} {xs : List α}
    {blocks : List Bytes} (h : List.Forall₂ (fun x b ↦ P x ∧ b = w x) xs blocks) :
    blocks.flatten = xs.flatMap w ∧ ∀ x ∈ xs, P x := by
  induction h with
  | nil => simp
  | cons hx _ ih =>
    obtain ⟨hP, rfl⟩ := hx
    refine ⟨by rw [List.flatten_cons, List.flatMap_cons, ih.1], ?_⟩
    rintro y (_ | ⟨_, hy⟩)
    exacts [hP, ih.2 y hy]

/-- A list of entries that have one spelling each. -/
theorem spells_list_of_unique {α : Type} {cap : ℕ} {m : ByteReader α} {w : α → Bytes}
    {P : α → Prop} (hm : Spells m fun x bs ↦ P x ∧ bs = w x) :
    Spells (readList cap (fun _ _ ↦ false) m) fun xs bs ↦
      (xs.length ≤ cap ∧ ∀ x ∈ xs, P x) ∧ bs = ByteWriter.list cap w xs := by
  refine (spells_list hm).mono ?_
  rintro xs bs ⟨hcap, blocks, rfl, hall⟩
  obtain ⟨hflat, hP⟩ := flatten_of_forall₂ hall
  refine ⟨⟨hcap, hP⟩, ?_⟩
  rw [hflat, ByteWriter.list, min_eq_left hcap, List.take_of_length_le hcap]

theorem spells_combinator : Spells readCombinator fun c bs ↦
    ∃ b, Combinator.ofByte b = c ∧ bs = ByteWriter.u8 b := by
  refine spells_u8.bind fun b ↦ spells_pure ?_
  rintro bs rfl
  exact ⟨b, rfl, List.append_nil _⟩

theorem spells_weightedTag : Spells readWeightedTag fun t bs ↦
    t.tag.length ≤ maxStrlen ∧ bs = writeWeightedTag t := by
  refine spells_string.bind fun tag ↦ spells_u32.bind fun weight ↦
    spells_check_bind (spells_pure ?_)
  rintro - bs rfl bs' ⟨htag, rfl⟩
  refine ⟨htag, ?_⟩
  rw [List.append_nil, writeWeightedTag, UInt32.toUInt32_toInt32]

theorem spells_group : Spells readGroup fun g bs ↦
    ∃ c, Combinator.ofByte c = g.combinator ∧ g.Fits ∧ bs = writeGroupAs c g := by
  refine spells_string.bind fun name ↦ spells_combinator.bind fun combinator ↦
    spells_check_bind <| Spells.bind (spells_list_of_unique spells_string) fun tags ↦
    spells_pure ?_
  rintro bs₃ ⟨⟨hcount, htags⟩, rfl⟩ - bs₂ ⟨c, hc, rfl⟩ bs₁ ⟨hname, rfl⟩
  refine ⟨c, hc, ⟨hname, hcount, htags⟩, ?_⟩
  rw [writeGroupAs, List.append_nil, List.append_assoc]

/-- The blob of a query within the limits, with any bytes for its enumerations. -/
def serializeQueryAs (combinators : List UInt8) (groupJoin scope : UInt8) (q : AdvancedQuery) :
    Bytes :=
  ByteWriter.u8 queryVersion ++
    ByteWriter.list maxList writeWeightedTag q.includes ++
    ByteWriter.list maxList writeString q.excludes ++
    (ByteWriter.u16 (UInt16.ofNat q.groups.length) ++
      (combinators.zipWith writeGroupAs q.groups).flatten) ++
    ByteWriter.u8 groupJoin ++ writeString q.nameQuery ++ ByteWriter.u8 scope

/-- Bytes that read as the enumerations of a query. -/
structure Reads (combinators : List UInt8) (groupJoin scope : UInt8) (q : AdvancedQuery) : Prop where
  combinators : List.Forall₂ (fun c g ↦ Combinator.ofByte c = g.combinator) combinators q.groups
  groupJoin : Combinator.ofByte groupJoin = q.groupJoin
  scope : SearchScope.ofByte scope = q.scope

theorem exists_combinators {groups : List TagGroup} {blocks : List Bytes}
    (h : List.Forall₂ (fun g b ↦ ∃ c, Combinator.ofByte c = g.combinator ∧ g.Fits ∧
      b = writeGroupAs c g) groups blocks) :
    ∃ cs, List.Forall₂ (fun c g ↦ Combinator.ofByte c = g.combinator) cs groups ∧
      blocks = cs.zipWith writeGroupAs groups ∧ ∀ g ∈ groups, g.Fits := by
  induction h with
  | nil => exact ⟨[], .nil, rfl, by simp⟩
  | cons hg _ ih =>
    obtain ⟨c, hc, hfit, rfl⟩ := hg
    obtain ⟨cs, hcs, rfl, hfits⟩ := ih
    refine ⟨c :: cs, .cons hc hcs, rfl, ?_⟩
    rintro g (_ | ⟨_, hg⟩)
    exacts [hfit, hfits g hg]

theorem spells_query : Spells readQuery fun q bs ↦
    q.Fits ∧ ∃ cs j s, Reads cs j s q ∧ bs = serializeQueryAs cs j s q := by
  refine spells_u8.bind fun version ↦ spells_check_bind <|
    Spells.bind (spells_list_of_unique spells_weightedTag) fun includes ↦
    Spells.bind (spells_list_of_unique spells_string) fun excludes ↦
    Spells.bind (spells_list spells_group) fun groups ↦
    spells_combinator.bind fun groupJoin ↦ spells_check_bind <|
    spells_string.bind fun nameQuery ↦ spells_u8.bind fun scope ↦
    spells_check_bind (spells_pure ?_)
  rintro - bs₇ rfl bs₆ ⟨hname, rfl⟩ - bs₅ ⟨j, hj, rfl⟩ bs₄ ⟨hgroups, blocks, rfl, hall⟩ bs₃
    ⟨⟨hexc, hexcs⟩, rfl⟩ bs₂ ⟨⟨hinc, hincs⟩, rfl⟩ hversion bs₁ rfl
  obtain ⟨cs, hcs, rfl, hfits⟩ := exists_combinators hall
  refine ⟨⟨hinc, hincs, hexc, hexcs, hgroups, hfits, hname⟩, cs, j, scope, ⟨hcs, hj, rfl⟩, ?_⟩
  rw [eq_of_beq hversion]
  simp only [serializeQueryAs, List.append_assoc, List.append_nil]

theorem checked_query : Checked readQuery := by
  refine checked_bind fun _ ↦ checked_bind fun _ ↦ checked_bind fun _ ↦ checked_bind fun _ ↦
    checked_bind fun _ ↦ checked_bind fun _ ↦ checked_bind fun _ ↦ checked_bind fun _ ↦
    checked_bind fun _ ↦ ?_
  exact checked_check_bind (keeps_pure _)

/-- The writer's own bytes. -/
theorem serializeQuery_eq {q : AdvancedQuery} (h : q.groups.length ≤ maxList) :
    serializeQuery q = serializeQueryAs (q.groups.map (·.combinator.toByte)) q.groupJoin.toByte
      q.scope.toByte q := by
  have hgroups : ByteWriter.list maxList writeGroup q.groups =
      ByteWriter.u16 (UInt16.ofNat q.groups.length) ++
        ((q.groups.map (·.combinator.toByte)).zipWith writeGroupAs q.groups).flatten := by
    rw [ByteWriter.list, min_eq_left h, List.take_of_length_le h, List.zipWith_map_left,
      List.zipWith_self, List.flatMap_def]
    rfl
  rw [serializeQuery, serializeQueryAs, hgroups]

/-- Bytes in range are the writer's own. -/
theorem Reads.eq_of_le {cs : List UInt8} {j s : UInt8} {q : AdvancedQuery} (h : Reads cs j s q)
    (hcs : ∀ c ∈ cs, c ≤ 1) (hj : j ≤ 1) (hs : s ≤ 2) :
    cs = q.groups.map (·.combinator.toByte) ∧ j = q.groupJoin.toByte ∧ s = q.scope.toByte := by
  obtain ⟨hall, hgroupJoin, hscope⟩ := h
  refine ⟨?_, ?_, ?_⟩
  · generalize q.groups = groups at hall
    induction hall with
    | nil => rfl
    | cons hc _ ih =>
      rw [List.map_cons, ← ih fun c hm ↦ hcs c (List.mem_cons_of_mem _ hm), ← hc,
        Combinator.toByte_ofByte (hcs _ List.mem_cons_self)]
  · rw [← hgroupJoin, Combinator.toByte_ofByte hj]
  · rw [← hscope, SearchScope.toByte_ofByte hs]

end Query

/-- A query within the limits is read back from its blob. -/
theorem deserializeQuery_serializeQuery {q : AdvancedQuery} (h : q.Fits) :
    deserializeQuery (serializeQuery q) = some q := (Query.frames_query h).whole

/-- An accepted blob is that of its query, up to the bytes of the enumerations. -/
theorem spelled_of_deserializeQuery {blob : Bytes} {q : AdvancedQuery}
    (h : deserializeQuery blob = some q) :
    q.Fits ∧ ∃ cs j s, Query.Reads cs j s q ∧ blob = Query.serializeQueryAs cs j s q :=
  Query.spells_query.whole Query.checked_query h

end SafeVault
