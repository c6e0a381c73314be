import Mathlib.Data.List.DropRight
import SafeVault.Lib.Capped
import SafeVault.Lib.Utf8
import SafeVault.Tags.Category
import SafeVault.Ui.TextInput

/-!
# Reading a tag dictionary

A dictionary is a list of entries with a name, a category and a description. The name must not have a
colon, since a tag is the category, a colon and the name, and is taken apart at its first colon when it
is shown. Whether the category has a colon is not looked at.

Parsing the file as JSON is left to a library; the strings of a document are lists of characters.
-/

namespace SafeVault

open TextInput (stepBack stepBack_le utf8PrevBoundary)
open Utf8 (Text Boundary isCont)

/-! ## Documents -/

/-- A parsed document. Nothing is asked of a number. -/
inductive Json where
  | null
  | boolean (value : Bool)
  | number
  | string (text : List Char)
  | array (items : List Json)
  | object (members : List (List Char × Json))

/-- `find`, in an object. -/
def Json.find? (key : List Char) : Json → Option Json
  | .object members => (members.find? (·.1 = key)).map (·.2)
  | _ => none

namespace TagDict

def isWs (c : UInt8) : Bool := c == 32 || c == 9 || c == 10 || c == 13

def trimmed (s : Bytes) : Bytes := (s.dropWhile isWs).rdropWhile isWs

/-- `str_field`: what is not a string counts as absent. -/
def strField (e : Json) (key : List Char) : Bytes :=
  match e.find? key with
  | some (.string text) => trimmed (Utf8.encode text)
  | _ => []

/-- `truncate_utf8`, and whether anything was cut. -/
def truncateUtf8 (s : Bytes) (cap : ℕ) : Bytes × Bool :=
  if s.length ≤ cap then (s, false) else (s.take (utf8PrevBoundary s (cap + 1)), true)

end TagDict

structure TagDictEntry where
  category : Bytes
  name : Bytes
  description : Bytes
  deriving DecidableEq

/-- The tag that an entry describes. -/
def TagDictEntry.key (e : TagDictEntry) : Bytes :=
  if e.category.isEmpty then e.name else e.category ++ colon :: e.name

structure TagDictParseResult where
  entries : List TagDictEntry := []
  malformedSkipped : ℕ := 0
  fieldsTruncated : ℕ := 0
  overCapSkipped : ℕ := 0

namespace TagDict

/-- `read_entry`, with the number of fields that were cut. -/
def readEntry (e : Json) : Option (TagDictEntry × ℕ) :=
  match e with
  | .object _ =>
    let name := strField e "name".toList
    if name.isEmpty || name.contains colon then none
    else
      let (category, cutCategory) := truncateUtf8 (strField e "category".toList) indexMaxCategoryBytes
      let (description, cutDescription) :=
        truncateUtf8 (strField e "description".toList) indexMaxTagDescBytes
      some (⟨category, name, description⟩, cutCategory.toNat + cutDescription.toNat)
  | _ => none

/-- `entry_array` -/
def entryArray : Json → Option (List Json)
  | .array items => some items
  | doc =>
    match doc.find? "tags".toList with
    | some (.array items) => some items
    | _ => none

/-- Two entries for one tag. -/
def sameKey (a b : TagDictEntry) : Bool := tagCiEqual a.key b.key

/-- One round of the loop over the elements. -/
def parseElement (out : TagDictParseResult) (e : Json) : TagDictParseResult :=
  if indexMaxTagDescriptions ≤ out.entries.length then
    { out with overCapSkipped := out.overCapSkipped + 1 }
  else
    match readEntry e with
    | none => { out with malformedSkipped := out.malformedSkipped + 1 }
    | some (entry, cut) =>
      let out := { out with fieldsTruncated := out.fieldsTruncated + cut }
      if out.entries.any (sameKey · entry) then
        { out with malformedSkipped := out.malformedSkipped + 1 }
      else { out with entries := out.entries ++ [entry] }

end TagDict

/-- `parse_tag_dict_json`; there is no document when the file is not JSON. -/
def parseTagDictJson (doc : Option Json) : TagDictParseResult :=
  match doc.bind TagDict.entryArray with
  | none => {}
  | some items => items.foldl TagDict.parseElement {}

/-! ## Showing a tag -/

/-- What is shown of a tag, and the colour; `-1` when there is none. -/
structure TagDisplay where
  text : Bytes
  swatch : ℤ := -1
  deriving DecidableEq

/-- `resolve_tag` -/
def resolveTag (tag : Bytes) (categories : List TagCategory) : TagDisplay :=
  match tag.findIdx? (· == colon) with
  | none => { text := tag }
  | some i =>
    let suffix := tag.drop (i + 1)
    if (tag.take i).isEmpty || suffix.isEmpty then { text := tag }
    else
      match categories.find? (tagCiEqual ·.name (tag.take i)) with
      | none => { text := tag }
      | some c => { text := suffix, swatch := c.swatch.toNat }

namespace TagDict

/-! ## The entries that are kept -/

section Entries

variable {items : List Json} {out : TagDictParseResult} {e : Json} {entry : TagDictEntry}

/-- The entry that an element is. -/
def entryOf (e : Json) : Option TagDictEntry := (readEntry e).map (·.1)

theorem decides_sameKey : KeyedUnion.Decides sameKey fun e ↦ AsciiFold.fold e.key :=
  fun _ _ ↦ AsciiFold.equal_iff

theorem entries_parseElement : (parseElement out e).entries =
    match entryOf e with
    | none => out.entries
    | some entry => KeyedUnion.insertWithin sameKey indexMaxTagDescriptions out.entries entry := by
  rw [parseElement, entryOf]
  rcases readEntry e with _ | ⟨entry, cut⟩
  · split_ifs <;> rfl
  · rw [Option.map_some]
    dsimp only
    rw [KeyedUnion.insertWithin, KeyedUnion.insert]
    split_ifs <;> rfl

/-- **The loop** keeps the first entry for each tag, up to the limit. -/
theorem entries_foldl : (items.foldl parseElement out).entries =
    (items.filterMap entryOf).foldl (KeyedUnion.insertWithin sameKey indexMaxTagDescriptions)
      out.entries := by
  induction items generalizing out with
  | nil => rfl
  | cons e items ih =>
    rw [List.foldl_cons, ih, entries_parseElement]
    rcases hentry : entryOf e with _ | entry
    · rw [List.filterMap_cons_none hentry]
    · rw [List.filterMap_cons_some hentry, List.foldl_cons]

theorem entries_parse (items : List Json) : (items.foldl parseElement {}).entries =
    (KeyedUnion.union sameKey [] (items.filterMap entryOf)).take indexMaxTagDescriptions :=
  entries_foldl.trans (@KeyedUnion.foldl_insertWithin _ sameKey [] _ _)

end Entries

/-! ## Texts -/

section Texts

variable {P : Char → Prop} {s : Bytes} {i n cap : ℕ} {b : UInt8}

/-- Behind a byte that is a character of its own there is a boundary. -/
theorem boundary_succ (h : Boundary P s i) (hi : i < s.length) (hlow : (s.getD i 0).toNat < 0x80) :
    Boundary P s (i + 1) := by
  obtain ⟨cs, hcs, hrest⟩ := h.after
  rcases cs with _ | ⟨c, cs⟩
  · have hlen := congrArg List.length hrest
    rw [List.length_drop, Utf8.encode_nil, List.length_nil] at hlen
    omega
  obtain ⟨x, xs, hx, -, hxs⟩ := Utf8.utf8EncodeChar_eq_cons c
  have hhead : s.getD i 0 = x := by
    have h0 : (s.drop i).getD 0 0 = x := by rw [hrest, Utf8.encode_cons, hx]; rfl
    rwa [List.getD_eq_getElem?_getD, List.getElem?_drop, Nat.add_zero,
      ← List.getD_eq_getElem?_getD] at h0
  -- A character that starts with such a byte has no other.
  have hnil : xs = [] := by
    have hx' := hx
    rw [String.utf8EncodeChar] at hx'
    rw [hhead] at hlow
    split_ifs at hx' with h1 h2 h3
    · exact (List.cons.inj hx').2.symm
    all_goals
      have hlead := congrArg UInt8.toNat (List.cons.inj hx').1
      rw [UInt8.toNat_ofNat_of_lt' (show _ < 256 by omega)] at hlead
      omega
  refine h.text.boundary hi ?_
  have hnext : (s.drop i).drop 1 = Utf8.encode cs := by
    rw [hrest, Utf8.encode_cons, hx, hnil]
    rfl
  rw [List.drop_drop] at hnext
  rcases hcs' : cs with _ | ⟨d, ds⟩
  · have hlen := congrArg List.length hnext
    rw [hcs', Utf8.encode_nil, List.length_drop, List.length_nil] at hlen
    rw [List.getD_eq_default _ _ (by omega)]
    rfl
  · obtain ⟨y, ys, hy, hcont, -⟩ := Utf8.utf8EncodeChar_eq_cons d
    have h0 : (s.drop (i + 1)).getD 0 0 = y := by rw [hnext, hcs', Utf8.encode_cons, hy]; rfl
    rw [List.getD_eq_getElem?_getD, List.getElem?_drop, Nat.add_zero,
      ← List.getD_eq_getElem?_getD] at h0
    rwa [h0]

theorem toNat_lt_of_isWs (h : isWs b = true) : b.toNat < 0x80 := by
  simp only [isWs, Bool.or_eq_true, beq_iff_eq] at h
  rcases h with ((rfl | rfl) | rfl) | rfl <;> decide

theorem isCont_of_toNat_lt (h : b.toNat < 0x80) : isCont b = false := by
  rw [Bool.eq_false_iff, ne_eq, Utf8.isCont_iff]
  omega

/-- What follows white space at the beginning of a text is a text. -/
theorem text_dropWhile_isWs (h : Text P s) : Text P (s.dropWhile isWs) := by
  suffices hall : ∀ i ≤ (s.takeWhile isWs).length, Boundary P s i by
    have hafter := (hall _ le_rfl).after
    have hsplit := congrArg (List.drop (s.takeWhile isWs).length)
      (List.takeWhile_append_dropWhile (p := isWs) (l := s))
    rw [List.drop_left] at hsplit
    rwa [← hsplit] at hafter
  intro i hi
  induction i with
  | zero => exact h.boundary_zero
  | succ i ih =>
    have hprefix : s.takeWhile isWs <+: s := List.takeWhile_prefix _
    have hlt : i < s.length := Nat.lt_of_lt_of_le hi hprefix.length_le
    refine boundary_succ (ih (Nat.le_of_succ_le hi)) hlt ?_
    rw [List.getD_eq_getElem _ _ hlt, ← hprefix.getElem hi]
    exact toNat_lt_of_isWs (List.mem_takeWhile_imp (List.getElem_mem hi))

/-- White space at the end of a text is cut off between two characters. -/
theorem text_rdropWhile_isWs (h : Text P s) : Text P (s.rdropWhile isWs) := by
  induction s using List.reverseRecOn with
  | nil => exact h
  | append_singleton s b ih =>
    by_cases hb : isWs b = true
    · rw [List.rdropWhile_concat_pos _ _ _ hb]
      have hget : (s ++ [b]).getD s.length 0 = b := by simp
      have hboundary : Boundary P (s ++ [b]) s.length :=
        h.boundary (by simp) (by rw [hget]; exact isCont_of_toNat_lt (toNat_lt_of_isWs hb))
      have hbefore := hboundary.before
      rw [List.take_left] at hbefore
      exact ih hbefore
    · rwa [List.rdropWhile_concat_neg _ _ _ hb]

theorem text_trimmed (h : Text P s) : Text P (trimmed s) :=
  text_rdropWhile_isWs (text_dropWhile_isWs h)

theorem boundary_stepBack_of_text (h : Text P s) (hn : n ≤ s.length) :
    Boundary P s (stepBack s n) := by
  induction n with
  | zero => exact h.boundary_zero
  | succ n ih =>
    rw [stepBack]
    split_ifs with hcont
    · exact ih (Nat.le_of_succ_le hn)
    · exact h.boundary hn (Bool.eq_false_iff.mpr hcont)

/-- The bytes that are passed over on the way back continue a character. -/
theorem isCont_of_stepBack_lt {k : ℕ} (hk : stepBack s n < k) (hkn : k ≤ n) :
    isCont (s.getD k 0) = true := by
  induction n with
  | zero => exact absurd hk (by rw [stepBack]; omega)
  | succ n ih =>
    rw [stepBack] at hk
    split_ifs at hk with hcont
    · rcases Nat.lt_or_ge k (n + 1) with hlt | hge
      · exact ih hk (Nat.le_of_lt_succ hlt)
      · rwa [Nat.le_antisymm hkn hge]
    · omega

/-- Where a text that is too long is cut. -/
theorem prevBoundary_cut (hlong : cap < s.length) :
    utf8PrevBoundary s (cap + 1) = stepBack s cap := by
  rw [utf8PrevBoundary, if_neg (Nat.succ_ne_zero cap), Nat.min_eq_left hlong]
  rfl

/-- **Cutting** leaves a text that is not longer than it may be. -/
theorem text_truncateUtf8 (h : Text P s) :
    Text P (truncateUtf8 s cap).1 ∧ (truncateUtf8 s cap).1.length ≤ cap := by
  rw [truncateUtf8]
  split_ifs with hshort
  · exact ⟨h, hshort⟩
  · rw [not_le] at hshort
    rw [prevBoundary_cut hshort]
    refine ⟨(boundary_stepBack_of_text h hshort.le).before, ?_⟩
    exact (List.length_take_le _ _).trans (stepBack_le s cap)

/-- A byte that is a character of its own is kept if it stands before the limit. -/
theorem mem_truncateUtf8_iff (h : Text P s) (hb : b.toNat < 0x80) :
    b ∈ (truncateUtf8 s cap).1 ↔ b ∈ s.take cap := by
  rw [truncateUtf8]
  split_ifs with hshort
  · rw [List.take_of_length_le hshort]
  rw [not_le] at hshort
  rw [prevBoundary_cut hshort]
  dsimp only
  constructor
  · intro hmem
    exact (List.take_prefix_take_left (stepBack_le s cap)).subset hmem
  · intro hmem
    obtain ⟨k, hk, hget⟩ := List.mem_iff_getElem.mp hmem
    rw [List.length_take] at hk
    rw [List.getElem_take] at hget
    have hkcap : k < cap := by omega
    have hks : k < s.length := by omega
    have hgetD : s.getD k 0 = b := (List.getD_eq_getElem _ _ hks).trans hget
    have hcont : isCont (s.getD k 0) = false := hgetD ▸ isCont_of_toNat_lt hb
    -- It is not among the bytes that are passed over, nor the one they continue.
    have hlt : k < stepBack s cap := by
      by_contra hge
      rw [not_lt] at hge
      rcases hge.lt_or_eq with hlt | heq
      · rw [isCont_of_stepBack_lt hlt hkcap.le] at hcont
        exact absurd hcont Bool.true_eq_false_eq_False
      · have hboundary := boundary_stepBack_of_text h hshort.le
        rw [heq] at hboundary
        have hsucc := (boundary_succ hboundary hks (hgetD ▸ hb)).isCont_getD
        rw [isCont_of_stepBack_lt (by omega) hkcap] at hsucc
        exact absurd hsucc Bool.true_eq_false_eq_False
    refine List.mem_iff_getElem.mpr ⟨k, by rw [List.length_take]; omega, ?_⟩
    rw [List.getElem_take, hget]

end Texts

/-! ## What an entry is -/

section Entry

variable {items : List Json} {e : Json} {entry : TagDictEntry} {categories : List TagCategory}
  {c : TagCategory}

/-- An element with a name that can be that of a tag. -/
def Usable (e : Json) : Prop :=
  (∃ members, e = .object members) ∧ strField e "name".toList ≠ [] ∧
    colon ∉ strField e "name".toList

/-- What the limits and the encoding ask of an entry. -/
structure Sound (entry : TagDictEntry) : Prop where
  name : Text (fun _ ↦ True) entry.name
  category : Text (fun _ ↦ True) entry.category
  description : Text (fun _ ↦ True) entry.description
  name_ne : entry.name ≠ []
  colon_name : colon ∉ entry.name
  category_le : entry.category.length ≤ indexMaxCategoryBytes
  description_le : entry.description.length ≤ indexMaxTagDescBytes

theorem entryOf_eq_some_iff : entryOf e = some entry ↔ Usable e ∧ entry =
    ⟨(truncateUtf8 (strField e "category".toList) indexMaxCategoryBytes).1,
      strField e "name".toList,
      (truncateUtf8 (strField e "description".toList) indexMaxTagDescBytes).1⟩ := by
  rw [entryOf, Usable]
  rcases e with _ | _ | _ | _ | _ | members
  iterate 5 simp [readEntry]
  rw [readEntry]
  dsimp only
  rcases hname : (strField (.object members) "name".toList).isEmpty ||
    (strField (.object members) "name".toList).contains colon
  · rw [Bool.or_eq_false_iff, List.isEmpty_eq_false_iff, List.contains_eq_mem,
      decide_eq_false_iff_not] at hname
    rw [if_neg Bool.false_ne_true, Option.map_some, Option.some_inj, eq_comm]
    exact ⟨fun h ↦ ⟨⟨⟨_, rfl⟩, hname⟩, h⟩, fun h ↦ h.2⟩
  · rw [if_pos rfl, Option.map_none]
    rw [Bool.or_eq_true, List.isEmpty_iff, List.contains_eq_mem, decide_eq_true_iff] at hname
    refine ⟨nofun, fun h ↦ ?_⟩
    exact absurd hname (not_or.mpr ⟨h.1.2.1, h.1.2.2⟩)

theorem text_strField (e : Json) (key : List Char) : Text (fun _ ↦ True) (strField e key) := by
  rw [strField]
  split
  · next text _ => exact text_trimmed ⟨text, fun _ _ ↦ trivial, rfl⟩
  · exact Utf8.text_nil

theorem sound_of_entryOf (h : entryOf e = some entry) : Sound entry := by
  obtain ⟨⟨-, hne, hcolon⟩, rfl⟩ := entryOf_eq_some_iff.mp h
  obtain ⟨hcategory, hcategoryLen⟩ :=
    @text_truncateUtf8 _ _ indexMaxCategoryBytes (text_strField e "category".toList)
  obtain ⟨hdescription, hdescriptionLen⟩ :=
    @text_truncateUtf8 _ _ indexMaxTagDescBytes (text_strField e "description".toList)
  exact ⟨text_strField _ _, hcategory, hdescription, hne, hcolon, hcategoryLen, hdescriptionLen⟩

/-! ## Taking a tag apart -/

theorem findIdx?_colon {p rest : Bytes} (hp : colon ∉ p) :
    (p ++ colon :: rest).findIdx? (· == colon) = some p.length := by
  rw [List.findIdx?_append, List.findIdx?_eq_none_iff.mpr]
  · simp [List.findIdx?_cons]
  · intro c hc
    rw [beq_eq_false_iff_ne]
    exact fun h ↦ hp (h ▸ hc)

/-- **A category without a colon** is found again. -/
theorem resolveTag_key (hcategory : entry.category ≠ []) (hname : entry.name ≠ [])
    (hcolon : colon ∉ entry.category)
    (hfind : categories.find? (tagCiEqual ·.name entry.category) = some c) :
    resolveTag entry.key categories = ⟨entry.name, c.swatch.toNat⟩ := by
  rw [TagDictEntry.key, if_neg (by rwa [List.isEmpty_iff]), resolveTag, findIdx?_colon hcolon]
  have hdrop : (entry.category ++ colon :: entry.name).drop (entry.category.length + 1) =
      entry.name := by
    rw [List.drop_append, List.drop_eq_nil_of_le (Nat.le_succ _), List.nil_append,
      Nat.add_sub_cancel_left]
    rfl
  dsimp only
  rw [List.take_left, hdrop, hfind, if_neg]
  rw [Bool.or_eq_true, List.isEmpty_iff, List.isEmpty_iff, not_or]
  exact ⟨hcategory, hname⟩

/-- **A category with a colon** is not: more than the name is shown. -/
theorem resolveTag_key_of_colon (hcolon : colon ∈ entry.category) :
    (resolveTag entry.key categories).text ≠ entry.name := by
  obtain ⟨p, rest, heq, hp⟩ := List.eq_append_cons_of_mem hcolon
  have hkey : entry.key = p ++ colon :: (rest ++ colon :: entry.name) := by
    rw [TagDictEntry.key, if_neg, heq, List.append_assoc, List.cons_append]
    rw [List.isEmpty_iff]
    exact List.ne_nil_of_mem hcolon
  have hlong : ∀ front : Bytes, front ++ (rest ++ colon :: entry.name) ≠ entry.name := by
    intro front h
    have hlen := congrArg List.length h
    simp only [List.length_append, List.length_cons] at hlen
    omega
  have hwhole : p ++ colon :: (rest ++ colon :: entry.name) ≠ entry.name := by
    have h := hlong (p ++ [colon])
    rwa [List.append_assoc, List.singleton_append] at h
  have hdrop : (p ++ colon :: (rest ++ colon :: entry.name)).drop (p.length + 1) =
      rest ++ colon :: entry.name := by
    rw [List.drop_append, List.drop_eq_nil_of_le (Nat.le_succ _), List.nil_append,
      Nat.add_sub_cancel_left]
    rfl
  rw [hkey, resolveTag, findIdx?_colon hp]
  dsimp only
  rw [hdrop]
  split_ifs
  · exact hwhole
  · split
    · exact hwhole
    · exact hlong []

/-! ## Colons in categories -/

/-- An element that is kept, or another one for the same tag, has a colon in its category. -/
def ColonReaches (items : List Json) : Prop :=
  ∃ pre e post, items = pre ++ e :: post ∧ Usable e ∧
    colon ∈ (strField e "category".toList).take indexMaxCategoryBytes ∧
    (KeyedUnion.union sameKey [] (pre.filterMap entryOf)).length < indexMaxTagDescriptions

theorem count_colon_fold (a : Bytes) : (AsciiFold.fold a).count colon = a.count colon := by
  induction a with
  | nil => rfl
  | cons b a ih =>
    rw [AsciiFold.fold_cons, List.count_cons, List.count_cons, ih]
    refine congrArg (a.count colon + ·) ?_
    rw [beq_eq_decide, beq_eq_decide]
    exact if_congr (by simpa using lower_eq_colon_iff) rfl rfl

/-- The colons of a tag are those of the category and one more. -/
theorem count_colon_key (h : Sound entry) : entry.key.count colon =
    if entry.category = [] then 0 else entry.category.count colon + 1 := by
  have hname : entry.name.count colon = 0 := List.count_eq_zero_of_not_mem h.colon_name
  rw [TagDictEntry.key]
  by_cases hempty : entry.category = []
  · rw [if_pos (List.isEmpty_iff.mpr hempty), if_pos hempty, hname]
  · rw [if_neg (by rwa [List.isEmpty_iff]), if_neg hempty, List.count_append, List.count_cons_self,
      hname]

/-- Entries for one tag agree on whether the category has a colon. -/
theorem colon_mem_of_sameKey {entry' : TagDictEntry} (h : Sound entry) (h' : Sound entry')
    (hkey : AsciiFold.fold entry.key = AsciiFold.fold entry'.key) (hcolon : colon ∈ entry.category) :
    colon ∈ entry'.category := by
  have hcount := congrArg (List.count colon) hkey
  rw [count_colon_fold, count_colon_fold, count_colon_key h, count_colon_key h',
    if_neg (List.ne_nil_of_mem hcolon)] at hcount
  have hpos := List.count_pos_iff.mpr hcolon
  refine List.count_pos_iff.mp ?_
  split_ifs at hcount
  omega

theorem colon_mem_iff (h : entryOf e = some entry) : colon ∈ entry.category ↔
    colon ∈ (strField e "category".toList).take indexMaxCategoryBytes := by
  obtain ⟨-, rfl⟩ := entryOf_eq_some_iff.mp h
  exact mem_truncateUtf8_iff (text_strField _ _) (by decide)

theorem sound_of_mem_entries (h : entry ∈ (items.foldl parseElement {}).entries) : Sound entry := by
  rw [entries_parse] at h
  have hnil : ∀ x ∈ ([] : List TagDictEntry), Sound x := fun x hx ↦ absurd hx List.not_mem_nil
  refine KeyedUnion.forall_mem_union hnil (fun x hx ↦ ?_) entry (List.mem_of_mem_take h)
  obtain ⟨e, -, he⟩ := List.mem_filterMap.mp hx
  exact sound_of_entryOf he

/-- **When an entry with a colon in its category is kept.** -/
theorem colon_kept_iff : (∃ entry ∈ (items.foldl parseElement {}).entries, colon ∈ entry.category) ↔
    ColonReaches items := by
  constructor
  · rintro ⟨entry, hmem, hcolon⟩
    rw [entries_parse] at hmem
    rcases KeyedUnion.exists_of_mem_take_union hmem with hnil | ⟨pre, post, hsplit, hroom⟩
    · exact absurd hnil List.not_mem_nil
    · obtain ⟨front, rest, rfl, rfl, hrest⟩ := List.filterMap_eq_append_iff.mp hsplit
      obtain ⟨skipped, e, post', rfl, hskipped, he, -⟩ := List.filterMap_eq_cons_iff.mp hrest
      refine ⟨front ++ skipped, e, post', by simp, (entryOf_eq_some_iff.mp he).1,
        (colon_mem_iff he).mp hcolon, ?_⟩
      rwa [List.filterMap_append, List.filterMap_eq_nil_iff.mpr hskipped, List.append_nil]
  · rintro ⟨pre, e, post, rfl, husable, hcolon, hroom⟩
    obtain ⟨first, he⟩ : ∃ first, entryOf e = some first :=
      ⟨_, entryOf_eq_some_iff.mpr ⟨husable, rfl⟩⟩
    have hkey := @KeyedUnion.mem_keys_take_union _ _ _ _ _ _ (post.filterMap entryOf) first _
      decides_sameKey hroom
    rw [← List.filterMap_cons_some he, ← List.filterMap_append, ← entries_parse] at hkey
    obtain ⟨entry, hmem, hsame⟩ := List.mem_map.mp hkey
    refine ⟨entry, hmem, ?_⟩
    exact colon_mem_of_sameKey (sound_of_entryOf he) (sound_of_mem_entries hmem) hsame.symm
      ((colon_mem_iff he).mpr hcolon)

end Entry

end TagDict

end SafeVault
