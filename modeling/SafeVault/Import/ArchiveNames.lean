import SafeVault.Lib.Fresh
import SafeVault.Vault.SafeName
import Mathlib.Data.Nat.Digits.Lemmas

/-!
# Archives by name

The extension of a name proposes a kind of archive and the first bytes of the file have to agree. The
gallery for an archive is named after the file, without the extension and repaired; where that name
is taken a number is put after it.
-/

namespace SafeVault

/-! ## Kinds -/

inductive ArchiveKind where
  | zip | cbz | sevenZip | rar | tar | tarGz
  deriving DecidableEq

namespace ArchiveNames

def magicGzip : Bytes := [0x1F, 0x8B]

def magicZip : Bytes := [80, 75, 0x03, 0x04]

def magic7z : Bytes := [55, 122, 0xBC, 0xAF, 0x27, 0x1C]

def magicRar : Bytes := [82, 97, 114, 33, 0x1A, 0x07]

def magicTar : Bytes := [117, 115, 116, 97, 114]

/-- Where the magic is in the header of a tar. -/
def tarMagicOffset : ℕ := 257

def hasMagicAt (bytes : Bytes) (offset : ℕ) (magic : Bytes) : Bool :=
  (bytes.drop offset).take magic.length == magic

/-- There has to be a stem before the extension. -/
def extensionIs (lowerName suffix : Bytes) : Bool :=
  suffix.length < lowerName.length && suffix.isSuffixOf lowerName

/-- The extensions of archives, the longest first. -/
def archiveExts : List Bytes :=
  [".tar.gz", ".tgz", ".zip", ".cbz", ".7z", ".rar", ".tar"].map ascii

/-- `archive_extension_of`; empty if there is none. -/
def archiveExtensionOf (name : Bytes) : Bytes :=
  (archiveExts.find? (extensionIs (AsciiFold.fold name))).getD []

def isArchiveName (name : Bytes) : Bool := !(archiveExtensionOf name).isEmpty

/-- `detect_archive_kind`. -/
def detectArchiveKind (filename bytes : Bytes) : Option ArchiveKind :=
  let name := AsciiFold.fold filename
  let confirm (offset : ℕ) (magic : Bytes) (kind : ArchiveKind) :=
    if hasMagicAt bytes offset magic then some kind else none
  if extensionIs name (ascii ".tar.gz") || extensionIs name (ascii ".tgz") then
    confirm 0 magicGzip .tarGz
  else if extensionIs name (ascii ".zip") then confirm 0 magicZip .zip
  else if extensionIs name (ascii ".cbz") then confirm 0 magicZip .cbz
  else if extensionIs name (ascii ".7z") then confirm 0 magic7z .sevenZip
  else if extensionIs name (ascii ".rar") then confirm 0 magicRar .rar
  else if extensionIs name (ascii ".tar") then confirm tarMagicOffset magicTar .tar
  else none

/-! ## Names of galleries -/

/-- `nested_gallery_name`; empty if nothing usable is left. -/
def nestedGalleryName (filename : Bytes) : Bytes :=
  let ext := archiveExtensionOf filename
  if ext.isEmpty then []
  else
    let stem := filename.take (filename.length - ext.length)
    if stem.isEmpty then [] else sanitizeNodeName stem

/-- The name from which that of the gallery is made. -/
def baseName (filename : Bytes) : Bytes :=
  if (nestedGalleryName filename).isEmpty then ascii "archive" else nestedGalleryName filename

/-- A number in decimal. -/
def decimal (n : ℕ) : Bytes := (Nat.digits 10 n).reverse.map fun d ↦ UInt8.ofNat (48 + d)

/-- A name with a number after it. -/
def numbered (base : Bytes) (n : ℕ) : Bytes := base ++ ascii "_" ++ decimal n

/-- `unique_gallery_name`. -/
def uniqueGalleryName (base : Bytes) (taken : List Bytes) : Bytes :=
  Fresh.search (numbered base) taken (taken.length + 1) base 2

variable {base : Bytes} {n m : ℕ}

theorem decimal_injective : Function.Injective decimal := by
  intro n m h
  have hmap : (Nat.digits 10 n).map (fun d ↦ UInt8.ofNat (48 + d)) =
      (Nat.digits 10 m).map fun d ↦ UInt8.ofNat (48 + d) := by
    rw [decimal, decimal, List.map_reverse, List.map_reverse, List.reverse_inj] at h
    exact h
  -- A digit is read off its byte again.
  have hback (k : ℕ) : ((Nat.digits 10 k).map fun d ↦ UInt8.ofNat (48 + d)).map
      (fun c ↦ c.toNat - 48) = Nat.digits 10 k := by
    rw [List.map_map]
    refine (List.map_congr_left fun d hd ↦ ?_).trans (List.map_id _)
    have hlt : d < 10 := Nat.digits_lt_base (by norm_num) hd
    rw [Function.comp_apply, UInt8.toNat_ofNat', Nat.mod_eq_of_lt (by omega), id_eq]
    omega
  exact Nat.digits_inj_iff.mp ((hback n).symm.trans ((congrArg _ hmap).trans (hback m)))

theorem numbered_injective (base : Bytes) : Function.Injective (numbered base) :=
  fun _ _ h ↦ decimal_injective (List.append_cancel_left h)

/-- The names that are tried for a gallery in turn: the base, and then the base with the numbers from 2
on. -/
def nameTried (base : Bytes) : ℕ → Bytes := Fresh.tried (numbered base) base 2

/-- The first of them that is free. -/
structure FirstFree (base : Bytes) (taken : List Bytes) (k : ℕ) : Prop where
  free : nameTried base k ∉ taken
  before : ∀ j < k, nameTried base j ∈ taken

variable {taken : List Bytes} {k : ℕ}

theorem FirstFree.unique (h : FirstFree base taken k) (h' : FirstFree base taken m) : k = m := by
  rcases lt_trichotomy k m with hlt | heq | hlt
  · exact absurd (h'.before k hlt) h.free
  · exact heq
  · exact absurd (h.before m hlt) h'.free

/-- **The name given is the first that is free.** -/
theorem exists_firstFree (base : Bytes) (taken : List Bytes) :
    ∃ k, FirstFree base taken k ∧ uniqueGalleryName base taken = nameTried base k := by
  obtain ⟨k, hk, hbefore⟩ := Fresh.exists_search_eq (numbered base) taken (taken.length + 1) base 2
  have hfree : uniqueGalleryName base taken ∉ taken := Fresh.search_not_mem fun _ _ _ _ h ↦
    Nat.add_left_cancel (numbered_injective base h)
  have heq : uniqueGalleryName base taken = nameTried base k := hk
  exact ⟨k, ⟨fun hmem ↦ hfree (heq ▸ hmem), hbefore⟩, heq⟩

/-! ## The names are almost safe -/

/-- The characters of a number. -/
theorem mem_decimal {c : UInt8} (h : c ∈ decimal n) : ∃ d < 10, c = UInt8.ofNat (48 + d) := by
  rw [decimal] at h
  obtain ⟨d, hd, rfl⟩ := List.mem_map.mp h
  exact ⟨d, Nat.digits_lt_base (by norm_num) (List.mem_reverse.mp hd), rfl⟩

theorem decimal_ne_nil (hn : n ≠ 0) : decimal n ≠ [] := by
  rw [decimal, Ne, List.map_eq_nil_iff, List.reverse_eq_nil_iff]
  exact Nat.digits_ne_nil_iff_ne_zero.mpr hn

theorem clean_numbered (h : Clean base) : Clean (numbered base n) := by
  intro c hc
  rw [numbered, List.mem_append, List.mem_append] at hc
  rcases hc with (hc | hc) | hc
  · exact h c hc
  · obtain rfl := List.mem_singleton.mp hc
    decide
  · obtain ⟨d, hd, rfl⟩ := mem_decimal hc
    interval_cases d <;> decide

theorem trimmed_numbered (hn : n ≠ 0) : Trimmed (numbered base n) := by
  obtain ⟨front, c, hfront⟩ := List.eq_nil_or_concat (decimal n) |>.resolve_left (decimal_ne_nil hn)
  rw [List.concat_eq_append] at hfront
  have hc : c ∈ decimal n := hfront ▸ List.mem_append_right _ (List.mem_singleton_self c)
  obtain ⟨d, hd, rfl⟩ := mem_decimal hc
  rw [Trimmed, numbered, hfront, ← List.append_assoc, List.getLast?_concat]
  interval_cases d <;> decide

/-- **A numbered name** can only be too long. -/
theorem isSafeNodeName_numbered_iff (h : Clean base) (hn : n ≠ 0)
    (hdot : isReservedDevice base = true → 46 ∉ base) :
    isSafeNodeName (numbered base n) = true ↔ (numbered base n).length ≤ maxNodeNameBytes := by
  have hne : numbered base n ≠ [] := by
    rw [numbered]
    exact List.append_ne_nil_of_right_ne_nil _ (decimal_ne_nil hn)
  have hdevice : isReservedDevice (numbered base n) = false := by
    by_cases hmem : 46 ∈ base
    · -- The part before the first dot is that of the base.
      have hprefix : base <+: numbered base n := ⟨ascii "_" ++ decimal n, (List.append_assoc ..).symm⟩
      rw [← isReservedDevice_eq_of_prefix_eq hprefix hmem]
      exact Bool.eq_false_iff.mpr fun hreserved ↦ hdot hreserved hmem
    · refine isReservedDevice_of_underscore ?_
      have hself : base.takeWhile (· != 46) = base := by
        refine List.takeWhile_eq_self_iff.mpr fun c hc ↦ ?_
        exact bne_iff_ne.mpr fun heq ↦ hmem (heq ▸ hc)
      rw [numbered, List.append_assoc, List.takeWhile_append, if_pos (congrArg _ hself)]
      exact List.mem_append_right _ (List.mem_cons_self ..)
  constructor
  · exact length_le_of_isSafeNodeName
  · exact fun hlen ↦ (isSafeNodeName_iff hne hlen (clean_numbered h) (trimmed_numbered hn)).mpr hdevice

/-- The name from which that of the gallery is made is repaired from one that is shorter than that of
the archive. -/
theorem baseName_eq (filename : Bytes) : baseName filename = ascii "archive" ∨
    ∃ stem, stem.length < filename.length ∧ baseName filename = sanitizeNodeName stem := by
  rw [baseName]
  split_ifs with hempty
  · exact .inl rfl
  · rw [nestedGalleryName] at hempty ⊢
    dsimp only at hempty ⊢
    split_ifs at hempty ⊢ with hext hstem
    · exact absurd rfl hempty
    · exact absurd rfl hempty
    · refine .inr ⟨_, ?_, rfl⟩
      have hpos : 0 < (archiveExtensionOf filename).length :=
        List.length_pos_iff.mpr fun hnil ↦ hext (List.isEmpty_iff.mpr hnil)
      have hstem' := List.length_pos_iff.mpr fun hnil ↦ hstem (List.isEmpty_iff.mpr hnil)
      rw [List.length_take] at hstem' ⊢
      omega

theorem repaired_baseName (filename : Bytes) : Repaired (baseName filename) := by
  rcases baseName_eq filename with h | ⟨stem, -, h⟩
  · rw [h]
    exact ⟨by decide, by decide, by unfold Clean; decide +kernel, by unfold Trimmed; decide⟩
  · rw [h]
    exact repaired_sanitizeNodeName stem

/-- The stem of a name that is not too long is not cut, so it is not that of a device. -/
theorem isReservedDevice_baseName {filename : Bytes} (h : filename.length ≤ maxNodeNameBytes) :
    isReservedDevice (baseName filename) = false := by
  rcases baseName_eq filename with heq | ⟨stem, hlt, heq⟩
  · rw [heq]
    decide
  · rw [heq]
    exact isReservedDevice_sanitizeNodeName (not_cutsToDevice_of_length_lt (hlt.trans_le h))

variable {filename : Bytes}

/-- **A name that is tried** can only be too long. -/
theorem isSafeNodeName_nameTried_iff (h : filename.length ≤ maxNodeNameBytes) (k : ℕ) :
    isSafeNodeName (nameTried (baseName filename) k) = true ↔
      (nameTried (baseName filename) k).length ≤ maxNodeNameBytes := by
  have hrep := repaired_baseName filename
  have hdevice := isReservedDevice_baseName h
  rcases k with _ | k
  · refine iff_of_true ?_ hrep.length
    exact (isSafeNodeName_iff hrep.nonempty hrep.length hrep.clean hrep.trimmed).mpr hdevice
  · refine isSafeNodeName_numbered_iff hrep.clean (by omega) fun hreserved ↦ ?_
    exact absurd (hdevice.symm.trans hreserved) Bool.false_ne_true

theorem clean_nameTried (filename : Bytes) (k : ℕ) : Clean (nameTried (baseName filename) k) := by
  have hclean := (repaired_baseName filename).clean
  rcases k with _ | k
  · exact hclean
  · exact clean_numbered hclean

theorem nameTried_ne_nil (filename : Bytes) (k : ℕ) : nameTried (baseName filename) k ≠ [] := by
  have hne := (repaired_baseName filename).nonempty
  rcases k with _ | k
  · exact hne
  · change numbered (baseName filename) (2 + k) ≠ []
    rw [numbered, List.append_assoc]
    exact List.append_ne_nil_of_left_ne_nil hne _

end ArchiveNames

end SafeVault
