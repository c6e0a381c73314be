import SafeVault.Import.NestedBounds
import Mathlib.Algebra.BigOperators.Group.List.Basic

/-!
# What a walk counts

The tallies are the sum of the accounts: the turn of a file goes into one of two, and that of an archive
in an archive into one of five. This holds of every walk, however it ends. An archive that is entered
and then cannot be listed has an account of its own, as unreadable.
-/

namespace SafeVault

namespace NestedWalk

variable {σ : Type} {H : Hooks σ} {s t u : Walk σ} {f : Frame} {a : Account σ}
  {walk : Frame → Walk σ → Option (Walk σ)} {ps : List ZipPlacement} {p : ZipPlacement}
  {taken : List Bytes} {y : RecursiveTally} {n k : ℕ}

/-! ## The tally of an account -/

section Tally

instance : Zero RecursiveTally := ⟨{}⟩

instance : Add RecursiveTally where
  add y z :=
    { mediaPlaced := y.mediaPlaced + z.mediaPlaced
      nestedArchives := y.nestedArchives + z.nestedArchives
      skippedUnsupported := y.skippedUnsupported + z.skippedUnsupported
      notAnArchive := y.notAnArchive + z.notAnArchive
      depthCapped := y.depthCapped + z.depthCapped
      budgetStopped := y.budgetStopped + z.budgetStopped
      unreadable := y.unreadable + z.unreadable
      rootUnreadable := y.rootUnreadable || z.rootUnreadable }

instance : AddCommMonoid RecursiveTally where
  add_assoc _ _ _ := RecursiveTally.ext (Nat.add_assoc ..) (Nat.add_assoc ..) (Nat.add_assoc ..)
    (Nat.add_assoc ..) (Nat.add_assoc ..) (Nat.add_assoc ..) (Nat.add_assoc ..) (Bool.or_assoc ..)
  zero_add _ := RecursiveTally.ext (Nat.zero_add _) (Nat.zero_add _) (Nat.zero_add _)
    (Nat.zero_add _) (Nat.zero_add _) (Nat.zero_add _) (Nat.zero_add _) (Bool.false_or _)
  add_zero _ := RecursiveTally.ext rfl rfl rfl rfl rfl rfl rfl (Bool.or_false _)
  add_comm _ _ := RecursiveTally.ext (Nat.add_comm ..) (Nat.add_comm ..) (Nat.add_comm ..)
    (Nat.add_comm ..) (Nat.add_comm ..) (Nat.add_comm ..) (Nat.add_comm ..) (Bool.or_comm ..)
  nsmul := nsmulRec

/-- A sum in which the root was not unreadable again. -/
theorem add_eq_of_readable (y z : RecursiveTally) (h : z.rootUnreadable = false) :
    ⟨y.mediaPlaced + z.mediaPlaced, y.nestedArchives + z.nestedArchives,
      y.skippedUnsupported + z.skippedUnsupported, y.notAnArchive + z.notAnArchive,
      y.depthCapped + z.depthCapped, y.budgetStopped + z.budgetStopped, y.unreadable + z.unreadable,
      y.rootUnreadable⟩ = y + z :=
  RecursiveTally.ext rfl rfl rfl rfl rfl rfl rfl (by
    rw [← Bool.or_false y.rootUnreadable, ← h]
    rfl)

def MediumTurn.tally (m : MediumTurn σ) : RecursiveTally :=
  if m.placed then { mediaPlaced := 1 } else { skippedUnsupported := 1 }

def Fate.tally : Fate → RecursiveTally
  | .unreadable => { unreadable := 1 }
  | .notAnArchive => { notAnArchive := 1 }
  | .depthCapped => { depthCapped := 1 }
  | .budgetStopped => { budgetStopped := 1 }
  | .entered _ => { nestedArchives := 1 }

/-- The tally of the files whose turn has come. -/
def mediaTally (media : List (MediumTurn σ)) : RecursiveTally := (media.map MediumTurn.tally).sum

/-- What an archive adds to the tallies; one that could not be listed is unreadable. -/
def Account.tally (a : Account σ) : RecursiveTally :=
  mediaTally a.media + { skippedUnsupported := a.leftOut } +
    (if a.entries.isNone then { unreadable := 1, rootUnreadable := a.frame.depth == 0 } else 0) +
    (a.nested.map fun c ↦ c.fate.tally).sum

theorem mediaTally_concat (media : List (MediumTurn σ)) (m : MediumTurn σ) :
    mediaTally (media ++ [m]) = mediaTally media + m.tally := by
  rw [mediaTally, List.map_append, List.sum_append, List.map_singleton, List.sum_singleton]
  rfl

theorem tally_note (a : Account σ) (p : ZipPlacement) (s : Walk σ) (fate : Fate) :
    (a.note p s fate).tally = a.tally + fate.tally := by
  rw [Account.tally, Account.note, List.map_append, List.sum_append, List.map_singleton,
    List.sum_singleton, ← add_assoc]
  rfl

end Tally

/-! ## What the hooks say -/

section Answers

variable (H f)

/-- The hooks extract and place a file, from the state before its turn. -/
def Places (p : ZipPlacement) (x : σ) : Prop :=
  ∃ payload x', H.extractEntry f.bytes f.kind p.entryIndex (H.cancelled x).2 = (some payload, x') ∧
    (H.placeMedia p.galleryPath p.filename payload x').1 = true

/-- An archive in an archive comes out as one that the budget lets in. -/
def Admitted (p : ZipPlacement) (x : σ) (b : RecursionBudget) (child : Bytes) (x' : σ) : Prop :=
  H.extractEntry f.bytes f.kind p.entryIndex (H.cancelled x).2 = (some child, x') ∧
    (ArchiveNames.detectArchiveKind p.filename child).isSome = true ∧
    (b.noteExpanded (sizeOf child)).mayDescend f.depth (sizeOf child) = .allow

/-- What an archive in an archive has to meet its fate for. -/
def Meets (p : ZipPlacement) (x : σ) (b : RecursionBudget) : Fate → Prop
  | .unreadable => (H.extractEntry f.bytes f.kind p.entryIndex (H.cancelled x).2).1 = none
  | .notAnArchive => ∃ child,
    (H.extractEntry f.bytes f.kind p.entryIndex (H.cancelled x).2).1 = some child ∧
      ArchiveNames.detectArchiveKind p.filename child = none
  | .depthCapped => ∃ child,
    (H.extractEntry f.bytes f.kind p.entryIndex (H.cancelled x).2).1 = some child ∧
      (ArchiveNames.detectArchiveKind p.filename child).isSome = true ∧
      (b.noteExpanded (sizeOf child)).mayDescend f.depth (sizeOf child) = .depthExceeded
  | .budgetStopped => ∃ child,
    (H.extractEntry f.bytes f.kind p.entryIndex (H.cancelled x).2).1 = some child ∧
      (ArchiveNames.detectArchiveKind p.filename child).isSome = true ∧
      (b.noteExpanded (sizeOf child)).mayDescend f.depth (sizeOf child) ∉
        [RecursionVerdict.allow, .depthExceeded]
  | .entered _ => ∃ child x', Admitted H f p x b child x'

end Answers

/-- The account agrees with what the hooks say at each turn. -/
structure Account.Answered (H : Hooks σ) (a : Account σ) : Prop where
  entries : (H.listEntries a.frame.bytes a.frame.kind a.before).1 = a.entries
  media : ∀ m ∈ a.media, m.placed = true ↔ Places H a.frame m.placement m.before
  nested : ∀ c ∈ a.nested, Meets H a.frame c.placement c.before c.budget c.fate

/-- Nothing of an archive that was refused is admitted. -/
theorem not_admitted_of_meets {x : σ} {budget : RecursionBudget} {fate : Fate}
    (h : Meets H f p x budget fate) (hfate : ∀ name, fate ≠ .entered name) (child : Bytes) (x' : σ) :
    ¬Admitted H f p x budget child x' := by
  rintro ⟨hextract, hkind, hallow⟩
  rcases fate with _ | _ | _ | _ | name
  · exact nomatch (congrArg Prod.fst hextract).symm.trans h
  · obtain ⟨child', hchild, hnone⟩ := h
    obtain rfl := Option.some.inj ((congrArg Prod.fst hextract).symm.trans hchild)
    rw [hnone] at hkind
    exact Bool.false_ne_true hkind
  · obtain ⟨child', hchild, -, hdepth⟩ := h
    obtain rfl := Option.some.inj ((congrArg Prod.fst hextract).symm.trans hchild)
    exact nomatch hallow.symm.trans hdepth
  · obtain ⟨child', hchild, -, hstop⟩ := h
    obtain rfl := Option.some.inj ((congrArg Prod.fst hextract).symm.trans hchild)
    exact hstop (hallow ▸ List.mem_cons_self)
  · exact hfate name rfl

/-! ## The parts of the walk -/

/-- Nothing was counted, and no account closed. -/
structure Quiet (s t : Walk σ) : Prop where
  tally : t.tally = s.tally
  accounts : t.accounts = s.accounts

theorem Quiet.trans (h : Quiet s t) (h' : Quiet t u) : Quiet s u :=
  ⟨h'.tally.trans h.tally, h'.accounts.trans h.accounts⟩

theorem quiet_ask (path : Bytes) (s : Walk σ) : Quiet s (ask H path s).2 := ⟨rfl, rfl⟩

theorem quiet_askAll (gs : List Bytes) (s : Walk σ) : Quiet s (askAll H gs s).2 := by
  induction gs generalizing s with
  | nil => exact ⟨rfl, rfl⟩
  | cons g gs ih =>
    have hask : Quiet s (ask H g s).2 := quiet_ask g s
    rw [askAll]
    rcases hmade : ask H g s with ⟨_ | _, u⟩
    all_goals rw [hmade] at hask
    · exact hask
    · exact hask.trans (ih u)

theorem quiet_applyOwnMeta (f : Frame) (entries : List ZipEntry) (s : Walk σ) :
    Quiet s (applyOwnMeta H f entries s) := by
  rw [applyOwnMeta]
  rcases ZipPlan.findMetaEntry entries with _ | i
  · exact ⟨rfl, rfl⟩
  · dsimp only
    rcases H.extractEntry f.bytes f.kind i s.hooked with ⟨_ | bytes, x⟩
    · exact ⟨rfl, rfl⟩
    · exact ⟨rfl, rfl⟩

/-- **What can become of an archive in an archive** before it is walked. -/
theorem pick_cases (H : Hooks σ) (f : Frame) (p : ZipPlacement) (taken : List Bytes) (s : Walk σ) :
    match pick H f p taken s with
    | .cancelled t => Quiet s t ∧ (H.cancelled s.hooked).1 = true
    | .refused fate t => t.accounts = s.accounts ∧ t.tally = s.tally + fate.tally ∧
        Meets H f p s.hooked s.budget fate ∧ ∀ name, fate ≠ .entered name
    | .unmade name t => Quiet s t ∧
        name = ArchiveNames.uniqueGalleryName (ArchiveNames.baseName p.filename) taken ∧
        ∃ child x, Admitted H f p s.hooked s.budget child x ∧
          (H.createGallery (subGallery p.galleryPath name) x).1 = false
    | .picked name _ child t => Quiet s t ∧
        name = ArchiveNames.uniqueGalleryName (ArchiveNames.baseName p.filename) taken ∧
        ∃ x, Admitted H f p s.hooked s.budget child x ∧
          (H.createGallery (subGallery p.galleryPath name) x).1 = true := by
  rw [pick]
  rcases hpoll : poll H s with ⟨_ | _, u⟩
  · obtain ⟨-, rfl⟩ := Prod.mk.inj hpoll
    dsimp only
    rw [vetNested]
    rcases hextract : H.extractEntry f.bytes f.kind p.entryIndex
      (s.setHooked (H.cancelled s.hooked).2).hooked with ⟨_ | child, x⟩
    · exact ⟨rfl, add_eq_of_readable s.tally (Fate.tally .unreadable) rfl, congrArg Prod.fst hextract,
        fun _ ↦ Fate.noConfusion⟩
    · have hchild : (H.extractEntry f.bytes f.kind p.entryIndex (H.cancelled s.hooked).2).1 =
        some child := congrArg Prod.fst hextract
      dsimp only
      rcases hkind : ArchiveNames.detectArchiveKind p.filename child with _ | kind
      · exact ⟨rfl, add_eq_of_readable s.tally (Fate.tally .notAnArchive) rfl,
          ⟨child, hchild, hkind⟩, fun _ ↦ Fate.noConfusion⟩
      · have hsome : (ArchiveNames.detectArchiveKind p.filename child).isSome = true := by
          rw [hkind]
          rfl
        dsimp only
        rcases hverdict : (((s.setHooked (H.cancelled s.hooked).2).setHooked x).expand
          child).budget.mayDescend f.depth (sizeOf child)
        case allow =>
          have hadmitted : Admitted H f p s.hooked s.budget child x := ⟨hextract, hsome, hverdict⟩
          generalize hname : ArchiveNames.uniqueGalleryName _ _ = name
          dsimp only
          rcases hask : ask H (subGallery p.galleryPath name)
            (((s.setHooked (H.cancelled s.hooked).2).setHooked x).expand child) with ⟨_ | _, w⟩
          all_goals
            obtain ⟨hmade, rfl⟩ := Prod.mk.inj hask
          · exact ⟨⟨rfl, rfl⟩, rfl, child, x, hadmitted, hmade⟩
          · exact ⟨⟨rfl, rfl⟩, rfl, x, hadmitted, hmade⟩
        case depthExceeded =>
          exact ⟨rfl, add_eq_of_readable s.tally (Fate.tally .depthCapped) rfl,
            ⟨child, hchild, hsome, hverdict⟩, fun _ ↦ Fate.noConfusion⟩
        all_goals
          refine ⟨rfl, add_eq_of_readable s.tally (Fate.tally .budgetStopped) rfl,
            ⟨child, hchild, hsome, fun hmem ↦ ?_⟩, fun _ ↦ Fate.noConfusion⟩
          exact absurd (hverdict ▸ hmem) (by decide)
  · obtain ⟨hcancelled, rfl⟩ := Prod.mk.inj hpoll
    exact ⟨⟨rfl, rfl⟩, hcancelled⟩

/-! ## The tallies are the sum of the accounts -/

section Booked

variable {base : RecursiveTally}

/-- With so much from elsewhere the accounts make up the tallies, and with so many that are open there is
one for the root and for each archive entered; and they agree with the hooks. -/
structure Booked (H : Hooks σ) (base : RecursiveTally) (k : ℕ) (s : Walk σ) : Prop where
  tally : s.tally = base + (s.accounts.map Account.tally).sum
  accounts : s.accounts.length + k = s.tally.nestedArchives + 1
  answered : ∀ a ∈ s.accounts, a.Answered H

theorem Booked.congr (h : Booked H base k s) (hquiet : Quiet s t) : Booked H base k t := by
  obtain ⟨htally, haccounts⟩ := hquiet
  refine ⟨?_, ?_, ?_⟩
  · rw [htally, haccounts]
    exact h.tally
  · rw [htally, haccounts]
    exact h.accounts
  · rw [haccounts]
    exact h.answered

/-- Something that is no archive entered is counted. -/
theorem Booked.count (h : Booked H base k s) (haccounts : t.accounts = s.accounts)
    (htally : t.tally = s.tally + y) (hy : y.nestedArchives = 0) : Booked H (base + y) k t := by
  refine ⟨?_, ?_, ?_⟩
  · rw [htally, haccounts, h.tally, add_right_comm]
  · have hnested : t.tally.nestedArchives = s.tally.nestedArchives + y.nestedArchives :=
      congrArg RecursiveTally.nestedArchives htally
    rw [haccounts, hnested, hy]
    exact h.accounts
  · rw [haccounts]
    exact h.answered

/-- An account that is closed makes up for what it adds. -/
theorem Booked.close (h : Booked H (base + a.tally) (k + 1) s) (ha : a.Answered H) :
    Booked H base k (s.close a) := by
  refine ⟨?_, ?_, ?_⟩
  · have hsum : ((s.close a).accounts.map Account.tally).sum =
        (s.accounts.map Account.tally).sum + a.tally := by
      rw [Walk.close, List.map_append, List.sum_append, List.map_singleton, List.sum_singleton]
    rw [hsum, add_comm _ a.tally, ← add_assoc]
    exact h.tally
  · have hlen : (s.close a).accounts.length = s.accounts.length + 1 := List.length_append
    rw [hlen, Nat.add_assoc, Nat.add_comm 1 k]
    exact h.accounts
  · intro b hb
    rcases List.mem_append.mp hb with hb | hb
    · exact h.answered b hb
    · exact List.mem_singleton.mp hb ▸ ha

/-- Entering an archive opens an account. -/
theorem Booked.enter (h : Booked H base k s) (depth : ℤ) (bytes name : Bytes) :
    Booked H (base + (Fate.entered name).tally) (k + 1) (s.enter depth bytes) := by
  refine ⟨?_, congrArg (· + 1) h.accounts, h.answered⟩
  have hsum : (s.enter depth bytes).tally = s.tally + (Fate.entered name).tally :=
    add_eq_of_readable s.tally (Fate.entered name).tally rfl
  rw [hsum, h.tally, add_right_comm]
  rfl

/-- **The files of an archive** are counted, each at its turn. -/
theorem booked_placeMedia (ps : List ZipPlacement) (done : List (MediumTurn σ)) (s : Walk σ)
    (hdone : ∀ m ∈ done, m.placed = true ↔ Places H f m.placement m.before)
    (h : Booked H (base + mediaTally done) k s) :
    (∀ m ∈ (placeMedia H f ps done s).2.1, m.placed = true ↔ Places H f m.placement m.before) ∧
      Booked H (base + mediaTally (placeMedia H f ps done s).2.1) k
        (placeMedia H f ps done s).2.2 := by
  induction ps generalizing done s with
  | nil => exact ⟨hdone, h⟩
  | cons p ps ih =>
    -- The turn of a file adds it to those that are done.
    have hturn (placed : Bool) (hplaced : placed = true ↔ Places H f p s.hooked) (u : Walk σ)
        (haccounts : u.accounts = s.accounts)
        (htally : u.tally = s.tally + (⟨p, s.hooked, placed⟩ : MediumTurn σ).tally) :
        (∀ m ∈ (placeMedia H f ps (done ++ [⟨p, s.hooked, placed⟩]) u).2.1,
          m.placed = true ↔ Places H f m.placement m.before) ∧
          Booked H (base + mediaTally (placeMedia H f ps (done ++ [⟨p, s.hooked, placed⟩]) u).2.1) k
            (placeMedia H f ps (done ++ [⟨p, s.hooked, placed⟩]) u).2.2 := by
      refine ih _ u (fun m hm ↦ ?_) ?_
      · rcases List.mem_append.mp hm with hm | hm
        · exact hdone m hm
        · obtain rfl := List.mem_singleton.mp hm
          exact hplaced
      · rw [mediaTally_concat, ← add_assoc]
        refine h.count haccounts htally ?_
        rcases placed <;> rfl
    rw [placeMedia]
    rcases hpoll : poll H s with ⟨_ | _, u⟩
    all_goals
      obtain ⟨-, rfl⟩ := Prod.mk.inj hpoll
      dsimp only
    · rcases hextract : H.extractEntry f.bytes f.kind p.entryIndex
        (s.setHooked (H.cancelled s.hooked).2).hooked with ⟨_ | payload, x⟩
      · refine hturn false (iff_of_false Bool.false_ne_true ?_) _ rfl
          (add_eq_of_readable s.tally { skippedUnsupported := 1 } rfl)
        rintro ⟨payload, x', hpayload, -⟩
        exact Option.some_ne_none _ (congrArg Prod.fst (hpayload.symm.trans hextract))
      · -- What comes out decides whether it is placed.
        have hiff : (H.placeMedia p.galleryPath p.filename payload x).1 = true ↔
            Places H f p s.hooked := by
          refine ⟨fun hplaced ↦ ⟨payload, x, hextract, hplaced⟩, ?_⟩
          rintro ⟨payload', x', hpayload, hplaced⟩
          obtain ⟨hsome, rfl⟩ := Prod.mk.inj (hextract.symm.trans hpayload)
          obtain rfl := Option.some.inj hsome
          exact hplaced
        dsimp only
        rcases hplace : H.placeMedia p.galleryPath p.filename payload
          (((s.setHooked (H.cancelled s.hooked).2).setHooked x).expand payload).hooked with ⟨_ | _, x'⟩
        all_goals
          have hfst := congrArg Prod.fst hplace
          dsimp only at hfst
        · exact hturn false (hfst ▸ hiff) _ rfl
            (add_eq_of_readable s.tally { skippedUnsupported := 1 } rfl)
        · exact hturn true (hfst ▸ hiff) _ rfl
            (add_eq_of_readable s.tally { mediaPlaced := 1 } rfl)
    · exact ⟨hdone, h.congr ⟨rfl, rfl⟩⟩

/-- **An archive**, up to the archives in it. -/
theorem booked_openArchive (h : Booked H base (k + 1) s) :
    match openArchive H f s with
    | (none, t) => Booked H base k t
    | (some (_, a), t) => Booked H (base + a.tally) (k + 1) t ∧ a.Answered H := by
  rw [openArchive]
  rcases hlist : H.listEntries f.bytes f.kind s.hooked with ⟨_ | entries, x⟩
  · refine Booked.close (h.count rfl ?_ ?_) ⟨congrArg Prod.fst hlist,
      List.forall_mem_nil _, List.forall_mem_nil _⟩
    · refine RecursiveTally.ext rfl rfl rfl rfl rfl rfl rfl ?_
      change (s.tally.rootUnreadable || f.depth == 0) =
        (s.tally.rootUnreadable || (((false || false) || f.depth == 0) || false))
      rw [Bool.or_false, Bool.or_false, Bool.false_or]
    · rfl
  · have hentries : (H.listEntries f.bytes f.kind s.hooked).1 = some entries :=
      congrArg Prod.fst hlist
    have hasked : Quiet s (askAll H (planOf f entries).galleries (s.setHooked x)).2 :=
      Quiet.trans (t := s.setHooked x) ⟨rfl, rfl⟩ (quiet_askAll _ _)
    dsimp only
    rcases hask : askAll H (planOf f entries).galleries (s.setHooked x) with ⟨_ | _, u⟩
    all_goals rw [hask] at hasked
    · exact Booked.close ((h.congr hasked).count (y := 0) rfl (add_zero _).symm rfl)
        ⟨hentries, List.forall_mem_nil _, List.forall_mem_nil _⟩
    · have hmeta := h.congr (hasked.trans (quiet_applyOwnMeta (H := H) f entries u))
      dsimp only
      generalize hready : Walk.setHooked (Walk.setTally (applyOwnMeta H f entries u) _) _ = ready
      have hleft : Booked H
          (base + { skippedUnsupported := (planOf f entries).skippedUnsupported } +
            mediaTally ([] : List (MediumTurn σ))) (k + 1) ready := by
        refine Booked.count (hmeta.count (t := ready) ?_ ?_ rfl) rfl (add_zero _).symm rfl
        · rw [← hready]
          rfl
        · rw [← hready]
          exact add_eq_of_readable (applyOwnMeta H f entries u).tally
            { skippedUnsupported := (planOf f entries).skippedUnsupported } rfl
      obtain ⟨hanswered, hplaced⟩ :=
        booked_placeMedia (f := f) (planOf f entries).placements [] ready (List.forall_mem_nil _) hleft
      rcases hplace : placeMedia H f (planOf f entries).placements [] ready with ⟨_ | _, media, v⟩
      all_goals
        rw [hplace] at hanswered hplaced
        dsimp only at hanswered hplaced ⊢
        generalize haccount : Account.mk f s.hooked (some entries) media
          (planOf f entries).skippedUnsupported [] = account
        have htally : account.tally =
            { skippedUnsupported := (planOf f entries).skippedUnsupported } + mediaTally media := by
          rw [← haccount, add_comm _ (mediaTally media)]
          exact (add_zero _).trans (add_zero _)
        have hanswers : account.Answered H := by
          rw [← haccount]
          exact ⟨hentries, hanswered, List.forall_mem_nil _⟩
        rw [add_assoc, ← htally] at hplaced
      · exact hplaced.close hanswers
      · exact ⟨hplaced, hanswers⟩

/-- **The archives in an archive.** -/
theorem booked_descend
    (hwalk : ∀ g s t base k, walk g s = some t → Booked H base (k + 1) s → Booked H base k t)
    (ha : a.Answered H) (h : Booked H (base + a.tally) (k + 1) s)
    (hend : descend H walk ps taken a s = some t) : Booked H base k t := by
  induction ps generalizing taken a s with
  | nil =>
    obtain rfl := Option.some.inj hend
    exact h.close ha
  | cons p ps ih =>
    have hpick := pick_cases H a.frame p taken s
    have hnote (fate : Fate) (hmeets : Meets H a.frame p s.hooked s.budget fate) :
        (a.note p s fate).Answered H := by
      refine ⟨ha.entries, ha.media, fun c hc ↦ ?_⟩
      rcases List.mem_append.mp hc with hc | hc
      · exact ha.nested c hc
      · obtain rfl := List.mem_singleton.mp hc
        exact hmeets
    rw [descend] at hend
    rcases hpicked : pick H a.frame p taken s with u | ⟨fate, u⟩ | ⟨name, u⟩ | ⟨name, kind, child, u⟩
    all_goals
      rw [hpicked] at hpick hend
      dsimp only at hpick hend
    · obtain rfl := Option.some.inj hend
      exact (h.congr hpick.1).close ha
    · obtain ⟨haccounts, htally, hmeets, hfate⟩ := hpick
      refine ih (hnote fate hmeets) ?_ hend
      rw [tally_note, ← add_assoc]
      refine h.count haccounts htally ?_
      rcases fate with _ | _ | _ | _ | name
      case entered => exact absurd rfl (hfate name)
      all_goals rfl
    · exact ih ha (h.congr hpick.1) hend
    · obtain ⟨hquiet, -, x, hadmitted, -⟩ := hpick
      obtain ⟨v, hv, hend⟩ := Option.bind_eq_some_iff.mp hend
      refine ih (hnote (.entered name) ⟨child, x, hadmitted⟩) ?_ hend
      rw [tally_note, ← add_assoc]
      have hentered := (h.congr hquiet).enter (a.frame.depth + 1) child name
      exact (hwalk _ _ _ _ _ hv hentered).congr ⟨rfl, rfl⟩

/-- **One archive.** -/
theorem booked_walkOne (hend : walkOne H n f s = some t) (h : Booked H base (k + 1) s) :
    Booked H base k t := by
  induction n generalizing f s t base k with
  | zero => exact nomatch hend
  | succ n ih =>
    have hopened := booked_openArchive (f := f) h
    rw [walkOne] at hend
    rcases hopen : openArchive H f s with ⟨_ | ⟨plan, a⟩, u⟩
    all_goals rw [hopen] at hopened hend
    · exact Option.some.inj hend ▸ hopened
    · exact booked_descend (fun _ _ _ _ _ hwalk hs ↦ ih hwalk hs) hopened.2 hopened.1 hend

theorem booked_start (rootBytes : Bytes) (L : RecursionLimits) (x : σ) :
    Booked H 0 1 (start rootBytes L x) := ⟨rfl, rfl, nofun⟩

end Booked

end NestedWalk

end SafeVault
