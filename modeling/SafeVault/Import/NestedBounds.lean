import SafeVault.Import.NestedWalk
import Mathlib.Tactic.Linarith

/-!
# The walk through archives is bounded

A frame is at the depth of its parent and one more, and none is entered at the largest depth, so the
walk ends. The limits hold for the counters of the budget; the counters are what they say as long as
no addition to them wraps around, and this is what the limits depend on.
-/

namespace SafeVault

namespace NestedWalk

variable {σ : Type} {H : Hooks σ} {s t : Walk σ} {f : Frame} {n m : ℕ}
  {walk walk' : Frame → Walk σ → Option (Walk σ)} {ps : List ZipPlacement} {taken : List Bytes}
  {a : Account σ}

/-! ## The walk ends -/

theorem descend_mono (hwalk : ∀ f s t, walk f s = some t → walk' f s = some t)
    (h : descend H walk ps taken a s = some t) : descend H walk' ps taken a s = some t := by
  induction ps generalizing taken a s with
  | nil => exact h
  | cons p ps ih =>
    rw [descend] at h ⊢
    rcases hpick : pick H a.frame p taken s with u | ⟨fate, u⟩ | ⟨name, u⟩ | ⟨name, kind, child, u⟩
    all_goals
      rw [hpick] at h
      dsimp only at h ⊢
    · exact h
    · exact ih h
    · exact ih h
    · obtain ⟨u, hu, h⟩ := Option.bind_eq_some_iff.mp h
      exact Option.bind_eq_some_iff.mpr ⟨u, hwalk _ _ _ hu, ih h⟩

/-- More fuel does not change the result. -/
theorem walkOne_mono (h : walkOne H n f s = some t) (hle : n ≤ m) : walkOne H m f s = some t := by
  induction n generalizing f s t m with
  | zero => exact nomatch h
  | succ n ih =>
    obtain ⟨m, rfl⟩ := Nat.exists_eq_add_of_lt (Nat.lt_of_succ_le hle)
    rw [walkOne] at h ⊢
    rcases hopen : openArchive H f s with ⟨_ | ⟨plan, a⟩, u⟩
    all_goals rw [hopen] at h
    · exact h
    · exact descend_mono (fun f s t hwalk ↦ ih hwalk (Nat.le_add_right n m)) h

theorem walkOne_unique {t' : Walk σ} (h : walkOne H n f s = some t) (h' : walkOne H m f s = some t') :
    t = t' :=
  Option.some.inj ((walkOne_mono h (le_max_left n m)).symm.trans (walkOne_mono h' (le_max_right n m)))

/-! ## What the log says -/

def Event.expandedBytes : Event → ℕ
  | .expanded bytes => bytes
  | _ => 0

/-- What an event adds to the bytes of the archives that are entered and not yet left. -/
def Event.liveChange : Event → ℤ
  | .entered _ bytes => bytes
  | .left bytes => -bytes
  | _ => 0

def Event.entries : Event → ℤ
  | .entered _ _ => 1
  | _ => 0

def expandedIn (log : List Event) : ℕ := (log.map Event.expandedBytes).sum

def liveIn (log : List Event) : ℤ := (log.map Event.liveChange).sum

def enteredIn (log : List Event) : ℤ := (log.map Event.entries).sum

section Log

variable {log : List Event} {e : Event}

@[simp] theorem expandedIn_concat : expandedIn (log ++ [e]) = expandedIn log + e.expandedBytes := by
  simp [expandedIn]

@[simp] theorem liveIn_concat : liveIn (log ++ [e]) = liveIn log + e.liveChange := by
  simp [liveIn]

@[simp] theorem enteredIn_concat : enteredIn (log ++ [e]) = enteredIn log + e.entries := by
  simp [enteredIn]

end Log

/-- What the limits ask for when an event comes after others: the live bytes are within theirs, and
an archive is only entered within all the others. The ratio does not count for an empty root. -/
def Within (L : RecursionLimits) (root : UInt64) (past : List Event) (e : Event) : Prop :=
  liveIn (past ++ [e]) ≤ L.maxLiveBytes.toNat ∧
    match e with
    | .entered depth _ =>
      depth ≤ L.maxDepth ∧ enteredIn past + 1 ≤ L.maxNestedArchives ∧
        expandedIn past ≤ L.maxTotalExpanded.toNat ∧
        (0 < root → expandedIn past ≤ L.maxExpansionRatio.toNat * root.toNat)
    | _ => True

/-- An archive is entered while what was expanded, and what is live with it, is below `2 ^ 64`. -/
def Unwrapped (past : List Event) (e : Event) : Prop :=
  match e with
  | .entered _ bytes => expandedIn past < 2 ^ 64 ∧ liveIn past + bytes < 2 ^ 64
  | _ => True

/-! ## The counters -/

section Counters

variable {L : RecursionLimits} {root : UInt64}

/-- The counters of the budget and the log. -/
structure Sound (L : RecursionLimits) (root : UInt64) (s : Walk σ) : Prop where
  limits : s.budget.limits = L
  rootBytes : s.budget.rootBytes = root
  total : s.budget.totalExpanded = UInt64.ofNat (expandedIn s.log)
  seen : s.budget.nestedSeen = enteredIn s.log
  live : History.Admits Unwrapped s.log → (s.budget.liveBytes.toNat : ℤ) = liveIn s.log
  within : History.Admits Unwrapped s.log → History.Admits (Within L root) s.log

theorem liveIn_le_of_admits {log : List Event} (h : History.Admits (Within L root) log) :
    liveIn log ≤ L.maxLiveBytes.toNat := by
  rcases List.eq_nil_or_concat log with rfl | ⟨past, e, rfl⟩
  · exact Int.natCast_nonneg _
  · rw [List.concat_eq_append] at h ⊢
    exact (History.admits_concat.mp h).2.1

theorem log_expand (s : Walk σ) (bytes : Bytes) :
    (s.expand bytes).log = s.log ++ [.expanded bytes.length] := rfl

theorem log_enter (s : Walk σ) (depth : ℤ) (bytes : Bytes) :
    (s.enter depth bytes).log = s.log ++ [.entered depth bytes.length] := rfl

theorem log_leave (s : Walk σ) (bytes : Bytes) :
    (s.leave bytes).log = s.log ++ [.left bytes.length] := rfl

/-- What one part of the walk does: it adds to the log, leaves what is live as it was, and keeps the
counters right. -/
structure Kept (L : RecursionLimits) (root : UInt64) (s t : Walk σ) : Prop where
  log : s.log <+: t.log
  live : liveIn t.log = liveIn s.log
  sound : Sound L root s → Sound L root t

theorem Kept.refl (s : Walk σ) : Kept L root s s := ⟨List.prefix_rfl, rfl, id⟩

theorem Kept.trans {u : Walk σ} (h : Kept L root s t) (h' : Kept L root t u) : Kept L root s u :=
  ⟨h.log.trans h'.log, h'.live.trans h.live, h'.sound ∘ h.sound⟩

/-- The hooks and the tally have no part in this. -/
theorem kept_of_eq (hbudget : t.budget = s.budget) (hlog : t.log = s.log) : Kept L root s t := by
  refine ⟨hlog ▸ List.prefix_rfl, by rw [hlog], ?_⟩
  rintro ⟨h1, h2, h3, h4, h5, h6⟩
  rw [← hbudget, ← hlog] at *
  exact ⟨h1, h2, h3, h4, h5, h6⟩

theorem kept_expand (s : Walk σ) (bytes : Bytes) : Kept L root s (s.expand bytes) := by
  have hliveEq : liveIn (s.log ++ [.expanded bytes.length]) = liveIn s.log := by
    rw [liveIn_concat]
    exact add_zero _
  refine ⟨List.prefix_append _ _, hliveEq, fun h ↦ ?_⟩
  refine ⟨h.limits, h.rootBytes, ?_, ?_, fun hunwrapped ↦ ?_, fun hunwrapped ↦ ?_⟩
  · have hadd : (s.expand bytes).budget.totalExpanded =
        s.budget.totalExpanded + UInt64.ofNat bytes.length := rfl
    rw [hadd, h.total, ← UInt64.ofNat_add, log_expand, expandedIn_concat]
    rfl
  · rw [log_expand, enteredIn_concat]
    exact h.seen.trans (add_zero _).symm
  · exact (h.live (History.admits_concat.mp hunwrapped).1).trans hliveEq.symm
  · have hpast := h.within (History.admits_concat.mp hunwrapped).1
    refine History.admits_concat.mpr ⟨hpast, ?_, trivial⟩
    rw [hliveEq]
    exact liveIn_le_of_admits hpast

theorem mayDescend_eq_allow_iff {b : RecursionBudget} {depth : ℤ} {bytes : UInt64} :
    b.mayDescend depth bytes = .allow ↔ depth < b.limits.maxDepth ∧
      b.nestedSeen < b.limits.maxNestedArchives ∧ b.totalExpanded ≤ b.limits.maxTotalExpanded ∧
      b.liveBytes + bytes ≤ b.limits.maxLiveBytes ∧
      (0 < b.rootBytes → b.totalExpanded ≤ b.limits.maxExpansionRatio * b.rootBytes) := by
  rw [RecursionBudget.mayDescend]
  split_ifs with h1 h2 h3 h4 h5
  · exact iff_of_false nofun fun h ↦ absurd h.1 (not_lt.mpr h1)
  · exact iff_of_false nofun fun h ↦ absurd h.2.1 (not_lt.mpr h2)
  · exact iff_of_false nofun fun h ↦ absurd h.2.2.1 (UInt64.not_le.mpr h3)
  · exact iff_of_false nofun fun h ↦ absurd h.2.2.2.1 (UInt64.not_le.mpr h4)
  · exact iff_of_false nofun fun h ↦ absurd (h.2.2.2.2 h5.1) (UInt64.not_le.mpr h5.2)
  · refine iff_of_true rfl ⟨not_le.mp h1, not_le.mp h2, UInt64.not_lt.mp h3, UInt64.not_lt.mp h4,
      fun hroot ↦ ?_⟩
    exact UInt64.not_lt.mp fun hlt ↦ h5 ⟨hroot, hlt⟩

/-- A product that wraps around is only smaller. -/
theorem toNat_le_of_le_mul {a b c : UInt64} (h : a ≤ b * c) : a.toNat ≤ b.toNat * c.toNat := by
  rw [UInt64.le_iff_toNat_le, UInt64.toNat_mul] at h
  exact h.trans (Nat.mod_le _ _)

/-- **Entering** an archive that the budget allows. -/
theorem sound_enter (h : Sound L root s) {depth : ℤ} {child : Bytes}
    (hallow : s.budget.mayDescend depth (sizeOf child) = .allow) :
    Sound L root (s.enter (depth + 1) child) := by
  obtain ⟨hdepth, hseen, htotal, hlive, hratio⟩ := mayDescend_eq_allow_iff.mp hallow
  rw [h.limits] at hdepth hseen htotal hlive hratio
  rw [h.rootBytes] at hratio
  -- Without a wrap, the total and the live bytes with those of the archive are what the log says.
  have hexact (hunwrapped : History.Admits Unwrapped (s.enter (depth + 1) child).log) :
      History.Admits Unwrapped s.log ∧ s.budget.totalExpanded.toNat = expandedIn s.log ∧
        ((s.budget.liveBytes + sizeOf child).toNat : ℤ) = liveIn s.log + child.length := by
    obtain ⟨hpast, hfits⟩ := History.admits_concat.mp hunwrapped
    have htotal64 : expandedIn s.log < 2 ^ 64 := hfits.1
    have hlive64 : liveIn s.log + child.length < 2 ^ 64 := hfits.2
    have hcounter := h.live hpast
    refine ⟨hpast, ?_, ?_⟩
    · rw [h.total, UInt64.toNat_ofNat', Nat.mod_eq_of_lt htotal64]
    · rw [UInt64.toNat_add, sizeOf, UInt64.toNat_ofNat', Nat.mod_eq_of_lt (by omega),
        Nat.mod_eq_of_lt (by omega)]
      omega
  have hlog : liveIn (s.log ++ [.entered (depth + 1) child.length]) = liveIn s.log + child.length := by
    rw [liveIn_concat]
    rfl
  refine ⟨h.limits, h.rootBytes, ?_, ?_, fun hunwrapped ↦ ?_, fun hunwrapped ↦ ?_⟩
  · rw [log_enter, expandedIn_concat]
    exact h.total
  · rw [log_enter, enteredIn_concat, ← h.seen]
    rfl
  · exact (hexact hunwrapped).2.2.trans hlog.symm
  · obtain ⟨hpast, hexactTotal, hexactLive⟩ := hexact hunwrapped
    refine History.admits_concat.mpr ⟨h.within hpast, ?_, ?_, ?_, ?_, fun hroot ↦ ?_⟩
    · rw [hlog, ← hexactLive]
      exact_mod_cast UInt64.le_iff_toNat_le.mp hlive
    · exact Int.add_one_le_of_lt hdepth
    · rw [← h.seen]
      exact Int.add_one_le_of_lt hseen
    · rw [← hexactTotal]
      exact UInt64.le_iff_toNat_le.mp htotal
    · rw [← hexactTotal]
      exact toNat_le_of_le_mul (hratio hroot)

/-- **Leaving** it. -/
theorem sound_leave (h : Sound L root t) {child : Bytes}
    (hlive : History.Admits Unwrapped t.log → (child.length : ℤ) ≤ liveIn t.log) :
    Sound L root (t.leave child) := by
  have hlog : liveIn (t.log ++ [.left child.length]) = liveIn t.log - child.length := by
    rw [liveIn_concat]
    rfl
  refine ⟨h.limits, h.rootBytes, ?_, ?_, fun hunwrapped ↦ ?_, fun hunwrapped ↦ ?_⟩
  · rw [log_leave, expandedIn_concat]
    exact h.total
  · rw [log_leave, enteredIn_concat]
    exact h.seen.trans (add_zero _).symm
  · have hpast := (History.admits_concat.mp hunwrapped).1
    have hcounter := h.live hpast
    have hle := hlive hpast
    have hlt := t.budget.liveBytes.toNat_lt
    have hsize : (sizeOf child).toNat = child.length := by
      rw [sizeOf, UInt64.toNat_ofNat', Nat.mod_eq_of_lt (by omega)]
    have hfits : sizeOf child ≤ t.budget.liveBytes := UInt64.le_iff_toNat_le.mpr (by omega)
    have hmin : min t.budget.liveBytes (sizeOf child) = sizeOf child := by
      refine Eq.trans (b := if t.budget.liveBytes ≤ sizeOf child then _ else _) rfl ?_
      split_ifs with hle'
      · exact UInt64.le_antisymm hle' hfits
      · rfl
    have hbudget : (t.leave child).budget.liveBytes =
      t.budget.liveBytes - min t.budget.liveBytes (sizeOf child) := rfl
    rw [log_leave, hlog, hbudget, hmin, UInt64.toNat_sub_of_le _ _ hfits, hsize]
    omega
  · have hpast := h.within (History.admits_concat.mp hunwrapped).1
    have hle := liveIn_le_of_admits hpast
    refine History.admits_concat.mpr ⟨hpast, ?_, trivial⟩
    rw [hlog]
    omega

/-! ### The parts of the walk -/

theorem Kept.setHooked (h : Kept L root s t) (x : σ) : Kept L root s (t.setHooked x) :=
  h.trans (kept_of_eq rfl rfl)

theorem Kept.setTally (h : Kept L root s t) (y : RecursiveTally) : Kept L root s (t.setTally y) :=
  h.trans (kept_of_eq rfl rfl)

theorem Kept.close (h : Kept L root s t) (a : Account σ) : Kept L root s (t.close a) :=
  h.trans (kept_of_eq rfl rfl)

theorem Kept.expand (h : Kept L root s t) (bytes : Bytes) : Kept L root s (t.expand bytes) :=
  h.trans (kept_expand t bytes)

theorem kept_poll (s : Walk σ) : Kept L root s (poll H s).2 := (Kept.refl s).setHooked _

theorem kept_ask (path : Bytes) (s : Walk σ) : Kept L root s (ask H path s).2 :=
  (Kept.refl s).setHooked _

theorem kept_askAll (gs : List Bytes) (s : Walk σ) : Kept L root s (askAll H gs s).2 := by
  induction gs generalizing s with
  | nil => exact Kept.refl s
  | cons g gs ih =>
    have hask : Kept L root s (ask H g s).2 := kept_ask g s
    rw [askAll]
    rcases hmade : ask H g s with ⟨_ | _, u⟩
    all_goals rw [hmade] at hask
    · exact hask
    · exact hask.trans (ih u)

theorem kept_applyOwnMeta (entries : List ZipEntry) (s : Walk σ) :
    Kept L root s (applyOwnMeta H f entries s) := by
  rw [applyOwnMeta]
  rcases ZipPlan.findMetaEntry entries with _ | i
  · exact Kept.refl s
  · dsimp only
    rcases H.extractEntry f.bytes f.kind i s.hooked with ⟨_ | bytes, x⟩
    · exact (Kept.refl s).setHooked _
    · exact (Kept.refl s).setHooked _

theorem kept_placeMedia (ps : List ZipPlacement) (done : List (MediumTurn σ)) (s : Walk σ) :
    Kept L root s (placeMedia H f ps done s).2.2 := by
  induction ps generalizing done s with
  | nil => exact Kept.refl s
  | cons p ps ih =>
    have hpoll : Kept L root s (poll H s).2 := kept_poll s
    rw [placeMedia]
    rcases hcancelled : poll H s with ⟨_ | _, u⟩
    all_goals rw [hcancelled] at hpoll
    · dsimp only at hpoll ⊢
      rcases H.extractEntry f.bytes f.kind p.entryIndex u.hooked with ⟨_ | payload, x⟩
      · exact ((hpoll.setHooked x).setTally _).trans (ih _ _)
      · have hexpand := (hpoll.setHooked x).expand payload
        dsimp only
        rcases H.placeMedia p.galleryPath p.filename payload
          ((u.setHooked x).expand payload).hooked with ⟨_ | _, y⟩
        · exact ((hexpand.setHooked y).setTally _).trans (ih _ _)
        · exact ((hexpand.setHooked y).setTally _).trans (ih _ _)
    · exact hpoll

theorem kept_openArchive (s : Walk σ) : Kept L root s (openArchive H f s).2 := by
  rw [openArchive]
  rcases H.listEntries f.bytes f.kind s.hooked with ⟨_ | entries, x⟩
  · exact (((Kept.refl s).setHooked x).setTally _).close _
  · have hlisted : Kept L root s (s.setHooked x) := (Kept.refl s).setHooked x
    have hasked := hlisted.trans (kept_askAll (H := H) (planOf f entries).galleries _)
    dsimp only
    rcases hask : askAll H (planOf f entries).galleries (s.setHooked x) with ⟨_ | _, u⟩
    all_goals rw [hask] at hasked
    · exact hasked.close _
    · have hmeta := hasked.trans (kept_applyOwnMeta (H := H) (f := f) entries u)
      dsimp only
      generalize hready : Walk.setHooked _ _ = ready
      have hkept : Kept L root s ready := hready ▸ (hmeta.setTally _).setHooked _
      have hplaced :=
        hkept.trans (kept_placeMedia (H := H) (f := f) (planOf f entries).placements [] ready)
      rcases hplace : placeMedia H f (planOf f entries).placements [] ready with ⟨_ | _, media, v⟩
      all_goals rw [hplace] at hplaced
      · exact hplaced.close _
      · exact hplaced

/-- An archive that is not refused is allowed by the budget. -/
theorem kept_vetNested (p : ZipPlacement) (s : Walk σ) :
    Kept L root s (vetNested H f p s).2 ∧
      ∀ kind child, (vetNested H f p s).1 = .ok (kind, child) →
        (vetNested H f p s).2.budget.mayDescend f.depth (sizeOf child) = .allow := by
  rw [vetNested]
  rcases H.extractEntry f.bytes f.kind p.entryIndex s.hooked with ⟨_ | child, x⟩
  · exact ⟨((Kept.refl s).setHooked x).setTally _, nofun⟩
  · have hexpand : Kept L root s ((s.setHooked x).expand child) :=
      ((Kept.refl s).setHooked x).expand child
    dsimp only
    rcases ArchiveNames.detectArchiveKind p.filename child with _ | kind
    · exact ⟨hexpand.setTally _, nofun⟩
    · dsimp only
      rcases hverdict : ((s.setHooked x).expand child).budget.mayDescend f.depth (sizeOf child)
      · refine ⟨hexpand, fun kind' child' heq ↦ ?_⟩
        obtain ⟨-, rfl⟩ := Prod.mk.inj (Except.ok.inj heq)
        exact hverdict
      all_goals exact ⟨hexpand.setTally _, nofun⟩

/-- The state after one archive was looked at. -/
def Pick.state : Pick σ → Walk σ
  | .cancelled s | .refused _ s | .unmade _ s | .picked _ _ _ s => s

theorem kept_pick (p : ZipPlacement) (taken : List Bytes) (s : Walk σ) :
    Kept L root s (pick H f p taken s).state ∧
      ∀ name kind child t, pick H f p taken s = .picked name kind child t →
        t.budget.mayDescend f.depth (sizeOf child) = .allow := by
  have hpoll : Kept L root s (poll H s).2 := kept_poll s
  rw [pick]
  rcases hcancelled : poll H s with ⟨_ | _, u⟩
  all_goals rw [hcancelled] at hpoll
  · obtain ⟨hvet, hallow⟩ := kept_vetNested (H := H) (f := f) (L := L) p u
    dsimp only
    rcases hvetted : vetNested H f p u with ⟨fate | ⟨kind, child⟩, v⟩
    all_goals rw [hvetted] at hvet hallow
    · exact ⟨hpoll.trans hvet, nofun⟩
    · dsimp only
      generalize subGallery p.galleryPath _ = sub
      have hask : Kept L root v (ask H sub v).2 := kept_ask sub v
      have hbudget : (ask H sub v).2.budget = v.budget := rfl
      rcases hasked : ask H sub v with ⟨_ | _, w⟩
      all_goals rw [hasked] at hask hbudget
      · exact ⟨(hpoll.trans hvet).trans hask, nofun⟩
      · refine ⟨(hpoll.trans hvet).trans hask, fun name' kind' child' t heq ↦ ?_⟩
        obtain ⟨-, -, rfl, rfl⟩ := Pick.picked.inj heq
        dsimp only at hbudget
        rw [hbudget]
        exact hallow kind child rfl
  · exact ⟨hpoll, nofun⟩

/-- Entering an archive, walking it, and leaving it. -/
theorem kept_bracket {child : Bytes}
    (hallow : s.budget.mayDescend f.depth (sizeOf child) = .allow)
    (hwalk : Kept L root (s.enter (f.depth + 1) child) t) : Kept L root s (t.leave child) := by
  have henter : liveIn (s.enter (f.depth + 1) child).log = liveIn s.log + child.length := by
    rw [log_enter, liveIn_concat]
    rfl
  refine ⟨(List.prefix_append _ _).trans (hwalk.log.trans (List.prefix_append _ _)), ?_, fun h ↦ ?_⟩
  · have hleft : (Event.left child.length).liveChange = -(child.length : ℤ) := rfl
    rw [log_leave, liveIn_concat, hwalk.live, henter, hleft, add_neg_cancel_right]
  · refine sound_leave (hwalk.sound (sound_enter h hallow)) fun hunwrapped ↦ ?_
    obtain ⟨rest, hrest⟩ := (List.prefix_append s.log _).trans hwalk.log
    have hlive := h.live (History.admits_of_append (hrest ▸ hunwrapped))
    rw [hwalk.live, henter]
    omega

theorem kept_descend (hwalk : ∀ f s t, walk f s = some t → Kept L root s t)
    (h : descend H walk ps taken a s = some t) : Kept L root s t := by
  induction ps generalizing taken a s with
  | nil =>
    obtain rfl := Option.some.inj h
    exact (Kept.refl s).close a
  | cons p ps ih =>
    obtain ⟨hstate, hallow⟩ := kept_pick (H := H) (f := a.frame) (L := L) p taken s
    rw [descend] at h
    rcases hpick : pick H a.frame p taken s with u | ⟨fate, u⟩ | ⟨name, u⟩ | ⟨name, kind, child, u⟩
    all_goals rw [hpick] at h hstate hallow
    · obtain rfl := Option.some.inj h
      exact Kept.close hstate a
    · exact hstate.trans (ih h)
    · exact hstate.trans (ih h)
    · obtain ⟨v, hv, h⟩ := Option.bind_eq_some_iff.mp h
      have hbracket := kept_bracket (hallow name kind child u rfl) (hwalk _ _ _ hv)
      exact ((hstate.trans hbracket).setHooked _).trans (ih h)

/-- **One archive.** -/
theorem kept_walkOne (h : walkOne H n f s = some t) : Kept L root s t := by
  induction n generalizing f s t with
  | zero => exact nomatch h
  | succ n ih =>
    have hopen : Kept L root s (openArchive H f s).2 := kept_openArchive s
    rw [walkOne] at h
    rcases hopened : openArchive H f s with ⟨_ | ⟨plan, a⟩, u⟩
    all_goals rw [hopened] at h hopen
    · exact Option.some.inj h ▸ hopen
    · exact hopen.trans (kept_descend (fun f s t hwalk ↦ ih hwalk) h)

theorem descend_ends
    (hwalk : ∀ g s, a.frame.depth < L.maxDepth → g.depth = a.frame.depth + 1 → Sound L root s →
      ∃ t, walk g s = some t ∧ Kept L root s t) (hs : Sound L root s) :
    ∃ t, descend H walk ps taken a s = some t := by
  induction ps generalizing taken a s with
  | nil => exact ⟨_, rfl⟩
  | cons p ps ih =>
    obtain ⟨hstate, hallow⟩ := kept_pick (H := H) (f := a.frame) (L := L) p taken s
    have hsound := hstate.sound hs
    rw [descend]
    rcases hpick : pick H a.frame p taken s with u | ⟨fate, u⟩ | ⟨name, u⟩ | ⟨name, kind, child, u⟩
    all_goals rw [hpick] at hsound hallow
    · exact ⟨_, rfl⟩
    · exact ih (a := a.note p s fate) hwalk hsound
    · exact ih hwalk hsound
    · have hmay := hallow name kind child u rfl
      have hdepth := (mayDescend_eq_allow_iff.mp hmay).1
      have hlimits : u.budget.limits = L := hsound.limits
      rw [hlimits] at hdepth
      obtain ⟨v, hv, hkept⟩ := hwalk ⟨child, kind, subGallery p.galleryPath name, a.frame.depth + 1⟩
        (u.enter (a.frame.depth + 1) child) hdepth rfl (sound_enter hsound hmay)
      have hleft := ((kept_bracket hmay hkept).setHooked
        (H.archiveDone child (v.leave child).hooked)).sound hsound
      obtain ⟨t, ht⟩ : ∃ t, descend H walk ps (taken ++ [name]) (a.note p s (.entered name))
          ((v.leave child).setHooked (H.archiveDone child (v.leave child).hooked)) = some t :=
        ih (a := a.note p s (.entered name)) hwalk hleft
      exact ⟨t, Option.bind_eq_some_iff.mpr ⟨v, hv, ht⟩⟩

/-- The account to go on with is that of the archive, and the plan is that for its entries. -/
theorem openArchive_cases {plan : ZipPlan} {t : Walk σ}
    (h : openArchive H f s = (some (plan, a), t)) :
    a.frame = f ∧ a.nested = [] ∧ ∃ entries, a.entries = some entries ∧ plan = planOf f entries := by
  rw [openArchive] at h
  rcases hlist : H.listEntries f.bytes f.kind s.hooked with ⟨_ | entries, x⟩
  all_goals
    rw [hlist] at h
    dsimp only at h
  · exact nomatch congrArg Prod.fst h
  · rcases hask : askAll H (planOf f entries).galleries (s.setHooked x) with ⟨_ | _, u⟩
    all_goals
      rw [hask] at h
      dsimp only at h
    · exact nomatch congrArg Prod.fst h
    · generalize Walk.setHooked _ _ = ready at h
      rcases hplace : placeMedia H f (planOf f entries).placements [] ready with ⟨_ | _, media, v⟩
      all_goals rw [hplace] at h
      · exact nomatch congrArg Prod.fst h
      · obtain ⟨rfl, rfl⟩ := Prod.mk.inj (Option.some.inj (congrArg Prod.fst h))
        exact ⟨rfl, rfl, entries, rfl, rfl⟩

/-- **The walk ends.** The archives that can still be entered in one another are as many as there is
depth left. -/
theorem walkOne_ends (hfuel : (L.maxDepth - f.depth).toNat < n) (hs : Sound L root s) :
    ∃ t, walkOne H n f s = some t := by
  induction n generalizing f s with
  | zero => exact absurd hfuel (Nat.not_lt_zero _)
  | succ n ih =>
    have hopen : Kept L root s (openArchive H f s).2 := kept_openArchive s
    rw [walkOne]
    rcases hopened : openArchive H f s with ⟨_ | ⟨plan, a⟩, u⟩
    · exact ⟨u, rfl⟩
    · rw [hopened] at hopen
      have hframe := (openArchive_cases hopened).1
      refine descend_ends (fun g s hlt hdepth hsound ↦ ?_) (hopen.sound hs)
      rw [hframe] at hlt hdepth
      obtain ⟨t, ht⟩ := ih (f := g) (by omega) hsound
      exact ⟨t, ht, kept_walkOne ht⟩

theorem sound_start (rootBytes : Bytes) (L : RecursionLimits) (x : σ) :
    Sound L (sizeOf rootBytes) (start rootBytes L x) :=
  ⟨rfl, rfl, rfl, rfl, fun _ ↦ rfl, fun _ ↦ History.admits_nil⟩

/-! ## The bounds -/

/-- The bounds on a walk, by its log. -/
structure Bounded (L : RecursionLimits) (root : UInt64) (log : List Event) : Prop where
  entered : ∀ past depth bytes rest, log = past ++ .entered depth bytes :: rest →
    depth ≤ L.maxDepth ∧ enteredIn past + 1 ≤ L.maxNestedArchives ∧
      expandedIn past ≤ L.maxTotalExpanded.toNat ∧
      (0 < root → expandedIn past ≤ L.maxExpansionRatio.toNat * root.toNat)
  live : ∀ past, past <+: log → liveIn past ≤ L.maxLiveBytes.toNat
  zero : liveIn log = 0

/-- No archive is entered when the bytes expanded so far, or those that are live with it, have come
to `2 ^ 64`. -/
def NoWrap (log : List Event) : Prop :=
  ∀ past depth (bytes : ℕ) rest, log = past ++ .entered depth bytes :: rest →
    expandedIn past < 2 ^ 64 ∧ liveIn past + bytes < 2 ^ 64

theorem noWrap_iff {log : List Event} : NoWrap log ↔ History.Admits Unwrapped log := by
  constructor
  · intro h past e rest hlog
    rcases e with bytes | ⟨depth, bytes⟩ | bytes
    · trivial
    · exact h past depth bytes rest hlog
    · trivial
  · exact fun h past depth bytes rest hlog ↦ h past _ rest hlog

theorem bounded_iff {log : List Event} :
    Bounded L root log ↔ History.Admits (Within L root) log ∧ liveIn log = 0 := by
  constructor
  · rintro ⟨hentered, hlive, hzero⟩
    refine ⟨fun past e rest hlog ↦ ⟨hlive _ ?_, ?_⟩, hzero⟩
    · exact ⟨rest, by rw [hlog, List.append_assoc, List.singleton_append]⟩
    · rcases e with bytes | ⟨depth, bytes⟩ | bytes
      · trivial
      · exact hentered past depth bytes rest hlog
      · trivial
  · rintro ⟨hwithin, hzero⟩
    refine ⟨fun past depth bytes rest hlog ↦ (hwithin past _ rest hlog).2, ?_, hzero⟩
    rintro past ⟨rest, rfl⟩
    exact liveIn_le_of_admits (History.admits_of_append hwithin)

/-- Within the limits, nothing has wrapped around. -/
theorem noWrap_of_bounded {log : List Event} (h : Bounded L root log) : NoWrap log := by
  intro past depth bytes rest hlog
  obtain ⟨-, -, htotal, -⟩ := h.entered past depth bytes rest hlog
  have hlive := h.live (past ++ [.entered depth bytes])
    ⟨rest, by rw [hlog, List.append_assoc, List.singleton_append]⟩
  rw [liveIn_concat] at hlive
  have htotal64 := L.maxTotalExpanded.toNat_lt
  have hlive64 := L.maxLiveBytes.toNat_lt
  have hchange : (Event.entered depth bytes).liveChange = bytes := rfl
  constructor <;> omega

theorem bounded_of_sound (h : Sound L root s) (hzero : liveIn s.log = 0) :
    Bounded L root s.log ∧ s.budget.liveBytes = 0 ↔ NoWrap s.log := by
  constructor
  · exact fun hbounded ↦ noWrap_of_bounded hbounded.1
  · intro hunwrapped
    have hadmits := noWrap_iff.mp hunwrapped
    refine ⟨bounded_iff.mpr ⟨h.within hadmits, hzero⟩, ?_⟩
    have hlive := h.live hadmits
    rw [hzero] at hlive
    exact UInt64.toNat_inj.mp (by exact_mod_cast hlive)

end Counters

/-- With enough fuel a walk has its result. -/
theorem exists_walkOne (H : Hooks σ) (rootBytes : Bytes) (rootKind : ArchiveKind)
    (destGallery : Bytes) (L : RecursionLimits) (x : σ) :
    ∃ t fuel, walkOne H fuel ⟨rootBytes, rootKind, destGallery, 0⟩ (start rootBytes L x) = some t ∧
      ∀ n ≥ fuel, walkArchive n rootBytes rootKind destGallery (some H) L x =
        some (t.setHooked (H.archiveDone rootBytes t.hooked)) := by
  obtain ⟨t, ht⟩ := walkOne_ends (H := H) (f := ⟨rootBytes, rootKind, destGallery, 0⟩)
    (Nat.lt_succ_self _) (sound_start rootBytes L x)
  exact ⟨t, _, ht, fun n hn ↦ Option.bind_eq_some_iff.mpr ⟨t, walkOne_mono ht hn, rfl⟩⟩

/-- **The walk ends, and it is bounded exactly as long as no sum wraps around.** -/
theorem walkArchive_ends_and_bounded_iff (hooks : Option (Hooks σ)) (rootBytes : Bytes)
    (rootKind : ArchiveKind) (destGallery : Bytes) (L : RecursionLimits) (x : σ) :
    ∃ s fuel, (∀ n ≥ fuel, walkArchive n rootBytes rootKind destGallery hooks L x = some s) ∧
      (Bounded L (sizeOf rootBytes) s.log ∧ s.budget.liveBytes = 0 ↔ NoWrap s.log) := by
  have hstart := sound_start rootBytes L x
  rcases hooks with _ | H
  · exact ⟨start rootBytes L x, 0, fun n _ ↦ rfl, bounded_of_sound hstart rfl⟩
  · obtain ⟨t, fuel, ht, hrun⟩ := exists_walkOne H rootBytes rootKind destGallery L x
    have hkept : Kept L (sizeOf rootBytes) _ (t.setHooked (H.archiveDone rootBytes t.hooked)) :=
      (kept_walkOne ht).setHooked _
    exact ⟨_, fuel, hrun, bounded_of_sound (hkept.sound hstart) hkept.live⟩

/-! ### An empty root, and sums that wrap around -/

section Flood

def floodEntries : List ZipEntry :=
  ["1.jpg", "2.jpg", "3.jpg", "4.jpg", "a.zip"].map fun name ↦ ⟨ascii name, false⟩

/-- An archive of four images and another archive, which has nothing in it. Every image comes out as
the same bytes. -/
def flood (image : Bytes) : Hooks Unit where
  listEntries bytes _ x := (some (if bytes.length ≤ 1 then floodEntries else []), x)
  extractEntry _ _ i x := (some (if i < 4 then image else ArchiveNames.magicZip), x)
  createGallery _ x := (true, x)
  placeMedia _ _ _ x := (true, x)
  tagGallery _ _ x := x
  cancelled x := (false, x)

def floodPlan : ZipPlan where
  galleries := [ascii "g"]
  placements := [⟨ascii "g", ascii "1.jpg", 0⟩, ⟨ascii "g", ascii "2.jpg", 1⟩,
    ⟨ascii "g", ascii "3.jpg", 2⟩, ⟨ascii "g", ascii "4.jpg", 3⟩]
  nested := [⟨ascii "g", ascii "a.zip", 4⟩]

theorem buildZipPlan_floodEntries :
    ZipPlan.buildZipPlan floodEntries (ascii "g") [] = floodPlan := by decide +kernel

variable (image root : Bytes)

/-- What has happened when the archive in the archive is looked at. -/
def floodPast : List Event :=
  [.expanded image.length, .expanded image.length, .expanded image.length, .expanded image.length,
    .expanded 4]

def floodFrame : Frame := ⟨root, .zip, ascii "g", 0⟩

/-- The account of the root when its images are placed. -/
def floodAccount : Account Unit where
  frame := floodFrame root
  before := ()
  entries := some floodEntries
  media := floodPlan.placements.map fun p ↦ ⟨p, (), true⟩

/-- The state when the images of the root are placed. -/
def flooded (s : Walk Unit) : Walk Unit where
  hooked := ()
  budget := (((s.budget.noteExpanded (sizeOf image)).noteExpanded (sizeOf image)).noteExpanded
    (sizeOf image)).noteExpanded (sizeOf image)
  tally := { s.tally with mediaPlaced := s.tally.mediaPlaced + 4 }
  log := s.log ++ [.expanded image.length, .expanded image.length, .expanded image.length,
    .expanded image.length]
  accounts := s.accounts

theorem openArchive_flood (hroot : root.length ≤ 1) :
    openArchive (flood image) (floodFrame root) (start root {} ()) =
      (some (floodPlan, floodAccount root), flooded image (start root {} ())) := by
  have hlist : (flood image).listEntries (floodFrame root).bytes (floodFrame root).kind
      (start root {} ()).hooked = (some floodEntries, ()) := by
    dsimp only [flood, floodFrame]
    rw [if_pos hroot]
  have hplan : planOf (floodFrame root) floodEntries = floodPlan := buildZipPlan_floodEntries
  rw [openArchive, hlist]
  dsimp only
  rw [hplan]
  rfl

/-- The archive in the archive is entered, if the counters allow it after the images. -/
theorem walkArchive_flood (hroot : root.length ≤ 1) (hallow : ((flooded image (start root {} ())).expand
      ArchiveNames.magicZip).budget.mayDescend 0 4 = .allow) :
    ∃ s, walkArchive 3 root .zip (ascii "g") (some (flood image)) {} () = some s ∧
      ∃ rest, s.log = floodPast image ++ .entered 1 4 :: rest := by
  have hkind : ArchiveNames.detectArchiveKind (ascii "a.zip") ArchiveNames.magicZip = some .zip := by
    decide +kernel
  have hname : ArchiveNames.uniqueGalleryName (ArchiveNames.baseName (ascii "a.zip")) [] =
      ascii "a" := by
    decide +kernel
  set v := (flooded image (start root {} ())).expand ArchiveNames.magicZip with hv
  have hvet : vetNested (flood image) (floodFrame root) ⟨ascii "g", ascii "a.zip", 4⟩
      (flooded image (start root {} ())) = (.ok (.zip, ArchiveNames.magicZip), v) := by
    have hextract : (flood image).extractEntry (floodFrame root).bytes (floodFrame root).kind 4
      (flooded image (start root {} ())).hooked = (some ArchiveNames.magicZip, ()) := rfl
    rw [vetNested, hextract]
    dsimp only
    rw [hkind]
    dsimp only
    have hverdict : (((flooded image (start root {} ())).setHooked ()).expand
      ArchiveNames.magicZip).budget.mayDescend (floodFrame root).depth
        (sizeOf ArchiveNames.magicZip) = .allow := hallow
    rw [hverdict]
    rfl
  have hpick : pick (flood image) (floodFrame root) ⟨ascii "g", ascii "a.zip", 4⟩ []
      (flooded image (start root {} ())) = .picked (ascii "a") .zip ArchiveNames.magicZip v := by
    have hpoll : poll (flood image) (flooded image (start root {} ())) =
      (false, flooded image (start root {} ())) := rfl
    rw [pick, hpoll]
    dsimp only
    rw [hvet]
    dsimp only
    rw [hname]
    rfl
  have hchild (u : Walk Unit) : walkOne (flood image) 2 ⟨ArchiveNames.magicZip, .zip, ascii "g/a", 1⟩ u =
      some (u.close ⟨⟨ArchiveNames.magicZip, .zip, ascii "g/a", 1⟩, (), some [], [], 0, []⟩) := by
    have hempty : planOf ⟨ArchiveNames.magicZip, .zip, ascii "g/a", 1⟩ [] = {} := by decide +kernel
    have hlist : (flood image).listEntries ArchiveNames.magicZip .zip u.hooked = (some [], ()) := rfl
    rw [walkOne, openArchive, hlist]
    dsimp only
    rw [hempty]
    rfl
  have hsub : subGallery (ascii "g") (ascii "a") = ascii "g/a" := by decide +kernel
  have hbind : walkArchive 3 root .zip (ascii "g") (some (flood image)) {} () =
      (walkOne (flood image) 3 (floodFrame root) (start root {} ())).bind fun s ↦
        some (s.setHooked ()) := rfl
  rw [hbind, walkOne, openArchive_flood image root hroot]
  dsimp only [floodPlan]
  have hframe : (floodAccount root).frame = floodFrame root := rfl
  rw [descend, hframe, hpick]
  dsimp only
  rw [hsub]
  have hdepth : (floodFrame root).depth + 1 = 1 := rfl
  rw [hdepth, hchild]
  exact ⟨_, rfl, _, rfl⟩

/-- **The limits without an exception.** An empty root has no ratio to keep to; and four images of
`2 ^ 62` bytes leave the count of bytes where it was. -/
theorem not_within_limits :
    (∃ s, walkArchive 3 [] .zip (ascii "g") (some (flood [])) {} () = some s ∧
      ∃ past rest, s.log = past ++ .entered 1 4 :: rest ∧ 1000 * 0 < expandedIn past) ∧
    ∃ image, image.length < 2 ^ 64 ∧
      ∃ s, walkArchive 3 [0] .zip (ascii "g") (some (flood image)) {} () = some s ∧
        ∃ past rest, s.log = past ++ .entered 1 4 :: rest ∧ 8 * 1024 ^ 3 < expandedIn past := by
  constructor
  · obtain ⟨s, hs, rest, hlog⟩ := walkArchive_flood [] [] (Nat.zero_le 1) (by decide)
    exact ⟨s, hs, floodPast [], rest, hlog, by decide⟩
  · have hlen : (List.replicate 4611686018427387904 (0 : UInt8)).length = 4611686018427387904 :=
      List.length_replicate
    generalize List.replicate 4611686018427387904 (0 : UInt8) = image at hlen
    have hbudget : ((flooded image (start [0] {} ())).expand ArchiveNames.magicZip).budget =
        { limits := {}, rootBytes := 1, totalExpanded := 0 + sizeOf image + sizeOf image +
          sizeOf image + sizeOf image + 4 } := rfl
    have hsize : sizeOf image = 4611686018427387904 := by
      rw [sizeOf, hlen]
      rfl
    obtain ⟨s, hs, rest, hlog⟩ := walkArchive_flood image [0] le_rfl (by
      rw [hbudget, hsize]
      decide)
    refine ⟨image, by omega, s, hs, floodPast image, rest, hlog, ?_⟩
    simp only [floodPast, expandedIn, List.map_cons, List.map_nil, List.sum_cons, List.sum_nil,
      Event.expandedBytes, hlen]
    norm_num

end Flood

end NestedWalk

end SafeVault
