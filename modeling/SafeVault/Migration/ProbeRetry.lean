import SafeVault.Migration.Repairs

/-!
# Trying a repair of a video again

A call that fails may be made again, and a later migration may collect the video again. Both go by the
codec: it is what a call looks at before it does anything, and what the collector looks at. A call that
cannot store the poster has already set it, so the next one finds nothing to do and says that all is
well, and no migration comes back for the poster.
-/

namespace SafeVault

open LeafTree
open IndexIo (calmEnv)

namespace Migration

section Calls

variable (E : PreviewEnv) (path : Bytes) (probe : VideoProbeApply)

/-- Calls one after another, and what each of them comes to. -/
def probeCalls : MediaVault → List Bool → List (VaultResult × MediaVault)
  | _, [] => []
  | v, syncs :: calls =>
    let out := applyVideoProbe E path probe syncs v
    out :: probeCalls out.2 calls

/-- A video has everything that the probe found; `before` is what it was. -/
structure Repaired (before : VideoMeta) (h : NodeHeader) (m : VideoMeta) (v : MediaVault) : Prop where
  codec : m.codec = probe.codec
  width : m.width = probe.width
  height : m.height = probe.height
  durationUs : m.durationUs = probe.durationUs
  poster : before.posterLength = 0 → probe.posterJpeg ≠ [] →
    v.readThumbnail E h (.video m) = .ok probe.posterJpeg

/-- A migration collects the video for the same repair. -/
def Owed (h : NodeHeader) (m : VideoMeta) : Prop :=
  ∀ thumbsStale, ∃ item, itemOf path h thumbsStale (.video m) = some item ∧ item.kind = .videoProbe

/-- After each call the video has everything, or the call has failed and a migration comes back. -/
def Retriable (before : VideoMeta) (v : MediaVault) (calls : List Bool) : Prop :=
  ∀ out ∈ probeCalls E path probe v calls, ∃ p h m,
    mediaAt out.2.root path = some (p, h, .video m) ∧
    (out.1 = .ok → Repaired E probe before h m out.2) ∧ (out.1 ≠ .ok → Owed path h m)

/-- A call gets as far as the poster and cannot store it. -/
def PosterFails (v : MediaVault) (syncs : Bool) : Prop :=
  v.unlocked = true ∧ v.legacyReadOnly = false ∧ ∃ p h m,
    mediaAt v.root path = some (p, h, .video m) ∧ m.posterLength = 0 ∧ probe.posterJpeg ≠ [] ∧
    (v.storage.store E .poster ((Media.video m).owner h) probe.posterJpeg syncs).1 = none

end Calls

variable {E : PreviewEnv} {path : Bytes} {probe : VideoProbeApply} {v : MediaVault} {calls : List Bool}
  {syncs : Bool} {p : List ℕ} {h : NodeHeader} {m before : VideoMeta} {r : VaultResult}

theorem owed_iff : Owed path h m ↔ m.codec = .unknown := by
  constructor
  · intro howed
    obtain ⟨item, hitem, hkind⟩ := howed false
    by_contra hne
    rw [itemOf, if_neg hne, if_neg Bool.false_ne_true] at hitem
    exact absurd hitem (Option.some_ne_none item).symm
  · intro hcodec thumbsStale
    refine ⟨collectVideoItem .videoProbe path h m thumbsStale, ?_, rfl⟩
    rw [itemOf, if_pos hcodec]

/-- A call that changes nothing can be repeated without changing anything. -/
theorem probeCalls_of_unchanged (hcall : ∀ syncs, applyVideoProbe E path probe syncs v = (r, v)) :
    ∀ out ∈ probeCalls E path probe v calls, out = (r, v) := by
  induction calls with
  | nil =>
    intro out hout
    rw [probeCalls] at hout
    exact absurd hout List.not_mem_nil
  | cons syncs calls ih =>
    intro out hout
    rw [probeCalls, hcall] at hout
    rcases List.mem_cons.mp hout with rfl | hout
    · rfl
    · exact ih out hout

/-- A vault that cannot be written refuses every call. -/
theorem applyVideoProbe_of_closed (hclosed : v.unlocked = false ∨ v.legacyReadOnly = true) :
    ∃ r ≠ .ok, ∀ syncs, applyVideoProbe E path probe syncs v = (r, v) := by
  rcases hopen : v.unlocked
  · refine ⟨.locked, nofun, fun syncs ↦ ?_⟩
    rw [applyVideoProbe, hopen]
    rfl
  · rw [hopen] at hclosed
    refine ⟨.invalidArg, nofun, fun syncs ↦ ?_⟩
    rw [applyVideoProbe, hopen, hclosed.resolve_left nofun]
    rfl

/-- **A video with a codec is left alone.** -/
theorem applyVideoProbe_of_known (hopen : v.unlocked = true) (hwritable : v.legacyReadOnly = false)
    (hat : mediaAt v.root path = some (p, h, .video m)) (hcodec : m.codec ≠ .unknown) :
    applyVideoProbe E path probe syncs v = (.ok, v) := by
  rw [applyVideoProbe, hopen, hwritable, hat]
  exact if_pos hcodec

/-- The call that does something. -/
theorem applyVideoProbe_of_unknown (hopen : v.unlocked = true) (hwritable : v.legacyReadOnly = false)
    (hat : mediaAt v.root path = some (p, h, .video m)) (hcodec : m.codec = .unknown)
    (hprobe : probe.codec ≠ .unknown) :
    applyVideoProbe E path probe syncs v =
      if m.posterLength = 0 ∧ probe.posterJpeg ≠ [] then
        match v.storage.store E .poster ((Media.video m).owner h) probe.posterJpeg syncs with
        | (none, storage) => (.ioError, v.put p (.video (probe.describe m)) storage)
        | (some place, storage) =>
          (.ok, v.put p ((Media.video (probe.describe m)).setPlace place) storage)
      else (.ok, v.put p (.video (probe.describe m)) v.storage) := by
  rw [applyVideoProbe, hopen, hwritable, hat, Bool.not_true, if_neg Bool.false_ne_true,
    if_neg Bool.false_ne_true]
  dsimp only
  rw [if_neg (not_not_intro hcodec), if_neg hprobe]
  refine if_congr ?_ rfl rfl
  rw [Bool.and_eq_true, decide_eq_true_iff, Bool.not_eq_true', List.isEmpty_eq_false_iff]

/-- **A first call that stores the poster, or needs none,** leaves the video repaired. -/
theorem repaired_of_not_posterFails (hopen : v.unlocked = true) (hwritable : v.legacyReadOnly = false)
    (hat : mediaAt v.root path = some (p, h, .video m)) (hcodec : m.codec = .unknown)
    (hprobe : probe.codec ≠ .unknown) (hposter : ¬ PosterFails E path probe v syncs) :
    ∃ w m', applyVideoProbe E path probe syncs v = (.ok, w) ∧ w.unlocked = true ∧
      w.legacyReadOnly = false ∧ mediaAt w.root path = some (p, h, .video m') ∧
      Repaired E probe m h m' w := by
  rw [applyVideoProbe_of_unknown hopen hwritable hat hcodec hprobe]
  split_ifs with hneeds
  · rcases hstore : v.storage.store E .poster ((Media.video m).owner h) probe.posterJpeg syncs with
      ⟨_ | place, storage⟩
    · exact absurd ⟨hopen, hwritable, p, h, m, hat, hneeds.1, hneeds.2, congrArg Prod.fst hstore⟩
        hposter
    · refine ⟨_, _, rfl, hopen, hwritable, mediaAt_put hat, rfl, rfl, rfl, rfl, fun _ _ ↦ ?_⟩
      exact readThumbnail_put (m := .video (probe.describe m)) hopen hstore
  · refine ⟨_, _, rfl, hopen, hwritable, mediaAt_put hat, rfl, rfl, rfl, rfl, fun hnone hjpeg ↦ ?_⟩
    exact absurd ⟨hnone, hjpeg⟩ hneeds

/-- **A repair can be tried again** unless the first call cannot store the poster. -/
theorem retriable_iff (E : PreviewEnv) (path : Bytes) (probe : VideoProbeApply) (v : MediaVault)
    (calls : List Bool) (p : List ℕ) (h : NodeHeader) (m : VideoMeta)
    (hat : mediaAt v.root path = some (p, h, .video m)) (hcodec : m.codec = .unknown)
    (hprobe : probe.codec ≠ .unknown) :
    Retriable E path probe m v calls ↔ ∀ syncs ∈ calls.head?, ¬ PosterFails E path probe v syncs := by
  rcases calls with _ | ⟨syncs, calls⟩
  · refine ⟨fun _ syncs hsyncs ↦ absurd hsyncs (Option.not_mem_none _), fun _ out hout ↦ ?_⟩
    rw [probeCalls] at hout
    exact absurd hout List.not_mem_nil
  rw [List.head?_cons]
  constructor
  · rintro hretry _ ⟨⟩ ⟨hopen, hwritable, q, h', m', hat', hnone, hjpeg, hfails⟩
    obtain ⟨rfl, hrest⟩ := Prod.mk.inj (Option.some.inj (hat.symm.trans hat'))
    obtain ⟨rfl, hm⟩ := Prod.mk.inj hrest
    obtain rfl := Media.video.inj hm
    obtain ⟨q, h', m', hfound, -, howed⟩ := hretry _ List.mem_cons_self
    have hcall :=
      @applyVideoProbe_of_unknown E path probe v syncs p h m hopen hwritable hat hcodec hprobe
    rw [if_pos ⟨hnone, hjpeg⟩] at hcall
    rcases hstore : v.storage.store E .poster ((Media.video m).owner h) probe.posterJpeg syncs with
      ⟨place, storage⟩
    rw [hstore] at hfails hcall
    obtain rfl : place = none := hfails
    dsimp only at hcall
    rw [hcall] at hfound howed
    -- The codec has been set although the call has failed.
    have hset := (mediaAt_put hat).symm.trans hfound
    obtain ⟨-, hrest⟩ := Prod.mk.inj (Option.some.inj hset)
    obtain rfl := Media.video.inj (Prod.mk.inj hrest).2
    exact hprobe (owed_iff.mp (howed nofun))
  · intro hall
    have hposter := hall syncs rfl
    by_cases hclosed : v.unlocked = false ∨ v.legacyReadOnly = true
    · obtain ⟨r, hr, hcall⟩ := @applyVideoProbe_of_closed E path probe v hclosed
      intro out hout
      rw [probeCalls_of_unchanged hcall out hout]
      exact ⟨p, h, m, hat, fun hok ↦ absurd hok hr, fun _ ↦ owed_iff.mpr hcodec⟩
    · rw [not_or, Bool.not_eq_false, Bool.not_eq_true] at hclosed
      obtain ⟨w, m', hcall, hopen, hwritable, hat', hrep⟩ :=
        repaired_of_not_posterFails hclosed.1 hclosed.2 hat hcodec hprobe hposter
      have hout : ∀ out ∈ probeCalls E path probe v (syncs :: calls), out = (.ok, w) := by
        rw [probeCalls, hcall]
        refine List.forall_mem_cons.mpr ⟨rfl, probeCalls_of_unchanged fun syncs ↦ ?_⟩
        exact applyVideoProbe_of_known hopen hwritable hat' (hrep.codec ▸ hprobe)
      intro out hmem
      rw [hout out hmem]
      exact ⟨p, h, m', hat', fun _ ↦ hrep, fun hne ↦ absurd rfl hne⟩

/-! ### One video -/

/-- Steps at some times fail. -/
def faultyEnv (fails : ℕ → Bool) : PreviewEnv where
  chunk :=
    { toEnv := { calmEnv with fault := fun n ↦ if fails n then .after 0 else .none }
      id := fun n ↦ .ofBytes (List.replicate nodeIdSize (UInt8.ofNat (n + 1))) }
  crypto := V3.plainCrypto
  masterKey := .zero 32
  write _ := V3.countingEnv
  noted _ := true

/-- A video with one piece, of which nothing is known. -/
def clip : VideoMeta := { origSize := 1, chunks := [{ offset := 0, length := 41 }] }

def clipVault : MediaVault where
  unlocked := true
  v3 := false
  legacyReadOnly := false
  root := .branch { name := [] } [.leaf { name := ascii "clip" } (.video clip)]
  settings := {}
  searches := []
  committed := ⟨.gallery [], {}, []⟩
  storage := .file {
    disk := { head := [], content := List.replicate 41 0, dirty := fun _ ↦ false }
    header := {} }

def clipProbe : VideoProbeApply where
  codec := ⟨1⟩
  width := 16
  height := 9
  durationUs := 1000
  posterJpeg := [7, 8]

theorem mediaAt_clipVault :
    mediaAt clipVault.root (ascii "clip") = some ([0], { name := ascii "clip" }, .video clip) := by
  decide +kernel

/-- Nothing fails, and both calls leave the video with its poster. -/
theorem retriable_iff_clip :
    Retriable (faultyEnv fun _ ↦ false) (ascii "clip") clipProbe clip clipVault [false, true] := by
  refine (retriable_iff _ _ _ _ _ [0] { name := ascii "clip" } clip mediaAt_clipVault rfl (by decide)).mpr ?_
  rintro _ ⟨⟩ ⟨-, -, p, h, m, hat, -, -, hfails⟩
  obtain ⟨-, hrest⟩ := Prod.mk.inj (Option.some.inj (mediaAt_clipVault.symm.trans hat))
  obtain ⟨rfl, hm⟩ := Prod.mk.inj hrest
  obtain rfl := Media.video.inj hm
  have hstores : (clipVault.storage.store (faultyEnv fun _ ↦ false) .poster
      ((Media.video clip).owner { name := ascii "clip" }) clipProbe.posterJpeg false).1.isSome := by
    decide +kernel
  rw [hfails] at hstores
  exact nomatch hstores

/-- The first step fails. The first call says so, the second one says that all is well, and there is no
poster. -/
theorem not_retriable_clip :
    let env := faultyEnv (· == 0)
    mediaAt clipVault.root (ascii "clip") = some ([0], { name := ascii "clip" }, .video clip) ∧
    clip.codec = .unknown ∧ clipProbe.codec ≠ .unknown ∧
    (probeCalls env (ascii "clip") clipProbe clipVault [false, false]).map (fun out ↦
      (out.1, (mediaAt out.2.root (ascii "clip")).map fun found ↦
        (out.2.readThumbnail env found.2.1 found.2.2).toOption)) =
      [(.ioError, some none), (.ok, some none)] ∧
    ¬ Retriable env (ascii "clip") clipProbe clip clipVault [false, false] := by
  refine ⟨mediaAt_clipVault, rfl, by decide, by decide +kernel, fun hretry ↦ ?_⟩
  obtain ⟨p, h, m, hfound, -, howed⟩ := hretry _ List.mem_cons_self
  have hfails : (applyVideoProbe (faultyEnv (· == 0)) (ascii "clip") clipProbe false clipVault).1 ≠
      .ok := by decide +kernel
  have hset : mediaAt (applyVideoProbe (faultyEnv (· == 0)) (ascii "clip") clipProbe false
      clipVault).2.root (ascii "clip") =
        some ([0], { name := ascii "clip" }, .video (clipProbe.describe clip)) := by decide +kernel
  obtain ⟨-, hrest⟩ := Prod.mk.inj (Option.some.inj (hset.symm.trans hfound))
  obtain rfl := Media.video.inj (Prod.mk.inj hrest).2
  exact absurd (owed_iff.mp (howed hfails)) (by decide)

end Migration

end SafeVault
