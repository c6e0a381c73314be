import SafeVault.Lib.PagedRead
import SafeVault.V3.ObjectDisk

/-!
# Playing a video from its object

A player reads the plaintext of a video at any place. The frames of the object are opened on demand, and
the two used last are kept. A frame may fail to be read, now or always, and another thread may cancel the
reader at any time, which empties the cache.

Whatever happened before, a read that does not fail has exactly the bytes of the video: an entry of the
cache is only ever the plaintext of the frame it is filed under.
-/

namespace SafeVault

namespace Video

open V3 PagedRead

structure CacheEntry where
  index : ℕ := 0
  valid : Bool := false
  stamp : ℕ := 0
  bytes : Bytes := []

structure VideoObjectSource where
  reader : ObjectReader
  first : CacheEntry := {}
  second : CacheEntry := {}
  stamp : ℕ := 0
  cancelled : Bool := false
  /-- The last failure, unless a read went through since. -/
  lastStatus : Option ObjectStatus := none
  lastErrorFrame : ℕ := 0

/-- What a read meets, at each of its turns: the frame that fails to be read although it could be, and the
thread that cancels. -/
structure PlayEnv where
  fails : ℕ → Option ObjectStatus := fun _ ↦ none
  cancels : ℕ → Bool := fun _ ↦ false

/-- The same, without a cancellation. -/
def PlayEnv.undisturbed (env : PlayEnv) : PlayEnv := { env with cancels := fun _ ↦ false }

namespace VideoObjectSource

/-- `VideoObjectSource::open` -/
def openSource (C : ObjectCrypto) (objects : Objects) (masterKey : Block 32) (expected : ObjectInfo) :
    Except ObjectStatus VideoObjectSource := do
  require (expected.role = .originalVideo) .invalidArgument
  let reader ← openObject C objects masterKey expected
  return { reader }

def size (s : VideoObjectSource) : ℕ := s.reader.info.plaintextLength

def clearCache (s : VideoObjectSource) : VideoObjectSource :=
  { s with first := { s.first with bytes := [], valid := false }
           second := { s.second with bytes := [], valid := false } }

/-- What a read does when it finds that it was cancelled. -/
def stopped (s : VideoObjectSource) : VideoObjectSource :=
  { s.clearCache with cancelled := true, lastStatus := some .ioError }

/-- The entry that goes is the second one. -/
def evictsSecond (s : VideoObjectSource) : Bool :=
  s.first.valid && (!s.second.valid || s.second.stamp < s.first.stamp)

/-- Put an entry in the place of the one that goes. -/
def replaceEntry (entry : CacheEntry → CacheEntry) (s : VideoObjectSource) : VideoObjectSource :=
  if s.evictsSecond then { s with second := entry s.second } else { s with first := entry s.first }

section Read

variable (D : Deflate) (C : ObjectCrypto)

def loadFrame (fails : Option ObjectStatus) (index : ℕ) (s : VideoObjectSource) :
    Option Bytes × VideoObjectSource :=
  if s.first.valid && s.first.index == index then
    (some s.first.bytes, { s with stamp := s.stamp + 1, first := { s.first with stamp := s.stamp + 1 } })
  else if s.second.valid && s.second.index == index then
    (some s.second.bytes, { s with stamp := s.stamp + 1, second := { s.second with stamp := s.stamp + 1 } })
  else
    match fails.elim (readFrame D C s.reader index) .error with
    | .error status =>
      (none, { s.replaceEntry fun entry ↦ { entry with bytes := [], valid := false } with
        lastStatus := some status, lastErrorFrame := index })
    | .ok plain =>
      (some plain, { s.replaceEntry fun _ ↦ ⟨index, true, s.stamp + 1, plain⟩ with
        stamp := s.stamp + 1, lastStatus := none })

/-- The loop of `read`, for some rounds, with what was copied before. -/
def readFrom (env : PlayEnv) (offset wanted : ℕ) :
    ℕ → ℕ → Bytes → VideoObjectSource → Option Bytes × VideoObjectSource
  | 0, _, out, s => (some out, s)
  | rounds + 1, turn, out, s =>
    if wanted ≤ out.length then (some out, { s with lastStatus := none })
    else if s.cancelled || env.cancels turn then (none, s.stopped)
    else
      let position := offset + out.length
      let limit := s.reader.info.framePlainLimit
      if 2 ^ 32 ≤ position / limit then (none, s)
      else
        match loadFrame D C (env.fails turn) (position / limit) s with
        | (none, s) => (none, s)
        | (some frame, s) =>
          if frame.length ≤ position % limit then (none, s)
          else
            readFrom env offset wanted rounds (turn + 1)
              (out ++ piece limit position (wanted - out.length) frame) s

/-- `VideoObjectSource::read`; `none` is a failure. -/
def read (env : PlayEnv) (offset amount : ℕ) (s : VideoObjectSource) : Option Bytes × VideoObjectSource :=
  if s.cancelled || env.cancels 0 then (none, s.stopped)
  else if s.size ≤ offset ∨ amount = 0 then (some [], s)
  else readFrom D C env offset (min amount (s.size - offset)) (min amount (s.size - offset) + 1) 1 [] s

end Read

def cancel (s : VideoObjectSource) : VideoObjectSource := { s.clearCache with cancelled := true }

/-! ## The cache -/

variable {D : Deflate} {C : ObjectCrypto} {s t : VideoObjectSource} {reader : ObjectReader} {env : PlayEnv}
  {offset amount wanted rounds turn index : ℕ} {out bytes : Bytes}

/-- The frames of an object, as far as they can be read. -/
def frames (D : Deflate) (C : ObjectCrypto) (reader : ObjectReader) (index : ℕ) : Option Bytes :=
  (readFrame D C reader index).toOption

/-- An entry holds the frame it is filed under. -/
def Files (D : Deflate) (C : ObjectCrypto) (reader : ObjectReader) (entry : CacheEntry) : Prop :=
  entry.valid = true → readFrame D C reader entry.index = .ok entry.bytes

/-- The reader stays, and the cache holds what is in the object. -/
structure Sound (D : Deflate) (C : ObjectCrypto) (reader : ObjectReader) (s : VideoObjectSource) : Prop where
  same : s.reader = reader
  first : Files D C reader s.first
  second : Files D C reader s.second

theorem Sound.clearCache (h : Sound D C reader s) : Sound D C reader s.clearCache := by
  refine ⟨h.same, ?_, ?_⟩
  · rintro ⟨⟩
  · rintro ⟨⟩

theorem Sound.stopped (h : Sound D C reader s) : Sound D C reader s.stopped :=
  ⟨h.clearCache.same, h.clearCache.first, h.clearCache.second⟩

theorem Sound.cancel (h : Sound D C reader s) : Sound D C reader s.cancel :=
  ⟨h.clearCache.same, h.clearCache.first, h.clearCache.second⟩

theorem Sound.replaceEntry (h : Sound D C reader s) (entry : CacheEntry → CacheEntry)
    (hentry : ∀ e, Files D C reader (entry e)) : Sound D C reader (s.replaceEntry entry) := by
  rw [VideoObjectSource.replaceEntry]
  split_ifs
  · exact ⟨h.same, h.first, hentry _⟩
  · exact ⟨h.same, hentry _, h.second⟩

@[simp] theorem cancelled_replaceEntry (entry : CacheEntry → CacheEntry) :
    (s.replaceEntry entry).cancelled = s.cancelled := by
  rw [VideoObjectSource.replaceEntry]
  split_ifs <;> rfl

/-- **A frame from the cache or from the file** is the frame of the object. -/
theorem loadFrame_spec {fails : Option ObjectStatus} {loaded : Option Bytes} (h : Sound D C reader s)
    (hload : loadFrame D C fails index s = (loaded, t)) :
    Sound D C reader t ∧ t.cancelled = s.cancelled ∧
      (∀ frame, loaded = some frame → readFrame D C reader index = .ok frame) ∧
      (fails = none → ∀ frame, readFrame D C reader index = .ok frame → loaded = some frame) := by
  rw [loadFrame] at hload
  by_cases hfirst : (s.first.valid && s.first.index == index) = true
  · rw [if_pos hfirst] at hload
    obtain ⟨rfl, rfl⟩ := Prod.mk.inj hload
    rw [Bool.and_eq_true, beq_iff_eq] at hfirst
    have hframe := h.first hfirst.1
    rw [hfirst.2] at hframe
    refine ⟨⟨h.same, h.first, h.second⟩, rfl, ?_, ?_⟩
    · rintro frame ⟨⟩
      exact hframe
    · rintro - frame hread
      rw [Except.ok.inj (hframe.symm.trans hread)]
  rw [if_neg hfirst] at hload
  by_cases hsecond : (s.second.valid && s.second.index == index) = true
  · rw [if_pos hsecond] at hload
    obtain ⟨rfl, rfl⟩ := Prod.mk.inj hload
    rw [Bool.and_eq_true, beq_iff_eq] at hsecond
    have hframe := h.second hsecond.1
    rw [hsecond.2] at hframe
    refine ⟨⟨h.same, h.first, h.second⟩, rfl, ?_, ?_⟩
    · rintro frame ⟨⟩
      exact hframe
    · rintro - frame hread
      rw [Except.ok.inj (hframe.symm.trans hread)]
  rw [if_neg hsecond, h.same] at hload
  rcases hread : fails.elim (readFrame D C reader index) .error with status | plain
  · rw [hread] at hload
    obtain ⟨rfl, rfl⟩ := Prod.mk.inj hload
    have hkept := h.replaceEntry (fun entry ↦ { entry with bytes := [], valid := false }) (by rintro e ⟨⟩)
    refine ⟨⟨hkept.same, hkept.first, hkept.second⟩, cancelled_replaceEntry _, ?_, ?_⟩
    · rintro frame ⟨⟩
    · rintro rfl frame hframe
      rw [Option.elim_none, hframe] at hread
      cases hread
  · rw [hread] at hload
    obtain ⟨rfl, rfl⟩ := Prod.mk.inj hload
    have hframe : readFrame D C reader index = .ok plain := by
      rcases fails with _ | status
      · exact hread
      · cases hread
    have hkept := h.replaceEntry (fun _ ↦ ⟨index, true, s.stamp + 1, plain⟩) fun _ _ ↦ hframe
    refine ⟨⟨hkept.same, hkept.first, hkept.second⟩, cancelled_replaceEntry _, ?_, ?_⟩
    · rintro frame ⟨⟩
      exact hframe
    · rintro - frame hframe'
      rw [Except.ok.inj (hframe.symm.trans hframe')]

/-! ## A read -/

/-- All frames but the last are as long as a frame can be. -/
structure Nominal (reader : ObjectReader) : Prop where
  limit_pos : 0 < reader.info.framePlainLimit
  plainLength : ∀ i e, reader.entries[i]? = some e →
    e.plainLength = min reader.info.framePlainLimit
      (reader.info.plaintextLength - i * reader.info.framePlainLimit)
  /-- The frames can be counted by the reader, and there are enough. -/
  count_lt : reader.entries.length < 2 ^ 32
  enough : reader.info.plaintextLength ≤ reader.entries.length * reader.info.framePlainLimit

theorem Nominal.length_frame (h : Nominal reader) {plain : Bytes}
    (hread : readFrame D C reader index = .ok plain) :
    plain.length = min reader.info.framePlainLimit
      (reader.info.plaintextLength - index * reader.info.framePlainLimit) := by
  obtain ⟨entry, hentry, hlength⟩ := length_of_readFrame hread
  rw [hlength, h.plainLength index entry hentry]

/-- The position is on a frame that there is, and the frame reaches behind it. -/
theorem Nominal.place (h : Nominal reader) {position : ℕ} (hlt : position < reader.info.plaintextLength) :
    position / reader.info.framePlainLimit < reader.entries.length ∧
      ∀ plain, readFrame D C reader (position / reader.info.framePlainLimit) = .ok plain →
        position % reader.info.framePlainLimit < plain.length := by
  have hmod := Nat.mod_lt position h.limit_pos
  have hdiv := Nat.div_add_mod' position reader.info.framePlainLimit
  refine ⟨?_, fun plain hread ↦ ?_⟩
  · rw [Nat.div_lt_iff_lt_mul h.limit_pos]
    exact hlt.trans_le h.enough
  · rw [h.length_frame hread]
    omega

/-- Nothing stands in the way of a read. -/
structure Unhindered (D : Deflate) (C : ObjectCrypto) (env : PlayEnv) (s : VideoObjectSource) : Prop where
  fails : ∀ turn, env.fails turn = none
  cancels : ∀ turn, env.cancels turn = false
  cancelled : s.cancelled = false
  frames : ∀ i < s.reader.entries.length, ∃ plain, readFrame D C s.reader i = .ok plain

/-- The outcome of a read: the cache is sound, and what was read is what the frames hold. -/
structure Outcome (D : Deflate) (C : ObjectCrypto) (reader : ObjectReader) (env : PlayEnv) (offset wanted : ℕ)
    (before : VideoObjectSource) (result : Option Bytes) (after : VideoObjectSource) : Prop where
  sound : Sound D C reader after
  exact : ∀ bytes, result = some bytes → bytes.length = wanted ∧
    Holds (frames D C reader) reader.info.framePlainLimit offset bytes
  answers : Unhindered D C env before → after.cancelled = false ∧ ∃ bytes, result = some bytes

theorem outcome_readFrom {result : Option Bytes} (hnominal : Nominal reader) (h : Sound D C reader s)
    (hwanted : offset + wanted ≤ reader.info.plaintextLength) (hout : out.length ≤ wanted)
    (hrounds : wanted < out.length + rounds)
    (hholds : Holds (frames D C reader) reader.info.framePlainLimit offset out)
    (hrun : readFrom D C env offset wanted rounds turn out s = (result, t)) :
    Outcome D C reader env offset wanted s result t := by
  induction rounds generalizing turn out s with
  | zero => exact absurd hout (by omega)
  | succ rounds ih =>
    rw [readFrom] at hrun
    by_cases hdone : wanted ≤ out.length
    · rw [if_pos hdone] at hrun
      obtain ⟨rfl, rfl⟩ := Prod.mk.inj hrun
      refine ⟨⟨h.same, h.first, h.second⟩, ?_, fun hu ↦ ⟨hu.cancelled, out, rfl⟩⟩
      rintro bytes ⟨⟩
      exact ⟨le_antisymm hout hdone, hholds⟩
    rw [if_neg hdone] at hrun
    by_cases hcancelled : (s.cancelled || env.cancels turn) = true
    · rw [if_pos hcancelled] at hrun
      obtain ⟨rfl, rfl⟩ := Prod.mk.inj hrun
      refine ⟨h.stopped, ?_, fun hu ↦ ?_⟩
      · rintro bytes ⟨⟩
      · rw [hu.cancelled, hu.cancels] at hcancelled
        cases hcancelled
    rw [if_neg hcancelled] at hrun
    dsimp only at hrun
    rw [h.same] at hrun
    have hposition : offset + out.length < reader.info.plaintextLength := by omega
    obtain ⟨hindex, hwithin⟩ := hnominal.place (D := D) (C := C) hposition
    rw [if_neg (by have := hnominal.count_lt; omega)] at hrun
    rcases hload : loadFrame D C (env.fails turn) ((offset + out.length) / reader.info.framePlainLimit) s with
      ⟨loaded, u⟩
    obtain ⟨hsound, hsame, hframe, hloads⟩ := loadFrame_spec h hload
    rw [hload] at hrun
    rcases loaded with _ | frame
    · obtain ⟨rfl, rfl⟩ := Prod.mk.inj hrun
      refine ⟨hsound, ?_, fun hu ↦ ?_⟩
      · rintro bytes ⟨⟩
      · obtain ⟨plain, hplain⟩ := hu.frames _ (h.same ▸ hindex)
        rw [h.same] at hplain
        cases hloads (hu.fails turn) plain hplain
    dsimp only at hrun
    have hread := hframe frame rfl
    have hin := hwithin frame hread
    rw [if_neg (Nat.not_le.mpr hin)] at hrun
    have hpage : frames D C reader ((offset + out.length) / reader.info.framePlainLimit) = some frame := by
      rw [frames, hread]
      rfl
    have hsize : frame.length ≤ reader.info.framePlainLimit := by
      rw [hnominal.length_frame hread]
      exact Nat.min_le_left _ _
    have hmore := hholds.append_piece hpage hsize (wanted - out.length)
    have hmissing : 0 < wanted - out.length := by omega
    have hpos := length_piece_pos hin hmissing
    have hle := @length_piece_le UInt8 reader.info.framePlainLimit (offset + out.length) (wanted - out.length)
      frame
    have hnext := ih hsound (by rw [List.length_append]; omega) (by rw [List.length_append]; omega) hmore hrun
    refine ⟨hnext.sound, hnext.exact, fun hu ↦ hnext.answers ?_⟩
    refine ⟨hu.fails, hu.cancels, hsame.trans hu.cancelled, ?_⟩
    rw [hsound.same, ← h.same]
    exact hu.frames

/-- **A read.** -/
theorem outcome_read {result : Option Bytes} (hnominal : Nominal reader) (h : Sound D C reader s)
    (hrun : read D C env offset amount s = (result, t)) :
    Outcome D C reader env offset (min amount (reader.info.plaintextLength - offset)) s result t := by
  rw [read] at hrun
  by_cases hcancelled : (s.cancelled || env.cancels 0) = true
  · rw [if_pos hcancelled] at hrun
    obtain ⟨rfl, rfl⟩ := Prod.mk.inj hrun
    refine ⟨h.stopped, ?_, fun hu ↦ ?_⟩
    · rintro bytes ⟨⟩
    · rw [hu.cancelled, hu.cancels] at hcancelled
      cases hcancelled
  rw [if_neg hcancelled, size, h.same] at hrun
  by_cases hnothing : reader.info.plaintextLength ≤ offset ∨ amount = 0
  · rw [if_pos hnothing] at hrun
    obtain ⟨rfl, rfl⟩ := Prod.mk.inj hrun
    refine ⟨h, ?_, fun hu ↦ ⟨hu.cancelled, [], rfl⟩⟩
    rintro bytes ⟨⟩
    refine ⟨?_, holds_nil⟩
    rw [List.length_nil]
    omega
  rw [if_neg hnothing] at hrun
  exact outcome_readFrom hnominal h (by omega) (Nat.zero_le _) (by rw [List.length_nil]; omega) holds_nil hrun

/-! ## Runs -/

inductive Request where
  | read (env : PlayEnv) (offset amount : ℕ)
  | cancel

section Run

variable (D : Deflate) (C : ObjectCrypto)

def serve (s : VideoObjectSource) : Request → VideoObjectSource
  | .read env offset amount => (s.read D C env offset amount).2
  | .cancel => s.cancel

/-- The source after some requests. -/
def serveAll (requests : List Request) (s : VideoObjectSource) : VideoObjectSource :=
  requests.foldl (serve D C) s

/-- A read comes upon a cancellation: it does not end as it would without one. -/
def Sees (env : PlayEnv) (offset amount : ℕ) (s : VideoObjectSource) : Prop :=
  read D C env offset amount s ≠ read D C env.undisturbed offset amount s

/-- Some request cancels the reader, or is a read that comes upon a cancellation. -/
def Stops : List Request → VideoObjectSource → Prop
  | [], _ => False
  | .cancel :: _, _ => True
  | .read env offset amount :: requests, s =>
    Sees D C env offset amount s ∨ Stops requests (serve D C s (.read env offset amount))

end Run

variable {request : Request} {requests : List Request}

theorem sound_serve (hnominal : Nominal reader) (h : Sound D C reader s) :
    Sound D C reader (serve D C s request) := by
  rcases request with ⟨env, offset, amount⟩ | _
  · exact (outcome_read hnominal h rfl).sound
  · exact h.cancel

/-- **The cache is sound**, whatever was asked for, failed or was cancelled. -/
theorem sound_serveAll (hnominal : Nominal reader) (h : Sound D C reader s) :
    Sound D C reader (serveAll D C requests s) := by
  induction requests generalizing s with
  | nil => exact h
  | cons request requests ih => exact ih (sound_serve hnominal h)

/-! ## Cancelling -/

/-- A read that is not cancelled when it ends has come upon no cancellation. -/
theorem readFrom_undisturbed (h : (readFrom D C env offset wanted rounds turn out s).2.cancelled = false) :
    readFrom D C env offset wanted rounds turn out s =
      readFrom D C env.undisturbed offset wanted rounds turn out s := by
  induction rounds generalizing turn out s with
  | zero => rfl
  | succ rounds ih =>
    rw [readFrom] at h ⊢
    rw [readFrom]
    by_cases hdone : wanted ≤ out.length
    · rw [if_pos hdone, if_pos hdone]
    rw [if_neg hdone] at h ⊢
    rw [if_neg hdone]
    by_cases hcancelled : (s.cancelled || env.cancels turn) = true
    · rw [if_pos hcancelled] at h
      cases h
    rw [if_neg hcancelled] at h ⊢
    rw [Bool.not_eq_true, Bool.or_eq_false_iff] at hcancelled
    rw [hcancelled.1, PlayEnv.undisturbed, Bool.false_or, if_neg Bool.false_ne_true]
    dsimp only at h ⊢
    split_ifs at h ⊢
    · rfl
    rcases hload : loadFrame D C (env.fails turn) ((offset + out.length) / s.reader.info.framePlainLimit) s
      with ⟨_ | frame, u⟩
    · rfl
    rw [hload] at h
    dsimp only at h ⊢
    split_ifs at h ⊢
    · rfl
    · exact ih h

theorem read_undisturbed (h : (read D C env offset amount s).2.cancelled = false) :
    read D C env offset amount s = read D C env.undisturbed offset amount s := by
  rw [read] at h ⊢
  rw [read]
  by_cases hcancelled : (s.cancelled || env.cancels 0) = true
  · rw [if_pos hcancelled] at h
    cases h
  rw [if_neg hcancelled] at h ⊢
  rw [Bool.not_eq_true, Bool.or_eq_false_iff] at hcancelled
  rw [hcancelled.1, PlayEnv.undisturbed, Bool.false_or, if_neg Bool.false_ne_true]
  split_ifs at h ⊢
  · rfl
  · exact readFrom_undisturbed h

/-- A read does not cancel by itself. -/
theorem cancelled_readFrom (hcancels : ∀ turn, env.cancels turn = false) (hcancelled : s.cancelled = false) :
    (readFrom D C env offset wanted rounds turn out s).2.cancelled = false := by
  induction rounds generalizing turn out s with
  | zero => exact hcancelled
  | succ rounds ih =>
    rw [readFrom, hcancelled, hcancels, Bool.false_or, if_neg Bool.false_ne_true]
    have hload : (loadFrame D C (env.fails turn) ((offset + out.length) / s.reader.info.framePlainLimit)
        s).2.cancelled = false := by
      rw [loadFrame]
      split_ifs
      · exact hcancelled
      · exact hcancelled
      · split
        · exact (cancelled_replaceEntry _).trans hcancelled
        · exact (cancelled_replaceEntry _).trans hcancelled
    dsimp only
    split_ifs
    · rfl
    · exact hcancelled
    rcases hloaded : loadFrame D C (env.fails turn) ((offset + out.length) / s.reader.info.framePlainLimit)
      s with ⟨loaded, u⟩
    rw [hloaded] at hload
    rcases loaded with _ | frame
    · exact hload
    dsimp only
    split_ifs
    · exact hload
    · exact ih hload

theorem cancelled_read_undisturbed (hcancelled : s.cancelled = false) :
    (read D C env.undisturbed offset amount s).2.cancelled = false := by
  rw [read, hcancelled, PlayEnv.undisturbed, Bool.false_or, if_neg Bool.false_ne_true]
  split_ifs
  · exact hcancelled
  · exact cancelled_readFrom (fun _ ↦ rfl) hcancelled

theorem read_of_cancelled (hcancelled : s.cancelled = true) :
    read D C env offset amount s = (none, s.stopped) := by
  rw [read, hcancelled, Bool.true_or, if_pos rfl]

/-- **A read leaves the reader cancelled** if it was before, or comes upon a cancellation. -/
theorem cancelled_read_iff : (read D C env offset amount s).2.cancelled = true ↔
    s.cancelled = true ∨ Sees D C env offset amount s := by
  rcases hcancelled : s.cancelled with _ | _
  · rw [or_iff_right Bool.false_ne_true]
    constructor
    · intro hafter hsame
      rw [hsame, cancelled_read_undisturbed hcancelled] at hafter
      cases hafter
    · intro hsees
      by_contra hafter
      exact hsees (read_undisturbed (Bool.eq_false_iff.mpr hafter))
  · rw [read_of_cancelled hcancelled]
    exact iff_of_true rfl (.inl rfl)

/-- **Who was cancelled stays so**, and nothing else cancels. -/
theorem cancelled_serveAll_iff : (serveAll D C requests s).cancelled = true ↔
    s.cancelled = true ∨ Stops D C requests s := by
  induction requests generalizing s with
  | nil => exact (or_iff_left id).symm
  | cons request requests ih =>
    refine ih.trans ?_
    cases request with
    | read env offset amount => exact (or_congr_left cancelled_read_iff).trans or_assoc
    | cancel => exact iff_of_true (.inl rfl) (.inr trivial)

/-! ## What is played -/

variable {objects : Objects} {masterKey : Block 32} {expected : ObjectInfo} {source : VideoObjectSource}
  {plains : List Bytes}

theorem sound_open : Sound D C reader { reader } :=
  ⟨rfl, by rintro ⟨⟩, by rintro ⟨⟩⟩

/-- The entries decide whether an object that was opened is nominal. -/
theorem nominal_of_openObject (hopen : openObject C objects masterKey expected = .ok reader)
    (hplain : ∀ i e, reader.entries[i]? = some e → e.plainLength = min reader.info.framePlainLimit
      (reader.info.plaintextLength - i * reader.info.framePlainLimit)) : Nominal reader := by
  obtain ⟨tableOffset, -, -, hcount, htotal, -⟩ := directory_of_openObject hopen
  obtain ⟨hvalid, -, -, hinfo, -⟩ := openObject_eq_ok_iff.mp hopen
  simp only [validExpectedInfo, Bool.and_eq_true, decide_eq_true_eq] at hvalid
  obtain ⟨⟨⟨-, hlimit⟩, -⟩, hframes⟩ := hvalid
  rw [objectMaxFrames] at hframes
  refine ⟨?_, hplain, by omega, ?_⟩
  · rw [hinfo]
    exact Nat.pos_of_ne_zero hlimit
  · have hle : ∀ n ∈ reader.entries.map (·.plainLength), n ≤ reader.info.framePlainLimit := by
      intro n hn
      obtain ⟨e, he, rfl⟩ := List.mem_map.mp hn
      obtain ⟨i, hi⟩ := List.mem_iff_getElem?.mp he
      rw [hplain i e hi]
      exact Nat.min_le_left _ _
    have hsum := List.sum_le_card_nsmul _ _ hle
    rw [List.length_map, smul_eq_mul] at hsum
    rw [hinfo, ← htotal, plainTotal, ← hinfo]
    exact hsum

/-- Where all frames are read, they are the pages of the video. -/
theorem pagesOf_frames (hnominal : Nominal reader) (h : Reads D C reader plains) :
    PagesOf (frames D C reader) reader.info.framePlainLimit plains.flatten := by
  have hframes : frames D C reader = fun i ↦ plains[i]? := by
    funext i
    rw [frames, h.frames i]
    rcases plains[i]? with _ | plain
    · rfl
    · rfl
  rw [hframes]
  refine pagesOf_flatten fun i plain hplain ↦ ?_
  have hread : readFrame D C reader i = .ok plain := by
    rw [h.frames i, hplain]
    rfl
  rw [hnominal.length_frame hread, h.total]

/-- The answers of a source that plays a text. -/
structure Plays (D : Deflate) (C : ObjectCrypto) (source : VideoObjectSource) (text : Bytes) : Prop where
  size : source.size = text.length
  exact : ∀ requests env offset amount bytes,
    (read D C env offset amount (serveAll D C requests source)).1 = some bytes →
      bytes = (text.drop offset).take amount
  stops : ∀ requests env offset amount, Stops D C requests source →
    (read D C env offset amount (serveAll D C requests source)).1 = none
  answers : ∀ requests env offset amount, ¬ Stops D C requests source →
    ¬ Sees D C env offset amount (serveAll D C requests source) → (∀ turn, env.fails turn = none) →
    ∃ bytes, (read D C env offset amount (serveAll D C requests source)).1 = some bytes

theorem plays_of_reads (hnominal : Nominal reader) (h : Reads D C reader plains) :
    Plays D C { reader } plains.flatten := by
  have hpages := pagesOf_frames hnominal h
  have hsound : ∀ requests, Sound D C reader (serveAll D C requests { reader }) :=
    fun requests ↦ sound_serveAll hnominal sound_open
  have houtcome := fun requests env offset amount ↦
    @outcome_read D C (serveAll D C requests { reader }) _ reader env offset amount _ hnominal
      (hsound requests) rfl
  refine ⟨h.total, ?_, ?_, ?_⟩
  · intro requests env offset amount bytes hbytes
    obtain ⟨hlength, hholds⟩ := (houtcome requests env offset amount).exact bytes hbytes
    rw [hholds.eq_slice hpages hnominal.limit_pos, hlength, h.total, List.take_eq_take_iff, List.length_drop]
    omega
  · intro requests env offset amount hstops
    rw [read_of_cancelled (cancelled_serveAll_iff.mpr (.inr hstops))]
  · intro requests env offset amount hstops hsees hfails
    rw [not_not.mp hsees]
    refine ((houtcome requests env.undisturbed offset amount).answers ⟨hfails, fun _ ↦ rfl, ?_, ?_⟩).2
    · rw [Bool.eq_false_iff, ne_eq, cancelled_serveAll_iff]
      exact not_or.mpr ⟨Bool.false_ne_true, hstops⟩
    · rw [(hsound requests).same]
      intro i hi
      have hlt : i < plains.length := by
        have hlengths := congrArg List.length h.lengths
        rw [List.length_map, List.length_map] at hlengths
        omega
      refine ⟨plains[i], ?_⟩
      rw [h.frames i, List.getElem?_eq_getElem hlt]
      rfl

/-- The objects that this store writes are nominal. -/
theorem exists_reader_of_writeObjectStream {wenv : WriteEnv} {request : ObjectWriteRequest}
    {plaintextLength : ℕ} {info : ObjectInfo} {objects objects' : Objects}
    (h : writeObjectStream D C wenv masterKey request plaintextLength objects = (.ok info, objects')) :
    ∃ reader plains, openObject C objects' masterKey info = .ok reader ∧ Reads D C reader plains ∧
      plains.flatten = ObjectDisk.handedOut wenv info ∧ Nominal reader := by
  obtain ⟨reader, plains, hopen, hreads, hplains⟩ := reads_of_writeObjectStream h
  obtain ⟨tableOffset, -, -, hcount, -⟩ := directory_of_openObject hopen
  obtain ⟨-, -, -, hinfo, -⟩ := openObject_eq_ok_iff.mp hopen
  refine ⟨reader, plains, hopen, hreads, ?_, nominal_of_openObject hopen fun i e he ↦ ?_⟩
  · have hmap := congrArg (List.map fun plain : Option Bytes ↦ plain.getD []) hplains
    rw [List.map_map, List.map_map] at hmap
    rw [ObjectDisk.handedOut, List.flatMap]
    exact congrArg List.flatten (hmap.trans (List.map_id _)).symm
  · obtain ⟨hi, -⟩ := List.getElem?_eq_some_iff.mp he
    rw [hcount] at hi
    have hlength : (reader.entries.map (·.plainLength))[i]? = (plains.map (·.length))[i]? := by
      rw [hreads.lengths]
    have hplain := congrArg (fun l : List (Option Bytes) ↦ l[i]?) hplains
    rw [List.getElem?_map, List.getElem?_map, he, Option.map_some] at hlength
    rw [List.getElem?_map, List.getElem?_map, List.getElem?_range hi, Option.map_some] at hplain
    rcases hget : plains[i]? with _ | plain
    · rw [hget] at hlength
      cases hlength
    rw [hget, Option.map_some, Option.some_inj] at hlength hplain
    rw [readPlain, Option.map_eq_some_iff] at hplain
    obtain ⟨block, -, rfl⟩ := hplain
    rw [hlength, block.size, frameLength, hinfo]

/-- **A video that was written is played**, as long as its file is there: every read that does not fail has
the part of the video that was asked for, whatever was read, failed or was cancelled before. -/
theorem plays_of_writeObjectStream (D : Deflate) (C : ObjectCrypto) (masterKey : Block 32) (wenv : WriteEnv)
    (request : ObjectWriteRequest) (plaintextLength : ℕ) (info : ObjectInfo) (objects objects' objects'' : Objects)
    (h : writeObjectStream D C wenv masterKey request plaintextLength objects = (.ok info, objects'))
    (hrole : info.role = .originalVideo) (hfile : objects'' info.objectId = objects' info.objectId) :
    ∃ source, openSource C objects'' masterKey info = .ok source ∧
      Plays D C source (ObjectDisk.handedOut wenv info) := by
  obtain ⟨reader, plains, hopen, hreads, htext, hnominal⟩ := exists_reader_of_writeObjectStream h
  refine ⟨{ reader }, ?_, htext ▸ plays_of_reads hnominal hreads⟩
  have hopen'' : openObject C objects'' masterKey info = .ok reader := by
    rw [openObject_eq_ok_iff] at hopen ⊢
    rw [hfile]
    exact hopen
  rw [openSource, hrole, hopen'']
  rfl

/-- A video of five bytes. -/
def smallVideo : ObjectWriteRequest := { smallRequest with role := .originalVideo }

/-- After a read that failed in its second frame, the bytes of two frames are read. -/
theorem plays_of_writeObjectStream_small : ∃ objects' source,
    writeObjectStream idleDeflate plainCrypto countingEnv (.zero 32) smallVideo 5 (fun _ ↦ none) =
      (.ok { smallInfo with role := .originalVideo }, objects') ∧
    openSource plainCrypto objects' (.zero 32) { smallInfo with role := .originalVideo } = .ok source ∧
    (read idleDeflate plainCrypto {} 1 3 (serveAll idleDeflate plainCrypto
      [.read { fails := fun turn ↦ if turn = 2 then some .ioError else none } 0 5] source)).1 =
        some [1, 2, 3] := by
  have hinfo : (writeObjectStream idleDeflate plainCrypto countingEnv (.zero 32) smallVideo 5
      (fun _ ↦ none)).1.toOption = some { smallInfo with role := .originalVideo } := by decide +kernel
  rcases hw : writeObjectStream idleDeflate plainCrypto countingEnv (.zero 32) smallVideo 5
    (fun _ ↦ none) with ⟨status | info, objects'⟩
  · rw [hw] at hinfo
    cases hinfo
  rw [hw] at hinfo
  obtain rfl := Option.some.inj hinfo
  obtain ⟨source, hopen, hplays⟩ := plays_of_writeObjectStream idleDeflate plainCrypto (.zero 32) countingEnv
    smallVideo 5 _ _ objects' objects' hw rfl rfl
  refine ⟨objects', source, rfl, hopen, ?_⟩
  obtain ⟨bytes, hbytes⟩ := hplays.answers
    [.read { fails := fun turn ↦ if turn = 2 then some .ioError else none } 0 5] {} 1 3
    (not_or.mpr ⟨fun hsees ↦ hsees rfl, id⟩) (fun hsees ↦ hsees rfl) fun _ ↦ rfl
  have htext : bytes = [1, 2, 3] := (hplays.exact _ _ _ _ _ hbytes).trans (by decide +kernel)
  rw [hbytes, htext]

end VideoObjectSource

end Video

end SafeVault
