import SafeVault.Crypto.Access
import SafeVault.Lib.History
import SafeVault.V3.Credentials
import SafeVault.V3.Session
import Mathlib.Tactic.IntervalCases

/-!
# Changing the password of a directory vault

The new header is staged in a file of its own, renamed onto the old one, and made durable by
synchronising the directory. Until that has been done, a loss of power may bring the old header back.
The header in memory is replaced last. No commit writes it, so a failed change cannot take effect
later; but a change whose directory could not be synchronised is reported as failed although the new
header is in place.
-/

namespace SafeVault

namespace V3

/-! ## The root of a vault -/

/-- The header file: what a reader finds, and what may come back after a loss of power. -/
structure HeaderFile where
  visible : Block v3HeaderSize
  earlier : List (Block v3HeaderSize) := []

namespace HeaderFile

/-- Rename a staged file onto the header. -/
def replace (f : HeaderFile) (raw : Block v3HeaderSize) : HeaderFile := ⟨raw, f.visible :: f.earlier⟩

/-- Synchronise the directory. -/
def sync (f : HeaderFile) : HeaderFile := { f with earlier := [] }

/-- What may be found. -/
def Found (f : HeaderFile) (raw : Block v3HeaderSize) : Prop := raw = f.visible ∨ raw ∈ f.earlier

end HeaderFile

/-- The libraries, the random source, and which steps fail. -/
structure RootEnv where
  crypto : KeyCrypto
  draws : ℕ → Draws
  fails : ℕ → Bool

/-- A session, as far as the header is concerned. The master key is there while it is unlocked. -/
structure RootSession where
  file : HeaderFile
  header : V3Header
  master : Option (Block 32)
  sessionLock : Bool
  clock : ℕ := 0

def RootSession.tick (s : RootSession) : RootSession := { s with clock := s.clock + 1 }

section Steps

variable (E : RootEnv)

/-- A step that may fail, and then has not done anything. -/
def attempt {α : Type} (error : ReadStatus) (done : RootSession → α × RootSession) :
    Proc RootSession ReadStatus α :=
  .step fun s ↦ if E.fails s.clock then (.error error, s.tick) else (.ok (done s.tick).1, (done s.tick).2)

/-- A step without an effect. -/
def attemptOnly (error : ReadStatus) : Proc RootSession ReadStatus Unit := attempt E error fun s ↦ ((), s)

/-- A change of the session in memory. -/
def update (f : RootSession → RootSession) : Proc RootSession ReadStatus Unit := .step fun s ↦ (.ok (), f s)

/-- The lock of the session, or one for this call. -/
def takeLock : Proc RootSession ReadStatus Unit := do
  let held ← .look (·.sessionLock)
  if held then pure () else attemptOnly E .busy

/-- `unwrap_v3_master_key` as a step: the key derivation also fails for want of memory. -/
def unwrapStep (h : V3Header) (c : Credentials) : Proc RootSession ReadStatus (Block 32) := do
  if h.keyfileRequired && c.keyfile.isEmpty then .stop .authenticationFailed
  else
    attemptOnly E .ioError
    match unwrapV3MasterKey E.crypto h c with
    | .ok key => pure key
    | .error .authenticationFailed => .stop .authenticationFailed
    | .error _ => .stop .ioError

/-- `VaultRoot::replace_header`. -/
def replaceHeader (raw : Block v3HeaderSize) : Proc RootSession ReadStatus Unit := do
  -- Create the staging file, write it, synchronise it.
  attemptOnly E .ioError
  attemptOnly E .ioError
  attemptOnly E .ioError
  attempt E .ioError fun s ↦ ((), { s with file := s.file.replace raw })
  attempt E .ioError fun s ↦ ((), { s with file := s.file.sync })
  -- The staging directory.
  attemptOnly E .ioError

/-- `ReadSession::change_password`. -/
def changePassword (old new : Credentials) : Proc RootSession ReadStatus Unit := do
  takeLock E
  let raw ← attempt E .badFormat fun s ↦ (s.file.visible, s)
  match V3Header.parse raw with
  | .error _ => .stop .badFormat
  | .ok current => do
    update fun s ↦ { s with header := current }
    let verified ← unwrapStep E current old
    let held ← .look (·.master)
    if held.any (· != verified) then .stop .ioError
    else
      let draws ← attempt E .ioError fun s ↦ (E.draws s.clock, s)
      match rewrapV3Header E.crypto draws current verified new with
      | .error _ => .stop .ioError
      | .ok next => do
        replaceHeader E next.serialize
        update fun s ↦ { s with header := next }

end Steps

/-! ## Rules for the steps -/

section Rules

variable {E : RootEnv} {I : RootSession → Prop} {Er : ReadStatus → RootSession → Prop} {s : RootSession}

theorem wp_attempt {α : Type} {error : ReadStatus} {done : RootSession → α × RootSession}
    {Q : α → RootSession → Prop}
    (hdone : E.fails s.clock = false → I (done s.tick).2 ∧ Q (done s.tick).1 (done s.tick).2)
    (hfail : E.fails s.clock = true → I s.tick ∧ Er error s.tick) :
    Proc.wp I (attempt E error done) Q Er s := by
  rw [attempt, Proc.wp_step]
  rcases hfault : E.fails s.clock with _ | _
  · exact hdone hfault
  · exact hfail hfault

theorem wp_update {f : RootSession → RootSession} {Q : Unit → RootSession → Prop} :
    Proc.wp I (update f) Q Er s ↔ I (f s) ∧ Q () (f s) := by
  rw [update, Proc.wp_step]

/-- The clock when the lock has been taken. -/
def RootSession.lockedAt (s : RootSession) : ℕ := if s.sessionLock then s.clock else s.clock + 1

/-- The lock can be taken. -/
def RootSession.Lockable (E : RootEnv) (s : RootSession) : Prop :=
  s.sessionLock = true ∨ E.fails s.clock = false

theorem wp_takeLock {Q : Unit → RootSession → Prop}
    (hdone : ∀ t, s.Lockable E → t.clock = s.lockedAt → t.file = s.file → t.master = s.master →
      I t ∧ Q () t)
    (hfail : I s.tick ∧ Er .busy s.tick) : Proc.wp I (takeLock E) Q Er s := by
  rw [takeLock, Proc.wp_bind, Proc.wp_look]
  rcases hlock : s.sessionLock with _ | _
  · rw [if_neg Bool.false_ne_true]
    exact wp_attempt (fun h ↦ hdone _ (.inr h) (by rw [RootSession.lockedAt, hlock]; rfl) rfl rfl)
      fun _ ↦ hfail
  · rw [if_pos rfl]
    exact Proc.wp_pure.mpr (hdone s (.inl hlock) (by rw [RootSession.lockedAt, hlock]; rfl) rfl rfl).2

theorem wp_unwrapStep {h : V3Header} {c : Credentials} {Q : Block 32 → RootSession → Prop}
    (hdone : ∀ key, unwrapV3MasterKey E.crypto h c = .ok key → E.fails s.clock = false → I s.tick ∧ Q key s.tick)
    (htick : I s.tick) (hstop : ∀ e, Er e s ∧ Er e s.tick) : Proc.wp I (unwrapStep E h c) Q Er s := by
  rw [unwrapStep]
  split_ifs
  · exact Proc.wp_stop.mpr (hstop _).1
  rw [Proc.wp_bind]
  refine wp_attempt (fun hfault ↦ ⟨htick, ?_⟩) fun _ ↦ ⟨htick, (hstop _).2⟩
  rcases hunwrap : unwrapV3MasterKey E.crypto h c with e | key
  · cases e <;> exact Proc.wp_stop.mpr (hstop _).2
  · exact Proc.wp_pure.mpr (hdone key hunwrap hfault).2

end Rules

/-! ## Who opens the header -/

/-- What the credentials give on a header. -/
def headerKey (C : KeyCrypto) (raw : Block v3HeaderSize) (c : Credentials) : Option (Block 32) :=
  match V3Header.parse raw with
  | .ok h => (unwrapV3MasterKey C h c).toOption
  | .error _ => none

/-- A vault directory, as it may be found after a crash. -/
def rootMedium (C : KeyCrypto) : Medium RootSession (Block v3HeaderSize) where
  found s := s.file.Found
  key := headerKey C

/-- **The invariant.** The header is durable and wrapped for the holder. -/
def RootHeldBy (C : KeyCrypto) (master : Block 32) (c : Credentials) (s : RootSession) : Prop :=
  ∃ h : V3Header, s.file = ⟨h.serialize, []⟩ ∧ h.Valid ∧ Wraps C h c master

section Held

variable {E : RootEnv} {C : KeyCrypto} {S : Set Credentials} {h h' : V3Header} {master : Block 32}
  {c c' old new : Credentials} {s t : RootSession}

theorem headerKey_serialize (hv : h.Valid) : headerKey C h.serialize c = (unwrapV3MasterKey C h c).toOption := by
  rw [headerKey, V3Header.parse_serialize hv]

theorem headerKey_holder (hv : h.Valid) (hw : Wraps C h c master) :
    headerKey C h.serialize c = some master := by
  rw [headerKey_serialize hv, hw.unwrap]
  rfl

/-- The holder opens what is found. -/
theorem RootHeldBy.opensFor (hs : RootHeldBy C master c s) : (rootMedium C).OpensFor master s {c} := by
  obtain ⟨h, hfile, hv, hw⟩ := hs
  intro raw hraw
  change s.file.Found raw at hraw
  rw [hfile] at hraw
  rcases hraw with rfl | hraw
  · exact ⟨c, rfl, headerKey_holder hv hw⟩
  · exact absurd hraw List.not_mem_nil

/-- Nobody else does. -/
theorem RootHeldBy.closedFor (hs : RootHeldBy C master c s) (hC : C.IdealFor S) (hc : c ∈ S) :
    (rootMedium C).ClosedFor s (S \ {c}) := by
  obtain ⟨h, hfile, hv, hw⟩ := hs
  intro raw hraw c' hc'
  change s.file.Found raw at hraw
  rw [hfile] at hraw
  rcases hraw with rfl | hraw
  · refine (headerKey_serialize hv).trans ?_
    rcases hunwrap : unwrapV3MasterKey C h c' with e | key
    · rfl
    · exact absurd ((hw.unwrap_iff (hC.pair hc hc'.1 _)).mp hunwrap).1 hc'.2
  · exact absurd hraw List.not_mem_nil

/-- Only the header file matters. -/
theorem RootHeldBy.of_file (hs : RootHeldBy C master c s) (hfile : t.file = s.file) : RootHeldBy C master c t := by
  obtain ⟨h, hs, hv, hw⟩ := hs
  exact ⟨h, hfile.trans hs, hv, hw⟩

end Held

/-! ## One change -/

/-- What a session does: changing the password, or committing metadata. -/
inductive RootOp where
  | change (old new : Credentials)
  | commit

/-- The calls of a session on a directory. A commit goes to the database and leaves the header alone. -/
def rootInterface (E : RootEnv) : Interface RootSession ReadStatus RootOp where
  run
    | .change old new => changePassword E old new
    | .commit => attemptOnly E .ioError
  change
    | .change old new => some (old, new)
    | .commit => none

/-- A directory is not synchronised after the header has been renamed: the rename is reached, and one of
the two steps after it fails. -/
def SyncFails (E : RootEnv) (s : RootSession) : RootOp → Prop
  | .change old new =>
    s.Lockable E ∧
    (∃ current key next, V3Header.parse s.file.visible = .ok current ∧
      unwrapV3MasterKey E.crypto current old = .ok key ∧ s.master.any (· != key) = false ∧
      rewrapV3Header E.crypto (E.draws (s.lockedAt + 3)) current key new = .ok next) ∧
    ∃ k, (k = 7 ∨ k = 8) ∧ (∀ i < k, E.fails (s.lockedAt + i) = false) ∧ E.fails (s.lockedAt + k) = true
  | .commit => False

section Change

variable {E : RootEnv} {S : Set Credentials} {master : Block 32} {c old new : Credentials} {s : RootSession}

/-- The new header is renamed onto the old one and made durable. -/
theorem wp_replaceHeader {I : RootSession → Prop} {Er : ReadStatus → RootSession → Prop}
    {Q : Unit → RootSession → Prop} {raw : Block v3HeaderSize}
    (hbefore : ∀ t, t.file = s.file → I t ∧ Er .ioError t)
    (hrenamed : ∀ t, t.file = s.file.replace raw → I t)
    (hfault : (∀ i < 4, E.fails (s.clock + i) = false) →
      E.fails (s.clock + 4) = false ∧ E.fails (s.clock + 5) = false)
    (hdone : ∀ t, t.file = ⟨raw, []⟩ → I t ∧ Q () t) : Proc.wp I (replaceHeader E raw) Q Er s := by
  rw [replaceHeader, attemptOnly, Proc.wp_bind]
  refine wp_attempt (fun h₀ ↦ ⟨(hbefore s.tick rfl).1, ?_⟩) fun _ ↦ hbefore _ rfl
  rw [Proc.wp_bind]
  refine wp_attempt (fun h₁ ↦ ⟨(hbefore s.tick.tick rfl).1, ?_⟩) fun _ ↦ hbefore _ rfl
  rw [Proc.wp_bind]
  refine wp_attempt (fun h₂ ↦ ⟨(hbefore s.tick.tick.tick rfl).1, ?_⟩) fun _ ↦ hbefore _ rfl
  rw [Proc.wp_bind]
  refine wp_attempt (fun h₃ ↦ ⟨hrenamed _ rfl, ?_⟩) fun _ ↦ hbefore _ rfl
  -- From here on the new header is in place.
  obtain ⟨h₄, h₅⟩ := hfault fun i hi ↦ by
    interval_cases i
    exacts [h₀, h₁, h₂, h₃]
  rw [Proc.wp_bind]
  refine wp_attempt (fun _ ↦ ⟨(hdone _ rfl).1, ?_⟩) fun h ↦ absurd (h₄.symm.trans h) Bool.false_ne_true
  exact wp_attempt (fun _ ↦ hdone _ rfl) fun h ↦ absurd (h₅.symm.trans h) Bool.false_ne_true

/-- **A change of the password** whose directories can be synchronised. -/
theorem wp_changePassword (hs : RootHeldBy E.crypto master c s) (hC : E.crypto.IdealFor S) (hc : c ∈ S)
    (hold : old ∈ S) (hsync : ¬SyncFails E s (.change old new)) :
    Proc.wp ((rootMedium E.crypto).OpensFor master · {c, new}) (changePassword E old new)
      (fun _ ↦ RootHeldBy E.crypto master new) (fun _ ↦ RootHeldBy E.crypto master c) s := by
  have hkeep (t : RootSession) (hfile : t.file = s.file) :
      (rootMedium E.crypto).OpensFor master t {c, new} ∧ RootHeldBy E.crypto master c t :=
    ⟨(hs.of_file hfile).opensFor.mono (by simp), hs.of_file hfile⟩
  obtain ⟨h, hfile, hv, hw⟩ := hs
  have hparse : V3Header.parse s.file.visible = .ok h := by
    rw [hfile]
    exact V3Header.parse_serialize hv
  rw [changePassword, Proc.wp_bind]
  refine wp_takeLock (fun t hlock hclock htfile hmaster ↦ ⟨(hkeep t htfile).1, ?_⟩) (hkeep _ rfl)
  rw [Proc.wp_bind]
  refine wp_attempt (fun h₀ ↦ ⟨(hkeep _ htfile).1, ?_⟩) fun _ ↦ hkeep _ htfile
  change Proc.wp _ (match V3Header.parse t.file.visible with | .error _ => _ | .ok current => _) _ _ _
  rw [htfile, hparse]
  dsimp only
  rw [Proc.wp_bind, wp_update, Proc.wp_bind]
  refine ⟨(hkeep _ htfile).1, wp_unwrapStep (fun key hkey h₁ ↦ ⟨(hkeep _ htfile).1, ?_⟩)
    (hkeep _ htfile).1 fun _ ↦ ⟨(hkeep _ htfile).2, (hkeep _ htfile).2⟩⟩
  -- What the old credentials give is the master key.
  obtain ⟨-, rfl⟩ := (hw.unwrap_iff (hC.pair hc hold _)).mp hkey
  rw [Proc.wp_bind, Proc.wp_look]
  split_ifs with hheld
  · exact Proc.wp_stop.mpr (hkeep _ htfile).2
  rw [Proc.wp_bind]
  refine wp_attempt (fun h₂ ↦ ⟨(hkeep _ htfile).1, ?_⟩) fun _ ↦ hkeep _ htfile
  rcases hrewrap : rewrapV3Header E.crypto (E.draws (t.clock + 1 + 1 + 1)) h key new with e | next
  · change Proc.wp _ (match rewrapV3Header E.crypto (E.draws (t.clock + 1 + 1 + 1)) h key new with
      | .error _ => _ | .ok next => _) _ _ _
    rw [hrewrap]
    exact Proc.wp_stop.mpr (hkeep _ htfile).2
  change Proc.wp _ (match rewrapV3Header E.crypto (E.draws (t.clock + 1 + 1 + 1)) h key new with
    | .error _ => _ | .ok next => _) _ _ _
  rw [hrewrap]
  dsimp only
  obtain ⟨hwraps, hflags, hkdf, hvault⟩ := wraps_of_rewrapV3Header hrewrap
  have hvalid : next.Valid := ⟨hflags.trans hv.flags, hkdf ▸ hv.kdf, hvault ▸ hv.vaultId⟩
  have hnew (u : RootSession) (hu : u.file = ⟨next.serialize, []⟩) : RootHeldBy E.crypto key new u :=
    ⟨next, hu, hvalid, hwraps⟩
  rw [Proc.wp_bind]
  refine wp_replaceHeader (fun u hu ↦ hkeep u (hu.trans htfile)) (fun u hu ↦ ?_) (fun hbefore ↦ ?_)
    fun u hu ↦ ⟨(hnew u hu).opensFor.mono (by simp), ?_⟩
  -- Between the rename and the synchronisation the old header may come back.
  · intro raw hraw
    change u.file.Found raw at hraw
    rw [hu] at hraw
    rcases hraw with rfl | hraw
    · exact ⟨new, .inr rfl, headerKey_holder hvalid hwraps⟩
    · change raw ∈ t.file.visible :: t.file.earlier at hraw
      rw [htfile, hfile, List.mem_singleton] at hraw
      exact ⟨c, .inl rfl, hraw ▸ headerKey_holder hv hw⟩
  · have hbefore' : ∀ i < 7, E.fails (s.lockedAt + i) = false := fun i hi ↦ by
      rw [← hclock]
      interval_cases i
      exacts [h₀, h₁, h₂, hbefore 0 (by decide), hbefore 1 (by decide), hbefore 2 (by decide),
        hbefore 3 (by decide)]
    have hreach : ∀ k, (k = 7 ∨ k = 8) → (∀ i < k, E.fails (s.lockedAt + i) = false) →
        E.fails (s.lockedAt + k) = false := fun k hk hfine ↦ by
      by_contra hfault
      exact hsync ⟨hlock, ⟨h, key, next, hparse, hkey, eq_false_of_ne_true (hmaster ▸ hheld),
        hclock ▸ hrewrap⟩, k, hk, hfine, eq_true_of_ne_false hfault⟩
    have h₇ := hreach 7 (.inl rfl) hbefore'
    have h₈ := hreach 8 (.inr rfl) fun i hi ↦ by
      rcases Nat.lt_succ_iff_lt_or_eq.mp hi with hi | rfl
      exacts [hbefore' i hi, h₇]
    rw [← hclock] at h₇ h₈
    exact ⟨h₇, h₈⟩
  · rw [wp_update]
    exact ⟨(hnew _ hu).opensFor.mono (by simp), hnew _ hu⟩

/-- **All calls** of a session on a directory keep the access to the vault. -/
theorem keeps_rootInterface (hC : E.crypto.IdealFor S) :
    (rootInterface E).Keeps (rootMedium E.crypto) S master (SyncFails E) (RootHeldBy E.crypto master) where
  opens hs := hs.opensFor
  change := by
    intro op old new c s hchange hs hc hold hnew hfine
    cases op with
    | change old' new' =>
      obtain ⟨rfl, rfl⟩ := Prod.mk.inj (Option.some.inj hchange)
      exact Proc.wp_imp (wp_changePassword hs hC hc hold hfine)
        (fun _ _ h ↦ ⟨h, h.closedFor hC hnew⟩) fun _ _ h ↦ h
    | commit => exact nomatch hchange
  call := by
    intro op c s hchange hs
    cases op with
    | change old new => exact nomatch hchange
    | commit => exact wp_attempt (fun _ ↦ ⟨hs.of_file rfl, hs.of_file rfl⟩) fun _ ↦ ⟨hs.of_file rfl, hs.of_file rfl⟩

end Change

end V3

end SafeVault
