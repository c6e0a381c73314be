import SafeVault.Crypto.Kdf
import SafeVault.Lib.History
import SafeVault.Lib.Proc

/-!
# Who can open a vault

What is found of a vault when the power fails is some file on the medium, and credentials either give
the master key there or do not. A change of the credentials is safe when at every moment of it the old
or the new ones give the master key, and when its result says which: the new ones and no others after
it was reported as done, the old ones after it was reported as failed.

Both formats of a vault are judged by this. It says nothing about how the credentials are stored.
-/

namespace SafeVault

/-- What may be found of a vault in a state, and the key that credentials give there. -/
structure Medium (σ τ : Type) where
  found : σ → τ → Prop
  key : τ → Credentials → Option (Block 32)

namespace Medium

variable {σ τ ε : Type} (M : Medium σ τ) (master : Block 32)

/-- Whatever is found, one of these credentials gives the master key. -/
def OpensFor (s : σ) (cs : Set Credentials) : Prop :=
  ∀ d, M.found s d → ∃ c ∈ cs, M.key d c = some master

/-- Whatever is found, none of these credentials gives a key. -/
def ClosedFor (s : σ) (cs : Set Credentials) : Prop :=
  ∀ d, M.found s d → ∀ c ∈ cs, M.key d c = none

/-- **A safe change** of the credentials. `S` are the credentials that anyone may try. -/
structure SafeChange (x : Proc σ ε Unit) (s : σ) (holder new : Credentials) (S : Set Credentials) : Prop where
  moments : ∀ t ∈ x.states s, M.OpensFor master t {holder, new}
  done : x.outcome s = .ok () → M.OpensFor master (x.final s) {new} ∧ M.ClosedFor (x.final s) (S \ {new})
  failed : ∀ e, x.outcome s = .error e → M.OpensFor master (x.final s) {holder}

/-- A call that is not a change of the credentials leaves their holder alone. -/
def SafeCall (x : Proc σ ε Unit) (s : σ) (holder : Credentials) : Prop :=
  ∀ t ∈ x.states s, M.OpensFor master t {holder}

variable {M master} {x : Proc σ ε Unit} {s : σ} {holder new : Credentials} {S cs cs' : Set Credentials}

theorem OpensFor.mono (h : M.OpensFor master s cs) (hsub : cs ⊆ cs') : M.OpensFor master s cs' :=
  fun d hd ↦ (h d hd).imp fun _ hc ↦ ⟨hsub hc.1, hc.2⟩

/-- A change is safe when its weakest precondition says so. -/
theorem SafeChange.of_wp (hs : M.OpensFor master s {holder})
    (hwp : Proc.wp (M.OpensFor master · {holder, new}) x
      (fun _ t ↦ M.OpensFor master t {new} ∧ M.ClosedFor t (S \ {new}))
      (fun _ t ↦ M.OpensFor master t {holder}) s) : M.SafeChange master x s holder new S where
  moments := Proc.forall_mem_states (hs.mono (by simp)) hwp
  done := Proc.of_outcome_ok hwp
  failed _ := Proc.of_outcome_error hwp

theorem SafeCall.of_wp {Q : Unit → σ → Prop} {Er : ε → σ → Prop} (hs : M.OpensFor master s {holder})
    (hwp : Proc.wp (M.OpensFor master · {holder}) x Q Er s) : M.SafeCall master x s holder :=
  Proc.forall_mem_states hs hwp

end Medium

/-! ## Sessions -/

/-- A session, and the credentials it should be opened with: those of the last change that was reported
as done. -/
structure Held (σ : Type) where
  session : σ
  holder : Credentials

/-- The calls of a session. Some of them change the credentials, from old ones to new ones. -/
structure Interface (σ ε κ : Type) where
  run : κ → Proc σ ε Unit
  change : κ → Option (Credentials × Credentials)

namespace Interface

variable {σ τ ε κ : Type} (P : Interface σ ε κ)

/-- The holder after a call. -/
def holder (v : Held σ) (op : κ) : Credentials :=
  match P.change op, (P.run op).outcome v.session with
  | some (_, new), .ok _ => new
  | _, _ => v.holder

def step (v : Held σ) (op : κ) : Option (Held σ) := some ⟨(P.run op).final v.session, P.holder v op⟩

/-- The credentials of a call are among some. -/
def Within (S : Set Credentials) (op : κ) : Prop := ∀ p ∈ P.change op, p.1 ∈ S ∧ p.2 ∈ S

/-- The call does with the credentials what it should. -/
def Safe (M : Medium σ τ) (S : Set Credentials) (master : Block 32) (v : Held σ) (op : κ) : Prop :=
  match P.change op with
  | some (_, new) => M.SafeChange master (P.run op) v.session v.holder new S
  | none => M.SafeCall master (P.run op) v.session v.holder

/-- In every run in which nothing fails of what must not fail, every call is safe. -/
def KeepsAccess (M : Medium σ τ) (S : Set Credentials) (master : Block 32) (Fails : σ → κ → Prop)
    (v : Held σ) : Prop :=
  ∀ ops w op, Run.Meets P.step (fun v op ↦ P.Within S op ∧ ¬Fails v.session op) v ops →
    Run.run P.step v ops = some w → P.Within S op → ¬Fails w.session op → P.Safe M S master w op

/-- What has to be shown for each call: an invariant for the holder that changes hands with the
credentials. -/
structure Keeps (M : Medium σ τ) (S : Set Credentials) (master : Block 32) (Fails : σ → κ → Prop)
    (H : Credentials → σ → Prop) : Prop where
  opens : ∀ {c s}, H c s → M.OpensFor master s {c}
  change : ∀ {op old new c s}, P.change op = some (old, new) → H c s → c ∈ S → old ∈ S → new ∈ S →
    ¬Fails s op → Proc.wp (M.OpensFor master · {c, new}) (P.run op)
      (fun _ t ↦ H new t ∧ M.ClosedFor t (S \ {new})) (fun _ t ↦ H c t) s
  call : ∀ {op c s}, P.change op = none → H c s →
    Proc.wp (H c) (P.run op) (fun _ t ↦ H c t) (fun _ t ↦ H c t) s

variable {P} {M : Medium σ τ} {S : Set Credentials} {master : Block 32} {Fails : σ → κ → Prop}
  {H : Credentials → σ → Prop} {v w : Held σ} {op : κ}

/-- **One call.** -/
theorem Keeps.step (hP : P.Keeps M S master Fails H) (hv : H v.holder v.session) (hholder : v.holder ∈ S)
    (hop : P.Within S op) (hfine : ¬Fails v.session op) (hstep : P.step v op = some w) :
    H w.holder w.session ∧ w.holder ∈ S := by
  obtain rfl := Option.some.inj hstep
  dsimp only [holder]
  rcases hchange : P.change op with _ | ⟨old, new⟩
  · have hwp := hP.call hchange hv
    rcases hout : (P.run op).outcome v.session with e | ⟨⟩
    · exact ⟨Proc.of_outcome_error hwp hout, hholder⟩
    · exact ⟨Proc.of_outcome_ok hwp hout, hholder⟩
  · obtain ⟨hold, hnew⟩ := hop _ hchange
    have hwp := hP.change hchange hv hholder hold hnew hfine
    rcases hout : (P.run op).outcome v.session with e | ⟨⟩
    · exact ⟨Proc.of_outcome_error hwp hout, hholder⟩
    · exact ⟨(Proc.of_outcome_ok hwp hout).1, hnew⟩

theorem Keeps.safe (hP : P.Keeps M S master Fails H) (hv : H v.holder v.session) (hholder : v.holder ∈ S)
    (hop : P.Within S op) (hfine : ¬Fails v.session op) : P.Safe M S master v op := by
  rw [Safe]
  rcases hchange : P.change op with _ | ⟨old, new⟩
  · exact .of_wp (hP.opens hv) (Proc.wp_mono (hP.call hchange hv) (fun _ ↦ hP.opens) (fun _ _ h ↦ h)
      fun _ _ h ↦ h)
  · obtain ⟨hold, hnew⟩ := hop _ hchange
    exact .of_wp (hP.opens hv) (Proc.wp_imp (hP.change hchange hv hholder hold hnew hfine)
      (fun _ _ h ↦ ⟨hP.opens h.1, h.2⟩) fun _ _ ↦ hP.opens)

/-- **All calls.** -/
theorem Keeps.keepsAccess (hP : P.Keeps M S master Fails H) (hv : H v.holder v.session)
    (hholder : v.holder ∈ S) : P.KeepsAccess M S master Fails v := by
  intro ops w op hops hrun hop hfine
  obtain ⟨hw, hwholder⟩ := Run.invariant (I := fun w ↦ H w.holder w.session ∧ w.holder ∈ S)
    (fun hv hop hstep ↦ hP.step hv.1 hv.2 hop.1 hop.2 hstep) ⟨hv, hholder⟩ hops hrun
  exact hP.safe hw hwholder hop hfine

end Interface

/-! ## Ideal libraries -/

/-- The libraries are ideal on all encodings of these credentials. -/
def KeyCrypto.IdealFor (C : KeyCrypto) (S : Set Credentials) : Prop :=
  C.Ideal {x | ∃ c ∈ S, ∃ format, x = Kdf.secret format c}

theorem KeyCrypto.IdealFor.pair {C : KeyCrypto} {S : Set Credentials} (h : C.IdealFor S)
    {c d : Credentials} (hc : c ∈ S) (hd : d ∈ S) (format : KdfInputFormat) :
    C.Ideal {Kdf.secret format c, Kdf.secret format d} :=
  h.mono (Set.insert_subset ⟨c, hc, format, rfl⟩ (Set.singleton_subset_iff.mpr ⟨d, hd, format, rfl⟩))

end SafeVault
