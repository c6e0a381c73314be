import SafeVault.Index.Limits
import SafeVault.Index.Spans
import SafeVault.Legacy.Commit

/-!
# Commits and crashes

A run of a single-file vault appends chunks, commits indexes, crashes at any moment of either, and is
opened again. The history that goes with it has the *candidates*: the last index whose commit was
completed, and those of the commits that were begun after it and interrupted. Both the header in
memory and the header in the file always have a candidate behind the active slot, with the chunks that
were in the file when its commit began. So whatever is left after a crash, opening the vault finds a
candidate in the active slot.

This is so as long as what is committed can be read back at all. The commit itself does not care.
-/

namespace SafeVault

namespace IndexIo

variable {E : Env} {d found : Disk} {h : Header} {x : Index}

/-! ## Loading what was committed -/

/-- A blob that can be read is loaded. -/
theorem tryLoadSlot_of_holds {i : Bool} (hx : Holds E d h (h.slot i) x) (hstorable : x.Storable) :
    tryLoadSlot E d h i (h.slot i).contextBound = some x.carried := by
  have htag : tagSize ≤ (blob E h (h.slot i) x).length := tagSize_le_length_blob
  have hlen : (h.slot i).length ≠ 0 := by
    rw [hx.length]
    rw [tagSize] at htag
    omega
  have hread : d.read (h.slot i).offset (h.slot i).length = some (blob E h (h.slot i) x) := by
    rw [hx.length]
    refine hx.durable.holds.read (hx.durable.holds.le_size fun hnil ↦ ?_)
    rw [hnil] at htag
    exact absurd htag (by decide)
  simp only [tryLoadSlot, if_neg hlen, hread, Option.bind_eq_bind, Option.bind_some,
    if_neg (not_lt.mpr htag)]
  rw [blob, E.aead.openTo_sealTo, Option.bind_some, serializePlainIndex]
  split_ifs
  · rw [ChunkCodec.decodeFrame_encodeFrame, Option.bind_some,
      deserializeIndex_serializeIndex hstorable]
  · exact deserializeIndex_serializeIndex hstorable

/-- **Opening.** The index behind the active slot is found, and the header stays as it is. -/
theorem openVault_of_holds (hhead : d.head = h.serialize) (hv : h.Valid)
    (hx : Holds E d h h.active x) (hstorable : x.Storable) :
    ∃ legacy, openVault E d = some ⟨x.carried, h, legacy⟩ := by
  have hload := tryLoadSlot_of_holds hx hstorable
  rw [← hv.indexSlotContextBound] at hload
  rw [openVault, hhead, Header.parse_serialize hv]
  simp only [Option.bind_eq_bind, Option.bind_some, unlock, loadSlotWithRecovery, hload,
    Option.map_some]
  exact ⟨_, rfl⟩

/-! ## Runs -/

/-- What a session does to the file: appending the chunk of some medium, or committing an index. -/
inductive Op where
  | append (bytes : Bytes)
  | commit (x : Index)

namespace Op

variable (E)

def run : Op → Proc Session VaultResult Unit
  | append bytes => do
    let _ ← appendRaw E bytes
    pure ()
  | commit x => commitIndex E x

/-- What is committed satisfies a condition. -/
def Commits (P : Index → Prop) : Op → Prop
  | append _ => True
  | commit x => P x

end Op

/-- The commit that was completed last, and those that were begun since. -/
abbrev Candidates := List Attempt

namespace Candidates

/-- An operation begins. -/
def start (g : Candidates) (s : Session) : Op → Candidates
  | .append _ => g
  | .commit x => g ++ [⟨x, s.disk⟩]

/-- An operation has been completed. -/
def complete (g : Candidates) (s : Session) : Op → Candidates
  | .append _ => g
  | .commit x => [⟨x, s.disk⟩]

/-- An operation has returned. -/
def finish (g : Candidates) (s : Session) (op : Op) : Except VaultResult Unit → Candidates
  | .ok _ => g.complete s op
  | .error _ => g.start s op

end Candidates

/-- A file that has just been created, before its first commit. -/
def fresh (h : Header) : Session where
  disk := ⟨List.replicate headerSize 0, fun _ ↦ true, List.replicate headerSize 0⟩
  header := h

/-- The sessions that can come about, with their candidates, when what is committed satisfies `P`. -/
inductive Reach (E : Env) (P : Index → Prop) : Session → Candidates → Prop
  | create {h : Header} {x : Index} (hv : h.Valid) (hx : P x)
      (hok : (commitIndex E x).outcome (fresh h) = .ok ()) :
      Reach E P ((commitIndex E x).final (fresh h)) [⟨x, (fresh h).disk⟩]
  | op {s : Session} {g : Candidates} (op : Op) (hreach : Reach E P s g) (hop : op.Commits P) :
      Reach E P ((op.run E).final s) (g.finish s op ((op.run E).outcome s))
  /-- The program or the machine dies at some moment of an operation, and the vault is opened
  again. -/
  | reopen {s t : Session} {g : Candidates} (op : Op) {found : Disk} {u : Unlocked} (clock : ℕ)
      (hreach : Reach E P s g) (hop : op.Commits P) (ht : t ∈ (op.run E).states s)
      (hfound : t.disk.Survives found) (hroom : found.size ≤ maxFileSize)
      (hopen : openVault E found = some u) :
      Reach E P ⟨found, u.header, clock⟩ (g.start s op)

/-! ## The invariant -/

/-- The active slot of a header has a candidate behind it. -/
structure Points (E : Env) (g : Candidates) (d : Disk) (h : Header) : Prop where
  valid : h.Valid
  stored : ∃ x ∈ g, x.Stored E d h h.active

/-- **The invariant.** It speaks about both headers, that in memory and that in the file. -/
structure Inv (E : Env) (s : Session) (g : Candidates) : Prop where
  room : s.disk.size ≤ maxFileSize
  memory : Points E g s.disk s.header
  onDisk : ∃ h, s.disk.head = h.serialize ∧ s.header.SameVault h ∧ Points E g s.disk h

variable {s t : Session} {g : Candidates} {y : Attempt} {op : Op}

/-- The headers keep their candidate while the file keeps its bytes. -/
theorem Points.kept (hp : Points E g s.disk h) (hkept : Kept (· < s.disk.size) s.disk d) :
    Points E g d h := by
  obtain ⟨hv, z, hz, hstored⟩ := hp
  refine ⟨hv, z, hz, hstored.of_untouched (fun i hi ↦ ?_) fun c hc i hi ↦ ?_⟩
  · exact hkept.untouched _ (hstored.holds.durable.holds.lt_size hi)
  · exact hkept.untouched _ ((hstored.chunks c hc).holds.lt_size hi)

theorem Points.append (hp : Points E g d h) (y : Attempt) : Points E (g ++ [y]) d h := by
  obtain ⟨hv, z, hz, hstored⟩ := hp
  exact ⟨hv, z, List.mem_append_left _ hz, hstored⟩

/-- A header that occurs during a commit has the same candidate, or the new index. -/
theorem Points.follows (hp : Points E g s.disk s.header)
    (hkept : Kept (· < s.disk.size) s.disk t.disk) (hf : Follows E s.header y t.disk h) :
    Points E (g ++ [y]) t.disk h := by
  refine ⟨hf.valid, ?_⟩
  rcases hf.active with hactive | hstored
  · obtain ⟨-, z, hz, hstored⟩ := hp.kept hkept
    refine ⟨z, List.mem_append_left _ hz, ?_⟩
    rw [hactive]
    exact hstored.sameVault hf.sameVault
  · exact ⟨y, List.mem_append_right _ (List.mem_singleton_self y), hstored⟩

/-- The invariant at a moment of a commit. -/
theorem Inv.moment (hs : Inv E s g) (hm : Moment E (· < s.disk.size) s y t) :
    Inv E t (g ++ [y]) := by
  refine ⟨hm.kept.room, hs.memory.follows hm.kept hm.memory, ?_⟩
  rcases hm.onDisk with hhead | ⟨h, hhead, hf⟩
  · obtain ⟨h, hserialize, hsame, hp⟩ := hs.onDisk
    exact ⟨h, hhead.trans hserialize, hm.memory.sameVault.symm.trans hsame,
      (hp.kept hm.kept).append y⟩
  · exact ⟨h, hhead, hm.memory.sameVault.symm.trans hf.sameVault, hs.memory.follows hm.kept hf⟩

/-- The invariant after a commit; the candidates from before are no longer needed. -/
theorem Inv.completed {R : ℕ → Prop} (hm : Moment E R s y t) (hc : Completed E y t) :
    Inv E t [y] := by
  have hp : Points E [y] t.disk t.header :=
    ⟨hm.memory.valid, y, List.mem_singleton_self y, hc.stored⟩
  exact ⟨hm.kept.room, hp, t.header, hc.onDisk, .refl _, hp⟩

/-- **One operation**, at every moment of it. -/
theorem Inv.run (hs : Inv E s g) (op : Op) :
    Proc.wp (fun t ↦ Inv E t (g.start s op)) (op.run E) (fun _ t ↦ Inv E t (g.complete s op))
      (fun _ t ↦ Inv E t (g.start s op)) s := by
  cases op with
  | append bytes =>
    have happend (bytes : Bytes) (hfit : s.disk.size + bytes.length ≤ maxFileSize) (t : Session)
        (hh : t.header = s.header) (hd : t.disk = s.disk.append bytes) : Inv E t g := by
      have hkept : Kept (· < s.disk.size) s.disk t.disk := by
        refine ⟨fun p hp ↦ ?_, ?_, ?_⟩ <;> rw [hd]
        · exact Disk.untouched_append hp
        · rw [Disk.size_append]
          exact Nat.le_add_right _ _
        · rwa [Disk.size_append]
      obtain ⟨h, hhead, hsame, hp⟩ := hs.onDisk
      refine ⟨hkept.room, ?_, h, ?_, ?_, hp.kept hkept⟩
      · rw [hh]
        exact hs.memory.kept hkept
      · rw [hd]
        exact hhead
      · rwa [hh]
    rw [Op.run, Proc.wp_bind]
    apply wp_appendRaw
    · intro t hfit hh hd
      have ht := happend bytes hfit t hh hd
      exact ⟨ht, Proc.wp_pure.mpr ht⟩
    · intro t k hfit hh hd
      have ht := happend (bytes.take k) (by rw [List.length_take]; omega) t hh hd
      exact ⟨ht, ht⟩
    · exact hs
  | commit x =>
    refine Proc.wp_mono (wp_commitIndex (x := ⟨x, s.disk⟩) hs.memory.valid hs.room fun c hc ↦ ?_)
      (fun t ht ↦ hs.moment ht) (fun _ t ht ↦ Inv.completed ht.1 ht.2) fun _ t ht ↦ hs.moment ht
    exact Attempt.holds_chunks hc

/-- An operation that has only begun. -/
theorem Inv.start (hs : Inv E s g) (op : Op) : Inv E s (g.start s op) := by
  cases op with
  | append bytes => exact hs
  | commit x =>
    obtain ⟨h, hhead, hsame, hp⟩ := hs.onDisk
    exact ⟨hs.room, hs.memory.append _, h, hhead, hsame, hp.append _⟩

/-- The invariant at every moment of an operation. -/
theorem Inv.moments (hs : Inv E s g) (op : Op) : ∀ t ∈ (op.run E).states s, Inv E t (g.start s op) :=
  Proc.forall_mem_states (hs.start op) (hs.run op)

/-- A file that was left by a crash is opened, and its index is that of a candidate. -/
theorem Inv.openVault (ht : Inv E t g) (hg : ∀ y ∈ g, y.index.Storable)
    (hfound : t.disk.Survives found) :
    ∃ y ∈ g, ∃ u, openVault E found = some u ∧ u.index = y.index.carried ∧
      t.header.SameVault u.header ∧ found.head = u.header.serialize ∧ Points E g found u.header ∧
      ∀ c ∈ y.chunks, found.Durable c.1 c.2 := by
  obtain ⟨h, hhead, hsame, hv, y, hy, hstored⟩ := ht.onDisk
  have hholds : Holds E found h h.active y.index :=
    ⟨hstored.holds.durable.survives hfound, hstored.holds.length⟩
  have hchunks : ∀ c ∈ y.chunks, found.Durable c.1 c.2 :=
    fun c hc ↦ (hstored.chunks c hc).survives hfound
  have hhead' := hfound.head.trans hhead
  obtain ⟨legacy, hopen⟩ := openVault_of_holds hhead' hv hholds (hg y hy)
  exact ⟨y, hy, _, hopen, rfl, hsame, hhead', ⟨hv, y, hy, hholds, hchunks⟩, hchunks⟩

theorem storable_start (hg : ∀ y ∈ g, y.index.Storable) (hop : op.Commits Index.Storable) :
    ∀ y ∈ g.start s op, y.index.Storable := by
  cases op with
  | append bytes => exact hg
  | commit x =>
    intro y hy
    rcases List.mem_append.mp hy with hy | hy
    · exact hg y hy
    · rw [List.mem_singleton.mp hy]
      exact hop

theorem storable_complete (hg : ∀ y ∈ g, y.index.Storable) (hop : op.Commits Index.Storable) :
    ∀ y ∈ g.complete s op, y.index.Storable := by
  cases op with
  | append bytes => exact hg
  | commit x => exact List.forall_mem_singleton.mpr hop

/-- Every reachable session satisfies the invariant, if what is committed can be read back. -/
theorem Reach.inv (hreach : Reach E Index.Storable s g) :
    Inv E s g ∧ ∀ y ∈ g, y.index.Storable := by
  induction hreach with
  | @create h x hv hx hok =>
    have hroom : (fresh h).disk.size ≤ maxFileSize := by
      change (List.replicate headerSize (0 : UInt8)).length ≤ _
      rw [List.length_replicate]
      decide
    obtain ⟨hm, hc⟩ := Proc.of_outcome_ok
      (wp_commitIndex (x := ⟨x, (fresh h).disk⟩) hv hroom fun c hc ↦ Attempt.holds_chunks hc) hok
    exact ⟨Inv.completed hm hc, List.forall_mem_singleton.mpr hx⟩
  | @op s g op _ hop ih =>
    obtain ⟨hs, hg⟩ := ih
    have hrun := hs.run op
    cases hout : (op.run E).outcome s with
    | ok a => exact ⟨Proc.of_outcome_ok hrun hout, storable_complete hg hop⟩
    | error e => exact ⟨Proc.of_outcome_error hrun hout, storable_start hg hop⟩
  | @reopen s t g op found u clock _ hop ht hfound hroom hopen ih =>
    obtain ⟨hs, hg⟩ := ih
    have hstart := storable_start (s := s) hg hop
    obtain ⟨y, -, u', hopen', -, hsame, hhead, hp, -⟩ :=
      (hs.moments op t ht).openVault hstart hfound
    rw [hopen] at hopen'
    cases hopen'
    exact ⟨⟨hroom, hp, u.header, hhead, .refl _, hp⟩, hstart⟩

/-- **Commits are safe against crashes.** Whatever operation is under way, and at whatever moment of
it the program or the machine dies, the next unlock loads the index of a candidate: of the commit that
was completed last, or of one that was begun later. All bytes it refers to are as they were when that
commit began. -/
theorem Reach.finds_candidate (hreach : Reach E Index.Storable s g) (hop : op.Commits Index.Storable)
    (ht : t ∈ (op.run E).states s) (hfound : t.disk.Survives found) :
    ∃ y ∈ g.start s op, ∃ u, openVault E found = some u ∧ u.index = y.index.carried ∧
      ∀ r ∈ IndexNode.spans u.index.root, ∀ bytes,
        y.began.read r.offset.toNat r.length.toNat = some bytes →
          found.read r.offset.toNat r.length.toNat = some bytes := by
  obtain ⟨hs, hg⟩ := hreach.inv
  obtain ⟨y, hy, u, hopen, hindex, -, -, -, hchunks⟩ :=
    (hs.moments op t ht).openVault (storable_start hg hop) hfound
  refine ⟨y, hy, u, hopen, hindex, fun r hr bytes hread ↦ ?_⟩
  have hr' : r ∈ IndexNode.spans y.index.root := by
    rw [hindex] at hr
    rwa [Index.carried, IndexNode.carried, IndexNode.spans_mapLabel] at hr
  have hlen := (Disk.holds_of_read hread).1
  have hholds : found.Holds r.offset.toNat bytes :=
    (hchunks (r.offset.toNat, bytes) (Attempt.mem_chunks.mpr ⟨r, hr', rfl, hread⟩)).holds
  rw [← hlen]
  refine hholds.read (hholds.le_size fun hnil ↦ ?_)
  rw [hnil, List.length_nil] at hlen
  exact IndexNode.length_ne_zero hr' (UInt64.toNat_inj.mp hlen.symm)

/-! ## Indexes that cannot be read back -/

section Unreadable

/-- Whatever is loaded is within the limits of the format. -/
theorem storable_of_tryLoadSlot {i contextBound : Bool}
    (hload : tryLoadSlot E d h i contextBound = some x) : x.Storable := by
  simp only [tryLoadSlot] at hload
  split_ifs at hload with hlen hframed
  all_goals
    obtain ⟨onDisk, -, hload⟩ := Option.bind_eq_some_iff.mp hload
    split_ifs at hload
    obtain ⟨bytes, -, hload⟩ := Option.bind_eq_some_iff.mp hload
    obtain ⟨plain, -, hload⟩ := Option.bind_eq_some_iff.mp hload
    exact (read_of_deserializeIndex hload).storable

theorem storable_of_loadSlotWithRecovery {i : Bool} {l : LoadedSlot × Header}
    (hload : loadSlotWithRecovery E d h i = some l) : l.1.index.Storable := by
  rw [loadSlotWithRecovery] at hload
  dsimp only at hload
  split at hload
  next index hfirst =>
    cases hload
    exact storable_of_tryLoadSlot hfirst
  next =>
    split at hload
    next index hsecond =>
      cases hload
      exact storable_of_tryLoadSlot hsecond
    next => cases hload

theorem storable_of_openVault {u : Unlocked} (hopen : openVault E d = some u) :
    u.index.Storable := by
  obtain ⟨h, -, hunlock⟩ := Option.bind_eq_some_iff.mp hopen
  obtain ⟨l, hload, rfl⟩ := Option.map_eq_some_iff.mp hunlock
  split at hload
  next l' hfirst =>
    cases hload
    exact storable_of_loadSlotWithRecovery hfirst
  next => exact storable_of_loadSlotWithRecovery hload

/-! ### Runs with known faults -/

section Attempt

variable {α : Type} {error : VaultResult} {done : Session → α × Session} {partly : ℕ → Session → Session}

theorem wp_attempt_of_fault_none {I : Session → Prop} {Q : α → Session → Prop}
    {Er : VaultResult → Session → Prop} (hfault : E.fault s.clock = .none)
    (hdone : I (done s.tick).2 ∧ Q (done s.tick).1 (done s.tick).2) :
    Proc.wp I (attempt E error done partly) Q Er s :=
  wp_attempt_of_fault (fun _ ↦ hdone) fun hfails ↦ absurd hfault hfails

theorem attempt_of_fault_none (hfault : E.fault s.clock = .none) :
    attempt E error done partly s = ([(done s.tick).2], .ok (done s.tick).1, (done s.tick).2) := by
  rw [attempt, Proc.step, hfault]

/-- What is passed through after a step that does not fail. -/
theorem mem_passed_attempt {β : Type} {f : α → Proc Session VaultResult β} (hfault : E.fault s.clock = .none)
    (ht : t ∈ (f (done s.tick).1 (done s.tick).2).1) :
    t ∈ ((attempt E error done partly >>= f) s).1 := by
  have hstep : attempt E error done partly s =
      ([(done s.tick).2], .ok (done s.tick).1, (done s.tick).2) := attempt_of_fault_none hfault
  refine Proc.mem_passed_bind (congrArg (fun r ↦ r.2.1) hstep) ?_
  rwa [Proc.final, hstep]

end Attempt

/-- **A commit of which no step but the last one fails.** It fits into the file. -/
theorem commitIndex_of_fault_none (hfault : ∀ k < 6, E.fault (s.clock + k) = .none) (x : Index)
    (hfit : s.disk.size + ((serializePlainIndex E s.header x).length + 16) ≤ maxFileSize) :
    (commitIndex E x).outcome s = (if E.fault (s.clock + 6) = .none then .ok () else .error .ioError) ∧
      ((commitIndex E x).final s).disk.size = s.disk.size + ((serializePlainIndex E s.header x).length + 16) ∧
      ((commitIndex E x).final s).clock = s.clock + 7 := by
  set size := s.disk.size + ((serializePlainIndex E s.header x).length + 16) with hsize
  have hwp : Proc.wp (fun _ ↦ True) (commitIndex E x)
      (fun _ t ↦ E.fault (s.clock + 6) = .none ∧ t.disk.size = size ∧ t.clock = s.clock + 7)
      (fun e t ↦ E.fault (s.clock + 6) ≠ .none ∧ e = .ioError ∧ t.disk.size = size ∧ t.clock = s.clock + 7)
      s := by
    have hlen (nonce : Block 24) (ad : Bytes) :
        (E.aead.sealTo nonce ad (serializePlainIndex E s.header x)).length =
          (serializePlainIndex E s.header x).length + 16 := E.aead.length_sealTo _ _ _
    have happend (nonce : Block 24) (ad : Bytes) :
        (s.disk.append (E.aead.sealTo nonce ad (serializePlainIndex E s.header x))).size = size := by
      rw [Disk.size_append, hlen]
    rw [commitIndex, Proc.wp_bind]
    refine wp_attempt_of_fault_none (hfault 0 (by decide)) ⟨trivial, ?_⟩
    rw [commitPlainBlob, Proc.wp_bind]
    refine wp_attempt_of_fault_none (hfault 1 (by decide)) ⟨trivial, ?_⟩
    rw [Proc.wp_bind, Proc.wp_look, Proc.wp_bind]
    refine wp_attempt_of_fault_none (hfault 2 (by decide)) ⟨trivial, ?_⟩
    rw [Proc.wp_bind, appendRaw, Proc.wp_bind, Proc.wp_look]
    split_ifs with hfull
    · refine wp_attempt_of_fault_none (hfault 3 (by decide)) ⟨trivial, ?_⟩
      rw [Proc.wp_bind]
      refine wp_attempt_of_fault_none (hfault 4 (by decide)) ⟨trivial, ?_⟩
      rw [swapSlots, Proc.wp_bind, Proc.wp_look, Proc.wp_bind, wp_update, Proc.wp_bind]
      refine ⟨trivial, wp_attempt_of_fault_none (hfault 5 (by decide)) ⟨trivial, ?_⟩⟩
      rw [Proc.wp_bind, wp_update]
      refine ⟨trivial, wp_attempt_of_fault (fun hlast ↦ ⟨trivial, hlast, happend _ _, rfl⟩) fun hlast k ↦ ?_⟩
      refine ⟨trivial, hlast, rfl, ?_⟩
      split_ifs
      · exact ⟨happend _ _, rfl⟩
      · exact ⟨happend _ _, rfl⟩
    · exact absurd (le_of_eq_of_le (congrArg (s.disk.size + ·) (hlen _ _)) hfit) hfull
  cases hout : (commitIndex E x).outcome s with
  | ok a =>
    obtain ⟨hlast, hend⟩ := Proc.of_outcome_ok hwp hout
    rw [if_pos hlast]
    exact ⟨rfl, hend⟩
  | error e =>
    obtain ⟨hlast, rfl, hend⟩ := Proc.of_outcome_error hwp hout
    rw [if_neg hlast]
    exact ⟨rfl, hend⟩

/-- Without faults, a commit that fits into the file succeeds. -/
theorem commitIndex_ok (hfault : ∀ k ≤ 6, E.fault (s.clock + k) = .none) (x : Index)
    (hfit : s.disk.size + ((serializePlainIndex E s.header x).length + 16) ≤ maxFileSize) :
    (commitIndex E x).outcome s = .ok () ∧ ((commitIndex E x).final s).disk.size =
      s.disk.size + ((serializePlainIndex E s.header x).length + 16) := by
  obtain ⟨hout, hsize, -⟩ := commitIndex_of_fault_none (fun k hk ↦ hfault k hk.le) x hfit
  rw [if_pos (hfault 6 le_rfl)] at hout
  exact ⟨hout, hsize⟩

theorem appendRaw_of_fault_none {bytes : Bytes} (hfault : E.fault s.clock = .none)
    (hfit : s.disk.size + bytes.length ≤ maxFileSize) :
    appendRaw E bytes s = ([⟨s.disk.append bytes, s.header, s.clock + 1⟩], .ok s.disk.size,
      ⟨s.disk.append bytes, s.header, s.clock + 1⟩) := by
  change (if _ then _ else _ : Proc Session VaultResult ℕ) s = _
  rw [if_pos hfit, attempt_of_fault_none hfault]
  rfl

theorem final_append {bytes : Bytes} (hfault : E.fault s.clock = .none)
    (hfit : s.disk.size + bytes.length ≤ maxFileSize) :
    ((Op.append bytes).run E).final s = ⟨s.disk.append bytes, s.header, s.clock + 1⟩ := by
  change (Proc.seq (appendRaw E bytes) _ s).2.2 = _
  rw [Proc.seq, appendRaw_of_fault_none hfault hfit]
  rfl

/-- On its way a commit has the blob at the end of the file. -/
theorem exists_append_mem_states (hfault : ∀ k < 4, E.fault (s.clock + k) = .none) (x : Index)
    (hfit : s.disk.size + ((serializePlainIndex E s.header x).length + 16) ≤ maxFileSize) :
    ∃ t ∈ (commitIndex E x).states s, ∃ bytes, t.disk = s.disk.append bytes ∧
      bytes.length = (serializePlainIndex E s.header x).length + 16 := by
  set nonce := E.nonce (s.clock + 2)
  set bytes := E.aead.sealTo nonce (indexBlobAd s.header s.header.contextBoundChunks)
    (serializePlainIndex E s.header x)
  have hlen : bytes.length = (serializePlainIndex E s.header x).length + 16 := E.aead.length_sealTo _ _ _
  refine ⟨⟨s.disk.append bytes, s.header, s.clock + 4⟩, List.mem_cons_of_mem _ ?_, bytes, rfl, hlen⟩
  rw [commitIndex]
  apply mem_passed_attempt (hfault 0 (by decide))
  rw [commitPlainBlob]
  apply mem_passed_attempt (hfault 1 (by decide))
  apply Proc.mem_passed_bind rfl
  apply mem_passed_attempt (hfault 2 (by decide))
  apply Proc.mem_passed_bind_left
  have happend := appendRaw_of_fault_none (s := ⟨s.disk, s.header, s.clock + 3⟩) (hfault 3 (by decide))
    (le_of_eq_of_le (congrArg (s.disk.size + ·) hlen) hfit)
  change _ ∈ (appendRaw E bytes ⟨s.disk, s.header, s.clock + 3⟩).1
  rw [happend]
  exact List.mem_singleton_self _

end Unreadable

/-! ### A deep gallery -/

/-- An environment in which nothing fails, with libraries that do as little as they may. -/
def calmEnv : Env where
  aead := {
    sealTo := fun _ _ plain ↦ plain ++ List.replicate 16 0
    openTo := fun _ _ bytes ↦ some (bytes.take (bytes.length - 16))
    openTo_sealTo := fun _ _ plain ↦ by
      rw [List.length_append, List.length_replicate, Nat.add_sub_cancel, List.take_left]
    length_sealTo := fun _ _ plain ↦ by rw [List.length_append, List.length_replicate] }
  deflate := {
    compress := fun _ _ ↦ none
    inflate := fun _ _ ↦ none
    inflate_compress := nofun
    length_le_room := nofun
    expansion := nofun }
  nonce := fun _ ↦ .zero 24
  fault := fun _ ↦ .none

/-- The header of a new vault: framed, bound to the vault, with modes. -/
def newHeader : Header where
  flags := 15

theorem valid_newHeader : newHeader.Valid where
  version := rfl
  size := rfl
  flags := by decide
  sane := by decide
  slots := fun i ↦ by cases i <;> decide
  modes := fun hm ↦ absurd hm (by decide)

/-- What a new vault commits first. -/
def emptyIndex : Index := ⟨LeafTree.gallery [], [], .seeded⟩

theorem storable_emptyIndex : emptyIndex.Storable where
  root := ⟨by decide, LeafTree.all_branch.mpr
    ⟨⟨⟨by decide, by decide, nofun⟩, by decide⟩, fun c hc ↦ absurd hc List.not_mem_nil⟩⟩
  searches := ⟨by decide, nofun⟩
  settings := VaultSettings.storable_seeded

@[simp] theorem size_fresh (h : Header) : (fresh h).disk.size = headerSize :=
  List.length_replicate

@[simp] theorem header_fresh (h : Header) : (fresh h).header = h := rfl

/-- A new vault. -/
def newVault : Session := (commitIndex calmEnv emptyIndex).final (fresh newHeader)

/-- Nothing is compressed, so a frame is longer by one byte. -/
theorem length_serializePlainIndex_le (h : Header) (x : Index) :
    (serializePlainIndex calmEnv h x).length ≤
      (serializeIndex x.root x.searches x.settings).length + 1 := by
  have hraw (payload : Bytes) : ChunkCodec.tryDeflate calmEnv.deflate payload = none := by
    rw [ChunkCodec.tryDeflate]
    split_ifs <;> rfl
  rw [serializePlainIndex]
  split_ifs
  · rw [ChunkCodec.encodeFrame, hraw, List.length_cons]
  · exact Nat.le_succ _

theorem commit_newVault : (commitIndex calmEnv emptyIndex).outcome (fresh newHeader) = .ok () ∧
    newVault.disk.size ≤ 2 ^ 20 := by
  have hplain : (serializeIndex emptyIndex.root emptyIndex.searches emptyIndex.settings).length ≤
      2 ^ 18 := by decide +kernel
  have hlen := (length_serializePlainIndex_le newHeader emptyIndex).trans (Nat.add_le_add_right hplain 1)
  have hrun := commitIndex_ok (E := calmEnv) (s := fresh newHeader) (fun _ _ ↦ rfl) emptyIndex
  rw [size_fresh, header_fresh] at hrun
  rw [newVault]
  generalize (serializePlainIndex calmEnv newHeader emptyIndex).length = n at hlen hrun
  rw [headerSize, maxFileSize] at hrun
  obtain ⟨hok, hsize⟩ := hrun (by omega)
  exact ⟨hok, by omega⟩

/-! ### A refused commit and a loss of power -/

/-- What is in the file stays there during a commit. -/
theorem Reach.holds_commit (hreach : Reach E Index.Storable s g) {offset : ℕ} {bytes : Bytes}
    (h : s.disk.Holds offset bytes) : ((commitIndex E x).final s).disk.Holds offset bytes := by
  obtain ⟨hs, -⟩ := hreach.inv
  have hkept (t : Session) (hm : Moment E (· < s.disk.size) s ⟨x, s.disk⟩ t) : t.disk.Holds offset bytes :=
    h.of_untouched fun i hi ↦ hm.kept.untouched _ (h.lt_size hi)
  have hwp := wp_commitIndex (E := E) (x := ⟨x, s.disk⟩) hs.memory.valid hs.room fun c hc ↦
    Attempt.holds_chunks hc
  cases hout : (commitIndex E x).outcome s with
  | ok a => exact hkept _ (Proc.of_outcome_ok hwp hout).1
  | error e => exact hkept _ (Proc.of_outcome_error hwp hout)

namespace Interrupted

/-- The last write of the header in the third commit is reported as failed, although it reaches the
file. -/
def env : Env := { calmEnv with fault := fun n ↦ if n = 21 then .after 1 else .none }

def chunk : Bytes := [1, 2, 3]

/-- An image whose bytes are the chunk behind the first blob. -/
def oneImage (name : Bytes) : Index :=
  ⟨.branch { name := [] } [.leaf { name } (.image { dataOffset := 4238, dataLength := 3 })], [], .seeded⟩

/-- The index of a new vault is committed, the chunk is appended, an image is committed, and the commit
that renames it is refused. -/
def created : Session := (commitIndex env emptyIndex).final (fresh newHeader)

def filled : Session := ((Op.append chunk).run env).final created

def stored : Session := (commitIndex env (oneImage (ascii "a"))).final filled

def refused : Session := (commitIndex env (oneImage (ascii "b"))).final stored

theorem storable_oneImage {name : Bytes} (h : name.length ≤ 0xFFFF) : (oneImage name).Storable where
  root := by
    have hleaf : IndexNode.Fits (.leaf { name } (.image { dataOffset := 4238, dataLength := 3 })) :=
      LeafTree.all_leaf.mpr ⟨⟨h, Nat.zero_le _, nofun⟩, trivial⟩
    refine ⟨show 1 ≤ 128 by decide, LeafTree.all_branch.mpr ⟨⟨?_, show 1 < 2 ^ 32 by decide⟩, ?_⟩⟩
    · exact ⟨by decide, by decide, nofun⟩
    · exact List.forall_mem_singleton.mpr hleaf
  searches := ⟨Nat.zero_le _, nofun⟩
  settings := VaultSettings.storable_seeded

theorem length_oneImage_le (h : Header) (name : Bytes)
    (hname : name ∈ [ascii "a", ascii "b", ascii "c"]) :
    (serializePlainIndex env h (oneImage name)).length ≤ 2 ^ 10 := by
  have hplain : ∀ name ∈ [ascii "a", ascii "b", ascii "c"], (serializeIndex (oneImage name).root
      (oneImage name).searches (oneImage name).settings).length < 2 ^ 10 := by decide +kernel
  exact (length_serializePlainIndex_le h (oneImage name)).trans (hplain name hname)

theorem fault_env {n : ℕ} (h : n ≠ 21) : env.fault n = .none := if_neg h

/-- The sizes and clocks of the run, and what its commits return. -/
theorem run_created : (commitIndex env emptyIndex).outcome (fresh newHeader) = .ok () ∧
    created.disk.size = 4238 ∧ created.clock = 7 := by
  have hlen : (serializePlainIndex env newHeader emptyIndex).length = 126 := by decide +kernel
  obtain ⟨hok, hsize, hclock⟩ := commitIndex_of_fault_none (E := env) (s := fresh newHeader)
    (fun k hk ↦ fault_env (by change 0 + k ≠ 21; omega)) emptyIndex
    (by rw [header_fresh, hlen, size_fresh]; decide)
  rw [header_fresh, hlen, size_fresh] at hsize
  exact ⟨hok, hsize, hclock⟩

theorem filled_eq : filled = ⟨created.disk.append chunk, created.header, 8⟩ := by
  obtain ⟨-, hsize, hclock⟩ := run_created
  rw [filled, final_append (fault_env (by rw [hclock]; decide)) (by rw [hsize]; decide), hclock]

/-- The commits of the two images. -/
theorem run_commits : (commitIndex env (oneImage (ascii "a"))).outcome filled = .ok () ∧
    (commitIndex env (oneImage (ascii "b"))).outcome stored = .error .ioError ∧
    refused.disk.size ≤ 2 ^ 20 ∧ refused.clock = 22 := by
  obtain ⟨-, hsize, -⟩ := run_created
  have hfilled : filled.disk.size = 4241 ∧ filled.clock = 8 := by
    rw [filled_eq]
    exact ⟨by rw [Disk.size_append, hsize]; rfl, rfl⟩
  obtain ⟨hfilled, hclock⟩ := hfilled
  have hlenA := length_oneImage_le filled.header (ascii "a") (by decide)
  obtain ⟨hokA, hsizeA, hclockA⟩ := commitIndex_of_fault_none (E := env) (s := filled)
    (fun k hk ↦ fault_env (by omega)) (oneImage (ascii "a")) (by rw [maxFileSize]; omega)
  rw [if_pos (fault_env (by omega))] at hokA
  rw [← stored] at hsizeA hclockA
  have hlenB := length_oneImage_le stored.header (ascii "b") (by decide)
  obtain ⟨hokB, hsizeB, hclockB⟩ := commitIndex_of_fault_none (E := env) (s := stored)
    (fun k hk ↦ fault_env (by omega)) (oneImage (ascii "b")) (by rw [maxFileSize]; omega)
  have hlast : env.fault (stored.clock + 6) ≠ .none := by
    rw [hclockA, hclock]
    decide
  rw [if_neg hlast] at hokB
  rw [← refused] at hsizeB hclockB
  exact ⟨hokA, hokB, by omega, by omega⟩

theorem exists_name_of_mem {a b c : Disk} {y : Attempt} (ha : a.Holds 4238 chunk) (hb : b.Holds 4238 chunk)
    (hc : c.Holds 4238 chunk)
    (hy : y ∈ [⟨oneImage (ascii "a"), a⟩, ⟨oneImage (ascii "b"), b⟩] ++ [⟨oneImage (ascii "c"), c⟩]) :
    ∃ name ∈ [ascii "a", ascii "b", ascii "c"], y.index = oneImage name ∧
      y.began.read 4238 3 = some chunk := by
  have hread {d : Disk} (h : d.Holds 4238 chunk) : d.read 4238 3 = some chunk :=
    h.read (h.le_size (by decide))
  rcases List.mem_cons.mp hy with rfl | hy
  · exact ⟨ascii "a", by decide, rfl, hread ha⟩
  rcases List.mem_cons.mp hy with rfl | hy
  · exact ⟨ascii "b", by decide, rfl, hread hb⟩
  · obtain rfl := List.mem_singleton.mp hy
    exact ⟨ascii "c", by decide, rfl, hread hc⟩

end Interrupted

open Interrupted in
/-- **After a refused commit the power is lost during the next one.** The blob of the third image is in the
file and does not reach the medium. One of the three images is loaded, with its bytes. -/
theorem finds_candidate_refused :
    (commitIndex env (oneImage (ascii "b"))).outcome stored = .error .ioError ∧
    ∃ t ∈ (commitIndex env (oneImage (ascii "c"))).states refused, refused.disk.size < t.disk.size ∧
      ∃ name ∈ [ascii "a", ascii "b", ascii "c"], ∃ u, openVault env refused.disk = some u ∧
        u.index = (oneImage name).carried ∧ refused.disk.read 4238 3 = some chunk := by
  obtain ⟨hok, hsize, -⟩ := run_created
  obtain ⟨hokA, hokB, hroom, hclock⟩ := run_commits
  -- The run, and the chunk in its states.
  have hcreate : Reach env Index.Storable created [⟨emptyIndex, (fresh newHeader).disk⟩] :=
    .create valid_newHeader storable_emptyIndex hok
  have hfill : Reach env Index.Storable filled [⟨emptyIndex, (fresh newHeader).disk⟩] := by
    have h := hcreate.op (.append chunk) trivial
    rw [← filled] at h
    cases hout : ((Op.append chunk).run env).outcome created <;> rwa [hout] at h
  have hstore : Reach env Index.Storable stored [⟨oneImage (ascii "a"), filled.disk⟩] := by
    have h := hfill.op (.commit (oneImage (ascii "a"))) (storable_oneImage (by decide))
    rwa [Op.run, hokA] at h
  have hrefuse : Reach env Index.Storable refused
      [⟨oneImage (ascii "a"), filled.disk⟩, ⟨oneImage (ascii "b"), stored.disk⟩] := by
    have h := hstore.op (.commit (oneImage (ascii "b"))) (storable_oneImage (by decide))
    rwa [Op.run, hokB] at h
  have hfilled : filled.disk.Holds 4238 chunk := by
    rw [filled_eq, ← hsize]
    exact Disk.holds_append
  have hstored : stored.disk.Holds 4238 chunk := hfill.holds_commit hfilled
  have hrefused : refused.disk.Holds 4238 chunk := hstore.holds_commit hstored
  -- The moment at which the power is lost.
  obtain ⟨t, ht, bytes, hdisk, hbytes⟩ := exists_append_mem_states (E := env) (s := refused)
    (fun k hk ↦ fault_env (by omega)) (oneImage (ascii "c")) (by
      have hlen := length_oneImage_le refused.header (ascii "c") (by decide)
      rw [maxFileSize]
      omega)
  have hlost : t.disk.Survives refused.disk := by
    rw [hdisk]
    exact Disk.survives_append
  have hop : Op.Commits Index.Storable (.commit (oneImage (ascii "c"))) := storable_oneImage (by decide)
  obtain ⟨y, hy, u, hopen, hindex, hspans⟩ := Reach.finds_candidate hrefuse hop ht hlost
  refine ⟨hokB, t, ht, by rw [hdisk, Disk.size_append]; omega, ?_⟩
  obtain ⟨name, hname, hy, hbegan⟩ := exists_name_of_mem hfilled hstored hrefused hy
  rw [hy] at hindex
  refine ⟨name, hname, u, hopen, hindex, hspans ⟨4238, 3⟩ ?_ chunk hbegan⟩
  rw [hindex]
  exact List.mem_singleton_self _

section NewGalleries

open ByteWriter

/-- The bytes of the header of a new gallery. -/
theorem length_writeHeader_new {name : Bytes} {nodeId : NodeId} (hname : name.length ≤ 0xFFFF) :
    (SafeVault.writeHeader { name, nodeId }).length = name.length + 22 := by
  have hid := nodeId.size
  rw [nodeIdSize] at hid
  simp only [SafeVault.writeHeader, str, ByteWriter.list, u16, flag, u8, ByteWriter.id, List.length_append,
    List.take_of_length_le hname, LittleEndian.length_encode, List.take_nil, List.flatMap_nil,
    List.length_nil, List.length_singleton, hid]
  omega

/-- The bytes of galleries that were created along a path of short segments. -/
theorem length_writeNode_createSegments {ids : ℕ → NodeId} {h : NodeHeader} {segs : List Bytes}
    {t : IndexNode} {created : Bool} (hsegs : ∀ s ∈ segs, s.length = 1)
    (hrun : createSegments ids segs (.branch h []) = .ok (t, created)) :
    (writeNode t).length = (SafeVault.writeHeader h).length + 5 + 28 * segs.length := by
  induction segs generalizing h t created with
  | nil =>
    cases hrun
    rw [writeNode_branch]
    simp only [u8, u32, List.length_append, List.length_singleton, LittleEndian.length_encode,
      List.flatMap_nil, List.length_nil]
    omega
  | cons seg segs ih =>
    obtain ⟨hseg, hsegs⟩ := List.forall_mem_cons.mp hsegs
    obtain ⟨child, hchild, -⟩ := exists_createSegments_empty (μ := Media) ids
      { name := seg, nodeId := ids segs.length } segs
    rw [createSegments] at hrun
    change (createSegments ids segs _ >>= _) = _ at hrun
    rw [hchild] at hrun
    cases hrun
    have hlen := ih hsegs hchild
    rw [length_writeHeader_new (by rw [hseg]; decide), hseg] at hlen
    change (writeNode (.branch h [child])).length = _
    rw [writeNode_branch, List.flatMap_singleton, List.length_append, hlen]
    simp only [u8, u32, List.length_append, LittleEndian.length_encode, List.length_cons,
      List.length_nil]
    omega

end NewGalleries

/-- **A committed index can be lost.** The commit of a gallery path with 129 segments succeeds, and
the next unlock does not load it, although nothing failed. -/
theorem deep_gallery_not_found : ∃ (root : IndexNode) (s : Session),
    createGallery (fun _ ↦ .zero) (LeafTree.gallery [])
      (joinPath (List.replicate 129 (ascii "a"))) = .ok root ∧
    Reach calmEnv (fun _ ↦ True) s [⟨⟨root, [], .seeded⟩, newVault.disk⟩] ∧
    ¬∃ u, openVault calmEnv s.disk = some u ∧ u.index = Index.carried ⟨root, [], .seeded⟩ := by
  have hsafe : ∀ s ∈ List.replicate 129 (ascii "a"), isSafeNodeName s = true := by
    intro s hs
    rw [List.eq_of_mem_replicate hs]
    decide
  obtain ⟨root, hcreate, hheight, hsegments⟩ := exists_createGallery_empty (fun _ ↦ .zero)
    { name := [] } (by decide) hsafe (μ := Media)
  set x : Index := ⟨root, [], .seeded⟩
  have hlen : (serializeIndex x.root x.searches x.settings).length ≤ 2 ^ 18 := by
    have hroot := length_writeNode_createSegments (fun s hs ↦ ?_) hsegments
    · rw [length_writeHeader_new (by decide), List.length_replicate] at hroot
      have hrest : (writeSavedSearches []).length + (writeSettings .seeded).length ≤ 2 ^ 17 := by
        decide
      simp only [serializeIndex, List.length_append, ByteWriter.u8, List.length_singleton]
      change _ + (writeNode root).length + _ + (writeSettings .seeded).length ≤ _
      rw [hroot, List.length_nil]
      change _ + _ + (writeSavedSearches []).length + _ ≤ _
      omega
    · rw [List.eq_of_mem_replicate hs]
      rfl
  obtain ⟨hok, hsize⟩ := commit_newVault
  have hnew : Reach calmEnv (fun _ ↦ True) newVault [⟨emptyIndex, (fresh newHeader).disk⟩] :=
    .create valid_newHeader trivial hok
  have hplain := (length_serializePlainIndex_le newVault.header x).trans
    (Nat.add_le_add_right hlen 1)
  have hcommit : (commitIndex calmEnv x).outcome newVault = .ok () := by
    have hrun := commitIndex_ok (E := calmEnv) (s := newVault) (fun _ _ ↦ rfl) x
    generalize (serializePlainIndex calmEnv newVault.header x).length = n at hplain hrun
    generalize newVault.disk.size = m at hsize hrun
    rw [maxFileSize] at hrun
    exact (hrun (by omega)).1
  have hreach := hnew.op (.commit x) trivial
  rw [Op.run, hcommit] at hreach
  refine ⟨root, _, hcreate, hreach, ?_⟩
  rintro ⟨u, hopen, hindex⟩
  have hstorable := storable_of_openVault hopen
  rw [hindex] at hstorable
  have hbound := (Index.storable_carried.mp hstorable).root.height
  change root.height ≤ _ at hbound
  rw [hheight, List.length_replicate] at hbound
  exact absurd hbound (by decide)

end IndexIo

end SafeVault
