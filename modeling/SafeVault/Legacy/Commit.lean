import SafeVault.Index.Spans
import SafeVault.Legacy.Session

/-!
# What a commit can do

A commit starts from a header whose active slot is not touched until the new blob is on the medium.
At every moment the header in memory, and the header in the file if the commit has replaced it, have
as their active slot either the one from before or one with the new blob behind it. Whether a
particular step failed does not matter for that.

The blob is written where nothing that has to be kept lies; which places these are is a parameter.
-/

namespace SafeVault

namespace Header

/-- The record of the active slot. -/
def active (h : Header) : IndexSlot := h.slot h.activeSlot

/-- Two headers that differ in their slots only. -/
def SameVault (h h' : Header) : Prop :=
  ∃ a b i, h' = { h with slotA := a, slotB := b, activeSlot := i }

theorem SameVault.refl (h : Header) : SameVault h h := ⟨h.slotA, h.slotB, h.activeSlot, rfl⟩

theorem SameVault.trans {h h' h'' : Header} (hh : SameVault h h') (hh' : SameVault h' h'') :
    SameVault h h'' := by
  obtain ⟨a, b, i, rfl⟩ := hh
  obtain ⟨a', b', i', rfl⟩ := hh'
  exact ⟨a', b', i', rfl⟩

theorem SameVault.symm {h h' : Header} (hh : SameVault h h') : SameVault h' h := by
  obtain ⟨a, b, i, rfl⟩ := hh
  exact ⟨h.slotA, h.slotB, h.activeSlot, rfl⟩

theorem sameVault_setSlot (h : Header) (i : Bool) (s : IndexSlot) : SameVault h (h.setSlot i s) := by
  cases i
  · exact ⟨s, h.slotB, h.activeSlot, rfl⟩
  · exact ⟨h.slotA, s, h.activeSlot, rfl⟩

@[simp] theorem slot_setSlot_self (h : Header) (i : Bool) (s : IndexSlot) :
    (h.setSlot i s).slot i = s := by
  cases i <;> rfl

theorem slot_setSlot_of_ne {h : Header} {i j : Bool} {s : IndexSlot} (hij : j ≠ i) :
    (h.setSlot i s).slot j = h.slot j := by
  cases i <;> cases j <;> first | rfl | exact absurd rfl hij

@[simp] theorem activeSlot_setSlot (h : Header) (i : Bool) (s : IndexSlot) :
    (h.setSlot i s).activeSlot = h.activeSlot := by
  cases i <;> rfl

@[simp] theorem contextBoundChunks_setSlot (h : Header) (i : Bool) (s : IndexSlot) :
    (h.setSlot i s).contextBoundChunks = h.contextBoundChunks := by
  cases i <;> rfl

/-- A slot in the mode of the header keeps the header valid. -/
theorem Valid.setSlot {h : Header} (hv : h.Valid) (i : Bool) {s : IndexSlot}
    (hs : s.offset < 2 ^ 64 ∧ s.length < 2 ^ 64) (hmode : s.contextBound = h.contextBoundChunks) :
    (h.setSlot i s).Valid := by
  have hslot (j : Bool) : (h.setSlot i s).slot j = s ∨ (h.setSlot i s).slot j = h.slot j := by
    by_cases hij : j = i
    · subst hij
      exact Or.inl (slot_setSlot_self h j s)
    · exact Or.inr (slot_setSlot_of_ne hij)
  obtain ⟨a, b, k, hh⟩ := sameVault_setSlot h i s
  have hmodes : (h.setSlot i s).hasIndexSlotModes = h.hasIndexSlotModes := by
    rw [hh]
    rfl
  refine ⟨?_, ?_, ?_, ?_, fun j ↦ ?_, fun hm j ↦ ?_⟩
  · rw [hh]
    exact hv.version
  · rw [hh]
    exact hv.size
  · rw [hh]
    exact hv.flags
  · rw [hh]
    exact hv.sane
  · rcases hslot j with hj | hj <;> rw [hj]
    · exact hs
    · exact hv.slots j
  · rw [contextBoundChunks_setSlot]
    rcases hslot j with hj | hj <;> rw [hj]
    · exact hmode
    · exact hv.modes (hmodes ▸ hm) j

theorem Valid.activate {h : Header} (hv : h.Valid) (i : Bool) : (h.activate i).Valid :=
  ⟨hv.version, hv.size, hv.flags, hv.sane, hv.slots, hv.modes⟩

/-- In a valid header the mode a slot is tried in is the one in its record. -/
theorem Valid.indexSlotContextBound {h : Header} (hv : h.Valid) (i : Bool) :
    h.indexSlotContextBound i = (h.slot i).contextBound := by
  rw [Header.indexSlotContextBound]
  split_ifs with hm
  · rfl
  · exact (hv.modes (Bool.eq_false_of_not_eq_true hm) i).symm

end Header

namespace IndexIo

variable (E : Env)

/-! ## Blobs -/

/-- The blob of an index for a slot. -/
def blob (h : Header) (slot : IndexSlot) (x : Index) : Bytes :=
  E.aead.sealTo slot.nonce (slotAd h slot.contextBound) (serializePlainIndex E h x)

/-- The medium has the blob of an index where a slot points. -/
structure Holds (d : Disk) (h : Header) (slot : IndexSlot) (x : Index) : Prop where
  durable : d.Durable slot.offset (blob E h slot x)
  length : slot.length = (blob E h slot x).length

/-- What one commit is about: the index, and the file in which it began. -/
structure Attempt where
  index : Index
  began : Disk

/-- The chunks the index refers to, with the bytes that were there when the commit began. -/
def Attempt.chunks (x : Attempt) : List (ℕ × Bytes) :=
  (IndexNode.spans x.index.root).filterMap fun r ↦
    (x.began.read r.offset.toNat r.length.toNat).map fun bytes ↦ (r.offset.toNat, bytes)

theorem Attempt.mem_chunks {x : Attempt} {c : ℕ × Bytes} :
    c ∈ x.chunks ↔ ∃ r ∈ IndexNode.spans x.index.root, r.offset.toNat = c.1 ∧
      x.began.read r.offset.toNat r.length.toNat = some c.2 := by
  rw [chunks, List.mem_filterMap]
  refine exists_congr fun r ↦ and_congr_right fun _ ↦ ?_
  rw [Option.map_eq_some_iff]
  constructor
  · rintro ⟨bytes, hread, rfl⟩
    exact ⟨rfl, hread⟩
  · rintro ⟨hoffset, hread⟩
    exact ⟨c.2, hread, Prod.ext hoffset rfl⟩

theorem Attempt.holds_chunks {x : Attempt} {c : ℕ × Bytes} (hc : c ∈ x.chunks) :
    x.began.Holds c.1 c.2 := by
  obtain ⟨r, -, hoffset, hread⟩ := mem_chunks.mp hc
  rw [← hoffset]
  exact (Disk.holds_of_read hread).2

/-- An index is on the medium with its chunks. -/
structure Attempt.Stored (d : Disk) (h : Header) (slot : IndexSlot) (x : Attempt) : Prop where
  holds : Holds E d h slot x.index
  chunks : ∀ c ∈ x.chunks, d.Durable c.1 c.2

variable {E} {d d' : Disk} {h h' : Header} {slot : IndexSlot} {x : Index}

theorem tagSize_le_length_blob : tagSize ≤ (blob E h slot x).length := by
  rw [blob, E.aead.length_sealTo]
  exact Nat.le_add_left _ _

/-- Blobs depend on the vault, not on the slots. -/
theorem blob_congr (hh : h.SameVault h') : blob E h' slot x = blob E h slot x := by
  obtain ⟨a, b, i, rfl⟩ := hh
  rfl

theorem Holds.sameVault (hx : Holds E d h slot x) (hh : h.SameVault h') : Holds E d h' slot x := by
  constructor
  · rw [blob_congr hh]
    exact hx.durable
  · rw [blob_congr hh]
    exact hx.length

theorem Attempt.Stored.sameVault {x : Attempt} (hx : x.Stored E d h slot) (hh : h.SameVault h') :
    x.Stored E d h' slot :=
  ⟨hx.holds.sameVault hh, hx.chunks⟩

/-- What is stored stays stored while its places are not touched. -/
theorem Attempt.Stored.of_untouched {x : Attempt} (hx : x.Stored E d h slot)
    (hblob : ∀ i < (blob E h slot x.index).length, Disk.Untouched (slot.offset + i) d d')
    (hchunks : ∀ c ∈ x.chunks, ∀ i < c.2.length, Disk.Untouched (c.1 + i) d d') :
    x.Stored E d' h slot :=
  ⟨⟨hx.holds.durable.of_untouched hblob, hx.holds.length⟩,
    fun c hc ↦ (hx.chunks c hc).of_untouched (hchunks c hc)⟩

/-! ## Rules for the steps -/

/-- Nothing but the head of the file changes, and dirty bytes may become clean. -/
structure SameContent (d d' : Disk) : Prop where
  untouched : ∀ p, Disk.Untouched p d d'
  size : d'.size = d.size

theorem SameContent.refl (d : Disk) : SameContent d d := ⟨fun p ↦ .refl p d, rfl⟩

theorem SameContent.trans {d d' d'' : Disk} (h : SameContent d d') (h' : SameContent d' d'') :
    SameContent d d'' :=
  ⟨fun p ↦ (h.untouched p).trans (h'.untouched p), h'.size.trans h.size⟩

theorem sameContent_sync (d : Disk) : SameContent d d.sync :=
  ⟨fun _ ↦ Disk.untouched_sync, Disk.size_sync⟩

theorem sameContent_head (d : Disk) (bytes : Bytes) : SameContent d { d with head := bytes } :=
  ⟨fun _ ↦ ⟨rfl, id⟩, rfl⟩

section Rules

variable {I : Session → Prop} {Er : VaultResult → Session → Prop} {s : Session}

/-- A step whose failure is known from the environment. -/
theorem wp_attempt_of_fault {α : Type} {error : VaultResult} {done : Session → α × Session}
    {partly : ℕ → Session → Session} {Q : α → Session → Prop}
    (hdone : E.fault s.clock = .none → I (done s.tick).2 ∧ Q (done s.tick).1 (done s.tick).2)
    (hfail : E.fault s.clock ≠ .none → ∀ k, I (partly k s.tick) ∧ Er error (partly k s.tick)) :
    Proc.wp I (attempt E error done partly) Q Er s := by
  rw [attempt, Proc.wp_step]
  cases hfault : E.fault s.clock with
  | none => exact hdone hfault
  | after k => exact hfail (by rw [hfault]; rintro ⟨⟩) k

theorem wp_attempt {α : Type} {error : VaultResult} {done : Session → α × Session}
    {partly : ℕ → Session → Session} {Q : α → Session → Prop}
    (hdone : I (done s.tick).2 ∧ Q (done s.tick).1 (done s.tick).2)
    (hfail : ∀ k, I (partly k s.tick) ∧ Er error (partly k s.tick)) :
    Proc.wp I (attempt E error done partly) Q Er s :=
  wp_attempt_of_fault (fun _ ↦ hdone) fun _ ↦ hfail

theorem wp_update {f : Session → Session} {Q : Unit → Session → Prop} :
    Proc.wp I (update f) Q Er s ↔ I (f s) ∧ Q () (f s) := by
  rw [update, Proc.wp_step]

/-- A step that fails for want of memory or random bytes touches neither file nor header. -/
theorem wp_compute {α : Type} {f : Session → α} {Q : α → Session → Prop} {error : VaultResult}
    (hdone : ∀ t : Session, t.disk = s.disk → t.header = s.header → I t ∧ Q (f s.tick) t)
    (hfail : ∀ t : Session, t.disk = s.disk → t.header = s.header → I t ∧ Er error t) :
    Proc.wp I (attempt E error (fun s ↦ (f s, s)) fun _ s ↦ s) Q Er s :=
  wp_attempt (hdone _ rfl rfl) fun _ ↦ hfail _ rfl rfl

theorem wp_sync {Q : Unit → Session → Prop}
    (hdone : ∀ t, t.header = s.header → t.disk = s.disk.sync → I t ∧ Q () t)
    (hfail : ∀ t, t.header = s.header → t.disk = s.disk → I t ∧ Er .ioError t) :
    Proc.wp I (sync E) Q Er s :=
  wp_attempt (hdone _ rfl rfl) fun _ ↦ hfail _ rfl rfl

/-- A failed append leaves some of the bytes at the end of the file. -/
theorem wp_appendRaw {bytes : Bytes} {Q : ℕ → Session → Prop}
    (hdone : ∀ t, s.disk.size + bytes.length ≤ maxFileSize → t.header = s.header →
      t.disk = s.disk.append bytes → I t ∧ Q s.disk.size t)
    (hfail : ∀ t k, s.disk.size + bytes.length ≤ maxFileSize → t.header = s.header →
      t.disk = s.disk.append (bytes.take k) → I t ∧ Er .ioError t)
    (hfull : Er .ioError s) :
    Proc.wp I (appendRaw E bytes) Q Er s := by
  simp only [appendRaw, Proc.wp_bind, Proc.wp_look]
  split_ifs with hfit
  · exact wp_attempt (hdone _ hfit rfl rfl) fun k ↦ hfail _ k hfit rfl rfl
  · exact Proc.wp_stop.mpr hfull

/-- Whether it succeeds or not, only the head of the file changes. -/
theorem wp_writeHeader {Q : Unit → Session → Prop}
    (hdone : ∀ t, t.header = s.header → SameContent s.disk t.disk →
      t.disk.head = s.header.serialize → I t ∧ Q () t)
    (hfail : ∀ t, t.header = s.header → SameContent s.disk t.disk →
      (t.disk.head = s.disk.head ∨ t.disk.head = s.header.serialize) → I t ∧ Er .ioError t) :
    Proc.wp I (writeHeader E) Q Er s := by
  have hput : SameContent s.disk { s.disk with head := s.header.serialize } := sameContent_head _ _
  refine wp_attempt (hdone _ rfl (hput.trans (sameContent_sync _)) rfl) fun k ↦ ?_
  split_ifs with hk
  · exact hfail _ rfl (.refl _) (Or.inl rfl)
  · exact hfail _ rfl hput (Or.inr rfl)

end Rules

/-! ## Moments of a commit -/

section Moments

variable (E)

/-- What the header of a vault can be during a commit of `x` that found the header `h₀`. -/
structure Follows (h₀ : Header) (x : Attempt) (d : Disk) (h : Header) : Prop where
  valid : h.Valid
  sameVault : h₀.SameVault h
  active : h.active = h₀.active ∨ x.Stored E d h h.active

/-- The places in `R` are kept, and the file does not shrink or get too long. -/
structure Kept (R : ℕ → Prop) (d₀ d : Disk) : Prop where
  untouched : ∀ p, R p → Disk.Untouched p d₀ d
  size : d₀.size ≤ d.size
  room : d.size ≤ maxFileSize

/-- A state in the course of a commit of `x` that began in `s₀`. -/
structure Moment (R : ℕ → Prop) (s₀ : Session) (x : Attempt) (t : Session) : Prop where
  kept : Kept R s₀.disk t.disk
  memory : Follows E s₀.header x t.disk t.header
  onDisk : t.disk.head = s₀.disk.head ∨
    ∃ h, t.disk.head = h.serialize ∧ Follows E s₀.header x t.disk h

/-- A commit of `x` has been completed. -/
structure Completed (x : Attempt) (t : Session) : Prop where
  stored : x.Stored E t.disk t.header t.header.active
  onDisk : t.disk.head = t.header.serialize

end Moments

theorem Kept.refl {R : ℕ → Prop} (hroom : d.size ≤ maxFileSize) : Kept R d d :=
  ⟨fun p _ ↦ .refl p d, le_rfl, hroom⟩

theorem Kept.sameContent {R : ℕ → Prop} {d₀ : Disk} (hd : Kept R d₀ d) (hsame : SameContent d d') :
    Kept R d₀ d' :=
  ⟨fun p hp ↦ (hd.untouched p hp).trans (hsame.untouched p), hd.size.trans hsame.size.ge,
    hsame.size.symm ▸ hd.room⟩

theorem Attempt.Stored.sameContent {x : Attempt} (hx : x.Stored E d h slot)
    (hsame : SameContent d d') : x.Stored E d' h slot :=
  hx.of_untouched (fun _ _ ↦ hsame.untouched _) fun _ _ _ _ ↦ hsame.untouched _

/-- Until the header is changed, only the places to be kept matter. -/
theorem Moment.before {R : ℕ → Prop} {s₀ t : Session} (x : Attempt) (hv : s₀.header.Valid)
    (hheader : t.header = s₀.header) (hhead : t.disk.head = s₀.disk.head)
    (hkept : Kept R s₀.disk t.disk) : Moment E R s₀ x t := by
  refine ⟨hkept, ?_, Or.inl hhead⟩
  rw [hheader]
  exact ⟨hv, .refl _, Or.inl rfl⟩

/-! ## Swapping the slots -/

section Swap

variable {R : ℕ → Prop} {s₀ s : Session} {x : Attempt}

/-- **The swap.** It begins with the new blob on the medium. -/
theorem wp_swapSlots {offset sealedLen : ℕ} {nonce : Block 24} (hv : s₀.header.Valid)
    (hheader : s.header = s₀.header) (hhead : s.disk.head = s₀.disk.head)
    (hkept : Kept R s₀.disk s.disk) (hoffset : offset < 2 ^ 64) (hlen : sealedLen < 2 ^ 64)
    (hx : x.Stored E s.disk s₀.header
      ⟨offset, sealedLen, nonce, s₀.header.contextBoundChunks⟩) :
    Proc.wp (Moment E R s₀ x) (swapSlots E offset sealedLen nonce)
      (fun _ t ↦ Moment E R s₀ x t ∧ Completed E x t) (fun _ ↦ Moment E R s₀ x) s := by
  set inactive := !s₀.header.activeSlot with hinactive
  set slot : IndexSlot := ⟨offset, sealedLen, nonce, s₀.header.contextBoundChunks⟩
  set h₁ := s₀.header.setSlot inactive slot with hh₁
  set h₂ := h₁.activate inactive
  have hsame₁ : s₀.header.SameVault h₁ := Header.sameVault_setSlot _ _ _
  have hsame₂ : s₀.header.SameVault h₂ := hsame₁.trans ⟨h₁.slotA, h₁.slotB, inactive, rfl⟩
  have hv₁ : h₁.Valid := hv.setSlot inactive ⟨hoffset, hlen⟩ rfl
  have hactive₁ : h₁.active = s₀.header.active := by
    rw [Header.active, hh₁, Header.activeSlot_setSlot, Header.slot_setSlot_of_ne]
    · rfl
    · rw [hinactive]
      cases s₀.header.activeSlot <;> decide
  have hactive₂ : h₂.active = slot := Header.slot_setSlot_self _ _ _
  have hstored (d : Disk) (hd : SameContent s.disk d) : x.Stored E d h₂ h₂.active := by
    rw [hactive₂]
    exact (hx.sameContent hd).sameVault hsame₂
  -- The header is one of the two from here on, and so is the head of the file once it is written.
  have hfollows (d : Disk) (hd : SameContent s.disk d) (h : Header) (hh : h = h₁ ∨ h = h₂) :
      Follows E s₀.header x d h := by
    rcases hh with rfl | rfl
    · exact ⟨hv₁, hsame₁, Or.inl hactive₁⟩
    · exact ⟨hv₁.activate inactive, hsame₂, Or.inr (hstored d hd)⟩
  have hmoment (t : Session) (hd : SameContent s.disk t.disk) (hh : t.header = h₁ ∨ t.header = h₂)
      (hhd : t.disk.head = s.disk.head ∨ t.disk.head = h₁.serialize ∨
        t.disk.head = h₂.serialize) : Moment E R s₀ x t := by
    refine ⟨hkept.sameContent hd, hfollows _ hd _ hh, ?_⟩
    rcases hhd with hhd | hhd | hhd
    · exact Or.inl (hhd.trans hhead)
    · exact Or.inr ⟨h₁, hhd, hfollows _ hd _ (Or.inl rfl)⟩
    · exact Or.inr ⟨h₂, hhd, hfollows _ hd _ (Or.inr rfl)⟩
  have hfirst : s.header.setSlot inactive ⟨offset, sealedLen, nonce, s.header.contextBoundChunks⟩ =
      h₁ := by rw [hheader]
  have hflip : (!s.header.activeSlot) = inactive := by rw [hheader]
  simp only [swapSlots, Proc.wp_bind, Proc.wp_look, wp_update, hflip, hfirst]
  have hrefl := SameContent.refl s.disk
  refine ⟨hmoment _ hrefl (Or.inl rfl) (Or.inl rfl), ?_⟩
  apply wp_writeHeader
  · intro t ht hd hhd
    change t.header = h₁ at ht
    change t.disk.head = h₁.serialize at hhd
    simp only [Proc.wp_bind, wp_update, ht]
    refine ⟨hmoment t hd (Or.inl ht) (Or.inr (Or.inl hhd)),
      hmoment _ hd (Or.inr rfl) (Or.inr (Or.inl hhd)), ?_⟩
    apply wp_writeHeader
    · intro t' ht' hd' hhd'
      have hm := hmoment t' (hd.trans hd') (Or.inr ht') (Or.inr (Or.inr hhd'))
      refine ⟨hm, hm, ?_, ?_⟩
      · rw [ht']
        exact hstored _ (hd.trans hd')
      · rw [ht']
        exact hhd'
    · intro t' ht' hd' hhd'
      have hm := hmoment t' (hd.trans hd') (Or.inr ht')
        (hhd'.elim (fun hk ↦ Or.inr (Or.inl (hk.trans hhd))) fun hk ↦ Or.inr (Or.inr hk))
      exact ⟨hm, hm⟩
  · intro t ht hd hhd
    have hm := hmoment t hd (Or.inl ht) (hhd.imp_right Or.inl)
    exact ⟨hm, hm⟩

end Swap

/-! ## Whole commits -/

section Whole

variable {R : ℕ → Prop} {s₀ s : Session} {x : Attempt}

/-- The end of a commit: the blob is in the file, but nothing is known to be on the medium. -/
theorem wp_sync_swapSlots {offset : ℕ} {nonce : Block 24} (hv : s₀.header.Valid)
    (hheader : s.header = s₀.header) (hhead : s.disk.head = s₀.disk.head)
    (hkept : Kept R s₀.disk s.disk) {bytes : Bytes}
    (hbytes : bytes = E.aead.sealTo nonce (indexBlobAd s₀.header s₀.header.contextBoundChunks)
      (serializePlainIndex E s₀.header x.index))
    (hroom : offset + bytes.length ≤ maxFileSize) (hblob : s.disk.Holds offset bytes)
    (hchunks : ∀ c ∈ x.chunks, s.disk.Holds c.1 c.2) :
    Proc.wp (Moment E R s₀ x) (sync E >>= fun _ ↦ swapSlots E offset bytes.length nonce)
      (fun _ t ↦ Moment E R s₀ x t ∧ Completed E x t) (fun _ ↦ Moment E R s₀ x) s := by
  have hblobEq : blob E s₀.header ⟨offset, bytes.length, nonce, s₀.header.contextBoundChunks⟩
      x.index = bytes := by rw [blob, slotAd_contextBoundChunks, hbytes]
  rw [maxFileSize] at hroom
  rw [Proc.wp_bind]
  apply wp_sync
  · intro t hth htd
    have hsync : Kept R s₀.disk t.disk := by
      rw [htd]
      exact hkept.sameContent (sameContent_sync s.disk)
    have hhead' : t.disk.head = s₀.disk.head := by rwa [htd]
    refine ⟨.before x hv (hth.trans hheader) hhead' hsync, ?_⟩
    refine wp_swapSlots hv (hth.trans hheader) hhead' hsync (by omega) (by omega) ?_
    rw [htd]
    refine ⟨⟨?_, ?_⟩, fun c hc ↦ (hchunks c hc).durable_sync⟩
    · rw [hblobEq]
      exact hblob.durable_sync
    · rw [hblobEq]
  · intro t hth htd
    have hm : Moment E R s₀ x t := by
      refine .before x hv (hth.trans hheader) ?_ ?_
      · rwa [htd]
      · rwa [htd]
    exact ⟨hm, hm⟩

/-- The beginning of a commit leaves file and header alone. -/
theorem wp_sealThen {J : Session → Prop} {plain : Bytes}
    {rest : Block 24 → Bytes → Proc Session VaultResult Unit} {Q : Unit → Session → Prop}
    (hstart : ∀ t : Session, t.disk = s.disk → t.header = s.header → J t)
    (hrest : ∀ (t : Session) (nonce : Block 24), t.disk = s.disk → t.header = s.header →
      Proc.wp J (rest nonce (E.aead.sealTo nonce
        (indexBlobAd s.header s.header.contextBoundChunks) plain)) Q (fun _ ↦ J) t) :
    Proc.wp J (do
      let nonce ← fillNonce E
      let ad ← .look fun s ↦ indexBlobAd s.header s.header.contextBoundChunks
      let bytes ← sealBlob E nonce ad plain
      rest nonce bytes) Q (fun _ ↦ J) s := by
  rw [Proc.wp_bind]
  apply wp_compute
  · intro t₁ hd₁ hh₁
    refine ⟨hstart t₁ hd₁ hh₁, ?_⟩
    rw [Proc.wp_bind, Proc.wp_look, hh₁, Proc.wp_bind]
    apply wp_compute
    · intro t₂ hd₂ hh₂
      exact ⟨hstart t₂ (hd₂.trans hd₁) (hh₂.trans hh₁),
        hrest t₂ _ (hd₂.trans hd₁) (hh₂.trans hh₁)⟩
    · intro t₂ hd₂ hh₂
      have hJ := hstart t₂ (hd₂.trans hd₁) (hh₂.trans hh₁)
      exact ⟨hJ, hJ⟩
  · intro t₁ hd₁ hh₁
    exact ⟨hstart t₁ hd₁ hh₁, hstart t₁ hd₁ hh₁⟩

/-- A session whose file and header are those the commit found. -/
theorem Moment.start {t : Session} (x : Attempt) (hv : s₀.header.Valid)
    (hroom : s₀.disk.size ≤ maxFileSize) (hd : t.disk = s₀.disk) (hh : t.header = s₀.header) :
    Moment E R s₀ x t := by
  refine .before x hv hh (by rw [hd]) ?_
  rw [hd]
  exact .refl hroom

/-- A commit that appends its blob keeps the whole file. -/
theorem wp_commitPlainBlob (hv : s₀.header.Valid) (hroom : s₀.disk.size ≤ maxFileSize)
    (hchunks : ∀ c ∈ x.chunks, s₀.disk.Holds c.1 c.2) (hdisk : s.disk = s₀.disk)
    (hheader : s.header = s₀.header) :
    Proc.wp (Moment E (· < s₀.disk.size) s₀ x)
      (commitPlainBlob E (serializePlainIndex E s₀.header x.index))
      (fun _ t ↦ Moment E (· < s₀.disk.size) s₀ x t ∧ Completed E x t)
      (fun _ ↦ Moment E (· < s₀.disk.size) s₀ x) s := by
  have happend (bytes : Bytes) (hfit : s₀.disk.size + bytes.length ≤ maxFileSize) :
      Kept (· < s₀.disk.size) s₀.disk (s₀.disk.append bytes) := by
    refine ⟨fun p hp ↦ Disk.untouched_append hp, ?_, ?_⟩
    · rw [Disk.size_append]
      exact Nat.le_add_right _ _
    · rwa [Disk.size_append]
  rw [commitPlainBlob]
  apply wp_sealThen
  · intro t hd hh
    exact .start x hv hroom (hd.trans hdisk) (hh.trans hheader)
  · intro t nonce hd hh
    rw [hdisk] at hd
    rw [hheader] at hh
    rw [Proc.wp_bind, hheader]
    apply wp_appendRaw
    · intro t' hfit hh' hd'
      rw [hd] at hfit hd'
      rw [hh] at hh'
      have hkept : Kept (· < s₀.disk.size) s₀.disk t'.disk := by
        rw [hd']
        exact happend _ hfit
      have hhead : t'.disk.head = s₀.disk.head := by
        rw [hd']
        rfl
      refine ⟨.before x hv hh' hhead hkept, ?_⟩
      rw [hd]
      refine wp_sync_swapSlots hv hh' hhead hkept rfl hfit ?_ fun c hc ↦ ?_
      · rw [hd']
        exact Disk.holds_append
      · exact (hchunks c hc).of_untouched fun i hi ↦
          hkept.untouched _ ((hchunks c hc).lt_size hi)
    · intro t' k hfit hh' hd'
      rw [hd] at hfit hd'
      have hm : Moment E (· < s₀.disk.size) s₀ x t' := by
        refine .before x hv (hh'.trans hh) ?_ ?_
        · rw [hd']
          rfl
        · rw [hd']
          refine happend _ (le_trans ?_ hfit)
          rw [List.length_take]
          omega
      exact ⟨hm, hm⟩
    · exact .start x hv hroom hd hh

theorem wp_commitIndex (hv : s.header.Valid) (hroom : s.disk.size ≤ maxFileSize)
    (hchunks : ∀ c ∈ x.chunks, s.disk.Holds c.1 c.2) :
    Proc.wp (Moment E (· < s.disk.size) s x) (commitIndex E x.index)
      (fun _ t ↦ Moment E (· < s.disk.size) s x t ∧ Completed E x t)
      (fun _ ↦ Moment E (· < s.disk.size) s x) s := by
  rw [commitIndex, Proc.wp_bind]
  apply wp_compute
  · intro t hd hh
    exact ⟨.start x hv hroom hd hh, wp_commitPlainBlob hv hroom hchunks hd hh⟩
  · intro t hd hh
    have hm := Moment.start (E := E) (R := (· < s.disk.size)) x hv hroom hd hh
    exact ⟨hm, hm⟩

end Whole

end IndexIo

end SafeVault
