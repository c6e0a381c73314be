import SafeVault.Index.Node
import SafeVault.Lib.Loop

/-!
# The task that imports a list of files

The worker reads a few files ahead into a window, hands images to a decoder, and stages the files in
the order of the list: a cursor says which file is next, and only the file at the front of the window
is looked at. The window is kept to a number of files and of bytes.

What the worker finds on disk, what a decoder has ready in time, and what staging a file comes to
are parameters, and so is the flag that the user can set to cancel the task.

The test for a regular file can throw. Nothing in the loop catches that: the task fails there, and what
is left in the window is lost.
-/

namespace SafeVault

namespace FilesTask

/-! ## Files and windows -/

/-- What `is_regular_file` comes to. It throws at a loop of links, at a name that is too long, and below
a directory that may not be searched; a file that is not there is no regular file. -/
inductive RegularTest where
  | regular | other | throws
  deriving DecidableEq

/-- A file as the worker finds it: the size is `-1` if it cannot be opened, and a read gives what
there is of `content`. -/
structure PickedFile where
  name : Bytes
  regular : RegularTest := .regular
  size : ℤ
  content : Bytes

/-- The largest file that is imported. -/
def maxFileBytes : ℤ := 512 * 1024 * 1024

/-- The buffer of the size of the file after the read; what was not read is zero. -/
def PickedFile.data (f : PickedFile) : Bytes :=
  (f.content ++ List.replicate f.size.toNat 0).take f.size.toNat

/-- The magic bytes of JPEG, PNG and WebP. -/
def isImage (data : Bytes) : Bool :=
  (2 ≤ data.length && data.take 2 == [0xff, 0xd8]) ||
    (8 ≤ data.length && data.take 4 == [0x89, 0x50, 0x4e, 0x47]) ||
    (12 ≤ data.length && (data.drop 8).take 4 == [0x57, 0x45, 0x42, 0x50])

/-- A file in the window. -/
structure PendingFile where
  index : ℕ
  data : Bytes
  /-- Whether a decoder is at work on it. -/
  decodeJob : Bool

/-- What a move leaves behind: the buffer is gone. -/
def PendingFile.moved (pf : PendingFile) : PendingFile := { pf with data := [] }

structure FileWindow where
  files : List PendingFile := []
  bytes : UInt64 := 0
  nextToStage : ℕ := 0

def lookaheadMaxItems : ℕ := 8

def lookaheadMaxBytes : UInt64 := 256 * 1024 * 1024

/-- What `submit_file` comes to. -/
inductive Submitted where
  | accepted (window : FileWindow)
  | refused
  | threw

/-- `submit_file`. -/
def submitFile (idx : ℕ) (f : PickedFile) (w : FileWindow) : Submitted :=
  match f.regular with
  | .throws => .threw
  | .other => .refused
  | .regular =>
    if f.size ≤ 0 ∨ maxFileBytes < f.size then .refused
    else if f.data.isEmpty then .refused
    else
      let pf : PendingFile := ⟨idx, f.data, isImage f.data⟩
      -- The file is moved into the window first, and its size is taken after that.
      .accepted { w with
        files := w.files ++ [pf]
        bytes := w.bytes + UInt64.ofNat pf.moved.data.length }

/-! ## The worker -/

/-- The task and what happens to it. `τ` is a decoded thumbnail and `ν` a node that was staged. -/
structure Task (τ ν : Type) where
  files : List PickedFile
  /-- The flag, at the `k`-th look. -/
  cancel : ℕ → Bool := fun _ ↦ false
  /-- Whether the decoder of a file is done in time, and with what. -/
  decoded : ℕ → Option τ
  detectFormat : Bytes → Bool
  stageImage : ℕ → Bytes → Bytes → Option τ → Option ν
  stageVideo : ℕ → Bytes → Bytes → Option ν

/-- The state of the worker. Records are posted for the main thread; the windows there have been, and
how many files were tried, are remembered. -/
structure Worker (ν : Type) where
  window : FileWindow := {}
  skipped : ℕ := 0
  done : ℕ := 0
  posted : List (ℕ × ν) := []
  /-- An exception has ended the task. -/
  failed : Bool := false
  looks : ℕ := 0
  tried : ℕ := 0
  windows : List FileWindow := []

variable {τ ν : Type}

namespace Worker

def setWindow (s : Worker ν) (window : FileWindow) : Worker ν :=
  { s with window, windows := s.windows ++ [window] }

end Worker

section Run

variable (E : Task τ ν)

/-- Look at the flag. -/
def look (s : Worker ν) : Bool × Worker ν := (E.cancel s.looks, { s with looks := s.looks + 1 })

/-- What staging a file comes to. -/
def stage (pf : PendingFile) (f : PickedFile) : Option ν :=
  if E.detectFormat pf.data then
    E.stageImage pf.index pf.data f.name (if pf.decodeJob then E.decoded pf.index else none)
  else E.stageVideo pf.index pf.data f.name

/-- `post_record`: nothing is posted once the task is cancelled. -/
def postRecord (index : ℕ) (node : ν) (s : Worker ν) : Worker ν :=
  let (cancelled, s) := look E s
  if cancelled then s else { s with posted := s.posted ++ [(index, node)] }

/-- Stage a file, and post it if that worked. -/
def stageFile (pf : PendingFile) (f : PickedFile) (s : Worker ν) : Worker ν :=
  match stage E pf f with
  | some node => { postRecord E pf.index node s with done := pf.index + 1 }
  | none => s

/-- `drain_files`, on the files of the window: stage those that are next. -/
def drainFiles : List PendingFile → Worker ν → Worker ν
  | [], s => s
  | pf :: rest, s =>
    if pf.index ≠ s.window.nextToStage then s
    else
      let s := s.setWindow { s.window with
        files := rest, bytes := s.window.bytes - UInt64.ofNat pf.data.length }
      let (cancelled, s) := look E s
      if cancelled then s
      else
        match E.files[pf.index]? with
        | none => s
        | some f =>
          let s := stageFile E pf f s
          drainFiles rest
            { s with window := { s.window with nextToStage := s.window.nextToStage + 1 } }

/-- A turn of the loop that makes room; it is left with whether the task is cancelled. -/
def makeRoom (s : Worker ν) : Worker ν ⊕ Bool × Worker ν :=
  if lookaheadMaxItems ≤ s.window.files.length ∨ lookaheadMaxBytes ≤ s.window.bytes then
    let t := drainFiles E s.window.files s
    if t.window.files.length = s.window.files.length ∧ t.window.bytes = s.window.bytes then
      .inr (false, t)
    else
      let (cancelled, t) := look E t
      if cancelled then .inr (true, t) else .inl t
  else .inr (false, s)

/-- The loop over the files from index `i` on; it is left with whether the task ends there. -/
def admitFiles (turns : ℕ) : ℕ → List PickedFile → Worker ν → Option (Bool × Worker ν)
  | _, [], s => some (false, s)
  | i, f :: fs, s =>
    let (cancelled, s) := look E s
    if cancelled then some (false, s)
    else do
      let (cancelled, s) ← Loop.run (makeRoom E) turns s
      if cancelled then some (true, s)
      else
        let s := { s with tried := s.tried + 1 }
        match submitFile i f s.window with
        | .accepted window => admitFiles turns (i + 1) fs (s.setWindow window)
        | .refused => admitFiles turns (i + 1) fs { s with skipped := s.skipped + 1, done := i + 1 }
        | .threw => some (true, { s with failed := true })

/-- A turn of the last loop. -/
def drainRest (s : Worker ν) : Worker ν ⊕ Worker ν :=
  if s.window.files.isEmpty then .inr s
  else
    let (cancelled, s) := look E s
    if cancelled then .inr s else .inl (drainFiles E s.window.files s)

/-- `process_files_task`, with a bound on the turns of each of its loops. -/
def processFilesTask (turns : ℕ) : Option (Worker ν) := do
  let (ended, s) ← admitFiles E turns 0 E.files {}
  if ended then some s else Loop.run (drainRest E) turns s

end Run

/-! ## What is known about the files -/

/-- The test for a regular file throws. -/
def PickedFile.Throws (f : PickedFile) : Prop := f.regular = .throws

/-- What `submit_file` lets in. -/
def PickedFile.Accepted (f : PickedFile) : Prop :=
  f.regular = .regular ∧ 0 < f.size ∧ f.size ≤ maxFileBytes

/-- What it refuses. -/
def PickedFile.Refused (f : PickedFile) : Prop := ¬f.Throws ∧ ¬f.Accepted

instance (f : PickedFile) : Decidable f.Throws := inferInstanceAs (Decidable (_ = _))

instance (f : PickedFile) : Decidable f.Accepted := inferInstanceAs (Decidable (_ ∧ _ ∧ _))

instance (f : PickedFile) : Decidable f.Refused := inferInstanceAs (Decidable (_ ∧ _))

/-- A file in the window. -/
def PickedFile.pending (f : PickedFile) (i : ℕ) : PendingFile := ⟨i, f.data, isImage f.data⟩

section Files

variable (E : Task τ ν)

/-- The `i`-th file as it is in the window, if it is let in. -/
def pending? (i : ℕ) : Option PendingFile :=
  E.files[i]?.bind fun f ↦ if f.Accepted then some (f.pending i) else none

/-- What staging the `i`-th file comes to. -/
def outcome (i : ℕ) : Option ν := E.files[i]?.bind fun f ↦ stage E (f.pending i) f

/-- No file that is let in comes after one that is refused. -/
def NoLateFile : Prop :=
  ∀ i j, i < j → pending? E i = none → pending? E j = none

/-- The bytes a window holds. -/
def FileWindow.held (w : FileWindow) : ℕ := (w.files.map (·.data.length)).sum

/-- What is said of the loop: it posts what was staged, in order and once; it counts the other files;
and the count of bytes is right and within the budget, but for the file let in last. -/
structure Settled (s : Worker ν) : Prop where
  order : (s.posted.map Prod.fst).Pairwise (· < ·)
  posted : ∀ i node, (i, node) ∈ s.posted ↔ (pending? E i).isSome ∧ outcome E i = some node
  counted : s.posted.length + s.skipped = E.files.length
  bytes : ∀ w ∈ s.windows, w.bytes.toNat = w.held
  budget : ∀ w ∈ s.windows, ∀ pf, w.files.getLast? = some pf →
    w.held ≤ lookaheadMaxBytes.toNat + pf.data.length

end Files

variable {E : Task τ ν} {s t : Worker ν} {i j turns : ℕ} {f : PickedFile} {w : FileWindow}
  {pf : PendingFile}

theorem length_data (f : PickedFile) : f.data.length = f.size.toNat := by
  rw [PickedFile.data, List.length_take, List.length_append, List.length_replicate]
  omega

/-- A file that is let in is counted with no bytes at all. -/
theorem submitFile_eq (i : ℕ) (f : PickedFile) (w : FileWindow) :
    submitFile i f w =
      if f.Throws then .threw
      else if f.Accepted then .accepted { w with files := w.files ++ [f.pending i] }
      else .refused := by
  rw [submitFile]
  rcases hregular : f.regular with _ | _ | _
  all_goals dsimp only
  · have hthrows : ¬f.Throws := fun h ↦ nomatch hregular.symm.trans h
    rw [if_neg hthrows]
    by_cases hsize : 0 < f.size ∧ f.size ≤ maxFileBytes
    · have hdata : f.data.isEmpty = false := by
        rw [List.isEmpty_eq_false_iff, ← List.length_pos_iff, length_data]
        omega
      have haccepted : f.Accepted := ⟨hregular, hsize⟩
      have hfits : ¬(f.size ≤ 0 ∨ maxFileBytes < f.size) := by omega
      rw [if_pos haccepted, if_neg hfits, hdata, if_neg Bool.false_ne_true]
      simp [PendingFile.moved, PickedFile.pending]
    · have hrefused : ¬f.Accepted := fun h ↦ hsize h.2
      have hunfit : f.size ≤ 0 ∨ maxFileBytes < f.size := by omega
      rw [if_neg hrefused, if_pos hunfit]
  · have hthrows : ¬f.Throws := fun h ↦ nomatch hregular.symm.trans h
    have hrefused : ¬f.Accepted := fun h ↦ nomatch hregular.symm.trans h.1
    rw [if_neg hthrows, if_neg hrefused]
  · have hthrows : f.Throws := hregular
    rw [if_pos hthrows]

theorem index_of_pending?_eq_some (h : pending? E i = some pf) :
    pf.index = i ∧ ∃ f, E.files[i]? = some f ∧ f.Accepted ∧ pf = f.pending i := by
  obtain ⟨f, hf, hpf⟩ := Option.bind_eq_some_iff.mp h
  split_ifs at hpf with haccepted
  obtain rfl := Option.some.inj hpf
  exact ⟨rfl, f, hf, haccepted, rfl⟩

/-! ## The loop without cancellation -/

/-- How things stand when the files below `i` have been looked at: the window holds those that were
let in, from the cursor on, and the cursor has not passed a file that was refused. -/
structure Inv (E : Task τ ν) (i : ℕ) (s : Worker ν) : Prop where
  files : s.window.files =
    (List.range' s.window.nextToStage (i - s.window.nextToStage)).filterMap (pending? E)
  next : s.window.nextToStage ≤ i
  passed : ∀ j < s.window.nextToStage, pending? E j ≠ none
  posted : s.posted = (List.range s.window.nextToStage).filterMap fun j ↦
    (outcome E j).map fun node ↦ (j, node)
  skipped : s.skipped = ((List.range i).filter fun j ↦ (pending? E j).isNone).length
  tried : s.tried = i
  failed : s.failed = false

theorem inv_start : Inv E 0 ({} : Worker ν) :=
  ⟨rfl, le_rfl, fun j hj ↦ absurd hj (Nat.not_lt_zero j), rfl, rfl, rfl, rfl⟩

/-- The look at the flag has no part in this. -/
theorem Inv.look (h : Inv E i s) : Inv E i (look E s).2 :=
  ⟨h.files, h.next, h.passed, h.posted, h.skipped, h.tried, h.failed⟩

/-- No file before the cursor was skipped. -/
theorem Inv.skipped_eq (h : Inv E i s) : s.skipped =
    ((List.range' s.window.nextToStage (i - s.window.nextToStage)).filter
      fun j ↦ (pending? E j).isNone).length := by
  have hsplit : List.range i = List.range' 0 s.window.nextToStage ++
      List.range' (0 + s.window.nextToStage) (i - s.window.nextToStage) := by
    rw [List.range'_append_1, Nat.add_sub_cancel' h.next, List.range_eq_range']
  rw [h.skipped, hsplit, List.filter_append, List.filter_eq_nil_iff.mpr, List.nil_append,
    Nat.zero_add]
  intro j hj
  rw [Option.isNone_iff_eq_none]
  exact h.passed j (by have hlt := (List.mem_range'_1.mp hj).2; omega)

/-- At most one node was posted for each file before the cursor. -/
theorem Inv.posted_le (h : Inv E i s) : s.posted.length ≤ s.window.nextToStage ∧
    (s.posted.length = s.window.nextToStage ↔ ∀ j < s.window.nextToStage, (outcome E j).isSome) := by
  have hlen := List.length_range (n := s.window.nextToStage)
  have hall := List.filterMap_length_eq_length (l := List.range s.window.nextToStage)
    (f := fun j ↦ (outcome E j).map fun node ↦ (j, node))
  rw [hlen] at hall
  rw [h.posted]
  refine ⟨(List.length_filterMap_le _ _).trans_eq hlen, hall.trans ?_⟩
  simp only [List.mem_range, Option.isSome_map]

/-- No file is counted twice. -/
theorem Inv.counted_le (h : Inv E i s) : s.posted.length + s.skipped ≤ i := by
  have hskipped := (h.skipped_eq).trans_le (List.length_filter_le _ _)
  rw [List.length_range'] at hskipped
  have hposted := h.posted_le.1
  have hnext := h.next
  omega

/-- Staging has no part in the window. -/
theorem window_stageFile (pf : PendingFile) (f : PickedFile) (s : Worker ν) :
    (stageFile E pf f s).window = s.window ∧ (stageFile E pf f s).windows = s.windows := by
  have hpost (index : ℕ) (node : ν) : (postRecord E index node s).window = s.window ∧
      (postRecord E index node s).windows = s.windows := by
    have heq : postRecord E index node s = if E.cancel s.looks then (look E s).2
        else { (look E s).2 with posted := s.posted ++ [(index, node)] } := rfl
    rw [heq]
    split_ifs
    · exact ⟨rfl, rfl⟩
    · exact ⟨rfl, rfl⟩
  rw [stageFile]
  rcases stage E pf f with _ | node
  · exact ⟨rfl, rfl⟩
  · exact hpost pf.index node

/-- Draining either does nothing to the window or makes it shorter. -/
theorem window_drainFiles (files : List PendingFile) (s : Worker ν) :
    (drainFiles E files s).window = s.window ∨
      (drainFiles E files s).window.files.length < files.length := by
  induction files generalizing s with
  | nil => exact .inl rfl
  | cons pf rest ih =>
    rw [drainFiles, List.length_cons]
    by_cases hnext : pf.index = s.window.nextToStage
    · rw [if_neg (not_not.mpr hnext)]
      refine .inr (Nat.lt_succ_of_le ?_)
      have hshorter (t : Worker ν) (ht : t.window.files = rest) :
          (drainFiles E rest t).window.files.length ≤ rest.length := by
        rcases ih t with heq | hlt
        · rw [heq, ht]
        · exact hlt.le
      dsimp only [look, Worker.setWindow]
      rcases E.cancel s.looks with _ | _
      · rcases E.files[pf.index]? with _ | f
        · exact le_refl rest.length
        · exact hshorter _ (congrArg FileWindow.files (window_stageFile pf f _).1)
      · exact le_refl rest.length
    · rw [if_pos hnext]
      exact .inl rfl

/-- **One file looked at.** -/
theorem inv_submitFile (h : Inv E i s) (hf : E.files[i]? = some f) :
    (f.Accepted → Inv E (i + 1) ({ s with tried := s.tried + 1 }.setWindow
      { s.window with files := s.window.files ++ [f.pending i] })) ∧
    (¬f.Accepted → Inv E (i + 1)
      { s with tried := s.tried + 1, skipped := s.skipped + 1, done := i + 1 }) := by
  have hnext := h.next
  have hfiles : (List.range' s.window.nextToStage (i + 1 - s.window.nextToStage)).filterMap
      (pending? E) = s.window.files ++ (pending? E i).toList := by
    rw [Nat.succ_sub hnext, List.range'_1_concat, List.filterMap_append, ← h.files,
      Nat.add_sub_cancel' hnext, List.filterMap_cons, List.filterMap_nil]
    rcases pending? E i with _ | pf <;> rfl
  have hskipped : ((List.range (i + 1)).filter fun j ↦ (pending? E j).isNone).length =
      s.skipped + (if (pending? E i).isNone then 1 else 0) := by
    rw [List.range_succ, List.filter_append, List.length_append, ← h.skipped, List.filter_cons,
      List.filter_nil]
    split_ifs <;> rfl
  constructor
  · intro haccepted
    have hp : pending? E i = some (f.pending i) := by
      rw [pending?, hf, Option.bind_some, if_pos haccepted]
    rw [hp] at hfiles hskipped
    exact ⟨hfiles.symm, Nat.le_succ_of_le hnext, h.passed, h.posted, hskipped.symm,
      congrArg (· + 1) h.tried, h.failed⟩
  · intro hrefused
    have hp : pending? E i = none := by
      rw [pending?, hf, Option.bind_some, if_neg hrefused]
    rw [hp] at hfiles hskipped
    exact ⟨(hfiles.trans (List.append_nil _)).symm, Nat.le_succ_of_le hnext, h.passed, h.posted,
      hskipped.symm, congrArg (· + 1) h.tried, h.failed⟩

theorem admitFiles_mono {fs : List PickedFile} {n m : ℕ} {out : Bool × Worker ν}
    (h : admitFiles E n i fs s = some out) (hle : n ≤ m) : admitFiles E m i fs s = some out := by
  induction fs generalizing i s with
  | nil => exact h
  | cons f fs ih =>
    rw [admitFiles] at h ⊢
    dsimp only at h ⊢
    split_ifs at h ⊢ with hcancel
    · exact h
    obtain ⟨⟨c, u⟩, hroom, h⟩ := Option.bind_eq_some_iff.mp h
    refine Option.bind_eq_some_iff.mpr ⟨(c, u), Loop.run_mono hroom hle, ?_⟩
    dsimp only at h ⊢
    split_ifs at h ⊢
    · exact h
    · rcases hsubmit : submitFile i f u.window with w | _ | _
      all_goals rw [hsubmit] at h
      · exact ih h
      · exact ih h
      · exact h

/-! ### The windows there have been -/

theorem windows_drainFiles (files : List PendingFile) (s : Worker ν) :
    s.windows ⊆ (drainFiles E files s).windows := by
  induction files generalizing s with
  | nil => exact List.Subset.refl _
  | cons pf rest ih =>
    rw [drainFiles]
    split_ifs with hnext
    · exact List.Subset.refl _
    dsimp only [look, Worker.setWindow]
    split_ifs
    · exact List.subset_append_left _ _
    rcases E.files[pf.index]? with _ | f
    · exact List.subset_append_left _ _
    · refine List.Subset.trans ?_ (ih _)
      rw [(window_stageFile pf f _).2]
      exact List.subset_append_left _ _

theorem windows_makeRoom (hrun : Loop.run (makeRoom E) turns s = some (b, t)) :
    s.windows ⊆ t.windows := by
  refine Loop.of_run (I := fun u : Worker ν ↦ s.windows ⊆ u.windows)
    (Q := fun out : Bool × Worker ν ↦ s.windows ⊆ out.2.windows)
    (fun u u' hu hbody ↦ ?_) (fun u out hu hbody ↦ ?_) (List.Subset.refl _) hrun
  all_goals
    have hdrain := List.Subset.trans hu (windows_drainFiles (E := E) u.window.files u)
    rw [makeRoom] at hbody
    dsimp only [look] at hbody
    split_ifs at hbody
  · exact Sum.inl.inj hbody ▸ hdrain
  · exact Sum.inr.inj hbody ▸ hdrain
  · exact Sum.inr.inj hbody ▸ hdrain
  · exact Sum.inr.inj hbody ▸ hu

theorem windows_admitFiles {fs : List PickedFile} (hrun : admitFiles E turns i fs s = some (b, t)) :
    s.windows ⊆ t.windows := by
  induction fs generalizing i s with
  | nil =>
    obtain ⟨-, rfl⟩ := Prod.mk.inj (Option.some.inj hrun)
    exact List.Subset.refl _
  | cons f fs ih =>
    rw [admitFiles] at hrun
    dsimp only [look] at hrun
    split_ifs at hrun
    · obtain ⟨-, rfl⟩ := Prod.mk.inj (Option.some.inj hrun)
      exact List.Subset.refl _
    obtain ⟨⟨c, u⟩, hroom, hrun⟩ := Option.bind_eq_some_iff.mp hrun
    have hu := windows_makeRoom hroom
    dsimp only at hu hrun
    split_ifs at hrun
    · obtain ⟨-, rfl⟩ := Prod.mk.inj (Option.some.inj hrun)
      exact hu
    · rcases hsubmit : submitFile i f u.window with w | _ | _
      all_goals rw [hsubmit] at hrun
      · exact List.Subset.trans (List.Subset.trans hu (List.subset_append_left _ _)) (ih hrun)
      · have hrest : admitFiles E turns (i + 1) fs
            { u with tried := u.tried + 1, skipped := u.skipped + 1, done := i + 1 } =
          some (b, t) := hrun
        have hgrow := ih hrest
        exact List.Subset.trans hu hgrow
      · obtain ⟨-, rfl⟩ := Prod.mk.inj (Option.some.inj hrun)
        exact hu

theorem windows_drainRest (hrun : Loop.run (drainRest E) turns s = some t) :
    s.windows ⊆ t.windows := by
  refine Loop.of_run (I := fun u : Worker ν ↦ s.windows ⊆ u.windows)
    (Q := fun t : Worker ν ↦ s.windows ⊆ t.windows)
    (fun u u' hu hbody ↦ ?_) (fun u out hu hbody ↦ ?_) (List.Subset.refl _) hrun
  all_goals
    rw [drainRest] at hbody
    dsimp only [look] at hbody
    split_ifs at hbody
  · have hdrain := windows_drainFiles (E := E) u.window.files { u with looks := u.looks + 1 }
    exact Sum.inl.inj hbody ▸ List.Subset.trans hu hdrain
  · exact Sum.inr.inj hbody ▸ hu
  · exact Sum.inr.inj hbody ▸ hu

/-- There is room in a window without files. -/
theorem makeRoom_empty (hw : s.window = {}) (hrun : Loop.run (makeRoom E) turns s = some (b, t)) :
    b = false ∧ t = s := by
  have hbody : makeRoom E s = .inr (false, s) := by
    rw [makeRoom, hw]
    exact if_neg (by decide)
  obtain ⟨rfl, rfl⟩ := Prod.mk.inj
    (Loop.run_unique hrun ((Loop.run_of_inr hbody : Loop.run (makeRoom E) 1 s = _)))
  exact ⟨rfl, rfl⟩

/-- The first file that is let in leaves a window with bytes in it and a count of `0`. -/
theorem exists_wrong_window {fs : List PickedFile} (hc : ∀ k, E.cancel k = false)
    (hw : s.window = {}) (hrun : admitFiles E turns i fs s = some (b, t))
    (hthrows : ∀ f ∈ fs, ¬f.Throws) (hin : ∃ f ∈ fs, f.Accepted) :
    ∃ w ∈ t.windows, w.bytes = 0 ∧ 0 < w.held := by
  induction fs generalizing i s with
  | nil =>
    obtain ⟨f, hf, -⟩ := hin
    exact absurd hf List.not_mem_nil
  | cons f fs ih =>
    simp only [admitFiles, look, hc, Bool.false_eq_true, if_false] at hrun
    obtain ⟨⟨c, u⟩, hroom, hrun⟩ := Option.bind_eq_some_iff.mp hrun
    obtain ⟨rfl, rfl⟩ := makeRoom_empty (show ({ s with looks := s.looks + 1 } : Worker ν).window = {} from hw) hroom
    obtain ⟨hf, hfs⟩ := List.forall_mem_cons.mp hthrows
    simp only [Bool.false_eq_true, if_false, submitFile_eq, hf] at hrun
    split_ifs at hrun with haccepted
    · refine ⟨_, windows_admitFiles hrun (List.mem_append_right _ List.mem_cons_self), ?_, ?_⟩
      · rw [hw]
      · have hpos := haccepted.2.1
        rw [hw, FileWindow.held, List.nil_append, List.map_singleton, List.sum_singleton,
          PickedFile.pending, length_data]
        omega
    · obtain ⟨g, hg, hgin⟩ := hin
      rcases List.mem_cons.mp hg with rfl | hg
      · exact absurd hgin haccepted
      · refine ih ?_ hrun hfs ⟨g, hg, hgin⟩
        exact hw

/-- Where every file is refused there is never a window. -/
theorem windows_of_refused {fs : List PickedFile} (hc : ∀ k, E.cancel k = false)
    (hw : s.window = {}) (hrun : admitFiles E turns i fs s = some (b, t))
    (hout : ∀ f ∈ fs, f.Refused) : t.windows = s.windows ∧ t.window = {} := by
  induction fs generalizing i s with
  | nil =>
    obtain ⟨-, rfl⟩ := Prod.mk.inj (Option.some.inj hrun)
    exact ⟨rfl, hw⟩
  | cons f fs ih =>
    obtain ⟨⟨hthrows, hf⟩, hfs⟩ := List.forall_mem_cons.mp hout
    simp only [admitFiles, look, hc, Bool.false_eq_true, if_false] at hrun
    obtain ⟨⟨c, u⟩, hroom, hrun⟩ := Option.bind_eq_some_iff.mp hrun
    obtain ⟨rfl, rfl⟩ := makeRoom_empty (show ({ s with looks := s.looks + 1 } : Worker ν).window = {} from hw) hroom
    simp only [Bool.false_eq_true, if_false, submitFile_eq, hthrows, hf] at hrun
    have hw' : ({ s with
      looks := s.looks + 1, tried := s.tried + 1, skipped := s.skipped + 1, done := i + 1 } :
        Worker ν).window = {} := hw
    have hrest := ih hw' hrun hfs
    exact hrest

/-- Where no file that is let in comes after one that is refused, nothing is left in a window that the
draining has stopped at. -/
theorem files_eq_nil_of_noLateFile (hlate : NoLateFile E) (h : Inv E E.files.length s)
    (hstop : s.window.nextToStage = E.files.length ∨ pending? E s.window.nextToStage = none) :
    s.window.files = [] := by
  rw [h.files, List.filterMap_eq_nil_iff]
  intro j hj
  obtain ⟨hle, hlt⟩ := List.mem_range'_1.mp hj
  have hnone := hstop.resolve_left (by omega)
  rcases hle.eq_or_lt with heq | hlt'
  · rw [← heq, hnone]
  · exact hlate _ _ hlt' hnone

/-- The test of a file has thrown: this file, at least, is in no count. -/
structure Thrown (E : Task τ ν) (s : Worker ν) : Prop where
  failed : s.failed = true
  uncounted : s.posted.length + s.skipped < s.tried
  tried : s.tried ≤ E.files.length

section Uncancelled

variable (hc : ∀ k, E.cancel k = false)

include hc

/-- **One file staged.** It leaves the window, and the cursor moves on whatever comes of it. -/
theorem exists_drainFiles_cons (rest : List PendingFile)
    (hnext : pf.index = s.window.nextToStage) (hf : E.files[pf.index]? = some f) :
    ∃ t : Worker ν, drainFiles E (pf :: rest) s = drainFiles E rest t ∧
      t.window.files = rest ∧ t.window.nextToStage = s.window.nextToStage + 1 ∧
      t.posted = s.posted ++ ((stage E pf f).map fun node ↦ (pf.index, node)).toList ∧
      t.skipped = s.skipped ∧ t.tried = s.tried ∧ t.failed = s.failed := by
  rw [drainFiles, if_neg (not_not.mpr hnext)]
  simp only [look, hc, Bool.false_eq_true, if_false, hf, stageFile]
  rcases stage E pf f with _ | node
  · exact ⟨_, rfl, rfl, rfl, (List.append_nil _).symm, rfl, rfl, rfl⟩
  · simp only [postRecord, look, hc, Bool.false_eq_true, if_false]
    exact ⟨_, rfl, rfl, rfl, rfl, rfl, rfl, rfl⟩

/-- **Draining.** It stops at the end of the files looked at, or at one that was refused. -/
theorem inv_drainFiles {files : List PendingFile} (h : Inv E i s) (hfiles : files = s.window.files) :
    Inv E i (drainFiles E files s) ∧
      ((drainFiles E files s).window.nextToStage = i ∨
        pending? E (drainFiles E files s).window.nextToStage = none) := by
  induction files generalizing s with
  | nil =>
    refine ⟨h, ?_⟩
    rw [drainFiles]
    rcases h.next.eq_or_lt with heq | hlt
    · exact .inl heq
    obtain ⟨k, hk⟩ : ∃ k, i - s.window.nextToStage = k + 1 := ⟨i - s.window.nextToStage - 1, by omega⟩
    rw [h.files, hk, List.range'_succ] at hfiles
    rcases hp : pending? E s.window.nextToStage with _ | pf
    · exact .inr rfl
    · rw [List.filterMap_cons_some hp] at hfiles
      exact nomatch hfiles
  | cons pf rest ih =>
    have hlt : s.window.nextToStage < i := by
      by_contra hge
      have hzero : i - s.window.nextToStage = 0 := by omega
      rw [h.files, hzero] at hfiles
      exact nomatch hfiles
    obtain ⟨k, hk⟩ : ∃ k, i - s.window.nextToStage = k + 1 := ⟨i - s.window.nextToStage - 1, by omega⟩
    rw [h.files, hk, List.range'_succ] at hfiles
    rcases hp : pending? E s.window.nextToStage with _ | q
    · -- The file under the cursor was refused: what is at the front comes after it.
      rw [List.filterMap_cons_none hp] at hfiles
      have hmem : pf ∈ (List.range' (s.window.nextToStage + 1) k).filterMap (pending? E) :=
        hfiles ▸ List.mem_cons_self
      obtain ⟨j, hj, hpf⟩ := List.mem_filterMap.mp hmem
      have hle := (List.mem_range'_1.mp hj).1
      have hne : pf.index ≠ s.window.nextToStage := by
        rw [(index_of_pending?_eq_some hpf).1]
        omega
      rw [drainFiles, if_pos hne]
      exact ⟨h, .inr hp⟩
    · rw [List.filterMap_cons_some hp] at hfiles
      obtain ⟨rfl, hrest⟩ := List.cons.inj hfiles
      obtain ⟨hindex, f, hf, -, hpf⟩ := index_of_pending?_eq_some hp
      obtain ⟨t, hdrain, hfiles', hnext, hposted, hskipped, htried, hfailed⟩ :=
        exists_drainFiles_cons hc rest hindex (hindex.symm ▸ hf)
      have hout : stage E pf f = outcome E s.window.nextToStage := by
        rw [outcome, hf, Option.bind_some, ← hpf]
      have ht : Inv E i t := by
        refine ⟨?_, ?_, ?_, ?_, hskipped.trans h.skipped, htried.trans h.tried,
          hfailed.trans h.failed⟩
        · rw [hfiles', hrest, hnext]
          congr 2
          omega
        · omega
        · intro j hj
          rcases Nat.lt_succ_iff_lt_or_eq.mp (hnext ▸ hj) with hj | rfl
          · exact h.passed j hj
          · rw [hp]
            exact Option.some_ne_none _
        · rw [hposted, h.posted, hnext, List.range_succ, List.filterMap_append, hout, hindex,
            List.filterMap_cons, List.filterMap_nil]
          rcases outcome E s.window.nextToStage with _ | node <;> rfl
      rw [hdrain]
      exact ih ht hfiles'.symm

theorem inv_makeRoom (h : Inv E i s) (hrun : Loop.run (makeRoom E) turns s = some (b, t)) :
    b = false ∧ Inv E i t := by
  refine Loop.of_run (I := Inv E i) (Q := fun out : Bool × Worker ν ↦ out.1 = false ∧ Inv E i out.2)
    (fun u u' hu hbody ↦ ?_) (fun u out hu hbody ↦ ?_) h hrun
  all_goals
    have hdrain := (inv_drainFiles hc hu rfl).1
    rw [makeRoom] at hbody
    simp only [look, hc, Bool.false_eq_true, if_false] at hbody
    split_ifs at hbody
  · obtain rfl := Sum.inl.inj hbody
    exact hdrain.look
  · obtain rfl := Sum.inr.inj hbody
    exact ⟨rfl, hdrain⟩
  · obtain rfl := Sum.inr.inj hbody
    exact ⟨rfl, hu⟩

theorem ends_makeRoom (s : Worker ν) : Loop.Ends (makeRoom E) s := by
  refine Loop.ends_of_measure (I := fun _ ↦ True) (fun u ↦ u.window.files.length)
    (fun u u' _ hbody ↦ ⟨trivial, ?_⟩) trivial
  rw [makeRoom] at hbody
  simp only [look, hc, Bool.false_eq_true, if_false] at hbody
  split_ifs at hbody with hfull hsame
  obtain rfl := Sum.inl.inj hbody
  refine (window_drainFiles u.window.files u).resolve_left fun heq ↦ hsame ?_
  rw [heq]
  exact ⟨rfl, rfl⟩

theorem inv_admitFiles {fs : List PickedFile} (h : Inv E i s) (hfs : E.files.drop i = fs)
    (hi : i ≤ E.files.length) (hrun : admitFiles E turns i fs s = some (b, t)) :
    b = false ∧ Inv E E.files.length t ∧ (∀ f ∈ fs, ¬f.Throws) ∨
      b = true ∧ Thrown E t ∧ ∃ f ∈ fs, f.Throws := by
  induction fs generalizing i s with
  | nil =>
    obtain ⟨rfl, rfl⟩ := Prod.mk.inj (Option.some.inj hrun)
    have hlen := List.drop_eq_nil_iff.mp hfs
    exact .inl ⟨rfl, le_antisymm hi hlen ▸ h, nofun⟩
  | cons f fs ih =>
    have hf : E.files[i]? = some f := by
      rw [← List.head?_drop, hfs, List.head?_cons]
    have hfs' : E.files.drop (i + 1) = fs := by
      rw [← List.tail_drop, hfs, List.tail_cons]
    have hlt : i < E.files.length := (List.getElem?_eq_some_iff.mp hf).1
    simp only [admitFiles, look, hc, Bool.false_eq_true, if_false] at hrun
    obtain ⟨⟨c, u⟩, hroom, hrun⟩ := Option.bind_eq_some_iff.mp hrun
    obtain ⟨rfl, hu⟩ := inv_makeRoom hc h.look hroom
    obtain ⟨haccepted, hrefused⟩ := inv_submitFile hu hf
    simp only [Bool.false_eq_true, if_false, submitFile_eq] at hrun
    split_ifs at hrun with hthrows hin
    · obtain ⟨rfl, rfl⟩ := Prod.mk.inj (Option.some.inj hrun)
      have hcounted := hu.counted_le
      have htried := hu.tried
      refine .inr ⟨rfl, ⟨rfl, ?_, ?_⟩, f, List.mem_cons_self, hthrows⟩
      · dsimp only
        omega
      · dsimp only
        omega
    · rcases ih (haccepted hin) hfs' hlt hrun with ⟨hb, ht, hnone⟩ | ⟨hb, ht, g, hg, hthrown⟩
      · exact .inl ⟨hb, ht, List.forall_mem_cons.mpr ⟨hthrows, hnone⟩⟩
      · exact .inr ⟨hb, ht, g, List.mem_cons_of_mem _ hg, hthrown⟩
    · rcases ih (hrefused hin) hfs' hlt hrun with ⟨hb, ht, hnone⟩ | ⟨hb, ht, g, hg, hthrown⟩
      · exact .inl ⟨hb, ht, List.forall_mem_cons.mpr ⟨hthrows, hnone⟩⟩
      · exact .inr ⟨hb, ht, g, List.mem_cons_of_mem _ hg, hthrown⟩

theorem exists_admitFiles (fs : List PickedFile) (i : ℕ) (s : Worker ν) :
    ∃ turns out, admitFiles E turns i fs s = some out := by
  induction fs generalizing i s with
  | nil => exact ⟨0, _, rfl⟩
  | cons f fs ih =>
    obtain ⟨n, ⟨c, u⟩, hroom⟩ := ends_makeRoom hc { s with looks := s.looks + 1 }
    rcases c with _ | _
    · -- The bound has to do for the loop here and for all that come after it.
      obtain ⟨m, out, hrest⟩ : ∃ m out, (match submitFile i f u.window with
          | .accepted window =>
            admitFiles E m (i + 1) fs ({ u with tried := u.tried + 1 }.setWindow window)
          | .refused => admitFiles E m (i + 1) fs
            { u with tried := u.tried + 1, skipped := u.skipped + 1, done := i + 1 }
          | .threw => some (true, { u with tried := u.tried + 1, failed := true })) = some out := by
        rcases submitFile i f u.window with w | _ | _
        · exact ih _ _
        · exact ih _ _
        · exact ⟨0, _, rfl⟩
      refine ⟨max n m, out, ?_⟩
      simp only [admitFiles, look, hc, Bool.false_eq_true, if_false]
      refine Option.bind_eq_some_iff.mpr ⟨_, Loop.run_mono hroom (le_max_left n m), ?_⟩
      dsimp only
      rw [if_neg Bool.false_ne_true]
      rcases hsubmit : submitFile i f u.window with w | _ | _
      all_goals rw [hsubmit] at hrest
      · exact admitFiles_mono hrest (le_max_right n m)
      · exact admitFiles_mono hrest (le_max_right n m)
      · exact hrest
    · refine ⟨n, (true, u), ?_⟩
      simp only [admitFiles, look, hc, Bool.false_eq_true, if_false]
      exact Option.bind_eq_some_iff.mpr ⟨_, hroom, rfl⟩

theorem inv_drainRest (h : Inv E E.files.length s) (hrun : Loop.run (drainRest E) turns s = some t) :
    Inv E E.files.length t ∧ t.window.files = [] := by
  refine Loop.of_run (I := Inv E E.files.length)
    (Q := fun t : Worker ν ↦ Inv E E.files.length t ∧ t.window.files = [])
    (fun u u' hu hbody ↦ ?_) (fun u out hu hbody ↦ ?_) h hrun
  all_goals
    rw [drainRest] at hbody
    simp only [look, hc, Bool.false_eq_true, if_false] at hbody
    split_ifs at hbody with hempty
  · exact Sum.inl.inj hbody ▸ (inv_drainFiles hc hu.look rfl).1
  · exact Sum.inr.inj hbody ▸ ⟨hu, List.isEmpty_iff.mp hempty⟩

/-- The whole task, when it ends: a test has thrown, or the window is empty, so that the cursor is past
all files let in. -/
theorem inv_processFilesTask (hrun : processFilesTask E turns = some t) :
    (Inv E E.files.length t ∧ t.window.files = [] ∧ ∀ f ∈ E.files, ¬f.Throws) ∨
      Thrown E t ∧ ∃ f ∈ E.files, f.Throws := by
  obtain ⟨⟨c, u⟩, hadmit, hrest⟩ := Option.bind_eq_some_iff.mp hrun
  rcases inv_admitFiles hc inv_start (List.drop_zero) (Nat.zero_le _) hadmit with
    ⟨rfl, hu, hnone⟩ | ⟨rfl, ht, hthrows⟩
  · obtain ⟨ht, hempty⟩ := inv_drainRest hc hu hrest
    exact .inl ⟨ht, hempty, hnone⟩
  · obtain rfl := Option.some.inj hrest
    exact .inr ⟨ht, hthrows⟩

theorem ends_drainRest (hlate : NoLateFile E) (h : Inv E E.files.length s) :
    Loop.Ends (drainRest E) s := by
  refine Loop.ends_of_measure (I := Inv E E.files.length) (fun v ↦ v.window.files.length)
    (fun v v' hv hbody ↦ ?_) h
  rw [drainRest] at hbody
  simp only [look, hc, Bool.false_eq_true, if_false] at hbody
  split_ifs at hbody with hnil
  obtain rfl := Sum.inl.inj hbody
  obtain ⟨hdrained, hstop⟩ := inv_drainFiles hc hv.look rfl
  refine ⟨hdrained, ?_⟩
  refine (congrArg List.length (files_eq_nil_of_noLateFile hlate hdrained hstop)).trans_lt ?_
  rw [List.length_nil, List.length_pos_iff]
  exact fun hv ↦ hnil (List.isEmpty_iff.mpr hv)

/-- **Termination.** The task ends if and only if a test throws, or no file that is let in comes after
one that is refused. -/
theorem ends_iff :
    (∃ turns s, processFilesTask E turns = some s) ↔ NoLateFile E ∨ ∃ f ∈ E.files, f.Throws := by
  constructor
  · rintro ⟨turns, s, hrun⟩
    rcases inv_processFilesTask hc hrun with ⟨h, hempty, -⟩ | ⟨-, hthrows⟩
    · refine .inl fun i j hij hi ↦ ?_
      by_contra hj
      obtain ⟨pf, hpf⟩ := Option.ne_none_iff_exists'.mp hj
      -- The cursor stops at the refused file at the latest, so the later one is still in the window.
      have hnext : s.window.nextToStage ≤ i := by
        by_contra hlt
        exact h.passed i (not_le.mp hlt) hi
      have hlen : j < E.files.length := by
        obtain ⟨-, f, hf, -⟩ := index_of_pending?_eq_some hpf
        exact (List.getElem?_eq_some_iff.mp hf).1
      have hmem : pf ∈ s.window.files := by
        rw [h.files, List.mem_filterMap]
        exact ⟨j, List.mem_range'_1.mpr (by omega), hpf⟩
      rw [hempty] at hmem
      exact absurd hmem List.not_mem_nil
    · exact .inr hthrows
  · intro hends
    obtain ⟨n, ⟨c, u⟩, hadmit⟩ := exists_admitFiles hc E.files 0 ({} : Worker ν)
    rcases inv_admitFiles hc inv_start (List.drop_zero) (Nat.zero_le _) hadmit with
      ⟨rfl, hu, hnone⟩ | ⟨rfl, -⟩
    · have hlate := hends.resolve_right fun ⟨f, hf, hthrows⟩ ↦ hnone f hf hthrows
      obtain ⟨m, t, hrest⟩ := ends_drainRest hc hlate hu
      refine ⟨max n m, t, Option.bind_eq_some_iff.mpr
        ⟨_, admitFiles_mono hadmit (le_max_left n m), ?_⟩⟩
      exact Loop.run_mono hrest (le_max_right n m)
    · exact ⟨n, u, Option.bind_eq_some_iff.mpr ⟨_, hadmit, rfl⟩⟩

/-- **The count.** A task that ends has tried every file and counted it just when no test has thrown and
staging never failed; and the test that threw is the last one tried. -/
theorem counted_iff (hrun : processFilesTask E turns = some s) :
    (s.posted.length + s.skipped = s.tried ↔
      (∀ f ∈ E.files, ¬f.Throws) ∧ ∀ i, (pending? E i).isSome → (outcome E i).isSome) ∧
    s.tried ≤ E.files.length ∧ ((∀ f ∈ E.files, ¬f.Throws) → s.tried = E.files.length) := by
  rcases inv_processFilesTask hc hrun with ⟨h, hempty, hnone⟩ | ⟨ht, f, hf, hthrows⟩
  · refine ⟨?_, h.tried.le, fun _ ↦ h.tried⟩
    rw [and_iff_right hnone, h.tried]
    set n := s.window.nextToStage
    have hlater (j : ℕ) (hj : n ≤ j) : pending? E j = none := by
      rcases lt_or_ge j E.files.length with hlt | hge
      · rw [h.files, List.filterMap_eq_nil_iff] at hempty
        exact hempty j (List.mem_range'_1.mpr (by omega))
      · rw [pending?, List.getElem?_eq_none hge, Option.bind_none]
    have hskipped : s.skipped = E.files.length - n := by
      rw [h.skipped_eq, List.filter_eq_self.mpr, List.length_range']
      intro j hj
      rw [hlater j (List.mem_range'_1.mp hj).1]
      rfl
    have hn : n ≤ E.files.length := h.next
    obtain ⟨hposted, hall⟩ := h.posted_le
    rw [hskipped]
    constructor
    · intro hsum i hi
      have hin : i < n := by
        by_contra hge
        rw [hlater i (not_lt.mp hge)] at hi
        exact Bool.false_ne_true hi
      exact hall.mp (by omega) i hin
    · intro hstaged
      have heq := hall.mpr fun j hj ↦ hstaged j (Option.isSome_iff_ne_none.mpr (h.passed j hj))
      omega
  · refine ⟨iff_of_false ht.uncounted.ne fun hall ↦ hall.1 f hf hthrows, ht.tried,
      fun hnone ↦ absurd hthrows (hnone f hf)⟩

theorem counted_files_iff (hrun : processFilesTask E turns = some s) :
    s.posted.length + s.skipped = E.files.length ↔
      (∀ f ∈ E.files, ¬f.Throws) ∧ ∀ i, (pending? E i).isSome → (outcome E i).isSome := by
  obtain ⟨hcounted, hle, htried⟩ := counted_iff hc hrun
  rw [← hcounted]
  constructor
  · intro hlen
    rcases inv_processFilesTask hc hrun with ⟨h, -⟩ | ⟨ht, -⟩
    · rw [hlen, h.tried]
    · have hlt := ht.uncounted
      omega
  · intro htotal
    rw [htotal]
    exact htried (hcounted.mp htotal).1

/-- **Failure.** A task that ends has failed just when a test has thrown. -/
theorem failed_iff (hrun : processFilesTask E turns = some s) :
    s.failed = true ↔ ∃ f ∈ E.files, f.Throws := by
  rcases inv_processFilesTask hc hrun with ⟨h, -, hnone⟩ | ⟨ht, hthrows⟩
  · rw [h.failed]
    exact iff_of_false Bool.false_ne_true fun ⟨f, hf, hthrows⟩ ↦ hnone f hf hthrows
  · exact iff_of_true ht.failed hthrows

/-- Where the counts are right no test has thrown and no file was let in. -/
theorem refused_of_settled (hrun : processFilesTask E turns = some s) (hs : Settled E s) :
    ∀ f ∈ E.files, f.Refused := by
  have hnone := ((counted_files_iff hc hrun).mp hs.counted).1
  refine fun f hf ↦ ⟨hnone f hf, fun haccepted ↦ ?_⟩
  obtain ⟨⟨c, u⟩, hadmit, hrest⟩ := Option.bind_eq_some_iff.mp hrun
  obtain ⟨w, hw, hzero, hheld⟩ := exists_wrong_window hc rfl hadmit hnone ⟨f, hf, haccepted⟩
  have hsub : u.windows ⊆ s.windows := by
    rcases c with _ | _
    · exact windows_drainRest hrest
    · obtain rfl := Option.some.inj hrest
      exact List.Subset.refl _
  have hbytes := hs.bytes w (hsub hw)
  rw [hzero] at hbytes
  exact absurd hbytes hheld.ne

/-- Where every file is refused the task ends and has nothing to settle. -/
theorem exists_settled_of_refused (hout : ∀ f ∈ E.files, f.Refused) :
    ∃ turns s, processFilesTask E turns = some s ∧ Settled E s := by
  have hnone (i : ℕ) : pending? E i = none := by
    rw [pending?, Option.bind_eq_none_iff]
    intro f hf
    rw [if_neg (hout f (List.mem_of_getElem? hf)).2]
  have hthrows : ∀ f ∈ E.files, ¬f.Throws := fun f hf ↦ (hout f hf).1
  obtain ⟨turns, s, hrun⟩ := (ends_iff hc).mpr (.inl fun _ j _ _ ↦ hnone j)
  rcases inv_processFilesTask hc hrun with ⟨h, -⟩ | ⟨-, f, hf, hthrown⟩
  · have hcount := (counted_files_iff hc hrun).mpr
      ⟨hthrows, fun i hi ↦ absurd hi (by rw [hnone i]; exact nofun)⟩
    have hnext : s.window.nextToStage = 0 := by
      by_contra hne
      exact h.passed 0 (Nat.pos_of_ne_zero hne) (hnone 0)
    have hposted : s.posted = [] := by
      rw [h.posted, hnext]
      rfl
    have hwindows : s.windows = [] := by
      obtain ⟨⟨c, u⟩, hadmit, hrest⟩ := Option.bind_eq_some_iff.mp hrun
      obtain ⟨hwindows, hwindow⟩ := windows_of_refused hc rfl hadmit hout
      rcases c with _ | _
      · have hbody : drainRest E u = .inr u := by
          rw [drainRest, hwindow]
          rfl
        rw [Loop.run_unique hrest (Loop.run_of_inr hbody : Loop.run (drainRest E) 1 u = _), hwindows]
      · obtain rfl := Option.some.inj hrest
        exact hwindows
    refine ⟨turns, s, hrun, ?_, ?_, hcount, ?_, ?_⟩
    · rw [hposted]
      exact .nil
    · intro i node
      rw [hposted, hnone i]
      exact ⟨nofun, fun hi ↦ nomatch hi.1⟩
    · rw [hwindows]
      exact nofun
    · rw [hwindows]
      exact nofun
  · exact absurd hthrown (hthrows f hf)

/-- **The loop over the files.** It does what it is for only where it has nothing to do: one file that
is let in makes the count of bytes wrong, and one whose test throws is in no count. It ends just when a
test throws or no file that is let in comes after one that is refused; then it has counted every file
just when no test has thrown and staging never failed, and it has failed just when a test has thrown. -/
theorem settled_iff :
    ((∃ turns s, processFilesTask E turns = some s ∧ Settled E s) ↔ ∀ f ∈ E.files, f.Refused) ∧
    ((∃ turns s, processFilesTask E turns = some s) ↔
      NoLateFile E ∨ ∃ f ∈ E.files, f.Throws) ∧
    ∀ turns s, processFilesTask E turns = some s →
      (s.posted.length + s.skipped = E.files.length ↔
        (∀ f ∈ E.files, ¬f.Throws) ∧ ∀ i, (pending? E i).isSome → (outcome E i).isSome) ∧
      (s.failed = true ↔ ∃ f ∈ E.files, f.Throws) := by
  refine ⟨⟨?_, exists_settled_of_refused hc⟩, ends_iff hc, fun turns s hrun ↦ ?_⟩
  · rintro ⟨turns, s, hrun, hs⟩
    exact refused_of_settled hc hrun hs
  · exact ⟨counted_files_iff hc hrun, failed_iff hc hrun⟩

end Uncancelled

/-- A task with a file that is missing and a small PNG after it, in this order or the other. -/
def twoFiles (files : List PickedFile) : Task Unit Unit where
  files := files
  decoded _ := none
  detectFormat _ := true
  stageImage _ _ _ _ := some ()
  stageVideo _ _ _ := none

def missing : PickedFile := { name := ascii "a.png", regular := .other, size := -1, content := [] }

def small : PickedFile := { name := ascii "b.png", size := 4, content := [0x89, 0x50, 0x4e, 0x47] }

/-- A task whose only file is missing settles it. -/
theorem settled_iff_missing :
    ∃ turns s, processFilesTask (twoFiles [missing]) turns = some s ∧
      Settled (twoFiles [missing]) s :=
  (settled_iff (E := twoFiles [missing]) fun _ ↦ rfl).1.mpr (by decide)

/-- A missing file and a good one after it: the loop does not end. Alone the good file is staged, and
the count of the window goes from `0` to what `-4` is in 64 bits. -/
theorem not_settled_of_missing :
    (∀ turns, processFilesTask (twoFiles [missing, small]) turns = none) ∧
      (processFilesTask (twoFiles [small]) 2).map (fun s ↦ s.windows.map (·.bytes)) =
        some [0, 0 - 4] ∧
      ¬∃ turns s, processFilesTask (twoFiles [small]) turns = some s ∧
        Settled (twoFiles [small]) s := by
  refine ⟨fun turns ↦ ?_, by decide +kernel, fun hsettled ↦ ?_⟩
  · rw [Option.eq_none_iff_forall_ne_some]
    intro s hrun
    rcases (ends_iff (E := twoFiles [missing, small]) fun _ ↦ rfl).mp ⟨turns, s, hrun⟩ with
      hlate | hthrows
    · exact absurd (hlate 0 1 (by decide) rfl) nofun
    · exact absurd hthrows (by decide)
  · obtain ⟨turns, s, hrun, hs⟩ := hsettled
    exact (refused_of_settled (E := twoFiles [small]) (fun _ ↦ rfl) hrun hs small
      (List.mem_singleton_self _)).2 (by decide)

end FilesTask

end SafeVault
