import SafeVault.Lib.History
import SafeVault.V3.Session

/-!
# Staged objects reach the database

Importing publishes object files on workers while the tree is edited elsewhere, so objects are staged
before, after and without their node being in a committed tree. The history of a session says what
was staged, which trees were committed and when the session was locked; the object that is *pending*
for a pair is the one staged last since the last commit that had its node. The session keeps the
pending objects in a list, from which a commit takes them, and in an index, from which they are read;
the invariant is that both agree with the history.
-/

namespace SafeVault

namespace V3

/-! ## What a session went through -/

inductive Event
  | staged (info : ObjectInfo)
  /-- A commit succeeded with a tree of these nodes. -/
  | committed (live : List NodeId)
  | failed
  | locked

/-- The pending objects after one more event. -/
def pendingAfter (pending : ObjectIndex) : Event → ObjectIndex
  | .staged info => fun key ↦ if key = info.key then some info else pending key
  | .committed live => fun key ↦ if key.1 ∈ live then none else pending key
  | .failed => pending
  | .locked => fun _ ↦ none

/-- The object that waits for its node, for each pair. -/
def pending (log : List Event) : ObjectIndex := log.foldl pendingAfter fun _ ↦ none

theorem pending_concat (log : List Event) (e : Event) :
    pending (log ++ [e]) = pendingAfter (pending log) e := by
  rw [pending, List.foldl_append, List.foldl_cons, List.foldl_nil, pending]

@[simp] theorem pending_staged (log : List Event) (info : ObjectInfo) (key : ObjectKey) :
    pending (log ++ [.staged info]) key = if key = info.key then some info else pending log key := by
  rw [pending_concat, pendingAfter]

@[simp] theorem pending_committed (log : List Event) (live : List NodeId) (key : ObjectKey) :
    pending (log ++ [.committed live]) key = if key.1 ∈ live then none else pending log key := by
  rw [pending_concat, pendingAfter]

@[simp] theorem pending_failed (log : List Event) : pending (log ++ [.failed]) = pending log := by
  rw [pending_concat, pendingAfter]

@[simp] theorem pending_locked (log : List Event) :
    pending (log ++ [.locked]) = fun _ ↦ none := by
  rw [pending_concat, pendingAfter]

/-- A session and its history. -/
structure World where
  session : ReadSession
  log : List Event := []

/-- A call on the session, with what the outside world answers to it. -/
inductive Call
  | stageObject (info : ObjectInfo) (written : Bool)
  | commitMetadata (status : Phase → DbStatus) (references : DbStatus) (root : IndexNode)
      (settings : VaultSettings) (searches : List SavedSearch)
  | lock
  | unlock (status : ReadStatus) (settings : VaultSettings)

variable (nocase : Bytes → Bytes → Bool)

/-- A call is always possible. -/
def call (w : World) : Call → Option World
  | .stageObject info written =>
    let (r, session) := w.session.stageObject info written
    some ⟨session, w.log ++ if r = .ok then [.staged info] else []⟩
  | .commitMetadata status references root settings searches =>
    let (r, session) := w.session.commitMetadata nocase status references root settings searches
    some ⟨session, w.log ++ [if r = .ok then .committed (liveNodes root) else .failed]⟩
  | .lock => some ⟨w.session.lock, w.log ++ [.locked]⟩
  | .unlock status settings => some ⟨(w.session.unlock status settings).2, w.log⟩

/-- A session that is locked, on some database. -/
def closed (vaultId : NodeId) (db : Database) : World where
  session :=
    { vaultId
      unlocked := false
      db
      root := .gallery []
      settings := {}
      searches := []
      objects := []
      objectIndex := fun _ ↦ none }

/-! ## The invariant -/

variable {nocase} {w w' : World} {c : Call} {info : ObjectInfo} {key : ObjectKey}

@[simp] theorem key_record : info.record.key = info.key := rfl

/-- The list and the index of staged objects hold what is pending. -/
structure Inv (w : World) : Prop where
  index : ∀ key, w.session.stagedIndex key = pending w.log key
  list : ∀ key, lastStaged w.session.stagedObjects key = (pending w.log key).map (·.record)
  own : ∀ key info, pending w.log key = some info → info.key = key
  idle : w.session.unlocked = false → w.session.stagedObjects = [] ∧ ∀ key, pending w.log key = none
  apart : Apart w.session.db.objects

theorem inv_closed {vaultId : NodeId} {db : Database} (h : Apart db.objects) :
    Inv (closed vaultId db) where
  index _ := rfl
  list _ := rfl
  own _ _ hp := nomatch hp
  idle _ := ⟨rfl, fun _ ↦ rfl⟩
  apart := h

/-- What has its owner in a tree is taken out of the list for all pairs of that owner. -/
theorem lastStaged_filter {staged : List ObjectRecord} {live : List NodeId} :
    lastStaged (staged.filter (·.nodeId ∉ live)) key =
      if key.1 ∈ live then none else lastStaged staged key := by
  rw [lastStaged, List.filter_filter]
  split_ifs with hkey
  · rw [List.filter_eq_nil_iff.mpr, List.getLast?_nil]
    intro r _ hr
    rw [Bool.and_eq_true, decide_eq_true_iff, decide_eq_true_iff] at hr
    rw [← hr.1] at hkey
    exact hr.2 hkey
  · rw [lastStaged]
    congr 1
    refine List.filter_congr fun r _ ↦ ?_
    rw [Bool.eq_iff_iff, Bool.and_eq_true, decide_eq_true_iff, decide_eq_true_iff]
    constructor
    · exact fun h ↦ h.1
    · rintro rfl
      exact ⟨rfl, hkey⟩

/-- A call that fails leaves everything staged where it is, whatever it did to the database. -/
theorem Inv.failed {s : ReadSession} (h : Inv w)
    (hindex : s.stagedIndex = w.session.stagedIndex)
    (hlist : s.stagedObjects = w.session.stagedObjects) (hunlocked : s.unlocked = w.session.unlocked)
    (hapart : Apart s.db.objects) : Inv ⟨s, w.log ++ [.failed]⟩ where
  index key := by
    rw [hindex, pending_failed]
    exact h.index key
  list key := by
    rw [hlist, pending_failed]
    exact h.list key
  own := by
    rw [pending_failed]
    exact h.own
  idle hs := by
    rw [hlist, pending_failed]
    exact h.idle (hunlocked ▸ hs)
  apart := hapart

theorem inv_stageObject {written : Bool} (h : Inv w) :
    Inv ⟨(w.session.stageObject info written).2,
      w.log ++ if (w.session.stageObject info written).1 = .ok then [.staged info] else []⟩ := by
  rw [ReadSession.stageObject]
  by_cases hfail : (!w.session.unlocked || !written) = true
  · rw [if_pos hfail]
    simpa using h
  · rw [if_neg hfail, if_pos rfl]
    have hopen : w.session.unlocked = true := by
      rw [Bool.or_eq_true, not_or, Bool.not_eq_true', Bool.not_eq_false] at hfail
      exact hfail.1
    refine ⟨fun key ↦ ?_, fun key ↦ ?_, fun key info' hp ↦ ?_, fun hs ↦ ?_, h.apart⟩
    · rw [pending_staged, ← h.index]
    · rw [pending_staged, lastStaged_concat, key_record]
      by_cases hkey : key = info.key
      · rw [if_pos hkey.symm, if_pos hkey, Option.map_some]
      · rw [if_neg (Ne.symm hkey), if_neg hkey]
        exact h.list key
    · rw [pending_staged] at hp
      split_ifs at hp with hkey
      · cases hp
        exact hkey.symm
      · exact h.own key info' hp
    · rw [hopen] at hs
      cases hs

/-- A commit takes out what had its owner in the tree. -/
theorem inv_rebuild {s : ReadSession} (h : Inv w) (hindex : s.stagedIndex = w.session.stagedIndex)
    (hlist : s.stagedObjects = w.session.stagedObjects) (hopen : s.unlocked = true)
    (hapart : Apart s.db.objects) : Inv ⟨s.rebuild, w.log ++ [.committed (liveNodes s.root)]⟩ := by
  refine ⟨fun key ↦ ?_, fun key ↦ ?_, fun key info hp ↦ ?_, fun hs ↦ ?_, hapart⟩
  · rw [pending_committed, ← h.index, ← hindex, ReadSession.rebuild]
  · rw [pending_committed, ReadSession.rebuild, lastStaged_filter, hlist]
    split_ifs with hkey
    · rw [Option.map_none]
    · exact h.list key
  · rw [pending_committed] at hp
    split_ifs at hp
    exact h.own key info hp
  · rw [ReadSession.rebuild, hopen] at hs
    cases hs

variable {status : Phase → DbStatus} {references : DbStatus} {root : IndexNode}
  {settings : VaultSettings} {searches : List SavedSearch}

/-- A commit that fails leaves the staged objects alone, one that succeeds takes out of them what has
its owner in the tree. -/
theorem stagedObjects_of_commitMetadata (s : ReadSession) :
    let out := s.commitMetadata nocase status references root settings searches
    (out.1 ≠ .ok ∧ out.2.stagedIndex = s.stagedIndex ∧ out.2.stagedObjects = s.stagedObjects ∧
      out.2.unlocked = s.unlocked ∧ (Apart s.db.objects → Apart out.2.db.objects)) ∨
    (out.1 = .ok ∧ s.unlocked = true ∧ ∃ db,
      syncObjects (s.db.metadata.settings.appGeneration + 1) (liveNodes root) s.stagedObjects
        s.db.objects = .ok db.objects ∧
      out.2 = ReadSession.rebuild
        { s with db, root, settings, searches, objects := db.objects }) := by
  intro out
  rcases commitMetadata_cases nocase status references root settings searches s with
    ⟨hr, hout, -⟩ | ⟨hr, -, db, hsync, hout⟩ | ⟨hr, hopen, -, db, hsync, hout⟩
  · refine .inl ⟨hr, ?_⟩
    rw [show out.2 = s from hout]
    exact ⟨rfl, rfl, rfl, id⟩
  · refine .inl ⟨hr, ?_⟩
    rw [show out.2 = _ from hout]
    exact ⟨rfl, rfl, rfl, fun h ↦ apart_syncObjects h (objects_of_syncMetadata hsync)⟩
  · exact .inr ⟨hr, hopen, db, objects_of_syncMetadata hsync, hout⟩

theorem call_commitMetadata :
    call nocase w (.commitMetadata status references root settings searches) =
      let out := w.session.commitMetadata nocase status references root settings searches
      some ⟨out.2, w.log ++ [if out.1 = .ok then .committed (liveNodes root) else .failed]⟩ := rfl

theorem inv_commitMetadata (h : Inv w) (hc : call nocase w
    (.commitMetadata status references root settings searches) = some w') : Inv w' := by
  rw [call_commitMetadata] at hc
  obtain rfl := Option.some.inj hc
  rcases stagedObjects_of_commitMetadata w.session with
    ⟨hr, hindex, hlist, hopen, hapart⟩ | ⟨hr, hopen, db, hobjects, hout⟩
  · rw [if_neg hr]
    exact h.failed hindex hlist hopen (hapart h.apart)
  · rw [if_pos hr, hout]
    exact inv_rebuild h rfl rfl hopen (apart_syncObjects h.apart hobjects)

theorem inv_lock (h : Inv w) : Inv ⟨w.session.lock, w.log ++ [.locked]⟩ where
  index _ := by rw [pending_locked, ReadSession.lock]
  list _ := by rw [pending_locked, ReadSession.lock, lastStaged_nil, Option.map_none]
  own _ _ hp := by
    rw [pending_locked] at hp
    cases hp
  idle _ := ⟨rfl, fun _ ↦ by rw [pending_locked]⟩
  apart := h.apart

theorem inv_unlock {status : ReadStatus} (h : Inv w) :
    Inv ⟨(w.session.unlock status settings).2, w.log⟩ := by
  rw [ReadSession.unlock]
  split_ifs with hopen hstatus
  · exact h
  · exact h
  -- nothing is staged in a locked session, so there is nothing to take out
  obtain ⟨hnil, hnone⟩ := h.idle (by simpa using hopen)
  refine ⟨fun key ↦ ?_, fun key ↦ ?_, h.own, nofun, h.apart⟩
  · show (if key.1 ∈ liveNodes w.session.db.nodes then none else w.session.stagedIndex key) = _
    rw [h.index, hnone, ite_self]
  · show lastStaged (w.session.stagedObjects.filter _) key = _
    rw [hnil, List.filter_nil, lastStaged_nil, hnone, Option.map_none]

theorem inv_call (h : Inv w) (hc : call nocase w c = some w') : Inv w' := by
  cases c with
  | stageObject info written =>
    cases hc
    exact inv_stageObject h
  | commitMetadata status references root settings searches => exact inv_commitMetadata h hc
  | lock =>
    cases hc
    exact inv_lock h
  | unlock status settings =>
    cases hc
    exact inv_unlock h

/-- **The run.** Whatever was called, the session holds what is pending. -/
theorem inv_run {vaultId : NodeId} {db : Database} {calls : List Call} (hdb : Apart db.objects)
    (hrun : Run.run (call nocase) (closed vaultId db) calls = some w) : Inv w :=
  Run.invariant (C := fun _ _ ↦ True) (fun h _ hc ↦ inv_call h hc) (inv_closed hdb)
    (Run.meets_of_forall fun _ _ ↦ trivial) hrun

/-! ## What a commit does with them -/

theorem key_ne_of_apart {rows : List ObjectRecord} (h : Apart rows) :
    rows.Pairwise fun a b ↦ a.key ≠ b.key :=
  h.imp fun {a b} hab hkey ↦ by simp [objectRule, hkey] at hab

/-- **Staged objects and the rows of a commit.** After any calls the rows have one object for each
pair, and what is pending is what is read. A commit that succeeds leaves exactly the rows of live
nodes, with the pending objects in the place of older ones; one that fails leaves every staged object
where it was. -/
theorem rows_of_commitMetadata {vaultId : NodeId} {db : Database} {calls : List Call}
    (hdb : Apart db.objects)
    (hrun : Run.run (call nocase) (closed vaultId db) calls = some w) :
    w.session.db.objects.Pairwise (fun a b ↦ a.key ≠ b.key) ∧
    (∀ key info, pending w.log key = some info → w.session.objectFor key = some info) ∧
    ∀ status references root settings searches,
      let out := w.session.commitMetadata nocase status references root settings searches
      (out.1 = .ok → ∀ row, row ∈ out.2.db.objects ↔ row.nodeId ∈ liveNodes root ∧
        ((∃ info, pending w.log row.key = some info ∧ row = info.record.commit
            (w.session.db.metadata.settings.appGeneration + 1)) ∨
          (row ∈ w.session.db.objects ∧ pending w.log row.key = none))) ∧
      (out.1 ≠ .ok → out.2.stagedObjects = w.session.stagedObjects ∧
        out.2.stagedIndex = w.session.stagedIndex) := by
  have h := inv_run hdb hrun
  refine ⟨key_ne_of_apart h.apart, fun key info hp ↦ ?_, ?_⟩
  · rw [ReadSession.objectFor, h.index, hp, Option.some_or]
  intro status references root settings searches out
  rcases stagedObjects_of_commitMetadata w.session with
    ⟨hr, hindex, hlist, -, -⟩ | ⟨hr, -, db', hobjects, hout⟩
  · exact ⟨fun hok ↦ absurd hok hr, fun _ ↦ ⟨hlist, hindex⟩⟩
  · refine ⟨fun _ row ↦ ?_, fun hne ↦ absurd hr hne⟩
    rw [show out.2.db.objects = db'.objects from congrArg (·.db.objects) hout,
      mem_syncObjects hobjects]
    simp only [h.list, Option.map_eq_some_iff, Option.map_eq_none_iff, exists_exists_and_eq_and]

/-- A thumbnail is staged, a commit goes by without its node, and the next one has it. -/
theorem rows_of_commitMetadata_one :
    let id (n : UInt8) : NodeId := .ofBytes (List.replicate 16 n)
    let thumb : ObjectInfo := ⟨id 7, id 9, id 2, .thumbnail, 0, 10, 42, 65536, 1⟩
    let root : IndexNode := .branch { name := [], nodeId := id 1 } []
    let next : IndexNode := .branch { name := [], nodeId := id 1 }
      [.leaf { name := [97], nodeId := id 2 } (.image {})]
    ∃ w, Run.run (call tagCiEqual) (closed (id 9) ⟨root, [], {}⟩) [.unlock .ok {}, .stageObject thumb true,
        .commitMetadata (fun _ ↦ .ok) .ok root {} []] = some w ∧
      w.session.objectFor (id 2, .thumbnail) = some thumb ∧
      thumb.record.commit 2 ∈
        (w.session.commitMetadata tagCiEqual (fun _ ↦ .ok) .ok next {} []).2.db.objects := by
  intro id thumb root next
  refine ⟨_, rfl, ?_⟩
  have h := rows_of_commitMetadata (show Apart [] from .nil)
    (show Run.run (call tagCiEqual) (closed (id 9) ⟨root, [], {}⟩) [.unlock .ok {}, .stageObject thumb true,
        .commitMetadata (fun _ ↦ .ok) .ok root {} []] = some _ from rfl)
  refine ⟨h.2.1 _ _ rfl, ?_⟩
  have hcommit := (h.2.2 (fun _ ↦ .ok) .ok next {} []).1 (by decide +kernel) (thumb.record.commit 2)
  exact hcommit.mpr ⟨by decide +kernel, .inl ⟨thumb, rfl, rfl⟩⟩

end V3

end SafeVault
