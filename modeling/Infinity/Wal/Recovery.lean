import Infinity.Wal.Iterator

/-! # Recovery of the log (`WalListIterator`, phases 1 and 2 of `WalManager::ReplayWalFile`)

The log is a list of files, the newest first. Each of them is a sequence of entries, possibly with
a bad region behind them. `purge` cuts bad regions off from the newest file on until a file with a
checkpoint is met; the iterator then walks the remaining files backward, back over the latest
checkpoint to the first entry that it covers. A backward iterator enters an older file from its end:
of a damaged one it returns the entries that are intact behind the bad one first.

The abstract view of the log is the list of its events (`logEvents`), the newest first: an entry, or
`none` where a bad region hides what was logged. `expected` says from it what recovery is for: the
entries after the time stamp of the latest checkpoint, up to the first gap.

* `events_purge`, `logEvents_disk`: what `purge` does to the events in memory and on disk.
* `recover_of_checkpoint`: recovery from a given latest checkpoint.
* `stable_iff`: recovery keeps the expected entries and does so again on what it leaves on disk
  exactly when no entry lies behind a gap and the checkpoint record ends its entry.
-/

namespace Infinity.Wal

open Foundations Infinity.Parser List

/-! ## Entries and files -/

/-- What recovery looks at in an entry of the log. -/
class LogEntry (E : Type) (T : outParam Type) where
  commitTs : E → T
  /-- The time stamp of the first checkpoint command, if there is one. -/
  checkpointTs : E → Option T
  /-- The commands behind the first checkpoint command, as an entry of their own. -/
  tailEntry : E → List E

export LogEntry (commitTs checkpointTs tailEntry)

/-- The time stamp of a checkpoint command. -/
def WalCmd.checkpointTs : WalCmd → Option UInt64
  | .checkpoint maxCommitTs _ _ => some maxCommitTs.toUInt64
  | _ => none

namespace WalEntry

/-- The commands behind the first checkpoint command. -/
def tailCmds (e : WalEntry) : List WalCmd :=
  (e.cmds.dropWhile fun c => c.checkpointTs.isNone).drop 1

instance : LogEntry WalEntry UInt64 where
  commitTs e := e.commitTs
  checkpointTs e := e.cmds.findSome? WalCmd.checkpointTs
  tailEntry e := if e.tailCmds.isEmpty then [] else [⟨e.txnId, e.commitTs, e.tailCmds⟩]

end WalEntry

variable {E T : Type} [LogEntry E T] {evs : List (Option E)} {x : Option E}

/-- `WalEntry::IsCheckPoint`, by what recovery looks at. -/
def isCheckPoint (e : E) : Bool := (checkpointTs e).isSome

/-- A log file: the entries up to the first bad one and, if there is a bad one, the intact entries
behind it, which end the file. -/
structure LogFile (E : Type) where
  entries : List E
  bad : Option (List E)

/-- The file after `Truncate` at the offset of its bad region. -/
def LogFile.truncate (f : LogFile E) : LogFile E := ⟨f.entries, none⟩

/-- The entries that a forward iterator returns of a file, the newest first. -/
def LogFile.entryEvents (f : LogFile E) : List (Option E) := f.entries.reverse.map some

/-- What a backward iterator returns of a file, a null pointer being `none`. -/
def LogFile.events (f : LogFile E) : List (Option E) :=
  match f.bad with
  | none => f.entryEvents
  | some behind => behind.reverse.map some ++ none :: f.entryEvents

/-- What a backward iterator returns of a list of files. -/
def events (files : List (LogFile E)) : List (Option E) := files.flatMap LogFile.events

/-- The gap that a bad entry makes for a forward iterator. -/
def LogFile.gap (f : LogFile E) : List (Option E) := if f.bad.isSome then [none] else []

/-- The log as recovery reads it, the newest event first: forward in the files back to the one with
the latest checkpoint, so that a bad entry hides all that is behind it in its file, and backward in
the older ones. -/
def logEvents : List (LogFile E) → List (Option E)
  | [] => []
  | f :: files =>
    f.gap ++ (f.entryEvents ++ if f.entries.any isCheckPoint then events files else logEvents files)

/-! ## `PurgeBadEntriesAfterLatestCheckpoint` -/

/-- The state of the loop: the files already seen as they are left on disk, and those of them that
are still at the front of `wal_list_`, whose number is `file_num`. -/
structure PurgeState (E : Type) where
  disk : List (LogFile E)
  front : List (LogFile E)

/-- What is left of a file on disk: a bad region at offset zero deletes the file, another one
truncates it. -/
def LogFile.kept (f : LogFile E) : List (LogFile E) :=
  if f.bad.isSome then (if f.entries.isEmpty then [] else [f.truncate]) else [f]

/-- The body of the loop for one file. A bad region drops the newer files, from the list in memory
only. -/
def PurgeState.visit (st : PurgeState E) (f : LogFile E) : PurgeState E :=
  ⟨st.disk ++ f.kept, (if f.bad.isSome then [] else st.front) ++ f.kept⟩

/-- The loop, which ends behind the first file with a checkpoint. -/
def purgeLoop (st : PurgeState E) : List (LogFile E) → PurgeState E
  | [] => st
  | f :: files =>
    if f.entries.any isCheckPoint then
      ⟨(st.visit f).disk ++ files, (st.visit f).front ++ files⟩
    else purgeLoop (st.visit f) files

/-- `PurgeBadEntriesAfterLatestCheckpoint`: the directory and `wal_list_` afterwards. -/
def purge (files : List (LogFile E)) : PurgeState E := purgeLoop ⟨[], []⟩ files

/-! ## Phases 1 and 2 -/

/-- How phase 1 ends. -/
inductive Phase1 (E T : Type) where
  | badEntry
  | noCheckpoint
  | found (checkpoint : E) (maxCommitTs : T) (replayEntries : List E) (rest : List (Option E))

/-- Phase 1: walk back to a checkpoint. `IsCheckPoint` puts the commands behind the checkpoint
command into a copy of the vector it is given, so that the vector of the caller stays as it is. -/
def phase1 (replayEntries : List E) : List (Option E) → Phase1 E T
  | [] => .noCheckpoint
  | none :: _ => .badEntry
  | some e :: rest =>
    match checkpointTs e with
    | some maxCommitTs => .found e maxCommitTs replayEntries rest
    | none => phase1 (replayEntries ++ [e]) rest

section Recover

variable [LT T] [DecidableLT T] [OfNat T 0] [DecidableEq T]

/-- Phase 2: walk back over the entries that the checkpoint does not cover. A bad entry clears
what has been collected. -/
def phase2 (maxCommitTs : T) (replayEntries : List E) : List (Option E) → List E
  | [] => replayEntries
  | none :: _ => []
  | some e :: rest =>
    if maxCommitTs < commitTs e then phase2 maxCommitTs (replayEntries ++ [e]) rest
    else replayEntries

/-- `WalManager::ReplayWalFile` up to the catalog: the time stamp of the checkpoint and the entries
to replay in order. An empty directory starts a new catalog. -/
def recover (files : List (LogFile E)) : Except Exn (Option (T × List E)) :=
  if files.isEmpty then .ok none
  else
    match phase1 [] (events (purge files).front) with
    | .badEntry => .error (.unrecoverable "Found unexpected bad wal entry")
    | .noCheckpoint => .error (.unrecoverable "No checkpoint found in wal")
    | .found checkpoint maxCommitTs replayEntries rest =>
      if commitTs checkpoint = 0 then .error (.unrecoverable "No checkpoint found in wal")
      else .ok (some (maxCommitTs, (phase2 maxCommitTs replayEntries rest).reverse))

/-- The entries that recovery replays. -/
def replayed (files : List (LogFile E)) : List E :=
  match recover files with
  | .ok (some (_, entries)) => entries
  | _ => []

/-! ## What recovery is for -/

/-- The event is an entry with a checkpoint. -/
def isCheckpointEvent (x : Option E) : Bool := x.any isCheckPoint

/-- The entries before a checkpoint that it does not cover, the newest first, unless a gap hides
some of them. -/
def uncovered (maxCommitTs : T) : List (Option E) → Option (List E)
  | [] => some []
  | none :: _ => none
  | some e :: rest =>
    if maxCommitTs < commitTs e then (uncovered maxCommitTs rest).map (e :: ·) else some []

/-- The events after the latest checkpoint. -/
def newerEvents (evs : List (Option E)) : List (Option E) :=
  evs.takeWhile fun x => !isCheckpointEvent x

/-- The events from the latest checkpoint back. -/
def latestCheckpoint (evs : List (Option E)) : List (Option E) :=
  evs.dropWhile fun x => !isCheckpointEvent x

/-- The gap-free part of a log that recovery should replay: what the latest checkpoint does not
cover, in order and up to the first gap. -/
def expected (evs : List (Option E)) : List E :=
  match latestCheckpoint evs with
  | some checkpoint :: older =>
    if commitTs checkpoint = 0 then []
    else
      match (checkpointTs checkpoint).bind (uncovered · older) with
      | none => []
      | some before =>
        before.reverse ++ tailEntry checkpoint ++
          ((newerEvents evs).reverse.takeWhile Option.isSome).filterMap id
  | _ => []

end Recover

/-- The entries of a log that lie behind a gap after the latest checkpoint. -/
def stranded (evs : List (Option E)) : List E :=
  ((newerEvents evs).reverse.dropWhile Option.isSome).filterMap id

/-! ## What the purge does to the events -/

/-- The part of some events, the newest first, that lies before all gaps. -/
def gapCut (evs : List (Option E)) : List (Option E) :=
  (evs.reverse.takeWhile Option.isSome).reverse

theorem gapCut_append_none (newer older : List (Option E)) :
    gapCut (newer ++ none :: older) = gapCut older := by
  have h : (older.reverse ++ none :: newer.reverse).takeWhile Option.isSome =
      older.reverse.takeWhile Option.isSome := by
    rw [takeWhile_append]
    split
    next hlen =>
      rw [takeWhile_cons_of_neg (by simp), append_nil]
      exact ((List.takeWhile_prefix _).eq_of_length hlen).symm
    · rfl
  simp only [gapCut, reverse_append, reverse_cons, append_assoc, singleton_append, h]

theorem gapCut_eq_self (h : ∀ x ∈ evs, x.isSome) : gapCut evs = evs := by
  rw [gapCut, takeWhile_eq_self_iff.mpr (by simpa using h), reverse_reverse]

theorem LogFile.isSome_of_mem_entryEvents {f : LogFile E} (h : x ∈ f.entryEvents) : x.isSome := by
  obtain ⟨e, -, rfl⟩ := mem_map.mp h
  rfl

theorem LogFile.any_isCheckPoint (f : LogFile E) :
    f.entries.any isCheckPoint = f.entryEvents.any isCheckpointEvent := by
  simp [LogFile.entryEvents, isCheckpointEvent, any_map, Function.comp_def]

@[simp] theorem events_append (files files' : List (LogFile E)) :
    events (files ++ files') = events files ++ events files' := flatMap_append

theorem LogFile.events_kept (f : LogFile E) : Wal.events f.kept = f.entryEvents := by
  obtain ⟨entries, bad⟩ := f
  cases bad <;> cases entries <;>
    simp [LogFile.kept, Wal.events, LogFile.events, LogFile.truncate, LogFile.entryEvents]

theorem events_visit (st : PurgeState E) (f : LogFile E) : events (st.visit f).front =
    (if f.bad.isSome then [] else events st.front) ++ f.entryEvents := by
  rw [PurgeState.visit, events_append, f.events_kept]
  split <;> rfl

theorem newerEvents_append_latestCheckpoint (evs : List (Option E)) :
    newerEvents evs ++ latestCheckpoint evs = evs := takeWhile_append_dropWhile

section Split

variable {evs rest : List (Option E)}

theorem newerEvents_append (h : evs.any isCheckpointEvent = false) :
    newerEvents (evs ++ rest) = evs ++ newerEvents rest :=
  takeWhile_append_of_pos (by simpa using h)

theorem latestCheckpoint_append (h : evs.any isCheckpointEvent = false) :
    latestCheckpoint (evs ++ rest) = latestCheckpoint rest :=
  dropWhile_append_of_pos (by simpa using h)

theorem latestCheckpoint_append_of_any (h : evs.any isCheckpointEvent) :
    latestCheckpoint (evs ++ rest) = latestCheckpoint evs ++ rest := by
  rw [latestCheckpoint, dropWhile_append, if_neg]
  · rfl
  · simpa using h

theorem newerEvents_append_of_any (h : evs.any isCheckpointEvent) :
    newerEvents (evs ++ rest) = newerEvents evs := by
  have hboth := newerEvents_append_latestCheckpoint (evs ++ rest)
  rw [latestCheckpoint_append_of_any h, ← append_assoc] at hboth
  have hevs := newerEvents_append_latestCheckpoint evs
  exact append_cancel_right ((append_cancel_right hboth).trans hevs.symm)

end Split

theorem isSome_of_mem_newerEvents (h : ∀ x ∈ evs, x.isSome) (hx : x ∈ newerEvents evs) : x.isSome :=
  h x ((takeWhile_sublist _).mem hx)

theorem LogFile.any_gap (f : LogFile E) : f.gap.any isCheckpointEvent = false := by
  unfold LogFile.gap
  split <;> rfl

/-- The list in memory after the loop: the events before all gaps of the files that were seen, and
the events from the checkpoint on. The induction is on the files. -/
theorem events_purgeLoop_front : ∀ {files : List (LogFile E)} {st : PurgeState E},
    (∀ x ∈ events st.front, x.isSome) → events (purgeLoop st files).front =
      gapCut (events st.front ++ newerEvents (logEvents files)) ++
      latestCheckpoint (logEvents files)
  | [], st, h => by
    have hnil : events st.front ++ newerEvents (logEvents []) = events st.front := append_nil _
    rw [hnil, gapCut_eq_self h]
    exact (append_nil _).symm
  | f :: files, st, h => by
    have hentry := f.any_isCheckPoint
    rw [purgeLoop, logEvents, newerEvents_append f.any_gap, latestCheckpoint_append f.any_gap]
    cases hckp : f.entryEvents.any isCheckpointEvent with
    | true =>
      have hsome : ∀ x ∈ newerEvents f.entryEvents, x.isSome :=
        fun x hx => isSome_of_mem_newerEvents (fun _ => LogFile.isSome_of_mem_entryEvents) hx
      rw [hentry, hckp, if_pos rfl, if_pos rfl, newerEvents_append_of_any hckp,
        latestCheckpoint_append_of_any hckp]
      simp only [events_append, events_visit, LogFile.gap]
      have hsplit := newerEvents_append_latestCheckpoint f.entryEvents
      cases f.bad with
      | some behind =>
        simp only [Option.isSome_some, if_true, singleton_append, nil_append]
        rw [gapCut_append_none, gapCut_eq_self hsome, ← append_assoc, hsplit]
      | none =>
        simp only [Option.isSome_none, Bool.false_eq_true, if_false, nil_append]
        rw [gapCut_eq_self (by simpa [or_imp, forall_and] using ⟨h, hsome⟩)]
        simp only [append_assoc]
        rw [← append_assoc (newerEvents _), hsplit]
    | false =>
      have hfront : ∀ x ∈ events (st.visit f).front, x.isSome := by
        intro x hx
        rw [events_visit] at hx
        rcases mem_append.mp hx with hx | hx
        · cases hbad : f.bad with
          | some behind => simp [hbad] at hx
          | none => exact h x (by simpa [hbad] using hx)
        · exact LogFile.isSome_of_mem_entryEvents hx
      rw [hentry, hckp, if_neg Bool.false_ne_true, if_neg Bool.false_ne_true,
        events_purgeLoop_front hfront, newerEvents_append hckp, latestCheckpoint_append hckp,
        events_visit, LogFile.gap]
      cases f.bad with
      | some behind =>
        simp only [Option.isSome_some, if_true, singleton_append, nil_append]
        rw [gapCut_append_none]
      | none =>
        simp only [Option.isSome_none, Bool.false_eq_true, if_false, nil_append, append_assoc]

/-- **What is left in memory**: the events before all gaps, back to the checkpoint and beyond. -/
theorem events_purge (files : List (LogFile E)) : events (purge files).front =
    gapCut (newerEvents (logEvents files)) ++ latestCheckpoint (logEvents files) :=
  events_purgeLoop_front nofun

/-- The directory after the loop, apart from the files that were there before. -/
def purgedFiles : List (LogFile E) → List (LogFile E)
  | [] => []
  | f :: files => f.kept ++ if f.entries.any isCheckPoint then files else purgedFiles files

theorem purgeLoop_disk : ∀ (files : List (LogFile E)) (st : PurgeState E),
    (purgeLoop st files).disk = st.disk ++ purgedFiles files
  | [], st => (append_nil _).symm
  | f :: files, st => by
    rw [purgeLoop, purgedFiles]
    split
    · simp only [PurgeState.visit, append_assoc]
    · rw [purgeLoop_disk files, PurgeState.visit, append_assoc]

theorem purge_disk (files : List (LogFile E)) : (purge files).disk = purgedFiles files :=
  purgeLoop_disk files _

/-- Where no file is damaged, both iterators read the same. -/
theorem logEvents_of_clean {files : List (LogFile E)} (h : ∀ f ∈ files, f.bad = none) :
    logEvents files = events files := by
  induction files with
  | nil => rfl
  | cons f files ih =>
    obtain ⟨hf, hfiles⟩ := forall_mem_cons.mp h
    rw [logEvents, ih hfiles, ite_self, LogFile.gap, hf]
    simp [events, LogFile.events, hf]

/-- A file that has been seen has no gap. -/
theorem logEvents_kept (f : LogFile E) (files : List (LogFile E)) : logEvents (f.kept ++ files) =
    f.entryEvents ++ if f.entries.any isCheckPoint then events files else logEvents files := by
  obtain ⟨entries, bad⟩ := f
  cases bad <;> cases entries <;>
    simp [LogFile.kept, logEvents, LogFile.gap, LogFile.truncate, LogFile.entryEvents]

/-- **What is left on disk**: every entry that a forward iterator reaches, also those behind the
gaps of other files, and no gap. The induction is on the files. -/
theorem logEvents_disk (files : List (LogFile E)) : logEvents (purge files).disk =
    (newerEvents (logEvents files)).filter Option.isSome ++ latestCheckpoint (logEvents files) := by
  rw [purge_disk]
  induction files with
  | nil => rfl
  | cons f files ih =>
    have hentry := f.any_isCheckPoint
    have hsome : ∀ es : List (Option E), (∀ x ∈ es, x.isSome) →
        es.filter Option.isSome = es := fun es h => filter_eq_self.mpr h
    have hgap : f.gap.filter Option.isSome = [] := by
      unfold LogFile.gap
      split <;> rfl
    rw [purgedFiles, logEvents_kept, logEvents, newerEvents_append f.any_gap,
      latestCheckpoint_append f.any_gap, filter_append, hgap, nil_append]
    cases hckp : f.entryEvents.any isCheckpointEvent with
    | true =>
      rw [hentry, hckp, if_pos rfl, if_pos rfl, newerEvents_append_of_any hckp,
        latestCheckpoint_append_of_any hckp, hsome _ fun x hx =>
          isSome_of_mem_newerEvents (fun _ => LogFile.isSome_of_mem_entryEvents) hx,
        ← append_assoc, newerEvents_append_latestCheckpoint, if_pos rfl]
    | false =>
      rw [hentry, hckp, if_neg Bool.false_ne_true, if_neg Bool.false_ne_true,
        if_neg Bool.false_ne_true, newerEvents_append hckp, latestCheckpoint_append hckp, ih,
        filter_append, hsome _ fun x => LogFile.isSome_of_mem_entryEvents, append_assoc]

/-! ## What the two phases make of the events -/

theorem phase1_append : ∀ {newer : List (Option E)} (acc : List E)
    (rest : List (Option E)), (∀ x ∈ newer, x.isSome) → newer.any isCheckpointEvent = false →
    phase1 acc (newer ++ rest) = phase1 (acc ++ newer.filterMap id) rest
  | [], acc, rest, _, _ => by simp
  | none :: _, _, _, hsome, _ => by simp at hsome
  | some e :: newer, acc, rest, hsome, hckp => by
    obtain ⟨he, hnewer⟩ : isCheckPoint e = false ∧ newer.any isCheckpointEvent = false := by
      simpa [isCheckpointEvent] using hckp
    have hts : checkpointTs e = none := by
      rw [isCheckPoint] at he
      simpa using he
    have htail := phase1_append (acc ++ [e]) rest (fun x hx => hsome x (by simp [hx])) hnewer
    rw [cons_append, phase1, hts]
    simp only [htail, filterMap_cons_some (f := id) (b := e) rfl, append_assoc, singleton_append]

/-- Nothing, or a checkpoint with what is before it. -/
theorem latestCheckpoint_cases (evs : List (Option E)) :
    latestCheckpoint evs = [] ∨ ∃ e ts older, latestCheckpoint evs = some e :: older ∧
    checkpointTs e = some ts := by
  cases h : latestCheckpoint evs with
  | nil => exact .inl rfl
  | cons x older =>
    have hx : isCheckpointEvent x := by
      have hhead := head?_dropWhile_not (fun x => !isCheckpointEvent x) evs
      unfold latestCheckpoint at h
      simpa [h] using hhead
    cases x with
    | none => cases hx
    | some e =>
      obtain ⟨ts, hts⟩ := Option.isSome_iff_exists.mp hx
      exact .inr ⟨e, ts, older, rfl, hts⟩

theorem any_newerEvents : (newerEvents evs).any isCheckpointEvent = false := by
  rw [any_eq_false]
  intro x hx
  simpa using mem_takeWhile_imp hx

theorem newerEvents_disk (files : List (LogFile E)) : newerEvents (logEvents (purge files).disk) =
    (newerEvents (logEvents files)).filter Option.isSome := by
  have hckp : ((newerEvents (logEvents files)).filter Option.isSome).any isCheckpointEvent =
      false := by
    rw [any_eq_false]
    intro x hx
    exact any_eq_false.mp (any_newerEvents) x (mem_filter.mp hx).1
  rw [logEvents_disk, newerEvents_append hckp]
  rcases latestCheckpoint_cases (logEvents files) with hnil | ⟨e, ts, older, hcons, hts⟩
  · rw [hnil]
    exact append_nil _
  · have hstart : newerEvents (some e :: older) = [] :=
      takeWhile_cons_of_neg (by simp [isCheckpointEvent, isCheckPoint, hts])
    rw [hcons, hstart, append_nil]

theorem latestCheckpoint_disk (files : List (LogFile E)) :
    latestCheckpoint (logEvents (purge files).disk) = latestCheckpoint (logEvents files) := by
  have hsplit := newerEvents_append_latestCheckpoint (logEvents (purge files).disk)
  rw [newerEvents_disk] at hsplit
  exact append_cancel_left (hsplit.trans (logEvents_disk files))

theorem filterMap_filter_isSome :
    (evs.filter Option.isSome).filterMap id = evs.filterMap id := by
  rw [filterMap_filter]
  congr 1
  funext x
  cases x <;> rfl

/-- The entries of some events are those before the first gap and those behind it. -/
theorem filterMap_reverse_newerEvents : (newerEvents evs).reverse.filterMap id =
      ((newerEvents evs).reverse.takeWhile Option.isSome).filterMap id ++ stranded evs := by
  rw [stranded, ← filterMap_append, takeWhile_append_dropWhile]

theorem phase1_purge (files : List (LogFile E)) : phase1 [] (events (purge files).front) =
    phase1 ((gapCut (newerEvents (logEvents files))).filterMap id)
    (latestCheckpoint (logEvents files)) := by
  have hsome : ∀ x ∈ gapCut (newerEvents (logEvents files)), x.isSome := by
    intro x hx
    exact mem_takeWhile_imp (mem_reverse.mp hx)
  have hckp : (gapCut (newerEvents (logEvents files))).any isCheckpointEvent = false := by
    rw [any_eq_false]
    intro x hx
    have hmem := (takeWhile_sublist _).mem (mem_reverse.mp hx)
    exact any_eq_false.mp (any_newerEvents) x (mem_reverse.mp hmem)
  rw [events_purge, phase1_append [] _ hsome hckp, nil_append]

section Replayed

variable [LT T] [DecidableLT T]

theorem phase2_eq (ts : T) : ∀ (evs : List (Option E)) (acc : List E),
    phase2 ts acc evs = ((uncovered ts evs).map (acc ++ ·)).getD []
  | [], acc => by simp [phase2, uncovered]
  | none :: _, _ => rfl
  | some e :: evs, acc => by
    rw [phase2, uncovered]
    split
    · rw [phase2_eq ts evs]
      cases uncovered ts evs <;> simp
    · simp

variable [OfNat T 0] [DecidableEq T]

/-- The entries replayed from a checkpoint and the events after it. -/
def replayedFrom (newer latest : List (Option E)) : List E :=
  match latest with
  | some checkpoint :: older =>
    if commitTs checkpoint = 0 then []
    else
      match (checkpointTs checkpoint).bind (uncovered · older) with
      | none => []
      | some before => before.reverse ++ newer.reverse.filterMap id
  | _ => []

/-- Recovery of a log whose latest checkpoint is known. -/
theorem recover_of_checkpoint {files : List (LogFile E)} {e : E} {ts : T} {older : List (Option E)}
    (hlatest : latestCheckpoint (logEvents files) = some e :: older)
    (hts : checkpointTs e = some ts) (hne : commitTs e ≠ 0) :
      recover files = .ok (some (ts, (((uncovered ts older).map
      ((gapCut (newerEvents (logEvents files))).filterMap id ++ ·)).getD []).reverse)) := by
  have hfiles : files.isEmpty = false := by
    cases files with
    | nil => cases hlatest
    | cons f files => rfl
  rw [recover, hfiles, phase1_purge, hlatest, phase1, hts, ← phase2_eq]
  exact if_neg hne

theorem replayed_eq (files : List (LogFile E)) : replayed files =
    replayedFrom (gapCut (newerEvents (logEvents files))) (latestCheckpoint (logEvents files)) := by
  rcases latestCheckpoint_cases (logEvents files) with hnil | ⟨e, ts, older, hcons, hts⟩
  · have hphase := phase1_purge files
    rw [hnil] at hphase ⊢
    rw [replayed, recover, hphase]
    cases files.isEmpty <;> rfl
  · rw [hcons, replayedFrom, hts, Option.bind_some]
    by_cases hne : commitTs e = 0
    · rw [replayed, recover, phase1_purge, hcons, phase1, hts]
      simp only [hne, if_true]
      cases files.isEmpty <;> rfl
    · rw [replayed, recover_of_checkpoint hcons hts hne, if_neg hne]
      cases uncovered ts older with
      | none => rfl
      | some before =>
        simp only [Option.map_some, Option.getD_some, reverse_append, filterMap_reverse]

/-- The second recovery replays from the same checkpoint what lies behind the gaps as well. -/
theorem replayed_disk (files : List (LogFile E)) : replayed (purge files).disk =
    replayedFrom ((newerEvents (logEvents files)).filter Option.isSome)
    (latestCheckpoint (logEvents files)) := by
  rw [replayed_eq, newerEvents_disk, latestCheckpoint_disk, gapCut_eq_self]
  intro x hx
  exact (mem_filter.mp hx).2

/-! ## Stability -/

/-- Recovery keeps the expected entries, and again so on what it leaves on disk. -/
def Stable (files : List (LogFile E)) : Prop :=
  replayed files = expected (logEvents files) ∧ replayed (purge files).disk = replayed files

/-- If something is replayed from a checkpoint of the log at all, then the checkpoint command ends
its entry, and no entry lies behind a gap. -/
def StableLog (evs : List (Option E)) : Prop :=
  ∀ checkpoint older before, latestCheckpoint evs = some checkpoint :: older →
    commitTs checkpoint ≠ 0 → (checkpointTs checkpoint).bind (uncovered · older) = some before →
    tailEntry checkpoint = [] ∧ stranded evs = []

/-- **Recovery is stable exactly when no entry lies behind a gap and the checkpoint record ends
its entry.** -/
theorem stable_iff (files : List (LogFile E)) : Stable files ↔ StableLog (logEvents files) := by
  rw [Stable, replayed_disk, replayed_eq, expected]
  rcases latestCheckpoint_cases (logEvents files) with hnil | ⟨c, ts, older, hcons, hts⟩
  · rw [hnil]
    refine iff_of_true ⟨rfl, rfl⟩ ?_
    intro c older before h
    cases hnil.symm.trans h
  · have hlog : StableLog (logEvents files) ↔ ∀ before, commitTs c ≠ 0 →
        (checkpointTs c).bind (uncovered · older) = some before → tailEntry c = [] ∧
        stranded (logEvents files) = [] := by
      unfold StableLog
      rw [hcons]
      exact ⟨fun h before => h c older before rfl, by rintro h _ _ before ⟨⟩; exact h before⟩
    rw [hlog, hcons]
    simp only [replayedFrom]
    by_cases hzero : commitTs c = 0
    · simp [hzero]
    · simp only [if_neg hzero]
      cases hunc : (checkpointTs c).bind (uncovered · older) with
      | none => simp
      | some before =>
        simp only [gapCut, reverse_reverse, ← filter_reverse, filterMap_filter_isSome,
          filterMap_reverse_newerEvents, append_assoc, append_cancel_left_eq]
        rw [self_eq_append_left, append_right_eq_self]
        exact ⟨fun h _ _ _ => h, fun h => h before hzero rfl⟩

end Replayed

/-- An entry without commands. -/
def plainEntry (txnId : Int64) (commitTs : UInt64) : WalEntry := ⟨txnId, commitTs, []⟩

/-- A checkpoint at time stamp 1 and a transaction, behind which the file is damaged, and a newer
file with one more transaction. -/
def gapLog : List (LogFile WalEntry) :=
  [⟨[plainEntry 4 4], none⟩,
    ⟨[⟨2, 2, [.checkpoint 1 true []]⟩, plainEntry 3 3], some []⟩]

/-- The first recovery of that log replays one transaction; the second one replays the transaction
behind the gap as well. -/
theorem not_stable_gapLog : ¬ Stable gapLog := by
  rintro ⟨-, hsame⟩
  have hfirst : (replayed gapLog).length = 1 := rfl
  have hsecond : (replayed (purge gapLog).disk).length = 2 := rfl
  rw [hsame, hfirst] at hsecond
  cases hsecond

end Infinity.Wal
