import Infinity.Foundations.Transition
import Infinity.Wal.Recovery

/-! # Checkpoints and crashes

`WalManager` keeps three kinds of files: the log (`wal.log` and the swapped `wal.log.N`), full
catalogs (`FULL.N.json`) and delta catalogs (`DELTA.N`). This module models every effect on them as
one action of a transition system: the flush of an entry, the two halves of a swap, and the effects
of `CheckpointInner` one by one. The entry that holds the checkpoint command is flushed by an action
of its own, after `CheckpointInner` has returned. A crash keeps the files of the state it meets, and
`replayWalFile` says what recovery makes of them.

A catalog file is modelled by the transactions that it reflects, and an entry of the log by its time
stamp, with that of its checkpoint command if there is one.
-/

namespace Infinity.Wal

open Foundations Infinity.Parser

/-! ## Files -/

/-- An entry of the log, as far as checkpoints go. -/
inductive Rec where
  | commit (ts : ℕ)
  | checkpoint (ts maxCommitTs : ℕ)
  deriving DecidableEq

namespace Rec

/-- `commit_ts_`. -/
def ts : Rec → ℕ
  | commit ts => ts
  | checkpoint ts _ => ts

def txn? : Rec → Option ℕ
  | commit ts => some ts
  | checkpoint _ _ => none

/-- `max_commit_ts_` of a checkpoint. -/
def maxCommitTs? : Rec → Option ℕ
  | commit _ => none
  | checkpoint _ maxCommitTs => some maxCommitTs

instance : LogEntry Rec ℕ where
  commitTs := ts
  checkpointTs := maxCommitTs?
  tailEntry _ := []

end Rec

def txns (entries : List Rec) : List ℕ := entries.filterMap Rec.txn?

/-- A swapped file `wal.log.N`. -/
structure WalFile where
  maxCommitTs : ℕ
  entries : List Rec
  deriving DecidableEq

/-- A file `FULL.N.json` or `DELTA.N`. -/
structure CatalogFile where
  maxCommitTs : ℕ
  /-- The transactions that it reflects; `none` as long as nothing is written to it. -/
  txns : Option (List ℕ)
  deriving DecidableEq

/-- The log directory. A directory lists its files in no particular order. -/
structure WalDir where
  /-- `wal.log`, which is missing between the two halves of a swap. -/
  walLog : Option (List Rec)
  swapped : List WalFile
  deriving DecidableEq

/-- The catalog directory. -/
structure CatalogDir where
  /-- `_FULL.N.json`, a name that recovery does not look at. -/
  temp : Option CatalogFile
  fulls : List CatalogFile
  deltas : List CatalogFile
  deriving DecidableEq

/-- `wal_list`: `wal.log` and the swapped files by descending number. -/
def WalDir.walList (d : WalDir) : List (List Rec) := d.walLog.toList ++
    (d.swapped.insertionSort fun a b => b.maxCommitTs ≤ a.maxCommitTs).map WalFile.entries

/-- The `std::sort` of `ParseValidCheckpointFilenames`. -/
def sortFiles (files : List CatalogFile) : List CatalogFile :=
  files.insertionSort fun a b => a.maxCommitTs ≤ b.maxCommitTs

/-- `CatalogFile::ParseValidCheckpointFilenames`. -/
def CatalogDir.parseValidCheckpointFilenames (d : CatalogDir) (maxCheckpointTs : ℕ) :
    Option (CatalogFile × List CatalogFile) :=
  let fulls := (sortFiles d.fulls).rdropWhile fun f => maxCheckpointTs < f.maxCommitTs
  let deltas := (sortFiles d.deltas).rdropWhile fun f => maxCheckpointTs < f.maxCommitTs
  fulls.getLast?.map fun full =>
    (full, deltas.dropWhile fun f => f.maxCommitTs ≤ full.maxCommitTs)

/-- `Catalog::LoadFromFiles`: the transactions that the catalog reflects. -/
def loadFromFiles (full : CatalogFile) (deltas : List CatalogFile) : Except Exn (List ℕ) :=
  match full.txns, deltas.mapM CatalogFile.txns with
  | some base, some parts => .ok (base ++ parts.flatten)
  | _, _ => .error (.unrecoverable "Load catalog delta entry failed")

/-- The catalog that recovery starts from, by the transactions that it reflects. -/
def CatalogDir.attach (d : CatalogDir) (maxCommitTs : ℕ) : Except Exn (List ℕ) :=
  match d.parseValidCheckpointFilenames maxCommitTs with
  | none => .error (.unrecoverable "Wal Replay: Parse catalog file failed")
  | some (full, deltas) => loadFromFiles full deltas

/-- `WalManager::ReplayWalFile`: the transactions that the recovered state reflects. -/
def replayWalFile (wal : WalDir) (catalog : CatalogDir) : Except Exn (List ℕ) := do
  match ← recover (wal.walList.map fun entries => ⟨entries, none⟩) with
  | none => .ok []
  | some (maxCommitTs, replayEntries) =>
    let loaded ← catalog.attach maxCommitTs
    if replayEntries.any fun e => e.ts < maxCommitTs then
      .error (.unrecoverable "Wal Replay: Commit ts should be greater than max commit ts")
    else .ok (loaded ++ txns replayEntries)

/-! ## The state -/

/-- Where `CheckpointInner` is. -/
inductive Stage where
  | save
  | write (ops : List ℕ)
  | rename
  | recycleWal
  | recycleCatalog
  deriving DecidableEq

/-- A running `CheckpointInner`. -/
structure Checkpoint where
  full : Bool
  maxCommitTs : ℕ
  stage : Stage
  deriving DecidableEq

/-- `UNCOMMIT_TS`. -/
def uncommitTs : ℕ := 2 ^ 64 - 1

/-- `GlobalCatalogDeltaEntry`. -/
structure GlobalDelta where
  /-- `delta_ops_`, by the transactions whose operations are in it. -/
  ops : List ℕ
  maxCommitTs : ℕ
  lastFullCkpTs : ℕ
  deriving DecidableEq

/-- The operations that `PickFlushEntry` takes out. -/
def GlobalDelta.pickFlushEntry (g : GlobalDelta) : List ℕ := g.ops.filter (g.lastFullCkpTs < ·)

/-- The state of the log manager and of the global delta entry. -/
structure Sys where
  wal : WalDir
  catalog : CatalogDir
  maxCommitTs : ℕ
  delta : GlobalDelta
  lastCkpTs : ℕ
  lastFullCkpTs : ℕ
  checkpoint : Option Checkpoint
  /-- The checkpoints that are done and whose transaction is not flushed yet. -/
  unlogged : List ℕ
  flushed : List Rec
  newest : ℕ
  /-- How far deletions have gone: the greatest number of a deleted log file, or the time stamp of
  a full checkpoint that has deleted a catalog file. -/
  reach : ℕ
  deriving DecidableEq

def Sys.start : Sys where
  wal := ⟨some [.checkpoint 1 0], []⟩
  catalog := ⟨none, [⟨0, some []⟩], []⟩
  maxCommitTs := 1
  delta := ⟨[], 0, 0⟩
  lastCkpTs := 0
  lastFullCkpTs := 0
  checkpoint := none
  unlogged := []
  flushed := [.checkpoint 1 0]
  newest := 0
  reach := 0

def Sys.history (s : Sys) : List ℕ := txns s.flushed

/-! ## Actions -/

/-- The actions of the threads. -/
inductive Action where
  | commit (ts : ℕ)
  | addDeltaEntry
  | swapRename
  | swapCreate
  | beginCheckpoint (full : Bool)
  | saveTemp
  | renameFull
  | createDelta
  | writeDelta
  | deleteWal (n : ℕ)
  | walRecycled
  | deleteFull (n : ℕ)
  | deleteDelta (n : ℕ)
  | catalogRecycled
  | logCheckpoint (maxCommitTs ts : ℕ)

namespace Sys

/-- The flush of an entry to `wal.log`. Entries come in the order of their time stamps. -/
def flush (s : Sys) (e : Rec) : Option Sys :=
  match s.wal.walLog with
  | some entries =>
    if s.maxCommitTs < e.ts then
      some { s with
        wal := { s.wal with walLog := some (entries ++ [e]) }
        maxCommitTs := e.ts
        flushed := s.flushed ++ [e] }
    else none
  | none => none

/-- The checks at the start of `CheckpointInner`: whether the checkpoint is made, or skipped. -/
def checkCheckpoint (s : Sys) (full : Bool) : Except Exn Bool :=
  let maxCommitTs := s.delta.maxCommitTs
  if full then
    if maxCommitTs = s.lastFullCkpTs then .ok false
    else if s.lastFullCkpTs ≠ uncommitTs ∧ maxCommitTs ≤ s.lastFullCkpTs then
      .error (.unrecoverable
        "WalManager::UpdateLastFullMaxCommitTS last_full_ckp_ts >= max_commit_ts")
    else if s.lastCkpTs ≠ uncommitTs ∧ maxCommitTs < s.lastCkpTs then
      .error (.unrecoverable "WalManager::UpdateLastFullMaxCommitTS last_ckp_ts >= max_commit_ts")
    else .ok true
  else if maxCommitTs = s.lastCkpTs then .ok false
  else if maxCommitTs ≤ s.lastCkpTs then
    .error (.unrecoverable "WalManager::UpdateLastMaxCommitTS last_ckp_ts >= max_commit_ts")
  else .ok true

def step (s : Sys) : Action → Option Sys
  | .commit ts => s.flush (.commit ts)
  | .addDeltaEntry =>
    match s.checkpoint, s.history.find? (s.delta.maxCommitTs < ·) with
    | none, some ts => some { s with delta := ⟨s.delta.ops ++ [ts], ts, s.delta.lastFullCkpTs⟩ }
    | _, _ => none
  | .swapRename =>
    match s.wal.walLog with
    | some (e :: es) =>
      some { s with wal := ⟨none, ⟨s.maxCommitTs, e :: es⟩ :: s.wal.swapped⟩ }
    | _ => none
  | .swapCreate =>
    match s.wal.walLog with
    | none => some { s with wal := { s.wal with walLog := some [] } }
    | some _ => none
  | .beginCheckpoint full =>
    match s.checkpoint, s.checkCheckpoint full with
    | none, .ok true => some { s with checkpoint := some ⟨full, s.delta.maxCommitTs, .save⟩ }
    | none, .ok false => some s
    | _, _ => none
  | .saveTemp =>
    match s.checkpoint with
    | some ⟨true, m, .save⟩ =>
      some { s with
        catalog := { s.catalog with temp := some ⟨m, some (s.history.filter (· ≤ m))⟩ }
        checkpoint := some ⟨true, m, .rename⟩ }
    | _ => none
  | .renameFull =>
    match s.checkpoint, s.catalog.temp with
    | some ⟨true, m, .rename⟩, some file =>
      some { s with
        catalog := { s.catalog with
          temp := none
          fulls := s.catalog.fulls.filter (·.maxCommitTs ≠ file.maxCommitTs) ++ [file] }
        delta := { s.delta with lastFullCkpTs := m }
        lastCkpTs := m
        checkpoint := some ⟨true, m, .recycleWal⟩ }
    | _, _ => none
  | .createDelta =>
    match s.checkpoint with
    | some ⟨false, m, .save⟩ =>
      if s.delta.pickFlushEntry.isEmpty then
        some { s with delta := { s.delta with ops := [] }, checkpoint := none }
      else some { s with
        catalog := { s.catalog with
          deltas := s.catalog.deltas.filter (·.maxCommitTs ≠ m) ++ [⟨m, none⟩] }
        delta := { s.delta with ops := [] }
        checkpoint := some ⟨false, m, .write s.delta.pickFlushEntry⟩ }
    | _ => none
  | .writeDelta =>
    match s.checkpoint with
    | some ⟨false, m, .write ops⟩ =>
      some { s with
        catalog := { s.catalog with
          deltas := s.catalog.deltas.filter (·.maxCommitTs ≠ m) ++ [⟨m, some ops⟩] }
        lastCkpTs := m
        checkpoint := some ⟨false, m, .recycleWal⟩ }
    | _ => none
  | .deleteWal n =>
    match s.checkpoint with
    | some ⟨_, m, .recycleWal⟩ =>
      if n ≤ m ∧ n ∈ s.wal.swapped.map WalFile.maxCommitTs then
        some { s with
          wal := { s.wal with swapped := s.wal.swapped.filter (·.maxCommitTs ≠ n) }
          reach := max s.reach n }
      else none
    | _ => none
  | .walRecycled =>
    match s.checkpoint with
    | some ⟨true, m, .recycleWal⟩ =>
      some { s with lastFullCkpTs := m, checkpoint := some ⟨true, m, .recycleCatalog⟩ }
    | some ⟨false, m, .recycleWal⟩ =>
      some { s with checkpoint := none, unlogged := s.unlogged ++ [m] }
    | _ => none
  | .deleteFull n =>
    match s.checkpoint with
    | some ⟨true, m, .recycleCatalog⟩ =>
      if n < m ∧ n ∈ s.catalog.fulls.map CatalogFile.maxCommitTs then
        some { s with
          catalog := { s.catalog with fulls := s.catalog.fulls.filter (·.maxCommitTs ≠ n) }
          reach := max s.reach m }
      else none
    | _ => none
  | .deleteDelta n =>
    match s.checkpoint with
    | some ⟨true, m, .recycleCatalog⟩ =>
      if n ≤ m ∧ n ∈ s.catalog.deltas.map CatalogFile.maxCommitTs ∧ ∀ f ∈ s.catalog.fulls,
          m ≤ f.maxCommitTs then
        some { s with
          catalog := { s.catalog with deltas := s.catalog.deltas.filter (·.maxCommitTs ≠ n) }
          reach := max s.reach m }
      else none
    | _ => none
  | .catalogRecycled =>
    match s.checkpoint with
    | some ⟨true, m, .recycleCatalog⟩ =>
      if (∀ f ∈ s.catalog.fulls, m ≤ f.maxCommitTs) ∧
          m ∈ s.catalog.fulls.map CatalogFile.maxCommitTs ∧
          ∀ f ∈ s.catalog.deltas, m < f.maxCommitTs then
        some { s with checkpoint := none, unlogged := s.unlogged ++ [m] }
      else none
    | _ => none
  | .logCheckpoint m ts =>
    if m ∈ s.unlogged then
      (s.flush (.checkpoint ts m)).map fun s' =>
        { s' with unlogged := s.unlogged.erase m, newest := m }
    else none

end Sys

def checkpointing : TransitionSystem Sys Action where
  Initial s := s = .start
  step := Sys.step

/-- Recovery of the files of a state reflects exactly the flushed transactions. -/
def Sys.Recovers (s : Sys) : Prop := replayWalFile s.wal s.catalog = .ok s.history

/-- A transaction is flushed and a full checkpoint follows; the crash comes when the old full
catalog is deleted and the entry with the checkpoint command is not flushed yet. -/
def fullCheckpointRun : List Action :=
  [.commit 2, .addDeltaEntry, .beginCheckpoint true, .saveTemp, .renameFull, .walRecycled,
    .deleteFull 0]

/-- The last checkpoint command in the log asks for the full catalog that has been deleted, and
recovery raises. -/
theorem not_recovers_fullCheckpointRun :
    ∃ s, checkpointing.Reachable s ∧ checkpointing.run .start fullCheckpointRun = some s ∧
    ¬ s.Recovers := by
  refine ⟨_, TransitionSystem.Reachable.of_run fullCheckpointRun (.initial rfl) rfl, rfl, ?_⟩
  intro h
  cases h

end Infinity.Wal
