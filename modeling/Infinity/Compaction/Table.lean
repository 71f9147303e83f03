import Infinity.Transactions.TxnManager

/-! # The segments of a table during a compaction (`TableEntry`, `SegmentEntry`)

A compaction puts its new segments into `segment_map_` before it commits; the bottom half of its
commit sets their commit time stamp and the deprecation time stamp of the old segments. In between
the visibility of the new segments is decided by the state of the compaction's transaction
(`CheckIfCommitting`). The table is modelled together with the transaction manager, so that readers
and commits interleave in every way.

* `SegmentEntry.checkVisible`, `Table.inBlockIndex`: what a transaction sees.
* `not_switched_windowRun`: a reader that sees the old segment and the new one.
-/

namespace Infinity.Compaction

open Foundations Transactions

/-! ## Segments -/

/-- `SegmentStatus`. -/
inductive SegmentStatus where
  | unsealed
  | sealed
  | compacting
  | noDelete
  | deprecated
  deriving DecidableEq

/-- `SegmentEntry`, as far as its visibility is concerned. -/
structure SegmentEntry where
  txnId : ℕ
  /-- `commit_ts_`; none stands for `UNCOMMIT_TS`. -/
  commitTs : Option ℕ
  /-- `deprecate_ts_`; none stands for `UNCOMMIT_TS`. -/
  deprecateTs : Option ℕ
  status : SegmentStatus
  deriving DecidableEq

namespace SegmentEntry

/-- `SegmentEntry::NewSegmentEntry`. -/
def newSegmentEntry (txnId : ℕ) : SegmentEntry := ⟨txnId, none, none, .unsealed⟩

/-- `BaseEntry::CheckVisible`. -/
def baseCheckVisible (e : SegmentEntry) (mgr : TxnManager) (txnId beginTs : ℕ) : Bool :=
  e.commitTs.any (· ≤ beginTs) || e.txnId = txnId || mgr.checkIfCommitting e.txnId beginTs

/-- `SegmentEntry::CheckVisible`. -/
def checkVisible (e : SegmentEntry) (mgr : TxnManager) (txnId beginTs : ℕ) : Bool :=
  e.deprecateTs.all (beginTs < ·) && e.baseCheckVisible mgr txnId beginTs

/-- `SegmentEntry::CommitSegment`: the time stamp is that of the first commit. A flushed segment is
sealed by `SetSealed` in the same commit. -/
def commitSegment (e : SegmentEntry) (commitTs : ℕ) (flushed : Bool) : SegmentEntry := { e with
    commitTs := e.commitTs.or (some commitTs)
    status := if flushed then .sealed else e.status }

/-- `SegmentEntry::SetDeprecated`. -/
def setDeprecated (e : SegmentEntry) (deprecateTs : ℕ) : SegmentEntry :=
  { e with deprecateTs := some deprecateTs, status := .deprecated }

/-- `SegmentEntry::RollbackCompact`. -/
def rollbackCompact (e : SegmentEntry) : SegmentEntry :=
  { e with deprecateTs := none, status := .sealed }

end SegmentEntry

/-! ## The table -/

/-- The table with the transaction manager and the stores of the transactions. -/
structure Table where
  mgr : TxnManager
  segmentMap : ℕ → Option SegmentEntry
  nextSegmentId : ℕ
  /-- `txn_segments_store_` of a transaction: the segments it has added, and which of them are in
  `flushed_segments_`. -/
  added : ℕ → List (ℕ × Bool)
  /-- `compact_data_` of a transaction: each new segment with its old ones. -/
  compactData : ℕ → List (ℕ × List ℕ)

namespace Table

def olds (s : Table) (i : ℕ) : List ℕ := (s.compactData i).flatMap Prod.snd

def news (s : Table) (i : ℕ) : List ℕ := (s.compactData i).map Prod.fst

/-- Whether `TableEntry::GetBlockIndex` of a transaction contains a segment. -/
def inBlockIndex (s : Table) (i segmentId : ℕ) : Bool := (s.mgr.txns i).any fun t =>
    (s.segmentMap segmentId).any fun e => e.checkVisible s.mgr i t.beginTs

/-- The segments of `TableEntry::CommitCompact` and `TableEntry::CommitWrite`. -/
def commitWrite (s : Table) (i commitTs : ℕ) (segmentId : ℕ) : Option SegmentEntry :=
  (s.segmentMap segmentId).map fun e =>
    if segmentId ∈ s.olds i then e.setDeprecated commitTs
    else if (segmentId, true) ∈ s.added i then e.commitSegment commitTs true
    else if (segmentId, false) ∈ s.added i then e.commitSegment commitTs false
    else e

/-- `TableEntry::RollbackCompact`. -/
def rollbackCompact (s : Table) (i : ℕ) : Table := { s with
    segmentMap := fun segmentId =>
      if segmentId ∈ s.news i then none
      else if segmentId ∈ s.olds i then (s.segmentMap segmentId).map SegmentEntry.rollbackCompact
      else s.segmentMap segmentId
    compactData := fun j => if j = i then [] else s.compactData j }

/-- What an action of a transaction does to the table: the bottom half of a commit and a rollback
change it. -/
def afterTxn (s : Table) : Action → Table
  | .commitBottom =>
    match s.mgr.waitFlush with
    | i :: _ => { s with segmentMap := s.commitWrite i (((s.mgr.txns i).map Txn.commitTs).getD 0) }
    | [] => s
  | .rollback i => s.rollbackCompact i
  | .abort i => s.rollbackCompact i
  | _ => s

/-- Whether an action is that of a transaction which is not read-only but commits as if it were. -/
def readsOnly (s : Table) : Action → Bool
  | .commitRead i => (s.added i).isEmpty && (s.compactData i).isEmpty
  | _ => true

/-- `TableEntry::Import`, and the new segment of `TableEntry::AppendData`. -/
def addSegment (s : Table) (i : ℕ) (flushed : Bool) : Table := { s with
    segmentMap := fun segmentId =>
      if segmentId = s.nextSegmentId then some (.newSegmentEntry i) else s.segmentMap segmentId
    nextSegmentId := s.nextSegmentId + 1
    added := fun j => if j = i then s.added i ++ [(s.nextSegmentId, flushed)] else s.added j }

/-- The new segments of a compaction with their old ones. -/
def groupData (next : ℕ) : List (List ℕ) → List (ℕ × List ℕ)
  | [] => []
  | group :: groups => (next, group) :: groupData (next + 1) groups

/-- `Txn::Compact` with `TableEntry::AddCompactNew`, after `TrySetCompacting` and `SetNoDelete` of
the old segments. -/
def compact (s : Table) (i : ℕ) (groups : List (List ℕ)) : Table := { s with
    segmentMap := fun segmentId =>
      if s.nextSegmentId ≤ segmentId ∧ segmentId < s.nextSegmentId + groups.length then
        some (.newSegmentEntry i)
      else if segmentId ∈ groups.flatten then
        (s.segmentMap segmentId).map ({ · with status := .noDelete })
      else s.segmentMap segmentId
    nextSegmentId := s.nextSegmentId + groups.length
    added := fun j =>
      if j = i then s.added i ++ (groupData s.nextSegmentId groups).map (·.1, true) else s.added j
    compactData := fun j => if j = i then groupData s.nextSegmentId groups else s.compactData j }

def start : Table where
  mgr := .start
  segmentMap _ := none
  nextSegmentId := 0
  added _ := []
  compactData _ := []

end Table

/-! ## Actions -/

/-- The actions on a table. -/
inductive TableAction where
  | txn (a : Action)
  | addSegment (i : ℕ) (flushed : Bool)
  | setSealed (segmentId : ℕ)
  | compact (i : ℕ) (groups : List (List ℕ))

namespace Table

/-- Whether a transaction can add a segment: an import while it runs, an append in the bottom half
of its commit. -/
def canAdd (s : Table) (i : ℕ) : Bool := (s.mgr.txns i).any fun t =>
    t.stage = .running || t.stage = .sent && s.mgr.waitFlush.head? = some i

/-- Whether a compaction can take a segment: it is in the block index of the transaction, and
`TrySetCompacting` succeeds. -/
def canCompact (s : Table) (i segmentId : ℕ) : Bool :=
  s.inBlockIndex i segmentId && (s.segmentMap segmentId).any (·.status = .sealed)

/-- The state after an action. The process ends when `DeleteData` fails. -/
def step (s : Table) : TableAction → Option Table
  | .txn a =>
    (s.mgr.step a).bind fun mgr =>
      if s.readsOnly a && !mgr.failed then some { s.afterTxn a with mgr := mgr } else none
  | .addSegment i flushed => if s.canAdd i then some (s.addSegment i flushed) else none
  | .setSealed segmentId =>
    (s.segmentMap segmentId).bind fun e =>
      if e.status = .unsealed ∧ e.commitTs.isSome then
        some { s with segmentMap := fun j =>
          if j = segmentId then some { e with status := .sealed } else s.segmentMap j }
      else none
  | .compact i groups =>
    (s.mgr.txns i).bind fun t =>
      if t.stage = .running ∧ s.compactData i = [] ∧ groups.flatten.Nodup ∧
          groups.flatten.all (s.canCompact i) then
        some (s.compact i groups)
      else none

end Table

def compacting : TransitionSystem Table TableAction where
  Initial s := s = .start
  step := Table.step

/-- The block index of a transaction contains all old segments and not the new one, or the new one
and none of the old ones. -/
def Table.Switched (s : Table) (j newId : ℕ) (oldIds : List ℕ) : Prop :=
  (∀ id ∈ oldIds, s.inBlockIndex j id = true) ∧ s.inBlockIndex j newId = false ∨
    s.inBlockIndex j newId = true ∧ ∀ id ∈ oldIds, s.inBlockIndex j id = false

/-- An import commits; a compaction of the segment becomes `kCommitting`, and a reader begins before
the bottom half of its commit. -/
def windowRun : List TableAction :=
  [.txn (.beginTxn ⟨∅, []⟩), .addSegment 1 true, .txn (.getCommitTimeStampW 1),
    .txn (.setTxnCommitting 1), .txn (.prepareCommit1 1), .txn (.checkConflict 1),
    .txn (.sendToWAL 1), .txn .commitBottom, .txn (.finishTxn 1),
    .txn (.beginTxn ⟨∅, []⟩), .compact 2 [[0]], .txn (.getCommitTimeStampW 2),
    .txn (.setTxnCommitting 2), .txn (.beginTxn ⟨∅, []⟩)]

/-- The reader sees the old segment and the new one. -/
theorem not_switched_windowRun : ∃ s, compacting.Reachable s ∧ compacting.run .start windowRun =
    some s ∧
    s.compactData 2 = [(1, [0])] ∧ (s.inBlockIndex 3 0 = true ∧ s.inBlockIndex 3 1 = true) ∧
    ¬ s.Switched 3 1 [0] := by
  refine ⟨_, TransitionSystem.Reachable.of_run windowRun (.initial rfl) rfl, rfl, rfl,
    ⟨rfl, rfl⟩, ?_⟩
  rintro (⟨-, h⟩ | ⟨-, h⟩)
  · cases h
  · cases h 0 (.head _)

end Infinity.Compaction
