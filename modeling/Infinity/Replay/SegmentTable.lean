import Infinity.Compaction.Table

/-! # The segments of a table with their rows (`TableEntry::AppendData`, `WalCmd*Replay`)

`segment_map_` holds the segments of a table by their ids. An append fills the unsealed segment and
opens a new one under the next id when there is no room; an import and a compaction bring segments
of their own. The replay of the log calls the same append, and puts the segments of imports and
compactions under the ids that are logged.

* `TableEntry.addSegmentReplayWal`: a segment of the log, which may take the place of another
one. -/

namespace Infinity.Replay

open Compaction (SegmentStatus)

variable {ρ : Type}

/-! ## Segments -/

/-- `DEFAULT_SEGMENT_CAPACITY`. -/
def defaultSegmentCapacity : ℕ := 1024 * 8192

/-- The errors of the methods. -/
inductive SegmentError where
  /-- `AppendData to sealed/compacting/no_delete/deprecated segment`. -/
  | appendStatus
  /-- `Segment {} error, row_count {}, capacity {}`. -/
  | appendFull
  /-- `Set sealed segment failed, segment id: {}`. -/
  | setSealed
  /-- `Assert: Replay segment should be compactable.` -/
  | notCompactable
  /-- `Assert: kNoDelete is only allowed to set on compacting segment.` -/
  | noDelete
  /-- `Assert: kDeprecated is only allowed to set on compacting segment.` -/
  | deprecate
  /-- `Assert: Rollbacked segment should be in No Delete state.` -/
  | rollbackStatus
  /-- `Assert: Should not commit delete to deprecated segment.` -/
  | commitDeprecated
  /-- `Insert segment {} failed.` -/
  | insertFailed
  /-- `RollbackCompact: segment {} is committed`. -/
  | rollbackCommitted
  /-- `RollbackCompact: segment {} not found`. -/
  | rollbackNotFound
  /-- A null pointer is read. -/
  | nullPointer
  /-- The rounds given to an append do not suffice. -/
  | notFinished
  deriving DecidableEq

/-- `SegmentEntry` with the rows of its blocks. -/
structure Segment (ρ : Type) where
  rows : List ρ
  status : SegmentStatus
  committed : Bool
  txnId : ℕ
  deriving DecidableEq

namespace Segment

/-- `SegmentEntry::NewSegmentEntry`. -/
def newSegmentEntry (txnId : ℕ) : Segment ρ := ⟨[], .unsealed, false, txnId⟩

/-- `SegmentEntry::Room`. -/
def room (s : Segment ρ) : ℕ := defaultSegmentCapacity - s.rows.length

/-- `SegmentEntry::AppendData`: the segment, and the rows that it has no room for. -/
def appendData (s : Segment ρ) (rows : List ρ) : Except SegmentError (Segment ρ × List ρ) :=
  if s.status ≠ .unsealed then .error .appendStatus
  else if defaultSegmentCapacity ≤ s.rows.length then .error .appendFull
  else .ok ({ s with rows := s.rows ++ rows.take s.room }, rows.drop s.room)

/-- `SegmentEntry::SetSealed`, with the error of its caller. -/
def setSealed (s : Segment ρ) : Except SegmentError (Segment ρ) :=
  if s.status = .unsealed then .ok { s with status := .sealed } else .error .setSealed

/-- `SegmentEntry::TrySetCompacting`. -/
def trySetCompacting (s : Segment ρ) : Option (Segment ρ) :=
  if s.status = .sealed then some { s with status := .compacting } else none

/-- `SegmentEntry::SetNoDelete` of a segment without deletes. -/
def setNoDelete (s : Segment ρ) : Except SegmentError (Segment ρ) :=
  if s.status = .compacting ∨ s.status = .noDelete then .ok { s with status := .noDelete }
  else .error .noDelete

/-- `SegmentEntry::SetDeprecated`. -/
def setDeprecated (s : Segment ρ) : Except SegmentError (Segment ρ) :=
  if s.status = .noDelete then .ok { s with status := .deprecated } else .error .deprecate

/-- `SegmentEntry::RollbackCompact`. -/
def rollbackCompact (s : Segment ρ) : Except SegmentError (Segment ρ) :=
  if s.status = .noDelete then .ok { s with status := .sealed } else .error .rollbackStatus

/-- `SegmentEntry::CommitSegment`. -/
def commitSegment (s : Segment ρ) : Except SegmentError (Segment ρ) :=
  if s.status = .deprecated then .error .commitDeprecated else .ok { s with committed := true }

/-- The old segments of a compaction in `WalCmdCompactReplay`. -/
def deprecateReplay (s : Segment ρ) : Except SegmentError (Segment ρ) :=
  match s.trySetCompacting with
  | none => .error .notCompactable
  | some s' => s'.setNoDelete >>= setDeprecated

end Segment

/-! ## Tables -/

/-- `TableEntry`, as far as its segments are concerned. -/
structure TableEntry (ρ : Type) where
  segmentMap : ℕ → Option (Segment ρ)
  nextSegmentId : ℕ
  unsealedId : Option ℕ
  /-- `unsealed_segment_`, if it is not the segment that `segment_map_` has under `unsealed_id_`. -/
  stray : Option (Segment ρ)

/-- `append_state_` and the part of `TxnTableStore` that an append changes. -/
structure AppendState (ρ : Type) where
  rest : List ρ
  sealing : List ℕ
  /-- The segments of `txn_segments_store_` that are in `segment_map_`. -/
  stored : List ℕ

namespace TableEntry

def empty : TableEntry ρ := ⟨fun _ => none, 0, none, none⟩

def setSegment (t : TableEntry ρ) (id : ℕ) (s : Segment ρ) : TableEntry ρ :=
  { t with segmentMap := fun j => if j = id then some s else t.segmentMap j }

def modify (t : TableEntry ρ) (f : Segment ρ → Except SegmentError (Segment ρ)) (id : ℕ) :
    Except SegmentError (TableEntry ρ) :=
  match t.segmentMap id with
  | none => .error .nullPointer
  | some s => (f s).map (t.setSegment id)

/-- `unsealed_segment_`. -/
def unsealedSegment (t : TableEntry ρ) : Option (Segment ρ) :=
  t.stray.or (t.unsealedId.bind t.segmentMap)

/-- `unsealed_segment_` is missing or has no room. -/
def full (t : TableEntry ρ) : Bool := t.unsealedSegment.all fun s => s.room = 0

/-- A new unsealed segment. `emplace` changes nothing where the id is already there. -/
def openSegment (t : TableEntry ρ) (txnId : ℕ) : TableEntry ρ :=
  let new : Segment ρ := .newSegmentEntry txnId
  { t.setSegment t.nextSegmentId ((t.segmentMap t.nextSegmentId).getD new) with
    nextSegmentId := t.nextSegmentId + 1
    unsealedId := some t.nextSegmentId
    stray := if (t.segmentMap t.nextSegmentId).isSome then some new else none }

/-- `unsealed_segment_` is changed. -/
def putUnsealed (t : TableEntry ρ) (id : ℕ) (s : Segment ρ) : TableEntry ρ :=
  if t.stray.isSome then { t with stray := some s } else t.setSegment id s

/-- The part of a round that appends to the unsealed segment. -/
def fillUnsealed (t : TableEntry ρ) (state : AppendState ρ) :
    Except SegmentError (TableEntry ρ × AppendState ρ) :=
  match t.unsealedId, t.unsealedSegment with
  | some id, some s =>
    (s.appendData state.rest).map fun p =>
      (t.putUnsealed id p.1, { state with
          rest := p.2
          stored := if t.stray.isSome then state.stored else state.stored ++ [id] })
  | _, _ => .error .nullPointer

/-- A round of the loop of `TableEntry::AppendData`. -/
def appendRound (t : TableEntry ρ) (txnId : ℕ) (state : AppendState ρ) :
    Except SegmentError (TableEntry ρ × AppendState ρ) :=
  if t.full then
    (t.openSegment txnId).fillUnsealed
      { state with sealing := state.sealing ++ t.unsealedId.toList }
  else t.fillUnsealed state

/-- The loop of `TableEntry::AppendData`, with a bound on the number of its rounds. -/
def appendData (txnId : ℕ) : ℕ → TableEntry ρ → AppendState ρ →
    Except SegmentError (TableEntry ρ × AppendState ρ)
  | 0, t, state => if state.rest.isEmpty then .ok (t, state) else .error .notFinished
  | n + 1, t, state =>
    if state.rest.isEmpty then .ok (t, state)
    else t.appendRound txnId state >>= fun p => appendData txnId n p.1 p.2

/-- `TableEntry::CommitWrite`. -/
def commitWrite (t : TableEntry ρ) (ids : List ℕ) : Except SegmentError (TableEntry ρ) :=
  ids.foldlM (fun t id => t.modify Segment.commitSegment id) t

end TableEntry

/-! ## The log -/

/-- `WalSegmentInfo`, with the rows of the flushed files. -/
structure SegmentInfo (ρ : Type) where
  segmentId : ℕ
  rows : List ρ
  deriving DecidableEq

/-- The commands of the log about the segments of the table. -/
inductive WalCmd (ρ : Type) where
  | append (block : List ρ)
  | importSegment (info : SegmentInfo ρ)
  | compact (newSegmentInfos : List (SegmentInfo ρ)) (deprecatedSegmentIds : List ℕ)
  deriving DecidableEq

namespace TableEntry

/-- `TableEntry::AddSegmentReplayWal` of the segment of `WalManager::ReplaySegment`. What the map
had under the id is lost, unless it is the unsealed segment. -/
def addSegmentReplayWal (t : TableEntry ρ) (info : SegmentInfo ρ) : TableEntry ρ :=
  { t.setSegment info.segmentId ⟨info.rows, .sealed, true, 0⟩ with
    nextSegmentId := t.nextSegmentId + 1
    stray :=
      if t.unsealedId = some info.segmentId then t.stray.or (t.segmentMap info.segmentId)
      else t.stray }

/-- `WalManager::WalCmdAppendReplay`. The full segments are not set sealed. -/
def walCmdAppendReplay (t : TableEntry ρ) (block : List ρ) : Except SegmentError (TableEntry ρ) :=
  appendData 0 block.length t ⟨block, [], []⟩ >>= fun p => p.1.commitWrite p.2.stored

/-- `WalManager::WalCmdCompactReplay`. -/
def walCmdCompactReplay (t : TableEntry ρ) (newSegmentInfos : List (SegmentInfo ρ))
    (deprecatedSegmentIds : List ℕ) : Except SegmentError (TableEntry ρ) :=
  deprecatedSegmentIds.foldlM (fun t id => t.modify Segment.deprecateReplay id)
    (newSegmentInfos.foldl addSegmentReplayWal t)

/-- `WalManager::ReplayWalEntry`, for one command. -/
def replayWalCmd (t : TableEntry ρ) : WalCmd ρ → Except SegmentError (TableEntry ρ)
  | .append block => t.walCmdAppendReplay block
  | .importSegment info => .ok (t.addSegmentReplayWal info)
  | .compact newSegmentInfos deprecatedSegmentIds =>
    t.walCmdCompactReplay newSegmentInfos deprecatedSegmentIds

end TableEntry

/-- The replay of the commands of the log, from the empty table. -/
def replay (log : List (WalCmd ρ)) : Except SegmentError (TableEntry ρ) :=
  log.foldlM TableEntry.replayWalCmd .empty

end Infinity.Replay
