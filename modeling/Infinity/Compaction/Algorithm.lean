import Infinity.Foundations.Outcome

/-! # The choice of the segments to compact (`DBTCompactionAlg`)

The algorithm keeps the sealed segments of a table in layers by their row counts. `CheckCompaction`
takes the segments of a full layer out and gives them to a transaction, `CommitCompact` forgets them
and `RollbackCompact` puts them back. A manual compaction disables the algorithm, which clears the
layers, and enables it at its end with a list of segments.

* `DBTCompactionAlg.held`, `DBTCompactionAlg.picked`: the segments in the layers, and those in the
  lists of transactions. -/

namespace Infinity.Compaction

open Foundations

/-! ## Layers -/

/-- `DBTConfig`; the constructor checks `m`. -/
structure DBTConfig where
  /-- `m_`: the number of segments that makes a layer full. -/
  m : ℕ
  calculateLayer : ℕ → ℕ
  m_pos : 0 < m
  monotone : Monotone calculateLayer

/-- The configuration of a table: `DBT_COMPACTION_M`, `DBT_COMPACTION_C`, `DBT_COMPACTION_S`. -/
def DBTConfig.default : DBTConfig where
  m := 4
  calculateLayer rowCnt := Nat.log 4 (rowCnt / 8192)
  m_pos := by decide
  monotone _ _ h := Nat.log_mono_right (Nat.div_le_div_right h)

/-- The errors of the methods. -/
inductive AlgError where
  /-- "SegmentID conflict". -/
  | segmentIdConflict (segmentId : ℕ)
  /-- "Segment not found in layer". -/
  | segmentNotFound (segmentId : ℕ)
  /-- "TransactionID conflict". -/
  | txnIdConflict (txnId : ℕ)
  /-- "TransactionID not found in layer". -/
  | txnNotFound (txnId : ℕ)
  /-- "Shrink segment should has less rows than before". -/
  | shrinkGrows
  /-- "Wrong status of compaction alg". -/
  | wrongStatus
  /-- "Rollback compact when compaction not running". -/
  | rollbackNotRunning
  /-- "Enable compaction when compaction not disable". -/
  | enableNotDisable
  /-- "Running task is not 0 when enable compaction". -/
  | enableRunning
  deriving DecidableEq

/-- `SegmentLayer`. -/
structure SegmentLayer where
  segments : List ℕ
  compactingSegmentsMap : List (ℕ × List ℕ)
  deriving DecidableEq

namespace SegmentLayer

def empty : SegmentLayer := ⟨[], []⟩

/-- `SegmentLayer::AddSegment`. -/
def addSegment (l : SegmentLayer) (segmentId : ℕ) : Except AlgError SegmentLayer :=
  if segmentId ∈ l.segments then .error (.segmentIdConflict segmentId)
  else .ok { l with segments := segmentId :: l.segments }

/-- `SegmentLayer::RemoveSegment`. -/
def removeSegment (l : SegmentLayer) (segmentId : ℕ) : Except AlgError SegmentLayer :=
  if segmentId ∈ l.segments then .ok { l with segments := l.segments.erase segmentId }
  else .error (.segmentNotFound segmentId)

/-- `SegmentLayer::PickCompacting`, with the segments that the order of the hash map brings
first. -/
def pickCompacting (l : SegmentLayer) (txnId : ℕ) (chosen : List ℕ) :
    Except AlgError SegmentLayer :=
  if l.compactingSegmentsMap.any (·.1 = txnId) then .error (.txnIdConflict txnId)
  else
    .ok ⟨l.segments.filter (· ∉ chosen), (txnId, chosen) :: l.compactingSegmentsMap⟩

/-- `SegmentLayer::CommitCompact`. -/
def commitCompact (l : SegmentLayer) (txnId : ℕ) : Except AlgError SegmentLayer :=
  if l.compactingSegmentsMap.any (·.1 = txnId) then
    .ok { l with compactingSegmentsMap := l.compactingSegmentsMap.filter (·.1 ≠ txnId) }
  else .error (.txnNotFound txnId)

/-- `SegmentLayer::RollbackCompact`. -/
def rollbackCompact (l : SegmentLayer) (txnId : ℕ) : Except AlgError SegmentLayer :=
  match l.compactingSegmentsMap.find? (·.1 = txnId) with
  | some (_, segments) =>
    segments.foldlM addSegment
      { l with compactingSegmentsMap := l.compactingSegmentsMap.filter (·.1 ≠ txnId) }
  | none => .error (.txnNotFound txnId)

end SegmentLayer

/-! ## The algorithm -/

/-- `CompactionStatus`. -/
inductive CompactionStatus where
  | disable
  | enable
  | running
  deriving DecidableEq

/-- `DBTCompactionAlg`. -/
structure DBTCompactionAlg where
  status : CompactionStatus
  segmentLayers : List SegmentLayer
  runningTaskN : ℕ
  txn2Layer : List (ℕ × ℕ)
  deriving DecidableEq

namespace DBTCompactionAlg

/-- The algorithm of a new table, which is enabled in the constructor of `TableEntry`. -/
def make : DBTCompactionAlg := ⟨.enable, [], 0, []⟩

/-- `segment_layers_[layer] = l`. -/
def setLayer (a : DBTCompactionAlg) (layer : ℕ) (l : SegmentLayer) : DBTCompactionAlg :=
  { a with segmentLayers := a.segmentLayers.set layer l }

/-- A layer is changed by a method that may raise an error. -/
def onLayer (a : DBTCompactionAlg) (layer : ℕ) (f : SegmentLayer → Except AlgError SegmentLayer) :
    Except AlgError DBTCompactionAlg :=
  (f (a.segmentLayers[layer]?.getD .empty)).map (a.setLayer layer)

/-- `segment_layers_.resize` to at least a number of layers. -/
def resize (a : DBTCompactionAlg) (count : ℕ) : DBTCompactionAlg := { a with
    segmentLayers := a.segmentLayers ++ List.replicate (count - a.segmentLayers.length) .empty }

/-- `DBTCompactionAlg::AddSegmentInner`. -/
def addSegmentInner (cfg : DBTConfig) (a : DBTCompactionAlg) (segmentId actualRowCount : ℕ) :
    Except AlgError DBTCompactionAlg :=
  let layer := cfg.calculateLayer actualRowCount
  (a.resize (layer + 1)).onLayer layer (·.addSegment segmentId)

/-- `DBTCompactionAlg::CheckCompaction`: the last layer that is full. -/
def fullLayer (cfg : DBTConfig) (a : DBTCompactionAlg) : ℕ → Option ℕ
  | 0 => none
  | n + 1 =>
    if cfg.m ≤ (a.segmentLayers[n]?.getD .empty).segments.length then some n else a.fullLayer cfg n

/-- `DBTCompactionAlg::CheckCompaction`, with the segments that are picked if there are any. -/
def checkCompaction (cfg : DBTConfig) (a : DBTCompactionAlg) (txnId : ℕ) (chosen : List ℕ) :
    Except AlgError (DBTCompactionAlg × List ℕ) :=
  if a.status = .disable then .ok (a, [])
  else
    match a.fullLayer cfg a.segmentLayers.length with
    | none => .ok (a, [])
    | some layer =>
      ({ a with
        runningTaskN := a.runningTaskN + 1
        status := if a.runningTaskN + 1 = 1 then .running else a.status
        txn2Layer := (txnId, layer) :: a.txn2Layer }.onLayer layer
          (·.pickCompacting txnId chosen)).map (·, chosen)

/-- `DBTCompactionAlg::FindSegmentAndLayer`. -/
def findSegmentAndLayer (a : DBTCompactionAlg) (segmentId : ℕ) : Option ℕ :=
  a.segmentLayers.findIdx? (segmentId ∈ ·.segments)

/-- `DBTCompactionAlg::DeleteInSegment`, with the row count that the segment has now. -/
def deleteInSegment (cfg : DBTConfig) (a : DBTCompactionAlg) (segmentId newRowCnt : ℕ) :
    Except AlgError DBTCompactionAlg :=
  match a.findSegmentAndLayer segmentId with
  | none => .ok a
  | some oldLayer =>
    let newLayer := cfg.calculateLayer newRowCnt
    if newLayer = oldLayer then .ok a
    else if oldLayer < newLayer then .error .shrinkGrows
    else
      a.onLayer oldLayer (·.removeSegment segmentId) >>= fun a =>
        a.onLayer newLayer (·.addSegment segmentId)

def finishTask (a : DBTCompactionAlg) (txnId : ℕ) : DBTCompactionAlg := { a with
    txn2Layer := a.txn2Layer.filter (·.1 ≠ txnId)
    runningTaskN := a.runningTaskN - 1
    status := if a.runningTaskN - 1 = 0 then .enable else a.status }

/-- `DBTCompactionAlg::CommitCompact`. -/
def commitCompact (a : DBTCompactionAlg) (txnId : ℕ) : Except AlgError DBTCompactionAlg :=
  if a.status ≠ .running then .error .wrongStatus
  else
    match a.txn2Layer.find? (·.1 = txnId) with
    | some (_, layer) => (a.onLayer layer (·.commitCompact txnId)).map (·.finishTask txnId)
    | none => .error (.txnNotFound txnId)

/-- `DBTCompactionAlg::RollbackCompact`. -/
def rollbackCompact (a : DBTCompactionAlg) (txnId : ℕ) : Except AlgError DBTCompactionAlg :=
  if a.status ≠ .running then .error .rollbackNotRunning
  else
    match a.txn2Layer.find? (·.1 = txnId) with
    | some (_, layer) => (a.onLayer layer (·.rollbackCompact txnId)).map (·.finishTask txnId)
    | none => .error (.txnNotFound txnId)

/-- `DBTCompactionAlg::Enable`, with the row counts of the segments. -/
def enable (cfg : DBTConfig) (a : DBTCompactionAlg) (segments : List (ℕ × ℕ)) :
    Except AlgError DBTCompactionAlg :=
  if a.status ≠ .disable then .error .enableNotDisable
  else
    segments.foldlM (fun a s => a.addSegmentInner cfg s.1 s.2) a >>= fun a =>
      if a.runningTaskN ≠ 0 then .error .enableRunning else .ok { a with status := .enable }

/-- `DBTCompactionAlg::Disable`, when the wait is over. -/
def disable (a : DBTCompactionAlg) : DBTCompactionAlg :=
  { a with segmentLayers := [], status := .disable }

def held (a : DBTCompactionAlg) : List ℕ := a.segmentLayers.flatMap SegmentLayer.segments

def pickedLists (a : DBTCompactionAlg) : List (ℕ × List ℕ) :=
  a.segmentLayers.flatMap SegmentLayer.compactingSegmentsMap

def picked (a : DBTCompactionAlg) : List ℕ := a.pickedLists.flatMap Prod.snd

end DBTCompactionAlg

end Infinity.Compaction
