import Infinity.Compaction.Algorithm
import Infinity.Compaction.Table

/-! # The compaction algorithm and the segments of a table

The bottom half of a commit seals segments, and `MaintainCompactionAlg` tells the algorithm of them
afterwards. An automatic compaction starts with the segments that `CheckCompaction` has picked, a
manual one disables the algorithm and looks for segments itself. Both take their segments with
`TrySetCompacting`, close them with `SetNoDelete` and end with a commit or a rollback, which may
come at any point. Delete transactions register in the segments and make them smaller.

* `not_tracked_skippedRun`: a manual compaction loses a segment that it does not compact.
-/

namespace Infinity.Compaction.Tracking

open Foundations

/-! ## The groups of a manual compaction -/

/-- One look into `segments_` of `GreedyCompactableSegmentsGenerator`, which is sorted by the row
count: the largest segment that fits, and the others. -/
def takeLargest (segmentSize : ℕ) (segments : List (ℕ × ℕ)) : Option ((ℕ × ℕ) × List (ℕ × ℕ)) :=
  let fitting := segments.takeWhile (·.1 ≤ segmentSize)
  fitting.getLast?.map fun s => (s, fitting.dropLast ++ segments.dropWhile (·.1 ≤ segmentSize))

/-- The inner loop of `generate`, with as many rounds as there are segments. -/
def fillGroup : ℕ → ℕ → List (ℕ × ℕ) → List (ℕ × ℕ) × List (ℕ × ℕ)
  | 0, _, segments => ([], segments)
  | rounds + 1, segmentSize, segments =>
    match takeLargest segmentSize segments with
    | none => ([], segments)
    | some (s, segments') =>
      let (result, rest) := fillGroup rounds (segmentSize - s.1) segments'
      (s :: result, rest)

/-- The calls of `GreedyCompactableSegmentsGenerator::generate` until one returns nothing. A group
of one segment without deleted rows is dropped. -/
def generate (maxSegmentSize : ℕ) (intact : ℕ → Bool) : ℕ → List (ℕ × ℕ) → List (List ℕ)
  | 0, _ => []
  | rounds + 1, segments =>
    match fillGroup segments.length maxSegmentSize segments with
    | ([], _) => []
    | ([s], rest) =>
      if intact s.2 then generate maxSegmentSize intact rounds rest
      else [s.2] :: generate maxSegmentSize intact rounds rest
    | (result, rest) => result.map Prod.snd :: generate maxSegmentSize intact rounds rest

/-- `DEFAULT_SEGMENT_CAPACITY`. -/
def defaultSegmentCapacity : ℕ := 8192 * 1024

/-! ## The table -/

/-- `SegmentEntry`, as far as compactions are concerned. -/
structure Segment where
  status : SegmentStatus
  deleteTxns : List ℕ
  rowCount : ℕ
  actualRowCount : ℕ
  /-- Whether `MaintainCompactionAlg` has passed the segment to the algorithm. -/
  added : Bool
  deriving DecidableEq

def Segment.live (e : Segment) : Bool := e.status ≠ .unsealed && e.status ≠ .deprecated

/-- `CompactStatementType`. -/
inductive CompactType where
  | auto
  | manual
  deriving DecidableEq

/-- A compaction. -/
structure CompactTxn where
  type : CompactType
  /-- What the transaction has taken from the algorithm: the segments that were picked, or those
  that were in the layers before they were cleared. -/
  takenOut : List ℕ
  groups : Option (List (List ℕ))
  left : List ℕ
  taken : List ℕ
  compactData : Option (List (ℕ × List ℕ))
  deriving DecidableEq

def CompactTxn.olds (k : CompactTxn) : List ℕ := (k.compactData.getD []).flatMap Prod.snd

/-- The segments of a table with the algorithm. -/
structure Table where
  alg : DBTCompactionAlg
  segments : ℕ → Option Segment
  compactions : ℕ → Option CompactTxn
  failed : Option AlgError

namespace Table

def start : Table := ⟨.make, fun _ => none, fun _ => none, none⟩

def modifySegment (s : Table) (id : ℕ) (f : Segment → Segment) : Table :=
  { s with segments := Function.update s.segments id ((s.segments id).map f) }

def modifyAll (s : Table) (ids : List ℕ) (f : Segment → Segment) : Table :=
  { s with segments := fun id => if id ∈ ids then (s.segments id).map f else s.segments id }

def setCompaction (s : Table) (i : ℕ) (k : Option CompactTxn) : Table :=
  { s with compactions := Function.update s.compactions i k }

def onAlg (s : Table) : Except AlgError DBTCompactionAlg → Table
  | .ok a => { s with alg := a }
  | .error e => { s with failed := some e }

def status (s : Table) (id : ℕ) : Option SegmentStatus := (s.segments id).map Segment.status

def actualRowCount (s : Table) (id : ℕ) : ℕ := ((s.segments id).map Segment.actualRowCount).getD 0

/-! ## Imports and deletes -/

/-- The bottom half of a commit that seals a new segment. -/
def setSealed (s : Table) (id rowCount : ℕ) : Option Table :=
  if s.segments id = none then
    some { s with
      segments := Function.update s.segments id (some ⟨.sealed, [], rowCount, rowCount, false⟩) }
  else none

/-- `TxnTableStore::MaintainCompactionAlg` for a segment that was sealed. -/
def addSegment (cfg : DBTConfig) (s : Table) (id : ℕ) : Option Table :=
  (s.segments id).bind fun e =>
    if e.added then none
    else
      some ((s.modifySegment id ({ · with added := true })).onAlg
        (s.alg.addSegmentInner cfg id e.actualRowCount))

/-- `CheckDeleteConflict` of a delete transaction that finds the segment open. -/
def registerDelete (s : Table) (i id : ℕ) : Option Table := (s.segments id).bind fun e =>
    if e.status = .deprecated ∨ e.status = .noDelete then none
    else some (s.modifySegment id fun e => { e with deleteTxns := e.deleteTxns.insert i })

/-- `DeleteData` and `CommitSegment` of a delete transaction. -/
def commitDelete (s : Table) (i id rows : ℕ) : Option Table := (s.segments id).bind fun e =>
    if i ∈ e.deleteTxns ∧ rows ≤ e.actualRowCount then
      some (s.modifySegment id fun e => { e with
        deleteTxns := e.deleteTxns.erase i
        actualRowCount := e.actualRowCount - rows })
    else none

/-- `MaintainCompactionAlg` for a segment with deleted rows. -/
def deleteInSegment (cfg : DBTConfig) (s : Table) (id : ℕ) : Option Table :=
  some (s.onAlg (s.alg.deleteInSegment cfg id (s.actualRowCount id)))

/-! ## Compactions -/

/-- `CheckCompaction` for a new transaction, which becomes an automatic compaction if segments are
picked. -/
def checkCompaction (cfg : DBTConfig) (s : Table) (i : ℕ) (chosen : List ℕ) : Option Table :=
  if s.compactions i = none ∧ chosen.Nodup ∧ chosen.length = cfg.m ∧
      (∀ layer, s.alg.fullLayer cfg s.alg.segmentLayers.length = some layer →
        ∀ id ∈ chosen, id ∈ (s.alg.segmentLayers[layer]?.getD .empty).segments) then
    match s.alg.checkCompaction cfg i chosen with
    | .ok (alg, []) => some { s with alg := alg }
    | .ok (alg, picked) =>
      some { s.setCompaction i (some ⟨.auto, picked, none, [], [], none⟩) with alg := alg }
    | .error e => some { s with failed := some e }
  else none

/-- `CompactPrepare` of a manual compaction; `Disable` waits until no automatic one runs. -/
def disable (s : Table) (i : ℕ) : Option Table :=
  if s.compactions i = none ∧ s.alg.status = .enable then
    some { s.setCompaction i (some ⟨.manual, s.alg.held, none, [], [], none⟩) with
      alg := s.alg.disable }
  else none

def sealedOf (s : Table) (blockIndex : List ℕ) : List ℕ :=
  blockIndex.filter fun id => s.status id = some .sealed

/-- Whether the end of a manual compaction accounts for the segments that were in the layers before
it: each is compacted or in the layers again, and none is both. -/
def returned (s : Table) (k : CompactTxn) : Bool :=
  (k.takenOut.all fun id => id ∈ k.olds || id ∈ s.alg.held) && k.olds.all fun id => id ∉ s.alg.held

def manualGroups (s : Table) (blockIndex : List ℕ) : List (List ℕ) :=
  let segments := (s.sealedOf blockIndex).map fun id => (s.actualRowCount id, id)
  generate defaultSegmentCapacity (fun id => (s.segments id).any fun e =>
    e.actualRowCount = e.rowCount)
    (segments.length + 1) (segments.insertionSort fun a b => a.1 ≤ b.1)

/-- `PhysicalCompact::Init` and `PlanCompact`. The block index was built when the statement was
bound: that of an automatic compaction has those of the picked segments that are visible to its
transaction. Each of the parallel tasks completes after its first group. -/
def init (s : Table) (i : ℕ) (blockIndex : List ℕ) (parallelCount : ℕ) : Option Table :=
  (s.compactions i).bind fun k =>
    if k.groups = none ∧ blockIndex.Nodup ∧
        (k.type = .auto → ∀ id ∈ blockIndex, id ∈ k.takenOut) then
      let groups := match k.type with
        | .auto => [s.sealedOf blockIndex]
        | .manual => s.manualGroups blockIndex
      some (s.setCompaction i (some { k with
        groups := some (groups.take parallelCount), left := (groups.take parallelCount).flatten }))
    else none

/-- `TrySetCompacting` for the next candidate. -/
def trySetCompacting (s : Table) (i : ℕ) : Option Table := (s.compactions i).bind fun k =>
    match k.left with
    | [] => none
    | id :: left =>
      if s.status id = some .sealed then
        some ((s.modifySegment id ({ · with status := .compacting })).setCompaction i
          (some { k with left := left, taken := id :: k.taken }))
      else some (s.setCompaction i (some { k with left := left }))

/-- `SetNoDelete` for a segment that was taken, when all candidates were tried. -/
def setNoDelete (s : Table) (i id : ℕ) : Option Table := (s.compactions i).bind fun k =>
    if k.groups ≠ none ∧ k.left = [] ∧ id ∈ k.taken ∧
        (s.status id = some .compacting ∨ s.status id = some .noDelete) then
      some (s.modifySegment id ({ · with status := .noDelete }))
    else none

/-- `Txn::Compact`, after `SetNoDelete` has returned true for all segments that were taken. -/
def compact (s : Table) (i : ℕ) (newIds : List ℕ) : Option Table := (s.compactions i).bind fun k =>
    k.groups.bind fun groups =>
      if k.left = [] ∧ k.compactData = none ∧ newIds.length = groups.length ∧
          ∀ id ∈ k.taken, (s.segments id).any fun e => e.status = .noDelete &&
          e.deleteTxns.isEmpty then
        some (s.setCompaction i (some { k with
          compactData := some (newIds.zip (groups.map fun group => group.filter (· ∈ k.taken))) }))
      else none

def sealNew (s : Table) (news : List (ℕ × ℕ)) : Table := { s with
    segments := fun id =>
      ((news.find? (·.1 = id)).map fun n => (⟨.sealed, [], n.2, n.2, false⟩ : Segment)).or
        (s.segments id) }

/-- `TableEntry::CommitCompact` and `SetSealed` in the bottom half of the commit, with the row
counts of the new segments; `SetDeprecated` raises an error if a segment is open. -/
def commit (cfg : DBTConfig) (s : Table) (i : ℕ) (rowCounts : List ℕ) : Option Table :=
  (s.compactions i).bind fun k =>
    k.compactData.bind fun data =>
      if (∀ d ∈ data, s.segments d.1 = none) ∧ ∀ id ∈ k.olds, s.status id = some .noDelete then
        some ((((s.modifyAll k.olds ({ · with status := .deprecated })).sealNew
            ((data.map Prod.fst).zip rowCounts)).setCompaction i none).onAlg
          (match k.type with
          | .auto => s.alg.commitCompact i
          | .manual => s.alg.enable cfg []))
      else none

/-- `Txn::Rollback`: `TableEntry::RollbackCompact` does something only if `compact_data_` is not
empty, and nothing else undoes a delete transaction or a compaction. `SegmentEntry::RollbackCompact`
raises an error if a segment is open. -/
def rollback (cfg : DBTConfig) (s : Table) (i : ℕ) : Option Table :=
  match s.compactions i with
  | none => some s
  | some k =>
    if k.compactData.getD [] = [] then some (s.setCompaction i none)
    else if ∃ id ∈ k.olds, s.status id ≠ some .noDelete then none
    else
      some (((s.modifyAll k.olds ({ · with status := .sealed })).setCompaction i none).onAlg
          (match k.type with
        | .auto => s.alg.rollbackCompact i
        | .manual => s.alg.enable cfg (k.olds.map fun id => (id, s.actualRowCount id))))

end Table

/-! ## The system -/

/-- The actions on a table. -/
inductive Action where
  | setSealed (id rowCount : ℕ)
  | addSegment (id : ℕ)
  | registerDelete (i id : ℕ)
  | commitDelete (i id rows : ℕ)
  | deleteInSegment (id : ℕ)
  | checkCompaction (i : ℕ) (chosen : List ℕ)
  | disable (i : ℕ)
  | init (i : ℕ) (blockIndex : List ℕ) (parallelCount : ℕ)
  | trySetCompacting (i : ℕ)
  | setNoDelete (i id : ℕ)
  | compact (i : ℕ) (newIds : List ℕ)
  | commit (i : ℕ) (rowCounts : List ℕ)
  | rollback (i : ℕ)

namespace Table

/-- The state after an action. Nothing happens after an error. -/
def step (cfg : DBTConfig) (s : Table) (a : Action) : Option Table :=
  if s.failed = none then
    match a with
    | .setSealed id rowCount => s.setSealed id rowCount
    | .addSegment id => s.addSegment cfg id
    | .registerDelete i id => s.registerDelete i id
    | .commitDelete i id rows => s.commitDelete i id rows
    | .deleteInSegment id => s.deleteInSegment cfg id
    | .checkCompaction i chosen => s.checkCompaction cfg i chosen
    | .disable i => s.disable i
    | .init i blockIndex parallelCount => s.init i blockIndex parallelCount
    | .trySetCompacting i => s.trySetCompacting i
    | .setNoDelete i id => s.setNoDelete i id
    | .compact i newIds => s.compact i newIds
    | .commit i rowCounts => s.commit cfg i rowCounts
    | .rollback i => s.rollback cfg i
  else none

def running (s : Table) (i : ℕ) : Bool := (s.compactions i).isSome

/-- **The algorithm tracks every sealed segment once.** While it is enabled, each segment that is
sealed and not deprecated, and that was passed to it, is in one layer or in one list of a running
compaction; no error was raised. -/
structure Tracked (s : Table) : Prop where
  failed : s.failed = none
  once : s.alg.status ≠ .disable → ∀ id e, s.segments id = some e → e.live = true → e.added = true →
    (s.alg.held ++ s.alg.picked).count id = 1
  owners : s.alg.status ≠ .disable → ∀ p ∈ s.alg.pickedLists, s.running p.1 = true
  disjoint : s.alg.status ≠ .disable → ∀ p ∈ s.alg.pickedLists, ∀ q ∈ s.alg.pickedLists, p.1 ≠ q.1 →
    p.2.Disjoint q.2
  tasks : s.alg.status ≠ .disable → s.alg.runningTaskN = s.alg.txn2Layer.countP fun p =>
    s.running p.1

end Table

def tracking (cfg : DBTConfig) : TransitionSystem Table Action where
  Initial s := s = .start
  step := Table.step cfg

/-- A manual compaction of a table with one segment, from which no row was deleted. -/
def skippedRun : List Action :=
  [.setSealed 0 10, .addSegment 0, .disable 1, .init 1 [0] 4, .compact 1 [], .commit 1 []]

/-- The segment is sealed, and the algorithm does not know it any more. -/
theorem not_tracked_skippedRun : ∃ s, (tracking .default).Reachable s ∧
    (tracking .default).run .start skippedRun = some s ∧
    s.segments 0 = some ⟨.sealed, [], 10, 10, true⟩ ∧
    s.alg.status = .enable ∧ s.alg.held = [] ∧ s.alg.picked = [] ∧ ¬ s.Tracked := by
  refine ⟨_, TransitionSystem.Reachable.of_run skippedRun (.initial rfl) rfl, rfl, rfl, rfl, rfl,
    rfl, ?_⟩
  intro h
  have honce := h.once (by decide) 0 _ rfl rfl rfl
  cases honce

end Infinity.Compaction.Tracking
