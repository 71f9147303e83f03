import Infinity.Foundations.Transition
import Infinity.Transactions.TxnStore

/-! # Commits of concurrent transactions (`TxnManager`, `Txn::Commit`)

A transaction takes a commit time stamp and enters `finishing_txns_`; then it becomes `kCommitting`,
compares its store with those of the other finishing transactions, hands its entry to the log, which
takes the entries in the order of the time stamps, has its deletes applied by the flush thread, and
is finished. Each of these steps is an action of its own, and the actions of any number of
transactions interleave.

* `not_conflictFree_lateRun`: two transactions that delete the same row can both pass the
check. -/

namespace Infinity.Transactions

open Foundations

/-! ## Transactions -/

/-- `TxnState`. -/
inductive TxnState where
  | started
  | committing
  | committed
  | rollbacking
  | rollbacked
  deriving DecidableEq

/-- How far a transaction has come. A read-only transaction and one that is rolled back before its
commit take no part in conflicts. -/
inductive Stage where
  | running
  /-- `GetCommitTimeStampW` has returned the time stamp. -/
  | stamped (ts : ℕ)
  /-- `SetTxnCommitting` is done. -/
  | committing
  /-- `PrepareCommit1` is done. -/
  | prepared
  /-- `CheckConflict` has found nothing. -/
  | passed
  /-- `CheckConflict` has found a conflict. -/
  | conflicted
  /-- `SendToWAL` has taken the entry. -/
  | sent
  /-- `SendToWAL` has given up the entry, and the conflict is reported. -/
  | rejected
  /-- `CommitBottom` is done. -/
  | bottomed
  /-- `FinishTxn` is done. -/
  | committed
  /-- `Rollback` of a rejected transaction is done. -/
  | rollbacking
  /-- `FinishTxn` of a rejected transaction is done. -/
  | rollbacked
  /-- The commit of a read-only transaction is done. -/
  | readCommitted
  /-- `Rollback` of a running transaction is done. -/
  | aborted
  /-- `FinishTxn` of one of these two is done. -/
  | gone
  deriving DecidableEq

/-- `TxnState` at a stage. -/
def Stage.state : Stage → TxnState
  | .running | .stamped _ => .started
  | .committing | .prepared | .passed | .conflicted | .sent | .rejected | .bottomed => .committing
  | .committed | .readCommitted | .gone => .committed
  | .rollbacking | .aborted => .rollbacking
  | .rollbacked => .rollbacked

/-- `Txn` with its context. -/
structure Txn where
  beginTs : ℕ
  commitTs : ℕ
  committedTs : ℕ
  store : TxnStore
  stage : Stage

/-- `TxnManager`, with the log's queue and the delete marks of the blocks. -/
structure TxnManager where
  startTs : ℕ
  nextTxnId : ℕ
  txns : ℕ → Option Txn
  txnMap : List ℕ
  /-- `beginned_txns_`; the pointers of those that have left `txn_map_` are null. -/
  beginnedTxns : List ℕ
  finishingTxns : List ℕ
  finishedTxns : List (ℕ × ℕ)
  waitConflictCk : List (ℕ × Option ℕ)
  waitFlush : List ℕ
  /-- `deleted_` of the blocks, zero where a row is not deleted. -/
  deleted : Row → ℕ
  /-- Whether `DeleteData` has met a row that was already deleted. -/
  failed : Bool

namespace TxnManager

def setTxn (s : TxnManager) (i : ℕ) (t : Txn) : TxnManager :=
  { s with txns := fun j => if j = i then some t else s.txns j }

/-- Whether a finishing transaction is one to compare with. -/
def candidate (t u : Txn) : Bool :=
  match u.stage.state with
  | .committed => t.beginTs < u.committedTs
  | .committing => u.commitTs < t.commitTs
  | _ => false

/-- `TxnManager::CheckConflict`. -/
def checkConflict (s : TxnManager) (t : Txn) : Bool := s.finishingTxns.any fun j =>
    match s.txns j with
    | some u => candidate t u && t.store.checkConflict u.store
    | none => false

/-- `TxnManager::CheckIfCommitting`: a transaction that is not in `txn_map_` is taken for one that
has committed. -/
def checkIfCommitting (s : TxnManager) (txnId beginTs : ℕ) : Bool :=
  !s.txnMap.contains txnId || (s.txns txnId).any fun t =>
    (t.stage.state = .committing || t.stage.state = .committed) && t.commitTs < beginTs

/-- `TxnManager::SendToWAL`: the entry is kept, or given up if there is none, and the entries
without a gap before them go to the log. A time stamp that is not waited for is an error. -/
def sendToWAL (s : TxnManager) (commitTs : ℕ) (entry : Option ℕ) : Option TxnManager :=
  if (s.waitConflictCk.map Prod.fst).contains commitTs then
    let waiting : List (ℕ × Option ℕ) := match entry with
      | some i => s.waitConflictCk.map fun p => if p.1 = commitTs then (p.1, some i) else p
      | none => s.waitConflictCk.filter fun p => p.1 ≠ commitTs
    some { s with
      waitConflictCk := waiting.dropWhile fun p => p.2.isSome
      waitFlush := s.waitFlush ++ (waiting.takeWhile fun p => p.2.isSome).filterMap Prod.snd }
  else none

/-- `BlockEntry::DeleteData` for the rows of all blocks; `none` where a row is already deleted. -/
def deleteData (commitTs : ℕ) : (Row → ℕ) → List Row → Option (Row → ℕ)
  | deleted, [] => some deleted
  | deleted, r :: rows =>
    if deleted r = 0 then deleteData commitTs (fun r' => if r' = r then commitTs else deleted r')
      rows
    else none

/-- Whether a transaction is `kCommitted` or `kRollbacked`. -/
def ended (t : Txn) : Bool := t.stage.state = .committed || t.stage.state = .rollbacked

/-- Whether the pointer to a begun transaction is null or the transaction has ended. -/
def settled (s : TxnManager) (i : ℕ) : Bool := !s.txnMap.contains i || (s.txns i).all ended

/-- `least_uncommitted_begin_ts`: that of the first begun transaction that is not settled. -/
def leastUncommittedBeginTs (s : TxnManager) (commitTs : ℕ) : ℕ :=
  match s.beginnedTxns.dropWhile s.settled with
  | [] => commitTs + 1
  | i :: _ => ((s.txns i).map Txn.beginTs).getD 0

/-- Whether an element of `finished_txns_` can go. -/
def forgettable (s : TxnManager) (commitTs : ℕ) (p : ℕ × ℕ) : Bool :=
  (s.txns p.2).any ended && p.1 ≤ s.leastUncommittedBeginTs commitTs

def erasedTxns (s : TxnManager) (commitTs : ℕ) : List ℕ :=
  (s.finishedTxns.takeWhile (s.forgettable commitTs)).map Prod.snd

/-- The part of `TxnManager::FinishTxn` that forgets transactions. -/
def forget (s : TxnManager) (commitTs : ℕ) : TxnManager := { s with
    beginnedTxns := s.beginnedTxns.dropWhile s.settled
    finishingTxns := s.finishingTxns.filter (· ∉ s.erasedTxns commitTs)
    txnMap := s.txnMap.filter (· ∉ s.erasedTxns commitTs)
    finishedTxns := s.finishedTxns.dropWhile (s.forgettable commitTs) }

/-- The manager when `FinishTxn` has given the second time stamp; the stage is the one in which the
transaction ends. -/
def giveFinishedTs (s : TxnManager) (i : ℕ) (t : Txn) (stage : Stage) : TxnManager :=
  let finishedTs := s.startTs + 1
  let t' := { t with
    stage := stage
    committedTs := if stage = .committed then finishedTs else t.committedTs }
  let s' := s.setTxn i t'
  { s' with startTs := finishedTs, finishedTxns := s.finishedTxns ++ [(finishedTs, i)] }

/-- `TxnManager::FinishTxn` of a transaction that writes. -/
def finishTxn (s : TxnManager) (i : ℕ) (t : Txn) (stage : Stage) : TxnManager :=
  forget (s.giveFinishedTs i t stage) t.commitTs

/-- `SegmentEntry` and `BlockEntry` show a row to a transaction: it is not deleted, or later. -/
def Visible (s : TxnManager) (t : Txn) (r : Row) : Prop := s.deleted r = 0 ∨ t.beginTs < s.deleted r

instance (s : TxnManager) (t : Txn) (r : Row) : Decidable (s.Visible t r) :=
  inferInstanceAs (Decidable (_ ∨ _))

end TxnManager

def TxnManager.start : TxnManager where
  startTs := 0
  nextTxnId := 0
  txns _ := none
  txnMap := []
  beginnedTxns := []
  finishingTxns := []
  finishedTxns := []
  waitConflictCk := []
  waitFlush := []
  deleted _ := 0
  failed := false

/-! ## Actions -/

/-- The actions of transactions. -/
inductive Action where
  | beginTxn (store : TxnStore)
  | delete (i : ℕ) (r : Row)
  | commitRead (i : ℕ)
  | abort (i : ℕ)
  | finishRead (i : ℕ)
  | getCommitTimeStampW (i : ℕ)
  | setTxnCommitting (i : ℕ)
  | prepareCommit1 (i : ℕ)
  | checkConflict (i : ℕ)
  | sendToWAL (i : ℕ)
  | commitBottom
  | finishTxn (i : ℕ)
  | rollback (i : ℕ)
  | finishRollback (i : ℕ)

namespace TxnManager

def atStage (s : TxnManager) (i : ℕ) (stage : Stage) (f : Txn → Option TxnManager) :
    Option TxnManager :=
  (s.txns i).bind fun t => if t.stage = stage then f t else none

def advance (s : TxnManager) (i : ℕ) (stage stage' : Stage) : Option TxnManager :=
  s.atStage i stage fun t => some (s.setTxn i { t with stage := stage' })

/-- `TxnManager::BeginTxn`. -/
def beginTxn (s : TxnManager) (store : TxnStore) : TxnManager :=
  let i := s.nextTxnId + 1
  let ts := s.startTs + 1
  { s.setTxn i ⟨ts, 0, 0, store, .running⟩ with
    startTs := ts
    nextTxnId := i
    txnMap := s.txnMap ++ [i]
    beginnedTxns := s.beginnedTxns ++ [i] }

/-- The state after an action. A store is given with the transaction, as far as it is not about
deleted rows, and those are added one by one. -/
def step (s : TxnManager) : Action → Option TxnManager
  | .beginTxn store => if store.rowList = [] then some (s.beginTxn store) else none
  | .delete i r =>
    s.atStage i .running fun t =>
      if s.Visible t r then some (s.setTxn i { t with store := t.store.delete r }) else none
  | .commitRead i =>
    s.atStage i .running fun t =>
      if t.store.rowList = [] then
        some { s.setTxn i { t with
            commitTs := s.startTs + 1
            committedTs := s.startTs + 1
            stage := .readCommitted } with
          startTs := s.startTs + 1 }
      else none
  | .abort i =>
    s.atStage i .running fun t =>
      some { s.setTxn i { t with commitTs := s.startTs + 1, stage := .aborted } with
        startTs := s.startTs + 1 }
  | .finishRead i =>
    (s.txns i).bind fun t =>
      if t.stage = .readCommitted ∨ t.stage = .aborted then
        some { s.setTxn i { t with stage := .gone } with txnMap := s.txnMap.filter (· ≠ i) }
      else none
  | .getCommitTimeStampW i =>
    s.atStage i .running fun t =>
      some { s.setTxn i { t with stage := .stamped (s.startTs + 1) } with
        startTs := s.startTs + 1
        waitConflictCk := s.waitConflictCk ++ [(s.startTs + 1, none)]
        finishingTxns := s.finishingTxns ++ [i] }
  | .setTxnCommitting i =>
    (s.txns i).bind fun t =>
      match t.stage with
      | .stamped ts => some (s.setTxn i { t with commitTs := ts, stage := .committing })
      | _ => none
  | .prepareCommit1 i => s.advance i .committing .prepared
  | .checkConflict i =>
    s.atStage i .prepared fun t =>
      some (s.setTxn i { t with stage := if s.checkConflict t then .conflicted else .passed })
  | .sendToWAL i =>
    (s.txns i).bind fun t =>
      match t.stage with
      | .passed => (s.sendToWAL t.commitTs (some i)).map (·.setTxn i { t with stage := .sent })
      | .conflicted => (s.sendToWAL t.commitTs none).map (·.setTxn i { t with stage := .rejected })
      | _ => none
  | .commitBottom =>
    match s.waitFlush with
    | [] => none
    | i :: rest =>
      s.atStage i .sent fun t =>
        match deleteData t.commitTs s.deleted t.store.rowList with
        | some deleted =>
          some { s.setTxn i { t with stage := .bottomed } with waitFlush := rest, deleted :=
            deleted }
        | none => some { s with failed := true }
  | .finishTxn i => s.atStage i .bottomed fun t => some (s.finishTxn i t .committed)
  | .rollback i => s.advance i .rejected .rollbacking
  | .finishRollback i => s.atStage i .rollbacking fun t => some (s.finishTxn i t .rollbacked)

end TxnManager

def committing : TransitionSystem TxnManager Action where
  Initial s := s = .start
  step := TxnManager.step

def Txn.Commits (t : Txn) : Prop :=
  t.stage = .passed ∨ t.stage = .sent ∨ t.stage = .bottomed ∨ t.stage = .committed

/-- No two transactions that delete a common row both commit, and `DeleteData` has met no row that
was already deleted. -/
def TxnManager.ConflictFree (s : TxnManager) : Prop :=
  (∀ i j t u r, i ≠ j → s.txns i = some t → s.txns j = some u → t.store.Deletes r →
    u.store.Deletes r → ¬ (t.Commits ∧ u.Commits)) ∧ s.failed = false

def someRow : Row := ⟨"t", 0, 0, 0⟩

/-- Two transactions delete the same row. The first one takes its time stamp, and before it is
`kCommitting` the second one takes a later one and checks for conflicts. -/
def lateRun : List Action :=
  [.beginTxn ⟨∅, []⟩, .beginTxn ⟨∅, []⟩, .delete 1 someRow, .delete 2 someRow,
    .getCommitTimeStampW 1, .getCommitTimeStampW 2, .setTxnCommitting 2, .prepareCommit1 2,
    .checkConflict 2, .setTxnCommitting 1, .prepareCommit1 1, .checkConflict 1, .sendToWAL 1,
    .sendToWAL 2, .commitBottom, .commitBottom]

/-- Both transactions pass the check, and the deletes of the second one meet the row that the first
one has deleted. -/
theorem not_conflictFree_lateRun : ∃ s, committing.Reachable s ∧
    committing.run .start lateRun = some s ∧ s.failed = true ∧ ¬ s.ConflictFree := by
  refine ⟨_, TransitionSystem.Reachable.of_run lateRun (.initial rfl) rfl, rfl, rfl, ?_⟩
  rintro ⟨-, ⟨⟩⟩

end Infinity.Transactions
