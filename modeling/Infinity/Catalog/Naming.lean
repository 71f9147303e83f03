import Infinity.Catalog.EntryChain
import Infinity.Transactions.Retention

/-! # The entries of a name under all interleavings

The entry list of one name together with the transaction manager. A running transaction adds and
drops entries; the bottom half of its commit gives them the commit time stamp, or its rollback takes
them out before it is finished. The cleanup gets a time stamp by `GetCleanupScanTS` and later picks
what it can take out of the list. All these actions of any number of transactions interleave. -/

namespace Infinity.Catalog

open Foundations Transactions

variable {β : Type*}

/-! ## The system -/

/-- `DBMeta`, `TableMeta` or `TableIndexMeta`: what the catalog has for a name, with the transaction
manager and with what is recorded of the past. -/
structure Meta (β : Type*) where
  type : EntryType
  mgr : TxnManager
  entryList : List (Entry β)
  visibleTss : List ℕ
  scanned : List (Entry β)
  history : List (Version (Entry β))
  /-- The entries that stood in the list when a transaction put its first one there. -/
  before : ℕ → List (Entry β)

/-- The actions on a name. -/
inductive MetaAction (β : Type*) where
  | txn (a : Action)
  | addEntry (i : ℕ) (conflictType : ConflictType) (data : β)
  | dropEntry (i : ℕ) (conflictType : ConflictType) (data : β)
  | deleteEntry (i : ℕ)
  | getCleanupScanTS (checkpointedTs : ℕ)
  | pickCleanup (visibleTs : ℕ)

namespace Meta

def roll (s : Meta β) (i : ℕ) : Bool := rolls (s.mgr.getTxnState i)

/-- `begin_ts_` of a transaction. -/
def begins (s : Meta β) (i : ℕ) : ℕ := ((s.mgr.txns i).map Txn.beginTs).getD 0

def setList (s : Meta β) (i : ℕ) (list : List (Entry β)) : Meta β := { s with
    entryList := list
    before := fun j => if j = i ∧
      HoldsNone i s.entryList then standing s.roll s.entryList else s.before j }

/-- The version that a transaction commits: its newest entry. -/
def newVersion (s : Meta β) (i commitTs : ℕ) : Option (Version (Entry β)) :=
  (s.entryList.find? fun e => e.txnId = i && !e.committed).map fun e =>
    ⟨commitTs, if e.deleted then none else some { e with commitTs := some commitTs }⟩

/-- `TxnStore::CommitBottom`. -/
def commitBottom (s : Meta β) (i commitTs : ℕ) : Meta β := { s with
    entryList := s.entryList.map (·.commit i commitTs)
    history := (s.newVersion i commitTs).toList ++ s.history }

def afterTxn (s : Meta β) : Action → Meta β
  | .commitBottom =>
    match s.mgr.waitFlush with
    | i :: _ => s.commitBottom i (((s.mgr.txns i).map Txn.commitTs).getD 0)
    | [] => s
  | _ => s

/-- A transaction with entries is not read-only, and `TxnStore::Rollback` has taken out the entries
of a transaction before it is finished. -/
def follows (s : Meta β) : Action → Bool
  | .commitRead i | .finishRead i | .finishRollback i => HoldsNone i s.entryList
  | _ => true

/-- The state after an action. The process ends when `DeleteData` fails. -/
def step (s : Meta β) : MetaAction β → Option (Meta β)
  | .txn a =>
    (s.mgr.step a).bind fun mgr =>
      if s.follows a && !mgr.failed then some { s.afterTxn a with mgr := mgr } else none
  | .addEntry i conflictType data =>
    (s.mgr.txns i).bind fun t =>
      if t.stage = .running then
        some (s.setList i (Catalog.addEntry s.type s.mgr.getTxnState conflictType i t.beginTs data
          s.entryList).1)
      else none
  | .dropEntry i conflictType data =>
    (s.mgr.txns i).bind fun t =>
      if t.stage = .running then
        some (s.setList i (Catalog.dropEntry s.type s.mgr.getTxnState conflictType i t.beginTs data
          s.entryList).1)
      else none
  | .deleteEntry i =>
    (s.mgr.txns i).bind fun t =>
      if t.stage = .rollbacking ∨ t.stage = .aborted then
        some { s with entryList := Catalog.deleteEntry i s.entryList }
      else none
  | .getCleanupScanTS checkpointedTs =>
    some { s with
      mgr := (s.mgr.getCleanupScanTS checkpointedTs).2
      visibleTss := (s.mgr.getCleanupScanTS checkpointedTs).1 :: s.visibleTss }
  | .pickCleanup visibleTs =>
    if visibleTs ∈ s.visibleTss then
      some { s with
        entryList := (Catalog.pickCleanup visibleTs s.entryList).1
        scanned := s.scanned ++ (Catalog.pickCleanup visibleTs s.entryList).2 }
    else none

def start (type : EntryType) : Meta β where
  type := type
  mgr := .start
  entryList := []
  visibleTss := []
  scanned := []
  history := []
  before _ := []

end Meta

def naming (β : Type*) : TransitionSystem (Meta β) (MetaAction β) where
  Initial s := ∃ type, s = .start type
  step := Meta.step

end Infinity.Catalog
