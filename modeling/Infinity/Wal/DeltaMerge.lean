import Infinity.Foundations.Outcome
import Infinity.Wal.DeltaEntry

/-! # Merging catalog operations (`GlobalCatalogDeltaEntry::AddDeltaEntryInner`)

Between two checkpoints the operations of the committed transactions are merged: there is one
operation for each entry of the catalog, under its encoded name. A new operation replaces the older
one of the same name; the merge flags say what becomes of the older operation and of those of the
entries below it.

* `CatalogDeltaOperation.toPrune`, `CatalogDeltaOperation.nextDeleteFlag`: the tables of merge
  flags.
* `Merged.addDeltaEntryInner`: the operations, the transactions and the time stamp after one more
  entry. -/

namespace Infinity.Wal

open Foundations Infinity.Parser Storage

/-! ## Merge flags -/

/-- `PruneFlag`, without `kInvalid`, which no path returns. -/
inductive PruneFlag where
  | keep | prune | pruneSub
  deriving DecidableEq, Repr

def MergeFlag.code (f : MergeFlag) : ℕ := MergeFlag.all.idxOf f

def invalidMergeFlag (f : MergeFlag) : Exn :=
  .unrecoverable ("Invalid MergeFlag: " ++ toString f.code)

def invalidMergeFlags (f f' : MergeFlag) : Exn :=
  .unrecoverable ("Invalid MergeFlag from " ++ toString f.code ++ " to " ++ toString f'.code)

namespace CatalogDeltaOperation

/-- `CatalogDeltaOperation::ToPrune`. -/
def toPrune : Option MergeFlag → MergeFlag → Except Exn PruneFlag
  | none, .delete | none, .deleteAndNew => .ok .pruneSub
  | none, .new | none, .update => .ok .keep
  | some .new, .delete => .ok .prune
  | some .update, .delete | some .deleteAndNew, .delete => .ok .pruneSub
  | some old, .delete => .error (invalidMergeFlag old)
  | some _, .new | some _, .update => .ok .keep
  | some .new, .deleteAndNew | some .update, .deleteAndNew | some .deleteAndNew, .deleteAndNew =>
    .ok .pruneSub
  | some old, .deleteAndNew => .error (invalidMergeFlag old)
  | _, .invalid => .error (invalidMergeFlag .invalid)

/-- `CatalogDeltaOperation::NextDeleteFlag`. -/
def nextDeleteFlag : MergeFlag → MergeFlag → Except Exn MergeFlag
  | .delete, .new => .ok .deleteAndNew
  | .new, .delete => .error (.unrecoverable "Should prune before reach this.")
  | .new, .update | .new, .deleteAndNew => .ok .new
  | .update, .delete => .ok .delete
  | .update, .update => .ok .update
  | .update, .deleteAndNew => .ok .new
  | .deleteAndNew, .delete => .ok .delete
  | .deleteAndNew, .update | .deleteAndNew, .deleteAndNew => .ok .deleteAndNew
  | .invalid, _ => .error (invalidMergeFlag .invalid)
  | flag, flag' => .error (invalidMergeFlags flag flag')

/-- A merged operation deletes exactly if the newer one does. -/
theorem nextDeleteFlag_eq_delete {old newer flag : MergeFlag}
    (h : nextDeleteFlag old newer = .ok flag) : flag = .delete ↔ newer = .delete := by
  cases old <;> cases newer <;> cases h <;> decide

end CatalogDeltaOperation

/-! ## Merging two operations -/

namespace DeltaAttrs

/-- `GetTypeStr`. -/
def typeStr : DeltaAttrs → String
  | .addDBEntry .. => "ADD_DATABASE_ENTRY"
  | .addTableEntry .. => "ADD_TABLE_ENTRY"
  | .addSegmentEntry .. => "ADD_SEGMENT_ENTRY"
  | .addBlockEntry .. => "ADD_BLOCK_ENTRY"
  | .addColumnEntry .. => "ADD_COLUMN_ENTRY"
  | .addTableIndexEntry .. => "ADD_TABLE_INDEX_ENTRY"
  | .addSegmentIndexEntry .. => "ADD_SEGMENT_INDEX_ENTRY"
  | .addChunkIndexEntry .. => "ADD_CHUNK_INDEX_ENTRY"

/-- Whether `Merge` of the subclass computes the merge flag with `NextDeleteFlag`. -/
def mergesFlag : DeltaAttrs → Bool
  | .addColumnEntry .. | .addSegmentIndexEntry .. | .addChunkIndexEntry .. => false
  | _ => true

/-- The filter of the older operation stays if the newer one has none; both cannot have one. -/
def mergeFilter (what : String) (old new : Bytes) : Except Exn Bytes :=
  if old = [] then .ok new
  else if new = [] then .ok old
  else .error (.unrecoverable ("Serialize " ++ what ++ " filter binary twice"))

/-- `Merge` of the attributes. -/
def merge : DeltaAttrs → DeltaAttrs → Except Exn DeltaAttrs
  | .addSegmentEntry old, .addSegmentEntry new => do
    let filter ← mergeFilter "segment" old.segmentFilterBinaryData new.segmentFilterBinaryData
    .ok (.addSegmentEntry { new with segmentFilterBinaryData := filter })
  | .addBlockEntry old, .addBlockEntry new => do
    let filter ← mergeFilter "block" old.blockFilterBinaryData new.blockFilterBinaryData
    .ok (.addBlockEntry { new with blockFilterBinaryData := filter })
  | _, new => .ok new

theorem fits_merge {old new attrs : DeltaAttrs} {flag flag' : MergeFlag}
    (h : old.merge new = .ok attrs) (hfits : new.Fits flag)
    (hflag : flag' = .delete ↔ flag = .delete) : attrs.Fits flag' := by
  cases new with
  | addTableIndexEntry index dropped =>
    cases old <;> cases h <;> exact ⟨hfits.1.trans (not_congr hflag.symm), hflag.mpr ∘ hfits.2⟩
  | addSegmentEntry new =>
    cases old with
    | addSegmentEntry old =>
      obtain ⟨filter, -, ⟨⟩⟩ := bind_eq_ok.mp h
      trivial
    | _ =>
      cases h
      trivial
  | addBlockEntry new =>
    cases old with
    | addBlockEntry old =>
      obtain ⟨filter, -, ⟨⟩⟩ := bind_eq_ok.mp h
      trivial
    | _ =>
      cases h
      trivial
  | _ =>
    cases old <;> cases h <;> trivial

end DeltaAttrs

namespace DeltaOp

def mergedFlag (old new : DeltaOp) : Except Exn MergeFlag :=
  if old.attrs.mergesFlag then
    CatalogDeltaOperation.nextDeleteFlag old.base.mergeFlag new.base.mergeFlag
  else .ok new.base.mergeFlag

theorem mergedFlag_eq_delete {old new : DeltaOp} {flag : MergeFlag}
    (h : old.mergedFlag new = .ok flag) : flag = .delete ↔ new.base.mergeFlag = .delete := by
  unfold mergedFlag at h
  split at h
  · exact CatalogDeltaOperation.nextDeleteFlag_eq_delete h
  · cases h
    rfl

/-- The methods `Merge`: the newer operation takes the place of the older one. -/
def merge (old new : DeltaOp) : Except Exn DeltaOp :=
  if old.attrs.type ≠ new.attrs.type then
    .error (.unrecoverable ("Merge failed, other type: " ++ new.attrs.typeStr))
  else
    match hflag : old.mergedFlag new, hattrs : old.attrs.merge new.attrs with
    | .ok flag, .ok attrs => .ok ⟨{ new.base with mergeFlag := flag }, attrs,
        DeltaAttrs.fits_merge hattrs new.fits (mergedFlag_eq_delete hflag)⟩
    | .error e, _ => .error e
    | .ok _, .error e => .error e

/-- The operation of a deprecated segment deletes it. -/
def markDeprecated (op : DeltaOp) : DeltaOp :=
  match op.attrs with
  | .addSegmentEntry attrs =>
    if attrs.status = .deprecated then
      ⟨{ op.base with mergeFlag := .delete }, .addSegmentEntry attrs, trivial⟩
    else op
  | _ => op

end DeltaOp

/-! ## The operations by name -/

/-- `delta_ops_`, in the order of the keys. -/
abbrev DeltaOps := List (Bytes × DeltaOp)

namespace DeltaOps

/-- `std::map::find`. -/
def find (ops : DeltaOps) (encode : Bytes) : Option DeltaOp :=
  (ops.find? (·.1 = encode)).map Prod.snd

/-- `std::map::erase` of a key. -/
def erase (ops : DeltaOps) (encode : Bytes) : DeltaOps := ops.filter (·.1 ≠ encode)

/-- `std::map::operator[]` with an assignment. -/
def set (ops : DeltaOps) (encode : Bytes) (op : DeltaOp) : DeltaOps :=
  ops.filter (·.1 < encode) ++ (encode, op) :: ops.filter (encode < ·.1)

/-- The character behind the name of an entry in the names of the entries below it. -/
def separator : UInt8 := 35

/-- The loop of `PruneOpWithSamePrefix`, from the lower bound of the name on. -/
def pruneFrom (encode1 : Bytes) : DeltaOps → DeltaOps
  | [] => []
  | (encode2, op2) :: rest =>
    if ¬ encode1.isPrefixOf encode2 then (encode2, op2) :: rest
    else
      match encode2.drop encode1.length with
      | [] => (encode2, op2) :: pruneFrom encode1 rest
      | c :: _ =>
        if c ≠ separator then (encode2, op2) :: pruneFrom encode1 rest
        else pruneFrom encode1 rest

/-- `GlobalCatalogDeltaEntry::PruneOpWithSamePrefix`. -/
def pruneOpWithSamePrefix (ops : DeltaOps) (encode1 : Bytes) : DeltaOps :=
  ops.takeWhile (·.1 < encode1) ++ pruneFrom encode1 (ops.dropWhile (·.1 < encode1))

end DeltaOps

/-! ## Adding an entry -/

/-- `CatalogDeltaEntry` in memory: the entry with its sequence number and its transactions. -/
structure SequencedEntry where
  sequence : ℕ
  txnIds : List UInt64
  entry : CatalogDeltaEntry

/-- What `AddDeltaEntryInner` keeps up to date. -/
structure Merged where
  deltaOps : DeltaOps
  txnIds : Finset UInt64
  maxCommitTs : UInt64
  lastFullCkpTs : UInt64

/-- `UNCOMMIT_TS`. -/
def CatalogDeltaEntry.uncommitTs : UInt64 := 18446744073709551615

def encodeText (encode : Bytes) : String := String.ofList (encode.map fun c => Char.ofNat c.toNat)

/-- The error that replaces an error of `Merge`. -/
def mergeFailed (encode : Bytes) (txnIds : List UInt64) : Exn :=
  .unrecoverable ("Merge failed, encode: " ++ encodeText encode ++ " txn_ids: " ++
    String.join (txnIds.map fun txnId => toString txnId ++ " "))

namespace DeltaOps

/-- The operation of a name, unless it is older than the last full checkpoint: then it is
removed. -/
def findRecent (ops : DeltaOps) (lastFullCkpTs : UInt64) (encode : Bytes) :
    DeltaOps × Option DeltaOp :=
  match ops.find encode with
  | some op => if op.base.commitTs ≤ lastFullCkpTs then (ops.erase encode, none) else (ops, some op)
  | none => (ops, none)

/-- `op->Merge(*new_op)` for the operation under a name. -/
def mergeInto (ops : DeltaOps) (txnIds : List UInt64) (op new : DeltaOp) : Except Exn DeltaOps :=
  match op.merge new with
  | .ok merged => .ok (ops.set new.base.encode merged)
  | .error _ => .error (mergeFailed new.base.encode txnIds)

/-- The body of the loop of `AddDeltaEntryInner`. -/
def addOp (lastFullCkpTs : UInt64) (txnIds : List UInt64) (ops : DeltaOps) (newOp : DeltaOp) :
    Except Exn DeltaOps :=
  let new := newOp.markDeprecated
  let encode := new.base.encode
  if encode = [] then .error (.unrecoverable "encode is empty")
  else
    match ops.findRecent lastFullCkpTs encode with
    | (ops, some op) => do
      match ← CatalogDeltaOperation.toPrune (some op.base.mergeFlag) new.base.mergeFlag with
      | .prune => .ok ((ops.erase encode).pruneOpWithSamePrefix encode)
      | .pruneSub => (ops.pruneOpWithSamePrefix encode).mergeInto txnIds op new
      | .keep => ops.mergeInto txnIds op new
    | (ops, none) => do
      let pruneFlag ← CatalogDeltaOperation.toPrune none new.base.mergeFlag
      let ops := ops.set encode new
      .ok (if pruneFlag = .pruneSub then ops.pruneOpWithSamePrefix encode else ops)

end DeltaOps

/-- `GlobalCatalogDeltaEntry::AddDeltaEntryInner`. -/
def Merged.addDeltaEntryInner (m : Merged) (e : SequencedEntry) : Except Exn Merged :=
  let maxCommitTs := e.entry.maxCommitTs
  if maxCommitTs = CatalogDeltaEntry.uncommitTs then .error
    (.unrecoverable "max_commit_ts == UNCOMMIT_TS")
  else if maxCommitTs < m.maxCommitTs then
    .error (.unrecoverable ("max_commit_ts_ " ++ toString m.maxCommitTs ++ " > max_commit_ts " ++
      toString maxCommitTs))
  else do
    let ops ← e.entry.operations.foldlM (DeltaOps.addOp m.lastFullCkpTs e.txnIds) m.deltaOps
    .ok { m with
      deltaOps := ops
      txnIds := m.txnIds ∪ e.txnIds.toFinset
      maxCommitTs := maxCommitTs }

end Infinity.Wal
