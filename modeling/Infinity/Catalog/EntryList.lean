import Infinity.Foundations.Versions
import Infinity.Transactions.TxnManager

/-! # The entries of a name (`EntryList`, `BaseEntry`)

The catalog keeps the entries of a database, a table or an index of one name in a list, the newest
first. `AddEntry` puts an entry in front, and `DropEntry` a drop marker; the bottom half of the
commit gives them their commit time stamp, and a rollback takes them out (`DeleteEntry`). A
transaction sees the first entry that was committed before it began, or that is its own
(`GetEntry`). The cleanup takes out what no active transaction can see any more (`PickCleanup`). -/

namespace Infinity.Transactions

/-- `TxnManager::GetTxnState`: a transaction that is not in `txn_map_` is taken for one that has
committed. -/
def TxnManager.getTxnState (s : TxnManager) (txnId : ℕ) : TxnState :=
  if s.txnMap.contains txnId then ((s.txns txnId).map fun t => t.stage.state).getD .committed
  else .committed

end Infinity.Transactions

namespace Infinity.Catalog

open Foundations Transactions List

/-! ## Entries -/

/-- `EntryType`. -/
inductive EntryType where
  | db
  | table
  | tableIndex
  deriving DecidableEq

/-- `BaseEntry` with the data of the type of entry. -/
structure Entry (β : Type*) where
  txnId : ℕ
  /-- `commit_ts_`; none stands for `UNCOMMIT_TS`. -/
  commitTs : Option ℕ
  deleted : Bool
  data : β
  deriving DecidableEq

/-- `ErrorCode`, the errors of the methods. -/
inductive ErrorCode where
  | duplicateDatabaseName
  | duplicateTableName
  | duplicateIndexName
  | dbNotExist
  | tableNotExist
  | indexNotExist
  | txnConflict
  deriving DecidableEq

/-- `Status`. -/
inductive Status where
  | ok
  | ignore
  | error (code : ErrorCode) (message : String)
  deriving DecidableEq

/-- `ConflictType`. -/
inductive ConflictType where
  | invalid
  | ignore
  | error
  | replace
  deriving DecidableEq

/-- `FindResult`. -/
inductive FindResult where
  | found
  | uncommitted
  | uncommittedDelete
  | notFound
  | conflict
  deriving DecidableEq

variable {β : Type*}

namespace Entry

/-- `BaseEntry::Committed`. -/
def committed (e : Entry β) : Bool := e.commitTs.isSome

/-- `BaseEntry::Commit` of the entries of a transaction that are not committed. -/
def commit (txnId commitTs : ℕ) (e : Entry β) : Entry β :=
  if e.txnId = txnId ∧ e.committed = false then { e with commitTs := some commitTs } else e

end Entry

namespace Status

def duplicated : EntryType → Status
  | .db => .error .duplicateDatabaseName "Duplicated db entry"
  | .table => .error .duplicateTableName "Duplicated table entry"
  | .tableIndex => .error .duplicateIndexName "Duplicated table index entry"

def notExisted : EntryType → Status
  | .db => .error .dbNotExist "Not existed entry."
  | .table => .error .tableNotExist "Not existed entry."
  | .tableIndex => .error .indexNotExist "Not existed entry."

/-- `Status::TxnConflict`. -/
def writeConflict : Status := .error .txnConflict
    "Write-write conflict: There is a committing/committed entry which is later than current transaction."

end Status

/-! ## Methods -/

/-- `EntryList::FindEntry`. The first entry decides, but for those of transactions that are being
rolled back. -/
def findEntry (getTxnState : ℕ → TxnState) (txnId beginTs : ℕ) : List (Entry β) → FindResult
  | [] => .notFound
  | e :: rest =>
    match e.commitTs with
    | some commitTs =>
      if commitTs ≤ beginTs then (if e.deleted then .notFound else .found) else .conflict
    | none =>
      match getTxnState e.txnId with
      | .started =>
        if e.txnId = txnId then (if e.deleted then .uncommittedDelete else .uncommitted)
          else .conflict
      | .committing | .committed => .conflict
      | .rollbacking | .rollbacked => findEntry getTxnState txnId beginTs rest

/-- `EntryList::AddEntry`. -/
def addEntry (type : EntryType) (getTxnState : ℕ → TxnState) (conflictType : ConflictType)
    (txnId beginTs : ℕ) (data : β) (list : List (Entry β)) :
    List (Entry β) × Option (Entry β) × Status :=
  match findEntry getTxnState txnId beginTs list with
  | .uncommittedDelete | .notFound =>
    let entry : Entry β := ⟨txnId, none, false, data⟩
    (entry :: list, some entry, .ok)
  | .uncommitted | .found =>
    match conflictType with
    | .ignore => (list, none, .ignore)
    | _ => (list, none, .duplicated type)
  | .conflict => (list, none, .writeConflict)

/-- `EntryList::DropEntry`. -/
def dropEntry (type : EntryType) (getTxnState : ℕ → TxnState) (conflictType : ConflictType)
    (txnId beginTs : ℕ) (data : β) (list : List (Entry β)) :
    List (Entry β) × Option (Entry β) × Status :=
  match findEntry getTxnState txnId beginTs list with
  | .uncommittedDelete | .notFound =>
    match conflictType with
    | .ignore => (list, none, .ignore)
    | _ => (list, none, .notExisted type)
  | .uncommitted => (list.tail, list.head?, .ok)
  | .found =>
    let dropEntry : Entry β := ⟨txnId, none, true, data⟩
    (dropEntry :: list, some dropEntry, .ok)
  | .conflict => (list, none, .writeConflict)

/-- `EntryList::GetEntryInner1`, without the result that says whether there is an entry. -/
def getEntryInner1 (txnId beginTs : ℕ) : List (Entry β) → Option (Entry β)
  | [] => none
  | e :: rest =>
    match e.commitTs with
    | some commitTs =>
      if commitTs ≤ beginTs then (if e.deleted then none else some e)
      else getEntryInner1 txnId beginTs rest
    | none =>
      if txnId = e.txnId then (if e.deleted then none else some e)
      else getEntryInner1 txnId beginTs rest

/-- `EntryList::GetEntry`. -/
def getEntry (type : EntryType) (txnId beginTs : ℕ) (list : List (Entry β)) :
    Option (Entry β) × Status :=
  match getEntryInner1 txnId beginTs list with
  | some e => (some e, .ok)
  | none => (none, .notExisted type)

/-- `EntryList::DeleteEntry`: the entries that stay. -/
def deleteEntry (txnId : ℕ) (list : List (Entry β)) : List (Entry β) :=
  list.filter (·.txnId ≠ txnId)

/-- The second loop of `EntryList::PickCleanup`: the entries that stay, and those that the scanner
gets. -/
def sweep : List (Entry β) → List (Entry β) × List (Entry β)
  | [] => ([], [])
  | e :: rest =>
    if e.committed then ((sweep rest).1, if e.deleted then (sweep rest).2 else e :: (sweep rest).2)
    else (e :: (sweep rest).1, (sweep rest).2)

/-- `EntryList::PickCleanup`: the entries that stay, and those that the scanner gets. What
`entry->PickCleanup(scanner)` does inside of the entry that stays is left out. -/
def pickCleanup (visibleTs : ℕ) : List (Entry β) → List (Entry β) × List (Entry β)
  | [] => ([], [])
  | e :: rest =>
    if e.commitTs.any (· < visibleTs) then
      (if e.deleted then (sweep rest).1 else e :: (sweep rest).1, (sweep rest).2)
    else (e :: (pickCleanup visibleTs rest).1, (pickCleanup visibleTs rest).2)

/-! ## Versions -/

def Entry.version? (e : Entry β) : Option (Version (Entry β)) :=
  e.commitTs.map fun ts => ⟨ts, if e.deleted then none else some e⟩

def versions (list : List (Entry β)) : List (Version (Entry β)) := list.filterMap Entry.version?

def HoldsNone (txnId : ℕ) (list : List (Entry β)) : Prop :=
  ∀ e ∈ list, e.committed = false → e.txnId ≠ txnId

instance (txnId : ℕ) (list : List (Entry β)) : Decidable (HoldsNone txnId list) :=
  inferInstanceAs (Decidable (∀ e ∈ list, _))

section Versions

variable {txnId beginTs : ℕ} {e : Entry β} {list : List (Entry β)}

theorem HoldsNone.of_cons (h : HoldsNone txnId (e :: list)) : HoldsNone txnId list :=
  fun f hf => h f (mem_cons_of_mem _ hf)

theorem versions_cons_of_uncommitted (h : e.commitTs = none) :
    versions (e :: list) = versions list := by
  simp [versions, Entry.version?, h]

theorem versions_cons_of_committed {ts : ℕ} (h : e.commitTs = some ts) :
    versions (e :: list) = ⟨ts, if e.deleted then none else some e⟩ :: versions list := by
  simp [versions, Entry.version?, h]

/-- **A transaction without entries of its own reads the versions of the name.** -/
theorem getEntryInner1_eq_readAt (h : HoldsNone txnId list) :
    getEntryInner1 txnId beginTs list = readAt beginTs (versions list) := by
  induction list with
  | nil => rfl
  | cons e list ih =>
    have hrest := ih h.of_cons
    rw [getEntryInner1]
    cases hts : e.commitTs with
    | none =>
      have hne : txnId ≠ e.txnId := fun heq =>
        h e mem_cons_self (by simp [Entry.committed, hts]) heq.symm
      rw [versions_cons_of_uncommitted hts]
      simp only [if_neg hne]
      exact hrest
    | some ts =>
      rw [versions_cons_of_committed hts]
      by_cases hle : ts ≤ beginTs
      · simp only [if_pos hle]
        rw [readAt_cons_of_le _ hle]
      · simp only [if_neg hle]
        rw [readAt_cons_of_lt (not_le.mp hle)]
        exact hrest

end Versions

/-! ## Cleanup -/

section Cleanup

variable {visibleTs txnId beginTs : ℕ} {list : List (Entry β)} {own : List (Entry β)} {e : Entry β}

theorem sweep_fst : (sweep list).1 = list.filter fun e => !e.committed := by
  induction list with
  | nil => rfl
  | cons e list ih => cases he : e.committed <;> simp [sweep, he, ih]

theorem versions_eq_nil (h : ∀ e ∈ list, e.committed = false) : versions list = [] := by
  refine filterMap_eq_nil_iff.mpr fun e he => ?_
  have hts := h e he
  simpa [Entry.version?, Entry.committed] using hts

theorem uncommitted_of_mem_sweep (he : e ∈ (sweep list).1) : e.committed = false := by
  rw [sweep_fst] at he
  simpa using (mem_filter.mp he).2

theorem versions_sweep : versions (sweep list).1 = [] :=
  versions_eq_nil fun _ => uncommitted_of_mem_sweep

/-- **The cleanup prunes the versions.** -/
theorem versions_pickCleanup :
    versions (pickCleanup visibleTs list).1 = prune visibleTs (versions list) := by
  induction list with
  | nil => rfl
  | cons e list ih =>
    rw [pickCleanup]
    cases hts : e.commitTs with
    | none =>
      rw [versions_cons_of_uncommitted hts]
      simp only [Option.any_none, Bool.false_eq_true, if_false]
      rw [versions_cons_of_uncommitted hts]
      exact ih
    | some ts =>
      rw [versions_cons_of_committed hts, prune]
      by_cases hold : ts < visibleTs
      · simp only [Option.any_some, hold, decide_true, if_true]
        cases hdeleted : e.deleted with
        | true => exact versions_sweep
        | false => exact (versions_cons_of_committed hts).trans (by simp [versions_sweep, hdeleted])
      · simp only [Option.any_some, hold, decide_false, Bool.false_eq_true, if_false]
        rw [versions_cons_of_committed hts, ih]

theorem pickCleanup_sublist (visibleTs : ℕ) (list : List (Entry β)) :
    (pickCleanup visibleTs list).1.Sublist list := by
  induction list with
  | nil => exact .slnil
  | cons e list ih =>
    have hsweep : (sweep list).1.Sublist list := by
      rw [sweep_fst]
      exact filter_sublist
    rw [pickCleanup]
    split
    · split
      · exact hsweep.cons e
      · exact hsweep.cons_cons e
    · exact ih.cons_cons e

/-- Uncommitted entries stay. -/
theorem pickCleanup_filter {p : Entry β → Bool} (hp : ∀ e, p e → e.committed = false) :
    (pickCleanup visibleTs list).1.filter p = list.filter p := by
  induction list with
  | nil => rfl
  | cons e list ih =>
    rw [pickCleanup]
    split
    next hold =>
      have hsweep : (sweep list).1.filter p = list.filter p := by
        rw [sweep_fst, filter_filter]
        refine filter_congr fun f _ => ?_
        cases hf : p f with
        | false => rfl
        | true => simp [hp f hf]
      have he : p e = false := by
        by_contra he
        have hnone : e.commitTs = none := by
          simpa [Entry.committed] using hp e (by simpa using he)
        rw [hnone] at hold
        cases hold
      rw [filter_cons_of_neg (by simp [he])]
      split
      · exact hsweep
      · rw [filter_cons_of_neg (by simp [he])]
        exact hsweep
    next => rw [filter_cons, filter_cons, ih]

/-- Of the committed entries, the newest stay. -/
theorem pickCleanup_committed :
    ∃ gone, list.filter (·.committed) = (pickCleanup visibleTs list).1.filter (·.committed) ++
    gone := by
  induction list with
  | nil => exact ⟨[], rfl⟩
  | cons e list ih =>
    rw [pickCleanup]
    split
    · have hsweep : (sweep list).1.filter (·.committed) = [] := by
        rw [sweep_fst, filter_filter]
        simp
      split
      · rw [hsweep]
        exact ⟨_, rfl⟩
      · rw [filter_cons, filter_cons, hsweep]
        split
        · exact ⟨_, rfl⟩
        · exact ⟨_, rfl⟩
    · obtain ⟨gone, heq⟩ := ih
      refine ⟨gone, ?_⟩
      rw [filter_cons, filter_cons, heq]
      split <;> rfl

/-- Uncommitted entries in front stay there. -/
theorem pickCleanup_append (hown : ∀ e ∈ own, e.committed = false) :
    (pickCleanup visibleTs (own ++ list)).1 = own ++ (pickCleanup visibleTs list).1 := by
  induction own with
  | nil => rfl
  | cons e own ih =>
    have hts : e.commitTs = none := by
      have := hown e mem_cons_self
      simpa [Entry.committed] using this
    have hrest := ih fun f hf => hown f (mem_cons_of_mem _ hf)
    rw [cons_append, pickCleanup]
    simp only [hts, Option.any_none, Bool.false_eq_true, if_false]
    rw [hrest, cons_append]

/-- **The cleanup does not change what transactions get**: not for those that began at or after the
time stamp of the cleanup, if their own entries are in front. -/
theorem getEntryInner1_pickCleanup (hown : ∀ e ∈ own, e.committed = false)
    (hrest : HoldsNone txnId list) (hle : visibleTs ≤ beginTs) :
    getEntryInner1 txnId beginTs (pickCleanup visibleTs (own ++ list)).1 =
      getEntryInner1 txnId beginTs (own ++ list) := by
  have hkept : HoldsNone txnId (pickCleanup visibleTs list).1 :=
    fun e he => hrest e ((pickCleanup_sublist visibleTs list).mem he)
  rw [pickCleanup_append hown]
  induction own with
  | nil =>
    show getEntryInner1 txnId beginTs (pickCleanup visibleTs list).1 =
      getEntryInner1 txnId beginTs list
    rw [getEntryInner1_eq_readAt hkept, getEntryInner1_eq_readAt hrest, versions_pickCleanup,
      readAt_prune hle]
  | cons e own ih =>
    have hsame := ih fun f hf => hown f (mem_cons_of_mem _ hf)
    rw [cons_append, cons_append, getEntryInner1, getEntryInner1, hsame]

theorem sweep_perm :
    (list.filter fun e => !e.deleted).Perm (((sweep list).1.filter fun e => !e.deleted) ++
    (sweep list).2) := by
  induction list with
  | nil => exact .nil
  | cons e list ih =>
    cases hc : e.committed <;> cases hd : e.deleted
    · simpa [sweep, hc, hd] using ih
    · simpa [sweep, hc, hd] using ih
    · simpa [sweep, hc, hd] using (ih.cons e).trans perm_middle.symm
    · simpa [sweep, hc, hd] using ih

/-- **The scanner gets what is taken out and no drop marker, once.** -/
theorem pickCleanup_perm : (list.filter fun e => !e.deleted).Perm
      (((pickCleanup visibleTs list).1.filter fun e => !e.deleted) ++
      (pickCleanup visibleTs list).2) := by
  induction list with
  | nil => exact .nil
  | cons e list ih =>
    rw [pickCleanup]
    split
    · cases hd : e.deleted
      · simpa [hd] using sweep_perm
      · simpa [hd] using sweep_perm
    · cases hd : e.deleted
      · simpa [hd] using ih
      · simpa [hd] using ih

theorem not_deleted_of_mem_sweep (h : e ∈ (sweep list).2) : e.deleted = false := by
  induction list with
  | nil => cases h
  | cons f list ih =>
    cases hc : f.committed <;> cases hd : f.deleted <;> simp [sweep, hc, hd] at h
    · exact ih h
    · exact ih h
    · exact h.elim (fun heq => heq ▸ hd) ih
    · exact ih h

theorem not_deleted_of_mem_pickCleanup (h : e ∈ (pickCleanup visibleTs list).2) :
    e.deleted = false := by
  induction list with
  | nil => cases h
  | cons f list ih =>
    rw [pickCleanup] at h
    split at h
    · exact not_deleted_of_mem_sweep h
    · exact ih h

/-- **Cleanups add up**: two cleanups leave what one with the later time stamp leaves, and the
scanner gets the same entries. -/
theorem pickCleanup_pickCleanup (a b : ℕ) (list : List (Entry β)) :
    (pickCleanup b (pickCleanup a list).1).1 = (pickCleanup (max a b) list).1 ∧
      ((pickCleanup a list).2 ++ (pickCleanup b (pickCleanup a list).1).2).Perm
      (pickCleanup (max a b) list).2 := by
  have hkept : (pickCleanup b (pickCleanup a list).1).1 = (pickCleanup (max a b) list).1 := by
    induction list with
    | nil => rfl
    | cons e rest ih =>
      -- what a sweep has left stays
      have hsame : (pickCleanup b (sweep rest).1).1 = (sweep rest).1 := by
        simpa [pickCleanup] using @pickCleanup_append _ b [] _ fun _ => uncommitted_of_mem_sweep
      have hsweep (l : List (Entry β)) : (sweep (sweep l).1).1 = (sweep l).1 := by
        simp [sweep_fst]
      have hfirst : (sweep (pickCleanup a rest).1).1 = (sweep rest).1 := by
        rw [sweep_fst, sweep_fst]
        exact pickCleanup_filter (by simp)
      cases hts : e.commitTs with
      | none => simp [pickCleanup, hts, ih]
      | some ts =>
        by_cases ha : ts < a <;> by_cases hb : ts < b <;> cases hd : e.deleted <;>
          simp [pickCleanup, hts, ha, hb, hd, ih, hsame, hsweep, hfirst]
  refine ⟨hkept, ?_⟩
  have hfirst := @pickCleanup_perm _ a list
  have hsecond := @pickCleanup_perm _ b (pickCleanup a list).1
  have hboth := @pickCleanup_perm _ (max a b) list
  rw [hkept] at hsecond
  have hperm := hboth.symm.trans (hfirst.trans (hsecond.append_right _))
  rw [append_assoc, perm_append_left_iff] at hperm
  exact perm_append_comm.trans hperm.symm

end Cleanup

end Infinity.Catalog
