import Infinity.Foundations.SortedFilter
import Infinity.Foundations.Transition

/-! # Versions of the rows of a block (`BlockVersion`, `BlockEntry`)

A block keeps the commit time stamp of every append (`created_`) and of every deletion (`deleted_`)
beside its row count. `BlockEntry::row_count` answers from the row count alone when the time stamp
asked for is not below `max_row_ts_`, which `CommitBlock` advances, and from the versions otherwise.

* `BlockVersion.getRowCount`, `BlockEntry.rowCountAt`: the two ways of counting.
* `RowsInv.of_reachable`: in every state `getRowCount` counts the rows appended up to a time stamp.
* `BlockVersion.getCreateTS_eq_iff`: when the time stamps of a window of rows are the right ones.
* `rowCountAt_eq_iff`: when `row_count` agrees with it.
* `rowCountAt_ne_uncommittedAppend`: rows of an append whose `CommitBlock` is still to come.
-/

namespace Infinity.Storage

open Foundations List Option

/-! ## Versions -/

/-- `CreateField`: `rowCount` rows were there after the append of `createTs`. -/
structure CreateField where
  createTs : ℕ
  rowCount : ℕ
  deriving DecidableEq, Repr

/-- `BlockVersion`. -/
structure BlockVersion where
  created : List CreateField
  /-- `deleted_`: the commit time stamp of the deletion of each row, 0 if there is none. -/
  deleted : List ℕ
  deriving DecidableEq, Repr

namespace BlockVersion

/-- `BlockVersion::BlockVersion(capacity)`. -/
def make (capacity : ℕ) : BlockVersion := ⟨[], List.replicate capacity 0⟩

def lastRowCount (fs : List CreateField) : ℕ := fs.getLast?.elim 0 CreateField.rowCount

/-- `BlockVersion::GetRowCount`: `upper_bound` finds the end of the fields up to `beginTs`. -/
def getRowCount (v : BlockVersion) (beginTs : ℕ) : ℕ :=
  lastRowCount (v.created.takeWhile (·.createTs ≤ beginTs))

/-- The version after an append of `commitTs` that makes `rowCount` rows. -/
def append (v : BlockVersion) (commitTs rowCount : ℕ) : BlockVersion :=
  { v with created := v.created ++ [⟨commitTs, rowCount⟩] }

/-- The loop of `BlockEntry::DeleteData`; a row that is deleted already is an error. -/
def delete (commitTs : ℕ) : BlockVersion → List ℕ → Option BlockVersion
  | v, [] => some v
  | v, row :: rows =>
    if v.deleted[row]? = some 0 then
      delete commitTs { v with deleted := v.deleted.set row commitTs } rows
    else none

@[simp] theorem lastRowCount_concat (fs : List CreateField) (f : CreateField) :
    lastRowCount (fs ++ [f]) = f.rowCount := by
  simp [lastRowCount]

theorem created_delete {commitTs : ℕ} {rows : List ℕ} {v v' : BlockVersion}
    (h : v.delete commitTs rows = some v') : v'.created = v.created := by
  induction rows generalizing v with
  | nil =>
    cases h
    rfl
  | cons row rows ih =>
    unfold delete at h
    split at h
    · have hrest := ih h
      exact hrest
    · cases h

theorem takeWhile_concat_of_neg {α : Type*} {p : α → Bool} {a : α} (ha : ¬ p a) (l : List α) :
    (l ++ [a]).takeWhile p = l.takeWhile p := by
  induction l with
  | nil => exact takeWhile_cons_of_neg ha
  | cons b l ih =>
    rw [cons_append, takeWhile_cons, takeWhile_cons, ih]

/-- An append that is later than all others counts from its time stamp on. -/
theorem getRowCount_append {v : BlockVersion} {commitTs : ℕ}
    (hle : ∀ f ∈ v.created, f.createTs ≤ commitTs) (rowCount t : ℕ) :
      (v.append commitTs rowCount).getRowCount t =
      if commitTs ≤ t then rowCount else v.getRowCount t := by
  unfold getRowCount append
  split
  next ht =>
    have hall : ∀ f ∈ v.created ++ [⟨commitTs, rowCount⟩], decide (f.createTs ≤ t) := by
      intro f hf
      rcases mem_append.mp hf with hf | hf
      · exact decide_eq_true (le_trans (hle f hf) ht)
      · rw [mem_singleton.mp hf]
        exact decide_eq_true ht
    rw [takeWhile_eq_self_iff.mpr hall, lastRowCount_concat]
  next ht =>
    rw [takeWhile_concat_of_neg]
    simpa using ht

/-! ## Create time stamps -/

/-- `MAX_TIMESTAMP`. -/
def maxTimestamp : ℕ := 2 ^ 64 - 1

/-- The loops of `GetCreateTS`, which are at `row` with `n` rows to go: `iter` is at the first of
the fields. -/
def createTSFrom : List CreateField → ℕ → ℕ → List ℕ
  | _, _, 0 => []
  | [], row, n + 1 => maxTimestamp :: createTSFrom [] (row + 1) n
  | f :: fs, row, n + 1 =>
    f.createTs :: createTSFrom (if f.rowCount = row then fs else f :: fs) (row + 1) n

/-- `BlockVersion::GetCreateTS`: `lower_bound` finds the first field with `offset` rows or more. -/
def getCreateTS (v : BlockVersion) (offset size : ℕ) : List ℕ :=
  createTSFrom (v.created.dropWhile (·.rowCount < offset)) offset size

def firstTS (fs : List CreateField) (p : CreateField → Bool) : ℕ :=
  (fs.find? p).elim maxTimestamp CreateField.createTs

/-- The time stamp of the append that created a row: the first with more rows than come before
it. -/
def createTSOf (v : BlockVersion) (row : ℕ) : ℕ := firstTS v.created (row < ·.rowCount)

def Growing (fs : List CreateField) : Prop := fs.Pairwise (·.rowCount < ·.rowCount)

instance (fs : List CreateField) : Decidable (Growing fs) :=
  inferInstanceAs (Decidable (List.Pairwise _ _))

/-- The loop gives each row the first field that has as many rows as come before it. -/
theorem createTSFrom_eq {fs : List CreateField} {row : ℕ} (hfs : Growing fs)
    (hrow : ∀ f ∈ fs, row ≤ f.rowCount)
    (n : ℕ) : createTSFrom fs row n = (List.range' row n).map fun r =>
    firstTS fs (r ≤ ·.rowCount) := by
  induction n generalizing fs row with
  | zero => cases fs <;> rfl
  | succ n ih =>
    rw [range'_succ, map_cons]
    cases fs with
    | nil => rw [createTSFrom, ih .nil nofun]; rfl
    | cons f fs =>
      obtain ⟨hlt, hgrowing⟩ := pairwise_cons.mp hfs
      have hhead : row ≤ f.rowCount := hrow f mem_cons_self
      have hfirst : firstTS (f :: fs) (row ≤ ·.rowCount) = f.createTs := by simp [firstTS, hhead]
      rw [createTSFrom, hfirst]
      split
      next heq =>
        -- the field is left behind: the rows that follow are not among its own
        rw [ih hgrowing fun g hg => by have := hlt g hg; omega]
        congr 1
        refine map_congr_left fun r hr => ?_
        have : ¬ r ≤ f.rowCount := by have := mem_range'_1.mp hr; omega
        simp [firstTS, this]
      next hne =>
        rw [ih hfs]
        intro g hg
        rcases mem_cons.mp hg with rfl | hg
        · omega
        · have := hlt g hg
          omega

theorem getCreateTS_eq {v : BlockVersion} (hv : Growing v.created) (offset size : ℕ) :
      v.getCreateTS offset size =
      (List.range' offset size).map fun r => firstTS v.created (r ≤ ·.rowCount) := by
  have hup : UpClosed (fun f g : CreateField => f.rowCount < g.rowCount) (offset ≤ ·.rowCount) := by
    intro f g hlt hf
    simp only [decide_eq_true_eq] at hf ⊢
    omega
  have hdrop : v.created.dropWhile (·.rowCount < offset) =
      v.created.filter (offset ≤ ·.rowCount) := by
    simpa only [← decide_not, not_le] using dropWhile_eq_filter hup hv
  have hle : ∀ f ∈ v.created.filter (offset ≤ ·.rowCount), offset ≤ f.rowCount := by simp
  rw [getCreateTS, hdrop, createTSFrom_eq (Pairwise.filter _ hv) hle]
  refine map_congr_left fun r hr => ?_
  have hr := (mem_range'_1.mp hr).1
  rw [firstTS, find?_filter, find?_congr, firstTS]
  intro f _
  simp only [decide_eq_true_eq, decide_eq_decide]
  omega

theorem firstTS_of_mem {fs : List CreateField} {f : CreateField} (hfs : Growing fs) (hf : f ∈ fs) :
    firstTS fs (f.rowCount ≤ ·.rowCount) = f.createTs := by
  induction fs with
  | nil => cases hf
  | cons g fs ih =>
    obtain ⟨hlt, hgrowing⟩ := pairwise_cons.mp hfs
    rcases mem_cons.mp hf with rfl | hf
    · simp [firstTS]
    · have hnot : ¬ f.rowCount ≤ g.rowCount := by simpa using hlt f hf
      rw [← ih hgrowing hf]
      simp [firstTS, hnot]

theorem firstTS_eq_iff {v : BlockVersion} (hv : Growing v.created) (r : ℕ) :
    firstTS v.created (r ≤ ·.rowCount) = v.createTSOf r ↔ ∀ f ∈ v.created, f.rowCount = r →
    v.createTSOf r = f.createTs := by
  constructor
  · rintro h f hf rfl
    rw [← h, firstTS_of_mem hv hf]
  · intro h
    by_cases hend : ∃ f ∈ v.created, f.rowCount = r
    · obtain ⟨f, hf, rfl⟩ := hend
      rw [h f hf rfl, firstTS_of_mem hv hf]
    · have hcongr : v.created.find? (r ≤ ·.rowCount) = v.created.find? (r < ·.rowCount) := by
        apply find?_congr
        intro f hf
        have hne : f.rowCount ≠ r := fun heq => hend ⟨f, hf, heq⟩
        simp only [decide_eq_decide]
        omega
      simp only [createTSOf, firstTS, hcongr]

/-- **The rows of a window get the time stamps of the appends that created them** exactly if every
append that ends in the window has the time stamp of the next one. -/
theorem getCreateTS_eq_iff {v : BlockVersion} (hv : Growing v.created) (offset size : ℕ) :
    v.getCreateTS offset size = (List.range' offset size).map v.createTSOf ↔
      ∀ f ∈ v.created, offset ≤ f.rowCount → f.rowCount < offset + size →
      v.createTSOf f.rowCount = f.createTs := by
  rw [getCreateTS_eq hv, map_inj_left]
  constructor
  · intro h f hf hle hlt
    exact (firstTS_eq_iff hv _).mp (h _ (mem_range'_1.mpr ⟨hle, hlt⟩)) f hf rfl
  · intro h r hr
    obtain ⟨hle, hlt⟩ := mem_range'_1.mp hr
    refine (firstTS_eq_iff hv r).mpr fun f hf heq => ?_
    subst heq
    exact h f hf hle hlt

/-- Two rows of an append of time stamp 5, and then two of time stamp 7. -/
def twoAppends : BlockVersion := ⟨[⟨5, 2⟩, ⟨7, 4⟩], [0, 0, 0, 0]⟩

/-- The third row is said to be of the first append, and a row that does not exist of the second. -/
theorem getCreateTS_ne_twoAppends :
      Growing twoAppends.created ∧ twoAppends.created.Pairwise (·.createTs ≤ ·.createTs) ∧
      twoAppends.getCreateTS 0 5 = [5, 5, 5, 7, 7] ∧
      (List.range' 0 5).map twoAppends.createTSOf = [5, 5, 7, 7, maxTimestamp] := by
  decide

/-- In a window that ends before it the time stamps are right. -/
theorem getCreateTS_eq_twoAppends : Growing twoAppends.created ∧
    twoAppends.getCreateTS 0 2 = (List.range' 0 2).map twoAppends.createTSOf :=
  ⟨by decide, (getCreateTS_eq_iff (by decide) 0 2).mpr (by decide)⟩

end BlockVersion

/-! ## Blocks -/

/-- `BlockEntry`, without its columns; the version is passed beside it. -/
structure BlockEntry where
  rowCount : ℕ
  rowCapacity : ℕ
  /-- `min_row_ts_`; none stands for `UNCOMMIT_TS`. -/
  minRowTs : Option ℕ
  maxRowTs : ℕ
  checkpointTs : ℕ
  checkpointRowCount : ℕ
  /-- `using_txn_id_`, 0 if no transaction is changing the block. -/
  usingTxnId : ℕ
  /-- `commit_ts_`; none stands for `UNCOMMIT_TS`. -/
  commitTs : Option ℕ
  deriving DecidableEq, Repr

namespace BlockEntry

/-- `DEFAULT_VECTOR_SIZE`. -/
def defaultVectorSize : ℕ := 8192

/-- `BlockEntry::NewBlockEntry`. -/
def newBlockEntry (checkpointTs : ℕ) : BlockEntry :=
  ⟨0, defaultVectorSize, none, 0, checkpointTs, 0, 0, none⟩

/-- Whether another transaction is changing the block, which is an error for every writer. -/
def usedByOther (e : BlockEntry) (txnId : ℕ) : Prop := e.usingTxnId ≠ 0 ∧ e.usingTxnId ≠ txnId

instance (e : BlockEntry) (txnId : ℕ) : Decidable (e.usedByOther txnId) :=
  inferInstanceAs (Decidable (_ ∧ _))

/-- The rows of an append that fit into the block. -/
def actualCopied (e : BlockEntry) (appendRows : ℕ) : ℕ :=
  if e.rowCapacity < e.rowCount + appendRows then e.rowCapacity - e.rowCount else appendRows

/-- `BlockEntry::AppendData`, with the number of rows that were copied. -/
def appendData (e : BlockEntry) (v : BlockVersion) (txnId commitTs appendRows : ℕ) :
    Option (BlockEntry × BlockVersion × ℕ) :=
  if e.usedByOther txnId then none
  else
    let rowCount := e.rowCount + e.actualCopied appendRows
    some ({ e with usingTxnId := txnId, rowCount := rowCount }, v.append commitTs rowCount,
      e.actualCopied appendRows)

/-- `BlockEntry::DeleteData`. -/
def deleteData (e : BlockEntry) (v : BlockVersion) (txnId commitTs : ℕ) (rows : List ℕ) :
    Option (BlockEntry × BlockVersion) :=
  if e.usedByOther txnId then none
  else (v.delete commitTs rows).map fun v' => ({ e with usingTxnId := txnId }, v')

/-- `BlockEntry::CommitBlock`. -/
def commitBlock (e : BlockEntry) (txnId commitTs : ℕ) : Option BlockEntry :=
  if e.usedByOther txnId then none
  else if commitTs < e.maxRowTs then none
  else
    some { e with
      usingTxnId := 0
      minRowTs := some (e.minRowTs.elim commitTs (min · commitTs))
      maxRowTs := commitTs
      commitTs := e.commitTs.or (some commitTs) }

/-- `BlockEntry::row_count`. -/
def rowCountAt (e : BlockEntry) (v : BlockVersion) (checkTs : ℕ) : ℕ :=
  if e.maxRowTs ≤ checkTs then e.rowCount else v.getRowCount checkTs

end BlockEntry

/-! ## Writers of a block, one after the other -/

/-- A block with its versions. `rows` and `lastTs` record what has happened and are not read. -/
structure Block where
  entry : BlockEntry
  version : BlockVersion
  rows : List ℕ
  /-- The commit time stamp of the transaction that changes the block, or changed it last. -/
  lastTs : ℕ
  deriving DecidableEq, Repr

/-- The actions on a block. -/
inductive BlockAction where
  | appendData (txnId commitTs appendRows : ℕ)
  | deleteData (txnId commitTs : ℕ) (rows : List ℕ)
  | commitBlock (txnId commitTs : ℕ)

namespace Block

def make (checkpointTs : ℕ) : Block :=
  ⟨.newBlockEntry checkpointTs, .make BlockEntry.defaultVectorSize, [], 0⟩

/-- The bottom halves of commits run one after the other in the order of their time stamps: while a
transaction changes the block the writer is that transaction, otherwise it is a later one. -/
def inTurn (b : Block) (txnId commitTs : ℕ) : Prop :=
  0 < txnId ∧ if b.entry.usingTxnId = 0 then b.lastTs < commitTs else commitTs = b.lastTs

instance (b : Block) (txnId commitTs : ℕ) : Decidable (b.inTurn txnId commitTs) :=
  inferInstanceAs (Decidable (_ ∧ _))

def step (b : Block) : BlockAction → Option Block
  | .appendData txnId commitTs appendRows =>
    if b.inTurn txnId commitTs then
      (b.entry.appendData b.version txnId commitTs appendRows).map fun (e, v, copied) =>
        ⟨e, v, b.rows ++ List.replicate copied commitTs, commitTs⟩
    else none
  | .deleteData txnId commitTs rows =>
    if b.inTurn txnId commitTs then
      (b.entry.deleteData b.version txnId commitTs rows).map fun (e, v) =>
        ⟨e, v, b.rows, commitTs⟩
    else none
  | .commitBlock txnId commitTs =>
    if b.inTurn txnId commitTs then
      (b.entry.commitBlock txnId commitTs).map fun e => { b with entry := e, lastTs := commitTs }
    else none

/-- The block after an append of which `copied` rows fit. -/
def appended (b : Block) (txnId commitTs copied : ℕ) : Block where
  entry := { b.entry with usingTxnId := txnId, rowCount := b.entry.rowCount + copied }
  version := b.version.append commitTs (b.entry.rowCount + copied)
  rows := b.rows ++ List.replicate copied commitTs
  lastTs := commitTs

/-- The block after `CommitBlock`. -/
def committed (b : Block) (commitTs : ℕ) : Block := { b with
    entry := { b.entry with
      usingTxnId := 0
      minRowTs := some (b.entry.minRowTs.elim commitTs (min · commitTs))
      maxRowTs := commitTs
      commitTs := b.entry.commitTs.or (some commitTs) }
    lastTs := commitTs }

/-- What a step does. -/
inductive Steps (b : Block) : Block → Prop where
  | append {txnId commitTs appendRows : ℕ} (copied : ℕ) (hturn : b.inTurn txnId commitTs)
      (hcopied : copied = b.entry.actualCopied appendRows) :
      Steps b (b.appended txnId commitTs copied)
  | delete {txnId commitTs : ℕ} {rows : List ℕ} {v : BlockVersion}
      (hv : b.version.delete commitTs rows = some v) (hturn : b.inTurn txnId commitTs) :
      Steps b ⟨{ b.entry with usingTxnId := txnId }, v, b.rows, commitTs⟩
  | commit {txnId commitTs : ℕ} (hturn : b.inTurn txnId commitTs) : Steps b (b.committed commitTs)

theorem steps_of_step {b b' : Block} {a : BlockAction} (hs : b.step a = some b') : Steps b b' := by
  cases a
  all_goals
    obtain ⟨hturn, hs⟩ := ite_none_right_eq_some.mp hs
    obtain ⟨_, he, rfl⟩ := map_eq_some_iff.mp hs
    obtain ⟨-, he⟩ := ite_none_left_eq_some.mp he
  case appendData =>
    cases he
    exact .append _ hturn rfl
  case deleteData =>
    obtain ⟨v, hv, rfl⟩ := map_eq_some_iff.mp he
    exact .delete hv hturn
  case commitBlock =>
    obtain ⟨-, he⟩ := ite_none_left_eq_some.mp he
    cases he
    exact .commit hturn

def rowsUpTo (b : Block) (t : ℕ) : ℕ := b.rows.countP (· ≤ t)

end Block

def blockWriters : TransitionSystem Block BlockAction where
  Initial b := ∃ checkpointTs, b = Block.make checkpointTs
  step := Block.step

/-! ## What the versions count -/

/-- The versions describe the rows, and the block's own fields lag at most one transaction. -/
structure RowsInv (b : Block) : Prop where
  rowCount : b.entry.rowCount = b.rows.length
  rows_le : ∀ ts ∈ b.rows, ts ≤ b.lastTs
  created_le : ∀ f ∈ b.version.created, f.createTs ≤ b.lastTs
  getRowCount : ∀ t, b.version.getRowCount t = b.rowsUpTo t
  maxRowTs_le : b.entry.maxRowTs ≤ b.lastTs
  idle : b.entry.usingTxnId = 0 → ∀ ts ∈ b.rows, ts ≤ b.entry.maxRowTs

namespace RowsInv

variable {b b' : Block} {txnId commitTs : ℕ}

theorem make (checkpointTs : ℕ) : RowsInv (Block.make checkpointTs) where
  rowCount := rfl
  rows_le := nofun
  created_le := nofun
  getRowCount _ := rfl
  maxRowTs_le := le_refl _
  idle _ := nofun

theorem lastTs_le (hturn : b.inTurn txnId commitTs) : b.lastTs ≤ commitTs := by
  obtain ⟨-, h⟩ := hturn
  split at h <;> omega

theorem append (h : RowsInv b) (hturn : b.inTurn txnId commitTs) (copied : ℕ) :
    RowsInv (b.appended txnId commitTs copied) := by
  have hle := lastTs_le hturn
  have hcreated : ∀ f ∈ b.version.created, f.createTs ≤ commitTs := fun f hf =>
    le_trans (h.created_le f hf) hle
  constructor
  · simp [Block.appended, h.rowCount]
  · intro ts hts
    rcases mem_append.mp hts with hts | hts
    · exact le_trans (h.rows_le ts hts) hle
    · exact le_of_eq (eq_of_mem_replicate hts)
  · intro f hf
    rcases mem_append.mp hf with hf | hf
    · exact hcreated f hf
    · rw [mem_singleton.mp hf]
      exact le_refl commitTs
  · intro t
    show (b.version.append _ _).getRowCount t = (b.rows ++ List.replicate copied commitTs).countP _
    rw [BlockVersion.getRowCount_append hcreated, h.getRowCount t, h.rowCount, countP_append,
      countP_replicate]
    unfold Block.rowsUpTo
    split
    next ht =>
      have hall : b.rows.countP (· ≤ t) = b.rows.length := by
        apply countP_eq_length.mpr
        intro ts hts
        exact decide_eq_true (le_trans (le_trans (h.rows_le ts hts) hle) ht)
      simp [hall, ht]
    next ht => simp [ht]
  · exact le_trans h.maxRowTs_le hle
  · intro hidle
    exact absurd hidle (Nat.pos_iff_ne_zero.mp hturn.1)

theorem step (h : RowsInv b) {a : BlockAction} (hs : b.step a = some b') : RowsInv b' := by
  cases Block.steps_of_step hs with
  | append copied hturn => exact h.append hturn copied
  | @delete txnId commitTs _ v hv hturn =>
    have hle := lastTs_le hturn
    have hcreated := BlockVersion.created_delete hv
    constructor
    · exact h.rowCount
    · exact fun ts hts => le_trans (h.rows_le ts hts) hle
    · intro f hf
      rw [hcreated] at hf
      exact le_trans (h.created_le f hf) hle
    · intro t
      show BlockVersion.lastRowCount (v.created.takeWhile _) = _
      rw [hcreated]
      exact h.getRowCount t
    · exact le_trans h.maxRowTs_le hle
    · intro hidle
      exact absurd hidle (Nat.pos_iff_ne_zero.mp hturn.1)
  | @commit txnId commitTs hturn =>
    have hle := lastTs_le hturn
    constructor
    · exact h.rowCount
    · exact fun ts hts => le_trans (h.rows_le ts hts) hle
    · exact fun f hf => le_trans (h.created_le f hf) hle
    · exact h.getRowCount
    · exact le_refl commitTs
    · exact fun _ ts hts => le_trans (h.rows_le ts hts) hle

/-- **The versions of a block count its rows in every state.** -/
theorem of_reachable (h : blockWriters.Reachable b) : RowsInv b := by
  apply h.invariant
  · rintro _ ⟨checkpointTs, rfl⟩
    exact make checkpointTs
  · intro b a b' hb hs
    exact hb.step hs

end RowsInv

/-! ## What `row_count` counts -/

/-- The row count of the block is that of the versions if nothing later was appended. -/
theorem RowsInv.rowCountAt_eq_iff_le {b : Block} (h : RowsInv b) (t : ℕ) :
    b.entry.rowCountAt b.version t = b.rowsUpTo t ↔ t < b.entry.maxRowTs ∨ ∀ ts ∈ b.rows,
    ts ≤ t := by
  unfold BlockEntry.rowCountAt
  split
  next hmax =>
    rw [h.rowCount, eq_comm, or_iff_right (not_lt.mpr hmax)]
    unfold Block.rowsUpTo
    simp [countP_eq_length]
  next hmax => simp [h.getRowCount t, lt_of_not_ge hmax]

/-- **`row_count` counts the rows appended up to a time stamp** exactly if the time stamp is below
`max_row_ts_` or no row of the block is later than it. -/
theorem rowCountAt_eq_iff {b : Block} (h : blockWriters.Reachable b) (t : ℕ) :
    (b.entry.rowCountAt b.version t = b.version.getRowCount t ∧
    b.version.getRowCount t = b.rowsUpTo t) ↔ t < b.entry.maxRowTs ∨ ∀ ts ∈ b.rows, ts ≤ t := by
  have hinv := RowsInv.of_reachable h
  rw [and_iff_left (hinv.getRowCount t), hinv.getRowCount t]
  exact hinv.rowCountAt_eq_iff_le t

/-- An append of five rows at time stamp 10 to a new block, before its `CommitBlock`. -/
def uncommittedAppend : Block where
  entry := { BlockEntry.newBlockEntry 0 with usingTxnId := 1, rowCount := 5 }
  version := (BlockVersion.make BlockEntry.defaultVectorSize).append 10 5
  rows := List.replicate 5 10
  lastTs := 10

theorem reachable_uncommittedAppend : blockWriters.Reachable uncommittedAppend :=
  TransitionSystem.Reachable.of_run [.appendData 1 10 5] (.initial ⟨0, rfl⟩) rfl

/-- A reader of time stamp 3 is told of the five rows, which the versions do not show to it. -/
theorem rowCountAt_ne_uncommittedAppend : blockWriters.Reachable uncommittedAppend ∧
      uncommittedAppend.entry.rowCountAt uncommittedAppend.version 3 = 5 ∧
      uncommittedAppend.version.getRowCount 3 = 0 ∧ uncommittedAppend.rowsUpTo 3 = 0 :=
  ⟨reachable_uncommittedAppend, by decide, by decide, by decide⟩

/-- For a reader of time stamp 10 the two counts agree in the same state. -/
theorem rowCountAt_eq_uncommittedAppend : blockWriters.Reachable uncommittedAppend ∧
      (uncommittedAppend.entry.rowCountAt uncommittedAppend.version 10 =
        uncommittedAppend.version.getRowCount 10 ∧
        uncommittedAppend.version.getRowCount 10 = uncommittedAppend.rowsUpTo 10) :=
  ⟨reachable_uncommittedAppend, (rowCountAt_eq_iff reachable_uncommittedAppend 10).mpr
    (.inr (by decide))⟩

end Infinity.Storage
