import Infinity.Storage.Visibility

/-! # Row filters of index scans (`knn_filter.cppm`, `SegmentEntry::CheckRowVisible`)

An index returns row offsets of a segment, also of rows that were appended after the reader began. A
scan passes it a filter: `AppendFilter` compares the offset with the row count of the reader's time
stamp, `DeleteFilter` does so and asks the block, `DeleteWithBitmaskFilter` is a `DeleteFilter` of
row count 0 behind a bitmask. A KNN scan takes the row count when the query is planned, an index
scan when it makes the filter; the filter asks the segment as it is when a row is offered.

* `SegmentInv.of_reachable`: the blocks of a segment are full up to the last, its rows in the order
  of their time stamps.
* `Scan.accepts_iff`: when the filter of a scan accepts a row exactly if it is visible and in the
  bitmask.
* `not_accepts_lateRows`: the row behind the last visible one is accepted, and a bitmask with a
  false bit hides all rows but the first once a row is deleted. -/

namespace Infinity.Storage

open Foundations BlockEntry List Option Block

/-! ## Segments -/

/-- `SegmentEntry`, with what the filters read. `lastTs` records the last writer and is not read. -/
structure Segment where
  blocks : List Block
  /-- Whether `status_` is `kSealed`. -/
  isSealed : Bool
  rowCount : ℕ
  /-- `first_delete_ts_`; none stands for `UNCOMMIT_TS`. -/
  firstDeleteTs : Option ℕ
  lastTs : ℕ
  deriving DecidableEq, Repr

/-- What a transaction does to a segment; the loops of `AppendData` and `DeleteData` go round once
for each action. -/
inductive SegmentAction where
  | appendData (txnId commitTs appendRows : ℕ)
  | deleteData (txnId commitTs blockId : ℕ) (rows : List ℕ)
  | commitSegment (txnId commitTs : ℕ) (hasDeletes : Bool)
  | setSealed

namespace Segment

/-- `DEFAULT_SEGMENT_CAPACITY`. -/
def defaultSegmentCapacity : ℕ := 1024 * defaultVectorSize

/-- The blocks before the one that the next rows go to, and that block. -/
def openBlock (blocks : List Block) : List Block × Block :=
  match blocks.getLast? with
  | none => (blocks, .make 0)
  | some b =>
    if b.entry.rowCapacity ≤ b.entry.rowCount then (blocks, .make 0) else (blocks.dropLast, b)

/-- `CommitBlock` for the blocks that a transaction has changed. -/
def commitBlocks (txnId commitTs : ℕ) (blocks : List Block) : Option (List Block) :=
  blocks.mapM fun b =>
    if b.entry.usingTxnId = txnId then b.step (.commitBlock txnId commitTs) else some b

/-- The segment after an action. -/
def step (s : Segment) : SegmentAction → Option Segment
  | .appendData txnId commitTs appendRows =>
    if s.isSealed ∨ defaultSegmentCapacity ≤ s.rowCount ∨ commitTs < s.lastTs then none
    else
      let target := openBlock s.blocks
      (target.2.step (.appendData txnId commitTs appendRows)).map fun b =>
        { s with
          blocks := target.1 ++ [b]
          rowCount := s.rowCount + (b.entry.rowCount - target.2.entry.rowCount)
          lastTs := commitTs }
  | .deleteData txnId commitTs blockId rows =>
    if commitTs < s.lastTs then none
    else
      (s.blocks[blockId]?.bind (·.step (.deleteData txnId commitTs rows))).map fun b =>
        { s with blocks := s.blocks.set blockId b, lastTs := commitTs }
  | .commitSegment txnId commitTs hasDeletes =>
    (commitBlocks txnId commitTs s.blocks).map fun blocks =>
      { s with
        blocks := blocks
        firstDeleteTs :=
          if hasDeletes then s.firstDeleteTs.or (some commitTs) else s.firstDeleteTs }
  | .setSealed => some { s with isSealed := true }

/-- `SegmentEntry::row_count` of a segment that is not deprecated for the reader. -/
def rowCountAt (s : Segment) (checkTs : ℕ) : ℕ :=
  if s.isSealed then s.rowCount else (s.blocks.map fun b =>
    b.entry.rowCountAt b.version checkTs).sum

/-- `SegmentEntry::CheckAnyDelete`. -/
def checkAnyDelete (s : Segment) (checkTs : ℕ) : Bool := s.firstDeleteTs.elim false (· < checkTs)

/-- Whether `commit_ts_` of a block is not above a time stamp. -/
def committedBy (b : Block) (checkTs : ℕ) : Bool := b.entry.commitTs.elim false (· ≤ checkTs)

/-- `SegmentEntry::CheckRowVisible`. -/
def checkRowVisible (s : Segment) (segmentOffset checkTs : ℕ) (checkAppend : Bool) : Bool :=
  match s.blocks[segmentOffset / defaultVectorSize]? with
  | none => false
  | some b => committedBy b checkTs &&
      BlockEntry.checkRowVisible b.version (segmentOffset % defaultVectorSize) checkTs checkAppend

end Segment

/-- All histories of a segment. -/
def segmentWriters : TransitionSystem Segment SegmentAction where
  Initial s := s = ⟨[], false, 0, none, 0⟩
  step := Segment.step

/-! ## Filters -/

/-- `AppendFilter`. -/
def appendFilter (maxSegmentOffset segmentOffset : ℕ) : Bool := segmentOffset ≤ maxSegmentOffset

/-- `DeleteFilter`. -/
def deleteFilter (s : Segment) (queryTs maxSegmentOffset segmentOffset : ℕ) : Bool :=
  segmentOffset ≤ maxSegmentOffset &&
    s.checkRowVisible segmentOffset queryTs (maxSegmentOffset == 0)

/-- `BitmaskFilter`; behind the bits there is nothing to read. -/
def bitmaskFilter (bitmask : List Bool) (segmentOffset : ℕ) : Option Bool := bitmask[segmentOffset]?

/-- `DeleteWithBitmaskFilter`. -/
def deleteWithBitmaskFilter (bitmask : List Bool) (s : Segment) (queryTs segmentOffset : ℕ) :
    Option Bool :=
  (bitmaskFilter bitmask segmentOffset).map (· && deleteFilter s queryTs 0 segmentOffset)

/-- `Bitmask::IsAllTrue`. -/
def isAllTrue (bitmask : List Bool) : Bool := bitmask.all id

/-- The scans that filter the rows of an index: `PhysicalKnnScan`, with the bits of the query's
filter and with the lock of an index that still grows or not; `PhysicalIndexScan`. -/
inductive Scan where
  | knn (bitmask : List Bool) (withLock : Bool)
  | index

namespace Scan

/-- What the filter of a scan says of a row: the segment when the query was planned, when the filter
was made and when the row is offered. A bitmask that is all true is not used (`use_bitmask`). -/
def accepts (planned made s : Segment) (beginTs segmentOffset : ℕ) : Scan → Option Bool
  | .knn bitmask withLock =>
    if isAllTrue bitmask then
      some (
        if made.checkAnyDelete beginTs then
          deleteFilter s beginTs (planned.rowCountAt beginTs) segmentOffset
        else if withLock then appendFilter (planned.rowCountAt beginTs) segmentOffset
        else true)
    else if made.checkAnyDelete beginTs then
      deleteWithBitmaskFilter bitmask s beginTs segmentOffset
    else bitmaskFilter bitmask segmentOffset
  | .index => some (deleteFilter s beginTs (made.rowCountAt beginTs) segmentOffset)

/-- The row is true in the bitmask, if there is one. -/
def wants (segmentOffset : ℕ) : Scan → Bool
  | .knn bitmask _ => bitmask.getD segmentOffset true
  | .index => true

end Scan

/-! ## The rows of a segment -/

/-- The rows of blocks that are full up to the last are found by quotient and remainder. -/
theorem getElem?_flatMap_of_full {α β : Type*} {f : α → List β} {n : ℕ} (hn : 0 < n) {l : List α}
    (hfull : ∀ a ∈ l.dropLast, (f a).length = n) (hle : ∀ a ∈ l, (f a).length ≤ n) (o : ℕ) :
    (l.flatMap f)[o]? = l[o / n]?.bind fun a => (f a)[o % n]? := by
  induction l generalizing o with
  | nil => simp
  | cons a l ih =>
    rw [flatMap_cons]
    have ha := hle a mem_cons_self
    by_cases ho : o < n
    · rw [Nat.div_eq_of_lt ho, Nat.mod_eq_of_lt ho]
      cases l with
      | nil => simp
      | cons b l =>
        rw [getElem?_append_left (by rw [hfull a (by simp)]; exact ho)]
        simp
    · obtain ⟨k, rfl⟩ := Nat.exists_eq_add_of_le (le_of_not_gt ho)
      rw [Nat.add_div_left k hn, Nat.add_mod_left, getElem?_cons_succ]
      cases l with
      | nil =>
        simp only [flatMap_nil, append_nil, getElem?_nil, bind_none]
        exact getElem?_eq_none (by omega)
      | cons b l =>
        rw [getElem?_append_right (by omega), hfull a (by simp), Nat.add_sub_cancel_left]
        exact ih (fun c hc => hfull c (mem_cons_of_mem _ hc)) (fun c hc =>
          hle c (mem_cons_of_mem _ hc)) k

/-- A block holds at most its capacity. -/
theorem capacity_of_reachable {b : Block} (h : blockWriters.Reachable b) :
    b.entry.rowCapacity = defaultVectorSize ∧ b.entry.rowCount ≤ b.entry.rowCapacity := by
  apply h.invariant
  · rintro _ ⟨checkpointTs, rfl⟩
    exact ⟨rfl, Nat.zero_le _⟩
  · rintro b a b' ⟨hcap, hle⟩ hs
    cases steps_of_step hs with
    | append copied _ hcopied =>
      refine ⟨hcap, ?_⟩
      show b.entry.rowCount + copied ≤ b.entry.rowCapacity
      rw [hcopied, actualCopied]
      split <;> omega
    | delete _ _ => exact ⟨hcap, hle⟩
    | commit _ => exact ⟨hcap, hle⟩

/-- The time stamps of the rows of a segment. -/
def Segment.rows (s : Segment) : List ℕ := s.blocks.flatMap Block.rows

/-- The blocks are full up to the last, and the rows in the order of their time stamps. -/
structure SegmentInv (s : Segment) : Prop where
  reachable : ∀ b ∈ s.blocks, blockWriters.Reachable b
  full : ∀ b ∈ s.blocks.dropLast, b.rows.length = defaultVectorSize
  sorted : s.rows.Pairwise (· ≤ ·)
  rows_le : ∀ ts ∈ s.rows, ts ≤ s.lastTs
  rowCount : s.rowCount = s.rows.length

namespace SegmentInv

variable {s s' : Segment} {blocks : List Block} {commitTs : ℕ} {txnId : ℕ}

theorem length_rows_le {b : Block} (h : blockWriters.Reachable b) :
    b.rows.length ≤ defaultVectorSize := by
  obtain ⟨hcap, hle⟩ := capacity_of_reachable h
  rw [← (RowsInv.of_reachable h).rowCount]
  omega

/-- What a segment is made of when rows are added to it. -/
theorem openBlock_spec (h : SegmentInv s) : blockWriters.Reachable (Segment.openBlock s.blocks).2 ∧
    (∀ b ∈ (Segment.openBlock s.blocks).1, b ∈ s.blocks ∧ b.rows.length = defaultVectorSize) ∧
    (Segment.openBlock s.blocks).1.flatMap rows ++ (Segment.openBlock s.blocks).2.rows =
    s.rows := by
  obtain hnil | ⟨front, last, hblocks⟩ := s.blocks.eq_nil_or_concat
  · simp only [Segment.openBlock, Segment.rows, hnil]
    exact ⟨.initial ⟨0, rfl⟩, nofun, rfl⟩
  have hfull := h.full
  have hreach := h.reachable last (by simp [hblocks])
  rw [hblocks, concat_eq_append, dropLast_concat] at hfull
  simp only [Segment.openBlock, Segment.rows, hblocks, concat_eq_append, getLast?_concat]
  split
  next hroom =>
    refine ⟨.initial ⟨0, rfl⟩, ?_, by simp [Block.make]⟩
    intro b hb
    refine ⟨hb, ?_⟩
    rcases mem_append.mp hb with hb | hb
    · exact hfull b hb
    · have hle := length_rows_le hreach
      obtain ⟨hcap, -⟩ := capacity_of_reachable hreach
      rw [(RowsInv.of_reachable hreach).rowCount] at hroom
      rw [mem_singleton.mp hb]
      omega
  next =>
    rw [dropLast_concat]
    exact ⟨hreach, fun b hb => ⟨mem_append_left _ hb, hfull b hb⟩, by simp⟩

theorem append (h : SegmentInv s) {appendRows : ℕ}
    (hs : s.step (.appendData txnId commitTs appendRows) = some s') : SegmentInv s' := by
  obtain ⟨hreach, hfront, hrows⟩ := h.openBlock_spec
  obtain ⟨hguard, hs⟩ := ite_none_left_eq_some.mp hs
  obtain ⟨b, hb, rfl⟩ := map_eq_some_iff.mp hs
  generalize Segment.openBlock s.blocks = target at *
  have hreach' : blockWriters.Reachable b := hreach.step (.appendData txnId commitTs appendRows) hb
  have hb' : ∃ copied, b = target.2.appended txnId commitTs copied := by
    obtain ⟨-, hb⟩ := ite_none_right_eq_some.mp hb
    obtain ⟨_, he, rfl⟩ := map_eq_some_iff.mp hb
    obtain ⟨-, he⟩ := ite_none_left_eq_some.mp he
    cases he
    exact ⟨_, rfl⟩
  obtain ⟨copied, rfl⟩ := hb'
  have hrows' : ∀ s' : Segment, s'.blocks = target.1 ++ [target.2.appended txnId commitTs copied] →
      s'.rows = s.rows ++ replicate copied commitTs := by
    intro s' hs'
    rw [← hrows]
    simp [Segment.rows, hs', Block.appended]
  have hle : ∀ ts ∈ s.rows, ts ≤ commitTs := fun ts hts =>
    (h.rows_le ts hts).trans (by omega)
  constructor
  · intro b hb
    rcases mem_append.mp hb with hb | hb
    · exact h.reachable b (hfront b hb).1
    · rw [mem_singleton.mp hb]
      exact hreach'
  · intro b hb
    rw [dropLast_concat] at hb
    exact (hfront b hb).2
  · rw [hrows' _ rfl]
    refine pairwise_append.mpr ⟨h.sorted, pairwise_replicate.mpr (.inr le_rfl), ?_⟩
    intro ts hts ts' hts'
    rw [eq_of_mem_replicate hts']
    exact hle ts hts
  · rw [hrows' _ rfl]
    intro ts hts
    rcases mem_append.mp hts with hts | hts
    · exact hle ts hts
    · exact (eq_of_mem_replicate hts).le
  · rw [hrows' _ rfl, length_append, length_replicate, ← h.rowCount]
    simp [appended]

/-- Blocks that keep their rows keep the invariant. -/
theorem of_rows (h : SegmentInv s) {f : Option ℕ} {lastTs : ℕ} {isSealed : Bool}
    (hreach : ∀ b ∈ blocks, blockWriters.Reachable b) (hmap : blocks.map rows = s.blocks.map rows)
    (hlast : s.lastTs ≤ lastTs) : SegmentInv ⟨blocks, isSealed, s.rowCount, f, lastTs⟩ := by
  have hrows : Segment.rows ⟨blocks, isSealed, s.rowCount, f, lastTs⟩ = s.rows := by
    rw [Segment.rows, Segment.rows, flatMap_def, flatMap_def, hmap]
  refine ⟨hreach, ?_, ?_, ?_, ?_⟩
  · intro b hb
    have hmem : b.rows ∈ s.blocks.dropLast.map rows := by
      rw [map_dropLast, ← hmap, ← map_dropLast]
      exact mem_map_of_mem hb
    obtain ⟨b', hb', heq⟩ := mem_map.mp hmem
    rw [← heq]
    exact h.full b' hb'
  · rw [hrows]
    exact h.sorted
  · rw [hrows]
    exact fun ts hts => (h.rows_le ts hts).trans hlast
  · rw [hrows]
    exact h.rowCount

/-- A committed block keeps its rows. -/
theorem commitBlocks_spec {blocks' : List Block}
    (hreach : ∀ b ∈ blocks, blockWriters.Reachable b)
    (hc : Segment.commitBlocks txnId commitTs blocks = some blocks') :
    (∀ b ∈ blocks', blockWriters.Reachable b) ∧ blocks'.map rows = blocks.map rows := by
  induction blocks generalizing blocks' with
  | nil =>
    cases hc
    exact ⟨nofun, rfl⟩
  | cons b blocks ih =>
    simp only [Segment.commitBlocks, mapM_cons, Option.bind_eq_bind,
      Option.bind_eq_some_iff, Option.pure_def, Option.some.injEq] at hc
    obtain ⟨b', hb, rest, hrest, rfl⟩ := hc
    obtain ⟨ihreach, ihrows⟩ := ih (fun c hc => hreach c (mem_cons_of_mem _ hc)) hrest
    have hb' : blockWriters.Reachable b' ∧ b'.rows = b.rows := by
      have hold := hreach b mem_cons_self
      split at hb
      · refine ⟨hold.step (.commitBlock txnId commitTs) hb, ?_⟩
        obtain ⟨-, hb⟩ := Option.ite_none_right_eq_some.mp hb
        obtain ⟨_, -, rfl⟩ := Option.map_eq_some_iff.mp hb
        rfl
      · cases hb
        exact ⟨hold, rfl⟩
    exact ⟨forall_mem_cons.mpr ⟨hb'.1, ihreach⟩, by rw [map_cons, map_cons, hb'.2, ihrows]⟩

theorem step (h : SegmentInv s) {a : SegmentAction} (hs : s.step a = some s') : SegmentInv s' := by
  cases a with
  | appendData txnId commitTs appendRows => exact h.append hs
  | deleteData txnId commitTs blockId rows =>
    obtain ⟨hguard, hs⟩ := ite_none_left_eq_some.mp hs
    obtain ⟨b', hb', rfl⟩ := map_eq_some_iff.mp hs
    obtain ⟨b, hb, hstep⟩ := bind_eq_some_iff.mp hb'
    have hrows : b'.rows = b.rows := by
      obtain ⟨-, hstep⟩ := ite_none_right_eq_some.mp hstep
      obtain ⟨_, -, rfl⟩ := map_eq_some_iff.mp hstep
      rfl
    have hold := h.reachable b (mem_of_getElem? hb)
    refine h.of_rows ?_ ?_ (le_of_not_gt hguard)
    · intro c hc
      rcases mem_or_eq_of_mem_set hc with hc | rfl
      · exact h.reachable c hc
      · exact hold.step (.deleteData txnId commitTs rows) hstep
    · obtain ⟨hlt, rfl⟩ := List.getElem?_eq_some_iff.mp hb
      rw [map_set, hrows, ← getElem_map Block.rows (h := by simpa using hlt), set_getElem_self]
  | commitSegment txnId commitTs hasDeletes =>
    obtain ⟨blocks, hblocks, rfl⟩ := map_eq_some_iff.mp hs
    obtain ⟨hreach, hrows⟩ := commitBlocks_spec h.reachable hblocks
    exact h.of_rows hreach hrows le_rfl
  | setSealed =>
    cases hs
    exact h.of_rows h.reachable rfl le_rfl

/-- **In every state the blocks are full up to the last and the rows in order.** -/
theorem of_reachable (h : segmentWriters.Reachable s) : SegmentInv s := by
  apply h.invariant
  · rintro _ rfl
    exact ⟨nofun, nofun, .nil, nofun, rfl⟩
  · intro s a s' hinv hs
    exact hinv.step hs

end SegmentInv

/-! ## When the filters are right -/

namespace Segment

/-- The row was committed at a time stamp and not deleted. -/
def Visible (s : Segment) (ts o : ℕ) : Prop :=
  ∃ b, s.blocks[o / defaultVectorSize]? = some b ∧ b.Visible ts (o % defaultVectorSize)

/-- The last commit of the row's block was not later. -/
def BlockCommitted (s : Segment) (ts o : ℕ) : Prop :=
  ∃ b, s.blocks[o / defaultVectorSize]? = some b ∧ committedBy b ts = true

/-- No delete up to a time stamp marks the row. -/
def Undeleted (s : Segment) (ts o : ℕ) : Prop :=
  ∃ b, s.blocks[o / defaultVectorSize]? = some b ∧
    b.version.hides ts (o % defaultVectorSize) = false

/-- `DeleteFilter` of a row count is right about a row: a visible one is not behind the count and in
a block that has been committed, and an invisible one behind the count, in a block that has not been
committed, or deleted. -/
def DeleteExact (s : Segment) (rowCount ts o : ℕ) : Prop :=
  (s.Visible ts o → o ≤ rowCount ∧ s.BlockCommitted ts o) ∧
    (¬ s.Visible ts o →
      rowCount = 0 ∨ rowCount < o ∨ ¬ s.BlockCommitted ts o ∨ ¬ s.Undeleted ts o)

end Segment

/-- When the filter of a scan is right about a row. A bitmask that is used has to reach to the row;
it goes with deletions for the first row of the segment only, and without deletions hides no row
that is not visible. `AppendFilter` is right about visible rows up to the count and invisible ones
behind it, no filter only about visible rows. -/
def Scan.Exact (planned made s : Segment) (ts o : ℕ) : Scan → Prop
  | .index => s.DeleteExact (made.rowCountAt ts) ts o
  | .knn bitmask withLock =>
    if isAllTrue bitmask then
      if made.checkAnyDelete ts then s.DeleteExact (planned.rowCountAt ts) ts o
      else s.Visible ts o ∧ (withLock = true → o ≤ planned.rowCountAt ts) ∨
        ¬ s.Visible ts o ∧ withLock = true ∧ planned.rowCountAt ts < o
    else o < bitmask.length ∧ (bitmask.getD o true = true →
      if made.checkAnyDelete ts then s.Visible ts o → o = 0 ∧ s.BlockCommitted ts o
      else s.Visible ts o)

section Filters

variable {planned made s : Segment} {ts o : ℕ}

section

variable (h : SegmentInv s)
include h

theorem getElem?_rows : s.rows[o]? =
    s.blocks[o / defaultVectorSize]?.bind fun b => b.rows[o % defaultVectorSize]? :=
  getElem?_flatMap_of_full (by decide) h.full (fun b hb =>
    SegmentInv.length_rows_le (h.reachable b hb)) o

theorem exists_block (ho : o < s.rowCount) : ∃ b c,
    s.blocks[o / defaultVectorSize]? = some b ∧ b.rows[o % defaultVectorSize]? = some c := by
  rw [h.rowCount] at ho
  have hrow := getElem?_eq_getElem ho
  rw [getElem?_rows h, bind_eq_some_iff] at hrow
  obtain ⟨b, hb, hc⟩ := hrow
  exact ⟨b, _, hb, hc⟩

/-- `CheckRowVisible` without and with the check of the append. -/
theorem checkRowVisible_iff (ho : o < s.rowCount) (checkAppend : Bool) :
      s.checkRowVisible o ts checkAppend ↔
      s.BlockCommitted ts o ∧ if checkAppend then s.Visible ts o else s.Undeleted ts o := by
  obtain ⟨b, c, hb, hc⟩ := exists_block h ho
  have hreach := h.reachable b (mem_of_getElem? hb)
  obtain ⟨hrows, hstamps⟩ := StampsInv.of_reachable hreach
  simp only [Segment.checkRowVisible, Segment.BlockCommitted, Segment.Visible,
    Segment.Undeleted, hb, some.injEq, exists_eq_left', Bool.and_eq_true]
  cases checkAppend with
  | true => rw [checkRowVisible_eq, shows_iff hrows hstamps hc, if_pos rfl, visible_iff hc]
  | false =>
    simp [BlockEntry.checkRowVisible, BlockVersion.hides, or_iff_not_imp_left]

end

theorem Segment.Visible.undeleted (hv : s.Visible ts o) : s.Undeleted ts o := by
  obtain ⟨b, hb, -, hdeleted⟩ := hv
  refine ⟨b, hb, ?_⟩
  unfold BlockVersion.hides
  simpa [or_iff_not_imp_left] using hdeleted

theorem deleteFilter_iff (h : SegmentInv s) (ho : o < s.rowCount) (rowCount : ℕ) :
    (deleteFilter s ts rowCount o ↔ s.Visible ts o) ↔ s.DeleteExact rowCount ts o := by
  unfold deleteFilter Segment.DeleteExact
  rw [Bool.and_eq_true, decide_eq_true_iff, checkRowVisible_iff h ho]
  by_cases hv : s.Visible ts o
  · have hundeleted := hv.undeleted
    by_cases hzero : rowCount = 0 <;> simp [hv, hzero, hundeleted]
  · by_cases hzero : rowCount = 0
    · simp [hv, hzero]
    · simp only [hv, hzero, beq_iff_eq, if_false, iff_false, false_imp_iff, not_false_eq_true,
        true_imp_iff, true_and, false_or, ← not_le]
      tauto

/-- A bitmask that is used, before the bits end. -/
theorem deleteWithBitmaskFilter_iff (h : SegmentInv s) (ho : o < s.rowCount) {bit : Bool} :
    ((bit && deleteFilter s ts 0 o) = true ↔ s.Visible ts o ∧ bit = true) ↔
      (bit = true → s.Visible ts o → o = 0 ∧ s.BlockCommitted ts o) := by
  unfold deleteFilter
  rw [Bool.and_eq_true, Bool.and_eq_true, decide_eq_true_iff, checkRowVisible_iff h ho]
  cases bit
  · simp
  · simp
    tauto

/-- **The filter of a scan accepts a row exactly if it is visible and in the bitmask**, if and only
if it is right about the row. -/
theorem Scan.accepts_iff (h : segmentWriters.Reachable s) (ho : o < s.rowCount)
    (planned made : Segment) (scan : Scan) :
    (∃ answer, scan.accepts planned made s ts o = some answer ∧
      (answer = true ↔ s.Visible ts o ∧ scan.wants o = true)) ↔ scan.Exact planned made s ts o := by
  have hinv := SegmentInv.of_reachable h
  rcases scan with ⟨bitmask, withLock⟩ | _
  · cases hall : isAllTrue bitmask with
    | true =>
      have hwants : bitmask.getD o true = true := by
        rw [getD_eq_getElem?_getD]
        cases hbit : bitmask[o]? with
        | none => rfl
        | some bit => exact all_eq_true.mp hall bit (mem_of_getElem? hbit)
      simp only [accepts, wants, Exact, hall, if_true, some.injEq, exists_eq_left', hwants,
        and_true]
      split
      · exact deleteFilter_iff hinv ho _
      · by_cases hv : s.Visible ts o <;> cases withLock <;> simp [hv, appendFilter]
    | false =>
      simp only [accepts, wants, Exact, hall, Bool.false_eq_true, if_false, bitmaskFilter,
        deleteWithBitmaskFilter, getD_eq_getElem?_getD]
      by_cases hlen : o < bitmask.length
      · simp only [getElem?_eq_getElem hlen, Option.map_some, Option.getD_some, hlen, true_and]
        split
        · simpa using deleteWithBitmaskFilter_iff hinv ho
        · simp
      · rw [getElem?_eq_none (le_of_not_gt hlen)]
        split <;> simp [hlen]
  · simp only [accepts, wants, Exact, some.injEq, exists_eq_left', and_true]
    exact deleteFilter_iff hinv ho _

end Filters

/-- Three rows at time stamp 5, the second of them deleted at time stamp 6. -/
def earlyRows : List SegmentAction :=
  [.appendData 1 5 3, .commitSegment 1 5 false, .deleteData 2 6 0 [1], .commitSegment 2 6 true]

/-- Two more rows at time stamp 10. -/
def lateRows : List SegmentAction := [.appendData 3 10 2, .commitSegment 3 10 false]

/-- A reader of time stamp 7, whose query is planned before the late rows and whose filters are made
and called after them, gets the fourth row, which is later than it, from an index scan and a KNN
scan; with a bitmask that is true but for the second row it does not get the third one, which it
should see. -/
theorem not_accepts_lateRows : ∃ planned s,
    segmentWriters.run ⟨[], false, 0, none, 0⟩ earlyRows = some planned ∧
    segmentWriters.run planned lateRows = some s ∧ segmentWriters.Reachable s ∧ s.rowCount = 5 ∧
    Scan.index.accepts planned s s 7 3 = some true ∧
    (Scan.knn (replicate 64 true) true).accepts planned s s 7 3 = some true ∧ ¬ s.Visible 7 3 ∧
    (Scan.knn ((replicate 64 true).set 1 false) true).accepts planned s s 7 2 = some false ∧
    s.Visible 7 2 := by
  refine ⟨_, _, rfl, rfl, .of_run lateRows (.of_run earlyRows (.initial rfl) rfl) rfl, by decide,
    by decide, by decide, ?_, by decide, ⟨_, rfl, ⟨5, rfl, by decide⟩, .inl rfl⟩⟩
  rintro ⟨b, ⟨⟩, ⟨c, ⟨⟩, hle⟩, -⟩
  exact absurd hle (by decide)

/-- The filters of an index scan and of a KNN scan are right about the first of three rows. -/
theorem accepts_firstRow : ∃ planned s,
    segmentWriters.run ⟨[], false, 0, none, 0⟩ earlyRows = some planned ∧
    segmentWriters.run planned lateRows = some s ∧ segmentWriters.Reachable s ∧ 0 < s.rowCount ∧
    (∃ answer, Scan.index.accepts planned s s 7 0 = some answer ∧
      (answer = true ↔ s.Visible 7 0 ∧ Scan.index.wants 0 = true)) ∧
    ∃ answer, (Scan.knn ((replicate 64 true).set 1 false) true).accepts planned s s 7 0 =
      some answer ∧ (answer = true ↔ s.Visible 7 0 ∧
        (Scan.knn ((replicate 64 true).set 1 false) true).wants 0 = true) := by
  have hplanned : segmentWriters.Reachable _ := .of_run earlyRows (.initial rfl) rfl
  have hreach : segmentWriters.Reachable _ := .of_run lateRows hplanned rfl
  refine ⟨_, _, rfl, rfl,
    hreach, by decide, (Scan.accepts_iff hreach (by decide) _ _ .index).mpr ⟨?_, ?_⟩,
    (Scan.accepts_iff hreach (by decide) _ _ (.knn _ true)).mpr ⟨by decide, fun _ _ => ?_⟩⟩
  · exact fun _ => ⟨Nat.zero_le _, _, rfl, by decide⟩
  · exact fun hnot => absurd ⟨_, rfl, ⟨5, rfl, by decide⟩, .inl rfl⟩ hnot
  · exact ⟨rfl, _, rfl, by decide⟩

end Infinity.Storage
