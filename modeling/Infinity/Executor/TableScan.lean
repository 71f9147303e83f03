import Infinity.Storage.Visibility

/-! # Table scans (`PhysicalTableScan`, `PhysicalScanBase::PlanBlockEntries`)

The blocks of the block index are dealt out to the tasks. A call of `ExecuteInternal` goes on from
the cursor of its task, a block and an offset in it, and copies visible ranges until the output
block is full. Each visible row is read once. Its cells are its own, but for the time stamps that
`GetCreateTS` gives.

* `scanExact_iff`: when all cells of a scan are those of their rows.
* `not_scanExact_twoAppends`: the first row of an append is said to be of the append before.
-/

namespace Infinity.Executor

open Storage List BlockVersion BlockEntry

/-- A block of the block index. -/
structure ScanBlock (V : Type*) where
  segmentId : ℕ
  blockId : ℕ
  entry : BlockEntry
  version : BlockVersion
  /-- The value of a column in a row. -/
  cells : ℕ → ℕ → V
  /-- What the rough filter says of the block at `begin_ts`, true if there is none. -/
  passes : Bool
  /-- Every append has brought rows. -/
  growing : Growing version.created

/-- The columns that a scan can make up. -/
inductive ColumnId where
  | rowId
  | create
  | delete
  | column (id : ℕ)

/-- What a cell of the result holds. -/
inductive Cell (V : Type*) where
  | rowId (segmentId segmentOffset : ℕ)
  | timestamp (ts : ℕ)
  | value (v : V)

/-- The columns of an output block. -/
abbrev Columns (V : Type*) := ColumnId → List (Cell V)

variable {V : Type*} {b : ScanBlock V} {blocks : List (ScanBlock V)} {t readOffset : ℕ} {β : Type*}

namespace ScanBlock

/-- What a row has in a column. -/
def cell (b : ScanBlock V) : ColumnId → ℕ → Cell V
  | .rowId, o => .rowId b.segmentId (b.blockId * defaultVectorSize + o)
  | .create, o => .timestamp (b.version.createTSOf o)
  | .delete, o => .timestamp (b.version.deletedTs o)
  | .column id, o => .value (b.cells id o)

/-- What a call appends to the columns of the output. -/
def slice (b : ScanBlock V) (readOffset writeSize : ℕ) : Columns V
  | .create => (b.version.getCreateTS readOffset writeSize).map .timestamp
  | id => (List.range' readOffset writeSize).map (b.cell id)

/-- What a row is given in a column. -/
def scanned (b : ScanBlock V) : ColumnId → ℕ → Cell V
  | .create, o => .timestamp (firstTS b.version.created (o ≤ ·.rowCount))
  | id, o => b.cell id o

theorem slice_eq (readOffset writeSize : ℕ) (id : ColumnId) :
    b.slice readOffset writeSize id = (range' readOffset writeSize).map (b.scanned id) := by
  cases id with
  | create => rw [slice, getCreateTS_eq b.growing, map_map]; rfl
  | _ => rfl

def visible (b : ScanBlock V) (t o : ℕ) : Bool := b.version.shows (min t b.entry.maxRowTs) o

/-- The visible rows from an offset on. -/
def visibleFrom (b : ScanBlock V) (t readOffset : ℕ) : List ℕ :=
  (List.range' readOffset (b.version.getRowCount (min t b.entry.maxRowTs) - readOffset)).filter
    (b.visible t)

theorem visibleFrom_of_exhausted
    (h : (b.entry.getVisibleRange b.version t readOffset).1 =
    (b.entry.getVisibleRange b.version t readOffset).2) : b.visibleFrom t readOffset = [] := by
  have hspec := b.version.visibleRange_spec (min t b.entry.maxRowTs) readOffset
  refine filter_eq_nil_iff.mpr fun o ho => ?_
  rw [visible, exhausted_shows hspec h (mem_range'_1.mp ho).1]
  exact Bool.false_ne_true

/-- The rows up to the begin of the range are hidden, those in the range are visible. -/
theorem visibleFrom_of_range {range : ℕ × ℕ} {n : ℕ}
    (hrange : b.entry.getVisibleRange b.version t readOffset = range) (hne : range.1 ≠ range.2)
    (hn : n ≤ range.2 - range.1) :
    b.visibleFrom t readOffset = range' range.1 n ++ b.visibleFrom t (range.1 + n) := by
  have hspec : b.version.VisibleRange (min t b.entry.maxRowTs) readOffset range :=
    hrange ▸ b.version.visibleRange_spec _ _
  have hle := hspec.offset_le
  have hlt := lt_of_le_of_ne hspec.begin_le hne
  have hend := hspec.end_le hlt
  unfold visibleFrom
  generalize b.version.getRowCount (min t b.entry.maxRowTs) = count at *
  have hsplit : range' readOffset (count - readOffset) = range' readOffset (range.1 - readOffset) ++
      (range' range.1 n ++ range' (range.1 + n) (count - (range.1 + n))) := by
    rw [range'_append_1]
    nth_rewrite 2 [← Nat.add_sub_cancel' hle]
    rw [range'_append_1]
    congr 1
    omega
  have hhidden : (range' readOffset (range.1 - readOffset)).filter (b.visible t) = [] := by
    refine filter_eq_nil_iff.mpr fun o ho => ?_
    have ho := mem_range'_1.mp ho
    rw [visible, shows_eq_false_of_hides (hspec.skipped o ho.1 (by omega))]
    exact Bool.false_ne_true
  have hseen : (range' range.1 n).filter (b.visible t) = range' range.1 n := by
    refine filter_eq_self.mpr fun o ho => ?_
    have ho := mem_range'_1.mp ho
    exact shows_of_mem_range hspec ho.1 (by omega)
  rw [hsplit, filter_append, filter_append, hhidden, hseen, nil_append]

end ScanBlock

/-- The loop of `ExecuteInternal`: the blocks from `current_block_ids_idx_` on, the read offset in
the first of them and the capacity that is left. The result has the blocks and the offset for the
next call and the columns that are written. -/
def scanLoop (t : ℕ) (blocks : List (ScanBlock V)) (readOffset writeCapacity : ℕ) :
    (List (ScanBlock V) × ℕ) × Columns V :=
  match blocks with
  | [] => (([], readOffset), fun _ => [])
  | b :: rest =>
    if readOffset = 0 ∧ b.passes = false then scanLoop t rest readOffset writeCapacity
    else
      let range := b.entry.getVisibleRange b.version t readOffset
      if range.1 = range.2 then scanLoop t rest 0 writeCapacity
      else if writeCapacity = 0 then ((b :: rest, readOffset), fun _ => [])
      else
        let writeSize := min writeCapacity (range.2 - range.1)
        let next := scanLoop t (b :: rest) (range.1 + writeSize) (writeCapacity - writeSize)
        (next.1, fun id => b.slice range.1 writeSize id ++ next.2 id)
  termination_by (blocks.length, writeCapacity)
  decreasing_by
    · exact .left _ _ (Nat.lt_succ_self _)
    · exact .left _ _ (Nat.lt_succ_self _)
    · have hle : range.1 ≤ range.2 := (b.version.visibleRange_spec _ readOffset).begin_le
      exact .right _ (by change writeCapacity - min writeCapacity (range.2 - range.1) < _; omega)

/-- The rows that are still to be read. The rough filter is asked at the first row of a block. -/
def unread (t : ℕ) : List (ScanBlock V) → ℕ → List (ScanBlock V × ℕ)
  | [], _ => []
  | b :: rest, readOffset =>
    (if readOffset = 0 ∧ b.passes = false then [] else (b.visibleFrom t readOffset).map (b, ·)) ++
      unread t rest 0

/-- The columns of some rows. -/
def columnsOf (cell : ScanBlock V → ColumnId → ℕ → Cell V) (rows : List (ScanBlock V × ℕ)) :
    Columns V := fun id =>
  rows.map fun row => cell row.1 id row.2

theorem mem_unread {row : ScanBlock V × ℕ} : row ∈ unread t blocks 0 ↔
    row.1 ∈ blocks ∧ row.1.passes ∧ row.1.visible t row.2 := by
  induction blocks with
  | nil => simp [unread]
  | cons b blocks ih =>
    have hlt : b.visible t row.2 → row.2 < _ := lt_of_shows
    rw [unread, mem_append, ih, ScanBlock.visibleFrom]
    grind

/-- **What a call writes and what it leaves** are the rows that were to be read, and it leaves
something only when the output block is full. -/
theorem scanLoop_spec (readOffset writeCapacity : ℕ) :
    ∃ rows rest offset, scanLoop t blocks readOffset writeCapacity =
      ((rest, offset), columnsOf ScanBlock.scanned rows) ∧
      unread t blocks readOffset = rows ++ unread t rest offset ∧
      rows.length ≤ writeCapacity ∧ (rest ≠ [] → rows.length = writeCapacity) := by
  fun_induction scanLoop t blocks readOffset writeCapacity with
  | case1 readOffset writeCapacity =>
    exact ⟨[], [], readOffset, rfl, rfl, Nat.zero_le _, fun h => absurd rfl h⟩
  | case2 readOffset writeCapacity b rest hskip ih =>
    obtain ⟨rows, left, offset, hloop, hunread, hlen⟩ := ih
    refine ⟨rows, left, offset, hloop, ?_, hlen⟩
    rw [← hunread, unread, if_pos hskip, nil_append, hskip.1]
  | case3 readOffset writeCapacity b rest hskip range hend ih =>
    obtain ⟨rows, left, offset, hloop, hunread, hlen⟩ := ih
    refine ⟨rows, left, offset, hloop, ?_, hlen⟩
    rw [← hunread, unread, if_neg hskip, ScanBlock.visibleFrom_of_exhausted hend, map_nil,
      nil_append]
  | case4 readOffset b rest hskip range hne =>
    exact ⟨[], b :: rest, readOffset, rfl, rfl, le_refl 0, fun _ => rfl⟩
  | case5 readOffset writeCapacity b rest hskip range hne hcapacity writeSize next ih =>
    obtain ⟨rows, left, offset, hloop, hunread, hlen, hfull⟩ := ih
    have hsplit := ScanBlock.visibleFrom_of_range rfl hne (Nat.min_le_right writeCapacity _)
    have hlength :
      ((range' range.1 writeSize).map (b, ·) ++ rows).length = writeSize + rows.length := by simp
    refine ⟨_ ++ rows, left, offset, ?_, ?_, hlength.le.trans ?_, fun hleft => ?_⟩
    · rw [show next = _ from hloop]
      refine congrArg _ (funext fun id => ?_)
      rw [columnsOf, map_append, map_map, ScanBlock.slice_eq]
      rfl
    · have hnext : ¬ (range.1 + writeSize = 0 ∧ b.passes = false) := by omega
      rw [append_assoc, ← hunread, unread, unread, if_neg hskip, hsplit, map_append, append_assoc,
        if_neg hnext]
    · omega
    · rw [hlength, hfull hleft]
      omega

/-- The calls of `ExecuteInternal` for a task until it reports completion, `none` if it takes
more. -/
def calls (t capacity : ℕ) : ℕ → List (ScanBlock V) × ℕ → Option (List (Columns V))
  | 0, _ => none
  | fuel + 1, (blocks, readOffset) =>
    let result := scanLoop t blocks readOffset capacity
    if result.1.1.isEmpty then some [result.2] else (calls t capacity fuel result.1).map
      (result.2 :: ·)

/-- **The calls read all rows**, and come to an end. -/
theorem calls_spec {capacity fuel : ℕ} (hcapacity : 0 < capacity) (blocks : List (ScanBlock V))
    (readOffset : ℕ) (hfuel : (unread t blocks readOffset).length < fuel) :
      ∃ chunks : List (List (ScanBlock V × ℕ)),
      calls t capacity fuel (blocks, readOffset) = some (chunks.map (columnsOf ScanBlock.scanned)) ∧
      chunks.flatten = unread t blocks readOffset ∧ ∀ rows ∈ chunks, rows.length ≤ capacity := by
  induction fuel generalizing blocks readOffset with
  | zero => cases hfuel
  | succ fuel ih =>
    obtain ⟨rows, rest, offset, hloop, hunread, hlen, hfull⟩ := scanLoop_spec readOffset capacity
    unfold calls
    rw [hloop]
    cases rest with
    | nil =>
      refine ⟨[rows], rfl, ?_, by simpa using hlen⟩
      rw [hunread, flatten_singleton]
      exact (append_nil rows).symm
    | cons b rest =>
      have hcount := hfull nofun
      rw [hunread, length_append] at hfuel
      obtain ⟨chunks, hcalls, hflat, hle⟩ := ih (b :: rest) offset (by omega)
      refine ⟨rows :: chunks, ?_, ?_, forall_mem_cons.mpr ⟨hlen, hle⟩⟩
      · change (calls t capacity fuel _).map _ = _
        rw [hcalls]
        rfl
      · rw [flatten_cons, hflat, hunread]

/-! ## The tasks -/

/-- The loop over the tasks of `PlanBlockEntries`, with the residual that is left. -/
def dealBlocks {β : Type*} (blockPerTask : ℕ) : ℕ → ℕ → List β → List (List β)
  | _, 0, _ => []
  | residual, tasks + 1, globalBlocks =>
    let count := blockPerTask + if 0 < residual then 1 else 0
    globalBlocks.take count :: dealBlocks blockPerTask (residual - 1) tasks
      (globalBlocks.drop count)

/-- `PhysicalScanBase::PlanBlockEntries`. -/
def planBlockEntries {β : Type*} (parallelCount : ℕ) (globalBlocks : List β) : List (List β) :=
  dealBlocks (globalBlocks.length / parallelCount) (globalBlocks.length % parallelCount)
    parallelCount globalBlocks

theorem flatten_dealBlocks (blockPerTask residual tasks : ℕ) (globalBlocks : List β) :
    (dealBlocks blockPerTask residual tasks globalBlocks).flatten =
      globalBlocks.take (blockPerTask * tasks + min residual tasks) := by
  induction tasks generalizing residual globalBlocks with
  | zero => simp [dealBlocks]
  | succ tasks ih =>
    rw [dealBlocks, flatten_cons, ih, ← take_add, Nat.mul_succ]
    congr 1
    split <;> omega

/-- **Every block is given to one task.** -/
theorem flatten_planBlockEntries (parallelCount : ℕ+) (globalBlocks : List β) :
    (planBlockEntries parallelCount globalBlocks).flatten = globalBlocks := by
  have hmod := Nat.mod_lt globalBlocks.length parallelCount.pos
  rw [planBlockEntries, flatten_dealBlocks, Nat.min_eq_left hmod.le, Nat.mul_comm, Nat.div_add_mod,
    take_length]

/-- The tasks share the blocks, and the calls of a task put out the visible rows of its blocks that
are not skipped, with their own cells, in blocks that are not overfilled. -/
def ScanExact (t : ℕ) (blocks : List (ScanBlock V)) (columnIds : List ColumnId)
    (parallelCount capacity : ℕ+) : Prop :=
  (planBlockEntries parallelCount blocks).flatten = blocks ∧
    ∀ task ∈ planBlockEntries parallelCount blocks,
    ∃ outs, calls t capacity ((unread t task 0).length + 1) (task, 0) = some outs ∧
      ∃ chunks : List (List (ScanBlock V × ℕ)), chunks.flatten = unread t task 0 ∧
        (∀ rows ∈ chunks, rows.length ≤ capacity) ∧
        ∀ id ∈ columnIds, outs.map (· id) = chunks.map (columnsOf ScanBlock.cell · id)

variable {columnIds : List ColumnId} {parallelCount capacity : ℕ+}

theorem scanned_eq_of_scanExact (h : ScanExact t blocks columnIds parallelCount capacity)
    {id : ColumnId} (hid : id ∈ columnIds) {o : ℕ} (hb : b ∈ blocks) (hpasses : b.passes)
    (ho : b.visible t o) : b.scanned id o = b.cell id o := by
  obtain ⟨task, htask, hb⟩ := mem_flatten.mp (h.1.symm ▸ hb)
  obtain ⟨outs, houts, chunks, hflat, -, hcells⟩ := h.2 task htask
  obtain ⟨chunks', hcalls, hflat', -⟩ := calls_spec capacity.pos task 0 (Nat.lt_succ_self _)
  obtain rfl := Option.some.inj (houts.symm.trans hcalls)
  have hrows : columnsOf ScanBlock.scanned (unread t task 0) id =
      columnsOf ScanBlock.cell (unread t task 0) id := by
    have hflatten := congrArg flatten (hcells id hid)
    rw [map_map] at hflatten
    rw [columnsOf, columnsOf, ← hflat', map_flatten, hflat', ← hflat, map_flatten]
    exact hflatten
  exact map_inj_left.mp hrows (b, o) (mem_unread.mpr ⟨hb, hpasses, ho⟩)

/-- **When a scan is exact**: if the create time stamps are not asked for, or no visible row is the
first of an append that has another time stamp than the one before. -/
theorem scanExact_iff (t : ℕ) (blocks : List (ScanBlock V)) (columnIds : List ColumnId)
    (parallelCount capacity : ℕ+) :
    ScanExact t blocks columnIds parallelCount capacity ↔ .create ∈ columnIds →
      ∀ b ∈ blocks, b.passes = true →
      ∀ f ∈ b.version.created, b.visible t f.rowCount = true →
      b.version.createTSOf f.rowCount = f.createTs := by
  constructor
  · intro h hid b hb hpasses f hf hvisible
    have hcell := scanned_eq_of_scanExact h hid hb hpasses hvisible
    exact (firstTS_eq_iff b.growing _).mp (Cell.timestamp.inj hcell) f hf rfl
  · intro h
    have hshared := flatten_planBlockEntries parallelCount blocks
    refine ⟨hshared, fun task htask => ?_⟩
    obtain ⟨chunks, hcalls, hflat, hlen⟩ := calls_spec capacity.pos task 0 (Nat.lt_succ_self _)
    refine ⟨_, hcalls, chunks, hflat, hlen, fun id hid => ?_⟩
    rw [map_map]
    refine map_congr_left fun rows hrows => map_congr_left fun row hrow => ?_
    obtain ⟨hb, hpasses, hvisible⟩ := mem_unread.mp (hflat ▸ mem_flatten_of_mem hrows hrow)
    cases id with
    | create =>
      refine congrArg Cell.timestamp ((firstTS_eq_iff row.1.growing _).mpr fun f hf heq => ?_)
      rw [← heq] at hvisible ⊢
      exact h hid row.1 (hshared ▸ mem_flatten_of_mem htask hb) hpasses f hf hvisible
    | _ => rfl

/-- A block with the rows of two appends. -/
def twoAppendsBlock : ScanBlock Unit where
  segmentId := 0
  blockId := 0
  entry := { newBlockEntry 0 with rowCount := 4, maxRowTs := 7 }
  version := .twoAppends
  cells _ _ := ()
  passes := true
  growing := by decide

/-- The third row is the first of the second append, and is said to be of the first. -/
theorem not_scanExact_twoAppends : ¬ ScanExact 7 [twoAppendsBlock] [.create] 1 1 := by
  intro h
  have hvisible : twoAppendsBlock.visible 7 2 = true := by decide
  have hcell := scanned_eq_of_scanExact h mem_cons_self mem_cons_self rfl hvisible
  exact absurd (Cell.timestamp.inj hcell) (by decide)

end Infinity.Executor
