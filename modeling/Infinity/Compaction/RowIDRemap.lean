import Mathlib

/-! # Row ids after a compaction (`PhysicalCompact::Execute`, `RowIDRemap`)

The visible ranges of the old blocks are copied into a new segment. For each copied piece the map of
row ids gets a pair: where the piece begins in its block, and a new row id. `GetNewRowID` takes the
last pair that does not begin behind the row, and adds the distance.

But the new row id is taken after the piece has been appended, and so is the one behind it; the
distance is added with the wrong sign, too. The first row of a piece is never found.

* `execute`: the copy; of a copied row it keeps which one it was.
* `remapExact_iff`: all rows are found where they are exactly if there are none.
-/

namespace Infinity.Compaction

/-- `GlobalBlockID` and `BlockOffset`. -/
abbrev OldRow := (ℕ × ℕ) × ℕ

/-- The segment that is written. -/
structure NewSegment where
  blocks : List (List OldRow)
  newBlock : List OldRow
  rowIdMap : List (OldRow × ℕ × ℕ)

/-- What `GetVisibleRange` returns for the blocks of the old segments: begins and ends, each with
its block. -/
structure VisibleRanges where
  ranges : List ((ℕ × ℕ) × ℕ × ℕ)
  nonempty : ∀ r ∈ ranges, r.2.1 < r.2.2
  ascending : ranges.Pairwise fun r r' => r.1 = r'.1 → r.2.2 ≤ r'.2.1

namespace NewSegment

variable (newSegmentId blockCapacity : ℕ)

/-- `BlockEntry::AppendBlock`, with the next block where one is full. -/
def blockEntryAppend (id : ℕ × ℕ) (rowBegin readSize : ℕ) (s : NewSegment) : Option NewSegment :=
  if readSize = 0 then some s
  else if blockCapacity < readSize + s.newBlock.length then none
  else
    let newBlock := s.newBlock ++ (List.range' rowBegin readSize).map (id, ·)
    let newRowId := (newSegmentId, s.blocks.length * blockCapacity + newBlock.length)
    some ⟨s.blocks, newBlock, s.rowIdMap ++ [((id, rowBegin), newRowId)]⟩

/-- `SegmentEntry::AppendBlockEntry`, and a new block. -/
def appendBlockEntry (s : NewSegment) : NewSegment := ⟨s.blocks ++ [s.newBlock], [], s.rowIdMap⟩

/-- The copy of a range, in two pieces if the new block has no room for it. -/
def copyRange (s : NewSegment) : (ℕ × ℕ) × ℕ × ℕ → Option NewSegment
  | (id, rowBegin, rowEnd) =>
    let readSize := rowEnd - rowBegin
    if blockCapacity < readSize + s.newBlock.length then
      let readSize1 := blockCapacity - s.newBlock.length
      (s.blockEntryAppend newSegmentId blockCapacity id rowBegin readSize1).bind fun s =>
        s.appendBlockEntry.blockEntryAppend newSegmentId blockCapacity id (rowBegin + readSize1)
          (readSize - readSize1)
    else s.blockEntryAppend newSegmentId blockCapacity id rowBegin readSize

/-- `PhysicalCompact::Execute`. -/
def execute (v : VisibleRanges) : Option NewSegment :=
  (v.ranges.foldlM (copyRange newSegmentId blockCapacity) ⟨[], [], []⟩).map fun s =>
    if s.newBlock = [] then s else s.appendBlockEntry

/-- `RowIDRemap::GetNewRowID`. The pairs of a block ascend, so `upper_bound` stands behind the last
one whose begin is not greater. Of a row that was copied the distance is at most the new offset. -/
def getNewRowID (s : NewSegment) (old : OldRow) : Option (ℕ × ℕ) :=
  (s.rowIdMap.reverse.find? fun m => m.1.1 = old.1 ∧ m.1.2 ≤ old.2).map fun m =>
    (m.2.1, m.2.2 + m.1.2 - old.2)

/-- **Every row of the new segment is found where it is.** -/
def RemapExact (s : NewSegment) : Prop :=
  ∀ i j old, s.blocks[i]?.bind (·[j]?) = some old →
    s.getNewRowID old = some (newSegmentId, i * blockCapacity + j)

/-- The last pair of the map leads from a row of the new block to a place behind it. -/
def Misplaced (s : NewSegment) : Prop := ∃ old j k map, j < k ∧ s.newBlock[j]? = some old ∧
  s.rowIdMap = map ++ [(old, newSegmentId, s.blocks.length * blockCapacity + k)]

variable {newSegmentId blockCapacity}

theorem misplaced_of_blockEntryAppend {id : ℕ × ℕ} {rowBegin readSize : ℕ} {s s' : NewSegment}
    (hsize : 0 < readSize)
    (h : s.blockEntryAppend newSegmentId blockCapacity id rowBegin readSize = some s') :
    s'.Misplaced newSegmentId blockCapacity := by
  unfold blockEntryAppend at h
  rw [if_neg (Nat.ne_of_gt hsize)] at h
  split at h
  · cases h
  · cases h
    refine ⟨(id, rowBegin), s.newBlock.length, _, s.rowIdMap, ?_, ?_, rfl⟩
    · simpa using hsize
    · simp [hsize]

theorem misplaced_of_copyRange {r : (ℕ × ℕ) × ℕ × ℕ} {s s' : NewSegment} (hr : r.2.1 < r.2.2)
    (h : s.copyRange newSegmentId blockCapacity r = some s') :
    s'.Misplaced newSegmentId blockCapacity := by
  obtain ⟨id, rowBegin, rowEnd⟩ := r
  dsimp only at hr
  rw [copyRange] at h
  split at h
  next hfull =>
    obtain ⟨t, -, hlast⟩ := Option.bind_eq_some_iff.mp h
    exact misplaced_of_blockEntryAppend (by omega) hlast
  next => exact misplaced_of_blockEntryAppend (by omega) h

/-- **The map is exact exactly if no row is copied.** -/
theorem remapExact_iff (newSegmentId blockCapacity : ℕ) (v : VisibleRanges) :
    (∃ s, execute newSegmentId blockCapacity v = some s ∧ RemapExact newSegmentId blockCapacity s) ↔
    v.ranges = [] := by
  constructor
  · rintro ⟨_, hrun, hexact⟩
    obtain ⟨s, hs, rfl⟩ := Option.map_eq_some_iff.mp hrun
    rcases List.eq_nil_or_concat' v.ranges with hnil | ⟨ranges, r, hv⟩
    · exact hnil
    · rw [hv, List.foldlM_append] at hs
      obtain ⟨t, -, hlast⟩ := Option.bind_eq_some_iff.mp hs
      obtain ⟨s', hcopy, hnone⟩ := Option.bind_eq_some_iff.mp hlast
      cases hnone
      obtain ⟨old, j, k, map, hlt, hrow, hmap⟩ :=
        misplaced_of_copyRange (v.nonempty r (by simp [hv])) hcopy
      have hne : s.newBlock ≠ [] := fun hnil => by simp [hnil] at hrow
      rw [if_neg hne] at hexact
      have hfound := hexact s.blocks.length j old (by simpa [appendBlockEntry] using hrow)
      simp [getNewRowID, appendBlockEntry, hmap] at hfound
      omega
  · intro hnil
    refine ⟨⟨[], [], []⟩, ?_, fun i j old hrow => by simp at hrow⟩
    rw [execute, hnil]
    rfl

def oneRow : VisibleRanges := ⟨[((0, 0), 0, 1)], by decide, by decide⟩

/-- The row is copied to offset 0 and looked for at offset 1. -/
theorem getNewRowID_oneRow :
    (execute 1 8192 oneRow).map (fun s => (s.blocks, s.getNewRowID ((0, 0), 0))) =
    some ([[((0, 0), 0)]], some (1, 1)) := by
  decide

end NewSegment

end Infinity.Compaction
