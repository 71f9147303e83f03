import Infinity.Search.DocIterator

/-! # The filter of a full-text search

A full-text search with a filter keeps a cursor in the result of the filter: for each segment with
matching rows either the sorted list of their offsets or a bitmask. `FilterIteratorBase` moves the
cursor to the segment of a document and then within the segment, and leaves out the rows deleted at
the begin of the transaction. Segments without a matching row have no entry.

A row id is a number: the segment id stands above the 32 bits of the segment offset. The cached
segment entry of the source is the one of the current segment, and the decoded entry is the one of
the current segment in the filter result, so that the cursor consists of the segment and of
`pos_`. -/

namespace Infinity.Search

open Foundations

variable {o s k : ℕ}

/-! ## Row ids -/

/-- `RowID(segment_id, segment_offset)`. -/
def rowID (segmentId segmentOffset : ℕ) : ℕ := 2 ^ 32 * segmentId + segmentOffset

/-- `segment_id_`. -/
def segmentOf (docId : ℕ) : ℕ := docId / 2 ^ 32

/-- `segment_offset_`. -/
def offsetOf (docId : ℕ) : ℕ := docId % 2 ^ 32

theorem segmentOf_rowID (ho : o < 2 ^ 32) : segmentOf (rowID s o) = s := by
  unfold segmentOf rowID
  omega

theorem offsetOf_rowID (ho : o < 2 ^ 32) : offsetOf (rowID s o) = o := by
  unfold offsetOf rowID
  omega

theorem rowID_segmentOf (d : ℕ) : rowID (segmentOf d) (offsetOf d) = d := by
  unfold rowID segmentOf offsetOf
  omega

theorem le_rowID_iff {d : ℕ} (ho : o < 2 ^ 32) :
    d ≤ rowID s o ↔ segmentOf d < s ∨ segmentOf d = s ∧ offsetOf d ≤ o := by
  unfold rowID segmentOf offsetOf
  omega

theorem rowID_zero_le {s' : ℕ} (h : s ≤ s') : rowID s 0 ≤ rowID s' o :=
  Nat.add_le_add (Nat.mul_le_mul_left _ h) (Nat.zero_le o)

theorem rowID_lt_rowID {o' : ℕ} (h : o < o') : rowID k o < rowID k o' := Nat.add_lt_add_left h _

/-! ## Segments -/

/-- `DEFAULT_BLOCK_CAPACITY`. -/
def defaultBlockCapacity : ℕ := 8192

/-- A block entry with its version data. -/
structure BlockVersionView where
  commitTs : ℕ
  /-- `GetRowCount(begin_ts)`. -/
  rowCount : ℕ
  /-- `deleted_`: the timestamp at which a row was deleted, or zero. -/
  deleted : ℕ → ℕ

/-- `SegmentSnapshot`. -/
structure SegmentSnapshot where
  /-- `segment_offset_`: the number of its rows at the begin of the transaction. -/
  segmentOffset : ℕ
  firstDeleteTs : ℕ
  block : ℕ → Option BlockVersionView

namespace SegmentSnapshot

/-- `SegmentEntry::CheckAnyDelete`. -/
def checkAnyDelete (s : SegmentSnapshot) (beginTs : ℕ) : Bool := s.firstDeleteTs < beginTs

/-- `SegmentEntry::CheckRowVisible`. -/
def checkRowVisible (s : SegmentSnapshot) (offset beginTs : ℕ) (checkAppend : Bool) : Bool :=
  match s.block (offset / defaultBlockCapacity) with
  | none => false
  | some block =>
    if beginTs < block.commitTs then false
    else if checkAppend ∧ block.rowCount ≤ offset % defaultBlockCapacity then false
    else
      block.deleted (offset % defaultBlockCapacity) = 0 ∨
        beginTs < block.deleted (offset % defaultBlockCapacity)

/-- `DeleteFilter::operator()`. -/
def deleteFilter (s : SegmentSnapshot) (beginTs offset : ℕ) : Bool :=
  offset ≤ s.segmentOffset ∧ s.checkRowVisible offset beginTs (s.segmentOffset = 0)

/-- The check of a row in `SelfSeekInBlockRange`. -/
def accepts (s : SegmentSnapshot) (beginTs offset : ℕ) : Bool :=
  !s.checkAnyDelete beginTs || s.deleteFilter beginTs offset

def visible (s : SegmentSnapshot) (beginTs offset : ℕ) : Bool := offset < s.segmentOffset &&
    match s.block (offset / defaultBlockCapacity) with
    | none => false
    | some block =>
      block.deleted (offset % defaultBlockCapacity) = 0 ∨
        beginTs < block.deleted (offset % defaultBlockCapacity)

end SegmentSnapshot

/-! ## Filter results -/

/-- The result of a filter for a segment. A bitmask without data is all true. -/
inductive FilterEntry where
  | offsets (list : List ℕ)
  | bitmask (count : ℕ) (data : Option (List (BitVec 64)))

def FilterEntry.has : FilterEntry → ℕ → Bool
  | offsets list, offset => offset ∈ list
  | bitmask _ none, _ => true
  | bitmask _ (some words), offset => (words.getD (offset / 64) 0).getLsbD (offset % 64)

/-- What the entries of a segment with so many rows satisfy: offsets ascend, a bitmask has a bit for
every row and a word for every 64 bits. -/
def FilterEntry.Fits (rows : ℕ) : FilterEntry → Prop
  | offsets list => list.Pairwise (· < ·)
  | bitmask count none => rows ≤ count
  | bitmask count (some words) => rows ≤ count ∧ words.length = (count + 63) / 64

/-- A filter result with the segments of the transaction. The rows of a segment were committed
before the transaction began, `first_delete_ts_` is not after any deletion, and no deletion was
committed at the begin timestamp itself. -/
structure Filter where
  beginTs : ℕ
  segment : ℕ → SegmentSnapshot
  /-- `filter_result_`: the entries by ascending segment. -/
  entries : List (ℕ × FilterEntry)
  ascending : (entries.map Prod.fst).Pairwise (· < ·)
  segment_lt : ∀ e ∈ entries, e.1 < 2 ^ 32 - 1
  rows_lt : ∀ segmentId, (segment segmentId).segmentOffset < 2 ^ 32 - 1
  fits : ∀ e ∈ entries, e.2.Fits (segment e.1).segmentOffset
  committed : ∀ segmentId offset, offset < (segment segmentId).segmentOffset →
    ∃ block, (segment segmentId).block (offset / defaultBlockCapacity) = some block ∧
    block.commitTs ≤ beginTs
  first_delete : ∀ segmentId id block offset, (segment segmentId).block id = some block →
    block.deleted offset ≠ 0 →
    block.deleted offset ≤ beginTs → (segment segmentId).firstDeleteTs < beginTs

namespace Filter

variable (F : Filter) {docId segmentId n : ℕ}

def rows (segmentId : ℕ) : ℕ := (F.segment segmentId).segmentOffset

def entry (segmentId : ℕ) : Option FilterEntry := (F.entries.find? (·.1 = segmentId)).map Prod.snd

def has (docId : ℕ) : Bool :=
  match F.entry (segmentOf docId) with
  | none => false
  | some e => e.has (offsetOf docId)

/-- **The documents that a filtered search is for**: in the filter result and visible. -/
def Wanted (docId : ℕ) : Prop :=
  F.has docId = true ∧ (F.segment (segmentOf docId)).visible F.beginTs (offsetOf docId) = true

/-! ## The cursor -/

/-- Where the iterator stands. -/
structure Cursor where
  segmentId : ℕ
  pos : ℕ
  deriving DecidableEq, Repr

def start : Option Cursor := F.entries.head?.map fun e => ⟨e.1, 0⟩

/-- `SelfBlockLastDocID`. -/
def blockLast (c : Cursor) : ℕ := rowID c.segmentId (F.rows c.segmentId)

/-- `filter_result_ptr_->lower_bound`. -/
def lowerBound (segmentId : ℕ) : Option Cursor := (F.entries.find? (segmentId ≤ ·.1)).map fun e =>
  ⟨e.1, 0⟩

/-- The loop of `SelfBlockSkipTo`. -/
def skipLoop : ℕ → Cursor → ℕ → Option Cursor
  | 0, _, _ => none
  | fuel + 1, c, docId =>
    match if c.segmentId < segmentOf docId then F.lowerBound (segmentOf docId) else some c with
    | none => none
    | some c =>
      if docId ≤ F.blockLast c then some c else skipLoop fuel c (rowID (c.segmentId + 1) 0)

/-- `SelfBlockSkipTo`. Without a cursor the filter result is exhausted. -/
def skipTo (c : Cursor) (docId : ℕ) : Option Cursor := F.skipLoop (F.entries.length + 2) c docId

def firstBit (word : BitVec 64) (i : ℕ) : Option ℕ :=
  (List.range' i (64 - i)).find? (word.getLsbD ·)

/-- The bitmask case of `SeekInBlockRangeInner` with data, after the check of the previous result:
the new `pos_` and the offset found. Words beyond the end of the data are read as zero; their value
can only change `pos_` to a number above every row. -/
def seekWords (count : ℕ) (words : List (BitVec 64)) (pos start stop : ℕ) : ℕ × Option ℕ :=
  let first := if start / 64 ≠ (start + 63) / 64 then firstBit (words.getD (start / 64) 0)
    (start % 64) else none
  match first with
  | some i => if start / 64 * 64 + i ≤ stop then (start / 64 * 64 + i, some (start / 64 * 64 + i))
    else seekRest count words (start / 64 * 64 + i) ((start + 63) / 64) stop
  | none => seekRest count words pos ((start + 63) / 64) stop
where
  seekRest (count : ℕ) (words : List (BitVec 64)) (pos next stop : ℕ) : ℕ × Option ℕ :=
    match (List.range' next ((count + 63) / 64 - next)).find? fun k => words.getD k 0 ≠ 0 with
    | some k =>
      match firstBit (words.getD k 0) 0 with
      | some i => (k * 64 + i, if k * 64 + i ≤ stop then some (k * 64 + i) else none)
      | none => (pos, none)
    | none => (if next ≤ (count + 63) / 64 then 2 ^ 32 - 1 else pos, none)

/-- `SeekInBlockRangeInner`: the cursor after the call and the document found. -/
def seekInner (c : Cursor) (docId stop : ℕ) : Cursor × Option ℕ :=
  match F.entry c.segmentId with
  | none => (c, none)
  | some (.offsets list) =>
    let pos := c.pos + ((list.drop c.pos).takeWhile (· < offsetOf docId)).length
    ({ c with pos := pos }, match list[pos]? with
      | none => none
      | some offset => if offset ≤ offsetOf stop then some (rowID c.segmentId offset) else none)
  | some (.bitmask count data) =>
    if c.pos ≠ 0 ∧ offsetOf stop < c.pos then (c, none)
    else if c.pos ≠ 0 ∧ offsetOf docId ≤ c.pos then (c, some (rowID c.segmentId c.pos))
    else
      match data with
      | none => ({ c with pos := offsetOf docId }, some docId)
      | some words =>
        let (pos, offset) := seekWords count words c.pos (offsetOf docId) (offsetOf stop)
        ({ c with pos := pos }, offset.map (rowID c.segmentId))

/-- The loop of `SelfSeekInBlockRange`. -/
def selfSeekLoop : ℕ → Cursor → ℕ → ℕ → Cursor × Option ℕ
  | 0, c, _, _ => (c, none)
  | fuel + 1, c, docId, stop =>
    if stop < docId then (c, none)
    else
      match F.seekInner c docId stop with
      | (c, none) => (c, none)
      | (c, some id) =>
        if (F.segment c.segmentId).accepts F.beginTs (offsetOf id) then (c, some id)
        else selfSeekLoop fuel c (id + 1) stop

/-- `SelfSeekInBlockRange(doc_id, SelfBlockLastDocID())`. -/
def selfSeek (c : Cursor) (docId : ℕ) : Cursor × Option ℕ :=
  F.selfSeekLoop (F.blockLast c + 1 - docId) c docId (F.blockLast c)

/-! ## The segment of a target -/

variable {F}

variable {c : Cursor}

theorem lowerBound_eq_some (h : F.lowerBound segmentId = some c) :
    c.pos = 0 ∧ c.segmentId ∈ F.entries.map Prod.fst ∧ segmentId ≤ c.segmentId ∧
      ∀ k ∈ F.entries.map Prod.fst, segmentId ≤ k → c.segmentId ≤ k := by
  obtain ⟨e, hfind, rfl⟩ := Option.map_eq_some_iff.mp h
  obtain ⟨hmem, he, hleast⟩ := find?_ascending (List.pairwise_map.mp F.ascending) hfind
  refine ⟨rfl, List.mem_map_of_mem hmem, of_decide_eq_true he,
    List.forall_mem_map.mpr fun e' he' hle => ?_⟩
  exact hleast e' he' (decide_eq_true hle)

theorem lowerBound_eq_none (h : F.lowerBound segmentId = none) :
    ∀ k ∈ F.entries.map Prod.fst, k < segmentId := by
  intro k hk
  obtain ⟨e, he, rfl⟩ := List.mem_map.mp hk
  have := List.find?_eq_none.mp (Option.map_eq_none_iff.mp h) e he
  simp only [decide_eq_true_eq] at this
  exact Nat.not_le.mp this

/-- What moving to a target leads to: the first segment with an entry that does not end before
it. -/
structure SkipsTo (F : Filter) (c : Cursor) (docId : ℕ) (c' : Cursor) : Prop where
  mem : c'.segmentId ∈ F.entries.map Prod.fst
  le : docId ≤ F.blockLast c'
  before : ∀ k ∈ F.entries.map Prod.fst, c.segmentId ≤ k → k < c'.segmentId →
    rowID k (F.rows k) < docId
  moved : c' = c ∨ c.segmentId < c'.segmentId ∧ c'.pos = 0

theorem rows_lt' (s : ℕ) : F.rows s < 2 ^ 32 := Nat.lt_of_lt_of_le (F.rows_lt s) (by omega)

/-- The outcome of moving to a target: all segments from the cursor on end before it, or the cursor
moves. -/
def SkipResult (F : Filter) (c : Cursor) (docId : ℕ) : Option Cursor → Prop
  | none => ∀ k ∈ F.entries.map Prod.fst, c.segmentId ≤ k → rowID k (F.rows k) < docId
  | some c' => SkipsTo F c docId c'

/-- The turn of the loop after the segment of the cursor: it always ends. -/
theorem skipLoop_after (hc : F.blockLast c < docId) (hd : segmentOf docId ≤ c.segmentId) :
    SkipResult F c docId (F.skipLoop (n + 1) c (rowID (c.segmentId + 1) 0)) := by
  have hseg : c.segmentId < segmentOf (rowID (c.segmentId + 1) 0) := by
    rw [segmentOf_rowID (Nat.two_pow_pos 32)]
    exact Nat.lt_succ_self _
  have hsame : ∀ k, c.segmentId ≤ k → k < c.segmentId + 1 → rowID k (F.rows k) < docId :=
      fun k hle hlt => by
    have hk : k = c.segmentId := Nat.le_antisymm (Nat.le_of_lt_succ hlt) hle
    rw [hk]
    exact hc
  rw [skipLoop, if_pos hseg, segmentOf_rowID (Nat.two_pow_pos 32)]
  cases hlower : F.lowerBound (c.segmentId + 1) with
  | none => exact fun k hk hle => hsame k hle (lowerBound_eq_none hlower k hk)
  | some c' =>
    obtain ⟨hpos, hmem, hle, hleast⟩ := lowerBound_eq_some hlower
    dsimp only
    rw [if_pos (show _ ≤ F.blockLast c' from rowID_zero_le hle)]
    refine ⟨hmem, (le_rowID_iff (rows_lt' _)).mpr (Or.inl (by omega)), fun k hk hck hkc =>
      hsame k hck ?_, Or.inr ⟨hle, hpos⟩⟩
    by_contra hge
    exact absurd (hleast k hk (Nat.not_lt.mp hge)) (Nat.not_le.mpr hkc)

/-- A result from a later segment is one from the cursor, if the segments between end before the
target. -/
theorem SkipResult.from {c' : Cursor} {r : Option Cursor} (h : SkipResult F c' docId r)
    (hlt : c.segmentId < c'.segmentId) (hpos : c'.pos = 0)
    (hbefore : ∀ k ∈ F.entries.map Prod.fst, k < c'.segmentId → rowID k (F.rows k) < docId) :
    SkipResult F c docId r := by
  cases r with
  | none =>
    intro k hk _
    rcases Nat.lt_or_ge k c'.segmentId with hlt' | hge
    · exact hbefore k hk hlt'
    · exact h k hk hge
  | some c'' =>
    obtain ⟨hmem, hle, hbetween, hmoved⟩ := h
    refine ⟨hmem, hle, fun k hk _ hkc => ?_, ?_⟩
    · rcases Nat.lt_or_ge k c'.segmentId with hlt' | hge
      · exact hbefore k hk hlt'
      · exact hbetween k hk hge hkc
    · rcases hmoved with rfl | ⟨hlt', hpos'⟩
      · exact Or.inr ⟨hlt, hpos⟩
      · exact Or.inr ⟨Nat.lt_trans hlt hlt', hpos'⟩

/-- A segment that begins after the target's ends before no target of its own. -/
theorem rowID_lt_of_segment_lt (h : k < segmentOf docId) : rowID k (F.rows k) < docId := by
  by_contra hge
  have := (le_rowID_iff (rows_lt' k)).mp (Nat.not_lt.mp hge)
  omega

/-- The comparison with the end of the segment, and the next turn. -/
theorem skipLoop_compare (hc : c.segmentId ∈ F.entries.map Prod.fst)
    (hd : segmentOf docId ≤ c.segmentId) : SkipResult F c docId
      (if docId ≤ F.blockLast c then some c else F.skipLoop (n + 1) c
      (rowID (c.segmentId + 1) 0)) := by
  split
  next hlast => exact ⟨hc, hlast, fun k _ hle hlt => absurd hle (Nat.not_le.mpr hlt), Or.inl rfl⟩
  next hlast => exact skipLoop_after (Nat.not_le.mp hlast) hd

/-- **`SelfBlockSkipTo` moves to the first segment that does not end before the target.** -/
theorem skipTo_spec (hc : c.segmentId ∈ F.entries.map Prod.fst) (docId : ℕ) :
    SkipResult F c docId (F.skipTo c docId) := by
  unfold skipTo
  rw [skipLoop]
  by_cases hseg : c.segmentId < segmentOf docId
  · rw [if_pos hseg]
    cases hlower : F.lowerBound (segmentOf docId) with
    | none => exact fun k hk _ => rowID_lt_of_segment_lt (lowerBound_eq_none hlower k hk)
    | some c' =>
      obtain ⟨hpos, hmem, hle, hleast⟩ := lowerBound_eq_some hlower
      refine (skipLoop_compare hmem hle).from (Nat.lt_of_lt_of_le hseg hle) hpos fun k hk hlt => ?_
      refine rowID_lt_of_segment_lt (Nat.not_le.mp fun hge => ?_)
      exact absurd (hleast k hk hge) (Nat.not_le.mpr hlt)
  · rw [if_neg hseg]
    exact skipLoop_compare hc (Nat.not_lt.mp hseg)

end Filter

end Infinity.Search
