import Infinity.Storage.BlockVersion

/-! # The visible rows of a block (`GetVisibleRange`, `SetDeleteBitmask`, `CheckRowVisible`)

There are three ways to ask a block which of its rows are visible at a time stamp. A scan calls
`GetVisibleRange` again and again, `SetDeleteBitmask` does the same and clears the bits between the
ranges, and the results of an index are checked row by row with `CheckRowVisible`. The first two go
back to `max_row_ts_` if the time stamp is later, the third does not.

* `BlockVersion.visibleRange_spec`: a range holds the rows that the scan sees, up to the next one
  that it does not see.
* `BlockEntry.visibleRanges_eq`, `BlockEntry.setDeleteBitmask_eq`: the loops terminate, with the
  rows that a single look at the versions would show.
* `pathsAgree_iff`: when the three ways agree.
* `not_pathsAgree_uncommittedAppend`: rows of an append whose `CommitBlock` is still to come.
* `checkRowVisible_of_run`: later writers do not change what a reader gets row by row.
-/

namespace Infinity.Storage

open Foundations List BlockVersion BlockEntry

variable {ts r : ℕ} {b : Block} {t : ℕ} {v : BlockVersion}

/-- The loop `while (offset < end && p(offset)) ++offset`, with the number of rows up to the end. -/
def advance (p : ℕ → Bool) : ℕ → ℕ → ℕ
  | 0, o => o
  | n + 1, o => if p o then advance p n (o + 1) else o

theorem advance_spec (p : ℕ → Bool) (n o : ℕ) :
    o ≤ advance p n o ∧ advance p n o ≤ o + n ∧ (∀ j, o ≤ j → j < advance p n o → p j) ∧
      (advance p n o < o + n → p (advance p n o) = false) := by
  induction n generalizing o with
  | zero =>
    exact ⟨le_rfl, le_rfl, fun j h h' => absurd (h.trans_lt h') (lt_irrefl _), fun h =>
      absurd h (lt_irrefl _)⟩
  | succ n ih =>
    unfold advance
    split
    next hp =>
      obtain ⟨hle, hbound, hall, hstop⟩ := ih (o + 1)
      refine ⟨by omega, by omega, ?_, fun h => hstop (by omega)⟩
      intro j hj hj'
      rcases Nat.eq_or_lt_of_le hj with rfl | hlt
      · exact hp
      · exact hall j hlt hj'
    next hp =>
      exact ⟨le_rfl, by omega, fun j h h' => absurd (h.trans_lt h') (lt_irrefl _),
        fun _ => Bool.eq_false_iff.mpr hp⟩

/-! ## One look at the versions -/

namespace BlockVersion

/-- `deleted_` at an offset. -/
def deletedTs (v : BlockVersion) (o : ℕ) : ℕ := v.deleted[o]?.getD 0

def hides (v : BlockVersion) (ts o : ℕ) : Bool := v.deletedTs o != 0 && v.deletedTs o ≤ ts

/-- `BlockEntry::GetVisibleRange` at the time stamp that is left of the one asked for. -/
def visibleRange (v : BlockVersion) (ts blockOffsetBegin : ℕ) : ℕ × ℕ :=
  let blockOffsetEnd := v.getRowCount ts
  let rowBegin := advance (v.hides ts) (blockOffsetEnd - blockOffsetBegin) blockOffsetBegin
  (rowBegin, advance (fun o => !v.hides ts o) (blockOffsetEnd - rowBegin) rowBegin)

def shows (v : BlockVersion) (ts o : ℕ) : Bool := o < v.getRowCount ts && !v.hides ts o

/-- What `GetVisibleRange` returns from an offset on. -/
structure VisibleRange (v : BlockVersion) (ts offset : ℕ) (range : ℕ × ℕ) : Prop where
  offset_le : offset ≤ range.1
  begin_le : range.1 ≤ range.2
  end_le : range.1 < range.2 → range.2 ≤ v.getRowCount ts
  skipped : ∀ j, offset ≤ j → j < range.1 → v.hides ts j = true
  seen : ∀ j, range.1 ≤ j → j < range.2 → v.hides ts j = false
  exhausted : range.1 = range.2 → ∀ j, offset ≤ j → j < v.getRowCount ts → v.hides ts j = true

/-- **A range holds the rows that are not deleted, and ends before one that is deleted.** -/
theorem visibleRange_spec (ts offset : ℕ) :
    VisibleRange v ts offset (v.visibleRange ts offset) := by
  unfold visibleRange
  dsimp only
  obtain ⟨hle, hbound, hskipped, hstop⟩ :=
    advance_spec (v.hides ts) (v.getRowCount ts - offset) offset
  generalize advance (v.hides ts) (v.getRowCount ts - offset) offset = first at *
  obtain ⟨hle', hbound', hseen, hstop'⟩ :=
    advance_spec (fun o => !v.hides ts o) (v.getRowCount ts - first) first
  generalize advance (fun o => !v.hides ts o) (v.getRowCount ts - first) first = last at *
  constructor
  · exact hle
  · exact hle'
  · intro (hlt : first < last)
    omega
  · exact hskipped
  · intro j hj hj'
    have hj := hseen j hj hj'
    simpa using hj
  · intro (heq : first = last) j hj hj'
    apply hskipped j hj
    -- a range is empty only at the end: its first row would be seen and hidden
    by_contra hnot
    have hhidden := hstop (by omega)
    have hseen' := hstop' (by omega)
    rw [← heq, hhidden] at hseen'
    cases hseen'

/-- What `DeleteData` leaves: its rows, which had no mark, are marked with its time stamp. -/
theorem deletedTs_delete {commitTs : ℕ} {rows : List ℕ} {v v' : BlockVersion}
    (h : v.delete commitTs rows = some v') (o : ℕ) :
    (o ∈ rows → v.deletedTs o = 0) ∧
    v'.deletedTs o = if o ∈ rows then commitTs else v.deletedTs o := by
  induction rows generalizing v with
  | nil =>
    cases h
    exact ⟨nofun, rfl⟩
  | cons row rows ih =>
    unfold delete at h
    split at h
    next hrow =>
      obtain ⟨hzero, hrest⟩ := ih h
      obtain ⟨hlt, hmark⟩ := List.getElem?_eq_some_iff.mp hrow
      rw [hrest]
      unfold deletedTs at hzero ⊢
      by_cases ho : o = row
      · subst ho
        simp [hlt, hmark]
      · simpa [List.getElem?_set_ne (Ne.symm ho), ho] using hzero
    · cases h

end BlockVersion

/-! ## The three paths -/

namespace BlockEntry

variable {o offset : ℕ} {range : ℕ × ℕ}

/-- `BlockEntry::GetVisibleRange`. -/
def getVisibleRange (e : BlockEntry) (v : BlockVersion) (beginTs blockOffsetBegin : ℕ) : ℕ × ℕ :=
  v.visibleRange (min beginTs e.maxRowTs) blockOffsetBegin

/-- `BlockEntry::CheckRowVisible`. -/
def checkRowVisible (v : BlockVersion) (blockOffset checkTs : ℕ) (checkAppend : Bool) : Bool :=
  if checkAppend && v.getRowCount checkTs ≤ blockOffset then false
  else v.deletedTs blockOffset == 0 || checkTs < v.deletedTs blockOffset

/-- The ranges of a scan, `none` if it takes more rounds than given. -/
def visibleRanges (e : BlockEntry) (v : BlockVersion) (t : ℕ) : ℕ → ℕ → Option (List (ℕ × ℕ))
  | 0, _ => none
  | rounds + 1, readOffset =>
    let range := e.getVisibleRange v t readOffset
    if range.1 = range.2 then some [] else (e.visibleRanges v t rounds range.2).map (range :: ·)

/-- `Bitmask::SetFalse` for the offsets from `first` up to `last`. -/
def setFalse (bitmask : ℕ → Bool) (first last : ℕ) : ℕ → Bool := fun o =>
  if first ≤ o ∧ o < last then false else bitmask o

/-- `BlockEntry::SetDeleteBitmask` from an offset on, `none` if it takes more rounds than given. -/
def setDeleteBitmask (e : BlockEntry) (v : BlockVersion) (queryTs : ℕ) :
    ℕ → ℕ → (ℕ → Bool) → Option (ℕ → Bool)
  | 0, _, _ => none
  | rounds + 1, readOffset, bitmask =>
    let range := e.getVisibleRange v queryTs readOffset
    if range.1 = range.2 then some (setFalse bitmask readOffset e.rowCount)
    else e.setDeleteBitmask v queryTs rounds range.2 (setFalse bitmask readOffset range.1)

/-! ## The loops -/

variable {e : BlockEntry} {v : BlockVersion} {t : ℕ}

theorem lt_of_shows (ho : v.shows ts o) : o < v.getRowCount ts := by
  unfold shows at ho
  rw [Bool.and_eq_true] at ho
  exact of_decide_eq_true ho.1

theorem shows_eq_false_of_hides (h : v.hides ts o) : v.shows ts o = false := by
  unfold shows
  rw [h, Bool.not_true, Bool.and_false]

theorem shows_of_mem_range (h : v.VisibleRange ts offset range) (hle : range.1 ≤ o)
    (hlt : o < range.2) : v.shows ts o := by
  have hend := h.end_le (hle.trans_lt hlt)
  unfold shows
  rw [h.seen o hle hlt, decide_eq_true (hlt.trans_le hend), Bool.not_false, Bool.and_self]

theorem exhausted_shows (h : v.VisibleRange ts offset range)
    (hempty : range.1 = range.2) (hle : offset ≤ o) : v.shows ts o = false := by
  by_contra hshows
  rw [Bool.not_eq_false] at hshows
  have hhides := h.exhausted hempty o hle (lt_of_shows hshows)
  rw [shows_eq_false_of_hides hhides] at hshows
  cases hshows

section

variable (hcount : v.getRowCount (min t e.maxRowTs) ≤ e.rowCount) (rounds readOffset : ℕ)
  (hrounds : e.rowCount < readOffset + rounds) (hoffset : readOffset ≤ e.rowCount)
include hcount rounds readOffset hrounds hoffset

/-- **The scan terminates**, and its ranges hold the rows that the versions show at the time
stamp. -/
theorem visibleRanges_eq :
    ∃ ranges, e.visibleRanges v t rounds readOffset = some ranges ∧
        ∀ o, (∃ range ∈ ranges, range.1 ≤ o ∧ o < range.2) ↔
        readOffset ≤ o ∧ v.shows (min t e.maxRowTs) o := by
  induction rounds generalizing readOffset with
  | zero => omega
  | succ rounds ih =>
    have hspec := v.visibleRange_spec (min t e.maxRowTs) readOffset
    unfold visibleRanges
    dsimp only
    unfold getVisibleRange
    generalize v.visibleRange (min t e.maxRowTs) readOffset = range at *
    split
    next hempty =>
      refine ⟨[], rfl, fun o => ⟨fun ⟨_, h, _⟩ => (not_mem_nil h).elim, ?_⟩⟩
      rintro ⟨hle, hshows⟩
      rw [exhausted_shows hspec hempty hle] at hshows
      cases hshows
    next hne =>
      have hlt := lt_of_le_of_ne hspec.begin_le hne
      have hend := hspec.end_le hlt
      have hle := hspec.offset_le
      obtain ⟨ranges, hranges, hmem⟩ := ih range.2 (by omega) (by omega)
      refine ⟨range :: ranges, by rw [hranges]; rfl, fun o => ?_⟩
      rw [exists_mem_cons_iff, hmem o]
      constructor
      · rintro (⟨hbegin, ho⟩ | ⟨hge, hshows⟩)
        · exact ⟨by omega, shows_of_mem_range hspec hbegin ho⟩
        · exact ⟨by omega, hshows⟩
      · rintro ⟨ho, hshows⟩
        by_cases hafter : range.2 ≤ o
        · exact .inr ⟨hafter, hshows⟩
        · refine .inl ⟨?_, by omega⟩
          by_contra hbefore
          rw [shows_eq_false_of_hides (hspec.skipped o ho (by omega))] at hshows
          cases hshows

/-- **`SetDeleteBitmask` terminates**, and leaves the bits of the rows that the versions show. -/
theorem setDeleteBitmask_eq (bitmask : ℕ → Bool) :
    ∃ bitmask', e.setDeleteBitmask v t rounds readOffset bitmask = some bitmask' ∧ ∀ o < e.rowCount,
        bitmask' o = (bitmask o && (decide (o < readOffset) || v.shows (min t e.maxRowTs) o)) := by
  induction rounds generalizing readOffset bitmask with
  | zero => omega
  | succ rounds ih =>
    have hspec := v.visibleRange_spec (min t e.maxRowTs) readOffset
    unfold setDeleteBitmask
    dsimp only
    unfold getVisibleRange
    generalize v.visibleRange (min t e.maxRowTs) readOffset = range at *
    split
    next hempty =>
      refine ⟨_, rfl, fun o ho => ?_⟩
      unfold setFalse
      by_cases hbefore : o < readOffset
      · simp [hbefore, not_le.mpr hbefore]
      · simp [ho, hbefore, le_of_not_gt hbefore,
          exhausted_shows hspec hempty (le_of_not_gt hbefore)]
    next hne =>
      have hlt := lt_of_le_of_ne hspec.begin_le hne
      have hend := hspec.end_le hlt
      have hle := hspec.offset_le
      obtain ⟨bitmask', hbitmask, hbits⟩ :=
        ih range.2 (by omega) (by omega) (setFalse bitmask readOffset range.1)
      refine ⟨bitmask', hbitmask, fun o ho => ?_⟩
      rw [hbits o ho]
      unfold setFalse
      -- before the range the rows are hidden, in it they are seen, and behind it the rest decides
      by_cases hbefore : o < readOffset
      · simp [hbefore, not_le.mpr hbefore, show o < range.2 by omega]
      · by_cases hskip : o < range.1
        · simp [hbefore, hskip, le_of_not_gt hbefore,
            shows_eq_false_of_hides (hspec.skipped o (le_of_not_gt hbefore) hskip)]
        · by_cases hin : o < range.2
          · simp [hskip, hin, shows_of_mem_range hspec (le_of_not_gt hskip) hin]
          · simp [hbefore, hskip, hin]

end

end BlockEntry

/-! ## The time stamps in a block -/

/-- The time stamps of the rows ascend, and a time stamp that is later than `max_row_ts_` is that of
the transaction which is changing the block. -/
structure StampsInv (b : Block) : Prop where
  sorted : b.rows.Pairwise (· ≤ ·)
  rows_cases : ∀ ts ∈ b.rows, ts ≤ b.entry.maxRowTs ∨ ts = b.lastTs
  marks_le : ∀ o, b.version.deletedTs o ≤ b.lastTs
  marks_cases : ∀ o, b.version.deletedTs o ≤ b.entry.maxRowTs ∨ b.version.deletedTs o = b.lastTs
  marks_idle : b.entry.usingTxnId = 0 → ∀ o, b.version.deletedTs o ≤ b.entry.maxRowTs

namespace StampsInv

variable {b' : Block} {txnId commitTs : ℕ}

theorem make (checkpointTs : ℕ) : StampsInv (Block.make checkpointTs) := by
  have hzero : ∀ o, (BlockVersion.make defaultVectorSize).deletedTs o = 0 := by
    intro o
    unfold BlockVersion.deletedTs BlockVersion.make
    rw [getElem?_replicate]
    split <;> rfl
  constructor
  · exact .nil
  · exact nofun
  · exact fun o => (hzero o).le
  · exact fun o => .inl (hzero o).le
  · exact fun _ o => (hzero o).le

/-- Before a writer changes the block, what is later than `max_row_ts_` is its own. -/
theorem before (h : StampsInv b) (hrows : RowsInv b) (hturn : b.inTurn txnId commitTs) :
    (∀ ts ∈ b.rows, ts ≤ b.entry.maxRowTs ∨ ts = commitTs) ∧
      ∀ o, b.version.deletedTs o ≤ b.entry.maxRowTs ∨ b.version.deletedTs o = commitTs := by
  obtain ⟨-, hturn⟩ := hturn
  split at hturn
  next hidle =>
    exact ⟨fun ts hts => .inl (hrows.idle hidle ts hts), fun o => .inl (h.marks_idle hidle o)⟩
  next =>
    rw [hturn]
    exact ⟨h.rows_cases, h.marks_cases⟩

theorem step (h : StampsInv b) (hrows : RowsInv b) {a : BlockAction} (hs : b.step a = some b') :
    StampsInv b' := by
  cases Block.steps_of_step hs with
  | append copied hturn =>
    have hle := RowsInv.lastTs_le hturn
    obtain ⟨hcases, hmarks⟩ := h.before hrows hturn
    constructor
    · apply pairwise_append.mpr
      refine ⟨h.sorted, pairwise_replicate.mpr (.inr le_rfl), ?_⟩
      intro ts hts ts' hts'
      rw [eq_of_mem_replicate hts']
      exact (hrows.rows_le ts hts).trans hle
    · intro ts hts
      rcases mem_append.mp hts with hts | hts
      · exact hcases ts hts
      · exact .inr (eq_of_mem_replicate hts)
    · exact fun o => (h.marks_le o).trans hle
    · exact hmarks
    · intro hidle
      exact absurd hidle (Nat.pos_iff_ne_zero.mp hturn.1)
  | @delete txnId commitTs _ v hv hturn =>
    have hle := RowsInv.lastTs_le hturn
    obtain ⟨hcases, hmarks⟩ := h.before hrows hturn
    have hdeleted := fun o => (deletedTs_delete hv o).2
    constructor
    · exact h.sorted
    · exact hcases
    · intro o
      rw [hdeleted o]
      split
      · exact le_rfl
      · exact (h.marks_le o).trans hle
    · intro o
      rw [hdeleted o]
      split
      · exact .inr rfl
      · exact hmarks o
    · intro hidle
      exact absurd hidle (Nat.pos_iff_ne_zero.mp hturn.1)
  | commit hturn =>
    have hle := RowsInv.lastTs_le hturn
    constructor
    · exact h.sorted
    · exact fun ts hts => .inl ((hrows.rows_le ts hts).trans hle)
    · exact fun o => (h.marks_le o).trans hle
    · exact fun o => .inl ((h.marks_le o).trans hle)
    · exact fun _ o => (h.marks_le o).trans hle

theorem of_reachable (h : blockWriters.Reachable b) : RowsInv b ∧ StampsInv b := by
  apply h.invariant
  · rintro _ ⟨checkpointTs, rfl⟩
    exact ⟨.make checkpointTs, make checkpointTs⟩
  · rintro b a b' ⟨hrows, hb⟩ hs
    exact ⟨hrows.step hs, hb.step hrows hs⟩

end StampsInv

/-! ## When the paths agree -/

def Block.Visible (b : Block) (t r : ℕ) : Prop :=
  (∃ ts, b.rows[r]? = some ts ∧ ts ≤ t) ∧ (b.version.deletedTs r = 0 ∨ t < b.version.deletedTs r)

/-- The three paths terminate and describe the visible rows. -/
def Block.PathsAgree (b : Block) (t : ℕ) : Prop :=
  ∀ rounds, b.entry.rowCount < rounds → ∃ ranges bitmask,
    b.entry.visibleRanges b.version t rounds 0 = some ranges ∧
    b.entry.setDeleteBitmask b.version t rounds 0 (fun _ => true) = some bitmask ∧
    ∀ r < b.entry.rowCount, ((∃ range ∈ ranges, range.1 ≤ r ∧ r < range.2) ↔ b.Visible t r) ∧
      (bitmask r = true ↔ b.Visible t r) ∧
      (checkRowVisible b.version r t true = true ↔ b.Visible t r)

/-- No transaction up to a time stamp is between its changes and `CommitBlock`, unless it has
changed nothing that is visible: every row that is not deleted is committed, and so is every
deletion of a committed row. -/
def Block.Settled (b : Block) (t : ℕ) : Prop := t < b.lastTs ∨ ∀ r ts, b.rows[r]? = some ts →
    (b.version.deletedTs r = 0 → ts ≤ b.entry.maxRowTs) ∧
      (b.entry.maxRowTs < b.version.deletedTs r → b.entry.maxRowTs < ts)

theorem checkRowVisible_eq (r t : ℕ) : checkRowVisible v r t true = v.shows t r := by
  unfold checkRowVisible shows hides
  by_cases hcount : v.getRowCount t ≤ r
  · simp [hcount, not_lt.mpr hcount]
  · by_cases hle : v.deletedTs r ≤ t
    · simp [hcount, hle, lt_of_not_ge hcount, not_lt.mpr hle, bne]
    · simp [hcount, hle, lt_of_not_ge hcount, lt_of_not_ge hle]

theorem lt_countP_le_iff {l : List ℕ} (hsorted : l.Pairwise (· ≤ ·)) (hr : l[r]? = some ts)
    (t : ℕ) : r < l.countP (· ≤ t) ↔ ts ≤ t := by
  have hsplit := filter_append_filter (p := (t < ·))
    (fun a b hab ha => decide_eq_true ((of_decide_eq_true ha).trans_le hab)) hsorted
  simp only [← decide_not, not_lt] at hsplit
  rw [← hsplit, getElem?_append] at hr
  rw [countP_eq_length_filter]
  split at hr
  next hlt => exact iff_of_true hlt (of_decide_eq_true (mem_filter.mp (mem_of_getElem? hr)).2)
  next hge =>
    have hgt := of_decide_eq_true (mem_filter.mp (mem_of_getElem? hr)).2
    exact iff_of_false hge (not_le.mpr hgt)

/-- What the versions show at a time stamp. -/
theorem shows_iff (hrows : RowsInv b) (hinv : StampsInv b) (hr : b.rows[r]? = some ts) :
    b.version.shows t r ↔ ts ≤ t ∧ (b.version.deletedTs r = 0 ∨ t < b.version.deletedTs r) := by
  unfold shows hides
  have hcount := lt_countP_le_iff hinv.sorted hr t
  rw [hrows.getRowCount t]
  unfold Block.rowsUpTo
  rw [Bool.and_eq_true, decide_eq_true_iff, hcount]
  apply and_congr_right
  intro _
  by_cases hzero : b.version.deletedTs r = 0
  · simp [hzero]
  · simp [hzero]

theorem visible_iff (hr : b.rows[r]? = some ts) :
    b.Visible t r ↔ ts ≤ t ∧ (b.version.deletedTs r = 0 ∨ t < b.version.deletedTs r) := by
  unfold Block.Visible
  rw [hr]
  simp

/-- The paths agree if going back to `max_row_ts_` makes no difference to any row. -/
theorem pathsAgree_iff_shows (hrows : RowsInv b) (hinv : StampsInv b) :
    b.PathsAgree t ↔ ∀ r ts, b.rows[r]? = some ts →
      (b.version.shows (min t b.entry.maxRowTs) r ↔ b.version.shows t r) := by
  have hcount : b.version.getRowCount (min t b.entry.maxRowTs) ≤ b.entry.rowCount := by
    rw [hrows.getRowCount, hrows.rowCount]
    exact countP_le_length
  have hvisible : ∀ r ts, b.rows[r]? = some ts → (b.version.shows t r ↔ b.Visible t r) :=
    fun r ts hr => (shows_iff hrows hinv hr).trans (visible_iff hr).symm
  constructor
  · intro h r ts hr
    obtain ⟨ranges, bitmask, hranges, -, hagree⟩ := h (b.entry.rowCount + 1) (Nat.lt_succ_self _)
    obtain ⟨ranges', hranges', hmem⟩ :=
      visibleRanges_eq (t := t) hcount (b.entry.rowCount + 1) 0 (by omega) (by omega)
    cases hranges'.symm.trans hranges
    have hlt : r < b.entry.rowCount := by
      rw [hrows.rowCount]
      exact (List.getElem?_eq_some_iff.mp hr).1
    rw [hvisible r ts hr, ← (hagree r hlt).1, hmem r]
    simp
  · intro h rounds hrounds
    obtain ⟨ranges, hranges, hmem⟩ :=
      visibleRanges_eq (t := t) hcount rounds 0 (by omega) (by omega)
    obtain ⟨bitmask, hbitmask, hbits⟩ := setDeleteBitmask_eq (t := t) hcount
      rounds 0 (by omega) (by omega) (fun _ => true)
    refine ⟨ranges, bitmask, hranges, hbitmask, fun r hlt => ?_⟩
    rw [hrows.rowCount] at hlt
    have hr := getElem?_eq_getElem hlt
    have hshows := h r _ hr
    rw [hvisible r _ hr] at hshows
    refine ⟨?_, ?_, ?_⟩
    · rw [hmem r, and_iff_right (Nat.zero_le r), hshows]
    · rw [hbits r (hrows.rowCount ▸ hlt)]
      simpa using hshows
    · rw [checkRowVisible_eq, hvisible r _ hr]

/-- **The three paths agree at a time stamp exactly if the block is settled there.** -/
theorem pathsAgree_iff {b : Block} (h : blockWriters.Reachable b) (t : ℕ) :
    b.PathsAgree t ↔ b.Settled t := by
  obtain ⟨hrows, hinv⟩ := StampsInv.of_reachable h
  rw [pathsAgree_iff_shows hrows hinv]
  constructor
  · intro hshows
    rcases lt_or_ge t b.lastTs with hlt | hge
    · exact .inl hlt
    · refine .inr fun r ts hr => ?_
      have hrow := hshows r ts hr
      rw [shows_iff hrows hinv hr, shows_iff hrows hinv hr] at hrow
      have hts := hrows.rows_le ts (mem_of_getElem? hr)
      have hmark := hinv.marks_le r
      omega
  · intro hsettled r ts hr
    rw [shows_iff hrows hinv hr, shows_iff hrows hinv hr]
    have hts := hinv.rows_cases ts (mem_of_getElem? hr)
    have hmark := hinv.marks_cases r
    rcases hsettled with hlt | hall
    · omega
    · have hrow := hall r ts hr
      omega

/-- A reader of time stamp 12 gets the rows of an append at time stamp 10 from an index, while a
scan shows none of them. -/
theorem not_pathsAgree_uncommittedAppend : blockWriters.Reachable uncommittedAppend ∧
      uncommittedAppend.entry.visibleRanges uncommittedAppend.version 12 6 0 = some [] ∧
      checkRowVisible uncommittedAppend.version 0 12 true = true ∧
      ¬ uncommittedAppend.PathsAgree 12 := by
  refine ⟨reachable_uncommittedAppend, by decide, by decide, fun h => ?_⟩
  obtain ⟨ranges, bitmask, hranges, -, hagree⟩ := h 6 (by decide)
  obtain ⟨hrange, -, hcheck⟩ := hagree 0 (by decide)
  have hnil : ranges = [] :=
    Option.some.inj
      (hranges.symm.trans (by decide : uncommittedAppend.entry.visibleRanges _ 12 6 0 = _))
  obtain ⟨range, hmem, -⟩ := hrange.mpr (hcheck.mp (by decide))
  rw [hnil] at hmem
  exact not_mem_nil hmem

/-- A reader of time stamp 3 is not concerned by the append. -/
theorem pathsAgree_uncommittedAppend : blockWriters.Reachable uncommittedAppend ∧
      (uncommittedAppend.PathsAgree 3 ↔ uncommittedAppend.Settled 3) ∧
      uncommittedAppend.Settled 3 :=
  ⟨reachable_uncommittedAppend, pathsAgree_iff reachable_uncommittedAppend 3, .inl (by decide)⟩

/-! ## Later writers -/

variable {b' : Block} {a : BlockAction}

theorem hides_delete {commitTs : ℕ} {rows : List ℕ} {v' : BlockVersion}
    (h : v.delete commitTs rows = some v') (ht : t < commitTs) (o : ℕ) :
    v'.hides t o = v.hides t o := by
  obtain ⟨hzero, hmark⟩ := deletedTs_delete h o
  unfold hides
  rw [hmark]
  split
  next ho => simp [hzero ho, not_le.mpr ht]
  next => rfl

theorem shows_step (h : RowsInv b) (hs : b.step a = some b') (t r : ℕ) :
    b.lastTs ≤ b'.lastTs ∧ (t < b'.lastTs → b'.version.shows t r = b.version.shows t r) := by
  cases Block.steps_of_step hs with
  | append copied hturn =>
    have hle := RowsInv.lastTs_le hturn
    refine ⟨hle, fun ht => ?_⟩
    have hcount :=
      getRowCount_append (fun f hf => (h.created_le f hf).trans hle) (b.entry.rowCount + copied) t
    exact congrArg (fun n => decide (r < n) && !b.version.hides t r)
      (hcount.trans (if_neg (not_le.mpr ht)))
  | delete hv hturn =>
    refine ⟨RowsInv.lastTs_le hturn, fun ht => ?_⟩
    unfold shows getRowCount
    rw [created_delete hv, hides_delete hv ht]
  | commit hturn => exact ⟨RowsInv.lastTs_le hturn, fun _ => rfl⟩

/-- **Later writers do not show**: from the first writer of a later time stamp on, `CheckRowVisible`
does not change. -/
theorem checkRowVisible_of_run (h : blockWriters.Reachable b) (hfirst : b.step a = some b')
    (ht : t < b'.lastTs) (as : List BlockAction) {last : Block}
    (hrun : blockWriters.run b' as = some last) (r : ℕ) :
    checkRowVisible last.version r t true = checkRowVisible b.version r t true := by
  obtain ⟨hrows, -⟩ := StampsInv.of_reachable h
  rw [checkRowVisible_eq, checkRowVisible_eq]
  refine (TransitionSystem.run_invariant
    (P := fun s => RowsInv s ∧ t < s.lastTs ∧ s.version.shows t r = b.version.shows t r)
    (fun s a s' ⟨hrows, ht, heq⟩ hs => ?_) as ⟨hrows.step hfirst, ht,
    (shows_step hrows hfirst t r).2 ht⟩ hrun).2.2
  obtain ⟨hle, hsame⟩ := shows_step hrows hs t r
  exact ⟨hrows.step hs, ht.trans_le hle, (hsame (ht.trans_le hle)).trans heq⟩

/-- A reader of time stamp 12 sees the first row before and after its deletion at time stamp 13. -/
theorem checkRowVisible_deleteRun :
    ∃ b b' last, uncommittedAppend.step (.commitBlock 1 10) = some b ∧
    b.step (.deleteData 2 13 [0]) = some b' ∧ blockWriters.run b' [.commitBlock 2 13] = some last ∧
      checkRowVisible last.version 0 12 true = checkRowVisible b.version 0 12 true :=
  ⟨_, _, _, rfl, rfl, rfl,
    checkRowVisible_of_run (a :=
      .deleteData 2 13 [0]) (reachable_uncommittedAppend.step (.commitBlock 1 10) rfl) rfl
      (show 12 < 13 by decide) [.commitBlock 2 13] rfl 0⟩

end Infinity.Storage
