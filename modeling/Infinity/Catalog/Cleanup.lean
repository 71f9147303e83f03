import Infinity.Catalog.NamingInvariant
import Infinity.Compaction.TableSteps

/-! # The cleanup of the catalog (`EntryList::PickCleanup`, `TableEntry::PickCleanup`)

A cleanup has a time stamp that is not after the begin of any active or later transaction. It takes
out of the entry lists what lies behind the newest version before that time stamp, and out of the
tables the segments that were deprecated before it. What transactions get and see stays the same,
and the scanner gets everything that was taken out once.

* `TxnManager.Clears`: the condition on the time stamp.
* `clears_getCleanupScanTS`: `GetCleanupScanTS` meets it.
-/

namespace Infinity.Transactions

/-- The time stamp is not after the begin of any active or later transaction. -/
def TxnManager.Clears (mgr : TxnManager) (visibleTs : ℕ) : Prop :=
  visibleTs ≤ mgr.startTs + 1 ∧ ∀ j u, mgr.txns j = some u → u.Live → visibleTs ≤ u.beginTs

/-- `GetCleanupScanTS` gives such time stamps. -/
theorem clears_getCleanupScanTS {mgr : TxnManager} (h : Life mgr) (checkpointedTs : ℕ) :
    mgr.Clears (mgr.getCleanupScanTS checkpointedTs).1 := by
  have hle : (mgr.getCleanupScanTS checkpointedTs).1 ≤ mgr.firstUncommittedBeginTs :=
    min_le_left _ _
  refine ⟨hle.trans (h.firstUncommittedBeginTs_le_startTs.trans (Nat.le_succ _)),
    fun j u hu hlive => ?_⟩
  exact hle.trans (h.firstUncommittedBeginTs_le hu hlive)

end Infinity.Transactions

/-! ## Segments -/

namespace Infinity.Compaction

open Foundations Transactions Option

/-- `SegmentEntry::CheckDeprecate`. -/
def SegmentEntry.checkDeprecate (e : SegmentEntry) (checkTs : ℕ) : Bool :=
  e.status = .deprecated && e.deprecateTs.any (· < checkTs)

namespace Table

/-- `TableEntry::PickCleanup`: the table without the segments that are picked, and these. -/
def pickCleanup (s : Table) (visibleTs : ℕ) : Table × List (ℕ × SegmentEntry) :=
  ({ s with segmentMap := fun id => (s.segmentMap id).filter fun e => !e.checkDeprecate visibleTs },
    (List.range s.nextSegmentId).filterMap fun id =>
      ((s.segmentMap id).filter fun e => e.checkDeprecate visibleTs).map (id, ·))

/-- What the cleanup of the segments leaves to its readers. -/
structure CleanupHidden (s : Table) (visibleTs : ℕ) : Prop where
  active : ∀ i t id, s.mgr.txns i = some t → t.Live →
    (s.pickCleanup visibleTs).1.inBlockIndex i id = s.inBlockIndex i id
  later : ∀ mgr i beginTs id, s.mgr.startTs < beginTs →
    ((s.pickCleanup visibleTs).1.segmentMap id).any (·.checkVisible mgr i beginTs) =
      (s.segmentMap id).any (·.checkVisible mgr i beginTs)
  scanned : ∀ id e, (id, e) ∈ (s.pickCleanup visibleTs).2 ↔
    s.segmentMap id = some e ∧ (s.pickCleanup visibleTs).1.segmentMap id = none
  once : ((s.pickCleanup visibleTs).2.map Prod.fst).Nodup

end Table

section Segments

variable {s : Table} {visibleTs : ℕ} {beginTs : ℕ} {mgr : TxnManager}

/-- A segment that is picked is not visible after the time stamp of the cleanup. -/
theorem SegmentEntry.not_checkVisible {e : SegmentEntry} (h : e.checkDeprecate visibleTs) (i : ℕ)
    (hle : visibleTs ≤ beginTs) : e.checkVisible mgr i beginTs = false := by
  rw [checkDeprecate, Bool.and_eq_true] at h
  obtain ⟨ts, hts, hlt⟩ := (any_eq_true _ _).mp h.2
  have hlt : ts < visibleTs := of_decide_eq_true hlt
  have hnot : ¬ beginTs < ts := not_lt.mpr (hlt.le.trans hle)
  rw [checkVisible, hts]
  simp [hnot]

/-- **The segments that are seen stay.** -/
theorem checkVisible_pickCleanup (i id : ℕ) (hle : visibleTs ≤ beginTs) :
    ((s.pickCleanup visibleTs).1.segmentMap id).any (·.checkVisible mgr i beginTs) =
      (s.segmentMap id).any (·.checkVisible mgr i beginTs) := by
  show ((s.segmentMap id).filter _).any _ = _
  cases s.segmentMap id with
  | none => rfl
  | some e =>
    cases hpick : e.checkDeprecate visibleTs with
    | false => simp [Option.filter, hpick]
    | true => simp [Option.filter, hpick, SegmentEntry.not_checkVisible hpick i hle]

theorem mem_pickCleanup (hids : ∀ id e, s.segmentMap id = some e → id < s.nextSegmentId) (id : ℕ)
    (e : SegmentEntry) : (id, e) ∈ (s.pickCleanup visibleTs).2 ↔
      s.segmentMap id = some e ∧ (s.pickCleanup visibleTs).1.segmentMap id = none := by
  have hpicked : (id, e) ∈ (s.pickCleanup visibleTs).2 ↔
      id < s.nextSegmentId ∧ s.segmentMap id = some e ∧ e.checkDeprecate visibleTs := by
    simp [Table.pickCleanup, List.mem_filterMap, filter_eq_some_iff]
  rw [hpicked]
  constructor
  · rintro ⟨-, he, hpick⟩
    exact ⟨he, by simp [Table.pickCleanup, he, Option.filter, hpick]⟩
  · rintro ⟨he, hgone⟩
    refine ⟨hids id e he, he, ?_⟩
    simpa [Table.pickCleanup, he, Option.filter] using hgone

theorem nodup_pickCleanup : ((s.pickCleanup visibleTs).2.map Prod.fst).Nodup := by
  rw [Table.pickCleanup, List.map_filterMap]
  refine List.Nodup.filterMap (fun id id' picked h h' => ?_) List.nodup_range
  simp only [mem_def, map_map, map_eq_some_iff] at h h'
  obtain ⟨e, -, heq⟩ := h
  obtain ⟨e', -, heq'⟩ := h'
  exact heq.trans heq'.symm

theorem cleanupHidden_of_clears (hids : ∀ id e, s.segmentMap id = some e → id < s.nextSegmentId)
    (hts : s.mgr.Clears visibleTs) : s.CleanupHidden visibleTs := by
  refine ⟨fun i t id ht hlive => ?_, fun mgr i beginTs id hlt => ?_, mem_pickCleanup hids, ?_⟩
  · rw [Table.inBlockIndex, Table.inBlockIndex]
    show (s.mgr.txns i).any _ = _
    rw [ht]
    exact checkVisible_pickCleanup i id (hts.2 i t ht hlive)
  · exact checkVisible_pickCleanup i id (hts.1.trans hlt)
  · exact nodup_pickCleanup

end Segments

end Infinity.Compaction

/-! ## Entries -/

namespace Infinity.Catalog

open Foundations Transactions Compaction

variable {β : Type*}

/-- What the cleanup of a name leaves to its readers. -/
structure Meta.CleanupHidden (s : Meta β) (visibleTs : ℕ) : Prop where
  active : ∀ i t, s.mgr.txns i = some t → t.Live → s.roll i = false →
    getEntry s.type i t.beginTs (pickCleanup visibleTs s.entryList).1 =
    getEntry s.type i t.beginTs s.entryList
  later : ∀ i beginTs, s.mgr.nextTxnId < i → s.mgr.startTs < beginTs →
    getEntry s.type i beginTs (pickCleanup visibleTs s.entryList).1 =
    getEntry s.type i beginTs s.entryList
  scanned : (s.entryList.filter fun e => !e.deleted).Perm
    (((pickCleanup visibleTs s.entryList).1.filter fun e => !e.deleted) ++
    (pickCleanup visibleTs s.entryList).2)
  live : ∀ e ∈ (pickCleanup visibleTs s.entryList).2, e.deleted = false

section Entries

variable {s : Meta β} {visibleTs : ℕ}

/-- **What transactions get stays**, if they are not being rolled back. -/
theorem Meta.Inv.getEntry_pickCleanup (h : s.Inv) {i beginTs : ℕ}
    (hi : s.roll i = false ∨ HoldsNone i s.entryList) (hle : visibleTs ≤ beginTs) :
    getEntry s.type i beginTs (pickCleanup visibleTs s.entryList).1 =
    getEntry s.type i beginTs s.entryList := by
  have hfront := pending_append_not_pending h.chain.front
  have hrest : HoldsNone i (s.entryList.filter fun e => !e.pending s.roll) := by
    intro e he hc hei
    obtain ⟨hmem, hnot⟩ := List.mem_filter.mp he
    rcases hi with hi | hi
    · rw [Entry.pending, hc, hei, hi] at hnot
      cases hnot
    · exact hi e hmem hc hei
  have hown : ∀ e ∈ s.entryList.filter (·.pending s.roll), e.committed = false :=
    fun e he => (Entry.pending_iff.mp (List.mem_filter.mp he).2).1
  have hsame := getEntryInner1_pickCleanup hown hrest hle
  rw [hfront] at hsame
  rw [getEntry, getEntry, hsame]

theorem Meta.Inv.cleanupHidden (h : s.Inv) (hts : s.mgr.Clears visibleTs) :
    s.CleanupHidden visibleTs := by
  refine ⟨fun i t ht hlive hroll => ?_, fun i beginTs hi hlt => ?_, pickCleanup_perm,
    fun e he => not_deleted_of_mem_pickCleanup he⟩
  · exact h.getEntry_pickCleanup (.inl hroll) (hts.2 i t ht hlive)
  · refine h.getEntry_pickCleanup (.inr fun e he hc hei => ?_) (hts.1.trans hlt)
    obtain ⟨t, ht, -⟩ := h.holder e he hc
    have hle := h.life.ids _ t ht
    omega

/-- **The cleanup is invisible**, in every state of every interleaving. -/
theorem cleanup_invisible (hs : (naming β).Reachable s) {table : Table}
    (htable : compacting.Reachable table) (hts : s.mgr.Clears visibleTs)
    (hts' : table.mgr.Clears visibleTs) :
    s.CleanupHidden visibleTs ∧ table.CleanupHidden visibleTs :=
  ⟨(Meta.Inv.of_reachable hs).cleanupHidden hts,
    cleanupHidden_of_clears (Compaction.Inv.of_reachable htable).ids hts'⟩

end Entries

def commitOf (i : ℕ) : List Action :=
  [.getCommitTimeStampW i, .setTxnCommitting i, .prepareCommit1 i, .checkConflict i, .sendToWAL i,
    .commitBottom, .finishTxn i]

def droppedName : List (MetaAction ℕ) :=
  .txn (.beginTxn ⟨∅, []⟩) :: .addEntry 1 .error 7 :: (commitOf 1).map .txn ++
    .txn (.beginTxn ⟨∅, []⟩) :: .dropEntry 2 .error 7 :: (commitOf 2).map .txn

def compactedTable : List TableAction :=
  .txn (.beginTxn ⟨∅, []⟩) :: .addSegment 1 true :: (commitOf 1).map .txn ++
    .txn (.beginTxn ⟨∅, []⟩) :: .compact 2 [[0]] :: (commitOf 2).map .txn

def droppedState : Meta ℕ := ((naming ℕ).run (.start .table) droppedName).get (by decide)

def compactedState : Table := (compacting.run .start compactedTable).get (by decide)

/-- A cleanup takes out the entry with its drop marker, and the old segment. -/
theorem cleanup_invisible_dropped :
    pickCleanup 6 droppedState.entryList = ([], [⟨1, some 2, false, 7⟩]) ∧
    (compactedState.pickCleanup 6).2 = [(0, ⟨1, some 2, some 5, .deprecated⟩)] ∧
    droppedState.CleanupHidden 6 ∧ compactedState.CleanupHidden 6 := by
  have hs : (naming ℕ).Reachable droppedState :=
    .of_run droppedName (.initial ⟨.table, rfl⟩) (Option.some_get _).symm
  have htable : compacting.Reachable compactedState :=
    .of_run compactedTable (.initial rfl) (Option.some_get _).symm
  exact ⟨by decide, by decide, cleanup_invisible hs htable
    (clears_getCleanupScanTS (Meta.Inv.of_reachable hs).life 6)
    (clears_getCleanupScanTS (Compaction.Inv.of_reachable htable).life 6)⟩

end Infinity.Catalog
