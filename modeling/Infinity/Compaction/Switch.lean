import Infinity.Compaction.TableSteps

/-! # When a reader sees either the old segments or the new one

For every reader and every compaction, in every state that is reached: the reader sees all old
segments and not the new one, or the new one and none of the old ones, if and only if the old
segments were committed when it began, no later compaction has replaced the new segment for it, and
it is not in the window of the compaction's commit: the compaction is `kCommitting` with an earlier
time stamp, so that the new segment is visible, but the bottom half that deprecates the old ones is
not done. -/

namespace Infinity.Compaction

open Foundations Transactions Option

namespace Table

def committedBefore (s : Table) (oldIds : List ℕ) (ts : ℕ) : Bool :=
  oldIds.all fun id => (s.segmentMap id).any fun e => e.commitTs.any (· ≤ ts)

/-- The compaction is `kCommitting` with a time stamp before the given one, and `CommitCompact` has
not yet set the commit time stamp of the new segment. -/
def inWindow (s : Table) (i newId ts : ℕ) : Bool := (s.segmentMap newId).any (·.commitTs.isNone) &&
    (s.mgr.txns i).any fun t => t.stage.state = .committing && t.commitTs < ts

def replaced (s : Table) (newId ts : ℕ) : Bool :=
  (s.segmentMap newId).any fun e => e.deprecateTs.any (· ≤ ts)

end Table

section Switch

variable {s : Table} {i j newId : ℕ} {oldIds : List ℕ} {t u : Txn} {e : SegmentEntry} {id : ℕ}
    {c : ℕ}

theorem inBlockIndex_eq (hu : s.mgr.txns j = some u)
    (he : s.segmentMap id = some e) : s.inBlockIndex j id = e.checkVisible s.mgr j u.beginTs := by
  rw [Table.inBlockIndex, hu, any_some, he, any_some]

/-- A committed segment is visible from its commit to its deprecation. -/
theorem Inv.inBlockIndex_iff (h : Inv s) (hu : s.mgr.txns j = some u)
    (hrunning : u.stage = .running) (he : s.segmentMap id = some e) (hc : e.commitTs = some c) :
    s.inBlockIndex j id ↔ c ≤ u.beginTs ∧ ∀ d, e.deprecateTs = some d → u.beginTs < d := by
  rw [inBlockIndex_eq hu he, SegmentEntry.checkVisible, Bool.and_eq_true,
    baseCheckVisible_iff h.life (h.segment id e he) hc hu hrunning, and_comm]
  cases e.deprecateTs <;> simp

theorem committedAt_iff {ts : ℕ} (he : s.segmentMap id = some e)
    (hc : e.commitTs = some c) : ((s.segmentMap id).any fun e => e.commitTs.any (· ≤ ts)) ↔
    c ≤ ts := by
  simp [he, hc]

/-- The compaction has not come to its bottom half: the old segments are visible if they were
committed, and the new one is visible in the window. -/
theorem Inv.switched_pending (h : Inv s) (ht : s.mgr.txns i = some t) (hopen : Undecided t)
    (hpair : PairOk s i t (newId, oldIds)) (hu : s.mgr.txns j = some u)
    (hrunning : u.stage = .running) (hj : j ≠ i) (hne : oldIds ≠ []) : s.Switched j newId oldIds ↔
      s.committedBefore oldIds u.beginTs ∧ s.inWindow i newId u.beginTs = false ∧
        s.replaced newId u.beginTs = false := by
  obtain ⟨e, he, hn⟩ := hpair.new
  have hnone := hn.pending hopen.not_applied
  have hdep : e.deprecateTs = none := by
    have hok := h.segment _ e he
    refine hok.undeprecated fun hd => ?_
    have := hok.isSome (by simp [hd])
    rw [hnone] at this
    cases this
  have hnew : s.inBlockIndex j newId = s.inWindow i newId u.beginTs := by
    rw [inBlockIndex_eq hu he, Bool.eq_iff_iff, SegmentEntry.checkVisible, hdep, all_none,
      Bool.true_and, baseCheckVisible_pending_iff h.life ht hopen hn hj]
    simp [Table.inWindow, show s.segmentMap newId = some e from he, hnone, ht]
  have hold : ∀ id ∈ oldIds, s.inBlockIndex j id ↔
      ((s.segmentMap id).any fun e => e.commitTs.any (· ≤ u.beginTs)) := by
    intro id hid
    obtain ⟨e₀, he₀, ho⟩ := hpair.old id hid
    obtain ⟨c, hc, -⟩ := ho.committed
    have hdep₀ : e₀.deprecateTs = none :=
      (h.segment id e₀ he₀).undeprecated (by simp [ho.pending hopen.not_applied])
    rw [h.inBlockIndex_iff hu hrunning he₀ hc, committedAt_iff he₀ hc, hdep₀]
    simp
  have hall : (∀ id ∈ oldIds, s.inBlockIndex j id) ↔ s.committedBefore oldIds u.beginTs := by
    rw [Table.committedBefore, List.all_eq_true]
    exact forall₂_congr hold
  have hreplaced : s.replaced newId u.beginTs = false := by
    simp [Table.replaced, show s.segmentMap newId = some e from he, hdep]
  rw [Table.Switched, hall, hnew]
  refine ⟨?_, fun hswitched => .inl ⟨hswitched.1, hswitched.2.1⟩⟩
  rintro (⟨hcommitted, hwindow⟩ | ⟨hwindow, hinvisible⟩)
  · exact ⟨hcommitted, hwindow, hreplaced⟩
  · -- in the window an old segment is visible
    obtain ⟨id, hid⟩ := List.exists_mem_of_ne_nil _ hne
    obtain ⟨e₀, he₀, ho⟩ := hpair.old id hid
    obtain ⟨c, hc, hle⟩ := ho.committed
    have hvisible : s.inBlockIndex j id := by
      rw [hold id hid, committedAt_iff he₀ hc]
      simp only [Table.inWindow, ht, any_some, Bool.and_eq_true, decide_eq_true_eq] at hwindow
      have hstamp : t.stamp = some t.commitTs := by
        cases hs : t.stage <;> simp_all [Txn.stamp, Stage.state]
      have := ((h.life.txn _ _ ht).stamp_le _ hstamp).1
      omega
    rw [hinvisible id hid] at hvisible
    cases hvisible

/-- The bottom half of the compaction is done: a reader from before its commit time stamp sees the
old segments, a later one the new one. -/
theorem Inv.switched_applied (h : Inv s) (ht : s.mgr.txns i = some t) (happlied : t.Applied)
    (hpair : PairOk s i t (newId, oldIds)) (hu : s.mgr.txns j = some u)
    (hrunning : u.stage = .running) (hne : oldIds ≠ []) : s.Switched j newId oldIds ↔
      s.committedBefore oldIds u.beginTs ∧ s.inWindow i newId u.beginTs = false ∧
        s.replaced newId u.beginTs = false := by
  obtain ⟨e, he, hn⟩ := hpair.new
  have hc := hn.applied happlied
  have hbegin : t.beginTs < t.commitTs :=
    ((h.life.txn _ _ ht).stamp_le _ happlied.commits.stamp_eq).1
  have hwindow : s.inWindow i newId u.beginTs = false := by
    simp [Table.inWindow, show s.segmentMap newId = some e from he, hc]
  have hreplaced : s.replaced newId u.beginTs = false ↔ ∀ d, e.deprecateTs = some d →
      u.beginTs < d := by
    rw [Table.replaced, show s.segmentMap newId = some e from he, any_some]
    cases e.deprecateTs <;> simp
  have hnew : s.inBlockIndex j newId ↔ t.commitTs ≤ u.beginTs ∧ s.replaced newId u.beginTs =
      false := by
    rw [h.inBlockIndex_iff hu hrunning he hc, hreplaced]
  have hold : ∀ id ∈ oldIds, ∃ e₀ c, s.segmentMap id = some e₀ ∧ e₀.commitTs = some c ∧
      c ≤ t.beginTs ∧ (s.inBlockIndex j id ↔ c ≤ u.beginTs ∧ u.beginTs < t.commitTs) := by
    intro id hid
    obtain ⟨e₀, he₀, ho⟩ := hpair.old id hid
    obtain ⟨c, hc₀, hle⟩ := ho.committed
    refine ⟨e₀, c, he₀, hc₀, hle, ?_⟩
    rw [h.inBlockIndex_iff hu hrunning he₀ hc₀, (ho.applied happlied).2]
    simp
  rw [Table.committedBefore, List.all_eq_true, Table.Switched]
  rcases lt_or_ge u.beginTs t.commitTs with hlt | hge
  · -- the reader began before the commit
    have hinvisible : s.inBlockIndex j newId = false := by
      rw [← Bool.not_eq_true, hnew]
      omega
    have hnotReplaced : s.replaced newId u.beginTs = false := by
      rw [hreplaced]
      exact fun d hd => hlt.trans ((h.segment _ e he).lt _ d hc hd)
    constructor
    · rintro (⟨hall, -⟩ | ⟨hvisible, -⟩)
      · refine ⟨fun id hid => ?_, hwindow, hnotReplaced⟩
        obtain ⟨e₀, c, he₀, hc₀, -, hiff⟩ := hold id hid
        exact (committedAt_iff he₀ hc₀).mpr (hiff.mp (hall id hid)).1
      · cases hinvisible.symm.trans hvisible
    · rintro ⟨hall, -, -⟩
      refine .inl ⟨fun id hid => ?_, hinvisible⟩
      obtain ⟨e₀, c, he₀, hc₀, -, hiff⟩ := hold id hid
      exact hiff.mpr ⟨(committedAt_iff he₀ hc₀).mp (hall id hid), hlt⟩
  · have hnone : ∀ id ∈ oldIds, s.inBlockIndex j id = false := by
      intro id hid
      obtain ⟨e₀, c, -, -, -, hiff⟩ := hold id hid
      rw [← Bool.not_eq_true, hiff]
      omega
    have hcommitted :
        ∀ id ∈ oldIds, ((s.segmentMap id).any fun e => e.commitTs.any (· ≤ u.beginTs)) := by
      intro id hid
      obtain ⟨e₀, c, he₀, hc₀, hle, -⟩ := hold id hid
      rw [committedAt_iff he₀ hc₀]
      omega
    constructor
    · rintro (⟨hall, -⟩ | ⟨hvisible, -⟩)
      · obtain ⟨id, hid⟩ := List.exists_mem_of_ne_nil _ hne
        have := hall id hid
        rw [hnone id hid] at this
        cases this
      · exact ⟨hcommitted, hwindow, (hnew.mp hvisible).2⟩
    · rintro ⟨-, -, hr⟩
      exact .inr ⟨hnew.mpr ⟨hge, hr⟩, hnone⟩

end Switch

/-- **When a reader sees either side of a compaction.** In every state of every interleaving, for
every new segment of a compaction with its old ones and every other running transaction. -/
theorem switched_iff {s : Table} (h : compacting.Reachable s) {i newId : ℕ} {oldIds : List ℕ}
    (hpair : (newId, oldIds) ∈ s.compactData i) {j : ℕ} {u : Txn} (hu : s.mgr.txns j = some u)
    (hrunning : u.stage = .running) (hj : j ≠ i) :
    s.Switched j newId oldIds ↔ oldIds = [] ∨ s.committedBefore oldIds u.beginTs = true ∧
      s.inWindow i newId u.beginTs = false ∧ s.replaced newId u.beginTs = false := by
  have hinv := Inv.of_reachable h
  obtain ⟨t, ht, hdecided, hok⟩ := hinv.pair i _ hpair
  by_cases hne : oldIds = []
  · subst hne
    refine ⟨fun _ => .inl rfl, fun _ => ?_⟩
    cases hv : s.inBlockIndex j newId
    · exact .inl ⟨nofun, hv⟩
    · exact .inr ⟨hv, nofun⟩
  · rw [or_iff_right hne]
    rcases hdecided with hopen | happlied
    · exact hinv.switched_pending ht hopen hok hu hrunning hj hne
    · exact hinv.switched_applied ht happlied hok hu hrunning hne

/-- A compaction commits, and then a reader begins. -/
def committedRun : List TableAction :=
  windowRun.dropLast ++ [.txn (.prepareCommit1 2), .txn (.checkConflict 2), .txn (.sendToWAL 2),
    .txn .commitBottom, .txn (.beginTxn ⟨∅, []⟩)]

theorem switched_committedRun : ∃ s, compacting.run .start committedRun = some s ∧
    (1, [0]) ∈ s.compactData 2 ∧ s.Switched 3 1 [0] :=
  ⟨_, rfl, .head _,
    (switched_iff (.of_run committedRun (.initial rfl) rfl) (i := 2) (.head _) rfl rfl
    (by decide)).mpr (.inr ⟨rfl, rfl, rfl⟩)⟩

end Infinity.Compaction
