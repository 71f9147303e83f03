import Infinity.Compaction.TrackingEnds

/-! # What a rollback restores

`Txn::Rollback` undoes a delete or a compaction in `TableEntry::RollbackCompact` only, which does
nothing while `compact_data_` of the transaction is empty. A delete that has registered itself stays
in `delete_txns_`, and a compaction that is rolled back before `Txn::Compact` leaves its segments
and the algorithm as they are.

* `Restored`: nothing of the transaction is left after its rollback.
* `restored_of_undone`: this holds if no delete is registered and a compaction has come to
  `Txn::Compact`.
* `not_restored`: a delete and a manual compaction that are rolled back earlier.
-/

namespace Infinity.Compaction.Tracking

open Foundations List

variable {cfg : DBTConfig} {s s' : Table} {i j id : ℕ} {k : CompactTxn}

/-- **Nothing of a transaction is left after its rollback.** The segments that it had taken are
sealed, no segment has it as a delete, and the algorithm has in the layers what was there and what
it had taken out, with the status that the other compactions give. One that is no compaction leaves
the algorithm alone. -/
structure Table.Restored (s : Table) (i : ℕ) (s' : Table) : Prop where
  failed : s'.failed = none
  statuses : ∀ k, s.compactions i = some k → ∀ id ∈ k.taken, s'.status id = some .sealed
  deletes : ∀ id e, s'.segments id = some e → i ∉ e.deleteTxns
  held : ∀ k, s.compactions i = some k → ∀ id, id ∈ s'.alg.held ↔ id ∈ k.takenOut ∨ id ∈ s.alg.held
  status : ∀ k, s.compactions i = some k → s'.alg.status = if s'.alg.txn2Layer =
    [] then .enable else .running
  alg : s.compactions i = none → s'.alg = s.alg
  lists : i ∉ s'.alg.txn2Layer.map Prod.fst ∧ i ∉ s'.alg.pickedLists.map Prod.fst

/-- The rollbacks that undo everything: no delete is registered, and a compaction has come to
`Txn::Compact` and gives back the segments that it had taken out. -/
structure Table.Undone (s : Table) (i : ℕ) : Prop where
  deletes : ∀ id e, s.segments id = some e → i ∉ e.deleteTxns
  compaction : ∀ k, s.compactions i = some k → k.compactData.getD [] ≠ [] ∧
    (k.type = .manual → s.returned k = true)

theorem Table.Undone.accounted (h : s.Undone i) : s.accounted (.rollback i) := by
  dsimp only [Table.accounted]
  cases hk : s.compactions i with
  | none => rfl
  | some k =>
    obtain ⟨hdata, hreturned⟩ := h.compaction k hk
    rw [Option.all_some]
    cases htype : k.type with
    | auto => exact decide_eq_true hdata
    | manual => exact Bool.or_eq_true_iff.mpr (.inr (hreturned htype))

/-- The transactions of the algorithm run. -/
theorem TrackInv.not_mem_lists (h : TrackInv cfg s) (hk : s.compactions i = none) :
    i ∉ s.alg.txn2Layer.map Prod.fst ∧ i ∉ s.alg.pickedLists.map Prod.fst := by
  have htxns : i ∉ s.alg.txn2Layer.map Prod.fst := by
    intro hin
    obtain ⟨p, hp, rfl⟩ := mem_map.mp hin
    obtain ⟨k, hk', -⟩ := h.txns p hp
    cases hk.symm.trans hk'
  refine ⟨htxns, fun hin => ?_⟩
  obtain ⟨p, hp, rfl⟩ := mem_map.mp hin
  exact htxns (h.alg.mem_txn2Layer hp)

/-- The status of an algorithm that is not disabled. -/
theorem TrackInv.status_eq (h : TrackInv cfg s) (hstatus : s.alg.status ≠ .disable) :
    s.alg.status = if s.alg.txn2Layer = [] then .enable else .running := by
  have htasks : s.alg.runningTaskN = 0 ↔ s.alg.txn2Layer = [] := by
    rw [h.alg.tasks, length_eq_zero_iff]
  split
  next hnil =>
    cases hst : s.alg.status with
    | enable => rfl
    | disable => exact absurd hst hstatus
    | running => exact absurd (htasks.mpr hnil) (h.alg.status.mp hst)
  next hne => exact h.alg.status.mpr fun hzero => hne (htasks.mp hzero)

theorem TrackInv.restored_of_none (h : TrackInv cfg s) (hundone : s.Undone i)
    (hk : s.compactions i = none) : s.Restored i s where
  failed := h.failed
  statuses k hk' := by
    cases hk.symm.trans hk'
  deletes := hundone.deletes
  held k hk' := by
    cases hk.symm.trans hk'
  status k hk' := by
    cases hk.symm.trans hk'
  alg _ := rfl
  lists := h.not_mem_lists hk

theorem Replaced.deletes {olds : List ℕ} {st : SegmentStatus} {segments : ℕ → Option Segment}
    (h : Replaced s olds st segments)
    (hdeletes : ∀ id e, s.segments id = some e → i ∉ e.deleteTxns) :
    ∀ id e', segments id = some e' → i ∉ e'.deleteTxns := by
  intro id e' he'
  rcases h.backward id e' he' with ⟨e, he⟩ | ⟨-, -, hnil⟩
  · cases he'.symm.trans (h.forward id e he)
    split
    next => exact hdeletes id e he
    next => exact hdeletes id e he
  · rw [hnil]
    exact not_mem_nil

theorem TrackInv.restored_of_compaction (h : TrackInv cfg s) (hundone : s.Undone i)
    (hk : s.compactions i = some k) (hs : s.rollback cfg i = some s') : s.Restored i s' := by
  have hok := h.records i k hk
  obtain ⟨hdata, -⟩ := hundone.compaction k hk
  obtain ⟨hends, hstatus, hheld⟩ := h.rollback_ends hk hdata hundone.accounted hs
  have hinv := h.ends hk hends
  have hsame : ∀ m, s.compactions i = some m → m = k :=
    fun m hm => Option.some.inj (hm.symm.trans hk)
  constructor
  · exact hinv.failed
  · intro m hm id hid
    rw [hsame m hm] at hid
    obtain ⟨data, hsome⟩ :=
      Option.ne_none_iff_exists'.mp fun hnone => hdata (congrArg (Option.getD · []) hnone)
    obtain ⟨e, he, -, -⟩ := hok.taken id hid
    obtain ⟨e', he', -, -, hst, -⟩ := hends.replaced.forward' he
    unfold Table.status
    rw [he', Option.map_some, hst (((hok.olds hsome).2 id).mpr hid)]
  · exact hends.replaced.deletes hundone.deletes
  · intro m hm
    rw [hsame m hm]
    exact hheld
  · exact fun _ _ => hinv.status_eq hstatus
  · intro hnone
    cases hnone.symm.trans hk
  · apply hinv.not_mem_lists
    rw [hends.compactions, Function.update_self]

/-- **A rollback restores the segments and the algorithm**, at every point of a run whose steps are
accounted for, if no delete of the transaction is registered and a compaction has come to
`Txn::Compact`. -/
theorem restored_of_undone (h : (accountedTracking cfg).Reachable s) (hundone : s.Undone i)
    (hs : (tracking cfg).step s (.rollback i) = some s') : s.Restored i s' := by
  have hinv := TrackInv.of_reachable h
  change s.step cfg (.rollback i) = some s' at hs
  unfold Table.step at hs
  rw [if_pos hinv.failed] at hs
  change s.rollback cfg i = some s' at hs
  cases hk : s.compactions i with
  | none =>
    unfold Table.rollback at hs
    rw [hk] at hs
    cases hs
    exact hinv.restored_of_none hundone hk
  | some k => exact hinv.restored_of_compaction hundone hk hs

/-- A manual compaction of one segment, from which three rows were deleted, up to `Txn::Compact`. -/
def manualRun : List Action :=
  [.setSealed 0 10, .addSegment 0, .registerDelete 2 0, .commitDelete 2 0 3, .disable 1,
    .init 1 [0] 4, .trySetCompacting 1, .setNoDelete 1 0, .compact 1 [1]]

theorem restored_manualRun : ∃ s s', (accountedTracking .default).run .start manualRun = some s ∧
    (tracking .default).step s (.rollback 1) = some s' ∧ s'.alg.held = [0] ∧ s.Restored 1 s' := by
  refine ⟨_, _, rfl, rfl, rfl, ?_⟩
  have hreachable : (accountedTracking .default).Reachable _ := .of_run manualRun (.initial rfl) rfl
  refine restored_of_undone hreachable ⟨?_, ?_⟩ rfl
  · rintro (_ | id) e he
    · cases he
      exact not_mem_nil
    · cases he
  · intro k hk
    cases hk
    exact ⟨nofun, fun _ => rfl⟩

/-- **A rollback leaves parts of a transaction behind.** A delete that has registered itself stays
in `delete_txns_` of its segment, and a manual compaction that has disabled the algorithm leaves it
disabled and without segments. -/
theorem not_restored : (∃ s s' e, (accountedTracking .default).run .start
        [.setSealed 0 10, .addSegment 0, .registerDelete 1 0] = some s ∧
      (tracking .default).step s (.rollback 1) = some s' ∧ s'.segments 0 = some e ∧
      e.deleteTxns = [1] ∧ ¬ s.Restored 1 s') ∧
    ∃ s s', (accountedTracking .default).run .start [.setSealed 0 10, .addSegment 0, .disable 1] =
      some s ∧ (tracking .default).step s (.rollback 1) = some s' ∧ s'.alg.status = .disable ∧
      s'.alg.held = [] ∧ ¬ s.Restored 1 s' := by
  constructor
  · refine ⟨_, _, _, rfl, rfl, rfl, rfl, fun h => ?_⟩
    exact h.deletes 0 _ rfl (mem_singleton.mpr rfl)
  · refine ⟨_, _, rfl, rfl, rfl, rfl, fun h => ?_⟩
    have hstatus := h.status _ rfl
    cases hstatus

end Infinity.Compaction.Tracking
