import Infinity.Transactions.ConflictSafety

/-! # What a transaction sees of the rows

A delete mark is a commit time stamp, and a transaction sees the rows without a mark and those with
a later one than its begin. So it sees the rows as they were when it began, except for the deletes
of transactions that had an earlier time stamp then and were not applied yet.

* `visible_iff_of_inOrder`: a transaction sees the rows that no applied transaction of an earlier
  time stamp deleted.
* `visible_of_run`: it sees the same rows all the time.
-/

namespace Infinity.Transactions

open Foundations TxnManager

variable {s s' : TxnManager} {a : Action} {t : Txn}

theorem Inv.of_inOrder (h : (committing.restrict fun s a => s.inOrder a = true).Reachable s) :
    Inv s := by
  refine h.invariant (fun s hs => ?_) fun s a s' hinv hstep => ?_
  · rw [show s = .start from hs]
    exact Inv.start
  · obtain ⟨horder, hstep⟩ := TransitionSystem.restrict_step_eq_some.mp hstep
    exact hinv.step horder hstep

/-- **What a transaction sees**, in every interleaving in which the conflict check is complete. -/
theorem visible_iff_of_inOrder (h : (committing.restrict fun s a => s.inOrder a = true).Reachable s)
    (r : Row) :
    s.Visible t r ↔ ∀ j u, s.txns j = some u → u.Applied → u.store.Deletes r →
    t.beginTs < u.commitTs := by
  have hinv := Inv.of_inOrder h
  constructor
  · intro hvisible j u hu happlied hdel
    have hpos := ((hinv.life.txn j u hu).stamp_le _ happlied.commits.stamp_eq).1
    have hdeleted := hinv.applied j u hu happlied r hdel
    rcases hvisible with hzero | hlt <;> omega
  · intro hall
    by_cases hzero : s.deleted r = 0
    · exact .inl hzero
    · obtain ⟨j, u, hu, happlied, hdel⟩ := hinv.deletedBy r hzero
      rw [TxnManager.Visible, hinv.applied j u hu happlied r hdel]
      exact .inr (hall j u hu happlied hdel)

/-- After that run the row is deleted for those who begin later than its commit. -/
theorem visible_iff_orderedRun : ∃ s,
    (committing.restrict fun s a => s.inOrder a = true).run .start orderedRun = some s ∧
      ∀ t, s.Visible t someRow ↔
        ∀ j u, s.txns j = some u → u.Applied → u.store.Deletes someRow → t.beginTs < u.commitTs :=
  ⟨_, rfl, fun _ => visible_iff_of_inOrder (.of_run orderedRun (.initial rfl) rfl) someRow⟩

/-- The commits that are still to be applied are later than a time stamp. -/
def TxnManager.SettledBy (s : TxnManager) (ts : ℕ) : Prop := ts ≤ s.startTs ∧
  ∀ j u c, s.txns j = some u → u.stamp = some c → ¬ u.Dead → ¬ u.Applied → ts < c

/-- Commits take later time stamps than the clock shows. -/
theorem TxnManager.SettledBy.step {ts : ℕ} (h : s.SettledBy ts) (hstep : s.step a = some s') :
    s'.SettledBy ts := by
  refine ⟨h.1.trans (startTs_le_of_step hstep), fun j u c hu hc hdead happlied => ?_⟩
  obtain ⟨hts, h⟩ := h
  cases steps_of_step hstep
  case fails => exact h j u c hu hc hdead happlied
  case beginTxn =>
    rcases txns_changed rfl hu with ⟨-, rfl⟩ | ⟨-, hold⟩
    · cases hc
    · exact h j u c hold hc hdead happlied
  all_goals
    rcases txns_changed rfl hu with ⟨rfl, rfl⟩ | ⟨-, hold⟩
    · have hbefore := h _ _ c ‹s.txns _ = some _›
      simp_all [Txn.stamp, Txn.Dead, Txn.Applied]
      try omega
    · exact h j u c hold hc hdead happlied

/-- `DeleteData` marks only rows without a mark. -/
theorem deleteData_spec {commitTs : ℕ} {rows : List Row} {deleted deleted' : Row → ℕ}
    (h : deleteData commitTs deleted rows = some deleted') (r : Row) :
    deleted' r = deleted r ∨ deleted r = 0 ∧ deleted' r = commitTs := by
  induction rows generalizing deleted with
  | nil =>
    cases h
    exact .inl rfl
  | cons r' rows ih =>
    obtain ⟨hzero, h⟩ := Option.ite_none_right_eq_some.mp h
    have hrest := ih h
    by_cases hr : r = r'
    · subst hr
      simp only [if_true] at hrest
      exact .inr ⟨hzero, hrest.elim id And.right⟩
    · simpa [hr] using hrest

theorem visible_step (h : s.SettledBy t.beginTs) (hstep : s.step a = some s') (r : Row) :
    s'.Visible t r ↔ s.Visible t r := by
  cases steps_of_step hstep
  case commitBottom j rest u deleted hflush hu hstage hdeleted =>
    have hlt : t.beginTs < u.commitTs :=
      h.2 j u _ hu (by simp [Txn.stamp, hstage]) (by simp [Txn.Dead, hstage])
      (by simp [Txn.Applied, hstage])
    rcases deleteData_spec hdeleted r with heq | ⟨hzero, heq⟩
    · simp only [TxnManager.Visible, heq]
    · exact iff_of_true (.inr (heq.symm ▸ hlt)) (.inl hzero)
  all_goals rfl

/-- **A transaction sees the same rows all the time**, from a state on in which all commits before
its begin are applied. -/
theorem visible_of_run (as : List Action) (hrun : committing.run s as = some s')
    (h : s.SettledBy t.beginTs) (r : Row) : s'.Visible t r ↔ s.Visible t r := by
  refine (TransitionSystem.run_invariant (P :=
    fun s' => s'.SettledBy t.beginTs ∧ (s'.Visible t r ↔ s.Visible t r))
    (fun _ _ _ hs hstep => ?_) as ⟨h, Iff.rfl⟩ hrun).2
  exact ⟨hs.1.step hstep, (visible_step hs.1 hstep r).trans hs.2⟩

/-- A transaction that begins after two others sees the row before and after one of them deletes
it. -/
theorem visible_orderedRun : ∃ s s', committing.run .start (orderedRun.take 4) = some s ∧
    committing.run s (orderedRun.drop 4) = some s' ∧ s'.deleted someRow = 3 ∧
    (s'.Visible ⟨2, 0, 0, ⟨∅, []⟩, .running⟩ someRow ↔
      s.Visible ⟨2, 0, 0, ⟨∅, []⟩, .running⟩ someRow) := by
  refine ⟨_, _, rfl, rfl, rfl, visible_of_run (orderedRun.drop 4) rfl ⟨le_rfl, ?_⟩ someRow⟩
  -- both transactions are running and have no commit time stamp
  intro j u c hu hc
  iterate 4
    rcases txns_changed rfl hu with ⟨-, rfl⟩ | ⟨-, hu⟩
    · cases hc
  cases hu

end Infinity.Transactions
