import Infinity.Transactions.Lifetime

/-! # When the conflict check is complete

A transaction is in `finishing_txns_` with its time stamp before it is `kCommitting`, and in between
the conflict check of a later transaction passes it over. This module shows that nothing else goes
wrong: if no transaction checks for conflicts while an earlier one is in that gap, and rows are
deleted in ascending order (`TxnManager.inOrder`), then no two transactions that delete a common row
both commit.

* `Inv.not_both`: of two transactions with a common row at most one commits.
-/

namespace Infinity.Transactions

open Foundations TxnStore TxnManager

/-! ## The invariant -/

def Common (t u : Txn) : Prop := ∃ r, t.store.Deletes r ∧ u.store.Deletes r

theorem Common.symm {t u : Txn} (h : Common t u) : Common u t := by
  obtain ⟨r, hr, hr'⟩ := h
  exact ⟨r, hr', hr⟩

/-- What holds of a transaction and another one: if they have a common row, the earlier one is
rejected once the later one has passed its check, and if the first one has committed, the other one
began before. -/
structure Pair (t u : Txn) : Prop where
  later : u.Commits → Common t u → ∀ c c', t.stamp = some c → u.stamp = some c' → c < c' → t.Dead
  overlap : t.stage = .committed → Common t u → u.beginTs < t.committedTs

/-- What holds in every run in order. -/
structure Inv (s : TxnManager) : Prop where
  life : Life s
  ascending : ∀ i t, s.txns i = some t → t.store.Ascending
  pair : ∀ i j t u, i ≠ j → s.txns i = some t → s.txns j = some u → Pair t u
  applied : ∀ i t, s.txns i = some t → t.Applied → ∀ r, t.store.Deletes r → s.deleted r = t.commitTs
  deletedBy : ∀ r, s.deleted r ≠ 0 → ∃ i t, s.txns i = some t ∧ t.Applied ∧ t.store.Deletes r
  failed : s.failed = false

section Change

variable {s s' : TxnManager} {i : ℕ} {t t' : Txn}

/-- What is to be shown of a step of one transaction. -/
theorem Inv.change (h : Inv s) (htxns : s'.txns = (s.setTxn i t').txns) (hlife : Life s')
    (hascending : t'.store.Ascending)
    (hpair : ∀ j u, j ≠ i → s.txns j = some u → Pair t' u ∧ Pair u t')
    (happlied : t'.Applied → ∀ r, t'.store.Deletes r → s'.deleted r = t'.commitTs)
    (hother : ∀ j u, j ≠ i → s.txns j = some u → u.Applied → ∀ r, u.store.Deletes r →
    s'.deleted r = u.commitTs)
    (hdeletedBy : ∀ r, s'.deleted r ≠ 0 → ∃ j u, s'.txns j = some u ∧ u.Applied ∧ u.store.Deletes r)
    (hfailed : s'.failed = false) : Inv s' := by
  refine ⟨hlife, ?_, ?_, ?_, hdeletedBy, hfailed⟩
  · intro j u hu
    rcases txns_changed htxns hu with ⟨rfl, rfl⟩ | ⟨-, hu⟩
    · exact hascending
    · exact h.ascending _ _ hu
  · intro j k u w hjk hu hw
    rcases txns_changed htxns hu with ⟨rfl, rfl⟩ | ⟨hj, hu⟩ <;>
      rcases txns_changed htxns hw with ⟨hk, rfl⟩ | ⟨hk, hw⟩
    · exact absurd hk.symm hjk
    · exact (hpair _ _ hk hw).1
    · exact (hpair _ _ hj hu).2
    · exact h.pair _ _ _ _ hjk hu hw
  · intro j u hu
    rcases txns_changed htxns hu with ⟨rfl, rfl⟩ | ⟨hj, hu⟩
    · exact happlied
    · exact hother _ _ hj hu

/-- The applied deletes are those of other transactions than the one that changes. -/
theorem Unfinished.deletedBy (hu : Unfinished s i t) (h : Inv s)
    (htxns : s'.txns = (s.setTxn i t').txns) : ∀ r, s.deleted r ≠ 0 → ∃ j w, s'.txns j = some w ∧
    w.Applied ∧ w.store.Deletes r := by
  intro r hr
  obtain ⟨j, w, hw, happlied, hdel⟩ := h.deletedBy r hr
  have hne : j ≠ i := by
    intro heq
    rw [heq, hu.txn] at hw
    cases hw
    exact hu.not_applied happlied
  rw [htxns]
  exact ⟨j, w, (setTxn_other hne).trans hw, happlied, hdel⟩

theorem Silent.common (q : Silent s s' i t t') {u : Txn} : Common t' u ↔ Common t u := by
  rw [Common, Common, q.store_eq]

/-- **Silent steps keep the invariant**, if a transaction that begins to commit has no earlier
transaction with a common row that may commit too. -/
theorem Inv.silent (h : Inv s) (hu : Unfinished s i t) (q : Silent s s' i t t')
    (hcommits : t'.Commits → t.Commits ∨ ∀ j u, j ≠ i → s.txns j = some u → Common u t →
      ∀ c c', u.stamp = some c → t.stamp = some c' → c < c' → u.Dead) : Inv s' := by
  refine h.change q.txns (q.toQuiet.life hu h.life) ?_ ?_ (fun ha => absurd ha q.not_applied) ?_ ?_
    (q.failed_eq.trans h.failed)
  · rw [q.store_eq]
    exact h.ascending _ _ hu.txn
  · intro j u hj huj
    have hp := h.pair _ _ _ _ hj.symm hu.txn huj
    have hp' := h.pair _ _ _ _ hj huj hu.txn
    refine ⟨⟨?_, fun hc => absurd hc q.committed⟩, ⟨?_, ?_⟩⟩
    · intro hcu hcommon c c' hc hc' hlt
      rw [q.stamp_eq] at hc
      exact q.dead (hp.later hcu (q.common.mp hcommon) c c' hc hc' hlt)
    · intro hct hcommon c c' hc hc' hlt
      rw [q.stamp_eq] at hc'
      have hcommon := (q.common.mp hcommon.symm).symm
      rcases hcommits hct with hct | hall
      · exact hp'.later hct hcommon c c' hc hc' hlt
      · exact hall _ _ hj huj hcommon c c' hc hc' hlt
    · intro hcommitted hcommon
      rw [q.begin_eq]
      exact hp'.overlap hcommitted (q.common.mp hcommon.symm).symm
  · intro j u _ huj happlied
    rw [q.deleted_eq]
    exact h.applied _ _ huj happlied
  · rw [q.deleted_eq]
    exact hu.deletedBy h q.txns

end Change

/-! ## The conflict check -/

/-- Whether a transaction is not in the gap between its time stamp, if that is an earlier one, and
`kCommitting`. -/
def Txn.outOfGap (u : Txn) (commitTs : ℕ) : Bool :=
  match u.stage with
  | .stamped ts => commitTs < ts
  | _ => true

/-- The condition on actions: no check for conflicts while an earlier transaction is in the gap, and
the rows of a block are deleted in ascending order. -/
def TxnManager.inOrder (s : TxnManager) : Action → Bool
  | .checkConflict i => (s.txns i).all fun t => s.finishingTxns.all fun j =>
      (s.txns j).all fun u => u.outOfGap t.commitTs
  | .delete i r => (s.txns i).all fun t =>
      (t.store.offsets r.table r.segment r.block).all fun offset => offset < r.offset
  | _ => true

section Check

variable {s s' : TxnManager} {i : ℕ} {t : Txn}

/-- **The check is complete**: an earlier transaction with a common row is found, or it is already
rejected. -/
theorem dead_of_checkConflict (h : Inv s) (ht : s.txns i = some t) (hstage : t.stage = .prepared)
    (horder : s.inOrder (.checkConflict i)) (hcheck : s.checkConflict t = false) {j : ℕ}
    {u : Txn} (hj : j ≠ i) (hu : s.txns j = some u) (hcommon : Common u t) {c : ℕ}
    (hc : u.stamp = some c) (hlt : c < t.commitTs) : u.Dead := by
  obtain ⟨r, hur, htr⟩ := hcommon
  have hconflict : t.store.checkConflict u.store :=
    checkConflict_of_common (h.ascending _ _ ht) (h.ascending _ _ hu) htr hur
  have hoverlap : u.stage = .committed → t.beginTs < u.committedTs :=
    fun hcommitted => (h.pair _ _ _ _ hj hu ht).overlap hcommitted ⟨r, hur, htr⟩
  by_cases hin : j ∈ s.finishingTxns
  · -- it is in the set, and so not a candidate
    have hcandidate : candidate t u = false := by
      rw [TxnManager.checkConflict, List.any_eq_false] at hcheck
      have := hcheck j hin
      rw [hu] at this
      simpa [hconflict] using this
    have hgap : u.outOfGap t.commitTs := by
      simp only [inOrder, ht, Option.all_some, List.all_eq_true] at horder
      simpa [hu] using horder j hin
    cases hs : u.stage with
    | stamped ts =>
      simp only [Txn.stamp, hs, Option.some.injEq] at hc
      simp only [Txn.outOfGap, hs, decide_eq_true_eq] at hgap
      omega
    | committing | prepared | passed | sent | bottomed =>
      simp only [Txn.stamp, hs, Option.some.injEq] at hc
      simp only [candidate, hs, Stage.state, decide_eq_false_iff_not] at hcandidate
      omega
    | committed =>
      simp only [candidate, hs, Stage.state, decide_eq_false_iff_not] at hcandidate
      exact absurd (hoverlap hs) hcandidate
    | conflicted | rejected | rollbacking | rollbacked => simp [Txn.Dead, hs]
    | running | readCommitted | aborted | gone => simp [Txn.stamp, hs] at hc
  · -- it is forgotten, and so finished before the checking transaction began
    rcases (h.life.txn _ _ hu).erased c hc hin with hr | ⟨hcommitted, hall⟩
    · exact .inr (.inr (.inr hr))
    · have hle := hall i t ht (by simp [Txn.Live, hstage])
      exact absurd (hoverlap hcommitted) (by omega)

/-- Silent actions in order keep the invariant. -/
theorem Inv.silently (h : Inv s) {a : Action} {t' : Txn} (horder : s.inOrder a)
    (hs : Silently s a s' i t t') : Inv s' := by
  refine h.silent hs.unfinished hs.silent fun hc => (hs.commits hc).imp_right ?_
  rintro ⟨rfl, hstage, hcheck⟩ j u hj hju hcommon c c' hc hc' hlt
  have hts : t.stamp = some t.commitTs := by simp [Txn.stamp, hstage]
  obtain rfl : c' = t.commitTs := by
    rw [hts] at hc'
    exact (Option.some.inj hc').symm
  exact dead_of_checkConflict h hs.unfinished.txn hstage horder hcheck hj hju hcommon hc hlt

end Check

/-! ## Time stamps and deletes -/

section Deletes

variable {s s' : TxnManager} {i : ℕ} {t : Txn}

/-- Two transactions with a common row do not both commit: the one with the earlier time stamp is
rejected if the other one has passed the check. -/
theorem Inv.not_both (h : Inv s) {j : ℕ} {u : Txn} (hij : i ≠ j) (ht : s.txns i = some t)
    (hu : s.txns j = some u) (hcommon : Common t u) : ¬ (t.Commits ∧ u.Commits) := by
  rintro ⟨hct, hcu⟩
  have hp := h.pair _ _ _ _ hij ht hu
  have hp' := h.pair _ _ _ _ hij.symm hu ht
  rcases lt_trichotomy t.commitTs u.commitTs with hlt | heq | hgt
  · exact hct.not_dead (hp.later hcu hcommon _ _ hct.stamp_eq hcu.stamp_eq hlt)
  · exact h.life.distinct _ _ _ _ hij ht hu _ hct.stamp_eq (heq ▸ hcu.stamp_eq)
  · exact hcu.not_dead (hp'.later hct hcommon.symm _ _ hcu.stamp_eq hct.stamp_eq hgt)

theorem Inv.getCommitTimeStampW (h : Inv s) (hstep : s.step (.getCommitTimeStampW i) = some s') :
    Inv s' := by
  have hlife := h.life.getCommitTimeStampW hstep
  cases steps_of_step hstep
  rename_i t hstage ht
  have hu : Unfinished s i t := by
    refine ⟨ht, ?_, ?_, ?_, ?_⟩ <;> simp [hstage]
  refine h.change rfl hlife (h.ascending i t ht) ?_ ?_ (fun j u _ huj => h.applied _ _ huj)
    (hu.deletedBy h rfl) h.failed
  · intro j u hj huj
    refine ⟨⟨?_, nofun⟩, ⟨?_, (h.pair _ _ _ _ hj huj ht).overlap⟩⟩
    · -- the new time stamp is the latest one
      intro _ _ c c' hc hc' hlt
      cases hc
      have := ((h.life.txn _ _ huj).stamp_le _ hc').2
      omega
    · intro hc
      simp [Txn.Commits] at hc
  · rintro (hb | hb) <;> cases hb

theorem Inv.delete (h : Inv s) {r : Row} (horder : s.inOrder (.delete i r))
    (hstep : s.step (.delete i r) = some s') : Inv s' := by
  have hlife := h.life.step hstep
  obtain ⟨t, hu, hstage, hvisible, rfl, hq⟩ := quiet_delete hstep
  have hstamp : Txn.stamp { t with store := t.store.delete r } = none := by
    simp [Txn.stamp, hstage]
  refine h.change rfl hlife ?_ ?_ (fun ha => absurd ha hu.not_applied)
    (fun j u _ huj => h.applied _ _ huj) (hu.deletedBy h rfl) h.failed
  · refine (h.ascending _ _ hu.txn).delete ?_
    simpa [inOrder, hu.txn] using horder
  · intro j u hj huj
    refine ⟨⟨?_, fun hc => absurd hc hu.committed⟩, ⟨?_, ?_⟩⟩
    · rw [hstamp]
      simp
    · intro hc
      simp [Txn.Commits, hstage] at hc
    · -- a row that another transaction has deleted is visible only if that one is later
      rintro hcommitted ⟨r', hur, htr⟩
      rcases (deletes_delete _ _).mp htr with htr | rfl
      · exact (h.pair _ _ _ _ hj huj hu.txn).overlap hcommitted ⟨r', hur, htr⟩
      · have happlied := h.applied _ _ huj (.inr hcommitted) r' hur
        have hlu := h.life.txn _ _ huj
        have hstampu : u.stamp = some u.commitTs := by simp [Txn.stamp, hcommitted]
        have hpos := (hlu.stamp_le _ hstampu).1
        have hlt := (hlu.committed_le hcommitted).1
        rcases hvisible with hzero | hlater
        · omega
        · change t.beginTs < u.committedTs
          omega

/-- `DeleteData` on rows that are not deleted marks them and leaves the others. -/
theorem deleteData_eq {commitTs : ℕ} : ∀ {rows : List Row} {deleted : Row → ℕ}, rows.Nodup →
    (∀ r ∈ rows, deleted r = 0) → deleteData commitTs deleted rows =
      some fun r => if r ∈ rows then commitTs else deleted r
  | [], deleted, _, _ => by simp [deleteData]
  | r :: rows, deleted, hnodup, hzero => by
    obtain ⟨hr, hrows⟩ := List.nodup_cons.mp hnodup
    rw [deleteData, if_pos (hzero r (.head _)), deleteData_eq hrows]
    · congr 1
      funext r'
      by_cases h : r' = r
      · subst h
        simp [hr]
      · simp [h]
    · intro r' hr'
      have hne : r' ≠ r := fun h => hr (h ▸ hr')
      simp [hne, hzero r' (.tail _ hr')]

theorem Inv.commitBottom (h : Inv s) (hstep : s.step .commitBottom = some s') : Inv s' := by
  have hlife := h.life.step hstep
  obtain ⟨i, rest, t, -, hu, hstage, hcases⟩ := quiet_commitBottom hstep
  have ht := hu.txn
  have hcommits : t.Commits := by simp [Txn.Commits, hstage]
  have hstamp : t.stamp = some t.commitTs := hcommits.stamp_eq
  -- another transaction with a common row does not commit
  have hother : ∀ j u r, j ≠ i → s.txns j = some u → u.Applied → u.store.Deletes r →
      ¬ t.store.Deletes r := fun j u r hj huj happlied hur htr =>
    h.not_both hj.symm ht huj ⟨r, htr, hur⟩ ⟨hcommits, happlied.commits⟩
  have hzero : ∀ r ∈ t.store.rowList, s.deleted r = 0 := by
    intro r hr
    by_contra hne
    obtain ⟨j, u, huj, happlied, hur⟩ := h.deletedBy r hne
    have hj : j ≠ i := by
      rintro rfl
      cases ht.symm.trans huj
      exact hu.not_applied happlied
    exact hother j u r hj huj happlied hur (mem_rowList.mp hr)
  have hdata : deleteData t.commitTs s.deleted t.store.rowList = _ :=
    deleteData_eq (nodup_rowList (h.ascending _ _ ht)) hzero
  rcases hcases with ⟨deleted, hdeleted, rfl, -⟩ | ⟨hnone, -⟩
  case inr =>
    cases hdata.symm.trans hnone
  case inl =>
    cases hdata.symm.trans hdeleted
    refine h.change rfl hlife (h.ascending i t ht) ?_ ?_ ?_ ?_ h.failed
    · intro j u hj huj
      have hp := h.pair _ _ _ _ hj.symm ht huj
      have hp' := h.pair _ _ _ _ hj huj ht
      refine ⟨⟨?_, by simp⟩, ⟨?_, hp'.overlap⟩⟩
      · intro hcu hcommon c c' hc hc' hlt
        exact absurd (hp.later hcu hcommon c c' (hstamp.trans hc) hc' hlt) hcommits.not_dead
      · exact fun _ hcommon c c' hc hc' hlt =>
          hp'.later hcommits hcommon c c' hc (hstamp.trans hc') hlt
    · exact fun _ r hr => if_pos (mem_rowList.mpr hr)
    · intro j u hj huj happlied r hur
      have hnot : r ∉ t.store.rowList := fun hr =>
        hother j u r hj huj happlied hur (mem_rowList.mp hr)
      exact (if_neg hnot).trans (h.applied _ _ huj happlied r hur)
    · intro r hr
      by_cases hmem : r ∈ t.store.rowList
      · exact ⟨i, _, setTxn_self, .inl rfl, mem_rowList.mp hmem⟩
      · have hr' : s.deleted r ≠ 0 := by simpa [hmem] using hr
        exact hu.deletedBy h rfl r hr'

end Deletes

/-! ## Begin and end -/

section Ends

variable {s s' : TxnManager} {i : ℕ} {store : TxnStore}

theorem Inv.finishTxn (h : Inv s) (hstep : s.step (.finishTxn i) = some s') : Inv s' := by
  have hlife := h.life.step hstep
  cases steps_of_step hstep
  rename_i t hstage ht
  have hcommits : t.Commits := by simp [Txn.Commits, hstage]
  have hstamp : t.stamp = some t.commitTs := hcommits.stamp_eq
  have htxns : (s.finishTxn i t .committed).txns =
      (s.setTxn i { t with stage := .committed, committedTs := s.startTs + 1 }).txns := rfl
  refine h.change htxns hlife (h.ascending i t ht) ?_ (fun _ => h.applied i t ht (.inl hstage))
    (fun j u _ huj => h.applied _ _ huj) ?_ h.failed
  · intro j u hj huj
    have hp := h.pair _ _ _ _ hj.symm ht huj
    have hp' := h.pair _ _ _ _ hj huj ht
    refine ⟨⟨?_, fun _ _ => ?_⟩, ⟨?_, hp'.overlap⟩⟩
    · intro hcu hcommon c c' hc hc' hlt
      exact absurd (hp.later hcu hcommon c c' (hstamp.trans hc) hc' hlt) hcommits.not_dead
    · exact Nat.lt_succ_of_le (h.life.txn _ _ huj).begin_le
    · exact fun _ hcommon c c' hc hc' hlt =>
        hp'.later hcommits hcommon c c' hc (hstamp.trans hc') hlt
  · intro r hr
    obtain ⟨j, w, hw, happlied, hdel⟩ := h.deletedBy r hr
    by_cases hj : j = i
    · subst hj
      cases ht.symm.trans hw
      exact ⟨j, _, setTxn_self, .inr rfl, hdel⟩
    · exact ⟨j, w, (setTxn_other hj).trans hw, happlied, hdel⟩

theorem Inv.finishRollback (h : Inv s) (hstep : s.step (.finishRollback i) = some s') : Inv s' := by
  have hlife := h.life.step hstep
  cases steps_of_step hstep
  rename_i t hstage ht
  have hu : Unfinished s i t := by
    refine ⟨ht, ?_, ?_, ?_, ?_⟩ <;> simp [hstage]
  have htxns : (s.finishTxn i t .rollbacked).txns =
    (s.setTxn i { t with stage := .rollbacked }).txns := rfl
  refine h.change htxns hlife (h.ascending i t ht) ?_ ?_
    (fun j u _ huj => h.applied _ _ huj) (hu.deletedBy h rfl) h.failed
  · intro j u hj huj
    refine ⟨⟨fun _ _ _ _ _ _ _ => .inr (.inr (.inr rfl)), nofun⟩, ⟨?_, ?_⟩⟩
    · intro hc
      simp [Txn.Commits] at hc
    · exact (h.pair _ _ _ _ hj huj ht).overlap
  · rintro (hb | hb) <;> cases hb

theorem TxnStore.not_deletes_of_rowList (h : store.rowList = []) (r : Row) : ¬ store.Deletes r := by
  rw [← mem_rowList, h]
  exact List.not_mem_nil

theorem TxnStore.ascending_of_rowList (h : store.rowList = []) : store.Ascending := by
  intro table segment block
  have hnil : store.offsets table segment block = [] := by
    rw [List.eq_nil_iff_forall_not_mem]
    exact fun offset => not_deletes_of_rowList h ⟨table, segment, block, offset⟩
  rw [hnil]
  exact .nil

theorem Inv.beginTxn (h : Inv s) (hstore : store.rowList = []) : Inv (s.beginTxn store) := by
  have hnot : ∀ {ts ts' ts'' : ℕ} {stage : Stage} {u : Txn},
      ¬ Common ⟨ts, ts', ts'', store, stage⟩ u := by
    rintro ts ts' ts'' stage u ⟨r, hr, -⟩
    exact not_deletes_of_rowList hstore r hr
  refine h.change rfl (h.life.beginTxn store) (ascending_of_rowList hstore) ?_ ?_
    (fun j u _ huj => h.applied _ _ huj) ?_ h.failed
  · intro j u _ _
    exact ⟨⟨fun _ hc => absurd hc hnot, fun _ hc => absurd hc hnot⟩,
      ⟨fun _ hc => absurd hc.symm hnot, fun _ hc => absurd hc.symm hnot⟩⟩
  · rintro (hb | hb) <;> cases hb
  · intro r hr
    obtain ⟨j, w, hw, happlied, hdel⟩ := h.deletedBy r hr
    have hne : j ≠ s.nextTxnId + 1 := by
      have := h.life.ids _ _ hw
      omega
    exact ⟨j, w, (setTxn_other hne).trans hw, happlied, hdel⟩

theorem Inv.start : Inv .start where
  life := Life.start
  ascending := nofun
  pair := nofun
  applied := nofun
  deletedBy _ h := absurd rfl h
  failed := rfl

/-- **Every action in order keeps the invariant.** -/
theorem Inv.step (h : Inv s) {a : Action} (horder : s.inOrder a) (hstep : s.step a = some s') :
    Inv s' := by
  have hsilent : a.silent → Inv s' := fun ha => by
    obtain ⟨i, t, t', hs⟩ := exists_silent ha hstep
    exact h.silently horder hs
  cases steps_of_step hstep with
  | beginTxn hstore => exact h.beginTxn hstore
  | delete _ _ _ => exact h.delete horder hstep
  | getCommitTimeStampW _ _ => exact h.getCommitTimeStampW hstep
  | commitBottom _ _ _ _ | fails _ _ _ _ => exact h.commitBottom hstep
  | finishTxn _ _ => exact h.finishTxn hstep
  | finishRollback _ _ => exact h.finishRollback hstep
  | _ => exact hsilent rfl

end Ends

/-- **The conflict check is complete on actions in order**: in every state of every interleaving in
which no transaction checks for conflicts while an earlier one is between its time stamp and
`kCommitting`, and in which the rows of a block are deleted in ascending order, no two transactions
that delete a common row both commit, and `DeleteData` has met no row that was already deleted. -/
theorem conflictFree_of_inOrder {s : TxnManager}
    (h : (committing.restrict fun s a => s.inOrder a = true).Reachable s) : s.ConflictFree := by
  have hinv : Inv s := by
    refine h.invariant (fun s hs => ?_) fun s a s' hinv hstep => ?_
    · rw [show s = .start from hs]
      exact Inv.start
    · obtain ⟨horder, hstep⟩ := TransitionSystem.restrict_step_eq_some.mp hstep
      exact hinv.step horder hstep
  exact ⟨fun i j t u r hij ht hu htr hur => hinv.not_both hij ht hu ⟨r, htr, hur⟩, hinv.failed⟩

/-- Two transactions delete the same row and commit in turn; the second one is rejected. -/
def orderedRun : List Action :=
  [.beginTxn ⟨∅, []⟩, .beginTxn ⟨∅, []⟩, .delete 1 someRow, .delete 2 someRow,
    .getCommitTimeStampW 1, .setTxnCommitting 1, .getCommitTimeStampW 2, .setTxnCommitting 2,
    .prepareCommit1 2, .checkConflict 2, .sendToWAL 2, .rollback 2, .prepareCommit1 1,
    .checkConflict 1, .sendToWAL 1, .commitBottom, .finishTxn 1, .finishRollback 2]

theorem conflictFree_orderedRun : ∃ s,
    (committing.restrict fun s a => s.inOrder a = true).run .start orderedRun = some s ∧
      ((s.txns 1).map Txn.stage = some .committed ∧ (s.txns 2).map Txn.stage = some .rollbacked) ∧
      s.ConflictFree :=
  ⟨_, rfl, ⟨rfl, rfl⟩, conflictFree_of_inOrder (.of_run orderedRun (.initial rfl) rfl)⟩

end Infinity.Transactions
