import Infinity.Transactions.Lifetime

/-! # The retention of finished transactions (`FinishTxn`, `GetCleanupScanTS`)

A transaction that writes gets a second time stamp when it finishes, and stays in `txn_map_` and
`finishing_txns_` as long as a transaction that began before that is active. The time stamp of a
transaction that was rolled back is kept only in `finished_txns_`, so the system here also records
the time stamps that `FinishTxn` has given.

* `finishTxnChecked_eq`: `FinishTxn` finds every transaction that it erases in `txn_map_`.
* `Retained.keepsFinished`: what is retained in every state of every interleaving, which
  transactions `CheckIfCommitting` takes for committed because they are missing, and the bound of
  `GetCleanupScanTS`.
* `missingCommitted_of_reachable`: if nothing is finished that was rolled back, and no reader while
  a transaction is active that began before its commit, then what is missing has committed.
* `not_missingCommitted_rollback`: a transaction that was rolled back is taken for committed
too. -/

namespace Infinity.Transactions

open Foundations List

namespace TxnManager

/-! ## The loops of the source -/

/-- The error of `TxnManager::FinishTxn`. -/
inductive FinishError where
  | notFoundInTxnMap (txnId : ℕ)

/-- The second loop of `TxnManager::FinishTxn`, which erases finished transactions one by one. -/
def eraseFinished (least : ℕ) (s : TxnManager) : List (ℕ × ℕ) → Except FinishError TxnManager
  | [] => .ok { s with finishedTxns := [] }
  | p :: rest =>
    if (s.txns p.2).any ended && p.1 ≤ least then
      if s.txnMap.contains p.2 then
        eraseFinished least { s with
          finishingTxns := s.finishingTxns.filter (· ≠ p.2)
          txnMap := s.txnMap.filter (· ≠ p.2) } rest
      else .error (.notFoundInTxnMap p.2)
    else .ok { s with finishedTxns := p :: rest }

/-- `TxnManager::FinishTxn` of a transaction that writes, with its error. -/
def finishTxnChecked (s : TxnManager) (i : ℕ) (t : Txn) (stage : Stage) :
    Except FinishError TxnManager :=
  let s' := s.giveFinishedTs i t stage
  eraseFinished (s'.leastUncommittedBeginTs t.commitTs)
    { s' with beginnedTxns := s'.beginnedTxns.dropWhile s'.settled } s'.finishedTxns

/-- Begun transactions whose pointer is null are dropped. -/
def dropNull (s : TxnManager) : TxnManager :=
  { s with beginnedTxns := s.beginnedTxns.dropWhile fun i => !s.txnMap.contains i }

/-- `first_uncommitted_begin_ts`. -/
def firstUncommittedBeginTs (s : TxnManager) : ℕ :=
  match s.dropNull.beginnedTxns with
  | [] => s.startTs
  | i :: _ => ((s.txns i).map Txn.beginTs).getD 0

/-- `TxnManager::GetCleanupScanTS`. -/
def getCleanupScanTS (s : TxnManager) (checkpointedTs : ℕ) : ℕ × TxnManager :=
  (min s.firstUncommittedBeginTs checkpointedTs, s.dropNull)

/-- A transaction that is missing, and so taken for one that has committed, did commit, which has
set its `committed_ts_`, and before any unsettled one began. -/
def MissingCommitted (s : TxnManager) : Prop :=
  ∀ i t beginTs, s.txns i = some t → i ∉ s.txnMap → s.checkIfCommitting i beginTs = true →
    t.committedTs ≠ 0 ∧ ∀ j u, s.txns j = some u → u.Live → t.committedTs ≤ u.beginTs

section Erase

variable {s : TxnManager}

theorem filter_ne_filter_notMem (i : ℕ) (ids l : List ℕ) :
    (l.filter (· ≠ i)).filter (· ∉ ids) = l.filter (· ∉ i :: ids) := by
  rw [filter_filter]
  congr 1
  funext j
  by_cases hj : j = i <;> simp [hj]

/-- Erasing the finished transactions one by one comes to erasing them together, if each of them is
in `txn_map_` and none stands twice. -/
theorem eraseFinished_eq (least : ℕ) {finished : List (ℕ × ℕ)}
    (hmap : ∀ p ∈ finished, p.2 ∈ s.txnMap) (hnodup : (finished.map Prod.snd).Nodup) :
    let old : ℕ × ℕ → Bool := fun p => (s.txns p.2).any ended && p.1 ≤ least
    let erased := (finished.takeWhile old).map Prod.snd
    s.eraseFinished least finished = .ok { s with
      finishingTxns := s.finishingTxns.filter (· ∉ erased)
      txnMap := s.txnMap.filter (· ∉ erased)
      finishedTxns := finished.dropWhile old } := by
  intro old erased
  induction finished generalizing s with
  | nil => simp [eraseFinished, erased]
  | cons p rest ih =>
    rw [eraseFinished]
    by_cases hold : old p
    · have hin : s.txnMap.contains p.2 := contains_iff_mem.mpr (hmap p mem_cons_self)
      obtain ⟨hp, hrest⟩ := nodup_cons.mp hnodup
      have hleft : ∀ q ∈ rest, q.2 ∈ s.txnMap.filter (· ≠ p.2) := by
        intro q hq
        refine mem_filter.mpr ⟨hmap q (mem_cons_of_mem _ hq), decide_eq_true ?_⟩
        intro heq
        exact hp (heq ▸ mem_map_of_mem hq)
      have htake : erased = p.2 :: (rest.takeWhile old).map Prod.snd := by
        simp only [erased, takeWhile_cons_of_pos hold, map_cons]
      have hrest := ih (s := { s with
        finishingTxns := s.finishingTxns.filter (· ≠ p.2)
        txnMap := s.txnMap.filter (· ≠ p.2) }) hleft hrest
      rw [if_pos hold, if_pos hin, hrest, htake, dropWhile_cons_of_pos hold]
      simp only [filter_ne_filter_notMem]
      rfl
    · rw [if_neg hold]
      simp [erased, takeWhile_cons_of_neg hold, dropWhile_cons_of_neg hold]

end Erase

end TxnManager

/-! ## The system -/

/-- The manager, and the time stamps that `FinishTxn` has given. -/
structure Finishing where
  mgr : TxnManager
  finishedTs : ℕ → Option ℕ

/-- The actions of transactions, and the one of the cleanup. -/
inductive FinishingAction where
  | txn (a : Action)
  | getCleanupScanTS (checkpointedTs : ℕ)

namespace Finishing

/-- The time stamps that have been given when an action is done. -/
def record (r : Finishing) : Action → ℕ → Option ℕ
  | .finishTxn i | .finishRollback i =>
    fun j => if j = i then some (r.mgr.startTs + 1) else r.finishedTs j
  | _ => r.finishedTs

/-- The state after an action. -/
def step (r : Finishing) : FinishingAction → Option Finishing
  | .txn a => (r.mgr.step a).map fun s => ⟨s, r.record a⟩
  | .getCleanupScanTS checkpointedTs =>
    some { r with mgr := (r.mgr.getCleanupScanTS checkpointedTs).2 }

/-- A manager that has just been started. -/
def start : Finishing := ⟨.start, fun _ => none⟩

end Finishing

/-- All interleavings. -/
def finishing : TransitionSystem Finishing FinishingAction where
  Initial r := r = .start
  step := Finishing.step

/-! ## The invariant -/

/-- The transaction that has finished at a time stamp is kept, or no active one began before. -/
def Kept (s : TxnManager) (i finishedTs : ℕ) : Prop :=
  i ∈ s.txnMap ∧ i ∈ s.finishingTxns ∨ ∀ j u, s.txns j = some u → u.Live → finishedTs ≤ u.beginTs

/-- What is known of a transaction that has finished at a time stamp. -/
structure Finished (s : TxnManager) (i finishedTs : ℕ) : Prop where
  txn : ∃ t, s.txns i = some t ∧
    (t.stage = .rollbacked ∨ t.stage = .committed ∧ t.committedTs = finishedTs)
  ts_le : finishedTs ≤ s.startTs
  kept : Kept s i finishedTs

/-- The invariant: what `FinishTxn` has finished is in its queue as long as it is kept. -/
structure Retained (r : Finishing) : Prop where
  life : Life r.mgr
  finished : ∀ i ts, r.finishedTs i = some ts → Finished r.mgr i ts
  queue : ∀ p ∈ r.mgr.finishedTxns, p.2 ∈ r.mgr.txnMap ∧ r.finishedTs p.2 = some p.1
  nodup : (r.mgr.finishedTxns.map Prod.snd).Nodup
  recorded : ∀ i t, r.mgr.txns i = some t → t.stage = .committed ∨ t.stage = .rollbacked →
    ∃ ts, r.finishedTs i = some ts

section Change

variable {finishedTs : ℕ → Option ℕ} {s s' : TxnManager} {i : ℕ} {t t' : Txn}

theorem Finished.ne {j ts : ℕ} (h : Finished s j ts) (ht : s.txns i = some t)
    (hc : t.stage ≠ .committed) (hr : t.stage ≠ .rollbacked) : j ≠ i := by
  rintro rfl
  obtain ⟨w, hw, hstage⟩ := h.txn
  cases ht.symm.trans hw
  exact hstage.elim hr fun hs => hc hs.1

/-- A step of another transaction. -/
theorem Change.finished (q : Change s s' i t t') (hi : s.txns i = some t) {j ts : ℕ} (hj : j ≠ i)
    (h : Finished s j ts) : Finished s' j ts := by
  obtain ⟨w, hw, hstage⟩ := h.txn
  refine ⟨⟨w, (q.other hj).trans hw, hstage⟩, h.ts_le.trans q.start_le, ?_⟩
  rcases h.kept with ⟨hmap, hfinishing⟩ | hold
  · left
    exact ⟨(q.map j hmap).resolve_right fun hji => hj hji.1, q.finishing j hfinishing⟩
  · right
    intro k u hu hlive
    rcases txns_changed q.txns hu with ⟨rfl, rfl⟩ | ⟨-, hu⟩
    · rw [q.begin_eq]
      exact hold _ _ hi (q.live hlive)
    · exact hold _ _ hu hlive

/-- A step of a transaction that does not finish it. -/
theorem Retained.change (h : Retained ⟨s, finishedTs⟩) (q : Change s s' i t t')
    (hu : Unfinished s i t) (hlife : Life s') (hqueue : s'.finishedTxns = s.finishedTxns)
    (hrecorded : ∀ j u, s'.txns j = some u → u.stage = .committed ∨ u.stage = .rollbacked →
      ∃ ts, finishedTs j = some ts) : Retained ⟨s', finishedTs⟩ := by
  have hne : ∀ {j ts : ℕ}, finishedTs j = some ts → j ≠ i :=
    fun hj => (h.finished _ _ hj).ne hu.txn hu.committed hu.rollbacked
  refine ⟨hlife, ?_, ?_, ?_, hrecorded⟩
  · intro j ts hj
    exact q.finished hu.txn (hne hj) (h.finished j ts hj)
  · intro p hp
    obtain ⟨hmap, hts⟩ := h.queue p (hqueue ▸ hp)
    exact ⟨(q.map _ hmap).resolve_right fun hpi => hne hts hpi.1, hts⟩
  · show (s'.finishedTxns.map Prod.snd).Nodup
    rw [hqueue]
    exact h.nodup

end Change

/-! ## Begin, finish and the trimming of the queues -/

section Queues

variable {finishedTs : ℕ → Option ℕ} {s s' : TxnManager} {i : ℕ} {t : Txn}

theorem Retained.beginTxn (h : Retained ⟨s, finishedTs⟩) (store : TxnStore) :
    Retained ⟨s.beginTxn store, finishedTs⟩ := by
  have hother : ∀ {j : ℕ} {u : Txn}, s.txns j = some u → (s.beginTxn store).txns j = some u := by
    intro j u hu
    have hle : j ≤ s.nextTxnId := h.life.ids j u hu
    exact (setTxn_other (by omega)).trans hu
  refine ⟨h.life.beginTxn store, ?_, ?_, h.nodup, ?_⟩
  · intro j ts hj
    obtain ⟨⟨w, hw, hstage⟩, hle, hkept⟩ := h.finished j ts hj
    refine ⟨⟨w, hother hw, hstage⟩, hle.trans (Nat.le_succ _), ?_⟩
    rcases hkept with ⟨hmap, hfinishing⟩ | hold
    · exact .inl ⟨mem_append_left _ hmap, hfinishing⟩
    · right
      intro k u hu hlive
      rcases txns_changed rfl hu with ⟨rfl, rfl⟩ | ⟨-, hu⟩
      · exact hle.trans (Nat.le_succ _)
      · exact hold k u hu hlive
  · intro p hp
    obtain ⟨hmap, hts⟩ := h.queue p hp
    exact ⟨mem_append_left _ hmap, hts⟩
  · intro j u hu hended
    rcases txns_changed rfl hu with ⟨rfl, rfl⟩ | ⟨-, hu⟩
    · rcases hended with hended | hended <;> cases hended
    · exact h.recorded j u hu hended

/-- A transaction in the map is not dropped with the null pointers. -/
theorem mem_dropNull (hmap : i ∈ s.txnMap) (hqueue : i ∈ s.beginnedTxns) :
    i ∈ s.dropNull.beginnedTxns := by
  exact mem_dropWhile_of_not hqueue (by simp [hmap])

/-- The transaction that finishes is in the queue then, once, and is kept. -/
theorem Retained.giveFinishedTs (h : Retained ⟨s, finishedTs⟩) (ht : s.txns i = some t)
    {stage : Stage}
    (hstage : t.Ends stage) :
    Retained ⟨s.giveFinishedTs i t stage, fun j =>
    if j = i then some (s.startTs + 1) else finishedTs j⟩ := by
  obtain ⟨hlive, hstamp⟩ := hstage.live
  have hended : stage = .committed ∨ stage = .rollbacked := Or.imp And.right And.right hstage
  have hok := h.life.txn i t ht
  have hmap : i ∈ s.txnMap := (hok.live hlive).1
  have hkept : i ∈ s.finishingTxns := by
    by_contra hnot
    rcases hok.erased _ hstamp hnot with hr | ⟨hc, -⟩
    · exact hlive.2.1 hr
    · exact hlive.1 hc
  have hne : ∀ {j ts : ℕ}, finishedTs j = some ts → j ≠ i :=
    fun hj => (h.finished _ _ hj).ne ht hlive.1 hlive.2.1
  refine ⟨h.life.giveFinishedTs ht hstage, ?_, ?_, ?_, ?_⟩
  · intro j ts hj
    by_cases hji : j = i
    · subst hji
      obtain rfl : s.startTs + 1 = ts := by simpa using hj
      refine ⟨⟨_, setTxn_self, ?_⟩, le_rfl, .inl ⟨hmap, hkept⟩⟩
      exact hended.symm.imp_right fun hc => ⟨hc, if_pos hc⟩
    · have hj : finishedTs j = some ts := by simpa [hji] using hj
      have hchange : Change s (s.giveFinishedTs i t stage) i t { t with
          stage := stage
          committedTs := if stage = .committed then s.startTs + 1 else t.committedTs } :=
        ⟨rfl, rfl, rfl, fun _ hk => hk, Nat.le_succ _, fun _ hk => .inl hk, rfl, fun _ => hlive⟩
      exact hchange.finished ht hji (h.finished j ts hj)
  · intro p hp
    rcases mem_append.mp hp with hp | hp
    · obtain ⟨hpmap, hts⟩ := h.queue p hp
      exact ⟨hpmap, (if_neg (hne hts)).trans hts⟩
    · rw [mem_singleton.mp hp]
      exact ⟨hmap, if_pos rfl⟩
  · show ((s.finishedTxns ++ [(s.startTs + 1, i)]).map Prod.snd).Nodup
    rw [map_append, nodup_append]
    refine ⟨h.nodup, nodup_singleton _, ?_⟩
    intro j hj k hk
    obtain ⟨p, hp, rfl⟩ := mem_map.mp hj
    rw [mem_singleton.mp hk]
    exact hne (h.queue p hp).2
  · intro j u hu huended
    rcases txns_changed rfl hu with ⟨rfl, -⟩ | ⟨hj, hu⟩
    · exact ⟨_, if_pos rfl⟩
    · obtain ⟨ts, hts⟩ := h.recorded j u hu huended
      exact ⟨ts, (if_neg hj).trans hts⟩

/-- **`FinishTxn` erases no transaction that finished after the begin of an active one.** -/
theorem Retained.forget (h : Retained ⟨s, finishedTs⟩) (commitTs : ℕ) :
    Retained ⟨s.forget commitTs, finishedTs⟩ := by
  have herased : ∀ {j ts : ℕ}, finishedTs j = some ts → j ∈ s.erasedTxns commitTs →
      ∀ k u, s.txns k = some u → u.Live → ts ≤ u.beginTs := by
    intro j ts hj hin k u hu hlive
    obtain ⟨p, hp, rfl⟩ := mem_map.mp hin
    have hold := mem_takeWhile_imp hp
    have hts := (h.queue p ((takeWhile_sublist _).mem hp)).2
    cases hts.symm.trans hj
    simp only [TxnManager.forgettable, Bool.and_eq_true, decide_eq_true_eq] at hold
    exact hold.2.trans (h.life.least_le hu hlive)
  refine ⟨h.life.forget commitTs, ?_, ?_, ?_, h.recorded⟩
  · intro j ts hj
    obtain ⟨htxn, hle, hkept⟩ := h.finished j ts hj
    refine ⟨htxn, hle, ?_⟩
    by_cases hin : j ∈ s.erasedTxns commitTs
    · exact .inr (herased hj hin)
    · refine hkept.imp_left fun hboth => ⟨?_, ?_⟩
      · exact mem_filter.mpr ⟨hboth.1, decide_eq_true hin⟩
      · exact mem_filter.mpr ⟨hboth.2, decide_eq_true hin⟩
  · intro p hp
    have hall := h.nodup
    -- what stays in the queue is none of those that go
    rw [← takeWhile_append_dropWhile (p := s.forgettable commitTs) (l := s.finishedTxns),
      map_append, nodup_append] at hall
    obtain ⟨hmap, hts⟩ := h.queue p ((dropWhile_sublist _).mem hp)
    refine ⟨mem_filter.mpr ⟨hmap, decide_eq_true fun hin => ?_⟩, hts⟩
    exact hall.2.2 _ hin _ (mem_map_of_mem hp) rfl
  · exact h.nodup.sublist ((dropWhile_sublist _).map _)

end Queues

/-! ## All actions -/

section Step

variable {finishedTs : ℕ → Option ℕ} {r r' : Finishing} {s s' : TxnManager} {i : ℕ} {t : Txn}
    {a : Action}

/-- `FinishTxn` of a transaction that writes. -/
def Action.finishes : Action → Bool
  | .finishTxn _ | .finishRollback _ => true
  | _ => false

section

variable (h : Retained ⟨s, finishedTs⟩) (ha : a.finishes = false) (hstep : s.step a = some s')
include h ha hstep

theorem Retained.recorded_step {j : ℕ} {u : Txn} (hu : s'.txns j = some u)
    (hended : u.stage = .committed ∨ u.stage = .rollbacked) : ∃ ts, finishedTs j = some ts := by
  rcases exists_moves hstep with ⟨store, -, rfl⟩ | ⟨-, rfl⟩ | ⟨i, t, t', hm⟩
  · rcases txns_changed rfl hu with ⟨-, rfl⟩ | ⟨-, hu⟩
    · rcases hended with hended | hended <;> cases hended
    · exact h.recorded j u hu hended
  · exact h.recorded j u hu hended
  · rcases txns_changed hm.txns hu with ⟨-, rfl⟩ | ⟨-, hu⟩
    · -- only the two actions of `FinishTxn` lead to these stages
      have hmoves := hm.moves
      generalize t.stage = stage at hmoves
      rcases hended with hended | hended <;> rw [hended] at hmoves <;> cases hmoves <;> cases ha
    · exact h.recorded j u hu hended

/-- The actions that do not end a transaction that writes. -/
theorem Retained.step_of_not_finishes : Retained ⟨s', finishedTs⟩ := by
  have hlife : Life s' := h.life.step hstep
  have hrecorded : ∀ j u, s'.txns j = some u → u.stage = .committed ∨ u.stage = .rollbacked →
      ∃ ts, finishedTs j = some ts := fun j u hu => h.recorded_step ha hstep hu
  have hsilent : a.silent → Retained ⟨s', finishedTs⟩ := fun hs => by
    obtain ⟨i, t, t', hs⟩ := exists_silent hs hstep
    exact h.change hs.silent.toChange hs.unfinished hlife hs.silent.finished_eq hrecorded
  cases steps_of_step hstep with
  | beginTxn _ => exact h.beginTxn _
  | delete _ _ _ =>
    obtain ⟨t, hu, -, -, -, hq⟩ := quiet_delete hstep
    exact h.change hq.toChange hu hlife hq.finished_eq hrecorded
  | @getCommitTimeStampW i t ht hstage =>
    have hu : Unfinished s i t := by
      refine ⟨ht, ?_, ?_, ?_, ?_⟩ <;> simp [hstage]
    have hlive : t.Live := by simp [Txn.Live, hstage]
    exact h.change (t := t) ⟨rfl, rfl, rfl, fun j hj => mem_append_left _ hj, Nat.le_succ _,
      fun _ hj => .inl hj, rfl, fun _ => hlive⟩ hu hlife rfl hrecorded
  | commitBottom _ _ _ _ | fails _ _ _ _ =>
    obtain ⟨i, rest, t, -, hu, -, ⟨deleted, -, -, hq⟩ | ⟨-, heq⟩⟩ := quiet_commitBottom hstep
    · exact h.change hq.toChange hu hlife hq.finished_eq hrecorded
    · rw [heq] at hlife ⊢
      exact { h with life := hlife, finished := fun j ts hj => { h.finished j ts hj with } }
  | finishTxn _ _ | finishRollback _ _ => cases ha
  | _ => exact hsilent rfl

end

/-- Null pointers in front of the begun transactions do not matter. -/
theorem Life.dropNull (h : Life s) : Life s.dropNull := by
  have hsub : s.dropNull.beginnedTxns.Sublist s.beginnedTxns := dropWhile_sublist _
  refine ⟨h.ids, ?_, h.distinct, ?_, h.queue.sublist hsub, h.finished⟩
  · intro j u hu
    have hok := h.txn j u hu
    exact { hok with
      live := fun hl => ⟨(hok.live hl).1, mem_dropNull (hok.live hl).1 (hok.live hl).2⟩ }
  · exact fun j hj => h.queue_ids j (hsub.mem hj)

theorem Retained.dropNull (h : Retained ⟨s, finishedTs⟩) : Retained ⟨s.dropNull, finishedTs⟩ :=
  { h with life := h.life.dropNull, finished := fun j ts hj => { h.finished j ts hj with } }

/-- **Every action keeps the retention.** -/
theorem Retained.step (h : Retained r) {b : FinishingAction} (hstep : r.step b = some r') :
    Retained r' := by
  cases b with
  | getCleanupScanTS checkpointedTs =>
    cases hstep
    exact h.dropNull
  | txn a =>
    obtain ⟨s', hs', rfl⟩ := Option.map_eq_some_iff.mp hstep
    cases ha : a.finishes with
    | false =>
      have hrecord : r.record a = r.finishedTs := by
        cases a <;> first | rfl | cases ha
      rw [hrecord]
      exact h.step_of_not_finishes ha hs'
    | true =>
      cases steps_of_step hs' with
      | finishTxn ht hstage => exact (h.giveFinishedTs ht (.inl ⟨hstage, rfl⟩)).forget _
      | finishRollback ht hstage => exact (h.giveFinishedTs ht (.inr ⟨hstage, rfl⟩)).forget _
      | _ => cases ha

theorem Retained.of_reachable (h : finishing.Reachable r) : Retained r := by
  refine h.invariant (fun r hr => ?_) fun r b r' hinv hstep => hinv.step hstep
  rw [show r = .start from hr]
  exact ⟨Life.start, nofun, nofun, .nil, nofun⟩

/-- **`FinishTxn` finds every transaction that it erases in `txn_map_`.** -/
theorem Retained.finishTxnChecked_eq (h : Retained ⟨s, finishedTs⟩) (ht : s.txns i = some t)
    {stage : Stage} (hstage : t.Ends stage) :
    s.finishTxnChecked i t stage = .ok (s.finishTxn i t stage) := by
  have hfinished := h.giveFinishedTs ht hstage
  exact TxnManager.eraseFinished_eq _ (fun p hp => (hfinished.queue p hp).1) hfinished.nodup

/-- `first_uncommitted_begin_ts` is at most the begin of every live transaction. -/
theorem Life.firstUncommittedBeginTs_le (h : Life s) (ht : s.txns i = some t) (hlive : t.Live) :
    s.firstUncommittedBeginTs ≤ t.beginTs := by
  have hmem := (h.dropNull.txn i t ht).live hlive
  have hqueue : s.dropNull.beginnedTxns.Sublist s.beginnedTxns := dropWhile_sublist _
  unfold TxnManager.firstUncommittedBeginTs
  cases hleft : s.dropNull.beginnedTxns with
  | nil =>
    rw [hleft] at hmem
    exact absurd hmem.2 not_mem_nil
  | cons j rest => exact h.head_le (hleft ▸ hqueue) (hleft ▸ hmem.2) ht

theorem Life.firstUncommittedBeginTs_le_startTs (h : Life s) :
    s.firstUncommittedBeginTs ≤ s.startTs := by
  unfold TxnManager.firstUncommittedBeginTs
  split
  next => exact le_rfl
  next j rest hleft =>
    cases hj : s.txns j with
    | none => exact Nat.zero_le _
    | some u => exact (h.txn j u hj).begin_le

end Step

/-! ## What is retained -/

/-- Finished transactions are kept as long as they matter. -/
structure KeepsFinished (r : Finishing) : Prop where
  recorded : ∀ i t, r.mgr.txns i = some t → t.stage = .committed ∨ t.stage = .rollbacked →
    ∃ ts, r.finishedTs i = some ts ∧ (t.stage = .committed → t.committedTs = ts)
  kept : ∀ i ts j u, r.finishedTs i = some ts → r.mgr.txns j = some u → u.Live → u.beginTs < ts →
    i ∈ r.mgr.txnMap ∧ i ∈ r.mgr.finishingTxns
  missing : ∀ i t beginTs, r.mgr.txns i = some t → i ∉ r.mgr.txnMap →
    r.mgr.checkIfCommitting i beginTs = true ∧ (t.stage = .gone ∨
      (t.stage = .committed ∨ t.stage = .rollbacked) ∧ ∃ ts, r.finishedTs i = some ts ∧
        (t.stage = .committed → t.committedTs = ts) ∧ ∀ j u, r.mgr.txns j = some u → u.Live →
        ts ≤ u.beginTs)
  found : ∀ i t, r.mgr.txns i = some t →
    (t.stage = .bottomed → r.mgr.finishTxnChecked i t .committed =
    .ok (r.mgr.finishTxn i t .committed)) ∧
    (t.stage = .rollbacking → r.mgr.finishTxnChecked i t .rollbacked =
    .ok (r.mgr.finishTxn i t .rollbacked))
  cleanup : ∀ checkpointedTs j u, r.mgr.txns j = some u → u.Live →
    (r.mgr.getCleanupScanTS checkpointedTs).1 ≤ u.beginTs

section Reachable

variable {r : Finishing} {i : ℕ} {t : Txn}

theorem Retained.recorded_eq (h : Retained r) (ht : r.mgr.txns i = some t)
    (hended : t.stage = .committed ∨ t.stage = .rollbacked) :
    ∃ ts, r.finishedTs i = some ts ∧ (t.stage = .committed → t.committedTs = ts) := by
  obtain ⟨ts, hts⟩ := h.recorded i t ht hended
  refine ⟨ts, hts, fun hc => ?_⟩
  obtain ⟨w, hw, hstage⟩ := (h.finished i ts hts).txn
  cases ht.symm.trans hw
  rcases hstage with hr | ⟨-, heq⟩
  · cases hc.symm.trans hr
  · exact heq

theorem Retained.missing (h : Retained r) (ht : r.mgr.txns i = some t)
    (hmap : i ∉ r.mgr.txnMap) : t.stage = .gone ∨
      (t.stage = .committed ∨ t.stage = .rollbacked) ∧ ∃ ts, r.finishedTs i = some ts ∧
        (t.stage = .committed → t.committedTs = ts) ∧ ∀ j u, r.mgr.txns j = some u → u.Live →
        ts ≤ u.beginTs := by
  refine ((h.life.txn i t ht).unmapped hmap).imp_right fun hpast => ?_
  have hended : t.stage = .committed ∨ t.stage = .rollbacked := hpast.symm.imp_left And.left
  obtain ⟨ts, hts, heq⟩ := h.recorded_eq ht hended
  refine ⟨hended, ts, hts, heq, ?_⟩
  rcases (h.finished i ts hts).kept with ⟨hin, -⟩ | hold
  · exact absurd hin hmap
  · exact hold

/-- **Finished transactions are kept as long as they matter.** -/
theorem Retained.keepsFinished (h : Retained r) : KeepsFinished r := by
  refine ⟨fun i t => h.recorded_eq, ?_, ?_, ?_, ?_⟩
  · intro i ts j u hts hu hlive hlt
    rcases (h.finished i ts hts).kept with hkept | hold
    · exact hkept
    · exact absurd (hold j u hu hlive) (not_le_of_gt hlt)
  · intro i t beginTs ht hmap
    refine ⟨?_, h.missing ht hmap⟩
    simp [TxnManager.checkIfCommitting, hmap]
  · intro i t ht
    exact ⟨fun hs => h.finishTxnChecked_eq ht (.inl ⟨hs, rfl⟩), fun hs =>
      h.finishTxnChecked_eq ht (.inr ⟨hs, rfl⟩)⟩
  · intro checkpointedTs j u hu hlive
    exact (min_le_left _ _).trans (h.life.firstUncommittedBeginTs_le hu hlive)

end Reachable

/-! ## Runs in which what is missing has committed -/

instance (t : Txn) : Decidable t.Live := inferInstanceAs (Decidable (_ ∧ _))

/-- No transaction that was rolled back is finished, and a read-only one only when no active
transaction began before its commit. -/
def Finishing.leavesCommitted (r : Finishing) : FinishingAction → Bool
  | .txn (.finishRollback _) => false
  | .txn (.finishRead i) => (r.mgr.txns i).all fun t => t.stage = .readCommitted &&
      r.mgr.txnMap.all fun j => (r.mgr.txns j).all fun u => u.Live → t.committedTs ≤ u.beginTs
  | _ => true

/-- The transactions that take the path of readers have committed, and left after the last one that
was active at their commit. -/
structure Leaves (s : TxnManager) (t : Txn) : Prop where
  rollbacked : t.stage ≠ .rollbacked
  readCommitted : t.stage = .readCommitted → t.committedTs ≠ 0 ∧ t.committedTs ≤ s.startTs
  gone : t.stage = .gone → t.committedTs ≠ 0 ∧ t.committedTs ≤ s.startTs ∧
    ∀ j u, s.txns j = some u → u.Live → t.committedTs ≤ u.beginTs

section Leaves

variable {s s' : TxnManager} {a : Action} {r : Finishing} {i : ℕ} {t : Txn}

/-- Transactions that begin later do not matter. -/
theorem Leaves.of_step (h : Leaves s t) (hstep : s.step a = some s') : Leaves s' t := by
  have hstart := startTs_le_of_step hstep
  refine ⟨h.rollbacked, fun hr => (h.readCommitted hr).imp_right fun hle => hle.trans hstart,
    fun hg => ?_⟩
  obtain ⟨hne, hle, hall⟩ := h.gone hg
  refine ⟨hne, hle.trans hstart, fun j u hu hlive => ?_⟩
  rcases live_of_step hstep hu hlive with ⟨w, hw, hwlive, hbegin⟩ | ⟨-, -, hbegin⟩
  · rw [← hbegin]
    exact hall j w hw hwlive
  · rw [hbegin]
    omega

/-- A reader that has committed leaves when no active transaction began before its commit. -/
theorem Leaves.finishRead (h : Leaves r.mgr t) (hlife : Life r.mgr) (ht : r.mgr.txns i = some t)
    (hok : r.leavesCommitted (.txn (.finishRead i)))
    (hstep : r.mgr.step (.finishRead i) = some s') : Leaves s' { t with stage := .gone } := by
  rw [Finishing.leavesCommitted, ht] at hok
  simp only [Option.all_some, Bool.and_eq_true, decide_eq_true_eq, all_eq_true] at hok
  obtain ⟨hstage, hall⟩ := hok
  obtain ⟨hne, hle⟩ := h.readCommitted hstage
  have hbegan : ∀ j u, r.mgr.txns j = some u → u.Live → t.committedTs ≤ u.beginTs := by
    intro j u hu hlive
    have hj := hall j ((hlife.txn j u hu).live hlive).1
    rw [hu] at hj
    exact of_decide_eq_true hj hlive
  have hleaves : Leaves r.mgr { t with stage := .gone } :=
    ⟨nofun, nofun, fun _ => ⟨hne, hle, hbegan⟩⟩
  exact hleaves.of_step hstep

theorem leaves_step (h : ∀ i t, r.mgr.txns i = some t → Leaves r.mgr t) (hlife : Life r.mgr)
    (hok : r.leavesCommitted (.txn a)) (hstep : r.mgr.step a = some s')
    (ht : s'.txns i = some t) : Leaves s' t := by
  cases steps_of_step hstep with
  | fails _ _ _ _ => exact (h i t ht).of_step hstep
  | finishRollback _ _ => cases hok
  | finishRead hj _ =>
    rcases txns_changed rfl ht with ⟨rfl, rfl⟩ | ⟨-, hold⟩
    · exact (h _ _ hj).finishRead hlife hj hok hstep
    · exact (h i t hold).of_step hstep
  | commitRead _ _ =>
    rcases txns_changed rfl ht with ⟨rfl, rfl⟩ | ⟨-, hold⟩
    · exact ⟨nofun, fun _ => ⟨Nat.succ_ne_zero _, le_rfl⟩, nofun⟩
    · exact (h i t hold).of_step hstep
  | delete hj _ _ =>
    rcases txns_changed rfl ht with ⟨rfl, rfl⟩ | ⟨-, hold⟩
    · obtain ⟨hr, hc, hg⟩ := (h _ _ hj).of_step hstep
      exact ⟨hr, hc, hg⟩
    · exact (h i t hold).of_step hstep
  | _ =>
    rcases txns_changed rfl ht with ⟨rfl, rfl⟩ | ⟨-, hold⟩
    · exact ⟨nofun, nofun, nofun⟩
    · exact (h i t hold).of_step hstep

/-- The runs in which only what has committed becomes missing. -/
def leavingCommitted : TransitionSystem Finishing FinishingAction :=
  finishing.restrict fun r a => r.leavesCommitted a = true

/-- The invariant of these runs. -/
structure RetainedCommitted (r : Finishing) : Prop where
  retained : Retained r
  leaves : ∀ i t, r.mgr.txns i = some t → Leaves r.mgr t

theorem RetainedCommitted.of_reachable (hr : leavingCommitted.Reachable r) :
    RetainedCommitted r := by
  refine hr.invariant (fun r hr => ?_) fun r b r' hinv hstep => ?_
  · refine ⟨.of_reachable (.initial hr), fun i t ht => ?_⟩
    rw [show r = .start from hr] at ht
    cases ht
  · obtain ⟨hok, hstep⟩ := TransitionSystem.restrict_step_eq_some.mp hstep
    refine ⟨hinv.retained.step hstep, fun i t ht => ?_⟩
    cases b with
    | getCleanupScanTS checkpointedTs =>
      cases hstep
      obtain ⟨hrollbacked, hread, hgone⟩ := hinv.leaves i t ht
      exact ⟨hrollbacked, hread, hgone⟩
    | txn a =>
      obtain ⟨s', hs', rfl⟩ := Option.map_eq_some_iff.mp hstep
      exact leaves_step hinv.leaves hinv.retained.life hok hs' ht

/-- **Where no finished transaction was rolled back and readers outlast what was active at their
commit, a missing transaction has committed before every active one began**, and finished
transactions are kept as long as they matter. -/
theorem missingCommitted_of_reachable (hr : leavingCommitted.Reachable r) :
    KeepsFinished r ∧ r.mgr.MissingCommitted := by
  obtain ⟨hretained, hleaves⟩ := RetainedCommitted.of_reachable hr
  refine ⟨hretained.keepsFinished, fun i t _ ht hmap _ => ?_⟩
  rcases hretained.missing ht hmap with hgone | ⟨hended, ts, -, hts, hall⟩
  · obtain ⟨hne, -, hall⟩ := (hleaves i t ht).gone hgone
    exact ⟨hne, hall⟩
  · have hcommitted := hended.resolve_right (hleaves i t ht).rollbacked
    have hlt := ((hretained.life.txn i t ht).committed_le hcommitted).1
    rw [hts hcommitted]
    exact ⟨by have := hts hcommitted; omega, hall⟩

end Leaves

/-! ## Two runs -/

/-- A transaction deletes a row and commits while another one is active. -/
def keptRun : List FinishingAction :=
  ([.beginTxn ⟨∅, []⟩, .beginTxn ⟨∅, []⟩, .delete 1 someRow, .delete 2 someRow,
    .getCommitTimeStampW 1, .setTxnCommitting 1, .prepareCommit1 1, .checkConflict 1, .sendToWAL 1,
    .commitBottom, .finishTxn 1] : List Action).map .txn

/-- The other one has deleted the same row, and is rolled back. -/
def rollbackRun : List FinishingAction :=
  keptRun ++ ([.getCommitTimeStampW 2, .setTxnCommitting 2, .prepareCommit1 2, .checkConflict 2,
    .sendToWAL 2, .rollback 2, .finishRollback 2] : List Action).map .txn

/-- A transaction deletes a row and commits, a reader commits, and a third one begins. -/
def committedRun : List FinishingAction :=
  ([.beginTxn ⟨∅, []⟩, .delete 1 someRow, .getCommitTimeStampW 1, .setTxnCommitting 1,
    .prepareCommit1 1, .checkConflict 1, .sendToWAL 1, .commitBottom, .finishTxn 1,
    .beginTxn ⟨∅, []⟩, .commitRead 2, .finishRead 2, .beginTxn ⟨∅, []⟩] : List Action).map .txn

/-- Both transactions that have finished are missing, and have committed before the third one
began. -/
theorem missingCommitted_committedRun : ∃ r u, leavingCommitted.run .start committedRun = some r ∧
    r.mgr.txnMap = [3] ∧ r.finishedTs 1 = some 3 ∧ r.mgr.txns 3 = some u ∧ u.Live ∧ u.beginTs = 6 ∧
    KeepsFinished r ∧ r.mgr.MissingCommitted :=
  ⟨_, _, rfl, rfl, rfl, rfl, ⟨nofun, nofun, nofun, nofun⟩, rfl,
    missingCommitted_of_reachable (.of_run committedRun (.initial rfl) rfl)⟩

/-- The transaction that was rolled back is missing then, and taken for one that has committed. -/
theorem not_missingCommitted_rollback : ∃ r t, finishing.Reachable r ∧
    finishing.run .start rollbackRun = some r ∧ r.mgr.txns 2 = some t ∧ t.stage = .rollbacked ∧
    r.mgr.txnMap = [] ∧ (∀ beginTs, r.mgr.checkIfCommitting 2 beginTs = true) ∧
    ¬ r.mgr.MissingCommitted := by
  refine ⟨_, _, .of_run rollbackRun (.initial rfl) rfl, rfl, rfl, rfl, rfl, fun _ =>
    rfl, fun h => ?_⟩
  exact (h 2 _ 0 rfl not_mem_nil rfl).1 rfl

end Infinity.Transactions
