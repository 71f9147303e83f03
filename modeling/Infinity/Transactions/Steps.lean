import Infinity.Transactions.TxnManager

/-! # What the actions of transactions do

An action changes one transaction. Most actions only bring it to another stage, and everything that
the other modules need of them is said here once.

* `TxnManager.Steps`, `steps_of_step`: the actions by what they ask of the transaction.
* `Change`: no other transaction changes.
* `Quiet`: the time stamps and the lists of finishing and finished transactions stay too.
* `Silent`: neither do the rows and the delete marks change.
* `exists_silent`, `quiet_delete`, `quiet_commitBottom`: which actions are which.
* `Moves`, `exists_moves`: the stages that an action leads from and to.
* `txn_of_step`, `live_of_step`, `stamp_of_step`, `startTs_le_of_step`: what transactions and time
  keep. -/

namespace Infinity.Transactions

open Option TxnManager

/-! ## Transactions -/

namespace Txn

def stamp (t : Txn) : Option ℕ :=
  match t.stage with
  | .running | .readCommitted | .aborted | .gone => none
  | .stamped ts => some ts
  | _ => some t.commitTs

def Dead (t : Txn) : Prop :=
  t.stage = .conflicted ∨ t.stage = .rejected ∨ t.stage = .rollbacking ∨ t.stage = .rollbacked

def Live (t : Txn) : Prop :=
  t.stage ≠ .committed ∧ t.stage ≠ .rollbacked ∧ t.stage ≠ .readCommitted ∧ t.stage ≠ .gone

def Applied (t : Txn) : Prop := t.stage = .bottomed ∨ t.stage = .committed

variable {t : Txn}

theorem Applied.commits (h : t.Applied) : t.Commits := by
  rcases h with h | h <;> simp [Txn.Commits, h]

theorem Commits.stamp_eq (h : t.Commits) : t.stamp = some t.commitTs := by
  rcases h with h | h | h | h <;> simp [Txn.stamp, h]

theorem Commits.not_dead (h : t.Commits) : ¬ t.Dead := by
  rcases h with h | h | h | h <;> simp [Txn.Dead, h]

theorem Live.not_ended (h : t.Live) : ended t = false := by
  obtain ⟨h1, h2, h3, h4⟩ := h
  cases hs : t.stage <;> simp_all [ended, Stage.state]

end Txn

/-! ## Kinds of steps -/

section Change

variable {s s' : TxnManager} {i : ℕ} {t t' : Txn} {j : ℕ}

/-- The transactions after a change of one. -/
theorem txns_changed (htxns : s'.txns = (s.setTxn i t').txns) {u : Txn}
    (h : s'.txns j = some u) : j = i ∧ u = t' ∨ j ≠ i ∧ s.txns j = some u := by
  rw [htxns] at h
  by_cases hj : j = i
  · subst hj
    left
    refine ⟨rfl, ?_⟩
    simpa [setTxn] using h.symm
  · right
    refine ⟨hj, ?_⟩
    simpa [setTxn, hj] using h

theorem setTxn_self : (s.setTxn i t).txns i = some t := if_pos rfl

theorem setTxn_other {i : ℕ} (hj : j ≠ i) : (s.setTxn i t).txns j = s.txns j := if_neg hj

/-- A step of one transaction: no other one changes, and it does not come to life. -/
structure Change (s s' : TxnManager) (i : ℕ) (t t' : Txn) : Prop where
  txns : s'.txns = (s.setTxn i t').txns
  next : s'.nextTxnId = s.nextTxnId
  beginned : s'.beginnedTxns = s.beginnedTxns
  finishing : ∀ j ∈ s.finishingTxns, j ∈ s'.finishingTxns
  start_le : s.startTs ≤ s'.startTs
  map : ∀ j ∈ s.txnMap, j ∈ s'.txnMap ∨ j = i ∧ t'.stage = .gone
  begin_eq : t'.beginTs = t.beginTs
  live : t'.Live → t.Live

namespace Change

theorem other (q : Change s s' i t t') (hj : j ≠ i) : s'.txns j = s.txns j := by
  rw [q.txns, setTxn_other hj]

end Change

/-- The transaction is none of those that have their deletes applied or have ended. -/
structure Unfinished (s : TxnManager) (i : ℕ) (t : Txn) : Prop where
  txn : s.txns i = some t
  committed : t.stage ≠ .committed
  rollbacked : t.stage ≠ .rollbacked
  bottomed : t.stage ≠ .bottomed
  gone : t.stage ≠ .gone

theorem Unfinished.not_applied (hu : Unfinished s i t) : ¬ t.Applied := by
  rintro (hb | hb)
  · exact hu.bottomed hb
  · exact hu.committed hb

/-- A step that keeps the time stamps and ends no transaction that has one. -/
structure Quiet (s s' : TxnManager) (i : ℕ) (t t' : Txn) : Prop extends Change s s' i t t' where
  finishing_eq : s'.finishingTxns = s.finishingTxns
  finished_eq : s'.finishedTxns = s.finishedTxns
  stamp_eq : t'.stamp = t.stamp
  committed : t'.stage ≠ .committed

/-- A step that also keeps the rows of the transaction and the delete marks. -/
structure Silent (s s' : TxnManager) (i : ℕ) (t t' : Txn) : Prop extends Quiet s s' i t t' where
  deleted_eq : s'.deleted = s.deleted
  failed_eq : s'.failed = s.failed
  store_eq : t'.store = t.store
  bottomed : t'.stage ≠ .bottomed
  dead : t.Dead → t'.Dead

theorem Silent.not_applied (q : Silent s s' i t t') : ¬ t'.Applied := by
  rintro (hb | hb)
  · exact q.bottomed hb
  · exact q.committed hb

end Change

/-! ## Actions -/

section Actions

variable {s s' : TxnManager} {i : ℕ} {a : Action}

theorem atStage_eq_some {stage : Stage} {f : Txn → Option TxnManager}
    (h : s.atStage i stage f = some s') : ∃ t, s.txns i = some t ∧ t.stage = stage ∧
    f t = some s' := by
  obtain ⟨t, ht, hf⟩ := bind_eq_some_iff.mp h
  obtain ⟨hstage, hf⟩ := ite_none_right_eq_some.mp hf
  exact ⟨t, ht, hstage, hf⟩

/-- What the actions need, and what they do. -/
inductive TxnManager.Steps (s : TxnManager) : Action → TxnManager → Prop where
  | beginTxn {store} : store.rowList = [] → s.Steps (.beginTxn store) (s.beginTxn store)
  | delete {i t r} : s.txns i = some t → t.stage = .running → s.Visible t r →
      s.Steps (.delete i r) (s.setTxn i { t with store := t.store.delete r })
  | commitRead {i t} : s.txns i = some t → t.stage = .running → s.Steps (.commitRead i)
      { s.setTxn i { t with
          commitTs := s.startTs + 1
          committedTs := s.startTs + 1
          stage := .readCommitted } with
        startTs := s.startTs + 1 }
  | abort {i t} : s.txns i = some t → t.stage = .running → s.Steps (.abort i)
      { s.setTxn i { t with commitTs := s.startTs + 1, stage := .aborted } with
        startTs := s.startTs + 1 }
  | finishRead {i t} : s.txns i = some t → t.stage = .readCommitted ∨ t.stage = .aborted →
      s.Steps (.finishRead i)
        { s.setTxn i { t with stage := .gone } with txnMap := s.txnMap.filter (· ≠ i) }
  | getCommitTimeStampW {i t} : s.txns i = some t → t.stage = .running →
      s.Steps (.getCommitTimeStampW i)
      { s.setTxn i { t with stage := .stamped (s.startTs + 1) } with
        startTs := s.startTs + 1
        waitConflictCk := s.waitConflictCk ++ [(s.startTs + 1, none)]
        finishingTxns := s.finishingTxns ++ [i] }
  | setTxnCommitting {i t ts} : s.txns i = some t → t.stage = .stamped ts →
      s.Steps (.setTxnCommitting i) (s.setTxn i { t with commitTs := ts, stage := .committing })
  | prepareCommit1 {i t} : s.txns i = some t → t.stage = .committing →
      s.Steps (.prepareCommit1 i) (s.setTxn i { t with stage := .prepared })
  | passes {i t} : s.txns i = some t → t.stage = .prepared → s.checkConflict t = false →
      s.Steps (.checkConflict i) (s.setTxn i { t with stage := .passed })
  | conflicts {i t} : s.txns i = some t → t.stage = .prepared → s.checkConflict t = true →
      s.Steps (.checkConflict i) (s.setTxn i { t with stage := .conflicted })
  | sends {i t waiting flush} : s.txns i = some t → t.stage = .passed →
      s.sendToWAL t.commitTs (some i) =
      some { s with waitConflictCk := waiting, waitFlush := flush } →
      s.Steps (.sendToWAL i) { s.setTxn i { t with stage := .sent } with
        waitConflictCk := waiting, waitFlush := flush }
  | rejects {i t waiting flush} : s.txns i = some t → t.stage = .conflicted →
      s.sendToWAL t.commitTs none = some { s with waitConflictCk := waiting, waitFlush := flush } →
      s.Steps (.sendToWAL i) { s.setTxn i { t with stage := .rejected } with
        waitConflictCk := waiting, waitFlush := flush }
  | commitBottom {i rest t deleted} : s.waitFlush = i :: rest → s.txns i = some t →
      t.stage = .sent →
      deleteData t.commitTs s.deleted t.store.rowList = some deleted → s.Steps .commitBottom
        { s.setTxn i { t with stage := .bottomed } with waitFlush := rest, deleted := deleted }
  | fails {i rest t} : s.waitFlush = i :: rest → s.txns i = some t → t.stage = .sent →
      deleteData t.commitTs s.deleted t.store.rowList = none →
      s.Steps .commitBottom { s with failed := true }
  | finishTxn {i t} : s.txns i = some t → t.stage = .bottomed →
      s.Steps (.finishTxn i) (s.finishTxn i t .committed)
  | rollback {i t} : s.txns i = some t → t.stage = .rejected →
      s.Steps (.rollback i) (s.setTxn i { t with stage := .rollbacking })
  | finishRollback {i t} : s.txns i = some t → t.stage = .rollbacking →
      s.Steps (.finishRollback i) (s.finishTxn i t .rollbacked)

theorem sendToWAL_eq_some {ts : ℕ} {entry : Option ℕ} {w : TxnManager}
    (hw : s.sendToWAL ts entry = some w) :
    ∃ waiting flush, w = { s with waitConflictCk := waiting, waitFlush := flush } := by
  obtain ⟨-, hw⟩ := ite_none_right_eq_some.mp hw
  cases hw
  exact ⟨_, _, rfl⟩

theorem steps_of_step (hstep : s.step a = some s') : s.Steps a s' := by
  cases a with
  | beginTxn store =>
    obtain ⟨hstore, ⟨⟩⟩ := ite_none_right_eq_some.mp hstep
    exact .beginTxn hstore
  | delete i r =>
    obtain ⟨t, ht, hstage, heq⟩ := atStage_eq_some hstep
    obtain ⟨hvisible, heq⟩ := ite_none_right_eq_some.mp heq
    cases heq
    exact .delete ht hstage hvisible
  | commitRead i =>
    obtain ⟨t, ht, hstage, heq⟩ := atStage_eq_some hstep
    obtain ⟨-, heq⟩ := ite_none_right_eq_some.mp heq
    cases heq
    exact .commitRead ht hstage
  | finishRead i =>
    obtain ⟨t, ht, heq⟩ := bind_eq_some_iff.mp hstep
    obtain ⟨hstage, heq⟩ := ite_none_right_eq_some.mp heq
    cases heq
    exact .finishRead ht hstage
  | setTxnCommitting i =>
    obtain ⟨t, ht, heq⟩ := bind_eq_some_iff.mp hstep
    split at heq <;> cases heq
    next ts hstage => exact .setTxnCommitting ht hstage
  | checkConflict i =>
    obtain ⟨t, ht, hstage, ⟨⟩⟩ := atStage_eq_some hstep
    cases hcheck : s.checkConflict t with
    | true => exact .conflicts ht hstage hcheck
    | false => exact .passes ht hstage hcheck
  | sendToWAL i =>
    obtain ⟨t, ht, heq⟩ := bind_eq_some_iff.mp hstep
    split at heq
    case h_3 => cases heq
    all_goals
      obtain ⟨w, hw, rfl⟩ := map_eq_some_iff.mp heq
      obtain ⟨waiting, flush, rfl⟩ := sendToWAL_eq_some hw
    case h_1 hstage => exact .sends ht hstage hw
    case h_2 hstage => exact .rejects ht hstage hw
  | commitBottom =>
    simp only [step] at hstep
    split at hstep
    case h_1 => cases hstep
    case h_2 i rest hqueue =>
      obtain ⟨t, ht, hstage, heq⟩ := atStage_eq_some hstep
      split at heq <;> cases heq
      next deleted hdeleted => exact .commitBottom hqueue ht hstage hdeleted
      next hnone => exact .fails hqueue ht hstage hnone
  | abort i | getCommitTimeStampW i | prepareCommit1 i | finishTxn i | rollback i
  | finishRollback i =>
    obtain ⟨t, ht, hstage, ⟨⟩⟩ := atStage_eq_some hstep
    constructor <;> assumption

/-- What a silent action does. Only the conflict check lets a transaction commit. -/
structure Silently (s : TxnManager) (a : Action) (s' : TxnManager) (i : ℕ) (t t' : Txn) : Prop where
  unfinished : Unfinished s i t
  silent : Silent s s' i t t'
  commits : t'.Commits → t.Commits ∨ a = .checkConflict i ∧ t.stage = .prepared ∧
    s.checkConflict t = false

def Action.silent : Action → Bool
  | .commitRead _ | .abort _ | .finishRead _ | .setTxnCommitting _ | .prepareCommit1 _
  | .checkConflict _ | .sendToWAL _ | .rollback _ => true
  | _ => false

theorem exists_silent (ha : a.silent) (hstep : s.step a = some s') :
    ∃ i t t', Silently s a s' i t t' := by
  cases steps_of_step hstep with
  | beginTxn _ | delete _ _ _ | getCommitTimeStampW _ _ | commitBottom _ _ _ _ | fails _ _ _ _
  | finishTxn _ _ | finishRollback _ _ => cases ha
  | @finishRead i t ht hstage =>
    refine ⟨i, t, _, ⟨ht, ?_, ?_, ?_, ?_⟩,
      ⟨⟨⟨rfl, rfl, rfl, fun _ hj => hj, le_rfl, fun j hj => ?_, rfl,
      ?_⟩, rfl, rfl, ?_, nofun⟩, rfl, rfl, rfl, nofun, ?_⟩, ?_⟩
    case refine_5 =>
      by_cases hji : j = i
      · exact .inr ⟨hji, rfl⟩
      · exact .inl (List.mem_filter.mpr ⟨hj, decide_eq_true hji⟩)
    all_goals rcases hstage with hstage | hstage <;>
      simp [hstage, Txn.stamp, Txn.Live, Txn.Dead, Txn.Commits]
  | commitRead ht hstage | abort ht hstage | setTxnCommitting ht hstage | prepareCommit1 ht hstage
  | passes ht hstage hcheck | conflicts ht hstage hcheck | sends ht hstage hw | rejects ht hstage hw
  | rollback ht hstage =>
    refine ⟨_, _, _, ⟨ht, ?_, ?_, ?_, ?_⟩,
      ⟨⟨⟨rfl, rfl, rfl, fun _ hj => hj, ?_, fun _ hj => .inl hj, rfl,
      ?_⟩, rfl, rfl, ?_, nofun⟩, rfl, rfl, rfl, nofun, ?_⟩, ?_⟩
    all_goals simp_all [Txn.stamp, Txn.Live, Txn.Dead, Txn.Commits, setTxn]

/-- A delete adds a visible row to the store of a running transaction. -/
theorem quiet_delete {r : Row} (hstep : s.step (.delete i r) = some s') :
    ∃ t, Unfinished s i t ∧ t.stage = .running ∧ s.Visible t r ∧
      s' = s.setTxn i { t with store := t.store.delete r } ∧
      Quiet s s' i t { t with store := t.store.delete r } := by
  cases steps_of_step hstep with
  | @delete _ t _ ht hstage hvisible =>
    refine ⟨t, ⟨ht, ?_, ?_, ?_, ?_⟩, hstage, hvisible, rfl,
      ⟨rfl, rfl, rfl, fun _ hj => hj, le_rfl, fun _ hj => .inl hj, rfl, fun hl => hl⟩, rfl, rfl,
      ?_, ?_⟩
    all_goals simp [Txn.stamp, hstage]

/-- The bottom half of a commit applies the deletes of the first transaction in the queue, or
`DeleteData` fails. -/
theorem quiet_commitBottom (hstep : s.step .commitBottom = some s') :
    ∃ i rest t, s.waitFlush = i :: rest ∧ Unfinished s i t ∧ t.stage = .sent ∧
      ((∃ deleted, deleteData t.commitTs s.deleted t.store.rowList = some deleted ∧
        s' = { s.setTxn i { t with stage := .bottomed } with waitFlush := rest, deleted :=
        deleted } ∧ Quiet s s' i t { t with stage := .bottomed }) ∨
      deleteData t.commitTs s.deleted t.store.rowList = none ∧ s' = { s with failed := true }) := by
  cases steps_of_step hstep with
  | commitBottom hqueue ht hstage hdeleted =>
    refine ⟨_, _, _, hqueue, ⟨ht, ?_, ?_, ?_, ?_⟩, hstage, .inl ⟨_, hdeleted, rfl, ⟨rfl, rfl, rfl,
      fun _ hj => hj, le_rfl, fun _ hj => .inl hj, rfl, fun _ => ?_⟩, rfl, rfl, ?_, nofun⟩⟩
    all_goals simp [Txn.Live, Txn.stamp, hstage]
  | fails hqueue ht hstage hnone =>
    refine ⟨_, _, _, hqueue, ⟨ht, ?_, ?_, ?_, ?_⟩, hstage, .inr ⟨hnone, rfl⟩⟩
    all_goals simp [hstage]

end Actions

/-! ## Stages -/

/-- The stages that an action of a transaction leads from and to. -/
inductive Moves : Action → ℕ → Stage → Stage → Prop where
  | delete {i r} : Moves (.delete i r) i .running .running
  | commitRead {i} : Moves (.commitRead i) i .running .readCommitted
  | abort {i} : Moves (.abort i) i .running .aborted
  | finishRead {i} {a : Stage} : a = .readCommitted ∨ a = .aborted → Moves (.finishRead i) i a .gone
  | getCommitTimeStampW {i ts} : Moves (.getCommitTimeStampW i) i .running (.stamped ts)
  | setTxnCommitting {i ts} : Moves (.setTxnCommitting i) i (.stamped ts) .committing
  | prepareCommit1 {i} : Moves (.prepareCommit1 i) i .committing .prepared
  | passes {i} : Moves (.checkConflict i) i .prepared .passed
  | conflicts {i} : Moves (.checkConflict i) i .prepared .conflicted
  | sends {i} : Moves (.sendToWAL i) i .passed .sent
  | rejects {i} : Moves (.sendToWAL i) i .conflicted .rejected
  | commitBottom {i} : Moves .commitBottom i .sent .bottomed
  | finishTxn {i} : Moves (.finishTxn i) i .bottomed .committed
  | rollback {i} : Moves (.rollback i) i .rejected .rollbacking
  | finishRollback {i} : Moves (.finishRollback i) i .rollbacking .rollbacked

/-- A step of one transaction from a stage to another. -/
structure Moved (s : TxnManager) (a : Action) (s' : TxnManager) (i : ℕ) (t t' : Txn) : Prop where
  txn : s.txns i = some t
  txns : s'.txns = (s.setTxn i t').txns
  begin_eq : t'.beginTs = t.beginTs
  moves : Moves a i t.stage t'.stage
  stamp_eq : t.Commits → t'.commitTs = t.commitTs

section Moves

variable {s s' : TxnManager} {i : ℕ} {a : Action} {t t' : Txn}

theorem Moved.other (hm : Moved s a s' i t t') {k : ℕ} (hk : k ≠ i) : s'.txns k = s.txns k := by
  rw [hm.txns, setTxn_other hk]

/-- What the actions do to the transactions. -/
theorem exists_moves (hstep : s.step a = some s') :
      (∃ store, a = .beginTxn store ∧ s' = s.beginTxn store) ∨
      a = .commitBottom ∧ s' = { s with failed := true } ∨ ∃ i t t', Moved s a s' i t t' := by
  cases steps_of_step hstep with
  | beginTxn _ => exact .inl ⟨_, rfl, rfl⟩
  | fails _ _ _ _ => exact .inr (.inl ⟨rfl, rfl⟩)
  | finishRead ht hstage =>
    exact .inr (.inr ⟨_, _, _, ht, rfl, rfl, .finishRead hstage, fun _ => rfl⟩)
  | delete ht hstage _ | commitRead ht hstage | abort ht hstage | getCommitTimeStampW ht hstage
  | setTxnCommitting ht hstage | prepareCommit1 ht hstage | passes ht hstage _
  | conflicts ht hstage _ | sends ht hstage _ | rejects ht hstage _ | commitBottom _ ht hstage _
  | finishTxn ht hstage | rollback ht hstage | finishRollback ht hstage =>
    refine .inr (.inr ⟨_, _, _, ht, rfl, rfl, ?_, ?_⟩)
    · rw [hstage]
      constructor
    · simp [Txn.Commits, hstage]

theorem Moves.live (h : Moves a i t.stage t'.stage) (hlive : t'.Live) : t.Live := by
  generalize hx : t.stage = x, hy : t'.stage = y at h
  obtain ⟨h1, h2, h3, h4⟩ := hlive
  cases h <;> first
    | exact absurd hy h1
    | exact absurd hy h2
    | exact absurd hy h3
    | exact absurd hy h4
    | exact ⟨by simp [hx], by simp [hx], by simp [hx], by simp [hx]⟩

section

variable (hstep : s.step a = some s')
include hstep

/-- A transaction stays, with the time stamp of its begin, and does not come to life again. -/
theorem txn_of_step (ht : s.txns i = some t)
    (hi : i ≤ s.nextTxnId) : ∃ t', s'.txns i = some t' ∧ t'.beginTs = t.beginTs ∧
    (t'.Live → t.Live) := by
  rcases exists_moves hstep with ⟨store, -, rfl⟩ | ⟨-, rfl⟩ | ⟨j, u, u', hm⟩
  · exact ⟨t, (setTxn_other (by omega)).trans ht, rfl, fun hl => hl⟩
  · exact ⟨t, ht, rfl, fun hl => hl⟩
  · by_cases hij : i = j
    · subst hij
      cases hm.txn.symm.trans ht
      exact ⟨u', by rw [hm.txns, setTxn_self], hm.begin_eq, hm.moves.live⟩
    · exact ⟨t, by rw [hm.txns, setTxn_other hij, ht], rfl, fun hl => hl⟩

/-- A transaction that is live after an action was so before, or begins with it. -/
theorem live_of_step {u : Txn} (hu : s'.txns i = some u)
    (hlive : u.Live) : (∃ t, s.txns i = some t ∧ t.Live ∧ t.beginTs = u.beginTs) ∨
      (∃ store, a = .beginTxn store) ∧ i = s.nextTxnId + 1 ∧ u.beginTs = s.startTs + 1 := by
  rcases exists_moves hstep with ⟨store, ha, rfl⟩ | ⟨-, rfl⟩ | ⟨j, t, t', hm⟩
  · rcases txns_changed rfl hu with ⟨rfl, rfl⟩ | ⟨-, hu⟩
    · exact .inr ⟨⟨store, ha⟩, rfl, rfl⟩
    · exact .inl ⟨u, hu, hlive, rfl⟩
  · exact .inl ⟨u, hu, hlive, rfl⟩
  · rcases txns_changed hm.txns hu with ⟨rfl, rfl⟩ | ⟨-, hu⟩
    · exact .inl ⟨t, hm.txn, hm.moves.live hlive, hm.begin_eq.symm⟩
    · exact .inl ⟨u, hu, hlive, rfl⟩

/-- A transaction that can still commit takes its time stamp once. -/
theorem stamp_of_step (ha : a ≠ .commitBottom) (ht : s.txns i = some t)
    (ht' : s'.txns i = some t') (hlive : t'.Live) (hdead : ¬ t'.Dead) {c : ℕ}
    (hc : t'.stamp = some c) : t.stamp = some c ∧ ¬ t.Dead ∨ a = .getCommitTimeStampW i ∧
    c = s.startTs + 1 := by
  have hsame : ∀ {u}, s.txns i = some u → t' = u → t.stamp = some c ∧ ¬ t.Dead := by
    rintro u hu rfl
    cases ht.symm.trans hu
    exact ⟨hc, hdead⟩
  cases steps_of_step hstep
  case commitBottom | fails => exact absurd rfl ha
  all_goals
    rcases txns_changed rfl ht' with ⟨rfl, rfl⟩ | ⟨-, hold⟩
    · simp_all [Txn.stamp, Txn.Live, Txn.Dead]
    · exact .inl (hsame hold rfl)

/-- The clock does not go back. -/
theorem startTs_le_of_step : s.startTs ≤ s'.startTs := by
  cases steps_of_step hstep <;> simp [beginTxn, setTxn, finishTxn, giveFinishedTs, forget]

end

end Moves

end Infinity.Transactions
