import Infinity.Transactions.Steps

/-! # The lifetimes of transactions

What the manager knows of transactions in every state of every interleaving: their time stamps are
ordered and different, a transaction that is not settled is in `txn_map_` and in `beginned_txns_`,
and one that has left `finishing_txns_` or `txn_map_` had ended before any unsettled one began
(`Past`).

* `Life.step`: every action keeps all this.
-/

namespace Infinity.Transactions

open Foundations List

/-- The transaction has ended, and if it has committed then before any unsettled one began. -/
def Past (s : TxnManager) (t : Txn) : Prop := t.stage = .rollbacked ∨
    t.stage = .committed ∧ ∀ j u, s.txns j = some u → u.Live → t.committedTs ≤ u.beginTs

/-- What holds of a transaction. -/
structure TxnLife (s : TxnManager) (i : ℕ) (t : Txn) : Prop where
  begin_le : t.beginTs ≤ s.startTs
  stamp_le : ∀ c, t.stamp = some c → t.beginTs < c ∧ c ≤ s.startTs
  committed_le : t.stage = .committed → t.commitTs < t.committedTs ∧ t.committedTs ≤ s.startTs
  live : t.Live → i ∈ s.txnMap ∧ i ∈ s.beginnedTxns
  erased : ∀ c, t.stamp = some c → i ∉ s.finishingTxns → Past s t
  unmapped : i ∉ s.txnMap → t.stage = .gone ∨ Past s t

/-- What holds in every reachable state. -/
structure Life (s : TxnManager) : Prop where
  ids : ∀ i t, s.txns i = some t → i ≤ s.nextTxnId
  txn : ∀ i t, s.txns i = some t → TxnLife s i t
  distinct : ∀ i j t u, i ≠ j → s.txns i = some t → s.txns j = some u → ∀ c, t.stamp = some c →
    u.stamp ≠ some c
  queue_ids : ∀ i ∈ s.beginnedTxns, i ≤ s.nextTxnId
  queue : s.beginnedTxns.Pairwise fun i j =>
    ∀ t u, s.txns i = some t → s.txns j = some u → t.beginTs < u.beginTs
  finished : ∀ p ∈ s.finishedTxns, ∃ t, s.txns p.2 = some t ∧
    (t.stage = .rollbacked ∨ t.stage = .committed ∧ t.committedTs = p.1)

/-! ## Steps of one transaction -/

section Change

variable {s s' : TxnManager} {i : ℕ} {t t' : Txn} {u : Txn}

namespace Change

section

variable (q : Change s s' i t t')
include q

theorem past (hi : s.txns i = some t) (h : Past s u) : Past s' u := by
  refine h.imp_right fun ⟨hcommitted, hall⟩ => ⟨hcommitted, fun k w hk hw => ?_⟩
  rcases txns_changed q.txns hk with ⟨rfl, rfl⟩ | ⟨-, hk⟩
  · rw [q.begin_eq]
    exact hall _ _ hi (q.live hw)
  · exact hall _ _ hk hw

theorem txnLife_other (hi : s.txns i = some t) {j : ℕ}
    (hj : j ≠ i) (h : TxnLife s j u) : TxnLife s' j u := by
  have hmap : j ∈ s.txnMap → j ∈ s'.txnMap :=
    fun hm => (q.map j hm).resolve_right fun hji => hj hji.1
  refine ⟨h.begin_le.trans q.start_le, ?_, ?_, ?_, ?_, ?_⟩
  · exact fun c hc => ⟨(h.stamp_le c hc).1, (h.stamp_le c hc).2.trans q.start_le⟩
  · exact fun hc => ⟨(h.committed_le hc).1, (h.committed_le hc).2.trans q.start_le⟩
  · intro hl
    rw [q.beginned]
    exact ⟨hmap (h.live hl).1, (h.live hl).2⟩
  · exact fun c hc hn => q.past hi (h.erased c hc fun hin => hn (q.finishing j hin))
  · exact fun hn => (h.unmapped fun hin => hn (hmap hin)).imp_right (q.past hi)

/-- What is to be shown of a step of one transaction. -/
theorem life (h : Life s) (hi : s.txns i = some t) (hok : TxnLife s' i t')
    (hdistinct : ∀ j u, j ≠ i → s.txns j = some u → ∀ c, t'.stamp = some c → u.stamp ≠ some c)
    (hfinished : ∀ p ∈ s'.finishedTxns, ∃ u, s'.txns p.2 = some u ∧
      (u.stage = .rollbacked ∨ u.stage = .committed ∧ u.committedTs = p.1)) : Life s' := by
  refine ⟨?_, ?_, ?_, ?_, ?_, hfinished⟩
  · intro j u hu
    rw [q.next]
    rcases txns_changed q.txns hu with ⟨rfl, -⟩ | ⟨-, hu⟩
    · exact h.ids _ _ hi
    · exact h.ids _ _ hu
  · intro j u hu
    rcases txns_changed q.txns hu with ⟨rfl, rfl⟩ | ⟨hj, hu⟩
    · exact hok
    · exact q.txnLife_other hi hj (h.txn _ _ hu)
  · intro j k u w hjk hu hw
    rcases txns_changed q.txns hu with ⟨rfl, rfl⟩ | ⟨hj, hu⟩ <;>
      rcases txns_changed q.txns hw with ⟨hk, rfl⟩ | ⟨hk, hw⟩
    · exact absurd hk.symm hjk
    · exact hdistinct _ _ hk hw
    · exact fun c hc hc' => hdistinct _ _ hj hu c hc' hc
    · exact h.distinct _ _ _ _ hjk hu hw
  · rw [q.beginned, q.next]
    exact h.queue_ids
  · rw [q.beginned]
    refine h.queue.imp fun {j k} hlt u w hu hw => ?_
    rcases txns_changed q.txns hu with ⟨rfl, rfl⟩ | ⟨-, hu⟩ <;>
      rcases txns_changed q.txns hw with ⟨rfl, rfl⟩ | ⟨-, hw⟩
    · exact absurd (hlt t t hi hi) (lt_irrefl _)
    · rw [q.begin_eq]
      exact hlt _ _ hi hw
    · rw [q.begin_eq]
      exact hlt _ _ hu hi
    · exact hlt _ _ hu hw

end

end Change

/-- The finished transactions are other ones than one that is not. -/
theorem Life.finished_ne (h : Life s) {p : ℕ × ℕ} (hp : p ∈ s.finishedTxns) (ht : s.txns i = some t)
    (hc : t.stage ≠ .committed) (hr : t.stage ≠ .rollbacked) : p.2 ≠ i := by
  rintro rfl
  obtain ⟨w, hw, hstage⟩ := h.finished p hp
  cases ht.symm.trans hw
  exact hstage.elim hr fun hs => hc hs.1

theorem Unfinished.finished (hu : Unfinished s i t) (h : Life s)
    (htxns : s'.txns = (s.setTxn i t').txns) : ∀ p ∈ s.finishedTxns, ∃ w, s'.txns p.2 = some w ∧
      (w.stage = .rollbacked ∨ w.stage = .committed ∧ w.committedTs = p.1) := by
  intro p hp
  obtain ⟨w, hw, hstage⟩ := h.finished p hp
  rw [htxns]
  exact ⟨w, (setTxn_other (h.finished_ne hp hu.txn hu.committed hu.rollbacked)).trans hw, hstage⟩

theorem not_past (hc : t.stage ≠ .committed) (hr : t.stage ≠ .rollbacked) : ¬ Past s t :=
  fun hp => hp.elim hr fun hs => hc hs.1

theorem Quiet.txnLife (q : Quiet s s' i t t') (hu : Unfinished s i t) (h : TxnLife s i t) :
    TxnLife s' i t' := by
  refine ⟨?_, ?_, fun hc => absurd hc q.committed, ?_, ?_, ?_⟩
  · rw [q.begin_eq]
    exact h.begin_le.trans q.start_le
  · intro c hc
    rw [q.stamp_eq] at hc
    rw [q.begin_eq]
    exact ⟨(h.stamp_le c hc).1, (h.stamp_le c hc).2.trans q.start_le⟩
  · intro hl
    obtain ⟨hmap, hqueue⟩ := h.live (q.live hl)
    rw [q.beginned]
    refine ⟨(q.map i hmap).resolve_right fun hi => hl.2.2.2 hi.2, hqueue⟩
  · intro c hc hi
    rw [q.stamp_eq] at hc
    rw [q.finishing_eq] at hi
    exact absurd (h.erased c hc hi) (not_past hu.committed hu.rollbacked)
  · intro hn
    by_cases hin : i ∈ s.txnMap
    · exact .inl ((q.map i hin).resolve_left hn).2
    · rcases h.unmapped hin with hg | hp
      · exact absurd hg hu.gone
      · exact absurd hp (not_past hu.committed hu.rollbacked)

/-- **Quiet steps keep the lifetimes.** -/
theorem Quiet.life (q : Quiet s s' i t t') (hu : Unfinished s i t) (h : Life s) : Life s' := by
  refine q.toChange.life h hu.txn (q.txnLife hu (h.txn _ _ hu.txn)) ?_ ?_
  · intro j u hj huj c hc
    rw [q.stamp_eq] at hc
    exact h.distinct _ _ _ _ hj.symm hu.txn huj c hc
  · rw [q.finished_eq]
    exact hu.finished h q.txns

end Change

/-! ## Forgetting transactions -/

/-- The transaction commits or is rolled back, and ends in the stage. -/
def Txn.Ends (t : Txn) (stage : Stage) : Prop :=
  t.stage = .bottomed ∧ stage = .committed ∨ t.stage = .rollbacking ∧ stage = .rollbacked

theorem Txn.Ends.live {t : Txn} {stage : Stage} (h : t.Ends stage) :
    t.Live ∧ t.stamp = some t.commitTs := by
  rcases h with ⟨hs, -⟩ | ⟨hs, -⟩ <;> simp [Txn.Live, Txn.stamp, hs]

section Forget

variable {s s' : TxnManager} {i : ℕ} {t : Txn}

theorem mem_dropWhile_of_not {p : ℕ → Bool} {l : List ℕ} (hmem : i ∈ l) (hp : p i = false) :
    i ∈ l.dropWhile p := by
  rw [← takeWhile_append_dropWhile (p := p) (l := l)] at hmem
  rcases mem_append.mp hmem with hdropped | hkept
  · rw [mem_takeWhile_imp hdropped] at hp
    cases hp
  · exact hkept

section

variable (h : Life s) {commitTs : ℕ}
include h

/-- A live transaction is not settled, and so stays in the queue. -/
theorem Life.mem_unsettled (ht : s.txns i = some t) (hlive : t.Live) :
    i ∈ s.beginnedTxns.dropWhile s.settled := by
  obtain ⟨hmap, hqueue⟩ := (h.txn _ _ ht).live hlive
  exact mem_dropWhile_of_not hqueue (by simp [TxnManager.settled, hmap, ht, hlive.not_ended])

/-- The first one of a queue began before the others. -/
theorem Life.head_le {j : ℕ} {rest : List ℕ} (hqueue : (j :: rest).Sublist s.beginnedTxns)
    (hmem : i ∈ j :: rest) (ht : s.txns i = some t) :
    ((s.txns j).map Txn.beginTs).getD 0 ≤ t.beginTs := by
  rcases mem_cons.mp hmem with rfl | hmem
  · rw [ht]
    exact le_rfl
  · cases hj : s.txns j with
    | none => exact Nat.zero_le _
    | some u => exact ((pairwise_cons.mp (h.queue.sublist hqueue)).1 i hmem u t hj ht).le

/-- `least_uncommitted_begin_ts` is at most the begin of every live transaction. -/
theorem Life.least_le (ht : s.txns i = some t) (hlive : t.Live) :
    s.leastUncommittedBeginTs commitTs ≤ t.beginTs := by
  have hmem := h.mem_unsettled ht hlive
  have hqueue := dropWhile_sublist s.settled (l := s.beginnedTxns)
  rw [TxnManager.leastUncommittedBeginTs]
  cases hleft : s.beginnedTxns.dropWhile s.settled with
  | nil =>
    rw [hleft] at hmem
    cases hmem
  | cons j rest => exact h.head_le (hleft ▸ hqueue) (hleft ▸ hmem) ht

/-- What goes is past. -/
theorem Life.past_of_erased {commitTs : ℕ} (hi : i ∈ s.erasedTxns commitTs)
    (ht : s.txns i = some t) : TxnManager.ended t ∧ Past s t := by
  obtain ⟨p, hp, rfl⟩ := mem_map.mp hi
  have hold := mem_takeWhile_imp hp
  obtain ⟨w, hw, hstage⟩ := h.finished p ((takeWhile_sublist _).mem hp)
  cases ht.symm.trans hw
  simp only [TxnManager.forgettable, ht, Option.any_some, Bool.and_eq_true, decide_eq_true_eq]
    at hold
  refine ⟨hold.1, hstage.imp_right fun ⟨hcommitted, hts⟩ => ⟨hcommitted, fun j u hu hlive => ?_⟩⟩
  rw [hts]
  exact hold.2.trans (h.least_le hu hlive)

/-- **What `FinishTxn` forgets is past.** -/
theorem Life.forget (commitTs : ℕ) : Life (s.forget commitTs) := by
  have hfilter : ∀ {j : ℕ} {u : Txn} {l : List ℕ}, s.txns j = some u →
      j ∉ l.filter (· ∉ s.erasedTxns commitTs) → j ∉ l ∨ Past s u := by
    intro j u l hu hn
    by_cases hin : j ∈ l
    · have herased : j ∈ s.erasedTxns commitTs := by
        by_contra hnot
        exact hn (mem_filter.mpr ⟨hin, decide_eq_true hnot⟩)
      exact .inr (h.past_of_erased herased hu).2
    · exact .inl hin
  refine ⟨h.ids, ?_, h.distinct, ?_, ?_, ?_⟩
  · intro j u hu
    have hok := h.txn _ _ hu
    refine ⟨hok.begin_le, hok.stamp_le, hok.committed_le, ?_, ?_, ?_⟩
    · intro hlive
      refine ⟨mem_filter.mpr ⟨(hok.live hlive).1, decide_eq_true fun herased => ?_⟩,
        h.mem_unsettled hu hlive⟩
      have hended := (h.past_of_erased herased hu).1
      cases hlive.not_ended.symm.trans hended
    · exact fun c hc hn => (hfilter hu hn).elim (hok.erased c hc) id
    · exact fun hn => (hfilter hu hn).elim hok.unmapped .inr
  · exact fun j hj => h.queue_ids j ((dropWhile_sublist _).mem hj)
  · exact h.queue.sublist (dropWhile_sublist _)
  · exact fun p hp => h.finished p ((dropWhile_sublist _).mem hp)

/-- The second time stamp of a transaction that commits or is rolled back. -/
theorem Life.giveFinishedTs (ht : s.txns i = some t) {stage : Stage} (hstage : t.Ends stage) :
    Life (s.giveFinishedTs i t stage) := by
  have hok := h.txn _ _ ht
  obtain ⟨hlive, hstamp⟩ := hstage.live
  have hended : stage = .committed ∨ stage = .rollbacked := Or.imp And.right And.right hstage
  have hnew : ∀ {u : Txn}, u.stage = stage → ¬ u.Live := by
    intro u hu hl
    rcases hended with he | he
    · exact hl.1 (hu.trans he)
    · exact hl.2.1 (hu.trans he)
  have hnewStamp : ∀ {u : Txn} {c : ℕ}, u.stamp = some c → u.stage = stage →
      u.commitTs = t.commitTs → t.stamp = some c := by
    intro u c hc hu hcommit
    rcases hended with he | he <;> simp_all [Txn.stamp]
  refine Change.life (t := t) ⟨rfl, rfl, rfl, fun _ hj => hj, Nat.le_succ _, fun _ hj =>
    .inl hj, rfl, fun hl => absurd hl (hnew rfl)⟩ h ht ?_ ?_ ?_
  · refine ⟨hok.begin_le.trans (Nat.le_succ _), ?_, ?_, fun hl => absurd hl (hnew rfl), ?_, ?_⟩
    · intro c hc
      obtain ⟨hlt, hle⟩ := hok.stamp_le c (hnewStamp hc rfl rfl)
      exact ⟨hlt, hle.trans (Nat.le_succ _)⟩
    · intro hc
      simp only [if_pos hc]
      exact ⟨Nat.lt_succ_of_le (hok.stamp_le _ hstamp).2, le_rfl⟩
    · exact fun c _ hn => absurd (hok.erased _ hstamp hn) (not_past hlive.1 hlive.2.1)
    · exact fun hn => absurd (hok.live hlive).1 hn
  · exact fun j u hj huj c hc => h.distinct _ _ _ _ hj.symm ht huj c (hnewStamp hc rfl rfl)
  · intro p hp
    rcases mem_append.mp hp with hp | hp
    · obtain ⟨w, hw, hwstage⟩ := h.finished p hp
      exact ⟨w, (setTxn_other (h.finished_ne hp ht hlive.1 hlive.2.1)).trans hw, hwstage⟩
    · rw [mem_singleton.mp hp]
      refine ⟨_, setTxn_self, hended.symm.imp_right fun hc => ⟨hc, if_pos hc⟩⟩

end

end Forget

/-! ## All actions -/

section Step

variable {s s' : TxnManager} {i : ℕ}

theorem Life.getCommitTimeStampW (h : Life s) (hstep : s.step (.getCommitTimeStampW i) = some s') :
    Life s' := by
  cases steps_of_step hstep
  rename_i t hstage ht
  have hok := h.txn _ _ ht
  have hu : Unfinished s i t := by
    refine ⟨ht, ?_, ?_, ?_, ?_⟩ <;> simp [hstage]
  have hlive : t.Live := by simp [Txn.Live, hstage]
  refine Change.life (t := t) ⟨rfl, rfl, rfl, fun j hj => mem_append_left _ hj, Nat.le_succ _,
    fun _ hj => .inl hj, rfl, fun _ => hlive⟩ h ht ?_ ?_ (hu.finished h rfl)
  · refine ⟨hok.begin_le.trans (Nat.le_succ _), ?_, by simp, fun _ => hok.live hlive, ?_, ?_⟩
    · intro c hc
      cases hc
      exact ⟨Nat.lt_succ_of_le hok.begin_le, le_rfl⟩
    · exact fun c _ hn => absurd (mem_append_right _ (mem_singleton_self i)) hn
    · exact fun hn => absurd (hok.live hlive).1 hn
  · intro j u hj huj c hc hc'
    cases hc
    have := ((h.txn _ _ huj).stamp_le _ hc').2
    omega

theorem Life.beginTxn (h : Life s) (store : TxnStore) : Life (s.beginTxn store) := by
  have hnone : ∀ {u : Txn}, s.txns (s.nextTxnId + 1) ≠ some u := fun hu => by
    have := h.ids _ _ hu
    omega
  have hpast : ∀ {u : Txn}, (u.stage = .committed → u.committedTs ≤ s.startTs) → Past s u →
      Past (s.beginTxn store) u := by
    intro u hle hp
    refine hp.imp_right fun ⟨hcommitted, hall⟩ => ⟨hcommitted, fun k w hw hlive => ?_⟩
    rcases txns_changed rfl hw with ⟨rfl, rfl⟩ | ⟨-, hw⟩
    · exact (hle hcommitted).trans (Nat.le_succ _)
    · exact hall _ _ hw hlive
  refine ⟨?_, ?_, ?_, ?_, ?_, ?_⟩
  · intro j u hu
    rcases txns_changed rfl hu with ⟨rfl, -⟩ | ⟨-, hu⟩
    · exact le_rfl
    · exact (h.ids _ _ hu).trans (Nat.le_succ _)
  · intro j u hu
    rcases txns_changed rfl hu with ⟨rfl, rfl⟩ | ⟨hj, hu⟩
    · have hmap : s.nextTxnId + 1 ∈ s.txnMap ++ [s.nextTxnId + 1] :=
        mem_append_right _ (mem_singleton_self _)
      refine ⟨le_rfl, nofun, nofun, fun _ => ⟨hmap, ?_⟩, nofun, fun hn => absurd hmap hn⟩
      exact mem_append_right _ (mem_singleton_self _)
    · have hok := h.txn _ _ hu
      have hle : u.stage = .committed → u.committedTs ≤ s.startTs :=
        fun hc => (hok.committed_le hc).2
      refine ⟨hok.begin_le.trans (Nat.le_succ _), ?_, ?_, ?_, ?_, ?_⟩
      · exact fun c hc => ⟨(hok.stamp_le c hc).1, (hok.stamp_le c hc).2.trans (Nat.le_succ _)⟩
      · exact fun hc => ⟨(hok.committed_le hc).1, (hok.committed_le hc).2.trans (Nat.le_succ _)⟩
      · intro hlive
        obtain ⟨hmap, hqueue⟩ := hok.live hlive
        exact ⟨mem_append_left _ hmap, mem_append_left _ hqueue⟩
      · exact fun c hc hn => hpast hle (hok.erased c hc hn)
      · intro hn
        exact (hok.unmapped fun hin => hn (mem_append_left _ hin)).imp_right (hpast hle)
  · intro j k u w hjk hu hw
    rcases txns_changed rfl hu with ⟨rfl, rfl⟩ | ⟨hj, hu⟩ <;>
      rcases txns_changed rfl hw with ⟨hk, rfl⟩ | ⟨hk, hw⟩
    · exact absurd hk.symm hjk
    · exact nofun
    · exact fun _ _ => nofun
    · exact h.distinct _ _ _ _ hjk hu hw
  · intro j hj
    rcases mem_append.mp hj with hj | hj
    · exact (h.queue_ids j hj).trans (Nat.le_succ _)
    · rw [mem_singleton.mp hj]
      exact le_rfl
  · have hold : ∀ j ∈ s.beginnedTxns, j ≠ s.nextTxnId + 1 := fun j hj heq => by
      have := h.queue_ids j hj
      omega
    refine pairwise_append.mpr ⟨?_, pairwise_singleton _ _, ?_⟩
    · refine h.queue.imp_of_mem fun {j k} hj hk hlt u w hu hw => ?_
      rcases txns_changed rfl hu with ⟨heq, -⟩ | ⟨-, hu⟩
      · exact absurd heq (hold j hj)
      rcases txns_changed rfl hw with ⟨heq, -⟩ | ⟨-, hw⟩
      · exact absurd heq (hold k hk)
      exact hlt _ _ hu hw
    · intro j hj k hk u w hu hw
      rcases txns_changed rfl hu with ⟨heq, -⟩ | ⟨-, hu⟩
      · exact absurd heq (hold j hj)
      rcases txns_changed rfl hw with ⟨-, rfl⟩ | ⟨hne, -⟩
      · exact Nat.lt_succ_of_le (h.txn _ _ hu).begin_le
      · exact absurd (mem_singleton.mp hk) hne
  · intro p hp
    obtain ⟨w, hw, hstage⟩ := h.finished p hp
    have hne : p.2 ≠ s.nextTxnId + 1 := fun heq => hnone (heq ▸ hw)
    exact ⟨w, (setTxn_other hne).trans hw, hstage⟩

theorem Life.start : Life .start where
  ids := nofun
  txn := nofun
  distinct := nofun
  queue_ids := nofun
  queue := .nil
  finished := nofun

/-- **Every action keeps the lifetimes.** -/
theorem Life.step (h : Life s) {a : Action} (hstep : s.step a = some s') : Life s' := by
  have hsilent : a.silent → Life s' := fun ha => by
    obtain ⟨i, t, t', hs⟩ := exists_silent ha hstep
    exact hs.silent.toQuiet.life hs.unfinished h
  cases steps_of_step hstep with
  | beginTxn _ => exact h.beginTxn _
  | delete _ _ _ =>
    obtain ⟨t, hu, -, -, -, hq⟩ := quiet_delete hstep
    exact hq.life hu h
  | getCommitTimeStampW _ _ => exact h.getCommitTimeStampW hstep
  | commitBottom _ _ _ _ | fails _ _ _ _ =>
    obtain ⟨i, rest, t, -, hu, -, ⟨deleted, -, -, hq⟩ | ⟨-, heq⟩⟩ := quiet_commitBottom hstep
    · exact hq.life hu h
    · rw [heq]
      exact { h with txn := fun j u hu => { h.txn j u hu with } }
  | finishTxn ht hstage => exact (h.giveFinishedTs ht (.inl ⟨hstage, rfl⟩)).forget _
  | finishRollback ht hstage => exact (h.giveFinishedTs ht (.inr ⟨hstage, rfl⟩)).forget _
  | _ => exact hsilent rfl

end Step

end Infinity.Transactions
