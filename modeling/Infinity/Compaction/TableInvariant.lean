import Infinity.Compaction.Table
import Infinity.Transactions.Lifetime

/-! # The segments of running compactions

Until the bottom half of its commit, a compaction's new segments have no commit time stamp and its
old ones no deprecation time stamp; afterwards both are the commit time stamp of the compaction.
This holds for any number of compactions that interleave with imports, appends and readers.

* `Inv.commitWrite_segment`: the segments after the bottom half of a commit.
-/

namespace Infinity.Compaction

open Foundations Transactions Option

variable {i : ℕ}

def Undecided (t : Txn) : Prop :=
  match t.stage with
  | .running | .stamped _ | .committing | .prepared | .passed | .conflicted | .sent | .rejected =>
    True
  | _ => False

/-- The time stamps of a segment are those of transactions. -/
structure SegmentOk (mgr : TxnManager) (e : SegmentEntry) : Prop where
  committed : ∀ c, e.commitTs = some c → ∃ u, mgr.txns e.txnId = some u ∧ u.Applied ∧ u.commitTs = c
  isSome : e.status ≠ .unsealed → e.commitTs.isSome
  undeprecated : e.status ≠ .deprecated → e.deprecateTs = none
  lt : ∀ c d, e.commitTs = some c → e.deprecateTs = some d → c < d

/-- A new segment is committed with its compaction. -/
structure NewOk (i : ℕ) (t : Txn) (e : SegmentEntry) : Prop where
  txnId : e.txnId = i
  applied : t.Applied → e.commitTs = some t.commitTs
  pending : ¬ t.Applied → e.commitTs = none

/-- An old segment is deprecated with its compaction. -/
structure OldOk (t : Txn) (e : SegmentEntry) : Prop where
  committed : ∃ c, e.commitTs = some c ∧ c ≤ t.beginTs
  applied : t.Applied → e.status = .deprecated ∧ e.deprecateTs = some t.commitTs
  pending : ¬ t.Applied → e.status = .noDelete

/-- What a compaction has recorded is in the table. -/
structure PairOk (s : Table) (i : ℕ) (t : Txn) (p : ℕ × List ℕ) : Prop where
  new : ∃ e, s.segmentMap p.1 = some e ∧ NewOk i t e
  old : ∀ id ∈ p.2, ∃ e, s.segmentMap id = some e ∧ OldOk t e
  added : (p.1, true) ∈ s.added i

/-- What holds in every reachable state. -/
structure Inv (s : Table) : Prop where
  life : Life s.mgr
  ids : ∀ id e, s.segmentMap id = some e → id < s.nextSegmentId
  segment : ∀ id e, s.segmentMap id = some e → SegmentOk s.mgr e
  pair : ∀ i, ∀ p ∈ s.compactData i, ∃ t, s.mgr.txns i = some t ∧ (Undecided t ∨ t.Applied) ∧
    PairOk s i t p
  disjoint : ∀ i j id, i ≠ j → id ∈ s.olds i → id ∉ s.olds j
  added_lt : ∀ i, ∀ a ∈ s.added i, a.1 < s.nextSegmentId
  added_txn : ∀ i, ∀ a ∈ s.added i, ∀ e, s.segmentMap a.1 = some e → e.txnId = i

/-! ## Visibility -/

section Visible

variable {mgr : TxnManager} {e : SegmentEntry} {j c : ℕ} {u : Txn}

theorem not_applied_of_running (h : u.stage = .running) : ¬ u.Applied := by
  simp [Txn.Applied, h]

/-- **A committed segment is visible to a running transaction from its commit time stamp on**, also
when `CheckIfCommitting` no longer finds the transaction that has written it. -/
theorem baseCheckVisible_iff (hlife : Life mgr) (he : SegmentOk mgr e) (hc : e.commitTs = some c)
    (hu : mgr.txns j = some u) (hrunning : u.stage = .running) :
    e.baseCheckVisible mgr j u.beginTs ↔ c ≤ u.beginTs := by
  obtain ⟨w, hw, happlied, hwc⟩ := he.committed c hc
  have hlive : u.Live := by simp [Txn.Live, hrunning]
  have hne : e.txnId ≠ j := by
    intro heq
    rw [heq, hu] at hw
    cases hw
    exact not_applied_of_running hrunning happlied
  simp only [SegmentEntry.baseCheckVisible, hc, any_some, Bool.or_eq_true, decide_eq_true_eq]
  refine ⟨?_, fun h => .inl (.inl h)⟩
  rintro ((h | h) | h)
  · exact h
  · exact absurd h hne
  · rw [TxnManager.checkIfCommitting, hw] at h
    simp only [Bool.or_eq_true, Bool.not_eq_true', any_some, Bool.and_eq_true,
      decide_eq_true_eq] at h
    rcases h with hmap | ⟨-, hlt⟩
    · -- it is forgotten, and so was finished before the reader began
      have hnot : e.txnId ∉ mgr.txnMap := by simpa using hmap
      have hwlife := hlife.txn _ _ hw
      rcases hwlife.unmapped hnot with hg | hr | ⟨hcommitted, hall⟩
      · rcases happlied with ha | ha <;> rw [ha] at hg <;> cases hg
      · rcases happlied with ha | ha <;> rw [ha] at hr <;> cases hr
      · have := hall j u hu hlive
        have := (hwlife.committed_le hcommitted).1
        omega
    · omega

/-- **A new segment of a running compaction is visible while that is committing** with an earlier
time stamp. -/
theorem baseCheckVisible_pending_iff (hlife : Life mgr) {t : Txn} (ht : mgr.txns i = some t)
    (hopen : Undecided t) (hn : NewOk i t e) (hj : j ≠ i) {beginTs : ℕ} :
    e.baseCheckVisible mgr j beginTs ↔ t.stage.state = .committing ∧ t.commitTs < beginTs := by
  have happlied : ¬ t.Applied := by
    rintro (ha | ha) <;> simp [Undecided, ha] at hopen
  have hlive : t.Live := by
    refine ⟨?_, ?_, ?_, ?_⟩ <;> intro h <;> simp [Undecided, h] at hopen
  have hmap : i ∈ mgr.txnMap := ((hlife.txn _ _ ht).live hlive).1
  have hstate : t.stage.state ≠ .committed := by
    cases hs : t.stage <;> simp_all [Undecided, Stage.state]
  simp [SegmentEntry.baseCheckVisible, hn.pending happlied, hn.txnId, hj.symm,
    TxnManager.checkIfCommitting, hmap, ht, hstate]

end Visible

/-! ## Steps of the transactions -/

section Keep

variable {s : Table} {mgr mgr' : TxnManager} {e : SegmentEntry} {t t' : Txn}

theorem Undecided.not_applied (h : Undecided t) : ¬ t.Applied := by
  rintro (ha | ha) <;> simp [Undecided, ha] at h

def KeepsApplied (mgr mgr' : TxnManager) : Prop := ∀ k u, mgr.txns k = some u → u.Applied →
    ∃ u', mgr'.txns k = some u' ∧ u'.Applied ∧ u'.commitTs = u.commitTs

theorem SegmentOk.keep (he : SegmentOk mgr e) (h : KeepsApplied mgr mgr') : SegmentOk mgr' e := by
  refine ⟨fun c hc => ?_, he.isSome, he.undeprecated, he.lt⟩
  obtain ⟨u, hu, happlied, rfl⟩ := he.committed c hc
  exact h _ _ hu happlied

/-- The stages mean the same to the table. -/
structure Alike (t t' : Txn) : Prop where
  begin_eq : t'.beginTs = t.beginTs
  applied : t'.Applied ↔ t.Applied
  commit_eq : t.Applied → t'.commitTs = t.commitTs

theorem Alike.refl (t : Txn) : Alike t t := ⟨rfl, .rfl, fun _ => rfl⟩

theorem NewOk.alike (h : NewOk i t e) (ha : Alike t t') : NewOk i t' e := by
  refine ⟨h.txnId, fun happlied => ?_, fun hp => h.pending fun happlied =>
    hp (ha.applied.mpr happlied)⟩
  have happlied := ha.applied.mp happlied
  rw [ha.commit_eq happlied]
  exact h.applied happlied

theorem OldOk.alike (h : OldOk t e) (ha : Alike t t') : OldOk t' e := by
  refine ⟨?_, fun happlied => ?_, fun hp => h.pending fun happlied => hp (ha.applied.mpr happlied)⟩
  · rw [ha.begin_eq]
    exact h.committed
  · have happlied := ha.applied.mp happlied
    rw [ha.commit_eq happlied]
    exact h.applied happlied

/-- A step of the transactions that does not change the table. -/
theorem Inv.keep (h : Inv s) (hlife : Life mgr') (happlied : KeepsApplied s.mgr mgr')
    (halike : ∀ k t, s.mgr.txns k = some t → s.compactData k ≠ [] →
      ∃ t', mgr'.txns k = some t' ∧ Alike t t' ∧ (Undecided t → Undecided t')) :
    Inv { s with mgr := mgr' } := by
  refine ⟨hlife, h.ids, fun id e he => (h.segment id e he).keep happlied, ?_, h.disjoint,
    h.added_lt, h.added_txn⟩
  intro k p hp
  obtain ⟨t, ht, hdecided, hpair⟩ := h.pair k p hp
  obtain ⟨t', ht', ha, hopen⟩ := halike k t ht (List.ne_nil_of_mem hp)
  refine ⟨t', ht', hdecided.imp hopen ha.applied.mpr, ?_, ?_, hpair.added⟩
  · obtain ⟨e, he, hn⟩ := hpair.new
    exact ⟨e, he, hn.alike ha⟩
  · intro id hid
    obtain ⟨e, he, ho⟩ := hpair.old id hid
    exact ⟨e, he, ho.alike ha⟩

/-- A step of one transaction that keeps what its compaction depends on. -/
theorem keepsApplied_of_changed (htxns : mgr'.txns = (mgr.setTxn i t').txns)
    (ht : mgr.txns i = some t) (ha : t.Applied → t'.Applied ∧ t'.commitTs = t.commitTs) :
    KeepsApplied mgr mgr' := by
  intro k u hu happlied
  rw [htxns]
  by_cases hk : k = i
  · subst hk
    cases ht.symm.trans hu
    exact ⟨t', setTxn_self, ha happlied⟩
  · exact ⟨u, (setTxn_other hk).trans hu, happlied, rfl⟩

theorem Inv.moved (h : Inv s) {a : Action} (hlife : Life mgr') (hm : Moved s.mgr a mgr' i t t')
    (happlied : t'.Applied ↔ t.Applied)
    (hopen : s.compactData i ≠ [] → Undecided t → Undecided t') : Inv { s with mgr := mgr' } := by
  have hcommit : t.Applied → t'.commitTs = t.commitTs := fun ha => hm.stamp_eq ha.commits
  refine h.keep hlife (keepsApplied_of_changed hm.txns hm.txn fun ha =>
    ⟨happlied.mpr ha, hcommit ha⟩) fun k u hu hdata => ?_
  by_cases hk : k = i
  · subst hk
    cases hm.txn.symm.trans hu
    refine ⟨t', ?_, ⟨hm.begin_eq, happlied, hcommit⟩, hopen hdata⟩
    rw [hm.txns]
    exact setTxn_self
  · refine ⟨u, ?_, .refl u, id⟩
    rw [hm.txns]
    exact (setTxn_other hk).trans hu

theorem Inv.beginTxn (h : Inv s) (store : TxnStore) :
    Inv { s with mgr := s.mgr.beginTxn store } := by
  have hsame : ∀ k u, s.mgr.txns k = some u → (s.mgr.beginTxn store).txns k = some u := by
    intro k u hu
    have hk : k ≠ s.mgr.nextTxnId + 1 := by
      have := h.life.ids _ _ hu
      omega
    exact (setTxn_other hk).trans hu
  exact h.keep (h.life.beginTxn store) (fun k u hu ha => ⟨u, hsame k u hu, ha, rfl⟩)
    fun k u hu _ => ⟨u, hsame k u hu, .refl u, id⟩

end Keep

/-! ## The bottom half of a commit -/

section Commit

variable {s : Table} {mgr' : TxnManager} {t t' : Txn} {id c : ℕ} {e : SegmentEntry}

theorem mem_olds : id ∈ s.olds i ↔ ∃ p ∈ s.compactData i, id ∈ p.2 := List.mem_flatMap

theorem mem_news : id ∈ s.news i ↔ ∃ p ∈ s.compactData i, p.1 = id := List.mem_map

section

variable (h : Inv s) (ht : s.mgr.txns i = some t) (he : s.segmentMap id = some e)
include h ht he

/-- The old segments of a compaction. -/
theorem Inv.old (hid : id ∈ s.olds i) : OldOk t e := by
  obtain ⟨p, hp, hid⟩ := mem_olds.mp hid
  obtain ⟨u, hu, -, hpair⟩ := h.pair i p hp
  obtain ⟨e₀, he₀, hold⟩ := hpair.old id hid
  cases ht.symm.trans hu
  cases he.symm.trans he₀
  exact hold

/-- The new segments of a compaction. -/
theorem Inv.new (hid : id ∈ s.news i) : NewOk i t e := by
  obtain ⟨p, hp, rfl⟩ := mem_news.mp hid
  obtain ⟨u, hu, -, hpair⟩ := h.pair i p hp
  obtain ⟨e₀, he₀, hnew⟩ := hpair.new
  cases ht.symm.trans hu
  cases he.symm.trans he₀
  exact hnew

/-- A segment that is not committed is not an old one. -/
theorem Inv.not_old (hnone : e.commitTs = none) : id ∉ s.olds i := by
  intro hmem
  obtain ⟨c, hc, -⟩ := (h.old ht he hmem).committed
  cases hnone.symm.trans hc

end

/-- A committed segment is not one that an undecided transaction has written. -/
theorem SegmentOk.txnId_ne {mgr : TxnManager} (he : SegmentOk mgr e)
    (hc : e.commitTs = some c) (ht : mgr.txns i = some t) (hopen : ¬ t.Applied) : e.txnId ≠ i := by
  rintro rfl
  obtain ⟨u, hu, happlied, -⟩ := he.committed c hc
  cases ht.symm.trans hu
  exact hopen happlied

section

variable (h : Inv s) (ht : s.mgr.txns i = some t) (hopen : ¬ t.Applied)
include h ht hopen

theorem Inv.not_mem_added
    (he : s.segmentMap id = some e) (hc : e.commitTs = some c) (b : Bool) : (id, b) ∉ s.added i :=
  fun hmem =>
  (h.segment id e he).txnId_ne hc ht hopen (h.added_txn i _ hmem e he)

/-- What `CommitCompact` and `CommitWrite` leave of a committed segment. -/
theorem Inv.commitWrite_committed (he : s.segmentMap id = some e) (hc : e.commitTs = some c)
    (ts : ℕ) : s.commitWrite i ts id = some (if id ∈ s.olds i then e.setDeprecated ts else e) := by
  have hnot := h.not_mem_added ht hopen he hc
  rw [Table.commitWrite, he, map_some, if_neg (hnot true), if_neg (hnot false)]

theorem Inv.commitWrite_segment (hlt : t.beginTs < t.commitTs) (ht' : mgr'.txns i = some t')
    (happlied : t'.Applied) (hts : t'.commitTs = t.commitTs) (hkeep : KeepsApplied s.mgr mgr')
    {e' : SegmentEntry} (he' : s.commitWrite i t.commitTs id = some e') : SegmentOk mgr' e' := by
  obtain ⟨e, he, -⟩ := map_eq_some_iff.mp he'
  have hok := (h.segment id e he).keep hkeep
  have hnew : ∀ b, (id, b) ∈ s.added i → e.commitTs = none →
      SegmentOk mgr' (e.commitSegment t.commitTs b) := by
    intro b hmem hnone
    have hstatus : e.status = .unsealed := by
      by_contra hne
      have := hok.isSome hne
      rw [hnone] at this
      cases this
    have hdep : e.deprecateTs = none := hok.undeprecated (by simp [hstatus])
    refine ⟨?_, ?_, fun _ => hdep, ?_⟩
    · intro c hc
      simp only [SegmentEntry.commitSegment, hnone, none_or, some.injEq] at hc
      have htxn : (e.commitSegment t.commitTs b).txnId = i := h.added_txn i _ hmem e he
      rw [htxn]
      exact ⟨t', ht', happlied, hts.trans hc⟩
    · simp [SegmentEntry.commitSegment, hnone]
    · intro c d _ hd
      rw [show (e.commitSegment t.commitTs b).deprecateTs = none from hdep] at hd
      cases hd
  cases hc : e.commitTs with
  | some c =>
    rw [h.commitWrite_committed ht hopen he hc] at he'
    split at he' <;> cases he'
    next hmem =>
      obtain ⟨c₀, hc₀, hle⟩ := (h.old ht he hmem).committed
      refine ⟨hok.committed, fun _ => by simp [SegmentEntry.setDeprecated, hc], nofun, ?_⟩
      intro c' d hc' hd
      cases hd
      rw [show e.commitTs = some c' from hc'] at hc₀
      cases hc₀
      omega
    · exact hok
  | none =>
    rw [Table.commitWrite, he, map_some, if_neg (h.not_old ht he hc)] at he'
    split at he'
    next hmem =>
      cases he'
      exact hnew true hmem hc
    · split at he' <;> cases he'
      next hmem => exact hnew false hmem hc
      · exact hok

end

end Commit

end Infinity.Compaction
