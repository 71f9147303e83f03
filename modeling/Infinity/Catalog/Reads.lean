import Infinity.Catalog.NamingInvariant

/-! # Repeatable reads of a name

In every interleaving a transaction without entries of its own reads, of all versions that were
committed so far, the newest that is not newer than its begin (`Meta.Recorded`), whatever the
cleanup has taken out. So it reads the same all the time unless a version is committed later with a
time stamp before its begin. That happens to a transaction that begins when a writer has its commit
time stamp and the bottom half of its commit is not done yet (`not_repeatable_lateRun`), and to no
other one (`repeatableRead_of_run`).

* `Meta.Recorded.step`: every action keeps the record of the versions.
* `Meta.Ahead.step`: if no transaction begins at such a time, then writers that will commit have
  later time stamps than the begin of every active transaction. -/

namespace Infinity.Catalog

open Foundations Transactions List Option Entry

variable {β : Type*}

/-! ## The record -/

/-- The list shows the versions that were committed. -/
structure Meta.Recorded (s : Meta β) : Prop where
  read : ∀ beginTs, (∀ ts ∈ s.visibleTss, ts ≤ beginTs) →
    readAt beginTs (versions s.entryList) = readAt beginTs s.history
  covered : ∀ v ∈ s.history, (∃ e ∈ s.entryList, ∃ ts, e.commitTs = some ts ∧ v.ts ≤ ts) ∨
    ∃ ts ∈ s.visibleTss, v.ts < ts
  newer : ∀ e ∈ s.entryList, e.pending s.roll = true → ∀ v ∈ s.history, v.ts ≤ s.begins e.txnId
  sorted : s.history.Pairwise fun v w => w.ts < v.ts

section Lists

variable {roll : ℕ → Bool} {begins : ℕ → ℕ} {list : List (Entry β)} {e : Entry β} {i ts : ℕ}

theorem versions_append (l l' : List (Entry β)) : versions (l ++ l') = versions l ++ versions l' :=
  filterMap_append

/-- The cleanup takes out only versions before its time stamp. -/
theorem lt_of_not_mem_pickCleanup
    (hordered : list.Pairwise fun e f => ∀ ts ts', e.commitTs = some ts → f.commitTs = some ts' →
    ts' ≤ ts) (visibleTs : ℕ) (he : e ∈ list) (hts : e.commitTs = some ts) :
    e ∈ (pickCleanup visibleTs list).1 ∨ ts < visibleTs := by
  induction list with
  | nil => cases he
  | cons f list ih =>
    obtain ⟨hf, hordered⟩ := pairwise_cons.mp hordered
    rw [pickCleanup]
    split
    next hold =>
      obtain ⟨c, hc, hlt⟩ := (any_eq_true _ _).mp hold
      have hlt : c < visibleTs := of_decide_eq_true hlt
      right
      rcases mem_cons.mp he with rfl | he
      · cases hc.symm.trans hts
        exact hlt
      · exact (hf e he c ts hc hts).trans_lt hlt
    next =>
      rcases mem_cons.mp he with rfl | he
      · exact .inl mem_cons_self
      · exact (ih hordered he).imp_left (mem_cons_of_mem _)

theorem versions_deleteEntry (hnone : ∀ e ∈ list, e.committed → e.txnId ≠ i) :
    versions (deleteEntry i list) = versions list := by
  unfold versions deleteEntry
  rw [filterMap_filter]
  refine filterMap_congr fun e he => ?_
  by_cases hei : e.txnId = i
  · have hts : e.commitTs = none := by
      simpa [committed] using mt (hnone e he) (not_not_intro hei)
    simp [version?, hts]
  · simp [hei]

/-- A commit puts versions in front, the newest entry of the transaction first. -/
theorem Chain.versions_commit (h : Chain roll begins list) (he : e ∈ list)
    (hp : e.pending roll) : ∃ f newer,
      list.find? (fun f => f.txnId = e.txnId && !f.committed) = some f ∧ (∀ v ∈ newer, v.ts = ts) ∧
      versions (list.map (·.commit e.txnId ts)) =
        ⟨ts, if f.deleted then none else some { f with commitTs := some ts }⟩ ::
        (newer ++ versions list) := by
  have hversions : ∀ l : List (Entry β), versions (l.map ({ · with commitTs := some ts })) =
      l.map fun f => ⟨ts, if f.deleted then none else some { f with commitTs := some ts }⟩ := by
    intro l
    rw [versions, filterMap_map, ← filterMap_eq_map]
    rfl
  have hold : versions (list.filter fun e => !e.pending roll) = versions list := by
    have hnil : versions (list.filter (·.pending roll)) = [] :=
      versions_eq_nil fun f hf => (pending_iff.mp (mem_filter.mp hf).2).1
    conv_rhs => rw [← pending_append_not_pending h.front, versions_append, hnil, nil_append]
  rw [h.map_commit he hp, versions_append, hversions, hold]
  cases hpending : list.filter (·.pending roll) with
  | nil =>
    have hmem : e ∈ list.filter (·.pending roll) := mem_filter.mpr ⟨he, hp⟩
    rw [hpending] at hmem
    cases hmem
  | cons f rest =>
    obtain ⟨hf, hpf⟩ := mem_filter.mp (hpending ▸ mem_cons_self (a := f) (l := rest))
    refine ⟨f, _, ?_, ?_, rfl⟩
    · have hfront := pending_append_not_pending h.front
      rw [hpending] at hfront
      rw [← hfront]
      refine find?_cons_of_pos ?_
      simp [h.single f hf e he hpf hp, (pending_iff.mp hpf).1]
    · intro v hv
      obtain ⟨g, -, rfl⟩ := mem_map.mp hv
      rfl

end Lists

section Recorded

variable {s s' : Meta β} {a : MetaAction β} {i : ℕ} {t : Txn} {mgr : TxnManager}
    {list : List (Entry β)}

namespace Meta.Recorded

/-- A committed entry stays in the list when a transaction commits. -/
theorem mem_map_commit {e : Entry β} {ts c : ℕ} (he : e ∈ list)
    (hc : e.commitTs = some c) : e ∈ list.map (·.commit i ts) := by
  refine mem_map.mpr ⟨e, he, commit_of_ne fun hown => ?_⟩
  simp [committed, hc] at hown

/-- The record after the bottom half of a commit. -/
theorem commitBottom (h : s.Recorded) (hinv : s.Inv) (hb : CommitsBottom s mgr i t) :
    ({ s.commitBottom i t.commitTs with mgr := mgr } : Meta β).Recorded := by
  have hroll := rolls_commitBottom hb
  have hbegins := begins_commitBottom hb
  by_cases hheld : HoldsNone i s.entryList
  · -- nothing is committed on this name
    have hlist : s.entryList.map (·.commit i t.commitTs) = s.entryList :=
      map_commit_of_holdsNone hheld
    have hnew : s.newVersion i t.commitTs = none := by
      rw [Meta.newVersion, find?_eq_none.mpr, map_none]
      intro e he hcond
      obtain ⟨hei, hc⟩ := Bool.and_eq_true_iff.mp hcond
      exact hheld e he (by simpa using hc) (of_decide_eq_true hei)
    have hsame : ({ s.commitBottom i t.commitTs with mgr := mgr } : Meta β) =
        { s with mgr := mgr } := by
      simp [Meta.commitBottom, hlist, hnew]
    rw [hsame]
    refine ⟨h.read, h.covered, fun e he hp v hv => ?_, h.sorted⟩
    have hp' : e.pending s.roll := by
      rw [pending_iff] at hp ⊢
      exact ⟨hp.1, (hroll e.txnId).symm.trans hp.2⟩
    exact (h.newer e he hp' v hv).trans (hbegins e.txnId).ge
  · obtain ⟨e, he, hc, rfl⟩ : ∃ e ∈ s.entryList, e.committed = false ∧ e.txnId = i := by
      simpa [HoldsNone] using hheld
    have hp : e.pending s.roll := pending_iff.mpr ⟨hc, hinv.roll_of_sent hb.txn hb.sent⟩
    have hlt := hinv.begins_lt hb.txn hb.sent
    obtain ⟨f, newer, hfind, hnewer, hversions⟩ := hinv.chain.versions_commit he hp
    have hnew : s.newVersion e.txnId t.commitTs =
        some ⟨t.commitTs,
        if f.deleted then none else some { f with commitTs := some t.commitTs }⟩ := by
      rw [Meta.newVersion, hfind]
      rfl
    refine ⟨fun beginTs hts => ?_, fun v hv => ?_, fun g hg hpg => ?_, ?_⟩
    · show readAt beginTs (versions (s.entryList.map (·.commit e.txnId t.commitTs))) =
        readAt beginTs ((s.newVersion e.txnId t.commitTs).toList ++ s.history)
      rw [hversions, hnew, toList_some, singleton_append]
      by_cases hle : t.commitTs ≤ beginTs
      · rw [readAt_cons_of_le _ hle, readAt_cons_of_le _ hle]
      · have hnot : beginTs < t.commitTs := not_le.mp hle
        rw [readAt_cons_of_lt hnot, readAt_cons_of_lt hnot,
          readAt_append_of_lt fun v hv => hnot.trans_eq (hnewer v hv).symm]
        exact h.read beginTs hts
    · change v ∈ (s.newVersion e.txnId t.commitTs).toList ++ s.history at hv
      rw [hnew, toList_some, singleton_append] at hv
      rcases mem_cons.mp hv with rfl | hv
      · refine .inl ⟨_, mem_map_of_mem he, t.commitTs, ?_, le_rfl⟩
        rw [commit, if_pos ⟨rfl, hc⟩]
      · refine (h.covered v hv).imp_left ?_
        rintro ⟨g, hg, c, hgc, hle⟩
        exact ⟨g, mem_map_commit hg hgc, c, hgc, hle⟩
    · -- all that was pending is committed
      obtain ⟨hgc, hnot⟩ := pending_iff.mp hpg
      obtain ⟨hmem, hne⟩ := mem_of_map_commit hg hgc
      have hpg' : g.pending s.roll := pending_iff.mpr ⟨hgc, (hroll g.txnId).symm.trans hnot⟩
      exact absurd (hinv.chain.single g hmem e he hpg' hp) hne
    · show ((s.newVersion e.txnId t.commitTs).toList ++ s.history).Pairwise fun v w => w.ts < v.ts
      rw [hnew, toList_some, singleton_append]
      exact pairwise_cons.mpr ⟨fun w hw => (h.newer e he hp w hw).trans_lt hlt, h.sorted⟩

/-- The record after an action of a running transaction. -/
theorem written (h : s.Recorded) (hinv : s.Inv) (ht : s.mgr.txns i = some t)
    (hstage : t.stage = .running) (hw : Written s i t.beginTs list) :
    (s.setList i list).Recorded := by
  have hchain := (hinv.written ht hstage hw).chain
  cases hw with
  | same => exact ⟨h.read, h.covered, h.newer, h.sorted⟩
  | @push e huncommitted hown hhead =>
    have hp := hinv.pending_of_push ht hstage huncommitted hown
    refine ⟨fun beginTs hts => ?_, fun v hv => ?_, fun f hf hpf v hv => ?_, h.sorted⟩
    · show readAt beginTs (versions (e :: s.entryList)) = readAt beginTs s.history
      rw [versions_cons_of_uncommitted huncommitted]
      exact h.read beginTs hts
    · refine (h.covered v hv).imp_left fun ⟨g, hg, c, hgc, hle⟩ => ?_
      exact ⟨g, mem_cons_of_mem _ hg, c, hgc, hle⟩
    · have hfe : f.txnId = e.txnId := hchain.single f hf e mem_cons_self hpf hp
      rw [hfe]
      rcases h.covered v hv with ⟨g, hg, c, hgc, hle⟩ | ⟨ts, hts, hlt⟩
      · exact hle.trans (hchain.begun e mem_cons_self hp g (mem_cons_of_mem _ hg) c hgc)
      · have hlive : t.Live := live_of_holds (by rw [hstage]; rfl)
        have hbegins : s.begins e.txnId = t.beginTs := by
          rw [hown, Meta.begins, ht]
          rfl
        exact (hlt.le.trans ((hinv.visible ts hts).2 i t ht hlive)).trans hbegins.ge
  | @pop e rest hlist hpending hown =>
    have hnone : e.commitTs = none := by
      simpa [committed] using (pending_iff.mp hpending).1
    refine ⟨fun beginTs hts => ?_, fun v hv => ?_, fun f hf => ?_, h.sorted⟩
    · have hread := h.read beginTs hts
      rw [hlist, versions_cons_of_uncommitted hnone] at hread
      exact hread
    · refine (h.covered v hv).imp_left fun ⟨g, hg, c, hgc, hle⟩ => ?_
      rw [hlist] at hg
      rcases mem_cons.mp hg with rfl | hg
      · cases hnone.symm.trans hgc
      · exact ⟨g, hg, c, hgc, hle⟩
    · exact h.newer f (hlist ▸ mem_cons_of_mem _ hf)

/-- **Every action keeps the record.** -/
theorem step (h : s.Recorded) (hinv : s.Inv) (hstep : s.step a = some s') : s'.Recorded := by
  cases hinv.step_cases hstep with
  | txn hmgr hfollows hb =>
    refine ⟨h.read, h.covered, fun e he hp v hv => ?_, h.sorted⟩
    have hp' := hinv.pending_of_txn hmgr hfollows hb he hp
    have hsame := hinv.begins_of_txn hmgr hfollows hb he (pending_iff.mp hp).1
    exact (h.newer e he hp' v hv).trans hsame.ge
  | commitBottom hmgr ht hstage hmap htxns => exact h.commitBottom hinv ⟨ht, hstage, hmap, htxns⟩
  | write _ ht hstage hw => exact h.written hinv ht hstage hw
  | @delete i t ht hstage =>
    have hne : ∀ e ∈ s.entryList, e.committed → e.txnId ≠ i := by
      rintro e he hc rfl
      have hroll := hinv.chain.unrolled e he hc
      rw [hinv.roll_of_delete ht hstage] at hroll
      cases hroll
    refine ⟨fun beginTs hts => ?_, fun v hv => ?_, fun e he => h.newer e (mem_filter.mp he).1,
      h.sorted⟩
    · show readAt beginTs (versions (deleteEntry i s.entryList)) = readAt beginTs s.history
      rw [versions_deleteEntry hne]
      exact h.read beginTs hts
    · refine (h.covered v hv).imp_left ?_
      rintro ⟨g, hg, c, hgc, hle⟩
      have hgi := hne g hg (by simp [committed, hgc])
      exact ⟨g, mem_filter.mpr ⟨hg, decide_eq_true hgi⟩, c, hgc, hle⟩
  | scan checkpointedTs =>
    refine ⟨fun beginTs hts => ?_, fun v hv => ?_, h.newer, h.sorted⟩
    · exact h.read beginTs fun ts hin => hts ts (mem_cons_of_mem _ hin)
    · refine (h.covered v hv).imp_right ?_
      rintro ⟨ts, hin, hlt⟩
      exact ⟨ts, mem_cons_of_mem _ hin, hlt⟩
  | @pick visibleTs hts =>
    have hsub := pickCleanup_sublist visibleTs s.entryList
    refine ⟨fun beginTs hall => ?_, fun v hv => ?_, fun e he => h.newer e (hsub.mem he), h.sorted⟩
    · show readAt beginTs (versions (pickCleanup visibleTs s.entryList).1) =
        readAt beginTs s.history
      rw [versions_pickCleanup, readAt_prune (hall visibleTs hts)]
      exact h.read beginTs hall
    · rcases h.covered v hv with ⟨g, hg, c, hgc, hle⟩ | hold
      · rcases lt_of_not_mem_pickCleanup hinv.chain.ordered visibleTs hg hgc with hkept | hlt
        · exact .inl ⟨g, hkept, c, hgc, hle⟩
        · exact .inr ⟨visibleTs, hts, hle.trans_lt hlt⟩
      · exact .inr hold

theorem start (type : EntryType) : (Meta.start type : Meta β).Recorded :=
  ⟨fun _ _ => rfl, nofun, nofun, .nil⟩

end Meta.Recorded

/-- **A transaction without entries of its own reads the versions that were committed.** -/
theorem Meta.Recorded.getEntry_eq (h : s.Recorded) (hinv : s.Inv) (ht : s.mgr.txns i = some t)
    (hlive : t.Live)
    (hnone : HoldsNone i s.entryList) :
    getEntryInner1 i t.beginTs s.entryList = readAt t.beginTs s.history := by
  rw [getEntryInner1_eq_readAt hnone]
  exact h.read t.beginTs fun ts hts => (hinv.visible ts hts).2 i t ht hlive

end Recorded

/-! ## Writers that wait for the bottom half -/

instance (t : Txn) : Decidable t.Dead := inferInstanceAs (Decidable (_ ∨ _))

/-- No transaction with entries of the name has its commit time stamp and may still commit. -/
def Meta.settled (s : Meta β) : Bool := s.entryList.all fun e => e.committed ||
    (s.mgr.txns e.txnId).all fun t => t.stamp.isNone || decide t.Dead

/-- Transactions begin at such times only. -/
def Meta.beginsSettled (s : Meta β) : MetaAction β → Bool
  | .txn (.beginTxn _) => s.settled
  | _ => true

def reading (β : Type*) : TransitionSystem (Meta β) (MetaAction β) :=
  (naming β).restrict fun s a => s.beginsSettled a = true

/-- The transactions that will commit entries have later time stamps than the begin of every active
transaction. -/
def Meta.Ahead (s : Meta β) : Prop :=
  ∀ e ∈ s.entryList, e.committed = false → ∀ t, s.mgr.txns e.txnId = some t → ¬ t.Dead →
    ∀ c, t.stamp = some c → ∀ j u, s.mgr.txns j = some u → u.Live → u.beginTs < c

section Ahead

variable {s s' : Meta β} {a : MetaAction β} {i : ℕ} {t : Txn} {mgr : TxnManager}

theorem Meta.Ahead.txn (h : s.Ahead) (hinv : s.Inv) {b : Action}
    (hok : s.beginsSettled (.txn b)) (hmgr : s.mgr.step b = some mgr)
    (hfollows : s.follows b) (hb : b ≠ .commitBottom) : ({ s with mgr := mgr } : Meta β).Ahead := by
  intro e he hc w' hw' hdead c hstamp j u hu hlive
  obtain ⟨w, w'', hw, hw'', -, -, hholds, -⟩ := hinv.holder_step hmgr hfollows hb he hc
  cases hw''.symm.trans hw'
  have hsource := stamp_of_step hmgr hb hw hw' (live_of_holds hholds) hdead hstamp
  rcases live_of_step hmgr hu hlive with ⟨v, hv, hvlive, heq⟩ | ⟨⟨store, rfl⟩, -, -⟩
  · rw [← heq]
    rcases hsource with ⟨hold, hdead⟩ | ⟨-, rfl⟩
    · exact h e he hc w hw hdead c hold j v hv hvlive
    · exact Nat.lt_succ_of_le (hinv.life.txn j v hv).begin_le
  · -- a transaction begins: no writer has its time stamp
    rcases hsource with ⟨hold, hdead⟩ | ⟨ha, -⟩
    · have hsettled := all_eq_true.mp hok e he
      rw [hc, Bool.false_or, hw] at hsettled
      simp [hold, hdead] at hsettled
    · cases ha

/-- **Writers that will commit have later time stamps than the begin of every active
transaction.** -/
theorem Meta.Ahead.step (h : s.Ahead) (hinv : s.Inv) (hok : s.beginsSettled a)
    (hstep : s.step a = some s') : s'.Ahead := by
  cases hinv.step_cases hstep with
  | txn hmgr hfollows hb => exact h.txn hinv hok hmgr hfollows hb
  | @commitBottom mgr i t hmgr ht hstage hmap htxns =>
    intro e he hc w hw hdead c hstamp j u hu hlive
    obtain ⟨hmem, hne⟩ := mem_of_map_commit he hc
    rcases txns_changed htxns hw with ⟨heq, -⟩ | ⟨-, hw⟩
    · exact absurd heq hne
    obtain ⟨v, hv, hvlive, heq⟩ | ⟨⟨store, ha⟩, -⟩ := live_of_step hmgr hu hlive
    · rw [← heq]
      exact h e hmem hc w hw hdead c hstamp j v hv hvlive
    · cases ha
  | write _ ht hstage hw =>
    cases hw with
    | same => exact h
    | @push e huncommitted hown _ =>
      intro f hf hc w hw hdead c hstamp
      rcases mem_cons.mp hf with rfl | hf
      · have hw : s.mgr.txns f.txnId = some w := hw
        rw [hown, ht] at hw
        rw [← Option.some.inj hw, Txn.stamp, hstage] at hstamp
        cases hstamp
      · exact h f hf hc w hw hdead c hstamp
    | pop hlist _ _ => exact fun f hf => h f (hlist ▸ mem_cons_of_mem _ hf)
  | delete ht hstage => exact fun e he => h e (mem_filter.mp he).1
  | scan checkpointedTs => exact h
  | @pick visibleTs hts =>
    exact fun e he => h e ((pickCleanup_sublist visibleTs s.entryList).mem he)

/-- What reads rest on. -/
structure Meta.Reads (s : Meta β) : Prop where
  inv : s.Inv
  recorded : s.Recorded
  ahead : s.Ahead

theorem Meta.Reads.step (h : s.Reads) (hstep : (reading β).step s a = some s') : s'.Reads := by
  obtain ⟨hok, hstep⟩ := TransitionSystem.restrict_step_eq_some.mp hstep
  exact ⟨h.inv.step hstep, h.recorded.step h.inv hstep, h.ahead.step h.inv hok hstep⟩

theorem Meta.Reads.of_reachable (h : (reading β).Reachable s) : s.Reads := by
  refine h.invariant (fun s hs => ?_) fun s a s' hinv hstep => hinv.step hstep
  obtain ⟨type, rfl⟩ := hs
  exact ⟨.start type, .start type, nofun⟩

end Ahead

/-! ## Repeatable reads -/

section Reads

variable {s s' : Meta β} {a : MetaAction β} {i : ℕ} {t t' : Txn}

/-- A step does not change what an active transaction reads of the record. -/
theorem Meta.Reads.readAt_step (h : s.Reads) (hstep : s.step a = some s')
    (ht : s.mgr.txns i = some t) (hlive : t.Live) :
    readAt t.beginTs s'.history = readAt t.beginTs s.history := by
  cases h.inv.step_cases hstep with
  | @commitBottom mgr j u hmgr hu hstage hmap htxns =>
    refine readAt_append_of_lt fun v hv => ?_
    obtain ⟨e, hfind, rfl⟩ := map_eq_some_iff.mp (mem_toList.mp hv)
    have hcond := find?_some hfind
    simp only [Bool.and_eq_true, decide_eq_true_eq, Bool.not_eq_true'] at hcond
    have hdead : ¬ u.Dead := by simp [Txn.Dead, hstage]
    exact h.ahead e (mem_of_find?_eq_some hfind) hcond.2 u (hcond.1 ▸ hu) hdead u.commitTs
      (by simp [Txn.stamp, hstage]) i t ht hlive
  | txn | write | delete | scan | pick => rfl

theorem Meta.Inv.type_eq (h : s.Inv) (hstep : s.step a = some s') : s'.type = s.type := by
  cases h.step_cases hstep <;> rfl

/-- A transaction stays. -/
theorem Meta.Inv.txn_of_step (h : s.Inv) (hstep : s.step a = some s') (ht : s.mgr.txns i = some t) :
    ∃ t', s'.mgr.txns i = some t' ∧ t'.beginTs = t.beginTs ∧ (t'.Live → t.Live) := by
  have hi := h.life.ids i t ht
  cases h.step_cases hstep with
  | txn hmgr | commitBottom hmgr => exact Transactions.txn_of_step hmgr ht hi
  | write | delete | scan | pick => exact ⟨t, ht, rfl, fun hl => hl⟩

/-- What an active transaction reads of the record does not change in a run. -/
theorem Meta.Reads.run (h : s.Reads) {as : List (MetaAction β)}
    (hrun : (reading β).run s as = some s') (ht : s.mgr.txns i = some t) :
      s'.Reads ∧ s'.type = s.type ∧ ∃ t', s'.mgr.txns i = some t' ∧ t'.beginTs = t.beginTs ∧
        (t'.Live → t.Live ∧ readAt t.beginTs s'.history = readAt t.beginTs s.history) := by
  refine TransitionSystem.run_invariant (P := fun s' => s'.Reads ∧ s'.type = s.type ∧
    ∃ t', s'.mgr.txns i = some t' ∧ t'.beginTs = t.beginTs ∧
      (t'.Live → t.Live ∧ readAt t.beginTs s'.history = readAt t.beginTs s.history)) ?_ as
    ⟨h, rfl, t, ht, rfl, fun hl => ⟨hl, rfl⟩⟩ hrun
  rintro s₁ a s₂ ⟨h₁, htype, t₁, ht₁, hbegin, hread⟩ hstep
  have hstep' := (TransitionSystem.restrict_step_eq_some.mp hstep).2
  obtain ⟨t₂, ht₂, hbegin₂, hlive₂⟩ := h₁.inv.txn_of_step hstep' ht₁
  refine ⟨h₁.step hstep, (h₁.inv.type_eq hstep').trans htype, t₂, ht₂, hbegin₂.trans hbegin,
    fun hl => ?_⟩
  obtain ⟨hlive, hsame⟩ := hread (hlive₂ hl)
  have hkept := h₁.readAt_step hstep' ht₁ (hlive₂ hl)
  rw [hbegin] at hkept
  exact ⟨hlive, hkept.trans hsame⟩

/-- **Repeatable reads**: if transactions begin only when no writer of the name waits for the bottom
half of its commit, then an active transaction without entries of its own gets the same all the
time, the version with the greatest time stamp that is not after its begin. -/
theorem repeatableRead_of_run (hs : (reading β).Reachable s) {as : List (MetaAction β)}
    (hrun : (reading β).run s as = some s') (ht : s.mgr.txns i = some t)
    (ht' : s'.mgr.txns i = some t') (hlive : t'.Live) (hnone : HoldsNone i s.entryList)
    (hnone' : HoldsNone i s'.entryList) :
      getEntry s'.type i t'.beginTs s'.entryList = getEntry s.type i t.beginTs s.entryList ∧
      (∀ v ∈ s'.history, v.ts ≤ t.beginTs → (∀ w ∈ s'.history, w.ts ≤ t.beginTs → w.ts ≤ v.ts) →
        (getEntry s.type i t.beginTs s.entryList).1 = v.value) ∧
      ((∀ v ∈ s'.history, t.beginTs < v.ts) → (getEntry s.type i t.beginTs s.entryList).1 =
      none) := by
  have h := Meta.Reads.of_reachable hs
  obtain ⟨h', htype, u, hu, hbegin, hread⟩ := h.run hrun ht
  cases hu.symm.trans ht'
  obtain ⟨hlive₀, hsame⟩ := hread hlive
  have hget := h.recorded.getEntry_eq h.inv ht hlive₀ hnone
  have hget' := h'.recorded.getEntry_eq h'.inv ht' hlive hnone'
  have hfst : (getEntry s.type i t.beginTs s.entryList).1 = readAt t.beginTs s'.history := by
    rw [hsame, ← hget, getEntry]
    cases getEntryInner1 i t.beginTs s.entryList <;> rfl
  refine ⟨?_, fun v hv hle hgreatest => ?_, fun hall => ?_⟩
  · rw [getEntry, getEntry, hget', hget, hbegin, hsame, htype]
  · rw [hfst]
    exact readAt_eq_of_greatest h'.recorded.sorted hv hle hgreatest
  · rw [hfst]
    exact readAt_eq_none hall

end Reads

/-! ## Runs -/

/-- A transaction creates the name and takes its commit time stamp, and then another one begins. -/
def lateBegin : List (MetaAction ℕ) :=
  [.txn (.beginTxn ⟨∅, []⟩), .addEntry 1 .error 7, .txn (.getCommitTimeStampW 1),
    .txn (.beginTxn ⟨∅, []⟩)]

def commitRun : List (MetaAction ℕ) :=
  [.txn (.setTxnCommitting 1), .txn (.prepareCommit1 1), .txn (.checkConflict 1),
    .txn (.sendToWAL 1), .txn .commitBottom, .txn (.finishTxn 1)]

/-- The second one does not find the name at first, and then it does. -/
theorem not_repeatable_lateRun : ∃ s s', (naming ℕ).Reachable s ∧
    (naming ℕ).run (.start .table) lateBegin = some s ∧ (naming ℕ).run s commitRun = some s' ∧
    (∃ t, s'.mgr.txns 2 = some t ∧ t.Live ∧ t.beginTs = 3) ∧ HoldsNone 2 s.entryList ∧
    HoldsNone 2 s'.entryList ∧
    getEntry .table 2 3 s.entryList = (none, .error .tableNotExist "Not existed entry.") ∧
    getEntry .table 2 3 s'.entryList = (some ⟨1, some 2, false, 7⟩, .ok) :=
  ⟨_, _, .of_run lateBegin (.initial ⟨.table, rfl⟩) rfl, rfl, rfl,
    ⟨_, rfl, ⟨nofun, nofun, nofun, nofun⟩, rfl⟩, by decide, by decide, rfl, rfl⟩

/-- A transaction that begins before the time stamp is taken. -/
def earlyBegin : List (MetaAction ℕ) :=
  [.txn (.beginTxn ⟨∅, []⟩), .addEntry 1 .error 7, .txn (.beginTxn ⟨∅, []⟩),
    .txn (.getCommitTimeStampW 1)]

def earlyState : Meta ℕ := ((reading ℕ).run (.start .table) earlyBegin).get (by decide)

def committedState : Meta ℕ := ((reading ℕ).run earlyState commitRun).get (by decide)

/-- It does not find the name, and not after the commit either. -/
theorem repeatableRead_earlyRun : committedState.history.map Version.ts = [3] ∧
    getEntry .table 2 2 committedState.entryList = getEntry .table 2 2 earlyState.entryList ∧
    getEntry .table 2 2 earlyState.entryList =
    (none, .error .tableNotExist "Not existed entry.") := by
  have hs : (reading ℕ).Reachable earlyState :=
    .of_run earlyBegin (.initial ⟨.table, rfl⟩) (some_get _).symm
  have hrun : (reading ℕ).run earlyState commitRun = some committedState := (some_get _).symm
  have hread :=
    repeatableRead_of_run (i := 2) hs hrun rfl rfl ⟨nofun, nofun, nofun, nofun⟩ (by decide)
      (by decide)
  exact ⟨by decide, hread.1, by decide⟩

end Infinity.Catalog
