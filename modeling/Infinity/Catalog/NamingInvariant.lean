import Infinity.Catalog.Naming

/-! # What holds of the entries of a name in every interleaving

The shape of the entry list holds in every state that is reached (`Meta.Inv`). A step of the manager
changes only which transactions are being rolled back; a running transaction writes in front of the
list (`Written`); the bottom half of a commit, the end of a rollback and the cleanup are the methods
of the list. -/

namespace Infinity.Catalog

open Foundations Transactions List Option Entry

variable {β : Type*} {e : Entry β}

def holds : Stage → Bool
  | .bottomed | .committed | .rollbacked | .readCommitted | .gone => false
  | _ => true

/-- What holds in every reachable state. -/
structure Meta.Inv (s : Meta β) : Prop where
  life : Life s.mgr
  holder : ∀ e ∈ s.entryList, e.committed = false → ∃ t, s.mgr.txns e.txnId = some t ∧
    holds t.stage = true
  done : ∀ e ∈ s.entryList, e.committed = true →
    ∃ t, s.mgr.txns e.txnId = some t ∧ (t.stage = .bottomed ∨ t.stage = .committed)
  chain : Chain s.roll s.begins s.entryList
  visible : ∀ ts ∈ s.visibleTss, ts ≤ s.mgr.startTs ∧ ∀ j u, s.mgr.txns j = some u → u.Live →
    ts ≤ u.beginTs

/-! ## States of transactions -/

section States

variable {mgr : TxnManager} {i : ℕ} {t : Txn} {a : Action} {x y : Stage}

theorem live_of_holds (h : holds t.stage) : t.Live := by
  refine ⟨?_, ?_, ?_, ?_⟩ <;> intro hs <;> rw [hs] at h <;> cases h

/-- The state of a live transaction is known. -/
theorem getTxnState_of_live (hlife : Life mgr) (ht : mgr.txns i = some t) (hlive : t.Live) :
    mgr.getTxnState i = t.stage.state := by
  have hmap : mgr.txnMap.contains i := contains_iff_mem.mpr ((hlife.txn i t ht).live hlive).1
  rw [TxnManager.getTxnState, if_pos hmap, ht]
  rfl

/-- A transaction whose bottom half is done is not taken for one that is rolled back. -/
theorem not_rolls_of_done (ht : mgr.txns i = some t)
    (hdone : t.stage = .bottomed ∨ t.stage = .committed) : rolls (mgr.getTxnState i) = false := by
  rw [TxnManager.getTxnState]
  split
  · rcases hdone with hs | hs <;> simp [ht, hs, Stage.state, rolls]
  · rfl

section

variable (h : Moves a i x y)
include h

/-- Where the actions lead the transactions that have uncommitted entries. -/
theorem holds_or_of_moves (hx : holds x) :
    holds y ∨ a = .commitRead i ∨ a = .finishRead i ∨ a = .finishRollback i ∨
    a = .commitBottom := by
  cases h <;> first | exact .inl rfl | exact absurd hx (by decide) | simp

/-- Only a rollback begins to roll a transaction back. -/
theorem rolls_eq_of_moves
    (hy : holds y) (habort : a ≠ .abort i) (hrollback : a ≠ .rollback i) :
    rolls y.state = rolls x.state := by
  cases h <;> first | rfl | exact absurd rfl habort | exact absurd rfl hrollback | cases hy

theorem rolls_of_moves (ha : a = .abort i ∨ a = .rollback i) : rolls y.state := by
  cases h <;> rcases ha with ha | ha <;> first | rfl | cases ha

/-- The bottom half of a commit is done for good. -/
theorem done_of_moves (hx : x = .bottomed ∨ x = .committed) : y = .bottomed ∨ y = .committed := by
  cases h with
  | finishTxn => exact .inr rfl
  | finishRead ha => rcases ha with rfl | rfl <;> rcases hx with hx | hx <;> cases hx
  | _ => rcases hx with hx | hx <;> cases hx

end

end States

/-! ## Actions of transactions -/

section Txn

variable {s s' : Meta β} {mgr : TxnManager} {i : ℕ} {t : Txn} {a : Action}

namespace Meta.Inv

theorem roll_of_holder (h : s.Inv) (ht : s.mgr.txns i = some t) (hholds : holds t.stage) :
    s.roll i = rolls t.stage.state := by
  rw [Meta.roll, getTxnState_of_live h.life ht (live_of_holds hholds)]

section

variable (h : s.Inv) (hstep : s.mgr.step a = some mgr)
include h hstep

/-- The time stamps of the cleanups after a step of the manager. -/
theorem visible_step :
    ∀ ts ∈ s.visibleTss, ts ≤ mgr.startTs ∧ ∀ j u, mgr.txns j = some u → u.Live →
    ts ≤ u.beginTs := by
  intro ts hts
  obtain ⟨hle, hall⟩ := h.visible ts hts
  refine ⟨hle.trans (startTs_le_of_step hstep), fun j u hu hlive => ?_⟩
  rcases live_of_step hstep hu hlive with ⟨t, ht, htlive, heq⟩ | ⟨-, -, heq⟩
  · rw [← heq]
    exact hall j t ht htlive
  · rw [heq]
    exact hle.trans (Nat.le_succ _)

/-- A transaction after a step of the manager. -/
theorem moves_step {u : Txn} (hu : s.mgr.txns i = some u) :
    ∃ u', mgr.txns i = some u' ∧ u'.beginTs = u.beginTs ∧
    (u'.stage = u.stage ∨ Moves a i u.stage u'.stage) := by
  rcases exists_moves hstep with ⟨store, -, rfl⟩ | ⟨-, rfl⟩ | ⟨j, t, t', hm⟩
  · have hle := h.life.ids _ _ hu
    exact ⟨u, (setTxn_other (by omega)).trans hu, rfl, .inl rfl⟩
  · exact ⟨u, hu, rfl, .inl rfl⟩
  · by_cases hij : i = j
    · subst hij
      cases hm.txn.symm.trans hu
      exact ⟨t', by rw [hm.txns, setTxn_self], hm.begin_eq, .inr hm.moves⟩
    · exact ⟨u, (hm.other hij).trans hu, rfl, .inl rfl⟩

/-- The transaction of an uncommitted entry after a step of the manager. -/
theorem holder_step (hfollows : s.follows a)
    (ha : a ≠ .commitBottom) (he : e ∈ s.entryList) (hc : e.committed = false) :
    ∃ u u', s.mgr.txns e.txnId = some u ∧ mgr.txns e.txnId = some u' ∧ u'.beginTs = u.beginTs ∧
      holds u.stage ∧ holds u'.stage ∧
      ((a = .abort e.txnId ∨ a = .rollback e.txnId) ∧ rolls u'.stage.state ∨
        rolls u'.stage.state = rolls u.stage.state) := by
  obtain ⟨u, hu, hholds⟩ := h.holder e he hc
  obtain ⟨u', hu', hbegin, hmoves⟩ := h.moves_step hstep hu
  rcases hmoves with hsame | hmoves
  · exact ⟨u, u', hu, hu', hbegin, hholds, by rw [hsame, hholds], .inr (by rw [hsame])⟩
  · have hnone : ∀ {b : Action}, a = b → (s.follows b → HoldsNone e.txnId s.entryList) → False := by
      rintro b rfl hb
      exact hb hfollows e he hc rfl
    have hholds' : holds u'.stage := by
      rcases holds_or_of_moves hmoves hholds with hy | heq | heq | heq | heq
      · exact hy
      · exact (hnone heq of_decide_eq_true).elim
      · exact (hnone heq of_decide_eq_true).elim
      · exact (hnone heq of_decide_eq_true).elim
      · exact absurd heq ha
    refine ⟨u, u', hu, hu', hbegin, hholds, hholds', ?_⟩
    by_cases hroll : a = .abort e.txnId ∨ a = .rollback e.txnId
    · exact .inl ⟨hroll, rolls_of_moves hmoves hroll⟩
    · rw [not_or] at hroll
      exact .inr (rolls_eq_of_moves hmoves hholds' hroll.1 hroll.2)

theorem done_step (he : e ∈ s.entryList) (hc : e.committed) :
    ∃ u, mgr.txns e.txnId = some u ∧ (u.stage = .bottomed ∨ u.stage = .committed) := by
  obtain ⟨u, hu, hdone⟩ := h.done e he hc
  obtain ⟨u', hu', -, hmoves⟩ := h.moves_step hstep hu
  refine ⟨u', hu', ?_⟩
  rcases hmoves with hsame | hmoves
  · rw [hsame]
    exact hdone
  · exact done_of_moves hmoves hdone

end

/-- Which transactions are being rolled back after a rollback has begun. -/
theorem rolls_setTxn {t' : Txn} (hmap : mgr.txnMap = s.mgr.txnMap)
    (htxns : mgr.txns = (s.mgr.setTxn i t').txns) (hi : i ∈ s.mgr.txnMap)
    (hroll : rolls t'.stage.state) (j : ℕ) : rolls (mgr.getTxnState j) = (s.roll j || j == i) := by
  rw [Meta.roll, TxnManager.getTxnState, TxnManager.getTxnState, hmap, htxns]
  by_cases hj : j = i
  · subst hj
    rw [if_pos (contains_iff_mem.mpr hi), setTxn_self]
    simp [hroll]
  · rw [setTxn_other hj]
    simp [hj]

/-- The begin of a rollback. -/
theorem rollback_eq (hstep : s.mgr.step a = some mgr) (ha : a = .abort i ∨ a = .rollback i) :
    ∃ t t', s.mgr.txns i = some t ∧ holds t.stage ∧ rolls t.stage.state = false ∧
      mgr.txnMap = s.mgr.txnMap ∧ mgr.txns = (s.mgr.setTxn i t').txns ∧
      rolls t'.stage.state := by
  rcases ha with rfl | rfl
  all_goals
    obtain ⟨t, ht, hstage, ⟨⟩⟩ := atStage_eq_some hstep
    exact ⟨t, _, ht, by rw [hstage]; rfl, by rw [hstage]; rfl, rfl, rfl, rfl⟩

section

variable (h : s.Inv) (hstep : s.mgr.step a = some mgr) (ha : a = .abort i ∨ a = .rollback i)
include h hstep ha

/-- Which transactions are being rolled back when a rollback begins. -/
theorem rolls_rollback :
    s.roll i = false ∧ ∀ j, rolls (mgr.getTxnState j) = (s.roll j || j == i) := by
  obtain ⟨t, t', ht, hholds, hnot, hmap, htxns, hroll⟩ := rollback_eq hstep ha
  have hi : i ∈ s.mgr.txnMap := ((h.life.txn i t ht).live (live_of_holds hholds)).1
  exact ⟨(h.roll_of_holder ht hholds).trans hnot, rolls_setTxn hmap htxns hi hroll⟩

/-- The entries of a transaction whose rollback begins. -/
theorem chain_rollback : Chain (fun j => rolls (mgr.getTxnState j)) s.begins s.entryList := by
  obtain ⟨t, t', ht, hholds, -⟩ := rollback_eq hstep ha
  refine h.chain.rollback (fun e he hc => ?_) (h.rolls_rollback hstep ha).2
  rintro rfl
  obtain ⟨u, hu, hdone⟩ := h.done e he hc
  cases ht.symm.trans hu
  rcases hdone with hs | hs <;> rw [hs] at hholds <;> cases hholds

end

section

variable (h : s.Inv) (hmgr : s.mgr.step a = some mgr) (hfollows : s.follows a = true)
  (hb : a ≠ .commitBottom) (he : e ∈ s.entryList)
include h hmgr hfollows hb he

/-- A step of the manager makes no entry pending. -/
theorem pending_of_txn (hp : e.pending (fun j => rolls (mgr.getTxnState j))) :
    e.pending s.roll := by
  obtain ⟨hc, hnot⟩ := pending_iff.mp hp
  obtain ⟨u, u', hu, hu', -, hholds, hholds', hsame⟩ := h.holder_step hmgr hfollows hb he hc
  have hlive' := live_of_holds hholds'
  rw [getTxnState_of_live (h.life.step hmgr) hu' hlive'] at hnot
  refine pending_iff.mpr ⟨hc, ?_⟩
  rw [h.roll_of_holder hu hholds]
  rcases hsame with ⟨-, hroll⟩ | hsame
  · cases hroll.symm.trans hnot
  · rw [← hsame]
    exact hnot

theorem begins_of_txn (hc : e.committed = false) :
    ((mgr.txns e.txnId).map Txn.beginTs).getD 0 = s.begins e.txnId := by
  obtain ⟨u, u', hu, hu', hbegin, -⟩ := h.holder_step hmgr hfollows hb he hc
  rw [Meta.begins, hu, hu']
  exact hbegin

end

/-- **The actions of transactions but for the bottom half of a commit keep the invariant.** -/
theorem txn_step (h : s.Inv) (hstep : s.mgr.step a = some mgr) (hfollows : s.follows a)
    (ha : a ≠ .commitBottom) : ({ s with mgr := mgr } : Meta β).Inv := by
  have hlife := h.life.step hstep
  refine ⟨hlife, ?_, fun e he hc => h.done_step hstep he hc, ?_, h.visible_step hstep⟩
  · intro e he hc
    obtain ⟨-, u', -, hu', -, -, hholds', -⟩ := h.holder_step hstep hfollows ha he hc
    exact ⟨u', hu', hholds'⟩
  · have hbegins : ∀ e ∈ s.entryList, e.committed = false →
        ((mgr.txns e.txnId).map Txn.beginTs).getD 0 = s.begins e.txnId :=
      fun e he hc => h.begins_of_txn hstep hfollows ha he hc
    by_cases hroll : ∃ i, a = .abort i ∨ a = .rollback i
    · obtain ⟨i, hroll⟩ := hroll
      exact (h.chain_rollback hstep hroll).congr (fun _ _ => rfl) hbegins
    · refine h.chain.congr (fun e he => ?_) hbegins
      cases hc : e.committed with
      | true =>
        obtain ⟨u, hu, hdone⟩ := h.done_step hstep he hc
        rw [h.chain.unrolled e he hc]
        exact not_rolls_of_done hu hdone
      | false =>
        obtain ⟨u, u', hu, hu', -, hholds, hholds', hsame⟩ := h.holder_step hstep hfollows ha he hc
        have hstate : rolls (mgr.getTxnState e.txnId) = rolls u'.stage.state := by
          rw [getTxnState_of_live hlife hu' (live_of_holds hholds')]
        refine hstate.trans (Eq.trans ?_ (h.roll_of_holder hu hholds).symm)
        rcases hsame with ⟨heq, -⟩ | hsame
        · exact absurd ⟨e.txnId, heq⟩ hroll
        · exact hsame

end Meta.Inv

/-- The manager after the bottom half of a commit. -/
structure CommitsBottom (s : Meta β) (mgr : TxnManager) (i : ℕ) (t : Txn) : Prop where
  txn : s.mgr.txns i = some t
  sent : t.stage = .sent
  txnMap : mgr.txnMap = s.mgr.txnMap
  txns : mgr.txns = (s.mgr.setTxn i { t with stage := .bottomed }).txns

theorem commitBottom_eq (hstep : s.mgr.step .commitBottom = some mgr)
    (hfailed : mgr.failed = false) : ∃ i t, CommitsBottom s mgr i t ∧
    s.afterTxn .commitBottom = s.commitBottom i t.commitTs := by
  obtain ⟨i, rest, t, hqueue, hu, hstage, ⟨deleted, -, rfl, -⟩ | ⟨-, rfl⟩⟩ :=
    quiet_commitBottom hstep
  · refine ⟨i, t, ⟨hu.txn, hstage, rfl, rfl⟩, ?_⟩
    simp [Meta.afterTxn, hqueue, hu.txn]
  · cases hfailed

/-- The entries of a transaction that commits are not being rolled back. -/
theorem Meta.Inv.roll_of_sent (h : s.Inv) (ht : s.mgr.txns i = some t) (hstage : t.stage = .sent) :
    s.roll i = false := by
  rw [h.roll_of_holder ht (by rw [hstage]; rfl), hstage]
  rfl

/-- Its time stamp is after its begin. -/
theorem Meta.Inv.begins_lt (h : s.Inv) (ht : s.mgr.txns i = some t) (hstage : t.stage = .sent) :
    s.begins i < t.commitTs := by
  have hstamp := (h.life.txn i t ht).stamp_le t.commitTs (by simp [Txn.stamp, hstage])
  rw [Meta.begins, ht]
  exact hstamp.1

/-- The bottom half of a commit rolls nothing back. -/
theorem rolls_commitBottom (hb : CommitsBottom s mgr i t) (j : ℕ) :
    rolls (mgr.getTxnState j) = s.roll j := by
  rw [Meta.roll, TxnManager.getTxnState, TxnManager.getTxnState, hb.txnMap, hb.txns]
  by_cases hj : j = i
  · subst hj
    rw [setTxn_self, hb.txn]
    simp [hb.sent, Stage.state]
  · rw [setTxn_other hj]

theorem begins_commitBottom (hb : CommitsBottom s mgr i t) (j : ℕ) :
    ((mgr.txns j).map Txn.beginTs).getD 0 = s.begins j := by
  rw [Meta.begins, hb.txns]
  by_cases hj : j = i
  · subst hj
    rw [setTxn_self, hb.txn]
    rfl
  · rw [setTxn_other hj]

/-- **The bottom half of a commit keeps the invariant.** -/
theorem Meta.Inv.commitBottom (h : s.Inv) (hstep : s.mgr.step .commitBottom = some mgr)
    (hb : CommitsBottom s mgr i t) :
    ({ s.commitBottom i t.commitTs with mgr := mgr } : Meta β).Inv := by
  have hself : mgr.txns i = some { t with stage := .bottomed } := by rw [hb.txns, setTxn_self]
  have hother : ∀ {j : ℕ}, j ≠ i → mgr.txns j = s.mgr.txns j := fun hj => by
    rw [hb.txns, setTxn_other hj]
  refine ⟨h.life.step hstep, ?_, ?_, ?_, h.visible_step hstep⟩
  · intro e he hc
    obtain ⟨hmem, hne⟩ := mem_of_map_commit he hc
    obtain ⟨u, hu, hholds⟩ := h.holder e hmem hc
    exact ⟨u, (hother hne).trans hu, hholds⟩
  · intro e he hc
    obtain ⟨f, hf, rfl⟩ := mem_map.mp he
    rw [txnId_commit]
    by_cases hfi : f.txnId = i
    · rw [hfi]
      exact ⟨_, hself, .inl rfl⟩
    · rw [commit_of_ne fun hown => hfi hown.1] at hc
      obtain ⟨u, hu, hdone⟩ := h.done f hf hc
      exact ⟨u, (hother hfi).trans hu, hdone⟩
  · have hchain := h.chain.commit (h.roll_of_sent hb.txn hb.sent) (h.begins_lt hb.txn hb.sent).le
    exact hchain.congr (fun e _ => rolls_commitBottom hb e.txnId) fun e _ _ =>
      begins_commitBottom hb e.txnId

end Txn

/-! ## Entries -/

section Entries

variable {s s' : Meta β} {i : ℕ} {t : Txn} {list : List (Entry β)} {f : Entry β} {beginTs : ℕ}
  {conflictType : ConflictType} {data : β}

/-- What the result of `FindEntry` says about the entry that decides. -/
theorem decidedBy_spec {state : ℕ → TxnState} (h : decidedBy state i beginTs f ≠ .conflict) :
    (f.committed = false → f.txnId = i) ∧ (∀ ts, f.commitTs = some ts → ts ≤ beginTs) ∧
      (f.deleted ↔ decidedBy state i beginTs f = .notFound ∨ decidedBy state i beginTs f =
      .uncommittedDelete) ∧ (decidedBy state i beginTs f = .uncommitted → f.committed = false) := by
  unfold decidedBy at h ⊢
  cases hts : f.commitTs with
  | some ts =>
    by_cases hle : ts ≤ beginTs <;> cases hd : f.deleted <;> simp_all [committed]
  | none =>
    by_cases hown : state f.txnId = .started ∧ f.txnId = i
    · cases hd : f.deleted <;> simp_all [committed]
    · simp_all

/-- What `FindEntry` says about the first entry that stands. -/
theorem findEntry_head {r : FindResult}
    (hfind : findEntry s.mgr.getTxnState i beginTs s.entryList = r) (hr : r ≠ .conflict)
    (hf : f ∈ (standing s.roll s.entryList).head?) :
    (f.committed = false → f.txnId = i) ∧ (∀ ts, f.commitTs = some ts → ts ≤ beginTs) ∧
      (f.deleted ↔ r = .notFound ∨ r = .uncommittedDelete) ∧
      (r = .uncommitted → f.committed = false) := by
  rw [findEntry_eq] at hfind
  rw [show (standing (fun i => rolls (s.mgr.getTxnState i)) s.entryList).head? = some f from hf]
    at hfind
  subst hfind
  exact decidedBy_spec hr

/-- What a running transaction does to the list: nothing, or it puts an entry in front that is of
the other kind than the first one that stands, or it takes back its entry in front. -/
inductive Written (s : Meta β) (i beginTs : ℕ) : List (Entry β) → Prop where
  | same : Written s i beginTs s.entryList
  | push {e : Entry β} (huncommitted : e.commitTs = none) (hown : e.txnId = i)
      (hhead : ∀ f ∈ (standing s.roll s.entryList).head?, e.deleted ≠ f.deleted ∧
        (f.committed = false → f.txnId = i) ∧ ∀ ts, f.commitTs = some ts → ts ≤ beginTs) :
      Written s i beginTs (e :: s.entryList)
  | pop {e : Entry β} {rest : List (Entry β)} (hlist : s.entryList = e :: rest)
      (hpending : e.pending s.roll = true) (hown : e.txnId = i) : Written s i beginTs rest

theorem written_addEntry : Written s i beginTs
      (addEntry s.type s.mgr.getTxnState conflictType i beginTs data s.entryList).1 := by
  have hpush : ∀ r, findEntry s.mgr.getTxnState i beginTs s.entryList = r → r ≠ .conflict →
      (r = .notFound ∨ r = .uncommittedDelete) →
      Written s i beginTs (⟨i, none, false, data⟩ :: s.entryList) := by
    intro r hfind hr hnot
    refine .push rfl rfl fun f hf => ?_
    obtain ⟨hown, hle, hdeleted, -⟩ := findEntry_head hfind hr hf
    rw [hdeleted.mpr hnot]
    exact ⟨nofun, hown, hle⟩
  unfold addEntry
  cases hfind : findEntry s.mgr.getTxnState i beginTs s.entryList with
  | uncommittedDelete => exact hpush _ hfind nofun (.inr rfl)
  | notFound => exact hpush _ hfind nofun (.inl rfl)
  | uncommitted | found => cases conflictType <;> exact .same
  | conflict => exact .same

theorem written_dropEntry (h : s.Inv) : Written s i beginTs
      (dropEntry s.type s.mgr.getTxnState conflictType i beginTs data s.entryList).1 := by
  unfold dropEntry
  cases hfind : findEntry s.mgr.getTxnState i beginTs s.entryList with
  | uncommittedDelete | notFound => cases conflictType <;> exact .same
  | conflict => exact .same
  | found =>
    refine .push rfl rfl fun f hf => ?_
    obtain ⟨hown, hle, hdeleted, -⟩ := findEntry_head hfind nofun hf
    have hlive : f.deleted = false := by
      cases hd : f.deleted with
      | false => rfl
      | true => rcases hdeleted.mp hd with hr | hr <;> cases hr
    rw [hlive]
    exact ⟨nofun, hown, hle⟩
  | uncommitted =>
    -- the entry that decides is the transaction's own, and so in front
    cases hhead : (standing s.roll s.entryList).head? with
    | none =>
      rw [findEntry_eq, show (standing (fun i => rolls (s.mgr.getTxnState i)) s.entryList).head? =
        none from hhead] at hfind
      cases hfind
    | some f =>
      obtain ⟨hown, -, -, hc⟩ := findEntry_head hfind nofun hhead
      obtain ⟨hmem, hstands⟩ := mem_filter.mp (mem_of_mem_head? hhead)
      have hp : f.pending s.roll := by
        rw [stands, hc rfl, Bool.false_or, Bool.not_eq_true'] at hstands
        exact pending_iff.mpr ⟨hc rfl, hstands⟩
      obtain ⟨g, rest, hlist, hg, hstanding⟩ := h.chain.exists_head hmem hp
      have hgf : g = f := by
        rw [hstanding] at hhead
        exact Option.some.inj hhead
      subst hgf
      rw [hlist]
      exact .pop hlist hp (hown (hc rfl))

/-- The new entry of a running transaction is pending. -/
theorem Meta.Inv.pending_of_push (h : s.Inv) (ht : s.mgr.txns i = some t)
    (hstage : t.stage = .running) (huncommitted : e.commitTs = none) (hown : e.txnId = i) :
    e.pending s.roll := by
  refine pending_iff.mpr ⟨by simp [committed, huncommitted], ?_⟩
  rw [hown, h.roll_of_holder ht (by rw [hstage]; rfl), hstage]
  rfl

/-- The invariant after an action of a running transaction. -/
theorem Meta.Inv.written (h : s.Inv) (ht : s.mgr.txns i = some t) (hstage : t.stage = .running)
    (hw : Written s i t.beginTs list) : (s.setList i list).Inv := by
  have hholds : holds t.stage := by rw [hstage]; rfl
  cases hw with
  | same => exact ⟨h.life, h.holder, h.done, h.chain, h.visible⟩
  | @push e huncommitted hown hhead =>
    have hp := h.pending_of_push ht hstage huncommitted hown
    have hbegins : s.begins e.txnId = t.beginTs := by
      rw [hown, Meta.begins, ht]
      rfl
    refine ⟨h.life, ?_, ?_, ?_, h.visible⟩
    · intro f hf hfc
      rcases mem_cons.mp hf with rfl | hf
      · exact ⟨t, hown ▸ ht, hholds⟩
      · exact h.holder f hf hfc
    · intro f hf hfc
      rcases mem_cons.mp hf with rfl | hf
      · rw [(pending_iff.mp hp).1] at hfc
        cases hfc
      · exact h.done f hf hfc
    · refine h.chain.push hp fun f hf => ?_
      obtain ⟨hdeleted, hsame, hle⟩ := hhead f hf
      rw [hbegins, hown]
      exact ⟨hdeleted, hsame, hle⟩
  | pop hlist hpending hown =>
    refine ⟨h.life, ?_, ?_, ?_, h.visible⟩
    · exact fun f hf => h.holder f (hlist ▸ mem_cons_of_mem _ hf)
    · exact fun f hf => h.done f (hlist ▸ mem_cons_of_mem _ hf)
    · have hchain := h.chain
      rw [hlist] at hchain
      exact hchain.tail hpending

end Entries

/-! ## All actions -/

def MetaAction.writer : MetaAction β → Option ℕ
  | .addEntry i _ _ | .dropEntry i _ _ => some i
  | _ => none

/-- What a step does. -/
inductive Step (s : Meta β) : MetaAction β → Meta β → Prop where
  | txn {a : Action} {mgr : TxnManager} (hstep : s.mgr.step a = some mgr)
      (hfollows : s.follows a = true) (ha : a ≠ .commitBottom) :
      Step s (.txn a) { s with mgr := mgr }
  | commitBottom {mgr : TxnManager} {i : ℕ} {t : Txn} (hstep : s.mgr.step .commitBottom = some mgr)
      (ht : s.mgr.txns i = some t) (hstage : t.stage = .sent) (hmap : mgr.txnMap = s.mgr.txnMap)
      (htxns : mgr.txns = (s.mgr.setTxn i { t with stage := .bottomed }).txns) :
      Step s (.txn .commitBottom) { s.commitBottom i t.commitTs with mgr := mgr }
  | write {a : MetaAction β} {i : ℕ} {t : Txn} {list : List (Entry β)} (ha : a.writer = some i)
      (ht : s.mgr.txns i = some t) (hstage : t.stage = .running) (hw : Written s i t.beginTs list) :
      Step s a (s.setList i list)
  | delete {i : ℕ} {t : Txn} (ht : s.mgr.txns i = some t) (hstage :
      t.stage = .rollbacking ∨ t.stage = .aborted) :
      Step s (.deleteEntry i) { s with entryList := deleteEntry i s.entryList }
  | scan (checkpointedTs : ℕ) : Step s (.getCleanupScanTS checkpointedTs) { s with
      mgr := s.mgr.dropNull
      visibleTss := (s.mgr.getCleanupScanTS checkpointedTs).1 :: s.visibleTss }
  | pick {visibleTs : ℕ} (hts : visibleTs ∈ s.visibleTss) : Step s (.pickCleanup visibleTs) { s with
      entryList := (pickCleanup visibleTs s.entryList).1
      scanned := s.scanned ++ (pickCleanup visibleTs s.entryList).2 }

section Step

variable {s s' : Meta β} {a : MetaAction β}

theorem Meta.Inv.step_cases (h : s.Inv) (hstep : s.step a = some s') : Step s a s' := by
  cases a with
  | txn a =>
    obtain ⟨mgr, hmgr, heq⟩ := bind_eq_some_iff.mp hstep
    obtain ⟨hcond, ⟨⟩⟩ := ite_none_right_eq_some.mp heq
    obtain ⟨hfollows, hfailed⟩ := Bool.and_eq_true_iff.mp hcond
    by_cases ha : a = .commitBottom
    · subst ha
      obtain ⟨i, t, hb, hafter⟩ := commitBottom_eq hmgr (by simpa using hfailed)
      rw [hafter]
      exact .commitBottom hmgr hb.txn hb.sent hb.txnMap hb.txns
    · have hafter : s.afterTxn a = s := by
        cases a <;> first | rfl | exact absurd rfl ha
      rw [hafter]
      exact .txn hmgr hfollows ha
  | addEntry i conflictType data =>
    obtain ⟨t, ht, heq⟩ := bind_eq_some_iff.mp hstep
    obtain ⟨hstage, ⟨⟩⟩ := ite_none_right_eq_some.mp heq
    exact .write rfl ht hstage (written_addEntry)
  | dropEntry i conflictType data =>
    obtain ⟨t, ht, heq⟩ := bind_eq_some_iff.mp hstep
    obtain ⟨hstage, ⟨⟩⟩ := ite_none_right_eq_some.mp heq
    exact .write rfl ht hstage (written_dropEntry h)
  | deleteEntry i =>
    obtain ⟨t, ht, heq⟩ := bind_eq_some_iff.mp hstep
    obtain ⟨hstage, ⟨⟩⟩ := ite_none_right_eq_some.mp heq
    exact .delete ht hstage
  | getCleanupScanTS checkpointedTs =>
    cases hstep
    exact .scan checkpointedTs
  | pickCleanup visibleTs =>
    obtain ⟨hts, ⟨⟩⟩ := ite_none_right_eq_some.mp hstep
    exact .pick hts

/-- A transaction whose entries are taken out is being rolled back. -/
theorem Meta.Inv.roll_of_delete (h : s.Inv) {i : ℕ} {t : Txn} (ht : s.mgr.txns i = some t)
    (hstage : t.stage = .rollbacking ∨ t.stage = .aborted) : s.roll i := by
  rw [h.roll_of_holder ht (by rcases hstage with hs | hs <;> rw [hs] <;> rfl)]
  rcases hstage with hs | hs <;> rw [hs] <;> rfl

/-- **Every action keeps the invariant.** -/
theorem Meta.Inv.step (h : s.Inv) (hstep : s.step a = some s') : s'.Inv := by
  cases h.step_cases hstep with
  | txn hmgr hfollows ha => exact h.txn_step hmgr hfollows ha
  | commitBottom hmgr ht hstage hmap htxns => exact h.commitBottom hmgr ⟨ht, hstage, hmap, htxns⟩
  | write _ ht hstage hw => exact h.written ht hstage hw
  | delete ht hstage =>
    exact ⟨h.life, fun e he => h.holder e (mem_filter.mp he).1,
      fun e he => h.done e (mem_filter.mp he).1, h.chain.delete (h.roll_of_delete ht hstage),
      h.visible⟩
  | scan checkpointedTs =>
    refine ⟨h.life.dropNull, h.holder, h.done, h.chain, ?_⟩
    intro ts hts
    rcases mem_cons.mp hts with rfl | hts
    · refine ⟨(min_le_left _ _).trans h.life.firstUncommittedBeginTs_le_startTs,
        fun j u hu hlive => ?_⟩
      exact (min_le_left _ _).trans (h.life.firstUncommittedBeginTs_le hu hlive)
    · exact h.visible ts hts
  | @pick visibleTs hts =>
    have hsub := pickCleanup_sublist visibleTs s.entryList
    exact ⟨h.life, fun e he => h.holder e (hsub.mem he), fun e he => h.done e (hsub.mem he),
      h.chain.pickCleanup _, h.visible⟩

theorem Meta.Inv.start (type : EntryType) : (Meta.start type : Meta β).Inv :=
  ⟨Life.start, nofun, nofun, .nil, nofun⟩

theorem Meta.Inv.of_reachable (h : (naming β).Reachable s) : s.Inv := by
  refine h.invariant (fun s hs => ?_) fun s a s' hinv hstep => hinv.step hstep
  obtain ⟨type, rfl⟩ := hs
  exact .start type

end Step

end Infinity.Catalog
