import Infinity.Catalog.NamingInvariant

/-! # Write exclusion on a name

While a transaction has entries in the list of a name and is not being rolled back, no other one can
write there, and when it is rolled back the list is again what it was before its first entry, but
for entries of other transactions that are being rolled back themselves. `FindEntry` passes over
these, so a transaction can write in front of them before `DeleteEntry` has taken them out.

* `Meta.Inv.shaped`: the shape of the list and the exclusion of writers.
* `Meta.Restores.step`, `Meta.Restores.standing_rollback`: what a rollback leaves.
-/

namespace Infinity.Catalog

open Foundations Transactions List Entry

variable {β : Type*}

def MetaAction.cleans : MetaAction β → Bool
  | .pickCleanup _ => true
  | _ => false

/-- Behind the entries of the transaction that writes there is what stood in the list before. -/
def Meta.Restores (s : Meta β) : Prop :=
  ∀ e ∈ s.entryList, e.pending s.roll = true → s.entryList.filter (·.committed) = s.before e.txnId

section Restores

variable {s s' : Meta β} {a : MetaAction β} {i : ℕ} {t : Txn} {mgr : TxnManager}
    {list : List (Entry β)}

theorem filter_committed_cons {e : Entry β} (hc : e.committed = false) :
    (e :: list).filter (·.committed) = list.filter (·.committed) :=
  filter_cons_of_neg (by simp [hc])

/-- The list after an action of a running transaction. -/
theorem Meta.Restores.written (h : s.Restores) (hinv : s.Inv) (ht : s.mgr.txns i = some t)
    (hstage : t.stage = .running) (hw : Written s i t.beginTs list) :
    (s.setList i list).Restores := by
  have hchain := (hinv.written ht hstage hw).chain
  -- the record changes only when the transaction has no entry yet
  have hbefore : ∀ {e : Entry β}, e ∈ s.entryList → e.pending s.roll → e.txnId = i →
      (s.setList i list).before i = s.before i := by
    intro e he hp hei
    refine if_neg fun hnone => ?_
    exact hnone.2 e he (pending_iff.mp hp).1 hei
  have hother : ∀ {j : ℕ}, j ≠ i → (s.setList i list).before j = s.before j :=
    fun hj => if_neg fun hji => hj hji.1
  cases hw with
  | same =>
    intro e he hp
    by_cases hei : e.txnId = i
    · rw [hei, hbefore he hp hei, ← hei]
      exact h e he hp
    · rw [hother hei]
      exact h e he hp
  | @push e huncommitted hown hhead =>
    have hp := hinv.pending_of_push ht hstage huncommitted hown
    intro f hf hpf
    have hfi : f.txnId = i := (hchain.single f hf e mem_cons_self hpf hp).trans hown
    show (e :: s.entryList).filter (·.committed) = _
    rw [filter_committed_cons (pending_iff.mp hp).1, hfi]
    by_cases hnone : HoldsNone i s.entryList
    · have hempty : s.entryList.filter (·.pending s.roll) = [] := by
        refine filter_eq_nil_iff.mpr fun g hg hpg => ?_
        have hgi := hchain.single g (mem_cons_of_mem _ hg) e mem_cons_self hpg hp
        exact hnone g hg (pending_iff.mp hpg).1 (hgi.trans hown)
      have hrecord : (s.setList i (e :: s.entryList)).before i = standing s.roll s.entryList :=
        if_pos ⟨rfl, hnone⟩
      rw [hrecord, hinv.chain.standing_eq, hempty, nil_append]
    · obtain ⟨g, hg, hgc, hgi⟩ : ∃ g ∈ s.entryList, g.committed = false ∧ g.txnId = i := by
        simpa [HoldsNone] using hnone
      have hpg : g.pending s.roll := by
        refine pending_iff.mpr ⟨hgc, ?_⟩
        rw [hgi, ← hown]
        exact (pending_iff.mp hp).2
      rw [hbefore hg hpg hgi, ← hgi]
      exact h g hg hpg
  | @pop e rest hlist hpending hown =>
    intro f hf hpf
    have hmem : f ∈ s.entryList := hlist ▸ mem_cons_of_mem _ hf
    have hhead : e ∈ s.entryList := hlist ▸ mem_cons_self
    have hfi : f.txnId = i := (hinv.chain.single f hmem e hhead hpf hpending).trans hown
    have hsame := h f hmem hpf
    rw [hfi, hbefore hmem hpf hfi, ← hfi, ← hsame, hlist]
    exact (filter_committed_cons (pending_iff.mp hpending).1).symm

/-- The list after the bottom half of a commit: no entry is pending, or none was committed. -/
theorem Meta.Restores.commitBottom (h : s.Restores) (hinv : s.Inv) (hb : CommitsBottom s mgr i t) :
    ({ s.commitBottom i t.commitTs with mgr := mgr } : Meta β).Restores := by
  intro e he hp
  obtain ⟨hc, hnot⟩ := pending_iff.mp hp
  obtain ⟨hmem, hne⟩ := mem_of_map_commit he hc
  have hpe : e.pending s.roll :=
    pending_iff.mpr ⟨hc, (rolls_commitBottom hb e.txnId).symm.trans hnot⟩
  have hnone : HoldsNone i s.entryList := by
    rintro g hg hgc rfl
    have hpg := pending_iff.mpr ⟨hgc, hinv.roll_of_sent hb.txn hb.sent⟩
    exact hne (hinv.chain.single e hmem g hg hpe hpg)
  show (s.entryList.map (·.commit i t.commitTs)).filter (·.committed) = s.before e.txnId
  rw [map_commit_of_holdsNone hnone]
  exact h e hmem hpe

/-- **The list without the entries of the transaction that writes does not change.** -/
theorem Meta.Restores.step (h : s.Restores) (hinv : s.Inv) (ha : a.cleans = false)
    (hstep : s.step a = some s') : s'.Restores := by
  cases hinv.step_cases hstep with
  | txn hmgr hfollows hb =>
    exact fun e he hp => h e he (hinv.pending_of_txn hmgr hfollows hb he hp)
  | commitBottom hmgr ht hstage hmap htxns => exact h.commitBottom hinv ⟨ht, hstage, hmap, htxns⟩
  | write _ ht hstage hw => exact h.written hinv ht hstage hw
  | @delete i t ht hstage =>
    intro e he hp
    rw [← h e (mem_filter.mp he).1 hp]
    show (s.entryList.filter (·.txnId ≠ i)).filter (·.committed) = s.entryList.filter (·.committed)
    rw [filter_filter]
    refine filter_congr fun f hf => ?_
    cases hc : f.committed with
    | false => rfl
    | true =>
      have hne : f.txnId ≠ i := by
        rintro rfl
        have hroll := hinv.chain.unrolled f hf hc
        rw [hinv.roll_of_delete ht hstage] at hroll
        cases hroll
      simp [hne]
  | scan checkpointedTs => exact h
  | pick hts => cases ha

end Restores

/-! ## Exclusion -/

/-- The shape of the list without the entries of transactions that are being rolled back. -/
structure Meta.Shaped (s : Meta β) : Prop where
  shape : ∃ txnId own committed, standing s.roll s.entryList = own ++ committed ∧
    (∀ e ∈ own, e.committed = false ∧ e.txnId = txnId) ∧ (∀ e ∈ committed, e.committed = true) ∧
    committed.Pairwise fun e f => ∀ ts ts', e.commitTs = some ts → f.commitTs = some ts' → ts' ≤ ts
  alternate : (standing s.roll s.entryList).IsChain fun e f => e.deleted ≠ f.deleted
  single : ∀ e ∈ s.entryList, ∀ f ∈ s.entryList, e.committed = false → f.committed = false →
    s.roll e.txnId = false → s.roll f.txnId = false → e.txnId = f.txnId

section Exclusion

variable {s s' : Meta β} {i : ℕ}

/-- What stands when the rollback of a transaction with entries begins. -/
theorem Meta.Restores.standing_rollback (h : s.Restores) (hinv : s.Inv) {b : Action}
    (hb : b = .abort i ∨ b = .rollback i) (hstep : s.step (.txn b) = some s')
    (hheld : ¬ HoldsNone i s.entryList) : standing s'.roll s'.entryList = s.before i := by
  have hchain := (hinv.step hstep).chain
  have hbottom : b ≠ .commitBottom := by rcases hb with rfl | rfl <;> exact nofun
  cases hinv.step_cases hstep with
  | write ha => cases ha
  | commitBottom => exact absurd rfl hbottom
  | @txn _ mgr hmgr hfollows _ =>
    obtain ⟨e, he, hc, hei⟩ : ∃ e ∈ s.entryList, e.committed = false ∧ e.txnId = i := by
      simpa [HoldsNone] using hheld
    obtain ⟨hnot, hroll⟩ := hinv.rolls_rollback hmgr hb
    have hp : e.pending s.roll := pending_iff.mpr ⟨hc, hei ▸ hnot⟩
    -- all pending entries are those of the transaction
    have hnone : s.entryList.filter (·.pending fun j => rolls (mgr.getTxnState j)) = [] := by
      refine filter_eq_nil_iff.mpr fun f hf hpf => ?_
      rw [pending_iff, hroll, Bool.or_eq_false_iff, beq_eq_false_iff_ne] at hpf
      have hsame := hinv.chain.single f hf e he (pending_iff.mpr ⟨hpf.1, hpf.2.1⟩) hp
      exact hpf.2.2 (hsame.trans hei)
    have hstanding := hchain.standing_eq
    rw [show s.entryList.filter (·.pending ({ s with mgr := mgr } : Meta β).roll) = [] from hnone,
      nil_append] at hstanding
    rw [hstanding, ← hei]
    exact h e he hp

theorem Meta.Inv.shaped (hinv : s.Inv) : s.Shaped := by
  have hchain := hinv.chain
  have hall : ∃ txnId, ∀ e ∈ s.entryList.filter (·.pending s.roll), e.txnId = txnId := by
    cases hpending : s.entryList.filter (·.pending s.roll) with
    | nil => exact ⟨0, nofun⟩
    | cons f rest =>
      rw [← hpending]
      obtain ⟨hf, hpf⟩ := mem_filter.mp (hpending ▸ mem_cons_self (a := f) (l := rest))
      refine ⟨f.txnId, fun e he => ?_⟩
      obtain ⟨he, hpe⟩ := mem_filter.mp he
      exact hchain.single e he f hf hpe hpf
  obtain ⟨txnId, hown⟩ := hall
  refine ⟨⟨txnId, _, _, hchain.standing_eq, fun e he => ⟨?_, hown e he⟩, ?_, ?_⟩,
    hchain.alternate, ?_⟩
  · exact (pending_iff.mp (mem_filter.mp he).2).1
  · exact fun e he => (mem_filter.mp he).2
  · exact hchain.ordered.sublist filter_sublist
  · intro e he f hf hce hcf hre hrf
    exact hchain.single e he f hf (pending_iff.mpr ⟨hce, hre⟩) (pending_iff.mpr ⟨hcf, hrf⟩)

end Exclusion

end Infinity.Catalog
