import Infinity.Catalog.EntryList
import Infinity.Foundations.SortedFilter

/-! # The shape of an entry list

Without the entries of transactions that are being rolled back, which `FindEntry` passes over, an
entry list has the uncommitted entries of one transaction in front and the committed ones behind,
with falling time stamps, and drop markers and other entries take turns (`Chain`). The list is
looked at here with two facts about transactions: which ones are being rolled back, and when each of
them began.

* `Chain.push`, `Chain.tail`, `Chain.rollback`, `Chain.delete`, `Chain.commit`, `Chain.pickCleanup`:
  the methods keep the shape. -/

namespace Infinity.Catalog

open Foundations Transactions List Entry

variable {β : Type*}

/-! ## Standing entries -/

def rolls : TxnState → Bool
  | .rollbacking | .rollbacked => true
  | _ => false

namespace Entry

def stands (roll : ℕ → Bool) (e : Entry β) : Bool := e.committed || !roll e.txnId

def pending (roll : ℕ → Bool) (e : Entry β) : Bool := !e.committed && !roll e.txnId

end Entry

def standing (roll : ℕ → Bool) (list : List (Entry β)) : List (Entry β) :=
  list.filter (·.stands roll)

/-- The result of `FindEntry` at the entry that decides. -/
def decidedBy (getTxnState : ℕ → TxnState) (txnId beginTs : ℕ) (e : Entry β) : FindResult :=
  match e.commitTs with
  | some commitTs =>
    if commitTs ≤ beginTs then (if e.deleted then .notFound else .found) else .conflict
  | none =>
    if getTxnState e.txnId = .started ∧ e.txnId = txnId then
      (if e.deleted then .uncommittedDelete else .uncommitted)
    else .conflict

/-- **The first entry that is not being rolled back decides.** -/
theorem findEntry_eq (getTxnState : ℕ → TxnState) (txnId beginTs : ℕ) (list : List (Entry β)) :
    findEntry getTxnState txnId beginTs list =
      match (standing (fun i => rolls (getTxnState i)) list).head? with
      | none => .notFound
      | some e => decidedBy getTxnState txnId beginTs e := by
  induction list with
  | nil => rfl
  | cons e list ih =>
    rw [findEntry, standing]
    cases hts : e.commitTs with
    | some ts =>
      have hstands : e.stands (fun i => rolls (getTxnState i)) := by
        simp [stands, committed, hts]
      simp only [filter_cons_of_pos hstands, head?_cons, decidedBy, hts]
    | none =>
      have hstands : e.stands (fun i => rolls (getTxnState i)) = !rolls (getTxnState e.txnId) := by
        simp [stands, committed, hts]
      cases hstate : getTxnState e.txnId
      case rollbacking | rollbacked =>
        rw [filter_cons_of_neg (by rw [hstands, hstate]; decide)]
        exact ih
      all_goals
        rw [filter_cons_of_pos (by rw [hstands, hstate]; decide)]
        simp [decidedBy, hts, hstate]

/-! ## The shape -/

/-- The shape of an entry list. -/
structure Chain (roll : ℕ → Bool) (begins : ℕ → ℕ) (list : List (Entry β)) : Prop where
  front : list.Pairwise fun e f => f.pending roll = true → e.pending roll = true
  single : ∀ e ∈ list, ∀ f ∈ list, e.pending roll = true → f.pending roll = true → e.txnId = f.txnId
  begun : ∀ e ∈ list, e.pending roll = true → ∀ f ∈ list, ∀ ts, f.commitTs = some ts →
    ts ≤ begins e.txnId
  ordered : list.Pairwise fun e f => ∀ ts ts', e.commitTs = some ts → f.commitTs = some ts' →
    ts' ≤ ts
  alternate : (standing roll list).IsChain fun e f => e.deleted ≠ f.deleted
  unrolled : ∀ e ∈ list, e.committed = true → roll e.txnId = false

section Chain

variable {roll roll' : ℕ → Bool} {begins begins' : ℕ → ℕ} {e : Entry β}
    {list list' : List (Entry β)} {i : ℕ} {ts : ℕ}

section

variable (hfront : list.Pairwise fun e f => f.pending roll = true → e.pending roll = true)
include hfront

theorem pending_append_not_pending :
    list.filter (·.pending roll) ++ list.filter (fun e => !e.pending roll) = list := by
  have hup : UpClosed (fun e f : Entry β => f.pending roll → e.pending roll)
      fun e => !e.pending roll := by
    intro e f hef he
    cases hf : f.pending roll with
    | false => simp [hf]
    | true => simp [hef hf] at he
  simpa using filter_append_filter hup hfront

theorem standing_eq_append :
    standing roll list = list.filter (·.pending roll) ++ list.filter (·.committed) := by
  rw [standing]
  conv_lhs => rw [← pending_append_not_pending hfront]
  rw [filter_append, filter_filter, filter_filter]
  congr 1
  all_goals
    congr 1
    funext e
    cases hc : e.committed <;> cases hr : roll e.txnId <;> simp [stands, pending, hc, hr]

end

/-- **The pending entries, and behind them the committed ones.** -/
theorem Chain.standing_eq (h : Chain roll begins list) :
    standing roll list = list.filter (·.pending roll) ++ list.filter (·.committed) :=
  standing_eq_append h.front

/-- The shape of a list without pending entries. -/
theorem Chain.of_not_pending (hnone : ∀ e ∈ list, e.pending roll = false)
    (hordered : list.Pairwise fun e f => ∀ ts ts', e.commitTs = some ts → f.commitTs = some ts' →
    ts' ≤ ts) (halternate : (list.filter (·.committed)).IsChain fun e f => e.deleted ≠ f.deleted)
    (hunrolled : ∀ e ∈ list, e.committed → roll e.txnId = false) : Chain roll begins list := by
  have habsurd : ∀ e ∈ list, e.pending roll ≠ true := fun e he hp => by
    rw [hnone e he] at hp
    cases hp
  refine ⟨?_, ?_, ?_, hordered, ?_, hunrolled⟩
  · exact pairwise_of_forall_mem_list fun e _ f hf hp => absurd hp (habsurd f hf)
  · exact fun e he f _ hp => absurd hp (habsurd e he)
  · exact fun e he hp => absurd hp (habsurd e he)
  · have hsame : standing roll list = list.filter (·.committed) := by
      refine filter_congr fun e he => ?_
      cases hc : e.committed <;> cases hr : roll e.txnId <;> simp_all [stands, pending]
    rw [hsame]
    exact halternate

/-- The shape depends on the transactions of the entries only. -/
theorem Chain.congr (h : Chain roll begins list) (hroll : ∀ e ∈ list, roll' e.txnId = roll e.txnId)
    (hbegins : ∀ e ∈ list, e.committed = false → begins' e.txnId = begins e.txnId) :
    Chain roll' begins' list := by
  have hpending : ∀ e ∈ list, e.pending roll' = e.pending roll := fun e he => by
    rw [pending, pending, hroll e he]
  refine ⟨?_, ?_, ?_, h.ordered, ?_, ?_⟩
  · refine h.front.imp_of_mem fun {e f} he hf hef hp => ?_
    rw [hpending e he]
    exact hef ((hpending f hf).symm.trans hp)
  · intro e he f hf hpe hpf
    exact h.single e he f hf ((hpending e he).symm.trans hpe) ((hpending f hf).symm.trans hpf)
  · intro e he hp f hf ts hts
    have hp : e.pending roll := (hpending e he).symm.trans hp
    rw [hbegins e he (by simpa [pending] using (Bool.and_eq_true_iff.mp hp).1)]
    exact h.begun e he hp f hf ts hts
  · have hsame : standing roll' list = standing roll list := by
      refine filter_congr fun e he => ?_
      rw [stands, stands, hroll e he]
    rw [hsame]
    exact h.alternate
  · exact fun e he hc => (hroll e he).trans (h.unrolled e he hc)

theorem Chain.nil : Chain roll begins ([] : List (Entry β)) :=
  .of_not_pending nofun .nil .nil nofun

/-! ## Methods -/

theorem Entry.pending_iff : e.pending roll ↔ e.committed = false ∧ roll e.txnId = false := by
  simp [pending]

theorem standing_cons_of_pending (he : e.pending roll) :
    standing roll (e :: list) = e :: standing roll list := by
  refine filter_cons_of_pos ?_
  simp [stands, (pending_iff.mp he).2]

/-- Where there are pending entries, the first of the list is one, and the first that stands. -/
theorem Chain.exists_head (h : Chain roll begins list) (he : e ∈ list) (hp : e.pending roll) :
    ∃ f rest, list = f :: rest ∧ f.pending roll ∧ standing roll list = f :: standing roll rest := by
  cases list with
  | nil => cases he
  | cons f rest =>
    have hf : f.pending roll := by
      rcases mem_cons.mp he with rfl | he
      · exact hp
      · exact (pairwise_cons.mp h.front).1 e he hp
    exact ⟨f, rest, rfl, hf, standing_cons_of_pending hf⟩

/-- A transaction puts an entry in front: the first entry that stands is of the other kind, and is
an entry of its own or was committed before it began. -/
theorem Chain.push (h : Chain roll begins list) (he : e.pending roll)
    (hhead : ∀ f ∈ (standing roll list).head?, e.deleted ≠ f.deleted ∧
      (f.committed = false → f.txnId = e.txnId) ∧ ∀ ts, f.commitTs = some ts →
    ts ≤ begins e.txnId) : Chain roll begins (e :: list) := by
  have hown : ∀ f ∈ list, f.pending roll → f.txnId = e.txnId := by
    intro f hf hp
    obtain ⟨g, rest, rfl, hg, heq⟩ := h.exists_head hf hp
    rw [heq] at hhead
    exact (h.single f hf g mem_cons_self hp hg).trans ((hhead g rfl).2.1 (pending_iff.mp hg).1)
  have hbegun : ∀ f ∈ list, ∀ ts, f.commitTs = some ts → ts ≤ begins e.txnId := by
    intro f hf ts hts
    cases hleft : list.filter (·.pending roll) with
    | cons g rest =>
      -- the transaction has entries already
      have hg := mem_filter.mp (hleft ▸ mem_cons_self (a := g) (l := rest))
      rw [← hown g hg.1 hg.2]
      exact h.begun g hg.1 hg.2 f hf ts hts
    | nil =>
      -- the first entry that stands has the greatest time stamp
      have hmem : f ∈ list.filter (·.committed) := mem_filter.mpr ⟨hf, by simp [committed, hts]⟩
      have hstanding := h.standing_eq
      have hordered := h.ordered.sublist (filter_sublist (p := (·.committed)))
      rw [hleft, nil_append] at hstanding
      rw [hstanding] at hhead
      cases hcommitted : list.filter (·.committed) with
      | nil =>
        rw [hcommitted] at hmem
        cases hmem
      | cons g rest =>
        rw [hcommitted] at hhead hmem hordered
        have hg : g.committed := (mem_filter.mp (hcommitted ▸ mem_cons_self (a := g) (l := rest))).2
        obtain ⟨c, hc⟩ := Option.isSome_iff_exists.mp hg
        have hle := (hhead g rfl).2.2 c hc
        rcases mem_cons.mp hmem with rfl | hmem
        · exact (hhead f rfl).2.2 ts hts
        · exact ((pairwise_cons.mp hordered).1 f hmem c ts hc hts).trans hle
  obtain ⟨huncommitted, hnotRolled⟩ := pending_iff.mp he
  have hnone : e.commitTs = none := by simpa [committed] using huncommitted
  refine ⟨pairwise_cons.mpr ⟨fun _ _ _ => he, h.front⟩, ?_, ?_, ?_, ?_, ?_⟩
  · intro f hf g hg hpf hpg
    rcases mem_cons.mp hf with rfl | hfl <;> rcases mem_cons.mp hg with rfl | hgl
    · rfl
    · exact (hown g hgl hpg).symm
    · exact hown f hfl hpf
    · exact h.single f hfl g hgl hpf hpg
  · intro f hf hp g hg ts hts
    rcases mem_cons.mp hg with rfl | hgl
    · cases hnone.symm.trans hts
    · rcases mem_cons.mp hf with rfl | hfl
      · exact hbegun g hgl ts hts
      · exact h.begun f hfl hp g hgl ts hts
  · refine pairwise_cons.mpr ⟨fun f _ ts ts' hts => ?_, h.ordered⟩
    cases hnone.symm.trans hts
  · rw [standing_cons_of_pending he, isChain_cons]
    exact ⟨fun f hf => (hhead f hf).1, h.alternate⟩
  · intro f hf hc
    rcases mem_cons.mp hf with rfl | hf
    · exact hnotRolled
    · exact h.unrolled f hf hc

/-- What stays of a list when some entries go has the shape if the rest still takes turns. -/
theorem Chain.sublist (h : Chain roll begins list) (hsub : list'.Sublist list)
    (halternate : (standing roll list').IsChain fun e f => e.deleted ≠ f.deleted) :
    Chain roll begins list' := by
  refine ⟨h.front.sublist hsub, ?_, ?_, h.ordered.sublist hsub, halternate, ?_⟩
  · exact fun e he f hf => h.single e (hsub.mem he) f (hsub.mem hf)
  · exact fun e he hp f hf => h.begun e (hsub.mem he) hp f (hsub.mem hf)
  · exact fun e he => h.unrolled e (hsub.mem he)

/-- The first entry is taken out. -/
theorem Chain.tail (h : Chain roll begins (e :: list)) (he : e.pending roll) :
    Chain roll begins list := by
  refine h.sublist (sublist_cons_self e list) ?_
  have halternate := h.alternate
  rw [standing_cons_of_pending he] at halternate
  exact (isChain_cons.mp halternate).2

section

variable (h : Chain roll begins list)
include h

/-- The entries of a transaction that is rolled back do not stand any more. -/
theorem Chain.rollback (hnone : ∀ e ∈ list, e.committed → e.txnId ≠ i)
    (hroll : ∀ j, roll' j = (roll j || j == i)) : Chain roll' begins list := by
  by_cases hheld : ∃ e ∈ list, e.pending roll ∧ e.txnId = i
  · obtain ⟨e, he, hp, rfl⟩ := hheld
    refine .of_not_pending ?_ h.ordered ?_ ?_
    · intro f hf
      by_contra hpf
      rw [Bool.not_eq_false, pending_iff, hroll, Bool.or_eq_false_iff] at hpf
      have hpf' : f.pending roll := pending_iff.mpr ⟨hpf.1, hpf.2.1⟩
      have hne : f.txnId ≠ e.txnId := by simpa using hpf.2.2
      exact hne (h.single f hf e he hpf' hp)
    · have halternate := h.alternate
      rw [h.standing_eq] at halternate
      exact halternate.right_of_append
    · intro f hf hc
      rw [hroll, h.unrolled f hf hc, Bool.false_or, beq_eq_false_iff_ne]
      exact hnone f hf hc
  · refine h.congr ?_ fun _ _ _ => rfl
    intro e he
    rw [hroll]
    cases hr : roll e.txnId with
    | true => rfl
    | false =>
      rw [Bool.false_or, beq_eq_false_iff_ne]
      rintro rfl
      cases hc : e.committed with
      | true => exact hnone e he hc rfl
      | false => exact hheld ⟨e, he, pending_iff.mpr ⟨hc, hr⟩, rfl⟩

theorem standing_deleteEntry (hi : roll i) :
    standing roll (deleteEntry i list) = standing roll list := by
  rw [standing, standing, deleteEntry, filter_filter]
  refine filter_congr fun e he => ?_
  by_cases hei : e.txnId = i
  · have hc : e.committed = false := by
      by_contra hc
      have := h.unrolled e he (by simpa using hc)
      rw [hei, hi] at this
      cases this
    simp [stands, hei, hi, hc]
  · simp [hei]

/-- The entries of a transaction that is rolled back are taken out. -/
theorem Chain.delete (hi : roll i) :
    Chain roll begins (deleteEntry i list) := by
  refine h.sublist filter_sublist ?_
  rw [standing_deleteEntry h hi]
  exact h.alternate

end

theorem Entry.commit_of_ne (h : ¬ (e.txnId = i ∧ e.committed = false)) : e.commit i ts = e :=
  if_neg h

theorem Entry.deleted_commit : (e.commit i ts).deleted = e.deleted := by
  rw [commit]
  split <;> rfl

theorem mem_of_map_commit {list : List (Entry β)} (he : e ∈ list.map (·.commit i ts))
    (hc : e.committed = false) : e ∈ list ∧ e.txnId ≠ i := by
  obtain ⟨f, hf, rfl⟩ := mem_map.mp he
  by_cases hown : f.txnId = i ∧ f.committed = false
  · rw [commit, if_pos hown] at hc
    cases hc
  · rw [commit_of_ne hown] at hc ⊢
    exact ⟨hf, fun hfi => hown ⟨hfi, hc⟩⟩

theorem Entry.txnId_commit : (e.commit i ts).txnId = e.txnId := by
  rw [commit]
  split <;> rfl

/-- A transaction that holds no entries commits none. -/
theorem map_commit_of_holdsNone (h : HoldsNone i list) : list.map (·.commit i ts) = list := by
  refine (map_congr_left fun e he => ?_).trans (map_id _)
  exact commit_of_ne fun ⟨hei, hc⟩ => h e he hc hei

theorem filter_not_pending_committed :
    (list.filter fun e => !e.pending roll).filter (·.committed) = list.filter (·.committed) := by
  rw [filter_filter]
  congr 1
  funext e
  cases hc : e.committed <;> simp [pending, hc]

section Commit

variable {i ts : ℕ}

section

variable (h : Chain roll begins list)
include h

/-- The pending entries of the transaction that commits. -/
theorem Chain.commit_of_pending (he : e ∈ list) (hp : e.pending roll)
    {f : Entry β} (hf : f ∈ list.filter (·.pending roll)) :
    f.commit e.txnId ts = { f with commitTs := some ts } := by
  obtain ⟨hf, hpf⟩ := mem_filter.mp hf
  exact if_pos ⟨h.single f hf e he hpf hp, (pending_iff.mp hpf).1⟩

/-- A transaction that holds entries commits the pending ones, which are all its own. -/
theorem Chain.map_commit (he : e ∈ list) (hp : e.pending roll) :
    list.map (·.commit e.txnId ts) = (list.filter (·.pending roll)).map
      ({ · with commitTs := some ts }) ++ list.filter (fun e => !e.pending roll) := by
  conv_lhs => rw [← pending_append_not_pending h.front]
  rw [map_append]
  congr 1
  · exact map_congr_left fun f hf => h.commit_of_pending he hp hf
  · refine (map_congr_left fun f hf => ?_).trans (map_id _)
    refine commit_of_ne fun ⟨heq, hc⟩ => ?_
    have hpf : f.pending roll := pending_iff.mpr ⟨hc, heq ▸ (pending_iff.mp hp).2⟩
    simpa [hpf] using (mem_filter.mp hf).2

/-- The pending entries are committed, with a time stamp after the begin of their transaction. -/
theorem Chain.commit (hi : roll i = false) (hts : begins i ≤ ts) :
    Chain roll begins (list.map (·.commit i ts)) := by
  by_cases hheld : HoldsNone i list
  · rw [map_commit_of_holdsNone hheld]
    exact h
  obtain ⟨e, he, hc, rfl⟩ : ∃ e ∈ list, e.committed = false ∧ e.txnId = i := by
    simpa [HoldsNone] using hheld
  have hp : e.pending roll := pending_iff.mpr ⟨hc, hi⟩
  have hnot : ∀ f ∈ list.filter (fun e => !e.pending roll), f.pending roll = false := fun f hf => by
    simpa using (mem_filter.mp hf).2
  have hcommitted : (list.map (·.commit e.txnId ts)).filter (·.committed) =
      (standing roll list).map (·.commit e.txnId ts) := by
    rw [h.standing_eq, map_append, h.map_commit he hp, filter_append, filter_not_pending_committed]
    congr 1
    · rw [map_congr_left fun f hf => h.commit_of_pending he hp hf]
      refine filter_eq_self.mpr fun f hf => ?_
      obtain ⟨g, -, rfl⟩ := mem_map.mp hf
      rfl
    · refine (map_congr_left fun f hf => ?_).trans (map_id _) |>.symm
      refine commit_of_ne fun ⟨_, hcf⟩ => ?_
      rw [(mem_filter.mp hf).2] at hcf
      cases hcf
  refine .of_not_pending ?_ ?_ ?_ ?_
  · intro f hf
    rw [h.map_commit he hp] at hf
    rcases mem_append.mp hf with hf | hf
    · obtain ⟨g, -, rfl⟩ := mem_map.mp hf
      rfl
    · exact hnot f hf
  · rw [h.map_commit he hp]
    refine pairwise_append.mpr ⟨?_, h.ordered.sublist filter_sublist, ?_⟩
    · refine pairwise_map.mpr (pairwise_of_forall fun f g c c' hf hg => ?_)
      exact (Option.some.inj (hf.symm.trans hg)).ge
    · intro f hf g hg c c' hfc hgc
      obtain ⟨f', -, rfl⟩ := mem_map.mp hf
      cases hfc
      exact (h.begun e he hp g (mem_filter.mp hg).1 c' hgc).trans hts
  · rw [hcommitted]
    refine (isChain_map (commit e.txnId ts)).mpr ?_
    simpa [deleted_commit] using h.alternate
  · intro f hf hcf
    obtain ⟨g, hg, rfl⟩ := mem_map.mp hf
    rw [txnId_commit]
    by_cases hge : g.txnId = e.txnId ∧ g.committed = false
    · rw [hge.1]
      exact hi
    · rw [commit_of_ne hge] at hcf
      exact h.unrolled g hg hcf

end

end Commit

/-- The cleanup. -/
theorem Chain.pickCleanup (h : Chain roll begins list) (visibleTs : ℕ) :
    Chain roll begins (pickCleanup visibleTs list).1 := by
  have hsub := pickCleanup_sublist visibleTs list
  have hpending : (Catalog.pickCleanup visibleTs list).1.filter (·.pending roll) =
      list.filter (·.pending roll) :=
    pickCleanup_filter fun e he => (pending_iff.mp he).1
  obtain ⟨gone, hgone⟩ := pickCleanup_committed
  have hstanding : standing roll (Catalog.pickCleanup visibleTs list).1 =
      list.filter (·.pending roll) ++ (Catalog.pickCleanup visibleTs list).1.filter
      (·.committed) := by
    rw [standing_eq_append (h.front.sublist hsub), hpending]
  refine h.sublist hsub ?_
  have halternate := h.alternate
  rw [h.standing_eq, hgone, ← append_assoc, ← hstanding] at halternate
  exact halternate.left_of_append

end Chain

end Infinity.Catalog
