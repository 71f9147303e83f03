import Infinity.Search.DocIterator

/-! # Early-terminating AND and AND NOT

`BlockMaxAndIterator::Next` and `BlockMaxAndNotIterator::Next` are built from `Next` of their
children. A child that honours the contract of `Next` moves to the next of its documents, with
targets that do not fall. Scores are exact numbers. A call that does not return has no result for
any number of turns.

* `blockMaxAnd_enumerates_iff`: an AND enumerates its documents from every first target exactly if
  each earlier document of the first child is followed by documents of the other children that stay
  before the document of the AND. A pass that ends on a document that the first child does not stand
  on steps over it.
* `blockMaxAndNot_enumerates_iff`: an AND NOT enumerates its documents exactly if none of the first
  child has to be left out. The loop asks for the same document again, and `breaked` is never
reset. -/

namespace Infinity.Search

open Foundations List

/-- `EarlyTerminateIterator`, as far as `Next` and the constructors use it. -/
structure EarlyTerminateIterator where
  docs : ℕ → Prop
  /-- `DocFreq`, the number of documents, which a composite child only estimates. -/
  docFreq : ℕ
  /-- `DocID` after `Next`. -/
  next : ℕ → ℕ
  /-- `BM25Score` on a document. -/
  score : ℕ → Rat
  seeksTo : ∀ d ≤ invalidRowID, SeeksTo invalidRowID docs d (next d)

/-- A term whose documents score 1 each. -/
def EarlyTerminateIterator.ofPosting (l : PostingList) : EarlyTerminateIterator :=
  ⟨(· ∈ l.docs), l.docs.length, l.seekDoc, fun _ => 1, fun _ => l.seeksTo⟩

/-- The children of a composite iterator, and its threshold. -/
structure Composite where
  first : EarlyTerminateIterator
  rest : List EarlyTerminateIterator
  threshold : Rat

/-- `BlockMaxAndIterator`. The constructor sorts the children by `DocFreq`; equal ones may stand in
any order. -/
structure BlockMaxAnd extends Composite where
  sorted : (first :: rest).Pairwise (·.docFreq ≤ ·.docFreq)

/-- The targets of repeated calls from a first target on, given what a call returns. -/
inductive Called (returns : ℕ → ℕ → Prop) (first : ℕ) : ℕ → Prop
  | start : Called returns first first
  | again {t r : ℕ} : Called returns first t → returns t r → r < invalidRowID →
      Called returns first (r + 1)

/-- Every one of the repeated calls returns, with the next document of the set. -/
def EnumeratesFrom (returns : ℕ → ℕ → Prop) (D : ℕ → Prop) (first : ℕ) : Prop :=
  ∀ t, Called returns first t → ∃ r, returns t r ∧ SeeksTo invalidRowID D t r

/-- The calls that begin with the first row enumerate the set. -/
def Enumerates (returns : ℕ → ℕ → Prop) (D : ℕ → Prop) : Prop := EnumeratesFrom returns D 0

theorem Called.le {returns : ℕ → ℕ → Prop} {first t : ℕ} (h : Called returns first t)
    (hfirst : first ≤ invalidRowID) : t ≤ invalidRowID := by
  cases h with
  | start => exact hfirst
  | again _ _ hlt => exact hlt

namespace Composite

variable {I : Composite} {t r last d x y fuel : ℕ} {it : EarlyTerminateIterator}
  {its : List EarlyTerminateIterator}

/-! ## AND -/

/-- The loop over `sorted_iterators_`: the document of the last one, if none is exhausted. -/
def pass : List EarlyTerminateIterator → ℕ → Option ℕ
  | [], target => some target
  | it :: its, target =>
    if it.next target = invalidRowID then none else pass its (it.next target)

/-- The test of `BlockMaxAndIterator::Next` after a pass. -/
def accepted (I : Composite) (target last : ℕ) : Bool :=
  last = I.first.next target ∧ I.threshold < ((I.first :: I.rest).map (·.score last)).sum

/-- `BlockMaxAndIterator::Next`. -/
def andNext (I : Composite) : ℕ → ℕ → Option ℕ
  | 0, _ => none
  | fuel + 1, target =>
    match pass (I.first :: I.rest) target with
    | none => some invalidRowID
    | some last => if I.accepted target last then some last else I.andNext fuel (last + 1)

/-- A call of `BlockMaxAndIterator::Next` returns, with `r` as its document. -/
def AndReturns (I : Composite) (target r : ℕ) : Prop := ∃ fuel, I.andNext fuel target = some r

/-- The documents of an AND: those of all children, with a score above the threshold. -/
def AndDocs (I : Composite) (d : ℕ) : Prop :=
  (∀ it ∈ I.first :: I.rest, it.docs d) ∧ I.threshold < ((I.first :: I.rest).map (·.score d)).sum

/-- From `x` on, the iterators have documents before `d` that do not fall from one to the next. -/
def Ascends : List EarlyTerminateIterator → ℕ → ℕ → Prop
  | [], x, d => x < d
  | it :: its, x, d => ∃ y, x ≤ y ∧ it.docs y ∧ Ascends its y d

theorem Ascends.anti (h : Ascends its y d) (hxy : x ≤ y) : Ascends its x d := by
  cases its with
  | nil => exact Nat.lt_of_le_of_lt hxy h
  | cons it its =>
    obtain ⟨z, hyz, hz, hrest⟩ := h
    exact ⟨z, Nat.le_trans hxy hyz, hz, hrest⟩

/-- The least ascending documents decide whether there are any. -/
theorem ascends_cons_iff (hto : SeeksTo invalidRowID it.docs x r) (hr : r < invalidRowID) :
    Ascends (it :: its) x d ↔ Ascends its r d := by
  constructor
  · rintro ⟨y, hxy, hy, hrest⟩
    exact hrest.anti (Nat.not_lt.mp fun hlt => hto.none_between y hxy hlt hy)
  · exact fun h => ⟨r, hto.le, hto.mem hr, h⟩

/-- A pass does not go beyond a common document, and stays before it if the documents of the
iterators allow it. -/
theorem pass_common (hall : ∀ it ∈ its, it.docs d) (hd : d < invalidRowID) (hx : x ≤ d) :
    ∃ last ≤ d, pass its x = some last ∧ (last < d ↔ Ascends its x d) := by
  induction its generalizing x with
  | nil => exact ⟨x, hx, rfl, Iff.rfl⟩
  | cons it its ih =>
    have hto := it.seeksTo x (by omega)
    have hle : it.next x ≤ d := Nat.not_lt.mp fun hlt =>
      hto.none_between d hx hlt (hall it mem_cons_self)
    obtain ⟨last, hlast, hpass, hiff⟩ := ih (fun it' h => hall it' (mem_cons_of_mem _ h)) hle
    refine ⟨last, hlast, ?_, hiff.trans (ascends_cons_iff hto (by omega)).symm⟩
    rw [pass, if_neg (by omega), hpass]

theorem pass_bounds (ht : t < invalidRowID) (hpass : pass its t = some last) :
    t ≤ last ∧ last < invalidRowID := by
  induction its generalizing t with
  | nil => exact Option.some.inj hpass ▸ ⟨Nat.le_refl t, ht⟩
  | cons it its ih =>
    have hto := it.seeksTo t (Nat.le_of_lt ht)
    rw [pass] at hpass
    split_ifs at hpass with htop
    have hrest := ih (Nat.lt_of_le_of_ne hto.le_top htop) hpass
    exact ⟨Nat.le_trans hto.le hrest.1, hrest.2⟩

/-- A pass over some iterators that ends stands before the last row from its first step on. -/
theorem pass_cons_bounds (ht : t ≤ invalidRowID) (hpass : pass (it :: its) t = some last) :
    t ≤ it.next t ∧ it.next t ≤ last ∧ last < invalidRowID ∧ pass its (it.next t) = some last := by
  have hto := it.seeksTo t ht
  rw [pass] at hpass
  split_ifs at hpass with htop
  have hrest := pass_bounds (Nat.lt_of_le_of_ne hto.le_top htop) hpass
  exact ⟨hto.le, hrest.1, hrest.2, hpass⟩

/-- A pass that ends where it began has found the document in every iterator. -/
theorem docs_of_pass (hd : d < invalidRowID) (hpass : pass its d = some d) :
    ∀ it ∈ its, it.docs d := by
  induction its with
  | nil => exact fun _ h => absurd h not_mem_nil
  | cons it its ih =>
    have hto := it.seeksTo d (Nat.le_of_lt hd)
    obtain ⟨hle, hge, -, hrest⟩ := pass_cons_bounds (Nat.le_of_lt hd) hpass
    rw [Nat.le_antisymm hge hle] at hto hrest
    exact forall_mem_cons.mpr ⟨hto.mem hd, ih hrest⟩

theorem andReturns_of_pass (hpass : pass (I.first :: I.rest) t = some last)
    (hnot : I.accepted t last = false) : I.AndReturns t r ↔ I.AndReturns (last + 1) r := by
  have hstep : ∀ fuel, I.andNext (fuel + 1) t = I.andNext fuel (last + 1) := fun fuel => by
    simp [andNext, hpass, hnot]
  constructor
  · rintro ⟨_ | fuel, h⟩
    · cases h
    · exact ⟨fuel, (hstep fuel).symm.trans h⟩
  · rintro ⟨fuel, h⟩
    exact ⟨fuel + 1, (hstep fuel).trans h⟩

theorem AndReturns.le (h : I.AndReturns t r) (ht : t ≤ invalidRowID) : t ≤ r := by
  obtain ⟨fuel, h⟩ := h
  induction fuel generalizing t with
  | zero => cases h
  | succ fuel ih =>
    rw [andNext] at h
    split at h
    next => exact Option.some.inj h ▸ ht
    next last hpass =>
      obtain ⟨hle, hge, hlast, -⟩ := pass_cons_bounds ht hpass
      split at h
      · exact Option.some.inj h ▸ Nat.le_trans hle hge
      · have hlater := ih hlast h
        omega

/-- Before each document of the AND, each document of the first child is followed by documents of
the others that stay before it too. -/
def AscendsBefore (I : Composite) : Prop :=
  ∀ d < invalidRowID, I.AndDocs d → ∀ x < d, I.first.docs x → Ascends I.rest x d

/-- A pass steps over no document, so a call returns the next one. -/
theorem andReturns_of_ascendsBefore (h : I.AscendsBefore) (t : ℕ) (ht : t ≤ invalidRowID) :
    ∃ r, I.AndReturns t r ∧ SeeksTo invalidRowID I.AndDocs t r := by
  -- a document of the AND from the target on is not before the end of the pass
  have hcommon : ∀ d, t ≤ d → d < invalidRowID → I.AndDocs d → ∃ last ≤ d,
      pass (I.first :: I.rest) t = some last ∧ (last < d ↔ Ascends (I.first :: I.rest) t d) :=
    fun d htd hd hdoc => pass_common hdoc.1 hd htd
  cases hpass : pass (I.first :: I.rest) t with
  | none =>
    refine ⟨invalidRowID, ⟨1, by simp [andNext, hpass]⟩, ht, Nat.le_refl _,
      fun h => absurd h (Nat.lt_irrefl _), fun d hd hlt hdoc => ?_⟩
    obtain ⟨last, -, hsome, -⟩ := hcommon d hd hlt hdoc
    simp [hpass] at hsome
  | some last =>
    obtain ⟨hle, hge, hlast, hrest⟩ := pass_cons_bounds ht hpass
    have hto := I.first.seeksTo t ht
    have hbefore : ∀ d, t ≤ d → d < last → ¬ I.AndDocs d := by
      intro d hd hdl hdoc
      obtain ⟨last', hle', hsome, -⟩ := hcommon d hd (by omega) hdoc
      cases hpass.symm.trans hsome
      omega
    cases hacc : I.accepted t last with
    | true =>
      obtain ⟨heq, hscore⟩ := of_decide_eq_true hacc
      rw [← heq] at hto hrest
      exact ⟨last, ⟨1, by simp [andNext, hpass, hacc]⟩, hto.le, hto.le_top,
        fun hd => ⟨forall_mem_cons.mpr ⟨hto.mem hd, docs_of_pass hd hrest⟩, hscore⟩, hbefore⟩
    | false =>
      obtain ⟨r, hreturns, hseek⟩ := andReturns_of_ascendsBefore h (last + 1) hlast
      refine ⟨r, (andReturns_of_pass hpass hacc).mpr hreturns,
        hseek.skip (by omega) fun d hd hdl hdoc => ?_⟩
      rcases Nat.lt_succ_iff_lt_or_eq.mp hdl with hdl | rfl
      · exact hbefore d hd hdl hdoc
      -- the pass ends on a document of the AND: then the first child stands on it
      rcases Nat.lt_or_eq_of_le hge with hlt | heq
      · obtain ⟨last', -, hsome, hiff⟩ := hcommon d hd hlast hdoc
        cases hpass.symm.trans hsome
        have hasc := h d hlast hdoc _ hlt (hto.mem (by omega))
        exact Nat.lt_irrefl d (hiff.mpr ((ascends_cons_iff hto (by omega)).mpr hasc))
      · exact of_decide_eq_false hacc ⟨heq.symm, hdoc.2⟩
termination_by invalidRowID - t

/-- Whether a turn of `BlockMaxAndNotIterator::Next` leaves the first iterator's document out. -/
def breaks (I : Composite) (x : ℕ) : Bool :=
  I.rest.any (fun it => it.next x ≠ invalidRowID ∧ x = it.next x) ||
    decide (I.first.score x < I.threshold)

/-- `BlockMaxAndNotIterator::Next`. -/
def andNotNext (I : Composite) : ℕ → Bool → ℕ → Option ℕ
  | 0, _, _ => none
  | fuel + 1, breaked, docId =>
    if I.first.next docId = invalidRowID then some invalidRowID
    else if breaked || I.breaks (I.first.next docId) then I.andNotNext fuel true docId
    else some (I.first.next docId)

/-- A call of `BlockMaxAndNotIterator::Next` returns, with `r` as its document. -/
def AndNotReturns (I : Composite) (docId r : ℕ) : Prop :=
  ∃ fuel, I.andNotNext fuel false docId = some r

/-- The documents of an AND NOT: those of the first child and no other, with a score of at least the
threshold. -/
def AndNotDocs (I : Composite) (d : ℕ) : Prop :=
  I.first.docs d ∧ (∀ it ∈ I.rest, ¬ it.docs d) ∧ I.threshold ≤ I.first.score d

theorem next_eq_self_iff (hd : d < invalidRowID) :
    it.next d ≠ invalidRowID ∧ d = it.next d ↔ it.docs d := by
  have hto := it.seeksTo d (Nat.le_of_lt hd)
  constructor
  · rintro ⟨-, heq⟩
    exact heq ▸ hto.mem (heq ▸ hd)
  · intro hdoc
    have heq : d = it.next d :=
      Nat.le_antisymm hto.le (Nat.not_lt.mp fun hlt => hto.none_between d (Nat.le_refl d) hlt hdoc)
    exact ⟨heq ▸ Nat.ne_of_lt hd, heq⟩

theorem breaks_eq_false_iff (hd : d < invalidRowID) (hdoc : I.first.docs d) : I.breaks d = false ↔
    I.AndNotDocs d := by
  simp only [breaks, AndNotDocs, Bool.or_eq_false_iff, any_eq_false, decide_eq_true_eq,
    next_eq_self_iff hd, decide_eq_false_iff_not, Rat.not_lt, hdoc, true_and]

/-- Once the first iterator has stopped on a document to be left out, the loop goes on for ever. -/
theorem andNotNext_breaked (htop : I.first.next t ≠ invalidRowID) :
    I.andNotNext fuel true t = none := by
  induction fuel with
  | zero => rfl
  | succ fuel ih => simp [andNotNext, htop, ih]

/-- A call returns just if the first document it meets need not be left out. -/
theorem andNotReturns_iff : I.AndNotReturns t r ↔ r = I.first.next t ∧
    (r ≠ invalidRowID → I.breaks r = false) := by
  constructor
  · rintro ⟨_ | fuel, h⟩
    · cases h
    rw [andNotNext, Bool.false_or] at h
    split_ifs at h with htop hbreaks
    · exact ⟨(Option.some.inj h).symm.trans htop.symm, fun hne =>
        absurd (Option.some.inj h).symm hne⟩
    · cases (andNotNext_breaked htop).symm.trans h
    · cases h
      exact ⟨rfl, fun _ => eq_false_of_ne_true hbreaks⟩
  · rintro ⟨rfl, h⟩
    refine ⟨1, ?_⟩
    by_cases htop : I.first.next t = invalidRowID
    · simp [andNotNext, htop]
    · simp [andNotNext, htop, h htop]

/-- As long as every call returns, the calls reach every document of the first child. -/
theorem andNotDocs_of_called (h : Enumerates I.AndNotReturns I.AndNotDocs) (hd : d < invalidRowID)
    (hdoc : I.first.docs d) (t : ℕ) (htd : t ≤ d) (hcalled : Called I.AndNotReturns 0 t) :
    I.AndNotDocs d := by
  have hto := I.first.seeksTo t (hcalled.le (Nat.zero_le _))
  obtain ⟨r, hreturns, -⟩ := h t hcalled
  obtain ⟨rfl, hbreaks⟩ := andNotReturns_iff.mp hreturns
  rcases Nat.lt_trichotomy (I.first.next t) d with hlt | rfl | hgt
  · have hle := hto.le
    exact andNotDocs_of_called h hd hdoc (I.first.next t + 1) hlt
      (hcalled.again hreturns (by omega))
  · exact (breaks_eq_false_iff hd hdoc).mp (hbreaks (Nat.ne_of_lt hd))
  · exact absurd hdoc (hto.none_between d htd hgt)
termination_by d - t

/-- **An early-terminating AND NOT enumerates its documents exactly if the first child has no
others.** -/
theorem blockMaxAndNot_enumerates_iff (I : Composite) :
    Enumerates I.AndNotReturns I.AndNotDocs ↔ ∀ d < invalidRowID, I.first.docs d →
    I.AndNotDocs d := by
  refine ⟨fun h d hd hdoc => andNotDocs_of_called h hd hdoc 0 (Nat.zero_le d) .start,
    fun h t hcalled => ?_⟩
  have hto := I.first.seeksTo t (hcalled.le (Nat.zero_le _))
  have hwanted := fun hr => h (I.first.next t) hr (hto.mem hr)
  refine ⟨_, andNotReturns_iff.mpr ⟨rfl, fun hne => ?_⟩, hto.le, hto.le_top, hwanted,
      fun x hx hlt hdoc =>
    hto.none_between x hx hlt hdoc.1⟩
  have hlt := Nat.lt_of_le_of_ne hto.le_top hne
  exact (breaks_eq_false_iff hlt (hto.mem hlt)).mpr (hwanted hlt)

theorem blockMaxAndNot_not_enumerates :
    let I : Composite :=
  ⟨.ofPosting ⟨[1], by decide, by decide⟩, [.ofPosting ⟨[1], by decide, by decide⟩], 0⟩
    ¬ Enumerates I.AndNotReturns I.AndNotDocs := by
  intro I h
  obtain ⟨r, hreturns, -⟩ := h 0 .start
  obtain ⟨rfl, hbreaks⟩ := andNotReturns_iff.mp hreturns
  exact absurd (hbreaks (by decide)) (by decide +kernel)

end Composite

end Infinity.Search
