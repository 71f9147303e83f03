import Infinity.Search.BlockMaxWand

/-! # What a block-max WAND search keeps

A document that is still to be found is a candidate if its total score exceeds the threshold. The
search is safe as long as every term iterator that contributes to the score of a candidate can still
reach it: the iterator has not passed the document and its block is among those that are left. The
thresholds of the term iterators let them leave out a block only if no candidate is in it, because
the other lists together cannot lift a document of the block above the threshold.

* `Core.step`, `Core.remove`: how movements and exhausted iterators keep the invariant.
-/

namespace Infinity.Search

open Foundations List

variable {b : Block} {e : ℕ × ℕ}

/-! ## What an iterator can reach -/

/-- The score that an iterator can still contribute to a document. -/
def reach (it : TermIterator) (x : ℕ) : ℕ := if it.docId ≤ x then scoreIn it.iter.remaining x else 0

/-- The score that the iterators can still give to a document. -/
def sumReach (its : List TermIterator) (x : ℕ) : ℕ := (its.map (reach · x)).sum

section Reach

variable {it it' : TermIterator} {x d : ℕ}

theorem reach_le_score (hok : it.Ok) : reach it x ≤ it.posting.score x := by
  unfold reach
  split
  · refine le_of_pos_imp fun hpos => ?_
    obtain ⟨b, hb, e, he, rfl, hscore⟩ := exists_entry_of_scoreIn_pos hpos
    have := scoreIn_of_mem it.posting.ascending (hok.iter.suffix.subset hb) he
    exact (hscore.symm.trans this.symm).le
  · exact Nat.zero_le _

theorem reach_le_upperBound (hok : it.Ok) : reach it x ≤ it.upperBound :=
  (reach_le_score hok).trans (it.posting.score_le x)

/-- A document that can be reached is in a block that is left. -/
theorem exists_entry_of_reach (h : 0 < reach it x) :
    it.docId ≤ x ∧ ∃ b ∈ it.iter.remaining, ∃ e ∈ b.entries, e.1 = x ∧ e.2 = reach it x := by
  unfold reach at h ⊢
  split at h
  next hle =>
    rw [if_pos hle]
    exact ⟨hle, exists_entry_of_scoreIn_pos h⟩
  · exact absurd h (lt_irrefl 0)

theorem reach_of_mem (hok : it.Ok) (hb : b ∈ it.iter.remaining) (he : e ∈ b.entries)
    (hle : it.docId ≤ e.1) : reach it e.1 = e.2 :=
  (if_pos hle).trans (scoreIn_of_mem hok.iter.ascending hb he)

theorem reach_of_lt (h : x < it.docId) : reach it x = 0 := if_neg (not_le.mpr h)

/-- An iterator that can be reached is kept if the block of the document is, and the document is not
passed. -/
theorem reach_le_of_keeps (hok' : it'.Ok)
    (hkeeps : ∀ b ∈ it.iter.remaining, ∀ e ∈ b.entries, e.1 = x → e.2 = reach it x → 0 < e.2 →
      it.docId ≤ x → b ∈ it'.iter.remaining ∧ it'.docId ≤ e.1) : reach it x ≤ reach it' x := by
  refine le_of_pos_imp fun hpos => ?_
  obtain ⟨hle, b, hb, e, he, rfl, hscore⟩ := exists_entry_of_reach hpos
  obtain ⟨hb', hle'⟩ := hkeeps b hb e he rfl hscore (hscore ▸ hpos) hle
  rw [reach_of_mem hok' hb' he hle', hscore]

end Reach

/-! ## Sums over iterators -/

section Sums

variable {α : Type*} {f g : α → ℕ} {l : List α} {β : Type*}

/-- If all but one are bounded by their bounds, the sum is bounded by the one and the other
bounds. -/
theorem sum_map_add_le (h : ∀ a ∈ l, f a ≤ g a) {a : α} (ha : a ∈ l) :
    (l.map f).sum + g a ≤ f a + (l.map g).sum := by
  obtain ⟨before, after, rfl⟩ := append_of_mem ha
  have hbefore : (before.map f).sum ≤ (before.map g).sum :=
    sum_le_sum fun b hb => h b (mem_append_left _ hb)
  have hafter : (after.map f).sum ≤ (after.map g).sum :=
    sum_le_sum fun b hb => h b (mem_append_right before (mem_cons_of_mem a hb))
  simp only [map_append, map_cons, sum_append, sum_cons]
  omega

/-- A sum over those elements that have a value. -/
theorem sum_map_le_filter {p : α → Bool} (h : ∀ a ∈ l, f a ≤ g a)
    (hzero : ∀ a ∈ l, ¬ p a → f a = 0) : (l.map f).sum ≤ ((l.filter p).map g).sum := by
  induction l with
  | nil => exact le_refl 0
  | cons a l ih =>
    have hrest := ih (fun b hb => h b (mem_cons_of_mem _ hb)) fun b hb =>
      hzero b (mem_cons_of_mem _ hb)
    rw [map_cons, sum_cons]
    by_cases hp : p a
    · rw [filter_cons_of_pos hp, map_cons, sum_cons]
      exact Nat.add_le_add (h a mem_cons_self) hrest
    · rw [filter_cons_of_neg hp, hzero a mem_cons_self hp, zero_add]
      exact hrest

/-- What holds of all elements that are related to one of the list. -/
theorem forall_mem_of_forall₂ {R : α → β → Prop} {l' : List β} {P : β → Prop}
    (h : List.Forall₂ R l l') (hP : ∀ a ∈ l, ∀ b, R a b → P b) : ∀ b ∈ l', P b := by
  induction h with
  | nil => exact nofun
  | cons hab _ ih =>
    refine forall_mem_cons.mpr ⟨hP _ mem_cons_self _ hab, ih fun a ha =>
      hP a (mem_cons_of_mem _ ha)⟩

theorem map_eq_of_forall₂ {R : α → α → Prop} {l' : List α} {F : α → β} (h : List.Forall₂ R l l')
    (hF : ∀ a b, R a b → F a = F b) : l.map F = l'.map F := by
  induction h with
  | nil => rfl
  | cons hab _ ih => rw [map_cons, map_cons, hF _ _ hab, ih]

end Sums

/-! ## The invariant -/

section Invariant

variable {postings : List BlockPosting} {T f UB : ℕ} {its : List TermIterator}
  {x : ℕ} {its' : List TermIterator} {it : TermIterator}

/-- The documents that are still to be found: from `f` on, with a score above the threshold. -/
def Candidate (postings : List BlockPosting) (T f x : ℕ) : Prop := f ≤ x ∧ T < totalScore postings x

/-- What holds of the term iterators between all movements: each is consistent; its threshold is at
most what the other lists leave; together they are some of the posting lists, and they reach every
candidate with its whole score. -/
structure Core (postings : List BlockPosting) (T f UB : ℕ) (its : List TermIterator) : Prop where
  mem : ∀ it ∈ its, it.posting ∈ postings
  ok : ∀ it ∈ its, it.Ok
  bounded : ∀ it ∈ its, it.threshold ≤ it.upperBound
  child : ∀ it ∈ its, it.threshold = 0 ∨ it.threshold + sumBounds its ≤ T + it.upperBound
  some_of : ∀ x, (its.map (·.posting.score x)).sum ≤ totalScore postings x
  safe : ∀ x, Candidate postings T f x → totalScore postings x ≤ sumReach its x
  bound : sumBounds its ≤ UB
  le_top : ∀ it ∈ its, it.docId ≤ invalidRowID

/-- Every posting list finds its way to the target. -/
def Near (postings : List BlockPosting) (d : ℕ) : Prop := ∀ l ∈ postings, l.Locates d

theorem near_invalidRowID : Near postings invalidRowID :=
  fun _ _ => BlockPosting.locates_invalidRowID

theorem Located.near (h : Located postings) {l : BlockPosting} (hl : l ∈ postings)
    (hb : b ∈ l.blocks) (he : e ∈ b.entries) : Near postings e.1 ∧ Near postings (e.1 + 1) :=
  ⟨fun l' hl' => (h l hl b hb e he l' hl').1, fun l' hl' => (h l hl b hb e he l' hl').2⟩

theorem exists_score_pos (h : 0 < totalScore postings x) : ∃ l ∈ postings, 0 < l.score x := by
  by_contra hnone
  push Not at hnone
  have hzero : (postings.map (·.score x)).sum = 0 :=
    sum_eq_zero (forall_mem_map.mpr fun l hl => le_zero_iff.mp (hnone l hl))
  unfold totalScore at h
  omega

theorem lt_of_totalScore_pos (h : 0 < totalScore postings x) : x < invalidRowID := by
  obtain ⟨l, -, hpos⟩ := exists_score_pos h
  obtain ⟨b, hb, e, he, rfl, -⟩ := exists_entry_of_scoreIn_pos hpos
  exact (Block.le_last he).trans_lt (l.valid b hb)

namespace Core

variable {d : ℕ}

section

variable (h : Core postings T f UB its)
include h

theorem perm (hperm : its.Perm its') : Core postings T f UB its' where
  mem it hit := h.mem it (hperm.mem_iff.mpr hit)
  ok it hit := h.ok it (hperm.mem_iff.mpr hit)
  bounded it hit := h.bounded it (hperm.mem_iff.mpr hit)
  child it hit := by
    rw [sumBounds, ← (hperm.map _).sum_eq]
    exact h.child it (hperm.mem_iff.mpr hit)
  some_of x := by
    rw [← (hperm.map _).sum_eq]
    exact h.some_of x
  safe x hx := by
    rw [sumReach, ← (hperm.map _).sum_eq]
    exact h.safe x hx
  bound := by
    rw [sumBounds, ← (hperm.map _).sum_eq]
    exact h.bound
  le_top it hit := h.le_top it (hperm.mem_iff.mpr hit)

/-- The score of a candidate is at most the bounds of the lists. -/
theorem total_le (hx : Candidate postings T f x) : totalScore postings x ≤ sumBounds its :=
  (h.safe x hx).trans (sum_le_sum fun it hit => reach_le_upperBound (h.ok it hit))

/-- **The block of a candidate has a bound above the threshold of its iterator.** -/
theorem blockMax_of_reach (hx : Candidate postings T f x) (hit : it ∈ its)
    (he : e ∈ b.entries) (hscore : e.2 = reach it x) (hpos : 0 < e.2) :
    it.threshold < b.blockMax := by
  have hmax := b.bound e he
  rcases h.child it hit with hzero | hchild
  · omega
  · -- the other lists cannot lift the document above the threshold by themselves
    have hsafe := h.safe x hx
    have hothers : sumReach its x + it.upperBound ≤ reach it x + sumBounds its :=
      sum_map_add_le (fun it' hit' => reach_le_upperBound (h.ok it' hit')) hit
    have hT := hx.2
    omega

/-- Documents before `d` are no candidates if the lists before `d` do not exceed the threshold. -/
theorem le_of_low (hlow : ((its.filter (·.docId < d)).map TermIterator.upperBound).sum ≤ T)
    (hx : Candidate postings T f x) : d ≤ x := by
  by_contra hlt
  have hsum : sumReach its x ≤ ((its.filter (·.docId < d)).map TermIterator.upperBound).sum := by
    refine sum_map_le_filter (fun it hit => reach_le_upperBound (h.ok it hit)) fun it _ hnot =>
      reach_of_lt ?_
    simp only [decide_eq_true_eq] at hnot
    omega
  have hsafe := h.safe x hx
  have hT := hx.2
  omega

end

/-- Iterators that reach no candidate can be left out. -/
theorem remove {before out after : List TermIterator} {UB' : ℕ}
    (h : Core postings T f UB (before ++ out ++ after))
    (hout : ∀ it ∈ out, ∀ x, Candidate postings T f x → reach it x = 0)
    (hUB : sumBounds (before ++ after) ≤ UB') : Core postings T f UB' (before ++ after) := by
  have hmem : ∀ it ∈ before ++ after, it ∈ before ++ out ++ after := by
    intro it hit
    simp only [mem_append] at hit ⊢
    tauto
  have hbounds : sumBounds (before ++ after) ≤ sumBounds (before ++ out ++ after) := by
    simp only [sumBounds, map_append, sum_append]
    omega
  refine ⟨fun it hit => h.mem it (hmem it hit), fun it hit => h.ok it (hmem it hit),
    fun it hit => h.bounded it (hmem it hit), fun it hit => ?_, fun x => ?_, fun x hx => ?_, hUB,
    fun it hit => h.le_top it (hmem it hit)⟩
  · rcases h.child it (hmem it hit) with hzero | hchild
    · exact .inl hzero
    · exact .inr (by omega)
  · have := h.some_of x
    simp only [map_append, sum_append] at this ⊢
    omega
  · have hsafe := h.safe x hx
    have hzero : (out.map (reach · x)).sum = 0 :=
      sum_eq_zero (forall_mem_map.mpr fun it hit => hout it hit x hx)
    simp only [sumReach, map_append, sum_append] at hsafe ⊢
    omega

end Core

/-- An iterator that is moved and still reaches all candidates. -/
structure Step (postings : List BlockPosting) (T f : ℕ) (it it' : TermIterator) : Prop where
  posting : it'.posting = it.posting
  threshold : it'.threshold = it.threshold
  ok : it'.Ok
  le_top : it'.docId ≤ invalidRowID
  keeps : ∀ x, Candidate postings T f x → reach it x ≤ reach it' x

/-- The document of an iterator that stands, and the row behind it, are found by all lists. -/
theorem Core.near_docId (h : Core postings T f UB its) (hlocated : Located postings)
    (hit : it ∈ its) (hstands : it.Stands) :
    Near postings it.docId ∧ Near postings (it.docId + 1) := by
  obtain ⟨b, hb, e, he, hdoc⟩ := hstands.mem (h.ok it hit)
  exact hdoc ▸ hlocated.near (h.mem it hit) hb he

theorem Step.refl (hok : it.Ok) (htop : it.docId ≤ invalidRowID) : Step postings T f it it :=
  ⟨rfl, rfl, hok, htop, fun _ _ => le_rfl⟩

/-- **Movements keep the invariant.** -/
theorem Core.step (h : Core postings T f UB its)
    (hsteps : List.Forall₂ (Step postings T f) its its') : Core postings T f UB its' := by
  have hbounds : sumBounds its = sumBounds its' :=
    congrArg List.sum (map_eq_of_forall₂ hsteps fun a b hab =>
      congrArg BlockPosting.upperBound hab.posting.symm)
  have hscores : ∀ x, its.map (·.posting.score x) = its'.map (·.posting.score x) := fun x =>
    map_eq_of_forall₂ hsteps fun a b hab => congrArg (BlockPosting.score · x) hab.posting.symm
  have hub : ∀ it it', Step postings T f it it' → it'.upperBound = it.upperBound :=
      fun it it' hstep =>
    congrArg BlockPosting.upperBound hstep.posting
  refine ⟨forall_mem_of_forall₂ hsteps fun it hit _ hstep => hstep.posting ▸ h.mem it hit,
    forall_mem_of_forall₂ hsteps fun _ _ _ hstep => hstep.ok, ?_, ?_, fun x =>
    hscores x ▸ h.some_of x,
    fun x hx => ?_, hbounds ▸ h.bound, forall_mem_of_forall₂ hsteps fun _ _ _ hstep => hstep.le_top⟩
  · refine forall_mem_of_forall₂ hsteps fun it hit it' hstep => ?_
    rw [hstep.threshold, hub it it' hstep]
    exact h.bounded it hit
  · refine forall_mem_of_forall₂ hsteps fun it hit it' hstep => ?_
    rw [hstep.threshold, hub it it' hstep, ← hbounds]
    exact h.child it hit
  · refine (h.safe x hx).trans (List.Forall₂.sum_le_sum ?_)
    exact forall₂_map_left_iff.mpr
      (forall₂_map_right_iff.mpr (hsteps.imp fun _ _ hstep => hstep.keeps x hx))

/-- Moving some of the iterators. -/
theorem Core.replace {before after : List TermIterator}
    (h : Core postings T f UB (before ++ its ++ after))
    (hsteps : List.Forall₂ (Step postings T f) its its') :
    Core postings T f UB (before ++ its' ++ after) := by
  refine h.step (rel_append (rel_append ?_ hsteps) ?_)
  all_goals
    refine forall₂_same.mpr fun it hit => ?_
    have hmem : it ∈ before ++ its ++ after := by simp [hit]
    exact .refl (h.ok it hmem) (h.le_top it hmem)

namespace Core

variable {d : ℕ} {r : TermIterator × Bool}

section

variable (h : Core postings T f UB its) (hit : it ∈ its)
    (hd : ∀ x, Candidate postings T f x → d ≤ x)
include h hit hd

/-- `Next` to a target that no candidate is before. -/
theorem step_next {it' : TermIterator} (hmoves : it.Moves d it') : Step postings T f it it' := by
  refine ⟨hmoves.posting, hmoves.threshold, hmoves.ok, hmoves.le_top, fun x hx => ?_⟩
  refine reach_le_of_keeps hmoves.ok fun b hb e he hex hscore hpos _ => ?_
  exact hmoves.keeps b hb e he (hex ▸ hd x hx) (h.blockMax_of_reach hx hit he hscore hpos)

/-- `NextShallow` to a target that no candidate is before. -/
theorem step_shallow (hmoves : it.MovesShallow d r) (hr : r.2) : Step postings T f it r.1 := by
  have hdoc : r.1.docId = it.docId := by rw [hmoves.docId, if_pos hr]
  refine ⟨hmoves.posting, hmoves.threshold, hmoves.ok, hdoc ▸ h.le_top it hit, fun x hx => ?_⟩
  refine reach_le_of_keeps hmoves.ok fun b hb e he hex hscore hpos hle => ?_
  have hlast : d ≤ b.last := (hd x hx).trans (hex ▸ Block.le_last he)
  exact ⟨(hmoves.keeps (h.bounded it hit) b hb hlast (h.blockMax_of_reach hx hit he hscore hpos)).2,
    hdoc ▸ hex ▸ hle⟩

/-- An iterator that is exhausted reaches no candidate. -/
theorem reach_eq_zero
    (hmoves : it.MovesShallow d r) (hr : r.2 = false) (hx : Candidate postings T f x) :
    reach it x = 0 := by
  by_contra hne
  obtain ⟨-, b, hb, e, he, hex, hscore⟩ := exists_entry_of_reach (pos_of_ne_zero hne)
  have hlast : d ≤ b.last := (hd x hx).trans (hex ▸ Block.le_last he)
  have hmax := h.blockMax_of_reach hx hit he hscore (hscore ▸ pos_of_ne_zero hne)
  have := (hmoves.keeps (h.bounded it hit) b hb hlast hmax).1
  exact Bool.noConfusion (this.symm.trans hr)

end

end Core

end Invariant

end Infinity.Search
