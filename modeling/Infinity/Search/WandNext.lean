import Infinity.Search.WandTurn

/-! # The loop of a block-max WAND search

At the head of the loop every term iterator stands on its document, or it is before a document `D`
that no candidate is before. A turn keeps this, and brings the search nearer to its end: it moves at
least one iterator or leaves one out, until a document above the threshold is found or there is none
left.

* `Wand.nextLoop_spec`: the loop ends, with the next document above the threshold.
-/

namespace Infinity.Search

open Foundations List

namespace Wand

variable {postings : List BlockPosting} {T f UB d : ℕ} {its before after : List TermIterator}
  {w : Wand} {its' : List TermIterator} {it : TermIterator} {σ : Sorting}

/-- What holds at the head of the loop. -/
structure Head (postings : List BlockPosting) (T f UB : ℕ) (its : List TermIterator) : Prop where
  core : Core postings T f UB its
  ahead : ∀ it ∈ its, f ≤ it.docId
  settled : ∃ D, (∀ it ∈ its, it.docId = invalidRowID ∨ it.Stands ∨ it.docId < D) ∧ lowSum D its ≤ T

/-- What holds when a document is found: the iterators up to the pivot stand on it, those behind the
pivot are behind it, and it is the first candidate. -/
structure Found (postings : List BlockPosting) (T f : ℕ) (w : Wand)
    (before after : List TermIterator) : Prop where
  iterators : w.iterators = before ++ after
  pivot : w.pivot + 1 = before.length
  core : Core postings T f w.upperBound (before ++ after)
  at_doc : ∀ it ∈ before, it.docId = w.docId
  behind : ∀ it ∈ after, w.docId < it.docId
  stands : ∀ it ∈ before ++ after, it.Stands
  first : ∀ x, Candidate postings T f x → w.docId ≤ x
  from_le : f ≤ w.docId
  above : T < w.score
  score : w.score = totalScore postings w.docId
  score_le : w.score ≤ sumBounds before

/-- The head of the loop after all iterators up to the pivot were moved. -/
theorem head_of_arrived (h : Core postings T f UB (before ++ after))
    (hbefore : ∀ it ∈ before, Arrived d it) (hd : f ≤ d)
    (hafter : ∀ it ∈ after, it.Stands ∧ f ≤ it.docId) : Head postings T f UB (before ++ after) := by
  refine ⟨h, fun it hit => ?_, 0, fun it hit => ?_, ?_⟩
  · rcases mem_append.mp hit with hit | hit
    · exact hd.trans (hbefore it hit).1
    · exact (hafter it hit).2
  · rcases mem_append.mp hit with hit | hit
    · rcases (hbefore it hit).2 with hinvalid | hstands
      · exact .inl hinvalid
      · exact .inr (.inl hstands)
    · exact .inr (.inl (hafter it hit).1)
  · rw [lowSum_eq_zero fun it _ => Nat.zero_le it.docId]
    exact Nat.zero_le T

/-! ## The distance to the end -/

theorem distance_le_mul (h : ∀ it ∈ its, d ≤ it.docId) :
    distance its ≤ its.length * (invalidRowID + 1 - d) := by
  refine (sum_le_card_nsmul _ (invalidRowID + 1 - d) ?_).trans ?_
  · refine forall_mem_map.mpr fun it hit => ?_
    have := h it hit
    omega
  · simp

theorem mul_le_distance (h : ∀ it ∈ its, it.docId ≤ d) :
    its.length * (invalidRowID + 1 - d) ≤ distance its := by
  refine le_trans ?_ (card_nsmul_le_sum _ (invalidRowID + 1 - d) ?_)
  · simp
  · refine forall_mem_map.mpr fun it hit => ?_
    have := h it hit
    omega

/-- The distance gets smaller if all iterators are moved over a document. -/
theorem distance_lt_of_arrived (hle : ∀ it ∈ its, it.docId ≤ d) (hd : d ≤ invalidRowID)
    (harrived : ∀ it ∈ its', Arrived (d + 1) it) (hlength : its'.length = its.length)
    (hne : its ≠ []) : distance its' < distance its := by
  have hpos : 0 < its.length := length_pos_iff.mpr hne
  calc distance its' ≤ its'.length * (invalidRowID + 1 - (d + 1)) :=
    distance_le_mul fun it hit => (harrived it hit).1
    _ = its.length * (invalidRowID + 1 - (d + 1)) := by rw [hlength]
    _ < its.length * (invalidRowID + 1 - d) := Nat.mul_lt_mul_of_pos_left (by omega) hpos
    _ ≤ distance its := mul_le_distance hle

section

variable (h : List.Forall₂ (fun it it' : TermIterator => it.docId ≤ it'.docId) its its')
include h

theorem distance_le_of_forall₂ : distance its' ≤ distance its := by
  induction h with
  | nil => exact le_rfl
  | cons hle _ ih =>
    simp only [distance, map_cons, sum_cons] at ih ⊢
    omega

theorem distance_lt_of_forall₂ (hit : it ∈ its) (hlt : it.docId < d)
    (hd : d ≤ invalidRowID) (hge : ∀ it' ∈ its', d ≤ it'.docId) : distance its' < distance its := by
  induction h with
  | nil => cases hit
  | @cons a b its its' hle hrest ih =>
    have hrest' := distance_le_of_forall₂ hrest
    obtain ⟨hb, hge⟩ := forall_mem_cons.mp hge
    simp only [distance, map_cons, sum_cons] at ih hrest' ⊢
    rcases mem_cons.mp hit with rfl | hit
    · omega
    · have := ih hit hge
      omega

end

/-! ## The branches of a turn -/

theorem nextWhileBefore_spec {all : List TermIterator} (h : Core postings T f UB all)
    (hmem : ∀ it ∈ its, it ∈ all) (hcands : ∀ x, Candidate postings T f x → d ≤ x)
    (hnear : Near postings d)
    (hd : d ≤ invalidRowID) (hsorted : its.Pairwise fun it it' => it.docId ≤ it'.docId)
    (hstands : ∀ it ∈ its, d ≤ it.docId → it.Stands) :
    List.Forall₂ (fun it it' => Step postings T f it it' ∧ it.docId ≤ it'.docId) its
      (nextWhileBefore d its) ∧ ∀ it ∈ nextWhileBefore d its, Arrived d it := by
  induction its with
  | nil => exact ⟨List.Forall₂.nil, nofun⟩
  | cons it its ih =>
    have hit := hmem it mem_cons_self
    rw [nextWhileBefore]
    split
    next hlt =>
      have hread : ∀ row, it.iter.currentRowID = some row → row < d := fun row hrow =>
        ((h.ok it hit).read row hrow).trans_lt hlt
      obtain ⟨hstep, harrived⟩ := next_arrives h hit hcands hnear hread hd
      obtain ⟨hsteps, hall⟩ :=
        ih (fun it' hit' => hmem it' (mem_cons_of_mem _ hit')) hsorted.of_cons
        fun it' hit' => hstands it' (mem_cons_of_mem _ hit')
      refine ⟨List.Forall₂.cons ⟨hstep, ?_⟩ hsteps, forall_mem_cons.mpr ⟨harrived, hall⟩⟩
      exact (hlt.le).trans harrived.1
    next hge =>
      refine ⟨forall₂_same.mpr fun it' hit' => ⟨?_, le_rfl⟩, fun it' hit' => ?_⟩
      · exact .refl (h.ok it' (hmem it' hit')) (h.le_top it' (hmem it' hit'))
      · have hle : d ≤ it'.docId := by
          rcases mem_cons.mp hit' with rfl | hrest
          · exact not_lt.mp hge
          · exact (not_lt.mp hge).trans (rel_of_pairwise_cons hsorted hrest)
        exact ⟨hle, .inr (hstands it' hit' hle)⟩

/-- The branch that brings the iterators before the pivot's document to it. -/
theorem align_spec (h : Core postings T f UB (before ++ after))
    (hcands : ∀ x, Candidate postings T f x → d ≤ x) (hnear : Near postings d)
    (hd : d ≤ invalidRowID) (hsorted : before.Pairwise fun it it' => it.docId ≤ it'.docId)
    (hle : ∀ it ∈ before, it.docId ≤ d) (hstands : ∀ it ∈ before, it.docId = d → it.Stands)
    (hat : ∃ it ∈ before, it.docId = d) (hlow : ∃ it ∈ before, it.docId < d) :
    Core postings T f UB (nextWhileBefore d (before.take (before.length - 1)) ++
      before.drop (before.length - 1) ++ after) ∧
      (∀ it ∈ nextWhileBefore d (before.take (before.length - 1)) ++
      before.drop (before.length - 1), Arrived d it) ∧
      distance (nextWhileBefore d (before.take (before.length - 1)) ++
      before.drop (before.length - 1)) < distance before := by
  obtain ⟨it, hit, hdoc⟩ := hat
  obtain ⟨early, hearly, hlt⟩ := hlow
  rcases eq_nil_or_concat before with rfl | ⟨init, last, rfl⟩
  · cases hit
  rw [concat_eq_append] at *
  have hlength : (init ++ [last]).length - 1 = init.length := by simp
  rw [hlength, take_left, drop_left]
  have hmemAll : ∀ it ∈ init ++ [last], it ∈ init ++ [last] ++ after :=
    fun it hit => mem_append_left _ hit
  -- the last iterator stands on the pivot's document
  have hlast : last.docId = d := by
    refine (hle last (mem_append_right _ (mem_singleton_self last))).antisymm ?_
    rcases mem_append.mp hit with hinit | hlast
    · rw [← hdoc]
      exact (pairwise_append.mp hsorted).2.2 it hinit last (mem_singleton_self last)
    · rw [← hdoc, mem_singleton.mp hlast]
  have hstand : last.Stands := hstands last (mem_append_right _ (mem_singleton_self last)) hlast
  obtain ⟨hsteps, harrived⟩ :=
    nextWhileBefore_spec h (fun it hit => hmemAll it (mem_append_left _ hit)) hcands
    hnear hd (pairwise_append.mp hsorted).1 fun it hit hge =>
      hstands it (mem_append_left _ hit) ((hle it (mem_append_left _ hit)).antisymm hge)
  have hall : ∀ it ∈ nextWhileBefore d init ++ [last], Arrived d it := by
    intro it hit
    rcases mem_append.mp hit with hit | hit
    · exact harrived it hit
    · rw [mem_singleton.mp hit]
      exact ⟨hlast.ge, .inr hstand⟩
  refine ⟨?_, hall, ?_⟩
  · rw [append_assoc, ← nil_append init] at h
    rw [append_assoc, ← nil_append (nextWhileBefore d init)]
    exact h.replace (hsteps.imp fun _ _ hstep => hstep.1)
  · refine distance_lt_of_forall₂ (rel_append (hsteps.imp fun _ _ hstep => hstep.2) ?_) hearly hlt
      hd fun it hit => (hall it hit).1
    exact forall₂_same.mpr fun it _ => le_rfl

theorem sumScores_eq (h : ∀ it ∈ its, it.Ok ∧ it.Stands ∧ it.docId = d) :
    sumScores its = some (its.map (·.posting.score d)).sum := by
  induction its with
  | nil => rfl
  | cons it its ih =>
    obtain ⟨⟨hok, hstands, hdoc⟩, hrest⟩ := forall_mem_cons.mp h
    rw [sumScores, hstands.bm25Score hok, ih hrest, hdoc]
    rfl

/-- The whole score of a candidate comes from the iterators that are not behind it. -/
theorem total_le_scores (h : Core postings T f UB (before ++ after))
    (hafter : ∀ it ∈ after, d < it.docId)
    (hd : Candidate postings T f d) :
    totalScore postings d ≤ (before.map (·.posting.score d)).sum := by
  have hsafe := h.safe d hd
  have hzero : (after.map (reach · d)).sum = 0 :=
    sum_eq_zero (forall_mem_map.mpr fun it hit => reach_of_lt (hafter it hit))
  rw [sumReach, map_append, sum_append, hzero] at hsafe
  exact hsafe.trans (sum_le_sum fun it hit => reach_le_score (h.ok it (mem_append_left _ hit)))

/-! ## A turn -/

/-- What holds after a turn. -/
def TurnOk (postings : List BlockPosting) (f : ℕ) (w : Wand) : Turn → Prop
  | .exhausted w' => w'.docId = invalidRowID ∧ ∀ x, ¬ Candidate postings w.threshold f x
  | .found w' =>
    w'.threshold = w.threshold ∧ ∃ before after, Found postings w.threshold f w' before after
  | .again w' =>
      w'.threshold = w.threshold ∧ Head postings w.threshold f w'.upperBound w'.iterators ∧
      distance w'.iterators < distance w.iterators
  | .undefined => False

/-- The iterators up to the pivot after their blocks were moved to the pivot's document. -/
structure Aligned (d f : ℕ) (its : List TermIterator) : Prop where
  nonempty : its ≠ []
  le : ∀ it ∈ its, it.docId ≤ d
  ahead : ∀ it ∈ its, f ≤ it.docId
  sorted : its.Pairwise fun it it' => it.docId ≤ it'.docId
  mem : ∃ it ∈ its, it.docId = d
  stands : ∀ it ∈ its, it.docId = d → it.Stands

theorem Split.aligned {before' : List TermIterator} (hsplit : Split T d its before after)
    (hahead : ∀ it ∈ its, f ≤ it.docId) (hstands : ∀ it ∈ its, d ≤ it.docId → it.Stands)
    (hsame : List.Forall₂ (SameDoc d) before before') : Aligned d f before' := by
  have hdocs : before.map TermIterator.docId = before'.map TermIterator.docId :=
    map_eq_of_forall₂ hsame fun _ _ h => h.docId.symm
  have hmem : ∀ it ∈ before, it ∈ its := fun it hit => hsplit.append ▸ mem_append_left _ hit
  refine ⟨fun hnil => hsplit.nonempty ?_, ?_, ?_, ?_, ?_, ?_⟩
  · rw [hnil] at hsame
    exact forall₂_nil_right_iff.mp hsame
  · exact forall_mem_of_forall₂ hsame fun it hit it' h => h.docId ▸ hsplit.le it hit
  · exact forall_mem_of_forall₂ hsame fun it hit it' h => h.docId ▸ hahead it (hmem it hit)
  · rw [← pairwise_map (R := (· ≤ ·)), ← hdocs, pairwise_map]
    exact hsplit.sorted
  · obtain ⟨it, hit, hdoc⟩ := hsplit.mem
    have : d ∈ before'.map TermIterator.docId := hdocs ▸ mem_map.mpr ⟨it, hit, hdoc⟩
    exact mem_map.mp this
  · refine forall_mem_of_forall₂ hsame fun it hit it' h hdoc => ?_
    have hdoc' : it.docId = d := h.docId ▸ hdoc
    have hstand := hstands it (hmem it hit) (hdoc'.ge)
    rw [h.stays hstand hdoc']
    exact hstand

/-- What holds of a turn when its pivot is known. -/
structure PivotAt (postings : List BlockPosting) (f : ℕ) (w : Wand) (d : ℕ)
    (before after : List TermIterator) : Prop where
  core : Core postings w.threshold f w.upperBound w.iterators
  split : Split w.threshold d w.iterators before after
  ahead : ∀ it ∈ w.iterators, f ≤ it.docId
  alive : ∀ it ∈ w.iterators, it.docId < invalidRowID
  stands : ∀ it ∈ w.iterators, d ≤ it.docId → it.Stands

namespace PivotAt

variable {before' : List TermIterator}

section

variable (h : PivotAt postings f w d before after)
include h

theorem cands {x : ℕ} (hx : Candidate postings w.threshold f x) : d ≤ x :=
  h.core.le_of_low h.split.low hx

theorem mem_before (hit : it ∈ before) : it ∈ w.iterators := h.split.append ▸ mem_append_left _ hit

theorem mem_after (hit : it ∈ after) : it ∈ w.iterators := h.split.append ▸ mem_append_right _ hit

theorem after_ok : ∀ it ∈ after, it.Stands ∧ f ≤ it.docId := fun it hit =>
  ⟨h.stands it (h.mem_after hit) ((h.split.lt it hit).le), h.ahead it (h.mem_after hit)⟩

theorem lt_top : d < invalidRowID := by
  obtain ⟨it, hit, hdoc⟩ := h.split.mem
  exact hdoc ▸ h.alive it (h.mem_before hit)

theorem near (hlocated : Located postings) : Near postings d ∧ Near postings (d + 1) := by
  obtain ⟨it, hit, hdoc⟩ := h.split.mem
  have hmem := h.mem_before hit
  exact hdoc ▸ h.core.near_docId hlocated hmem (h.stands it hmem hdoc.ge)

theorem from_le : f ≤ d := by
  obtain ⟨it, hit, hdoc⟩ := h.split.mem
  exact hdoc ▸ h.ahead it (h.mem_before hit)

/-- A turn goes on when all iterators up to the pivot were moved over its document. -/
theorem again_of_arrived {moved : List TermIterator}
    (hcore : Core postings w.threshold f w.upperBound (moved ++ after))
    (harrived : ∀ it ∈ moved, Arrived d it)
    (hdistance : distance moved < distance before) :
    TurnOk postings f w (.again { w with iterators := moved ++ after }) := by
  refine ⟨rfl, head_of_arrived hcore harrived h.from_le h.after_ok, ?_⟩
  rw [h.split.append, distance_append, distance_append]
  omega

/-- The turn that leaves an exhausted iterator out. -/
theorem leave_out (hcore : Core postings w.threshold f w.upperBound (before' ++ after))
    (hdistance : distance before' < distance before) {left : List TermIterator}
    (hleft : left.Sublist before)
    (hsame : List.Forall₂ (SameDoc d) left before') :
    TurnOk postings f w (.again { w with iterators := before' ++ after }) := by
  have hmem : ∀ it ∈ left, it ∈ w.iterators := fun it hit => h.mem_before (hleft.subset hit)
  refine ⟨rfl, ⟨hcore, fun it hit => ?_, d, fun it hit => ?_, ?_⟩, ?_⟩
  · rcases mem_append.mp hit with hit | hit
    · exact forall_mem_of_forall₂ hsame (fun it hit it' hdoc =>
        hdoc.docId ▸ h.ahead it (hmem it hit)) it hit
    · exact (h.after_ok it hit).2
  · rcases mem_append.mp hit with hit | hit
    · refine .inr (forall_mem_of_forall₂ hsame (P :=
        fun it => it.Stands ∨ it.docId < d) (fun it hit it' hdoc => ?_) it hit)
      rcases lt_or_ge it.docId d with hlt | hge
      · exact .inr (hdoc.docId ▸ hlt)
      · have hstand := h.stands it (hmem it hit) hge
        rw [hdoc.stays hstand ((h.split.le it (hleft.subset hit)).antisymm hge)]
        exact .inl hstand
    · exact .inr (.inl (h.after_ok it hit).1)
  · have hlow := h.split.low
    have hsub : lowSum d left ≤ lowSum d before := lowSum_le_of_sublist hleft
    rw [h.split.append, lowSum_append] at hlow
    rw [lowSum_append, lowSum_of_sameDoc hsame]
    omega
  · show distance (before' ++ after) < _
    rw [h.split.append, distance_append, distance_append]
    omega

/-- The turn that evaluates the pivot's document. -/
theorem evaluate (hlocated : Located postings)
    (hcore : Core postings w.threshold f w.upperBound (before' ++ after))
    (haligned : Aligned d f before') (hat : ∀ it ∈ before', it.docId = d)
    (hdistance : distance before' = distance before) :
    TurnOk postings f w (match sumScores before' with
      | none => .undefined
      | some score =>
        if w.threshold < score then
          .found { w with
            iterators := before' ++ after, pivot := before'.length - 1, docId := d, score := score }
        else .again { w with iterators := before'.map (·.next (d + 1)) ++ after }) := by
  have hok : ∀ it ∈ before', it.Ok := fun it hit => hcore.ok it (mem_append_left _ hit)
  have hstands : ∀ it ∈ before', it.Stands := fun it hit => haligned.stands it hit (hat it hit)
  rw [sumScores_eq fun it hit => ⟨hok it hit, hstands it hit, hat it hit⟩]
  have hle : (before'.map (·.posting.score d)).sum ≤ totalScore postings d := by
    have := hcore.some_of d
    rw [map_append, sum_append] at this
    omega
  dsimp only
  split
  next habove =>
    have hd : Candidate postings w.threshold f d := ⟨h.from_le, habove.trans_le hle⟩
    refine ⟨rfl, before', after, ⟨rfl, ?_, hcore, hat, h.split.lt, fun it hit => ?_, fun x hx =>
      h.cands hx, h.from_le, habove, hle.antisymm (total_le_scores hcore h.split.lt hd), ?_⟩⟩
    · exact Nat.sub_add_cancel (length_pos_iff.mpr haligned.nonempty)
    · rcases mem_append.mp hit with hit | hit
      · exact hstands it hit
      · exact (h.after_ok it hit).1
    · exact sum_le_sum fun it hit => it.posting.score_le d
  next hlow =>
    have hcands : ∀ x, Candidate postings w.threshold f x → d + 1 ≤ x := by
      intro x hx
      refine (h.cands hx).lt_of_ne ?_
      rintro rfl
      have := total_le_scores hcore h.split.lt hx
      have hT := hx.2
      omega
    have hboth : ∀ it ∈ before', Step postings w.threshold f it (it.next (d + 1)) ∧
        Arrived (d + 1) (it.next (d + 1)) := fun it hit =>
      next_arrives hcore (mem_append_left _ hit) hcands (h.near hlocated).2
        (Behind.read_lt (.inl (haligned.le it hit)) (hok it hit) (Nat.lt_succ_self d)) h.lt_top
    have harrived : ∀ it ∈ before'.map (·.next (d + 1)), Arrived (d + 1) it :=
      forall_mem_map.mpr fun it hit => (hboth it hit).2
    refine h.again_of_arrived (core_map hcore fun it hit => (hboth it hit).1) (fun it hit => ?_) ?_
    · exact ⟨Nat.le_of_succ_le (harrived it hit).1, (harrived it hit).2⟩
    · rw [← hdistance]
      exact distance_lt_of_arrived haligned.le (h.lt_top.le) harrived (length_map _)
        haligned.nonempty

end

end PivotAt

theorem turnAt_spec (hlocated : Located postings) (h : PivotAt postings f w d before after) :
    TurnOk postings f w (turnAt σ w d before after) := by
  have hbegin : Core postings w.threshold f w.upperBound ([] ++ before ++ after) :=
    h.split.append ▸ h.core
  have hshallow := shallowTo_spec (fun x hx => h.cands hx) (h.near hlocated).1 hbegin
  rw [turnAt]
  generalize shallowTo d before = r at hshallow
  obtain ⟨before', result⟩ := r
  obtain ⟨hcore, hrest⟩ := hshallow
  cases result with
  | none =>
    obtain ⟨hdistance, left, hleft, hsame⟩ := hrest
    exact h.leave_out hcore hdistance hleft hsame
  | some sum =>
    obtain ⟨hsame, hblocks, hsum⟩ := hrest
    have haligned := h.split.aligned h.ahead h.stands hsame
    have hdistance := distance_of_sameDoc hsame
    dsimp only at hsame hblocks hsum haligned hdistance ⊢
    split
    · split
      · exact haligned.nonempty rfl
      next first rest =>
        split
        next hfirst =>
          refine h.evaluate hlocated hcore haligned (fun it hit => (haligned.le it hit).antisymm ?_)
            hdistance
          rcases mem_cons.mp hit with rfl | hit
          · exact hfirst.ge
          · exact hfirst ▸ rel_of_pairwise_cons haligned.sorted hit
        next hfirst =>
          have hlt := (haligned.le first mem_cons_self).lt_of_ne hfirst
          obtain ⟨hcore', harrived, hcloser⟩ := align_spec hcore (fun x hx => h.cands hx)
            (h.near hlocated).1 (h.lt_top.le) haligned.sorted haligned.le haligned.stands
            haligned.mem ⟨first, mem_cons_self, hlt⟩
          exact h.again_of_arrived hcore' harrived (hdistance ▸ hcloser)
    next hlow =>
      have hup : (∀ it ∈ after, (after.head?.map TermIterator.docId).getD invalidRowID ≤ it.docId) ∧
          d < (after.head?.map TermIterator.docId).getD invalidRowID ∧
          (after.head?.map TermIterator.docId).getD invalidRowID ≤ invalidRowID ∧
          Near postings ((after.head?.map TermIterator.docId).getD invalidRowID) := by
        cases after with
        | nil => exact ⟨nofun, h.lt_top, le_rfl, near_invalidRowID⟩
        | cons it after =>
          have hmem := h.mem_after mem_cons_self
          refine ⟨forall_mem_cons.mpr ⟨le_rfl, fun it' hit' => ?_⟩, h.split.lt it mem_cons_self,
            (h.alive it hmem).le,
            (h.core.near_docId hlocated hmem (h.after_ok it mem_cons_self).1).1⟩
          exact rel_of_pairwise_cons h.split.sorted_after hit'
      obtain ⟨hcore', hlength, harrived⟩ := skipBlocks_spec hlocated hup.1 hcore haligned.le hblocks
        haligned.nonempty hsum (not_lt.mp hlow) hup.2.1 hup.2.2.1 hup.2.2.2
      refine h.again_of_arrived hcore' (fun it hit => ?_) ?_
      · exact ⟨Nat.le_of_succ_le (harrived it hit).1, (harrived it hit).2⟩
      · rw [← hdistance]
        exact distance_lt_of_arrived haligned.le (h.lt_top.le) harrived hlength haligned.nonempty

theorem TurnOk.of_nearer {w' : Wand} {r : Turn} (h : TurnOk postings f w' r)
    (hthreshold : w'.threshold = w.threshold)
    (hdistance : distance w'.iterators ≤ distance w.iterators) : TurnOk postings f w r := by
  unfold TurnOk at *
  rw [hthreshold] at h
  cases r with
  | exhausted => exact h
  | found => exact h
  | again => exact ⟨h.1, h.2.1, h.2.2.trans_le hdistance⟩
  | undefined => exact h

/-- The iterators that are left when the exhausted ones behind them are popped are all alive. -/
theorem alive_of_rdropWhile (hsorted : its.Pairwise fun it it' => it.docId ≤ it'.docId)
    (htop : ∀ it ∈ its, it.docId ≤ invalidRowID) : ∀ it ∈ its.rdropWhile (·.docId = invalidRowID),
    it.docId < invalidRowID := by
  have hsorted' :=
    hsorted.imp_of_mem (S := fun it it' => it.docId ≤ it'.docId ∧ it'.docId ≤ invalidRowID)
    fun _ hit' hle => ⟨hle, htop _ hit'⟩
  rw [rdropWhile_eq_filter
    (fun it it' hle htop => by simp only [decide_eq_true_eq] at htop ⊢; omega) hsorted']
  intro it hit
  obtain ⟨hmem, hne⟩ := mem_filter.mp hit
  exact (htop it hmem).lt_of_ne (by simpa using hne)

/-- **A turn keeps the head of the loop and comes nearer to the end.** -/
theorem turn_spec (hlocated : Located postings) (σ : Sorting)
    (h : Head postings w.threshold f w.upperBound w.iterators) :
    TurnOk postings f w (w.turn σ) := by
  have hperm := σ.byDoc_perm w.iterators
  have hsorted := σ.byDoc_sorted w.iterators
  have hparts : (σ.byDoc w.iterators).rdropWhile (·.docId = invalidRowID) ++
      (σ.byDoc w.iterators).rtakeWhile (·.docId = invalidRowID) = σ.byDoc w.iterators :=
      rdropWhile_append_rtakeWhile
  have hpopped : ∀ it ∈ (σ.byDoc w.iterators).rtakeWhile (·.docId = invalidRowID),
      it.docId = invalidRowID := by
    intro it hit
    have := mem_rtakeWhile_imp hit
    exact of_decide_eq_true this
  have halive := alive_of_rdropWhile hsorted fun it hit => h.core.le_top it (hperm.mem_iff.mp hit)
  have hsound : w.iterators.any TermIterator.overran = false :=
    any_eq_false.mpr fun it hit => Bool.eq_false_iff.mp (h.core.ok it hit).overran
  rw [turn, hsound, if_neg Bool.false_ne_true]
  dsimp only
  generalize (σ.byDoc w.iterators).rdropWhile (fun it => decide (it.docId = invalidRowID)) =
    kept at *
  generalize (σ.byDoc w.iterators).rtakeWhile (fun it => decide (it.docId = invalidRowID)) =
    popped at *
  rw [← hparts] at hperm hsorted
  have hmem : ∀ it ∈ kept, it ∈ w.iterators :=
    fun it hit => hperm.mem_iff.mp (mem_append_left _ hit)
  have hsortedKept := (pairwise_append.mp hsorted).1
  have hdistance : distance kept ≤ distance w.iterators := by
    have heq : distance (kept ++ popped) = distance w.iterators := (hperm.map _).sum_eq
    rw [distance_append] at heq
    omega
  have hcore : Core postings w.threshold f (w.upperBound - sumBounds popped) kept := by
    have hall : Core postings w.threshold f w.upperBound (kept ++ popped ++ []) := by
      rw [append_nil]
      exact h.core.perm hperm.symm
    have hbound := hall.bound
    rw [append_nil, sumBounds_append] at hbound
    rw [← append_nil kept]
    refine hall.remove (fun it hit x hx => reach_of_lt ?_) ?_
    · rw [hpopped it hit]
      exact lt_of_totalScore_pos ((Nat.zero_le _).trans_lt hx.2)
    · rw [append_nil]
      omega
  have hnone : sumBounds kept ≤ w.threshold → ∀ x, ¬ Candidate postings w.threshold f x :=
      fun hle x hx =>
    absurd ((hcore.total_le hx).trans hle) (not_le.mpr hx.2)
  split
  next hle => exact ⟨rfl, hnone (hcore.bound.trans hle)⟩
  · split
    next hfind => exact ⟨rfl, hnone (by simpa using findPivot_eq_none hfind (Nat.zero_le _))⟩
    next p hp =>
      split
      next hdrop =>
        have hlength := drop_eq_nil_iff.mp hdrop
        have hpivot := findPivot_eq_some hp (Nat.zero_le _)
        rw [take_of_length_le hlength, take_of_length_le (Nat.le_succ_of_le hlength)] at hpivot
        exact absurd hpivot.1 (not_le.mpr hpivot.2)
      next it rest hdrop =>
        have hsplit := split_of_findPivot hsortedKept hp hdrop
        obtain ⟨D, hsettled, hlow⟩ := h.settled
        -- the pivot's document is not before `D`
        have hD : D ≤ it.docId := by
          by_contra hlt
          have hmono : lowSum (it.docId + 1) kept ≤ lowSum D kept := lowSum_mono (not_le.mp hlt)
          have hall : lowSum D (kept ++ popped) = lowSum D w.iterators :=
            ((hperm.filter _).map _).sum_eq
          have hhigh := hsplit.high
          rw [lowSum_append] at hall
          omega
        have hstands : ∀ it' ∈ kept, it.docId ≤ it'.docId → it'.Stands := by
          intro it' hit' hle
          have hlt := halive it' hit'
          rcases hsettled it' (hmem it' hit') with hinvalid | hstands | hbefore
          · omega
          · exact hstands
          · omega
        have hat : PivotAt postings f
            { w with iterators := kept, upperBound := w.upperBound - sumBounds popped } it.docId
            _ _ :=
          ⟨hcore, hsplit, fun it' hit' => h.ahead it' (hmem it' hit'), halive, hstands⟩
        exact (turnAt_spec hlocated hat).of_nearer rfl hdistance

/-- What `Next` returns from the head of the loop. -/
def NextOk (postings : List BlockPosting) (T f : ℕ) (r : Wand × Bool) : Prop :=
  if r.2 then r.1.threshold = T ∧ ∃ before after, Found postings T f r.1 before after
  else ∀ x, ¬ Candidate postings T f x

/-- **The loop ends with the first candidate, or there is none.** -/
theorem nextLoop_spec (hlocated : Located postings) (σ : Sorting) {fuel : ℕ}
    (h : Head postings T f w.upperBound w.iterators) (hT : w.threshold = T)
    (hfuel : distance w.iterators < fuel) : ∃ r, nextLoop σ fuel w = some r ∧
    NextOk postings T f r := by
  induction fuel generalizing w with
  | zero => exact absurd hfuel (Nat.not_lt_zero _)
  | succ fuel ih =>
    subst hT
    have hturn := turn_spec hlocated σ h
    rw [nextLoop]
    generalize w.turn σ = r at hturn
    cases r with
    | exhausted w' => exact ⟨_, rfl, hturn.2⟩
    | found w' => exact ⟨_, rfl, hturn⟩
    | again w' =>
      obtain ⟨hthreshold, hhead, hdistance⟩ := hturn
      exact ih hhead hthreshold (by omega)
    | undefined => exact hturn.elim

end Wand

end Infinity.Search
