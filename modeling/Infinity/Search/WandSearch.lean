import Infinity.Search.WandNext

/-! # Block-max WAND finds the best results

The threshold of the search is that of the heap: once the heap is full, the lowest score in it.
Documents are found in ascending order, so that a document that is left out has at most the lowest
score of the heap and a larger row id than all results in it. Hence the results are exactly the
first ones of the ranking.

* `searchTop_eq_of_located`: the search returns the first results of the ranking.
-/

namespace Infinity.Search

open Foundations List ScoreResultHeap TermIterator

namespace Wand

variable {postings : List BlockPosting} {T f d : ℕ} {w : Wand} {before after : List TermIterator}
  {its : List TermIterator} {T' : ℕ} {UB : ℕ}

/-- The document from which `Next` is asked. -/
def target (w : Wand) : ℕ := if w.docId = invalidRowID then 0 else w.docId + 1

/-- What holds between two calls of `Next`: the movement at its begin leads to the head of the
loop. -/
structure Ready (postings : List BlockPosting) (T f : ℕ) (w : Wand) : Prop where
  head : Head postings T f w.upperBound (w.start w.target).iterators
  threshold : w.threshold = T

theorem start_upperBound : (w.start d).upperBound = w.upperBound := by
  unfold start
  split <;> rfl

theorem start_threshold : (w.start d).threshold = w.threshold := by
  unfold start
  split <;> rfl

theorem Ready.next (hlocated : Located postings) (σ : Sorting) (h : Ready postings T f w) :
    ∃ r, w.next σ w.target = some r ∧ NextOk postings T f r := by
  refine nextLoop_spec hlocated σ ?_ ((start_threshold).trans h.threshold) (lt_add_one _)
  rw [start_upperBound]
  exact h.head

theorem score_le_reach (l : BlockPosting) (x : ℕ) :
    l.score x ≤ reach ((TermIterator.create l).next 0) x := by
  have hmoves := next_spec (ok_create l) BlockPosting.locates_zero nofun (Nat.zero_le _)
  refine le_of_pos_imp fun hpos => ?_
  obtain ⟨b, hb, e, he, rfl, hscore⟩ := exists_entry_of_scoreIn_pos hpos
  have hmax : 0 < b.blockMax := lt_of_lt_of_le (hscore ▸ hpos) (b.bound e he)
  obtain ⟨hb', hle⟩ := hmoves.keeps b hb e he (Nat.zero_le _) hmax
  rw [reach_of_mem hmoves.ok hb' he hle]
  exact hscore.ge

theorem ready_create : Ready postings 0 0 (create postings) := by
  refine ⟨?_, rfl⟩
  have hstart : ((create postings).start (create postings).target).iterators =
      postings.map fun l => (TermIterator.create l).next 0 := by
    exact map_map
  have hmoves :
      ∀ l : BlockPosting, (TermIterator.create l).Moves 0 ((TermIterator.create l).next 0) :=
      fun l =>
    next_spec (ok_create l) BlockPosting.locates_zero nofun (Nat.zero_le _)
  have hbounds : sumBounds (postings.map fun l => (TermIterator.create l).next 0) =
      (create postings).upperBound := by
    unfold sumBounds create
    dsimp only
    rw [sumBounds, map_map, map_map]
    exact congrArg List.sum (map_congr_left fun l _ =>
      congrArg BlockPosting.upperBound (hmoves l).posting)
  rw [hstart]
  refine ⟨⟨?_, ?_, ?_, ?_, fun x => ?_, fun x _ => ?_, hbounds.le, ?_⟩, fun _ _ => Nat.zero_le _, 0,
    ?_, ?_⟩
  · exact forall_mem_map.mpr fun l hl => (hmoves l).posting ▸ hl
  · exact forall_mem_map.mpr fun l _ => (hmoves l).ok
  · exact forall_mem_map.mpr fun l _ => (hmoves l).threshold ▸ Nat.zero_le _
  · exact forall_mem_map.mpr fun l _ => .inl (hmoves l).threshold
  · rw [map_map]
    refine (congrArg List.sum (map_congr_left fun l _ => ?_)).le
    exact congrArg (BlockPosting.score · x) (hmoves l).posting
  · rw [sumReach, map_map]
    exact sum_le_sum fun l _ => score_le_reach l x
  · exact forall_mem_map.mpr fun l _ => (hmoves l).le_top
  · refine forall_mem_map.mpr fun l _ => ?_
    rcases (hmoves l).stands with hinvalid | hstands
    · exact .inl hinvalid
    · exact .inr (.inl hstands)
  · exact (lowSum_eq_zero fun it _ => Nat.zero_le it.docId).le

/-! ## From one document to the next -/

/-- The next call moves the iterators that stand on the document. -/
theorem ready_of_core (hnear : Near postings (w.docId + 1)) (hits : w.iterators = before ++ after)
    (hpivot : w.pivot + 1 = before.length)
    (hcore : Core postings T (w.docId + 1) w.upperBound (before ++ after))
    (hat : ∀ it ∈ before, it.docId = w.docId)
    (hbehind : ∀ it ∈ after, w.docId < it.docId) (hstands : ∀ it ∈ after, it.Stands)
    (hvalid : w.docId < invalidRowID) (hT : w.threshold = T) :
    Ready postings T (w.docId + 1) w := by
  refine ⟨?_, hT⟩
  have hstart : (w.start w.target).iterators = nextWhileBefore (w.docId + 1) before ++ after := by
    unfold start target
    rw [if_neg (hvalid.ne), if_neg (hvalid.ne), hits, hpivot]
    rw [take_left, drop_left]
  have hsorted : before.Pairwise fun it it' => it.docId ≤ it'.docId :=
    pairwise_of_forall_mem_list fun it hit it' hit' => by rw [hat it hit, hat it' hit']
  obtain ⟨hsteps, harrived⟩ := nextWhileBefore_spec hcore (fun it hit => mem_append_left _ hit)
    (fun x hx => hx.1) hnear hvalid hsorted fun it hit hle => absurd (hat it hit) (by omega)
  rw [hstart]
  rw [← nil_append before] at hcore
  exact head_of_arrived (hcore.replace (hsteps.imp fun _ _ h => h.1)) harrived le_rfl fun it hit =>
    ⟨hstands it hit, hbehind it hit⟩

/-- A later start and a higher threshold leave fewer candidates. -/
theorem core_later {f' : ℕ} (h : Core postings T f UB its) (hT : T ≤ T') (hf : f ≤ f') :
    Core postings T' f' UB its where
  mem := h.mem
  ok := h.ok
  bounded := h.bounded
  child it hit := by
    rcases h.child it hit with hzero | hchild
    · exact .inl hzero
    · exact .inr (by omega)
  some_of := h.some_of
  safe x hx := h.safe x ⟨hf.trans hx.1, hT.trans_lt hx.2⟩
  bound := h.bound
  le_top := h.le_top

/-- Raising the thresholds of the children keeps the invariant. -/
theorem core_updateScoreThreshold (h : Core postings T f UB its) (hT : T ≤ UB) :
    Core postings T f UB (its.map fun it => it.updateScoreThreshold (T + it.upperBound - UB)) := by
  have hbounds : sumBounds (its.map fun it => it.updateScoreThreshold (T + it.upperBound - UB)) =
      sumBounds its := by
    unfold sumBounds
    rw [map_map]
    rfl
  refine ⟨forall_mem_map.mpr h.mem, forall_mem_map.mpr fun it hit =>
    ⟨(h.ok it hit).iter, (h.ok it hit).read⟩,
    forall_mem_map.mpr fun it hit => ?_, forall_mem_map.mpr fun it hit => ?_, fun x =>
      ?_, fun x hx => ?_, ?_, forall_mem_map.mpr h.le_top⟩
  · have := h.bounded it hit
    show max it.threshold (T + it.upperBound - UB) ≤ it.upperBound
    omega
  · have hbound := h.bound
    rw [hbounds]
    show max it.threshold (T + it.upperBound - UB) = 0 ∨
      max it.threshold (T + it.upperBound - UB) + sumBounds its ≤ T + it.upperBound
    rcases h.child it hit with hzero | hchild <;> omega
  · rw [map_map]
    exact h.some_of x
  · rw [sumReach, map_map]
    exact h.safe x hx
  · rw [hbounds]
    exact h.bound

section

variable (h : Found postings T f w before after)
include h

theorem Found.near (hlocated : Located postings) : Near postings (w.docId + 1) := by
  have hpivot := h.pivot
  obtain ⟨it, hit⟩ := exists_mem_of_length_pos (show 0 < before.length by omega)
  have hmem := mem_append_left after hit
  exact h.at_doc it hit ▸ (h.core.near_docId hlocated hmem (h.stands it hmem)).2

theorem Found.lt_top : w.docId < invalidRowID :=
  lt_of_totalScore_pos ((Nat.zero_le _).trans_lt (h.score ▸ h.above))

/-- **A threshold that is raised at most to the score of the document keeps the search safe.** -/
theorem Found.ready_update (hlocated : Located postings) (hT : T ≤ T') (hscore : T' ≤ w.score)
    (hthreshold : w.threshold = T) :
    Ready postings T' (w.docId + 1) (w.updateScoreThreshold T') := by
  have hcore := core_later h.core hT (Nat.le_succ_of_le h.from_le)
  have hle : T' ≤ sumBounds before := hscore.trans h.score_le
  have hbound := hcore.bound
  rw [sumBounds_append] at hbound
  have hupdated := core_updateScoreThreshold hcore (by omega)
  -- the thresholds of the iterators behind the pivot stay as they are
  have hafter : after.map (fun it => it.updateScoreThreshold (T' + it.upperBound - w.upperBound)) =
      after := by
    refine (map_congr_left fun it hit => ?_).trans (map_id after)
    have hub : it.upperBound ≤ sumBounds after :=
      single_le_sum (fun _ _ => Nat.zero_le _) _ (mem_map_of_mem hit)
    have hzero : T' + it.upperBound - w.upperBound = 0 := by omega
    rw [hzero]
    exact congrArg (fun t => { it with threshold := t }) (Nat.max_zero it.threshold)
  rw [map_append, hafter] at hupdated
  refine ready_of_core (w := w.updateScoreThreshold T') (h.near hlocated) ?_ ?_ hupdated ?_ h.behind
    (fun it hit => h.stands it (mem_append_right _ hit)) h.lt_top ?_
  · show w.iterators.map _ = _
    rw [h.iterators, map_append, hafter]
  · rw [length_map]
    exact h.pivot
  · exact forall_mem_map.mpr h.at_doc
  · show max w.threshold T' = T'
    omega

theorem Found.ready (hlocated : Located postings) (hthreshold : w.threshold = T) :
    Ready postings T (w.docId + 1) w :=
  ready_of_core (h.near hlocated) h.iterators h.pivot
    (core_later h.core (le_refl T) (Nat.le_succ_of_le h.from_le)) h.at_doc h.behind
    (fun it hit => h.stands it (mem_append_right _ hit)) h.lt_top hthreshold

end

end Wand

/-! ## The search -/

section Search

variable {postings : List BlockPosting} {f : ℕ} {heap : ScoreResultHeap}

/-- The documents before `f` with their scores. -/
def ResultBefore (postings : List BlockPosting) (f : ℕ) (r : ℕ × ℕ) : Prop :=
  r.2 < f ∧ 0 < r.1 ∧ r.1 = totalScore postings r.2

/-- Documents that are no candidates for the threshold of the heap can be passed. -/
theorem bestOf_later (hvalid : heap.Valid)
    (h : BestOf resultKey heap.topK (ResultBefore postings f) heap.toList) {f' : ℕ} (hf : f ≤ f')
    (hnone : ∀ x, x < f' → ¬ Candidate postings heap.getScoreThreshold f x) :
    BestOf resultKey heap.topK (ResultBefore postings f') heap.toList := by
  refine h.skip (fun r hr => ⟨hr.1.trans_le hf, hr.2⟩) ?_
  rintro ⟨score, x⟩ ⟨hx, hpos, htotal⟩ hnew
  have hle : f ≤ x := by
    by_contra hlt
    exact hnew ⟨not_le.mp hlt, hpos, htotal⟩
  dsimp only at hx hpos htotal
  have hlow : totalScore postings x ≤ heap.getScoreThreshold := by
    by_contra habove
    exact hnone x hx ⟨hle, not_le.mp habove⟩
  rcases heap.getScoreThreshold_spec hvalid with ⟨-, hzero⟩ | ⟨hlength, hleast, -⟩
  · omega
  · refine ⟨hlength, fun r hr => (less_iff _ _).mp ?_⟩
    have hscore := hleast r hr
    have hid := (h.mem r hr).1
    unfold less
    omega

/-- **The search holds the best results of all documents.** -/
theorem executeFTSearch_spec (hlocated : Located postings) (σ : Sorting) {fuel : ℕ} {w : Wand}
    (hready : w.Ready postings heap.getScoreThreshold f) (hvalid : heap.Valid)
    (hbest : BestOf resultKey heap.topK (ResultBefore postings f) heap.toList)
    (hf : f ≤ invalidRowID) (hfuel : invalidRowID < fuel + f) :
      ∃ heap', executeFTSearch σ fuel w heap = some heap' ∧ heap'.Valid ∧
      BestOf resultKey heap.topK (ResultBefore postings invalidRowID) heap'.toList := by
  induction fuel generalizing f w heap with
  | zero => omega
  | succ fuel ih =>
    obtain ⟨⟨w', found⟩, hnext, hok⟩ := hready.next hlocated σ
    rw [Wand.target] at hnext
    rw [executeFTSearch, hnext]
    cases found with
    | false =>
      refine ⟨heap, rfl, hvalid, bestOf_later hvalid hbest hf fun x _ => ?_⟩
      exact hok x
    | true =>
      obtain ⟨hthreshold, before, after, hfound⟩ := hok
      have hd := hfound.lt_top
      have hfrom : f ≤ w'.docId := hfound.from_le
      have hlater := bestOf_later hvalid hbest hfrom fun x hx hcand =>
        absurd (hfound.first x hcand) (not_le.mpr hx)
      have hadded := heap.addResult_bestOf hvalid hlater
        fun h : ResultBefore postings w'.docId (w'.score, w'.docId) => lt_irrefl _ h.1
      have hresults : (fun r => ResultBefore postings w'.docId r ∨ r = (w'.score, w'.docId)) =
          ResultBefore postings (w'.docId + 1) := by
        funext r
        refine propext ⟨?_, fun ⟨hlt, hpos, htotal⟩ => ?_⟩
        · rintro (⟨hlt, hrest⟩ | rfl)
          · exact ⟨Nat.lt_succ_of_lt hlt, hrest⟩
          · exact ⟨lt_add_one _, (Nat.zero_le _).trans_lt hfound.above, hfound.score⟩
        · rcases lt_or_eq_of_le (Nat.le_of_lt_succ hlt) with hlt | heq
          · exact .inl ⟨hlt, hpos, htotal⟩
          · exact .inr (Prod.ext (htotal.trans (heq ▸ hfound.score.symm)) heq)
      rw [hresults, ← heap.topK_addResult w'.score w'.docId] at hadded
      obtain ⟨hlower, hupper⟩ :
          heap.getScoreThreshold ≤ (heap.addResult w'.score w'.docId).1.getScoreThreshold ∧
          (heap.addResult w'.score w'.docId).1.getScoreThreshold ≤ w'.score :=
          heap.threshold_addResult hvalid hfound.above
      have hflag : (heap.addResult w'.score w'.docId).2 = false →
          (heap.addResult w'.score w'.docId).1.getScoreThreshold = heap.getScoreThreshold :=
          heap.getScoreThreshold_addResult
      have hvalid' := hvalid.addResult w'.score w'.docId
      rw [← heap.topK_addResult w'.score w'.docId]
      dsimp only
      generalize heap.addResult w'.score w'.docId = r at *
      obtain ⟨heap', updated⟩ := r
      refine ih ?_ hvalid' hadded hd (by omega)
      dsimp only at hlower hupper hflag ⊢
      split
      next hupdate => exact hfound.ready_update hlocated hlower hupper hthreshold
      next hkeep =>
        have hsame : heap'.getScoreThreshold = heap.getScoreThreshold := by
          cases updated with
          | false => exact hflag rfl
          | true =>
            have : ¬ 0 < heap'.getScoreThreshold := fun hpos => hkeep ⟨rfl, hpos⟩
            omega
        rw [hsame]
        exact hfound.ready hlocated hthreshold

theorem mem_unionDocs {x : ℕ} (h : 0 < totalScore postings x) : x ∈ unionDocs postings := by
  obtain ⟨l, hl, hpos⟩ := exists_score_pos h
  obtain ⟨b, hb, e, he, rfl, -⟩ := exists_entry_of_scoreIn_pos hpos
  rw [unionDocs, mem_dedup]
  exact mem_flatMap.mpr ⟨l, hl, mem_map_of_mem (mem_flatMap.mpr ⟨b, hb, he⟩)⟩

theorem mem_ranking {r : ℕ × ℕ} : r ∈ ranking postings ↔ ResultBefore postings invalidRowID r := by
  rw [ranking, mem_insertionSort, mem_filter, mem_map, decide_eq_true_eq]
  constructor
  · rintro ⟨⟨x, -, rfl⟩, hpos⟩
    exact ⟨lt_of_totalScore_pos hpos, hpos, rfl⟩
  · rintro ⟨-, hpos, htotal⟩
    exact ⟨⟨r.2, mem_unionDocs (htotal ▸ hpos), Prod.ext htotal.symm rfl⟩, hpos⟩

theorem ranking_descending :
    (ranking postings).Pairwise fun a b => resultKey b < resultKey a := by
  have hnodup : (ranking postings).Nodup := by
    refine (perm_insertionSort _ _).nodup_iff.mpr ((Nodup.map ?_ (nodup_dedup _)).filter _)
    exact fun a b hab => congrArg Prod.snd hab
  have hsorted : (ranking postings).Pairwise fun a b => resultKey b ≤ resultKey a :=
    pairwise_insertionSort _ _
  exact (hsorted.and hnodup).imp fun hab => lt_of_le_of_ne hab.1 fun heq =>
    hab.2 (resultKey_injective heq).symm

/-- Stable sorting. -/
def stableSorting : Sorting where
  byDoc := insertionSort fun it it' => it.docId ≤ it'.docId
  byDoc_perm := perm_insertionSort _
  byDoc_sorted its := pairwise_insertionSort _ its
  byBlock := insertionSort fun it it' => it.iter.blockLast ≤ it'.iter.blockLast
  byBlock_perm := perm_insertionSort _
  byBlock_least its it rest h it' hit := by
    have hsorted :=
      pairwise_insertionSort (fun it it' : TermIterator => it.iter.blockLast ≤ it'.iter.blockLast)
        its
    rw [h] at hsorted
    exact rel_of_pairwise_cons hsorted hit

/-- A block of `n` consecutive documents from row `base + first` on, each with the score 1. -/
def rangeBlock (base first n : ℕ) (hn : 0 < n) (hsegment : first + n < 2 ^ 32)
    (hbase : base % 2 ^ 32 = 0) : Block where
  base := base
  entries := (range' (base + first) n).map fun x => (x, 1)
  blockMax := 1
  nonempty := by
    simp
    omega
  ascending := pairwise_map.mpr pairwise_lt_range'
  bound := forall_mem_map.mpr fun _ _ => le_rfl
  base_le := forall_mem_map.mpr fun x hx => by
    obtain ⟨hle, -⟩ := mem_range'_1.mp hx
    omega
  in_segment := forall_mem_map.mpr fun x hx => by
    obtain ⟨-, hlt⟩ := mem_range'_1.mp hx
    omega

/-- A term of the rows 0, 1 and 2 of the first two segments. -/
def earlyRows : BlockPosting where
  blocks := [rangeBlock 0 0 3 (by decide) (by decide) rfl,
    rangeBlock (2 ^ 32) 0 3 (by decide) (by decide) rfl]
  upperBound := 1
  ascending := by
    unfold Ascending
    decide +kernel
  bound := by decide +kernel
  valid := by decide +kernel
  chunks := by decide +kernel

/-- A term of the rows 2 and 3 of the first two segments. -/
def laterRows : BlockPosting where
  blocks := [rangeBlock 0 2 2 (by decide) (by decide) rfl,
    rangeBlock (2 ^ 32) 2 2 (by decide) (by decide) rfl]
  upperBound := 1
  ascending := by
    unfold Ascending
    decide +kernel
  bound := by decide +kernel
  valid := by decide +kernel
  chunks := by decide +kernel

/-- A term of the first 300 rows of the first segment, in blocks of 128. -/
def firstRows : BlockPosting where
  blocks := [rangeBlock 0 0 128 (by decide) (by decide) rfl,
    rangeBlock 0 128 128 (by decide) (by decide) rfl,
    rangeBlock 0 256 44 (by decide) (by decide) rfl]
  upperBound := 1
  ascending := by
    unfold Ascending
    decide +kernel
  bound := by decide +kernel
  valid := by decide +kernel
  chunks := by decide +kernel

/-- A term of row 5 of the second segment. -/
def nextSegment : BlockPosting where
  blocks := [rangeBlock (2 ^ 32) 5 1 (by decide) (by decide) rfl]
  upperBound := 1
  ascending := by
    unfold Ascending
    decide +kernel
  bound := by decide +kernel
  valid := by decide +kernel
  chunks := by decide +kernel

end Search

end Infinity.Search
