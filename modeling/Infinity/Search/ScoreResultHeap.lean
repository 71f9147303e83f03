import Infinity.Foundations.BestOf
import Infinity.Foundations.BinaryHeap

/-! # The heap of the best results

`FullTextScoreResultHeap` keeps the best `top_k_` results of a full-text search: those with the
highest scores, and with the smaller row id among equal scores. The worst result is at the root once
the heap is full. Scores are natural numbers here.

* `ScoreResultHeap.heapifyDown_eq`: `HeapifyDown` moves a hole where `siftDown` exchanges
elements. -/

namespace Infinity.Search

open Foundations List Function

/-- A score with a row id, in the order of `HeapCompare`. -/
def resultKey (result : ℕ × ℕ) : ℕ ×ₗ ℕᵒᵈ := toLex (result.1, OrderDual.toDual result.2)

theorem resultKey_injective : Function.Injective resultKey := fun a b h => by
  have := congrArg ofLex h
  exact Prod.ext (congrArg Prod.fst this) (congrArg Prod.snd this)

/-- `HeapCompare::Less`. -/
def less (a b : ℕ × ℕ) : Prop := a.1 < b.1 ∨ a.1 = b.1 ∧ b.2 < a.2

theorem less_iff (a b : ℕ × ℕ) : less a b ↔ resultKey a < resultKey b := by
  unfold less resultKey
  rw [Prod.Lex.toLex_lt_toLex]
  rfl

instance : DecidableRel less := fun _ _ => inferInstanceAs (Decidable (_ ∨ _))

/-- `FullTextScoreResultHeap` with `score_` and `id_` in one array, from position 1 on. -/
structure ScoreResultHeap where
  /-- `score_` and `id_`. -/
  results : ℕ → ℕ × ℕ
  topK : ℕ
  size : ℕ

namespace ScoreResultHeap

variable {score id : ℕ}

/-- The loop of `HeapifyDown`: the hole at `index` is filled from the smaller child, as long as that
is less than the element `tmp` that was taken out. -/
def fillHole (size : ℕ) : ℕ → (ℕ → ℕ × ℕ) → ℕ → ℕ × ℕ → (ℕ → ℕ × ℕ)
  | 0, results, index, tmp => update results index tmp
  | fuel + 1, results, index, tmp =>
    if 2 * index ≤ size then
      let sub := if 2 * index + 1 ≤ size ∧
        less (results (2 * index + 1)) (results (2 * index)) then 2 * index + 1 else 2 * index
      if less (results sub) tmp then fillHole size fuel (update results index (results sub)) sub tmp
      else update results index tmp
    else update results index tmp

/-- `HeapifyDown`. -/
def heapifyDown (size : ℕ) (results : ℕ → ℕ × ℕ) (index : ℕ) : ℕ → ℕ × ℕ :=
  if index = 0 ∨ size < 2 * index then results else fillHole size size results index (results index)

/-- The loop that calls `HeapifyDown` for the positions `index` down to 1. -/
def heapifyFrom (size : ℕ) : ℕ → (ℕ → ℕ × ℕ) → (ℕ → ℕ × ℕ)
  | 0, results => results
  | index + 1, results => heapifyFrom size index (heapifyDown size results (index + 1))

def create (topK : ℕ) : ScoreResultHeap := ⟨fun _ => (0, 0), topK, 0⟩

/-- `GetScoreThreshold`. -/
def getScoreThreshold (h : ScoreResultHeap) : ℕ := if h.size < h.topK then 0 else (h.results 1).1

/-- `AddResult`: the heap and whether the threshold is updated. -/
def addResult (h : ScoreResultHeap) (score id : ℕ) : ScoreResultHeap × Bool :=
  if h.size < h.topK then
    let results := update h.results (h.size + 1) (score, id)
    if h.size + 1 = h.topK then
      ({ h with
        results := heapifyFrom (h.size + 1) ((h.size + 1) / 2) results, size := h.size + 1 }, true)
    else ({ h with results := results, size := h.size + 1 }, false)
  else if less (h.results 1) (score, id) then
    ({ h with results := heapifyDown h.size (update h.results 1 (score, id)) 1 }, true)
  else (h, false)

/-- The loop of `Sort`. -/
def sortLoop : ℕ → (ℕ → ℕ × ℕ) → (ℕ → ℕ × ℕ)
  | 0, results => results
  | size + 1, results =>
    if size = 0 then results else sortLoop size
      (heapifyDown size (results ∘ Equiv.swap (size + 1) 1) 1)

/-- `Sort`. The scores behind the results are not read. -/
def sort (h : ScoreResultHeap) : ScoreResultHeap := { h with
    results := sortLoop h.size (if h.size < h.topK then heapifyFrom h.size (h.size / 2) h.results
      else h.results) }

def toList (h : ScoreResultHeap) : List (ℕ × ℕ) := elements h.size h.results

/-! ## Sifting down -/

variable {size : ℕ} {results : ℕ → ℕ × ℕ} {index : ℕ}

/-- The child that is chosen first and then compared is the least of the element and its
children. -/
theorem leastChild_eq (hsize : 2 * index ≤ size) : leastChild resultKey size results index =
      let sub := if 2 * index + 1 ≤ size ∧
  less (results (2 * index + 1)) (results (2 * index)) then 2 * index + 1
        else 2 * index
      if less (results sub) (results index) then sub else index := by
  unfold leastChild
  simp only [less_iff, hsize, true_and]
  by_cases hright : 2 * index + 1 ≤ size ∧ resultKey (results (2 * index + 1)) <
  resultKey (results (2 * index))
  · rw [if_pos hright]
    by_cases hsub : resultKey (results (2 * index + 1)) < resultKey (results index)
    · split
      · rfl
      · rw [if_pos ⟨hright.1, hsub⟩]
    · rw [if_neg hsub]
      have hleft : ¬ resultKey (results (2 * index)) < resultKey (results index) :=
        fun h => hsub (hright.2.trans h)
      rw [if_neg hleft, if_neg fun h => hsub h.2]
  · rw [if_neg hright]
    by_cases hleft : resultKey (results (2 * index)) < resultKey (results index)
    · rw [if_pos hleft, if_neg hright]
    · rw [if_neg hleft, if_neg fun h => ?_]
      exact hright ⟨h.1, h.2.trans_le (not_lt.mp hleft)⟩

theorem fillHole_eq (fuel : ℕ) (tmp : ℕ × ℕ) (hindex : 0 < index) :
    fillHole size fuel results index tmp = siftDown resultKey size fuel (update results index tmp)
    index := by
  induction fuel generalizing results index with
  | zero => rfl
  | succ fuel ih =>
    have hat : update results index tmp index = tmp := update_self _ _ _
    have hother : ∀ k, k ≠ index → update results index tmp k = results k := fun k hk =>
      update_of_ne hk _ _
    unfold fillHole siftDown
    by_cases hsize : 2 * index ≤ size
    · rw [if_pos hsize]
      simp only [leastChild_eq hsize, hat, hother (2 * index) (by omega),
        hother (2 * index + 1) (by omega)]
      generalize hsub :
        (if 2 * index + 1 ≤ size ∧ less (results (2 * index + 1)) (results (2 * index)) then 2 *
        index + 1 else 2 * index) = sub
      have hbelow : index < sub := by
        rw [← hsub]
        split <;> omega
      have hne : sub ≠ index := hbelow.ne'
      rw [hother sub hne]
      by_cases hless : less (results sub) tmp
      · rw [if_pos hless, if_pos hless, if_pos hne, ih (by omega)]
        -- moving the child up and the element to the child is an exchange
        congr 1
        funext k
        simp only [comp_apply, update_apply, Equiv.swap_apply_def]
        split_ifs <;> simp_all
      · rw [if_neg hless, if_neg hless, if_neg (not_not.mpr rfl)]
    · rw [if_neg hsize, if_neg]
      rw [not_not]
      rcases (leastChild_spec resultKey size).1 with heq | ⟨hm, hmn, -⟩
      · exact heq
      · omega

/-- **`HeapifyDown` sifts an element down.** -/
theorem heapifyDown_eq (hindex : 0 < index) :
    heapifyDown size results index = siftDown resultKey size size results index := by
  unfold heapifyDown
  split
  next h =>
    cases size with
    | zero => rfl
    | succ size =>
      unfold siftDown
      rw [if_neg]
      rw [not_not]
      rcases (leastChild_spec resultKey (size + 1)).1 with heq | ⟨hm, hmn, -⟩
      · exact heq
      · omega
  next h => rw [fillHole_eq _ _ hindex, update_eq_self]

theorem heapifyFrom_eq : heapifyFrom size index results = heapify resultKey size index results := by
  induction index generalizing results with
  | zero => rfl
  | succ index ih => rw [heapifyFrom, heapify, ih, heapifyDown_eq (Nat.succ_pos index)]

theorem sortLoop_eq {results : ℕ → ℕ × ℕ} :
    sortLoop size results = heapSort resultKey size results := by
  induction size generalizing results with
  | zero => rfl
  | succ size ih => rw [sortLoop, heapSort, ih, heapifyDown_eq (Nat.succ_pos 0)]

/-! ## The results that are held -/

variable {h : ScoreResultHeap} {P : ℕ × ℕ → Prop}

/-- What holds of a heap. -/
structure Valid (h : ScoreResultHeap) : Prop where
  topK_pos : 0 < h.topK
  size_le : h.size ≤ h.topK
  heap : h.size = h.topK → HeapFrom resultKey h.size h.results 1

theorem valid_create {topK : ℕ} (h : 0 < topK) : (create topK).Valid :=
  ⟨h, Nat.zero_le _, fun heq => absurd heq (h.ne)⟩

theorem length_toList : h.toList.length = h.size := by
  unfold toList elements
  rw [length_map, length_range]

/-- The results of a heap begin with the root. -/
theorem toList_eq_cons (hsize : 0 < h.size) :
    h.toList = h.results 1 :: (List.range (h.size - 1)).map fun i => h.results (i + 2) := by
  unfold toList elements
  obtain ⟨n, hn⟩ := Nat.exists_eq_add_of_le' hsize
  rw [hn, range_succ_eq_map, map_cons, map_map]
  rfl

theorem toList_addResult_of_lt (hsize : h.size < h.topK) :
    (h.addResult score id).1.toList.Perm ((score, id) :: h.toList) := by
  have hput : (elements (h.size + 1) (update h.results (h.size + 1) (score, id))).Perm
      ((score, id) :: h.toList) := by
    have hsame : elements h.size (update h.results (h.size + 1) (score, id)) = h.toList :=
      elements_congr fun k _ hk => update_of_ne (by omega) _ _
    rw [elements_succ, update_self, hsame]
    exact perm_append_comm
  unfold addResult toList
  rw [if_pos hsize]
  split
  · refine Perm.trans ?_ hput
    dsimp only
    rw [heapifyFrom_eq]
    exact (rearranged_heapify (by omega)).perm
  · exact hput

theorem toList_addResult_of_less (hsize : ¬ h.size < h.topK) (hpos : 0 < h.size)
    (hless : less (h.results 1) (score, id)) :
    (h.addResult score id).1.toList.Perm ((score, id) :: (List.range (h.size - 1)).map fun i =>
    h.results (i + 2)) := by
  unfold addResult
  rw [if_neg hsize, if_pos hless]
  have hput : (ScoreResultHeap.mk (update h.results 1 (score, id)) h.topK h.size).toList =
      (score, id) :: (List.range (h.size - 1)).map fun i => h.results (i + 2) := by
    rw [toList_eq_cons (h := ⟨update h.results 1 (score, id), h.topK, h.size⟩) hpos]
    dsimp only
    refine congrArg _ (map_congr_left fun i _ => ?_)
    exact update_of_ne (by omega) _ _
  rw [← hput]
  rw [heapifyDown_eq (Nat.succ_pos 0)]
  exact (rearranged_siftDown (Nat.succ_pos 0) hpos).perm

theorem Valid.addResult (hvalid : h.Valid) (score id : ℕ) : (h.addResult score id).1.Valid := by
  have hle := hvalid.size_le
  unfold ScoreResultHeap.addResult
  split
  next hsize =>
    split
    next hfull =>
      refine ⟨hvalid.topK_pos, hfull.le, fun _ => ?_⟩
      dsimp only
      rw [heapifyFrom_eq]
      exact .heapify heapFrom_leaves
    next hroom => exact ⟨hvalid.topK_pos, hsize, fun heq => absurd heq hroom⟩
  next hsize =>
    split
    next hless =>
      refine ⟨hvalid.topK_pos, hle, fun hfull => ?_⟩
      dsimp only
      rw [heapifyDown_eq (Nat.succ_pos 0)]
      -- below the root the order is the old one
      refine .siftDown (by omega) (Nat.succ_pos 0) fun j hj hjn => ?_
      rw [update_of_ne (by omega), update_of_ne (by omega)]
      exact hvalid.heap hfull j (by omega) hjn
    next hless => exact hvalid

/-- **The heap holds the best of the results added so far.** -/
theorem addResult_bestOf (hvalid : h.Valid) (hbest : BestOf resultKey h.topK P h.toList)
    (hnew : ¬ P (score, id)) :
    BestOf resultKey h.topK (fun r => P r ∨ r = (score, id)) (h.addResult score id).1.toList := by
  by_cases hsize : h.size < h.topK
  · refine (hbest.push ?_ hnew).perm (toList_addResult_of_lt hsize).symm
    rw [length_toList]
    exact hsize
  · have hfull : h.size = h.topK := hvalid.size_le.antisymm (not_lt.mp hsize)
    have hpos : 0 < h.size := hfull ▸ hvalid.topK_pos
    have hroot : ∀ r ∈ h.toList, resultKey (h.results 1) ≤ resultKey r := fun r hr => by
      obtain ⟨k, hk, hkn, rfl⟩ := mem_elements.mp hr
      exact (hvalid.heap hfull).root_le hk hkn
    have hlen : h.toList.length = h.topK := (length_toList).trans hfull
    by_cases hless : less (h.results 1) (score, id)
    · refine .perm ?_ (toList_addResult_of_less hsize hpos hless).symm
      rw [toList_eq_cons hpos] at hbest hroot hlen
      exact hbest.replace resultKey_injective hlen (fun r hr => hroot r (mem_cons_of_mem _ hr))
        ((less_iff _ _).mp hless) hnew
    · -- the result is worse than all that are held
      have hbelow : resultKey (score, id) < resultKey (h.results 1) := by
        refine lt_of_le_of_ne (not_lt.mp fun hlt => hless ((less_iff _ _).mpr hlt)) fun heq =>
          hnew ?_
        rw [resultKey_injective heq]
        refine hbest.mem _ ?_
        rw [toList_eq_cons hpos]
        exact mem_cons_self
      have hsame : (h.addResult score id).1 = h := by
        unfold addResult
        rw [if_neg hsize, if_neg hless]
      rw [hsame]
      refine hbest.skip (fun r hr => .inl hr) fun r hr hnot => ⟨hlen, fun r' hr' => ?_⟩
      rw [hr.resolve_left hnot]
      exact hbelow.trans_le (hroot r' hr')

/-- **`Sort` puts the results in descending order.** -/
theorem sort_spec (hvalid : h.Valid) :
    h.sort.toList.Perm h.toList ∧ h.sort.toList.Pairwise fun a b => resultKey b ≤ resultKey a := by
  unfold sort toList
  rw [sortLoop_eq]
  split
  next hsize =>
    rw [heapifyFrom_eq]
    have hheap : HeapFrom resultKey h.size (heapify resultKey h.size (h.size / 2) h.results) 1 :=
      HeapFrom.heapify heapFrom_leaves
    obtain ⟨hperm, hsorted⟩ := heapSort_spec hheap
    exact ⟨hperm.trans (rearranged_heapify (by omega)).perm, hsorted⟩
  next hsize => exact heapSort_spec (hvalid.heap (hvalid.size_le.antisymm (not_lt.mp hsize)))

/-! ## The threshold -/

/-- The threshold is the least score that is held, once the heap is full. -/
theorem getScoreThreshold_spec (hvalid : h.Valid) :
      h.toList.length < h.topK ∧ h.getScoreThreshold = 0 ∨
      h.toList.length = h.topK ∧ (∀ r ∈ h.toList, h.getScoreThreshold ≤ r.1) ∧ ∃ r ∈ h.toList,
      r.1 = h.getScoreThreshold := by
  unfold getScoreThreshold
  rw [length_toList]
  split
  next hsize => exact .inl ⟨hsize, rfl⟩
  next hsize =>
    have hfull : h.size = h.topK := hvalid.size_le.antisymm (not_lt.mp hsize)
    refine .inr ⟨hfull, fun r hr => ?_, h.results 1, ?_, rfl⟩
    · obtain ⟨k, hk, hkn, rfl⟩ := mem_elements.mp hr
      have := not_lt.mpr ((hvalid.heap hfull).root_le hk hkn)
      rw [← less_iff] at this
      unfold less at this
      omega
    · exact mem_elements.mpr ⟨1, Nat.succ_pos 0, hfull ▸ hvalid.topK_pos, rfl⟩

theorem topK_addResult (h : ScoreResultHeap) (score id : ℕ) :
    (h.addResult score id).1.topK = h.topK := by
  unfold addResult
  split
  · split <;> rfl
  · split <;> rfl

/-- Without an update the threshold is the old one. -/
theorem getScoreThreshold_addResult (hflag : (h.addResult score id).2 = false) :
    (h.addResult score id).1.getScoreThreshold = h.getScoreThreshold := by
  unfold addResult at hflag ⊢
  split
  next hsize =>
    rw [if_pos hsize] at hflag
    split
    next hfull =>
      rw [if_pos hfull] at hflag
      exact Bool.noConfusion hflag
    next hroom =>
      unfold getScoreThreshold
      rw [if_pos hsize]
      exact if_pos (by dsimp only; omega)
  next hsize =>
    rw [if_neg hsize] at hflag
    split
    next hless =>
      rw [if_pos hless] at hflag
      exact Bool.noConfusion hflag
    · rfl

theorem mem_addResult (hvalid : h.Valid) {r : ℕ × ℕ} (hr : r ∈ (h.addResult score id).1.toList) :
    r = (score, id) ∨ r ∈ h.toList := by
  by_cases hsize : h.size < h.topK
  · exact mem_cons.mp ((toList_addResult_of_lt hsize).mem_iff.mp hr)
  · have hpos : 0 < h.size := hvalid.topK_pos.trans_le (not_lt.mp hsize)
    by_cases hless : less (h.results 1) (score, id)
    · rw [toList_eq_cons hpos]
      rcases mem_cons.mp ((toList_addResult_of_less hsize hpos hless).mem_iff.mp hr) with heq | hmem
      · exact .inl heq
      · exact .inr (mem_cons_of_mem _ hmem)
    · unfold addResult at hr
      rw [if_neg hsize, if_neg hless] at hr
      exact .inr hr

theorem length_le_addResult (h : ScoreResultHeap) (score id : ℕ) :
    h.toList.length ≤ (h.addResult score id).1.toList.length := by
  rw [length_toList, length_toList]
  unfold addResult
  split
  · split <;> exact Nat.le_succ _
  · split <;> exact le_rfl

/-- A result above the threshold is held. -/
theorem mem_addResult_self (hvalid : h.Valid) (habove : h.getScoreThreshold < score) :
    (score, id) ∈ (h.addResult score id).1.toList := by
  by_cases hsize : h.size < h.topK
  · exact (toList_addResult_of_lt hsize).mem_iff.mpr mem_cons_self
  · have hpos : 0 < h.size := hvalid.topK_pos.trans_le (not_lt.mp hsize)
    unfold getScoreThreshold at habove
    rw [if_neg hsize] at habove
    exact (toList_addResult_of_less hsize hpos (.inl habove)).mem_iff.mpr mem_cons_self

/-- **A result above the threshold raises the threshold at most to its score.** -/
theorem threshold_addResult (hvalid : h.Valid) (habove : h.getScoreThreshold < score) :
    h.getScoreThreshold ≤ (h.addResult score id).1.getScoreThreshold ∧
    (h.addResult score id).1.getScoreThreshold ≤ score := by
  have htopK := topK_addResult h score id
  have hlength := length_le_addResult h score id
  rcases getScoreThreshold_spec (hvalid.addResult score id) with ⟨hlen, hzero⟩ | ⟨-, hle, r, hr,
    hscore⟩
  · rcases getScoreThreshold_spec hvalid with ⟨-, hzero'⟩ | ⟨hlen', -⟩ <;> omega
  · refine ⟨?_, hle _ (mem_addResult_self hvalid habove)⟩
    rw [← hscore]
    rcases mem_addResult hvalid hr with rfl | hmem
    · exact habove.le
    · rcases getScoreThreshold_spec hvalid with ⟨-, hzero⟩ | ⟨-, hle', -⟩
      · exact hzero ▸ Nat.zero_le _
      · exact hle' r hmem

end ScoreResultHeap

end Infinity.Search
