import Infinity.Search.WandInvariant

/-! # The movements of a block-max WAND search

A turn of the loop of `Next` splits the sorted iterators at the pivot. The blocks of the iterators
up to the pivot are moved to the pivot's document. If the bounds of these blocks are low, the
iterators move over them: no candidate is in the documents that the blocks cover.

* `Wand.shallowTo_spec`: moving the blocks to the pivot's document.
* `Wand.lt_of_low_blocks`, `Wand.skipBlocks_spec`: moving over low blocks.
-/

namespace Infinity.Search

open Foundations List Option

/-- The sum of the bounds of the lists whose documents are before `d`. -/
def lowSum (d : ℕ) (its : List TermIterator) : ℕ :=
  ((its.filter (·.docId < d)).map TermIterator.upperBound).sum

section Sums

variable {d d' : ℕ} {its its' : List TermIterator}

theorem lowSum_append : lowSum d (its ++ its') = lowSum d its + lowSum d its' := by
  unfold lowSum
  rw [filter_append, map_append, sum_append]

theorem lowSum_le_sumBounds : lowSum d its ≤ sumBounds its := by
  refine ((filter_sublist.map _).sum_le_sum fun _ _ => Nat.zero_le _)

theorem lowSum_eq_zero (h : ∀ it ∈ its, d ≤ it.docId) : lowSum d its = 0 := by
  unfold lowSum
  rw [filter_eq_nil_iff.mpr fun it hit hlt =>
    absurd (of_decide_eq_true hlt) (not_lt.mpr (h it hit))]
  rfl

theorem lowSum_eq_sumBounds (h : ∀ it ∈ its, it.docId < d) : lowSum d its = sumBounds its := by
  unfold lowSum
  rw [filter_eq_self.mpr fun it hit => decide_eq_true (h it hit)]
  rfl

theorem lowSum_mono (h : d ≤ d') : lowSum d its ≤ lowSum d' its := by
  refine (Sublist.map _ (monotone_filter_right its fun it hit => ?_)).sum_le_sum fun _ _ =>
    Nat.zero_le _
  rw [decide_eq_true_eq] at hit ⊢
  omega

theorem lowSum_le_of_sublist (h : its.Sublist its') : lowSum d its ≤ lowSum d its' :=
  ((h.filter _).map _).sum_le_sum fun _ _ => Nat.zero_le _

theorem sumBounds_append : sumBounds (its ++ its') = sumBounds its + sumBounds its' := by
  unfold sumBounds
  rw [map_append, sum_append]

theorem distance_append :
    Wand.distance (its ++ its') = Wand.distance its + Wand.distance its' := by
  unfold Wand.distance
  rw [map_append, sum_append]

end Sums

namespace Wand

variable {postings : List BlockPosting} {T f UB d : ℕ} {its : List TermIterator}
  {it : TermIterator} {after its' rest : List TermIterator} {upTo target s p x sum : ℕ} {b : Block}
  {r : TermIterator × Bool} {σ : Sorting}

/-! ## The pivot -/

theorem findPivot_eq_some (h : findPivot T s its = some p) (hs : s ≤ T) :
    s + sumBounds (its.take p) ≤ T ∧ T < s + sumBounds (its.take (p + 1)) := by
  induction its generalizing s p with
  | nil => cases h
  | cons it its ih =>
    rw [findPivot] at h
    split at h
    next hlt =>
      cases h
      exact ⟨hs, by simpa [sumBounds] using hlt⟩
    next hle =>
      obtain ⟨p', hp', rfl⟩ := map_eq_some_iff.mp h
      have := ih hp' (not_lt.mp hle)
      simp only [take_succ_cons, sumBounds, map_cons, sum_cons] at this ⊢
      omega

theorem findPivot_eq_none (h : findPivot T s its = none) (hs : s ≤ T) : s + sumBounds its ≤ T := by
  induction its generalizing s with
  | nil => simpa [sumBounds] using hs
  | cons it its ih =>
    rw [findPivot] at h
    split at h
    · cases h
    next hle =>
      have := ih (map_eq_none_iff.mp h) (not_lt.mp hle)
      simp only [sumBounds, map_cons, sum_cons] at this ⊢
      omega

/-- The iterators up to the pivot and those behind it, when the documents are sorted. -/
structure Split (T d : ℕ) (its before after : List TermIterator) : Prop where
  append : its = before ++ after
  nonempty : before ≠ []
  le : ∀ it ∈ before, it.docId ≤ d
  lt : ∀ it ∈ after, d < it.docId
  sorted : before.Pairwise fun it it' => it.docId ≤ it'.docId
  sorted_after : after.Pairwise fun it it' => it.docId ≤ it'.docId
  mem : ∃ it ∈ before, it.docId = d
  low : lowSum d its ≤ T
  high : T < lowSum (d + 1) its

theorem split_of_findPivot (hsorted : its.Pairwise fun it it' => it.docId ≤ it'.docId)
    (hp : findPivot T 0 its = some p) (hdrop : its.drop p = it :: rest) :
    Split T it.docId its (its.take (p + (rest.takeWhile (·.docId = it.docId)).length + 1))
      (its.drop (p + (rest.takeWhile (·.docId = it.docId)).length + 1)) := by
  obtain ⟨hle, hlt⟩ := findPivot_eq_some hp (Nat.zero_le T)
  generalize hsame : rest.takeWhile (·.docId = it.docId) = same
  generalize hlater : rest.dropWhile (·.docId = it.docId) = later
  have hrest : rest = same ++ later := by rw [← hsame, ← hlater, takeWhile_append_dropWhile]
  have htake : its.take (p + same.length + 1) = its.take p ++ it :: same := by
    rw [add_assoc, take_add, hdrop, hrest]
    simp
  have hdrop' : its.drop (p + same.length + 1) = later := by
    rw [add_assoc, ← drop_drop, hdrop, hrest]
    simp
  have hnext : its.take (p + 1) = its.take p ++ [it] := by
    rw [take_add_one, ← head?_drop, hdrop]
    rfl
  have hits : its = its.take p ++ it :: same ++ later := by rw [← htake, ← hdrop', take_append_drop]
  rw [htake, hdrop']
  rw [hnext] at hlt
  generalize its.take p = earlier at *
  -- the documents before the pivot, at the pivot and behind it
  have hpairs := hsorted
  rw [hits, pairwise_append, pairwise_append] at hpairs
  obtain ⟨⟨hearlier, hat, hcross⟩, hlaterSorted, hcross'⟩ := hpairs
  have hsameDoc : ∀ it' ∈ it :: same, it'.docId = it.docId := by
    refine forall_mem_cons.mpr ⟨rfl, fun it' hit' => ?_⟩
    rw [← hsame] at hit'
    simpa using mem_takeWhile_imp hit'
  have hearlierDoc : ∀ it' ∈ earlier, it'.docId ≤ it.docId := fun it' hit' =>
    hcross it' hit' it mem_cons_self
  have hlaterDoc : ∀ it' ∈ later, it.docId < it'.docId := by
    cases later with
    | nil => exact nofun
    | cons first later =>
      have hne : first.docId ≠ it.docId := by
        have := head?_dropWhile_not (fun it' : TermIterator => decide (it'.docId = it.docId)) rest
        rw [hlater] at this
        simpa using this
      have hge := hcross' it (by simp) first mem_cons_self
      refine forall_mem_cons.mpr ⟨by omega, fun it' hit' => ?_⟩
      have := rel_of_pairwise_cons hlaterSorted hit'
      omega
  refine ⟨hits, by simp, fun it' hit' => ?_, hlaterDoc, pairwise_append.mpr ⟨hearlier, hat, hcross⟩,
    hlaterSorted, ⟨it, by simp, rfl⟩, ?_, ?_⟩
  · rcases mem_append.mp hit' with hit' | hit'
    · exact hearlierDoc it' hit'
    · exact (hsameDoc it' hit').le
  · rw [hits, lowSum_append, lowSum_append, lowSum_eq_zero fun it' hit' => (hsameDoc it' hit').ge,
      lowSum_eq_zero fun it' hit' => (hlaterDoc it' hit').le]
    have : lowSum it.docId earlier ≤ sumBounds earlier := lowSum_le_sumBounds
    omega
  · have hone : lowSum (it.docId + 1) [it] = sumBounds [it] :=
        lowSum_eq_sumBounds fun it' hit' => by
      rw [mem_singleton.mp hit']
      exact Nat.lt_succ_self _
    rw [hits, lowSum_append, lowSum_append, ← singleton_append, lowSum_append,
      lowSum_eq_sumBounds fun it' hit' => Nat.lt_succ_of_le (hearlierDoc it' hit'), hone]
    rw [sumBounds_append] at hlt
    omega

/-! ## Moving the blocks to the pivot -/

/-- An iterator of which only the block was moved; one that stood on `d` was not moved at all. -/
structure SameDoc (d : ℕ) (it it' : TermIterator) : Prop where
  posting : it'.posting = it.posting
  docId : it'.docId = it.docId
  stays : it.Stands → it.docId = d → it' = it

theorem SameDoc.refl (it : TermIterator) : SameDoc d it it := ⟨rfl, rfl, fun _ _ => rfl⟩

theorem lowSum_of_sameDoc (h : List.Forall₂ (SameDoc d) its its') (d' : ℕ) :
    lowSum d' its' = lowSum d' its := by
  induction h with
  | nil => rfl
  | @cons it it' its its' hsame _ ih =>
    have hone : lowSum d' [it'] = lowSum d' [it] := by
      unfold lowSum TermIterator.upperBound
      simp only [filter_cons, filter_nil, hsame.docId]
      split <;> simp [hsame.posting]
    rw [← singleton_append, lowSum_append, hone, ih, ← lowSum_append, singleton_append]

theorem distance_of_sameDoc (h : List.Forall₂ (SameDoc d) its its') :
    distance its' = distance its :=
  congrArg List.sum (map_eq_of_forall₂ h fun _ _ hsame => by rw [hsame.docId]).symm

/-- The current block of an iterator reaches to `d`. -/
def BlockAt (d : ℕ) (it : TermIterator) : Prop := ∃ b ∈ it.iter.current, d ≤ b.last

/-- What moving the blocks does: all blocks reach to `d` and their bounds are summed up, or an
iterator that reaches no candidate is left out. -/
theorem shallowTo_spec (hd : ∀ x, Candidate postings T f x → d ≤ x) (hnear : Near postings d)
    {before : List TermIterator}
    (h : Core postings T f UB (before ++ its ++ after)) :
    Core postings T f UB (before ++ (shallowTo d its).1 ++ after) ∧ match (shallowTo d its).2 with
      | some sum =>
          List.Forall₂ (SameDoc d) its (shallowTo d its).1 ∧
            (∀ it ∈ (shallowTo d its).1, BlockAt d it) ∧
          sum = ((shallowTo d its).1.map (·.iter.blockMax)).sum
      | none => distance (shallowTo d its).1 < distance its ∧
          ∃ left, left.Sublist its ∧ List.Forall₂ (SameDoc d) left (shallowTo d its).1 := by
  induction its generalizing before with
  | nil => exact ⟨h, List.Forall₂.nil, nofun, rfl⟩
  | cons it its ih =>
    have hit : it ∈ before ++ it :: its ++ after := by simp
    have h' : Core postings T f UB (before ++ [it] ++ (its ++ after)) := by simpa using h
    have hmoves := TermIterator.nextShallow_spec (h.ok it hit) (hnear _ (h.mem it hit))
    rw [shallowTo]
    generalize it.nextShallow d = r at hmoves
    obtain ⟨it', ok⟩ := r
    cases ok with
    | false =>
      refine ⟨?_, ?_, its, sublist_cons_self _ _, forall₂_same.mpr fun it _ => .refl it⟩
      · have hUB : sumBounds (before ++ (its ++ after)) ≤ UB := by
          have hbound := h'.bound
          rw [sumBounds_append, sumBounds_append] at hbound
          rw [sumBounds_append]
          omega
        rw [append_assoc]
        refine h'.remove (fun it'' hit'' x hx => ?_) hUB
        rw [mem_singleton.mp hit'']
        exact h.reach_eq_zero hit hd hmoves rfl hx
      · have hpos : 0 < invalidRowID + 1 - it.docId :=
          Nat.sub_pos_of_lt (Nat.lt_succ_of_le (h.le_top it hit))
        show distance its < distance (it :: its)
        rw [distance, distance, map_cons, sum_cons]
        omega
    | true =>
      have hmoved := h'.replace (.cons (h.step_shallow hit hd hmoves rfl) .nil)
      rw [← append_assoc] at hmoved
      have hrec := ih hmoved
      have hsame : SameDoc d it it' := ⟨hmoves.posting, hmoves.docId, fun hstands hdoc =>
          congrArg Prod.fst (hmoves.stays hstands hdoc.symm (h.bounded it hit))⟩
      have hblock : BlockAt d it' := by
        obtain ⟨b, hb, hlast, -⟩ := hmoves.block rfl
        exact ⟨b, hb, hlast⟩
      generalize shallowTo d its = r at hrec
      obtain ⟨its', sum⟩ := r
      refine ⟨by simpa using hrec.1, ?_⟩
      cases sum with
      | some sum =>
        obtain ⟨hall, hblocks, hsum⟩ := hrec.2
        refine ⟨List.Forall₂.cons hsame hall, forall_mem_cons.mpr ⟨hblock, hblocks⟩, ?_⟩
        rw [map_cons, sum_cons, hsum]
      | none =>
        obtain ⟨hless, left, hleft, hall⟩ := hrec.2
        refine ⟨?_, it :: left, hleft.cons_cons it, List.Forall₂.cons hsame hall⟩
        rw [distance, distance, map_cons, sum_cons, map_cons, sum_cons, hsame.docId]
        exact Nat.add_lt_add_left hless _

/-! ## Moving over low blocks -/

/-- An iterator of which the document is not behind `d`, or that was exhausted. -/
def Behind (d : ℕ) (it : TermIterator) : Prop :=
  it.docId ≤ d ∨ it.docId = invalidRowID ∧ it.iter.currentRowID = none

theorem blockLast_eq (hb : b ∈ it.iter.current) : it.iter.blockLast = b.last := by
  unfold PostingIterator.blockLast
  rw [mem_def.mp hb]
  rfl

theorem blockMax_eq (hb : b ∈ it.iter.current) : it.iter.blockMax = b.blockMax := by
  unfold PostingIterator.blockMax
  rw [mem_def.mp hb]
  rfl

/-- Up to the end of its block an iterator contributes at most the bound of the block. -/
theorem reach_le_blockMax (hok : it.Ok) (hblock : BlockAt d it) (hx : x ≤ it.iter.blockLast) :
    reach it x ≤ it.iter.blockMax := by
  obtain ⟨c, hc, -⟩ := hblock
  rw [blockLast_eq hc] at hx
  rw [blockMax_eq hc]
  refine le_of_pos_imp fun hpos => ?_
  obtain ⟨-, b, hb, e, he, hex, hscore⟩ := exists_entry_of_reach hpos
  have hasc := hok.iter.ascending
  unfold PostingIterator.remaining at hb hasc
  rw [mem_def.mp hc] at hb hasc
  rcases mem_cons.mp hb with rfl | hb
  · exact hscore ▸ b.bound e he
  · -- the documents of a later block are behind the current one
    have := rel_of_pairwise_cons hasc hb e he
    omega

/-- **No candidate is covered by blocks with a low sum of bounds.** -/
theorem lt_of_low_blocks {last : ℕ} (h : Core postings T f UB (its ++ after))
    (hblocks : ∀ it ∈ its, BlockAt d it) (hlast : ∀ it ∈ its, last ≤ it.iter.blockLast)
    (hsum : (its.map (·.iter.blockMax)).sum ≤ T)
    (hafter : ∀ it ∈ after, upTo ≤ it.docId) (hx : Candidate postings T f x) :
    last < x ∨ upTo ≤ x := by
  by_contra hnot
  push Not at hnot
  have hsafe := h.safe x hx
  have hits : (its.map (reach · x)).sum ≤ (its.map (·.iter.blockMax)).sum :=
      sum_le_sum fun it hit =>
    reach_le_blockMax (h.ok it (mem_append_left _ hit)) (hblocks it hit)
      (hnot.1.trans (hlast it hit))
  have hrest : (after.map (reach · x)).sum = 0 := sum_eq_zero (forall_mem_map.mpr fun it hit =>
    reach_of_lt (hnot.2.trans_le (hafter it hit)))
  rw [sumReach, map_append, sum_append, hrest] at hsafe
  have hT := hx.2
  omega

/-- `NextShallow` behind the block of the first iterator, whether it succeeds or not. -/
theorem step_shallow_first
    (h : Core postings T f UB (it :: rest ++ after))
    (htarget : ∀ x, Candidate postings T f x → target ≤ x) (hmoves : it.MovesShallow target r) :
    Core postings T f UB (r.1 :: rest ++ after) := by
  have hit : it ∈ it :: rest ++ after := mem_append_left _ mem_cons_self
  have hstep : Step postings T f it r.1 := by
    by_cases hr : r.2
    · exact h.step_shallow hit htarget hmoves hr
    · have hr' := Bool.eq_false_iff.mpr hr
      refine ⟨hmoves.posting, hmoves.threshold, hmoves.ok, ?_, fun x hx => ?_⟩
      · rw [hmoves.docId, if_neg hr]
      · rw [h.reach_eq_zero hit htarget hmoves hr' hx]
        exact Nat.zero_le _
  have h' : Core postings T f UB ([] ++ [it] ++ (rest ++ after)) := h
  exact h'.replace (.cons hstep .nil)

/-- A successful `NextShallow` behind a block leaves fewer blocks. -/
theorem remaining_lt {c : Block} (hc : c ∈ it.iter.current)
    (hmoves : it.MovesShallow (c.last + 1) r) (hr : r.2) :
    r.1.iter.remaining.length < it.iter.remaining.length := by
  obtain ⟨b, hb, hlast, -⟩ := hmoves.block hr
  refine hmoves.suffix.length_le.lt_of_ne fun heq => ?_
  have hsame := hmoves.suffix.eq_of_length heq
  unfold PostingIterator.remaining at hsame
  rw [mem_def.mp hb, mem_def.mp hc] at hsame
  cases (List.cons.inj hsame).1
  omega

/-- What the loop over the blocks leaves behind: no iterator but an exhausted one is behind `d`, and
no candidate is before the target of the movement that follows. -/
structure Skipped (postings : List BlockPosting) (T f UB d upTo : ℕ) (its after : List TermIterator)
    (r : List TermIterator × ℕ) : Prop where
  core : Core postings T f UB (r.1 ++ after)
  length : r.1.length = its.length
  behind : ∀ it ∈ r.1, Behind d it
  target : r.2 = invalidRowID ∧ (∀ x, Candidate postings T f x → upTo ≤ x) ∨
    d < r.2 ∧ r.2 ≤ upTo ∧ Near postings r.2 ∧ ∀ x, Candidate postings T f x → r.2 ≤ x

theorem blocksAhead_perm (h : its.Perm its') : blocksAhead its = blocksAhead its' :=
  (h.map _).sum_eq

/-- The row behind the current block of an iterator is found by all lists. -/
theorem near_blockLast (h : Core postings T f UB its) (hlocated : Located postings) (hit : it ∈ its)
    (hb : b ∈ it.iter.current) : Near postings (it.iter.blockLast + 1) := by
  have hmem : b ∈ it.iter.remaining := mem_append_left _ (mem_toList.mpr hb)
  rw [blockLast_eq hb]
  exact (hlocated.near (h.mem it hit) ((h.ok it hit).iter.suffix.subset hmem) b.last_mem).2

theorem moveBlocks_spec (hlocated : Located postings) (hafter : ∀ it ∈ after, upTo ≤ it.docId)
    {fuel shallowed : ℕ} (h : Core postings T f UB (its ++ after)) (hfuel : blocksAhead its < fuel)
    (hits : ∀ it ∈ its, it.docId ≤ d ∧ BlockAt d it)
    (hleast : ∀ it rest, its = it :: rest → ∀ it' ∈ rest, it.iter.blockLast ≤ it'.iter.blockLast)
    (hne : its ≠ []) (hsum : sum = (its.map (·.iter.blockMax)).sum) (hlow : sum ≤ T)
    (hshallowed : shallowed = invalidRowID ∨ d < shallowed ∧ shallowed ≤ upTo ∧
      Near postings shallowed ∧ ∀ x, Candidate postings T f x → shallowed ≤ x) :
    Skipped postings T f UB d upTo its after (moveBlocks σ T upTo fuel its sum shallowed) := by
  induction fuel generalizing its sum shallowed with
  | zero => exact absurd hfuel (Nat.not_lt_zero _)
  | succ fuel ih =>
    match its, hne with
    | it :: rest, _ =>
    obtain ⟨hdoc, c, hc, hcd⟩ := hits it mem_cons_self
    have hlast : ∀ it' ∈ it :: rest, it.iter.blockLast ≤ it'.iter.blockLast :=
      forall_mem_cons.mpr ⟨le_rfl, hleast it rest rfl⟩
    have hcovered : ∀ x, Candidate postings T f x → it.iter.blockLast < x ∨ upTo ≤ x := fun x hx =>
      lt_of_low_blocks h (fun it hit => (hits it hit).2) hlast (hsum ▸ hlow) hafter hx
    rw [moveBlocks]
    by_cases hup : it.iter.blockLast < upTo
    · have htarget : ∀ x, Candidate postings T f x → it.iter.blockLast + 1 ≤ x := fun x hx => by
        rcases hcovered x hx with hlt | hle <;> omega
      have hmem : it ∈ it :: rest ++ after := mem_append_left _ mem_cons_self
      have hnear := near_blockLast h hlocated hmem hc
      have hmoves := TermIterator.nextShallow_spec (h.ok it hmem) (hnear _ (h.mem it hmem))
      have hcore := step_shallow_first h htarget hmoves
      have hclast := blockLast_eq hc
      -- the result if the loop is left here
      have hleft : ∀ it', it' = (it.nextShallow (it.iter.blockLast + 1)).1 →
          Skipped postings T f UB d upTo (it :: rest) after (it' :: rest,
          it.iter.blockLast + 1) := by
        rintro it' rfl
        refine ⟨hcore, rfl,
          forall_mem_cons.mpr ⟨?_, fun it' hit' => .inl (hits it' (mem_cons_of_mem _ hit')).1⟩,
          .inr ⟨by show d < it.iter.blockLast + 1; omega, hup, hnear, htarget⟩⟩
        by_cases hr : (it.nextShallow (it.iter.blockLast + 1)).2
        · refine .inl ?_
          rw [hmoves.docId, if_pos hr]
          exact hdoc
        · refine .inr ⟨by rw [hmoves.docId, if_neg hr], ?_⟩
          exact hmoves.exhausted (h.bounded it hmem) (Bool.eq_false_iff.mpr hr)
      rw [if_pos hup]
      generalize hr : it.nextShallow (it.iter.blockLast + 1) = r at hmoves hcore hleft
      obtain ⟨it', ok⟩ := r
      cases ok with
      | false => exact hleft it' rfl
      | true =>
        dsimp only
        split
        · exact hleft it' rfl
        · split
          · exact hleft it' rfl
          next hlow' =>
            have hperm := σ.byBlock_perm (it' :: rest)
            have hsame : it'.docId = it.docId := hmoves.docId
            obtain ⟨b, hb, hblast, -⟩ := hmoves.block rfl
            have hshorter : it'.iter.remaining.length < it.iter.remaining.length :=
              remaining_lt hc (hclast ▸ hmoves) rfl
            have hsum' : sum - it.iter.blockMax + it'.iter.blockMax =
                ((it' :: rest).map (·.iter.blockMax)).sum := by
              rw [hsum]
              simp only [map_cons, sum_cons]
              omega
            have hrec := ih (hcore.perm (hperm.symm.append_right after)) ?_ ?_
              (σ.byBlock_least (it' :: rest)) ?_
              (hsum'.trans (hperm.map _).sum_eq.symm) (not_lt.mp hlow')
              (.inr ⟨by omega, hup, hnear, htarget⟩)
            · exact ⟨hrec.core, hrec.length.trans hperm.length_eq, hrec.behind, hrec.target⟩
            · rw [blocksAhead_perm hperm]
              simp only [blocksAhead, map_cons, sum_cons] at hfuel ⊢
              omega
            · intro it'' hit''
              rcases mem_cons.mp (hperm.mem_iff.mp hit'') with rfl | hit''
              · exact ⟨hsame ▸ hdoc, b, hb, by omega⟩
              · exact hits it'' (mem_cons_of_mem _ hit'')
            · intro hnil
              rw [hnil] at hperm
              cases hperm.nil_eq
    · rw [if_neg hup]
      refine ⟨h, rfl, fun it hit => .inl (hits it hit).1, ?_⟩
      rcases hshallowed with rfl | hshallowed
      · refine .inl ⟨rfl, fun x hx => ?_⟩
        rcases hcovered x hx with hlt | hle <;> omega
      · exact .inr hshallowed

/-- An iterator that was moved to `d`: it stands on its document or is exhausted. -/
def Arrived (d : ℕ) (it : TermIterator) : Prop :=
  d ≤ it.docId ∧ (it.docId = invalidRowID ∨ it.Stands)

theorem next_arrives (h : Core postings T f UB its) (hit : it ∈ its)
    (htarget : ∀ x, Candidate postings T f x → target ≤ x) (hnear : Near postings target)
    (hbehind : ∀ row, it.iter.currentRowID = some row → row < target)
    (htop : target ≤ invalidRowID) : Step postings T f it (it.next target) ∧
    Arrived target (it.next target) := by
  have hmoves := TermIterator.next_spec (h.ok it hit) (hnear _ (h.mem it hit)) hbehind htop
  exact ⟨h.step_next hit htarget hmoves, hmoves.le, hmoves.stands⟩

theorem Behind.read_lt (hbehind : Behind d it) (hok : it.Ok) (hd : d < target) :
    ∀ row, it.iter.currentRowID = some row → row < target := by
  intro row hrow
  rcases hbehind with hle | ⟨-, hnone⟩
  · have := hok.read row hrow
    omega
  · cases hnone.symm.trans hrow

/-- Moving a part of the iterators. -/
theorem core_map {g : TermIterator → TermIterator} (h : Core postings T f UB (its ++ after))
    (hsteps : ∀ it ∈ its, Step postings T f it (g it)) :
    Core postings T f UB (its.map g ++ after) := by
  rw [← nil_append its] at h
  exact h.replace (forall₂_map_right_iff.mpr (forall₂_same.mpr hsteps))

/-- **Moving over low blocks brings all iterators behind the pivot's document.** -/
theorem skipBlocks_spec (hlocated : Located postings) (hafter : ∀ it ∈ after, upTo ≤ it.docId)
    (h : Core postings T f UB (its ++ after)) (hbehind : ∀ it ∈ its, it.docId ≤ d)
    (hblocks : ∀ it ∈ its, BlockAt d it) (hne : its ≠ [])
    (hsum : sum = (its.map (·.iter.blockMax)).sum) (hlow : sum ≤ T) (hd : d < upTo)
    (htop : upTo ≤ invalidRowID) (hup : Near postings upTo) :
      Core postings T f UB (skipBlocks σ T upTo sum its ++ after) ∧
      (skipBlocks σ T upTo sum its).length = its.length ∧ ∀ it ∈ skipBlocks σ T upTo sum its,
      Arrived (d + 1) it := by
  have hperm := σ.byBlock_perm its
  have hskipped : Skipped postings T f UB d upTo (σ.byBlock its) after
      (moveBlocks σ T upTo (blocksAhead its + 1) (σ.byBlock its) sum invalidRowID) :=
      moveBlocks_spec hlocated hafter
    (h.perm (hperm.symm.append_right after)) (Nat.lt_succ_of_le ((blocksAhead_perm hperm).le))
    (fun it hit => ⟨hbehind it (hperm.mem_iff.mp hit), hblocks it (hperm.mem_iff.mp hit)⟩)
    (σ.byBlock_least its) (fun hnil => hne (by rw [hnil] at hperm; exact hperm.nil_eq.symm))
    (hsum.trans (hperm.map _).sum_eq.symm) hlow (.inl rfl)
  rw [skipBlocks]
  generalize moveBlocks σ T upTo (blocksAhead its + 1) (σ.byBlock its) sum invalidRowID =
    r at hskipped
  obtain ⟨its', shallowed⟩ := r
  obtain ⟨hcore, hlength, hbehind', htarget⟩ := hskipped
  -- how one iterator arrives
  have harrives : ∀ target, d < target → target ≤ upTo → Near postings target →
      (∀ x, Candidate postings T f x → target ≤ x) → ∀ it ∈ its',
      Step postings T f it (it.next target) ∧ Arrived (d + 1) (it.next target) := by
    intro target hdt hle hnear hcands it hit
    have hmem := mem_append_left after hit
    obtain ⟨hstep, hge, hstands⟩ := next_arrives hcore hmem hcands hnear
      ((hbehind' it hit).read_lt (hcore.ok it hmem) hdt) (hle.trans htop)
    exact ⟨hstep, le_trans hdt hge, hstands⟩
  have hfinish :
      ∀ g : TermIterator → TermIterator,
      (∀ it ∈ its', Step postings T f it (g it) ∧ Arrived (d + 1) (g it)) →
      Core postings T f UB (its'.map g ++ after) ∧ (its'.map g).length = its.length ∧
        ∀ it ∈ its'.map g, Arrived (d + 1) it := fun g hg => by
    rw [length_map, hlength, hperm.length_eq]
    exact ⟨core_map hcore fun it hit => (hg it hit).1, rfl, forall_mem_map.mpr fun it hit =>
      (hg it hit).2⟩
  dsimp only at htarget ⊢
  split
  next hshallowed =>
    obtain ⟨hds, hsup, hnear, hcands⟩ := htarget.resolve_left fun h => hshallowed h.1
    refine hfinish _ fun it hit => ?_
    split
    · exact harrives shallowed hds hsup hnear hcands it hit
    next hge =>
      have hmem := mem_append_left after hit
      refine ⟨.refl (hcore.ok it hmem) (hcore.le_top it hmem), by omega, .inl ?_⟩
      rcases hbehind' it hit with hle | hexhausted
      · omega
      · exact hexhausted.1
  next hinvalid =>
    have hcands : ∀ x, Candidate postings T f x → upTo ≤ x := by
      rcases htarget with ⟨-, hcands⟩ | ⟨-, -, -, hcands⟩
      · exact hcands
      · have heq : shallowed = invalidRowID := not_not.mp hinvalid
        exact fun x hx => htop.trans (heq ▸ hcands x hx)
    exact hfinish _ (harrives upTo hd le_rfl hup hcands)

end Wand

end Infinity.Search
