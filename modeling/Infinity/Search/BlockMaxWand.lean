import Infinity.Search.BlockMaxTerm
import Infinity.Search.ScoreResultHeap

/-! # Block-max WAND

`BlockMaxWandIterator` enumerates the documents of a disjunction whose score exceeds a threshold
that rises during the search. It keeps the term iterators sorted by their documents. The pivot is
the first iterator at which the sum of the score bounds of the lists exceeds the threshold: no
document before the pivot's can have a higher score. The bounds of the blocks around the pivot's
document decide whether it is evaluated or whether the iterators up to the pivot move over the
blocks.

The order in which `std::sort` and `std::partial_sort` leave equal elements is not specified; it is
a parameter of the model. A step is undefined if it scores a document in a block that is not
decoded, or if an iterator has read behind the end of a block.

* `executeFTSearch`: the search with the heap of the best results.
* `Located`: the posting lists of which each finds its way to the documents of all.
-/

namespace Infinity.Search

open Foundations

/-- What is known of `std::sort` by document and of `std::partial_sort` of the first element by the
last document of the block. -/
structure Sorting where
  /-- `std::sort`. -/
  byDoc : List TermIterator → List TermIterator
  byDoc_perm : ∀ its, (byDoc its).Perm its
  byDoc_sorted : ∀ its, (byDoc its).Pairwise fun it it' => it.docId ≤ it'.docId
  /-- `std::partial_sort`. -/
  byBlock : List TermIterator → List TermIterator
  byBlock_perm : ∀ its, (byBlock its).Perm its
  byBlock_least : ∀ its it rest, byBlock its = it :: rest →
    ∀ it' ∈ rest, it.iter.blockLast ≤ it'.iter.blockLast

/-- `BlockMaxWandIterator`. -/
structure Wand where
  iterators : List TermIterator
  pivot : ℕ
  docId : ℕ
  threshold : ℕ
  upperBound : ℕ
  score : ℕ

/-- The sum of the score bounds of the lists. -/
def sumBounds (its : List TermIterator) : ℕ := (its.map TermIterator.upperBound).sum

namespace Wand

/-- The iterator before its first movement. -/
def create (postings : List BlockPosting) : Wand :=
  let its := postings.map TermIterator.create
  ⟨its, its.length, invalidRowID, 0, sumBounds its, 0⟩

/-- `UpdateScoreThreshold`. Thresholds of children are not negative, so that a negative sum changes
none. -/
def updateScoreThreshold (w : Wand) (threshold : ℕ) : Wand :=
  { w with
    threshold := max w.threshold threshold
    iterators := w.iterators.map fun it =>
      it.updateScoreThreshold (threshold + it.upperBound - w.upperBound) }

/-- The first index at which the sum of the bounds exceeds the threshold. -/
def findPivot (threshold : ℕ) : ℕ → List TermIterator → Option ℕ
  | _, [] => none
  | sum, it :: its =>
    if threshold < sum + it.upperBound then some 0
    else (findPivot threshold (sum + it.upperBound) its).map (· + 1)

/-- `NextShallow` for the iterators up to the pivot, with the sum of the bounds of their blocks. The
first one that is exhausted is erased, and the loop left. -/
def shallowTo (d : ℕ) : List TermIterator → List TermIterator × Option ℕ
  | [] => ([], some 0)
  | it :: its =>
    match it.nextShallow d with
    | (it, true) =>
      let (its, sum) := shallowTo d its
      (it :: its, sum.map (it.iter.blockMax + ·))
    | (_, false) => (its, none)

/-- The sum of the scores of the iterators. -/
def sumScores : List TermIterator → Option ℕ
  | [] => some 0
  | it :: its => it.bm25Score.bind fun score => (sumScores its).map (score + ·)

/-- `Next(d)` for the first iterators as long as they are before `d`. -/
def nextWhileBefore (d : ℕ) : List TermIterator → List TermIterator
  | [] => []
  | it :: its => if it.docId < d then it.next d :: nextWhileBefore d its else it :: its

/-- The loop that moves the first block of the iterators up to the pivot while the sum of the bounds
is low: the iterators and `shallowed_did`. -/
def moveBlocks (σ : Sorting) (threshold upTo : ℕ) : ℕ → List TermIterator → ℕ → ℕ →
    List TermIterator × ℕ
  | 0, its, _, shallowed => (its, shallowed)
  | _, [], _, shallowed => ([], shallowed)
  | fuel + 1, it :: rest, sum, shallowed =>
    let last := it.iter.blockLast
    if last < upTo then
      match it.nextShallow (last + 1) with
      | (it', false) => (it' :: rest, last + 1)
      | (it', true) =>
        if it'.iter.blockLast = invalidRowID then (it' :: rest, last + 1)
        else
          let sum := sum - it.iter.blockMax + it'.iter.blockMax
          if threshold < sum then (it' :: rest, last + 1)
          else moveBlocks σ threshold upTo fuel (σ.byBlock (it' :: rest)) sum (last + 1)
    else (it :: rest, shallowed)

/-- The number of blocks that the iterators have still to visit. -/
def blocksAhead (its : List TermIterator) : ℕ := (its.map fun it => it.iter.remaining.length).sum

/-- The branch of the loop for a low sum of block bounds. -/
def skipBlocks (σ : Sorting) (threshold upTo sum : ℕ) (its : List TermIterator) :
    List TermIterator :=
  match moveBlocks σ threshold upTo (blocksAhead its + 1) (σ.byBlock its) sum invalidRowID with
  | (its, shallowed) =>
    if shallowed ≠ invalidRowID then
      its.map fun it => if it.docId < shallowed then it.next shallowed else it
    else its.map (·.next upTo)

/-- How a turn of the loop ends: `Next` returns false or true, the loop goes on, or the behaviour is
undefined. -/
inductive Turn where
  | exhausted (w : Wand)
  | found (w : Wand)
  | again (w : Wand)
  | undefined

/-- The turn from the pivot on. The iterators `before` are those up to the pivot. -/
def turnAt (σ : Sorting) (w : Wand) (d : ℕ) (before after : List TermIterator) : Turn :=
  match shallowTo d before with
  | (before, none) => .again { w with iterators := before ++ after }
  | (before, some sum) =>
    if w.threshold < sum then
      match before with
      | [] => .undefined
      | first :: _ =>
        if first.docId = d then
          match sumScores before with
          | none => .undefined
          | some score =>
            if w.threshold < score then
              .found { w with
                iterators := before ++ after, pivot := before.length - 1, docId := d, score :=
                  score }
            else .again { w with iterators := before.map (·.next (d + 1)) ++ after }
        else
          .again { w with
            iterators := nextWhileBefore d (before.take (before.length - 1)) ++
              before.drop (before.length - 1) ++ after }
    else
      let upTo := (after.head?.map TermIterator.docId).getD invalidRowID
      .again { w with iterators := skipBlocks σ w.threshold upTo sum before ++ after }

/-- A turn of the loop of `Next`, behind the movements of the turn before. -/
def turn (σ : Sorting) (w : Wand) : Turn :=
  if w.iterators.any TermIterator.overran then .undefined else
  let sorted := σ.byDoc w.iterators
  let its := sorted.rdropWhile (·.docId = invalidRowID)
  let w := { w with
    iterators := its
    upperBound := w.upperBound - sumBounds (sorted.rtakeWhile (·.docId = invalidRowID)) }
  if w.upperBound ≤ w.threshold then .exhausted { w with docId := invalidRowID }
  else
    match findPivot w.threshold 0 its with
    | none => .exhausted { w with docId := invalidRowID }
    | some p =>
      match its.drop p with
      | [] => .undefined
      | it :: rest =>
        let pivot := p + (rest.takeWhile (·.docId = it.docId)).length
        turnAt σ w it.docId (its.take (pivot + 1)) (its.drop (pivot + 1))

/-- The loop of `Next`: the iterator and whether a document was found. -/
def nextLoop (σ : Sorting) : ℕ → Wand → Option (Wand × Bool)
  | 0, _ => none
  | fuel + 1, w =>
    match w.turn σ with
    | .exhausted w => some (w, false)
    | .found w => some (w, true)
    | .again w => nextLoop σ fuel w
    | .undefined => none

/-- The movement of the iterators at the begin of `Next`. -/
def start (w : Wand) (docId : ℕ) : Wand :=
  if w.docId = invalidRowID then { w with iterators := w.iterators.map (·.next 0) }
  else
    { w with
      iterators := nextWhileBefore docId (w.iterators.take (w.pivot + 1)) ++
        w.iterators.drop (w.pivot + 1) }

/-- How far the documents of some iterators are from the end. -/
def distance (its : List TermIterator) : ℕ := (its.map fun it => invalidRowID + 1 - it.docId).sum

/-- `BlockMaxWandIterator::Next`. -/
def next (σ : Sorting) (w : Wand) (docId : ℕ) : Option (Wand × Bool) :=
  nextLoop σ (distance (w.start docId).iterators + 1) (w.start docId)

end Wand

/-! ## The search -/

/-- `ExecuteFTSearch` for `kBMW`. -/
def executeFTSearch (σ : Sorting) : ℕ → Wand → ScoreResultHeap → Option ScoreResultHeap
  | 0, _, _ => none
  | fuel + 1, w, heap =>
    match w.next σ (if w.docId = invalidRowID then 0 else w.docId + 1) with
    | none => none
    | some (_, false) => some heap
    | some (w, true) =>
      let (heap, updated) := heap.addResult w.score w.docId
      let w :=
        if updated ∧ 0 < heap.getScoreThreshold then w.updateScoreThreshold heap.getScoreThreshold
          else w
      executeFTSearch σ fuel w heap

/-- The results of a search in their final order. -/
def searchTop (σ : Sorting) (postings : List BlockPosting) (topN : ℕ) : Option (List (ℕ × ℕ)) :=
  (executeFTSearch σ (invalidRowID + 1) (Wand.create postings) (ScoreResultHeap.create topN)).map
      fun heap =>
    heap.sort.toList

/-- The score of a document in the disjunction. -/
def totalScore (postings : List BlockPosting) (docId : ℕ) : ℕ := (postings.map (·.score docId)).sum

/-- The documents of the disjunction. -/
def unionDocs (postings : List BlockPosting) : List ℕ :=
  (postings.flatMap fun l => (l.blocks.flatMap Block.entries).map Prod.fst).dedup

/-- **The ranking**: the documents of the posting lists with a positive score, by descending score
and ascending row id. -/
def ranking (postings : List BlockPosting) : List (ℕ × ℕ) :=
  (((unionDocs postings).map fun d => (totalScore postings d, d)).filter (0 < ·.1)).insertionSort
      fun r r' =>
    resultKey r' ≤ resultKey r

/-- Each posting list finds its way to the documents of all, and behind them. -/
def Located (postings : List BlockPosting) : Prop :=
  ∀ l ∈ postings, ∀ b ∈ l.blocks, ∀ e ∈ b.entries, ∀ l' ∈ postings, l'.Locates e.1 ∧
    l'.Locates (e.1 + 1)

end Infinity.Search
