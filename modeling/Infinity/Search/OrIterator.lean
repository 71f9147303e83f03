import Infinity.Foundations.BinaryHeap
import Infinity.Search.DocIterator

/-! # The OR iterator

`OrIterator` keeps the documents of its children in a binary heap. `DoSeek` moves the child at the
root and sifts its entry down, until the root is not before the target.

* `HeapHolds`: the entries of the heap are the documents of the children.
* `composite_honours`: AND, OR and AND NOT answer every sequence of calls.
-/

namespace Infinity.Search

open Foundations Function

variable {Ds : List (ℕ → Prop)} {d p i : ℕ}

/-! ## The children by number -/

/-- `children_[i]->Doc()`. -/
def docAt : (l : List Seeker) → States l → ℕ → ℕ
  | [], _, _ => invalidRowID
  | I :: _, (s, _), 0 => I.doc s
  | _ :: l, (_, ss), i + 1 => docAt l ss i

/-- `children_[i]->Seek(docId)`. -/
def seekAt : (l : List Seeker) → States l → ℕ → ℕ → States l
  | [], ss, _, _ => ss
  | I :: _, (s, ss), 0, docId => (I.seek s docId, ss)
  | _ :: l, (s, ss), i + 1, docId => (s, seekAt l ss i docId)

theorem docAt_seekAt_of_ne {d : ℕ} : ∀ (l : List Seeker) (ss : States l) {i j : ℕ}, j ≠ i →
    docAt l (seekAt l ss i d) j = docAt l ss j
  | [], _, _, _, _ => rfl
  | _ :: _, (_, _), 0, 0, h => absurd rfl h
  | _ :: _, (_, _), 0, _ + 1, _ => rfl
  | _ :: _, (_, _), _ + 1, 0, _ => rfl
  | _ :: l, (_, ss), _ + 1, _ + 1, h =>
    docAt_seekAt_of_ne l ss (fun hij => h (congrArg (· + 1) hij))

/-- A child that is moved stands on its next document; the others stay. -/
theorem AllTrack.seekAt {p d : ℕ} (hp : p ≤ d) (hd : d ≤ invalidRowID) :
    ∀ {l : List Seeker} {Ds : List (ℕ → Prop)} {ss : States l} {i : ℕ}, AllTrack l Ds ss p →
      i < l.length →
      AllTrack l Ds (Search.seekAt l ss i d) d ∧ d ≤ docAt l (Search.seekAt l ss i d) i
  | [], _, _, _, _, hi => absurd hi (Nat.not_lt_zero _)
  | _ :: _, [], _, _, h, _ => h.elim
  | I :: l, D :: Ds, (s, ss), 0, h, _ => by
    obtain ⟨hI, hto⟩ := h.1.seek hp hd
    exact ⟨⟨hI, h.2.mono hp⟩, hto.le⟩
  | I :: l, D :: Ds, (s, ss), i + 1, h, hi => by
    obtain ⟨hl, hle⟩ := AllTrack.seekAt hp hd h.2 (Nat.lt_of_succ_lt_succ hi)
    exact ⟨⟨h.1.mono hp, hl⟩, hle⟩

theorem AllTrack.docAt {p : ℕ} : ∀ {l : List Seeker} {Ds : List (ℕ → Prop)} {ss : States l} {i : ℕ},
    AllTrack l Ds ss p → i < l.length → ∃ D ∈ Ds, ∃ q ≤ p,
    SeeksTo invalidRowID D q (Search.docAt l ss i)
  | [], _, _, _, _, hi => absurd hi (Nat.not_lt_zero _)
  | _ :: _, [], _, _, h, _ => h.elim
  | I :: l, D :: Ds, (s, ss), 0, h, _ => ⟨D, List.mem_cons_self, h.1.doc⟩
  | I :: l, D :: Ds, (s, ss), i + 1, h, hi => by
    obtain ⟨E, hE, hto⟩ := AllTrack.docAt h.2 (Nat.lt_of_succ_lt_succ hi)
    exact ⟨E, List.mem_cons_of_mem _ hE, hto⟩

/-- Every set is tracked by a child. -/
theorem AllTrack.exists_docAt {p : ℕ} : ∀ {l : List Seeker} {Ds : List (ℕ → Prop)} {ss : States l},
    AllTrack l Ds ss p → ∀ D ∈ Ds, ∃ i < l.length, ∃ q ≤ p,
    SeeksTo invalidRowID D q (Search.docAt l ss i)
  | [], [], _, _, _, hD => nomatch hD
  | [], _ :: _, _, h, _, _ => h.elim
  | _ :: _, [], _, h, _, _ => h.elim
  | I :: l, E :: Ds, (s, ss), h, D, hD => by
    rcases List.mem_cons.mp hD with rfl | hD
    · exact ⟨0, Nat.succ_pos _, h.1.doc⟩
    · obtain ⟨i, hi, hto⟩ := AllTrack.exists_docAt h.2 D hD
      exact ⟨i + 1, Nat.succ_lt_succ hi, hto⟩

/-! ## The heap -/

/-- `DocIteratorEntry`. -/
structure DocIteratorEntry where
  docId : ℕ
  entryId : ℕ
  deriving DecidableEq, Repr

/-- The heap before it is ordered: the child `i` stands at position `i + 1`. -/
def entries (l : List Seeker) (ss : States l) : ℕ → DocIteratorEntry
  | 0 => ⟨invalidRowID, 0⟩
  | i + 1 => ⟨docAt l ss i, i⟩

/-- `OrIterator::AdjustDown`. -/
def adjustDown (count : ℕ) (heap : ℕ → DocIteratorEntry) (idx : ℕ) : ℕ → DocIteratorEntry :=
  siftDown DocIteratorEntry.docId count count heap idx

/-- The state of an `OrIterator`: its children, the heap and `doc_id_`. -/
structure OrState (l : List Seeker) where
  states : States l
  heap : ℕ → DocIteratorEntry
  doc : ℕ

/-- The loop of `OrIterator::DoSeek`. -/
def orLoop (l : List Seeker) : ℕ → States l → (ℕ → DocIteratorEntry) → ℕ →
    States l × (ℕ → DocIteratorEntry)
  | 0, ss, heap, _ => (ss, heap)
  | fuel + 1, ss, heap, docId =>
    if (heap 1).docId < docId then
      let i := (heap 1).entryId
      let ss' := seekAt l ss i docId
      orLoop l fuel ss' (adjustDown l.length (update heap 1 ⟨docAt l ss' i, i⟩) 1) docId
    else (ss, heap)

/-- `OrIterator`. Each turn of the loop moves a child beyond the target, so that there are no more
turns than children. -/
def orSeeker (l : List Seeker) : Seeker where
  State := OrState l
  doc s := s.doc
  doSeek s docId :=
    let (ss, heap) := orLoop l l.length s.states s.heap docId
    ⟨ss, heap, (heap 1).docId⟩

/-- The state after the constructor of `OrIterator`. -/
def orInit (l : List Seeker) (ss : States l) : OrState l :=
  let heap := heapify DocIteratorEntry.docId l.length (l.length / 2) (entries l ss)
  ⟨ss, heap, (heap 1).docId⟩

/-- The heap is ordered and holds the documents of the children. -/
structure HeapHolds (l : List Seeker) (ss : States l) (heap : ℕ → DocIteratorEntry) : Prop where
  order : HeapFrom DocIteratorEntry.docId l.length heap 1
  entries : Rearranged l.length (entries l ss) heap

variable {l : List Seeker} {ss : States l} {heap : ℕ → DocIteratorEntry}

theorem HeapHolds.init (l : List Seeker) (ss : States l) : HeapHolds l ss (orInit l ss).heap :=
  ⟨heapFrom_leaves.heapify, rearranged_heapify (Nat.div_le_self _ _)⟩

section

variable (h : HeapHolds l ss heap)
include h

/-- The entry at a position is that of a child. -/
theorem HeapHolds.entry {j : ℕ} (hj : 0 < j) (hjl : j ≤ l.length) :
    (heap j).entryId < l.length ∧ (heap j).docId = docAt l ss (heap j).entryId := by
  obtain ⟨σ, hheap, hσ⟩ := h.entries
  obtain ⟨hpos, hle⟩ := (hσ j).mpr ⟨hj, hjl⟩
  rw [hheap]
  obtain ⟨i, hi⟩ := Nat.exists_eq_succ_of_ne_zero (hpos.ne')
  rw [comp_apply, hi]
  exact ⟨show i < l.length by omega, rfl⟩

/-- **The root is the least document of the children.** -/
theorem HeapHolds.root_le (hi : i < l.length) : (heap 1).docId ≤ docAt l ss i := by
  obtain ⟨σ, hheap, hσ⟩ := h.entries
  have hpos : 0 < σ.symm (i + 1) ∧ σ.symm (i + 1) ≤ l.length := by
    rw [← hσ (σ.symm (i + 1)), Equiv.apply_symm_apply]
    omega
  have hle := h.order.root_le hpos.1 hpos.2
  have hat : heap (σ.symm (i + 1)) = ⟨docAt l ss i, i⟩ := by
    rw [hheap, comp_apply, Equiv.apply_symm_apply]
    rfl
  rw [hat] at hle
  exact hle

/-- Moving the child at the root and sifting its entry down keeps the heap. -/
theorem HeapHolds.moveRoot (hl : 0 < l.length) :
    HeapHolds l (seekAt l ss (heap 1).entryId d) (adjustDown l.length
      (update heap 1 ⟨docAt l (seekAt l ss (heap 1).entryId d) (heap 1).entryId, (heap 1).entryId⟩)
      1) := by
  generalize hroot :
    (⟨docAt l (seekAt l ss (heap 1).entryId d) (heap 1).entryId, (heap 1).entryId⟩ :
    DocIteratorEntry) = e
  constructor
  · refine .siftDown (by omega) Nat.one_pos fun j hj hjl => ?_
    -- the entries below the root have not changed
    rw [update_of_ne (by omega), update_of_ne (by omega)]
    exact h.order j (by omega) hjl
  · refine .trans ?_ (rearranged_siftDown Nat.one_pos hl)
    obtain ⟨σ, hheap, hσ⟩ := h.entries
    refine ⟨σ, funext fun k => ?_, hσ⟩
    obtain ⟨i, hi⟩ := Nat.exists_eq_succ_of_ne_zero (((hσ 1).mpr ⟨Nat.one_pos, hl⟩).1.ne')
    have hid : (heap 1).entryId = i := by
      rw [hheap, comp_apply, hi]
      rfl
    rw [hid] at hroot ⊢
    by_cases hk : k = 1
    · rw [hk, update_self, comp_apply, hi, ← hroot]
      rfl
    · have hne : σ k ≠ i + 1 := fun heq => hk (σ.injective (heq.trans hi.symm))
      rw [update_of_ne hk, comp_apply, hheap, comp_apply]
      match hm : σ k with
      | 0 => rfl
      | m + 1 =>
        have hmi : m ≠ i := fun heq => hne (hm.trans (congrArg (· + 1) heq))
        exact congrArg (DocIteratorEntry.mk · m) (docAt_seekAt_of_ne l ss hmi).symm

end

def behind (l : List Seeker) (ss : States l) (d : ℕ) : Finset ℕ :=
  (Finset.range l.length).filter fun i => docAt l ss i < d

theorem card_behind_le : (behind l ss d).card ≤ l.length :=
  (Finset.card_filter_le _ _).trans (Finset.card_range _).le

theorem behind_seekAt_subset (hle : d ≤ docAt l (seekAt l ss i d) i) :
    behind l (seekAt l ss i d) d ⊆ (behind l ss d).erase i := by
  intro j hj
  obtain ⟨hj, hlt⟩ := Finset.mem_filter.mp hj
  have hji : j ≠ i := by
    rintro rfl
    omega
  rw [docAt_seekAt_of_ne l ss hji] at hlt
  exact Finset.mem_erase.mpr ⟨hji, Finset.mem_filter.mpr ⟨hj, hlt⟩⟩

/-- A turn of the loop: fewer children are before the target. -/
theorem moveRoot_spec (hl : 0 < l.length) (hp : p ≤ d) (hd : d ≤ invalidRowID)
    (h : AllTrack l Ds ss p)
    (hheap : HeapHolds l ss heap) (hlt : (heap 1).docId < d) :
      AllTrack l Ds (seekAt l ss (heap 1).entryId d) d ∧
      (behind l (seekAt l ss (heap 1).entryId d) d).card < (behind l ss d).card := by
  obtain ⟨hid, hdoc⟩ := hheap.entry Nat.one_pos hl
  obtain ⟨h', hle⟩ := h.seekAt hp hd hid
  refine ⟨h', (Finset.card_le_card (behind_seekAt_subset hle)).trans_lt ?_⟩
  exact Finset.card_erase_lt_of_mem (Finset.mem_filter.mpr ⟨Finset.mem_range.mpr hid, hdoc ▸ hlt⟩)

theorem orLoop_spec {fuel : ℕ} (hl : 0 < l.length) (hp : p ≤ d) (hd : d ≤ invalidRowID)
    (hfuel : (behind l ss d).card ≤ fuel) (h : AllTrack l Ds ss p) (hheap : HeapHolds l ss heap) :
    AllTrack l Ds (orLoop l fuel ss heap d).1 d ∧
      HeapHolds l (orLoop l fuel ss heap d).1 (orLoop l fuel ss heap d).2 ∧
      d ≤ ((orLoop l fuel ss heap d).2 1).docId ∧ orLoop l (fuel + 1) ss heap d =
      orLoop l fuel ss heap d := by
  induction fuel generalizing ss heap p with
  | zero =>
    have hge : ¬ (heap 1).docId < d := fun hlt => by
      have := (moveRoot_spec hl hp hd h hheap hlt).2
      omega
    exact ⟨h.mono hp, hheap, not_lt.mp hge, if_neg hge⟩
  | succ fuel ih =>
    rw [orLoop, orLoop]
    split
    next hlt =>
      obtain ⟨h', hcard⟩ := moveRoot_spec hl hp hd h hheap hlt
      exact ih (le_refl d) (by omega) h' (hheap.moveRoot hl)
    next hge => exact ⟨h.mono hp, hheap, not_lt.mp hge, rfl⟩

/-- The root is the next document of some child. -/
theorem HeapHolds.seeksTo (h : HeapHolds l ss heap) (hl : 0 < l.length)
    (htrack : AllTrack l Ds ss p)
    (hp : p ≤ d) (hd : d ≤ (heap 1).docId) :
    SeeksTo invalidRowID (fun x => ∃ D ∈ Ds, D x) d (heap 1).docId := by
  obtain ⟨hid, hdoc⟩ := h.entry Nat.one_pos hl
  obtain ⟨D, hD, q, hq, hto⟩ := htrack.docAt hid
  rw [← hdoc] at hto
  refine ⟨hd, hto.le_top, fun hlt => ⟨D, hD, hto.mem hlt⟩, ?_⟩
  rintro x hx hlt ⟨E, hE, hEx⟩
  obtain ⟨i, hi, q', hq', hto'⟩ := htrack.exists_docAt E hE
  have hle := h.root_le hi
  exact hto'.none_between x (by omega) (by omega) hEx

def OrTracks (l : List Seeker) (Ds : List (ℕ → Prop)) (s : OrState l) (p : ℕ) : Prop :=
  AllTrack l Ds s.states p ∧ HeapHolds l s.states s.heap ∧ s.doc = (s.heap 1).docId ∧
    ∃ q ≤ p, SeeksTo invalidRowID (fun x => ∃ D ∈ Ds, D x) q s.doc

/-- **An OR tracks the documents of some child.** -/
theorem OrTracks.tracks {s : OrState l} (hl : 0 < l.length) (h : OrTracks l Ds s p) :
    (orSeeker l).Tracks invalidRowID (fun x => ∃ D ∈ Ds, D x) s p := by
  refine Seeker.Tracks.intro (R := OrTracks l Ds) h (fun s p h => h.2.2.2) ?_
  intro s p ⟨htrack, hheap, _, _⟩ d hp hd _
  obtain ⟨htrack', hheap', hle, -⟩ := orLoop_spec hl hp hd (card_behind_le) htrack hheap
  have hto := hheap'.seeksTo hl htrack' (le_refl d) hle
  exact ⟨⟨htrack', hheap', rfl, d, le_refl d, hto⟩, hto⟩

theorem orInit_tracks (hl : 0 < l.length) (h : AllTrack l Ds ss 0) :
    (orSeeker l).Tracks invalidRowID (fun x => ∃ D ∈ Ds, D x) (orInit l ss) 0 :=
  OrTracks.tracks hl ⟨h, .init l ss, rfl, 0, le_refl 0,
    (HeapHolds.init l ss).seeksTo hl h (le_refl 0) (Nat.zero_le _)⟩

/-- **AND, OR and AND NOT are set algebra**: over children that stand on their first documents they
answer every sequence of calls for the intersection, the union, and the first set without the
others, and their loops end. -/
theorem composite_honours {I : Seeker} {D : ℕ → Prop} {ss : States (I :: l)}
    (h : AllTrack (I :: l) (D :: Ds) ss 0) :
        (andSeeker (I :: l)).Honours invalidRowID (fun x => ∀ E ∈ D :: Ds, E x)
        ((andSeeker (I :: l)).doSeek (ss, invalidRowID) 0) ∧
      (orSeeker (I :: l)).Honours invalidRowID (fun x => ∃ E ∈ D :: Ds, E x) (orInit (I :: l) ss) ∧
      (andNotSeeker I l).Honours invalidRowID (fun x => D x ∧ ∀ E ∈ Ds, ¬ E x)
        ((andNotSeeker I l).doSeek (ss, invalidRowID) 0) ∧
      ∀ ss p d fuel, AllTrack (I :: l) (D :: Ds) ss p → p ≤ d → d ≤ invalidRowID →
        (invalidRowID < d + fuel → andLoop (I :: l) (fuel + 1) ss d = andLoop (I :: l) fuel ss d ∧
          andNotLoop I l (fuel + 1) ss d = andNotLoop I l fuel ss d) ∧
        ∀ heap, HeapHolds (I :: l) ss heap → (I :: l).length ≤ fuel →
          orLoop (I :: l) (fuel + 1) ss heap d = orLoop (I :: l) fuel ss heap d := by
  have hl : 0 < (I :: l).length := Nat.succ_pos _
  refine ⟨Seeker.honours_iff_tracks.mpr (andSeeker_tracks h (le_refl 0) (Nat.zero_le _) _),
    Seeker.honours_iff_tracks.mpr (orInit_tracks hl h),
    Seeker.honours_iff_tracks.mpr (andNotSeeker_tracks h (le_refl 0) (Nat.zero_le _) _),
    fun ss p d fuel h hp hd => ⟨fun hfuel => ?_, ?_⟩⟩
  · exact ⟨(andLoop_spec hfuel hp hd h).2, (andNotLoop_spec hfuel hp hd h).2⟩
  · intro heap hheap hfuel
    exact (orLoop_spec hl hp hd ((card_behind_le).trans hfuel) h hheap).2.2.2

theorem composite_honours_terms : ∃ l l' : PostingList, l.docs = [1, 2] ∧ l'.docs = [2, 3] ∧
    (orSeeker [termSeeker l, termSeeker l']).Honours invalidRowID (fun x =>
      ∃ E ∈ [(· ∈ l.docs), (· ∈ l'.docs)], E x) (orInit _ (l.seekDoc 0, l'.seekDoc 0, ())) := by
  have htrack (l l' : PostingList) :
      AllTrack [termSeeker l, termSeeker l'] [(· ∈ l.docs), (· ∈ l'.docs)]
      (l.seekDoc 0, l'.seekDoc 0, ()) 0 :=
    ⟨termSeeker_tracks l (Nat.zero_le _), termSeeker_tracks l' (Nat.zero_le _), trivial⟩
  exact ⟨⟨[1, 2], by decide, by decide⟩, ⟨[2, 3], by decide, by decide⟩, rfl, rfl,
    (composite_honours (htrack _ _)).2.1⟩

end Infinity.Search
