import Infinity.Search.Filter

/-! # Filtered search with early termination

`FilterIterator<EarlyTerminateIterator>::Next` asks the segment of the filter for the document of
the query and goes on from the row it is given. It looks only at one segment of the filter for each
document. It ends the search when that segment has no row left, although later segments may have
some. For a document of a segment without an entry it asks for the offset of the document in the
next segment that has one.

* `Filter.answer_of_covers`: what the filter answers for a document of one of its segments.
* `Filter.filtered_iff_ahead`: when both iterators enumerate the filtered documents.
-/

namespace Infinity.Search

open Foundations List Option

namespace Filter

variable (F : Filter) (I : Seeker)
  {query : I.State} {d x e n m : ℕ} {cursor : Option Cursor} {docs : List ℕ} {Q : PostingList}

/-- What the filter answers for a document of the query: the cursor and the row. -/
def answer (cursor : Option Cursor) (docId : ℕ) : Option Cursor × Option ℕ :=
  match cursor.bind (F.skipTo · docId) with
  | none => (none, none)
  | some c =>
    let (c, id) := F.selfSeek c docId
    (some c, id)

/-- `FilterIterator<EarlyTerminateIterator>::Next`. -/
def nextLoop : ℕ → FilterState I → ℕ → FilterState I
  | 0, s, _ => { s with docId := invalidRowID }
  | fuel + 1, s, docId =>
    let query := I.doSeek s.query docId
    if I.doc query = invalidRowID then ⟨query, s.cursor, invalidRowID⟩
    else
      match F.answer s.cursor (I.doc query) with
      | (cursor, none) => ⟨query, cursor, invalidRowID⟩
      | (cursor, some id2) =>
        if id2 = I.doc query then ⟨query, cursor, id2⟩
        else nextLoop fuel ⟨query, cursor, s.docId⟩ id2

/-- `FilterIterator<EarlyTerminateIterator>`. -/
def nextSeeker : Seeker where
  State := FilterState I
  doc s := s.docId
  doSeek s docId := F.nextLoop I (invalidRowID - docId + 1) s docId

/-- What a search with `FilterIterator<EarlyTerminateIterator>` enumerates. -/
def nextDocs (query : I.State) : List ℕ :=
  (F.nextSeeker I).collect invalidRowID invalidRowID
    ((F.nextSeeker I).doSeek ⟨query, F.start, invalidRowID⟩ 0)

/-- The filter has an entry for the segment of the document, which is not behind the row after its
last one, or all segments of the filter end before the document. -/
def Covers (docId : ℕ) : Prop :=
  segmentOf docId ∈ F.entries.map Prod.fst ∧ offsetOf docId ≤ F.rows (segmentOf docId) ∨
    ∀ k ∈ F.entries.map Prod.fst, rowID k (F.rows k) < docId

/-- From the document on, a row of its segment is let through. -/
def Ahead (docId : ℕ) : Prop :=
  ∃ x, F.LetsThrough x ∧ segmentOf x = segmentOf docId ∧ docId ≤ x

variable {F I}

/-! ## The answers of the filter -/

theorem not_ahead (h : ∀ k ∈ F.entries.map Prod.fst, rowID k (F.rows k) < d) : ¬ F.Ahead d := by
  rintro ⟨x, hx, -, hle⟩
  have hend : x ≤ rowID (segmentOf x) (F.rows (segmentOf x)) :=
    (le_rowID_iff (rows_lt' _)).mpr (Or.inr ⟨rfl, hx.1⟩)
  exact absurd (h _ hx.mem) (by omega)

/-- The filter answers with the first row of the segment that is let through, if there is one. -/
theorem answer_of_covers (hcursor : F.CursorAt cursor d) (h : F.Covers d) :
    (∃ cursor', F.answer cursor d = (cursor', none) ∧ ¬ F.Ahead d) ∨
      ∃ cursor' id, F.answer cursor d = (cursor', some id) ∧ F.CursorAt cursor' id ∧ d ≤ id ∧
        segmentOf id = segmentOf d ∧ F.LetsThrough id ∧ ∀ y, d ≤ y → y < id →
        ¬ F.LetsThrough y := by
  obtain ⟨hat, hlast⟩ := hcursor.skipTo
  unfold answer
  cases hskip : cursor.bind (F.skipTo · d) with
  | none =>
    rw [hskip] at hat
    exact .inl ⟨none, rfl, not_ahead hat⟩
  | some c =>
    rw [hskip] at hat hlast
    have hge := hlast c rfl
    obtain ⟨hkey, hoff⟩ := h.resolve_right fun hend => absurd (hend _ hat.1) (not_lt.mpr hge)
    -- the cursor stands in the segment of the document
    have hsame : c.segmentId = segmentOf d := by
      have hend : d ≤ rowID (segmentOf d) (F.rows (segmentOf d)) :=
        (le_rowID_iff (rows_lt' _)).mpr (Or.inr ⟨rfl, hoff⟩)
      have hge := (le_rowID_iff (rows_lt' c.segmentId)).mp hge
      have hle : ¬ segmentOf d < c.segmentId := fun hlt =>
        absurd (hat.2.1 _ hkey hlt) (not_lt.mpr hend)
      omega
    have hmax : max d (rowID c.segmentId 0) = d := by
      refine max_eq_left ?_
      rw [hsame]
      conv_rhs => rw [← rowID_segmentOf d]
      exact rowID_zero_le (le_rfl)
    obtain ⟨pos, r, heq, hr⟩ := hat.selfSeek hge
    rw [hmax] at heq
    dsimp only
    rw [heq]
    cases r with
    | none =>
      refine .inl ⟨_, rfl, ?_⟩
      rintro ⟨x, hx, hseg, hle⟩
      refine hr.2 x hle (Nat.lt_succ_of_le ?_) hx
      exact (le_rowID_iff (rows_lt' _)).mpr (Or.inr ⟨hseg.trans hsame.symm, hsame ▸ hseg ▸ hx.1⟩)
    | some id =>
      obtain ⟨hat', hseg, hle, hthrough, hnone⟩ := hr
      exact .inr ⟨_, id, rfl, hat', hle, hseg.trans hsame, hthrough, hnone⟩

/-! ## All calls of a search -/

/-- The query iterator finds its next document from the target on. -/
def Ready (I : Seeker) (docs : List ℕ) (query : I.State) (docId : ℕ) : Prop :=
  I.Tracks invalidRowID (· ∈ docs) (I.doSeek query docId) docId ∧
    SeeksTo invalidRowID (· ∈ docs) docId (I.doc (I.doSeek query docId))

theorem Ready.next (h : Ready I docs query d)
    (hlt : I.doc (I.doSeek query d) < e) (he : e ≤ invalidRowID) :
    Ready I docs (I.doSeek query d) e :=
  h.1.doSeek (le_trans h.2.le (le_of_lt hlt)) he hlt

/-- The documents from a document on are it and those behind it. -/
theorem filter_le_eq_cons (hdocs : docs.Pairwise (· < ·)) (he : e ∈ docs) :
    docs.filter (e ≤ ·) = e :: docs.filter (e + 1 ≤ ·) := by
  refine ascending_ext (hdocs.filter _) (pairwise_cons.mpr ⟨fun x hx => ?_, hdocs.filter _⟩)
    fun x => ?_
  · exact of_decide_eq_true (mem_filter.mp hx).2
  · simp only [mem_filter, mem_cons, decide_eq_true_eq]
    constructor
    · rintro ⟨hx, hge⟩
      rcases lt_or_eq_of_le hge with hlt | rfl
      · exact Or.inr ⟨hx, hlt⟩
      · exact Or.inl rfl
    · rintro (rfl | ⟨hx, hex⟩)
      · exact ⟨he, le_rfl⟩
      · exact ⟨hx, Nat.le_of_succ_le hex⟩

/-- The documents from a later target on, if no filtered one stands between. -/
theorem filter_le_filter_eq (hde : d ≤ e) (hnone : ∀ x ∈ docs, d ≤ x → x < e → ¬ F.Wanted x) :
    (docs.filter (d ≤ ·)).filter F.Wanted = (docs.filter (e ≤ ·)).filter F.Wanted := by
  rw [List.filter_filter, List.filter_filter]
  refine List.filter_congr fun x hx => ?_
  by_cases hwanted : F.Wanted x
  · have : d ≤ x ↔ e ≤ x :=
      ⟨fun hdx => not_lt.mp fun hlt => hnone x hx hdx hlt hwanted, le_trans hde⟩
    simp only [this]
  · simp [hwanted]

/-- Each document from `d` on that is not behind the last filtered one has a row of its segment
ahead. -/
def AheadFrom (F : Filter) (docs : List ℕ) (d : ℕ) : Prop :=
  ∀ y ∈ docs, d ≤ y → ∀ w ∈ docs, y ≤ w → F.Wanted w → F.Ahead y

/-- The documents up to a row that is let through have it ahead, if they are of its segment. -/
theorem aheadFrom_iff {id : ℕ} (hready : SeeksTo invalidRowID (· ∈ docs) d e) (hde : e ≤ x)
    (hx : x ≤ id + 1) (hseg : segmentOf id = segmentOf e) (hthrough : F.LetsThrough id) :
    F.AheadFrom docs d ↔ F.AheadFrom docs x := by
  refine ⟨fun h y hy hle => h y hy (by have := hready.le; omega), fun h y hy hle w hw hyw hwanted =>
    ?_⟩
  have hey : e ≤ y := not_lt.mp fun hlt => hready.none_between y hle hlt hy
  rcases lt_or_ge y x with hlt | hge
  · refine ⟨id, hthrough, ?_, by omega⟩
    have hlo : segmentOf e ≤ segmentOf y := Nat.div_le_div_right hey
    have hhi : segmentOf y ≤ segmentOf id := Nat.div_le_div_right (by omega)
    omega
  · exact h y hy hge w hw hyw hwanted

section Calls

variable (hdocs : docs.Pairwise (· < ·)) (hvalid : ∀ x ∈ docs, x < invalidRowID)
  (hcovers : ∀ d ∈ docs, F.Covers d)
  (hlast : ∀ d ∈ docs, F.LetsThrough d → offsetOf d ≠ F.rows (segmentOf d))
include hdocs hvalid hcovers hlast

/-- **The calls of `Next` from a target on** return the filtered documents exactly if those before
the last one have a row ahead. The induction is on how far the target is from the end. -/
theorem collect_nextLoop_iff (k : ℕ) (hk : invalidRowID - d < k) (hn : invalidRowID - d < n)
    (hm : invalidRowID - d ≤ m) (hcursor : F.CursorAt cursor d) (hready : Ready I docs query d) :
    (F.nextSeeker I).collect invalidRowID m (F.nextLoop I n ⟨query, cursor, x⟩ d) =
      (docs.filter (d ≤ ·)).filter F.Wanted ↔ F.AheadFrom docs d := by
  have hend : ∀ m (s : FilterState I), s.docId = invalidRowID →
      (F.nextSeeker I).collect invalidRowID m s = [] := by
    intro m s hs
    cases m with
    | zero => rfl
    | succ m => exact if_pos hs
  have hcons : ∀ m (s : FilterState I), s.docId ≠ invalidRowID →
      (F.nextSeeker I).collect invalidRowID (m + 1) s =
        s.docId :: (F.nextSeeker I).collect invalidRowID m
          (F.nextLoop I (invalidRowID - (s.docId + 1) + 1) s (s.docId + 1)) :=
    fun _ _ hs => if_neg hs
  induction k generalizing n m d x query cursor with
  | zero => exact absurd hk (Nat.not_lt_zero _)
  | succ k ih =>
    obtain ⟨n, rfl⟩ := Nat.exists_eq_add_of_le' (Nat.one_le_of_lt hn)
    obtain ⟨hle, hletop, hmem, hnone⟩ := hready.2
    rw [nextLoop, filter_le_filter_eq hle fun x hx hdx hlt _ => hnone x hdx hlt hx]
    have hnext e := hready.next (e := e)
    have hseeks := hready.2
    by_cases htop : I.doc (I.doSeek query d) = invalidRowID
    · -- the query is exhausted
      rw [if_pos htop, hend _ _ rfl, eq_comm, List.filter_filter, filter_eq_nil_iff]
      refine iff_of_true (fun y hy hge => ?_) fun y hy hdy => absurd hy (hnone y hdy ?_)
      · simp only [Bool.and_eq_true, decide_eq_true_eq] at hge
        have := hvalid y hy
        omega
      · rw [htop]
        exact hvalid y hy
    · have hlt : I.doc (I.doSeek query d) < invalidRowID := lt_of_le_of_ne hletop htop
      have hdoc := hmem hlt
      rw [if_neg htop]
      generalize I.doc (I.doSeek query d) = e at *
      rcases answer_of_covers (hcursor.mono hle) (hcovers e hdoc) with
        ⟨cursor', hanswer, hnot⟩ | ⟨cursor', id, hanswer, hcursor', hid, hseg, hthrough, hbefore⟩
      · -- the search ends
        rw [hanswer]
        dsimp only
        rw [hend _ _ rfl, eq_comm, List.filter_filter, filter_eq_nil_iff]
        simp only [Bool.and_eq_true, decide_eq_true_eq, not_and]
        refine ⟨fun h y hy hdy w hw hyw hwanted => absurd ?_ (h w hw hwanted),
            fun h w hw hwanted hew =>
          hnot (h e hdoc hle w hw hew hwanted)⟩
        have := not_lt.mp fun hlt => hnone y hdy hlt hy
        omega
      · rw [hanswer]
        dsimp only
        have hidlt := hthrough.lt
        split
        next heq =>
          -- the call returns, and the next one goes on behind the document
          subst heq
          obtain ⟨m, rfl⟩ := Nat.exists_eq_add_of_le' (show 1 ≤ m by omega)
          have hwanted := (wanted_iff id).mpr ⟨hthrough, hlast id hdoc hthrough⟩
          have hcall := ih (x := id) (m := m) (by omega) (Nat.lt_succ_self _) (by omega)
            (hcursor'.mono (Nat.le_succ id)) (hnext _ (Nat.lt_succ_self id) hidlt)
          rw [filter_le_eq_cons hdocs hdoc, filter_cons, if_pos (decide_eq_true hwanted),
            aheadFrom_iff hseeks (Nat.le_succ id) (le_refl _) hseg hthrough]
          refine Iff.trans (Eq.to_iff (congrArg (· = _)
            (hcons m ⟨I.doSeek query d, cursor', id⟩ (ne_of_lt hidlt)))) ?_
          rw [List.cons.injEq, and_iff_right rfl]
          exact hcall
        next hne =>
          -- the search goes on from the row
          have hlt' : e < id := lt_of_le_of_ne hid fun h => hne h.symm
          rw [filter_le_filter_eq hid fun y _ hge hlt hwanted =>
            hbefore y hge hlt ((wanted_iff y).mp hwanted).1,
            aheadFrom_iff hseeks hid (Nat.le_succ id) hseg hthrough]
          exact ih (by omega) (by omega) (by omega) hcursor' (hnext _ hlt' (le_of_lt hidlt))

end Calls

/-! ## Filtered search -/

theorem ready_zero (h : I.Tracks invalidRowID (· ∈ docs) (I.doSeek query 0) 0) :
    Ready I docs query 0 := by
  obtain ⟨q, hq, hto⟩ := h.doc
  exact ⟨h, Nat.le_zero.mp hq ▸ hto⟩

theorem mem_seekDocs (hquery : I.Tracks invalidRowID (· ∈ Q.docs) (I.doSeek query 0) 0) :
    F.seekDocs I query = Q.docs.filter F.LetsThrough := by
  have htracks := createFilter_tracks (F := F) hquery
  obtain ⟨q, hq, hto⟩ := htracks.doc
  obtain ⟨hsorted, hmem⟩ := htracks.collect (Nat.le_add_left _ _) (Nat.zero_le _)
  refine ascending_ext hsorted (Q.sorted.filter _) fun d => ?_
  rw [seekDocs, hmem, mem_filter, decide_eq_true_eq]
  refine ⟨fun h => h.2.2, fun h => ⟨?_, Q.valid d h.1, h⟩⟩
  by_contra hlt
  exact hto.none_between d (by omega) (by omega) h

/-- **Both iterators enumerate the documents of the query that are in the filter and visible**, over
a query whose documents are covered, exactly if no segment is exhausted before the last of them and
no document of the query that is let through is the row right behind those of its segment. -/
theorem filtered_iff_ahead (F : Filter) (I : Seeker) (Q : PostingList) (query : I.State)
    (hquery : I.Tracks invalidRowID (· ∈ Q.docs) (I.doSeek query 0) 0)
    (hcovers : ∀ d ∈ Q.docs, F.Covers d) :
    F.nextDocs I query = Q.docs.filter F.Wanted ∧ F.seekDocs I query = Q.docs.filter F.Wanted ↔
      F.AheadFrom Q.docs 0 ∧
        ∀ d ∈ Q.docs, F.LetsThrough d → offsetOf d ≠ F.rows (segmentOf d) := by
  have hseek : F.seekDocs I query = Q.docs.filter F.Wanted ↔
      ∀ d ∈ Q.docs, F.LetsThrough d → offsetOf d ≠ F.rows (segmentOf d) := by
    rw [mem_seekDocs hquery]
    constructor
    · intro h d hd hthrough
      have hmem : d ∈ Q.docs.filter F.Wanted := h ▸ mem_filter.mpr ⟨hd, decide_eq_true hthrough⟩
      exact ((wanted_iff d).mp (of_decide_eq_true (mem_filter.mp hmem).2)).2
    · intro h
      refine filter_congr fun d hd => decide_eq_decide.mpr ?_
      rw [wanted_iff]
      exact ⟨fun hthrough => ⟨hthrough, h d hd hthrough⟩, fun h => h.1⟩
  rw [hseek]
  refine and_congr_left fun hlast => ?_
  have hiff := collect_nextLoop_iff (F := F) (x := invalidRowID) (m := invalidRowID) Q.sorted
    Q.valid hcovers hlast (invalidRowID + 1) (by omega) (Nat.lt_succ_self _) (le_refl _)
    cursorAt_start (ready_zero hquery)
  simpa [nextDocs, nextSeeker] using hiff

/-! ## Where documents are lost -/

/-- A filter with the first row of each of two segments with two rows. -/
def firstRows : Filter where
  beginTs := 10
  segment _ := ⟨2, 2 ^ 64 - 1, fun _ => some ⟨1, 2, fun _ => 0⟩⟩
  entries := [(0, .offsets [0]), (1, .offsets [0])]
  ascending := by decide
  segment_lt := by decide
  rows_lt _ := by decide
  fits := by
    rintro e he
    simp only [List.mem_cons, List.not_mem_nil, or_false] at he
    rcases he with rfl | rfl
    · exact List.pairwise_singleton _ _
    · exact List.pairwise_singleton _ _
  committed _ _ _ := ⟨_, rfl, by decide⟩
  first_delete _ _ block offset h hne := by
    cases Option.some.inj h
    exact absurd rfl hne

/-- The first rows of the two segments. -/
def firstDocs : PostingList := ⟨[rowID 0 0, rowID 1 0], by decide, by decide⟩

/-- The second row of the first segment and the first row of the second one. -/
def crossingDocs : PostingList := ⟨[rowID 0 1, rowID 1 0], by decide, by decide⟩

/-- A query over the first rows finds both. -/
theorem filtered_iff_firstDocs :
    firstRows.nextDocs (termSeeker firstDocs) invalidRowID =
      firstDocs.docs.filter firstRows.Wanted ∧
      firstRows.seekDocs (termSeeker firstDocs) invalidRowID =
        firstDocs.docs.filter firstRows.Wanted := by
  have hthrough : ∀ d ∈ firstDocs.docs, firstRows.LetsThrough d := by decide
  refine (filtered_iff_ahead firstRows (termSeeker firstDocs) firstDocs invalidRowID
    (termSeeker_tracks firstDocs (Nat.zero_le _)) fun d hd => .inl ?_).mpr
      ⟨fun y hy _ _ _ _ _ => ⟨y, hthrough y hy, rfl, le_refl y⟩, by decide⟩
  revert d
  decide

/-- **The search ends in the first segment** although the filter contains the first row of the
second one: no row of the first segment is left from the second row on. -/
theorem nextDocs_exhausted_segment :
    firstRows.nextDocs (termSeeker crossingDocs) invalidRowID = [] ∧
      crossingDocs.docs.filter firstRows.Wanted = [rowID 1 0] ∧
      firstRows.seekDocs (termSeeker crossingDocs) invalidRowID = [rowID 1 0] := by
  refine ⟨?_, ?_, ?_⟩
  all_goals decide

end Filter

end Infinity.Search
