import Infinity.Search.FilterEntrySeek

/-! # Filtered full-text search

`FilterIterator<DocIterator>` joins a query iterator with the filter result: it moves the filter to
the first row it lets through from the document of the query on, and the query to that row, until
both stand on the same document. It lets through the rows of the filter that are not deleted, and
also the row right behind the rows of the transaction if it passes the checks.

* `Filter.wanted_iff`: how the rows that are let through differ from those of the filter.
-/

namespace Infinity.Search

open Foundations List SegmentSnapshot

namespace Filter

variable (F : Filter) {d k docId o x : ℕ} {c : Option Cursor}

/-! ## The rows that are let through -/

/-- The rows that the cursor stops at: those of the entries that are not deleted, up to the row
right behind the last one. -/
def LetsThrough (docId : ℕ) : Prop :=
  offsetOf docId ≤ F.rows (segmentOf docId) ∧ F.has docId = true ∧
    (F.segment (segmentOf docId)).accepts F.beginTs (offsetOf docId) = true

instance (docId : ℕ) : Decidable (F.LetsThrough docId) := inferInstanceAs (Decidable (_ ∧ _ ∧ _))

instance (docId : ℕ) : Decidable (F.Wanted docId) := inferInstanceAs (Decidable (_ ∧ _))

variable {F} {entry : FilterEntry}

/-- Among the rows of the transaction the filter lets through those that are in it and not
deleted. -/
theorem wanted_iff (docId : ℕ) : F.Wanted docId ↔ F.LetsThrough docId ∧
    offsetOf docId ≠ F.rows (segmentOf docId) := by
  have hmem : ∀ h : offsetOf docId < (F.segment (segmentOf docId)).segmentOffset,
      (F.segment (segmentOf docId)).visible F.beginTs (offsetOf docId) =
        (F.segment (segmentOf docId)).accepts F.beginTs (offsetOf docId) := by
    intro hlt
    obtain ⟨block, hblock, hcommit⟩ := F.committed _ _ hlt
    have hzero : (F.segment (segmentOf docId)).segmentOffset ≠ 0 := by omega
    unfold visible accepts deleteFilter checkRowVisible
    rw [hblock]
    simp only [hlt, decide_true, Bool.true_and, not_lt.mpr hcommit, if_false, hzero, decide_false,
      Bool.false_eq_true, false_and, le_of_lt hlt, true_and, Bool.decide_eq_true]
    cases hany : (F.segment (segmentOf docId)).checkAnyDelete F.beginTs with
    | true => rfl
    | false =>
      -- without a deletion before the transaction every row is visible
      have := F.first_delete (segmentOf docId) _ block (offsetOf docId % defaultBlockCapacity)
        hblock
      simp only [checkAnyDelete, decide_eq_false_iff_not] at hany
      simp only [Bool.not_false, Bool.true_or, decide_eq_true_eq]
      by_contra hdeleted
      exact hany (this (fun h => hdeleted (Or.inl h)) (not_lt.mp fun h => hdeleted (Or.inr h)))
  constructor
  · rintro ⟨hhas, hvisible⟩
    have hlt : offsetOf docId < (F.segment (segmentOf docId)).segmentOffset := by
      exact of_decide_eq_true (Bool.and_eq_true_iff.mp hvisible).1
    exact ⟨⟨le_of_lt hlt, hhas, hmem hlt ▸ hvisible⟩, ne_of_lt hlt⟩
  · rintro ⟨⟨hle, hhas, haccepts⟩, hne⟩
    have hlt := lt_of_le_of_ne hle hne
    exact ⟨hhas, (hmem hlt).trans haccepts⟩

theorem entry_eq_none (h : k ∉ F.entries.map Prod.fst) : F.entry k = none := by
  refine Option.map_eq_none_iff.mpr (find?_eq_none.mpr fun e he hk => h ?_)
  exact mem_map.mpr ⟨e, he, of_decide_eq_true hk⟩

theorem exists_entry (h : k ∈ F.entries.map Prod.fst) : ∃ entry, F.entry k = some entry := by
  obtain ⟨e, he, hk⟩ := mem_map.mp h
  cases hentry : F.entry k with
  | some entry => exact ⟨entry, rfl⟩
  | none =>
    exact absurd (decide_eq_true hk) (find?_eq_none.mp (Option.map_eq_none_iff.mp hentry) e he)

theorem LetsThrough.mem (h : F.LetsThrough docId) : segmentOf docId ∈ F.entries.map Prod.fst := by
  by_contra hnot
  have := h.2.1
  rw [has, entry_eq_none hnot] at this
  exact Bool.false_ne_true this

theorem letsThrough_rowID (hentry : F.entry k = some entry) (ho : o < 2 ^ 32) :
    F.LetsThrough (rowID k o) ↔ o ≤ F.rows k ∧ entry.has o ∧ (F.segment k).accepts F.beginTs o := by
  unfold LetsThrough has
  rw [segmentOf_rowID ho, offsetOf_rowID ho, hentry]

/-! ## Where the cursor stands -/

/-- The cursor has passed nothing from the document on: the segments before it end before the
document, and within its segment it can still find the rows from the document on. -/
def CursorAt (F : Filter) : Option Cursor → ℕ → Prop
  | none, docId => ∀ k ∈ F.entries.map Prod.fst, rowID k (F.rows k) < docId
  | some c, docId => c.segmentId ∈ F.entries.map Prod.fst ∧
      (∀ k ∈ F.entries.map Prod.fst, k < c.segmentId → rowID k (F.rows k) < docId) ∧
      F.PosFrom c docId

theorem CursorAt.mono {d' : ℕ} (h : F.CursorAt c d) (hd : d ≤ d') : F.CursorAt c d' := by
  cases c with
  | none => exact fun k hk => lt_of_lt_of_le (h k hk) hd
  | some c =>
    obtain ⟨hmem, hbefore, hpos⟩ := h
    refine ⟨hmem, fun k hk hlt => lt_of_lt_of_le (hbefore k hk hlt) hd,
      fun entry hentry o ho hle => ?_⟩
    exact hpos entry hentry o ho (le_trans hd hle)

theorem cursorAt_start : F.CursorAt F.start 0 := by
  unfold start
  cases hentries : F.entries with
  | nil =>
    intro k hk
    rw [hentries] at hk
    exact absurd hk not_mem_nil
  | cons e rest =>
    refine ⟨by simp [hentries], fun k hk hlt => ?_, fun entry _ o _ _ => entry.posOk_zero _ o⟩
    -- no segment stands before the first one
    have hsorted := F.ascending
    rw [hentries] at hk hsorted
    rcases mem_cons.mp hk with rfl | hk
    · exact absurd hlt (lt_irrefl _)
    · exact absurd (rel_of_pairwise_cons hsorted hk) (lt_asymm hlt)

/-- Without a segment ahead nothing is let through. -/
theorem CursorAt.not_letsThrough (h : F.CursorAt none d) (hx : d ≤ x) : ¬ F.LetsThrough x := by
  intro hthrough
  have hlt := h _ hthrough.mem
  have hle : x ≤ rowID (segmentOf x) (F.rows (segmentOf x)) :=
    (le_rowID_iff (rows_lt' _)).mpr (Or.inr ⟨rfl, hthrough.1⟩)
  omega

/-- `SelfBlockSkipTo` keeps what is ahead of the target. -/
theorem CursorAt.skipTo (h : F.CursorAt c d) :
    F.CursorAt (c.bind (F.skipTo · d)) d ∧ ∀ c' ∈ c.bind (F.skipTo · d), d ≤ F.blockLast c' := by
  cases c with
  | none => exact ⟨h, nofun⟩
  | some c =>
    obtain ⟨hmem, hbefore, hpos⟩ := h
    have hskip := skipTo_spec hmem d
    simp only [Option.bind_some]
    cases hr : F.skipTo c d with
    | none =>
      rw [hr] at hskip
      refine ⟨fun k hk => ?_, nofun⟩
      rcases lt_or_ge k c.segmentId with hlt | hge
      · exact hbefore k hk hlt
      · exact hskip k hk hge
    | some c' =>
      rw [hr] at hskip
      obtain ⟨hmem', hle, hbetween, hmoved⟩ := hskip
      refine ⟨⟨hmem', fun k hk hlt => ?_, ?_⟩, fun c'' hc'' => Option.some.inj hc'' ▸ hle⟩
      · rcases lt_or_ge k c.segmentId with hlt' | hge
        · exact hbefore k hk hlt'
        · exact hbetween k hk hge hlt
      · rcases hmoved with rfl | ⟨-, hzero⟩
        · exact hpos
        · intro entry _ o _ _
          rw [hzero]
          exact entry.posOk_zero _ o

/-- The offset at which a segment is entered: that of the target if the target is in the segment,
else zero. -/
theorem exists_max_rowID {rows : ℕ} (hrows : rows < 2 ^ 32) (hd : d ≤ rowID k rows) :
    ∃ o ≤ rows, max d (rowID k 0) = rowID k o ∧ ∀ x < 2 ^ 32, d ≤ rowID k x ↔ o ≤ x := by
  rcases (le_rowID_iff hrows).mp hd with hlt | ⟨heq, ho⟩
  · refine ⟨0, Nat.zero_le _, Nat.max_eq_right ?_, fun x hx =>
      ⟨fun _ => Nat.zero_le x, fun _ => ?_⟩⟩
    · exact (le_rowID_iff (Nat.two_pow_pos 32)).mpr (Or.inl hlt)
    · exact (le_rowID_iff hx).mpr (Or.inl hlt)
  · refine ⟨offsetOf d, ho, ?_, fun x hx => ?_⟩
    · rw [← heq, rowID_segmentOf]
      refine Nat.max_eq_left ?_
      conv_rhs => rw [← rowID_segmentOf d]
      exact rowID_zero_le (le_rfl)
    · rw [le_rowID_iff hx]
      omega

theorem rowID_sub (k a b : ℕ) : rowID k a + 1 - rowID k b = a + 1 - b := by
  unfold rowID
  omega

/-- What is let through from the document on, and is not behind the segment, is in the segment of
the cursor. -/
theorem CursorAt.segmentOf_eq {c : Cursor} (h : F.CursorAt (some c) d) (hx : d ≤ x)
    (hthrough : F.LetsThrough x) (ho : o < 2 ^ 32) (hle : x ≤ rowID c.segmentId o) :
    segmentOf x = c.segmentId := by
  have hend : x ≤ rowID (segmentOf x) (F.rows (segmentOf x)) :=
    (le_rowID_iff (rows_lt' _)).mpr (Or.inr ⟨rfl, hthrough.1⟩)
  have hge : c.segmentId ≤ segmentOf x := by
    by_contra hlt
    have := h.2.1 _ hthrough.mem (not_le.mp hlt)
    omega
  have := (le_rowID_iff ho).mp hle
  omega

/-- The cursor after a search that has come to an offset of its segment. -/
theorem CursorAt.moved {c : Cursor} {pos : ℕ} (h : F.CursorAt (some c) d)
    (hentry : F.entry c.segmentId = some entry) (hpos : entry.PosOk (F.rows c.segmentId) pos o)
    (hd : d ≤ rowID c.segmentId o) :
    F.CursorAt (some ⟨c.segmentId, pos⟩) (rowID c.segmentId o) := by
  refine ⟨h.1, (h.mono hd).2.1, fun entry' hentry' x hx hle => ?_⟩
  cases hentry.symm.trans hentry'
  exact hpos.mono (Nat.le_of_add_le_add_left hle)

/-- What a search within the segment of the cursor says about the rows that are let through. -/
theorem CursorAt.selfSeek {c : Cursor} (h : F.CursorAt (some c) d) (hd : d ≤ F.blockLast c) :
    ∃ pos r, F.selfSeek c (max d (rowID c.segmentId 0)) = (⟨c.segmentId, pos⟩, r) ∧ match r with
      | some id =>
        F.CursorAt (some ⟨c.segmentId, pos⟩) id ∧ segmentOf id = c.segmentId ∧ d ≤ id ∧
        F.LetsThrough id ∧
          ∀ x, d ≤ x → x < id → ¬ F.LetsThrough x
      | none => F.CursorAt (some ⟨c.segmentId, pos⟩) (F.blockLast c + 1) ∧
          ∀ x, d ≤ x → x < F.blockLast c + 1 → ¬ F.LetsThrough x := by
  obtain ⟨entry, hentry⟩ := exists_entry h.1
  obtain ⟨o, ho, hmax, hiff⟩ := exists_max_rowID (rows_lt' c.segmentId) hd
  have ho' : o < 2 ^ 32 := lt_of_le_of_lt ho (rows_lt' _)
  obtain ⟨pos, r, heq, hpos, hfirst⟩ :=
    selfSeekLoop_spec hentry rfl (F.blockLast c + 1 - rowID c.segmentId o)
    (by rw [blockLast, rowID_sub]; omega) (by omega)
      (h.2.2 entry hentry o ho' ((hiff o ho').mpr (le_refl o)))
  refine ⟨pos, r.map (rowID c.segmentId), ?_, ?_⟩
  · rw [hmax]
    exact heq
  -- a row before the one that the search has come to
  have hrow : ∀ {y}, y ≤ F.rows c.segmentId + 1 →
      (∀ x, o ≤ x → x < y → ¬ (entry.has x ∧ (F.segment c.segmentId).accepts F.beginTs x)) →
      ∀ x, d ≤ x → x < rowID c.segmentId y → ¬ F.LetsThrough x := by
    intro y hy hbefore x hx hlt hthrough
    have hle : x ≤ rowID c.segmentId (F.rows c.segmentId) :=
      Nat.le_of_lt_succ (lt_of_lt_of_le hlt (Nat.add_le_add_left hy _))
    have hxid : x = rowID c.segmentId (offsetOf x) := by
      rw [← h.segmentOf_eq hx hthrough (rows_lt' _) hle, rowID_segmentOf]
    have hxlt : offsetOf x < 2 ^ 32 := Nat.mod_lt _ (Nat.two_pow_pos 32)
    rw [hxid] at hx hlt hthrough
    exact hbefore _ ((hiff _ hxlt).mp hx) (Nat.lt_of_add_lt_add_left hlt)
      ((letsThrough_rowID hentry hxlt).mp hthrough).2
  cases r with
  | none =>
    refine ⟨h.moved hentry hpos (Nat.le_succ_of_le hd), hrow (le_rfl) fun x hx hlt => ?_⟩
    exact hfirst x hx (Nat.le_of_lt_succ hlt)
  | some y =>
    obtain ⟨hoy, hye, hy, hbefore⟩ := hfirst
    have hylt : y < 2 ^ 32 := lt_of_le_of_lt hye (rows_lt' _)
    have hdy : d ≤ rowID c.segmentId y := (hiff y hylt).mpr hoy
    exact ⟨h.moved hentry hpos hdy, segmentOf_rowID hylt, hdy,
      (letsThrough_rowID hentry hylt).mpr ⟨hye, hy⟩, hrow (Nat.le_succ_of_le hye) hbefore⟩

/-! ## `FilterIterator<DocIterator>` -/

variable (F)

/-- The loop of `SelfDoSeek`: the cursor and `doc_id_`. -/
def selfDoSeekLoop : ℕ → Option Cursor → ℕ → Option Cursor × ℕ
  | 0, c, _ => (c, invalidRowID)
  | fuel + 1, c, nextSkip =>
    match c.bind (F.skipTo · nextSkip) with
    | none => (none, invalidRowID)
    | some c =>
      match F.selfSeek c (max nextSkip (rowID c.segmentId 0)) with
      | (c, some id) => (some c, id)
      | (c, none) => selfDoSeekLoop fuel (some c) (F.blockLast c + 1)

variable {F} {fuel : ℕ}

theorem blockLast_lt (c : Cursor) (hc : c.segmentId ∈ F.entries.map Prod.fst) :
    F.blockLast c < invalidRowID := by
  obtain ⟨e, he, hk⟩ := mem_map.mp hc
  have hseg := F.segment_lt e he
  have hrows : F.rows c.segmentId < 2 ^ 32 - 1 := F.rows_lt c.segmentId
  unfold blockLast rowID invalidRowID
  omega

theorem LetsThrough.lt (h : F.LetsThrough docId) : docId < invalidRowID := by
  refine lt_of_le_of_lt ?_ (blockLast_lt ⟨segmentOf docId, 0⟩ h.mem)
  exact (le_rowID_iff (rows_lt' _)).mpr (Or.inr ⟨rfl, h.1⟩)

/-- **`SelfDoSeek` finds the first row that the filter lets through** from the target on. The fuel
counts the segments that do not end before the target. -/
theorem selfDoSeekLoop_spec (h : F.CursorAt c d) (hd : d ≤ invalidRowID)
    (hfuel : ((F.entries.map Prod.fst).filter fun k => d ≤ rowID k (F.rows k)).length < fuel) :
    SeeksTo invalidRowID F.LetsThrough d (F.selfDoSeekLoop fuel c d).2 ∧
      F.CursorAt (F.selfDoSeekLoop fuel c d).1 (F.selfDoSeekLoop fuel c d).2 := by
  induction fuel generalizing c d with
  | zero => exact absurd hfuel (Nat.not_lt_zero _)
  | succ fuel ih =>
    rw [selfDoSeekLoop]
    obtain ⟨hat, hlast⟩ := h.skipTo
    cases hskip : c.bind (F.skipTo · d) with
    | none =>
      rw [hskip] at hat
      refine ⟨⟨hd, le_rfl, fun h => absurd h (lt_irrefl _), fun x hx _ => hat.not_letsThrough hx⟩,
        ?_⟩
      exact hat.mono hd
    | some c' =>
      rw [hskip] at hat hlast
      have hle := hlast c' rfl
      obtain ⟨pos, r, heq, hr⟩ := hat.selfSeek hle
      dsimp only
      rw [heq]
      cases r with
      | some id =>
        obtain ⟨hat', -, hdid, hthrough, hnone⟩ := hr
        exact ⟨⟨hdid, le_of_lt hthrough.lt, fun _ => hthrough, hnone⟩, hat'⟩
      | none =>
        obtain ⟨hat', hnone⟩ := hr
        have hlt := blockLast_lt c' hat.1
        -- the segment of the cursor does not count any more
        have hfewer :
            ((F.entries.map Prod.fst).filter fun k =>
            F.blockLast c' + 1 ≤ rowID k (F.rows k)).length <
            ((F.entries.map Prod.fst).filter fun k => d ≤ rowID k (F.rows k)).length := by
          have hsub : ((F.entries.map Prod.fst).filter fun k =>
              F.blockLast c' + 1 ≤ rowID k (F.rows k)) =
              ((F.entries.map Prod.fst).filter fun k => d ≤ rowID k (F.rows k)).filter
                fun k => F.blockLast c' + 1 ≤ rowID k (F.rows k) := by
            rw [filter_filter]
            refine filter_congr fun k _ => ?_
            rw [← Bool.decide_and, decide_eq_decide]
            exact ⟨fun h => ⟨h, by omega⟩, fun h => h.1⟩
          rw [hsub]
          refine length_filter_lt_length_iff_exists.mpr ⟨c'.segmentId, ?_, ?_⟩
          · exact mem_filter.mpr ⟨hat.1, decide_eq_true hle⟩
          · simp only [decide_eq_true_eq]
            exact Nat.not_succ_le_self _
        obtain ⟨hseeks, hat''⟩ :=
          ih (c := some ⟨c'.segmentId, pos⟩) (d := F.blockLast c' + 1) hat' hlt (by omega)
        exact ⟨hseeks.skip (Nat.le_succ_of_le hle) hnone, hat''⟩

/-- The query iterator, the cursor and `doc_id_`. -/
structure FilterState (I : Seeker) where
  query : I.State
  cursor : Option Cursor
  docId : ℕ

variable (F) (I : Seeker)

/-- `SelfDoSeek`. -/
def selfDoSeek (s : FilterState I) (docId : ℕ) : FilterState I :=
  let (cursor, id) :=
    F.selfDoSeekLoop (F.entries.length + 1) s.cursor (max docId ((s.docId + 1) % 2 ^ 64))
  { s with cursor := cursor, docId := id }

/-- `FilterIterator<DocIterator>::DoSeek`. -/
def doSeekLoop : ℕ → FilterState I → ℕ → FilterState I
  | 0, s, _ => s
  | fuel + 1, s, docId =>
    let s := { s with query := I.seek s.query docId }
    let docId := I.doc s.query
    if docId = invalidRowID then { s with docId := invalidRowID }
    else
      let s := if s.docId < docId then F.selfDoSeek I s docId else s
      if s.docId = docId ∨ s.docId = invalidRowID then s else doSeekLoop fuel s s.docId

/-- `FilterIterator<DocIterator>`. -/
def filterSeeker : Seeker where
  State := FilterState I
  doc s := s.docId
  doSeek s docId := F.doSeekLoop I (invalidRowID - docId + 1) s docId

/-- The constructor of `FilterIterator<DocIterator>` over a query iterator. -/
def createFilter (query : I.State) : FilterState I :=
  (F.filterSeeker I).doSeek (F.selfDoSeek I ⟨I.doSeek query 0, F.start, invalidRowID⟩ 0) 0

/-- What a search with `FilterIterator<DocIterator>` enumerates. -/
def seekDocs (query : I.State) : List ℕ :=
  (F.filterSeeker I).collect invalidRowID invalidRowID (F.createFilter I query)

section Seeking

variable {F} {I} {Q : ℕ → Prop} {s : FilterState I}

theorem selfDoSeek_spec (hcursor : F.CursorAt s.cursor d)
    (htarget : max docId ((s.docId + 1) % 2 ^ 64) = d) (hd : d ≤ invalidRowID) :
    (F.selfDoSeek I s docId).query = s.query ∧
      SeeksTo invalidRowID F.LetsThrough d (F.selfDoSeek I s docId).docId ∧
      F.CursorAt (F.selfDoSeek I s docId).cursor (F.selfDoSeek I s docId).docId := by
  have hfuel : ((F.entries.map Prod.fst).filter fun k => d ≤ rowID k (F.rows k)).length <
      F.entries.length + 1 := by
    refine Nat.lt_succ_of_le (le_trans (length_filter_le _ _) ?_)
    rw [length_map]
  unfold selfDoSeek
  rw [htarget]
  exact ⟨rfl, selfDoSeekLoop_spec hcursor hd hfuel⟩

/-- The state of a filter iterator that has found a document: the query and the filter stand on
it. -/
def FilterState.Found (F : Filter) (Q : ℕ → Prop) (s : FilterState I) : Prop :=
  s.docId = invalidRowID ∨
    I.Tracks invalidRowID Q s.query s.docId ∧ F.LetsThrough s.docId ∧ F.CursorAt s.cursor s.docId

/-- One call leads to the next document of the query that is let through. -/
theorem doSeekLoop_spec {p q : ℕ} (hquery : I.Tracks invalidRowID Q s.query p) (hp : p ≤ d)
    (hfilter : SeeksTo invalidRowID F.LetsThrough q s.docId) (hq : q ≤ d)
    (hcursor : F.CursorAt s.cursor s.docId) (hd : d ≤ invalidRowID)
    (hfuel : invalidRowID - d < fuel) :
      SeeksTo invalidRowID (fun x => Q x ∧ F.LetsThrough x) d (F.doSeekLoop I fuel s d).docId ∧
      (F.doSeekLoop I fuel s d).Found F Q := by
  induction fuel generalizing s p q d with
  | zero => exact absurd hfuel (Nat.not_lt_zero _)
  | succ fuel ih =>
    rw [doSeekLoop]
    obtain ⟨hquery', hto⟩ := hquery.seek hp hd
    dsimp only
    split
    next htop =>
      -- the query is exhausted
      rw [htop] at hto
      refine ⟨⟨hd, le_rfl, fun h => absurd h (lt_irrefl _), fun x hx hlt h => ?_⟩, Or.inl rfl⟩
      exact hto.none_between x hx hlt h.1
    next htop =>
      generalize hdoc : I.doc (I.seek s.query d) = e at hto htop
      have hlt : e < invalidRowID := lt_of_le_of_ne hto.le_top htop
      generalize hs' : (if s.docId < e then F.selfDoSeek I { s with query := I.seek s.query d } e
        else { s with query := I.seek s.query d }) = s'
      -- the filter stands on the first row from the document of the query on
      have hmoved : s'.query = I.seek s.query d ∧ SeeksTo invalidRowID F.LetsThrough e s'.docId ∧
          F.CursorAt s'.cursor s'.docId := by
        rw [← hs']
        split
        next hbehind =>
          have htarget : max e ((s.docId + 1) % 2 ^ 64) = e := by
            omega
          exact selfDoSeek_spec (s :=
            { s with query := I.seek s.query d }) (hcursor.mono (le_of_lt hbehind)) htarget
            (le_of_lt hlt)
        next hahead =>
          have := hto.le
          exact ⟨rfl, hfilter.mono (by omega) (not_lt.mp hahead), hcursor⟩
      obtain ⟨hsame, hfilter', hcursor'⟩ := hmoved
      have hle := hto.le
      have hle' := hfilter'.le
      have htracks : I.Tracks invalidRowID Q s'.query s'.docId := by
        rw [hsame]
        exact hquery'.mono (by omega)
      have hnone : ∀ x, d ≤ x → x < s'.docId → ¬ (Q x ∧ F.LetsThrough x) := by
        rintro x hx hxlt ⟨hQ, hL⟩
        rcases lt_or_ge x e with hxe | hxe
        · exact hto.none_between x hx hxe hQ
        · exact hfilter'.none_between x hxe hxlt hL
      split
      next hstop =>
        have hmem : s'.docId < invalidRowID → Q s'.docId ∧ F.LetsThrough s'.docId := by
          intro hlt'
          refine ⟨?_, hfilter'.mem hlt'⟩
          rw [hstop.resolve_right (ne_of_lt hlt')]
          exact hto.mem hlt
        refine ⟨⟨by omega, hfilter'.le_top, hmem, hnone⟩, ?_⟩
        rcases lt_or_eq_of_le hfilter'.le_top with hlt' | heq
        · exact Or.inr ⟨htracks, hfilter'.mem hlt', hcursor'⟩
        · exact Or.inl heq
      next hgo =>
        obtain ⟨hseeks, hfound⟩ :=
          ih (s := s') htracks (le_rfl) hfilter' hle' hcursor' hfilter'.le_top (by omega)
        exact ⟨hseeks.skip (by omega) hnone, hfound⟩

/-- **`FilterIterator<DocIterator>` finds the documents that the filter lets through**, over a query
iterator that finds the documents `Q`. -/
theorem createFilter_tracks {query : I.State}
    (hquery : I.Tracks invalidRowID Q (I.doSeek query 0) 0) :
    (F.filterSeeker I).Tracks invalidRowID (fun x => Q x ∧ F.LetsThrough x) (F.createFilter I query)
    0 := by
  refine Seeker.Tracks.intro (R :=
    fun s p => (∃ q ≤ p, SeeksTo invalidRowID (fun x => Q x ∧ F.LetsThrough x) q s.docId) ∧
    s.Found F Q) ?_ (fun s p h => h.1) ?_
  · -- the constructor moves the query, the filter and both
    have htarget : max 0 ((invalidRowID + 1) % 2 ^ 64) = 0 := by decide
    obtain ⟨hsame, hfilter, hcursor⟩ :=
      selfDoSeek_spec (s := ⟨I.doSeek query 0, F.start, invalidRowID⟩) cursorAt_start htarget
        (Nat.zero_le _)
    obtain ⟨hto, hfound⟩ := doSeekLoop_spec hquery (le_refl 0) hfilter (le_refl 0)
      hcursor (Nat.zero_le _) (Nat.lt_succ_self _)
    exact ⟨⟨0, le_refl 0, hto⟩, hfound⟩
  · rintro s p ⟨-, hfound⟩ d hp hd hlt
    replace hlt : s.docId < d := hlt
    rcases hfound with htop | ⟨htracks, hthrough, hcursor⟩
    · omega
    · obtain ⟨hto, hfound⟩ := doSeekLoop_spec htracks (le_of_lt hlt)
        (.self hthrough.lt hthrough) (le_of_lt hlt) hcursor hd (Nat.lt_succ_self _)
      exact ⟨⟨⟨d, le_refl d, hto⟩, hfound⟩, hto⟩

end Seeking

end Filter

end Infinity.Search
