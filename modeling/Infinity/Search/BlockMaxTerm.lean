import Infinity.Search.BlockPosting

/-! # Term iterators with block bounds

`BlockMaxTermDocIterator` moves over the blocks whose bound does not exceed its threshold.
`NextShallow` moves the block only, and leaves the block undecoded and the document where it was;
`Next` moves to a document. A document is scored by reading the decoded block at the current place;
to score an undecoded block is undefined. -/

namespace Infinity.Search

open Foundations List PostingIterator

/-- `BlockMaxTermDocIterator`. The caches of scores and block bounds only save their computation. -/
structure TermIterator where
  posting : BlockPosting
  iter : PostingIterator
  docId : ℕ
  threshold : ℕ

namespace TermIterator

/-- The iterator before its first movement. -/
def create (posting : BlockPosting) : TermIterator :=
  ⟨posting, ⟨none, posting.blocks, none⟩, invalidRowID, 0⟩

/-- `BM25ScoreUpperBound`. -/
def upperBound (it : TermIterator) : ℕ := it.posting.upperBound

/-- `EarlyTerminateIterator::UpdateScoreThreshold`. -/
def updateScoreThreshold (it : TermIterator) (threshold : ℕ) : TermIterator :=
  { it with threshold := max it.threshold threshold }

/-- The loop of `NextShallow`. -/
def shallowLoop : ℕ → TermIterator → ℕ → TermIterator × Bool
  | 0, it, _ => ({ it with docId := invalidRowID }, false)
  | fuel + 1, it, docId =>
    match it.iter.skipTo docId with
    | (iter, false) => ({ it with iter := iter, docId := invalidRowID }, false)
    | (iter, true) =>
      if it.threshold < iter.blockMax then ({ it with iter := iter }, true)
      else shallowLoop fuel { it with iter := iter } (iter.blockLast + 1)

/-- `NextShallow`. -/
def nextShallow (it : TermIterator) (docId : ℕ) : TermIterator × Bool :=
  if it.upperBound < it.threshold then ({ it with docId := invalidRowID }, false)
  else shallowLoop (it.iter.remaining.length + 1) it docId

/-- The loop of `Next`. -/
def nextLoop : ℕ → TermIterator → ℕ → TermIterator
  | 0, it, _ => { it with docId := invalidRowID }
  | fuel + 1, it, docId =>
    match it.iter.seekDoc docId with
    | (iter, doc) =>
      if doc = invalidRowID then { it with iter := iter, docId := invalidRowID }
      else if it.threshold < iter.blockMax then { it with iter := iter, docId := doc }
      else nextLoop fuel { it with iter := iter, docId := doc } (iter.blockLast + 1)

/-- `Next`. It returns whether `doc_id_` is valid. -/
def next (it : TermIterator) (docId : ℕ) : TermIterator :=
  nextLoop (it.iter.remaining.length + 1) it docId

/-- `BM25Score`: undefined unless the block is decoded and the current document is that of the
iterator. -/
def bm25Score (it : TermIterator) : Option ℕ :=
  match it.iter.buffer with
  | some (e :: _) => if e.1 = it.docId then some e.2 else none
  | _ => none

/-- `SeekDoc` has read behind the end of a block. -/
def overran (it : TermIterator) : Bool := it.iter.buffer = some []

end TermIterator

/-! ## Moving a term iterator -/

namespace TermIterator

variable {it : TermIterator} {d : ℕ} {threshold : ℕ} {b : Block} {rest blocks : List Block}
  {tail : List (ℕ × ℕ)} {e : ℕ × ℕ} {fuel : ℕ}

/-- The blocks that a movement to `docId` drops: those that end before it or have a low bound. -/
def drops (threshold docId : ℕ) (b : Block) : Bool := b.last < docId ∨ b.blockMax ≤ threshold

theorem drops_of_last_lt {docId : ℕ} (b : Block) (h : decide (b.last < docId)) :
    drops threshold docId b :=
  decide_eq_true (.inl (of_decide_eq_true h))

theorem not_drops (hd : d ≤ b.last) (hhigh : threshold < b.blockMax) : ¬ drops threshold d b := by
  unfold drops
  rw [decide_eq_true_eq]
  omega

/-- What is kept of the blocks if the first that does not end before the target has a high bound. -/
theorem dropWhile_drops_of_high (hdrop : blocks.dropWhile (·.last < d) = b :: rest)
    (hhigh : threshold < b.blockMax) : blocks.dropWhile (drops threshold d) = b :: rest := by
  rw [← dropWhile_dropWhile_of_imp drops_of_last_lt, hdrop,
    dropWhile_cons_of_neg (not_drops (le_last_of_dropWhile hdrop) hhigh)]

/-- What is kept of the blocks after a turn that found `b` with a low bound: behind it the target
does not matter. -/
theorem remaining_turn (hasc : Ascending blocks)
    (hdrop : blocks.dropWhile (·.last < d) = b :: rest) (hlow : b.blockMax ≤ threshold) :
      Ascending (b :: rest) ∧
      (b :: rest).dropWhile (drops threshold (b.last + 1)) = blocks.dropWhile (drops threshold d) ∧
      blocks.dropWhile (drops threshold d) <:+ rest ∧
      ((b :: rest).dropWhile (·.last < b.last + 1)).length < (b :: rest).length := by
  have hasc' : Ascending (b :: rest) := hasc.sublist (hdrop ▸ (dropWhile_suffix _).sublist)
  have hlast := le_last_of_dropWhile hdrop
  have hkept : blocks.dropWhile (drops threshold d) = rest.dropWhile (drops threshold d) := by
    rw [← dropWhile_dropWhile_of_imp drops_of_last_lt, hdrop,
      dropWhile_cons_of_pos (by simp [drops, hlow])]
  rw [hkept, dropWhile_cons_of_pos (by simp [drops]), dropWhile_cons_of_pos (by simp)]
  refine ⟨hasc', dropWhile_congr fun b' hb' => ?_, dropWhile_suffix _,
    Nat.lt_succ_of_le (dropWhile_suffix _).length_le⟩
  have hlt := hasc'.last_lt hb'
  unfold drops
  rw [decide_eq_decide]
  omega

theorem shallowLoop_spec (it : TermIterator) (hd : it.posting.Locates d)
    (hrem : it.iter.remaining <:+ it.posting.blocks)
    (hfuel : (it.iter.remaining.dropWhile (·.last < d)).length < fuel) :
    match it.iter.remaining.dropWhile (drops it.threshold d) with
    | [] =>
      it.shallowLoop fuel d = ({ it with iter := ⟨none, [], none⟩, docId := invalidRowID }, false)
    | b :: rest =>
        ∃ buffer, it.shallowLoop fuel d = ({ it with iter := ⟨some b, rest, buffer⟩ }, true) ∧
        (it.iter = ⟨some b, rest, buffer⟩ ∨ buffer = none) := by
  induction fuel generalizing it d with
  | zero => exact absurd hfuel (Nat.not_lt_zero _)
  | succ fuel ih =>
    have hskip := skipTo_spec hd hrem
    have hasc : Ascending it.iter.remaining := it.posting.ascending.sublist hrem.sublist
    rw [shallowLoop]
    cases hdrop : it.iter.remaining.dropWhile (·.last < d) with
    | nil =>
      rw [hdrop] at hskip
      rw [← dropWhile_dropWhile_of_imp drops_of_last_lt, hdrop]
      rw [hskip]
      rfl
    | cons b rest =>
      rw [hdrop] at hskip hfuel
      obtain ⟨buffer, heq, hbuffer⟩ := hskip
      rw [heq]
      dsimp only
      by_cases hhigh : it.threshold < b.blockMax
      · -- the block stays
        rw [dropWhile_drops_of_high hdrop hhigh]
        exact ⟨buffer, if_pos hhigh, hbuffer⟩
      · have hlow := not_lt.mp hhigh
        obtain ⟨hasc', hsame, hsuffix, hless⟩ := remaining_turn hasc hdrop hlow
        have hblocks : b :: rest <:+ it.posting.blocks := hdrop ▸ (dropWhile_suffix _).trans hrem
        have hrest := ih { it with iter := ⟨some b, rest, buffer⟩ } (d := b.last + 1)
          (BlockPosting.locates_succ_last (hblocks.subset mem_cons_self)) hblocks (by
            rw [remaining_mk]
            omega)
        rw [remaining_mk] at hrest
        rw [hsame] at hrest
        rw [show (if it.threshold < (PostingIterator.mk (some b) rest buffer).blockMax then _
          else _) = _ from if_neg hhigh]
        cases hkept : it.iter.remaining.dropWhile (drops it.threshold d) with
        | nil =>
          rw [hkept] at hrest
          exact hrest
        | cons b' rest' =>
          rw [hkept] at hrest
          obtain ⟨buffer', heq', hbuffer'⟩ := hrest
          refine ⟨buffer', heq', .inr (hbuffer'.resolve_left fun hmk => ?_)⟩
          -- the block with the low bound was left
          cases hmk
          rw [hkept] at hsuffix
          exact absurd hsuffix.length_le (Nat.not_succ_le_self _)

/-- The first entry of a block from a target on. -/
theorem entry_of_dropWhile (h : b.entries.dropWhile (·.1 < d) = e :: tail) :
    (e :: tail) <:+ b.entries ∧ d ≤ e.1 ∧ ∀ e' ∈ b.entries, d ≤ e'.1 → e.1 ≤ e'.1 := by
  have hsuffix : (e :: tail) <:+ b.entries := h ▸ dropWhile_suffix _
  refine ⟨hsuffix, ?_, fun e' he' hd => ?_⟩
  · have := head?_dropWhile_not (fun e : ℕ × ℕ => decide (e.1 < d)) b.entries
    rw [h] at this
    simpa using this
  · have hmem : e' ∈ e :: tail := h ▸ mem_dropWhile_of_not he' (by simpa using hd)
    rcases mem_cons.mp hmem with rfl | hmem
    · exact le_rfl
    · exact (rel_of_pairwise_cons (b.ascending.sublist hsuffix.sublist) hmem).le

/-- The iterator that has found an entry of one of the blocks ahead. -/
theorem ok_found {iter : PostingIterator} {posting : BlockPosting}
    (hok : iter.Ok posting) (hrest : (b :: rest) <:+ iter.remaining)
    (hsuffix : (e :: tail) <:+ b.entries) :
    (PostingIterator.mk (some b) rest (some (e :: tail))).Ok posting ∧ e.1 ≤ b.last ∧
    e.1 < invalidRowID := by
  have hblocks := hrest.trans hok.suffix
  have hlast : e.1 ≤ b.last := Block.le_last (hsuffix.subset mem_cons_self)
  refine ⟨⟨hblocks, fun buffer hbuffer => ?_⟩, hlast, ?_⟩
  · cases hbuffer
    exact ⟨cons_ne_nil _ _, b, rfl, hsuffix⟩
  · exact hlast.trans_lt (posting.valid b (hblocks.subset mem_cons_self))

theorem nextLoop_spec (fuel : ℕ) (it : TermIterator) (hd : it.posting.Locates d)
    (hok : it.iter.Ok it.posting) (hbefore : ∀ row, it.iter.currentRowID = some row → row < d)
    (hfuel : (it.iter.remaining.dropWhile (·.last < d)).length < fuel) :
    match it.iter.remaining.dropWhile (drops it.threshold d) with
    | [] => it.nextLoop fuel d = { it with iter := ⟨none, [], none⟩, docId := invalidRowID }
    | b :: rest =>
        ∃ e tail, it.nextLoop fuel d =
          { it with iter := ⟨some b, rest, some (e :: tail)⟩, docId := e.1 } ∧
        (e :: tail) <:+ b.entries ∧ d ≤ e.1 ∧ ∀ e' ∈ b.entries, d ≤ e'.1 → e.1 ≤ e'.1 := by
  induction fuel generalizing it d with
  | zero => exact absurd hfuel (Nat.not_lt_zero _)
  | succ fuel ih =>
    have hseek := seekDoc_spec hd hok hbefore
    have hasc := hok.ascending
    rw [nextLoop]
    cases hdrop : it.iter.remaining.dropWhile (·.last < d) with
    | nil =>
      rw [hdrop] at hseek
      rw [← dropWhile_dropWhile_of_imp drops_of_last_lt, hdrop]
      rw [hseek]
      exact if_pos rfl
    | cons b rest =>
      rw [hdrop] at hseek hfuel
      obtain ⟨e, tail, hentries, heq⟩ := hseek
      obtain ⟨hsuffix, hde, hleast⟩ := entry_of_dropWhile hentries
      obtain ⟨hok', helast, hvalid⟩ := ok_found hok (hdrop ▸ dropWhile_suffix _) hsuffix
      rw [heq]
      dsimp only
      rw [if_neg hvalid.ne]
      by_cases hhigh : it.threshold < b.blockMax
      · -- the block stays
        rw [dropWhile_drops_of_high hdrop hhigh]
        exact ⟨e, tail, if_pos hhigh, hsuffix, hde, hleast⟩
      · have hlow := not_lt.mp hhigh
        obtain ⟨hasc', hsame, hrest', hless⟩ := remaining_turn hasc hdrop hlow
        have hrest := ih { it with iter := ⟨some b, rest, some (e :: tail)⟩, docId := e.1 } (d :=
          b.last + 1) (BlockPosting.locates_succ_last (hok'.suffix.subset mem_cons_self)) hok'
          (fun row hrow => Option.some.inj hrow ▸ Nat.lt_succ_of_le helast) (by
            rw [remaining_mk]
            omega)
        rw [remaining_mk] at hrest
        rw [hsame] at hrest
        rw [show (if it.threshold < (PostingIterator.mk (some b) rest (some (e :: tail))).blockMax
            then _ else _) = _ from
          if_neg hhigh]
        cases hkept : it.iter.remaining.dropWhile (drops it.threshold d) with
        | nil =>
          rw [hkept] at hrest
          exact hrest
        | cons b' rest' =>
          rw [hkept] at hrest
          obtain ⟨e', tail', heq', hsuffix', hde', hleast'⟩ := hrest
          refine ⟨e', tail', heq', hsuffix', by omega, fun e'' he'' _ => hleast' e'' he'' ?_⟩
          -- the documents of a later block are behind the block that was left
          exact rel_of_pairwise_cons hasc' (hrest'.subset (hkept ▸ mem_cons_self)) e'' he''

/-! ## What a movement keeps -/

/-- The block cursor is consistent, and it has not read beyond the document of the iterator. -/
structure Ok (it : TermIterator) : Prop where
  iter : it.iter.Ok it.posting
  read : ∀ row, it.iter.currentRowID = some row → row ≤ it.docId

theorem ok_create (posting : BlockPosting) : (create posting).Ok := ⟨⟨suffix_refl _, nofun⟩, nofun⟩

/-- The iterator stands on its document: the block is decoded there, and its bound exceeds the
threshold. -/
def Stands (it : TermIterator) : Prop :=
  ∃ b rest e tail, it.iter = ⟨some b, rest, some (e :: tail)⟩ ∧ e.1 = it.docId ∧
    it.threshold < b.blockMax

/-- What `NextShallow` does. -/
structure MovesShallow (it : TermIterator) (d : ℕ) (r : TermIterator × Bool) : Prop where
  posting : r.1.posting = it.posting
  threshold : r.1.threshold = it.threshold
  ok : r.1.Ok
  docId : r.1.docId = if r.2 then it.docId else invalidRowID
  block : r.2 = true → ∃ b ∈ r.1.iter.current, d ≤ b.last ∧ it.threshold < b.blockMax
  suffix : r.1.iter.remaining <:+ it.iter.remaining
  exhausted : it.threshold ≤ it.upperBound → r.2 = false → r.1.iter.currentRowID = none
  stays : it.Stands → d = it.docId → it.threshold ≤ it.upperBound → r = (it, true)
  keeps : it.threshold ≤ it.upperBound → ∀ b ∈ it.iter.remaining, d ≤ b.last →
    it.threshold < b.blockMax → r.2 = true ∧ b ∈ r.1.iter.remaining

/-- What `Next` does. -/
structure Moves (it : TermIterator) (d : ℕ) (it' : TermIterator) : Prop where
  posting : it'.posting = it.posting
  threshold : it'.threshold = it.threshold
  ok : it'.Ok
  le : d ≤ it'.docId
  le_top : it'.docId ≤ invalidRowID
  stands : it'.docId = invalidRowID ∨ it'.Stands
  keeps : ∀ b ∈ it.iter.remaining, ∀ e ∈ b.entries, d ≤ e.1 → it.threshold < b.blockMax →
    b ∈ it'.iter.remaining ∧ it'.docId ≤ e.1

theorem head_not_drops
    (h : blocks.dropWhile (drops threshold d) = b :: rest) :
    d ≤ b.last ∧ threshold < b.blockMax := by
  have := head?_dropWhile_not (drops threshold d) blocks
  rw [h] at this
  simp only [head?_cons, drops, decide_eq_false_iff_not] at this
  omega

theorem Ok.read_lt (hok : it.Ok) {row : ℕ} (hrow : it.iter.currentRowID = some row) :
    row < invalidRowID := by
  unfold currentRowID at hrow
  split at hrow
  next e buffer hbuffer =>
    obtain ⟨-, b, hb, hsuffix⟩ := hok.iter.decoded _ hbuffer
    cases hrow
    have hmem : b ∈ it.iter.remaining := by
      unfold remaining
      rw [hb]
      exact mem_cons_self
    refine (Block.le_last (hsuffix.subset mem_cons_self)).trans_lt ?_
    exact it.posting.valid b (hok.iter.suffix.subset hmem)
  · cases hrow

/-- An iterator that stands on the target is not moved. -/
theorem Stands.nextShallow (hstands : it.Stands) (hok : it.Ok)
    (hub : it.threshold ≤ it.upperBound) : it.nextShallow it.docId = (it, true) := by
  obtain ⟨b, rest, e, tail, hiter, he, hhigh⟩ := hstands
  obtain ⟨-, b', hb', hsuffix⟩ := hok.iter.decoded (e :: tail) (by rw [hiter])
  rw [hiter] at hb'
  cases hb'
  have hlast : it.docId ≤ b.last := he ▸ Block.le_last (hsuffix.subset mem_cons_self)
  have hskip : it.iter.skipTo it.docId = (it.iter, true) := by
    rw [hiter]
    exact if_pos hlast
  have hmax : it.threshold < it.iter.blockMax := by
    rw [hiter]
    exact hhigh
  unfold TermIterator.nextShallow
  rw [if_neg (not_lt.mpr hub), shallowLoop, hskip]
  exact if_pos hmax

/-- **`NextShallow` drops the blocks that end before the target or have a low bound.** -/
theorem nextShallow_spec (hok : it.Ok) (hd : it.posting.Locates d) :
    MovesShallow it d (it.nextShallow d) := by
  have hstays : it.Stands → d = it.docId → it.threshold ≤ it.upperBound →
      it.nextShallow d = (it, true) := by
    rintro hstands rfl hub
    exact hstands.nextShallow hok hub
  by_cases hub : it.upperBound < it.threshold
  · have heq : it.nextShallow d = ({ it with docId := invalidRowID }, false) := if_pos hub
    rw [heq] at hstays ⊢
    exact ⟨rfl, rfl, ⟨hok.iter, fun row hrow => (hok.read_lt hrow).le⟩, rfl, nofun, suffix_refl _,
      fun h => absurd hub (not_lt.mpr h), hstays, fun h => absurd hub (not_lt.mpr h)⟩
  · have heq : it.nextShallow d = it.shallowLoop (it.iter.remaining.length + 1) d := if_neg hub
    have hspec := shallowLoop_spec it hd hok.iter.suffix
      (Nat.lt_succ_of_le (dropWhile_suffix _).length_le)
    rw [← heq] at hspec
    cases hkept : it.iter.remaining.dropWhile (drops it.threshold d) with
    | nil =>
      rw [hkept] at hspec
      rw [hspec] at hstays ⊢
      refine ⟨rfl, rfl, ⟨⟨nil_suffix, nofun⟩, nofun⟩, rfl, nofun, nil_suffix, fun _ _ =>
        rfl, hstays, fun _ b hb hd hhigh => ?_⟩
      exact absurd (dropWhile_eq_nil_iff.mp hkept b hb) (not_drops hd hhigh)
    | cons b rest =>
      rw [hkept] at hspec
      obtain ⟨buffer, hspec, hbuffer⟩ := hspec
      rw [hspec] at hstays ⊢
      have hsuffix : (b :: rest) <:+ it.iter.remaining := hkept ▸ dropWhile_suffix _
      refine ⟨rfl, rfl, ?_, rfl, fun _ => ⟨b, rfl, head_not_drops hkept⟩, hsuffix, nofun, hstays,
        fun _ b' hb' hd hhigh => ⟨rfl, ?_⟩⟩
      · rcases hbuffer with hsame | rfl
        · exact ⟨hsame ▸ hok.iter, hsame ▸ hok.read⟩
        · exact ⟨⟨hsuffix.trans hok.iter.suffix, nofun⟩, nofun⟩
      · have := mem_dropWhile_of_not hb' (not_drops hd hhigh)
        rw [hkept] at this
        exact this

/-- **`Next` drops the same blocks and stands on the first document from the target on.** -/
theorem next_spec (hok : it.Ok) (hloc : it.posting.Locates d)
    (hbefore : ∀ row, it.iter.currentRowID = some row → row < d) (hd : d ≤ invalidRowID) :
    Moves it d (it.next d) := by
  have hspec := nextLoop_spec (it.iter.remaining.length + 1) it hloc hok.iter hbefore
    (Nat.lt_succ_of_le (dropWhile_suffix _).length_le)
  change match it.iter.remaining.dropWhile (drops it.threshold d) with
    | [] => it.next d = _
    | b :: rest => ∃ e tail, it.next d = _ ∧ _ at hspec
  cases hkept : it.iter.remaining.dropWhile (drops it.threshold d) with
  | nil =>
    rw [hkept] at hspec
    rw [hspec]
    refine ⟨rfl, rfl, ⟨⟨nil_suffix, nofun⟩, nofun⟩, hd, le_rfl, .inl rfl,
      fun b hb e he hde hhigh => ?_⟩
    exact absurd (dropWhile_eq_nil_iff.mp hkept b hb)
      (not_drops (hde.trans (Block.le_last he)) hhigh)
  | cons b rest =>
    rw [hkept] at hspec
    obtain ⟨e, tail, hspec, hsuffix, hde, hleast⟩ := hspec
    rw [hspec]
    have hremaining : (b :: rest) <:+ it.iter.remaining := hkept ▸ dropWhile_suffix _
    obtain ⟨hok', helast, hvalid⟩ := ok_found hok.iter hremaining hsuffix
    refine ⟨rfl, rfl, ⟨hok', fun row hrow => ?_⟩, hde, hvalid.le,
      .inr ⟨b, rest, e, tail, rfl, rfl, (head_not_drops hkept).2⟩,
      fun b' hb' e' he' hde' hhigh => ?_⟩
    · cases hrow
      exact le_rfl
    · have hmem : b' ∈ b :: rest := by
        have := mem_dropWhile_of_not hb' (not_drops (hde'.trans (Block.le_last he')) hhigh)
        rw [hkept] at this
        exact this
      refine ⟨hmem, ?_⟩
      rcases mem_cons.mp hmem with rfl | hmem'
      · exact hleast e' he' hde'
      · have hasc : Ascending (b :: rest) := hok.iter.ascending.sublist hremaining.sublist
        exact (helast.trans_lt (rel_of_pairwise_cons hasc hmem' e' he')).le

theorem Ok.overran (hok : it.Ok) : it.overran = false :=
  decide_eq_false fun hnil => (hok.iter.decoded [] hnil).1 rfl

/-- The document of an iterator that stands is one of its list. -/
theorem Stands.mem (hstands : it.Stands) (hok : it.Ok) :
    ∃ b ∈ it.posting.blocks, ∃ e ∈ b.entries, e.1 = it.docId := by
  obtain ⟨b, rest, e, tail, hiter, he, -⟩ := hstands
  obtain ⟨-, b', hb', hsuffix⟩ := hok.iter.decoded (e :: tail) (by rw [hiter])
  have hremaining := hok.iter.suffix
  rw [hiter] at hb' hremaining
  cases hb'
  exact ⟨b, hremaining.subset mem_cons_self, e, hsuffix.subset mem_cons_self, he⟩

/-- An iterator that stands on its document has a score for it. -/
theorem Stands.bm25Score (hstands : it.Stands) (hok : it.Ok) :
    it.bm25Score = some (it.posting.score it.docId) := by
  obtain ⟨b, rest, e, tail, hiter, he, -⟩ := hstands
  obtain ⟨-, b', hb', hsuffix⟩ := hok.iter.decoded (e :: tail) (by rw [hiter])
  have hremaining := hok.iter.suffix
  rw [hiter] at hb' hremaining
  cases hb'
  have hscore : it.posting.score e.1 = e.2 :=
    scoreIn_of_mem it.posting.ascending (hremaining.subset mem_cons_self)
      (hsuffix.subset mem_cons_self)
  unfold TermIterator.bm25Score
  rw [hiter, ← he, hscore]
  exact if_pos rfl

end TermIterator

end Infinity.Search
