import Infinity.Search.DocIterator

/-! # Posting lists in blocks

The posting list of a term is cut into blocks. The skip list gives the last document of each block
and a bound on the scores in it without decoding the block. `PostingIterator` keeps the current
block and, once that is decoded, the place in it. Scores are natural numbers.

The blocks come in chunks. Within a chunk the skip list is searched with the distance of the target
to the base row id of the chunk, and that distance is cut off at 32 bits: a target in a later
segment can stop the search at a block that ends before it.

* `BlockPosting.Locates`: the targets for which the distance that is cut off makes no difference.
* `PostingIterator.seekDoc_spec`: the document that `SeekDoc` finds for such a target.
-/

namespace Infinity.Search

open Foundations List Option

/-! ## Blocks -/

/-- A block: the base row id of its chunk, its documents with their scores, and the bound that the
skip list gives. A chunk lies in one segment. -/
structure Block where
  base : ℕ
  entries : List (ℕ × ℕ)
  blockMax : ℕ
  nonempty : entries ≠ []
  ascending : entries.Pairwise fun e e' => e.1 < e'.1
  bound : ∀ e ∈ entries, e.2 ≤ blockMax
  base_le : ∀ e ∈ entries, base ≤ e.1
  in_segment : ∀ e ∈ entries, e.1 + 1 < (base / 2 ^ 32 + 1) * 2 ^ 32

/-- The last document of a block. -/
def Block.last (b : Block) : ℕ := (b.entries.getLast b.nonempty).1

theorem Block.le_last {b : Block} {e : ℕ × ℕ} (he : e ∈ b.entries) : e.1 ≤ b.last := by
  unfold last
  have hsplit := dropLast_append_getLast b.nonempty
  rw [← hsplit] at he
  rcases mem_append.mp he with he | he
  · have hasc := b.ascending
    rw [← hsplit] at hasc
    exact ((pairwise_append.mp hasc).2.2 e he _ (mem_singleton_self _)).le
  · rw [mem_singleton.mp he]

theorem Block.last_mem (b : Block) : b.entries.getLast b.nonempty ∈ b.entries :=
  getLast_mem b.nonempty

theorem Block.base_le_last (b : Block) : b.base ≤ b.last := b.base_le _ b.last_mem

/-- The documents of each block are behind those of the blocks before it. -/
def Ascending (blocks : List Block) : Prop :=
  blocks.Pairwise fun b b' => ∀ e ∈ b'.entries, b.last < e.1

/-- The posting list of a term: its blocks and the bound on all its scores. -/
structure BlockPosting where
  blocks : List Block
  upperBound : ℕ
  ascending : Ascending blocks
  bound : ∀ b ∈ blocks, ∀ e ∈ b.entries, e.2 ≤ upperBound
  valid : ∀ b ∈ blocks, b.last < invalidRowID
  chunks : blocks.Pairwise fun b b' => b.base = b'.base ∨ b.last < b'.base

/-- The score that the blocks give to a document. -/
def scoreIn (blocks : List Block) (docId : ℕ) : ℕ :=
  match (blocks.flatMap Block.entries).find? (·.1 = docId) with
  | some e => e.2
  | none => 0

@[inherit_doc scoreIn]
def BlockPosting.score (l : BlockPosting) (docId : ℕ) : ℕ := scoreIn l.blocks docId

variable {b : Block} {blocks rest : List Block}

theorem pairwise_entries (h : Ascending blocks) :
    (blocks.flatMap Block.entries).Pairwise fun e e' => e.1 < e'.1 := by
  refine pairwise_flatMap.mpr ⟨fun b _ => b.ascending, h.imp fun hbb' e he e' he' => ?_⟩
  exact (Block.le_last he).trans_lt (hbb' e' he')

/-- A document has the score of its entry. -/
theorem scoreIn_of_mem (h : Ascending blocks) {e : ℕ × ℕ} (hb : b ∈ blocks)
    (he : e ∈ b.entries) : scoreIn blocks e.1 = e.2 := by
  have hmem : e ∈ blocks.flatMap Block.entries := mem_flatMap.mpr ⟨b, hb, he⟩
  have hnodup : ((blocks.flatMap Block.entries).map Prod.fst).Nodup :=
    pairwise_map.mpr ((pairwise_entries h).imp ne_of_lt)
  unfold scoreIn
  cases hfind : (blocks.flatMap Block.entries).find? (·.1 = e.1) with
  | none => exact absurd (decide_eq_true rfl) (find?_eq_none.mp hfind e hmem)
  | some e' =>
    have hfst := find?_some hfind
    rw [decide_eq_true_eq] at hfst
    exact congrArg Prod.snd (inj_on_of_nodup_map hnodup (mem_of_find?_eq_some hfind) hmem hfst)

/-- A document with a score has an entry. -/
theorem exists_entry_of_scoreIn_pos {x : ℕ} (h : 0 < scoreIn blocks x) :
    ∃ b ∈ blocks, ∃ e ∈ b.entries, e.1 = x ∧ e.2 = scoreIn blocks x := by
  unfold scoreIn at h ⊢
  cases hfind : (blocks.flatMap Block.entries).find? (·.1 = x) with
  | none =>
    rw [hfind] at h
    exact absurd h (lt_irrefl 0)
  | some e =>
    obtain ⟨b, hb, he⟩ := mem_flatMap.mp (mem_of_find?_eq_some hfind)
    have hfst := find?_some hfind
    rw [decide_eq_true_eq] at hfst
    exact ⟨b, hb, e, he, hfst, rfl⟩

theorem le_of_pos_imp {m n : ℕ} (h : 0 < m → m ≤ n) : m ≤ n := by
  rcases Nat.eq_zero_or_pos m with rfl | hpos
  · exact Nat.zero_le n
  · exact h hpos

theorem BlockPosting.score_le (l : BlockPosting) (x : ℕ) : l.score x ≤ l.upperBound := by
  refine le_of_pos_imp fun hpos => ?_
  obtain ⟨b, hb, e, he, -, hscore⟩ := exists_entry_of_scoreIn_pos hpos
  exact (hscore.ge).trans (l.bound b hb e he)

/-! ## The distance to the base -/

/-- `cur_seg_doc_id` of `SkipInOneSegment`: `RowID::operator-` is a `uint32_t`. -/
def Block.docIdInChunk (b : Block) (docId : ℕ) : ℕ :=
  if b.base ≤ docId then (docId - b.base) % 2 ^ 32 else 0

/-- Whether a search passes a block, with the blocks `ahead` behind it: a later chunk begins at the
target or before it, or the skip list says that the block ends before the target. -/
def Block.passed (b : Block) (ahead : List Block) (docId : ℕ) : Bool :=
  ahead.any (fun b' => b.base < b'.base ∧ b'.base ≤ docId) || b.last - b.base < b.docIdInChunk docId

/-- A search for the target passes every block of the list that ends before it. -/
def BlockPosting.Locates (l : BlockPosting) (d : ℕ) : Prop :=
  ∀ b ∈ l.blocks, b.last < d → b.passed l.blocks d

instance (l : BlockPosting) (d : ℕ) : Decidable (l.Locates d) := List.decidableBAll ..

namespace BlockPosting

variable {l : BlockPosting} {d : ℕ}

theorem base_le_of_suffix (h : b :: rest <:+ l.blocks) {b' : Block} (hb' : b' ∈ l.blocks)
    (hlt : b.base < b'.base) : b' ∈ rest := by
  obtain ⟨before, hblocks⟩ := h
  have hchunks := l.chunks
  rw [← hblocks] at hb' hchunks
  rcases mem_append.mp hb' with hb' | hb'
  · have hbase := b'.base_le_last
    rcases (pairwise_append.mp hchunks).2.2 b' hb' b mem_cons_self with heq | hlast <;> omega
  · rcases mem_cons.mp hb' with rfl | hb'
    · exact absurd hlt (lt_irrefl _)
    · exact hb'

/-- What is passed are the blocks that end before the target. -/
theorem Locates.passed_iff (h : l.Locates d) (hsuffix : b :: rest <:+ l.blocks) :
    b.passed rest d = decide (b.last < d) := by
  refine Bool.eq_iff_iff.mpr ⟨fun hpassed => decide_eq_true ?_, fun hlast => ?_⟩
  · rcases Bool.or_eq_true_iff.mp hpassed with hnext | hskip
    · obtain ⟨b', hb', hlt⟩ := any_eq_true.mp hnext
      obtain ⟨hbase, hle⟩ := of_decide_eq_true hlt
      rcases rel_of_pairwise_cons (l.chunks.sublist hsuffix.sublist) hb' with heq | hlast <;> omega
    · have hskip := of_decide_eq_true hskip
      have hbase := b.base_le_last
      unfold Block.docIdInChunk at hskip
      split at hskip
      · have := Nat.mod_le (d - b.base) (2 ^ 32)
        omega
      · omega
  · rcases Bool.or_eq_true_iff.mp
      (h b (hsuffix.subset mem_cons_self) (of_decide_eq_true hlast)) with hnext | hskip
    · obtain ⟨b', hb', hlt⟩ := any_eq_true.mp hnext
      have hmem := base_le_of_suffix hsuffix hb' (of_decide_eq_true hlt).1
      exact Bool.or_eq_true_iff.mpr (.inl (any_eq_true.mpr ⟨b', hmem, hlt⟩))
    · exact Bool.or_eq_true_iff.mpr (.inr hskip)

theorem locates_zero : l.Locates 0 := fun _ _ h => absurd h (Nat.not_lt_zero _)

/-- The distance to the end of all row ids is cut off to that to the end of the segment. -/
theorem locates_invalidRowID : l.Locates invalidRowID := by
  intro b _ _
  have hsegment := b.in_segment _ b.last_mem
  have hbase := b.base_le_last
  refine Bool.or_eq_true_iff.mpr (.inr (decide_eq_true ?_))
  unfold Block.docIdInChunk Block.last invalidRowID at *
  split <;> omega

/-- A list finds its way behind its own blocks. -/
theorem locates_succ_last (hb : b ∈ l.blocks) : l.Locates (b.last + 1) := by
  intro b' _ hlast
  have hbase := b.base_le_last
  have hbase' := b'.base_le_last
  have hsegment : b.last + 1 < (b.base / 2 ^ 32 + 1) * 2 ^ 32 := b.in_segment _ b.last_mem
  rcases lt_or_ge b'.base b.base with hlt | hge
  · refine Bool.or_eq_true_iff.mpr (.inl (any_eq_true.mpr ⟨b, hb, decide_eq_true ⟨hlt, by omega⟩⟩))
  · refine Bool.or_eq_true_iff.mpr (.inr (decide_eq_true ?_))
    unfold Block.docIdInChunk
    rw [if_pos (by omega), Nat.mod_eq_of_lt (by omega)]
    omega

end BlockPosting

/-! ## `PostingIterator` -/

/-- The current block, those behind it, and what is left of the current block once it is decoded,
with the current document first. Without a current block `last_doc_id_in_current_block_` is the
invalid row id. -/
structure PostingIterator where
  current : Option Block
  ahead : List Block
  /-- The rest of `doc_buffer_`, if `finish_decode_docid_`. -/
  buffer : Option (List (ℕ × ℕ))

namespace PostingIterator

/-- The blocks from the current one on. -/
def remaining (it : PostingIterator) : List Block := it.current.toList ++ it.ahead

/-- `BlockLastDocID`. -/
def blockLast (it : PostingIterator) : ℕ := (it.current.map Block.last).getD invalidRowID

/-- `BlockMaxBM25Score`. -/
def blockMax (it : PostingIterator) : ℕ := (it.current.map Block.blockMax).getD 0

/-- `MultiPostingDecoder::SkipTo`. -/
def decoderSkipTo : List Block → ℕ → PostingIterator × Bool
  | [], _ => (⟨none, [], none⟩, false)
  | b :: ahead, docId =>
    if b.passed ahead docId then decoderSkipTo ahead docId else (⟨some b, ahead, none⟩, true)

/-- `PostingIterator::SkipTo`. -/
def skipTo (it : PostingIterator) (docId : ℕ) : PostingIterator × Bool :=
  match it.current with
  | some b => if docId ≤ b.last then (it, true) else decoderSkipTo it.ahead docId
  | none => decoderSkipTo it.ahead docId

/-- `current_row_id_`, if the block is decoded. -/
def currentRowID (it : PostingIterator) : Option ℕ :=
  match it.buffer with
  | some (e :: _) => some e.1
  | _ => none

/-- The part of `SeekDoc` after the block is found. If the block has no document from the target on,
the loop reads on behind `doc_buffer_`, which is undefined: an empty rest of the buffer stands for
that. -/
def seekInBlock (it : PostingIterator) (docId : ℕ) : PostingIterator × ℕ :=
  let buffer := (it.buffer.getD ((it.current.map Block.entries).getD [])).dropWhile (·.1 < docId)
  ({ it with buffer := some buffer }, (buffer.head?.map Prod.fst).getD invalidRowID)

/-- `PostingIterator::SeekDoc`. -/
def seekDoc (it : PostingIterator) (docId : ℕ) : PostingIterator × ℕ :=
  match it.currentRowID with
  | some row => if docId ≤ row then (it, row) else seek
  | none => seek
where
  seek : PostingIterator × ℕ :=
    match it.skipTo docId with
    | (it, false) => (it, invalidRowID)
    | (it, true) => it.seekInBlock docId

end PostingIterator

/-! ## Moving over blocks -/

section Lists

variable {α : Type*} {p q : α → Bool} {l : List α}

/-- Dropping by a weaker condition first makes no difference. -/
theorem dropWhile_dropWhile_of_imp (h : ∀ x, q x → p x) :
    (l.dropWhile q).dropWhile p = l.dropWhile p := by
  induction l with
  | nil => rfl
  | cons x l ih =>
    by_cases hq : q x
    · rw [dropWhile_cons_of_pos hq, dropWhile_cons_of_pos (h x hq), ih]
    · rw [dropWhile_cons_of_neg hq]

theorem mem_dropWhile_of_not {x : α} (hx : x ∈ l) (hp : ¬ p x) : x ∈ l.dropWhile p := by
  rw [← takeWhile_append_dropWhile (p := p) (l := l)] at hx
  exact (mem_append.mp hx).resolve_left fun h => hp (mem_takeWhile_imp h)

theorem dropWhile_congr {l : List α} (h : ∀ x ∈ l, p x = q x) : l.dropWhile p = l.dropWhile q := by
  induction l with
  | nil => rfl
  | cons x l ih =>
    rw [dropWhile_cons, dropWhile_cons, h x mem_cons_self, ih fun y hy =>
      h y (mem_cons_of_mem _ hy)]

end Lists

theorem Ascending.last_lt (h : Ascending (b :: rest)) {b' : Block} (hb' : b' ∈ rest) :
    b.last < b'.last :=
  rel_of_pairwise_cons h hb' _ b'.last_mem

theorem le_last_of_dropWhile {d : ℕ} (h : blocks.dropWhile (·.last < d) = b :: rest) :
    d ≤ b.last := by
  have := head?_dropWhile_not (fun b : Block => decide (b.last < d)) blocks
  rw [h] at this
  simpa using this

namespace PostingIterator

variable {it : PostingIterator} {d : ℕ} {posting : BlockPosting}

theorem decoderSkipTo_spec (hd : posting.Locates d) (hsuffix : blocks <:+ posting.blocks) :
    decoderSkipTo blocks d = match blocks.dropWhile (·.last < d) with
      | [] => (⟨none, [], none⟩, false)
      | b :: rest => (⟨some b, rest, none⟩, true) := by
  induction blocks with
  | nil => rfl
  | cons b rest ih =>
    rw [decoderSkipTo, hd.passed_iff hsuffix, dropWhile_cons]
    split
    · exact ih ((suffix_cons b rest).trans hsuffix)
    · rfl

/-- `SkipTo` drops the blocks that end before the target. The block stays decoded if it is not
left. -/
theorem skipTo_spec (hd : posting.Locates d) (hsuffix : it.remaining <:+ posting.blocks) :
    match it.remaining.dropWhile (·.last < d) with
    | [] => it.skipTo d = (⟨none, [], none⟩, false)
    | b :: rest => ∃ buffer, it.skipTo d = (⟨some b, rest, buffer⟩, true) ∧
        (it = ⟨some b, rest, buffer⟩ ∨ buffer = none) := by
  have hdecoder : ∀ ahead : List Block, ahead <:+ posting.blocks →
      match ahead.dropWhile (·.last < d) with
      | [] => decoderSkipTo ahead d = (⟨none, [], none⟩, false)
      | b :: rest => ∃ buffer, decoderSkipTo ahead d = (⟨some b, rest, buffer⟩, true) ∧
          (it = ⟨some b, rest, buffer⟩ ∨ buffer = none) := by
    intro ahead hahead
    rw [decoderSkipTo_spec hd hahead]
    cases ahead.dropWhile (·.last < d) with
    | nil => rfl
    | cons b rest => exact ⟨none, rfl, .inr rfl⟩
  obtain ⟨current, ahead, buffer⟩ := it
  cases current with
  | none => exact hdecoder ahead hsuffix
  | some b =>
    unfold skipTo remaining at *
    dsimp only [toList_some, cons_append, nil_append] at *
    by_cases hle : d ≤ b.last
    · rw [if_pos hle, dropWhile_cons_of_neg (by simpa using hle)]
      exact ⟨buffer, rfl, .inl rfl⟩
    · rw [if_neg hle, dropWhile_cons_of_pos (by simpa using hle)]
      exact hdecoder ahead ((suffix_cons b ahead).trans hsuffix)

/-- The blocks are the rest of those of the posting list, and a decoded block is the current one. -/
structure Ok (posting : BlockPosting) (it : PostingIterator) : Prop where
  suffix : it.remaining <:+ posting.blocks
  decoded : ∀ buffer, it.buffer = some buffer → buffer ≠ [] ∧ ∃ b, it.current = some b ∧
    buffer <:+ b.entries

theorem Ok.ascending (h : it.Ok posting) : Ascending it.remaining :=
  posting.ascending.sublist h.suffix.sublist

theorem remaining_mk (buffer : Option (List (ℕ × ℕ))) :
    (PostingIterator.mk (some b) rest buffer).remaining = b :: rest := rfl

/-- **`SeekDoc` finds the first document from the target on** in the first block that does not end
before it, if it has not come to the target yet. -/
theorem seekDoc_spec (hd : posting.Locates d) (hok : it.Ok posting)
    (hbefore : ∀ row, it.currentRowID = some row → row < d) :
    match it.remaining.dropWhile (·.last < d) with
    | [] => it.seekDoc d = (⟨none, [], none⟩, invalidRowID)
    | b :: rest => ∃ e tail, b.entries.dropWhile (·.1 < d) = e :: tail ∧
        it.seekDoc d = (⟨some b, rest, some (e :: tail)⟩, e.1) := by
  have hseek : it.seekDoc d = seekDoc.seek it d := by
    unfold seekDoc
    cases hrow : it.currentRowID with
    | none => rfl
    | some row => exact if_neg (not_le.mpr (hbefore row hrow))
  rw [hseek]
  unfold seekDoc.seek
  have hskip := skipTo_spec hd hok.suffix
  cases hdrop : it.remaining.dropWhile (·.last < d) with
  | nil =>
    rw [hdrop] at hskip
    rw [hskip]
  | cons b rest =>
    rw [hdrop] at hskip
    obtain ⟨buffer, heq, hbuffer⟩ := hskip
    rw [heq]
    have hlast := le_last_of_dropWhile hdrop
    obtain ⟨e, tail, hentries⟩ : ∃ e tail, b.entries.dropWhile (·.1 < d) = e :: tail := by
      refine exists_cons_of_ne_nil fun hnil => ?_
      have := dropWhile_eq_nil_iff.mp hnil _ b.last_mem
      exact absurd hlast (not_le.mpr (of_decide_eq_true this))
    refine ⟨e, tail, hentries, ?_⟩
    unfold seekInBlock
    have hsame : (buffer.getD b.entries).dropWhile (·.1 < d) = e :: tail := by
      rw [← hentries]
      cases buffer with
      | none => rfl
      | some buf =>
        -- what was read of the block is before the target
        have hit := hbuffer.resolve_right (some_ne_none _)
        subst hit
        obtain ⟨hne, b', hb', pre, hpre⟩ := hok.decoded buf rfl
        cases Option.some.inj hb'
        obtain ⟨e', buf, rfl⟩ := exists_cons_of_ne_nil hne
        have hasc := b.ascending
        have hrow := hbefore e'.1 rfl
        rw [getD_some, ← hpre]
        rw [← hpre] at hasc
        refine (dropWhile_append_of_pos fun a ha => decide_eq_true ?_).symm
        exact ((pairwise_append.mp hasc).2.2 a ha e' mem_cons_self).trans hrow
    dsimp only [map_some, getD_some]
    rw [hsame]
    rfl

end PostingIterator

end Infinity.Search
