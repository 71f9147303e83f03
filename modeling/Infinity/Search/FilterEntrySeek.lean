import Infinity.Search.FilterCursor

/-! # Seeking within a segment of the filter result

`SeekInBlockRangeInner` keeps in `pos_` how far it has read: an index into the list of offsets, or
the last row found in a bitmask, where zero stands for none and the largest number for no more rows.
From any position that says the truth about the rows ahead it finds the first row of the entry.

* `Filter.seekInner_spec`: `SeekInBlockRangeInner` finds the first row of the entry from the target
  on.
* `Filter.selfSeekLoop_spec`: `SelfSeekInBlockRange` finds the first such row that is not
deleted. -/

namespace Infinity.Search

open Foundations List Option

variable {o pos o' e E : ℕ} {entry : FilterEntry}

/-! ## The next row of an entry -/

/-- `r` is the first number from `o` to `e` with the property, if there is one. -/
def FirstIn (P : ℕ → Prop) (o e : ℕ) : Option ℕ → Prop
  | none => ∀ x, o ≤ x → x ≤ e → ¬ P x
  | some x => o ≤ x ∧ x ≤ e ∧ P x ∧ ∀ y, o ≤ y → y < x → ¬ P y

/-- The first number from a later start is the one from an earlier start, if there is none
between. -/
theorem FirstIn.extend {P : ℕ → Prop} {r : Option ℕ} (h : FirstIn P o' e r) (ho : o ≤ o')
    (hnone : ∀ x, o ≤ x → x < o' → ¬ P x) : FirstIn P o e r := by
  cases r with
  | none =>
    intro x hx hxe
    rcases lt_or_ge x o' with hlt | hge
    · exact hnone x hx hlt
    · exact h x hge hxe
  | some z =>
    obtain ⟨hz, hze, hPz, hbefore⟩ := h
    refine ⟨le_trans ho hz, hze, hPz, fun x hx hlt => ?_⟩
    rcases lt_or_ge x o' with hlt' | hge
    · exact hnone x hx hlt'
    · exact hbefore x hge hlt

/-- What `pos_` says about the rows from `o` on: the offsets before it are smaller; it is a row
before `o`, or the first row of the bitmask from `o` on. -/
def FilterEntry.PosOk (entry : FilterEntry) (e pos o : ℕ) : Prop :=
  match entry with
  | .offsets list => ∀ x ∈ list.take pos, x < o
  | .bitmask .. =>
    pos = 0 ∨ pos < o ∨ (∀ x, o ≤ x → x < pos → x ≤ e → ¬ entry.has x = true) ∧
      (pos ≤ e → entry.has pos = true)

theorem FilterEntry.PosOk.mono (h : entry.PosOk e pos o) (ho : o ≤ o') : entry.PosOk e pos o' := by
  cases entry with
  | offsets list => exact fun x hx => lt_of_lt_of_le (h x hx) ho
  | bitmask count data =>
    rcases h with h | h | ⟨hnone, hhas⟩
    · exact Or.inl h
    · exact Or.inr (Or.inl (lt_of_lt_of_le h ho))
    · exact Or.inr (Or.inr ⟨fun x hx => hnone x (le_trans ho hx), hhas⟩)

theorem FilterEntry.posOk_zero (e o : ℕ) : entry.PosOk e 0 o := by
  cases entry with
  | offsets list => exact fun x hx => by simp at hx
  | bitmask count data => exact Or.inl rfl

/-- The call does not lose a row of a bitmask: if such a row follows in the word where the range
begins, then one is in the range. -/
def FilterEntry.Keeps (entry : FilterEntry) (E o e : ℕ) : Prop :=
  match entry with
  | .bitmask _ (some _) => o % 64 ≠ 0 → ∀ x, o ≤ x → x / 64 = o / 64 → x ≤ E → entry.has x = true →
    ∃ y, o ≤ y ∧ y ≤ e ∧ entry.has y = true
  | _ => True

theorem FilterEntry.keeps_self : entry.Keeps E o E := by
  unfold Keeps
  split
  · exact fun _ x hx _ hxE hhas => ⟨x, hx, hxE, hhas⟩
  · trivial

namespace Filter

variable {k stop : ℕ}

/-- The element behind those that a list begins with is the first of the rest. -/
theorem getElem?_takeWhile_length {α : Type*} (p : α → Bool) (l : List α) :
    l[(l.takeWhile p).length]? = (l.dropWhile p).head? := by
  conv_lhs => rw [← takeWhile_append_dropWhile (p := p) (l := l)]
  rw [getElem?_append_right (by simp)]
  simp [head?_eq_getElem?]

/-- The list case: the offsets before the new position are smaller, the one at it is the first that
is not. -/
theorem offsets_spec {list : List ℕ} (hsorted : list.Pairwise (· < ·))
    (hpos : ∀ x ∈ list.take pos, x < o) :
      (∀ x ∈ list.take (pos + ((list.drop pos).takeWhile (· < o)).length), x < o) ∧
      FirstIn (· ∈ list) o e (match list[pos + ((list.drop pos).takeWhile (· < o)).length]? with
        | none => none
        | some x => if x ≤ e then some x else none) := by
  have hat : list[pos + ((list.drop pos).takeWhile (· < o)).length]? = list.find? (o ≤ ·) := by
    have hbefore : (list.take pos).find? (o ≤ ·) = none :=
      find?_eq_none.mpr fun x hx hle => absurd (hpos x hx) (not_lt.mpr (of_decide_eq_true hle))
    rw [← getElem?_drop, getElem?_takeWhile_length]
    conv_rhs => rw [← take_append_drop pos list, find?_append, hbefore, none_or]
    simp only [find?_eq_head?_dropWhile_not, ← not_lt, decide_not, Bool.not_not]
  refine ⟨fun x hx => ?_, ?_⟩
  · rw [take_add, ← prefix_iff_eq_take.mp (List.takeWhile_prefix _)] at hx
    rcases mem_append.mp hx with hx | hx
    · exact hpos x hx
    · simpa using mem_takeWhile_imp hx
  · rw [hat]
    cases hfind : list.find? (o ≤ ·) with
    | none => exact fun x hx _ hmem => find?_eq_none.mp hfind x hmem (decide_eq_true hx)
    | some x =>
      obtain ⟨hmem, hox, hleast⟩ := find?_ascending hsorted hfind
      have hmin : ∀ y, o ≤ y → y ∈ list → x ≤ y :=
        fun y hy hmem => hleast y hmem (decide_eq_true hy)
      dsimp only
      split
      next hle =>
        exact ⟨of_decide_eq_true hox, hle, hmem,
          fun y hy hlt hmem => absurd (hmin y hy hmem) (not_le.mpr hlt)⟩
      next hgt => exact fun y hy hye hmem => absurd (hmin y hy hmem) (by omega)

theorem firstBit_spec (word : BitVec 64) (i : ℕ) : match firstBit word i with
    | none => ∀ j, i ≤ j → j < 64 → word.getLsbD j = false
    | some j => i ≤ j ∧ j < 64 ∧ word.getLsbD j ∧ ∀ k, i ≤ k → k < j → word.getLsbD k = false := by
  split
  next hnone =>
    intro j hij hj
    have := find?_eq_none.mp hnone j (mem_range'_1.mpr ⟨hij, by omega⟩)
    exact Bool.not_eq_true _ ▸ this
  next j hsome =>
    obtain ⟨hmem, hbit, hleast⟩ := find?_ascending pairwise_lt_range' hsome
    have hj := mem_range'_1.mp hmem
    refine ⟨hj.1, by omega, hbit, fun k hik hkj => Bool.eq_false_iff.mpr fun hk => ?_⟩
    exact absurd (hleast k (mem_range'_1.mpr ⟨hik, by omega⟩) hk) (not_le.mpr hkj)

section Words

variable {count : ℕ} {words : List (BitVec 64)} {i j : ℕ}
    (hentry : entry = .bitmask count (some words))

include hentry

theorem has_words (x : ℕ) : entry.has x = (words.getD (x / 64) 0).getLsbD (x % 64) := hentry ▸ rfl

/-- The first set bit of a word from a bit on is the first row from `o` on, if there is none before
the bit. -/
theorem firstBit_first (hbit : firstBit (words.getD k 0) j = some i)
    (hno : ∀ x, o ≤ x → x < k * 64 + j → x ≤ e → ¬ entry.has x) :
    j ≤ i ∧ entry.has (k * 64 + i) ∧ ∀ x, o ≤ x → x < k * 64 + i → x ≤ e → ¬ entry.has x := by
  have hfirst := firstBit_spec (words.getD k 0) j
  rw [hbit] at hfirst
  obtain ⟨hji, hi, hset, hbefore⟩ := hfirst
  refine ⟨hji, ?_, fun x hx hlt hxe => ?_⟩
  · rw [has_words hentry, show (k * 64 + i) / 64 = k by omega, show (k * 64 + i) % 64 = i by omega]
    exact hset
  · by_cases hxj : x < k * 64 + j
    · exact hno x hx hxj hxe
    · rw [has_words hentry, show x / 64 = k by omega, hbefore (x % 64) (by omega) (by omega)]
      exact Bool.false_ne_true

/-- The words from `next` on, when no row from `o` on stands before them. -/
theorem seekRest_spec {next : ℕ} (hwords : words.length = (count + 63) / 64) (hE : E < 2 ^ 32 - 1)
    (he : e ≤ E) (hpos : entry.PosOk E pos o)
    (hno : ∀ x, o ≤ x → x < next * 64 → x ≤ E → ¬ entry.has x) (hnext : o ≤ next * 64) :
      entry.PosOk E (seekWords.seekRest count words pos next e).1 o ∧
      FirstIn (entry.has ·) o e (seekWords.seekRest count words pos next e).2 := by
  -- no row stands in words that are zero
  have hzeros : ∀ n, (∀ k, next ≤ k → k < n → words.getD k 0 = 0) →
      ∀ x, o ≤ x → x < n * 64 → x ≤ E → ¬ entry.has x := fun n hzero x hx hlt hxe => by
    by_cases hxn : x < next * 64
    · exact hno x hx hxn hxe
    · rw [has_words hentry, hzero (x / 64) (by omega) (by omega)]
      simp
  unfold seekWords.seekRest
  cases hfind : (List.range' next ((count + 63) / 64 - next)).find? fun k => words.getD k 0 ≠ 0 with
  | none =>
    have hnone : ∀ x, o ≤ x → x ≤ E → ¬ entry.has x := fun x hx hxe => by
      refine hzeros (x / 64 + 1) (fun k hk _ => ?_) x hx (by omega) hxe
      by_cases hin : k < (count + 63) / 64
      · simpa using find?_eq_none.mp hfind k (mem_range'_1.mpr ⟨hk, by omega⟩)
      · rw [getD_eq_getElem?_getD, getElem?_eq_none (by omega)]
        rfl
    dsimp only
    refine ⟨?_, fun x hx hxe => hnone x hx (by omega)⟩
    split
    · subst hentry
      exact Or.inr (Or.inr ⟨fun x hx _ hxe => hnone x hx hxe, fun h => absurd h (by omega)⟩)
    · exact hpos
  | some k =>
    obtain ⟨hmem, hk, hleast⟩ := find?_ascending pairwise_lt_range' hfind
    obtain ⟨hnk, hkc⟩ := mem_range'_1.mp hmem
    simp only [decide_eq_true_eq] at hk hleast
    dsimp only
    cases hbit : firstBit (words.getD k 0) 0 with
    | none =>
      have hfirst := firstBit_spec (words.getD k 0) 0
      rw [hbit] at hfirst
      refine absurd (BitVec.eq_of_getLsbD_eq fun i hi => ?_) hk
      rw [hfirst i (Nat.zero_le i) hi]
      simp
    | some i =>
      obtain ⟨-, hat, hnone⟩ := firstBit_first hentry hbit (hzeros k fun k' hle hlt => by
        by_contra hne
        have := hleast k' (mem_range'_1.mpr ⟨hle, by omega⟩) hne
        omega)
      subst hentry
      refine ⟨Or.inr (Or.inr ⟨hnone, fun _ => hat⟩), ?_⟩
      dsimp only
      split
      next hle => exact ⟨by omega, hle, hat, fun y hy hlt => hnone y hy hlt (by omega)⟩
      next hgt => exact fun x hx hxe => hnone x hx (by omega) (by omega)

theorem seekWords_spec (hwords : words.length = (count + 63) / 64) (hE : E < 2 ^ 32 - 1)
    (he : e ≤ E)
    (hkeeps : entry.Keeps E o e) (hpos : entry.PosOk E pos o) :
      entry.PosOk E (seekWords count words pos o e).1 o ∧
      FirstIn (entry.has ·) o e (seekWords count words pos o e).2 := by
  unfold seekWords
  by_cases hpart : o / 64 ≠ (o + 63) / 64
  · -- the target stands within a word
    rw [if_pos hpart]
    cases hbit : firstBit (words.getD (o / 64) 0) (o % 64) with
    | none =>
      have hfirst := firstBit_spec (words.getD (o / 64) 0) (o % 64)
      rw [hbit] at hfirst
      refine seekRest_spec hentry hwords hE he hpos (fun x hx hlt _ => ?_) (by omega)
      rw [has_words hentry, show x / 64 = o / 64 by omega, hfirst (x % 64) (by omega) (by omega)]
      exact Bool.false_ne_true
    | some i =>
      obtain ⟨hoi, hat, hnone⟩ :=
        firstBit_first hentry hbit (o := o) (e := E) fun x hx hlt => by omega
      have hpos' : entry.PosOk E (o / 64 * 64 + i) o := by
        subst hentry
        exact Or.inr (Or.inr ⟨hnone, fun _ => hat⟩)
      dsimp only
      split
      next hle => exact ⟨hpos', by omega, hle, hat, fun x hx hlt => hnone x hx hlt (by omega)⟩
      next hgt =>
        subst hentry
        refine seekRest_spec rfl hwords hE he hpos' (fun x hx hlt hxe hhas => ?_) (by omega)
        obtain ⟨y, hy, hye, hhas⟩ := hkeeps (by omega) x hx (by omega) hxe hhas
        exact hnone y hy (by omega) (by omega) hhas
  · rw [if_neg hpart]
    exact seekRest_spec hentry hwords hE he hpos (fun x hx hlt _ => by omega) (by omega)

end Words

variable {F : Filter}

/-- Where the reader stands within a segment, said for the rows of the segment from a document
on. -/
def PosFrom (F : Filter) (c : Cursor) (docId : ℕ) : Prop :=
  ∀ entry, F.entry c.segmentId = some entry → ∀ o, o < 2 ^ 32 → docId ≤ rowID c.segmentId o →
    entry.PosOk (F.rows c.segmentId) c.pos o

theorem entry_mem (h : F.entry k = some entry) : (k, entry) ∈ F.entries := by
  obtain ⟨⟨k', e⟩, hfind, rfl⟩ := map_eq_some_iff.mp h
  have hk := find?_some hfind
  simp only [decide_eq_true_eq] at hk
  subst hk
  exact mem_of_find?_eq_some hfind

/-- **`SeekInBlockRangeInner` finds the first row of the entry** in the range, in the segment of the
cursor. -/
theorem seekInner_spec {c : Cursor} {docId : ℕ} (hentry : F.entry c.segmentId = some entry)
    (hdoc : docId = rowID c.segmentId o) (hoff : offsetOf docId = o) (hstop : offsetOf stop = e)
    (ho : o ≤ e) (he : e ≤ F.rows c.segmentId) (hkeeps : entry.Keeps (F.rows c.segmentId) o e)
    (hpos : entry.PosOk (F.rows c.segmentId) c.pos o) :
    ∃ pos r, F.seekInner c docId stop = (⟨c.segmentId, pos⟩, r.map (rowID c.segmentId)) ∧
      entry.PosOk (F.rows c.segmentId) pos o ∧ FirstIn (entry.has ·) o e r := by
  have hfits := F.fits _ (entry_mem hentry)
  unfold seekInner
  rw [hentry]
  cases entry with
  | offsets list =>
    obtain ⟨hbefore, hfirst⟩ := offsets_spec hfits hpos
    dsimp only
    rw [hoff, hstop]
    have hhas : (fun x => (FilterEntry.offsets list).has x = true) = (· ∈ list) := by
      funext x
      simp [FilterEntry.has]
    rw [hhas]
    cases hat : list[c.pos + ((list.drop c.pos).takeWhile (· < o)).length]? with
    | none =>
      rw [hat] at hfirst
      exact ⟨_, none, rfl, hbefore, hfirst⟩
    | some x =>
      rw [hat] at hfirst
      refine ⟨_, if x ≤ e then some x else none, Prod.ext rfl ?_, hbefore, hfirst⟩
      dsimp only
      split <;> rfl
  | bitmask count data =>
    dsimp only
    rw [hoff, hstop]
    by_cases hbeyond : c.pos ≠ 0 ∧ e < c.pos
    · -- the previous result is behind the range, and so is every row from the target on
      rw [if_pos hbeyond]
      refine ⟨c.pos, none, rfl, hpos, fun x hx hxe => ?_⟩
      rcases hpos with h | h | ⟨hnone, -⟩
      · exact absurd h hbeyond.1
      · omega
      · exact hnone x hx (by omega) (by omega)
    · rw [if_neg hbeyond]
      by_cases hprevious : c.pos ≠ 0 ∧ o ≤ c.pos
      · rw [if_pos hprevious]
        have hle : c.pos ≤ e := not_lt.mp fun h => hbeyond ⟨hprevious.1, h⟩
        refine ⟨c.pos, some c.pos, rfl, hpos, hprevious.2, hle, ?_⟩
        rcases hpos with h | h | ⟨hnone, hhas⟩
        · exact absurd h hprevious.1
        · omega
        · exact ⟨hhas (by omega), fun y hy hlt => hnone y hy hlt (by omega)⟩
      · rw [if_neg hprevious]
        cases data with
        | none =>
          refine ⟨o, some o, Prod.ext rfl (congrArg some hdoc), Or.inr (Or.inr ⟨?_, fun _ => rfl⟩),
            le_refl o, ho, rfl, ?_⟩
          · exact fun x hx hlt _ => absurd hx (not_le.mpr hlt)
          · exact fun y hy hlt => absurd hy (not_le.mpr hlt)
        | some words =>
          obtain ⟨hpos', hfirst⟩ :=
            seekWords_spec rfl hfits.2 (F.rows_lt c.segmentId) he hkeeps hpos
          exact ⟨_, _, rfl, hpos', hfirst⟩

/-- Each call of `SeekInBlockRangeInner` finds the first row of the entry in its range. -/
def SeeksExactly (F : Filter) (entry : FilterEntry) (c : Cursor) : List (ℕ × ℕ) → Prop
  | [] => True
  | (start, stop) :: calls =>
    let found := F.seekInner c (rowID c.segmentId start) (rowID c.segmentId stop)
    FirstIn (entry.has · = true) start stop (found.2.map offsetOf) ∧
      F.SeeksExactly entry found.1 calls

theorem seeksExactly_of_posOk (hentry : F.entry k = some entry) {calls : List (ℕ × ℕ)}
    (hstarts : calls.Pairwise fun r r' => r.1 ≤ r'.1)
    (hranges : ∀ r ∈ calls, r.1 ≤ r.2 ∧ r.2 ≤ F.rows k)
    (hkeeps : ∀ r ∈ calls, entry.Keeps (F.rows k) r.1 r.2)
    (hpos : ∀ r ∈ calls, entry.PosOk (F.rows k) pos r.1) : F.SeeksExactly entry ⟨k, pos⟩ calls := by
  induction calls generalizing pos with
  | nil => trivial
  | cons r calls ih =>
    obtain ⟨start, stop⟩ := r
    rw [forall_mem_cons] at hranges hkeeps hpos
    obtain ⟨hstart, hstarts⟩ := pairwise_cons.mp hstarts
    have hrows := F.rows_lt' k
    obtain ⟨pos', found, heq, hpos', hfirst⟩ := seekInner_spec (c := ⟨k, pos⟩) hentry rfl
      (offsetOf_rowID (by omega)) (offsetOf_rowID (by omega) : offsetOf (rowID k stop) = stop)
      hranges.1.1 hranges.1.2 hkeeps.1 hpos.1
    rw [SeeksExactly]
    rw [heq]
    refine ⟨?_, ih hstarts hranges.2 hkeeps.2 fun r hr => hpos'.mono (hstart r hr)⟩
    cases found with
    | none => exact hfirst
    | some x =>
      have hx : x ≤ stop := hfirst.2.1
      rw [map_some, map_some, offsetOf_rowID (by omega)]
      exact hfirst

/-- **Calls with ascending targets find the first rows of their ranges**, as long as none of them
loses a row. -/
theorem seekInner_exact (F : Filter) (hentry : F.entry k = some entry) {calls : List (ℕ × ℕ)}
    (hstarts : calls.Pairwise fun r r' => r.1 ≤ r'.1)
    (hranges : ∀ r ∈ calls, r.1 ≤ r.2 ∧ r.2 ≤ F.rows k)
    (hkeeps : ∀ r ∈ calls, entry.Keeps (F.rows k) r.1 r.2) : F.SeeksExactly entry ⟨k, 0⟩ calls :=
  seeksExactly_of_posOk hentry hstarts hranges hkeeps fun _ _ => entry.posOk_zero _ _

/-- A bitmask with the rows 5 and 70. -/
def twoWords : Filter where
  beginTs := 10
  segment _ := ⟨100, 2 ^ 64 - 1, fun _ => some ⟨1, 100, fun _ => 0⟩⟩
  entries := [(0, .bitmask 128 (some [32, 64]))]
  ascending := List.pairwise_singleton _ _
  segment_lt := by decide
  rows_lt _ := by decide
  fits := List.forall_mem_singleton.mpr ⟨by decide, rfl⟩
  committed _ _ _ := ⟨_, rfl, by decide⟩
  first_delete _ _ _ _ h hne := absurd (by cases Option.some.inj h; rfl) hne

theorem seekInner_exact_twoWords :
    twoWords.SeeksExactly (.bitmask 128 (some [32, 64])) ⟨0, 0⟩ [(1, 5), (6, 80)] :=
  seekInner_exact twoWords rfl (by decide) (by decide) (forall_mem_cons.mpr
    ⟨fun _ _ _ _ _ _ => ⟨5, by decide⟩, forall_mem_singleton.mpr fun _ _ _ _ _ _ =>
    ⟨70, by decide⟩⟩)

/-- The first call reads row 5 beyond its end, and then row 70: the second call does not find row
5. -/
theorem seekInner_not_exact :
    ¬ twoWords.SeeksExactly (.bitmask 128 (some [32, 64])) ⟨0, 0⟩ [(1, 2), (3, 10)] := by
  rintro ⟨-, h, -⟩
  exact h 5 (by decide) (by decide) (by decide)

/-- **`SelfSeekInBlockRange` finds the first row of the entry that is accepted**, in the segment of
the cursor. -/
theorem selfSeekLoop_spec (hentry : F.entry k = some entry) (hstop : stop = rowID k (F.rows k))
    (fuel : ℕ)
    (hfuel : F.rows k + 1 ≤ o + fuel) (ho : o ≤ F.rows k + 1)
    (hpos : entry.PosOk (F.rows k) pos o) :
      ∃ pos' r, F.selfSeekLoop fuel ⟨k, pos⟩ (rowID k o) stop = (⟨k, pos'⟩, r.map (rowID k)) ∧
      entry.PosOk (F.rows k) pos' (r.getD (F.rows k + 1)) ∧
      FirstIn (fun x => entry.has x ∧ (F.segment k).accepts F.beginTs x) o (F.rows k) r := by
  induction fuel generalizing pos o with
  | zero =>
    refine ⟨pos, none, rfl, hpos.mono ho, fun x hx hxe => absurd hx (by omega)⟩
  | succ fuel ih =>
    rw [selfSeekLoop]
    rcases lt_or_eq_of_le ho with hlt | rfl
    · have hle : o ≤ F.rows k := Nat.le_of_lt_succ hlt
      have hnot : ¬ stop < rowID k o := by
        rw [hstop]
        exact not_lt.mpr (Nat.add_le_add_left hle _)
      rw [if_neg hnot]
      obtain ⟨pos', r, heq, hpos', hfirst⟩ := seekInner_spec (c := ⟨k, pos⟩) hentry rfl
        (offsetOf_rowID (lt_of_le_of_lt hle (rows_lt' k))) (hstop ▸ offsetOf_rowID (rows_lt' k)) hle
        (le_rfl) (entry.keeps_self ..) hpos
      rw [heq]
      cases r with
      | none => exact ⟨pos', none, rfl, hpos'.mono ho, fun x hx hxe h => hfirst x hx hxe h.1⟩
      | some x =>
        obtain ⟨hox, hxe, hx, hbefore⟩ := hfirst
        have hoff : offsetOf (rowID k x) = x := offsetOf_rowID (lt_of_le_of_lt hxe (rows_lt' _))
        simp only [map_some]
        rw [hoff]
        split
        next hacc =>
          exact ⟨pos', some x, rfl, hpos'.mono hox, hox, hxe, ⟨hx, hacc⟩,
            fun y hy hlt h => hbefore y hy hlt h.1⟩
        next hacc =>
          -- the row is deleted: the search goes on behind it
          obtain ⟨pos'', r, heq', hpos'', hfirst'⟩ :=
            ih (o := x + 1) (by omega) (by omega) (hpos'.mono (by omega))
          refine ⟨pos'', r, heq', hpos'', hfirst'.extend (by omega) ?_⟩
          rintro y hy hlt ⟨hhas, hacc'⟩
          rcases lt_or_eq_of_le (Nat.le_of_lt_succ hlt) with hlt' | rfl
          · exact hbefore y hy hlt' hhas
          · exact hacc hacc'
    · -- the target is behind the rows
      rw [if_pos (hstop ▸ rowID_lt_rowID (Nat.lt_succ_self _))]
      exact ⟨pos, none, rfl, hpos, fun x hx hxe => absurd hx (by omega)⟩

end Filter

end Infinity.Search
