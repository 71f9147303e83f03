import Infinity.Foundations.Seek

/-! # Matching a phrase

`GetPhraseMatchData` collects the positions at which a phrase begins in a document. Every term has a
position iterator of its own, which moves forward only. `BlockMaxPhraseDocIterator` seeks each term
at its place and is exact. `PhraseDocIterator` seeks it one place earlier, and does not find it if
it is there as well.

* `getPhraseMatchData_exact_iff`: both report the positions where the phrase begins exactly if no
  term of a match stands also one place before its own. -/

namespace Infinity.Search

open Foundations List

/-- `INVALID_POSITION`. -/
def invalidPosition : ℕ := 2 ^ 32 - 1

/-- `InDocPositionIterator` in a document: `current_pos_`, none for -1, and the positions that are
not yet read. -/
structure PositionIterator where
  currentPos : Option ℕ
  unread : List ℕ

variable {it first : PositionIterator} {its : List PositionIterator} {l : List ℕ}
  {ls : List (List ℕ)} {currentPos : Option ℕ} {pos d d' lead now beg p turns : ℕ}

namespace PositionIterator

/-- The loop of `SeekPosition`. -/
def advance (pos : ℕ) : Option ℕ → List ℕ → PositionIterator × ℕ
  | currentPos, [] => (⟨currentPos, []⟩, invalidPosition)
  | _, x :: unread => if pos ≤ x then (⟨some x, unread⟩, x) else advance pos (some x) unread

/-- `InDocPositionIterator::SeekPosition`. -/
def seekPosition (it : PositionIterator) (pos : ℕ) : PositionIterator × ℕ :=
  match it.currentPos with
  | none => advance pos none it.unread
  | some x => if pos ≤ x then (it, x) else advance pos (some x) it.unread

/-- The iterator has still to read what a list holds from a position on. -/
def Reads (it : PositionIterator) (l : List ℕ) (d : ℕ) : Prop :=
  (it.currentPos.toList ++ it.unread).filter (d ≤ ·) = l.filter (d ≤ ·)

theorem Reads.mono (h : it.Reads l d) (hd : d ≤ d') : it.Reads l d' := by
  have hfilter : ∀ l : List ℕ, l.filter (d' ≤ ·) = (l.filter (d ≤ ·)).filter (d' ≤ ·) := fun l => by
    rw [filter_filter]
    exact filter_congr fun x _ => by grind
  rw [Reads, hfilter, h, ← hfilter]

theorem advance_spec (unread : List ℕ) (hcur : ∀ x ∈ currentPos, x < pos) :
    (advance pos currentPos unread).2 = seekIn invalidPosition unread pos ∧
      (advance pos currentPos unread).1.Reads unread pos := by
  induction unread generalizing currentPos with
  | nil => cases currentPos <;> simp_all [advance, Reads, seekIn]
  | cons x unread ih =>
    rw [advance]
    split_ifs with hx
    · exact ⟨by simp [seekIn, hx], rfl⟩
    · have hcur : ∀ y ∈ some x, y < pos := by simpa using hx
      simpa [seekIn, Reads, hx] using ih hcur

/-- To stay on the current position is to read it again. -/
theorem seekPosition_eq :
    it.seekPosition pos = advance pos none (it.currentPos.toList ++ it.unread) := by
  rcases it with ⟨_ | x, unread⟩ <;> rfl

theorem seekPosition_spec (h : it.Reads l d) (hd : d ≤ pos) :
    (it.seekPosition pos).2 = seekIn invalidPosition l pos ∧
    (it.seekPosition pos).1.Reads l pos := by
  have hreads : it.Reads l pos := h.mono hd
  obtain ⟨hsought, hafter⟩ :=
    advance_spec (it.currentPos.toList ++ it.unread) (nofun : ∀ x ∈ none, x < pos)
  rw [seekPosition_eq, hsought, seekIn, seekIn, ← head?_filter, ← head?_filter, hreads]
  exact ⟨rfl, hafter.trans hreads⟩

end PositionIterator

open PositionIterator

/-- The loop of `CheckBeginPosition`: a term is sought at a distance from the place of the one
before, and must be next to it. -/
def checkFrom (lead : ℕ) : ℕ → List PositionIterator → List PositionIterator × Bool
  | _, [] => ([], true)
  | now, it :: its =>
    let sought := it.seekPosition (now + lead)
    if sought.2 ≠ now + 1 then (sought.1 :: its, false)
    else (sought.1 :: (checkFrom lead (now + 1) its).1, (checkFrom lead (now + 1) its).2)

/-- The loop of `GetPhraseMatchData`, and none if it has not ended after so many turns. -/
def collectBegins (lead : ℕ) : ℕ → PositionIterator → List PositionIterator → ℕ → Option (List ℕ)
  | 0, _, _, _ => none
  | turns + 1, first, its, beg =>
    let sought := first.seekPosition beg
    if sought.2 = invalidPosition then some []
    else
      let checked := checkFrom lead sought.2 its
      (collectBegins lead turns sought.1 checked.1 (sought.2 + 1)).map fun begins =>
        if checked.2 then sought.2 :: begins else begins

/-- The terms of a phrase with their positions in a document. -/
structure PhraseDocument where
  first : List ℕ
  rest : List (List ℕ)
  sorted : ∀ l ∈ first :: rest, l.Pairwise (· < ·)
  valid : ∀ l ∈ first :: rest, ∀ p ∈ l, p + rest.length < invalidPosition

namespace PhraseDocument

variable (doc : PhraseDocument)

def matchData (lead : ℕ) : Option (Bool × List ℕ) :=
  (collectBegins lead (doc.first.length + 1) ⟨none, doc.first⟩ (doc.rest.map (⟨none, ·⟩)) 0).map
      fun begins =>
    (!begins.isEmpty, begins)

/-- `PhraseDocIterator::GetPhraseMatchData`. `CheckBeginPosition` seeks a term from the place of the
term before. -/
def getPhraseMatchData : Option (Bool × List ℕ) := doc.matchData 0

/-- `BlockMaxPhraseDocIterator::GetPhraseMatchData`. `CheckBeginPosition` seeks a term at its own
place. -/
def getPhraseMatchDataBlockMax : Option (Bool × List ℕ) := doc.matchData 1

/-- Where the phrase begins: every term occurs at its place behind the first one. -/
def begins : List ℕ := doc.first.filter fun p => (doc.rest.zipIdx (p + 1)).all fun t => t.2 ∈ t.1

def exact : Option (Bool × List ℕ) := some (!doc.begins.isEmpty, doc.begins)

end PhraseDocument

/-- The iterators read the lists, the next one always from the next position on. -/
def AllRead : List PositionIterator → List (List ℕ) → ℕ → Prop
  | [], [], _ => True
  | it :: its, l :: ls, d => it.Reads l d ∧ AllRead its ls (d + 1)
  | _, _, _ => False

theorem AllRead.mono (h : AllRead its ls d) (hd : d ≤ d') : AllRead its ls d' := by
  fun_induction AllRead its ls d generalizing d' with
  | case1 => trivial
  | case2 it its l ls d ih => exact ⟨h.1.mono hd, ih h.2 (Nat.succ_le_succ hd)⟩
  | case3 => cases h

theorem allRead_start (d : ℕ) : AllRead (ls.map (⟨none, ·⟩)) ls d := by
  induction ls generalizing d with
  | nil => trivial
  | cons l ls ih => exact ⟨rfl, ih (d + 1)⟩

def accepts (lead now : ℕ) (ls : List (List ℕ)) : Bool :=
  (ls.zipIdx now).all fun t => seekIn invalidPosition t.1 (t.2 + lead) = t.2 + 1

theorem checkFrom_spec (now : ℕ) (h : AllRead its ls d) (hd : d ≤ now + lead) :
    (checkFrom lead now its).2 = accepts lead now ls ∧
    AllRead (checkFrom lead now its).1 ls (now + lead) := by
  fun_induction AllRead its ls d generalizing now with
  | case1 => exact ⟨rfl, trivial⟩
  | case2 it its l ls d ih =>
    obtain ⟨hsought, hreads⟩ := seekPosition_spec h.1 hd
    rw [checkFrom, accepts, zipIdx_cons, all_cons, hsought]
    split_ifs with hne
    · simpa [hne] using ⟨hreads, h.2.mono (by omega)⟩
    · obtain ⟨hok, hread⟩ := ih (now + 1) h.2 (by omega)
      simpa [not_not.mp hne, hok] using ⟨rfl, hreads, hread.mono (by omega)⟩
  | case3 => cases h

theorem collectBegins_spec (hl : l.Pairwise (· < ·)) (hvalid : ∀ p ∈ l, p < invalidPosition)
    (hbeg : ∀ p ∈ l, beg ≤ p) (hfirst : first.Reads l beg) (hrest : AllRead its ls (beg + lead))
    (hturns : l.length < turns) :
    collectBegins lead turns first its beg = some (l.filter (accepts lead · ls)) := by
  induction l generalizing first its turns beg with
  | nil =>
    obtain ⟨turns, rfl⟩ := Nat.exists_eq_succ_of_ne_zero (Nat.ne_zero_of_lt hturns)
    have hsought := (seekPosition_spec hfirst (Nat.le_refl beg)).1
    simp [collectBegins, hsought, seekIn]
  | cons p l ih =>
    obtain ⟨turns, rfl⟩ := Nat.exists_eq_succ_of_ne_zero (Nat.ne_zero_of_lt hturns)
    have hp := hbeg p mem_cons_self
    obtain ⟨hsought, hreads⟩ := seekPosition_spec hfirst (Nat.le_refl beg)
    replace hsought : (first.seekPosition beg).2 = p := by simpa [seekIn, hp] using hsought
    obtain ⟨hok, hread⟩ := checkFrom_spec p hrest (Nat.add_le_add_right hp lead)
    have hnext : (first.seekPosition beg).1.Reads l (p + 1) := by
      simpa [Reads] using hreads.mono (Nat.le_succ_of_le hp)
    have hrec := ih hl.of_cons (fun q hq => hvalid q (mem_cons_of_mem p hq))
      (fun q hq => rel_of_pairwise_cons hl hq) hnext (hread.mono (by omega))
      (Nat.lt_of_succ_lt_succ hturns)
    simp [collectBegins, hsought, hok, hrec, Nat.ne_of_lt (hvalid p mem_cons_self), filter_cons]

namespace PhraseDocument

variable {doc : PhraseDocument}

/-- Sought from the place of the term before, a term is found at its own place only if it is not at
the other one. -/
theorem seekIn_eq_succ_iff (hl : l ∈ doc.first :: doc.rest) (hp : p + 1 < invalidPosition)
    (hlead : lead ≤ 1) : seekIn invalidPosition l (p + lead) = p + 1 ↔
    p + 1 ∈ l ∧ (lead = 0 → p ∉ l) := by
  have hto := seeksTo_seekIn (doc.sorted l hl) (fun p hp =>
    Nat.lt_of_le_of_lt (Nat.le_add_right p _) (doc.valid l hl p hp)) (d := p + lead) (by omega)
  constructor
  · intro heq
    rw [heq] at hto
    refine ⟨hto.mem hp, ?_⟩
    rintro rfl
    exact hto.none_between p (Nat.le_refl p) (Nat.lt_succ_self p)
  · rintro ⟨hmem, hnot⟩
    have hle := Nat.not_lt.mp fun hlt => hto.none_between (p + 1) (by omega) hlt hmem
    have hge := hto.le
    rcases Nat.eq_zero_or_pos lead with rfl | hpos
    · have hne : seekIn invalidPosition l (p + 0) ≠ p :=
        fun heq => hnot rfl (heq ▸ hto.mem (by omega))
      omega
    · omega

theorem accepts_eq (hlead : lead ≤ 1) (hp : p ∈ doc.first) : accepts lead p doc.rest =
    (((doc.rest.zipIdx p).all fun t => lead ≠ 0 ∨ t.2 ∉ t.1) &&
    (doc.rest.zipIdx (p + 1)).all fun t => t.2 ∈ t.1) := by
  have hvalid := doc.valid _ mem_cons_self p hp
  have hterm : ∀ t ∈ doc.rest.zipIdx p, seekIn invalidPosition t.1 (t.2 + lead) = t.2 + 1 ↔
      t.2 + 1 ∈ t.1 ∧ (lead = 0 → t.2 ∉ t.1) := fun t ht => by
    have hlt := (mem_zipIdx ht).2.1
    exact seekIn_eq_succ_iff (mem_cons_of_mem _ (fst_mem_of_mem_zipIdx ht)) (by omega) hlead
  rw [zipIdx_succ, all_map, accepts, Bool.eq_iff_iff]
  simp only [all_eq_true, Bool.and_eq_true, decide_eq_true_eq, Function.comp]
  grind

theorem matchData_eq (hlead : lead ≤ 1) : doc.matchData lead = doc.exact ↔
    ∀ p ∈ doc.begins, ∀ t ∈ doc.rest.zipIdx p, lead ≠ 0 ∨ t.2 ∉ t.1 := by
  have hvalid :=
    fun p hp => Nat.lt_of_le_of_lt (Nat.le_add_right p _) (doc.valid _ mem_cons_self p hp)
  have hfound : doc.first.filter (accepts lead · doc.rest) =
      doc.begins.filter fun p => (doc.rest.zipIdx p).all fun t => lead ≠ 0 ∨ t.2 ∉ t.1 := by
    rw [begins, filter_filter]
    exact filter_congr fun p hp => accepts_eq hlead hp
  rw [matchData, collectBegins_spec (doc.sorted _ mem_cons_self) hvalid (fun _ _ => Nat.zero_le _)
    (rfl : Reads ⟨none, doc.first⟩ doc.first 0) (allRead_start ..) (Nat.lt_succ_self _), hfound]
  constructor
  · intro h
    simp only [exact, Option.map_some, Option.some.injEq, Prod.mk.injEq, filter_eq_self] at h
    simpa using h.2
  · intro h
    rw [filter_eq_self.mpr (by simpa using h)]
    rfl

/-- **Phrase matching is exact exactly if no term of a match stands also one place before its
own.** -/
theorem getPhraseMatchData_exact_iff (doc : PhraseDocument) :
    doc.getPhraseMatchData = doc.exact ∧ doc.getPhraseMatchDataBlockMax = doc.exact ↔
      ∀ p ∈ doc.begins, ∀ t ∈ doc.rest.zipIdx p, t.2 ∉ t.1 := by
  rw [getPhraseMatchData, getPhraseMatchDataBlockMax, matchData_eq (Nat.zero_le 1),
    matchData_eq (Nat.le_refl 1)]
  simp

/-- The phrase of a word and the same word, in a document of these two words. -/
theorem getPhraseMatchData_not_exact : let doc : PhraseDocument :=
  ⟨[0, 1], [[0, 1]], by decide, by decide⟩
    doc.getPhraseMatchData ≠ doc.exact := by
  decide

end PhraseDocument

end Infinity.Search
