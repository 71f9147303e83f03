import Infinity.Foundations.Seek

/-! # Document iterators

A `DocIterator` stands on a document and is moved by `DoSeek`. The iterators of a query are built
from those of its parts: a term walks a posting list, `AndIterator` and `AndNotIterator` move their
children to common documents. The iterators are seekers in the sense of `Foundations.Seek`; what the
children do is used only through `Tracks`.

* `termSeeker_tracks`: a term of one segment tracks its documents.
* `andSeeker_tracks`, `andNotSeeker_tracks`: AND and AND NOT track set algebra over their
children. -/

namespace Infinity.Search

open Foundations List

variable {d p fuel docId : ℕ} {l : List Seeker} {I : Seeker} {s : I.State} {Ds : List (ℕ → Prop)}
    {D : ℕ → Prop}

/-- `INVALID_ROWID`. -/
def invalidRowID : ℕ := 2 ^ 64 - 1

/-! ## Terms -/

/-- A posting list: the documents of a term in ascending order. It stands for the lists on which
`MultiPostingDecoder` truncates no row id: those of one segment. `BlockPosting` has the general
case. -/
structure PostingList where
  docs : List ℕ
  sorted : docs.Pairwise (· < ·)
  valid : ∀ d ∈ docs, d < invalidRowID

/-- `PostingIterator::SeekDoc`: the first document not before the target. -/
def PostingList.seekDoc (l : PostingList) (docId : ℕ) : ℕ := seekIn invalidRowID l.docs docId

theorem PostingList.seeksTo (l : PostingList) (hd : d ≤ invalidRowID) :
    SeeksTo invalidRowID (· ∈ l.docs) d (l.seekDoc d) :=
  seeksTo_seekIn l.sorted l.valid hd

/-- `TermDocIterator`. The state is `doc_id_`. -/
def termSeeker (l : PostingList) : Seeker where
  State := ℕ
  doc s := s
  doSeek _ docId := l.seekDoc docId

theorem termSeeker_tracks (l : PostingList) (hd : d ≤ invalidRowID) :
    (termSeeker l).Tracks invalidRowID (· ∈ l.docs) (l.seekDoc d) d :=
  Seeker.tracks_doSeek (I := termSeeker l) (s := d) (T := fun _ _ => True) (fun _ _ => trivial)
    (fun _ _ hd => ⟨trivial, l.seeksTo hd⟩) trivial (Nat.le_refl d) hd

/-- The states of the children of a composite iterator. -/
def States : List Seeker → Type
  | [] => Unit
  | I :: l => I.State × States l

/-- The children track their sets, for targets not below `p`. -/
def AllTrack : (l : List Seeker) → List (ℕ → Prop) → States l → ℕ → Prop
  | [], [], _, _ => True
  | I :: l, D :: Ds, (s, ss), p => I.Tracks invalidRowID D s p ∧ AllTrack l Ds ss p
  | _, _, _, _ => False

theorem AllTrack.mono {q : ℕ} (hpq : p ≤ q) :
    ∀ {l : List Seeker} {Ds : List (ℕ → Prop)} {ss : States l},
    AllTrack l Ds ss p → AllTrack l Ds ss q
  | [], [], _, _ => trivial
  | _ :: _, _ :: _, (_, _), h => ⟨h.1.mono hpq, h.2.mono hpq⟩
  | [], _ :: _, _, h => h
  | _ :: _, [], _, h => h

/-! ## AND -/

/-- The `while` loop of `AndIterator::DoSeek` up to the first child that does not stand on the
target: the document of that child, if there is one. -/
def andPass : (l : List Seeker) → States l → ℕ → States l × Option ℕ
  | [], ss, _ => (ss, none)
  | I :: l, (s, ss), docId =>
    let s' := I.seek s docId
    if I.doc s' ≠ docId then ((s', ss), some (I.doc s'))
    else
      let (ss', doc) := andPass l ss docId
      ((s', ss'), doc)

/-- `AndIterator::DoSeek`: a child that does not match gives the next target, and the loop restarts
from the first child. -/
def andLoop (l : List Seeker) : ℕ → States l → ℕ → States l × ℕ
  | 0, ss, docId => (ss, docId)
  | fuel + 1, ss, docId =>
    match andPass l ss docId with
    | (ss', none) => (ss', docId)
    | (ss', some doc) => andLoop l fuel ss' doc

/-- `AndIterator` over the children in the order of `sorted_iterators_`. The state holds those of
the children and `doc_id_`. -/
def andSeeker (l : List Seeker) : Seeker where
  State := States l × ℕ
  doc s := s.2
  doSeek s docId := andLoop l (invalidRowID - docId + 1) s.1 docId

variable {ss : States l}

theorem andPass_cons_of_ne (h : I.doc (I.seek s d) ≠ d) :
    andPass (I :: l) (s, ss) d = ((I.seek s d, ss), some (I.doc (I.seek s d))) := if_pos h

theorem andPass_cons_of_eq (h : I.doc (I.seek s d) = d) :
    andPass (I :: l) (s, ss) d = ((I.seek s d, (andPass l ss d).1), (andPass l ss d).2) :=
  if_neg (not_not.mpr h)

/-- What a pass finds: all children on the target, or a later target that no common document is
before. -/
theorem andPass_spec {p d : ℕ} (hp : p ≤ d) (hd : d ≤ invalidRowID) :
    ∀ {l : List Seeker} {Ds : List (ℕ → Prop)} {ss : States l}, AllTrack l Ds ss p →
      AllTrack l Ds (andPass l ss d).1 d ∧
          (((andPass l ss d).2 = none ∧ (d < invalidRowID → ∀ D ∈ Ds, D d)) ∨
          ∃ r, (andPass l ss d).2 = some r ∧ d < r ∧ r ≤ invalidRowID ∧ ∃ D ∈ Ds, ∀ x, d ≤ x →
          x < r → ¬ D x)
  | [], [], _, _ => ⟨trivial, .inl ⟨rfl, fun _ _ h => nomatch h⟩⟩
  | [], _ :: _, _, h => h.elim
  | _ :: _, [], _, h => h.elim
  | I :: l, D :: Ds, (s, ss), ⟨hI, hl⟩ => by
    obtain ⟨hI', hto⟩ := hI.seek hp hd
    by_cases hdoc : I.doc (I.seek s d) = d
    · rw [andPass_cons_of_eq hdoc]
      obtain ⟨hl', hcases⟩ := andPass_spec hp hd hl
      refine ⟨⟨hI', hl'⟩, ?_⟩
      rw [hdoc] at hto
      rcases hcases with ⟨hnone, hall⟩ | ⟨r, hsome, hlt, hri, E, hE, hbetween⟩
      · exact .inl ⟨hnone, fun hlt => forall_mem_cons.mpr ⟨hto.mem hlt, hall hlt⟩⟩
      · exact .inr ⟨r, hsome, hlt, hri, E, mem_cons_of_mem _ hE, hbetween⟩
    · rw [andPass_cons_of_ne hdoc]
      refine ⟨⟨hI', hl.mono hp⟩, .inr ⟨_, rfl, ?_, hto.le_top, D, mem_cons_self, hto.none_between⟩⟩
      exact Nat.lt_of_le_of_ne hto.le (Ne.symm hdoc)

/-- The loop finds the next common document within so many turns; another turn changes nothing. -/
theorem andLoop_spec (hfuel : invalidRowID < d + fuel) (hp : p ≤ d) (hd : d ≤ invalidRowID)
    (h : AllTrack l Ds ss p) : (AllTrack l Ds (andLoop l fuel ss d).1 (andLoop l fuel ss d).2 ∧
      SeeksTo invalidRowID (fun x => ∀ D ∈ Ds, D x) d (andLoop l fuel ss d).2) ∧
      andLoop l (fuel + 1) ss d = andLoop l fuel ss d := by
  induction fuel generalizing p d ss with
  | zero => omega
  | succ fuel ih =>
    obtain ⟨h', hcases⟩ := andPass_spec hp hd h
    rw [andLoop, andLoop]
    rcases hpass : andPass l ss d with ⟨ss', doc⟩
    rw [hpass] at h' hcases
    rcases hcases with ⟨rfl, hall⟩ | ⟨r, rfl, hlt, hri, D, hD, hbetween⟩
    · exact ⟨⟨h', Nat.le_refl d, hd, hall, fun _ hx hlt => absurd hx (Nat.not_le.mpr hlt)⟩, rfl⟩
    · obtain ⟨⟨hres, hto⟩, hsucc⟩ := ih (by omega) (Nat.le_of_lt hlt) hri h'
      exact ⟨⟨hres, hto.skip (Nat.le_of_lt hlt) fun x hx hxr hall => hbetween x hx hxr (hall D hD)⟩,
        hsucc⟩

/-- **An AND tracks the documents of all children**, once it was moved. -/
theorem andSeeker_tracks (h : AllTrack l Ds ss p) (hp : p ≤ d) (hd : d ≤ invalidRowID) (doc : ℕ) :
    (andSeeker l).Tracks invalidRowID (fun x => ∀ D ∈ Ds, D x)
    ((andSeeker l).doSeek (ss, doc) d) d :=
  Seeker.tracks_doSeek (I := andSeeker l) (T :=
    fun s p => AllTrack l Ds s.1 p) (fun hpq h => h.mono hpq)
    (fun h hp hd => (andLoop_spec (by omega) hp hd h).1) h hp hd

/-! ## AND NOT -/

/-- The inner loop of `AndNotIterator::DoSeek`: whether one of the excluded children stands on the
document. -/
def andNotPass : (l : List Seeker) → States l → ℕ → States l × Bool
  | [], ss, _ => (ss, false)
  | I :: l, (s, ss), docId =>
    let s' := I.seek s docId
    if I.doc s' = docId then ((s', ss), true)
    else
      let (ss', hit) := andNotPass l ss docId
      ((s', ss'), hit)

/-- `AndNotIterator::DoSeek` over the first child and the excluded ones. -/
def andNotLoop (I : Seeker) (l : List Seeker) : ℕ → I.State × States l → ℕ →
    (I.State × States l) × ℕ
  | 0, ss, docId => (ss, docId)
  | fuel + 1, (s, ss), docId =>
    let s' := I.seek s docId
    let doc := I.doc s'
    if doc = invalidRowID then ((s', ss), doc)
    else
      match andNotPass l ss doc with
      | (ss', true) => andNotLoop I l fuel (s', ss') (doc + 1)
      | (ss', false) => ((s', ss'), doc)

/-- `AndNotIterator`. -/
def andNotSeeker (I : Seeker) (l : List Seeker) : Seeker where
  State := (I.State × States l) × ℕ
  doc s := s.2
  doSeek s docId := andNotLoop I l (invalidRowID - docId + 1) s.1 docId

theorem andNotPass_cons_of_eq
    (h : I.doc (I.seek s d) = d) : andNotPass (I :: l) (s, ss) d = ((I.seek s d, ss), true) :=
  if_pos h

theorem andNotPass_cons_of_ne (h : I.doc (I.seek s d) ≠ d) :
    andNotPass (I :: l) (s, ss) d = ((I.seek s d, (andNotPass l ss d).1), (andNotPass l ss d).2) :=
  if_neg h

theorem andNotPass_spec {p d : ℕ} (hp : p ≤ d) (hd : d < invalidRowID) :
    ∀ {l : List Seeker} {Ds : List (ℕ → Prop)} {ss : States l}, AllTrack l Ds ss p →
      AllTrack l Ds (andNotPass l ss d).1 d ∧ ((andNotPass l ss d).2 ↔ ∃ D ∈ Ds, D d)
  | [], [], _, _ => ⟨trivial, nofun, nofun⟩
  | [], _ :: _, _, h => h.elim
  | _ :: _, [], _, h => h.elim
  | I :: l, D :: Ds, (s, ss), ⟨hI, hl⟩ => by
    obtain ⟨hI', hto⟩ := hI.seek hp (Nat.le_of_lt hd)
    by_cases hdoc : I.doc (I.seek s d) = d
    · rw [andNotPass_cons_of_eq hdoc]
      rw [hdoc] at hto
      exact ⟨⟨hI', hl.mono hp⟩, fun _ => ⟨D, mem_cons_self, hto.mem hd⟩, fun _ => rfl⟩
    · rw [andNotPass_cons_of_ne hdoc]
      obtain ⟨hl', hhit⟩ := andNotPass_spec hp hd hl
      refine ⟨⟨hI', hl'⟩, hhit.trans ⟨fun ⟨E, hE, hd'⟩ => ⟨E, mem_cons_of_mem _ hE, hd'⟩, ?_⟩⟩
      rintro ⟨E, hE, hd'⟩
      rcases mem_cons.mp hE with rfl | hE
      · have := Nat.lt_of_le_of_ne hto.le (Ne.symm hdoc)
        exact absurd hd' (hto.none_between d (Nat.le_refl d) this)
      · exact ⟨E, hE, hd'⟩

theorem andNotLoop_spec {ss : I.State × States l} (hfuel : invalidRowID < d + fuel) (hp : p ≤ d)
    (hd : d ≤ invalidRowID) (h : AllTrack (I :: l) (D :: Ds) ss p) :
    (AllTrack (I :: l) (D :: Ds) (andNotLoop I l fuel ss d).1 (andNotLoop I l fuel ss d).2 ∧
      SeeksTo invalidRowID (fun x => D x ∧ ∀ E ∈ Ds, ¬ E x) d (andNotLoop I l fuel ss d).2) ∧
      andNotLoop I l (fuel + 1) ss d = andNotLoop I l fuel ss d := by
  induction fuel generalizing p d ss with
  | zero => omega
  | succ fuel ih =>
    obtain ⟨s, ss⟩ := ss
    obtain ⟨hI, hl⟩ := h
    obtain ⟨hI', hto⟩ := hI.seek hp hd
    have hle := hto.le
    have hle' := hto.le_top
    rw [andNotLoop, andNotLoop]
    by_cases htop : I.doc (I.seek s d) = invalidRowID
    · rw [if_pos htop, if_pos htop]
      exact ⟨⟨⟨hI'.mono hle, hl.mono (Nat.le_trans hp hle)⟩, hle, hle', fun hlt =>
        absurd htop (Nat.ne_of_lt hlt), fun x hx hlt hD => hto.none_between x hx hlt hD.1⟩, rfl⟩
    · rw [if_neg htop, if_neg htop]
      have hlt : I.doc (I.seek s d) < invalidRowID := Nat.lt_of_le_of_ne hle' htop
      obtain ⟨hl', hhit⟩ := andNotPass_spec (Nat.le_trans hp hle) hlt hl
      rcases hpass : andNotPass l ss (I.doc (I.seek s d)) with ⟨ss', hit⟩
      rw [hpass] at hl' hhit
      cases hit with
      | true =>
        have hnext : AllTrack (I :: l) (D :: Ds) (I.seek s d, ss') (I.doc (I.seek s d) + 1) :=
          ⟨hI'.mono (by omega), hl'.mono (by omega)⟩
        obtain ⟨⟨hres, hto'⟩, hsucc⟩ := ih (by omega) (Nat.le_refl _) hlt hnext
        refine ⟨⟨hres, hto'.skip (by omega) fun x hx hxr ⟨hD, hnot⟩ => ?_⟩, hsucc⟩
        rcases Nat.lt_or_ge x (I.doc (I.seek s d)) with hxd | hxd
        · exact hto.none_between x hx hxd hD
        · have hxeq : x = I.doc (I.seek s d) := by omega
          obtain ⟨E, hE, hEd⟩ := hhit.mp rfl
          exact hnot E hE (hxeq ▸ hEd)
      | false =>
        refine ⟨⟨⟨hI'.mono hle, hl'⟩, hle, hle', fun _ => ⟨hto.mem hlt, fun E hE hEd => ?_⟩,
          fun x hx hxr hD => hto.none_between x hx hxr hD.1⟩, rfl⟩
        exact Bool.false_ne_true (hhit.mpr ⟨E, hE, hEd⟩)

/-- **An AND NOT tracks the documents of the first child that no other has**, once it was moved. -/
theorem andNotSeeker_tracks {ss : I.State × States l}
    (h : AllTrack (I :: l) (D :: Ds) ss p) (hp : p ≤ d) (hd : d ≤ invalidRowID) (doc : ℕ) :
    (andNotSeeker I l).Tracks invalidRowID (fun x => D x ∧ ∀ E ∈ Ds, ¬ E x)
    ((andNotSeeker I l).doSeek (ss, doc) d) d :=
  Seeker.tracks_doSeek (I := andNotSeeker I l) (T := fun s p => AllTrack (I :: l) (D :: Ds) s.1 p)
    (fun hpq h => h.mono hpq) (fun h hp hd => (andNotLoop_spec (by omega) hp hd h).1) h hp hd

end Infinity.Search
