import Mathlib

/-! # Seeking in ascending sets

A set of numbers below `top` is walked by seeking: from `d` the next element is the least one not
below `d`, or `top` if there is none. A seeker is an object that stands on an element and can be
moved to a later one. It tracks a set if every movement leads to the next element of the set.

* `SeeksTo`: the relation between a target and the next element.
* `Tracks`: what a seeker does from a state on, as the largest relation that its movements keep.
* `Honours`: the same said by sequences of calls.
-/

namespace Infinity.Foundations

open List

/-! ## The next element -/

/-- `r` is the least element of `D` that is not below `d`, or `top` if there is none. -/
structure SeeksTo (top : ℕ) (D : ℕ → Prop) (d r : ℕ) : Prop where
  le : d ≤ r
  le_top : r ≤ top
  mem : r < top → D r
  none_between : ∀ x, d ≤ x → x < r → ¬ D x

namespace SeeksTo

variable {top : ℕ} {D E : ℕ → Prop} {d d' r r' : ℕ}

/-- The next element from an earlier target is the one from every target up to it. -/
theorem mono (h : SeeksTo top D d r) (hd : d ≤ d') (hr : d' ≤ r) : SeeksTo top D d' r :=
  ⟨hr, h.le_top, h.mem, fun x hx => h.none_between x (Nat.le_trans hd hx)⟩

/-- An element of the set is the next one from itself. -/
theorem self (hd : d < top) (hD : D d) : SeeksTo top D d d :=
  ⟨Nat.le_refl d, Nat.le_of_lt hd, fun _ => hD, fun _ hx hlt => absurd hx (Nat.not_le.mpr hlt)⟩

/-- Elements that are left out before the target do not matter. -/
theorem skip (h : SeeksTo top D d' r) (hd : d ≤ d') (hnone : ∀ x, d ≤ x → x < d' → ¬ D x) :
    SeeksTo top D d r := by
  refine ⟨Nat.le_trans hd h.le, h.le_top, h.mem, fun x hx hlt => ?_⟩
  rcases Nat.lt_or_ge x d' with hlt' | hge
  · exact hnone x hx hlt'
  · exact h.none_between x hge hlt

end SeeksTo

/-! ## Ascending lists -/

section Lists

variable {top : ℕ} {l : List ℕ}

/-- The first element with a property in a list with ascending keys is the one with the least
key. -/
theorem find?_ascending {α : Type*} {key : α → ℕ} {p : α → Bool} {l : List α} {x : α}
    (hl : l.Pairwise fun a b => key a < key b) (h : l.find? p = some x) :
    x ∈ l ∧ p x ∧ ∀ y ∈ l, p y → key x ≤ key y := by
  obtain ⟨hx, before, after, rfl, hbefore⟩ := find?_eq_some_iff_append.mp h
  refine ⟨mem_of_find?_eq_some h, hx, fun y hy hpy => ?_⟩
  rcases mem_append.mp hy with hy | hy
  · have := hbefore y hy
    rw [hpy] at this
    exact absurd this Bool.false_ne_true
  · rcases mem_cons.mp hy with rfl | hy
    · exact Nat.le_refl _
    · exact Nat.le_of_lt (rel_of_pairwise_cons (pairwise_append.mp hl).2.1 hy)

/-- Ascending lists with the same elements are equal. -/
theorem ascending_ext {l l' : List ℕ} (hl : l.Pairwise (· < ·)) (hl' : l'.Pairwise (· < ·))
    (h : ∀ x, x ∈ l ↔ x ∈ l') : l = l' := by
  have hperm : l.Perm l' :=
    (perm_ext_iff_of_nodup (hl.imp Nat.ne_of_lt) (hl'.imp Nat.ne_of_lt)).mpr h
  exact hperm.eq_of_pairwise (fun _ _ _ _ hlt hgt => absurd hlt (Nat.lt_asymm hgt)) hl hl'

def seekIn (top : ℕ) (l : List ℕ) (d : ℕ) : ℕ := (l.find? (d ≤ ·)).getD top

theorem seeksTo_seekIn (hl : l.Pairwise (· < ·)) (htop : ∀ x ∈ l, x < top) {d : ℕ} (hd : d ≤ top) :
    SeeksTo top (· ∈ l) d (seekIn top l d) := by
  unfold seekIn
  cases hfind : l.find? (d ≤ ·) with
  | none =>
    refine ⟨hd, Nat.le_refl _, fun h => absurd h (Nat.lt_irrefl _), fun x hx _ hmem => ?_⟩
    exact find?_eq_none.mp hfind x hmem (decide_eq_true hx)
  | some r =>
    obtain ⟨hmem, hr, hleast⟩ := find?_ascending hl hfind
    refine ⟨of_decide_eq_true hr, Nat.le_of_lt (htop r hmem), fun _ => hmem, fun x hx hlt hx' => ?_⟩
    exact absurd (hleast x hx' (decide_eq_true hx)) (Nat.not_le.mpr hlt)

end Lists

/-! ## Seekers -/

/-- An object that stands on a number and can be moved to a later one. -/
structure Seeker where
  State : Type
  doc : State → ℕ
  doSeek : State → ℕ → State

namespace Seeker

variable (I : Seeker) {top : ℕ} {D E : ℕ → Prop} {s : I.State} {p d : ℕ}

def seek (s : I.State) (d : ℕ) : I.State := if I.doc s < d then I.doSeek s d else s

/-- The numbers that a seeker stands on until it reaches `top`, at most as many as the fuel. -/
def collect (top : ℕ) : ℕ → I.State → List ℕ
  | 0, _ => []
  | fuel + 1, s =>
    if I.doc s = top then [] else I.doc s :: collect top fuel (I.doSeek s (I.doc s + 1))

/-- From `s` on, for targets not below `p`, the seeker moves to the next element of `D`. -/
def Tracks (top : ℕ) (D : ℕ → Prop) (s : I.State) (p : ℕ) : Prop :=
  ∃ R : I.State → ℕ → Prop, R s p ∧ ∀ s p, R s p →
    (∃ q ≤ p, SeeksTo top D q (I.doc s)) ∧
      ∀ d, p ≤ d → d ≤ top → I.doc s < d → R (I.doSeek s d) d ∧
      SeeksTo top D d (I.doc (I.doSeek s d))

/-- The calls of a user. -/
inductive Call where
  | seek (d : ℕ)
  | next

def target (s : I.State) : Call → ℕ
  | .seek d => d
  | .next => I.doc s + 1

def call (s : I.State) : Call → I.State
  | .seek d => I.seek s d
  | .next => I.doSeek s (I.doc s + 1)

/-- The calls lead to the next elements, as long as their targets do not fall and are not beyond
`top`. Nothing is said of a `Next` at `top`, whose target is beyond it. -/
def Answers (top : ℕ) (D : ℕ → Prop) : List Call → I.State → ℕ → Prop
  | [], _, _ => True
  | c :: cs, s, p => p ≤ I.target s c → I.target s c ≤ top →
    SeeksTo top D (I.target s c) (I.doc (I.call s c)) ∧ Answers top D cs (I.call s c) (I.target s c)

/-- A seeker that stands on the first element and answers every sequence of calls. -/
def Honours (top : ℕ) (D : ℕ → Prop) (s : I.State) : Prop :=
  SeeksTo top D 0 (I.doc s) ∧ ∀ cs, I.Answers top D cs s 0

variable {I}

theorem Tracks.doc (h : I.Tracks top D s p) : ∃ q ≤ p, SeeksTo top D q (I.doc s) := by
  obtain ⟨R, hR, hstep⟩ := h
  exact (hstep s p hR).1

theorem Tracks.doSeek (h : I.Tracks top D s p) (hp : p ≤ d) (hd : d ≤ top) (hlt : I.doc s < d) :
    I.Tracks top D (I.doSeek s d) d ∧ SeeksTo top D d (I.doc (I.doSeek s d)) := by
  obtain ⟨R, hR, hstep⟩ := h
  obtain ⟨hR', hto⟩ := (hstep s p hR).2 d hp hd hlt
  exact ⟨⟨R, hR', hstep⟩, hto⟩

/-- A relation that the movements keep is a tracking. -/
theorem Tracks.intro {R : I.State → ℕ → Prop} (hR : R s p)
    (hdoc : ∀ s p, R s p → ∃ q ≤ p, SeeksTo top D q (I.doc s))
      (hstep : ∀ s p, R s p → ∀ d, p ≤ d → d ≤ top → I.doc s < d → R (I.doSeek s d) d ∧
      SeeksTo top D d (I.doc (I.doSeek s d))) : I.Tracks top D s p :=
  ⟨R, hR, fun s p h => ⟨hdoc s p h, hstep s p h⟩⟩

theorem Tracks.mono (h : I.Tracks top D s p) (hp : p ≤ d) : I.Tracks top D s d := by
  refine .intro (R := fun s d => ∃ p ≤ d, I.Tracks top D s p) ⟨p, hp, h⟩ ?_ ?_
  · rintro s d ⟨p, hp, h⟩
    obtain ⟨q, hq, hto⟩ := h.doc
    exact ⟨q, Nat.le_trans hq hp, hto⟩
  · rintro s d ⟨p, hp, h⟩ e hde he hlt
    obtain ⟨h', hto⟩ := h.doSeek (Nat.le_trans hp hde) he hlt
    exact ⟨⟨e, Nat.le_refl e, h'⟩, hto⟩

/-- A seeker that was moved tracks, if each movement keeps `T` and leads to the next element. The
inner parts may stand on that element already, beyond the last target. -/
theorem tracks_doSeek {T : I.State → ℕ → Prop} (hmono : ∀ {s p q}, p ≤ q → T s p → T s q)
    (hstep : ∀ {s p d}, T s p → p ≤ d → d ≤ top →
      T (I.doSeek s d) (I.doc (I.doSeek s d)) ∧ SeeksTo top D d (I.doc (I.doSeek s d)))
    (h : T s p) (hp : p ≤ d) (hd : d ≤ top) : I.Tracks top D (I.doSeek s d) d := by
  refine .intro (R := fun s p => T s (max p (I.doc s)) ∧ ∃ q ≤ p, SeeksTo top D q (I.doc s)) ?_
    (fun s p h => h.2) ?_
  · obtain ⟨hT, hto⟩ := hstep h hp hd
    exact ⟨hmono (Nat.le_max_right _ _) hT, d, Nat.le_refl d, hto⟩
  · intro s p ⟨hT, _⟩ d hp hd hlt
    obtain ⟨hT', hto⟩ := hstep hT (by omega) hd
    exact ⟨⟨hmono (Nat.le_max_right _ _) hT', d, Nat.le_refl d, hto⟩, hto⟩

/-- **A seek leads to the next element.** -/
theorem Tracks.seek (h : I.Tracks top D s p) (hp : p ≤ d) (hd : d ≤ top) :
    I.Tracks top D (I.seek s d) d ∧ SeeksTo top D d (I.doc (I.seek s d)) := by
  unfold Seeker.seek
  split
  next hlt => exact h.doSeek hp hd hlt
  next hge =>
    obtain ⟨q, hq, hto⟩ := h.doc
    exact ⟨h.mono hp, hto.mono (Nat.le_trans hq hp) (Nat.not_lt.mp hge)⟩

theorem Tracks.answers (cs : List Call) (h : I.Tracks top D s p) : I.Answers top D cs s p := by
  induction cs generalizing s p with
  | nil => trivial
  | cons c cs ih =>
    intro hp htop
    have hcall : I.call s c = I.seek s (I.target s c) := by
      cases c with
      | seek d => rfl
      | next => exact (if_pos (Nat.lt_succ_self _)).symm
    obtain ⟨h', hto⟩ := h.seek hp htop
    rw [← hcall] at h' hto
    exact ⟨hto, ih h'⟩

/-- **A seeker that answers every sequence of calls tracks**, and the other way round. -/
theorem honours_iff_tracks : I.Honours top D s ↔ I.Tracks top D s 0 := by
  constructor
  · rintro ⟨hfirst, hall⟩
    refine ⟨fun s p => (∃ q ≤ p, SeeksTo top D q (I.doc s)) ∧ ∀ cs, I.Answers top D cs s p,
      ⟨⟨0, le_rfl, hfirst⟩, hall⟩, fun s p hs => ⟨hs.1, fun d hp hd hlt => ?_⟩⟩
    have hcall : I.call s (.seek d) = I.doSeek s d := if_pos hlt
    have hnext (cs : List Call) := hs.2 (.seek d :: cs) hp hd
    rw [hcall] at hnext
    exact ⟨⟨⟨d, le_rfl, (hnext []).1⟩, fun cs => (hnext cs).2⟩, (hnext []).1⟩
  · intro h
    obtain ⟨q, hq, hto⟩ := h.doc
    exact ⟨Nat.le_zero.mp hq ▸ hto, fun cs => h.answers cs⟩

/-- **Walking to the end lists the set**, in ascending order, from where the seeker stands. -/
theorem Tracks.collect {fuel : ℕ} (hfuel : top ≤ I.doc s + fuel) (h : I.Tracks top D s p)
    (hp : p ≤ I.doc s) :
    (I.collect top fuel s).Pairwise (· < ·) ∧ ∀ x, x ∈ I.collect top fuel s ↔ I.doc s ≤ x ∧
    x < top ∧ D x := by
  induction fuel generalizing s p with
  | zero => exact ⟨Pairwise.nil, fun x => ⟨nofun, fun ⟨hle, hlt, _⟩ => by omega⟩⟩
  | succ fuel ih =>
    obtain ⟨q, _, hto⟩ := h.doc
    unfold Seeker.collect
    split
    next htop => exact ⟨Pairwise.nil, fun x => ⟨nofun, fun ⟨hle, hlt, _⟩ => by omega⟩⟩
    next htop =>
      have hlt : I.doc s < top := Nat.lt_of_le_of_ne hto.le_top htop
      obtain ⟨h', hto'⟩ := h.doSeek (d := I.doc s + 1) (by omega) hlt (by omega)
      have hle := hto'.le
      obtain ⟨hsorted, hmem⟩ := ih (by omega) h' hle
      refine ⟨pairwise_cons.mpr ⟨fun x hx => ?_, hsorted⟩, fun x => ?_⟩
      · have := ((hmem x).mp hx).1
        omega
      · rw [mem_cons, hmem]
        constructor
        · rintro (rfl | ⟨hx, hxt, hD⟩)
          · exact ⟨Nat.le_refl _, hlt, hto.mem hlt⟩
          · exact ⟨by omega, hxt, hD⟩
        · rintro ⟨hx, hxt, hD⟩
          rcases Nat.lt_or_ge (I.doc s) x with hlt' | hge
          · refine .inr ⟨?_, hxt, hD⟩
            by_contra hlt''
            exact hto'.none_between x hlt' (Nat.not_le.mp hlt'') hD
          · exact Or.inl (Nat.le_antisymm hge hx)

end Seeker

end Infinity.Foundations
