import Mathlib.Algebra.BigOperators.Group.Multiset.Basic
import Mathlib.Algebra.Order.Floor.Ring
import Mathlib.Data.Int.Log
import Mathlib.Data.Rat.Floor
import Mathlib.Logic.Relation

/-! # Sums in rounded arithmetic

Numbers that are added up in floating point, in any order and any grouping: each addition is
rounded, so the total is kept only where no sum of some of the numbers needs rounding.

* `binary32`: the rounding of the single-precision format.
* `AddsUp.sum_eq`: the total is kept where all partial sums are exact.
-/

namespace Infinity.Foundations

/-- The nearest integer, and the even one of two that are equally near. -/
def roundEven (x : ℚ) : ℤ :=
  if x - ⌊x⌋ < 1 / 2 ∨ x - ⌊x⌋ = 1 / 2 ∧ Even ⌊x⌋ then ⌊x⌋ else ⌊x⌋ + 1

/-- Rounding to the nearest binary32 value: 24 bits, and no bit below `2 ^ (-149)`. Overflow is left
out: the exponent has no upper bound. -/
def binary32 (x : ℚ) : ℚ :=
  let ulp : ℚ := 2 ^ max (Int.log 2 |x| - 23) (-149)
  roundEven (x / ulp) * ulp

section Rounding

variable {α : Type*} [AddCommMonoid α] {round : α → α} {s s' t t' : Multiset α}

/-- Two of the numbers are replaced by their rounded sum. -/
def AddsTwo (round : α → α) (s t : Multiset α) : Prop :=
  ∃ a b u, s = a ::ₘ b ::ₘ u ∧ t = round (a + b) ::ₘ u

/-- Some of the numbers are added up, and each addition is rounded. -/
def AddsUp (round : α → α) : Multiset α → Multiset α → Prop :=
  Relation.ReflTransGen (AddsTwo round)

/-- No sum of some of the numbers is rounded. -/
def SumsExactly (round : α → α) (s : Multiset α) : Prop :=
  ∀ t ≤ s, round t.sum = t.sum

theorem AddsUp.two (round : α → α) (a b : α) (u : Multiset α) :
    AddsUp round (a ::ₘ b ::ₘ u) (round (a + b) ::ₘ u) :=
  .single ⟨a, b, u, rfl, rfl⟩

theorem AddsUp.add_right (h : AddsUp round s t) (u : Multiset α) :
    AddsUp round (s + u) (t + u) := by
  refine Relation.ReflTransGen.lift (· + u) ?_ _ _ h
  rintro _ _ ⟨a, b, v, rfl, rfl⟩
  exact ⟨a, b, v + u, by simp, by simp⟩

theorem AddsUp.add (h : AddsUp round s t) (h' : AddsUp round s' t') :
    AddsUp round (s + s') (t + t') := by
  refine (h.add_right s').trans ?_
  rw [add_comm t, add_comm t]
  exact h'.add_right t

/-- An addition that is not rounded keeps the sum, and each partial sum behind it was one before. -/
theorem AddsTwo.exact (h : AddsTwo round s t) (hs : SumsExactly round s) :
    t.sum = s.sum ∧ SumsExactly round t := by
  obtain ⟨a, b, u, rfl, rfl⟩ := h
  have hab : round (a + b) = a + b := by
    simpa using hs (a ::ₘ b ::ₘ 0)
      (Multiset.cons_le_cons a (Multiset.cons_le_cons b (Multiset.zero_le u)))
  rw [hab]
  refine ⟨by simp [add_assoc], fun v hv => ?_⟩
  by_cases hmem : a + b ∈ v
  · obtain ⟨w, rfl⟩ := Multiset.exists_cons_of_mem hmem
    have := hs (a ::ₘ b ::ₘ w)
      (Multiset.cons_le_cons a (Multiset.cons_le_cons b ((Multiset.cons_le_cons_iff _).mp hv)))
    simpa [add_assoc] using this
  · exact hs v (((Multiset.le_cons_of_notMem hmem).mp hv).trans
      ((Multiset.le_cons_self u b).trans (Multiset.le_cons_self _ a)))

/-- **Where no partial sum is rounded, the total is kept.** -/
theorem AddsUp.sum_eq (h : AddsUp round s t) (hs : SumsExactly round s) : t.sum = s.sum := by
  suffices t.sum = s.sum ∧ SumsExactly round t from this.1
  induction h with
  | refl => exact ⟨rfl, hs⟩
  | tail _ hstep ih =>
    obtain ⟨hsum, hexact⟩ := hstep.exact ih.2
    exact ⟨hsum.trans ih.1, hexact⟩

end Rounding

end Infinity.Foundations
