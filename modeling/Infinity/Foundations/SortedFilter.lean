import Mathlib

/-! # Filters of sorted lists

On a list that is sorted along a relation, a predicate that the relation carries upward holds of an
end part of the list and of nothing before it. So dropping or taking from either end while the
predicate holds is filtering by it.

* `rdropWhile_eq_filter`, `rtakeWhile_eq_filter`, `dropWhile_eq_filter`: the scans are filters.
-/

namespace Infinity.Foundations

open List

variable {α : Type*} {r : α → α → Prop} {p : α → Bool}

def UpClosed (r : α → α → Prop) (p : α → Bool) : Prop := ∀ a b, r a b → p a = true → p b = true

/-- **A sorted list is what the predicate refuses and then what it accepts.** -/
theorem filter_append_filter (hp : UpClosed r p) : ∀ {l : List α}, l.Pairwise r →
    l.filter (fun a => !p a) ++ l.filter p = l
  | [], _ => rfl
  | a :: l, h => by
    obtain ⟨ha, hl⟩ := pairwise_cons.mp h
    cases hpa : p a with
    | true =>
      have hall : ∀ b ∈ l, p b := fun b hb => hp a b (ha b hb) hpa
      have hnone : l.filter (fun a => !p a) = [] := by
        rw [filter_eq_nil_iff]
        intro b hb
        simp [hall b hb]
      rw [filter_cons_of_neg (by simp [hpa]), filter_cons_of_pos hpa, hnone,
        filter_eq_self.mpr hall, nil_append]
    | false =>
      rw [filter_cons_of_pos (by simp [hpa]), filter_cons_of_neg (by simp [hpa]),
        cons_append, filter_append_filter hp hl]

variable {l : List α}

section

variable (hp : UpClosed r p) (hl : l.Pairwise r)
include hp hl

theorem takeWhile_eq_filter : l.takeWhile (fun a => !p a) = l.filter fun a => !p a := by
  conv_lhs => rw [← filter_append_filter hp hl]
  cases h : l.filter p with
  | nil => simp
  | cons a rest =>
    have ha : a ∈ l.filter p := by rw [h]; exact .head _
    simp [(mem_filter.mp ha).2]

theorem dropWhile_eq_filter : l.dropWhile (fun a => !p a) = l.filter p := by
  have hboth := takeWhile_append_dropWhile (p := fun a => !p a) (l := l)
  rw [takeWhile_eq_filter hp hl] at hboth
  exact append_cancel_left (hboth.trans (filter_append_filter hp hl).symm)

/-- Read from its end, the list is sorted along the reverse relation, which carries the negation
upward. -/
theorem rdropWhile_eq_filter : l.rdropWhile p = l.filter fun a => !p a := by
  have hnot : UpClosed (fun a b => r b a) fun a => !p a := fun a b hab ha => by
    rw [Bool.not_eq_true'] at ha ⊢
    exact Bool.eq_false_iff.mpr fun hb => by simp [hp b a hab hb] at ha
  have hdrop := dropWhile_eq_filter hnot (pairwise_reverse.mpr hl)
  simp only [Bool.not_not, filter_reverse] at hdrop
  rw [List.rdropWhile, hdrop, reverse_reverse]

theorem rtakeWhile_eq_filter : l.rtakeWhile p = l.filter p := by
  have hboth : l.rdropWhile p ++ l.rtakeWhile p = l := by
    rw [List.rdropWhile, List.rtakeWhile, ← reverse_append, takeWhile_append_dropWhile,
      reverse_reverse]
  rw [rdropWhile_eq_filter hp hl] at hboth
  exact append_cancel_left (hboth.trans (filter_append_filter hp hl).symm)

end

end Infinity.Foundations
