import Infinity.Foundations.SortedFilter

/-! # The best elements of a set

A selection of at most `n` elements of a set holds the best ones if every element that is left out
has a smaller key than all that are held, and elements are left out only if there are `n` others. A
search that visits the elements one after the other keeps such a selection of those visited so far.

* `BestOf.skip`, `BestOf.push`, `BestOf.replace`: the three ways to go on to a larger set.
* `BestOf.eq_take`: a sorted selection is the beginning of the ranking of the whole set.
-/

namespace Infinity.Foundations

open List

variable {α κ : Type*} [LinearOrder κ] {key : α → κ} {n : ℕ} {P P' : α → Prop} {l l' : List α}
    {d : α}

/-- The list holds the `n` best elements of the set. -/
structure BestOf (key : α → κ) (n : ℕ) (P : α → Prop) (l : List α) : Prop where
  nodup : l.Nodup
  mem : ∀ a ∈ l, P a
  length_le : l.length ≤ n
  rest : ∀ b, P b → b ∉ l → l.length = n ∧ ∀ a ∈ l, key b < key a

namespace BestOf

theorem nil (h : ∀ a, ¬ P a) : BestOf key n P [] :=
  ⟨nodup_nil, nofun, Nat.zero_le n, fun b hb => absurd hb (h b)⟩

theorem perm (h : BestOf key n P l) (hl : l.Perm l') : BestOf key n P l' where
  nodup := hl.nodup_iff.mp h.nodup
  mem a ha := h.mem a (hl.mem_iff.mpr ha)
  length_le := hl.length_eq ▸ h.length_le
  rest b hb hnot := by
    obtain ⟨hlen, hlt⟩ := h.rest b hb fun hmem => hnot (hl.mem_iff.mp hmem)
    exact ⟨hl.length_eq ▸ hlen, fun a ha => hlt a (hl.mem_iff.mpr ha)⟩

/-- **Elements that are worse than `n` others are left out.** -/
theorem skip (h : BestOf key n P l) (hP : ∀ a, P a → P' a)
    (hnew : ∀ b, P' b → ¬ P b → l.length = n ∧ ∀ a ∈ l, key b < key a) : BestOf key n P' l where
  nodup := h.nodup
  mem a ha := hP a (h.mem a ha)
  length_le := h.length_le
  rest b hb hnot := by
    by_cases hPb : P b
    · exact h.rest b hPb hnot
    · exact hnew b hb hPb

/-- **While there is room every element is held.** -/
theorem push (h : BestOf key n P l) (hlen : l.length < n) (hd : ¬ P d) :
    BestOf key n (fun a => P a ∨ a = d) (d :: l) where
  nodup := nodup_cons.mpr ⟨fun hmem => hd (h.mem d hmem), h.nodup⟩
  mem := forall_mem_cons.mpr ⟨.inr rfl, fun a ha => .inl (h.mem a ha)⟩
  length_le := hlen
  rest b hb hnot := by
    rw [mem_cons, not_or] at hnot
    have := (h.rest b (hb.resolve_right hnot.1) hnot.2).1
    omega

/-- **A better element takes the place of the worst one.** -/
theorem replace (hkey : Function.Injective key) {worst : α} (h : BestOf key n P (worst :: l))
    (hlen : (worst :: l).length = n) (hworst : ∀ a ∈ l, key worst ≤ key a) (hlt : key worst < key d)
    (hd : ¬ P d) : BestOf key n (fun a => P a ∨ a = d) (d :: l) where
  nodup := by
    refine nodup_cons.mpr ⟨fun hmem => hd (h.mem d (mem_cons_of_mem _ hmem)), ?_⟩
    exact (nodup_cons.mp h.nodup).2
  mem := forall_mem_cons.mpr ⟨.inr rfl, fun a ha => .inl (h.mem a (mem_cons_of_mem _ ha))⟩
  length_le := h.length_le
  rest b hb hnot := by
    rw [mem_cons, not_or] at hnot
    refine ⟨hlen, ?_⟩
    by_cases hbw : b = worst
    · subst hbw
      refine forall_mem_cons.mpr ⟨hlt, fun a ha => lt_of_le_of_ne (hworst a ha) fun heq => ?_⟩
      exact (nodup_cons.mp h.nodup).1 (hkey heq ▸ ha)
    · have hbelow := (h.rest b (hb.resolve_right hnot.1) (by simp [hbw, hnot.2])).2
      obtain ⟨hbworst, hbl⟩ := forall_mem_cons.mp hbelow
      exact forall_mem_cons.mpr ⟨hbworst.trans hlt, hbl⟩

end BestOf

/-- A descending list that holds an upper part of a descending list is its beginning. -/
theorem eq_take_of_upper {r : List α} (hl : l.Pairwise fun a b => key b < key a)
    (hr : r.Pairwise fun a b => key b < key a)
    (hsub : ∀ a ∈ r, a ∈ l) (hupper : ∀ b ∈ l, b ∉ r → ∀ a ∈ r, key b < key a) :
    r = l.take r.length := by
  classical
  have hnodup {l : List α} (h : l.Pairwise fun a b => key b < key a) : l.Nodup :=
    h.imp fun {a b} hlt (heq : a = b) => lt_irrefl _ (heq ▸ hlt)
  have hperm : r.Perm (l.filter fun a => ! decide (a ∉ r)) := by
    refine (perm_ext_iff_of_nodup (hnodup hr) ((hnodup hl).filter _)).mpr fun a => ?_
    simpa using hsub a
  have heq := hperm.eq_of_pairwise (fun _ _ _ _ h h' => absurd h (lt_asymm h')) hr (hl.filter _)
  have hup : UpClosed (fun a b => a ∈ l ∧ key b < key a) fun a => decide (a ∉ r) := by
    intro a b ⟨ha, hab⟩ hnot
    exact decide_eq_true fun hb => lt_asymm hab (hupper a ha (of_decide_eq_true hnot) b hb)
  apply prefix_iff_eq_take.mp
  conv_lhs => rw [heq]
  exact ⟨_, filter_append_filter hup (hl.imp_of_mem fun ha _ hab => ⟨ha, hab⟩)⟩

/-- **A sorted selection of the best is the beginning of the ranking.** -/
theorem BestOf.eq_take {ranking : List α} (h : BestOf key n (· ∈ ranking) l)
    (hl : l.Pairwise fun a b => key b < key a)
    (hranking : ranking.Pairwise fun a b => key b < key a) : l = ranking.take n := by
  have hupper := eq_take_of_upper hranking hl h.mem fun b hb hnot => (h.rest b hb hnot).2
  rcases lt_or_eq_of_le h.length_le with hlt | heq
  · -- nothing is left out
    have hall : ∀ b ∈ ranking, b ∈ l := fun b hb => by
      by_contra hnot
      have := (h.rest b hb hnot).1
      omega
    have hnodup : ranking.Nodup := by
      refine hranking.imp fun {a b} hab heq => ?_
      subst heq
      exact lt_irrefl _ hab
    have hlen : ranking.length ≤ l.length := (subperm_of_subset hnodup hall).length_le
    rw [hupper, take_of_length_le hlen, take_of_length_le (by omega)]
  · rw [hupper, heq]

end Infinity.Foundations
