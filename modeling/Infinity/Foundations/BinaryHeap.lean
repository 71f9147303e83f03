import Mathlib

/-! # Binary heaps

A binary heap of `n` elements stands at the positions `1` to `n`; the children of position `i` are
`2 * i` and `2 * i + 1`, and no element has a smaller key than its parent. Sifting an element down
exchanges it with its smallest child until no child is smaller.

* `HeapFrom`: the order holds below a position.
* `heapSort_spec`: taking the root away again and again sorts the elements.
-/

namespace Infinity.Foundations

open List Equiv

section Sift

variable {α κ : Type*} [LinearOrder κ] (key : α → κ) (n : ℕ)

def leastChild (heap : ℕ → α) (idx : ℕ) : ℕ :=
  let left := if 2 * idx ≤ n ∧ key (heap (2 * idx)) < key (heap idx) then 2 * idx else idx
  if 2 * idx + 1 ≤ n ∧ key (heap (2 * idx + 1)) < key (heap left) then 2 * idx + 1 else left

/-- The element at `idx` is exchanged with its least child, as long as that is smaller. -/
def siftDown : ℕ → (ℕ → α) → ℕ → (ℕ → α)
  | 0, heap, _ => heap
  | fuel + 1, heap, idx =>
    let least := leastChild key n heap idx
    if least ≠ idx then siftDown fuel (heap ∘ swap idx least) least else heap

/-- The elements at the positions `i` down to `1` are sifted down one after the other. -/
def heapify : ℕ → (ℕ → α) → (ℕ → α)
  | 0, heap => heap
  | i + 1, heap => heapify i (siftDown key n n heap (i + 1))

/-- The order between the positions from `i` on and their children. -/
def HeapFrom (heap : ℕ → α) (i : ℕ) : Prop :=
  ∀ j, i ≤ j / 2 → j ≤ n → key (heap (j / 2)) ≤ key (heap j)

/-- The order from `i` on, except between `k` and its children, which are not smaller than the
parent of `k`. -/
structure HeapExcept (heap : ℕ → α) (i k : ℕ) : Prop where
  order : ∀ j, i ≤ j / 2 → j / 2 ≠ k → j ≤ n → key (heap (j / 2)) ≤ key (heap j)
  grand : i ≤ k / 2 → ∀ j, j / 2 = k → j ≤ n → key (heap (k / 2)) ≤ key (heap j)

variable {key n} {heap : ℕ → α} {i k : ℕ} {fuel : ℕ}

theorem HeapFrom.except (hi : 0 < i) (h : HeapFrom key n heap (i + 1)) :
    HeapExcept key n heap i i where
  order j hj hne hle := h j (by omega) hle
  grand hle := by omega

/-- What `leastChild` picks. -/
theorem leastChild_spec (key : α → κ) (n : ℕ) :
    (leastChild key n heap k = k ∨ leastChild key n heap k / 2 = k ∧ leastChild key n heap k ≤ n ∧
        key (heap (leastChild key n heap k)) < key (heap k)) ∧
      ∀ j, j / 2 = k → j ≤ n → key (heap (leastChild key n heap k)) ≤ key (heap j) := by
  have hchild : ∀ j, j / 2 = k ↔ j = 2 * k ∨ j = 2 * k + 1 := fun j => by omega
  have hleft : (2 * k) / 2 = k := by omega
  have hright : (2 * k + 1) / 2 = k := by omega
  unfold leastChild
  by_cases hl : 2 * k ≤ n ∧ key (heap (2 * k)) < key (heap k)
  · simp only [if_pos hl]
    by_cases hr : 2 * k + 1 ≤ n ∧ key (heap (2 * k + 1)) < key (heap (2 * k))
    · rw [if_pos hr]
      refine ⟨.inr ⟨hright, hr.1, hr.2.trans hl.2⟩, fun j hj _ => ?_⟩
      rcases (hchild j).mp hj with rfl | rfl
      · exact hr.2.le
      · exact le_refl _
    · rw [if_neg hr]
      refine ⟨.inr ⟨hleft, hl⟩, fun j hj hjn => ?_⟩
      rcases (hchild j).mp hj with rfl | rfl
      · exact le_refl _
      · exact le_of_not_gt fun hlt => hr ⟨hjn, hlt⟩
  · simp only [if_neg hl]
    have hle : 2 * k ≤ n → key (heap k) ≤ key (heap (2 * k)) :=
      fun hn => le_of_not_gt fun hlt => hl ⟨hn, hlt⟩
    by_cases hr : 2 * k + 1 ≤ n ∧ key (heap (2 * k + 1)) < key (heap k)
    · rw [if_pos hr]
      refine ⟨.inr ⟨hright, hr⟩, fun j hj hjn => ?_⟩
      rcases (hchild j).mp hj with rfl | rfl
      · exact hr.2.le.trans (hle hjn)
      · exact le_refl _
    · rw [if_neg hr]
      refine ⟨.inl rfl, fun j hj hjn => ?_⟩
      rcases (hchild j).mp hj with rfl | rfl
      · exact hle hjn
      · exact le_of_not_gt fun hlt => hr ⟨hjn, hlt⟩

/-- An element that no child of its is smaller than closes the gap. -/
theorem HeapExcept.close (h : HeapExcept key n heap i k)
    (hle : ∀ j, j / 2 = k → j ≤ n → key (heap k) ≤ key (heap j)) : HeapFrom key n heap i := by
  intro j hj hjn
  by_cases hk : j / 2 = k
  · rw [hk]
    exact hle j hk hjn
  · exact h.order j hj hk hjn

/-- The exchange with the least child moves the gap to the child. -/
theorem HeapExcept.swap (h : HeapExcept key n heap i k) (hk : 0 < k) (hi : i ≤ k) {m : ℕ}
    (hm : m / 2 = k) (hmn : m ≤ n)
    (hlt : key (heap m) < key (heap k))
    (hleast : ∀ j, j / 2 = k → j ≤ n → key (heap m) ≤ key (heap j)) :
    HeapExcept key n (heap ∘ Equiv.swap k m) i m := by
  have hother : ∀ {j}, j ≠ k → j ≠ m → (heap ∘ Equiv.swap k m) j = heap j := fun hjk hjm =>
    congrArg heap (Equiv.swap_apply_of_ne_of_ne hjk hjm)
  have hat : (heap ∘ Equiv.swap k m) k = heap m := congrArg heap (Equiv.swap_apply_left k m)
  have hbelow : (heap ∘ Equiv.swap k m) m = heap k := congrArg heap (Equiv.swap_apply_right k m)
  constructor
  · intro j hj hjm hjn
    by_cases hjk : j / 2 = k
    · rw [hjk, hat]
      by_cases hj' : j = m
      · rw [hj', hbelow]
        exact hlt.le
      · rw [hother (by omega) hj']
        exact hleast j hjk hjn
    · rw [hother hjk hjm]
      by_cases hj' : j = k
      · rw [hj', hat]
        exact h.grand (by omega) m hm hmn
      · rw [hother hj' (fun h => hjk (h ▸ hm))]
        exact h.order j hj hjk hjn
  · intro _ j hj hjn
    rw [hm, hat, hother (by omega) (by omega)]
    have := h.order j (by omega) (by omega) hjn
    rwa [hj] at this

theorem HeapExcept.siftDown (hfuel : n < k + fuel) (h : HeapExcept key n heap i k) (hi : 0 < i)
    (hik : i ≤ k) : HeapFrom key n (Foundations.siftDown key n fuel heap k) i := by
  induction fuel generalizing heap k with
  | zero => exact h.close fun j hj hjn => by omega
  | succ fuel ih =>
    obtain ⟨hcases, hleast⟩ := leastChild_spec key n
    unfold Foundations.siftDown
    rcases hcases with heq | ⟨hm, hmn, hlt⟩
    · rw [if_neg (not_not.mpr heq)]
      rw [heq] at hleast
      exact h.close hleast
    · rw [if_pos (by omega)]
      exact ih (by omega) (h.swap (by omega) hik hm hmn hlt hleast) (by omega)

/-- **Sifting an element down extends the order to its position.** -/
theorem HeapFrom.siftDown (hfuel : n < i + fuel) (hi : 0 < i) (h : HeapFrom key n heap (i + 1)) :
    HeapFrom key n (Foundations.siftDown key n fuel heap i) i :=
  (h.except hi).siftDown hfuel hi (le_refl i)

/-- **Sifting the inner positions makes a heap.** -/
theorem HeapFrom.heapify (h : HeapFrom key n heap (i + 1)) :
    HeapFrom key n (Foundations.heapify key n i heap) 1 := by
  induction i generalizing heap with
  | zero => exact h
  | succ i ih => exact ih (h.siftDown (by omega) (by omega))

/-- The positions without children are in order. -/
theorem heapFrom_leaves : HeapFrom key n heap (n / 2 + 1) := fun j hj hjn => by omega

/-- **The root has the least key.** -/
theorem HeapFrom.root_le (h : HeapFrom key n heap 1) {j : ℕ} (hj : 0 < j) (hjn : j ≤ n) :
    key (heap 1) ≤ key (heap j) := by
  induction j using Nat.strong_induction_on with
  | h j ih =>
    rcases lt_or_ge 1 j with hlt | hge
    · exact (ih (j / 2) (by omega) (by omega) (by omega)).trans (h j (by omega) hjn)
    · have : j = 1 := by omega
      rw [this]

end Sift

/-! ## The elements -/

section Elements

variable {α κ : Type*} [LinearOrder κ] {key : α → κ} {n : ℕ} {heap heap' heap'' : ℕ → α} {k : ℕ}
    {j : ℕ} {fuel : ℕ}

/-- The elements at the positions `1` to `n`. -/
def elements (n : ℕ) (heap : ℕ → α) : List α := (List.range n).map fun i => heap (i + 1)

theorem mem_elements {a : α} : a ∈ elements n heap ↔ ∃ k, 0 < k ∧ k ≤ n ∧ heap k = a := by
  unfold elements
  rw [mem_map]
  constructor
  · rintro ⟨i, hi, rfl⟩
    exact ⟨i + 1, Nat.succ_pos i, mem_range.mp hi, rfl⟩
  · rintro ⟨k, hk, hkn, rfl⟩
    exact ⟨k - 1, mem_range.mpr (by omega), by rw [Nat.sub_add_cancel hk]⟩

theorem elements_succ : elements (n + 1) heap = elements n heap ++ [heap (n + 1)] := by
  unfold elements
  rw [range_succ, map_append]
  rfl

theorem elements_congr (h : ∀ k, 0 < k → k ≤ n → heap k = heap' k) :
    elements n heap = elements n heap' :=
  map_congr_left fun i hi => h (i + 1) (Nat.succ_pos i) (mem_range.mp hi)

/-- The elements at the positions `1` to `n` are the same, at other positions. -/
def Rearranged (n : ℕ) (heap heap' : ℕ → α) : Prop :=
  ∃ σ : Equiv.Perm ℕ, heap' = heap ∘ σ ∧ ∀ k, 0 < σ k ∧ σ k ≤ n ↔ 0 < k ∧ k ≤ n

theorem Rearranged.refl : Rearranged n heap heap := ⟨Equiv.refl ℕ, rfl, fun _ => Iff.rfl⟩

theorem Rearranged.trans (h : Rearranged n heap heap') (h' : Rearranged n heap' heap'') :
    Rearranged n heap heap'' := by
  obtain ⟨σ, rfl, hσ⟩ := h
  obtain ⟨τ, rfl, hτ⟩ := h'
  exact ⟨τ.trans σ, rfl, fun k => (hσ (τ k)).trans (hτ k)⟩

theorem Rearranged.swap {a b : ℕ} (ha : 0 < a ∧ a ≤ n) (hb : 0 < b ∧ b ≤ n) :
    Rearranged n heap (heap ∘ swap a b) := by
  refine ⟨Equiv.swap a b, rfl, fun k => ?_⟩
  by_cases hka : k = a
  · subst hka
    rw [swap_apply_left]
    exact ⟨fun _ => ha, fun _ => hb⟩
  · by_cases hkb : k = b
    · subst hkb
      rw [swap_apply_right]
      exact ⟨fun _ => hb, fun _ => ha⟩
    · rw [swap_apply_of_ne_of_ne hka hkb]

/-- **Sifting rearranges the elements.** -/
theorem rearranged_siftDown (hk : 0 < k) (hkn : k ≤ n) :
    Rearranged n heap (siftDown key n fuel heap k) := by
  induction fuel generalizing heap k with
  | zero => exact .refl
  | succ fuel ih =>
    unfold siftDown
    dsimp only
    split
    next hne =>
      rcases (leastChild_spec key n).1 with heq | ⟨hm, hmn, _⟩
      · exact absurd heq hne
      · exact (Rearranged.swap ⟨hk, hkn⟩ ⟨by omega, hmn⟩).trans (ih (by omega) hmn)
    · exact .refl

/-- Rearranging permutes the elements. -/
theorem Rearranged.perm (h : Rearranged n heap heap') :
    (elements n heap').Perm (elements n heap) := by
  obtain ⟨σ, rfl, hσ⟩ := h
  have hpos : ((List.range n).map fun i => σ (i + 1)).Perm ((List.range n).map (· + 1)) := by
    refine (perm_ext_iff_of_nodup ?_ ?_).mpr fun k => ?_
    · exact Nodup.map (fun i j hij => Nat.succ.inj (σ.injective hij)) nodup_range
    · exact Nodup.map (fun i j hij => Nat.succ.inj hij) nodup_range
    · rw [mem_map, mem_map]
      constructor
      · rintro ⟨i, hi, rfl⟩
        have := (hσ (i + 1)).mpr ⟨Nat.succ_pos i, mem_range.mp hi⟩
        exact ⟨σ (i + 1) - 1, mem_range.mpr (by omega), by omega⟩
      · rintro ⟨i, hi, rfl⟩
        have hi' := mem_range.mp hi
        have := (hσ (σ.symm (i + 1))).mp (by
          rw [apply_symm_apply]
          omega)
        refine ⟨σ.symm (i + 1) - 1, mem_range.mpr (by omega), ?_⟩
        rw [Nat.sub_add_cancel this.1, apply_symm_apply]
  have := hpos.map heap
  rw [map_map, map_map] at this
  exact this

/-- Sifting changes only positions of the heap. -/
theorem siftDown_of_lt (hkn : k ≤ n) (hj : n < j) : siftDown key n fuel heap k j = heap j := by
  induction fuel generalizing heap k with
  | zero => rfl
  | succ fuel ih =>
    unfold siftDown
    dsimp only
    split
    next hne =>
      rcases (leastChild_spec key n).1 with heq | ⟨hm, hmn, _⟩
      · exact absurd heq hne
      · rw [ih hmn]
        exact congrArg heap (swap_apply_of_ne_of_ne (by omega) (by omega))
    · rfl

theorem rearranged_heapify {i : ℕ} (hi : i ≤ n) : Rearranged n heap (heapify key n i heap) := by
  induction i generalizing heap with
  | zero => exact .refl
  | succ i ih => exact (rearranged_siftDown (by omega) hi).trans (ih (by omega))

/-! ## Sorting -/

/-- The root is exchanged with the last element and the heap made one smaller, as long as it has two
elements. -/
def heapSort (key : α → κ) : ℕ → (ℕ → α) → (ℕ → α)
  | 0, heap => heap
  | n + 1, heap =>
    if n = 0 then heap else heapSort key n (siftDown key n n (heap ∘ swap (n + 1) 1) 1)

theorem heapSort_of_lt {heap : ℕ → α} (hj : n < j) : heapSort key n heap j = heap j := by
  induction n generalizing heap with
  | zero => rfl
  | succ n ih =>
    unfold heapSort
    split
    · rfl
    · rw [ih (by omega), siftDown_of_lt (by omega) (by omega)]
      exact congrArg heap (swap_apply_of_ne_of_ne (by omega) (by omega))

/-- **Sorting a heap** permutes the elements and puts them in descending order. -/
theorem heapSort_spec {heap : ℕ → α} (h : HeapFrom key n heap 1) :
    (elements n (heapSort key n heap)).Perm (elements n heap) ∧
      (elements n (heapSort key n heap)).Pairwise fun a b => key b ≤ key a := by
  induction n generalizing heap with
  | zero => exact ⟨Perm.nil, Pairwise.nil⟩
  | succ n ih =>
    unfold heapSort
    split
    next hn =>
      subst hn
      exact ⟨Perm.refl _, pairwise_singleton _ _⟩
    next hn =>
      generalize hsift : siftDown key n n (heap ∘ swap (n + 1) 1) 1 = heap'
      have hmoved : (elements n heap').Perm (elements n (heap ∘ swap (n + 1) 1)) :=
        hsift ▸ (rearranged_siftDown (Nat.succ_pos 0) (by omega)).perm
      have hlast : heapSort key n heap' (n + 1) = heap 1 := by
        rw [heapSort_of_lt (Nat.lt_succ_self n), ← hsift,
          siftDown_of_lt (by omega) (Nat.lt_succ_self n)]
        exact congrArg heap (swap_apply_left _ _)
      have hheap' : HeapFrom key n heap' 1 := by
        rw [← hsift]
        refine .siftDown (by omega) (Nat.succ_pos 0) fun j hj hjn => ?_
        have hother : ∀ k, k ≠ n + 1 → k ≠ 1 → (heap ∘ swap (n + 1) 1) k = heap k := fun k hk hk' =>
          congrArg heap (swap_apply_of_ne_of_ne hk hk')
        rw [hother _ (by omega) (by omega), hother _ (by omega) (by omega)]
        exact h j (by omega) (by omega)
      obtain ⟨hperm, hsorted⟩ := ih hheap'
      have hall : (elements n (heapSort key n heap') ++ [heap 1]).Perm (elements (n + 1) heap) := by
        have hswap : (elements (n + 1) (heap ∘ swap (n + 1) 1)).Perm (elements (n + 1) heap) :=
          (Rearranged.swap ⟨Nat.succ_pos n, le_rfl⟩ ⟨Nat.succ_pos 0, by omega⟩).perm
        rw [elements_succ] at hswap
        rw [show (heap ∘ swap (n + 1) 1) (n + 1) = heap 1 from congrArg heap (swap_apply_left _ _)]
          at hswap
        exact ((hperm.trans hmoved).append_right _).trans hswap
      rw [elements_succ, hlast]
      refine ⟨hall, pairwise_append.mpr ⟨hsorted, pairwise_singleton _ _, fun a ha b hb => ?_⟩⟩
      rw [mem_singleton.mp hb]
      obtain ⟨k, hk, hkn, rfl⟩ := mem_elements.mp (hall.mem_iff.mp (mem_append_left _ ha))
      exact h.root_le hk hkn

end Elements

end Infinity.Foundations
