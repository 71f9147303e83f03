import Mathlib

/-! # Transducers and the words they spell

A transducer is given by its arrows, which have a label, an output and a state they lead to, and by
its states, which have arrows and perhaps a final output. A state spells words with outputs: the
outputs of the arrows and the final output add up. The words are a list, in the order of the arrows.

* `Transducer.Branches`: the words spelled by a list of arrows with increasing labels, none of which
  leads to a state without words.
* `Transducer.Branches.concat`, `Branches.shift`, `Branches.mono`: how such lists grow.
* `Transducer.Branches.child`, `Branches.head_mem`: the words through an arrow.
-/

namespace Infinity.Foundations

open List

variable {α M τ ν : Type*} {m : M} {e : List α × M}

/-! ## Words with outputs -/

section Words

variable [AddSemigroup M] {l : List (List α × M)} {v : M} {k : List α} {a : α}

def under (a : α) (m : M) (l : List (List α × M)) : List (List α × M) :=
  l.map fun e => (a :: e.1, m + e.2)

def shift (m : M) (l : List (List α × M)) : List (List α × M) := l.map fun e => (e.1, m + e.2)

omit [AddSemigroup M] in
def own (final : Option M) : List (List α × M) := (final.map fun m => ([], m)).toList

@[simp] theorem shift_append (l r : List (List α × M)) :
    shift m (l ++ r) = shift m l ++ shift m r := map_append

@[simp] theorem shift_eq_nil : shift m l = [] ↔ l = [] := map_eq_nil_iff

@[simp] theorem under_append (l r : List (List α × M)) :
    under a m (l ++ r) = under a m l ++ under a m r := map_append

theorem shift_under (m p : M) : shift m (under a p l) = under a (m + p) l := by
  unfold shift under
  rw [map_map]
  exact map_congr_left fun e _ => Prod.ext rfl (add_assoc m p e.2).symm

theorem shift_shift (m p : M) : shift m (shift p l) = shift (m + p) l := by
  unfold shift
  rw [map_map]
  exact map_congr_left fun e _ => Prod.ext rfl (add_assoc m p e.2).symm

theorem mem_shift : (k, v) ∈ shift m l ↔ ∃ v', (k, v') ∈ l ∧ m + v' = v := by
  simp [shift]

theorem under_shift (m p : M) : under a m (shift p l) = under a (m + p) l := by
  unfold shift under
  rw [map_map]
  exact map_congr_left fun e _ => Prod.ext rfl (add_assoc m p e.2).symm

theorem shift_zero {N : Type*} [AddMonoid N] (l : List (List α × N)) : shift 0 l = l := by
  unfold shift
  simp only [zero_add]
  exact map_id l

theorem shift_own (final : Option M) :
    shift m (own (α := α) final) = own (final.map fun v => m + v) := by
  cases final <;> rfl

theorem mem_under : (a :: k, v) ∈ under a m l ↔ (k, v) ∈ shift m l := by
  simp [under, shift]

theorem exists_of_mem_under (h : e ∈ under a m l) : ∃ k, e.1 = a :: k := by
  obtain ⟨e', -, rfl⟩ := mem_map.mp h
  exact ⟨e'.1, rfl⟩

omit [AddSemigroup M] in
theorem mem_own {final : Option M} (h : e ∈ own final) : e.1 = [] := by
  cases final with
  | none => cases h
  | some m =>
    obtain rfl : e = ([], m) := mem_singleton.mp h
    rfl

end Words

/-! ## Transducers -/

/-- A transducer: its arrows and its states. -/
structure Transducer (α M τ ν : Type*) where
  label : τ → α
  out : τ → M
  leads : τ → ν → Prop
  final : ν → Option M
  arrows : ν → List τ

namespace Transducer

variable [AddSemigroup M] [LT α] {T : Transducer α M τ ν} {t : τ} {n : ν} {ts : List τ}
    {l r : List (List α × M)}

/-- The words that a list of arrows spells. Labels increase, and every arrow leads to a state that
spells some word. -/
inductive Branches (T : Transducer α M τ ν) : List τ → List (List α × M) → Prop
  | nil : Branches T [] []
  | cons {t : τ} {n : ν} {ts : List τ} {l r : List (List α × M)} (leads : T.leads t n)
      (sub : Branches T (T.arrows n) l) (ne_nil : own (T.final n) ++ l ≠ [])
      (lt : ∀ s ∈ ts, T.label t < T.label s) (rest : Branches T ts r) :
      Branches T (t :: ts) (under (T.label t) (T.out t) (own (T.final n) ++ l) ++ r)

def Spells (T : Transducer α M τ ν) (n : ν) (l : List (List α × M)) : Prop :=
  ∃ r, T.Branches (T.arrows n) r ∧ l = own (T.final n) ++ r

namespace Branches

section

variable (h : T.Branches ts r)
include h

/-- An arrow behind the others. -/
theorem concat (hlt : ∀ s ∈ ts, T.label s < T.label t) (hleads : T.leads t n)
    (hspells : T.Spells n l) (hne : l ≠ []) :
    T.Branches (ts ++ [t]) (r ++ under (T.label t) (T.out t) l) := by
  obtain ⟨l, hsub, rfl⟩ := hspells
  induction h with
  | nil =>
    have hone : T.Branches [t] _ := .cons hleads hsub hne nofun .nil
    rwa [append_nil] at hone
  | cons leads sub ne_nil lt _ _ ih =>
    rw [append_assoc]
    apply Branches.cons leads sub ne_nil
    · intro s hs
      rcases mem_append.mp hs with hs | hs
      · exact lt s hs
      · rw [mem_singleton.mp hs]
        exact hlt _ mem_cons_self
    · exact ih fun s hs => hlt s (mem_cons_of_mem _ hs)

/-- An output added to every arrow of a list is added to every word. -/
theorem shift {f : τ → τ} (hlabel : ∀ t, T.label (f t) = T.label t)
    (hout : ∀ t, T.out (f t) = m + T.out t)
    (hleads : ∀ t n, T.leads t n → T.leads (f t) n) :
    T.Branches (ts.map f) (Foundations.shift m r) := by
  induction h with
  | nil => exact .nil
  | @cons t n ts l r leads sub ne_nil lt _ _ ih =>
    rw [shift_append, shift_under, map_cons, ← hout, ← hlabel]
    apply Branches.cons (hleads t n leads) sub ne_nil _ ih
    intro s hs
    obtain ⟨u, hu, rfl⟩ := mem_map.mp hs
    rw [hlabel, hlabel]
    exact lt u hu

/-- More arrows may lead somewhere. -/
theorem mono {leads : τ → ν → Prop} (hleads : ∀ t n, T.leads t n → leads t n) :
    ({ T with leads := leads } : Transducer α M τ ν).Branches ts r := by
  induction h with
  | nil => exact .nil
  | cons hlead _ ne_nil lt _ ihsub ihrest => exact .cons (hleads _ _ hlead) ihsub ne_nil lt ihrest

theorem pairwise_label : ts.Pairwise fun s t => T.label s < T.label t := by
  induction h with
  | nil => exact .nil
  | cons _ _ _ lt _ _ ih => exact .cons lt ih

/-- A word begins with the label of an arrow. -/
theorem head_mem (he : e ∈ r) : ∃ t ∈ ts, ∃ k, e.1 = T.label t :: k := by
  induction h with
  | nil => cases he
  | cons _ _ _ _ _ _ ih =>
    rcases mem_append.mp he with he | he
    · exact ⟨_, mem_cons_self, exists_of_mem_under he⟩
    · obtain ⟨t, ht, hk⟩ := ih he
      exact ⟨t, mem_cons_of_mem _ ht, hk⟩

/-- An arrow leads to a state, whose words are those through the arrow. -/
theorem child [Std.Irrefl (fun a b : α => a < b)] (ht : t ∈ ts) :
      ∃ n l, T.leads t n ∧ T.Spells n l ∧ l ≠ [] ∧
      ∀ k v, (T.label t :: k, v) ∈ r ↔ (k, v) ∈ Foundations.shift (T.out t) l := by
  induction h with
  | nil => cases ht
  | @cons s n ts l r leads sub ne_nil lt rest _ ih =>
    rcases mem_cons.mp ht with rfl | ht
    · refine ⟨n, own (T.final n) ++ l, leads, ⟨l, sub, rfl⟩, ne_nil, fun k v => ?_⟩
      rw [mem_append, mem_under]
      apply or_iff_left
      -- the other arrows have larger labels
      intro he
      obtain ⟨s, hs, k', hk⟩ := rest.head_mem he
      have hlabel : T.label t = T.label s := (List.cons.inj hk).1
      have hlt := lt s hs
      rw [hlabel] at hlt
      exact Std.Irrefl.irrefl _ hlt
    · obtain ⟨n', l', hleads, hspells, hne, hmem⟩ := ih ht
      refine ⟨n', l', hleads, hspells, hne, fun k v => ?_⟩
      rw [mem_append, hmem]
      apply or_iff_right
      intro he
      obtain ⟨k', hk⟩ := exists_of_mem_under he
      have hlabel : T.label t = T.label s := (List.cons.inj hk).1
      have hlt := lt t ht
      rw [hlabel] at hlt
      exact Std.Irrefl.irrefl _ hlt

/-- The words of the first arrows and of the others. -/
theorem split (i : ℕ) : ∃ l l', r = l ++ l' ∧ T.Branches (ts.drop i) l' ∧
    ∀ e ∈ l, ∃ t ∈ ts.take i, ∃ k, e.1 = T.label t :: k := by
  induction h generalizing i with
  | nil => exact ⟨[], [], rfl, by rw [drop_nil]; exact .nil, nofun⟩
  | @cons t n ts l r leads sub ne_nil lt rest _ ih =>
    cases i with
    | zero => exact ⟨[], _, rfl, .cons leads sub ne_nil lt rest, nofun⟩
    | succ i =>
      obtain ⟨r₁, r₂, rfl, hdrop, htake⟩ := ih i
      refine ⟨_, r₂, (append_assoc ..).symm, hdrop, fun e he => ?_⟩
      rcases mem_append.mp he with he | he
      · exact ⟨t, mem_cons_self, exists_of_mem_under he⟩
      · obtain ⟨t', ht', hk⟩ := htake e he
        exact ⟨t', mem_cons_of_mem _ ht', hk⟩

end

end Branches

end Transducer

end Infinity.Foundations
