import Infinity.Fst.Stored

/-! # Bytes that follow a prefix

How many different bytes follow a sequence of bytes in some keys is the number of transitions of the
node that the sequence leads to. -/

namespace Infinity.Fst

open Foundations List

/-- Some key begins with these bytes. -/
def Path (kvs : List (Bytes × UInt64)) (p : Bytes) : Prop := ∃ e ∈ kvs, p <+: e.1

instance (kvs : List (Bytes × UInt64)) (p : Bytes) : Decidable (Path kvs p) :=
  inferInstanceAs (Decidable (∃ e ∈ kvs, p <+: e.1))

def allBytes : List UInt8 := (List.range 256).map UInt8.ofNat

def fanOut (kvs : List (Bytes × UInt64)) (p : Bytes) : ℕ :=
  (allBytes.filter fun b => decide (Path kvs (p ++ [b]))).length

theorem mem_allBytes (b : UInt8) : b ∈ allBytes :=
  mem_map.mpr ⟨b.toNat, mem_range.mpr b.toNat_lt, UInt8.ofNat_toNat⟩

theorem nodup_allBytes : allBytes.Nodup := by
  apply Nodup.map_on _ nodup_range
  intro i hi j hj heq
  have hnat := congrArg UInt8.toNat heq
  rwa [UInt8.toNat_ofNat', UInt8.toNat_ofNat', Nat.mod_eq_of_lt (mem_range.mp hi),
    Nat.mod_eq_of_lt (mem_range.mp hj)] at hnat

variable {bytes : Bytes} {kvs l r : List (Bytes × UInt64)} {p q : Bytes} {final : Option UInt64}
  {b : UInt8} {m : UInt64}

theorem fanOut_congr (h : ∀ b, Path kvs (p ++ [b]) ↔ Path l (q ++ [b])) :
    fanOut kvs p = fanOut l q := by
  unfold fanOut
  simp only [h]

theorem fanOut_mono (h : ∀ b, Path kvs (p ++ [b]) → Path l (q ++ [b])) :
    fanOut kvs p ≤ fanOut l q := by
  apply Sublist.length_le
  apply monotone_filter_right
  intro b hb
  exact decide_eq_true (h b (of_decide_eq_true hb))

theorem fanOut_le (kvs : List (Bytes × UInt64)) (p : Bytes) : fanOut kvs p ≤ 256 := by
  have hle : fanOut kvs p ≤ allBytes.length := length_filter_le _ _
  rwa [allBytes, length_map, length_range] at hle

/-- No more bytes follow than there are keys. -/
theorem fanOut_le_length (kvs : List (Bytes × UInt64)) (p : Bytes) : fanOut kvs p ≤ kvs.length := by
  have hsub : (allBytes.filter fun b => decide (Path kvs (p ++ [b]))) ⊆ kvs.filterMap fun e =>
      e.1[p.length]? := by
    intro b hb
    obtain ⟨e, he, s, hs⟩ := of_decide_eq_true (mem_filter.mp hb).2
    refine mem_filterMap.mpr ⟨e, he, ?_⟩
    rw [← hs, append_assoc, getElem?_append_right (le_rfl), Nat.sub_self]
    rfl
  exact ((nodup_allBytes.filter _).subperm hsub).length_le.trans (length_filterMap_le _ _)

/-! ## Paths of a transducer -/

theorem path_own_append : Path (own final ++ r) (b :: p) ↔ Path r (b :: p) := by
  constructor
  · rintro ⟨e, he, hext⟩
    rcases mem_append.mp he with he | he
    · rw [mem_own he] at hext
      exact absurd (prefix_nil.mp hext) nofun
    · exact ⟨e, he, hext⟩
  · rintro ⟨e, he, hext⟩
    exact ⟨e, mem_append_right _ he, hext⟩

theorem path_under {a : UInt8} : Path (under a m l) (b :: p) ↔ a = b ∧ Path l p := by
  constructor
  · rintro ⟨e, he, hext⟩
    obtain ⟨e', he', rfl⟩ := mem_map.mp he
    obtain ⟨rfl, hp⟩ := cons_prefix_cons.mp hext
    exact ⟨rfl, e', he', hp⟩
  · rintro ⟨rfl, e, he, hext⟩
    exact ⟨(a :: e.1, m + e.2), mem_map.mpr ⟨e, he, rfl⟩, cons_prefix_cons.mpr ⟨rfl, hext⟩⟩

theorem path_append : Path (l ++ r) p ↔ Path l p ∨ Path r p := by
  unfold Path
  simp only [mem_append, or_and_right, exists_or]

variable {T : Transducer UInt8 UInt64 Transition BuilderNode} {ts : List Transition}

/-- The first bytes are the labels of the transitions. -/
theorem path_singleton_iff (h : T.Branches ts r) : Path r [b] ↔ ∃ t ∈ ts, T.label t = b := by
  induction h with
  | nil => simp [Path]
  | @cons t n ts l r leads sub ne_nil lt rest _ ih =>
    have hnil : Path (own (T.final n) ++ l) [] := by
      obtain ⟨e, he⟩ := exists_mem_of_ne_nil _ ne_nil
      exact ⟨e, he, nil_prefix⟩
    rw [path_append, path_under, ih, exists_mem_cons_iff]
    exact or_congr_left (and_iff_left hnil)

/-- The number of transitions of a node. -/
theorem length_trans_eq_fanOut (h : (machine bytes).Branches ts r) :
    ts.length = fanOut (own final ++ r) [] := by
  have hnodup := (length_le_of_pairwise_inp h.pairwise_label).1
  have hperm : (ts.map Transition.inp).Perm (allBytes.filter fun b =>
      decide (Path (own final ++ r) ([] ++ [b]))) := by
    rw [perm_ext_iff_of_nodup hnodup (nodup_allBytes.filter _)]
    intro b
    rw [mem_filter, decide_eq_true_iff, nil_append, path_own_append, path_singleton_iff h, mem_map]
    exact (and_iff_right (mem_allBytes b)).symm
  have hlength := hperm.length_eq
  rwa [length_map] at hlength

/-- The paths through a transition. -/
theorem path_cons_iff {t : Transition}
    (h : ∀ k v, (t.inp :: k, v) ∈ r ↔ (k, v) ∈ shift m l) : Path r (t.inp :: p) ↔ Path l p := by
  constructor
  · rintro ⟨⟨k, v⟩, he, hext⟩
    obtain ⟨s, rfl⟩ := hext
    have hmem : (p ++ s, v) ∈ shift m l := (h (p ++ s) v).mp he
    obtain ⟨e, he, heq⟩ := mem_map.mp hmem
    have hkey : e.1 = p ++ s := (Prod.mk.inj heq).1
    exact ⟨e, he, s, hkey.symm⟩
  · rintro ⟨e, he, hext⟩
    refine ⟨(t.inp :: e.1, m + e.2), (h _ _).mpr (mem_map.mpr ⟨e, he, rfl⟩), ?_⟩
    exact cons_prefix_cons.mpr ⟨rfl, hext⟩

end Infinity.Fst
