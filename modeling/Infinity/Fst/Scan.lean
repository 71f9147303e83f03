import Infinity.Fst.Lookup
import Infinity.Fst.Stream

/-! # Range scans of the term dictionary

`SeekMin` follows the bytes of the lower bound from the root and leaves on the stack what is left of
the nodes on the way. This is what the bound lets through of the keys, so the walk gives the keys in
the range.

* `collect_reset`: a scan gives exactly the keys in the range, in order.
* `collect_resetPrefix_iff`: what a scan for a prefix gives.
-/

namespace Infinity.Fst

open Foundations List FstStream FstBuilder

/-! ## Words above a bound -/

/-- The words that a lower bound with a key lets through. -/
def lowers (inclusive : Bool) (key w : Bytes) : Bool :=
  if inclusive then !decide (w < key) else decide (key < w)

section Lowers

variable {inclusive : Bool} {b c : UInt8} {key w : Bytes}

theorem lowers_of_lt (h : b < c) : lowers inclusive (b :: key) (c :: w) := by
  have hlt : b :: key < c :: w := cons_lt_cons_iff.mpr (.inl h)
  unfold lowers
  cases inclusive with
  | true => simp [Std.not_lt.mpr (Std.le_of_lt hlt)]
  | false => simp [hlt]

theorem lowers_of_gt (h : c < b) : lowers inclusive (b :: key) (c :: w) = false := by
  have hlt : c :: w < b :: key := cons_lt_cons_iff.mpr (.inl h)
  unfold lowers
  cases inclusive with
  | true => simp [hlt]
  | false => simp [Std.not_lt.mpr (Std.le_of_lt hlt)]

theorem lowers_cons_self : lowers inclusive (b :: key) (b :: w) = lowers inclusive key w := by
  unfold lowers
  simp

theorem lowers_cons_nil : lowers inclusive (b :: key) [] = false := by
  cases inclusive <;> rfl

end Lowers

/-- The loop of `SeekMin` over the transitions finds the first with a larger byte. -/
theorem firstAbove_eq {data : Bytes} {n : Node} {node : BuilderNode} {b : UInt8} {j m : ℕ}
    (htrans : ∀ i t, node.trans[i]? = some t → n.transAt data i = some t)
    (hlabels : node.trans.Pairwise fun s t => s.inp < t.inp) (habsent : ∀ t ∈ node.trans, t.inp ≠ b)
    (hm : j + m = node.trans.length) (hbelow : ∀ t ∈ node.trans.take j, t.inp < b) :
    ∃ i, firstAbove data n b j m = some i ∧ (∀ t ∈ node.trans.take i, t.inp < b) ∧
      ∀ t ∈ node.trans.drop i, b < t.inp := by
  induction m generalizing j with
  | zero =>
    refine ⟨j, rfl, hbelow, ?_⟩
    rw [drop_eq_nil_of_le (by omega)]
    nofun
  | succ m ih =>
    have hj : j < node.trans.length := by omega
    have hget : node.trans[j]? = some node.trans[j] := getElem?_eq_getElem hj
    have hdrop : node.trans.drop j = node.trans[j] :: node.trans.drop (j + 1) :=
      drop_eq_getElem_cons hj
    have hstep : firstAbove data n b j (m + 1) =
        if b < node.trans[j].inp then some j else firstAbove data n b (j + 1) m := by
      show (n.transAt data j >>= fun _ => _) = _
      rw [htrans j _ hget]
      rfl
    rw [hstep]
    split
    next hlt =>
      refine ⟨j, rfl, hbelow, fun t ht => ?_⟩
      have hsorted : (node.trans.drop j).Pairwise fun s t => s.inp < t.inp :=
        hlabels.sublist (drop_sublist _ _)
      rw [hdrop] at ht hsorted
      rcases mem_cons.mp ht with rfl | ht
      · exact hlt
      · exact UInt8.lt_trans hlt ((pairwise_cons.mp hsorted).1 t ht)
    next hnot =>
      apply ih (by omega)
      intro t ht
      rw [take_succ_eq_append_getElem hj] at ht
      rcases mem_append.mp ht with ht | ht
      · exact hbelow t ht
      · rw [mem_singleton.mp ht]
        have hne := habsent _ (getElem_mem hj)
        exact Std.lt_of_le_of_ne (Std.not_lt.mp hnot) hne

/-! ## The walk after `SeekMin` -/

section Filters

variable {l : List (Bytes × UInt64)} {b : UInt8} {key : Bytes} {inclusive : Bool}

theorem filter_lowers_below (h : ∀ e ∈ l, ∃ c < b, ∃ k, e.1 = c :: k) :
    (l.filter fun e => lowers inclusive (b :: key) e.1) = [] := by
  rw [filter_eq_nil_iff]
  intro e he
  obtain ⟨c, hc, k, hk⟩ := h e he
  rw [hk, lowers_of_gt hc]
  exact Bool.false_ne_true

theorem filter_lowers_above (h : ∀ e ∈ l, ∃ c > b, ∃ k, e.1 = c :: k) :
    (l.filter fun e => lowers inclusive (b :: key) e.1) = l := by
  rw [filter_eq_self]
  intro e he
  obtain ⟨c, hc, k, hk⟩ := h e he
  rw [hk, lowers_of_lt hc]

theorem filter_lowers_under {m : UInt64} :
      ((under b m l).filter fun e => lowers inclusive (b :: key) e.1) =
      under b m (l.filter fun e => lowers inclusive key e.1) := by
  unfold under
  rw [filter_map]
  congr 1
  apply filter_congr
  intro e _
  exact lowers_cons_self

end Filters

variable {bytes : Bytes} {fst : Fst} {endAt : Bound} {n : Node} {node : BuilderNode}
  {r rest : List (Bytes × UInt64)} {out : UInt64} {inp inp' key : Bytes} {stack : List StreamState}
  {kvs : List (Bytes × UInt64)} {min : Bound} {k : Bytes}

/-- What is left of a node whose transition for a byte of the bound was taken. -/
structure Taken (bytes : Bytes) (node : BuilderNode) (i : ℕ) (t : Transition)
    (r : List (Bytes × UInt64)) (node' : BuilderNode) (l r₃ : List (Bytes × UInt64)) : Prop where
  trans : node.trans[i]? = some t
  leads : (narrow bytes).leads t node'
  sub : (narrow bytes).Branches node'.trans l
  here : (narrow bytes).Branches (node.trans.drop i)
    (under t.inp t.out (own node'.final ++ l) ++ r₃)
  later : (narrow bytes).Branches (node.trans.drop (i + 1)) r₃
  sublist : (under t.inp t.out (own node'.final ++ l) ++ r₃).Sublist r
  lowers : ∀ inclusive key, (r.filter fun e => lowers inclusive (t.inp :: key) e.1) =
    under t.inp t.out ((own node'.final ++ l).filter fun e => lowers inclusive key e.1) ++ r₃

theorem exists_taken {t : Transition} (hbranches : (narrow bytes).Branches node.trans r)
    (ht : t ∈ node.trans) : ∃ i node' l r₃, Taken bytes node i t r node' l r₃ := by
  obtain ⟨i, hi, hget⟩ := mem_iff_getElem.mp ht
  have hdrop : node.trans.drop i = t :: node.trans.drop (i + 1) := by
    rw [drop_eq_getElem_cons hi, hget]
  have hlabels := hbranches.pairwise_label
  obtain ⟨r₁, r₂, rfl, hsplit, htake⟩ := hbranches.split i
  have hhere := hsplit
  rw [hdrop] at hsplit
  cases hsplit with
  | @cons _ node' _ l r₃ leads sub ne_nil lt later =>
    refine ⟨i, node', l, r₃, List.getElem?_eq_some_iff.mpr ⟨hi, hget⟩, leads, sub, hhere, later,
      sublist_append_right _ _, fun inclusive key => ?_⟩
    have hbelow : (r₁.filter fun e => Fst.lowers inclusive (t.inp :: key) e.1) = [] := by
      apply filter_lowers_below
      intro e he
      obtain ⟨s, hs, k, hk⟩ := htake e he
      refine ⟨s.inp, ?_, k, hk⟩
      rw [← take_append_drop i node.trans, pairwise_append, hdrop] at hlabels
      exact hlabels.2.2 s hs t mem_cons_self
    have habove : (r₃.filter fun e => Fst.lowers inclusive (t.inp :: key) e.1) = r₃ := by
      apply filter_lowers_above
      intro e he
      obtain ⟨s, hs, k, hk⟩ := later.head_mem he
      exact ⟨s.inp, lt s hs, k, hk⟩
    rw [filter_append, filter_append, hbelow, habove, nil_append]
    exact congrArg (· ++ r₃) filter_lowers_under

section

variable (hext : bytes <+: fst.data) (hsize : fst.data.length < 2 ^ 64)
  (hplace : Place bytes fst n node)
  (hpop : Pops fst n inp inp')
  (hsorted : ((placed inp out r ++ rest).map Prod.fst).Pairwise (· < ·))
    (hrest : Emits ⟨fst, endAt, inp', stack⟩ (within endAt rest))
include hext hsize hplace hpop hsorted hrest

/-- The walk that begins at some transition of a node. -/
theorem emits_from (i : ℕ) (hbranches : (narrow bytes).Branches (node.trans.drop i) r) :
    Emits ⟨fst, endAt, inp, ⟨n, i, out⟩ :: stack⟩ (within endAt (placed inp out r ++ rest)) := by
  refine emits_branches hext hsize hbranches ?_ rfl ?_ hsorted hrest
  · exact hplace
  · exact hpop

/-- What is left of a node when a byte of the bound has no transition. -/
theorem seek_absent {inclusive : Bool} {b : UInt8}
    (hbranches : (narrow bytes).Branches node.trans r) (habsent : ∀ t ∈ node.trans, t.inp ≠ b) :
    ∃ inp₁ stack₁, seek fst.data inclusive (b :: key) n out inp stack = some (inp₁, stack₁) ∧
      Emits ⟨fst, endAt, inp₁, stack₁⟩
        (within endAt (placed inp out (r.filter fun e => lowers inclusive (b :: key) e.1) ++
        rest)) := by
  have hfind := hplace.read.absent hplace.length_le b habsent
  obtain ⟨j, hj, hbelow, habove⟩ := firstAbove_eq (j := 0) (m := n.ntrans.toNat)
    (fun i t => hplace.transAt) hbranches.pairwise_label habsent
    (by rw [hplace.ntrans, zero_add]) (by rw [take_zero]; nofun)
  obtain ⟨r₁, r₂, rfl, hdrop, htake⟩ := hbranches.split j
  have hfilter : ((r₁ ++ r₂).filter fun e => lowers inclusive (b :: key) e.1) = r₂ := by
    rw [filter_append, filter_lowers_below, filter_lowers_above, nil_append]
    · intro e he
      obtain ⟨t, ht, k, hk⟩ := hdrop.head_mem he
      exact ⟨t.inp, habove t ht, k, hk⟩
    · intro e he
      obtain ⟨t, ht, k, hk⟩ := htake e he
      exact ⟨t.inp, hbelow t ht, k, hk⟩
  refine ⟨inp, ⟨n, j, out⟩ :: stack, ?_, ?_⟩
  · show (n.findInput fst.data b >>= fun _ => _) = _
    rw [hfind]
    rw [hj]
    rfl
  · rw [hfilter]
    refine emits_from hext hsize hplace hpop ?_ hrest j hdrop
    rw [placed_append, append_assoc] at hsorted
    exact hsorted.sublist ((sublist_append_right _ _).map Prod.fst)

/-- **The walk after `SeekMin`** gives the words that the bound lets through. -/
theorem seek_emits (inclusive : Bool) (hkey : key ≠ [])
    (hbranches : (narrow bytes).Branches node.trans r) :
    ∃ inp₁ stack₁, seek fst.data inclusive key n out inp stack = some (inp₁, stack₁) ∧
        Emits ⟨fst, endAt, inp₁, stack₁⟩
        (within endAt (placed inp out (r.filter fun e => lowers inclusive key e.1) ++ rest)) := by
  induction key generalizing n node r out inp inp' stack rest with
  | nil => exact absurd rfl hkey
  | cons b key ih =>
    by_cases hfound : ∃ t ∈ node.trans, t.inp = b
    · obtain ⟨t, ht, rfl⟩ := hfound
      obtain ⟨i, node', l, r₃, htaken⟩ := exists_taken hbranches ht
      obtain ⟨next, hmake, hnext, hne⟩ := hplace.child ht htaken.leads hext hsize
      have hfind := hplace.read.found (hplace.length_le.trans (by decide)) i t htaken.trans
      have htrans := hplace.transAt htaken.trans
      have hseek : seek fst.data inclusive (t.inp :: key) n out inp stack =
          seek fst.data inclusive key next (out + t.out) (inp ++ [t.inp])
          (⟨n, i + 1, out⟩ :: stack) := by
        show (n.findInput fst.data t.inp >>= fun _ => _) = _
        rw [hfind]
        show (n.transAt fst.data i >>= fun _ => _) = _
        rw [htrans]
        show (Node.make fst.data t.addr >>= fun _ => _) = _
        rw [hmake]
        rfl
      have hsortedHere :
          ((placed inp out (under t.inp t.out (own node'.final ++ l) ++ r₃) ++ rest).map
          Prod.fst).Pairwise (· < ·) :=
        hsorted.sublist (((htaken.sublist.map _).append (Sublist.refl rest)).map Prod.fst)
      have hsortedLater :
          ((placed (inp ++ [t.inp]) (out + t.out) l ++ (placed inp out r₃ ++ rest)).map
          Prod.fst).Pairwise (· < ·) := by
        rw [placed_append, placed_under, placed_append, append_assoc, append_assoc] at hsortedHere
        exact hsortedHere.sublist ((sublist_append_right _ _).map Prod.fst)
      have hlater :
          Emits ⟨fst, endAt, inp, ⟨n, i + 1, out⟩ :: stack⟩
          (within endAt (placed inp out r₃ ++ rest)) := by
        refine emits_from hext hsize hplace hpop ?_ hrest (i + 1) htaken.later
        exact hsortedLater.sublist ((sublist_append_right _ _).map Prod.fst)
      have hpop' : Pops fst next (inp ++ [t.inp]) inp := .inr ⟨hne, t.inp, rfl⟩
      rw [hseek, htaken.lowers, placed_append, placed_under, append_assoc]
      cases key with
      | nil =>
        cases inclusive with
        | true =>
          -- the last transition is walked over again
          have hall : ((own node'.final ++ l).filter fun e => lowers true [] e.1) =
              own node'.final ++ l := by
            rw [filter_eq_self]
            intro e _
            unfold lowers
            simp
          refine ⟨inp, ⟨n, i, out⟩ :: stack, ?_, ?_⟩
          · show some ((inp ++ [t.inp]).dropLast, _) = _
            rw [dropLast_concat]
            rfl
          · have hemits := emits_from hext hsize hplace hpop hsortedHere hrest i htaken.here
            rw [hall]
            rwa [placed_append, placed_under, append_assoc] at hemits
        | false =>
          have hbelow : ((own node'.final ++ l).filter fun e => lowers false [] e.1) = l := by
            have hnone : ((own node'.final).filter fun e => lowers false [] e.1) = [] := by
              rw [filter_eq_nil_iff]
              intro e he
              rw [mem_own he]
              exact Bool.false_ne_true
            have hall : (l.filter fun e => lowers false [] e.1) = l := by
              rw [filter_eq_self]
              intro e he
              obtain ⟨s, -, k, hk⟩ := htaken.sub.head_mem he
              rw [hk]
              exact decide_eq_true (nil_lt_cons s.inp k)
            rw [filter_append, hnone, hall, nil_append]
          refine ⟨inp ++ [t.inp], ⟨next, 0, out + t.out⟩ :: ⟨n, i + 1, out⟩ :: stack, ?_, ?_⟩
          · show (n.transAt fst.data i >>= fun _ => _) = _
            rw [htrans]
            show (Node.make fst.data t.addr >>= fun _ => _) = _
            rw [hmake]
            rfl
          · rw [hbelow]
            exact emits_from hext hsize hnext hpop' hsortedLater hlater 0 htaken.sub
      | cons c key =>
        have hown : ((own node'.final ++ l).filter fun e => lowers inclusive (c :: key) e.1) =
            l.filter fun e => lowers inclusive (c :: key) e.1 := by
          have hnone : ((own node'.final).filter fun e => lowers inclusive (c :: key) e.1) =
              [] := by
            rw [filter_eq_nil_iff]
            intro e he
            rw [mem_own he, lowers_cons_nil]
            exact Bool.false_ne_true
          rw [filter_append, hnone, nil_append]
        rw [hown]
        exact ih hnext hpop' hsortedLater hlater nofun htaken.sub
    · exact seek_absent hext hsize hplace hpop hsorted hrest hbranches fun t ht heq =>
        hfound ⟨t, ht, heq⟩

end

/-! ## Scans -/

/-- The dictionary is opened, and below its root are the keys. -/
theorem exists_place (ty : UInt64) (maskedChecksum : Bytes → ℕ)
    (hsorted : (kvs.map Prod.fst).Pairwise (· < ·)) (hkeys : ∀ e ∈ kvs, e.1 ≠ [])
    (hfan : ∀ p, fanOut kvs p ≤ 254)
    (hsize : ∀ data, build ty maskedChecksum kvs = .ok data → data.length < 2 ^ 64) :
      ∃ data fst bytes n node, build ty maskedChecksum kvs = .ok data ∧ Fst.make data = .ok fst ∧
      bytes <+: fst.data ∧ fst.data.length < 2 ^ 64 ∧ fst.root = some n ∧
      n.start = fst.info.rootAddr ∧
      Place bytes fst n node ∧ (narrow bytes).Branches node.trans kvs := by
  by_cases hne : kvs = []
  · subst hne
    obtain ⟨data, sum, hbuild, hbuilt⟩ := build_nil
    obtain ⟨fst, hmake, hdata, hroot, -⟩ := hbuilt.make (by decide)
    have hext : (new ty).writer.bytes <+: fst.data := by
      rw [hdata, hbuilt.data_eq]
      exact prefix_append _ _
    have hlength : fst.data.length < 2 ^ 64 := hdata ▸ hsize data hbuild
    have hstored := stored_emptyAddress (new ty).writer.bytes
    obtain ⟨n, hn, hstart, hstands⟩ := Stands.of_stored hext hlength hstored ⟨[], .nil, rfl⟩
    refine ⟨data, fst, _, n, ⟨true, 0, []⟩, hbuild, hmake, hext, hlength, ?_, ?_,
      ⟨hstands.stored, hstands.read, Nat.zero_le _, ?_⟩, .nil⟩
    · unfold Fst.root
      rw [hroot]
      exact hn
    · rw [hstart, hroot]
    · rw [hstart, hroot]
  · obtain ⟨data, fst, bytes, n, node, hbuild, hmake, -, hext, hlength, hroot, hstart, hstands⟩ :=
      exists_opened ty maskedChecksum hne hsorted hsize
    have htrans : node.trans.length ≤ 254 := hstands.length_eq.trans_le (hfan [])
    refine ⟨data, fst, bytes, n, node, hbuild, hmake, hext, hlength, hroot, hstart,
      ⟨hstands.stored, hstands.read, htrans, hstart.le⟩, ?_⟩
    obtain ⟨r, hbranches, hwords⟩ := hstands.spells
    -- the root is not final
    have hown : own ((machine bytes).final node) = ([] : List (Bytes × UInt64)) := by
      rw [eq_nil_iff_forall_not_mem]
      intro e he
      exact hkeys e (hwords ▸ mem_append_left _ he) (mem_own he)
    rw [hown, nil_append] at hwords
    subst hwords
    exact narrow_branches hbranches fun b p => hfan (b :: p)

theorem placed_nil_zero : placed [] 0 r = r := by
  unfold placed
  simp only [nil_append, zero_add]
  exact map_id r

theorem admitsAbove_of_isEmpty (h : min.isEmpty) (hk : k ≠ []) :
    min.admitsAbove k := by
  obtain ⟨ty, key⟩ := min
  unfold Bound.isEmpty at h
  cases ty with
  | unbounded => rfl
  | included =>
    obtain rfl : key = [] := by simpa using h
    exact decide_eq_true nil_prefix.le
  | excluded =>
    obtain rfl : key = [] := by simpa using h
    obtain ⟨b, bs, rfl⟩ := exists_cons_of_ne_nil hk
    exact decide_eq_true (nil_lt_cons b bs)

theorem lowers_eq_admitsAbove (h : min.isEmpty = false) :
    lowers min.isInclusive min.key k = min.admitsAbove k := by
  obtain ⟨ty, key⟩ := min
  cases ty with
  | unbounded => cases h
  | included =>
    show (!decide (k < key)) = decide (key ≤ k)
    rw [← decide_not]
    exact decide_eq_decide.mpr Std.not_lt
  | excluded => rfl

/-- `Reset` makes a walk over the keys between the bounds. -/
theorem emits_reset {n : Node} (hext : bytes <+: fst.data)
    (hlength : fst.data.length < 2 ^ 64) (hroot : fst.root = some n)
    (hstart : n.start = fst.info.rootAddr) (hplace : Place bytes fst n node)
    (hbranches : (narrow bytes).Branches node.trans kvs)
    (hsorted : (kvs.map Prod.fst).Pairwise (· < ·)) (hkeys : ∀ e ∈ kvs, e.1 ≠ [])
    (min max : Bound) : ∃ stream, reset fst min max = some stream ∧
      Emits stream (kvs.filter fun e => min.admitsAbove e.1 && max.admitsBelow e.1) := by
  have hpop : Pops fst n [] [] := .inl ⟨hstart, rfl⟩
  have hrest : Emits ⟨fst, max, [], []⟩ (within max []) := .stop rfl
  have hplaced : ((placed [] 0 kvs ++ []).map Prod.fst).Pairwise (· < ·) := by
    rwa [placed_nil_zero, append_nil]
  unfold reset
  rw [hroot]
  cases hempty : min.isEmpty with
  | true =>
    have hemits := emits_from hext hlength hplace hpop hplaced hrest 0 hbranches
    rw [placed_nil_zero, append_nil] at hemits
    refine ⟨_, rfl, ?_⟩
    have hall : ∀ e ∈ kvs, (min.admitsAbove e.1 && max.admitsBelow e.1) = max.admitsBelow e.1 := by
      intro e he
      rw [admitsAbove_of_isEmpty hempty (hkeys e he), Bool.true_and]
    rw [filter_congr hall]
    exact hemits
  | false =>
    have hkey : min.key ≠ [] := by
      intro hnil
      unfold Bound.isEmpty at hempty
      rw [hnil] at hempty
      simp at hempty
    obtain ⟨inp, stack, hseek, hemits⟩ :=
      seek_emits hext hlength hplace hpop hplaced hrest min.isInclusive hkey hbranches
    refine ⟨⟨fst, max, inp, stack⟩, ?_, ?_⟩
    · show (seek fst.data min.isInclusive min.key n 0 [] [] >>= fun _ => _) = _
      rw [hseek]
      rfl
    · have hboth : ∀ e ∈ kvs, (min.admitsAbove e.1 && max.admitsBelow e.1) =
          (max.admitsBelow e.1 && lowers min.isInclusive min.key e.1) := by
        intro e _
        rw [lowers_eq_admitsAbove hempty, Bool.and_comm]
      rw [filter_congr hboth, ← filter_filter]
      rwa [placed_nil_zero, append_nil] at hemits

/-- **A scan gives exactly the keys in the range, in order**, and ends. -/
theorem collect_reset (ty : UInt64) (maskedChecksum : Bytes → ℕ) (kvs : List (Bytes × UInt64))
    (hsorted : (kvs.map Prod.fst).Pairwise (· < ·)) (hkeys : ∀ e ∈ kvs, e.1 ≠ [])
    (hfan : ∀ p, fanOut kvs p ≤ 254)
    (hsize : ∀ data, build ty maskedChecksum kvs = .ok data → data.length < 2 ^ 64)
    (min max : Bound) : ∃ data fst stream rounds, build ty maskedChecksum kvs = .ok data ∧
      Fst.make data = .ok fst ∧ reset fst min max = some stream ∧ ∀ n ≥ rounds,
        stream.collect n =
        some (kvs.filter fun e => min.admitsAbove e.1 && max.admitsBelow e.1) := by
  obtain ⟨data, fst, bytes, n, node, hbuild, hmake, hext, hlength, hroot, hstart, hplace,
      hbranches⟩ :=
    exists_place ty maskedChecksum hsorted hkeys hfan hsize
  obtain ⟨stream, hreset, hemits⟩ :=
    emits_reset hext hlength hroot hstart hplace hbranches hsorted hkeys min max
  obtain ⟨rounds, hcollect⟩ := hemits.collect
  exact ⟨data, fst, stream, rounds, hbuild, hmake, hreset, hcollect⟩

/-- A scan of two keys above the first of them. -/
theorem collect_reset_above :
      ∃ data fst stream rounds, build 0 (fun _ => 0) [([97], 1), ([97, 98], 7)] = .ok data ∧
      Fst.make data = .ok fst ∧ reset fst ⟨.excluded, [97]⟩ ⟨.unbounded, []⟩ = some stream ∧
      ∀ n ≥ rounds, stream.collect n = some [([97, 98], 7)] := by
  apply collect_reset 0 (fun _ => 0) [([97], 1), ([97, 98], 7)] (by decide) (by decide)
  · intro p
    exact (fanOut_le_length _ p).trans (by decide)
  · intro data hdata
    rw [← Except.ok.inj (rfl.trans hdata)]
    decide +kernel

/-! ## Prefix scans -/

theorem increment_ne {key : Bytes} (h : key ≠ []) : (increment key).1 ≠ key := by
  induction key with
  | nil => exact absurd rfl h
  | cons b bs ih =>
    unfold increment
    by_cases hbs : bs = []
    · subst hbs
      simp [increment]
    · dsimp only
      split <;> simp [ih hbs]

theorem increment_carry : (increment key).2 ↔ ∀ b ∈ key, b = 255 := by
  induction key with
  | nil => simp [increment]
  | cons b bs ih =>
    have hwrap : b + 1 = 0 ↔ b = 255 := eq_neg_iff_add_eq_zero.symm
    rw [forall_mem_cons, ← ih, ← hwrap, increment]
    by_cases hcarry : (increment bs).2 <;> simp [hcarry]

/-- A key that is not below a prefix of bytes 0xFF begins with it. -/
theorem prefix_of_le {key : Bytes} (h : ∀ b ∈ key, b = 255) (hle : key ≤ k) : key <+: k := by
  induction key generalizing k with
  | nil => exact nil_prefix
  | cons b bs ih =>
    obtain ⟨rfl, hbs⟩ := forall_mem_cons.mp h
    cases k with
    | nil => exact absurd (nil_lt_cons 255 bs) (Std.not_lt.mpr hle)
    | cons c cs =>
      have hlt : ¬ (c < 255 ∨ c = 255 ∧ cs < bs) := cons_lt_cons_iff.not.mp (Std.not_lt.mpr hle)
      have htop : c ≤ 255 := UInt8.le_iff_toNat_le.mpr (Nat.le_of_lt_succ c.toNat_lt)
      obtain rfl : c = 255 := UInt8.le_antisymm htop (UInt8.not_lt.mp fun hc => hlt (.inl hc))
      rw [cons_prefix_cons]
      exact ⟨rfl, ih hbs (Std.not_lt.mp fun hcs => hlt (.inr ⟨rfl, hcs⟩))⟩

/-- **What a prefix scan gives.** The caller's buffer is never what it was, and the pairs are those
of the keys that begin with the prefix only if the prefix consists of bytes 0xFF or there is no such
key. The loop over the prefix counts down with an `int`, so this is about prefixes of at most 2 ^ 31
bytes. -/
theorem collect_resetPrefix_iff (ty : UInt64) (maskedChecksum : Bytes → ℕ)
    (kvs : List (Bytes × UInt64))
    (hsorted : (kvs.map Prod.fst).Pairwise (· < ·)) (hkeys : ∀ e ∈ kvs, e.1 ≠ [])
    (hfan : ∀ p, fanOut kvs p ≤ 254)
    (hsize : ∀ data, build ty maskedChecksum kvs = .ok data → data.length < 2 ^ 64) (key : Bytes)
    (hkey : key ≠ []) : ∃ data fst stream buffer rounds pairs, build ty maskedChecksum kvs =
      .ok data ∧
      Fst.make data = .ok fst ∧ resetPrefix fst key = some (stream, buffer) ∧ buffer ≠ key ∧
      (∀ n ≥ rounds, stream.collect n = some pairs) ∧
      (pairs = kvs.filter (fun e => key.isPrefixOf e.1) ↔ (∀ b ∈ key, b = 255) ∨ ∀ e ∈ kvs,
      ¬ key <+: e.1) := by
  obtain ⟨data, fst, bytes, n, node, hbuild, hmake, hext, hlength, hroot, hstart, hplace,
      hbranches⟩ :=
    exists_place ty maskedChecksum hsorted hkeys hfan hsize
  obtain ⟨stream, hreset, hemits⟩ :=
    emits_reset hext hlength hroot hstart hplace hbranches hsorted hkeys
    ⟨.included, key⟩ (if (increment key).2 then ⟨.unbounded, []⟩ else ⟨.excluded, key⟩)
  obtain ⟨rounds, hcollect⟩ := hemits.collect
  refine ⟨data, fst, stream, _, rounds, _, hbuild, hmake, ?_, increment_ne hkey, hcollect, ?_⟩
  · unfold resetPrefix
    dsimp only
    rw [hreset]
    rfl
  · by_cases hff : ∀ b ∈ key, b = 255
    · rw [if_pos ((increment_carry).mpr hff)]
      refine iff_of_true (filter_congr fun e _ => ?_) (.inl hff)
      simp only [Bound.admitsAbove, Bound.admitsBelow, Bool.and_true]
      rw [Bool.eq_iff_iff, decide_eq_true_eq, isPrefixOf_iff_prefix]
      exact ⟨prefix_of_le hff, IsPrefix.le⟩
    · rw [if_neg ((increment_carry).not.mpr hff), or_iff_right hff]
      have hnone : kvs.filter (fun e => Bound.admitsAbove ⟨.included, key⟩ e.1 &&
          Bound.admitsBelow ⟨.excluded, key⟩ e.1) = [] := by
        simp [Bound.admitsAbove, Bound.admitsBelow]
      rw [hnone, eq_comm, filter_eq_nil_iff]
      simp

/-- A scan for the keys that begin with the byte 97 gives none of the two that do. -/
theorem not_exact_resetPrefix : ∃ data fst stream, build 0 (fun _ => 0) [([97], 1), ([97, 98], 7)] =
      .ok data ∧
      Fst.make data = .ok fst ∧ resetPrefix fst [97] = some (stream, [98]) ∧
      stream.collect 9 = some [] := by
  refine ⟨_, _, _, rfl, rfl, rfl, ?_⟩
  decide +kernel

/-- For the byte 0xFF the two keys are given, but the buffer has changed. -/
theorem collect_resetPrefix_ff : ∃ data fst stream buffer rounds,
      build 0 (fun _ => 0) [([97], 1), ([255], 4), ([255, 98], 7)] = .ok data ∧
      Fst.make data = .ok fst ∧ resetPrefix fst [255] = some (stream, buffer) ∧ buffer ≠ [255] ∧
      ∀ n ≥ rounds, stream.collect n = some [([255], 4), ([255, 98], 7)] := by
  have hsize : ∀ data, build 0 (fun _ => 0) [([97], 1), ([255], 4), ([255, 98], 7)] = .ok data →
      data.length < 2 ^ 64 := by
    intro data hdata
    rw [← Except.ok.inj (rfl.trans hdata)]
    decide +kernel
  obtain ⟨data, fst, stream, buffer, rounds, pairs, hbuild, hmake, hreset, hne, hcollect, hpairs⟩ :=
    collect_resetPrefix_iff 0 (fun _ => 0) _ (by decide) (by decide)
      (fun p => (fanOut_le_length _ p).trans (by decide)) hsize [255] (by decide)
  obtain rfl := hpairs.mpr (.inl (by simp))
  exact ⟨data, fst, stream, buffer, rounds, hbuild, hmake, hreset, hne, hcollect⟩

end Infinity.Fst
