import Infinity.Fst.Bounds
import Infinity.Fst.FanOut

/-! # What a walk over the dictionary gives

The stack of a walk holds nodes with the transitions that are left of them. The words behind these,
from the top of the stack to its bottom, are what the walk still gives, up to the first key that
exceeds the bound. -/

namespace Infinity.Fst

open Foundations List

variable {inp inp' : Bytes} {t : Transition} {st : StreamState} {stack : List StreamState}

/-! ## Rounds of `Next` -/

/-- The rounds of `Next` give a list of pairs and then end. -/
inductive Emits : FstStream → List (Bytes × UInt64) → Prop
  | stop {s s' : FstStream} (step : s.step = some (s', some none)) : Emits s []
  | silent {s s' : FstStream} {l : List (Bytes × UInt64)} (step : s.step = some (s', none))
      (rest : Emits s' l) : Emits s l
  | emit {s s' : FstStream} {e : Bytes × UInt64} {l : List (Bytes × UInt64)}
      (step : s.step = some (s', some (some e))) (rest : Emits s' l) : Emits s (e :: l)

namespace Emits

variable {s s' : FstStream} {l : List (Bytes × UInt64)} {n : ℕ}

theorem next_return {r : Option (Bytes × UInt64)} (h : s.step = some (s', some r)) :
    s.next (n + 1) = some (s', r) := by
  show (s.step >>= fun _ => _) = _
  rw [h]
  rfl

theorem next_silent (h : s.step = some (s', none)) : s.next (n + 1) = s'.next n := by
  show (s.step >>= fun _ => _) = _
  rw [h]
  rfl

/-- The next call of `Next`. -/
theorem next (h : Emits s l) : ∃ rounds s', (∀ n ≥ rounds, s.next n = some (s', l.head?)) ∧
    ∀ e l', l = e :: l' → Emits s' l' := by
  induction h with
  | @stop s s' step =>
    refine ⟨1, s', fun n hn => ?_, nofun⟩
    obtain ⟨m, rfl⟩ : ∃ m, n = m + 1 := ⟨n - 1, by omega⟩
    exact next_return step
  | @silent s s' l step rest ih =>
    obtain ⟨rounds, s'', hnext, htail⟩ := ih
    refine ⟨rounds + 1, s'', fun n hn => ?_, htail⟩
    obtain ⟨m, rfl⟩ : ∃ m, n = m + 1 := ⟨n - 1, by omega⟩
    rw [next_silent step]
    exact hnext m (by omega)
  | @emit s s' e l step rest ih =>
    refine ⟨1, s', fun n hn => ?_, ?_⟩
    · obtain ⟨m, rfl⟩ : ∃ m, n = m + 1 := ⟨n - 1, by omega⟩
      exact next_return step
    · rintro e' l' heq
      obtain ⟨-, rfl⟩ := cons.inj heq
      exact rest

/-- `Next` until it returns false gives the pairs. -/
theorem collect (h : Emits s l) : ∃ rounds, ∀ n ≥ rounds, s.collect n = some l := by
  induction l generalizing s with
  | nil =>
    obtain ⟨rounds, s', hnext, -⟩ := h.next
    refine ⟨rounds + 1, fun n hn => ?_⟩
    obtain ⟨m, rfl⟩ : ∃ m, n = m + 1 := ⟨n - 1, by omega⟩
    show (s.next m >>= fun _ => _) = _
    rw [hnext m (by omega)]
    rfl
  | cons e l ih =>
    obtain ⟨rounds, s', hnext, htail⟩ := h.next
    obtain ⟨rounds', hcollect⟩ := ih (htail e l rfl)
    refine ⟨max rounds rounds' + 1, fun n hn => ?_⟩
    obtain ⟨m, rfl⟩ : ∃ m, n = m + 1 := ⟨n - 1, by omega⟩
    show (s.next m >>= fun _ => _) = _
    rw [hnext m (by omega)]
    show (s'.collect m >>= fun rest => some (e :: rest)) = _
    rw [hcollect m (by omega)]
    rfl

end Emits

/-- The stored nodes with at most 254 transitions as a transducer. -/
def narrow (bytes : Bytes) : Transducer UInt8 UInt64 Transition BuilderNode :=
  { machine bytes with leads := fun t n => Stored bytes t.addr n ∧ n.trans.length ≤ 254 }

variable {bytes data : Bytes} {ts : List Transition} {r : List (Bytes × UInt64)} {out : UInt64}

/-- If no sequence of bytes has more than 254 followers, all nodes have few transitions. -/
theorem narrow_branches (h : (machine bytes).Branches ts r)
    (hfan : ∀ b p, fanOut r (b :: p) ≤ 254) : (narrow bytes).Branches ts r := by
  induction h with
  | nil => exact .nil
  | @cons t n ts l r leads sub ne_nil lt rest ihsub ihrest =>
    have hchild : ∀ p, fanOut (own n.final ++ l) p ≤ 254 := by
      intro p
      refine le_trans (fanOut_mono fun b hb => ?_) (hfan t.inp p)
      rw [path_append]
      exact .inl (path_under.mpr ⟨rfl, hb⟩)
    have hlength : n.trans.length ≤ 254 := (length_trans_eq_fanOut sub).trans_le (hchild [])
    refine .cons (T := narrow bytes) ⟨leads, hlength⟩ (ihsub fun b p => ?_) ne_nil lt
      (ihrest fun b p => ?_)
    · refine le_trans (fanOut_mono fun c hc => ?_) (hchild (b :: p))
      exact path_append.mpr (.inr hc)
    · refine le_trans (fanOut_mono fun c hc => ?_) (hfan b p)
      exact path_append.mpr (.inr hc)

/-! ## Words at a place of the walk -/

/-- The words behind a node, with the key so far in front and the output so far added. -/
def placed (inp : Bytes) (out : UInt64) (r : List (Bytes × UInt64)) : List (Bytes × UInt64) :=
  r.map fun e => (inp ++ e.1, out + e.2)

theorem placed_append (l r : List (Bytes × UInt64)) :
    placed inp out (l ++ r) = placed inp out l ++ placed inp out r := map_append

theorem placed_under (b : UInt8) (m : UInt64) (l : List (Bytes × UInt64)) :
    placed inp out (under b m l) = placed (inp ++ [b]) (out + m) l := by
  unfold placed under
  rw [map_map]
  refine map_congr_left fun e _ => Prod.ext ?_ (add_assoc out m e.2).symm
  rw [append_assoc]
  rfl

def within (endAt : Bound) (l : List (Bytes × UInt64)) : List (Bytes × UInt64) :=
  l.filter fun e => endAt.admitsBelow e.1

/-- Nothing is let through behind a key that exceeds the bound. -/
theorem within_eq_nil {endAt : Bound} {out : UInt64} {l r : List (Bytes × UInt64)}
    (hsorted : ((placed inp out l ++ r).map Prod.fst).Pairwise (· < ·)) (hne : l ≠ [])
    (hinp : endAt.admitsBelow inp = false) : within endAt (placed inp out l ++ r) = [] := by
  have hplaced : ∀ e ∈ placed inp out l, inp ≤ e.1 := by
    intro e he
    obtain ⟨e', -, rfl⟩ := mem_map.mp he
    exact (prefix_append inp e'.1).le
  obtain ⟨e₀, he₀⟩ := exists_mem_of_ne_nil l hne
  have hfirst : (inp ++ e₀.1, out + e₀.2) ∈ placed inp out l := mem_map.mpr ⟨e₀, he₀, rfl⟩
  rw [pairwise_map, pairwise_append] at hsorted
  have hle : ∀ e ∈ placed inp out l ++ r, inp ≤ e.1 := by
    intro e he
    rcases mem_append.mp he with he | he
    · exact hplaced e he
    · exact Std.le_trans (hplaced _ hfirst) (Std.le_of_lt (hsorted.2.2 _ hfirst e he))
  unfold within
  rw [filter_eq_nil_iff]
  intro e he hadmits
  rw [Bound.admitsBelow_of_le hadmits (hle e he)] at hinp
  cases hinp

/-! ## The walk over what is left of a node -/

/-- What the key becomes when a node is taken from the stack. -/
def Pops (fst : Fst) (n : Node) (inp inp' : Bytes) : Prop :=
  (n.start = fst.info.rootAddr ∧ inp' = inp) ∨
    (n.start ≠ fst.info.rootAddr ∧ ∃ b, inp = inp' ++ [b])

/-- A place on the stack: a node with few transitions, at or below the root. -/
structure Place (bytes : Bytes) (fst : Fst) (n : Node) (node : BuilderNode) : Prop where
  stored : Stored bytes n.start node
  read : ReadBack fst.data n.start node n
  length_le : node.trans.length ≤ 254
  start_le : n.start ≤ fst.info.rootAddr

variable {fst : Fst} {endAt : Bound} {n : Node} {node : BuilderNode}

section

variable (h : Place bytes fst n node)
include h

theorem Place.ntrans : n.ntrans.toNat = node.trans.length := by
  rw [h.read.ntrans, UInt8.toNat_ofNat']
  have hle := h.length_le
  omega

theorem Place.transAt {i : ℕ} (ht : node.trans[i]? = some t) :
    n.transAt fst.data i = some t :=
  h.read.transAt (h.length_le.trans (by decide)) i t ht

/-- The node behind a transition. -/
theorem Place.child {node' : BuilderNode} (ht : t ∈ node.trans)
    (hleads : (narrow bytes).leads t node') (hext : bytes <+: fst.data)
    (hsize : fst.data.length < 2 ^ 64) :
    ∃ n', Node.make fst.data t.addr = some n' ∧ Place bytes fst n' node' ∧
    n'.start ≠ fst.info.rootAddr := by
  obtain ⟨hstored, hlength⟩ := hleads
  obtain ⟨z, hz⟩ := hext
  obtain ⟨n', hn'⟩ := hstored.read z (hz ▸ hsize)
  rw [hz] at hn'
  have hlt := h.stored.descend t ht
  have hle := h.start_le
  refine ⟨n', hn'.make, ⟨?_, ?_, hlength, ?_⟩, ?_⟩
  · rw [hn'.start]
    exact hstored
  · rw [hn'.start]
    exact hn'
  · rw [hn'.start]
    omega
  · rw [hn'.start]
    omega

end

theorem step_pop (h : st.node.ntrans.toNat ≤ st.trans) (hpop : Pops fst st.node inp inp') :
    FstStream.step ⟨fst, endAt, inp, st :: stack⟩ = some (⟨fst, endAt, inp', stack⟩, none) := by
  unfold FstStream.step
  dsimp only
  rw [if_pos h]
  rcases hpop with ⟨hroot, rfl⟩ | ⟨hroot, b, rfl⟩
  · rw [if_neg (not_not_intro hroot)]
  · rw [if_pos hroot, if_neg (by simp), dropLast_concat]

theorem step_push (endAt : Bound) (inp : Bytes) (stack : List StreamState)
    {next : Node} (h : ¬ st.node.ntrans.toNat ≤ st.trans)
    (ht : st.node.transAt fst.data st.trans = some t)
    (hnext : Node.make fst.data t.addr = some next) :
      FstStream.step ⟨fst, endAt, inp, st :: stack⟩ =
      if endAt.exceededBy (inp ++ [t.inp]) then some (⟨fst, endAt, inp ++ [t.inp], []⟩, some none)
      else some (⟨fst, endAt, inp ++ [t.inp],
        ⟨next, 0, st.out + t.out⟩ :: { st with trans := st.trans + 1 } :: stack⟩,
        if next.isFinal then some (some (inp ++ [t.inp], st.out + t.out + next.output))
        else none) := by
  unfold FstStream.step
  dsimp only
  rw [if_neg h, ht]
  show (Node.make fst.data t.addr >>= fun _ => _) = _
  rw [hnext]
  rfl

/-- **The walk over the transitions that are left of a node** gives the words behind them, and goes
on with the rest of the stack. -/
theorem emits_branches (hext : bytes <+: fst.data) (hsize : fst.data.length < 2 ^ 64)
    (h : (narrow bytes).Branches ts r)
    {rest : List (Bytes × UInt64)} (hplace : Place bytes fst st.node node)
    (hdrop : node.trans.drop st.trans = ts)
    (hpop : Pops fst st.node inp inp')
    (hsorted : ((placed inp st.out r ++ rest).map Prod.fst).Pairwise (· < ·))
    (hrest : Emits ⟨fst, endAt, inp', stack⟩ (within endAt rest)) :
    Emits ⟨fst, endAt, inp, st :: stack⟩ (within endAt (placed inp st.out r ++ rest)) := by
  induction h generalizing st stack inp inp' rest node with
  | nil =>
    have hle : st.node.ntrans.toNat ≤ st.trans := by
      rw [hplace.ntrans]
      exact drop_eq_nil_iff.mp hdrop
    exact .silent (step_pop hle hpop) hrest
  | @cons t n ts l r leads sub ne_nil lt _ ihsub ihrest =>
    have hget : node.trans[st.trans]? = some t := by
      rw [← head?_drop, hdrop]
      rfl
    obtain ⟨hlt, -⟩ := List.getElem?_eq_some_iff.mp hget
    have hnot : ¬ st.node.ntrans.toNat ≤ st.trans := by
      rw [hplace.ntrans]
      omega
    obtain ⟨next, hmake, hnext, hne⟩ := hplace.child (mem_of_getElem? hget) leads hext hsize
    have hwords : placed inp st.out (under t.inp t.out (own n.final ++ l) ++ r) ++ rest =
        placed (inp ++ [t.inp]) (st.out + t.out) (own n.final ++ l) ++
        (placed inp st.out r ++ rest) := by
      rw [placed_append, placed_under, append_assoc]
    have hstep := step_push endAt inp stack hnot (hplace.transAt hget) hmake
    change ((placed inp st.out (under t.inp t.out (own n.final ++ l) ++ r) ++ rest).map
      Prod.fst).Pairwise _ at hsorted
    change Emits _
      (within endAt (placed inp st.out (under t.inp t.out (own n.final ++ l) ++ r) ++ rest))
    rw [hwords] at hsorted ⊢
    rw [Bound.exceededBy_eq] at hstep
    cases hadmits : endAt.admitsBelow (inp ++ [t.inp]) with
    | false =>
      rw [hadmits] at hstep
      rw [within_eq_nil hsorted ne_nil hadmits]
      exact .stop hstep
    | true =>
      rw [hadmits] at hstep
      have hdrop' : node.trans.drop (st.trans + 1) = ts := by
        rw [← tail_drop, hdrop]
        rfl
      rw [placed_append, append_assoc] at hsorted ⊢
      have hsorted' :
          ((placed (inp ++ [t.inp]) (st.out + t.out) l ++ (placed inp st.out r ++ rest)).map
          Prod.fst).Pairwise (· < ·) := by
        rw [map_append] at hsorted
        exact (pairwise_append.mp hsorted).2.1
      have hlater : ((placed inp st.out r ++ rest).map Prod.fst).Pairwise (· < ·) := by
        rw [map_append] at hsorted'
        exact (pairwise_append.mp hsorted').2.1
      -- below the transition, and then what is left of this node
      have hbelow : Emits ⟨fst, endAt, inp ++ [t.inp],
          ⟨next, 0, st.out + t.out⟩ :: { st with trans := st.trans + 1 } :: stack⟩
          (within endAt (placed (inp ++ [t.inp]) (st.out + t.out) l ++
          (placed inp st.out r ++ rest))) := by
        have hpop' : Pops fst next (inp ++ [t.inp]) inp := .inr ⟨hne, t.inp, rfl⟩
        refine ihsub ?_ rfl hpop' hsorted' ?_
        · exact hnext
        · refine ihrest ?_ hdrop' ?_ hlater hrest
          · exact hplace
          · exact hpop
      have hisFinal : next.isFinal = n.isFinal := hnext.read.isFinal
      have houtput := hnext.read.output
      have hown : own n.final = if n.isFinal then [(([] : Bytes), n.finalOutput)] else [] := by
        unfold BuilderNode.final own
        cases n.isFinal <;> rfl
      rw [hown]
      rw [hisFinal, houtput] at hstep
      cases hfinal : n.isFinal with
      | false =>
        rw [hfinal] at hstep
        exact .silent hstep hbelow
      | true =>
        rw [hfinal] at hstep
        have hfirst :
            within endAt (placed (inp ++ [t.inp]) (st.out + t.out) [([], n.finalOutput)] ++
            (placed (inp ++ [t.inp]) (st.out + t.out) l ++ (placed inp st.out r ++ rest))) =
            (inp ++ [t.inp], st.out + t.out + n.finalOutput) ::
              within endAt (placed (inp ++ [t.inp]) (st.out + t.out) l ++
              (placed inp st.out r ++ rest)) := by
          have hone : placed (inp ++ [t.inp]) (st.out + t.out) [([], n.finalOutput)] =
              [(inp ++ [t.inp], st.out + t.out + n.finalOutput)] := by
            unfold placed
            rw [map_singleton, append_nil]
          rw [hone]
          exact filter_cons_of_pos hadmits
        rw [if_pos rfl, hfirst]
        exact .emit hstep hbelow

end Infinity.Fst
