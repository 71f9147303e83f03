import Infinity.Fst.Stored

/-! # What the unfinished nodes spell

The frames of the builder, from the root to the top, spell words: each frame those of its node, and
behind its last transition those of the frames above. The operations on the frames keep the words or
add the next. -/

namespace Infinity.Fst

open Foundations List BuilderNodeUnfinished

variable {u : BuilderNodeUnfinished} {t : LastTransition}

/-- The frames spell a list of words. -/
inductive Spine (bytes : Bytes) : UnfinishedNodes → List (Bytes × UInt64) → Prop
  | top {u : BuilderNodeUnfinished} {r : List (Bytes × UInt64)} (branches :
      (machine bytes).Branches u.node.trans r)
      (last : u.last = none) : Spine bytes [u] (own u.node.final ++ r)
  | cons {u : BuilderNodeUnfinished} {t : LastTransition} {us : UnfinishedNodes} {r l :
      List (Bytes × UInt64)}
      (branches : (machine bytes).Branches u.node.trans r) (last : u.last = some t)
      (lt : ∀ s ∈ u.node.trans, s.inp < t.inp) (rest : Spine bytes us l) (ne_nil : l ≠ []) :
      Spine bytes (u :: us) (own u.node.final ++ r ++ under t.inp t.out l)

namespace UnfinishedNodes

def labels (us : UnfinishedNodes) : Bytes := us.filterMap fun u => u.last.map LastTransition.inp

def pathOut : UnfinishedNodes → ℕ → UInt64
  | u :: us, n + 1 => (u.last.map LastTransition.out).getD 0 + pathOut us n
  | _, _ => 0

def topTrans (us : UnfinishedNodes) : Option (List Transition) :=
  us.getLast?.map fun u => u.node.trans

@[simp] theorem labels_cons_none (h : u.last = none) : labels (u :: us) = labels us := by
  unfold labels
  rw [filterMap_cons_none (by rw [h]; rfl)]

@[simp] theorem labels_cons_some (h : u.last = some t) : labels (u :: us) = t.inp :: labels us := by
  unfold labels
  rw [filterMap_cons_some (by rw [h]; rfl)]

theorem topTrans_cons {v : BuilderNodeUnfinished} :
    topTrans (u :: v :: us) = topTrans (v :: us) := by
  unfold topTrans
  rw [getLast?_cons_cons]

end UnfinishedNodes

variable {bytes bytes' : Bytes} {us : UnfinishedNodes} {l : List (Bytes × UInt64)}

namespace Spine

open UnfinishedNodes (labels topTrans pathOut addSuffix labels_cons_none labels_cons_some
  topTrans_cons)

variable {r : List (Bytes × UInt64)} {w : NodeWriter} {node : BuilderNode} {add : UInt64}
  {out : UInt64} {bs : Bytes} {b : UInt8}

theorem ne_nil_frames (h : Spine bytes us l) : ∃ u rest, us = u :: rest := by
  cases h with
  | top => exact ⟨_, _, rfl⟩
  | cons => exact ⟨_, _, rfl⟩

theorem topTrans_below (h : Spine bytes us l) : topTrans (u :: us) = us.topTrans := by
  obtain ⟨v, us, rfl⟩ := h.ne_nil_frames
  exact topTrans_cons

/-- Without a last key there is only the root. -/
theorem of_labels_nil (h : Spine bytes us l) (hlabels : us.labels = []) :
    ∃ u r, us = [u] ∧ u.last = none ∧ (machine bytes).Branches u.node.trans r ∧
    l = own u.node.final ++ r := by
  cases h with
  | top branches last => exact ⟨_, _, rfl, last, branches, rfl⟩
  | cons branches last =>
    rw [labels_cons_some last] at hlabels
    cases hlabels

/-! ## Common bytes -/

theorem final_addOutputPrefix :
    (u.addOutputPrefix add).node.final = u.node.final.map fun v => add + v := by
  unfold addOutputPrefix BuilderNode.final
  cases u.node.isFinal <;> rfl

theorem branches_addOutputPrefix (h : (machine bytes).Branches u.node.trans r) :
    (machine bytes).Branches (u.addOutputPrefix add).node.trans (shift add r) :=
  h.shift (fun _ => rfl) (fun _ => rfl) fun _ _ hstored => hstored

theorem addOutputPrefix_zero : u.addOutputPrefix 0 = u := by
  have hcat : Transition.cat 0 = id := by
    funext t
    simp [Transition.cat]
  obtain ⟨⟨isFinal, finalOutput, trans⟩, last⟩ := u
  cases last <;> simp [addOutputPrefix, hcat]

/-- An output in front of a frame is added to all words from there. -/
theorem addOutputPrefix (add : UInt64) (h : Spine bytes (u :: us) l) :
    Spine bytes (u.addOutputPrefix add :: us) (shift add l) := by
  cases h with
  | top branches last =>
    rw [shift_append, shift_own, ← final_addOutputPrefix]
    apply Spine.top (branches_addOutputPrefix branches)
    unfold addOutputPrefix
    rw [last]
    rfl
  | @cons _ t _ r l branches last lt rest ne_nil =>
    rw [shift_append, shift_append, shift_own, shift_under, ← final_addOutputPrefix]
    apply Spine.cons (t := ⟨t.inp, add + t.out⟩) (branches_addOutputPrefix branches) _ _ rest ne_nil
    · unfold addOutputPrefix
      rw [last]
      rfl
    · intro s hs
      obtain ⟨s', hs', rfl⟩ := mem_map.mp hs
      exact lt s' hs'

theorem labels_addOutputPrefix (u : BuilderNodeUnfinished) (add : UInt64) (us : UnfinishedNodes) :
    labels (u.addOutputPrefix add :: us) = labels (u :: us) := by
  cases hlast : u.last with
  | none =>
    rw [labels_cons_none hlast, labels_cons_none]
    unfold BuilderNodeUnfinished.addOutputPrefix
    rw [hlast]
    rfl
  | some t =>
    rw [labels_cons_some hlast, labels_cons_some (t := ⟨t.inp, add + t.out⟩)]
    unfold BuilderNodeUnfinished.addOutputPrefix
    rw [hlast]
    rfl

theorem topTrans_addOutputPrefix
    (h : topTrans (u :: us) = some []) : topTrans (u.addOutputPrefix add :: us) = some [] := by
  cases us with
  | nil =>
    have htrans : u.node.trans = [] := Option.some.inj h
    show some (u.node.trans.map (Transition.cat add)) = some []
    rw [htrans]
    rfl
  | cons v us =>
    exact h

/-- What `FindCommonPrefixAndSetOutput` has found: the words stay, and the outputs on the common
bytes with what is left of the output are the output. -/
structure CommonPrefix (bytes : Bytes) (us : UnfinishedNodes) (bs : Bytes) (out : UInt64)
    (l : List (Bytes × UInt64)) (r : UnfinishedNodes × UInt64 × ℕ) : Prop where
  spine : Spine bytes r.1 l
  labels : r.1.labels = us.labels
  top : us.topTrans = some [] → r.1.topTrans = some []
  le : r.2.2 ≤ bs.length
  le_labels : r.2.2 ≤ us.labels.length
  take : us.labels.take r.2.2 = bs.take r.2.2
  differ : ∀ b c, bs[r.2.2]? = some b → us.labels[r.2.2]? = some c → c ≠ b
  out : r.1.pathOut r.2.2 + r.2.1 = out

theorem CommonPrefix.stop {bs : Bytes} {out : UInt64} (h : Spine bytes us l)
    (hdiffer : ∀ b c, bs[0]? = some b → us.labels[0]? = some c → c ≠ b) :
    CommonPrefix bytes us bs out l (us, out, 0) := by
  refine ⟨h, rfl, id, Nat.zero_le _, Nat.zero_le _, rfl, hdiffer, ?_⟩
  cases us <;> exact zero_add out

/-- **Moving outputs along the common bytes keeps the words.** -/
theorem findCommonPrefix (h : Spine bytes us l) (bs : Bytes) (out : UInt64) :
    CommonPrefix bytes us bs out l (us.findCommonPrefixAndSetOutput bs out) := by
  induction bs generalizing us l out with
  | nil =>
    have heq : us.findCommonPrefixAndSetOutput [] out = (us, out, 0) := by
      rcases us with _ | ⟨u, _ | ⟨v, us⟩⟩ <;> rfl
    rw [heq]
    exact .stop h nofun
  | cons b bs ih =>
    cases h with
    | top branches last =>
      refine .stop (.top branches last) fun b c _ hc => ?_
      rw [labels_cons_none last] at hc
      cases hc
    | @cons u t us r l branches last lt rest ne_nil =>
      obtain ⟨v, us, rfl⟩ := rest.ne_nil_frames
      by_cases hinp : t.inp = b
      · set common := min t.out out with hcommon
        set add := t.out - common with hadd
        -- with nothing to add, the frame is left as it is
        have hv : (if add = 0 then v else v.addOutputPrefix add) = v.addOutputPrefix add := by
          split
          next hzero => rw [hzero, addOutputPrefix_zero]
          next => rfl
        have hsum : common + add = t.out := by
          exact add_sub_cancel common t.out
        have hspine := rest.addOutputPrefix add
        have hlabels := labels_addOutputPrefix v add us
        have hu : (if add = 0 then u else { u with last := some ⟨t.inp, common⟩ }) =
            { u with last := some ⟨t.inp, common⟩ } := by
          split
          next hzero =>
            rw [hzero, add_zero] at hsum
            rw [hsum, ← last]
          next => rfl
        set rest' := UnfinishedNodes.findCommonPrefixAndSetOutput (v.addOutputPrefix add :: us) bs
          (out - common) with hrest
        have heq : UnfinishedNodes.findCommonPrefixAndSetOutput (u :: v :: us) (b :: bs) out =
            ({ u with last := some ⟨t.inp, common⟩ } :: rest'.1, rest'.2.1, rest'.2.2 + 1) := by
          rw [← hu, hrest, ← hv]
          conv_lhs => unfold UnfinishedNodes.findCommonPrefixAndSetOutput
          rw [last]
          exact if_pos hinp
        have hih := ih hspine (out - common)
        rw [heq, ← hsum, ← under_shift]
        have hcons : labels (u :: v :: us) = t.inp :: labels (v :: us) := labels_cons_some last
        constructor
        · exact .cons (t := ⟨t.inp, common⟩) branches rfl lt hih.spine (mt shift_eq_nil.mp ne_nil)
        · rw [hcons, labels_cons_some rfl, hih.labels, hlabels]
        · rw [hih.spine.topTrans_below, rest.topTrans_below]
          exact fun h => hih.top (topTrans_addOutputPrefix h)
        · exact Nat.succ_le_succ hih.le
        · rw [hcons, ← hlabels]
          exact Nat.succ_le_succ hih.le_labels
        · rw [hcons, ← hlabels, take_succ_cons, take_succ_cons, hih.take, hinp]
        · rw [hcons, ← hlabels]
          exact hih.differ
        · show common + rest'.1.pathOut rest'.2.2 + rest'.2.1 = out
          rw [add_assoc, hih.out]
          exact add_sub_cancel common out
      · have heq : UnfinishedNodes.findCommonPrefixAndSetOutput (u :: v :: us) (b :: bs) out =
            (u :: v :: us, out, 0) := by
          unfold UnfinishedNodes.findCommonPrefixAndSetOutput
          rw [last]
          exact if_neg hinp
        rw [heq]
        refine .stop (.cons branches last lt rest ne_nil) fun b' c hb hc => ?_
        rw [labels_cons_some last] at hc
        rwa [← Option.some.inj hb, ← Option.some.inj hc]

/-! ## Compiled frames -/

/-- A node that spells words can be compiled. -/
theorem compile_spells (hw : w.Valid) (h : (machine w.bytes).Spells node l) (hne : l ≠ []) :
    (w.compile node).1.Valid ∧ w.bytes <+: (w.compile node).1.bytes ∧
      Stored (w.compile node).1.bytes (w.compile node).2 node ∧
      (machine (w.compile node).1.bytes).Spells node l := by
  obtain ⟨r, hbranches, rfl⟩ := h
  have hnode : node ≠ ⟨false, 0, []⟩ := by
    rintro rfl
    cases hbranches
    exact hne rfl
  have htrans : ∀ t ∈ node.trans, ∃ n, Stored w.bytes t.addr n := fun t ht =>
    (hbranches.child ht).elim fun n hn => hn.elim fun _ h => ⟨n, h.1⟩
  obtain ⟨hvalid, hext, hstored⟩ := hw.compile hbranches.pairwise_label htrans hnode
  exact ⟨hvalid, hext, hstored, r, branches_mono hbranches hext, rfl⟩

/-- A frame whose last transition is compiled spells the words of the frames above with its own. -/
theorem lastCompiled_spells {addr : ℕ} (hbranches : (machine bytes).Branches u.node.trans r)
    (hlast : u.last = some t) (hlt : ∀ s ∈ u.node.trans, s.inp < t.inp)
    (hstored : Stored bytes addr node) (hspells : (machine bytes).Spells node l) (hne : l ≠ []) :
    (u.lastCompiled addr).last = none ∧ (u.lastCompiled addr).node.final = u.node.final ∧
      (u.lastCompiled addr).node.trans = u.node.trans ++ [⟨t.inp, t.out, addr⟩] ∧
      (machine bytes).Branches (u.lastCompiled addr).node.trans (r ++ under t.inp t.out l) := by
  have heq : u.lastCompiled addr = ⟨{ u.node with trans := u.node.trans ++ [⟨t.inp, t.out, addr⟩] },
      none⟩ := by
    unfold lastCompiled
    rw [hlast]
  rw [heq]
  exact ⟨rfl, rfl, rfl,  hbranches.concat (t := (⟨t.inp, t.out, addr⟩ : Transition)) hlt hstored
    hspells hne⟩

/-- **Compiled frames are a node that spells the same words.** -/
theorem compileFrames (hw : w.Valid) (h : Spine w.bytes us l) (hne : l ≠ []) :
    (w.compileFrames us).1.Valid ∧ w.bytes <+: (w.compileFrames us).1.bytes ∧
      ∃ node, Stored (w.compileFrames us).1.bytes (w.compileFrames us).2 node ∧
        (machine (w.compileFrames us).1.bytes).Spells node l := by
  induction us generalizing l with
  | nil => cases h
  | cons u us ih =>
    cases h with
    | top branches last =>
      obtain ⟨hvalid, hext, hstored⟩ := compile_spells hw ⟨_, branches, rfl⟩ hne
      exact ⟨hvalid, hext, u.node, hstored⟩
    | @cons _ t _ r l branches last lt rest ne_nil =>
      obtain ⟨hvalid, hext, node, hstored, hspells⟩ := ih rest ne_nil
      set w' := (w.compileFrames us).1 with hw'
      set addr := (w.compileFrames us).2 with haddr
      have heq : w.compileFrames (u :: us) = w'.compile (u.lastCompiled addr).node := by
        show w'.compile (if addr = noneAddress then u else u.lastCompiled addr).node = _
        rw [if_neg hstored.ne_none]
      obtain ⟨-, hfinal, -, hbranches⟩ :=
        lastCompiled_spells (branches_mono branches hext) last lt hstored hspells ne_nil
      have hspells' : (machine w'.bytes).Spells (u.lastCompiled addr).node
          (own u.node.final ++ r ++ under t.inp t.out l) := by
        refine ⟨_, hbranches, ?_⟩
        rw [append_assoc]
        exact congrArg (own · ++ _) hfinal.symm
      obtain ⟨hvalid', hext', hnode⟩ := compile_spells hvalid hspells' hne
      rw [heq]
      exact ⟨hvalid', hext.trans hext', _, hnode⟩

/-! ## The next word -/

theorem under_singleton : under b out [(bs, 0)] = [(b :: bs, out)] := by
  unfold under
  rw [map_singleton, add_zero]

theorem suffixFrames (bytes bs : Bytes) : Spine bytes (UnfinishedNodes.suffixFrames bs) [(bs, 0)] ∧
    (UnfinishedNodes.suffixFrames bs).labels = bs ∧ (UnfinishedNodes.suffixFrames bs).topTrans =
    some [] := by
  induction bs with
  | nil => exact ⟨.top .nil rfl, rfl, rfl⟩
  | cons b bs ih =>
    obtain ⟨hspine, hlabels, htop⟩ := ih
    have hcons : UnfinishedNodes.suffixFrames (b :: bs) =
        ⟨⟨false, 0, []⟩, some ⟨b, 0⟩⟩ :: UnfinishedNodes.suffixFrames bs := rfl
    rw [hcons]
    refine ⟨?_, ?_, ?_⟩
    · exact .cons (u := ⟨⟨false, 0, []⟩, some ⟨b, 0⟩⟩) .nil rfl (fun _ hs => by cases hs)
        hspine nofun
    · conv_rhs => rw [← hlabels]
      exact labels_cons_some (t := ⟨b, 0⟩) rfl
    · rw [hspine.topTrans_below]
      exact htop

/-- The suffix at a frame whose transitions have smaller labels. -/
theorem addSuffix_top (hbranches : (machine bytes).Branches u.node.trans r)
    (hlt : ∀ s ∈ u.node.trans, s.inp < b) :
      Spine bytes (addSuffix [u] (b :: bs) out) (own u.node.final ++ r ++ [(b :: bs, out)]) ∧
      (addSuffix [u] (b :: bs) out).labels = b :: bs ∧ (addSuffix [u] (b :: bs) out).topTrans =
      some [] := by
  obtain ⟨hspine, hlabels, htop⟩ := suffixFrames bytes bs
  have heq : addSuffix [u] (b :: bs) out = { u with last := some ⟨b, out⟩ } ::
    UnfinishedNodes.suffixFrames bs := rfl
  rw [heq]
  refine ⟨?_, ?_, ?_⟩
  · rw [← under_singleton]
    exact .cons (t := ⟨b, out⟩) hbranches rfl hlt hspine nofun
  · rw [labels_cons_some (t := ⟨b, out⟩) rfl, hlabels]
  · rw [hspine.topTrans_below]
    exact htop

/-- **Compiling the frames above the common bytes and adding the suffix adds one word.** -/
theorem extend {i : ℕ} {b : UInt8} (h : Spine w.bytes us l) (bs : Bytes) (out : UInt64)
    (hw : w.Valid) (hi : i ≤ us.labels.length) (hlabel : ∀ c, us.labels[i]? = some c → c < b)
    (htop : us.topTrans = some []) :
      (w.compileFrom us i).1.Valid ∧ w.bytes <+: (w.compileFrom us i).1.bytes ∧
      Spine (w.compileFrom us i).1.bytes ((w.compileFrom us i).2.addSuffix (b :: bs) out)
        (l ++ [(us.labels.take i ++ b :: bs, us.pathOut i + out)]) ∧
      ((w.compileFrom us i).2.addSuffix (b :: bs) out).labels = us.labels.take i ++ b :: bs ∧
      ((w.compileFrom us i).2.addSuffix (b :: bs) out).topTrans = some [] := by
  induction i generalizing us l with
  | zero =>
    cases h with
    | @top u r branches last =>
      have htrans : u.node.trans = [] := Option.some.inj htop
      have heq : w.compileFrom [u] 0 = (w, [u]) := by
        show (w, [u.lastCompiled noneAddress]) = _
        unfold lastCompiled
        rw [last]
      obtain ⟨hspine, hlabels, htop'⟩ := addSuffix_top branches (by rw [htrans]; nofun)
      rw [heq]
      refine ⟨hw, prefix_refl _, ?_, hlabels, htop'⟩
      show Spine w.bytes _ (own u.node.final ++ r ++ [(b :: bs, 0 + out)])
      rw [zero_add]
      exact hspine
    | @cons u t us r l branches last lt rest ne_nil =>
      obtain ⟨hvalid, hext, node, hstored, hspells⟩ := compileFrames hw rest ne_nil
      set w' := (w.compileFrames us).1 with hw'
      set addr := (w.compileFrames us).2 with haddr
      obtain ⟨-, hfinal, htrans, hbranches⟩ :=
        lastCompiled_spells (branches_mono branches hext) last lt hstored hspells ne_nil
      -- the transition that is compiled has the byte of the last key
      have hb : t.inp < b := hlabel t.inp (by rw [labels_cons_some last]; rfl)
      have hlt : ∀ s ∈ (u.lastCompiled addr).node.trans, s.inp < b := by
        intro s hs
        rw [htrans] at hs
        rcases mem_append.mp hs with hs | hs
        · exact UInt8.lt_trans (lt s hs) hb
        · rw [mem_singleton.mp hs]
          exact hb
      obtain ⟨hspine, hlabels, htop'⟩ := addSuffix_top hbranches hlt
      refine ⟨hvalid, hext, ?_, hlabels, htop'⟩
      show Spine w'.bytes _ (own u.node.final ++ r ++ under t.inp t.out l ++ [(b :: bs, 0 + out)])
      rw [zero_add, append_assoc (own u.node.final), ← hfinal]
      exact hspine
  | succ i ih =>
    cases h with
    | top branches last =>
      rw [labels_cons_none last] at hi
      cases hi
    | @cons u t us r l branches last lt rest ne_nil =>
      have hcons : labels (u :: us) = t.inp :: us.labels := labels_cons_some last
      rw [hcons] at hi hlabel
      rw [rest.topTrans_below] at htop
      obtain ⟨hvalid, hext, hspine, hlabels, hnew⟩ :=
        ih rest (Nat.le_of_succ_le_succ hi) hlabel htop
      set w' := (w.compileFrom us i).1 with hw'
      set us' := (w.compileFrom us i).2 with hus'
      have heq : w.compileFrom (u :: us) (i + 1) = (w', u :: us') := rfl
      have hadd : addSuffix (u :: us') (b :: bs) out = u :: us'.addSuffix (b :: bs) out := by
        cases hfirst : us' with
        | nil =>
          rw [hfirst] at hspine
          cases hspine
        | cons v vs => rfl
      have hword : under t.inp t.out [(us.labels.take i ++ b :: bs, us.pathOut i + out)] =
          [((labels (u :: us)).take (i + 1) ++ b :: bs, pathOut (u :: us) (i + 1) + out)] := by
        have hout : pathOut (u :: us) (i + 1) = t.out + us.pathOut i := by
          show (u.last.map LastTransition.out).getD 0 + us.pathOut i = _
          rw [last]
          rfl
        rw [hcons, hout, add_assoc]
        rfl
      rw [heq]
      rw [hadd]
      refine ⟨hvalid, hext, ?_, ?_, ?_⟩
      · rw [append_assoc, ← hword, ← under_append]
        exact .cons (branches_mono branches hext) last lt hspine (by simp)
      · rw [labels_cons_some last, hlabels, hcons]
        rfl
      · rw [hspine.topTrans_below]
        exact hnew

end Spine

end Infinity.Fst
