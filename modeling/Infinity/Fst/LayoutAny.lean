import Infinity.Fst.Layout

/-! # Nodes with any number of transitions are read back

The third layout has the final output, the outputs, the distances and the inputs of the transitions
one behind the other, the last transition first, then an index if there are many, the sizes, the
number of transitions if the state byte does not have it, and the state byte. -/

namespace Infinity.Fst

open Foundations List BuilderNode Node

section Backwards

variable {α : Type*} {l : List α} {w i : ℕ} {t : α} {f : α → Bytes}

theorem length_flatMap_const (hf : ∀ t, (f t).length = w) :
    (l.flatMap f).length = l.length * w := by
  simp [length_flatMap, hf]

/-- An element of an array that is written backwards: what lies behind it has its index. -/
theorem suffix_of_array {rest whole : Bytes} (hf : ∀ t, (f t).length = w)
    (hsuffix : l.reverse.flatMap f ++ rest <:+ whole) (h : l[i]? = some t) :
    ∃ behind : Bytes, f t ++ (behind ++ rest) <:+ whole ∧ behind.length = i * w := by
  obtain ⟨hi, rfl⟩ := List.getElem?_eq_some_iff.mp h
  refine ⟨(l.take i).reverse.flatMap f, List.IsSuffix.trans ⟨(l.drop (i + 1)).reverse.flatMap f, ?_⟩
    hsuffix, ?_⟩
  · conv_rhs => rw [← take_append_drop i l, drop_eq_getElem_cons hi]
    rw [reverse_append, reverse_cons, flatMap_append, flatMap_append]
    simp
  · rw [length_flatMap_const hf, length_reverse, length_take_of_le hi.le]

end Backwards

variable {data x z : Bytes} {node : BuilderNode} {addr : ℕ} {b : UInt8} {t : Transition}

theorem stateByte_masks (h : node.trans.length ≤ 256) : node.stateByte &&& 0xC0 ≠ 0xC0 ∧
    node.stateByte &&& 0xC0 ≠ 0x80 ∧ (node.stateByte &&& 0x40 = 0 ↔ node.isFinal = false) ∧
    (node.stateByte &&& 0x3F).toNat = if node.trans.length ≤ 63 then node.trans.length else 0 := by
  have hall : ∀ isFinal : Bool, ∀ n ≤ 256, let state : UInt8 := (if isFinal then 0x40 else 0) |||
        (if UInt8.ofNat n ≤ 63 then UInt8.ofNat n else 0)
      state &&& 0xC0 ≠ 0xC0 ∧ state &&& 0xC0 ≠ 0x80 ∧ (state &&& 0x40 = 0 ↔ isFinal = false) ∧
        (state &&& 0x3F).toNat = if n ≤ 63 then n else 0 := by
    decide +kernel
  exact hall node.isFinal node.trans.length h

theorem ntransLen_stateByte : ntransLen node.stateByte = node.ntransByte.length := by
  unfold ntransLen ntransByte
  split <;> rfl

/-! ## Sizes -/

theorem tsize_le : node.tsize addr ≤ 8 := foldl_max_le _ (Nat.zero_le 8) fun _ _ => packSize_le

theorem packDeltaSize_le_tsize (ht : t ∈ node.trans) :
    packDeltaSize addr t.addr ≤ node.tsize addr :=
  le_foldl_max_of_mem (fun t : Transition => packDeltaSize addr t.addr) 0 ht

theorem osize_le : node.osize ≤ 8 := foldl_max_le _ (packSize_le) fun _ _ => packSize_le

theorem writtenOsize_le : node.writtenOsize ≤ 8 := by
  unfold writtenOsize
  split
  · exact osize_le
  · exact Nat.zero_le 8

/-- The outputs fit the written size, which is zero only if they all are. -/
theorem out_lt_writtenOsize (ht : t ∈ node.trans) : t.out.toNat < 256 ^ node.writtenOsize := by
  unfold writtenOsize
  split
  · exact lt_of_packSize_le t.out.toNat_lt
      (le_foldl_max_of_mem (fun t : Transition => packSize t.out.toNat) _ ht)
  next hany =>
    have hzero : t.out = 0 := by
      by_contra hne
      apply hany
      unfold anyOuts
      rw [Bool.or_eq_true, any_eq_true]
      exact .inr ⟨t, ht, decide_eq_true hne⟩
    rw [hzero]
    decide

theorem finalOutput_lt_writtenOsize : node.finalOutput.toNat < 256 ^ node.writtenOsize := by
  unfold writtenOsize
  split
  · exact lt_of_packSize_le node.finalOutput.toNat_lt
      (le_foldl_max (fun t : Transition => packSize t.out.toNat) _)
  next hany =>
    have hzero : node.finalOutput = 0 := by
      by_contra hne
      apply hany
      unfold anyOuts
      rw [Bool.or_eq_true]
      exact .inl (decide_eq_true hne)
    rw [hzero]
    decide

/-! ## The parts of the layout -/

namespace BuilderNode

def finalBytes (node : BuilderNode) : Bytes :=
  if node.isFinal then packUintIn node.finalOutput.toNat node.writtenOsize else []

def outBytes (node : BuilderNode) : Bytes :=
  node.trans.reverse.flatMap fun t => packUintIn t.out.toNat node.writtenOsize

def deltaBytes (node : BuilderNode) (addr : ℕ) : Bytes :=
  node.trans.reverse.flatMap fun t => packDeltaIn addr t.addr (node.tsize addr)

def inpBytes (node : BuilderNode) : Bytes := node.trans.reverse.map Transition.inp

def indexBytes (node : BuilderNode) : Bytes :=
  if transIndexThreshold < node.trans.length then node.transIndex else []

def sizesByte (node : BuilderNode) (addr : ℕ) : UInt8 :=
  packSizes (node.tsize addr) node.writtenOsize

def footer (node : BuilderNode) (addr : ℕ) : Bytes :=
  node.sizesByte addr :: (node.ntransByte ++ [node.stateByte])

variable (node : BuilderNode) (addr : ℕ)

theorem compileAnyTrans_eq : node.compileAnyTrans addr =
    node.finalBytes ++
      (node.outBytes ++ (node.deltaBytes addr ++ (node.inpBytes ++ (node.indexBytes ++
      node.footer addr)))) := by
  have houts : (if node.anyOuts then
      (if node.isFinal then packUintIn node.finalOutput.toNat node.osize else []) ++
        node.trans.reverse.flatMap fun t => packUintIn t.out.toNat node.osize
      else []) = node.finalBytes ++ node.outBytes := by
    unfold finalBytes outBytes writtenOsize
    split
    · rfl
    · -- without outputs nothing is written
      have hnil : ∀ n, packUintIn n 0 = [] := fun _ => rfl
      simp [hnil]
  unfold compileAnyTrans
  rw [houts]
  simp only [append_assoc, cons_append, nil_append]
  rfl

theorem transitionPackSize_sizesByte : transitionPackSize (node.sizesByte addr) = node.tsize addr :=
  transitionPackSize_packSizes tsize_le writtenOsize_le

theorem outputPackSize_sizesByte : outputPackSize (node.sizesByte addr) = node.writtenOsize :=
  outputPackSize_packSizes writtenOsize_le

theorem length_finalBytes :
    node.finalBytes.length = if node.isFinal then node.writtenOsize else 0 := by
  unfold finalBytes
  split
  · exact length_packUintIn
  · rfl

theorem length_outBytes : node.outBytes.length = node.trans.length * node.writtenOsize := by
  unfold outBytes
  rw [length_flatMap_const (fun _ => length_packUintIn), length_reverse]

theorem length_deltaBytes :
    (node.deltaBytes addr).length = node.trans.length * node.tsize addr := by
  unfold deltaBytes
  rw [length_flatMap_const (fun _ => length_packDeltaIn _ _ _), length_reverse]

theorem length_inpBytes : node.inpBytes.length = node.trans.length := by
  unfold inpBytes
  rw [length_map, length_reverse]

theorem length_indexBytes : node.indexBytes.length = transIndexSize node.trans.length := by
  unfold indexBytes transIndexSize
  split
  · unfold transIndex
    rw [length_map, length_range]
  · rfl

theorem length_footer : (node.footer addr).length = ntransLen node.stateByte + 2 := by
  rw [ntransLen_stateByte, footer, length_cons, length_append]
  rfl

theorem length_compileAnyTrans : (node.compileAnyTrans addr).length =
    node.finalBytes.length + node.trans.length * node.writtenOsize + node.trans.length *
      node.tsize addr +
      node.trans.length + transIndexSize node.trans.length + ntransLen node.stateByte + 2 := by
  simp only [compileAnyTrans_eq, length_append, length_outBytes, length_deltaBytes, length_inpBytes,
    length_indexBytes, length_footer, add_assoc]

/-! What the layout ends with, from each of its parts on. -/

theorem outs_suffix : node.outBytes ++ (node.deltaBytes addr ++ (node.inpBytes ++
    (node.indexBytes ++ node.footer addr))) <:+ node.compileAnyTrans addr :=
  ⟨_, (node.compileAnyTrans_eq addr).symm⟩

theorem deltas_suffix : node.deltaBytes addr ++ (node.inpBytes ++
    (node.indexBytes ++ node.footer addr)) <:+ node.compileAnyTrans addr :=
  (suffix_append _ _).trans (node.outs_suffix addr)

theorem inputs_suffix :
    node.inpBytes ++ (node.indexBytes ++ node.footer addr) <:+ node.compileAnyTrans addr :=
  (suffix_append _ _).trans (node.deltas_suffix addr)

theorem index_suffix : node.indexBytes ++ node.footer addr <:+ node.compileAnyTrans addr :=
  (suffix_append _ _).trans (node.inputs_suffix addr)

theorem footer_suffix : node.footer addr <:+ node.compileAnyTrans addr :=
  (suffix_append _ _).trans (node.index_suffix addr)

end BuilderNode

/-! ## The index -/

section Index

variable {l : List Transition} {b : UInt8} {k i : ℕ} {init : UInt8} {t : Transition}

/-- The step of the loop that fills one byte of the index. -/
def indexStep (b : UInt8) (acc : UInt8) (p : Transition × ℕ) : UInt8 :=
  if p.1.inp.toNat = b.toNat then UInt8.ofNat p.2 else acc

theorem foldl_index_absent (h : ∀ t ∈ l, t.inp ≠ b) :
    (l.zipIdx k).foldl (indexStep b) init = init := by
  induction l generalizing k init with
  | nil => rfl
  | cons s l ih =>
    rw [forall_mem_cons] at h
    rw [zipIdx_cons, foldl_cons, ih h.2]
    exact if_neg fun heq => h.1 (UInt8.toNat_inj.mp heq)

theorem foldl_index_found (hnodup : (l.map Transition.inp).Nodup) (ht : l[i]? = some t) :
    (l.zipIdx k).foldl (indexStep t.inp) init = UInt8.ofNat (k + i) := by
  induction l generalizing k i init with
  | nil => cases ht
  | cons s l ih =>
    rw [map_cons, nodup_cons] at hnodup
    rw [zipIdx_cons, foldl_cons]
    cases i with
    | zero =>
      obtain rfl : s = t := Option.some.inj ht
      have habsent : ∀ r ∈ l, r.inp ≠ s.inp := fun r hr heq =>
        hnodup.1 (mem_map.mpr ⟨r, hr, heq⟩)
      rw [foldl_index_absent habsent]
      exact if_pos rfl
    | succ i =>
      rw [ih hnodup.2 ht, add_right_comm, add_assoc]

theorem transIndex_getElem? :
    node.transIndex[b.toNat]? = some (node.trans.zipIdx.foldl (indexStep b) 255) := by
  unfold transIndex
  rw [getElem?_map, getElem?_range b.toNat_lt]
  rfl

end Index

/-- The loop over the inputs, which are written backwards. -/
theorem findInputFrom_eq {l : List Transition} {i : ℕ}
    (hdata : data = x ++ (l.reverse.map Transition.inp ++ z)) (hi : i = x.length) :
    ((∀ t ∈ l, t.inp ≠ b) → findInputFrom data b i l.length = some none) ∧
      ∀ j t, l[j]? = some t → t.inp = b → (l.map Transition.inp).Nodup →
        findInputFrom data b i l.length = some (some j) := by
  induction l using reverseRecOn generalizing x i with
  | nil => exact ⟨fun _ => rfl, fun j t hj => by cases hj⟩
  | append_singleton l s ih =>
    rw [reverse_append, reverse_singleton, singleton_append, map_cons, cons_append] at hdata
    have hread : data[i]? = some s.inp := getElem?_of_append hdata hi
    obtain ⟨habsent, hfound⟩ := ih (x := x ++ [s.inp]) (i := i + 1)
      (by rw [hdata, append_assoc]; rfl) (by rw [length_append, hi]; rfl)
    have hstep : findInputFrom data b i (l ++ [s]).length =
        if s.inp = b then some (some l.length) else findInputFrom data b (i + 1) l.length := by
      rw [length_append, length_singleton]
      show (data[i]? >>= fun c => _) = _
      rw [hread]
      rfl
    constructor
    · intro hall
      rw [hstep, if_neg (hall s (mem_append_right _ mem_cons_self))]
      exact habsent fun t ht => hall t (mem_append_left _ ht)
    · intro j t hj ht hnodup
      rw [map_append, nodup_append] at hnodup
      obtain ⟨hl, -, hdisjoint⟩ := hnodup
      rw [hstep]
      by_cases hlt : j < l.length
      · rw [getElem?_append_left hlt] at hj
        have hne : s.inp ≠ b := by
          rw [← ht]
          exact (hdisjoint _ (mem_map_of_mem (mem_of_getElem? hj)) _ (mem_singleton.mpr rfl)).symm
        rw [if_neg hne]
        exact hfound j t hj ht hl
      · rw [getElem?_append_right (not_lt.mp hlt)] at hj
        obtain ⟨hzero, heq⟩ := List.getElem?_eq_some_iff.mp hj
        have hj' : j = l.length := by
          rw [length_singleton] at hzero
          omega
        have hst : s = t := by simpa [hj'] using heq
        rw [hst, if_pos ht, hj']

/-! ## The node in the data -/

/-- A node with the third layout lies in the data, behind `x` and before `z`. -/
structure AnyNode (data x z : Bytes) (node : BuilderNode) (addr : ℕ) : Prop where
  data_eq : data = x ++ (node.compileAnyTrans x.length ++ z)
  addr_eq : addr + 1 = x.length + (node.compileAnyTrans x.length).length
  pos : 0 < x.length
  size : data.length < 2 ^ 64
  length_le : node.trans.length ≤ 256
  nodup : (node.trans.map Transition.inp).Nodup
  backward : ∀ t ∈ node.trans, Backward x.length t.addr

namespace AnyNode

variable (h : AnyNode data x z node addr)

include h

theorem split {post : Bytes} (hpost : post <:+ node.compileAnyTrans x.length) :
    ∃ pre : Bytes, data = pre ++ (post ++ z) ∧ pre.length + post.length = addr + 1 :=
  split_of_suffix h.data_eq h.addr_eq hpost

theorem addr_lt : addr < data.length := by
  have haddr := h.addr_eq
  rw [h.data_eq, length_append, length_append]
  omega

theorem stateByte_at : data[addr]? = some node.stateByte := by
  obtain ⟨pre, hdata, hlength⟩ := h.split
    ((suffix_append (node.sizesByte x.length :: node.ntransByte) _).trans
    (node.footer_suffix x.length))
  exact getElem?_of_append hdata (Nat.succ.inj hlength).symm

theorem sizesByte_at :
    byteAt data (addr - ntransLen node.stateByte - 1) = some (node.sizesByte x.length) := by
  obtain ⟨pre, hdata, hlength⟩ := h.split (node.footer_suffix x.length)
  rw [node.length_footer] at hlength
  exact byteAt_eq hdata (by omega) h.size

theorem anyNtrans_eq : anyNtrans data node.stateByte addr = some node.trans.length := by
  obtain ⟨-, -, -, hmask⟩ := stateByte_masks h.length_le
  unfold anyNtrans
  split
  next hne =>
    have hle : node.trans.length ≤ 63 := by
      by_contra hgt
      rw [if_neg hgt] at hmask
      exact hne (UInt8.toNat_inj.mp hmask)
    rw [hmask, if_pos hle]
  next heq =>
    rw [not_not] at heq
    obtain ⟨c, hbyte, hc⟩ : ∃ c, node.ntransByte = [c] ∧ (if c = 1 then 256 else c.toNat) =
        node.trans.length := by
      refine ⟨_, if_pos heq, ?_⟩
      by_cases hfull : node.trans.length = 256
      · rw [if_pos hfull, if_pos rfl, hfull]
      · have hnat : (UInt8.ofNat node.trans.length).toNat = node.trans.length :=
          UInt8.toNat_ofNat_of_lt (lt_of_le_of_ne h.length_le hfull)
        -- one transition is written in the state byte
        have hone : UInt8.ofNat node.trans.length ≠ 1 := by
          intro hone
          rw [hone] at hnat
          rw [← hnat, heq] at hmask
          cases hmask
        rw [if_neg hfull, if_neg hone, hnat]
    obtain ⟨pre, hdata, hlength⟩ := h.split ((suffix_cons _ _).trans (node.footer_suffix x.length))
    rw [hbyte] at hdata hlength
    change _ + 2 = _ at hlength
    rw [byteAt_eq hdata (by omega) h.size, ← hc]
    rfl

theorem anyFinalOutput_eq :
      anyFinalOutput data node.stateByte addr (node.sizesByte x.length) node.trans.length =
      some (if node.isFinal then node.finalOutput else 0) := by
  obtain ⟨-, -, hfinal, -⟩ := stateByte_masks h.length_le
  unfold anyFinalOutput
  rw [node.outputPackSize_sizesByte]
  cases hisFinal : node.isFinal with
  | false =>
    rw [if_pos (.inr (hfinal.mpr hisFinal))]
    rfl
  | true =>
    by_cases hzero : node.writtenOsize = 0
    · have hlt : node.finalOutput.toNat < 256 ^ node.writtenOsize := finalOutput_lt_writtenOsize
      rw [hzero, pow_zero, Nat.lt_one_iff] at hlt
      rw [if_pos (.inl hzero), if_pos rfl, UInt64.toNat_inj.mp (hlt.trans UInt64.toNat_zero.symm)]
    · have hnot : ¬ (node.writtenOsize = 0 ∨ node.stateByte &&& 0x40 = 0) := by
        rw [hfinal, hisFinal]
        exact fun hor => hor.elim hzero nofun
      have hbytes : node.finalBytes = packUintIn node.finalOutput.toNat node.writtenOsize :=
        if_pos hisFinal
      obtain ⟨pre, hdata, hlength⟩ := h.split (suffix_rfl (l := node.compileAnyTrans x.length))
      rw [node.compileAnyTrans_eq, hbytes, append_assoc] at hdata
      have hunpack := unpackUint_eq hdata
        (i := (addr : ℤ) - ntransLen node.stateByte - 1 - totalTransSize (node.sizesByte x.length)
          node.trans.length - node.trans.length * node.writtenOsize - node.writtenOsize) (by
          rw [node.length_compileAnyTrans, hbytes, length_packUintIn] at hlength
          rw [totalTransSize, node.transitionPackSize_sizesByte]
          omega) writtenOsize_le finalOutput_lt_writtenOsize h.size
      rw [if_neg hnot, hunpack]
      show some (UInt64.ofNat node.finalOutput.toNat) = some node.finalOutput
      rw [UInt64.ofNat_toNat]

theorem anyEndAddr_eq : anyEndAddr node.stateByte addr (node.sizesByte x.length) node.trans.length =
    x.length := by
  obtain ⟨-, -, hfinal, -⟩ := stateByte_masks h.length_le
  have hlength :
      node.finalBytes.length = if node.stateByte &&& 0x40 = 0 then 0 else node.writtenOsize := by
    rw [node.length_finalBytes]
    cases hisFinal : node.isFinal with
    | false => rw [if_pos (hfinal.mpr hisFinal), if_neg Bool.false_ne_true]
    | true =>
      have hne : ¬ node.stateByte &&& 0x40 = 0 := by
        rw [hfinal, hisFinal]
        exact nofun
      rw [if_pos rfl, if_neg hne]
  unfold anyEndAddr
  rw [node.outputPackSize_sizesByte]
  have haddr := h.addr_eq
  rw [node.length_compileAnyTrans, hlength] at haddr
  have hlt := h.addr_lt
  have hsize := h.size
  rw [totalTransSize, node.transitionPackSize_sizesByte]
  exact wrap_eq (by omega) (by omega)

/-- The node that the reader makes. -/
theorem make_eq :
    make data addr = some ⟨node.stateByte, node.isFinal, UInt8.ofNat node.trans.length,
    addr, x.length, node.sizesByte x.length, if node.isFinal then node.finalOutput else 0⟩ := by
  obtain ⟨hnext, hone, hfinal, -⟩ := stateByte_masks h.length_le
  have haddr := h.addr_eq
  have hlength := node.length_compileAnyTrans x.length
  unfold make
  rw [if_neg (by unfold emptyAddress; omega), h.stateByte_at]
  show (if node.stateByte &&& 0xC0 = 0xC0 then _ else if node.stateByte &&& 0xC0 =
    0x80 then _ else _) = _
  rw [if_neg hnext, if_neg hone, h.anyNtrans_eq, h.sizesByte_at]
  show (anyFinalOutput data node.stateByte addr (node.sizesByte x.length) node.trans.length >>=
    fun finalOutput => _) = _
  rw [h.anyFinalOutput_eq]
  show some (Node.mk node.stateByte (decide (node.stateByte &&& 0x40 ≠ 0)) _ addr _ _ _) = _
  rw [h.anyEndAddr_eq]
  have hdecide : decide (node.stateByte &&& 0x40 ≠ 0) = node.isFinal := by
    cases hisFinal : node.isFinal with
    | false => exact decide_eq_false (not_not_intro (hfinal.mpr hisFinal))
    | true => exact decide_eq_true fun hzero => by rw [hfinal, hisFinal] at hzero; cases hzero
  rw [hdecide]

/-! ## The transitions -/

section Transitions

variable {n : Node} (hstate : n.state = node.stateByte) (hsizes : n.sizes = node.sizesByte x.length)
  (hntrans : n.ntrans.toNat = node.trans.length) (hstart : n.start = addr)
  (hend : n.endAddr = x.length) {i : ℕ} {t : Transition} (ht : node.trans[i]? = some t)

include ht hstate hntrans hstart in
theorem anyInputAt_eq : n.anyInputAt data i = some t.inp := by
  have hinputs := node.inputs_suffix x.length
  rw [inpBytes, map_eq_flatMap] at hinputs
  obtain ⟨behind, hsuffix, hbehind⟩ := suffix_of_array (w := 1) (fun _ => rfl) hinputs ht
  obtain ⟨pre, hdata, hlength⟩ := h.split hsuffix
  simp only [length_append, length_singleton, hbehind, node.length_indexBytes, node.length_footer]
    at hlength
  unfold anyInputAt
  rw [hstate, hntrans, hstart]
  exact byteAt_eq hdata (by omega) h.size

include ht hstate hsizes hntrans hstart in
theorem anyOutputAt_eq : n.anyOutputAt data i = some t.out := by
  have hlt := out_lt_writtenOsize (mem_of_getElem? ht)
  unfold anyOutputAt
  rw [hstate, hntrans, hstart, hsizes, node.outputPackSize_sizesByte]
  by_cases hzero : node.writtenOsize = 0
  · rw [hzero, pow_zero, Nat.lt_one_iff] at hlt
    rw [if_pos hzero, UInt64.toNat_inj.mp (hlt.trans UInt64.toNat_zero.symm)]
  · obtain ⟨behind, hsuffix, hbehind⟩ :=
      suffix_of_array (fun _ => length_packUintIn) (node.outs_suffix x.length) ht
    obtain ⟨pre, hdata, hlength⟩ := h.split hsuffix
    simp only [length_append, length_packUintIn, hbehind, node.length_deltaBytes,
      node.length_inpBytes, node.length_indexBytes, node.length_footer] at hlength
    rw [append_assoc] at hdata
    rw [if_neg hzero, unpackUint_eq hdata _ writtenOsize_le hlt h.size]
    · show some (UInt64.ofNat t.out.toNat) = some t.out
      rw [UInt64.ofNat_toNat]
    · rw [totalTransSize, node.transitionPackSize_sizesByte]
      omega

include ht hstate hsizes hntrans hstart hend in
theorem anyTransAddr_eq : n.anyTransAddr data i = some t.addr := by
  have hmem := mem_of_getElem? ht
  obtain ⟨behind, hsuffix, hbehind⟩ :=
    suffix_of_array (fun _ => length_packDeltaIn _ _ _) (node.deltas_suffix x.length) ht
  obtain ⟨pre, hdata, hlength⟩ := h.split hsuffix
  simp only [length_append, length_packDeltaIn, hbehind, node.length_inpBytes,
    node.length_indexBytes, node.length_footer] at hlength
  rw [append_assoc] at hdata
  have hlt := h.addr_lt
  have hsize := h.size
  have haddr := h.addr_eq
  unfold anyTransAddr
  rw [hstate, hntrans, hstart, hsizes, hend, node.transitionPackSize_sizesByte]
  exact unpackDelta_eq hdata (by omega) (h.backward t hmem) (by omega) (packDeltaSize_le_tsize hmem)
    tsize_le hsize

include ht hstate hsizes hntrans hstart hend in
theorem transAt_eq : n.transAt data i = some t := by
  obtain ⟨hnext, hone, -, -⟩ := stateByte_masks h.length_le
  unfold transAt
  rw [hstate, if_neg hnext, if_neg hone, h.anyInputAt_eq hstate hntrans hstart ht,
    h.anyOutputAt_eq hstate hsizes hntrans hstart ht,
    h.anyTransAddr_eq hstate hsizes hntrans hstart hend ht]
  rfl

include hstate in
theorem findInput_eq : n.findInput data b = n.anyFindInput data b := by
  obtain ⟨hnext, hone, -, -⟩ := stateByte_masks h.length_le
  unfold findInput
  rw [hstate, if_neg fun hor => hor.elim hnext hone]

theorem indexByte_at (hindex : transIndexThreshold < node.trans.length) :
    byteAt data (addr - ntransLen node.stateByte - 1 - 256 + b.toNat) =
      some (node.trans.zipIdx.foldl (indexStep b) 255) := by
  obtain ⟨hlt, hvalue⟩ := List.getElem?_eq_some_iff.mp (transIndex_getElem?)
  have hbytes : node.indexBytes = node.transIndex := if_pos hindex
  have hlength256 := node.length_indexBytes
  rw [hbytes, show transIndexSize node.trans.length = 256 from if_pos hindex] at hlength256
  have hsuffix := node.index_suffix x.length
  rw [hbytes, ← take_append_drop b.toNat node.transIndex, append_assoc,
    drop_eq_getElem_cons hlt, hvalue] at hsuffix
  obtain ⟨pre, hdata, hlength⟩ := h.split ((suffix_append _ _).trans hsuffix)
  simp only [length_append, length_cons, length_drop, hlength256, node.length_footer] at hlength
  exact byteAt_eq hdata (by omega) h.size

include hstate hntrans hstart in
theorem findInput_cases (b : UInt8) :
      (transIndexThreshold < node.trans.length ∧ n.findInput data b =
      some (if n.ntrans < node.trans.zipIdx.foldl (indexStep b) 255 then none
        else some (node.trans.zipIdx.foldl (indexStep b) 255).toNat)) ∨
    (¬ transIndexThreshold < node.trans.length ∧ ∃ pre after : Bytes,
      data = pre ++ (node.trans.reverse.map Transition.inp ++ after) ∧
      n.findInput data b = findInputFrom data b pre.length node.trans.length) := by
  rw [h.findInput_eq hstate]
  unfold anyFindInput
  rw [hntrans, hstart, hstate]
  by_cases hindex : transIndexThreshold < node.trans.length
  · left
    rw [if_pos hindex, h.indexByte_at hindex]
    exact ⟨hindex, rfl⟩
  · right
    -- without an index the loop begins at the last input
    obtain ⟨pre, hdata, hlength⟩ := h.split (node.inputs_suffix x.length)
    have hsize : transIndexSize node.trans.length = 0 := if_neg hindex
    have hlt := h.addr_lt
    have hlarge := h.size
    simp only [length_append, node.length_inpBytes, node.length_indexBytes, hsize,
      node.length_footer] at hlength
    rw [append_assoc] at hdata
    refine ⟨hindex, pre, _, hdata, ?_⟩
    rw [if_neg hindex, wrap_eq (n := pre.length) (by omega) (by omega)]

include hstate hntrans hstart ht in
theorem findInput_found : n.findInput data t.inp = some (some i) := by
  obtain ⟨hlt, -⟩ := List.getElem?_eq_some_iff.mp ht
  rcases h.findInput_cases hstate hntrans hstart t.inp with ⟨-, heq⟩ | ⟨-, pre, after, hdata, heq⟩
  · have hle := n.ntrans.toNat_lt
    have hbyte : i < 256 := by omega
    have hnat : (UInt8.ofNat (0 + i)).toNat = i := by
      rw [zero_add]
      exact UInt8.toNat_ofNat_of_lt hbyte
    rw [heq, foldl_index_found h.nodup ht, hnat, if_neg]
    rw [UInt8.lt_iff_toNat_lt, hnat]
    omega
  · rw [heq]
    exact (findInputFrom_eq hdata rfl).2 i t ht rfl h.nodup

include hstate hntrans hstart in
theorem findInput_absent (hle : node.trans.length ≤ 254) (hb : ∀ t ∈ node.trans, t.inp ≠ b) :
    n.findInput data b = some none := by
  rcases h.findInput_cases hstate hntrans hstart b with ⟨-, heq⟩ | ⟨-, pre, after, hdata, heq⟩
  · rw [heq, foldl_index_absent hb, if_pos]
    rw [UInt8.lt_iff_toNat_lt, hntrans]
    exact hle.trans_lt (by decide)
  · rw [heq]
    exact (findInputFrom_eq hdata rfl).1 hb

include hstate hntrans hstart in
/-- With 255 transitions the index seems to have one for every byte. -/
theorem findInput_stray (hlength : node.trans.length = 255) (hb : ∀ t ∈ node.trans, t.inp ≠ b) :
    n.findInput data b = some (some 255) := by
  rcases h.findInput_cases hstate hntrans hstart b with ⟨-, heq⟩ | ⟨hindex, -⟩
  · rw [heq, foldl_index_absent hb, if_neg]
    · rfl
    · rw [UInt8.lt_iff_toNat_lt, hntrans, hlength]
      decide
  · rw [hlength] at hindex
    exact absurd (by decide) hindex

end Transitions

/-- A node of the third layout is read back. -/
theorem readBack : ∃ n, ReadBack data addr node n := by
  have hntrans : node.trans.length ≤ 255 → (UInt8.ofNat node.trans.length).toNat =
      node.trans.length :=
    fun hle => UInt8.toNat_ofNat_of_lt (Nat.lt_succ_of_le hle)
  refine ⟨_, h.make_eq, rfl, rfl, ?_, rfl, ?_, ?_, ?_, ?_, ?_⟩
  · cases node.isFinal <;> rfl
  · intro hle i t ht
    exact h.transAt_eq rfl rfl (hntrans hle) rfl rfl ht
  · intro hle i t ht
    exact h.findInput_found rfl (hntrans hle) rfl ht
  · intro hle b hb
    exact h.findInput_absent rfl (hntrans (hle.trans (by decide))) rfl hle hb
  · intro hlength b hb
    exact h.findInput_stray rfl (hntrans hlength.le) rfl hlength hb
  · intro hfull b
    -- the number of transitions is cut to zero
    rw [h.findInput_eq rfl]
    rw [hfull]
    rfl

end AnyNode

end Infinity.Fst
