import Infinity.Fst.Node

/-! # Nodes are read back

What the reader of the term dictionary makes of the bytes of a node. All three layouts are read
back, but with more than 254 transitions not completely: the byte for the number of transitions
holds 256 as 0, and the index has the value 255 for a byte without transition, which is no larger
than the number 255. -/

namespace Infinity.Fst

open Foundations List Node

/-! ## Places -/

variable {data x z : Bytes} {i : ℤ} {n w : ℕ} {addr o : ℕ} {t : Transition} {finalOutput : UInt64}
    {c b : UInt8}

theorem wrap_eq (h : i = n) (hn : n < 2 ^ 64) : wrap i = n := by
  unfold wrap
  omega

theorem getElem?_of_append (h : data = x ++ c :: z) (hn : n = x.length) : data[n]? = some c := by
  rw [h, hn, getElem?_append_right (le_rfl), Nat.sub_self]
  rfl

theorem byteAt_eq (h : data = x ++ c :: z) (hi : i = x.length) (hsize : data.length < 2 ^ 64) :
    byteAt data i = some c := by
  have hlength : x.length < 2 ^ 64 := by
    rw [h, length_append] at hsize
    omega
  unfold byteAt
  rw [wrap_eq hi hlength]
  exact getElem?_of_append h rfl

/-- A node is read from its end. -/
theorem split_of_suffix {node post : Bytes} (hdata : data = x ++ (node ++ z))
    (haddr : addr + 1 = x.length + node.length) (hpost : post <:+ node) :
    ∃ pre : Bytes, data = pre ++ (post ++ z) ∧ pre.length + post.length = addr + 1 := by
  obtain ⟨pre, rfl⟩ := hpost
  refine ⟨x ++ pre, by rw [hdata, append_assoc, append_assoc], ?_⟩
  rw [haddr, length_append, length_append, add_assoc]

@[simp] theorem length_packUintIn : (packUintIn n w).length = w := length_leBytes w n

theorem unpackUint_eq (h : data = x ++ (packUintIn n w ++ z)) (hi : i = x.length) (hw : w ≤ 8)
    (hn : n < 256 ^ w) (hsize : data.length < 2 ^ 64) : unpackUint data i w = some n := by
  have hlength : data.length = x.length + (w + z.length) := by
    rw [h, length_append, length_append, length_packUintIn]
  have hwrap : wrap i = x.length := wrap_eq hi (by omega)
  unfold unpackUint
  rw [if_pos ⟨hw, by omega⟩, hwrap, h, drop_left, take_left' (length_packUintIn)]
  exact congrArg some (leValue_leBytes_of_lt hn)

/-! ## Packed sizes -/

theorem packSize_pos : 1 ≤ packSize n := by
  unfold packSize
  split_ifs <;> decide

theorem packSize_le : packSize n ≤ 8 := by
  unfold packSize
  split_ifs <;> decide

theorem lt_packSize (h : n < 2 ^ 64) : n < 256 ^ packSize n := by
  unfold packSize
  split_ifs <;> omega

theorem lt_of_packSize_le (h : n < 2 ^ 64) (hw : packSize n ≤ w) : n < 256 ^ w :=
  (lt_packSize h).trans_le (Nat.pow_le_pow_right (by decide) hw)

theorem transitionPackSize_packSizes {t : ℕ} (ht : t ≤ 8) (ho : o ≤ 8) :
    transitionPackSize (packSizes t o) = t := by
  unfold transitionPackSize packSizes
  rw [UInt8.toNat_ofNat']
  omega

theorem outputPackSize_packSizes {t : ℕ} (ho : o ≤ 8) : outputPackSize (packSizes t o) = o := by
  unfold outputPackSize packSizes
  rw [UInt8.toNat_ofNat']
  omega

section Folds

variable {α : Type*} (f : α → ℕ) {l : List α}

theorem le_foldl_max (m : ℕ) : m ≤ l.foldl (fun m t => max m (f t)) m := by
  induction l generalizing m with
  | nil => exact le_refl m
  | cons t l ih => exact (le_max_left m (f t)).trans (ih _)

theorem le_foldl_max_of_mem (m : ℕ) {t : α} (ht : t ∈ l) :
    f t ≤ l.foldl (fun m t => max m (f t)) m := by
  induction l generalizing m with
  | nil => cases ht
  | cons s l ih =>
    rcases mem_cons.mp ht with rfl | ht
    · exact (le_max_right m (f t)).trans (le_foldl_max f _)
    · exact ih _ ht

theorem foldl_max_le {m k : ℕ} (hm : m ≤ k) (hl : ∀ t ∈ l, f t ≤ k) :
    l.foldl (fun m t => max m (f t)) m ≤ k := by
  induction l generalizing m with
  | nil => exact hm
  | cons t l ih =>
    rw [forall_mem_cons] at hl
    exact ih (Nat.max_le.mpr ⟨hm, hl.1⟩) hl.2

end Folds

theorem commonInput_commonIdx :
    commonIdx b 63 < 64 ∧ (commonIdx b 63 ≠ 0 → commonInput (commonIdx b 63) = some b) := by
  have h : ∀ n < 256, commonIdx (UInt8.ofNat n) 63 < 64 ∧ (commonIdx (UInt8.ofNat n) 63 ≠ 0 →
      commonInput (commonIdx (UInt8.ofNat n) 63) = some (UInt8.ofNat n)) := by
    decide +kernel
  have hb := h b.toNat b.toNat_lt
  rwa [UInt8.ofNat_toNat] at hb

theorem oneState_masks {idx : ℕ} (h : idx < 64) :
    (0xC0 ||| UInt8.ofNat idx) &&& 0xC0 = 0xC0 ∧ ((0xC0 ||| UInt8.ofNat idx) &&& 0x3F).toNat = idx ∧
    (0x80 ||| UInt8.ofNat idx) &&& 0xC0 = 0x80 ∧ ((0x80 ||| UInt8.ofNat idx) &&& 0x3F).toNat =
    idx := by
  revert idx
  decide +kernel

/-! ## Nodes in the data -/

/-- What the reader finds under an address, compared with the node that was written there. -/
structure ReadBack (data : Bytes) (addr : ℕ) (node : BuilderNode) (n : Node) : Prop where
  make : make data addr = some n
  start : n.start = addr
  isFinal : n.isFinal = node.isFinal
  output : n.output = if node.isFinal then node.finalOutput else 0
  ntrans : n.ntrans = UInt8.ofNat node.trans.length
  transAt : node.trans.length ≤ 255 → ∀ i t, node.trans[i]? = some t → n.transAt data i = some t
  found : node.trans.length ≤ 255 → ∀ i t, node.trans[i]? = some t →
    n.findInput data t.inp = some (some i)
  absent : node.trans.length ≤ 254 → ∀ b, (∀ t ∈ node.trans, t.inp ≠ b) →
    n.findInput data b = some none
  stray : node.trans.length = 255 → ∀ b, (∀ t ∈ node.trans, t.inp ≠ b) →
    n.findInput data b = some (some 255)
  full : node.trans.length = 256 → ∀ b, n.findInput data b = some none

/-- What the two layouts with one transition have in common. -/
theorem ReadBack.one {n : Node} (hmake : Node.make data addr = some n)
    (hstart : n.start = addr) (hfinal : n.isFinal = false) (hntrans : n.ntrans = 1)
    (htrans : n.transAt data 0 = some t)
    (hfind : ∀ b, n.findInput data b = some (if t.inp = b then some 0 else none)) :
    ReadBack data addr ⟨false, finalOutput, [t]⟩ n := by
  have hget : ∀ i s, [t][i]? = some s → i = 0 ∧ s = t := by
    intro i s h
    cases i with
    | zero => exact ⟨rfl, (Option.some.inj h).symm⟩
    | succ i => cases h
  constructor
  · exact hmake
  · exact hstart
  · exact hfinal
  · unfold Node.output
    rw [hfinal]
    rfl
  · exact hntrans
  · intro _ i s h
    obtain ⟨rfl, rfl⟩ := hget i s h
    exact htrans
  · intro _ i s h
    obtain ⟨rfl, rfl⟩ := hget i s h
    rw [hfind, if_pos rfl]
  · intro _ b h
    rw [hfind, if_neg (h t mem_cons_self)]
  · intro h
    cases h
  · intro h
    cases h

theorem length_inputBytes : (inputBytes b).length = if commonIdx b 63 = 0 then 1 else 0 := by
  unfold inputBytes
  split <;> rfl

theorem inputLen_eq {state : UInt8} (h : (state &&& 0x3F).toNat = commonIdx b 63) :
    inputLen state = (inputBytes b).length := by
  have hzero : state &&& 0x3F = 0 ↔ commonIdx b 63 = 0 := by
    rw [← h]
    exact UInt8.toNat_inj.symm
  unfold inputLen
  rw [length_inputBytes]
  by_cases hidx : commonIdx b 63 = 0
  · rw [if_neg (not_not_intro (hzero.mpr hidx)), if_pos hidx]
  · rw [if_pos (fun heq => hidx (hzero.mp heq)), if_neg hidx]

/-- The input byte of a node with one transition. -/
theorem oneInput_eq {node : Node} (hdata : data = x ++ (inputBytes b ++ node.state :: z))
    (hstart : node.start = x.length + (inputBytes b).length)
    (hstate : (node.state &&& 0x3F).toNat = commonIdx b 63) (hsize : data.length < 2 ^ 64) :
    node.oneInput data = some b := by
  unfold oneInput
  rw [hstate]
  by_cases hidx : commonIdx b 63 = 0
  · have hbytes : inputBytes b = [b] := if_pos hidx
    rw [hidx]
    rw [hbytes] at hdata hstart
    apply byteAt_eq hdata _ hsize
    rw [hstart]
    simp
  · rw [(commonInput_commonIdx).2 hidx]

theorem readBack_oneTransNext (hdata : data = x ++ (compileOneTransNext t.inp ++ z))
    (haddr : addr + 1 = x.length + (compileOneTransNext t.inp).length) (hpos : 0 < x.length)
    (ht : t.addr + 1 = x.length) (hout : t.out = 0) (hsize : data.length < 2 ^ 64) :
    ∃ n, ReadBack data addr ⟨false, finalOutput, [t]⟩ n := by
  set state : UInt8 := 0xC0 ||| UInt8.ofNat (commonIdx t.inp 63) with hstate
  obtain ⟨hmask, hidx, -, -⟩ := oneState_masks (commonInput_commonIdx).1
  have hbytes : data = x ++ (inputBytes t.inp ++ state :: z) := by
    rw [hdata, compileOneTransNext, append_assoc]
    rfl
  have haddr' : addr = x.length + (inputBytes t.inp).length := by
    rw [compileOneTransNext, length_append, length_singleton] at haddr
    omega
  have hlength : addr < data.length := by
    rw [hbytes, length_append, length_append, length_cons]
    omega
  have hinput : inputLen state = (inputBytes t.inp).length := inputLen_eq hidx
  have hend : wrap (addr - inputLen state) = x.length := wrap_eq (by omega) (by omega)
  have hbyte : data[addr]? = some state := by
    apply getElem?_of_append (hbytes.trans (append_assoc ..).symm)
    rw [haddr', length_append]
  refine ⟨⟨state, false, 1, addr, x.length, 0, 0⟩, .one ?_ rfl rfl rfl ?_ ?_⟩
  · unfold Node.make
    rw [if_neg (by unfold emptyAddress; omega), hbyte]
    show (if state &&& 0xC0 = 0xC0 then _ else _) = _
    rw [if_pos hmask, hend]
  · unfold transAt
    rw [if_pos hmask, oneInput_eq hbytes haddr' hidx hsize]
    show some (Transition.mk t.inp 0 (wrap ((x.length : ℤ) - 1))) = some t
    rw [wrap_eq (n := t.addr) (by omega) (by omega), ← hout]
  · intro b
    unfold findInput
    rw [if_pos (.inl hmask), oneInput_eq hbytes haddr' hidx hsize]
    rfl

@[simp] theorem length_packDeltaIn (nodeAddr transAddr w : ℕ) :
    (packDeltaIn nodeAddr transAddr w).length = w := length_packUintIn

/-- A transition leads to the empty final state or to a node before. -/
def Backward (nodeAddr transAddr : ℕ) : Prop := transAddr = emptyAddress ∨ transAddr < nodeAddr

theorem unpackDelta_eq {nodeAddr transAddr : ℕ}
    (h : data = x ++ (packDeltaIn nodeAddr transAddr w ++ z)) (hi : i = x.length)
    (hback : Backward nodeAddr transAddr) (hnode : nodeAddr < 2 ^ 64)
    (hle : packDeltaSize nodeAddr transAddr ≤ w) (hw : w ≤ 8) (hsize : data.length < 2 ^ 64) :
    unpackDelta data i w nodeAddr = some transAddr := by
  have hdelta : deltaAddr nodeAddr transAddr ≤ nodeAddr := by
    unfold deltaAddr emptyAddress
    split <;> omega
  have hunpack := unpackUint_eq h hi hw (lt_of_packSize_le (by omega) hle) hsize
  unfold unpackDelta
  rw [hunpack]
  show (if deltaAddr nodeAddr transAddr = emptyAddress then some emptyAddress else
    some (wrap ((nodeAddr : ℤ) - (deltaAddr nodeAddr transAddr : ℕ)))) = some transAddr
  unfold deltaAddr Backward emptyAddress at *
  by_cases hzero : transAddr = 0
  · rw [if_pos hzero, if_pos rfl, hzero]
  · rw [if_neg hzero, if_neg (by omega)]
    exact congrArg some (wrap_eq (by omega) (by omega))

theorem osize_one_le (out : UInt64) : (if out = 0 then 0 else packSize out.toNat) ≤ 8 := by
  split
  · exact Nat.zero_le 8
  · exact packSize_le

theorem readBack_oneTrans (hdata : data = x ++ (compileOneTrans x.length t ++ z))
    (haddr : addr + 1 = x.length + (compileOneTrans x.length t).length)
    (hback : Backward x.length t.addr) (hsize : data.length < 2 ^ 64) :
    ∃ n, ReadBack data addr ⟨false, finalOutput, [t]⟩ n := by
  set state : UInt8 := 0x80 ||| UInt8.ofNat (commonIdx t.inp 63) with hstate
  obtain ⟨-, -, hmask, hidx⟩ := oneState_masks (commonInput_commonIdx).1
  set osize := if t.out = 0 then 0 else packSize t.out.toNat with hosize
  set tsize := packDeltaSize x.length t.addr with htsize
  have ho : osize ≤ 8 := osize_one_le t.out
  have ht : tsize ≤ 8 := packSize_le
  have hnode : compileOneTrans x.length t = packUintIn t.out.toNat osize ++
      (packDeltaIn x.length t.addr tsize ++
      (packSizes tsize osize :: (inputBytes t.inp ++ [state]))) := by
    rw [compileOneTrans]
    simp only [append_assoc, cons_append, nil_append]
    rfl
  rw [hnode] at hdata haddr
  have hinput : inputLen state = (inputBytes t.inp).length := inputLen_eq hidx
  have hlength : addr < data.length := by
    rw [hdata, length_append, length_append]
    omega
  have hdeltas := suffix_append (packUintIn t.out.toNat osize) (packDeltaIn x.length t.addr tsize ++
      (packSizes tsize osize :: (inputBytes t.inp ++ [state])))
  have hlast := ((suffix_append _ _).trans hdeltas)
  obtain ⟨x₁, hdata₁, haddr₁⟩ := split_of_suffix hdata haddr hdeltas
  obtain ⟨x₂, hdata₂, haddr₂⟩ := split_of_suffix hdata haddr hlast
  obtain ⟨x₃, hdata₃, haddr₃⟩ := split_of_suffix hdata haddr ((suffix_cons _ _).trans hlast)
  obtain ⟨x₄, hdata₄, haddr₄⟩ :=
    split_of_suffix hdata haddr ((suffix_append _ _).trans ((suffix_cons _ _).trans hlast))
  simp only [length_append, length_packUintIn, length_packDeltaIn, length_cons, length_nil]
    at haddr haddr₁ haddr₂ haddr₃ haddr₄
  rw [append_assoc] at hdata hdata₁ hdata₃
  have hbyte : data[addr]? = some state := getElem?_of_append hdata₄ (by omega)
  have hsizes : byteAt data (addr - inputLen state - 1) = some (packSizes tsize osize) :=
    byteAt_eq hdata₂ (by omega) hsize
  have htrans : transitionPackSize (packSizes tsize osize) = tsize :=
    transitionPackSize_packSizes ht ho
  have houtput : outputPackSize (packSizes tsize osize) = osize := outputPackSize_packSizes ho
  have hend : wrap (addr - inputLen state - 1 - tsize - osize) = x.length :=
    wrap_eq (by omega) (by omega)
  have hone : (mk state false 1 addr x.length (packSizes tsize osize) 0).oneInput data =
      some t.inp :=
    oneInput_eq hdata₃ (by dsimp only; omega) hidx hsize
  have hout : (mk state false 1 addr x.length (packSizes tsize osize) 0).oneOutput data =
      some t.out := by
    unfold oneOutput
    dsimp only
    rw [houtput, htrans]
    by_cases hzero : t.out = 0
    · rw [if_pos (by rw [hosize, if_pos hzero]), hzero]
    · have hpos : packSize t.out.toNat ≠ 0 := Nat.one_le_iff_ne_zero.mp (packSize_pos)
      have heq : osize = packSize t.out.toNat := if_neg hzero
      rw [if_neg (heq ▸ hpos), unpackUint_eq hdata (by omega) ho (heq ▸ lt_packSize t.out.toNat_lt)
        hsize]
      show some (UInt64.ofNat t.out.toNat) = some t.out
      rw [UInt64.ofNat_toNat]
  have hdelta : unpackDelta data (addr - inputLen state - 1 - tsize) tsize x.length = some t.addr :=
    unpackDelta_eq hdata₁ (by omega) hback (by omega) (le_rfl) ht hsize
  have hnot : ¬ state &&& 0xC0 = 0xC0 := by
    rw [hmask]
    decide
  refine ⟨⟨state, false, 1, addr, x.length, packSizes tsize osize, 0⟩, .one ?_ rfl rfl rfl ?_ ?_⟩
  · unfold Node.make
    rw [if_neg (by unfold emptyAddress; omega), hbyte]
    show (if state &&& 0xC0 = 0xC0 then _ else if state &&& 0xC0 = 0x80 then _ else _) = _
    rw [if_neg hnot, if_pos hmask, hsizes]
    show some (Node.mk state false 1 addr _ (packSizes tsize osize) 0) = _
    rw [htrans, houtput, hend]
  · unfold transAt
    rw [if_neg hnot, if_pos hmask, hone, hout, htrans, hdelta]
    rfl
  · intro b
    unfold findInput
    rw [if_pos (.inr hmask), hone]
    rfl

end Infinity.Fst
