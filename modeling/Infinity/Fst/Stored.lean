import Infinity.Foundations.Transducer
import Infinity.Fst.Builder
import Infinity.Fst.LayoutAny

/-! # Compiled nodes stay readable

A node that the builder has compiled is read back from everything that is written from then on. The
nodes so form a transducer, whose states are the nodes and whose arrows are their transitions. -/

namespace Infinity.Fst

open Foundations List BuilderNode

/-! ## One node -/

theorem length_le_of_pairwise_inp {ts : List Transition}
    (h : ts.Pairwise fun s t => s.inp < t.inp) :
    (ts.map Transition.inp).Nodup ∧ ts.length ≤ 256 := by
  have hnodup : (ts.map Transition.inp).Nodup := by
    rw [Nodup, pairwise_map]
    exact h.imp fun hlt => UInt8.ne_of_lt hlt
  refine ⟨hnodup, ?_⟩
  -- distinct bytes have distinct numbers below 256
  have hnat : ((ts.map Transition.inp).map UInt8.toNat).Nodup :=
    hnodup.map fun _ _ => UInt8.toNat_inj.mp
  have hsub : (ts.map Transition.inp).map UInt8.toNat ⊆ List.range 256 := by
    intro i hi
    obtain ⟨b, -, rfl⟩ := mem_map.mp hi
    exact mem_range.mpr b.toNat_lt
  have hle := (hnat.subperm hsub).length_le
  rwa [length_map, length_map, length_range] at hle

def BuilderNode.Written (node : BuilderNode) : Prop :=
  ¬ (node.isFinal ∧ node.trans = [] ∧ node.finalOutput = 0)

theorem compileAnyTrans_ne_nil (node : BuilderNode) (addr : ℕ) :
    node.compileAnyTrans addr ≠ [] := by
  rw [node.compileAnyTrans_eq]
  simp [footer]

variable {x : Bytes} {lastAddr addr : ℕ} {node : BuilderNode}

/-- The bytes behind `x` are read back as the node, whatever is written behind them. -/
def ReadsBack (x bytes : Bytes) (node : BuilderNode) : Prop := bytes ≠ [] ∧
  ∀ z, (x ++ bytes ++ z).length < 2 ^ 64 →
  ∃ n, ReadBack (x ++ bytes ++ z) (x.length + bytes.length - 1) node n

theorem readBack_compile (hpos : 0 < x.length)
    (hlast : lastAddr = noneAddress ∨ lastAddr + 1 = x.length)
    (hlabels : node.trans.Pairwise fun s t => s.inp < t.inp)
    (htrans : ∀ t ∈ node.trans, Backward x.length t.addr ∧ t.addr ≠ noneAddress)
    (hnode : node.Written) : ReadsBack x (node.compile lastAddr x.length) node := by
  have hany : node.compile lastAddr x.length = node.compileAnyTrans x.length →
      ReadsBack x (node.compile lastAddr x.length) node := by
    intro heq
    rw [heq]
    have hne := compileAnyTrans_ne_nil node x.length
    obtain ⟨hnodup, hle⟩ := length_le_of_pairwise_inp hlabels
    refine ⟨hne, fun z hz => AnyNode.readBack (x := x) (z := z) ?_⟩
    exact ⟨append_assoc .., by omega, hpos, hz, hle, hnodup, fun t ht => (htrans t ht).1⟩
  have hnot : ¬ (node.trans = [] ∧ node.isFinal ∧ node.finalOutput = 0) :=
    fun h => hnode ⟨h.2.1, h.1, h.2.2⟩
  obtain ⟨isFinal, finalOutput, trans⟩ := node
  match trans, isFinal with
  | [t], false =>
    obtain ⟨hback, hnone⟩ := htrans t mem_cons_self
    by_cases hnext : t.addr = lastAddr ∧ t.out = 0
    · have heq : compile ⟨false, finalOutput, [t]⟩ lastAddr x.length =
          compileOneTransNext t.inp := by
        unfold compile
        exact if_pos hnext
      have hne : compileOneTransNext t.inp ≠ [] := by
        unfold compileOneTransNext
        simp
      have haddr : t.addr + 1 = x.length := by
        rw [hnext.1]
        exact hlast.resolve_left fun heq => hnone (hnext.1.trans heq)
      rw [heq]
      exact ⟨hne, fun z hz => readBack_oneTransNext (append_assoc ..) (by omega) hpos haddr
        hnext.2 hz⟩
    · have heq : compile ⟨false, finalOutput, [t]⟩ lastAddr x.length =
          compileOneTrans x.length t := by
        unfold compile
        exact if_neg hnext
      have hne : compileOneTrans x.length t ≠ [] := by
        unfold compileOneTrans
        simp
      rw [heq]
      exact ⟨hne, fun z hz => readBack_oneTrans (append_assoc ..) (by omega) hback hz⟩
  | [], _ | [_], true | _ :: _ :: _, _ =>
    apply hany
    unfold compile
    rw [if_neg hnot]

/-- A node is read back under an address, whatever is written behind. -/
structure Stored (bytes : Bytes) (addr : ℕ) (node : BuilderNode) : Prop where
  backward : Backward bytes.length addr
  ne_none : addr ≠ noneAddress
  descend : ∀ t ∈ node.trans, t.addr < addr
  read : ∀ z, (bytes ++ z).length < 2 ^ 64 → ∃ n, ReadBack (bytes ++ z) addr node n

variable {bytes bytes' : Bytes}

theorem Stored.mono (h : Stored bytes addr node) (hext : bytes <+: bytes') :
    Stored bytes' addr node := by
  obtain ⟨y, rfl⟩ := hext
  refine ⟨?_, h.ne_none, h.descend, fun z hz => ?_⟩
  · refine h.backward.imp_right fun hlt => ?_
    rw [length_append]
    omega
  · rw [append_assoc] at hz ⊢
    exact h.read (y ++ z) hz

/-- The empty final state needs no bytes. -/
theorem stored_emptyAddress (bytes : Bytes) : Stored bytes emptyAddress ⟨true, 0, []⟩ := by
  refine ⟨.inl rfl, by decide, nofun,
    fun z _ => ⟨⟨0, true, 0, emptyAddress, emptyAddress, 0, 0⟩, ?_⟩⟩
  exact ⟨rfl, rfl, rfl, rfl, rfl, nofun, nofun, fun _ _ _ => rfl, nofun, nofun⟩

/-! ## The writer -/

/-- What holds of the writer. -/
structure NodeWriter.Valid (w : NodeWriter) : Prop where
  pos : 2 ≤ w.bytes.length
  lastAddr : w.lastAddr = noneAddress ∨ w.lastAddr + 1 = w.bytes.length
  registry : ∀ i, (w.registry i).key = ⟨false, 0, []⟩ ∨
    Stored w.bytes (w.registry i).value (w.registry i).key

/-- **A node that is compiled is stored.** It is the empty final state, or found in the registry, or
written. -/
theorem NodeWriter.Valid.compile {w : NodeWriter} (h : w.Valid)
    (hlabels : node.trans.Pairwise fun s t => s.inp < t.inp)
    (htrans : ∀ t ∈ node.trans, ∃ n, Stored w.bytes t.addr n) (hne : node ≠ ⟨false, 0, []⟩) :
      (w.compile node).1.Valid ∧ w.bytes <+: (w.compile node).1.bytes ∧
      Stored (w.compile node).1.bytes (w.compile node).2 node := by
  unfold NodeWriter.compile
  split
  next hempty =>
    obtain ⟨isFinal, finalOutput, trans⟩ := node
    obtain ⟨rfl, rfl, rfl⟩ := hempty
    exact ⟨h, prefix_refl _, stored_emptyAddress _⟩
  next hnode =>
    cases hfind : w.registry.find node with
    | some addr =>
      unfold Registry.find at hfind
      split at hfind
      next hkey =>
        cases hfind
        have hcell := (h.registry (Registry.slot node)).resolve_left fun heq =>
          hne (hkey.symm.trans heq)
        rw [hkey] at hcell
        exact ⟨h, prefix_refl _, hcell⟩
      next => cases hfind
    | none =>
      have hpos := h.pos
      obtain ⟨hbytes, hread⟩ := readBack_compile (by omega) h.lastAddr hlabels
        (fun t ht => (htrans t ht).elim fun n hn => ⟨hn.backward, hn.ne_none⟩) hnode
      set bytes := w.bytes ++ node.compile w.lastAddr w.bytes.length with hdef
      have hlength :
          bytes.length = w.bytes.length + (node.compile w.lastAddr w.bytes.length).length := by
        rw [hdef, length_append]
      have hgrow := length_pos_iff.mpr hbytes
      have hext : w.bytes <+: bytes := prefix_append _ _
      have hstored : Stored bytes (bytes.length - 1) node := by
        refine ⟨.inr (by omega), by unfold noneAddress; omega, ?_, ?_⟩
        · intro t ht
          obtain ⟨n, hn⟩ := htrans t ht
          have hback := hn.backward
          unfold Backward emptyAddress at hback
          omega
        · intro z hz
          have hz' := hread z hz
          rwa [← hlength] at hz'
      refine ⟨⟨by show 2 ≤ bytes.length; omega,
          .inr (by show bytes.length - 1 + 1 = bytes.length; omega), ?_⟩,
        hext, hstored⟩
      intro i
      show (Registry.insert w.registry node (bytes.length - 1) i).key = _ ∨
        Stored bytes (Registry.insert w.registry node (bytes.length - 1) i).value
          (Registry.insert w.registry node (bytes.length - 1) i).key
      unfold Registry.insert
      split
      · exact .inr hstored
      · exact (h.registry i).imp_right fun hold => hold.mono hext

def BuilderNode.final (node : BuilderNode) : Option UInt64 :=
  if node.isFinal then some node.finalOutput else none

/-- The nodes that are stored in some bytes as a transducer. -/
def machine (bytes : Bytes) : Transducer UInt8 UInt64 Transition BuilderNode where
  label := Transition.inp
  out := Transition.out
  leads t n := Stored bytes t.addr n
  final := final
  arrows := trans

theorem branches_mono {ts : List Transition} {r : List (Bytes × UInt64)}
    (h : (machine bytes).Branches ts r) (hext : bytes <+: bytes') :
    (machine bytes').Branches ts r :=
  h.mono fun _ _ hstored => hstored.mono hext

end Infinity.Fst
