import Infinity.Fst.Node

/-! # The builder of the term dictionary (`build.cppm`, `build.cpp`, `registry.cppm`)

Keys come in order. The nodes on the path of the last key are not finished, since the next key may
go on from them; all other nodes are compiled: written, or found in a registry of nodes that have
been written. Outputs are kept as close to the root as the keys so far allow.

* `FstBuilder.rejectsBadOrders_iff`: what the check of the order rejects.
-/

namespace Infinity.Fst

open Foundations

/-- The errors of the builder. -/
inductive FstError where
  | duplicatedKey
  | outOfOrder
  | format
  | version
  deriving DecidableEq, Repr

/-! ## The registry -/

def hashStep (h v : UInt64) : UInt64 := (h ^^^ v) * 1099511628211

/-- `BuilderNode::Hash`. -/
def BuilderNode.hash (node : BuilderNode) : UInt64 := node.trans.foldl
    (fun h t => hashStep (hashStep (hashStep h t.inp.toUInt64) t.out) (UInt64.ofNat t.addr))
    (hashStep (hashStep 14695981039346656037 (if node.isFinal then 1 else 0)) node.finalOutput)

/-- `RegistryCell`. -/
structure RegistryCell where
  key : BuilderNode := ⟨false, 0, []⟩
  value : ℕ := 0

/-- `Registry`: the cells by their slot. A cell that was never used holds the node without
transitions that is not final, with the value 0. -/
def Registry : Type := UInt64 → RegistryCell

namespace Registry

def empty : Registry := fun _ => {}

def slot (node : BuilderNode) : UInt64 := node.hash &&& 0xFFFF

/-- `Registry::Find`. -/
def find (registry : Registry) (node : BuilderNode) : Option ℕ :=
  if (registry (slot node)).key = node then some (registry (slot node)).value else none

/-- `Registry::Insert`: what the slot held is dropped. -/
def insert (registry : Registry) (node : BuilderNode) (value : ℕ) : Registry :=
  fun i => if i = slot node then ⟨node, value⟩ else registry i

end Registry

/-- What the builder has written. -/
structure NodeWriter where
  bytes : Bytes
  registry : Registry
  lastAddr : ℕ

/-- `FstBuilder::Compile`. -/
def NodeWriter.compile (w : NodeWriter) (node : BuilderNode) : NodeWriter × ℕ :=
  if node.isFinal ∧ node.trans = [] ∧ node.finalOutput = 0 then (w, emptyAddress)
  else
    match w.registry.find node with
    | some addr => (w, addr)
    | none =>
      let bytes := w.bytes ++ node.compile w.lastAddr w.bytes.length
      (⟨bytes, w.registry.insert node (bytes.length - 1), bytes.length - 1⟩, bytes.length - 1)

/-! ## Unfinished nodes -/

/-- `LastTransition`, if it is present. -/
structure LastTransition where
  inp : UInt8
  out : UInt64
  deriving DecidableEq, Repr

/-- `BuilderNodeUnfinished`. -/
structure BuilderNodeUnfinished where
  node : BuilderNode
  last : Option LastTransition
  deriving DecidableEq, Repr

def Transition.cat (add : UInt64) (t : Transition) : Transition := { t with out := add + t.out }

namespace BuilderNodeUnfinished

/-- A frame as `PushEmpty` makes it. -/
def empty (isFinal : Bool) : BuilderNodeUnfinished := ⟨⟨isFinal, 0, []⟩, none⟩

/-- `LastCompiled`. -/
def lastCompiled (u : BuilderNodeUnfinished) (addr : ℕ) : BuilderNodeUnfinished :=
  match u.last with
  | some t => ⟨{ u.node with trans := u.node.trans ++ [⟨t.inp, t.out, addr⟩] }, none⟩
  | none => u

/-- `AddOutputPrefix`. -/
def addOutputPrefix (u : BuilderNodeUnfinished) (add : UInt64) : BuilderNodeUnfinished :=
  ⟨⟨u.node.isFinal, if u.node.isFinal then add + u.node.finalOutput else u.node.finalOutput,
    u.node.trans.map (Transition.cat add)⟩, u.last.map fun t => ⟨t.inp, add + t.out⟩⟩

end BuilderNodeUnfinished

/-- `UnfinishedNodes`: the frames from the root to the top. -/
abbrev UnfinishedNodes := List BuilderNodeUnfinished

namespace UnfinishedNodes

/-- `SetRootOutput`. -/
def setRootOutput : UnfinishedNodes → UInt64 → UnfinishedNodes
  | [], _ => []
  | u :: us, out => { u with node := { u.node with isFinal := true, finalOutput := out } } :: us

/-- The frames behind the first byte of a suffix. -/
def suffixFrames (bs : Bytes) : UnfinishedNodes :=
  bs.map (fun b => ⟨⟨false, 0, []⟩, some ⟨b, 0⟩⟩) ++ [.empty true]

/-- `AddSuffix`, at the top frame. -/
def addSuffix : UnfinishedNodes → Bytes → UInt64 → UnfinishedNodes
  | us, [], _ => us
  | [], _, _ => []
  | [u], b :: bs, out => { u with last := some ⟨b, out⟩ } :: suffixFrames bs
  | u :: v :: us, b :: bs, out => u :: addSuffix (v :: us) (b :: bs) out

/-- `FindCommonPrefixAndSetOutput`: the frames with the outputs moved, the rest of the output, and
how many bytes are common. -/
def findCommonPrefixAndSetOutput : UnfinishedNodes → Bytes → UInt64 → UnfinishedNodes × UInt64 × ℕ
  | u :: v :: us, b :: bs, out =>
    match u.last with
    | some t =>
      if t.inp = b then
        let common := min t.out out
        let add := t.out - common
        let rest := findCommonPrefixAndSetOutput ((if add = 0 then v else v.addOutputPrefix add) ::
          us) bs (out - common)
        ((if add = 0 then u else { u with last := some ⟨t.inp, common⟩ }) :: rest.1, rest.2.1,
          rest.2.2 + 1)
      else (u :: v :: us, out, 0)
    | none => (u :: v :: us, out, 0)
  | us, _, out => (us, out, 0)

end UnfinishedNodes

namespace NodeWriter

/-- The loop of `CompileFrom`, from the top frame down: the address of the last node that was
compiled. -/
def compileFrames (w : NodeWriter) : UnfinishedNodes → NodeWriter × ℕ
  | [] => (w, noneAddress)
  | u :: us =>
    let (w, addr) := w.compileFrames us
    w.compile (if addr = noneAddress then u else u.lastCompiled addr).node

/-- `CompileFrom`: all frames above number `istate` are compiled, and this frame is then the top. -/
def compileFrom (w : NodeWriter) : UnfinishedNodes → ℕ → NodeWriter × UnfinishedNodes
  | [], _ => (w, [])
  | u :: us, 0 =>
    let (w, addr) := w.compileFrames us
    (w, [u.lastCompiled addr])
  | u :: us, istate + 1 =>
    let (w, us) := w.compileFrom us istate
    (w, u :: us)

end NodeWriter

/-! ## The builder -/

/-- `FstBuilder`. -/
structure FstBuilder where
  /-- `wtr_`, `registry_` and `last_addr_`. -/
  writer : NodeWriter
  unfinished : UnfinishedNodes
  last : Bytes
  len : ℕ

/-- `CheckLastKey`: the key to remember, or an error. -/
def checkLastKey (last bs : Bytes) (checkDupe : Bool) : Except FstError Bytes :=
  if last = [] then .ok last
  else if checkDupe ∧ last = bs then .error .duplicatedKey
  else if (last.zip bs).any fun p => p.2 < p.1 then .error .outOfOrder
  else if bs.length < min last.length bs.length then .error .outOfOrder
  else .ok bs

namespace FstBuilder

/-- `FstBuilder::FstBuilder`. -/
def new (ty : UInt64) : FstBuilder :=
  ⟨⟨leBytes 8 3 ++ leBytes 8 ty.toNat, .empty, noneAddress⟩, [.empty false], [], 0⟩

/-- `FstBuilder::InsertOutput`. -/
def insertOutput (builder : FstBuilder) (bs : Bytes) (val : UInt64) : FstBuilder :=
  if bs = [] then { builder with len := 1, unfinished := builder.unfinished.setRootOutput val }
  else
    let (us, out, prefixLen) := builder.unfinished.findCommonPrefixAndSetOutput bs val
    if prefixLen = bs.length then { builder with unfinished := us }
    else
      let (writer, us) := builder.writer.compileFrom us prefixLen
      { builder with
        writer, len := builder.len + 1, unfinished := us.addSuffix (bs.drop prefixLen) out }

/-- `FstBuilder::Insert`. -/
def insert (builder : FstBuilder) (bs : Bytes) (val : UInt64) : Except FstError FstBuilder := do
  let last ← checkLastKey builder.last bs true
  .ok ({ builder with last }.insertOutput bs val)

/-- `Finish`, given how the checksum is computed. -/
def finish (builder : FstBuilder) (maskedChecksum : Bytes → ℕ) : Bytes :=
  let (writer, us) := builder.writer.compileFrom builder.unfinished 0
  let (writer, rootAddr) :=
    writer.compile ((us.head?.map BuilderNodeUnfinished.node).getD ⟨false, 0, []⟩)
  let bytes := writer.bytes ++ leBytes 8 builder.len ++ leBytes 8 rootAddr
  bytes ++ leBytes 4 (maskedChecksum bytes)

def build (ty : UInt64) (maskedChecksum : Bytes → ℕ) (kvs : List (Bytes × UInt64)) :
    Except FstError Bytes := do
  let builder ← kvs.foldlM (fun builder e => builder.insert e.1 e.2) (new ty)
  .ok (builder.finish maskedChecksum)

/-! ## The order of the keys -/

/-- A sequence of calls of `Insert`. -/
def insertAll (builder : FstBuilder) (kvs : List (Bytes × UInt64)) : Except FstError FstBuilder :=
  kvs.foldlM (fun builder e => builder.insert e.1 e.2) builder

theorem last_insertOutput (builder : FstBuilder) (bs : Bytes) (val : UInt64) :
    (builder.insertOutput bs val).last = builder.last := by
  unfold insertOutput
  split
  · rfl
  · dsimp only
    split <;> rfl

/-- `CheckLastKey` returns before it would remember the first key, so that no key is ever
compared. -/
theorem insert_eq {builder : FstBuilder} (h : builder.last = []) (bs : Bytes) (val : UInt64) :
    builder.insert bs val = .ok (builder.insertOutput bs val) := by
  unfold insert checkLastKey
  rw [if_pos h]
  rfl

theorem insertAll_eq_ok {builder : FstBuilder} (h : builder.last = [])
    (kvs : List (Bytes × UInt64)) : ∃ builder', builder.insertAll kvs = .ok builder' := by
  induction kvs generalizing builder with
  | nil => exact ⟨builder, rfl⟩
  | cons e kvs ih =>
    unfold insertAll
    rw [List.foldlM_cons, insert_eq h]
    exact ih ((last_insertOutput _ _ _).trans h)

/-- Among the first calls of `Insert` one throws exactly if one of their keys is not above the key
before. -/
def RejectsBadOrders (ty : UInt64) (kvs : List (Bytes × UInt64)) : Prop :=
  ∀ n, (∃ e, (new ty).insertAll (kvs.take n) = .error e) ↔
    ¬ ((kvs.take n).map Prod.fst).IsChain (· < ·)

/-- **The builder rejects exactly the bad orders** only if there is nothing to reject. -/
theorem rejectsBadOrders_iff (ty : UInt64) (kvs : List (Bytes × UInt64)) :
    RejectsBadOrders ty kvs ↔ (kvs.map Prod.fst).IsChain (· < ·) := by
  have hnone : ∀ n, ¬ ∃ e, (new ty).insertAll (kvs.take n) = .error e := by
    rintro n ⟨e, he⟩
    obtain ⟨builder, hok⟩ : ∃ builder, (new ty).insertAll (kvs.take n) = .ok builder :=
      insertAll_eq_ok rfl _
    cases hok.symm.trans he
  simp only [RejectsBadOrders, iff_false_left (hnone _), not_not]
  constructor
  · intro h
    simpa using h kvs.length
  · intro h n
    rw [List.map_take]
    exact h.take n

/-- The second key is below the first, and no error is thrown. -/
theorem not_rejectsBadOrders_falling : ¬ RejectsBadOrders 0 [([98], 1), ([97], 2)] := by
  intro h
  obtain ⟨e, he⟩ := (h 2).mpr (by decide)
  cases he

end FstBuilder

end Infinity.Fst
